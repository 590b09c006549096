import JailFs.Exec
import JailFs.TreeSearch

/-!
# Runs of the operations of `tree.c`

A run starts with an empty tree. The label of an insertion has the node that the allocator gave and
the data, the label of a deletion the node and the data it had. Every operation on a node of the
tree returns, and afterwards the tree holds what was inserted without what was deleted, in order.
-/

namespace JailFs

open LinkedTree RedBlack Comparator

variable {α : Type} {cmpfunc : α → α → ℤ} {s s' : TreeMem α} {t t' : DataTree α} {z : Addr}

inductive TreeOp (α : Type)
  | insert (m : Addr) (x : α)
  | delete (node : Addr) (x : α)
  | leftRotate (node : Addr)
  | rightRotate (node : Addr)

namespace TreeOp

/-- The allocator gives a free node, and the other operations are called with a node in use. -/
def Allowed (s : TreeMem α) : TreeOp α → Prop
  | insert m _ => s.heap m = none
  | delete node x => ∃ cell, s.heap node = some cell ∧ cell.val.data = some x
  | leftRotate node => (s.heap node).isSome
  | rightRotate node => (s.heap node).isSome

def Returns (cmpfunc : α → α → ℤ) (s : TreeMem α) : TreeOp α → TreeMem α → Prop
  | insert m x, s' => (treeInsert cmpfunc s m x).Returns s'
  | delete node _, s' => (treeDelete s node).Returns s'
  | leftRotate node, s' => JailFs.leftRotate s node = some s'
  | rightRotate node, s' => JailFs.rightRotate s node = some s'

def inserted : TreeOp α → List α
  | insert _ x => [x]
  | _ => []

def deleted : TreeOp α → List α
  | delete _ x => [x]
  | _ => []

theorem Returns.unique {op : TreeOp α} {s₁ s₂ : TreeMem α} (h₁ : op.Returns cmpfunc s s₁)
    (h₂ : op.Returns cmpfunc s s₂) : s₁ = s₂ := by
  cases op with
  | insert => exact Program.Returns.unique h₁ h₂
  | delete => exact Program.Returns.unique h₁ h₂
  | leftRotate => exact Option.some.inj (h₁.symm.trans h₂)
  | rightRotate => exact Option.some.inj (h₁.symm.trans h₂)

end TreeOp

def treeStep (cmpfunc : α → α → ℤ) (s : TreeMem α) (op : TreeOp α) (s' : TreeMem α) : Prop :=
  op.Allowed s ∧ op.Returns cmpfunc s s'

theorem inorder_attach {c : Ctx Addr (Item α)} {m : Addr} {i : Item α} :
    (inorder (plug c (.node .nil m i .nil))).Perm (i.data :: inorder (plug c .nil)) := by
  rw [inorder_plug, inorder_plug, inorder_node]
  simp [inorder, Tree.entries, List.perm_middle]

theorem sorted_attach {c : Ctx Addr (Item α)} {m : Addr} {i : Item α}
    (hfits : Fits cmpfunc i.data c) (h : Sorted cmpfunc (inorder (plug c .nil))) :
    Sorted cmpfunc (inorder (plug c (.node .nil m i .nil))) := by
  rw [inorder_plug] at h ⊢
  rw [inorder_node]
  have h' : Sorted cmpfunc ((before c).map (fun e => e.2.data) ++ i.data ::
      (after c).map fun e => e.2.data) := by
    refine Sorted.insert (by simpa [inorder, Tree.entries] using h) (fun a ha => ?_) fun a ha => ?_
    · obtain ⟨e, he, rfl⟩ := List.mem_map.mp ha
      exact hfits.1 e he
    · obtain ⟨e, he, rfl⟩ := List.mem_map.mp ha
      exact (hfits.2 e he).le
  simpa [inorder, Tree.entries] using h'

/-- The data that leaves the tree is that of the node, and all else keeps its order. -/
theorem Pulls.data {c c' : Ctx Addr (Item α)} {l r : DataTree α} {y : Addr} {b : Item α} {x : α}
    {cell : TreeNode α} (h : Pulls t z c c' l y b r) (hs : s.Shows t []) (hz : s.heap z = some cell)
    (hx : cell.val.data = some x) :
    (inorder t).Perm (x :: inorder (plug c' (onlyChild l r))) ∧
      (inorder (plug c' (onlyChild l r))).Sublist (inorder t) := by
  obtain ⟨before, i, after, ht, ht'⟩ := h.order
  obtain ⟨cell', hcell', hval⟩ := hs.rep.val_of_mem (a := z) (b := i) (by rw [ht]; simp)
  obtain rfl := Option.some.inj (hcell'.symm.trans hz)
  have hix : i.data = x := by
    rw [hval] at hx
    exact Option.some.inj hx
  rw [ht', inorder, ht, ← hix]
  constructor
  · simp [List.perm_middle]
  · simp

/-- A rotation keeps the order, and does nothing if the child is missing. -/
theorem TreeMem.Shows.rotate_node (d : Side) (hs : s.Shows t []) (hz : z ∈ t.addrs) :
    ∃ s' t', JailFs.rotate d s z = some s' ∧ s'.Shows t' [] ∧ inorder t' = inorder t := by
  obtain ⟨c, A, b, u, rfl⟩ := exists_plug_sided d hz
  by_cases hu : u = .nil
  · subst hu
    exact ⟨s, _, hs.rotate_missing, hs, rfl⟩
  · obtain ⟨B, y, b', C, rfl⟩ := Tree.exists_sided d hu
    obtain ⟨s', hret, hs'⟩ := hs.rotate
    refine ⟨s', _, hret, hs', ?_⟩
    rw [inorder, inorder, entries_plug_congr Tree.entries_rotate]

theorem treeStep_spec (hcmp : IsPreorder cmpfunc) (hs : s.Shows t [])
    (hsorted : Sorted cmpfunc (inorder t)) {op : TreeOp α} (hop : op.Allowed s) :
    ∃ s' t', op.Returns cmpfunc s s' ∧ s'.Shows t' [] ∧ Sorted cmpfunc (inorder t') ∧
      (op.inserted ++ inorder t).Perm (op.deleted ++ inorder t') := by
  have hmem (z : Addr) (h : (s.heap z).isSome) : z ∈ t.addrs := by simpa using (hs.nodes z).mp h
  cases op with
  | insert m x =>
    obtain ⟨c, s', rfl, hfits, hret, hs'⟩ := hs.treeInsert hcmp hsorted hop x
    refine ⟨s', _, hret, hs', sorted_attach hfits hsorted, ?_⟩
    exact (inorder_attach (m := m) (i := ⟨x, .red⟩)).symm
  | delete z x =>
    obtain ⟨cell, hcell, hx⟩ := hop
    obtain ⟨c, c', l, y, b, r, s', hpull, hret, hs'⟩ := hs.treeDelete (hmem z (by rw [hcell]; rfl))
    obtain ⟨hperm, hsub⟩ := hpull.data hs hcell hx
    exact ⟨s', _, hret, hs', hsorted.sublist hsub, hperm⟩
  | leftRotate z =>
    obtain ⟨s', t', hret, hs', ht'⟩ := hs.rotate_node .left (hmem z hop)
    exact ⟨s', t', hret, hs', ht' ▸ hsorted, by rw [ht']; rfl⟩
  | rightRotate z =>
    obtain ⟨s', t', hret, hs', ht'⟩ := hs.rotate_node .right (hmem z hop)
    exact ⟨s', t', hret, hs', ht' ▸ hsorted, by rw [ht']; rfl⟩

/-- What a tree is after the operations `ops`. -/
structure Ordered (cmpfunc : α → α → ℤ) (ops : List (TreeOp α)) (s : TreeMem α)
    (t : DataTree α) : Prop where
  shows : s.Shows t []
  sorted : Sorted cmpfunc (inorder t)
  data : (ops.flatMap TreeOp.inserted).Perm (ops.flatMap TreeOp.deleted ++ inorder t)

theorem Ordered.extend {ops : List (TreeOp α)} {op : TreeOp α} (h : Ordered cmpfunc ops s t)
    (hs' : s'.Shows t' []) (hsorted : Sorted cmpfunc (inorder t'))
    (hperm : (op.inserted ++ inorder t).Perm (op.deleted ++ inorder t')) :
    Ordered cmpfunc (ops ++ [op]) s' t' := by
  refine ⟨hs', hsorted, ?_⟩
  simp only [List.flatMap_append, List.flatMap_singleton, List.append_assoc]
  have hbefore := h.data.append_right op.inserted
  rw [List.append_assoc] at hbefore
  exact hbefore.trans ((List.perm_append_comm.trans hperm).append_left _)

theorem Ordered.step (hcmp : IsPreorder cmpfunc) {ops : List (TreeOp α)} {op : TreeOp α}
    (h : Ordered cmpfunc ops s t) (hstep : treeStep cmpfunc s op s') :
    ∃ t', Ordered cmpfunc (ops ++ [op]) s' t' := by
  obtain ⟨s₁, t', hret, hs', hsorted, hperm⟩ := treeStep_spec hcmp h.shows h.sorted hstep.1
  obtain rfl := hret.unique hstep.2
  exact ⟨t', h.extend hs' hsorted hperm⟩

theorem ordered_empty : Ordered cmpfunc [] (.empty : TreeMem α) .nil :=
  ⟨TreeMem.shows_empty, List.Pairwise.nil, .nil⟩

/-- Every tree that the operations lead to has matching pointers and holds, in order, the inserted
data without the deleted. A search finds a node that compares equal to the key exactly if there is
one, and every operation on a node of the tree returns. -/
theorem tree_run_ordered (hcmp : IsPreorder cmpfunc) {ops : List (TreeOp α)}
    (hrun : Exec (treeStep cmpfunc) .empty ops s) :
    ∃ t, Ordered cmpfunc ops s t ∧ s.LinksAgree ∧
      (∀ key, ∃ res, (treeSearch cmpfunc s key).Returns res ∧ Found cmpfunc s key t res) ∧
      ∀ op, op.Allowed s → ∃ s', treeStep cmpfunc s op s' := by
  obtain ⟨t, ht⟩ := hrun.history_invariant (I := fun ops s => ∃ t, Ordered cmpfunc ops s t)
    ⟨.nil, ordered_empty⟩ fun ops s op s' h hstep => h.elim fun t ht => ht.step hcmp hstep
  refine ⟨t, ht, ht.shows.linksAgree, fun key => ht.shows.treeSearch hcmp ht.sorted, ?_⟩
  intro op hop
  obtain ⟨s', -, hret, -⟩ := treeStep_spec hcmp ht.shows ht.sorted hop
  exact ⟨s', hop, hret⟩

theorem isPreorder_sub : IsPreorder fun a b : ℤ => a - b where
  swap _ _ := by omega
  trans _ _ _ _ _ := by omega

theorem tree_run_ordered_rotated : ∃ s t, Ordered (fun a b : ℤ => a - b)
    [.insert 1 5, .insert 2 5, .insert 3 2, .leftRotate 1, .delete 2 5] s t ∧ s.LinksAgree := by
  obtain ⟨s, hrun⟩ : ∃ s, Exec (treeStep fun a b : ℤ => a - b) .empty
      [.insert 1 5, .insert 2 5, .insert 3 2, .leftRotate 1, .delete 2 5] s :=
    ⟨_, ((((Exec.nil _).snoc ⟨rfl, 9, rfl⟩).snoc ⟨rfl, 9, rfl⟩).snoc ⟨rfl, 9, rfl⟩).snoc
      ⟨rfl, rfl⟩ |>.snoc ⟨⟨_, rfl, rfl⟩, 9, rfl⟩⟩
  obtain ⟨t, ht, hlinks, -⟩ := tree_run_ordered isPreorder_sub hrun
  exact ⟨s, t, ht, hlinks⟩

end JailFs
