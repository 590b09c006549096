import JailFs.TreeOrder
import JailFs.TreeRun

/-!
# Walks over a tree

`tree_minimum`, `tree_maximum`, `tree_successor` and `tree_predecessor` follow the pointers of the
nodes. From either end of the tree they lead over all of its nodes in order, each node once, to
`NULL`.
-/

namespace JailFs

open LinkedTree RedBlack Comparator

section Source

variable {α : Type}

/-- The last node on the way down on the side `d`. -/
def followTo (d : Side) (s : TreeMem α) (node : Addr) : Program Addr :=
  Program.loop (fun node => do
    let cell ← s.heap node
    match cell.child d with
    | none => some (.inl node)
    | some next => some (.inr next)) node

def treeMaximum (s : TreeMem α) (node : Addr) : Program Addr := followTo .right s node

/-- One turn of the loop that leaves the subtrees on the side `d`, on `node` and `next`. -/
def climbBody (d : Side) (s : TreeMem α) :
    Addr × Option Addr → Option (Option Addr ⊕ (Addr × Option Addr))
  | (_, none) => some (.inl none)
  | (node, some next) => do
    let cell ← s.heap next
    if cell.child d = some node then some (.inr (next, cell.parent)) else some (.inl (some next))

/-- The next node on the way to the side `d`. -/
def neighbour (d : Side) (s : TreeMem α) (node : Addr) : Program (Option Addr) := do
  let cell ← s.heap node
  match cell.child d with
  | some child => do
    let next ← followTo d.other s child
    pure (some next)
  | none => Program.loop (climbBody d s) (node, cell.parent)

def treePredecessor (s : TreeMem α) (node : Addr) : Program (Option Addr) := neighbour .left s node

end Source

variable {α : Type} {s : TreeMem α} {t u : DataTree α} {c : Ctx Addr (Item α)} {d : Side}
  {x : Addr} {par : Option Addr}

theorem toward_other_sided {a : Addr} {b : Item α} :
    toward d.other (.sided d t a b u) = toward d.other t ++ a :: toward d.other u := by
  rw [← toward_sided_other, Side.other_other]

theorem followTo_returns (hrep : Rep Item.stored s.heap par t) (hx : t.top = some x) :
    ∃ y, (followTo d s x).Returns y ∧ (toward d.other t).head? = some y := by
  generalize hn : t.depth = n
  induction n using Nat.strong_induction_on generalizing t par x with
  | _ n ih =>
    have hne : t ≠ .nil := fun h => by rw [h] at hx; cases hx
    obtain ⟨t', a, b, u, rfl⟩ := Tree.exists_sided d hne
    obtain rfl : a = x := by simpa using hx
    obtain ⟨hcell, hrep', -⟩ := rep_sided.mp hrep
    have hlt : t'.depth < n := by
      have h := Tree.depth_child_lt hne d
      rwa [Tree.child_sided, hn] at h
    rw [toward_other_sided]
    cases ht : t'.top with
    | none =>
      obtain rfl := Tree.top_eq_none_iff.mp ht
      refine ⟨a, Program.loop_ends ?_, by rw [toward_nil]; rfl⟩
      simp only [hcell, Option.bind_eq_bind, Option.bind_some, Cell.child_sided, Tree.top]
    | some z =>
      obtain ⟨y, hret, hy⟩ := ih _ hlt hrep' ht rfl
      refine ⟨y, Program.loop_goes_on ?_ hret, by rw [List.head?_append, hy, Option.some_or]⟩
      simp only [hcell, Option.bind_eq_bind, Option.bind_some, Cell.child_sided, ht]

theorem climb_returns (hrep : Rep Item.stored s.heap none (plug c t))
    (hnd : (plug c t).addrs.Nodup) (hx : t.top = some x) :
    (Program.loop (climbBody d s) (x, above c)).Returns (ahead d c).head? := by
  induction c generalizing t x with
  | nil => exact Program.loop_ends rfl
  | cons f c ih =>
    rw [plug_cons] at hrep hnd
    have hcell := (rep_sided.mp (rep_plug.mp hrep).1).1
    rw [ahead]
    rcases Side.eq_or_eq_other d f.side with hf | hf
    · rw [hf] at hrep hnd hcell
      rw [if_pos hf, List.nil_append]
      refine Program.loop_goes_on ?_ (ih hrep hnd Tree.top_sided)
      simp only [climbBody, above, hcell, Option.bind_eq_bind, Option.bind_some,
        Cell.child_sided, hx, if_true, Cell.parent_sided]
    · rw [hf] at hnd hcell
      rw [if_neg (by rw [hf]; cases d <;> decide), List.cons_append, List.head?_cons]
      have hother : (Cell.sided d.other t.top f.sibling.top (above c) f.val.stored).child d =
          f.sibling.top := by
        rw [Cell.sided_other, Cell.child_sided]
      have hne : f.sibling.top ≠ some x := by
        intro hsib
        have hdisj := (Tree.nodup_sided.mp (nodup_plug.mp hnd).1).2.2.2.2
        exact hdisj (Tree.mem_addrs_of_top hx) (Tree.mem_addrs_of_top hsib)
      have hbody : climbBody d s (x, some f.addr) = some (.inl (some f.addr)) := by
        rw [climbBody, hcell, Option.bind_eq_bind, Option.bind_some, hother, if_neg hne]
      exact Program.loop_ends hbody

theorem neighbour_returns (hs : s.Shows t []) {front rest : List Addr}
    (h : toward d t = front ++ x :: rest) : (neighbour d s x).Returns rest.head? := by
  have hperm : (toward d t).Perm t.addrs := by
    cases d
    · exact List.reverse_perm _
    · exact .refl _
  obtain ⟨c, u, b, w, rfl⟩ := exists_plug_sided d (hperm.subset (by rw [h]; simp) : x ∈ t.addrs)
  have hcell := hs.heap_at
  obtain ⟨-, hrep, -⟩ := rep_sided.mp (rep_plug.mp hs.rep).1
  -- A node has one place in the order.
  have hrest : rest = toward d u ++ ahead d c := by
    have hnd := hperm.nodup_iff.mpr hs.nodup
    rw [h] at hnd
    rw [toward_plug, toward_sided, List.append_assoc, List.append_assoc, List.cons_append,
      ← List.append_assoc] at h
    obtain ⟨-, hfresh, hdisj⟩ := List.nodup_append'.mp hnd
    rw [List.disjoint_cons_right] at hdisj
    obtain ⟨-, -, hrest⟩ :=
      (List.append_cons_inj_of_notMem hdisj.1 (List.nodup_cons.mp hfresh).1).mp h.symm
    exact hrest
  rw [hrest]
  refine Program.returns_lift_bind hcell ?_
  cases hu : u.top with
  | none =>
    obtain rfl := Tree.top_eq_none_iff.mp hu
    simp only [Cell.child_sided, Cell.parent_sided, toward_nil, List.nil_append]
    exact climb_returns hs.rep hs.nodup Tree.top_sided
  | some z =>
    obtain ⟨y, hret, hy⟩ := followTo_returns (d := d.other) hrep hu
    rw [Side.other_other] at hy
    simp only [Cell.child_sided, List.head?_append, hy, Option.some_or]
    exact Program.returns_bind hret (Program.returns_pure _)

/-- A walk that goes from node to node by `next` until `NULL`. -/
inductive Walk (next : Addr → Program (Option Addr)) : Option Addr → List Addr → Prop
  | done : Walk next none []
  | step {x : Addr} {y : Option Addr} {l : List Addr} (hret : (next x).Returns y)
      (hrest : Walk next y l) : Walk next (some x) (x :: l)

theorem walk_neighbour (hs : s.Shows t []) {front rest : List Addr}
    (h : toward d t = front ++ rest) : Walk (neighbour d s) rest.head? rest := by
  induction rest generalizing front with
  | nil => exact .done
  | cons x rest ih =>
    have hnext : toward d t = (front ++ [x]) ++ rest := by
      rw [h, List.append_assoc, List.singleton_append]
    exact .step (neighbour_returns hs h) (ih hnext)

/-- The walks in both directions go over the nodes `l`, from one end of the tree to the other. -/
structure Enumerates (s : TreeMem α) (l : List Addr) : Prop where
  empty : s.root = none → l = []
  forward : ∀ root, s.root = some root →
    ∃ first, (treeMinimum s root).Returns first ∧ Walk (treeSuccessor s) (some first) l
  backward : ∀ root, s.root = some root →
    ∃ last, (treeMaximum s root).Returns last ∧ Walk (treePredecessor s) (some last) l.reverse

theorem TreeMem.Shows.enumerates (hs : s.Shows t []) : Enumerates s t.addrs := by
  refine ⟨fun h => ?_, fun root hroot => ?_, fun root hroot => ?_⟩
  · rw [hs.root, Tree.top_eq_none_iff] at h
    rw [h, Tree.addrs_nil]
  · rw [hs.root] at hroot
    obtain ⟨first, hret, hhead⟩ := followTo_returns (d := .left) hs.rep hroot
    refine ⟨first, hret, ?_⟩
    have hwalk := walk_neighbour (d := .right) hs (List.nil_append _).symm
    exact hhead ▸ hwalk
  · rw [hs.root] at hroot
    obtain ⟨last, hret, hhead⟩ := followTo_returns (d := .right) hs.rep hroot
    refine ⟨last, hret, ?_⟩
    have hwalk := walk_neighbour (d := .left) hs (List.nil_append _).symm
    exact hhead ▸ hwalk

theorem exists_ordered {cmpfunc : α → α → ℤ} (hcmp : IsPreorder cmpfunc) {ops : List (TreeOp α)}
    (hrun : Exec (treeStep cmpfunc) .empty ops s) : ∃ t, Ordered cmpfunc ops s t :=
  hrun.history_invariant (I := fun ops s => ∃ t, Ordered cmpfunc ops s t) ⟨.nil, ordered_empty⟩
    fun _ _ _ _ h hstep => h.elim fun _ ht => ht.step hcmp hstep

/-- After any run of the operations the walks go over every node of the tree once, and meet the
data in order. -/
theorem tree_run_enumerated {cmpfunc : α → α → ℤ} (hcmp : IsPreorder cmpfunc)
    {ops : List (TreeOp α)} (hrun : Exec (treeStep cmpfunc) .empty ops s) :
    ∃ nodes data, Enumerates s nodes ∧ nodes.Nodup ∧ (∀ p, (s.heap p).isSome ↔ p ∈ nodes) ∧
      (nodes.map fun p => (s.heap p).bind fun cell => cell.val.data) = data.map some ∧
      Sorted cmpfunc data ∧
      (ops.flatMap TreeOp.inserted).Perm (ops.flatMap TreeOp.deleted ++ data) := by
  obtain ⟨t, ht⟩ := exists_ordered hcmp hrun
  refine ⟨t.addrs, inorder t, ht.shows.enumerates, ht.shows.nodup, ?_, ?_, ht.sorted, ht.data⟩
  · intro p
    rw [ht.shows.nodes p]
    simp
  · rw [Tree.addrs, inorder, List.map_map, List.map_map]
    refine List.map_congr_left fun e he => ?_
    obtain ⟨cell, hcell, hval⟩ := ht.shows.rep.val_of_mem he
    simp only [Function.comp_apply, hcell, Option.bind_some, hval, Item.stored]

theorem tree_run_enumerated_pair : ∃ (s : TreeMem ℤ) (nodes : List Addr) (data : List ℤ),
    Enumerates s nodes ∧ Sorted (fun a b => a - b) data ∧ [2, 1].Perm data := by
  have h₀ : Exec (treeStep fun a b : ℤ => a - b) .empty [] .empty := Exec.nil _
  have h₁ := h₀.snoc (a := TreeOp.insert 1 2) ⟨rfl, 9, rfl⟩
  have h₂ := h₁.snoc (a := TreeOp.insert 2 1) ⟨rfl, 9, rfl⟩
  obtain ⟨nodes, data, hwalks, -, -, -, hsorted, hdata⟩ := tree_run_enumerated isPreorder_sub h₂
  exact ⟨_, nodes, data, hwalks, hsorted, hdata⟩

end JailFs
