import JailFs.TreeWalk

/-!
# `traverse` and `destroy_node`

Both walk over a subtree by recursion; `depth` bounds how deep the calls are nested. `traverse`
hands every datum to the callback once, a node before its subtrees. `destroy_node` frees the data
and the node of every node of the subtree, each once, and reads no node that it has freed.
-/

namespace JailFs

open LinkedTree RedBlack Comparator

section Source

variable {α : Type}

/-- What `traverse` hands to the callback, in order. -/
def traverse (s : TreeMem α) : ℕ → Option Addr → Program (List (Option α))
  | 0, _ => .never
  | _ + 1, none => pure []
  | depth + 1, some node => do
    let cell ← s.heap node
    let left ← traverse s depth cell.left
    let right ← traverse s depth cell.right
    pure (cell.val.data :: (left ++ right))

def ifChild (call : TreeMem α → Addr → Program (TreeMem α)) (s : TreeMem α) :
    Option Addr → Program (TreeMem α)
  | none => pure s
  | some child => call s child

def destroyNode : ℕ → TreeMem α → Addr → Program (TreeMem α)
  | 0, _, _ => .never
  | depth + 1, s, node => do
    let cell ← s.heap node
    let s ← ifChild (destroyNode depth) s cell.left
    let cell ← s.heap node
    let s ← ifChild (destroyNode depth) s cell.right
    let s ← s.write node fun cell => { cell with left := none, right := none, parent := none }
    let cell ← s.heap node
    -- `mem_free` does not take `NULL`
    let _ ← cell.val.data
    let s ← s.setData node none
    pure (s.free node)

end Source

variable {α : Type} {s s' : TreeMem α} {t l r : DataTree α} {depth : ℕ} {x : Addr}
  {par : Option Addr} {loose : List Addr}

def preorder : DataTree α → List α
  | .nil => []
  | .node l _ b r => b.data :: (preorder l ++ preorder r)

theorem preorder_perm (t : DataTree α) : (preorder t).Perm (inorder t) := by
  induction t with
  | nil => exact .refl _
  | node l a b r ihl ihr =>
    rw [preorder, inorder_node]
    exact ((ihl.append ihr).cons b.data).trans List.perm_middle.symm

theorem traverse_returns (hrep : Rep Item.stored s.heap par t) (hdepth : t.depth < depth) :
    (traverse s depth t.top).Returns ((preorder t).map some) := by
  induction depth generalizing t par with
  | zero => omega
  | succ depth ih =>
    cases t with
    | nil => exact Program.returns_pure _
    | node l a b r =>
      rw [Tree.depth] at hdepth
      have hl := ih hrep.2.1 (t := l) (by omega)
      have hr := ih hrep.2.2 (t := r) (by omega)
      rw [preorder, List.map_cons, List.map_append]
      exact Program.returns_lift_bind hrep.1
        (Program.returns_bind hl (Program.returns_bind hr (Program.returns_pure _)))

/-- The nodes of `t` are freed, and nothing else changes. -/
structure Freed (t : DataTree α) (s s' : TreeMem α) : Prop where
  gone : ∀ p ∈ t.addrs, s'.heap p = none
  kept : ∀ p ∉ t.addrs, s'.heap p = s.heap p

theorem destroy_child
    (ih : ∀ x, t.top = some x → ∃ s', (destroyNode depth s x).Returns s' ∧ Freed t s s') :
    ∃ s', (ifChild (destroyNode depth) s t.top).Returns s' ∧ Freed t s s' := by
  cases ht : t.top with
  | none =>
    obtain rfl := Tree.top_eq_none_iff.mp ht
    exact ⟨s, Program.returns_pure s, fun p hp => absurd hp List.not_mem_nil, fun p _ => rfl⟩
  | some x => exact ih x ht

theorem free_heap {p : Addr} (hp : p ≠ x) : (s.free x).heap p = s.heap p :=
  Function.update_of_ne hp _ _

theorem destroyNode_returns (hrep : Rep Item.stored s.heap par t) (hnd : t.addrs.Nodup)
    (hx : t.top = some x) (hdepth : t.depth < depth) :
    ∃ s', (destroyNode depth s x).Returns s' ∧ Freed t s s' := by
  induction depth generalizing s t par x with
  | zero => omega
  | succ depth ih =>
    cases t with
    | nil => cases hx
    | node l a b r =>
      obtain rfl : x = a := Option.some.inj hx.symm
      rw [Tree.depth] at hdepth
      obtain ⟨hcell, hl, hr⟩ := hrep
      obtain ⟨hxl, hxr, hndl, hndr, hdisj⟩ := Tree.nodup_sided (d := .left).mp hnd
      obtain ⟨s₁, hret₁, hfreed₁⟩ := destroy_child fun y hy => ih hl hndl hy (by omega)
      -- What follows works on nodes that the first call has not touched.
      have hr₁ : Rep Item.stored s₁.heap (some x) r :=
        hr.congr fun p hp => hfreed₁.kept p fun hpl => hdisj hpl hp
      obtain ⟨s₂, hret₂, hfreed₂⟩ := destroy_child fun y hy => ih hr₁ hndr hy (by omega)
      have hcell₁ : s₁.heap x = some ⟨l.top, r.top, par, b.stored⟩ :=
        (hfreed₁.kept x hxl).trans hcell
      have hcell₂ : s₂.heap x = some ⟨l.top, r.top, par, b.stored⟩ :=
        (hfreed₂.kept x hxr).trans hcell₁
      obtain ⟨s₃, hwrite, -, hat₃, hkeep₃⟩ := TreeMem.write_spec
        (fun cell => { cell with left := none, right := none, parent := none }) hcell₂
      obtain ⟨s₄, hdata, -, -, hkeep₄⟩ := TreeMem.write_spec
        (fun cell => { cell with val := { cell.val with data := none } }) hat₃
      refine ⟨s₄.free x, ?_, ?_, ?_⟩
      · refine Program.returns_lift_bind hcell (Program.returns_bind hret₁ ?_)
        refine Program.returns_lift_bind hcell₁ (Program.returns_bind hret₂ ?_)
        refine Program.returns_lift_bind hwrite (Program.returns_lift_bind hat₃ ?_)
        exact Program.returns_lift_bind rfl
          (Program.returns_lift_bind hdata (Program.returns_pure _))
      · intro p hp
        by_cases hpx : p = x
        · rw [hpx]
          exact Function.update_self _ _ _
        · have hsame : (s₄.free x).heap p = s₂.heap p := by
            rw [free_heap hpx, hkeep₄ p hpx, hkeep₃ p hpx]
          rw [hsame]
          by_cases hpr : p ∈ r.addrs
          · exact hfreed₂.gone p hpr
          · rw [hfreed₂.kept p hpr]
            refine hfreed₁.gone p ?_
            simpa [hpx, hpr] using hp
      · intro p hp
        rw [Tree.addrs_node, List.mem_append, List.mem_cons, not_or, not_or] at hp
        obtain ⟨hpl, hpx, hpr⟩ := hp
        rw [free_heap hpx, hkeep₄ p hpx, hkeep₃ p hpx,
          hfreed₂.kept p hpr, hfreed₁.kept p hpl]

/-- After any run of the operations `traverse` hands every datum of the tree to the callback once,
and `destroy_node` leaves nothing allocated. -/
theorem tree_run_destroyed {cmpfunc : α → α → ℤ} (hcmp : IsPreorder cmpfunc)
    {ops : List (TreeOp α)} (hrun : Exec (treeStep cmpfunc) .empty ops s) :
    ∃ depth, (∃ data, (traverse s depth s.root).Returns (data.map some) ∧
        (ops.flatMap TreeOp.inserted).Perm (ops.flatMap TreeOp.deleted ++ data)) ∧
      ∀ root, s.root = some root → ∃ s', (destroyNode depth s root).Returns s' ∧
        ∀ p, s'.heap p = none := by
  obtain ⟨t, ht⟩ := exists_ordered hcmp hrun
  have hs := ht.shows
  refine ⟨t.depth + 1, ⟨preorder t, ?_, ?_⟩, ?_⟩
  · rw [hs.root]
    exact traverse_returns hs.rep (Nat.lt_succ_self _)
  · exact ht.data.trans ((preorder_perm t).symm.append_left _)
  · intro root hroot
    rw [hs.root] at hroot
    obtain ⟨s', hret, hfreed⟩ :=
      destroyNode_returns hs.rep hs.nodup hroot (Nat.lt_succ_self _)
    refine ⟨s', hret, fun p => ?_⟩
    by_cases hp : p ∈ t.addrs
    · exact hfreed.gone p hp
    · rw [hfreed.kept p hp]
      have hnone : ¬ (s.heap p).isSome := by
        rw [hs.nodes p]
        simp [hp]
      exact Option.not_isSome_iff_eq_none.mp hnone

theorem tree_run_destroyed_pair : ∃ (s s' : TreeMem ℤ) (depth : ℕ) (root : Addr),
    s.root = some root ∧ (destroyNode depth s root).Returns s' ∧ ∀ p, s'.heap p = none := by
  have h₀ : Exec (treeStep fun a b : ℤ => a - b) .empty [] .empty := Exec.nil _
  have h₁ := h₀.snoc (a := TreeOp.insert 1 2) ⟨rfl, 9, rfl⟩
  have h₂ := h₁.snoc (a := TreeOp.insert 2 1) ⟨rfl, 9, rfl⟩
  obtain ⟨depth, -, hdestroy⟩ := tree_run_destroyed isPreorder_sub h₂
  obtain ⟨s', hret, hnone⟩ := hdestroy 1 rfl
  exact ⟨_, s', depth, 1, rfl, hret, hnone⟩

end JailFs
