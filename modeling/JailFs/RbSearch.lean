import JailFs.RbRun
import JailFs.TreeOrder

/-!
# How long a search of a red-black tree takes
-/

namespace JailFs

open LinkedTree RedBlack Comparator

variable {α : Type} {cmpfunc : α → α → ℤ} {s : TreeMem α} {key : α} {t : DataTree α} {fuel : ℕ}
  {par : Option Addr}

theorem searchFrom_run (hrep : Rep Item.stored s.heap par t) (hfuel : t.depth < fuel) :
    ∃ res, (Program.loop (searchBody cmpfunc s key) t.top).run fuel = some (some res) := by
  change ∃ res, Program.loopRun (searchBody cmpfunc s key) fuel t.top = some (some res)
  induction fuel generalizing t par with
  | zero => omega
  | succ fuel ih =>
    cases t with
    | nil => exact ⟨none, rfl⟩
    | node l a b r =>
      rw [Tree.depth] at hfuel
      obtain ⟨hcell, hl, hr⟩ := hrep
      have hbody : searchBody cmpfunc s key (some a) =
          if cmpfunc key b.data = 0 then some (.inl (some a))
          else if cmpfunc key b.data < 0 then some (.inr l.top) else some (.inr r.top) := by
        rw [searchBody, hcell]
        rfl
      rw [Tree.top, Program.loopRun, hbody]
      split_ifs
      · exact ⟨some a, rfl⟩
      · exact ih hl (by omega)
      · exact ih hr (by omega)

theorem exists_red_black (hcmp : IsPreorder cmpfunc) {ops : List (RbOp α)}
    (hrun : Exec (fun s op s' => rbStep cmpfunc s op s' ∧ op.Repaired s) .empty ops s) :
    ∃ t, Ordered cmpfunc (ops.map RbOp.tree) s t ∧ IsRedBlack Item.color t := by
  refine hrun.history_invariant (I := fun ops s => ∃ t,
    Ordered cmpfunc (ops.map RbOp.tree) s t ∧ IsRedBlack Item.color t)
    ⟨.nil, ordered_empty, isRedBlack_iff.mpr ⟨rfl, 0, rfl⟩⟩ ?_
  rintro ops s op s' ⟨t, h, hrb⟩ ⟨hstep, hok⟩
  rw [List.map_append]
  exact rbStep_spec hcmp h hrb hstep hok

/-- After runs in which every deletion is repaired, a search looks at no more nodes than twice the
logarithm of the size of the tree, and `tree_search` finds what there is. -/
theorem rb_search_logarithmic (hcmp : IsPreorder cmpfunc) {ops : List (RbOp α)}
    (hrun : Exec (fun s op s' => rbStep cmpfunc s op s' ∧ op.Repaired s) .empty ops s) :
    ∃ t, Ordered cmpfunc (ops.map RbOp.tree) s t ∧ ∀ key, ∃ res,
      (treeSearch cmpfunc s key).run (2 * Nat.log 2 ((inorder t).length + 1) + 1) =
        some (some res) ∧ Found cmpfunc s key t res := by
  obtain ⟨t, ht, hrb⟩ := exists_red_black hcmp hrun
  refine ⟨t, ht, fun key => ?_⟩
  obtain ⟨res, hret, hfound⟩ : ∃ res, (treeSearch cmpfunc s key).Returns res ∧
      Found cmpfunc s key t res := ht.shows.treeSearch hcmp ht.sorted
  have hdepth := hrb.depth_le
  rw [← List.length_map (fun e : Addr × Item α => e.2.data)] at hdepth
  obtain ⟨res', hrun'⟩ : ∃ res', (Program.loop (searchBody cmpfunc s key) t.top).run
      (2 * Nat.log 2 ((inorder t).length + 1) + 1) = some (some res') :=
    searchFrom_run ht.shows.rep (Nat.lt_succ_of_le hdepth)
  rw [← ht.shows.root] at hrun'
  obtain rfl : res' = res := Program.Returns.unique ⟨_, hrun'⟩ hret
  exact ⟨res', hrun', hfound⟩

theorem rb_search_logarithmic_three : ∃ (s : TreeMem ℤ) (t : DataTree ℤ),
    Ordered (fun a b => a - b) [.insert 1 1, .insert 2 2, .insert 3 3] s t ∧ ∃ res,
      (treeSearch (fun a b => a - b) s 3).run (2 * Nat.log 2 ((inorder t).length + 1) + 1) =
        some (some res) := by
  have h₀ : Exec (fun s op s' => rbStep (fun a b : ℤ => a - b) s op s' ∧ op.Repaired s) .empty
      [] .empty := Exec.nil _
  have h₁ := h₀.snoc (a := RbOp.insert 1 1) ⟨⟨rfl, 9, rfl⟩, trivial⟩
  have h₂ := h₁.snoc (a := RbOp.insert 2 2) ⟨⟨rfl, 9, rfl⟩, trivial⟩
  have h₃ := h₂.snoc (a := RbOp.insert 3 3) ⟨⟨rfl, 9, rfl⟩, trivial⟩
  obtain ⟨t, ht, hsearch⟩ := rb_search_logarithmic isPreorder_sub h₃
  obtain ⟨res, hrun, -⟩ := hsearch 3
  exact ⟨_, t, ht, res, hrun⟩

end JailFs
