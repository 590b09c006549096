import JailFs.RbTree
import JailFs.TreeRun

/-!
# `rb_insert` keeps the red-black trees

The loop of `rb_insert` works on a balanced subtree with a red top in a context that takes a black
one. Each turn keeps that, moves the subtree up or straightens the path above it, and the loop ends
where the red top does no harm.
-/

namespace JailFs

open LinkedTree RedBlack Comparator

variable {α : Type} {cmpfunc : α → α → ℤ} {s s' : TreeMem α} {c : Ctx Addr (Item α)}
  {t u A B C S U V W : DataTree α} {d e : Side} {x p g q : Addr} {b bp bg bq : Item α}
  {loose : List Addr} {par : Option Addr} {n : ℕ}

theorem rbColor_top (hrep : Rep Item.stored s.heap par t) :
    rbColor s t.top = some (topColor Item.color t) := by
  cases t with
  | nil => rfl
  | node l a b r =>
    rw [Tree.top, rbColor, hrep.1]
    rfl

namespace TreeMem.Shows

theorem children (hs : s.Shows (plug c (.sided d A x b B)) loose) :
    Rep Item.stored s.heap (some x) A ∧ Rep Item.stored s.heap (some x) B := by
  have hrep := hs.rep
  rw [rep_plug, rep_sided] at hrep
  exact hrep.1.2

theorem rbInsertSide_recolor
    (hs : s.Shows (plug c (.sided d (.sided e t p bp S) g bg (.sided d V q bq W))) loose)
    (hq : bq.color = .red) :
    ∃ s', rbInsertSide d s x p g = some (s', g) ∧ s'.Shows (plug c (.sided d
      (.sided e t p { bp with color := .black } S) g { bg with color := .red }
      (.sided d V q { bq with color := .black } W))) loose := by
  have hg := hs.heap_at
  have hu := rbColor_top hs.children.2
  rw [topColor_sided, Tree.top_sided, hq] at hu
  rw [Tree.top_sided, Tree.top_sided] at hg
  obtain ⟨s₁, h₁, hs₁⟩ := TreeMem.Shows.setColor (c := ⟨d, g, bg, .sided d V q bq W⟩ :: c) hs .black
  rw [plug_cons, ← plug_sibling] at hs₁
  obtain ⟨s₂, h₂, hs₂⟩ := hs₁.setColor .black
  rw [plug_sibling] at hs₂
  obtain ⟨s₃, h₃, hs₃⟩ := TreeMem.Shows.setColor (c := c) hs₂ .red
  refine ⟨s₃, ?_, hs₃⟩
  rw [rbInsertSide, hg]
  simp only [Option.bind_eq_bind, Option.bind_some, Cell.child_other_sided, hu, if_true, h₁, h₂, h₃]

/-- The parent is red, the uncle is black and the node lies on the outer side: the parent goes up
in the place of the grandparent. -/
theorem rbInsertSide_outer
    (hs : s.Shows (plug c (.sided d (.sided d t p bp S) g bg U)) loose)
    (hx : t.top = some x) (hU : topColor Item.color U = .black) :
    ∃ s', rbInsertSide d s x p g = some (s', x) ∧ s'.Shows (plug c (.sided d t p
      { bp with color := .black } (.sided d S g { bg with color := .red } U))) loose := by
  have hg := hs.heap_at
  have hu := rbColor_top hs.children.2
  rw [hU] at hu
  have hp := TreeMem.Shows.heap_at (c := ⟨d, g, bg, U⟩ :: c) hs
  have hSx : S.top ≠ some x := by
    intro h
    have hnd := hs.nodup
    rw [nodup_plug, Tree.nodup_sided, Tree.nodup_sided] at hnd
    exact hnd.1.2.2.1.2.2.2.2 (Tree.mem_addrs_of_top hx) (Tree.mem_addrs_of_top h)
  obtain ⟨s₁, h₁, hs₁⟩ := TreeMem.Shows.setColor (c := ⟨d, g, bg, U⟩ :: c) hs .black
  obtain ⟨s₂, h₂, hs₂⟩ := TreeMem.Shows.setColor (c := c) hs₁ .red
  rw [← Tree.sided_other, ← Tree.sided_other (d := d) (t := S)] at hs₂
  obtain ⟨s₃, h₃, hs₃⟩ := hs₂.rotate
  rw [Tree.sided_other, Tree.sided_other] at hs₃
  refine ⟨s₃, ?_, hs₃⟩
  rw [rbInsertSide, hg]
  simp [hu, hp, hSx, h₁, h₂, h₃]

/-- The parent is red, the uncle is black and the node lies on the inner side: it goes up in the
place of the parent, which is below it on the outer side then. -/
theorem rbInsertSide_inner
    (hs : s.Shows (plug c (.sided d (.sided d S p bp (.sided d B x b C)) g bg U)) loose)
    (hU : topColor Item.color U = .black) :
    ∃ s', rbInsertSide d s x p g = some (s', p) ∧ s'.Shows (plug c (.sided d
      (.sided d (.sided d S p bp B) x b C) g bg U)) loose := by
  have hg := hs.heap_at
  have hu := rbColor_top hs.children.2
  rw [hU] at hu
  have hp := TreeMem.Shows.heap_at (c := ⟨d, g, bg, U⟩ :: c) hs
  obtain ⟨s₁, h₁, hs₁⟩ := TreeMem.Shows.rotate (c := ⟨d, g, bg, U⟩ :: c) hs
  refine ⟨s₁, ?_, hs₁⟩
  rw [rbInsertSide, hg]
  simp [hu, hp, h₁]

theorem root_eq_iff (hs : s.Shows (plug c t) loose) (hx : t.top = some x) :
    s.root = some x ↔ c = [] := by
  constructor
  · intro h
    by_contra hc
    rw [hs.root] at h
    exact (nodup_plug.mp hs.nodup).2.2 (Tree.mem_addrs_of_top hx) (mem_ctxAddrs_of_top hc h)
  · rintro rfl
    rw [hs.root, plug_nil, hx]

theorem parent_top (hs : s.Shows (plug c t) loose) (hx : t.top = some x) :
    ∃ cell, s.heap x = some cell ∧ cell.parent = above c :=
  rep_top (rep_plug.mp hs.rep).1 hx

theorem rbInsertBody_black (hs : s.Shows (plug (⟨e, p, bp, S⟩ :: c) t) loose)
    (hx : t.top = some x) (hp : bp.color = .black) : rbInsertBody (s, x) = some (.inl s) := by
  have hroot : s.root ≠ some x := fun h => List.cons_ne_nil _ _ ((hs.root_eq_iff hx).mp h)
  obtain ⟨cell, hcell, hpar⟩ := hs.parent_top hx
  have hpcell : s.heap p = some (.sided e t.top S.top (LinkedTree.above c) bp.stored) :=
    TreeMem.Shows.heap_at (c := c) hs
  have hcolor : rbColor s (some p) = some .black := by
    rw [rbColor, hpcell, Option.map_some, Cell.val_sided, Item.stored, hp]
  rw [LinkedTree.above] at hpar
  simp [rbInsertBody, hroot, hcell, hpar, hcolor]

theorem rbInsertBody_red
    (hs : s.Shows (plug (⟨e, p, bp, S⟩ :: ⟨d, g, bg, U⟩ :: c) t) loose) (hx : t.top = some x)
    (hp : bp.color = .red) {r : TreeMem α × Addr} (hr : rbInsertSide d s x p g = some r) :
    rbInsertBody (s, x) = some (.inr r) := by
  have hroot : s.root ≠ some x := fun h => List.cons_ne_nil _ _ ((hs.root_eq_iff hx).mp h)
  obtain ⟨cell, hcell, hpar⟩ := hs.parent_top hx
  have hpcell : s.heap p = some (.sided e t.top S.top (some g) bp.stored) :=
    TreeMem.Shows.heap_at (c := ⟨d, g, bg, U⟩ :: c) hs
  have hgcell : s.heap g = some (.sided d (some p) U.top (LinkedTree.above c) bg.stored) :=
    (TreeMem.Shows.heap_at (c := c) hs).trans (by rw [Frame.fill, Tree.top_sided])
  have hUp : U.top ≠ some p := by
    intro h
    have hnd := hs.nodup
    rw [plug_cons, plug_cons, nodup_plug, Tree.nodup_sided] at hnd
    exact hnd.1.2.2.2.2 (by simp) (Tree.mem_addrs_of_top h)
  have hcolor : rbColor s (some p) = some .red := by
    rw [rbColor, hpcell, Option.map_some, Cell.val_sided, Item.stored, hp]
  rw [LinkedTree.above] at hpar
  simp only [rbInsertBody, if_neg hroot, hcell, Option.bind_eq_bind, Option.bind_some, hpar, hcolor,
    ne_eq, not_true_eq_false, if_false, hpcell, Cell.parent_sided, hgcell, Cell.side_eq hUp, hr]

end TreeMem.Shows

/-- Twice the length of a path, and one more for a bend above its node. -/
def bends : Ctx Addr (Item α) → ℕ
  | f :: g :: c => 2 * (g :: c).length + (if f.side = g.side then 2 else 3)
  | c => 2 * c.length

theorem bends_le : bends c ≤ 2 * c.length + 1 := by
  match c with
  | [] => simp [bends]
  | [f] => simp [bends]
  | f :: g :: c =>
    rw [bends]
    split <;> simp only [List.length_cons] <;> omega

theorem inorder_plug_congr (h : inorder t = inorder u) :
    inorder (plug c t) = inorder (plug c u) := by
  rw [inorder_plug, inorder_plug, h]

theorem bends_cons {f g : Frame Addr (Item α)} :
    bends (f :: g :: c) = 2 * (c.length + 1) + (if f.side = g.side then 2 else 3) := rfl

/-- The state of the loop of `rb_insert` at the top `x` of the subtree `t`. -/
structure Pending (data : List α) (s : TreeMem α) (x : Addr) (c : Ctx Addr (Item α))
    (t : DataTree α) (n : ℕ) : Prop where
  shows : s.Shows (plug c t) []
  top : t.top = some x
  red : topColor Item.color t = .red
  balanced : Balanced Item.color t n
  hole : Hole Item.color c .black n
  data : inorder (plug c t) = data

/-- A turn of the loop leads to a state that is less far from the root. -/
def GoesOn (data : List α) (s : TreeMem α) (x : Addr) (c : Ctx Addr (Item α)) : Prop :=
  ∃ s' x' c' t' n', rbInsertBody (s, x) = some (.inr (s', x')) ∧ bends c' < bends c ∧
    Pending data s' x' c' t' n'

/-- What is above a red parent: the node beside `x` is black, and so is the grandparent. -/
theorem hole_above_red
    (h : Hole Item.color (⟨e, p, bp, S⟩ :: ⟨d, g, bg, U⟩ :: c) .black n)
    (hp : bp.color = .red) : Balanced Item.color S n ∧ topColor Item.color S = .black ∧
      bg.color = .black ∧ Balanced Item.color U n ∧ Hole Item.color c .black (n + 1) := by
  obtain ⟨hS, -, hStop, hc⟩ := (hole_red hp).mp h
  have hg : bg.color = .black := by
    cases hg : bg.color with
    | red => cases ((hole_red hg).mp hc).2.1
    | black => rfl
  obtain ⟨hU, hc'⟩ := (hole_black hg).mp hc
  exact ⟨hS, hStop, hg, hU, hc'⟩

section Turn

variable {data : List α}

theorem Pending.recolor (h : Pending data s x (⟨e, p, bp, S⟩ :: ⟨d, g, bg, U⟩ :: c) t n)
    (hp : bp.color = .red) (hUtop : topColor Item.color U = .red) :
    GoesOn data s x (⟨e, p, bp, S⟩ :: ⟨d, g, bg, U⟩ :: c) := by
  obtain ⟨hs, hx, hred, hbal, hhole, hdata⟩ := h
  obtain ⟨hS, hStop, hg, hU, hc⟩ := hole_above_red hhole hp
  obtain ⟨V, q, bq, W, rfl, hq⟩ := exists_of_topColor_red d hUtop
  obtain ⟨s', hret, hs'⟩ := TreeMem.Shows.rbInsertSide_recolor (c := c) hs hq
  obtain ⟨-, -, hV, hW⟩ := (balanced_red hq).mp hU
  refine ⟨s', g, c, _, n + 1, hs.rbInsertBody_red hx hp hret, ?_, hs', ?_, ?_, ?_, hc, ?_⟩
  · refine lt_of_le_of_lt bends_le ?_
    rw [bends_cons]
    split <;> omega
  · rw [Tree.top_sided]
  · rw [topColor_sided]
  · refine (balanced_red rfl).mpr ⟨topColor_sided, topColor_sided, ?_, ?_⟩
    · exact (balanced_black rfl).mpr ⟨hbal, hS⟩
    · exact (balanced_black rfl).mpr ⟨hV, hW⟩
  · rw [← hdata, plug_cons, plug_cons]
    exact inorder_plug_congr (by cases d <;> cases e <;> simp [Tree.sided, inorder_node])

/-- The uncle is black and `x` on the outer side: the rotation puts a black parent above it. -/
theorem Pending.outer (h : Pending data s x (⟨d, p, bp, S⟩ :: ⟨d, g, bg, U⟩ :: c) t n)
    (hp : bp.color = .red) (hUtop : topColor Item.color U = .black) :
    GoesOn data s x (⟨d, p, bp, S⟩ :: ⟨d, g, bg, U⟩ :: c) := by
  obtain ⟨hs, hx, hred, hbal, hhole, hdata⟩ := h
  obtain ⟨hS, hStop, hg, hU, hc⟩ := hole_above_red hhole hp
  obtain ⟨s', hret, hs'⟩ := TreeMem.Shows.rbInsertSide_outer (c := c) hs hx hUtop
  refine ⟨s', x, ⟨d, p, { bp with color := .black }, _⟩ :: c, t, n,
    hs.rbInsertBody_red hx hp hret, ?_, hs', hx, hred, hbal, ?_, ?_⟩
  · refine lt_of_le_of_lt bends_le ?_
    rw [List.length_cons, bends_cons, if_pos rfl]
    omega
  · refine (hole_black rfl).mpr ⟨?_, hc⟩
    exact (balanced_red rfl).mpr ⟨hStop, hUtop, hS, hU⟩
  · rw [← hdata, plug_cons, plug_cons, plug_cons]
    exact inorder_plug_congr (by cases d <;> simp [Tree.sided, inorder_node])

/-- The uncle is black and `x` on the inner side: the rotation brings its parent to the outer
side, and the loop goes on there. -/
theorem Pending.inner (h : Pending data s x (⟨d.other, p, bp, S⟩ :: ⟨d, g, bg, U⟩ :: c) t n)
    (hp : bp.color = .red) (hUtop : topColor Item.color U = .black) :
    GoesOn data s x (⟨d.other, p, bp, S⟩ :: ⟨d, g, bg, U⟩ :: c) := by
  obtain ⟨hs, hx, hred, hbal, hhole, hdata⟩ := h
  obtain ⟨hS, hStop, hg, hU, hc⟩ := hole_above_red hhole hp
  obtain ⟨B, y, b, C, rfl, hb⟩ := exists_of_topColor_red d hred
  obtain rfl : y = x := Option.some.inj (Tree.top_sided.symm.trans hx)
  obtain ⟨hB, hC, hBbal, hCbal⟩ := (balanced_red hb).mp hbal
  have hs₀ := hs
  rw [plug_cons, plug_cons, Tree.sided_other] at hs₀
  obtain ⟨s', hret, hs'⟩ := hs₀.rbInsertSide_inner hUtop
  refine ⟨s', p, ⟨d, y, b, C⟩ :: ⟨d, g, bg, U⟩ :: c, _, n,
    hs.rbInsertBody_red hx hp hret, ?_, hs', ?_, ?_, ?_, ?_, ?_⟩
  · have hd : d.other ≠ d := by cases d <;> simp [Side.other]
    rw [bends_cons, bends_cons, if_pos rfl, if_neg hd]
    omega
  · rw [Tree.top_sided]
  · rw [topColor_sided, hp]
  · exact (balanced_red hp).mpr ⟨hStop, hB, hS, hBbal⟩
  · exact (hole_red hb).mpr ⟨hCbal, rfl, hC, (hole_black hg).mpr ⟨hU, hc⟩⟩
  · rw [← hdata, plug_cons, plug_cons, plug_cons, plug_cons, Tree.sided_other]
    exact inorder_plug_congr (by cases d <;> simp [Tree.sided, inorder_node])

theorem Pending.turn (h : Pending data s x c t n) :
    (rbInsertBody (s, x) = some (.inl s) ∧ (c = [] ∨ Hole Item.color c .red n)) ∨
      GoesOn data s x c := by
  cases c with
  | nil =>
    have hroot : s.root = some x := (h.shows.root_eq_iff h.top).mpr rfl
    exact .inl ⟨if_pos hroot, .inl rfl⟩
  | cons f c =>
    obtain ⟨e, p, bp, S⟩ := f
    cases hp : bp.color with
    | black =>
      refine .inl ⟨h.shows.rbInsertBody_black h.top hp, .inr ?_⟩
      rw [hole_black hp]
      exact (hole_black hp).mp h.hole
    | red =>
      cases c with
      | nil => cases hole_nil.mp ((hole_red hp).mp h.hole).2.2.2
      | cons f c =>
        obtain ⟨d, g, bg, U⟩ := f
        refine .inr ?_
        cases hUtop : topColor Item.color U with
        | red => exact h.recolor hp hUtop
        | black =>
          rcases d.eq_or_eq_other e with rfl | rfl
          · exact h.outer hp hUtop
          · exact h.inner hp hUtop

end Turn

/-- The memory at the end of the loop: the tree is a red-black tree once its root is black. -/
def Settled (data : List α) (s : TreeMem α) : Prop :=
  ∃ l a b r, s.Shows (.node l a b r) [] ∧ inorder (.node l a b r) = data ∧
    IsRedBlack Item.color (.node l a { b with color := .black } r)

theorem Pending.settled {data : List α} (h : Pending data s x c t n)
    (hend : c = [] ∨ Hole Item.color c .red n) : Settled data s := by
  obtain ⟨hs, hx, hred, hbal, -, hdata⟩ := h
  rcases hend with rfl | hhole
  · obtain ⟨A, y, b, B, rfl, hb⟩ := exists_of_topColor_red .left hred
    refine ⟨A, y, b, B, hs, hdata, isRedBlack_iff.mpr ⟨rfl, n + 1, ?_⟩⟩
    obtain ⟨-, -, hA, hB⟩ := (balanced_red hb).mp hbal
    exact (balanced_black (d := .left) rfl).mpr ⟨hA, hB⟩
  · have hrb : IsRedBlack Item.color (plug c t) :=
      isRedBlack_plug.mpr ⟨n, hbal, by rw [hred]; exact hhole⟩
    have hx : x ∈ (plug c t).addrs := mem_addrs_plug.mpr (.inl (Tree.mem_addrs_of_top hx))
    generalize plug c t = u at *
    cases u with
    | nil => simp at hx
    | node l a b r =>
      have hb : { b with color := .black } = b := by
        have hroot : b.color = .black := hrb.root
        rw [← hroot]
      exact ⟨l, a, b, r, hs, hdata, by rw [hb]; exact hrb⟩

theorem Pending.loop {data : List α} (h : Pending data s x c t n) :
    ∃ s', (Program.loop rbInsertBody (s, x)).Returns s' ∧ Settled data s' := by
  refine Program.loop_returns (k := bends c)
    (I := fun k st => ∃ c t n, Pending data st.1 st.2 c t n ∧ bends c = k) ?_ ⟨c, t, n, h, rfl⟩
  rintro k ⟨s, x⟩ ⟨c, t, n, h, rfl⟩
  rcases h.turn with ⟨hbody, hend⟩ | ⟨s', x', c', t', n', hbody, hlt, h'⟩
  · exact .inl ⟨s, hbody, h.settled hend⟩
  · exact .inr ⟨(s', x'), bends c', hbody, hlt, c', t', n', h', rfl⟩

theorem TreeMem.Shows.rbInsert (hcmp : IsPreorder cmpfunc) (hs : s.Shows t [])
    (hsorted : Sorted cmpfunc (inorder t)) (hrb : IsRedBlack Item.color t) {m : Addr}
    (hm : s.heap m = none) (y : α) :
    ∃ s' t', (JailFs.rbInsert cmpfunc s m y).Returns s' ∧ s'.Shows t' [] ∧
      Sorted cmpfunc (inorder t') ∧ IsRedBlack Item.color t' ∧
      (inorder t').Perm (y :: inorder t) := by
  obtain ⟨c, s₁, rfl, hfits, hret₁, hs₁⟩ := hs.treeInsert hcmp hsorted hm y
  obtain ⟨s₂, h₂, hs₂⟩ := TreeMem.Shows.setColor (d := .left) hs₁ .red
  have hpending : Pending (inorder (plug c (.node .nil m ⟨y, .red⟩ .nil))) s₂ m c
      (.node .nil m ⟨y, .red⟩ .nil) 0 := by
    obtain ⟨n, hn, hhole⟩ := isRedBlack_plug.mp hrb
    obtain rfl := balanced_nil.mp hn
    exact ⟨hs₂, rfl, rfl, (balanced_red (d := .left) rfl).mpr ⟨rfl, rfl, rfl, rfl⟩, hhole, rfl⟩
  obtain ⟨s₃, hret₃, l, a, b, r, hs₃, hdata, hrb'⟩ := hpending.loop
  obtain ⟨s₄, h₄, hs₄⟩ := TreeMem.Shows.setColor (c := []) (d := .left) hs₃ .black
  have hdata₄ : inorder (.node l a { b with color := .black } r) =
      inorder (plug c (.node .nil m ⟨y, .red⟩ .nil)) := by
    rw [← hdata, inorder_node, inorder_node]
  refine ⟨s₄, _, ?_, hs₄, ?_, hrb', ?_⟩
  · refine Program.returns_bind hret₁ (Program.returns_lift_bind h₂ (Program.returns_bind hret₃ ?_))
    exact Program.returns_lift_bind hs₃.root (Program.returns_ofOption h₄)
  · rw [plug_nil]
    exact hdata₄ ▸ sorted_attach hfits hsorted
  · rw [plug_nil]
    exact hdata₄ ▸ inorder_attach

/-- One call of `rb_insert`, with the node that the allocator gives and the data. -/
def rbInsertStep (cmpfunc : α → α → ℤ) (s : TreeMem α) (op : Addr × α) (s' : TreeMem α) : Prop :=
  s.heap op.1 = none ∧ (JailFs.rbInsert cmpfunc s op.1 op.2).Returns s'

/-- Every tree that is built by insertions is a red-black tree of the inserted data in order, its
pointers match, and a further insertion returns. -/
theorem rb_insert_run (hcmp : IsPreorder cmpfunc) {ops : List (Addr × α)}
    (hrun : Exec (rbInsertStep cmpfunc) .empty ops s) :
    ∃ t, s.Shows t [] ∧ s.LinksAgree ∧ IsRedBlack Item.color t ∧ Sorted cmpfunc (inorder t) ∧
      (inorder t).Perm (ops.map Prod.snd) ∧
      ∀ m x, s.heap m = none → ∃ s', (JailFs.rbInsert cmpfunc s m x).Returns s' := by
  have hinv : ∃ t, s.Shows t [] ∧ IsRedBlack Item.color t ∧ Sorted cmpfunc (inorder t) ∧
      (inorder t).Perm (ops.map Prod.snd) := by
    refine hrun.history_invariant (I := fun ops s => ∃ t, s.Shows t [] ∧
      IsRedBlack Item.color t ∧ Sorted cmpfunc (inorder t) ∧
      (inorder t).Perm (ops.map Prod.snd)) ?_ ?_
    · exact ⟨.nil, TreeMem.shows_empty, isRedBlack_iff.mpr ⟨rfl, 0, rfl⟩, List.Pairwise.nil, .nil⟩
    · rintro ops s ⟨m, y⟩ s' ⟨t, hs, hrb, hsorted, hperm⟩ ⟨hm, hret⟩
      obtain ⟨s₁, t', hret₁, hs', hsorted', hrb', hperm'⟩ := hs.rbInsert hcmp hsorted hrb hm y
      obtain rfl := hret₁.unique hret
      refine ⟨t', hs', hrb', hsorted', hperm'.trans ?_⟩
      rw [List.map_append, List.map_singleton]
      exact (hperm.cons y).trans (List.perm_append_singleton y _).symm
  obtain ⟨t, hs, hrb, hsorted, hperm⟩ := hinv
  refine ⟨t, hs, hs.linksAgree, hrb, hsorted, hperm, fun m y hm => ?_⟩
  obtain ⟨s', -, hret, -⟩ := hs.rbInsert hcmp hsorted hrb hm y
  exact ⟨s', hret⟩

theorem rb_insert_run_ascending : ∃ (s : TreeMem ℤ) (t : DataTree ℤ), s.Shows t [] ∧ s.LinksAgree ∧
    IsRedBlack Item.color t ∧ (inorder t).Perm [(1 : ℤ), 2, 3] := by
  obtain ⟨s, hrun⟩ : ∃ s, Exec (rbInsertStep fun a b : ℤ => a - b) .empty
      [(1, 1), (2, 2), (3, 3)] s :=
    ⟨_, (((Exec.nil _).snoc ⟨rfl, 9, rfl⟩).snoc ⟨rfl, 9, rfl⟩).snoc ⟨rfl, 9, rfl⟩⟩
  obtain ⟨t, hs, hlinks, hrb, -, hperm, -⟩ := rb_insert_run isPreorder_sub hrun
  exact ⟨s, t, hs, hlinks, hrb, hperm⟩

end JailFs
