import JailFs.RbInsert

/-!
# The fix-up of `rb_delete`

The loop of `rb_delete_fixup` works on a subtree that has one black node too few on every path.
`CtxSlips` says that on its way up it comes to a black sibling of which only the near child is red:
there the source colours the near child red where it would have to turn black, and the sibling red.
As long as it does not come to such a sibling, the loop ends in a red-black tree.
-/

namespace JailFs

open LinkedTree RedBlack Comparator

variable {α : Type} {s s' : TreeMem α} {c c' : Ctx Addr (Item α)} {t u S V W X W₁ W₂ : DataTree α}
  {d : Side} {x p q w y : Addr} {b bp bq bw : Item α} {loose : List Addr} {par node : Option Addr}
  {n : ℕ} {data : List α}

namespace TreeMem.Shows

theorem setColor_sibling (hs : s.Shows (plug c (.sided d X p bp (.sided d V q bq W))) loose)
    (col : Color) : ∃ s', s.setColor q col = some s' ∧
      s'.Shows (plug c (.sided d X p bp (.sided d V q { bq with color := col } W))) loose := by
  rw [← plug_sibling] at hs
  obtain ⟨s', h, hs'⟩ := hs.setColor col
  rw [plug_sibling] at hs'
  exact ⟨s', h, hs'⟩

theorem rbDeleteSide_red (node : Option Addr)
    (hs : s.Shows (plug c (.sided d X p bp (.sided d V q bq W))) loose)
    (hq : bq.color = .red) :
    ∃ s', rbDeleteSide d s p node = rbDeleteCases d s' p node ∧ s'.Shows (plug c (.sided d
      (.sided d X p { bp with color := .red } V) q { bq with color := .black } W)) loose := by
  have hp := hs.heap_at
  have hcolor := rbColor_top hs.children.2
  rw [topColor_sided, Tree.top_sided, hq] at hcolor
  rw [Tree.top_sided] at hp
  obtain ⟨s₁, h₁, hs₁⟩ := hs.setColor_sibling .black
  obtain ⟨s₂, h₂, hs₂⟩ := hs₁.setColor .red
  obtain ⟨s₃, h₃, hs₃⟩ := hs₂.rotate
  refine ⟨s₃, ?_, hs₃⟩
  rw [rbDeleteSide, hp]
  simp only [Option.bind_eq_bind, Option.bind_some, Cell.child_other_sided, hcolor, if_true, h₁, h₂,
    h₃]

theorem rbDeleteSide_black (node : Option Addr) (hs : s.Shows (plug c (.sided d X p bp S)) loose)
    (hS : topColor Item.color S = .black) :
    rbDeleteSide d s p node = rbDeleteCases d s p node := by
  have hcolor := rbColor_top hs.children.2
  rw [hS] at hcolor
  rw [rbDeleteSide, hs.heap_at]
  simp [hcolor]

theorem nephews (hs : s.Shows (plug c (.sided d X p bp (.sided d V q bq W))) loose) :
    s.heap q = some (.sided d V.top W.top (some p) bq.stored) ∧
      rbColor s V.top = some (topColor Item.color V) ∧
      rbColor s W.top = some (topColor Item.color W) := by
  have hrep := hs.children.2
  rw [rep_sided] at hrep
  exact ⟨hrep.1, rbColor_top hrep.2.1, rbColor_top hrep.2.2⟩

/-- Both nephews are black: the sibling turns red, and the loop goes on at the parent. -/
theorem rbDeleteCases_both (node : Option Addr)
    (hs : s.Shows (plug c (.sided d X p bp (.sided d V q bq W))) loose)
    (hV : topColor Item.color V = .black) (hW : topColor Item.color W = .black) :
    ∃ s', rbDeleteCases d s p node = some (s', LinkedTree.above c, some p) ∧
      s'.Shows (plug c (.sided d X p bp (.sided d V q { bq with color := .red } W))) loose := by
  have hp := hs.heap_at
  rw [Tree.top_sided] at hp
  obtain ⟨hq, hnear, hfar⟩ := hs.nephews
  rw [hV] at hnear
  rw [hW] at hfar
  obtain ⟨s₁, h₁, hs₁⟩ := hs.setColor_sibling .red
  refine ⟨s₁, ?_, hs₁⟩
  rw [rbDeleteCases, hp]
  simp [hq, hnear, hfar, h₁]

/-- The far nephew is red: the sibling goes up in the place of the parent, and the loop ends. -/
theorem rbDeleteCases_far (node : Option Addr)
    (hs : s.Shows (plug c (.sided d X p bp (.sided d V q bq (.sided d W₁ w bw W₂)))) loose)
    (hw : bw.color = .red) :
    ∃ s', rbDeleteCases d s p node = some (s', none, s'.root) ∧ s'.Shows (plug c (.sided d
      (.sided d X p { bp with color := .black } V) q { bq with color := bp.color }
      (.sided d W₁ w { bw with color := .black } W₂))) loose := by
  have hp := hs.heap_at
  rw [Tree.top_sided] at hp
  obtain ⟨hq, hnear, hfar⟩ := hs.nephews
  rw [topColor_sided, Tree.top_sided, hw] at hfar
  rw [Tree.top_sided] at hq
  obtain ⟨s₁, h₁, hs₁⟩ := hs.setColor_sibling bp.color
  obtain ⟨s₂, h₂, hs₂⟩ := hs₁.setColor .black
  rw [← plug_sibling, ← plug_sibling] at hs₂
  obtain ⟨s₃, h₃, hs₃⟩ := hs₂.setColor .black
  rw [plug_sibling, plug_sibling] at hs₃
  obtain ⟨s₄, h₄, hs₄⟩ := hs₃.rotate
  refine ⟨s₄, ?_, hs₄⟩
  rw [rbDeleteCases, hp]
  have hcolor : bp.stored.color = bp.color := rfl
  simp [hq, hnear, hfar, hcolor, h₁, h₂, h₃, h₄]

end TreeMem.Shows

def BentSibling (d : Side) (S : DataTree α) : Prop :=
  topColor Item.color (S.child d) = .red ∧ topColor Item.color (S.child d.other) = .black

/-- On the way up from the hole of a context, the fix-up comes to such a sibling. -/
def CtxSlips : Ctx Addr (Item α) → Prop
  | [] => False
  | f :: c =>
    match topColor Item.color f.sibling with
    | .red => BentSibling f.side (f.sibling.child f.side)
    | .black => BentSibling f.side f.sibling ∨
        (topColor Item.color (f.sibling.child f.side) = .black ∧
          topColor Item.color (f.sibling.child f.side.other) = .black ∧
          f.val.color = .black ∧ CtxSlips c)

/-- The loop has come to its end, and the tree is a red-black tree once the node is black. -/
def Finished (data : List α) (y : Addr) (st : TreeMem α × Option Addr × Option Addr) : Prop :=
  rbDeleteBody st = some (.inl (st.1, st.2.2)) ∧
    match st.2.2 with
    | none => st.1.Shows .nil [y] ∧ data = []
    | some x => ∃ c d A b B, st.1.Shows (plug c (.sided d A x b B)) [y] ∧
        IsRedBlack Item.color (plug c (.sided d A x { b with color := .black } B)) ∧
        inorder (plug c (.sided d A x b B)) = data

/-- The state of the loop of `rb_delete_fixup` at the subtree `X`, which lacks a black node. -/
structure Deficient (data : List α) (y : Addr) (s : TreeMem α) (c : Ctx Addr (Item α))
    (X : DataTree α) (n : ℕ) : Prop where
  shows : s.Shows (plug c X) [y]
  black : topColor Item.color X = .black
  balanced : Balanced Item.color X n
  hole : Hole Item.color c .black (n + 1)
  data : inorder (plug c X) = data

theorem finished_root (hs : s.Shows u [y]) (hrb : IsRedBlack Item.color u) (hu : u ≠ .nil)
    (hdata : inorder u = data) : Finished data y (s, par, s.root) := by
  refine ⟨if_pos rfl, ?_⟩
  cases u with
  | nil => exact absurd rfl hu
  | node A x b B =>
    have hb : { b with color := .black } = b := by
      have hroot : b.color = .black := hrb.root
      rw [← hroot]
    rw [hs.root]
    exact ⟨[], .left, A, b, B, hs, by rw [hb]; exact hrb, hdata⟩

theorem finished_red {A B : DataTree α} (hs : s.Shows (plug c (.sided d A x b B)) [y])
    (hb : b.color = .red)
    (hrb : IsRedBlack Item.color (plug c (.sided d A x { b with color := .black } B)))
    (hdata : inorder (plug c (.sided d A x b B)) = data) : Finished data y (s, par, some x) := by
  refine ⟨?_, c, d, A, b, B, hs, hrb, hdata⟩
  have hcolor : rbColor s (some x) = some .red := by
    rw [rbColor, hs.heap_at, Option.map_some, Cell.val_sided, Item.stored, hb]
  by_cases hroot : some x = s.root
  · exact if_pos hroot
  · simp [rbDeleteBody, hroot, hcolor]

/-- The far child of a black sibling is red: one rotation gives the subtree its black node. -/
theorem rbDeleteCases_far_turn (node : Option Addr)
    (hs : s.Shows (plug c (.sided d X p bp (.sided d V q bq W))) [y])
    (hdata : inorder (plug c (.sided d X p bp (.sided d V q bq W))) = data)
    (hXbal : Balanced Item.color X n) (hV : Balanced Item.color V n)
    (hW : Balanced Item.color W n) (hWtop : topColor Item.color W = .red)
    (hole : Hole Item.color (⟨d, p, bp, .sided d V q bq W⟩ :: c) .black (n + 1)) :
    ∃ st, rbDeleteCases d s p node = some st ∧ Finished data y st := by
  obtain ⟨W₁, w, bw, W₂, rfl, hw⟩ := exists_of_topColor_red d hWtop
  obtain ⟨s', hret, hs'⟩ := hs.rbDeleteCases_far node hw
  obtain ⟨-, -, hW₁, hW₂⟩ := (balanced_red hw).mp hW
  have hleft : Balanced Item.color (.sided d X p { bp with color := .black } V) (n + 1) :=
    (balanced_black rfl).mpr ⟨hXbal, hV⟩
  have hright : Balanced Item.color (.sided d W₁ w { bw with color := .black } W₂) (n + 1) :=
    (balanced_black rfl).mpr ⟨hW₁, hW₂⟩
  refine ⟨_, hret, finished_root hs' ?_ ?_ ?_⟩
  · refine isRedBlack_plug.mpr ?_
    rw [topColor_sided]
    cases hp : bp.color with
    | red =>
      obtain ⟨-, -, -, hc⟩ := (hole_red hp).mp hole
      exact ⟨n + 1, (balanced_red rfl).mpr ⟨topColor_sided, topColor_sided, hleft, hright⟩, hc⟩
    | black =>
      obtain ⟨-, hc⟩ := (hole_black hp).mp hole
      exact ⟨n + 2, (balanced_black rfl).mpr ⟨hleft, hright⟩, hc⟩
  · intro hnil
    have hmem : q ∈ (plug c (.sided d (.sided d X p { bp with color := .black } V) q
        { bq with color := bp.color } (.sided d W₁ w { bw with color := .black } W₂))).addrs := by
      simp
    rw [hnil] at hmem
    simp at hmem
  · rw [← hdata]
    exact inorder_plug_congr (by cases d <;> simp [Tree.sided, inorder_node])

theorem rbDeleteCases_turn (node : Option Addr) (hs : s.Shows (plug c (.sided d X p bp S)) [y])
    (hdata : inorder (plug c (.sided d X p bp S)) = data)
    (hXbal : Balanced Item.color X n) (hS : topColor Item.color S = .black)
    (hole : Hole Item.color (⟨d, p, bp, S⟩ :: c) .black (n + 1)) (hbent : ¬ BentSibling d S) :
    (∃ st, rbDeleteCases d s p node = some st ∧ Finished data y st) ∨
      (bp.color = .black ∧ topColor Item.color (S.child d) = .black ∧
        topColor Item.color (S.child d.other) = .black ∧
        ∃ s' X', rbDeleteCases d s p node = some (s', above c, X'.top) ∧
          Deficient data y s' c X' (n + 1)) := by
  have hSbal : Balanced Item.color S (n + 1) := hole.1
  obtain ⟨V, q, bq, W, rfl⟩ := Tree.exists_sided d hSbal.ne_nil
  rw [topColor_sided] at hS
  obtain ⟨hV, hW⟩ := (balanced_black hS).mp hSbal
  rw [BentSibling, Tree.child_sided, Tree.child_other_sided] at hbent
  rw [Tree.child_sided, Tree.child_other_sided]
  cases hWtop : topColor Item.color W with
  | red => exact .inl (rbDeleteCases_far_turn node hs hdata hXbal hV hW hWtop hole)
  | black =>
    have hVtop : topColor Item.color V = .black := by
      cases hVtop : topColor Item.color V with
      | red => exact absurd ⟨hVtop, hWtop⟩ hbent
      | black => rfl
    obtain ⟨s', hret, hs'⟩ := hs.rbDeleteCases_both node hVtop hWtop
    have hS' : Balanced Item.color (.sided d V q { bq with color := .red } W) n :=
      (balanced_red rfl).mpr ⟨hVtop, hWtop, hV, hW⟩
    have hdata' : inorder (plug c (.sided d X p bp (.sided d V q { bq with color := .red } W))) =
        data := by
      rw [← hdata]
      exact inorder_plug_congr (by cases d <;> simp [Tree.sided, inorder_node])
    cases hp : bp.color with
    | red =>
      refine .inl ⟨_, hret, finished_red hs' hp (isRedBlack_plug.mpr ⟨n + 1, ?_, ?_⟩) hdata'⟩
      · exact (balanced_black rfl).mpr ⟨hXbal, hS'⟩
      · rw [topColor_sided]
        exact ((hole_red hp).mp hole).2.2.2.black
    | black =>
      refine .inr ⟨rfl, hVtop, rfl, s', _, ?_, hs', topColor_sided.trans hp, ?_, ?_, hdata'⟩
      · rw [hret, Tree.top_sided]
      · exact (balanced_black hp).mpr ⟨hXbal, hS'⟩
      · exact ((hole_black hp).mp hole).2

theorem rbDeleteBody_side (hs : s.Shows (plug (⟨d, p, bp, S⟩ :: c) X) loose)
    (hX : topColor Item.color X = .black) (hS : S ≠ .nil)
    {st : TreeMem α × Option Addr × Option Addr} (hst : rbDeleteSide d s p X.top = some st) :
    rbDeleteBody (s, some p, X.top) = some (.inr st) := by
  have hcell : s.heap p = some (.sided d X.top S.top (above c) bp.stored) :=
    TreeMem.Shows.heap_at (c := c) hs
  have hcolor := rbColor_top (rep_plug.mp hs.rep).1
  rw [hX] at hcolor
  have hroot : X.top ≠ s.root := by
    cases hXtop : X.top with
    | none =>
      rw [hs.root]
      intro h
      have hmem : p ∈ (plug (⟨d, p, bp, S⟩ :: c) X).addrs := by simp [ctxAddrs]
      rw [Tree.top_eq_none_iff.mp h.symm] at hmem
      simp at hmem
    | some x => exact fun h => List.cons_ne_nil _ _ ((hs.root_eq_iff hXtop).mp h.symm)
  have hside : S.top ≠ X.top := by
    intro h
    obtain ⟨w, hw⟩ := Option.ne_none_iff_exists'.mp fun h => hS (Tree.top_eq_none_iff.mp h)
    have hnd := hs.nodup
    rw [plug_cons, nodup_plug, Tree.nodup_sided] at hnd
    exact hnd.1.2.2.2.2 (Tree.mem_addrs_of_top (h.symm.trans hw)) (Tree.mem_addrs_of_top hw)
  simp only [rbDeleteBody, if_neg hroot, hcolor, Option.bind_eq_bind, Option.bind_some, ne_eq,
    not_true_eq_false, if_false, hcell, Cell.side_eq hside, hst]

/-- A red sibling is rotated away, and the turn ends below the black one in its place. -/
theorem Deficient.red_sibling (h : Deficient data y s (⟨d, p, bp, S⟩ :: c) X n)
    (hS : topColor Item.color S = .red) (hok : ¬ BentSibling d (S.child d)) :
    ∃ st, rbDeleteBody (s, some p, X.top) = some (.inr st) ∧ Finished data y st := by
  obtain ⟨hs, hX, hbal, hhole, hdata⟩ := h
  have hSbal : Balanced Item.color S (n + 1) := hhole.1
  obtain ⟨V, q, bq, W, rfl, hq⟩ := exists_of_topColor_red d hS
  rw [Tree.child_sided] at hok
  obtain ⟨hV, hW, hVbal, hWbal⟩ := (balanced_red hq).mp hSbal
  have hp : bp.color = .black := by
    cases hp : bp.color with
    | red =>
      have hSblack := ((hole_red hp).mp hhole).2.2.1
      rw [hS] at hSblack
      cases hSblack
    | black => rfl
  obtain ⟨-, hc⟩ := (hole_black hp).mp hhole
  obtain ⟨s₁, hside, hs₁⟩ := TreeMem.Shows.rbDeleteSide_red (c := c) X.top hs hq
  have hhole₁ : Hole Item.color (⟨d, p, { bp with color := .red }, V⟩ ::
      ⟨d, q, { bq with color := .black }, W⟩ :: c) .black (n + 1) :=
    (hole_red rfl).mpr ⟨hVbal, rfl, hV, (hole_black rfl).mpr ⟨hWbal, hc⟩⟩
  have hdata₁ : inorder (plug (⟨d, q, { bq with color := .black }, W⟩ :: c)
      (.sided d X p { bp with color := .red } V)) = data := by
    rw [← hdata, plug_cons, plug_cons]
    exact inorder_plug_congr (by cases d <;> simp [Tree.sided, inorder_node])
  -- the parent is red now, so that this turn is the last one
  rcases rbDeleteCases_turn (c := ⟨d, q, { bq with color := .black }, W⟩ :: c)
    X.top hs₁ hdata₁ hbal hV hhole₁ hok with ⟨st, hst, hfin⟩ | ⟨hred, -⟩
  · exact ⟨st, rbDeleteBody_side hs hX hSbal.ne_nil (hside.trans hst), hfin⟩
  · cases hred

theorem Deficient.turn (h : Deficient data y s c X n) (hok : ¬ CtxSlips c) :
    Finished data y (s, above c, X.top) ∨
      (∃ st, rbDeleteBody (s, above c, X.top) = some (.inr st) ∧ Finished data y st) ∨
      ∃ s' c' X', rbDeleteBody (s, above c, X.top) = some (.inr (s', above c', X'.top)) ∧
        c'.length < c.length ∧ ¬ CtxSlips c' ∧ Deficient data y s' c' X' (n + 1) := by
  have hs := h.shows
  cases c with
  | nil =>
    refine .inl ?_
    cases X with
    | nil => exact ⟨if_pos hs.root.symm, hs, h.data.symm⟩
    | node l a b r =>
      have hroot : s.root = some a := hs.root
      have hfin : Finished data y (s, none, s.root) :=
        finished_root hs (isRedBlack_iff.mpr ⟨h.black, n, h.balanced⟩) (fun h => by cases h) h.data
      rw [hroot] at hfin
      exact hfin
  | cons f c =>
    obtain ⟨d, p, bp, S⟩ := f
    have hSnil : S ≠ .nil := Balanced.ne_nil h.hole.1
    rw [CtxSlips] at hok
    refine .inr ?_
    cases hS : topColor Item.color S with
    | red =>
      simp only [hS] at hok
      exact .inl (h.red_sibling hS hok)
    | black =>
      simp only [hS, not_or] at hok
      have hside := TreeMem.Shows.rbDeleteSide_black (c := c) X.top hs hS
      rcases rbDeleteCases_turn (c := c) X.top hs h.data h.balanced hS h.hole hok.1 with
        ⟨st, hst, hfin⟩ | ⟨hp, hV, hW, s', X', hst, hdef⟩
      · exact .inl ⟨st, rbDeleteBody_side hs h.black hSnil (hside.trans hst), hfin⟩
      · refine .inr ⟨s', c, X', rbDeleteBody_side hs h.black hSnil (hside.trans hst), ?_, ?_, hdef⟩
        · exact Nat.lt_succ_self _
        · exact fun h => hok.2 ⟨hV, hW, hp, h⟩

theorem Finished.last {st : TreeMem α × Option Addr × Option Addr} (h : Finished data y st) :
    ∃ s' u, (match st.2.2 with
      | none => pure st.1
      | some node => (st.1.setColor node .black : Program (TreeMem α))).Returns s' ∧
      s'.Shows u [y] ∧ IsRedBlack Item.color u ∧ inorder u = data := by
  obtain ⟨-, h⟩ := h
  cases hnode : st.2.2 with
  | none =>
    simp only [hnode] at h
    refine ⟨st.1, .nil, Program.returns_pure _, h.1, ?_, h.2.symm⟩
    exact isRedBlack_iff.mpr ⟨rfl, 0, rfl⟩
  | some x =>
    simp only [hnode] at h
    obtain ⟨c, d, A, b, B, hs, hrb, hdata⟩ := h
    obtain ⟨s', hs', hshows⟩ := hs.setColor .black
    refine ⟨s', _, Program.returns_ofOption hs', hshows, hrb, ?_⟩
    rw [← hdata]
    exact inorder_plug_congr (by cases d <;> simp [Tree.sided, inorder_node])

end JailFs
