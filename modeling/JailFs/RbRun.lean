import JailFs.RbDelete

/-!
# Runs of `rb_insert` and `rb_delete`

`Slips s node` is `CtxSlips` read off the memory before a deletion: on the way up from the node that
leaves the tree there is a sibling that the fix-up does not repair. A deletion at a node from which
there is none returns and keeps the red-black trees, and so do runs of such deletions and of
insertions.
-/

namespace JailFs

open LinkedTree RedBlack Comparator

variable {α : Type} {cmpfunc : α → α → ℤ} {s s' : TreeMem α} {c c' : Ctx Addr (Item α)}
  {t u X l r : DataTree α} {d : Side} {x y z : Addr} {b : Item α} {loose : List Addr}
  {par : Option Addr} {n : ℕ} {k : Color} {data : List α}

/-- The child of a node that may be `NULL`. -/
def childOf (s : TreeMem α) (d : Side) (p : Option Addr) : Option Addr := do
  let node ← p
  let cell ← s.heap node
  cell.child d

def OnlyNearRed (s : TreeMem α) (d : Side) (sibling : Option Addr) : Prop :=
  rbColor s (childOf s d sibling) = some .red ∧ rbColor s (childOf s d.other sibling) = some .black

/-- From the place of `node` upwards, `rb_delete_fixup` comes to a black sibling of which only the
near child is red: beside the node, in the place of a red sibling, or further up. -/
inductive Slips (s : TreeMem α) : Addr → Prop
  | red {d : Side} {node parent : Addr} (child : childOf s d (some parent) = some node)
      (sibling : rbColor s (childOf s d.other (some parent)) = some .red)
      (bent : OnlyNearRed s d (childOf s d (childOf s d.other (some parent)))) : Slips s node
  | black {d : Side} {node parent : Addr} (child : childOf s d (some parent) = some node)
      (sibling : rbColor s (childOf s d.other (some parent)) = some .black)
      (bent : OnlyNearRed s d (childOf s d.other (some parent))) : Slips s node
  | up {d : Side} {node parent : Addr} (child : childOf s d (some parent) = some node)
      (sibling : rbColor s (childOf s d.other (some parent)) = some .black)
      (near : rbColor s (childOf s d (childOf s d.other (some parent))) = some .black)
      (far : rbColor s (childOf s d.other (childOf s d.other (some parent))) = some .black)
      (black : rbColor s (some parent) = some .black) (above : Slips s parent) : Slips s node

/-- The node that leaves the tree is red or has a child, or the fix-up repairs what is above it. -/
def Repairs (s : TreeMem α) (node : Addr) : Prop :=
  ∀ current cell, (spliced s node).Returns (some current) → s.heap current = some cell →
    cell.val.color = .black → cell.left = none → cell.right = none → ¬ Slips s current

theorem childOf_top (hrep : Rep Item.stored s.heap par t) :
    childOf s d t.top = (t.child d).top := by
  cases t with
  | nil => cases d <;> rfl
  | node l a b r =>
    have ha := hrep.1
    cases d <;> simp [childOf, Tree.top, ha, Tree.child, Cell.child]

theorem rep_child (hrep : Rep Item.stored s.heap par t) :
    Rep Item.stored s.heap t.top (t.child d) := by
  cases t with
  | nil => cases d <;> trivial
  | node l a b r =>
    cases d
    · exact hrep.2.1
    · exact hrep.2.2

theorem rbColor_child (hrep : Rep Item.stored s.heap par t) :
    rbColor s (childOf s d t.top) = some (topColor Item.color (t.child d)) := by
  rw [childOf_top hrep, rbColor_top (rep_child hrep)]

theorem onlyNearRed_top (hrep : Rep Item.stored s.heap par t) (h : BentSibling d t) :
    OnlyNearRed s d t.top := by
  rw [OnlyNearRed, rbColor_child hrep, rbColor_child hrep, h.1, h.2]
  exact ⟨rfl, rfl⟩

theorem slips_of_ctxSlips (hs : s.Shows (plug c t) loose) (hx : t.top = some x)
    (h : CtxSlips c) : Slips s x := by
  induction c generalizing t x with
  | nil => exact absurd h id
  | cons f c ih =>
    obtain ⟨d, p, bp, S⟩ := f
    have hp : Rep Item.stored s.heap (above c) (.sided d t p bp S) :=
      ((rep_plug (c := c)).mp hs.rep).1
    have htop : (Tree.sided d t p bp S).top = some p := Tree.top_sided
    have hchild : childOf s d (some p) = some x := by
      rw [← htop, childOf_top hp, Tree.child_sided, hx]
    have hsib : childOf s d.other (some p) = S.top := by
      rw [← htop, childOf_top hp, Tree.child_other_sided]
    have hS : Rep Item.stored s.heap (some p) S := (rep_sided.mp hp).2.2
    have hcolor := rbColor_top hS
    rw [CtxSlips] at h
    cases hSc : topColor Item.color S with
    | red =>
      simp only [hSc] at h hcolor
      refine .red hchild (by rw [hsib, hcolor]) ?_
      rw [hsib, childOf_top hS]
      exact onlyNearRed_top (rep_child hS) h
    | black =>
      simp only [hSc] at h hcolor
      rcases h with h | ⟨hnear, hfar, hblack, h⟩
      · refine .black hchild (by rw [hsib, hcolor]) ?_
        rw [hsib]
        exact onlyNearRed_top hS h
      · refine .up hchild (by rw [hsib, hcolor]) ?_ ?_ ?_ (ih (t := .sided d t p bp S) hs htop h)
        · rw [hsib, rbColor_child hS, hnear]
        · rw [hsib, rbColor_child hS, hfar]
        · rw [← htop, rbColor_top hp, topColor_sided]
          exact congrArg some hblack

theorem SameLinks.ctxSlips (h : SameLinks c c') : CtxSlips c ↔ CtxSlips c' := by
  induction h with
  | nil => exact Iff.rfl
  | cons hfg _ ih =>
    obtain ⟨hside, -, hsib, hcolor⟩ := hfg
    simp only [CtxSlips, hside, hsib, hcolor, ih]

theorem SameLinks.hole (h : SameLinks c c') : Hole Item.color c k n ↔ Hole Item.color c' k n := by
  induction h generalizing k n with
  | nil => exact Iff.rfl
  | cons hfg _ ih =>
    obtain ⟨-, -, hsib, hcolor⟩ := hfg
    simp only [Hole, hsib, hcolor, ih]

theorem rbDeleteFixup_returns {st : TreeMem α × Option Addr × Option Addr}
    (h : Finished data y st ∨ ∃ s c X n, st = (s, above c, X.top) ∧ Deficient data y s c X n ∧
      ¬ CtxSlips c) :
    ∃ s' u, (rbDeleteFixup st.1 st.2.1 st.2.2).Returns s' ∧ s'.Shows u [y] ∧
      IsRedBlack Item.color u ∧ inorder u = data := by
  have hloop : ∃ res, (Program.loop rbDeleteBody st).Returns res ∧
      ∃ st' : TreeMem α × Option Addr × Option Addr, res = (st'.1, st'.2.2) ∧
        Finished data y st' := by
    obtain ⟨k, hk⟩ : ∃ k, (k = 0 ∧ Finished data y st) ∨ ∃ s c X n, k = c.length + 1 ∧
        st = (s, above c, X.top) ∧ Deficient data y s c X n ∧ ¬ CtxSlips c := by
      rcases h with h | ⟨s, c, X, n, hst, hdef, hok⟩
      · exact ⟨0, .inl ⟨rfl, h⟩⟩
      · exact ⟨_, .inr ⟨s, c, X, n, rfl, hst, hdef, hok⟩⟩
    refine Program.loop_returns (k := k) (I := fun k st => (k = 0 ∧ Finished data y st) ∨
      ∃ s c X n, k = c.length + 1 ∧ st = (s, above c, X.top) ∧ Deficient data y s c X n ∧
        ¬ CtxSlips c) ?_ hk
    rintro k st (⟨rfl, hfin⟩ | ⟨s, c, X, n, rfl, rfl, hdef, hok⟩)
    · exact .inl ⟨_, hfin.1, st, rfl, hfin⟩
    · rcases hdef.turn hok with hfin | ⟨st', hbody, hfin⟩ | ⟨s', c', X', hbody, hlt, hok', hdef'⟩
      · exact .inl ⟨_, hfin.1, _, rfl, hfin⟩
      · exact .inr ⟨st', 0, hbody, Nat.succ_pos _, .inl ⟨rfl, hfin⟩⟩
      · exact .inr ⟨_, c'.length + 1, hbody, by omega, .inr ⟨s', c', X', _, rfl, rfl, hdef', hok'⟩⟩
  obtain ⟨res, hret, st', rfl, hfin⟩ := hloop
  obtain ⟨s', u, hlast, hshows, hrb, hdata⟩ := hfin.last
  exact ⟨s', u, Program.returns_bind hret hlast, hshows, hrb, hdata⟩

theorem rbDelete_returns {s₁ s₂ s₃ : TreeMem α} (hret : (JailFs.pullOut s z).Returns (s₁, y))
    (hy : s₁.heap y = some ⟨l.top, r.top, LinkedTree.above c, ⟨none, b.color⟩⟩)
    (hfix : if b.color = .black then
      (rbDeleteFixup s₁ (LinkedTree.above c) (onlyChild l r).top).Returns s₂ else s₂ = s₁)
    (h₃ : JailFs.release s₂ y = some s₃) : (JailFs.rbDelete s z).Returns s₃ := by
  refine Program.returns_bind hret (Program.returns_lift_bind hy ?_)
  rw [top_onlyChild] at hfix
  by_cases hb : b.color = .black
  · rw [if_pos hb] at hfix
    simp only [hb, if_true]
    exact Program.returns_bind hfix (Program.returns_ofOption h₃)
  · rw [if_neg hb] at hfix
    simp only [hb, if_false]
    exact Program.returns_ofOption (hfix ▸ h₃)

theorem isRedBlack_without_red (hb : b.color = .red)
    (hbal : Balanced Item.color (.node l y b r) n) (hhole : Hole Item.color c .red n) :
    IsRedBlack Item.color (plug c (onlyChild l r)) := by
  obtain ⟨hl, hr, hlbal, hrbal⟩ := (balanced_red (d := .left) hb).mp hbal
  refine isRedBlack_plug.mpr ⟨n, onlyChild_of (Balanced Item.color · n) hlbal hrbal, ?_⟩
  rw [onlyChild_of (fun u => topColor Item.color u = .black) hl hr]
  exact hhole.black

/-- Without a black node the tree is in a state from which the fix-up comes to its end: the child
in its place is red, or it had none and nothing above it slips. -/
theorem fixup_start (hs : s.Shows (plug c (onlyChild l r)) [y]) (hone : l = .nil ∨ r = .nil)
    (hb : b.color = .black) (hbal : Balanced Item.color (.node l y b r) n)
    (hhole : Hole Item.color c .black n) (hok : l.top = none → r.top = none → ¬ CtxSlips c) :
    ∃ s' u, (rbDeleteFixup s (above c) (onlyChild l r).top).Returns s' ∧ s'.Shows u [y] ∧
      IsRedBlack Item.color u ∧ inorder u = inorder (plug c (onlyChild l r)) := by
  cases n with
  | zero => exact absurd hbal (not_balanced_zero (d := .left) hb)
  | succ n =>
    obtain ⟨hlbal, hrbal⟩ := (balanced_black (d := .left) hb).mp hbal
    have hXbal : Balanced Item.color (onlyChild l r) n :=
      onlyChild_of (Balanced Item.color · n) hlbal hrbal
    cases hX : topColor Item.color (onlyChild l r) with
    | red =>
      obtain ⟨A, x, bx, B, hXeq, hbx⟩ := exists_of_topColor_red .left hX
      rw [hXeq] at hs hXbal ⊢
      obtain ⟨-, -, hA, hB⟩ := (balanced_red hbx).mp hXbal
      exact rbDeleteFixup_returns (.inl (finished_red hs hbx
        (isRedBlack_plug.mpr ⟨n + 1, (balanced_black rfl).mpr ⟨hA, hB⟩, hhole⟩) rfl))
    | black =>
      obtain rfl : n = 0 := by
        rcases hone with rfl | rfl
        · exact balanced_nil.mp hlbal
        · exact balanced_nil.mp hrbal
      have hnil := hXbal.eq_nil hX
      have hleaf : l.top = none ∧ r.top = none := by
        cases l with
        | nil => exact ⟨rfl, by rw [← onlyChild.eq_1 r, hnil]; rfl⟩
        | node => cases hnil
      exact rbDeleteFixup_returns (.inr ⟨s, c, _, 0, rfl, ⟨hs, hX, hXbal, hhole, rfl⟩,
        hok hleaf.1 hleaf.2⟩)

theorem TreeMem.Shows.rbDelete (hs : s.Shows t []) (hrb : IsRedBlack Item.color t)
    (hz : z ∈ t.addrs) (hok : Repairs s z) :
    ∃ c c' l y b r s' u, Pulls t z c c' l y b r ∧ (JailFs.rbDelete s z).Returns s' ∧
      s'.Shows u [] ∧ IsRedBlack Item.color u ∧ inorder u = inorder (plug c' (onlyChild l r)) := by
  obtain ⟨c, c', l, y, b, r, s₁, hpull, hsp, hret, hs₁, hy⟩ := hs.pullOut hz
  obtain rfl := hpull.tree
  have hyold : s.heap y = some ⟨l.top, r.top, LinkedTree.above c, b.stored⟩ :=
    hs.heap_at (d := .left)
  obtain ⟨n, hbal, hhole⟩ := isRedBlack_plug.mp hrb
  rw [hpull.links.hole] at hhole
  suffices h : ∃ s₂ u, (if b.color = .black then
      (rbDeleteFixup s₁ (LinkedTree.above c) (onlyChild l r).top).Returns s₂ else s₂ = s₁) ∧
      s₂.Shows u [y] ∧ IsRedBlack Item.color u ∧
      inorder u = inorder (plug c' (onlyChild l r)) by
    obtain ⟨s₂, u, hfix, hs₂, hu, hdata⟩ := h
    obtain ⟨s₃, h₃, hs₃⟩ := hs₂.release
    exact ⟨c, c', l, y, b, r, s₃, u, hpull, rbDelete_returns hret hy hfix h₃, hs₃, hu, hdata⟩
  cases hb : b.color with
  | red =>
    rw [show topColor Item.color (.node l y b r) = .red from hb] at hhole
    exact ⟨s₁, _, rfl, hs₁, isRedBlack_without_red hb hbal hhole, rfl⟩
  | black =>
    rw [show topColor Item.color (.node l y b r) = .black from hb] at hhole
    simp only [if_true]
    rw [hpull.links.above]
    refine fixup_start hs₁ hpull.one hb hbal hhole fun hl hr h => ?_
    exact hok y _ hsp hyold hb hl hr
      (slips_of_ctxSlips (t := .node l y b r) hs rfl (hpull.links.ctxSlips.mpr h))

inductive RbOp (α : Type)
  | insert (m : Addr) (x : α)
  | delete (node : Addr) (x : α)

namespace RbOp

def tree : RbOp α → TreeOp α
  | insert m x => .insert m x
  | delete node x => .delete node x

def Returns (cmpfunc : α → α → ℤ) (s : TreeMem α) : RbOp α → TreeMem α → Prop
  | insert m x, s' => (rbInsert cmpfunc s m x).Returns s'
  | delete node _, s' => (rbDelete s node).Returns s'

def Repaired (s : TreeMem α) : RbOp α → Prop
  | insert _ _ => True
  | delete node _ => Repairs s node

end RbOp

def rbStep (cmpfunc : α → α → ℤ) (s : TreeMem α) (op : RbOp α) (s' : TreeMem α) : Prop :=
  op.tree.Allowed s ∧ op.Returns cmpfunc s s'

/-- `rb_delete` returns, takes exactly the entry of the node out of the order of the tree `t`, and
leaves a red-black tree. -/
def DeletesWell (s : TreeMem α) (t : DataTree α) (node : Addr) : Prop :=
  ∃ s' t', (rbDelete s node).Returns s' ∧ s'.Shows t' [] ∧ IsRedBlack Item.color t' ∧
    ∃ before i after, t.entries = before ++ (node, i) :: after ∧
      inorder t' = (before ++ after).map fun e => e.2.data

theorem rbStep_spec (hcmp : IsPreorder cmpfunc) {ops : List (TreeOp α)} {op : RbOp α}
    (h : Ordered cmpfunc ops s t) (hrb : IsRedBlack Item.color t)
    (hstep : rbStep cmpfunc s op s') (hok : op.Repaired s) :
    ∃ t', Ordered cmpfunc (ops ++ [op.tree]) s' t' ∧ IsRedBlack Item.color t' := by
  obtain ⟨hallowed, hret⟩ := hstep
  cases op with
  | insert m x =>
    obtain ⟨s₁, t', hret₁, hs', hsorted, hrb', hperm⟩ :=
      h.shows.rbInsert hcmp h.sorted hrb hallowed x
    obtain rfl := hret₁.unique hret
    exact ⟨t', h.extend hs' hsorted hperm.symm, hrb'⟩
  | delete z x =>
    obtain ⟨cell, hcell, hx⟩ := hallowed
    have hz : z ∈ t.addrs := by simpa using (h.shows.nodes z).mp (by rw [hcell]; rfl)
    obtain ⟨c, c', l, y, b, r, s₁, u, hpull, hret₁, hs', hrb', hdata⟩ :=
      h.shows.rbDelete hrb hz hok
    obtain rfl := hret₁.unique hret
    obtain ⟨hperm, hsub⟩ := hpull.data h.shows hcell hx
    rw [← hdata] at hperm hsub
    exact ⟨u, h.extend hs' (h.sorted.sublist hsub) hperm, hrb'⟩

/-- Along runs in which every deletion is repaired, the tree is a red-black tree of the inserted
data without the deleted, and every further deletion that is repaired does what it should. -/
theorem rb_run_repaired (hcmp : IsPreorder cmpfunc) {ops : List (RbOp α)}
    (hrun : Exec (fun s op s' => rbStep cmpfunc s op s' ∧ op.Repaired s) .empty ops s) :
    ∃ t, Ordered cmpfunc (ops.map RbOp.tree) s t ∧ s.LinksAgree ∧ IsRedBlack Item.color t ∧
      ∀ node cell, s.heap node = some cell → Repairs s node → DeletesWell s t node := by
  obtain ⟨t, h, hrb⟩ : ∃ t, Ordered cmpfunc (ops.map RbOp.tree) s t ∧ IsRedBlack Item.color t := by
    refine hrun.history_invariant (I := fun ops s => ∃ t, Ordered cmpfunc (ops.map RbOp.tree) s t ∧
      IsRedBlack Item.color t) ⟨.nil, ordered_empty, isRedBlack_iff.mpr ⟨rfl, 0, rfl⟩⟩ ?_
    rintro ops s op s' ⟨t, h, hrb⟩ ⟨hstep, hok⟩
    rw [List.map_append]
    exact rbStep_spec hcmp h hrb hstep hok
  refine ⟨t, h, h.shows.linksAgree, hrb, fun node cell hcell hok => ?_⟩
  have hz : node ∈ t.addrs := by simpa using (h.shows.nodes node).mp (by rw [hcell]; rfl)
  obtain ⟨c, c', l, y, b, r, s', u, hpull, hret, hs', hrb', hdata⟩ := h.shows.rbDelete hrb hz hok
  obtain ⟨before, i, after, hentries, hrest⟩ := hpull.order
  exact ⟨s', u, hret, hs', hrb', before, i, after, hentries, hdata.trans hrest⟩

theorem TreeMem.LinksAgree.parent_eq (h : s.LinksAgree) {p : Addr}
    (hchild : childOf s d (some p) = some x) {cell : Cell Addr (NodeData α)}
    (hcell : s.heap x = some cell) : cell.parent = some p := by
  obtain ⟨above, habove, hd⟩ := Option.bind_eq_some_iff.mp hchild
  obtain ⟨cell', hcell', hparent⟩ := h.child p above d x habove hd
  rw [hcell, Option.some_inj] at hcell'
  rwa [hcell']

theorem not_slips_of_far_red (hlinks : s.LinksAgree) {p : Addr} {cell : Cell Addr (NodeData α)}
    (hcell : s.heap x = some cell) (hparent : cell.parent = some p)
    (hother : childOf s d.other (some p) ≠ some x)
    (hsibling : rbColor s (childOf s d.other (some p)) = some .black)
    (hfar : rbColor s (childOf s d.other (childOf s d.other (some p))) = some .red) :
    ¬ Slips s x := by
  have hplace {d' : Side} {p' : Addr} (hchild : childOf s d' (some p') = some x) :
      p' = p ∧ d' = d := by
    obtain rfl : p' = p := by
      rw [hlinks.parent_eq hchild hcell] at hparent
      exact Option.some.inj hparent
    refine ⟨rfl, ?_⟩
    cases d <;> cases d' <;> first | rfl | exact absurd hchild hother
  intro hslips
  cases hslips with
  | red hchild hred =>
    obtain ⟨rfl, rfl⟩ := hplace hchild
    rw [hsibling] at hred
    cases hred
  | black hchild _ hbent =>
    obtain ⟨rfl, rfl⟩ := hplace hchild
    have hblack := hbent.2
    rw [hfar] at hblack
    cases hblack
  | up hchild _ _ hblack =>
    obtain ⟨rfl, rfl⟩ := hplace hchild
    rw [hfar] at hblack
    cases hblack

theorem rb_four_inserts : ∃ (s : TreeMem ℤ) (cell : Cell Addr (NodeData ℤ)),
    Exec (fun s op s' => rbStep (fun a b : ℤ => a - b) s op s' ∧ op.Repaired s) .empty
      [.insert 1 2, .insert 2 1, .insert 3 3, .insert 4 4] s ∧
    s.heap 2 = some cell ∧ cell.parent = some 1 ∧ (RbOp.delete 2 1).tree.Allowed s ∧
    (spliced s 2).Returns (some 2) ∧ childOf s .right (some 1) ≠ some 2 ∧
    rbColor s (childOf s .right (some 1)) = some .black ∧
    rbColor s (childOf s .right (childOf s .right (some 1))) = some .red := by
  have h₀ : Exec (fun s op s' => rbStep (fun a b : ℤ => a - b) s op s' ∧ op.Repaired s) .empty
      [] .empty := Exec.nil _
  have h₁ := h₀.snoc (a := RbOp.insert 1 2) ⟨⟨rfl, 9, rfl⟩, trivial⟩
  have h₂ := h₁.snoc (a := RbOp.insert 2 1) ⟨⟨rfl, 9, rfl⟩, trivial⟩
  have h₃ := h₂.snoc (a := RbOp.insert 3 3) ⟨⟨rfl, 9, rfl⟩, trivial⟩
  have h₄ := h₃.snoc (a := RbOp.insert 4 4) ⟨⟨rfl, 9, rfl⟩, trivial⟩
  exact ⟨_, _, h₄, rfl, rfl, ⟨_, rfl, rfl⟩, ⟨9, rfl⟩, by decide, rfl, rfl⟩

/-- The black leaf leaves the tree, and the fix-up takes its sibling up. -/
theorem rb_run_repaired_leaf : ∃ (s : TreeMem ℤ) (t : DataTree ℤ),
    Ordered (fun a b => a - b)
      [.insert 1 2, .insert 2 1, .insert 3 3, .insert 4 4, .delete 2 1] s t ∧
        IsRedBlack Item.color t := by
  obtain ⟨s, cell, hrun, hcell, hparent, hallowed, hspliced, hother, hsibling, hfar⟩ :=
    rb_four_inserts
  obtain ⟨t, -, hlinks, -, hdelete⟩ := rb_run_repaired isPreorder_sub hrun
  have hrepairs : Repairs s 2 := by
    intro current _ hcurrent _ _ _ _
    obtain rfl : current = 2 := Option.some.inj (hcurrent.unique hspliced)
    exact not_slips_of_far_red (d := .left) hlinks hcell hparent hother hsibling hfar
  obtain ⟨s', -, hret, -⟩ := hdelete 2 cell hcell hrepairs
  obtain ⟨t', h, -, hrb, -⟩ :=
    rb_run_repaired isPreorder_sub (hrun.snoc ⟨⟨hallowed, hret⟩, hrepairs⟩)
  exact ⟨s', t', h, hrb⟩

/-- A black leaf whose black sibling has only its near child red: the fix-up follows `NULL`. -/
theorem rb_delete_follows_null : ∃ s, Exec (rbStep fun a b : ℤ => a - b) .empty
    [.insert 1 2, .insert 2 1, .insert 3 4, .insert 4 3] s ∧ (s.heap 2).isSome ∧
      (rbDelete s 2).Faults ∧ ∀ t, ¬ DeletesWell s t 2 := by
  have h₀ : Exec (rbStep fun a b : ℤ => a - b) .empty [] .empty := Exec.nil _
  have h₁ := h₀.snoc (a := RbOp.insert 1 2) ⟨rfl, 9, rfl⟩
  have h₂ := h₁.snoc (a := RbOp.insert 2 1) ⟨rfl, 9, rfl⟩
  have h₃ := h₂.snoc (a := RbOp.insert 3 4) ⟨rfl, 9, rfl⟩
  have h₄ := h₃.snoc (a := RbOp.insert 4 3) ⟨rfl, 9, rfl⟩
  refine ⟨_, h₄, rfl, ⟨9, rfl⟩, ?_⟩
  rintro t ⟨s', t', hret, -⟩
  exact hret.not_faults ⟨9, rfl⟩

end JailFs
