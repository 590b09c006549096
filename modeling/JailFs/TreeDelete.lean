import JailFs.TreeInsert

/-!
# `pull_out` and `tree_delete`

The node that leaves the tree has at most one child, which takes its place; it is the node itself
or, below a node with two children, the first node of the right subtree, whose data moves up. In
order, exactly the data of the node is missing afterwards.
-/

namespace JailFs

open LinkedTree RedBlack

variable {α : Type} {s s' : TreeMem α} {c c' : Ctx Addr (Item α)} {t u l r : DataTree α}
  {p : Option Addr} {y z : Addr} {b b' : Item α} {loose : List Addr}

/-- Two contexts that differ in the data of their nodes only. -/
def SameLinks (c c' : Ctx Addr (Item α)) : Prop :=
  List.Forall₂ (fun f g => f.side = g.side ∧ f.addr = g.addr ∧ f.sibling = g.sibling ∧
    f.val.color = g.val.color) c c'

theorem SameLinks.refl (c : Ctx Addr (Item α)) : SameLinks c c :=
  List.forall₂_same.mpr fun _ _ => ⟨rfl, rfl, rfl, rfl⟩

theorem SameLinks.above (h : SameLinks c c') : above c = above c' := by
  cases h with
  | nil => rfl
  | cons hfg _ => exact congrArg some hfg.2.1

/-- The subtree that takes the place of a node with at most one child. -/
def onlyChild (l r : DataTree α) : DataTree α :=
  match l with
  | .nil => r
  | .node .. => l

theorem top_onlyChild : (onlyChild l r).top = if l.top ≠ none then l.top else r.top := by
  cases l <;> simp [onlyChild, Tree.top]

theorem entries_onlyChild (h : l = .nil ∨ r = .nil) :
    (onlyChild l r).entries = l.entries ++ r.entries := by
  rcases h with rfl | rfl
  · rfl
  · cases l <;> simp [onlyChild, Tree.entries]

theorem onlyChild_of (P : DataTree α → Prop) (hl : P l) (hr : P r) : P (onlyChild l r) := by
  cases l with
  | nil => exact hr
  | node => exact hl

theorem treeMinimum_spec (hrep : Rep Item.stored s.heap p t) (htop : t.top = some z) :
    ∃ c y b r, t = plug c (.node .nil y b r) ∧ before c = [] ∧ (treeMinimum s z).Returns y := by
  induction t generalizing p z with
  | nil => cases htop
  | node l a b r ihl =>
    cases htop
    obtain ⟨ha, hl, -⟩ := hrep
    cases hltop : l.top with
    | none =>
      obtain rfl := Tree.top_eq_none_iff.mp hltop
      refine ⟨[], a, b, r, rfl, rfl, Program.loop_ends ?_⟩
      simp [ha, Tree.top]
    | some next =>
      obtain ⟨c, y, b', r', rfl, hc, hret⟩ := ihl hl hltop
      refine ⟨c ++ [⟨.left, a, b, r⟩], y, b', r', by rw [plug_append]; rfl, ?_, ?_⟩
      · rw [before_append, hc]
        rfl
      · refine Program.loop_goes_on ?_ hret
        simp [ha, hltop]

theorem addrs_splice (hone : l = .nil ∨ r = .nil) :
    (plug c (.node l y b r)).addrs.Perm (y :: (plug c (onlyChild l r)).addrs) := by
  have h : (plug c (.node l y b r)).entries.Perm ((y, b) :: (plug c (onlyChild l r)).entries) := by
    simp only [entries_plug, entries_onlyChild hone, Tree.entries, List.append_assoc,
      List.cons_append]
    rw [← List.append_assoc, ← List.append_assoc (before c)]
    exact List.perm_middle
  exact h.map Prod.fst

theorem TreeMem.graft_spec (hctx : RepCtx Item.stored s.heap c (some y)) (hyc : y ∉ ctxAddrs c)
    (hu : Rep Item.stored s.heap p u) (hnd : (plug c u).addrs.Nodup) :
    ∃ s₁ s₂, s.writeOpt u.top (·.setParent (above c)) = some s₁ ∧
      s₁.relink (above c) y u.top = some s₂ ∧ s₂.root = (if c = [] then u.top else s.root) ∧
      Rep Item.stored s₂.heap none (plug c u) ∧
      ∀ q, u.top ≠ some q → above c ≠ some q → s₂.heap q = s.heap q := by
  obtain ⟨hndu, hndc, huc⟩ := nodup_plug.mp hnd
  obtain ⟨s₁, h₁, root₁, at₁, keep₁⟩ := TreeMem.writeOpt_spec (s := s) (m := u.top)
    (·.setParent (above c)) fun q hq => hu.isSome (Tree.mem_addrs_of_top hq)
  have htop (q : Addr) (hq : q ∈ ctxAddrs c) : u.top ≠ some q :=
    fun h => huc (Tree.mem_addrs_of_top h) hq
  have hctx₁ : RepCtx Item.stored s₁.heap c (some y) :=
    hctx.congr fun q hq => keep₁ q (htop q hq)
  obtain ⟨s₂, h₂, root₂, at₂, keep₂⟩ := TreeMem.relink_spec hctx₁ hyc u.top
  have habove (q : Addr) (hq : q ∈ u.addrs) : above c ≠ some q :=
    fun h => huc hq (mem_ctxAddrs_of_above h)
  have keep (q : Addr) (hq : u.top ≠ some q) (hq' : above c ≠ some q) : s₂.heap q = s.heap q :=
    (keep₂ q hq').trans (keep₁ q hq)
  refine ⟨s₁, s₂, h₁, h₂, by rw [root₂, root₁], rep_plug.mpr ⟨?_, ?_⟩, keep⟩
  · refine hu.reparent hndu (fun q cell hq hcell => ?_) fun q hq hq' => keep q hq' (habove q hq)
    rw [keep₂ q (habove q (Tree.mem_addrs_of_top hq)), at₁ q cell hq hcell]
  · refine hctx.rehole hndc (fun g c' cell hc hcell => ?_) fun q hq => keep q (htop q hq)
    have hg : g.addr ∈ ctxAddrs c := hc ▸ List.mem_cons_self
    exact at₂ g c' cell hc ((keep₁ _ (htop _ hg)).trans hcell)

/-- The child of a node that has at most one takes its place. -/
theorem TreeMem.Shows.splice (hs : s.Shows (plug c (.node l y b r)) loose)
    (hone : l = .nil ∨ r = .nil) :
    ∃ s₁ s₂, s.writeOpt (onlyChild l r).top (·.setParent (above c)) = some s₁ ∧
      s₁.relink (above c) y (onlyChild l r).top = some s₂ ∧ s₂.heap y = s.heap y ∧
      s₂.Shows (plug c (onlyChild l r)) (y :: loose) := by
  obtain ⟨⟨-, hl, hr⟩, hctx⟩ := rep_plug.mp hs.rep
  have hu : Rep Item.stored s.heap (some y) (onlyChild l r) :=
    onlyChild_of (Rep Item.stored s.heap (some y)) hl hr
  have hperm := addrs_splice (c := c) (y := y) (b := b) hone
  obtain ⟨hy, hnd⟩ := List.nodup_cons.mp (hperm.nodup_iff.mp hs.nodup)
  have hmem (q : Addr) := hperm.mem_iff (a := q)
  generalize onlyChild l r = u at *
  rw [mem_addrs_plug, not_or] at hy
  obtain ⟨s₁, s₂, h₁, h₂, root, hrep, keep⟩ := TreeMem.graft_spec hctx hy.2 hu hnd
  have keep' (q : Addr) (hq : q ∉ u.addrs ∧ q ∉ ctxAddrs c) : s₂.heap q = s.heap q :=
    keep q (fun h => hq.1 (Tree.mem_addrs_of_top h)) fun h => hq.2 (mem_ctxAddrs_of_above h)
  refine ⟨s₁, s₂, h₁, h₂, keep' y hy, ?_, hrep, hnd, fun q => ?_, fun q hq h => ?_⟩
  · rw [root]
    exact TreeMem.root_relink hs.root rfl
  · by_cases hq : q ∈ (plug c u).addrs
    · exact iff_of_true (hrep.isSome hq) (.inl hq)
    · rw [keep' q (not_or.mp fun h => hq (mem_addrs_plug.mpr h)), hs.nodes q, hmem]
      simp only [List.mem_cons, hq, or_false, false_or]
  · rcases List.mem_cons.mp hq with rfl | hq
    · exact (mem_addrs_plug.mp h).elim hy.1 hy.2
    · exact hs.apart q hq ((hmem q).mpr (.tail y h))

/-- The node `y` leaves the tree `t` for the data of `z`. -/
structure Pulls (t : DataTree α) (z : Addr) (c c' : Ctx Addr (Item α)) (l : DataTree α) (y : Addr)
    (b : Item α) (r : DataTree α) : Prop where
  tree : t = plug c (.node l y b r)
  one : l = .nil ∨ r = .nil
  links : SameLinks c c'
  order : ∃ before i after, t.entries = before ++ (z, i) :: after ∧
    inorder (plug c' (onlyChild l r)) = (before ++ after).map fun e => e.2.data

theorem Pulls.here (hone : l = .nil ∨ r = .nil) :
    Pulls (plug c (.node l z b r)) z c c l z b r where
  tree := rfl
  one := hone
  links := .refl c
  order := by
    refine ⟨before c ++ l.entries, b, r.entries ++ after c, ?_, ?_⟩
    · simp [entries_plug, Tree.entries]
    · simp [inorder, entries_plug, entries_onlyChild hone]

theorem Pulls.next (hc' : before c' = []) :
    Pulls (plug c (.node l z b (plug c' (.node .nil y b' r)))) z
      (c' ++ ⟨.right, z, b, l⟩ :: c) (c' ++ ⟨.right, z, { b with data := b'.data }, l⟩ :: c)
      .nil y b' r where
  tree := by rw [plug_append]; rfl
  one := .inl rfl
  links := List.rel_append (SameLinks.refl c') (.cons ⟨rfl, rfl, rfl, rfl⟩ (SameLinks.refl c))
  order := by
    refine ⟨before c ++ l.entries, b, (y, b') :: (r.entries ++ (after c' ++ after c)), ?_, ?_⟩
    · simp [entries_plug, Tree.entries, hc']
    · simp [inorder, entries_plug, before_append, after_append, onlyChild, hc', before, after]

theorem TreeMem.Shows.pullOutAt (hs : s.Shows (plug c (.node l y b r)) loose)
    (hone : l = .nil ∨ r = .nil) {v : DataTree α}
    (hdata : ∀ s₂ : TreeMem α, s₂.Shows (plug c (onlyChild l r)) (y :: loose) →
      s₂.heap y = s.heap y → ∃ cell x s₃, s₂.heap z = some cell ∧ cell.val.data = some x ∧
        takeData s₂ z y (some b.data) = some s₃ ∧
        s₃.Shows v (y :: loose) ∧ s₃.heap y = s₂.heap y) :
    ∃ s', JailFs.pullOutAt s z y = some s' ∧ s'.Shows v (y :: loose) ∧
      s'.heap y = some ⟨l.top, r.top, LinkedTree.above c, ⟨none, b.color⟩⟩ := by
  obtain ⟨s₁, s₂, h₁, h₂, hy₂, hs₂⟩ := hs.splice hone
  obtain ⟨cell, x, s₃, hcell, hx, h₃, hs₃, hy₃⟩ := hdata s₂ hs₂ hy₂
  have hy : s.heap y = some ⟨l.top, r.top, LinkedTree.above c, b.stored⟩ := hs.heap_at (d := .left)
  obtain ⟨s₄, cell₄, hcell₄, h₄, hat₄, hs₄⟩ := hs₃.write_loose (x := y) List.mem_cons_self
    fun cell => { cell with val := { cell.val with data := none } }
  refine ⟨s₄, ?_, hs₄, ?_⟩
  · rw [JailFs.pullOutAt, hy, Option.bind_eq_bind, Option.bind_some]
    rw [top_onlyChild] at h₁ h₂
    simp only [Option.bind_eq_bind, h₁, h₂, Option.bind_some, hcell, hx, Item.stored, h₃]
    exact h₄
  · rw [hy₃, hy₂, hy] at hcell₄
    rw [hat₄, ← Option.some.inj hcell₄]
    rfl

/-- The memory after `pull_out`: the node that left is not in the tree but still allocated, with
its pointers as they were. -/
theorem TreeMem.Shows.pullOut (hs : s.Shows t loose) (hz : z ∈ t.addrs) :
    ∃ c c' l y b r s', Pulls t z c c' l y b r ∧ (spliced s z).Returns (some y) ∧
      (JailFs.pullOut s z).Returns (s', y) ∧
      s'.Shows (plug c' (onlyChild l r)) (y :: loose) ∧
      s'.heap y = some ⟨l.top, r.top, LinkedTree.above c, ⟨none, b.color⟩⟩ := by
  obtain ⟨c, l, b, r, rfl⟩ := exists_plug hz
  have hcell : s.heap z = some ⟨l.top, r.top, LinkedTree.above c, b.stored⟩ :=
    hs.heap_at (d := .left)
  by_cases hone : l = .nil ∨ r = .nil
  · have hnone : l.top = none ∨ r.top = none := by
      rw [Tree.top_eq_none_iff, Tree.top_eq_none_iff]
      exact hone
    have hsp : (spliced s z).Returns (some z) := by
      refine Program.returns_lift_bind hcell ?_
      rw [if_pos hnone]
      exact Program.returns_pure _
    obtain ⟨s', hs', hshows, hz'⟩ := hs.pullOutAt (z := z) hone fun s₂ hs₂ hz₂ =>
      ⟨_, b.data, s₂, hz₂.trans hcell, rfl, if_neg fun h => h rfl, hs₂, rfl⟩
    refine ⟨c, c, l, z, b, r, s', .here hone, hsp, ?_, hshows, hz'⟩
    refine Program.returns_bind hsp (Program.returns_lift_bind (r := z) rfl ?_)
    exact Program.returns_lift_bind hs' (Program.returns_pure _)
  · rw [not_or] at hone
    obtain ⟨w, hw⟩ := Option.ne_none_iff_exists'.mp fun h => hone.2 (Tree.top_eq_none_iff.mp h)
    have hltop : l.top ≠ none := fun h => hone.1 (Tree.top_eq_none_iff.mp h)
    have hright : Rep Item.stored s.heap (some z) r := (rep_plug.mp hs.rep).1.2.2
    obtain ⟨c', y, b', r', rfl, hc', hmin⟩ := treeMinimum_spec hright hw
    have hsp : (spliced s z).Returns (some y) := by
      refine Program.returns_lift_bind hcell ?_
      rw [if_neg fun h => h.elim hltop fun h => by rw [hw] at h; cases h]
      refine Program.returns_lift_bind hcell ?_
      rw [hw]
      exact Program.returns_bind hmin (Program.returns_pure _)
    have hzy : z ≠ y := by
      rintro rfl
      have hnd := (nodup_plug.mp hs.nodup).1
      exact ((Tree.nodup_sided (d := .left)).mp hnd).2.1 (by simp)
    have hs₁ : s.Shows (plug (c' ++ ⟨.right, z, b, l⟩ :: c) (.node .nil y b' r')) loose := by
      rw [plug_append]
      exact hs
    obtain ⟨s', hs', hshows, hy'⟩ := hs₁.pullOutAt (z := z) (.inl rfl)
      (v := plug (c' ++ ⟨.right, z, { b with data := b'.data }, l⟩ :: c) r') fun s₂ hs₂ hy₂ => by
        rw [plug_append] at hs₂
        have hs₂' : s₂.Shows (plug c (.sided .right (plug c' r') z b l)) (y :: loose) := hs₂
        obtain ⟨s₃, h₃, hs₃, hkeep₃⟩ := hs₂'.write_val { b with data := b'.data }
          (f := fun cell => { cell with val := { cell.val with data := some b'.data } })
          fun p q r => rfl
        refine ⟨_, b.data, s₃, hs₂'.heap_at, rfl, (if_pos hzy).trans h₃, ?_, ?_⟩
        · rw [plug_append]
          exact hs₃
        · exact hkeep₃ y (Ne.symm hzy)
    refine ⟨_, _, _, y, _, _, s', .next hc', hsp, ?_, hshows, hy'⟩
    refine Program.returns_bind hsp (Program.returns_lift_bind (r := y) rfl ?_)
    exact Program.returns_lift_bind hs' (Program.returns_pure _)

theorem TreeMem.Shows.release (hs : s.Shows t [y]) :
    ∃ s', JailFs.release s y = some s' ∧ s'.Shows t [] := by
  obtain ⟨s₁, cell, -, h₁, -, hs₁⟩ := hs.write_loose (x := y) List.mem_cons_self
    fun cell => ⟨none, none, none, cell.val⟩
  refine ⟨s₁.free y, ?_, hs₁.free⟩
  rw [JailFs.release, h₁]
  rfl

theorem TreeMem.Shows.treeDelete (hs : s.Shows t []) (hz : z ∈ t.addrs) :
    ∃ c c' l y b r s', Pulls t z c c' l y b r ∧ (JailFs.treeDelete s z).Returns s' ∧
      s'.Shows (plug c' (onlyChild l r)) [] := by
  obtain ⟨c, c', l, y, b, r, s₁, hpull, -, hret, hs₁, -⟩ := hs.pullOut hz
  obtain ⟨s₂, h₂, hs₂⟩ := hs₁.release
  exact ⟨c, c', l, y, b, r, s₂, hpull, Program.returns_bind hret (Program.returns_ofOption h₂), hs₂⟩

end JailFs
