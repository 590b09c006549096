import JailFs.TreeShape

/-!
# `tree_insert`

The walk of `tree_insert` ends at a missing child where the new data fits: nothing before it is
greater than the data and everything after it is. There the new node is linked in.
-/

namespace JailFs

open LinkedTree RedBlack Comparator

variable {α : Type} {cmpfunc : α → α → ℤ} {s s' : TreeMem α} {m : Addr} {x : α}
  {c : Ctx Addr (Item α)} {t u l r : DataTree α} {a : Addr} {b i : Item α} {loose : List Addr}

/-- The data `x` may stand at the hole of the context. -/
def Fits (cmpfunc : α → α → ℤ) (x : α) (c : Ctx Addr (Item α)) : Prop :=
  (∀ e ∈ before c, cmpfunc e.2.data x ≤ 0) ∧ ∀ e ∈ after c, cmpfunc x e.2.data < 0

theorem inorder_node : inorder (.node l a b r) = inorder l ++ b.data :: inorder r := by
  simp only [inorder, Tree.entries, List.map_append, List.map_cons]

theorem inorder_plug : inorder (plug c t) =
    (before c).map (fun e => e.2.data) ++ inorder t ++ (after c).map fun e => e.2.data := by
  rw [inorder, entries_plug, List.map_append, List.map_append, inorder]

theorem sorted_of_plug (h : Sorted cmpfunc (inorder (plug c t))) : Sorted cmpfunc (inorder t) := by
  rw [inorder_plug, sorted_append, sorted_append] at h
  exact h.1.2.1

theorem fits_nil : Fits cmpfunc x [] := ⟨by simp [before], by simp [after]⟩

theorem Fits.left (hcmp : IsPreorder cmpfunc) (h : Fits cmpfunc x c)
    (hsorted : Sorted cmpfunc (inorder (.node l a b r))) (hlt : cmpfunc x b.data < 0) :
    Fits cmpfunc x (⟨.left, a, b, r⟩ :: c) := by
  refine ⟨by simpa [before] using h.1, fun e he => ?_⟩
  rw [inorder_node, sorted_append, Sorted, Sorted, List.pairwise_cons] at hsorted
  simp only [after, List.cons_append, List.mem_cons, List.mem_append] at he
  rcases he with rfl | he | he
  · exact hlt
  · exact hcmp.lt_of_lt_of_le hlt (hsorted.2.1.1 _ (List.mem_map_of_mem he))
  · exact h.2 e he

theorem Fits.right (hcmp : IsPreorder cmpfunc) (h : Fits cmpfunc x c)
    (hsorted : Sorted cmpfunc (inorder (.node l a b r))) (hle : ¬ cmpfunc x b.data < 0) :
    Fits cmpfunc x (⟨.right, a, b, l⟩ :: c) := by
  refine ⟨fun e he => ?_, by simpa [after] using h.2⟩
  rw [inorder_node, sorted_append] at hsorted
  simp only [before, List.mem_append, List.mem_singleton] at he
  rcases he with he | he | rfl
  · exact h.1 e he
  · exact hcmp.trans _ _ _ (hsorted.2.2 _ (List.mem_map_of_mem he) _ List.mem_cons_self)
      (hcmp.le_of_not_lt hle)
  · exact hcmp.le_of_not_lt hle

/-- The last comparison of `tree_insert` agrees with the way the walk took. -/
theorem Fits.side_iff (hcmp : IsPreorder cmpfunc) {g : Frame Addr (Item α)}
    (h : Fits cmpfunc x (g :: c)) : cmpfunc x g.val.data < 0 ↔ g.side = .left := by
  cases hside : g.side with
  | left => exact iff_of_true (h.2 (g.addr, g.val) (by simp [after, hside])) rfl
  | right =>
    refine iff_of_false (fun hlt => ?_) (fun h => by cases h)
    exact hcmp.le_iff.mp (h.1 (g.addr, g.val) (by simp [before, hside])) hlt

theorem treeInsert_walk (hcmp : IsPreorder cmpfunc) (hrep : Rep Item.stored s.heap none (plug c t))
    (hsorted : Sorted cmpfunc (inorder (plug c t))) (hfits : Fits cmpfunc x c) :
    ∃ c', plug c t = plug c' .nil ∧ Fits cmpfunc x c' ∧
      (Program.loop (treeInsertBody cmpfunc s x) (above c, t.top)).Returns (above c') := by
  induction t generalizing c with
  | nil => exact ⟨c, rfl, hfits, Program.loop_ends rfl⟩
  | node l a b r ihl ihr =>
    have hcell : s.heap a = some ⟨l.top, r.top, above c, b.stored⟩ := (rep_plug.mp hrep).1.1
    by_cases hlt : cmpfunc x b.data < 0
    · have hfits' := hfits.left hcmp (sorted_of_plug hsorted) hlt
      obtain ⟨c', heq, hc', hret⟩ := ihl (c := ⟨.left, a, b, r⟩ :: c) hrep hsorted hfits'
      refine ⟨c', heq, hc', Program.loop_goes_on ?_ hret⟩
      simp [treeInsertBody, Tree.top, hcell, Item.stored, hlt, above]
    · have hfits' := hfits.right hcmp (sorted_of_plug hsorted) hlt
      obtain ⟨c', heq, hc', hret⟩ := ihr (c := ⟨.right, a, b, l⟩ :: c) hrep hsorted hfits'
      refine ⟨c', heq, hc', Program.loop_goes_on ?_ hret⟩
      simp [treeInsertBody, Tree.top, hcell, Item.stored, hlt, above]

theorem TreeMem.Shows.attach (hs : s.Shows (plug c .nil) loose) (hm : s.heap m = none)
    (hroot : s'.root = if c = [] then some m else s.root)
    (hat : s'.heap m = some ⟨none, none, above c, i.stored⟩)
    (habove : ∀ g c' cell, c = g :: c' → s.heap g.addr = some cell →
      s'.heap g.addr = some (cell.setChild g.side (some m)))
    (hkeep : ∀ p, p ≠ m → above c ≠ some p → s'.heap p = s.heap p) :
    s'.Shows (plug c (.node .nil m i .nil)) loose := by
  have hfresh : m ∉ ctxAddrs c ∧ m ∉ loose := by
    have h := hs.nodes m
    rw [hm, mem_addrs_plug] at h
    simpa using h
  have hnd := hs.nodup
  rw [nodup_plug] at hnd
  have hctx := (rep_plug.mp hs.rep).2
  have hctx' : RepCtx Item.stored s'.heap c (some m) :=
    hctx.rehole hnd.2.1 habove fun p hp hp' => hkeep p (fun h => hfresh.1 (h ▸ hp)) hp'
  have hrep : Rep Item.stored s'.heap none (plug c (.node .nil m i .nil)) :=
    rep_plug.mpr ⟨⟨hat, trivial, trivial⟩, hctx'⟩
  refine ⟨?_, hrep, ?_, fun p => ?_, fun p hp h => ?_⟩
  · rw [hroot]
    exact TreeMem.root_relink hs.root rfl
  · rw [nodup_plug]
    refine ⟨List.nodup_singleton m, hnd.2.1, fun p hp => ?_⟩
    rw [List.mem_singleton.mp hp]
    exact hfresh.1
  · by_cases hp : p ∈ (plug c (.node .nil m i .nil)).addrs
    · exact iff_of_true (hrep.isSome hp) (.inl hp)
    · have hold := hs.nodes p
      simp only [mem_addrs_plug, Tree.addrs_node, Tree.addrs_nil, List.nil_append,
        List.mem_singleton, not_or, List.not_mem_nil, false_or] at hp hold
      rw [hkeep p hp.1 fun h => hp.2 (mem_ctxAddrs_of_above h), hold]
      simp [hp]
  · have hp' := hs.apart p hp
    simp only [mem_addrs_plug, Tree.addrs_node, Tree.addrs_nil, List.nil_append,
      List.mem_singleton, List.not_mem_nil, false_or] at h hp'
    exact h.elim (fun h => hfresh.2 (h ▸ hp)) hp'

/-- `tree_insert` returns, and the new node is red, since `mem_alloc` clears it. -/
theorem TreeMem.Shows.treeInsert (hcmp : IsPreorder cmpfunc) (hs : s.Shows t loose)
    (hsorted : Sorted cmpfunc (inorder t)) (hm : s.heap m = none) (x : α) :
    ∃ c s', t = plug c .nil ∧ Fits cmpfunc x c ∧
      (JailFs.treeInsert cmpfunc s m x).Returns s' ∧
      s'.Shows (plug c (.node .nil m ⟨x, .red⟩ .nil)) loose := by
  have hmt (p : Addr) (hp : p ∈ t.addrs) : p ≠ m := by
    rintro rfl
    have h := (hs.nodes p).mpr (.inl hp)
    rw [hm] at h
    cases h
  have hkeep₀ (p : Addr) (hp : p ≠ m) : (makeNode s m x).heap p = s.heap p :=
    Function.update_of_ne hp _ _
  have hat₀ : (makeNode s m x).heap m = some ⟨none, none, none, ⟨some x, .red⟩⟩ :=
    Function.update_self _ _ _
  have hrep₀ : Rep Item.stored (makeNode s m x).heap none t :=
    hs.rep.congr fun p hp => hkeep₀ p (hmt p hp)
  obtain ⟨c, rfl, hfits, hwalk⟩ :=
    treeInsert_walk (c := []) (x := x) hcmp hrep₀ hsorted fits_nil
  rw [← hs.root] at hwalk
  obtain ⟨s₁, h₁, hroot₁, hat₁, hkeep₁⟩ := TreeMem.write_spec (·.setParent (above c)) hat₀
  have hkeep (p : Addr) (hp : p ≠ m) : s₁.heap p = s.heap p := (hkeep₁ p hp).trans (hkeep₀ p hp)
  cases c with
  | nil =>
    refine ⟨[], { s₁ with root := some m }, rfl, hfits, ?_, ?_⟩
    · refine Program.returns_bind hwalk (Program.returns_lift_bind h₁ ?_)
      exact Program.returns_pure _
    · refine hs.attach hm rfl hat₁ (fun g c' cell h => ?_) fun p hp _ => hkeep p hp
      cases h
  | cons g c =>
    have hg : g.addr ≠ m := hmt _ (by simp [ctxAddrs])
    have hcell := (rep_plug.mp hs.rep).2.1
    rw [← hkeep _ hg] at hcell
    obtain ⟨s₂, h₂, hroot₂, hat₂, hkeep₂⟩ :=
      TreeMem.write_spec (·.setChild g.side (some m)) hcell
    refine ⟨g :: c, s₂, rfl, hfits, ?_, hs.attach hm ?_ ?_ ?_ ?_⟩
    · refine Program.returns_bind hwalk (Program.returns_lift_bind h₁ ?_)
      refine Program.returns_lift_bind hcell (Program.returns_lift_bind (r := g.val.data) ?_ ?_)
      · simp [Item.stored]
      · have hside := hfits.side_iff hcmp
        split
        · next hlt =>
          rw [hside.mp hlt] at h₂
          exact Program.returns_ofOption h₂
        · next hlt =>
          have hright : g.side = .right := by
            cases hgs : g.side with
            | left => exact absurd (hside.mpr hgs) hlt
            | right => rfl
          rw [hright] at h₂
          exact Program.returns_ofOption h₂
    · rw [if_neg (List.cons_ne_nil g c), hroot₂, hroot₁]
      rfl
    · rw [hkeep₂ m (Ne.symm hg), hat₁]
      rfl
    · intro g' c' cell' hcons hcell'
      cases hcons
      rw [hat₂]
      rw [hkeep _ hg, hcell'] at hcell
      rw [Option.some.inj hcell]
    · intro p hp habove
      rw [hkeep₂ p fun h => habove (by rw [h]; rfl), hkeep p hp]

end JailFs
