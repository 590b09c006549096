import JailFs.Comparator
import JailFs.Tree

/-!
# What the operations of `tree.c` do to the tree that the memory holds

`Shows s t loose` says that the memory `s` holds the tree `t`, with a root pointer and parent
pointers that match the child pointers, and beside it only the nodes `loose`, which are allocated
but not in the tree. Every operation that returns is described by the tree before and the tree
after it; both are written with the side as a parameter.
-/

namespace JailFs

open LinkedTree RedBlack

variable {α : Type}

/-- What a node of the tree holds: its data has not been taken away. -/
structure Item (α : Type) where
  data : α
  color : Color

def Item.stored (i : Item α) : NodeData α := ⟨some i.data, i.color⟩

abbrev DataTree (α : Type) := LinkedTree.Tree Addr (Item α)

/-- The data in order. -/
def inorder (t : DataTree α) : List α := t.entries.map fun e => e.2.data

structure TreeMem.Shows (s : TreeMem α) (t : DataTree α) (loose : List Addr) : Prop where
  root : s.root = t.top
  rep : Rep Item.stored s.heap none t
  nodup : t.addrs.Nodup
  nodes : ∀ p, (s.heap p).isSome ↔ p ∈ t.addrs ∨ p ∈ loose
  apart : ∀ p ∈ loose, p ∉ t.addrs

namespace TreeMem

variable {s s' : TreeMem α} {m x y : Addr} {cell : TreeNode α} {f : TreeNode α → TreeNode α}
  {c : Ctx Addr (Item α)} {t u A B C : DataTree α} {loose : List Addr} {d : Side} {b b' : Item α}

theorem shows_empty : (empty : TreeMem α).Shows .nil [] where
  root := rfl
  rep := trivial
  nodup := List.nodup_nil
  nodes _ := by simp [empty]
  apart _ h := by simp at h

theorem write_spec (f : TreeNode α → TreeNode α) (h : s.heap m = some cell) :
    ∃ s', s.write m f = some s' ∧ s'.root = s.root ∧ s'.heap m = some (f cell) ∧
      ∀ p, p ≠ m → s'.heap p = s.heap p := by
  refine ⟨{ s with heap := Function.update s.heap m (some (f cell)) }, ?_, rfl, ?_, ?_⟩
  · rw [write, h, Option.map_some]
  · exact Function.update_self _ _ _
  · exact fun p hp => Function.update_of_ne hp _ _

/-- The memory of a tree with the same nodes, after a step that touched only nodes of it. -/
theorem Shows.of_heap (hs : s.Shows t loose) (hroot : s'.root = u.top)
    (hrep : Rep Item.stored s'.heap none u) (haddrs : u.addrs.Perm t.addrs)
    (hsame : ∀ p, p ∉ t.addrs → s'.heap p = s.heap p) : s'.Shows u loose where
  root := hroot
  rep := hrep
  nodup := haddrs.nodup_iff.mpr hs.nodup
  nodes p := by
    rw [haddrs.mem_iff]
    by_cases hp : p ∈ t.addrs
    · exact iff_of_true (hrep.isSome (haddrs.mem_iff.mpr hp)) (.inl hp)
    · rw [hsame p hp]
      exact hs.nodes p
  apart p hp := fun h => hs.apart p hp (haddrs.mem_iff.mp h)

theorem relink_spec (hctx : RepCtx Item.stored s.heap c (some x)) (hx : x ∉ ctxAddrs c)
    (next : Option Addr) : ∃ s', s.relink (above c) x next = some s' ∧
      s'.root = (if c = [] then next else s.root) ∧
      (∀ g c' cell, c = g :: c' → s.heap g.addr = some cell →
        s'.heap g.addr = some (cell.setChild g.side next)) ∧
      ∀ p, above c ≠ some p → s'.heap p = s.heap p := by
  cases c with
  | nil =>
    refine ⟨{ s with root := next }, rfl, rfl, fun g c' cell h => ?_, fun _ _ => rfl⟩
    cases h
  | cons g c =>
    obtain ⟨hg, -, -⟩ := hctx
    obtain ⟨s', hs', hroot, hat, hother⟩ := write_spec (·.setChild g.side next) hg
    refine ⟨s', ?_, hroot.trans (if_neg (List.cons_ne_nil g c)).symm, ?_, ?_⟩
    · simp only [relink, above, hg, Option.bind_eq_bind, Option.bind_some]
      have hsib : g.sibling.top ≠ some x := fun h => hx (by
        simp [ctxAddrs, Tree.mem_addrs_of_top h])
      cases hside : g.side with
      | left => rw [← hs', hside]; simp [Cell.sided]
      | right =>
        rw [← hs', hside]
        simp [Cell.sided, hsib]
    · intro g' c' cell' hcons hcell
      cases hcons
      obtain rfl := Option.some.inj (hg.symm.trans hcell)
      exact hat
    · exact fun p hp => hother p fun h => hp (by rw [above, h])

theorem writeOpt_spec (f : TreeNode α → TreeNode α) {m : Option Addr}
    (h : ∀ a, m = some a → (s.heap a).isSome) : ∃ s', s.writeOpt m f = some s' ∧
      s'.root = s.root ∧ (∀ a cell, m = some a → s.heap a = some cell →
        s'.heap a = some (f cell)) ∧ ∀ p, m ≠ some p → s'.heap p = s.heap p := by
  cases m with
  | none =>
    refine ⟨s, rfl, rfl, fun a cell ha => ?_, fun _ _ => rfl⟩
    cases ha
  | some a =>
    obtain ⟨cell, hcell⟩ := Option.isSome_iff_exists.mp (h a rfl)
    obtain ⟨s', hs', hroot, hat, hother⟩ := write_spec f hcell
    refine ⟨s', hs', hroot, fun a' cell' ha' hcell' => ?_,
      fun p hp => hother p fun h => hp (h ▸ rfl)⟩
    cases ha'
    obtain rfl := Option.some.inj (hcell.symm.trans hcell')
    exact hat

theorem root_relink {p : Option Addr} (hs : s.root = (plug c t).top) (hu : u.top = p) :
    (if c = [] then p else s.root) = (plug c u).top := by
  split
  · next hc => rw [hc, plug_nil, hu]
  · next hc => rw [hs, top_plug_congr hc]

/-- The assignments of a rotation, where the nodes that they touch are apart. -/
theorem rotate_spec {pA pB pC : Option Addr} {v w : NodeData α}
    (hx : s.heap x = some (.sided d pA (some y) (above c) v))
    (hy : s.heap y = some (.sided d pB pC (some x) w))
    (hB : ∀ a, pB = some a → (s.heap a).isSome ∧ a ≠ x ∧ a ≠ y ∧ a ∉ ctxAddrs c)
    (hxy : x ≠ y) (hctx : RepCtx Item.stored s.heap c (some x)) (hxc : x ∉ ctxAddrs c)
    (hyc : y ∉ ctxAddrs c) : ∃ s', JailFs.rotate d s x = some s' ∧
      s'.root = (if c = [] then some y else s.root) ∧
      s'.heap x = some (.sided d pA pB (some y) v) ∧
      s'.heap y = some (.sided d (some x) pC (above c) w) ∧
      (∀ a cell, pB = some a → s.heap a = some cell →
        s'.heap a = some (cell.setParent (some x))) ∧
      (∀ g c' cell, c = g :: c' → s.heap g.addr = some cell →
        s'.heap g.addr = some (cell.setChild g.side (some y))) ∧
      ∀ p, p ≠ x → p ≠ y → pB ≠ some p → above c ≠ some p → s'.heap p = s.heap p := by
  have hxabove : above c ≠ some x := fun h => hxc (mem_ctxAddrs_of_above h)
  have hyabove : above c ≠ some y := fun h => hyc (mem_ctxAddrs_of_above h)
  have hxB : pB ≠ some x := fun h => (hB x h).2.1 rfl
  have hyB : pB ≠ some y := fun h => (hB y h).2.2.1 rfl
  have hcB {p : Addr} (hp : p ∈ ctxAddrs c) : pB ≠ some p := fun h => (hB p h).2.2.2 hp
  -- the six assignments of the source, one after the other
  obtain ⟨s₁, h₁, root₁, at₁, keep₁⟩ := write_spec (·.setChild d.other pB) hx
  obtain ⟨s₂, h₂, root₂, at₂, keep₂⟩ := writeOpt_spec (s := s₁) (m := pB)
    (·.setParent (some x)) fun a ha => by
      rw [keep₁ a (hB a ha).2.1]
      exact (hB a ha).1
  have hy₂ : s₂.heap y = s.heap y := by rw [keep₂ y hyB, keep₁ y (Ne.symm hxy)]
  obtain ⟨s₃, h₃, root₃, at₃, keep₃⟩ := write_spec (·.setParent (above c)) (hy₂.trans hy)
  have keep₃' (p : Addr) (hpx : p ≠ x) (hpy : p ≠ y) (hpB : pB ≠ some p) :
      s₃.heap p = s.heap p := by rw [keep₃ p hpy, keep₂ p hpB, keep₁ p hpx]
  have hctx₃ : RepCtx Item.stored s₃.heap c (some x) := hctx.congr fun p hp =>
    keep₃' p (fun h => hxc (h ▸ hp)) (fun h => hyc (h ▸ hp)) (hcB hp)
  obtain ⟨s₄, h₄, root₄, at₄, keep₄⟩ := relink_spec hctx₃ hxc (some y)
  obtain ⟨s₅, h₅, root₅, at₅, keep₅⟩ := write_spec (s := s₄) (m := y) (·.setChild d (some x))
    ((keep₄ y hyabove).trans at₃)
  have hx₅ : s₅.heap x = s₁.heap x := by
    rw [keep₅ x hxy, keep₄ x hxabove, keep₃ x hxy, keep₂ x hxB]
  obtain ⟨s₆, h₆, root₆, at₆, keep₆⟩ := write_spec (·.setParent (some y)) (hx₅.trans at₁)
  refine ⟨s₆, ?_, ?_, ?_, ?_, fun a cell ha hcell => ?_, fun g c' cell hc hcell => ?_,
    fun p hpx hpy hpB hpc => ?_⟩
  · rw [JailFs.rotate]
    simp only [hx, hy, Cell.child_other_sided, Cell.child_sided, Cell.parent_sided,
      Option.bind_eq_bind, Option.bind_some, h₁, h₂, h₃, h₄, h₅, h₆]
  · rw [root₆, root₅, root₄, root₃, root₂, root₁]
  · rw [at₆, Cell.setChild_other_sided, Cell.setParent_sided]
  · rw [keep₆ y (Ne.symm hxy), at₅, Cell.setParent_sided, Cell.setChild_sided]
  · obtain ⟨-, hax, hay, hac⟩ := hB a ha
    have ha₁ : s₁.heap a = some cell := (keep₁ a hax).trans hcell
    rw [keep₆ a hax, keep₅ a hay, keep₄ a fun h => hac (mem_ctxAddrs_of_above h), keep₃ a hay,
      at₂ a cell ha ha₁]
  · have hg : g.addr ∈ ctxAddrs c := hc ▸ List.mem_cons_self
    have hgx : g.addr ≠ x := fun h => hxc (h ▸ hg)
    have hgy : g.addr ≠ y := fun h => hyc (h ▸ hg)
    rw [keep₆ _ hgx, keep₅ _ hgy]
    exact at₄ g c' cell hc ((keep₃' _ hgx hgy (hcB hg)).trans hcell)
  · rw [keep₆ p hpx, keep₅ p hpy, keep₄ p hpc, keep₃' p hpx hpy hpB]

/-- A rotation at the top of a subtree whose child on the other side is not missing. -/
theorem Shows.rotate
    (hs : s.Shows (plug c (.sided d A x b (.sided d B y b' C))) loose) :
    ∃ s', JailFs.rotate d s x = some s' ∧
      s'.Shows (plug c (.sided d (.sided d A x b B) y b' C)) loose := by
  have hrep := hs.rep
  rw [rep_plug, rep_sided, rep_sided, Tree.top_sided, Tree.top_sided] at hrep
  obtain ⟨⟨hx, hA, hy, hB, hC⟩, hctx⟩ := hrep
  have hnd := hs.nodup
  rw [nodup_plug, Tree.nodup_sided, Tree.nodup_sided] at hnd
  simp only [Tree.mem_addrs_sided, List.disjoint_left, not_or] at hnd
  obtain ⟨⟨hxA, ⟨hxy, hxB, hxC⟩, -, ⟨hyB, hyC, hndB, -, hBC⟩, hAR⟩, hndc, hsub⟩ := hnd
  have hyA : y ∉ A.addrs := fun h => (hAR h).1 rfl
  have hAB : A.addrs.Disjoint B.addrs := fun p hp hpB => (hAR hp).2.1 hpB
  have hxc : x ∉ ctxAddrs c := hsub (.inl rfl)
  have hyc : y ∉ ctxAddrs c := hsub (.inr (.inr (.inl rfl)))
  have hBc {p : Addr} (hp : p ∈ B.addrs) : p ∉ ctxAddrs c :=
    hsub (.inr (.inr (.inr (.inl hp))))
  have hBtop (a : Addr) (ha : B.top = some a) :
      (s.heap a).isSome ∧ a ≠ x ∧ a ≠ y ∧ a ∉ ctxAddrs c := by
    have hmem := Tree.mem_addrs_of_top ha
    exact ⟨hB.isSome hmem, fun h => hxB (h ▸ hmem), fun h => hyB (h ▸ hmem), hBc hmem⟩
  obtain ⟨s', hret, hroot, hx', hy', hB', hctx', keep⟩ :=
    rotate_spec hx hy hBtop hxy hctx hxc hyc
  refine ⟨s', hret, hs.of_heap ?_ ?_ ?_ ?_⟩
  · rw [hroot]
    exact root_relink hs.root Tree.top_sided
  · rw [rep_plug, rep_sided, rep_sided, Tree.top_sided, Tree.top_sided]
    refine ⟨⟨hy', ⟨hx', ?_, ?_⟩, ?_⟩, ?_⟩
    · exact hA.congr fun p hp => keep p (fun h => hxA (h ▸ hp)) (fun h => hyA (h ▸ hp))
        (fun h => hAB hp (Tree.mem_addrs_of_top h)) fun h =>
          hsub (.inr (.inl hp)) (mem_ctxAddrs_of_above h)
    · refine hB.reparent hndB (fun p cell hp hcell => hB' p cell hp hcell) fun p hp htop => ?_
      exact keep p (fun h => hxB (h ▸ hp)) (fun h => hyB (h ▸ hp)) htop fun h =>
        hBc hp (mem_ctxAddrs_of_above h)
    · exact hC.congr fun p hp => keep p (fun h => hxC (h ▸ hp)) (fun h => hyC (h ▸ hp))
        (fun h => hBC (Tree.mem_addrs_of_top h) hp) fun h =>
          hsub (.inr (.inr (.inr (.inr hp)))) (mem_ctxAddrs_of_above h)
    · refine hctx.rehole hndc (fun g c' cell hc hcell => hctx' g c' cell hc hcell)
        fun p hp habove => ?_
      exact keep p (fun h => hxc (h ▸ hp)) (fun h => hyc (h ▸ hp))
        (fun h => hBc (Tree.mem_addrs_of_top h) hp) habove
  · rw [Tree.addrs, Tree.addrs, entries_plug_congr Tree.entries_rotate]
  · intro p hp
    simp only [mem_addrs_plug, Tree.mem_addrs_sided, not_or] at hp
    obtain ⟨⟨hpx, hpA, hpy, hpB, hpC⟩, hpc⟩ := hp
    exact keep p hpx hpy (fun h => hpB (Tree.mem_addrs_of_top h)) fun h =>
      hpc (mem_ctxAddrs_of_above h)

theorem Shows.rotate_missing (hs : s.Shows (plug c (.sided d A x b .nil)) loose) :
    JailFs.rotate d s x = some s := by
  have hrep := hs.rep
  rw [rep_plug, rep_sided] at hrep
  rw [JailFs.rotate, hrep.1.1, Option.bind_eq_bind, Option.bind_some, Cell.child_other_sided]
  rfl

theorem Shows.heap_at (hs : s.Shows (plug c (.sided d A x b B)) loose) :
    s.heap x = some (.sided d A.top B.top (above c) b.stored) := by
  have hrep := hs.rep
  rw [rep_plug, rep_sided] at hrep
  exact hrep.1.1

theorem Shows.write_val (b' : Item α) (hs : s.Shows (plug c (.sided d A x b B)) loose)
    (hf : ∀ p q r, f (.sided d p q r b.stored) = .sided d p q r b'.stored) :
    ∃ s', s.write x f = some s' ∧ s'.Shows (plug c (.sided d A x b' B)) loose ∧
      ∀ p, p ≠ x → s'.heap p = s.heap p := by
  have hrep := hs.rep
  rw [rep_plug, rep_sided, Tree.top_sided] at hrep
  obtain ⟨⟨hx, hA, hB⟩, hctx⟩ := hrep
  have hnd := hs.nodup
  rw [nodup_plug, Tree.nodup_sided] at hnd
  simp only [Tree.mem_addrs_sided, List.disjoint_left] at hnd
  obtain ⟨⟨hxA, hxB, -⟩, -, hsub⟩ := hnd
  obtain ⟨s', hs', hroot, hat, hkeep⟩ := write_spec f hx
  have htop : (plug c (.sided d A x b' B)).top = (plug c (.sided d A x b B)).top := by
    cases c with
    | nil => rw [plug_nil, plug_nil, Tree.top_sided, Tree.top_sided]
    | cons g c => exact top_plug_congr (List.cons_ne_nil g c)
  refine ⟨s', hs', hs.of_heap ?_ ?_ ?_ ?_, hkeep⟩
  · rw [hroot, hs.root, htop]
  · rw [rep_plug, rep_sided, Tree.top_sided]
    refine ⟨⟨by rw [hat, hf], hA.congr fun p hp => ?_, hB.congr fun p hp => ?_⟩,
      hctx.congr fun p hp => ?_⟩
    · exact hkeep p fun h => hxA (h ▸ hp)
    · exact hkeep p fun h => hxB (h ▸ hp)
    · exact hkeep p fun h => hsub (.inl rfl) (h ▸ hp)
  · rw [Tree.addrs, Tree.addrs, entries_plug, entries_plug]
    cases d <;> simp [Tree.sided, Tree.entries]
  · refine fun p hp => hkeep p fun h => hp ?_
    simp [h]

theorem Shows.setColor (hs : s.Shows (plug c (.sided d A x b B)) loose) (col : Color) :
    ∃ s', s.setColor x col = some s' ∧
      s'.Shows (plug c (.sided d A x { b with color := col } B)) loose := by
  obtain ⟨s', h, hs', -⟩ := hs.write_val { b with color := col }
    (f := fun cell => { cell with val := { cell.val with color := col } })
    fun p q r => by cases d <;> rfl
  exact ⟨s', h, hs'⟩

theorem Shows.write_loose (hs : s.Shows t loose) (hx : x ∈ loose) (f : TreeNode α → TreeNode α) :
    ∃ s' cell, s.heap x = some cell ∧ s.write x f = some s' ∧ s'.heap x = some (f cell) ∧
      s'.Shows t loose := by
  obtain ⟨cell, hcell⟩ := Option.isSome_iff_exists.mp ((hs.nodes x).mpr (.inr hx))
  obtain ⟨s', hs', hroot, hat, hkeep⟩ := write_spec f hcell
  have hne (p : Addr) (hp : p ∈ t.addrs) : p ≠ x := fun h => hs.apart x hx (h ▸ hp)
  refine ⟨s', cell, hcell, hs', hat, hroot.trans hs.root, ?_, hs.nodup, fun p => ?_, hs.apart⟩
  · exact hs.rep.congr fun p hp => hkeep p (hne p hp)
  · by_cases hp : p = x
    · subst hp
      exact iff_of_true (by rw [hat]; rfl) (.inr hx)
    · rw [hkeep p hp]
      exact hs.nodes p

theorem Shows.free (hs : s.Shows t [x]) : (s.free x).Shows t [] := by
  have hx : x ∉ t.addrs := hs.apart x List.mem_cons_self
  have hkeep (p : Addr) (hp : p ≠ x) : (s.free x).heap p = s.heap p :=
    Function.update_of_ne hp _ _
  refine ⟨hs.root, hs.rep.congr fun p hp => ?_, hs.nodup, fun p => ?_, fun p hp => ?_⟩
  · exact hkeep p fun h => hx (h ▸ hp)
  · by_cases hp : p = x
    · subst hp
      simp [TreeMem.free, hx]
    · rw [hkeep p hp, hs.nodes p]
      simp [hp]
  · simp at hp

end TreeMem

end JailFs
