import JailFs.LinkedTree

/-!
# Red-black trees and their contexts

`col` gives the colour of a value. `IsRedBlack col t` says that the root is black, that no red node
has a red child, and that every path to a missing child has the same number of black nodes.
`Balanced col t n` is the last two with that number, and `Hole col c k n` says of a context that a
balanced subtree with the number `n` may stand in it, also one with a red top if `k` is red.
`isRedBlack_plug` puts the two together.
-/

universe u v

namespace RedBlack

open LinkedTree

inductive Color
  | red
  | black
  deriving DecidableEq

variable {P : Type u} {β : Type v} {col : β → Color}

/-- A missing tree counts as black. -/
def topColor (col : β → Color) : Tree P β → Color
  | .nil => .black
  | .node _ _ b _ => col b

def NoRedRed (col : β → Color) : Tree P β → Prop
  | .nil => True
  | .node l _ b r => (col b = .red → topColor col l = .black ∧ topColor col r = .black) ∧
      NoRedRed col l ∧ NoRedRed col r

def blacks : Color → ℕ
  | .red => 0
  | .black => 1

/-- The number of black nodes on each path from the top to a missing child. -/
def blackCounts (col : β → Color) : Tree P β → List ℕ
  | .nil => [0]
  | .node l _ b r => (blackCounts col l ++ blackCounts col r).map (· + blacks (col b))

structure IsRedBlack (col : β → Color) (t : Tree P β) : Prop where
  root : topColor col t = .black
  noRedRed : NoRedRed col t
  counts : ∃ n, ∀ k ∈ blackCounts col t, k = n

/-- No red node has a red child, and every path has `n` black nodes. -/
def Balanced (col : β → Color) : Tree P β → ℕ → Prop
  | .nil, n => n = 0
  | .node l _ b r, n =>
    match col b with
    | .red => topColor col l = .black ∧ topColor col r = .black ∧ Balanced col l n ∧
        Balanced col r n
    | .black => ∃ m, n = m + 1 ∧ Balanced col l m ∧ Balanced col r m

/-- A balanced subtree of height `n` may stand in the context if its top has the colour `k` or is
black, and then the whole tree is a red-black tree. -/
def Hole (col : β → Color) : Ctx P β → Color → ℕ → Prop
  | [], k, _ => k = .black
  | f :: c, k, n => Balanced col f.sibling n ∧
      match col f.val with
      | .red => k = .black ∧ topColor col f.sibling = .black ∧ Hole col c .red n
      | .black => Hole col c .black (n + 1)

variable {t u l r : Tree P β} {a : P} {b : β} {n : ℕ} {d : Side} {c : Ctx P β} {f : Frame P β}
  {k : Color}

@[simp] theorem topColor_nil : topColor col (.nil : Tree P β) = .black := rfl

@[simp] theorem topColor_sided : topColor col (.sided d t a b u) = col b := by cases d <;> rfl

theorem blackCounts_ne_nil (col : β → Color) (t : Tree P β) : blackCounts col t ≠ [] := by
  induction t with
  | nil => simp [blackCounts]
  | node l a b r ihl _ => simp [blackCounts, ihl]

theorem balanced_iff : Balanced col t n ↔ NoRedRed col t ∧ ∀ k ∈ blackCounts col t, k = n := by
  induction t generalizing n with
  | nil => simp [Balanced, NoRedRed, blackCounts, eq_comm]
  | node l a b r ihl ihr =>
    cases hb : col b with
    | red =>
      simp only [Balanced, NoRedRed, blackCounts, hb, ihl, ihr, blacks, List.mem_map,
        List.mem_append, Nat.add_zero, exists_eq_right, true_imp_iff, or_imp, forall_and]
      tauto
    | black =>
      have hcounts : (∀ k ∈ blackCounts col (.node l a b r), k = n) ↔
          (∀ k ∈ blackCounts col l, k + 1 = n) ∧ ∀ k ∈ blackCounts col r, k + 1 = n := by
        simp [blackCounts, hb, blacks, or_imp, forall_and]
      rw [hcounts]
      simp only [Balanced, NoRedRed, hb, ihl, ihr, reduceCtorEq, false_imp_iff, true_and]
      constructor
      · rintro ⟨m, rfl, ⟨hl, hl'⟩, hr, hr'⟩
        exact ⟨⟨hl, hr⟩, fun k hk => by rw [hl' k hk], fun k hk => by rw [hr' k hk]⟩
      · rintro ⟨⟨hl, hr⟩, hl', hr'⟩
        obtain ⟨k, hk⟩ := List.exists_mem_of_ne_nil _ (blackCounts_ne_nil col l)
        have hn := hl' k hk
        exact ⟨k, hn.symm, ⟨hl, fun j hj => by have := hl' j hj; omega⟩, hr,
          fun j hj => by have := hr' j hj; omega⟩

theorem isRedBlack_iff : IsRedBlack col t ↔ topColor col t = .black ∧ ∃ n, Balanced col t n := by
  simp only [balanced_iff]
  constructor
  · rintro ⟨hroot, hnrr, n, hn⟩
    exact ⟨hroot, n, hnrr, hn⟩
  · rintro ⟨hroot, n, hnrr, hn⟩
    exact ⟨hroot, hnrr, n, hn⟩

theorem balanced_nil : Balanced col (.nil : Tree P β) n ↔ n = 0 := Iff.rfl

theorem balanced_red (hb : col b = .red) : Balanced col (.sided d t a b u) n ↔
    topColor col t = .black ∧ topColor col u = .black ∧ Balanced col t n ∧ Balanced col u n := by
  cases d <;> simp only [Tree.sided, Balanced, hb]
  tauto

theorem balanced_black (hb : col b = .black) : Balanced col (.sided d t a b u) (n + 1) ↔
    Balanced col t n ∧ Balanced col u n := by
  cases d <;> simp [Tree.sided, Balanced, hb, and_comm]

theorem not_balanced_zero (hb : col b = .black) : ¬ Balanced col (.sided d t a b u) 0 := by
  cases d <;> simp [Tree.sided, Balanced, hb]

/-- A black tree without a black node is empty. -/
theorem Balanced.eq_nil (h : Balanced col t 0) (ht : topColor col t = .black) : t = .nil := by
  cases t with
  | nil => rfl
  | node l a b r => exact absurd h (not_balanced_zero (d := .left) ht)

theorem Balanced.ne_nil (h : Balanced col t (n + 1)) : t ≠ .nil := by
  rintro rfl
  cases balanced_nil.mp h

theorem hole_nil : Hole col ([] : Ctx P β) k n ↔ k = .black := Iff.rfl

theorem hole_red (hf : col f.val = .red) : Hole col (f :: c) k n ↔
    Balanced col f.sibling n ∧ k = .black ∧ topColor col f.sibling = .black ∧
      Hole col c .red n := by
  simp only [Hole, hf]

theorem hole_black (hf : col f.val = .black) : Hole col (f :: c) k n ↔
    Balanced col f.sibling n ∧ Hole col c .black (n + 1) := by
  simp only [Hole, hf]

/-- Where a red top may stand, a black one may. -/
theorem Hole.black (h : Hole col c k n) : Hole col c .black n := by
  cases c with
  | nil => rfl
  | cons f c =>
    cases hf : col f.val with
    | red =>
      rw [hole_red hf] at h ⊢
      exact ⟨h.1, rfl, h.2.2⟩
    | black =>
      rw [hole_black hf] at h ⊢
      exact h

/-- A balanced subtree in a context is a red-black tree if the context takes it, and the other way
round. -/
theorem isRedBlack_plug : IsRedBlack col (plug c t) ↔
    ∃ n, Balanced col t n ∧ Hole col c (topColor col t) n := by
  induction c generalizing t with
  | nil =>
    rw [isRedBlack_iff]
    simp [Hole, and_comm]
  | cons f c ih =>
    rw [plug_cons, ih, topColor_sided]
    cases hf : col f.val with
    | red =>
      simp only [balanced_red hf, hole_red hf]
      constructor
      · rintro ⟨n, ⟨ht, hs, hbt, hbs⟩, hc⟩
        exact ⟨n, hbt, hbs, ht, hs, hc⟩
      · rintro ⟨n, hbt, hbs, ht, hs, hc⟩
        exact ⟨n, ⟨ht, hs, hbt, hbs⟩, hc⟩
    | black =>
      simp only [hole_black hf]
      constructor
      · rintro ⟨n, hbal, hc⟩
        cases n with
        | zero => exact absurd hbal (not_balanced_zero hf)
        | succ n =>
          rw [balanced_black hf] at hbal
          exact ⟨n, hbal.1, hbal.2, hc⟩
      · rintro ⟨n, hbt, hbs, hc⟩
        exact ⟨n + 1, (balanced_black hf).mpr ⟨hbt, hbs⟩, hc⟩

theorem exists_of_topColor_red (d : Side) (h : topColor col t = .red) :
    ∃ t' a b u, t = .sided d t' a b u ∧ col b = .red := by
  obtain ⟨t', a, b, u, rfl⟩ := Tree.exists_sided d fun hnil : t = .nil => by
    rw [hnil] at h
    cases h
  exact ⟨t', a, b, u, rfl, topColor_sided.symm.trans h⟩

end RedBlack
