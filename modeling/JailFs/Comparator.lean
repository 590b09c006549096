import Mathlib.Algebra.Order.Ring.Int
import Mathlib.Data.List.Pairwise

/-!
# Comparison functions of C, and sequences sorted by them

A comparison function returns a number of which only the sign counts. `IsPreorder cmp` says that it
is a total preorder: swapping the arguments turns the sign, and "not greater" is transitive.
Different elements may compare equal. `Sorted cmp` is the order of a sequence.
-/

universe u

namespace Comparator

variable {α : Type u} {cmp : α → α → ℤ} {a b c x y z : α} {l r : List α}

structure IsPreorder (cmp : α → α → ℤ) : Prop where
  swap : ∀ a b, cmp a b < 0 ↔ 0 < cmp b a
  trans : ∀ a b c, cmp a b ≤ 0 → cmp b c ≤ 0 → cmp a c ≤ 0

abbrev Sorted (cmp : α → α → ℤ) (l : List α) : Prop := l.Pairwise fun a b => cmp a b ≤ 0

namespace IsPreorder

theorem le_iff (h : IsPreorder cmp) : cmp a b ≤ 0 ↔ ¬ cmp b a < 0 := by
  rw [h.swap b a, not_lt]

theorem le_of_not_lt (h : IsPreorder cmp) (hab : ¬ cmp a b < 0) : cmp b a ≤ 0 := h.le_iff.mpr hab

theorem lt_of_lt_of_le (h : IsPreorder cmp) (hab : cmp a b < 0) (hbc : cmp b c ≤ 0) :
    cmp a c < 0 := by
  by_contra hac
  exact (h.le_iff.mp (h.trans b c a hbc (h.le_of_not_lt hac))) hab

theorem lt_of_le_of_lt (h : IsPreorder cmp) (hab : cmp a b ≤ 0) (hbc : cmp b c < 0) :
    cmp a c < 0 := by
  by_contra hac
  exact (h.le_iff.mp (h.trans c a b (h.le_of_not_lt hac) hab)) hbc

end IsPreorder

theorem sorted_append : Sorted cmp (l ++ r) ↔
    Sorted cmp l ∧ Sorted cmp r ∧ ∀ a ∈ l, ∀ b ∈ r, cmp a b ≤ 0 :=
  List.pairwise_append

/-- An element may be put wherever nothing before it is greater and nothing after it is less. -/
theorem Sorted.insert (h : Sorted cmp (l ++ r)) (hl : ∀ a ∈ l, cmp a x ≤ 0)
    (hr : ∀ a ∈ r, cmp x a ≤ 0) : Sorted cmp (l ++ x :: r) := by
  obtain ⟨hsl, hsr, hlr⟩ := sorted_append.mp h
  refine sorted_append.mpr ⟨hsl, List.pairwise_cons.mpr ⟨hr, hsr⟩, fun a ha b hb => ?_⟩
  rcases List.mem_cons.mp hb with rfl | hb
  · exact hl a ha
  · exact hlr a ha b hb

/-- Nothing from an element on compares equal to a key less than it. -/
theorem Sorted.ne_of_lt (hcmp : IsPreorder cmp) (h : Sorted cmp (l ++ y :: r))
    (hlt : cmp x y < 0) (hz : z ∈ y :: r) : cmp x z ≠ 0 := by
  have hyz : cmp y z ≤ 0 := by
    rcases List.mem_cons.mp hz with rfl | hz
    · exact hcmp.le_of_not_lt fun hzz => absurd ((hcmp.swap z z).mp hzz) (by omega)
    · exact (List.pairwise_cons.mp (sorted_append.mp h).2.1).1 z hz
  exact (hcmp.lt_of_lt_of_le hlt hyz).ne

/-- Nothing up to an element compares equal to a key greater than it. -/
theorem Sorted.ne_of_gt (hcmp : IsPreorder cmp) (h : Sorted cmp (l ++ y :: r))
    (hlt : 0 < cmp x y) (hz : z ∈ l ++ [y]) : cmp x z ≠ 0 := by
  have hzy : cmp z y ≤ 0 := by
    rcases List.mem_append.mp hz with hz | hz
    · exact (sorted_append.mp h).2.2 z hz y List.mem_cons_self
    · rw [List.mem_singleton.mp hz]
      exact hcmp.le_of_not_lt fun hyy => absurd ((hcmp.swap y y).mp hyy) (by omega)
  exact ((hcmp.swap z x).mp (hcmp.lt_of_le_of_lt hzy ((hcmp.swap y x).mpr hlt))).ne'

end Comparator
