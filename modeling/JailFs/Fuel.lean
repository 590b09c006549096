import Mathlib.Order.Basic
import Mathlib.Order.Nat

/-!
# Loops that may not end, as functions of a fuel

A loop without a bound of its own is a function `ℕ → Option α`: `none` while the fuel is not
enough. `Returns f a` says that the loop ends with `a`, and `Diverges f` that it never ends.
`Stable f` says that more fuel never changes an answer, which makes the answer unique.
-/

universe u

namespace Fuel

variable {α : Type u} {f : ℕ → Option α} {a b : α}

def Returns (f : ℕ → Option α) (a : α) : Prop := ∃ fuel, f fuel = some a

def Terminates (f : ℕ → Option α) : Prop := ∃ a, Returns f a

def Diverges (f : ℕ → Option α) : Prop := ∀ fuel, f fuel = none

def Stable (f : ℕ → Option α) : Prop := ∀ n a, f n = some a → f (n + 1) = some a

theorem Stable.le (hf : Stable f) {m n : ℕ} (hmn : m ≤ n) (h : f m = some a) :
    f n = some a := by
  induction n, hmn using Nat.le_induction with
  | base => exact h
  | succ n _ ih => exact hf n a ih

theorem Returns.unique (hf : Stable f) (ha : Returns f a) (hb : Returns f b) : a = b := by
  obtain ⟨m, hm⟩ := ha
  obtain ⟨n, hn⟩ := hb
  rcases le_total m n with hmn | hnm
  · exact Option.some.inj ((hf.le hmn hm).symm.trans hn)
  · exact Option.some.inj (hm.symm.trans (hf.le hnm hn))

theorem Diverges.not_returns (h : Diverges f) : ¬ Returns f a := by
  rintro ⟨n, hn⟩
  rw [h n] at hn
  cases hn

theorem not_terminates_iff : ¬ Terminates f ↔ Diverges f := by
  constructor
  · intro h n
    cases hn : f n with
    | none => rfl
    | some a => exact absurd ⟨a, n, hn⟩ h
  · rintro h ⟨a, ha⟩
    exact h.not_returns ha

end Fuel
