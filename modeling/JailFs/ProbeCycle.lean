import Mathlib.RingTheory.ZMod.UnitsCyclic
import Mathlib.Data.Fintype.EquivFin

/-!
# The orbit of `x ↦ 5 * x + 1` modulo a power of two

The recurrence has full period: from any start it reaches every residue modulo `2 ^ k` within
`2 ^ k` steps. The proof follows `4 * x + 1`, which the recurrence multiplies by `5`, in
`ZMod (2 ^ (k + 2))`, where `5` has order `2 ^ k`.
-/

namespace ProbeCycle

def next (m x : ℕ) : ℕ := (5 * x + 1) % m

theorem next_lt {m : ℕ} (hm : 0 < m) (x : ℕ) : next m x < m := Nat.mod_lt _ hm

theorem iterate_next_lt {m x : ℕ} (hx : x < m) (n : ℕ) : (next m)^[n] x < m := by
  cases n with
  | zero => exact hx
  | succ n =>
    rw [Function.iterate_succ_apply']
    exact next_lt (by omega) _

theorem four_mul_next (k x : ℕ) :
    ((4 * next (2 ^ k) x + 1 : ℕ) : ZMod (2 ^ (k + 2))) = 5 * ((4 * x + 1 : ℕ) : ZMod _) := by
  have hmod : 4 * next (2 ^ k) x + 1 ≡ 5 * (4 * x + 1) [MOD 2 ^ (k + 2)] := by
    have h : 4 * next (2 ^ k) x ≡ 4 * (5 * x + 1) [MOD 4 * 2 ^ k] :=
      Nat.ModEq.mul_left' 4 (Nat.mod_modEq _ _)
    have hpow : 2 ^ (k + 2) = 4 * 2 ^ k := by rw [pow_add]; omega
    rw [hpow]
    have hadd := h.add_right 1
    rwa [show 4 * (5 * x + 1) + 1 = 5 * (4 * x + 1) by omega] at hadd
  have hcast := (ZMod.natCast_eq_natCast_iff _ _ _).mpr hmod
  rw [hcast]
  push_cast
  ring

theorem four_mul_iterate (k x n : ℕ) :
    ((4 * (next (2 ^ k))^[n] x + 1 : ℕ) : ZMod (2 ^ (k + 2))) =
      5 ^ n * ((4 * x + 1 : ℕ) : ZMod _) := by
  induction n with
  | zero => simp
  | succ n ih => rw [Function.iterate_succ_apply', four_mul_next, ih, pow_succ]; ring

theorem isUnit_four_mul_add_one (k x : ℕ) :
    IsUnit ((4 * x + 1 : ℕ) : ZMod (2 ^ (k + 2))) := by
  rw [ZMod.isUnit_iff_coprime]
  apply Nat.Coprime.pow_right
  rw [Nat.coprime_two_right, Nat.odd_iff]
  omega

theorem iterate_injOn (k x : ℕ) :
    Set.InjOn (fun n => (next (2 ^ k))^[n] x) (Set.Iio (2 ^ k)) := by
  intro a ha b hb hab
  have hcast : (5 : ZMod (2 ^ (k + 2))) ^ a * ((4 * x + 1 : ℕ) : ZMod _) =
      5 ^ b * ((4 * x + 1 : ℕ) : ZMod _) := by
    rw [← four_mul_iterate, ← four_mul_iterate]
    exact congrArg (fun y : ℕ => ((4 * y + 1 : ℕ) : ZMod (2 ^ (k + 2)))) hab
  have hpow := (isUnit_four_mul_add_one k x).mul_right_cancel hcast
  have hord := ZMod.orderOf_five k
  apply pow_injOn_Iio_orderOf (x := (5 : ZMod (2 ^ (k + 2))))
  · rw [hord]; exact ha
  · rw [hord]; exact hb
  · exact hpow

/-- Every residue is reached within one period. -/
theorem exists_iterate_eq {k x y : ℕ} (hx : x < 2 ^ k) (hy : y < 2 ^ k) :
    ∃ n < 2 ^ k, (next (2 ^ k))^[n] x = y := by
  let orbit : Fin (2 ^ k) → Fin (2 ^ k) := fun n => ⟨(next (2 ^ k))^[n] x, iterate_next_lt hx n⟩
  have hinj : Function.Injective orbit := by
    intro a b hab
    exact Fin.ext (iterate_injOn k x a.isLt b.isLt (congrArg Fin.val hab))
  obtain ⟨n, hn⟩ := Finite.surjective_of_injective hinj ⟨y, hy⟩
  exact ⟨n, n.isLt, congrArg Fin.val hn⟩

end ProbeCycle
