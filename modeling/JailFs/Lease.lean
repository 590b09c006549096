import JailFs.Exec
import Mathlib.Data.List.Count
import Mathlib.Data.Nat.Notation
import Mathlib.Logic.Function.Basic

/-!
# Resources that are shared by counting their holders

A `Table` lists resources under handles and counts the leases on each. A resource is created under
a key that no listed resource has, leased and given back any number of times, and collected when
nobody holds it. Whatever the order of these actions, keys stay unique, a held resource stays
listed and unchanged, and the count is the number of leases minus the number of returns.
-/

universe u v w

namespace Lease

structure Table (A : Type u) (R : Type v) where
  res : A → Option R
  held : A → ℕ

inductive Act (A : Type u) (R : Type v)
  | create (a : A) (r : R)
  | acquire (a : A)
  | release (a : A)
  | collect (a : A)

variable {A : Type u} {R : Type v} {K : Type w} [DecidableEq A] {key : R → K}

/-- One action; `key` is what tells resources apart. -/
inductive Step (key : R → K) : Table A R → Act A R → Table A R → Prop
  | create {t : Table A R} {a : A} {r : R} (hfree : t.res a = none)
      (hnew : ∀ b s, t.res b = some s → key s ≠ key r) :
      Step key t (.create a r) { t with res := Function.update t.res a (some r) }
  | acquire {t : Table A R} {a : A} {r : R} (hres : t.res a = some r) :
      Step key t (.acquire a) { t with held := Function.update t.held a (t.held a + 1) }
  | release {t : Table A R} {a : A} (hheld : 0 < t.held a) :
      Step key t (.release a) { t with held := Function.update t.held a (t.held a - 1) }
  | collect {t : Table A R} {a : A} (hidle : t.held a = 0) :
      Step key t (.collect a) { t with res := Function.update t.res a none }

structure Inv (key : R → K) (t : Table A R) : Prop where
  unique : ∀ a b r s, t.res a = some r → t.res b = some s → key r = key s → a = b
  listed : ∀ a, 0 < t.held a → ∃ r, t.res a = some r

namespace Act

def acquires (act : Act A R) (a : A) : Bool :=
  match act with
  | acquire b => b = a
  | _ => false

def releases (act : Act A R) (a : A) : Bool :=
  match act with
  | release b => b = a
  | _ => false

end Act

def acquired (acts : List (Act A R)) (a : A) : ℕ := acts.countP (·.acquires a)

def released (acts : List (Act A R)) (a : A) : ℕ := acts.countP (·.releases a)

variable {t t' : Table A R} {act : Act A R} {acts : List (Act A R)} {a : A}

theorem acquired_append (as bs : List (Act A R)) (a : A) :
    acquired (as ++ bs) a = acquired as a + acquired bs a := List.countP_append

theorem released_append (as bs : List (Act A R)) (a : A) :
    released (as ++ bs) a = released as a + released bs a := List.countP_append

theorem acquired_singleton (act : Act A R) (a : A) : acquired [act] a = (act.acquires a).toNat := by
  rw [acquired, List.countP_singleton]
  cases act.acquires a <;> rfl

theorem released_singleton (act : Act A R) (a : A) : released [act] a = (act.releases a).toNat := by
  rw [released, List.countP_singleton]
  cases act.releases a <;> rfl

theorem acquired_cons (act : Act A R) (acts : List (Act A R)) (a : A) :
    acquired (act :: acts) a = (act.acquires a).toNat + acquired acts a := by
  rw [← acquired_singleton, ← acquired_append, List.singleton_append]

theorem released_cons (act : Act A R) (acts : List (Act A R)) (a : A) :
    released (act :: acts) a = (act.releases a).toNat + released acts a := by
  rw [← released_singleton, ← released_append, List.singleton_append]

theorem Step.inv (h : Step key t act t') (hinv : Inv key t) : Inv key t' := by
  obtain ⟨hunique, hlisted⟩ := hinv
  cases h with
  | @create a r hfree hnew =>
    constructor
    · intro b c s s' hb hc hkey
      dsimp only at hb hc
      by_cases hba : b = a
      · by_cases hca : c = a
        · rw [hba, hca]
        · rw [hba, Function.update_self] at hb
          rw [Function.update_of_ne hca] at hc
          cases hb
          exact absurd hkey.symm (hnew c s' hc)
      · rw [Function.update_of_ne hba] at hb
        by_cases hca : c = a
        · rw [hca, Function.update_self] at hc
          cases hc
          exact absurd hkey (hnew b s hb)
        · rw [Function.update_of_ne hca] at hc
          exact hunique b c s s' hb hc hkey
    · intro b hb
      dsimp only
      by_cases hba : b = a
      · exact ⟨r, by rw [hba, Function.update_self]⟩
      · rw [Function.update_of_ne hba]
        exact hlisted b hb
  | @acquire a r hres =>
    refine ⟨hunique, fun b hb => ?_⟩
    by_cases hba : b = a
    · exact ⟨r, by rw [hba]; exact hres⟩
    · dsimp only at hb
      rw [Function.update_of_ne hba] at hb
      exact hlisted b hb
  | @release a hheld =>
    refine ⟨hunique, fun b hb => ?_⟩
    by_cases hba : b = a
    · exact hlisted b (by rw [hba]; exact hheld)
    · dsimp only at hb
      rw [Function.update_of_ne hba] at hb
      exact hlisted b hb
  | @collect a hidle =>
    have hne (b : A) (r : R) (hb : Function.update t.res a none b = some r) :
        t.res b = some r := by
      by_cases hba : b = a
      · rw [hba, Function.update_self] at hb
        cases hb
      · rwa [Function.update_of_ne hba] at hb
    constructor
    · intro b c s s' hb hc hkey
      exact hunique b c s s' (hne b s hb) (hne c s' hc) hkey
    · intro b hb
      have hba : b ≠ a := by
        rintro rfl
        exact absurd hb (by rw [hidle]; exact Nat.lt_irrefl 0)
      dsimp only
      rw [Function.update_of_ne hba]
      exact hlisted b hb

/-- The count moves with the leases and the returns. -/
theorem Step.held_eq (h : Step key t act t') (a : A) :
    t'.held a + (act.releases a).toNat = t.held a + (act.acquires a).toNat := by
  cases h with
  | create hfree hnew => rfl
  | @acquire b r hres =>
    by_cases hba : a = b
    · subst hba
      simp [Act.releases, Act.acquires]
    · simp [Act.releases, Act.acquires, Function.update_of_ne hba, Ne.symm hba]
  | @release b hheld =>
    by_cases hba : a = b
    · subst hba
      simp only [Act.releases, Act.acquires, Function.update_self, decide_true, Bool.toNat_true,
        Bool.toNat_false]
      omega
    · simp [Act.releases, Act.acquires, Function.update_of_ne hba, Ne.symm hba]
  | collect hidle => rfl

/-- A held resource stays as it is. -/
theorem Step.res_eq (h : Step key t act t') (hinv : Inv key t) (hheld : 0 < t.held a) :
    t'.res a = t.res a := by
  cases h with
  | @create b r hfree hnew =>
    have hab : a ≠ b := by
      rintro rfl
      obtain ⟨s, hs⟩ := hinv.listed a hheld
      rw [hfree] at hs
      cases hs
    exact Function.update_of_ne hab ..
  | acquire hres => rfl
  | release hheld => rfl
  | @collect b hidle =>
    have hab : a ≠ b := by
      rintro rfl
      omega
    exact Function.update_of_ne hab ..

section Run

variable (hrun : Exec (Step key) t acts t')

include hrun

theorem run_inv (hinv : Inv key t) : Inv key t' :=
  hrun.invariant hinv fun _ _ _ hs hstep => hstep.inv hs

/-- Over a run, the count is what was leased minus what was given back. -/
theorem run_held_eq (a : A) :
    t'.held a + released acts a = t.held a + acquired acts a := by
  induction hrun with
  | nil => rfl
  | @snoc s u as act _ hlast ih =>
    have hstep := hlast.held_eq a
    rw [released_append, acquired_append, released_singleton, acquired_singleton]
    omega

/-- A resource that is not given back as often as it is held keeps its place in the table. -/
theorem run_res_eq (hinv : Inv key t) (hheld : released acts a < t.held a) :
    t'.res a = t.res a := by
  induction hrun with
  | nil => rfl
  | @snoc s u as act hrun hlast ih =>
    rw [released_append] at hheld
    have hmid : released as a < t.held a := by omega
    have hcount := run_held_eq hrun a
    rw [hlast.res_eq (run_inv hrun hinv) (by omega), ih hmid]

end Run

end Lease
