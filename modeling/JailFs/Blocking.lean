import Mathlib.Data.List.Induction
import Mathlib.Data.Option.Basic

/-!
# Calls of which one may wait for ever

The calls of a program change a state, and a call that waits for something which nobody will bring
about never comes back. `runAll` is the state after all calls, if they come back, and `made` are the
calls up to the first one that does not.
-/

universe u v

namespace Blocking

variable {σ : Type u} {α : Type v} (run : σ → α → Option σ)

def runAll (s : σ) (calls : List α) : Option σ := calls.foldlM run s

/-- Every one of the calls comes back. -/
def Returns (s : σ) (calls : List α) : Prop := (runAll run s calls).isSome = true

/-- The calls up to the first one that does not come back. -/
def made (s : σ) : List α → List α
  | [] => []
  | c :: calls =>
    match run s c with
    | none => [c]
    | some s => c :: made s calls

variable {run} {s s' : σ} {c : α} {l l' : List α}

@[simp] theorem runAll_nil : runAll run s [] = some s := rfl

theorem runAll_cons : runAll run s (c :: l) = (run s c).bind (runAll run · l) :=
  List.foldlM_cons ..

theorem runAll_append : runAll run s (l ++ l') = (runAll run s l).bind (runAll run · l') :=
  List.foldlM_append ..

@[simp] theorem runAll_singleton : runAll run s [c] = run s c := by
  rw [runAll_cons]
  exact Option.bind_fun_some _

theorem returns_append (h : runAll run s l = some s') :
    Returns run s (l ++ l') ↔ Returns run s' l' := by
  rw [Returns, runAll_append, h]
  rfl

theorem not_returns_append (h : runAll run s l = none) : ¬ Returns run s (l ++ l') := by
  rw [Returns, runAll_append, h]
  exact Bool.false_ne_true

theorem made_append (h : runAll run s l = some s') :
    made run s (l ++ l') = l ++ made run s' l' := by
  induction l generalizing s with
  | nil =>
    cases h
    rfl
  | cons c l ih =>
    rw [runAll_cons] at h
    obtain ⟨s₁, hc, h⟩ := Option.bind_eq_some_iff.mp h
    rw [List.cons_append, made, hc, List.cons_append, ← ih h]

theorem made_eq_self (h : runAll run s l = some s') : made run s l = l := by
  rw [← List.append_nil l, made_append h]
  rfl

theorem made_append_of_none (h : runAll run s l = none) :
    made run s (l ++ l') = made run s l := by
  induction l generalizing s with
  | nil => cases h
  | cons c l ih =>
    rw [runAll_cons] at h
    rw [List.cons_append, made, made]
    cases hc : run s c with
    | none => rfl
    | some s₁ =>
      rw [hc] at h
      exact congrArg (c :: ·) (ih h)

theorem made_isPrefix : made run s l <+: l := by
  induction l generalizing s with
  | nil => exact List.prefix_rfl
  | cons c l ih =>
    rw [made]
    cases run s c with
    | none => exact ⟨l, rfl⟩
    | some s => exact List.prefix_cons_inj c |>.mpr ih

/-- All calls are made if those before the last one come back. -/
theorem made_eq_iff : made run s l = l ↔ Returns run s l.dropLast := by
  induction l generalizing s with
  | nil => exact iff_of_true rfl rfl
  | cons c l ih =>
    rw [made]
    cases l with
    | nil =>
      refine iff_of_true ?_ rfl
      cases run s c <;> rfl
    | cons c' l =>
      rw [List.dropLast_cons_cons, Returns, runAll_cons]
      cases run s c with
      | none => exact iff_of_false (by simp) Bool.false_ne_true
      | some s₁ =>
        rw [Option.bind_some, List.cons.injEq, and_iff_right rfl]
        exact ih

/-- A call is made if the calls before it come back. -/
theorem mem_made_iff : c ∈ made run s l ↔
    ∃ before after, l = before ++ c :: after ∧ Returns run s before := by
  constructor
  · intro h
    induction l generalizing s with
    | nil => cases h
    | cons c' l ih =>
      rw [made] at h
      cases hc : run s c' with
      | none =>
        rw [hc] at h
        exact ⟨[], l, congrArg (· :: l) (List.mem_singleton.mp h).symm, rfl⟩
      | some s₁ =>
        rw [hc] at h
        rcases List.mem_cons.mp h with rfl | h
        · exact ⟨[], l, rfl, rfl⟩
        · obtain ⟨before, after, rfl, hreturns⟩ := ih h
          refine ⟨c' :: before, after, rfl, ?_⟩
          rw [Returns, runAll_cons, hc]
          exact hreturns
  · rintro ⟨before, after, rfl, hreturns⟩
    obtain ⟨s₁, hrun⟩ := Option.isSome_iff_exists.mp hreturns
    rw [made_append hrun, made]
    refine List.mem_append_right _ ?_
    cases run s₁ c <;> exact List.mem_cons_self


end Blocking
