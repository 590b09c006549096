import JailFs.Exec
import Mathlib.Data.List.Induction

/-!
# What a history asks of each of its calls

A history is the list of the calls made so far. `Along P hist` says that `P` holds of every call of
`hist` together with the calls before it, and `Exec.Meets` that a run along the history finds every
call answered as asked. `Exec.meets_iff` reduces the second to the first: it is enough that a
relation between the history and the state is kept by the calls that are answered as asked.
-/

universe u v

section Along

variable {α : Type v} {P : List α → α → Prop} {hist : List α} {a : α}

/-- Every call of the history has the property `P`, given the calls before it. -/
def Along (P : List α → α → Prop) (hist : List α) : Prop :=
  ∀ pre a post, hist = pre ++ a :: post → P pre a

theorem along_nil : Along P [] := by
  intro pre a post h
  simp at h

theorem along_snoc : Along P (hist ++ [a]) ↔ Along P hist ∧ P hist a := by
  constructor
  · intro h
    refine ⟨fun pre b post heq => ?_, h hist a [] rfl⟩
    exact h pre b (post ++ [a]) (by rw [heq, List.append_assoc, List.cons_append])
  · rintro ⟨h, hlast⟩ pre b post heq
    rcases List.eq_nil_or_concat post with rfl | ⟨post, c, rfl⟩
    · obtain ⟨rfl, hb⟩ := List.append_inj' heq rfl
      cases hb
      exact hlast
    · rw [List.concat_eq_append, ← List.cons_append, ← List.append_assoc] at heq
      exact h pre b post (List.append_inj' heq rfl).1

theorem along_const {Q : α → Prop} : Along (fun _ a => Q a) hist ↔ ∀ a ∈ hist, Q a := by
  constructor
  · intro h a ha
    obtain ⟨pre, post, heq⟩ := List.append_of_mem ha
    exact h pre a post heq
  · rintro h pre a post rfl
    exact h a (List.mem_append_right _ List.mem_cons_self)

end Along

namespace Exec

variable {σ : Type u} {α : Type v} {step : σ → α → σ → Prop} {s₀ : σ} {hist : List α}

/-- Whenever a run along the history comes to a call, the call is `good` in the state reached. -/
def Meets (step : σ → α → σ → Prop) (s₀ : σ) (good : List α → α → σ → Prop) (hist : List α) :
    Prop :=
  Along (fun pre a => ∀ s, Exec step s₀ pre s → good pre a s) hist

variable {R : List α → σ → Prop} {valid cond : List α → α → Prop}
  {good : List α → α → σ → Prop}

/-- A relation that the calls keep under a condition holds along histories that satisfy it. -/
theorem related_of_along (hinit : R [] s₀)
    (hkeep : ∀ pre a s t, R pre s → cond pre a → step s a t → R (pre ++ [a]) t)
    (hcond : Along cond hist) {s : σ} (hrun : Exec step s₀ hist s) : R hist s := by
  induction hrun with
  | nil => exact hinit
  | snoc _ hlast ih =>
    obtain ⟨hbefore, hthis⟩ := along_snoc.mp hcond
    exact hkeep _ _ _ _ (ih hbefore) hthis hlast

theorem exists_of_along (hinit : R [] s₀)
    (hkeep : ∀ pre a s t, R pre s → cond pre a → step s a t → R (pre ++ [a]) t)
    (hprog : ∀ pre a s, R pre s → cond pre a → ∃ t, step s a t)
    (hcond : Along cond hist) : ∃ s, Exec step s₀ hist s := by
  induction hist using List.reverseRecOn with
  | nil => exact ⟨s₀, nil s₀⟩
  | append_singleton hist a ih =>
    obtain ⟨hbefore, hthis⟩ := along_snoc.mp hcond
    obtain ⟨s, hrun⟩ := ih hbefore
    obtain ⟨t, hstep⟩ := hprog hist a s (related_of_along hinit hkeep hbefore hrun) hthis
    exact ⟨t, hrun.snoc hstep⟩

/-- Every call of a valid history is good exactly if every call satisfies the condition: as long as
the calls do, the relation `R` holds, and under it a call is good exactly if it satisfies it too. -/
theorem meets_iff_of_valid (hinit : R [] s₀)
    (hkeep : ∀ pre a s t, R pre s → valid pre a → cond pre a → step s a t → R (pre ++ [a]) t)
    (hprog : ∀ pre a s, R pre s → valid pre a → cond pre a → ∃ t, step s a t)
    (hgood : ∀ pre a s, R pre s → valid pre a → (good pre a s ↔ cond pre a))
    (hvalid : Along valid hist) : Meets step s₀ good hist ↔ Along cond hist := by
  have hkeep' (pre : List α) (a : α) (s t : σ) (hR : R pre s) (h : valid pre a ∧ cond pre a)
      (hstep : step s a t) : R (pre ++ [a]) t := hkeep pre a s t hR h.1 h.2 hstep
  have hprog' (pre : List α) (a : α) (s : σ) (hR : R pre s) (h : valid pre a ∧ cond pre a) :
      ∃ t, step s a t := hprog pre a s hR h.1 h.2
  induction hist using List.reverseRecOn with
  | nil => exact iff_of_true along_nil along_nil
  | append_singleton hist a ih =>
    obtain ⟨hvalid, hlast⟩ := along_snoc.mp hvalid
    rw [Meets, along_snoc, along_snoc]
    refine (and_congr_left' (ih hvalid)).trans (and_congr_right fun hbefore => ?_)
    have hboth : Along (fun pre a => valid pre a ∧ cond pre a) hist :=
      fun pre b post heq => ⟨hvalid pre b post heq, hbefore pre b post heq⟩
    obtain ⟨s, hrun⟩ := exists_of_along hinit hkeep' hprog' hboth
    have hrel (t : σ) (ht : Exec step s₀ hist t) : R hist t :=
      related_of_along hinit hkeep' hboth ht
    constructor
    · intro h
      exact (hgood hist a s (hrel s hrun) hlast).mp (h s hrun)
    · intro h t ht
      exact (hgood hist a t (hrel t ht) hlast).mpr h

theorem meets_iff (hinit : R [] s₀)
    (hkeep : ∀ pre a s t, R pre s → cond pre a → step s a t → R (pre ++ [a]) t)
    (hprog : ∀ pre a s, R pre s → cond pre a → ∃ t, step s a t)
    (hgood : ∀ pre a s, R pre s → (good pre a s ↔ cond pre a)) :
    Meets step s₀ good hist ↔ Along cond hist := by
  have hvalid : Along (fun _ _ => True) hist := fun _ _ _ _ => trivial
  refine meets_iff_of_valid hinit ?_ ?_ ?_ hvalid
  · exact fun pre a s t hR _ => hkeep pre a s t hR
  · exact fun pre a s hR _ => hprog pre a s hR
  · exact fun pre a s hR _ => hgood pre a s hR

end Exec
