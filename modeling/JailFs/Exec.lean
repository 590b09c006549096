import Mathlib.Data.List.Basic

/-!
# Finite runs of a labelled step relation

`Exec step s as s'` is a run from `s` to `s'` whose steps carry the labels `as`, in order. The
rules below package the induction over runs once: an invariant of every step is an invariant of
every run, a run can be extended or split at any point, and a run of a partial function is a run
of its graph. Nothing here depends on what the states or the labels are.
-/

universe u v w

/-- Runs of `step`, extended on the right, so that an induction sees the latest label last. -/
inductive Exec {σ : Type u} {α : Type v} (step : σ → α → σ → Prop) : σ → List α → σ → Prop
  | nil (s : σ) : Exec step s [] s
  | snoc {s t u : σ} {as : List α} {a : α} (run : Exec step s as t) (last : step t a u) :
      Exec step s (as ++ [a]) u

namespace Exec

variable {σ : Type u} {α : Type v} {step step' : σ → α → σ → Prop} {s t u : σ} {as bs : List α}

theorem append (h₁ : Exec step s as t) (h₂ : Exec step t bs u) : Exec step s (as ++ bs) u := by
  induction h₂ with
  | nil => simpa only [List.append_nil] using h₁
  | snoc _ hlast ih =>
    rw [← List.append_assoc]
    exact ih.snoc hlast

theorem single {a : α} (h : step s a t) : Exec step s [a] t := (nil s).snoc h

theorem cons {a : α} (h : step s a t) (hrun : Exec step t as u) : Exec step s (a :: as) u :=
  (single h).append hrun

theorem last {a : α} (h : Exec step s (as ++ [a]) u) : ∃ t, Exec step s as t ∧ step t a u := by
  generalize hl : as ++ [a] = l at h
  cases h with
  | nil => simp at hl
  | snoc hrun hlast =>
    obtain ⟨rfl, h₁⟩ := List.append_inj' hl rfl
    cases h₁
    exact ⟨_, hrun, hlast⟩

theorem nil_iff : Exec step s [] t ↔ t = s := by
  constructor
  · intro h
    generalize hl : ([] : List α) = l at h
    cases h with
    | nil => rfl
    | snoc => simp at hl
  · rintro rfl
    exact nil t

theorem snoc_iff {a : α} :
    Exec step s (as ++ [a]) u ↔ ∃ t, Exec step s as t ∧ step t a u := by
  constructor
  · exact last
  · rintro ⟨t, hrun, hlast⟩
    exact hrun.snoc hlast

/-- The invariant rule: what the first state has and every step keeps, every reached state has. -/
theorem invariant {I : σ → Prop} (h : Exec step s as t) (hinit : I s)
    (hstep : ∀ s a t, I s → step s a t → I t) : I t := by
  induction h with
  | nil => exact hinit
  | snoc _ hlast ih => exact hstep _ _ _ ih hlast

/-- The invariant rule for a relation between the labels so far and the state they reach. -/
theorem history_invariant {I : List α → σ → Prop} (h : Exec step s as t) (hinit : I [] s)
    (hstep : ∀ as s a t, I as s → step s a t → I (as ++ [a]) t) : I as t := by
  induction h with
  | nil => exact hinit
  | snoc _ hlast ih => exact hstep _ _ _ _ ih hlast

theorem mono (h : Exec step s as t) (hle : ∀ s a t, step s a t → step' s a t) :
    Exec step' s as t := by
  induction h with
  | nil => exact nil _
  | snoc _ hlast ih => exact ih.snoc (hle _ _ _ hlast)

theorem simulation {τ : Type w} {step₂ : τ → α → τ → Prop} {R : σ → τ → Prop} {s₂ : τ}
    (h : Exec step s as t) (hR : R s s₂)
    (hstep : ∀ s a t s₂, R s s₂ → step s a t → ∃ t₂, step₂ s₂ a t₂ ∧ R t t₂) :
    ∃ t₂, Exec step₂ s₂ as t₂ ∧ R t t₂ := by
  induction h with
  | nil => exact ⟨s₂, nil s₂, hR⟩
  | snoc _ hlast ih =>
    obtain ⟨m, hrun, hRm⟩ := ih
    obtain ⟨t₂, hlast₂, hRt⟩ := hstep _ _ _ _ hRm hlast
    exact ⟨t₂, hrun.snoc hlast₂, hRt⟩

/-- The labels of a run determine where it ends if each step is determined by its label. -/
theorem functional (hstep : ∀ s a t t', step s a t → step s a t' → t = t')
    (h : Exec step s as t) (h' : Exec step s as u) : t = u := by
  induction h generalizing u with
  | nil =>
    generalize hl : ([] : List α) = l at h'
    cases h' with
    | nil => rfl
    | snoc => simp at hl
  | snoc _ hlast ih =>
    obtain ⟨m, hrun, hlast'⟩ := h'.last
    obtain rfl := ih hrun
    exact hstep _ _ _ _ hlast hlast'

/-- Evaluating a partial step function along a list of labels is a run of its graph. -/
theorem of_foldlM {f : σ → α → Option σ} (hf : ∀ s a t, f s a = some t → step s a t)
    (h : as.foldlM f s = some t) : Exec step s as t := by
  induction as generalizing s with
  | nil =>
    cases h
    exact nil _
  | cons a as ih =>
    rw [List.foldlM_cons] at h
    cases ha : f s a with
    | none => simp [ha] at h
    | some m =>
      rw [ha] at h
      exact cons (hf s a m ha) (ih h)

end Exec
