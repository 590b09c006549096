import Mathlib.Data.List.Basic

/-!
# Transducers

A transducer reads a list from left to right, moves from state to state and emits a list of
outputs at every step. `final` is the state it ends in and `output` is everything it emits. The
rules below split a run at any point and carry an invariant along it; nothing here depends on what
the states, the inputs or the outputs are.
-/

universe u v w

namespace Transducer

variable {σ : Type u} {α : Type v} {β : Type w}

def final (step : σ → α → σ × List β) : σ → List α → σ
  | s, [] => s
  | s, a :: as => final step (step s a).1 as

def output (step : σ → α → σ × List β) : σ → List α → List β
  | _, [] => []
  | s, a :: as => (step s a).2 ++ output step (step s a).1 as

variable {step : σ → α → σ × List β} {s : σ} {as bs : List α} {a : α} {b : β}

@[simp] theorem final_nil : final step s [] = s := rfl

@[simp] theorem final_cons : final step s (a :: as) = final step (step s a).1 as := rfl

@[simp] theorem output_nil : output step s [] = [] := rfl

@[simp] theorem output_cons :
    output step s (a :: as) = (step s a).2 ++ output step (step s a).1 as := rfl

theorem final_append : final step s (as ++ bs) = final step (final step s as) bs := by
  induction as generalizing s with
  | nil => rfl
  | cons a as ih => exact ih

theorem output_append :
    output step s (as ++ bs) = output step s as ++ output step (final step s as) bs := by
  induction as generalizing s with
  | nil => rfl
  | cons a as ih =>
    rw [List.cons_append, output_cons, output_cons, ih, final_cons, List.append_assoc]

/-- An output is emitted at some input, in the state that the inputs before it lead to. -/
theorem mem_output_iff : b ∈ output step s as ↔
    ∃ pre a post, as = pre ++ a :: post ∧ b ∈ (step (final step s pre) a).2 := by
  constructor
  · intro h
    induction as generalizing s with
    | nil => cases h
    | cons a as ih =>
      rcases List.mem_append.mp h with hb | hb
      · exact ⟨[], a, as, rfl, hb⟩
      · obtain ⟨pre, a', post, rfl, hb'⟩ := ih hb
        exact ⟨a :: pre, a', post, rfl, hb'⟩
  · rintro ⟨pre, a, post, rfl, hb⟩
    rw [output_append, output_cons]
    exact List.mem_append_right _ (List.mem_append_left _ hb)

section Bisimulation

/-- States that are related answer alike, and stay related. -/
def Bisim (step : σ → α → σ × List β) (R : σ → σ → Prop) : Prop :=
  ∀ s t a, R s t → (step s a).2 = (step t a).2 ∧ R (step s a).1 (step t a).1

/-- The inputs that are not idle when they are read. -/
def busy (step : σ → α → σ × List β) (idle : σ → α → Bool) : σ → List α → List α
  | _, [] => []
  | s, a :: as =>
    if idle s a then busy step idle (step s a).1 as else a :: busy step idle (step s a).1 as

variable {R : σ → σ → Prop} {t : σ} {idle : σ → α → Bool}

theorem Bisim.run (h : Bisim step R) (hst : R s t) (as : List α) :
    output step s as = output step t as ∧ R (final step s as) (final step t as) := by
  induction as generalizing s t with
  | nil => exact ⟨rfl, hst⟩
  | cons a as ih =>
    obtain ⟨hout, hnext⟩ := h s t a hst
    obtain ⟨hrest, hfinal⟩ := ih hnext
    rw [output_cons, output_cons, hout, hrest]
    exact ⟨rfl, hfinal⟩

/-- Inputs that are answered with nothing and lead to a related state make no difference. -/
theorem Bisim.output_busy (h : Bisim step R)
    (hidle : ∀ s a, idle s a = true → (step s a).2 = [] ∧ R (step s a).1 s) :
    output step s (busy step idle s as) = output step s as := by
  induction as generalizing s with
  | nil => rfl
  | cons a as ih =>
    rw [busy]
    split_ifs with ha
    · obtain ⟨hout, hnext⟩ := hidle s a ha
      rw [output_cons, hout, List.nil_append, ← ih, (h.run hnext _).1]
    · rw [output_cons, output_cons, ih]

end Bisimulation

end Transducer
