import JailFs.Fuel

/-!
# Programs that may fault or not end

A `Program ρ` is a function of the fuel: `none` while the fuel is not enough, `some none` when the
program faults, as by following a null pointer, and `some (some r)` when it returns `r`. More fuel
never changes the answer, which is a field of the structure. Programs are composed by `do`, a step
of type `Option` that may only fault is lifted, and `Program.loop` is a loop around such a step. The
rules below say when a composed program returns; `Program.loop_returns` is the rule for loops.
-/

universe u v

structure Program (ρ : Type u) where
  run : ℕ → Option (Option ρ)
  stable : Fuel.Stable run

namespace Program

variable {ρ τ σ : Type u}

/-- The program ends with `r`. -/
def Returns (m : Program ρ) (r : ρ) : Prop := Fuel.Returns m.run (some r)

def Faults (m : Program ρ) : Prop := Fuel.Returns m.run none

theorem Returns.unique {m : Program ρ} {r r' : ρ} (h : m.Returns r) (h' : m.Returns r') :
    r = r' :=
  Option.some.inj (Fuel.Returns.unique m.stable h h')

theorem Returns.not_faults {m : Program ρ} {r : ρ} (h : m.Returns r) : ¬ m.Faults :=
  fun h' => by cases Fuel.Returns.unique m.stable h h'

/-- The program that does not end. -/
def never : Program ρ where
  run _ := none
  stable _ _ h := h

def ofOption (x : Option ρ) : Program ρ where
  run _ := some x
  stable _ _ h := h

instance : MonadLift Option Program := ⟨ofOption⟩

def andThenRun (m : Program ρ) (k : ρ → Program τ) (n : ℕ) : Option (Option τ) :=
  match m.run n with
  | none => none
  | some none => some none
  | some (some r) => (k r).run n

theorem andThenRun_stable (m : Program ρ) (k : ρ → Program τ) : Fuel.Stable (andThenRun m k) := by
  intro n a h
  rw [andThenRun] at h ⊢
  cases hm : m.run n with
  | none => simp [hm] at h
  | some x =>
    rw [m.stable n x hm]
    cases x with
    | none => simpa only [hm] using h
    | some r =>
      simp only [hm] at h
      exact (k r).stable n a h

/-- Runs `m` and then `k` on what `m` returned. -/
def andThen (m : Program ρ) (k : ρ → Program τ) : Program τ where
  run := andThenRun m k
  stable := andThenRun_stable m k

instance : Monad Program where
  pure r := ofOption (some r)
  bind := andThen

/-- One pass of a loop: the loop ends with a result, or goes on with another state. -/
def loopRun (body : σ → Option (ρ ⊕ σ)) : ℕ → σ → Option (Option ρ)
  | 0, _ => none
  | n + 1, s =>
    match body s with
    | none => some none
    | some (.inl r) => some (some r)
    | some (.inr s) => loopRun body n s

theorem loopRun_stable (body : σ → Option (ρ ⊕ σ)) (s : σ) :
    Fuel.Stable (loopRun body · s) := by
  intro n
  induction n generalizing s with
  | zero => exact fun a h => by cases h
  | succ n ih =>
    intro a h
    change loopRun body (n + 1) s = some a at h
    change loopRun body (n + 1 + 1) s = some a
    rw [loopRun] at h ⊢
    cases hb : body s with
    | none => simpa only [hb] using h
    | some x =>
      cases x with
      | inl r => simpa only [hb] using h
      | inr s' =>
        simp only [hb] at h
        exact ih s' a h

/-- The loop around `body`, from the state `s` on. -/
def loop (body : σ → Option (ρ ⊕ σ)) (s : σ) : Program ρ where
  run n := loopRun body n s
  stable := loopRun_stable body s

section Rules

variable {m : Program ρ} {k : ρ → Program τ} {r : ρ} {t : τ} {body : σ → Option (ρ ⊕ σ)} {s s' : σ}

@[simp] theorem returns_pure_iff {r' : ρ} : (pure r : Program ρ).Returns r' ↔ r = r' := by
  constructor
  · rintro ⟨n, hn⟩
    cases hn
    rfl
  · rintro rfl
    exact ⟨0, rfl⟩

theorem returns_pure (r : ρ) : (pure r : Program ρ).Returns r := returns_pure_iff.mpr rfl

theorem returns_ofOption {x : Option ρ} (h : x = some r) : (ofOption x).Returns r :=
  ⟨0, congrArg some h⟩

theorem returns_bind (hm : m.Returns r) (hk : (k r).Returns t) : (m >>= k).Returns t := by
  obtain ⟨n, hn⟩ := hm
  obtain ⟨n', hn'⟩ := hk
  refine ⟨max n n', ?_⟩
  change andThenRun m k _ = _
  simp only [andThenRun, m.stable.le (le_max_left n n') hn]
  exact (k r).stable.le (le_max_right n n') hn'

/-- A step that may only fault comes first. -/
theorem returns_lift_bind {x : Option ρ} (hx : x = some r) (hk : (k r).Returns t) :
    ((liftM x : Program ρ) >>= k).Returns t :=
  returns_bind (returns_ofOption hx) hk

theorem loop_ends (h : body s = some (.inl r)) : (loop body s).Returns r :=
  ⟨1, by change loopRun body 1 s = _; rw [loopRun, h]⟩

theorem loop_goes_on (h : body s = some (.inr s')) (hrest : (loop body s').Returns r) :
    (loop body s).Returns r := by
  obtain ⟨n, hn⟩ := hrest
  refine ⟨n + 1, ?_⟩
  change loopRun body (n + 1) s = _
  rw [loopRun, h]
  exact hn

/-- A loop returns if an invariant leads to its end or to another state in which the invariant
holds with a smaller index. -/
theorem loop_returns {I : ℕ → σ → Prop} {Q : ρ → Prop} {k : ℕ}
    (hbody : ∀ k s, I k s → (∃ r, body s = some (.inl r) ∧ Q r) ∨
      ∃ s' j, body s = some (.inr s') ∧ j < k ∧ I j s')
    (hs : I k s) : ∃ r, (loop body s).Returns r ∧ Q r := by
  induction k using Nat.strong_induction_on generalizing s with
  | _ k ih =>
    rcases hbody k s hs with ⟨r, hr, hQ⟩ | ⟨s', j, hs', hlt, hI⟩
    · exact ⟨r, loop_ends hr, hQ⟩
    · obtain ⟨r, hr, hQ⟩ := ih j hlt hI
      exact ⟨r, loop_goes_on hs' hr, hQ⟩

end Rules

end Program
