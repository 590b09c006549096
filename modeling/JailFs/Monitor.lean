import Mathlib.Logic.Function.Basic

/-!
# A mutex with a condition variable

`Monitor.Step` says what one operation on a mutex and its condition variable does, whichever thread
it comes from and whatever the mutex protects. A thread that waits gives the mutex up in the same
step. It goes on when it has been woken, by a broadcast or without one, and has taken the mutex
again.
-/

universe u

/-- Whether a thread is inside of a wait, and if so whether it has been woken. -/
inductive WaitStatus
  | clear | asleep | woken
  deriving DecidableEq

structure Monitor (T : Type u) where
  owner : Option T
  status : T → WaitStatus

inductive MonitorOp (T : Type u)
  | lock (t : T)
  | unlock (t : T)
  | wait (t : T)
  | wake (t : T)
  | relock (t : T)
  | broadcast

def WaitStatus.wake : WaitStatus → WaitStatus
  | asleep => woken
  | clear => clear
  | woken => woken

namespace Monitor

variable {T : Type u}

/-- A monitor that no thread has used. -/
def idle : Monitor T := ⟨none, fun _ => .clear⟩

variable [DecidableEq T]

def Step (m : Monitor T) : MonitorOp T → Monitor T → Prop
  | .lock t, m' => m.owner = none ∧ m.status t = .clear ∧ m' = { m with owner := some t }
  | .unlock t, m' => m.owner = some t ∧ m' = { m with owner := none }
  | .wait t, m' => m.owner = some t ∧ m' = ⟨none, Function.update m.status t .asleep⟩
  -- a spurious wake-up
  | .wake t, m' =>
    m.status t = .asleep ∧ m' = { m with status := Function.update m.status t .woken }
  | .relock t, m' =>
    m.owner = none ∧ m.status t = .woken ∧ m' = ⟨some t, Function.update m.status t .clear⟩
  | .broadcast, m' => m' = { m with status := fun t => (m.status t).wake }

variable {m m' : Monitor T} {op : MonitorOp T} {t : T}

theorem Step.owner (h : m.Step op m') (howner : m.owner = some t) (hunlock : op ≠ .unlock t)
    (hwait : op ≠ .wait t) : m'.owner = some t := by
  cases op with
  | lock u =>
    obtain ⟨hfree, -⟩ := h
    rw [hfree] at howner
    cases howner
  | unlock u =>
    obtain ⟨hu, -⟩ := h
    rw [howner] at hu
    cases hu
    exact absurd rfl hunlock
  | wait u =>
    obtain ⟨hu, -⟩ := h
    rw [howner] at hu
    cases hu
    exact absurd rfl hwait
  | wake u =>
    obtain ⟨-, rfl⟩ := h
    exact howner
  | relock u =>
    obtain ⟨hfree, -⟩ := h
    rw [hfree] at howner
    cases howner
  | broadcast =>
    cases h
    exact howner

theorem wake_ne_asleep (w : WaitStatus) : w.wake ≠ .asleep := by
  cases w <;> simp [WaitStatus.wake]

theorem Step.not_asleep (h : m.Step op m') (hawake : ∀ t, m.status t ≠ .asleep)
    (hwait : ∀ t, op ≠ .wait t) : ∀ t, m'.status t ≠ .asleep := by
  cases op with
  | lock u =>
    obtain ⟨-, -, rfl⟩ := h
    exact hawake
  | unlock u =>
    obtain ⟨-, rfl⟩ := h
    exact hawake
  | wait u => exact absurd rfl (hwait u)
  | wake u => exact absurd h.1 (hawake u)
  | relock u =>
    obtain ⟨-, -, rfl⟩ := h
    exact (Function.forall_update_iff m.status fun _ w => w ≠ .asleep).mpr
      ⟨WaitStatus.noConfusion, fun t _ => hawake t⟩
  | broadcast =>
    cases h
    exact fun t => wake_ne_asleep _

end Monitor
