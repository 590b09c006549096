import JailFs.Exec
import JailFs.Monitor
import Mathlib.Data.Int.Notation

/-!
# How the threads wait for the main thread

The main thread holds `core_ready_m` while it creates the others, and sets `core_ready` before it
gives the mutex up. A thread that comes to `thread_entry` in the meantime cannot take the mutex, so
none of them tests the flag before it is set, and none ever waits on `core_ready_c`.
-/

universe u

namespace JailFs

/-- Where the main thread is: at the mutex, at the loop that creates the threads, after the flag is
set, after the mutex is given up, and in its main loop. -/
inductive MainPoint
  | locking | creating | unlocking | broadcasting | looping
  deriving DecidableEq

/-- Where a thread is in `thread_entry`. -/
inductive EntryPoint
  | absent
  | locking
  | testing
  -- the flag was not set: before the wait, and in it
  | waiting | resuming
  | unlocking
  | outside
  deriving DecidableEq

/-- `core` is `core_ready_m` with `core_ready_c`, of which the main thread is `none`. -/
structure StartUp (ι : Type u) where
  main : MainPoint
  threads : ι → EntryPoint
  coreReady : ℤ
  core : Monitor (Option ι)

inductive StartEvent (ι : Type u)
  | mainLock | create (i : ι) | setReady | mainUnlock | broadcast
  | lock (i : ι) | test (i : ι) | wait (i : ι) | wake (i : ι) | relock (i : ι) | unlock (i : ι)
  -- a thread may call `thread_entry` again
  | enter (i : ι)
  deriving DecidableEq

namespace StartUp

variable {ι : Type u}

def init : StartUp ι := ⟨.locking, fun _ => .absent, 0, .idle⟩

def move [DecidableEq ι] (s : StartUp ι) (i : ι) (p : EntryPoint) : StartUp ι :=
  { s with threads := Function.update s.threads i p }

/-- `main` from its lock to its broadcast, and `thread_entry`, one step at a time. -/
def Step [DecidableEq ι] (s : StartUp ι) : StartEvent ι → StartUp ι → Prop
  | .mainLock, t => s.main = .locking ∧
      ∃ m, s.core.Step (.lock none) m ∧ t = { s with main := .creating, core := m }
  | .create i, t => s.main = .creating ∧ s.threads i = .absent ∧ t = s.move i .locking
  | .setReady, t => s.main = .creating ∧ t = { s with main := .unlocking, coreReady := 1 }
  | .mainUnlock, t => s.main = .unlocking ∧
      ∃ m, s.core.Step (.unlock none) m ∧ t = { s with main := .broadcasting, core := m }
  | .broadcast, t => s.main = .broadcasting ∧
      ∃ m, s.core.Step .broadcast m ∧ t = { s with main := .looping, core := m }
  | .lock i, t => s.threads i = .locking ∧
      ∃ m, s.core.Step (.lock (some i)) m ∧ t = { s.move i .testing with core := m }
  | .test i, t => s.threads i = .testing ∧
      t = s.move i (if s.coreReady < 1 then .waiting else .unlocking)
  | .wait i, t => s.threads i = .waiting ∧
      ∃ m, s.core.Step (.wait (some i)) m ∧ t = { s.move i .resuming with core := m }
  | .wake i, t => ∃ m, s.core.Step (.wake (some i)) m ∧ t = { s with core := m }
  | .relock i, t => s.threads i = .resuming ∧
      ∃ m, s.core.Step (.relock (some i)) m ∧ t = { s.move i .testing with core := m }
  | .unlock i, t => s.threads i = .unlocking ∧
      ∃ m, s.core.Step (.unlock (some i)) m ∧ t = { s.move i .outside with core := m }
  | .enter i, t => s.threads i = .outside ∧ t = s.move i .locking

/-- The flag is not set: the main thread has not begun, or it holds the mutex and no thread is
beyond the lock of `thread_entry`. -/
def Closed (s : StartUp ι) : Prop :=
  s.coreReady = 0 ∧ ((s.main = .locking ∧ ∀ i, s.threads i = .absent) ∨
    (s.main = .creating ∧ s.core.owner = some none ∧
      ∀ i, s.threads i = .absent ∨ s.threads i = .locking))

variable {s t : StartUp ι} {e : StartEvent ι} {hist : List (StartEvent ι)} {i : ι}

theorem Closed.threads (h : s.Closed) (i : ι) :
    s.threads i = .absent ∨ s.threads i = .locking := by
  obtain ⟨-, ⟨-, h⟩ | ⟨-, -, h⟩⟩ := h
  · exact .inl (h i)
  · exact h i

theorem Closed.start : (init : StartUp ι).Closed := ⟨rfl, .inl ⟨rfl, fun _ => rfl⟩⟩

/-- What holds after every step of every interleaving. -/
structure Inv (hist : List (StartEvent ι)) (s : StartUp ι) : Prop where
  flag : s.Closed ∨ (s.coreReady = 1 ∧ .setReady ∈ hist)
  waiting : ∀ i, s.threads i ≠ .waiting
  awake : ∀ o, s.core.status o ≠ .asleep

theorem Inv.start : Inv [] (init : StartUp ι) where
  flag := .inl Closed.start
  waiting := fun _ => EntryPoint.noConfusion
  awake := fun _ => WaitStatus.noConfusion

theorem Inv.ready (h : Inv hist s) (hi : s.threads i ≠ .absent) (hi' : s.threads i ≠ .locking) :
    s.coreReady = 1 ∧ .setReady ∈ hist :=
  h.flag.resolve_left fun hclosed => (hclosed.threads i).elim hi hi'

variable [DecidableEq ι]

theorem Closed.step (h : s.Closed) (hstep : s.Step e t) (he : e ≠ .setReady) : t.Closed := by
  have hthreads := h.threads
  obtain ⟨hready, hmain⟩ := h
  cases e with
  | mainLock =>
    obtain ⟨-, m, ⟨-, -, rfl⟩, rfl⟩ := hstep
    exact ⟨hready, .inr ⟨rfl, rfl, hthreads⟩⟩
  | create i =>
    obtain ⟨hcreating, -, rfl⟩ := hstep
    rcases hmain with ⟨hlocking, -⟩ | ⟨-, howner, -⟩
    · rw [hcreating] at hlocking
      cases hlocking
    · exact ⟨hready, .inr ⟨hcreating, howner, (Function.forall_update_iff s.threads fun _ p =>
        p = .absent ∨ p = .locking).mpr ⟨.inr rfl, fun j _ => hthreads j⟩⟩⟩
  | setReady => exact absurd rfl he
  | mainUnlock => rcases hmain with ⟨h, -⟩ | ⟨h, -⟩ <;> cases h.symm.trans hstep.1
  | broadcast => rcases hmain with ⟨h, -⟩ | ⟨h, -⟩ <;> cases h.symm.trans hstep.1
  | lock i =>
    -- the mutex is not free once there are threads
    obtain ⟨hi, m, ⟨hfree, -⟩, -⟩ := hstep
    rcases hmain with ⟨-, habsent⟩ | ⟨-, howner, -⟩
    · rw [habsent i] at hi
      cases hi
    · rw [hfree] at howner
      cases howner
  | wake i =>
    obtain ⟨m, hm, rfl⟩ := hstep
    refine ⟨hready, hmain.imp_right ?_⟩
    rintro ⟨hcreating, howner, -⟩
    exact ⟨hcreating, hm.owner howner (by simp) (by simp), hthreads⟩
  | test i => rcases hthreads i with h | h <;> cases h.symm.trans hstep.1
  | wait i => rcases hthreads i with h | h <;> cases h.symm.trans hstep.1
  | relock i => rcases hthreads i with h | h <;> cases h.symm.trans hstep.1
  | unlock i => rcases hthreads i with h | h <;> cases h.symm.trans hstep.1
  | enter i => rcases hthreads i with h | h <;> cases h.symm.trans hstep.1

theorem Step.ready (hstep : s.Step e t) (h : s.coreReady = 1) : t.coreReady = 1 := by
  cases e with
  | mainLock | mainUnlock | broadcast | lock i | wait i | relock i | unlock i =>
    obtain ⟨-, m, -, rfl⟩ := hstep
    exact h
  | wake i =>
    obtain ⟨m, -, rfl⟩ := hstep
    exact h
  | create i =>
    obtain ⟨-, -, rfl⟩ := hstep
    exact h
  | setReady =>
    obtain ⟨-, rfl⟩ := hstep
    rfl
  | test i | enter i =>
    obtain ⟨-, rfl⟩ := hstep
    exact h

theorem Step.waiting (hstep : s.Step e t) (h : ∀ i, s.threads i ≠ .waiting) :
    (∃ i, s.threads i = .testing ∧ s.coreReady < 1) ∨ ∀ i, t.threads i ≠ .waiting := by
  have hmove (i : ι) {p : EntryPoint} (hp : p ≠ .waiting) :
      ∀ j, (s.move i p).threads j ≠ .waiting :=
    (Function.forall_update_iff s.threads fun _ p => p ≠ .waiting).mpr ⟨hp, fun j _ => h j⟩
  cases e with
  | mainLock | mainUnlock | broadcast =>
    obtain ⟨-, m, -, rfl⟩ := hstep
    exact .inr h
  | wake i =>
    obtain ⟨m, -, rfl⟩ := hstep
    exact .inr h
  | setReady =>
    obtain ⟨-, rfl⟩ := hstep
    exact .inr h
  | test i =>
    obtain ⟨hi, rfl⟩ := hstep
    by_cases hready : s.coreReady < 1
    · exact .inl ⟨i, hi, hready⟩
    · rw [if_neg hready]
      exact .inr (hmove i EntryPoint.noConfusion)
  | create i =>
    obtain ⟨-, -, rfl⟩ := hstep
    exact .inr (hmove i EntryPoint.noConfusion)
  | enter i =>
    obtain ⟨-, rfl⟩ := hstep
    exact .inr (hmove i EntryPoint.noConfusion)
  | lock i | wait i | relock i | unlock i =>
    obtain ⟨-, m, -, rfl⟩ := hstep
    exact .inr (hmove i EntryPoint.noConfusion)

theorem Step.awake (hstep : s.Step e t) (hwaiting : ∀ i, s.threads i ≠ .waiting)
    (h : ∀ o, s.core.status o ≠ .asleep) : ∀ o, t.core.status o ≠ .asleep := by
  cases e with
  | mainLock | mainUnlock | broadcast | lock i | relock i | unlock i =>
    obtain ⟨-, m, hm, rfl⟩ := hstep
    exact hm.not_asleep h (by simp)
  | wake i =>
    obtain ⟨m, hm, rfl⟩ := hstep
    exact hm.not_asleep h (by simp)
  | wait i => exact absurd hstep.1 (hwaiting i)
  | create i =>
    obtain ⟨-, -, rfl⟩ := hstep
    exact h
  | setReady | test i | enter i =>
    obtain ⟨-, rfl⟩ := hstep
    exact h

theorem Inv.step (h : Inv hist s) (hstep : s.Step e t) : Inv (hist ++ [e]) t where
  flag := by
    rcases h.flag with hclosed | ⟨hready, hmem⟩
    · by_cases he : e = .setReady
      · subst he
        obtain ⟨-, rfl⟩ := hstep
        exact .inr ⟨rfl, by simp⟩
      · exact .inl (hclosed.step hstep he)
    · exact .inr ⟨hstep.ready hready, List.mem_append_left _ hmem⟩
  waiting := by
    refine (hstep.waiting h.waiting).resolve_left ?_
    rintro ⟨i, hi, hready⟩
    rcases h.flag with hclosed | ⟨hset, -⟩
    · rcases hclosed.threads i with h | h <;> cases h.symm.trans hi
    · omega
  awake := hstep.awake h.waiting h.awake

theorem Inv.of_exec (h : Exec Step (init : StartUp ι) hist s) : Inv hist s :=
  h.history_invariant Inv.start fun _ _ _ _ => Inv.step

end StartUp

/-- In every interleaving of `main` with any number of threads: a thread that returns from
`thread_entry`, the first time or again, does so after the flag was set, and nobody is ever left
waiting, after the broadcast or before. -/
theorem thread_entry_waits_for_core {ι : Type u} [DecidableEq ι] {hist : List (StartEvent ι)}
    {s : StartUp ι} (h : Exec StartUp.Step StartUp.init hist s) :
    (∀ i t, s.Step (.unlock i) t → s.coreReady = 1 ∧ .setReady ∈ hist) ∧
      ∀ o, s.core.status o ≠ .asleep := by
  have hinv := StartUp.Inv.of_exec h
  refine ⟨fun i t ht => hinv.ready (i := i) ?_ ?_, hinv.awake⟩
  · rw [ht.1]
    exact EntryPoint.noConfusion
  · rw [ht.1]
    exact EntryPoint.noConfusion

/-- One of two threads is at its unlock when the main thread has not yet sent its broadcast. -/
theorem thread_entry_waits_for_core_early : ∃ s : StartUp Bool,
    Exec StartUp.Step StartUp.init [.mainLock, .create false, .create true, .setReady, .mainUnlock,
      .lock true, .test true] s ∧ s.main = .broadcasting ∧ s.threads true = .unlocking ∧
      s.coreReady = 1 ∧ ∀ o, s.core.status o ≠ .asleep := by
  have run := (((((((Exec.nil _ : Exec StartUp.Step (StartUp.init (ι := Bool)) [] _).snoc
    (a := StartEvent.mainLock) ⟨rfl, _, ⟨rfl, rfl, rfl⟩, rfl⟩).snoc
    (a := StartEvent.create false) ⟨rfl, rfl, rfl⟩).snoc
    (a := StartEvent.create true) ⟨rfl, rfl, rfl⟩).snoc
    (a := StartEvent.setReady) ⟨rfl, rfl⟩).snoc
    (a := StartEvent.mainUnlock) ⟨rfl, _, ⟨rfl, rfl⟩, rfl⟩).snoc
    (a := StartEvent.lock true) ⟨rfl, _, ⟨rfl, rfl, rfl⟩, rfl⟩).snoc
    (a := StartEvent.test true) ⟨rfl, rfl⟩
  obtain ⟨hunlock, hawake⟩ := thread_entry_waits_for_core run
  exact ⟨_, run, rfl, rfl, (hunlock true _ ⟨rfl, _, ⟨rfl, rfl⟩, rfl⟩).1, hawake⟩

end JailFs
