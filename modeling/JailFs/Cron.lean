import JailFs.TimeStr
import Mathlib.Data.Int.CardIntervalMod

/-!
# The garbage collection of `cron_tick`

Every second `cron_tick` compares the time modulo the interval of the setting with `1`. That is one
tick out of as many as the interval has seconds, except where it is one second, when no remainder
is ever `1`, and where the setting is read as zero, when the division traps.
-/

namespace JailFs

/-- `conf.now`, and how often `gc_all` was called. -/
structure Cron where
  now : ℤ
  collections : ℕ
  deriving DecidableEq

/-- One call of `cron_tick` at the time `time(NULL)`, where `globalGc` is what `dconf_get_str` finds
under `tuning.timer.global_gc`; `none` if the process is killed by a division by zero. -/
def cronTick (globalGc : Option CString) (time : ℕ) (s : Cron) : Option Cron :=
  let s := { s with now := time }
  let interval := timestrToTime globalGc 60
  if interval = 0 then none
  else if s.now.tmod interval = 1 then some { s with collections := s.collections + 1 }
  else some s

/-- Calls of `cron_tick`, one a second. -/
def cronTicks (globalGc : Option CString) (start : ℕ) : ℕ → Cron → Option Cron
  | 0, s => some s
  | n + 1, s => (cronTicks globalGc start n s).bind (cronTick globalGc (start + n))

variable {globalGc : Option CString} {start n N : ℕ} {s : Cron}

theorem cronTick_isSome_iff :
    (cronTick globalGc start s).isSome ↔ timestrToTime globalGc 60 ≠ 0 := by
  rw [cronTick]
  split_ifs <;> simp_all

theorem cronTick_of_interval (hN : timestrToTime globalGc 60 = (N : ℤ)) (hpos : 0 < N) :
    cronTick globalGc start s =
      some ⟨start, s.collections + if start % N = 1 then 1 else 0⟩ := by
  have hmod : ((start : ℤ).tmod (N : ℤ) = 1) ↔ start % N = 1 := by
    rw [← Int.ofNat_tmod]
    omega
  simp only [cronTick, hN, hmod]
  rw [if_neg (by omega)]
  split_ifs <;> rfl

theorem cronTicks_of_interval (hN : timestrToTime globalGc 60 = (N : ℤ)) (hpos : 0 < N)
    (start n : ℕ) (s : Cron) :
    (cronTicks globalGc start n s).map Cron.collections =
      some (s.collections + n.count fun k => (start + k) % N = 1) := by
  induction n with
  | zero => simp [cronTicks]
  | succ n ih =>
    obtain ⟨t, ht, hcount⟩ := Option.map_eq_some_iff.mp ih
    rw [cronTicks, ht, Option.bind_some, cronTick_of_interval hN hpos, hcount, Nat.count_succ]
    simp [Nat.add_assoc]

theorem count_remainder_one (hN : 1 < N) : (N.count fun k => (start + k) % N = 1) = 1 := by
  have hp : (fun k => k % N = 1) = (· ≡ 1 [MOD N]) := by
    funext k
    rw [Nat.ModEq, Nat.mod_eq_of_lt hN]
  have hadd := Nat.count_add (fun k => k % N = 1) start N
  simp only [hp] at hadd
  rw [Nat.count_modEq_card _ (by omega), Nat.count_modEq_card _ (by omega),
    Nat.add_div_right _ (by omega), Nat.add_mod_right] at hadd
  simp only [Nat.mod_eq_of_lt hN] at hadd
  omega

/-- What is expected of the setting: no tick divides by zero, and of as many consecutive ticks as
the interval has seconds exactly one calls `gc_all`. -/
def CronContract (globalGc : Option CString) : Prop :=
  (∀ time s, (cronTick globalGc time s).isSome) ∧
    ∀ N : ℕ, timestrToTime globalGc 60 = N → 1 ≤ N → ∀ start s, ∃ t,
      cronTicks globalGc start N s = some t ∧ t.collections = s.collections + 1

theorem CronContract.interval_ne_zero (h : CronContract globalGc) :
    timestrToTime globalGc 60 ≠ 0 := cronTick_isSome_iff.mp (h.1 0 ⟨0, 0⟩)

theorem CronContract.interval_ne_one (h : CronContract globalGc) :
    timestrToTime globalGc 60 ≠ 1 := by
  intro hone
  obtain ⟨t, ht, hcount⟩ := h.2 1 hone le_rfl 0 ⟨0, 0⟩
  have hrun := cronTicks_of_interval hone one_pos 0 1 ⟨0, 0⟩
  rw [ht, Option.map_some, hcount] at hrun
  simp [Nat.mod_one] at hrun

theorem cron_contract_iff (globalGc : Option CString) :
    CronContract globalGc ↔ timestrToTime globalGc 60 ≠ 0 ∧ timestrToTime globalGc 60 ≠ 1 := by
  constructor
  · exact fun h => ⟨h.interval_ne_zero, h.interval_ne_one⟩
  · rintro ⟨hzero, hone⟩
    refine ⟨fun time s => cronTick_isSome_iff.mpr hzero, fun N hN hpos start s => ?_⟩
    have hlt : 1 < N := by omega
    obtain ⟨t, ht, hcount⟩ :=
      Option.map_eq_some_iff.mp (cronTicks_of_interval hN hpos start N s)
    exact ⟨t, ht, hcount.trans (by rw [count_remainder_one hlt])⟩

/-- A setting of zero kills the process at the first tick, and under one of a second nothing is
ever collected. -/
theorem cron_settings_zero_and_one :
    (cronTick (some (.ofChars ['0'])) 1000 ⟨999, 0⟩ = none ∧
      ¬ CronContract (some (.ofChars ['0']))) ∧
    (∀ n start s, (cronTicks (some (.ofChars ['1', 's'])) start n s).map Cron.collections =
        some s.collections) ∧ ¬ CronContract (some (.ofChars ['1', 's'])) := by
  have hzero : timestrToTime (some (.ofChars ['0'])) 60 = 0 := by decide
  have hone : timestrToTime (some (.ofChars ['1', 's'])) 60 = ((1 : ℕ) : ℤ) := by decide
  refine ⟨⟨by simp [cronTick, hzero], fun h => h.interval_ne_zero hzero⟩, fun n start s => ?_,
    fun h => h.interval_ne_one hone⟩
  rw [cronTicks_of_interval hone one_pos]
  simp [Nat.mod_one]

end JailFs
