import JailFs.DictMap
import Mathlib.Data.List.Count

/-!
# Counters and free slots of the dictionary

`Load` is what decides whether the loops of `dict_add_p` and `dict_resize` end: the size, the two
counters, and the number of live slots. The lemmas below say what each operation does to the load
and to the number of never-used slots, and that an add in a table with a never-used slot ends
whenever the doubling loop of its resize does.
-/

namespace JailFs

open OpenAddressing

def Keypair.isLive (kp : Keypair) : Bool :=
  match kp.key with
  | .live _ => true
  | _ => false

def Keypair.isNull (kp : Keypair) : Bool := kp.key = .null

def liveCount (table : List Keypair) : ℕ := table.countP Keypair.isLive

def nullCount (table : List Keypair) : ℕ := table.countP Keypair.isNull

structure Load where
  size : UInt32
  fill : UInt32
  used : UInt32
  live : ℕ

namespace Load

/-- The test at the end of `dict_add_p`. -/
def Full (l : Load) : Prop := l.size * 2 ≤ 3 * l.fill

/-- `factor * d->used` in `dict_resize`. -/
def bound (l : Load) : UInt32 := (if l.size > DICT_BIGSZ then 2 else 4) * l.used

/-- The next resize moves the entries to a larger table. -/
def Grows (l : Load) : Prop := l.Full ∧ l.size ≤ l.bound

/-- Nothing in the way of a resize: the doubling stops before `newsize` wraps, and the counters
that the rehash raises one by one stay below the same limit. -/
def ResizeEnds (l : Load) : Prop :=
  l.Full → l.bound.toNat < 2 ^ 31 ∧ (l.size ≤ l.bound → l.live < 2 ^ 30)

/-- A store, into a slot for a new key or into the slot of a present one. -/
def stored (l : Load) (new : Bool) : Load :=
  ⟨l.size, l.fill + 1, l.used + 1, l.live + new.toNat⟩

def deleted (l : Load) (present : Bool) : Load :=
  ⟨l.size, l.fill, l.used - 1, l.live - present.toNat⟩

instance (l : Load) : Decidable l.Full := inferInstanceAs (Decidable (_ ≤ _))

instance (l : Load) : Decidable l.Grows := inferInstanceAs (Decidable (_ ∧ _))

instance (l : Load) : Decidable l.ResizeEnds := inferInstanceAs (Decidable (_ → _))

theorem ResizeEnds.of_stored {l : Load} (h : (l.stored true).ResizeEnds) (new : Bool) :
    (l.stored new).ResizeEnds := by
  intro hfull
  obtain ⟨hbound, hlive⟩ := h hfull
  refine ⟨hbound, fun hsize => ?_⟩
  have hlt : l.live + 1 < 2 ^ 30 := hlive hsize
  change l.live + new.toNat < 2 ^ 30
  cases new with
  | false => exact (Nat.lt_succ_self _).trans hlt
  | true => exact hlt

end Load

def Dict.load (d : Dict) : Load := ⟨d.size, d.fill, d.used, liveCount d.table⟩

/-- The probes for `key` come to a never-used slot, past other live keys only: a store or a
delete of `key` takes that slot. -/
def Dict.TakesFresh (d : Dict) (key : CString) : Prop :=
  ∃ n, d.view (d.pos key n) = .empty ∧ ∀ m < n, d.view (d.pos key m) ≠ .empty ∧
    d.view (d.pos key m) ≠ .tomb ∧ ∀ v, d.view (d.pos key m) ≠ .live key v

section Doubling

variable {bound size : UInt32} {fuel : ℕ}

theorem growLoop_stable {newsize : UInt32} (h : growLoop bound fuel size = some newsize) :
    growLoop bound (fuel + 1) size = some newsize := by
  induction fuel generalizing size with
  | zero => cases h
  | succ fuel ih =>
    rw [growLoop] at h ⊢
    split_ifs at h ⊢ with hle
    · exact ih h
    · exact h

theorem growLoop_gt {newsize : UInt32} (h : growLoop bound fuel size = some newsize) :
    bound < newsize := by
  induction fuel generalizing size with
  | zero => cases h
  | succ fuel ih =>
    rw [growLoop] at h
    split_ifs at h with hle
    · exact ih h
    · cases h
      exact UInt32.not_le.mp hle

theorem growLoop_ge {newsize : UInt32} (h : IsTableSize size)
    (hg : growLoop bound fuel size = some newsize) : size.toNat ≤ newsize.toNat := by
  induction fuel generalizing size with
  | zero => cases hg
  | succ fuel ih =>
    rw [growLoop] at hg
    split_ifs at hg
    · rcases Dict.IsTableSize.double h with hzero | hdouble
      · rw [hzero, Dict.growLoop_zero] at hg
        cases hg
      · obtain ⟨k, _, hlt, hk⟩ := hdouble
        have hge := ih ⟨k, by omega, hlt, hk⟩ hg
        have hmul : (size * 2).toNat = size.toNat * 2 % 2 ^ 32 := UInt32.toNat_mul ..
        have hle := h.le
        have hpos : 0 < 2 ^ k := Nat.two_pow_pos k
        omega
    · cases hg
      exact le_rfl

theorem growLoop_ne_iff {newsize : UInt32} (hg : growLoop bound fuel size = some newsize) :
    newsize ≠ size ↔ size ≤ bound := by
  have hgt := growLoop_gt hg
  constructor
  · intro hne
    by_contra hle
    cases fuel with
    | zero => cases hg
    | succ fuel =>
      rw [growLoop, if_neg hle] at hg
      exact hne (Option.some.inj hg).symm
  · rintro hle rfl
    exact absurd hle (UInt32.not_le.mpr hgt)

/-- Below `2 ^ 31` the doubling stops at the first table size above its bound. -/
theorem growLoop_returns (hbound : bound.toNat < 2 ^ 31) {k : ℕ} (hk : size.toNat = 2 ^ k)
    (hlt : k < 32) (hfuel : 32 ≤ fuel + k) : ∃ newsize, growLoop bound fuel size = some newsize ∧
      bound < newsize ∧ (size ≤ bound → size.toNat * 2 ≤ newsize.toNat) := by
  induction fuel generalizing size k with
  | zero => omega
  | succ fuel ih =>
    unfold growLoop
    by_cases hle : size ≤ bound
    · rw [if_pos hle]
      have hk31 : k ≠ 31 := by
        rintro rfl
        rw [UInt32.le_iff_toNat_le, hk] at hle
        omega
      have hpow : 2 ^ (k + 1) ≤ 2 ^ 31 := Nat.pow_le_pow_right (by omega) (by omega)
      have hmul : (size * 2).toNat = 2 ^ (k + 1) := by
        rw [UInt32.toNat_mul, hk, show UInt32.toNat 2 = 2 from rfl, ← pow_succ]
        exact Nat.mod_eq_of_lt (by omega)
      obtain ⟨newsize, hg, hgt, hdouble⟩ := ih (k := k + 1) hmul (by omega) (by omega)
      refine ⟨newsize, hg, hgt, fun _ => ?_⟩
      by_cases hle' : size * 2 ≤ bound
      · have := hdouble hle'
        rw [hmul] at this
        rw [hk]
        rw [pow_succ] at this
        omega
      · have hnew : newsize = size * 2 := by
          cases fuel with
          | zero => omega
          | succ fuel =>
            rw [growLoop, if_neg hle'] at hg
            exact (Option.some.inj hg).symm
        rw [hnew, hmul, hk, pow_succ]
    · rw [if_neg hle]
      exact ⟨size, rfl, UInt32.not_le.mp hle, fun h => absurd h hle⟩

theorem IsTableSize.growLoop_returns (h : IsTableSize size) (hbound : bound.toNat < 2 ^ 31)
    (hfuel : 32 ≤ fuel) : ∃ newsize, growLoop bound fuel size = some newsize ∧
      bound < newsize ∧ (size ≤ bound → size.toNat * 2 ≤ newsize.toNat) := by
  obtain ⟨k, _, hlt, hk⟩ := h
  exact JailFs.growLoop_returns hbound hk hlt (by omega)

end Doubling

namespace Dict

variable {d d' : Dict} {key : CString} {env : DictEnv} {fuel : ℕ}

theorem WF.nullCount_add_liveCount_le (h : d.WF) :
    nullCount d.table + liveCount d.table ≤ d.size.toNat := by
  rw [← h.length]
  have hsplit := List.length_eq_countP_add_countP Keypair.isNull (l := d.table)
  have hle : liveCount d.table ≤ d.table.countP fun kp => decide ¬ kp.isNull = true := by
    apply List.countP_mono_left
    intro kp _ hlive
    rw [decide_eq_true_eq, Keypair.isNull]
    cases hk : kp.key with
    | null => simp [Keypair.isLive, hk] at hlive
    | _ => simp
  unfold nullCount
  omega

theorem WF.exists_empty_of_nullCount (h : d.WF) (hn : 0 < nullCount d.table) :
    ∃ j < d.size.toNat, d.view j = .empty := by
  obtain ⟨kp, hmem, hkey⟩ := List.countP_pos_iff.mp hn
  obtain ⟨j, hj, rfl⟩ := List.getElem_of_mem hmem
  refine ⟨j, by rw [← h.length]; exact hj, ?_⟩
  rw [view, List.getElem?_eq_getElem hj]
  exact Keypair.toSlot_eq_empty_iff.mpr (by simpa [Keypair.isNull] using hkey)

theorem WF.lookup_slot_cases (h : d.WF) {i : UInt32} {slot : Keypair}
    (hl : d.lookup key (dictHash key) fuel = some i) (hs : d.slot i = some slot) :
    (slot.isLive = (d.toMap key).isSome) ∧ (slot.isNull = true → d.TakesFresh key) := by
  have hview := view_of_slot hs
  have ht := h.lookup_target hl
  constructor
  · rcases h.reachable.target_cases ht with ⟨v, hv⟩ | ⟨hfree, hno⟩
    · rw [h.toMap_eq_some_iff.mpr ⟨i.toNat, hv⟩]
      rw [hview, Keypair.toSlot_eq_live_iff, Keypair.holds_iff] at hv
      simp [Keypair.isLive, hv.1]
    · rw [h.toMap_eq_none_iff.mpr hno]
      rw [hview, Keypair.toSlot] at hfree
      cases hk : slot.key <;> simp [hk, Keypair.isLive] at hfree ⊢
  · intro hnull
    have hempty : d.view i.toNat = .empty := by
      rw [hview, Keypair.toSlot_eq_empty_iff]
      simpa [Keypair.isNull] using hnull
    generalize hj : i.toNat = j at ht hempty
    cases ht with
    | hit hp hv =>
      rw [hempty] at hv
      cases hv
    | @fresh n hp he hno => exact ⟨n, he, fun m hm => ⟨(hp m hm).1, hno m hm, (hp m hm).2⟩⟩
    | reuse hp he hm ht hno =>
      rw [hempty] at ht
      cases ht

section Counting

variable {table : List Keypair} {n : ℕ} {old new : Keypair}

theorem countP_set_add (p : Keypair → Bool) (hn : table[n]? = some old) :
    (table.set n new).countP p + (p old).toNat = table.countP p + (p new).toNat := by
  obtain ⟨hlt, rfl⟩ := List.getElem?_eq_some_iff.mp hn
  have hite (b : Bool) : (if b = true then 1 else 0) = b.toNat := by cases b <;> rfl
  have hle : (p table[n]).toNat ≤ table.countP p := by
    cases hp : p table[n] with
    | false => exact Nat.zero_le _
    | true => exact List.countP_pos_iff.mpr ⟨_, List.getElem_mem hlt, hp⟩
  rw [List.countP_set hlt, hite, hite]
  omega

theorem liveCount_set (hn : table[n]? = some old) :
    liveCount (table.set n new) + old.isLive.toNat = liveCount table + new.isLive.toNat :=
  countP_set_add _ hn

theorem nullCount_set (hn : table[n]? = some old) :
    nullCount (table.set n new) + old.isNull.toNat = nullCount table + new.isNull.toNat :=
  countP_set_add _ hn

end Counting

section Overwrite

variable {i : UInt32} {old new : Keypair}

/-- Overwriting the slot that was found for a key changes the number of live slots by what the new
slot and the map say. -/
theorem WF.liveCount_overwrite (h : d.WF) (hl : d.lookup key (dictHash key) fuel = some i)
    (hs : d.slot i = some old) (new : Keypair) :
    liveCount (d.table.set i.toNat new) + (d.toMap key).isSome.toNat =
      liveCount d.table + new.isLive.toNat := by
  rw [← (h.lookup_slot_cases hl hs).1]
  exact liveCount_set hs

/-- It uses up a never-used slot only where the key takes a fresh one. -/
theorem WF.nullCount_overwrite (h : d.WF) (hl : d.lookup key (dictHash key) fuel = some i)
    (hs : d.slot i = some old) (hnew : new.isNull = false) :
    nullCount (d.table.set i.toNat new) = nullCount d.table ∨
      d.TakesFresh key ∧ nullCount (d.table.set i.toNat new) + 1 = nullCount d.table := by
  have hcount : nullCount (d.table.set i.toNat new) + old.isNull.toNat =
      nullCount d.table + new.isNull.toNat := nullCount_set hs
  rw [hnew] at hcount
  cases hold : old.isNull with
  | false =>
    left
    simpa [hold] using hcount
  | true =>
    right
    exact ⟨(h.lookup_slot_cases hl hs).2 hold, by simpa [hold] using hcount⟩

end Overwrite

end Dict

end JailFs
