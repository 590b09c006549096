import JailFs.Dict
import JailFs.Fuel
import JailFs.ProbeCycle
import JailFs.OpenAddressing

/-!
# The probe sequence of `dict_lookup`

`probe size hash n` is the index of the `n`-th slot that `dict_lookup` inspects and the perturbation
it carries on from there. In a table whose size is a power of two the sequence visits every slot:
after seven shifts the perturbation is zero, and what is left is the recurrence `i ↦ 5 * i + 1`.
Read as an abstract open-addressing table, a well-formed dictionary makes `dict_lookup` the scan
of that table along its probe sequence.
-/

namespace JailFs

open OpenAddressing

def probeNext (size : UInt32) (s : UInt32 × UInt32) : UInt32 × UInt32 :=
  (((s.1 <<< 2) + s.1 + s.2 + 1) &&& (size - 1), s.2 >>> PERTURB_SHIFT)

def probe (size hash : UInt32) : ℕ → UInt32 × UInt32
  | 0 => (hash &&& (size - 1), hash)
  | n + 1 => probeNext size (probe size hash n)

theorem probe_zero (size hash : UInt32) : probe size hash 0 = (hash &&& (size - 1), hash) := rfl

theorem probe_succ (size hash : UInt32) (n : ℕ) :
    probe size hash (n + 1) = probeNext size (probe size hash n) := rfl

/-- The sizes a table can have. -/
def IsTableSize (size : UInt32) : Prop := ∃ k, 3 ≤ k ∧ k < 32 ∧ size.toNat = 2 ^ k

theorem isTableSize_min : IsTableSize DICT_MIN_SZ := ⟨3, le_rfl, by omega, rfl⟩

theorem IsTableSize.le {size : UInt32} (h : IsTableSize size) : size.toNat ≤ 2 ^ 31 := by
  obtain ⟨k, _, hlt, hk⟩ := h
  rw [hk]
  exact Nat.pow_le_pow_right (by omega) (by omega)

theorem IsTableSize.pos {size : UInt32} (h : IsTableSize size) : 0 < size.toNat := by
  obtain ⟨k, _, _, hk⟩ := h
  rw [hk]
  exact Nat.two_pow_pos k

section Probe

variable {size hash : UInt32}

theorem toNat_mask {x : UInt32} (h : IsTableSize size) :
    (x &&& (size - 1)).toNat = x.toNat % size.toNat := by
  have hpos := h.pos
  obtain ⟨k, _, _, hk⟩ := h
  have hone : (1 : UInt32) ≤ size := by
    rw [UInt32.le_iff_toNat_le, UInt32.toNat_one]
    exact hpos
  rw [UInt32.toNat_and, UInt32.toNat_sub_of_le _ _ hone, UInt32.toNat_one, hk,
    Nat.and_two_pow_sub_one_eq_mod]

theorem size_dvd (h : IsTableSize size) : size.toNat ∣ 2 ^ 32 := by
  obtain ⟨k, _, hlt, hk⟩ := h
  rw [hk]
  exact Nat.pow_dvd_pow 2 hlt.le

theorem toNat_probeNext (h : IsTableSize size) (s : UInt32 × UInt32) :
    (probeNext size s).1.toNat = (5 * s.1.toNat + s.2.toNat + 1) % size.toNat := by
  have hshift : (s.1 <<< 2).toNat = s.1.toNat * 4 % 2 ^ 32 := by
    rw [UInt32.toNat_shiftLeft, Nat.shiftLeft_eq]
    rfl
  rw [probeNext, toNat_mask h]
  simp only [UInt32.toNat_add, hshift, UInt32.toNat_one, Nat.mod_add_mod]
  rw [Nat.mod_mod_of_dvd _ (size_dvd h)]
  congr 1
  omega

theorem probe_lt (h : IsTableSize size) (hash : UInt32) (n : ℕ) :
    (probe size hash n).1.toNat < size.toNat := by
  cases n with
  | zero =>
    rw [probe, toNat_mask h]
    exact Nat.mod_lt _ h.pos
  | succ n =>
    rw [probe, toNat_probeNext h]
    exact Nat.mod_lt _ h.pos

theorem toNat_perturb (n : ℕ) : (probe size hash n).2.toNat = hash.toNat / 2 ^ (5 * n) := by
  induction n with
  | zero => simp [probe]
  | succ n ih =>
    change ((probe size hash n).2 >>> PERTURB_SHIFT).toNat = _
    rw [UInt32.toNat_shiftRight, ih, show PERTURB_SHIFT.toNat % 32 = 5 from rfl,
      Nat.shiftRight_eq_div_pow, Nat.div_div_eq_div_mul, ← pow_add]
    rfl

theorem perturb_eq_zero {n : ℕ} (hn : 7 ≤ n) : (probe size hash n).2.toNat = 0 := by
  rw [toNat_perturb]
  apply Nat.div_eq_of_lt
  calc hash.toNat < 2 ^ 32 := UInt32.toNat_lt hash
    _ ≤ 2 ^ (5 * n) := Nat.pow_le_pow_right (by omega) (by omega)

theorem probe_add_seven (h : IsTableSize size) (hash : UInt32) (n : ℕ) :
    (probe size hash (7 + n)).1.toNat =
      (ProbeCycle.next size.toNat)^[n] (probe size hash 7).1.toNat := by
  induction n with
  | zero => rfl
  | succ n ih =>
    rw [Function.iterate_succ_apply', ← ih, ← Nat.add_assoc, probe, toNat_probeNext h,
      perturb_eq_zero (by omega), ProbeCycle.next, Nat.add_zero]

/-- Every slot is inspected, within seven probes and one period. -/
theorem exists_probe_eq (h : IsTableSize size) (hash : UInt32) {i : ℕ} (hi : i < size.toNat) :
    ∃ n < 7 + size.toNat, (probe size hash n).1.toNat = i := by
  have hstart := probe_lt h hash 7
  have hadd := probe_add_seven h hash
  obtain ⟨k, _, _, hk⟩ := h
  rw [hk] at hi hstart hadd ⊢
  obtain ⟨n, hn, hiter⟩ := ProbeCycle.exists_iterate_eq hstart hi
  exact ⟨7 + n, by omega, by rw [hadd n, hiter]⟩

end Probe

/-- A slot as the abstract table has it. -/
def Keypair.toSlot (kp : Keypair) : Slot CString (Option CString) :=
  match kp.key with
  | .null => .empty
  | .dummy => .tomb
  | .live s => .live s kp.val
  | .freed => .tomb

/-- A slot as the code leaves it while no allocation fails. -/
def Keypair.Ok (kp : Keypair) : Prop :=
  match kp.key with
  | .null => kp.val = none
  | .dummy => kp.val = none
  | .live s => kp.hash = dictHash s
  | .freed => False

theorem Keypair.zero_ok : Keypair.zero.Ok := rfl

/-- A slot that stores the hash of its key, if it has one, whatever the hash function is. -/
def Keypair.HashedBy (hashOf : CString → UInt32) (kp : Keypair) : Prop :=
  match kp.key with
  | .null => True
  | .dummy => True
  | .live s => kp.hash = hashOf s
  | .freed => False

theorem Keypair.Ok.hashedBy {kp : Keypair} (h : kp.Ok) : kp.HashedBy dictHash := by
  unfold Keypair.Ok at h
  unfold Keypair.HashedBy
  cases hk : kp.key <;> simp_all

namespace Dict

def posBy (hashOf : CString → UInt32) (d : Dict) (key : CString) (n : ℕ) : ℕ :=
  (probe d.size (hashOf key) n).1.toNat

def pos (d : Dict) (key : CString) (n : ℕ) : ℕ := (probe d.size (dictHash key) n).1.toNat

/-- The abstract table of a dictionary; indices outside it are never probed. -/
def view (d : Dict) (i : ℕ) : Slot CString (Option CString) :=
  match d.table[i]? with
  | none => .empty
  | some kp => kp.toSlot

/-- The invariant of the dictionary. -/
structure WF (d : Dict) : Prop where
  size : IsTableSize d.size
  length : d.table.length = d.size.toNat
  slots : ∀ kp ∈ d.table, kp.Ok
  reachable : Reachable d.pos d.view

/-- A dictionary whose table has the right size and good slots, wherever the keys are. -/
structure Shaped (d : Dict) : Prop where
  size : IsTableSize d.size
  length : d.table.length = d.size.toNat
  slots : ∀ kp ∈ d.table, kp.Ok

/-- A table whose slots store the hashes that a hash function gives their keys. -/
structure Hashed (hashOf : CString → UInt32) (d : Dict) : Prop where
  size : IsTableSize d.size
  length : d.table.length = d.size.toNat
  slots : ∀ kp ∈ d.table, kp.HashedBy hashOf

theorem WF.shaped {d : Dict} (h : d.WF) : d.Shaped := ⟨h.size, h.length, h.slots⟩

theorem Shaped.hashed {d : Dict} (h : d.Shaped) : d.Hashed dictHash :=
  ⟨h.size, h.length, fun kp hkp => (h.slots kp hkp).hashedBy⟩

variable {d : Dict} {key : CString} {fuel n : ℕ} {i : UInt32}

theorem probeLoop_stable {hash p : UInt32} {free : Option UInt32} {r : UInt32}
    (h : d.probeLoop key hash fuel i p free = some r) :
    d.probeLoop key hash (fuel + 1) i p free = some r := by
  induction fuel generalizing i p free with
  | zero => cases h
  | succ fuel ih =>
    rw [probeLoop] at h ⊢
    cases hs : d.slot (((i <<< 2) + i + p + 1) &&& (d.size - 1)) with
    | none => simp only [hs] at h; cases h
    | some ep =>
      simp only [hs] at h ⊢
      cases hk : ep.key with
      | null => simpa only [hk] using h
      | dummy =>
        simp only [hk] at h ⊢
        exact ih h
      | live s =>
        simp only [hk] at h ⊢
        split_ifs at h ⊢
        · exact h
        · exact ih h
      | freed =>
        simp only [hk] at h ⊢
        split_ifs at h ⊢
        exact ih h

theorem lookup_stable (d : Dict) (key : CString) (hash : UInt32) :
    Fuel.Stable (d.lookup key hash) := by
  intro fuel r h
  rw [lookup] at h ⊢
  cases hs : d.slot (hash &&& (d.size - 1)) with
  | none => simp only [hs] at h; cases h
  | some ep =>
    simp only [hs] at h ⊢
    cases hk : ep.key with
    | null => simpa only [hk] using h
    | dummy =>
      simp only [hk] at h ⊢
      exact probeLoop_stable h
    | live s =>
      simp only [hk] at h ⊢
      split_ifs at h ⊢
      · exact h
      · exact probeLoop_stable h
    | freed =>
      simp only [hk] at h ⊢
      split_ifs at h ⊢
      exact probeLoop_stable h

theorem exists_slot (hlen : d.table.length = d.size.toNat) (hi : i.toNat < d.size.toNat) :
    ∃ kp ∈ d.table, d.slot i = some kp ∧ d.view i.toNat = kp.toSlot := by
  rw [← hlen] at hi
  refine ⟨d.table[i.toNat], List.getElem_mem hi, List.getElem?_eq_getElem hi, ?_⟩
  rw [view, List.getElem?_eq_getElem hi]

theorem Shaped.exists_slot (h : d.Shaped) (hi : i.toNat < d.size.toNat) :
    ∃ kp, d.slot i = some kp ∧ d.view i.toNat = kp.toSlot ∧ kp.Ok := by
  obtain ⟨kp, hmem, hslot, hview⟩ := Dict.exists_slot h.length hi
  exact ⟨kp, hslot, hview, h.slots kp hmem⟩

theorem map_getD (free : Option UInt32) (i : UInt32) :
    (free.getD i).toNat = (free.map UInt32.toNat).getD i.toNat := by cases free <;> rfl

theorem map_or (free : Option UInt32) (i : UInt32) :
    (free.or (some i)).map UInt32.toNat = (free.map UInt32.toNat).or (some i.toNat) := by
  cases free <;> rfl

section Hashed

variable {hashOf : CString → UInt32}

theorem toNat_probe (d : Dict) (key : CString) (n : ℕ) :
    (probe d.size (hashOf key) n).1.toNat = d.posBy hashOf key n := rfl

theorem Hashed.exists_slot (h : d.Hashed hashOf) (key : CString) (n : ℕ) :
    ∃ kp, d.slot (probe d.size (hashOf key) n).1 = some kp ∧
      d.view (d.posBy hashOf key n) = kp.toSlot ∧ kp.HashedBy hashOf := by
  obtain ⟨kp, hmem, hslot, hview⟩ := Dict.exists_slot h.length (probe_lt h.size (hashOf key) n)
  exact ⟨kp, hslot, hview, h.slots kp hmem⟩

/-- The loop of `dict_lookup`, come to the `n`-th probe, is the scan from the next probe on. -/
theorem Hashed.probeLoop_eq_scan (h : d.Hashed hashOf) (key : CString) (fuel n : ℕ)
    (free : Option UInt32) :
    (d.probeLoop key (hashOf key) fuel (probe d.size (hashOf key) n).1
        (probe d.size (hashOf key) n).2 free).map UInt32.toNat =
      scan (d.posBy hashOf) d.view key fuel (n + 1) (free.map UInt32.toNat) := by
  induction fuel generalizing n free with
  | zero => rfl
  | succ fuel ih =>
    obtain ⟨ep, hep, hview, hok⟩ := h.exists_slot key (n + 1)
    have ih' := ih (n + 1)
    have hidx : (((probe d.size (hashOf key) n).1 <<< 2) + (probe d.size (hashOf key) n).1 +
        (probe d.size (hashOf key) n).2 + 1) &&& (d.size - 1) =
        (probe d.size (hashOf key) (n + 1)).1 := by rw [probe_succ, probeNext]
    have hperturb : (probe d.size (hashOf key) n).2 >>> PERTURB_SHIFT =
        (probe d.size (hashOf key) (n + 1)).2 := by rw [probe_succ, probeNext]
    rw [probeLoop, scan, hview, hidx, hperturb]
    simp only [hep, Keypair.toSlot]
    cases hk : ep.key with
    | null => simp only [Option.map_some, map_getD, toNat_probe]
    | dummy => simp only [ih', map_or, toNat_probe]
    | live s =>
      have hs : ep.hash = hashOf s := by simpa only [Keypair.HashedBy, hk] using hok
      by_cases hsk : s = key
      · simp only [hs, hsk, and_self, if_true, Option.map_some, toNat_probe]
      · simp only [hsk, and_false, if_false, ih']
    | freed => simp only [Keypair.HashedBy, hk] at hok

theorem Hashed.lookup_eq_scan (h : d.Hashed hashOf) (key : CString) (fuel : ℕ) :
    (d.lookup key (hashOf key) fuel).map UInt32.toNat =
      scan (d.posBy hashOf) d.view key (fuel + 1) 0 none := by
  obtain ⟨ep, hep, hview, hok⟩ := h.exists_slot key 0
  have hloop := h.probeLoop_eq_scan key fuel 0
  have hidx : (probe d.size (hashOf key) 0).1 = hashOf key &&& (d.size - 1) := by
    rw [probe_zero]
  have hperturb : (probe d.size (hashOf key) 0).2 = hashOf key := by rw [probe_zero]
  rw [hperturb] at hloop
  rw [lookup, scan, hview, ← hidx]
  simp only [hep, Keypair.toSlot]
  cases hk : ep.key with
  | null => rw [Option.map_some, Option.getD_none, toNat_probe]
  | dummy => simp only [hloop, Option.map_some, Option.none_or, toNat_probe]
  | live s =>
    have hs : ep.hash = hashOf s := by simpa only [Keypair.HashedBy, hk] using hok
    by_cases hsk : s = key
    · simp only [hs, hsk, and_self, if_true, Option.map_some, toNat_probe]
    · simp only [hsk, and_false, if_false, hloop, Option.map_none]
  | freed => simp only [Keypair.HashedBy, hk] at hok

theorem Hashed.lookup_target (h : d.Hashed hashOf)
    (hl : d.lookup key (hashOf key) fuel = some i) :
    Target (d.posBy hashOf) d.view key i.toNat := by
  have hscan := h.lookup_eq_scan key fuel
  rw [hl] at hscan
  exact scan_target scanInv_zero hscan.symm

theorem Hashed.lookup_isSome (h : d.Hashed hashOf) (key : CString)
    (hempty : ∃ j < d.size.toNat, d.view j = .empty) (hfuel : 7 + d.size.toNat ≤ fuel) :
    ∃ i, d.lookup key (hashOf key) fuel = some i := by
  obtain ⟨j, hj, hview⟩ := hempty
  obtain ⟨n, hn, hpos⟩ := exists_probe_eq h.size (hashOf key) hj
  have hstop : d.view (d.posBy hashOf key (0 + n)) = .empty := by
    rw [Nat.zero_add, posBy, hpos, hview]
  have hscan : ∃ i, scan (d.posBy hashOf) d.view key (fuel + 1) 0 none = some i :=
    scan_isSome (fuel + 1) (by omega) (Or.inl hstop)
  obtain ⟨i, hi⟩ := hscan
  rw [← h.lookup_eq_scan] at hi
  obtain ⟨u, hu, _⟩ := Option.map_eq_some_iff.mp hi
  exact ⟨u, hu⟩

/-- The probes for any hash visit every slot of the table. With a never-used slot in the table and
the hash of its own key in each live one, `dict_lookup` comes back, with the slot of the key if the
probes reach it before a never-used slot, else with the first tombstone before that slot, or else
with that slot. -/
theorem Hashed.lookup_spec (h : d.Hashed hashOf) (hnull : ∃ kp ∈ d.table, kp.key = .null)
    (key : CString) :
    (∀ hash, ∀ j < d.size.toNat, ∃ n < 7 + d.size.toNat, (probe d.size hash n).1.toNat = j) ∧
      ∃ i, Fuel.Returns (d.lookup key (hashOf key)) i ∧ i.toNat < d.size.toNat ∧
        Target (d.posBy hashOf) d.view key i.toNat := by
  refine ⟨fun hash j hj => exists_probe_eq h.size hash hj, ?_⟩
  have hempty : ∃ j < d.size.toNat, d.view j = .empty := by
    obtain ⟨kp, hmem, hkey⟩ := hnull
    obtain ⟨j, hj, rfl⟩ := List.mem_iff_getElem.mp hmem
    refine ⟨j, h.length ▸ hj, ?_⟩
    rw [view, List.getElem?_eq_getElem hj]
    simp only [Keypair.toSlot, hkey]
  obtain ⟨i, hi⟩ := h.lookup_isSome key hempty le_rfl
  have ht := h.lookup_target hi
  obtain ⟨n, hn, -⟩ := ht.first_probe
  exact ⟨i, ⟨_, hi⟩, hn ▸ probe_lt h.size (hashOf key) n, ht⟩

/-- A tombstone at the first probe and seven slots that were never used. -/
theorem lookup_spec_reuse :
    (∀ hash, ∀ j < 8, ∃ n < 15, (probe 8 hash n).1.toNat = j) ∧
      ∃ i, Fuel.Returns (Dict.lookup ⟨1, 0, 8, { Keypair.zero with key := .dummy } ::
        List.replicate 7 Keypair.zero⟩ (.ofChars ['a']) 0) i := by
  let d : Dict := ⟨1, 0, 8, { Keypair.zero with key := .dummy } :: List.replicate 7 Keypair.zero⟩
  have h : d.Hashed fun _ => 0 := by
    refine ⟨isTableSize_min, rfl, fun kp hkp => ?_⟩
    rcases List.mem_cons.mp hkp with rfl | hkp
    · trivial
    · rw [(List.mem_replicate.mp hkp).2]
      trivial
  obtain ⟨hall, i, hi, -⟩ := h.lookup_spec ⟨Keypair.zero, by simp [d], rfl⟩ (.ofChars ['a'])
  exact ⟨hall, i, hi⟩

end Hashed

theorem lookup_eq_scan (h : d.Shaped) (key : CString) (fuel : ℕ) :
    (d.lookup key (dictHash key) fuel).map UInt32.toNat =
      scan d.pos d.view key (fuel + 1) 0 none := h.hashed.lookup_eq_scan key fuel

theorem WF.lookup_target (h : d.WF) (hl : d.lookup key (dictHash key) fuel = some i) :
    Target d.pos d.view key i.toNat := h.shaped.hashed.lookup_target hl

theorem Target.lt_size {j : ℕ} (h : d.WF) (ht : Target d.pos d.view key j) : j < d.size.toNat := by
  obtain ⟨n, rfl, _⟩ := ht.first_probe
  exact probe_lt h.size _ n

theorem WF.lookup_isSome (h : d.WF) (key : CString) (hempty : ∃ j < d.size.toNat, d.view j = .empty)
    (hfuel : 7 + d.size.toNat ≤ fuel) : ∃ i, d.lookup key (dictHash key) fuel = some i :=
  h.shaped.hashed.lookup_isSome key hempty hfuel

/-- A live key is always found, whether or not the table has a never-used slot left. -/
theorem WF.lookup_isSome_of_holds {v : Option CString} (h : d.WF) (hk : Holds d.view key v) :
    ∃ fuel i, d.lookup key (dictHash key) fuel = some i := by
  obtain ⟨j, hj⟩ := hk
  obtain ⟨n, hpos, _⟩ := h.reachable j key v hj
  have hstop : ∃ v, d.view (d.pos key (0 + n)) = .live key v :=
    ⟨v, by rw [Nat.zero_add, hpos, hj]⟩
  have hscan : ∃ i, scan d.pos d.view key (n + 1) 0 none = some i :=
    scan_isSome (n + 1) (by omega) (Or.inr hstop)
  obtain ⟨i, hi⟩ := hscan
  rw [← lookup_eq_scan h.shaped] at hi
  obtain ⟨u, hu, _⟩ := Option.map_eq_some_iff.mp hi
  exact ⟨n, u, hu⟩

/-- Without a never-used slot, the lookup of an absent key never ends. -/
theorem WF.lookup_diverges (h : d.WF) (hempty : ∀ j < d.size.toNat, d.view j ≠ .empty)
    (hk : ∀ v, ¬ Holds d.view key v) : Fuel.Diverges (d.lookup key (dictHash key)) := by
  intro fuel
  rw [← Option.map_eq_none_iff, lookup_eq_scan h.shaped]
  exact scan_diverges (fun n => hempty _ (probe_lt h.size _ n)) hk (fuel + 1)

end Dict

end JailFs
