import JailFs.DictTermination

/-!
# The blobs of the dictionary

`dict_add_blob` hands `dict_add_p` the address of its own parameter, and `dict_add_p` stores the
address of its own, so what a slot keeps is an address in a frame that is gone. What the calls do
to the strings does not depend on the blobs: `addP_eraseBlobs` and `del_eraseBlobs` say that erasing
them commutes with every call, so that a dictionary with blobs is one without them, and
`addP_blobsIn` says where the blobs that are left come from.
-/

namespace JailFs

/-- What one call depends on, with the stack address of the parameter `ptr` of `dict_add_blob`. -/
structure BlobEnv extends DictEnv where
  ptrAddr : Addr

namespace Dict

/-- `dict_add_blob`: the pointer itself goes nowhere. -/
def addBlob (env : BlobEnv) (fuel : ℕ) (d : Dict) (key : Option CString) (_ptr : Option Addr) :
    Option (Dict × ℤ) :=
  d.addP env.toDictEnv fuel key none (some env.ptrAddr) env.now true

def addBlobTs (env : BlobEnv) (fuel : ℕ) (d : Dict) (key : Option CString) (_ptr : Option Addr)
    (ts : ℤ) : Option (Dict × ℤ) :=
  d.addP env.toDictEnv fuel key none (some env.ptrAddr) ts true

/-- The blob of the slot that the lookup found is returned whether or not that slot holds the
key. -/
def getBlob (d : Dict) (key : Option CString) (defval : Option Addr) (fuel : ℕ) :
    Option (Option Addr) :=
  match key with
  | none => some defval
  | some key =>
    match d.lookup key (dictHash key) fuel with
    | none => none
    | some i => (d.slot i).map fun kp => kp.blob.or defval

end Dict

def Keypair.eraseBlob (kp : Keypair) : Keypair := { kp with blob := none }

def Dict.eraseBlobs (d : Dict) : Dict := { d with table := d.table.map Keypair.eraseBlob }

/-- The same answers, but for the address of the parameter `blob`. -/
def DictEnv.withBlobAddr (env : DictEnv) (a : Addr) : DictEnv := { env with blobAddr := a }

section Erase

namespace Keypair

@[simp] theorem eraseBlob_key (kp : Keypair) : kp.eraseBlob.key = kp.key := rfl

@[simp] theorem eraseBlob_val (kp : Keypair) : kp.eraseBlob.val = kp.val := rfl

@[simp] theorem eraseBlob_ts (kp : Keypair) : kp.eraseBlob.ts = kp.ts := rfl

@[simp] theorem eraseBlob_hash (kp : Keypair) : kp.eraseBlob.hash = kp.hash := rfl

end Keypair

namespace Dict

@[simp] theorem eraseBlobs_size (d : Dict) : d.eraseBlobs.size = d.size := rfl

@[simp] theorem eraseBlobs_used (d : Dict) : d.eraseBlobs.used = d.used := rfl

@[simp] theorem eraseBlobs_table (d : Dict) :
    d.eraseBlobs.table = d.table.map Keypair.eraseBlob := rfl

@[simp] theorem eraseBlobs_slot (d : Dict) (i : UInt32) :
    d.eraseBlobs.slot i = (d.slot i).map Keypair.eraseBlob := List.getElem?_map ..

theorem probeLoop_eraseBlobs (d : Dict) (key : CString) (hash : UInt32) (fuel : ℕ)
    (i perturb : UInt32) (free : Option UInt32) :
    d.eraseBlobs.probeLoop key hash fuel i perturb free =
      d.probeLoop key hash fuel i perturb free := by
  induction fuel generalizing i perturb free with
  | zero => rfl
  | succ fuel ih =>
    simp only [probeLoop, eraseBlobs_slot, eraseBlobs_size, ih]
    cases d.slot ((i <<< 2 + i + perturb + 1) &&& (d.size - 1)) <;> rfl

theorem lookup_eraseBlobs (d : Dict) (key : CString) (hash : UInt32) (fuel : ℕ) :
    d.eraseBlobs.lookup key hash fuel = d.lookup key hash fuel := by
  simp only [lookup, eraseBlobs_slot, eraseBlobs_size, probeLoop_eraseBlobs]
  cases d.slot (hash &&& (d.size - 1)) <;> rfl

theorem put_eraseBlobs (d : Dict) (i : UInt32) (slot : Keypair) :
    (d.put i slot).eraseBlobs = d.eraseBlobs.put i slot.eraseBlob := by
  simp only [put, eraseBlobs, List.map_set]

theorem eraseBlobs_new : Dict.new.eraseBlobs = Dict.new := by
  simp only [eraseBlobs, Dict.new, List.map_replicate]
  rfl

end Dict

variable {env : DictEnv} {a : Addr} {key : CString} {fuel : ℕ}

/-- The dictionary of a result without its blobs. -/
def eraseResult (r : Dict × ℤ) : Dict × ℤ := (r.1.eraseBlobs, r.2)

/-- A store does to the slot what it would do without a blob, but for the blob. -/
theorem Keypair.store_eraseBlob (env : DictEnv) (a : Addr) (slot : Keypair) (key : CString)
    (val : Option CString) (blob : Option Addr) (ts : ℤ) (copy : Bool) (hash : UInt32) :
    slot.eraseBlob.store (env.withBlobAddr a) key val none ts copy hash =
      ((slot.store env key val blob ts copy hash).1.eraseBlob,
        (slot.store env key val blob ts copy hash).2) := by
  obtain ⟨now, dupKey, dupVal, calloc, blobAddr⟩ := env
  cases copy with
  | false => rfl
  | true => cases dupKey <;> cases val <;> cases dupVal <;> rfl

namespace Dict

theorem rehash_eraseBlobs {add add' : Dict → CString → Option CString → ℤ → Option (Dict × ℤ)}
    (hadd : ∀ d key val ts, add' d.eraseBlobs key val ts = (add d key val ts).map eraseResult)
    (table : List Keypair) (d : Dict) :
    rehash add' (table.map Keypair.eraseBlob) d.eraseBlobs =
      (rehash add table d).map eraseBlobs := by
  induction table generalizing d with
  | nil => rfl
  | cons kp table ih =>
    rw [List.map_cons, rehash, rehash, Keypair.eraseBlob_key]
    cases kp.key with
    | null => exact ih d
    | dummy => exact ih d
    | freed => rfl
    | live s =>
      dsimp only
      rw [Keypair.eraseBlob_val, Keypair.eraseBlob_ts, hadd]
      cases add d s kp.val kp.ts with
      | none => rfl
      | some r => exact ih r.1

theorem resize_eraseBlobs {add add' : Dict → CString → Option CString → ℤ → Option (Dict × ℤ)}
    (hadd : ∀ d key val ts, add' d.eraseBlobs key val ts = (add d key val ts).map eraseResult)
    (d : Dict) (fuel : ℕ) :
    d.eraseBlobs.resize (env.withBlobAddr a) add' fuel =
      (d.resize env add fuel).map eraseResult := by
  have hfactor : d.eraseBlobs.resizeFactor = d.resizeFactor := rfl
  rw [resize, resize, hfactor, eraseBlobs_used, eraseBlobs_size]
  cases growLoop (d.resizeFactor * d.used) fuel d.size with
  | none => rfl
  | some newsize =>
    dsimp only
    have hcalloc : (env.withBlobAddr a).calloc newsize = env.calloc newsize := rfl
    have hgrown : (⟨0, 0, newsize, List.replicate newsize.toNat Keypair.zero⟩ : Dict).eraseBlobs =
        ⟨0, 0, newsize, List.replicate newsize.toNat Keypair.zero⟩ := by
      simp only [eraseBlobs, List.map_replicate]
      rfl
    rw [hcalloc, eraseBlobs_table]
    split_ifs
    · rfl
    · rw [← hgrown, rehash_eraseBlobs hadd, hgrown, Option.map_map, Option.map_map]
      rfl
    · rfl

/-- Erasing the blobs commutes with `dict_add_p`, whatever blob it is given. -/
theorem addP_eraseBlobs (env : DictEnv) (a : Addr) (fuel : ℕ) (d : Dict) (key val : Option CString)
    (blob : Option Addr) (ts : ℤ) (copy : Bool) :
    d.eraseBlobs.addP (env.withBlobAddr a) fuel key val none ts copy =
      (d.addP env fuel key val blob ts copy).map eraseResult := by
  induction fuel generalizing d key val blob ts copy with
  | zero => rfl
  | succ fuel ih =>
    cases key with
    | none => rfl
    | some key =>
      rw [addP, addP, lookup_eraseBlobs]
      dsimp only
      cases d.lookup key (dictHash key) fuel with
      | none => rfl
      | some i =>
        dsimp only
        rw [eraseBlobs_slot]
        cases d.slot i with
        | none => rfl
        | some slot =>
          rw [Option.map_some]
          dsimp only
          rw [Keypair.store_eraseBlob env a slot key val blob ts copy]
          cases slot.store env key val blob ts copy (dictHash key) with
          | mk slot' ok =>
            cases ok with
            | false =>
              simp only [Option.map_some, eraseResult, eraseBlobs, List.map_set]
            | true =>
              have hneeds : (d.eraseBlobs.put i slot'.eraseBlob).needsResize =
                  (d.put i slot').needsResize := rfl
              dsimp only
              rw [hneeds, ← put_eraseBlobs]
              split_ifs
              · rw [resize_eraseBlobs fun d key val ts => ih d (some key) val none ts false]
                cases (d.put i slot').resize env
                    (fun d key val ts => d.addP env fuel (some key) val none ts false) fuel with
                | none => rfl
                | some r => rfl
              · rfl

theorem del_eraseBlobs (d : Dict) (key : Option CString) (fuel : ℕ) :
    d.eraseBlobs.del key fuel = (d.del key fuel).map eraseResult := by
  cases key with
  | none => rfl
  | some key =>
    rw [del, del, lookup_eraseBlobs]
    dsimp only
    cases d.lookup key (dictHash key) fuel with
    | none => rfl
    | some i =>
      dsimp only
      rw [eraseBlobs_slot]
      cases d.slot i with
      | none => rfl
      | some kp =>
        rw [Option.map_some]
        dsimp only
        rw [Keypair.eraseBlob_key]
        split_ifs
        · rfl
        · simp only [Option.map_some, eraseResult, eraseBlobs, List.map_set]
          rfl

end Dict

end Erase

section Origin

variable {S : Addr → Prop} {env : DictEnv} {d d' : Dict} {fuel : ℕ}

/-- Every blob in the table is an address of `S`. -/
def Dict.BlobsIn (d : Dict) (S : Addr → Prop) : Prop :=
  ∀ kp ∈ d.table, ∀ b, kp.blob = some b → S b

theorem Keypair.store_blob (env : DictEnv) (slot : Keypair) (key : CString) (val : Option CString)
    (blob : Option Addr) (ts : ℤ) (copy : Bool) (hash : UInt32) :
    (slot.store env key val blob ts copy hash).1.blob = slot.blob ∨
      blob.isSome ∧ (slot.store env key val blob ts copy hash).1.blob = some env.blobAddr := by
  obtain ⟨now, dupKey, dupVal, calloc, blobAddr⟩ := env
  cases blob with
  | none =>
    left
    cases copy with
    | false => rfl
    | true => cases dupKey <;> cases val <;> cases dupVal <;> rfl
  | some b =>
    cases copy with
    | false => exact .inr ⟨rfl, rfl⟩
    | true =>
      cases dupKey with
      | false => exact .inl rfl
      | true =>
        cases val with
        | none => exact .inr ⟨rfl, rfl⟩
        | some v =>
          cases dupVal with
          | false => exact .inl rfl
          | true => exact .inr ⟨rfl, rfl⟩

namespace Dict

theorem blobsIn_zero (fill used size : UInt32) (n : ℕ) :
    (⟨fill, used, size, List.replicate n Keypair.zero⟩ : Dict).BlobsIn S := by
  intro kp hkp b hb
  rw [List.eq_of_mem_replicate hkp] at hb
  cases hb

theorem blobsIn_new : Dict.new.BlobsIn S := blobsIn_zero 0 0 _ _

theorem BlobsIn.of_slot (h : d.BlobsIn S) {i : UInt32} {slot : Keypair} (hs : d.slot i = some slot)
    {b : Addr} (hb : slot.blob = some b) : S b := h slot (List.mem_of_getElem? hs) b hb

theorem BlobsIn.set (h : d.BlobsIn S) {n : ℕ} {slot : Keypair}
    (hslot : ∀ b, slot.blob = some b → S b) (htable : d'.table = d.table.set n slot) :
    d'.BlobsIn S := by
  intro kp hkp b hb
  rw [htable] at hkp
  rcases List.mem_or_eq_of_mem_set hkp with hkp | rfl
  · exact h kp hkp b hb
  · exact hslot b hb

theorem rehash_blobsIn {add : Dict → CString → Option CString → ℤ → Option (Dict × ℤ)}
    (hadd : ∀ d key val ts r, d.BlobsIn S → add d key val ts = some r → r.1.BlobsIn S)
    {table : List Keypair} (h : d.BlobsIn S) (hr : rehash add table d = some d') :
    d'.BlobsIn S := by
  induction table generalizing d with
  | nil =>
    cases hr
    exact h
  | cons kp table ih =>
    rw [rehash] at hr
    cases hk : kp.key with
    | null =>
      rw [hk] at hr
      exact ih h hr
    | dummy =>
      rw [hk] at hr
      exact ih h hr
    | freed =>
      rw [hk] at hr
      cases hr
    | live s =>
      rw [hk] at hr
      dsimp only at hr
      cases ha : add d s kp.val kp.ts with
      | none =>
        rw [ha] at hr
        cases hr
      | some r =>
        rw [ha] at hr
        exact ih (hadd d s kp.val kp.ts r h ha) hr

theorem resize_blobsIn {add : Dict → CString → Option CString → ℤ → Option (Dict × ℤ)}
    (hadd : ∀ d key val ts r, d.BlobsIn S → add d key val ts = some r → r.1.BlobsIn S)
    (h : d.BlobsIn S) {r : Dict × ℤ} (hr : d.resize env add fuel = some r) : r.1.BlobsIn S := by
  rw [resize] at hr
  cases hg : growLoop (d.resizeFactor * d.used) fuel d.size with
  | none => simp [hg] at hr
  | some newsize =>
    simp only [hg] at hr
    split_ifs at hr
    · cases hr
      exact h
    · obtain ⟨d₁, hd₁, rfl⟩ := Option.map_eq_some_iff.mp hr
      exact rehash_blobsIn hadd (blobsIn_zero 0 0 newsize newsize.toNat) hd₁
    · cases hr
      intro kp hkp
      exact absurd hkp List.not_mem_nil

/-- The only blob that `dict_add_p` stores is the address of its own parameter. -/
theorem addP_blobsIn {key val : Option CString} {blob : Option Addr} {ts : ℤ} {copy : Bool}
    {r : Dict × ℤ} (h : d.BlobsIn S) (hS : blob.isSome → S env.blobAddr)
    (hr : d.addP env fuel key val blob ts copy = some r) : r.1.BlobsIn S := by
  induction fuel generalizing d key val blob ts copy r with
  | zero => cases hr
  | succ fuel ih =>
    cases key with
    | none =>
      cases hr
      exact h
    | some key =>
      rw [addP] at hr
      cases hl : d.lookup key (dictHash key) fuel with
      | none => simp [hl] at hr
      | some i =>
        cases hs : d.slot i with
        | none => simp [hl, hs] at hr
        | some slot =>
          have hstored (b : Addr)
              (hb : (slot.store env key val blob ts copy (dictHash key)).1.blob = some b) :
              S b := by
            rcases slot.store_blob env key val blob ts copy (dictHash key) with hold | ⟨hnew, hself⟩
            · exact h.of_slot hs (hold ▸ hb)
            · rw [hself] at hb
              cases hb
              exact hS hnew
          cases hstore : slot.store env key val blob ts copy (dictHash key) with
          | mk slot' ok =>
            rw [hstore] at hstored
            simp only [hl, hs, hstore] at hr
            cases ok with
            | false =>
              cases hr
              exact h.set hstored rfl
            | true =>
              dsimp only at hr
              have hput : (d.put i slot').BlobsIn S := h.set hstored rfl
              split_ifs at hr
              · cases hresize : (d.put i slot').resize env
                    (fun d key val ts => d.addP env fuel (some key) val none ts false) fuel with
                | none => simp [hresize] at hr
                | some r' =>
                  have hgrown := resize_blobsIn
                    (fun d key val ts r hd hadd => ih hd (fun hnone => by cases hnone) hadd)
                    hput hresize
                  simp only [hresize, Option.some.injEq] at hr
                  cases hr
                  exact hgrown
              · cases hr
                exact hput

theorem del_blobsIn {key : Option CString} {r : Dict × ℤ} (h : d.BlobsIn S)
    (hr : d.del key fuel = some r) : r.1.BlobsIn S := by
  cases key with
  | none =>
    cases hr
    exact h
  | some key =>
    rw [del] at hr
    cases hl : d.lookup key (dictHash key) fuel with
    | none => simp [hl] at hr
    | some i =>
      cases hs : d.slot i with
      | none => simp [hl, hs] at hr
      | some slot =>
        simp only [hl, hs] at hr
        split_ifs at hr
        cases hr
        have htomb (b : Addr)
            (hb : ({ slot with key := .dummy, val := none } : Keypair).blob = some b) : S b :=
          h.of_slot hs hb
        exact h.set htomb rfl

/-- A lookup answers with the default or with a blob of the table. -/
theorem BlobsIn.getBlob {key : Option CString} {defval p : Option Addr} (h : d.BlobsIn S)
    (hr : d.getBlob key defval fuel = some p) : p = defval ∨ ∃ b, S b ∧ p = some b := by
  cases key with
  | none =>
    cases hr
    exact .inl rfl
  | some key =>
    rw [Dict.getBlob] at hr
    cases hl : d.lookup key (dictHash key) fuel with
    | none => simp [hl] at hr
    | some i =>
      simp only [hl] at hr
      obtain ⟨slot, hs, rfl⟩ := Option.map_eq_some_iff.mp hr
      cases hb : slot.blob with
      | none => exact .inl rfl
      | some b => exact .inr ⟨b, h.of_slot hs hb, rfl⟩

end Dict

end Origin

end JailFs
