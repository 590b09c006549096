import JailFs.DictProbe

/-!
# The dictionary as a finite map

`Dict.toMap` reads a dictionary as a map from keys to values, where a value may be `NULL`. Each
operation keeps the invariant `Dict.WF` and acts on this map as its specification says, through
every collision, reused tombstone and rehash; `run_wf_and_map` is the resulting refinement for a
whole sequence of calls. The proofs of `dict_add_p` and `dict_resize` go by induction on the fuel,
so that a resize inside a resize needs no argument of its own.
-/

namespace JailFs

open OpenAddressing

abbrev StringMap := CString → Option (Option CString)

def Keypair.holds (kp : Keypair) (key : CString) : Bool := kp.key = .live key

def tableMap (table : List Keypair) : StringMap := fun key =>
  (table.find? fun kp => kp.holds key).map Keypair.val

def Dict.toMap (d : Dict) : StringMap := tableMap d.table

namespace DictOp

/-- What a call does to the map. A `NULL` value leaves the value of a present key as it is. -/
def effect (m : StringMap) : DictOp → StringMap
  | add key val => Function.update m key (some (val.or (m key).join))
  | addTs key val _ => Function.update m key (some (val.or (m key).join))
  | get _ _ => m
  | del key => Function.update m key none

def addsKey (op : DictOp) (key : CString) : Bool :=
  match op with
  | add k _ => k = key
  | addTs k _ _ => k = key
  | _ => false

def delsKey (op : DictOp) (key : CString) : Bool :=
  match op with
  | del k => k = key
  | _ => false

end DictOp

/-- The map that a sequence of calls describes. -/
def mapOf (ops : List DictOp) : StringMap := ops.foldl DictOp.effect fun _ => none

theorem mapOf_snoc (ops : List DictOp) (op : DictOp) :
    mapOf (ops ++ [op]) = op.effect (mapOf ops) := List.foldl_concat ..

theorem mapOf_add (key : CString) (val : Option CString) :
    mapOf [.add key val] key = some val := by
  rw [mapOf, List.foldl_cons, List.foldl_nil, DictOp.effect, Function.update_self]
  exact congrArg some (Option.or_none ..)

/-- The keys of a table are pairwise different. -/
def KeysDistinct (table : List Keypair) : Prop :=
  table.Pairwise fun a b => ∀ key, a.holds key → ¬ b.holds key

section Slots

variable {kp : Keypair} {key : CString} {v : Option CString}

theorem Keypair.holds_iff : kp.holds key ↔ kp.key = .live key := by
  rw [Keypair.holds, decide_eq_true_eq]

theorem Keypair.toSlot_eq_live_iff :
    kp.toSlot = .live key v ↔ kp.holds key ∧ kp.val = v := by
  rw [Keypair.holds_iff, Keypair.toSlot]
  cases kp.key <;> simp

theorem Keypair.toSlot_eq_empty_iff : kp.toSlot = .empty ↔ kp.key = .null := by
  unfold Keypair.toSlot
  cases kp.key <;> simp

theorem Keypair.Ok.val_eq_none (h : kp.Ok) (hlive : ∀ key, ¬ kp.holds key) : kp.val = none := by
  cases hk : kp.key with
  | null => simpa only [Keypair.Ok, hk] using h
  | dummy => simpa only [Keypair.Ok, hk] using h
  | live s => exact absurd (Keypair.holds_iff.mpr hk) (hlive s)
  | freed => simp only [Keypair.Ok, hk] at h

end Slots

namespace Dict

variable {d d' : Dict} {key : CString} {v : Option CString}

theorem view_eq_live_iff {i : ℕ} :
    d.view i = .live key v ↔ ∃ kp, d.table[i]? = some kp ∧ kp.holds key ∧ kp.val = v := by
  unfold view
  cases d.table[i]? with
  | none => simp
  | some kp => simp [Keypair.toSlot_eq_live_iff]

theorem WF.keysDistinct (h : d.WF) : KeysDistinct d.table := by
  rw [KeysDistinct, List.pairwise_iff_getElem]
  intro i j hi hj hij key hki hkj
  have hvi : d.view i = .live key d.table[i].val :=
    view_eq_live_iff.mpr ⟨_, List.getElem?_eq_getElem hi, hki, rfl⟩
  have hvj : d.view j = .live key d.table[j].val :=
    view_eq_live_iff.mpr ⟨_, List.getElem?_eq_getElem hj, hkj, rfl⟩
  have := h.reachable.index_unique hvi hvj
  omega

theorem exists_holds_of_toMap (h : d.toMap key = some v) : Holds d.view key v := by
  rw [toMap, tableMap, Option.map_eq_some_iff] at h
  obtain ⟨kp, hfind, hval⟩ := h
  obtain ⟨i, hi, rfl⟩ := List.getElem_of_mem (List.mem_of_find?_eq_some hfind)
  have hkey := List.find?_some hfind
  exact ⟨i, view_eq_live_iff.mpr ⟨_, List.getElem?_eq_getElem hi, hkey, hval⟩⟩

theorem toMap_isSome_of_holds (h : Holds d.view key v) : (d.toMap key).isSome = true := by
  obtain ⟨i, hi⟩ := h
  obtain ⟨kp, hkp, hkey, _⟩ := view_eq_live_iff.mp hi
  rw [toMap, tableMap, Option.isSome_map, List.find?_isSome]
  exact ⟨kp, List.mem_of_getElem? hkp, hkey⟩

/-- A well-formed dictionary holds exactly the bindings of its map. -/
theorem WF.toMap_eq_some_iff (h : d.WF) : d.toMap key = some v ↔ Holds d.view key v := by
  refine ⟨exists_holds_of_toMap, ?_⟩
  rintro hv
  obtain ⟨w, hw⟩ := Option.isSome_iff_exists.mp (toMap_isSome_of_holds hv)
  rw [hw, h.reachable.value_unique hv (exists_holds_of_toMap hw)]

theorem WF.toMap_eq_none_iff (h : d.WF) : d.toMap key = none ↔ ∀ v, ¬ Holds d.view key v := by
  constructor
  · intro hnone v hv
    rw [h.toMap_eq_some_iff.mpr hv] at hnone
    cases hnone
  · intro hno
    cases hmap : d.toMap key with
    | none => rfl
    | some v => exact absurd (h.toMap_eq_some_iff.mp hmap) (hno v)

/-- A map with the same bindings as a well-formed dictionary is the map of that dictionary. -/
theorem WF.toMap_eq (h : d.WF) {m : StringMap}
    (hm : ∀ key v, Holds d.view key v ↔ m key = some v) : d.toMap = m := by
  funext key
  apply Option.ext
  intro v
  rw [h.toMap_eq_some_iff]
  exact hm key v

theorem view_of_set {kp : Keypair} {n : ℕ} (hn : n < d.table.length)
    (ht : d'.table = d.table.set n kp) : d'.view = Function.update d.view n kp.toSlot := by
  funext i
  rw [view, ht]
  by_cases hi : i = n
  · subst hi
    rw [List.getElem?_set_self hn, Function.update_self]
  · rw [List.getElem?_set_ne (Ne.symm hi), Function.update_of_ne hi, view]

/-- Storing a good slot keeps the invariant when the abstract table stays reachable. -/
theorem WF.of_set {kp : Keypair} {n : ℕ} (h : d.WF) (hn : n < d.table.length)
    (hsize : d'.size = d.size) (ht : d'.table = d.table.set n kp) (hok : kp.Ok)
    (hr : Reachable d.pos (Function.update d.view n kp.toSlot)) : d'.WF where
  size := by rw [hsize]; exact h.size
  length := by rw [ht, hsize, List.length_set, h.length]
  slots := by
    rw [ht]
    intro kp' hmem
    rcases List.mem_or_eq_of_mem_set hmem with hold | rfl
    · exact h.slots kp' hold
    · exact hok
  reachable := by
    have hpos : d'.pos = d.pos := by
      funext key n
      rw [pos, pos, hsize]
    rw [hpos, view_of_set hn ht]
    exact hr

theorem wf_zero {newsize : UInt32} (h : IsTableSize newsize) :
    (⟨0, 0, newsize, List.replicate newsize.toNat Keypair.zero⟩ : Dict).WF where
  size := h
  length := List.length_replicate
  slots := by
    intro kp hmem
    rw [List.eq_of_mem_replicate hmem]
    exact Keypair.zero_ok
  reachable := by
    intro i key v hi
    obtain ⟨kp, hkp, hkey, _⟩ := view_eq_live_iff.mp hi
    rw [List.eq_of_mem_replicate (List.mem_of_getElem? hkp)] at hkey
    cases hkey

theorem tableMap_zero (n : ℕ) : tableMap (List.replicate n Keypair.zero) = fun _ => none := by
  funext key
  rw [tableMap, Option.map_eq_none_iff, List.find?_eq_none]
  intro kp hmem
  rw [List.eq_of_mem_replicate hmem]
  simp [Keypair.holds, Keypair.zero]

theorem wf_new : Dict.new.WF := wf_zero isTableSize_min

theorem toMap_new : Dict.new.toMap = fun _ => none := tableMap_zero _

section Lookup

variable {fuel : ℕ} {i : UInt32} {slot : Keypair}

theorem view_of_slot (hs : d.slot i = some slot) : d.view i.toNat = slot.toSlot := by
  unfold Dict.slot at hs
  rw [view, hs]

/-- The slot that `dict_lookup` finds has the value of the key, `NULL` for an absent one. -/
theorem WF.lookup_val (h : d.WF) (hl : d.lookup key (dictHash key) fuel = some i)
    (hs : d.slot i = some slot) : slot.val = (d.toMap key).join := by
  have hok : slot.Ok := h.slots slot (List.mem_of_getElem? hs)
  have hview := view_of_slot hs
  rcases h.reachable.target_cases (h.lookup_target hl) with ⟨v, hv⟩ | ⟨hfree, hno⟩
  · rw [h.toMap_eq_some_iff.mpr ⟨i.toNat, hv⟩, Option.join_some]
    rw [hview] at hv
    exact (Keypair.toSlot_eq_live_iff.mp hv).2
  · rw [h.toMap_eq_none_iff.mpr hno, Option.join_none]
    apply hok.val_eq_none
    intro s hs
    rw [hview, Keypair.toSlot_eq_live_iff.mpr ⟨hs, rfl⟩] at hfree
    rcases hfree with he | ht
    · cases he
    · cases ht

theorem WF.lookup_slot (h : d.WF) (hl : d.lookup key (dictHash key) fuel = some i) :
    i.toNat < d.table.length ∧ ∃ slot, d.slot i = some slot := by
  have hlt := Target.lt_size h (h.lookup_target hl)
  obtain ⟨slot, hslot, _⟩ := h.shaped.exists_slot hlt
  exact ⟨by rw [h.length]; exact hlt, slot, hslot⟩

/-- `dict_get` answers with the value of a present key, and with `NULL` for an absent one. -/
theorem WF.get_eq (h : d.WF) {defval r : Option CString}
    (hr : d.get (some key) defval fuel = some r) : r = (d.toMap key).join := by
  rw [get] at hr
  cases hl : d.lookup key (dictHash key) fuel with
  | none => simp [hl] at hr
  | some i =>
    obtain ⟨_, slot, hs⟩ := h.lookup_slot hl
    simp only [hl, hs, Option.map_some, Option.some.injEq] at hr
    rw [← hr, h.lookup_val hl hs]

theorem WF.get_isSome (h : d.WF) (hl : d.lookup key (dictHash key) fuel = some i)
    (defval : Option CString) : d.get (some key) defval fuel = some (d.toMap key).join := by
  obtain ⟨_, slot, hs⟩ := h.lookup_slot hl
  simp only [get, hl, hs, Option.map_some, h.lookup_val hl hs]

theorem WF.del_isSome (h : d.WF) (hl : d.lookup key (dictHash key) fuel = some i) :
    ∃ slot, d.slot i = some slot ∧ d.del (some key) fuel = some
      ({ d with table := d.table.set i.toNat { slot with key := .dummy, val := none },
                used := d.used - 1 }, 0) := by
  obtain ⟨_, slot, hs⟩ := h.lookup_slot hl
  have hok : slot.Ok := h.slots slot (List.mem_of_getElem? hs)
  have hfreed : slot.key ≠ .freed := by
    intro hk
    simp only [Keypair.Ok, hk] at hok
  refine ⟨slot, hs, ?_⟩
  unfold del
  simp only [hl, hs, if_neg hfreed]

theorem WF.del_cases (h : d.WF) {rc : ℤ} (hd : d.del (some key) fuel = some (d', rc)) :
    ∃ i slot, d.lookup key (dictHash key) fuel = some i ∧ d.slot i = some slot ∧ rc = 0 ∧
      d' = { d with table := d.table.set i.toNat { slot with key := .dummy, val := none },
                    used := d.used - 1 } := by
  cases hl : d.lookup key (dictHash key) fuel with
  | none => simp [del, hl] at hd
  | some i =>
    obtain ⟨slot, hs, hdel⟩ := h.del_isSome hl
    rw [hdel] at hd
    cases hd
    exact ⟨i, slot, rfl, hs, rfl, rfl⟩

theorem WF.del_spec (h : d.WF) {rc : ℤ} (hd : d.del (some key) fuel = some (d', rc)) :
    rc = 0 ∧ d'.WF ∧ d'.toMap = Function.update d.toMap key none := by
  obtain ⟨i, slot, hl, hs, hrc, rfl⟩ := h.del_cases hd
  obtain ⟨hlt, _⟩ := h.lookup_slot hl
  have ht := h.lookup_target hl
  let tomb : Keypair := { slot with key := .dummy, val := none }
  have hslot : tomb.toSlot = .tomb := rfl
  let d' : Dict := { d with table := d.table.set i.toNat tomb, used := d.used - 1 }
  have htable : d'.table = d.table.set i.toNat tomb := rfl
  have hwf : d'.WF := h.of_set hlt rfl htable rfl (by
    rw [hslot]
    exact h.reachable.bury _)
  refine ⟨hrc, hwf, hwf.toMap_eq fun key' v => ?_⟩
  rw [view_of_set hlt htable, hslot, h.reachable.holds_bury ht, ← h.toMap_eq_some_iff]
  by_cases hk : key' = key
  · simp [hk]
  · simp [hk]

end Lookup

section Add

variable {env : DictEnv}

/-- With the copies made, the stores of `dict_add_p` give the slot the key and the value. -/
theorem store_ok (hkey : env.dupKey = true) {val : Option CString}
    (hval : val.isSome = true → env.dupVal = true) (slot : Keypair) (key : CString)
    (blob : Option Addr) (ts : ℤ) (copy : Bool) :
    ∃ slot', slot.store env key val blob ts copy (dictHash key) = (slot', true) ∧ slot'.Ok ∧
      slot'.toSlot = .live key (if copy then val.or slot.val else val) := by
  cases copy with
  | false => exact ⟨_, rfl, rfl, rfl⟩
  | true =>
    simp only [Keypair.store, hkey, if_true]
    cases val with
    | none => exact ⟨_, rfl, rfl, rfl⟩
    | some v =>
      rw [hval rfl]
      exact ⟨_, rfl, rfl, rfl⟩

theorem store_spec (henv : env.NoFail) (slot : Keypair) (key : CString) (val : Option CString)
    (blob : Option Addr) (ts : ℤ) (copy : Bool) :
    ∃ slot', slot.store env key val blob ts copy (dictHash key) = (slot', true) ∧ slot'.Ok ∧
      slot'.toSlot = .live key (if copy then val.or slot.val else val) :=
  store_ok henv.dupKey (fun _ => henv.dupVal) slot key blob ts copy

/-- The table after the slot was written, before any resize. -/
theorem WF.put_spec (h : d.WF) {fuel : ℕ} {i : UInt32} {slot : Keypair}
    (hl : d.lookup key (dictHash key) fuel = some i) (hok : slot.Ok)
    (hslot : slot.toSlot = .live key v) :
    (d.put i slot).WF ∧ (d.put i slot).toMap = Function.update d.toMap key (some v) := by
  obtain ⟨hlt, _⟩ := h.lookup_slot hl
  have ht := h.lookup_target hl
  have htable : (d.put i slot).table = d.table.set i.toNat slot := rfl
  have hwf : (d.put i slot).WF := h.of_set hlt rfl htable hok (by
    rw [hslot]; exact h.reachable.insert ht)
  refine ⟨hwf, hwf.toMap_eq fun key' v' => ?_⟩
  rw [view_of_set hlt htable, hslot, h.reachable.holds_insert ht, ← h.toMap_eq_some_iff]
  by_cases hk : key' = key
  · subst hk
    simp [eq_comm]
  · simp [hk]

theorem growLoop_zero (bound : UInt32) (fuel : ℕ) : growLoop bound fuel 0 = none := by
  induction fuel with
  | zero => rfl
  | succ fuel ih =>
    rw [growLoop, if_pos (by simp), UInt32.zero_mul]
    exact ih

theorem IsTableSize.double {size : UInt32} (h : IsTableSize size) :
    size * 2 = 0 ∨ IsTableSize (size * 2) := by
  obtain ⟨k, h3, hlt, hk⟩ := h
  have hmul : (size * 2).toNat = 2 ^ (k + 1) % 2 ^ 32 := by
    rw [UInt32.toNat_mul, hk, pow_succ]
    rfl
  by_cases hk31 : k = 31
  · left
    rw [← UInt32.toNat_inj, hmul, hk31]
    rfl
  · right
    refine ⟨k + 1, by omega, by omega, ?_⟩
    rw [hmul, Nat.mod_eq_of_lt (Nat.pow_lt_pow_right (by omega) (by omega))]

theorem growLoop_isTableSize {bound size newsize : UInt32} {fuel : ℕ} (h : IsTableSize size)
    (hg : growLoop bound fuel size = some newsize) : IsTableSize newsize := by
  induction fuel generalizing size with
  | zero => cases hg
  | succ fuel ih =>
    rw [growLoop] at hg
    by_cases hle : size ≤ bound
    · rw [if_pos hle] at hg
      rcases IsTableSize.double h with hzero | hdouble
      · rw [hzero, growLoop_zero] at hg
        cases hg
      · exact ih hdouble hg
    · rw [if_neg hle] at hg
      cases hg
      exact h

theorem tableMap_cons (kp : Keypair) (table : List Keypair) (key : CString) :
    tableMap (kp :: table) key = if kp.holds key then some kp.val else tableMap table key := by
  rw [tableMap, List.find?_cons]
  cases kp.holds key <;> rfl

theorem tableMap_eq_none_of_distinct {kp : Keypair} {table : List Keypair}
    (hd : KeysDistinct (kp :: table)) (hkey : kp.holds key) : tableMap table key = none := by
  rw [tableMap, Option.map_eq_none_iff, List.find?_eq_none]
  intro kp' hmem
  exact (List.pairwise_cons.mp hd).1 kp' hmem key hkey

variable {add : Dict → CString → Option CString → ℤ → Option (Dict × ℤ)}

/-- What the rehash loop needs of the `dict_add_p` it calls. -/
def AddsKeys (add : Dict → CString → Option CString → ℤ → Option (Dict × ℤ)) : Prop :=
  ∀ d key val ts d' rc, d.WF → add d key val ts = some (d', rc) →
    d'.WF ∧ d'.toMap = Function.update d.toMap key (some val)

theorem rehash_spec (hadd : AddsKeys add) {table : List Keypair} (h : d.WF)
    (hd : KeysDistinct table) (hr : rehash add table d = some d') :
    d'.WF ∧ ∀ key, d'.toMap key = (tableMap table key).or (d.toMap key) := by
  induction table generalizing d with
  | nil =>
    cases hr
    exact ⟨h, fun key => rfl⟩
  | cons kp table ih =>
    have htail : KeysDistinct table := (List.pairwise_cons.mp hd).2
    rw [rehash] at hr
    have hskip (hkp : ∀ key, ¬ kp.holds key) (hr : rehash add table d = some d') :
        d'.WF ∧ ∀ key, d'.toMap key = (tableMap (kp :: table) key).or (d.toMap key) := by
      obtain ⟨hwf, hmap⟩ := ih h htail hr
      refine ⟨hwf, fun key => ?_⟩
      rw [hmap, tableMap_cons, if_neg (hkp key)]
    cases hk : kp.key with
    | null => exact hskip (fun key => by simp [Keypair.holds, hk]) (by simpa only [hk] using hr)
    | dummy => exact hskip (fun key => by simp [Keypair.holds, hk]) (by simpa only [hk] using hr)
    | freed => simp only [hk] at hr; cases hr
    | live s =>
      simp only [hk] at hr
      cases ha : add d s kp.val kp.ts with
      | none => simp [ha] at hr
      | some r =>
        obtain ⟨d₁, rc⟩ := r
        simp only [ha] at hr
        obtain ⟨hwf₁, hmap₁⟩ := hadd d s kp.val kp.ts d₁ rc h ha
        obtain ⟨hwf, hmap⟩ := ih hwf₁ htail hr
        refine ⟨hwf, fun key => ?_⟩
        have hs : kp.holds s := Keypair.holds_iff.mpr hk
        rw [hmap, tableMap_cons, hmap₁]
        by_cases hkey : key = s
        · subst hkey
          rw [if_pos hs, tableMap_eq_none_of_distinct hd hs, Function.update_self]
          rfl
        · have hno : ¬ kp.holds key := by
            rw [Keypair.holds_iff, hk]
            intro heq
            cases heq
            exact hkey rfl
          rw [if_neg hno, Function.update_of_ne hkey]

/-- A resize changes neither the invariant nor the map. -/
theorem resize_spec (henv : env.NoFail) (hadd : AddsKeys add) {fuel : ℕ} {rc : ℤ} (h : d.WF)
    (hr : d.resize env add fuel = some (d', rc)) : rc = 0 ∧ d'.WF ∧ d'.toMap = d.toMap := by
  rw [resize] at hr
  cases hg : growLoop (d.resizeFactor * d.used) fuel d.size with
  | none => simp [hg] at hr
  | some newsize =>
    simp only [hg, henv.calloc, if_true] at hr
    split_ifs at hr with heq
    · cases hr
      exact ⟨rfl, h, rfl⟩
    · obtain ⟨d₁, hd₁, hpair⟩ := Option.map_eq_some_iff.mp hr
      cases hpair
      obtain ⟨hwf, hmap⟩ :=
        rehash_spec hadd (wf_zero (growLoop_isTableSize h.size hg)) h.keysDistinct hd₁
      refine ⟨rfl, hwf, funext fun key => ?_⟩
      rw [hmap, toMap, tableMap_zero]
      exact Option.or_none

/-- `dict_add_p` binds the key. The induction is on the fuel: the `dict_add_p` that a resize
calls runs with less of it. -/
theorem addP_spec (henv : env.NoFail) {fuel : ℕ} {val : Option CString} {blob : Option Addr}
    {ts rc : ℤ} {copy : Bool} (h : d.WF)
    (ha : d.addP env fuel (some key) val blob ts copy = some (d', rc)) :
    rc = 0 ∧ d'.WF ∧ d'.toMap =
      Function.update d.toMap key (some (if copy then val.or (d.toMap key).join else val)) := by
  induction fuel generalizing d d' key val blob ts copy rc with
  | zero => cases ha
  | succ fuel ih =>
    rw [addP] at ha
    cases hl : d.lookup key (dictHash key) fuel with
    | none => simp [hl] at ha
    | some i =>
      obtain ⟨hlt, slot, hs⟩ := h.lookup_slot hl
      obtain ⟨slot', hstore, hok, hslot⟩ := store_spec henv slot key val blob ts copy
      rw [h.lookup_val hl hs] at hslot
      obtain ⟨hwf, hmap⟩ := h.put_spec hl hok hslot
      simp only [hl, hs, hstore] at ha
      split_ifs at ha with hneeds
      · cases hr : (d.put i slot').resize env
            (fun d key val ts => addP env fuel d (some key) val none ts false) fuel with
        | none => simp [hr] at ha
        | some r =>
          obtain ⟨d₁, rc₁⟩ := r
          have hadd : AddsKeys
              (fun d key val ts => addP env fuel d (some key) val none ts false) := by
            intro d key val ts d' rc hd hr
            have hspec := ih hd hr
            exact ⟨hspec.2.1, by simpa using hspec.2.2⟩
          obtain ⟨hrc, hwf₁, hmap₁⟩ := resize_spec henv hadd hwf hr
          simp only [hr, hrc, ne_eq, not_true_eq_false, if_false, Option.some.injEq,
            Prod.mk.injEq] at ha
          obtain ⟨rfl, rfl⟩ := ha
          exact ⟨rfl, hwf₁, hmap₁.trans hmap⟩
      · simp only [Option.some.injEq, Prod.mk.injEq] at ha
        obtain ⟨rfl, rfl⟩ := ha
        exact ⟨rfl, hwf, hmap⟩

end Add

/-- One returning call keeps the invariant and acts on the map as it should. -/
theorem step_spec {op : DictOp} (h : d.WF) (hstep : op.Step d d') :
    d'.WF ∧ d'.toMap = op.effect d.toMap := by
  obtain ⟨env, fuel, henv, happly⟩ := hstep
  cases op with
  | add key val =>
    obtain ⟨⟨d₁, rc⟩, hr, rfl⟩ := Option.map_eq_some_iff.mp happly
    exact (addP_spec henv h hr).2
  | addTs key val ts =>
    obtain ⟨⟨d₁, rc⟩, hr, rfl⟩ := Option.map_eq_some_iff.mp happly
    exact (addP_spec henv h hr).2
  | get key defval =>
    obtain ⟨r, hr, rfl⟩ := Option.map_eq_some_iff.mp happly
    exact ⟨h, rfl⟩
  | del key =>
    obtain ⟨⟨d₁, rc⟩, hr, rfl⟩ := Option.map_eq_some_iff.mp happly
    exact (h.del_spec hr).2

/-- The dictionary refines the map that its history describes. -/
theorem run_wf_and_map {ops : List DictOp} (hrun : Dict.Run ops d) :
    d.WF ∧ d.toMap = mapOf ops := by
  refine hrun.history_invariant (I := fun ops d => d.WF ∧ d.toMap = mapOf ops)
    ⟨wf_new, toMap_new⟩ ?_
  rintro ops d op d' ⟨hwf, hmap⟩ hstep
  obtain ⟨hwf', hmap'⟩ := step_spec hwf hstep
  exact ⟨hwf', by rw [hmap', hmap, mapOf_snoc]⟩

end Dict

end JailFs
