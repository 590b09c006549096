import JailFs.DictLoad
import JailFs.DictHistory

/-!
# When the calls of the dictionary terminate

`dict_lookup` has no bound of its own: it needs a never-used slot. `DictOp.Safe` is the condition
on one call that leaves such a slot behind and keeps the doubling loop of the next resize below
`2 ^ 31`; along a run of safe calls every next call terminates. Without the condition it may
not: adding and deleting eight keys one after another turns every slot into a tombstone.
-/

namespace JailFs

open OpenAddressing

namespace Dict

section Stability

variable {env : DictEnv} {add add' : Dict → CString → Option CString → ℤ → Option (Dict × ℤ)}

theorem rehash_mono (hadd : ∀ d key val ts r, add d key val ts = some r →
    add' d key val ts = some r) {table : List Keypair} {d d' : Dict}
    (h : rehash add table d = some d') : rehash add' table d = some d' := by
  induction table generalizing d with
  | nil => exact h
  | cons kp table ih =>
    rw [rehash] at h ⊢
    cases hk : kp.key with
    | null =>
      simp only [hk] at h ⊢
      exact ih h
    | dummy =>
      simp only [hk] at h ⊢
      exact ih h
    | freed =>
      simp only [hk] at h
      cases h
    | live s =>
      simp only [hk] at h ⊢
      cases ha : add d s kp.val kp.ts with
      | none => simp [ha] at h
      | some r =>
        rw [hadd _ _ _ _ _ ha]
        simp only [ha] at h
        exact ih h

theorem resize_mono (hadd : ∀ d key val ts r, add d key val ts = some r →
    add' d key val ts = some r) {d : Dict} {fuel : ℕ} {r : Dict × ℤ}
    (h : d.resize env add fuel = some r) : d.resize env add' (fuel + 1) = some r := by
  rw [resize] at h ⊢
  cases hg : growLoop (d.resizeFactor * d.used) fuel d.size with
  | none => simp [hg] at h
  | some newsize =>
    rw [growLoop_stable hg]
    simp only [hg] at h ⊢
    split_ifs at h ⊢ with heq hcalloc
    · exact h
    · obtain ⟨d', hd', hr⟩ := Option.map_eq_some_iff.mp h
      exact Option.map_eq_some_iff.mpr ⟨d', rehash_mono hadd hd', hr⟩
    · exact h

theorem addP_stable (env : DictEnv) (d : Dict) (key val : Option CString) (blob : Option Addr)
    (ts : ℤ) (copy : Bool) : Fuel.Stable fun fuel => d.addP env fuel key val blob ts copy := by
  intro fuel
  induction fuel generalizing d key val blob ts copy with
  | zero =>
    intro r h
    cases h
  | succ fuel ih =>
    intro r h
    cases key with
    | none => exact h
    | some key =>
      dsimp only at h ⊢
      rw [addP] at h ⊢
      cases hl : d.lookup key (dictHash key) fuel with
      | none => simp [hl] at h
      | some i =>
        rw [lookup_stable _ _ _ _ _ hl]
        simp only [hl] at h ⊢
        cases hs : d.slot i with
        | none => simp [hs] at h
        | some slot =>
          simp only [hs] at h ⊢
          cases hstore : slot.store env key val blob ts copy (dictHash key) with
          | mk slot' ok =>
            cases ok with
            | false => simpa only [hstore] using h
            | true =>
              simp only [hstore] at h ⊢
              split_ifs at h ⊢ with hneeds
              · cases hr : (d.put i slot').resize env
                    (fun d key val ts => addP env fuel d (some key) val none ts false) fuel with
                | none => simp [hr] at h
                | some r' =>
                  have hmono : (d.put i slot').resize env (fun d key val ts =>
                      addP env (fuel + 1) d (some key) val none ts false) (fuel + 1) = some r' :=
                    resize_mono (fun d key val ts r hr => ih d _ _ _ _ _ r hr) hr
                  rw [hmono]
                  simpa only [hr] using h
              · exact h

end Stability

section Counters

/-- The counters tell the number of live slots, and every other slot was never used: the state of
a table while it is being filled by a resize. -/
structure Exact (d : Dict) : Prop where
  fill : d.fill = UInt32.ofNat (liveCount d.table)
  used : d.used = UInt32.ofNat (liveCount d.table)
  slots : nullCount d.table + liveCount d.table = d.size.toNat

theorem liveCount_zero (n : ℕ) : liveCount (List.replicate n Keypair.zero) = 0 := by
  rw [liveCount, List.countP_eq_zero]
  intro kp hmem
  rw [List.eq_of_mem_replicate hmem]
  exact Bool.false_ne_true

theorem exact_zero (size : UInt32) :
    (⟨0, 0, size, List.replicate size.toNat Keypair.zero⟩ : Dict).Exact := by
  have hlive := liveCount_zero size.toNat
  have hnull : nullCount (List.replicate size.toNat Keypair.zero) = size.toNat := by
    rw [nullCount, List.countP_eq_length.mpr, List.length_replicate]
    intro kp hmem
    rw [List.eq_of_mem_replicate hmem]
    rfl
  exact ⟨by rw [hlive]; rfl, by rw [hlive]; rfl, by rw [hlive, hnull, Nat.add_zero]⟩

end Counters

end Dict

section Room

variable {l : Load}

theorem factor_toNat (size : UInt32) :
    (if size > DICT_BIGSZ then (2 : UInt32) else 4).toNat =
      if 64000 < size.toNat then 2 else 4 := by
  have hbig : size > DICT_BIGSZ ↔ 64000 < size.toNat := UInt32.lt_iff_toNat_lt
  by_cases h : size > DICT_BIGSZ
  · rw [if_pos h, if_pos (hbig.mp h)]
    rfl
  · rw [if_neg h, if_neg (mt hbig.mpr h)]
    rfl

theorem Load.bound_toNat (hused : l.used = UInt32.ofNat l.live) (hlive : l.live < 2 ^ 30) :
    l.bound.toNat = (if 64000 < l.size.toNat then 2 else 4) * l.live := by
  rw [Load.bound, UInt32.toNat_mul, factor_toNat, hused, UInt32.toNat_ofNat_of_lt' (by
    rw [UInt32.size]
    omega)]
  apply Nat.mod_eq_of_lt
  split_ifs <;> omega

theorem Load.not_grows_of_room (hsize : IsTableSize l.size) (hfill : l.fill = UInt32.ofNat l.live)
    (hused : l.used = UInt32.ofNat l.live) (hlive : l.live < 2 ^ 30)
    (hroom : 2 * l.live ≤ l.size.toNat) : ¬ l.Grows := by
  rintro ⟨hfull, hbound⟩
  obtain ⟨k, _, hlt, hk⟩ := hsize
  rw [UInt32.le_iff_toNat_le, Load.bound_toNat hused hlive] at hbound
  by_cases hk31 : k = 31
  · rw [hk31] at hk
    rw [if_pos (by omega)] at hbound
    omega
  · have hpow : 2 ^ k ≤ 2 ^ 30 := Nat.pow_le_pow_right (by omega) (by omega)
    have hpos : 0 < 2 ^ k := Nat.two_pow_pos k
    have hdouble : (l.size * 2).toNat = 2 * l.size.toNat := by
      rw [UInt32.toNat_mul, show UInt32.toNat 2 = 2 from rfl, Nat.mul_comm]
      exact Nat.mod_eq_of_lt (by omega)
    have htriple : (3 * l.fill).toNat = 3 * l.live := by
      rw [UInt32.toNat_mul, hfill, UInt32.toNat_ofNat_of_lt' (by rw [UInt32.size]; omega)]
      exact Nat.mod_eq_of_lt (by change 3 * l.live < _; omega)
    rw [Load.Full, UInt32.le_iff_toNat_le, hdouble, htriple] at hfull
    omega

theorem Load.resizeEnds_of_room (hused : l.used = UInt32.ofNat l.live) (hlive : l.live < 2 ^ 30)
    (hroom : 2 * l.live ≤ l.size.toNat + 2) : l.ResizeEnds := by
  intro _
  refine ⟨?_, fun _ => hlive⟩
  rw [Load.bound_toNat hused hlive]
  split_ifs with hbig <;> omega

end Room

namespace Dict

variable {d d' : Dict} {env : DictEnv} {key : CString} {fuel : ℕ}

@[simp] theorem put_table (d : Dict) (i : UInt32) (slot : Keypair) :
    (d.put i slot).table = d.table.set i.toNat slot := rfl

theorem WF.load_put (h : d.WF) {i : UInt32} {slot slot' : Keypair}
    (hl : d.lookup key (dictHash key) fuel = some i) (hs : d.slot i = some slot)
    (hlive : slot'.isLive = true) (hnull : slot'.isNull = false) :
    (d.put i slot').load = d.load.stored (d.toMap key).isNone ∧
      (nullCount (d.put i slot').table = nullCount d.table ∨
        d.TakesFresh key ∧ nullCount (d.put i slot').table + 1 = nullCount d.table) := by
  refine ⟨?_, h.nullCount_overwrite hl hs hnull⟩
  have hcount := h.liveCount_overwrite hl hs slot'
  rw [hlive] at hcount
  have hcount' : liveCount (d.put i slot').table =
      liveCount d.table + (d.toMap key).isNone.toNat := by
    rw [put_table]
    cases hm : d.toMap key with
    | none => simpa [hm] using hcount
    | some v => simpa [hm] using hcount
  rw [load, hcount']
  rfl

theorem needsResize_iff : d.needsResize = true ↔ d.load.Full := by
  rw [needsResize, decide_eq_true_eq]
  rfl

theorem resize_bound (d : Dict) : d.resizeFactor * d.used = d.load.bound := rfl

/-- With a never-used slot left, `dict_add_p` gets as far as the test for a resize. -/
theorem WF.addP_put (h : d.WF) (henv : env.NoFail) (hn : 0 < nullCount d.table)
    (hfuel : 7 + d.size.toNat ≤ fuel) (key : CString) (val : Option CString)
    (blob : Option Addr) (ts : ℤ) (copy : Bool) :
    ∃ d₁ : Dict, d₁.WF ∧ d₁.load = d.load.stored (d.toMap key).isNone ∧
      (nullCount d₁.table = nullCount d.table ∨
        d.TakesFresh key ∧ nullCount d₁.table + 1 = nullCount d.table) ∧
      d.addP env (fuel + 1) (some key) val blob ts copy =
        if d₁.needsResize then
          (d₁.resize env (fun d key val ts => addP env fuel d (some key) val none ts false)
            fuel).map fun r => (r.1, if r.2 ≠ 0 then -1 else 0)
        else some (d₁, 0) := by
  obtain ⟨i, hl⟩ := h.lookup_isSome key (h.exists_empty_of_nullCount hn) hfuel
  obtain ⟨_, slot, hs⟩ := h.lookup_slot hl
  obtain ⟨slot', hstore, hok, hslot⟩ := store_spec henv slot key val blob ts copy
  have hkey : slot'.key = .live key :=
    Keypair.holds_iff.mp (Keypair.toSlot_eq_live_iff.mp hslot).1
  have hlive : slot'.isLive = true := by rw [Keypair.isLive, hkey]
  have hnonnull : slot'.isNull = false := by
    rw [Keypair.isNull, hkey]
    rfl
  obtain ⟨hload, hnull⟩ := h.load_put hl hs hlive hnonnull
  refine ⟨d.put i slot', (h.put_spec hl hok hslot).1, hload, hnull, ?_⟩
  rw [addP]
  simp only [hl, hs, hstore]
  split_ifs with hneeds
  · cases (d.put i slot').resize env
      (fun d key val ts => addP env fuel d (some key) val none ts false) fuel <;> rfl
  · rfl

theorem WF.addP_quiet (h : d.WF) (henv : env.NoFail) (hn : 0 < nullCount d.table)
    (hfuel : 7 + d.size.toNat ≤ fuel) (hquiet : ¬ (d.load.stored (d.toMap key).isNone).Grows)
    (val : Option CString) (blob : Option Addr) (ts : ℤ) (copy : Bool) :
    ∃ d', d.addP env (fuel + 1) (some key) val blob ts copy = some (d', 0) ∧
      d'.load = d.load.stored (d.toMap key).isNone ∧
      (nullCount d'.table = nullCount d.table ∨
        d.TakesFresh key ∧ nullCount d'.table + 1 = nullCount d.table) := by
  obtain ⟨d₁, _, hload, hnull, hadd⟩ := h.addP_put henv hn hfuel key val blob ts copy
  refine ⟨d₁, ?_, hload, hnull⟩
  rw [hadd]
  split_ifs with hneeds
  · have hstop : ¬ d₁.size ≤ d₁.load.bound := by
      intro hle
      apply hquiet
      rw [← hload]
      exact ⟨needsResize_iff.mp hneeds, hle⟩
    have hgrow : growLoop (d₁.resizeFactor * d₁.used) fuel d₁.size = some d₁.size := by
      cases fuel with
      | zero => omega
      | succ fuel => rw [growLoop, resize_bound, if_neg hstop]
    rw [resize, hgrow]
    simp only [if_true, Option.map_some]
    rfl
  · rfl

def Room (d : Dict) (keys : ℕ) : Prop :=
  2 * keys ≤ d.size.toNat ∧ keys < 2 ^ 30

theorem Exact.nullCount_pos (h : d.Exact) (hwf : d.WF) (hroom : d.Room (liveCount d.table)) :
    0 < nullCount d.table := by
  have hslots := h.slots
  have hpos := hwf.size.pos
  have hhalf := hroom.1
  omega

theorem Exact.addP (h : d.Exact) (hwf : d.WF) (henv : env.NoFail)
    (hroom : d.Room (liveCount d.table + 1)) (hfuel : 7 + d.size.toNat ≤ fuel)
    (hkey : d.toMap key = none) (val : Option CString) (ts : ℤ) :
    ∃ d', d.addP env (fuel + 1) (some key) val none ts false = some (d', 0) ∧ d'.Exact ∧
      d'.size = d.size ∧ liveCount d'.table = liveCount d.table + 1 := by
  obtain ⟨hhalf, hlt⟩ := hroom
  have hn : 0 < nullCount d.table := h.nullCount_pos hwf ⟨by omega, by omega⟩
  have hnew : (d.toMap key).isNone = true := by rw [hkey]; rfl
  have hquiet : ¬ (d.load.stored (d.toMap key).isNone).Grows := by
    rw [hnew]
    apply Load.not_grows_of_room hwf.size _ _ hlt hhalf
    · exact (congrArg (· + 1) h.fill).trans (UInt32.ofNat_add _ 1).symm
    · exact (congrArg (· + 1) h.used).trans (UInt32.ofNat_add _ 1).symm
  obtain ⟨d', hadd, hload, hnull⟩ := hwf.addP_quiet henv hn hfuel hquiet val none ts false
  rw [hnew] at hload
  have hsize : d'.size = d.size := congrArg Load.size hload
  have hlive : liveCount d'.table = liveCount d.table + 1 := congrArg Load.live hload
  have hfill : d'.fill = d.fill + 1 := congrArg Load.fill hload
  have hused : d'.used = d.used + 1 := congrArg Load.used hload
  have hle := (addP_spec henv hwf hadd).2.1.nullCount_add_liveCount_le
  have hslots := h.slots
  refine ⟨d', hadd, ⟨?_, ?_, ?_⟩, hsize, hlive⟩
  · rw [hfill, h.fill, hlive]
    exact (UInt32.ofNat_add _ 1).symm
  · rw [hused, h.used, hlive]
    exact (UInt32.ofNat_add _ 1).symm
  · rw [hsize] at hle ⊢
    rcases hnull with hsame | ⟨_, hone⟩ <;> omega

theorem liveCount_cons (kp : Keypair) (table : List Keypair) :
    liveCount (kp :: table) = liveCount table + kp.isLive.toNat := by
  rw [liveCount, List.countP_cons]
  cases kp.isLive <;> rfl

theorem rehash_returns (henv : env.NoFail) {table : List Keypair} (h : d.Exact) (hwf : d.WF)
    (hok : ∀ kp ∈ table, kp.Ok) (hdistinct : KeysDistinct table)
    (hnew : ∀ key, tableMap table key ≠ none → d.toMap key = none)
    (hroom : d.Room (liveCount d.table + liveCount table)) (hfuel : 7 + d.size.toNat ≤ fuel) :
    ∃ d', rehash (fun d key val ts => addP env (fuel + 1) d (some key) val none ts false)
        table d = some d' ∧ d'.Exact ∧ d'.size = d.size ∧
      liveCount d'.table = liveCount d.table + liveCount table := by
  induction table generalizing d with
  | nil => exact ⟨d, rfl, h, rfl, rfl⟩
  | cons kp table ih =>
    have htail : KeysDistinct table := (List.pairwise_cons.mp hdistinct).2
    have hokTail : ∀ kp ∈ table, kp.Ok := fun kp hmem => hok kp (List.mem_cons_of_mem _ hmem)
    rw [liveCount_cons] at hroom ⊢
    have hskip (hkp : kp.isLive = false) :
        ∃ d', rehash (fun d key val ts => addP env (fuel + 1) d (some key) val none ts false)
            table d = some d' ∧ d'.Exact ∧ d'.size = d.size ∧
          liveCount d'.table = liveCount d.table + (liveCount table + kp.isLive.toNat) := by
      rw [hkp] at hroom ⊢
      refine ih h hwf hokTail htail (fun key hkey => hnew key ?_) hroom hfuel
      rw [tableMap_cons]
      split_ifs
      · exact Option.some_ne_none _
      · exact hkey
    unfold rehash
    cases hk : kp.key with
    | null => exact hskip (by rw [Keypair.isLive, hk])
    | dummy => exact hskip (by rw [Keypair.isLive, hk])
    | freed =>
      have := hok kp List.mem_cons_self
      simp only [Keypair.Ok, hk] at this
    | live s =>
      have hlive : kp.isLive = true := by rw [Keypair.isLive, hk]
      have hs : kp.holds s := Keypair.holds_iff.mpr hk
      have hone : kp.isLive.toNat = 1 := by rw [hlive]; rfl
      have habs : d.toMap s = none := hnew s (by
        rw [tableMap_cons, if_pos hs]
        exact Option.some_ne_none _)
      rw [hone] at hroom ⊢
      obtain ⟨hhalf, hlt⟩ := hroom
      obtain ⟨d₁, hadd, hexact, hsize, hcount⟩ :=
        h.addP hwf henv ⟨by omega, by omega⟩ hfuel habs kp.val kp.ts
      obtain ⟨_, hwf₁, hmap₁⟩ := addP_spec henv hwf hadd
      obtain ⟨d', hrest, hexact', hsize', hcount'⟩ := ih hexact hwf₁ hokTail htail (by
          intro key hkey
          have hne : key ≠ s := by
            rintro rfl
            exact hkey (tableMap_eq_none_of_distinct hdistinct hs)
          rw [hmap₁, Function.update_of_ne hne]
          apply hnew key
          rw [tableMap_cons]
          split_ifs
          · exact Option.some_ne_none _
          · exact hkey)
        ⟨by rw [hsize]; omega, by omega⟩ (by rw [hsize]; exact hfuel)
      refine ⟨d', ?_, hexact', hsize'.trans hsize, by omega⟩
      simp only [hadd]
      exact hrest

theorem WF.liveCount_le (h : d.WF) : liveCount d.table ≤ d.size.toNat := by
  rw [← h.length]
  exact List.countP_le_length

/-- A resize whose doubling ends also ends its rehash, in a table at most half full. -/
theorem WF.resize_returns (h : d.WF) (henv : env.NoFail) (hends : d.load.ResizeEnds)
    (hgrows : d.load.Grows) (hfuel : 2 ^ 32 ≤ fuel + 2) :
    ∃ d', d.resize env (fun d key val ts => addP env (fuel + 1) d (some key) val none ts false)
        (fuel + 1) = some (d', 0) ∧ d'.Exact ∧ d'.Room (liveCount d'.table) ∧
      liveCount d'.table = liveCount d.table := by
  obtain ⟨hfull, hle⟩ := hgrows
  obtain ⟨hbound, hlive⟩ := hends hfull
  have hfuel₁ : 32 ≤ fuel + 1 := by omega
  obtain ⟨newsize, hg, _, hdouble⟩ := h.size.growLoop_returns hbound hfuel₁
  have htwice := hdouble hle
  have hpos := h.size.pos
  have hne : newsize ≠ d.size := by
    intro heq
    rw [heq] at htwice
    change d.size.toNat * 2 ≤ d.size.toNat at htwice
    omega
  have hnew : IsTableSize newsize := growLoop_isTableSize h.size hg
  have hnewlt : newsize.toNat ≤ 2 ^ 31 := hnew.le
  have hzero := exact_zero newsize
  have hhalf := h.liveCount_le
  have hlivelt : liveCount d.table < 2 ^ 30 := hlive hle
  change d.size.toNat * 2 ≤ newsize.toNat at htwice
  let grown : Dict := ⟨0, 0, newsize, List.replicate newsize.toNat Keypair.zero⟩
  have hroom : grown.Room (liveCount grown.table + liveCount d.table) := by
    rw [liveCount_zero, Nat.zero_add]
    exact ⟨by change _ ≤ newsize.toNat; omega, hlivelt⟩
  have hfuel' : 7 + grown.size.toNat ≤ fuel := by
    change 7 + newsize.toNat ≤ fuel
    omega
  obtain ⟨d', hr, hexact, hsize, hcount⟩ := rehash_returns henv hzero (wf_zero hnew) h.slots
    h.keysDistinct (fun key _ => congrFun (tableMap_zero newsize.toNat) key) hroom hfuel'
  rw [liveCount_zero, Nat.zero_add] at hcount
  refine ⟨d', ?_, hexact, ⟨?_, ?_⟩, hcount⟩
  · rw [resize, resize_bound]
    rw [hg]
    simp only [if_neg hne, henv.calloc, if_true]
    rw [hr]
    rfl
  · rw [hcount, hsize]
    change _ ≤ newsize.toNat
    omega
  · rw [hcount]
    exact hlivelt

/-- A never-used slot, and nothing in the way of the resize that the next store may call for. -/
structure Ready (d : Dict) : Prop where
  wf : d.WF
  neverUsed : 0 < nullCount d.table
  ends : (d.load.stored true).ResizeEnds

/-- The two ways an add can end, with enough fuel: in a grown table or in the old one. -/
theorem Ready.addP_returns (h : d.Ready) (henv : env.NoFail) (hfuel : 2 ^ 32 ≤ fuel)
    (key : CString) (val : Option CString) (blob : Option Addr) (ts : ℤ) (copy : Bool) :
    ∃ d', d.addP env fuel (some key) val blob ts copy = some (d', 0) ∧
      ((d.load.stored (d.toMap key).isNone).Grows ∧ d'.Exact ∧ d'.Room (liveCount d'.table) ∧
          liveCount d'.table = (d.load.stored (d.toMap key).isNone).live ∨
        ¬ (d.load.stored (d.toMap key).isNone).Grows ∧
          d'.load = d.load.stored (d.toMap key).isNone ∧
          (nullCount d'.table = nullCount d.table ∨
            d.TakesFresh key ∧ nullCount d'.table + 1 = nullCount d.table)) := by
  have hsize : d.size.toNat ≤ 2 ^ 31 := h.wf.size.le
  obtain ⟨fuel, rfl⟩ : ∃ n, fuel = n + 2 := ⟨fuel - 2, by omega⟩
  have hprobe : 7 + d.size.toNat ≤ fuel + 1 := by omega
  by_cases hgrows : (d.load.stored (d.toMap key).isNone).Grows
  · obtain ⟨d₁, hwf₁, hload, _, hadd⟩ :=
      h.wf.addP_put henv h.neverUsed hprobe key val blob ts copy
    have hends : d₁.load.ResizeEnds := by
      rw [hload]
      exact h.ends.of_stored _
    rw [← hload] at hgrows ⊢
    obtain ⟨d', hr, hexact, hroom, hlive⟩ := hwf₁.resize_returns henv hends hgrows hfuel
    refine ⟨d', ?_, Or.inl ⟨hgrows, hexact, hroom, hlive⟩⟩
    rw [hadd, if_pos (needsResize_iff.mpr hgrows.1), hr]
    rfl
  · obtain ⟨d', hadd, hload, hnull⟩ :=
      h.wf.addP_quiet henv h.neverUsed hprobe hgrows val blob ts copy
    exact ⟨d', hadd, Or.inr ⟨hgrows, hload, hnull⟩⟩

/-- The next call on the dictionary terminates, whatever its key: there is a never-used slot to
end the probing, and the doubling of the next resize ends at a size that is not zero. -/
structure Responsive (d : Dict) : Prop where
  neverUsed : ∃ kp ∈ d.table, kp.key = .null
  add : ∀ env key val, env.NoFail → Fuel.Terminates fun fuel => d.add env fuel key val
  addTs : ∀ env key val ts, env.NoFail → Fuel.Terminates fun fuel => d.addTs env fuel key val ts
  get : ∀ key defval, Fuel.Terminates fun fuel => d.get key defval fuel
  del : ∀ key, Fuel.Terminates fun fuel => d.del key fuel
  doubling : ∀ i slot, (d.put i slot).needsResize = true → ∃ newsize, newsize ≠ 0 ∧
    Fuel.Returns (fun fuel => growLoop ((d.put i slot).resizeFactor * (d.put i slot).used) fuel
      d.size) newsize

theorem Ready.lookup (h : d.Ready) (key : CString) :
    ∃ fuel i, d.lookup key (dictHash key) fuel = some i :=
  ⟨7 + d.size.toNat, h.wf.lookup_isSome key (h.wf.exists_empty_of_nullCount h.neverUsed) le_rfl⟩

theorem Ready.addP_terminates (h : d.Ready) (henv : env.NoFail) (key val : Option CString)
    (blob : Option Addr) (ts : ℤ) (copy : Bool) :
    Fuel.Terminates fun fuel => d.addP env fuel key val blob ts copy := by
  cases key with
  | none => exact ⟨(d, -1), 1, rfl⟩
  | some key =>
    obtain ⟨d', hadd, _⟩ := h.addP_returns henv (le_refl (2 ^ 32)) key val blob ts copy
    exact ⟨(d', 0), 2 ^ 32, hadd⟩

theorem Ready.responsive (h : d.Ready) : d.Responsive where
  neverUsed := by
    obtain ⟨kp, hmem, hkey⟩ := List.countP_pos_iff.mp h.neverUsed
    exact ⟨kp, hmem, by simpa [Keypair.isNull] using hkey⟩
  add := fun env key val henv => h.addP_terminates henv key val none _ true
  addTs := fun env key val ts henv => h.addP_terminates henv key val none ts true
  get := by
    intro key defval
    cases key with
    | none => exact ⟨defval, 0, rfl⟩
    | some key =>
      obtain ⟨fuel, i, hl⟩ := h.lookup key
      exact ⟨_, fuel, h.wf.get_isSome hl defval⟩
  del := by
    intro key
    cases key with
    | none => exact ⟨(d, -1), 0, rfl⟩
    | some key =>
      obtain ⟨fuel, i, hl⟩ := h.lookup key
      obtain ⟨slot, _, hd⟩ := h.wf.del_isSome hl
      exact ⟨_, fuel, hd⟩
  doubling := by
    intro i slot hneeds
    obtain ⟨hbound, _⟩ := h.ends (needsResize_iff.mp hneeds)
    obtain ⟨newsize, hg, hgt, _⟩ := h.wf.size.growLoop_returns hbound le_rfl
    refine ⟨newsize, ?_, 32, hg⟩
    rintro rfl
    exact absurd hgt (UInt32.not_lt.mpr (UInt32.zero_le))

end Dict

section Safe

variable {d d' : Dict} {env : DictEnv} {key : CString}

/-- An add that leaves the dictionary ready for the next call: it grows the table, or does not
take the last never-used slot and the store after it will not overflow the doubling. -/
def Dict.AddSafe (d : Dict) (key : CString) : Prop :=
  let l := d.load.stored (d.toMap key).isNone
  if l.Grows then l.live + 1 < 2 ^ 30
  else (d.TakesFresh key → 2 ≤ nullCount d.table) ∧ (l.stored true).ResizeEnds

/-- A delete writes a tombstone over a never-used slot when the key is absent, and lowers `used`
even then. -/
def Dict.DelSafe (d : Dict) (key : CString) : Prop :=
  (d.TakesFresh key → 2 ≤ nullCount d.table) ∧
    ((d.load.deleted (d.toMap key).isSome).stored true).ResizeEnds

def DictOp.Safe (d : Dict) : DictOp → Prop
  | add key _ => d.AddSafe key
  | addTs key _ _ => d.AddSafe key
  | get _ _ => True
  | del key => d.DelSafe key

/-- A safe call that returns. -/
def DictOp.SafeStep (d : Dict) (op : DictOp) (d' : Dict) : Prop := op.Safe d ∧ op.Step d d'

theorem Dict.ready_new : Dict.new.Ready where
  wf := wf_new
  neverUsed := by decide
  ends := by decide

theorem Dict.WF.load_del (h : d.WF) {fuel : ℕ} {rc : ℤ}
    (hd : d.del (some key) fuel = some (d', rc)) :
    d'.load = d.load.deleted (d.toMap key).isSome ∧
      (nullCount d'.table = nullCount d.table ∨
        d.TakesFresh key ∧ nullCount d'.table + 1 = nullCount d.table) := by
  obtain ⟨i, slot, hl, hs, -, rfl⟩ := h.del_cases hd
  let tomb : Keypair := { slot with key := .dummy, val := none }
  refine ⟨?_, h.nullCount_overwrite hl hs rfl⟩
  have hcount := h.liveCount_overwrite hl hs tomb
  have htomb : tomb.isLive.toNat = 0 := rfl
  rw [htomb] at hcount
  have hlive : liveCount (d.table.set i.toNat tomb) =
      liveCount d.table - (d.toMap key).isSome.toNat := by omega
  rw [Dict.load, hlive]
  rfl

theorem nullCount_pos_of_fresh {before after : ℕ} {fresh : Prop} (hpos : 0 < before)
    (h : after = before ∨ fresh ∧ after + 1 = before) (hsafe : fresh → 2 ≤ before) : 0 < after := by
  rcases h with hsame | ⟨hfresh, hone⟩
  · omega
  · have := hsafe hfresh
    omega

theorem Dict.Ready.addP_safe (h : d.Ready) (henv : env.NoFail) (hsafe : d.AddSafe key) {fuel : ℕ}
    {val : Option CString} {blob : Option Addr} {ts rc : ℤ} {copy : Bool}
    (ha : d.addP env fuel (some key) val blob ts copy = some (d', rc)) : d'.Ready := by
  have hwf := (Dict.addP_spec henv h.wf ha).2.1
  obtain ⟨d₁, hadd, hcases⟩ :=
    h.addP_returns henv (le_max_right fuel (2 ^ 32)) key val blob ts copy
  have heq : d₁ = d' := by
    have hmore := (Dict.addP_stable env d (some key) val blob ts copy).le
      (le_max_left fuel (2 ^ 32)) ha
    exact congrArg Prod.fst (Option.some.inj (hadd.symm.trans hmore))
  subst heq
  rw [Dict.AddSafe] at hsafe
  rcases hcases with ⟨hgrows, hexact, hroom, hlive⟩ | ⟨hquiet, hload, hnull⟩
  · rw [if_pos hgrows, ← hlive] at hsafe
    refine ⟨hwf, hexact.nullCount_pos hwf hroom, ?_⟩
    apply Load.resizeEnds_of_room
    · exact (congrArg (· + 1) hexact.used).trans (UInt32.ofNat_add _ 1).symm
    · exact hsafe
    · change 2 * (liveCount d₁.table + 1) ≤ d₁.size.toNat + 2
      have hhalf := hroom.1
      omega
  · rw [if_neg hquiet] at hsafe
    exact ⟨hwf, nullCount_pos_of_fresh h.neverUsed hnull hsafe.1, by rw [hload]; exact hsafe.2⟩

theorem Dict.Ready.step {op : DictOp} (h : d.Ready) (hsafe : op.Safe d) (hstep : op.Step d d') :
    d'.Ready := by
  have hwf := (Dict.step_spec h.wf hstep).1
  obtain ⟨env, fuel, henv, happly⟩ := hstep
  cases op with
  | add key val =>
    obtain ⟨⟨d₁, rc⟩, hr, rfl⟩ := Option.map_eq_some_iff.mp happly
    exact h.addP_safe henv hsafe hr
  | addTs key val ts =>
    obtain ⟨⟨d₁, rc⟩, hr, rfl⟩ := Option.map_eq_some_iff.mp happly
    exact h.addP_safe henv hsafe hr
  | get key defval =>
    obtain ⟨r, hr, rfl⟩ := Option.map_eq_some_iff.mp happly
    exact h
  | del key =>
    obtain ⟨⟨d₁, rc⟩, hr, rfl⟩ := Option.map_eq_some_iff.mp happly
    obtain ⟨hload, hnull⟩ := h.wf.load_del hr
    exact ⟨hwf, nullCount_pos_of_fresh h.neverUsed hnull hsafe.1, by rw [hload]; exact hsafe.2⟩

/-- Along every run of safe calls, the next call terminates. -/
theorem Dict.responsive_of_safe {ops : List DictOp}
    (hrun : Exec DictOp.SafeStep Dict.new ops d) : d.Responsive :=
  (hrun.invariant Dict.ready_new fun _ _ _ h hstep => h.step hstep.1 hstep.2).responsive

/-- A delete of an absent key and an add are safe in a new dictionary. -/
theorem Dict.responsive_of_safe_two : ∃ d, Exec DictOp.SafeStep Dict.new
    [.del (.ofChars ['z']), .add (.ofChars ['a']) none] d ∧ d.Responsive := by
  let del : DictOp := .del (.ofChars ['z'])
  let add : DictOp := .add (.ofChars ['a']) none
  let d₁ := (del.apply DictEnv.plain 20 Dict.new).getD Dict.new
  let d₂ := (add.apply DictEnv.plain 20 d₁).getD Dict.new
  have hdel : del.apply DictEnv.plain 20 Dict.new = some d₁ := by decide +kernel
  have hadd : add.apply DictEnv.plain 20 d₁ = some d₂ := by decide +kernel
  have hsafe : add.Safe d₁ := by
    have hquiet : ¬ (d₁.load.stored (d₁.toMap (.ofChars ['a'])).isNone).Grows := by
      decide +kernel
    change d₁.AddSafe (.ofChars ['a'])
    rw [AddSafe, if_neg hquiet]
    exact ⟨fun _ => by decide +kernel, by decide +kernel⟩
  have hstep₁ : DictOp.SafeStep Dict.new del d₁ :=
    ⟨⟨fun _ => by decide, by decide +kernel⟩, _, _, DictEnv.plain_noFail, hdel⟩
  have hstep₂ : DictOp.SafeStep d₁ add d₂ := ⟨hsafe, _, _, DictEnv.plain_noFail, hadd⟩
  have hrun : Exec DictOp.SafeStep Dict.new [del, add] d₂ := Exec.cons hstep₁ (Exec.single hstep₂)
  exact ⟨d₂, hrun, Dict.responsive_of_safe hrun⟩

/-- Adding and deleting these keys one after another, a key for each residue of the hash. -/
def Dict.churn : List DictOp :=
  [.add (.ofChars ['e']) none, .del (.ofChars ['e']),
    .add (.ofChars ['c']) none, .del (.ofChars ['c']),
    .add (.ofChars ['a']) none, .del (.ofChars ['a']),
    .add (.ofChars ['b']) none, .del (.ofChars ['b']),
    .add (.ofChars ['7']) none, .del (.ofChars ['7']),
    .add (.ofChars ['d']) none, .del (.ofChars ['d']),
    .add (.ofChars ['f']) none, .del (.ofChars ['f']),
    .add (.ofChars ['i']) none, .del (.ofChars ['i'])]

/-- After the churn every slot is a tombstone, and `dict_get` never returns. -/
theorem Dict.churn_diverges : ∃ d, Dict.Run Dict.churn d ∧ ¬ d.Responsive ∧
    Fuel.Diverges (d.get (some (.ofChars ['z'])) none) := by
  let d := (Dict.eval 40 Dict.churn).getD Dict.new
  have heval : Dict.eval 40 Dict.churn = some d := by decide +kernel
  have hrun : Dict.Run Dict.churn d := Dict.run_of_eval heval
  have hdummy : ∀ kp ∈ d.table, kp.key = .dummy := by decide +kernel
  have habs : d.toMap (.ofChars ['z']) = none := by decide +kernel
  have hwf : d.WF := (run_wf_and_map hrun).1
  have hfull : ¬ ∃ kp ∈ d.table, kp.key = .null := by
    rintro ⟨kp, hmem, hkey⟩
    rw [hdummy kp hmem] at hkey
    cases hkey
  refine ⟨d, hrun, fun h => hfull h.neverUsed, fun fuel => ?_⟩
  have hlookup := Fuel.not_terminates_iff.mp (mt (hwf.lookup_terminates_iff habs).mp hfull)
  unfold Dict.get
  simp only [hlookup fuel]

end Safe

end JailFs
