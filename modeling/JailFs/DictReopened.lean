import JailFs.DictTermination

/-!
# A tombstone that becomes a never-used slot

When the copy of its key fails, `dict_add_p` leaves a slot without a key. Where that slot was a
tombstone that no key is probed for past, nothing can tell the two dictionaries apart: every call
does the same to both (`Reopened.step`).
-/

namespace JailFs

open OpenAddressing

theorem Keypair.store_key (slot : Keypair) (k : KeyPtr) (env : DictEnv) (key : CString)
    (val : Option CString) (blob : Option Addr) (ts : ℤ) (copy : Bool) (hash : UInt32) :
    ({ slot with key := k } : Keypair).store env key val blob ts copy hash =
      slot.store env key val blob ts copy hash := by
  unfold store
  cases copy with
  | false => rfl
  | true => cases env.dupKey <;> cases val <;> cases env.dupVal <;> rfl

namespace Dict

variable {d d' d₁ : Dict} {env : DictEnv} {fuel : ℕ} {key : CString} {val : Option CString}

/-- The key of the slot at `t` is `NULL` now. -/
def withoutKey (d : Dict) (t : ℕ) (slot : Keypair) : Dict :=
  { d with table := d.table.set t { slot with key := .null } }

/-- `d'` is `d` with a tombstone, past which no key is probed for, made a slot never used. -/
def Reopened (d d' : Dict) : Prop :=
  ∃ t kp, d.table[t]? = some kp ∧ kp.key = .dummy ∧ (∀ key, ¬ PassesOver d.pos d.view key t) ∧
    d' = d.withoutKey t kp

section Reopened

theorem withoutKey_pos (d : Dict) (t : ℕ) (slot : Keypair) :
    (d.withoutKey t slot).pos = d.pos := rfl

theorem view_withoutKey {t : ℕ} {slot : Keypair} (hs : d.table[t]? = some slot) :
    (d.withoutKey t slot).view = Function.update d.view t .empty := by
  have htable : (d.withoutKey t slot).table = d.table.set t { slot with key := .null } := rfl
  exact view_of_set (List.getElem?_eq_some_iff.mp hs).1 htable

theorem WF.withoutKey_shaped (h : d.WF) {t : ℕ} {slot : Keypair} (hs : d.table[t]? = some slot)
    (hkey : slot.key = .dummy) : (d.withoutKey t slot).Shaped where
  size := h.size
  length := by
    rw [withoutKey, List.length_set]
    exact h.length
  slots := by
    intro kp hmem
    rcases List.mem_or_eq_of_mem_set hmem with hold | rfl
    · exact h.slots kp hold
    · have hok : slot.Ok := h.slots slot (List.mem_of_getElem? hs)
      simpa only [Keypair.Ok, hkey] using hok

theorem view_of_dummy {t : ℕ} {kp : Keypair} (hs : d.table[t]? = some kp)
    (hkey : kp.key = .dummy) : d.view t = .tomb := by
  rw [view, hs]
  simp only [Keypair.toSlot, hkey]

theorem WF.exists_lookup (h : d.WF) {i : UInt32} (ht : Target d.pos d.view key i.toNat) :
    ∃ fuel, d.lookup key (dictHash key) fuel = some i := by
  obtain ⟨fuel, hscan⟩ := ht.exists_scan
  rw [← lookup_eq_scan h.shaped] at hscan
  obtain ⟨j, hj, hij⟩ := Option.map_eq_some_iff.mp hscan
  exact ⟨fuel, by rw [hj, UInt32.toNat_inj.mp hij]⟩

theorem Reopened.spec (h : d.WF) (hr : d.Reopened d') :
    d'.WF ∧ d'.toMap = d.toMap ∧ ∀ key fuel i, d.lookup key (dictHash key) fuel = some i →
      ∃ fuel', d'.lookup key (dictHash key) fuel' = some i := by
  obtain ⟨t, kp, hs, hkey, hover, rfl⟩ := hr
  have htomb := view_of_dummy hs hkey
  have hview := view_withoutKey hs
  have hshaped := h.withoutKey_shaped hs hkey
  have hwf : (d.withoutKey t kp).WF := by
    refine ⟨hshaped.size, hshaped.length, hshaped.slots, ?_⟩
    rw [hview]
    exact h.reachable.clear hover
  refine ⟨hwf, hwf.toMap_eq fun key v => ?_, fun key fuel i hl => ?_⟩
  · rw [hview, holds_clear (fun k v => by rw [htomb]; simp), h.toMap_eq_some_iff]
  · apply hwf.exists_lookup
    rw [hview]
    exact (h.lookup_target hl).clear htomb (hover key)

theorem Reopened.slot_eq (hr : d.Reopened d') {i : UInt32} {slot : Keypair}
    (hs : d.slot i = some slot) : ∃ k, d'.slot i = some { slot with key := k } := by
  obtain ⟨t, kp, hkp, -, -, rfl⟩ := hr
  have hlt := (List.getElem?_eq_some_iff.mp hkp).1
  by_cases hit : t = i.toNat
  · refine ⟨.null, ?_⟩
    subst hit
    rw [Dict.slot, withoutKey, List.getElem?_set_self hlt]
    rw [Dict.slot, hkp] at hs
    cases hs
    rfl
  · refine ⟨slot.key, ?_⟩
    rw [Dict.slot, withoutKey, List.getElem?_set_ne hit]
    exact hs

/-- Overwriting the same slot in both dictionaries makes them equal, or leaves the reopened slot. -/
theorem Reopened.overwrite (h : d.WF) (hr : d.Reopened d') {i : UInt32} (new : Keypair)
    (hl : d.lookup key (dictHash key) fuel = some i)
    (hnew : new.toSlot = .tomb ∨ ∃ v, new.toSlot = .live key v) (fill used : UInt32) :
    let put (d : Dict) : Dict :=
      { d with table := d.table.set i.toNat new, fill := fill, used := used }
    put d' = put d ∨ (put d).Reopened (put d') := by
  obtain ⟨t, kp, hs, hkey, hover, rfl⟩ := hr
  have htomb := view_of_dummy hs hkey
  dsimp only
  by_cases hit : t = i.toNat
  · left
    rw [hit, withoutKey, List.set_set]
  · right
    have hlt := (h.lookup_slot hl).1
    have ht := h.lookup_target hl
    refine ⟨t, kp, ?_, hkey, fun key' => ?_, ?_⟩
    · rw [List.getElem?_set_ne (Ne.symm hit)]
      exact hs
    · have hview : ({ d with table := d.table.set i.toNat new, fill := fill, used := used } :
          Dict).view = Function.update d.view i.toNat new.toSlot := view_of_set hlt rfl
      rw [hview]
      rcases hnew with htomb' | ⟨v, hlive⟩
      · rw [htomb']
        exact PassesOver.of_bury (hover key')
      · rw [hlive]
        exact PassesOver.of_insert ht htomb hover
    · rw [withoutKey, withoutKey, List.set_comm _ _ hit]

theorem rehash_set_vacant {add : Dict → CString → Option CString → ℤ → Option (Dict × ℤ)}
    {table : List Keypair} {t : ℕ} {kp : Keypair} (hs : table[t]? = some kp)
    (hkey : kp.key = .dummy) (d : Dict) :
    rehash add (table.set t { kp with key := .null }) d = rehash add table d := by
  induction table generalizing t d with
  | nil => cases hs
  | cons kp' table ih =>
    cases t with
    | zero =>
      rw [List.getElem?_cons_zero, Option.some.injEq] at hs
      subst hs
      rw [List.set_cons_zero, rehash, rehash, hkey]
    | succ t =>
      rw [List.getElem?_cons_succ] at hs
      rw [List.set_cons_succ, rehash, rehash]
      cases hk : kp'.key with
      | null => exact ih hs d
      | dummy => exact ih hs d
      | freed => rfl
      | live s =>
        cases ha : add d s kp'.val kp'.ts with
        | none => simp only [ha]
        | some r =>
          simp only [ha]
          exact ih hs r.1

theorem Reopened.resize (hr : d.Reopened d') {rc : ℤ}
    {add : Dict → CString → Option CString → ℤ → Option (Dict × ℤ)}
    (hres : d.resize env add fuel = some (d₁, rc)) :
    ∃ d₁', d'.resize env add fuel = some (d₁', rc) ∧ (d₁' = d₁ ∨ d₁.Reopened d₁') := by
  have hr' := hr
  obtain ⟨t, kp, hs, hkey, hover, rfl⟩ := hr
  have hgrow : growLoop ((d.withoutKey t kp).resizeFactor * (d.withoutKey t kp).used) fuel
      (d.withoutKey t kp).size = growLoop (d.resizeFactor * d.used) fuel d.size := rfl
  have hsize : (d.withoutKey t kp).size = d.size := rfl
  rw [Dict.resize] at hres ⊢
  rw [hgrow]
  cases hg : growLoop (d.resizeFactor * d.used) fuel d.size with
  | none => simp [hg] at hres
  | some newsize =>
    simp only [hg, hsize] at hres ⊢
    split_ifs at hres ⊢ with heq hcalloc
    · cases hres
      exact ⟨_, rfl, .inr hr'⟩
    · rw [withoutKey, rehash_set_vacant hs hkey]
      exact ⟨_, hres, .inl rfl⟩
    · cases hres
      exact ⟨_, rfl, .inl rfl⟩

theorem Reopened.put (h : d.WF) (hr : d.Reopened d') {i : UInt32} {slot : Keypair}
    {v : Option CString} (hl : d.lookup key (dictHash key) fuel = some i)
    (hslot : slot.toSlot = .live key v) :
    d'.put i slot = d.put i slot ∨ (d.put i slot).Reopened (d'.put i slot) := by
  have hput := hr.overwrite h _ hl (.inr ⟨v, hslot⟩) (d.fill + 1) (d.used + 1)
  obtain ⟨t, kp, -, -, -, rfl⟩ := hr
  exact hput

theorem Reopened.addP (h : d.WF) (hr : d.Reopened d') (henv : env.NoFail)
    {blob : Option Addr} {ts rc : ℤ} {copy : Bool}
    (ha : d.addP env fuel (some key) val blob ts copy = some (d₁, rc)) :
    ∃ fuel' d₁', d'.addP env fuel' (some key) val blob ts copy = some (d₁', rc) ∧
      (d₁' = d₁ ∨ d₁.Reopened d₁') := by
  cases fuel with
  | zero => cases ha
  | succ fuel =>
    cases hl : d.lookup key (dictHash key) fuel with
    | none => simp [Dict.addP, hl] at ha
    | some i =>
      obtain ⟨fuel', hl'⟩ := (hr.spec h).2.2 key fuel i hl
      obtain ⟨-, slot, hs⟩ := h.lookup_slot hl
      obtain ⟨k, hs'⟩ := hr.slot_eq hs
      obtain ⟨new, hstore, -, hslot⟩ := store_spec henv slot key val blob ts copy
      have hput := hr.put h hl hslot
      -- enough fuel for both lookups
      have hlong := (lookup_stable d key _).le (Nat.le_add_right fuel fuel') hl
      have hlong' := (lookup_stable d' key _).le (Nat.le_add_left fuel' fuel) hl'
      replace ha := (addP_stable env d (some key) val blob ts copy).le
        (show fuel + 1 ≤ fuel + fuel' + 1 by omega) ha
      refine ⟨fuel + fuel' + 1, ?_⟩
      rw [Dict.addP] at ha ⊢
      simp only [hlong, hs, hstore] at ha
      simp only [hlong', hs', Keypair.store_key, hstore]
      rcases hput with heq | hput
      · rw [heq]
        exact ⟨d₁, ha, .inl rfl⟩
      · have hneeds : (d'.put i new).needsResize = (d.put i new).needsResize := by
          obtain ⟨t, kp, -, -, -, heq⟩ := hput
          rw [heq]
          rfl
        rw [hneeds]
        split_ifs at ha ⊢
        · cases hres : (d.put i new).resize env (fun d key val ts =>
              Dict.addP env (fuel + fuel') d (some key) val none ts false) (fuel + fuel') with
          | none => simp [hres] at ha
          | some r =>
            obtain ⟨d₂, rc₂⟩ := r
            obtain ⟨d₂', hres', hkept⟩ := hput.resize hres
            simp only [hres, Option.some.injEq, Prod.mk.injEq] at ha
            obtain ⟨rfl, rfl⟩ := ha
            simp only [hres']
            exact ⟨d₂', rfl, hkept⟩
        · cases ha
          exact ⟨_, rfl, .inr hput⟩

/-- Whatever a call does to the dictionary, it does to the one with the reopened slot. -/
theorem Reopened.step (h : d.WF) (hr : d.Reopened d') {op : DictOp} (hstep : op.Step d d₁) :
    ∃ d₁', op.Step d' d₁' ∧ (d₁' = d₁ ∨ d₁.Reopened d₁') := by
  obtain ⟨env, fuel, henv, happly⟩ := hstep
  cases op with
  | add key val =>
    obtain ⟨⟨d₁, rc⟩, ha, rfl⟩ := Option.map_eq_some_iff.mp happly
    obtain ⟨fuel', d₁', ha', hkept⟩ := hr.addP h henv ha
    exact ⟨d₁', ⟨env, fuel', henv, congrArg (Option.map Prod.fst) ha'⟩, hkept⟩
  | addTs key val ts =>
    obtain ⟨⟨d₁, rc⟩, ha, rfl⟩ := Option.map_eq_some_iff.mp happly
    obtain ⟨fuel', d₁', ha', hkept⟩ := hr.addP h henv ha
    exact ⟨d₁', ⟨env, fuel', henv, congrArg (Option.map Prod.fst) ha'⟩, hkept⟩
  | get key defval =>
    obtain ⟨r, hget, rfl⟩ := Option.map_eq_some_iff.mp happly
    obtain ⟨hwf', -, hlook⟩ := hr.spec h
    cases hl : d.lookup key (dictHash key) fuel with
    | none => simp [get, hl] at hget
    | some i =>
      obtain ⟨fuel', hl'⟩ := hlook key fuel i hl
      refine ⟨d', ⟨env, fuel', henv, ?_⟩, .inr hr⟩
      exact congrArg (Option.map fun _ => d') (hwf'.get_isSome hl' defval)
  | del key =>
    obtain ⟨⟨d₁, rc⟩, hd, rfl⟩ := Option.map_eq_some_iff.mp happly
    obtain ⟨i, slot, hl, hs, -, rfl⟩ := h.del_cases hd
    obtain ⟨hwf', -, hlook⟩ := hr.spec h
    obtain ⟨fuel', hl'⟩ := hlook key fuel i hl
    obtain ⟨slot', hs', hdel⟩ := hwf'.del_isSome hl'
    obtain ⟨k, hk⟩ := hr.slot_eq hs
    rw [hs', Option.some.injEq] at hk
    subst hk
    refine ⟨_, ⟨env, fuel', henv, congrArg (Option.map Prod.fst) hdel⟩, ?_⟩
    have hkept := hr.overwrite h { slot with key := .dummy, val := none } hl
      (.inl rfl) d.fill (d.used - 1)
    obtain ⟨t, kp, -, -, -, rfl⟩ := hr
    exact hkept

end Reopened

end Dict

end JailFs
