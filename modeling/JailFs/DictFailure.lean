import JailFs.DictReopened

/-!
# `dict_add` when an allocation fails

`dict_add_p` overwrites a slot, and `dict_resize` the table pointer, before it knows that the
allocation succeeded. What is left does no harm where the slot had no key and no other key is
probed for past it; in every other case the dictionary has lost a key, refers to freed memory or
has no table.
-/

namespace JailFs

open OpenAddressing

namespace Dict

variable {d d' d₁ : Dict} {env : DictEnv} {fuel : ℕ} {key : CString} {val : Option CString}

/-- What a call that fails should leave of a dictionary: every answer of `dict_get`, no slot that
refers to freed memory, and a dictionary that every sequence of further calls can go on with. -/
structure FailureSafe (d d' : Dict) : Prop where
  answers : ∀ key defval r, Fuel.Returns (d.get (some key) defval) r →
    Fuel.Returns (d'.get (some key) defval) r
  noFreed : ∀ kp ∈ d'.table, kp.key ≠ .freed
  goesOn : ∀ ops d₁, Exec DictOp.Step d ops d₁ → ∃ d₁', Exec DictOp.Step d' ops d₁'
  contents : ∀ ops d₁', Exec DictOp.Step d' ops d₁' → d₁'.toMap = ops.foldl DictOp.effect d.toMap

def FailureContract (d : Dict) (env : DictEnv) (key : CString) (val : Option CString) : Prop :=
  ∀ fuel d' rc, d.add env fuel (some key) val = some (d', rc) → rc ≠ 0 → d.FailureSafe d'

def GrowsTo (d : Dict) (newsize : UInt32) : Prop :=
  (d.load.stored true).Grows ∧
    Fuel.Returns (fun fuel => growLoop (d.load.stored true).bound fuel d.size) newsize

/-- The allocations that fail, if any, do no harm: only the key cannot be copied, and its slot was
never used, or is a tombstone that no key is probed for past. -/
def FailsHarmlessly (d : Dict) (env : DictEnv) (key : CString) (val : Option CString) : Prop :=
  ∀ i slot, Fuel.Returns (d.lookup key (dictHash key)) i → d.slot i = some slot →
    if env.dupKey then
      (val.isSome = true → env.dupVal = true) ∧ ∀ newsize, d.GrowsTo newsize → env.calloc newsize
    else slot.key = .null ∨
      slot.key = .dummy ∧ ∀ key', ¬ PassesOver d.pos d.view key' i.toNat

section Safe

theorem WF.run_spec (h : d.WF) {ops : List DictOp} (hrun : Exec DictOp.Step d ops d') :
    d'.WF ∧ d'.toMap = ops.foldl DictOp.effect d.toMap := by
  refine hrun.history_invariant
    (I := fun ops d' => d'.WF ∧ d'.toMap = ops.foldl DictOp.effect d.toMap) ⟨h, rfl⟩ ?_
  rintro ops d op d' ⟨hwf, hmap⟩ hstep
  obtain ⟨hwf', hmap'⟩ := step_spec hwf hstep
  exact ⟨hwf', by rw [hmap', hmap, List.foldl_concat]⟩

theorem WF.failureSafe (h : d.WF) (hr : d' = d ∨ d.Reopened d') : d.FailureSafe d' := by
  have hspec : d'.WF ∧ d'.toMap = d.toMap ∧ ∀ key fuel i,
      d.lookup key (dictHash key) fuel = some i →
        ∃ fuel', d'.lookup key (dictHash key) fuel' = some i := by
    rcases hr with rfl | hr
    · exact ⟨h, rfl, fun key fuel i hl => ⟨fuel, hl⟩⟩
    · exact hr.spec h
  obtain ⟨hwf', hmap, hlook⟩ := hspec
  constructor
  · rintro key defval r ⟨fuel, hget⟩
    cases hl : d.lookup key (dictHash key) fuel with
    | none => simp [get, hl] at hget
    | some i =>
      obtain ⟨fuel', hl'⟩ := hlook key fuel i hl
      exact ⟨fuel', by rw [hwf'.get_isSome hl', hmap, h.get_eq hget]⟩
  · intro kp hmem hkey
    have hok := hwf'.slots kp hmem
    simp only [Keypair.Ok, hkey] at hok
  · intro ops d₁ hrun
    obtain ⟨d₁', hrun', -⟩ := hrun.simulation (R := fun d d' => d.WF ∧ (d' = d ∨ d.Reopened d'))
      ⟨h, hr⟩ fun d op d₁ d' hR hstep => by
        obtain ⟨hwf, rfl | hr⟩ := hR
        · exact ⟨d₁, hstep, (step_spec hwf hstep).1, .inl rfl⟩
        · obtain ⟨d₁', hstep', hkept⟩ := hr.step hwf hstep
          exact ⟨d₁', hstep', (step_spec hwf hstep).1, hkept⟩
    exact ⟨d₁', hrun'⟩
  · intro ops d₁' hrun
    rw [(hwf'.run_spec hrun).2, hmap]

end Safe

section Calls

variable {i : UInt32} {slot : Keypair} {ts rc : ℤ}

theorem addP_noKey (hl : d.lookup key (dictHash key) fuel = some i) (hs : d.slot i = some slot)
    (hkey : env.dupKey = false) : d.addP env (fuel + 1) (some key) val none ts true =
      some (d.withoutKey i.toNat slot, -1) := by
  have hstore : slot.store env key val none ts true (dictHash key) =
      ({ slot with key := .null }, false) := by simp [Keypair.store, hkey]
  rw [addP]
  simp only [hl, hs, hstore]
  rfl

theorem addP_noVal (hl : d.lookup key (dictHash key) fuel = some i) (hs : d.slot i = some slot)
    (hkey : env.dupKey = true) (hsome : val.isSome = true) (hval : env.dupVal = false) :
    d.addP env (fuel + 1) (some key) val none ts true =
      some ({ d with table := d.table.set i.toNat { slot with key := .freed, val := none } },
        -1) := by
  obtain ⟨v, rfl⟩ := Option.isSome_iff_exists.mp hsome
  have hstore : slot.store env key (some v) none ts true (dictHash key) =
      ({ slot with key := .freed, val := none }, false) := by simp [Keypair.store, hkey, hval]
  rw [addP]
  simp only [hl, hs, hstore]

theorem addP_copied (ts : ℤ) (hl : d.lookup key (dictHash key) fuel = some i)
    (hs : d.slot i = some slot) (hkey : env.dupKey = true)
    (hval : val.isSome = true → env.dupVal = true) :
    ∃ new, d.addP env (fuel + 1) (some key) val none ts true =
      if (d.put i new).needsResize then
        ((d.put i new).resize env (fun d key val ts => addP env fuel d (some key) val none ts false)
          fuel).map fun r => (r.1, if r.2 ≠ 0 then -1 else 0)
      else some (d.put i new, 0) := by
  obtain ⟨new, hstore, -⟩ := store_ok hkey hval slot key none ts true
  refine ⟨new, ?_⟩
  rw [addP]
  simp only [hl, hs, hstore]
  split_ifs
  · cases (d.put i new).resize env
      (fun d key val ts => addP env fuel d (some key) val none ts false) fuel <;> rfl
  · rfl

theorem resize_fails {add : Dict → CString → Option CString → ℤ → Option (Dict × ℤ)}
    (hr : d.resize env add fuel = some (d', rc)) (hrc : rc ≠ 0) :
    ∃ newsize, growLoop d.load.bound fuel d.size = some newsize ∧ newsize ≠ d.size ∧
      env.calloc newsize = false := by
  rw [resize, resize_bound] at hr
  cases hg : growLoop d.load.bound fuel d.size with
  | none => simp [hg] at hr
  | some newsize =>
    simp only [hg] at hr
    split_ifs at hr with heq hcalloc
    · cases hr
      exact absurd rfl hrc
    · obtain ⟨d₁, -, hpair⟩ := Option.map_eq_some_iff.mp hr
      cases hpair
      exact absurd rfl hrc
    · exact ⟨newsize, rfl, heq, by simpa using hcalloc⟩

theorem resize_noTable {add : Dict → CString → Option CString → ℤ → Option (Dict × ℤ)}
    {newsize : UInt32} (hg : growLoop d.load.bound fuel d.size = some newsize)
    (hne : newsize ≠ d.size) (hcalloc : env.calloc newsize = false) :
    d.resize env add fuel = some ({ d with table := [] }, -1) := by
  rw [resize, resize_bound, hg]
  simp [hne, hcalloc]

theorem WF.harmless_spec (h : d.WF) (hharm : d.FailsHarmlessly env key val)
    (ha : d.addP env fuel (some key) val none ts true = some (d', rc)) (hrc : rc ≠ 0) :
    d' = d ∨ d.Reopened d' := by
  cases fuel with
  | zero => cases ha
  | succ fuel =>
    cases hl : d.lookup key (dictHash key) fuel with
    | none => simp [addP, hl] at ha
    | some i =>
      obtain ⟨hlt, slot, hs⟩ := h.lookup_slot hl
      have hcond := hharm i slot ⟨fuel, hl⟩ hs
      cases hkey : env.dupKey with
      | false =>
        rw [addP_noKey hl hs hkey] at ha
        cases ha
        rw [hkey, if_neg Bool.false_ne_true] at hcond
        rcases hcond with hnull | ⟨hdummy, hover⟩
        · left
          have hsame : ({ slot with key := .null } : Keypair) = slot := by rw [← hnull]
          obtain ⟨_, hget⟩ := List.getElem?_eq_some_iff.mp hs
          rw [withoutKey, hsame, ← hget, List.set_getElem_self]
        · exact .inr ⟨i.toNat, slot, hs, hdummy, hover, rfl⟩
      | true =>
        rw [hkey, if_pos rfl] at hcond
        obtain ⟨hval, hcalloc⟩ := hcond
        obtain ⟨new, hadd⟩ := addP_copied ts hl hs hkey hval
        rw [hadd] at ha
        split_ifs at ha with hneeds
        · obtain ⟨⟨d₁, rc₁⟩, hr, hpair⟩ := Option.map_eq_some_iff.mp ha
          have hrc₁ : rc₁ ≠ 0 := by
            rintro rfl
            cases hpair
            exact hrc rfl
          obtain ⟨newsize, hg, hne, hfails⟩ := resize_fails hr hrc₁
          have hgrows : d.GrowsTo newsize :=
            ⟨⟨needsResize_iff.mp hneeds, (growLoop_ne_iff hg).mp hne⟩, fuel, hg⟩
          rw [hcalloc newsize hgrows] at hfails
          cases hfails
        · cases ha
          exact absurd rfl hrc

end Calls

section Harm

variable {i : UInt32} {slot : Keypair}

theorem WF.not_safe_of_live (h : d.WF) (hl : d.lookup key (dictHash key) fuel = some i)
    (hs : d.slot i = some slot) (hlive : slot.isLive = true) :
    ¬ d.FailureSafe (d.withoutKey i.toNat slot) := by
  intro hsafe
  have hsome : (d.toMap key).isSome = true := by rw [← (h.lookup_slot_cases hl hs).1, hlive]
  obtain ⟨v, hv⟩ := Option.isSome_iff_exists.mp hsome
  have htarget := h.reachable.target_of_holds (h.lookup_target hl) (h.toMap_eq_some_iff.mp hv)
  have hmap := hsafe.contents [] _ (Exec.nil _)
  obtain ⟨j, hj⟩ := exists_holds_of_toMap ((congrFun hmap key).trans hv)
  rw [view_withoutKey hs] at hj
  have hji : j ≠ i.toNat := by
    rintro rfl
    rw [Function.update_self] at hj
    cases hj
  rw [Function.update_of_ne hji] at hj
  exact hji (h.reachable.index_unique hj htarget)

/-- The lookup of a key that is cut off ends, at another slot than the one that has the key. -/
theorem WF.lookup_cut_off (h : d.WF) {t : ℕ} (hs : d.table[t]? = some slot)
    (hkey : slot.key = .dummy) (hover : PassesOver d.pos d.view key t) :
    ∃ fuel i kp j v, (d.withoutKey t slot).lookup key (dictHash key) fuel = some i ∧
      (d.withoutKey t slot).slot i = some kp ∧ kp.key ≠ .freed ∧
      i.toNat < (d.withoutKey t slot).table.length ∧
      (d.withoutKey t slot).view j = .live key v ∧ j ≠ i.toNat := by
  have hshaped := h.withoutKey_shaped hs hkey
  have hview := view_withoutKey hs
  obtain ⟨j, v, hj, m, hm, -⟩ := id hover
  -- the probes for the key now end at the reopened slot at the latest
  have hstop : (d.withoutKey t slot).view (d.pos key (0 + m)) = .empty := by
    rw [Nat.zero_add, hm, hview, Function.update_self]
  have hscan : ∃ r, scan d.pos (d.withoutKey t slot).view key (m + 1) 0 none =
      some r := scan_isSome (m + 1) (Nat.lt_succ_self m) (.inl hstop)
  obtain ⟨r, hr⟩ := hscan
  have hlookup := lookup_eq_scan hshaped key m
  rw [withoutKey_pos, hr] at hlookup
  obtain ⟨i, hl, rfl⟩ := Option.map_eq_some_iff.mp hlookup
  have htarget := scan_target scanInv_zero hr
  have hlt : i.toNat < (d.withoutKey t slot).size.toNat := by
    obtain ⟨n, hn, -⟩ := htarget.first_probe
    rw [← hn]
    exact probe_lt h.size _ n
  obtain ⟨kp, hkp, -, hok⟩ := hshaped.exists_slot hlt
  have hfreed : kp.key ≠ .freed := by
    intro hk
    simp only [Keypair.Ok, hk] at hok
  have hij : j ≠ i.toNat := by
    rintro rfl
    rw [hview] at htarget
    exact hover.cut_off h.reachable htarget hj
  have hjt : j ≠ t := by
    rintro rfl
    rw [view_of_dummy hs hkey] at hj
    cases hj
  refine ⟨m, i, kp, j, v, hl, hkp, hfreed, ?_, ?_, hij⟩
  · rw [hshaped.length]
    exact hlt
  · rw [hview, Function.update_of_ne hjt, hj]

theorem WF.not_safe_of_passesOver (h : d.WF) {t : ℕ} (hs : d.table[t]? = some slot)
    (hkey : slot.key = .dummy) (hover : PassesOver d.pos d.view key t) :
    ¬ d.FailureSafe (d.withoutKey t slot) := by
  intro hsafe
  obtain ⟨fuel, i, kp, j, v, hl, hkp, hfreed, hlt, hj, hij⟩ := h.lookup_cut_off hs hkey hover
  let left : Dict := { d.withoutKey t slot with
    table := (d.withoutKey t slot).table.set i.toNat { kp with key := .dummy, val := none }
    used := (d.withoutKey t slot).used - 1 }
  have hdel : (d.withoutKey t slot).del (some key) fuel = some (left, 0) := by
    unfold del
    simp only [hl, hkp, if_neg hfreed]
    rfl
  have hmap := hsafe.contents [.del key] left (Exec.single
    ⟨DictEnv.plain, fuel, DictEnv.plain_noFail, congrArg (Option.map Prod.fst) hdel⟩)
  have hheld : Holds left.view key v := by
    refine ⟨j, ?_⟩
    have hleft : left.table = (d.withoutKey t slot).table.set i.toNat
      { kp with key := .dummy, val := none } := rfl
    rw [view_of_set hlt hleft, Function.update_of_ne hij, hj]
  have hsome := toMap_isSome_of_holds hheld
  rw [hmap, List.foldl_cons, List.foldl_nil, DictOp.effect, Function.update_self] at hsome
  cases hsome

/-- Without its table a dictionary answers nothing, not even about the key just looked up. -/
theorem WF.not_safe_of_noTable (h : d.WF) (hl : d.lookup key (dictHash key) fuel = some i)
    (htable : d'.table = []) : ¬ d.FailureSafe d' := by
  intro hsafe
  obtain ⟨fuel', hget⟩ := hsafe.answers key none _ ⟨fuel, h.get_isSome hl none⟩
  have hslot (j : UInt32) : d'.slot j = none := by
    rw [Dict.slot, htable, List.getElem?_nil]
  simp [get, lookup, hslot] at hget

/-- A `dict_add` keeps its contract exactly if the allocations that fail do no harm. -/
theorem WF.contract_iff (h : d.WF) (env : DictEnv) (key : CString) (val : Option CString) :
    d.FailureContract env key val ↔ d.FailsHarmlessly env key val := by
  constructor
  · rintro hcontract i slot ⟨fuel, hl⟩ hs
    obtain ⟨hlt, -⟩ := h.lookup_slot hl
    have hone : (-1 : ℤ) ≠ 0 := by decide
    cases hkey : env.dupKey with
    | false =>
      have hsafe := hcontract _ _ _ (addP_noKey hl hs hkey) hone
      rw [if_neg Bool.false_ne_true]
      cases hk : slot.key with
      | null => exact .inl rfl
      | dummy =>
        refine .inr ⟨rfl, fun key' hover => ?_⟩
        exact h.not_safe_of_passesOver hs hk hover hsafe
      | live s => exact absurd hsafe (h.not_safe_of_live hl hs (by rw [Keypair.isLive, hk]))
      | freed =>
        have hok := h.slots slot (List.mem_of_getElem? hs)
        simp only [Keypair.Ok, hk] at hok
    | true =>
      rw [if_pos rfl]
      have hval : val.isSome = true → env.dupVal = true := by
        intro hsome
        by_contra hfails
        have hsafe := hcontract _ _ _
          (addP_noVal hl hs hkey hsome (Bool.not_eq_true _ ▸ hfails)) hone
        exact hsafe.noFreed _ (List.mem_set hlt _) rfl
      refine ⟨hval, fun newsize hgrows => ?_⟩
      by_contra hfails
      obtain ⟨⟨hfull, hle⟩, fuel', hg⟩ := hgrows
      have hlong := (lookup_stable d key _).le (Nat.le_add_right fuel fuel') hl
      have hstable : Fuel.Stable fun fuel => growLoop (d.load.stored true).bound fuel d.size :=
        fun _ _ => growLoop_stable
      have hgrow := hstable.le (Nat.le_add_left fuel' fuel) hg
      obtain ⟨new, hadd⟩ := addP_copied env.now hlong hs hkey hval
      have hneeds : (d.put i new).needsResize = true := needsResize_iff.mpr hfull
      change growLoop (d.put i new).load.bound (fuel + fuel') (d.put i new).size = _ at hgrow
      rw [if_pos hneeds, resize_noTable hgrow ((growLoop_ne_iff hg).mpr hle)
        (Bool.not_eq_true _ ▸ hfails), Option.map_some, if_pos hone] at hadd
      exact h.not_safe_of_noTable hl rfl (hcontract _ _ _ hadd hone)
  · intro hharm fuel d' rc ha hrc
    exact h.failureSafe (h.harmless_spec hharm ha hrc)

end Harm

end Dict

def DictOp.HarmlessFailure (d : Dict) (op : DictOp) (d' : Dict) : Prop :=
  match op with
  | add key val => ∃ env fuel rc, d.add env fuel (some key) val = some (d', rc) ∧ rc ≠ 0 ∧
      d.FailsHarmlessly env key val
  | addTs key val ts => ∃ env fuel rc, d.addTs env fuel (some key) val ts = some (d', rc) ∧
      rc ≠ 0 ∧ d.FailsHarmlessly env key val
  | _ => False

def DictOp.FailingStep (d : Dict) (op : DictOp) (d' : Dict) : Prop :=
  op.Step d d' ∨ op.HarmlessFailure d d'

namespace Dict

variable {d d' : Dict} {ops : List DictOp}

theorem WF.failingStep (h : d.WF) {op : DictOp} (hstep : op.FailingStep d d') : d'.WF := by
  have hkept (hr : d' = d ∨ d.Reopened d') : d'.WF := by
    rcases hr with rfl | hr
    · exact h
    · exact (hr.spec h).1
  rcases hstep with hstep | hfail
  · exact (step_spec h hstep).1
  · cases op with
    | add key val =>
      obtain ⟨env, fuel, rc, ha, hrc, hharm⟩ := hfail
      exact hkept (h.harmless_spec hharm ha hrc)
    | addTs key val ts =>
      obtain ⟨env, fuel, rc, ha, hrc, hharm⟩ := hfail
      exact hkept (h.harmless_spec hharm ha hrc)
    | get key defval => exact hfail.elim
    | del key => exact hfail.elim

/-- In every dictionary that calls have made, in which either no allocation failed or none that did
any harm, an add keeps its contract exactly if it fails without harm, too. -/
theorem failureContract_iff (hrun : Exec DictOp.FailingStep Dict.new ops d) (env : DictEnv)
    (key : CString) (val : Option CString) :
    d.FailureContract env key val ↔ d.FailsHarmlessly env key val := by
  have hwf := hrun.invariant (I := Dict.WF) wf_new fun _ _ _ h hstep => h.failingStep hstep
  exact hwf.contract_iff env key val

def noMemory : DictEnv := ⟨1, false, false, fun _ => false, 0⟩

theorem new_failsHarmlessly (key : CString) (val : Option CString) :
    Dict.new.FailsHarmlessly noMemory key val := by
  intro i slot _ hs
  rw [List.eq_of_mem_replicate (List.mem_of_getElem? hs)]
  exact .inl rfl

theorem failureContract_iff_new : Exec DictOp.FailingStep Dict.new
      [.add (.ofChars ['a']) (some (.ofChars ['1']))] Dict.new ∧
    Dict.new.FailureContract noMemory (.ofChars ['b']) (some (.ofChars ['2'])) := by
  have hfails : (Dict.new.add noMemory 1 (some (.ofChars ['a'])) (some (.ofChars ['1']))) =
      some (Dict.new, -1) := by decide +kernel
  have hrun : Exec DictOp.FailingStep Dict.new [.add (.ofChars ['a']) (some (.ofChars ['1']))]
      Dict.new :=
    Exec.single (.inr ⟨noMemory, 1, -1, hfails, by decide, new_failsHarmlessly _ _⟩)
  exact ⟨hrun, (failureContract_iff hrun _ _ _).mpr (new_failsHarmlessly _ _)⟩

/-- When the copy of a present key fails, `dict_add` has lost the key. -/
theorem failed_add_loses_key : ¬ ∀ (ops : List DictOp) (d : Dict) (env : DictEnv) (key : CString)
    (val : Option CString), Dict.Run ops d → d.FailureContract env key val := by
  intro h
  let ops : List DictOp := [.add (.ofChars ['a']) (some (.ofChars ['1']))]
  have hsome : (Dict.eval 20 ops).isSome = true := by decide +kernel
  have hrun := Dict.run_of_eval (Option.some_get hsome).symm
  obtain ⟨hwf, hmap⟩ := run_wf_and_map hrun
  have hkey := (congrFun hmap _).trans (mapOf_add (.ofChars ['a']) (some (.ofChars ['1'])))
  obtain ⟨fuel, i, hl⟩ := hwf.lookup_isSome_of_holds (hwf.toMap_eq_some_iff.mp hkey)
  obtain ⟨-, slot, hs⟩ := hwf.lookup_slot hl
  have hlive := (hwf.lookup_slot_cases hl hs).1
  rw [hkey] at hlive
  exact hwf.not_safe_of_live hl hs hlive
    (h ops _ noMemory _ none hrun _ _ _ (addP_noKey hl hs rfl) (by decide))

end Dict

end JailFs
