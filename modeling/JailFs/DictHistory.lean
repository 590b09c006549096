import JailFs.DictMap

/-!
# What `dict_get` answers after a history of calls

A key whose latest operation is an add is answered with the value of that add, and sits in one
live slot. For a key that is not present, the slot that `dict_lookup` ends at has no value, so
`dict_get` answers `NULL` and never the caller's default. The configuration is a dictionary, so
`dconf_get_str` does the same.
-/

namespace JailFs

open OpenAddressing

/-- `dconf_get_str`; the `NULL` of its first test is `none`, as is that of a missing value. -/
def dconfGetStr (conf : Option Dict) (key defval : Option CString) (fuel : ℕ) :
    Option (Option CString) :=
  match conf, key with
  | some d, some key => d.get (some key) defval fuel
  | _, _ => some none

/-- The call binds `key` to the string `val`. -/
def DictOp.Binds (op : DictOp) (key val : CString) : Prop :=
  op = .add key (some val) ∨ ∃ ts, op = .addTs key (some val) ts

/-- The latest operation on `key` is an add of `val`. -/
def LatestAdd (ops : List DictOp) (key val : CString) : Prop :=
  ∃ pre op post, ops = pre ++ op :: post ∧ op.Binds key val ∧
    ∀ o ∈ post, o.addsKey key = false ∧ o.delsKey key = false

/-- `key` was never added, or deleted since each of its adds. -/
def NotPresent (ops : List DictOp) (key : CString) : Prop :=
  ∀ pre op post, ops = pre ++ op :: post → op.addsKey key = true →
    ∃ o ∈ post, o.delsKey key = true

section Map

variable {key val : CString}

theorem DictOp.effect_of_binds {op : DictOp} (h : op.Binds key val) (m : StringMap) :
    op.effect m key = some (some val) := by
  rcases h with rfl | ⟨ts, rfl⟩
  · simp [DictOp.effect]
  · simp [DictOp.effect]

theorem DictOp.effect_of_untouched {op : DictOp} (hadd : op.addsKey key = false)
    (hdel : op.delsKey key = false) (m : StringMap) : op.effect m key = m key := by
  cases op with
  | get k defval => rfl
  | add k v =>
    have hk : k ≠ key := by simpa [DictOp.addsKey] using hadd
    exact Function.update_of_ne hk.symm ..
  | addTs k v ts =>
    have hk : k ≠ key := by simpa [DictOp.addsKey] using hadd
    exact Function.update_of_ne hk.symm ..
  | del k =>
    have hk : k ≠ key := by simpa [DictOp.delsKey] using hdel
    exact Function.update_of_ne hk.symm ..

theorem mapOf_of_latestAdd {ops : List DictOp} (h : LatestAdd ops key val) :
    mapOf ops key = some (some val) := by
  obtain ⟨pre, op, post, rfl, hop, hpost⟩ := h
  induction post using List.reverseRecOn with
  | nil => rw [mapOf_snoc, DictOp.effect_of_binds hop]
  | append_singleton post o ih =>
    rw [← List.cons_append, ← List.append_assoc, mapOf_snoc]
    obtain ⟨hadd, hdel⟩ := hpost o (by simp)
    rw [DictOp.effect_of_untouched hadd hdel]
    exact ih fun o ho => hpost o (List.mem_append_left _ ho)

theorem exists_add_of_mapOf {ops : List DictOp} (h : mapOf ops key ≠ none) :
    ∃ pre op post, ops = pre ++ op :: post ∧ op.addsKey key = true ∧
      ∀ o ∈ post, o.delsKey key = false := by
  induction ops using List.reverseRecOn with
  | nil => exact absurd rfl h
  | append_singleton ops op ih =>
    by_cases hadd : op.addsKey key = true
    · exact ⟨ops, op, [], rfl, hadd, by simp⟩
    · have hdel : op.delsKey key = false := by
        by_contra hdel
        rw [Bool.not_eq_false] at hdel
        cases op with
        | del k =>
          have hk : k = key := by simpa [DictOp.delsKey] using hdel
          apply h
          rw [mapOf_snoc, hk]
          exact Function.update_self ..
        | add k v => cases hdel
        | addTs k v ts => cases hdel
        | get k defval => cases hdel
      rw [Bool.not_eq_true] at hadd
      rw [mapOf_snoc, DictOp.effect_of_untouched hadd hdel] at h
      obtain ⟨pre, op', post, rfl, hop', hpost⟩ := ih h
      refine ⟨pre, op', post ++ [op], by simp, hop', fun o ho => ?_⟩
      rcases List.mem_append.mp ho with hmem | hmem
      · exact hpost o hmem
      · rw [List.mem_singleton.mp hmem]
        exact hdel

theorem mapOf_of_notPresent {ops : List DictOp} (h : NotPresent ops key) :
    mapOf ops key = none := by
  by_contra hne
  obtain ⟨pre, op, post, hops, hadd, hpost⟩ := exists_add_of_mapOf hne
  obtain ⟨o, ho, hdel⟩ := h pre op post hops hadd
  rw [hpost o ho] at hdel
  cases hdel

theorem countP_holds_eq_one {table : List Keypair} (hd : KeysDistinct table)
    (h : tableMap table key ≠ none) : table.countP (·.holds key) = 1 := by
  induction table with
  | nil => exact absurd rfl h
  | cons kp table ih =>
    rw [List.countP_cons]
    by_cases hk : kp.holds key
    · have htail := Dict.tableMap_eq_none_of_distinct hd hk
      rw [tableMap, Option.map_eq_none_iff, List.find?_eq_none] at htail
      rw [List.countP_eq_zero.mpr htail, if_pos hk]
    · rw [if_neg hk, Nat.add_zero]
      rw [Dict.tableMap_cons, if_neg hk] at h
      exact ih (List.pairwise_cons.mp hd).2 h

end Map

namespace Dict

variable {d : Dict} {key : CString} {defval : Option CString}

theorem get_stable (h : d.WF) : Fuel.Stable (d.get (some key) defval) := by
  intro fuel r hr
  cases hl : d.lookup key (dictHash key) fuel with
  | none => simp [get, hl] at hr
  | some i =>
    rw [h.get_isSome hl] at hr
    rw [h.get_isSome (lookup_stable _ _ _ _ _ hl), hr]

/-- An index of the table is a never-used slot of the abstract table when its key is `NULL`. -/
theorem WF.exists_empty_iff (h : d.WF) :
    (∃ j < d.size.toNat, d.view j = .empty) ↔ ∃ kp ∈ d.table, kp.key = .null := by
  constructor
  · rintro ⟨j, hj, hview⟩
    rw [← h.length] at hj
    rw [view, List.getElem?_eq_getElem hj] at hview
    exact ⟨_, List.getElem_mem hj, Keypair.toSlot_eq_empty_iff.mp hview⟩
  · rintro ⟨kp, hmem, hkey⟩
    obtain ⟨j, hj, rfl⟩ := List.getElem_of_mem hmem
    refine ⟨j, by rw [← h.length]; exact hj, ?_⟩
    rw [view, List.getElem?_eq_getElem hj]
    exact Keypair.toSlot_eq_empty_iff.mpr hkey

theorem WF.lookup_terminates_iff (h : d.WF) (habs : d.toMap key = none) :
    Fuel.Terminates (d.lookup key (dictHash key)) ↔ ∃ kp ∈ d.table, kp.key = .null := by
  rw [← h.exists_empty_iff]
  constructor
  · intro hterm
    by_contra hno
    push Not at hno
    exact Fuel.not_terminates_iff.mpr (h.lookup_diverges hno (h.toMap_eq_none_iff.mp habs)) hterm
  · intro hempty
    obtain ⟨i, hi⟩ := h.lookup_isSome key hempty le_rfl
    exact ⟨i, _, hi⟩

theorem WF.get_returns_of_present (h : d.WF) {v : Option CString} (hkey : d.toMap key = some v) :
    Fuel.Returns (d.get (some key) defval) v := by
  obtain ⟨fuel, i, hl⟩ := h.lookup_isSome_of_holds (h.toMap_eq_some_iff.mp hkey)
  exact ⟨fuel, by rw [h.get_isSome hl, hkey, Option.join_some]⟩

theorem WF.get_returns_of_absent_iff (h : d.WF) (habs : d.toMap key = none) :
    Fuel.Returns (d.get (some key) defval) defval ↔
      defval = none ∧ ∃ kp ∈ d.table, kp.key = .null := by
  rw [← h.lookup_terminates_iff habs]
  constructor
  · rintro ⟨fuel, hr⟩
    refine ⟨by rw [h.get_eq hr, habs, Option.join_none], ?_⟩
    cases hl : d.lookup key (dictHash key) fuel with
    | none => simp [get, hl] at hr
    | some i => exact ⟨i, fuel, hl⟩
  · rintro ⟨rfl, i, fuel, hl⟩
    exact ⟨fuel, by rw [h.get_isSome hl, habs, Option.join_none]⟩

end Dict

def DictEnv.plain : DictEnv := ⟨1, true, true, fun _ => true, 0⟩

theorem DictEnv.plain_noFail : DictEnv.plain.NoFail := ⟨rfl, rfl, fun _ => rfl⟩

def Dict.eval (fuel : ℕ) (ops : List DictOp) : Option Dict :=
  ops.foldlM (fun d op => op.apply DictEnv.plain fuel d) Dict.new

theorem Dict.run_of_eval {fuel : ℕ} {ops : List DictOp} {d : Dict}
    (h : Dict.eval fuel ops = some d) : Dict.Run ops d :=
  Exec.of_foldlM (fun _ _ _ hstep => ⟨DictEnv.plain, fuel, DictEnv.plain_noFail, hstep⟩) h

/-- After any history, a key whose latest operation is an add is answered with the value of that
add, whatever the default, and exactly one live slot holds it. -/
theorem Dict.get_of_latestAdd {d : Dict} {ops : List DictOp} {key val : CString}
    (hrun : Dict.Run ops d) (hlast : LatestAdd ops key val) :
    (∀ defval, Fuel.Returns (d.get (some key) defval) (some val)) ∧
      d.table.countP (·.holds key) = 1 := by
  obtain ⟨hwf, hmap⟩ := run_wf_and_map hrun
  have hkey : d.toMap key = some (some val) := by rw [hmap, mapOf_of_latestAdd hlast]
  constructor
  · intro defval
    exact hwf.get_returns_of_present hkey
  · apply countP_holds_eq_one hwf.keysDistinct
    change d.toMap key ≠ none
    rw [hkey]
    exact Option.some_ne_none _

/-- `"a"` and `"r"` collide: the second add probes past the first key, and the third reuses the
tombstone that the delete left. -/
theorem Dict.get_of_latestAdd_collision :
    ∃ d, Dict.Run
        [.add (.ofChars ['a']) (some (.ofChars ['1'])),
          .add (.ofChars ['r']) (some (.ofChars ['2'])), .del (.ofChars ['a']),
          .addTs (.ofChars ['a']) (some (.ofChars ['3'])) 7] d ∧
      (∀ defval, Fuel.Returns (d.get (some (.ofChars ['a'])) defval)
        (some (.ofChars ['3']))) ∧
      d.table.countP (·.holds (.ofChars ['a'])) = 1 := by
  let ops : List DictOp :=
    [.add (.ofChars ['a']) (some (.ofChars ['1'])),
      .add (.ofChars ['r']) (some (.ofChars ['2'])), .del (.ofChars ['a']),
      .addTs (.ofChars ['a']) (some (.ofChars ['3'])) 7]
  have hsome : (Dict.eval 20 ops).isSome = true := by decide +kernel
  have hrun := Dict.run_of_eval (Option.some_get hsome).symm
  exact ⟨_, hrun, Dict.get_of_latestAdd hrun
    ⟨ops.take 3, _, [], rfl, Or.inr ⟨7, rfl⟩, by simp⟩⟩

/-- A key that is not present is answered with the caller's default exactly when that default is
`NULL` and a never-used slot is left to end the lookup; `dconf_get_str` inherits this. -/
theorem Dict.get_of_notPresent_iff {d : Dict} {ops : List DictOp} {key : CString}
    (hrun : Dict.Run ops d) (habs : NotPresent ops key) (defval : Option CString) :
    (Fuel.Returns (d.get (some key) defval) defval ↔
        defval = none ∧ ∃ kp ∈ d.table, kp.key = .null) ∧
      (Fuel.Returns (dconfGetStr (some d) (some key) defval) defval ↔
        defval = none ∧ ∃ kp ∈ d.table, kp.key = .null) := by
  obtain ⟨hwf, hmap⟩ := Dict.run_wf_and_map hrun
  have hkey : d.toMap key = none := by rw [hmap, mapOf_of_notPresent habs]
  exact ⟨hwf.get_returns_of_absent_iff hkey, hwf.get_returns_of_absent_iff hkey⟩

theorem notPresent_nil (key : CString) : NotPresent [] key := by
  intro pre op post h
  simp at h

theorem Dict.get_of_notPresent_iff_new :
    (Fuel.Returns (Dict.new.get (some (.ofChars ['a'])) none) none ↔
        (none : Option CString) = none ∧ ∃ kp ∈ Dict.new.table, kp.key = .null) ∧
      (Fuel.Returns (dconfGetStr (some Dict.new) (some (.ofChars ['a'])) none) none ↔
        (none : Option CString) = none ∧ ∃ kp ∈ Dict.new.table, kp.key = .null) :=
  Dict.get_of_notPresent_iff (Exec.nil _) (notPresent_nil _) none

/-- In the dictionary that `dict_new` makes no key is present, and the default `"x"` for `"a"`
comes back as `NULL`. -/
theorem Dict.get_new_ignores_default :
    ¬ ∀ (ops : List DictOp) (d : Dict) (key : CString) (defval : Option CString),
      Dict.Run ops d → NotPresent ops key → Fuel.Returns (d.get (some key) defval) defval := by
  intro h
  have hreturns := h [] Dict.new (.ofChars ['a']) (some (.ofChars ['x'])) (Exec.nil _)
    (notPresent_nil _)
  have hnull : Fuel.Returns (Dict.new.get (some (.ofChars ['a'])) (some (.ofChars ['x'])))
      none := ⟨1, by decide +kernel⟩
  have heq := Fuel.Returns.unique (Dict.get_stable wf_new) hreturns hnull
  cases heq

end JailFs
