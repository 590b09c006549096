import JailFs.DictHistory

/-!
# What `dict_del` says about a key

`dict_del` is to answer `-1` for a key that it does not find. Its lookup always finds a slot, at
least one where the key could be stored, so that slot becomes a tombstone and the answer is `0`:
the call is right about the keys that are present, and about no others (`delContract_iff`).
-/

namespace JailFs

namespace Dict

variable {d : Dict} {ops : List DictOp} {key : CString}

/-- The keys that `dict_del` can find. -/
def Present (d : Dict) (key : CString) : Prop := (d.toMap key).isSome = true

instance (d : Dict) (key : CString) : Decidable (d.Present key) :=
  inferInstanceAs (Decidable (_ = true))

/-- A call that returns `0` has taken out the key and counted `used` down; one that returns `-1` has
changed nothing. -/
def DelContract (d : Dict) (key : CString) : Prop :=
  if d.Present key then
    ∃ d', Fuel.Returns (d.del (some key)) (d', 0) ∧
      d'.toMap = Function.update d.toMap key none ∧ d'.used = d.used - 1 ∧ d'.fill = d.fill
  else Fuel.Returns (d.del (some key)) (d, -1)

theorem WF.del_of_present (h : d.WF) (hkey : d.Present key) : d.DelContract key := by
  rw [DelContract, if_pos hkey]
  obtain ⟨v, hv⟩ := Option.isSome_iff_exists.mp hkey
  obtain ⟨fuel, i, hl⟩ := h.lookup_isSome_of_holds (h.toMap_eq_some_iff.mp hv)
  obtain ⟨slot, hs, hdel⟩ := h.del_isSome hl
  exact ⟨_, ⟨fuel, hdel⟩, (h.del_spec hdel).2.2, rfl, rfl⟩

theorem WF.not_del_of_absent (h : d.WF) (hkey : ¬ d.Present key) : ¬ d.DelContract key := by
  rw [DelContract, if_neg hkey]
  rintro ⟨fuel, hdel⟩
  obtain ⟨i, slot, hl, hs, hrc, hd⟩ := h.del_cases hdel
  cases hrc

/-- A deletion is right exactly about a key that is present. -/
theorem delContract_iff (hrun : Dict.Run ops d) (key : CString) :
    d.DelContract key ↔ d.Present key := by
  obtain ⟨hwf, -⟩ := run_wf_and_map hrun
  constructor
  · intro hdel
    by_contra hkey
    exact hwf.not_del_of_absent hkey hdel
  · exact hwf.del_of_present

theorem delContract_iff_one : ∃ d, Dict.Run [.add (.ofChars ['a']) (some (.ofChars ['1']))] d ∧
    d.DelContract (.ofChars ['a']) := by
  let ops : List DictOp := [.add (.ofChars ['a']) (some (.ofChars ['1']))]
  have hsome : (Dict.eval 20 ops).isSome = true := by decide +kernel
  have hrun := Dict.run_of_eval (Option.some_get hsome).symm
  refine ⟨_, hrun, (delContract_iff hrun _).mpr ?_⟩
  rw [Present, (run_wf_and_map hrun).2, mapOf_add]
  rfl

/-- Deleting `"a"` from a new dictionary answers `0`. -/
theorem del_absent_succeeds : ¬ ∀ (ops : List DictOp) (d : Dict) (key : CString),
    Dict.Run ops d → d.DelContract key := by
  intro h
  have habs : ¬ Dict.new.Present (.ofChars ['a']) := by
    rw [Present, toMap_new]
    exact Bool.false_ne_true
  exact wf_new.not_del_of_absent habs (h [] Dict.new _ (Exec.nil _))

end Dict

end JailFs
