import JailFs.PkgOpen
import JailFs.Exec

/-!
# The database lock across `pkg_open` and `pkg_extract_file`

`db_begin` takes a mutex, `db_commit` and `db_rollback` give it up. A call is balanced when its
trace takes and releases the lock in strict alternation and leaves it free.
-/

namespace JailFs

/-- The mutex after one operation: `none` when `db_begin` would wait for a lock its own call
holds, or a release finds nothing to release. -/
def DbOp.lock (held : Bool) (op : DbOp) : Option Bool :=
  match op, held with
  | .begin, false => some true
  | .commit, true => some false
  | .rollback, true => some false
  | _, _ => none

def Balanced (trace : List DbOp) : Prop := trace.foldlM DbOp.lock false = some false

instance (trace : List DbOp) : Decidable (Balanced trace) := inferInstanceAs (Decidable (_ = _))

inductive PkgCall
  | pkgOpen (env : OpenEnv) (path : CString)
  | pkgExtractFile (env : OpenEnv) (archiveOk : Bool) (statErrno : Option ℤ) (path : CString)

namespace PkgCall

/-- The call, if it returns. -/
def run (s : Registry) : PkgCall → Option OpenResult
  | pkgOpen env path => some (JailFs.pkgOpen s env path)
  | pkgExtractFile env archiveOk statErrno path =>
    JailFs.pkgExtractFile s env archiveOk statErrno path

/-- A call that returns, with its trace. -/
def Step (s : Registry) (label : PkgCall × List DbOp) (s' : Registry) : Prop :=
  ∃ r, label.1.run s = some r ∧ r.registry = s' ∧ r.trace = label.2

/-- The calls that keep the lock in order: a `pkg_open` that finds its handle, or all of whose
stages succeed. -/
def Clean (s : Registry) : PkgCall → Prop
  | pkgOpen env path => (pkgHandleByname s path).isSome ∨ env.fails = false
  | pkgExtractFile _ _ _ _ => False

def CleanStep (s : Registry) (label : PkgCall × List DbOp) (s' : Registry) : Prop :=
  label.1.Clean s ∧ Step s label s'

end PkgCall

theorem balanced_nil : Balanced [] := rfl

theorem not_balanced_begin : ¬ Balanced [.begin] := by decide

section Calls

variable {s s' : Registry} {env : OpenEnv} {path : CString}

theorem pkgOpen_balanced_iff :
    Balanced (pkgOpen s env path).trace ↔
      (pkgHandleByname s path).isSome ∨ env.fails = false := by
  rcases pkgOpen_cases s env path with ⟨t, h, hopen⟩ | ⟨h, hf, hopen⟩ | ⟨h, hf, ha, hopen⟩ |
    ⟨h, hf, ha, hopen⟩
  · simp only [hopen, h, Option.isSome_some, true_or, iff_true]
    exact balanced_nil
  · simp [hopen, h, OpenEnv.fails, hf, not_balanced_begin]
  · simp [hopen, h, OpenEnv.fails, hf, ha, not_balanced_begin]
  · cases hh : env.headerFails <;> simp [hopen, h, OpenEnv.fails, hf, ha, hh, Balanced, DbOp.lock]

theorem not_balanced_snoc_commit {trace : List DbOp} (h : trace = [] ∨ trace = [.begin, .commit] ∨
    trace = [.begin, .rollback, .commit]) : ¬ Balanced (trace ++ [.commit]) := by
  rcases h with rfl | rfl | rfl <;> decide

theorem pkgExtractFile_not_balanced {archiveOk : Bool} {statErrno : Option ℤ} {r : OpenResult}
    (h : pkgExtractFile s env archiveOk statErrno path = some r) : ¬ Balanced r.trace := by
  have htrace : (pkgOpen s env path).handle.isSome ∧
      r.trace = (pkgOpen s env path).trace ++ [.commit] := by
    rw [pkgExtractFile] at h
    cases hh : (pkgOpen s env path).handle with
    | none => simp [hh] at h
    | some pkg =>
      refine ⟨rfl, ?_⟩
      simp only [hh] at h
      split at h
      · cases h
      · split_ifs at h
        cases h
        rfl
  rw [htrace.2]
  apply not_balanced_snoc_commit
  rcases pkgOpen_cases s env path with ⟨t, _, hopen⟩ | ⟨_, _, hopen⟩ | ⟨_, _, _, hopen⟩ |
    ⟨_, _, _, hopen⟩
  · exact Or.inl (by rw [hopen])
  · simp [hopen] at htrace
  · simp [hopen] at htrace
  · cases hh : env.headerFails with
    | false => exact Or.inr (Or.inl (by simp [hopen, hh]))
    | true => exact Or.inr (Or.inr (by simp [hopen, hh]))

theorem PkgCall.Step.balanced_iff {label : PkgCall × List DbOp} (h : PkgCall.Step s label s') :
    Balanced label.2 ↔ label.1.Clean s := by
  obtain ⟨call, trace⟩ := label
  obtain ⟨r, hrun, _, rfl⟩ := h
  cases call with
  | pkgOpen env path =>
    cases hrun
    exact pkgOpen_balanced_iff
  | pkgExtractFile env archiveOk statErrno path =>
    exact iff_of_false (pkgExtractFile_not_balanced hrun) id

end Calls

/-- Along a run of calls every call is balanced exactly when every call is clean. -/
theorem balanced_iff_clean {s s' : Registry} {labels : List (PkgCall × List DbOp)}
    (hrun : Exec PkgCall.Step s labels s') :
    (∀ label ∈ labels, Balanced label.2) ↔ Exec PkgCall.CleanStep s labels s' := by
  constructor
  · intro hbalanced
    induction hrun with
    | nil => exact Exec.nil _
    | @snoc t u as label hrun hlast ih =>
      refine (ih fun l hl => hbalanced l (List.mem_append_left _ hl)).snoc ⟨?_, hlast⟩
      exact hlast.balanced_iff.mp (hbalanced label (by simp))
  · intro hclean
    refine hclean.history_invariant (I := fun labels _ => ∀ label ∈ labels, Balanced label.2)
      (fun label h => absurd h List.not_mem_nil) ?_
    intro as s label s' ih hstep l hl
    rcases List.mem_append.mp hl with hmem | hmem
    · exact ih l hmem
    · rw [List.mem_singleton.mp hmem]
      exact hstep.2.balanced_iff.mpr hstep.1

/-- `open` fails with everything else in order. -/
def OpenEnv.noFile : OpenEnv := ⟨none, 1, -1, false, true, true, [], 10⟩

/-- One `pkg_open` of an ordinary path, cached by the next one. -/
theorem balanced_iff_clean_open :
    (∀ label ∈ [(PkgCall.pkgOpen ⟨none, 1, 5, false, true, true, [], 10⟩ (.ofChars ['x']),
        [DbOp.begin, DbOp.commit])], Balanced label.2) ↔
      Exec PkgCall.CleanStep (pkgInit [] 0 60)
        [(PkgCall.pkgOpen ⟨none, 1, 5, false, true, true, [], 10⟩ (.ofChars ['x']),
          [DbOp.begin, DbOp.commit])]
        (pkgOpen (pkgInit [] 0 60) ⟨none, 1, 5, false, true, true, [], 10⟩
          (.ofChars ['x'])).registry :=
  balanced_iff_clean (Exec.single ⟨_, rfl, rfl, rfl⟩)

/-- A package file that cannot be opened leaves the lock held, and the next `pkg_open` of a path
that is not listed waits for it for ever. -/
theorem noFile_keeps_lock :
    ¬ (∀ (s s' : Registry) (labels : List (PkgCall × List DbOp)),
        Exec PkgCall.Step s labels s' → ∀ label ∈ labels, Balanced label.2) ∧
      (pkgOpen (pkgInit [] 0 60) OpenEnv.noFile (.ofChars ['x'])).trace.foldlM DbOp.lock false =
        some true ∧
      (pkgOpen (pkgOpen (pkgInit [] 0 60) OpenEnv.noFile (.ofChars ['x'])).registry
        OpenEnv.noFile (.ofChars ['x'])).trace.foldlM DbOp.lock true = none := by
  refine ⟨fun h => ?_, by decide, by decide⟩
  have hrun : Exec PkgCall.Step (pkgInit [] 0 60)
      [(.pkgOpen OpenEnv.noFile (.ofChars ['x']), [.begin])] _ :=
    Exec.single ⟨_, rfl, rfl, rfl⟩
  exact not_balanced_begin (h _ _ _ hrun _ List.mem_cons_self)

end JailFs
