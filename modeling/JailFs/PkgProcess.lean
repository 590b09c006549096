import JailFs.PkgOpen
import Mathlib.Logic.Function.Basic

/-!
# One `pkg_open` after another

A `pkg_open` of a path that is not listed takes the database lock, and one whose file or archive
cannot be opened keeps it. The next call for a path that is not listed then waits in `db_begin` for
ever, and with it whoever made the call.
-/

namespace JailFs

/-- The registry, whether `db_mutex` is held, and what the system answers during the calls of
`pkg_open` that are still to come for each path. -/
structure PkgProcess where
  registry : Registry
  dbLocked : Bool
  answers : CString → ℕ → OpenEnv

/-- The mutex after the operations of a call. To unlock it when it is free changes nothing. -/
def lockAfter (held : Bool) (trace : List DbOp) : Bool :=
  trace.foldl (fun _ op => op = .begin) held

namespace PkgProcess

/-- `db_begin` would wait for a lock that an earlier call has kept. -/
def waits (p : PkgProcess) (path : CString) : Bool :=
  p.dbLocked && (pkgHandleByname p.registry path).isNone

/-- `pkg_open`, if it comes back. -/
def pkgOpen (p : PkgProcess) (path : CString) : Option PkgProcess :=
  if p.waits path then none
  else
    let r := JailFs.pkgOpen p.registry (p.answers path 0) path
    some ⟨r.registry, lockAfter p.dbLocked r.trace,
      Function.update p.answers path fun n => p.answers path (n + 1)⟩

variable {p p' : PkgProcess} {path : CString}

theorem pkgOpen_eq_none_iff : p.pkgOpen path = none ↔ p.waits path = true := by
  cases h : p.waits path <;> simp [pkgOpen, h]

theorem registry_of_pkgOpen (h : p.pkgOpen path = some p') :
    p'.registry = (JailFs.pkgOpen p.registry (p.answers path 0) path).registry := by
  rw [pkgOpen] at h
  split_ifs at h
  cases h
  rfl

/-- The calls that fail on an unlisted path keep the lock, and the others give it up. -/
theorem dbLocked_of_pkgOpen (h : p.pkgOpen path = some p') : p'.dbLocked =
    if (pkgHandleByname p.registry path).isSome then p.dbLocked
    else (p.answers path 0).fileFails || !(p.answers path 0).archiveOk := by
  rw [pkgOpen] at h
  split_ifs at h
  cases h
  rcases pkgOpen_cases p.registry (p.answers path 0) path with ⟨t, hfind, hopen⟩ |
    ⟨hfind, hfails, hopen⟩ | ⟨hfind, hfails, hbad, hopen⟩ | ⟨hfind, hfails, hgood, hopen⟩
  · rw [hopen, hfind]
    rfl
  · rw [hopen, hfind, hfails]
    rfl
  · rw [hopen, hfind, hfails, hbad]
    rfl
  · rw [hopen, hfind, hfails, hgood]
    cases (p.answers path 0).headerFails <;> rfl

/-- Before the first `pkg_open`, with packages that can be opened and are empty. -/
def fresh : PkgProcess :=
  ⟨pkgInit [] 0 60, false, fun _ _ => ⟨none, 0, 3, false, true, true, [], 0⟩⟩

end PkgProcess

end JailFs
