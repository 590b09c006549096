import JailFs.CInt
import JailFs.CString
import Mathlib.Data.List.TakeDrop
import Mathlib.Logic.Function.Basic

/-!
# The pid file as a guard against a second instance

`file_exists` looks at `errno` after `stat` but not at what `stat` returned. A `stat` that finds the
file leaves `errno` as it was, so the answer then depends on the last call that failed, and a file
that exists may be taken for one that does not. `pid_contract_iff` lists all that `pidfile_open`
takes for granted.
-/

namespace JailFs

def EADDRINUSE : ℤ := 98

/-- What the calls of `pidfile_open` meet at a path: its file, the errors of `stat` and of
`fopen(path, "w")`, and how many bytes can be written there. -/
structure PathState where
  content : Option (List UInt8)
  statErrno : Option ℤ
  openErrno : Option ℤ
  space : ℕ
  stat_missing : content = none → statErrno ≠ none
  stat_present : content ≠ none → statErrno ≠ some ENOENT

namespace PathState

def present (p : PathState) : Bool := p.content.isSome

/-- A file that was created or emptied, and then written. -/
def written (p : PathState) (text : List UInt8) : PathState :=
  { p with
    content := some (text.take p.space)
    statErrno := none
    stat_missing := by simp
    stat_present := by simp }

def null : PathState := ⟨none, some EFAULT, some EFAULT, 0, by simp, by simp⟩

end PathState

inductive PidFault
  -- `fprintf` to a null stream, and a `memcpy` from beyond what may be read
  | nullStream | overread
  deriving DecidableEq

/-- The process as far as `pidfile_open` sees it. -/
structure PidProcess where
  errno : ℤ
  pidfileName : CString
  pidfile : Option CString
  files : CString → PathState

namespace PidProcess

/-- Before the first call, when library calls may have left anything in `errno`. -/
def first (errno : ℤ) (files : CString → PathState) : PidProcess :=
  ⟨errno, .ofChars [], none, files⟩

def pathState (s : PidProcess) : Option CString → PathState
  | none => .null
  | some path => s.files path

/-- `stat` sets `errno` if it fails and leaves it alone if not. -/
def stat (s : PidProcess) (path : Option CString) : PidProcess :=
  match (s.pathState path).statErrno with
  | none => s
  | some e => { s with errno := e }

def fileExists (s : PidProcess) (path : Option CString) : PidProcess × Bool :=
  let s := s.stat path
  (s, s.errno ≠ ENOENT)

def isFile (s : PidProcess) (path : Option CString) : PidProcess × Bool := s.fileExists path

end PidProcess

/-- `"%i\n"` -/
def pidText (pid : ℕ) : List UInt8 := bytesOf (toString pid ++ "\n")

/-- `pidfile_open` in the process `pid`, where `room` bytes may be read from the path on. -/
def pidfileOpen (pid room : ℕ) (path : Option CString) (s : PidProcess) :
    Except PidFault (PidProcess × ℤ) :=
  if s.pidfileName.bytes ≠ [] then .ok (s, -1)
  else
    let (s, found) := s.fileExists path
    if found then .ok ({ s with errno := EADDRINUSE }, -1)
    else
      match path with
      | none => .error .nullStream
      | some path =>
        -- when `fopen` fails, that is logged and nothing else
        if (s.files path).openErrno ≠ none then .error .nullStream
        -- `memcpy` takes as much as `pidfile_name` holds, however short the path is
        else if room < PATH_MAX then .error .overread
        else
          let file := (s.files path).written (pidText pid)
          .ok (⟨s.errno, path.take PATH_MAX, some path, Function.update s.files path file⟩, 0)

def PathState.Writable (p : PathState) (pid : ℕ) : Prop :=
  p.openErrno = none ∧ (pidText pid).length ≤ p.space

def PidContract (pid room : ℕ) (path : Option CString) (s : PidProcess) : Prop :=
  (s.fileExists path).2 = (s.pathState path).present ∧
    ∃ t r, pidfileOpen pid room path s = .ok (t, r) ∧
      if (s.pathState path).present then r = -1 ∧ t.files = s.files
      else (r = 0 ∧ (t.pathState path).content = some (pidText pid)) ∨
        (r ≠ 0 ∧ ¬ (s.pathState path).Writable pid)

/-- When the guard works: where there is a file, `stat` fails or `errno` is not left at `ENOENT`;
where there is none, `stat` says so and the file can be written; and the path is followed by as
much memory as is copied. -/
def PidCondition (pid room : ℕ) (path : Option CString) (s : PidProcess) : Prop :=
  if (s.pathState path).present then (s.pathState path).statErrno = none → s.errno ≠ ENOENT
  else (s.pathState path).statErrno = some ENOENT ∧ (s.pathState path).Writable pid ∧
    PATH_MAX ≤ room

variable {pid room : ℕ} {path : Option CString} {errno : ℤ} {files : CString → PathState}
  {s : PidProcess}

theorem PathState.present_iff {p : PathState} : p.present ↔ p.content ≠ none := by
  rw [present, Option.isSome_iff_ne_none]

theorem PathState.content_written {p : PathState} {text : List UInt8} :
    (p.written text).content = some text ↔ text.length ≤ p.space := by
  rw [written, Option.some_inj, List.take_eq_self_iff]

theorem PidProcess.fileExists_iff :
    (s.fileExists path).2 ↔ (s.stat path).errno ≠ ENOENT := by
  simp [fileExists]

theorem PidProcess.fileExists_present (h : (s.pathState path).present) :
    (s.fileExists path).2 ↔ ((s.pathState path).statErrno = none → s.errno ≠ ENOENT) := by
  rw [fileExists_iff, stat]
  have hstat := (s.pathState path).stat_present (PathState.present_iff.mp h)
  cases he : (s.pathState path).statErrno with
  | none => simp
  | some e =>
    rw [he] at hstat
    simpa using hstat

theorem PidProcess.fileExists_missing (h : ¬ (s.pathState path).present) :
    (s.fileExists path).2 ↔ (s.pathState path).statErrno ≠ some ENOENT := by
  rw [fileExists_iff, stat]
  have hstat := (s.pathState path).stat_missing (by
    rw [PathState.present_iff, not_not] at h
    exact h)
  cases he : (s.pathState path).statErrno with
  | none => exact absurd he hstat
  | some e => simp

@[simp] theorem PidProcess.stat_files : (s.stat path).files = s.files := by
  rw [stat]
  split <;> rfl

theorem pidfileOpen_found (hfirst : s.pidfileName.bytes = []) (h : (s.fileExists path).2) :
    pidfileOpen pid room path s = .ok ({ s.stat path with errno := EADDRINUSE }, -1) := by
  rw [pidfileOpen, if_neg (not_not.mpr hfirst)]
  exact if_pos h

theorem pidfileOpen_not_found {p : CString} (hfirst : s.pidfileName.bytes = [])
    (h : ¬ (s.fileExists (some p)).2) :
    pidfileOpen pid room (some p) s =
      if (s.files p).openErrno ≠ none then .error .nullStream
      else if room < PATH_MAX then .error .overread
      else .ok (⟨(s.stat (some p)).errno, p.take PATH_MAX, some p,
        Function.update s.files p ((s.files p).written (pidText pid))⟩, 0) := by
  rw [pidfileOpen, if_neg (not_not.mpr hfirst)]
  simp only [PidProcess.fileExists, PidProcess.stat_files] at h ⊢
  exact if_neg h

theorem pid_contract_iff (pid room : ℕ) (path : Option CString) (errno : ℤ)
    (files : CString → PathState) :
    PidContract pid room path (.first errno files) ↔
      PidCondition pid room path (.first errno files) := by
  let s := PidProcess.first errno files
  have hfirst : s.pidfileName.bytes = [] := rfl
  change PidContract pid room path s ↔ PidCondition pid room path s
  rw [PidContract, PidCondition]
  by_cases hpresent : (s.pathState path).present
  · rw [if_pos hpresent, ← PidProcess.fileExists_present hpresent, hpresent]
    refine ⟨fun h => h.1, fun h => ⟨h, _, _, pidfileOpen_found hfirst h, ?_⟩⟩
    rw [if_pos rfl]
    exact ⟨rfl, PidProcess.stat_files⟩
  · have hexists := PidProcess.fileExists_missing hpresent
    simp only [hpresent, Bool.false_eq_true, if_false]
    constructor
    · rintro ⟨hanswer, t, r, hret, h⟩
      have hnot : ¬ (s.fileExists path).2 := by simp [hanswer]
      have hstat : (s.pathState path).statErrno = some ENOENT :=
        not_not.mp fun h => hnot (hexists.mpr h)
      refine ⟨hstat, ?_⟩
      cases path with
      | none => cases hstat
      | some p =>
        rw [pidfileOpen_not_found hfirst hnot] at hret
        split_ifs at hret with hopen hroom
        cases hret
        have hcontent := (h.resolve_right fun h => h.1 rfl).2
        simp only [PidProcess.pathState, Function.update_self] at hcontent
        exact ⟨⟨not_not.mp hopen, PathState.content_written.mp hcontent⟩, Nat.le_of_not_lt hroom⟩
    · rintro ⟨hstat, ⟨hopen, hspace⟩, hroom⟩
      have hnot : ¬ (s.fileExists path).2 := fun h => hexists.mp h hstat
      refine ⟨by simp [hnot], ?_⟩
      cases path with
      | none => cases hstat
      | some p =>
        refine ⟨_, _, (pidfileOpen_not_found hfirst hnot).trans
          ((if_neg (not_not.mpr hopen)).trans (if_neg (Nat.not_lt_of_le hroom))), .inl ⟨rfl, ?_⟩⟩
        simp only [PidProcess.pathState, Function.update_self]
        exact PathState.content_written.mpr hspace

/-- A directory in which the process `1` holds the pid file `p`. -/
def runningJail (path : CString) : PathState :=
  if path = .ofChars ['p'] then ⟨some (pidText 1), none, none, 512, by simp, by simp [ENOENT]⟩
  else ⟨none, some ENOENT, none, 512, by simp, by simp⟩

/-- A second instance that has looked for some missing file takes the pid file over. -/
theorem pid_file_taken_over :
    ∃ s t : PidProcess, s = ((PidProcess.first 0 runningJail).isFile (some (.ofChars ['m']))).1 ∧
      (s.pathState (some (.ofChars ['p']))).content = some (pidText 1) ∧
      pidfileOpen 2 PATH_MAX (some (.ofChars ['p'])) s = .ok (t, 0) ∧
      (t.pathState (some (.ofChars ['p']))).content = some (pidText 2) ∧
      ¬ PidContract 2 PATH_MAX (some (.ofChars ['p'])) s := by
  have hnot : ¬ (((PidProcess.first 0 runningJail).isFile (some (.ofChars ['m']))).1.fileExists
      (some (.ofChars ['p']))).2 := by decide
  refine ⟨_, _, rfl, rfl, pidfileOpen_not_found rfl hnot, ?_, fun h => ?_⟩
  · simp only [PidProcess.pathState, Function.update_self]
    exact PathState.content_written.mpr (by decide)
  · exact hnot (h.1.trans rfl)

end JailFs
