import JailFs.Blocking
import JailFs.CInt
import JailFs.PkgProcess

/-!
# The start-up scan of a package directory

`vfs_dir_walk_recurse` opens what it comes to and goes on, unless a `pkg_open` waits for the
database lock: then nothing comes after it. `scan` is the walk on which every `pkg_open` comes back,
and `vfsDirWalkRecurse_eq` says that the walk makes the calls of the scan up to the first one that
waits.
-/

namespace JailFs

open Blocking

def VFS_MAX_RECURSE : ℕ := 16

/-- What `opendir` and `readdir` list at a path, in their order, and what `is_dir` says of it. A
directory lists no name twice, and too few for an `int` that counts them to overflow. -/
structure FileSys where
  opendir : CString → Option (List CString)
  isDir : CString → Bool
  nodup : ∀ {path names}, opendir path = some names → names.Nodup
  noSlash : ∀ {path names name}, opendir path = some names → name ∈ names → 47 ∉ name.bytes
  short : ∀ {path names}, opendir path = some names → names.length + VFS_MAX_RECURSE < 2 ^ 31

/-- `r->d_name[0] == '.'` -/
def hidden (name : CString) : Bool := name.bytes.head? = some dot

inductive WalkStep
  | enter (path : CString)
  | pkgOpen (path : CString)
  deriving DecidableEq

/-- What a walk has done, and the packages after it, unless it waits in a `pkg_open` for ever. -/
structure Walked where
  steps : List WalkStep
  process : Option PkgProcess

/-- What comes next is done if the walk does not wait. -/
def Walked.andThen (w : Walked) (next : PkgProcess → Option Walked) : Option Walked :=
  match w.process with
  | none => some w
  | some p => (next p).map fun r => ⟨w.steps ++ r.steps, r.process⟩

/-- The loop of `vfs_dir_walk_recurse` over the entries still to come. -/
def vfsDirWalkEntries (fs : FileSys) (recurse : CString → ℤ → PkgProcess → Option Walked)
    (path : CString) : List CString → ℤ → PkgProcess → Option Walked
  | [], _, p => some ⟨[], some p⟩
  | name :: rest, depth, p =>
    if hidden name then vfsDirWalkEntries fs recurse path rest depth p
    else if fs.isDir (snprintfPath path name) then
      if wrapInt (depth + 1) < VFS_MAX_RECURSE then do
        let inner ← recurse (snprintfPath path name) (wrapInt (depth + 1)) p
        inner.andThen (vfsDirWalkEntries fs recurse path rest (wrapInt (depth + 1)))
      else vfsDirWalkEntries fs recurse path rest (wrapInt (depth + 1)) p
    -- a file without an extension ends the whole loop
    else if dot ∉ (snprintfPath path name).bytes then some ⟨[], some p⟩
    else
      let opened : Walked :=
        ⟨[.pkgOpen (snprintfPath path name)], p.pkgOpen (snprintfPath path name)⟩
      opened.andThen (vfsDirWalkEntries fs recurse path rest depth)

/-- `vfs_dir_walk_recurse`; `none` if the calls nest deeper than `fuel`. -/
def vfsDirWalkRecurse (fs : FileSys) : ℕ → CString → ℤ → PkgProcess → Option Walked
  | 0, _, _, _ => none
  | fuel + 1, path, depth, p =>
    match fs.opendir path with
    | none => some ⟨[], some p⟩
    | some names =>
      (vfsDirWalkEntries fs (vfsDirWalkRecurse fs fuel) path names depth p).map fun w =>
        ⟨.enter path :: w.steps, w.process⟩

/-- The loop over the entries, if every `pkg_open` comes back. -/
def scanEntries (fs : FileSys) (recurse : CString → ℤ → Option (List WalkStep))
    (path : CString) : List CString → ℤ → Option (List WalkStep)
  | [], _ => some []
  | name :: rest, depth =>
    if hidden name then scanEntries fs recurse path rest depth
    else if fs.isDir (snprintfPath path name) then
      if wrapInt (depth + 1) < VFS_MAX_RECURSE then do
        let inner ← recurse (snprintfPath path name) (wrapInt (depth + 1))
        let outer ← scanEntries fs recurse path rest (wrapInt (depth + 1))
        some (inner ++ outer)
      else scanEntries fs recurse path rest (wrapInt (depth + 1))
    else if dot ∉ (snprintfPath path name).bytes then some []
    else (scanEntries fs recurse path rest depth).map (.pkgOpen (snprintfPath path name) :: ·)

/-- The walk from a directory, if every `pkg_open` comes back. -/
def scan (fs : FileSys) : ℕ → CString → ℤ → Option (List WalkStep)
  | 0, _, _ => none
  | fuel + 1, path, depth =>
    match fs.opendir path with
    | none => some []
    | some names => (scanEntries fs (scan fs fuel) path names depth).map (.enter path :: ·)

/-- A step of the scan, if it comes back. -/
def WalkStep.run (p : PkgProcess) : WalkStep → Option PkgProcess
  | .enter _ => some p
  | .pkgOpen path => p.pkgOpen path

def PkgProcess.walk (p : PkgProcess) (steps : List WalkStep) : Walked :=
  ⟨made WalkStep.run p steps, runAll WalkStep.run p steps⟩

section Walk

variable {fs : FileSys} {path : CString} {names : List CString} {fuel : ℕ} {depth : ℤ}
  {p : PkgProcess} {l l' steps : List WalkStep}

theorem PkgProcess.walk_andThen {next : PkgProcess → Option Walked}
    (h : ∀ p : PkgProcess, next p = some (p.walk l')) :
    (p.walk l).andThen next = some (p.walk (l ++ l')) := by
  unfold Walked.andThen
  cases hl : runAll WalkStep.run p l with
  | none =>
    have happend : p.walk (l ++ l') = p.walk l := by
      rw [walk, made_append_of_none hl, runAll_append, hl, walk, hl]
      rfl
    rw [happend, walk, hl]
  | some p' =>
    have happend : p.walk (l ++ l') = ⟨l ++ (p'.walk l').steps, (p'.walk l').process⟩ := by
      rw [walk, made_append hl, runAll_append, hl]
      rfl
    rw [happend, walk, hl, made_eq_self hl]
    dsimp only
    rw [h]
    rfl

theorem vfsDirWalkEntries_eq {recurse : CString → ℤ → PkgProcess → Option Walked}
    {scanRec : CString → ℤ → Option (List WalkStep)}
    (hrec : ∀ sub d inner, scanRec sub d = some inner →
      ∀ p, recurse sub d p = some (p.walk inner))
    (hscan : scanEntries fs scanRec path names depth = some steps) (p : PkgProcess) :
    vfsDirWalkEntries fs recurse path names depth p = some (p.walk steps) := by
  induction names generalizing depth steps p with
  | nil =>
    cases hscan
    rfl
  | cons name rest ih =>
    unfold scanEntries at hscan
    unfold vfsDirWalkEntries
    split_ifs at hscan ⊢ with hh hd hlt hdot
    · exact ih hscan p
    · obtain ⟨inner, hinner, hscan⟩ := Option.bind_eq_some_iff.mp hscan
      obtain ⟨outer, houter, heq⟩ := Option.bind_eq_some_iff.mp hscan
      cases heq
      rw [hrec _ _ _ hinner p]
      exact PkgProcess.walk_andThen (ih houter)
    · exact ih hscan p
    · obtain ⟨outer, houter, rfl⟩ := Option.map_eq_some_iff.mp hscan
      have hopened : p.walk [.pkgOpen (snprintfPath path name)] =
          ⟨[.pkgOpen (snprintfPath path name)], p.pkgOpen (snprintfPath path name)⟩ := by
        rw [PkgProcess.walk, runAll_singleton, made, WalkStep.run]
        cases p.pkgOpen (snprintfPath path name) <;> rfl
      rw [← hopened]
      exact PkgProcess.walk_andThen (ih houter)
    · cases hscan
      rfl

theorem vfsDirWalkRecurse_eq (hscan : scan fs fuel path depth = some steps) (p : PkgProcess) :
    vfsDirWalkRecurse fs fuel path depth p = some (p.walk steps) := by
  induction fuel generalizing path depth steps p with
  | zero => cases hscan
  | succ fuel ih =>
    rw [scan] at hscan
    rw [vfsDirWalkRecurse]
    cases hd : fs.opendir path with
    | none =>
      rw [hd] at hscan
      cases hscan
      rfl
    | some names =>
      rw [hd] at hscan
      obtain ⟨inner, hinner, rfl⟩ := Option.map_eq_some_iff.mp hscan
      dsimp only
      rw [vfsDirWalkEntries_eq (fun sub d inner h => ih h) hinner p]
      rfl

end Walk

section Depth

variable {fs : FileSys} {path : CString} {names : List CString} {fuel depth : ℕ}

theorem wrapInt_depth (h : depth + 1 < 2 ^ 31) : wrapInt ((depth : ℤ) + 1) = (depth + 1 : ℕ) := by
  rw [wrapInt_of_lt (by omega) (by omega)]
  rfl

theorem scanEntries_isSome {recurse : CString → ℤ → Option (List WalkStep)}
    (hshort : names.length + depth < 2 ^ 31)
    (hrec : ∀ sub (d : ℕ), depth < d → d < VFS_MAX_RECURSE → ∃ inner, recurse sub d = some inner) :
    ∃ steps, scanEntries fs recurse path names depth = some steps := by
  induction names generalizing depth with
  | nil => exact ⟨[], rfl⟩
  | cons name rest ih =>
    rw [List.length_cons] at hshort
    have hnext := ih (show rest.length + (depth + 1) < 2 ^ 31 by omega) fun sub d hlt =>
      hrec sub d (by omega)
    unfold scanEntries
    rw [wrapInt_depth (by omega)]
    split_ifs with hh hd hlt hdot
    · exact ih (by omega) hrec
    · obtain ⟨inner, hinner⟩ := hrec (snprintfPath path name) (depth + 1) (Nat.lt_succ_self _)
        (by exact_mod_cast hlt)
      obtain ⟨outer, houter⟩ := hnext
      rw [hinner, houter]
      exact ⟨inner ++ outer, rfl⟩
    · exact hnext
    · obtain ⟨outer, houter⟩ := ih (by omega) hrec
      rw [houter]
      exact ⟨_, rfl⟩
    · exact ⟨[], rfl⟩

theorem scan_isSome (hdepth : depth < VFS_MAX_RECURSE) (hfuel : VFS_MAX_RECURSE ≤ depth + fuel) :
    ∃ steps, scan fs fuel path depth = some steps := by
  induction fuel generalizing path depth with
  | zero => omega
  | succ fuel ih =>
    rw [scan]
    cases hd : fs.opendir path with
    | none => exact ⟨[], rfl⟩
    | some names =>
      have hshort := fs.short hd
      obtain ⟨steps, hsteps⟩ := @scanEntries_isSome fs path names depth (scan fs fuel) (by omega)
        fun sub d hlt hd => ih hd (by omega)
      exact ⟨.enter path :: steps, congrArg (Option.map (.enter path :: ·)) hsteps⟩

end Depth

end JailFs
