import JailFs.DirNesting

/-!
# One directory of the scan, entry by entry

`visits` lists what the loop of `vfs_dir_walk_recurse` does with each entry it comes to, and
`vfsDirWalkEntries_eq_runVisits` says that the loop is the run of this list. A file whose whole path
has no `.` ends the list, each subdirectory, entered or not, raises the depth for the entries after
it, and a `pkg_open` that waits, here or further below, ends the run. `entriesProcessed_iff` says
for which listings none of these hides another entry.
-/

namespace JailFs

open Blocking

/-- What the loop does with one entry. -/
inductive Visit
  | hide
  | descend (sub : CString) (depth : ℤ)
  | tooDeep
  | noExt
  | pkgOpen (path : CString)
  deriving DecidableEq

section Run

variable (recurse : CString → ℤ → PkgProcess → Option Walked)

def Visit.walk (p : PkgProcess) : Visit → Option Walked
  | .descend sub depth => recurse sub depth p
  | .pkgOpen path => some ⟨[.pkgOpen path], p.pkgOpen path⟩
  | .hide => some ⟨[], some p⟩
  | .tooDeep => some ⟨[], some p⟩
  | .noExt => some ⟨[], some p⟩

/-- A visit, if it comes back. -/
def Visit.run (p : PkgProcess) (v : CString × Visit) : Option PkgProcess :=
  (v.2.walk recurse p).bind Walked.process

/-- The recursive calls and the `pkg_open` calls that a list of visits makes. -/
def runVisits : List (CString × Visit) → PkgProcess → Option Walked
  | [], p => some ⟨[], some p⟩
  | v :: rest, p => (v.2.walk recurse p).bind (·.andThen (runVisits rest))

end Run

namespace FileSys

section Entries

variable (fs : FileSys) (path : CString)

def visitEntry (name : CString) (depth : ℤ) : Visit :=
  if hidden name then .hide
  else if fs.isDir (snprintfPath path name) then
    if wrapInt (depth + 1) < VFS_MAX_RECURSE then
      .descend (snprintfPath path name) (wrapInt (depth + 1))
    else .tooDeep
  else if dot ∉ (snprintfPath path name).bytes then .noExt
  else .pkgOpen (snprintfPath path name)

/-- The entries that the loop comes to, with what it does there. -/
def visits : List CString → ℤ → List (CString × Visit)
  | [], _ => []
  | name :: rest, depth =>
    match fs.visitEntry path name depth with
    | .hide => (name, .hide) :: visits rest depth
    | .descend sub d => (name, .descend sub d) :: visits rest (wrapInt (depth + 1))
    | .tooDeep => (name, .tooDeep) :: visits rest (wrapInt (depth + 1))
    | .noExt => [(name, .noExt)]
    | .pkgOpen p => (name, .pkgOpen p) :: visits rest depth

/-- A visible file without a `.` in its path. -/
def stops (name : CString) : Bool :=
  !hidden name && !fs.isDir (snprintfPath path name) && dot ∉ (snprintfPath path name).bytes

def deepens (name : CString) : Bool := !hidden name && fs.isDir (snprintfPath path name)

/-- The entries that the walk is meant to pass over: hidden ones, files whose name has no
extension, and subdirectories that cannot be read or lie too deep. -/
def skipped (depth : ℕ) (name : CString) : Bool :=
  hidden name ||
    if fs.isDir (joinPath path name) then
      !fs.readable (joinPath path name) || VFS_MAX_RECURSE ≤ depth + 1
    else dot ∉ name.bytes

/-- The entries that the loop comes to before one of them does not come back. -/
def visitsMade (fuel : ℕ) (names : List CString) (depth : ℤ) (p : PkgProcess) :
    List (CString × Visit) :=
  made (Visit.run (vfsDirWalkRecurse fs fuel)) p (fs.visits path names depth)

/-- The loop over `names` opens the subdirectory `name`. -/
def Descends (fuel : ℕ) (names : List CString) (depth : ℤ) (p : PkgProcess) (name : CString) :
    Prop :=
  ∃ d, (name, .descend (joinPath path name) d) ∈ fs.visitsMade path fuel names depth p

/-- Every visible file with an extension gets its one `pkg_open`, and a readable subdirectory is
entered if it is entered once the entries to be skipped are taken off the listing before it. -/
def EntriesProcessed (fuel : ℕ) (names : List CString) (depth : ℕ) (p : PkgProcess) : Prop :=
  (∀ name ∈ names, hidden name = false → fs.isDir (joinPath path name) = false →
    dot ∈ name.bytes →
      (fs.visitsMade path fuel names depth p).filter (·.1 = name) =
        [(name, .pkgOpen (joinPath path name))]) ∧
  ∀ before name after, names = before ++ name :: after → hidden name = false →
    fs.isDir (joinPath path name) = true → fs.readable (joinPath path name) = true →
      fs.Descends path fuel (before.filter (!fs.skipped path depth ·) ++ name :: after) depth p
        name → fs.Descends path fuel names depth p name

/-- None of these entries ends the loop, and every `pkg_open` that the scan makes for them comes
back. -/
def PassedBy (fuel : ℕ) (before : List CString) (depth : ℕ) (p : PkgProcess) : Prop :=
  (∀ n ∈ before, fs.stops path n = false) ∧
    ∃ steps, scanEntries fs (scan fs fuel) path before depth = some steps ∧
      Returns WalkStep.run p steps

/-- The loop passes by these entries, and they do not lift the depth to the bound. -/
def Clear (fuel : ℕ) (before : List CString) (depth : ℕ) (p : PkgProcess) : Prop :=
  fs.PassedBy path fuel before depth p ∧
    depth + before.countP (fs.deepens path) + 1 < VFS_MAX_RECURSE

def InOrder (fuel : ℕ) (names : List CString) (depth : ℕ) (p : PkgProcess) : Prop :=
  ∀ before name after, names = before ++ name :: after → hidden name = false →
    (fs.isDir (joinPath path name) = false → dot ∈ name.bytes →
      (joinPath path name).length ≤ PATH_MAX - 2 ∧ fs.PassedBy path fuel before depth p) ∧
    (fs.isDir (joinPath path name) = true → fs.readable (joinPath path name) = true →
      (joinPath path name).length ≤ PATH_MAX - 2 →
        fs.Clear path fuel (before.filter (!fs.skipped path depth ·)) depth p →
          fs.Clear path fuel before depth p)

end Entries

end FileSys

section Run

variable {recurse : CString → ℤ → PkgProcess → Option Walked} {l : List (CString × Visit)}
  {p : PkgProcess}

@[simp] theorem Walked.andThen_nil {next : PkgProcess → Option Walked} :
    (⟨[], some p⟩ : Walked).andThen next = next p := Option.map_id'

theorem process_of_runVisits {w : Walked} (h : runVisits recurse l p = some w) :
    w.process = runAll (Visit.run recurse) p l := by
  induction l generalizing p w with
  | nil =>
    cases h
    rfl
  | cons v rest ih =>
    obtain ⟨w₁, hv, h⟩ := Option.bind_eq_some_iff.mp h
    rw [runAll_cons, Visit.run, hv, Option.bind_some]
    unfold Walked.andThen at h
    cases hp : w₁.process with
    | none =>
      rw [hp] at h
      cases h
      exact hp
    | some p₁ =>
      rw [hp] at h
      obtain ⟨r, hr, heq⟩ := Option.map_eq_some_iff.mp h
      cases heq
      have hprocess := ih hr
      exact hprocess

theorem runVisits_made : runVisits recurse (made (Visit.run recurse) p l) p =
    runVisits recurse l p := by
  induction l generalizing p with
  | nil => rfl
  | cons v rest ih =>
    rw [made, runVisits, Visit.run]
    cases hv : v.2.walk recurse p with
    | none => simp [runVisits, hv]
    | some w =>
      cases hp : w.process with
      | none => simp [runVisits, hv, hp, Walked.andThen]
      | some p₁ => simp [runVisits, hv, hp, Walked.andThen, ih]

end Run

namespace FileSys

section Visits

variable (fs : FileSys) (path : CString)

theorem vfsDirWalkEntries_eq_runVisits (recurse : CString → ℤ → PkgProcess → Option Walked)
    (names : List CString) (depth : ℤ) (p : PkgProcess) :
    vfsDirWalkEntries fs recurse path names depth p =
      runVisits recurse (fs.visits path names depth) p := by
  induction names generalizing depth p with
  | nil => rfl
  | cons name rest ih =>
    have hrest (d : ℤ) : vfsDirWalkEntries fs recurse path rest d =
        runVisits recurse (fs.visits path rest d) := funext (ih d)
    unfold vfsDirWalkEntries visits visitEntry
    by_cases hh : hidden name = true
    · simp only [if_pos hh, hrest, runVisits, Visit.walk, Option.bind_some, Walked.andThen_nil]
    · by_cases hd : fs.isDir (snprintfPath path name) = true
      · by_cases hlt : wrapInt (depth + 1) < VFS_MAX_RECURSE
        · simp only [if_neg hh, if_pos hd, if_pos hlt, hrest, runVisits, Visit.walk]
          rfl
        · simp only [if_neg hh, if_pos hd, if_neg hlt, hrest, runVisits, Visit.walk,
            Option.bind_some, Walked.andThen_nil]
      · by_cases hdot : dot ∉ (snprintfPath path name).bytes
        · simp only [if_neg hh, if_neg hd, if_pos hdot, runVisits, Visit.walk, Option.bind_some,
            Walked.andThen_nil]
        · simp only [if_neg hh, if_neg hd, if_neg hdot, hrest, runVisits, Visit.walk,
            Option.bind_some]

variable {fs path} {name : CString} {before after rest : List CString} {depth fuel : ℕ}
  {p : PkgProcess}

/-- The loop stops at the entry or goes on with the depth raised by a subdirectory. -/
theorem visits_cons (hdepth : depth + 1 < 2 ^ 31) :
    fs.visits path (name :: rest) depth = (name, fs.visitEntry path name depth) ::
      if fs.stops path name then []
      else fs.visits path rest ↑(depth + if fs.deepens path name then 1 else 0) := by
  rw [visits, stops, deepens]
  unfold visitEntry
  by_cases hh : hidden name = true
  · simp [hh]
  · rw [Bool.not_eq_true] at hh
    cases hd : fs.isDir (snprintfPath path name) with
    | true =>
      rw [wrapInt_depth hdepth, if_neg (by simp [hh]), if_pos rfl]
      by_cases hlt : ((depth + 1 : ℕ) : ℤ) < VFS_MAX_RECURSE
      · rw [if_pos hlt]
        simp [hh]
      · rw [if_neg hlt]
        simp [hh]
    | false =>
      by_cases hdot : dot ∈ (snprintfPath path name).bytes
      · simp [hh, hdot]
      · simp [hh, hdot]

theorem mem_of_mem_visits {names : List CString} {depth : ℤ} {v : CString × Visit}
    (h : v ∈ fs.visits path names depth) : v.1 ∈ names := by
  induction names generalizing depth with
  | nil => cases h
  | cons name rest ih =>
    rw [visits] at h
    cases hv : fs.visitEntry path name depth <;> rw [hv] at h <;>
      rcases List.mem_cons.mp h with rfl | hrest <;>
      first
        | exact List.mem_cons_self
        | exact List.mem_cons_of_mem _ (ih hrest)
        | cases hrest

theorem visits_append (hdepth : before.length + depth < 2 ^ 31) :
    fs.visits path (before ++ rest) depth =
      if ∀ n ∈ before, fs.stops path n = false then
        fs.visits path before depth ++
          fs.visits path rest ↑(depth + before.countP (fs.deepens path))
      else fs.visits path before depth := by
  induction before generalizing depth with
  | nil => simp [visits]
  | cons n before ih =>
    rw [List.length_cons] at hdepth
    rw [List.cons_append, visits_cons (by omega), visits_cons (by omega)]
    cases hs : fs.stops path n with
    | true => simp [hs]
    | false =>
      have hraised : (depth + if fs.deepens path n then 1 else 0) +
          before.countP (fs.deepens path) = depth + (n :: before).countP (fs.deepens path) := by
        rw [List.countP_cons]
        omega
      rw [if_neg Bool.false_ne_true, if_neg Bool.false_ne_true, ih (by split_ifs <;> omega),
        hraised]
      by_cases hall : ∀ n ∈ before, fs.stops path n = false
      · have hall' : ∀ m ∈ n :: before, fs.stops path m = false :=
          List.forall_mem_cons.mpr ⟨hs, hall⟩
        rw [if_pos hall, if_pos hall', List.cons_append]
      · rw [if_neg hall, if_neg fun h => hall (List.forall_mem_cons.mp h).2]

theorem filter_visits_of_not_mem {names : List CString} {d : ℤ} {l : List (CString × Visit)}
    (hname : name ∉ names) (hl : l ⊆ fs.visits path names d) :
    l.filter (·.1 = name) = [] := by
  rw [List.filter_eq_nil_iff]
  intro v hv heq
  exact hname (of_decide_eq_true heq ▸ mem_of_mem_visits (hl hv))

theorem returns_visits_iff (hdepth : before.length + depth < 2 ^ 31)
    (hfuel : VFS_MAX_RECURSE ≤ depth + 1 + fuel) :
    Returns (Visit.run (vfsDirWalkRecurse fs fuel)) p (fs.visits path before depth) ↔
      ∃ steps, scanEntries fs (scan fs fuel) path before depth = some steps ∧
        Returns WalkStep.run p steps := by
  obtain ⟨steps, hsteps⟩ := @scanEntries_isSome fs path before depth (scan fs fuel) hdepth
    fun sub d hlt hd => scan_isSome hd (by omega)
  have hwalk := vfsDirWalkEntries_eq (fun sub d inner h => vfsDirWalkRecurse_eq h) hsteps p
  rw [vfsDirWalkEntries_eq_runVisits] at hwalk
  rw [Returns, ← process_of_runVisits hwalk, hsteps]
  simp [PkgProcess.walk, Returns]

/-- The visits of an entry: none if an entry before it ends the loop or does not come back, else
one, at the depth to which the subdirectories before it have raised it. -/
theorem visitsMade_filter_eq (hbefore : name ∉ before) (hafter : name ∉ after)
    (hdepth : before.length + depth + 1 < 2 ^ 31) (hfuel : VFS_MAX_RECURSE ≤ depth + 1 + fuel) :
    (fs.PassedBy path fuel before depth p →
      (fs.visitsMade path fuel (before ++ name :: after) depth p).filter (·.1 = name) =
        [(name, fs.visitEntry path name ↑(depth + before.countP (fs.deepens path)))]) ∧
    (¬ fs.PassedBy path fuel before depth p →
      (fs.visitsMade path fuel (before ++ name :: after) depth p).filter (·.1 = name) = []) := by
  have hcount : before.countP (fs.deepens path) ≤ before.length := List.countP_le_length
  have hpassed := @returns_visits_iff fs path before depth fuel p (by omega) hfuel
  rw [PassedBy, ← hpassed, visitsMade, visits_append (by omega)]
  by_cases hs : ∀ n ∈ before, fs.stops path n = false
  · rw [if_pos hs, visits_cons (by omega)]
    cases hrun : runAll (Visit.run (vfsDirWalkRecurse fs fuel)) p (fs.visits path before depth) with
    | none =>
      refine ⟨fun h => ?_, fun _ => ?_⟩
      · rw [Returns, hrun] at h
        exact absurd h.2 Bool.false_ne_true
      · rw [made_append_of_none hrun]
        exact filter_visits_of_not_mem hbefore made_isPrefix.subset
    | some p' =>
      refine ⟨fun _ => ?_, fun h => absurd ⟨hs, by rw [Returns, hrun]; rfl⟩ h⟩
      rw [made_append hrun, List.filter_append,
        filter_visits_of_not_mem hbefore (List.Subset.refl _), List.nil_append, made]
      have hrest (p : PkgProcess) (d : ℤ) :
          (made (Visit.run (vfsDirWalkRecurse fs fuel)) p (if fs.stops path name then []
            else fs.visits path after d)).filter (·.1 = name) = [] := by
        cases fs.stops path name with
        | true => rfl
        | false => exact filter_visits_of_not_mem hafter made_isPrefix.subset
      cases Visit.run (vfsDirWalkRecurse fs fuel) p' _ with
      | none => simp
      | some p'' =>
        dsimp only
        rw [List.filter_cons_of_pos (by simp), hrest]
  · rw [if_neg hs]
    refine ⟨fun h => absurd h.1 hs, fun _ => ?_⟩
    exact filter_visits_of_not_mem hbefore made_isPrefix.subset

theorem visitEntry_eq_pkgOpen_iff {depth : ℤ} (hh : hidden name = false)
    (hd : fs.isDir (joinPath path name) = false) (hdot : dot ∈ name.bytes) :
    fs.visitEntry path name depth = .pkgOpen (joinPath path name) ↔
      (joinPath path name).length ≤ PATH_MAX - 2 := by
  rw [← snprintfPath_eq_joinPath_iff]
  unfold visitEntry
  constructor
  · intro h
    rw [if_neg (by simp [hh])] at h
    split_ifs at h with hd' hlt hdot'
    exact Visit.pkgOpen.inj h
  · intro heq
    have hmem : dot ∈ (joinPath path name).bytes := List.mem_append_right _ hdot
    simp [heq, hh, hd, hmem]

theorem visitEntry_eq_descend_iff (hh : hidden name = false)
    (hd : fs.isDir (joinPath path name) = true) (hdepth : depth + 1 < 2 ^ 31) :
    (∃ d, fs.visitEntry path name depth = .descend (joinPath path name) d) ↔
      (joinPath path name).length ≤ PATH_MAX - 2 ∧ depth + 1 < VFS_MAX_RECURSE := by
  rw [← snprintfPath_eq_joinPath_iff]
  unfold visitEntry
  rw [if_neg (by simp [hh]), wrapInt_depth hdepth]
  constructor
  · rintro ⟨d, h⟩
    split_ifs at h with hd' hlt hdot
    exact ⟨(Visit.descend.inj h).1, by exact_mod_cast hlt⟩
  · rintro ⟨heq, hlt⟩
    refine ⟨(depth + 1 : ℕ), ?_⟩
    rw [heq, if_pos hd, if_pos (by exact_mod_cast hlt)]

theorem descends_iff_filter {names : List CString} {d : ℤ} :
    fs.Descends path fuel names d p name ↔ ∃ d', (name, .descend (joinPath path name) d') ∈
      (fs.visitsMade path fuel names d p).filter (·.1 = name) := by
  simp [Descends]

/-- A visible subdirectory is entered if its path fits into the buffer and the entries before it
let the loop come to it in time. -/
theorem descends_append_iff (hbefore : name ∉ before) (hafter : name ∉ after)
    (hdepth : before.length + depth + 1 < 2 ^ 31) (hfuel : VFS_MAX_RECURSE ≤ depth + 1 + fuel)
    (hh : hidden name = false) (hd : fs.isDir (joinPath path name) = true) :
    fs.Descends path fuel (before ++ name :: after) depth p name ↔
      (joinPath path name).length ≤ PATH_MAX - 2 ∧ fs.Clear path fuel before depth p := by
  have hcount : before.countP (fs.deepens path) ≤ before.length := List.countP_le_length
  obtain ⟨hvisit, hnone⟩ := @visitsMade_filter_eq fs path name before after depth fuel p hbefore
    hafter hdepth hfuel
  rw [descends_iff_filter, Clear, and_left_comm]
  by_cases hs : fs.PassedBy path fuel before depth p
  · have hsingle (d : ℤ) (v : Visit) :
        (name, .descend (joinPath path name) d) ∈ [(name, v)] ↔
          v = .descend (joinPath path name) d := by
      rw [List.mem_singleton, Prod.mk.injEq, eq_self, true_and, eq_comm]
    simp only [hvisit hs, hsingle]
    rw [visitEntry_eq_descend_iff hh hd (by omega), and_iff_right hs]
  · simp [hnone hs, hs]

theorem visits_file_iff (hbefore : name ∉ before) (hafter : name ∉ after)
    (hdepth : before.length + depth + 1 < 2 ^ 31) (hfuel : VFS_MAX_RECURSE ≤ depth + 1 + fuel)
    (hh : hidden name = false) (hd : fs.isDir (joinPath path name) = false)
    (hdot : dot ∈ name.bytes) :
    (fs.visitsMade path fuel (before ++ name :: after) depth p).filter (·.1 = name) =
        [(name, .pkgOpen (joinPath path name))] ↔
      (joinPath path name).length ≤ PATH_MAX - 2 ∧ fs.PassedBy path fuel before depth p := by
  obtain ⟨hvisit, hnone⟩ := @visitsMade_filter_eq fs path name before after depth fuel p hbefore
    hafter hdepth hfuel
  by_cases hs : fs.PassedBy path fuel before depth p
  · rw [hvisit hs, and_iff_left hs, List.cons.injEq, and_iff_left rfl, Prod.mk.injEq,
      and_iff_right rfl]
    exact visitEntry_eq_pkgOpen_iff hh hd hdot
  · simp [hnone hs, hs]

theorem split_of_opendir {names : List CString} (hopen : fs.opendir path = some names)
    (hdepth : depth < VFS_MAX_RECURSE) (h : names = before ++ name :: after) :
    name ∉ before ∧ name ∉ after ∧ before.length + depth + 1 < 2 ^ 31 := by
  have hnodup := fs.nodup hopen
  have hshort := fs.short hopen
  rw [h, List.nodup_append] at hnodup
  rw [h, List.length_append, List.length_cons] at hshort
  refine ⟨fun hb => hnodup.2.2 _ hb _ List.mem_cons_self rfl, ?_, by omega⟩
  exact (List.nodup_cons.mp hnodup.2.1).1

end Visits

section Directory

variable {fs : FileSys} {path name : CString} {names before after : List CString} {depth fuel : ℕ}
  {p : PkgProcess}

/-- What the listing without the entries to be skipped promises for a readable subdirectory, and
what the listing as it is keeps of it. -/
theorem descends_imp_iff (hopen : fs.opendir path = some names) (hdepth : depth < VFS_MAX_RECURSE)
    (hfuel : VFS_MAX_RECURSE ≤ depth + 1 + fuel) (h : names = before ++ name :: after)
    (hh : hidden name = false) (hd : fs.isDir (joinPath path name) = true) :
    (fs.Descends path fuel (before.filter (!fs.skipped path depth ·) ++ name :: after) depth p
        name → fs.Descends path fuel names depth p name) ↔
      ((joinPath path name).length ≤ PATH_MAX - 2 →
        fs.Clear path fuel (before.filter (!fs.skipped path depth ·)) depth p →
          fs.Clear path fuel before depth p) := by
  obtain ⟨hbefore, hafter, hlen⟩ := split_of_opendir hopen hdepth h
  have hkept := List.length_filter_le (!fs.skipped path depth ·) before
  rw [h, descends_append_iff hbefore hafter hlen hfuel hh hd, descends_append_iff
    (fun hm => hbefore (List.mem_of_mem_filter hm)) hafter (by omega) hfuel hh hd]
  constructor
  · intro hmoved hfit hclear
    exact (hmoved ⟨hfit, hclear⟩).2
  · intro hclear hmoved
    exact ⟨hmoved.1, hclear hmoved.1 hmoved.2⟩

theorem entriesProcessed_iff_inOrder (hopen : fs.opendir path = some names)
    (hdepth : depth < VFS_MAX_RECURSE) (hfuel : VFS_MAX_RECURSE ≤ depth + 1 + fuel) :
    fs.EntriesProcessed path fuel names depth p ↔ fs.InOrder path fuel names depth p := by
  constructor
  · rintro ⟨hfiles, hdirs⟩ before name after h hh
    obtain ⟨hbefore, hafter, hlen⟩ := split_of_opendir hopen hdepth h
    constructor
    · intro hd hdot
      have hvisit := hfiles name (by rw [h]; simp) hh hd hdot
      rw [h] at hvisit
      exact (visits_file_iff hbefore hafter hlen hfuel hh hd hdot).mp hvisit
    · intro hd hread
      exact (descends_imp_iff hopen hdepth hfuel h hh hd).mp (hdirs before name after h hh hd hread)
  · intro horder
    constructor
    · intro name hname hh hd hdot
      obtain ⟨before, after, h⟩ := List.append_of_mem hname
      obtain ⟨hbefore, hafter, hlen⟩ := split_of_opendir hopen hdepth h
      rw [h]
      exact (visits_file_iff hbefore hafter hlen hfuel hh hd hdot).mpr
        ((horder before name after h hh).1 hd hdot)
    · intro before name after h hh hd hread
      exact (descends_imp_iff hopen hdepth hfuel h hh hd).mpr
        ((horder before name after h hh).2 hd hread)

/-- In every directory that the walk enters it ends and does what the visits say, up to the first
one that does not come back, and these process every entry exactly if the listing is in order. -/
theorem entriesProcessed_iff (hopen : fs.opendir path = some names)
    (hdepth : depth < VFS_MAX_RECURSE) (hfuel : VFS_MAX_RECURSE ≤ depth + 1 + fuel)
    (p : PkgProcess) :
    (∃ w, runVisits (vfsDirWalkRecurse fs fuel) (fs.visitsMade path fuel names depth p) p = some w ∧
      vfsDirWalkRecurse fs (fuel + 1) path depth p = some ⟨.enter path :: w.steps, w.process⟩) ∧
      (fs.EntriesProcessed path fuel names depth p ↔ fs.InOrder path fuel names depth p) := by
  refine ⟨?_, entriesProcessed_iff_inOrder hopen hdepth hfuel⟩
  have hshort := fs.short hopen
  obtain ⟨steps, hsteps⟩ := @scanEntries_isSome fs path names depth (scan fs fuel) (by omega)
    fun sub d hlt hd => scan_isSome hd (by omega)
  have hwalk := vfsDirWalkEntries_eq (fun sub d inner h => vfsDirWalkRecurse_eq h) hsteps p
  refine ⟨p.walk steps, ?_, ?_⟩
  · rw [visitsMade, runVisits_made, ← vfsDirWalkEntries_eq_runVisits, hwalk]
  · rw [vfsDirWalkRecurse, hopen]
    dsimp only
    rw [hwalk]
    rfl

end Directory

end FileSys

section Readme

def readmeNames : List CString :=
  [.ofChars ['R', 'E', 'A', 'D', 'M', 'E'], .ofChars ['a', '.', 'p', 'k', 'g']]

/-- A package directory that lists a `README` before a package. -/
def readmeSys : FileSys where
  opendir path := if path = pkgRoot then some readmeNames else none
  isDir path := path = pkgRoot
  nodup h := by
    split_ifs at h
    cases h
    decide +kernel
  noSlash h := by
    split_ifs at h
    cases h
    exact fun hname => (by decide +kernel : ∀ n ∈ readmeNames, 47 ∉ n.bytes) _ hname
  short h := by
    split_ifs at h
    cases h
    decide

theorem entriesProcessed_iff_readme :
    (∃ w, runVisits (vfsDirWalkRecurse readmeSys 14)
        (readmeSys.visitsMade pkgRoot 14 readmeNames (1 : ℕ) .fresh) .fresh = some w ∧
      vfsDirWalkRecurse readmeSys 15 pkgRoot (1 : ℕ) .fresh =
        some ⟨.enter pkgRoot :: w.steps, w.process⟩) ∧
      (readmeSys.EntriesProcessed pkgRoot 14 readmeNames 1 .fresh ↔
        readmeSys.InOrder pkgRoot 14 readmeNames 1 .fresh) :=
  FileSys.entriesProcessed_iff rfl (by decide) (by decide) .fresh

/-- The scan of the directory ends at the `README`, and the package is not opened. -/
theorem readme_hides_pkg :
    readmeSys.opendir pkgRoot = some readmeNames ∧
      (vfsDirWalkRecurse readmeSys VFS_MAX_RECURSE pkgRoot 1 .fresh).map Walked.steps =
        some [.enter pkgRoot] ∧
      ¬ readmeSys.EntriesProcessed pkgRoot 15 readmeNames 1 .fresh := by
  refine ⟨rfl, by decide +kernel, ?_⟩
  intro h
  have hvisits := h.1 (.ofChars ['a', '.', 'p', 'k', 'g']) (by decide +kernel) (by decide +kernel)
    (by decide +kernel) (by decide +kernel)
  exact absurd hvisits (by decide +kernel)

end Readme

end JailFs
