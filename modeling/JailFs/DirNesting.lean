import JailFs.DirWalk
import JailFs.RankedWalk

/-!
# Which directories the start-up scan opens

`vfs_dir_walk_recurse` raises `depth` in the loop over the entries, once for each subdirectory, and
the raised value stays for the entries after it. So the depth at which a directory is opened is a
rank in the sense of `RankedWalk`: its nesting plus the number of subdirectories listed before it,
before its parent, and so on. A `pkg_open` that waits hides all that is listed after it.
-/

namespace JailFs

open Blocking RankedWalk

/-- The directories that a walk opens, in its order. -/
def entered : List WalkStep → List CString
  | [] => []
  | .enter path :: steps => path :: entered steps
  | .pkgOpen _ :: steps => entered steps

theorem mem_entered_iff {path : CString} {steps : List WalkStep} :
    path ∈ entered steps ↔ .enter path ∈ steps := by
  induction steps with
  | nil => simp [entered]
  | cons step steps ih => cases step <;> simp [entered, ih]

theorem entered_append (l l' : List WalkStep) : entered (l ++ l') = entered l ++ entered l' := by
  induction l with
  | nil => rfl
  | cons step l ih => cases step <;> simp [entered, ih]

namespace FileSys

variable (fs : FileSys)

def readable (path : CString) : Bool := (fs.opendir path).isSome

/-- The full paths of the visible subdirectories among the entries `names` of `path`. -/
def subdirsAmong (path : CString) (names : List CString) : List CString :=
  (names.filter fun name => !hidden name && fs.isDir (joinPath path name)).map (joinPath path)

def subdirs (path : CString) : List CString :=
  fs.subdirsAmong path ((fs.opendir path).getD [])

/-- The paths of the visible entries of a directory fit into the buffer of the walk. -/
def PathsFit (path : CString) : Prop :=
  ∀ names, fs.opendir path = some names → ∀ name ∈ names, hidden name = false →
    (joinPath path name).length ≤ PATH_MAX - 2

def FilesHaveExt (path : CString) : Prop :=
  ∀ names, fs.opendir path = some names → ∀ name ∈ names, hidden name = false →
    fs.isDir (joinPath path name) = false → dot ∈ name.bytes

/-- What is listed for one entry, given what is listed below a subdirectory. -/
def listEntry (below : CString → List WalkStep) (path name : CString) : List WalkStep :=
  if hidden name then []
  else if fs.isDir (joinPath path name) then below (joinPath path name)
  else [.pkgOpen (joinPath path name)]

/-- The readable directories and the files of so many levels, in the order of the listings. -/
def listing : ℕ → CString → List WalkStep
  | 0, _ => []
  | levels + 1, path =>
    match fs.opendir path with
    | none => []
    | some names => .enter path :: names.flatMap (fs.listEntry (listing levels) path)

variable {fs} {path dir dir' sub : CString}

theorem subdirsAmong_cons_of_dir {name : CString} (hh : hidden name = false)
    (hd : fs.isDir (joinPath dir name) = true) (rest : List CString) :
    fs.subdirsAmong dir (name :: rest) = joinPath dir name :: fs.subdirsAmong dir rest := by
  simp [subdirsAmong, hh, hd]

theorem subdirsAmong_cons_of_not {name : CString}
    (h : hidden name = true ∨ fs.isDir (joinPath dir name) = false) (rest : List CString) :
    fs.subdirsAmong dir (name :: rest) = fs.subdirsAmong dir rest := by
  rcases h with hh | hd
  · simp [subdirsAmong, hh]
  · simp [subdirsAmong, hd]

theorem mem_subdirs (h : sub ∈ fs.subdirs dir) :
    ∃ names name, fs.opendir dir = some names ∧ name ∈ names ∧ sub = joinPath dir name := by
  rw [subdirs, subdirsAmong, List.mem_map] at h
  obtain ⟨name, hname, rfl⟩ := h
  rw [List.mem_filter] at hname
  cases hd : fs.opendir dir with
  | none => simp [hd] at hname
  | some names =>
    rw [hd] at hname
    exact ⟨names, name, rfl, hname.1, rfl⟩

theorem length_lt_of_mem_subdirs (h : sub ∈ fs.subdirs dir) : dir.length < sub.length := by
  obtain ⟨names, name, -, -, rfl⟩ := mem_subdirs h
  rw [length_joinPath]
  omega

theorem parent_unique (h : sub ∈ fs.subdirs dir) (h' : sub ∈ fs.subdirs dir') : dir = dir' := by
  obtain ⟨names, name, hd, hname, rfl⟩ := mem_subdirs h
  obtain ⟨names', name', hd', hname', heq⟩ := mem_subdirs h'
  exact (joinPath_inj (fs.noSlash hd hname) (fs.noSlash hd' hname') heq).1

theorem subdirs_nodup (dir : CString) : (fs.subdirs dir).Nodup := by
  cases hd : fs.opendir dir with
  | none => simp [subdirs, subdirsAmong, hd]
  | some names =>
    rw [subdirs, subdirsAmong, hd]
    refine List.Nodup.map_on (fun n hn n' hn' heq => ?_) ((fs.nodup hd).filter _)
    exact (joinPath_inj (fs.noSlash hd (List.mem_of_mem_filter hn))
      (fs.noSlash hd (List.mem_of_mem_filter hn')) heq).2

theorem place_unique {r p q : Place CString} (hp : Reaches fs.subdirs r p)
    (hq : Reaches fs.subdirs r q) (h : p.node = q.node) : p = q :=
  hp.eq_of_node_eq CString.length (fun _ _ => length_lt_of_mem_subdirs)
    (fun _ _ _ => parent_unique) subdirs_nodup hq h

end FileSys

section Walk

variable {fs : FileSys} {path : CString} {fuel depth nest levels : ℕ}

/-- The loop over the entries opens the readable ones among those that `walkFrom` visits. -/
theorem scanEntries_spec {recurse : CString → ℤ → Option (List WalkStep)}
    {visit : CString → ℕ → List CString} {names : List CString}
    (hshort : names.length + depth < 2 ^ 31)
    (hfit : ∀ name ∈ names, hidden name = false →
      (joinPath path name).length ≤ PATH_MAX - 2)
    (hext : ∀ name ∈ names, hidden name = false →
      fs.isDir (joinPath path name) = false → dot ∈ name.bytes)
    (hrec : ∀ before c after, fs.subdirsAmong path names = before ++ c :: after →
      depth + before.length + 1 < VFS_MAX_RECURSE →
      ∃ inner, recurse c (depth + before.length + 1 : ℕ) = some inner ∧
        entered inner = (visit c (depth + before.length + 1)).filter fs.readable) :
    ∃ steps, scanEntries fs recurse path names depth = some steps ∧
      entered steps = (walkFrom VFS_MAX_RECURSE visit (fs.subdirsAmong path names) depth).filter
        fs.readable := by
  induction names generalizing depth with
  | nil => exact ⟨[], rfl, rfl⟩
  | cons name rest ih =>
    rw [List.length_cons] at hshort
    have hfit' := fun n hn => hfit n (List.mem_cons_of_mem _ hn)
    have hext' := fun n hn => hext n (List.mem_cons_of_mem _ hn)
    unfold scanEntries
    cases hh : hidden name with
    | true =>
      rw [FileSys.subdirsAmong_cons_of_not (.inl hh)] at hrec ⊢
      exact ih (by omega) hfit' hext' hrec
    | false =>
      have hbuf : snprintfPath path name = joinPath path name :=
        (snprintfPath_eq_joinPath_iff path name).mpr (hfit name List.mem_cons_self hh)
      rw [hbuf]
      cases hd : fs.isDir (joinPath path name) with
      | true =>
        rw [FileSys.subdirsAmong_cons_of_dir hh hd] at hrec ⊢
        have hwrap : wrapInt ((depth : ℤ) + 1) = (depth + 1 : ℕ) := by
          rw [wrapInt_of_lt (by omega) (by omega)]
          rfl
        obtain ⟨outer, houter, hentered⟩ := ih
          (show rest.length + (depth + 1) < 2 ^ 31 by omega) hfit' hext' (by
          intro before c after hsplit hlt
          have hchild := hrec (joinPath path name :: before) c after (by rw [hsplit]; rfl)
          rw [List.length_cons, show depth + (before.length + 1) + 1 =
            depth + 1 + before.length + 1 by omega] at hchild
          exact hchild hlt)
        rw [walkFrom, List.filter_append, if_neg Bool.false_ne_true, if_pos rfl, hwrap, houter]
        by_cases hlt : depth + 1 < VFS_MAX_RECURSE
        · obtain ⟨inner, hinner, hin⟩ := hrec [] _ _ rfl hlt
          refine ⟨inner ++ outer, ?_, ?_⟩
          · have hinner' : recurse (joinPath path name) (depth + 1 : ℕ) = some inner := hinner
            rw [if_pos (Int.ofNat_lt.mpr hlt), hinner']
            rfl
          · rw [entered_append, hentered, if_pos hlt, hin]
            rfl
        · refine ⟨outer, if_neg fun h => hlt (Int.ofNat_lt.mp h), ?_⟩
          rw [hentered, if_neg hlt]
          rfl
      | false =>
        rw [FileSys.subdirsAmong_cons_of_not (.inr hd)] at hrec ⊢
        have hdot : dot ∈ (joinPath path name).bytes :=
          List.mem_append_right _ (hext name List.mem_cons_self hh hd)
        obtain ⟨steps, hsteps, hentered⟩ := ih (by omega) hfit' hext' hrec
        exact ⟨.pkgOpen (joinPath path name) :: steps, by simp [hdot, hsteps], hentered⟩

/-- What the walk relies on below a place: where the rank lets it in, paths fit into the buffer
and files have an extension. -/
def Tidy (fs : FileSys) (r : Place CString) : Prop :=
  ∀ d, Reaches fs.subdirs r d → d.rank < VFS_MAX_RECURSE →
    fs.PathsFit d.node ∧ fs.FilesHaveExt d.node

theorem scan_spec (hdepth : depth < VFS_MAX_RECURSE)
    (hfuel : VFS_MAX_RECURSE ≤ depth + fuel) (htidy : Tidy fs ⟨path, nest, depth⟩) :
    ∃ steps, scan fs fuel path depth = some steps ∧
      entered steps = (rankedWalk fs.subdirs VFS_MAX_RECURSE fuel path depth).filter
        fs.readable := by
  induction fuel generalizing path depth nest with
  | zero => omega
  | succ fuel ih =>
    rw [scan, rankedWalk]
    cases hd : fs.opendir path with
    | none =>
      refine ⟨[], rfl, ?_⟩
      simp [FileSys.subdirs, FileSys.subdirsAmong, hd, walkFrom, FileSys.readable, entered]
    | some names =>
      have hsub : fs.subdirs path = fs.subdirsAmong path names := by rw [FileSys.subdirs, hd]; rfl
      have hhere : fs.PathsFit path ∧ fs.FilesHaveExt path := htidy _ .refl hdepth
      have hshort := fs.short hd
      obtain ⟨steps, hsteps, hentered⟩ := @scanEntries_spec fs path depth
        (scan fs fuel) (rankedWalk fs.subdirs VFS_MAX_RECURSE fuel) names
        (show names.length + depth < 2 ^ 31 by omega) (hhere.1 names hd) (hhere.2 names hd)
        (by
          intro before c after hsplit hlt
          have hstep : Child fs.subdirs ⟨path, nest, depth⟩
              ⟨c, nest + 1, depth + before.length + 1⟩ := .mk (hsub.trans hsplit)
          exact ih hlt (by omega) fun d hreach => htidy d (.head hstep hreach))
      refine ⟨.enter path :: steps, congrArg (Option.map (.enter path :: ·)) hsteps, ?_⟩
      have hread : fs.readable path = true := by rw [FileSys.readable, hd]; rfl
      rw [List.filter_cons_of_pos hread, hsub, ← hentered]
      rfl

/-- The loop over the entries comes to what is listed, if it opens the subdirectories of which
something is listed. -/
theorem scanEntries_eq_listing {recurse : CString → ℤ → Option (List WalkStep)}
    {below : CString → List WalkStep} {names : List CString}
    (hshort : names.length + depth < 2 ^ 31)
    (hfit : ∀ name ∈ names, hidden name = false →
      (joinPath path name).length ≤ PATH_MAX - 2)
    (hext : ∀ name ∈ names, hidden name = false →
      fs.isDir (joinPath path name) = false → dot ∈ name.bytes)
    (hrec : ∀ before c after, fs.subdirsAmong path names = before ++ c :: after →
      if depth + before.length + 1 < VFS_MAX_RECURSE then
        recurse c (depth + before.length + 1 : ℕ) = some (below c)
      else below c = []) :
    scanEntries fs recurse path names depth = some (names.flatMap (fs.listEntry below path)) := by
  induction names generalizing depth with
  | nil => rfl
  | cons name rest ih =>
    rw [List.length_cons] at hshort
    have hfit' := fun n hn => hfit n (List.mem_cons_of_mem _ hn)
    have hext' := fun n hn => hext n (List.mem_cons_of_mem _ hn)
    unfold scanEntries
    rw [List.flatMap_cons, FileSys.listEntry]
    cases hh : hidden name with
    | true =>
      rw [FileSys.subdirsAmong_cons_of_not (.inl hh)] at hrec
      exact ih (by omega) hfit' hext' hrec
    | false =>
      have hbuf : snprintfPath path name = joinPath path name :=
        (snprintfPath_eq_joinPath_iff path name).mpr (hfit name List.mem_cons_self hh)
      rw [hbuf]
      cases hd : fs.isDir (joinPath path name) with
      | true =>
        rw [FileSys.subdirsAmong_cons_of_dir hh hd] at hrec
        have hhere := hrec [] _ _ rfl
        rw [List.length_nil, Nat.add_zero] at hhere
        rw [wrapInt_depth (by omega), ih (show rest.length + (depth + 1) < 2 ^ 31 by omega) hfit'
          hext' (by
            intro before c after hsplit
            have hchild := hrec (joinPath path name :: before) c after (by rw [hsplit]; rfl)
            rwa [List.length_cons, show depth + (before.length + 1) + 1 =
              depth + 1 + before.length + 1 by omega] at hchild)]
        by_cases hlt : depth + 1 < VFS_MAX_RECURSE
        · rw [if_pos hlt] at hhere
          rw [if_neg Bool.false_ne_true, if_pos rfl, if_pos (Int.ofNat_lt.mpr hlt), hhere]
          rfl
        · rw [if_neg hlt] at hhere
          rw [if_neg Bool.false_ne_true, if_pos rfl, if_neg fun h => hlt (Int.ofNat_lt.mp h),
            if_neg Bool.false_ne_true, if_pos rfl, hhere]
          rfl
      | false =>
        rw [FileSys.subdirsAmong_cons_of_not (.inr hd)] at hrec
        have hdot : dot ∈ (joinPath path name).bytes :=
          List.mem_append_right _ (hext name List.mem_cons_self hh hd)
        simp [hdot, ih (by omega) hfit' hext' hrec]

/-- Where the readable directories of nesting below the bound have a rank below it, the scan comes
to all that is listed. -/
theorem scan_eq_listing (hrank : depth < VFS_MAX_RECURSE) (hnest : nest ≤ depth)
    (hlevels : nest + levels = VFS_MAX_RECURSE) (hfuel : VFS_MAX_RECURSE ≤ depth + fuel)
    (htidy : ∀ d, Reaches fs.subdirs ⟨path, nest, depth⟩ d → d.nest < VFS_MAX_RECURSE →
      fs.PathsFit d.node ∧ fs.FilesHaveExt d.node)
    (hranks : ∀ d, Reaches fs.subdirs ⟨path, nest, depth⟩ d → fs.readable d.node = true →
      d.nest < VFS_MAX_RECURSE → d.rank < VFS_MAX_RECURSE) :
    scan fs fuel path depth = some (fs.listing levels path) := by
  induction fuel generalizing path nest depth levels with
  | zero => omega
  | succ fuel ih =>
    obtain ⟨levels, rfl⟩ : ∃ n, levels = n + 1 := ⟨levels - 1, by omega⟩
    rw [scan, FileSys.listing]
    cases hd : fs.opendir path with
    | none => rfl
    | some names =>
      have hsub : fs.subdirs path = fs.subdirsAmong path names := by rw [FileSys.subdirs, hd]; rfl
      have hhere : fs.PathsFit path ∧ fs.FilesHaveExt path := htidy _ .refl (by dsimp only; omega)
      have hshort := fs.short hd
      have hentries := @scanEntries_eq_listing fs path depth (scan fs fuel) (fs.listing levels)
        names (by omega) (hhere.1 names hd) (hhere.2 names hd) (by
          intro before c after hsplit
          have hstep : Child fs.subdirs ⟨path, nest, depth⟩
              ⟨c, nest + 1, depth + before.length + 1⟩ := .mk (hsub.trans hsplit)
          split_ifs with hlt
          · exact ih hlt (by omega) (by omega) (by omega)
              (fun d hreach => htidy d (.head hstep hreach))
              fun d hreach => hranks d (.head hstep hreach)
          · -- the subdirectory is nested too deep, or cannot be read
            cases levels with
            | zero => rfl
            | succ levels =>
              have hunread : ¬ fs.readable c = true := fun hread =>
                hlt (hranks _ (.single hstep) hread (by dsimp only; omega))
              rw [FileSys.listing]
              cases hc : fs.opendir c with
              | none => rfl
              | some names' =>
                rw [FileSys.readable, hc] at hunread
                exact absurd rfl hunread)
      exact congrArg (Option.map (.enter path :: ·)) hentries

section Nesting

variable {root : CString} {steps : List WalkStep}

theorem enter_mem_scan_iff (htidy : Tidy fs ⟨root, 1, 1⟩)
    (hsteps : scan fs VFS_MAX_RECURSE root 1 = some steps) : .enter path ∈ steps ↔
      path ∈ rankedWalk fs.subdirs VFS_MAX_RECURSE VFS_MAX_RECURSE root 1 ∧
        fs.readable path = true := by
  have hone : 1 < VFS_MAX_RECURSE := by decide
  obtain ⟨steps', hsteps', hentered⟩ := @scan_spec fs root VFS_MAX_RECURSE 1 1 hone
    (Nat.le_add_left _ _) htidy
  obtain rfl : steps = steps' := Option.some.inj (hsteps.symm.trans hsteps')
  rw [← mem_entered_iff, hentered, List.mem_filter]

theorem nesting_of_enter_mem_scan (htidy : Tidy fs ⟨root, 1, 1⟩)
    (hsteps : scan fs VFS_MAX_RECURSE root 1 = some steps) (hmem : .enter path ∈ steps) :
    fs.readable path = true ∧
      ∃ d, Reaches fs.subdirs ⟨root, 1, 1⟩ d ∧ d.node = path ∧ d.nest < VFS_MAX_RECURSE := by
  obtain ⟨hwalk, hread⟩ := (enter_mem_scan_iff htidy hsteps).mp hmem
  obtain ⟨d, hreach, hnode, hrank⟩ :=
    (mem_rankedWalk_iff 1 (by decide) (Nat.le_add_left _ _)).mp hwalk
  exact ⟨hread, d, hreach, hnode, lt_of_le_of_lt (hreach.nest_le le_rfl) hrank⟩

theorem scan_nesting_iff (htidy : Tidy fs ⟨root, 1, 1⟩)
    (hsteps : scan fs VFS_MAX_RECURSE root 1 = some steps) :
    (∀ path, .enter path ∈ steps ↔ fs.readable path = true ∧
        ∃ d, Reaches fs.subdirs ⟨root, 1, 1⟩ d ∧ d.node = path ∧ d.nest < VFS_MAX_RECURSE) ↔
      ∀ d, Reaches fs.subdirs ⟨root, 1, 1⟩ d → fs.readable d.node = true →
        d.nest < VFS_MAX_RECURSE → d.rank < VFS_MAX_RECURSE := by
  rw [← rankedWalk_nesting_iff (fs.readable · = true) (by decide) (Nat.le_add_left _ _) le_rfl
    fun p q hp hq => FileSys.place_unique hp hq]
  refine forall_congr' fun path => ?_
  rw [enter_mem_scan_iff htidy hsteps, and_comm]
  exact and_congr_right_iff

end Nesting

/-- Where paths fit and files have an extension, the walk from `root` opens the readable directories
of nesting below the bound, no others, exactly if each of these has a rank below the bound, whatever
is listed before it, and the `pkg_open` calls for the files listed before it come back. -/
theorem vfsDirWalkRecurse_nesting_iff (fs : FileSys) (root : CString) (p : PkgProcess)
    (htidy : ∀ d, Reaches fs.subdirs ⟨root, 1, 1⟩ d → d.nest < VFS_MAX_RECURSE →
      fs.PathsFit d.node ∧ fs.FilesHaveExt d.node) :
    (∃ w, vfsDirWalkRecurse fs VFS_MAX_RECURSE root 1 p = some w ∧
        ∀ path, .enter path ∈ w.steps ↔ fs.readable path = true ∧
          ∃ d, Reaches fs.subdirs ⟨root, 1, 1⟩ d ∧ d.node = path ∧ d.nest < VFS_MAX_RECURSE) ↔
      (∀ d, Reaches fs.subdirs ⟨root, 1, 1⟩ d → fs.readable d.node = true →
        d.nest < VFS_MAX_RECURSE → d.rank < VFS_MAX_RECURSE) ∧
      ∀ path, .enter path ∈ fs.listing (VFS_MAX_RECURSE - 1) root →
        ∃ before after, fs.listing (VFS_MAX_RECURSE - 1) root = before ++ .enter path :: after ∧
          Returns WalkStep.run p before := by
  have htidyRank : Tidy fs ⟨root, 1, 1⟩ := fun d hreach hrank =>
    htidy d hreach (lt_of_le_of_lt (hreach.nest_le le_rfl) hrank)
  obtain ⟨steps, hsteps⟩ : ∃ steps, scan fs VFS_MAX_RECURSE root 1 = some steps :=
    @scan_isSome fs root VFS_MAX_RECURSE 1 (by decide) (Nat.le_add_left _ _)
  rw [vfsDirWalkRecurse_eq hsteps p, ← scan_nesting_iff htidyRank hsteps]
  have hlisting (hnest : ∀ path, .enter path ∈ steps ↔ fs.readable path = true ∧
      ∃ d, Reaches fs.subdirs ⟨root, 1, 1⟩ d ∧ d.node = path ∧ d.nest < VFS_MAX_RECURSE) :
      steps = fs.listing (VFS_MAX_RECURSE - 1) root := by
    have hscan := @scan_eq_listing fs root VFS_MAX_RECURSE 1 1 (VFS_MAX_RECURSE - 1) (by decide)
      le_rfl (by decide) (Nat.le_add_left _ _) htidy ((scan_nesting_iff htidyRank hsteps).mp hnest)
    exact Option.some.inj (hsteps.symm.trans hscan)
  constructor
  · rintro ⟨w, hw, h⟩
    cases hw
    have hnest (path : CString) : .enter path ∈ steps ↔ fs.readable path = true ∧
        ∃ d, Reaches fs.subdirs ⟨root, 1, 1⟩ d ∧ d.node = path ∧ d.nest < VFS_MAX_RECURSE :=
      ⟨nesting_of_enter_mem_scan htidyRank hsteps, fun hpath =>
        made_isPrefix.mem ((h path).mpr hpath)⟩
    refine ⟨hnest, fun path hpath => ?_⟩
    rw [← hlisting hnest] at hpath ⊢
    exact mem_made_iff.mp ((h path).mpr ((hnest path).mp hpath))
  · rintro ⟨hnest, hreturns⟩
    rw [← hlisting hnest] at hreturns
    refine ⟨_, rfl, fun path => ?_⟩
    rw [← hnest path]
    exact ⟨made_isPrefix.mem, fun hpath => mem_made_iff.mpr (hreturns path hpath)⟩

end Walk

section Wide

def pkgRoot : CString := .ofChars ['/', 'p', 'k', 'g']

/-- `a`, `aa`, up to the fifteenth. -/
def wideNames : List CString :=
  (List.range 15).map fun i => ⟨List.replicate (i + 1) 97, by simp⟩

def wideSys : FileSys where
  opendir path :=
    if path = pkgRoot then some wideNames
    else if path ∈ wideNames.map (joinPath pkgRoot) then some [] else none
  isDir path := path ∈ wideNames.map (joinPath pkgRoot)
  nodup h := by
    split_ifs at h <;> cases h
    · decide +kernel
    · exact List.nodup_nil
  noSlash h := by
    split_ifs at h <;> cases h
    · exact fun hname => (by decide +kernel : ∀ n ∈ wideNames, 47 ∉ n.bytes) _ hname
    · exact fun hname => absurd hname List.not_mem_nil
  short h := by
    split_ifs at h <;> cases h <;> decide

theorem wideSys_tidy (path : CString) : wideSys.PathsFit path ∧ wideSys.FilesHaveExt path := by
  by_cases hp : path = pkgRoot
  · have hopen : wideSys.opendir pkgRoot = some wideNames := rfl
    subst hp
    constructor
    · intro names hd name hname _
      cases hopen.symm.trans hd
      exact (by decide +kernel : ∀ n ∈ wideNames, (joinPath pkgRoot n).length ≤ PATH_MAX - 2)
        name hname
    · intro names hd name hname _ hfile
      cases hopen.symm.trans hd
      rw [(by decide +kernel : ∀ n ∈ wideNames, wideSys.isDir (joinPath pkgRoot n) = true)
        name hname] at hfile
      cases hfile
  · have hempty (names : List CString) (hd : wideSys.opendir path = some names) : names = [] := by
      change (if path = pkgRoot then _ else _) = _ at hd
      rw [if_neg hp] at hd
      split_ifs at hd
      exact (Option.some.inj hd).symm
    constructor <;> intro names hd name hname <;> rw [hempty names hd] at hname <;> cases hname

theorem vfsDirWalkRecurse_nesting_wide :
    (∃ w, vfsDirWalkRecurse wideSys VFS_MAX_RECURSE pkgRoot 1 .fresh = some w ∧
        ∀ path, .enter path ∈ w.steps ↔ wideSys.readable path = true ∧
          ∃ d, Reaches wideSys.subdirs ⟨pkgRoot, 1, 1⟩ d ∧ d.node = path ∧
            d.nest < VFS_MAX_RECURSE) ↔
      (∀ d, Reaches wideSys.subdirs ⟨pkgRoot, 1, 1⟩ d → wideSys.readable d.node = true →
        d.nest < VFS_MAX_RECURSE → d.rank < VFS_MAX_RECURSE) ∧
      ∀ path, .enter path ∈ wideSys.listing (VFS_MAX_RECURSE - 1) pkgRoot →
        ∃ before after,
          wideSys.listing (VFS_MAX_RECURSE - 1) pkgRoot = before ++ .enter path :: after ∧
            Returns WalkStep.run PkgProcess.fresh before :=
  vfsDirWalkRecurse_nesting_iff wideSys pkgRoot .fresh fun d _ _ => wideSys_tidy d.node

/-- The fifteenth subdirectory is not opened, although it is as readable as the others and lies
directly below the start. -/
theorem vfsDirWalkRecurse_skips_fifteenth :
    (∀ path, wideSys.PathsFit path ∧ wideSys.FilesHaveExt path) ∧
      ¬ ∃ w, vfsDirWalkRecurse wideSys VFS_MAX_RECURSE pkgRoot 1 .fresh = some w ∧
        ∀ path, .enter path ∈ w.steps ↔ wideSys.readable path = true ∧
          ∃ d, Reaches wideSys.subdirs ⟨pkgRoot, 1, 1⟩ d ∧ d.node = path ∧
            d.nest < VFS_MAX_RECURSE := by
  refine ⟨wideSys_tidy, ?_⟩
  rintro ⟨w, hw, h⟩
  let fifteenth : CString := ⟨List.replicate 15 97, by decide⟩
  have hnot : .enter (joinPath pkgRoot fifteenth) ∉
      (scan wideSys VFS_MAX_RECURSE pkgRoot 1).getD [] := by decide +kernel
  have hchild : wideSys.subdirs pkgRoot =
      (wideNames.take 14).map (joinPath pkgRoot) ++ joinPath pkgRoot fifteenth :: [] := by
    decide +kernel
  obtain ⟨steps, hsteps⟩ : ∃ steps, scan wideSys VFS_MAX_RECURSE pkgRoot 1 = some steps :=
    @scan_isSome wideSys pkgRoot VFS_MAX_RECURSE 1 (by decide) (Nat.le_add_left _ _)
  rw [hsteps] at hnot
  cases hw.symm.trans (vfsDirWalkRecurse_eq hsteps .fresh)
  refine hnot (made_isPrefix.mem ((h _).mpr ⟨by decide +kernel, _, .single (.mk hchild), rfl, ?_⟩))
  change 2 < VFS_MAX_RECURSE
  decide

end Wide

end JailFs
