import JailFs.Pkg

/-!
# The exits of `pkg_open`

`pkgOpen_cases` says once what a call of `pkg_open` can do: answer with a listed handle, fail
before the handle is listed, fail at the archive with the handle listed, or come to the end of the
import, with or without a bad header. Everything else about `pkg_open` is derived from it.
-/

namespace JailFs

namespace OpenEnv

/-- `open` or `flock` fails: the exits through `pkg_release`. -/
def fileFails (env : OpenEnv) : Bool := env.fd < 0 || (env.lockingHost && !env.flockOk)

/-- Some call of `archive_read_next_header` returns neither `ARCHIVE_OK` nor `ARCHIVE_EOF`. -/
def headerFails (env : OpenEnv) : Bool :=
  env.headers.any fun
    | .ok _ _ => false
    | .error _ => true

/-- Some stage of an import fails. -/
def fails (env : OpenEnv) : Bool := env.fileFails || !env.archiveOk || env.headerFails

end OpenEnv

namespace Registry

/-- The registry when `open` has been called for a new handle. -/
def prepare (s : Registry) (env : OpenEnv) (path : CString) : Registry :=
  ((dbPkgAdd s env.statErrno).1.setHandle env.elem
    ⟨(dbPkgAdd s env.statErrno).2, env.fd, 0, 0, some path⟩).openFd env.fd

/-- The registry when the loop over the headers has ended. -/
def imported (s : Registry) (env : OpenEnv) (path : CString) : Registry :=
  { (s.prepare env path).list env.elem with
    heapVfsCache := (importHeaders (dbPkgAdd s env.statErrno).2 env.headers
      ((s.prepare env path).list env.elem).heapVfsCache).1 }

end Registry

section Frame

variable {s : Registry} {a b t : Addr} {h : PkgHandle} {env : OpenEnv} {path : CString}

namespace Registry

@[simp] theorem handle_setHandle_self : (s.setHandle a h).handle a = some h :=
  AList.lookup_insert _

theorem handle_setHandle_ne (hne : b ≠ a) : (s.setHandle a h).handle b = s.handle b :=
  AList.lookup_insert_ne hne

@[simp] theorem pkgList_setHandle : (s.setHandle a h).pkgList = s.pkgList := rfl

@[simp] theorem openFds_setHandle : (s.setHandle a h).openFds = s.openFds := rfl

@[simp] theorem heapVfsCache_setHandle : (s.setHandle a h).heapVfsCache = s.heapVfsCache := rfl

@[simp] theorem pkgLifetime_setHandle : (s.setHandle a h).pkgLifetime = s.pkgLifetime := rfl

theorem pkgsInUse_setHandle (ha : s.handle a ≠ none) :
    (s.setHandle a h).pkgsInUse = s.pkgsInUse := by
  have hmem : a ∈ s.heapPkg.keys := by
    rw [← AList.mem_keys, ← AList.lookup_isSome]
    exact Option.isSome_iff_ne_none.mpr ha
  rw [pkgsInUse, setHandle, AList.keys_insert, List.length_cons, List.length_erase_of_mem hmem]
  exact Nat.succ_pred_eq_of_pos (List.length_pos_of_mem hmem)

theorem pkgsInUse_setHandle_new (ha : s.handle a = none) :
    (s.setHandle a h).pkgsInUse = s.pkgsInUse + 1 := by
  have hmem : a ∉ s.heapPkg.keys := AList.lookup_eq_none.mp ha
  rw [pkgsInUse, setHandle, AList.keys_insert, List.length_cons, List.erase_of_not_mem hmem]
  rfl

@[simp] theorem openFd_heapPkg (fd : ℤ) : (s.openFd fd).heapPkg = s.heapPkg := by
  unfold openFd
  split_ifs <;> rfl

@[simp] theorem openFd_pkgList (fd : ℤ) : (s.openFd fd).pkgList = s.pkgList := by
  unfold openFd
  split_ifs <;> rfl

@[simp] theorem openFd_heapVfsCache (fd : ℤ) : (s.openFd fd).heapVfsCache = s.heapVfsCache := by
  unfold openFd
  split_ifs <;> rfl

@[simp] theorem openFd_pkgLifetime (fd : ℤ) : (s.openFd fd).pkgLifetime = s.pkgLifetime := by
  unfold openFd
  split_ifs <;> rfl

@[simp] theorem openFd_gPkgid (fd : ℤ) : (s.openFd fd).gPkgid = s.gPkgid := by
  unfold openFd
  split_ifs <;> rfl

theorem openFd_openFds {fd : ℤ} (hfd : 0 ≤ fd) : (s.openFd fd).openFds = fd :: s.openFds := by
  rw [openFd, if_neg (by omega)]

end Registry

/-- `db_pkg_add` moves the package counter only. -/
theorem dbPkgAdd_frame (s : Registry) (statErrno : Option ℤ) :
    ∃ gPkgid, (dbPkgAdd s statErrno).1 = { s with gPkgid := gPkgid } := by
  cases statErrno with
  | none => exact ⟨_, rfl⟩
  | some errno => exact ⟨_, rfl⟩

namespace Registry

theorem prepare_handle_self :
    (s.prepare env path).handle env.elem =
      some ⟨(dbPkgAdd s env.statErrno).2, env.fd, 0, 0, some path⟩ := by
  rw [prepare, handle, openFd_heapPkg]
  exact handle_setHandle_self

theorem prepare_handle_ne (hne : b ≠ env.elem) : (s.prepare env path).handle b = s.handle b := by
  obtain ⟨gPkgid, hadd⟩ := dbPkgAdd_frame s env.statErrno
  rw [prepare, handle, openFd_heapPkg, hadd]
  exact handle_setHandle_ne hne

@[simp] theorem prepare_pkgList : (s.prepare env path).pkgList = s.pkgList := by
  obtain ⟨gPkgid, hadd⟩ := dbPkgAdd_frame s env.statErrno
  rw [prepare, openFd_pkgList, hadd, pkgList_setHandle]

@[simp] theorem prepare_heapVfsCache : (s.prepare env path).heapVfsCache = s.heapVfsCache := by
  obtain ⟨gPkgid, hadd⟩ := dbPkgAdd_frame s env.statErrno
  rw [prepare, openFd_heapVfsCache, hadd, heapVfsCache_setHandle]

@[simp] theorem prepare_pkgLifetime : (s.prepare env path).pkgLifetime = s.pkgLifetime := by
  obtain ⟨gPkgid, hadd⟩ := dbPkgAdd_frame s env.statErrno
  rw [prepare, openFd_pkgLifetime, hadd, pkgLifetime_setHandle]

theorem prepare_gPkgid : (s.prepare env path).gPkgid = (dbPkgAdd s env.statErrno).1.gPkgid := by
  rw [prepare, openFd_gPkgid]
  rfl

theorem prepare_openFds (hfd : 0 ≤ env.fd) :
    (s.prepare env path).openFds = env.fd :: s.openFds := by
  obtain ⟨gPkgid, hadd⟩ := dbPkgAdd_frame s env.statErrno
  rw [prepare, openFd_openFds hfd, hadd, openFds_setHandle]

theorem prepare_pkgsInUse (hfree : s.handle env.elem = none) :
    (s.prepare env path).pkgsInUse = s.pkgsInUse + 1 := by
  obtain ⟨gPkgid, hadd⟩ := dbPkgAdd_frame s env.statErrno
  rw [prepare, pkgsInUse, openFd_heapPkg, hadd]
  exact pkgsInUse_setHandle_new hfree

theorem touch_of_handle {now : ℤ} (ht : s.handle t = some h) :
    s.touch t now = s.setHandle t { h with otime := now, refcnt := wrapInt (h.refcnt + 1) } := by
  rw [touch, ht]

end Registry

/-- `pkg_release` of a handle that is not listed keeps its element. -/
theorem pkgRelease_eq (ha : s.handle a = some h) :
    ∃ fd, pkgRelease s a =
      { s.setHandle a { h with name := none, fd := fd } with
        openFds := if h.fd ≠ 0 then s.openFds.erase h.fd else s.openFds
        pkgList := s.pkgList.erase a
        heapPkg := if a ∈ s.pkgList then s.heapPkg.erase a
          else s.heapPkg.insert a { h with name := none, fd := fd } } := by
  have hinsert (p : PkgHandle) : (s.heapPkg.insert a p).erase a = s.heapPkg.erase a := by
    apply AList.ext
    change (s.heapPkg.insert a p).entries.kerase a = s.heapPkg.entries.kerase a
    rw [AList.entries_insert]
    exact List.kerase_cons_eq rfl
  by_cases hfd : h.fd ≠ 0
  · refine ⟨-1, ?_⟩
    simp only [pkgRelease, ha, if_pos hfd]
    by_cases hmem : a ∈ s.pkgList
    · simp [hmem, Registry.setHandle, hinsert]
    · simp [hmem, Registry.setHandle, List.erase_of_not_mem]
  · refine ⟨h.fd, ?_⟩
    simp only [pkgRelease, ha, if_neg hfd]
    by_cases hmem : a ∈ s.pkgList
    · simp [hmem, Registry.setHandle, hinsert]
    · simp [hmem, Registry.setHandle, List.erase_of_not_mem]

section Release

variable (ha : s.handle a = some h)

include ha

theorem pkgRelease_pkgList : (pkgRelease s a).pkgList = s.pkgList.erase a := by
  obtain ⟨fd, hr⟩ := pkgRelease_eq ha
  rw [hr]

theorem pkgRelease_openFds :
    (pkgRelease s a).openFds = if h.fd ≠ 0 then s.openFds.erase h.fd else s.openFds := by
  obtain ⟨fd, hr⟩ := pkgRelease_eq ha
  rw [hr]

theorem pkgRelease_pkgLifetime : (pkgRelease s a).pkgLifetime = s.pkgLifetime := by
  obtain ⟨fd, hr⟩ := pkgRelease_eq ha
  rw [hr]
  rfl

theorem pkgRelease_heapVfsCache : (pkgRelease s a).heapVfsCache = s.heapVfsCache := by
  obtain ⟨fd, hr⟩ := pkgRelease_eq ha
  rw [hr]
  rfl

theorem pkgRelease_gPkgid : (pkgRelease s a).gPkgid = s.gPkgid := by
  obtain ⟨fd, hr⟩ := pkgRelease_eq ha
  rw [hr]
  rfl

theorem pkgRelease_handle_ne (hne : b ≠ a) : (pkgRelease s a).handle b = s.handle b := by
  obtain ⟨fd, hr⟩ := pkgRelease_eq ha
  rw [hr, Registry.handle]
  dsimp only
  split_ifs
  · exact AList.lookup_erase_ne hne
  · exact AList.lookup_insert_ne hne

theorem pkgRelease_pkgsInUse (hmem : a ∉ s.pkgList) :
    (pkgRelease s a).pkgsInUse = s.pkgsInUse := by
  obtain ⟨fd, hr⟩ := pkgRelease_eq ha
  rw [hr, Registry.pkgsInUse]
  dsimp only
  rw [if_neg hmem]
  exact Registry.pkgsInUse_setHandle (by rw [ha]; exact Option.some_ne_none _)

end Release

end Frame

theorem importHeaders_failed (pkgid : ℤ) (headers : List HeaderResult)
    (cache : List VfsCacheEntry) : (importHeaders pkgid headers cache).2 =
      headers.any fun
        | .ok _ _ => false
        | .error _ => true := by
  induction headers generalizing cache with
  | nil => rfl
  | cons header headers ih =>
    cases header with
    | ok e now => exact ih _
    | error r => rfl

section Cases

variable {s : Registry} {env : OpenEnv} {path : CString}

theorem pkgOpen_listed {t : Addr} (h : pkgHandleByname s path = some t) :
    pkgOpen s env path = ⟨s.touch t env.now, some t, []⟩ := by
  rw [pkgOpen, h]

theorem pkgOpen_fileFails (h : pkgHandleByname s path = none) (hf : env.fileFails = true) :
    pkgOpen s env path = ⟨pkgRelease (s.prepare env path) env.elem, none, [.begin]⟩ := by
  rw [pkgOpen, h]
  rw [OpenEnv.fileFails, Bool.or_eq_true, decide_eq_true_eq] at hf
  dsimp only
  by_cases hopen : env.fd < 0
  · rw [if_pos hopen]
    rfl
  · rw [if_neg hopen, if_pos (hf.resolve_left hopen)]
    rfl

/-- The handle is listed by then. -/
theorem pkgOpen_badArchive (h : pkgHandleByname s path = none) (hf : env.fileFails = false)
    (ha : env.archiveOk = false) :
    pkgOpen s env path = ⟨(s.prepare env path).list env.elem, none, [.begin]⟩ := by
  rw [pkgOpen, h]
  rw [OpenEnv.fileFails, Bool.or_eq_false_iff, decide_eq_false_iff_not] at hf
  dsimp only
  rw [if_neg hf.1, if_neg (by rw [hf.2]; exact Bool.false_ne_true), ha, Bool.not_false, if_pos rfl]
  rfl

theorem pkgOpen_imported (h : pkgHandleByname s path = none) (hf : env.fileFails = false)
    (ha : env.archiveOk = true) :
    pkgOpen s env path = ⟨(s.imported env path).touch env.elem env.now, some env.elem,
      .begin :: (if env.headerFails then [.rollback] else []) ++ [.commit]⟩ := by
  rw [pkgOpen, h]
  rw [OpenEnv.fileFails, Bool.or_eq_false_iff, decide_eq_false_iff_not] at hf
  dsimp only
  rw [if_neg hf.1, if_neg (by rw [hf.2]; exact Bool.false_ne_true), ha, Bool.not_true,
    if_neg Bool.false_ne_true, importHeaders_failed]
  rfl

/-- The four ways through `pkg_open`. -/
theorem pkgOpen_cases (s : Registry) (env : OpenEnv) (path : CString) :
    (∃ t, pkgHandleByname s path = some t ∧
      pkgOpen s env path = ⟨s.touch t env.now, some t, []⟩) ∨
    (pkgHandleByname s path = none ∧ env.fileFails = true ∧
      pkgOpen s env path = ⟨pkgRelease (s.prepare env path) env.elem, none, [.begin]⟩) ∨
    (pkgHandleByname s path = none ∧ env.fileFails = false ∧ env.archiveOk = false ∧
      pkgOpen s env path = ⟨(s.prepare env path).list env.elem, none, [.begin]⟩) ∨
    (pkgHandleByname s path = none ∧ env.fileFails = false ∧ env.archiveOk = true ∧
      pkgOpen s env path = ⟨(s.imported env path).touch env.elem env.now, some env.elem,
        .begin :: (if env.headerFails then [.rollback] else []) ++ [.commit]⟩) := by
  cases h : pkgHandleByname s path with
  | some t => exact Or.inl ⟨t, rfl, pkgOpen_listed h⟩
  | none =>
    right
    cases hf : env.fileFails with
    | true => exact Or.inl ⟨rfl, rfl, pkgOpen_fileFails h hf⟩
    | false =>
      right
      cases ha : env.archiveOk with
      | false => exact Or.inl ⟨rfl, rfl, rfl, pkgOpen_badArchive h hf ha⟩
      | true => exact Or.inr ⟨rfl, rfl, rfl, pkgOpen_imported h hf ha⟩

end Cases

end JailFs
