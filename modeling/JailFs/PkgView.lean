import JailFs.Exec
import JailFs.PkgImport
import JailFs.PkgProcess
import Mathlib.Data.List.Find
import Mathlib.Data.List.Forall2
import Mathlib.Logic.Function.Basic

/-!
# What is registered for a package file

The files of a watched directory change, and each change becomes an event that is dispatched to
`pkg_open` or `pkg_forget`, in order but not at once. `PkgDir` follows the files, and `read` keeps
for each path the version that its first event to find the file found. That is the version that
stays registered (`PkgViewStep.views`): a later `pkg_open` finds the handle listed, and
`pkg_forget` takes nothing back. An event that comes too late to find the file leaves the database
locked, and the next one of a path that was never read waits for ever.
-/

namespace JailFs

/-- The entries of a complete package file, in the order in which libarchive lists them. -/
abbrev Archive := List ArchiveEntry

inductive FileEvent
  | opened (path : CString)
  | forgotten (path : CString)

def FileEvent.path : FileEvent → CString
  | opened path => path
  | forgotten path => path

/-- A complete write or a replacement, a deletion, the dispatch of the next event, and a run of
`pkg_gc`. -/
inductive PkgAction
  | write (path : CString) (archive : Archive)
  | delete (path : CString)
  | dispatch
  | collect

/-- The files on disk, the events still to be dispatched, and what was dispatched to `pkg_open`: the
version read for each path, how often the path was opened since, for how many paths a version was
read, and whether the database is still locked. -/
structure PkgDir where
  disk : CString → Option Archive
  pending : List FileEvent
  read : CString → Option Archive
  opens : CString → ℕ
  packages : ℕ
  locked : Bool

namespace PkgDir

def empty (locked : Bool) : PkgDir := ⟨fun _ => none, [], fun _ => none, fun _ => 0, 0, locked⟩

/-- An event of type `IN_CLOSE_WRITE` or `IN_MOVED_TO` is dispatched. -/
def opened (d : PkgDir) (path : CString) : PkgDir :=
  match d.read path with
  | some _ => { d with opens := Function.update d.opens path (d.opens path + 1) }
  | none =>
    if d.locked then d
    else
      match d.disk path with
      | none => { d with locked := true }
      | some v =>
        { d with
          read := Function.update d.read path (some v)
          opens := Function.update d.opens path 1
          packages := d.packages + 1 }

def next (d : PkgDir) : PkgAction → PkgDir
  | .write path archive =>
    { d with
      disk := Function.update d.disk path (some archive)
      pending := d.pending ++ [.opened path] }
  | .delete path =>
    match d.disk path with
    | none => d
    | some _ =>
      { d with
        disk := Function.update d.disk path none
        pending := d.pending ++ [.forgotten path] }
  | .dispatch =>
    match d.pending with
    | [] => d
    | .opened path :: pending => opened { d with pending := pending } path
    | .forgotten _ :: pending => { d with pending := pending }
  | .collect => d

def after (locked : Bool) (hist : List PkgAction) : PkgDir := hist.foldl next (empty locked)

end PkgDir

/-- The system answers from the disk: a package file can be opened, locked and read to its end,
and what is not there can be neither found nor opened. -/
structure OpenEnv.Reads (env : OpenEnv) (s : Registry) (file : Option Archive) : Prop where
  elem : s.handle env.elem = none
  found : ∀ v, file = some v → env.statErrno = none ∧ env.fileFails = false ∧
    env.archiveOk = true ∧ List.Forall₂ (fun header e => ∃ now, header = .ok e now) env.headers v
  missing : file = none → env.statErrno ≠ none ∧ env.fd < 0

/-- The event handler is `stuck` when a `pkg_open` waits for the database lock. -/
structure PkgWorld where
  dir : PkgDir
  process : PkgProcess
  stuck : Bool

def pkgWorldInit (openFds : List ℤ) (dlinkCount pkgLifetime : ℤ) (locked : Bool)
    (answers : CString → ℕ → OpenEnv) : PkgWorld :=
  ⟨.empty locked, ⟨pkgInit openFds dlinkCount pkgLifetime, locked, answers⟩, false⟩

/-- The files change, or the code takes a step. The reference count is an `int`: `pkg_gc` runs
while no path was opened `2 ^ 31` times. -/
inductive PkgViewStep : PkgWorld → PkgAction → PkgWorld → Prop
  | write {d : PkgDir} {p : PkgProcess} {stuck : Bool} (path : CString) (archive : Archive) :
      PkgViewStep ⟨d, p, stuck⟩ (.write path archive) ⟨d.next (.write path archive), p, stuck⟩
  | delete {d : PkgDir} {p : PkgProcess} {stuck : Bool} (path : CString) :
      PkgViewStep ⟨d, p, stuck⟩ (.delete path) ⟨d.next (.delete path), p, stuck⟩
  | opened {d : PkgDir} {p p' : PkgProcess} {path : CString} {pending : List FileEvent}
      (hnext : d.pending = .opened path :: pending)
      (henv : (p.answers path 0).Reads p.registry (d.disk path))
      (hopen : p.pkgOpen path = some p') :
      PkgViewStep ⟨d, p, false⟩ .dispatch ⟨d.next .dispatch, p', false⟩
  | waits {d : PkgDir} {p : PkgProcess} {path : CString} {pending : List FileEvent}
      (hnext : d.pending = .opened path :: pending) (hwaits : p.pkgOpen path = none) :
      PkgViewStep ⟨d, p, false⟩ .dispatch ⟨d.next .dispatch, p, true⟩
  -- `pkg_forget` leaves the registry alone
  | forgotten {d : PkgDir} {p : PkgProcess} {path : CString} {pending : List FileEvent}
      (hnext : d.pending = .forgotten path :: pending) :
      PkgViewStep ⟨d, p, false⟩ .dispatch ⟨d.next .dispatch, p, false⟩
  | collect {d : PkgDir} {p : PkgProcess} (clock : Addr → ℤ)
      (hcount : ∀ path, d.opens path < 2 ^ 31) :
      PkgViewStep ⟨d, p, false⟩ .collect
        ⟨d.next .collect, { p with registry := pkgGc p.registry clock }, false⟩

/-- An entry without its package id and the time of its import. -/
def VfsCacheEntry.content (fe : VfsCacheEntry) : VfsCacheEntry := { fe with pkgid := 0, ctime := 0 }

def ArchiveEntry.content (e : ArchiveEntry) : Option VfsCacheEntry :=
  e.pathname.map fun path =>
    ⟨copyField PATH_MAX (some path), 0, e.size, ftypeOf (entryType e.strmode), e.uid, e.gid,
      copyField 32 e.uname, copyField 32 e.gname, e.mode, 0⟩

/-- The entries of a version; a file that is not there has none. -/
def contents (file : Option Archive) : List VfsCacheEntry :=
  (file.getD []).filterMap ArchiveEntry.content

def Registry.entriesOf (s : Registry) (pkgid : ℤ) : List VfsCacheEntry :=
  (s.heapVfsCache.filter fun fe => fe.pkgid = pkgid).map VfsCacheEntry.content

/-- The entries registered for a path: those of the package that its handle stands for. -/
def Registry.entriesFor (s : Registry) (path : CString) : List VfsCacheEntry :=
  match (pkgHandleByname s path).bind s.handle with
  | none => []
  | some h => s.entriesOf h.pkgid

/-- When the last event of the path is dispatched, the entries registered for it are those of the
file, and there are none if it was deleted. -/
def PkgWorld.Follows (w : PkgWorld) (path : CString) : Prop :=
  (∀ ev ∈ w.dir.pending, ev.path ≠ path) →
    (w.process.registry.entriesFor path).Perm (contents (w.dir.disk path))

/-- When no event of the path is pending, what is on disk has the entries of the version that the
first event to find the file found, with the database not locked; if there is no file any more, that
version had none. -/
def PkgDir.FirstIsLast (d : PkgDir) (path : CString) : Prop :=
  (∀ ev ∈ d.pending, ev.path ≠ path) →
    (contents (d.read path)).Perm (contents (d.disk path))

section Import

variable {pkgid : ℤ}

theorem vfsAddPath_content (hid : 1 ≤ pkgid) (e : ArchiveEntry) (now : ℤ)
    (cache : List VfsCacheEntry) :
    ∃ added : Option VfsCacheEntry,
      (vfsAddPath cache (entryType e.strmode) pkgid e.pathname e.uid e.gid e.uname e.gname e.mode
        e.size now).1 = added.toList ++ cache ∧
      (∀ fe ∈ added, fe.pkgid = pkgid) ∧ added.map VfsCacheEntry.content = e.content := by
  simp only [vfsAddPath, ArchiveEntry.content]
  rw [if_neg (by omega)]
  cases e.pathname with
  | none =>
    refine ⟨none, rfl, fun fe hfe => ?_, rfl⟩
    cases hfe
  | some path =>
    dsimp only
    rw [if_neg (fun h => Bool.false_ne_true h.2)]
    refine ⟨some _, rfl, fun fe hfe => ?_, rfl⟩
    cases hfe
    rfl

theorem importHeaders_content (hid : 1 ≤ pkgid) {headers : List HeaderResult} {v : Archive}
    (h : List.Forall₂ (fun header e => ∃ now, header = .ok e now) headers v)
    (cache : List VfsCacheEntry) :
    ∃ added, (importHeaders pkgid headers cache).1 = added ++ cache ∧
      (∀ fe ∈ added, fe.pkgid = pkgid) ∧
      added.map VfsCacheEntry.content = (contents (some v)).reverse := by
  induction h generalizing cache with
  | nil => exact ⟨[], rfl, List.forall_mem_nil _, rfl⟩
  | @cons header e headers v hheader _ ih =>
    obtain ⟨now, rfl⟩ := hheader
    obtain ⟨first, hfirst, hfirstId, hfirstContent⟩ :=
      vfsAddPath_content hid e now cache
    obtain ⟨added, hadded, haddedId, haddedContent⟩ := ih (first.toList ++ cache)
    refine ⟨added ++ first.toList, ?_, ?_, ?_⟩
    · rw [importHeaders, hfirst, hadded, List.append_assoc]
    · intro fe hfe
      rcases List.mem_append.mp hfe with hfe | hfe
      · exact haddedId fe hfe
      · exact hfirstId fe (Option.mem_toList.mp hfe)
    · rw [List.map_append, haddedContent, contents, contents, Option.getD_some, Option.getD_some,
        List.filterMap_cons, ← hfirstContent]
      cases first with
      | none => exact List.append_nil _
      | some fe => exact (List.reverse_cons ..).symm

end Import

/-- A version of the path was read: its handle is found by its name, counts the opens, and stands
for the entries of that version. -/
structure Viewed (s : Registry) (path : CString) (v : Archive) (opens : ℕ) (a : Addr)
    (h : PkgHandle) : Prop where
  byname : pkgHandleByname s path = some a
  handle : s.handle a = some h
  pkgid : h.pkgid ≤ s.gPkgid
  refcnt : h.refcnt = wrapInt opens
  opens_pos : 1 ≤ opens
  entries : (s.entriesOf h.pkgid).Perm (contents (some v))

/-- The registry stands for the versions that were read. -/
structure Views (d : PkgDir) (s : Registry) : Prop where
  gPkgid : s.gPkgid = d.packages + 1
  cache : ∀ fe ∈ s.heapVfsCache, fe.pkgid ≤ s.gPkgid
  listed : ∀ a ∈ s.pkgList, ∃ path, pkgHandleByname s path = some a
  unread : ∀ path, d.read path = none → pkgHandleByname s path = none
  viewed : ∀ path v, d.read path = some v → ∃ a h, Viewed s path v (d.opens path) a h

section Views

variable {d d' : PkgDir} {s s' : Registry} {path : CString} {v : Archive} {a : Addr}
  {h p : PkgHandle}

theorem views_init (openFds : List ℤ) (dlinkCount pkgLifetime : ℤ) (locked : Bool) :
    Views (.empty locked) (pkgInit openFds dlinkCount pkgLifetime) where
  gPkgid := rfl
  cache := List.forall_mem_nil _
  listed := List.forall_mem_nil _
  unread := fun _ _ => rfl
  viewed := by
    intro path v hread
    cases hread

theorem Views.files (hviews : Views d s) (hread : d'.read = d.read) (hopens : d'.opens = d.opens)
    (hpackages : d'.packages = d.packages) : Views d' s := by
  refine ⟨?_, hviews.cache, hviews.listed, ?_, ?_⟩
  · rw [hpackages]
    exact hviews.gPkgid
  · rw [hread]
    exact hviews.unread
  · rw [hread, hopens]
    exact hviews.viewed

theorem Views.of_mem (hviews : Views d s) (ha : a ∈ s.pkgList) :
    ∃ path v h, d.read path = some v ∧ Viewed s path v (d.opens path) a h := by
  obtain ⟨path, hfind⟩ := hviews.listed a ha
  cases hread : d.read path with
  | none =>
    rw [hviews.unread path hread] at hfind
    cases hfind
  | some v =>
    obtain ⟨b, h, hv⟩ := hviews.viewed path v hread
    cases hfind.symm.trans hv.byname
    exact ⟨path, v, h, hread, hv⟩

theorem Views.not_mem (hviews : Views d s) (hfree : s.handle a = none) : a ∉ s.pkgList := by
  intro ha
  obtain ⟨path, v, h, -, hv⟩ := hviews.of_mem ha
  rw [hv.handle] at hfree
  cases hfree

theorem pkgHandleByname_congr (hlist : s'.pkgList = s.pkgList)
    (hname : ∀ a ∈ s.pkgList, (s'.handle a).map (·.name) = (s.handle a).map (·.name))
    (path : CString) : pkgHandleByname s' path = pkgHandleByname s path := by
  rw [pkgHandleByname, pkgHandleByname, hlist]
  have hnamed (s : Registry) (b : Addr) :
      s.named path b = ((s.handle b).map (·.name)).any (· = some path) := by
    rw [Option.any_map]
    rfl
  apply List.find?_congr
  intro b hb
  rw [hnamed, hnamed, hname b hb]

theorem pkgHandleByname_setHandle (hh : s.handle a = some h) (hname : p.name = h.name)
    (path : CString) : pkgHandleByname (s.setHandle a p) path = pkgHandleByname s path := by
  refine pkgHandleByname_congr Registry.pkgList_setHandle (fun b _ => ?_) path
  by_cases hba : b = a
  · rw [hba, Registry.handle_setHandle_self, hh, Option.map_some, Option.map_some, hname]
  · rw [Registry.handle_setHandle_ne hba]

theorem pkgHandleByname_concat (hlist : s'.pkgList = s.pkgList ++ [a])
    (hself : s'.handle a = some p) (hname : p.name = some path)
    (hother : ∀ b ∈ s.pkgList, s'.handle b = s.handle b) (q : CString) :
    pkgHandleByname s' q = (pkgHandleByname s q).or (if q = path then some a else none) := by
  rw [pkgHandleByname, hlist, List.find?_append, List.find?_singleton, Registry.named, hself]
  congr 1
  · apply List.find?_congr
    intro b hb
    rw [Registry.named, Registry.named, hother b hb]
  · rw [Option.any_some, hname]
    by_cases hq : q = path
    · simp [hq]
    · simp [hq, Ne.symm hq]

theorem entriesOf_append {added : List VfsCacheEntry}
    (hcache : s'.heapVfsCache = added ++ s.heapVfsCache) (pkgid : ℤ) :
    s'.entriesOf pkgid =
      (added.filter fun fe => fe.pkgid = pkgid).map VfsCacheEntry.content ++ s.entriesOf pkgid := by
  rw [Registry.entriesOf, hcache, List.filter_append, List.map_append]
  rfl

theorem Views.entriesOf_next (hviews : Views d s) : s.entriesOf (s.gPkgid + 1) = [] := by
  rw [Registry.entriesOf, List.map_eq_nil_iff, List.filter_eq_nil_iff]
  intro fe hfe
  have := hviews.cache fe hfe
  rw [decide_eq_true_eq]
  omega

theorem Views.frame (hviews : Views d s) (hlist : s'.pkgList = s.pkgList)
    (hcache : s'.heapVfsCache = s.heapVfsCache) (hid : s'.gPkgid = s.gPkgid)
    (hhandle : ∀ a ∈ s.pkgList, s'.handle a = s.handle a) : Views d s' := by
  have hfind := pkgHandleByname_congr hlist fun a ha => by rw [hhandle a ha]
  refine ⟨hid.trans hviews.gPkgid, ?_, ?_, ?_, ?_⟩
  · rw [hcache, hid]
    exact hviews.cache
  · rw [hlist]
    simp only [hfind]
    exact hviews.listed
  · simp only [hfind]
    exact hviews.unread
  · intro path v hread
    obtain ⟨a, h, hv⟩ := hviews.viewed path v hread
    refine ⟨a, h, (hfind path).trans hv.byname, ?_, ?_, hv.refcnt, hv.opens_pos, ?_⟩
    · rw [hhandle a (List.mem_of_find?_eq_some hv.byname), hv.handle]
    · rw [hid]
      exact hv.pkgid
    · rw [Registry.entriesOf, hcache]
      exact hv.entries

theorem Views.touch (hviews : Views d s) (hv : Viewed s path v (d.opens path) a h)
    (hread : d.read path = some v) (now : ℤ) : Views (d.opened path) (s.touch a now) := by
  have hopened : d.opened path =
      { d with opens := Function.update d.opens path (d.opens path + 1) } := by
    rw [PkgDir.opened, hread]
  rw [hopened, Registry.touch_of_handle hv.handle]
  have hfind (q : CString) := pkgHandleByname_setHandle
    (p := { h with otime := now, refcnt := wrapInt (h.refcnt + 1) }) hv.handle rfl q
  refine ⟨hviews.gPkgid, hviews.cache, ?_, ?_, ?_⟩
  · simp only [hfind]
    exact hviews.listed
  · simp only [hfind]
    exact hviews.unread
  · intro q w hq
    by_cases hqp : q = path
    · subst hqp
      cases hread.symm.trans hq
      refine ⟨a, _, (hfind q).trans hv.byname, Registry.handle_setHandle_self, hv.pkgid, ?_, ?_,
        hv.entries⟩
      · dsimp only
        rw [Function.update_self, hv.refcnt, wrapInt_wrapInt_add_one]
        rfl
      · dsimp only
        rw [Function.update_self]
        exact Nat.le_add_left 1 _
    · obtain ⟨b, p, hvb⟩ := hviews.viewed q w hq
      refine ⟨b, p, (hfind q).trans hvb.byname, ?_, hvb.pkgid, ?_, ?_, hvb.entries⟩
      · rw [Registry.handle_setHandle_ne, hvb.handle]
        rintro rfl
        have hname := List.find?_some hv.byname
        have hname' := List.find?_some hvb.byname
        rw [Registry.named, hv.handle] at hname
        rw [Registry.named, hv.handle] at hname'
        simp only [Option.any_some, decide_eq_true_eq] at hname hname'
        exact hqp (Option.some.inj (hname'.symm.trans hname))
      · dsimp only
        rw [Function.update_of_ne hqp]
        exact hvb.refcnt
      · dsimp only
        rw [Function.update_of_ne hqp]
        exact hvb.opens_pos

/-- A path whose file is found for the first time is listed with the entries of the file. -/
theorem Views.create (hviews : Views d s) (hread : d.read path = none)
    (hunlocked : d.locked = false) (hdisk : d.disk path = some v) {added : List VfsCacheEntry}
    (hfree : s.handle a = none) (hlist : s'.pkgList = s.pkgList ++ [a])
    (hid : s'.gPkgid = s.gPkgid + 1) (hcache : s'.heapVfsCache = added ++ s.heapVfsCache)
    (hadded : ∀ fe ∈ added, fe.pkgid = s.gPkgid + 1)
    (hcontent : added.map VfsCacheEntry.content = (contents (some v)).reverse)
    (hself : s'.handle a = some p) (hname : p.name = some path) (hpkgid : p.pkgid = s.gPkgid + 1)
    (hcount : p.refcnt = 1) (hother : ∀ b, b ≠ a → s'.handle b = s.handle b) :
    Views (d.opened path) s' := by
  have hopened : d.opened path =
      { d with
        read := Function.update d.read path (some v)
        opens := Function.update d.opens path 1
        packages := d.packages + 1 } := by
    simp [PkgDir.opened, hread, hunlocked, hdisk]
  have hmem := hviews.not_mem hfree
  have hfind := pkgHandleByname_concat hlist hself hname fun b hb =>
    hother b (ne_of_mem_of_not_mem hb hmem)
  have hnew : pkgHandleByname s' path = some a := by
    rw [hfind, hviews.unread path hread, Option.none_or, if_pos rfl]
  rw [hopened]
  refine ⟨?_, ?_, ?_, ?_, ?_⟩
  · rw [hid, hviews.gPkgid]
    rfl
  · intro fe hfe
    rw [hcache] at hfe
    rw [hid]
    rcases List.mem_append.mp hfe with hfe | hfe
    · exact (hadded fe hfe).le
    · have := hviews.cache fe hfe
      omega
  · intro b hb
    rw [hlist] at hb
    rcases List.mem_append.mp hb with hb | hb
    · obtain ⟨q, hq⟩ := hviews.listed b hb
      exact ⟨q, by rw [hfind, hq, Option.some_or]⟩
    · rw [List.mem_singleton.mp hb]
      exact ⟨path, hnew⟩
  · intro q hq
    have hqp : q ≠ path := by
      rintro rfl
      simp at hq
    dsimp only at hq
    rw [Function.update_of_ne hqp] at hq
    rw [hfind, hviews.unread q hq, if_neg hqp]
    rfl
  · intro q w hq
    dsimp only at hq ⊢
    by_cases hqp : q = path
    · subst hqp
      rw [Function.update_self] at hq
      cases hq
      rw [Function.update_self]
      refine ⟨a, p, hnew, hself, by rw [hid, hpkgid], by rw [hcount]; rfl, le_rfl, ?_⟩
      have hall : added.filter (fun fe => fe.pkgid = s.gPkgid + 1) = added := by
        rw [List.filter_eq_self]
        exact fun fe hfe => decide_eq_true (hadded fe hfe)
      rw [hpkgid, entriesOf_append hcache, hviews.entriesOf_next, hall, List.append_nil, hcontent]
      exact List.reverse_perm _
    · rw [Function.update_of_ne hqp] at hq ⊢
      obtain ⟨b, h, hv⟩ := hviews.viewed q w hq
      refine ⟨b, h, by rw [hfind, hv.byname, Option.some_or], ?_, ?_, hv.refcnt, hv.opens_pos, ?_⟩
      · rw [hother b (ne_of_mem_of_not_mem (List.mem_of_find?_eq_some hv.byname) hmem), hv.handle]
      · have := hv.pkgid
        omega
      · have hnone : added.filter (fun fe => fe.pkgid = h.pkgid) = [] := by
          rw [List.filter_eq_nil_iff]
          intro fe hfe
          have := hv.pkgid
          simp only [decide_eq_true_eq, hadded fe hfe]
          omega
        rw [entriesOf_append hcache, hnone]
        exact hv.entries

/-- What is opened while the file is not there leaves an element in use, and nothing else. -/
theorem Views.missing (hviews : Views d s) {env : OpenEnv} (henv : env.Reads s none) :
    Views d (pkgRelease (s.prepare env path) env.elem) := by
  obtain ⟨hstat, -⟩ := henv.missing rfl
  have hself : (s.prepare env path).handle env.elem = _ := Registry.prepare_handle_self
  have hmem := hviews.not_mem henv.elem
  refine hviews.frame ?_ ?_ ?_ fun b hb => ?_
  · rw [pkgRelease_pkgList hself, Registry.prepare_pkgList, List.erase_of_not_mem hmem]
  · rw [pkgRelease_heapVfsCache hself, Registry.prepare_heapVfsCache]
  · rw [pkgRelease_gPkgid hself, Registry.prepare_gPkgid]
    cases hs : env.statErrno with
    | none => exact absurd hs hstat
    | some errno => rfl
  · have hne := ne_of_mem_of_not_mem hb hmem
    rw [pkgRelease_handle_ne hself hne, Registry.prepare_handle_ne hne]

theorem Views.imported (hviews : Views d s) (hread : d.read path = none)
    (hunlocked : d.locked = false) (hdisk : d.disk path = some v) {env : OpenEnv}
    (henv : env.Reads s (some v)) (hids : d.packages + 1 < 2 ^ 31 - 1) :
    Views (d.opened path) ((s.imported env path).touch env.elem env.now) := by
  obtain ⟨hstat, -, -, hheaders⟩ := henv.found v rfl
  have hid := hviews.gPkgid
  have hwrap : wrapInt (s.gPkgid + 1) = s.gPkgid + 1 := wrapInt_of_lt (by omega) (by omega)
  have hpkgid : (dbPkgAdd s env.statErrno).2 = s.gPkgid + 1 := by
    rw [hstat, dbPkgAdd, hwrap]
  have hself : (s.imported env path).handle env.elem = _ := Registry.prepare_handle_self
  obtain ⟨added, hcache, hadded, hcontent⟩ :=
    importHeaders_content (by omega : 1 ≤ s.gPkgid + 1) hheaders s.heapVfsCache
  rw [Registry.touch_of_handle hself]
  refine hviews.create hread hunlocked hdisk henv.elem ?_ ?_ ?_ hadded hcontent
    Registry.handle_setHandle_self rfl hpkgid rfl fun b hb => ?_
  · change (s.prepare env path).pkgList ++ [env.elem] = _
    rw [Registry.prepare_pkgList]
  · change (s.prepare env path).gPkgid = _
    rw [Registry.prepare_gPkgid, hstat, dbPkgAdd, hwrap]
  · change (importHeaders (dbPkgAdd s env.statErrno).2 env.headers
      (s.prepare env path).heapVfsCache).1 = _
    rw [hpkgid, Registry.prepare_heapVfsCache, hcache]
  · rw [Registry.handle_setHandle_ne hb]
    exact Registry.prepare_handle_ne hb

theorem Views.collect (hviews : Views d s) (hcount : ∀ path, d.opens path < 2 ^ 31)
    (clock : Addr → ℤ) : pkgGc s clock = s := by
  have hvisit (a : Addr) (ha : a ∈ s.pkgList) : pkgGcVisit clock s a = s := by
    obtain ⟨path, v, h, -, hv⟩ := hviews.of_mem ha
    have hlt := hcount path
    have hpos := hv.opens_pos
    have hheld : h.refcnt ≠ 0 := by
      rw [hv.refcnt, wrapInt_of_lt (by omega) (by omega)]
      omega
    have hstays : h.expired s.pkgLifetime (clock a) = false := by
      rw [PkgHandle.expired, decide_eq_false_iff_not]
      exact fun hexp => hheld hexp.1
    simp only [pkgGcVisit, hv.handle, hstays, Bool.false_eq_true, if_false]
  have hwalk (l : List Addr) (hl : l ⊆ s.pkgList) : l.foldl (pkgGcVisit clock) s = s := by
    induction l with
    | nil => rfl
    | cons a l ih =>
      rw [List.foldl_cons, hvisit a (hl List.mem_cons_self)]
      exact ih fun b hb => hl (List.mem_cons_of_mem _ hb)
  exact hwalk s.pkgList (List.Subset.refl _)

end Views

theorem PkgDir.packages_le_next (d : PkgDir) (act : PkgAction) :
    d.packages ≤ (d.next act).packages := by
  cases act with
  | write path archive => exact le_rfl
  | delete path =>
    simp only [next]
    split <;> exact le_rfl
  | dispatch =>
    simp only [next]
    split
    · exact le_rfl
    · simp only [opened]
      split
      · exact le_rfl
      · split
        · exact le_rfl
        · split
          · exact le_rfl
          · exact Nat.le_succ _
    · exact le_rfl
  | collect => exact le_rfl

/-- The registry stands for what was read, and the lock is held as the history says. -/
structure PkgWorld.Good (w : PkgWorld) : Prop where
  views : Views w.dir w.process.registry
  locked : w.process.dbLocked = w.dir.locked

section Opened

variable {d : PkgDir} {p p' : PkgProcess} {path : CString}

/-- A `pkg_open` that waits was called for a path that was never read, with the database locked, and
nothing changes. -/
theorem PkgDir.opened_of_waits (hviews : Views d p.registry) (hlocked : p.dbLocked = d.locked)
    (hwaits : p.pkgOpen path = none) : d.opened path = d := by
  rw [PkgProcess.pkgOpen_eq_none_iff, PkgProcess.waits, Bool.and_eq_true, hlocked,
    Option.isNone_iff_eq_none] at hwaits
  rw [PkgDir.opened]
  cases hread : d.read path with
  | none => exact if_pos hwaits.1
  | some v =>
    obtain ⟨a, h, hv⟩ := hviews.viewed path v hread
    exact absurd (hv.byname.symm.trans hwaits.2) (by simp)

/-- A `pkg_open` that comes back keeps the registry and the lock in step with the history. -/
theorem PkgWorld.good_opened (hviews : Views d p.registry) (hlocked : p.dbLocked = d.locked)
    (henv : (p.answers path 0).Reads p.registry (d.disk path)) (hopen : p.pkgOpen path = some p')
    (hids : (d.opened path).packages < 2 ^ 31 - 1) :
    PkgWorld.Good ⟨d.opened path, p', false⟩ := by
  have hregistry := PkgProcess.registry_of_pkgOpen hopen
  have hlock := PkgProcess.dbLocked_of_pkgOpen hopen
  cases hread : d.read path with
  | some v =>
    obtain ⟨a, h, hv⟩ := hviews.viewed path v hread
    rw [pkgOpen_listed hv.byname] at hregistry
    rw [hv.byname, Option.isSome_some, if_pos rfl, hlocked] at hlock
    refine ⟨?_, hlock.trans ?_⟩
    · dsimp only
      rw [hregistry]
      exact hviews.touch hv hread _
    · rw [PkgDir.opened, hread]
  | none =>
    have hnew := hviews.unread path hread
    have hunlocked : d.locked = false := by
      have hcomes : p.pkgOpen path ≠ none := by simp [hopen]
      rw [ne_eq, PkgProcess.pkgOpen_eq_none_iff, PkgProcess.waits, hnew, hlocked] at hcomes
      simpa using hcomes
    rw [hnew, Option.isSome_none, if_neg Bool.false_ne_true] at hlock
    cases hdisk : d.disk path with
    | none =>
      have hopened : d.opened path = { d with locked := true } := by
        simp [PkgDir.opened, hread, hunlocked, hdisk]
      rw [hdisk] at henv
      have hfails : (p.answers path 0).fileFails = true := by
        rw [OpenEnv.fileFails, decide_eq_true (henv.missing rfl).2, Bool.true_or]
      rw [pkgOpen_fileFails hnew hfails] at hregistry
      rw [hopened]
      refine ⟨?_, ?_⟩
      · dsimp only
        rw [hregistry]
        exact (hviews.missing henv).files rfl rfl rfl
      · rw [hlock, hfails]
        rfl
    | some v =>
      have hopened : (d.opened path).packages = d.packages + 1 ∧
          (d.opened path).locked = d.locked := by
        simp [PkgDir.opened, hread, hunlocked, hdisk]
      rw [hdisk] at henv
      obtain ⟨-, hfile, harchive, -⟩ := henv.found v rfl
      rw [pkgOpen_imported hnew hfile harchive] at hregistry
      refine ⟨?_, ?_⟩
      · dsimp only
        rw [hregistry]
        exact hviews.imported hread hunlocked hdisk henv (hopened.1 ▸ hids)
      · rw [hlock, hopened.2, hunlocked, hfile, harchive]
        rfl

end Opened

/-- The step lemma: the first version that a path is read in stays. -/
theorem PkgViewStep.good {w w' : PkgWorld} {act : PkgAction} (hstep : PkgViewStep w act w')
    (hgood : w.Good) (hids : w'.dir.packages < 2 ^ 31 - 1) : w'.Good := by
  obtain ⟨hviews, hlocked⟩ := hgood
  cases hstep with
  | write path archive => exact ⟨hviews.files rfl rfl rfl, hlocked⟩
  | @delete d p stuck path =>
    simp only [PkgDir.next]
    split
    · exact ⟨hviews, hlocked⟩
    · exact ⟨hviews.files rfl rfl rfl, hlocked⟩
  | @opened d p p' path pending hnext henv hopen =>
    have hfiles : Views { d with pending := pending } p.registry := hviews.files rfl rfl rfl
    have hdir : d.next .dispatch = PkgDir.opened { d with pending := pending } path := by
      rw [PkgDir.next, hnext]
    rw [hdir] at hids ⊢
    exact PkgWorld.good_opened hfiles hlocked henv hopen hids
  | @waits d p path pending hnext hwaits =>
    have hfiles : Views { d with pending := pending } p.registry := hviews.files rfl rfl rfl
    have hdir : d.next .dispatch = PkgDir.opened { d with pending := pending } path := by
      rw [PkgDir.next, hnext]
    rw [hdir, PkgDir.opened_of_waits hfiles hlocked hwaits]
    exact ⟨hfiles, hlocked⟩
  | @forgotten d p path pending hnext =>
    have hdir : d.next .dispatch = { d with pending := pending } := by
      rw [PkgDir.next, hnext]
    rw [hdir]
    exact ⟨hviews.files rfl rfl rfl, hlocked⟩
  | @collect d p clock hcount =>
    refine ⟨?_, hlocked⟩
    dsimp only
    rw [hviews.collect hcount clock]
    exact hviews

section Run

variable {openFds : List ℤ} {dlinkCount pkgLifetime : ℤ} {locked : Bool}
  {answers : CString → ℕ → OpenEnv} {hist : List PkgAction} {w : PkgWorld}

theorem PkgViewStep.dir {w' : PkgWorld} {act : PkgAction} (hstep : PkgViewStep w act w') :
    w'.dir = w.dir.next act := by
  cases hstep <;> rfl

theorem dir_of_run
    (hrun : Exec PkgViewStep (pkgWorldInit openFds dlinkCount pkgLifetime locked answers) hist w) :
    w.dir = PkgDir.after locked hist := by
  induction hrun with
  | nil => rfl
  | snoc _ hlast ih =>
    rw [hlast.dir, ih, PkgDir.after, PkgDir.after, List.foldl_concat]

theorem good_of_run
    (hrun : Exec PkgViewStep (pkgWorldInit openFds dlinkCount pkgLifetime locked answers) hist w)
    (hids : w.dir.packages < 2 ^ 31 - 1) : w.Good := by
  induction hrun with
  | nil => exact ⟨views_init openFds dlinkCount pkgLifetime locked, rfl⟩
  | @snoc w w' hist act _ hlast ih =>
    have hle := w.dir.packages_le_next act
    rw [← hlast.dir] at hle
    exact hlast.good (ih (hle.trans_lt hids)) hids

/-- What is registered for a path is what the first event that found the file found. -/
theorem Views.entriesFor {d : PkgDir} {s : Registry} (hviews : Views d s) (path : CString) :
    (s.entriesFor path).Perm (contents (d.read path)) := by
  rw [Registry.entriesFor]
  cases hread : d.read path with
  | none =>
    rw [hviews.unread path hread]
    exact List.Perm.refl _
  | some v =>
    obtain ⟨a, h, hv⟩ := hviews.viewed path v hread
    rw [hv.byname, Option.bind_some, hv.handle]
    exact hv.entries

/-- The entries registered for a path are those of the file exactly if what is on disk is what the
first event to find the file found, with the database not locked. `g_pkgid` is an `int`, and tells
fewer than `2 ^ 31 - 1` packages apart. -/
theorem pkg_view_iff
    (hrun : Exec PkgViewStep (pkgWorldInit openFds dlinkCount pkgLifetime locked answers) hist w)
    (hids : (PkgDir.after locked hist).packages < 2 ^ 31 - 1) (path : CString) :
    w.Follows path ↔ (PkgDir.after locked hist).FirstIsLast path := by
  rw [← dir_of_run hrun] at hids ⊢
  have hentries := (good_of_run hrun hids).views.entriesFor path
  refine forall_congr' fun _ => ?_
  constructor
  · exact hentries.symm.trans
  · exact hentries.trans

end Run

section OnePackage

def onePackage : Archive := [⟨45, some (.ofChars ['a']), none, none, 0, 0, 33188, 1⟩]

def OpenEnv.onePackage : OpenEnv :=
  ⟨none, 1, 5, false, true, true,
    [.ok ⟨45, some (.ofChars ['a']), none, none, 0, 0, 33188, 1⟩ 10], 10⟩

def oneRead : PkgWorld where
  dir := ((PkgDir.empty false).next (.write (.ofChars ['x']) onePackage)).next .dispatch
  process :=
    ⟨(pkgOpen (pkgInit [] 0 60) .onePackage (.ofChars ['x'])).registry, false,
      fun _ _ => .onePackage⟩
  stuck := false

theorem run_oneRead : Exec PkgViewStep (pkgWorldInit [] 0 60 false fun _ _ => .onePackage)
    [.write (.ofChars ['x']) onePackage, .dispatch] oneRead := by
  have hreads : OpenEnv.onePackage.Reads (pkgInit [] 0 60) (some onePackage) := by
    refine ⟨rfl, fun v hv => ?_, fun hnone => by cases hnone⟩
    cases hv
    exact ⟨rfl, rfl, rfl, .cons ⟨10, rfl⟩ .nil⟩
  have hopen : PkgProcess.pkgOpen ⟨pkgInit [] 0 60, false, fun _ _ => .onePackage⟩
      (.ofChars ['x']) = some oneRead.process := by
    rw [PkgProcess.pkgOpen, Function.update_eq_self]
    rfl
  have hwrite : PkgViewStep (pkgWorldInit [] 0 60 false fun _ _ => .onePackage)
      (.write (.ofChars ['x']) onePackage) _ := .write (.ofChars ['x']) onePackage
  exact (Exec.single hwrite).snoc (.opened rfl hreads hopen)

theorem pkg_view_iff_oneRead : oneRead.Follows (.ofChars ['x']) ↔
    (PkgDir.after false [.write (.ofChars ['x']) onePackage, .dispatch]).FirstIsLast
      (.ofChars ['x']) :=
  pkg_view_iff run_oneRead (by decide) (.ofChars ['x'])

/-- The file is deleted, the deletion is dispatched, and its entry is still registered. -/
theorem pkg_view_fails :
    ∃ w, Exec PkgViewStep (pkgWorldInit [] 0 60 false fun _ _ => .onePackage)
      [.write (.ofChars ['x']) onePackage, .dispatch, .delete (.ofChars ['x']), .dispatch] w ∧
        ¬ w.Follows (.ofChars ['x']) := by
  have hdelete : PkgViewStep oneRead (.delete (.ofChars ['x'])) _ := .delete (.ofChars ['x'])
  have hrun := (run_oneRead.snoc hdelete).snoc (.forgotten rfl)
  refine ⟨_, hrun, fun hfollows => ?_⟩
  have hentries := (good_of_run hrun (by decide)).views.entriesFor (.ofChars ['x'])
  have hempty := hentries.symm.trans (hfollows (List.forall_mem_nil _))
  exact absurd hempty.length_eq (by decide)

end OnePackage

end JailFs
