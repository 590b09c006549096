import JailFs.CInt
import JailFs.Dict
import JailFs.VfsCache
import Mathlib.Data.List.AList

/-!
# The package registry of `pkg.c`

The handles in use in `heap_pkg`, the list `pkg_list` of those that `pkg_open` finds again, and the
cache entries that imports leave behind. What the system answers during one `pkg_open` is an
`OpenEnv`. `DLINK_FOREACH_SAFE` reads the next node before the body runs, and the bodies delete the
current node only, so a walk over `pkg_list` is a walk over the list as it was.

The calls on the package database lock are not state but a trace: `pkgOpen` returns the list of
those it made.
-/

namespace JailFs

structure PkgHandle where
  pkgid : ℤ
  fd : ℤ
  refcnt : ℤ
  otime : ℤ
  name : Option CString
  deriving DecidableEq

structure Registry where
  heapPkg : AList fun _ : Addr => PkgHandle
  pkgList : List Addr
  heapVfsCache : List VfsCacheEntry
  openFds : List ℤ
  dlinkCount : ℤ
  gPkgid : ℤ
  pkgLifetime : ℤ

/-- The registry that `pkg_init` leaves, in a process with descriptors and list nodes of its own. -/
def pkgInit (openFds : List ℤ) (dlinkCount pkgLifetime : ℤ) : Registry :=
  ⟨∅, [], [], openFds, dlinkCount, 1, pkgLifetime⟩

inductive DbOp
  | begin
  | commit
  | rollback
  deriving DecidableEq

/-- What one call of `archive_read_next_header` returns short of `ARCHIVE_EOF`; the entry comes
with the time at which it is added. -/
inductive HeaderResult
  | ok (entry : ArchiveEntry) (now : ℤ)
  | error (r : ℤ)
  deriving DecidableEq

/-- The answers of the system during one `pkg_open`: `stat`, the element that `blockheap_alloc`
hands out, `open`, `vfs.locking.host`, `flock`, the archive, its headers up to `ARCHIVE_EOF`, and
the time at the end. -/
structure OpenEnv where
  statErrno : Option ℤ
  elem : Addr
  fd : ℤ
  lockingHost : Bool
  flockOk : Bool
  archiveOk : Bool
  headers : List HeaderResult
  now : ℤ
  deriving DecidableEq

structure OpenResult where
  registry : Registry
  handle : Option Addr
  trace : List DbOp

namespace Registry

def handle (s : Registry) (a : Addr) : Option PkgHandle := s.heapPkg.lookup a

def setHandle (s : Registry) (a : Addr) (h : PkgHandle) : Registry :=
  { s with heapPkg := s.heapPkg.insert a h }

/-- The number of elements in use in `heap_pkg`. -/
def pkgsInUse (s : Registry) : ℕ := s.heapPkg.keys.length

/-- `strcmp(p->name, path) == 0`, for a listed handle. -/
def named (s : Registry) (path : CString) (a : Addr) : Bool :=
  (s.handle a).any fun h => h.name = some path

end Registry

def pkgHandleByname (s : Registry) (path : CString) : Option Addr :=
  s.pkgList.find? (s.named path)

/-- Frees the name, closes the descriptor unless it is `0`, and gives the element back if the
handle is listed. Giving up the host lock changes nothing here. -/
def pkgRelease (s : Registry) (pkg : Addr) : Registry :=
  match s.handle pkg with
  | none => s
  | some h =>
    let s :=
      if h.fd ≠ 0 then
        { s.setHandle pkg { h with name := none, fd := -1 } with openFds := s.openFds.erase h.fd }
      else s.setHandle pkg { h with name := none }
    if pkg ∈ s.pkgList then
      { s with pkgList := s.pkgList.erase pkg, heapPkg := s.heapPkg.erase pkg }
    else s

def pkgClose (s : Registry) (pkg : Addr) : Registry :=
  match s.handle pkg with
  | none => s
  | some h => s.setHandle pkg { h with refcnt := wrapInt (h.refcnt - 1) }

/-- `db_pkg_add`; `statErrno` is the `errno` of a failed `stat`. -/
def dbPkgAdd (s : Registry) (statErrno : Option ℤ) : Registry × ℤ :=
  match statErrno with
  | some errno => (s, -errno)
  | none => ({ s with gPkgid := wrapInt (s.gPkgid + 1) }, wrapInt (s.gPkgid + 1))

/-- The loop over the headers, and whether it ended with `db_rollback`. -/
def importHeaders (pkgid : ℤ) : List HeaderResult → List VfsCacheEntry → List VfsCacheEntry × Bool
  | [], cache => (cache, false)
  | .error _ :: _, cache => (cache, true)
  | .ok e now :: headers, cache =>
    importHeaders pkgid headers
      (vfsAddPath cache (entryType e.strmode) pkgid e.pathname e.uid e.gid e.uname e.gname e.mode
        e.size now).1

/-- The last lines of `pkg_open`: the time of use and the reference count. -/
def Registry.touch (s : Registry) (t : Addr) (now : ℤ) : Registry :=
  match s.handle t with
  | none => s
  | some h => s.setHandle t { h with otime := now, refcnt := wrapInt (h.refcnt + 1) }

def Registry.openFd (s : Registry) (fd : ℤ) : Registry :=
  if fd < 0 then s else { s with openFds := fd :: s.openFds }

/-- `dlink_add_tail_alloc(t, &pkg_list)` -/
def Registry.list (s : Registry) (t : Addr) : Registry :=
  { s with pkgList := s.pkgList ++ [t], dlinkCount := wrapInt (s.dlinkCount + 1) }

def pkgOpen (s : Registry) (env : OpenEnv) (path : CString) : OpenResult :=
  match pkgHandleByname s path with
  | some t => ⟨s.touch t env.now, some t, []⟩
  | none =>
    let t := env.elem
    let (s, pkgid) := dbPkgAdd s env.statErrno
    let s := (s.setHandle t ⟨pkgid, env.fd, 0, 0, some path⟩).openFd env.fd
    if env.fd < 0 then ⟨pkgRelease s t, none, [.begin]⟩
    else if env.lockingHost && !env.flockOk then ⟨pkgRelease s t, none, [.begin]⟩
    else
      -- from here on the handle is listed, and no exit takes it back
      let s := s.list t
      if !env.archiveOk then ⟨s, none, [.begin]⟩
      else
        let (cache, failed) := importHeaders pkgid env.headers s.heapVfsCache
        -- a bad header rolls back and falls through to the commit
        ⟨{ s with heapVfsCache := cache }.touch t env.now, some t,
          .begin :: (if failed then [.rollback] else []) ++ [.commit]⟩

/-- `pkg_extract_file`, with the answers for the archive it opens and the `stat` it makes itself.
It does not come back when it dereferences a `NULL` handle or reads headers of a `NULL` archive.
The headers it reads change nothing, and the path it returns is always `NULL`. -/
def pkgExtractFile (s : Registry) (env : OpenEnv) (archiveOk : Bool) (statErrno : Option ℤ)
    (path : CString) : Option OpenResult :=
  let r := pkgOpen s env path
  match r.handle with
  | none => none
  | some pkg =>
    let (s, pkgid) := dbPkgAdd r.registry statErrno
    match s.handle pkg with
    | none => none
    | some h =>
      if archiveOk then some ⟨s.setHandle pkg { h with pkgid := pkgid }, none, r.trace ++ [.commit]⟩
      else none

/-- `pkg_forget`: `db_pkg_remove` does nothing. -/
def pkgForget (_path : CString) : ℤ := 0

/-- The test of `pkg_gc`, with the time at which it is made. -/
def PkgHandle.expired (h : PkgHandle) (pkgLifetime now : ℤ) : Bool :=
  h.refcnt = 0 ∧ wrapTime (h.otime + pkgLifetime) < now

/-- The body of the loop of `pkg_gc`; `clock` is the time when it looks at each handle. -/
def pkgGcVisit (clock : Addr → ℤ) (s : Registry) (a : Addr) : Registry :=
  match s.handle a with
  | none => s
  | some p => if p.expired s.pkgLifetime (clock a) then pkgRelease s a else s

def pkgGc (s : Registry) (clock : Addr → ℤ) : Registry := s.pkgList.foldl (pkgGcVisit clock) s

end JailFs
