import JailFs.Fuel
import JailFs.Memory
import JailFs.PkgProcess
import JailFs.Watch

/-!
# Reading inotify events

An `InotifyBatch` is what one `read` of the inotify descriptor delivers: whole events, each a
header of four words and a name padded with NULs, as many as fit into the buffer. `evtLoop` is the
loop of `vfs_inotify_evt_get` over the bytes of the buffer, from an offset on. It does not advance
past an event whose name begins with a dot, so it takes a fuel, and its result carries the calls
made so far together with whether it has returned. It does not return either from a `pkg_open` that
waits for the database lock.
-/

namespace JailFs

open Memory

def FILENAME_MAX : ℕ := 4096

/-- `sizeof(struct inotify_event)` -/
def inotifyEventSize : ℕ := 16

def INOTIFY_BUFSIZE : ℕ := (inotifyEventSize + FILENAME_MAX) * 1024

/-- A name as the kernel delivers it: not empty, ended by at least one NUL. -/
structure EventName where
  str : CString
  pad : ℕ
  nonempty : str.bytes ≠ []
  pad_pos : 0 < pad
  deriving DecidableEq

structure InotifyEvent where
  wd : Int32
  mask : UInt32
  cookie : UInt32
  name : Option EventName
  deriving DecidableEq

namespace InotifyEvent

def nameField (e : InotifyEvent) : List UInt8 :=
  match e.name with
  | none => []
  | some name => name.str.bytes ++ List.replicate name.pad 0

def encode (e : InotifyEvent) : List UInt8 :=
  encode32 e.wd.toUInt32 ++ (encode32 e.mask ++ (encode32 e.cookie ++
    (encode32 (UInt32.ofNat e.nameField.length) ++ e.nameField)))

end InotifyEvent

def encodeEvents (events : List InotifyEvent) : List UInt8 := events.flatMap InotifyEvent.encode

structure InotifyBatch where
  events : List InotifyEvent
  fits : (encodeEvents events).length ≤ INOTIFY_BUFSIZE

namespace InotifyBatch

def bytes (b : InotifyBatch) : List UInt8 := encodeEvents b.events

/-- The buffer after the read. It was zeroed before; what lies beyond it is unknown. -/
def buf (b : InotifyBatch) (beyond : ℕ → UInt8) (i : ℕ) : UInt8 :=
  b.bytes.getD i (if i < INOTIFY_BUFSIZE then 0 else beyond i)

end InotifyBatch

/-- The calls by which an event is acted upon. -/
inductive VfsAction
  | pkgOpen (path : CString)
  | pkgForget (path : CString)
  | vfsWatchRemove (watch : Addr)
  deriving DecidableEq

/-- What comes of an event: the watches, the packages unless `pkg_open` waits for ever, and the
calls made. -/
structure Dispatched where
  state : WatchState
  process : Option PkgProcess
  calls : List VfsAction

/-- The three branches on the mask, with `path` as the loop has formed it. -/
def dispatch (s : WatchState) (p : PkgProcess) (watch : Addr) (mask : UInt32) (path : CString) :
    Dispatched :=
  if mask &&& IN_CLOSE_WRITE ≠ 0 ∨ mask &&& IN_MOVED_TO ≠ 0 then
    ⟨s, p.pkgOpen path, [.pkgOpen path]⟩
  else if mask &&& IN_DELETE ≠ 0 ∨ mask &&& IN_MOVED_FROM ≠ 0 then
    ⟨s, some p, [.pkgForget path]⟩
  else if mask &&& IN_DELETE_SELF ≠ 0 then
    ⟨vfsWatchRemove s watch, some p, [.vfsWatchRemove watch]⟩
  else ⟨s, some p, []⟩

structure EvtResult where
  state : WatchState
  trace : List VfsAction
  returned : Bool

/-- The string at `e->name`, which ends inside the buffer. -/
def eventName (mem : ℕ → UInt8) (i : ℕ) : CString :=
  ⟨cstring mem INOTIFY_BUFSIZE (i + inotifyEventSize), cstring_noNul _ _ _⟩

/-- `while (i < len)` -/
def evtLoop (mem : ℕ → UInt8) (len : ℕ) : ℕ → ℕ → WatchState → PkgProcess → EvtResult
  | 0, _, s, _ => ⟨s, [], false⟩
  | fuel + 1, i, s, p =>
    if i < len then
      -- `continue` skips the line that advances `i`
      if mem (i + inotifyEventSize) = dot then evtLoop mem len fuel i s p
      else
        match s.findnodeByfd (decode32 mem i).toInt32 with
        | none => ⟨s, [], true⟩
        | some (a, w) =>
          let elen := (decode32 mem (i + 12)).toNat
          if elen = 0 then ⟨s, [], true⟩
          else
            let r := dispatch s p a (decode32 mem (i + 4)) (snprintfPath w.path (eventName mem i))
            match r.process with
            | none => ⟨r.state, r.calls, false⟩
            | some p =>
              let next := evtLoop mem len fuel (i + (inotifyEventSize + elen)) r.state p
              ⟨next.state, r.calls ++ next.trace, next.returned⟩
    else ⟨s, [], true⟩

/-- `vfs_inotify_evt_get` on one batch. -/
def vfsInotifyEvtGet (s : WatchState) (p : PkgProcess) (b : InotifyBatch) (beyond : ℕ → UInt8)
    (fuel : ℕ) : EvtResult :=
  evtLoop (b.buf beyond) b.bytes.length fuel 0 s p

end JailFs
