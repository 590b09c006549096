import JailFs.Dict
import Mathlib.Data.List.AList

/-!
# The directory watches of `vfs.c`

`vfs_watch_list` leads to elements of `heap_vfs_watch`, each with the descriptor that inotify gave
for its directory. The path field has `PATH_MAX` bytes and is copied from a shorter string.
-/

namespace JailFs

def IN_CLOSE_WRITE : UInt32 := 0x8

def IN_MOVED_FROM : UInt32 := 0x40

def IN_MOVED_TO : UInt32 := 0x80

def IN_DELETE : UInt32 := 0x200

def IN_DELETE_SELF : UInt32 := 0x400

structure VfsWatch where
  mask : UInt32
  fd : Int32
  path : CString
  deriving DecidableEq

structure WatchState where
  heapVfsWatch : AList fun _ : Addr => VfsWatch
  vfsWatchList : List Addr

namespace WatchState

def watch (s : WatchState) (a : Addr) : Option VfsWatch := s.heapVfsWatch.lookup a

/-- `vfs_watch_findnode_byfd`: the first listed watch with this descriptor. -/
def findnodeByfd (s : WatchState) (fd : Int32) : Option (Addr × VfsWatch) :=
  s.vfsWatchList.findSome? fun a =>
    (s.watch a).bind fun w => if w.fd = fd then some (a, w) else none

end WatchState

/-- `vfs_watch_add`, with the element that `blockheap_alloc` hands out and the answer of
`inotify_add_watch`. -/
def vfsWatchAdd (s : WatchState) (elem : Addr) (wd : Int32) (path : CString) :
    WatchState × Option Addr :=
  let wh : VfsWatch :=
    ⟨IN_CLOSE_WRITE ||| IN_MOVED_TO ||| IN_MOVED_FROM ||| IN_DELETE ||| IN_DELETE_SELF, wd, path⟩
  if wd ≤ 0 then (s, none)
  else (⟨s.heapVfsWatch.insert elem wh, s.vfsWatchList ++ [elem]⟩, some elem)

/-- `vfs_watch_remove`; the answer of `inotify_rm_watch` is only logged. -/
def vfsWatchRemove (s : WatchState) (watch : Addr) : WatchState :=
  if watch ∈ s.vfsWatchList then
    ⟨s.heapVfsWatch.erase watch, s.vfsWatchList.erase watch⟩
  else s

end JailFs
