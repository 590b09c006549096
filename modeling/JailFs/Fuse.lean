import JailFs.BlockHeapRun
import JailFs.CInt
import JailFs.CString

/-!
# The handlers of FUSE requests

`FuseRequest` lists the operations of `vfs_fuse_ops`. What a handler does to the outside is the
list of the replies it sends, in order. Most handlers send one error. `vfs_op_open` sends an error
because it looks nothing up, goes on, and sends its file handle too.
-/

namespace JailFs

def O_CREAT : UInt32 := 0x40

/-- The fields of `struct fuse_file_info` in use; `fh` holds a pointer. -/
structure FuseFileInfo where
  flags : UInt32
  fh : ℕ
  deriving DecidableEq

/-- The fields of `struct stat` in use. -/
structure FuseStat where
  st_ino : UInt64
  st_mode : UInt32
  st_size : ℤ
  st_uid : UInt32
  st_gid : UInt32
  deriving DecidableEq

inductive FuseReply
  | err (errno : ℤ)
  | attr (sb : FuseStat)
  | opened (fi : FuseFileInfo)
  deriving DecidableEq

/-- `sizeof(struct vfs_handle)` -/
def sizeofVfsHandle : ℕ := 4120

/-- The heaps that the handlers use. -/
structure VfsHeaps where
  heapVfsHandle : BlockHeap
  heapVfsInode : BlockHeap

/-- A request for an operation of `vfs_fuse_ops`, with the arguments of its handler. -/
inductive FuseRequest
  | lookup (parent : UInt64) (name : CString)
  | readlink (ino : UInt64)
  | openFile (ino : UInt64) (fi : FuseFileInfo)
  | release (ino : UInt64) (fi : FuseFileInfo)
  | read (ino size : UInt64) (off : ℤ) (fi : FuseFileInfo)
  | getattr (ino : UInt64) (fi : FuseFileInfo)
  | access (ino : UInt64) (mask : ℤ)
  | statfs (ino : UInt64)
  | opendir (ino : UInt64) (fi : FuseFileInfo)
  | readdir (ino size : UInt64) (off : ℤ) (fi : FuseFileInfo)
  | releasedir (ino : UInt64) (fi : FuseFileInfo)
  | create (ino : UInt64) (name : CString) (mode : UInt32) (fi : FuseFileInfo)
  | mknod (ino : UInt64) (name : CString) (mode : UInt32) (rdev : UInt64)
  | mkdir (ino : UInt64) (name : CString) (mode : UInt32)
  | symlink (link : CString) (parent : UInt64) (name : CString)
  | unlink (ino : UInt64) (name : CString)
  | rmdir (ino : UInt64) (name : CString)
  | rename (parent : UInt64) (name : CString) (newparent : UInt64) (newname : CString)
  | link (ino newparent : UInt64) (newname : CString)

/-- A handler that does nothing but to send an error. -/
def replyErr (errno : ℤ) : List FuseReply := [.err errno]

def vfsOpMknod : List FuseReply := replyErr EROFS

def vfsOpMkdir : List FuseReply := replyErr EROFS

def vfsOpSymlink : List FuseReply := replyErr EROFS

def vfsOpUnlink : List FuseReply := replyErr EROFS

def vfsOpRmdir : List FuseReply := replyErr EROFS

def vfsOpRename : List FuseReply := replyErr EROFS

def vfsOpLink : List FuseReply := replyErr EROFS

def vfsOpCreate : List FuseReply := replyErr EROFS

/-- The `struct stat` on the stack is read as it is found there. -/
def vfsOpGetattr (sb : FuseStat) : List FuseReply :=
  if sb.st_ino ≠ 0 then [.attr sb] else [.err ENOENT]

def vfsOpAccess : List FuseReply := replyErr 0

def vfsOpReadlink : List FuseReply := replyErr ENOSYS

def vfsOpOpendir : List FuseReply := replyErr ENOENT

def vfsOpReaddir : List FuseReply := replyErr ENOENT

def vfsOpReleasedir : List FuseReply := replyErr ENOENT

def vfsOpOpen (s : VfsHeaps) (env : BlockEnv) (fi : FuseFileInfo) :
    Except HeapError (VfsHeaps × List FuseReply) := do
  let (handles, fh) ← blockheapAlloc s.heapVfsHandle env
  let fi := { fi with fh := fh }
  -- the lookup is commented out, so `i` is always `NULL`
  let notFound := if fi.flags &&& O_CREAT = 0 then [.err ENOENT] else [.err EROFS]
  let (inodes, _) ← blockheapFree s.heapVfsInode none
  .ok (⟨handles, inodes⟩, notFound ++ [.opened fi])

def vfsOpRelease : List FuseReply := replyErr 0

def vfsOpRead : List FuseReply := replyErr EBADF

def vfsOpStatfs : List FuseReply := replyErr ENOSYS

def vfsOpLookup : List FuseReply := replyErr ENOENT

/-- `vfs_fuse_ops`: the heaps afterwards and the replies. `env` is what the system answers an
allocation, and `sb` what is found on the stack. -/
def vfsFuseOps (s : VfsHeaps) (env : BlockEnv) (sb : FuseStat) :
    FuseRequest → Except HeapError (VfsHeaps × List FuseReply)
  | .lookup .. => .ok (s, vfsOpLookup)
  | .readlink .. => .ok (s, vfsOpReadlink)
  | .openFile _ fi => vfsOpOpen s env fi
  | .release .. => .ok (s, vfsOpRelease)
  | .read .. => .ok (s, vfsOpRead)
  | .getattr .. => .ok (s, vfsOpGetattr sb)
  | .access .. => .ok (s, vfsOpAccess)
  | .statfs .. => .ok (s, vfsOpStatfs)
  | .opendir .. => .ok (s, vfsOpOpendir)
  | .readdir .. => .ok (s, vfsOpReaddir)
  | .releasedir .. => .ok (s, vfsOpReleasedir)
  | .create .. => .ok (s, vfsOpCreate)
  | .mknod .. => .ok (s, vfsOpMknod)
  | .mkdir .. => .ok (s, vfsOpMkdir)
  | .symlink .. => .ok (s, vfsOpSymlink)
  | .unlink .. => .ok (s, vfsOpUnlink)
  | .rmdir .. => .ok (s, vfsOpRmdir)
  | .rename .. => .ok (s, vfsOpRename)
  | .link .. => .ok (s, vfsOpLink)

def FuseRequest.isOpen : FuseRequest → Bool
  | openFile .. => true
  | _ => false

section Replies

variable {s t : VfsHeaps} {env : BlockEnv} {sb : FuseStat} {fi : FuseFileInfo}
  {req : FuseRequest} {replies : List FuseReply}

/-- A handler that returns from an open has allocated a handle, and has sent two replies, the first
of them an error. -/
theorem vfsOpOpen_ok (h : vfsOpOpen s env fi = .ok (t, replies)) :
    ∃ handles fh errno, blockheapAlloc s.heapVfsHandle env = .ok (handles, fh) ∧
      t = { s with heapVfsHandle := handles } ∧
      replies = [.err errno, .opened { fi with fh := fh }] := by
  rw [vfsOpOpen] at h
  cases halloc : blockheapAlloc s.heapVfsHandle env with
  | error e =>
    rw [halloc] at h
    cases h
  | ok r =>
    obtain ⟨handles, fh⟩ := r
    rw [halloc] at h
    by_cases hcreat : fi.flags &&& O_CREAT = 0
    · simp only [bind, Except.bind, blockheapFree, if_pos hcreat] at h
      cases h
      exact ⟨handles, fh, ENOENT, rfl, rfl, rfl⟩
    · simp only [bind, Except.bind, blockheapFree, if_neg hcreat] at h
      cases h
      exact ⟨handles, fh, EROFS, rfl, rfl, rfl⟩

theorem vfsFuseOps_of_not_open (hreq : req.isOpen = false) :
    ∃ reply, vfsFuseOps s env sb req = .ok (s, [reply]) := by
  cases req with
  | openFile ino fi => cases hreq
  | getattr ino fi =>
    rw [vfsFuseOps, vfsOpGetattr]
    split_ifs
    · exact ⟨.attr sb, rfl⟩
    · exact ⟨.err ENOENT, rfl⟩
  | _ => exact ⟨_, rfl⟩

end Replies

/-- A request gets exactly one reply, before its handler returns, if and only if it is not an open,
whatever the heaps and the stack hold. -/
theorem fuse_one_reply_iff (s : VfsHeaps) (env : BlockEnv) (sb : FuseStat) (req : FuseRequest) :
    (∃ t reply, vfsFuseOps s env sb req = .ok (t, [reply])) ↔ req.isOpen = false := by
  constructor
  · rintro ⟨t, reply, h⟩
    cases req with
    | openFile ino fi =>
      obtain ⟨handles, fh, errno, -, -, hreplies⟩ := vfsOpOpen_ok h
      cases hreplies
    | _ => rfl
  · intro hreq
    obtain ⟨reply, h⟩ := vfsFuseOps_of_not_open hreq
    exact ⟨s, reply, h⟩

section FirstOpen

def handleEnv : BlockEnv := ⟨some 256, some (4096, 12288)⟩

/-- The first open of all is answered with an error and with a file handle. -/
theorem open_replies_twice : ∃ handles t,
    blockheapCreate sizeofVfsHandle 1 zeroMem handleEnv = .ok handles ∧
      vfsFuseOps ⟨handles, zeroMem⟩ noEnv ⟨0, 0, 0, 0, 0⟩ (.openFile 2 ⟨0, 0⟩) =
        .ok (t, [.err ENOENT, .opened ⟨0, 4128⟩]) :=
  ⟨_, _, rfl, rfl⟩

end FirstOpen

end JailFs
