import JailFs.CString

/-!
# The cache of archive entries

`vfs_add_path` takes an element of `heap_vfs_cache` for each archive entry and fills it in. The
pointer to the element is kept nowhere and `vfs_find` finds nothing, so what is left of the cache
is the collection of the elements in use.
-/

namespace JailFs

inductive PkgFtype
  | none
  | link
  | dir
  | file
  | fifo
  | block
  | dev
  deriving DecidableEq

/-- An element of `heap_vfs_cache`; the fields that `vfs_add_path` leaves zero are left out. -/
structure VfsCacheEntry where
  path : CString
  pkgid : ℤ
  size : UInt64
  type : PkgFtype
  uid : UInt32
  gid : UInt32
  owner : CString
  group : CString
  mode : UInt32
  ctime : ℤ
  deriving DecidableEq

/-- The attributes that libarchive gives for an entry. -/
structure ArchiveEntry where
  strmode : UInt8
  pathname : Option CString
  uname : Option CString
  gname : Option CString
  uid : UInt32
  gid : UInt32
  mode : UInt32
  size : UInt64
  deriving DecidableEq

/-- `memcpy` of all bytes but the last into a zeroed buffer; no source leaves it empty. -/
def copyField (size : ℕ) : Option CString → CString
  | none => .ofChars []
  | some s => s.take (size - 1)

def ftypeOf (type : UInt8) : PkgFtype :=
  if type = 100 then .dir
  else if type = 102 then .file
  else if type = 108 then .link
  else if type = 68 then .dev
  else if type = 70 then .fifo
  else .none

/-- The type letter that `pkg_open` reads off the mode string: `d`, `l` or `f`. -/
def entryType (strmode : UInt8) : UInt8 :=
  if strmode = 100 then 100 else if strmode = 108 then 108 else 102

def vfsFind (_cache : List VfsCacheEntry) (_path : CString) : Option VfsCacheEntry := none

def vfsAddPath (cache : List VfsCacheEntry) (type : UInt8) (pkgid : ℤ) (path : Option CString)
    (uid gid : UInt32) (owner group : Option CString) (mode : UInt32) (size : UInt64)
    (ctime : ℤ) : List VfsCacheEntry × ℤ :=
  if pkgid < 1 then (cache, -1)
  else match path with
  | none => (cache, -1)
  | some path =>
    if type ≠ 100 ∧ (vfsFind cache path).isSome then (cache, -1)
    else
      (⟨copyField PATH_MAX (some path), pkgid, size, ftypeOf type, uid, gid, copyField 32 owner,
        copyField 32 group, mode, ctime⟩ :: cache, 0)

end JailFs
