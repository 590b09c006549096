import JailFs.CString

/-!
# Two readers of `path.pkg`

`vfs_dir_walk` and `vfs_watch_init` copy the setting into a buffer and split it at `':'` and
newline. The copy takes `PATH_MAX` bytes, so a setting of `PATH_MAX` bytes or more runs on into
whatever follows the buffer on the stack.
-/

namespace JailFs

/-- The delimiters `":\n"`. -/
def pathDelim (c : UInt8) : Bool := c = colon || c = 10

/-- The string in the buffer after `memcpy(buf, setting, PATH_MAX)`. -/
def pathBuf (setting stack : CString) : CString :=
  if setting.length < PATH_MAX then setting else setting.take PATH_MAX ++ stack

/-- The paths that `vfs_dir_walk` hands to `vfs_dir_walk_recurse`. -/
def vfsDirWalk (setting stack : CString) : List CString := tokens pathDelim (pathBuf setting stack)

/-- The answer of `vfs_watch_init` and the paths it hands to `vfs_watch_add`, given the value of
`vfs_inotify_fd` and the answer of `inotify_init`. -/
def vfsWatchInit (vfsInotifyFd inotifyInit : ℤ) (setting stack : CString) : ℤ × List CString :=
  if vfsInotifyFd ≠ 0 then (-1, [])
  else if inotifyInit = -1 then (-2, [])
  else
    let buf := pathBuf setting stack
    -- the test is the wrong way round: a list with a colon is not split
    if colon ∉ buf.bytes then (0, tokens pathDelim buf) else (0, [buf])

section Paths

variable {inotifyInit : ℤ} {setting stack : CString}

theorem vfsWatchInit_paths (hinit : inotifyInit ≠ -1) (setting stack : CString) :
    (vfsWatchInit 0 inotifyInit setting stack).2 =
      if colon ∉ (pathBuf setting stack).bytes then tokens pathDelim (pathBuf setting stack)
      else [pathBuf setting stack] := by
  rw [vfsWatchInit, if_neg (by simp), if_neg hinit]
  dsimp only
  split_ifs <;> rfl

theorem colon_not_mem_of_vfsDirWalk {path : CString} (h : path ∈ vfsDirWalk setting stack) :
    colon ∉ path.bytes := by
  intro hc
  have hdelim := tokens_no_delim h colon hc
  simp [pathDelim] at hdelim

end Paths

/-- The watches and the walk agree on the directories, whatever is on the stack, exactly when the
setting is one name that fits into the buffer. -/
theorem vfsWatchInit_eq_vfsDirWalk_iff {inotifyInit : ℤ} (hinit : inotifyInit ≠ -1)
    (setting : CString) :
    (∀ stack stack' path, path ∈ (vfsWatchInit 0 inotifyInit setting stack).2 ↔
        path ∈ vfsDirWalk setting stack') ↔
      colon ∉ setting.bytes ∧ setting.length < PATH_MAX := by
  constructor
  · intro h
    have hno (stack : CString) : colon ∉ (pathBuf setting stack).bytes := by
      by_contra hc
      have hwatch : pathBuf setting stack ∈ (vfsWatchInit 0 inotifyInit setting stack).2 := by
        rw [vfsWatchInit_paths hinit, if_neg (not_not_intro hc)]
        exact List.mem_singleton_self _
      exact colon_not_mem_of_vfsDirWalk ((h stack stack _).mp hwatch) hc
    have hlen : setting.length < PATH_MAX := by
      by_contra hlong
      have hc := hno (.ofChars [':'])
      rw [pathBuf, if_neg hlong] at hc
      exact hc (List.mem_append_right _ (List.mem_singleton_self colon))
    have hc := hno (.ofChars [])
    rw [pathBuf, if_pos hlen] at hc
    exact ⟨hc, hlen⟩
  · rintro ⟨hc, hlen⟩ stack stack' path
    have hbuf (stack : CString) : pathBuf setting stack = setting := if_pos hlen
    rw [vfsWatchInit_paths hinit, vfsDirWalk, hbuf, hbuf, if_pos hc]

theorem vfsWatchInit_eq_vfsDirWalk_one :
    (∀ stack stack' path, path ∈ (vfsWatchInit 0 3 (.ofChars ['/', 'a']) stack).2 ↔
        path ∈ vfsDirWalk (.ofChars ['/', 'a']) stack') ↔
      colon ∉ (CString.ofChars ['/', 'a']).bytes ∧
        (CString.ofChars ['/', 'a']).length < PATH_MAX :=
  vfsWatchInit_eq_vfsDirWalk_iff (by decide) (.ofChars ['/', 'a'])

/-- For `/a:/b` the walk scans two directories and the watch is on a file named `/a:/b`. -/
theorem vfsWatchInit_does_not_split :
    (¬ ∀ stack stack' path,
        path ∈ (vfsWatchInit 0 3 (.ofChars ['/', 'a', ':', '/', 'b']) stack).2 ↔
          path ∈ vfsDirWalk (.ofChars ['/', 'a', ':', '/', 'b']) stack') ∧
      ∀ stack, (vfsWatchInit 0 3 (.ofChars ['/', 'a', ':', '/', 'b']) stack).2 =
          [.ofChars ['/', 'a', ':', '/', 'b']] ∧
        vfsDirWalk (.ofChars ['/', 'a', ':', '/', 'b']) stack =
          [.ofChars ['/', 'a'], .ofChars ['/', 'b']] := by
  have hboth (stack : CString) :
      (vfsWatchInit 0 3 (.ofChars ['/', 'a', ':', '/', 'b']) stack).2 =
          [.ofChars ['/', 'a', ':', '/', 'b']] ∧
        vfsDirWalk (.ofChars ['/', 'a', ':', '/', 'b']) stack =
          [.ofChars ['/', 'a'], .ofChars ['/', 'b']] := by
    constructor
    · rw [vfsWatchInit_paths (by decide)]
      rfl
    · rfl
  refine ⟨fun h => ?_, hboth⟩
  have hpath := (h (.ofChars []) (.ofChars []) (.ofChars ['/', 'a'])).mpr (by
    rw [(hboth _).2]
    exact List.mem_cons_self)
  rw [(hboth _).1] at hpath
  revert hpath
  decide

end JailFs
