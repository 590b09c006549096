import JailFs.History
import JailFs.VfsCache
import Mathlib.Logic.Function.Basic

/-!
# The store of path entries

`vfs_add_path` and `vfs_find` are to be the two sides of one store: what was added is found, and
what is there already is not added again. `vfs_find` finds nothing, so the contract is kept only by
the histories that never ask for what is there (`vfs_contract_iff`).
-/

namespace JailFs

/-- The arguments of `vfs_add_path` where nothing is `NULL` and the package id is valid. -/
structure AddRequest where
  type : UInt8
  pkgid : ℤ
  path : CString
  uid : UInt32
  gid : UInt32
  owner : CString
  group : CString
  mode : UInt32
  size : UInt64
  ctime : ℤ
  pkgid_pos : 1 ≤ pkgid

namespace AddRequest

def apply (r : AddRequest) (cache : List VfsCacheEntry) : List VfsCacheEntry × ℤ :=
  vfsAddPath cache r.type r.pkgid (some r.path) r.uid r.gid (some r.owner) (some r.group) r.mode
    r.size r.ctime

/-- The entry has the attributes that were added. -/
def Matches (r : AddRequest) (fe : VfsCacheEntry) : Prop :=
  fe.pkgid = r.pkgid ∧ fe.type = ftypeOf r.type ∧ fe.owner = r.owner ∧ fe.mode = r.mode ∧
    fe.size = r.size

theorem apply_eq (r : AddRequest) (cache : List VfsCacheEntry) :
    ∃ fe, r.apply cache = (fe :: cache, 0) := by
  have hpos := r.pkgid_pos
  simp only [apply, vfsAddPath]
  rw [if_neg (by omega), if_neg (fun h => Bool.false_ne_true h.2)]
  exact ⟨_, rfl⟩

end AddRequest

inductive VfsCall
  | add (r : AddRequest)
  | find (path : CString)

/-- The entries in use, and for each path the latest request that returned 0. -/
structure VfsStore where
  cache : List VfsCacheEntry
  present : CString → Option AddRequest

def vfsStoreInit : VfsStore := ⟨[], fun _ => none⟩

namespace VfsCall

def next (s : VfsStore) : VfsCall → VfsStore
  | add r =>
    let (cache, rc) := r.apply s.cache
    ⟨cache, if rc = 0 then Function.update s.present r.path (some r) else s.present⟩
  | find _ => s

/-- What is asked of a call: a lookup answers with an entry for what is present and with `NULL` for
what is not, and only a directory is added to a path that is present. -/
def Good (s : VfsStore) : VfsCall → Prop
  | add r => r.type ≠ 100 → (s.present r.path).isSome → r.apply s.cache = (s.cache, -1)
  | find path =>
    match s.present path with
    | none => vfsFind s.cache path = none
    | some r => ∃ fe, vfsFind s.cache path = some fe ∧ r.Matches fe

/-- The call neither looks up a path that was added before nor adds one again, unless as a
directory. -/
def Fresh (pre : List VfsCall) : VfsCall → Prop
  | add r => r.type ≠ 100 → ∀ r', add r' ∈ pre → r'.path ≠ r.path
  | find path => ∀ r, add r ∈ pre → r.path ≠ path

end VfsCall

def VfsStep (s : VfsStore) (c : VfsCall) (t : VfsStore) : Prop := t = c.next s

/-- A path is present exactly if it was added. -/
def PresentIff (pre : List VfsCall) (s : VfsStore) : Prop :=
  ∀ path, s.present path ≠ none ↔ ∃ r, VfsCall.add r ∈ pre ∧ r.path = path

section Store

variable {pre : List VfsCall} {s : VfsStore}

theorem presentIff_init : PresentIff [] vfsStoreInit := fun path => by simp [vfsStoreInit]

theorem PresentIff.absent (h : PresentIff pre s) {path : CString} :
    s.present path = none ↔ ∀ r, VfsCall.add r ∈ pre → r.path ≠ path := by
  have hpath := not_congr (h path)
  rw [not_not] at hpath
  simpa using hpath

theorem PresentIff.next (h : PresentIff pre s) (c : VfsCall) :
    PresentIff (pre ++ [c]) (c.next s) := by
  intro path
  cases c with
  | add r =>
    obtain ⟨fe, hadd⟩ := r.apply_eq s.cache
    rw [VfsCall.next, hadd]
    dsimp only
    rw [if_pos rfl]
    by_cases hpath : path = r.path
    · rw [hpath, Function.update_self]
      exact iff_of_true (Option.some_ne_none r) ⟨r, by simp, rfl⟩
    · rw [Function.update_of_ne hpath, h path]
      constructor
      · rintro ⟨r', hmem, hr'⟩
        exact ⟨r', List.mem_append_left _ hmem, hr'⟩
      · rintro ⟨r', hmem, hr'⟩
        rcases List.mem_append.mp hmem with hmem | hmem
        · exact ⟨r', hmem, hr'⟩
        · cases List.mem_singleton.mp hmem
          exact absurd hr'.symm hpath
  | find p =>
    rw [VfsCall.next, h path]
    simp

theorem PresentIff.good_iff (h : PresentIff pre s) (c : VfsCall) : c.Good s ↔ c.Fresh pre := by
  cases c with
  | add r =>
    obtain ⟨fe, hadd⟩ := r.apply_eq s.cache
    rw [VfsCall.Good, VfsCall.Fresh, ← h.absent, hadd]
    refine forall_congr' fun _ => ?_
    rw [← Option.not_isSome_iff_eq_none]
    constructor
    · intro hgood hpresent
      have hrc := congrArg Prod.snd (hgood hpresent)
      cases hrc
    · intro habsent hpresent
      exact absurd hpresent habsent
  | find path =>
    rw [VfsCall.Good, VfsCall.Fresh, ← h.absent]
    cases s.present path with
    | none => exact iff_of_true rfl rfl
    | some r =>
      refine iff_of_false ?_ (Option.some_ne_none r)
      rintro ⟨fe, hfind, -⟩
      cases hfind

end Store

/-- The contract of the store is kept along exactly those histories that never look up a path that
was added, nor add it again unless as a directory. -/
theorem vfs_contract_iff (hist : List VfsCall) :
    Exec.Meets VfsStep vfsStoreInit (fun _ c s => c.Good s) hist ↔ Along VfsCall.Fresh hist := by
  refine Exec.meets_iff (R := PresentIff) presentIff_init ?_ (fun _ c s _ _ => ⟨c.next s, rfl⟩)
    fun _ c _ h => h.good_iff c
  rintro pre c s t h - rfl
  exact h.next c

section OneFile

def oneFile : AddRequest :=
  ⟨102, 1, .ofChars ['/', 'a'], 0, 0, .ofChars ['r'], .ofChars ['r'], 420, 1, 0, Int.le_refl 1⟩

/-- The file that was added is not found. -/
theorem vfs_contract_fails : ¬ Exec.Meets VfsStep vfsStoreInit (fun _ c s => c.Good s)
    [.add oneFile, .find (.ofChars ['/', 'a'])] := by
  intro h
  have hfind := h [.add oneFile] (.find (.ofChars ['/', 'a'])) [] rfl _ (Exec.single rfl)
  have hfresh := ((presentIff_init.next (.add oneFile)).good_iff _).mp hfind
  exact hfresh oneFile (List.mem_singleton_self _) rfl

end OneFile

end JailFs
