import JailFs.PkgOpen

/-!
# Files taken out of packages

`vfs_unpack_tempfile` tests whether the array `cache_path` is a null pointer, which it never is, so
it extracts nothing and only counts. `pkg_extract_file`, which it would call, opens a package under
the path of the entry: it looks at the id that it is given only to log it.
-/

namespace JailFs

/-- The answers of the system during one `pkg_extract_file`: those of its `pkg_open`, whether it can
open the archive itself, and its own `stat`. -/
structure ExtractEnv where
  openEnv : OpenEnv
  archiveOk : Bool
  statErrno : Option ℤ

/-- `pkg_extract_file` with both of its arguments: the registry it leaves, and the archive whose
headers it has read. -/
def pkgExtract (s : Registry) (env : ExtractEnv) (_pkgid : ℤ) (path : CString) :
    Option (Registry × Option CString) :=
  (pkgExtractFile s env.openEnv env.archiveOk env.statErrno path).map fun r =>
    (r.registry, some path)

namespace Registry

def Carries (s : Registry) (pkgid : ℤ) (name : CString) : Prop :=
  ∃ a ∈ s.pkgList, ∃ h, s.handle a = some h ∧ h.pkgid = pkgid ∧ h.name = some name

def Unchanged (s s' : Registry) : Prop :=
  ∀ a ∈ s.pkgList, ∀ h, s.handle a = some h →
    ∃ h', s'.handle a = some h' ∧ h'.pkgid = h.pkgid ∧ h'.refcnt = h.refcnt

end Registry

/-- What is expected of an extraction: it returns, it has read no archive but that of the package
with the id, and the packages are as they were. -/
def ExtractContract (s : Registry) (env : ExtractEnv) (pkgid : ℤ) (path : CString) : Prop :=
  ∃ s' archive, pkgExtract s env pkgid path = some (s', archive) ∧
    (∀ name, archive = some name → s.Carries pkgid name) ∧ s.Unchanged s'

section Extract

variable {s s' : Registry} {env : ExtractEnv} {pkgid : ℤ} {path : CString} {t : Addr}

theorem pkgExtract_eq_some {archive : Option CString}
    (h : pkgExtract s env pkgid path = some (s', archive)) :
    archive = some path ∧ ∃ t p, (pkgOpen s env.openEnv path).handle = some t ∧
      (dbPkgAdd (pkgOpen s env.openEnv path).registry env.statErrno).1.handle t = some p ∧
      s' = (dbPkgAdd (pkgOpen s env.openEnv path).registry env.statErrno).1.setHandle t
        { p with pkgid := (dbPkgAdd (pkgOpen s env.openEnv path).registry env.statErrno).2 } := by
  obtain ⟨r, hr, hpair⟩ := Option.map_eq_some_iff.mp h
  cases hpair
  refine ⟨rfl, ?_⟩
  rw [pkgExtractFile] at hr
  cases ht : (pkgOpen s env.openEnv path).handle with
  | none => simp [ht] at hr
  | some t =>
    simp only [ht] at hr
    split at hr
    · cases hr
    · rename_i p hp
      split_ifs at hr
      cases hr
      exact ⟨t, p, rfl, hp, rfl⟩

theorem handleByname_of_carries (h : s.Carries pkgid path) :
    ∃ t, pkgHandleByname s path = some t := by
  obtain ⟨a, ha, p, hp, -, hname⟩ := h
  refine Option.isSome_iff_exists.mp (List.find?_isSome.mpr ⟨a, ha, ?_⟩)
  simp [Registry.named, hp, hname]

theorem handle_of_byname (h : pkgHandleByname s path = some t) :
    t ∈ s.pkgList ∧ ∃ p, s.handle t = some p := by
  refine ⟨List.mem_of_find?_eq_some h, ?_⟩
  have hnamed := List.find?_some h
  cases hp : s.handle t with
  | none => simp [Registry.named, hp] at hnamed
  | some p => exact ⟨p, rfl⟩

theorem not_unchanged_of_listed (h : pkgHandleByname s path = some t) {archive : Option CString}
    (hret : pkgExtract s env pkgid path = some (s', archive)) : ¬ s.Unchanged s' := by
  intro hsame
  obtain ⟨hlisted, p, hp⟩ := handle_of_byname h
  obtain ⟨-, t', p', ht', hp', rfl⟩ := pkgExtract_eq_some hret
  rw [pkgOpen_listed h] at ht' hp' hsame
  cases ht'
  obtain ⟨gPkgid, hadd⟩ := dbPkgAdd_frame (s.touch t env.openEnv.now) env.statErrno
  have hcount : p'.refcnt = wrapInt (p.refcnt + 1) := by
    rw [hadd, Registry.touch_of_handle hp] at hp'
    have htouched := Registry.handle_setHandle_self.symm.trans hp'
    rw [← Option.some.inj htouched]
  obtain ⟨q, hq, -, hrefcnt⟩ := hsame t hlisted p hp
  rw [Registry.handle_setHandle_self, Option.some_inj] at hq
  rw [← hq] at hrefcnt
  exact wrapInt_add_one_ne _ (hcount.symm.trans hrefcnt)

/-- Whatever was registered before: either the path is the name of a listed package, which then
counts a reference too many, or it is not, and then its archive is not that of the id. -/
theorem not_extractContract (s : Registry) (env : ExtractEnv) (pkgid : ℤ) (path : CString) :
    ¬ ExtractContract s env pkgid path := by
  rintro ⟨s', archive, hret, hread, hsame⟩
  obtain ⟨harchive, -⟩ := pkgExtract_eq_some hret
  obtain ⟨t, ht⟩ := handleByname_of_carries (hread path harchive)
  exact not_unchanged_of_listed ht hret hsame

theorem pkgExtract_of_open_fails (h : (pkgOpen s env.openEnv path).handle = none) :
    pkgExtract s env pkgid path = none := by
  rw [pkgExtract, pkgExtractFile]
  simp [h]

end Extract

def importEnv : OpenEnv :=
  ⟨none, 0, 5, false, true, true,
    [.ok ⟨45, some (.ofChars ['f']), none, none, 0, 0, 0o644, 9⟩ 0], 0⟩

def missingEnv : ExtractEnv :=
  ⟨⟨some ENOENT, 1, -1, false, true, false, [], 0⟩, false, some ENOENT⟩

/-- The file of the one package that was opened is registered under its id, and asking for it
follows a null pointer. -/
theorem pkg_extract_null_handle :
    ∃ s e, s = (pkgOpen (pkgInit [] 0 60) importEnv (.ofChars ['p'])).registry ∧
      s.heapVfsCache = [e] ∧ e.path = .ofChars ['f'] ∧ s.Carries e.pkgid (.ofChars ['p']) ∧
      pkgExtract s missingEnv e.pkgid e.path = none ∧
      ¬ ExtractContract s missingEnv e.pkgid e.path := by
  have hnone (e : VfsCacheEntry) (he : e.path = .ofChars ['f']) :
      pkgExtract (pkgOpen (pkgInit [] 0 60) importEnv (.ofChars ['p'])).registry missingEnv e.pkgid
        e.path = none := by
    rw [he]
    exact pkgExtract_of_open_fails (by decide)
  refine ⟨_, _, rfl, rfl, rfl, ⟨0, by decide, _, rfl, rfl, rfl⟩, hnone _ rfl, ?_⟩
  rintro ⟨s', archive, hret, -⟩
  rw [hnone _ rfl] at hret
  cases hret

structure TempEntry extends VfsCacheEntry where
  cachePath : CString
  refcnt : UInt16

def VfsCacheEntry.fresh (e : VfsCacheEntry) : TempEntry := ⟨e, .ofChars [], 0⟩

/-- `fe->cache_path` as a pointer: the address of an array is not null. -/
def TempEntry.cachePathPtr (fe : TempEntry) : Option CString := some fe.cachePath

/-- `vfs_unpack_tempfile`; it does not come back if it copies from a null pointer. -/
def vfsUnpackTempfile (s : Registry) (env : ExtractEnv) (fe : Option TempEntry) :
    Option (Registry × Option TempEntry × ℤ) :=
  match fe with
  | none => some (s, none, -1)
  | some fe =>
    -- a positive `refcnt` is tested for, with an empty body
    match fe.cachePathPtr with
    | some _ => some (s, some { fe with refcnt := fe.refcnt + 1 }, 0)
    -- `pkg_extract_file` returns `NULL`, and `memcpy` reads from there
    | none => (pkgExtract s env fe.pkgid fe.path).bind fun _ => none

/-- An entry, the packages, and how many calls for the entry have returned `0`. -/
structure Unpacking where
  registry : Registry
  entry : TempEntry
  zeros : ℕ

namespace Unpacking

def start (s : Registry) (e : VfsCacheEntry) : Unpacking := ⟨s, e.fresh, 0⟩

def call (u : Unpacking) (env : ExtractEnv) : Option Unpacking :=
  match vfsUnpackTempfile u.registry env (some u.entry) with
  | some (s, some fe, r) => some ⟨s, fe, if r = 0 then u.zeros + 1 else u.zeros⟩
  | _ => none

end Unpacking

/-- The extracted copies, by their paths: which file of which package each was made from. -/
structure TempDir where
  copies : CString → Option (ℤ × CString)
  named : copies (.ofChars []) = none

/-- What is expected after the calls: each is counted, and if there was one, the file has a copy
that the entry names. -/
def Unpacking.Contract (dir : TempDir) (u : Unpacking) : Prop :=
  u.entry.refcnt.toNat = u.zeros ∧
    (0 < u.zeros → dir.copies u.entry.cachePath = some (u.entry.pkgid, u.entry.path))

namespace Unpacking

variable {s : Registry} {e : VfsCacheEntry} {calls : List ExtractEnv} {u v : Unpacking}

theorem calls_eq (u : Unpacking) (calls : List ExtractEnv) :
    calls.foldlM call u = some ⟨u.registry,
      { u.entry with refcnt := u.entry.refcnt + UInt16.ofNat calls.length },
      u.zeros + calls.length⟩ := by
  induction calls generalizing u with
  | nil => simp
  | cons env calls ih =>
    have hcall : u.call env =
        some ⟨u.registry, { u.entry with refcnt := u.entry.refcnt + 1 }, u.zeros + 1⟩ := rfl
    rw [List.foldlM_cons, hcall]
    refine (ih _).trans ?_
    simp only [List.length_cons, UInt16.ofNat_add, Nat.add_assoc, Nat.add_comm 1, UInt16.add_assoc]
    simp [UInt16.add_comm]

theorem start_eq (s : Registry) (e : VfsCacheEntry) (calls : List ExtractEnv) :
    calls.foldlM call (start s e) =
      some ⟨s, { e.fresh with refcnt := UInt16.ofNat calls.length }, calls.length⟩ := by
  rw [calls_eq, start]
  simp [VfsCacheEntry.fresh]

end Unpacking

/-- The count is right until it wraps around, and no call makes the copy that it reports. -/
theorem unpack_contract_iff (dir : TempDir) (s : Registry) (e : VfsCacheEntry)
    (calls : List ExtractEnv) :
    ∃ u, calls.foldlM Unpacking.call (.start s e) = some u ∧ u.zeros = calls.length ∧
      (u.entry.refcnt.toNat = u.zeros ↔ calls.length < 2 ^ 16) ∧
      (u.Contract dir ↔ calls = []) := by
  refine ⟨_, Unpacking.start_eq s e calls, rfl, ?_, ?_⟩
  · rw [UInt16.toNat_ofNat']
    exact Nat.mod_eq_iff_lt (by decide)
  · constructor
    · rintro ⟨-, hcopy⟩
      by_contra hne
      have hnamed := hcopy (List.length_pos_iff.mpr hne)
      rw [show e.fresh.cachePath = .ofChars [] from rfl, dir.named] at hnamed
      cases hnamed
    · rintro rfl
      exact ⟨rfl, fun h => absurd h (lt_irrefl 0)⟩

/-- One call returns `0` without a copy, and `65536` calls leave no reference behind. -/
theorem unpack_nothing_and_wrap :
    ∃ u v, [missingEnv].foldlM Unpacking.call (.start (pkgInit [] 0 60)
        ⟨.ofChars ['f'], 2, 9, .file, 0, 0, .ofChars [], .ofChars [], 0o644, 0⟩) = some u ∧
      u.zeros = 1 ∧ u.entry.cachePath = .ofChars [] ∧ ¬ u.Contract ⟨fun _ => none, rfl⟩ ∧
      (List.replicate (2 ^ 16) missingEnv).foldlM Unpacking.call (.start (pkgInit [] 0 60)
        ⟨.ofChars ['f'], 2, 9, .file, 0, 0, .ofChars [], .ofChars [], 0o644, 0⟩) = some v ∧
      v.zeros = 2 ^ 16 ∧ v.entry.refcnt = 0 ∧ ¬ v.Contract ⟨fun _ => none, rfl⟩ := by
  refine ⟨_, _, Unpacking.start_eq _ _ _, rfl, rfl, fun h => ?_, Unpacking.start_eq _ _ _, ?_, ?_,
    fun h => ?_⟩
  · exact Option.some_ne_none _ (h.2 Nat.one_pos).symm
  · exact List.length_replicate
  · rw [List.length_replicate]
    rfl
  · have hpos : 0 < (List.replicate (2 ^ 16) missingEnv).length := by
      rw [List.length_replicate]
      exact Nat.two_pow_pos 16
    exact Option.some_ne_none _ (h.2 hpos).symm

end JailFs
