import JailFs.BlockHeapRun
import JailFs.CString

/-!
# Mapping the file of a package

`pkg_map_file` takes an element of `heap_pkg_file`, opens the file and maps it, and where one of
these fails it hands the element to `pkg_unmap_file`. After a failed `mmap` it returns the element
all the same. What the elements hold is kept apart from the bytes of the heap.
-/

namespace JailFs

/-- The member `addr`: `NULL`, `MAP_FAILED` or an address. -/
inductive MapAddr
  | null
  | failed
  | mapped (a : ℕ)
  deriving DecidableEq

structure PkgFileMapping where
  pkg : Option ℕ
  len : ℕ
  offset : ℤ
  fd : ℤ
  addr : MapAddr
  deriving DecidableEq

def sizeofPkgFileMapping : ℕ := 40

def PkgFileMapping.zero : PkgFileMapping := ⟨none, 0, 0, 0, .null⟩

/-- `heap_pkg_file` with the elements handed out and what they hold, the strings from `strdup`, the
open descriptors, and the mappings, each with its descriptor, length and offset. -/
structure MapState where
  heap : BlockHeap
  out : List ℕ
  file : ℕ → PkgFileMapping
  strings : ℕ → Option CString
  fds : ℤ → Bool
  maps : ℕ → Option (ℤ × ℕ × ℤ)

/-- What the system answers in one `pkg_map_file`. -/
structure MapEnv where
  block : BlockEnv
  strdup : Option ℕ
  opened : Option ℕ
  mmap : Option ℕ

def pkgUnmapFile (s : MapState) (p : ℕ) : Except HeapError MapState :=
  let r := s.file p
  let maps :=
    match r.addr with
    | .mapped a => Function.update s.maps a none
    | _ => s.maps
  let strings :=
    match r.pkg with
    | some q => Function.update s.strings q none
    | none => s.strings
  let fds := if 0 < r.fd then Function.update s.fds r.fd false else s.fds
  match blockheapFree s.heap (some p) with
  | .error e => .error e
  | .ok (heap, _) => .ok
      { heap, out := s.out.erase p, file := Function.update s.file p .zero, strings, fds, maps }

/-- `str_dup`, and the string that is allocated. -/
def strDup (s : MapState) (env : MapEnv) (path : Option CString) : MapState × Option ℕ :=
  match path, env.strdup with
  | some path, some q => ({ s with strings := Function.update s.strings q (some path) }, some q)
  | _, _ => (s, none)

def pkgMapFile (s : MapState) (env : MapEnv) (path : Option CString) (len : ℕ) (offset : ℤ) :
    Except HeapError (MapState × Option ℕ) := do
  let (heap, p) ← blockheapAlloc s.heap env.block
  let (s, pkg) := strDup { s with heap, out := p :: s.out } env path
  let r : PkgFileMapping := { PkgFileMapping.zero with pkg, len, offset }
  -- `open(NULL)` fails
  match pkg, env.opened with
  | some _, some fd =>
    let s := { s with fds := Function.update s.fds fd true }
    match env.mmap with
    | none => do
      let r := { r with fd, addr := .failed }
      let s ← pkgUnmapFile { s with file := Function.update s.file p r } p
      .ok (s, some p)
    | some a =>
      .ok ({ s with
        file := Function.update s.file p { r with fd, addr := .mapped a }
        maps := Function.update s.maps a (some (fd, len, offset)) }, some p)
  | _, _ => do
    let s ← pkgUnmapFile { s with file := Function.update s.file p { r with fd := -1 } } p
    .ok (s, none)

/-- The elements of `heap_pkg_file` that are in use. -/
def MapState.used (s : MapState) : ℕ := (blockheapUsage s.heap).1

/-- What is asked of a call: `NULL` and as many elements in use as before, or an element that is
handed out, with an open descriptor and a mapping of the file, and which can be given back whenever
it still is handed out, after any other uses of the heap. -/
def MapContract (s : MapState) (len : ℕ) (offset : ℤ) : MapState × Option ℕ → Prop
  | (s', none) => s'.used = s.used
  | (s', some p) => p ∈ s'.out ∧ s'.used = s.used + 1 ∧ (s'.file p).len = len ∧
      s'.fds (s'.file p).fd = true ∧
      (∃ a, (s'.file p).addr = .mapped a ∧ s'.maps a = some ((s'.file p).fd, len, offset)) ∧
      ∀ (t : MapState) (calls : List HeapCall),
        Exec HeapStep ⟨s'.heap, s'.out⟩ calls ⟨t.heap, t.out⟩ → p ∈ t.out →
        ∃ u, pkgUnmapFile t p = .ok u ∧ p ∉ u.out ∧ u.used + 1 = t.used

def MapFails (env : MapEnv) (path : Option CString) : Prop :=
  path.isSome = true ∧ env.strdup.isSome = true ∧ env.opened.isSome = true ∧ env.mmap = none

section Contract

variable {s s' t : MapState} {env : MapEnv} {path : Option CString} {len p : ℕ} {offset : ℤ}
  {h : BlockHeap} {chain : List ℕ} {seq : BlockList → List ℕ} {calls : List HeapCall}

theorem pkgUnmapFile_spec (hinv : s.heap.Inv chain seq s.out) (hp : p ∈ s.out) :
    ∃ t, pkgUnmapFile s p = .ok t ∧ t.out = s.out.erase p ∧ t.used + 1 = s.used := by
  obtain ⟨h, seq', hfree, hinv', -⟩ := BlockHeap.blockheapFree_spec hinv hp
  unfold pkgUnmapFile
  rw [hfree]
  refine ⟨_, rfl, rfl, ?_⟩
  have hpos := List.length_pos_of_mem hp
  rw [MapState.used, MapState.used, hinv.used_eq, hinv'.used_eq, List.length_erase_of_mem hp]
  omega

theorem pkgUnmapFile_later (hinv : s.heap.Inv chain seq s.out)
    (hrun : Exec HeapStep ⟨s.heap, s.out⟩ calls ⟨t.heap, t.out⟩) (hp : p ∈ t.out) :
    ∃ u, pkgUnmapFile t p = .ok u ∧ p ∉ u.out ∧ u.used + 1 = t.used := by
  obtain ⟨chain', seq', hinv'⟩ := hrun.invariant
    (I := fun s => ∃ chain seq, s.heap.Inv chain seq s.out) ⟨chain, seq, hinv⟩
    fun _ _ _ ⟨_, _, hinv⟩ hstep => hstep.inv hinv
  obtain ⟨u, hfree, hout, hused⟩ := pkgUnmapFile_spec hinv' hp
  exact ⟨u, hfree, hout ▸ hinv'.nodup_out.not_mem_erase, hused⟩

/-- What a call does with the element it took: it gives it back and returns `NULL` or, if only
`mmap` failed, the element, or it returns the element with its members set. -/
theorem pkgMapFile_cases (path : Option CString) (len : ℕ) (offset : ℤ)
    (halloc : blockheapAlloc s.heap env.block = .ok (h, p)) :
    (¬ MapFails env path ∧ ∃ file strings, pkgMapFile s env path len offset =
      pkgUnmapFile ⟨h, p :: s.out, file, strings, s.fds, s.maps⟩ p >>= fun t => .ok (t, none)) ∨
    (MapFails env path ∧ ∃ file strings fds, pkgMapFile s env path len offset =
      pkgUnmapFile ⟨h, p :: s.out, file, strings, fds, s.maps⟩ p >>= fun t => .ok (t, some p)) ∨
    (¬ MapFails env path ∧ ∃ s', pkgMapFile s env path len offset = .ok (s', some p) ∧
      s'.heap = h ∧ s'.out = p :: s.out ∧ (s'.file p).len = len ∧
      s'.fds (s'.file p).fd = true ∧
      ∃ a, (s'.file p).addr = .mapped a ∧ s'.maps a = some ((s'.file p).fd, len, offset)) := by
  unfold pkgMapFile strDup MapFails
  rw [halloc]
  cases path with
  | none => exact .inl ⟨by simp, _, _, rfl⟩
  | some path =>
    cases env.strdup with
    | none => exact .inl ⟨by simp, _, _, rfl⟩
    | some q =>
      cases env.opened with
      | none => exact .inl ⟨by simp, _, _, rfl⟩
      | some fd =>
        cases env.mmap with
        | none => exact .inr (.inl ⟨by simp, _, _, _, rfl⟩)
        | some a =>
          refine .inr (.inr ⟨by simp, _, rfl, rfl, rfl, ?_⟩)
          simp

/-- A call keeps the contract exactly if it is not one that opens the file and cannot map it. -/
theorem pkgMapFile_contract (path : Option CString) (len : ℕ) (offset : ℤ)
    (hinv : s.heap.Inv chain seq s.out) (hvalid : env.block.Valid s.heap)
    (halloc : blockheapAlloc s.heap env.block = .ok (h, p)) :
    ∃ r, pkgMapFile s env path len offset = .ok r ∧
      (MapContract s len offset r ↔ ¬ MapFails env path) := by
  obtain ⟨hnew, ⟨chain', seq', hinv'⟩, -⟩ := BlockHeap.blockheapAlloc_ok hinv hvalid halloc
  have hused : s.used = s.out.length := hinv.used_eq
  -- the element is given back in whatever state it is
  have hback (file strings fds) : ∃ t,
      pkgUnmapFile ⟨h, p :: s.out, file, strings, fds, s.maps⟩ p = .ok t ∧ t.out = s.out ∧
        t.used = s.used := by
    let s' : MapState := ⟨h, p :: s.out, file, strings, fds, s.maps⟩
    obtain ⟨t, hfree, hout, hless⟩ := pkgUnmapFile_spec (s := s') hinv' List.mem_cons_self
    have hmore : s'.used = s.out.length + 1 := hinv'.used_eq
    exact ⟨t, hfree, hout.trans (List.erase_cons_head p s.out), by omega⟩
  rcases pkgMapFile_cases path len offset halloc with
    ⟨hcond, file, strings, hcall⟩ | ⟨hcond, file, strings, fds, hcall⟩ |
    ⟨hcond, s', hcall, hheap, hout, hlen, hfd, hmap⟩
  · obtain ⟨t, hfree, -, hsame⟩ := hback file strings s.fds
    refine ⟨(t, none), by rw [hcall, hfree]; rfl, ?_⟩
    exact iff_of_true hsame hcond
  · obtain ⟨t, hfree, hout, -⟩ := hback file strings fds
    refine ⟨(t, some p), by rw [hcall, hfree]; rfl, ?_⟩
    exact iff_of_false (fun hcontract => hnew (hout ▸ hcontract.1)) (not_not.mpr hcond)
  · refine ⟨(s', some p), hcall, iff_of_true ?_ hcond⟩
    have hinv₁ : s'.heap.Inv chain' seq' s'.out := by rwa [hheap, hout]
    refine ⟨hout ▸ List.mem_cons_self, ?_, hlen, hfd, hmap, fun t calls hrun hp => ?_⟩
    · rw [MapState.used, hinv₁.used_eq, hout, List.length_cons, hused]
    · exact pkgUnmapFile_later hinv₁ hrun hp

variable {n : ℤ} {mem h₀ : BlockHeap} {env₀ : BlockEnv}

/-- In every state that `heap_pkg_file` reaches, a call for which the heap has an element returns,
and it keeps the contract exactly if it is not one that opens the file and cannot map it. -/
theorem pkgMapFile_contract_iff (env : MapEnv) (path : Option CString) (len : ℕ) (offset : ℤ)
    (hcreate : blockheapCreate sizeofPkgFileMapping n mem env₀ = .ok h₀)
    (hrun : Exec HeapStep ⟨h₀, []⟩ calls ⟨s.heap, s.out⟩) (hvalid : env.block.Valid s.heap)
    (halloc : blockheapAlloc s.heap env.block = .ok (h, p)) :
    ∃ r, pkgMapFile s env path len offset = .ok r ∧
      (MapContract s len offset r ↔ ¬ MapFails env path) := by
  obtain ⟨chain, seq, hinv⟩ := run_inv hcreate hrun
  exact pkgMapFile_contract path len offset hinv hvalid halloc

/-- A heap of which nothing is handed out, and no file is open. -/
def firstMapState (h : BlockHeap) : MapState :=
  ⟨h, [], fun _ => .zero, fun _ => none, fun _ => false, fun _ => none⟩

/-- The file is opened with this descriptor, and mapped or not. -/
def openEnv (mmap : Option ℕ) : MapEnv := ⟨noEnv, some 1, some 3, mmap⟩

theorem firstMapState_alloc : ∃ h₀ h p,
    blockheapCreate sizeofPkgFileMapping 2 zeroMem firstEnv = .ok h₀ ∧
      blockheapAlloc h₀ noEnv = .ok (h, p) := ⟨_, _, _, rfl, rfl⟩

theorem pkgMapFile_contract_first : ∃ h₀ r,
    blockheapCreate sizeofPkgFileMapping 2 zeroMem firstEnv = .ok h₀ ∧
      pkgMapFile (firstMapState h₀) (openEnv (some 8192)) (some (.ofChars ['p'])) 10 0 = .ok r ∧
      (MapContract (firstMapState h₀) 10 0 r ↔
        ¬ MapFails (openEnv (some 8192)) (some (.ofChars ['p']))) := by
  obtain ⟨h₀, h, p, hcreate, halloc⟩ := firstMapState_alloc
  obtain ⟨r, hcall, hcontract⟩ := pkgMapFile_contract_iff (s := firstMapState h₀)
    (openEnv (some 8192)) (some (.ofChars ['p'])) 10 0 hcreate (.nil _) (noEnv_valid h₀) halloc
  exact ⟨h₀, r, hcreate, hcall, hcontract⟩

/-- The mapping fails on a heap of which nothing is handed out. -/
theorem pkgMapFile_returns_freed : ¬ ∀ (h₀ h : BlockHeap) (p : ℕ) (r : MapState × Option ℕ),
    blockheapCreate sizeofPkgFileMapping 2 zeroMem firstEnv = .ok h₀ →
    blockheapAlloc h₀ noEnv = .ok (h, p) →
    pkgMapFile (firstMapState h₀) (openEnv none) (some (.ofChars ['p'])) 10 0 = .ok r →
    MapContract (firstMapState h₀) 10 0 r := by
  intro hall
  obtain ⟨h₀, h, p, hcreate, halloc⟩ := firstMapState_alloc
  obtain ⟨chain, seq, hinv⟩ := BlockHeap.blockheapCreate_inv hcreate
  have hvalid : (openEnv none).block.Valid (firstMapState h₀).heap := noEnv_valid h₀
  obtain ⟨r, hcall, hcontract⟩ := pkgMapFile_contract (some (.ofChars ['p'])) 10 0 hinv hvalid
    halloc
  exact hcontract.mp (hall h₀ h p r hcreate halloc hcall) ⟨rfl, rfl, rfl, rfl⟩

end Contract

end JailFs
