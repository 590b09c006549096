import JailFs.BlockHeapChain
import JailFs.Exec

/-!
# Runs of a block heap

A run starts from `blockheap_create` and consists of calls of `blockheap_alloc`, of
`blockheap_free` on elements that are handed out, of `blockheap_garbagecollect`, and of writes into
elements that are handed out. `alloc_safe` and `heap_counts` say what holds in every state
that such a run reaches.
-/

namespace JailFs

open DList DlinkMem

/-- A heap with the elements that are handed out. -/
structure HeapState where
  heap : BlockHeap
  out : List ℕ

inductive HeapCall
  | alloc (env : BlockEnv) (p : ℕ)
  | free (p : ℕ)
  | garbagecollect
  | write (p : ℕ) (v : ℕ → UInt8)

inductive HeapStep : HeapState → HeapCall → HeapState → Prop
  | alloc {h h' : BlockHeap} {out : List ℕ} {env : BlockEnv} {p : ℕ} (hvalid : env.Valid h)
      (hrun : blockheapAlloc h env = .ok (h', p)) :
      HeapStep ⟨h, out⟩ (.alloc env p) ⟨h', p :: out⟩
  | free {h h' : BlockHeap} {out : List ℕ} {p : ℕ} (hp : p ∈ out)
      (hrun : blockheapFree h (some p) = .ok (h', 0)) :
      HeapStep ⟨h, out⟩ (.free p) ⟨h', out.erase p⟩
  | garbagecollect {h h' : BlockHeap} {out : List ℕ} (hrun : blockheapGarbagecollect h = .ok h') :
      HeapStep ⟨h, out⟩ .garbagecollect ⟨h', out⟩
  | write {h : BlockHeap} {out : List ℕ} {p : ℕ} (hp : p ∈ out) (v : ℕ → UInt8) :
      HeapStep ⟨h, out⟩ (.write p v) ⟨h.fill p h.elemSize v, out⟩

namespace BlockHeap

variable {h h' : BlockHeap} {chain out : List ℕ} {seq : BlockList → List ℕ} {p : ℕ}
  {env : BlockEnv} {e : HeapError}

theorem initElems_error {b n offset : ℕ} (hrun : initElems b n offset h = .error e) :
    e = .fault := by
  induction n generalizing offset h with
  | zero => cases hrun
  | succ n ih =>
    rw [initElems] at hrun
    split_ifs at hrun with hfit
    · exact ih hrun
    · cases hrun
      rfl

theorem blockheapBlockNew_error (hrun : blockheapBlockNew h env = .error e) : e = .fault := by
  unfold blockheapBlockNew at hrun
  cases hblock : env.block with
  | none =>
    rw [hblock] at hrun
    cases hrun
  | some b =>
    rw [hblock] at hrun
    cases helems : env.elems with
    | none =>
      rw [helems] at hrun
      cases hrun
    | some region =>
      obtain ⟨p, len⟩ := region
      rw [helems] at hrun
      dsimp only at hrun
      cases hinit : initElems b (h.callocBlock b).elemsPerBlock p
          ((h.callocBlock b).mapBlock b p len) with
      | error e' =>
        rw [hinit] at hrun
        cases hrun
        exact initElems_error hinit
      | ok h₃ =>
        rw [hinit] at hrun
        cases hrun

/-- A call of `blockheap_alloc` that returns makes room, where it has to, and then takes an element
from the block that its walk stops at. -/
theorem blockheapAlloc_cases (hrun : blockheapAlloc h env = .ok (h', p)) : ∃ h₁ w,
    (h₁ = h ∨ blockheapBlockNew h env = .ok (h₁, false) ∨
      ∃ h₀, blockheapBlockNew h env = .ok (h₀, true) ∧ blockheapGarbagecollect h₀ = .ok h₁) ∧
    h₁.findFree (h₁.blocks.length + 1) h₁.base = .ok w ∧ h₁.take w = .ok (h', p) := by
  have hlast {h₁ : BlockHeap} (hrun : (h₁.findFree (h₁.blocks.length + 1) h₁.base >>= h₁.take) =
      .ok (h', p)) : ∃ w, h₁.findFree (h₁.blocks.length + 1) h₁.base = .ok w ∧
        h₁.take w = .ok (h', p) := by
    cases hfind : h₁.findFree (h₁.blocks.length + 1) h₁.base with
    | error e =>
      rw [hfind] at hrun
      cases hrun
    | ok w =>
      rw [hfind] at hrun
      exact ⟨w, rfl, hrun⟩
  unfold blockheapAlloc at hrun
  split_ifs at hrun
  · cases hnew : blockheapBlockNew h env with
    | error e =>
      rw [hnew] at hrun
      cases hrun
    | ok r =>
      obtain ⟨h₀, failed⟩ := r
      rw [hnew] at hrun
      cases failed with
      | false =>
        obtain ⟨w, hw⟩ := hlast hrun
        exact ⟨h₀, w, .inr (.inl rfl), hw⟩
      | true =>
        cases hgc : blockheapGarbagecollect h₀ with
        | error e =>
          simp [bind, Except.bind, hgc] at hrun
        | ok h₁ =>
          by_cases hnone : h₁.freeElems = 0
          · simp [bind, Except.bind, hgc, hnone] at hrun
          · simp only [bind, Except.bind, hgc, hnone, if_true, if_false] at hrun
            obtain ⟨w, hw⟩ := hlast hrun
            exact ⟨h₁, w, .inr (.inr ⟨h₀, rfl, hgc⟩), hw⟩
  · obtain ⟨w, hw⟩ := hlast hrun
    exact ⟨h, w, .inl rfl, hw⟩

/-- What `blockheap_alloc` can do: it fails for want of memory or at an element outside its region,
or it hands out a fresh, zeroed element. -/
def AllocOutcome (h : BlockHeap) (out : List ℕ) (r : Except HeapError (BlockHeap × ℕ)) : Prop :=
  r = .error .noMemory ∨ r = .error .fault ∨ ∃ h' p chain seq, r = .ok (h', p) ∧ p ∉ out ∧
    h'.Inv chain seq (p :: out) ∧ h'.elemSize = h.elemSize ∧ ∀ i < h.elemSize, h'.byte (p + i) = 0

theorem findFree_take (hinv : h.Inv chain seq out) (hfree : 0 < h.freeElems) :
    AllocOutcome h out (h.findFree (h.blocks.length + 1) h.base >>= h.take) := by
  obtain ⟨w, hw, hlen, hfind⟩ := hinv.findFree hfree
  rw [hfind]
  change AllocOutcome h out (h.take w)
  rcases take_spec hinv hw hlen with hfault | ⟨h', m, hok, hm, hinv', hsize, hzero⟩
  · exact .inr (.inl hfault)
  · exact .inr (.inr ⟨h', _, chain, _, hok, hinv.not_mem_out hm, hinv', hsize, hzero⟩)

theorem AllocOutcome.of_size {r : Except HeapError (BlockHeap × ℕ)} (ho : AllocOutcome h' out r)
    (hsize : h'.elemSize = h.elemSize) : AllocOutcome h out r := by
  unfold AllocOutcome at ho ⊢
  rwa [hsize] at ho

theorem blockheapAlloc_spec (hinv : h.Inv chain seq out) (hvalid : env.Valid h) :
    AllocOutcome h out (blockheapAlloc h env) := by
  unfold blockheapAlloc
  by_cases hzero : h.freeElems = 0
  · rw [if_pos hzero]
    cases hnew : blockheapBlockNew h env with
    | error e =>
      rw [blockheapBlockNew_error hnew]
      exact .inr (.inl rfl)
    | ok r =>
      obtain ⟨h₁, failed⟩ := r
      obtain ⟨hsize, hcase⟩ := blockheapBlockNew_spec hinv hvalid hnew
      rcases hcase with ⟨rfl, -, hinv₁⟩ | ⟨rfl, hfree, b, seq', hinv₁⟩
      · obtain ⟨h₂, chain₂, seq₂, hgc, hinv₂, hsize₂⟩ := blockheapGarbagecollect_spec hinv₁
        by_cases hnone : h₂.freeElems = 0
        · left
          simp [bind, Except.bind, hgc, hnone]
        · have ho := (findFree_take hinv₂ (Nat.pos_of_ne_zero hnone)).of_size
            (hsize₂.trans hsize)
          simpa [bind, Except.bind, hgc, hnone] using ho
      · exact (findFree_take hinv₁ hfree).of_size hsize
  · rw [if_neg hzero]
    exact findFree_take hinv (Nat.pos_of_ne_zero hzero)

theorem blockheapAlloc_ok (hinv : h.Inv chain seq out) (hvalid : env.Valid h)
    (hrun : blockheapAlloc h env = .ok (h', p)) :
    p ∉ out ∧ (∃ chain' seq', h'.Inv chain' seq' (p :: out)) ∧
      ∀ i < h.elemSize, h'.byte (p + i) = 0 := by
  rcases blockheapAlloc_spec hinv hvalid with
    herr | herr | ⟨h₁, q, chain', seq', hok, hnew, hinv', -, hzero⟩
  · rw [hrun] at herr
    cases herr
  · rw [hrun] at herr
    cases herr
  · rw [hrun] at hok
    cases hok
    exact ⟨hnew, ⟨chain', seq', hinv'⟩, hzero⟩

theorem Inv.used_eq (hinv : h.Inv chain seq out) : (blockheapUsage h).1 = out.length := by
  rw [blockheapUsage, ← hinv.freeElems_add_out, Nat.add_sub_cancel_left]

theorem Inv.nodup_out (hinv : h.Inv chain seq out) : out.Nodup := by
  have hused : (chain.flatMap fun b => seq (.used b)).Nodup := by
    rw [List.nodup_flatMap]
    refine ⟨fun b _ => hinv.shape.nodup _, hinv.nodup.imp fun hne => ?_⟩
    exact hinv.shape.disjoint _ _ fun heq => hne (BlockList.used.inj heq)
  exact hinv.out.nodup_iff.mpr (hused.map (add_left_injective sizeofMemBlock))

theorem inv_nil (hpos : 0 < h.elemsPerBlock) (hbase : h.base = none)
    (hallocated : h.blocksAllocated = 0) (hfree : h.freeElems = 0) :
    h.Inv [] (fun _ => []) [] where
  positive := hpos
  follows := hbase
  nodup := List.nodup_nil
  inUse := fun _ hb => absurd hb List.not_mem_nil
  shape := ⟨fun _ => trivial, fun _ hl => absurd hl List.not_mem_nil,
    fun _ hl => absurd hl List.not_mem_nil, fun _ hl => absurd hl List.not_mem_nil,
    fun _ _ => rfl, fun _ => List.nodup_nil, fun _ _ _ => List.disjoint_nil_left _⟩
  headers := fun _ hb => absurd hb List.not_mem_nil
  element := fun _ hb => absurd hb List.not_mem_nil
  mapped := fun _ hb => absurd hb List.not_mem_nil
  apart := fun _ hb => absurd hb List.not_mem_nil
  blocksAllocated := hallocated
  freeElems := hfree
  out := List.Perm.refl _
  fits := fun _ hb => absurd hb List.not_mem_nil

theorem zeroed_inv {elemSize elemsPerBlock : ℕ} (hpos : 0 < elemsPerBlock) (mem : BlockHeap) :
    (zeroed elemSize elemsPerBlock mem).Inv [] (fun _ => []) [] := inv_nil hpos rfl rfl rfl

theorem zeroed_valid {elemSize elemsPerBlock : ℕ} (mem : BlockHeap) (env : BlockEnv) :
    env.Valid (zeroed elemSize elemsPerBlock mem) where
  block := fun _ _ => List.not_mem_nil
  apart := by
    intro p len _ a len' ha
    cases ha

theorem blockheapCreate_inv {elemsize : ℕ} {elemsperblock : ℤ} {mem : BlockHeap}
    (hcreate : blockheapCreate elemsize elemsperblock mem env = .ok h) :
    ∃ chain seq, h.Inv chain seq [] := by
  unfold blockheapCreate at hcreate
  by_cases hidiotic : elemsize = 0 ∨ elemsperblock ≤ 0
  · rw [if_pos hidiotic] at hcreate
    cases hcreate
  · rw [if_neg hidiotic] at hcreate
    have hpos : 0 < elemsperblock.toNat := by omega
    dsimp only at hcreate
    generalize (if elemsize % sizeofVoidPtr ≠ 0 then _ else elemsize) = size at hcreate
    cases hnew : blockheapBlockNew (zeroed size elemsperblock.toNat mem) env with
    | error e =>
      rw [hnew] at hcreate
      cases hcreate
    | ok r =>
      obtain ⟨h', failed⟩ := r
      obtain ⟨-, hcase⟩ := blockheapBlockNew_spec (zeroed_inv hpos mem) (zeroed_valid mem env) hnew
      rw [hnew] at hcreate
      rcases hcase with ⟨rfl, -, -⟩ | ⟨rfl, -, b, seq, hinv⟩
      · cases hcreate
      · cases hcreate
        exact ⟨_, seq, hinv⟩

end BlockHeap

open BlockHeap

section Run

variable {elemsize : ℕ} {elemsperblock : ℤ} {mem h₀ : BlockHeap} {env₀ : BlockEnv}
  {calls : List HeapCall} {s t : HeapState} {c : HeapCall}

/-- One call keeps the invariant, for the elements handed out after it. -/
theorem HeapStep.inv {chain : List ℕ} {seq : BlockList → List ℕ} (hinv : s.heap.Inv chain seq s.out)
    (hstep : HeapStep s c t) : ∃ chain' seq', t.heap.Inv chain' seq' t.out := by
  cases hstep with
  | alloc hvalid hrun => exact (blockheapAlloc_ok hinv hvalid hrun).2.1
  | free hp hrun =>
    obtain ⟨h', seq', hok, hinv', -⟩ := blockheapFree_spec hinv hp
    rw [hrun] at hok
    cases hok
    exact ⟨chain, seq', hinv'⟩
  | garbagecollect hrun =>
    obtain ⟨h', chain', seq', hok, hinv', -⟩ := blockheapGarbagecollect_spec hinv
    rw [hrun] at hok
    cases hok
    exact ⟨chain', seq', hinv'⟩
  | write hp v =>
    obtain ⟨b, hb, m, hm, rfl⟩ := hinv.mem_out hp
    exact ⟨chain, seq, hinv.fill hb (hinv.mem_headers hb (.inr hm)) (hinv.fits b hb m hm) v⟩

theorem run_inv (hcreate : blockheapCreate elemsize elemsperblock mem env₀ = .ok h₀)
    (hrun : Exec HeapStep ⟨h₀, []⟩ calls s) : ∃ chain seq, s.heap.Inv chain seq s.out :=
  hrun.invariant (I := fun s => ∃ chain seq, s.heap.Inv chain seq s.out)
    (blockheapCreate_inv hcreate) fun _ _ _ ⟨_, _, hinv⟩ hstep => hstep.inv hinv

/-- In every state of a run, each element that is handed out lies in a mapped block of the chain,
an allocation hands out a zeroed element that is not handed out yet, and giving back and collecting
come to their ends. -/
theorem alloc_safe (hcreate : blockheapCreate elemsize elemsperblock mem env₀ = .ok h₀)
    (hrun : Exec HeapStep ⟨h₀, []⟩ calls s) :
    (∃ chain, Follows s.heap.next s.heap.base chain none ∧ ∀ p ∈ s.out, ∃ b ∈ chain, ∃ len,
      s.heap.mapped (s.heap.elems b) = some len ∧ s.heap.elems b ≤ p ∧
        p + s.heap.elemSize ≤ s.heap.elems b + len) ∧
    (∀ env h' p, env.Valid s.heap → blockheapAlloc s.heap env = .ok (h', p) →
      p ∉ s.out ∧ ∀ i < s.heap.elemSize, h'.byte (p + i) = 0) ∧
    (∀ p ∈ s.out, ∃ h', blockheapFree s.heap (some p) = .ok (h', 0)) ∧
    ∃ h', blockheapGarbagecollect s.heap = .ok h' := by
  obtain ⟨chain, seq, hinv⟩ := run_inv hcreate hrun
  refine ⟨⟨chain, hinv.follows, fun p hp => ?_⟩, fun env h' p hvalid halloc => ?_, fun p hp => ?_,
    ?_⟩
  · obtain ⟨b, hb, m, hm, rfl⟩ := hinv.mem_out hp
    exact ⟨b, hb, inRegion_iff.mp (hinv.fits b hb m hm)⟩
  · obtain ⟨hnew, -, hzero⟩ := blockheapAlloc_ok hinv hvalid halloc
    exact ⟨hnew, hzero⟩
  · obtain ⟨h', -, hok, -⟩ := blockheapFree_spec hinv hp
    exact ⟨h', hok⟩
  · obtain ⟨h', -, -, hok, -⟩ := blockheapGarbagecollect_spec hinv
    exact ⟨h', hok⟩

/-- In every state of a run the counters count what they are meant to, the walk of
`blockheap_alloc` finds a free element if there is one, and `blockheap_usage` reports the elements
that are handed out. -/
theorem heap_counts (hcreate : blockheapCreate elemsize elemsperblock mem env₀ = .ok h₀)
    (hrun : Exec HeapStep ⟨h₀, []⟩ calls s) :
    (∃ chain, Follows s.heap.next s.heap.base chain none ∧
      s.heap.freeElems = (chain.map fun b => s.heap.links.length (.free b)).sum ∧
      s.heap.blocksAllocated = chain.length ∧
      (∀ b ∈ chain, s.heap.links.length (.free b) + s.heap.links.length (.used b) =
        s.heap.elemsPerBlock) ∧
      (0 < s.heap.freeElems → ∃ w ∈ chain, 0 < s.heap.links.length (.free w) ∧
        s.heap.findFree (s.heap.blocks.length + 1) s.heap.base = .ok w)) ∧
    (∀ env, env.Valid s.heap → blockheapAlloc s.heap env ≠ .error .givingUp) ∧
    (blockheapUsage s.heap).1 = s.out.length := by
  obtain ⟨chain, seq, hinv⟩ := run_inv hcreate hrun
  have hsum : s.heap.freeElems = (chain.map fun b => s.heap.links.length (.free b)).sum := by
    rw [hinv.freeElems]
    exact congrArg List.sum (List.map_congr_left fun b hb => (hinv.length_free hb).symm)
  refine ⟨⟨chain, hinv.follows, hsum, hinv.blocksAllocated, fun b hb => ?_, hinv.findFree⟩,
    fun env hvalid => ?_, hinv.used_eq⟩
  · rw [hinv.length_free hb, hinv.shape.length (.used b) hb]
    exact hinv.length_add hb
  · rcases blockheapAlloc_spec hinv hvalid with herr | herr | ⟨h', p, -, -, hok, -⟩
    · rw [herr]
      exact fun heq => HeapError.noConfusion (Except.error.inj heq)
    · rw [herr]
      exact fun heq => HeapError.noConfusion (Except.error.inj heq)
    · rw [hok]
      exact fun heq => by cases heq

end Run

section Two

/-- Memory of zeros. -/
def zeroMem : BlockHeap :=
  ⟨0, 0, 0, 0, none, [], fun _ => none, fun _ => 0, fun _ => 0,
    ⟨fun _ => none, fun _ => none, fun _ => none, fun _ => none, fun _ => none, fun _ => 0⟩,
    fun _ => none, fun _ => 0, fun _ => none⟩

def firstEnv : BlockEnv := ⟨some 256, some (4096, 4096)⟩

def noEnv : BlockEnv := ⟨none, none⟩

theorem noEnv_valid (h : BlockHeap) : noEnv.Valid h where
  block := by
    intro b hb
    cases hb
  apart := by
    intro p len hp
    cases hp

/-- Both elements of a block are handed out, and the first one is written and given back. -/
def twoCalls : List HeapCall :=
  [] ++ [.alloc noEnv 4168] ++ [.alloc noEnv 4128] ++ [.write 4168 fun _ => 1] ++ [.free 4168]

theorem twoCalls_run : ∃ h₀ s, blockheapCreate 3 2 zeroMem firstEnv = .ok h₀ ∧
    Exec HeapStep ⟨h₀, []⟩ twoCalls s ∧ s.out = [4128] ∧ s.heap.freeElems = 1 :=
  ⟨_, _, rfl, ((((Exec.nil _).snoc (.alloc (noEnv_valid _) rfl)).snoc
    (.alloc (noEnv_valid _) rfl)).snoc (.write (by decide) _)).snoc (.free (by decide) rfl), rfl,
    rfl⟩

theorem alloc_safe_two : ∃ h₀ s, blockheapCreate 3 2 zeroMem firstEnv = .ok h₀ ∧
    Exec HeapStep ⟨h₀, []⟩ twoCalls s ∧ s.out = [4128] ∧
    (∃ chain, Follows s.heap.next s.heap.base chain none ∧ ∀ p ∈ s.out, ∃ b ∈ chain, ∃ len,
      s.heap.mapped (s.heap.elems b) = some len ∧ s.heap.elems b ≤ p ∧
        p + s.heap.elemSize ≤ s.heap.elems b + len) ∧
    ∃ h', blockheapFree s.heap (some 4128) = .ok (h', 0) := by
  obtain ⟨h₀, s, hcreate, hrun, hout, -⟩ := twoCalls_run
  obtain ⟨hmapped, -, hfree, -⟩ := alloc_safe hcreate hrun
  exact ⟨h₀, s, hcreate, hrun, hout, hmapped, hfree 4128 (hout ▸ List.mem_singleton_self _)⟩

theorem heap_counts_two : ∃ h₀ s, blockheapCreate 3 2 zeroMem firstEnv = .ok h₀ ∧
    Exec HeapStep ⟨h₀, []⟩ twoCalls s ∧ s.heap.freeElems = 1 ∧ (blockheapUsage s.heap).1 = 1 := by
  obtain ⟨h₀, s, hcreate, hrun, hout, hfree⟩ := twoCalls_run
  obtain ⟨-, -, hused⟩ := heap_counts hcreate hrun
  rw [hout] at hused
  exact ⟨h₀, s, hcreate, hrun, hfree, hused⟩

end Two

end JailFs
