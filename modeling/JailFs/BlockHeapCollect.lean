import JailFs.BlockHeapRun

/-!
# What the garbage collector takes out

The comment over `blockheap_garbagecollect` says that it removes the blocks that are completely
unallocated, and never the root of the heap. Its loop has no test for the root: once it runs, it
takes out every free block, so the root stays only while one of its elements is in use
(`collectContract_iff`).
-/

namespace JailFs

open DList DlinkMem

namespace HeapState

variable {s : HeapState} {b : ℕ}

/-- No element of the block is handed out, going by the `MemBlock`s of the elements that are. -/
def Unallocated (s : HeapState) (b : ℕ) : Prop :=
  ∀ p ∈ s.out, s.heap.owner (p - sizeofMemBlock) ≠ some b

instance (s : HeapState) (b : ℕ) : Decidable (s.Unallocated b) :=
  inferInstanceAs (Decidable (∀ p ∈ s.out, _ ≠ _))

/-- A block that is collected, as the comment has it. -/
def Garbage (s : HeapState) (b : ℕ) : Prop := s.heap.base ≠ some b ∧ s.Unallocated b

instance (s : HeapState) (b : ℕ) : Decidable (s.Garbage b) :=
  inferInstanceAs (Decidable (_ ∧ _))

/-- A heap after the garbage of `s` has been taken out of the chain and unmapped. -/
structure Collects (s : HeapState) (chain : List ℕ) (h' : BlockHeap) : Prop where
  follows : Follows h'.next h'.base (chain.filter fun b => ¬ s.Garbage b) none
  mapped : ∀ p, h'.mapped p =
    if ∃ b ∈ chain, s.Garbage b ∧ s.heap.elems b = p then none else s.heap.mapped p
  lists : h'.links = s.heap.links
  elements : h'.owner = s.heap.owner ∧ h'.byte = s.heap.byte

/-- What the comment promises: a collection ends, takes out the garbage, unless there could be none,
and leaves nothing for another one. -/
def CollectContract (s : HeapState) : Prop :=
  ∃ h' chain, blockheapGarbagecollect s.heap = .ok h' ∧
    Follows s.heap.next s.heap.base chain none ∧
    (if s.heap.Idle then h' = s.heap else s.Collects chain h') ∧
    blockheapGarbagecollect h' = .ok h'

variable {chain : List ℕ} {seq : BlockList → List ℕ}

/-- The collector finds out whether a block is in use by counting its free elements. -/
theorem unallocated_iff (hinv : s.heap.Inv chain seq s.out) (hb : b ∈ chain) :
    s.Unallocated b ↔ s.heap.allFree b = true := by
  have hadd := hinv.length_add hb
  rw [BlockHeap.allFree, decide_eq_true_eq, hinv.length_free hb]
  constructor
  · intro hun
    suffices hnil : seq (.used b) = [] by
      rw [hnil, List.length_nil, Nat.add_zero] at hadd
      exact hadd
    by_contra hne
    obtain ⟨m, hm⟩ := List.exists_mem_of_ne_nil _ hne
    have hout : m + sizeofMemBlock ∈ s.out :=
      hinv.out.mem_iff.mpr (List.mem_map_of_mem (List.mem_flatMap.mpr ⟨b, hb, hm⟩))
    apply hun _ hout
    rw [Nat.add_sub_cancel]
    exact (hinv.element b hb m (hinv.mem_headers hb (.inr hm))).2
  · intro hfull p hp howner
    obtain ⟨b', hb', m, hm, rfl⟩ := hinv.mem_out hp
    rw [Nat.add_sub_cancel, (hinv.element b' hb' m (hinv.mem_headers hb' (.inr hm))).2] at howner
    obtain rfl := Option.some.inj howner
    have hpos := List.length_pos_of_mem hm
    omega

end HeapState

namespace BlockHeap

variable {h : BlockHeap} {l : List ℕ} {last q : Option ℕ} {fuel : ℕ}

theorem gcWalk_unchanged (hl : Follows h.next q l none) (hfuel : l.length < fuel)
    (hbusy : ∀ b ∈ l, h.allFree b = false) : gcWalk fuel last q h = .ok h := by
  induction l generalizing last q fuel with
  | nil =>
    obtain rfl : q = none := hl
    cases fuel with
    | zero => cases hfuel
    | succ fuel => rfl
  | cons w l ih =>
    obtain ⟨rfl, hl⟩ := hl
    cases fuel with
    | zero => cases hfuel
    | succ fuel =>
      rw [gcWalk, if_neg (of_decide_eq_false (hbusy w List.mem_cons_self))]
      exact ih hl (Nat.lt_of_succ_lt_succ hfuel) fun b hb => hbusy b (List.mem_cons_of_mem w hb)

variable {chain out : List ℕ} {seq : BlockList → List ℕ}

theorem blockheapGarbagecollect_unchanged (hinv : h.Inv chain seq out)
    (hbusy : ∀ b ∈ chain, h.allFree b = false) : blockheapGarbagecollect h = .ok h := by
  by_cases hidle : h.Idle
  · exact blockheapGarbagecollect_idle hidle
  · rw [blockheapGarbagecollect_of_busy hidle]
    exact gcWalk_unchanged hinv.follows (Nat.lt_succ_of_le hinv.length_chain_le) hbusy

end BlockHeap

open BlockHeap

theorem HeapState.CollectContract.root {s : HeapState} {b : ℕ} {chain : List ℕ}
    {seq : BlockList → List ℕ} (hcontract : s.CollectContract)
    (hinv : s.heap.Inv chain seq s.out) (hbusy : ¬ s.heap.Idle) (hbase : s.heap.base = some b) :
    ¬ s.Unallocated b := by
  intro hun
  obtain ⟨h', chain', hgc, hchain', hdone, -⟩ := hcontract
  obtain rfl := hinv.follows.unique hchain'
  rw [if_neg hbusy] at hdone
  obtain ⟨h'', seq', hgc', hinv', -⟩ := blockheapGarbagecollect_busy hinv hbusy
  rw [hgc] at hgc'
  cases hgc'
  have hb : b ∈ chain := by
    have hstart := hinv.follows.start
    rw [hbase, Option.or_none] at hstart
    exact List.mem_of_head? hstart.symm
  have hkept : b ∈ chain.filter fun b => ¬ s.Garbage b :=
    List.mem_filter.mpr ⟨hb, decide_eq_true fun hg => hg.1 hbase⟩
  rw [hdone.follows.unique hinv'.follows, List.mem_filter,
    (HeapState.unallocated_iff hinv hb).mp hun] at hkept
  exact absurd hkept.2 (by decide)

section Run

variable {elemsize : ℕ} {elemsperblock : ℤ} {mem h₀ : BlockHeap} {env₀ : BlockEnv}
  {calls : List HeapCall} {s : HeapState}

/-- A collection does what the comment says unless it takes out the root: it has nothing to do, or
an element of the root is in use. -/
theorem collectContract_iff (hcreate : blockheapCreate elemsize elemsperblock mem env₀ = .ok h₀)
    (hrun : Exec HeapStep ⟨h₀, []⟩ calls s) :
    s.CollectContract ↔ s.heap.Idle ∨ ∀ b, s.heap.base = some b → ¬ s.Unallocated b := by
  obtain ⟨chain, seq, hinv⟩ := run_inv hcreate hrun
  constructor
  · intro hcontract
    by_cases hidle : s.heap.Idle
    · exact .inl hidle
    · exact .inr fun b hbase => hcontract.root hinv hidle hbase
  · intro hcond
    by_cases hidle : s.heap.Idle
    · have hgc := blockheapGarbagecollect_idle hidle
      refine ⟨s.heap, chain, hgc, hinv.follows, ?_, hgc⟩
      rw [if_pos hidle]
    · have hroot := hcond.resolve_left hidle
      obtain ⟨h', seq', hgc, hinv', hc⟩ := blockheapGarbagecollect_busy hinv hidle
      have hgarbage : ∀ b ∈ chain, (s.Garbage b ↔ s.heap.allFree b = true) := fun b hb => by
        rw [← HeapState.unallocated_iff hinv hb]
        exact ⟨And.right, fun hun => ⟨fun hbase => hroot b hbase hun, hun⟩⟩
      refine ⟨h', chain, hgc, hinv.follows, ?_, blockheapGarbagecollect_unchanged hinv' ?_⟩
      · rw [if_neg hidle]
        refine ⟨?_, fun p => ?_, hc.links, hc.owner, hc.byte⟩
        · have hsame : (chain.filter fun b => ¬ s.Garbage b) =
              chain.filter fun b => !s.heap.allFree b :=
            List.filter_congr fun b hb => by simp [hgarbage b hb]
          rw [hsame]
          exact hinv'.follows
        · rw [hc.mapped]
          refine if_congr ?_ rfl rfl
          simp only [List.mem_map, List.mem_filter, and_assoc]
          exact exists_congr fun b => and_congr_right fun hb => by rw [hgarbage b hb]
      · intro b hb
        have hfree := (List.mem_filter.mp hb).2
        rw [allFree, hc.links, hc.elemsPerBlock]
        simpa [allFree] using hfree

end Run

section TwoBlocks

def secondEnv : BlockEnv := ⟨some 512, some (8192, 4096)⟩

theorem secondEnv_valid {h : BlockHeap} (hblocks : h.blocks = [256])
    (hmapped : h.mapped = Function.update (fun _ => none) 4096 (some 4096)) :
    secondEnv.Valid h where
  block := by
    rintro b ⟨⟩
    rw [hblocks]
    decide
  apart := by
    rintro p len ⟨⟩ a len' ha
    rw [hmapped] at ha
    by_cases heq : a = 4096
    · subst heq
      cases ha
      omega
    · rw [Function.update_of_ne heq] at ha
      cases ha

def twoBlockCalls (p : ℕ) : List HeapCall :=
  [] ++ [.alloc noEnv 4128] ++ [.alloc secondEnv 8224] ++ [.free p]

/-- The element of the older block is given back, so the root stays. -/
theorem collectContract_iff_older : ∃ h₀ s, blockheapCreate 3 1 zeroMem firstEnv = .ok h₀ ∧
    Exec HeapStep ⟨h₀, []⟩ (twoBlockCalls 4128) s ∧ ¬ s.heap.Idle ∧ s.CollectContract := by
  obtain ⟨h₀, s, hcreate, hrun, hbusy, hroot⟩ : ∃ h₀ s,
      blockheapCreate 3 1 zeroMem firstEnv = .ok h₀ ∧
      Exec HeapStep ⟨h₀, []⟩ (twoBlockCalls 4128) s ∧ ¬ s.heap.Idle ∧
      ∀ b, s.heap.base = some b → ¬ s.Unallocated b := by
    refine ⟨_, _, rfl, (((Exec.nil _).snoc (.alloc (noEnv_valid _) rfl)).snoc
      (.alloc (secondEnv_valid rfl rfl) rfl)).snoc (.free (by decide) rfl), by decide, ?_⟩
    rintro b ⟨⟩
    decide
  exact ⟨h₀, s, hcreate, hrun, hbusy, (collectContract_iff hcreate hrun).mpr (.inr hroot)⟩

/-- The element of the root is given back, and the collector takes the root out. -/
theorem collector_removes_root : ¬ ∀ (elemsize : ℕ) (elemsperblock : ℤ) (mem h₀ : BlockHeap)
    (env₀ : BlockEnv) (calls : List HeapCall) (s : HeapState),
    blockheapCreate elemsize elemsperblock mem env₀ = .ok h₀ →
      Exec HeapStep ⟨h₀, []⟩ calls s → s.CollectContract := by
  intro hall
  obtain ⟨h₀, s, hcreate, hrun, hbusy, hroot⟩ : ∃ h₀ s,
      blockheapCreate 3 1 zeroMem firstEnv = .ok h₀ ∧
      Exec HeapStep ⟨h₀, []⟩ (twoBlockCalls 8224) s ∧ ¬ s.heap.Idle ∧
      ∃ b, s.heap.base = some b ∧ s.Unallocated b :=
    ⟨_, _, rfl, (((Exec.nil _).snoc (.alloc (noEnv_valid _) rfl)).snoc
      (.alloc (secondEnv_valid rfl rfl) rfl)).snoc (.free (by decide) rfl), by decide, 512, rfl,
      by decide⟩
  obtain ⟨b, hbase, hun⟩ := hroot
  obtain ⟨chain, seq, hinv⟩ := run_inv hcreate hrun
  exact (hall 3 1 zeroMem h₀ firstEnv _ s hcreate hrun).root hinv hbusy hbase hun

end TwoBlocks

end JailFs
