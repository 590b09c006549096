import JailFs.BlockHeaps
import Mathlib.Algebra.Order.BigOperators.Group.List
import Mathlib.Algebra.Order.Group.Nat

/-!
# Which regions a block heap has mapped

`blockheap_destroy` unmaps the regions of the chain and gives its blocks back. `Maps` says of a call
on the heap of a chain that whatever is mapped afterwards is in the chain that the call leaves, or
was mapped before and in none of its blocks. One lemma for each function says so.
-/

namespace JailFs

open DList DlinkMem

namespace BlockHeap

/-- The loop of `blockheap_destroy`; the `next` of a block that was given back is not there to be
read. -/
def destroyWalk : ℕ → Option ℕ → BlockHeap → Except HeapError BlockHeap
  | 0, _, _ => .error .endless
  | _ + 1, none, h => .ok h
  | fuel + 1, some walker, h =>
    if walker ∈ h.blocks then
      let next := h.next walker
      destroyWalk fuel next
        { h with
          mapped := Function.update h.mapped (h.elems walker) none
          blocks := h.blocks.erase walker }
    else .error .fault

end BlockHeap

/-- `blockheap_destroy`, up to the list of the heaps and the `BlockHeap` itself. -/
def blockheapDestroy (h : BlockHeap) : Except HeapError BlockHeap :=
  h.destroyWalk (h.blocks.length + 1) h.base

namespace BlockHeap

def without (h : BlockHeap) (l : List ℕ) : BlockHeap :=
  { h with
    mapped := fun p => if p ∈ l.map h.elems then none else h.mapped p
    blocks := h.blocks.diff l }

/-- The region of a block of the chain starts at `p`. -/
def Owns (h : BlockHeap) (chain : List ℕ) (p : ℕ) : Prop := ∃ b ∈ chain, h.elems b = p

/-- What is mapped afterwards is in `chain'`, or it was mapped already and not in `chain`. -/
def Maps (h : BlockHeap) (chain : List ℕ) (h' : BlockHeap) (chain' : List ℕ) : Prop :=
  ∀ p, h'.mapped p ≠ none → h'.Owns chain' p ∨ h.mapped p ≠ none ∧ ¬ h.Owns chain p

variable {h h' h'' : BlockHeap} {chain chain' chain'' bs out out' : List ℕ}
  {seq seq' : BlockList → List ℕ} {p w : ℕ} {env : BlockEnv}

section Destroy

theorem destroyWalk_eq {rest : List ℕ} {q : Option ℕ} {fuel : ℕ}
    (hl : Follows h.next q rest none) (hn : rest.Nodup) (huse : ∀ b ∈ rest, b ∈ h.blocks)
    (hfuel : rest.length < fuel) : destroyWalk fuel q h = .ok (h.without rest) := by
  induction rest generalizing h q fuel with
  | nil =>
    obtain rfl : q = none := hl
    cases fuel with
    | zero => cases hfuel
    | succ fuel => simp [destroyWalk, without]
  | cons w rest ih =>
    obtain ⟨rfl, hrest⟩ := hl
    rw [List.nodup_cons] at hn
    cases fuel with
    | zero => cases hfuel
    | succ fuel =>
      rw [destroyWalk, if_pos (huse w List.mem_cons_self)]
      have huse' : ∀ b ∈ rest, b ∈ h.blocks.erase w := fun b hb =>
        (List.mem_erase_of_ne (ne_of_mem_of_not_mem hb hn.1)).mpr
          (huse b (List.mem_cons_of_mem w hb))
      refine (@ih { h with
        mapped := Function.update h.mapped (h.elems w) none
        blocks := h.blocks.erase w } _ _ hrest hn.2 huse' (Nat.lt_of_succ_lt_succ hfuel)).trans ?_
      have hmapped : (fun p => if p ∈ rest.map h.elems then none
          else Function.update h.mapped (h.elems w) none p) =
          fun p => if p ∈ (w :: rest).map h.elems then none else h.mapped p := by
        funext p
        rw [List.map_cons]
        by_cases hp : p = h.elems w
        · rw [hp, Function.update_self, if_pos List.mem_cons_self, ite_self]
        · rw [Function.update_of_ne hp]
          simp only [List.mem_cons, hp, false_or]
      simp only [without, hmapped, List.diff_cons]

theorem Inv.destroy (hinv : h.Inv chain seq out) :
    blockheapDestroy h = .ok (h.without chain) :=
  destroyWalk_eq hinv.follows hinv.nodup hinv.inUse (Nat.lt_succ_of_le hinv.length_chain_le)

theorem Inv.without_keeps (hinv : h.Inv chain seq out) : h.Keeps chain (h.without chain) [] := by
  intro bs hbs
  have hu : h.Untouched (h.without chain) bs := by
    refine ⟨fun b hb => ?_, fun _ _ => rfl, fun _ _ => rfl, fun _ _ => rfl, fun b hb => ?_,
      Agrees.refl _ _ _, fun _ _ => rfl, fun _ _ => rfl⟩
    · exact List.mem_diff_of_mem (hbs.inUse b hb) fun hmem => hbs.disjoint hmem hb
    · refine if_neg fun hmem => ?_
      obtain ⟨w, hw, heq⟩ := List.mem_map.mp hmem
      exact hbs.elems_ne hinv hw hb heq.symm
  exact ⟨hu, hbs.of_untouched hu (List.disjoint_nil_left _) fun _ hb => absurd hb List.not_mem_nil⟩

theorem without_maps : h.Maps chain (h.without chain) [] := by
  intro p hp
  change (if p ∈ chain.map h.elems then none else h.mapped p) ≠ none at hp
  split_ifs at hp with hmem
  · exact absurd rfl hp
  · exact .inr ⟨hp, fun ⟨b, hb, heq⟩ => hmem (List.mem_map.mpr ⟨b, hb, heq⟩)⟩

end Destroy

section Maps

theorem Inv.chain_unique (hinv : h.Inv chain seq out) (hinv' : h.Inv chain' seq' out') :
    chain = chain' :=
  hinv.follows.unique hinv'.follows

theorem maps_of_same (helems : h'.elems = h.elems) (hmapped : h'.mapped = h.mapped) :
    h.Maps chain h' chain := by
  intro p hp
  rw [hmapped] at hp
  by_cases howns : h.Owns chain p
  · obtain ⟨b, hb, heq⟩ := howns
    exact .inl ⟨b, hb, (congrFun helems b).trans heq⟩
  · exact .inr ⟨hp, howns⟩

theorem Maps.trans (hm : h.Maps chain h' chain') (hm' : h'.Maps chain' h'' chain'') :
    h.Maps chain h'' chain'' := by
  intro p hp
  rcases hm' p hp with howns | ⟨hmapped, hfree⟩
  · exact .inl howns
  · rcases hm p hmapped with howns | hold
    · exact absurd howns hfree
    · exact .inr hold

/-- The links of the chain and the regions are the same in both. -/
structure SameChain (h h' : BlockHeap) : Prop where
  next : h'.next = h.next
  base : h'.base = h.base
  elems : h'.elems = h.elems
  mapped : h'.mapped = h.mapped

theorem SameChain.maps (hs : SameChain h h') (hinv : h.Inv chain seq out)
    (hinv' : h'.Inv chain' seq' out') : h.Maps chain h' chain' := by
  have hfollows := hinv'.follows
  rw [hs.next, hs.base] at hfollows
  rw [← hinv.follows.unique hfollows]
  exact maps_of_same hs.elems hs.mapped

theorem take_sameChain (hrun : h.take w = .ok (h', p)) : SameChain h h' := by
  unfold BlockHeap.take at hrun
  split at hrun
  · cases hrun
  · dsimp only at hrun
    split at hrun
    · cases hrun
    · split_ifs at hrun
      cases hrun
      exact ⟨rfl, rfl, rfl, rfl⟩

theorem blockheapFree_sameChain {r : ℕ} (hrun : blockheapFree h (some p) = .ok (h', r)) :
    SameChain h h' := by
  obtain ⟨block, -, rfl⟩ := blockheapFree_ok hrun
  exact ⟨rfl, rfl, rfl, rfl⟩

theorem Inv.garbagecollect_maps (hinv : h.Inv chain seq out)
    (hrun : blockheapGarbagecollect h = .ok h') (hinv' : h'.Inv chain' seq' out') :
    h.Maps chain h' chain' := by
  by_cases hidle : h.Idle
  · rw [blockheapGarbagecollect_idle hidle] at hrun
    cases hrun
    rw [hinv.chain_unique hinv']
    exact maps_of_same rfl rfl
  · obtain ⟨h₁, seq₁, hok, hinv₁, hc⟩ := blockheapGarbagecollect_busy hinv hidle
    rw [hrun] at hok
    cases hok
    rw [hinv'.chain_unique hinv₁]
    intro p hp
    rw [hc.mapped] at hp
    split_ifs at hp with hgone
    · exact absurd rfl hp
    · by_cases howns : h.Owns chain p
      · obtain ⟨b, hb, heq⟩ := howns
        refine .inl ⟨b, List.mem_filter.mpr ⟨hb, ?_⟩, (congrFun hc.elems b).trans heq⟩
        by_contra hfree
        rw [Bool.not_eq_true, Bool.not_eq_false'] at hfree
        exact hgone (List.mem_map.mpr ⟨b, List.mem_filter.mpr ⟨hb, hfree⟩, heq⟩)
      · exact .inr ⟨hp, howns⟩

/-- After a collection no block has all its elements free, or the heap has one block. -/
theorem Inv.tight_of_garbagecollect (hinv : h.Inv chain seq out)
    (hrun : blockheapGarbagecollect h = .ok h') (hinv' : h'.Inv chain' seq' out') :
    chain'.length = 1 ∨ ∀ b ∈ chain', h'.allFree b = false := by
  by_cases hidle : h.Idle
  · rw [blockheapGarbagecollect_idle hidle] at hrun
    cases hrun
    rw [← hinv.chain_unique hinv']
    rcases hidle with hfew | hone
    · refine .inr fun b hb => decide_eq_false fun hfull => ?_
      have hle : (seq (.free b)).length ≤ _ := List.le_sum_of_mem
        (List.mem_map_of_mem (f := fun b => (seq (.free b)).length) hb)
      rw [← hinv.freeElems, ← hinv.length_free hb, hfull] at hle
      omega
    · exact .inl (hinv.blocksAllocated.symm.trans hone)
  · obtain ⟨h₁, seq₁, hok, hinv₁, hc⟩ := blockheapGarbagecollect_busy hinv hidle
    rw [hrun] at hok
    cases hok
    rw [hinv'.chain_unique hinv₁]
    refine .inr fun b hb => ?_
    have hbusy : h.allFree b = false := by simpa using (List.mem_filter.mp hb).2
    rw [← hbusy, allFree, allFree, hc.links, hc.elemsPerBlock]

theorem Inv.blockNew_maps (hinv : h.Inv chain seq out) (hvalid : env.Valid h) {failed : Bool}
    (hrun : blockheapBlockNew h env = .ok (h', failed)) (hinv' : h'.Inv chain' seq' out') :
    h.Maps chain h' chain' := by
  have hnew {b : ℕ} (hblock : env.block = some b) : b ∉ chain := fun hmem =>
    hvalid.block b hblock (hinv.inUse b hmem)
  rcases blockheapBlockNew_cases hrun with ⟨-, rfl⟩ | ⟨b, hblock, -, rfl⟩ |
    ⟨b, p, len, h₃, hblock, helems, -, hinit, rfl⟩
  · rw [hinv.chain_unique hinv']
    exact maps_of_same rfl rfl
  · rw [← (hinv.callocBlock (hnew hblock)).chain_unique hinv']
    exact maps_of_same rfl rfl
  · have hb := hnew hblock
    have ht := hinv.threaded hvalid hb helems hinit
    rw [hinv'.chain_unique (hinv.grow hvalid hb helems hinit).2.2]
    intro q hq
    change h₃.mapped q ≠ none at hq
    rw [ht.mapped] at hq
    have helems' (b' : ℕ) : (h₃.linkBlock b).elems b' = Function.update h.elems b p b' :=
      congrFun ht.elems b'
    by_cases hqp : q = p
    · refine .inl ⟨b, List.mem_cons_self, ?_⟩
      rw [helems', Function.update_self, hqp]
    · rw [Function.update_of_ne hqp] at hq
      by_cases howns : h.Owns chain q
      · obtain ⟨b', hb', heq⟩ := howns
        refine .inl ⟨b', List.mem_cons_of_mem b hb', ?_⟩
        rw [helems', Function.update_of_ne (ne_of_mem_of_not_mem hb' hb), heq]
      · exact .inr ⟨hq, howns⟩

theorem Inv.alloc_maps (hinv : h.Inv chain seq out) (hvalid : env.Valid h)
    (hrun : blockheapAlloc h env = .ok (h', p)) (hinv' : h'.Inv chain' seq' out') :
    h.Maps chain h' chain' := by
  obtain ⟨h₁, w, hready, -, htake⟩ := blockheapAlloc_cases hrun
  obtain ⟨chain₁, seq₁, hinv₁, hmaps₁⟩ : ∃ chain₁ seq₁, h₁.Inv chain₁ seq₁ out ∧
      h.Maps chain h₁ chain₁ := by
    rcases hready with rfl | hnew | ⟨h₀, hnew, hgc⟩
    · exact ⟨chain, seq, hinv, maps_of_same rfl rfl⟩
    · obtain ⟨chain₁, seq₁, hinv₁, -⟩ := hinv.blockNew_keeps hvalid hnew
      exact ⟨chain₁, seq₁, hinv₁, hinv.blockNew_maps hvalid hnew hinv₁⟩
    · obtain ⟨chain₀, seq₀, hinv₀, -⟩ := hinv.blockNew_keeps hvalid hnew
      obtain ⟨chain₁, seq₁, hinv₁, -⟩ := hinv₀.garbagecollect_keeps hgc
      exact ⟨chain₁, seq₁, hinv₁,
        (hinv.blockNew_maps hvalid hnew hinv₀).trans (hinv₀.garbagecollect_maps hgc hinv₁)⟩
  exact hmaps₁.trans ((take_sameChain htake).maps hinv₁ hinv')

end Maps

end BlockHeap

theorem blockheapCreateIn_ok {mem : HeapMemory} {elemsize : ℕ} {elemsperblock : ℤ}
    {env : BlockEnv} {h : BlockHeap}
    (hrun : blockheapCreateIn elemsize elemsperblock mem env = .ok h) :
    ∃ d : HeapHeader, (mem.heap d).Inv [] (fun _ => []) [] ∧
      blockheapBlockNew (mem.heap d) env = .ok (h, false) := by
  unfold blockheapCreateIn at hrun
  by_cases hidiotic : elemsize = 0 ∨ elemsperblock ≤ 0
  · rw [if_pos hidiotic] at hrun
    cases hrun
  · rw [if_neg hidiotic] at hrun
    dsimp only at hrun
    generalize (if elemsize % sizeofVoidPtr ≠ 0 then _ else elemsize) = size at hrun
    refine ⟨⟨size, elemsperblock.toNat, 0, 0, none⟩,
      BlockHeap.inv_nil (by change 0 < elemsperblock.toNat; omega) rfl rfl rfl, ?_⟩
    cases hnew : blockheapBlockNew (mem.heap ⟨size, elemsperblock.toNat, 0, 0, none⟩) env with
    | error e =>
      rw [hnew] at hrun
      cases hrun
    | ok r =>
      obtain ⟨h', failed⟩ := r
      rw [hnew] at hrun
      cases failed with
      | true => cases hrun
      | false =>
        cases hrun
        rfl

theorem HeapStep.maps {s t : HeapState} {c : HeapCall} {chain chain' : List ℕ}
    {seq seq' : BlockList → List ℕ} (hinv : s.heap.Inv chain seq s.out) (hstep : HeapStep s c t)
    (hinv' : t.heap.Inv chain' seq' t.out) : s.heap.Maps chain t.heap chain' := by
  cases hstep with
  | alloc hvalid hrun => exact hinv.alloc_maps hvalid hrun hinv'
  | free hp hrun => exact (BlockHeap.blockheapFree_sameChain hrun).maps hinv hinv'
  | garbagecollect hrun => exact hinv.garbagecollect_maps hrun hinv'
  | write hp v => exact BlockHeap.SameChain.maps ⟨rfl, rfl, rfl, rfl⟩ hinv hinv'

end JailFs
