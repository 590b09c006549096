import JailFs.BlockHeap
import JailFs.DlinkOps
import Mathlib.Data.List.Flatten
import Mathlib.Data.List.Perm.Subperm
import Mathlib.Algebra.BigOperators.Group.List.Basic
import Mathlib.Algebra.GroupWithZero.Nat

/-!
# The invariant of a block heap

`BlockHeap.Inv h chain seq out` describes a heap whose chain is `chain`, whose lists are `seq`, and
of which the elements `out` are handed out. It says that the lists of a block share out its
`MemBlock`s, that each `MemBlock` leads to its element and its block, that the regions of the chain
keep apart, and what the counters count. One lemma for each function says that it keeps the
invariant.
-/

namespace JailFs

open DList DlinkMem

def BlockList.block : BlockList → ℕ
  | .free b => b
  | .used b => b

/-- The addresses of `n` neighbouring `MemBlock`s. -/
def memBlocks (stride : ℕ) : ℕ → ℕ → List ℕ
  | 0, _ => []
  | n + 1, offset => offset :: memBlocks stride n (offset + stride)

namespace BlockHeap

/-- The `MemBlock`s of a block. -/
def headers (h : BlockHeap) (b : ℕ) : List ℕ :=
  memBlocks h.stride h.elemsPerBlock (h.elems b)

structure Inv (h : BlockHeap) (chain : List ℕ) (seq : BlockList → List ℕ)
    (out : List ℕ) : Prop where
  positive : 0 < h.elemsPerBlock
  follows : Follows h.next h.base chain none
  nodup : chain.Nodup
  inUse : ∀ b ∈ chain, b ∈ h.blocks
  shape : h.links.Shape (fun list => list.block ∈ chain) seq
  headers : ∀ b ∈ chain, (seq (.free b) ++ seq (.used b)).Perm (h.headers b)
  element : ∀ b ∈ chain, ∀ m ∈ h.headers b,
    h.links.data m = some (m + sizeofMemBlock) ∧ h.owner m = some b
  mapped : ∀ b ∈ chain, ∀ m ∈ h.headers b, h.inRegion b m sizeofMemBlock = true
  apart : ∀ b ∈ chain, ∀ b' ∈ chain, b ≠ b' → ∀ p n q k, h.inRegion b p n = true →
    h.inRegion b' q k = true → p + n ≤ q ∨ q + k ≤ p
  blocksAllocated : h.blocksAllocated = chain.length
  freeElems : h.freeElems = (chain.map fun b => (seq (.free b)).length).sum
  out : out.Perm ((chain.flatMap fun b => seq (.used b)).map (· + sizeofMemBlock))
  fits : ∀ b ∈ chain, ∀ m ∈ seq (.used b),
    h.inRegion b (m + sizeofMemBlock) h.elemSize = true

end BlockHeap

section MemBlocks

variable {stride n : ℕ} {offset m m' : ℕ}

theorem mem_memBlocks : m ∈ memBlocks stride n offset ↔ ∃ i < n, m = offset + i * stride := by
  induction n generalizing offset with
  | zero => simp [memBlocks]
  | succ n ih =>
    rw [memBlocks, List.mem_cons, ih]
    constructor
    · rintro (rfl | ⟨i, hi, rfl⟩)
      · exact ⟨0, n.succ_pos, by simp⟩
      · exact ⟨i + 1, Nat.succ_lt_succ hi, by rw [Nat.add_mul]; omega⟩
    · rintro ⟨i, hi, rfl⟩
      cases i with
      | zero => exact Or.inl (by simp)
      | succ i => exact Or.inr ⟨i, Nat.lt_of_succ_lt_succ hi, by rw [Nat.add_mul]; omega⟩

theorem length_memBlocks : (memBlocks stride n offset).length = n := by
  induction n generalizing offset with
  | zero => rfl
  | succ n ih => rw [memBlocks, List.length_cons, ih]

theorem memBlocks_clear (hm : m ∈ memBlocks stride n offset)
    (hm' : m' ∈ memBlocks stride n offset) : m + stride ≤ m' ∨ m' ≤ m := by
  obtain ⟨i, -, rfl⟩ := mem_memBlocks.mp hm
  obtain ⟨j, -, rfl⟩ := mem_memBlocks.mp hm'
  by_cases hij : i < j
  · left
    have hle := Nat.mul_le_mul_right stride (Nat.succ_le_of_lt hij)
    rw [Nat.succ_mul] at hle
    omega
  · right
    have hle := Nat.mul_le_mul_right stride (Nat.le_of_not_lt hij)
    omega

end MemBlocks

section Chain

variable {α : Type} {l : List ℕ} {w : ℕ}

theorem sum_map_change {f f' : ℕ → ℕ} (hl : l.Nodup) (hw : w ∈ l)
    (hsame : ∀ b, b ≠ w → f' b = f b) : (l.map f').sum + f w = (l.map f).sum + f' w := by
  obtain ⟨before, after, hb, rfl, -⟩ := List.exists_erase_eq hw
  rw [List.nodup_middle, List.nodup_cons, List.mem_append, not_or] at hl
  have hbefore : before.map f' = before.map f :=
    List.map_congr_left fun b hb => hsame b (ne_of_mem_of_not_mem hb hl.1.1)
  have hafter : after.map f' = after.map f :=
    List.map_congr_left fun b hb => hsame b (ne_of_mem_of_not_mem hb hl.1.2)
  simp only [List.map_append, List.map_cons, List.sum_append, List.sum_cons, hbefore, hafter]
  omega

theorem flatMap_insert {f f' : ℕ → List α} {a : α} (hl : l.Nodup) (hw : w ∈ l)
    (hsame : ∀ b, b ≠ w → f' b = f b) (hnew : (f' w).Perm (a :: f w)) :
    (l.flatMap f').Perm (a :: l.flatMap f) := by
  obtain ⟨before, after, hb, rfl, -⟩ := List.exists_erase_eq hw
  rw [List.nodup_middle, List.nodup_cons, List.mem_append, not_or] at hl
  have hbefore : before.flatMap f' = before.flatMap f :=
    List.flatMap_congr fun b hb => hsame b (ne_of_mem_of_not_mem hb hl.1.1)
  have hafter : after.flatMap f' = after.flatMap f :=
    List.flatMap_congr fun b hb => hsame b (ne_of_mem_of_not_mem hb hl.1.2)
  rw [List.flatMap_append, List.flatMap_cons, List.flatMap_append, List.flatMap_cons, hbefore,
    hafter]
  calc before.flatMap f ++ (f' w ++ after.flatMap f)
      _ |>.Perm (before.flatMap f ++ (a :: f w ++ after.flatMap f)) :=
        (hnew.append_right _).append_left _
      _ |>.Perm (a :: (before.flatMap f ++ (f w ++ after.flatMap f))) := List.perm_middle

end Chain

namespace BlockHeap

variable {h h' : BlockHeap} {chain out : List ℕ} {seq : BlockList → List ℕ}
  {b b' m p w : ℕ} {env : BlockEnv}

theorem inRegion_iff {n : ℕ} : h.inRegion b p n = true ↔
    ∃ len, h.mapped (h.elems b) = some len ∧ h.elems b ≤ p ∧ p + n ≤ h.elems b + len := by
  unfold inRegion
  cases h.mapped (h.elems b) with
  | none => simp
  | some len => simp

theorem Inv.mem_headers (hinv : h.Inv chain seq out) (hb : b ∈ chain)
    (hm : m ∈ seq (.free b) ∨ m ∈ seq (.used b)) : m ∈ h.headers b :=
  (hinv.headers b hb).mem_iff.mp (List.mem_append.mpr hm)

theorem Inv.mem_headers_of_mem (hinv : h.Inv chain seq out) {list : BlockList}
    (hm : m ∈ seq list) : list.block ∈ chain ∧ m ∈ h.headers list.block := by
  have hlive : list.block ∈ chain := by
    by_contra hdead
    rw [hinv.shape.dead list hdead] at hm
    cases hm
  refine ⟨hlive, ?_⟩
  cases list with
  | free b => exact hinv.mem_headers hlive (Or.inl hm)
  | used b => exact hinv.mem_headers hlive (Or.inr hm)

theorem Inv.not_overlaps (hinv : h.Inv chain seq out) (hb : b ∈ chain) (hm : m ∈ h.headers b)
    (hfit : h.inRegion b (m + sizeofMemBlock) h.elemSize = true) {n : ℕ} (hn : n ≤ h.elemSize)
    (hb' : b' ∈ chain) {m' : ℕ} (hm' : m' ∈ h.headers b') :
    overlaps m' (m + sizeofMemBlock) n = false := by
  have hsep : m + sizeofMemBlock + h.elemSize ≤ m' ∨ m' + sizeofMemBlock ≤ m + sizeofMemBlock := by
    by_cases heq : b = b'
    · subst heq
      rcases memBlocks_clear hm hm' with hle | hle
      · left
        rw [stride] at hle
        omega
      · right
        omega
    · exact hinv.apart b hb b' hb' heq _ _ _ _ hfit (hinv.mapped b' hb' m' hm')
  rw [overlaps, Bool.and_eq_false_iff, decide_eq_false_iff_not, decide_eq_false_iff_not]
  omega

theorem fill_of_not_overlaps {n : ℕ} {v : ℕ → UInt8} (hm : overlaps m p n = false) :
    (h.fill p n v).links.data m = h.links.data m ∧ (h.fill p n v).links.next m = h.links.next m ∧
      (h.fill p n v).links.prev m = h.links.prev m ∧ (h.fill p n v).owner m = h.owner m := by
  simp [fill, hm]

/-- Writing into an element of the chain, or into the front of one, changes bytes only. -/
theorem Inv.fill_le (hinv : h.Inv chain seq out) (hb : b ∈ chain) (hm : m ∈ h.headers b)
    (hfit : h.inRegion b (m + sizeofMemBlock) h.elemSize = true) {n : ℕ} (hn : n ≤ h.elemSize)
    (v : ℕ → UInt8) : (h.fill (m + sizeofMemBlock) n v).Inv chain seq out := by
  have hkeep {b' m' : ℕ} (hb' : b' ∈ chain) (hm' : m' ∈ h.headers b') :=
    @fill_of_not_overlaps h m' _ _ v (hinv.not_overlaps hb hm hfit hn hb' hm')
  refine { hinv with shape := ?_, element := ?_ }
  · refine { hinv.shape with links := fun list => (hinv.shape.links list).congr ?_ ?_ }
    · intro a ha
      obtain ⟨hlive, hmem⟩ := hinv.mem_headers_of_mem ha
      exact (hkeep hlive hmem).2.1
    · intro a ha
      obtain ⟨hlive, hmem⟩ := hinv.mem_headers_of_mem ha
      exact (hkeep hlive hmem).2.2.1
  · intro b' hb' m' hm'
    obtain ⟨hdata, -, -, howner⟩ := hkeep hb' hm'
    rw [hdata, howner]
    exact hinv.element b' hb' m' hm'

theorem Inv.fill (hinv : h.Inv chain seq out) (hb : b ∈ chain) (hm : m ∈ h.headers b)
    (hfit : h.inRegion b (m + sizeofMemBlock) h.elemSize = true) (v : ℕ → UInt8) :
    (h.fill (m + sizeofMemBlock) h.elemSize v).Inv chain seq out :=
  hinv.fill_le hb hm hfit le_rfl v

section Move

/-- The lists of the chain after a `MemBlock` of `b` has moved from one of them to the other. -/
theorem Inv.headers_moved (hinv : h.Inv chain seq out) {old new : BlockList} (hne : old ≠ new)
    (hold : old.block = b) (hnew : new.block = b) (hm : m ∈ seq old) :
    ∀ b' ∈ chain, (moved seq m old new (.free b') ++ moved seq m old new (.used b')).Perm
      (h.headers b') := by
  intro b' hb'
  by_cases heq : b' = b
  · refine List.Perm.trans ?_ (hinv.headers b' hb')
    subst heq
    have herase := (List.perm_cons_erase hm).symm
    cases old <;> cases new <;> simp only [BlockList.block] at hold hnew <;> subst hold <;>
      subst hnew
    · exact absurd rfl hne
    · rw [moved_old hne, moved_new hne]
      exact List.perm_middle.trans (herase.append_right _)
    · rw [moved_old hne, moved_new hne]
      exact (List.perm_middle.symm).trans (herase.append_left _)
    · exact absurd rfl hne
  · have hother (list : BlockList) (hl : list.block = b') :
        moved seq m old new list = seq list := by
      apply moved_other
      · exact fun hcon => heq (by rw [← hl, hcon, hold])
      · exact fun hcon => heq (by rw [← hl, hcon, hnew])
    rw [hother (.free b') rfl, hother (.used b') rfl]
    exact hinv.headers b' hb'

variable (hinv : h.Inv chain seq out) (hb : b ∈ chain)

include hinv hb

/-- A `MemBlock` of `b` has moved from one list of its block to the other. -/
theorem Inv.move {old new : BlockList} (hne : old ≠ new) (hold : old.block = b)
    (hnew : new.block = b) (hm : m ∈ seq old)
    (hfit : h.inRegion b (m + sizeofMemBlock) h.elemSize = true) {n : ℕ} {out' : List ℕ}
    (hfree : n = (chain.map fun b' => (moved seq m old new (.free b')).length).sum)
    (hout : out'.Perm
      ((chain.flatMap fun b' => moved seq m old new (.used b')).map (· + sizeofMemBlock))) :
    ({ h with
      freeElems := n
      links := dlinkMove h.links (some m) (some old) (some new) } : BlockHeap).Inv chain
      (moved seq m old new) out' := by
  have hlive (list : BlockList) (hl : list.block = b) : list.block ∈ chain := hl ▸ hb
  obtain ⟨hshape, hdata⟩ := hinv.shape.move (hlive old hold) (hlive new hnew) hm
  refine { hinv with shape := hshape, headers := hinv.headers_moved hne hold hnew hm,
                     element := ?_, freeElems := hfree, out := hout, fits := ?_ }
  · intro b' hb' m' hm'
    rw [hdata]
    exact hinv.element b' hb' m' hm'
  · intro b' hb' m' hm'
    by_cases hto : .used b' = new
    · obtain rfl : b' = b := (congrArg BlockList.block hto).trans hnew
      rw [hto, moved_new hne, ← hto] at hm'
      rcases List.mem_cons.mp hm' with rfl | hm'
      · exact hfit
      · exact hinv.fits b' hb' m' hm'
    · by_cases hfrom : .used b' = old
      · rw [hfrom, moved_old hne, ← hfrom] at hm'
        exact hinv.fits b' hb' m' (List.mem_of_mem_erase hm')
      · rw [moved_other hfrom hto] at hm'
        exact hinv.fits b' hb' m' hm'

theorem Inv.take (hm : m ∈ seq (.free b))
    (hfit : h.inRegion b (m + sizeofMemBlock) h.elemSize = true) :
    ({ h with
      freeElems := h.freeElems - 1
      links := dlinkMove h.links (some m) (some (.free b)) (some (.used b)) } : BlockHeap).Inv chain
      (moved seq m (.free b) (.used b)) ((m + sizeofMemBlock) :: out) := by
  have hne : BlockList.free b ≠ .used b := BlockList.noConfusion
  refine hinv.move hb hne rfl rfl hm hfit ?_ ?_
  · have hsum := @sum_map_change chain b (fun b => (seq (.free b)).length)
      (fun b' => (moved seq m (.free b) (.used b) (.free b')).length) hinv.nodup hb (by
        intro b' hb'
        rw [moved_other (fun heq => hb' (BlockList.free.inj heq)) BlockList.noConfusion])
    rw [moved_old hne, List.length_erase_of_mem hm] at hsum
    have hpos := List.length_pos_of_mem hm
    rw [hinv.freeElems]
    omega
  · have hperm := @flatMap_insert ℕ chain b (fun b => seq (.used b))
      (fun b' => moved seq m (.free b) (.used b) (.used b')) m hinv.nodup hb (by
        intro b' hb'
        rw [moved_other BlockList.noConfusion fun heq => hb' (BlockList.used.inj heq)])
      (by rw [moved_new hne])
    exact (hinv.out.cons _).trans (hperm.map (· + sizeofMemBlock)).symm

theorem Inv.giveBack (hm : m ∈ seq (.used b)) :
    ({ h with
      freeElems := h.freeElems + 1
      links := dlinkMove h.links (some m) (some (.used b)) (some (.free b)) } : BlockHeap).Inv chain
      (moved seq m (.used b) (.free b)) (out.erase (m + sizeofMemBlock)) := by
  have hne : BlockList.used b ≠ .free b := BlockList.noConfusion
  refine hinv.move hb hne rfl rfl hm (hinv.fits b hb m hm) ?_ ?_
  · have hsum := @sum_map_change chain b (fun b => (seq (.free b)).length)
      (fun b' => (moved seq m (.used b) (.free b) (.free b')).length) hinv.nodup hb (by
        intro b' hb'
        rw [moved_other BlockList.noConfusion fun heq => hb' (BlockList.free.inj heq)])
    rw [moved_new hne, List.length_cons] at hsum
    rw [hinv.freeElems]
    omega
  · have hperm := @flatMap_insert ℕ chain b
      (fun b' => moved seq m (.used b) (.free b) (.used b')) (fun b => seq (.used b)) m hinv.nodup
      hb (by
        intro b' hb'
        rw [moved_other (fun heq => hb' (BlockList.used.inj heq)) BlockList.noConfusion])
      (by
        rw [moved_old hne]
        exact List.perm_cons_erase hm)
    have hout := hinv.out.trans (hperm.map (· + sizeofMemBlock))
    rw [List.map_cons] at hout
    exact List.cons_perm_iff_perm_erase.mp hout.symm |>.2.symm

end Move

section Calls

theorem Inv.not_mem_out (hinv : h.Inv chain seq out) (hm : m ∈ seq (.free b)) :
    m + sizeofMemBlock ∉ out := by
  intro hout
  obtain ⟨m', hm', heq⟩ := List.mem_map.mp (hinv.out.mem_iff.mp hout)
  obtain ⟨b', -, hused⟩ := List.mem_flatMap.mp hm'
  obtain rfl : m' = m := Nat.add_right_cancel heq
  exact hinv.shape.disjoint (.free b) (.used b') BlockList.noConfusion hm hused

theorem Inv.mem_out (hinv : h.Inv chain seq out) (hp : p ∈ out) :
    ∃ b ∈ chain, ∃ m ∈ seq (.used b), p = m + sizeofMemBlock := by
  obtain ⟨m, hm, heq⟩ := List.mem_map.mp (hinv.out.mem_iff.mp hp)
  obtain ⟨b, hb, hused⟩ := List.mem_flatMap.mp hm
  exact ⟨b, hb, m, hused, heq.symm⟩

theorem Inv.length_free (hinv : h.Inv chain seq out) (hb : b ∈ chain) :
    h.links.length (.free b) = (seq (.free b)).length := hinv.shape.length _ hb

theorem Inv.length_add (hinv : h.Inv chain seq out) (hb : b ∈ chain) :
    (seq (.free b)).length + (seq (.used b)).length = h.elemsPerBlock := by
  rw [← List.length_append, (hinv.headers b hb).length_eq]
  exact length_memBlocks

/-- The free elements and those handed out make up the blocks of the chain. -/
theorem Inv.freeElems_add_out (hinv : h.Inv chain seq out) :
    h.freeElems + out.length = h.blocksAllocated * h.elemsPerBlock := by
  have hout : out.length = (chain.map fun b => (seq (.used b)).length).sum := by
    rw [hinv.out.length_eq, List.length_map, List.length_flatMap]
  have hall : (chain.map fun b => (seq (.free b)).length + (seq (.used b)).length) =
      chain.map fun _ => h.elemsPerBlock := List.map_congr_left fun b hb => hinv.length_add hb
  rw [hinv.freeElems, hout, ← List.sum_map_add, hall, List.map_const', List.sum_replicate,
    hinv.blocksAllocated]
  rfl

/-- The first free element of a block is handed out, zeroed, unless it lies outside the region. -/
theorem take_spec (hinv : h.Inv chain seq out) (hw : w ∈ chain)
    (hfree : 0 < h.links.length (.free w)) :
    h.take w = .error .fault ∨ ∃ h' m, h.take w = .ok (h', m + sizeofMemBlock) ∧
      m ∈ seq (.free w) ∧
      h'.Inv chain (moved seq m (.free w) (.used w)) ((m + sizeofMemBlock) :: out) ∧
      h'.elemSize = h.elemSize ∧
      ∀ i < h.elemSize, h'.byte (m + sizeofMemBlock + i) = 0 := by
  rw [hinv.length_free hw] at hfree
  obtain ⟨m, rest, hseq⟩ := List.exists_cons_of_length_pos hfree
  have hmem : m ∈ seq (.free w) := by
    rw [hseq]
    exact List.mem_cons_self
  have hheader := hinv.mem_headers hw (Or.inl hmem)
  have hhead : h.links.head (.free w) = some m := by
    rw [hinv.shape.head (.free w) hw, hseq]
    rfl
  have hdata : (dlinkMove h.links (some m) (some (.free w)) (some (.used w))).data m =
      some (m + sizeofMemBlock) := by
    have hlive : (BlockList.free w).block ∈ chain ∧ (BlockList.used w).block ∈ chain := ⟨hw, hw⟩
    rw [(hinv.shape.move hlive.1 hlive.2 hmem).2]
    exact (hinv.element w hw m hheader).1
  by_cases hfit : h.inRegion w (m + sizeofMemBlock) h.elemSize = true
  · right
    have hmoved := hinv.take hw hmem hfit
    refine ⟨_, m, ?_, hmem, hmoved.fill hw hheader hfit fun _ => 0, rfl, fun i hi => ?_⟩
    · simp only [BlockHeap.take, hhead, hdata]
      exact if_pos hfit
    · simp only [BlockHeap.fill]
      exact if_pos ⟨Nat.le_add_right _ _, Nat.add_lt_add_left hi _⟩
  · left
    simp only [BlockHeap.take, hhead, hdata]
    exact if_neg hfit

/-- The walk of `blockheap_alloc` stops at the first block with a free element. -/
theorem findFree_eq {l : List ℕ} {q : Option ℕ} {fuel : ℕ} (hl : Follows h.next q l none)
    (hfuel : l.length < fuel) :
    h.findFree fuel q = match l.find? fun b => 0 < h.links.length (.free b) with
      | none => .error .givingUp
      | some b => .ok b := by
  induction l generalizing q fuel with
  | nil =>
    obtain rfl : q = none := hl
    cases fuel with
    | zero => cases hfuel
    | succ fuel => rfl
  | cons b l ih =>
    obtain ⟨rfl, hl⟩ := hl
    cases fuel with
    | zero => cases hfuel
    | succ fuel =>
      rw [findFree, List.find?_cons]
      by_cases hfree : 0 < h.links.length (.free b)
      · rw [if_pos hfree, decide_eq_true hfree]
      · rw [if_neg hfree, decide_eq_false hfree]
        exact ih hl (Nat.lt_of_succ_lt_succ hfuel)

theorem Inv.length_chain_le (hinv : h.Inv chain seq out) : chain.length ≤ h.blocks.length :=
  (List.subperm_of_subset hinv.nodup hinv.inUse).length_le

theorem Inv.findFree (hinv : h.Inv chain seq out) (hfree : 0 < h.freeElems) :
    ∃ w ∈ chain, 0 < h.links.length (.free w) ∧
      h.findFree (h.blocks.length + 1) h.base = .ok w := by
  rw [findFree_eq hinv.follows (Nat.lt_succ_of_le hinv.length_chain_le)]
  cases hfind : chain.find? fun b => 0 < h.links.length (.free b) with
  | some w =>
    have hw := List.find?_some hfind
    exact ⟨w, List.mem_of_find?_eq_some hfind, of_decide_eq_true hw, rfl⟩
  | none =>
    have hnone := List.find?_eq_none.mp hfind
    have hzero : (chain.map fun b => (seq (.free b)).length).sum = 0 := by
      apply List.sum_eq_zero
      intro n hn
      obtain ⟨b, hb, rfl⟩ := List.mem_map.mp hn
      have hnot := hnone b hb
      rw [decide_eq_true_eq, hinv.length_free hb] at hnot
      omega
    rw [hinv.freeElems, hzero] at hfree
    exact absurd hfree (Nat.lt_irrefl 0)

/-- A call for an element whose `MemBlock` leads to a block that it lies in. -/
theorem blockheapFree_eq (howner : h.owner m = some b)
    (hfit : h.inRegion b (m + sizeofMemBlock) h.elemSize = true)
    (howner' : (h.fill (m + sizeofMemBlock) h.elemSize fun _ => 0).owner m = some b) :
    blockheapFree h (some (m + sizeofMemBlock)) =
      .ok ({ h.fill (m + sizeofMemBlock) h.elemSize fun _ => 0 with
        freeElems := h.freeElems + 1
        links := dlinkMove (h.fill (m + sizeofMemBlock) h.elemSize fun _ => 0).links (some m)
          (some (.used b)) (some (.free b)) }, 0) := by
  simp only [blockheapFree, Nat.add_sub_cancel, howner, hfit, if_true, howner']
  rfl

theorem blockheapFree_spec (hinv : h.Inv chain seq out) (hp : p ∈ out) :
    ∃ h' seq', blockheapFree h (some p) = .ok (h', 0) ∧ h'.Inv chain seq' (out.erase p) ∧
      h'.elemSize = h.elemSize := by
  obtain ⟨b, hb, m, hm, rfl⟩ := hinv.mem_out hp
  have hheader := hinv.mem_headers hb (Or.inr hm)
  have hfit := hinv.fits b hb m hm
  have hfilled := hinv.fill hb hheader hfit fun _ => 0
  have howner := (hinv.element b hb m hheader).2
  have howner' := (hfilled.element b hb m hheader).2
  exact ⟨_, _, blockheapFree_eq howner hfit howner', hfilled.giveBack hb hm, rfl⟩

end Calls

end BlockHeap

end JailFs
