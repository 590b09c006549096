import JailFs.BlockHeapRun
import Mathlib.Order.Bounds.Basic

/-!
# How a block is carved into elements

`blockheap_create` rounds the size of an element up to the size of a pointer, and
`blockheap_block_new` cuts a mapping into `MemBlock`s, each in front of its element. `create_layout`
says that the elements keep apart, that they are aligned and inside the size of the mapping, and
that `blockheap_free` finds the way back from an element to its `MemBlock`.
-/

namespace JailFs

open DList DlinkMem

/-- What `blockheap_block_new` is given: a `Block` at `b`, and `size` bytes or more at `p`, where a
page starts. -/
structure BlockEnv.Maps (env : BlockEnv) (size b p : ℕ) : Prop where
  block : env.block = some b
  elems : ∃ len, env.elems = some (p, len) ∧ size ≤ len
  page : 4096 ∣ p

/-- `blockheap_free` takes the `MemBlock` at `m` for that of the element at `ptr`. -/
def FreesHeader (m ptr : ℕ) : Prop :=
  ∀ (h h' : BlockHeap) (r : ℕ), blockheapFree h (some ptr) = .ok (h', r) →
    ∃ block, h'.links = dlinkMove (h.fill ptr h.elemSize fun _ => 0).links (some m)
      (some (.used block)) (some (.free block))

namespace BlockHeap

/-- The block at `b` has been carved into `n` elements of `size` bytes, whose `MemBlock`s are on its
free list in the order `l`. -/
structure Carved (h : BlockHeap) (b n size : ℕ) (l : List ℕ) : Prop where
  allocSize : h.allocSize b = (n + 1) * (size + sizeofMemBlock)
  mapped : ∃ len, h.mapped (h.elems b) = some len ∧ h.allocSize b ≤ len
  free : h.links.Describes (.free b) l
  once : l.Nodup
  all : ∀ m, m ∈ l ↔ ∃ i < n, m = h.elems b + i * (size + sizeofMemBlock)
  count : l.length = n
  apart : ∀ m ∈ l, ∀ m' ∈ l, m ≠ m' →
    m + (sizeofMemBlock + size) ≤ m' ∨ m' + (sizeofMemBlock + size) ≤ m
  aligned : ∀ m ∈ l, sizeofVoidPtr ∣ m ∧ sizeofVoidPtr ∣ m + sizeofMemBlock
  inside : ∀ m ∈ l, h.elems b ≤ m ∧
    m + (sizeofMemBlock + size) ≤ h.elems b + h.allocSize b
  element : ∀ m ∈ l, h.links.data m = some (m + sizeofMemBlock) ∧ h.owner m = some b
  header : ∀ m ∈ l, FreesHeader m (m + sizeofMemBlock)

variable {h h' : BlockHeap} {chain out l : List ℕ} {seq : BlockList → List ℕ}
  {b m p n size offset : ℕ} {env : BlockEnv}

/-- A call that gives back an element moves its `MemBlock` from one list of its block to the other,
once the element is zeroed. -/
theorem blockheapFree_ok {ptr r : ℕ} (hrun : blockheapFree h (some ptr) = .ok (h', r)) :
    ∃ block, r = 0 ∧ h' = { h.fill ptr h.elemSize fun _ => 0 with
      freeElems := h.freeElems + 1
      links := dlinkMove (h.fill ptr h.elemSize fun _ => 0).links (some (ptr - sizeofMemBlock))
        (some (.used block)) (some (.free block)) } := by
  dsimp only [blockheapFree] at hrun
  split at hrun
  · cases hrun
  · split_ifs at hrun
    split at hrun
    · cases hrun
    · next block _ =>
      cases hrun
      exact ⟨block, rfl, rfl⟩

theorem freesHeader (m : ℕ) : FreesHeader m (m + sizeofMemBlock) := by
  intro h h' r hrun
  obtain ⟨block, -, rfl⟩ := blockheapFree_ok hrun
  exact ⟨block, by rw [Nat.add_sub_cancel]⟩

theorem initElems_ok (hfit : ∀ m ∈ memBlocks h.stride n offset, h.inRegion b m sizeofMemBlock) :
    ∃ h', initElems b n offset h = .ok h' ∧
      h' = { h with owner := h'.owner, links := h'.links } := by
  induction n generalizing offset h with
  | zero => exact ⟨h, rfl, rfl⟩
  | succ n ih =>
    rw [initElems, if_pos (hfit offset List.mem_cons_self)]
    obtain ⟨h', hrun, hframe⟩ := @ih
      { h with
        owner := Function.update h.owner offset (some b)
        links := dlinkAdd h.links (some (offset + sizeofMemBlock)) offset (.free b) }
      (offset + h.stride) fun m hm => hfit m (List.mem_cons_of_mem _ hm)
    exact ⟨h', hrun, hframe⟩

theorem Inv.carved (hinv : h.Inv (b :: chain) seq out) (hn : h.elemsPerBlock = n)
    (hs : h.elemSize = size) (hfree : seq (.free b) = (h.headers b).reverse)
    (hsize : sizeofVoidPtr ∣ size) (hpage : 4096 ∣ h.elems b)
    (halloc : h.allocSize b = (n + 1) * (size + sizeofMemBlock))
    (hmapped : ∃ len, h.mapped (h.elems b) = some len ∧ h.allocSize b ≤ len) :
    h.Carved b n size (h.headers b).reverse := by
  subst hn hs
  have hb : b ∈ b :: chain := List.mem_cons_self
  have hmem {m : ℕ} : m ∈ (h.headers b).reverse ↔
      ∃ i < h.elemsPerBlock, m = h.elems b + i * (h.elemSize + sizeofMemBlock) := by
    rw [List.mem_reverse]
    exact mem_memBlocks
  refine ⟨halloc, hmapped, ?_, ?_, fun m => hmem, ?_, ?_, ?_, ?_, ?_, fun m _ => freesHeader m⟩
  · rw [← hfree]
    exact hinv.shape.describes hb
  · rw [← hfree]
    exact hinv.shape.nodup _
  · rw [List.length_reverse]
    exact length_memBlocks
  · intro m hm m' hm' hne
    rw [List.mem_reverse] at hm hm'
    rw [Nat.add_comm sizeofMemBlock]
    rcases memBlocks_clear hm hm' with hle | hle
    · exact .inl hle
    · rcases memBlocks_clear hm' hm with hle' | hle'
      · exact .inr hle'
      · exact absurd (le_antisymm hle' hle) hne
  · intro m hm
    obtain ⟨i, -, rfl⟩ := hmem.mp hm
    have hptr : sizeofVoidPtr ∣ h.elems b := Nat.dvd_trans (by decide) hpage
    have hstride : sizeofVoidPtr ∣ h.elemSize + sizeofMemBlock := Nat.dvd_add hsize (by decide)
    have hdvd := Nat.dvd_add hptr (Dvd.dvd.mul_left hstride i)
    exact ⟨hdvd, Nat.dvd_add hdvd (by decide)⟩
  · intro m hm
    obtain ⟨i, hi, rfl⟩ := hmem.mp hm
    have hle := Nat.mul_le_mul_right (h.elemSize + sizeofMemBlock) (Nat.succ_le_succ hi.le)
    rw [Nat.succ_mul, Nat.succ_eq_add_one, ← halloc] at hle
    omega
  · intro m hm
    exact hinv.element b hb m (List.mem_reverse.mp hm)

theorem blockheapBlockNew_carved (hinv : h.Inv chain seq out) (hvalid : env.Valid h)
    (hsize : sizeofVoidPtr ∣ h.elemSize)
    (hfit : (h.elemsPerBlock + 1) * (h.elemSize + sizeofMemBlock) < 2 ^ 64)
    (hmaps : env.Maps ((h.elemsPerBlock + 1) * (h.elemSize + sizeofMemBlock)) b p) :
    ∃ h' l, blockheapBlockNew h env = .ok (h', false) ∧
      h'.Carved b h.elemsPerBlock h.elemSize l := by
  obtain ⟨hblock, ⟨len, helems, hlen⟩, hpage⟩ := hmaps
  have hb : b ∉ chain := fun hmem => hvalid.block b hblock (hinv.inUse b hmem)
  have hroom : ∀ m ∈ memBlocks h.stride h.elemsPerBlock p,
      ((h.callocBlock b).mapBlock b p len).inRegion b m sizeofMemBlock := by
    intro m hm
    obtain ⟨i, hi, rfl⟩ := mem_memBlocks.mp hm
    have hle := Nat.mul_le_mul_right h.stride (Nat.succ_le_succ hi.le)
    rw [Nat.succ_mul, Nat.succ_eq_add_one] at hle
    have hstride : h.stride = h.elemSize + sizeofMemBlock := rfl
    rw [← hstride] at hlen
    simp [inRegion, mapBlock]
    omega
  obtain ⟨h₃, hrun, hframe⟩ :=
    @initElems_ok ((h.callocBlock b).mapBlock b p len) b h.elemsPerBlock p hroom
  obtain ⟨hsize₃, hcount₃, hinv₃⟩ := hinv.grow hvalid hb helems hrun
  have hg : Grew h h₃ b p len := grew_of_frame hframe
  have helems₃ : (h₃.linkBlock b).elems b = p := by
    change h₃.elems b = p
    rw [hg.elems, Function.update_self]
  have hall : (h₃.linkBlock b).allocSize b =
      (h.elemsPerBlock + 1) * (h.elemSize + sizeofMemBlock) := by
    change h₃.allocSize b = _
    rw [hg.allocSize, Function.update_self]
    exact Nat.mod_eq_of_lt hfit
  have hmapped : (h₃.linkBlock b).mapped p = some len := by
    change h₃.mapped p = some len
    rw [hg.mapped, Function.update_self]
  refine ⟨h₃.linkBlock b, _, ?_, hinv₃.carved hcount₃ hsize₃ ?_ hsize (helems₃ ▸ hpage) hall
    ⟨len, helems₃ ▸ hmapped, hall ▸ hlen⟩⟩
  · simp only [blockheapBlockNew, hblock, helems]
    change (initElems b h.elemsPerBlock p _ >>= _) = _
    rw [hrun]
    rfl
  · rw [Function.update_self, hg.headers_new]

section Sizes

def SameSizes (h h' : BlockHeap) : Prop :=
  h'.elemSize = h.elemSize ∧ h'.elemsPerBlock = h.elemsPerBlock

variable {h'' : BlockHeap} {fuel w ptr : ℕ} {last q : Option ℕ} {failed : Bool}

theorem SameSizes.refl (h : BlockHeap) : SameSizes h h := ⟨rfl, rfl⟩

theorem SameSizes.trans (h₁ : SameSizes h h') (h₂ : SameSizes h' h'') : SameSizes h h'' :=
  ⟨h₂.1.trans h₁.1, h₂.2.trans h₁.2⟩

theorem initElems_sameSizes (hrun : initElems b n offset h = .ok h') : SameSizes h h' := by
  induction n generalizing offset h with
  | zero =>
    cases hrun
    exact .refl _
  | succ n ih =>
    rw [initElems] at hrun
    split_ifs at hrun
    have hrest := ih hrun
    exact ⟨hrest.1, hrest.2⟩

theorem blockheapBlockNew_sameSizes (hrun : blockheapBlockNew h env = .ok (h', failed)) :
    SameSizes h h' := by
  rcases blockheapBlockNew_cases hrun with ⟨-, rfl⟩ | ⟨b, -, -, rfl⟩ |
    ⟨b, p, len, h₃, -, -, -, hinit, rfl⟩
  · exact .refl _
  · exact .refl _
  · have hcarved := initElems_sameSizes hinit
    exact ⟨hcarved.1, hcarved.2⟩

theorem gcWalk_sameSizes (hrun : gcWalk fuel last q h = .ok h') : SameSizes h h' := by
  induction fuel generalizing last q h with
  | zero => cases hrun
  | succ fuel ih =>
    cases q with
    | none =>
      cases hrun
      exact .refl _
    | some w =>
      have hdrop : SameSizes h (h.dropBlock last w) :=
        ⟨(dropBlock_frame h last w).1, (dropBlock_frame h last w).2.1⟩
      rw [gcWalk] at hrun
      split_ifs at hrun
      · cases last with
        | none => exact hdrop.trans (ih hrun)
        | some a => exact hdrop.trans (ih hrun)
      · exact ih hrun

theorem blockheapGarbagecollect_sameSizes (hrun : blockheapGarbagecollect h = .ok h') :
    SameSizes h h' := by
  unfold blockheapGarbagecollect at hrun
  split_ifs at hrun
  · cases hrun
    exact .refl _
  · exact gcWalk_sameSizes hrun

theorem take_sameSizes (hrun : h.take w = .ok (h', ptr)) : SameSizes h h' := by
  unfold take at hrun
  split at hrun
  · cases hrun
  · dsimp only at hrun
    split at hrun
    · cases hrun
    · split_ifs at hrun
      cases hrun
      exact .refl _

theorem blockheapAlloc_sameSizes (hrun : blockheapAlloc h env = .ok (h', ptr)) :
    SameSizes h h' := by
  obtain ⟨h₁, w, hready, -, htake⟩ := blockheapAlloc_cases hrun
  refine SameSizes.trans ?_ (take_sameSizes htake)
  rcases hready with rfl | hnew | ⟨h₀, hnew, hgc⟩
  · exact .refl _
  · exact blockheapBlockNew_sameSizes hnew
  · exact (blockheapBlockNew_sameSizes hnew).trans (blockheapGarbagecollect_sameSizes hgc)

end Sizes

end BlockHeap

open BlockHeap

theorem HeapStep.sameSizes {s t : HeapState} {c : HeapCall} (hstep : HeapStep s c t) :
    SameSizes s.heap t.heap := by
  cases hstep with
  | alloc hvalid hrun => exact blockheapAlloc_sameSizes hrun
  | free hp hrun =>
    obtain ⟨block, -, rfl⟩ := blockheapFree_ok hrun
    exact .refl _
  | garbagecollect hrun => exact blockheapGarbagecollect_sameSizes hrun
  | write hp v => exact .refl _

section Create

variable {elemsize size b p : ℕ} {elemsperblock : ℤ} {mem : BlockHeap} {env : BlockEnv}

theorem rounded_eq (hsize : IsLeast {k | sizeofVoidPtr ∣ k ∧ elemsize ≤ k} size)
    (hfit : size + sizeofVoidPtr < 2 ^ 64) :
    (if elemsize % sizeofVoidPtr ≠ 0 then
      (elemsize + sizeofVoidPtr) % 2 ^ 64 / sizeofVoidPtr * sizeofVoidPtr
    else elemsize) = size := by
  obtain ⟨⟨hdvd, hle⟩, hleast⟩ := hsize
  have hwrap : (elemsize + sizeofVoidPtr) % 2 ^ 64 = elemsize + sizeofVoidPtr :=
    Nat.mod_eq_of_lt (by omega)
  rw [hwrap]
  apply le_antisymm
  · split_ifs with hmod
    · rw [sizeofVoidPtr] at *
      omega
    · exact hle
  · apply hleast
    split_ifs with hmod
    · refine ⟨Nat.dvd_mul_left _ _, ?_⟩
      rw [sizeofVoidPtr] at *
      omega
    · exact ⟨Nat.dvd_of_mod_eq_zero (not_not.mp hmod), le_rfl⟩

variable (hpos : 0 < elemsize) (hcount : 0 < elemsperblock)
  (hsize : IsLeast {k | sizeofVoidPtr ∣ k ∧ elemsize ≤ k} size)
  (hfit : (elemsperblock.toNat + 1) * (size + sizeofMemBlock) < 2 ^ 64)

include hpos hcount hsize hfit

theorem blockheapCreate_eq : blockheapCreate elemsize elemsperblock mem env =
    match blockheapBlockNew (.zeroed size elemsperblock.toNat mem) env with
    | .error e => .error e
    | .ok (_, true) => .error .noMemory
    | .ok (h, false) => .ok h := by
  have hroom : size + sizeofVoidPtr < 2 ^ 64 := by
    have hle := Nat.le_mul_of_pos_left (size + sizeofMemBlock)
      (Nat.succ_pos elemsperblock.toNat)
    rw [Nat.succ_eq_add_one] at hle
    rw [sizeofVoidPtr]
    rw [sizeofMemBlock] at hle hfit
    omega
  rw [← rounded_eq hsize hroom]
  exact if_neg (by omega)

theorem blockheapCreate_sizes {h₀ : BlockHeap}
    (hcreate : blockheapCreate elemsize elemsperblock mem env = .ok h₀) :
    h₀.elemSize = size ∧ h₀.elemsPerBlock = elemsperblock.toNat := by
  rw [blockheapCreate_eq hpos hcount hsize hfit] at hcreate
  cases hnew : blockheapBlockNew (.zeroed size elemsperblock.toNat mem) env with
  | error e =>
    rw [hnew] at hcreate
    cases hcreate
  | ok r =>
    obtain ⟨h, failed⟩ := r
    rw [hnew] at hcreate
    cases failed with
    | true => cases hcreate
    | false =>
      cases hcreate
      exact blockheapBlockNew_sameSizes hnew

/-- The first block of a heap, and every later one, is carved into elements of the rounded size. -/
theorem create_layout :
    (∀ mem env b p, env.Maps ((elemsperblock.toNat + 1) * (size + sizeofMemBlock)) b p →
      ∃ h l, blockheapCreate elemsize elemsperblock mem env = .ok h ∧ h.elemSize = size ∧
        h.Carved b elemsperblock.toNat size l) ∧
    ∀ mem env₀ h₀ calls s, blockheapCreate elemsize elemsperblock mem env₀ = .ok h₀ →
      Exec HeapStep ⟨h₀, []⟩ calls s → ∀ env b p, env.Valid s.heap →
      env.Maps ((elemsperblock.toNat + 1) * (size + sizeofMemBlock)) b p →
      ∃ h' l, blockheapBlockNew s.heap env = .ok (h', false) ∧
        h'.Carved b elemsperblock.toNat size l := by
  constructor
  · intro mem env b p hmaps
    have hn : 0 < elemsperblock.toNat := by omega
    obtain ⟨h, l, hnew, hcarved⟩ := blockheapBlockNew_carved (zeroed_inv hn mem)
      (@zeroed_valid size _ mem env) hsize.1.1 hfit hmaps
    have hcreate : blockheapCreate elemsize elemsperblock mem env = .ok h := by
      rw [blockheapCreate_eq hpos hcount hsize hfit, hnew]
    exact ⟨h, l, hcreate, (blockheapCreate_sizes hpos hcount hsize hfit hcreate).1, hcarved⟩
  · intro mem env₀ h₀ calls s hcreate hrun env b p hvalid hmaps
    obtain ⟨chain, seq, hinv⟩ := run_inv hcreate hrun
    have hsizes := blockheapCreate_sizes hpos hcount hsize hfit hcreate
    have hsame : SameSizes h₀ s.heap :=
      hrun.invariant (I := fun s => SameSizes h₀ s.heap) (.refl h₀)
        fun _ _ _ hs hstep => hs.trans hstep.sameSizes
    have hs : s.heap.elemSize = size := hsame.1.trans hsizes.1
    have hn : s.heap.elemsPerBlock = elemsperblock.toNat := hsame.2.trans hsizes.2
    rw [← hn] at hfit hmaps ⊢
    rw [← hs] at hfit hmaps ⊢
    exact blockheapBlockNew_carved hinv hvalid (hs ▸ hsize.1.1) hfit hmaps

end Create

/-- A page with two elements of three bytes. -/
theorem create_layout_two : ∃ h l, blockheapCreate 3 2 zeroMem firstEnv = .ok h ∧
    h.elemSize = 8 ∧ h.Carved 256 2 8 l := by
  have hleast : IsLeast {k | sizeofVoidPtr ∣ k ∧ 3 ≤ k} 8 :=
    ⟨⟨dvd_rfl, by decide⟩, fun k hk => Nat.le_of_dvd (by have := hk.2; omega) hk.1⟩
  exact (create_layout (by decide) (by decide) hleast (by decide)).1 zeroMem firstEnv 256 4096
    ⟨rfl, ⟨4096, rfl, by decide⟩, dvd_rfl⟩

end JailFs
