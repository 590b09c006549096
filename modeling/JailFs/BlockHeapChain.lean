import JailFs.BlockHeapInv

/-!
# Blocks that come and go

`blockheap_block_new` puts a block of free elements in front of the chain, and the loop of
`blockheap_garbagecollect` takes out the blocks all of whose elements are free, at the base or
further down. Both keep the invariant of the heap with the same elements handed out.
-/

namespace JailFs

open DList DlinkMem

/-- `calloc` gives a block that is not in use, and `mmap` a region that meets none that is still
mapped. -/
structure BlockEnv.Valid (env : BlockEnv) (h : BlockHeap) : Prop where
  block : ∀ b, env.block = some b → b ∉ h.blocks
  apart : ∀ p len, env.elems = some (p, len) → ∀ a len', h.mapped a = some len' →
    p + len ≤ a ∨ a + len' ≤ p

namespace BlockHeap

variable {h h' : BlockHeap} {chain out : List ℕ} {seq : BlockList → List ℕ}
  {live : BlockList → Prop} {b b' m p w n len : ℕ} {env : BlockEnv}

section New

theorem lt_of_mem_memBlocks {offset : ℕ} (hm : m ∈ memBlocks h.stride n (offset + h.stride)) :
    offset < m := by
  obtain ⟨i, -, rfl⟩ := mem_memBlocks.mp hm
  have hpos : 0 < h.stride := Nat.add_pos_right _ (by decide)
  omega

theorem not_mem_update {offset : ℕ} (hne : m ≠ offset) (hm : ∀ list, m ∉ seq list)
    (list : BlockList) : m ∉ Function.update seq (.free b) (offset :: seq (.free b)) list := by
  by_cases hl : list = .free b
  · subst hl
    rw [Function.update_self]
    exact fun hmem => (List.mem_cons.mp hmem).elim hne (hm (.free b))
  · rw [Function.update_of_ne hl]
    exact hm list

/-- The loop over the elements of a new block puts all of them on its free list. -/
theorem initElems_spec {offset : ℕ} (hrun : initElems b n offset h = .ok h')
    (hshape : h.links.Shape live seq) (hlive : live (.free b))
    (hfresh : ∀ m ∈ memBlocks h.stride n offset, h.inRegion b m sizeofMemBlock = true →
      ∀ list, m ∉ seq list) :
    h' = { h with owner := h'.owner, links := h'.links } ∧
      h'.links.Shape live (Function.update seq (.free b)
        ((memBlocks h.stride n offset).reverse ++ seq (.free b))) ∧
      (∀ m ∈ memBlocks h.stride n offset, h.inRegion b m sizeofMemBlock = true ∧
        h'.links.data m = some (m + sizeofMemBlock) ∧ h'.owner m = some b) ∧
      (∀ m ∉ memBlocks h.stride n offset, h'.links.data m = h.links.data m ∧
        h'.owner m = h.owner m) ∧
      ∀ (nodes : ℕ → Prop) (lists : BlockList → Prop), ¬ lists (.free b) →
        (∀ m, h.inRegion b m sizeofMemBlock = true ∨ m ∈ seq (.free b) → ¬ nodes m) →
        h.links.Agrees h'.links nodes lists := by
  induction n generalizing offset h seq with
  | zero =>
    cases hrun
    refine ⟨rfl, ?_, fun m hm => absurd hm List.not_mem_nil, fun m _ => ⟨rfl, rfl⟩,
      fun nodes lists _ _ => Agrees.refl _ _ _⟩
    rw [memBlocks, List.reverse_nil, List.nil_append, Function.update_eq_self]
    exact hshape
  | succ n ih =>
    rw [initElems] at hrun
    split_ifs at hrun with hfit
    have hnew := hfresh offset List.mem_cons_self hfit
    have hlinks : dlinkAdd h.links (some (offset + sizeofMemBlock)) offset (.free b) =
        h.links.insertAt (some (offset + sizeofMemBlock)) offset (.free b) [] (seq (.free b)) :=
      dlinkAdd_eq hshape hlive (hnew (.free b))
    have hadded : (h.links.insertAt (some (offset + sizeofMemBlock)) offset (.free b) []
        (seq (.free b))).Shape live (Function.update seq (.free b) (offset :: seq (.free b))) :=
      hshape.insertAt hlive rfl hnew
    rw [← hlinks] at hadded
    obtain ⟨hframe, hshape', hset, hkeep, hagrees⟩ := ih hrun hadded fun m hm hregion =>
      not_mem_update (lt_of_mem_memBlocks hm).ne' (hfresh m (List.mem_cons_of_mem _ hm) hregion)
    refine ⟨hframe, ?_, ?_, ?_, ?_⟩
    · rw [Function.update_idem, Function.update_self] at hshape'
      rw [memBlocks, List.reverse_cons, List.append_assoc]
      exact hshape'
    · intro m hm
      rcases List.mem_cons.mp hm with rfl | hm
      · obtain ⟨hdata, howner⟩ := hkeep m fun hm => Nat.lt_irrefl _ (lt_of_mem_memBlocks hm)
        refine ⟨hfit, ?_, ?_⟩
        · rw [hdata, hlinks]
          exact Function.update_self _ _ _
        · rw [howner]
          exact Function.update_self _ _ _
      · exact hset m hm
    · intro m hm
      rw [memBlocks, List.mem_cons, not_or] at hm
      obtain ⟨hdata, howner⟩ := hkeep m hm.2
      rw [hdata, howner, hlinks]
      exact ⟨Function.update_of_ne hm.1 _ _, Function.update_of_ne hm.1 _ _⟩
    · intro nodes lists hlist hnodes
      have hadd : h.links.Agrees (h.links.insertAt (some (offset + sizeofMemBlock)) offset
          (.free b) [] (seq (.free b))) nodes lists :=
        insertAt_agrees hlist (hnodes offset (.inl hfit)) (fun a ha => absurd ha List.not_mem_nil)
          fun a ha => hnodes a (.inr ha)
      rw [← hlinks] at hadd
      refine hadd.trans (hagrees nodes lists hlist fun m hm => ?_)
      rw [Function.update_self, List.mem_cons] at hm
      rcases hm with hregion | rfl | hmem
      · exact hnodes m (.inl hregion)
      · exact hnodes m (.inl hfit)
      · exact hnodes m (.inr hmem)

theorem Inv.seq_dead (hinv : h.Inv chain seq out) (hb : b ∉ chain) :
    seq (.free b) = [] ∧ seq (.used b) = [] :=
  ⟨hinv.shape.dead (.free b) hb, hinv.shape.dead (.used b) hb⟩

theorem callocBlock_lists (h : BlockHeap) (b : ℕ) (list : BlockList) :
    (list.block = b → (h.callocBlock b).links.head list = none ∧
      (h.callocBlock b).links.tail list = none ∧ (h.callocBlock b).links.length list = 0) ∧
    (list.block ≠ b → (h.callocBlock b).links.head list = h.links.head list ∧
      (h.callocBlock b).links.tail list = h.links.tail list ∧
      (h.callocBlock b).links.length list = h.links.length list) := by
  constructor
  · intro heq
    subst heq
    cases list <;> simp [callocBlock, setHead, setTail, setLength, BlockList.block]
  · intro hne
    have hlf : list ≠ .free b := fun heq => hne (by rw [heq]; rfl)
    have hlu : list ≠ .used b := fun heq => hne (by rw [heq]; rfl)
    simp [callocBlock, setHead, setTail, setLength, hlf, hlu]

/-- The lists of a fresh block are empty, and the others are as they were. -/
theorem Inv.callocBlock_shape (hinv : h.Inv chain seq out) (hb : b ∉ chain) :
    (h.callocBlock b).links.Shape (fun list => list.block ∈ b :: chain) seq := by
  have hlists {list : BlockList} (hlive : list.block ∈ b :: chain) :
      (h.callocBlock b).links.head list = (seq list).head? ∧
        (h.callocBlock b).links.tail list = (seq list).getLast? ∧
        (h.callocBlock b).links.length list = (seq list).length := by
    obtain ⟨hnew, hold⟩ := callocBlock_lists h b list
    by_cases heq : list.block = b
    · rw [hinv.shape.dead list (heq ▸ hb)]
      exact hnew heq
    · have hmem : list.block ∈ chain := (List.mem_cons.mp hlive).resolve_left heq
      obtain ⟨hhead, htail, hlength⟩ := hold heq
      rw [hhead, htail, hlength]
      exact ⟨hinv.shape.head list hmem, hinv.shape.tail list hmem, hinv.shape.length list hmem⟩
  exact { hinv.shape with
    head := fun list hlive => (hlists hlive).1
    tail := fun list hlive => (hlists hlive).2.1
    length := fun list hlive => (hlists hlive).2.2
    dead := fun list hdead => hinv.shape.dead list fun hmem => hdead (List.mem_cons_of_mem b hmem) }

theorem Inv.callocBlock (hinv : h.Inv chain seq out) (hb : b ∉ chain) :
    (h.callocBlock b).Inv chain seq out := by
  have hshape := hinv.callocBlock_shape hb
  refine { hinv with follows := ?_, inUse := ?_, shape := ?_ }
  · exact hinv.follows.congr fun a ha => Function.update_of_ne (ne_of_mem_of_not_mem ha hb) _ _
  · exact fun b' hb' => List.mem_cons_of_mem b (hinv.inUse b' hb')
  · exact hshape.narrow (fun list hl => List.mem_cons_of_mem b hl) (fun _ _ => rfl)
      hinv.shape.dead

/-- The region of a block of the chain has room for one `MemBlock`, at its start. -/
theorem Inv.region_start (hinv : h.Inv chain seq out) (hb : b ∈ chain) :
    ∃ len, h.mapped (h.elems b) = some len ∧ sizeofMemBlock ≤ len := by
  have hmem : h.elems b ∈ h.headers b := mem_memBlocks.mpr ⟨0, hinv.positive, by simp⟩
  obtain ⟨len, hmapped, -, hle⟩ := inRegion_iff.mp (hinv.mapped b hb _ hmem)
  exact ⟨len, hmapped, Nat.le_of_add_le_add_left hle⟩

/-- No `MemBlock` of the chain lies in a region that `mmap` gives now. -/
theorem Inv.not_mem_seq (hinv : h.Inv chain seq out) (hvalid : env.Valid h)
    (helems : env.elems = some (p, len)) (hlo : p ≤ m) (hhi : m + sizeofMemBlock ≤ p + len)
    (list : BlockList) : m ∉ seq list := by
  intro hm
  obtain ⟨hlive, hheader⟩ := hinv.mem_headers_of_mem hm
  obtain ⟨len', hmapped, hlo', hhi'⟩ := inRegion_iff.mp (hinv.mapped _ hlive m hheader)
  have hapart := hvalid.apart p len helems _ _ hmapped
  have hpos : 0 < sizeofMemBlock := by decide
  omega

/-- What a new block with its region at `p` changes, apart from the lists and the owners. -/
structure Grew (h h' : BlockHeap) (b p len : ℕ) : Prop where
  elemSize : h'.elemSize = h.elemSize
  elemsPerBlock : h'.elemsPerBlock = h.elemsPerBlock
  elems : h'.elems = Function.update h.elems b p
  mapped : h'.mapped = Function.update h.mapped p (some len)
  next : h'.next = Function.update h.next b h.base
  allocSize : h'.allocSize =
    Function.update h.allocSize b ((h.elemsPerBlock + 1) * h.stride % 2 ^ 64)
  byte : h'.byte = h.byte
  blocksAllocated : h'.blocksAllocated = h.blocksAllocated
  freeElems : h'.freeElems = h.freeElems
  blocks : h'.blocks = b :: h.blocks

theorem grew_of_frame (hframe : h' =
    { (h.callocBlock b).mapBlock b p len with owner := h'.owner, links := h'.links }) :
    Grew h h' b p len := by
  constructor <;> rw [hframe] <;> rfl

theorem Grew.inRegion_new (hg : Grew h h' b p len) (q k : ℕ) :
    (h'.linkBlock b).inRegion b q k = true ↔ p ≤ q ∧ q + k ≤ p + len := by
  simp [inRegion, linkBlock, hg.elems, hg.mapped]

theorem Grew.headers_new (hg : Grew h h' b p len) :
    (h'.linkBlock b).headers b = memBlocks h.stride h.elemsPerBlock p := by
  change memBlocks h'.stride h'.elemsPerBlock (h'.elems b) = _
  rw [stride, hg.elemSize, hg.elemsPerBlock, hg.elems, Function.update_self]
  rfl

theorem Grew.headers_old (hg : Grew h h' b p len) (hne : b' ≠ b) :
    (h'.linkBlock b).headers b' = h.headers b' := by
  change memBlocks h'.stride h'.elemsPerBlock (h'.elems b') = _
  rw [stride, hg.elemSize, hg.elemsPerBlock, hg.elems, Function.update_of_ne hne]
  rfl

theorem Inv.region_ne (hinv : h.Inv chain seq out) (hvalid : env.Valid h)
    (helems : env.elems = some (p, len)) (hlen : sizeofMemBlock ≤ len) (hb' : b' ∈ chain) :
    h.elems b' ≠ p := by
  obtain ⟨len', hmapped, hle⟩ := hinv.region_start hb'
  have hapart := hvalid.apart p len helems _ _ hmapped
  have hpos : 0 < sizeofMemBlock := Nat.succ_pos _
  omega

theorem Inv.inRegion_old (hinv : h.Inv chain seq out) (hvalid : env.Valid h)
    (helems : env.elems = some (p, len)) (hlen : sizeofMemBlock ≤ len) (hg : Grew h h' b p len)
    (hb : b ∉ chain) (hb' : b' ∈ chain) (q k : ℕ) :
    (h'.linkBlock b).inRegion b' q k = h.inRegion b' q k := by
  simp only [inRegion, linkBlock, hg.elems, hg.mapped,
    Function.update_of_ne (ne_of_mem_of_not_mem hb' hb),
    Function.update_of_ne (hinv.region_ne hvalid helems hlen hb')]

theorem Inv.grow_apart (hinv : h.Inv chain seq out) (hvalid : env.Valid h)
    (helems : env.elems = some (p, len)) (hlen : sizeofMemBlock ≤ len) (hg : Grew h h' b p len)
    (hb : b ∉ chain) : ∀ b₁ ∈ b :: chain, ∀ b₂ ∈ b :: chain, b₁ ≠ b₂ → ∀ q k q' k',
      (h'.linkBlock b).inRegion b₁ q k = true → (h'.linkBlock b).inRegion b₂ q' k' = true →
        q + k ≤ q' ∨ q' + k' ≤ q := by
  have hcross {b' : ℕ} (hb' : b' ∈ chain) {q k q' k' : ℕ} (hq : p ≤ q ∧ q + k ≤ p + len)
      (hq' : h.inRegion b' q' k' = true) : q + k ≤ q' ∨ q' + k' ≤ q := by
    obtain ⟨len', hmapped, hlo, hhi⟩ := inRegion_iff.mp hq'
    have hapart := hvalid.apart p len helems _ _ hmapped
    omega
  have hregion {b' : ℕ} (hb' : b' ∈ chain) (q k : ℕ) :=
    hinv.inRegion_old hvalid helems hlen hg hb hb' q k
  intro b₁ hb₁ b₂ hb₂ hne₁₂ q k q' k' hq hq'
  rcases List.mem_cons.mp hb₁ with heq₁ | hold₁
  · rcases List.mem_cons.mp hb₂ with heq₂ | hold₂
    · exact absurd (heq₁.trans heq₂.symm) hne₁₂
    · rw [heq₁, hg.inRegion_new] at hq
      rw [hregion hold₂] at hq'
      exact hcross hold₂ hq hq'
  · rw [hregion hold₁] at hq
    rcases List.mem_cons.mp hb₂ with heq₂ | hold₂
    · rw [heq₂, hg.inRegion_new] at hq'
      exact (hcross hold₁ hq' hq).symm
    · rw [hregion hold₂] at hq'
      exact hinv.apart b₁ hold₁ b₂ hold₂ hne₁₂ _ _ _ _ hq hq'

/-- The loop over the elements has filled the region of a new block with `MemBlock`s, and touched
nothing else. -/
structure Threaded (h h' : BlockHeap) (b p len : ℕ) (chain : List ℕ)
    (seq : BlockList → List ℕ) : Prop extends Grew h h' b p len where
  room : sizeofMemBlock ≤ len
  shape : h'.links.Shape (fun list => list.block ∈ b :: chain)
    (Function.update seq (.free b) (memBlocks h.stride h.elemsPerBlock p).reverse)
  inside : ∀ m ∈ memBlocks h.stride h.elemsPerBlock p, p ≤ m ∧ m + sizeofMemBlock ≤ p + len
  header : ∀ m ∈ memBlocks h.stride h.elemsPerBlock p,
    h'.links.data m = some (m + sizeofMemBlock) ∧ h'.owner m = some b
  other : ∀ m ∉ memBlocks h.stride h.elemsPerBlock p,
    h'.links.data m = h.links.data m ∧ h'.owner m = h.owner m
  agrees : ∀ (nodes : ℕ → Prop) (lists : BlockList → Prop), ¬ lists (.free b) →
    (∀ m, p ≤ m ∧ m + sizeofMemBlock ≤ p + len → ¬ nodes m) →
    (h.callocBlock b).links.Agrees h'.links nodes lists

theorem Inv.threaded (hinv : h.Inv chain seq out) (hvalid : env.Valid h) (hb : b ∉ chain)
    (helems : env.elems = some (p, len))
    (hrun : initElems b h.elemsPerBlock p ((h.callocBlock b).mapBlock b p len) = .ok h') :
    Threaded h h' b p len chain seq := by
  have hlive : (BlockList.free b).block ∈ b :: chain := List.mem_cons_self
  have hfit (q k : ℕ) : ((h.callocBlock b).mapBlock b p len).inRegion b q k = true ↔
      p ≤ q ∧ q + k ≤ p + len := by
    simp [inRegion, mapBlock]
  obtain ⟨hframe, hshape, hset, hkeep, hagrees⟩ :=
    initElems_spec hrun (hinv.callocBlock_shape hb) hlive (by
      intro m _ hregion list
      obtain ⟨hlo, hhi⟩ := (hfit _ _).mp hregion
      exact hinv.not_mem_seq hvalid helems hlo hhi list)
  have hinside : ∀ m ∈ memBlocks h.stride h.elemsPerBlock p,
      p ≤ m ∧ m + sizeofMemBlock ≤ p + len := fun m hm => (hfit _ _).mp (hset m hm).1
  rw [(hinv.seq_dead hb).1, List.append_nil] at hshape
  refine ⟨grew_of_frame hframe, ?_, hshape, hinside, fun m hm => (hset m hm).2, hkeep, ?_⟩
  · have hp : p ∈ memBlocks h.stride h.elemsPerBlock p :=
      mem_memBlocks.mpr ⟨0, hinv.positive, by simp⟩
    have hle := (hinside p hp).2
    omega
  · intro nodes lists hlist hnodes
    refine hagrees nodes lists hlist ?_
    rintro m (hregion | hmem)
    · exact hnodes m ((hfit _ _).mp hregion)
    · rw [(hinv.seq_dead hb).1] at hmem
      cases hmem

/-- Every `MemBlock` still has its element and its block. -/
theorem Inv.grow_element (hinv : h.Inv chain seq out) (hvalid : env.Valid h) (hb : b ∉ chain)
    (helems : env.elems = some (p, len)) (ht : Threaded h h' b p len chain seq) :
    ∀ b' ∈ b :: chain, ∀ m ∈ (h'.linkBlock b).headers b',
      h'.links.data m = some (m + sizeofMemBlock) ∧ h'.owner m = some b' := by
  have hg := ht.toGrew
  intro b' hb' m hm
  rcases List.mem_cons.mp hb' with rfl | hb'
  · rw [hg.headers_new] at hm
    exact ht.header m hm
  · rw [hg.headers_old (ne_of_mem_of_not_mem hb' hb)] at hm
    obtain ⟨hdata, howner⟩ := ht.other m fun hm' => by
      obtain ⟨hlo, hhi⟩ := ht.inside m hm'
      have hno := hinv.not_mem_seq hvalid helems hlo hhi
      rcases List.mem_append.mp ((hinv.headers b' hb').mem_iff.mpr hm) with hmem | hmem
      · exact hno _ hmem
      · exact hno _ hmem
    rw [hdata, howner]
    exact hinv.element b' hb' m hm

/-- The elements of the new block are counted as free. -/
theorem Inv.grow_freeElems (hinv : h.Inv chain seq out) (hg : Grew h h' b p len)
    (hseq : ∀ {b'}, b' ∈ chain → Function.update seq (.free b)
      (memBlocks h.stride h.elemsPerBlock p).reverse (.free b') = seq (.free b')) :
    (h'.linkBlock b).freeElems = ((b :: chain).map fun b' => (Function.update seq (.free b)
      (memBlocks h.stride h.elemsPerBlock p).reverse (.free b')).length).sum := by
  have hsame : (chain.map fun b' => (Function.update seq (.free b)
      (memBlocks h.stride h.elemsPerBlock p).reverse (.free b')).length) =
      chain.map fun b' => (seq (.free b')).length :=
    List.map_congr_left fun b' hb' => congrArg List.length (hseq hb')
  rw [List.map_cons, List.sum_cons, hsame, Function.update_self, List.length_reverse,
    length_memBlocks, ← hinv.freeElems, linkBlock, hg.freeElems, hg.elemsPerBlock]
  exact Nat.add_comm _ _

/-- The new block, once its elements are threaded, goes in front of the chain. -/
theorem Inv.grow (hinv : h.Inv chain seq out) (hvalid : env.Valid h) (hb : b ∉ chain)
    (helems : env.elems = some (p, len))
    (hrun : initElems b h.elemsPerBlock p ((h.callocBlock b).mapBlock b p len) = .ok h') :
    h'.elemSize = h.elemSize ∧ h'.elemsPerBlock = h.elemsPerBlock ∧
      (h'.linkBlock b).Inv (b :: chain)
        (Function.update seq (.free b) (memBlocks h.stride h.elemsPerBlock p).reverse) out := by
  have ht := hinv.threaded hvalid hb helems hrun
  have hg := ht.toGrew
  have hlen := ht.room
  have hne {b' : ℕ} (hb' : b' ∈ chain) : b' ≠ b := ne_of_mem_of_not_mem hb' hb
  have hregion {b' : ℕ} (hb' : b' ∈ chain) (q k : ℕ) :=
    hinv.inRegion_old hvalid helems hlen hg hb hb' q k
  have hseq {b' : ℕ} (hb' : b' ∈ chain) : Function.update seq (.free b)
      (memBlocks h.stride h.elemsPerBlock p).reverse (.free b') = seq (.free b') :=
    Function.update_of_ne (fun heq => hne hb' (BlockList.free.inj heq)) _ _
  have hused (b' : ℕ) : Function.update seq (.free b)
      (memBlocks h.stride h.elemsPerBlock p).reverse (.used b') = seq (.used b') :=
    Function.update_of_ne BlockList.noConfusion _ _
  refine ⟨hg.elemSize, hg.elemsPerBlock, ?_⟩
  constructor
  case positive => exact hg.elemsPerBlock ▸ hinv.positive
  case follows =>
    refine ⟨rfl, ?_⟩
    change Follows h'.next (h'.next b) chain none
    rw [hg.next, Function.update_self]
    exact hinv.follows.congr fun a ha => Function.update_of_ne (hne ha) _ _
  case nodup => exact List.nodup_cons.mpr ⟨hb, hinv.nodup⟩
  case inUse =>
    intro b' hb'
    change b' ∈ h'.blocks
    rw [hg.blocks]
    rcases List.mem_cons.mp hb' with rfl | hb'
    · exact List.mem_cons_self
    · exact List.mem_cons_of_mem b (hinv.inUse b' hb')
  case shape => exact ht.shape
  case headers =>
    intro b' hb'
    rw [hused]
    rcases List.mem_cons.mp hb' with rfl | hb'
    · rw [Function.update_self, (hinv.seq_dead hb).2, List.append_nil, hg.headers_new]
      exact List.reverse_perm _
    · rw [hseq hb', hg.headers_old (hne hb')]
      exact hinv.headers b' hb'
  case element => exact hinv.grow_element hvalid hb helems ht
  case mapped =>
    intro b' hb' m hm
    rcases List.mem_cons.mp hb' with rfl | hb'
    · rw [hg.headers_new] at hm
      exact (hg.inRegion_new _ _).mpr (ht.inside m hm)
    · rw [hg.headers_old (hne hb')] at hm
      exact (hregion hb' _ _).trans (hinv.mapped b' hb' m hm)
  case apart => exact hinv.grow_apart hvalid helems hlen hg hb
  case blocksAllocated =>
    rw [List.length_cons]
    exact congrArg (· + 1) (hg.blocksAllocated.trans hinv.blocksAllocated)
  case freeElems => exact hinv.grow_freeElems hg hseq
  case out =>
    simp only [hused, List.flatMap_cons, (hinv.seq_dead hb).2, List.nil_append]
    exact hinv.out
  case fits =>
    intro b' hb' m hm
    rw [hused] at hm
    rcases List.mem_cons.mp hb' with rfl | hb'
    · rw [(hinv.seq_dead hb).2] at hm
      cases hm
    · change (h'.linkBlock b).inRegion b' _ h'.elemSize = true
      rw [hg.elemSize, hregion hb']
      exact hinv.fits b' hb' m hm

theorem blockheapBlockNew_cases {failed : Bool}
    (hrun : blockheapBlockNew h env = .ok (h', failed)) :
    failed = true ∧ h' = h ∨
      (∃ b, env.block = some b ∧ failed = true ∧ h' = h.callocBlock b) ∨
      ∃ b p len h₃, env.block = some b ∧ env.elems = some (p, len) ∧ failed = false ∧
        initElems b h.elemsPerBlock p ((h.callocBlock b).mapBlock b p len) = .ok h₃ ∧
        h' = h₃.linkBlock b := by
  unfold blockheapBlockNew at hrun
  cases hblock : env.block with
  | none =>
    rw [hblock] at hrun
    cases hrun
    exact .inl ⟨rfl, rfl⟩
  | some b =>
    rw [hblock] at hrun
    cases helems : env.elems with
    | none =>
      rw [helems] at hrun
      cases hrun
      exact .inr (.inl ⟨b, rfl, rfl, rfl⟩)
    | some region =>
      obtain ⟨p, len⟩ := region
      rw [helems] at hrun
      dsimp only at hrun
      cases hinit : initElems b (h.callocBlock b).elemsPerBlock p
          ((h.callocBlock b).mapBlock b p len) with
      | error e =>
        rw [hinit] at hrun
        cases hrun
      | ok h₃ =>
        rw [hinit] at hrun
        cases hrun
        exact .inr (.inr ⟨b, p, len, h₃, rfl, rfl, rfl, hinit, rfl⟩)

theorem blockheapBlockNew_spec (hinv : h.Inv chain seq out) (hvalid : env.Valid h) {failed : Bool}
    (hrun : blockheapBlockNew h env = .ok (h', failed)) :
    h'.elemSize = h.elemSize ∧
      ((failed = true ∧ h'.freeElems = h.freeElems ∧ h'.Inv chain seq out) ∨
        (failed = false ∧ 0 < h'.freeElems ∧ ∃ b seq', h'.Inv (b :: chain) seq' out)) := by
  have hnew {b : ℕ} (hblock : env.block = some b) : b ∉ chain := fun hmem =>
    hvalid.block b hblock (hinv.inUse b hmem)
  rcases blockheapBlockNew_cases hrun with ⟨rfl, rfl⟩ | ⟨b, hblock, rfl, rfl⟩ |
    ⟨b, p, len, h₃, hblock, helems, rfl, hinit, rfl⟩
  · exact ⟨rfl, .inl ⟨rfl, rfl, hinv⟩⟩
  · exact ⟨rfl, .inl ⟨rfl, rfl, hinv.callocBlock (hnew hblock)⟩⟩
  · obtain ⟨hsize, hcount, hinv'⟩ := hinv.grow hvalid (hnew hblock) helems hinit
    have hpos : 0 < h₃.freeElems + h₃.elemsPerBlock := by
      rw [hcount]
      exact Nat.add_pos_right _ hinv.positive
    exact ⟨hsize, .inr ⟨rfl, hpos, b, _, hinv'⟩⟩

end New

section Collect

variable {kept rest : List ℕ}

theorem dropBlock_frame (h : BlockHeap) (last : Option ℕ) (w : ℕ) :
    (h.dropBlock last w).elemSize = h.elemSize ∧
      (h.dropBlock last w).elemsPerBlock = h.elemsPerBlock ∧
      (h.dropBlock last w).links = h.links ∧ (h.dropBlock last w).owner = h.owner ∧
      (h.dropBlock last w).elems = h.elems ∧
      (h.dropBlock last w).mapped = Function.update h.mapped (h.elems w) none ∧
      (h.dropBlock last w).blocks = h.blocks.erase w ∧
      (h.dropBlock last w).blocksAllocated = h.blocksAllocated - 1 ∧
      (h.dropBlock last w).freeElems = h.freeElems - h.elemsPerBlock := by
  cases last <;> exact ⟨rfl, rfl, rfl, rfl, rfl, rfl, rfl, rfl, rfl⟩

theorem dropBlock_follows (hl : Follows h.next h.base (kept ++ w :: rest) none)
    (hn : (kept ++ w :: rest).Nodup) :
    Follows (h.dropBlock kept.getLast? w).next (h.dropBlock kept.getLast? w).base (kept ++ rest)
      none := by
  rcases List.eq_nil_or_concat kept with rfl | ⟨l, a, rfl⟩
  · exact hl.2
  · rw [List.concat_eq_append, List.append_assoc, List.singleton_append] at hl hn
    rw [List.concat_eq_append, List.getLast?_concat, List.append_assoc, List.singleton_append]
    exact hl.skip hn

theorem mem_of_dropped (hn : (kept ++ w :: rest).Nodup) (hb : b ∈ kept ++ rest) :
    b ∈ kept ++ w :: rest ∧ b ≠ w := by
  rw [List.nodup_middle, List.nodup_cons] at hn
  exact ⟨List.perm_middle.mem_iff.mpr (List.mem_cons_of_mem w hb), ne_of_mem_of_not_mem hb hn.1⟩

theorem Inv.used_of_full (hinv : h.Inv chain seq out) (hw : w ∈ chain)
    (hfull : h.links.length (.free w) = h.elemsPerBlock) : seq (.used w) = [] := by
  have hadd := hinv.length_add hw
  rw [← hinv.length_free hw, hfull] at hadd
  exact List.eq_nil_of_length_eq_zero (by omega)

theorem Inv.elems_ne (hinv : h.Inv chain seq out) (hb : b ∈ chain) (hw : w ∈ chain)
    (hne : b ≠ w) : h.elems b ≠ h.elems w := by
  intro heq
  obtain ⟨len, hlen, hle⟩ := hinv.region_start hb
  have hfit : h.inRegion b (h.elems b) sizeofMemBlock = true :=
    inRegion_iff.mpr ⟨len, hlen, le_rfl, Nat.add_le_add_left hle _⟩
  have hfit' : h.inRegion w (h.elems b) sizeofMemBlock = true := by
    rw [← hfit, inRegion, inRegion, heq]
  have hapart := hinv.apart b hb w hw hne _ _ _ _ hfit hfit'
  have hpos : 0 < sizeofMemBlock := Nat.succ_pos _
  omega

theorem dropBlock_headers (h : BlockHeap) (last : Option ℕ) (w b : ℕ) :
    (h.dropBlock last w).headers b = h.headers b := by
  obtain ⟨hsize, hcount, _, _, helems, _⟩ := dropBlock_frame h last w
  change memBlocks (h.dropBlock last w).stride _ _ = _
  rw [stride, hsize, hcount, helems]
  rfl

theorem Inv.drop_shape (hinv : h.Inv (kept ++ w :: rest) seq out)
    (hfull : h.links.length (.free w) = h.elemsPerBlock) :
    h.links.Shape (fun list => list.block ∈ kept ++ rest) (Function.update seq (.free w) []) := by
  have hnone := hinv.used_of_full (List.mem_append_right _ List.mem_cons_self) hfull
  have hused (b : ℕ) : Function.update seq (.free w) [] (.used b) = seq (.used b) :=
    Function.update_of_ne BlockList.noConfusion _ _
  have hseq {b : ℕ} (hb : b ≠ w) : Function.update seq (.free w) [] (.free b) = seq (.free b) :=
    Function.update_of_ne (fun heq => hb (BlockList.free.inj heq)) _ _
  have hlost {b : ℕ} (hl : b ∉ kept ++ rest) (hb : b ≠ w) : b ∉ kept ++ w :: rest := fun hmem =>
    hl ((List.mem_cons.mp (List.perm_middle.mem_iff.mp hmem)).resolve_left hb)
  refine hinv.shape.narrow (fun list hl => (mem_of_dropped hinv.nodup hl).1) (fun list hl => ?_)
    fun list hl => ?_
  · cases list with
    | free b => exact hseq (mem_of_dropped hinv.nodup hl).2
    | used b => exact hused b
  · cases list with
    | free b =>
      by_cases hb : b = w
      · rw [hb, Function.update_self]
      · rw [hseq hb]
        exact hinv.shape.dead (.free b) (hlost hl hb)
    | used b =>
      rw [hused]
      by_cases hb : b = w
      · rw [hb, hnone]
      · exact hinv.shape.dead (.used b) (hlost hl hb)

theorem Inv.drop (hinv : h.Inv (kept ++ w :: rest) seq out)
    (hfull : h.links.length (.free w) = h.elemsPerBlock) :
    (h.dropBlock kept.getLast? w).Inv (kept ++ rest) (Function.update seq (.free w) []) out := by
  obtain ⟨hsize, hcount, hlinks, howner, helems, hmapped, hblocks, hallocated, hfreeElems⟩ :=
    dropBlock_frame h kept.getLast? w
  have hw : w ∈ kept ++ w :: rest := List.mem_append_right _ List.mem_cons_self
  have hsub {b : ℕ} (hb : b ∈ kept ++ rest) := mem_of_dropped hinv.nodup hb
  have hnone := hinv.used_of_full hw hfull
  have hseq {b : ℕ} (hb : b ≠ w) : Function.update seq (.free w) [] (.free b) = seq (.free b) :=
    Function.update_of_ne (fun heq => hb (BlockList.free.inj heq)) _ _
  have hused (b : ℕ) : Function.update seq (.free w) [] (.used b) = seq (.used b) :=
    Function.update_of_ne BlockList.noConfusion _ _
  have hheaders := dropBlock_headers h kept.getLast? w
  have hregion {b : ℕ} (hb : b ∈ kept ++ rest) (q k : ℕ) :
      (h.dropBlock kept.getLast? w).inRegion b q k = h.inRegion b q k := by
    rw [inRegion, inRegion, helems, hmapped,
      Function.update_of_ne (hinv.elems_ne (hsub hb).1 hw (hsub hb).2)]
  constructor
  case positive => exact hcount ▸ hinv.positive
  case follows => exact dropBlock_follows hinv.follows hinv.nodup
  case nodup => exact (List.nodup_cons.mp (List.nodup_middle.mp hinv.nodup)).2
  case inUse =>
    intro b hb
    rw [hblocks]
    exact (List.mem_erase_of_ne (hsub hb).2).mpr (hinv.inUse b (hsub hb).1)
  case shape => exact hlinks ▸ hinv.drop_shape hfull
  case headers =>
    intro b hb
    rw [hseq (hsub hb).2, hused, hheaders]
    exact hinv.headers b (hsub hb).1
  case element =>
    intro b hb m hm
    rw [hheaders] at hm
    rw [hlinks, howner]
    exact hinv.element b (hsub hb).1 m hm
  case mapped =>
    intro b hb m hm
    rw [hheaders] at hm
    rw [hregion hb]
    exact hinv.mapped b (hsub hb).1 m hm
  case apart =>
    intro b hb b' hb' hne q k q' k' hq hq'
    rw [hregion hb] at hq
    rw [hregion hb'] at hq'
    exact hinv.apart b (hsub hb).1 b' (hsub hb').1 hne _ _ _ _ hq hq'
  case blocksAllocated =>
    rw [hallocated, hinv.blocksAllocated]
    simp
  case freeElems =>
    have hsame : ((kept ++ rest).map fun b => (Function.update seq (.free w) [] (.free b)).length) =
        (kept ++ rest).map fun b => (seq (.free b)).length :=
      List.map_congr_left fun b hb => congrArg List.length (hseq (hsub hb).2)
    have hfree := hinv.freeElems
    rw [hinv.length_free hw] at hfull
    rw [hfreeElems, hsame]
    rw [List.map_append, List.map_cons, List.sum_append, List.sum_cons, hfull] at hfree
    rw [List.map_append, List.sum_append]
    omega
  case out =>
    have hout := hinv.out
    simp only [List.flatMap_append, List.flatMap_cons, hnone, List.nil_append] at hout
    simp only [hused, List.flatMap_append]
    exact hout
  case fits =>
    intro b hb m hm
    rw [hused] at hm
    rw [hregion hb, hsize]
    exact hinv.fits b (hsub hb).1 m hm

/-- The test of the collector, that every element of the block is free. -/
def allFree (h : BlockHeap) (b : ℕ) : Bool := h.links.length (.free b) = h.elemsPerBlock

/-- What the collector leaves as it was, and what it unmaps with the blocks `gone`. -/
structure Collected (h h' : BlockHeap) (gone : List ℕ) : Prop where
  elemSize : h'.elemSize = h.elemSize
  elemsPerBlock : h'.elemsPerBlock = h.elemsPerBlock
  blocks : ∀ b ∈ h.blocks, b ∉ gone → b ∈ h'.blocks
  next : ∀ b, (∀ w ∈ gone, h.next b ≠ some w) → h'.next b = h.next b
  elems : h'.elems = h.elems
  allocSize : h'.allocSize = h.allocSize
  links : h'.links = h.links
  owner : h'.owner = h.owner
  byte : h'.byte = h.byte
  mapped : ∀ p, h'.mapped p = if p ∈ gone.map h.elems then none else h.mapped p

theorem Collected.refl (h : BlockHeap) : Collected h h [] :=
  ⟨rfl, rfl, fun _ hb _ => hb, fun _ _ => rfl, rfl, rfl, rfl, rfl, rfl, fun _ => rfl⟩

theorem Collected.cons {h'' : BlockHeap} {last : Option ℕ} {gone : List ℕ}
    (hlast : ∀ a, last = some a → h.next a = some w)
    (hc : Collected (h.dropBlock last w) h'' gone) : Collected h h'' (w :: gone) := by
  obtain ⟨hsize, hcount, hblocks, hnext, helems, halloc, hlinks, howner, hbyte, hmapped⟩ := hc
  have hframe := dropBlock_frame h last w
  have hrest : (h.dropBlock last w).allocSize = h.allocSize ∧
      (h.dropBlock last w).byte = h.byte := by cases last <;> exact ⟨rfl, rfl⟩
  obtain ⟨hsize', hcount', hlinks', howner', helems', hmapped', hblocks', -⟩ := hframe
  refine ⟨hsize.trans hsize', hcount.trans hcount', fun b hb hgone => ?_, fun b hb => ?_,
    helems.trans helems', halloc.trans hrest.1, hlinks.trans hlinks', howner.trans howner',
    hbyte.trans hrest.2, fun p => ?_⟩
  · rw [List.mem_cons, not_or] at hgone
    refine hblocks b ?_ hgone.2
    rw [hblocks']
    exact (List.mem_erase_of_ne hgone.1).mpr hb
  · have hsame : (h.dropBlock last w).next b = h.next b := by
      cases last with
      | none => rfl
      | some a =>
        refine Function.update_of_ne ?_ _ _
        rintro rfl
        exact hb w List.mem_cons_self (hlast b rfl)
    rw [hnext b fun g hg => hsame ▸ hb g (List.mem_cons_of_mem w hg), hsame]
  · rw [hmapped, helems', hmapped', List.map_cons]
    by_cases hp : p = h.elems w
    · rw [hp, Function.update_self, if_pos List.mem_cons_self, ite_self]
    · rw [Function.update_of_ne hp]
      simp only [List.mem_cons, hp, false_or]

/-- The loop of the collector ends, and takes out the blocks all of whose elements are free. -/
theorem gcWalk_spec {fuel : ℕ} (hinv : h.Inv (kept ++ rest) seq out) (hfuel : rest.length < fuel) :
    ∃ h' seq', gcWalk fuel kept.getLast? rest.head? h = .ok h' ∧
      h'.Inv (kept ++ rest.filter fun b => !h.allFree b) seq' out ∧
      Collected h h' (rest.filter h.allFree) := by
  induction rest generalizing kept h seq fuel with
  | nil =>
    cases fuel with
    | zero => cases hfuel
    | succ fuel => exact ⟨h, seq, rfl, hinv, Collected.refl h⟩
  | cons w rest ih =>
    cases fuel with
    | zero => cases hfuel
    | succ fuel =>
      have hfuel' : rest.length < fuel := Nat.lt_of_succ_lt_succ hfuel
      rw [List.head?_cons, gcWalk]
      by_cases hfull : h.links.length (.free w) = h.elemsPerBlock
      · have hdrop := hinv.drop hfull
        have hsame : (h.dropBlock kept.getLast? w).allFree = h.allFree := by
          obtain ⟨-, hcount, hlinks, -⟩ := dropBlock_frame h kept.getLast? w
          funext b
          rw [allFree, hcount, hlinks, allFree]
        obtain ⟨h', seq', hwalk, hinv', hc⟩ := ih hdrop hfuel'
        have hfree : h.allFree w = true := decide_eq_true hfull
        rw [hsame] at hinv' hc
        refine ⟨h', seq', ?_, ?_, ?_⟩
        · rw [if_pos hfull, ← hwalk]
          have hafter := hdrop.follows.after
          cases hlast : kept.getLast? with
          | none =>
            rw [hlast] at hafter
            exact congrArg (gcWalk fuel none · _) hafter
          | some a =>
            rw [hlast] at hafter
            exact congrArg (gcWalk fuel (some a) · _) hafter
        · rw [List.filter_cons_of_neg (by simp [hfree])]
          exact hinv'
        · rw [List.filter_cons_of_pos hfree]
          refine hc.cons fun a ha => ?_
          have hafter := hinv.follows.after
          rw [ha] at hafter
          exact hafter
      · rw [if_neg hfull]
        have hbusy : h.allFree w = false := decide_eq_false hfull
        have hkept : h.Inv ((kept ++ [w]) ++ rest) seq out := by
          rw [List.append_assoc]
          exact hinv
        obtain ⟨h', seq', hwalk, hinv', hc⟩ := ih hkept hfuel'
        have hafter := hkept.follows.after
        rw [List.getLast?_concat] at hwalk hafter
        refine ⟨h', seq', ?_, ?_, ?_⟩
        · rw [← hwalk]
          exact congrArg (gcWalk fuel (some w) · h) hafter
        · rw [List.filter_cons_of_pos (by simp [hbusy])]
          rw [List.append_assoc] at hinv'
          exact hinv'
        · rw [List.filter_cons_of_neg (by simp [hbusy])]
          exact hc

/-- There could not possibly be an entire free block beside another one. -/
def Idle (h : BlockHeap) : Prop := h.freeElems < h.elemsPerBlock ∨ h.blocksAllocated = 1

instance (h : BlockHeap) : Decidable h.Idle := inferInstanceAs (Decidable (_ ∨ _))

theorem blockheapGarbagecollect_idle (hidle : h.Idle) : blockheapGarbagecollect h = .ok h :=
  if_pos hidle

theorem blockheapGarbagecollect_of_busy (hbusy : ¬ h.Idle) :
    blockheapGarbagecollect h = gcWalk (h.blocks.length + 1) none h.base h := if_neg hbusy

theorem blockheapGarbagecollect_busy (hinv : h.Inv chain seq out) (hbusy : ¬ h.Idle) :
    ∃ h' seq', blockheapGarbagecollect h = .ok h' ∧
      h'.Inv (chain.filter fun b => !h.allFree b) seq' out ∧
      Collected h h' (chain.filter h.allFree) := by
  have hstart := hinv.follows.start
  rw [Option.or_none] at hstart
  rw [blockheapGarbagecollect_of_busy hbusy, hstart]
  exact @gcWalk_spec h out seq [] chain _ hinv (Nat.lt_succ_of_le hinv.length_chain_le)

theorem blockheapGarbagecollect_spec (hinv : h.Inv chain seq out) :
    ∃ h' chain' seq', blockheapGarbagecollect h = .ok h' ∧ h'.Inv chain' seq' out ∧
      h'.elemSize = h.elemSize := by
  by_cases hidle : h.Idle
  · exact ⟨h, chain, seq, blockheapGarbagecollect_idle hidle, hinv, rfl⟩
  · obtain ⟨h', seq', hrun, hinv', hc⟩ := blockheapGarbagecollect_busy hinv hidle
    exact ⟨h', _, seq', hrun, hinv', hc.elemSize⟩

end Collect

end BlockHeap

end JailFs
