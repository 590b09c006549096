import JailFs.BlockHeapRun

/-!
# What the calls of a block heap leave alone

The memory may hold more than one heap. `Beside h chain bs` says that the blocks `bs` stand beside
those of `chain`, and `Keeps h chain h' chain'` that a call on the heap of `chain` does not touch
whatever blocks stand beside it. One lemma for each function says so.
-/

namespace JailFs

open DList DlinkMem

namespace BlockHeap

/-- `n` bytes at `p` lie in the region of one of the blocks. -/
def InBlocks (h : BlockHeap) (bs : List ℕ) (p n : ℕ) : Prop := ∃ b ∈ bs, h.inRegion b p n = true

/-- The blocks `bs`, their lists and what their regions hold are the same in both. -/
structure Untouched (h h' : BlockHeap) (bs : List ℕ) : Prop where
  inUse : ∀ b ∈ bs, b ∈ h'.blocks
  next : ∀ b ∈ bs, h'.next b = h.next b
  elems : ∀ b ∈ bs, h'.elems b = h.elems b
  allocSize : ∀ b ∈ bs, h'.allocSize b = h.allocSize b
  mapped : ∀ b ∈ bs, h'.mapped (h.elems b) = h.mapped (h.elems b)
  links : h.links.Agrees h'.links (h.InBlocks bs · sizeofMemBlock) (·.block ∈ bs)
  owner : ∀ m, h.InBlocks bs m sizeofMemBlock → h'.owner m = h.owner m
  byte : ∀ a, h.InBlocks bs a 1 → h'.byte a = h.byte a

/-- No block is in both lists, and no region of the one meets a region of the other. -/
structure Apart (h : BlockHeap) (chain bs : List ℕ) : Prop where
  disjoint : chain.Disjoint bs
  regions : ∀ b ∈ chain, ∀ b' ∈ bs, ∀ p n q k, h.inRegion b p n = true →
    h.inRegion b' q k = true → p + n ≤ q ∨ q + k ≤ p

/-- The blocks `bs` are in use, with regions of their own, and their chain stays among them. -/
structure Beside (h : BlockHeap) (chain bs : List ℕ) : Prop extends h.Apart chain bs where
  inUse : ∀ b ∈ bs, b ∈ h.blocks
  closed : ∀ b ∈ bs, ∀ b', h.next b = some b' → b' ∈ bs
  room : ∀ b ∈ bs, h.inRegion b (h.elems b) sizeofMemBlock = true

/-- Whatever stands beside `chain` is not touched, and stands beside `chain'` afterwards. -/
def Keeps (h : BlockHeap) (chain : List ℕ) (h' : BlockHeap) (chain' : List ℕ) : Prop :=
  ∀ bs, h.Beside chain bs → h.Untouched h' bs ∧ h'.Beside chain' bs

variable {h h' h'' : BlockHeap} {chain chain' chain'' bs out : List ℕ}
  {seq : BlockList → List ℕ} {b m p w n len : ℕ} {env : BlockEnv}

section Basics

theorem Apart.symm (ha : h.Apart chain bs) : h.Apart bs chain where
  disjoint := List.disjoint_symm ha.disjoint
  regions b hb b' hb' p n q k hp hq := (ha.regions b' hb' b hb q k p n hq hp).symm

theorem Untouched.inRegion (hu : h.Untouched h' bs) (hb : b ∈ bs) (p n : ℕ) :
    h'.inRegion b p n = h.inRegion b p n := by
  rw [BlockHeap.inRegion, BlockHeap.inRegion, hu.elems b hb, hu.mapped b hb]

theorem Untouched.inBlocks_iff (hu : h.Untouched h' bs) :
    h'.InBlocks bs p n ↔ h.InBlocks bs p n := by
  constructor
  · rintro ⟨b, hb, hin⟩
    exact ⟨b, hb, (hu.inRegion hb p n).symm.trans hin⟩
  · rintro ⟨b, hb, hin⟩
    exact ⟨b, hb, (hu.inRegion hb p n).trans hin⟩

theorem Untouched.refl (hu : ∀ b ∈ bs, b ∈ h.blocks) : h.Untouched h bs :=
  ⟨hu, fun _ _ => rfl, fun _ _ => rfl, fun _ _ => rfl, fun _ _ => rfl, Agrees.refl _ _ _,
    fun _ _ => rfl, fun _ _ => rfl⟩

theorem Untouched.trans (hu : h.Untouched h' bs) (hu' : h'.Untouched h'' bs) :
    h.Untouched h'' bs where
  inUse := hu'.inUse
  next b hb := (hu'.next b hb).trans (hu.next b hb)
  elems b hb := (hu'.elems b hb).trans (hu.elems b hb)
  allocSize b hb := (hu'.allocSize b hb).trans (hu.allocSize b hb)
  mapped b hb := by
    rw [← hu.mapped b hb, ← hu.elems b hb]
    exact hu'.mapped b hb
  links := by
    refine hu.links.trans ?_
    have hlinks := hu'.links
    simp only [hu.inBlocks_iff] at hlinks
    exact hlinks
  owner m hm := (hu'.owner m (hu.inBlocks_iff.mpr hm)).trans (hu.owner m hm)
  byte a ha := (hu'.byte a (hu.inBlocks_iff.mpr ha)).trans (hu.byte a ha)

/-- Blocks that were not touched are beside a chain that keeps clear of them. -/
theorem Beside.of_untouched (hb : h.Beside chain bs) (hu : h.Untouched h' bs)
    (hd : chain'.Disjoint bs)
    (hregions : ∀ b ∈ chain', ∀ b' ∈ bs, ∀ p n q k, h'.inRegion b p n = true →
      h.inRegion b' q k = true → p + n ≤ q ∨ q + k ≤ p) : h'.Beside chain' bs where
  disjoint := hd
  regions b hb b' hb' p n q k hp hq :=
    hregions b hb b' hb' p n q k hp ((hu.inRegion hb' q k).symm.trans hq)
  inUse := hu.inUse
  closed b hmem b' hnext := hb.closed b hmem b' ((hu.next b hmem).symm.trans hnext)
  room b hmem := by
    rw [hu.inRegion hmem, hu.elems b hmem]
    exact hb.room b hmem

theorem Keeps.refl (h : BlockHeap) (chain : List ℕ) : h.Keeps chain h chain :=
  fun _ hb => ⟨Untouched.refl hb.inUse, hb⟩

theorem Keeps.trans (hk : h.Keeps chain h' chain') (hk' : h'.Keeps chain' h'' chain'') :
    h.Keeps chain h'' chain'' := by
  intro bs hb
  obtain ⟨hu, hb'⟩ := hk bs hb
  obtain ⟨hu', hb''⟩ := hk' bs hb'
  exact ⟨hu.trans hu', hb''⟩

theorem keeps_of_regions (hu : ∀ bs, h.Beside chain bs → h.Untouched h' bs)
    (hregion : ∀ b p n, h'.inRegion b p n = h.inRegion b p n) : h.Keeps chain h' chain := by
  intro bs hb
  refine ⟨hu bs hb, hb.of_untouched (hu bs hb) hb.disjoint fun b hmem b' hb' p n q k hp hq => ?_⟩
  exact hb.regions b hmem b' hb' p n q k ((hregion b p n).symm.trans hp) hq

/-- What lies in a region of the chain lies in no region beside it. -/
theorem Beside.not_inBlocks (hb : h.Beside chain bs) (hmem : b ∈ chain) (hn : 0 < n)
    (hin : h.inRegion b p n = true) : ¬ h.InBlocks bs p n := by
  rintro ⟨b', hb', hin'⟩
  have hsep := hb.regions b hmem b' hb' p n p n hin hin'
  omega

end Basics

section Elements

theorem fill_keeps (hb : b ∈ chain) (hfit : h.inRegion b p n = true) (v : ℕ → UInt8) :
    h.Keeps chain (h.fill p n v) chain := by
  refine keeps_of_regions (fun bs hbs => ?_) fun _ _ _ => rfl
  have hclear {m : ℕ} (hm : h.InBlocks bs m sizeofMemBlock) : overlaps m p n = false := by
    obtain ⟨b', hb', hin⟩ := hm
    have hsep := hbs.regions b hb b' hb' _ _ _ _ hfit hin
    rw [overlaps, Bool.and_eq_false_iff, decide_eq_false_iff_not, decide_eq_false_iff_not]
    omega
  have hkeep {m : ℕ} (hm : h.InBlocks bs m sizeofMemBlock) :=
    @fill_of_not_overlaps h m p n v (hclear hm)
  refine ⟨hbs.inUse, fun _ _ => rfl, fun _ _ => rfl, fun _ _ => rfl, fun _ _ => rfl,
    ⟨fun m hm => (hkeep hm).1, fun m hm => (hkeep hm).2.1, fun m hm => (hkeep hm).2.2.1,
      fun _ _ => rfl, fun _ _ => rfl, fun _ _ => rfl⟩, fun m hm => (hkeep hm).2.2.2, ?_⟩
  rintro a ⟨b', hb', hin⟩
  have hsep := hbs.regions b hb b' hb' _ _ _ _ hfit hin
  exact if_neg (by omega)

theorem Inv.move_keeps (hinv : h.Inv chain seq out) (old new : BlockList)
    (hold : old.block ∈ chain) (hnew : new.block ∈ chain) (hm : m ∈ seq old) (n : ℕ) :
    h.Keeps chain { h with
      freeElems := n
      links := dlinkMove h.links (some m) (some old) (some new) } chain := by
  refine keeps_of_regions (fun bs hbs => ?_) fun _ _ _ => rfl
  refine ⟨hbs.inUse, fun _ _ => rfl, fun _ _ => rfl, fun _ _ => rfl, fun _ _ => rfl, ?_,
    fun _ _ => rfl, fun _ _ => rfl⟩
  refine hinv.shape.move_agrees hold hnew hm ⟨hbs.disjoint hold, hbs.disjoint hnew⟩ fun a ha => ?_
  have hlisted : ∃ list, a ∈ seq list := by
    rcases ha with ha | ha
    · exact ⟨old, ha⟩
    · exact ⟨new, ha⟩
  obtain ⟨list, hlist⟩ := hlisted
  obtain ⟨hmem, hheader⟩ := hinv.mem_headers_of_mem hlist
  exact hbs.not_inBlocks hmem (by decide) (hinv.mapped _ hmem a hheader)

theorem Inv.take_keeps (hinv : h.Inv chain seq out) (hw : w ∈ chain)
    (hrun : h.take w = .ok (h', p)) : h.Keeps chain h' chain := by
  unfold BlockHeap.take at hrun
  split at hrun
  · cases hrun
  · next node hhead =>
    have hmem : node ∈ seq (.free w) := by
      rw [hinv.shape.head (.free w) hw] at hhead
      exact List.mem_of_head? hhead
    have hmove := hinv.move_keeps (.free w) (.used w) hw hw hmem (h.freeElems - 1)
    dsimp only at hrun
    split at hrun
    · cases hrun
    · next data _ =>
      split_ifs at hrun with hfit
      cases hrun
      exact hmove.trans (fill_keeps hw hfit _)

theorem Inv.free_keeps (hinv : h.Inv chain seq out) (hp : p ∈ out)
    (hrun : blockheapFree h (some p) = .ok (h', 0)) : h.Keeps chain h' chain := by
  obtain ⟨b, hb, m, hm, rfl⟩ := hinv.mem_out hp
  have hheader := hinv.mem_headers hb (.inr hm)
  have hfit := hinv.fits b hb m hm
  have hfilled := hinv.fill hb hheader hfit fun _ => 0
  have howner := (hinv.element b hb m hheader).2
  have howner' := (hfilled.element b hb m hheader).2
  rw [blockheapFree_eq howner hfit howner'] at hrun
  cases hrun
  exact (fill_keeps hb hfit _).trans (hfilled.move_keeps (.used b) (.free b) hb hb hm _)

end Elements

section Blocks

theorem Beside.elems_ne (hbs : h.Beside chain bs) (hinv : h.Inv chain seq out) (hw : w ∈ chain)
    (hb : b ∈ bs) : h.elems b ≠ h.elems w := by
  intro heq
  obtain ⟨len, hmapped, hle⟩ := hinv.region_start hw
  have hin : h.inRegion w (h.elems w) sizeofMemBlock = true :=
    inRegion_iff.mpr ⟨len, hmapped, le_rfl, Nat.add_le_add_left hle _⟩
  have hsep := hbs.regions w hw b hb _ _ _ _ hin (hbs.room b hb)
  have hpos : 0 < sizeofMemBlock := Nat.succ_pos _
  omega

theorem Inv.garbagecollect_keeps (hinv : h.Inv chain seq out)
    (hrun : blockheapGarbagecollect h = .ok h') :
    ∃ chain' seq', h'.Inv chain' seq' out ∧ h.Keeps chain h' chain' := by
  by_cases hidle : h.Idle
  · rw [blockheapGarbagecollect_idle hidle] at hrun
    cases hrun
    exact ⟨chain, seq, hinv, Keeps.refl h chain⟩
  · obtain ⟨h₁, seq', hok, hinv', hc⟩ := blockheapGarbagecollect_busy hinv hidle
    rw [hrun] at hok
    cases hok
    refine ⟨_, seq', hinv', fun bs hbs => ?_⟩
    have hgone {b : ℕ} (hb : b ∈ bs) : b ∉ chain.filter h.allFree := fun hmem =>
      hbs.disjoint (List.mem_of_mem_filter hmem) hb
    have hmapped {b : ℕ} (hb : b ∈ bs) : h'.mapped (h.elems b) = h.mapped (h.elems b) := by
      rw [hc.mapped, if_neg]
      intro hmem
      obtain ⟨w, hw, heq⟩ := List.mem_map.mp hmem
      exact hbs.elems_ne hinv (List.mem_of_mem_filter hw) hb heq.symm
    have hu : h.Untouched h' bs := by
      refine ⟨fun b hb => hc.blocks b (hbs.inUse b hb) (hgone hb), fun b hb => hc.next b ?_,
        fun b _ => congrFun hc.elems b, fun b _ => congrFun hc.allocSize b, fun b hb => hmapped hb,
        hc.links ▸ Agrees.refl _ _ _, fun m _ => congrFun hc.owner m,
        fun a _ => congrFun hc.byte a⟩
      exact fun w hw hnext => hgone (hbs.closed b hb w hnext) hw
    refine ⟨hu, hbs.of_untouched hu ?_ ?_⟩
    · exact fun b hb => hbs.disjoint (List.mem_of_mem_filter hb)
    · intro b hb b' hb' p n q k hp
      refine hbs.regions b (List.mem_of_mem_filter hb) b' hb' p n q k ?_
      obtain ⟨len, hlen, hfit⟩ := inRegion_iff.mp hp
      rw [hc.elems] at hlen hfit
      rw [hc.mapped] at hlen
      split_ifs at hlen
      exact inRegion_iff.mpr ⟨len, hlen, hfit⟩

theorem callocBlock_keeps (hb : b ∉ h.blocks) : h.Keeps chain (h.callocBlock b) chain := by
  refine keeps_of_regions (fun bs hbs => ?_) fun _ _ _ => rfl
  have hne {b' : ℕ} (hb' : b' ∈ bs) : b' ≠ b := ne_of_mem_of_not_mem (hbs.inUse b' hb') hb
  have hlists {list : BlockList} (hl : list.block ∈ bs) :=
    (callocBlock_lists h b list).2 (hne hl)
  refine ⟨fun b' hb' => List.mem_cons_of_mem b (hbs.inUse b' hb'),
    fun b' hb' => Function.update_of_ne (hne hb') _ _, fun _ _ => rfl,
    fun b' hb' => Function.update_of_ne (hne hb') _ _, fun _ _ => rfl, ?_, fun _ _ => rfl,
    fun _ _ => rfl⟩
  exact ⟨fun _ _ => rfl, fun _ _ => rfl, fun _ _ => rfl, fun list hl => (hlists hl).1,
    fun list hl => (hlists hl).2.1, fun list hl => (hlists hl).2.2⟩

theorem region_clear (hvalid : env.Valid h) (helems : env.elems = some (p, len)) {q k : ℕ}
    (hin : h.InBlocks bs q k) : p + len ≤ q ∨ q + k ≤ p := by
  obtain ⟨b, -, hin⟩ := hin
  obtain ⟨len', hmapped, hlo, hhi⟩ := inRegion_iff.mp hin
  have hapart := hvalid.apart p len helems _ _ hmapped
  omega

/-- A new block with its region does not touch what stands beside the chain. -/
theorem Beside.threaded (hbs : h.Beside chain bs) (hvalid : env.Valid h) (hb : b ∉ h.blocks)
    (helems : env.elems = some (p, len)) (ht : Threaded h h' b p len chain seq) :
    h.Untouched (h'.linkBlock b) bs := by
  have hnew : b ∉ bs := fun hmem => hb (hbs.inUse b hmem)
  have hne {b' : ℕ} (hb' : b' ∈ bs) : b' ≠ b := ne_of_mem_of_not_mem hb' hnew
  have hpos : 0 < sizeofMemBlock := Nat.succ_pos _
  have houtside {m : ℕ} (hm : h.InBlocks bs m sizeofMemBlock) :
      ¬ (p ≤ m ∧ m + sizeofMemBlock ≤ p + len) := by
    have hclear := region_clear hvalid helems hm
    omega
  constructor
  case inUse =>
    intro b' hb'
    change b' ∈ h'.blocks
    rw [ht.blocks]
    exact List.mem_cons_of_mem b (hbs.inUse b' hb')
  case next =>
    intro b' hb'
    change h'.next b' = _
    rw [ht.next, Function.update_of_ne (hne hb')]
  case elems =>
    intro b' hb'
    change h'.elems b' = _
    rw [ht.elems, Function.update_of_ne (hne hb')]
  case allocSize =>
    intro b' hb'
    change h'.allocSize b' = _
    rw [ht.allocSize, Function.update_of_ne (hne hb')]
  case mapped =>
    intro b' hb'
    change h'.mapped _ = _
    rw [ht.mapped]
    refine Function.update_of_ne (fun heq => ?_) _ _
    have hclear := region_clear hvalid helems ⟨b', hb', hbs.room b' hb'⟩
    have hroom := ht.room
    omega
  case links =>
    exact (callocBlock_keeps hb bs hbs).1.links.trans
      (ht.agrees _ _ hnew fun m hin hm => houtside hm hin)
  case owner =>
    intro m hm
    exact (ht.other m fun hmem => houtside hm (ht.inside m hmem)).2
  case byte =>
    intro a _
    change h'.byte a = _
    rw [ht.byte]

theorem Inv.grow_keeps (hinv : h.Inv chain seq out) (hvalid : env.Valid h) (hb : b ∉ h.blocks)
    (helems : env.elems = some (p, len))
    (hrun : initElems b h.elemsPerBlock p ((h.callocBlock b).mapBlock b p len) = .ok h') :
    h.Keeps chain (h'.linkBlock b) (b :: chain) := by
  intro bs hbs
  have hchain : b ∉ chain := fun hmem => hb (hinv.inUse b hmem)
  have ht := hinv.threaded hvalid hchain helems hrun
  have hu := hbs.threaded hvalid hb helems ht
  refine ⟨hu, hbs.of_untouched hu ?_ ?_⟩
  · exact List.disjoint_cons_left.mpr ⟨fun hmem => hb (hbs.inUse b hmem), hbs.disjoint⟩
  · intro b₁ hb₁ b' hb' q k q' k' hq hq'
    rcases List.mem_cons.mp hb₁ with rfl | hold
    · rw [ht.inRegion_new] at hq
      have hclear := region_clear hvalid helems ⟨b', hb', hq'⟩
      omega
    · rw [hinv.inRegion_old hvalid helems ht.room ht.toGrew hchain hold] at hq
      exact hbs.regions b₁ hold b' hb' q k q' k' hq hq'

theorem Inv.blockNew_keeps (hinv : h.Inv chain seq out) (hvalid : env.Valid h) {failed : Bool}
    (hrun : blockheapBlockNew h env = .ok (h', failed)) :
    ∃ chain' seq', h'.Inv chain' seq' out ∧ h.Keeps chain h' chain' := by
  have hnew {b : ℕ} (hblock : env.block = some b) : b ∉ chain := fun hmem =>
    hvalid.block b hblock (hinv.inUse b hmem)
  rcases blockheapBlockNew_cases hrun with ⟨-, rfl⟩ | ⟨b, hblock, -, rfl⟩ |
    ⟨b, p, len, h₃, hblock, helems, -, hinit, rfl⟩
  · exact ⟨chain, seq, hinv, Keeps.refl h' chain⟩
  · exact ⟨chain, seq, hinv.callocBlock (hnew hblock), callocBlock_keeps (hvalid.block b hblock)⟩
  · exact ⟨_, _, (hinv.grow hvalid (hnew hblock) helems hinit).2.2,
      hinv.grow_keeps hvalid (hvalid.block b hblock) helems hinit⟩

theorem Inv.findFree_mem (hinv : h.Inv chain seq out)
    (hfind : h.findFree (h.blocks.length + 1) h.base = .ok w) :
    w ∈ chain ∧ 0 < h.links.length (.free w) := by
  rw [findFree_eq hinv.follows (Nat.lt_succ_of_le hinv.length_chain_le)] at hfind
  split at hfind
  · cases hfind
  · next b hb =>
    cases hfind
    have hfree := List.find?_some hb
    exact ⟨List.mem_of_find?_eq_some hb, of_decide_eq_true hfree⟩

theorem Inv.alloc_keeps (hinv : h.Inv chain seq out) (hvalid : env.Valid h)
    (hrun : blockheapAlloc h env = .ok (h', p)) :
    ∃ chain' seq', h'.Inv chain' seq' (p :: out) ∧ h.Keeps chain h' chain' := by
  obtain ⟨h₁, w, hready, hfind, htake⟩ := blockheapAlloc_cases hrun
  obtain ⟨chain₁, seq₁, hinv₁, hkeeps₁⟩ : ∃ chain₁ seq₁, h₁.Inv chain₁ seq₁ out ∧
      h.Keeps chain h₁ chain₁ := by
    rcases hready with rfl | hnew | ⟨h₀, hnew, hgc⟩
    · exact ⟨chain, seq, hinv, Keeps.refl h₁ chain⟩
    · exact hinv.blockNew_keeps hvalid hnew
    · obtain ⟨chain₀, seq₀, hinv₀, hkeeps₀⟩ := hinv.blockNew_keeps hvalid hnew
      obtain ⟨chain₁, seq₁, hinv₁, hkeeps₁⟩ := hinv₀.garbagecollect_keeps hgc
      exact ⟨chain₁, seq₁, hinv₁, hkeeps₀.trans hkeeps₁⟩
  obtain ⟨hw, hfree⟩ := hinv₁.findFree_mem hfind
  rcases take_spec hinv₁ hw hfree with herr | ⟨h₂, m, hok, -, hinv₂, -⟩
  · rw [htake] at herr
    cases herr
  · rw [htake] at hok
    cases hok
    exact ⟨chain₁, _, hinv₂, hkeeps₁.trans (hinv₁.take_keeps hw htake)⟩

end Blocks

end BlockHeap

theorem HeapStep.keeps {s t : HeapState} {c : HeapCall} {chain : List ℕ}
    {seq : BlockList → List ℕ} (hinv : s.heap.Inv chain seq s.out) (hstep : HeapStep s c t) :
    ∃ chain' seq', t.heap.Inv chain' seq' t.out ∧ s.heap.Keeps chain t.heap chain' := by
  cases hstep with
  | alloc hvalid hrun => exact hinv.alloc_keeps hvalid hrun
  | free hp hrun =>
    obtain ⟨h', seq', hok, hinv', -⟩ := BlockHeap.blockheapFree_spec hinv hp
    have hkeeps := hinv.free_keeps hp hrun
    rw [hrun] at hok
    cases hok
    exact ⟨chain, seq', hinv', hkeeps⟩
  | garbagecollect hrun => exact hinv.garbagecollect_keeps hrun
  | write hp v =>
    obtain ⟨b, hb, m, hm, rfl⟩ := hinv.mem_out hp
    have hfit := hinv.fits b hb m hm
    exact ⟨chain, seq, hinv.fill hb (hinv.mem_headers hb (.inr hm)) hfit v,
      BlockHeap.fill_keeps hb hfit v⟩

end JailFs
