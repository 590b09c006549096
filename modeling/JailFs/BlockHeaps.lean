import JailFs.BlockHeapFrame
import JailFs.BlockHeapCollect
import JailFs.BlockHeapLayout

/-!
# Several block heaps in one memory

A run creates heaps and calls them in any order. The heaps share the memory, and each of them has
its own counters and the base of its own chain. In every state that a run reaches, each heap has the
invariant of a heap, and no two of them meet (`run_heaps`). `blockheap_free` takes an element
without asking which heap it is from: `foreign_freed` says what comes of it.
-/

namespace JailFs

open DList DlinkMem BlockHeap

/-- The `BlockHeap` structure of one heap. -/
structure HeapHeader where
  elemSize : ℕ
  elemsPerBlock : ℕ
  blocksAllocated : ℕ
  freeElems : ℕ
  base : Option ℕ

/-- The memory that the heaps have in common. -/
structure HeapMemory where
  blocks : List ℕ
  next : ℕ → Option ℕ
  elems : ℕ → ℕ
  allocSize : ℕ → ℕ
  links : DlinkMem BlockList
  owner : ℕ → Option ℕ
  byte : ℕ → UInt8
  mapped : ℕ → Option ℕ

/-- A heap as the functions of `balloc.c` see it. -/
def HeapMemory.heap (mem : HeapMemory) (d : HeapHeader) : BlockHeap :=
  { mem with
    elemSize := d.elemSize, elemsPerBlock := d.elemsPerBlock
    blocksAllocated := d.blocksAllocated, freeElems := d.freeElems, base := d.base }

def BlockHeap.header (h : BlockHeap) : HeapHeader :=
  ⟨h.elemSize, h.elemsPerBlock, h.blocksAllocated, h.freeElems, h.base⟩

def BlockHeap.memory (h : BlockHeap) : HeapMemory :=
  ⟨h.blocks, h.next, h.elems, h.allocSize, h.links, h.owner, h.byte, h.mapped⟩

/-- `blockheap_create` in memory that may hold other heaps. -/
def blockheapCreateIn (elemsize : ℕ) (elemsperblock : ℤ) (mem : HeapMemory) (env : BlockEnv) :
    Except HeapError BlockHeap :=
  if elemsize = 0 ∨ elemsperblock ≤ 0 then .error .idiotic
  else
    let elemsize :=
      if elemsize % sizeofVoidPtr ≠ 0 then
        (elemsize + sizeofVoidPtr) % 2 ^ 64 / sizeofVoidPtr * sizeofVoidPtr
      else elemsize
    match blockheapBlockNew (mem.heap ⟨elemsize, elemsperblock.toNat, 0, 0, none⟩) env with
    | .error e => .error e
    | .ok (_, true) => .error .noMemory
    | .ok (h, false) => .ok h

/-- `blockheapCreate` is the case of memory without blocks. -/
example (elemsize : ℕ) (elemsperblock : ℤ) (mem : BlockHeap) (env : BlockEnv) :
    blockheapCreate elemsize elemsperblock mem env =
      blockheapCreateIn elemsize elemsperblock
        { mem.memory with blocks := [], mapped := fun _ => none } env := rfl

/-- Heaps in one memory, each with its elements that are handed out. -/
structure Heaps where
  mem : HeapMemory
  heaps : List (HeapHeader × List ℕ)

inductive HeapsCall
  | create (elemsize : ℕ) (elemsperblock : ℤ) (env : BlockEnv)
  | call (i : ℕ) (c : HeapCall)

inductive HeapsStep : Heaps → HeapsCall → Heaps → Prop
  | create {s : Heaps} {elemsize : ℕ} {elemsperblock : ℤ} {env : BlockEnv} {h : BlockHeap}
      (hvalid : ∀ d, env.Valid (s.mem.heap d))
      (hrun : blockheapCreateIn elemsize elemsperblock s.mem env = .ok h) :
      HeapsStep s (.create elemsize elemsperblock env) ⟨h.memory, s.heaps ++ [(h.header, [])]⟩
  | call {s : Heaps} {i : ℕ} {d : HeapHeader} {out : List ℕ} {c : HeapCall} {t : HeapState}
      (hi : s.heaps[i]? = some (d, out)) (hstep : HeapStep ⟨s.mem.heap d, out⟩ c t) :
      HeapsStep s (.call i c) ⟨t.heap.memory, s.heaps.set i (t.heap.header, t.out)⟩

namespace Heaps

/-- Each heap has its chain and its lists, and the chains keep apart. -/
structure Inv (s : Heaps) (chain : ℕ → List ℕ) (seq : ℕ → BlockList → List ℕ) : Prop where
  heap : ∀ i d out, s.heaps[i]? = some (d, out) → (s.mem.heap d).Inv (chain i) (seq i) out
  apart : ∀ i j x y, i ≠ j → s.heaps[i]? = some x → s.heaps[j]? = some y →
    (s.mem.heap x.1).Apart (chain i) (chain j)

/-- `blockheap_free` of one of the heaps. -/
def free (s : Heaps) (i p : ℕ) : Option (Except HeapError (Heaps × ℕ)) :=
  s.heaps[i]?.map fun x => (blockheapFree (s.mem.heap x.1) (some p)).map fun r =>
    (⟨r.1.memory, s.heaps.set i (r.1.header, x.2)⟩, r.2)

/-- What `blockheap_free` says of an element that is not contained in the heap, here of one at `p`
that the heap `j` has handed out: it returns 1, and the counters and the lists of both heaps and the
element are as they were. -/
def RejectsForeign (s : Heaps) (i j p : ℕ) : Prop :=
  ∃ t, s.free i p = some (.ok (t, 1)) ∧
    (∀ k, k = i ∨ k = j → t.heaps[k]? = s.heaps[k]?) ∧
    (∀ b ∈ s.mem.blocks, t.mem.next b = s.mem.next b) ∧
    (∀ list l, list.block ∈ s.mem.blocks → s.mem.links.Describes list l →
      t.mem.links.Describes list l) ∧
    ∀ x, s.heaps[j]? = some x → ∀ k < x.1.elemSize, t.mem.byte (p + k) = s.mem.byte (p + k)

end Heaps

section Apart

variable {mem : HeapMemory} {d d' : HeapHeader} {h h' : BlockHeap} {chain bs out : List ℕ}
  {seq : BlockList → List ℕ}

theorem BlockHeap.Inv.beside (hinv : (mem.heap d').Inv bs seq out)
    (ha : (mem.heap d).Apart chain bs) : (mem.heap d).Beside chain bs where
  toApart := ha
  inUse := hinv.inUse
  closed b hb b' hnext := by
    obtain ⟨before, after, rfl⟩ := List.append_of_mem hb
    have hfollows := hinv.follows
    rw [follows_append] at hfollows
    obtain ⟨q, -, -, hrest⟩ := hfollows
    have hstart := hrest.start
    rw [Option.or_none] at hstart
    have hhead : after.head? = some b' := hstart.symm.trans hnext
    exact List.mem_append_right _ (List.mem_cons_of_mem b (List.mem_of_head? hhead))
  room b hb := by
    obtain ⟨len, hmapped, hle⟩ := hinv.region_start hb
    exact inRegion_iff.mpr ⟨len, hmapped, le_rfl, Nat.add_le_add_left hle _⟩

theorem BlockHeap.Untouched.inv (hu : (mem.heap d).Untouched h' bs)
    (hinv : (mem.heap d').Inv bs seq out) : (h'.memory.heap d').Inv bs seq out := by
  have hregion {b : ℕ} (hb : b ∈ bs) (p n : ℕ) :
      (h'.memory.heap d').inRegion b p n = (mem.heap d').inRegion b p n := hu.inRegion hb p n
  have hheaders {b : ℕ} (hb : b ∈ bs) :
      (h'.memory.heap d').headers b = (mem.heap d').headers b := by
    rw [headers, headers]
    exact congrArg _ (hu.elems b hb)
  have hin {b m : ℕ} (hb : b ∈ bs) (hm : m ∈ (mem.heap d').headers b) :
      (mem.heap d).InBlocks bs m sizeofMemBlock := ⟨b, hb, hinv.mapped b hb m hm⟩
  constructor
  case positive => exact hinv.positive
  case follows => exact hinv.follows.congr hu.next
  case nodup => exact hinv.nodup
  case inUse => exact hu.inUse
  case shape =>
    refine hu.links.shape hinv.shape (fun list hl => hl) fun list a ha => ?_
    obtain ⟨hlive, hmem⟩ := hinv.mem_headers_of_mem ha
    exact hin hlive hmem
  case headers =>
    intro b hb
    rw [hheaders hb]
    exact hinv.headers b hb
  case element =>
    intro b hb m hm
    rw [hheaders hb] at hm
    have hmem := hin hb hm
    obtain ⟨hdata, howner⟩ := hinv.element b hb m hm
    exact ⟨(hu.links.data m hmem).trans hdata, (hu.owner m hmem).trans howner⟩
  case mapped =>
    intro b hb m hm
    rw [hheaders hb] at hm
    exact (hregion hb _ _).trans (hinv.mapped b hb m hm)
  case apart =>
    intro b hb b' hb' hne p n q k hp hq
    rw [hregion hb] at hp
    rw [hregion hb'] at hq
    exact hinv.apart b hb b' hb' hne p n q k hp hq
  case blocksAllocated => exact hinv.blocksAllocated
  case freeElems => exact hinv.freeElems
  case out => exact hinv.out
  case fits =>
    intro b hb m hm
    exact (hregion hb _ _).trans (hinv.fits b hb m hm)

theorem BlockHeap.Apart.of_untouched (ha : h.Apart chain bs) (hu : h.Untouched h' chain)
    (hu' : h.Untouched h' bs) : h'.Apart chain bs where
  disjoint := ha.disjoint
  regions b hb b' hb' p n q k hp hq :=
    ha.regions b hb b' hb' p n q k ((hu.inRegion hb p n).symm.trans hp)
      ((hu'.inRegion hb' q k).symm.trans hq)

end Apart

section Run

variable {s t : Heaps} {chain : ℕ → List ℕ} {seq : ℕ → BlockList → List ℕ} {c : HeapsCall}
  {mem : HeapMemory} {calls : List HeapsCall}

theorem Heaps.Inv.update (hinv : s.Inv chain seq) {i : ℕ} {d : HeapHeader} {h : BlockHeap}
    {chain₀ chain₁ out : List ℕ} {seq₁ : BlockList → List ℕ}
    (hkeeps : (s.mem.heap d).Keeps chain₀ h chain₁) (hnew : h.Inv chain₁ seq₁ out)
    (hothers : ∀ j x, j ≠ i → s.heaps[j]? = some x → (s.mem.heap d).Apart chain₀ (chain j))
    (hmem : t.mem = h.memory) (hi : t.heaps[i]? = some (h.header, out))
    (hsame : ∀ j, j ≠ i → t.heaps[j]? = s.heaps[j]?) :
    t.Inv (Function.update chain i chain₁) (Function.update seq i seq₁) := by
  have hbeside {j : ℕ} {x : HeapHeader × List ℕ} (hj : j ≠ i) (hx : s.heaps[j]? = some x) :=
    hkeeps _ ((hinv.heap j x.1 x.2 hx).beside (hothers j x hj hx))
  constructor
  case heap =>
    intro j d' out' hj
    rw [hmem]
    by_cases hji : j = i
    · subst hji
      rw [hi] at hj
      cases hj
      rw [Function.update_self, Function.update_self]
      exact hnew
    · rw [hsame j hji] at hj
      rw [Function.update_of_ne hji, Function.update_of_ne hji]
      exact (hbeside hji hj).1.inv (hinv.heap j d' out' hj)
  case apart =>
    intro j k x y hjk hj hk
    rw [hmem]
    by_cases hji : j = i
    · subst hji
      have hkj := Ne.symm hjk
      rw [hsame k hkj] at hk
      rw [Function.update_self, Function.update_of_ne hkj]
      have ha := (hbeside hkj hk).2.toApart
      exact ⟨ha.disjoint, ha.regions⟩
    · rw [hsame j hji] at hj
      rw [Function.update_of_ne hji]
      by_cases hki : k = i
      · subst hki
        rw [Function.update_self]
        have ha := (hbeside hji hj).2.toApart.symm
        exact ⟨ha.disjoint, ha.regions⟩
      · rw [hsame k hki] at hk
        rw [Function.update_of_ne hki]
        have ha : (s.mem.heap d).Apart (chain j) (chain k) :=
          ⟨(hinv.apart j k x y hjk hj hk).disjoint, (hinv.apart j k x y hjk hj hk).regions⟩
        have ha' := ha.of_untouched (hbeside hji hj).1 (hbeside hki hk).1
        exact ⟨ha'.disjoint, ha'.regions⟩

theorem blockheapCreateIn_keeps {elemsize : ℕ} {elemsperblock : ℤ} {env : BlockEnv}
    {h : BlockHeap} (hvalid : ∀ d, env.Valid (mem.heap d))
    (hrun : blockheapCreateIn elemsize elemsperblock mem env = .ok h) :
    ∃ d chain seq, h.Inv chain seq [] ∧ (mem.heap d).Keeps [] h chain := by
  unfold blockheapCreateIn at hrun
  by_cases hidiotic : elemsize = 0 ∨ elemsperblock ≤ 0
  · rw [if_pos hidiotic] at hrun
    cases hrun
  · rw [if_neg hidiotic] at hrun
    have hpos : 0 < elemsperblock.toNat := by omega
    dsimp only at hrun
    generalize (if elemsize % sizeofVoidPtr ≠ 0 then _ else elemsize) = size at hrun
    cases hnew : blockheapBlockNew (mem.heap ⟨size, elemsperblock.toNat, 0, 0, none⟩) env with
    | error e =>
      rw [hnew] at hrun
      cases hrun
    | ok r =>
      obtain ⟨h', failed⟩ := r
      rw [hnew] at hrun
      cases failed with
      | true => cases hrun
      | false =>
        cases hrun
        have hempty : (mem.heap ⟨size, elemsperblock.toNat, 0, 0, none⟩).Inv [] (fun _ => []) [] :=
          inv_nil hpos rfl rfl rfl
        obtain ⟨chain, seq, hinv, hkeeps⟩ := hempty.blockNew_keeps (hvalid _) hnew
        exact ⟨_, chain, seq, hinv, hkeeps⟩

theorem HeapsStep.inv (hinv : s.Inv chain seq) (hstep : HeapsStep s c t) :
    ∃ chain' seq', t.Inv chain' seq' := by
  cases hstep with
  | create hvalid hrun =>
    obtain ⟨d, chain₁, seq₁, hnew, hkeeps⟩ := blockheapCreateIn_keeps hvalid hrun
    refine ⟨_, _, hinv.update (i := s.heaps.length) hkeeps hnew ?_ rfl ?_ ?_⟩
    · exact fun j x _ _ => ⟨List.disjoint_nil_left _, fun _ hb => absurd hb List.not_mem_nil⟩
    · exact List.getElem?_concat_length
    · intro j hj
      rcases Nat.lt_or_gt_of_ne hj with hlt | hgt
      · exact List.getElem?_append_left hlt
      · rw [List.getElem?_eq_none hgt.le, List.getElem?_eq_none]
        rw [List.length_append, List.length_singleton]
        exact hgt
  | @call i d out _ _ hi hstep =>
    obtain ⟨chain₁, seq₁, hnew, hkeeps⟩ := HeapStep.keeps (hinv.heap i d out hi) hstep
    refine ⟨_, _, hinv.update (i := i) hkeeps hnew ?_ rfl ?_ ?_⟩
    · exact fun j x hj hx => hinv.apart i j (d, out) x (Ne.symm hj) hi hx
    · exact List.getElem?_set_self (List.getElem?_eq_some_iff.mp hi).1
    · exact fun j hj => List.getElem?_set_ne (Ne.symm hj)

theorem Heaps.inv_nil (mem : HeapMemory) : Heaps.Inv ⟨mem, []⟩ (fun _ => []) fun _ _ => [] where
  heap i d out hi := by cases hi
  apart i j x y _ hi := by cases hi

theorem run_heaps (hrun : Exec HeapsStep ⟨mem, []⟩ calls s) : ∃ chain seq, s.Inv chain seq :=
  hrun.invariant (I := fun s => ∃ chain seq, s.Inv chain seq) ⟨_, _, Heaps.inv_nil mem⟩
    fun _ _ _ ⟨_, _, hinv⟩ hstep => hstep.inv hinv

variable {i j p : ℕ} {d d' : HeapHeader} {out out' : List ℕ}

/-- Elements of different heaps do not overlap, and a call on one heap leaves those of the others
as they are. -/
theorem heaps_apart (hrun : Exec HeapsStep ⟨mem, []⟩ calls s) (hne : i ≠ j)
    (hi : s.heaps[i]? = some (d, out)) (hj : s.heaps[j]? = some (d', out')) (hp : p ∈ out') :
    (∀ q ∈ out, q + d.elemSize ≤ p ∨ p + d'.elemSize ≤ q) ∧
    ∀ c t, HeapsStep s (.call i c) t → ∀ k < d'.elemSize,
      t.mem.byte (p + k) = s.mem.byte (p + k) := by
  obtain ⟨chain, seq, hinv⟩ := run_heaps hrun
  have hi' := hinv.heap i d out hi
  have hj' := hinv.heap j d' out' hj
  have hapart := hinv.apart i j _ _ hne hi hj
  obtain ⟨b', hb', m', hm', rfl⟩ := hj'.mem_out hp
  have hfit' := hj'.fits b' hb' m' hm'
  constructor
  · intro q hq
    obtain ⟨b, hb, m, hm, rfl⟩ := hi'.mem_out hq
    exact hapart.regions b hb b' hb' _ _ _ _ (hi'.fits b hb m hm) hfit'
  · intro c t hstep k hk
    cases hstep with
    | call hi₁ hstep =>
      rw [hi] at hi₁
      cases hi₁
      obtain ⟨chain₁, seq₁, -, hkeeps⟩ := HeapStep.keeps hi' hstep
      refine (hkeeps _ (hj'.beside hapart)).1.byte _ ⟨b', hb', ?_⟩
      obtain ⟨len, hmapped, hlo, hhi⟩ := inRegion_iff.mp hfit'
      refine inRegion_iff.mpr ⟨len, hmapped, ?_, ?_⟩
      · exact hlo.trans (Nat.le_add_right _ _)
      · change _ + d'.elemSize ≤ _ at hhi
        change _ ≤ (s.mem.heap d').elems b' + len
        omega

theorem Heaps.not_rejectsForeign (s : Heaps) (i j p : ℕ) : ¬ s.RejectsForeign i j p := by
  rintro ⟨t, hfree, -⟩
  obtain ⟨x, -, hx⟩ := Option.map_eq_some_iff.mp hfree
  cases hr : blockheapFree (s.mem.heap x.1) (some p) with
  | error e =>
    rw [hr] at hx
    cases hx
  | ok r =>
    obtain ⟨h', r⟩ := r
    obtain ⟨block, rfl, -⟩ := blockheapFree_ok hr
    rw [hr] at hx
    cases hx

/-- The heap `i` takes an element of the heap `j`: it counts one free element more, and the element
is on a free list of the heap `j`, which does not count it. -/
def Heaps.TakesForeign (s : Heaps) (i j p : ℕ) (d d' : HeapHeader) (out out' : List ℕ) : Prop :=
  ∃ t, s.free i p = some (.ok (t, 0)) ∧
    t.heaps[i]? = some ({ d with freeElems := d.freeElems + 1 }, out) ∧
    t.heaps[j]? = some (d', out') ∧
    (∃ chain, Follows s.mem.next d'.base chain none ∧ ∃ b ∈ chain, ∃ l,
      s.mem.links.Describes (.free b) l ∧
      t.mem.links.Describes (.free b) ((p - sizeofMemBlock) :: l)) ∧
    ∀ k < d.elemSize, t.mem.byte (p + k) = 0

/-- No heap rejects an element of another heap; if its own elements are not larger, it takes it. -/
theorem foreign_freed (hrun : Exec HeapsStep ⟨mem, []⟩ calls s) (hne : i ≠ j)
    (hi : s.heaps[i]? = some (d, out)) (hj : s.heaps[j]? = some (d', out')) (hp : p ∈ out') :
    ¬ s.RejectsForeign i j p ∧
      (d.elemSize ≤ d'.elemSize → s.TakesForeign i j p d d' out out') := by
  refine ⟨s.not_rejectsForeign i j p, fun hsize => ?_⟩
  obtain ⟨chain, seq, hinv⟩ := run_heaps hrun
  have hj' := hinv.heap j d' out' hj
  obtain ⟨b, hb, m, hm, rfl⟩ := hj'.mem_out hp
  have hheader := hj'.mem_headers hb (.inr hm)
  have hfit := hj'.fits b hb m hm
  have hfilled := hj'.fill_le hb hheader hfit hsize fun _ => 0
  have howner : (s.mem.heap d).owner m = some b := (hj'.element b hb m hheader).2
  have howner' : ((s.mem.heap d).fill (m + sizeofMemBlock) d.elemSize fun _ => 0).owner m =
      some b := (hfilled.element b hb m hheader).2
  have hfront : (s.mem.heap d).inRegion b (m + sizeofMemBlock) d.elemSize = true := by
    obtain ⟨len, hmapped, hlo, hhi⟩ := inRegion_iff.mp hfit
    exact inRegion_iff.mpr ⟨len, hmapped, hlo, (Nat.add_le_add_left hsize _).trans hhi⟩
  have hused : (BlockList.used b).block ∈ chain j := hb
  have hfree : (BlockList.free b).block ∈ chain j := hb
  have hmoved := (hfilled.shape.move hused hfree hm).1.describes hfree
  rw [moved_new BlockList.noConfusion] at hmoved
  obtain ⟨h', hcall, hheader', hlinks, hbyte⟩ : ∃ h', blockheapFree (s.mem.heap d)
      (some (m + sizeofMemBlock)) = .ok (h', 0) ∧
      h'.header = { d with freeElems := d.freeElems + 1 } ∧
      h'.links.Describes (.free b) (m :: seq j (.free b)) ∧
      ∀ k < d.elemSize, h'.byte (m + sizeofMemBlock + k) = 0 := by
    exact ⟨_, blockheapFree_eq howner hfront howner', rfl, hmoved,
      fun k hk => if_pos ⟨Nat.le_add_right _ _, Nat.add_lt_add_left hk _⟩⟩
  refine ⟨⟨h'.memory, s.heaps.set i (h'.header, out)⟩, ?_, ?_, ?_,
    ⟨chain j, hj'.follows, b, hb, seq j (.free b), hj'.shape.describes hfree, ?_⟩, hbyte⟩
  · rw [Heaps.free, hi, Option.map_some, hcall]
    rfl
  · rw [← hheader']
    exact List.getElem?_set_self (List.getElem?_eq_some_iff.mp hi).1
  · exact (List.getElem?_set_ne hne).trans hj
  · rw [Nat.add_sub_cancel]
    exact hlinks

end Run

section TwoHeaps

def twoHeapCalls : List HeapsCall :=
  [] ++ [.create 3 2 firstEnv] ++ [.create 3 2 secondEnv] ++ [.call 1 (.alloc noEnv 8264)]

theorem firstEnv_valid {h : BlockHeap} (hblocks : h.blocks = [])
    (hmapped : h.mapped = fun _ => none) : firstEnv.Valid h where
  block b _ := by
    rw [hblocks]
    exact List.not_mem_nil
  apart p len _ a len' ha := by
    rw [hmapped] at ha
    cases ha

theorem twoHeapCalls_run : ∃ s x y, Exec HeapsStep ⟨zeroMem.memory, []⟩ twoHeapCalls s ∧
    s.heaps[0]? = some x ∧ s.heaps[1]? = some y ∧ 8264 ∈ y.2 ∧ x.1.elemSize = 8 ∧
    y.1.elemSize = 8 :=
  ⟨_, _, _, (((Exec.nil _).snoc (.create (fun _ => firstEnv_valid rfl rfl) rfl)).snoc
    (.create (fun _ => secondEnv_valid rfl rfl) rfl)).snoc (.call rfl (.alloc (noEnv_valid _) rfl)),
    rfl, rfl, List.mem_singleton_self _, rfl, rfl⟩

theorem foreign_freed_two : ∃ s d d' out out',
    Exec HeapsStep ⟨zeroMem.memory, []⟩ twoHeapCalls s ∧ ¬ s.RejectsForeign 0 1 8264 ∧
      s.TakesForeign 0 1 8264 d d' out out' := by
  obtain ⟨s, ⟨d, out⟩, ⟨d', out'⟩, hrun, hi, hj, hp, hd, hd'⟩ := twoHeapCalls_run
  obtain ⟨hno, htakes⟩ := foreign_freed hrun (by decide) hi hj hp
  exact ⟨s, d, d', out, out', hrun, hno, htakes (hd.trans hd'.symm).le⟩

theorem heaps_apart_two : ∃ s d d' out out', Exec HeapsStep ⟨zeroMem.memory, []⟩ twoHeapCalls s ∧
    s.heaps[0]? = some (d, out) ∧ s.heaps[1]? = some (d', out') ∧ 8264 ∈ out' ∧
    (∀ q ∈ out, q + d.elemSize ≤ 8264 ∨ 8264 + d'.elemSize ≤ q) ∧
    ∀ c t, HeapsStep s (.call 0 c) t → ∀ k < d'.elemSize,
      t.mem.byte (8264 + k) = s.mem.byte (8264 + k) := by
  obtain ⟨s, ⟨d, out⟩, ⟨d', out'⟩, hrun, hi, hj, hp, -⟩ := twoHeapCalls_run
  exact ⟨s, d, d', out, out', hrun, hi, hj, hp, heaps_apart hrun (by decide) hi hj hp⟩

/-- The first heap takes the element of the second one for its own. -/
theorem foreign_not_rejected : ¬ ∀ (mem : HeapMemory) (calls : List HeapsCall) (s : Heaps)
    (i j : ℕ) (x y : HeapHeader × List ℕ), Exec HeapsStep ⟨mem, []⟩ calls s → i ≠ j →
      s.heaps[i]? = some x → s.heaps[j]? = some y → ∀ p ∈ y.2, s.RejectsForeign i j p := by
  intro hall
  obtain ⟨s, x, y, hrun, hi, hj, hp, -⟩ := twoHeapCalls_run
  exact s.not_rejectsForeign 0 1 8264
    (hall zeroMem.memory twoHeapCalls s 0 1 x y hrun (by decide) hi hj 8264 hp)

end TwoHeaps

end JailFs
