import JailFs.Dlink
import Mathlib.Algebra.Group.Nat.Defs

/-!
# The block allocator of `balloc.c`

A heap is a chain of `Block` structures, each with a mapped region that holds `elemsPerBlock` pairs
of a `MemBlock` and an element. The lists of a block thread its `MemBlock`s, which sit right before
their elements, so a write that runs over one loses what it holds (`BlockHeap.fill`).
An access outside the region of its block is a `fault`. The heap itself and the blocks come
from `calloc`, which shares no memory with `mmap`.
-/

namespace JailFs

def sizeofVoidPtr : ℕ := 8

/-- A `dlink_node` and the pointer to the block. -/
def sizeofMemBlock : ℕ := 32

inductive BlockList
  | free (block : ℕ)
  | used (block : ℕ)
  deriving DecidableEq

structure BlockHeap where
  elemSize : ℕ
  elemsPerBlock : ℕ
  blocksAllocated : ℕ
  freeElems : ℕ
  base : Option ℕ
  /-- The `Block` structures in use. -/
  blocks : List ℕ
  next : ℕ → Option ℕ
  elems : ℕ → ℕ
  allocSize : ℕ → ℕ
  links : DlinkMem BlockList
  /-- `MemBlock.block` -/
  owner : ℕ → Option ℕ
  byte : ℕ → UInt8
  /-- The regions that `mmap` has given, each by its start, with its length. -/
  mapped : ℕ → Option ℕ

/-- How a call fails to return: it ends the process, or it does not end. -/
inductive HeapError
  | idiotic
  | noMemory
  | nullData
  | noBlock
  | givingUp
  | fault
  | endless
  deriving DecidableEq

/-- What `calloc` and `mmap` answer in one `blockheap_block_new`; the region is at least as long as
asked for. -/
structure BlockEnv where
  block : Option ℕ
  elems : Option (ℕ × ℕ)

namespace BlockHeap

def stride (h : BlockHeap) : ℕ := h.elemSize + sizeofMemBlock

def inRegion (h : BlockHeap) (block p n : ℕ) : Bool :=
  match h.mapped (h.elems block) with
  | none => false
  | some len => h.elems block ≤ p && p + n ≤ h.elems block + len

def overlaps (m p n : ℕ) : Bool := m < p + n && p < m + sizeofMemBlock

def fill (h : BlockHeap) (p n : ℕ) (v : ℕ → UInt8) : BlockHeap :=
  let keep (f : ℕ → Option ℕ) (m : ℕ) : Option ℕ :=
    if overlaps m p n then none else f m
  { h with
    links := { h.links with
      data := keep h.links.data, next := keep h.links.next, prev := keep h.links.prev }
    owner := keep h.owner
    byte := fun a => if p ≤ a ∧ a < p + n then v a else h.byte a }

def callocBlock (h : BlockHeap) (b : ℕ) : BlockHeap :=
  { h with
    blocks := b :: h.blocks
    next := Function.update h.next b h.base
    allocSize := Function.update h.allocSize b ((h.elemsPerBlock + 1) * h.stride % 2 ^ 64)
    links := ((((((h.links.setHead (.free b) none).setTail (.free b) none).setLength (.free b)
      0).setHead (.used b) none).setTail (.used b) none).setLength (.used b) 0) }

def mapBlock (h : BlockHeap) (b p len : ℕ) : BlockHeap :=
  { h with elems := Function.update h.elems b p, mapped := Function.update h.mapped p (some len) }

def linkBlock (h : BlockHeap) (b : ℕ) : BlockHeap :=
  { h with
    blocksAllocated := h.blocksAllocated + 1
    freeElems := h.freeElems + h.elemsPerBlock
    base := some b }

/-- The loop of `blockheap_block_new` over the elements still to come. -/
def initElems (b : ℕ) : ℕ → ℕ → BlockHeap → Except HeapError BlockHeap
  | 0, _, h => .ok h
  | n + 1, offset, h =>
    if h.inRegion b offset sizeofMemBlock then
      initElems b n (offset + h.stride)
        { h with
          owner := Function.update h.owner offset (some b)
          links := dlinkAdd h.links (some (offset + sizeofMemBlock)) offset (.free b) }
    else .error .fault

end BlockHeap

def blockheapBlockNew (h : BlockHeap) (env : BlockEnv) : Except HeapError (BlockHeap × Bool) :=
  match env.block with
  | none => .ok (h, true)
  | some b =>
    let h := h.callocBlock b
    match env.elems with
    -- the block itself is not given back
    | none => .ok (h, true)
    | some (p, len) => do
      let h ← BlockHeap.initElems b h.elemsPerBlock p (h.mapBlock b p len)
      .ok (h.linkBlock b, false)

/-- The heap that `mem_calloc` gives for a `BlockHeap`, in memory with any contents. -/
def BlockHeap.zeroed (elemSize elemsPerBlock : ℕ) (mem : BlockHeap) : BlockHeap :=
  { mem with
    elemSize, elemsPerBlock, blocksAllocated := 0, freeElems := 0, base := none, blocks := [],
    mapped := fun _ => none }

/-- `blockheap_create`; its name and its place in `heap_lists` are left out. `mem` is the memory as
the call finds it. -/
def blockheapCreate (elemsize : ℕ) (elemsperblock : ℤ) (mem : BlockHeap) (env : BlockEnv) :
    Except HeapError BlockHeap :=
  if elemsize = 0 ∨ elemsperblock ≤ 0 then .error .idiotic
  else
    let elemsize :=
      if elemsize % sizeofVoidPtr ≠ 0 then
        (elemsize + sizeofVoidPtr) % 2 ^ 64 / sizeofVoidPtr * sizeofVoidPtr
      else elemsize
    match blockheapBlockNew (.zeroed elemsize elemsperblock.toNat mem) env with
    | .error e => .error e
    | .ok (_, true) => .error .noMemory
    | .ok (h, false) => .ok h

namespace BlockHeap

/-- A block is unmapped and taken out of the chain, where `last` is the block before it. -/
def dropBlock (h : BlockHeap) (last : Option ℕ) (walker : ℕ) : BlockHeap :=
  let h := { h with mapped := Function.update h.mapped (h.elems walker) none }
  let h :=
    match last with
    | some last => { h with next := Function.update h.next last (h.next walker) }
    | none => { h with base := h.next walker }
  { h with
    blocks := h.blocks.erase walker
    blocksAllocated := h.blocksAllocated - 1
    freeElems := h.freeElems - h.elemsPerBlock }

/-- The loop of `blockheap_garbagecollect`. One that takes more steps than there are blocks is in a
circle. -/
def gcWalk : ℕ → Option ℕ → Option ℕ → BlockHeap → Except HeapError BlockHeap
  | 0, _, _, _ => .error .endless
  | _ + 1, _, none, h => .ok h
  | fuel + 1, last, some walker, h =>
    if h.links.length (.free walker) = h.elemsPerBlock then
      let h := h.dropBlock last walker
      match last with
      | some last => gcWalk fuel (some last) (h.next last) h
      | none => gcWalk fuel none h.base h
    else gcWalk fuel (some walker) (h.next walker) h

end BlockHeap

def blockheapGarbagecollect (h : BlockHeap) : Except HeapError BlockHeap :=
  if h.freeElems < h.elemsPerBlock ∨ h.blocksAllocated = 1 then .ok h
  else h.gcWalk (h.blocks.length + 1) none h.base

namespace BlockHeap

/-- The loop of `blockheap_alloc`, up to the block it takes an element from. -/
def findFree (h : BlockHeap) : ℕ → Option ℕ → Except HeapError ℕ
  | 0, _ => .error .endless
  | _ + 1, none => .error .givingUp
  | fuel + 1, some walker =>
    if 0 < h.links.length (.free walker) then .ok walker else findFree h fuel (h.next walker)

def take (h : BlockHeap) (walker : ℕ) : Except HeapError (BlockHeap × ℕ) :=
  match h.links.head (.free walker) with
  | none => .error .fault
  | some node =>
    let h :=
      { h with
        freeElems := h.freeElems - 1
        links := dlinkMove h.links (some node) (some (.free walker)) (some (.used walker)) }
    match h.links.data node with
    | none => .error .nullData
    | some data =>
      if h.inRegion walker data h.elemSize then .ok (h.fill data h.elemSize fun _ => 0, data)
      else .error .fault

end BlockHeap

def blockheapAlloc (h : BlockHeap) (env : BlockEnv) : Except HeapError (BlockHeap × ℕ) := do
  let h ←
    if h.freeElems = 0 then do
      let (h, failed) ← blockheapBlockNew h env
      if failed then do
        let h ← blockheapGarbagecollect h
        if h.freeElems = 0 then .error .noMemory else .ok h
      else .ok h
    else .ok h
  let walker ← h.findFree (h.blocks.length + 1) h.base
  h.take walker

def blockheapFree (h : BlockHeap) (ptr : Option ℕ) : Except HeapError (BlockHeap × ℕ) :=
  match ptr with
  | none => .ok (h, 1)
  | some ptr =>
    let memblock := ptr - sizeofMemBlock
    match h.owner memblock with
    | none => .error .noBlock
    | some b =>
      if h.inRegion b ptr h.elemSize then
        let h := h.fill ptr h.elemSize fun _ => 0
        match h.owner memblock with
        | none => .error .fault
        | some block =>
          .ok ({ h with
            freeElems := h.freeElems + 1
            links := dlinkMove h.links (some memblock) (some (.used block)) (some (.free block)) },
            0)
      else .error .fault

def blockheapUsage (h : BlockHeap) : ℕ × ℕ × ℕ :=
  let used := h.blocksAllocated * h.elemsPerBlock - h.freeElems
  (used, h.freeElems, used * h.stride)

end JailFs
