import JailFs.Exec
import JailFs.Fuse

/-!
# The handles of open files

An open takes an element of `heap_vfs_handle` and is answered with an error, and a release gives
nothing back. So the elements in use are the opens so far (`handlesInUse_of_run`).
-/

namespace JailFs

/-- The heaps, and the handles of the opens that were answered with success and not released yet. -/
structure FuseState where
  heaps : VfsHeaps
  granted : List ℕ

inductive FuseCall
  | request (req : FuseRequest)
  | garbagecollect

namespace FuseCall

def isOpen : FuseCall → Bool
  | request req => req.isOpen
  | garbagecollect => false

end FuseCall

/-- The answer to a request is the first reply: with it, the request is gone. -/
def grants (granted : List ℕ) (req : FuseRequest) (replies : List FuseReply) : List ℕ :=
  match req with
  | .openFile .. =>
    match replies.head? with
    | some (.opened fi) => fi.fh :: granted
    | _ => granted
  | .release _ fi => granted.erase fi.fh
  | _ => granted

/-- A handler that returns, or a run of `vfs_gc`. -/
inductive FuseStep : FuseState → FuseCall → FuseState → Prop
  | request {s : FuseState} {heaps : VfsHeaps} {replies : List FuseReply} {env : BlockEnv}
      (hvalid : env.Valid s.heaps.heapVfsHandle) (sb : FuseStat) (req : FuseRequest)
      (hrun : vfsFuseOps s.heaps env sb req = .ok (heaps, replies)) :
      FuseStep s (.request req) ⟨heaps, grants s.granted req replies⟩
  | garbagecollect {s : FuseState} {handles inodes : BlockHeap}
      (hhandles : blockheapGarbagecollect s.heaps.heapVfsHandle = .ok handles)
      (hinodes : blockheapGarbagecollect s.heaps.heapVfsInode = .ok inodes) :
      FuseStep s .garbagecollect ⟨⟨handles, inodes⟩, s.granted⟩

/-- The elements in use in `heap_vfs_handle`. -/
def FuseState.handlesInUse (s : FuseState) : ℕ := (blockheapUsage s.heaps.heapVfsHandle).1

open BlockHeap

/-- `n` elements of the heap are in use, and no open was answered with success. -/
def Leaks (n : ℕ) (s : FuseState) : Prop :=
  s.granted = [] ∧ ∃ chain seq out, s.heaps.heapVfsHandle.Inv chain seq out ∧ out.length = n

section Run

variable {n : ℕ} {s t : FuseState} {c : FuseCall} {hist : List FuseCall}

theorem Leaks.handlesInUse (h : Leaks n s) : s.handlesInUse = n := by
  obtain ⟨-, chain, seq, out, hinv, hout⟩ := h
  rw [FuseState.handlesInUse, blockheapUsage, ← hinv.freeElems_add_out, Nat.add_sub_cancel_left,
    hout]

theorem grants_of_not_open {req : FuseRequest} (hreq : req.isOpen = false)
    (replies : List FuseReply) : grants [] req replies = [] := by
  cases req with
  | openFile ino fi => cases hreq
  | _ => rfl

/-- The step lemma: an open takes one more element, and nothing else changes their number. -/
theorem FuseStep.leaks (hstep : FuseStep s c t) (h : Leaks n s) : Leaks (n + c.isOpen.toNat) t := by
  obtain ⟨hgranted, chain, seq, out, hinv, hout⟩ := h
  cases hstep with
  | @request heaps replies env hvalid sb req hrun =>
    cases hreq : req.isOpen with
    | false =>
      obtain ⟨reply, hok⟩ := vfsFuseOps_of_not_open hreq
      rw [hok] at hrun
      cases hrun
      rw [FuseCall.isOpen, hreq]
      exact ⟨by rw [hgranted, grants_of_not_open hreq], chain, seq, out, hinv, hout⟩
    | true =>
      cases req with
      | openFile ino fi =>
        obtain ⟨handles, fh, errno, halloc, rfl, rfl⟩ := vfsOpOpen_ok hrun
        obtain ⟨-, ⟨chain', seq', hinv'⟩, -⟩ := blockheapAlloc_ok hinv hvalid halloc
        exact ⟨hgranted, chain', seq', fh :: out, hinv', congrArg (· + 1) hout⟩
      | _ => cases hreq
  | garbagecollect hhandles hinodes =>
    obtain ⟨h', chain', seq', hok, hinv', -⟩ := blockheapGarbagecollect_spec hinv
    rw [hhandles] at hok
    cases hok
    exact ⟨hgranted, chain', seq', out, hinv', hout⟩

variable {elemsperblock : ℤ} {mem handles inodes : BlockHeap} {env₀ : BlockEnv}

theorem leaks_of_run
    (hcreate : blockheapCreate sizeofVfsHandle elemsperblock mem env₀ = .ok handles)
    (hrun : Exec FuseStep ⟨⟨handles, inodes⟩, []⟩ hist s) :
    Leaks (hist.countP FuseCall.isOpen) s := by
  refine hrun.history_invariant (I := fun hist s => Leaks (hist.countP FuseCall.isOpen) s) ?_ ?_
  · obtain ⟨chain, seq, hinv⟩ := blockheapCreate_inv hcreate
    exact ⟨rfl, chain, seq, [], hinv, rfl⟩
  · intro hist s c t h hstep
    have hleaks := hstep.leaks h
    rw [List.countP_append, List.countP_singleton]
    cases hopen : c.isOpen <;> rwa [hopen] at hleaks

theorem handlesInUse_of_run
    (hcreate : blockheapCreate sizeofVfsHandle elemsperblock mem env₀ = .ok handles)
    (hrun : Exec FuseStep ⟨⟨handles, inodes⟩, []⟩ hist s) :
    s.handlesInUse = hist.countP FuseCall.isOpen := (leaks_of_run hcreate hrun).handlesInUse

/-- The elements in use are as many as the opens answered with success and not released if and only
if there was no open. -/
theorem handle_contract_iff
    (hcreate : blockheapCreate sizeofVfsHandle elemsperblock mem env₀ = .ok handles)
    (hrun : Exec FuseStep ⟨⟨handles, inodes⟩, []⟩ hist s) :
    s.handlesInUse = s.granted.length ↔ ∀ c ∈ hist, c.isOpen = false := by
  rw [handlesInUse_of_run hcreate hrun, (leaks_of_run hcreate hrun).1, List.length_nil,
    List.countP_eq_zero]
  simp only [Bool.not_eq_true]

end Run

section OneOpen

theorem run_oneOpen : ∃ handles s,
    blockheapCreate sizeofVfsHandle 1 zeroMem handleEnv = .ok handles ∧
      Exec FuseStep ⟨⟨handles, zeroMem⟩, []⟩ [.request (.openFile 2 ⟨0, 0⟩)] s :=
  ⟨_, _, rfl, Exec.single (.request (noEnv_valid _) ⟨0, 0, 0, 0, 0⟩ (.openFile 2 ⟨0, 0⟩) rfl)⟩

theorem handle_contract_iff_oneOpen : ∃ handles s,
    blockheapCreate sizeofVfsHandle 1 zeroMem handleEnv = .ok handles ∧
      Exec FuseStep ⟨⟨handles, zeroMem⟩, []⟩ [.request (.openFile 2 ⟨0, 0⟩)] s ∧
      (s.handlesInUse = s.granted.length ↔
        ∀ c ∈ [FuseCall.request (.openFile 2 ⟨0, 0⟩)], c.isOpen = false) := by
  obtain ⟨handles, s, hcreate, hrun⟩ := run_oneOpen
  exact ⟨handles, s, hcreate, hrun, handle_contract_iff hcreate hrun⟩

/-- The open is answered with an error and keeps its handle. -/
theorem handle_contract_fails : ∃ handles s,
    blockheapCreate sizeofVfsHandle 1 zeroMem handleEnv = .ok handles ∧
      Exec FuseStep ⟨⟨handles, zeroMem⟩, []⟩ [.request (.openFile 2 ⟨0, 0⟩)] s ∧
      s.handlesInUse = 1 ∧ s.granted = [] := by
  obtain ⟨handles, s, hcreate, hrun⟩ := run_oneOpen
  exact ⟨handles, s, hcreate, hrun, handlesInUse_of_run hcreate hrun,
    (leaks_of_run hcreate hrun).1⟩

end OneOpen

end JailFs
