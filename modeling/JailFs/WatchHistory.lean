import JailFs.History
import JailFs.InotifyDelivery

/-!
# Watches that are never removed

When a watched directory is deleted, the kernel sends `IN_DELETE_SELF` with no name, and the loop
returns on an event without a name before it looks at the mask. So a batch changes nothing
(`evtLoop_state`), and the list holds every watch that was ever added.
-/

namespace JailFs

/-- A batch as the kernel delivers it: the deletion of the watched directory itself has no name. -/
structure KernelBatch extends InotifyBatch where
  self_nameless : ∀ e ∈ events, e.mask &&& IN_DELETE_SELF ≠ 0 → e.name = none

inductive WatchCall
  | add (elem : Addr) (wd : Int32) (path : CString)
  | events (b : KernelBatch)

namespace WatchCall

/-- The element and its content, if the call is an addition that succeeds. -/
def adds : WatchCall → List (Addr × VfsWatch)
  | add elem wd path =>
    if wd ≤ 0 then []
    else
      let mask :=
        IN_CLOSE_WRITE ||| IN_MOVED_TO ||| IN_MOVED_FROM ||| IN_DELETE ||| IN_DELETE_SELF
      [(elem, ⟨mask, wd, path⟩)]
  | events _ => []

/-- The call delivers the deletion of the directory with this descriptor. -/
def Deletes (wd : Int32) : WatchCall → Prop
  | add .. => False
  | events b => ∃ e ∈ b.events, e.mask &&& IN_DELETE_SELF ≠ 0 ∧ e.wd = wd

instance (wd : Int32) (c : WatchCall) : Decidable (c.Deletes wd) := by
  cases c with
  | add elem wd' path => exact inferInstanceAs (Decidable False)
  | events b =>
    exact inferInstanceAs (Decidable (∃ e ∈ b.events, e.mask &&& IN_DELETE_SELF ≠ 0 ∧ e.wd = wd))

end WatchCall

/-- All watches that were ever added. -/
def added (hist : List WatchCall) : List (Addr × VfsWatch) := hist.flatMap WatchCall.adds

/-- The watches of the directories that are still watched. -/
def watched (hist : List WatchCall) : List (Addr × VfsWatch) :=
  hist.foldl (fun ws c => (ws ++ c.adds).filter fun w => ¬ c.Deletes w.2.fd) []

/-- The list leads to these watches in this order, and their elements are those in use. -/
def WatchState.Holds (s : WatchState) (ws : List (Addr × VfsWatch)) : Prop :=
  s.vfsWatchList = ws.map Prod.fst ∧ ∀ a w, s.watch a = some w ↔ (a, w) ∈ ws

/-- A call that returns; `blockheap_alloc` hands out an element that is not in use. -/
inductive WatchStep : WatchState → WatchCall → WatchState → Prop
  | add {s : WatchState} {elem : Addr} (hfree : s.watch elem = none) (wd : Int32)
      (path : CString) : WatchStep s (.add elem wd path) (vfsWatchAdd s elem wd path).1
  | events {s : WatchState} (p : PkgProcess) (b : KernelBatch) (beyond : ℕ → UInt8) (fuel : ℕ)
      (hreturned : (vfsInotifyEvtGet s p b.toInotifyBatch beyond fuel).returned = true) :
      WatchStep s (.events b) (vfsInotifyEvtGet s p b.toInotifyBatch beyond fuel).state

def watchStateInit : WatchState := ⟨∅, []⟩

/-- The call does not delete a directory of which a watch was added before. -/
def SparesWatches (pre : List WatchCall) (c : WatchCall) : Prop :=
  ∀ w ∈ added pre, ¬ c.Deletes w.2.fd

section Batch

open Memory

variable {mem : ℕ → UInt8} {len i : ℕ} {s : WatchState} {p : PkgProcess}

theorem evtLoop_state {events : List InotifyEvent}
    (hself : ∀ e ∈ events, e.mask &&& IN_DELETE_SELF ≠ 0 → e.name = none)
    (hat : HoldsAt mem i (encodeEvents events)) (hend : i + (encodeEvents events).length = len)
    (hlen : len ≤ INOTIFY_BUFSIZE) (fuel : ℕ) : (evtLoop mem len fuel i s p).state = s := by
  induction events generalizing i fuel p with
  | nil =>
    cases fuel with
    | zero => rfl
    | succ fuel =>
      change i + 0 = len at hend
      rw [evtLoop, if_neg (by omega)]
  | cons e es ih =>
    rw [encodeEvents_cons] at hat hend
    by_cases hdot : e.nameByte es (mem len) = dot
    · obtain ⟨hi, hbyte⟩ := InotifyEvent.nameByte_eq hat hend rfl
      rw [evtLoop_dot hi (hbyte.trans hdot)]
    · cases fuel with
      | zero => rfl
      | succ fuel =>
        rw [evtLoop_event hat hend rfl hlen hdot]
        cases htarget : e.target s with
        | none => rfl
        | some r =>
          obtain ⟨a, w, name⟩ := r
          -- an event that is acted upon has a name, so it is not the deletion of the directory
          have hmask : e.mask &&& IN_DELETE_SELF = 0 := by
            by_contra hne
            rw [InotifyEvent.target, hself e List.mem_cons_self hne] at htarget
            cases htarget
          have hstate : (respond s a e.mask (snprintfPath w.path name)).1 = s := by
            rw [respond]
            split_ifs with hopen hforget hdelete
            · rfl
            · rfl
            · exact absurd hmask hdelete
            · rfl
          have hnext := hat.right
          rw [e.length_encode] at hnext
          rw [List.length_append, e.length_encode] at hend
          dsimp only
          cases p.runCalls (respond s a e.mask (snprintfPath w.path name)).2 with
          | none => exact hstate
          | some p' =>
            rw [hstate]
            exact ih (fun e' he' => hself e' (List.mem_cons_of_mem _ he')) hnext (by omega) fuel

theorem vfsInotifyEvtGet_state (s : WatchState) (p : PkgProcess) (b : KernelBatch)
    (beyond : ℕ → UInt8) (fuel : ℕ) :
    (vfsInotifyEvtGet s p b.toInotifyBatch beyond fuel).state = s :=
  evtLoop_state b.self_nameless (holdsAt_getD b.bytes _) (Nat.zero_add _) b.fits fuel

end Batch

section History

variable {hist : List WatchCall} {c : WatchCall} {s : WatchState}

theorem added_snoc : added (hist ++ [c]) = added hist ++ c.adds := by
  rw [added, List.flatMap_append, List.flatMap_singleton]
  rfl

theorem watched_snoc :
    watched (hist ++ [c]) = (watched hist ++ c.adds).filter fun w => ¬ c.Deletes w.2.fd :=
  List.foldl_concat ..

theorem watched_sublist_added (hist : List WatchCall) :
    (watched hist).Sublist (added hist) := by
  induction hist using List.reverseRecOn with
  | nil => exact List.Sublist.refl []
  | append_singleton hist c ih =>
    rw [watched_snoc, added_snoc]
    exact List.filter_sublist.trans (ih.append_right c.adds)

theorem WatchCall.not_deletes_of_adds {w : Addr × VfsWatch} (hw : w ∈ c.adds) :
    ¬ c.Deletes w.2.fd := by
  cases c with
  | add elem wd path => exact id
  | events b => cases hw

theorem filter_deletes_eq_self_iff :
    (added hist ++ c.adds).filter (fun w => ¬ c.Deletes w.2.fd) = added hist ++ c.adds ↔
      SparesWatches hist c := by
  rw [List.filter_eq_self]
  simp only [decide_eq_true_eq]
  constructor
  · intro h w hw
    exact h w (List.mem_append_left _ hw)
  · intro h w hw
    rcases List.mem_append.mp hw with hw | hw
    · exact h w hw
    · exact WatchCall.not_deletes_of_adds hw

/-- All watches that were added are to be listed still exactly if no watched directory was
deleted. -/
theorem watched_eq_added_iff (hist : List WatchCall) :
    watched hist = added hist ↔ Along SparesWatches hist := by
  induction hist using List.reverseRecOn with
  | nil => exact iff_of_true rfl along_nil
  | append_singleton hist c ih =>
    rw [along_snoc, ← ih, watched_snoc, added_snoc]
    constructor
    · intro h
      have hfilter := (List.filter_sublist
        (l := watched hist ++ c.adds) (p := fun w => ¬ c.Deletes w.2.fd)).length_le
      rw [h, List.length_append, List.length_append] at hfilter
      have hsame : watched hist = added hist :=
        (watched_sublist_added hist).eq_of_length_le (by omega)
      rw [hsame] at h
      exact ⟨hsame, filter_deletes_eq_self_iff.mp h⟩
    · rintro ⟨hsame, hspares⟩
      rw [hsame]
      exact filter_deletes_eq_self_iff.mpr hspares

/-- The step lemma: what was added is kept, whatever the events say. -/
theorem WatchStep.holds {t : WatchState} (hstep : WatchStep s c t) (h : s.Holds (added hist)) :
    t.Holds (added (hist ++ [c])) := by
  rw [added_snoc]
  cases hstep with
  | @add elem hfree wd path =>
    rw [vfsWatchAdd, WatchCall.adds]
    split_ifs with hwd
    · rw [List.append_nil]
      exact h
    · obtain ⟨hlist, hheap⟩ := h
      refine ⟨?_, fun a w => ?_⟩
      · rw [List.map_append, ← hlist]
        rfl
      · rw [List.mem_append, List.mem_singleton, ← hheap]
        by_cases ha : a = elem
        · rw [ha, WatchState.watch, AList.lookup_insert, hfree]
          simp [eq_comm]
        · rw [WatchState.watch, AList.lookup_insert_ne ha]
          simp [ha, WatchState.watch]
  | events p b beyond fuel hreturned =>
    rw [vfsInotifyEvtGet_state, WatchCall.adds, List.append_nil]
    exact h

theorem holds_added_of_run (hrun : Exec WatchStep watchStateInit hist s) :
    s.Holds (added hist) := by
  refine hrun.history_invariant (I := fun hist s => s.Holds (added hist)) ⟨rfl, fun a w => ?_⟩
    fun hist s c t h hstep => hstep.holds h
  exact iff_of_false (fun h => by cases h) List.not_mem_nil

/-- After calls that return, the list and the heap hold exactly the watches of the directories that
are still watched if and only if no event was the deletion of a watched directory. -/
theorem watch_contract_iff (hrun : Exec WatchStep watchStateInit hist s) :
    s.Holds (watched hist) ↔ Along SparesWatches hist := by
  have hadded := holds_added_of_run hrun
  rw [← watched_eq_added_iff]
  constructor
  · rintro ⟨hlist, -⟩
    have hmap := congrArg List.length (hadded.1.symm.trans hlist)
    rw [List.length_map, List.length_map] at hmap
    exact (watched_sublist_added hist).eq_of_length hmap.symm
  · intro hsame
    rw [hsame]
    exact hadded

end History

section SelfDeleted

def selfDeleted : KernelBatch where
  events := [⟨5, IN_DELETE_SELF, 0, none⟩]
  fits := by decide
  self_nameless := by
    intro e he _
    rw [List.mem_singleton.mp he]

theorem selfDeleted_returned (s : WatchState) (p : PkgProcess) :
    (vfsInotifyEvtGet s p selfDeleted.toInotifyBatch (fun _ => 0) 2).returned = true := by
  refine (vfsInotifyEvtGet_spec s p _ _ (by decide)).2.mpr ⟨⟨by decide, fun a w name h => ?_⟩, rfl⟩
  cases h

def pkgWatch : WatchState := (vfsWatchAdd watchStateInit 1 5 (.ofChars ['/', 'p'])).1

theorem run_selfDeleted : Exec WatchStep watchStateInit
    [.add 1 5 (.ofChars ['/', 'p']), .events selfDeleted] pkgWatch := by
  have hadd : WatchStep watchStateInit (.add 1 5 (.ofChars ['/', 'p'])) pkgWatch :=
    .add rfl 5 (.ofChars ['/', 'p'])
  have hevents : WatchStep pkgWatch (.events selfDeleted) _ :=
    .events .fresh selfDeleted (fun _ => 0) 2 (selfDeleted_returned pkgWatch .fresh)
  rw [vfsInotifyEvtGet_state] at hevents
  exact (Exec.single hadd).snoc hevents

theorem watch_contract_iff_selfDeleted :
    pkgWatch.Holds (watched [.add 1 5 (.ofChars ['/', 'p']), .events selfDeleted]) ↔
      Along SparesWatches [.add 1 5 (.ofChars ['/', 'p']), .events selfDeleted] :=
  watch_contract_iff run_selfDeleted

/-- The deletion of the directory has been processed, and its watch is still listed. -/
theorem watch_contract_fails : ∃ s, Exec WatchStep watchStateInit
    [.add 1 5 (.ofChars ['/', 'p']), .events selfDeleted] s ∧
      ¬ s.Holds (watched [.add 1 5 (.ofChars ['/', 'p']), .events selfDeleted]) := by
  refine ⟨pkgWatch, run_selfDeleted, fun h => ?_⟩
  have hlist := (holds_added_of_run run_selfDeleted).1.symm.trans h.1
  exact absurd hlist (by decide)

end SelfDeleted

end JailFs
