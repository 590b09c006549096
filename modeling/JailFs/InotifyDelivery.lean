import JailFs.InotifyRun

/-!
# Termination and delivery of a batch of events

An ignored event ends the processing of its batch: a hidden name makes the loop spin, and a missing
name or an unknown watch descriptor makes it return. A `pkg_open` that waits for the database lock
ends it as well. So the loop returns exactly when no dot is reached and no call waits, and the batch
is delivered exactly when nothing worth delivering comes after an ignored event or a call that
waits, and every path fits into the path buffer.
-/

namespace JailFs

open Blocking Memory

/-- What should become of a batch: every event with a target is acted upon, under its full path. -/
def deliveries (s : WatchState) : List InotifyEvent → List VfsAction
  | [] => []
  | e :: es =>
    match e.target s with
    | none => deliveries s es
    | some (a, w, name) =>
      let r := respond s a e.mask (joinPath w.path name)
      r.2 ++ deliveries r.1 es

def InotifyBatch.byteAfter (b : InotifyBatch) (beyond : ℕ → UInt8) : UInt8 :=
  b.buf beyond b.bytes.length

/-- The mask calls for `pkg_open` or `pkg_forget`. -/
def usesPath (mask : UInt32) : Prop :=
  mask &&& IN_CLOSE_WRITE ≠ 0 ∨ mask &&& IN_MOVED_TO ≠ 0 ∨ mask &&& IN_DELETE ≠ 0 ∨
    mask &&& IN_MOVED_FROM ≠ 0

/-- Nothing to deliver follows an ignored event, and the paths before it fit. -/
def Deliverable (s : WatchState) : List InotifyEvent → Prop
  | [] => True
  | e :: es =>
    match e.target s with
    | none => deliveries s es = []
    | some (a, w, name) =>
      (usesPath e.mask → (joinPath w.path name).length ≤ PATH_MAX - 2) ∧
        Deliverable (respond s a e.mask (joinPath w.path name)).1 es

section Respond

variable {s : WatchState} {a : Addr} {mask : UInt32} {path path' : CString}

theorem respond_state (s : WatchState) (a : Addr) (mask : UInt32) (path path' : CString) :
    (respond s a mask path).1 = (respond s a mask path').1 := by
  simp only [respond]
  split_ifs <;> rfl

theorem respond_length (s : WatchState) (a : Addr) (mask : UInt32) (path path' : CString) :
    (respond s a mask path).2.length = (respond s a mask path').2.length := by
  simp only [respond]
  split_ifs <;> rfl

theorem respond_calls_eq_iff :
    (respond s a mask path).2 = (respond s a mask path').2 ↔ (usesPath mask → path = path') := by
  simp only [respond, usesPath]
  split_ifs with hopen hforget hself
  · have huse : mask &&& IN_CLOSE_WRITE ≠ 0 ∨ mask &&& IN_MOVED_TO ≠ 0 ∨
        mask &&& IN_DELETE ≠ 0 ∨ mask &&& IN_MOVED_FROM ≠ 0 := by tauto
    simp only [huse, true_implies, List.cons.injEq, VfsAction.pkgOpen.injEq, and_true]
  · have huse : mask &&& IN_CLOSE_WRITE ≠ 0 ∨ mask &&& IN_MOVED_TO ≠ 0 ∨
        mask &&& IN_DELETE ≠ 0 ∨ mask &&& IN_MOVED_FROM ≠ 0 := by tauto
    simp only [huse, true_implies, List.cons.injEq, VfsAction.pkgForget.injEq, and_true]
  · exact iff_of_true rfl fun huse => absurd huse (by tauto)
  · exact iff_of_true rfl fun huse => absurd huse (by tauto)

end Respond

/-- What the loop does is what should be done exactly when the batch is deliverable. -/
theorem callsBefore_eq_deliveries_iff {s : WatchState} {events : List InotifyEvent} :
    callsBefore s events = deliveries s events ↔ Deliverable s events := by
  induction events generalizing s with
  | nil => exact iff_of_true rfl trivial
  | cons e es ih =>
    rw [callsBefore, deliveries, Deliverable]
    cases e.target s with
    | none => exact eq_comm
    | some r =>
      obtain ⟨a, w, name⟩ := r
      dsimp only
      rw [respond_state s a e.mask (snprintfPath w.path name) (joinPath w.path name), ← ih,
        ← snprintfPath_eq_joinPath_iff, ← respond_calls_eq_iff]
      constructor
      · intro h
        exact List.append_inj h (respond_length ..)
      · rintro ⟨hcalls, hrest⟩
        rw [hcalls, hrest]

theorem callsBefore_length_le (s : WatchState) (events : List InotifyEvent) :
    (callsBefore s events).length ≤ (deliveries s events).length := by
  induction events generalizing s with
  | nil => exact le_rfl
  | cons e es ih =>
    rw [callsBefore, deliveries]
    cases e.target s with
    | none => exact Nat.zero_le _
    | some r =>
      obtain ⟨a, w, name⟩ := r
      dsimp only
      rw [respond_state s a e.mask (snprintfPath w.path name) (joinPath w.path name),
        List.length_append, List.length_append,
        respond_length s a e.mask (snprintfPath w.path name) (joinPath w.path name)]
      exact Nat.add_le_add_left (ih _) _

theorem callsMade_eq_deliveries_iff {s : WatchState} {p : PkgProcess}
    {events : List InotifyEvent} : p.callsMade (callsBefore s events) = deliveries s events ↔
      Deliverable s events ∧ p.Returns (deliveries s events).dropLast := by
  rw [← callsBefore_eq_deliveries_iff]
  constructor
  · intro h
    have hle := callsBefore_length_le s events
    rw [← h] at hle
    have hall : p.callsMade (callsBefore s events) = callsBefore s events :=
      made_isPrefix.eq_of_length_le hle
    have heq := hall.symm.trans h
    exact ⟨heq, heq ▸ made_eq_iff.mp hall⟩
  · rintro ⟨heq, hreturns⟩
    rw [heq]
    exact made_eq_iff.mpr hreturns

section Batch

variable {s : WatchState} {p : PkgProcess} {b : InotifyBatch} {beyond : ℕ → UInt8} {fuel : ℕ}

theorem vfsInotifyEvtGet_spec (s : WatchState) (p : PkgProcess) (b : InotifyBatch)
    (beyond : ℕ → UInt8) (hfuel : b.events.length < fuel) :
    (vfsInotifyEvtGet s p b beyond fuel).trace = p.callsMade (callsBefore s b.events) ∧
      ((vfsInotifyEvtGet s p b beyond fuel).returned = true ↔
        NoDotReached (b.byteAfter beyond) s b.events ∧ p.Returns (callsBefore s b.events)) :=
  evtLoop_spec (holdsAt_getD b.bytes _) (Nat.zero_add _) rfl b.fits hfuel

theorem evtLoop_returned_mono {mem : ℕ → UInt8} {len i : ℕ}
    (h : (evtLoop mem len fuel i s p).returned = true) :
    evtLoop mem len (fuel + 1) i s p = evtLoop mem len fuel i s p := by
  induction fuel generalizing i s p with
  | zero => cases h
  | succ fuel ih =>
    by_cases hi : i < len
    · by_cases hdot : mem (i + inotifyEventSize) = dot
      · rw [evtLoop, if_pos hi, if_pos hdot]
      · rw [evtLoop, if_pos hi, if_neg hdot] at h
        conv_rhs => rw [evtLoop, if_pos hi, if_neg hdot]
        rw [evtLoop, if_pos hi, if_neg hdot]
        cases hfind : s.findnodeByfd (decode32 mem i).toInt32 with
        | none => rfl
        | some r =>
          simp only [hfind] at h ⊢
          split_ifs at h ⊢ with hlen
          · rfl
          · cases hp : (dispatch s p r.1 (decode32 mem (i + 4))
                (snprintfPath r.2.path (eventName mem i))).process with
            | none => rfl
            | some p' =>
              simp only [hp] at h ⊢
              rw [ih h]
    · rw [evtLoop, if_neg hi, evtLoop, if_neg hi]

end Batch

/-- The loop returns on a batch exactly when no event with a dot where its name would begin is
reached before an event that ends it, and none of the calls until then waits. -/
theorem vfsInotifyEvtGet_returns_iff (s : WatchState) (p : PkgProcess) (b : InotifyBatch)
    (beyond : ℕ → UInt8) :
    (∃ fuel, (vfsInotifyEvtGet s p b beyond fuel).returned = true) ↔
      NoDotReached (b.byteAfter beyond) s b.events ∧ p.Returns (callsBefore s b.events) := by
  constructor
  · rintro ⟨fuel, h⟩
    have hmono (n : ℕ) : (vfsInotifyEvtGet s p b beyond (fuel + n)).returned = true := by
      induction n with
      | zero => exact h
      | succ n ih =>
        rw [← Nat.add_assoc, vfsInotifyEvtGet, evtLoop_returned_mono ih]
        exact ih
    have hfuel : b.events.length < fuel + (b.events.length + 1) := by omega
    exact (vfsInotifyEvtGet_spec s p b beyond hfuel).2.mp (hmono _)
  · intro h
    exact ⟨b.events.length + 1, (vfsInotifyEvtGet_spec s p b beyond (Nat.lt_succ_self _)).2.mpr h⟩

/-- In the long run the loop makes the calls that the batch asks for, each once and in order,
exactly when the batch is deliverable and every call but the last one comes back. -/
theorem vfsInotifyEvtGet_delivers_iff (s : WatchState) (p : PkgProcess) (b : InotifyBatch)
    (beyond : ℕ → UInt8) :
    (∃ bound, ∀ fuel, bound ≤ fuel →
        (vfsInotifyEvtGet s p b beyond fuel).trace = deliveries s b.events) ↔
      Deliverable s b.events ∧ p.Returns (deliveries s b.events).dropLast := by
  rw [← callsMade_eq_deliveries_iff]
  constructor
  · rintro ⟨bound, h⟩
    have hfuel : b.events.length < bound + (b.events.length + 1) := by omega
    rw [← (vfsInotifyEvtGet_spec s p b beyond hfuel).1]
    exact h _ (by omega)
  · intro h
    refine ⟨b.events.length + 1, fun fuel hfuel => ?_⟩
    rw [(vfsInotifyEvtGet_spec s p b beyond hfuel).1, h]

section HiddenFile

/-- One watch, on `/pkg`, with descriptor 1. -/
def watchingPkg : WatchState :=
  ⟨AList.singleton 0 ⟨0x6c8, 1, .ofChars ['/', 'p', 'k', 'g']⟩, [0]⟩

/-- `.x` was written in `/pkg`. -/
def hiddenEvent : InotifyEvent :=
  ⟨1, IN_CLOSE_WRITE, 0, some ⟨.ofChars ['.', 'x'], 14, by decide, by decide⟩⟩

/-- `a` was written in `/pkg`. -/
def visibleEvent : InotifyEvent :=
  ⟨1, IN_CLOSE_WRITE, 0, some ⟨.ofChars ['a'], 15, by decide, by decide⟩⟩

def hiddenFirst : InotifyBatch := ⟨[hiddenEvent, visibleEvent], by decide⟩

theorem hiddenFirst_spins (p : PkgProcess) (fuel : ℕ) (beyond : ℕ → UInt8) :
    vfsInotifyEvtGet watchingPkg p hiddenFirst beyond fuel = ⟨watchingPkg, [], false⟩ := by
  have hat : HoldsAt (hiddenFirst.buf beyond) 0 hiddenFirst.bytes := holdsAt_getD _ _
  exact evtLoop_dot (by decide) (hat 16 (by decide)) fuel

/-- With a hidden file first in the batch the loop never returns. -/
theorem vfsInotifyEvtGet_spins : ¬ ∀ (s : WatchState) (p : PkgProcess) (b : InotifyBatch)
    (beyond : ℕ → UInt8), ∃ fuel, (vfsInotifyEvtGet s p b beyond fuel).returned = true := by
  intro h
  obtain ⟨fuel, hreturned⟩ := h watchingPkg .fresh hiddenFirst fun _ => 0
  rw [hiddenFirst_spins] at hreturned
  cases hreturned

/-- And the package written after it is never opened. -/
theorem vfsInotifyEvtGet_loses :
    (¬ ∃ bound, ∀ fuel, bound ≤ fuel →
        (vfsInotifyEvtGet watchingPkg .fresh hiddenFirst (fun _ => 0) fuel).trace =
          deliveries watchingPkg hiddenFirst.events) ∧
      deliveries watchingPkg hiddenFirst.events =
        [.pkgOpen (.ofChars ['/', 'p', 'k', 'g', '/', 'a'])] := by
  have hdeliveries : deliveries watchingPkg hiddenFirst.events =
      [.pkgOpen (.ofChars ['/', 'p', 'k', 'g', '/', 'a'])] := by decide
  refine ⟨?_, hdeliveries⟩
  rintro ⟨bound, h⟩
  have htrace := h bound le_rfl
  rw [hiddenFirst_spins, hdeliveries] at htrace
  cases htrace

end HiddenFile

end JailFs
