import JailFs.Blocking
import JailFs.Inotify

/-!
# What the event loop does with a batch

`evtLoop_spec` reads the byte loop as a walk over the events: it acts on events up to the first one
that is ignored, and there it returns, or spins if the byte where that event's name would be is a
dot. A `pkg_open` that waits for the database lock is the last call.
-/

namespace JailFs

open Blocking Memory

namespace InotifyEvent

/-- The watch and the name of an event that is to be acted upon: the name is there and not hidden,
and the watch descriptor is registered. -/
def target (s : WatchState) (e : InotifyEvent) : Option (Addr × VfsWatch × CString) :=
  match e.name with
  | none => none
  | some name =>
    if name.str.bytes.head? = some dot then none
    else (s.findnodeByfd e.wd).map fun r => (r.1, r.2, name.str)

/-- The byte at `e->name[0]`. Without a name it is the first byte of the next event, or the byte
`last` after the batch. -/
def nameByte (e : InotifyEvent) (es : List InotifyEvent) (last : UInt8) : UInt8 :=
  (e.nameField ++ encodeEvents es).headD last

end InotifyEvent

/-- What an event asks for: the watches afterwards, and the calls. -/
def respond (s : WatchState) (watch : Addr) (mask : UInt32) (path : CString) :
    WatchState × List VfsAction :=
  if mask &&& IN_CLOSE_WRITE ≠ 0 ∨ mask &&& IN_MOVED_TO ≠ 0 then (s, [.pkgOpen path])
  else if mask &&& IN_DELETE ≠ 0 ∨ mask &&& IN_MOVED_FROM ≠ 0 then (s, [.pkgForget path])
  else if mask &&& IN_DELETE_SELF ≠ 0 then (vfsWatchRemove s watch, [.vfsWatchRemove watch])
  else (s, [])

/-- The calls that the events before the first ignored one ask for. -/
def callsBefore (s : WatchState) : List InotifyEvent → List VfsAction
  | [] => []
  | e :: es =>
    match e.target s with
    | none => []
    | some (a, w, name) =>
      let r := respond s a e.mask (snprintfPath w.path name)
      r.2 ++ callsBefore r.1 es

/-- A call, if it comes back. -/
def VfsAction.run (p : PkgProcess) : VfsAction → Option PkgProcess
  | .pkgOpen path => p.pkgOpen path
  | .pkgForget _ => some p
  | .vfsWatchRemove _ => some p

namespace PkgProcess

abbrev runCalls : PkgProcess → List VfsAction → Option PkgProcess := runAll VfsAction.run

abbrev Returns : PkgProcess → List VfsAction → Prop := Blocking.Returns VfsAction.run

/-- The calls up to the first one that does not come back. -/
abbrev callsMade : PkgProcess → List VfsAction → List VfsAction := made VfsAction.run

end PkgProcess

/-- No event with a dot for its name byte is reached before an event that ends the loop. -/
def NoDotReached (last : UInt8) (s : WatchState) : List InotifyEvent → Prop
  | [] => True
  | e :: es => e.nameByte es last ≠ dot ∧ ∀ a w name, e.target s = some (a, w, name) →
      NoDotReached last (respond s a e.mask (snprintfPath w.path name)).1 es

section Calls

variable {p : PkgProcess}

theorem dispatch_eq (s : WatchState) (p : PkgProcess) (a : Addr) (mask : UInt32) (path : CString) :
    dispatch s p a mask path = ⟨(respond s a mask path).1, p.runCalls (respond s a mask path).2,
      (respond s a mask path).2⟩ := by
  have hopen : p.runCalls [.pkgOpen path] = p.pkgOpen path := runAll_singleton
  unfold dispatch respond
  split_ifs
  · rw [hopen]
  · rfl
  · rfl
  · rfl

theorem callsMade_respond (s : WatchState) (a : Addr) (mask : UInt32) (path : CString) :
    p.callsMade (respond s a mask path).2 = (respond s a mask path).2 := by
  rw [made_eq_iff]
  unfold respond
  split_ifs <;> rfl

end Calls

section Encoding

variable {mem : ℕ → UInt8} {i : ℕ} {e : InotifyEvent} {rest : List UInt8}

theorem INOTIFY_BUFSIZE_lt : INOTIFY_BUFSIZE < UInt32.size := by decide

theorem encodeEvents_cons (e : InotifyEvent) (es : List InotifyEvent) :
    encodeEvents (e :: es) = e.encode ++ encodeEvents es := List.flatMap_cons

theorem InotifyEvent.length_encode (e : InotifyEvent) :
    e.encode.length = inotifyEventSize + e.nameField.length := by
  simp only [InotifyEvent.encode, List.length_append, length_encode32, inotifyEventSize]
  omega

theorem InotifyEvent.read (h : HoldsAt mem i (e.encode ++ rest)) :
    decode32 mem i = e.wd.toUInt32 ∧ decode32 mem (i + 4) = e.mask ∧
      decode32 mem (i + 12) = UInt32.ofNat e.nameField.length ∧
      HoldsAt mem (i + inotifyEventSize) (e.nameField ++ rest) := by
  rw [InotifyEvent.encode, List.append_assoc, List.append_assoc, List.append_assoc,
    List.append_assoc] at h
  have hmask := h.right
  have hcookie := hmask.right
  have hlen := hcookie.right
  exact ⟨decode32_eq h.left, decode32_eq hmask.left, decode32_eq hlen.left, hlen.right⟩

theorem InotifyEvent.nameField_eq_nil_iff : e.nameField = [] ↔ e.name = none := by
  unfold InotifyEvent.nameField
  cases e.name with
  | none => simp
  | some name =>
    have hpad := name.pad_pos
    simp
    omega

theorem EventName.length_lt_nameField {name : EventName} (hname : e.name = some name) :
    name.str.length < e.nameField.length := by
  rw [InotifyEvent.nameField, hname, List.length_append, List.length_replicate]
  exact Nat.lt_add_of_pos_right name.pad_pos

theorem eventName_eq {name : EventName} (hname : e.name = some name)
    (h : HoldsAt mem (i + inotifyEventSize) (e.nameField ++ rest))
    (hlen : name.str.length < INOTIFY_BUFSIZE) : eventName mem i = name.str := by
  obtain ⟨pad, hpad⟩ : ∃ n, name.pad = n + 1 := ⟨name.pad - 1, by have := name.pad_pos; omega⟩
  have hfield : e.nameField ++ rest =
      (name.str.bytes ++ [0]) ++ (List.replicate pad 0 ++ rest) := by
    rw [InotifyEvent.nameField, hname]
    simp [hpad, List.replicate_succ]
  rw [hfield] at h
  exact CString.ext (cstring_eq name.str.noNul h.left hlen)

theorem InotifyEvent.head_of_name {name : EventName} (hname : e.name = some name)
    (es : List InotifyEvent) (last : UInt8) :
    name.str.bytes.head? = some (e.nameByte es last) := by
  rw [InotifyEvent.nameByte, InotifyEvent.nameField, hname]
  cases hb : name.str.bytes with
  | nil => exact absurd hb name.nonempty
  | cons b bs => simp [hb]

end Encoding

section Loop

variable {mem : ℕ → UInt8} {len i : ℕ} {s : WatchState} {p : PkgProcess}

theorem evtLoop_dot (hi : i < len) (hdot : mem (i + inotifyEventSize) = dot) (fuel : ℕ) :
    evtLoop mem len fuel i s p = ⟨s, [], false⟩ := by
  induction fuel with
  | zero => rfl
  | succ fuel ih => rw [evtLoop, if_pos hi, if_pos hdot, ih]

variable {e : InotifyEvent} {es : List InotifyEvent} {last : UInt8} {fuel : ℕ}

theorem InotifyEvent.nameByte_eq (hat : HoldsAt mem i (e.encode ++ encodeEvents es))
    (hend : i + (e.encode ++ encodeEvents es).length = len) (hlast : mem len = last) :
    i < len ∧ mem (i + inotifyEventSize) = e.nameByte es last := by
  rw [List.length_append, e.length_encode] at hend
  constructor
  · rw [inotifyEventSize] at hend
    omega
  · apply (InotifyEvent.read hat).2.2.2.headD _ hlast
    rw [List.length_append]
    omega

theorem InotifyEvent.target_of_dot (hdot : e.nameByte es last = dot) : e.target s = none := by
  unfold InotifyEvent.target
  cases hn : e.name with
  | none => rfl
  | some name =>
    have hhead : name.str.bytes.head? = some dot := by
      rw [InotifyEvent.head_of_name hn es last, hdot]
    exact if_pos hhead

theorem InotifyEvent.target_of_not_dot (hdot : e.nameByte es last ≠ dot) :
    e.target s = e.name.bind fun name =>
      (s.findnodeByfd e.wd).map fun r => (r.1, r.2, name.str) := by
  unfold InotifyEvent.target
  cases hn : e.name with
  | none => rfl
  | some name =>
    have hhead : name.str.bytes.head? ≠ some dot := by
      rw [InotifyEvent.head_of_name hn es last]
      exact fun h => hdot (Option.some.inj h)
    exact if_neg hhead

/-- One event without a dot for its name byte: the loop acts on it and goes on behind it, or
returns, or waits in `pkg_open`. -/
theorem evtLoop_event (hat : HoldsAt mem i (e.encode ++ encodeEvents es))
    (hend : i + (e.encode ++ encodeEvents es).length = len) (hlast : mem len = last)
    (hlen : len ≤ INOTIFY_BUFSIZE) (hdot : e.nameByte es last ≠ dot) :
    evtLoop mem len (fuel + 1) i s p =
      match e.target s with
      | none => ⟨s, [], true⟩
      | some (a, w, name) =>
        let r := respond s a e.mask (snprintfPath w.path name)
        match p.runCalls r.2 with
        | none => ⟨r.1, r.2, false⟩
        | some p =>
          let next := evtLoop mem len fuel (i + (inotifyEventSize + e.nameField.length)) r.1 p
          ⟨next.state, r.2 ++ next.trace, next.returned⟩ := by
  obtain ⟨hi, hbyte⟩ := InotifyEvent.nameByte_eq hat hend hlast
  obtain ⟨hwd, hmask, hname, hfield⟩ := InotifyEvent.read hat
  rw [List.length_append, e.length_encode] at hend
  have hseen : ¬ mem (i + inotifyEventSize) = dot := by
    rw [hbyte]
    exact hdot
  have hfd : (decode32 mem i).toInt32 = e.wd := by rw [hwd, Int32.toInt32_toUInt32]
  have hle : e.nameField.length ≤ len := by omega
  have hfits : e.nameField.length < UInt32.size := (hle.trans hlen).trans_lt INOTIFY_BUFSIZE_lt
  rw [evtLoop, if_pos hi, if_neg hseen, hfd, hname, UInt32.toNat_ofNat_of_lt' hfits, hmask,
    InotifyEvent.target_of_not_dot hdot]
  cases hfind : s.findnodeByfd e.wd with
  | none => cases e.name <;> rfl
  | some r =>
    cases hn : e.name with
    | none => exact if_pos (List.length_eq_zero_iff.mpr (InotifyEvent.nameField_eq_nil_iff.mpr hn))
    | some name =>
      have hne : e.nameField.length ≠ 0 := by
        intro h0
        rw [List.length_eq_zero_iff, InotifyEvent.nameField_eq_nil_iff, hn] at h0
        cases h0
      have hshort : name.str.length < INOTIFY_BUFSIZE := by
        have := name.length_lt_nameField hn
        omega
      dsimp only
      rw [if_neg hne, eventName_eq hn hfield hshort, dispatch_eq]
      rfl

theorem evtLoop_spec {events : List InotifyEvent}
    (hat : HoldsAt mem i (encodeEvents events)) (hend : i + (encodeEvents events).length = len)
    (hlast : mem len = last) (hlen : len ≤ INOTIFY_BUFSIZE) (hfuel : events.length < fuel) :
    (evtLoop mem len fuel i s p).trace = p.callsMade (callsBefore s events) ∧
      ((evtLoop mem len fuel i s p).returned = true ↔
        NoDotReached last s events ∧ p.Returns (callsBefore s events)) := by
  induction events generalizing i s p fuel with
  | nil =>
    obtain ⟨fuel, rfl⟩ : ∃ n, fuel = n + 1 := ⟨fuel - 1, by omega⟩
    change i + 0 = len at hend
    rw [evtLoop, if_neg (by omega)]
    exact ⟨rfl, iff_of_true rfl ⟨trivial, rfl⟩⟩
  | cons e es ih =>
    obtain ⟨fuel, rfl⟩ : ∃ n, fuel = n + 1 := ⟨fuel - 1, by omega⟩
    rw [encodeEvents_cons] at hat hend
    rw [List.length_cons] at hfuel
    by_cases hdot : e.nameByte es last = dot
    · obtain ⟨hi, hbyte⟩ := InotifyEvent.nameByte_eq hat hend hlast
      rw [evtLoop_dot hi (hbyte.trans hdot), callsBefore, InotifyEvent.target_of_dot hdot]
      exact ⟨rfl, iff_of_false Bool.false_ne_true fun h => h.1.1 hdot⟩
    · rw [evtLoop_event hat hend hlast hlen hdot, callsBefore, NoDotReached]
      cases htarget : e.target s with
      | none =>
        refine ⟨rfl, iff_of_true rfl ⟨⟨hdot, ?_⟩, rfl⟩⟩
        intro a w name h
        cases h
      | some r =>
        obtain ⟨a, w, name⟩ := r
        have hnext := hat.right
        rw [List.length_append, e.length_encode] at hend
        rw [e.length_encode] at hnext
        dsimp only
        cases hcalls : p.runCalls (respond s a e.mask (snprintfPath w.path name)).2 with
        | none =>
          -- the call waits, and with it the loop
          refine ⟨?_, iff_of_false Bool.false_ne_true fun h => ?_⟩
          · exact ((made_append_of_none hcalls).trans (callsMade_respond ..)).symm
          · exact not_returns_append hcalls h.2
        | some p' =>
          obtain ⟨htrace, hreturned⟩ := @ih _ (respond s a e.mask (snprintfPath w.path name)).1 p'
            fuel hnext (by omega) (by omega)
          rw [PkgProcess.callsMade, made_append hcalls, PkgProcess.Returns, returns_append hcalls]
          refine ⟨congrArg _ htrace, hreturned.trans (and_congr_left fun _ => ?_)⟩
          constructor
          · intro h
            refine ⟨hdot, fun a' w' name' h' => ?_⟩
            cases h'
            exact h
          · intro h
            exact h.2 a w name rfl

end Loop

end JailFs
