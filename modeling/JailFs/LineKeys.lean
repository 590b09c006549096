import JailFs.CString
import JailFs.Exec

/-!
# The keys of the line editor

`linenoiseEdit` and `completeLine` read the terminal one byte at a time. A `Reading` is one of the
places where they wait for the next byte, with what they remember there; a step takes the outcome
of one `read` from one such place to the next, and on the way runs the editing functions that the
switch over the key calls. How these work on the line is a parameter, the `Editor`, so that two
editors driven by the same keys can be compared.

The redraws of the line are left out, and with them the one write to the terminal whose failure
ends the edit, of a character appended while there is no callback for hints.
-/

namespace JailFs

def CTRL_A : UInt8 := 1

def CTRL_B : UInt8 := 2

def CTRL_C : UInt8 := 3

def CTRL_D : UInt8 := 4

def CTRL_E : UInt8 := 5

def CTRL_F : UInt8 := 6

def CTRL_H : UInt8 := 8

def TAB : UInt8 := 9

def CTRL_K : UInt8 := 11

def CTRL_L : UInt8 := 12

def ENTER : UInt8 := 13

def CTRL_N : UInt8 := 14

def CTRL_P : UInt8 := 16

def CTRL_T : UInt8 := 20

def CTRL_U : UInt8 := 21

def CTRL_W : UInt8 := 23

def ESC : UInt8 := 27

def BACKSPACE : UInt8 := 127

/-- What one `read` of a byte gives. At the end of the input the variable that the byte was for
keeps what it held. -/
inductive ReadResult
  | byte (c : UInt8)
  | eof (held : UInt8)
  | error
  deriving DecidableEq, Repr

/-- The functions of the editor that change the line or the history. -/
inductive EditCmd
  | insert (c : UInt8)
  | delete
  | backspace
  | deletePrevWord
  | transpose
  | moveLeft
  | moveRight
  | moveHome
  | moveEnd
  | clear
  | killToEnd
  | historyPrev
  | historyNext
  | complete (t : CString)
  deriving DecidableEq, Repr

/-- The cases of the switch over the key. -/
inductive KeyAction
  | edit (cmd : EditCmd)
  | enter
  | interrupt
  | deleteOrEof
  | escape
  | clearScreen
  deriving DecidableEq, Repr

def keyAction (c : UInt8) : KeyAction :=
  if c = ENTER then .enter
  else if c = CTRL_C then .interrupt
  else if c = BACKSPACE then .edit .backspace
  else if c = CTRL_H then .edit .backspace
  else if c = CTRL_D then .deleteOrEof
  else if c = CTRL_T then .edit .transpose
  else if c = CTRL_B then .edit .moveLeft
  else if c = CTRL_F then .edit .moveRight
  else if c = CTRL_P then .edit .historyPrev
  else if c = CTRL_N then .edit .historyNext
  else if c = ESC then .escape
  else if c = CTRL_U then .edit .clear
  else if c = CTRL_K then .edit .killToEnd
  else if c = CTRL_A then .edit .moveHome
  else if c = CTRL_E then .edit .moveEnd
  else if c = CTRL_L then .clearScreen
  else if c = CTRL_W then .edit .deletePrevWord
  else .edit (.insert c)

/-- The switch over the second byte of an escape sequence of two bytes. -/
def sequenceCmd (c₀ c₁ : UInt8) : Option EditCmd :=
  if c₀ = '['.toUInt8 then
    if c₁ = 'A'.toUInt8 then some .historyPrev
    else if c₁ = 'B'.toUInt8 then some .historyNext
    else if c₁ = 'C'.toUInt8 then some .moveRight
    else if c₁ = 'D'.toUInt8 then some .moveLeft
    else if c₁ = 'H'.toUInt8 then some .moveHome
    else if c₁ = 'F'.toUInt8 then some .moveEnd
    else none
  else if c₀ = 'O'.toUInt8 then
    if c₁ = 'H'.toUInt8 then some .moveHome
    else if c₁ = 'F'.toUInt8 then some .moveEnd
    else none
  else none

/-- `ESC [ c₁ c₂` with a digit `c₁`. -/
def extendedCmd (c₁ c₂ : UInt8) : Option EditCmd :=
  if c₂ = '~'.toUInt8 then if c₁ = '3'.toUInt8 then some .delete else none else none

def isDigitByte (c : UInt8) : Bool := '0'.toUInt8 ≤ c && c ≤ '9'.toUInt8

/-- The places where the editor waits for a byte. -/
inductive Reading
  | key
  | seq₀
  | seq₁ (c₀ : UInt8)
  | seq₂ (c₁ : UInt8)
  | completing (lc : List CString) (i : ℕ)
  deriving DecidableEq, Repr

/-- An edit that goes on, or that has returned. -/
inductive Edit (σ : Type)
  | reading (at_ : Reading) (s : σ)
  | returned (count : ℤ) (s : σ)

/-- The line and the history, as the editing functions see them. `none` is a store or a read
outside the memory that they own. -/
structure Editor (σ : Type) where
  /-- `l.buf`, for the completion callback. -/
  line : σ → Option CString
  /-- `l.len` -/
  len : σ → ℕ
  run : EditCmd → σ → Option σ
  /-- `history_len--; free(history[history_len]);` -/
  popHistory : σ → Option σ
  /-- What ENTER draws before it returns. -/
  leave : σ → Option σ

namespace Editor

variable {σ : Type} (ed : Editor σ)

def edit (cmd : EditCmd) (s : σ) : Option (Edit σ) := (ed.run cmd s).map (.reading .key)

def editIfAny (cmd : Option EditCmd) (s : σ) : Option (Edit σ) :=
  match cmd with
  | some cmd => ed.edit cmd s
  | none => some (.reading .key s)

/-- The body of the loop of `linenoiseEdit`, from the switch over the key on. -/
def handle (c : UInt8) (s : σ) : Option (Edit σ) :=
  match keyAction c with
  | .edit cmd => ed.edit cmd s
  | .enter => ((ed.popHistory s).bind ed.leave).map (.returned (ed.len s))
  | .interrupt => some (.returned (-1) s)
  | .deleteOrEof =>
    if 0 < ed.len s then ed.edit .delete s
    else (ed.popHistory s).map (.returned (-1))
  | .escape => some (.reading .seq₀ s)
  | .clearScreen => some (.reading .key s)

/-- What `completeLine` does with the bytes it reads, and what its caller does with the byte it
returns. A byte from 128 on is a negative `char`. -/
def completing (lc : List CString) (i : ℕ) (c : UInt8) (s : σ) : Option (Edit σ) :=
  if c = TAB then some (.reading (.completing lc ((i + 1) % (lc.length + 1))) s)
  else if c = ESC then ed.handle c s
  else
    (match lc[i]? with
      | some t => ed.run (.complete t) s
      | none => some s).bind fun s =>
    if 128 ≤ c then some (.returned (ed.len s) s)
    else if c = 0 then some (.reading .key s)
    else ed.handle c s

/-- The first round of the loop of `completeLine`, or its return of 0 when there is nothing to
choose from. -/
def offer (lc : List CString) (s : σ) : Edit σ :=
  if lc = [] then .reading .key s else .reading (.completing lc 0) s

/-- The body of the loop of `linenoiseEdit`. `callback` is `completionCallback`. -/
def key (callback : Option (CString → List CString)) (c : UInt8) (s : σ) : Option (Edit σ) :=
  match callback with
  | some callback =>
    if c = TAB then (ed.line s).map fun line => offer (callback line) s else ed.handle c s
  | none => ed.handle c s

/-- One `read`. -/
def step (callback : Option (CString → List CString)) : Edit σ → ReadResult → Option (Edit σ)
  | .returned count s, _ => some (.returned count s)
  | .reading .key s, .byte c => ed.key callback c s
  | .reading .key s, _ => some (.returned (ed.len s) s)
  | .reading (.completing lc i) s, .byte c => ed.completing lc i c s
  | .reading (.completing _ _) s, _ => some (.returned (ed.len s) s)
  | .reading _ s, .error => some (.reading .key s)
  | .reading .seq₀ s, .byte c => some (.reading (.seq₁ c) s)
  | .reading .seq₀ s, .eof c => some (.reading (.seq₁ c) s)
  | .reading (.seq₁ c₀) s, .byte c => sequence c₀ c s
  | .reading (.seq₁ c₀) s, .eof c => sequence c₀ c s
  | .reading (.seq₂ c₁) s, .byte c => ed.editIfAny (extendedCmd c₁ c) s
  | .reading (.seq₂ c₁) s, .eof c => ed.editIfAny (extendedCmd c₁ c) s
where
  /-- An escape sequence whose first two bytes are there. -/
  sequence (c₀ c₁ : UInt8) (s : σ) : Option (Edit σ) :=
    if c₀ = '['.toUInt8 ∧ isDigitByte c₁ then some (.reading (.seq₂ c₁) s)
    else ed.editIfAny (sequenceCmd c₀ c₁) s

/-- The edit after these outcomes of `read`. -/
def feed (callback : Option (CString → List CString)) (e : Edit σ) (input : List ReadResult) :
    Option (Edit σ) :=
  input.foldlM (ed.step callback) e

end Editor

theorem ite_ne {α : Type} {p : Prop} [Decidable p] {a b x : α} (ha : a ≠ x) (hb : b ≠ x) :
    (if p then a else b) ≠ x := by
  split_ifs
  · exact ha
  · exact hb

section Simulation

variable {σ τ : Type} {ed : Editor σ} {ed' : Editor τ} {ok : CString → Prop}
  {R R' : σ → τ → Prop} {s : σ} {t : τ}

/-- The completions among which the user is choosing are all `ok`. -/
def Reading.Offers (ok : CString → Prop) : Reading → Prop
  | .completing lc _ => ∀ w ∈ lc, ok w
  | _ => True

/-- Two editors whose functions all have a result and keep the relation `R`, as long as the
completions that are accepted are `ok`. Once the latest entry of the history is gone, they keep
`R'`. -/
structure Editor.Simulates (ed : Editor σ) (ed' : Editor τ) (ok : CString → Prop)
    (R R' : σ → τ → Prop) : Prop where
  line : ∀ {s t}, R s t → ∃ w, ed.line s = some w ∧ ed'.line t = some w
  len : ∀ {s t}, R s t → ed.len s = ed'.len t
  run : ∀ {s t} cmd, R s t → (∀ w, cmd = .complete w → ok w) →
    ∃ s' t', ed.run cmd s = some s' ∧ ed'.run cmd t = some t' ∧ R s' t'
  pop : ∀ {s t}, R s t →
    ∃ s' t', ed.popHistory s = some s' ∧ ed'.popHistory t = some t' ∧ R' s' t'
  leave : ∀ {s t}, R' s t → ∃ s' t', ed.leave s = some s' ∧ ed'.leave t = some t' ∧ R' s' t'
  weaken : ∀ {s t}, R s t → R' s t

inductive Edit.Rel (ok : CString → Prop) (R R' : σ → τ → Prop) : Edit σ → Edit τ → Prop
  | reading (at_ : Reading) (s : σ) (t : τ) (hok : at_.Offers ok) (h : R s t) :
      Edit.Rel ok R R' (.reading at_ s) (.reading at_ t)
  | returned (count : ℤ) (s : σ) (t : τ) (h : R' s t) :
      Edit.Rel ok R R' (.returned count s) (.returned count t)

def Agree (ok : CString → Prop) (R R' : σ → τ → Prop) (x : Option (Edit σ))
    (y : Option (Edit τ)) : Prop :=
  ∃ e e', x = some e ∧ y = some e' ∧ Edit.Rel ok R R' e e'

theorem agree_reading (at_ : Reading) (hok : at_.Offers ok) (h : R s t) :
    Agree ok R R' (some (.reading at_ s)) (some (.reading at_ t)) :=
  ⟨_, _, rfl, rfl, .reading at_ s t hok h⟩

theorem agree_returned (count : ℤ) (h : R' s t) :
    Agree ok R R' (some (.returned count s)) (some (.returned count t)) :=
  ⟨_, _, rfl, rfl, .returned count s t h⟩

namespace Editor.Simulates

variable (sim : ed.Simulates ed' ok R R')
include sim

theorem edit_agree {cmd : EditCmd} (h : R s t) (hok : ∀ w, cmd = .complete w → ok w) :
    Agree ok R R' (ed.edit cmd s) (ed'.edit cmd t) := by
  obtain ⟨s', t', hs, ht, hR⟩ := sim.run cmd h hok
  rw [Editor.edit, Editor.edit, hs, ht]
  exact agree_reading .key trivial hR

theorem pop_agree (count : ℤ) (h : R s t) :
    Agree ok R R' ((ed.popHistory s).map (.returned count))
      ((ed'.popHistory t).map (.returned count)) := by
  obtain ⟨s', t', hs, ht, hR⟩ := sim.pop h
  rw [hs, ht]
  exact agree_returned count hR

theorem enter_agree (count : ℤ) (h : R s t) :
    Agree ok R R' (((ed.popHistory s).bind ed.leave).map (.returned count))
      (((ed'.popHistory t).bind ed'.leave).map (.returned count)) := by
  obtain ⟨s', t', hs, ht, hR⟩ := sim.pop h
  obtain ⟨s'', t'', hs', ht', hR'⟩ := sim.leave hR
  rw [hs, ht, Option.bind_some, Option.bind_some, hs', ht']
  exact agree_returned count hR'

theorem editIfAny_agree {cmd : Option EditCmd} (h : R s t)
    (hok : ∀ w, cmd ≠ some (.complete w)) :
    Agree ok R R' (ed.editIfAny cmd s) (ed'.editIfAny cmd t) := by
  cases cmd with
  | none => exact agree_reading .key trivial h
  | some cmd => exact sim.edit_agree h fun w hw => absurd (congrArg some hw) (hok w)

theorem handle_agree (c : UInt8) (h : R s t) :
    Agree ok R R' (ed.handle c s) (ed'.handle c t) := by
  have hkey : ∀ w, keyAction c ≠ .edit (.complete w) := by
    intro w
    unfold keyAction
    repeat' refine ite_ne ?_ ?_
    all_goals simp only [ne_eq, reduceCtorEq, not_false_eq_true, KeyAction.edit.injEq]
  rw [Editor.handle, Editor.handle]
  cases hc : keyAction c with
  | edit cmd => exact sim.edit_agree h fun w hw => absurd (by rw [hc, hw]) (hkey w)
  | enter =>
    rw [sim.len h]
    exact sim.enter_agree _ h
  | interrupt => exact agree_returned (-1) (sim.weaken h)
  | deleteOrEof =>
    rw [sim.len h]
    dsimp only
    split_ifs
    · exact sim.edit_agree h fun w hw => by cases hw
    · exact sim.pop_agree (-1) h
  | escape => exact agree_reading .seq₀ trivial h
  | clearScreen => exact agree_reading .key trivial h

theorem sequence_agree (c₀ c₁ : UInt8) (h : R s t) :
    Agree ok R R' (Editor.step.sequence ed c₀ c₁ s) (Editor.step.sequence ed' c₀ c₁ t) := by
  rw [Editor.step.sequence, Editor.step.sequence]
  split_ifs with hext
  · exact agree_reading (.seq₂ c₁) trivial h
  · refine sim.editIfAny_agree h fun w => ?_
    unfold sequenceCmd
    split_ifs <;> simp

theorem extended_agree (c₁ c₂ : UInt8) (h : R s t) :
    Agree ok R R' (ed.editIfAny (extendedCmd c₁ c₂) s) (ed'.editIfAny (extendedCmd c₁ c₂) t) := by
  refine sim.editIfAny_agree h fun w => ?_
  unfold extendedCmd
  split_ifs <;> simp

theorem accept_agree {lc : List CString} (i : ℕ) (h : R s t) (hok : ∀ w ∈ lc, ok w) :
    ∃ s' t', (match lc[i]? with
        | some w => ed.run (.complete w) s
        | none => some s) = some s' ∧
      (match lc[i]? with
        | some w => ed'.run (.complete w) t
        | none => some t) = some t' ∧ R s' t' := by
  cases hw : lc[i]? with
  | none => exact ⟨s, t, rfl, rfl, h⟩
  | some w =>
    refine sim.run _ h fun v hv => ?_
    cases hv
    exact hok w (List.mem_of_getElem? hw)

theorem completing_agree {lc : List CString} (i : ℕ) (c : UInt8) (h : R s t)
    (hok : ∀ w ∈ lc, ok w) :
    Agree ok R R' (ed.completing lc i c s) (ed'.completing lc i c t) := by
  obtain ⟨s', t', hs, ht, hR⟩ := sim.accept_agree i h hok
  rw [Editor.completing, Editor.completing, hs, ht, Option.bind_some, Option.bind_some,
    sim.len hR]
  split_ifs
  · exact agree_reading (.completing lc _) hok h
  · exact sim.handle_agree c h
  · exact agree_returned _ (sim.weaken hR)
  · exact agree_reading .key trivial hR
  · exact sim.handle_agree c hR

theorem key_agree {callback : Option (CString → List CString)} (c : UInt8) (h : R s t)
    (hok : ∀ f ∈ callback, ∀ line, ∀ w ∈ f line, ok w) :
    Agree ok R R' (ed.key callback c s) (ed'.key callback c t) := by
  cases callback with
  | none => exact sim.handle_agree c h
  | some f =>
    rw [Editor.key, Editor.key]
    split_ifs with htab
    · obtain ⟨line, hs, ht⟩ := sim.line h
      rw [hs, ht, Option.map_some, Option.map_some, Editor.offer, Editor.offer]
      split_ifs with hlc
      · exact agree_reading .key trivial h
      · exact agree_reading (.completing (f line) 0) (hok f rfl line) h
    · exact sim.handle_agree c h

theorem step_agree {callback : Option (CString → List CString)} {e : Edit σ} {e' : Edit τ}
    (r : ReadResult) (h : Edit.Rel ok R R' e e')
    (hok : ∀ f ∈ callback, ∀ line, ∀ w ∈ f line, ok w) :
    Agree ok R R' (ed.step callback e r) (ed'.step callback e' r) := by
  cases h with
  | returned count s t hR => exact agree_returned count hR
  | reading at_ s t hoffers hR =>
    cases at_ with
    | key =>
      cases r with
      | byte c => exact sim.key_agree c hR hok
      | eof c | error =>
        simp only [Editor.step, sim.len hR]
        exact agree_returned _ (sim.weaken hR)
    | seq₀ =>
      cases r with
      | byte c | eof c => exact agree_reading (.seq₁ c) trivial hR
      | error => exact agree_reading .key trivial hR
    | seq₁ c₀ =>
      cases r with
      | byte c | eof c => exact sim.sequence_agree c₀ c hR
      | error => exact agree_reading .key trivial hR
    | seq₂ c₁ =>
      cases r with
      | byte c | eof c => exact sim.extended_agree c₁ c hR
      | error => exact agree_reading .key trivial hR
    | completing lc i =>
      cases r with
      | byte c => exact sim.completing_agree i c hR hoffers
      | eof c | error =>
        simp only [Editor.step, sim.len hR]
        exact agree_returned _ (sim.weaken hR)

theorem feed_agree {callback : Option (CString → List CString)} {e : Edit σ} {e' : Edit τ}
    (h : Edit.Rel ok R R' e e') (hok : ∀ f ∈ callback, ∀ line, ∀ w ∈ f line, ok w)
    (input : List ReadResult) :
    Agree ok R R' (ed.feed callback e input) (ed'.feed callback e' input) := by
  induction input generalizing e e' with
  | nil => exact ⟨e, e', rfl, rfl, h⟩
  | cons r input ih =>
    obtain ⟨f, f', hf, hf', hrel⟩ := sim.step_agree r h hok
    rw [Editor.feed, Editor.feed, List.foldlM_cons, List.foldlM_cons, hf, hf']
    exact ih hrel

end Editor.Simulates

end Simulation

end JailFs
