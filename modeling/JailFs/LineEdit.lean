import JailFs.Buffer
import JailFs.ConfLoad
import JailFs.LineHistory
import JailFs.LineKeys

/-!
# The line editor over its buffer

The functions of `linenoise.c` that edit a line, on the array of `char` that the caller of
`linenoiseEdit` hands in. Every index is checked against the size of the array, also the indices
into the history; a function whose stores all stay inside has a result. The fields of
`struct linenoiseState` that only the redraw reads are left out.
-/

namespace JailFs

open Buffer

/-- The size of the buffer of `linenoise`. -/
def LINENOISE_MAX_LINE : ℕ := 4096

/-- A difference of two values of type `size_t`. -/
@[irreducible] def subSize (a b : ℕ) : ℕ := (a + 2 ^ 64 - b) % 2 ^ 64

/-- `struct linenoiseState`. The array of `buf` has one byte more than `buflen`, which
`linenoiseEdit` has taken off for the NUL. -/
structure LinenoiseState where
  buf : List UInt8
  buflen : ℕ
  pos : ℕ
  len : ℕ
  historyIndex : ℤ

/-- A string in memory, or `none` when no NUL ends it inside the array. -/
def stringAt (buf : List UInt8) : Option CString :=
  if 0 ∈ buf then some (.ofBuffer buf) else none

def linenoiseEditInsert (l : LinenoiseState) (c : UInt8) : Option LinenoiseState :=
  if l.len < l.buflen then
    if l.len = l.pos then do
      let buf ← store l.buf l.pos c
      let buf ← store buf (l.len + 1) 0
      some { l with buf, pos := l.pos + 1, len := l.len + 1 }
    else do
      let buf ← memmove l.buf (l.pos + 1) l.pos (subSize l.len l.pos)
      let buf ← store buf l.pos c
      let buf ← store buf (l.len + 1) 0
      some { l with buf, pos := l.pos + 1, len := l.len + 1 }
  else some l

def linenoiseEditMoveLeft (l : LinenoiseState) : LinenoiseState :=
  if 0 < l.pos then { l with pos := l.pos - 1 } else l

def linenoiseEditMoveRight (l : LinenoiseState) : LinenoiseState :=
  if l.pos ≠ l.len then { l with pos := l.pos + 1 } else l

def linenoiseEditMoveHome (l : LinenoiseState) : LinenoiseState :=
  if l.pos ≠ 0 then { l with pos := 0 } else l

def linenoiseEditMoveEnd (l : LinenoiseState) : LinenoiseState :=
  if l.pos ≠ l.len then { l with pos := l.len } else l

def linenoiseEditDelete (l : LinenoiseState) : Option LinenoiseState :=
  if 0 < l.len ∧ l.pos < l.len then do
    let buf ← memmove l.buf l.pos (l.pos + 1) (subSize (subSize l.len l.pos) 1)
    let buf ← store buf (l.len - 1) 0
    some { l with buf, len := l.len - 1 }
  else some l

def linenoiseEditBackspace (l : LinenoiseState) : Option LinenoiseState :=
  if 0 < l.pos ∧ 0 < l.len then do
    let buf ← memmove l.buf (l.pos - 1) l.pos (subSize l.len l.pos)
    let buf ← store buf (l.len - 1) 0
    some { l with buf, pos := l.pos - 1, len := l.len - 1 }
  else some l

/-- `while (l->pos > 0 && test(l->buf[l->pos-1])) l->pos--;` -/
def stepBack (test : UInt8 → Bool) (buf : List UInt8) : ℕ → Option ℕ
  | 0 => some 0
  | pos + 1 => do
    let c ← buf[pos]?
    if test c then stepBack test buf pos else some (pos + 1)

/-- `' '` -/
def isSpaceByte (c : UInt8) : Bool := c == 32

def linenoiseEditDeletePrevWord (l : LinenoiseState) : Option LinenoiseState := do
  let pos ← stepBack isSpaceByte l.buf l.pos
  let pos ← stepBack (fun c => !isSpaceByte c) l.buf pos
  let buf ← memmove l.buf pos l.pos (subSize l.len l.pos + 1)
  some { l with buf, pos, len := subSize l.len (subSize l.pos pos) }

/-- `buf[l.pos-1]` and `buf[l.pos]` change places. -/
def editTranspose (l : LinenoiseState) : Option LinenoiseState :=
  if 0 < l.pos ∧ l.pos < l.len then do
    let aux ← l.buf[l.pos - 1]?
    let c ← l.buf[l.pos]?
    let buf ← store l.buf (l.pos - 1) c
    let buf ← store buf l.pos aux
    some { l with buf, pos := if l.pos ≠ l.len - 1 then l.pos + 1 else l.pos }
  else some l

def editClear (l : LinenoiseState) : Option LinenoiseState := do
  let buf ← store l.buf 0 0
  some { l with buf, pos := 0, len := 0 }

def editKillToEnd (l : LinenoiseState) : Option LinenoiseState := do
  let buf ← store l.buf l.pos 0
  some { l with buf, len := l.pos }

/-- `strncpy(buf, s, n)`: the string, and NULs up to the `n`-th byte. -/
def strncpy (buf : List UInt8) (s : CString) (n : ℕ) : Option (List UInt8) :=
  if n ≤ buf.length then
    some ((s.bytes ++ List.replicate n 0).take n ++ buf.drop n)
  else none

/-- `history[i]`, where `i` is an `int`. -/
def historyAt (h : LineHistory) (i : ℤ) : Option CString :=
  if 0 ≤ i then h.entries[i.toNat]? else none

/-- The line is replaced by the entry at `index`, counted from the latest one. -/
def showEntry (l : LinenoiseState) (h : LineHistory) (index : ℤ) :
    Option (LinenoiseState × LineHistory) :=
  let historyLen : ℤ := h.entries.length
  if index < 0 then some ({ l with historyIndex := 0 }, h)
  else if historyLen ≤ index then some ({ l with historyIndex := historyLen - 1 }, h)
  else do
    let entry ← historyAt h (historyLen - 1 - index)
    let buf ← strncpy l.buf entry l.buflen
    let buf ← store buf (subSize l.buflen 1) 0
    let shown ← stringAt buf
    some ({ l with buf, pos := shown.length, len := shown.length, historyIndex := index }, h)

/-- `dir` is 1 for `LINENOISE_HISTORY_PREV` and -1 for `LINENOISE_HISTORY_NEXT`. -/
def linenoiseEditHistoryNext (l : LinenoiseState) (h : LineHistory) (dir : ℤ) :
    Option (LinenoiseState × LineHistory) :=
  let historyLen : ℤ := h.entries.length
  if 1 < historyLen then do
    let current := historyLen - 1 - l.historyIndex
    let _ ← historyAt h current
    let line ← stringAt l.buf
    showEntry l (h.set current.toNat line) (l.historyIndex + dir)
  else some (l, h)

/-- `snprintf(ls->buf, ls->buflen, "%s", cvec[i])`, which returns the length of the whole string. -/
def acceptCompletion (l : LinenoiseState) (t : CString) : Option LinenoiseState :=
  let text := (t.bytes.take (l.buflen - 1) ++ [0]).take l.buflen
  if text.length ≤ l.buf.length then
    some { l with buf := text ++ l.buf.drop text.length, pos := t.length, len := t.length }
  else none

def popHistory (h : LineHistory) : Option LineHistory :=
  if h.entries = [] then none else some h.pop

def runCmd (cmd : EditCmd) : LinenoiseState × LineHistory → Option (LinenoiseState × LineHistory)
  | (l, h) => match cmd with
    | .insert c => (linenoiseEditInsert l c).map (·, h)
    | .delete => (linenoiseEditDelete l).map (·, h)
    | .backspace => (linenoiseEditBackspace l).map (·, h)
    | .deletePrevWord => (linenoiseEditDeletePrevWord l).map (·, h)
    | .transpose => (editTranspose l).map (·, h)
    | .moveLeft => some (linenoiseEditMoveLeft l, h)
    | .moveRight => some (linenoiseEditMoveRight l, h)
    | .moveHome => some (linenoiseEditMoveHome l, h)
    | .moveEnd => some (linenoiseEditMoveEnd l, h)
    | .clear => (editClear l).map (·, h)
    | .killToEnd => (editKillToEnd l).map (·, h)
    | .historyPrev => linenoiseEditHistoryNext l h 1
    | .historyNext => linenoiseEditHistoryNext l h (-1)
    | .complete t => (acceptCompletion l t).map (·, h)

/-- The editor of `linenoise.c`. -/
def bufferEditor : Editor (LinenoiseState × LineHistory) where
  line s := stringAt s.1.buf
  len s := s.1.len
  run := runCmd
  popHistory s := (popHistory s.2).map (s.1, ·)
  leave := some

/-- The empty string, under which the line being edited is entered in the history. -/
def noLine : CString := ⟨[], List.not_mem_nil⟩

/-- The buffer and the history when the loop of `linenoiseEdit` starts. `buf` is the array of the
caller, whatever it holds. -/
def editStart (buf : List UInt8) (h : LineHistory) : Option (LinenoiseState × LineHistory) := do
  let buf' ← store buf 0 0
  some (⟨buf', buf.length - 1, 0, 0, 0⟩, linenoiseHistoryAdd h noLine)

/-- `linenoiseEdit` after the outcomes `input` of its calls of `read`. `prompt` is whether the
prompt was written. -/
def linenoiseEdit (callback : Option (CString → List CString)) (prompt : Bool)
    (buf : List UInt8) (h : LineHistory) (input : List ReadResult) :
    Option (Edit (LinenoiseState × LineHistory)) := do
  let s ← editStart buf h
  bufferEditor.feed callback (if prompt then .reading .key s else .returned (-1) s) input

/-- What a prompt finds: whether the terminal goes into raw mode, whether it takes the prompt, what
the array of `linenoise` happens to hold, and the outcomes of `read` from then on. -/
structure Prompt where
  raw : Bool
  written : Bool
  buf : List UInt8
  size : buf.length = LINENOISE_MAX_LINE
  input : List ReadResult

/-- What `linenoise` returns on a terminal, with the history it leaves. -/
inductive LineRead
  | waiting
  | null (h : LineHistory)
  | line (l : CString) (h : LineHistory)

/-- `-1` is no line; else the buffer is copied. -/
def lineRead : Edit (LinenoiseState × LineHistory) → Option LineRead
  | .reading _ _ => some .waiting
  | .returned count s =>
    if count = -1 then some (.null s.2) else (stringAt s.1.buf).map (.line · s.2)

/-- `linenoise` and `linenoiseRaw` on a terminal. -/
def linenoise (callback : Option (CString → List CString)) (h : LineHistory) (p : Prompt) :
    Option LineRead :=
  if p.raw then (linenoiseEdit callback p.written p.buf h p.input).bind lineRead
  else some (.null h)

end JailFs
