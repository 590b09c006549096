import JailFs.CInt
import JailFs.LineKeys
import Mathlib.Data.Int.Notation
import Mathlib.Logic.Function.Iterate

/-!
# The screen editor `kilo.c`

The file is an array of rows, and the cursor is a place on the screen together with the offset of
the screen in the file. A read or a write outside the array, or in front of the characters of a
row, and a call of `isprint` with what is no character are faults; `none` stands for them. An
integer of the model has no bound, so the model is the program as long as `InRange` holds, where
every `int` fits; no allocation fails.

The name of the file is one for which `editorSelectSyntaxHighlight` leaves `E.syntax` at `NULL`.
Then `editorUpdateSyntax` makes every byte normal and nothing reads `idx` or `hl_oc`; the drawing
of the screen is modelled as far as it can fail. The terminal is read through `editorReadKey`,
whose results are the keys.
-/

namespace JailFs

def CTRL_Q : UInt8 := 17

def CTRL_S : UInt8 := 19

def KILO_QUIT_TIMES : ℕ := 3

def KILO_QUERY_LEN : ℕ := 256

/-- What `editorReadKey` returns: a `char`, or one of the soft codes. -/
inductive KiloKey
  | byte (c : UInt8)
  | arrowLeft
  | arrowRight
  | arrowUp
  | arrowDown
  | delKey
  | homeKey
  | endKey
  | pageUp
  | pageDown
  deriving DecidableEq, Repr

/-- The `int` that the code sees; a `char` has a sign. -/
def KiloKey.code : KiloKey → ℤ
  | byte c => if c < 128 then c.toNat else c.toNat - 256
  | arrowLeft => 1000
  | arrowRight => 1001
  | arrowUp => 1002
  | arrowDown => 1003
  | delKey => 1004
  | homeKey => 1005
  | endKey => 1006
  | pageUp => 1007
  | pageDown => 1008

/-- A line of the file, and how it is shown. -/
structure Erow where
  chars : List UInt8
  render : List UInt8
  deriving DecidableEq, Repr

def Erow.size (row : Erow) : ℤ := row.chars.length

structure EditorConfig where
  cx : ℤ
  cy : ℤ
  rowoff : ℤ
  coloff : ℤ
  screenrows : ℤ
  screencols : ℤ
  row : List Erow
  dirty : ℕ
  deriving DecidableEq, Repr

namespace EditorConfig

variable (e : EditorConfig)

def numrows : ℤ := e.row.length

/-- The row of the file that the cursor is in. -/
def filerow : ℤ := e.rowoff + e.cy

def filecol : ℤ := e.coloff + e.cx

/-- `E.row[i]` -/
def rowAt (i : ℤ) : Option Erow := if 0 ≤ i then e.row[i.toNat]? else none

def setRow (i : ℤ) (row : Erow) : EditorConfig := { e with row := e.row.set i.toNat row }

end EditorConfig

section Rows

/-- A TAB is shown as a blank and the blanks up to the next column before a multiple of eight. -/
def renderTab (out : List UInt8) : List UInt8 :=
  let out := out ++ [32]
  out ++ List.replicate (7 - out.length % 8) 32

/-- The second loop of `editorUpdateRow`, with what it has written. -/
def renderLoop (out : List UInt8) : List UInt8 → List UInt8
  | [] => out
  | c :: chars => renderLoop (if c = TAB then renderTab out else out ++ [c]) chars

def editorUpdateRow (row : Erow) : Erow := { row with render := renderLoop [] row.chars }

def editorInsertRow (e : EditorConfig) (at_ : ℤ) (s : List UInt8) : EditorConfig :=
  if at_ > e.numrows then e
  else
    { e with
      row := e.row.insertIdx at_.toNat (editorUpdateRow ⟨s, []⟩)
      dirty := e.dirty + 1 }

def editorDelRow (e : EditorConfig) (at_ : ℤ) : EditorConfig :=
  if at_ ≥ e.numrows then e
  else { e with row := e.row.eraseIdx at_.toNat, dirty := e.dirty + 1 }

def editorRowsToString (e : EditorConfig) : List UInt8 := e.row.flatMap fun row => row.chars ++ [10]

/-- The count of changes and every size of a row, with its TABs as blanks, fit in an `int`. -/
def EditorConfig.InRange (e : EditorConfig) : Prop :=
  FitsInt e.dirty ∧ FitsInt (9 * (editorRowsToString e).length)

instance (e : EditorConfig) : Decidable e.InRange := inferInstanceAs (Decidable (_ ∧ _))

/-- The row is `E.row[i]`. -/
def editorRowInsertChar (e : EditorConfig) (i : ℤ) (row : Erow) (at_ : ℤ) (c : UInt8) :
    Option EditorConfig :=
  if at_ < 0 then none
  else
    let chars :=
      if at_ > row.size then row.chars ++ List.replicate (at_ - row.size).toNat 32 ++ [c]
      else row.chars.take at_.toNat ++ c :: row.chars.drop at_.toNat
    let e := e.setRow i (editorUpdateRow { row with chars })
    some { e with dirty := e.dirty + 1 }

def editorRowAppendString (e : EditorConfig) (i : ℤ) (row : Erow) (s : List UInt8) :
    EditorConfig :=
  let e := e.setRow i (editorUpdateRow { row with chars := row.chars ++ s })
  { e with dirty := e.dirty + 1 }

def editorRowDelChar (e : EditorConfig) (i : ℤ) (row : Erow) (at_ : ℤ) : Option EditorConfig :=
  if row.size ≤ at_ then some e
  else if at_ < 0 then none
  else
    let chars := row.chars.eraseIdx at_.toNat
    -- the row is rendered before it is shortened, with the NUL that ends it
    let e := e.setRow i ⟨chars, (editorUpdateRow ⟨chars ++ [0], []⟩).render⟩
    some { e with dirty := e.dirty + 1 }

end Rows

section Editing

def scrollRight (e : EditorConfig) : EditorConfig :=
  if e.cx = e.screencols - 1 then { e with coloff := e.coloff + 1 } else { e with cx := e.cx + 1 }

def scrollDown (e : EditorConfig) : EditorConfig :=
  if e.cy = e.screenrows - 1 then { e with rowoff := e.rowoff + 1 } else { e with cy := e.cy + 1 }

/-- The loop of `editorInsertChar` that appends rows up to the one of the cursor. -/
def appendRows (n : ℕ) (e : EditorConfig) : EditorConfig :=
  (fun e => editorInsertRow e e.numrows [])^[n] e

def editorInsertChar (e : EditorConfig) (c : UInt8) : Option EditorConfig := do
  let filerow := e.filerow
  let filecol := e.filecol
  let e := appendRows (filerow + 1 - e.numrows).toNat e
  let row ← e.rowAt filerow
  let e ← editorRowInsertChar e filerow row filecol c
  let e := scrollRight e
  some { e with dirty := e.dirty + 1 }

/-- The end of `editorInsertNewline`, at the label `fixcursor`. -/
def fixNewline (e : EditorConfig) : EditorConfig := { scrollDown e with cx := 0, coloff := 0 }

def editorInsertNewline (e : EditorConfig) : Option EditorConfig :=
  let filerow := e.filerow
  if e.numrows ≤ filerow then
    if filerow = e.numrows then some (fixNewline (editorInsertRow e filerow [])) else some e
  else do
    let row ← e.rowAt filerow
    let filecol := if e.filecol ≥ row.size then row.size else e.filecol
    if filecol = 0 then some (fixNewline (editorInsertRow e filerow []))
    else if filecol < 0 then none
    else
      let e := editorInsertRow e (filerow + 1) (row.chars.drop filecol.toNat)
      let e := e.setRow filerow (editorUpdateRow { row with chars := row.chars.take filecol.toNat })
      some (fixNewline e)

/-- The cursor after a row was appended to the one before it, whose size was `filecol`. -/
def fixJoin (e : EditorConfig) (filecol : ℤ) : EditorConfig :=
  let e := if e.cy = 0 then { e with rowoff := e.rowoff - 1 } else { e with cy := e.cy - 1 }
  let e := { e with cx := filecol }
  if e.cx ≥ e.screencols then
    let shift := e.screencols - e.cx + 1
    { e with cx := e.cx - shift, coloff := e.coloff + shift }
  else e

def scrollLeft (e : EditorConfig) : EditorConfig :=
  if e.cx = 0 ∧ e.coloff ≠ 0 then { e with coloff := e.coloff - 1 } else { e with cx := e.cx - 1 }

def editorDelChar (e : EditorConfig) : Option EditorConfig :=
  let filerow := e.filerow
  let filecol := e.filecol
  if e.numrows ≤ filerow ∨ filecol = 0 ∧ filerow = 0 then some e
  else if filecol = 0 then do
    let prev ← e.rowAt (filerow - 1)
    let row ← e.rowAt filerow
    let e := editorRowAppendString e (filerow - 1) prev row.chars
    let e := fixJoin (editorDelRow e filerow) prev.size
    some { e with dirty := e.dirty + 1 }
  else do
    let row ← e.rowAt filerow
    let e ← editorRowDelChar e filerow row (filecol - 1)
    let e := scrollLeft e
    let row ← e.rowAt filerow
    let e := e.setRow filerow (editorUpdateRow row)
    some { e with dirty := e.dirty + 1 }

/-- The size of the row of the cursor, if there is one. -/
def cursorRowlen (e : EditorConfig) : Option ℤ :=
  if e.numrows ≤ e.filerow then some 0 else (e.rowAt e.filerow).map Erow.size

/-- The end of `editorMoveCursor`, where the cursor is put into its row. -/
def fixCursor (e : EditorConfig) : Option EditorConfig := do
  let rowlen ← cursorRowlen e
  if e.filecol > rowlen then
    let cx := e.cx - (e.filecol - rowlen)
    if cx < 0 then some { e with coloff := e.coloff + cx, cx := 0 } else some { e with cx }
  else some e

def moveLeft (e : EditorConfig) : Option EditorConfig :=
  if e.cx = 0 then
    if e.coloff ≠ 0 then some { e with coloff := e.coloff - 1 }
    else if e.filerow > 0 then do
      let prev ← e.rowAt (e.filerow - 1)
      let e := { e with cy := e.cy - 1, cx := prev.size }
      if e.cx > e.screencols - 1 then
        some { e with coloff := e.cx - e.screencols + 1, cx := e.screencols - 1 }
      else some e
    else some e
  else some { e with cx := e.cx - 1 }

def moveRight (e : EditorConfig) : Option EditorConfig :=
  if e.numrows ≤ e.filerow then some e
  else do
    let row ← e.rowAt e.filerow
    if e.filecol < row.size then some (scrollRight e)
    else if e.filecol = row.size then some (scrollDown { e with cx := 0, coloff := 0 })
    else some e

def moveUp (e : EditorConfig) : EditorConfig :=
  if e.cy = 0 then if e.rowoff ≠ 0 then { e with rowoff := e.rowoff - 1 } else e
  else { e with cy := e.cy - 1 }

def moveDown (e : EditorConfig) : EditorConfig :=
  if e.filerow < e.numrows then scrollDown e else e

def editorMoveCursor (e : EditorConfig) : KiloKey → Option EditorConfig
  | .arrowLeft => (moveLeft e).bind fixCursor
  | .arrowRight => (moveRight e).bind fixCursor
  | .arrowUp => fixCursor (moveUp e)
  | .arrowDown => fixCursor (moveDown e)
  | _ => fixCursor e

/-- `while(times--) editorMoveCursor(key);` -/
def moveTimes (key : KiloKey) : ℕ → EditorConfig → Option EditorConfig
  | 0, e => some e
  | times + 1, e => (editorMoveCursor e key).bind (moveTimes key times)

def pageUp (e : EditorConfig) : Option EditorConfig :=
  if e.screenrows < 0 then none
  else moveTimes .arrowUp e.screenrows.toNat (if e.cy ≠ 0 then { e with cy := 0 } else e)

def pageDown (e : EditorConfig) : Option EditorConfig :=
  if e.screenrows < 0 then none
  else
    moveTimes .arrowDown e.screenrows.toNat
      (if e.cy ≠ e.screenrows - 1 then { e with cy := e.screenrows - 1 } else e)

end Editing

section File

/-- The lines that `getline` reads, each with its newline. -/
def getlines : List UInt8 → List (List UInt8)
  | [] => []
  | c :: content =>
    if c = 10 then [c] :: getlines content
    else
      match getlines content with
      | [] => [[c]]
      | line :: lines => (c :: line) :: lines

/-- A line without the newline or the carriage return that ends it. -/
def chopLine (line : List UInt8) : List UInt8 :=
  match line.getLast? with
  | some c => if c = 10 ∨ c = 13 then line.dropLast else line
  | none => line

/-- `editorOpen` in a fresh editor; the file may not be there. -/
def editorOpen (e : EditorConfig) (file : Option (List UInt8)) : EditorConfig :=
  match file with
  | none => { e with dirty := 0 }
  | some content =>
    let e := (getlines content).foldl (fun e line => editorInsertRow e e.numrows (chopLine line)) e
    { e with dirty := 0 }

/-- How far `editorSave` gets: it cannot open the file or cannot set its length, it writes fewer
bytes than asked for, or it writes them all. -/
inductive SaveEnv
  | noOpen
  | noTruncate
  | short (n : ℕ)
  | written
  deriving DecidableEq, Repr

/-- A file that was cut or filled up with zeros to a length. -/
def ftruncate (content : List UInt8) (len : ℕ) : List UInt8 :=
  content.take len ++ List.replicate (len - content.length) 0

def editorSave (e : EditorConfig) (file : Option (List UInt8)) :
    SaveEnv → EditorConfig × Option (List UInt8)
  | .noOpen => (e, file)
  | .noTruncate => (e, some (file.getD []))
  | .short n =>
    let buf := editorRowsToString e
    (e, some (buf.take n ++ (ftruncate (file.getD []) buf.length).drop n))
  | .written => ({ e with dirty := 0 }, some (editorRowsToString e))

end File

section Find

/-- What `editorFind` remembers between two keys. -/
structure FindState where
  query : List UInt8
  lastMatch : ℤ
  savedCx : ℤ
  savedCy : ℤ
  savedColoff : ℤ
  savedRowoff : ℤ
  deriving DecidableEq, Repr

/-- Where `needle` occurs first in the string at the start of `hay`. -/
def strstr (hay needle : List UInt8) : Option ℕ :=
  (hay.takeWhile (· ≠ 0)).tails.findIdx? fun rest => needle.isPrefixOf rest

/-- `isprint` is defined for `EOF` and for what an `unsigned char` holds. -/
def isprint (c : ℤ) : Option Bool :=
  if -1 ≤ c ∧ c < 256 then some (32 ≤ c ∧ c < 127) else none

/-- The loop over the rows, from the one after `current` on, with the row and the place of the first
match; `none` is a fault. -/
def searchLoop (e : EditorConfig) (query : List UInt8) (findNext : ℤ) :
    ℕ → ℤ → Option (Option (ℤ × ℕ))
  | 0, _ => some none
  | i + 1, current => do
    let current := current + findNext
    let current :=
      if current = -1 then e.numrows - 1 else if current = e.numrows then 0 else current
    let row ← e.rowAt current
    match strstr row.render query with
    | some offset => some (some (current, offset))
    | none => searchLoop e query findNext i current

def showMatch (e : EditorConfig) (current : ℤ) (offset : ℕ) : EditorConfig :=
  let e := { e with cy := 0, cx := offset, rowoff := current, coloff := 0 }
  if e.cx > e.screencols then
    let diff := e.cx - e.screencols
    { e with cx := e.cx - diff, coloff := e.coloff + diff }
  else e

def findSearch (e : EditorConfig) (f : FindState) (findNext : ℤ) :
    Option (EditorConfig × FindState) :=
  let findNext := if f.lastMatch = -1 then 1 else findNext
  if findNext ≠ 0 then do
    match ← searchLoop e f.query findNext e.row.length f.lastMatch with
    | some (current, offset) => some (showMatch e current offset, { f with lastMatch := current })
    | none => some (e, f)
  else some (e, f)

def restoreCursor (e : EditorConfig) (f : FindState) : EditorConfig :=
  { e with cx := f.savedCx, cy := f.savedCy, coloff := f.savedColoff, rowoff := f.savedRowoff }

/-- One round of the loop of `editorFind`; it leaves the loop without a state of it. -/
def findKey (e : EditorConfig) (f : FindState) (key : KiloKey) :
    Option (EditorConfig × Option FindState) :=
  let go (f : FindState) (findNext : ℤ) : Option (EditorConfig × Option FindState) :=
    (findSearch e f findNext).map fun r => (r.1, some r.2)
  match key with
  | .delKey => go { f with query := f.query.dropLast, lastMatch := -1 } 0
  | .arrowRight | .arrowDown => go f 1
  | .arrowLeft | .arrowUp => go f (-1)
  | .byte c =>
    if c = CTRL_H ∨ c = BACKSPACE then go { f with query := f.query.dropLast, lastMatch := -1 } 0
    else if c = ESC then some (restoreCursor e f, none)
    else if c = ENTER then some (e, none)
    else
      match isprint key.code with
      | none => none
      | some true =>
        if f.query.length < KILO_QUERY_LEN then
          go { f with query := f.query ++ [c], lastMatch := -1 } 0
        else go f 0
      | some false => go f 0
  -- `isprint` has no answer for these
  | .homeKey | .endKey | .pageUp | .pageDown => none

end Find

section Drawing

/-- The length of the welcome line, with the bytes that clear the rest of its row. -/
def welcomelen : ℤ := 34

/-- What is drawn in the row `y` of the screen. The blanks in front of the welcome line are counted
down from half of what the line leaves free, and a row of the file is read from `coloff` on. -/
def drawRow (e : EditorConfig) (y : ℤ) : Option Unit :=
  if e.numrows ≤ e.rowoff + y then
    if e.numrows = 0 ∧ y = e.screenrows.tdiv 3 ∧ (e.screencols - welcomelen).tdiv 2 < 0 then none
    else some ()
  else do
    let row ← e.rowAt (e.rowoff + y)
    if 0 < min (row.render.length - e.coloff) e.screencols ∧ e.coloff < 0 then none else some ()

def drawRows (e : EditorConfig) : ℕ → Option Unit
  | 0 => some ()
  | y + 1 => (drawRows e y).bind fun _ => drawRow e y

/-- `editorRefreshScreen` changes nothing but the terminal. After the rows come the status, which a
negative number of columns cuts to a negative length, and the TABs in front of the cursor. -/
def editorRefreshScreen (e : EditorConfig) : Option Unit := do
  drawRows e e.screenrows.toNat
  if e.screencols < 0 then none
  else if e.numrows ≤ e.filerow then some ()
  else do
    let _ ← e.rowAt e.filerow
    if e.coloff < 0 ∧ 0 < e.cx then none else some ()

end Drawing

/-- The editor, its file, and the variables that outlive one key. -/
structure Kilo where
  e : EditorConfig
  quitTimes : ℕ
  exiting : Bool
  /-- `editorFind` is reading the keys. -/
  find : Option FindState
  file : Option (List UInt8)
  deriving DecidableEq, Repr

namespace Kilo

def edit (s : Kilo) (r : Option EditorConfig) : Option Kilo :=
  r.map fun e => { s with e, quitTimes := KILO_QUIT_TIMES }

/-- After a round of the loop of `editorFind`, which may be its last. -/
def afterFind (s : Kilo) (r : EditorConfig × Option FindState) : Kilo :=
  match r.2 with
  | some f => { s with e := r.1, find := some f }
  | none => { s with e := r.1, find := none, quitTimes := KILO_QUIT_TIMES }

/-- `editorProcessKeypress`, or a round of the loop of `editorFind`; `env` is for a save. -/
def processKey (s : Kilo) (env : SaveEnv) (key : KiloKey) : Option Kilo :=
  match s.find with
  | some f => (findKey s.e f key).map s.afterFind
  | none =>
    match key with
    | .byte c =>
      if c = ENTER then s.edit (editorInsertNewline s.e)
      else if c = CTRL_C then s.edit (some s.e)
      else if c = CTRL_Q then
        if s.e.dirty ≠ 0 ∧ s.quitTimes ≠ 0 then some { s with quitTimes := s.quitTimes - 1 }
        else some { s with exiting := true, quitTimes := KILO_QUIT_TIMES }
      else if c = CTRL_S then
        let (e, file) := editorSave s.e s.file env
        some { s with e, file, quitTimes := KILO_QUIT_TIMES }
      else if c = CTRL_F then
        some { s with find := some ⟨[], -1, s.e.cx, s.e.cy, s.e.coloff, s.e.rowoff⟩ }
      else if c = BACKSPACE ∨ c = CTRL_H then s.edit (editorDelChar s.e)
      else if c = CTRL_L ∨ c = ESC then s.edit (some s.e)
      else s.edit (editorInsertChar s.e c)
    | .delKey => s.edit (editorDelChar s.e)
    | .pageUp => s.edit (pageUp s.e)
    | .pageDown => s.edit (pageDown s.e)
    | .arrowUp => s.edit (editorMoveCursor s.e .arrowUp)
    | .arrowDown => s.edit (editorMoveCursor s.e .arrowDown)
    | .arrowLeft => s.edit (editorMoveCursor s.e .arrowLeft)
    | .arrowRight => s.edit (editorMoveCursor s.e .arrowRight)
    -- these two have no case of their own, and the soft code is cut to a byte
    | .homeKey => s.edit (editorInsertChar s.e (.ofInt KiloKey.homeKey.code))
    | .endKey => s.edit (editorInsertChar s.e (.ofInt KiloKey.endKey.code))

/-- A round of the loop of `kilo_main` or of `editorFind`: the screen is drawn and a key is read. -/
def step (s : Kilo) (env : SaveEnv) (key : KiloKey) : Option Kilo := do
  editorRefreshScreen s.e
  s.processKey env key

/-- `kilo_main` before the first key, on a screen with room for `rows` rows of the file. -/
def start (rows cols : ℤ) (file : Option (List UInt8)) : Kilo where
  e := editorOpen ⟨0, 0, 0, 0, rows, cols, [], 0⟩ file
  quitTimes := KILO_QUIT_TIMES
  exiting := false
  find := none
  file := file

end Kilo

end JailFs
