import JailFs.LineEdit
import JailFs.Zipper

/-!
# What the line editor is for

A line is a text with a cursor and a place in the history. The commands of `textEditor` act on
the text at the cursor and know of no buffer, length or NUL; `linenoise.c` does the same over its
array, whatever the keys are, and never leaves the array.
-/

namespace JailFs

open Buffer

/-- The line being edited, the history, and how far back in it the line stands. -/
structure LineText where
  line : Zipper UInt8
  history : LineHistory
  index : ℕ

namespace LineText

variable (t : LineText)

def place : ℕ := t.history.entries.length - 1 - t.index

/-- The line is put down at its place, up to the first NUL in it. -/
def putDown : LineText := { t with history := t.history.set t.place (.ofBuffer t.line.text) }

/-- The entry at a place is taken up. The copy that is edited has at most `room - 1` bytes. -/
def takeUp (room : ℕ) (index : ℕ) : LineText :=
  match t.history.entries[t.history.entries.length - 1 - index]? with
  | some entry => ⟨.atEnd (entry.bytes.take (room - 1)), t.history, index⟩
  | none => t

def older (room : ℕ) : LineText :=
  if t.history.entries.length ≤ 1 then t
  else if t.index + 1 < t.history.entries.length then t.putDown.takeUp room (t.index + 1)
  else t.putDown

def newer (room : ℕ) : LineText :=
  if t.history.entries.length ≤ 1 then t
  else if 0 < t.index then t.putDown.takeUp room (t.index - 1)
  else t.putDown

/-- A command, on lines of at most `room` bytes. -/
def run (room : ℕ) : EditCmd → LineText
  | .insert c => if t.line.text.length < room then { t with line := t.line.insert c } else t
  | .delete => { t with line := t.line.delete }
  | .backspace => { t with line := t.line.backspace }
  | .deletePrevWord => { t with line := t.line.deleteWord isSpaceByte }
  | .transpose => { t with line := t.line.transpose }
  | .moveLeft => { t with line := t.line.moveLeft }
  | .moveRight => { t with line := t.line.moveRight }
  | .moveHome => { t with line := t.line.moveHome }
  | .moveEnd => { t with line := t.line.moveEnd }
  | .clear => { t with line := .empty }
  | .killToEnd => { t with line := t.line.killRight }
  | .historyPrev => t.older room
  | .historyNext => t.newer room
  | .complete w => { t with line := .atEnd w.bytes }

/-- An empty line, as the latest entry of the history. -/
def start (h : LineHistory) : LineText :=
  ⟨.empty, linenoiseHistoryAdd h noLine, 0⟩

end LineText

def textEditor (room : ℕ) : Editor LineText where
  line t := some (.ofBuffer t.line.text)
  len t := t.line.text.length
  run cmd t := some (t.run room cmd)
  popHistory t := some { t with history := t.history.pop }
  leave := some

/-- The edit of a line of at most `room` bytes, driven by the same keys as `linenoiseEdit`. -/
def textEdit (callback : Option (CString → List CString)) (prompt : Bool) (room : ℕ)
    (h : LineHistory) (input : List ReadResult) : Option (Edit LineText) :=
  (textEditor room).feed callback
    (if prompt then .reading .key (.start h) else .returned (-1) (.start h)) input

/-- The line that `linenoise` returns. -/
def textRead : Edit LineText → LineRead
  | .reading _ _ => .waiting
  | .returned count t =>
    if count = -1 then .null t.history else .line (.ofBuffer t.line.text) t.history

/-- The array holds the text and a NUL, and the cursor and the length are those of the text. -/
structure ShowsText (l : LinenoiseState) (z : Zipper UInt8) : Prop where
  buf : ∃ junk, l.buf = z.left.reverse ++ (z.right ++ 0 :: junk)
  size : l.buf.length = l.buflen + 1
  room : l.buflen < 2 ^ 64
  pos : l.pos = z.left.length
  len : l.len = z.left.length + z.right.length

variable {l l' : LinenoiseState} {z : Zipper UInt8} {c : UInt8}

theorem subSize_eq {a b : ℕ} (hab : b ≤ a) (ha : a < 2 ^ 64) : subSize a b = a - b := by
  rw [subSize, show a + 2 ^ 64 - b = a - b + 2 ^ 64 by omega, Nat.add_mod_right,
    Nat.mod_eq_of_lt (by omega)]

theorem ofBuffer_prefix (text junk : List UInt8) :
    CString.ofBuffer (text ++ 0 :: junk) = .ofBuffer text := by
  refine CString.ext ?_
  change (text ++ 0 :: junk).takeWhile (· ≠ 0) = text.takeWhile (· ≠ 0)
  induction text with
  | nil => rfl
  | cons c text ih =>
    rw [List.cons_append, List.takeWhile_cons, List.takeWhile_cons, ih]

namespace ShowsText

theorem len_le (h : ShowsText l z) : l.len ≤ l.buflen := by
  obtain ⟨junk, hbuf⟩ := h.buf
  have hsize := h.size
  have hlen := h.len
  rw [hbuf] at hsize
  simp only [List.length_append, List.length_reverse, List.length_cons] at hsize
  omega

theorem pos_le (h : ShowsText l z) : l.pos ≤ l.len := by
  have hpos := h.pos
  have hlen := h.len
  omega

theorem subSize_pos (h : ShowsText l z) : subSize l.len l.pos = z.right.length := by
  rw [subSize_eq h.pos_le (Nat.lt_of_le_of_lt h.len_le h.room), h.len, h.pos,
    Nat.add_sub_cancel_left]

theorem stringAt_eq (h : ShowsText l z) : stringAt l.buf = some (.ofBuffer z.text) := by
  obtain ⟨junk, hbuf⟩ := h.buf
  rw [hbuf, ← List.append_assoc, stringAt, if_pos (by simp), ofBuffer_prefix]
  rfl

end ShowsText

/-- The function has a result, which shows the text `z` in the same array. -/
def Yields (l : LinenoiseState) (r : Option LinenoiseState) (z : Zipper UInt8) : Prop :=
  ∃ l', r = some l' ∧ ShowsText l' z ∧ l'.buflen = l.buflen ∧ l'.historyIndex = l.historyIndex

section Commands

variable (h : ShowsText l z)
include h

theorem ShowsText.yields {z' : Zipper UInt8} {buf : List UInt8} (junk : List UInt8) {pos len : ℕ}
    (hbuf : buf = z'.left.reverse ++ (z'.right ++ 0 :: junk)) (hsize : buf.length = l.buf.length)
    (hpos : pos = z'.left.length) (hlen : len = z'.left.length + z'.right.length) :
    Yields l (some { l with buf, pos, len }) z' :=
  ⟨_, rfl, ⟨⟨junk, hbuf⟩, hsize.trans h.size, h.room, hpos, hlen⟩, rfl, rfl⟩

theorem ShowsText.spare (hlen : l.len < l.buflen) :
    ∃ b junk, l.buf = z.left.reverse ++ (z.right ++ 0 :: b :: junk) := by
  obtain ⟨junk, hbuf⟩ := h.buf
  cases junk with
  | cons b junk => exact ⟨b, junk, hbuf⟩
  | nil =>
    have hsize := h.size
    have hl := h.len
    rw [hbuf] at hsize
    simp only [List.length_append, List.length_reverse, List.length_cons, List.length_nil] at hsize
    omega

theorem insert_yields (hlen : l.len < l.buflen) :
    Yields l (linenoiseEditInsert l c) (z.insert c) := by
  obtain ⟨b, junk, hbuf⟩ := h.spare hlen
  have hpos : l.pos = z.left.reverse.length := by rw [h.pos, List.length_reverse]
  have hend : l.len + 1 = (z.left.reverse ++ c :: z.right).length := by
    rw [h.len, List.length_append, List.length_reverse, List.length_cons, Nat.add_assoc]
  -- The byte is in place; the NUL takes the spare byte.
  have hlast : store (z.left.reverse ++ c :: (z.right ++ b :: junk)) (l.len + 1) 0 =
      some (z.left.reverse ++ c :: (z.right ++ 0 :: junk)) := by
    have hstore := store_append (z.left.reverse ++ c :: z.right) junk b 0
    rwa [← hend, List.append_assoc, List.append_assoc] at hstore
  have hdone : Yields l (some { l with
      buf := z.left.reverse ++ c :: (z.right ++ 0 :: junk)
      pos := l.pos + 1
      len := l.len + 1 }) (z.insert c) := by
    refine h.yields junk ?_ ?_ ?_ ?_
    · simp only [Zipper.insert, List.reverse_cons, List.append_assoc, List.cons_append,
        List.nil_append]
    · rw [hbuf]
      simp only [List.length_append, List.length_cons]
      omega
    · simp only [Zipper.insert, List.length_cons, h.pos]
    · simp only [Zipper.insert, List.length_cons, h.len]
      omega
  rw [linenoiseEditInsert, if_pos hlen]
  split_ifs with hat
  · have hnil : z.right = [] := by
      refine List.eq_nil_of_length_eq_zero ?_
      have hl := h.len
      have hp := h.pos
      omega
    have hfst : store l.buf l.pos c = some (z.left.reverse ++ c :: (z.right ++ b :: junk)) := by
      rw [hbuf, hpos, hnil]
      exact store_append _ _ _ _
    simp only [hfst, hlast, Option.bind_eq_bind, Option.bind_some]
    exact hdone
  · obtain ⟨d, hmove⟩ := memmove_up z.left.reverse z.right (b :: junk) 0
    have hfst : store (z.left.reverse ++ d :: (z.right ++ b :: junk)) l.pos c =
        some (z.left.reverse ++ c :: (z.right ++ b :: junk)) := by
      rw [hpos]
      exact store_append _ _ _ _
    rw [← hbuf, ← hpos, ← h.subSize_pos] at hmove
    simp only [hmove, hfst, hlast, Option.bind_eq_bind, Option.bind_some]
    exact hdone

omit h in
/-- The bytes right of a block of `d` are moved down over it, and a NUL is put after them. -/
theorem ShowsText.cut {left d right junk : List UInt8}
    (hbuf : l.buf = left.reverse ++ (d ++ (right ++ 0 :: junk))) (hd : d ≠ []) :
    ∃ buf junk', memmove l.buf left.length (left.length + d.length) right.length = some buf ∧
      store buf (left.length + right.length) 0 = some (left.reverse ++ (right ++ 0 :: junk')) ∧
      (left.reverse ++ (right ++ 0 :: junk')).length = l.buf.length := by
  have hmove := memmove_down left.reverse d right (0 :: junk)
  obtain ⟨e, junk', he⟩ : ∃ e junk', (d ++ (right ++ 0 :: junk)).drop right.length = e :: junk' :=
    List.exists_cons_of_ne_nil fun hnil => by
      have hlen := congrArg List.length hnil
      have hpos := List.length_pos_of_ne_nil hd
      simp only [List.length_drop, List.length_append, List.length_cons, List.length_nil] at hlen
      omega
  rw [← hbuf, he, List.length_reverse] at hmove
  have hstore := store_append (left.reverse ++ right) junk' e 0
  rw [List.length_append, List.length_reverse, List.append_assoc, List.append_assoc] at hstore
  exact ⟨_, junk', hmove, hstore, by rw [length_store hstore, length_memmove hmove]⟩

theorem delete_yields : Yields l (linenoiseEditDelete l) z.delete := by
  obtain ⟨junk, hbuf⟩ := h.buf
  have hpos := h.pos
  have hlen := h.len
  have hle := h.len_le
  have hroom := h.room
  rw [linenoiseEditDelete]
  cases hr : z.right with
  | nil =>
    rw [hr, List.length_nil] at hlen
    rw [if_neg (by omega)]
    have hz : z.delete = z := by rw [Zipper.delete, hr, List.tail_nil, ← hr]
    rw [hz]
    exact ⟨l, rfl, h, rfl, rfl⟩
  | cons b right =>
    rw [hr, List.length_cons] at hlen
    rw [hr] at hbuf
    obtain ⟨buf, junk', hmove, hstore, hsize⟩ := ShowsText.cut (d := [b]) hbuf (by simp)
    have hcount : subSize (subSize l.len l.pos) 1 = right.length := by
      rw [h.subSize_pos, hr, List.length_cons, subSize_eq (by omega) (by omega)]
      rfl
    have hlast : l.len - 1 = z.left.length + right.length := by omega
    rw [if_pos (by omega), hcount, hpos, hlast]
    simp only [List.length_singleton] at hmove
    simp only [hmove, hstore, Option.bind_eq_bind, Option.bind_some]
    have hz : z.delete = ⟨z.left, right⟩ := by rw [Zipper.delete, hr, List.tail_cons]
    rw [hz]
    exact h.yields _ rfl hsize rfl rfl

theorem backspace_yields : Yields l (linenoiseEditBackspace l) z.backspace := by
  obtain ⟨junk, hbuf⟩ := h.buf
  have hpos := h.pos
  have hlen := h.len
  rw [linenoiseEditBackspace]
  cases hl : z.left with
  | nil =>
    rw [hl, List.length_nil] at hpos
    rw [if_neg (by omega)]
    have hz : z.backspace = z := by rw [Zipper.backspace, hl, List.tail_nil, ← hl]
    rw [hz]
    exact ⟨l, rfl, h, rfl, rfl⟩
  | cons b left =>
    rw [hl, List.reverse_cons, List.append_assoc] at hbuf
    rw [hl, List.length_cons] at hpos hlen
    obtain ⟨buf, junk', hmove, hstore, hsize⟩ := ShowsText.cut (d := [b]) hbuf (by simp)
    have hlast : l.len - 1 = left.length + z.right.length := by omega
    rw [if_pos (by omega), h.subSize_pos, hlast, hpos, Nat.add_sub_cancel]
    simp only [List.length_singleton] at hmove
    simp only [hmove, hstore, Option.bind_eq_bind, Option.bind_some]
    have hz : z.backspace = ⟨left, z.right⟩ := by rw [Zipper.backspace, hl, List.tail_cons]
    rw [hz]
    exact h.yields _ rfl hsize rfl rfl

theorem moveLeft_shows : Yields l (some (linenoiseEditMoveLeft l)) z.moveLeft := by
  obtain ⟨junk, hbuf⟩ := h.buf
  rcases z with ⟨_ | ⟨b, left⟩, right⟩
  · have hpos : l.pos = 0 := h.pos
    rw [linenoiseEditMoveLeft, if_neg (by omega)]
    exact ⟨l, rfl, h, rfl, rfl⟩
  · have hpos : l.pos = left.length + 1 := h.pos
    rw [linenoiseEditMoveLeft, if_pos (by omega)]
    refine h.yields junk ?_ rfl (by rw [hpos]; rfl) ?_
    · rw [hbuf, Zipper.moveLeft, List.reverse_cons, List.append_assoc]
      rfl
    · rw [h.len]
      simp only [Zipper.moveLeft, List.length_cons]
      omega

theorem moveRight_shows : Yields l (some (linenoiseEditMoveRight l)) z.moveRight := by
  obtain ⟨junk, hbuf⟩ := h.buf
  have hpos := h.pos
  have hlen := h.len
  rcases z with ⟨left, _ | ⟨b, right⟩⟩
  · rw [linenoiseEditMoveRight, if_neg (by rw [hpos, hlen]; simp)]
    exact ⟨l, rfl, h, rfl, rfl⟩
  · rw [linenoiseEditMoveRight, if_pos (by rw [hpos, hlen]; simp)]
    refine h.yields junk ?_ rfl (by rw [hpos]; rfl) ?_
    · rw [hbuf, Zipper.moveRight, List.reverse_cons, List.append_assoc]
      rfl
    · rw [hlen]
      simp only [Zipper.moveRight, List.length_cons]
      omega

theorem moveHome_shows : Yields l (some (linenoiseEditMoveHome l)) z.moveHome := by
  obtain ⟨junk, hbuf⟩ := h.buf
  have heq : linenoiseEditMoveHome l = { l with pos := 0 } := by
    rw [linenoiseEditMoveHome]
    split_ifs with hpos
    · rfl
    · rw [← not_not.mp hpos]
  rw [heq]
  refine h.yields junk ?_ rfl rfl ?_
  · rw [hbuf, Zipper.moveHome, Zipper.text, List.append_assoc]
    rfl
  · rw [h.len, ← z.length_text]
    simp only [Zipper.moveHome, List.length_nil, Nat.zero_add]

theorem moveEnd_shows : Yields l (some (linenoiseEditMoveEnd l)) z.moveEnd := by
  obtain ⟨junk, hbuf⟩ := h.buf
  have heq : linenoiseEditMoveEnd l = { l with pos := l.len } := by
    rw [linenoiseEditMoveEnd]
    split_ifs with hpos
    · rfl
    · exact congrArg (fun pos => { l with pos }) (not_not.mp hpos)
  rw [heq]
  refine h.yields junk ?_ rfl ?_ ?_
  · rw [hbuf, Zipper.moveEnd, Zipper.atEnd, List.reverse_reverse, Zipper.text, List.append_assoc]
    rfl
  · rw [h.len, ← z.length_text, Zipper.moveEnd, Zipper.atEnd, List.length_reverse]
  · rw [h.len, ← z.length_text, Zipper.moveEnd, Zipper.atEnd, List.length_reverse]
    rfl

theorem killToEnd_yields : Yields l (editKillToEnd l) z.killRight := by
  obtain ⟨junk, hbuf⟩ := h.buf
  obtain ⟨b, rest, hb⟩ : ∃ b rest, z.right ++ 0 :: junk = b :: rest :=
    List.exists_cons_of_ne_nil (by simp)
  rw [hb] at hbuf
  have hstore := store_append z.left.reverse rest b 0
  rw [← hbuf, List.length_reverse, ← h.pos] at hstore
  simp only [editKillToEnd, hstore, Option.bind_eq_bind, Option.bind_some]
  exact h.yields rest rfl (length_store hstore) h.pos (by rw [h.pos]; rfl)

theorem clear_yields : Yields l (editClear l) .empty := by
  obtain ⟨junk, hbuf⟩ := h.buf
  obtain ⟨b, rest, hb⟩ : ∃ b rest, l.buf = b :: rest :=
    List.exists_cons_of_ne_nil (by rw [hbuf]; simp)
  have hstore : store l.buf 0 0 = some (0 :: rest) := by
    rw [hb]
    exact store_append [] rest b 0
  simp only [editClear, hstore, Option.bind_eq_bind, Option.bind_some]
  exact h.yields rest rfl (length_store hstore) rfl rfl

omit h in
theorem stepBack_eq {test : UInt8 → Bool} (left rest : List UInt8) :
    stepBack test (left.reverse ++ rest) left.length = some (left.dropWhile test).length := by
  induction left generalizing rest with
  | nil => rfl
  | cons b left ih =>
    have hget : ((b :: left).reverse ++ rest)[left.length]? = some b := by
      rw [List.reverse_cons, List.append_assoc, List.getElem?_append_right (by simp)]
      simp
    rw [List.length_cons, stepBack, hget, Option.bind_eq_bind, Option.bind_some,
      List.dropWhile_cons]
    split_ifs
    · rw [List.reverse_cons, List.append_assoc]
      exact ih _
    · rfl

theorem deletePrevWord_yields :
    Yields l (linenoiseEditDeletePrevWord l) (z.deleteWord isSpaceByte) := by
  obtain ⟨junk, hbuf⟩ := h.buf
  obtain ⟨e, he⟩ := List.dropWhile_suffix (l := z.left) isSpaceByte
  rw [Zipper.deleteWord]
  generalize hwords : z.left.dropWhile isSpaceByte = words at he ⊢
  obtain ⟨d, hd⟩ := List.dropWhile_suffix (l := words) (fun c => !isSpaceByte c)
  generalize hleft : words.dropWhile (fun c => !isSpaceByte c) = left at hd ⊢
  have hfst : stepBack isSpaceByte l.buf l.pos = some words.length := by
    rw [hbuf, h.pos, ← hwords]
    exact stepBack_eq z.left _
  have hsnd : stepBack (fun c => !isSpaceByte c) l.buf words.length = some left.length := by
    rw [hbuf, ← he, List.reverse_append, List.append_assoc, ← hleft]
    exact stepBack_eq words _
  rw [← hd, ← List.append_assoc] at he
  generalize e ++ d = d at he
  have hdist : l.pos = left.length + d.length := by
    rw [h.pos, ← he, List.length_append, Nat.add_comm]
  have hcount : subSize l.len l.pos + 1 = (z.right ++ [0]).length := by
    rw [h.subSize_pos, List.length_append, List.length_singleton]
  have hmove := memmove_down left.reverse d.reverse (z.right ++ [0]) junk
  generalize (d.reverse ++ ((z.right ++ [0]) ++ junk)).drop (z.right ++ [0]).length = junk' at hmove
  have harray : left.reverse ++ (d.reverse ++ ((z.right ++ [0]) ++ junk)) = l.buf := by
    rw [hbuf, ← he, List.reverse_append, List.append_assoc, List.append_assoc]
    rfl
  rw [harray, List.length_reverse, List.length_reverse, ← hdist, ← hcount] at hmove
  have hle := h.pos_le
  have hroom := Nat.lt_of_le_of_lt h.len_le h.room
  have hlen : subSize l.len (subSize l.pos left.length) = left.length + z.right.length := by
    have hsum := h.len
    rw [← h.pos, hdist] at hsum
    rw [subSize_eq (a := l.pos) (by omega) (by omega), subSize_eq (by omega) hroom]
    omega
  rw [linenoiseEditDeletePrevWord, hfst, Option.bind_eq_bind, Option.bind_some, hsnd,
    Option.bind_eq_bind, Option.bind_some, hmove, Option.bind_some, hlen]
  refine h.yields junk' ?_ (length_memmove hmove) rfl rfl
  rw [List.append_assoc]
  rfl

theorem transpose_yields : Yields l (editTranspose l) z.transpose := by
  obtain ⟨junk, hbuf⟩ := h.buf
  have hpos := h.pos
  have hlen := h.len
  rcases z with ⟨_ | ⟨a, left⟩, _ | ⟨b, right⟩⟩
  · rw [editTranspose, if_neg (by simp at hpos; omega)]
    exact ⟨l, rfl, h, rfl, rfl⟩
  · rw [editTranspose, if_neg (by simp at hpos; omega)]
    exact ⟨l, rfl, h, rfl, rfl⟩
  · rw [editTranspose, if_neg (by simp at hpos hlen; omega)]
    exact ⟨l, rfl, h, rfl, rfl⟩
  · simp only [List.length_cons] at hpos hlen
    have hprev : l.pos - 1 = left.reverse.length := by
      rw [hpos, List.length_reverse]
      rfl
    have hnext : l.pos = (left.reverse ++ [b]).length := by
      rw [hpos, List.length_append, List.length_reverse, List.length_singleton]
    have harray : l.buf = left.reverse ++ a :: b :: (right ++ 0 :: junk) := by
      rw [hbuf, List.reverse_cons, List.append_assoc]
      rfl
    have ha : l.buf[l.pos - 1]? = some a := by
      rw [harray, hprev, List.getElem?_append_right (Nat.le_refl _), Nat.sub_self]
      rfl
    have hb : l.buf[l.pos]? = some b := by
      rw [harray, hpos, List.getElem?_append_right (by simp), List.length_reverse,
        Nat.add_sub_cancel_left]
      rfl
    have hfst : store l.buf (l.pos - 1) b =
        some (left.reverse ++ b :: b :: (right ++ 0 :: junk)) := by
      rw [harray, hprev]
      exact store_append _ _ _ _
    have hsnd : store (left.reverse ++ b :: b :: (right ++ 0 :: junk)) l.pos a =
        some (left.reverse ++ b :: a :: (right ++ 0 :: junk)) := by
      have hstore := store_append (left.reverse ++ [b]) (right ++ 0 :: junk) b a
      rwa [← hnext, List.append_assoc, List.append_assoc] at hstore
    have hsize : (left.reverse ++ b :: a :: (right ++ 0 :: junk)).length = l.buf.length := by
      rw [length_store hsnd, length_store hfst]
    simp only [editTranspose, if_pos (show 0 < l.pos ∧ l.pos < l.len by omega), ha, hb, hfst,
      hsnd, Option.bind_eq_bind, Option.bind_some]
    -- At the end of the text the cursor stays before the last byte.
    cases right with
    | nil =>
      rw [if_neg (by simp at hlen; omega)]
      refine h.yields junk ?_ hsize ?_ ?_
      · simp only [Zipper.transpose, List.reverse_cons, List.append_assoc, List.cons_append,
          List.nil_append]
      · rw [hpos]
        rfl
      · rw [hlen]
        rfl
    | cons c right =>
      rw [if_pos (by simp at hlen; omega)]
      refine h.yields junk ?_ hsize ?_ ?_
      · simp only [Zipper.transpose, List.reverse_cons, List.append_assoc, List.cons_append,
          List.nil_append]
      · rw [hpos]
        rfl
      · rw [hlen]
        simp only [Zipper.transpose, List.length_cons]
        omega

theorem complete_yields {t : CString} (ht : t.length < l.buflen) :
    Yields l (acceptCompletion l t) (.atEnd t.bytes) := by
  have hsize := h.size
  have htext : (t.bytes.take (l.buflen - 1) ++ [0]).take l.buflen = t.bytes ++ [0] := by
    have hlen : t.bytes.length ≤ l.buflen - 1 := Nat.le_sub_one_of_lt ht
    rw [List.take_of_length_le hlen, List.take_of_length_le]
    rwa [CString.length_bytes_nul]
  have hfits : (t.bytes ++ [0]).length ≤ l.buf.length := by
    rw [CString.length_bytes_nul, hsize]
    omega
  rw [acceptCompletion, htext, if_pos hfits]
  refine h.yields (l.buf.drop (t.bytes ++ [0]).length) ?_ ?_ ?_ ?_
  · rw [Zipper.atEnd, List.reverse_reverse, List.append_assoc]
    rfl
  · rw [List.length_append, List.length_drop]
    omega
  · rw [Zipper.atEnd, List.length_reverse, CString.length_bytes]
  · rw [Zipper.atEnd, List.length_reverse, CString.length_bytes]
    rfl

omit h in
theorem strncpy_store (buf : List UInt8) (entry : CString) {n : ℕ} (hn : 0 < n)
    (hfits : n ≤ buf.length) :
    ∃ buf' junk, strncpy buf entry n = some buf' ∧
      store buf' (n - 1) 0 = some (entry.bytes.take (n - 1) ++ 0 :: junk) := by
  obtain ⟨pad, hpad⟩ : ∃ pad, pad = entry.bytes ++ List.replicate n 0 := ⟨_, rfl⟩
  have hlong : n - 1 < pad.length := by
    rw [hpad, List.length_append, List.length_replicate]
    omega
  have hcut : pad.take n = pad.take (n - 1) ++ [pad[n - 1]] := by
    rw [← List.take_succ_eq_append_getElem hlong, Nat.sub_add_cancel hn]
  have hlen : (pad.take (n - 1)).length = n - 1 := by
    rw [List.length_take]
    omega
  have hstore := store_append (pad.take (n - 1)) (buf.drop n) pad[n - 1] 0
  rw [hlen] at hstore
  refine ⟨pad.take (n - 1) ++ pad[n - 1] :: buf.drop n,
    List.replicate (n - 1 - entry.bytes.length) 0 ++ buf.drop n, ?_, ?_⟩
  · rw [strncpy, if_pos hfits, ← hpad, hcut, List.append_assoc, List.singleton_append]
  · rw [hstore, hpad, List.take_append, List.take_replicate, List.append_assoc,
      Nat.min_eq_left (by omega)]
    -- The NUL of the store comes after those of `strncpy`.
    have hnul : ∀ k, List.replicate k (0 : UInt8) ++ 0 :: buf.drop n =
        0 :: (List.replicate k 0 ++ buf.drop n) := by
      intro k
      rw [← List.singleton_append, ← List.append_assoc, ← List.replicate_succ', List.replicate_succ,
        List.cons_append]
    rw [hnul]

theorem entry_yields (entry : CString) (hroom : 0 < l.buflen) :
    ∃ buf buf' shown, strncpy l.buf entry l.buflen = some buf ∧
      store buf (subSize l.buflen 1) 0 = some buf' ∧ stringAt buf' = some shown ∧
      Yields l (some { l with buf := buf', pos := shown.length, len := shown.length })
        (.atEnd (entry.bytes.take (l.buflen - 1))) := by
  have hsize := h.size
  obtain ⟨buf, junk, hcopy, hstore⟩ := strncpy_store l.buf entry hroom (by omega)
  have hno : 0 ∉ entry.bytes.take (l.buflen - 1) :=
    fun h0 => entry.noNul (List.mem_of_mem_take h0)
  have hshown : (CString.ofBuffer (entry.bytes.take (l.buflen - 1) ++ 0 :: junk)).bytes =
      entry.bytes.take (l.buflen - 1) := ofBuffer_eq hno
  have hlen : (CString.ofBuffer (entry.bytes.take (l.buflen - 1) ++ 0 :: junk)).length =
      (entry.bytes.take (l.buflen - 1)).length := congrArg List.length hshown
  refine ⟨buf, entry.bytes.take (l.buflen - 1) ++ 0 :: junk, _, hcopy, ?_, if_pos (by simp), ?_⟩
  · rw [subSize_eq hroom h.room]
    exact hstore
  · rw [hlen]
    have hsame : buf.length = l.buf.length := by
      rw [strncpy] at hcopy
      split_ifs at hcopy with hfits
      cases hcopy
      simp only [List.length_append, List.length_take, List.length_drop, List.length_replicate]
      omega
    refine h.yields junk ?_ ((length_store hstore).trans hsame) ?_ ?_
    · rw [Zipper.atEnd, List.reverse_reverse]
      rfl
    · rw [Zipper.atEnd, List.length_reverse]
    · rw [Zipper.atEnd, List.length_reverse]
      rfl

end Commands

/-- The line of `linenoiseState` and the history are those of the text. -/
structure Displays (room : ℕ) (s : LinenoiseState × LineHistory) (t : LineText) : Prop where
  shows : ShowsText s.1 t.line
  room : s.1.buflen = room
  history : s.2 = t.history
  index : s.1.historyIndex = t.index

/-- While the line is being edited, its place is in the history. -/
structure Edits (room : ℕ) (s : LinenoiseState × LineHistory) (t : LineText) : Prop
    extends Displays room s t where
  inHistory : t.index < t.history.entries.length

section History

variable {room : ℕ} {s : LinenoiseState × LineHistory} {t : LineText}

theorem Yields.edits {r : Option LinenoiseState} (hy : Yields s.1 r z) (h : Edits room s t) :
    ∃ s', r.map (·, s.2) = some s' ∧ Edits room s' { t with line := z } := by
  obtain ⟨l', hr, hshows, hroom, hindex⟩ := hy
  refine ⟨(l', s.2), by rw [hr, Option.map_some], ?_⟩
  exact ⟨⟨hshows, hroom.trans h.room, h.history, hindex.trans h.index⟩, h.inHistory⟩

theorem LineText.length_putDown : t.putDown.history.entries.length = t.history.entries.length :=
  List.length_set

theorem historyAt_eq {h : LineHistory} {i : ℤ} {j : ℕ} (hij : i = j) :
    historyAt h i = h.entries[j]? := by
  subst hij
  rw [historyAt, if_pos (Int.natCast_nonneg j), Int.toNat_natCast]

theorem historyNext_eq (h : Edits room s t) (dir : ℤ) (hlen : 1 < t.history.entries.length) :
    linenoiseEditHistoryNext s.1 s.2 dir =
      showEntry s.1 t.putDown.history (s.1.historyIndex + dir) := by
  have hin := h.inHistory
  have hplace : (t.history.entries.length : ℤ) - 1 - s.1.historyIndex = (t.place : ℕ) := by
    rw [h.index, LineText.place]
    omega
  have hlt : t.place < t.history.entries.length := by
    rw [LineText.place]
    omega
  rw [linenoiseEditHistoryNext, h.history, if_pos (by omega), hplace]
  dsimp only
  rw [historyAt_eq rfl, List.getElem?_eq_getElem hlt, h.shows.stringAt_eq]
  rfl

theorem showEntry_edits (hroom : 0 < room) (h : Edits room s t) {index : ℕ}
    (hin : index < t.history.entries.length) :
    ∃ s', showEntry s.1 t.history index = some s' ∧ Edits room s' (t.takeUp room index) := by
  have hplace : (t.history.entries.length : ℤ) - 1 - index =
      (t.history.entries.length - 1 - index : ℕ) := by omega
  obtain ⟨entry, hentry⟩ : ∃ entry,
      t.history.entries[t.history.entries.length - 1 - index]? = some entry :=
    ⟨_, List.getElem?_eq_getElem (by omega)⟩
  obtain ⟨buf, buf', shown, hcopy, hstore, hshown, l', hl', hshows, hbuflen, -⟩ :=
    entry_yields h.shows entry (h.room ▸ hroom)
  cases hl'
  rw [showEntry, if_neg (by omega), if_neg (by omega), hplace, historyAt_eq rfl, hentry,
    Option.bind_eq_bind, Option.bind_some, hcopy, Option.bind_eq_bind, Option.bind_some, hstore,
    Option.bind_some, hshown, Option.bind_some]
  refine ⟨_, rfl, ?_⟩
  rw [LineText.takeUp, hentry, ← h.room]
  exact ⟨⟨⟨hshows.buf, hshows.size, hshows.room, hshows.pos, hshows.len⟩, rfl, rfl, rfl⟩, hin⟩

theorem Edits.putDown (h : Edits room s t) : Edits room (s.1, t.putDown.history) t.putDown :=
  ⟨⟨h.shows, h.room, rfl, h.index⟩, by
    rw [LineText.length_putDown]
    exact h.inHistory⟩

theorem older_edits (hroom : 0 < room) (h : Edits room s t) :
    ∃ s', linenoiseEditHistoryNext s.1 s.2 1 = some s' ∧ Edits room s' (t.older room) := by
  have hin := h.inHistory
  rw [LineText.older]
  split_ifs with hone hup
  · refine ⟨s, ?_, h⟩
    rw [linenoiseEditHistoryNext, h.history, if_neg (by omega), ← h.history]
  · rw [historyNext_eq h 1 (by omega), h.index]
    exact showEntry_edits hroom h.putDown (by rwa [LineText.length_putDown])
  · rw [historyNext_eq h 1 (by omega), h.index, showEntry, LineText.length_putDown,
      if_neg (by omega), if_pos (by omega)]
    refine ⟨_, rfl, ⟨⟨h.shows.buf, h.shows.size, h.shows.room, h.shows.pos, h.shows.len⟩, h.room,
      rfl, ?_⟩, h.putDown.inHistory⟩
    change (t.history.entries.length : ℤ) - 1 = (t.index : ℤ)
    omega

theorem newer_edits (hroom : 0 < room) (h : Edits room s t) :
    ∃ s', linenoiseEditHistoryNext s.1 s.2 (-1) = some s' ∧ Edits room s' (t.newer room) := by
  have hin := h.inHistory
  rw [LineText.newer]
  split_ifs with hone hdown
  · refine ⟨s, ?_, h⟩
    rw [linenoiseEditHistoryNext, h.history, if_neg (by omega), ← h.history]
  · rw [historyNext_eq h (-1) (by omega), h.index,
      show (t.index : ℤ) + -1 = (t.index - 1 : ℕ) by omega]
    refine showEntry_edits hroom h.putDown ?_
    rw [LineText.length_putDown]
    exact Nat.lt_of_le_of_lt (Nat.sub_le _ _) hin
  · rw [historyNext_eq h (-1) (by omega), h.index, showEntry, if_pos (by omega)]
    refine ⟨_, rfl, ⟨⟨h.shows.buf, h.shows.size, h.shows.room, h.shows.pos, h.shows.len⟩, h.room,
      rfl, ?_⟩, h.putDown.inHistory⟩
    change (0 : ℤ) = (t.index : ℤ)
    omega

end History

theorem run_edits {room : ℕ} (hroom : 0 < room) {s : LinenoiseState × LineHistory} {t : LineText}
    (cmd : EditCmd) (h : Edits room s t) (hok : ∀ w, cmd = .complete w → w.length < room) :
    ∃ s', runCmd cmd s = some s' ∧ Edits room s' (t.run room cmd) := by
  cases cmd with
  | insert c =>
    have hlen : t.line.text.length = s.1.len := by rw [h.shows.len, Zipper.length_text]
    change ∃ s', (linenoiseEditInsert s.1 c).map (·, s.2) = some s' ∧ _
    rw [LineText.run, hlen, ← h.room]
    split_ifs with hfits
    · rw [h.room]
      exact (insert_yields h.shows hfits).edits h
    · rw [linenoiseEditInsert, if_neg hfits, h.room]
      exact ⟨s, rfl, h⟩
  | delete => exact (delete_yields h.shows).edits h
  | backspace => exact (backspace_yields h.shows).edits h
  | deletePrevWord => exact (deletePrevWord_yields h.shows).edits h
  | transpose => exact (transpose_yields h.shows).edits h
  | moveLeft => exact (moveLeft_shows h.shows).edits h
  | moveRight => exact (moveRight_shows h.shows).edits h
  | moveHome => exact (moveHome_shows h.shows).edits h
  | moveEnd => exact (moveEnd_shows h.shows).edits h
  | clear => exact (clear_yields h.shows).edits h
  | killToEnd => exact (killToEnd_yields h.shows).edits h
  | historyPrev => exact older_edits hroom h
  | historyNext => exact newer_edits hroom h
  | complete w => exact (complete_yields h.shows (h.room ▸ hok w rfl)).edits h

/-- The functions of `linenoise.c` do to the array what the commands do to the text. -/
theorem bufferEditor_simulates (room : ℕ) (hroom : 0 < room) :
    bufferEditor.Simulates (textEditor room) (fun w => w.length < room) (Edits room)
      (Displays room) where
  line h := ⟨_, h.shows.stringAt_eq, rfl⟩
  len {s t} h := by
    change s.1.len = t.line.text.length
    rw [h.shows.len, Zipper.length_text]
  run {s t} cmd h hok := by
    obtain ⟨s', hs, hR⟩ := run_edits hroom cmd h hok
    exact ⟨s', _, hs, rfl, hR⟩
  pop {s t} h := by
    have hne : s.2.entries ≠ [] := by
      rw [h.history]
      exact List.ne_nil_of_length_pos (Nat.zero_lt_of_lt h.inHistory)
    refine ⟨(s.1, s.2.pop), _, ?_, rfl, ?_⟩
    · change (popHistory s.2).map (s.1, ·) = _
      rw [popHistory, if_neg hne, Option.map_some]
    · rw [h.history]
      exact ⟨h.shows, h.room, rfl, h.index⟩
  leave h := ⟨_, _, rfl, rfl, h⟩
  weaken h := h.toDisplays

theorem editStart_edits {buf : List UInt8} (h : LineHistory) (hbuf : 0 < buf.length)
    (hroom : buf.length < 2 ^ 64) :
    ∃ s, editStart buf h = some s ∧ Edits (buf.length - 1) s (.start h) := by
  obtain ⟨b, junk, rfl⟩ : ∃ b junk, buf = b :: junk :=
    List.exists_cons_of_ne_nil (List.ne_nil_of_length_pos hbuf)
  have hstore : store (b :: junk) 0 0 = some (0 :: junk) := store_append [] junk b 0
  refine ⟨_, by rw [editStart, hstore]; rfl, ⟨⟨⟨junk, rfl⟩, ?_, ?_, rfl, rfl⟩, rfl, rfl, rfl⟩, ?_⟩
  · rw [length_store hstore]
    rfl
  · exact Nat.lt_of_le_of_lt (Nat.sub_le _ _) hroom
  · exact List.length_pos_of_ne_nil historyAdd_ne_nil

theorem linenoiseEdit_related (callback : Option (CString → List CString)) (prompt : Bool)
    (buf : List UInt8) (h : LineHistory) (input : List ReadResult) (hbuf : 1 < buf.length)
    (hroom : buf.length < 2 ^ 64)
    (hfits : ∀ f ∈ callback, ∀ line, ∀ w ∈ f line, w.length < buf.length - 1) :
    ∃ e t, linenoiseEdit callback prompt buf h input = some e ∧
      textEdit callback prompt (buf.length - 1) h input = some t ∧
      Edit.Rel (fun w => w.length < buf.length - 1) (Edits (buf.length - 1))
        (Displays (buf.length - 1)) e t := by
  obtain ⟨s, hstart, hR⟩ := editStart_edits h (by omega) hroom
  have hsim := bufferEditor_simulates (buf.length - 1) (by omega)
  rw [linenoiseEdit, hstart, textEdit]
  cases prompt with
  | true => exact hsim.feed_agree (.reading .key _ _ trivial hR) hfits input
  | false => exact hsim.feed_agree (.returned (-1) _ _ hR.toDisplays) hfits input

/-- Whatever is read from the terminal, the editor stays inside its array and inside the history,
and after every byte the array shows the text that the commands have made. -/
theorem linenoiseEdit_refines (callback : Option (CString → List CString)) (prompt : Bool)
    (buf : List UInt8) (h : LineHistory) (input : List ReadResult) (hbuf : 1 < buf.length)
    (hroom : buf.length < 2 ^ 64)
    (hfits : ∀ f ∈ callback, ∀ line, ∀ w ∈ f line, w.length < buf.length - 1) :
    ∃ e t, linenoiseEdit callback prompt buf h input = some e ∧
      textEdit callback prompt (buf.length - 1) h input = some t ∧
      Edit.Rel (fun w => w.length < buf.length - 1) (Edits (buf.length - 1))
        (Displays (buf.length - 1)) e t :=
  linenoiseEdit_related callback prompt buf h input hbuf hroom hfits

/-- `hi` is completed from `h`, and the `i` is then replaced by a `o`. -/
theorem linenoiseEdit_refines_hi :
    ∃ e t, linenoiseEdit (some fun _ => [.ofChars ['h', 'i']]) true (List.replicate 8 0)
        (.empty 3 (by decide)) ([104, 9, 5, 127, 111].map .byte) = some e ∧
      textEdit (some fun _ => [.ofChars ['h', 'i']]) true 7 (.empty 3 (by decide))
        ([104, 9, 5, 127, 111].map .byte) = some t ∧
      Edit.Rel (fun w => w.length < 7) (Edits 7) (Displays 7) e t :=
  linenoiseEdit_refines _ true (List.replicate 8 0) (.empty 3 (by decide)) _ (by decide)
    (by decide) fun f hf line w hw => by
      cases hf
      rw [List.mem_singleton.mp hw]
      decide

/-- The lines that `linenoise` returns are those of the texts, up to the first NUL. -/
theorem linenoise_eq {callback : Option (CString → List CString)}
    (hfits : ∀ f ∈ callback, ∀ line, ∀ w ∈ f line, w.length < LINENOISE_MAX_LINE - 1)
    (h : LineHistory) (p : Prompt) (hraw : p.raw = true) :
    ∃ t, textEdit callback p.written (LINENOISE_MAX_LINE - 1) h p.input = some t ∧
      linenoise callback h p = some (textRead t) := by
  obtain ⟨e, t, he, ht, hrel⟩ := linenoiseEdit_related callback p.written p.buf h p.input
    (by rw [p.size]; decide) (by rw [p.size]; decide) (by rwa [p.size])
  rw [p.size] at ht
  refine ⟨t, ht, ?_⟩
  rw [linenoise, if_pos hraw, he, Option.bind_some]
  cases hrel with
  | reading at_ s t => rfl
  | returned count s t hshows =>
    rw [lineRead, textRead, hshows.shows.stringAt_eq, hshows.history]
    split_ifs <;> rfl

end JailFs
