import JailFs.Kilo
import Mathlib.Data.List.InsertIdx

/-!
# A page of lines

A `Page` is a file as its lines, with a place in it; the place may be below the last line. The keys
of the editor act on the place and know of no screen. `Shows` says that an editor has the lines
and the place of a page, whatever part of the file its screen shows. One lemma for each function
of `kilo.c` says that it does to the editor what the key does to the page.
-/

namespace JailFs

/-- The line at `r`; a line below the last one is empty. -/
def lineAt (rows : List (List UInt8)) (r : ℕ) : List UInt8 := rows[r]?.getD []

structure Page where
  rows : List (List UInt8)
  r : ℕ
  c : ℕ
  fits : c ≤ (lineAt rows r).length

namespace Page

/-- The place in a line that is closest to a column. -/
def place (rows : List (List UInt8)) (r c : ℕ) : Page :=
  ⟨rows, r, min c (lineAt rows r).length, Nat.min_le_right _ _⟩

variable (p : Page)

def line : List UInt8 := lineAt p.rows p.r

/-- A character goes in; the lines that are missing up to it are added. -/
def put (b : UInt8) : Page :=
  place ((p.rows ++ List.replicate (p.r + 1 - p.rows.length) []).set p.r
    (p.line.take p.c ++ b :: p.line.drop p.c)) p.r (p.c + 1)

/-- The line is split, or one is added after the last one. -/
def newline : Page :=
  if p.r < p.rows.length then
    place ((p.rows.set p.r (p.line.take p.c)).insertIdx (p.r + 1) (p.line.drop p.c)) (p.r + 1) 0
  else if p.r = p.rows.length then place (p.rows ++ [[]]) (p.r + 1) 0
  else p

/-- The character before the place goes, or the line is joined to the one before it. -/
def backspace : Page :=
  if p.rows.length ≤ p.r ∨ p.c = 0 ∧ p.r = 0 then p
  else if p.c = 0 then
    place ((p.rows.set (p.r - 1) (lineAt p.rows (p.r - 1) ++ p.line)).eraseIdx p.r) (p.r - 1)
      (lineAt p.rows (p.r - 1)).length
  else place (p.rows.set p.r (p.line.eraseIdx (p.c - 1))) p.r (p.c - 1)

def left : Page :=
  if p.c ≠ 0 then place p.rows p.r (p.c - 1)
  else if p.r ≠ 0 then place p.rows (p.r - 1) (lineAt p.rows (p.r - 1)).length
  else p

def right : Page :=
  if p.r < p.rows.length then
    if p.c < p.line.length then place p.rows p.r (p.c + 1) else place p.rows (p.r + 1) 0
  else p

def up : Page := place p.rows (p.r - 1) p.c

def down : Page := if p.r < p.rows.length then place p.rows (p.r + 1) p.c else p

@[simp] theorem place_rows (rows : List (List UInt8)) (r c : ℕ) :
    (place rows r c).rows = rows := rfl

@[simp] theorem place_r (rows : List (List UInt8)) (r c : ℕ) : (place rows r c).r = r := rfl

theorem place_c {rows : List (List UInt8)} {r c : ℕ} (h : c ≤ (lineAt rows r).length) :
    (place rows r c).c = c := Nat.min_eq_left h

end Page

/-- A row as it is kept. -/
def shown (chars : List UInt8) : Erow := editorUpdateRow ⟨chars, []⟩

/-- The fields of the editor that say where its cursor is. -/
structure Screen where
  cx : ℤ
  cy : ℤ
  rowoff : ℤ
  coloff : ℤ
  screenrows : ℤ
  screencols : ℤ

def EditorConfig.screen (e : EditorConfig) : Screen :=
  ⟨e.cx, e.cy, e.rowoff, e.coloff, e.screenrows, e.screencols⟩

/-- The cursor is at a place of the file, and in a row of the screen. -/
structure Screen.At (s : Screen) (r c : ℕ) : Prop where
  row : s.rowoff + s.cy = r
  col : s.coloff + s.cx = c
  cx : 0 ≤ s.cx
  cy : 0 ≤ s.cy
  rowoff : 0 ≤ s.rowoff
  coloff : 0 ≤ s.coloff
  onScreen : s.cy < s.screenrows
  /-- The welcome line fits. -/
  columns : 32 < s.screencols

/-- The editor has the lines and the place of the page. -/
structure EditorConfig.Shows (e : EditorConfig) (p : Page) : Prop where
  row : e.row = p.rows.map shown
  place : e.screen.At p.r p.c

section Rows

variable {e : EditorConfig} {rows : List (List UInt8)} {k : ℕ} {s : List UInt8}

@[simp] theorem chars_shown (chars : List UInt8) : (shown chars).chars = chars := rfl

@[simp] theorem size_shown (chars : List UInt8) : (shown chars).size = chars.length := rfl

@[simp] theorem editorUpdateRow_chars (row : Erow) (chars : List UInt8) :
    editorUpdateRow { row with chars } = shown chars := rfl

theorem lineAt_of_le (h : rows.length ≤ k) : lineAt rows k = [] := by
  rw [lineAt, List.getElem?_eq_none h, Option.getD_none]

theorem getElem?_eq_lineAt (h : k < rows.length) : rows[k]? = some (lineAt rows k) := by
  rw [lineAt, List.getElem?_eq_getElem h, Option.getD_some]

theorem lineAt_eq {l : List UInt8} (h : rows[k]? = some l) : lineAt rows k = l := by
  rw [lineAt, h, Option.getD_some]

theorem numrows_eq (h : e.row = rows.map shown) : e.numrows = rows.length := by
  rw [EditorConfig.numrows, h, List.length_map]

theorem rowAt_eq (h : e.row = rows.map shown) (hk : k < rows.length) :
    e.rowAt k = some (shown (lineAt rows k)) := by
  rw [EditorConfig.rowAt, if_pos (Int.natCast_nonneg k), Int.toNat_natCast, h, List.getElem?_map,
    getElem?_eq_lineAt hk, Option.map_some]

theorem setRow_row (h : e.row = rows.map shown) (k : ℕ) (s : List UInt8) :
    (e.setRow k (shown s)).row = (rows.set k s).map shown := by
  rw [EditorConfig.setRow, Int.toNat_natCast, h, List.map_set]

theorem editorInsertRow_row (h : e.row = rows.map shown) (hk : k ≤ rows.length) :
    editorInsertRow e k s =
      { e with row := (rows.insertIdx k s).map shown, dirty := e.dirty + 1 } := by
  have hnot : ¬ (k : ℤ) > e.numrows := by
    rw [numrows_eq h]
    omega
  rw [editorInsertRow, if_neg hnot, Int.toNat_natCast, h, List.map_insertIdx]
  rfl

theorem editorDelRow_row (h : e.row = rows.map shown) (hk : k < rows.length) :
    editorDelRow e k = { e with row := (rows.eraseIdx k).map shown, dirty := e.dirty + 1 } := by
  have hnot : ¬ (k : ℤ) ≥ e.numrows := by
    rw [numrows_eq h]
    omega
  rw [editorDelRow, if_neg hnot, Int.toNat_natCast, h, List.eraseIdx_map]

/-- Empty rows are added at the end. -/
theorem appendRows_row (h : e.row = rows.map shown) (n : ℕ) :
    appendRows n e =
      { e with row := (rows ++ List.replicate n []).map shown, dirty := e.dirty + n } := by
  induction n generalizing e rows with
  | zero =>
    rw [appendRows, Function.iterate_zero, id, List.replicate_zero, List.append_nil, ← h]
    rfl
  | succ n ih =>
    have hlast : e.numrows = ((rows.length : ℕ) : ℤ) := numrows_eq h
    rw [appendRows, Function.iterate_succ_apply, hlast, editorInsertRow_row h le_rfl,
      List.insertIdx_length_self]
    refine (ih rfl).trans ?_
    rw [List.append_assoc, List.replicate_succ, List.singleton_append, Nat.add_right_comm,
      Nat.add_assoc]

/-- The lines with the missing ones up to `r`. -/
theorem lineAt_padded (rows : List (List UInt8)) (r : ℕ) :
    lineAt (rows ++ List.replicate (r + 1 - rows.length) []) r = lineAt rows r := by
  by_cases hr : r < rows.length
  · rw [lineAt, List.getElem?_append_left hr, lineAt]
  · have hr := Nat.le_of_not_lt hr
    rw [lineAt_of_le hr, lineAt, List.getElem?_append_right hr]
    cases hget : (List.replicate (r + 1 - rows.length) ([] : List UInt8))[r - rows.length]? with
    | none => rfl
    | some l => exact List.eq_of_mem_replicate (List.mem_of_getElem? hget)

/-- A line that is split in front of its first character. -/
theorem insertIdx_eq (hk : k < rows.length) (s : List UInt8) :
    rows.insertIdx k s = (rows.set k s).insertIdx (k + 1) (lineAt rows k) := by
  induction rows generalizing k with
  | nil => cases hk
  | cons l rows ih =>
    cases k with
    | zero => rfl
    | succ k => exact congrArg (l :: ·) (ih (Nat.lt_of_succ_lt_succ hk))

theorem set_insertIdx (rows : List (List UInt8)) (k : ℕ) (s t : List UInt8) :
    (rows.insertIdx (k + 1) s).set k t = (rows.set k t).insertIdx (k + 1) s := by
  induction rows generalizing k with
  | nil => cases k <;> rfl
  | cons l rows ih =>
    cases k with
    | zero => rfl
    | succ k => exact congrArg (l :: ·) (ih k)

theorem lineAt_set_self {r : ℕ} {l : List UInt8} (hr : r < rows.length) :
    lineAt (rows.set r l) r = l := by
  rw [lineAt, List.getElem?_set_self hr, Option.getD_some]

end Rows

section Scrolling

variable {e : EditorConfig} {r c n : ℕ}

theorem EditorConfig.at_iff : e.screen.At r c ↔ e.rowoff + e.cy = r ∧ e.coloff + e.cx = c ∧
    0 ≤ e.cx ∧ 0 ≤ e.cy ∧ 0 ≤ e.rowoff ∧ 0 ≤ e.coloff ∧ e.cy < e.screenrows ∧
      32 < e.screencols :=
  ⟨fun ⟨hrow, hcol, hcx, hcy, hrowoff, hcoloff, hscreen, hcolumns⟩ =>
    ⟨hrow, hcol, hcx, hcy, hrowoff, hcoloff, hscreen, hcolumns⟩,
  fun ⟨hrow, hcol, hcx, hcy, hrowoff, hcoloff, hscreen, hcolumns⟩ =>
    ⟨hrow, hcol, hcx, hcy, hrowoff, hcoloff, hscreen, hcolumns⟩⟩

theorem scrollRight_at (h : e.screen.At r c) : (scrollRight e).screen.At r (c + 1) := by
  unfold scrollRight
  split_ifs <;> simp only [EditorConfig.at_iff] at h ⊢ <;> omega

theorem scrollDown_at (h : e.screen.At r c) : (scrollDown e).screen.At (r + 1) c := by
  unfold scrollDown
  split_ifs <;> simp only [EditorConfig.at_iff] at h ⊢ <;> omega

theorem scrollLeft_at (h : e.screen.At r c) (hc : 0 < c) :
    (scrollLeft e).screen.At r (c - 1) := by
  unfold scrollLeft
  split_ifs <;> simp only [EditorConfig.at_iff] at h ⊢ <;> omega

theorem moveUp_at (h : e.screen.At r c) : (moveUp e).screen.At (r - 1) c := by
  unfold moveUp
  split_ifs <;> simp only [EditorConfig.at_iff] at h ⊢ <;> omega

theorem fixNewline_at (h : e.screen.At r c) : (fixNewline e).screen.At (r + 1) 0 := by
  unfold fixNewline scrollDown
  split_ifs <;> simp only [EditorConfig.at_iff] at h ⊢ <;> omega

/-- A row of at most one character more than the screen has columns was there to be joined to. -/
theorem fixJoin_at (h : e.screen.At r 0) (hr : 0 < r) (hn : (n : ℤ) ≤ e.screencols + 1) :
    (fixJoin e n).screen.At (r - 1) n := by
  unfold fixJoin
  dsimp only
  split_ifs <;> simp only [EditorConfig.at_iff] at * <;> omega

/-- A screen of more than 32 columns has no negative number of blanks beside the welcome line. -/
theorem drawRow_eq {rows : List (List UInt8)} (hrow : e.row = rows.map shown)
    (h : e.screen.At r c) (y : ℕ) : drawRow e y = some () := by
  rw [EditorConfig.at_iff] at h
  have hpadding : ¬ (e.screencols - welcomelen).tdiv 2 < 0 := by
    have hcols : e.screencols - welcomelen = -1 ∨ 0 ≤ e.screencols - welcomelen := by
      unfold welcomelen
      omega
    rcases hcols with hcols | hcols
    · rw [hcols]
      decide
    · exact Int.not_lt.mpr (Int.tdiv_nonneg hcols (by decide))
  unfold drawRow
  split_ifs with hlast hwelcome
  · exact absurd hwelcome.2.2 hpadding
  · rfl
  · have hlt : (e.rowoff + y).toNat < rows.length := by
      rw [numrows_eq hrow] at hlast
      omega
    have hread := rowAt_eq hrow hlt
    rw [Int.toNat_of_nonneg (by omega)] at hread
    rw [hread]
    dsimp only [Option.bind_eq_bind, Option.bind_some]
    rw [if_neg (by omega)]

theorem editorRefreshScreen_eq {rows : List (List UInt8)} (hrow : e.row = rows.map shown)
    (h : e.screen.At r c) : editorRefreshScreen e = some () := by
  have hrows (n : ℕ) : drawRows e n = some () := by
    induction n with
    | zero => rfl
    | succ y ih =>
      rw [drawRows, ih]
      exact drawRow_eq hrow h y
  have hfilerow : e.filerow = r := h.row
  rw [EditorConfig.at_iff] at h
  rw [editorRefreshScreen, hrows]
  dsimp only [Option.bind_eq_bind, Option.bind_some]
  rw [if_neg (by omega), hfilerow, numrows_eq hrow]
  by_cases hlast : (rows.length : ℤ) ≤ r
  · rw [if_pos hlast]
  · rw [if_neg hlast, rowAt_eq hrow (by omega)]
    exact if_neg (by omega)

@[simp] theorem scrollRight_row (e : EditorConfig) : (scrollRight e).row = e.row := by
  unfold scrollRight
  split_ifs <;> rfl

@[simp] theorem scrollDown_row (e : EditorConfig) : (scrollDown e).row = e.row := by
  unfold scrollDown
  split_ifs <;> rfl

@[simp] theorem scrollLeft_row (e : EditorConfig) : (scrollLeft e).row = e.row := by
  unfold scrollLeft
  split_ifs <;> rfl

@[simp] theorem moveUp_row (e : EditorConfig) : (moveUp e).row = e.row := by
  unfold moveUp
  split_ifs <;> rfl

@[simp] theorem fixNewline_row (e : EditorConfig) : (fixNewline e).row = e.row := scrollDown_row e

@[simp] theorem fixJoin_row (e : EditorConfig) (n : ℤ) : (fixJoin e n).row = e.row := by
  unfold fixJoin
  dsimp only
  split_ifs <;> rfl

end Scrolling

section Edits

variable {e : EditorConfig} {p : Page}

theorem editorRowInsertChar_eq (e : EditorConfig) (i : ℤ) {l : List UInt8} {k : ℕ}
    (hk : k ≤ l.length) (b : UInt8) : editorRowInsertChar e i (shown l) k b =
      some { e.setRow i (shown (l.take k ++ b :: l.drop k)) with dirty := e.dirty + 1 } := by
  have hnot : ¬ (k : ℤ) > (shown l).size := by
    rw [size_shown]
    omega
  rw [editorRowInsertChar, if_neg (by omega)]
  dsimp only
  rw [if_neg hnot, Int.toNat_natCast]
  rfl

theorem EditorConfig.Shows.insertChar (h : e.Shows p) (b : UInt8) :
    ∃ e', editorInsertChar e b = some e' ∧ e'.Shows (p.put b) := by
  obtain ⟨hrow, hat⟩ := h
  have hfilerow : e.filerow = p.r := hat.row
  have hfilecol : e.filecol = p.c := hat.col
  have hn : (e.filerow + 1 - e.numrows).toNat = p.r + 1 - p.rows.length := by
    rw [hfilerow, numrows_eq hrow]
    omega
  have hlen : p.r < (p.rows ++ List.replicate (p.r + 1 - p.rows.length) []).length := by
    rw [List.length_append, List.length_replicate]
    omega
  have hput : (p.put b).c = p.c + 1 := by
    refine Page.place_c ?_
    rw [lineAt_set_self hlen, List.length_append, List.length_cons, List.length_take, Page.line,
      Nat.min_eq_left p.fits]
    omega
  unfold editorInsertChar
  dsimp only
  rw [hn, appendRows_row hrow, hfilerow, hfilecol, rowAt_eq rfl hlen, lineAt_padded]
  dsimp only [Option.bind_eq_bind, Option.bind_some]
  rw [editorRowInsertChar_eq _ _ p.fits]
  refine ⟨_, rfl, ?_, ?_⟩
  · refine (scrollRight_row _).trans ?_
    exact setRow_row rfl p.r _
  · rw [hput]
    exact scrollRight_at hat

theorem EditorConfig.Shows.insertNewline (h : e.Shows p) :
    ∃ e', editorInsertNewline e = some e' ∧ e'.Shows p.newline := by
  obtain ⟨hrow, hat⟩ := h
  have hfilerow : e.filerow = p.r := hat.row
  have hfilecol : e.filecol = p.c := hat.col
  have hinsert {k : ℕ} (hk : k ≤ p.rows.length) (s : List UInt8) :
      (editorInsertRow e k s).row = (p.rows.insertIdx k s).map shown ∧
        (editorInsertRow e k s).screen = e.screen := by
    rw [editorInsertRow_row hrow hk]
    exact ⟨rfl, rfl⟩
  unfold editorInsertNewline Page.newline
  dsimp only
  rw [hfilerow, hfilecol, numrows_eq hrow]
  by_cases hr : p.r < p.rows.length
  · have hcol : (if (p.c : ℤ) ≥ (shown (lineAt p.rows p.r)).size
        then (shown (lineAt p.rows p.r)).size else (p.c : ℤ)) = p.c := by
      have hfits := p.fits
      rw [size_shown]
      split_ifs <;> omega
    rw [if_neg (by omega), rowAt_eq hrow hr, if_pos hr]
    dsimp only [Option.bind_eq_bind, Option.bind_some]
    rw [hcol]
    by_cases hc : p.c = 0
    · obtain ⟨hrow', hscreen⟩ := hinsert hr.le []
      rw [if_pos (by omega), hc]
      refine ⟨_, rfl, ?_, fixNewline_at (hscreen ▸ hat)⟩
      rw [fixNewline_row, hrow', insertIdx_eq hr]
      rfl
    · obtain ⟨hrow', hscreen⟩ := hinsert (Nat.succ_le_of_lt hr) (p.line.drop p.c)
      rw [if_neg (by omega), if_neg (by omega)]
      refine ⟨_, rfl, ?_, ?_⟩
      · rw [fixNewline_row, editorUpdateRow_chars, Int.toNat_natCast]
        refine (setRow_row hrow' p.r _).trans ?_
        rw [set_insertIdx]
        rfl
      · exact fixNewline_at (e := EditorConfig.setRow _ _ _) (hscreen ▸ hat)
  · rw [if_pos (by omega), if_neg hr]
    by_cases heq : p.r = p.rows.length
    · obtain ⟨hrow', hscreen⟩ := hinsert heq.le []
      rw [if_pos (by omega), if_pos heq]
      refine ⟨_, rfl, ?_, fixNewline_at (hscreen ▸ hat)⟩
      rw [fixNewline_row, hrow', heq, List.insertIdx_length_self]
      rfl
    · rw [if_neg (by omega), if_neg heq]
      exact ⟨e, rfl, hrow, hat⟩

theorem editorRowDelChar_eq (e : EditorConfig) (i : ℤ) {l : List UInt8} {k : ℕ}
    (hk : k < l.length) : ∃ row, row.chars = l.eraseIdx k ∧ editorRowDelChar e i (shown l) k =
      some { e.setRow i row with dirty := e.dirty + 1 } := by
  have hnot : ¬ (shown l).size ≤ (k : ℤ) := by
    rw [size_shown]
    omega
  rw [editorRowDelChar, if_neg hnot, if_neg (by omega)]
  exact ⟨_, rfl, rfl⟩

/-- The place is not at the start of a line behind one of more than a screen and a column. -/
def EditorConfig.JoinFits (e : EditorConfig) (p : Page) : Prop :=
  p.c = 0 → 0 < p.r → p.r < p.rows.length →
    ((lineAt p.rows (p.r - 1)).length : ℤ) ≤ e.screencols + 1

/-- At the start of a line, it is joined to the one before it. -/
theorem EditorConfig.Shows.delChar_join (h : e.Shows p) (hfits : e.JoinFits p) (hc : p.c = 0)
    (hfirst : 0 < p.r) (hr : p.r < p.rows.length) :
    ∃ e', editorDelChar e = some e' ∧ e'.Shows p.backspace := by
  obtain ⟨hrow, hat⟩ := h
  have hfilerow : e.filerow = p.r := hat.row
  have hfilecol : e.filecol = p.c := hat.col
  have hprev : (p.r : ℤ) - 1 = ((p.r - 1 : ℕ) : ℤ) := by omega
  have hsome : ¬ (p.rows.length ≤ p.r ∨ p.c = 0 ∧ p.r = 0) := by omega
  unfold editorDelChar Page.backspace
  dsimp only
  rw [hfilerow, hfilecol, numrows_eq hrow, if_neg (by omega), if_neg hsome, if_pos (by omega),
    if_pos hc, hprev, rowAt_eq hrow (by omega), rowAt_eq hrow hr]
  dsimp only [Option.bind_eq_bind, Option.bind_some]
  generalize hset : editorRowAppendString e ((p.r - 1 : ℕ) : ℤ)
    (shown (lineAt p.rows (p.r - 1))) (shown (lineAt p.rows p.r)).chars = e₁
  have hrow₁ : e₁.row =
      (p.rows.set (p.r - 1) (lineAt p.rows (p.r - 1) ++ p.line)).map shown := by
    rw [← hset]
    exact setRow_row hrow (p.r - 1) _
  have hat₁ : e₁.screen.At p.r 0 := by
    rw [← hset, ← hc]
    exact hat
  have hcols : e₁.screencols = e.screencols := by
    rw [← hset]
    rfl
  have hjoined : lineAt ((p.rows.set (p.r - 1) (lineAt p.rows (p.r - 1) ++ p.line)).eraseIdx
      p.r) (p.r - 1) = lineAt p.rows (p.r - 1) ++ p.line := by
    rw [lineAt, List.getElem?_eraseIdx_of_lt (by omega), List.getElem?_set_self (by omega),
      Option.getD_some]
  rw [editorDelRow_row hrow₁ (by rwa [List.length_set])]
  refine ⟨_, rfl, fixJoin_row _ _, (?_ : Screen.At _ (p.r - 1) (Page.place _ _ _).c)⟩
  rw [Page.place_c]
  · exact fixJoin_at hat₁ (by omega) (hcols ▸ hfits hc hfirst hr)
  · rw [hjoined, List.length_append]
    exact Nat.le_add_right _ _

theorem EditorConfig.Shows.delChar_inside (h : e.Shows p) (hc : p.c ≠ 0)
    (hr : p.r < p.rows.length) : ∃ e', editorDelChar e = some e' ∧ e'.Shows p.backspace := by
  obtain ⟨hrow, hat⟩ := h
  have hfilerow : e.filerow = p.r := hat.row
  have hfilecol : e.filecol = p.c := hat.col
  have hbefore : (p.c : ℤ) - 1 = ((p.c - 1 : ℕ) : ℤ) := by omega
  have hlt : p.c - 1 < (lineAt p.rows p.r).length := by
    have hfits := p.fits
    omega
  have hsome : ¬ (p.rows.length ≤ p.r ∨ p.c = 0 ∧ p.r = 0) := by omega
  obtain ⟨row, hchars, hdel⟩ := editorRowDelChar_eq e p.r hlt
  unfold editorDelChar Page.backspace
  dsimp only
  rw [hfilerow, hfilecol, numrows_eq hrow, if_neg (by omega), if_neg hsome, if_neg (by omega),
    if_neg hc, hbefore, rowAt_eq hrow hr]
  dsimp only [Option.bind_eq_bind, Option.bind_some]
  rw [hdel]
  dsimp only [Option.bind_some]
  generalize hset : ({ e.setRow p.r row with dirty := e.dirty + 1 } : EditorConfig) = e₁
  have hrow₁ : (scrollLeft e₁).row = (p.rows.map shown).set p.r row := by
    rw [scrollLeft_row, ← hset, ← hrow]
    rfl
  have hat₁ : (scrollLeft e₁).screen.At p.r (p.c - 1) := by
    refine scrollLeft_at ?_ (by omega)
    rw [← hset]
    exact hat
  have hget : (scrollLeft e₁).rowAt p.r = some row := by
    rw [EditorConfig.rowAt, if_pos (Int.natCast_nonneg _), Int.toNat_natCast, hrow₁,
      List.getElem?_set_self (by rwa [List.length_map])]
  rw [hget]
  refine ⟨_, rfl, ?_, (?_ : Screen.At _ p.r (Page.place _ _ _).c)⟩
  · change (scrollLeft e₁).row.set _ (shown row.chars) = _
    rw [hrow₁, Int.toNat_natCast, List.set_set, hchars, ← List.map_set]
    rfl
  · rw [Page.place_c]
    · exact hat₁
    · rw [lineAt_set_self hr, Page.line, List.length_eraseIdx_of_lt hlt]
      have hfits := p.fits
      omega

theorem EditorConfig.Shows.delChar (h : e.Shows p) (hfits : e.JoinFits p) :
    ∃ e', editorDelChar e = some e' ∧ e'.Shows p.backspace := by
  have hfilerow : e.filerow = p.r := h.place.row
  have hfilecol : e.filecol = p.c := h.place.col
  by_cases hnone : p.rows.length ≤ p.r ∨ p.c = 0 ∧ p.r = 0
  · unfold editorDelChar Page.backspace
    dsimp only
    rw [hfilerow, hfilecol, numrows_eq h.row, if_pos (by omega), if_pos hnone]
    exact ⟨e, rfl, h⟩
  · by_cases hc : p.c = 0
    · exact h.delChar_join hfits hc (by omega) (by omega)
    · exact h.delChar_inside hc (by omega)

end Edits

section Moves

variable {e : EditorConfig} {p : Page} {rows : List (List UInt8)} {r c : ℕ}

theorem cursorRowlen_eq (hrow : e.row = rows.map shown) (hat : e.screen.At r c) :
    cursorRowlen e = some ((lineAt rows r).length : ℤ) := by
  have hfilerow : e.filerow = r := hat.row
  rw [cursorRowlen, hfilerow, numrows_eq hrow]
  by_cases hr : r < rows.length
  · rw [if_neg (by omega), rowAt_eq hrow hr]
    rfl
  · rw [if_pos (by omega), lineAt_of_le (Nat.le_of_not_lt hr)]
    rfl

/-- Wherever the cursor comes to, it is put into the row. -/
theorem fixCursor_spec (hrow : e.row = rows.map shown) (hat : e.screen.At r c) :
    ∃ e', fixCursor e = some e' ∧ e'.Shows (.place rows r c) := by
  have hfilecol : e.filecol = c := hat.col
  unfold fixCursor
  rw [cursorRowlen_eq hrow hat]
  dsimp only [Option.bind_eq_bind, Option.bind_some]
  by_cases hover : e.filecol > ((lineAt rows r).length : ℤ)
  · have hplace : (Page.place rows r c).c = (lineAt rows r).length := Nat.min_eq_right (by omega)
    rw [if_pos hover]
    by_cases hneg : e.cx - (e.filecol - ((lineAt rows r).length : ℤ)) < 0
    · rw [if_pos hneg]
      refine ⟨_, rfl, hrow, (?_ : Screen.At _ r (Page.place rows r c).c)⟩
      rw [hplace]
      simp only [EditorConfig.at_iff, EditorConfig.filecol] at *
      omega
    · rw [if_neg hneg]
      refine ⟨_, rfl, hrow, (?_ : Screen.At _ r (Page.place rows r c).c)⟩
      rw [hplace]
      simp only [EditorConfig.at_iff, EditorConfig.filecol] at *
      omega
  · rw [if_neg hover]
    refine ⟨e, rfl, hrow, (?_ : Screen.At _ r (Page.place rows r c).c)⟩
    rw [Page.place_c (by omega)]
    exact hat

theorem Page.place_self (p : Page) : Page.place p.rows p.r p.c = p := by
  obtain ⟨rows, r, c, hfits⟩ := p
  simp only [Page.place, Page.mk.injEq, true_and]
  exact Nat.min_eq_left hfits

theorem EditorConfig.Shows.moveUp (h : e.Shows p) :
    ∃ e', editorMoveCursor e .arrowUp = some e' ∧ e'.Shows p.up :=
  fixCursor_spec ((moveUp_row e).trans h.row) (moveUp_at h.place)

theorem moveDown_spec (hrow : e.row = rows.map shown) (hat : e.screen.At r c) :
    ∃ e', editorMoveCursor e .arrowDown = some e' ∧
      e'.Shows (if r < rows.length then .place rows (r + 1) c else .place rows r c) := by
  have hfilerow : e.filerow = r := hat.row
  rw [editorMoveCursor, JailFs.moveDown, hfilerow, numrows_eq hrow]
  by_cases hr : r < rows.length
  · rw [if_pos (by omega), if_pos hr]
    exact fixCursor_spec ((scrollDown_row e).trans hrow) (scrollDown_at hat)
  · rw [if_neg (by omega), if_neg hr]
    exact fixCursor_spec hrow hat

theorem EditorConfig.Shows.moveDown (h : e.Shows p) :
    ∃ e', editorMoveCursor e .arrowDown = some e' ∧ e'.Shows p.down := by
  have hspec := moveDown_spec h.row h.place
  rwa [Page.place_self] at hspec

theorem EditorConfig.Shows.moveRight (h : e.Shows p) :
    ∃ e', editorMoveCursor e .arrowRight = some e' ∧ e'.Shows p.right := by
  obtain ⟨hrow, hat⟩ := h
  have hfilerow : e.filerow = p.r := hat.row
  have hfilecol : e.filecol = p.c := hat.col
  have hfits := p.fits
  rw [editorMoveCursor, JailFs.moveRight, Page.right, hfilerow, hfilecol, numrows_eq hrow]
  by_cases hr : p.r < p.rows.length
  · rw [if_neg (by omega), if_pos hr, rowAt_eq hrow hr]
    dsimp only [Option.bind_eq_bind, Option.bind_some]
    rw [size_shown, Page.line]
    by_cases hc : p.c < (lineAt p.rows p.r).length
    · rw [if_pos (by omega), if_pos hc]
      exact fixCursor_spec ((scrollRight_row e).trans hrow) (scrollRight_at hat)
    · rw [if_neg (by omega), if_neg hc, if_pos (by omega)]
      refine fixCursor_spec ((scrollDown_row _).trans hrow) (scrollDown_at ?_)
      simp only [EditorConfig.at_iff] at hat ⊢
      omega
  · rw [if_pos (by omega), if_neg hr, ← Page.place_self p]
    exact fixCursor_spec hrow hat

/-- The cursor is not at the left of the first row of the screen while the file goes on above it,
and not at the left of a row more than one below the last one. -/
def EditorConfig.LeftFits (e : EditorConfig) (p : Page) : Prop :=
  e.cx = 0 → e.coloff = 0 → (e.cy = 0 → e.rowoff = 0) ∧ p.r ≤ p.rows.length

theorem EditorConfig.Shows.moveLeft (h : e.Shows p) (hfits : e.LeftFits p) :
    ∃ e', editorMoveCursor e .arrowLeft = some e' ∧ e'.Shows p.left := by
  obtain ⟨hrow, hat⟩ := h
  have hfilerow : e.filerow = p.r := hat.row
  have hfilecol : e.coloff + e.cx = p.c := hat.col
  obtain ⟨hcx₀, hcoloff₀⟩ : 0 ≤ e.cx ∧ 0 ≤ e.coloff := ⟨hat.cx, hat.coloff⟩
  rw [editorMoveCursor, JailFs.moveLeft, Page.left, hfilerow]
  by_cases hcx : e.cx = 0
  · rw [if_pos hcx]
    by_cases hcoloff : e.coloff = 0
    · obtain ⟨htop, hlast⟩ := hfits hcx hcoloff
      have hc : p.c = 0 := by omega
      rw [if_neg (not_not.mpr hcoloff), if_neg (not_not.mpr hc)]
      by_cases hr : p.r = 0
      · rw [if_neg (by omega), if_neg (not_not.mpr hr), ← Page.place_self p]
        exact fixCursor_spec hrow hat
      · have hprev : (p.r : ℤ) - 1 = ((p.r - 1 : ℕ) : ℤ) := by omega
        rw [if_pos (by omega), if_pos hr, hprev, rowAt_eq hrow (by omega)]
        dsimp only [Option.bind_eq_bind, Option.bind_some]
        rw [size_shown]
        split_ifs <;> refine fixCursor_spec hrow ?_ <;>
          simp only [EditorConfig.at_iff] at * <;> omega
    · have hc : p.c ≠ 0 := by omega
      rw [if_pos hcoloff, if_pos hc]
      refine fixCursor_spec hrow ?_
      simp only [EditorConfig.at_iff] at *
      omega
  · have hc : p.c ≠ 0 := by omega
    rw [if_neg hcx, if_pos hc]
    refine fixCursor_spec hrow ?_
    simp only [EditorConfig.at_iff] at *
    omega

/-- A key that is pressed over and over. -/
theorem moveTimes_spec (key : KiloKey) (R : Page → Page → Prop) (hrefl : ∀ p, R p p)
    (htrans : ∀ p q q', R p q → R q q' → R p q')
    (hstep : ∀ e p, e.Shows p → ∃ e' p', editorMoveCursor e key = some e' ∧ e'.Shows p' ∧ R p p')
    (times : ℕ) (h : e.Shows p) :
    ∃ e' p', moveTimes key times e = some e' ∧ e'.Shows p' ∧ R p p' := by
  induction times generalizing e p with
  | zero => exact ⟨e, p, rfl, h, hrefl p⟩
  | succ times ih =>
    obtain ⟨e₁, p₁, hmove, h₁, hR₁⟩ := hstep e p h
    obtain ⟨e', p', htimes, h', hR'⟩ := ih h₁
    refine ⟨e', p', ?_, h', htrans p p₁ p' hR₁ hR'⟩
    rw [moveTimes, hmove]
    exact htimes

theorem EditorConfig.Shows.pageUp (h : e.Shows p) :
    ∃ e' p', JailFs.pageUp e = some e' ∧ e'.Shows p' ∧ p'.rows = p.rows ∧ p'.r ≤ p.r := by
  obtain ⟨hrow, hat⟩ := h
  obtain ⟨r, hr, hat₁⟩ : ∃ r ≤ p.r,
      (if e.cy ≠ 0 then { e with cy := 0 } else e).screen.At r p.c := by
    refine ⟨e.rowoff.toNat, ?_, ?_⟩
    · simp only [EditorConfig.at_iff] at hat
      omega
    · split_ifs <;> simp only [EditorConfig.at_iff] at * <;> omega
  have hrow₁ : (if e.cy ≠ 0 then { e with cy := 0 } else e).row = p.rows.map shown := by
    split_ifs <;> exact hrow
  obtain ⟨n, hn⟩ : ∃ n, e.screenrows.toNat = n + 1 := by
    simp only [EditorConfig.at_iff] at hat
    exact ⟨e.screenrows.toNat - 1, by omega⟩
  have hscreen : ¬ e.screenrows < 0 := by omega
  obtain ⟨e₁, hmove, hshows⟩ := fixCursor_spec ((moveUp_row _).trans hrow₁) (moveUp_at hat₁)
  obtain ⟨e', p', htimes, hshows', hrows, hle⟩ := moveTimes_spec .arrowUp
    (fun p p' => p'.rows = p.rows ∧ p'.r ≤ p.r) (fun _ => ⟨rfl, le_rfl⟩)
    (fun _ _ _ h₁ h₂ => ⟨h₂.1.trans h₁.1, h₂.2.trans h₁.2⟩)
    (fun e p h => by
      obtain ⟨e', hmove, h'⟩ := h.moveUp
      exact ⟨e', p.up, hmove, h', rfl, Nat.sub_le _ _⟩) n hshows
  refine ⟨e', p', ?_, hshows', hrows, hle.trans ((Nat.sub_le _ _).trans hr)⟩
  rw [JailFs.pageUp, if_neg hscreen, hn, moveTimes]
  change (fixCursor (JailFs.moveUp _)).bind _ = _
  rw [hmove]
  exact htimes

theorem EditorConfig.Shows.pageDown (h : e.Shows p) :
    ∃ e' p', JailFs.pageDown e = some e' ∧ e'.Shows p' ∧ p'.rows = p.rows ∧ p.r ≤ p'.r := by
  obtain ⟨hrow, hat⟩ := h
  obtain ⟨r, hr, hat₁⟩ : ∃ r, p.r ≤ r ∧ (if e.cy ≠ e.screenrows - 1
      then { e with cy := e.screenrows - 1 } else e).screen.At r p.c := by
    refine ⟨(e.rowoff + (e.screenrows - 1)).toNat, ?_, ?_⟩
    · simp only [EditorConfig.at_iff] at hat
      omega
    · split_ifs <;> simp only [EditorConfig.at_iff] at * <;> omega
  have hrow₁ : (if e.cy ≠ e.screenrows - 1 then { e with cy := e.screenrows - 1 } else e).row =
      p.rows.map shown := by
    split_ifs <;> exact hrow
  obtain ⟨n, hn⟩ : ∃ n, e.screenrows.toNat = n + 1 := by
    simp only [EditorConfig.at_iff] at hat
    exact ⟨e.screenrows.toNat - 1, by omega⟩
  have hscreen : ¬ e.screenrows < 0 := by omega
  obtain ⟨e₁, hmove, hshows⟩ := moveDown_spec hrow₁ hat₁
  obtain ⟨e', p', htimes, hshows', hrows, hle⟩ := moveTimes_spec .arrowDown
    (fun p p' => p'.rows = p.rows ∧ p.r ≤ p'.r) (fun _ => ⟨rfl, le_rfl⟩)
    (fun _ _ _ h₁ h₂ => ⟨h₂.1.trans h₁.1, h₁.2.trans h₂.2⟩)
    (fun e p h => by
      obtain ⟨e', hmove, h'⟩ := h.moveDown
      refine ⟨e', p.down, hmove, h', ?_⟩
      unfold Page.down
      split_ifs
      · exact ⟨rfl, Nat.le_succ _⟩
      · exact ⟨rfl, le_rfl⟩) n hshows
  refine ⟨e', p', ?_, hshows', ?_, ?_⟩
  · rw [JailFs.pageDown, if_neg hscreen, hn, moveTimes, hmove]
    exact htimes
  · rw [hrows]
    split_ifs <;> rfl
  · refine (hr.trans ?_).trans hle
    split_ifs
    · exact Nat.le_succ r
    · exact le_rfl

end Moves

end JailFs
