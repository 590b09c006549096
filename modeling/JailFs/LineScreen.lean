import JailFs.LineText
import JailFs.Terminal
import JailFs.TimeStrPrint

/-!
# The line on the screen

`refreshSingleLine` sends the terminal the prompt, as much of the line as fits in the row with the
cursor in it, and the hint, and then moves the cursor to its place. Whatever the row showed before,
it then shows these and nothing else (`refresh_onScreen`).
-/

namespace JailFs

open Terminal

/-- What the callback for hints answers. -/
structure ShownHint where
  text : CString
  color : ℤ
  bold : ℤ

/-- What the redraw reads besides the line: the prompt, the columns of the terminal, of which
`getColumns` counts at least one, and the callback for hints. -/
structure LineScreen where
  prompt : CString
  cols : ℕ
  hintsCallback : Option (CString → Option ShownHint)

/-- `"\033[%d;%d;49m"` -/
def colourSeq (bold color : ℤ) : List UInt8 :=
  27 :: '['.toUInt8 :: ((formatInt bold ++ [';'.toUInt8] ++ formatInt color ++
    [';', '4', '9'].map Char.toUInt8) ++ ['m'.toUInt8])

/-- `"\033[0m"` -/
def plainSeq : List UInt8 := 27 :: '['.toUInt8 :: (['0'.toUInt8] ++ ['m'.toUInt8])

/-- A hint of which `hintmaxlen` bytes fit. -/
def ShownHint.draw (hint : ShownHint) (hintmaxlen : ℕ) : List UInt8 :=
  let color := if hint.bold = 1 ∧ hint.color = -1 then 37 else hint.color
  let coloured := color ≠ -1 ∨ hint.bold ≠ 0
  (if coloured then colourSeq hint.bold color else []) ++ hint.text.bytes.take hintmaxlen ++
    (if coloured then plainSeq else [])

def refreshShowHints (s : LineScreen) (l : LinenoiseState) : Option (List UInt8) :=
  match s.hintsCallback with
  | none => some []
  | some callback =>
    if s.prompt.length + l.len < s.cols then
      (stringAt l.buf).map fun line =>
        match callback line with
        | none => []
        | some hint => hint.draw (s.cols - (s.prompt.length + l.len))
    else some []

/-- `while((plen+pos) >= l->cols) { buf++; len--; pos--; }`, with the sum first and `buf` as a
distance. -/
def scrollText (cols : ℕ) : ℕ → ℕ × ℕ × ℕ → ℕ × ℕ × ℕ
  | 0, s => s
  | sum + 1, (skip, len, pos) =>
    if cols ≤ sum + 1 then scrollText cols sum (skip + 1, subSize len 1, subSize pos 1)
    else (skip, len, pos)

/-- `while (plen+len > l->cols) len--;` -/
def trimText (cols : ℕ) : ℕ → ℕ → ℕ
  | 0, len => len
  | sum + 1, len => if cols < sum + 1 then trimText cols sum (subSize len 1) else len

/-- The bytes that `refreshSingleLine` writes, or `none` where it would copy from behind `buf`. -/
def refreshSingleLine (s : LineScreen) (l : LinenoiseState) : Option (List UInt8) := do
  let plen := s.prompt.length
  let (skip, len, pos) := scrollText s.cols ((plen + l.pos) % 2 ^ 64) (0, l.len, l.pos)
  let len := trimText s.cols ((plen + len) % 2 ^ 64) len
  let hint ← refreshShowHints s l
  if skip + len ≤ l.buf.length then
    some ([13] ++ s.prompt.bytes ++ (l.buf.drop skip).take len ++ hint ++
      [27, '['.toUInt8, '0'.toUInt8, 'K'.toUInt8] ++
      [13, 27, '['.toUInt8] ++ formatInt (wrapInt ((pos + plen : ℕ) : ℤ)) ++ ['C'.toUInt8])
  else none

namespace LineScreen

variable (s : LineScreen) (z : Zipper UInt8)

def skipped : ℕ := s.prompt.length + z.left.length + 1 - s.cols

/-- The part of the text that is in the row. -/
def window : List UInt8 := (z.text.drop (s.skipped z)).take (s.cols - s.prompt.length)

/-- The part of the hint that is in the row. -/
def hint : List UInt8 :=
  match s.hintsCallback with
  | none => []
  | some callback =>
    if s.prompt.length + z.text.length < s.cols then
      match callback (.ofBuffer z.text) with
      | none => []
      | some hint => hint.text.bytes.take (s.cols - (s.prompt.length + z.text.length))
    else []

def row : List UInt8 := s.prompt.bytes ++ s.window z ++ s.hint z

def cursor : ℕ := s.prompt.length + z.left.length - s.skipped z

/-- The terminal is wider than the prompt, which is not empty: a cursor moved forward by no column
would still move by one. Prompt and hints are printable. -/
structure Fits : Prop where
  narrow : s.prompt.length < s.cols
  cols : s.cols < 2 ^ 31
  nonempty : 0 < s.prompt.length
  prompt : ∀ c ∈ s.prompt.bytes, Printable c
  hints : ∀ callback line hint, s.hintsCallback = some callback → callback line = some hint →
    ∀ c ∈ hint.text.bytes, Printable c

/-- The row of the cursor shows the line and the hint. A terminal that erases the last column of a
full row leaves it blank. -/
structure OnScreen (t : Terminal) : Prop where
  cols : t.cols = s.cols
  mode : t.mode = .text
  col : t.col = s.cursor z
  cell : ∀ x < s.cols, t.cell t.row x =
    if (s.row z).length = s.cols ∧ x + 1 = s.cols ∧ t.erasesLast then none else (s.row z)[x]?

end LineScreen

section Numbers

theorem digit_le {c : UInt8} (h : isDigit 10 c = true) : 48 ≤ c ∧ c ≤ 57 := isDigit_ten_iff.mp h

theorem number_decimalBytes (n : ℕ) : Terminal.number 0 (decimalBytes n) = n := by
  have hdigit : ∀ d < 10, d.digitChar.toUInt8.toNat - 48 = d := by decide
  induction n using Nat.strongRecOn with
  | _ n ih =>
    rcases Nat.lt_or_ge n 10 with hlt | hge
    · rw [decimalBytes_of_lt hlt, Terminal.number, List.foldl_cons, List.foldl_nil, hdigit n hlt,
        Nat.zero_mul, Nat.zero_add]
    · have hprev := ih (n / 10) (by omega)
      rw [Terminal.number] at hprev
      rw [decimalBytes_of_le hge, Terminal.number, List.foldl_append, hprev, List.foldl_cons,
        List.foldl_nil, hdigit _ (Nat.mod_lt n (by decide))]
      omega

theorem formatInt_param (n : ℤ) : ∀ c ∈ formatInt n, 32 ≤ c ∧ c < 64 := by
  have hdigits : ∀ c ∈ decimalBytes n.natAbs, (32 : UInt8) ≤ c ∧ c < 64 := by
    intro c hc
    have hd := digit_le (isDigit_decimalBytes _ c hc)
    simp only [UInt8.le_iff_toNat_le, UInt8.lt_iff_toNat_lt, UInt8.reduceToNat] at hd ⊢
    omega
  rw [formatInt]
  split_ifs
  · rw [List.forall_mem_cons]
    exact ⟨by decide, hdigits⟩
  · exact hdigits

end Numbers

section Draw

variable {t : Terminal} {s : LineScreen} {l : LinenoiseState} {z : Zipper UInt8}

theorem feed_colourSeq (hm : t.mode = .text) (bold color : ℤ) :
    t.feed (colourSeq bold color) = t := by
  refine feed_colour hm fun c hc => ?_
  rw [List.mem_append, List.mem_append, List.mem_append] at hc
  rcases hc with ((hc | hc) | hc) | hc
  · exact formatInt_param bold c hc
  · obtain rfl := List.mem_singleton.mp hc
    decide
  · exact formatInt_param color c hc
  · simp only [List.map_cons, List.map_nil, List.mem_cons, List.not_mem_nil, or_false] at hc
    rcases hc with rfl | rfl | rfl <;> decide

theorem feed_plainSeq (hm : t.mode = .text) : t.feed plainSeq = t :=
  feed_colour hm fun c hc => by
    obtain rfl := List.mem_singleton.mp hc
    decide

theorem feed_draw (hm : t.mode = .text) (hint : ShownHint) (n : ℕ)
    (hp : ∀ c ∈ hint.text.bytes, Printable c)
    (hfit : t.col + (hint.text.bytes.take n).length ≤ t.cols) :
    t.feed (hint.draw n) = t.feed (hint.text.bytes.take n) := by
  have htext := feed_text hm (fun c hc => hp c (List.mem_of_mem_take hc)) hfit
  have hdraw : ∀ color : ℤ, t.feed
      ((if color ≠ -1 ∨ hint.bold ≠ 0 then colourSeq hint.bold color else []) ++
        hint.text.bytes.take n ++ (if color ≠ -1 ∨ hint.bold ≠ 0 then plainSeq else [])) =
          t.feed (hint.text.bytes.take n) := by
    intro color
    split_ifs
    · rw [feed_append, feed_append, feed_colourSeq hm, htext]
      exact feed_plainSeq hm
    · rw [List.nil_append, List.append_nil]
  exact hdraw _

theorem scrollText_eq {plen cols : ℕ} (hn : plen < cols) (pos skip len : ℕ) (hpos : pos ≤ len)
    (hlen : len < 2 ^ 64) : scrollText cols (plen + pos) (skip, len, pos) =
      (skip + (plen + pos + 1 - cols), len - (plen + pos + 1 - cols),
        pos - (plen + pos + 1 - cols)) := by
  induction pos generalizing skip len with
  | zero =>
    rw [Nat.add_zero, show plen + 1 - cols = 0 by omega]
    cases plen with
    | zero => rfl
    | succ plen => rw [scrollText, if_neg (by omega), Nat.add_zero, Nat.sub_zero]
  | succ pos ih =>
    rw [← Nat.add_assoc, scrollText]
    by_cases hc : cols ≤ plen + pos + 1
    · rw [if_pos hc, subSize_eq (by omega) hlen, subSize_eq (by omega) (by omega),
        Nat.add_sub_cancel, ih _ _ (by omega) (by omega)]
      simp only [Prod.mk.injEq]
      omega
    · rw [if_neg hc, show plen + pos + 1 + 1 - cols = 0 by omega]
      rfl

theorem trimText_eq {plen cols : ℕ} (hn : plen ≤ cols) (len : ℕ) (hlen : len < 2 ^ 64) :
    trimText cols (plen + len) len = min len (cols - plen) := by
  induction len with
  | zero =>
    rw [Nat.add_zero, Nat.zero_min]
    cases plen with
    | zero => rfl
    | succ plen => rw [trimText, if_neg (by omega)]
  | succ len ih =>
    rw [← Nat.add_assoc, trimText]
    by_cases hc : cols < plen + len + 1
    · rw [if_pos hc, subSize_eq (by omega) hlen, Nat.add_sub_cancel, ih (by omega)]
      omega
    · rw [if_neg hc]
      omega

theorem text_length (h : ShowsText l z) : z.text.length = l.len := by
  rw [h.len, Zipper.text, List.length_append, List.length_reverse]

variable (hs : s.Fits) (h : ShowsText l z)

include h

theorem window_length :
    (s.window z).length = min (l.len - s.skipped z) (s.cols - s.prompt.length) := by
  rw [LineScreen.window, List.length_take, List.length_drop, text_length h, Nat.min_comm]

include hs

theorem hint_length : (s.prompt.bytes ++ s.window z).length + (s.hint z).length ≤ s.cols := by
  have hn := hs.narrow
  have hlen := h.len
  rw [List.length_append, window_length h]
  change s.prompt.length + _ + _ ≤ _
  rw [LineScreen.hint]
  split
  · simp only [List.length_nil]
    omega
  · split_ifs with hroom
    · split
      · simp only [List.length_nil]
        omega
      · rw [List.length_take, text_length h]
        rw [text_length h] at hroom
        have hskip : s.skipped z = 0 := by
          rw [LineScreen.skipped]
          omega
        omega
    · simp only [List.length_nil]
      omega

theorem refreshShowHints_eq : ∃ out, refreshShowHints s l = some out ∧
    ∀ t : Terminal, t.mode = .text → t.cols = s.cols →
      t.col = (s.prompt.bytes ++ s.window z).length → t.feed out = t.feed (s.hint z) := by
  have hfit := hint_length hs h
  rw [refreshShowHints, LineScreen.hint] at *
  cases hcb : s.hintsCallback with
  | none => exact ⟨[], rfl, fun _ _ _ _ => rfl⟩
  | some callback =>
    simp only [hcb, text_length h] at hfit ⊢
    by_cases hroom : s.prompt.length + l.len < s.cols
    · simp only [if_pos hroom] at hfit ⊢
      rw [h.stringAt_eq]
      refine ⟨_, rfl, fun t hm hcols hcol => ?_⟩
      dsimp only
      cases hc : callback (.ofBuffer z.text) with
      | none => rfl
      | some hint =>
        simp only [hc] at hfit
        have hprint := hs.hints callback _ hint hcb hc
        exact feed_draw hm hint _ hprint (by rw [hcol, hcols]; exact hfit)
    · simp only [if_neg hroom]
      exact ⟨[], rfl, fun _ _ _ _ => rfl⟩

theorem copied_eq : (l.buf.drop (s.skipped z)).take
    (min (l.len - s.skipped z) (s.cols - s.prompt.length)) = s.window z ∧
      s.skipped z + min (l.len - s.skipped z) (s.cols - s.prompt.length) ≤ l.buf.length := by
  obtain ⟨junk, hbuf⟩ := h.buf
  have hlen := h.len
  have hn := hs.narrow
  have htext : l.buf = z.text ++ 0 :: junk := by rw [hbuf, Zipper.text, List.append_assoc]
  have hskip : s.skipped z ≤ z.text.length := by
    rw [text_length h, LineScreen.skipped]
    omega
  have hl := text_length h
  constructor
  · rw [htext, List.drop_append_of_le_length hskip, LineScreen.window,
      List.take_append_of_le_length (by rw [List.length_drop]; omega), ← hl]
    exact List.take_eq_take_iff.mpr (by rw [List.length_drop]; omega)
  · rw [htext, List.length_append, List.length_cons]
    omega

theorem row_length : (s.row z).length ≤ s.cols := by
  rw [LineScreen.row, List.length_append]
  exact hint_length hs h

omit h in
theorem row_printable (hz : ∀ c ∈ z.text, Printable c) : ∀ c ∈ s.row z, Printable c := by
  intro c hc
  rw [LineScreen.row, List.mem_append, List.mem_append] at hc
  rcases hc with (hc | hc) | hc
  · exact hs.prompt c hc
  · exact hz c (List.mem_of_mem_drop (List.mem_of_mem_take hc))
  · rw [LineScreen.hint] at hc
    split at hc
    · cases hc
    · split_ifs at hc
      · split at hc
        · cases hc
        · exact hs.hints _ _ _ ‹_› ‹_› c (List.mem_of_mem_take hc)
      · cases hc

theorem refreshSingleLine_eq (hroom : s.prompt.length + l.buflen < 2 ^ 64) :
    ∃ hint, refreshShowHints s l = some hint ∧
      refreshSingleLine s l = some ([13] ++ s.prompt.bytes ++ s.window z ++ hint ++
        [27, '['.toUInt8, '0'.toUInt8, 'K'.toUInt8] ++ [13, 27, '['.toUInt8] ++
        decimalBytes (s.cursor z) ++ ['C'.toUInt8]) := by
  obtain ⟨hint, hhint, -⟩ := refreshShowHints_eq hs h
  have hn := hs.narrow
  have hc := hs.cols
  have hle := h.len_le
  have hpos := h.pos_le
  have hscroll := scrollText_eq hn l.pos 0 l.len hpos (by omega)
  have hskip : s.prompt.length + l.pos + 1 - s.cols = s.skipped z := by
    rw [LineScreen.skipped, h.pos]
  rw [hskip, Nat.zero_add] at hscroll
  have htrim := trimText_eq hn.le (l.len - s.skipped z) (by omega)
  obtain ⟨hcopied, hbound⟩ := copied_eq hs h
  have hcursor : l.pos - s.skipped z + s.prompt.length = s.cursor z := by
    rw [LineScreen.cursor, ← hskip, h.pos]
    omega
  have hcol : s.cursor z < s.cols := by
    rw [LineScreen.cursor, LineScreen.skipped]
    omega
  have hformat : formatInt (wrapInt (s.cursor z : ℤ)) = decimalBytes (s.cursor z) := by
    rw [wrapInt_of_lt (by omega) (by omega), formatInt, if_neg (by omega), Int.natAbs_natCast]
  refine ⟨hint, hhint, ?_⟩
  simp only [refreshSingleLine, Nat.mod_eq_of_lt (show s.prompt.length + l.pos < 2 ^ 64 by omega),
    Nat.mod_eq_of_lt (show s.prompt.length + (l.len - s.skipped z) < 2 ^ 64 by omega), hscroll,
    htrim, hhint, hcopied, if_pos hbound, hcursor, hformat, Option.bind_eq_bind, Option.bind_some]

omit h in
theorem cursor_bounds : 1 ≤ s.cursor z ∧ s.cursor z ≤ s.cols - 1 := by
  have hn := hs.narrow
  have hp := hs.nonempty
  rw [LineScreen.cursor, LineScreen.skipped]
  omega

/-- The prompt, the line and the hint, written from the first column on. -/
theorem feed_row {hint : List UInt8} (hhint : refreshShowHints s l = some hint)
    (hz : ∀ c ∈ z.text, Printable c) {t : Terminal} (hm : t.mode = .text)
    (hcols : t.cols = s.cols) :
    t.feed ([13] ++ s.prompt.bytes ++ s.window z ++ hint) = t.wrote (s.row z) := by
  obtain ⟨hint', hhint', hfeed⟩ := refreshShowHints_eq hs h
  obtain rfl : hint = hint' := Option.some.inj (hhint.symm.trans hhint')
  have hlen := row_length hs h
  have hshort : (s.prompt.bytes ++ s.window z).length ≤ s.cols := by
    have hfit := hint_length hs h
    omega
  have hprint := row_printable hs hz
  have hreturn : t.feed [13] = { t with col := 0 } := step_return hm
  have hline := feed_text (t := { t with col := 0 }) (l := s.prompt.bytes ++ s.window z) hm
    (fun c hc => hprint c (List.mem_append_left _ hc))
    (by change 0 + _ ≤ t.cols; rw [Nat.zero_add, hcols]; exact hshort)
  have hall := feed_text (t := { t with col := 0 }) (l := s.row z) hm hprint
    (by change 0 + _ ≤ t.cols; rw [Nat.zero_add, hcols]; exact hlen)
  simp only [Nat.zero_add] at hline hall
  rw [List.append_assoc [13], feed_append, feed_append, hreturn]
  rw [LineScreen.row, feed_append, hline] at hall
  rw [hline]
  refine (hfeed _ ?_ ?_ ?_).trans hall
  · exact hm
  · exact hcols
  · rfl

omit hs h in
/-- What stands behind the text is erased, and the cursor goes to a column. -/
theorem feed_place {t : Terminal} (hm : t.mode = .text) {n : ℕ} (hpos : 1 ≤ n)
    (hle : n ≤ t.cols - 1) :
    t.feed ([27, '['.toUInt8, '0'.toUInt8, 'K'.toUInt8] ++ ([13] ++
      ([27, '['.toUInt8] ++ decimalBytes n ++ ['C'.toUInt8]))) = { t with
        cell := fun r x => if r = t.row ∧ t.eraseFrom ≤ x then none else t.cell r x
        col := n } := by
  let u : Terminal := { t with
    cell := fun r x => if r = t.row ∧ t.eraseFrom ≤ x then none else t.cell r x
    col := 0 }
  have hdigits : ∀ c ∈ decimalBytes n, 48 ≤ c ∧ c ≤ 57 :=
    fun c hc => digit_le (isDigit_decimalBytes _ c hc)
  have hforward := feed_forward (t := u) hm hdigits
  have hcol : min (min 0 (t.cols - 1) + max n 1) (t.cols - 1) = n := by omega
  rw [number_decimalBytes] at hforward
  change _ = ({ u with col := min (min 0 (t.cols - 1) + max n 1) (t.cols - 1) } : Terminal)
    at hforward
  rw [hcol] at hforward
  have hback : ({ u with col := t.col } : Terminal).feed [13] = u := step_return hm
  rw [feed_append, feed_erase hm, feed_append]
  exact (congrArg (fun v : Terminal => v.feed _) hback).trans hforward

/-- The row after the erase, which takes the last column of a full row on some terminals. -/
theorem erased_row {t : Terminal} (hcols : t.cols = s.cols) {x : ℕ} (hx : x < s.cols) :
    (if (t.wrote (s.row z)).eraseFrom ≤ x then none else (t.wrote (s.row z)).cell t.row x) =
      if (s.row z).length = s.cols ∧ x + 1 = s.cols ∧ t.erasesLast then none
      else (s.row z)[x]? := by
  have hlen := row_length hs h
  have hfrom : (t.wrote (s.row z)).eraseFrom = if (s.row z).length < s.cols then (s.row z).length
      else if t.erasesLast then s.cols - 1 else s.cols := by
    rw [← hcols]
    rfl
  have hcell : (t.wrote (s.row z)).cell t.row x = written t.cell t.row 0 (s.row z) t.row x := rfl
  rw [hfrom, hcell, written, Nat.zero_add, Nat.sub_zero]
  by_cases hin : x < (s.row z).length
  · rw [if_pos (show t.row = t.row ∧ 0 ≤ x ∧ x < (s.row z).length by omega)]
    by_cases hfull : (s.row z).length < s.cols
    · rw [if_pos hfull, if_neg (by omega), if_neg (by omega)]
    · rw [if_neg hfull]
      cases t.erasesLast with
      | false =>
        simp only [Bool.false_eq_true, if_false, and_false]
        rw [if_neg (by omega)]
      | true =>
        simp only [if_true, and_true]
        by_cases hlast : x + 1 = s.cols
        · rw [if_pos (by omega), if_pos ⟨by omega, hlast⟩]
        · rw [if_neg (by omega), if_neg fun h => hlast h.2]
  · rw [List.getElem?_eq_none (by omega), if_pos (by rw [if_pos (by omega)]; omega)]
    exact (ite_self none).symm

/-- Whatever was in the row, after the redraw it shows the line, and no other row has changed. -/
theorem refresh_onScreen (hroom : s.prompt.length + l.buflen < 2 ^ 64)
    (hz : ∀ c ∈ z.text, Printable c) {t : Terminal} (hm : t.mode = .text)
    (hcols : t.cols = s.cols) : ∃ out, refreshSingleLine s l = some out ∧
      s.OnScreen z (t.feed out) ∧ (t.feed out).row = t.row ∧
      ∀ r, r ≠ t.row → (t.feed out).cell r = t.cell r := by
  obtain ⟨hint, hhint, hout⟩ := refreshSingleLine_eq hs h hroom
  obtain ⟨hpos, hle⟩ := cursor_bounds hs (z := z)
  have hrow := feed_row hs h hhint hz hm hcols
  have hplace := feed_place (t := t.wrote (s.row z)) hm hpos (hle.trans_eq (by rw [← hcols]; rfl))
  refine ⟨_, hout, ?_⟩
  generalize [13] ++ s.prompt.bytes ++ s.window z ++ hint = head at hrow ⊢
  have hlist : head ++ [27, '['.toUInt8, '0'.toUInt8, 'K'.toUInt8] ++ [13, 27, '['.toUInt8] ++
      decimalBytes (s.cursor z) ++ ['C'.toUInt8] =
        head ++ ([27, '['.toUInt8, '0'.toUInt8, 'K'.toUInt8] ++
          ([13] ++ ([27, '['.toUInt8] ++ decimalBytes (s.cursor z) ++ ['C'.toUInt8]))) := by
    simp
  rw [hlist, feed_append, hrow, hplace]
  refine ⟨⟨hcols, hm, rfl, fun x hx => ?_⟩, rfl, fun r hr => ?_⟩
  · refine Eq.trans ?_ (erased_row hs h hcols hx)
    exact if_congr (and_iff_right rfl) rfl rfl
  · funext x
    simp only [Terminal.wrote_row, hr, false_and, if_false]
    exact if_neg fun h => hr h.1

end Draw

end JailFs
