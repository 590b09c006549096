import Mathlib.Data.List.Basic
import Mathlib.Data.Nat.Notation

/-!
# A terminal

The screen of a terminal and what the bytes sent to it do: text, carriage return and line feed, and
the control sequences `ESC [ n C` (the cursor forward) and `ESC [ n K` (erase the line); colours
change nothing that the model shows. The cursor of a row that is full stands behind its last column,
and the next byte of text goes to the next row. Terminals differ in what an erase does there.
-/

/-- Where the terminal is in a control sequence, with the last number of a sequence so far. -/
inductive Terminal.Mode
  | text
  | esc
  | csi (n : ℕ)
  deriving DecidableEq

structure Terminal where
  cols : ℕ
  /-- The byte shown in a column of a row, `none` for a blank. -/
  cell : ℕ → ℕ → Option UInt8
  row : ℕ
  /-- At most `cols`, which is behind the last column. -/
  col : ℕ
  mode : Terminal.Mode
  /-- Whether an erase behind the last column takes away the byte in it. -/
  erasesLast : Bool

namespace Terminal

/-- Bytes that take one column each. -/
def Printable (c : UInt8) : Prop := 32 ≤ c ∧ c < 127

instance (c : UInt8) : Decidable (Printable c) := inferInstanceAs (Decidable (_ ∧ _))

def put (t : Terminal) (c : UInt8) : Terminal :=
  let t := if t.cols ≤ t.col then { t with row := t.row + 1, col := 0 } else t
  { t with
    cell := fun r x => if r = t.row ∧ x = t.col then some c else t.cell r x
    col := t.col + 1 }

/-- The first column that an erase to the right takes. -/
def eraseFrom (t : Terminal) : ℕ :=
  if t.col < t.cols then t.col else if t.erasesLast then t.cols - 1 else t.cols

/-- The columns that `ESC [ n K` takes. -/
def erased (t : Terminal) (n x : ℕ) : Prop :=
  n = 0 ∧ t.eraseFrom ≤ x ∨ n = 1 ∧ x ≤ min t.col (t.cols - 1) ∨ n = 2

instance (t : Terminal) (n x : ℕ) : Decidable (t.erased n x) := inferInstanceAs (Decidable (_ ∨ _))

/-- The end of a control sequence. No number, or 0, is one column for `C`. -/
def control (t : Terminal) (n : ℕ) (c : UInt8) : Terminal :=
  if c = 'C'.toUInt8 then
    { t with col := min (min t.col (t.cols - 1) + max n 1) (t.cols - 1), mode := .text }
  else if c = 'K'.toUInt8 then
    { t with
      cell := fun r x => if r = t.row ∧ t.erased n x then none else t.cell r x
      mode := .text }
  else { t with mode := .text }

def step (t : Terminal) (c : UInt8) : Terminal :=
  match t.mode with
  | .text =>
    if c = 13 then { t with col := 0 }
    else if c = 10 then { t with row := t.row + 1 }
    else if c = 27 then { t with mode := .esc }
    else if Printable c then t.put c
    else t
  | .esc => { t with mode := if c = '['.toUInt8 then .csi 0 else .text }
  | .csi n =>
    if 48 ≤ c ∧ c ≤ 57 then { t with mode := .csi (n * 10 + (c.toNat - 48)) }
    else if 32 ≤ c ∧ c < 64 then { t with mode := .csi 0 }
    else t.control n c

def feed (t : Terminal) (out : List UInt8) : Terminal := out.foldl step t

variable {t : Terminal} {c : UInt8} {l : List UInt8} {n : ℕ}

@[simp] theorem feed_nil (t : Terminal) : t.feed [] = t := rfl

@[simp] theorem feed_cons (t : Terminal) (c : UInt8) (l : List UInt8) :
    t.feed (c :: l) = (t.step c).feed l := rfl

@[simp] theorem feed_append (t : Terminal) (l l' : List UInt8) :
    t.feed (l ++ l') = (t.feed l).feed l' := List.foldl_append ..

theorem Printable.ne (h : Printable c) : c ≠ 13 ∧ c ≠ 10 ∧ c ≠ 27 := by
  unfold Printable at h
  refine ⟨?_, ?_, ?_⟩ <;> rintro rfl <;> exact absurd h.1 (by decide)

theorem step_return (hm : t.mode = .text) : t.step 13 = { t with col := 0 } := by
  rw [step, hm]
  rfl

theorem step_printable (hm : t.mode = .text) (hc : Printable c) (hcol : t.col < t.cols) :
    t.step c = { t with
      cell := fun r x => if r = t.row ∧ x = t.col then some c else t.cell r x
      col := t.col + 1 } := by
  obtain ⟨h₁, h₂, h₃⟩ := hc.ne
  rw [step, hm]
  simp only [if_neg h₁, if_neg h₂, if_neg h₃, if_pos hc, put, if_neg (Nat.not_le.mpr hcol)]
  rw [hm]

/-- The cells after a text was written from a column on. -/
def written (cell : ℕ → ℕ → Option UInt8) (row col : ℕ) (l : List UInt8) :
    ℕ → ℕ → Option UInt8 :=
  fun r x => if r = row ∧ col ≤ x ∧ x < col + l.length then l[x - col]? else cell r x

/-- The terminal after a text was written from the first column on. -/
def wrote (t : Terminal) (text : List UInt8) : Terminal :=
  { t with cell := written t.cell t.row 0 text, col := text.length }

@[simp] theorem wrote_row (t : Terminal) (text : List UInt8) : (t.wrote text).row = t.row := rfl

theorem feed_text (hm : t.mode = .text) (hl : ∀ c ∈ l, Printable c)
    (hfit : t.col + l.length ≤ t.cols) :
    t.feed l = { t with
      cell := written t.cell t.row t.col l
      col := t.col + l.length } := by
  induction l generalizing t with
  | nil =>
    have hcell : written t.cell t.row t.col [] = t.cell := by
      funext r x
      rw [written, if_neg (by simp only [List.length_nil]; omega)]
    rw [hcell]
    rfl
  | cons c l ih =>
    rw [List.forall_mem_cons] at hl
    rw [List.length_cons] at hfit
    have hcell : written (fun r x => if r = t.row ∧ x = t.col then some c else t.cell r x) t.row
        (t.col + 1) l = written t.cell t.row t.col (c :: l) := by
      funext r x
      simp only [written, List.length_cons]
      by_cases hx : r = t.row ∧ x = t.col
      · obtain ⟨rfl, rfl⟩ := hx
        rw [if_neg (by omega), if_pos ⟨rfl, rfl⟩, if_pos (by omega), Nat.sub_self]
        rfl
      · rw [if_neg hx]
        by_cases hin : r = t.row ∧ t.col + 1 ≤ x ∧ x < t.col + 1 + l.length
        · rw [if_pos hin, if_pos (by omega), show x - t.col = x - (t.col + 1) + 1 by omega,
            List.getElem?_cons_succ]
        · rw [if_neg hin, if_neg (by omega)]
    have hrest := ih (t := { t with
      cell := fun r x => if r = t.row ∧ x = t.col then some c else t.cell r x
      col := t.col + 1 }) hm hl.2 (by change t.col + 1 + l.length ≤ t.cols; omega)
    rw [feed_cons, step_printable hm hl.1 (by omega), hrest, hcell, List.length_cons,
      show t.col + 1 + l.length = t.col + (l.length + 1) by omega]

theorem feed_escape (hm : t.mode = .text) :
    t.feed [27, '['.toUInt8] = { t with mode := .csi 0 } := by
  have h27 : t.step 27 = { t with mode := .esc } := by
    rw [step, hm]
    rfl
  rw [feed_cons, feed_cons, h27]
  rfl

/-- The number that digits add to a number. -/
def number (n : ℕ) (l : List UInt8) : ℕ := l.foldl (fun n c => n * 10 + (c.toNat - 48)) n

theorem feed_digits (hm : t.mode = .csi n) (hl : ∀ c ∈ l, 48 ≤ c ∧ c ≤ 57) :
    t.feed l = { t with mode := .csi (number n l) } := by
  induction l generalizing t n with
  | nil =>
    rw [feed_nil, number, List.foldl_nil, ← hm]
  | cons c l ih =>
    rw [List.forall_mem_cons] at hl
    have hstep : t.step c = { t with mode := .csi (n * 10 + (c.toNat - 48)) } := by
      rw [step, hm]
      exact if_pos hl.1
    rw [feed_cons, hstep, ih rfl hl.2]
    rfl

theorem feed_params (hm : t.mode = .csi n) (hl : ∀ c ∈ l, 32 ≤ c ∧ c < 64) :
    ∃ n', t.feed l = { t with mode := .csi n' } := by
  induction l generalizing t n with
  | nil => exact ⟨n, by rw [feed_nil, ← hm]⟩
  | cons c l ih =>
    rw [List.forall_mem_cons] at hl
    obtain ⟨n₁, hstep⟩ : ∃ n₁, t.step c = { t with mode := .csi n₁ } := by
      rw [step, hm]
      dsimp only
      split_ifs
      · exact ⟨_, rfl⟩
      · exact ⟨_, rfl⟩
      · exact absurd hl.1 ‹_›
    obtain ⟨n', h⟩ := ih (t := t.step c) (n := n₁) (by rw [hstep]) hl.2
    refine ⟨n', ?_⟩
    rw [feed_cons, h, hstep]

theorem feed_colour (hm : t.mode = .text) (hl : ∀ c ∈ l, 32 ≤ c ∧ c < 64) :
    t.feed (27 :: '['.toUInt8 :: (l ++ ['m'.toUInt8])) = t := by
  obtain ⟨n', hparams⟩ := feed_params (t := { t with mode := .csi 0 }) rfl hl
  change t.feed ([27, '['.toUInt8] ++ (l ++ ['m'.toUInt8])) = t
  rw [feed_append, feed_escape hm, feed_append, hparams]
  change ({ t with mode := .text } : Terminal) = t
  rw [← hm]

theorem feed_erase (hm : t.mode = .text) :
    t.feed [27, '['.toUInt8, '0'.toUInt8, 'K'.toUInt8] = { t with
      cell := fun r x => if r = t.row ∧ t.eraseFrom ≤ x then none else t.cell r x } := by
  change t.feed ([27, '['.toUInt8] ++ ['0'.toUInt8, 'K'.toUInt8]) = _
  rw [feed_append, feed_escape hm]
  have hcell : (fun r x => if r = t.row ∧ t.erased 0 x then none else t.cell r x) =
      fun r x => if r = t.row ∧ t.eraseFrom ≤ x then none else t.cell r x := by
    funext r x
    simp [erased]
  change ({ t with
    cell := fun r x => if r = t.row ∧ t.erased 0 x then none else t.cell r x
    mode := .text } : Terminal) = _
  rw [hcell, ← hm]

theorem feed_forward (hm : t.mode = .text) (hl : ∀ c ∈ l, 48 ≤ c ∧ c ≤ 57) :
    t.feed ([27, '['.toUInt8] ++ l ++ ['C'.toUInt8]) = { t with
      col := min (min t.col (t.cols - 1) + max (number 0 l) 1) (t.cols - 1) } := by
  rw [feed_append, feed_append, feed_escape hm,
    feed_digits (t := { t with mode := .csi 0 }) rfl hl]
  change ({ t with
    col := min (min t.col (t.cols - 1) + max (number 0 l) 1) (t.cols - 1)
    mode := .text } : Terminal) = _
  rw [← hm]

end Terminal
