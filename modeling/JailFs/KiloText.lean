import JailFs.KiloRun
import JailFs.Zipper

/-!
# The text of a page

A page is a text of lines that each end in a newline, and a place in it. `flat` reads the page as
that text with a cursor; what is left over of a place below the last line is the number of lines
that are missing up to it. The keys for typing are commands next to the cursor, also where they
split and join lines. The text is what a save writes.
-/

namespace JailFs

/-- The text with the lines. -/
def flatText (rows : List (List UInt8)) : List UInt8 := rows.flatMap fun line => line ++ [10]

structure FlatPlace where
  z : Zipper UInt8
  missing : ℕ

namespace FlatPlace

variable (t : FlatPlace)

/-- Behind the text a line is begun for the character, after the ones that are missing. -/
def put (b : UInt8) : FlatPlace :=
  if t.z.right = [] then ⟨⟨b :: (List.replicate t.missing 10 ++ t.z.left), [10]⟩, 0⟩
  else ⟨t.z.insert b, 0⟩

def newline : FlatPlace := if t.missing = 0 then ⟨t.z.insert 10, 0⟩ else t

def backspace : FlatPlace := if t.z.right = [] then t else ⟨t.z.backspace, 0⟩

def left : FlatPlace := if t.missing = 0 then ⟨t.z.moveLeft, 0⟩ else ⟨t.z, t.missing - 1⟩

def right : FlatPlace := ⟨t.z.moveRight, t.missing⟩

/-- What a key does that is not for another line. -/
def press : KiloKey → FlatPlace
  | .byte c =>
    if c = ENTER then t.newline
    else if c = BACKSPACE ∨ c = CTRL_H then t.backspace
    else if c ∈ quietKeys then t
    else t.put c
  | .delKey => t.backspace
  | .homeKey => t.put 237
  | .endKey => t.put 238
  | .arrowLeft => t.left
  | .arrowRight => t.right
  | _ => t

end FlatPlace

/-- A text with a cursor, and whether a search goes on. -/
structure FlatState where
  place : FlatPlace
  searching : Bool

/-- The keys that go to another line. -/
def KiloKey.Moves (key : KiloKey) : Prop :=
  key = .arrowUp ∨ key = .arrowDown ∨ key = .pageUp ∨ key = .pageDown

inductive FlatStep : FlatState → KiloKey → FlatState → Prop
  | press {t : FlatPlace} {key : KiloKey} (hmoves : ¬ key.Moves) (hfind : key ≠ .byte CTRL_F) :
      FlatStep ⟨t, false⟩ key ⟨t.press key, false⟩
  | move {t t' : FlatPlace} {key : KiloKey} (hmoves : key.Moves) (htext : t'.z.text = t.z.text) :
      FlatStep ⟨t, false⟩ key ⟨t', false⟩
  | find {t : FlatPlace} : FlatStep ⟨t, false⟩ (.byte CTRL_F) ⟨t, true⟩
  | search {t : FlatPlace} {key : KiloKey} (hesc : key ≠ .byte ESC) (henter : key ≠ .byte ENTER) :
      FlatStep ⟨t, true⟩ key ⟨t, true⟩
  | cancel {t : FlatPlace} : FlatStep ⟨t, true⟩ (.byte ESC) ⟨t, false⟩
  | found {t t' : FlatPlace} (htext : t'.z.text = t.z.text) :
      FlatStep ⟨t, true⟩ (.byte ENTER) ⟨t', false⟩

/-- The page as a text with a cursor. -/
def Page.flat (p : Page) : FlatPlace where
  z := ⟨(flatText (p.rows.take p.r) ++ p.line.take p.c).reverse,
    if p.r < p.rows.length then p.line.drop p.c ++ 10 :: flatText (p.rows.drop (p.r + 1))
    else []⟩
  missing := p.r - p.rows.length

def PageState.flat (q : PageState) : FlatState := ⟨q.page.flat, q.searching⟩

/-- The line of the place, cut there, and the lines before and after it. -/
structure Page.Focus (p : Page) (before : List (List UInt8)) (l₁ l₂ : List UInt8)
    (after : List (List UInt8)) : Prop where
  rows : p.rows = before ++ (l₁ ++ l₂) :: after
  r : p.r = before.length
  c : p.c = l₁.length

section Focus

variable {p : Page} {before after rows : List (List UInt8)} {l l₁ l₂ : List UInt8} {r c : ℕ}

@[simp] theorem flatText_nil : flatText [] = [] := rfl

@[simp] theorem flatText_cons (l : List UInt8) (rows : List (List UInt8)) :
    flatText (l :: rows) = l ++ 10 :: flatText rows := by
  rw [flatText, List.flatMap_cons, List.append_assoc, List.singleton_append]
  rfl

@[simp] theorem flatText_append (rows rows' : List (List UInt8)) :
    flatText (rows ++ rows') = flatText rows ++ flatText rows' := List.flatMap_append

theorem flatText_replicate_nil (n : ℕ) :
    flatText (List.replicate n []) = List.replicate n 10 := by
  induction n with
  | zero => rfl
  | succ n ih => rw [List.replicate_succ, flatText_cons, ih, List.nil_append, List.replicate_succ]

theorem Page.exists_focus (hr : p.r < p.rows.length) : ∃ before l₁ l₂ after,
    p.Focus before l₁ l₂ after := by
  refine ⟨p.rows.take p.r, p.line.take p.c, p.line.drop p.c, p.rows.drop (p.r + 1), ?_, ?_, ?_⟩
  · have hget : p.rows[p.r] = p.line := (lineAt_eq (List.getElem?_eq_getElem hr)).symm
    rw [List.take_append_drop, ← hget, List.getElem_cons_drop, List.take_append_drop]
  · rw [List.length_take, Nat.min_eq_left hr.le]
  · rw [List.length_take]
    exact (Nat.min_eq_left p.fits).symm

theorem lineAt_append_length (before : List (List UInt8)) (l : List UInt8)
    (after : List (List UInt8)) : lineAt (before ++ l :: after) before.length = l :=
  lineAt_eq (by rw [List.getElem?_append_right le_rfl, Nat.sub_self, List.getElem?_cons_zero])

theorem insertIdx_append_length (before after : List (List UInt8)) (l : List UInt8) :
    (before ++ after).insertIdx before.length l = before ++ l :: after := by
  induction before with
  | nil => rfl
  | cons l' before ih => exact congrArg (l' :: ·) ih

theorem Page.place_focus (before : List (List UInt8)) (l₁ l₂ : List UInt8)
    (after : List (List UInt8)) :
    (Page.place (before ++ (l₁ ++ l₂) :: after) before.length l₁.length).Focus before l₁ l₂
      after := by
  refine ⟨rfl, rfl, Page.place_c ?_⟩
  rw [lineAt_append_length, List.length_append]
  exact Nat.le_add_right _ _

/-- Where nothing is below the place but the end of the text. -/
theorem Page.flat_below (hr : p.rows.length ≤ p.r) :
    p.flat = ⟨⟨(flatText p.rows).reverse, []⟩, p.r - p.rows.length⟩ := by
  rw [Page.flat, if_neg (Nat.not_lt.mpr hr), List.take_of_length_le hr, Page.line, lineAt_of_le hr,
    List.take_nil, List.append_nil]

namespace Page.Focus

theorem line (h : p.Focus before l₁ l₂ after) : p.line = l₁ ++ l₂ := by
  rw [Page.line, h.rows, h.r, lineAt_append_length]

theorem lt (h : p.Focus before l₁ l₂ after) : p.r < p.rows.length := by
  rw [h.rows, h.r, List.length_append, List.length_cons]
  omega

theorem flat (h : p.Focus before l₁ l₂ after) :
    p.flat = ⟨⟨(flatText before ++ l₁).reverse, l₂ ++ 10 :: flatText after⟩, 0⟩ := by
  have hmissing : p.r - p.rows.length = 0 := Nat.sub_eq_zero_of_le h.lt.le
  rw [Page.flat, if_pos h.lt, hmissing, h.line, h.rows, h.r, h.c]
  simp

theorem put (h : p.Focus before l₁ l₂ after) (b : UInt8) :
    (p.put b).Focus before (l₁ ++ [b]) l₂ after := by
  have hpad : p.r + 1 - p.rows.length = 0 := Nat.sub_eq_zero_of_le h.lt
  have hput : p.put b = Page.place (before ++ (l₁ ++ [b] ++ l₂) :: after) before.length
      (l₁ ++ [b]).length := by
    rw [Page.put, hpad, List.replicate_zero, List.append_nil, h.line, h.c, h.rows, h.r]
    simp
  rw [hput]
  exact Page.place_focus _ _ _ _

theorem newline (h : p.Focus before l₁ l₂ after) :
    p.newline.Focus (before ++ [l₁]) [] l₂ after := by
  have hlen : before.length + 1 = (before ++ [l₁]).length := by
    rw [List.length_append, List.length_singleton]
  have hset : (before ++ (l₁ ++ l₂) :: after).set before.length l₁ = before ++ [l₁] ++ after := by
    simp
  rw [Page.newline, if_pos h.lt, h.line, h.c, h.rows, h.r, List.take_left, List.drop_left, hset,
    hlen, insertIdx_append_length]
  exact Page.place_focus _ [] l₂ after

theorem backspace_char {a : UInt8} (h : p.Focus before (l ++ [a]) l₂ after) :
    p.backspace.Focus before l l₂ after := by
  have hc : p.c = l.length + 1 := by rw [h.c, List.length_append, List.length_singleton]
  have herase : (l ++ [a] ++ l₂).eraseIdx l.length = l ++ l₂ := by
    rw [List.append_assoc, List.eraseIdx_append_of_length_le le_rfl, Nat.sub_self]
    rfl
  have hset : (before ++ (l ++ [a] ++ l₂) :: after).set before.length (l ++ l₂) =
      before ++ (l ++ l₂) :: after := by
    simp
  rw [Page.backspace, if_neg (by have := h.lt; omega), if_neg (by omega), h.line, hc,
    Nat.add_sub_cancel, herase, h.rows, h.r, hset]
  exact Page.place_focus _ _ _ _

theorem backspace_line (h : p.Focus (before ++ [l]) [] l₂ after) :
    p.backspace.Focus before l l₂ after := by
  have hr : p.r = before.length + 1 := by rw [h.r, List.length_append, List.length_singleton]
  have hc : p.c = 0 := h.c
  have hrows : p.rows = before ++ l :: l₂ :: after := by
    rw [h.rows, List.append_assoc]
    rfl
  have hset : (before ++ l :: l₂ :: after).set before.length (l ++ l₂) =
      before ++ (l ++ l₂) :: l₂ :: after := by
    simp
  have herase : (before ++ (l ++ l₂) :: l₂ :: after).eraseIdx (before.length + 1) =
      before ++ (l ++ l₂) :: after := by
    rw [List.eraseIdx_append_of_length_le (Nat.le_add_right _ 1), Nat.add_sub_cancel_left]
    rfl
  rw [Page.backspace, if_neg (by have := h.lt; omega), if_pos hc, h.line, hrows, hr,
    Nat.add_sub_cancel, lineAt_append_length, List.nil_append, hset, herase]
  exact Page.place_focus _ _ _ _

theorem backspace_start (h : p.Focus [] [] l₂ after) : p.backspace = p :=
  if_pos (Or.inr ⟨h.c, h.r⟩)

theorem left_char {a : UInt8} (h : p.Focus before (l ++ [a]) l₂ after) :
    p.left.Focus before l (a :: l₂) after := by
  have hc : p.c = l.length + 1 := by rw [h.c, List.length_append, List.length_singleton]
  have hrows : p.rows = before ++ (l ++ a :: l₂) :: after := by
    rw [h.rows, List.append_assoc]
    rfl
  rw [Page.left, if_pos (by omega), hc, Nat.add_sub_cancel, hrows, h.r]
  exact Page.place_focus _ _ _ _

theorem left_line (h : p.Focus (before ++ [l]) [] l₂ after) :
    p.left.Focus before l [] (l₂ :: after) := by
  have hr : p.r = before.length + 1 := by rw [h.r, List.length_append, List.length_singleton]
  have hc : p.c = 0 := h.c
  have hrows : p.rows = before ++ l :: l₂ :: after := by
    rw [h.rows, List.append_assoc]
    rfl
  rw [Page.left, if_neg (not_not.mpr hc), if_pos (by omega), hrows, hr, Nat.add_sub_cancel,
    lineAt_append_length]
  simpa only [List.append_nil] using Page.place_focus before l [] (l₂ :: after)

theorem left_start (h : p.Focus [] [] l₂ after) : p.left = p := by
  have hc : p.c = 0 := h.c
  have hr : p.r = 0 := h.r
  rw [Page.left, if_neg (not_not.mpr hc), if_neg (not_not.mpr hr)]

theorem right_char {a : UInt8} (h : p.Focus before l₁ (a :: l) after) :
    p.right.Focus before (l₁ ++ [a]) l after := by
  have hlt : p.c < p.line.length := by
    rw [h.line, h.c, List.length_append, List.length_cons]
    omega
  have hrows : p.rows = before ++ (l₁ ++ [a] ++ l) :: after := by
    rw [h.rows, List.append_assoc]
    rfl
  have hc : p.c + 1 = (l₁ ++ [a]).length := by rw [h.c, List.length_append, List.length_singleton]
  rw [Page.right, if_pos h.lt, if_pos hlt, hrows, h.r, hc]
  exact Page.place_focus _ _ _ _

/-- Behind the last character of a line the place goes to the start of the next one. -/
theorem right_end (h : p.Focus before l₁ [] after) :
    p.right = Page.place (before ++ [l₁] ++ after) (before ++ [l₁]).length 0 := by
  have hlt : ¬ p.c < p.line.length := by
    rw [h.line, h.c, List.append_nil]
    exact Nat.lt_irrefl _
  rw [Page.right, if_pos h.lt, if_neg hlt, h.rows, h.r, List.append_nil, List.append_assoc,
    List.length_append]
  rfl

end Page.Focus

end Focus

section Press

variable {p : Page}

theorem Page.flat_put (p : Page) (b : UInt8) : (p.put b).flat = p.flat.put b := by
  by_cases hr : p.r < p.rows.length
  · obtain ⟨before, l₁, l₂, after, h⟩ := Page.exists_focus hr
    have hright : l₂ ++ 10 :: flatText after ≠ [] := by simp
    rw [(h.put b).flat, h.flat, FlatPlace.put, if_neg hright, ← List.append_assoc,
      List.reverse_append]
    rfl
  · have hr := Nat.le_of_not_lt hr
    have hrows : (p.rows ++ List.replicate (p.r + 1 - p.rows.length) []).set p.r [b] =
        (p.rows ++ List.replicate (p.r - p.rows.length) []) ++ ([b] ++ []) :: [] := by
      have hlen : (p.rows ++ List.replicate (p.r - p.rows.length) []).length = p.r := by
        rw [List.length_append, List.length_replicate]
        omega
      rw [Nat.succ_sub hr, List.replicate_succ', ← List.append_assoc]
      conv_lhs => rw [← hlen]
      simp
    have hput : p.put b = Page.place ((p.rows ++ List.replicate (p.r - p.rows.length) []) ++
        ([b] ++ []) :: []) (p.rows ++ List.replicate (p.r - p.rows.length) []).length
          [b].length := by
      have hc : p.c = 0 := by
        have hfits := p.fits
        rwa [lineAt_of_le hr, List.length_nil, Nat.le_zero] at hfits
      rw [← hrows, Page.put, Page.line, lineAt_of_le hr, hc, List.length_append,
        List.length_replicate, Nat.add_sub_cancel' hr]
      rfl
    rw [hput, (Page.place_focus _ _ _ _).flat, Page.flat_below hr, FlatPlace.put, if_pos rfl]
    simp [flatText_replicate_nil]

theorem Page.flat_newline (p : Page) : p.newline.flat = p.flat.newline := by
  by_cases hr : p.r < p.rows.length
  · obtain ⟨before, l₁, l₂, after, h⟩ := Page.exists_focus hr
    rw [h.newline.flat, h.flat, FlatPlace.newline, if_pos rfl]
    simp [Zipper.insert]
  · have hr := Nat.le_of_not_lt hr
    rw [Page.flat_below hr, FlatPlace.newline]
    dsimp only
    by_cases heq : p.r = p.rows.length
    · have hnew : p.newline = Page.place (p.rows ++ [[]]) (p.r + 1) 0 := by
        rw [Page.newline, if_neg (Nat.not_lt.mpr hr), if_pos heq]
      have hlen : (p.rows ++ [[]]).length = p.r + 1 := by
        rw [List.length_append, List.length_singleton, heq]
      rw [if_pos (by omega), hnew, Page.flat_below (by rw [Page.place_rows, hlen, Page.place_r]),
        Page.place_rows, Page.place_r, hlen, Nat.sub_self]
      simp [Zipper.insert]
    · have hnew : p.newline = p := by
        rw [Page.newline, if_neg (Nat.not_lt.mpr hr), if_neg heq]
      rw [if_neg (by omega), hnew, Page.flat_below hr]

theorem Page.flat_backspace (p : Page) : p.backspace.flat = p.flat.backspace := by
  by_cases hr : p.r < p.rows.length
  · obtain ⟨before, l₁, l₂, after, h⟩ := Page.exists_focus hr
    have hright : l₂ ++ 10 :: flatText after ≠ [] := by simp
    rw [h.flat, FlatPlace.backspace, if_neg hright]
    rcases List.eq_nil_or_concat' l₁ with rfl | ⟨l, a, rfl⟩
    · rcases List.eq_nil_or_concat' before with rfl | ⟨before, l, rfl⟩
      · rw [h.backspace_start, h.flat]
        rfl
      · rw [h.backspace_line.flat]
        simp [Zipper.backspace]
    · rw [h.backspace_char.flat]
      simp [Zipper.backspace]
  · have hr := Nat.le_of_not_lt hr
    have hback : p.backspace = p := if_pos (Or.inl hr)
    rw [hback, Page.flat_below hr, FlatPlace.backspace, if_pos rfl]

theorem Page.flat_left (p : Page) : p.left.flat = p.flat.left := by
  by_cases hr : p.r < p.rows.length
  · obtain ⟨before, l₁, l₂, after, h⟩ := Page.exists_focus hr
    rw [h.flat, FlatPlace.left, if_pos rfl]
    rcases List.eq_nil_or_concat' l₁ with rfl | ⟨l, a, rfl⟩
    · rcases List.eq_nil_or_concat' before with rfl | ⟨before, l, rfl⟩
      · rw [h.left_start, h.flat]
        rfl
      · rw [h.left_line.flat]
        simp [Zipper.moveLeft]
    · rw [h.left_char.flat]
      simp [Zipper.moveLeft]
  · have hr := Nat.le_of_not_lt hr
    have hc : p.c = 0 := by
      have hfits := p.fits
      rwa [lineAt_of_le hr, List.length_nil, Nat.le_zero] at hfits
    rw [Page.flat_below hr, FlatPlace.left, Page.left, if_neg (not_not.mpr hc)]
    dsimp only
    by_cases heq : p.r = p.rows.length
    · have hmissing : p.r - p.rows.length = 0 := Nat.sub_eq_zero_of_le heq.le
      rw [if_pos hmissing]
      rcases List.eq_nil_or_concat' p.rows with hnil | ⟨before, l, hrows⟩
      · have hr₀ : p.r = 0 := by rw [heq, hnil, List.length_nil]
        rw [if_neg (not_not.mpr hr₀), Page.flat_below hr, hnil, hr₀]
        rfl
      · have hr₁ : p.r = before.length + 1 := by
          rw [heq, hrows, List.length_append, List.length_singleton]
        rw [if_pos (hr₁ ▸ Nat.succ_ne_zero _), hr₁, Nat.add_sub_cancel, hrows, lineAt_append_length]
        have hfocus := Page.place_focus before l [] []
        rw [List.append_nil] at hfocus
        rw [hfocus.flat]
        simp [Zipper.moveLeft]
    · have hmissing : p.r - p.rows.length ≠ 0 := by omega
      have hr₀ : p.r ≠ 0 := by omega
      rw [if_neg hmissing, if_pos hr₀, Page.flat_below (by dsimp only [Page.place]; omega)]
      simp only [Page.place_rows, Page.place_r, Nat.sub_right_comm]

theorem Page.flat_right (p : Page) : p.right.flat = p.flat.right := by
  by_cases hr : p.r < p.rows.length
  · obtain ⟨before, l₁, l₂, after, h⟩ := Page.exists_focus hr
    rw [h.flat, FlatPlace.right]
    cases l₂ with
    | cons a l₂ =>
      rw [h.right_char.flat]
      simp [Zipper.moveRight]
    | nil =>
      rw [h.right_end]
      cases after with
      | nil =>
        rw [Page.flat_below (by simp)]
        simp [Zipper.moveRight]
      | cons l after =>
        refine (Page.place_focus (before ++ [l₁]) [] l after).flat.trans ?_
        simp [Zipper.moveRight]
  · have hright : p.right = p := if_neg hr
    have hr := Nat.le_of_not_lt hr
    rw [hright, Page.flat_below hr]
    rfl

theorem Page.text_flat (p : Page) : p.flat.z.text = flatText p.rows := by
  by_cases hr : p.r < p.rows.length
  · obtain ⟨before, l₁, l₂, after, h⟩ := Page.exists_focus hr
    rw [h.flat, h.rows]
    simp [Zipper.text]
  · rw [Page.flat_below (Nat.le_of_not_lt hr)]
    simp [Zipper.text]

theorem Page.flat_press {key : KiloKey} (hmoves : ¬ key.Moves) :
    (p.press key).flat = p.flat.press key := by
  cases key with
  | byte c =>
    unfold Page.press FlatPlace.press
    dsimp only
    by_cases henter : c = ENTER
    · rw [if_pos henter, if_pos henter]
      exact p.flat_newline
    by_cases hrub : c = BACKSPACE ∨ c = CTRL_H
    · rw [if_neg henter, if_neg henter, if_pos hrub, if_pos hrub]
      exact p.flat_backspace
    by_cases hquiet : c ∈ quietKeys
    · rw [if_neg henter, if_neg henter, if_neg hrub, if_neg hrub, if_pos hquiet, if_pos hquiet]
    · rw [if_neg henter, if_neg henter, if_neg hrub, if_neg hrub, if_neg hquiet, if_neg hquiet]
      exact p.flat_put c
  | delKey => exact p.flat_backspace
  | homeKey => exact p.flat_put 237
  | endKey => exact p.flat_put 238
  | arrowLeft => exact p.flat_left
  | arrowRight => exact p.flat_right
  | arrowUp => exact absurd (Or.inl rfl) hmoves
  | arrowDown => exact absurd (Or.inr (Or.inl rfl)) hmoves
  | pageUp => exact absurd (Or.inr (Or.inr (Or.inl rfl))) hmoves
  | pageDown => exact absurd (Or.inr (Or.inr (Or.inr rfl))) hmoves

theorem PageStep.flat {q q' : PageState} {key : KiloKey} (h : PageStep q key q') :
    FlatStep q.flat key q'.flat := by
  cases h with
  | @press p _ hup hdown hfind =>
    by_cases hmoves : key.Moves
    · refine .move hmoves ?_
      rw [Page.text_flat, Page.text_flat]
      rcases hmoves with rfl | rfl | rfl | rfl
      · rfl
      · exact congrArg flatText (by rw [Page.press, Page.down]; split_ifs <;> rfl)
      · exact absurd rfl hup
      · exact absurd rfl hdown
    · rw [PageState.flat, PageState.flat, Page.flat_press hmoves]
      exact .press hmoves hfind
  | pageUp hrows =>
    exact .move (Or.inr (Or.inr (Or.inl rfl))) (by rw [Page.text_flat, Page.text_flat, hrows])
  | pageDown hrows =>
    exact .move (Or.inr (Or.inr (Or.inr rfl))) (by rw [Page.text_flat, Page.text_flat, hrows])
  | find => exact .find
  | search hesc henter => exact .search hesc henter
  | cancel => exact .cancel
  | found hrows => exact .found (by rw [Page.text_flat, Page.text_flat, hrows])

end Press

section Opening

variable {content l : List UInt8} {c : UInt8} {rows : List (List UInt8)}

theorem getlines_ne_nil {line : List UInt8} (h : line ∈ getlines content) : line ≠ [] := by
  induction content generalizing line with
  | nil => cases h
  | cons c content ih =>
    rw [getlines] at h
    split_ifs at h with hc
    · rcases List.mem_cons.mp h with rfl | h
      · exact List.cons_ne_nil c []
      · exact ih h
    · cases hlines : getlines content with
      | nil =>
        rw [hlines] at h
        rw [List.mem_singleton.mp h]
        exact List.cons_ne_nil c []
      | cons line' lines =>
        rw [hlines] at h ih
        rcases List.mem_cons.mp h with rfl | h
        · exact List.cons_ne_nil c line'
        · exact ih (List.mem_cons_of_mem _ h)

theorem chopLine_cons (h : l ≠ []) : chopLine (c :: l) = c :: chopLine l := by
  have hlast : (c :: l).getLast? = l.getLast? := by
    rw [List.getLast?_cons, List.getLast?_eq_some_getLast h]
    rfl
  have hdrop : (c :: l).dropLast = c :: l.dropLast := List.dropLast_cons_of_ne_nil h
  unfold chopLine
  rw [hlast]
  cases hget : l.getLast? with
  | none => exact absurd (List.getLast?_eq_none_iff.mp hget) h
  | some a =>
    dsimp only
    rw [hdrop]
    split_ifs <;> rfl

theorem getlines_append_newline (hl : 10 ∉ l) (rest : List UInt8) :
    getlines (l ++ 10 :: rest) = (l ++ [10]) :: getlines rest := by
  induction l with
  | nil => rfl
  | cons c l ih =>
    have hc : c ≠ 10 := fun h => hl (h ▸ List.mem_cons_self)
    rw [List.cons_append, getlines, if_neg hc, ih fun h => hl (List.mem_cons_of_mem c h)]
    rfl

/-- Lines that have no newline of their own are what is opened of their text. -/
theorem openedRows_flatText (h : ∀ l ∈ rows, 10 ∉ l) :
    openedRows (some (flatText rows)) = rows := by
  change (getlines (flatText rows)).map chopLine = rows
  induction rows with
  | nil => rfl
  | cons l rows ih =>
    have hchop : chopLine (l ++ [10]) = l := by simp [chopLine]
    rw [flatText_cons, getlines_append_newline (h l List.mem_cons_self), List.map_cons, hchop,
      ih fun l' hl' => h l' (List.mem_cons_of_mem l hl')]

theorem editorRowsToString_eq {e : EditorConfig} (hrow : e.row = rows.map shown) :
    editorRowsToString e = flatText rows := by
  rw [editorRowsToString, hrow, List.flatMap_map]
  rfl

/-- Where a run comes to, its rows are those of a page that the keys come to. -/
theorem Kilo.run_rows {nrows cols : ℤ} (hrows : 0 < nrows) (hcols : 32 < cols)
    {file : Option (List UInt8)} {calls : List (KiloKey × SaveEnv)} {s : Kilo}
    (h : Exec Kilo.SafeStep (Kilo.start nrows cols file) calls s) :
    ∃ q, Exec PageCall ⟨openedPage file, false⟩ calls q ∧ s.e.row = q.page.rows.map shown := by
  obtain ⟨q, hrun, hshows⟩ := Kilo.run_shows hrows hcols h
  refine ⟨q, hrun, ?_⟩
  unfold Kilo.Shows at hshows
  cases hfind : s.find with
  | none =>
    rw [hfind] at hshows
    exact hshows.2.row
  | some f =>
    rw [hfind] at hshows
    exact hshows.2.1.row

end Opening

end JailFs
