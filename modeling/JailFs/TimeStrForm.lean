import JailFs.Numeral

/-!
# Settings of the documented form

The comment over `timestr_to_time` gives the form of a setting as `[Xd][Xh][Xm][X][s]`, in lower or
upper case. `timestrToTime_fields` says what the function makes of the parts, whatever they are; the
numerals of a setting are read right exactly if none of them means something else as an octal one.
-/

namespace JailFs

theorem tolower_of_le {c : UInt8} (h : c ≤ 57) : tolower c = c :=
  if_neg fun h' => absurd (UInt8.le_trans h'.1 h) (by decide)

section Fields

variable {letter : UInt8} {unit ret : ℤ} {piece : Option (List UInt8)} {rest : List UInt8}

/-- A part of a setting that ends with its letter, or is missing. -/
def fieldText (letter : UInt8) : Option (List UInt8) → List UInt8
  | none => []
  | some piece => piece ++ [letter]

/-- What such a part adds to the time. -/
def fieldTime (unit : ℤ) : Option (List UInt8) → ℤ
  | none => 0
  | some piece => strtol piece * unit

theorem wrapTime_add_wrapTime (a b : ℤ) : wrapTime (a + wrapTime b) = wrapTime (a + b) :=
  Int.add_bmod_bmod

theorem wrapTime_wrapTime_add (a b : ℤ) : wrapTime (wrapTime a + b) = wrapTime (a + b) :=
  Int.bmod_add_bmod

theorem wrapTime_wrapTime (a : ℤ) : wrapTime (wrapTime a) = wrapTime a := Int.bmod_bmod

theorem wrapTime_congr_add {a b : ℤ} (h : wrapTime a = wrapTime b) (c : ℤ) :
    wrapTime (a + c) = wrapTime (b + c) := by
  rw [← wrapTime_wrapTime_add a, h, wrapTime_wrapTime_add]

/-- A call of `strchr` finds the letter of its part, if the parts after it do not have it. -/
theorem timeField_eq (unit ret : ℤ) (hpiece : ∀ p ∈ piece, letter ∉ p) (hrest : letter ∉ rest) :
    ∃ r, timeField letter unit (ret, fieldText letter piece ++ rest) = (r, rest) ∧
      wrapTime r = wrapTime (ret + fieldTime unit piece) := by
  cases piece with
  | none =>
    rw [fieldText, fieldTime, List.nil_append, timeField, if_neg hrest, add_zero]
    exact ⟨ret, rfl, rfl⟩
  | some p =>
    have hp : ∀ c ∈ p, decide (c ≠ letter) = true := by
      intro c hc
      rw [decide_eq_true_eq]
      rintro rfl
      exact hpiece p rfl hc
    have htake : (p ++ letter :: rest).takeWhile (· ≠ letter) = p := by
      rw [List.takeWhile_append_of_pos hp, List.takeWhile_cons_of_neg (by simp), List.append_nil]
    have hdrop : (p ++ letter :: rest).dropWhile (· ≠ letter) = letter :: rest := by
      rw [List.dropWhile_append_of_pos hp, List.dropWhile_cons_of_neg (by simp)]
    rw [fieldText, fieldTime, List.append_assoc, List.singleton_append, timeField,
      if_pos (by simp), htake, hdrop]
    refine ⟨_, rfl, ?_⟩
    rw [wrapTime_add_wrapTime, wrapTime_wrapTime]

theorem not_mem_fieldText {c : UInt8} (hne : letter ≠ c) (hpiece : ∀ p ∈ piece, letter ∉ p) :
    letter ∉ fieldText c piece := by
  cases piece with
  | none => exact List.not_mem_nil
  | some p => simpa [fieldText, hne] using hpiece p rfl

end Fields

section Setting

variable {days hours minutes : Option (List UInt8)} {seconds : List UInt8} {str : CString}
  {dflt : ℤ}

/-- None of the letters that end a part. -/
def NoLetter (p : List UInt8) : Prop := 100 ∉ p ∧ 104 ∉ p ∧ 109 ∉ p

theorem timestrToTime_fields
    (hstr : str.bytes.map tolower = fieldText 100 days ++
      (fieldText 104 hours ++ (fieldText 109 minutes ++ seconds)))
    (hd : ∀ p ∈ days, NoLetter p) (hh : ∀ p ∈ hours, NoLetter p)
    (hm : ∀ p ∈ minutes, NoLetter p) (hs : NoLetter seconds) :
    timestrToTime (some str) dflt = wrapTime (fieldTime 86400 days + fieldTime 3600 hours +
      fieldTime 60 minutes + strtol seconds) := by
  have hrest : 104 ∉ fieldText 109 minutes ++ seconds := by
    rw [List.mem_append, not_or]
    exact ⟨not_mem_fieldText (by decide) fun p hp => (hm p hp).2.1, hs.2.1⟩
  have hrest' : 100 ∉ fieldText 104 hours ++ (fieldText 109 minutes ++ seconds) := by
    rw [List.mem_append, List.mem_append, not_or, not_or]
    exact ⟨not_mem_fieldText (by decide) fun p hp => (hh p hp).1,
      not_mem_fieldText (by decide) fun p hp => (hm p hp).1, hs.1⟩
  obtain ⟨r₁, h₁, hr₁⟩ := timeField_eq 86400 0 (fun p hp => (hd p hp).1) hrest'
  obtain ⟨r₂, h₂, hr₂⟩ := timeField_eq 3600 r₁ (fun p hp => (hh p hp).2.1) hrest
  obtain ⟨r₃, h₃, hr₃⟩ := timeField_eq 60 r₂ (fun p hp => (hm p hp).2.2) hs.2.2
  simp only [timestrToTime, hstr, h₁, h₂, h₃]
  rw [zero_add] at hr₁
  have hr₂ := hr₂.trans (wrapTime_congr_add hr₁ _)
  have hr₃ := hr₃.trans (wrapTime_congr_add hr₂ _)
  exact wrapTime_congr_add hr₃ _

end Setting

/-- A numeral and its letter, which may be in upper case. -/
structure TimePart where
  numeral : Numeral
  upper : Bool
  deriving DecidableEq

def lettered (letter : UInt8) (upper : Bool) : UInt8 := if upper then letter - 32 else letter

def partText (letter : UInt8) : Option TimePart → List UInt8
  | none => []
  | some part => part.numeral.bytes ++ [lettered letter part.upper]

def partValue : Option TimePart → ℕ
  | none => 0
  | some part => part.numeral.value

/-- A setting of the form `[Xd][Xh][Xm][X][s]`. -/
structure TimeForm where
  days : Option TimePart
  hours : Option TimePart
  minutes : Option TimePart
  seconds : Option Numeral
  /-- Whether the `s` is there, and whether it is in upper case. -/
  suffix : Option Bool
  deriving DecidableEq

namespace TimeForm

variable {f : TimeForm}

def secondsBytes (f : TimeForm) : List UInt8 := (f.seconds.map Numeral.bytes).getD []

def suffixBytes (f : TimeForm) : List UInt8 :=
  (f.suffix.map fun upper => [lettered 115 upper]).getD []

def bytes (f : TimeForm) : List UInt8 :=
  partText 100 f.days ++ (partText 104 f.hours ++ (partText 109 f.minutes ++
    (f.secondsBytes ++ f.suffixBytes)))

def value (f : TimeForm) : ℕ :=
  86400 * partValue f.days + 3600 * partValue f.hours + 60 * partValue f.minutes +
    (f.seconds.map Numeral.value).getD 0

def numerals (f : TimeForm) : List Numeral :=
  f.days.toList.map TimePart.numeral ++ f.hours.toList.map TimePart.numeral ++
    f.minutes.toList.map TimePart.numeral ++ f.seconds.toList

/-- The part as `timestr_to_time` sees it. -/
def piece (part : Option TimePart) : Option (List UInt8) := part.map fun part => part.numeral.bytes

theorem digit_bounds {x : Numeral} {c : UInt8} (h : c ∈ x.bytes) : 48 ≤ c ∧ c ≤ 57 :=
  isDigit_ten_iff.mp (x.decimal c h)

theorem map_tolower_numeral (x : Numeral) : x.bytes.map tolower = x.bytes := by
  rw [List.map_congr_left fun c hc => tolower_of_le (digit_bounds hc).2, List.map_id']

theorem noLetter_numeral (x : Numeral) : NoLetter x.bytes := by
  refine ⟨fun h => ?_, fun h => ?_, fun h => ?_⟩
  all_goals exact absurd (digit_bounds h).2 (by decide)

theorem noLetter_piece {part : Option TimePart} : ∀ p ∈ piece part, NoLetter p := by
  rintro p hp
  obtain ⟨x, -, rfl⟩ := Option.map_eq_some_iff.mp hp
  exact noLetter_numeral x.numeral

theorem map_tolower_partText {letter : UInt8}
    (h : ∀ upper, tolower (lettered letter upper) = letter) (part : Option TimePart) :
    (partText letter part).map tolower = fieldText letter (piece part) := by
  cases part with
  | none => rfl
  | some x =>
    rw [partText, List.map_append, map_tolower_numeral, List.map_singleton, h]
    rfl

theorem map_tolower_bytes (f : TimeForm) : f.bytes.map tolower =
    fieldText 100 (piece f.days) ++ (fieldText 104 (piece f.hours) ++
      (fieldText 109 (piece f.minutes) ++ (f.secondsBytes ++ f.suffixBytes.map tolower))) := by
  have hsec : f.secondsBytes.map tolower = f.secondsBytes := by
    rw [secondsBytes]
    cases f.seconds with
    | none => rfl
    | some x => exact map_tolower_numeral x
  simp only [bytes, List.map_append, hsec]
  rw [map_tolower_partText (by decide), map_tolower_partText (by decide),
    map_tolower_partText (by decide)]

theorem suffixBytes_cases (f : TimeForm) : Numeral.IsEnd (f.suffixBytes.map tolower) := by
  rw [suffixBytes]
  rcases f.suffix with - | - | -
  · exact .inl rfl
  · exact .inr rfl
  · exact .inr rfl

theorem zero_not_mem (x : Numeral) : 0 ∉ x.bytes := fun h =>
  absurd (digit_bounds h).1 (by decide)

theorem zero_not_mem_fieldText {letter : UInt8} (h : 0 ≠ letter) (part : Option TimePart) :
    0 ∉ fieldText letter (piece part) := by
  refine not_mem_fieldText h fun p hp => ?_
  obtain ⟨x, -, rfl⟩ := Option.map_eq_some_iff.mp hp
  exact zero_not_mem x.numeral

theorem noNul (f : TimeForm) : 0 ∉ f.bytes := by
  intro h
  have hmem : 0 ∈ f.bytes.map tolower := List.mem_map_of_mem (f := tolower) h
  have hsec : 0 ∉ f.secondsBytes := by
    rw [secondsBytes]
    cases f.seconds with
    | none => exact List.not_mem_nil
    | some x => exact zero_not_mem x
  have hend : 0 ∉ f.suffixBytes.map tolower := by
    rcases suffixBytes_cases f with h | h <;> rw [h] <;> decide
  rw [map_tolower_bytes] at hmem
  simp only [List.mem_append] at hmem
  rcases hmem with h | h | h | h | h
  · exact zero_not_mem_fieldText (by decide) _ h
  · exact zero_not_mem_fieldText (by decide) _ h
  · exact zero_not_mem_fieldText (by decide) _ h
  · exact hsec h
  · exact hend h

def text (f : TimeForm) : CString := ⟨f.bytes, f.noNul⟩

/-- A numeral that fits into a `long` is read with at most its value, and with its value exactly if
it is plain. -/
theorem strtol_numeral {rest : List UInt8} (hrest : Numeral.IsEnd rest) (x : Numeral)
    (hx : x.value < 2 ^ 63) : ∃ m : ℕ, strtol (x.bytes ++ rest) = m ∧ m ≤ x.value ∧
      (m = x.value ↔ x.Plain) := by
  refine ⟨magnitude x.bytes, ?_, ?_⟩
  · have hle : magnitude x.bytes ≤ x.value := by
      rcases x.magnitude_cases with ⟨h, -⟩ | ⟨h, -⟩ <;> omega
    rw [x.strtol_append hrest]
    omega
  · rcases x.magnitude_cases with ⟨h, hp⟩ | ⟨h, hp⟩
    · exact ⟨h.le, iff_of_true h hp⟩
    · exact ⟨h.le, iff_of_false h.ne hp⟩

theorem fieldTime_piece (unit : ℤ) (part : Option TimePart) (h : partValue part < 2 ^ 63) :
    ∃ m : ℕ, fieldTime unit (piece part) = m * unit ∧ m ≤ partValue part ∧
      (m = partValue part ↔ ∀ p ∈ part, p.numeral.Plain) := by
  cases part with
  | none => exact ⟨0, by simp [piece, fieldTime], le_rfl, by simp [partValue]⟩
  | some p =>
    obtain ⟨m, hm, hle, hiff⟩ := strtol_numeral (.inl rfl) p.numeral h
    rw [List.append_nil] at hm
    refine ⟨m, ?_, hle, ?_⟩
    · change strtol p.numeral.bytes * unit = m * unit
      rw [hm]
    · simpa [partValue] using hiff

theorem strtol_seconds (f : TimeForm) (h : (f.seconds.map Numeral.value).getD 0 < 2 ^ 63) :
    ∃ m : ℕ, strtol (f.secondsBytes ++ f.suffixBytes.map tolower) = m ∧
      m ≤ (f.seconds.map Numeral.value).getD 0 ∧
      (m = (f.seconds.map Numeral.value).getD 0 ↔ ∀ x ∈ f.seconds, x.Plain) := by
  have hend := suffixBytes_cases f
  rw [secondsBytes]
  cases hs : f.seconds with
  | none =>
    refine ⟨0, ?_, le_rfl, by simp⟩
    rcases hend with h | h <;> rw [h] <;> decide
  | some x =>
    rw [hs] at h
    simpa using strtol_numeral hend x h

theorem noLetter_seconds (f : TimeForm) :
    NoLetter (f.secondsBytes ++ f.suffixBytes.map tolower) := by
  have hsec : NoLetter f.secondsBytes := by
    rw [secondsBytes]
    cases f.seconds with
    | none => exact ⟨List.not_mem_nil, List.not_mem_nil, List.not_mem_nil⟩
    | some x => exact noLetter_numeral x
  have hend : NoLetter (f.suffixBytes.map tolower) := by
    rcases suffixBytes_cases f with h | h <;> rw [h] <;> unfold NoLetter <;> decide
  simp only [NoLetter, List.mem_append, not_or]
  exact ⟨⟨hsec.1, hend.1⟩, ⟨hsec.2.1, hend.2.1⟩, ⟨hsec.2.2, hend.2.2⟩⟩

/-- The numerals of a setting are read with their values exactly if they are all plain, and only
then is the time the one that the setting stands for. -/
theorem timestrToTime_text_iff (f : TimeForm) (h : f.value < 2 ^ 63) :
    (∀ dflt, timestrToTime (some f.text) dflt = f.value) ↔ ∀ x ∈ f.numerals, x.Plain := by
  have hvalue : f.value = 86400 * partValue f.days + 3600 * partValue f.hours +
    60 * partValue f.minutes + (f.seconds.map Numeral.value).getD 0 := rfl
  obtain ⟨d, hd, hdle, hdiff⟩ := fieldTime_piece 86400 f.days (by omega)
  obtain ⟨hr, hh, hhle, hhiff⟩ := fieldTime_piece 3600 f.hours (by omega)
  obtain ⟨m, hm, hmle, hmiff⟩ := fieldTime_piece 60 f.minutes (by omega)
  obtain ⟨s, hs, hsle, hsiff⟩ := f.strtol_seconds (by omega)
  have hread (dflt : ℤ) : timestrToTime (some f.text) dflt =
      ((86400 * d + 3600 * hr + 60 * m + s : ℕ) : ℤ) := by
    rw [timestrToTime_fields f.map_tolower_bytes noLetter_piece noLetter_piece noLetter_piece
      f.noLetter_seconds, hd, hh, hm, hs, wrapTime_of_bounds] <;> omega
  have hplain : (∀ x ∈ f.numerals, x.Plain) ↔ (d = partValue f.days ∧ hr = partValue f.hours ∧
      m = partValue f.minutes ∧ s = (f.seconds.map Numeral.value).getD 0) := by
    rw [hdiff, hhiff, hmiff, hsiff, numerals]
    simp [or_imp, forall_and]
  simp only [hread, hplain, forall_const]
  omega

/-- `1D2h30`, a day, two hours and thirty seconds. -/
def dayAndMore : TimeForm where
  days := some ⟨⟨[49], List.cons_ne_nil _ _, List.all_eq_true.mp rfl⟩, true⟩
  hours := some ⟨⟨[50], List.cons_ne_nil _ _, List.all_eq_true.mp rfl⟩, false⟩
  minutes := none
  seconds := some ⟨[51, 48], List.cons_ne_nil _ _, List.all_eq_true.mp rfl⟩
  suffix := none

theorem timestrToTime_dayAndMore : dayAndMore.value < 2 ^ 63 ∧
    ((∀ dflt, timestrToTime (some dayAndMore.text) dflt = dayAndMore.value) ↔
      ∀ x ∈ dayAndMore.numerals, x.Plain) :=
  ⟨by decide, timestrToTime_text_iff dayAndMore (by decide)⟩

/-- `08h`. -/
def eightHours : TimeForm where
  days := none
  hours := some ⟨⟨[48, 56], List.cons_ne_nil _ _, List.all_eq_true.mp rfl⟩, false⟩
  minutes := none
  seconds := none
  suffix := none

/-- Eight hours are read as none, since `8` is no octal digit. -/
theorem timestrToTime_eightHours : ¬ ∀ f : TimeForm, f.value < 2 ^ 63 →
    ∀ dflt, timestrToTime (some f.text) dflt = f.value := by
  intro h
  exact absurd (h eightHours (by decide) 0) (by decide)

end TimeForm

end JailFs
