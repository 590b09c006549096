import JailFs.ConfText
import JailFs.Module
import JailFs.Numeral

/-!
# The two families of getters

Settings are read by `dconf_get_int` and `dconf_get_bool` and, in other places, by `dict_getInt` and
`dict_getBool`. The two families take different texts for a boolean, and only the second one falls
back on its default for a text that is no number.
-/

namespace JailFs

/-- Whether there is a minus sign, and what follows the blanks and the sign. -/
def signAt (s : List UInt8) : Bool × List UInt8 :=
  match s.dropWhile isspace with
  | 45 :: s => (true, s)
  | 43 :: s => (false, s)
  | s => (false, s)

/-- The number at the start of a text, however large it is. -/
def numberAt (s : List UInt8) : ℤ :=
  if (signAt s).1 then -magnitude (signAt s).2 else magnitude (signAt s).2

/-- There is a digit where a number would start; otherwise `strtol` leaves `end` at the start. -/
def hasNumber (s : List UInt8) : Bool := (signAt s).2.head?.any (isDigit 10)

/-- A number that is a `long`; for any other one `strtol` sets `errno`. -/
def FitsLong (n : ℤ) : Prop := -2 ^ 63 ≤ n ∧ n < 2 ^ 63

instance (n : ℤ) : Decidable (FitsLong n) := inferInstanceAs (Decidable (_ ∧ _))

def dictGetInt (cp : Dict) (key : Option CString) (dflt : ℤ) (fuel : ℕ) : Option ℤ :=
  (cp.get key none fuel).map fun str =>
    match str with
    | none => dflt
    | some str =>
      let val := wrapInt (strtol str.bytes)
      if ¬ FitsLong (numberAt str.bytes) ∨ (val = 0 ∧ ¬ hasNumber str.bytes) then dflt else val

def dictGetBool (cp : Dict) (key : Option CString) (dflt : Bool) (fuel : ℕ) : Option Bool :=
  (cp.get key none fuel).map fun str =>
    match str with
    | none => dflt
    | some str =>
      if strcaseEq str (.ofChars "false".toList) || strcaseEq str (.ofChars "no".toList) then false
      else if strcaseEq str (.ofChars "true".toList) || strcaseEq str (.ofChars "yes".toList) then
        true
      else dflt

def dconfGetInt (conf : Option Dict) (key : Option CString) (dflt : ℤ) (fuel : ℕ) : Option ℤ :=
  (dconfGetStr conf key none fuel).map fun tmp =>
    match tmp with
    | none => dflt
    | some tmp => wrapInt (strtol tmp.bytes)

def dconfGetBool (conf : Option Dict) (key : Option CString) (dflt : ℤ) (fuel : ℕ) : Option ℤ :=
  (dconfGetStr conf key none fuel).map fun tmp =>
    match tmp with
    | none => dflt
    | some tmp =>
      if strcaseEq tmp (.ofChars "true".toList) || strcaseEq tmp (.ofChars "on".toList) ||
          strcaseEq tmp (.ofChars "yes".toList) || wrapInt (strtol tmp.bytes) = 1 then 1
      else if strcaseEq tmp (.ofChars "false".toList) || strcaseEq tmp (.ofChars "off".toList) ||
          strcaseEq tmp (.ofChars "no".toList) || wrapInt (strtol tmp.bytes) = 0 then 0
      else 0

/-- A `bool` as an `int`. -/
def intOfBool (b : Bool) : ℤ := if b then 1 else 0

section Strtol

variable {s : List UInt8} {n : ℤ}

theorem strtol_eq (s : List UInt8) : strtol s = max (-2 ^ 63) (min (2 ^ 63 - 1) (numberAt s)) := by
  rw [strtol]
  split
  · rename_i s' hs
    have hsign : signAt s = (true, s') := by simp only [signAt, hs]
    simp only [numberAt, hsign, if_true]
    omega
  · rename_i s' hs
    have hsign : signAt s = (false, s') := by simp only [signAt, hs]
    simp only [numberAt, hsign, Bool.false_eq_true, if_false]
    omega
  · rename_i hminus hplus
    have hsign : signAt s = (false, s.dropWhile isspace) := by
      rw [signAt]
      split
      · rename_i hs
        exact absurd hs (hminus _)
      · rename_i hs
        exact absurd hs (hplus _)
      · rfl
    simp only [numberAt, hsign, Bool.false_eq_true, if_false]
    omega

theorem strtol_of_fits (h : FitsLong (numberAt s)) : strtol s = numberAt s := by
  rw [strtol_eq]
  obtain ⟨hlo, hhi⟩ := h
  omega

theorem fitsLong_cases (n : ℤ) :
    FitsLong n ∨ ¬ FitsLong n ∧ 2 ^ 63 ≤ n ∨ ¬ FitsLong n ∧ n < -2 ^ 63 := by
  unfold FitsLong
  omega

theorem wrapInt_strtol_of_ge (h : 2 ^ 63 ≤ numberAt s) : wrapInt (strtol s) = -1 := by
  have hmax : strtol s = 2 ^ 63 - 1 := by
    rw [strtol_eq]
    omega
  rw [hmax]
  decide

theorem wrapInt_strtol_of_lt (h : numberAt s < -2 ^ 63) : wrapInt (strtol s) = 0 := by
  have hmin : strtol s = -2 ^ 63 := by
    rw [strtol_eq]
    omega
  rw [hmin]
  decide

theorem numberAt_of_not_hasNumber (h : hasNumber s = false) : numberAt s = 0 := by
  have hzero : magnitude (signAt s).2 = 0 := by
    rw [hasNumber] at h
    cases hs : (signAt s).2 with
    | nil => rfl
    | cons c l =>
      rw [hs] at h
      have hc : isDigit 10 c = false := h
      have hne : c ≠ 48 := by
        rintro rfl
        exact absurd hc (by decide)
      rw [Numeral.magnitude_of_ne hne, digits_eq, digitsFrom_stop hc]
  rw [numberAt, hzero]
  simp

theorem hasNumber_of_ne (h : numberAt s ≠ 0) : hasNumber s = true := by
  by_contra hnum
  exact h (numberAt_of_not_hasNumber (Bool.eq_false_iff.mpr hnum))

theorem wrapInt_eq_one_iff : wrapInt n = 1 ↔ n % 2 ^ 32 = 1 := by
  have hmod := Int.bmod_emod (x := n) (m := 2 ^ 32)
  have hlo := Int.le_bmod (x := n) (m := 2 ^ 32) (by omega)
  have hhi := Int.bmod_lt (x := n) (m := 2 ^ 32) (by omega)
  rw [wrapInt]
  omega

theorem wrapInt_strtol_eq_one_iff : wrapInt (strtol s) = 1 ↔
    FitsLong (numberAt s) ∧ numberAt s % 2 ^ 32 = 1 := by
  rw [wrapInt_eq_one_iff, strtol_eq, FitsLong]
  omega

end Strtol

section Spelling

variable {s : CString} {words words' : List (List Char)}

/-- A string that spells one of the words, in either case. -/
def Spells (s : CString) (words : List (List Char)) : Prop :=
  ∃ w ∈ words, strcaseEq s (.ofChars w) = true

instance : Decidable (Spells s words) :=
  inferInstanceAs (Decidable (∃ w ∈ words, strcaseEq s (.ofChars w) = true))

/-- The words for false that both readers of booleans know. -/
def falseWords : List (List Char) := ["false".toList, "no".toList]

/-- The words for true that both readers of booleans know. -/
def trueWords : List (List Char) := ["true".toList, "yes".toList]

theorem spells_nil : ¬ Spells s [] := by simp [Spells]

theorem spells_cons {w : List Char} :
    Spells s (w :: words) ↔ strcaseEq s (.ofChars w) = true ∨ Spells s words := by simp [Spells]

theorem Spells.not_spells (h : Spells s words)
    (hw : ∀ w ∈ words, ∀ v ∈ words',
      (CString.ofChars w).bytes.map tolower ≠ (CString.ofChars v).bytes.map tolower) :
    ¬ Spells s words' := by
  rintro ⟨v, hv, hsv⟩
  obtain ⟨w, hmem, hsw⟩ := h
  exact hw w hmem v hv ((strcaseEq_iff.mp hsw).symm.trans (strcaseEq_iff.mp hsv))

theorem hasNumber_of_letter {c : UInt8} {l : List UInt8} (hc : 97 ≤ tolower c) :
    hasNumber (c :: l) = false := by
  have hge : 65 ≤ c.toNat := by
    refine UInt8.le_iff_toNat_le.mp (show (65 : UInt8) ≤ c from ?_)
    by_contra hlt
    rw [tolower, if_neg fun h => hlt h.1] at hc
    exact hlt (UInt8.le_trans (by decide) hc)
  have hspace : isspace c = false := by
    simp only [isspace, ← UInt8.toNat_inj, UInt8.le_iff_toNat_le, UInt8.reduceToNat]
    simp
    omega
  have hdigit : isDigit 10 c = false := by
    rw [Bool.eq_false_iff]
    intro h
    have hle := UInt8.le_iff_toNat_le.mp (isDigit_ten_iff.mp h).2
    simp only [UInt8.reduceToNat] at hle
    omega
  have hminus : c ≠ 45 := by
    rintro rfl
    exact absurd hge (by decide)
  have hplus : c ≠ 43 := by
    rintro rfl
    exact absurd hge (by decide)
  have hsign : signAt (c :: l) = (false, c :: l) := by
    rw [signAt, List.dropWhile_cons_of_neg (by simp [hspace])]
    split
    · simp_all
    · simp_all
    · rfl
  rw [hasNumber, hsign]
  exact hdigit

theorem wrapInt_strtol_of_false (h : Spells s falseWords) :
    wrapInt (strtol s.bytes) = 0 := by
  have hnone : hasNumber s.bytes = false := by
    obtain ⟨w, hw, hs⟩ := h
    have hmap := strcaseEq_iff.mp hs
    cases hb : s.bytes with
    | nil =>
      rw [hb] at hmap
      simp only [falseWords, List.mem_cons, List.not_mem_nil, or_false] at hw
      rcases hw with rfl | rfl <;> exact absurd hmap (by decide)
    | cons c l =>
      rw [hb, List.map_cons] at hmap
      apply hasNumber_of_letter
      simp only [falseWords, List.mem_cons, List.not_mem_nil, or_false] at hw
      rcases hw with rfl | rfl <;> exact (List.cons.inj hmap).1 ▸ by decide
  rw [strtol_eq, numberAt_of_not_hasNumber hnone]
  rfl

end Spelling

section Agreement

variable {d : Dict} {key s : CString} {dflt : ℤ} {b : Bool} {fuel : ℕ}

/-- The texts that the two readers of integers take for the same one, with this default. -/
def IntAlike (s : List UInt8) (dflt : ℤ) : Prop :=
  hasNumber s = true ∧ FitsLong (numberAt s) ∨ hasNumber s = false ∧ dflt = 0 ∨
    2 ^ 63 ≤ numberAt s ∧ dflt = -1 ∨ numberAt s < -2 ^ 63 ∧ dflt = 0

instance (s : List UInt8) (dflt : ℤ) : Decidable (IntAlike s dflt) :=
  inferInstanceAs (Decidable (_ ∨ _))

/-- The texts that `dconf_get_bool` takes for true and `dict_getBool` for its default. -/
def TrueElsewhere (s : CString) : Prop :=
  Spells s ["on".toList] ∨ FitsLong (numberAt s.bytes) ∧ numberAt s.bytes % 2 ^ 32 = 1

instance : Decidable (TrueElsewhere s) := inferInstanceAs (Decidable (_ ∨ _))

/-- The texts that the two readers of booleans take for the same one, with this default. -/
def BoolAlike (s : CString) (b : Bool) : Prop :=
  Spells s falseWords ∨ Spells s trueWords ∨
    (b = true ↔ TrueElsewhere s)

theorem dictGetInt_of_get (h : d.get (some key) none fuel = some (some s)) :
    dictGetInt d (some key) dflt fuel =
      some (if hasNumber s.bytes = true ∧ FitsLong (numberAt s.bytes) then
        wrapInt (numberAt s.bytes) else dflt) := by
  rw [dictGetInt, h, Option.map_some]
  congr 1
  by_cases hfit : FitsLong (numberAt s.bytes)
  · simp only [strtol_of_fits hfit, hfit, not_true_eq_false, false_or, and_true]
    cases hnum : hasNumber s.bytes with
    | true => simp
    | false => simp [numberAt_of_not_hasNumber hnum, wrapInt]
  · simp [hfit]

theorem dconfGetInt_of_get (h : d.get (some key) none fuel = some (some s)) :
    dconfGetInt (some d) (some key) dflt fuel = some (wrapInt (strtol s.bytes)) := by
  rw [dconfGetInt, dconfGetStr, h]
  rfl

theorem getInt_agree_iff (h : d.get (some key) none fuel = some (some s)) :
    dconfGetInt (some d) (some key) dflt fuel = dictGetInt d (some key) dflt fuel ↔
      IntAlike s.bytes dflt := by
  rw [dconfGetInt_of_get h, dictGetInt_of_get h, Option.some.injEq, IntAlike]
  rcases fitsLong_cases (numberAt s.bytes) with hfit | ⟨hfit, hge⟩ | ⟨hfit, hlt⟩
  · have hge : ¬ 2 ^ 63 ≤ numberAt s.bytes := by
      have hhi := hfit.2
      omega
    have hlt : ¬ numberAt s.bytes < -2 ^ 63 := not_lt.mpr hfit.1
    rw [strtol_of_fits hfit]
    cases hnum : hasNumber s.bytes with
    | true => simp [hfit]
    | false => simp [numberAt_of_not_hasNumber hnum, wrapInt, eq_comm]
  · have hnum := hasNumber_of_ne (by omega : numberAt s.bytes ≠ 0)
    rw [wrapInt_strtol_of_ge hge, if_neg fun h => hfit h.2]
    simp only [hnum, hfit, hge, true_and, and_false, reduceCtorEq, false_and, false_or]
    omega
  · have hnum := hasNumber_of_ne (by omega : numberAt s.bytes ≠ 0)
    rw [wrapInt_strtol_of_lt hlt, if_neg fun h => hfit h.2]
    simp only [hnum, hfit, hlt, true_and, and_false, reduceCtorEq, false_and, false_or]
    omega

theorem dconfGetBool_of_get {dflt : ℤ} (h : d.get (some key) none fuel = some (some s)) :
    dconfGetBool (some d) (some key) dflt fuel =
      some (intOfBool (decide (Spells s trueWords ∨ TrueElsewhere s))) := by
  rw [dconfGetBool, dconfGetStr, h, Option.map_some]
  simp only [Bool.or_eq_true, decide_eq_true_eq, wrapInt_strtol_eq_one_iff]
  have hwords : ((strcaseEq s (.ofChars "true".toList) = true ∨
      strcaseEq s (.ofChars "on".toList) = true) ∨ strcaseEq s (.ofChars "yes".toList) = true) ∨
      FitsLong (numberAt s.bytes) ∧ numberAt s.bytes % 2 ^ 32 = 1 ↔
      Spells s trueWords ∨ TrueElsewhere s := by
    simp only [TrueElsewhere, trueWords, spells_cons, spells_nil, or_false]
    tauto
  rw [ite_self, intOfBool]
  simp only [hwords, decide_eq_true_eq]

theorem dictGetBool_of_get (h : d.get (some key) none fuel = some (some s)) :
    dictGetBool d (some key) b fuel =
      some (if Spells s falseWords then false
        else if Spells s trueWords then true else b) := by
  rw [dictGetBool, h, Option.map_some]
  simp only [falseWords, trueWords, spells_cons, spells_nil, or_false, Bool.or_eq_true]

theorem Spells.not_true (h : Spells s falseWords) :
    ¬ (Spells s trueWords ∨ TrueElsewhere s) := by
  rintro (htrue | hon | hone)
  · exact h.not_spells (by decide) htrue
  · exact h.not_spells (by decide) hon
  · have hzero := wrapInt_strtol_of_false h
    rw [wrapInt_strtol_eq_one_iff.mpr hone] at hzero
    exact absurd hzero (by decide)

theorem intOfBool_inj {b b' : Bool} : intOfBool b = intOfBool b' ↔ b = b' := by
  cases b <;> cases b' <;> decide

theorem getBool_agree_iff (h : d.get (some key) none fuel = some (some s)) :
    dconfGetBool (some d) (some key) (intOfBool b) fuel =
        (dictGetBool d (some key) b fuel).map intOfBool ↔ BoolAlike s b := by
  rw [dconfGetBool_of_get h, dictGetBool_of_get h, Option.map_some, Option.some.injEq,
    intOfBool_inj]
  rw [BoolAlike]
  by_cases hfalse : Spells s falseWords
  · simp [hfalse, hfalse.not_true]
  · by_cases htrue : Spells s trueWords
    · simp [hfalse, htrue]
    · cases b <;> simp [hfalse, htrue]

def GettersAgree (d : Dict) (key : CString) (dflt : ℤ) (b : Bool) (fuel : ℕ) : Prop :=
  dconfGetInt (some d) (some key) dflt fuel = dictGetInt d (some key) dflt fuel ∧
    dconfGetBool (some d) (some key) (intOfBool b) fuel =
      (dictGetBool d (some key) b fuel).map intOfBool

theorem gettersAgree_of_noText (h : ∀ s, d.get (some key) none fuel ≠ some (some s)) :
    GettersAgree d key dflt b fuel := by
  have hstr : dconfGetStr (some d) (some key) none fuel = d.get (some key) none fuel := rfl
  unfold GettersAgree dconfGetInt dictGetInt dconfGetBool dictGetBool
  rw [hstr]
  cases hget : d.get (some key) none fuel with
  | none => exact ⟨rfl, rfl⟩
  | some str =>
    cases str with
    | none => exact ⟨rfl, rfl⟩
    | some s => exact absurd hget (h s)

/-- The two families of getters answer alike exactly for the texts that they take for the same
integer and for the same boolean. -/
theorem gettersAgree_iff : GettersAgree d key dflt b fuel ↔
    ∀ s, d.get (some key) none fuel = some (some s) → IntAlike s.bytes dflt ∧ BoolAlike s b := by
  by_cases hget : ∃ s, d.get (some key) none fuel = some (some s)
  · obtain ⟨s, hget⟩ := hget
    rw [GettersAgree, getInt_agree_iff hget, getBool_agree_iff hget, hget]
    simp
  · have hnone : ∀ s, d.get (some key) none fuel ≠ some (some s) := fun s h => hget ⟨s, h⟩
    exact iff_of_true (gettersAgree_of_noText hnone) fun s h => absurd h (hnone s)

theorem exists_get_of_loads (text : List UInt8) (key val : CString)
    (hes : loadEvents (some text) = [.dictAdd (some key) (some val)]) :
    ∃ d fuel, Loads text d ∧ d.get (some key) none fuel = some (some val) := by
  obtain ⟨d, hload, hmap⟩ := exists_loads hes (by simp) (by simp [addsOf, LoadEvent.toOp])
  have hkey : d.toMap key = some (some val) := by
    rw [hmap]
    exact mapOf_add ..
  obtain ⟨fuel, hget⟩ := hload.wf_and_map.1.get_returns_of_present hkey
  exact ⟨d, fuel, hload, hget⟩

/-- After `"[general]\nport=http"` the default is answered by one of the two only. -/
theorem getters_differ : ¬ ∀ (text : List UInt8) (d : Dict) (key : CString) (dflt : ℤ) (b : Bool)
    (fuel : ℕ), Loads text d → GettersAgree d key dflt b fuel := by
  intro h
  obtain ⟨d, fuel, hload, hget⟩ := exists_get_of_loads (bytesOf "[general]\nport=http")
    (.ofChars "port".toList) (.ofChars "http".toList) rfl
  have halike := (getInt_agree_iff hget).mp (h _ d _ 80 false fuel hload).1
  revert halike
  decide

end Agreement

end JailFs
