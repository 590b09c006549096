import JailFs.ConfGet
import Mathlib.Data.Nat.Digits.Defs
import Mathlib.Data.Int.ModEq

/-!
# Settings that are integers

A literal of C is read by `strtol` for the integer that it denotes, in each of the three bases. Both
getters of integers then cut the `long` down to an `int`, and `dict_getInt` looks for an error of
`strtol` but not for what is lost there.
-/

namespace JailFs

/-- How an integer is written in C. -/
inductive Radix
  | decimal
  | octal
  | hex (x : UInt8)
  deriving DecidableEq

namespace Radix

def base : Radix → ℕ
  | .decimal => 10
  | .octal => 8
  | .hex _ => 16

def lead : Radix → List UInt8
  | .decimal => []
  | .octal => [48]
  | .hex x => [48, x]

/-- A decimal number starts with a digit other than zero, and an octal one may have none after its
zero. -/
def Admits : Radix → List UInt8 → Prop
  | .decimal, l => l ≠ [] ∧ l.head? ≠ some 48
  | .octal, _ => True
  | .hex x, l => (x = 120 ∨ x = 88) ∧ l ≠ []

end Radix

/-- An integer literal, with the blanks and the sign that `strtol` takes in front of one. -/
structure IntLiteral where
  blanks : List UInt8
  sign : Option Bool
  radix : Radix
  digits : List UInt8
  blank : ∀ c ∈ blanks, isspace c = true
  digit : ∀ c ∈ digits, isDigit radix.base c = true
  admitted : radix.Admits digits

namespace IntLiteral

def signText : Option Bool → List UInt8
  | none => []
  | some true => [45]
  | some false => [43]

def text (x : IntLiteral) : List UInt8 := x.blanks ++ signText x.sign ++ x.radix.lead ++ x.digits

def magnitude (x : IntLiteral) : ℕ :=
  Nat.ofDigits x.radix.base (x.digits.map fun c => (digitValue c).getD 0).reverse

/-- The integer that is denoted. -/
def value (x : IntLiteral) : ℤ := if x.sign = some true then -x.magnitude else x.magnitude

end IntLiteral

theorem digitsFrom_eq_ofDigits {base n : ℕ} {l : List UInt8}
    (h : ∀ c ∈ l, isDigit base c = true) : digitsFrom base n l =
      n * base ^ l.length + Nat.ofDigits base (l.map fun c => (digitValue c).getD 0).reverse := by
  induction l generalizing n with
  | nil => simp
  | cons c l ih =>
    rw [digitsFrom_cons (h c List.mem_cons_self), ih fun c hc => h c (List.mem_cons_of_mem _ hc),
      List.map_cons, Nat.ofDigits_reverse_cons, List.length_map, List.length_cons, pow_succ]
    ring

namespace IntLiteral

variable (x : IntLiteral)

theorem digits_eq_magnitude : JailFs.digits x.radix.base x.digits = x.magnitude := by
  rw [digits_eq, digitsFrom_eq_ofDigits x.digit, zero_mul, zero_add, magnitude]

theorem magnitude_lead : JailFs.magnitude (x.radix.lead ++ x.digits) = x.magnitude := by
  rw [← x.digits_eq_magnitude]
  have hadmitted := x.admitted
  have hdigit := x.digit
  cases hr : x.radix with
  | decimal =>
    rw [hr] at hadmitted
    obtain ⟨c, l, hl⟩ := List.exists_cons_of_ne_nil hadmitted.1
    have hc : c ≠ 48 := by
      rintro rfl
      exact hadmitted.2 (by rw [hl]; rfl)
    rw [hl]
    exact Numeral.magnitude_of_ne hc
  | octal =>
    rw [hr] at hdigit
    cases hl : x.digits with
    | nil => rfl
    | cons c l =>
      rw [hl] at hdigit
      have hc : ¬ (c = 120 ∨ c = 88) := by
        rintro (rfl | rfl) <;> exact absurd (hdigit _ List.mem_cons_self) (by decide)
      change JailFs.magnitude (48 :: c :: l) = _
      rw [JailFs.magnitude, if_neg fun h => hc h.1]
      rfl
  | hex y =>
    rw [hr] at hadmitted hdigit
    obtain ⟨c, l, hl⟩ := List.exists_cons_of_ne_nil hadmitted.2
    rw [hl] at hdigit ⊢
    have hc : isDigit 16 c = true := hdigit c List.mem_cons_self
    change JailFs.magnitude (48 :: y :: c :: l) = _
    rw [JailFs.magnitude, if_pos ⟨hadmitted.1, by simpa using hc⟩]
    rfl

theorem exists_lead : ∃ c l, x.radix.lead ++ x.digits = c :: l ∧ isDigit 10 c = true := by
  have hadmitted := x.admitted
  have hdigit := x.digit
  cases hr : x.radix with
  | decimal =>
    rw [hr] at hadmitted hdigit
    obtain ⟨c, l, hl⟩ := List.exists_cons_of_ne_nil hadmitted.1
    exact ⟨c, l, hl, hdigit c (hl ▸ List.mem_cons_self)⟩
  | octal => exact ⟨48, x.digits, rfl, by decide⟩
  | hex y => exact ⟨48, y :: x.digits, rfl, by decide⟩

theorem signAt_text : signAt x.text = (x.sign == some true, x.radix.lead ++ x.digits) := by
  obtain ⟨c, l, hlead, hc⟩ := x.exists_lead
  have hspace := isspace_of_isDigit hc
  have htext : x.text = x.blanks ++ (signText x.sign ++ c :: l) := by
    rw [text, List.append_assoc, List.append_assoc, hlead]
  rw [signAt, htext, List.dropWhile_append_of_pos x.blank, hlead]
  cases x.sign with
  | none =>
    rw [signText, List.nil_append, List.dropWhile_cons_of_neg (by simp [hspace])]
    split
    · next heq => exact absurd hc ((List.cons.inj heq).1 ▸ by decide)
    · next heq => exact absurd hc ((List.cons.inj heq).1 ▸ by decide)
    · rfl
  | some minus => cases minus <;> rfl

theorem numberAt_text : numberAt x.text = x.value := by
  rw [numberAt, x.signAt_text, x.magnitude_lead, value]
  simp

theorem hasNumber_text : hasNumber x.text = true := by
  obtain ⟨c, l, hlead, hc⟩ := x.exists_lead
  rw [hasNumber, x.signAt_text, hlead]
  exact hc

end IntLiteral

section Literals

variable {d : Dict} {key s : CString} {x : IntLiteral} {n dflt : ℤ} {fuel : ℕ}

/-- The default is what the conversion makes of a number that is no `int`. -/
def Passes (n dflt : ℤ) : Prop :=
  FitsLong n ∧ n ≡ dflt [ZMOD 2 ^ 32] ∨ 2 ^ 63 ≤ n ∧ dflt = -1 ∨ n < -2 ^ 63 ∧ dflt = 0

/-- Both getters answer with the number if it is an `int`, and with the default if it is none. -/
def AnswerInt (d : Dict) (key : CString) (n dflt : ℤ) (fuel : ℕ) : Prop :=
  dictGetInt d (some key) dflt fuel = some (if FitsInt n then n else dflt) ∧
    dconfGetInt (some d) (some key) dflt fuel = some (if FitsInt n then n else dflt)

theorem wrapInt_eq_iff (h : FitsInt dflt) : wrapInt n = dflt ↔ n ≡ dflt [ZMOD 2 ^ 32] := by
  obtain ⟨hlo, hhi⟩ := h
  have hmod := Int.bmod_emod (x := n) (m := 2 ^ 32)
  have hle := Int.le_bmod (x := n) (m := 2 ^ 32) (by omega)
  have hlt := Int.bmod_lt (x := n) (m := 2 ^ 32) (by omega)
  rw [wrapInt, Int.ModEq]
  omega

/-- A literal is read for the integer that it denotes if that is an `int`; otherwise the default
is answered exactly if the conversion happens to make it of the literal. -/
theorem answerInt_iff (hget : d.get (some key) none fuel = some (some s)) (hs : s.bytes = x.text)
    (hdflt : FitsInt dflt) :
    AnswerInt d key x.value dflt fuel ↔ FitsInt x.value ∨ Passes x.value dflt := by
  have hn := x.numberAt_text
  rw [AnswerInt, dictGetInt_of_get hget, dconfGetInt_of_get hget, hs, x.hasNumber_text,
    Option.some.injEq, Option.some.injEq, hn, Passes]
  simp only [true_and]
  by_cases hint : FitsInt x.value
  · have hlo := hint.1
    have hhi := hint.2
    have hlong : FitsLong x.value := ⟨by omega, by omega⟩
    have hread : strtol x.text = x.value := (strtol_of_fits (hn ▸ hlong)).trans hn
    simp [hint, hlong, hread, hint.wrapInt]
  · rw [if_neg hint]
    rcases fitsLong_cases x.value with hlong | ⟨hlong, hge⟩ | ⟨hlong, hlt⟩
    · have hread : strtol x.text = x.value := (strtol_of_fits (hn ▸ hlong)).trans hn
      have hlo := hlong.1
      have hhi := hlong.2
      have hin : ¬ (2 ^ 63 ≤ x.value ∧ dflt = -1 ∨ x.value < -2 ^ 63 ∧ dflt = 0) := by omega
      rw [if_pos hlong, hread, wrapInt_eq_iff hdflt]
      simp only [hint, hlong, true_and, false_or, and_self, hin, or_false]
    · rw [if_neg hlong, wrapInt_strtol_of_ge (hn ▸ hge)]
      simp only [hint, hlong, true_and, false_and, false_or]
      omega
    · rw [if_neg hlong, wrapInt_strtol_of_lt (hn ▸ hlt)]
      simp only [hint, hlong, true_and, false_and, false_or]
      omega

/-- `0x50` -/
def IntLiteral.hexEighty : IntLiteral :=
  ⟨[], none, .hex 120, [53, 48], by simp, List.all_eq_true.mp rfl, ⟨by decide, by simp⟩⟩

/-- The number `2 ^ 32`. -/
def IntLiteral.wraps : IntLiteral :=
  ⟨[], none, .decimal, bytesOf "4294967296", by simp, List.all_eq_true.mp rfl,
    ⟨by decide, by decide⟩⟩

/-- `"[general]\nport=0x50"` -/
theorem answerInt_iff_hex : ∃ d fuel, Loads (bytesOf "[general]\nport=0x50") d ∧
    (AnswerInt d (.ofChars "port".toList) 80 5 fuel ↔ FitsInt 80 ∨ Passes 80 5) := by
  obtain ⟨d, fuel, hload, hget⟩ := exists_get_of_loads (bytesOf "[general]\nport=0x50")
    (.ofChars "port".toList) (.ofChars "0x50".toList) rfl
  have hvalue : IntLiteral.hexEighty.value = 80 := by decide
  exact ⟨d, fuel, hload, hvalue ▸ answerInt_iff (x := .hexEighty) hget rfl (by decide)⟩

/-- After `"[general]\nport=4294967296"` the number is read as zero. -/
theorem getInt_wraps : ¬ ∀ (text : List UInt8) (d : Dict) (key s : CString) (x : IntLiteral)
    (dflt : ℤ) (fuel : ℕ), Loads text d → d.get (some key) none fuel = some (some s) →
    s.bytes = x.text → FitsInt dflt → AnswerInt d key x.value dflt fuel := by
  intro h
  obtain ⟨d, fuel, hload, hget⟩ := exists_get_of_loads (bytesOf "[general]\nport=4294967296")
    (.ofChars "port".toList) (.ofChars "4294967296".toList) rfl
  have hanswer := (h _ d _ _ .wraps 80 fuel hload hget rfl (by decide)).1
  rw [dictGetInt_of_get hget] at hanswer
  revert hanswer
  decide

end Literals

end JailFs
