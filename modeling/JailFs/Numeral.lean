import JailFs.TimeStr

/-!
# Numerals as `strtol` reads them

`strtol(s, NULL, 0)` tells the base of a number from its first digits. A decimal numeral is read
with its value unless it starts with a zero: then it is octal, and ends at the first digit that is
none there.
-/

namespace JailFs

theorem digitValue_lt_ten_iff {c : UInt8} {n : ℕ} : digitValue c = some n ∧ n < 10 ↔
    (48 ≤ c ∧ c ≤ 57) ∧ n = c.toNat - 48 := by
  unfold digitValue
  simp only [UInt8.le_iff_toNat_le, UInt8.reduceToNat]
  split_ifs <;> simp <;> omega

theorem isDigit_ten_iff {c : UInt8} : isDigit 10 c = true ↔ 48 ≤ c ∧ c ≤ 57 := by
  simp only [isDigit, Option.any_eq_true, decide_eq_true_eq, digitValue_lt_ten_iff]
  simp

theorem isspace_of_isDigit {c : UInt8} (h : isDigit 10 c = true) : isspace c = false := by
  have hc := isDigit_ten_iff.mp h
  simp only [isspace, UInt8.le_iff_toNat_le, UInt8.reduceToNat, ← UInt8.toNat_inj] at hc ⊢
  simp
  omega

section Digits

variable {base m n : ℕ} {c : UInt8} {l s : List UInt8}

/-- The number whose digits so far made `n`. -/
def digitsFrom (base n : ℕ) (s : List UInt8) : ℕ :=
  (s.takeWhile (isDigit base)).foldl (fun n c => n * base + (digitValue c).getD 0) n

theorem digits_eq (base : ℕ) (s : List UInt8) : digits base s = digitsFrom base 0 s := rfl

@[simp] theorem digitsFrom_nil : digitsFrom base n [] = n := rfl

theorem digitsFrom_cons (h : isDigit base c = true) :
    digitsFrom base n (c :: s) = digitsFrom base (n * base + (digitValue c).getD 0) s := by
  rw [digitsFrom, List.takeWhile_cons_of_pos h]
  rfl

theorem digitsFrom_stop (h : isDigit base c = false) : digitsFrom base n (c :: s) = n := by
  rw [digitsFrom, List.takeWhile_cons_of_neg (by simp [h])]
  rfl

theorem digitsFrom_append (h : ∀ c ∈ s.head?, isDigit base c = false) :
    digitsFrom base n (l ++ s) = digitsFrom base n l := by
  induction l generalizing n with
  | nil =>
    cases s with
    | nil => rfl
    | cons c s => exact digitsFrom_stop (h c rfl)
  | cons c l ih =>
    rw [List.cons_append]
    cases hc : isDigit base c with
    | false => rw [digitsFrom_stop hc, digitsFrom_stop hc]
    | true => rw [digitsFrom_cons hc, digitsFrom_cons hc, ih]

theorem le_digitsFrom (h : 0 < base) : n ≤ digitsFrom base n s := by
  induction s generalizing n with
  | nil => exact le_rfl
  | cons c s ih =>
    cases hc : isDigit base c with
    | false => rw [digitsFrom_stop hc]
    | true =>
      rw [digitsFrom_cons hc]
      exact ((Nat.le_mul_of_pos_right n h).trans (Nat.le_add_right _ _)).trans ih

variable (hl : ∀ c ∈ l, isDigit 10 c = true)

include hl

theorem digitsFrom_concat (hc : isDigit 10 c = true) :
    digitsFrom 10 n (l ++ [c]) = digitsFrom 10 n l * 10 + (digitValue c).getD 0 := by
  induction l generalizing n with
  | nil => rw [List.nil_append, digitsFrom_cons hc, digitsFrom_nil, digitsFrom_nil]
  | cons d l ih =>
    have hd : isDigit 10 d = true := hl d List.mem_cons_self
    rw [List.cons_append, digitsFrom_cons hd, digitsFrom_cons hd,
      ih fun d h => hl d (List.mem_cons_of_mem _ h)]

theorem octal_lt (hmn : m < n) : digitsFrom 8 m l < digitsFrom 10 n l := by
  induction l generalizing m n with
  | nil => exact hmn
  | cons c l ih =>
    rw [digitsFrom_cons (hl c List.mem_cons_self)]
    cases hc : isDigit 8 c with
    | false =>
      rw [digitsFrom_stop hc]
      have hle := @le_digitsFrom 10 (n * 10 + (digitValue c).getD 0) l (by omega)
      omega
    | true =>
      rw [digitsFrom_cons hc]
      exact ih (fun c h => hl c (List.mem_cons_of_mem _ h)) (by omega)

theorem ten_mul_le (n : ℕ) (hne : l ≠ []) : n * 10 ≤ digitsFrom 10 n l := by
  obtain ⟨c, l, rfl⟩ := List.exists_cons_of_ne_nil hne
  rw [digitsFrom_cons (hl c List.mem_cons_self)]
  exact (Nat.le_add_right _ _).trans (le_digitsFrom (by omega))

/-- Digits after the first one that counts are worth less when they are read as octal. -/
theorem octal_lt_of_pos (hn : 0 < n) (hne : l ≠ []) : digitsFrom 8 n l < digitsFrom 10 n l := by
  obtain ⟨c, l, rfl⟩ := List.exists_cons_of_ne_nil hne
  have hrest : ∀ c ∈ l, isDigit 10 c = true := fun c h => hl c (List.mem_cons_of_mem _ h)
  rw [digitsFrom_cons (hl c List.mem_cons_self)]
  cases hc : isDigit 8 c with
  | false =>
    rw [digitsFrom_stop hc]
    have hle := @le_digitsFrom 10 (n * 10 + (digitValue c).getD 0) l (by omega)
    omega
  | true =>
    rw [digitsFrom_cons hc]
    exact octal_lt hrest (by omega)

theorem octal_cases : digitsFrom 8 0 l = digitsFrom 10 0 l ∧ digitsFrom 10 0 l < 8 ∨
    digitsFrom 8 0 l < digitsFrom 10 0 l ∧ 8 ≤ digitsFrom 10 0 l := by
  induction l with
  | nil => exact .inl ⟨rfl, by decide⟩
  | cons c l ih =>
    have hrest : ∀ c ∈ l, isDigit 10 c = true := fun c h => hl c (List.mem_cons_of_mem _ h)
    obtain ⟨v, hv⟩ : ∃ v, digitValue c = some v := by
      obtain ⟨v, hv, -⟩ := (Option.any_eq_true _ _).mp (hl c List.mem_cons_self)
      exact ⟨v, hv⟩
    rw [digitsFrom_cons (hl c List.mem_cons_self), hv, Option.getD_some, Nat.zero_mul,
      Nat.zero_add]
    have hle := @le_digitsFrom 10 v l (by omega)
    by_cases height : v < 8
    · have hc : isDigit 8 c = true := by simp [isDigit, hv, height]
      rw [digitsFrom_cons hc, hv, Option.getD_some, Nat.zero_mul, Nat.zero_add]
      rcases Nat.eq_zero_or_pos v with rfl | hpos
      · exact ih hrest
      · by_cases hnil : l = []
        · subst hnil
          exact .inl ⟨rfl, height⟩
        · have hten := ten_mul_le hrest v hnil
          exact .inr ⟨octal_lt_of_pos hrest hpos hnil, by omega⟩
    · have hc : isDigit 8 c = false := by simp [isDigit, hv, height]
      rw [digitsFrom_stop hc]
      omega

end Digits

/-- Decimal digits, at least one. -/
structure Numeral where
  bytes : List UInt8
  nonempty : bytes ≠ []
  decimal : ∀ c ∈ bytes, isDigit 10 c = true
  deriving DecidableEq

namespace Numeral

/-- What the numeral stands for. -/
def value (x : Numeral) : ℕ := digits 10 x.bytes

/-- It does not start with a zero, or is too small for that to make a difference. -/
def Plain (x : Numeral) : Prop := x.bytes.head? ≠ some 48 ∨ x.value < 8

instance (x : Numeral) : Decidable x.Plain := inferInstanceAs (Decidable (_ ∨ _))

/-- The end of a setting after its last numeral. -/
def IsEnd (rest : List UInt8) : Prop := rest = [] ∨ rest = [115]

variable {x : Numeral} {rest : List UInt8}

theorem magnitude_of_ne {c : UInt8} {l : List UInt8} (h : c ≠ 48) :
    magnitude (c :: l) = digits 10 (c :: l) := by
  unfold magnitude
  split
  · next heq => cases heq
  · next heq => exact absurd (List.cons.inj heq).1 h
  · next heq => exact absurd (List.cons.inj heq).1 h
  · next heq => rw [heq]

theorem magnitude_zero {l : List UInt8} (hl : ∀ c ∈ l, isDigit 10 c = true) (hrest : IsEnd rest) :
    magnitude (48 :: (l ++ rest)) = digitsFrom 8 0 l := by
  have hend : ∀ c ∈ rest.head?, isDigit 8 c = false := by
    rcases hrest with rfl | rfl <;> simp [isDigit, digitValue]
  rw [← digitsFrom_append hend]
  cases hs : l ++ rest with
  | nil => rfl
  | cons c s =>
    have hc : ¬ (c = 120 ∨ c = 88) := by
      rintro (rfl | rfl)
      all_goals
        cases l with
        | nil => rcases hrest with rfl | rfl <;> simp at hs
        | cons d l =>
          have hd := isDigit_ten_iff.mp (hl d List.mem_cons_self)
          rw [(List.cons.inj hs).1] at hd
          exact absurd hd (by decide)
    rw [magnitude, if_neg fun h => hc h.1, digits_eq]

theorem magnitude_append (x : Numeral) (hrest : IsEnd rest) :
    magnitude (x.bytes ++ rest) = magnitude x.bytes := by
  obtain ⟨c, l, hx⟩ := List.exists_cons_of_ne_nil x.nonempty
  have hl : ∀ c ∈ l, isDigit 10 c = true := fun d hd =>
    x.decimal d (hx ▸ List.mem_cons_of_mem _ hd)
  have hend : ∀ c ∈ rest.head?, isDigit 10 c = false := by
    rcases hrest with rfl | rfl <;> simp [isDigit, digitValue]
  rw [hx]
  by_cases hc : c = 48
  · subst hc
    have h₁ := magnitude_zero hl hrest
    have h₂ := magnitude_zero hl (.inl rfl)
    rw [List.append_nil] at h₂
    rw [List.cons_append, h₁, h₂]
  · rw [List.cons_append, magnitude_of_ne hc, magnitude_of_ne hc, digits_eq, digits_eq,
      ← List.cons_append, digitsFrom_append hend]

/-- A numeral is read with at most its value, and with its value exactly if it is plain. -/
theorem magnitude_cases (x : Numeral) : magnitude x.bytes = x.value ∧ x.Plain ∨
    magnitude x.bytes < x.value ∧ ¬ x.Plain := by
  obtain ⟨c, l, hx⟩ := List.exists_cons_of_ne_nil x.nonempty
  have hl : ∀ c ∈ l, isDigit 10 c = true := fun d hd =>
    x.decimal d (hx ▸ List.mem_cons_of_mem _ hd)
  by_cases hc : c = 48
  · subst hc
    have hread := magnitude_zero hl (.inl rfl)
    rw [List.append_nil, ← hx] at hread
    have hvalue : x.value = digitsFrom 10 0 l := by
      rw [value, hx, digits_eq, digitsFrom_cons (by decide)]
      rfl
    have hplain : x.Plain ↔ x.value < 8 := by
      rw [Plain, hx]
      simp
    rw [hplain, hread, hvalue]
    rcases octal_cases hl with h | h
    · exact .inl h
    · exact .inr ⟨h.1, by omega⟩
  · refine .inl ⟨?_, .inl ?_⟩
    · rw [value, hx, magnitude_of_ne hc]
    · rw [hx]
      simpa using hc

theorem strtol_append (x : Numeral) (hrest : IsEnd rest) :
    strtol (x.bytes ++ rest) = min (2 ^ 63 - 1) (magnitude x.bytes : ℤ) := by
  rw [← magnitude_append x hrest]
  obtain ⟨c, l, hx⟩ := List.exists_cons_of_ne_nil x.nonempty
  have hdigit : isDigit 10 c = true := x.decimal c (hx ▸ List.mem_cons_self)
  have hc := isDigit_ten_iff.mp hdigit
  have hspace := isspace_of_isDigit hdigit
  rw [hx, List.cons_append, strtol, List.dropWhile_cons_of_neg (by simp [hspace])]
  split
  · next heq =>
    rw [(List.cons.inj heq).1] at hc
    exact absurd hc (by decide)
  · next heq =>
    rw [(List.cons.inj heq).1] at hc
    exact absurd hc (by decide)
  · rfl

end Numeral

end JailFs
