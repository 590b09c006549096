import JailFs.StrTokenize
import Mathlib.Data.Nat.Find

/-!
# Messages with a last parameter

`str_tokenize` first cuts off what follows the first `" :"`, for which it looks at the byte before
each colon. Where that byte is not in the message there is nothing more to say about the call.
-/

namespace JailFs

open Memory Splitting

def MAXPARA : ℕ := 15

/-- `strchr` for a character that is not NUL. -/
def strchr (mem : ℕ → UInt8) (c : UInt8) : ℕ → ℕ → Option (Option ℕ)
  | 0, _ => none
  | fuel + 1, p =>
    if mem p = c then some (some p)
    else if mem p = 0 then some none
    else strchr mem c fuel (p + 1)

/-- How the search of `str_tokenize` for a `':'` after a space ends: with a byte in front of the
message, without one, or at the colon. -/
inductive ColonSearch
  | before
  | noParam
  | param (p : ℕ)
  deriving DecidableEq

def colonLoop (mem : ℕ → UInt8) (message : ℕ) : ℕ → ℕ → Option ColonSearch
  | 0, _ => none
  | fuel + 1, pos =>
    match strchr mem colon fuel pos with
    | none => none
    | some none => some .noParam
    | some (some p) =>
      if p = message then some .before
      else if mem (p - 1) ≠ 32 then colonLoop mem message fuel (p + 1)
      else some (.param p)

/-- What a call of `str_tokenize` comes to. -/
inductive StrTokenize
  | readsBefore
  | returns (rc : ℤ) (t : Tokens)

def strTokenize (message : Option ℕ) (mem : ℕ → UInt8) (parv : ℕ → Option ℕ) (fuel : ℕ) :
    Option StrTokenize :=
  match message with
  | none => some (.returns (-1) ⟨mem, parv, 0⟩)
  | some message =>
    match colonLoop mem message fuel message with
    | none => none
    | some .before => some .readsBefore
    | some .noParam =>
      (splitMessage 32 (MAXPARA - 1) message mem parv fuel).map fun r => .returns r.1.count r.1
    | some (.param p) =>
      let mem := Function.update (Function.update mem (p - 1) 0) p 0
      (splitMessage 32 (MAXPARA - 1) message mem parv fuel).map fun r =>
        -- at the limit the parameter that was cut off is not stored
        if r.2 then .returns r.1.count r.1
        else .returns (r.1.count + 1)
          { r.1 with
            parv := Function.update r.1.parv r.1.count (some (p + 1))
            count := r.1.count + 1 }

section Colon

/-- A `':'` with a space before it, at this place of the message. -/
def ColonAt (l : List UInt8) (k : ℕ) : Prop := l[k]? = some 32 ∧ l[k + 1]? = some colon

def FirstColon (l : List UInt8) (k : ℕ) : Prop := ColonAt l k ∧ ∀ j < k, ¬ ColonAt l j

variable {mem : ℕ → UInt8} {l : List UInt8} {fuel i k message : ℕ}

theorem FirstColon.unique {k' : ℕ} (h : FirstColon l k) (h' : FirstColon l k') : k = k' := by
  rcases lt_trichotomy k k' with hlt | heq | hlt
  · exact absurd h.1 (h'.2 k hlt)
  · exact heq
  · exact absurd h'.1 (h.2 k' hlt)

theorem strchr_spec (hl : 0 ∉ l) (hmem : HoldsAt mem message (l ++ [0])) (hi : i ≤ l.length)
    (hfuel : l.length < i + fuel) :
    (∃ k, strchr mem colon fuel (message + i) = some (some (message + k)) ∧ i ≤ k ∧
      l[k]? = some colon ∧ ∀ j, i ≤ j → j < k → l[j]? ≠ some colon) ∨
    (strchr mem colon fuel (message + i) = some none ∧ ∀ j, i ≤ j → l[j]? ≠ some colon) := by
  induction fuel generalizing i with
  | zero => omega
  | succ fuel ih =>
    rw [strchr]
    rcases Nat.lt_or_eq_of_le hi with hlt | rfl
    · have hbyte : mem (message + i) = l[i] := by
        rw [hmem i (by rw [List.length_append]; omega), List.getElem_append_left hlt]
      have hne : l[i] ≠ 0 := fun h0 => hl (h0 ▸ List.getElem_mem hlt)
      by_cases hc : l[i] = colon
      · refine .inl ⟨i, ?_, le_rfl, ?_, fun j hij hji => absurd hij (Nat.not_le_of_lt hji)⟩
        · rw [if_pos (hbyte.trans hc)]
        · rw [List.getElem?_eq_getElem hlt, hc]
      · have hhere : l[i]? ≠ some colon := by
          rw [List.getElem?_eq_getElem hlt]
          simpa using hc
        rw [if_neg (by rwa [hbyte]), if_neg (by rwa [hbyte]), Nat.add_assoc]
        rcases ih (i := i + 1) hlt (by omega) with ⟨k, hk, hik, hcolon, hfirst⟩ | ⟨hnone, hall⟩
        · refine .inl ⟨k, hk, Nat.le_of_succ_le hik, hcolon, fun j hij hjk => ?_⟩
          rcases Nat.lt_or_eq_of_le hij with hlt | rfl
          · exact hfirst j hlt hjk
          · exact hhere
        · refine .inr ⟨hnone, fun j hij => ?_⟩
          rcases Nat.lt_or_eq_of_le hij with hlt | rfl
          · exact hall j hlt
          · exact hhere
    · have hend : mem (message + l.length) = 0 := by
        rw [hmem l.length (by simp)]
        simp
      refine .inr ⟨?_, fun j hij => ?_⟩
      · rw [hend, if_neg (by decide), if_pos rfl]
      · rw [List.getElem?_eq_none hij]
        simp

/-- What the search of `str_tokenize` finds in a message. -/
def ColonSearch.Finds (message : ℕ) (l : List UInt8) : ColonSearch → Prop
  | before => l.head? = some colon
  | noParam => l.head? ≠ some colon ∧ ∀ k, ¬ ColonAt l k
  | param p => l.head? ≠ some colon ∧ ∃ k, FirstColon l k ∧ p = message + (k + 1)

theorem colonLoop_spec (hl : 0 ∉ l) (hmem : HoldsAt mem message (l ++ [0])) (hi : i ≤ l.length)
    (hfuel : l.length + 1 < i + fuel) (hhead : 0 < i → l.head? ≠ some colon)
    (hpast : ∀ j, j + 1 < i → ¬ ColonAt l j) :
    ∃ r, colonLoop mem message fuel (message + i) = some r ∧ r.Finds message l := by
  induction fuel generalizing i with
  | zero => omega
  | succ fuel ih =>
    rw [colonLoop]
    have hroom : l.length < i + fuel := by omega
    rcases strchr_spec hl hmem hi hroom with
      ⟨k, hk, hik, hcolon, hfirst⟩ | ⟨hnone, hall⟩
    · simp only [hk]
      have hklt : k < l.length := (List.getElem?_eq_some_iff.mp hcolon).1
      -- a colon that comes earlier has been looked at, and has no space before it
      have hbefore : ∀ j, j + 1 < k → ¬ ColonAt l j := by
        intro j hj hat
        rcases Nat.lt_or_ge (j + 1) i with hlt | hge
        · exact hpast j hlt hat
        · exact hfirst (j + 1) hge hj hat.2
      cases k with
      | zero =>
        rw [Nat.add_zero, if_pos rfl]
        exact ⟨_, rfl, by rwa [ColonSearch.Finds, List.head?_eq_getElem?]⟩
      | succ k =>
        have hnot : l.head? ≠ some colon := by
          intro hhd
          rcases Nat.eq_zero_or_pos i with rfl | hpos
          · exact hfirst 0 le_rfl (Nat.succ_pos k) (by rwa [← List.head?_eq_getElem?])
          · exact hhead hpos hhd
        have hprev : mem (message + (k + 1) - 1) = l[k] := by
          rw [← Nat.add_assoc, Nat.add_sub_cancel, hmem k (by rw [List.length_append]; omega),
            List.getElem_append_left (by omega)]
        rw [if_neg (by omega), hprev]
        by_cases hspace : l[k] = 32
        · rw [if_neg (not_not.mpr hspace)]
          have hat : ColonAt l k :=
            ⟨by rw [List.getElem?_eq_getElem (by omega), hspace], hcolon⟩
          exact ⟨_, rfl, hnot, k, ⟨hat, fun j hj => hbefore j (by omega)⟩, rfl⟩
        · rw [if_pos hspace, Nat.add_assoc]
          refine ih hklt (by omega) (fun _ => hnot) fun j hj hat => ?_
          rcases Nat.lt_or_eq_of_le (Nat.le_of_lt_succ hj) with hlt | heq
          · exact hbefore j hlt hat
          · obtain rfl : j = k := by omega
            refine hspace ?_
            have hbyte := hat.1
            rwa [List.getElem?_eq_getElem (by omega), Option.some_inj] at hbyte
    · simp only [hnone]
      refine ⟨_, rfl, fun hhd => ?_, fun j hat => ?_⟩
      · rcases Nat.eq_zero_or_pos i with rfl | hpos
        · exact hall 0 le_rfl (by rwa [← List.head?_eq_getElem?])
        · exact hhead hpos hhd
      · rcases Nat.lt_or_ge (j + 1) i with hlt | hge
        · exact hpast j hlt hat
        · exact hall (j + 1) hge hat.2

end Colon

/-- What is expected of `str_tokenize` on a message: it comes back without a look at what is in
front of the message, writes no more than `MAXPARA` entries, and where the message has a `" :"` the
strings are the words before the first one and all of the text after it. -/
def TokenizeContract (s : CString) : Prop :=
  ∀ mem message parv fuel, 0 < message → HoldsAt mem message (s.bytes ++ [0]) →
    s.length + 1 < fuel → ∃ t, strTokenize (some message) mem parv fuel =
      some (.returns t.count t) ∧ t.count ≤ MAXPARA ∧ (∀ i, MAXPARA ≤ i → t.parv i = parv i) ∧
      ∀ k, FirstColon s.bytes k →
        t.Shows (words 32 (s.bytes.take k) ++ [s.bytes.drop (k + 2)])

section Tokenize

variable {s : CString} {mem : ℕ → UInt8} {parv : ℕ → Option ℕ} {message fuel k : ℕ}

theorem Tokens.Shows.unique {t : Tokens} {a b : List (List UInt8)} (ha : t.Shows a)
    (hb : t.Shows b) (hno : ∀ l ∈ a, 0 ∉ l) (hno' : ∀ l ∈ b, 0 ∉ l) : a = b := by
  apply List.ext_getElem (ha.1.symm.trans hb.1)
  intro i hi hi'
  obtain ⟨p, hp, hpa⟩ := ha.2 i hi
  obtain ⟨q, hq, hqb⟩ := hb.2 i hi'
  obtain rfl : p = q := Option.some.inj (hp.symm.trans hq)
  have hfuel : a[i].length < a[i].length + b[i].length + 1 := by omega
  have hfuel' : b[i].length < a[i].length + b[i].length + 1 := by omega
  rw [← cstring_eq (hno _ (List.getElem_mem hi)) hpa hfuel,
    cstring_eq (hno' _ (List.getElem_mem hi')) hqb hfuel']

theorem Tokens.Shows.snoc {t : Tokens} {strings : List (List UInt8)} {l : List UInt8} {p : ℕ}
    (h : t.Shows strings) (hl : HoldsAt t.mem p (l ++ [0])) :
    Tokens.Shows ⟨t.mem, Function.update t.parv t.count (some p), t.count + 1⟩
      (strings ++ [l]) := by
  refine ⟨?_, fun i hi => ?_⟩
  · rw [List.length_append, ← h.1]
    rfl
  · rcases Nat.lt_or_ge i strings.length with hlt | hge
    · obtain ⟨q, hq, hqs⟩ := h.2 i hlt
      refine ⟨q, ?_, ?_⟩
      · exact (Function.update_of_ne (by rw [h.1]; omega) ..).trans hq
      · rwa [List.getElem_append_left hlt]
    · obtain rfl : i = strings.length := by
        rw [List.length_append, List.length_singleton] at hi
        omega
      refine ⟨p, ?_, ?_⟩
      · rw [← h.1]
        exact Function.update_self ..
      · simpa using hl

theorem colonLoop_start (hmem : HoldsAt mem message (s.bytes ++ [0]))
    (hfuel : s.length + 1 < fuel) :
    ∃ r, colonLoop mem message fuel message = some r ∧ r.Finds message s.bytes :=
  colonLoop_spec (i := 0) s.noNul hmem (Nat.zero_le _) (by rw [Nat.zero_add]; exact hfuel)
    (fun h => absurd h (Nat.lt_irrefl 0)) fun j hj => absurd hj (Nat.not_lt_zero _)

theorem strTokenize_before (parv : ℕ → Option ℕ) (hhead : s.bytes.head? = some colon)
    (hmem : HoldsAt mem message (s.bytes ++ [0])) (hfuel : s.length + 1 < fuel) :
    strTokenize (some message) mem parv fuel = some .readsBefore := by
  obtain ⟨r, hr, hfinds⟩ := colonLoop_start hmem hfuel
  rw [strTokenize, hr]
  cases r with
  | before => rfl
  | noParam => exact absurd hhead hfinds.1
  | param p => exact absurd hhead hfinds.1

theorem strTokenize_noParam (parv : ℕ → Option ℕ) (hhead : s.bytes.head? ≠ some colon)
    (hno : ∀ k, ¬ ColonAt s.bytes k)
    (hmem : HoldsAt mem message (s.bytes ++ [0])) (hfuel : s.length + 1 < fuel) :
    ∃ t, strTokenize (some message) mem parv fuel = some (.returns t.count t) ∧
      (∀ i, t.count ≤ i → t.parv i = parv i) ∧ t.Shows (cut 32 13 s.bytes) := by
  obtain ⟨r, hr, hfinds⟩ := colonLoop_start hmem hfuel
  have hd : (32 : UInt8) ≠ 0 := by decide
  obtain ⟨t, ht, hshows, hkept, -⟩ :=
    splitMessage_spec (n := 13) parv hd s.noNul hmem (Nat.lt_of_succ_lt hfuel)
  refine ⟨t.1, ?_, hkept, hshows⟩
  rw [strTokenize, hr]
  cases r with
  | before => exact absurd hfinds hhead
  | noParam =>
    simp only [MAXPARA]
    rw [ht]
    rfl
  | param p =>
    obtain ⟨-, k, hk, -⟩ := hfinds
    exact absurd hk.1 (hno k)

theorem cut_at_colon (hk : k + 2 ≤ s.length) (hmem : HoldsAt mem message (s.bytes ++ [0])) :
    let mem := Function.update (Function.update mem (message + (k + 1) - 1) 0) (message + (k + 1)) 0
    HoldsAt mem message (s.bytes.take k ++ [0]) ∧
      HoldsAt mem (message + (k + 2)) (s.bytes.drop (k + 2) ++ [0]) := by
  have hlen : (s.bytes.take k).length = k := by
    rw [List.length_take]
    exact Nat.min_eq_left (Nat.le_of_add_right_le hk)
  have hlen' : (s.bytes.take (k + 2)).length = k + 2 := by
    rw [List.length_take]
    exact Nat.min_eq_left hk
  intro mem'
  have hsame (a : ℕ) (h : a ≠ message + k) (h' : a ≠ message + (k + 1)) : mem' a = mem a := by
    refine (Function.update_of_ne h' ..).trans (Function.update_of_ne ?_ ..)
    omega
  constructor
  · refine .append ?_ ?_
    · have hleft := hmem.left
      rw [← List.take_append_drop k s.bytes] at hleft
      refine hleft.left.congr fun a _ ha => ?_
      rw [hlen] at ha
      exact hsame a (by omega) (by omega)
    · rw [hlen]
      refine .cons ?_ fun i hi => absurd hi (Nat.not_lt_zero i)
      have hfirst : message + k = message + (k + 1) - 1 := rfl
      refine (Function.update_of_ne (by omega) ..).trans ?_
      rw [hfirst]
      exact Function.update_self ..
  · have hright := hmem
    rw [← List.take_append_drop (k + 2) s.bytes, List.append_assoc] at hright
    have hdrop := hright.right
    rw [hlen'] at hdrop
    exact hdrop.congr fun a ha _ => hsame a (by omega) (by omega)

theorem strTokenize_param (parv : ℕ → Option ℕ) (hhead : s.bytes.head? ≠ some colon)
    (hk : FirstColon s.bytes k)
    (hmem : HoldsAt mem message (s.bytes ++ [0])) (hfuel : s.length + 1 < fuel) :
    ∃ t, strTokenize (some message) mem parv fuel = some (.returns t.count t) ∧
      (∀ i, t.count ≤ i → t.parv i = parv i) ∧
      t.Shows (if 13 < (parts 32 (s.bytes.take k)).length then cut 32 13 (s.bytes.take k)
        else parts 32 (s.bytes.take k) ++ [s.bytes.drop (k + 2)]) := by
  obtain ⟨r, hr, hfinds⟩ := colonLoop_start hmem hfuel
  have hlen : k + 2 ≤ s.length := (List.getElem?_eq_some_iff.mp hk.1.2).1
  obtain ⟨hbefore, hparam⟩ := cut_at_colon hlen hmem
  have htake : (s.bytes.take k).length < fuel := by
    rw [List.length_take]
    have hlength := s.length_bytes
    omega
  have hd : (32 : UInt8) ≠ 0 := by decide
  have hnul : 0 ∉ s.bytes.take k := fun h0 => s.noNul (List.mem_of_mem_take h0)
  obtain ⟨⟨t, full⟩, ht, hshows, hkept, habove, hshort⟩ :=
    splitMessage_spec (n := 13) parv hd hnul hbefore htake
  rw [strTokenize, hr]
  cases r with
  | before => exact absurd hfinds hhead
  | noParam => exact absurd hk.1 (hfinds.2 k)
  | param p =>
    obtain ⟨-, k', hk', rfl⟩ := hfinds
    obtain rfl := hk.unique hk'
    simp only [MAXPARA]
    rw [ht]
    rw [cutShort_iff (by decide)] at hshort
    by_cases hfull : 13 < (parts 32 (s.bytes.take k)).length
    · obtain rfl := hshort.mpr hfull
      rw [if_pos hfull]
      exact ⟨t, rfl, hkept, hshows⟩
    · obtain rfl : full = false := by simpa using mt hshort.mp hfull
      rw [if_neg hfull]
      refine ⟨⟨t.mem, Function.update t.parv t.count (some (message + (k + 1) + 1)), t.count + 1⟩,
        by simp, fun i hi => ?_, ?_⟩
      · exact (Function.update_of_ne (by dsimp only at hi; omega) ..).trans
          (hkept i (Nat.le_of_succ_le hi))
      · rw [← cut_of_lt (Nat.le_of_not_lt hfull)]
        refine Tokens.Shows.snoc hshows (hparam.congr fun a ha _ => habove a ?_)
        rw [List.length_take]
        omega

theorem parts_eq_words {l : List UInt8} :
    parts 32 l = if l = [] ∨ l.head? = some 32 then [] :: words 32 l else words 32 l := by
  cases l with
  | nil => rfl
  | cons c l =>
    by_cases hc : c = 32
    · subst hc
      rw [if_pos (.inr rfl), parts]
      simp
    · rw [if_neg (by simp [hc]), words_cons_of_ne hc]

/-- The strings that are stored are the expected ones for a list that starts with a word, if there
are not too many. -/
theorem words_snoc_eq_iff {l param : List UInt8} :
    words 32 l ++ [param] = (if 13 < (parts 32 l).length then cut 32 13 l
      else parts 32 l ++ [param]) ↔
      ¬ (l = [] ∨ l.head? = some 32) ∧ (words 32 l).length ≤ 13 := by
  have hparts := parts_eq_words (l := l)
  by_cases hempty : l = [] ∨ l.head? = some 32
  · rw [if_pos hempty] at hparts
    simp only [hempty, not_true, false_and, iff_false]
    intro heq
    split_ifs at heq with hfull
    · rw [cut_of_le hfull, hparts] at heq
      rw [hparts, List.length_cons] at hfull
      obtain ⟨w, ws, hwords⟩ := List.exists_cons_of_length_pos
        (Nat.lt_of_lt_of_le (by decide) (Nat.le_of_lt_succ hfull))
      have hw : w ∈ words 32 l := hwords ▸ List.mem_cons_self
      rw [hwords, List.cons_append, List.take_succ_cons, List.cons_append] at heq
      rw [(List.cons.inj heq).1] at hw
      exact absurd (List.mem_filter.mp hw).2 (by simp)
    · rw [hparts] at heq
      simpa using congrArg List.length heq
  · rw [if_neg hempty] at hparts
    rw [hparts]
    simp only [hempty, not_false_eq_true, true_and]
    split_ifs with hfull
    · have hcut : (cut 32 13 l).length ≤ 14 := length_cut_le
      refine ⟨fun heq => ?_, fun hle => absurd hfull (Nat.not_lt_of_le hle)⟩
      have hlen := congrArg List.length heq
      rw [List.length_append, List.length_singleton] at hlen
      omega
    · exact ⟨fun _ => Nat.le_of_not_lt hfull, fun _ => rfl⟩

theorem not_mem_of_mem_cut {l w : List UInt8} {n : ℕ} (hl : 0 ∉ l) (hw : w ∈ cut 32 n l) :
    0 ∉ w := by
  induction n generalizing l with
  | zero =>
    rw [cut, List.mem_singleton] at hw
    rwa [hw]
  | succ n ih =>
    rw [cut, List.mem_cons] at hw
    rcases hw with rfl | hw
    · exact fun h => hl ((List.takeWhile_sublist _).subset h)
    · split_ifs at hw
      · cases hw
      · refine ih (fun h => hl ?_) hw
        exact ((List.dropWhile_suffix _).trans (List.dropWhile_suffix _)).subset h

theorem not_mem_of_mem_parts {l w : List UInt8} (hl : 0 ∉ l) (hw : w ∈ parts 32 l) : 0 ∉ w :=
  not_mem_of_mem_cut hl (by rwa [cut_of_lt le_rfl])

theorem not_mem_of_mem_words {l w : List UInt8} (hl : 0 ∉ l) (hw : w ∈ words 32 l) : 0 ∉ w := by
  refine not_mem_of_mem_parts hl ?_
  rw [parts_eq_words]
  split_ifs
  · exact List.mem_cons_of_mem _ hw
  · exact hw

theorem take_colon {l : List UInt8} (hk : ColonAt l k) :
    l.take k = [] ∨ (l.take k).head? = some 32 ↔ l.head? = some 32 := by
  cases l with
  | nil => exact absurd hk.1 (by simp)
  | cons c l =>
    cases k with
    | zero => simpa using hk.1
    | succ k => simp

theorem exists_firstColon {l : List UInt8} (hk : ColonAt l k) : ∃ k, FirstColon l k := by
  classical
  exact ⟨Nat.find ⟨k, hk⟩, Nat.find_spec ⟨k, hk⟩, fun j hj => Nat.find_min ⟨k, hk⟩ hj⟩

/-- The call does what is expected of it exactly if the message does not start with a colon and,
where it has a `" :"`, does not start with a space and has at most 13 words before the `" :"`. -/
theorem tokenizeContract_iff (s : CString) : TokenizeContract s ↔
    s.bytes.head? ≠ some colon ∧ ∀ k, FirstColon s.bytes k →
      s.bytes.head? ≠ some 32 ∧ (words 32 (s.bytes.take k)).length ≤ 13 := by
  have htake (k : ℕ) : 0 ∉ s.bytes.take k := fun h0 => s.noNul (List.mem_of_mem_take h0)
  have hdrop (k : ℕ) : 0 ∉ s.bytes.drop k := fun h0 => s.noNul (List.mem_of_mem_drop h0)
  constructor
  · intro h
    have hmem : HoldsAt (fun a => (0 :: (s.bytes ++ [0])).getD a 0) 1 (s.bytes ++ [0]) :=
      (holdsAt_getD (0 :: (s.bytes ++ [0])) fun _ => 0).tail
    have hfuel : s.length + 1 < s.length + 2 := Nat.lt_succ_self _
    obtain ⟨t, ht, -, -, hshows⟩ := h _ 1 (fun _ => none) _ Nat.one_pos hmem hfuel
    have hhead : s.bytes.head? ≠ some colon := by
      intro hhead
      rw [strTokenize_before _ hhead hmem hfuel] at ht
      cases ht
    refine ⟨hhead, fun k hk => ?_⟩
    obtain ⟨t', ht', -, hshows'⟩ := strTokenize_param (fun _ => none) hhead hk hmem hfuel
    rw [ht, Option.some_inj] at ht'
    obtain rfl := (StrTokenize.returns.inj ht').2
    have heq := (hshows k hk).unique hshows' (fun l hl => ?_) fun l hl => ?_
    · rw [words_snoc_eq_iff, take_colon hk.1] at heq
      exact heq
    · rcases List.mem_append.mp hl with hl | hl
      · exact not_mem_of_mem_words (htake k) hl
      · exact List.mem_singleton.mp hl ▸ hdrop (k + 2)
    · split_ifs at hl
      · exact not_mem_of_mem_cut (htake k) hl
      · rcases List.mem_append.mp hl with hl | hl
        · exact not_mem_of_mem_parts (htake k) hl
        · exact List.mem_singleton.mp hl ▸ hdrop (k + 2)
  · rintro ⟨hhead, hcond⟩ mem message parv fuel - hmem hfuel
    by_cases hcolon : ∃ k, FirstColon s.bytes k
    · obtain ⟨k, hk⟩ := hcolon
      obtain ⟨hspace, hfew⟩ := hcond k hk
      obtain ⟨t, ht, hkept, hshows⟩ := strTokenize_param parv hhead hk hmem hfuel
      rw [← words_snoc_eq_iff.mpr ⟨mt (take_colon hk.1).mp hspace, hfew⟩] at hshows
      have hcount : t.count ≤ MAXPARA := by
        rw [hshows.1, List.length_append, List.length_singleton, MAXPARA]
        omega
      refine ⟨t, ht, hcount, fun i hi => hkept i (hcount.trans hi), fun k' hk' => ?_⟩
      rwa [← hk.unique hk']
    · have hno : ∀ k, ¬ ColonAt s.bytes k := fun k hk => hcolon (exists_firstColon hk)
      obtain ⟨t, ht, hkept, hshows⟩ := strTokenize_noParam parv hhead hno hmem hfuel
      have hcount : t.count ≤ MAXPARA := by
        have hlen : (cut 32 13 s.bytes).length ≤ 14 := length_cut_le
        rw [hshows.1, MAXPARA]
        omega
      exact ⟨t, ht, hcount, fun i hi => hkept i (hcount.trans hi),
        fun k hk => absurd ⟨k, hk⟩ hcolon⟩

/-- For `":a"` the byte in front of the message is read. -/
theorem strTokenize_reads_before : ¬ TokenizeContract ⟨[58, 97], by decide⟩ := by
  intro h
  have hmem : HoldsAt (fun a => [0, 58, 97, 0].getD a 0) 1 [58, 97, 0] :=
    (holdsAt_getD [0, 58, 97, 0] fun _ => 0).tail
  obtain ⟨t, ht, -⟩ := h _ 1 (fun _ => none) 4 Nat.one_pos hmem (Nat.lt_succ_self 3)
  have hbefore := strTokenize_before (s := ⟨[58, 97], by decide⟩) (fun _ => none) rfl hmem
    (Nat.lt_succ_self 3)
  rw [hbefore] at ht
  cases ht

end Tokenize

end JailFs
