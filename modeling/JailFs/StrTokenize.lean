import JailFs.CString
import JailFs.Memory
import JailFs.Splitting
import Mathlib.Logic.Function.Basic

/-!
# Cutting a message in place

The tokenizers of `str.c` overwrite delimiters by NULs and store pointers into the message in
`parv`. Their loops differ in the delimiter and in the limit only, so they are one loop here.
-/

namespace JailFs

open Memory Splitting

/-- The message, the array `parv` and the number of entries, as a tokenizer leaves them. -/
structure Tokens where
  mem : ℕ → UInt8
  parv : ℕ → Option ℕ
  count : ℕ

/-- `while (*next == delim) next++;` -/
def skipDelims (delim : UInt8) (mem : ℕ → UInt8) : ℕ → ℕ → Option ℕ
  | 0, _ => none
  | fuel + 1, next => if mem next = delim then skipDelims delim mem fuel (next + 1) else some next

/-- `while (*next)`, and whether it was left by the test of the limit. -/
def splitLoop (delim : UInt8) (limit : ℕ) : ℕ → ℕ → Tokens → Option (Tokens × Bool)
  | 0, _, _ => none
  | fuel + 1, next, t =>
    if t.mem next = 0 then some (t, false)
    else if t.count = limit then some (t, true)
    else if t.mem next = delim then
      let mem := Function.update t.mem next 0
      match skipDelims delim mem fuel (next + 1) with
      | none => none
      | some next =>
        if mem next = 0 then some ({ t with mem }, false)
        else splitLoop delim limit fuel next
          ⟨mem, Function.update t.parv t.count (some next), t.count + 1⟩
    else splitLoop delim limit fuel (next + 1) t

def splitMessage (delim : UInt8) (limit message : ℕ) (mem : ℕ → UInt8) (parv : ℕ → Option ℕ)
    (fuel : ℕ) : Option (Tokens × Bool) :=
  splitLoop delim limit fuel message ⟨mem, Function.update parv 0 (some message), 1⟩

def strTokenizeGeneric (delim : UInt8) (size : ℕ) (message : Option ℕ) (mem : ℕ → UInt8)
    (parv : ℕ → Option ℕ) (fuel : ℕ) : Option Tokens :=
  match message with
  | none => some ⟨mem, Function.update parv 0 none, 0⟩
  | some message => (splitMessage delim size message mem parv fuel).map Prod.fst

def Tokens.Shows (t : Tokens) (strings : List (List UInt8)) : Prop :=
  t.count = strings.length ∧ ∀ i (h : i < strings.length),
    ∃ p, t.parv i = some p ∧ HoldsAt t.mem p (strings[i] ++ [0])

/-- What the loop leaves when it comes to `next` with `n` entries to go: the bytes before `next`
and the entries stored so far, and strings from `next` on. -/
structure SplitOutcome (delim : UInt8) (n : ℕ) (l : List UInt8) (next : ℕ) (t : Tokens)
    (r : Tokens × Bool) : Prop where
  below : ∀ a < next, r.1.mem a = t.mem a
  above : ∀ a, next + l.length ≤ a → r.1.mem a = t.mem a
  kept : ∀ i, i < t.count ∨ r.1.count ≤ i → r.1.parv i = t.parv i
  short : r.2 = true ↔ CutShort delim n l
  strings : ∃ w ws, cut delim n l = w :: ws ∧ HoldsAt r.1.mem next (w ++ [0]) ∧
    r.1.count = t.count + ws.length ∧ ∀ i (h : i < ws.length),
      ∃ p, r.1.parv (t.count + i) = some p ∧ HoldsAt r.1.mem p (ws[i] ++ [0])

section Loop

variable {delim c : UInt8} {mem : ℕ → UInt8} {l : List UInt8} {fuel limit n next p : ℕ}
  {t : Tokens} {r : Tokens × Bool}

theorem skipDelims_spec (hd : delim ≠ 0) (hmem : HoldsAt mem p (l ++ [0]))
    (hfuel : l.length < fuel) :
    ∃ q, skipDelims delim mem fuel p = some q ∧ p ≤ q ∧
      q + (l.dropWhile (· = delim)).length = p + l.length ∧
      HoldsAt mem q (l.dropWhile (· = delim) ++ [0]) := by
  induction l generalizing fuel p with
  | nil =>
    obtain ⟨fuel, rfl⟩ : ∃ n, fuel = n + 1 := ⟨fuel - 1, by omega⟩
    have hend : mem p = 0 := hmem.head
    refine ⟨p, ?_, le_rfl, rfl, hmem⟩
    rw [skipDelims, if_neg]
    rw [hend]
    exact Ne.symm hd
  | cons c l ih =>
    obtain ⟨fuel, rfl⟩ : ∃ n, fuel = n + 1 := ⟨fuel - 1, by omega⟩
    have hc : mem p = c := hmem.head
    by_cases hcd : c = delim
    · obtain ⟨q, hq, hle, hlen, hrest⟩ := ih hmem.tail (Nat.lt_of_succ_lt_succ hfuel)
      rw [List.dropWhile_cons_of_pos (by simpa using hcd)]
      refine ⟨q, ?_, Nat.le_of_succ_le hle, ?_, hrest⟩
      · rw [skipDelims, if_pos (hc.trans hcd), hq]
      · rw [hlen, List.length_cons]
        omega
    · rw [List.dropWhile_cons_of_neg (by simpa using hcd)]
      refine ⟨p, ?_, le_rfl, rfl, hmem⟩
      rw [skipDelims, if_neg]
      rwa [hc]

theorem splitOutcome_nil (hmem : HoldsAt t.mem next ([] ++ [0])) :
    SplitOutcome delim n [] next t (t, false) where
  below := fun _ _ => rfl
  above := fun _ _ => rfl
  kept := fun _ _ => rfl
  short := by cases n <;> simp [CutShort, rest]
  strings := by
    refine ⟨[], [], ?_, hmem, rfl, fun i h => absurd h (Nat.not_lt_zero i)⟩
    cases n <;> rfl

theorem splitOutcome_full (hne : l ≠ []) (hmem : HoldsAt t.mem next (l ++ [0])) :
    SplitOutcome delim 0 l next t (t, true) where
  below := fun _ _ => rfl
  above := fun _ _ => rfl
  kept := fun _ _ => rfl
  short := by simpa [CutShort] using hne
  strings := ⟨l, [], rfl, hmem, rfl, fun i h => absurd h (Nat.not_lt_zero i)⟩

theorem SplitOutcome.cons (hc : c ≠ delim) (hhead : t.mem next = c) (hn : 0 < n)
    (h : SplitOutcome delim n l (next + 1) t r) : SplitOutcome delim n (c :: l) next t r where
  below := fun a ha => h.below a (Nat.lt_succ_of_lt ha)
  above := fun a ha => h.above a (by rw [List.length_cons] at ha; omega)
  kept := h.kept
  short := h.short.trans (cutShort_cons_of_ne hc hn).symm
  strings := by
    obtain ⟨w, ws, hcut, hw, hcount, hws⟩ := h.strings
    refine ⟨c :: w, ws, cut_cons_of_ne hc hcut, ?_, hcount, hws⟩
    exact .cons ((h.below next (Nat.lt_succ_self next)).trans hhead) hw

theorem splitOutcome_last (hrest : rest delim (delim :: l) = []) :
    SplitOutcome delim (n + 1) (delim :: l) next t
      ({ t with mem := Function.update t.mem next 0 }, false) where
  below := fun a ha => Function.update_of_ne (Nat.ne_of_lt ha) ..
  above := fun a ha => Function.update_of_ne (by rw [List.length_cons] at ha; omega) ..
  kept := fun _ _ => rfl
  short := by simp [CutShort, hrest]
  strings := by
    refine ⟨[], [], ?_, ?_, rfl, fun i h => absurd h (Nat.not_lt_zero i)⟩
    · rw [cut, if_pos hrest]
      simp
    · exact .cons (Function.update_self ..) fun k hk => absurd hk (Nat.not_lt_zero k)

theorem SplitOutcome.split (hrest : rest delim (delim :: l) ≠ []) (hp : next < p)
    (hlen : p + (rest delim (delim :: l)).length = next + 1 + l.length)
    (h : SplitOutcome delim n (rest delim (delim :: l)) p
      ⟨Function.update t.mem next 0, Function.update t.parv t.count (some p), t.count + 1⟩ r) :
    SplitOutcome delim (n + 1) (delim :: l) next t r := by
  obtain ⟨w, ws, hcut, hw, hcount, hws⟩ := h.strings
  have hend : r.1.mem next = 0 := (h.below next hp).trans (Function.update_self ..)
  have hfirst : r.1.parv t.count = some p :=
    (h.kept _ (.inl (Nat.lt_succ_self _))).trans (Function.update_self ..)
  dsimp only at hcount
  refine ⟨fun a ha => ?_, fun a ha => ?_, fun i hi => ?_, ?_, [], w :: ws, ?_, ?_, ?_,
    fun i hi => ?_⟩
  · exact (h.below a (ha.trans hp)).trans (Function.update_of_ne (Nat.ne_of_lt ha) ..)
  · rw [List.length_cons] at ha
    exact (h.above a (by omega)).trans (Function.update_of_ne (by omega) ..)
  · refine (h.kept i (by dsimp only; omega)).trans (Function.update_of_ne ?_ ..)
    omega
  · rw [h.short, CutShort]
    simp [hrest]
  · rw [cut, if_neg hrest, hcut]
    simp
  · exact .cons hend fun k hk => absurd hk (Nat.not_lt_zero k)
  · rw [hcount, List.length_cons]
    omega
  · cases i with
    | zero => exact ⟨p, hfirst, hw⟩
    | succ i =>
      obtain ⟨q, hq, hqw⟩ := hws i (Nat.lt_of_succ_lt_succ hi)
      refine ⟨q, ?_, hqw⟩
      rwa [Nat.add_right_comm, Nat.add_assoc] at hq

theorem splitLoop_spec (hd : delim ≠ 0) (hl : 0 ∉ l) (hmem : HoldsAt t.mem next (l ++ [0]))
    (hfuel : l.length < fuel) (hlimit : limit = t.count + n) :
    ∃ r, splitLoop delim limit fuel next t = some r ∧ SplitOutcome delim n l next t r := by
  induction fuel generalizing l next t n with
  | zero => cases hfuel
  | succ fuel ih =>
    rw [splitLoop]
    cases l with
    | nil =>
      rw [if_pos hmem.head]
      exact ⟨_, rfl, splitOutcome_nil hmem⟩
    | cons c l =>
      rw [List.mem_cons, not_or] at hl
      have hc : t.mem next = c := hmem.head
      rw [hc, if_neg (Ne.symm hl.1)]
      cases n with
      | zero =>
        rw [if_pos (by omega)]
        exact ⟨_, rfl, splitOutcome_full (List.cons_ne_nil c l) hmem⟩
      | succ n =>
        rw [if_neg (by omega)]
        have hlen : l.length < fuel := Nat.lt_of_succ_lt_succ hfuel
        by_cases hcd : c = delim
        · subst hcd
          rw [if_pos rfl]
          have htail : HoldsAt (Function.update t.mem next 0) (next + 1) (l ++ [0]) :=
            hmem.tail.congr fun a ha _ => Function.update_of_ne (by omega) ..
          obtain ⟨p, hp, hle, hplace, hrest⟩ := skipDelims_spec hd htail hlen
          simp only [hp]
          by_cases hnil : rest c (c :: l) = []
          · rw [← rest_self, hnil] at hrest
            rw [if_pos hrest.head]
            exact ⟨_, rfl, splitOutcome_last hnil⟩
          · have hsub : rest c (c :: l) <:+ l := by
              rw [rest_self]
              exact List.dropWhile_suffix _
            have hne : Function.update t.mem next 0 p ≠ 0 := by
              obtain ⟨b, r, hr⟩ := List.exists_cons_of_ne_nil hnil
              rw [← rest_self, hr] at hrest
              rw [hrest.head]
              rintro rfl
              exact hl.2 (hsub.subset (hr ▸ List.mem_cons_self))
            rw [if_neg hne]
            rw [← rest_self] at hplace hrest
            obtain ⟨r, hr, hout⟩ := ih (n := n) (t := ⟨Function.update t.mem next 0,
                Function.update t.parv t.count (some p), t.count + 1⟩)
              (fun h0 => hl.2 (hsub.subset h0)) hrest (hsub.length_le.trans_lt hlen)
              (by dsimp only; omega)
            exact ⟨r, hr, hout.split hnil hle hplace⟩
        · rw [if_neg hcd]
          obtain ⟨r, hr, hout⟩ := ih hl.2 hmem.tail hlen hlimit
          exact ⟨r, hr, hout.cons hcd hc (Nat.succ_pos n)⟩

theorem splitMessage_spec {message : ℕ} (parv : ℕ → Option ℕ) (hd : delim ≠ 0) (hl : 0 ∉ l)
    (hmem : HoldsAt mem message (l ++ [0])) (hfuel : l.length < fuel) :
    ∃ r, splitMessage delim (n + 1) message mem parv fuel = some r ∧
      r.1.Shows (cut delim n l) ∧ (∀ i, r.1.count ≤ i → r.1.parv i = parv i) ∧
      (∀ a, message + l.length ≤ a → r.1.mem a = mem a) ∧
      (r.2 = true ↔ CutShort delim n l) := by
  obtain ⟨r, hr, hout⟩ := splitLoop_spec (t := ⟨mem, Function.update parv 0 (some message), 1⟩)
    hd hl hmem hfuel (Nat.add_comm n 1)
  obtain ⟨w, ws, hcut, hw, hcount, hws⟩ := hout.strings
  have hfirst : r.1.parv 0 = some message := by
    rw [hout.kept 0 (.inl Nat.zero_lt_one)]
    simp
  dsimp only at hcount
  refine ⟨r, hr, ⟨?_, fun i hi => ?_⟩, fun i hi => ?_, hout.above, hout.short⟩
  · rw [hcut, hcount, List.length_cons]
    omega
  · simp only [hcut] at hi ⊢
    cases i with
    | zero => exact ⟨message, hfirst, hw⟩
    | succ i =>
      obtain ⟨p, hp, hpw⟩ := hws i (Nat.lt_of_succ_lt_succ hi)
      refine ⟨p, ?_, hpw⟩
      rwa [Nat.add_comm] at hp
  · exact (hout.kept i (.inr hi)).trans (Function.update_of_ne (by omega) ..)

end Loop

/-- For every message, every delimiter but NUL and every size, `str_tokenize_generic` stores the
parts of the message between runs of the delimiter. When there are at least `size` of them the last
string is all that is left after `size - 1` parts. No entry from the count on is written. -/
theorem strTokenizeGeneric_spec {delim : UInt8} {size message fuel : ℕ} {s : CString}
    {mem : ℕ → UInt8} (parv : ℕ → Option ℕ) (hd : delim ≠ 0) (hsize : 1 ≤ size)
    (hmem : HoldsAt mem message (s.bytes ++ [0])) (hfuel : s.length < fuel) :
    ∃ t, strTokenizeGeneric delim size (some message) mem parv fuel = some t ∧
      1 ≤ t.count ∧ t.count ≤ size ∧ (∀ i, t.count ≤ i → t.parv i = parv i) ∧
      t.Shows (if (parts delim s.bytes).length < size then parts delim s.bytes
        else (parts delim s.bytes).take (size - 1) ++ [(rest delim)^[size - 1] s.bytes]) := by
  obtain ⟨n, rfl⟩ := Nat.exists_eq_add_of_le' hsize
  obtain ⟨r, hr, hshows, hkept, -⟩ := splitMessage_spec (n := n) parv hd s.noNul hmem hfuel
  refine ⟨r.1, ?_, ?_, ?_, hkept, ?_⟩
  · rw [strTokenizeGeneric, hr]
    rfl
  · exact hshows.1 ▸ length_cut_pos
  · exact hshows.1 ▸ length_cut_le
  · rw [cut_eq] at hshows
    exact hshows

/-- Two entries for the three parts of `"a  b c "`. -/
theorem strTokenizeGeneric_two :
    ∃ t, strTokenizeGeneric 32 2 (some 0) (fun i => [97, 32, 32, 98, 32, 99, 32, 0].getD i 0)
        (fun _ => none) 8 = some t ∧ t.Shows [[97], [98, 32, 99, 32]] := by
  have hdelim : (32 : UInt8) ≠ 0 := by decide
  have hsize : 1 ≤ 2 := by decide
  obtain ⟨t, ht, -, -, -, hshows⟩ := strTokenizeGeneric_spec
    (s := ⟨[97, 32, 32, 98, 32, 99, 32], by decide⟩) (fun _ => none) hdelim hsize
    (holdsAt_getD _ fun _ => 0) (Nat.lt_succ_self 7)
  exact ⟨t, ht, hshows⟩

end JailFs
