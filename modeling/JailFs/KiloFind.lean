import JailFs.KiloPage
import Mathlib.Data.Int.ModEq
import Mathlib.Tactic.Ring

/-!
# The search of the screen editor

The search goes round in the rows, from the one after the last match on, and stops at the first
that has the query in what is shown of it. `Nearest` says so of its result.
-/

namespace JailFs

/-- The `k`-th row after a row, in a direction. -/
def rowAfter (n : ℕ) (current findNext : ℤ) (k : ℕ) : ℕ := ((current + findNext * k) % n).toNat

def matchIn (rows : List (List UInt8)) (query : List UInt8) (i : ℕ) : Option ℕ :=
  strstr (shown (lineAt rows i)).render query

/-- The first match among the next `fuel` rows. -/
def Nearest (rows : List (List UInt8)) (query : List UInt8) (findNext : ℤ) (fuel : ℕ)
    (current : ℤ) : Option (ℤ × ℕ) → Prop
  | none => ∀ k < fuel, matchIn rows query (rowAfter rows.length current findNext (k + 1)) = none
  | some (i, offset) => ∃ k < fuel, i = rowAfter rows.length current findNext (k + 1) ∧
      matchIn rows query (rowAfter rows.length current findNext (k + 1)) = some offset ∧
      ∀ j < k, matchIn rows query (rowAfter rows.length current findNext (j + 1)) = none

/-- Where a search leaves the cursor and the last match: on the nearest row with the query, or
where they were if no row has it. -/
inductive MatchFound (rows : List (List UInt8)) (query : List UInt8) (findNext current : ℤ)
    (e : EditorConfig) : EditorConfig → ℤ → Prop
  | none (hno : ∀ i < rows.length, matchIn rows query i = none) :
      MatchFound rows query findNext current e e current
  | some {e' : EditorConfig} {k offset : ℕ} (hk : k < rows.length)
      (hmatch : matchIn rows query (rowAfter rows.length current findNext (k + 1)) = some offset)
      (hnearest : ∀ j < k,
        matchIn rows query (rowAfter rows.length current findNext (j + 1)) = none)
      (hrow : e'.row = e.row)
      (hat : e'.screen.At (rowAfter rows.length current findNext (k + 1)) offset) :
      MatchFound rows query findNext current e e' (rowAfter rows.length current findNext (k + 1))

section Rows

variable {n : ℕ} {current findNext : ℤ}

theorem rowAfter_lt (current findNext : ℤ) (hn : 0 < n) (k : ℕ) :
    rowAfter n current findNext k < n := by
  have hpos : (0 : ℤ) < n := by omega
  have := Int.emod_lt_of_pos (current + findNext * k) hpos
  have := Int.emod_nonneg (current + findNext * k) hpos.ne'
  unfold rowAfter
  omega

theorem cast_rowAfter (hn : 0 < n) (k : ℕ) :
    (rowAfter n current findNext k : ℤ) = (current + findNext * k) % n :=
  Int.toNat_of_nonneg (Int.emod_nonneg _ (by omega))

theorem rowAfter_one (hn : 0 < n) (hlo : -1 ≤ current) (hhi : current < n)
    (hdir : findNext = 1 ∨ findNext = -1) (hstart : current = -1 → findNext = 1) :
    (if current + findNext = -1 then (n : ℤ) - 1
      else if current + findNext = n then 0 else current + findNext) =
      rowAfter n current findNext 1 := by
  rw [cast_rowAfter hn, Nat.cast_one, mul_one]
  split_ifs with hbelow habove
  · rw [hbelow, Int.neg_emod_eq_sub_emod, Int.emod_eq_of_lt (by omega) (by omega)]
  · rw [habove, Int.emod_self]
  · exact (Int.emod_eq_of_lt (by omega) (by omega)).symm

theorem rowAfter_succ (hn : 0 < n) (k : ℕ) :
    rowAfter n (rowAfter n current findNext 1) findNext k =
      rowAfter n current findNext (k + 1) := by
  have hcast : (rowAfter n (rowAfter n current findNext 1) findNext k : ℤ) =
      rowAfter n current findNext (k + 1) := by
    rw [cast_rowAfter hn, cast_rowAfter hn, cast_rowAfter hn, Int.emod_add_emod, Nat.cast_one,
      Nat.cast_add, Nat.cast_one]
    congr 1
    ring
  exact_mod_cast hcast

theorem exists_rowAfter (current : ℤ) (hdir : findNext = 1 ∨ findNext = -1) {i : ℕ} (hi : i < n) :
    ∃ k < n, rowAfter n current findNext (k + 1) = i := by
  have hn : 0 < n := by omega
  have hpos : (0 : ℤ) < n := by omega
  have hlt := Int.emod_lt_of_pos (findNext * (i - current) - 1) hpos
  have hk := Int.toNat_of_nonneg (Int.emod_nonneg (findNext * (i - current) - 1) hpos.ne')
  refine ⟨((findNext * (i - current) - 1) % n).toNat, by omega, ?_⟩
  have hmod : (current + findNext * ((findNext * (i - current) - 1) % n + 1)) ≡ i [ZMOD n] := by
    have hinner : (findNext * (i - current) - 1) % n + 1 ≡ findNext * (i - current) [ZMOD n] := by
      simpa only [sub_add_cancel] using (Int.mod_modEq (findNext * (i - current) - 1) n).add_right 1
    have hround : current + findNext * (findNext * ((i : ℤ) - current)) = i := by
      rcases hdir with rfl | rfl <;> ring
    calc current + findNext * ((findNext * (i - current) - 1) % n + 1)
      _ ≡ current + findNext * (findNext * (i - current)) [ZMOD n] :=
        (hinner.mul_left findNext).add_left current
      _ = i := hround
  have hcast : (rowAfter n current findNext
      (((findNext * (i - current) - 1) % n).toNat + 1) : ℤ) = i := by
    rw [cast_rowAfter hn, Nat.cast_succ, hk]
    exact Int.ModEq.eq hmod |>.trans (Int.emod_eq_of_lt (by omega) (by omega))
  exact_mod_cast hcast

end Rows

section Search

variable {e : EditorConfig} {rows : List (List UInt8)} {query : List UInt8} {r c : ℕ}

theorem searchLoop_spec (hrow : e.row = rows.map shown) (query : List UInt8) {findNext : ℤ}
    (hdir : findNext = 1 ∨ findNext = -1) (fuel : ℕ) {current : ℤ} (hlo : -1 ≤ current)
    (hhi : current < e.numrows) (hstart : current = -1 → findNext = 1)
    (hfuel : fuel ≤ rows.length) :
    ∃ result, searchLoop e query findNext fuel current = some result ∧
      Nearest rows query findNext fuel current result := by
  have hnum := numrows_eq hrow
  induction fuel generalizing current with
  | zero => exact ⟨none, rfl, fun _ h => absurd h (Nat.not_lt_zero _)⟩
  | succ fuel ih =>
    have hn : 0 < rows.length := by omega
    have hlt := rowAfter_lt current findNext hn 1
    rw [searchLoop, hnum, rowAfter_one hn hlo (hnum ▸ hhi) hdir hstart, rowAt_eq hrow hlt]
    dsimp only [Option.bind_eq_bind, Option.bind_some]
    cases hmatch : strstr (shown (lineAt rows (rowAfter rows.length current findNext 1))).render
      query with
    | some offset =>
      exact ⟨_, rfl, 0, Nat.succ_pos fuel, rfl, hmatch, fun _ h => absurd h (Nat.not_lt_zero _)⟩
    | none =>
      obtain ⟨result, hloop, hnear⟩ : ∃ result,
          searchLoop e query findNext fuel (rowAfter rows.length current findNext 1) =
            some result ∧
          Nearest rows query findNext fuel (rowAfter rows.length current findNext 1) result :=
        ih (by omega) (by omega) (by omega) (by omega)
      refine ⟨result, hloop, ?_⟩
      cases result with
      | none =>
        intro k hk
        cases k with
        | zero => exact hmatch
        | succ k =>
          have := hnear k (by omega)
          rwa [rowAfter_succ hn] at this
      | some found =>
        obtain ⟨i, offset⟩ := found
        obtain ⟨k, hk, rfl, hfound, hbefore⟩ := hnear
        rw [rowAfter_succ hn] at hfound
        refine ⟨k + 1, by omega, by rw [rowAfter_succ hn], hfound, ?_⟩
        intro j hj
        cases j with
        | zero => exact hmatch
        | succ j =>
          have := hbefore j (by omega)
          rwa [rowAfter_succ hn] at this

theorem showMatch_at (hat : e.screen.At r c) (i offset : ℕ) :
    (showMatch e i offset).screen.At i offset := by
  unfold showMatch
  dsimp only
  split_ifs <;> simp only [EditorConfig.at_iff] at hat ⊢ <;> omega

@[simp] theorem showMatch_row (e : EditorConfig) (i : ℤ) (offset : ℕ) :
    (showMatch e i offset).row = e.row := by
  unfold showMatch
  dsimp only
  split_ifs <;> rfl

@[simp] theorem restoreCursor_showMatch (e : EditorConfig) (f : FindState) (i : ℤ) (offset : ℕ) :
    restoreCursor (showMatch e i offset) f = restoreCursor e f := by
  unfold showMatch
  dsimp only
  split_ifs <;> rfl

/-- A search from the last match on, or from the start of the file, ends on the nearest match, or
there is none. -/
theorem findSearch_spec (hrow : e.row = rows.map shown) (f : FindState) (hlo : -1 ≤ f.lastMatch)
    (hhi : f.lastMatch < e.numrows) {findNext : ℤ}
    (hdir : findNext = 0 ∨ findNext = 1 ∨ findNext = -1) :
    ∃ result, findSearch e f findNext = some
      (match result with
      | some (i, offset) => (showMatch e i offset, { f with lastMatch := i })
      | none => (e, f)) ∧
    ((if f.lastMatch = -1 then 1 else findNext) ≠ 0 →
      Nearest rows f.query (if f.lastMatch = -1 then 1 else findNext) rows.length f.lastMatch
        result) ∧
    ((if f.lastMatch = -1 then 1 else findNext) = 0 → result = none) := by
  unfold findSearch
  dsimp only
  by_cases hgo : (if f.lastMatch = -1 then 1 else findNext) ≠ 0
  · have hdir' : (if f.lastMatch = -1 then 1 else findNext) = 1 ∨
        (if f.lastMatch = -1 then 1 else findNext) = -1 := by
      split_ifs at hgo ⊢ <;> omega
    obtain ⟨result, hloop, hresult⟩ := searchLoop_spec hrow f.query hdir' rows.length hlo hhi
      (fun h => if_pos h) le_rfl
    have hlen : e.row.length = rows.length := by rw [hrow, List.length_map]
    refine ⟨result, ?_, fun _ => hresult, fun h => absurd h hgo⟩
    rw [if_pos hgo, hlen, hloop]
    dsimp only [Option.bind_eq_bind, Option.bind_some]
    rcases result with - | ⟨i, offset⟩ <;> rfl
  · rw [if_neg hgo]
    exact ⟨none, rfl, fun h => absurd h hgo, fun _ => rfl⟩

theorem findSearch_found (hrow : e.row = rows.map shown) (hat : e.screen.At r c) (f : FindState)
    (hlo : -1 ≤ f.lastMatch) (hhi : f.lastMatch < e.numrows) {findNext : ℤ}
    (hdir : findNext = 0 ∨ findNext = 1 ∨ findNext = -1)
    (hgo : (if f.lastMatch = -1 then 1 else findNext) ≠ 0) :
    ∃ e' i, findSearch e f findNext = some (e', { f with lastMatch := i }) ∧
      MatchFound rows f.query (if f.lastMatch = -1 then 1 else findNext) f.lastMatch e e' i := by
  obtain ⟨result, hsearch, hnear, -⟩ := findSearch_spec hrow f hlo hhi hdir
  cases result with
  | none =>
    refine ⟨e, f.lastMatch, hsearch, .none fun i hi => ?_⟩
    have hdir' : (if f.lastMatch = -1 then 1 else findNext) = 1 ∨
        (if f.lastMatch = -1 then 1 else findNext) = -1 := by
      split_ifs at hgo ⊢ <;> omega
    obtain ⟨k, hk, rfl⟩ := exists_rowAfter f.lastMatch hdir' hi
    exact hnear hgo k hk
  | some found =>
    obtain ⟨i, offset⟩ := found
    obtain ⟨k, hk, rfl, hmatch, hnearest⟩ := hnear hgo
    exact ⟨_, _, hsearch, .some hk hmatch hnearest (showMatch_row e _ offset)
      (showMatch_at hat _ offset)⟩

theorem findSearch_keeps (hrow : e.row = rows.map shown) (hat : e.screen.At r c) (f : FindState)
    (hlo : -1 ≤ f.lastMatch) (hhi : f.lastMatch < e.numrows) {findNext : ℤ}
    (hdir : findNext = 0 ∨ findNext = 1 ∨ findNext = -1) :
    ∃ e' f', findSearch e f findNext = some (e', f') ∧ e'.row = e.row ∧
      restoreCursor e' f' = restoreCursor e f ∧ (∃ r c, e'.screen.At r c) ∧
      -1 ≤ f'.lastMatch ∧ f'.lastMatch < e.numrows := by
  obtain ⟨result, hsearch, hnear, hstill⟩ := findSearch_spec hrow f hlo hhi hdir
  cases result with
  | none => exact ⟨e, f, hsearch, rfl, rfl, ⟨r, c, hat⟩, hlo, hhi⟩
  | some found =>
    obtain ⟨i, offset⟩ := found
    have hgo : (if f.lastMatch = -1 then 1 else findNext) ≠ 0 := fun hzero => by
      cases hstill hzero
    obtain ⟨k, hk, rfl, -, -⟩ := hnear hgo
    have hlt := rowAfter_lt f.lastMatch (if f.lastMatch = -1 then 1 else findNext)
      (Nat.zero_lt_of_lt hk) (k + 1)
    refine ⟨_, _, hsearch, showMatch_row e _ offset, restoreCursor_showMatch e f _ offset,
      ⟨_, offset, showMatch_at hat _ offset⟩, ?_, ?_⟩
    · dsimp only
      omega
    · rw [numrows_eq hrow]
      dsimp only
      omega

end Search

section Keys

/-- What a key does to the query; a changed query is searched for from the start of the file. -/
def FindState.typed (f : FindState) : KiloKey → FindState
  | .delKey => { f with query := f.query.dropLast, lastMatch := -1 }
  | .byte c =>
    if c = CTRL_H ∨ c = BACKSPACE then { f with query := f.query.dropLast, lastMatch := -1 }
    else if isprint (KiloKey.byte c).code = some true ∧ f.query.length < KILO_QUERY_LEN then
      { f with query := f.query ++ [c], lastMatch := -1 }
    else f
  | _ => f

def KiloKey.findNext : KiloKey → ℤ
  | .arrowRight | .arrowDown => 1
  | .arrowLeft | .arrowUp => -1
  | _ => 0

/-- The keys that get to `isprint`, which has no answer for them. -/
def KiloKey.Soft (key : KiloKey) : Prop :=
  key = .homeKey ∨ key = .endKey ∨ key = .pageUp ∨ key = .pageDown ∨
    ∃ c, key = .byte c ∧ isprint key.code = none

/-- The keys that a search goes on after. -/
structure KiloKey.Searches (key : KiloKey) : Prop where
  notEsc : key ≠ .byte ESC
  notEnter : key ≠ .byte ENTER
  notSoft : ¬ key.Soft

theorem KiloKey.findNext_cases (key : KiloKey) :
    key.findNext = 0 ∨ key.findNext = 1 ∨ key.findNext = -1 := by
  cases key <;> simp [findNext]

theorem FindState.typed_lastMatch (f : FindState) (key : KiloKey) :
    (f.typed key).lastMatch = -1 ∨ (f.typed key).lastMatch = f.lastMatch := by
  cases key with
  | byte c =>
    unfold typed
    dsimp only
    split_ifs <;> simp
  | _ => simp [typed]

@[simp] theorem restoreCursor_typed (e : EditorConfig) (f : FindState) (key : KiloKey) :
    restoreCursor e (f.typed key) = restoreCursor e f := by
  cases key with
  | byte c =>
    unfold FindState.typed
    dsimp only
    split_ifs <;> rfl
  | _ => rfl

theorem findKey_eq (e : EditorConfig) (f : FindState) {key : KiloKey} (h : key.Searches) :
    findKey e f key =
      (findSearch e (f.typed key) key.findNext).map fun r => (r.1, some r.2) := by
  obtain ⟨hesc, henter, hsoft⟩ := h
  cases key with
  | byte c =>
    have hesc' : c ≠ ESC := fun h => hesc (h ▸ rfl)
    have henter' : c ≠ ENTER := fun h => henter (h ▸ rfl)
    rw [findKey, FindState.typed, if_neg hesc', if_neg henter']
    cases hprint : isprint (KiloKey.byte c).code with
    | none => exact absurd (by simp [KiloKey.Soft, hprint]) hsoft
    | some printable =>
      cases printable
      · simp only [Option.some.injEq, Bool.false_eq_true, false_and, if_false]
        split_ifs <;> rfl
      · simp only [true_and]
        split_ifs <;> rfl
  | homeKey => exact absurd (Or.inl rfl) hsoft
  | endKey => exact absurd (Or.inr (Or.inl rfl)) hsoft
  | pageUp => exact absurd (Or.inr (Or.inr (Or.inl rfl))) hsoft
  | pageDown => exact absurd (Or.inr (Or.inr (Or.inr (Or.inl rfl)))) hsoft
  | _ => rfl

/-- A key for which `isprint` has no answer is none of those that `editorFind` has cases for. -/
theorem findKey_soft (e : EditorConfig) (f : FindState) {key : KiloKey} (h : key.Soft) :
    findKey e f key = none := by
  rcases h with rfl | rfl | rfl | rfl | ⟨c, rfl, hprint⟩
  · rfl
  · rfl
  · rfl
  · rfl
  · have hother {d : UInt8} (hd : isprint (KiloKey.byte d).code ≠ none) : c ≠ d :=
      fun heq => hd (heq ▸ hprint)
    have hrub : ¬ (c = CTRL_H ∨ c = BACKSPACE) :=
      not_or.mpr ⟨hother (by decide), hother (by decide)⟩
    rw [findKey, if_neg hrub, if_neg (hother (by decide)), if_neg (hother (by decide)), hprint]

end Keys

end JailFs
