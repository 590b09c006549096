import Mathlib.Data.List.TakeWhile
import Mathlib.Data.Nat.Notation

/-!
# C strings and the C library calls on them

A `CString` is the list of the bytes before the terminating NUL. `strtok` is one call of the C
function: it skips delimiters, returns the bytes up to the next one, and leaves the rest for the
following call. `snprintfPath` is the `"%s/%s"` into a path buffer by which the file-system code
builds the name of a directory entry.
-/

namespace JailFs

/-- The bytes of a string, up to the NUL that ends it. -/
@[ext] structure CString where
  bytes : List UInt8
  noNul : 0 ∉ bytes
  deriving DecidableEq, Repr

namespace CString

def length (s : CString) : ℕ := s.bytes.length

/-- A string constant. -/
def ofChars (l : List Char) : CString := ⟨(l.map Char.toUInt8).filter (· ≠ 0), by simp⟩

def ofSubset (s : CString) (l : List UInt8) (h : l ⊆ s.bytes) : CString :=
  ⟨l, fun h0 => s.noNul (h h0)⟩

def take (s : CString) (n : ℕ) : CString := s.ofSubset (s.bytes.take n) (List.take_subset n _)

def append (s t : CString) : CString :=
  ⟨s.bytes ++ t.bytes, fun h => (List.mem_append.mp h).elim s.noNul t.noNul⟩

instance : Append CString := ⟨append⟩

def slash : CString := ⟨[47], by decide⟩

@[simp] theorem bytes_append (s t : CString) : (s ++ t).bytes = s.bytes ++ t.bytes := rfl

@[simp] theorem bytes_take (s : CString) (n : ℕ) : (s.take n).bytes = s.bytes.take n := rfl

@[simp] theorem bytes_slash : slash.bytes = [47] := rfl

@[simp] theorem length_append (s t : CString) : (s ++ t).length = s.length + t.length :=
  List.length_append

theorem length_bytes (s : CString) : s.bytes.length = s.length := rfl

theorem length_bytes_nul (s : CString) : (s.bytes ++ [0]).length = s.length + 1 := by
  rw [List.length_append, List.length_singleton, length_bytes]

theorem take_of_length_le {s : CString} {n : ℕ} (h : s.length ≤ n) : s.take n = s :=
  CString.ext (List.take_of_length_le h)

theorem length_take_le (s : CString) (n : ℕ) : (s.take n).length ≤ n := List.length_take_le n _

end CString

/-- The bytes of a text constant. -/
def bytesOf (s : String) : List UInt8 := s.toList.map Char.toUInt8

/-- `'.'`, which starts the name of a hidden file and the extension of any file. -/
def dot : UInt8 := 46

/-- `':'`, which separates the directories of `path.pkg`. -/
def colon : UInt8 := 58

/-- The size of every path buffer, and the longest path the kernel takes, NUL included. -/
def PATH_MAX : ℕ := 4096

/-- `dir/name` in full. -/
def joinPath (dir name : CString) : CString := dir ++ CString.slash ++ name

/-- `snprintf(buf, PATH_MAX - 1, "%s/%s", dir, name)`: at most `PATH_MAX - 2` bytes and a NUL. -/
def snprintfPath (dir name : CString) : CString := (joinPath dir name).take (PATH_MAX - 2)

theorem length_joinPath (dir name : CString) :
    (joinPath dir name).length = dir.length + 1 + name.length := by
  simp only [joinPath, CString.length_append]
  rfl

theorem snprintfPath_eq_joinPath_iff (dir name : CString) :
    snprintfPath dir name = joinPath dir name ↔ (joinPath dir name).length ≤ PATH_MAX - 2 := by
  constructor
  · intro h
    rw [← h]
    exact CString.length_take_le _ _
  · exact CString.take_of_length_le

theorem joinPath_inj {dir dir' name name' : CString} (hn : 47 ∉ name.bytes)
    (hn' : 47 ∉ name'.bytes) (h : joinPath dir name = joinPath dir' name') :
    dir = dir' ∧ name = name' := by
  have hb : dir.bytes ++ 47 :: name.bytes = dir'.bytes ++ 47 :: name'.bytes := by
    simpa [joinPath] using congrArg CString.bytes h
  have hlen : name.bytes.length = name'.bytes.length := by
    rcases List.append_eq_append_iff.mp hb with ⟨l, h₁, h₂⟩ | ⟨l, h₁, h₂⟩
    · cases l with
      | nil => simpa using congrArg List.length h₂
      | cons c l =>
        rw [List.cons_append, List.cons.injEq] at h₂
        exact absurd (by rw [h₂.2]; simp) hn
    · cases l with
      | nil => simpa using (congrArg List.length h₂).symm
      | cons c l =>
        rw [List.cons_append, List.cons.injEq] at h₂
        exact absurd (by rw [h₂.2]; simp) hn'
  have hsplit := List.append_inj' hb (by simp [hlen])
  refine ⟨CString.ext hsplit.1, CString.ext ?_⟩
  exact (List.cons.inj hsplit.2).2

/-- One call of `strtok`: the token, and what the next call starts from. The delimiter that ends
the token is overwritten by a NUL and skipped. -/
def strtok (delim : UInt8 → Bool) (s : CString) : Option (CString × CString) :=
  let start := s.bytes.dropWhile delim
  if start = [] then none
  else some
    (s.ofSubset (start.takeWhile fun c => !delim c)
      ((List.takeWhile_sublist _).trans (List.dropWhile_sublist _)).subset,
     s.ofSubset ((start.dropWhile fun c => !delim c).drop 1)
      (((List.drop_sublist 1 _).trans (List.dropWhile_sublist _)).trans
        (List.dropWhile_sublist _)).subset)

/-- `for (p = strtok(s, delim); p; p = strtok(NULL, delim))`, for at most `fuel` tokens. -/
def strtokLoop (delim : UInt8 → Bool) : ℕ → CString → List CString
  | 0, _ => []
  | fuel + 1, s =>
    match strtok delim s with
    | none => []
    | some (tok, rest) => tok :: strtokLoop delim fuel rest

/-- Every token the loop sees. Each call consumes a byte, so `s.length` calls are enough. -/
def tokens (delim : UInt8 → Bool) (s : CString) : List CString := strtokLoop delim s.length s

section Strtok

variable {delim : UInt8 → Bool} {s s' tok rest : CString}

theorem strtok_rest_length_lt (h : strtok delim s = some (tok, rest)) :
    rest.length < s.length := by
  simp only [strtok] at h
  split_ifs at h with hs
  cases h
  change ((List.dropWhile (fun c => !delim c) (s.bytes.dropWhile delim)).drop 1).length <
    s.bytes.length
  have hpos : 0 < (s.bytes.dropWhile delim).length := List.length_pos_iff.mpr hs
  have h₁ := (List.dropWhile_sublist (l := s.bytes) delim).length_le
  have h₂ := (List.dropWhile_sublist (l := s.bytes.dropWhile delim) fun c => !delim c).length_le
  rw [List.length_drop]
  omega

theorem strtok_token_no_delim (h : strtok delim s = some (tok, rest)) :
    ∀ c ∈ tok.bytes, delim c = false := by
  simp only [strtok] at h
  split_ifs at h with hs
  cases h
  intro c hc
  have hmem := List.mem_takeWhile_imp hc
  simpa using hmem

/-- The loop of `tokens` ends because `strtok` answers `NULL`, not for want of fuel. -/
theorem strtokLoop_stable {fuel : ℕ} (hfuel : s.length ≤ fuel) :
    strtokLoop delim (fuel + 1) s = strtokLoop delim fuel s := by
  induction fuel generalizing s with
  | zero =>
    have hs : s.bytes = [] := List.length_eq_zero_iff.mp (Nat.le_zero.mp hfuel)
    simp [strtokLoop, strtok, hs]
  | succ fuel ih =>
    cases hk : strtok delim s with
    | none => simp [strtokLoop, hk]
    | some r =>
      obtain ⟨tok, rest⟩ := r
      have hlt := strtok_rest_length_lt hk
      rw [strtokLoop, hk, strtokLoop, hk]
      exact congrArg (tok :: ·) (ih (by omega))

theorem strtokLoop_eq {fuel : ℕ} (hfuel : s.length ≤ fuel) :
    strtokLoop delim fuel s = tokens delim s := by
  induction fuel, hfuel using Nat.le_induction with
  | base => rfl
  | succ fuel hle ih => exact (strtokLoop_stable hle).trans ih

theorem tokens_of_none (h : strtok delim s = none) : tokens delim s = [] := by
  rw [← strtokLoop_eq (Nat.le_succ _), strtokLoop, h]

theorem tokens_of_some (h : strtok delim s = some (tok, rest)) :
    tokens delim s = tok :: tokens delim rest := by
  rw [← strtokLoop_eq (Nat.le_succ _), strtokLoop, h,
    ← strtokLoop_eq (strtok_rest_length_lt h).le]

theorem tokens_no_delim (h : tok ∈ tokens delim s) : ∀ c ∈ tok.bytes, delim c = false := by
  induction hn : s.length using Nat.strong_induction_on generalizing s with
  | _ n ih =>
    cases hk : strtok delim s with
    | none =>
      rw [tokens_of_none hk] at h
      cases h
    | some r =>
      obtain ⟨first, rest⟩ := r
      rw [tokens_of_some hk] at h
      rcases List.mem_cons.mp h with rfl | hmem
      · exact strtok_token_no_delim hk
      · exact ih rest.length (hn ▸ strtok_rest_length_lt hk) hmem rfl

theorem strtok_token_ne_nil (h : strtok delim s = some (tok, rest)) : tok.bytes ≠ [] := by
  simp only [strtok] at h
  split_ifs at h with hs
  cases h
  change (s.bytes.dropWhile delim).takeWhile (fun c => !delim c) ≠ []
  obtain ⟨c, tail, hc⟩ := List.exists_cons_of_ne_nil hs
  have hstop := List.head?_dropWhile_not delim s.bytes
  rw [hc] at hstop ⊢
  have hdelim : delim c = false := by simpa using hstop
  rw [List.takeWhile_cons_of_pos (by simp [hdelim])]
  exact List.cons_ne_nil _ _

theorem strtok_length (h : strtok delim s = some (tok, rest)) :
    tok.length + rest.length ≤ s.length ∧
      (rest.bytes ≠ [] → tok.length + 1 + rest.length ≤ s.length) := by
  simp only [strtok] at h
  split_ifs at h with hs
  cases h
  let start := s.bytes.dropWhile delim
  have hle : start.length ≤ s.bytes.length := (List.dropWhile_sublist delim).length_le
  have hsplit := congrArg List.length
    (List.takeWhile_append_dropWhile (p := fun c => !delim c) (l := start))
  rw [List.length_append] at hsplit
  have hrest := List.length_drop (i := 1) (l := start.dropWhile fun c => !delim c)
  change (start.takeWhile fun c => !delim c).length +
      ((start.dropWhile fun c => !delim c).drop 1).length ≤ s.bytes.length ∧
    ((start.dropWhile fun c => !delim c).drop 1 ≠ [] →
      (start.takeWhile fun c => !delim c).length + 1 +
        ((start.dropWhile fun c => !delim c).drop 1).length ≤ s.bytes.length)
  refine ⟨by omega, fun hne => ?_⟩
  have hpos := List.length_pos_iff.mpr hne
  omega

theorem strtok_eq_self (h : strtok delim s = some (tok, rest)) (hlen : s.length ≤ tok.length) :
    tok = s := by
  simp only [strtok] at h
  split_ifs at h with hs
  cases h
  apply CString.ext
  exact ((List.takeWhile_sublist _).trans (List.dropWhile_sublist _)).eq_of_length_le hlen

theorem strtok_eq_none_iff :
    strtok delim s = none ↔ ∀ c ∈ s.bytes, delim c := by
  rw [← List.dropWhile_eq_nil_iff, strtok]
  split_ifs with h <;> simp [h]

theorem strtok_congr (h : s.bytes.dropWhile delim = s'.bytes.dropWhile delim) :
    strtok delim s = strtok delim s' := by
  simp only [strtok, CString.ofSubset, h]

theorem strtok_of_start {tail : List UInt8} (hs : s.bytes = tok.bytes ++ tail)
    (hne : tok.bytes ≠ []) (htok : ∀ c ∈ tok.bytes, delim c = false)
    (htail : ∀ c ∈ tail.head?, delim c) :
    ∃ rest, strtok delim s = some (tok, rest) ∧ rest.bytes = tail.drop 1 := by
  have hstart : s.bytes.dropWhile delim = tok.bytes ++ tail := by
    obtain ⟨c, r, hc⟩ := List.exists_cons_of_ne_nil hne
    have hcd : delim c = false := htok c (by rw [hc]; exact List.mem_cons_self)
    rw [hs, hc, List.cons_append, List.dropWhile_cons_of_neg (by simp [hcd])]
  have hstop : (tail.takeWhile fun c => !delim c) = [] ∧
      (tail.dropWhile fun c => !delim c) = tail := by
    cases tail with
    | nil => exact ⟨rfl, rfl⟩
    | cons d tail =>
      have hd : delim d := htail d rfl
      simp [hd]
  have hall : ∀ c ∈ tok.bytes, (!delim c) = true := fun c hc => by simp [htok c hc]
  have hne' : ¬ s.bytes.dropWhile delim = [] := by
    rw [hstart]
    simp [hne]
  simp only [strtok, if_neg hne']
  refine ⟨_, congrArg some (Prod.ext (CString.ext ?_) rfl), ?_⟩
  · change (s.bytes.dropWhile delim).takeWhile (fun c => !delim c) = tok.bytes
    rw [hstart, List.takeWhile_append_of_pos hall, hstop.1, List.append_nil]
  · change ((s.bytes.dropWhile delim).dropWhile fun c => !delim c).drop 1 = tail.drop 1
    rw [hstart, List.dropWhile_append_of_pos hall, hstop.2]

theorem strtok_of_noDelim (h : ∀ c ∈ s.bytes, delim c = false) :
    (strtok delim s).map Prod.fst = if s.bytes = [] then none else some s := by
  split_ifs with hs
  · have hnone : strtok delim s = none := strtok_eq_none_iff.mpr (by simp [hs])
    rw [hnone]
    rfl
  · obtain ⟨rest, hrest, _⟩ :=
      strtok_of_start (List.append_nil s.bytes).symm hs h (by simp)
    rw [hrest]
    rfl

end Strtok

end JailFs
