import Mathlib.Data.List.TakeWhile
import Mathlib.Data.Nat.Notation
import Mathlib.Logic.Function.Iterate

/-!
# Splitting a list at runs of a delimiter

`words d l` are the nonempty parts of `l` between the delimiters `d`, and `parts d l` keeps what
stands before the first delimiter, even if that is empty. `cut d n l` splits `n` times at most, so
that its last string may have delimiters in it.
-/

namespace Splitting

variable {α : Type*} [DecidableEq α] {c d : α} {l : List α} {n : ℕ}

def words (d : α) (l : List α) : List (List α) := (l.splitOn d).filter (· ≠ [])

def parts (d : α) (l : List α) : List (List α) :=
  l.takeWhile (· ≠ d) :: words d (l.dropWhile (· ≠ d))

/-- What follows the first part and the run of delimiters after it. -/
def rest (d : α) (l : List α) : List α := (l.dropWhile (· ≠ d)).dropWhile (· = d)

def cut (d : α) : ℕ → List α → List (List α)
  | 0, l => [l]
  | n + 1, l => l.takeWhile (· ≠ d) :: if rest d l = [] then [] else cut d n (rest d l)

/-- Something is left to be split after `n` times. -/
def CutShort (d : α) : ℕ → List α → Prop
  | 0, l => l ≠ []
  | n + 1, l => rest d l ≠ [] ∧ CutShort d n (rest d l)

@[simp] theorem words_nil : words d [] = [] := rfl

@[simp] theorem words_cons_self : words d (d :: l) = words d l := by
  have h : (d :: l).splitOn d = [] :: l.splitOn d :=
    List.splitOn_append_cons_self_of_not_mem List.not_mem_nil l
  rw [words, h]
  rfl

/-- The first word of a list that does not start with a delimiter is its first part. -/
theorem words_cons_of_ne (h : c ≠ d) : words d (c :: l) = parts d (c :: l) := by
  have htake : d ∉ (c :: l).takeWhile (· ≠ d) := fun hd => by simpa using List.mem_takeWhile_imp hd
  have hne : (c :: l).takeWhile (· ≠ d) ≠ [] := by simp [h]
  have hsplit := List.takeWhile_append_dropWhile (p := (· ≠ d)) (l := c :: l)
  rw [parts]
  generalize (c :: l).takeWhile (· ≠ d) = w at *
  cases hdrop : (c :: l).dropWhile (· ≠ d) with
  | nil =>
    rw [hdrop, List.append_nil] at hsplit
    rw [← hsplit, words, List.splitOn_eq_singleton htake]
    simp [hne]
  | cons e r =>
    have he := List.head?_dropWhile_not (· ≠ d) (c :: l)
    rw [hdrop] at he
    obtain rfl : e = d := by simpa using he
    rw [hdrop] at hsplit
    rw [← hsplit, words, List.splitOn_append_cons_self_of_not_mem htake, words_cons_self]
    simp [hne, words]

theorem words_eq (d : α) (l : List α) :
    words d l = if l.dropWhile (· = d) = [] then [] else parts d (l.dropWhile (· = d)) := by
  induction l with
  | nil => rfl
  | cons c l ih =>
    by_cases hc : c = d
    · subst hc
      rw [words_cons_self, ih, List.dropWhile_cons_of_pos (by simp)]
    · rw [words_cons_of_ne hc, List.dropWhile_cons_of_neg (by simpa using hc), if_neg (by simp)]

theorem parts_eq (d : α) (l : List α) :
    parts d l = l.takeWhile (· ≠ d) :: if rest d l = [] then [] else parts d (rest d l) := by
  rw [parts, words_eq]
  rfl

theorem length_parts_pos : 0 < (parts d l).length := Nat.succ_pos _

/-- Fewer splits are needed than there may be. -/
theorem cut_of_lt (h : (parts d l).length ≤ n) : cut d n l = parts d l := by
  induction n generalizing l with
  | zero => exact absurd h (by have := length_parts_pos (d := d) (l := l); omega)
  | succ n ih =>
    rw [parts_eq] at h ⊢
    rw [cut]
    split_ifs at h ⊢ with hrest
    · rfl
    · rw [ih (Nat.le_of_succ_le_succ h)]

/-- The last string is what is left after `n` splits. -/
theorem cut_of_le (h : n < (parts d l).length) :
    cut d n l = (parts d l).take n ++ [(rest d)^[n] l] := by
  induction n generalizing l with
  | zero => rfl
  | succ n ih =>
    rw [parts_eq] at h ⊢
    rw [cut]
    split_ifs at h ⊢ with hrest
    · simp at h
    · rw [List.length_cons] at h
      rw [ih (Nat.lt_of_succ_lt_succ h), Function.iterate_succ_apply]
      rfl

theorem cut_eq (d : α) (n : ℕ) (l : List α) : cut d n l =
    if (parts d l).length < n + 1 then parts d l
    else (parts d l).take n ++ [(rest d)^[n] l] := by
  split_ifs with h
  · exact cut_of_lt (Nat.le_of_lt_succ h)
  · exact cut_of_le (by omega)

theorem length_cut_le : (cut d n l).length ≤ n + 1 := by
  rw [cut_eq]
  split_ifs with h
  · exact h.le
  · rw [List.length_append, List.length_take, List.length_singleton]
    omega

theorem length_cut_pos : 0 < (cut d n l).length := by cases n <;> exact Nat.succ_pos _

theorem cutShort_iff (h : 0 < n) : CutShort d n l ↔ n < (parts d l).length := by
  induction n generalizing l with
  | zero => exact absurd h (Nat.lt_irrefl 0)
  | succ n ih =>
    rw [CutShort, parts_eq]
    split_ifs with hrest
    · simp [hrest]
    · rw [List.length_cons, Nat.succ_lt_succ_iff]
      rcases Nat.eq_zero_or_pos n with rfl | hn
      · simp [CutShort, hrest, length_parts_pos]
      · simp [hrest, ih hn]

section Cons

theorem takeWhile_ne (h : c ≠ d) :
    (c :: l).takeWhile (· ≠ d) = c :: l.takeWhile (· ≠ d) := by simp [h]

theorem rest_of_ne (h : c ≠ d) : rest d (c :: l) = rest d l := by simp [rest, h]

theorem rest_self : rest d (d :: l) = l.dropWhile (· = d) := by simp [rest]

/-- A byte that is no delimiter only extends the first string. -/
theorem cut_cons_of_ne (h : c ≠ d) {w : List α} {ws : List (List α)} (hcut : cut d n l = w :: ws) :
    cut d n (c :: l) = (c :: w) :: ws := by
  cases n with
  | zero =>
    cases hcut
    rfl
  | succ n =>
    rw [cut] at hcut ⊢
    rw [takeWhile_ne h, rest_of_ne h, (List.cons.inj hcut).1, (List.cons.inj hcut).2]

theorem cutShort_cons_of_ne (h : c ≠ d) (hn : 0 < n) :
    CutShort d n (c :: l) ↔ CutShort d n l := by
  cases n with
  | zero => exact absurd hn (Nat.lt_irrefl 0)
  | succ n => rw [CutShort, CutShort, rest_of_ne h]

end Cons

end Splitting
