import Mathlib.Data.List.Basic
import Mathlib.Data.Nat.Notation

/-!
# Stores into an array, with its bounds

An array is the list of its cells. A load, a store or a move of a block that is not inside the
array has no result. What a store or a move does is stated for an array that is written as the
parts before, under and after the cells concerned.
-/

universe u

namespace Buffer

variable {α : Type u} {l m d r : List α} {a b : α}

def store (buf : List α) (i : ℕ) (a : α) : Option (List α) :=
  if i < buf.length then some (buf.set i a) else none

/-- `memmove(buf + dst, buf + src, n)`. -/
def memmove (buf : List α) (dst src n : ℕ) : Option (List α) :=
  if dst + n ≤ buf.length ∧ src + n ≤ buf.length then
    some (buf.take dst ++ (buf.drop src).take n ++ buf.drop (dst + n))
  else none

theorem length_store {buf buf' : List α} {i : ℕ} (h : store buf i a = some buf') :
    buf'.length = buf.length := by
  rw [store] at h
  split_ifs at h with hi
  cases h
  exact List.length_set

theorem length_memmove {buf buf' : List α} {dst src n : ℕ}
    (h : memmove buf dst src n = some buf') : buf'.length = buf.length := by
  rw [memmove] at h
  split_ifs at h with hn
  cases h
  simp only [List.length_append, List.length_take, List.length_drop]
  omega

theorem store_append (l r : List α) (a b : α) :
    store (l ++ a :: r) l.length b = some (l ++ b :: r) := by
  rw [store, if_pos (by simp), List.set_append_right _ _ (Nat.le_refl _), Nat.sub_self,
    List.set_cons_zero]

theorem memmove_up (l m r : List α) (a : α) :
    ∃ b, memmove (l ++ (m ++ a :: r)) (l.length + 1) l.length m.length =
      some (l ++ b :: (m ++ r)) := by
  obtain ⟨b, rest, hb⟩ : ∃ b rest, m ++ a :: r = b :: rest :=
    List.exists_cons_of_ne_nil (by simp)
  refine ⟨b, ?_⟩
  have hlen : l.length + 1 + m.length ≤ (l ++ (m ++ a :: r)).length := by
    simp only [List.length_append, List.length_cons]
    omega
  have hfst : (l ++ (m ++ a :: r)).take (l.length + 1) = l ++ [b] := by
    rw [hb, List.take_length_add_append, List.take_succ_cons, List.take_zero]
  have hmid : ((l ++ (m ++ a :: r)).drop l.length).take m.length = m := by
    rw [List.drop_left, List.take_left]
  have hlast : (l ++ (m ++ a :: r)).drop (l.length + 1 + m.length) = r := by
    rw [Nat.add_assoc, List.drop_length_add_append, Nat.add_comm 1, List.drop_length_add_append]
    rfl
  rw [memmove, if_pos ⟨hlen, by omega⟩, hfst, hmid, hlast, List.append_assoc, List.append_assoc]
  rfl

/-- A block moves down over the cells before it; the cells that it leaves keep what they held. -/
theorem memmove_down (l d m r : List α) :
    memmove (l ++ (d ++ (m ++ r))) l.length (l.length + d.length) m.length =
      some (l ++ (m ++ (d ++ (m ++ r)).drop m.length)) := by
  have hlen : l.length + d.length + m.length ≤ (l ++ (d ++ (m ++ r))).length := by
    simp only [List.length_append]
    omega
  rw [memmove, if_pos ⟨by omega, hlen⟩, List.take_left, List.drop_length_add_append,
    List.drop_left, List.take_left, List.drop_length_add_append, List.append_assoc]

end Buffer
