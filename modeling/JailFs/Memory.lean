import Mathlib.Algebra.Group.Nat.Defs
import Mathlib.Data.List.Basic
import Mathlib.Data.Nat.Notation

/-!
# Bytes in memory

A memory is a function from offsets to bytes, and `HoldsAt mem p bytes` says that it holds a list
of bytes from an offset on. Little-endian words and NUL-terminated strings are read from a memory
and written as lists; what was written is read back.
-/

namespace Memory

variable {mem : ℕ → UInt8} {p : ℕ} {l r : List UInt8}

def HoldsAt (mem : ℕ → UInt8) (p : ℕ) (l : List UInt8) : Prop :=
  ∀ k (h : k < l.length), mem (p + k) = l[k]

theorem HoldsAt.left (h : HoldsAt mem p (l ++ r)) : HoldsAt mem p l := by
  intro k hk
  rw [h k (by rw [List.length_append]; omega), List.getElem_append_left hk]

theorem HoldsAt.right (h : HoldsAt mem p (l ++ r)) : HoldsAt mem (p + l.length) r := by
  intro k hk
  have hall := h (l.length + k) (by rw [List.length_append]; omega)
  rw [← Nat.add_assoc, List.getElem_append_right (by omega)] at hall
  rw [hall]
  congr 1
  omega

theorem HoldsAt.head {b : UInt8} (h : HoldsAt mem p (b :: l)) : mem p = b := h 0 (by simp)

theorem HoldsAt.tail {b : UInt8} (h : HoldsAt mem p (b :: l)) : HoldsAt mem (p + 1) l :=
  HoldsAt.right (l := [b]) h

/-- The first byte of a memory that holds a list, or the byte that follows when it is empty. -/
theorem HoldsAt.headD {q : ℕ} {last : UInt8} (h : HoldsAt mem p l)
    (hend : p + l.length = q) (hlast : mem q = last) : mem p = l.headD last := by
  cases l with
  | nil =>
    rw [List.length_nil, Nat.add_zero] at hend
    rw [hend, hlast]
    rfl
  | cons b l => exact h.head

/-- Only the bytes that it holds matter. -/
theorem HoldsAt.congr {mem' : ℕ → UInt8} (h : HoldsAt mem p l)
    (hsame : ∀ a, p ≤ a → a < p + l.length → mem' a = mem a) : HoldsAt mem' p l := by
  intro k hk
  rw [hsame _ (Nat.le_add_right p k) (Nat.add_lt_add_left hk p)]
  exact h k hk

theorem HoldsAt.cons {b : UInt8} (hb : mem p = b) (h : HoldsAt mem (p + 1) l) :
    HoldsAt mem p (b :: l) := by
  intro k hk
  cases k with
  | zero => exact hb
  | succ k =>
    rw [← Nat.add_assoc, Nat.add_right_comm]
    exact h k (Nat.lt_of_succ_lt_succ hk)

theorem HoldsAt.append (hl : HoldsAt mem p l) (hr : HoldsAt mem (p + l.length) r) :
    HoldsAt mem p (l ++ r) := by
  induction l generalizing p with
  | nil => exact hr
  | cons b l ih =>
    refine .cons hl.head (ih hl.tail ?_)
    rwa [List.length_cons, Nat.add_comm l.length, ← Nat.add_assoc] at hr

/-- A list of bytes followed by whatever the memory holds next. -/
theorem holdsAt_getD (l : List UInt8) (rest : ℕ → UInt8) :
    HoldsAt (fun i => l.getD i (rest i)) 0 l := by
  intro k hk
  simp only [Nat.zero_add, List.getD_eq_getElem?_getD, List.getElem?_eq_getElem hk,
    Option.getD_some]

section Words

def encode32 (x : UInt32) : List UInt8 :=
  [UInt8.ofNat x.toNat, UInt8.ofNat (x.toNat / 2 ^ 8), UInt8.ofNat (x.toNat / 2 ^ 16),
    UInt8.ofNat (x.toNat / 2 ^ 24)]

def decode32 (mem : ℕ → UInt8) (p : ℕ) : UInt32 :=
  UInt32.ofNat ((mem p).toNat + 2 ^ 8 * (mem (p + 1)).toNat + 2 ^ 16 * (mem (p + 2)).toNat +
    2 ^ 24 * (mem (p + 3)).toNat)

@[simp] theorem length_encode32 (x : UInt32) : (encode32 x).length = 4 := rfl

theorem decode32_eq {x : UInt32} (h : HoldsAt mem p (encode32 x)) : decode32 mem p = x := by
  have h0 : mem p = UInt8.ofNat x.toNat := h 0 (by simp)
  have h1 : mem (p + 1) = UInt8.ofNat (x.toNat / 2 ^ 8) := h 1 (by simp)
  have h2 : mem (p + 2) = UInt8.ofNat (x.toNat / 2 ^ 16) := h 2 (by simp)
  have h3 : mem (p + 3) = UInt8.ofNat (x.toNat / 2 ^ 24) := h 3 (by simp)
  have hx : x.toNat < 2 ^ 32 := UInt32.toNat_lt x
  rw [decode32, h0, h1, h2, h3]
  simp only [UInt8.toNat_ofNat']
  rw [← UInt32.toNat_inj, UInt32.toNat_ofNat']
  omega

end Words

section Strings

/-- The bytes from `p` up to the first NUL, at most `fuel` of them. -/
def cstring (mem : ℕ → UInt8) : ℕ → ℕ → List UInt8
  | 0, _ => []
  | fuel + 1, p => if mem p = 0 then [] else mem p :: cstring mem fuel (p + 1)

theorem cstring_noNul (mem : ℕ → UInt8) (fuel p : ℕ) : 0 ∉ cstring mem fuel p := by
  induction fuel generalizing p with
  | zero => exact List.not_mem_nil
  | succ fuel ih =>
    unfold cstring
    split_ifs with h
    · exact List.not_mem_nil
    · rw [List.mem_cons, not_or]
      exact ⟨fun h0 => h h0.symm, ih (p + 1)⟩

/-- A string is read back from its bytes and the NUL after them. -/
theorem cstring_eq {fuel : ℕ} (hno : 0 ∉ l) (h : HoldsAt mem p (l ++ [0]))
    (hfuel : l.length < fuel) : cstring mem fuel p = l := by
  induction l generalizing p fuel with
  | nil =>
    obtain ⟨fuel, rfl⟩ : ∃ n, fuel = n + 1 := ⟨fuel - 1, by omega⟩
    rw [cstring, if_pos h.head]
  | cons b l ih =>
    obtain ⟨fuel, rfl⟩ : ∃ n, fuel = n + 1 := ⟨fuel - 1, by omega⟩
    rw [List.mem_cons, not_or] at hno
    have hb : mem p = b := h.head
    rw [cstring, hb, if_neg fun h0 => hno.1 h0.symm]
    rw [List.length_cons] at hfuel
    rw [ih hno.2 h.tail (by omega)]

end Strings

end Memory
