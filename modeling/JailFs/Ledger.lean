import Mathlib.Data.List.Basic
import Mathlib.Data.List.Nodup
import Mathlib.Logic.Function.Basic

/-!
# Memory whose blocks are accounted for

Blocks of any kind at addresses of any kind. `Blocks.Ledger m l` says that the list `l` names the
blocks that are allocated in `m`, each once. Allocation and release keep the books: what is given
back leaves the list, and a release of what the list names never faults, so that a program whose
pointers are all in the books frees nothing twice.
-/

universe u v

/-- The blocks that are allocated, each at its address. -/
abbrev Blocks (α : Type u) (β : Type v) := α → Option β

namespace Blocks

variable {α : Type u} {β : Type v}

structure Ledger (m : Blocks α β) (l : List α) : Prop where
  nodup : l.Nodup
  mem_iff : ∀ a, a ∈ l ↔ (m a).isSome = true

section Ledger

variable {m : Blocks α β} {l l' : List α} {a : α}

theorem Ledger.empty (α : Type u) (β : Type v) : Ledger (fun _ => none : Blocks α β) [] where
  nodup := List.nodup_nil
  mem_iff a := by simp

theorem Ledger.perm (h : Ledger m l) (hp : l.Perm l') : Ledger m l' where
  nodup := hp.nodup_iff.mp h.nodup
  mem_iff a := by rw [← hp.mem_iff, h.mem_iff]

theorem Ledger.not_mem (h : Ledger m l) (ha : m a = none) : a ∉ l := by
  rw [h.mem_iff, ha]
  exact Bool.false_ne_true

theorem Ledger.live (h : Ledger m l) (ha : a ∈ l) : ∃ b, m a = some b :=
  Option.isSome_iff_exists.mp ((h.mem_iff a).mp ha)

end Ledger

variable [DecidableEq α] {m m' : Blocks α β} {a a' : α} {b : β} {l l' : List α}

def alloc (m : Blocks α β) (a : α) (b : β) : Blocks α β := Function.update m a (some b)

/-- Gives a block back. An address at which nothing is allocated is a fault. -/
def free (m : Blocks α β) (a : α) : Option (Blocks α β) :=
  if (m a).isSome then some (Function.update m a none) else none

/-- Gives back one block after another. -/
def freeAll (m : Blocks α β) (l : List α) : Option (Blocks α β) := l.foldlM free m

@[simp] theorem alloc_self : m.alloc a b a = some b := Function.update_self ..

theorem alloc_of_ne (h : a' ≠ a) : m.alloc a b a' = m a' := Function.update_of_ne h ..

theorem free_some (h : (m a).isSome = true) : m.free a = some (Function.update m a none) := if_pos h

theorem freeAll_append : m.freeAll (l ++ l') = (m.freeAll l).bind fun m => m.freeAll l' := by
  rw [freeAll, List.foldlM_append]
  rfl

theorem Ledger.alloc (h : Ledger m l) (ha : m a = none) (b : β) :
    Ledger (m.alloc a b) (a :: l) where
  nodup := List.nodup_cons.mpr ⟨h.not_mem ha, h.nodup⟩
  mem_iff x := by
    by_cases hx : x = a
    · subst hx
      simp
    · rw [alloc_of_ne hx, ← h.mem_iff]
      simp [hx]

theorem Ledger.free (h : Ledger m (a :: l)) :
    ∃ m', m.free a = some m' ∧ Ledger m' l ∧ ∀ x, x ≠ a → m' x = m x := by
  have hlive : (m a).isSome = true := (h.mem_iff a).mp List.mem_cons_self
  obtain ⟨hnot, hnd⟩ := List.nodup_cons.mp h.nodup
  refine ⟨_, free_some hlive, ⟨hnd, fun x => ?_⟩, fun x hx => Function.update_of_ne hx ..⟩
  by_cases hx : x = a
  · subst hx
    simp [hnot]
  · rw [Function.update_of_ne hx, ← h.mem_iff]
    simp [hx]

/-- What the ledger names can be given back, and the rest stays as it is. -/
theorem Ledger.freeAll (h : Ledger m (l ++ l')) :
    ∃ m', m.freeAll l = some m' ∧ Ledger m' l' ∧ ∀ x, x ∉ l → m' x = m x := by
  induction l generalizing m with
  | nil => exact ⟨m, rfl, h, fun x _ => rfl⟩
  | cons a l ih =>
    obtain ⟨m₁, hfree, hled, hsame⟩ := Ledger.free h
    obtain ⟨m', hall, hled', hsame'⟩ := ih hled
    refine ⟨m', ?_, hled', fun x hx => ?_⟩
    · rw [Blocks.freeAll, List.foldlM_cons, hfree]
      exact hall
    · rw [List.mem_cons, not_or] at hx
      rw [hsame' x hx.2, hsame x hx.1]

end Blocks
