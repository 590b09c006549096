import Mathlib.Data.List.Basic
import Mathlib.Data.Nat.Notation

/-!
# A text with a cursor

A `Zipper` is a text that is being edited at one place: what is left of the cursor, nearest first,
and what is right of it. An editing command works on the two lists next to the cursor.
-/

universe u

structure Zipper (α : Type u) where
  left : List α
  right : List α
  deriving DecidableEq, Repr

namespace Zipper

variable {α : Type u} (z : Zipper α)

def empty : Zipper α := ⟨[], []⟩

/-- A text, with the cursor at its end. -/
def atEnd (text : List α) : Zipper α := ⟨text.reverse, []⟩

def text : List α := z.left.reverse ++ z.right

def insert (a : α) : Zipper α := ⟨a :: z.left, z.right⟩

def moveLeft : Zipper α → Zipper α
  | ⟨a :: left, right⟩ => ⟨left, a :: right⟩
  | ⟨[], right⟩ => ⟨[], right⟩

def moveRight : Zipper α → Zipper α
  | ⟨left, a :: right⟩ => ⟨a :: left, right⟩
  | ⟨left, []⟩ => ⟨left, []⟩

def moveHome : Zipper α := ⟨[], z.text⟩

def moveEnd : Zipper α := atEnd z.text

/-- Drop what is right of the cursor. -/
def delete : Zipper α := ⟨z.left, z.right.tail⟩

/-- Drop what is left of the cursor. -/
def backspace : Zipper α := ⟨z.left.tail, z.right⟩

/-- Drop the blanks left of the cursor, and then the word left of it. -/
def deleteWord (blank : α → Bool) : Zipper α :=
  ⟨(z.left.dropWhile blank).dropWhile (fun a => !blank a), z.right⟩

/-- Swap the two sides of the cursor, and step over the pair unless it is the end of the text. -/
def transpose : Zipper α → Zipper α
  | ⟨a :: left, b :: c :: right⟩ => ⟨a :: b :: left, c :: right⟩
  | ⟨a :: left, [b]⟩ => ⟨b :: left, [a]⟩
  | z => z

def killRight : Zipper α := ⟨z.left, []⟩

@[simp] theorem text_empty : (empty : Zipper α).text = [] := rfl

@[simp] theorem text_atEnd (text : List α) : (atEnd text).text = text := by
  rw [Zipper.text, atEnd, List.reverse_reverse, List.append_nil]

theorem length_text : z.text.length = z.left.length + z.right.length := by
  rw [text, List.length_append, List.length_reverse]

theorem mem_text {a : α} : a ∈ z.text ↔ a ∈ z.left ∨ a ∈ z.right := by
  rw [text, List.mem_append, List.mem_reverse]

@[simp] theorem text_moveLeft : z.moveLeft.text = z.text := by
  rcases z with ⟨_ | ⟨a, left⟩, right⟩
  · rfl
  · simp only [moveLeft, text, List.reverse_cons, List.append_assoc, List.singleton_append]

@[simp] theorem text_moveRight : z.moveRight.text = z.text := by
  rcases z with ⟨left, _ | ⟨a, right⟩⟩
  · rfl
  · simp only [moveRight, text, List.reverse_cons, List.append_assoc, List.singleton_append]

@[simp] theorem text_moveHome : z.moveHome.text = z.text := rfl

@[simp] theorem text_moveEnd : z.moveEnd.text = z.text := text_atEnd _

end Zipper
