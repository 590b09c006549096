import JailFs.RedBlack
import Mathlib.Algebra.Group.Nat.Defs
import Mathlib.Data.Nat.Log

/-!
# The order of a linked tree, seen from a node

`toward d t` is the nodes of a tree in the order that goes to the side `d`: the order of the tree
for the right side, the reverse of it for the left. `ahead d c` is the part of it that is still to
come when the subtree in the context `c` is done. The depth of a tree bounds every path down; that
of a red-black tree is at most twice the logarithm of its size.
-/

universe u v

namespace LinkedTree

variable {P : Type u} {β : Type v} {d : Side} {t u l r : Tree P β} {a x : P} {b : β}
  {c : Ctx P β} {f : Frame P β}

def toward (d : Side) (t : Tree P β) : List P :=
  match d with
  | .left => t.addrs.reverse
  | .right => t.addrs

@[simp] theorem toward_nil : toward d (.nil : Tree P β) = [] := by cases d <;> rfl

@[simp] theorem toward_sided :
    toward d (.sided d u a b t) = toward d t ++ a :: toward d u := by
  cases d <;> simp [toward, Tree.sided]

theorem toward_sided_other :
    toward d (.sided d.other u a b t) = toward d u ++ a :: toward d t := by
  rw [Tree.sided_other, toward_sided]

/-- The nodes that come after the subtree, on the way to the side `d`. -/
def ahead (d : Side) : Ctx P β → List P
  | [] => []
  | f :: c => (if f.side = d then [] else f.addr :: toward d f.sibling) ++ ahead d c

/-- The nodes that come before it. -/
def behind (d : Side) : Ctx P β → List P
  | [] => []
  | f :: c => behind d c ++ if f.side = d then toward d f.sibling ++ [f.addr] else []

theorem toward_plug : toward d (plug c t) = behind d c ++ toward d t ++ ahead d c := by
  induction c generalizing t with
  | nil => simp [behind, ahead]
  | cons f c ih =>
    rw [plug_cons, ih, behind, ahead]
    rcases Side.eq_or_eq_other d f.side with hf | hf
    · rw [hf, toward_sided, if_pos rfl, if_pos rfl]
      simp only [List.append_assoc, List.cons_append, List.nil_append]
    · rw [hf, toward_sided_other, if_neg (by cases d <;> decide), if_neg (by cases d <;> decide)]
      simp only [List.append_assoc, List.append_nil, List.cons_append]

namespace Tree

def depth : Tree P β → ℕ
  | nil => 0
  | node l _ _ r => max l.depth r.depth + 1

theorem depth_child_lt (h : t ≠ nil) (d : Side) : (t.child d).depth < t.depth := by
  cases t with
  | nil => exact absurd rfl h
  | node l a b r => cases d <;> simp only [child, depth] <;> omega

end Tree

end LinkedTree

namespace RedBlack

open LinkedTree

variable {P : Type u} {β : Type v} {col : β → Color} {t : Tree P β} {n : ℕ}

/-- A path has at most as many red nodes as black ones, and one more below a red top. -/
theorem Balanced.depth_le (h : Balanced col t n) :
    t.depth ≤ 2 * n + if topColor col t = .red then 1 else 0 := by
  induction t generalizing n with
  | nil => exact Nat.zero_le _
  | node l a b r ihl ihr =>
    rw [Tree.depth, topColor]
    cases hb : col b with
    | red =>
      obtain ⟨htl, htr, hl, hr⟩ := (balanced_red (d := .left) hb).mp h
      have hdl := ihl hl
      have hdr := ihr hr
      rw [htl, if_neg (by decide)] at hdl
      rw [htr, if_neg (by decide)] at hdr
      rw [if_pos rfl]
      omega
    | black =>
      cases n with
      | zero => exact absurd h (not_balanced_zero (d := .left) hb)
      | succ n =>
        obtain ⟨hl, hr⟩ := (balanced_black (d := .left) hb).mp h
        have hdl := ihl hl
        have hdr := ihr hr
        split_ifs at hdl hdr <;> omega

theorem Balanced.two_pow_le (h : Balanced col t n) : 2 ^ n ≤ t.entries.length + 1 := by
  induction t generalizing n with
  | nil =>
    rw [balanced_nil] at h
    rw [h]
    exact Nat.le_add_left 1 _
  | node l a b r ihl ihr =>
    rw [Tree.entries, List.length_append, List.length_cons]
    cases hb : col b with
    | red =>
      obtain ⟨-, -, hl, -⟩ := (balanced_red (d := .left) hb).mp h
      have hsize := ihl hl
      omega
    | black =>
      cases n with
      | zero => exact absurd h (not_balanced_zero (d := .left) hb)
      | succ n =>
        obtain ⟨hl, hr⟩ := (balanced_black (d := .left) hb).mp h
        have hsl := ihl hl
        have hsr := ihr hr
        rw [Nat.pow_succ]
        omega

theorem IsRedBlack.depth_le (h : IsRedBlack col t) :
    t.depth ≤ 2 * Nat.log 2 (t.entries.length + 1) := by
  obtain ⟨htop, n, hbal⟩ := isRedBlack_iff.mp h
  have hdepth := hbal.depth_le
  rw [htop, if_neg (by decide)] at hdepth
  have hlog : n ≤ Nat.log 2 (t.entries.length + 1) :=
    Nat.le_log_of_pow_le (by decide) hbal.two_pow_le
  omega

end RedBlack
