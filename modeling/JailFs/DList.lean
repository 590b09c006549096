import Mathlib.Data.List.Nodup
import Mathlib.Logic.Function.Basic

/-!
# Doubly linked sequences

`next` and `prev` are the two link fields of a store of nodes. `Follows step p l q` says that the
chain of `step` from the pointer `p` passes through the nodes `l` and then points to `q`. A `Seg`
is a sequence that both fields describe; `seg_iff_follows` says so. Insertion and removal of a node
at any place are one rule each, `Seg.insert` and `Seg.remove`.
-/

universe u

namespace DList

variable {α : Type u}

/-- The chain from `p` passes through `l` and ends with the pointer `q`. -/
def Follows (step : α → Option α) : Option α → List α → Option α → Prop
  | p, [], q => p = q
  | p, a :: l, q => p = some a ∧ Follows step (step a) l q

/-- The nodes `l` are linked both ways, between the pointers `p` before and `q` after them. -/
def Seg (next prev : α → Option α) : Option α → List α → Option α → Prop
  | _, [], _ => True
  | p, a :: l, q => prev a = p ∧ next a = l.head?.or q ∧ Seg next prev (some a) l q

/-- `f` with the value at `a`, if there is such a node, replaced. -/
def setAt [DecidableEq α] (f : α → Option α) (a v : Option α) : α → Option α :=
  match a with
  | none => f
  | some a => Function.update f a v

section Follows

variable {step : α → Option α} {p q r : Option α} {l l' : List α}

theorem follows_append :
    Follows step p (l ++ l') r ↔ ∃ q, Follows step p l q ∧ Follows step q l' r := by
  induction l generalizing p with
  | nil => simp [Follows]
  | cons a l ih => simp [Follows, ih, and_assoc]

theorem Follows.start (h : Follows step p l q) : p = l.head?.or q := by
  cases l with
  | nil => exact h
  | cons a l => exact h.1

/-- The pointer after the nodes `l` of a chain leads to the rest of it. -/
theorem Follows.after (h : Follows step p (l ++ l') none) :
    (match l.getLast? with
      | some a => step a
      | none => p) = l'.head? := by
  rcases List.eq_nil_or_concat l with rfl | ⟨l, a, rfl⟩
  · exact (Follows.start h).trans Option.or_none
  · rw [List.concat_eq_append, List.append_assoc, follows_append] at h
    obtain ⟨q, -, -, hrest⟩ := h
    rw [List.concat_eq_append, List.getLast?_concat]
    exact (Follows.start hrest).trans Option.or_none

theorem Follows.congr {step' : α → Option α} (h : Follows step p l q)
    (hsame : ∀ a ∈ l, step' a = step a) : Follows step' p l q := by
  induction l generalizing p with
  | nil => exact h
  | cons a l ih =>
    refine ⟨h.1, ?_⟩
    rw [hsame a List.mem_cons_self]
    exact ih h.2 fun b hb => hsame b (List.mem_cons_of_mem a hb)

/-- A chain that comes to an end passes through no node twice. -/
theorem Follows.unique (h : Follows step p l none) (h' : Follows step p l' none) : l = l' := by
  induction l generalizing p l' with
  | nil =>
    obtain rfl : p = none := h
    cases l' with
    | nil => rfl
    | cons a l' => cases h'.1
  | cons a l ih =>
    obtain ⟨rfl, hl⟩ := h
    cases l' with
    | nil => cases h'
    | cons b l' =>
      obtain ⟨hb, hl'⟩ := h'
      cases hb
      rw [ih hl hl']

end Follows

section Seg

variable {next prev next' prev' : α → Option α} {p q : Option α} {l l' : List α} {a m : α}

theorem seg_append : Seg next prev p (l ++ l') q ↔
    Seg next prev p l (l'.head?.or q) ∧ Seg next prev (l.getLast?.or p) l' q := by
  induction l generalizing p with
  | nil => simp [Seg]
  | cons a l ih =>
    have hnext : (l ++ l').head?.or q = l.head?.or (l'.head?.or q) := by
      rw [List.head?_append, Option.or_assoc]
    have hlast : (a :: l).getLast?.or p = l.getLast?.or (some a) := by
      rw [List.getLast?_cons]
      cases l.getLast? <;> rfl
    simp only [List.cons_append, Seg, ih, hnext, hlast, and_assoc]

theorem seg_insert_iff : Seg next prev p (l ++ m :: l') q ↔
    Seg next prev p l (some m) ∧ prev m = l.getLast?.or p ∧ next m = l'.head?.or q ∧
      Seg next prev (some m) l' q := by
  rw [seg_append]
  rfl

theorem ne_getLast? (hd : l.Disjoint l') : ∀ b ∈ l', l.getLast? ≠ some b :=
  fun _ hb h => hd (List.mem_of_getLast? h) hb

theorem ne_head? (hd : l.Disjoint l') : ∀ b ∈ l, l'.head? ≠ some b :=
  fun _ hb h => hd hb (List.mem_of_head? h)

theorem Seg.congr (h : Seg next prev p l q) (hnext : ∀ a ∈ l, next' a = next a)
    (hprev : ∀ a ∈ l, prev' a = prev a) : Seg next' prev' p l q := by
  induction l generalizing p with
  | nil => trivial
  | cons a l ih =>
    refine ⟨(hprev a List.mem_cons_self).trans h.1, (hnext a List.mem_cons_self).trans h.2.1, ?_⟩
    exact ih h.2.2 (fun b hb => hnext b (List.mem_cons_of_mem a hb))
      fun b hb => hprev b (List.mem_cons_of_mem a hb)

/-- A sequence is linked both ways exactly if it can be followed both ways. -/
theorem seg_iff_follows : Seg next prev p l q ↔
    Follows next (l.head?.or q) l q ∧ Follows prev (l.getLast?.or p) l.reverse p := by
  induction l generalizing p with
  | nil => simp [Seg, Follows]
  | cons a l ih =>
    have hlast : (a :: l).getLast?.or p = l.getLast?.or (some a) := by
      rw [List.getLast?_cons]
      cases l.getLast? <;> rfl
    rw [Seg, ih, hlast, List.reverse_cons, follows_append]
    constructor
    · rintro ⟨hprev, hnext, hforth, hback⟩
      refine ⟨⟨rfl, hnext ▸ hforth⟩, some a, hback, rfl, ?_⟩
      rw [hprev]
      rfl
    · rintro ⟨⟨-, hforth⟩, r, hback, hr, hprev⟩
      subst hr
      have hnext : next a = l.head?.or q := by
        cases l with
        | nil => exact hforth
        | cons b l => exact hforth.1
      exact ⟨hprev, hnext, hnext ▸ hforth, hback⟩

end Seg

section Update

variable [DecidableEq α] {next prev : α → Option α} {p q v : Option α} {l l' : List α} {a m : α}

theorem setAt_of_ne {f : α → Option α} (hq : q ≠ some a) : setAt f q v a = f a := by
  cases q with
  | none => rfl
  | some b => exact Function.update_of_ne (fun heq => hq (congrArg some heq.symm)) _ _

theorem setAt_of_not_mem {f : α → Option α} (hl : ∀ b ∈ l, q ≠ some b) (ha : a ∈ l) :
    setAt f q v a = f a := setAt_of_ne (hl a ha)

theorem Follows.skip {b : α} {step : α → Option α} (h : Follows step p (l ++ a :: b :: l') none)
    (hn : (l ++ a :: b :: l').Nodup) :
    Follows (Function.update step a (step b)) p (l ++ a :: l') none := by
  rw [List.nodup_append, List.nodup_cons, List.mem_cons, not_or] at hn
  rw [follows_append] at h ⊢
  obtain ⟨q, hl, rfl, -, hl'⟩ := h
  refine ⟨some a, hl.congr fun c hc => ?_, rfl, ?_⟩
  · exact Function.update_of_ne (hn.2.2 c hc a List.mem_cons_self) _ _
  · rw [Function.update_self]
    exact hl'.congr fun c hc => Function.update_of_ne (ne_of_mem_of_not_mem hc hn.2.1.1.2) _ _

theorem Seg.setLast (h : Seg next prev p l q) (hl : l.Nodup) :
    Seg (setAt next l.getLast? v) prev p l v := by
  rcases List.eq_nil_or_concat l with rfl | ⟨l, a, rfl⟩
  · trivial
  · rw [List.concat_eq_append, List.nodup_append] at hl
    rw [List.concat_eq_append, List.getLast?_concat] at *
    rw [seg_append] at h ⊢
    refine ⟨h.1.congr ?_ fun _ _ => rfl, h.2.1, Function.update_self _ _ _, trivial⟩
    intro b hb
    exact Function.update_of_ne (hl.2.2 b hb a List.mem_cons_self) _ _

theorem Seg.setFirst (h : Seg next prev p l q) (hl : l.Nodup) :
    Seg next (setAt prev l.head? v) v l q := by
  cases l with
  | nil => trivial
  | cons a l =>
    refine ⟨Function.update_self _ _ _, h.2.1, h.2.2.congr (fun _ _ => rfl) ?_⟩
    intro b hb
    exact Function.update_of_ne (ne_of_mem_of_not_mem hb (List.nodup_cons.mp hl).1) _ _

theorem Seg.splice {x y : Option α} (h : Seg next prev p l q) (h' : Seg next prev v l' none)
    (hn : (l ++ l').Nodup) :
    Seg (setAt next l.getLast? x) (setAt prev l'.head? y) p l x ∧
      Seg (setAt next l.getLast? x) (setAt prev l'.head? y) y l' none := by
  obtain ⟨hl, hl', hne⟩ := List.nodup_append.mp hn
  have hd : l.Disjoint l' := fun b hb hb' => hne b hb b hb' rfl
  constructor
  · exact (h.setLast hl).congr (fun _ _ => rfl) fun b hb => setAt_of_not_mem (ne_head? hd) hb
  · exact (h'.setFirst hl').congr (fun b hb => setAt_of_not_mem (ne_getLast? hd) hb) fun _ _ => rfl

theorem Seg.insert (h : Seg next prev none (l ++ l') none) (hn : (l ++ l').Nodup)
    (hm : m ∉ l ++ l') :
    Seg (Function.update (setAt next l.getLast? (some m)) m l'.head?)
      (Function.update (setAt prev l'.head? (some m)) m l.getLast?) none (l ++ m :: l') none := by
  obtain ⟨hl, hl'⟩ := seg_append.mp h
  obtain ⟨hleft, hright⟩ := Seg.splice hl hl' hn
  have hne (b : α) (hb : b ∈ l ++ l') : b ≠ m := ne_of_mem_of_not_mem hb hm
  rw [seg_insert_iff]
  refine ⟨hleft.congr ?_ ?_, by simp, by simp, hright.congr ?_ ?_⟩
  · exact fun b hb => Function.update_of_ne (hne b (List.mem_append_left _ hb)) _ _
  · exact fun b hb => Function.update_of_ne (hne b (List.mem_append_left _ hb)) _ _
  · exact fun b hb => Function.update_of_ne (hne b (List.mem_append_right _ hb)) _ _
  · exact fun b hb => Function.update_of_ne (hne b (List.mem_append_right _ hb)) _ _

theorem Seg.remove (h : Seg next prev none (l ++ m :: l') none) (hn : (l ++ m :: l').Nodup) :
    Seg (setAt next (prev m) (next m)) (setAt prev (next m) (prev m)) none (l ++ l') none := by
  rw [seg_insert_iff] at h
  obtain ⟨hl, hprev, hnext, hl'⟩ := h
  rw [Option.or_none] at hprev hnext
  have hn' : (l ++ l').Nodup := by
    rw [List.nodup_middle] at hn
    exact (List.nodup_cons.mp hn).2
  rw [seg_append, Option.or_none, Option.or_none, hprev, hnext]
  exact Seg.splice hl hl' hn'

end Update

end DList
