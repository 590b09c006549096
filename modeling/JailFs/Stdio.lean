import Mathlib.Data.List.Basic
import Mathlib.Data.Nat.Notation
import Mathlib.Data.Int.Notation

/-!
# Files of the C library

## Reading with `fgets`

`fgets` takes at most `room` bytes, up to the newline that ends a line, and meets the end of the
file only when it looks for a byte that is not there. `reads` is what a loop
`do … fgets … while (!feof)` sees, one entry for each round. A file that ends with a newline has
one more round, whose buffer is empty. Text that ends at a line boundary is read in the same
pieces whatever follows it, which is how the lemmas below cut a file into parts.

## Writing with `fprintf`

A stream gathers what was handed to it. Which of the calls of `fprintf` fail is a parameter.
-/

namespace Stdio

/-- `'\n'` -/
def newline : UInt8 := 10

/-- What one call of `fgets` stores, what it leaves in the file, and whether it met the end. -/
structure FgetsResult where
  buf : List UInt8
  rest : List UInt8
  eof : Bool
  deriving DecidableEq, Repr

def fgets : ℕ → List UInt8 → FgetsResult
  | 0, content => ⟨[], content, false⟩
  | _ + 1, [] => ⟨[], [], true⟩
  | room + 1, c :: content =>
    if c = newline then ⟨[c], content, false⟩
    else
      let r := fgets room content
      ⟨c :: r.buf, r.rest, r.eof⟩

/-- `do fgets(buf, room + 1, fp); while (!feof(fp));`, for at most `fuel` rounds. -/
def readLoop (room : ℕ) : ℕ → List UInt8 → List (List UInt8)
  | 0, _ => []
  | fuel + 1, content =>
    let r := fgets room content
    r.buf :: if r.eof then [] else readLoop room fuel r.rest

/-- The buffer in every round. Each round but the last takes a byte of the file. -/
def reads (room : ℕ) (content : List UInt8) : List (List UInt8) :=
  readLoop room (content.length + 1) content

/-- Text that ends at a line boundary. -/
def WholeLines (a : List UInt8) : Prop := a = [] ∨ a.getLast? = some newline

/-- The rounds that read text which ends at a line boundary, when more text follows. -/
def pieces (room : ℕ) (a : List UInt8) : List (List UInt8) := (reads room a).dropLast

/-- A text from its lines; what follows the last newline is a line too. -/
def joinLines : List (List UInt8) → List UInt8
  | [] => []
  | [l] => l
  | l :: l' :: ls => l ++ newline :: joinLines (l' :: ls)

/-- An open file: what was handed to it, and how many calls of `fprintf` there were. -/
structure Stream where
  written : List UInt8
  calls : ℕ
  deriving DecidableEq

/-- A file that was just opened for writing. -/
def Stream.empty : Stream := ⟨[], 0⟩

/-- One call of `fprintf`; `ok` says which calls succeed. A failed one answers a negative number
and hands nothing over. -/
def fprintf (ok : ℕ → Bool) (out : Stream) (s : List UInt8) : Stream × ℤ :=
  if ok out.calls then (⟨out.written ++ s, out.calls + 1⟩, s.length)
  else (⟨out.written, out.calls + 1⟩, -1)

def fprintfAll (ok : ℕ → Bool) (out : Stream) : List (List UInt8) → Stream × ℤ
  | [] => (out, 0)
  | s :: ss =>
    let r := fprintf ok out s
    let rest := fprintfAll ok r.1 ss
    (rest.1, (if r.2 < 0 then 1 else 0) + rest.2)

variable {room : ℕ} {a b l content : List UInt8}

theorem fgets_append : (fgets room a).buf ++ (fgets room a).rest = a := by
  induction room generalizing a with
  | zero => rfl
  | succ room ih =>
    cases a with
    | nil => rfl
    | cons c a =>
      rw [fgets]
      split_ifs with hc
      · rfl
      · exact congrArg (c :: ·) ih

theorem fgets_length_le : (fgets room a).buf.length ≤ room := by
  induction room generalizing a with
  | zero => exact Nat.le_refl _
  | succ room ih =>
    cases a with
    | nil => exact Nat.zero_le _
    | cons c a =>
      rw [fgets]
      split_ifs with hc
      · exact Nat.succ_le_succ (Nat.zero_le _)
      · exact Nat.succ_le_succ ih

/-- A call that does not meet the end of the file is not changed by what is appended to it. -/
theorem fgets_append_right (h : (fgets room a).eof = false) (b : List UInt8) :
    fgets room (a ++ b) = ⟨(fgets room a).buf, (fgets room a).rest ++ b, false⟩ := by
  induction room generalizing a with
  | zero => rfl
  | succ room ih =>
    cases a with
    | nil => cases h
    | cons c a =>
      rw [List.cons_append, fgets, fgets]
      rw [fgets] at h
      split_ifs at h ⊢ with hc
      · rfl
      · rw [ih h]

theorem fgets_rest_length_lt (hroom : 0 < room) (h : (fgets room a).eof = false) :
    (fgets room a).rest.length < a.length := by
  cases room with
  | zero => cases hroom
  | succ room =>
    cases a with
    | nil => cases h
    | cons c a =>
      have hlen : ((fgets (room + 1) (c :: a)).buf ++ (fgets (room + 1) (c :: a)).rest).length =
          (c :: a).length := congrArg List.length fgets_append
      have hpos : 0 < (fgets (room + 1) (c :: a)).buf.length := by
        rw [fgets]
        split_ifs <;> exact Nat.succ_pos _
      rw [List.length_append] at hlen
      omega

theorem readLoop_succ (room fuel : ℕ) (content : List UInt8) :
    readLoop room (fuel + 1) content = (fgets room content).buf ::
      if (fgets room content).eof then [] else readLoop room fuel (fgets room content).rest := rfl

/-- The loop ends at the end of the file, not for want of fuel. -/
theorem readLoop_stable (hroom : 0 < room) {fuel : ℕ} (hfuel : content.length < fuel) :
    readLoop room (fuel + 1) content = readLoop room fuel content := by
  induction fuel generalizing content with
  | zero => omega
  | succ fuel ih =>
    rw [readLoop_succ room (fuel + 1), readLoop_succ room fuel content]
    cases he : (fgets room content).eof with
    | true => rfl
    | false =>
      have hlt := fgets_rest_length_lt hroom he
      rw [ih (by omega)]

theorem readLoop_eq_reads (hroom : 0 < room) {fuel : ℕ} (hfuel : content.length < fuel) :
    readLoop room fuel content = reads room content := by
  obtain ⟨n, rfl⟩ := Nat.exists_eq_add_of_le (Nat.succ_le_of_lt hfuel)
  clear hfuel
  induction n with
  | zero => rfl
  | succ n ih =>
    have hfuel : content.length < content.length + 1 + n := by omega
    rw [← ih, ← readLoop_stable hroom hfuel]
    rfl

theorem reads_eq (hroom : 0 < room) (content : List UInt8) :
    reads room content = (fgets room content).buf ::
      if (fgets room content).eof then [] else reads room (fgets room content).rest := by
  rw [reads, readLoop_succ]
  cases he : (fgets room content).eof with
  | true => rfl
  | false => rw [readLoop_eq_reads hroom (fgets_rest_length_lt hroom he)]

theorem reads_nil (hroom : 0 < room) : reads room [] = [[]] := by
  cases room with
  | zero => cases hroom
  | succ room => rfl

theorem length_le_of_mem_reads (h : l ∈ reads room content) : l.length ≤ room := by
  rw [reads] at h
  generalize content.length + 1 = fuel at h
  induction fuel generalizing content with
  | zero => cases h
  | succ fuel ih =>
    rw [readLoop] at h
    rcases List.mem_cons.mp h with rfl | hl
    · exact fgets_length_le
    · split_ifs at hl with he
      · cases hl
      · exact ih hl

section Lines

theorem wholeLines_nil : WholeLines [] := Or.inl rfl

theorem wholeLines_snoc (l : List UInt8) : WholeLines (l ++ [newline]) := Or.inr (by simp)

theorem WholeLines.append (ha : WholeLines a) (hb : WholeLines b) : WholeLines (a ++ b) := by
  rcases hb with rfl | hb
  · rwa [List.append_nil]
  · right
    rw [List.getLast?_append, hb]
    rfl

/-- Inside text that ends at a line boundary `fgets` does not meet the end of the file, and what
it leaves ends at a line boundary too. -/
theorem WholeLines.fgets (hroom : 0 < room) (ha : WholeLines a) (hne : a ≠ []) :
    (fgets room a).eof = false ∧ WholeLines (fgets room a).rest := by
  induction room generalizing a with
  | zero => cases hroom
  | succ room ih =>
    cases a with
    | nil => exact absurd rfl hne
    | cons c a =>
      have htail : a ≠ [] → WholeLines a := by
        intro hna
        rcases ha with ha | ha
        · cases ha
        · right
          rwa [List.getLast?_cons_of_ne_nil hna] at ha
      rw [Stdio.fgets]
      split_ifs with hc
      · refine ⟨rfl, ?_⟩
        by_cases hna : a = []
        · exact Or.inl hna
        · exact htail hna
      · have hna : a ≠ [] := by
          rintro rfl
          rcases ha with ha | ha
          · cases ha
          · exact hc (Option.some.inj ha)
        cases room with
        | zero => exact ⟨rfl, htail hna⟩
        | succ room => exact ih (Nat.succ_pos _) (htail hna) hna

/-- Text that ends at a line boundary is read in pieces of its own, whatever follows it. -/
theorem WholeLines.exists_pieces (hroom : 0 < room) (ha : WholeLines a) :
    ∃ ps, ∀ b, reads room (a ++ b) = ps ++ reads room b := by
  generalize hn : a.length = n
  induction n using Nat.strongRecOn generalizing a with
  | ind n ih =>
    by_cases hne : a = []
    · subst hne
      exact ⟨[], fun b => rfl⟩
    · obtain ⟨he, hrest⟩ := ha.fgets hroom hne
      have hlt := fgets_rest_length_lt hroom he
      obtain ⟨ps, hps⟩ := ih _ (by omega) hrest rfl
      refine ⟨(Stdio.fgets room a).buf :: ps, fun b => ?_⟩
      rw [reads_eq hroom, fgets_append_right he]
      exact congrArg (_ :: ·) (hps b)

theorem WholeLines.reads_append (hroom : 0 < room) (ha : WholeLines a) (b : List UInt8) :
    reads room (a ++ b) = pieces room a ++ reads room b := by
  obtain ⟨ps, hps⟩ := ha.exists_pieces hroom
  have hpieces : pieces room a = ps := by
    have hnil := hps []
    rw [List.append_nil, reads_nil hroom] at hnil
    rw [pieces, hnil, List.dropLast_concat]
  rw [hpieces, hps]

theorem WholeLines.reads_eq (hroom : 0 < room) (ha : WholeLines a) :
    reads room a = pieces room a ++ [[]] := by
  rw [← reads_nil hroom, ← ha.reads_append hroom, List.append_nil]

theorem WholeLines.pieces_append (hroom : 0 < room) (ha : WholeLines a) (hb : WholeLines b) :
    pieces room (a ++ b) = pieces room a ++ pieces room b := by
  have h := (ha.append hb).reads_eq hroom
  rw [ha.reads_append hroom, hb.reads_eq hroom, ← List.append_assoc] at h
  exact (List.append_cancel_right h).symm

theorem pieces_nil (hroom : 0 < room) : pieces room [] = [] := by
  rw [pieces, reads_nil hroom]
  rfl

theorem fgets_snoc_of_eof (h : (fgets room a).eof = true) :
    (fgets room a).buf = a ∧ fgets room (a ++ [newline]) = ⟨a ++ [newline], [], false⟩ := by
  induction room generalizing a with
  | zero => cases h
  | succ room ih =>
    cases a with
    | nil => exact ⟨rfl, rfl⟩
    | cons c a =>
      rw [Stdio.fgets] at h ⊢
      rw [List.cons_append, Stdio.fgets]
      split_ifs at h ⊢ with hc
      obtain ⟨hbuf, hnl⟩ := ih h
      exact ⟨congrArg (c :: ·) hbuf, by rw [hnl]⟩

theorem reads_snoc (hroom : 0 < room) (a : List UInt8) : ∃ ps last,
    reads room a = ps ++ [last] ∧ pieces room (a ++ [newline]) = ps ++ [last ++ [newline]] := by
  generalize hn : a.length = n
  induction n using Nat.strongRecOn generalizing a with
  | ind n ih =>
    cases he : (Stdio.fgets room a).eof with
    | true =>
      obtain ⟨hbuf, hnl⟩ := fgets_snoc_of_eof he
      refine ⟨[], a, ?_, ?_⟩
      · rw [Stdio.reads_eq hroom, he, hbuf]
        rfl
      · rw [pieces, Stdio.reads_eq hroom, hnl]
        simp only [Bool.false_eq_true, if_false]
        rw [reads_nil hroom]
        rfl
    | false =>
      have hlt := fgets_rest_length_lt hroom he
      obtain ⟨ps, last, hreads, hpieces⟩ := ih _ (by omega) (Stdio.fgets room a).rest rfl
      refine ⟨(Stdio.fgets room a).buf :: ps, last, ?_, ?_⟩
      · rw [Stdio.reads_eq hroom, he]
        exact congrArg (_ :: ·) hreads
      · have hwhole := (wholeLines_snoc a).reads_eq hroom
        have hrest := (wholeLines_snoc (Stdio.fgets room a).rest).reads_eq hroom
        rw [Stdio.reads_eq hroom, fgets_append_right he] at hwhole
        simp only [Bool.false_eq_true, if_false] at hwhole
        rw [hrest, hpieces, ← List.cons_append] at hwhole
        exact (List.append_cancel_right hwhole).symm

theorem fgets_line (hl : newline ∉ l) (hlen : l.length < room) (b : List UInt8) :
    fgets room (l ++ newline :: b) = ⟨l ++ [newline], b, false⟩ := by
  induction l generalizing room with
  | nil =>
    cases room with
    | zero => cases hlen
    | succ room => rfl
  | cons c l ih =>
    cases room with
    | zero => cases hlen
    | succ room =>
      rw [List.mem_cons, not_or] at hl
      rw [List.cons_append, Stdio.fgets, if_neg (Ne.symm hl.1),
        ih hl.2 (Nat.lt_of_succ_lt_succ hlen)]
      rfl

theorem fgets_full (hl : newline ∉ l) (b : List UInt8) :
    fgets l.length (l ++ b) = ⟨l, b, false⟩ := by
  induction l with
  | nil => rfl
  | cons c l ih =>
    rw [List.mem_cons, not_or] at hl
    rw [List.cons_append, List.length_cons, Stdio.fgets, if_neg (Ne.symm hl.1), ih hl.2]

theorem fgets_last (hl : newline ∉ l) (hlen : l.length < room) :
    fgets room l = ⟨l, [], true⟩ := by
  induction l generalizing room with
  | nil =>
    cases room with
    | zero => cases hlen
    | succ room => rfl
  | cons c l ih =>
    cases room with
    | zero => cases hlen
    | succ room =>
      rw [List.mem_cons, not_or] at hl
      rw [Stdio.fgets, if_neg (Ne.symm hl.1), ih hl.2 (Nat.lt_of_succ_lt_succ hlen)]

theorem pieces_line (hl : newline ∉ l) (hlen : l.length < room) :
    pieces room (l ++ [newline]) = [l ++ [newline]] := by
  have hroom : 0 < room := Nat.lt_of_le_of_lt (Nat.zero_le _) hlen
  rw [pieces, Stdio.reads_eq hroom, fgets_line hl hlen]
  simp only [Bool.false_eq_true, if_false]
  rw [reads_nil hroom]
  rfl

theorem pieces_full_line (hroom : 0 < room) (hl : newline ∉ l) (hlen : l.length = room) :
    pieces room (l ++ [newline]) = [l, [newline]] := by
  subst hlen
  have hnl : pieces l.length ([] ++ [newline]) = [[newline]] :=
    pieces_line List.not_mem_nil hroom
  rw [pieces, Stdio.reads_eq hroom, fgets_full hl]
  simp only [Bool.false_eq_true, if_false]
  have hwhole := (wholeLines_snoc []).reads_eq hroom
  rw [List.nil_append] at hwhole hnl
  rw [hwhole, hnl]
  rfl

theorem pieces_long_line (hl : newline ∉ l) (hlong : room < l.length)
    (hrest : l.length - room < room) :
    pieces room (l ++ [newline]) = [l.take room, l.drop room ++ [newline]] := by
  have hroom : 0 < room := by omega
  have htake : (l.take room).length = room := List.length_take_of_le (Nat.le_of_lt hlong)
  have hnl : newline ∉ l.take room := fun h => hl (List.mem_of_mem_take h)
  have hfull : fgets room (l ++ [newline]) =
      ⟨l.take room, l.drop room ++ [newline], false⟩ := by
    have h := fgets_full hnl (l.drop room ++ [newline])
    rwa [htake, ← List.append_assoc, List.take_append_drop] at h
  have hsplit := (wholeLines_snoc l).reads_eq hroom
  rw [Stdio.reads_eq hroom, hfull] at hsplit
  simp only [Bool.false_eq_true, if_false] at hsplit
  rw [(wholeLines_snoc _).reads_eq hroom, pieces_line (fun h => hl (List.mem_of_mem_drop h))
    (by rw [List.length_drop]; exact hrest), ← List.cons_append] at hsplit
  exact (List.append_cancel_right hsplit).symm

end Lines

section Writing

variable {ok : ℕ → Bool} {out : Stream} {s : List UInt8} {ss : List (List UInt8)}

theorem fprintf_calls : (fprintf ok out s).1.calls = out.calls + 1 := by
  unfold fprintf
  split_ifs <;> rfl

theorem fprintf_neg_iff : (fprintf ok out s).2 < 0 ↔ ok out.calls = false := by
  unfold fprintf
  split_ifs with h
  · simp [h]
  · simp [h]

theorem fprintf_written (h : ok out.calls = true) :
    (fprintf ok out s).1.written = out.written ++ s := by
  rw [fprintf, if_pos h]

theorem fprintfAll_calls : (fprintfAll ok out ss).1.calls = out.calls + ss.length := by
  induction ss generalizing out with
  | nil => rfl
  | cons s ss ih =>
    rw [fprintfAll, ih, fprintf_calls, List.length_cons]
    omega

theorem fprintfAll_nonneg : 0 ≤ (fprintfAll ok out ss).2 := by
  induction ss generalizing out with
  | nil => exact Int.le_refl 0
  | cons s ss ih =>
    have hrest : 0 ≤ (fprintfAll ok (fprintf ok out s).1 ss).2 := ih
    rw [fprintfAll]
    split_ifs <;> omega

theorem fprintfAll_written (h : ∀ i < ss.length, ok (out.calls + i) = true) :
    (fprintfAll ok out ss).1.written = out.written ++ ss.flatten := by
  induction ss generalizing out with
  | nil => simp [fprintfAll]
  | cons s ss ih =>
    rw [List.length_cons] at h
    have hfirst : ok out.calls = true := h 0 (by omega)
    have hrest : ∀ i < ss.length, ok ((fprintf ok out s).1.calls + i) = true := by
      intro i hi
      rw [fprintf_calls, Nat.add_assoc, Nat.add_comm 1 i]
      exact h (i + 1) (by omega)
    rw [fprintfAll, ih hrest, fprintf_written hfirst, List.flatten_cons, List.append_assoc]

end Writing

end Stdio
