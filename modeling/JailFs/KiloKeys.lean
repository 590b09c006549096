import JailFs.Kilo

/-!
# The keys of the screen editor

`editorReadKey` makes keys of the bytes of a terminal. A sequence that it does not know does not
end the loop: the bytes that follow are read as the rest of another one.
-/

namespace JailFs

/-- What one `read` of a byte from the terminal in raw mode gives. -/
inductive TtyRead
  | byte (c : UInt8)
  /-- No byte came for a tenth of a second. -/
  | timeout
  | error
  deriving DecidableEq, Repr

/-- What comes of `editorReadKey`, with the outcomes of `read` that are left. -/
inductive KeyRead
  | key (key : KiloKey) (rest : List TtyRead)
  /-- It waits for the next byte. -/
  | waits
  /-- It looks at a byte that no `read` has written. -/
  | fault
  deriving DecidableEq, Repr

/-- The sequences of two bytes after `ESC`. -/
def escLetter (a b : UInt8) : Option KiloKey :=
  if a = 91 then
    if b = 65 then some .arrowUp
    else if b = 66 then some .arrowDown
    else if b = 67 then some .arrowRight
    else if b = 68 then some .arrowLeft
    else if b = 72 then some .homeKey
    else if b = 70 then some .endKey
    else none
  else if a = 79 then
    if b = 72 then some .homeKey
    else if b = 70 then some .endKey
    else none
  else none

/-- The sequences of three bytes after `ESC`, the second of which is a digit. -/
def escTilde (b c : UInt8) : Option KiloKey :=
  if c = 126 then
    if b = 51 then some .delKey
    else if b = 53 then some .pageUp
    else if b = 54 then some .pageDown
    else none
  else none

/-- The array `seq`, whose bytes are there once a `read` has written them. -/
structure EscSeq where
  byte₀ : Option UInt8
  byte₁ : Option UInt8
  byte₂ : Option UInt8

inductive EscRound
  | done (result : KeyRead)
  | again (seq : EscSeq) (rest : List TtyRead)

/-- The byte of `seq` after a call of `read`. One that fails leaves what a round before has left. -/
def TtyRead.stored (old : Option UInt8) : TtyRead → Option UInt8
  | .byte c => some c
  | .timeout => old
  | .error => old

def escMatch (seq : EscSeq) (a b : UInt8) (input : List TtyRead) : EscRound :=
  if a = 91 ∧ 48 ≤ b ∧ b ≤ 57 then
    match input with
    | [] => .done .waits
    | .timeout :: rest => .done (.key (.byte ESC) rest)
    | r :: rest =>
      match r.stored seq.byte₂ with
      | none => .done .fault
      | some c =>
        match escTilde b c with
        | some key => .done (.key key rest)
        | none => .again ⟨some a, some b, some c⟩ rest
  else
    match escLetter a b with
    | some key => .done (.key key input)
    | none => .again ⟨some a, some b, seq.byte₂⟩ input

/-- One round of the loop after an `ESC`. -/
def escRound (seq : EscSeq) : List TtyRead → EscRound
  | [] => .done .waits
  | .timeout :: rest => .done (.key (.byte ESC) rest)
  | [_] => .done .waits
  | _ :: .timeout :: rest => .done (.key (.byte ESC) rest)
  | r₀ :: r₁ :: rest =>
    match r₀.stored seq.byte₀ with
    | none => .done .fault
    | some a =>
      match r₁.stored seq.byte₁ with
      | some b => escMatch seq a b rest
      | none =>
        -- the second byte is looked at only after `[` and `O`
        if a = 91 ∨ a = 79 then .done .fault else .again ⟨some a, none, seq.byte₂⟩ rest

/-- The loop after an `ESC`, for at most `fuel` rounds. -/
def escLoop : ℕ → EscSeq → List TtyRead → KeyRead
  | 0, _, _ => .waits
  | fuel + 1, seq, input =>
    match escRound seq input with
    | .done result => result
    | .again seq rest => escLoop fuel seq rest

/-- `editorReadKey`; no round goes without a `read`. -/
def editorReadKey : List TtyRead → KeyRead
  | [] => .waits
  | .timeout :: rest => editorReadKey rest
  | .error :: _ => .fault
  | .byte c :: rest =>
    if c = ESC then escLoop (rest.length + 1) ⟨none, none, none⟩ rest else .key (.byte c) rest

def readKeys : ℕ → List TtyRead → List KiloKey
  | 0, _ => []
  | fuel + 1, input =>
    match editorReadKey input with
    | .key key rest => key :: readKeys fuel rest
    | _ => []

/-- What the terminal sends for a key; an `ESC` is one when nothing follows it. -/
def KiloKey.sent : KiloKey → List TtyRead
  | .byte c => if c = ESC then [.byte c, .timeout] else [.byte c]
  | .arrowUp => [.byte ESC, .byte 91, .byte 65]
  | .arrowDown => [.byte ESC, .byte 91, .byte 66]
  | .arrowRight => [.byte ESC, .byte 91, .byte 67]
  | .arrowLeft => [.byte ESC, .byte 91, .byte 68]
  | .homeKey => [.byte ESC, .byte 91, .byte 72]
  | .endKey => [.byte ESC, .byte 91, .byte 70]
  | .delKey => [.byte ESC, .byte 91, .byte 51, .byte 126]
  | .pageUp => [.byte ESC, .byte 91, .byte 53, .byte 126]
  | .pageDown => [.byte ESC, .byte 91, .byte 54, .byte 126]

section Keys

variable {key : KiloKey} {rest : List TtyRead} {n : ℕ}

theorem editorReadKey_sent (key : KiloKey) (rest : List TtyRead) :
    editorReadKey (key.sent ++ rest) = .key key rest := by
  cases key with
  | byte c =>
    by_cases hc : c = ESC
    · subst hc
      rfl
    · rw [KiloKey.sent, if_neg hc, List.singleton_append, editorReadKey, if_neg hc]
  | _ => rfl

theorem editorReadKey_pause (n : ℕ) (input : List TtyRead) :
    editorReadKey (List.replicate n .timeout ++ input) = editorReadKey input := by
  induction n with
  | zero => rfl
  | succ n ih => exact ih

theorem KiloKey.sent_ne_nil (key : KiloKey) : key.sent ≠ [] := by
  cases key with
  | byte c =>
    rw [sent]
    split_ifs <;> exact List.cons_ne_nil _ _
  | _ => exact List.cons_ne_nil _ _

theorem readKeys_sent {fuel : ℕ} (keys : List (ℕ × KiloKey)) (hfuel : keys.length < fuel) :
    readKeys fuel (keys.flatMap fun k => List.replicate k.1 .timeout ++ k.2.sent) =
      keys.map Prod.snd := by
  induction keys generalizing fuel with
  | nil =>
    obtain ⟨fuel, rfl⟩ := Nat.exists_eq_succ_of_ne_zero (Nat.ne_of_gt hfuel)
    rfl
  | cons k keys ih =>
    obtain ⟨fuel, rfl⟩ := Nat.exists_eq_succ_of_ne_zero (Nat.ne_of_gt (Nat.zero_lt_of_lt hfuel))
    rw [readKeys, List.flatMap_cons, List.append_assoc, editorReadKey_pause, editorReadKey_sent]
    exact congrArg (k.2 :: ·) (ih (Nat.lt_of_succ_lt_succ hfuel))

theorem length_sent (keys : List (ℕ × KiloKey)) :
    keys.length ≤ (keys.flatMap fun k => List.replicate k.1 .timeout ++ k.2.sent).length := by
  induction keys with
  | nil => exact le_rfl
  | cons k keys ih =>
    have hpos := List.length_pos_of_ne_nil k.2.sent_ne_nil
    rw [List.flatMap_cons, List.length_append, List.length_append, List.length_cons]
    omega

/-- Keys are read as they were pressed, whatever the pauses before them. -/
theorem keys_read_as_sent (keys : List (ℕ × KiloKey)) (input : List TtyRead)
    (hinput : input = keys.flatMap fun k => List.replicate k.1 .timeout ++ k.2.sent) :
    readKeys (input.length + 1) input = keys.map Prod.snd := by
  rw [hinput]
  exact readKeys_sent keys (Nat.lt_succ_of_le (length_sent keys))

theorem keys_read_as_sent_arrow :
    readKeys ([TtyRead.timeout, .byte ESC, .byte 91, .byte 65, .byte 120].length + 1)
      [.timeout, .byte ESC, .byte 91, .byte 65, .byte 120] = [.arrowUp, .byte 120] :=
  keys_read_as_sent [(1, .arrowUp), (0, .byte 120)] _ rfl

theorem escRound_pair {seq : EscSeq} {a b : UInt8} (hdigit : ¬ (a = 91 ∧ 48 ≤ b ∧ b ≤ 57))
    (hletter : escLetter a b = none) (input : List TtyRead) :
    escRound seq (.byte a :: .byte b :: input) = .again ⟨some a, some b, seq.byte₂⟩ input := by
  change escMatch seq a b input = _
  unfold escMatch
  rw [if_neg hdigit, hletter]

theorem escLoop_passes {tail : List TtyRead} {r : KeyRead}
    (heven : ∀ fuel seq, 0 < fuel → escLoop fuel seq tail = r) (typed : List UInt8)
    (hodd : typed.length % 2 = 1 → ∀ c fuel seq, 0 < fuel → escLoop fuel seq (.byte c :: tail) = r)
    (hopen : 91 ∉ typed) (hopen' : 79 ∉ typed) {fuel : ℕ} (hfuel : typed.length < fuel)
    (seq : EscSeq) : escLoop fuel seq (typed.map .byte ++ tail) = r := by
  induction fuel generalizing typed seq with
  | zero => cases hfuel
  | succ fuel ih =>
    match typed with
    | [] => exact heven (fuel + 1) seq (Nat.succ_pos _)
    | [c] => exact hodd rfl c (fuel + 1) seq (Nat.succ_pos _)
    | a :: b :: typed =>
      have ha : a ≠ 91 := fun h => hopen (h ▸ List.mem_cons_self)
      have ha' : a ≠ 79 := fun h => hopen' (h ▸ List.mem_cons_self)
      have hletter : escLetter a b = none := by rw [escLetter, if_neg ha, if_neg ha']
      rw [List.length_cons, List.length_cons] at hfuel hodd
      rw [escLoop, List.map_cons, List.map_cons, List.cons_append, List.cons_append,
        escRound_pair (fun h => ha h.1) hletter]
      exact ih typed (fun h => hodd (by omega))
        (fun h => hopen (List.mem_cons_of_mem a (List.mem_cons_of_mem b h)))
        (fun h => hopen' (List.mem_cons_of_mem a (List.mem_cons_of_mem b h))) (by omega) _

/-- After a sequence that is not known, what is typed without a byte that begins a sequence is lost.
A pause after it is read as an `ESC`, and the two bytes of a sequence, after an even number of
others, are read as its key although no `ESC` came before them. -/
theorem keys_lost {a b : UInt8} (hdigit : ¬ (a = 91 ∧ 48 ≤ b ∧ b ≤ 57))
    (hletter : escLetter a b = none) (typed : List UInt8) (hopen : 91 ∉ typed)
    (hopen' : 79 ∉ typed) (rest : List TtyRead) :
    editorReadKey (.byte ESC :: .byte a :: .byte b :: (typed.map .byte ++ .timeout :: rest)) =
        .key (.byte ESC) rest ∧
      ∀ a' b' key, typed.length % 2 = 0 → escLetter a' b' = some key →
        editorReadKey (.byte ESC :: .byte a :: .byte b ::
          (typed.map .byte ++ .byte a' :: .byte b' :: rest)) = .key key rest := by
  have hstart (tail : List TtyRead) :
      editorReadKey (.byte ESC :: .byte a :: .byte b :: (typed.map .byte ++ tail)) =
        escLoop (typed.length + tail.length + 2) ⟨some a, some b, none⟩
          (typed.map .byte ++ tail) := by
    rw [editorReadKey, if_pos rfl, List.length_cons, List.length_cons, escLoop,
      escRound_pair hdigit hletter, List.length_append, List.length_map]
  constructor
  · rw [hstart]
    refine escLoop_passes (fun fuel seq hfuel => ?_) typed (fun _ c fuel seq hfuel => ?_) hopen
      hopen' (by omega) _ <;> obtain ⟨fuel, rfl⟩ := Nat.exists_eq_succ_of_ne_zero hfuel.ne'
    · rfl
    · rfl
  · intro a' b' key heven hkey
    rw [hstart]
    refine escLoop_passes (fun fuel seq hfuel => ?_) typed (fun hodd => by omega) hopen hopen'
      (by omega) _
    obtain ⟨fuel, rfl⟩ := Nat.exists_eq_succ_of_ne_zero hfuel.ne'
    have hdigit' : ¬ (a' = 91 ∧ 48 ≤ b' ∧ b' ≤ 57) := by
      rintro ⟨rfl, hlo, hhi⟩
      have hne (c : UInt8) (hc : ¬ c ≤ 57) : b' ≠ c := fun h => hc (h ▸ hhi)
      rw [escLetter, if_pos rfl, if_neg (hne 65 (by decide)), if_neg (hne 66 (by decide)),
        if_neg (hne 67 (by decide)), if_neg (hne 68 (by decide)), if_neg (hne 72 (by decide)),
        if_neg (hne 70 (by decide))] at hkey
      cases hkey
    have hround : escRound seq (.byte a' :: .byte b' :: rest) = .done (.key key rest) := by
      change escMatch seq a' b' rest = _
      unfold escMatch
      rw [if_neg hdigit', hkey]
    rw [escLoop, hround]

theorem keys_lost_word :
    editorReadKey (.byte ESC :: .byte 91 :: .byte 90 :: ([108, 115, 32].map .byte ++ [.timeout])) =
        .key (.byte ESC) [] ∧
      editorReadKey (.byte ESC :: .byte 91 :: .byte 90 ::
        ([108, 115].map .byte ++ [.byte 91, .byte 65])) = .key .arrowUp [] :=
  ⟨(keys_lost (by decide) (by decide) [108, 115, 32] (by decide) (by decide) []).1,
    (keys_lost (by decide) (by decide) [108, 115] (by decide) (by decide) []).2 91 65 .arrowUp rfl
      rfl⟩

end Keys

end JailFs
