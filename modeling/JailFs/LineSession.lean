import JailFs.LineText

/-!
# The history over a session of the shell

Each round of the loop of `thread_shell_init` is a prompt; a line whose command did not fail goes
to the history. During a prompt the latest entry is the line being edited, so the array has room
for one accepted line less.
-/

namespace JailFs

/-- The rest of a round, once `linenoise` has returned: the history after it, and the line that was
added to it. `ran` is whether `shell_command` returned something else than -1. -/
def acceptLine (ran : CString → Bool) : LineRead → Option (LineHistory × Option CString)
  | .waiting => none
  | .null h => some (h, none)
  | .line line h =>
    if line.bytes ≠ [] ∧ ran line then some (linenoiseHistoryAdd h line, some line)
    else some (h, none)

def shellRound (callback : Option (CString → List CString)) (h : LineHistory)
    (p : Prompt) (ran : CString → Bool) : Option (LineHistory × Option CString) :=
  (linenoise callback h p).bind (acceptLine ran)

/-- A key that neither moves in the history nor starts an escape sequence. -/
def TypingKey : ReadResult → Bool
  | .byte c => c < 128 ∧ keyAction c ≠ .edit .historyPrev ∧
      keyAction c ≠ .edit .historyNext ∧ keyAction c ≠ .escape
  | _ => false

def PlainRound (callback : Option (CString → List CString)) (h : LineHistory)
    (added : Option CString) (h' : LineHistory) : Prop :=
  ∃ p ran, (∀ r ∈ p.input, TypingKey r) ∧ shellRound callback h p ran = some (h', added)

def logLine (log : List CString) : Option CString → List CString
  | none => log
  | some line => if log.getLast? = some line then log else log ++ [line]

/-- The edit has left the history as it found it, or has dropped the latest entry. -/
def KeepsHistory (h : LineHistory) : Edit LineText → Prop
  | .reading .key t => t.history = h
  | .reading (.completing _ _) t => t.history = h
  | .reading _ _ => False
  | .returned count t => t.history = h.pop ∨ count = -1 ∧ t.history = h

section Keys

variable {room : ℕ} {h : LineHistory} {t : LineText} {c : UInt8}
  {callback : Option (CString → List CString)} {e e' : Edit LineText} {r : ReadResult}

theorem LineText.run_history (cmd : EditCmd) (hprev : cmd ≠ .historyPrev)
    (hnext : cmd ≠ .historyNext) : (t.run room cmd).history = t.history := by
  cases cmd with
  | historyPrev => exact absurd rfl hprev
  | historyNext => exact absurd rfl hnext
  | insert c =>
    rw [LineText.run]
    split_ifs <;> rfl
  | _ => rfl

theorem handle_keeps (hprev : keyAction c ≠ .edit .historyPrev)
    (hnext : keyAction c ≠ .edit .historyNext) (hesc : keyAction c ≠ .escape)
    (hh : t.history = h) (he : (textEditor room).handle c t = some e) : KeepsHistory h e := by
  rw [Editor.handle] at he
  cases hc : keyAction c with
  | edit cmd =>
    rw [hc] at he hprev hnext
    cases he
    exact (LineText.run_history _ (fun h => hprev (by rw [h])) fun h => hnext (by rw [h])).trans hh
  | enter =>
    rw [hc] at he
    cases he
    exact .inl (by rw [← hh])
  | interrupt =>
    rw [hc] at he
    cases he
    exact .inr ⟨rfl, hh⟩
  | deleteOrEof =>
    rw [hc] at he
    dsimp only at he
    split_ifs at he
    · cases he
      exact (LineText.run_history .delete (by simp) (by simp)).trans hh
    · cases he
      exact .inl (by rw [← hh])
  | escape => exact absurd hc hesc
  | clearScreen =>
    rw [hc] at he
    cases he
    exact hh

theorem completing_keeps {lc : List CString} {i : ℕ} (hlow : c < 128)
    (hprev : keyAction c ≠ .edit .historyPrev) (hnext : keyAction c ≠ .edit .historyNext)
    (hesc : keyAction c ≠ .escape) (hh : t.history = h)
    (he : (textEditor room).completing lc i c t = some e) : KeepsHistory h e := by
  have hnot : ¬ 128 ≤ c := by
    rw [UInt8.not_le]
    exact hlow
  rw [Editor.completing] at he
  simp only [if_neg hnot] at he
  split_ifs at he with htab hescape
  · cases he
    exact hh
  · exact handle_keeps hprev hnext hesc hh he
  all_goals
    rw [Option.bind_eq_some_iff] at he
    obtain ⟨t', ht', he⟩ := he
    have hh' : t'.history = h := by
      cases hw : lc[i]? with
      | none =>
        rw [hw] at ht'
        cases ht'
        exact hh
      | some w =>
        rw [hw] at ht'
        cases ht'
        exact (LineText.run_history (.complete w) (by simp) (by simp)).trans hh
  · cases he
    exact hh'
  · exact handle_keeps hprev hnext hesc hh' he

theorem step_keeps (hr : TypingKey r) (hk : KeepsHistory h e)
    (he : (textEditor room).step callback e r = some e') : KeepsHistory h e' := by
  obtain ⟨c, rfl⟩ : ∃ c, r = .byte c := by
    cases r with
    | byte c => exact ⟨c, rfl⟩
    | eof c | error => cases hr
  obtain ⟨hlow, hprev, hnext, hesc⟩ := of_decide_eq_true hr
  cases e with
  | returned count t =>
    cases he
    exact hk
  | reading at_ t =>
    cases at_ with
    | key =>
      change (textEditor room).key callback c t = some e' at he
      cases callback with
      | none => exact handle_keeps hprev hnext hesc hk he
      | some f =>
        rw [Editor.key] at he
        split_ifs at he with htab
        · cases he
          unfold Editor.offer
          dsimp only
          split_ifs <;> exact hk
        · exact handle_keeps hprev hnext hesc hk he
    | completing lc i => exact completing_keeps hlow hprev hnext hesc hk he
    | seq₀ => cases hk
    | seq₁ => cases hk
    | seq₂ => cases hk

theorem feed_keeps {input : List ReadResult} (hinput : ∀ r ∈ input, TypingKey r)
    (hk : KeepsHistory h e) (he : (textEditor room).feed callback e input = some e') :
    KeepsHistory h e' := by
  induction input generalizing e with
  | nil =>
    cases he
    exact hk
  | cons r input ih =>
    rw [List.forall_mem_cons] at hinput
    rw [Editor.feed, List.foldlM_cons] at he
    cases hstep : (textEditor room).step callback e r with
    | none =>
      rw [hstep] at he
      cases he
    | some f =>
      rw [hstep] at he
      exact ih hinput.2 (step_keeps hinput.1 hk hstep) he

end Keys

section Rounds

variable {maxLen : ℕ} {log lines : List CString} {line : CString} {h h' : LineHistory}

/-- The lines are the end of the log, and at most one of `maxLen` is missing. -/
structure EndOf (maxLen : ℕ) (log lines : List CString) : Prop where
  suffix : lines <:+ log
  least : min (maxLen - 1) log.length ≤ lines.length
  last_ne : lines.getLast? ≠ some noLine

/-- The history holds the end of the log. A prompt that was left with Ctrl-C keeps its entry. -/
def Records (maxLen : ℕ) (log : List CString) (h : LineHistory) : Prop :=
  h.maxLen = maxLen ∧
    ∃ lines, EndOf maxLen log lines ∧ (h.entries = lines ∨ h.entries = lines ++ [noLine])

theorem EndOf.tail (hend : EndOf maxLen log lines) (hfull : lines.length = maxLen) :
    EndOf maxLen log lines.tail := by
  refine ⟨(List.tail_suffix lines).trans hend.suffix, ?_, ?_⟩
  · rw [List.length_tail]
    omega
  · intro hlast
    refine hend.last_ne ?_
    cases lines with
    | nil => cases hlast
    | cons w lines =>
      rw [List.tail_cons] at hlast
      rw [List.getLast?_cons, hlast, Option.getD_some]

theorem Records.prompt (hrec : Records maxLen log h) :
    ∃ lines, EndOf maxLen log lines ∧ lines.length < maxLen ∧
      (linenoiseHistoryAdd h noLine).entries = lines ++ [noLine] := by
  have hle := h.length_le
  have hpos := h.maxLen_pos
  obtain ⟨hmax, lines, hend, hentries | hentries⟩ := hrec
  · rw [linenoiseHistoryAdd, hentries, if_neg hend.last_ne]
    by_cases hfull : lines.length = maxLen
    · refine ⟨lines.tail, hend.tail hfull, ?_, ?_⟩
      · rw [List.length_tail]
        omega
      · rw [entries_push, hentries, if_pos (hfull.trans hmax.symm)]
    · refine ⟨lines, hend, ?_, ?_⟩
      · rw [hentries] at hle
        omega
      · rw [entries_push, hentries, if_neg fun heq => hfull (heq.trans hmax)]
  · rw [hentries, List.length_append, List.length_singleton] at hle
    refine ⟨lines, hend, by omega, ?_⟩
    rw [linenoiseHistoryAdd, if_pos (by rw [hentries, List.getLast?_concat]), hentries]

theorem EndOf.add (hend : EndOf maxLen log lines) (hlen : lines.length < maxLen)
    (hmax : h.maxLen = maxLen) (hentries : h.entries = lines) (hne : line ≠ noLine) :
    Records maxLen (logLine log (some line)) (linenoiseHistoryAdd h line) := by
  obtain ⟨pre, hpre⟩ := hend.suffix
  refine ⟨maxLen_historyAdd.trans hmax, ?_⟩
  rw [linenoiseHistoryAdd, hentries, logLine]
  by_cases hdup : lines.getLast? = some line
  · rw [if_pos hdup, if_pos (by rw [← hpre, List.getLast?_append, hdup, Option.some_or])]
    exact ⟨lines, hend, .inl hentries⟩
  · rw [if_neg hdup]
    have hpush : (h.push line).entries = lines ++ [line] := by
      rw [entries_push, hentries, if_neg (by omega)]
    have hleast := hend.least
    refine ⟨lines ++ [line], ⟨?_, ?_, ?_⟩, .inl hpush⟩
    · split_ifs with hlog
      · -- The last line was accepted before the array had shrunk to nothing.
        have hnil : lines = [] := by
          by_contra hlines
          rw [← hpre, List.getLast?_append_of_ne_nil _ hlines] at hlog
          exact hdup hlog
        rw [hnil, List.nil_append]
        exact List.singleton_suffix_iff_getLast?_eq_some.mpr hlog
      · rw [← hpre, List.append_assoc]
        exact List.suffix_append _ _
    · rw [List.length_append, List.length_singleton]
      split_ifs
      · omega
      · rw [List.length_append, List.length_singleton]
        omega
    · rw [List.getLast?_concat]
      exact fun heq => hne (Option.some.inj heq)

variable {callback : Option (CString → List CString)}
  (hfits : ∀ f ∈ callback, ∀ text, ∀ w ∈ f text, w.length < LINENOISE_MAX_LINE - 1)
include hfits

theorem shellRound_eq {p : Prompt} (ran : CString → Bool) (hraw : p.raw = true)
    {t : Edit LineText}
    (ht : textEdit callback p.written (LINENOISE_MAX_LINE - 1) h p.input = some t) :
    shellRound callback h p ran = acceptLine ran (textRead t) := by
  obtain ⟨t', ht', hread⟩ := linenoise_eq hfits h p hraw
  obtain rfl : t' = t := Option.some.inj (ht'.symm.trans ht)
  rw [shellRound, hread, Option.bind_some]

theorem round_records {added : Option CString} (hrec : Records maxLen log h)
    (hround : PlainRound callback h added h') : Records maxLen (logLine log added) h' := by
  obtain ⟨p, ran, hplain, hround⟩ := hround
  cases hraw : p.raw with
  | false =>
    rw [shellRound, linenoise, if_neg (by rw [hraw]; decide)] at hround
    cases hround
    exact hrec
  | true =>
    obtain ⟨lines, hend, hlen, hentries⟩ := hrec.prompt
    obtain ⟨t, ht, -⟩ := linenoise_eq hfits h p hraw
    rw [shellRound_eq hfits ran hraw ht] at hround
    have hkeeps : KeepsHistory (linenoiseHistoryAdd h noLine) t := by
      refine feed_keeps hplain ?_ ht
      split_ifs
      · rfl
      · exact .inr ⟨rfl, rfl⟩
    have hmax : (linenoiseHistoryAdd h noLine).maxLen = maxLen := maxLen_historyAdd.trans hrec.1
    have hdrop : (linenoiseHistoryAdd h noLine).pop.entries = lines := by
      rw [entries_pop, hentries, List.dropLast_concat]
    cases t with
    | reading at_ t => cases hround
    | returned count t =>
      rw [textRead] at hround
      split_ifs at hround with hcount
      · cases hround
        rcases hkeeps with hpop | ⟨-, hkept⟩
        · rw [hpop]
          exact ⟨hmax, lines, hend, .inl hdrop⟩
        · rw [hkept]
          exact ⟨hmax, lines, hend, .inr hentries⟩
      · obtain hpop : t.history = (linenoiseHistoryAdd h noLine).pop :=
          hkeeps.resolve_right fun hkept => hcount hkept.1
        rw [acceptLine, hpop] at hround
        split_ifs at hround with hran
        · cases hround
          exact hend.add hlen hmax hdrop fun heq => hran.1 (congrArg CString.bytes heq)
        · cases hround
          exact ⟨hmax, lines, hend, .inl hdrop⟩

end Rounds

theorem records_of_run {callback : Option (CString → List CString)} {h h' : LineHistory}
    {added : List (Option CString)}
    (hfits : ∀ f ∈ callback, ∀ text, ∀ w ∈ f text, w.length < LINENOISE_MAX_LINE - 1)
    (hstart : h.entries.getLast? ≠ some noLine)
    (hrun : Exec (PlainRound callback) h added h') :
    Records h.maxLen (added.foldl logLine h.entries) h' := by
  refine hrun.history_invariant
    (I := fun added h' => Records h.maxLen (added.foldl logLine h.entries) h')
    ⟨rfl, h.entries, ⟨List.suffix_refl _, Nat.min_le_right _ _, hstart⟩, .inl rfl⟩ ?_
  intro added s line t hrec hround
  rw [List.foldl_append]
  exact round_records hfits hrec hround

/-- After any session the history is the end of the lines that were accepted, in their order and
without repetitions; of the last `maxLen` of them at most the oldest is missing. -/
theorem session_history {callback : Option (CString → List CString)} {h h' : LineHistory}
    {added : List (Option CString)}
    (hfits : ∀ f ∈ callback, ∀ text, ∀ w ∈ f text, w.length < LINENOISE_MAX_LINE - 1)
    (hstart : h.entries.getLast? ≠ some noLine)
    (hrun : Exec (PlainRound callback) h added h') :
    Records h.maxLen (added.foldl logLine h.entries) h' :=
  records_of_run hfits hstart hrun

theorem fits_of_none (n : ℕ) : ∀ f ∈ (none : Option (CString → List CString)), ∀ text,
    ∀ w ∈ f text, w.length < n := by
  intro f hf
  cases hf

theorem exists_ls_session : ∃ h',
    Exec (PlainRound none) (.empty 3 (by decide)) [some (.ofChars ['l', 's']), none] h' := by
  have hprompt : ∀ h keys t, textEdit none true (LINENOISE_MAX_LINE - 1) h keys = some t →
      shellRound none h ⟨true, true, List.replicate LINENOISE_MAX_LINE 0, List.length_replicate,
        keys⟩ (fun _ => true) = acceptLine (fun _ => true) (textRead t) :=
    fun h keys t ht => shellRound_eq (fits_of_none _) _ rfl ht
  exact ⟨_, ((Exec.nil _).snoc ⟨_, _, List.all_eq_true.mp rfl,
    hprompt _ ([108, 115, 13].map .byte) _ rfl⟩).snoc
    ⟨_, _, List.all_eq_true.mp rfl, hprompt _ ([3].map .byte) _ rfl⟩⟩

theorem session_history_ls : ∃ h',
    Records 3 ([some (.ofChars ['l', 's']), none].foldl logLine []) h' := by
  obtain ⟨h', hrun⟩ := exists_ls_session
  exact ⟨h', session_history (h := .empty 3 (by decide)) (fits_of_none _) (by decide) hrun⟩

end JailFs
