import JailFs.LineScreen

/-!
# The screen while a line is edited

Each editing function redraws the row after a change, except that a byte typed at the end of a short
line is only sent as it is, and some functions draw nothing where they change nothing. After any
commands the row shows the line as it then is (`line_on_screen`), and ENTER leaves it there without
the hint (`line_left_on_screen`).
-/

namespace JailFs

open Terminal

/-- What an editing function sends to the terminal. -/
inductive Drawing
  | nothing
  | char (c : UInt8)
  | refresh
  deriving DecidableEq

/-- Whether `linenoiseEditHistoryNext` comes to its redraw. -/
def showsEntry (s : LinenoiseState × LineHistory) (dir : ℤ) : Prop :=
  1 < s.2.entries.length ∧ 0 ≤ s.1.historyIndex + dir ∧
    s.1.historyIndex + dir < s.2.entries.length

instance (s : LinenoiseState × LineHistory) (dir : ℤ) : Decidable (showsEntry s dir) :=
  inferInstanceAs (Decidable (_ ∧ _))

/-- What the editing functions draw. A completion was drawn when it was offered. -/
def drawing (scr : LineScreen) (s : LinenoiseState × LineHistory) : EditCmd → Drawing
  | .insert c =>
    if s.1.len < s.1.buflen then
      if s.1.len = s.1.pos then
        if scr.prompt.length + (s.1.len + 1) < scr.cols ∧ scr.hintsCallback.isNone then .char c
        else .refresh
      else .refresh
    else .nothing
  | .delete => if 0 < s.1.len ∧ s.1.pos < s.1.len then .refresh else .nothing
  | .backspace => if 0 < s.1.pos ∧ 0 < s.1.len then .refresh else .nothing
  | .deletePrevWord => .refresh
  | .transpose => if 0 < s.1.pos ∧ s.1.pos < s.1.len then .refresh else .nothing
  | .moveLeft => if 0 < s.1.pos then .refresh else .nothing
  | .moveRight => if s.1.pos ≠ s.1.len then .refresh else .nothing
  | .moveHome => if s.1.pos ≠ 0 then .refresh else .nothing
  | .moveEnd => if s.1.pos ≠ s.1.len then .refresh else .nothing
  | .clear => .refresh
  | .killToEnd => .refresh
  | .historyPrev => if showsEntry s 1 then .refresh else .nothing
  | .historyNext => if showsEntry s (-1) then .refresh else .nothing
  | .complete _ => .nothing

/-- The bytes that are sent, once the line is `l`. -/
def Drawing.bytes (scr : LineScreen) (l : LinenoiseState) : Drawing → Option (List UInt8)
  | .nothing => some []
  | .char c => some [c]
  | .refresh => refreshSingleLine scr l

/-- One editing function, on the line, the history and the terminal. -/
def editDraw (scr : LineScreen) (st : (LinenoiseState × LineHistory) × Terminal) (cmd : EditCmd) :
    Option ((LinenoiseState × LineHistory) × Terminal) := do
  let s ← runCmd cmd st.1
  let out ← (drawing scr st.1 cmd).bytes scr s.1
  some (s, st.2.feed out)

/-- What ENTER sends to the terminal. The callback for hints is put back afterwards. -/
def enterDraw (scr : LineScreen) (l : LinenoiseState) : Option (List UInt8) :=
  if scr.hintsCallback.isSome then refreshSingleLine { scr with hintsCallback := none } l
  else some []

def LineText.after (t : LineText) (room : ℕ) (cmds : List EditCmd) : LineText :=
  cmds.foldl (fun t cmd => t.run room cmd) t

/-- A command that takes no completion and types a byte that takes one column, if any. -/
def EditCmd.Plain : EditCmd → Prop
  | .insert c => Printable c
  | .complete _ => False
  | _ => True

/-- The line and the history have only bytes that take one column each. -/
structure LineText.Clean (t : LineText) : Prop where
  line : ∀ c ∈ t.line.text, Printable c
  history : ∀ entry ∈ t.history.entries, ∀ c ∈ entry.bytes, Printable c

section Clean

variable {t : LineText} {z : Zipper UInt8}

theorem clean_ofBuffer {l : List UInt8} (h : ∀ c ∈ l, Printable c) :
    ∀ c ∈ (CString.ofBuffer l).bytes, Printable c :=
  fun c hc => h c ((List.takeWhile_sublist _).subset hc)

theorem LineText.Clean.putDown (h : t.Clean) : t.putDown.Clean where
  line := h.line
  history := by
    intro entry hentry
    rcases List.mem_or_eq_of_mem_set hentry with hmem | rfl
    · exact h.history entry hmem
    · exact clean_ofBuffer h.line

theorem LineText.Clean.takeUp (h : t.Clean) (room index : ℕ) : (t.takeUp room index).Clean := by
  rw [LineText.takeUp]
  split
  · next entry hentry =>
    refine ⟨fun c hc => ?_, h.history⟩
    rw [Zipper.text_atEnd] at hc
    exact h.history entry (List.mem_of_getElem? hentry) c (List.mem_of_mem_take hc)
  · exact h

theorem LineText.Clean.line_of_subset (h : t.Clean) (hz : ∀ c ∈ z.text, c ∈ t.line.text) :
    ({ t with line := z } : LineText).Clean :=
  ⟨fun c hc => h.line c (hz c hc), h.history⟩

theorem LineText.Clean.run (h : t.Clean) (room : ℕ) {cmd : EditCmd} (hcmd : cmd.Plain) :
    (t.run room cmd).Clean := by
  obtain ⟨⟨left, right⟩, hist, index⟩ := t
  cases cmd with
  | insert c =>
    rw [LineText.run]
    split_ifs
    · refine ⟨fun b hb => ?_, h.history⟩
      rw [Zipper.mem_text, Zipper.insert, List.mem_cons, or_assoc] at hb
      rcases hb with rfl | hb
      · exact hcmd
      · exact h.line b ((Zipper.mem_text _).mpr hb)
    · exact h
  | delete =>
    refine h.line_of_subset fun b hb => ?_
    rw [Zipper.mem_text] at hb ⊢
    exact hb.imp_right List.mem_of_mem_tail
  | backspace =>
    refine h.line_of_subset fun b hb => ?_
    rw [Zipper.mem_text] at hb ⊢
    exact hb.imp_left List.mem_of_mem_tail
  | deletePrevWord =>
    refine h.line_of_subset fun b hb => ?_
    rw [Zipper.mem_text] at hb ⊢
    exact hb.imp_left fun hb =>
      (List.dropWhile_suffix _).subset ((List.dropWhile_suffix _).subset hb)
  | transpose =>
    refine h.line_of_subset fun b hb => ?_
    rw [Zipper.mem_text] at hb ⊢
    rcases left with _ | ⟨a, left⟩
    · exact hb
    · rcases right with _ | ⟨b₁, _ | ⟨b₂, right⟩⟩
      · exact hb
      · simp only [Zipper.transpose, List.mem_cons] at hb ⊢
        tauto
      · simp only [Zipper.transpose, List.mem_cons] at hb ⊢
        tauto
  | moveLeft => exact h.line_of_subset fun b hb => by rwa [Zipper.text_moveLeft] at hb
  | moveRight => exact h.line_of_subset fun b hb => by rwa [Zipper.text_moveRight] at hb
  | moveHome => exact h.line_of_subset fun b hb => hb
  | moveEnd => exact h.line_of_subset fun b hb => by rwa [Zipper.text_moveEnd] at hb
  | clear => exact h.line_of_subset fun b hb => by cases hb
  | killToEnd =>
    refine h.line_of_subset fun b hb => ?_
    rw [Zipper.mem_text] at hb ⊢
    exact hb.imp_right fun hb => by cases hb
  | historyPrev =>
    rw [LineText.run, LineText.older]
    split_ifs
    · exact h
    · exact h.putDown.takeUp room _
    · exact h.putDown
  | historyNext =>
    rw [LineText.run, LineText.newer]
    split_ifs
    · exact h
    · exact h.putDown.takeUp room _
    · exact h.putDown
  | complete w => exact hcmd.elim

end Clean

section Step

variable {scr : LineScreen} {room : ℕ} {s : LinenoiseState × LineHistory} {t : LineText}
  {tty : Terminal} {cmd : EditCmd}

theorem right_eq_nil (h : Edits room s t) (hpos : s.1.pos = s.1.len) : t.line.right = [] := by
  have hl := h.shows.len
  have hp := h.shows.pos
  exact List.length_eq_zero_iff.mp (by omega)

theorem left_eq_nil (h : Edits room s t) (hpos : s.1.pos = 0) : t.line.left = [] := by
  have hp := h.shows.pos
  exact List.length_eq_zero_iff.mp (by omega)

theorem older_line (h : Edits room s t) (hstays : ¬ showsEntry s 1) :
    (t.older room).line = t.line := by
  have hin := h.inHistory
  have hindex := h.index
  have hhist : s.2.entries.length = t.history.entries.length := by rw [h.history]
  rw [showsEntry] at hstays
  rw [LineText.older]
  split_ifs
  · rfl
  · omega
  · rfl

theorem newer_line (h : Edits room s t) (hstays : ¬ showsEntry s (-1)) :
    (t.newer room).line = t.line := by
  have hin := h.inHistory
  have hindex := h.index
  have hhist : s.2.entries.length = t.history.entries.length := by rw [h.history]
  rw [showsEntry] at hstays
  rw [LineText.newer]
  split_ifs
  · rfl
  · omega
  · rfl

theorem line_of_nothing (h : Edits room s t) (hplain : cmd.Plain)
    (hd : drawing scr s cmd = .nothing) : (t.run room cmd).line = t.line := by
  have hle := h.shows.pos_le
  have hright := right_eq_nil h
  have hleft := left_eq_nil h
  obtain ⟨⟨left, right⟩, hist, index⟩ := t
  dsimp only at hright hleft
  cases cmd with
  | insert c =>
    rw [drawing] at hd
    split_ifs at hd with hroom hend hshort
    rw [LineText.run, if_neg]
    rw [text_length h.shows, ← h.room]
    exact hroom
  | delete =>
    rw [drawing] at hd
    split_ifs at hd with hc
    obtain rfl := hright (by omega)
    rfl
  | backspace =>
    rw [drawing] at hd
    split_ifs at hd with hc
    obtain rfl := hleft (by omega)
    rfl
  | deletePrevWord => cases hd
  | transpose =>
    rw [drawing] at hd
    split_ifs at hd with hc
    by_cases hz : s.1.pos = 0
    · obtain rfl := hleft hz
      rfl
    · obtain rfl := hright (by omega)
      cases left <;> rfl
  | moveLeft =>
    rw [drawing] at hd
    split_ifs at hd with hc
    obtain rfl := hleft (by omega)
    rfl
  | moveRight =>
    rw [drawing] at hd
    split_ifs at hd with hc
    obtain rfl := hright (not_not.mp hc)
    rfl
  | moveHome =>
    rw [drawing] at hd
    split_ifs at hd with hc
    obtain rfl := hleft (not_not.mp hc)
    rfl
  | moveEnd =>
    rw [drawing] at hd
    split_ifs at hd with hc
    obtain rfl := hright (not_not.mp hc)
    simp [LineText.run, Zipper.moveEnd, Zipper.atEnd, Zipper.text]
  | clear => cases hd
  | killToEnd => cases hd
  | historyPrev =>
    rw [drawing] at hd
    split_ifs at hd with hc
    exact older_line h hc
  | historyNext =>
    rw [drawing] at hd
    split_ifs at hd with hc
    exact newer_line h hc
  | complete w => exact hplain.elim

theorem drawing_char (h : Edits room s t) {c : UInt8} (hd : drawing scr s cmd = .char c) :
    cmd = .insert c ∧ t.line.right = [] ∧ (t.run room cmd).line = t.line.insert c ∧
      scr.prompt.length + t.line.left.length + 1 < scr.cols ∧ scr.hintsCallback = none := by
  cases cmd with
  | insert c' =>
    rw [drawing] at hd
    split_ifs at hd with hroom hend hshort
    cases hd
    have hright := right_eq_nil h hend.symm
    have hl := h.shows.len
    refine ⟨rfl, hright, ?_, ?_, Option.isNone_iff_eq_none.mp hshort.2⟩
    · rw [LineText.run, if_pos]
      rw [text_length h.shows, ← h.room]
      exact hroom
    · rw [hright, List.length_nil] at hl
      omega
  | deletePrevWord => cases hd
  | clear => cases hd
  | killToEnd => cases hd
  | complete w => cases hd
  | _ =>
    rw [drawing] at hd
    split_ifs at hd

theorem row_short {z : Zipper UInt8} (hhints : scr.hintsCallback = none)
    (hfit : scr.prompt.length + z.text.length < scr.cols) :
    scr.row z = scr.prompt.bytes ++ z.text ∧
      scr.cursor z = scr.prompt.length + z.left.length := by
  have hlen := z.length_text
  have hskip : scr.skipped z = 0 := by
    rw [LineScreen.skipped]
    omega
  constructor
  · rw [LineScreen.row, LineScreen.window, LineScreen.hint, hhints, hskip, List.drop_zero,
      List.take_of_length_le (by omega), List.append_nil]
  · rw [LineScreen.cursor, hskip]
    rfl

theorem char_onScreen {z : Zipper UInt8} {c : UInt8} (hz : scr.OnScreen z tty)
    (hright : z.right = []) (hc : Printable c)
    (hfit : scr.prompt.length + z.left.length + 1 < scr.cols)
    (hhints : scr.hintsCallback = none) : scr.OnScreen (z.insert c) (tty.feed [c]) := by
  have hlen : z.text.length = z.left.length := by rw [z.length_text, hright]; rfl
  have hlen' : (z.insert c).text.length = z.left.length + 1 := by
    rw [(z.insert c).length_text, Zipper.insert, hright]
    rfl
  obtain ⟨hrow, hcur⟩ := row_short hhints (show scr.prompt.length + z.text.length < _ by omega)
  obtain ⟨hrow', hcur'⟩ := row_short hhints
    (show scr.prompt.length + (z.insert c).text.length < _ by omega)
  have htext : (z.insert c).text = z.text ++ [c] := by
    rw [Zipper.text, Zipper.insert, hright, Zipper.text, hright, List.reverse_cons,
      List.append_nil, List.append_nil]
  rw [htext, ← List.append_assoc, ← hrow] at hrow'
  have hlrow : (scr.row z).length = scr.prompt.length + z.left.length := by
    rw [hrow, List.length_append, hlen]
    rfl
  have hcol : tty.col = (scr.row z).length := by rw [hz.col, hcur, hlrow]
  have hfeed : tty.feed [c] = _ :=
    step_printable hz.mode hc (by rw [hcol, hlrow, hz.cols]; omega)
  rw [hfeed]
  refine ⟨hz.cols, hz.mode, ?_, fun x hx => ?_⟩
  · change tty.col + 1 = _
    rw [hcol, hlrow, hcur']
    rfl
  · have hfull : ¬ (scr.row z).length = scr.cols := by omega
    have hfull' : ¬ (scr.row z ++ [c]).length = scr.cols := by
      rw [List.length_append, List.length_singleton]
      omega
    have hold : tty.cell tty.row x = (scr.row z)[x]? := by
      rw [hz.cell x hx, if_neg fun h => hfull h.1]
    change (if tty.row = tty.row ∧ x = tty.col then some c else tty.cell tty.row x) = _
    rw [hrow', hold, hcol]
    simp only [hfull', false_and, if_false, true_and]
    by_cases hlast : x = (scr.row z).length
    · subst hlast
      rw [if_pos rfl, List.getElem?_concat_length]
    · rw [if_neg hlast]
      rcases Nat.lt_or_ge x (scr.row z).length with hlt | hge
      · rw [List.getElem?_append_left hlt]
      · rw [List.getElem?_eq_none hge, List.getElem?_eq_none]
        rw [List.length_append, List.length_singleton]
        omega

/-- The state of a session: the text of the line, and the screen with it. -/
structure InSession (scr : LineScreen) (room : ℕ) (tty₀ : Terminal)
    (st : (LinenoiseState × LineHistory) × Terminal) (t : LineText) : Prop where
  edits : Edits room st.1 t
  clean : t.Clean
  onScreen : scr.OnScreen t.line st.2
  row : st.2.row = tty₀.row
  rest : ∀ r, r ≠ tty₀.row → st.2.cell r = tty₀.cell r

theorem editDraw_inSession {tty₀ : Terminal} {st : (LinenoiseState × LineHistory) × Terminal}
    (hs : scr.Fits) (hroom : 0 < room) (hsmall : scr.prompt.length + room < 2 ^ 64)
    (h : InSession scr room tty₀ st t) (hplain : cmd.Plain) :
    ∃ st', editDraw scr st cmd = some st' ∧ InSession scr room tty₀ st' (t.run room cmd) := by
  obtain ⟨s, tty⟩ := st
  obtain ⟨s', hrun, hedits⟩ := run_edits hroom cmd h.edits (fun w hw => by
    subst hw
    exact hplain.elim)
  have hclean := h.clean.run room hplain
  have hmode : tty.mode = .text := h.onScreen.mode
  have hdraw : ∀ out, (drawing scr s cmd).bytes scr s'.1 = some out →
      editDraw scr (s, tty) cmd = some (s', tty.feed out) := by
    intro out hout
    simp only [editDraw, hrun, hout, Option.bind_eq_bind, Option.bind_some]
  cases hd : drawing scr s cmd with
  | nothing =>
    refine ⟨(s', tty), hdraw [] (by rw [hd]; rfl), hedits, hclean, ?_, h.row, h.rest⟩
    rw [line_of_nothing h.edits hplain hd]
    exact h.onScreen
  | char c =>
    obtain ⟨rfl, hright, hline, hfit, hhints⟩ := drawing_char h.edits hd
    have hscreen := char_onScreen h.onScreen hright hplain hfit hhints
    have hcol : tty.col < tty.cols := by
      have hshort : scr.prompt.length + t.line.text.length < scr.cols := by
        rw [t.line.length_text, hright, List.length_nil]
        omega
      rw [h.onScreen.col, h.onScreen.cols, (row_short hhints hshort).2]
      omega
    have hput := step_printable hmode hplain hcol
    refine ⟨(s', tty.feed [c]), hdraw [c] (by rw [hd]; rfl), hedits, hclean, ?_, ?_, ?_⟩
    · rw [hline]
      exact hscreen
    · change (tty.step c).row = _
      rw [hput]
      exact h.row
    · intro r hr
      change (tty.step c).cell r = _
      rw [hput]
      funext x
      change (if r = tty.row ∧ x = tty.col then some c else tty.cell r x) = _
      have hrow : tty.row = tty₀.row := h.row
      rw [if_neg fun hx => hr (hx.1.trans hrow)]
      exact congrFun (h.rest r hr) x
  | refresh =>
    obtain ⟨out, hout, hscreen, hrow, hrest⟩ := refresh_onScreen hs hedits.shows
      (by rw [hedits.room]; exact hsmall) hclean.line hmode h.onScreen.cols
    refine ⟨(s', tty.feed out), hdraw out (by rw [hd]; exact hout), hedits, hclean, hscreen,
      hrow.trans h.row, fun r hr => ?_⟩
    have hrow₀ : tty.row = tty₀.row := h.row
    exact (hrest r (by rw [hrow₀]; exact hr)).trans (h.rest r hr)

theorem run_inSession {tty₀ : Terminal} (hs : scr.Fits) (hroom : 0 < room)
    (hsmall : scr.prompt.length + room < 2 ^ 64) {cmds : List EditCmd}
    (hplain : ∀ cmd ∈ cmds, cmd.Plain) {st : (LinenoiseState × LineHistory) × Terminal}
    (h : InSession scr room tty₀ st t) :
    ∃ st', cmds.foldlM (editDraw scr) st = some st' ∧
      InSession scr room tty₀ st' (t.after room cmds) := by
  induction cmds generalizing st t with
  | nil => exact ⟨st, rfl, h⟩
  | cons cmd cmds ih =>
    rw [List.forall_mem_cons] at hplain
    obtain ⟨st₁, hst₁, h₁⟩ := editDraw_inSession hs hroom hsmall h hplain.1
    obtain ⟨st', hst', h'⟩ := ih hplain.2 h₁
    exact ⟨st', by rw [List.foldlM_cons, hst₁]; exact hst', h'⟩

theorem clean_start {h : LineHistory}
    (hclean : ∀ entry ∈ h.entries, ∀ c ∈ entry.bytes, Printable c) : (LineText.start h).Clean where
  line := by
    intro c hc
    cases hc
  history := by
    intro entry hentry
    change entry ∈ (linenoiseHistoryAdd h noLine).entries at hentry
    rw [linenoiseHistoryAdd] at hentry
    split_ifs at hentry
    · exact hclean entry hentry
    · rw [entries_push, List.mem_append, List.mem_singleton] at hentry
      rcases hentry with hentry | rfl
      · split_ifs at hentry
        · exact hclean entry (List.mem_of_mem_tail hentry)
        · exact hclean entry hentry
      · intro c hc
        cases hc

theorem prompt_onScreen (hs : scr.Fits) (hnone : scr.hint .empty = []) (hcols : tty.cols = scr.cols)
    (hmode : tty.mode = .text) (hcol : tty.col = 0) (hblank : ∀ x, tty.cell tty.row x = none) :
    scr.OnScreen .empty (tty.feed scr.prompt.bytes) ∧
      (tty.feed scr.prompt.bytes).row = tty.row ∧
      ∀ r, r ≠ tty.row → (tty.feed scr.prompt.bytes).cell r = tty.cell r := by
  have hn := hs.narrow
  have hlen : scr.prompt.bytes.length = scr.prompt.length := rfl
  have hrow : scr.row .empty = scr.prompt.bytes := by
    rw [LineScreen.row, LineScreen.window, hnone, Zipper.text_empty, List.drop_nil, List.take_nil,
      List.append_nil, List.append_nil]
  have hcur : scr.cursor .empty = scr.prompt.length := by
    rw [LineScreen.cursor, LineScreen.skipped]
    change scr.prompt.length + 0 - (scr.prompt.length + 0 + 1 - scr.cols) = _
    omega
  rw [feed_text hmode hs.prompt (by rw [hcol, hcols, hlen]; omega)]
  refine ⟨⟨hcols, hmode, ?_, fun x hx => ?_⟩, rfl, fun r hr => ?_⟩
  · change tty.col + scr.prompt.bytes.length = _
    rw [hcol, hcur, Nat.zero_add]
    rfl
  · change written tty.cell tty.row tty.col scr.prompt.bytes tty.row x = _
    rw [hrow, hlen, if_neg fun h => absurd h.1 (Nat.ne_of_lt hn), written, hcol, Nat.zero_add,
      Nat.sub_zero]
    by_cases hin : x < scr.prompt.bytes.length
    · rw [if_pos ⟨rfl, Nat.zero_le x, hin⟩]
    · rw [if_neg fun h => hin h.2.2, hblank, List.getElem?_eq_none (by omega)]
  · funext x
    change written tty.cell tty.row tty.col scr.prompt.bytes r x = _
    rw [written, if_neg fun h => hr h.1]

theorem start_inSession (hs : scr.Fits) (hnone : scr.hint .empty = []) {buf : List UInt8}
    (hbuf : buf.length = LINENOISE_MAX_LINE) {h : LineHistory}
    (hclean : ∀ entry ∈ h.entries, ∀ c ∈ entry.bytes, Printable c) (hcols : tty.cols = scr.cols)
    (hmode : tty.mode = .text) (hcol : tty.col = 0) (hblank : ∀ x, tty.cell tty.row x = none) :
    ∃ s₀, editStart buf h = some s₀ ∧ InSession scr (LINENOISE_MAX_LINE - 1) tty
      (s₀, tty.feed scr.prompt.bytes) (.start h) := by
  have hmax : LINENOISE_MAX_LINE = 4096 := rfl
  obtain ⟨s₀, hs₀, hedits⟩ := editStart_edits h (show 0 < buf.length by omega) (by omega)
  rw [hbuf] at hedits
  obtain ⟨hscreen, hrow, hrest⟩ := prompt_onScreen hs hnone hcols hmode hcol hblank
  exact ⟨s₀, hs₀, ⟨hedits, clean_start hclean, hscreen, hrow, hrest⟩⟩

theorem session_inSession (hs : scr.Fits) (hnone : scr.hint .empty = []) {buf : List UInt8}
    (hbuf : buf.length = LINENOISE_MAX_LINE) {h : LineHistory}
    (hclean : ∀ entry ∈ h.entries, ∀ c ∈ entry.bytes, Printable c) (hcols : tty.cols = scr.cols)
    (hmode : tty.mode = .text) (hcol : tty.col = 0) (hblank : ∀ x, tty.cell tty.row x = none)
    {cmds : List EditCmd} (hplain : ∀ cmd ∈ cmds, cmd.Plain) :
    ∃ s₀ s tty', editStart buf h = some s₀ ∧
      cmds.foldlM (editDraw scr) (s₀, tty.feed scr.prompt.bytes) = some (s, tty') ∧
      InSession scr (LINENOISE_MAX_LINE - 1) tty (s, tty')
        ((LineText.start h).after (LINENOISE_MAX_LINE - 1) cmds) := by
  have hmax : LINENOISE_MAX_LINE = 4096 := rfl
  have hn := hs.narrow
  have hc := hs.cols
  obtain ⟨s₀, hs₀, hstart⟩ := start_inSession hs hnone hbuf hclean hcols hmode hcol hblank
  obtain ⟨⟨s, tty'⟩, hrun, hend⟩ := run_inSession hs (by omega) (by omega) hplain hstart
  exact ⟨s₀, s, tty', hs₀, hrun, hend⟩

/-- On an empty row, after any commands, the row shows the line as it then is, with the cursor in
its place, and the rest of the screen is as it was. -/
theorem line_on_screen (hs : scr.Fits) (hnone : scr.hint .empty = []) {buf : List UInt8}
    (hbuf : buf.length = LINENOISE_MAX_LINE) {h : LineHistory}
    (hclean : ∀ entry ∈ h.entries, ∀ c ∈ entry.bytes, Printable c) (hcols : tty.cols = scr.cols)
    (hmode : tty.mode = .text) (hcol : tty.col = 0) (hblank : ∀ x, tty.cell tty.row x = none)
    {cmds : List EditCmd} (hplain : ∀ cmd ∈ cmds, cmd.Plain) :
    ∃ s₀ s tty', editStart buf h = some s₀ ∧
      cmds.foldlM (editDraw scr) (s₀, tty.feed scr.prompt.bytes) = some (s, tty') ∧
      ShowsText s.1 ((LineText.start h).after (LINENOISE_MAX_LINE - 1) cmds).line ∧
      scr.OnScreen ((LineText.start h).after (LINENOISE_MAX_LINE - 1) cmds).line tty' ∧
      tty'.row = tty.row ∧ ∀ r, r ≠ tty.row → tty'.cell r = tty.cell r := by
  obtain ⟨s₀, s, tty', hs₀, hrun, hend⟩ :=
    session_inSession hs hnone hbuf hclean hcols hmode hcol hblank hplain
  exact ⟨s₀, s, tty', hs₀, hrun, hend.edits.shows, hend.onScreen, hend.row, hend.rest⟩

end Step

theorem entries_empty_clean : ∀ entry ∈ (LineHistory.empty 10 (by decide)).entries,
    ∀ c ∈ entry.bytes, Printable c := by
  intro entry hentry
  cases hentry

def narrowScreen : LineScreen := ⟨.ofChars ['$', ' '], 5, none⟩

theorem dollar_printable : ∀ c ∈ (CString.ofChars ['$', ' ']).bytes, Printable c := by
  change ∀ c ∈ [36, 32], Printable c
  simp only [List.forall_mem_cons]
  exact ⟨by decide, by decide, fun c hc => by cases hc⟩

theorem narrowScreen_fits : narrowScreen.Fits where
  narrow := by decide
  cols := by decide
  nonempty := by decide
  prompt := dollar_printable
  hints := by
    intro callback line hint hcb
    cases hcb

def narrowTty : Terminal := ⟨5, fun _ _ => none, 0, 0, .text, false⟩

/-- Three bytes are typed where two fit left of the cursor. -/
theorem line_on_screen_narrow : ∃ s₀ s tty',
    editStart (List.replicate LINENOISE_MAX_LINE 0) (.empty 10 (by decide)) = some s₀ ∧
      ([.insert 97, .insert 98, .insert 99] : List EditCmd).foldlM (editDraw narrowScreen)
        (s₀, narrowTty.feed narrowScreen.prompt.bytes) = some (s, tty') ∧
      tty'.col = 4 ∧ tty'.cell 0 2 = some 98 ∧ tty'.cell 0 3 = some 99 := by
  have hbuf : (List.replicate LINENOISE_MAX_LINE (0 : UInt8)).length = LINENOISE_MAX_LINE :=
    List.length_replicate
  have hplain : ∀ cmd ∈ ([.insert 97, .insert 98, .insert 99] : List EditCmd), cmd.Plain := by
    simp only [List.forall_mem_cons, EditCmd.Plain]
    exact ⟨by decide, by decide, by decide, fun cmd h => by cases h⟩
  obtain ⟨s₀, s, tty', hs₀, hrun, -, hscreen, hrow, -⟩ :=
    line_on_screen narrowScreen_fits rfl hbuf entries_empty_clean
      (show narrowTty.cols = _ from rfl) rfl rfl (fun _ => rfl) hplain
  refine ⟨s₀, s, tty', hs₀, hrun, hscreen.col.trans (by decide), ?_, ?_⟩
  · have hcell := hscreen.cell 2 (by decide)
    rw [hrow, if_neg fun h => absurd h.2.1 (by decide)] at hcell
    exact hcell.trans (by decide)
  · have hcell := hscreen.cell 3 (by decide)
    rw [hrow, if_neg fun h => absurd h.2.1 (by decide)] at hcell
    exact hcell.trans (by decide)

section Enter

variable {scr : LineScreen} {room : ℕ} {t : LineText} {tty : Terminal}

theorem LineScreen.Fits.withoutHints (hs : scr.Fits) :
    ({ scr with hintsCallback := none } : LineScreen).Fits :=
  ⟨hs.narrow, hs.cols, hs.nonempty, hs.prompt, fun _ _ _ hcb => by cases hcb⟩

theorem enter_onScreen {tty₀ : Terminal} {st : (LinenoiseState × LineHistory) × Terminal}
    (hs : scr.Fits) (hsmall : scr.prompt.length + room < 2 ^ 64)
    (h : InSession scr room tty₀ st t) : ∃ out, enterDraw scr st.1.1 = some out ∧
      ({ scr with hintsCallback := none } : LineScreen).OnScreen t.line (st.2.feed out) ∧
      (st.2.feed out).row = tty₀.row ∧
      ∀ r, r ≠ tty₀.row → (st.2.feed out).cell r = tty₀.cell r := by
  have hrow₀ : st.2.row = tty₀.row := h.row
  cases hcb : scr.hintsCallback with
  | none =>
    refine ⟨[], ?_, ?_, h.row, h.rest⟩
    · rw [enterDraw, hcb]
      rfl
    · rw [← hcb]
      exact h.onScreen
  | some callback =>
    obtain ⟨out, hout, hscreen, hrow, hrest⟩ := refresh_onScreen hs.withoutHints h.edits.shows
      (by rw [h.edits.room]; exact hsmall) h.clean.line h.onScreen.mode h.onScreen.cols
    refine ⟨out, ?_, hscreen, hrow.trans hrow₀, fun r hr => ?_⟩
    · rw [enterDraw, hcb]
      exact hout
    · exact (hrest r (by rw [hrow₀]; exact hr)).trans (h.rest r hr)

/-- After any commands and ENTER, the row shows the line as it is returned, and no hint. -/
theorem line_left_on_screen (hs : scr.Fits) (hnone : scr.hint .empty = []) {buf : List UInt8}
    (hbuf : buf.length = LINENOISE_MAX_LINE) {h : LineHistory}
    (hclean : ∀ entry ∈ h.entries, ∀ c ∈ entry.bytes, Printable c) (hcols : tty.cols = scr.cols)
    (hmode : tty.mode = .text) (hcol : tty.col = 0) (hblank : ∀ x, tty.cell tty.row x = none)
    {cmds : List EditCmd} (hplain : ∀ cmd ∈ cmds, cmd.Plain) :
    ∃ s₀ s tty' out, editStart buf h = some s₀ ∧
      cmds.foldlM (editDraw scr) (s₀, tty.feed scr.prompt.bytes) = some (s, tty') ∧
      enterDraw scr s.1 = some out ∧
      ShowsText s.1 ((LineText.start h).after (LINENOISE_MAX_LINE - 1) cmds).line ∧
      ({ scr with hintsCallback := none } : LineScreen).OnScreen
        ((LineText.start h).after (LINENOISE_MAX_LINE - 1) cmds).line (tty'.feed out) ∧
      (tty'.feed out).row = tty.row ∧
      ∀ r, r ≠ tty.row → (tty'.feed out).cell r = tty.cell r := by
  obtain ⟨s₀, s, tty', hs₀, hrun, hend⟩ :=
    session_inSession hs hnone hbuf hclean hcols hmode hcol hblank hplain
  have hn := hs.narrow
  have hc := hs.cols
  have hmax : LINENOISE_MAX_LINE = 4096 := rfl
  obtain ⟨out, hout, hscreen, hrow, hrest⟩ := enter_onScreen hs (by omega) hend
  exact ⟨s₀, s, tty', out, hs₀, hrun, hout, hend.edits.shows, hscreen, hrow, hrest⟩

end Enter

def wordScreen : LineScreen where
  prompt := .ofChars ['$', ' ']
  cols := 80
  hintsCallback := some fun line =>
    if line = .ofChars ['l', 's'] then some ⟨.ofChars [' ', 'd'], 35, 0⟩ else none

theorem wordScreen_fits : wordScreen.Fits where
  narrow := by decide
  cols := by decide
  nonempty := by decide
  prompt := dollar_printable
  hints := by
    intro callback line hint hcb hhint
    cases hcb
    dsimp only at hhint
    split_ifs at hhint
    cases hhint
    change ∀ c ∈ [32, 100], Printable c
    simp only [List.forall_mem_cons]
    exact ⟨by decide, by decide, fun c hc => by cases hc⟩

def wideTty : Terminal := ⟨80, fun _ _ => none, 0, 0, .text, false⟩

/-- The word is typed. Its hint is not in the row after ENTER. -/
theorem line_left_on_screen_word : ∃ s₀ s tty' out,
    editStart (List.replicate LINENOISE_MAX_LINE 0) (.empty 10 (by decide)) = some s₀ ∧
      ([.insert 108, .insert 115] : List EditCmd).foldlM (editDraw wordScreen)
        (s₀, wideTty.feed wordScreen.prompt.bytes) = some (s, tty') ∧
      enterDraw wordScreen s.1 = some out ∧
      (tty'.feed out).cell 0 3 = some 115 ∧ (tty'.feed out).cell 0 5 = none := by
  have hbuf : (List.replicate LINENOISE_MAX_LINE (0 : UInt8)).length = LINENOISE_MAX_LINE :=
    List.length_replicate
  have hplain : ∀ cmd ∈ ([.insert 108, .insert 115] : List EditCmd), cmd.Plain := by
    simp only [List.forall_mem_cons, EditCmd.Plain]
    exact ⟨by decide, by decide, fun cmd h => by cases h⟩
  obtain ⟨s₀, s, tty', out, hs₀, hrun, hout, -, hscreen, hrow, -⟩ :=
    line_left_on_screen wordScreen_fits rfl hbuf entries_empty_clean
      (show wideTty.cols = _ from rfl) rfl rfl (fun _ => rfl) hplain
  refine ⟨s₀, s, tty', out, hs₀, hrun, hout, ?_, ?_⟩
  · have hcell := hscreen.cell 3 (by decide)
    rw [hrow, if_neg fun h => absurd h.2.1 (by decide)] at hcell
    exact hcell.trans (by decide)
  · have hcell := hscreen.cell 5 (by decide)
    rw [hrow, if_neg fun h => absurd h.2.1 (by decide)] at hcell
    exact hcell.trans (by decide)

end JailFs
