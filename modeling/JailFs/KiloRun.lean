import JailFs.KiloFind
import JailFs.Exec

/-!
# Runs of the screen editor

A key does to the page what it says, as long as no key is pressed where the editor loses its place
(`Kilo.Slips`): `kilo_refines`. The places are where the cursor is moved or put outside of what the
later keys count on.
-/

namespace JailFs

/-- A page, and whether a search goes on. -/
structure PageState where
  page : Page
  searching : Bool

/-- The keys that change nothing in the page. -/
def quietKeys : List UInt8 := [CTRL_C, CTRL_Q, CTRL_S, CTRL_L, ESC]

/-- What a key other than `CTRL_F`, `PAGE_UP` and `PAGE_DOWN` does. -/
def Page.press (p : Page) : KiloKey → Page
  | .byte c =>
    if c = ENTER then p.newline
    else if c = BACKSPACE ∨ c = CTRL_H then p.backspace
    else if c ∈ quietKeys then p
    else p.put c
  | .delKey => p.backspace
  | .homeKey => p.put 237
  | .endKey => p.put 238
  | .arrowLeft => p.left
  | .arrowRight => p.right
  | .arrowUp => p.up
  | .arrowDown => p.down
  | .pageUp | .pageDown => p

inductive PageStep : PageState → KiloKey → PageState → Prop
  | press {p : Page} {key : KiloKey} (hup : key ≠ .pageUp) (hdown : key ≠ .pageDown)
      (hfind : key ≠ .byte CTRL_F) : PageStep ⟨p, false⟩ key ⟨p.press key, false⟩
  | pageUp {p p' : Page} (hrows : p'.rows = p.rows) (hr : p'.r ≤ p.r) :
      PageStep ⟨p, false⟩ .pageUp ⟨p', false⟩
  | pageDown {p p' : Page} (hrows : p'.rows = p.rows) (hr : p.r ≤ p'.r) :
      PageStep ⟨p, false⟩ .pageDown ⟨p', false⟩
  | find {p : Page} : PageStep ⟨p, false⟩ (.byte CTRL_F) ⟨p, true⟩
  | search {p : Page} {key : KiloKey} (hesc : key ≠ .byte ESC) (henter : key ≠ .byte ENTER) :
      PageStep ⟨p, true⟩ key ⟨p, true⟩
  | cancel {p : Page} : PageStep ⟨p, true⟩ (.byte ESC) ⟨p, false⟩
  | found {p p' : Page} (hrows : p'.rows = p.rows) :
      PageStep ⟨p, true⟩ (.byte ENTER) ⟨p', false⟩

/-- The result of a save is nothing that the page knows of. -/
def PageCall (q : PageState) (call : KiloKey × SaveEnv) (q' : PageState) : Prop :=
  PageStep q call.1 q'

/-- The keys for `editorDelChar`. -/
def KiloKey.Rubs (key : KiloKey) : Prop :=
  key = .delKey ∨ key = .byte BACKSPACE ∨ key = .byte CTRL_H

/-- The keys that make the editor lose its place: `ARROW_LEFT` at the left of the first row of the
screen, while the file goes on above it, or of a row more than one below the last one; a row joined
to one of more than a screen and a column; a search that ends behind the end of its row; and a soft
key in a search, other than the arrows and `DEL_KEY`. -/
def Kilo.Slips (s : Kilo) (key : KiloKey) : Prop :=
  match s.find with
  | none =>
    key = .arrowLeft ∧ s.e.cx = 0 ∧ s.e.coloff = 0 ∧
      (s.e.cy = 0 ∧ s.e.rowoff ≠ 0 ∨ s.e.numrows < s.e.filerow) ∨
    key.Rubs ∧ s.e.filecol = 0 ∧ s.e.filerow < s.e.numrows ∧
      ∃ prev, s.e.rowAt (s.e.filerow - 1) = some prev ∧ s.e.screencols + 1 < prev.size
  | some _ =>
    key = .byte ENTER ∧ (∃ rowlen, cursorRowlen s.e = some rowlen ∧ rowlen < s.e.filecol) ∨ key.Soft

/-- The editor has the lines of the page, and its place when no search goes on. -/
def Kilo.Shows (s : Kilo) (q : PageState) : Prop :=
  match s.find with
  | none => q.searching = false ∧ s.e.Shows q.page
  | some f => q.searching = true ∧ (restoreCursor s.e f).Shows q.page ∧
    (∃ r c, s.e.screen.At r c) ∧ -1 ≤ f.lastMatch ∧ f.lastMatch < s.e.numrows

section Steps

variable {s s' : Kilo} {q : PageState} {e' : EditorConfig} {f : FindState} {key : KiloKey}

theorem Kilo.Shows.of_none {p : Page} (hfind : s.find = none) (h : s.e.Shows p) :
    s.Shows ⟨p, false⟩ := by
  unfold Kilo.Shows
  rw [hfind]
  exact ⟨rfl, h⟩

theorem Kilo.Shows.edit {r : Option EditorConfig} {p : Page} (hfind : s.find = none)
    (h : ∃ e', r = some e' ∧ e'.Shows p) : ∃ s', s.edit r = some s' ∧ s'.Shows ⟨p, false⟩ := by
  obtain ⟨e', rfl, hshows⟩ := h
  exact ⟨_, rfl, .of_none hfind hshows⟩

theorem editorSave_shows {p : Page} (h : s.e.Shows p) (file : Option (List UInt8))
    (env : SaveEnv) : (editorSave s.e file env).1.Shows p := by
  cases env <;> exact ⟨h.row, h.place⟩

theorem KiloKey.Rubs.fits (hrubs : key.Rubs) (hfind : s.find = none) (hsafe : ¬ s.Slips key)
    {p : Page} (h : s.e.Shows p) : s.e.JoinFits p := by
  intro hc hr hlen
  have hfilerow : s.e.filerow = p.r := h.place.row
  have hfilecol : s.e.filecol = p.c := h.place.col
  by_contra hlong
  refine hsafe ?_
  unfold Kilo.Slips
  rw [hfind]
  refine Or.inr ⟨hrubs, by omega, by rw [numrows_eq h.row]; omega,
    shown (lineAt p.rows (p.r - 1)), ?_, Int.lt_of_not_ge hlong⟩
  have hprev : s.e.filerow - 1 = ((p.r - 1 : ℕ) : ℤ) := by omega
  rw [hprev, rowAt_eq h.row (by omega)]

theorem Kilo.leftFits (hfind : s.find = none) (hsafe : ¬ s.Slips .arrowLeft) {p : Page}
    (h : s.e.Shows p) : s.e.LeftFits p := by
  intro hcx hcoloff
  have hfilerow : s.e.filerow = p.r := h.place.row
  have hnum := numrows_eq h.row
  by_contra hbad
  refine hsafe ?_
  unfold Kilo.Slips
  rw [hfind]
  refine Or.inl ⟨rfl, hcx, hcoloff, ?_⟩
  by_cases htop : s.e.cy = 0 ∧ s.e.rowoff ≠ 0
  · exact Or.inl htop
  · refine Or.inr ?_
    by_contra hle
    exact hbad ⟨fun hcy => by_contra fun hoff => htop ⟨hcy, hoff⟩, by omega⟩

theorem Kilo.Shows.byte {p : Page} (hfind : s.find = none) (h : s.e.Shows p) {c : UInt8}
    (hF : c ≠ CTRL_F) (hsafe : ¬ s.Slips (.byte c)) (env : SaveEnv) :
    ∃ s', s.processKey env (.byte c) = some s' ∧ s'.Shows ⟨p.press (.byte c), false⟩ := by
  rw [Kilo.processKey, hfind]
  dsimp only
  rw [Page.press]
  by_cases henter : c = ENTER
  · rw [if_pos henter, if_pos henter]
    exact Kilo.Shows.edit hfind h.insertNewline
  rw [if_neg henter, if_neg henter]
  by_cases hrub : c = BACKSPACE ∨ c = CTRL_H
  · have hrubs : KiloKey.Rubs (.byte c) := by
      rcases hrub with rfl | rfl
      · exact Or.inr (Or.inl rfl)
      · exact Or.inr (Or.inr rfl)
    have hother : c ≠ CTRL_C ∧ c ≠ CTRL_Q ∧ c ≠ CTRL_S := by
      rcases hrub with rfl | rfl <;> decide
    rw [if_neg hother.1, if_neg hother.2.1, if_neg hother.2.2, if_neg hF, if_pos hrub, if_pos hrub]
    exact Kilo.Shows.edit hfind (h.delChar (hrubs.fits hfind hsafe h))
  rw [if_neg hrub, if_neg hrub]
  by_cases hC : c = CTRL_C
  · rw [if_pos hC, if_pos (hC ▸ by decide)]
    exact Kilo.Shows.edit hfind ⟨s.e, rfl, h⟩
  by_cases hQ : c = CTRL_Q
  · have hmem : c ∈ quietKeys := hQ ▸ by decide
    rw [if_neg hC, if_pos hQ, if_pos hmem]
    by_cases hwarn : s.e.dirty ≠ 0 ∧ s.quitTimes ≠ 0
    · rw [if_pos hwarn]
      exact ⟨_, rfl, .of_none rfl h⟩
    · rw [if_neg hwarn]
      exact ⟨_, rfl, .of_none rfl h⟩
  by_cases hS : c = CTRL_S
  · rw [if_neg hC, if_neg hQ, if_pos hS, if_pos (hS ▸ by decide)]
    exact ⟨_, rfl, .of_none rfl (editorSave_shows h s.file env)⟩
  rw [if_neg hC, if_neg hQ, if_neg hS, if_neg hF]
  by_cases hrest : c = CTRL_L ∨ c = ESC
  · rw [if_pos hrest, if_pos (by rcases hrest with rfl | rfl <;> decide)]
    exact Kilo.Shows.edit hfind ⟨s.e, rfl, h⟩
  · have hnot : c ∉ quietKeys := by
      simp only [quietKeys, List.mem_cons, List.not_mem_nil, or_false]
      tauto
    rw [if_neg hrest, if_neg hnot]
    exact Kilo.Shows.edit hfind (h.insertChar c)

theorem Kilo.Shows.press {p : Page} (hfind : s.find = none) (h : s.e.Shows p)
    (hsafe : ¬ s.Slips key) (env : SaveEnv) :
    ∃ s' q', s.processKey env key = some s' ∧ PageStep ⟨p, false⟩ key q' ∧ s'.Shows q' := by
  have hpress (hup : key ≠ .pageUp) (hdown : key ≠ .pageDown) (hF : key ≠ .byte CTRL_F)
      (hstep : ∃ s', s.processKey env key = some s' ∧ s'.Shows ⟨p.press key, false⟩) :
      ∃ s' q', s.processKey env key = some s' ∧ PageStep ⟨p, false⟩ key q' ∧ s'.Shows q' := by
    obtain ⟨s', hs', hshows⟩ := hstep
    exact ⟨s', _, hs', .press hup hdown hF, hshows⟩
  have hsoft {r : Option EditorConfig} (hstep : s.processKey env key = s.edit r)
      (hr : ∃ e', r = some e' ∧ e'.Shows (p.press key)) :
      ∃ s', s.processKey env key = some s' ∧ s'.Shows ⟨p.press key, false⟩ := by
    rw [hstep]
    exact Kilo.Shows.edit hfind hr
  cases key with
  | byte c =>
    by_cases hF : c = CTRL_F
    · subst hF
      obtain ⟨hrow, hat⟩ := h
      refine ⟨{ s with find := some ⟨[], -1, s.e.cx, s.e.cy, s.e.coloff, s.e.rowoff⟩ }, ⟨p, true⟩,
        ?_, .find, ?_⟩
      · rw [Kilo.processKey, hfind]
        rfl
      · refine ⟨rfl, ⟨hrow, hat⟩, ⟨_, _, hat⟩, Int.le_refl _, ?_⟩
        rw [numrows_eq hrow]
        exact Int.natCast_nonneg _
    · exact hpress (by simp) (by simp) (by simpa using hF)
        (Kilo.Shows.byte hfind h hF hsafe env)
  | arrowLeft =>
    exact hpress (by simp) (by simp) (by simp)
      (hsoft (by rw [Kilo.processKey, hfind]) (h.moveLeft (Kilo.leftFits hfind hsafe h)))
  | arrowRight =>
    exact hpress (by simp) (by simp) (by simp) (hsoft (by rw [Kilo.processKey, hfind]) h.moveRight)
  | arrowUp =>
    exact hpress (by simp) (by simp) (by simp) (hsoft (by rw [Kilo.processKey, hfind]) h.moveUp)
  | arrowDown =>
    exact hpress (by simp) (by simp) (by simp) (hsoft (by rw [Kilo.processKey, hfind]) h.moveDown)
  | delKey =>
    exact hpress (by simp) (by simp) (by simp) (hsoft (by rw [Kilo.processKey, hfind])
      (h.delChar (KiloKey.Rubs.fits (Or.inl rfl) hfind hsafe h)))
  | homeKey =>
    exact hpress (by simp) (by simp) (by simp)
      (hsoft (by rw [Kilo.processKey, hfind]; rfl) (h.insertChar 237))
  | endKey =>
    exact hpress (by simp) (by simp) (by simp)
      (hsoft (by rw [Kilo.processKey, hfind]; rfl) (h.insertChar 238))
  | pageUp =>
    obtain ⟨e', p', hpage, hshows, hrows, hr⟩ := h.pageUp
    obtain ⟨s', hs', hs⟩ := Kilo.Shows.edit hfind ⟨e', hpage, hshows⟩
    refine ⟨s', _, ?_, .pageUp hrows hr, hs⟩
    rwa [Kilo.processKey, hfind]
  | pageDown =>
    obtain ⟨e', p', hpage, hshows, hrows, hr⟩ := h.pageDown
    obtain ⟨s', hs', hs⟩ := Kilo.Shows.edit hfind ⟨e', hpage, hshows⟩
    refine ⟨s', _, ?_, .pageDown hrows hr, hs⟩
    rwa [Kilo.processKey, hfind]

theorem Kilo.processKey_find (hfind : s.find = some f) (env : SaveEnv) (key : KiloKey) :
    s.processKey env key = (findKey s.e f key).map s.afterFind := by
  unfold Kilo.processKey
  rw [hfind]

theorem Kilo.Shows.search (hfind : s.find = some f) (h : s.Shows q) (hsafe : ¬ s.Slips key)
    (env : SaveEnv) :
    ∃ s' q', s.processKey env key = some s' ∧ PageStep q key q' ∧ s'.Shows q' := by
  obtain ⟨p, searching⟩ := q
  unfold Kilo.Shows at h
  rw [hfind] at h
  obtain ⟨rfl, hsaved, ⟨r, c, hat⟩, hlo, hhi⟩ := h
  have hrow : s.e.row = p.rows.map shown := hsaved.row
  have hstep := Kilo.processKey_find hfind env key
  by_cases hesc : key = .byte ESC
  · subst hesc
    refine ⟨{ s with e := restoreCursor s.e f, find := none, quitTimes := KILO_QUIT_TIMES },
      ⟨p, false⟩, ?_, .cancel, rfl, hsaved⟩
    rw [hstep]
    rfl
  by_cases henter : key = .byte ENTER
  · subst henter
    refine ⟨{ s with find := none, quitTimes := KILO_QUIT_TIMES }, ⟨⟨p.rows, r, c, ?_⟩, false⟩, ?_,
      .found rfl, rfl, hrow, hat⟩
    · by_contra hlong
      refine hsafe ?_
      unfold Kilo.Slips
      rw [hfind]
      have hfilecol : s.e.filecol = c := hat.col
      exact Or.inl ⟨rfl, _, cursorRowlen_eq hrow hat, by omega⟩
    · rw [hstep]
      rfl
  have hsearches : key.Searches := by
    refine ⟨hesc, henter, fun hsoft => hsafe ?_⟩
    unfold Kilo.Slips
    rw [hfind]
    exact Or.inr hsoft
  have hbounds : -1 ≤ (f.typed key).lastMatch ∧ (f.typed key).lastMatch < s.e.numrows := by
    rw [numrows_eq hrow] at hhi ⊢
    rcases f.typed_lastMatch key with h | h <;> omega
  obtain ⟨e₁, f₁, hsearch, hrow₁, hrestore, hat₁, hlo₁, hhi₁⟩ :=
    findSearch_keeps hrow hat (f.typed key) hbounds.1 hbounds.2 key.findNext_cases
  refine ⟨{ s with e := e₁, find := some f₁ }, ⟨p, true⟩, ?_, .search hesc henter, rfl, ?_, hat₁,
    hlo₁, ?_⟩
  · rw [hstep, findKey_eq _ _ hsearches, hsearch]
    rfl
  · rw [hrestore, restoreCursor_typed]
    exact hsaved
  · rw [EditorConfig.numrows, hrow₁]
    exact hhi₁

/-- The screen is drawn without a fault. -/
theorem Kilo.Shows.step_eq (h : s.Shows q) (env : SaveEnv) (key : KiloKey) :
    s.step env key = s.processKey env key := by
  have hdrawn : editorRefreshScreen s.e = some () := by
    unfold Kilo.Shows at h
    cases hfind : s.find with
    | none =>
      rw [hfind] at h
      exact editorRefreshScreen_eq h.2.row h.2.place
    | some f =>
      rw [hfind] at h
      obtain ⟨-, hsaved, ⟨r, c, hat⟩, -⟩ := h
      exact editorRefreshScreen_eq hsaved.row hat
  rw [Kilo.step, hdrawn]
  rfl

theorem Kilo.Shows.step (h : s.Shows q) (hsafe : ¬ s.Slips key) (env : SaveEnv) :
    ∃ s' q', s.step env key = some s' ∧ PageStep q key q' ∧ s'.Shows q' := by
  rw [h.step_eq]
  cases hfind : s.find with
  | some f => exact Kilo.Shows.search hfind h hsafe env
  | none =>
    obtain ⟨p, searching⟩ := q
    unfold Kilo.Shows at h
    rw [hfind] at h
    obtain ⟨rfl, h⟩ := h
    exact Kilo.Shows.press hfind h hsafe env

end Steps

section Runs

/-- The lines of a file that is opened. -/
def openedRows (file : Option (List UInt8)) : List (List UInt8) :=
  (getlines (file.getD [])).map chopLine

def openedPage (file : Option (List UInt8)) : Page := ⟨openedRows file, 0, 0, Nat.zero_le _⟩

theorem foldl_editorInsertRow (lines : List (List UInt8)) {e : EditorConfig}
    {rows : List (List UInt8)} (hrow : e.row = rows.map shown) :
    lines.foldl (fun e line => editorInsertRow e e.numrows (chopLine line)) e =
      { e with
        row := (rows ++ lines.map chopLine).map shown
        dirty := e.dirty + lines.length } := by
  induction lines generalizing e rows with
  | nil =>
    rw [List.map_nil, List.append_nil, ← hrow]
    rfl
  | cons line lines ih =>
    have hlast : e.numrows = ((rows.length : ℕ) : ℤ) := numrows_eq hrow
    rw [List.foldl_cons, hlast, editorInsertRow_row hrow le_rfl, List.insertIdx_length_self]
    refine (ih rfl).trans ?_
    rw [List.append_assoc, List.map_cons, List.singleton_append, List.length_cons,
      Nat.add_right_comm, Nat.add_assoc]

theorem editorOpen_eq {e : EditorConfig} (hrow : e.row = []) (file : Option (List UInt8)) :
    editorOpen e file = { e with row := (openedRows file).map shown, dirty := 0 } := by
  cases file with
  | none =>
    rw [editorOpen, openedRows, Option.getD_none, getlines, List.map_nil, List.map_nil, ← hrow]
  | some content =>
    have hnil : e.row = ([] : List (List UInt8)).map shown := hrow
    rw [editorOpen, foldl_editorInsertRow (getlines content) hnil]
    rfl

theorem Kilo.start_shows {rows cols : ℤ} (hrows : 0 < rows) (hcols : 32 < cols)
    (file : Option (List UInt8)) : (Kilo.start rows cols file).Shows ⟨openedPage file, false⟩ := by
  have heq := editorOpen_eq (e := ⟨0, 0, 0, 0, rows, cols, [], 0⟩) rfl file
  refine .of_none rfl ⟨congrArg EditorConfig.row heq, ?_⟩
  rw [Kilo.start, heq]
  simp only [EditorConfig.at_iff, openedPage]
  omega

/-- The keys that are read while the editor runs and its counts fit, as long as none slips. -/
def Kilo.SafeStep (s : Kilo) (call : KiloKey × SaveEnv) (s' : Kilo) : Prop :=
  s.exiting = false ∧ s.e.InRange ∧ s'.e.InRange ∧ ¬ s.Slips call.1 ∧
    s.step call.2 call.1 = some s'

theorem Kilo.run_shows {rows cols : ℤ} (hrows : 0 < rows) (hcols : 32 < cols)
    {file : Option (List UInt8)} {calls : List (KiloKey × SaveEnv)} {s : Kilo}
    (h : Exec Kilo.SafeStep (Kilo.start rows cols file) calls s) :
    ∃ q, Exec PageCall ⟨openedPage file, false⟩ calls q ∧ s.Shows q :=
  h.simulation (Kilo.start_shows hrows hcols file) fun _ call _ _ hs hstep => by
    obtain ⟨-, -, -, hsafe, hstep⟩ := hstep
    obtain ⟨t, q', ht, hq, hshows⟩ := hs.step hsafe call.2
    rw [hstep, Option.some_inj] at ht
    subst ht
    exact ⟨q', hq, hshows⟩

theorem Kilo.Shows.step_ne_none {s : Kilo} {q : PageState} {key : KiloKey} (h : s.Shows q)
    (hsafe : ¬ s.Slips key) (env : SaveEnv) : s.step env key ≠ none := by
  obtain ⟨t, q', ht, -, -⟩ := h.step hsafe env
  rw [ht]
  exact Option.some_ne_none t

/-- The editor edits a page of lines, whatever part of it the screen shows: as long as no key slips
every key does to the lines and to the place what it says, and none faults. -/
theorem kilo_refines {rows cols : ℤ} (hrows : 0 < rows) (hcols : 32 < cols)
    (file : Option (List UInt8)) {calls : List (KiloKey × SaveEnv)} {s : Kilo}
    (h : Exec Kilo.SafeStep (Kilo.start rows cols file) calls s) :
    (∃ q, Exec PageCall ⟨openedPage file, false⟩ calls q ∧ s.Shows q) ∧
      ∀ key env, ¬ s.Slips key → s.step env key ≠ none := by
  obtain ⟨q, hrun, hshows⟩ := Kilo.run_shows hrows hcols h
  exact ⟨⟨q, hrun, hshows⟩, fun _ env hsafe => hshows.step_ne_none hsafe env⟩

theorem Kilo.not_slips {s : Kilo} {c : UInt8} (hfind : s.find = none)
    (hshort : ∀ prev, s.e.rowAt (s.e.filerow - 1) = some prev → prev.size ≤ s.e.screencols + 1) :
    ¬ s.Slips (.byte c) := by
  unfold Kilo.Slips
  rw [hfind]
  rintro (⟨hkey, -⟩ | ⟨-, -, -, prev, hprev, hlong⟩)
  · cases hkey
  · have := hshort prev hprev
    omega

theorem Kilo.joined_run : ∃ s, Exec Kilo.SafeStep (Kilo.start 2 40 (some [97, 10]))
    [(.byte ENTER, .noOpen), (.byte BACKSPACE, .noOpen), (.byte CTRL_S, .written)] s ∧
      s.find = none :=
  ⟨_, .cons ⟨rfl, by decide, by decide, Kilo.not_slips rfl (by rintro _ ⟨⟩), rfl⟩
    (.cons ⟨rfl, by decide, by decide, Kilo.not_slips rfl (by rintro _ ⟨⟩; decide), rfl⟩
      (.single ⟨rfl, by decide, by decide, Kilo.not_slips rfl (by rintro _ ⟨⟩), rfl⟩)), rfl⟩

theorem kilo_refines_joined : ∃ s, Exec Kilo.SafeStep (Kilo.start 2 40 (some [97, 10]))
      [(.byte ENTER, .noOpen), (.byte BACKSPACE, .noOpen), (.byte CTRL_S, .written)] s ∧
    (∃ q, Exec PageCall ⟨openedPage (some [97, 10]), false⟩
        [(.byte ENTER, .noOpen), (.byte BACKSPACE, .noOpen), (.byte CTRL_S, .written)] q ∧
      s.Shows q) ∧ ∀ key env, ¬ s.Slips key → s.step env key ≠ none := by
  obtain ⟨s, hrun, -⟩ := Kilo.joined_run
  exact ⟨s, hrun, kilo_refines (by decide) (by decide) _ hrun⟩

theorem Kilo.find_run : ∃ s f, Exec Kilo.SafeStep (Kilo.start 2 40 (some [97, 10, 98, 10]))
    [(.byte CTRL_F, .noOpen)] s ∧ s.find = some f ∧ f.lastMatch = -1 :=
  ⟨_, _, .single ⟨rfl, by decide, by decide, Kilo.not_slips rfl (by rintro _ ⟨⟩), rfl⟩, rfl, rfl⟩

end Runs

section Faults

variable {s : Kilo} {q : PageState} {e : EditorConfig} {p : Page}

theorem fixCursor_ne_none (hrow : 0 ≤ e.filerow) : fixCursor e ≠ none := by
  obtain ⟨rowlen, hlen⟩ : ∃ rowlen, cursorRowlen e = some rowlen := by
    unfold cursorRowlen
    split_ifs with hnum
    · exact ⟨0, rfl⟩
    · have hlt : e.filerow.toNat < e.row.length := by
        rw [EditorConfig.numrows] at hnum
        omega
      rw [EditorConfig.rowAt, if_pos hrow, List.getElem?_eq_getElem hlt]
      exact ⟨_, rfl⟩
  rw [fixCursor, hlen]
  dsimp only [Option.bind_eq_bind, Option.bind_some]
  split_ifs <;> simp

theorem EditorConfig.Shows.left_eq_none_iff (h : e.Shows p) :
    editorMoveCursor e .arrowLeft = none ↔ p.rows.length < p.r := by
  obtain ⟨hrow, hat⟩ := h
  have hfilerow : e.filerow = p.r := hat.row
  have hfilecol : e.coloff + e.cx = p.c := hat.col
  obtain ⟨hcx₀, hcoloff₀⟩ : 0 ≤ e.cx ∧ 0 ≤ e.coloff := ⟨hat.cx, hat.coloff⟩
  have hhere : (0 : ℤ) ≤ p.r := Int.natCast_nonneg _
  rw [editorMoveCursor, JailFs.moveLeft, hfilerow]
  by_cases hlong : p.rows.length < p.r
  · have hc : p.c = 0 := by
      have hfits := p.fits
      rwa [lineAt_of_le hlong.le, List.length_nil, Nat.le_zero] at hfits
    have hprev : e.rowAt ((p.r : ℤ) - 1) = none := by
      rw [EditorConfig.rowAt, if_pos (by omega), hrow, List.getElem?_eq_none]
      rw [List.length_map]
      omega
    rw [if_pos (by omega), if_neg (by omega), if_pos (by omega), hprev]
    exact ⟨fun _ => hlong, fun _ => rfl⟩
  · refine ⟨fun hnone => absurd hnone ?_, fun h => absurd h hlong⟩
    by_cases hcx : e.cx = 0
    · rw [if_pos hcx]
      by_cases hcoloff : e.coloff = 0
      · rw [if_neg (not_not.mpr hcoloff)]
        by_cases hr : p.r = 0
        · rw [if_neg (by omega)]
          exact fixCursor_ne_none (hfilerow ▸ hhere)
        · have hprev : (p.r : ℤ) - 1 = ((p.r - 1 : ℕ) : ℤ) := by omega
          rw [if_pos (by omega), hprev, rowAt_eq hrow (by omega)]
          dsimp only [Option.bind_eq_bind, Option.bind_some]
          split_ifs <;> refine fixCursor_ne_none ?_ <;>
            simp only [EditorConfig.filerow] at * <;> omega
      · rw [if_pos hcoloff]
        exact fixCursor_ne_none (hfilerow ▸ hhere)
    · rw [if_neg hcx]
      exact fixCursor_ne_none (hfilerow ▸ hhere)

theorem EditorConfig.Shows.delChar_ne_none (h : e.Shows p) : editorDelChar e ≠ none := by
  by_cases hjoin : e.JoinFits p
  · obtain ⟨e', hdel, -⟩ := h.delChar hjoin
    rw [hdel]
    exact Option.some_ne_none e'
  · obtain ⟨hrow, hat⟩ := h
    have hfilerow : e.filerow = p.r := hat.row
    have hfilecol : e.filecol = p.c := hat.col
    obtain ⟨hc, hr, hlen⟩ : p.c = 0 ∧ 0 < p.r ∧ p.r < p.rows.length := by
      unfold EditorConfig.JoinFits at hjoin
      push Not at hjoin
      exact ⟨hjoin.1, hjoin.2.1, hjoin.2.2.1⟩
    have hprev : (p.r : ℤ) - 1 = ((p.r - 1 : ℕ) : ℤ) := by omega
    rw [editorDelChar]
    dsimp only
    rw [hfilerow, hfilecol, numrows_eq hrow, if_neg (by omega), if_pos (by omega), hprev,
      rowAt_eq hrow (by omega), rowAt_eq hrow hlen]
    simp

/-- As long as no key slips, the editor leaves its memory at two kinds of keys only: `ARROW_LEFT`
more than one row below the last one, and a soft key in a search that has no meaning there. -/
theorem kilo_faults_iff {rows cols : ℤ} (hrows : 0 < rows) (hcols : 32 < cols)
    (file : Option (List UInt8)) {calls : List (KiloKey × SaveEnv)} {s : Kilo}
    (h : Exec Kilo.SafeStep (Kilo.start rows cols file) calls s) (key : KiloKey) (env : SaveEnv) :
    s.step env key = none ↔ s.find = none ∧ key = .arrowLeft ∧ s.e.numrows < s.e.filerow ∨
      s.find ≠ none ∧ key.Soft := by
  obtain ⟨q, -, hshows⟩ := Kilo.run_shows hrows hcols h
  have hsafe (hsafe : ¬ s.Slips key) : s.processKey env key ≠ none :=
    hshows.step_eq env key ▸ hshows.step_ne_none hsafe env
  rw [hshows.step_eq]
  cases hfind : s.find with
  | none =>
    unfold Kilo.Shows at hshows
    rw [hfind] at hshows
    obtain ⟨-, hshows⟩ := hshows
    have hfilerow : s.e.filerow = q.page.r := hshows.place.row
    have hnum := numrows_eq hshows.row
    by_cases hleft : key = .arrowLeft
    · subst hleft
      have hstep : s.processKey env .arrowLeft = none ↔ editorMoveCursor s.e .arrowLeft = none := by
        rw [Kilo.processKey, hfind]
        exact Option.map_eq_none_iff
      rw [hstep, hshows.left_eq_none_iff, hnum, hfilerow]
      simp
    · have hnone : s.processKey env key ≠ none := by
        by_cases hrubs : key.Rubs
        · have hdel : s.processKey env key = s.edit (editorDelChar s.e) := by
            rcases hrubs with rfl | rfl | rfl <;> rw [Kilo.processKey, hfind] <;> rfl
          rw [hdel]
          intro hnone
          exact hshows.delChar_ne_none (Option.map_eq_none_iff.mp hnone)
        · refine hsafe ?_
          unfold Kilo.Slips
          rw [hfind]
          rintro (⟨hkey, -⟩ | ⟨hkey, -⟩)
          · exact hleft hkey
          · exact hrubs hkey
      simp [hnone, hleft]
  | some f =>
    by_cases hsoft : key.Soft
    · have hnone : s.processKey env key = none := by
        rw [Kilo.processKey_find hfind, findKey_soft _ _ hsoft, Option.map_none]
      simp [hnone, hsoft]
    · have hnone : s.processKey env key ≠ none := by
        by_cases henter : key = .byte ENTER
        · subst henter
          rw [Kilo.processKey, hfind]
          exact Option.some_ne_none _
        · refine hsafe ?_
          unfold Kilo.Slips
          rw [hfind]
          rintro (⟨hkey, -⟩ | hkey)
          · exact henter hkey
          · exact hsoft hkey
      simp [hnone, hsoft]

theorem kilo_faults_iff_search : ∃ s, Exec Kilo.SafeStep
      (Kilo.start 2 40 (some [97, 10, 98, 10])) [(.byte CTRL_F, .noOpen)] s ∧
    (s.step .noOpen .homeKey = none ↔
      s.find = none ∧ KiloKey.homeKey = .arrowLeft ∧ s.e.numrows < s.e.filerow ∨
        s.find ≠ none ∧ KiloKey.homeKey.Soft) := by
  obtain ⟨s, f, hrun, -⟩ := Kilo.find_run
  exact ⟨s, hrun, kilo_faults_iff (by decide) (by decide) _ hrun .homeKey .noOpen⟩

theorem moveTimes_self {key : KiloKey} (h : editorMoveCursor e key = some e) (times : ℕ) :
    moveTimes key times e = some e := by
  induction times with
  | zero => rfl
  | succ times ih =>
    rw [moveTimes, h]
    exact ih

theorem moveDown_below (hlast : e.numrows ≤ e.filerow) (hcol : e.filecol = 0) :
    editorMoveCursor e .arrowDown = some e := by
  rw [editorMoveCursor, moveDown, if_neg (by omega), fixCursor, cursorRowlen, if_pos hlast]
  dsimp only [Option.bind_eq_bind, Option.bind_some]
  rw [if_neg (by omega)]

/-- `PAGE_DOWN` in a file with less lines than the screen puts the cursor on the last row of the
screen, and `ARROW_LEFT` faults there. -/
theorem kilo_page_down_faults {rows cols : ℤ} (hcols : 32 < cols) (file : Option (List UInt8))
    (hfits : (Kilo.start rows cols file).e.InRange)
    (hshort : ((openedRows file).length : ℤ) + 1 < rows) (env env' : SaveEnv) :
    ∃ s, Exec Kilo.SafeStep (Kilo.start rows cols file) [(.pageDown, env)] s ∧
      s.step env' .arrowLeft = none := by
  have hrows : 0 < rows := by omega
  have hstart : (Kilo.start rows cols file).e =
      ⟨0, 0, 0, 0, rows, cols, (openedRows file).map shown, 0⟩ := editorOpen_eq rfl file
  let e : EditorConfig := ⟨0, rows - 1, 0, 0, rows, cols, (openedRows file).map shown, 0⟩
  have hlast : e.numrows ≤ e.filerow := by
    have hnum : e.numrows = (openedRows file).length := numrows_eq rfl
    have hfilerow : e.filerow = rows - 1 := zero_add _
    omega
  have hshows : e.Shows ⟨openedRows file, (rows - 1).toNat, 0, Nat.zero_le _⟩ := by
    refine ⟨rfl, ?_⟩
    simp only [EditorConfig.at_iff, e]
    omega
  have hpage : pageDown (Kilo.start rows cols file).e = some e := by
    rw [hstart, pageDown]
    dsimp only
    rw [if_neg (by omega), if_pos (by omega)]
    exact moveTimes_self (moveDown_below hlast rfl) _
  have hsafe : ¬ (Kilo.start rows cols file).Slips .pageDown := by
    rintro (⟨hkey, -⟩ | ⟨hkey, -⟩)
    · cases hkey
    · rcases hkey with hkey | hkey | hkey <;> cases hkey
  have hfits' : e.InRange := by
    rw [hstart] at hfits
    exact hfits
  have hrun : Exec Kilo.SafeStep (Kilo.start rows cols file) [(.pageDown, env)]
      { Kilo.start rows cols file with e } := by
    refine .single ⟨rfl, hfits, hfits', hsafe, ?_⟩
    rw [(Kilo.start_shows hrows hcols file).step_eq]
    change (pageDown _).map _ = _
    rw [hpage]
    rfl
  refine ⟨_, hrun, ?_⟩
  have hshown : Kilo.Shows { Kilo.start rows cols file with e } ⟨_, false⟩ := .of_none rfl hshows
  rw [hshown.step_eq]
  refine Option.map_eq_none_iff.mpr (hshows.left_eq_none_iff.mpr ?_)
  dsimp only
  omega

theorem kilo_page_down_faults_line : ∃ s,
    Exec Kilo.SafeStep (Kilo.start 4 40 (some [97, 10])) [(.pageDown, .noOpen)] s ∧
      s.step .noOpen .arrowLeft = none :=
  kilo_page_down_faults (by decide) (some [97, 10]) (by decide) (by decide) .noOpen .noOpen

end Faults

/-- A key in a search puts the cursor on the nearest row that has the query, from the start of the
file if the key changed the query, and else from the last match on in the direction of the key. -/
theorem kilo_finds {rows cols : ℤ} (hrows : 0 < rows) (hcols : 32 < cols)
    (file : Option (List UInt8)) {calls : List (KiloKey × SaveEnv)} {s : Kilo}
    (h : Exec Kilo.SafeStep (Kilo.start rows cols file) calls s) {f : FindState}
    (hfind : s.find = some f) {key : KiloKey} (hkey : key.Searches)
    (hgo : (if (f.typed key).lastMatch = -1 then 1 else key.findNext) ≠ 0) (env : SaveEnv) :
    ∃ p : Page, s.e.row = p.rows.map shown ∧ ∃ e' i,
      s.step env key = some { s with e := e', find := some { f.typed key with lastMatch := i } } ∧
      MatchFound p.rows (f.typed key).query
        (if (f.typed key).lastMatch = -1 then 1 else key.findNext) (f.typed key).lastMatch
        s.e e' i := by
  obtain ⟨q, -, hshows⟩ := Kilo.run_shows hrows hcols h
  have hstep := hshows.step_eq env key
  unfold Kilo.Shows at hshows
  rw [hfind] at hshows
  obtain ⟨-, hsaved, ⟨r, c, hat⟩, hlo, hhi⟩ := hshows
  have hrow : s.e.row = q.page.rows.map shown := hsaved.row
  have hbounds : -1 ≤ (f.typed key).lastMatch ∧ (f.typed key).lastMatch < s.e.numrows := by
    rw [numrows_eq hrow] at hhi ⊢
    rcases f.typed_lastMatch key with h | h <;> omega
  obtain ⟨e', i, hsearch, hfound⟩ := findSearch_found hrow hat (f.typed key) hbounds.1 hbounds.2
    key.findNext_cases hgo
  refine ⟨q.page, hrow, e', i, ?_, hfound⟩
  rw [hstep, Kilo.processKey_find hfind, findKey_eq _ _ hkey, hsearch]
  rfl

theorem kilo_finds_second : ∃ s f, Exec Kilo.SafeStep (Kilo.start 2 40 (some [97, 10, 98, 10]))
      [(.byte CTRL_F, .noOpen)] s ∧ s.find = some f ∧
    ∃ p : Page, s.e.row = p.rows.map shown ∧ ∃ e' i,
      s.step .noOpen (.byte 98) =
        some { s with e := e', find := some { f.typed (.byte 98) with lastMatch := i } } ∧
      MatchFound p.rows (f.typed (.byte 98)).query
        (if (f.typed (.byte 98)).lastMatch = -1 then 1 else (KiloKey.byte 98).findNext)
        (f.typed (.byte 98)).lastMatch s.e e' i := by
  obtain ⟨s, f, hrun, hfind, hlast⟩ := Kilo.find_run
  have hkey : KiloKey.Searches (.byte 98) := by
    refine ⟨by decide, by decide, ?_⟩
    rintro (hkey | hkey | hkey | hkey | ⟨c, hkey, hprint⟩)
    · cases hkey
    · cases hkey
    · cases hkey
    · cases hkey
    · cases hprint
  have hgo : (if (f.typed (.byte 98)).lastMatch = -1 then 1
      else (KiloKey.byte 98).findNext) ≠ 0 := by
    have htyped : (f.typed (.byte 98)).lastMatch = -1 :=
      (f.typed_lastMatch (.byte 98)).elim id fun h => h.trans hlast
    rw [if_pos htyped]
    exact one_ne_zero
  exact ⟨s, f, hrun, hfind,
    kilo_finds (by decide) (by decide) _ hrun hfind hkey hgo .noOpen⟩

end JailFs
