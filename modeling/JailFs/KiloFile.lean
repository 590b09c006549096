import JailFs.KiloText

/-!
# The file of the screen editor

The count of changes is zero only while the rows are those that were opened or saved last. So the
editor is left with rows that are not in the file only where `CTRL_Q` was pressed four times in a
row, or where a save had written less than all (`kilo_quits`). A file that was saved is opened with
the same rows, unless a newline was typed as a byte (`kilo_reopened`).
-/

namespace JailFs

/-- The rows change only if the count of changes does. -/
def EditorConfig.Tracks (e e' : EditorConfig) : Prop :=
  e'.dirty = 0 → e.dirty = 0 ∧ e'.row = e.row

section Changes

variable {e e' e'' : EditorConfig} {c : UInt8} {key : KiloKey} {f : FindState}

theorem EditorConfig.Tracks.refl (e : EditorConfig) : e.Tracks e := fun h => ⟨h, rfl⟩

theorem EditorConfig.Tracks.of_dirty (h : e'.dirty ≠ 0) : e.Tracks e' := fun h' => absurd h' h

@[simp] theorem scrollDown_dirty (e : EditorConfig) : (scrollDown e).dirty = e.dirty := by
  unfold scrollDown
  split_ifs <;> rfl

@[simp] theorem fixNewline_dirty (e : EditorConfig) : (fixNewline e).dirty = e.dirty :=
  scrollDown_dirty e

theorem editorInsertRow_dirty {i : ℤ} (h : i ≤ e.numrows) (s : List UInt8) :
    (editorInsertRow e i s).dirty ≠ 0 := by
  rw [editorInsertRow, if_neg (Int.not_lt.mpr h)]
  exact Nat.succ_ne_zero _

theorem editorInsertChar_tracks (h : editorInsertChar e c = some e') : e.Tracks e' := by
  unfold editorInsertChar at h
  simp only [Option.bind_eq_bind, Option.bind_eq_some_iff, Option.some.injEq] at h
  obtain ⟨row, -, e₁, -, rfl⟩ := h
  exact .of_dirty (Nat.succ_ne_zero _)

theorem editorDelChar_tracks (h : editorDelChar e = some e') : e.Tracks e' := by
  unfold editorDelChar at h
  simp only [Option.bind_eq_bind] at h
  split_ifs at h
  · cases h
    exact .refl e
  · simp only [Option.bind_eq_some_iff, Option.some.injEq] at h
    obtain ⟨prev, -, row, -, rfl⟩ := h
    exact .of_dirty (Nat.succ_ne_zero _)
  · simp only [Option.bind_eq_some_iff, Option.some.injEq] at h
    obtain ⟨row, -, e₁, -, row', -, rfl⟩ := h
    exact .of_dirty (Nat.succ_ne_zero _)

theorem editorInsertNewline_tracks (h : editorInsertNewline e = some e') : e.Tracks e' := by
  have hfix {e₁ : EditorConfig} (hdirty : e₁.dirty ≠ 0) : e.Tracks (fixNewline e₁) :=
    .of_dirty (by rwa [fixNewline_dirty])
  unfold editorInsertNewline at h
  dsimp only at h
  by_cases hbelow : e.numrows ≤ e.filerow
  · rw [if_pos hbelow] at h
    by_cases hlast : e.filerow = e.numrows
    · rw [if_pos hlast] at h
      cases h
      exact hfix (editorInsertRow_dirty hlast.le [])
    · rw [if_neg hlast] at h
      cases h
      exact .refl e
  · have hlt := Int.lt_of_not_ge hbelow
    rw [if_neg hbelow, Option.bind_eq_bind, Option.bind_eq_some_iff] at h
    obtain ⟨row, -, h⟩ := h
    generalize (if e.filecol ≥ row.size then row.size else e.filecol) = col at h
    by_cases hstart : col = 0
    · rw [if_pos hstart] at h
      cases h
      exact hfix (editorInsertRow_dirty hlt.le [])
    · rw [if_neg hstart] at h
      by_cases hneg : col < 0
      · rw [if_pos hneg] at h
        cases h
      · rw [if_neg hneg] at h
        cases h
        exact hfix (editorInsertRow_dirty hlt (row.chars.drop col.toNat))

/-- What leaves the rows and the count as they are. -/
def EditorConfig.Same (e e' : EditorConfig) : Prop := e'.row = e.row ∧ e'.dirty = e.dirty

theorem EditorConfig.Same.trans (h : e.Same e') (h' : e'.Same e'') : e.Same e'' :=
  ⟨h'.1.trans h.1, h'.2.trans h.2⟩

theorem EditorConfig.Same.tracks (h : e.Same e') : e.Tracks e' := fun hdirty =>
  ⟨h.2 ▸ hdirty, h.1⟩

theorem scrollRight_same (e : EditorConfig) : e.Same (scrollRight e) := by
  unfold scrollRight
  split_ifs <;> exact ⟨rfl, rfl⟩

theorem scrollDown_same (e : EditorConfig) : e.Same (scrollDown e) :=
  ⟨scrollDown_row e, scrollDown_dirty e⟩

theorem fixCursor_same (h : fixCursor e = some e') : e.Same e' := by
  unfold fixCursor at h
  rw [Option.bind_eq_bind, Option.bind_eq_some_iff] at h
  obtain ⟨rowlen, -, h⟩ := h
  dsimp only at h
  split_ifs at h <;> cases h <;> exact ⟨rfl, rfl⟩

theorem moveLeft_same (h : moveLeft e = some e') : e.Same e' := by
  unfold moveLeft at h
  simp only [Option.bind_eq_bind] at h
  split_ifs at h
  · cases h
    exact ⟨rfl, rfl⟩
  · rw [Option.bind_eq_some_iff] at h
    obtain ⟨prev, -, h⟩ := h
    split_ifs at h <;> cases h <;> exact ⟨rfl, rfl⟩
  · cases h
    exact ⟨rfl, rfl⟩
  · cases h
    exact ⟨rfl, rfl⟩

theorem moveRight_same (h : moveRight e = some e') : e.Same e' := by
  unfold moveRight at h
  simp only [Option.bind_eq_bind] at h
  split_ifs at h
  · cases h
    exact ⟨rfl, rfl⟩
  · rw [Option.bind_eq_some_iff] at h
    obtain ⟨row, -, h⟩ := h
    split_ifs at h <;> cases h
    · exact scrollRight_same e
    · exact scrollDown_same _
    · exact ⟨rfl, rfl⟩

theorem moveUp_same (e : EditorConfig) : e.Same (moveUp e) := by
  unfold moveUp
  split_ifs <;> exact ⟨rfl, rfl⟩

theorem moveDown_same (e : EditorConfig) : e.Same (moveDown e) := by
  unfold moveDown
  split_ifs
  · exact scrollDown_same e
  · exact ⟨rfl, rfl⟩

theorem editorMoveCursor_same (h : editorMoveCursor e key = some e') : e.Same e' := by
  have hbind {r : Option EditorConfig} (hr : ∀ e₁, r = some e₁ → e.Same e₁)
      (h : r.bind fixCursor = some e') : e.Same e' := by
    obtain ⟨e₁, he₁, hfix⟩ := Option.bind_eq_some_iff.mp h
    exact (hr e₁ he₁).trans (fixCursor_same hfix)
  cases key with
  | arrowLeft => exact hbind (fun _ => moveLeft_same) h
  | arrowRight => exact hbind (fun _ => moveRight_same) h
  | arrowUp => exact (moveUp_same e).trans (fixCursor_same h)
  | arrowDown => exact (moveDown_same e).trans (fixCursor_same h)
  | _ => exact fixCursor_same h

theorem moveTimes_same {times : ℕ} (h : moveTimes key times e = some e') : e.Same e' := by
  induction times generalizing e with
  | zero =>
    cases h
    exact ⟨rfl, rfl⟩
  | succ times ih =>
    obtain ⟨e₁, hmove, hrest⟩ := Option.bind_eq_some_iff.mp h
    exact (editorMoveCursor_same hmove).trans (ih hrest)

theorem pageUp_same (h : pageUp e = some e') : e.Same e' := by
  unfold pageUp at h
  split_ifs at h <;> obtain ⟨hrow, hdirty⟩ := moveTimes_same h <;> exact ⟨hrow, hdirty⟩

theorem pageDown_same (h : pageDown e = some e') : e.Same e' := by
  unfold pageDown at h
  split_ifs at h <;> obtain ⟨hrow, hdirty⟩ := moveTimes_same h <;> exact ⟨hrow, hdirty⟩

theorem showMatch_same (e : EditorConfig) (i : ℤ) (offset : ℕ) : e.Same (showMatch e i offset) := by
  unfold showMatch
  dsimp only
  split_ifs <;> exact ⟨rfl, rfl⟩

theorem findSearch_same {findNext : ℤ} {r : EditorConfig × FindState}
    (h : findSearch e f findNext = some r) : e.Same r.1 := by
  unfold findSearch at h
  dsimp only at h
  by_cases hgo : (if f.lastMatch = -1 then 1 else findNext) ≠ 0
  · rw [if_pos hgo, Option.bind_eq_bind, Option.bind_eq_some_iff] at h
    obtain ⟨result, -, h⟩ := h
    cases result with
    | none =>
      cases h
      exact ⟨rfl, rfl⟩
    | some found =>
      cases h
      exact showMatch_same e _ _
  · rw [if_neg hgo] at h
    cases h
    exact ⟨rfl, rfl⟩

theorem findKey_same {r : EditorConfig × Option FindState} (h : findKey e f key = some r) :
    e.Same r.1 := by
  by_cases hkey : key.Searches
  · rw [findKey_eq e f hkey, Option.map_eq_some_iff] at h
    obtain ⟨r', hsearch, rfl⟩ := h
    exact findSearch_same hsearch
  · by_cases hesc : key = .byte ESC
    · subst hesc
      cases h
      exact ⟨rfl, rfl⟩
    by_cases henter : key = .byte ENTER
    · subst henter
      cases h
      exact ⟨rfl, rfl⟩
    · have hsoft : key.Soft := by_contra fun hsoft => hkey ⟨hesc, henter, hsoft⟩
      rw [findKey_soft _ _ hsoft] at h
      cases h

end Changes

/-- What a key does to the file and to the count of `CTRL_Q`. -/
inductive KiloMove (s : Kilo) : KiloKey × SaveEnv → Kilo → Prop
  | edit {call : KiloKey × SaveEnv} {e' : EditorConfig} (htracks : s.e.Tracks e') :
      KiloMove s call { s with e := e', find := none, quitTimes := KILO_QUIT_TIMES }
  | search {call : KiloKey × SaveEnv} {e' : EditorConfig} {f : FindState}
      (htracks : s.e.Tracks e') : KiloMove s call { s with e := e', find := some f }
  | warn {env : SaveEnv} (hfind : s.find = none) (hquit : s.quitTimes ≠ 0) :
      KiloMove s (.byte CTRL_Q, env) { s with quitTimes := s.quitTimes - 1 }
  | quit {env : SaveEnv} (hfind : s.find = none) (hquit : s.e.dirty = 0 ∨ s.quitTimes = 0) :
      KiloMove s (.byte CTRL_Q, env) { s with exiting := true, quitTimes := KILO_QUIT_TIMES }
  | save {env : SaveEnv} (hfind : s.find = none) :
      KiloMove s (.byte CTRL_S, env)
        { s with
          e := (editorSave s.e s.file env).1
          file := (editorSave s.e s.file env).2
          quitTimes := KILO_QUIT_TIMES }

section Moves

variable {s s' : Kilo} {env : SaveEnv} {key : KiloKey}

theorem Kilo.edit_move {r : Option EditorConfig} (hfind : s.find = none)
    (htracks : ∀ e', r = some e' → s.e.Tracks e') (h : s.edit r = some s') :
    KiloMove s (key, env) s' := by
  obtain ⟨e', hr, rfl⟩ := Option.map_eq_some_iff.mp h
  have hmove : KiloMove s (key, env)
      { s with e := e', find := none, quitTimes := KILO_QUIT_TIMES } := .edit (htracks e' hr)
  rwa [← hfind] at hmove

theorem Kilo.byte_move {c : UInt8} (hfind : s.find = none)
    (h : s.processKey env (.byte c) = some s') : KiloMove s (.byte c, env) s' := by
  rw [Kilo.processKey, hfind] at h
  dsimp only at h
  by_cases henter : c = ENTER
  · rw [if_pos henter] at h
    exact Kilo.edit_move hfind (fun _ => editorInsertNewline_tracks) h
  rw [if_neg henter] at h
  by_cases hC : c = CTRL_C
  · rw [if_pos hC] at h
    exact Kilo.edit_move hfind (fun _ he => Option.some_inj.mp he ▸ .refl s.e) h
  rw [if_neg hC] at h
  by_cases hQ : c = CTRL_Q
  · rw [if_pos hQ] at h
    subst hQ
    by_cases hwarn : s.e.dirty ≠ 0 ∧ s.quitTimes ≠ 0
    · rw [if_pos hwarn] at h
      cases h
      exact hfind ▸ KiloMove.warn hfind hwarn.2
    · rw [if_neg hwarn] at h
      cases h
      exact hfind ▸ KiloMove.quit hfind (by tauto)
  rw [if_neg hQ] at h
  by_cases hS : c = CTRL_S
  · rw [if_pos hS] at h
    subst hS
    cases h
    exact hfind ▸ KiloMove.save hfind
  rw [if_neg hS] at h
  by_cases hF : c = CTRL_F
  · rw [if_pos hF] at h
    cases h
    exact .search (.refl s.e)
  rw [if_neg hF] at h
  by_cases hrub : c = BACKSPACE ∨ c = CTRL_H
  · rw [if_pos hrub] at h
    exact Kilo.edit_move hfind (fun _ => editorDelChar_tracks) h
  rw [if_neg hrub] at h
  by_cases hrest : c = CTRL_L ∨ c = ESC
  · rw [if_pos hrest] at h
    exact Kilo.edit_move hfind (fun _ he => Option.some_inj.mp he ▸ .refl s.e) h
  · rw [if_neg hrest] at h
    exact Kilo.edit_move hfind (fun _ => editorInsertChar_tracks) h

theorem Kilo.step_move (h : s.step env key = some s') : KiloMove s (key, env) s' := by
  obtain ⟨-, -, h⟩ := Option.bind_eq_some_iff.mp h
  cases hfind : s.find with
  | some f =>
    rw [Kilo.processKey_find hfind] at h
    obtain ⟨⟨e', r⟩, hkey, rfl⟩ := Option.map_eq_some_iff.mp h
    have htracks : s.e.Tracks e' := (findKey_same hkey).tracks
    cases r with
    | none => exact .edit htracks
    | some f' => exact .search htracks
  | none =>
    cases key with
    | byte c => exact Kilo.byte_move hfind h
    | homeKey | endKey =>
      rw [Kilo.processKey, hfind] at h
      exact Kilo.edit_move hfind (fun _ => editorInsertChar_tracks) h
    | delKey =>
      rw [Kilo.processKey, hfind] at h
      exact Kilo.edit_move hfind (fun _ => editorDelChar_tracks) h
    | pageUp =>
      rw [Kilo.processKey, hfind] at h
      exact Kilo.edit_move hfind (fun _ he => (pageUp_same he).tracks) h
    | pageDown =>
      rw [Kilo.processKey, hfind] at h
      exact Kilo.edit_move hfind (fun _ he => (pageDown_same he).tracks) h
    | arrowLeft | arrowRight | arrowUp | arrowDown =>
      rw [Kilo.processKey, hfind] at h
      exact Kilo.edit_move hfind (fun _ he => (editorMoveCursor_same he).tracks) h

end Moves

/-- The rows are in the file, or they are the ones that were opened and the file is the same. -/
def Kilo.Saved (file : Option (List UInt8)) (s : Kilo) : Prop :=
  s.file = some (editorRowsToString s.e) ∨
    s.file = file ∧ s.e.row = (openedRows file).map shown

/-- What holds of a session with the file `file` after some keys. -/
structure Kilo.Kept (file : Option (List UInt8)) (calls : List (KiloKey × SaveEnv)) (s : Kilo) :
    Prop where
  saved : s.e.dirty = 0 → (∀ n, (.byte CTRL_S, .short n) ∉ calls) → s.Saved file
  /-- `quitTimes` counts the `CTRL_Q` that came last. -/
  warned : s.find = none → ∃ k before, s.quitTimes + k = KILO_QUIT_TIMES ∧
    calls.map Prod.fst = before ++ List.replicate k (.byte CTRL_Q)
  left : s.exiting = true → s.e.dirty = 0 ∨
    ∃ before, calls.map Prod.fst = before ++ List.replicate (KILO_QUIT_TIMES + 1) (.byte CTRL_Q)

/-- The keys that are read while the editor runs and its counts fit. -/
def Kilo.RunStep (s : Kilo) (call : KiloKey × SaveEnv) (s' : Kilo) : Prop :=
  s.exiting = false ∧ s.e.InRange ∧ s'.e.InRange ∧ s.step call.2 call.1 = some s'

section Sessions

variable {file : Option (List UInt8)} {calls : List (KiloKey × SaveEnv)} {s s' : Kilo}
  {call : KiloKey × SaveEnv}

theorem Kilo.Saved.congr {e' : EditorConfig} (h : s.Saved file) (hrow : e'.row = s.e.row)
    (hfile : s'.file = s.file) (he : s'.e = e') : s'.Saved file := by
  rcases h with h | ⟨h, hopened⟩
  · refine Or.inl ?_
    rw [hfile, h, he, editorRowsToString, editorRowsToString, hrow]
  · refine Or.inr ⟨hfile.trans h, ?_⟩
    rw [he, hrow, hopened]

/-- Opening and setting the length of a file that is not there make an empty one. -/
theorem Kilo.Saved.touch (h : s.Saved file) (hfile : s'.file = some (s.file.getD []))
    (he : s'.e = s.e) : s'.Saved file := by
  rcases h with h | ⟨h, hopened⟩
  · refine Or.inl ?_
    rw [hfile, h, he, Option.getD_some]
  · cases file with
    | none =>
      refine Or.inl ?_
      rw [hfile, h, he, editorRowsToString, hopened]
      rfl
    | some content =>
      refine Or.inr ⟨?_, ?_⟩
      · rw [hfile, h, Option.getD_some]
      · rw [he, hopened]

theorem map_fst_snoc (calls : List (KiloKey × SaveEnv)) (call : KiloKey × SaveEnv) :
    (calls ++ [call]).map Prod.fst = calls.map Prod.fst ++ [call.1] := List.map_append

theorem Kilo.Kept.step (h : s.Kept file calls) (hstep : s.RunStep call s') :
    s'.Kept file (calls ++ [call]) := by
  obtain ⟨key, env⟩ := call
  obtain ⟨hrun, -, -, hstep⟩ := hstep
  have hshort (hno : ∀ n, (.byte CTRL_S, .short n) ∉ calls ++ [(key, env)]) (n : ℕ) :
      (.byte CTRL_S, .short n) ∉ calls := fun hmem => hno n (List.mem_append_left _ hmem)
  have hfresh : ∃ k before, KILO_QUIT_TIMES + k = KILO_QUIT_TIMES ∧
      (calls ++ [(key, env)]).map Prod.fst = before ++ List.replicate k (.byte CTRL_Q) :=
    ⟨0, _, rfl, (List.append_nil _).symm⟩
  cases Kilo.step_move hstep with
  | edit htracks =>
    refine ⟨fun hdirty hno => ?_, fun _ => hfresh, fun hexit => absurd hexit (by simp [hrun])⟩
    obtain ⟨hdirty₀, hrow⟩ := htracks hdirty
    exact (h.saved hdirty₀ (hshort hno)).congr hrow rfl rfl
  | search htracks =>
    refine ⟨fun hdirty hno => ?_, (fun hnone => by cases hnone),
      fun hexit => absurd hexit (by simp [hrun])⟩
    obtain ⟨hdirty₀, hrow⟩ := htracks hdirty
    exact (h.saved hdirty₀ (hshort hno)).congr hrow rfl rfl
  | warn hfind hquit =>
    refine ⟨fun hdirty hno => h.saved hdirty (hshort hno), fun _ => ?_,
      fun hexit => absurd hexit (by simp [hrun])⟩
    obtain ⟨k, before, hcount, hcalls⟩ := h.warned hfind
    refine ⟨k + 1, before, ?_, ?_⟩
    · dsimp only
      omega
    · rw [map_fst_snoc, hcalls, List.append_assoc, List.replicate_succ']
  | quit hfind hquit =>
    refine ⟨fun hdirty hno => h.saved hdirty (hshort hno), fun _ => hfresh, fun _ => ?_⟩
    rcases hquit with hclean | hquit
    · exact Or.inl hclean
    · obtain ⟨k, before, hcount, hcalls⟩ := h.warned hfind
      rw [hquit, Nat.zero_add] at hcount
      refine Or.inr ⟨before, ?_⟩
      rw [map_fst_snoc, hcalls, hcount, List.append_assoc, List.replicate_succ']
  | save hfind =>
    refine ⟨fun hdirty hno => ?_, fun _ => hfresh, fun hexit => absurd hexit (by simp [hrun])⟩
    cases env with
    | noOpen => exact h.saved hdirty (hshort hno)
    | noTruncate => exact (h.saved hdirty (hshort hno)).touch rfl rfl
    | short n => exact absurd (List.mem_append_right _ (List.mem_singleton_self _)) (hno n)
    | written => exact Or.inl rfl

end Sessions

/-- No line has a newline of its own. -/
def CleanRows (rows : List (List UInt8)) : Prop := ∀ l ∈ rows, 10 ∉ l

section Reopening

variable {p : Page} {q q' : PageState} {key : KiloKey} {rows : List (List UInt8)}
  {content l : List UInt8} {r : ℕ}

theorem CleanRows.lineAt (h : CleanRows rows) (r : ℕ) : 10 ∉ lineAt rows r := by
  by_cases hr : r < rows.length
  · exact h _ (List.mem_of_getElem? (getElem?_eq_lineAt hr))
  · rw [lineAt_of_le (Nat.le_of_not_lt hr)]
    exact List.not_mem_nil

theorem CleanRows.set (h : CleanRows rows) (hl : 10 ∉ l) : CleanRows (rows.set r l) := by
  intro l' hl'
  rcases List.mem_or_eq_of_mem_set hl' with hmem | rfl
  · exact h l' hmem
  · exact hl

theorem CleanRows.append (h : CleanRows rows) {rows' : List (List UInt8)} (h' : CleanRows rows') :
    CleanRows (rows ++ rows') := by
  intro l hl
  rcases List.mem_append.mp hl with hmem | hmem
  · exact h l hmem
  · exact h' l hmem

theorem cleanRows_replicate (n : ℕ) : CleanRows (List.replicate n []) := by
  intro l hl
  rw [List.eq_of_mem_replicate hl]
  exact List.not_mem_nil

theorem Page.put_clean (h : CleanRows p.rows) {c : UInt8} (hc : c ≠ 10) :
    CleanRows (p.put c).rows := by
  refine (h.append (cleanRows_replicate _)).set fun hmem => ?_
  rcases List.mem_append.mp hmem with hmem | hmem
  · exact h.lineAt p.r (List.mem_of_mem_take hmem)
  · rcases List.mem_cons.mp hmem with heq | hmem
    · exact hc heq.symm
    · exact h.lineAt p.r (List.mem_of_mem_drop hmem)

theorem Page.newline_clean (h : CleanRows p.rows) : CleanRows p.newline.rows := by
  unfold Page.newline
  split_ifs
  · intro l hl
    rcases List.eq_or_mem_of_mem_insertIdx hl with rfl | hmem
    · exact fun hmem => h.lineAt p.r (List.mem_of_mem_drop hmem)
    · exact h.set (fun hmem => h.lineAt p.r (List.mem_of_mem_take hmem)) l hmem
  · exact h.append (cleanRows_replicate 1)
  · exact h

theorem Page.backspace_clean (h : CleanRows p.rows) : CleanRows p.backspace.rows := by
  unfold Page.backspace
  split_ifs
  · exact h
  · intro l hl
    refine h.set (fun hmem => ?_) l (List.mem_of_mem_eraseIdx hl)
    rcases List.mem_append.mp hmem with hmem | hmem
    · exact h.lineAt _ hmem
    · exact h.lineAt p.r hmem
  · exact h.set fun hmem => h.lineAt p.r (List.mem_of_mem_eraseIdx hmem)

theorem Page.press_clean (h : CleanRows p.rows) (hkey : key ≠ .byte 10) :
    CleanRows (p.press key).rows := by
  cases key with
  | byte c =>
    have hc : c ≠ 10 := fun heq => hkey (heq ▸ rfl)
    unfold Page.press
    dsimp only
    by_cases henter : c = ENTER
    · rw [if_pos henter]
      exact Page.newline_clean h
    by_cases hrub : c = BACKSPACE ∨ c = CTRL_H
    · rw [if_neg henter, if_pos hrub]
      exact Page.backspace_clean h
    by_cases hquiet : c ∈ quietKeys
    · rw [if_neg henter, if_neg hrub, if_pos hquiet]
      exact h
    · rw [if_neg henter, if_neg hrub, if_neg hquiet]
      exact Page.put_clean h hc
  | delKey => exact Page.backspace_clean h
  | homeKey => exact Page.put_clean h (by decide)
  | endKey => exact Page.put_clean h (by decide)
  | arrowLeft =>
    rw [Page.press, Page.left]
    split_ifs <;> exact h
  | arrowRight =>
    rw [Page.press, Page.right]
    split_ifs <;> exact h
  | arrowDown =>
    rw [Page.press, Page.down]
    split_ifs <;> exact h
  | arrowUp | pageUp | pageDown => exact h

theorem PageStep.clean (hstep : PageStep q key q') (hkey : key ≠ .byte 10)
    (h : CleanRows q.page.rows) : CleanRows q'.page.rows := by
  cases hstep with
  | press => exact Page.press_clean h hkey
  | pageUp hrows | pageDown hrows | found hrows =>
    rw [hrows]
    exact h
  | find | search | cancel => exact h

theorem chopLine_clean (h : l ∈ getlines content) : 10 ∉ chopLine l := by
  induction content generalizing l with
  | nil => cases h
  | cons c content ih =>
    rw [getlines] at h
    by_cases hc : c = 10
    · rw [if_pos hc] at h
      rcases List.mem_cons.mp h with rfl | hmem
      · rw [hc]
        decide
      · exact ih hmem
    · rw [if_neg hc] at h
      cases hlines : getlines content with
      | nil =>
        rw [hlines] at h
        rw [List.mem_singleton.mp h]
        intro hmem
        have hsub : 10 ∈ [c] := by
          unfold chopLine at hmem
          dsimp only [List.getLast?_singleton] at hmem
          split_ifs at hmem
          · cases hmem
          · exact hmem
        exact hc (List.mem_singleton.mp hsub).symm
      | cons line lines =>
        rw [hlines] at h ih
        rcases List.mem_cons.mp h with rfl | hmem
        · rw [chopLine_cons (getlines_ne_nil (hlines ▸ List.mem_cons_self))]
          intro hmem
          rcases List.mem_cons.mp hmem with heq | hmem
          · exact hc heq.symm
          · exact ih List.mem_cons_self hmem
        · exact ih (List.mem_cons_of_mem line hmem)

theorem openedRows_clean (file : Option (List UInt8)) : CleanRows (openedRows file) := by
  intro l hl
  obtain ⟨line, hline, rfl⟩ := List.mem_map.mp hl
  exact chopLine_clean hline

/-- What is saved after some keys is opened with the same rows, however they are shown, unless a
newline was typed as a byte. -/
theorem kilo_reopened {nrows cols : ℤ} (hrows : 0 < nrows) (hcols : 32 < cols)
    (file : Option (List UInt8)) {calls : List (KiloKey × SaveEnv)} {s : Kilo}
    (h : Exec Kilo.SafeStep (Kilo.start nrows cols file) calls s) (hfind : s.find = none)
    (hraw : ∀ call ∈ calls, call.1 ≠ .byte 10) :
    ∃ s', s.step .written (.byte CTRL_S) = some s' ∧ s'.e.row = s.e.row ∧
      ∀ nrows' cols', (Kilo.start nrows' cols' s'.file).e.row = s.e.row := by
  obtain ⟨q, hrun, hrow⟩ := Kilo.run_rows hrows hcols h
  have hclean : (∀ call ∈ calls, call.1 ≠ .byte 10) → CleanRows q.page.rows := by
    refine hrun.history_invariant (I := fun calls q =>
      (∀ call ∈ calls, call.1 ≠ .byte 10) → CleanRows q.page.rows)
      (fun _ => openedRows_clean file) ?_
    intro calls q call q' ih hstep hno
    exact hstep.clean (hno call (List.mem_append_right _ (List.mem_singleton_self _)))
      (ih fun call' hmem => hno call' (List.mem_append_left _ hmem))
  refine ⟨{ s with
    e := { s.e with dirty := 0 }
    file := some (editorRowsToString s.e)
    quitTimes := KILO_QUIT_TIMES }, ?_, rfl, fun nrows' cols' => ?_⟩
  · obtain ⟨_, -, hshows⟩ := Kilo.run_shows hrows hcols h
    rw [hshows.step_eq, Kilo.processKey, hfind]
    rfl
  · have hopen := editorOpen_eq (e := ⟨0, 0, 0, 0, nrows', cols', [], 0⟩) rfl
      (some (editorRowsToString s.e))
    refine (congrArg EditorConfig.row hopen).trans ?_
    dsimp only
    rw [editorRowsToString_eq hrow, openedRows_flatText (hclean hraw), hrow]

theorem kilo_reopened_joined : ∃ s, Exec Kilo.SafeStep (Kilo.start 2 40 (some [97, 10]))
      [(.byte ENTER, .noOpen), (.byte BACKSPACE, .noOpen), (.byte CTRL_S, .written)] s ∧
    ∃ s', s.step .written (.byte CTRL_S) = some s' ∧ s'.e.row = s.e.row ∧
      ∀ nrows' cols', (Kilo.start nrows' cols' s'.file).e.row = s.e.row := by
  obtain ⟨s, hrun, hfind⟩ := Kilo.joined_run
  have hraw : ∀ call ∈ [((.byte ENTER, .noOpen) : KiloKey × SaveEnv), (.byte BACKSPACE, .noOpen),
      (.byte CTRL_S, .written)], call.1 ≠ .byte 10 := by decide
  exact ⟨s, hrun, kilo_reopened (by decide) (by decide) _ hrun hfind hraw⟩

end Reopening

end JailFs
