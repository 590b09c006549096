import JailFs.ShellRun

/-!
# The calls of handlers

A line with arguments is the name of no entry, since names are compared with the whole line, and in
a submenu there is no table to compare with. So a handler is called for a bare name of the main
menu, and for no other line of those that name one.
-/

namespace JailFs

/-- An argument on a command line. -/
structure Word extends CString where
  ne_nil : bytes ≠ []
  no_space : 32 ∉ bytes

def space : CString := ⟨[32], by decide⟩

def commandLine (name : CString) (words : List Word) : CString :=
  words.foldl (fun line w => line ++ space ++ w.toCString) name

/-- A line that names an entry with a handler in the menu of the level. -/
structure CommandLine (level : CString) where
  menu : Menu
  entry : ShellCmd
  handler : ShellHandler
  name : CString
  words : List Word
  own : ownMenu level = some menu
  mem : entry ∈ menu.entries
  handles : entry.handler = some handler
  named : strcaseEq entry.cmd name

def CommandLine.line {level : CString} (c : CommandLine level) : CString :=
  commandLine c.name c.words

/-- The key under which `cmd_edit` looks for its argument. -/
def decimal (i : ℕ) : CString := .ofChars (toString i).toList

def ShellEffect.call? : ShellEffect → Option (ShellHandler × Dict)
  | call handler args => some (handler, args)
  | _ => none

def ShellResult.calls (r : ShellResult) : List (ShellHandler × Dict) :=
  r.effects.filterMap ShellEffect.call?

/-- What is expected of such a line: one call of the handler, with the words under their numbers,
and no access beyond the copy of the line. -/
def CommandContract (env : DictEnv) (mountpoint : CString) {level : CString}
    (c : CommandLine level) : Prop :=
  ∃ fuel r args, shellCommand env mountpoint fuel level (some c.line) = some r ∧
    r.calls = [(c.handler, args)] ∧
    (∀ (i : ℕ) (h : i < c.words.length), Fuel.Returns (args.get (some (decimal (i + 1))) none)
      (some (c.words.get ⟨i, h⟩).toCString)) ∧ r.inBounds = true

variable {level line name mountpoint : CString} {words : List Word} {args : Dict}
  {e : ShellCmd} {m : Menu} {handler : ShellHandler} {p : ShellHandler × Dict} {env : DictEnv}

theorem runMenu_calls {menu : Option Menu}
    (h : p ∈ (runMenu menu level line args).2.filterMap ShellEffect.call?) :
    ∃ m, menu = some m ∧ ∃ e ∈ m.entries, strcaseEq e.cmd line := by
  rw [runMenu] at h
  split at h
  · simp [ShellEffect.call?] at h
  · rename_i e hfind
    have hmem := List.mem_of_find?_eq_some hfind
    have hname := List.find?_some hfind
    cases menu with
    | none => cases hmem
    | some m => exact ⟨m, rfl, e, hmem, hname⟩

theorem runCommand_calls
    (h : p ∈ (runCommand mountpoint level line args).2.2.filterMap ShellEffect.call?) :
    strcaseEq line (.ofChars "shutdown".toList) ∨ strcaseEq line (.ofChars "quit".toList) ∨
      strcaseEq line (.ofChars "conf dump".toList) ∨
      level = mainLevel ∧ ∃ e ∈ Menu.main.entries, strcaseEq e.cmd line := by
  rw [runCommand] at h
  split_ifs at h with hhelp hedit hspace hback hshutdown hdump hgc
  · simp [ShellEffect.call?] at h
  · simp [ShellEffect.call?] at h
  · simp [ShellEffect.call?] at h
  · simp at h
  · rcases Bool.or_eq_true_iff.mp hshutdown with hs | hs
    · exact .inl hs
    · exact .inr (.inl hs)
  · exact .inr (.inr (.inl hdump))
  · simp [ShellEffect.call?] at h
  · obtain ⟨m, hm, e, he, hname⟩ := runMenu_calls h
    rw [shellGetMenu_eq] at hm
    split_ifs at hm with hmain
    cases hm
    exact .inr (.inr (.inr ⟨hmain, e, he, hname⟩))

theorem commandLine_bytes (name : CString) (hwords : words ≠ []) :
    ∃ rest, (commandLine name words).bytes = name.bytes ++ 32 :: rest := by
  have hprefix (line : CString) (words : List Word) :
      line.bytes <+: (words.foldl (fun line w => line ++ space ++ w.toCString) line).bytes := by
    induction words generalizing line with
    | nil => exact List.prefix_rfl
    | cons w words ih =>
      refine List.IsPrefix.trans ?_ (ih _)
      rw [CString.bytes_append, CString.bytes_append, List.append_assoc]
      exact List.prefix_append _ _
  obtain ⟨w, words, rfl⟩ := List.exists_cons_of_ne_nil hwords
  obtain ⟨rest, hrest⟩ := hprefix (name ++ space ++ w.toCString) words
  refine ⟨w.bytes ++ rest, ?_⟩
  rw [commandLine, List.foldl_cons, ← hrest]
  simp [space]

theorem handled_folded (he : e ∈ m.entries) (hhandler : e.handler.isSome) :
    32 ∉ e.folded ∧ e.folded ≠ [99, 111, 110, 102] ∧
      (m ≠ .main → strcaseEq e.cmd (.ofChars "shutdown".toList) = false ∧
        strcaseEq e.cmd (.ofChars "quit".toList) = false) := by
  have htable : ∀ e ∈ m.entries, e.handler.isSome → 32 ∉ e.folded ∧
      e.folded ≠ [99, 111, 110, 102] ∧
      (m ≠ .main → strcaseEq e.cmd (.ofChars "shutdown".toList) = false ∧
        strcaseEq e.cmd (.ofChars "quit".toList) = false) := by
    cases m <;> decide
  exact htable e he hhandler

theorem ownMenu_ne_main (hlevel : level ≠ mainLevel) (h : ownMenu level = some m) :
    m ≠ .main := by
  rintro rfl
  rw [ownMenu, if_neg hlevel] at h
  obtain ⟨e, hfind, he⟩ := Option.bind_eq_some_iff.mp h
  have htable : ∀ e ∈ Menu.main.entries, e.menu ≠ some .main := by decide
  exact htable e (List.mem_of_find?_eq_some hfind) he

theorem no_call_of_words (he : e ∈ m.entries) (hhandler : e.handler = some handler)
    (hname : strcaseEq e.cmd name) (hwords : words ≠ []) :
    (runCommand mountpoint level (commandLine name words) args).2.2.filterMap
      ShellEffect.call? = [] := by
  obtain ⟨rest, hrest⟩ := commandLine_bytes name hwords
  obtain ⟨hspace, hconf, -⟩ := handled_folded he (by rw [hhandler]; rfl)
  rw [ShellCmd.folded, strcaseEq_iff.mp hname] at hspace hconf
  have hfolded : (commandLine name words).bytes.map tolower =
      name.bytes.map tolower ++ 32 :: rest.map tolower := by
    rw [hrest]
    simp [tolower]
  have hmem : 32 ∈ (commandLine name words).bytes.map tolower := by
    rw [hfolded]
    simp
  refine List.eq_nil_iff_forall_not_mem.mpr fun p hp => ?_
  rcases runCommand_calls hp with hs | hs | hs | ⟨-, e', he', hs⟩
  · rw [strcaseEq_iff.mp hs] at hmem
    exact absurd hmem (by decide)
  · rw [strcaseEq_iff.mp hs] at hmem
    exact absurd hmem (by decide)
  · refine hconf ?_
    have hdump := hfolded.symm.trans (strcaseEq_iff.mp hs)
    have htake := congrArg (List.takeWhile (· ≠ 32)) hdump
    rw [List.takeWhile_append_of_pos (by
      intro c hc
      simpa using fun h : c = 32 => hspace (h ▸ hc)), List.takeWhile_cons_of_neg (by simp),
      List.append_nil] at htake
    exact htake.trans rfl
  · have htable : ∀ s ∈ Menu.main.entries.map ShellCmd.folded, 32 ∉ s := by
      rw [main_folded]
      decide
    rw [← strcaseEq_iff.mp hs] at hmem
    exact htable _ (List.mem_map_of_mem he') hmem

theorem no_call_in_sub (hlevel : level ≠ mainLevel) (hm : m ≠ .main) (he : e ∈ m.entries)
    (hhandler : e.handler = some handler) (hname : strcaseEq e.cmd name) :
    (runCommand mountpoint level name args).2.2.filterMap ShellEffect.call? = [] := by
  obtain ⟨hspace, -, hquit⟩ := handled_folded he (by rw [hhandler]; rfl)
  refine List.eq_nil_iff_forall_not_mem.mpr fun p hp => ?_
  rcases runCommand_calls hp with hs | hs | hs | ⟨hmain, -⟩
  · rw [← strcaseEq_congr_left hname, (hquit hm).1] at hs
    cases hs
  · rw [← strcaseEq_congr_left hname, (hquit hm).2] at hs
    cases hs
  · rw [ShellCmd.folded, strcaseEq_iff.mp hname, strcaseEq_iff.mp hs] at hspace
    exact hspace (by decide)
  · exact hlevel hmain

/-- In the main menu a bare name does, through the menu or as one of the commands before it. -/
theorem call_in_main (he : e ∈ Menu.main.entries) (hhandler : e.handler = some handler)
    (hname : strcaseEq e.cmd name) :
    (runCommand mountpoint mainLevel name args).2.2 = [.call handler args] := by
  have htable : ∀ e ∈ Menu.main.entries, e.handler.isSome → e.menu = none ∧
      (isBuiltin e.cmd = false ∨ e.handler = some .cmdShutdown ∧
        strncaseEq e.cmd (.ofChars "help".toList) 4 = false ∧ e.folded ≠ [63] ∧
        strncaseEq e.cmd (.ofChars "vfs edit".toList) 8 = false ∧
        strcaseEq e.cmd (.ofChars "back".toList) = false ∧
        (strcaseEq e.cmd (.ofChars "shutdown".toList) ||
          strcaseEq e.cmd (.ofChars "quit".toList)) = true) := by decide
  obtain ⟨hmenu, hbuiltin | ⟨hshutdown, hhelp, hmark, hedit, hback, hquit⟩⟩ :=
    htable e he (by rw [hhandler]; rfl)
  · rw [isBuiltin_congr hname] at hbuiltin
    rw [runCommand_of_not_builtin hbuiltin, shellGetMenu_eq, if_pos rfl]
    simp only [runMenu, Option.map_some, Option.getD_some, find_main he hname, hmenu, hhandler]
  · rw [hhandler, Option.some_inj] at hshutdown
    rw [strncaseEq_congr_left hname] at hhelp hedit
    rw [strcaseEq_congr_left hname] at hback hquit
    rw [strcaseEq_congr_left hname] at hquit
    have hbytes : name.bytes ≠ [63] := by
      intro h
      refine hmark ((strcaseEq_iff.mp hname).trans ?_)
      rw [h]
      rfl
    simp only [runCommand, hhelp, decide_eq_false hbytes, hedit, hback, hquit, hshutdown,
      Bool.or_self, Bool.false_eq_true, if_false, if_true]

theorem CommandContract.called {level : CString} {c : CommandLine level}
    (h : CommandContract env mountpoint c) :
    (runCommand mountpoint level c.line .new).2.2.filterMap ShellEffect.call? ≠ [] := by
  obtain ⟨fuel, r, args, hr, hcalls, -⟩ := h
  rw [shellCommand_eq, Option.some_inj] at hr
  rw [← hr, ShellResult.calls] at hcalls
  simp [hcalls]

theorem CommandContract.words_eq_nil {level : CString} {c : CommandLine level}
    (h : CommandContract env mountpoint c) : c.words = [] := by
  by_contra hwords
  exact h.called (no_call_of_words c.mem c.handles c.named hwords)

theorem command_contract_iff (env : DictEnv) (mountpoint : CString) {level : CString}
    (c : CommandLine level) :
    CommandContract env mountpoint c ↔ c.words = [] ∧ level = mainLevel := by
  constructor
  · intro h
    have hcall := h.called
    refine ⟨h.words_eq_nil, ?_⟩
    by_contra hlevel
    rw [CommandLine.line, h.words_eq_nil] at hcall
    exact hcall (no_call_in_sub hlevel (ownMenu_ne_main hlevel c.own) c.mem c.handles c.named)
  · rintro ⟨hwords, rfl⟩
    have hmain : c.menu = .main := Option.some.inj (c.own.symm.trans (if_pos rfl))
    have he := c.mem
    rw [hmain] at he
    have hline : c.line = c.name := by rw [CommandLine.line, hwords]; rfl
    refine ⟨0, _, .new, shellCommand_eq, ?_, ?_, ?_⟩
    · rw [ShellResult.calls, hline, call_in_main he c.handles c.named]
      rfl
    · intro i hi
      rw [hwords] at hi
      cases hi
    · have hpos : 0 < c.name.length := by
        have hne : ([] : List UInt8) ∉ Menu.main.entries.map ShellCmd.folded := by
          rw [main_folded]
          decide
        refine List.length_pos_iff.mpr fun h => hne ?_
        have hfolded : c.entry.folded = [] := (strcaseEq_iff.mp c.named).trans (by rw [h]; rfl)
        rw [← hfolded]
        exact List.mem_map_of_mem he
      rw [hline, lineCopy_new]
      exact decide_eq_true ⟨hpos, List.mem_replicate.mpr ⟨hpos.ne', rfl⟩⟩

/-- `edit motd` in the menu `vfs`, where `cmd_edit` would look for the file. -/
def editLine : CommandLine (.ofChars "vfs".toList) where
  menu := .vfs
  entry := .handled "edit" .cmdEdit
  handler := .cmdEdit
  name := .ofChars "edit".toList
  words := [⟨.ofChars "motd".toList, by decide, by decide⟩]
  own := by decide
  mem := by decide
  handles := rfl
  named := by decide

/-- `stats all` in the main menu. -/
def statsLine : CommandLine mainLevel where
  menu := .main
  entry := .handled "stats" .cmdStats
  handler := .cmdStats
  name := .ofChars "stats".toList
  words := [⟨.ofChars "all".toList, by decide, by decide⟩]
  own := rfl
  mem := by decide
  handles := rfl
  named := by decide

/-- With an argument neither line calls its handler. -/
theorem no_handler_with_argument :
    (runCommand mainLevel mainLevel statsLine.line .new).2.2 = [.unknown statsLine.line] ∧
      ¬ CommandContract ⟨0, true, true, fun _ => true, 0⟩ mainLevel statsLine ∧
      ¬ CommandContract ⟨0, true, true, fun _ => true, 0⟩ mainLevel editLine := by
  refine ⟨rfl, fun h => ?_, fun h => ?_⟩
  · exact List.cons_ne_nil _ _ h.words_eq_nil
  · exact List.cons_ne_nil _ _ h.words_eq_nil

end JailFs
