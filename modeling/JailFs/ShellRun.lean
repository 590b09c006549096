import JailFs.History
import JailFs.Shell

/-!
# Levels and menus of the shell

`shell_level` is always `main` or the name of a submenu of the main menu, but the table for it is
found at `main` only. A handler is called with its arguments only where it is given none.
-/

namespace JailFs

variable {a b level line mountpoint : CString} {e : ShellCmd} {m : Menu} {args : Dict}
  {entries : List ShellCmd} {env : DictEnv} {fuel : ℕ}

theorem strcaseEq_congr_left (h : strcaseEq a b) (s : CString) : strcaseEq a s = strcaseEq b s := by
  rw [strcaseEq, strcaseEq, strcaseEq_iff.mp h]

theorem strncaseEq_congr_left (h : strcaseEq a b) (s : CString) (n : ℕ) :
    strncaseEq a s n = strncaseEq b s n := by
  simp only [strncaseEq, List.map_take, strcaseEq_iff.mp h]

theorem lineCopy_new (line : CString) : lineCopy line .new = List.replicate line.length 0 := by
  rw [lineCopy, show (Dict.new.fill.toUInt8 : UInt8) = 0 from rfl]
  exact List.set_replicate_self

theorem shellArgs_eq (env : DictEnv) (fuel : ℕ) (line : CString) :
    shellArgs env fuel line = some .new := by
  have htmp : CString.ofBuffer (lineCopy line .new) = .ofChars [] := by
    apply CString.ext
    rw [lineCopy_new]
    simp [CString.ofBuffer, CString.ofChars]
  rw [shellArgs, htmp]
  rfl

theorem shellCommand_eq : shellCommand env mountpoint fuel level (some line) =
    some ⟨(runCommand mountpoint level line .new).1, (runCommand mountpoint level line .new).2.1,
      (runCommand mountpoint level line .new).2.2,
      0 < line.length ∧ 0 ∈ lineCopy line .new⟩ := by
  rw [shellCommand, shellArgs_eq]
  rfl

/-- The commands that `shell_command` knows without a menu. -/
def isBuiltin (line : CString) : Bool :=
  strncaseEq line (.ofChars "help".toList) 4 || line.bytes.map tolower = [63] ||
    strncaseEq line (.ofChars "vfs edit".toList) 8 || strcaseEq line (.ofChars "back".toList) ||
    strcaseEq line (.ofChars "shutdown".toList) || strcaseEq line (.ofChars "quit".toList) ||
    strcaseEq line (.ofChars "conf dump".toList) || strcaseEq line (.ofChars "gc now".toList)

theorem isBuiltin_congr (h : strcaseEq a b) : isBuiltin a = isBuiltin b := by
  simp only [isBuiltin, strcaseEq_congr_left h, strncaseEq_congr_left h, strcaseEq_iff.mp h]

theorem runCommand_of_not_builtin (h : isBuiltin line = false) :
    runCommand mountpoint level line args =
      ((runMenu (shellGetMenu level) level line args).1, 0,
        (runMenu (shellGetMenu level) level line args).2) := by
  simp only [isBuiltin, Bool.or_eq_false_iff, decide_eq_false_iff_not] at h
  obtain ⟨⟨⟨⟨⟨⟨⟨hhelp, hmark⟩, hedit⟩, hback⟩, hshutdown⟩, hquit⟩, hdump⟩, hgc⟩ := h
  have hbytes : line.bytes ≠ [63] := fun h => hmark (by rw [h]; rfl)
  simp only [runCommand, hhelp, decide_eq_false hbytes, hedit, hback, hshutdown, hquit, hdump, hgc,
    Bool.or_self, Bool.false_eq_true, if_false]

/-- The name of an entry as `strcasecmp` compares it. -/
def ShellCmd.folded (e : ShellCmd) : List UInt8 := e.cmd.bytes.map tolower

theorem strcaseEq_cmd : strcaseEq e.cmd line = decide (e.folded = line.bytes.map tolower) := rfl

theorem find?_of_nodup_map {α β : Type} [DecidableEq β] {f : α → β} {l : List α} {x : α}
    (hl : (l.map f).Nodup) (hx : x ∈ l) : l.find? (fun y => f y = f x) = some x := by
  induction l with
  | nil => cases hx
  | cons y l ih =>
    rw [List.map_cons, List.nodup_cons] at hl
    rcases List.mem_cons.mp hx with rfl | hx
    · simp
    · have hne : f y ≠ f x := fun h => hl.1 (h ▸ List.mem_map_of_mem hx)
      rw [List.find?_cons_of_neg (by simpa using hne)]
      exact ih hl.2 hx

theorem main_folded : Menu.main.entries.map ShellCmd.folded =
    [[99, 108, 101, 97, 114], [99, 111, 110, 102], [99, 114, 111, 110], [100, 98],
      [100, 101, 98, 117, 103], [104, 111, 111, 107, 115], [108, 111, 103, 103, 105, 110, 103],
      [109, 101, 109, 111, 114, 121], [109, 111, 100, 117, 108, 101], [110, 101, 116],
      [112, 107, 103], [112, 114, 111, 102, 105, 108, 105, 110, 103], [113, 117, 105, 116],
      [114, 101, 108, 111, 97, 100], [114, 117, 110], [115, 104, 117, 116, 100, 111, 119, 110],
      [115, 116, 97, 116, 115], [116, 104, 114, 101, 97, 100], [117, 115, 101, 114],
      [118, 102, 115]] := rfl

theorem find_main (he : e ∈ Menu.main.entries) (hname : strcaseEq e.cmd line) :
    Menu.main.entries.find? (fun e' => strcaseEq e'.cmd line) = some e := by
  have hnodup : (Menu.main.entries.map ShellCmd.folded).Nodup := by
    rw [main_folded]
    decide
  rw [← find?_of_nodup_map hnodup he]
  simp only [strcaseEq_cmd, ← strcaseEq_iff.mp hname]
  rfl

theorem getMenuLoop_of_second {f : ShellCmd} (he : e.menu = none) (hf : f.menu.isSome) :
    getMenuLoop level (e :: f :: entries) = none := by
  simp [getMenuLoop, he, hf]

theorem shellGetMenu_eq (level : CString) :
    shellGetMenu level = if level = mainLevel then some .main else none := by
  rw [shellGetMenu, show getMenuLoop level Menu.main.entries = none from
    getMenuLoop_of_second rfl rfl]

theorem runMenu_level (menu : Option Menu) (level line : CString) (args : Dict) :
    (runMenu menu level line args).1 = level ∨ ∃ m, menu = some m ∧ ∃ e ∈ m.entries,
      e.menu.isSome ∧ strcaseEq e.cmd line ∧
        (runMenu menu level line args).1 = shellLevelSet line := by
  rw [runMenu]
  split
  · exact .inl rfl
  · rename_i e hfind
    have hmem := List.mem_of_find?_eq_some hfind
    have hname := List.find?_some hfind
    split
    · exact .inl rfl
    · rename_i hsub
      cases menu with
      | none => cases hmem
      | some m => exact .inr ⟨m, rfl, e, hmem, by simp [hsub], hname, rfl⟩
    · split
      · exact .inl rfl
      · exact .inl rfl

theorem runCommand_level (mountpoint level line : CString) (args : Dict) :
    (runCommand mountpoint level line args).1 = level ∨
      (runCommand mountpoint level line args).1 = mainLevel ∨
      (runCommand mountpoint level line args).1 =
        (runMenu (shellGetMenu level) level line args).1 := by
  rw [runCommand]
  split_ifs
  · exact .inl rfl
  · exact .inl rfl
  · exact .inl rfl
  · exact .inr (.inl rfl)
  · exact .inl rfl
  · exact .inl rfl
  · exact .inl rfl
  · exact .inr (.inr rfl)

/-- The line is the name of a submenu of the main menu. -/
def OpensMenu (line : CString) : Prop :=
  ∃ e ∈ Menu.main.entries, e.menu.isSome ∧ strcaseEq e.cmd line

/-- The levels that there are. -/
def LevelOk (level : CString) : Prop := level = mainLevel ∨ OpensMenu level

/-- The table that belongs to a level. -/
def ownMenu (level : CString) : Option Menu :=
  if level = mainLevel then some .main
  else (Menu.main.entries.find? fun e => e.menu.isSome && strcaseEq e.cmd level).bind ShellCmd.menu

/-- What is expected of a level: it is one that there is, and its own table is found. -/
def ShellContract (level : CString) : Prop :=
  LevelOk level ∧ ∃ m, ownMenu level = some m ∧ shellGetMenu level = some m

theorem shellContract_iff : ShellContract level ↔ level = mainLevel := by
  constructor
  · rintro ⟨-, m, -, hm⟩
    rw [shellGetMenu_eq] at hm
    by_contra hne
    rw [if_neg hne] at hm
    cases hm
  · rintro rfl
    exact ⟨.inl rfl, .main, if_pos rfl, if_pos rfl⟩

theorem shellLevelSet_of_opens (h : OpensMenu line) : shellLevelSet line = line := by
  obtain ⟨e, he, -, hname⟩ := h
  have hlen : ∀ s ∈ Menu.main.entries.map ShellCmd.folded, s.length ≤ 38 := by
    rw [main_folded]
    decide
  have hline := hlen _ (List.mem_map_of_mem he)
  rw [ShellCmd.folded, strcaseEq_iff.mp hname, List.length_map] at hline
  exact CString.take_of_length_le hline

theorem not_opensMenu_main : ¬ OpensMenu mainLevel := by
  rintro ⟨e, he, -, hname⟩
  have hne : mainLevel.bytes.map tolower ∉ Menu.main.entries.map ShellCmd.folded := by
    rw [main_folded]
    decide
  rw [← strcaseEq_iff.mp hname] at hne
  exact hne (List.mem_map_of_mem he)

theorem runCommand_main_opens (h : OpensMenu line) :
    (runCommand mountpoint mainLevel line args).1 = line := by
  have hset := shellLevelSet_of_opens h
  obtain ⟨e, he, hsub, hname⟩ := h
  have htable : ∀ e ∈ Menu.main.entries, e.menu.isSome →
      isBuiltin e.cmd = false ∧ e.menu ≠ some .value := by decide
  obtain ⟨hbuiltin, hvalue⟩ := htable e he hsub
  rw [isBuiltin_congr hname] at hbuiltin
  rw [runCommand_of_not_builtin hbuiltin, shellGetMenu_eq, if_pos rfl]
  obtain ⟨m, hm⟩ := Option.isSome_iff_exists.mp hsub
  simp only [runMenu, Option.map_some, Option.getD_some, find_main he hname, hm]
  split
  · rename_i hval
    exact absurd (hm.trans hval) hvalue
  · exact hset
  · rename_i hnone
    cases hnone

theorem runCommand_main_stays (h : ¬ OpensMenu line) :
    (runCommand mountpoint mainLevel line args).1 = mainLevel := by
  rcases runCommand_level mountpoint mainLevel line args with hl | hl | hl
  · exact hl
  · exact hl
  · rw [hl, shellGetMenu_eq, if_pos rfl]
    rcases runMenu_level (some .main) mainLevel line args with hl | ⟨m, hm, e, he, hsub, hname, -⟩
    · exact hl
    · cases hm
      exact absurd ⟨e, he, hsub, hname⟩ h

theorem runCommand_sub (mountpoint line : CString) (args : Dict) (h : level ≠ mainLevel) :
    (runCommand mountpoint level line args).1 = level ∨
      (runCommand mountpoint level line args).1 = mainLevel := by
  rcases runCommand_level mountpoint level line args with hl | hl | hl
  · exact .inl hl
  · exact .inr hl
  · rw [hl, shellGetMenu_eq, if_neg h]
    exact .inl rfl

/-- One command line. -/
def ShellStep (level line level' : CString) : Prop :=
  ∃ env mountpoint fuel r, shellCommand env mountpoint fuel level (some line) = some r ∧
    r.level = level'

theorem shellStep_iff {level' : CString} : ShellStep level line level' ↔
    ∃ mountpoint, (runCommand mountpoint level line .new).1 = level' := by
  constructor
  · rintro ⟨env, mountpoint, fuel, r, hr, hl⟩
    rw [shellCommand_eq, Option.some_inj] at hr
    rw [← hr] at hl
    exact ⟨mountpoint, hl⟩
  · rintro ⟨mountpoint, hl⟩
    exact ⟨⟨0, true, true, fun _ => true, 0⟩, mountpoint, 0, _, shellCommand_eq, hl⟩

theorem LevelOk.step {level' : CString} (h : LevelOk level) (hstep : ShellStep level line level') :
    LevelOk level' := by
  obtain ⟨mountpoint, rfl⟩ := shellStep_iff.mp hstep
  by_cases hmain : level = mainLevel
  · subst hmain
    by_cases hopens : OpensMenu line
    · rw [runCommand_main_opens hopens]
      exact .inr hopens
    · exact .inl (runCommand_main_stays hopens)
  · rcases runCommand_sub mountpoint line .new hmain with hl | hl
    · rw [hl]
      exact h
    · exact .inl hl

/-- Whatever the lines, the level is one that there is. After every line its table is found exactly
if no line opens a menu. -/
theorem shell_history_iff (lines : List CString) :
    (∀ level, Exec ShellStep mainLevel lines level → LevelOk level) ∧
      (Exec.Meets ShellStep mainLevel
        (fun _ line level => ∀ level', ShellStep level line level' → ShellContract level') lines ↔
          ∀ line ∈ lines, ¬ OpensMenu line) := by
  refine ⟨fun level h => h.invariant (.inl rfl) fun _ _ _ => LevelOk.step, ?_⟩
  rw [← along_const (Q := fun line => ¬ OpensMenu line)]
  refine Exec.meets_iff (R := fun _ level => level = mainLevel) rfl ?_ ?_ ?_
  · rintro pre line level level' rfl hstays hstep
    obtain ⟨mountpoint, rfl⟩ := shellStep_iff.mp hstep
    exact runCommand_main_stays hstays
  · exact fun pre line level _ _ => ⟨_, shellStep_iff.mpr ⟨mainLevel, rfl⟩⟩
  · rintro pre line level rfl
    constructor
    · intro hgood hopens
      have hmain := shellContract_iff.mp (hgood _ (shellStep_iff.mpr ⟨mainLevel, rfl⟩))
      rw [runCommand_main_opens hopens] at hmain
      exact not_opensMenu_main (hmain ▸ hopens)
    · intro hstays level' hstep
      obtain ⟨mountpoint, rfl⟩ := shellStep_iff.mp hstep
      exact shellContract_iff.mpr (runCommand_main_stays hstays)

/-- In the menu `cron`, which is one of the main menu's, the table is not found. -/
theorem shell_menu_not_found :
    ∃ level, Exec ShellStep mainLevel [.ofChars "cron".toList] level ∧ LevelOk level ∧
      ownMenu level = some .cron ∧ shellGetMenu level = none ∧ ¬ ShellContract level := by
  have hopens : OpensMenu (.ofChars "cron".toList) := ⟨.sub "cron" .cron, by decide, rfl, by decide⟩
  have hne : CString.ofChars "cron".toList ≠ mainLevel := by decide
  refine ⟨_, .single (shellStep_iff.mpr ⟨mainLevel, runCommand_main_opens hopens⟩), .inr hopens, ?_,
    (shellGetMenu_eq _).trans (if_neg hne), fun h => hne (shellContract_iff.mp h)⟩
  decide

end JailFs
