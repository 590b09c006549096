import JailFs.Fuel
import JailFs.ShellRun

/-!
# Completion in the shell

`shell_completion` walks over the table of the level as long as the address of an entry is not
`NULL`, and over the table of a submenu in the same way, where it takes the entry with the index of
the outer loop. Neither walk looks for the empty entry at the end of a table.
-/

namespace JailFs

/-- An entry whose command is not one: the empty entry at the end of a table, or one behind it. -/
inductive TableFault
  | sentinel
  | pastEnd
  deriving DecidableEq

def Menu.entryAt (menu : Menu) (i : ℕ) : Except TableFault ShellCmd :=
  match menu.entries[i]? with
  | some e => .ok e
  | none => .error (if i = menu.entries.length then .sentinel else .pastEnd)

/-- `strncasecmp(buf, cmd, strlen(buf)) == 0` -/
def completes (buf cmd : CString) : Bool := strncaseEq buf cmd buf.length

def withLevel (level cmd : CString) : CString := level ++ .ofChars [' '] ++ cmd

/-- The loop over a submenu, which adds to `lc` in each of its rounds. -/
def submenuLoop (level : CString) (submenu : Menu) (i : ℕ) :
    ℕ → List CString → Option (Except TableFault (List CString))
  | 0, _ => none
  | fuel + 1, lc =>
    match submenu.entryAt i with
    | .error e => some (.error e)
    | .ok e => submenuLoop level submenu i fuel (lc ++ [(withLevel level e.cmd).take 126])

def completionLoop (buf level : CString) (menu : Menu) :
    ℕ → ℕ → List CString → Option (Except TableFault (List CString))
  | 0, _, _ => none
  | fuel + 1, i, lc =>
    match menu.entryAt i with
    | .error e => some (.error e)
    | .ok e =>
      if completes buf e.cmd then
        match e.menu with
        | none => completionLoop buf level menu fuel (i + 1) (lc ++ [e.cmd])
        | some submenu =>
          match submenuLoop level submenu i fuel (lc ++ [e.cmd]) with
          | none => none
          | some (.error e) => some (.error e)
          | some (.ok lc) => completionLoop buf level menu fuel (i + 1) lc
      else completionLoop buf level menu fuel (i + 1) lc

def shellExtras (buf : CString) : List CString :=
  if completes buf (.ofChars "gc now".toList) then [.ofChars "gc now".toList]
  else if completes buf (.ofChars "conf dump".toList) then [.ofChars "conf dump".toList]
  else if completes buf (.ofChars "back".toList) then [.ofChars "back".toList]
  else if completes buf (.ofChars "help".toList) then [.ofChars "help".toList]
  else if completes buf (.ofChars "vfs ".toList) then
    [.ofChars "vfs".toList, .ofChars "vfs edit".toList]
  else []

/-- The completions that are added; the loop ends at once where the menu is a null pointer. -/
def shellCompletion (level buf : CString) (fuel : ℕ) :
    Option (Except TableFault (List CString)) :=
  match shellGetMenu level with
  | none => some (.ok (shellExtras buf))
  | some menu => (completionLoop buf level menu fuel 0 []).map (Except.map (· ++ shellExtras buf))

def entryCompletions (level buf : CString) (e : ShellCmd) : List CString :=
  if completes buf e.cmd then
    e.cmd :: ((e.menu.map Menu.entries).getD []).map fun s => withLevel level s.cmd
  else []

def expectedCompletions (level buf : CString) : List CString :=
  (((ownMenu level).map Menu.entries).getD []).flatMap (entryCompletions level buf) ++
    shellExtras buf

def CompletionContract (level buf : CString) : Prop :=
  ∃ lc, Fuel.Returns (shellCompletion level buf) (.ok lc) ∧ lc.Perm (expectedCompletions level buf)

section Completion

variable {level buf : CString} {menu submenu : Menu} {fuel i : ℕ} {lc lc' : List CString}

theorem submenuLoop_ne_ok : submenuLoop level submenu i fuel lc ≠ some (.ok lc') := by
  induction fuel generalizing lc with
  | zero => simp [submenuLoop]
  | succ fuel ih =>
    rw [submenuLoop]
    cases submenu.entryAt i with
    | error e => simp
    | ok e => exact ih

theorem completionLoop_ne_ok : completionLoop buf level menu fuel i lc ≠ some (.ok lc') := by
  induction fuel generalizing i lc with
  | zero => simp [completionLoop]
  | succ fuel ih =>
    rw [completionLoop]
    cases menu.entryAt i with
    | error e => simp
    | ok e =>
      simp only
      split_ifs with hmatch
      · cases e.menu with
        | none => exact ih
        | some submenu =>
          simp only
          split
          · simp
          · simp
          · rename_i hsub
            exact absurd hsub submenuLoop_ne_ok
      · exact ih

theorem not_returns_main : ¬ Fuel.Returns (shellCompletion mainLevel buf) (.ok lc) := by
  rintro ⟨fuel, h⟩
  have hmenu : shellGetMenu mainLevel = some .main := if_pos rfl
  simp only [shellCompletion, hmenu, Option.map_eq_some_iff] at h
  obtain ⟨r, hloop, hr⟩ := h
  cases r with
  | error e => cases hr
  | ok lc' => exact completionLoop_ne_ok hloop

theorem shellCompletion_sub (h : level ≠ mainLevel) :
    shellCompletion level buf fuel = some (.ok (shellExtras buf)) := by
  rw [shellCompletion, shellGetMenu_eq, if_neg h]

theorem entryCompletions_eq_nil_iff {e : ShellCmd} :
    entryCompletions level buf e = [] ↔ completes buf e.cmd = false := by
  rw [entryCompletions]
  cases completes buf e.cmd <;> simp

/-- The extras alone are what is expected exactly if no command of the menu completes the text. -/
theorem extras_perm_iff : (shellExtras buf).Perm (expectedCompletions level buf) ↔
    ∀ m, ownMenu level = some m → ∀ e ∈ m.entries, completes buf e.cmd = false := by
  have hnil : (shellExtras buf).Perm (expectedCompletions level buf) ↔
      (((ownMenu level).map Menu.entries).getD []).flatMap (entryCompletions level buf) = [] := by
    constructor
    · intro h
      have hlen := h.length_eq
      rw [expectedCompletions, List.length_append] at hlen
      exact List.length_eq_zero_iff.mp (by omega)
    · intro h
      rw [expectedCompletions, h, List.nil_append]
  rw [hnil, List.flatMap_eq_nil_iff]
  simp only [entryCompletions_eq_nil_iff]
  cases ownMenu level with
  | none => simp
  | some m => simp

/-- A call adds what is expected exactly outside the main menu, where its menu is not found, and if
no command of that menu completes the text. -/
theorem completionContract_iff (level buf : CString) : CompletionContract level buf ↔
    level ≠ mainLevel ∧ ∀ m, ownMenu level = some m → ∀ e ∈ m.entries,
      completes buf e.cmd = false := by
  rw [← extras_perm_iff]
  constructor
  · rintro ⟨lc, hreturns, hperm⟩
    by_cases hmain : level = mainLevel
    · subst hmain
      exact absurd hreturns not_returns_main
    · obtain ⟨fuel, h⟩ := hreturns
      rw [shellCompletion_sub hmain] at h
      cases h
      exact ⟨hmain, hperm⟩
  · rintro ⟨hmain, hperm⟩
    exact ⟨_, ⟨0, shellCompletion_sub hmain⟩, hperm⟩

/-- The shell has just been started, and `q` is typed. -/
theorem completion_runs_off : ¬ ∀ (lines : List CString) (level buf : CString),
    Exec ShellStep mainLevel lines level → CompletionContract level buf := by
  intro h
  obtain ⟨lc, hreturns, -⟩ := h [] mainLevel (.ofChars ['q']) (.nil _)
  exact not_returns_main hreturns

end Completion

end JailFs
