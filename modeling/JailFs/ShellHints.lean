import JailFs.BlockHeapRun
import JailFs.ShellRun

/-!
# Hints in the shell

`shell_hints` takes an element of `heap_shell_hints` before it looks for a hint, and it keeps the
element when it finds none. What is written into the elements is kept apart from the bytes of the
heap.
-/

namespace JailFs

def HINT_RED : ℤ := 31

def HINT_GREEN : ℤ := 32

def HINT_YELLOW : ℤ := 33

def HINT_CYAN : ℤ := 36

def SHELL_HINT_MAX : ℕ := 120

/-- What else an entry of a menu tells: the members `desc`, `color` and `bold`. -/
structure MenuText where
  desc : String
  color : ℤ
  bold : ℤ

def cyan (desc : String) : MenuText := ⟨desc, HINT_CYAN, 1⟩

def Menu.texts : Menu → List MenuText
  | value => [cyan "Set false", cyan "Set value", cyan "Show state", cyan "Set true"]
  | conf =>
    [cyan "Dump config values", cyan "Load saved config file", cyan "Write config file",
      cyan "Set config value", cyan "Get config value"]
  | cron =>
    [⟨"show/toggle debugging status", HINT_RED, 0⟩, cyan "Show scheduled events",
      cyan "Stop a scheduled event"]
  | db =>
    [⟨"show/toggle debugging status", HINT_RED, 0⟩, cyan "Dump the database to .sql file",
      cyan "Re-initialize the database"]
  | debug => [cyan "Lookup a symbol in the symtab"]
  | vfs =>
    [cyan "Change directory", cyan "Change file/dir ownership in jail",
      cyan "Change file/dir permissions in jail", cyan "Copy file in jail",
      cyan "Show/toggle debugging status", ⟨"Edit text file in kilo", HINT_GREEN, 1⟩,
      cyan "Show contents of a file (with pager)", cyan "Display directory listing",
      ⟨"Move file/dir in jail", HINT_RED, 0⟩, ⟨"Remove file/directory in jail", HINT_RED, 0⟩]
  | logging => []
  | memGc => [cyan "show/toggle debugging status", cyan "Run garbage collection now"]
  | hooks =>
    [⟨"show/toggle debugging status", HINT_RED, 0⟩, cyan "List registered hooks",
      ⟨"Unregister a hook", HINT_RED, 0⟩]
  | memBhTuning => []
  | memBh => [cyan "show/toggle debugging status", cyan "Tuning knobs"]
  | mem =>
    [cyan "BlockHeap allocator", cyan "show/toggle debugging status", cyan "Garbage collector"]
  | module => [cyan "show/toggle debugging status"]
  | net => [cyan "show/toggle debugging status"]
  | pkg => [cyan "show/toggle debugging status", cyan "Scan package pool and add to database"]
  | profiling => [cyan "show/toggle profiling status", cyan "Save profiling data to disk"]
  | thread =>
    [cyan "show/toggle debugging status", ⟨"Kill a thread", HINT_RED, 0⟩,
      cyan "Show details about thread", cyan "List running threads"]
  | main =>
    [cyan "Clear screen", cyan "Configuration keys", cyan "Periodic event scheduler",
      cyan "Database admin", cyan "Built-in debugger", cyan "Hooks management", cyan "Log file",
      cyan "Memory manager", cyan "Loadable module support", cyan "Network",
      cyan "Package commands", cyan "Profiling support", ⟨"Alias to shutdown", HINT_RED, 1⟩,
      cyan "Reload configuration", ⟨"Start the container (if autorun disabled)", HINT_GREEN, 1⟩,
      ⟨"Terminate the service", HINT_RED, 1⟩, cyan "Display statistics", cyan "Thread manager",
      ⟨"User manager", HINT_YELLOW, 0⟩, cyan "Virtual FileSystem (VFS)"]

/-- A message with its color. -/
structure Hint where
  msg : CString
  color : ℤ
  bold : ℤ
  deriving DecidableEq

/-- The first five tests of `shell_hints`. -/
def staticHint (buf : CString) : Option Hint :=
  if strncaseEq buf (.ofChars "gc now".toList) 6 then
    some ⟨.ofChars " - run garbage collector now".toList, HINT_YELLOW, 1⟩
  else if strncaseEq buf (.ofChars "conf dump".toList) 9 then
    some ⟨.ofChars " - dump active configuration file".toList, HINT_YELLOW, 1⟩
  else if strncaseEq buf (.ofChars "back".toList) 4 then
    some ⟨.ofChars " - go to previous menu".toList, HINT_GREEN, 1⟩
  else if strncaseEq buf (.ofChars "help".toList) 4 then
    some ⟨.ofChars " - display help text".toList, HINT_GREEN, 1⟩
  else if strncaseEq buf (.ofChars "vfs edit".toList) 8 then
    some ⟨.ofChars " - edit text file".toList, HINT_YELLOW, 1⟩
  else none

/-- The loop over the menu; it ends at once where the menu is a null pointer. -/
def menuHint (menu : Option Menu) (buf : CString) : Option Hint :=
  ((menu.map fun m => m.entries.zip m.texts).getD []).findSome? fun (e, text) =>
    if strncaseEq e.cmd buf e.cmd.length then
      some ⟨(.ofChars (" - " ++ text.desc).toList : CString).take (SHELL_HINT_MAX - 1), text.color,
        text.bold⟩
    else none

/-- The heap afterwards, and the element with the hint in it; `none` is `NULL`. -/
def shellHints (h : BlockHeap) (env : BlockEnv) (level buf : CString) :
    Except HeapError (BlockHeap × Option (ℕ × Hint)) :=
  let menu := shellGetMenu level
  if buf.length < 2 then .ok (h, none)
  else do
    let (h, msg) ← blockheapAlloc h env
    .ok (h, ((staticHint buf).or (menuHint menu buf)).map fun hint => (msg, hint))

def shellHintsFree (h : BlockHeap) (buf : Option ℕ) : Except HeapError BlockHeap :=
  (blockheapFree h buf).map Prod.fst

/-- The texts that have a hint whatever the menu. -/
def staticTexts : List CString :=
  [.ofChars "gc now".toList, .ofChars "conf dump".toList, .ofChars "back".toList,
    .ofChars "help".toList, .ofChars "vfs edit".toList]

/-- The text begins with one of the five, or in the main menu with the name of an entry. -/
def HasHint (level buf : CString) : Prop :=
  (∃ s ∈ staticTexts, strncaseEq buf s s.length) ∨
    level = mainLevel ∧ ∃ e ∈ Menu.main.entries, strncaseEq e.cmd buf e.cmd.length

instance (level buf : CString) : Decidable (HasHint level buf) :=
  inferInstanceAs (Decidable (_ ∨ _))

section Hint

variable {level buf : CString} {m : Menu}

theorem length_texts (m : Menu) : m.texts.length = m.entries.length := by cases m <;> rfl

theorem staticHint_isSome : (staticHint buf).isSome ↔
    ∃ s ∈ staticTexts, strncaseEq buf s s.length := by
  have hall : (∃ s ∈ staticTexts, strncaseEq buf s s.length) ↔
      strncaseEq buf (.ofChars "gc now".toList) 6 ∨ strncaseEq buf (.ofChars "conf dump".toList) 9 ∨
      strncaseEq buf (.ofChars "back".toList) 4 ∨ strncaseEq buf (.ofChars "help".toList) 4 ∨
      strncaseEq buf (.ofChars "vfs edit".toList) 8 := by
    simp only [staticTexts, List.exists_mem_cons_iff, List.not_mem_nil, false_and, exists_false,
      or_false]
    rfl
  rw [hall, staticHint]
  split_ifs <;> simp_all

theorem menuHint_some_isSome :
    (menuHint (some m) buf).isSome ↔ ∃ e ∈ m.entries, strncaseEq e.cmd buf e.cmd.length := by
  have hfst : (m.entries.zip m.texts).map Prod.fst = m.entries :=
    List.map_fst_zip (length_texts m).ge
  rw [menuHint, Option.map_some, Option.getD_some, List.findSome?_isSome_iff]
  constructor
  · rintro ⟨⟨e, text⟩, hmem, hsome⟩
    refine ⟨e, hfst ▸ List.mem_map_of_mem hmem, ?_⟩
    by_contra hno
    simp only [if_neg hno] at hsome
    cases hsome
  · rintro ⟨e, he, hbegins⟩
    rw [← hfst, List.mem_map] at he
    obtain ⟨⟨e, text⟩, hmem, rfl⟩ := he
    have hsome : strncaseEq e.cmd buf e.cmd.length = true := hbegins
    exact ⟨(e, text), hmem, by simp [hsome]⟩

theorem hint_isSome_iff :
    ((staticHint buf).or (menuHint (shellGetMenu level) buf)).isSome ↔ HasHint level buf := by
  rw [Option.isSome_or, Bool.or_eq_true, staticHint_isSome, HasHint, shellGetMenu_eq]
  split_ifs with hmain
  · rw [menuHint_some_isSome]
    simp [hmain]
  · simp [hmain, menuHint]

end Hint

/-- The hints of the shell: their heap, the level, and the hints that were returned and not given
back. -/
structure HintState where
  heap : BlockHeap
  level : CString
  returned : List ℕ

inductive HintCall
  | hints (env : BlockEnv) (level buf : CString)
  | free (msg : ℕ)
  | garbagecollect
  | command (line : CString)

inductive HintStep : HintState → HintCall → HintState → Prop
  | hints {s : HintState} {env : BlockEnv} {buf : CString} {h : BlockHeap} {r : Option (ℕ × Hint)}
      (hvalid : env.Valid s.heap) (hrun : shellHints s.heap env s.level buf = .ok (h, r)) :
      HintStep s (.hints env s.level buf) ⟨h, s.level, (r.map Prod.fst).toList ++ s.returned⟩
  | free {s : HintState} {msg : ℕ} {h : BlockHeap} (hmsg : msg ∈ s.returned)
      (hrun : shellHintsFree s.heap (some msg) = .ok h) :
      HintStep s (.free msg) ⟨h, s.level, s.returned.erase msg⟩
  | garbagecollect {s : HintState} {h : BlockHeap} (hrun : blockheapGarbagecollect s.heap = .ok h) :
      HintStep s .garbagecollect ⟨h, s.level, s.returned⟩
  | command {s : HintState} {line level : CString} (hstep : ShellStep s.level line level) :
      HintStep s (.command line) ⟨s.heap, level, s.returned⟩

/-- A call that takes an element and finds no hint. -/
def HintCall.leaks : HintCall → Bool
  | .hints _ level buf => 2 ≤ buf.length && !decide (HasHint level buf)
  | _ => false

/-- After these calls the elements in use are the hints not given back, and one more for each call
that found none. -/
def HintInv (calls : List HintCall) (s : HintState) : Prop :=
  ∃ lost chain seq, s.heap.Inv chain seq (s.returned ++ lost) ∧
    lost.length = calls.countP HintCall.leaks

section Run

variable {s t : HintState} {calls : List HintCall} {c : HintCall} {h h' : BlockHeap}
  {env : BlockEnv} {level buf : CString} {r : Option (ℕ × Hint)} {chain out out' : List ℕ}
  {seq : BlockList → List ℕ}

theorem BlockHeap.Inv.perm (hinv : h.Inv chain seq out) (hperm : out'.Perm out) :
    h.Inv chain seq out' := { hinv with out := hperm.trans hinv.out }

/-- What a call does: nothing for a short text, and otherwise it hands out an element, in which it
returns the hint if there is one. -/
theorem shellHints_cases (hinv : h.Inv chain seq out) (hvalid : env.Valid h)
    (hrun : shellHints h env level buf = .ok (h', r)) :
    (buf.length < 2 ∧ h' = h ∧ r = none) ∨
    (2 ≤ buf.length ∧ ∃ p, (∃ chain' seq', h'.Inv chain' seq' (p :: out)) ∧
      r.map Prod.fst = if HasHint level buf then some p else none) := by
  unfold shellHints at hrun
  by_cases hlen : buf.length < 2
  · rw [if_pos hlen] at hrun
    cases hrun
    exact .inl ⟨hlen, rfl, rfl⟩
  · rw [if_neg hlen] at hrun
    cases halloc : blockheapAlloc h env with
    | error e =>
      rw [halloc] at hrun
      cases hrun
    | ok taken =>
      obtain ⟨h₁, p⟩ := taken
      rw [halloc] at hrun
      cases hrun
      refine .inr ⟨not_lt.mp hlen, p, (BlockHeap.blockheapAlloc_ok hinv hvalid halloc).2.1, ?_⟩
      by_cases hhint : HasHint level buf
      · obtain ⟨hint, hsome⟩ := Option.isSome_iff_exists.mp (hint_isSome_iff.mpr hhint)
        rw [if_pos hhint, hsome]
        rfl
      · rw [if_neg hhint, Option.not_isSome_iff_eq_none.mp (mt hint_isSome_iff.mp hhint)]
        rfl

theorem HintInv.step (h : HintInv calls s) (hstep : HintStep s c t) : HintInv (calls ++ [c]) t := by
  obtain ⟨lost, chain, seq, hinv, hlen⟩ := h
  rw [HintInv, List.countP_append, ← hlen]
  cases hstep with
  | @hints env buf h r hvalid hrun =>
    rcases shellHints_cases hinv hvalid hrun with
      ⟨hshort, rfl, rfl⟩ | ⟨hlong, p, ⟨chain', seq', hinv'⟩, hr⟩
    · refine ⟨lost, chain, seq, hinv, ?_⟩
      simp [HintCall.leaks, hshort]
    · rw [hr]
      by_cases hhint : HasHint s.level buf
      · rw [if_pos hhint]
        refine ⟨lost, chain', seq', hinv', ?_⟩
        simp [HintCall.leaks, hhint]
      · rw [if_neg hhint]
        refine ⟨p :: lost, chain', seq', hinv'.perm List.perm_middle, ?_⟩
        simp [HintCall.leaks, hhint, hlong]
  | @free msg h hmsg hrun =>
    have hout : msg ∈ s.returned ++ lost := List.mem_append_left _ hmsg
    obtain ⟨h', seq', hfree, hinv', -⟩ := BlockHeap.blockheapFree_spec hinv hout
    rw [shellHintsFree, hfree] at hrun
    cases hrun
    rw [List.erase_append_left _ hmsg] at hinv'
    exact ⟨lost, chain, seq', hinv', rfl⟩
  | garbagecollect hrun =>
    obtain ⟨h', chain', seq', hgc, hinv', -⟩ := BlockHeap.blockheapGarbagecollect_spec hinv
    rw [hrun] at hgc
    cases hgc
    exact ⟨lost, chain', seq', hinv', rfl⟩
  | command hstep => exact ⟨lost, chain, seq, hinv, rfl⟩

variable {mem h₀ : BlockHeap} {env₀ : BlockEnv}

theorem hintInv_of_run (hcreate : blockheapCreate SHELL_HINT_MAX 32 mem env₀ = .ok h₀)
    (hrun : Exec HintStep ⟨h₀, mainLevel, []⟩ calls s) : HintInv calls s := by
  have hinit : HintInv [] ⟨h₀, mainLevel, []⟩ := by
    obtain ⟨chain, seq, hinv⟩ := BlockHeap.blockheapCreate_inv hcreate
    exact ⟨[], chain, seq, hinv, rfl⟩
  exact hrun.history_invariant hinit fun _ _ _ _ h hstep => h.step hstep

theorem HintInv.used_iff (h : HintInv calls s) :
    (blockheapUsage s.heap).1 = s.returned.length ↔ ∀ c ∈ calls, c.leaks = false := by
  obtain ⟨lost, chain, seq, hinv, hlen⟩ := h
  rw [hinv.used_eq, List.length_append, hlen, Nat.add_eq_left, List.countP_eq_zero]
  simp only [Bool.not_eq_true]

/-- After every run the elements in use are as many as the hints that were returned and not given
back exactly if each call was for a text of less than two bytes or found a hint. -/
theorem hints_outstanding_iff (hcreate : blockheapCreate SHELL_HINT_MAX 32 mem env₀ = .ok h₀)
    (hrun : Exec HintStep ⟨h₀, mainLevel, []⟩ calls s) :
    (blockheapUsage s.heap).1 = s.returned.length ↔ ∀ c ∈ calls, c.leaks = false :=
  (hintInv_of_run hcreate hrun).used_iff

def hintEnv : BlockEnv := ⟨some 256, some (4096, 8192)⟩

theorem hintEnv_alloc : ∃ h₀ h p, blockheapCreate SHELL_HINT_MAX 32 zeroMem hintEnv = .ok h₀ ∧
    blockheapAlloc h₀ noEnv = .ok (h, p) := ⟨_, _, _, rfl, rfl⟩

/-- A hint for `quit`, which is then given back. -/
theorem hints_outstanding_quit : ∃ h₀ s p,
    blockheapCreate SHELL_HINT_MAX 32 zeroMem hintEnv = .ok h₀ ∧
      Exec HintStep ⟨h₀, mainLevel, []⟩
        ([.hints noEnv mainLevel (.ofChars "quit".toList)] ++ [.free p]) s ∧
      (blockheapUsage s.heap).1 = s.returned.length := by
  obtain ⟨h₀, h, p, hcreate, halloc⟩ := hintEnv_alloc
  obtain ⟨chain, seq, hinv⟩ := BlockHeap.blockheapCreate_inv hcreate
  obtain ⟨-, ⟨chain', seq', hinv'⟩, -⟩ :=
    BlockHeap.blockheapAlloc_ok hinv (noEnv_valid h₀) halloc
  have hhint : shellHints h₀ noEnv mainLevel (.ofChars "quit".toList) = .ok (h, some (p,
      ⟨.ofChars " - Alias to shutdown".toList, HINT_RED, 1⟩)) := by
    rw [shellHints, if_neg (by decide), halloc]
    rfl
  obtain ⟨h', seq'', hfree, -⟩ := BlockHeap.blockheapFree_spec hinv' List.mem_cons_self
  have hback : shellHintsFree h (some p) = .ok h' := by
    rw [shellHintsFree, hfree]
    rfl
  have hrun := (Exec.single (HintStep.hints (s := ⟨h₀, mainLevel, []⟩) (noEnv_valid h₀)
    hhint)).snoc (.free List.mem_cons_self hback)
  refine ⟨h₀, _, p, hcreate, hrun, (hints_outstanding_iff hcreate hrun).mpr fun c hc => ?_⟩
  simp only [List.cons_append, List.nil_append, List.mem_cons, List.not_mem_nil, or_false] at hc
  rcases hc with rfl | rfl
  · decide
  · rfl

/-- No hint is found for `xy`. -/
theorem hints_leak : ¬ ∀ (h₀ : BlockHeap) (calls : List HintCall) (s : HintState),
    blockheapCreate SHELL_HINT_MAX 32 zeroMem hintEnv = .ok h₀ →
    Exec HintStep ⟨h₀, mainLevel, []⟩ calls s →
    (blockheapUsage s.heap).1 = s.returned.length := by
  intro hall
  obtain ⟨h₀, h, p, hcreate, halloc⟩ := hintEnv_alloc
  have hnone : shellHints h₀ noEnv mainLevel (.ofChars "xy".toList) = .ok (h, none) := by
    rw [shellHints, if_neg (by decide), halloc]
    rfl
  have hrun := Exec.single (HintStep.hints (s := ⟨h₀, mainLevel, []⟩) (noEnv_valid h₀) hnone)
  have hleaks : (HintCall.hints noEnv mainLevel (.ofChars "xy".toList)).leaks = false :=
    (hintInv_of_run hcreate hrun).used_iff.mp (hall h₀ _ _ hcreate hrun) _ List.mem_cons_self
  revert hleaks
  decide

end Run

end JailFs
