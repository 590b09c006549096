import JailFs.Module

/-!
# The commands of `shell.c`

The menus are tables, of which the entries before the empty last one are listed. `shell_command`
copies one byte of the new dictionary where it means to copy the line, so it never finds a word to
store, and it compares the names of the menu with the line as a whole. `shell_get_menu` gives up at
the first entry that has a submenu.
-/

namespace JailFs

inductive ShellHandler
  | cmdClear | cmdConfDump | cmdEdit | cmdReload | cmdRun | cmdShutdown | cmdStats | cmdUser
  deriving DecidableEq

/-- The tables of `struct shell_cmd`. -/
inductive Menu
  | value | conf | cron | db | debug | vfs | logging | memGc | hooks | memBhTuning | memBh | mem
  | module | net | pkg | profiling | thread | main
  deriving DecidableEq

structure ShellCmd where
  cmd : CString
  handler : Option ShellHandler
  menu : Option Menu
  deriving DecidableEq

namespace ShellCmd

def pending (cmd : String) : ShellCmd := ⟨.ofChars cmd.toList, none, none⟩

def handled (cmd : String) (handler : ShellHandler) : ShellCmd :=
  ⟨.ofChars cmd.toList, some handler, none⟩

def sub (cmd : String) (menu : Menu) : ShellCmd := ⟨.ofChars cmd.toList, none, some menu⟩

end ShellCmd

open ShellCmd in
def Menu.entries : Menu → List ShellCmd
  | value => [pending "false", pending "set", pending "show", pending "true"]
  | conf =>
    [handled "dump" .cmdConfDump, pending "load", pending "save", pending "set", pending "show"]
  | cron => [sub "debug" .value, pending "jobs", pending "stop"]
  | db => [sub "debug" .value, pending "dump", pending "purge"]
  | debug => [pending "symtab_lookup"]
  | vfs => [pending "cd", pending "chown", pending "chmod", pending "cp", sub "debug" .value,
      handled "edit" .cmdEdit, pending "less", pending "ls", pending "mv", pending "rm"]
  | logging => []
  | memGc => [sub "debug" .value, pending "now"]
  | hooks => [sub "debug" .value, pending "list", pending "unregister"]
  | memBhTuning => []
  | memBh => [sub "debug" .value, sub "tuning" .memBhTuning]
  | mem => [sub "blockheap" .memBh, sub "debug" .value, sub "gc" .memGc]
  | module => [sub "debug" .value]
  | net => [sub "debug" .value]
  | pkg => [sub "debug" .value, pending "scan"]
  | profiling => [sub "enable" .value, pending "save"]
  | thread => [sub "debug" .value, pending "kill", pending "show", pending "list"]
  | main => [handled "clear" .cmdClear, sub "conf" .conf, sub "cron" .cron, sub "db" .db,
      sub "debug" .debug, sub "hooks" .hooks, sub "logging" .logging, sub "memory" .mem,
      sub "module" .module, sub "net" .net, sub "pkg" .pkg, sub "profiling" .profiling,
      handled "quit" .cmdShutdown, handled "reload" .cmdReload, handled "run" .cmdRun,
      handled "shutdown" .cmdShutdown, handled "stats" .cmdStats, sub "thread" .thread,
      handled "user" .cmdUser, sub "vfs" .vfs]

def mainLevel : CString := .ofChars "main".toList

/-- The loop of `shell_get_menu`. It comes to the last entry, whose name is a null pointer, for no
table with a submenu. -/
def getMenuLoop (level : CString) : List ShellCmd → Option Menu
  | [] => none
  | e :: entries =>
    if e.menu.isSome then none
    else if strcaseEq e.cmd level then e.menu
    else getMenuLoop level entries

def shellGetMenu (level : CString) : Option Menu :=
  if level = mainLevel then some .main else getMenuLoop level Menu.main.entries

/-- `shell_level_set` into the `40` bytes of `shell_level`, the last two of which stay zero. -/
def shellLevelSet (line : CString) : CString := line.take 38

/-- `"%*d"` with the width `11` into `12` bytes. -/
def argKey (i : ℕ) : CString := .ofChars ((List.leftpad 11 ' ' (toString i).toList).take 11)

/-- The memory at `tmp`: zeroed, and then one byte of `args`, which begins with its `fill`. -/
def lineCopy (line : CString) (args : Dict) : List UInt8 :=
  (List.replicate line.length 0).set 0 args.fill.toUInt8

/-- The loop over `strtok(NULL, " ")`. -/
def addWords (env : DictEnv) (fuel : ℕ) : ℕ → List CString → Dict → Option Dict
  | _, [], args => some args
  | i, p :: words, args =>
    match args.add env fuel (some (argKey i)) (some p) with
    | none => none
    | some (args, _) => addWords env fuel (i + 1) words args

/-- The dictionary of `shell_command`. -/
def shellArgs (env : DictEnv) (fuel : ℕ) (line : CString) : Option Dict :=
  let tmp := CString.ofBuffer (lineCopy line .new)
  addWords env fuel 1 ((tokens (· = 32) tmp).drop 1) .new

/-- What a command does other than to change the level. -/
inductive ShellEffect
  | help (menu : Option Menu)
  | editUsage
  | kilo (path : CString)
  | gcAll
  | call (handler : ShellHandler) (args : Dict)
  | valueMenu
  | notImplemented (level line : CString)
  | unknown (line : CString)
  deriving DecidableEq

structure ShellResult where
  level : CString
  ret : ℤ
  effects : List ShellEffect
  -- whether the accesses to `tmp` stay in it
  inBounds : Bool
  deriving DecidableEq

/-- The loop over a menu; it ends at once where the menu is a null pointer. -/
def runMenu (menu : Option Menu) (level line : CString) (args : Dict) :
    CString × List ShellEffect :=
  match ((menu.map Menu.entries).getD []).find? fun e => strcaseEq e.cmd line with
  | none => (level, [.unknown line])
  | some e =>
    match e.menu with
    | some .value => (level, [.valueMenu])
    | some _ => (shellLevelSet line, [])
    | none =>
      match e.handler with
      | some handler => (level, [.call handler args])
      | none => (level, [.notImplemented level line])

/-- The commands of `shell_command` once `args` is filled; `mountpoint` is `path.mountpoint`. -/
def runCommand (mountpoint level line : CString) (args : Dict) : CString × ℤ × List ShellEffect :=
  if strncaseEq line (.ofChars "help".toList) 4 || line.bytes = [63] then
    (level, 0, [.help (shellGetMenu level)])
  else if strncaseEq line (.ofChars "vfs edit".toList) 8 then
    if line.bytes[8]? ≠ some 32 then (level, -1, [.editUsage])
    else
      let file := line.ofSubset (line.bytes.drop 9) (List.drop_subset 9 _)
      (level, 0, [.kilo (snprintfPath file mountpoint)])
  else if strcaseEq line (.ofChars "back".toList) then (shellLevelSet mainLevel, 0, [])
  else if strcaseEq line (.ofChars "shutdown".toList) ||
      strcaseEq line (.ofChars "quit".toList) then
    (level, 0, [.call .cmdShutdown args])
  else if strcaseEq line (.ofChars "conf dump".toList) then
    (level, 0, [.call .cmdConfDump args])
  else if strcaseEq line (.ofChars "gc now".toList) then (level, 0, [.gcAll])
  else
    let (level, effects) := runMenu (shellGetMenu level) level line args
    (level, 0, effects)

def shellCommand (env : DictEnv) (mountpoint : CString) (fuel : ℕ) (level : CString)
    (line : Option CString) : Option ShellResult :=
  match line with
  | none => some ⟨level, -1, [], true⟩
  | some line =>
    (shellArgs env fuel line).map fun args =>
      let (level, ret, effects) := runCommand mountpoint level line args
      ⟨level, ret, effects, 0 < line.length ∧ 0 ∈ lineCopy line .new⟩

end JailFs
