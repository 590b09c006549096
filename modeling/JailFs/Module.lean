import JailFs.ConfLoad
import JailFs.LsdListRun

/-!
# The module registry of `module.c`

`module_load` puts a copy of the library's record on the list `Modules`, with the size of a pointer
for its length: the copy holds the name pointer and nothing else. `module_unload` closes the library
and leaves the copy. `module_find` walks over the copies and compares the names they point to, so
every copy that is met has to point to a name that can still be read, and the one that is returned
is read past its end.
-/

namespace JailFs

/-- `strcasecmp(a, b) == 0` -/
def strcaseEq (a b : CString) : Bool := a.bytes.map tolower = b.bytes.map tolower

theorem strcaseEq_iff {a b : CString} :
    strcaseEq a b ↔ a.bytes.map tolower = b.bytes.map tolower := by
  simp [strcaseEq]

structure Module where
  name : Addr
  version : Option Addr
  core : ℤ
  apiVersion : ℤ
  header : Option Addr
  init : Option Addr
  fini : Option Addr
  dlptr : Option Addr
  path : Option Addr
  deriving DecidableEq

namespace Module

/-- What `memcpy` takes of a record: `sizeof(tmp)` bytes. -/
def copied (m : Module) : Addr := m.name

/-- A copy read as a record, with whatever lies behind it in memory. -/
def readCopy (name : Addr) (beyond : Module) : Module := { beyond with name := name }

def Agrees (m m' : Module) : Prop :=
  m.name = m'.name ∧ m.version = m'.version ∧ m.apiVersion = m'.apiVersion ∧ m.init = m'.init ∧
    m.fini = m'.fini ∧ m.dlptr = m'.dlptr ∧ m.path = m'.path

end Module

/-- The list `Modules`, the strings of the mapped libraries, and the paths from `strdup`. -/
structure ModuleState where
  modules : ListP Addr
  strings : Addr → Option CString
  paths : Addr → Option CString

/-- What the system answers in one `module_load`: `is_file`, `dlopen`, the record that `dlsym` finds
and the string that its name points to, and the memory for the path and the list node. -/
structure LoadEnv where
  isFile : Bool
  dlopen : Option Addr
  dlsym : Option Module
  name : CString
  pathCopy : Addr
  node : Addr
  deriving DecidableEq

/-- The record when `module_load` has stored its own data in it. -/
def LoadEnv.stored (env : LoadEnv) (m : Module) : Module :=
  { m with path := some env.pathCopy, dlptr := env.dlopen }

/-- `module_load`. What `init` does is left out. -/
def moduleLoad (s : ModuleState) (env : LoadEnv) (path : CString) :
    Except MemFault (ModuleState × ℤ) :=
  if !env.isFile then .ok (s, ENOENT)
  else if env.dlopen.isNone then .ok (s, EBADF)
  else
    match env.dlsym with
    | none => .ok (s, EBADF)
    | some m =>
      let tmp := env.stored m
      (listAdd s.modules env.node tmp.copied).map fun modules =>
        ({ modules
           strings := Function.update s.strings m.name (some env.name)
           paths := Function.update s.paths env.pathCopy (some path) }, 0)

/-- `module_unload`; `unmapped` says which strings `dlclose` takes away. What `fini` does is left
out. -/
def moduleUnload (s : ModuleState) (mp : Option Module) (unmapped : Addr → Bool) :
    ModuleState × ℤ :=
  match mp with
  | none => (s, 1)
  | some m =>
    let s :=
      if m.dlptr.isSome then
        { s with strings := fun a => if unmapped a then none else s.strings a }
      else s
    match m.path with
    | none => (s, 0)
    | some path => ({ s with paths := Function.update s.paths path none }, 0)

/-- The loop of `module_find`, which takes `fuel` copies to come to its end. -/
def findLoop (s : ModuleState) (name : CString) :
    ℕ → ListIter → Option (Except MemFault (Option Addr))
  | 0, _ => none
  | fuel + 1, iter =>
    let (iter, mp) := listNext s.modules iter
    match mp with
    | none => some (.ok none)
    | some mp =>
      match s.strings mp with
      | none => some (.error .freed)
      | some str =>
        if strcaseEq str name then some (.ok (some mp)) else findLoop s name fuel iter

/-- The copy that `module_find` returns. -/
def moduleFind (s : ModuleState) (name : CString) (fuel : ℕ) :
    Option (Except MemFault (Option Addr)) :=
  match listIterator s.modules FRONT with
  | none => some (.error .nullNode)
  | some iter => findLoop s name fuel iter

def searchCopies (s : ModuleState) (name : CString) : List Addr → Except MemFault (Option Addr)
  | [] => .ok none
  | mp :: copies =>
    match s.strings mp with
    | none => .error .freed
    | some str => if strcaseEq str name then .ok (some mp) else searchCopies s name copies

section Find

variable {s : ModuleState} {name : CString} {copies : List Addr}

theorem findLoop_eq {nodes : List Addr} {iter : ListIter} {fuel : ℕ}
    (h : s.modules.Ahead iter nodes) (hcopies : nodes.map s.modules.data = copies.map some)
    (hfuel : nodes.length < fuel) :
    findLoop s name fuel iter = some (searchCopies s name copies) := by
  induction nodes generalizing iter copies fuel with
  | nil =>
    obtain ⟨fuel, rfl⟩ : ∃ n, fuel = n + 1 := ⟨fuel - 1, by omega⟩
    obtain rfl : copies = [] := List.map_eq_nil_iff.mp hcopies.symm
    rw [findLoop]
    dsimp only
    rw [h.next_nil]
    rfl
  | cons a nodes ih =>
    obtain ⟨fuel, rfl⟩ : ∃ n, fuel = n + 1 := ⟨fuel - 1, by omega⟩
    obtain ⟨mp, copies, rfl, hmp, hrest⟩ := List.map_eq_cons_iff.mp hcopies.symm
    obtain ⟨hdata, hahead⟩ := h.next_cons
    rw [findLoop, searchCopies]
    dsimp only
    rw [hdata, ← hmp]
    dsimp only
    cases s.strings mp with
    | none => rfl
    | some str =>
      dsimp only
      split_ifs
      · rfl
      · exact ih hahead hrest.symm (Nat.lt_of_succ_lt_succ hfuel)

theorem moduleFind_returns (h : s.modules.Holds copies) :
    Fuel.Returns (moduleFind s name) (searchCopies s name copies) := by
  obtain ⟨nodes, hs, hcopies⟩ := h
  exact ⟨nodes.length + 1, findLoop_eq hs.ahead_iterator hcopies (Nat.lt_succ_self _)⟩

theorem findLoop_stable (iter : ListIter) : Fuel.Stable fun fuel => findLoop s name fuel iter := by
  intro fuel r h
  induction fuel generalizing iter with
  | zero => cases h
  | succ fuel ih =>
    dsimp only at h ih ⊢
    rw [findLoop] at h ⊢
    dsimp only at h ⊢
    cases hmp : (listNext s.modules iter).2 with
    | none =>
      rw [hmp] at h
      exact h
    | some mp =>
      rw [hmp] at h
      dsimp only at h ⊢
      cases hstr : s.strings mp with
      | none =>
        rw [hstr] at h
        exact h
      | some str =>
        rw [hstr] at h
        dsimp only at h ⊢
        split_ifs at h ⊢ with hsame
        · exact h
        · exact ih _ h

theorem searchCopies_none_iff : searchCopies s name copies = .ok none ↔
    ∀ p ∈ copies, ∃ str, s.strings p = some str ∧ strcaseEq str name = false := by
  induction copies with
  | nil => exact iff_of_true rfl fun _ h => absurd h List.not_mem_nil
  | cons mp copies ih =>
    rw [searchCopies, List.forall_mem_cons, ← ih]
    cases hstr : s.strings mp with
    | none => simp
    | some str =>
      cases hsame : strcaseEq str name with
      | true => simp [hsame]
      | false => simp [hsame]

end Find

/-- The registry of a process, and the modules that are loaded with their names. -/
structure ModuleWorld where
  state : ModuleState
  loaded : List (Module × CString)

def moduleWorldInit : ModuleWorld := ⟨⟨createList, fun _ => none, fun _ => none⟩, []⟩

inductive ModuleCall
  | load (env : LoadEnv) (path : CString)
  | unload (m : Module × CString) (unmapped : Addr → Bool)

namespace ModuleCall

/-- The modules that are loaded after a call that succeeds. -/
def effect (loaded : List (Module × CString)) : ModuleCall → List (Module × CString)
  | load env _ =>
    match env.dlsym with
    | none => loaded
    | some m => loaded ++ [(env.stored m, env.name)]
  | unload m _ => loaded.erase m

/-- The name pointers that a call adds to the list. -/
def copies : ModuleCall → List Addr
  | load env _ => env.dlsym.toList.map Module.name
  | unload _ _ => []

end ModuleCall

/-- One call that succeeds. A library is mapped into memory that is not in use, unless it is mapped
already, and it stays mapped as long as one of its modules is loaded. -/
inductive ModuleStep : ModuleWorld → ModuleCall → ModuleWorld → Prop
  | load {w : ModuleWorld} {env : LoadEnv} {path : CString} {s : ModuleState}
      (hnode : w.state.modules.data env.node = none)
      (hname : ∀ m, env.dlsym = some m →
        w.state.strings m.name = none ∨ w.state.strings m.name = some env.name)
      (hload : moduleLoad w.state env path = .ok (s, 0)) :
      ModuleStep w (.load env path) ⟨s, (ModuleCall.load env path).effect w.loaded⟩
  | unload {w : ModuleWorld} {m : Module × CString} {unmapped : Addr → Bool} {s : ModuleState}
      (hmem : m ∈ w.loaded) (hmapped : ∀ m' ∈ w.loaded.erase m, unmapped m'.1.name = false)
      (hunload : moduleUnload w.state (some m.1) unmapped = (s, 0)) :
      ModuleStep w (.unload m unmapped) ⟨s, (ModuleCall.unload m unmapped).effect w.loaded⟩

def namePointers (hist : List ModuleCall) : List Addr := hist.flatMap ModuleCall.copies

/-- The list has a copy for every load, and the names of the modules that are loaded are mapped. -/
structure ModuleInv (hist : List ModuleCall) (w : ModuleWorld) : Prop where
  copies : w.state.modules.Holds (namePointers hist)
  names : ∀ m ∈ w.loaded, m.1.name ∈ namePointers hist ∧ w.state.strings m.1.name = some m.2

section Run

variable {hist : List ModuleCall} {w w' : ModuleWorld} {s s' : ModuleState} {env : LoadEnv}
  {path name : CString} {copies : List Addr}

theorem moduleLoad_cases (h : s.modules.Holds copies) (hnode : s.modules.data env.node = none)
    (hload : moduleLoad s env path = .ok (s', 0)) :
    ∃ m, env.dlsym = some m ∧ s'.modules.Holds (copies ++ [m.name]) ∧
      s'.strings = Function.update s.strings m.name (some env.name) := by
  rw [moduleLoad] at hload
  split_ifs at hload
  · cases hload
  · cases hload
  · cases hm : env.dlsym with
    | none =>
      rw [hm] at hload
      cases hload
    | some m =>
      obtain ⟨modules, hadd, hmodules, -⟩ := h.add hnode m.name
      rw [hm] at hload
      dsimp only at hload
      have hcopied : (env.stored m).copied = m.name := rfl
      rw [hcopied, hadd] at hload
      cases hload
      exact ⟨m, rfl, hmodules, rfl⟩

theorem moduleUnload_cases {m : Module} {unmapped : Addr → Bool}
    (hunload : moduleUnload s (some m) unmapped = (s', 0)) :
    s'.modules = s.modules ∧ ∀ a, unmapped a = false → s'.strings a = s.strings a := by
  obtain rfl : (moduleUnload s (some m) unmapped).1 = s' := congrArg Prod.fst hunload
  rw [moduleUnload]
  cases m.path <;> cases m.dlptr <;> exact ⟨rfl, fun a ha => by simp [ha]⟩

theorem moduleInv_init : ModuleInv [] moduleWorldInit where
  copies := ListP.holds_createList
  names := fun _ h => absurd h List.not_mem_nil

theorem ModuleInv.step {c : ModuleCall} (h : ModuleInv hist w) (hstep : ModuleStep w c w') :
    ModuleInv (hist ++ [c]) w' := by
  have hpointers : namePointers (hist ++ [c]) = namePointers hist ++ c.copies := by
    rw [namePointers, List.flatMap_append, List.flatMap_singleton, ← namePointers]
  cases hstep with
  | @load env path s hnode hname hload =>
    obtain ⟨m, hm, hcopies, hstrings⟩ := moduleLoad_cases h.copies hnode hload
    have hadded : (ModuleCall.load env path).copies = [m.name] := by
      rw [ModuleCall.copies, hm]
      rfl
    rw [hadded] at hpointers
    refine ⟨by rw [hpointers]; exact hcopies, fun m' hm' => ?_⟩
    rw [ModuleCall.effect, hm] at hm'
    dsimp only
    rw [hpointers, hstrings, List.mem_append]
    rcases List.mem_append.mp hm' with hm' | hm'
    · obtain ⟨hmem, hstr⟩ := h.names m' hm'
      refine ⟨.inl hmem, ?_⟩
      by_cases heq : m'.1.name = m.name
      · -- the new library is the old one: its name is mapped already
        rw [heq, Function.update_self, ← hstr, heq]
        rcases hname m hm with hnone | hsame
        · rw [heq, hnone] at hstr
          cases hstr
        · exact hsame.symm
      · rw [Function.update_of_ne heq, hstr]
    · rw [List.mem_singleton.mp hm']
      exact ⟨.inr (List.mem_singleton_self _), Function.update_self ..⟩
  | @unload m unmapped s hmem hmapped hunload =>
    obtain ⟨hmodules, hstrings⟩ := moduleUnload_cases hunload
    have hadded : (ModuleCall.unload m unmapped).copies = [] := rfl
    rw [hadded, List.append_nil] at hpointers
    refine ⟨?_, fun m' hm' => ?_⟩
    · dsimp only
      rw [hpointers, hmodules]
      exact h.copies
    · dsimp only
      obtain ⟨hmem', hstr⟩ := h.names m' (List.mem_of_mem_erase hm')
      rw [hpointers, hstrings _ (hmapped m' hm')]
      exact ⟨hmem', hstr⟩

theorem moduleInv_of_run (hrun : Exec ModuleStep moduleWorldInit hist w) : ModuleInv hist w :=
  hrun.history_invariant (I := ModuleInv) moduleInv_init fun _ _ _ _ h hstep => h.step hstep

/-- What a lookup is to answer: the record of a module that is loaded under the name, or `NULL` if
there is none. -/
def FindAnswer (loaded : List (Module × CString)) (name : CString) : Option Module → Prop
  | none => ∀ m ∈ loaded, strcaseEq m.2 name = false
  | some r => ∃ m ∈ loaded, strcaseEq m.2 name = true ∧ r.Agrees m.1

/-- `module_find` returns, and what its pointer leads to is the answer, whatever lies behind the
copies in memory. -/
def FindsLoaded (w : ModuleWorld) (name : CString) : Prop :=
  ∃ r, Fuel.Returns (moduleFind w.state name) (.ok r) ∧
    ∀ beyond, FindAnswer w.loaded name (r.map fun mp => Module.readCopy mp beyond)

theorem not_findAnswer_copy (loaded : List (Module × CString)) (name : CString) (mp : Addr) :
    ¬ ∀ beyond, FindAnswer loaded name (some (Module.readCopy mp beyond)) := by
  intro h
  obtain ⟨v, hv⟩ := Infinite.exists_notMem_finset (loaded.map fun m => m.1.apiVersion).toFinset
  obtain ⟨m, hm, -, -, -, hversion, -⟩ := h ⟨0, none, 0, v, none, none, none, none, none⟩
  rw [List.mem_toFinset] at hv
  apply hv
  rw [show v = m.1.apiVersion from hversion]
  exact List.mem_map_of_mem hm

/-- After any loads and unloads a name is looked up rightly exactly if every module that was ever
loaded still has a name that can be read, and none of these is the name that is asked for. -/
theorem module_find_iff (hrun : Exec ModuleStep moduleWorldInit hist w) (name : CString) :
    FindsLoaded w name ↔ ∀ p ∈ namePointers hist,
      ∃ str, w.state.strings p = some str ∧ strcaseEq str name = false := by
  have hinv := moduleInv_of_run hrun
  have hreturns : Fuel.Returns (moduleFind w.state name) _ := moduleFind_returns hinv.copies
  rw [← searchCopies_none_iff]
  constructor
  · rintro ⟨r, hr, hanswer⟩
    rw [← hr.unique (findLoop_stable _) hreturns]
    cases r with
    | none => rfl
    | some mp => exact absurd hanswer (not_findAnswer_copy w.loaded name mp)
  · intro hnone
    rw [hnone] at hreturns
    refine ⟨none, hreturns, fun _ m hm => ?_⟩
    obtain ⟨hmem, hstr⟩ := hinv.names m hm
    obtain ⟨str, hstr', hother⟩ := searchCopies_none_iff.mp hnone _ hmem
    rw [hstr] at hstr'
    cases hstr'
    exact hother

end Run

section OneModule

/-- The module `a` of version 1, at its first loading. -/
def loadA : LoadEnv :=
  ⟨true, some 16, some ⟨4, none, 0, 1, none, none, none, none, none⟩, .ofChars ['a'], 8, 2⟩

theorem loadA_run : ∃ w, Exec ModuleStep moduleWorldInit [.load loadA (.ofChars ['/'])] w ∧
    w.state.strings 4 = some (.ofChars ['a']) :=
  ⟨_, Exec.single (.load rfl (fun _ _ => .inl rfl) rfl), rfl⟩

theorem module_find_iff_loadA : ∃ w, Exec ModuleStep moduleWorldInit
      [.load loadA (.ofChars ['/'])] w ∧
    (FindsLoaded w (.ofChars ['b']) ↔ ∀ p ∈ namePointers [.load loadA (.ofChars ['/'])],
      ∃ str, w.state.strings p = some str ∧ strcaseEq str (.ofChars ['b']) = false) := by
  obtain ⟨w, hrun, -⟩ := loadA_run
  exact ⟨w, hrun, module_find_iff hrun _⟩

/-- The module that was just loaded is not found as it was loaded. -/
theorem module_find_fails : ¬ ∀ hist w name, Exec ModuleStep moduleWorldInit hist w →
    FindsLoaded w name := by
  intro h
  obtain ⟨w, hrun, hstr⟩ := loadA_run
  obtain ⟨r, hr, hanswer⟩ := h _ w (.ofChars ['A']) hrun
  have hcopies := (moduleInv_of_run hrun).copies
  have hfound : Fuel.Returns (moduleFind w.state (.ofChars ['A'])) _ := moduleFind_returns hcopies
  have heq := hr.unique (findLoop_stable _) hfound
  have hsearch : searchCopies w.state (.ofChars ['A'])
      (namePointers [.load loadA (.ofChars ['/'])]) = .ok (some 4) := by
    change searchCopies w.state (.ofChars ['A']) [4] = .ok (some 4)
    rw [searchCopies, hstr]
    rfl
  rw [hsearch] at heq
  cases heq
  exact not_findAnswer_copy w.loaded _ 4 hanswer

end OneModule

end JailFs
