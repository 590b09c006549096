import JailFs.DictBlobRun
import JailFs.LsdList

/-!
# The hook registry of `hooks.c`

The registry is a dictionary of blobs, and `hooks`, the pointer to it, is `NULL` from the start and
never assigned. With a `NULL` dictionary nothing is found, nothing is stored, and `hook_destroy`
goes on past its inverted test to free the `NULL` pointer it has. `hook_contract_iff` says which
histories do not notice.
-/

namespace JailFs

structure Hook where
  refcnt : ℤ
  flags : ℤ
  name : Option CString
  handlers : Option Addr
  deriving DecidableEq

/-- The static pointer `hooks`, and the `Hook` structures in use. -/
structure HookState where
  hooks : Option Dict
  heap : Addr → Option Hook

def hookStateInit : HookState := ⟨none, fun _ => none⟩

/-- `dict_get_blob`, with a dictionary that may be `NULL`. -/
def dictGetBlob (d : Option Dict) (key : Option CString) (defval : Option Addr) (fuel : ℕ) :
    Option (Option Addr) :=
  match d with
  | none => some defval
  | some d => d.getBlob key defval fuel

/-- `dict_add_blob`, with a dictionary that may be `NULL`. -/
def dictAddBlob (env : BlobEnv) (fuel : ℕ) (d : Option Dict) (key : Option CString)
    (ptr : Option Addr) : Option (Option Dict × ℤ) :=
  match d with
  | none => some (none, -1)
  | some d => (d.addBlob env fuel key ptr).map fun r => (some r.1, r.2)

/-- `dict_del`, with a dictionary that may be `NULL`. -/
def dictDel (d : Option Dict) (key : Option CString) (fuel : ℕ) : Option (Option Dict × ℤ) :=
  match d with
  | none => some (none, -1)
  | some d => (d.del key fuel).map fun r => (some r.1, r.2)

def hookFind (s : HookState) (name : Option CString) (fuel : ℕ) : Option (Option Addr) :=
  match name with
  | none => some none
  | some name => dictGetBlob s.hooks (some name) none fuel

/-- `hook_destroy`; `hook_destroy_children` does nothing. -/
def hookDestroy (s : HookState) (name : Option CString) (fuel : ℕ) :
    Option (Except MemFault (HookState × ℤ)) :=
  match hookFind s name fuel with
  | none => none
  | some hp =>
    if hp.isSome then some (.ok (s, EFAULT))
    else
      match dictDel s.hooks name fuel with
      | none => none
      | some (hooks, _) =>
        match hp with
        | none => some (.error .assertion)
        | some hp => some (.ok (⟨hooks, Function.update s.heap hp none⟩, 0))

/-- `hook_add`; `addr` is the memory for a new hook. -/
def hookAdd (env : BlobEnv) (fuel : ℕ) (s : HookState) (name : Option CString) (flags : ℤ)
    (func : Option Addr) (addr : Addr) : Option (HookState × Option Addr) :=
  if name.isNone || func.isNone then some (s, none)
  else
    match hookFind s name fuel with
    | none => none
    | some hp =>
      let s :=
        if hp.isNone then
          { s with heap := Function.update s.heap addr (some ⟨0, flags, name, none⟩) }
        else s
      let tmp := hp.getD addr
      match dictAddBlob env fuel s.hooks name (some tmp) with
      | none => none
      | some (hooks, _) => some ({ s with hooks }, some tmp)

/-- The calls on the registry, with the memory that a `hook_add` would get for a new hook. -/
inductive HookCall
  | add (name : CString) (flags : ℤ) (func : Addr) (addr : Addr)
  | find (name : Option CString)
  | destroy (name : Option CString)
  deriving DecidableEq

inductive HookAnswer
  | hook (hp : Option Addr)
  | code (rc : ℤ)
  deriving DecidableEq

namespace HookCall

def apply (env : BlobEnv) (fuel : ℕ) (s : HookState) :
    HookCall → Option (Except MemFault (HookState × HookAnswer))
  | add name flags func addr =>
    (hookAdd env fuel s (some name) flags (some func) addr).map fun r => .ok (r.1, .hook r.2)
  | find name => (hookFind s name fuel).map fun hp => .ok (s, .hook hp)
  | destroy name => (hookDestroy s name fuel).map fun r => r.map fun r => (r.1, .code r.2)

/-- The hooks that are registered after the call. -/
def effect (m : CString → Option Addr) : HookCall → CString → Option Addr
  | add name _ _ addr => Function.update m name ((m name).or (some addr))
  | find _ => m
  | destroy none => m
  | destroy (some name) => Function.update m name none

def Proper (m : CString → Option Addr) : HookCall → Prop
  | add _ _ _ addr => ∀ name, m name ≠ some addr
  | find _ => True
  | destroy _ => True

/-- The answer that the call is to give. Destroying what is not there changes nothing. -/
def Answers (m : CString → Option Addr) (s t : HookState) (r : HookAnswer) : HookCall → Prop
  | add name _ _ addr => r = .hook ((m name).or (some addr))
  | find name => r = .hook (name.bind m)
  | destroy name =>
    if (name.bind m).isSome then r = .code 0 else (∃ rc ≠ 0, r = .code rc) ∧ t = s

/-- Nothing is destroyed, and only names without a hook are added or looked up. -/
def Unregistered (m : CString → Option Addr) : HookCall → Prop
  | add name _ _ _ => m name = none
  | find name => name.bind m = none
  | destroy _ => False

end HookCall

/-- The hooks that the calls have registered. -/
def hookRegistry (hist : List HookCall) : CString → Option Addr :=
  hist.foldl HookCall.effect fun _ => none

def HookStep (s : HookState) (c : HookCall) (t : HookState) : Prop :=
  ∃ env fuel r, c.apply env fuel s = some (.ok (t, r))

/-- What is asked of a call: it returns, with the answer it should give. -/
def GoodHookCall (pre : List HookCall) (c : HookCall) (s : HookState) : Prop :=
  ∀ env, ∃ fuel t r, c.apply env fuel s = some (.ok (t, r)) ∧ c.Answers (hookRegistry pre) s t r

section Null

variable {s t : HookState} {name : Option CString}

theorem hookFind_null (h : s.hooks = none) (name : Option CString) (fuel : ℕ) :
    hookFind s name fuel = some none := by
  cases name with
  | none => rfl
  | some name => simp only [hookFind, dictGetBlob, h]

/-- `mem_free` is given the `NULL` that was found. -/
theorem hookDestroy_null (h : s.hooks = none) (name : Option CString) (fuel : ℕ) :
    hookDestroy s name fuel = some (.error .assertion) := by
  simp only [hookDestroy, hookFind_null h, dictDel, h]
  rfl

theorem hookAdd_null (h : s.hooks = none) (env : BlobEnv) (fuel : ℕ) (name : CString) (flags : ℤ)
    (func addr : Addr) :
    hookAdd env fuel s (some name) flags (some func) addr =
      some ({ s with heap := Function.update s.heap addr (some ⟨0, flags, some name, none⟩) },
        some addr) := by
  obtain ⟨hooks, heap⟩ := s
  obtain rfl : hooks = none := h
  rw [hookAdd, hookFind_null rfl]
  rfl

/-- The step lemma: the pointer stays `NULL`. -/
theorem HookStep.null {c : HookCall} (h : s.hooks = none) (hstep : HookStep s c t) :
    t.hooks = none := by
  obtain ⟨env, fuel, r, hok⟩ := hstep
  cases c with
  | add name flags func addr =>
    rw [HookCall.apply, hookAdd_null h] at hok
    cases hok
    exact h
  | find name =>
    rw [HookCall.apply, hookFind_null h] at hok
    cases hok
    exact h
  | destroy name =>
    rw [HookCall.apply, hookDestroy_null h] at hok
    cases hok

theorem good_hook_iff {pre : List HookCall} {c : HookCall} (h : s.hooks = none)
    (hproper : c.Proper (hookRegistry pre)) :
    GoodHookCall pre c s ↔ c.Unregistered (hookRegistry pre) := by
  cases c with
  | add name flags func addr =>
    constructor
    · intro hgood
      obtain ⟨fuel, t, r, hok, hanswer⟩ := hgood ⟨DictEnv.plain, 0⟩
      rw [HookCall.apply, hookAdd_null h] at hok
      cases hok
      cases hm : hookRegistry pre name with
      | none => exact hm
      | some hp =>
        rw [HookCall.Answers, hm] at hanswer
        cases hanswer
        exact absurd hm (hproper name)
    · intro hm env
      refine ⟨0, _, _, by rw [HookCall.apply, hookAdd_null h]; rfl, ?_⟩
      rw [HookCall.Answers, show hookRegistry pre name = none from hm]
      rfl
  | find name =>
    have happly (env : BlobEnv) (fuel : ℕ) :
        (HookCall.find name).apply env fuel s = some (.ok (s, .hook none)) := by
      rw [HookCall.apply, hookFind_null h]
      rfl
    constructor
    · intro hgood
      obtain ⟨fuel, t, r, hok, hanswer⟩ := hgood ⟨DictEnv.plain, 0⟩
      rw [happly] at hok
      cases hok
      exact (HookAnswer.hook.inj hanswer).symm
    · intro hm env
      exact ⟨0, s, _, happly env 0, congrArg HookAnswer.hook hm.symm⟩
  | destroy name =>
    refine iff_of_false (fun hgood => ?_) id
    obtain ⟨fuel, t, r, hok, -⟩ := hgood ⟨DictEnv.plain, 0⟩
    rw [HookCall.apply, hookDestroy_null h] at hok
    cases hok

theorem exists_hook_step {c : HookCall} {m : CString → Option Addr} (h : s.hooks = none)
    (hcond : c.Unregistered m) : ∃ t, HookStep s c t := by
  cases c with
  | add name flags func addr =>
    exact ⟨_, ⟨DictEnv.plain, 0⟩, 0, _, by rw [HookCall.apply, hookAdd_null h]; rfl⟩
  | find name =>
    exact ⟨s, ⟨DictEnv.plain, 0⟩, 0, .hook none, by rw [HookCall.apply, hookFind_null h]; rfl⟩
  | destroy name => exact hcond.elim

end Null

/-- The registry answers as it should along exactly those histories in which no hook is destroyed
and no name is added or looked up once it has a hook. -/
theorem hook_contract_iff {hist : List HookCall}
    (hproper : Along (fun pre c => c.Proper (hookRegistry pre)) hist) :
    Exec.Meets HookStep hookStateInit GoodHookCall hist ↔
      Along (fun pre c => c.Unregistered (hookRegistry pre)) hist :=
  Exec.meets_iff_of_valid (R := fun _ s => s.hooks = none) rfl
    (fun _ _ _ _ h _ _ hstep => hstep.null h) (fun _ _ _ h _ hcond => exists_hook_step h hcond)
    (fun _ _ _ h hvalid => good_hook_iff h hvalid) hproper

section OneHook

def addFind : List HookCall :=
  [.add (.ofChars ['g', 'c']) 0 1 2, .find (some (.ofChars ['g', 'c']))]

theorem addFind_proper : Along (fun pre c => HookCall.Proper (hookRegistry pre) c) addFind := by
  have hadd : Along (fun pre c => HookCall.Proper (hookRegistry pre) c)
      ([] ++ [.add (.ofChars ['g', 'c']) 0 1 2]) :=
    along_snoc.mpr ⟨along_nil, fun name h => by cases h⟩
  have hfind : (HookCall.find (some (.ofChars ['g', 'c']))).Proper
      (hookRegistry [.add (.ofChars ['g', 'c']) 0 1 2]) := trivial
  exact along_snoc.mpr ⟨hadd, hfind⟩

theorem hook_contract_iff_addFind :
    Exec.Meets HookStep hookStateInit GoodHookCall addFind ↔
      Along (fun pre c => HookCall.Unregistered (hookRegistry pre) c) addFind :=
  hook_contract_iff addFind_proper

/-- The hook that was added is not found. -/
theorem hook_contract_fails : ¬ Exec.Meets HookStep hookStateInit GoodHookCall addFind := by
  intro h
  have hfind := h [.add (.ofChars ['g', 'c']) 0 1 2] (.find (some (.ofChars ['g', 'c']))) [] rfl _
    (Exec.single ⟨⟨DictEnv.plain, 0⟩, 0, _, by rw [HookCall.apply, hookAdd_null rfl]; rfl⟩)
  have hproper : (HookCall.find (some (.ofChars ['g', 'c']))).Proper
      (hookRegistry [.add (.ofChars ['g', 'c']) 0 1 2]) := trivial
  have hnone := (good_hook_iff rfl hproper).mp hfind
  cases hnone

end OneHook

end JailFs
