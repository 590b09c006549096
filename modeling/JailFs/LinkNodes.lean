import JailFs.Exec
import JailFs.PkgRun
import JailFs.Watch

/-!
# The nodes of `pkg_list` and `vfs_watch_list`

Both lists get their nodes from `dlink_create`, inside `dlink_add_tail_alloc`, and both
`pkg_release` and `vfs_watch_remove` unlink a node by `dlink_delete` without `dlink_free`. A
`LinkState` has both lists, the elements in use in `dlink_node_heap`, and, as a field of the
registry, the `dlink_count` that they share. `LinkStep.nodes` says what one call does to these
numbers, and `accounted_iff` which runs keep them equal.
-/

namespace JailFs

structure LinkState where
  registry : Registry
  watches : WatchState
  nodeHeap : List Addr

/-- One call, with what the system and the allocators answer. -/
inductive LinkCall
  | pkgOpen (env : OpenEnv) (path : CString) (node : Addr)
  | pkgClose (pkg : Addr)
  | pkgGc (clock : Addr → ℤ)
  | vfsWatchAdd (elem : Addr) (wd : Int32) (path : CString) (node : Addr)
  | vfsWatchRemove (watch : Addr)

/-- This `pkg_open` comes to `dlink_add_tail_alloc`. -/
def listsHandle (s : Registry) (env : OpenEnv) (path : CString) : Bool :=
  (pkgHandleByname s path).isNone && !env.fileFails

namespace LinkState

def init (openFds : List ℤ) (pkgLifetime : ℤ) : LinkState :=
  ⟨pkgInit openFds 0 pkgLifetime, ⟨∅, []⟩, []⟩

/-- `dlink_create` in `vfs_watch_add`. -/
def dlinkCreate (s : LinkState) (node : Addr) : LinkState :=
  { s with
    registry := { s.registry with dlinkCount := wrapInt (s.registry.dlinkCount + 1) }
    nodeHeap := node :: s.nodeHeap }

def call (s : LinkState) : LinkCall → LinkState
  | .pkgOpen env path node =>
    { s with
      registry := (pkgOpen s.registry env path).registry
      nodeHeap := if listsHandle s.registry env path then node :: s.nodeHeap else s.nodeHeap }
  | .pkgClose pkg => { s with registry := JailFs.pkgClose s.registry pkg }
  | .pkgGc clock => { s with registry := JailFs.pkgGc s.registry clock }
  | .vfsWatchAdd elem wd path node =>
    match JailFs.vfsWatchAdd s.watches elem wd path with
    | (_, none) => s
    | (watches, some _) => { s with watches := watches }.dlinkCreate node
  | .vfsWatchRemove watch => { s with watches := JailFs.vfsWatchRemove s.watches watch }

/-- The allocators hand out elements that are not in use. -/
def Fresh (s : LinkState) : LinkCall → Prop
  | .pkgOpen env _ node => env.Valid s.registry ∧ node ∉ s.nodeHeap
  | .vfsWatchAdd elem _ _ node => s.watches.watch elem = none ∧ node ∉ s.nodeHeap
  | _ => True

def Unlinks (s : LinkState) : LinkCall → Prop
  | .pkgGc clock => ∃ a ∈ s.registry.pkgList, ∃ h, s.registry.handle a = some h ∧
      h.expired s.registry.pkgLifetime (clock a) = true
  | .vfsWatchRemove watch => watch ∈ s.watches.vfsWatchList
  | _ => False

def linked (s : LinkState) : ℕ := s.registry.pkgList.length + s.watches.vfsWatchList.length

/-- `dlink_node_heap` and `dlink_count` hold the linked nodes and no others. -/
def Accounted (s : LinkState) : Prop :=
  s.nodeHeap.length = s.linked ∧ s.registry.dlinkCount = s.linked

end LinkState

def LinkStep (s : LinkState) (c : LinkCall) (t : LinkState) : Prop := s.Fresh c ∧ t = s.call c

/-- A step that leaves every entry on its list. -/
def KeepStep (s : LinkState) (c : LinkCall) (t : LinkState) : Prop := LinkStep s c t ∧ ¬ s.Unlinks c

/-- The listed handles are elements in use. -/
structure Registry.Listed (s : Registry) : Prop where
  nodup : s.pkgList.Nodup
  inUse : ∀ a ∈ s.pkgList, s.handle a ≠ none

section Listed

variable {s : Registry} {a : Addr} {h : PkgHandle} {env : OpenEnv} {path : CString}

theorem Registry.Listed.setHandle (hl : s.Listed) : (s.setHandle a h).Listed where
  nodup := hl.nodup
  inUse := by
    intro b hb
    by_cases hba : b = a
    · rw [hba, Registry.handle_setHandle_self]
      exact Option.some_ne_none h
    · rw [Registry.handle_setHandle_ne hba]
      exact hl.inUse b hb

theorem Registry.Listed.touch (hl : s.Listed) (now : ℤ) : (s.touch a now).Listed := by
  cases ha : s.handle a with
  | none =>
    rw [Registry.touch, ha]
    exact hl
  | some h =>
    rw [Registry.touch_of_handle ha]
    exact hl.setHandle

theorem Registry.touch_frame (a : Addr) (now : ℤ) :
    (s.touch a now).pkgList = s.pkgList ∧ (s.touch a now).dlinkCount = s.dlinkCount := by
  cases ha : s.handle a with
  | none =>
    rw [Registry.touch, ha]
    exact ⟨rfl, rfl⟩
  | some h =>
    rw [Registry.touch_of_handle ha]
    exact ⟨rfl, rfl⟩

theorem Registry.Listed.pkgRelease (hl : s.Listed) (a : Addr) : (JailFs.pkgRelease s a).Listed := by
  cases ha : s.handle a with
  | none =>
    rw [JailFs.pkgRelease, ha]
    exact hl
  | some h =>
    constructor
    · rw [pkgRelease_pkgList ha]
      exact hl.nodup.erase a
    · intro b hb
      rw [pkgRelease_pkgList ha, hl.nodup.mem_erase_iff] at hb
      rw [pkgRelease_handle_ne ha hb.1]
      exact hl.inUse b hb.2

theorem pkgRelease_dlinkCount (s : Registry) (a : Addr) :
    (pkgRelease s a).dlinkCount = s.dlinkCount := by
  cases ha : s.handle a with
  | none => rw [pkgRelease, ha]
  | some h =>
    obtain ⟨fd, hr⟩ := pkgRelease_eq ha
    rw [hr]
    rfl

theorem prepare_dlinkCount : (s.prepare env path).dlinkCount = s.dlinkCount := by
  obtain ⟨gPkgid, hadd⟩ := dbPkgAdd_frame s env.statErrno
  rw [Registry.prepare, hadd]
  unfold Registry.openFd
  split_ifs <;> rfl

theorem Registry.Listed.prepare (hl : s.Listed) : (s.prepare env path).Listed where
  nodup := by
    rw [Registry.prepare_pkgList]
    exact hl.nodup
  inUse := by
    intro b hb
    rw [Registry.prepare_pkgList] at hb
    by_cases hba : b = env.elem
    · rw [hba, Registry.prepare_handle_self]
      exact Option.some_ne_none _
    · rw [Registry.prepare_handle_ne hba]
      exact hl.inUse b hb

theorem Registry.Listed.list (hl : s.Listed) (hnew : a ∉ s.pkgList) (ha : s.handle a ≠ none) :
    (s.list a).Listed where
  nodup := by
    rw [Registry.list, List.nodup_append]
    refine ⟨hl.nodup, List.nodup_singleton a, ?_⟩
    intro b hb c hc
    rw [List.mem_singleton.mp hc]
    exact ne_of_mem_of_not_mem hb hnew
  inUse := by
    intro b hb
    rcases List.mem_append.mp hb with hb | hb
    · exact hl.inUse b hb
    · rw [List.mem_singleton.mp hb]
      exact ha

theorem pkgOpen_nodes (hl : s.Listed) (hfree : s.handle env.elem = none) :
    (pkgOpen s env path).registry.Listed ∧
      (pkgOpen s env path).registry.pkgList =
        s.pkgList ++ (if listsHandle s env path then [env.elem] else []) ∧
      (pkgOpen s env path).registry.dlinkCount =
        if listsHandle s env path then wrapInt (s.dlinkCount + 1) else s.dlinkCount := by
  have hnew : env.elem ∉ s.pkgList := fun hmem => hl.inUse _ hmem hfree
  have hprep : (s.prepare env path).handle env.elem ≠ none := by
    rw [Registry.prepare_handle_self]
    exact Option.some_ne_none _
  have hlist : ((s.prepare env path).list env.elem).Listed :=
    (hl.prepare).list (by rw [Registry.prepare_pkgList]; exact hnew) hprep
  have hnodes : ((s.prepare env path).list env.elem).pkgList = s.pkgList ++ [env.elem] ∧
      ((s.prepare env path).list env.elem).dlinkCount = wrapInt (s.dlinkCount + 1) := by
    rw [Registry.list, Registry.prepare_pkgList, prepare_dlinkCount]
    exact ⟨rfl, rfl⟩
  obtain ⟨t, h, heq⟩ | ⟨h, hf, heq⟩ | ⟨h, hf, -, heq⟩ | ⟨h, hf, -, heq⟩ :=
    pkgOpen_cases s env path <;> rw [heq] <;> simp only [listsHandle, h]
  · obtain ⟨hsame, hcount⟩ := s.touch_frame t env.now
    exact ⟨hl.touch _, by simpa using hsame, by simpa using hcount⟩
  · obtain ⟨p, hp⟩ := Option.ne_none_iff_exists'.mp hprep
    refine ⟨hl.prepare.pkgRelease _, ?_, ?_⟩
    · rw [pkgRelease_pkgList hp, Registry.prepare_pkgList, List.erase_of_not_mem hnew]
      simp [hf]
    · rw [pkgRelease_dlinkCount, prepare_dlinkCount]
      simp [hf]
  · exact ⟨hlist, by simpa [hf] using hnodes.1, by simpa [hf] using hnodes.2⟩
  · obtain ⟨hsame, hcount⟩ := (s.imported env path).touch_frame env.elem env.now
    have himp : (s.imported env path).Listed := ⟨hlist.nodup, hlist.inUse⟩
    refine ⟨himp.touch _, ?_, ?_⟩
    · rw [hsame]
      exact hnodes.1.trans (by simp [hf])
    · rw [hcount]
      exact hnodes.2.trans (by simp [hf])

end Listed

section Gc

variable {s : Registry} {clock : Addr → ℤ}

/-- The walk of `pkg_gc` over entries still to come keeps every one of them, or the list gets
shorter. -/
theorem gcWalk_nodes (l : List Addr) (hl : s.Listed) :
    (l.foldl (pkgGcVisit clock) s).Listed ∧
      (l.foldl (pkgGcVisit clock) s).dlinkCount = s.dlinkCount ∧
      (l.foldl (pkgGcVisit clock) s).pkgList.length ≤ s.pkgList.length ∧
      ((∀ a ∈ l, a ∈ s.pkgList) →
        ((l.foldl (pkgGcVisit clock) s).pkgList.length = s.pkgList.length ↔
          ¬ ∃ a ∈ l, ∃ h, s.handle a = some h ∧ h.expired s.pkgLifetime (clock a) = true)) := by
  induction l generalizing s with
  | nil => exact ⟨hl, rfl, le_rfl, fun _ => by simp⟩
  | cons a l ih =>
    rw [List.foldl_cons]
    by_cases hexp : ∃ h, s.handle a = some h ∧ h.expired s.pkgLifetime (clock a) = true
    · obtain ⟨h, hh, he⟩ := hexp
      have hvisit : pkgGcVisit clock s a = pkgRelease s a := by
        simp only [pkgGcVisit, hh, he, if_true]
      obtain ⟨hl', hcount, hle, -⟩ := ih (hl.pkgRelease a)
      have hlen : (pkgRelease s a).pkgList.length ≤ s.pkgList.length := by
        rw [pkgRelease_pkgList hh]
        exact List.length_erase_le
      rw [hvisit]
      refine ⟨hl', hcount.trans (pkgRelease_dlinkCount s a), hle.trans hlen, fun hsub => ?_⟩
      have hmem : a ∈ s.pkgList := hsub a List.mem_cons_self
      have hshort : (pkgRelease s a).pkgList.length < s.pkgList.length := by
        rw [pkgRelease_pkgList hh, List.length_erase_of_mem hmem]
        have hpos := List.length_pos_of_mem hmem
        omega
      constructor
      · intro heq
        omega
      · intro hno
        exact absurd ⟨a, List.mem_cons_self, h, hh, he⟩ hno
    · have hvisit : pkgGcVisit clock s a = s := by
        cases hh : s.handle a with
        | none => simp only [pkgGcVisit, hh]
        | some h =>
          simp only [pkgGcVisit, hh]
          exact if_neg fun he => hexp ⟨h, hh, he⟩
      rw [hvisit]
      obtain ⟨hl', hcount, hle, hiff⟩ := ih hl
      refine ⟨hl', hcount, hle, fun hsub => ?_⟩
      rw [hiff fun b hb => hsub b (List.mem_cons_of_mem a hb), List.exists_mem_cons_iff]
      simp only [hexp, false_or]

end Gc

/-- What a call does to the nodes: `k` entries leave their lists, and at most one node is made. -/
theorem LinkStep.nodes {s t : LinkState} {c : LinkCall} (hl : s.registry.Listed)
    (h : LinkStep s c t) :
    t.registry.Listed ∧
      (∃ k, (k = 0 ↔ ¬ s.Unlinks c) ∧
        t.nodeHeap.length + s.linked = s.nodeHeap.length + t.linked + k) ∧
      ((t.nodeHeap.length = s.nodeHeap.length ∧ t.registry.dlinkCount = s.registry.dlinkCount) ∨
        (t.nodeHeap.length = s.nodeHeap.length + 1 ∧
          t.registry.dlinkCount = wrapInt (s.registry.dlinkCount + 1))) := by
  obtain ⟨hfresh, rfl⟩ := h
  cases c with
  | pkgOpen env path node =>
    obtain ⟨hl', hlist, hcount⟩ := @pkgOpen_nodes _ env path hl hfresh.1.elem
    refine ⟨hl', ⟨0, by simp [LinkState.Unlinks], ?_⟩, ?_⟩ <;>
      simp only [LinkState.call, LinkState.linked, hlist, hcount] <;>
      cases listsHandle s.registry env path <;> simp
    omega
  | pkgClose pkg =>
    have hframe : (JailFs.pkgClose s.registry pkg).Listed ∧
        (JailFs.pkgClose s.registry pkg).pkgList = s.registry.pkgList ∧
        (JailFs.pkgClose s.registry pkg).dlinkCount = s.registry.dlinkCount := by
      unfold JailFs.pkgClose
      cases s.registry.handle pkg with
      | none => exact ⟨hl, rfl, rfl⟩
      | some h => exact ⟨hl.setHandle, rfl, rfl⟩
    refine ⟨hframe.1, ⟨0, by simp [LinkState.Unlinks], ?_⟩, .inl ⟨rfl, hframe.2.2⟩⟩
    simp only [LinkState.call, LinkState.linked, hframe.2.1, Nat.add_zero]
  | pkgGc clock =>
    obtain ⟨hl', hcount, hle, hiff⟩ := @gcWalk_nodes _ clock s.registry.pkgList hl
    refine ⟨hl', ⟨s.registry.pkgList.length - (pkgGc s.registry clock).pkgList.length, ?_, ?_⟩,
      .inl ⟨rfl, hcount⟩⟩
    · apply Iff.trans _ (hiff fun _ ha => ha)
      change _ ≤ _ at hle
      simp only [pkgGc] at hle ⊢
      omega
    · simp only [LinkState.call, LinkState.linked, pkgGc] at hle ⊢
      omega
  | vfsWatchAdd elem wd path node =>
    by_cases hwd : wd ≤ 0
    · have hcall : s.call (.vfsWatchAdd elem wd path node) = s := by
        simp only [LinkState.call, vfsWatchAdd, if_pos hwd]
      rw [hcall]
      exact ⟨hl, ⟨0, by simp [LinkState.Unlinks], rfl⟩, .inl ⟨rfl, rfl⟩⟩
    · simp only [LinkState.call, vfsWatchAdd, if_neg hwd]
      refine ⟨⟨hl.nodup, hl.inUse⟩, ⟨0, by simp [LinkState.Unlinks], ?_⟩, .inr ⟨rfl, rfl⟩⟩
      simp only [LinkState.dlinkCreate, LinkState.linked, List.length_cons, List.length_append,
        List.length_nil]
      omega
  | vfsWatchRemove watch =>
    by_cases hmem : watch ∈ s.watches.vfsWatchList
    · have hpos := List.length_pos_of_mem hmem
      refine ⟨hl, ⟨1, by simp [LinkState.Unlinks, hmem], ?_⟩, .inl ⟨rfl, rfl⟩⟩
      simp only [LinkState.call, vfsWatchRemove, if_pos hmem, LinkState.linked,
        List.length_erase_of_mem hmem]
      omega
    · refine ⟨hl, ⟨0, by simp [LinkState.Unlinks, hmem], ?_⟩, .inl ⟨rfl, rfl⟩⟩
      simp only [LinkState.call, vfsWatchRemove, if_neg hmem, LinkState.linked, Nat.add_zero]

theorem wrapInt_natCast_eq_iff (n : ℕ) : wrapInt n = n ↔ n < 2 ^ 31 := by
  constructor
  · intro h
    have hlt : wrapInt n < (2 ^ 32 + 1) / 2 := Int.bmod_lt (by decide)
    omega
  · intro h
    exact wrapInt_of_lt (by omega) (by omega)

section Run

variable {openFds : List ℤ} {pkgLifetime : ℤ} {calls : List LinkCall} {s : LinkState}

/-- A run has made as many nodes as `dlink_count` says, and each is linked unless an entry has
left its list. -/
theorem run_nodes (h : Exec LinkStep (LinkState.init openFds pkgLifetime) calls s) :
    s.registry.Listed ∧ s.registry.dlinkCount = wrapInt s.nodeHeap.length ∧
      s.linked ≤ s.nodeHeap.length ∧
      (s.nodeHeap.length = s.linked ↔
        Exec KeepStep (LinkState.init openFds pkgLifetime) calls s) := by
  induction h with
  | nil =>
    have hzero : wrapInt 0 = 0 := wrapInt_of_lt (by omega) (by omega)
    refine ⟨⟨List.nodup_nil, fun a ha => absurd ha List.not_mem_nil⟩, hzero.symm, le_rfl, ?_⟩
    exact iff_of_true rfl (Exec.nil _)
  | @snoc t u calls c hrun hlast ih =>
    obtain ⟨hl, hcount, hle, hiff⟩ := ih
    obtain ⟨hl', ⟨k, hk, hnodes⟩, hcount'⟩ := hlast.nodes hl
    refine ⟨hl', ?_, by omega, ?_⟩
    · rcases hcount' with ⟨hsame, heq⟩ | ⟨hmade, heq⟩
      · rw [heq, hcount, hsame]
      · rw [heq, hcount, hmade, wrapInt_wrapInt_add_one]
        rfl
    · constructor
      · intro heq
        have hkeep : ¬ t.Unlinks c := hk.mp (by omega)
        exact (hiff.mp (by omega)).snoc ⟨hlast, hkeep⟩
      · intro hkept
        obtain ⟨t', hrun', hstep⟩ := hkept.last
        obtain rfl : t = t' := hrun.functional (fun _ _ _ _ h₁ h₂ => h₁.2.trans h₂.2.symm)
          (hrun'.mono fun _ _ _ => And.left)
        have hzero := hk.mpr hstep.2
        have heq := hiff.mpr hrun'
        omega

/-- In every run the nodes are accounted for exactly if no step takes an entry off its list, and
fewer nodes are linked than an `int` counts. -/
theorem accounted_iff (h : Exec LinkStep (LinkState.init openFds pkgLifetime) calls s) :
    s.Accounted ↔
      Exec KeepStep (LinkState.init openFds pkgLifetime) calls s ∧ s.linked < 2 ^ 31 := by
  obtain ⟨-, hcount, -, hiff⟩ := run_nodes h
  rw [LinkState.Accounted, hiff]
  apply and_congr_right
  intro hkept
  rw [hcount, hiff.mpr hkept, wrapInt_natCast_eq_iff]

end Run

section Leak

/-- `vfs_watch_add` for `/pkg`, which inotify gives the descriptor `1`. -/
def addWatch : LinkCall := .vfsWatchAdd 8 1 (.ofChars ['/', 'p', 'k', 'g']) 16

def oneWatch : LinkState := (LinkState.init [] 60).call addWatch

theorem oneWatch_run : Exec LinkStep (LinkState.init [] 60) [addWatch] oneWatch :=
  .single ⟨⟨rfl, List.not_mem_nil⟩, rfl⟩

theorem accounted_iff_oneWatch :
    oneWatch.Accounted ↔
      Exec KeepStep (LinkState.init [] 60) [addWatch] oneWatch ∧ oneWatch.linked < 2 ^ 31 :=
  accounted_iff (.single ⟨⟨rfl, List.not_mem_nil⟩, rfl⟩)

/-- A watch is added and removed: its node stays in use, and `dlink_count` counts it. -/
theorem watch_leaks_node :
    ∃ s, Exec LinkStep (LinkState.init [] 60) [addWatch, .vfsWatchRemove 8] s ∧
      s.linked = 0 ∧ s.nodeHeap = [16] ∧ s.registry.dlinkCount = 1 ∧ ¬ s.Accounted :=
  ⟨oneWatch.call (.vfsWatchRemove 8), oneWatch_run.snoc ⟨trivial, rfl⟩, rfl, rfl, rfl,
    fun h => absurd h.1 (by decide)⟩

end Leak

end JailFs
