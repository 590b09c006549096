import JailFs.PkgLease

/-!
# Runs of `pkg_open`, `pkg_close` and `pkg_gc`

A state is a registry with the history that led to it: which opens returned which handle, which
handles were closed, and which were collected. `Sim` keeps the registry, the lease table it
refines and the history together; `PkgStep.sim` is the step lemma, one case for each exit of
`pkg_open` and one for each of the other calls.
-/

namespace JailFs

inductive PkgEvent
  | opened (path : CString) (now : ℤ) (result : Option Addr)
  | closed (pkg : Addr)
  | collected (gone : List Addr)

namespace PkgEvent

def opens (ev : PkgEvent) (a : Addr) : Bool :=
  match ev with
  | opened _ _ result => result = some a
  | _ => false

def closes (ev : PkgEvent) (a : Addr) : Bool :=
  match ev with
  | closed pkg => pkg = a
  | _ => false

/-- The path and the time of the last successful open, forgotten when the handle is released. -/
def remember (a : Addr) (last : Option (CString × ℤ)) : PkgEvent → Option (CString × ℤ)
  | opened path now result => if result = some a then some (path, now) else last
  | closed _ => last
  | collected gone => if a ∈ gone then none else last

end PkgEvent

abbrev PkgHistory := List PkgEvent

namespace PkgHistory

/-- The successful opens that returned `a`. -/
def opens (hist : PkgHistory) (a : Addr) : ℕ := hist.countP (·.opens a)

def closes (hist : PkgHistory) (a : Addr) : ℕ := hist.countP (·.closes a)

def lastOpen (hist : PkgHistory) (a : Addr) : Option (CString × ℤ) :=
  hist.foldl (PkgEvent.remember a) none

theorem opens_snoc (hist : PkgHistory) (ev : PkgEvent) (a : Addr) :
    opens (hist ++ [ev]) a = opens hist a + (ev.opens a).toNat := by
  rw [opens, List.countP_append, List.countP_singleton]
  cases ev.opens a <;> rfl

theorem closes_snoc (hist : PkgHistory) (ev : PkgEvent) (a : Addr) :
    closes (hist ++ [ev]) a = closes hist a + (ev.closes a).toNat := by
  rw [closes, List.countP_append, List.countP_singleton]
  cases ev.closes a <;> rfl

theorem lastOpen_snoc (hist : PkgHistory) (ev : PkgEvent) (a : Addr) :
    lastOpen (hist ++ [ev]) a = ev.remember a (lastOpen hist a) := List.foldl_concat ..

end PkgHistory

structure PkgState where
  registry : Registry
  history : PkgHistory

/-- `blockheap_alloc` hands out an element that is not in use, and `open` a descriptor that is
not open. -/
structure OpenEnv.Valid (env : OpenEnv) (s : Registry) : Prop where
  elem : s.handle env.elem = none
  fd : 0 ≤ env.fd → env.fd ∉ s.openFds

/-- One call; a `pkg_close` is matched to an earlier successful `pkg_open`. -/
inductive PkgStep : PkgState → PkgEvent → PkgState → Prop
  | opened {s : Registry} {hist : PkgHistory} (env : OpenEnv) (path : CString)
      (hvalid : env.Valid s) :
      PkgStep ⟨s, hist⟩ (.opened path env.now (pkgOpen s env path).handle)
        ⟨(pkgOpen s env path).registry,
          hist ++ [.opened path env.now (pkgOpen s env path).handle]⟩
  | closed {s : Registry} {hist : PkgHistory} (a : Addr)
      (hmatch : hist.closes a < hist.opens a) :
      PkgStep ⟨s, hist⟩ (.closed a) ⟨pkgClose s a, hist ++ [.closed a]⟩
  | collected {s : Registry} {hist : PkgHistory} (clock : Addr → ℤ) :
      PkgStep ⟨s, hist⟩ (.collected (s.pkgList.filter (· ∉ (pkgGc s clock).pkgList)))
        ⟨pkgGc s clock, hist ++ [.collected (s.pkgList.filter (· ∉ (pkgGc s clock).pkgList))]⟩

/-- Fewer than `2 ^ 31` opens of each handle are unmatched. -/
def PkgState.Bounded (st : PkgState) : Prop :=
  ∀ a, st.history.opens a < st.history.closes a + 2 ^ 31

/-- The walk of `pkg_gc` over handles still to come: it collects idle handles whose time is up,
and leaves the others alone. -/
theorem gcWalk_spec {s : Registry} {t : PkgTable} (clock : Addr → ℤ) (l : List Addr)
    (hr : Refines s t) (hnodup : l.Nodup) (hsub : ∀ a ∈ l, a ∈ s.pkgList) :
    ∃ acts t', Exec PkgTable.Step t acts t' ∧ Refines (l.foldl (pkgGcVisit clock) s) t' ∧
      (∀ a, Lease.acquired acts a = 0 ∧ Lease.released acts a = 0) ∧
      (∀ a ∈ (l.foldl (pkgGcVisit clock) s).pkgList,
        a ∈ s.pkgList ∧ (l.foldl (pkgGcVisit clock) s).handle a = s.handle a) ∧
      ∀ a ∈ s.pkgList, a ∉ (l.foldl (pkgGcVisit clock) s).pkgList →
        ∃ h, s.handle a = some h ∧ h.expired s.pkgLifetime (clock a) = true := by
  induction l generalizing s t with
  | nil =>
    exact ⟨[], t, Exec.nil t, hr, fun _ => ⟨rfl, rfl⟩, fun a ha => ⟨ha, rfl⟩,
      fun a ha hno => absurd ha hno⟩
  | cons a l ih =>
    obtain ⟨hal, hnodup⟩ := List.nodup_cons.mp hnodup
    have hmem : a ∈ s.pkgList := hsub a List.mem_cons_self
    obtain ⟨h, path, hl⟩ := hr.listed a hmem
    have hh := hl.handle
    rw [List.foldl_cons]
    by_cases hexp : h.expired s.pkgLifetime (clock a) = true
    · have hvisit : pkgGcVisit clock s a = pkgRelease s a := by
        simp only [pkgGcVisit, hh, hexp, if_true]
      have hidle : h.refcnt = 0 := by
        simp only [PkgHandle.expired, decide_eq_true_eq] at hexp
        exact hexp.1
      obtain ⟨hstep, hr₁⟩ := hr.release hmem hh hidle
      have hsub₁ : ∀ b ∈ l, b ∈ (pkgRelease s a).pkgList := by
        intro b hb
        exact (hr.mem_pkgRelease_iff hh).mpr
          ⟨ne_of_mem_of_not_mem hb hal, hsub b (List.mem_cons_of_mem _ hb)⟩
      obtain ⟨acts, t', hrun, hr', hcount, hstay, hgone⟩ := ih hr₁ hnodup hsub₁
      rw [hvisit]
      refine ⟨.collect a :: acts, t', hrun.cons hstep, hr', ?_, ?_, ?_⟩
      · intro b
        rw [Lease.acquired_cons, Lease.released_cons, (hcount b).1, (hcount b).2]
        exact ⟨rfl, rfl⟩
      · intro b hb
        obtain ⟨hmem₁, hsame⟩ := hstay b hb
        obtain ⟨hba, hold⟩ := (hr.mem_pkgRelease_iff hh).mp hmem₁
        exact ⟨hold, hsame.trans (pkgRelease_handle_ne hh hba)⟩
      · intro b hb hno
        by_cases hba : b = a
        · rw [hba]
          exact ⟨h, hh, hexp⟩
        · have hb₁ : b ∈ (pkgRelease s a).pkgList := (hr.mem_pkgRelease_iff hh).mpr ⟨hba, hb⟩
          obtain ⟨h', hh', hexp'⟩ := hgone b hb₁ hno
          rw [pkgRelease_handle_ne hh hba] at hh'
          rw [pkgRelease_pkgLifetime hh] at hexp'
          exact ⟨h', hh', hexp'⟩
    · have hvisit : pkgGcVisit clock s a = s := by
        simp only [pkgGcVisit, hh, if_neg hexp]
      rw [hvisit]
      exact ih hr hnodup fun b hb => hsub b (List.mem_cons_of_mem _ hb)

/-- What the history remembers of a handle, in the registry. -/
def Recorded (s : Registry) (t : PkgTable) (a : Addr) : Option (CString × ℤ) → Prop
  | some (path, now) =>
    a ∈ s.pkgList ∧ ∃ h, s.handle a = some h ∧ h.name = some path ∧ h.otime = now
  | none => t.held a = 0 ∧ ∀ h, a ∈ s.pkgList → s.handle a = some h → h.otime = 0

structure Sim (st : PkgState) (t : PkgTable) : Prop where
  refines : Refines st.registry t
  count : ∀ a, t.held a + st.history.closes a = st.history.opens a
  last : ∀ a, Recorded st.registry t a (st.history.lastOpen a)

section Sim

variable {s s' : Registry} {t t' : PkgTable} {hist : PkgHistory} {ev : PkgEvent} {a : Addr}

theorem Recorded.frame {last : Option (CString × ℤ)} (h : Recorded s t a last)
    (hmem : a ∈ s.pkgList ↔ a ∈ s'.pkgList) (hhandle : a ∈ s.pkgList → s'.handle a = s.handle a)
    (hheld : t'.held a = t.held a) : Recorded s' t' a last := by
  cases last with
  | none =>
    refine ⟨hheld.trans h.1, fun p ha hp => ?_⟩
    rw [hhandle (hmem.mpr ha)] at hp
    exact h.2 p (hmem.mpr ha) hp
  | some r =>
    obtain ⟨ha, p, hp, hname, htime⟩ := h
    exact ⟨hmem.mp ha, p, (hhandle ha).trans hp, hname, htime⟩

theorem Sim.extend (h : Sim ⟨s, hist⟩ t) {acts : List PkgAct} (hrun : Exec PkgTable.Step t acts t')
    (hr : Refines s' t') (hacquired : ∀ a, Lease.acquired acts a = (ev.opens a).toNat)
    (hreleased : ∀ a, Lease.released acts a = (ev.closes a).toNat)
    (hlast : ∀ a, Recorded s' t' a (ev.remember a (hist.lastOpen a))) :
    Sim ⟨s', hist ++ [ev]⟩ t' where
  refines := hr
  count := by
    intro a
    have hheld := Lease.run_held_eq hrun a
    have hold : t.held a + hist.closes a = hist.opens a := h.count a
    rw [hacquired, hreleased] at hheld
    dsimp only
    rw [PkgHistory.opens_snoc, PkgHistory.closes_snoc]
    omega
  last := by
    intro a
    dsimp only
    rw [PkgHistory.lastOpen_snoc]
    exact hlast a

def StepSim (t : PkgTable) (ev : PkgEvent) (st : PkgState) : Prop :=
  ∃ acts t', Exec PkgTable.Step t acts t' ∧ Sim st t' ∧
    ∀ a, Lease.released acts a = (ev.closes a).toNat

theorem Sim.not_mem_of_handle (h : Sim ⟨s, hist⟩ t) (hfree : s.handle a = none) :
    a ∉ s.pkgList := by
  intro hmem
  obtain ⟨p, path, hl⟩ := h.refines.listed a hmem
  have := hl.handle
  rw [hfree] at this
  cases this

theorem Sim.idle_of_not_mem (h : Sim ⟨s, hist⟩ t) (hmem : a ∉ s.pkgList) :
    t.held a = 0 ∧ hist.lastOpen a = none := by
  constructor
  · by_contra hheld
    exact hmem (h.refines.mem_of_held (Nat.pos_of_ne_zero hheld))
  · have hlast : Recorded s t a (hist.lastOpen a) := h.last a
    cases hl : hist.lastOpen a with
    | none => rfl
    | some r =>
      rw [hl] at hlast
      exact absurd hlast.1 hmem

variable {env : OpenEnv} {path : CString}

theorem Sim.created (h : Sim ⟨s, hist⟩ t) (hvalid : env.Valid s)
    (hnew : pkgHandleByname s path = none) (hf : env.fileFails = false) :
    PkgTable.Step t (.create env.elem (path, env.fd))
        { t with res := Function.update t.res env.elem (some (path, env.fd)) } ∧
      Refines ((s.prepare env path).list env.elem)
        { t with res := Function.update t.res env.elem (some (path, env.fd)) } := by
  rw [OpenEnv.fileFails, Bool.or_eq_false_iff, decide_eq_false_iff_not] at hf
  have hfd : 0 ≤ env.fd := by omega
  have hfresh := h.not_mem_of_handle hvalid.elem
  refine h.refines.create (h := ⟨(dbPkgAdd s env.statErrno).2, env.fd, 0, 0, some path⟩) ?_ ?_
    Registry.prepare_handle_self hfresh hnew rfl rfl hfd (hvalid.fd hfd)
    (Registry.prepare_openFds hfd)
  · rw [Registry.list, Registry.prepare_pkgList]
  · intro b hb
    exact Registry.prepare_handle_ne (ne_of_mem_of_not_mem hb hfresh)

theorem Sim.opened_listed (h : Sim ⟨s, hist⟩ t) {a : Addr} (hfind : pkgHandleByname s path = some a)
    (now : ℤ) (hbound : t.held a + 1 < 2 ^ 31) :
    StepSim t (.opened path now (some a))
      ⟨s.touch a now, hist ++ [.opened path now (some a)]⟩ := by
  obtain ⟨fd, hres⟩ := h.refines.byname_eq_some_iff.mp hfind
  have hmem : a ∈ s.pkgList := h.refines.res_isSome_iff.mp ⟨_, hres⟩
  obtain ⟨p, q, hl⟩ := h.refines.listed a hmem
  have hpath : q = path := congrArg Prod.fst (Option.some.inj (hl.res.symm.trans hres))
  have hstep : PkgTable.Step t (.acquire a)
      { t with held := Function.update t.held a (t.held a + 1) } := .acquire hres
  have hcount : wrapInt (p.refcnt + 1) = (t.held a + 1 : ℕ) := by
    rw [hl.held, wrapInt_of_lt (by omega) (by omega)]
    rfl
  rw [Registry.touch_of_handle hl.handle]
  refine ⟨[.acquire a], _, Exec.single hstep, h.extend (Exec.single hstep)
    (h.refines.recount hstep hl.handle rfl rfl hcount) ?_ ?_ ?_, ?_⟩
  · intro b
    rw [Lease.acquired_singleton]
    simp [Lease.Act.acquires, PkgEvent.opens]
  · intro b
    rw [Lease.released_singleton]
    rfl
  · intro b
    by_cases hba : b = a
    · rw [hba, PkgEvent.remember, if_pos rfl]
      exact ⟨hmem, _, Registry.handle_setHandle_self, by rw [← hpath]; exact hl.name, rfl⟩
    · rw [PkgEvent.remember, if_neg (fun hab => hba (Option.some.inj hab).symm)]
      exact (h.last b).frame Iff.rfl (fun _ => Registry.handle_setHandle_ne hba)
        (Function.update_of_ne hba ..)
  · intro b
    rw [Lease.released_singleton]
    rfl

/-- An open that returns `NULL` is not remembered. -/
theorem Sim.opened_none (h : Sim ⟨s, hist⟩ t) {acts : List PkgAct} {now : ℤ}
    (hrun : Exec PkgTable.Step t acts t') (hr : Refines s' t')
    (hcount : ∀ a, Lease.acquired acts a = 0 ∧ Lease.released acts a = 0)
    (hlast : ∀ a, Recorded s' t' a (hist.lastOpen a)) :
    StepSim t (.opened path now none) ⟨s', hist ++ [.opened path now none]⟩ :=
  ⟨acts, t', hrun, h.extend hrun hr (fun a => (hcount a).1) (fun a => (hcount a).2) hlast,
    fun a => (hcount a).2⟩

theorem Sim.opened_fileFails (h : Sim ⟨s, hist⟩ t) (hvalid : env.Valid s) (now : ℤ) :
    StepSim t (.opened path now none)
      ⟨pkgRelease (s.prepare env path) env.elem, hist ++ [.opened path now none]⟩ := by
  have hfresh := h.not_mem_of_handle hvalid.elem
  have hself : (s.prepare env path).handle env.elem = _ := Registry.prepare_handle_self
  have hlist : (pkgRelease (s.prepare env path) env.elem).pkgList = s.pkgList := by
    rw [pkgRelease_pkgList hself, Registry.prepare_pkgList, List.erase_of_not_mem hfresh]
  have hhandle (b : Addr) (hb : b ∈ s.pkgList) :
      (pkgRelease (s.prepare env path) env.elem).handle b = s.handle b := by
    have hne : b ≠ env.elem := ne_of_mem_of_not_mem hb hfresh
    rw [pkgRelease_handle_ne hself hne, Registry.prepare_handle_ne hne]
  have hr : Refines (pkgRelease (s.prepare env path) env.elem) t := by
    refine h.refines.frame hlist hhandle fun b r hres hopen => ?_
    obtain ⟨p, q, hl⟩ := h.refines.listed b (h.refines.res_isSome_iff.mp ⟨r, hres⟩)
    have hr2 : r.2 = p.fd := congrArg Prod.snd (Option.some.inj (hres.symm.trans hl.res))
    have hpos := hl.open_nonneg
    rw [pkgRelease_openFds hself]
    by_cases hfd : 0 ≤ env.fd
    · have hne : r.2 ≠ env.fd := by
        intro heq
        exact hvalid.fd hfd (heq ▸ hopen)
      rw [Registry.prepare_openFds hfd]
      split_ifs
      · exact (List.mem_erase_of_ne hne).mpr (List.mem_cons_of_mem _ hopen)
      · exact List.mem_cons_of_mem _ hopen
    · have hsame : (s.prepare env path).openFds = s.openFds := by
        obtain ⟨gPkgid, hadd⟩ := dbPkgAdd_frame s env.statErrno
        rw [Registry.prepare, Registry.openFd, if_pos (by omega), hadd]
        rfl
      rw [hsame]
      split_ifs
      · exact (List.mem_erase_of_ne (by dsimp only; omega)).mpr hopen
      · exact hopen
  refine h.opened_none (Exec.nil t) hr (fun _ => ⟨rfl, rfl⟩) fun b => ?_
  exact (h.last b).frame (by rw [hlist]) (hhandle b) rfl

theorem Sim.created_recorded (h : Sim ⟨s, hist⟩ t) (hvalid : env.Valid s) (b : Addr) :
    Recorded ((s.prepare env path).list env.elem)
      { t with res := Function.update t.res env.elem (some (path, env.fd)) } b
      (hist.lastOpen b) := by
  have hfresh := h.not_mem_of_handle hvalid.elem
  by_cases hb : b = env.elem
  · obtain ⟨hheld, hnone⟩ := h.idle_of_not_mem hfresh
    rw [hb, hnone]
    refine ⟨hheld, fun p _ hp => ?_⟩
    have hself : (s.prepare env path).handle env.elem = some p := hp
    rw [Registry.prepare_handle_self] at hself
    cases hself
    rfl
  · refine (h.last b).frame ?_ (fun _ => Registry.prepare_handle_ne hb) rfl
    rw [Registry.list, Registry.prepare_pkgList]
    simp [hb]

theorem Sim.opened_badArchive (h : Sim ⟨s, hist⟩ t) (hvalid : env.Valid s)
    (hnew : pkgHandleByname s path = none) (hf : env.fileFails = false) (now : ℤ) :
    StepSim t (.opened path now none)
      ⟨(s.prepare env path).list env.elem, hist ++ [.opened path now none]⟩ := by
  obtain ⟨hstep, hr⟩ := h.created hvalid hnew hf
  refine h.opened_none (Exec.single hstep) hr (fun b => ?_) (h.created_recorded hvalid)
  rw [Lease.acquired_singleton, Lease.released_singleton]
  exact ⟨rfl, rfl⟩

theorem Sim.opened_imported (h : Sim ⟨s, hist⟩ t) (hvalid : env.Valid s)
    (hnew : pkgHandleByname s path = none) (hf : env.fileFails = false) (now : ℤ) :
    StepSim t (.opened path now (some env.elem))
      ⟨(s.imported env path).touch env.elem now,
        hist ++ [.opened path now (some env.elem)]⟩ := by
  obtain ⟨hcreate, hcreated⟩ := h.created hvalid hnew hf
  have hfresh := h.not_mem_of_handle hvalid.elem
  have hheld := (h.idle_of_not_mem hfresh).1
  have himported : Refines (s.imported env path)
      { t with res := Function.update t.res env.elem (some (path, env.fd)) } :=
    hcreated.frame rfl (fun _ _ => rfl) fun _ _ _ hopen => hopen
  have hself : (s.imported env path).handle env.elem = _ := Registry.prepare_handle_self
  have hacquire : PkgTable.Step
      { t with res := Function.update t.res env.elem (some (path, env.fd)) } (.acquire env.elem)
      ⟨Function.update t.res env.elem (some (path, env.fd)),
        Function.update t.held env.elem (t.held env.elem + 1)⟩ :=
    .acquire (Function.update_self ..)
  have hcount : wrapInt (0 + 1) = (t.held env.elem + 1 : ℕ) := by
    rw [hheld]
    rfl
  have hrun : Exec PkgTable.Step t [.create env.elem (path, env.fd), .acquire env.elem] _ :=
    Exec.cons hcreate (Exec.single hacquire)
  have hopens (b : Addr) : Lease.acquired
      [.create env.elem (path, env.fd), Lease.Act.acquire env.elem] b =
        (PkgEvent.opens (.opened path now (some env.elem)) b).toNat := by
    rw [Lease.acquired_cons, Lease.acquired_singleton]
    simp [Lease.Act.acquires, PkgEvent.opens]
  have hcloses (b : Addr) : Lease.released
      [.create env.elem (path, env.fd), Lease.Act.acquire env.elem] b =
        (PkgEvent.closes (.opened path now (some env.elem)) b).toNat := rfl
  rw [Registry.touch_of_handle hself]
  refine ⟨_, _, hrun, h.extend hrun (himported.recount hacquire hself rfl rfl hcount) hopens
    hcloses ?_, hcloses⟩
  intro b
  by_cases hb : b = env.elem
  · rw [hb, PkgEvent.remember, if_pos rfl]
    refine ⟨?_, _, Registry.handle_setHandle_self, rfl, rfl⟩
    change env.elem ∈ (s.prepare env path).pkgList ++ [env.elem]
    simp
  · rw [PkgEvent.remember, if_neg (fun hab => hb (Option.some.inj hab).symm)]
    have hcreated : Recorded ((s.prepare env path).list env.elem) _ b (hist.lastOpen b) :=
      h.created_recorded hvalid b
    exact hcreated.frame Iff.rfl (fun _ => Registry.handle_setHandle_ne hb)
      (Function.update_of_ne hb ..)

theorem Sim.closed (h : Sim ⟨s, hist⟩ t) (hmatch : hist.closes a < hist.opens a)
    (hbound : t.held a < 2 ^ 31) :
    StepSim t (.closed a) ⟨pkgClose s a, hist ++ [.closed a]⟩ := by
  have hcounts : t.held a + hist.closes a = hist.opens a := h.count a
  have hheld : 0 < t.held a := by omega
  obtain ⟨p, q, hl⟩ := h.refines.listed a (h.refines.mem_of_held hheld)
  have hstep : PkgTable.Step t (.release a)
      { t with held := Function.update t.held a (t.held a - 1) } := .release hheld
  have hcount : wrapInt (p.refcnt - 1) = (t.held a - 1 : ℕ) := by
    rw [hl.held, wrapInt_of_lt (by omega) (by omega)]
    omega
  have hclose : pkgClose s a = s.setHandle a { p with refcnt := wrapInt (p.refcnt - 1) } := by
    rw [pkgClose, hl.handle]
  have hreleased (b : Addr) : Lease.released [(.release a : PkgAct)] b =
      (PkgEvent.closes (.closed a) b).toNat := by
    rw [Lease.released_singleton]
    rfl
  rw [hclose]
  refine ⟨_, _, Exec.single hstep, h.extend (Exec.single hstep)
    (h.refines.recount hstep hl.handle rfl rfl hcount) (fun b => ?_) hreleased ?_, hreleased⟩
  · rw [Lease.acquired_singleton]
    rfl
  · intro b
    have hlast : Recorded s t b (hist.lastOpen b) := h.last b
    rw [PkgEvent.remember]
    by_cases hba : b = a
    · subst hba
      -- the handle has an unmatched open, so there is an open to remember
      cases hr : hist.lastOpen b with
      | none =>
        rw [hr] at hlast
        have hzero := hlast.1
        omega
      | some r =>
        rw [hr] at hlast
        obtain ⟨hmem, p', hp', hname, htime⟩ := hlast
        have heq : p' = p := Option.some.inj (hp'.symm.trans hl.handle)
        subst heq
        exact ⟨hmem, _, Registry.handle_setHandle_self, hname, htime⟩
    · exact hlast.frame Iff.rfl (fun _ => Registry.handle_setHandle_ne hba)
        (Function.update_of_ne hba ..)

theorem Sim.collected (h : Sim ⟨s, hist⟩ t) (clock : Addr → ℤ) :
    StepSim t (.collected (s.pkgList.filter (· ∉ (pkgGc s clock).pkgList)))
      ⟨pkgGc s clock,
        hist ++ [.collected (s.pkgList.filter (· ∉ (pkgGc s clock).pkgList))]⟩ := by
  obtain ⟨acts, t', hrun, hr, hcount, hstay, hgone⟩ :=
    gcWalk_spec clock s.pkgList h.refines h.refines.nodup fun _ ha => ha
  change Refines (pkgGc s clock) t' at hr
  change ∀ a ∈ (pkgGc s clock).pkgList, a ∈ s.pkgList ∧ (pkgGc s clock).handle a = s.handle a
    at hstay
  refine ⟨acts, t', hrun, h.extend hrun hr (fun a => (hcount a).1) (fun a => (hcount a).2) ?_,
    fun a => (hcount a).2⟩
  intro a
  have hheld : t'.held a = t.held a := by
    have := Lease.run_held_eq hrun a
    rw [(hcount a).1, (hcount a).2] at this
    exact this
  rw [PkgEvent.remember]
  split_ifs with hmem
  · rw [List.mem_filter, decide_eq_true_eq] at hmem
    refine ⟨?_, fun p ha => absurd ha hmem.2⟩
    by_contra hpos
    exact hmem.2 (hr.mem_of_held (Nat.pos_of_ne_zero hpos))
  · rw [List.mem_filter, decide_eq_true_eq, not_and, not_not] at hmem
    exact (h.last a).frame ⟨hmem, fun ha => (hstay a ha).1⟩ (fun ha => (hstay a (hmem ha)).2) hheld

end Sim

/-- The step lemma: every call is a few actions on the table. -/
theorem PkgStep.sim {st st' : PkgState} {ev : PkgEvent} {t : PkgTable} (hstep : PkgStep st ev st')
    (h : Sim st t) (hbound : st.Bounded) (hbound' : st'.Bounded) : StepSim t ev st' := by
  cases hstep with
  | @opened s hist env path hvalid =>
    rcases pkgOpen_cases s env path with ⟨a, hfind, hopen⟩ | ⟨hnew, hf, hopen⟩ |
      ⟨hnew, hf, ha, hopen⟩ | ⟨hnew, hf, ha, hopen⟩
    · have hb := hbound' a
      have hcount : t.held a + hist.closes a = hist.opens a := h.count a
      simp only [hopen, PkgHistory.opens_snoc, PkgHistory.closes_snoc, PkgEvent.opens,
        PkgEvent.closes, decide_true, Bool.toNat_true, Bool.toNat_false] at hb
      simp only [hopen]
      exact h.opened_listed hfind env.now (by omega)
    · simp only [hopen]
      exact h.opened_fileFails hvalid env.now
    · simp only [hopen]
      exact h.opened_badArchive hvalid hnew hf env.now
    · simp only [hopen]
      exact h.opened_imported hvalid hnew hf env.now
  | @closed s hist a hmatch =>
    have hb := hbound a
    have hcount : t.held a + hist.closes a = hist.opens a := h.count a
    exact h.closed hmatch (by dsimp only at hb; omega)
  | collected clock => exact h.collected clock

theorem PkgStep.history {st st' : PkgState} {ev : PkgEvent} (h : PkgStep st ev st') :
    st'.history = st.history ++ [ev] := by
  cases h <;> rfl

/-- A call after which every handle has fewer than `2 ^ 31` unmatched opens. -/
def PkgState.BoundedStep (st : PkgState) (ev : PkgEvent) (st' : PkgState) : Prop :=
  PkgStep st ev st' ∧ st'.Bounded

/-- The run lemma. -/
theorem pkgRun_sim {st st' : PkgState} {evs : List PkgEvent} {t : PkgTable}
    (hrun : Exec PkgState.BoundedStep st evs st') (h : Sim st t) (hbound : st.Bounded) :
    ∃ acts t', Exec PkgTable.Step t acts t' ∧ Sim st' t' ∧ st'.Bounded ∧
      ∀ a, Lease.released acts a + st.history.closes a = st'.history.closes a := by
  induction hrun with
  | nil => exact ⟨[], t, Exec.nil t, h, hbound, fun a => Nat.zero_add _⟩
  | @snoc st₁ st₂ evs ev _ hlast ih =>
    obtain ⟨acts, t₁, hacts, hsim, hbound₁, hcloses⟩ := ih
    obtain ⟨acts', t₂, hacts', hsim', hreleased⟩ := hlast.1.sim hsim hbound₁ hlast.2
    refine ⟨acts ++ acts', t₂, hacts.append hacts', hsim', hlast.2, fun a => ?_⟩
    rw [Lease.released_append, hreleased, hlast.1.history, PkgHistory.closes_snoc, ← hcloses a]
    omega

theorem sim_init (openFds : List ℤ) (dlinkCount pkgLifetime : ℤ) :
    Sim ⟨pkgInit openFds dlinkCount pkgLifetime, []⟩ ⟨fun _ => none, fun _ => 0⟩ where
  refines := refines_init openFds dlinkCount pkgLifetime
  count := fun _ => rfl
  last := fun _ => ⟨rfl, fun _ ha => absurd ha List.not_mem_nil⟩

end JailFs
