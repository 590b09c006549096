import JailFs.PkgRun

/-!
# What holds of the package registry over whole runs

As long as no handle has `2 ^ 31` unmatched opens, the registry lists each path once, counts its
users, and never drops a handle that is in use. `refcnt` is an `int` and `otime + pkg_lifetime` a
`time_t`: past their ranges the count returns to zero with the handle in use, and a fresh handle
looks old.
-/

namespace JailFs

/-- The registry and its history agree. -/
structure PkgSafe (st : PkgState) : Prop where
  nodup : st.registry.pkgList.Nodup
  unique : ∀ a ∈ st.registry.pkgList, ∀ b ∈ st.registry.pkgList, ∀ h k,
    st.registry.handle a = some h → st.registry.handle b = some k → h.name = k.name → a = b
  refcnt : ∀ a ∈ st.registry.pkgList, ∃ h, st.registry.handle a = some h ∧
    h.refcnt = (st.history.opens a : ℤ) - st.history.closes a
  reopen : ∀ a ∈ st.registry.pkgList, ∀ h path env, st.registry.handle a = some h →
    h.name = some path → (pkgOpen st.registry env path).handle = some a
  gc : ∀ clock, ∀ a ∈ st.registry.pkgList, a ∉ (pkgGc st.registry clock).pkgList →
    ∃ h, st.registry.handle a = some h ∧ h.refcnt = 0 ∧
      h.otime = ((st.history.lastOpen a).map Prod.snd).getD 0 ∧
      (-2 ^ 63 ≤ h.otime + st.registry.pkgLifetime →
        h.otime + st.registry.pkgLifetime < 2 ^ 63 →
        h.otime + st.registry.pkgLifetime < clock a)
  kept : ∀ a, st.history.closes a < st.history.opens a → a ∈ st.registry.pkgList ∧
    ∃ h path now, st.registry.handle a = some h ∧ st.history.lastOpen a = some (path, now) ∧
      h.name = some path ∧ 0 ≤ h.fd ∧ h.fd ∈ st.registry.openFds

/-- Still listed, with the same name and the same open descriptor. -/
def Intact (s s' : Registry) (a : Addr) : Prop :=
  a ∈ s'.pkgList ∧ ∃ h h', s.handle a = some h ∧ s'.handle a = some h' ∧ h'.name = h.name ∧
    h'.fd = h.fd ∧ h'.fd ∈ s'.openFds

section Safe

variable {st st' : PkgState} {t : PkgTable} {a : Addr}

theorem Sim.safe (h : Sim st t) : PkgSafe st := by
  have hr := h.refines
  refine ⟨hr.nodup, ?_, ?_, ?_, ?_, ?_⟩
  · intro a ha b hb p q hp hq hname
    obtain ⟨x, hla⟩ := hr.listedAs ha hp
    obtain ⟨y, hlb⟩ := hr.listedAs hb hq
    have hxy : x = y := by
      rw [hla.name, hlb.name] at hname
      exact Option.some.inj hname
    exact hr.inv.unique a b _ _ hla.res hlb.res hxy
  · intro a ha
    obtain ⟨p, x, hl⟩ := hr.listed a ha
    refine ⟨p, hl.handle, ?_⟩
    have := h.count a
    rw [hl.held]
    omega
  · intro a ha p path env hp hname
    obtain ⟨x, hl⟩ := hr.listedAs ha hp
    have hx : x = path := Option.some.inj (hl.name.symm.trans hname)
    subst hx
    rw [pkgOpen_listed (hr.byname_eq_some_iff.mpr ⟨_, hl.res⟩)]
  · intro clock a ha hgone
    obtain ⟨_, _, _, _, _, _, hexpired⟩ :=
      gcWalk_spec clock st.registry.pkgList hr hr.nodup fun _ hb => hb
    obtain ⟨p, hp, hexp⟩ := hexpired a ha hgone
    rw [PkgHandle.expired, decide_eq_true_eq] at hexp
    refine ⟨p, hp, hexp.1, ?_, fun hlo hhi => ?_⟩
    · have hlast := h.last a
      cases hl : st.history.lastOpen a with
      | none =>
        rw [hl] at hlast
        exact hlast.2 p ha hp
      | some r =>
        rw [hl] at hlast
        obtain ⟨_, p', hp', _, htime⟩ := hlast
        obtain rfl : p' = p := Option.some.inj (hp'.symm.trans hp)
        exact htime
    · have hwrap : wrapTime (p.otime + st.registry.pkgLifetime) =
          p.otime + st.registry.pkgLifetime := Int.bmod_eq_of_le (by omega) (by omega)
      rw [← hwrap]
      exact hexp.2
  · intro a hopen
    have hcount := h.count a
    have hheld : t.held a ≠ 0 := by omega
    have hlast := h.last a
    cases hl : st.history.lastOpen a with
    | none =>
      rw [hl] at hlast
      exact absurd hlast.1 hheld
    | some r =>
      obtain ⟨path, now⟩ := r
      rw [hl] at hlast
      obtain ⟨hmem, p, hp, hname, _⟩ := hlast
      obtain ⟨x, hla⟩ := hr.listedAs hmem hp
      exact ⟨hmem, p, path, now, hp, rfl, hname, hla.open_nonneg, hla.open_mem⟩

/-- A handle whose opens outnumber the closes made until the end of a run is the same at the end
of it. -/
theorem Sim.intact (h : Sim st t) (hbound : st.Bounded) {evs : List PkgEvent}
    (hrun : Exec PkgState.BoundedStep st evs st')
    (hopen : st'.history.closes a < st.history.opens a) :
    Intact st.registry st'.registry a := by
  obtain ⟨acts, t', hacts, hsim, _, hcloses⟩ := pkgRun_sim hrun h hbound
  have hcount := h.count a
  have hreleased := hcloses a
  have hres := Lease.run_res_eq hacts h.refines.inv (a := a) (by omega)
  obtain ⟨p, x, hl⟩ := h.refines.listed a (h.refines.mem_of_held (by omega))
  rw [hl.res] at hres
  have hmem' : a ∈ st'.registry.pkgList := hsim.refines.res_isSome_iff.mp ⟨_, hres⟩
  obtain ⟨p', x', hl'⟩ := hsim.refines.listed a hmem'
  have heq : (x', p'.fd) = (x, p.fd) := Option.some.inj (hl'.res.symm.trans hres)
  obtain ⟨hx, hfd⟩ := Prod.mk.inj heq
  exact ⟨hmem', p, p', hl.handle, hl'.handle, by rw [hl.name, hl'.name, hx], hfd, hl'.open_mem⟩

end Safe

/-- In every run of opens, matched closes and collections, in which no handle gets `2 ^ 31`
unmatched opens: the registry agrees with its history, and a handle stays listed, named and open
for as long as an open of it is unmatched. -/
theorem pkgRegistry_safe {openFds : List ℤ} {dlinkCount pkgLifetime : ℤ} {evs : List PkgEvent}
    {st : PkgState}
    (hrun : Exec PkgState.BoundedStep ⟨pkgInit openFds dlinkCount pkgLifetime, []⟩ evs st) :
    PkgSafe st ∧ ∀ evs' st', Exec PkgState.BoundedStep st evs' st' →
      ∀ a, st'.history.closes a < st.history.opens a → Intact st.registry st'.registry a := by
  have hinit : PkgState.Bounded ⟨pkgInit openFds dlinkCount pkgLifetime, []⟩ := fun a => by
    change 0 < 0 + 2 ^ 31
    omega
  obtain ⟨_, t, _, hsim, hbound, _⟩ :=
    pkgRun_sim hrun (sim_init openFds dlinkCount pkgLifetime) hinit
  exact ⟨hsim.safe, fun evs' st' hrun' a => hsim.intact hbound hrun'⟩

section Overflow

def pathX : CString := .ofChars ['x']

/-- The first open of a path imports it; the later ones find it. -/
def firstOpen (now : ℤ) : OpenEnv := ⟨none, 1, 5, false, true, true, [], now⟩

def laterOpen (now : ℤ) : OpenEnv := ⟨none, 2, -1, false, true, true, [], now⟩

def openedX (now : ℤ) : PkgEvent := .opened pathX now (some 1)

theorem firstOpen_valid (now : ℤ) : (firstOpen now).Valid (pkgInit [] 0 60) := by
  constructor
  · rfl
  · exact fun _ => List.not_mem_nil

theorem firstOpen_step (now : ℤ) : PkgStep ⟨pkgInit [] 0 60, []⟩ (openedX now)
    ⟨(pkgOpen (pkgInit [] 0 60) (firstOpen now) pathX).registry, [openedX now]⟩ :=
  .opened (firstOpen now) pathX (firstOpen_valid now)

/-- One open of `"x"` in a new registry. -/
theorem pkgRegistry_safe_open : ∃ st,
    Exec PkgState.BoundedStep ⟨pkgInit [] 0 60, []⟩ [openedX 10] st ∧
      PkgSafe st ∧ ∀ evs' st', Exec PkgState.BoundedStep st evs' st' →
        ∀ a, st'.history.closes a < st.history.opens a →
          Intact st.registry st'.registry a := by
  have hrun : Exec PkgState.BoundedStep ⟨pkgInit [] 0 60, []⟩ [openedX 10] _ :=
    Exec.single ⟨firstOpen_step 10, fun a => by
      apply lt_of_le_of_lt List.countP_le_length
      change 1 < _ + 2 ^ 31
      omega⟩
  exact ⟨_, hrun, pkgRegistry_safe hrun⟩

theorem open_many (n : ℕ) : ∃ s : Registry,
    Exec PkgStep ⟨pkgInit [] 0 60, []⟩ (List.replicate (n + 1) (openedX 10))
        ⟨s, List.replicate (n + 1) (openedX 10)⟩ ∧
      s.pkgList = [1] ∧ s.pkgLifetime = 60 ∧ s.handle 2 = none ∧
      s.handle 1 = some ⟨2, 5, wrapInt (n + 1), 10, some pathX⟩ := by
  induction n with
  | zero => exact ⟨_, Exec.single (firstOpen_step 10), by decide, by decide, by decide, by decide⟩
  | succ n ih =>
    obtain ⟨s, hrun, hlist, hlife, hfree, hh⟩ := ih
    have hnamed : s.named pathX 1 = true := by
      rw [Registry.named, hh]
      simp
    have hfind : pkgHandleByname s pathX = some 1 := by
      rw [pkgHandleByname, hlist]
      exact List.find?_cons_of_pos hnamed
    have hvalid : (laterOpen 10).Valid s := ⟨hfree, fun h => absurd h (by decide)⟩
    have hopen : pkgOpen s (laterOpen 10) pathX = _ := pkgOpen_listed hfind
    rw [Registry.touch_of_handle hh] at hopen
    have hstep : PkgStep ⟨s, List.replicate (n + 1) (openedX 10)⟩ _ _ :=
      .opened (laterOpen 10) pathX hvalid
    rw [hopen] at hstep
    rw [List.replicate_succ']
    refine ⟨_, hrun.snoc hstep, hlist, hlife, ?_, ?_⟩
    · exact (Registry.handle_setHandle_ne (by decide)).trans hfree
    · rw [Registry.handle_setHandle_self]
      dsimp only
      rw [wrapInt_wrapInt_add_one]
      push_cast
      rfl

theorem pkgGc_singleton {s : Registry} {a : Addr} {h : PkgHandle} {clock : Addr → ℤ}
    (hlist : s.pkgList = [a]) (hh : s.handle a = some h)
    (hexp : h.expired s.pkgLifetime (clock a) = true) : (pkgGc s clock).pkgList = [] := by
  rw [pkgGc, hlist, List.foldl_cons, List.foldl_nil, pkgGcVisit, hh]
  dsimp only
  rw [if_pos hexp, pkgRelease_pkgList hh, hlist]
  simp

/-- After `2 ^ 32` opens `refcnt` is zero again, and `pkg_gc` releases a handle that nobody has
closed. Near the end of `time_t`, `pkg_gc` releases a handle opened in the same second. -/
theorem refcnt_and_otime_overflow :
    (∃ s : Registry, Exec PkgStep ⟨pkgInit [] 0 60, []⟩ (List.replicate (2 ^ 32) (openedX 10))
        ⟨s, List.replicate (2 ^ 32) (openedX 10)⟩ ∧
      PkgHistory.opens (List.replicate (2 ^ 32) (openedX 10)) 1 = 2 ^ 32 ∧
      PkgHistory.closes (List.replicate (2 ^ 32) (openedX 10)) 1 = 0 ∧
      (∃ h, s.handle 1 = some h ∧ h.refcnt = 0) ∧ 1 ∈ s.pkgList ∧
      1 ∉ (pkgGc s fun _ => 1000).pkgList) ∧
    ∃ st, Exec PkgStep ⟨pkgInit [] 0 60, []⟩ [openedX (2 ^ 63 - 1), .closed 1] st ∧
      PkgHistory.lastOpen st.history 1 = some (pathX, 2 ^ 63 - 1) ∧ 1 ∈ st.registry.pkgList ∧
      1 ∉ (pkgGc st.registry fun _ => 2 ^ 63 - 1).pkgList := by
  constructor
  · obtain ⟨s, hrun, hlist, hlife, _, hh⟩ := open_many (2 ^ 32 - 1)
    rw [Nat.sub_add_cancel (by omega)] at hrun
    have hsum : ((2 ^ 32 - 1 : ℕ) : ℤ) + 1 = 2 ^ 32 := by omega
    have hzero : wrapInt (2 ^ 32) = 0 := by decide
    rw [hsum, hzero] at hh
    refine ⟨s, hrun, ?_, ?_, ⟨_, hh, rfl⟩, by rw [hlist]; exact List.mem_singleton_self 1, ?_⟩
    · rw [PkgHistory.opens, List.countP_replicate]
      rfl
    · rw [PkgHistory.closes, List.countP_replicate]
      rfl
    · rw [pkgGc_singleton hlist hh (by rw [hlife]; decide)]
      exact List.not_mem_nil
  · refine ⟨_, Exec.cons (firstOpen_step _) (Exec.single (.closed 1 (by decide))), ?_, ?_, ?_⟩
    · decide
    · decide
    · rw [pkgGc_singleton (a := 1) (by decide) rfl (by decide)]
      exact List.not_mem_nil

end Overflow

end JailFs
