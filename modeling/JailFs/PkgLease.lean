import JailFs.Lease
import JailFs.PkgOpen

/-!
# The package registry as a table of leases

A listed handle is a resource: its name and its descriptor, with `refcnt` the number of leases.
`Refines` connects a registry to such a table, and each of `pkg_open`, `pkg_close` and `pkg_gc` is
a few actions on it. The rules of the table then give what holds over whole runs.
-/

namespace JailFs

abbrev PkgTable := Lease.Table Addr (CString × ℤ)

abbrev PkgAct := Lease.Act Addr (CString × ℤ)

abbrev PkgTable.Step (t : PkgTable) (act : PkgAct) (t' : PkgTable) : Prop :=
  Lease.Step Prod.fst t act t'

abbrev PkgTable.Inv (t : PkgTable) : Prop := Lease.Inv Prod.fst t

/-- A listed handle and its resource. -/
structure ListedAs (s : Registry) (t : PkgTable) (a : Addr) (h : PkgHandle) (path : CString) :
    Prop where
  handle : s.handle a = some h
  name : h.name = some path
  res : t.res a = some (path, h.fd)
  held : h.refcnt = t.held a
  open_nonneg : 0 ≤ h.fd
  open_mem : h.fd ∈ s.openFds

structure Refines (s : Registry) (t : PkgTable) : Prop where
  nodup : s.pkgList.Nodup
  listed : ∀ a ∈ s.pkgList, ∃ h path, ListedAs s t a h path
  unlisted : ∀ a ∉ s.pkgList, t.res a = none
  fds : ∀ a b p q fd, t.res a = some (p, fd) → t.res b = some (q, fd) → a = b
  inv : t.Inv

theorem refines_init (openFds : List ℤ) (dlinkCount pkgLifetime : ℤ) :
    Refines (pkgInit openFds dlinkCount pkgLifetime) ⟨fun _ => none, fun _ => 0⟩ where
  nodup := List.nodup_nil
  listed := fun a ha => absurd ha List.not_mem_nil
  unlisted := fun _ _ => rfl
  fds := by
    intro a b p q fd ha
    cases ha
  inv :=
    { unique := by
        intro a b r s ha
        cases ha
      listed := fun a ha => absurd ha (Nat.lt_irrefl 0) }

section Refines

variable {s s' : Registry} {t t' : PkgTable} {a : Addr} {h : PkgHandle} {path : CString}

theorem Refines.res_isSome_iff (hr : Refines s t) : (∃ r, t.res a = some r) ↔ a ∈ s.pkgList := by
  constructor
  · rintro ⟨r, hres⟩
    by_contra hmem
    rw [hr.unlisted a hmem] at hres
    cases hres
  · intro hmem
    obtain ⟨h, path, hl⟩ := hr.listed a hmem
    exact ⟨_, hl.res⟩

/-- A listed handle is listed as what it is. -/
theorem Refines.listedAs (hr : Refines s t) (hmem : a ∈ s.pkgList) (hh : s.handle a = some h) :
    ∃ path, ListedAs s t a h path := by
  obtain ⟨h', path, hl⟩ := hr.listed a hmem
  obtain rfl : h' = h := Option.some.inj (hl.handle.symm.trans hh)
  exact ⟨path, hl⟩

theorem Refines.mem_pkgRelease_iff (hr : Refines s t) (hh : s.handle a = some h) {b : Addr} :
    b ∈ (pkgRelease s a).pkgList ↔ b ≠ a ∧ b ∈ s.pkgList := by
  rw [pkgRelease_pkgList hh]
  exact hr.nodup.mem_erase_iff

theorem Refines.mem_of_held (hr : Refines s t) (hheld : 0 < t.held a) : a ∈ s.pkgList :=
  hr.res_isSome_iff.mp (hr.inv.listed a hheld)

/-- `pkg_open` finds the handle that is listed under the path. -/
theorem Refines.byname_eq_some_iff (hr : Refines s t) :
    pkgHandleByname s path = some a ↔ ∃ fd, t.res a = some (path, fd) := by
  have hnamed (b : Addr) (hb : b ∈ s.pkgList) :
      s.named path b = true ↔ ∃ fd, t.res b = some (path, fd) := by
    obtain ⟨h, p, hl⟩ := hr.listed b hb
    rw [Registry.named, hl.handle, hl.res, Option.any_some, hl.name, decide_eq_true_eq]
    constructor
    · intro hp
      cases hp
      exact ⟨_, rfl⟩
    · rintro ⟨fd, hfd⟩
      cases hfd
      rfl
  constructor
  · intro hfind
    exact (hnamed a (List.mem_of_find?_eq_some hfind)).mp (List.find?_some hfind)
  · rintro ⟨fd, hres⟩
    have hmem : a ∈ s.pkgList := hr.res_isSome_iff.mp ⟨_, hres⟩
    cases hfind : pkgHandleByname s path with
    | none => exact absurd ((hnamed a hmem).mpr ⟨fd, hres⟩) (List.find?_eq_none.mp hfind a hmem)
    | some b =>
      obtain ⟨fd', hres'⟩ :=
        (hnamed b (List.mem_of_find?_eq_some hfind)).mp (List.find?_some hfind)
      rw [hr.inv.unique b a _ _ hres' hres rfl]

theorem Refines.byname_eq_none_iff (hr : Refines s t) :
    pkgHandleByname s path = none ↔ ∀ a r, t.res a = some r → r.1 ≠ path := by
  constructor
  · rintro hnone a ⟨p, fd⟩ hres rfl
    rw [hr.byname_eq_some_iff.mpr ⟨fd, hres⟩] at hnone
    cases hnone
  · intro hno
    cases hfind : pkgHandleByname s path with
    | none => rfl
    | some a =>
      obtain ⟨fd, hres⟩ := hr.byname_eq_some_iff.mp hfind
      exact absurd rfl (hno a _ hres)

/-- Nothing that the table speaks of has changed. -/
theorem Refines.frame (hr : Refines s t) (hlist : s'.pkgList = s.pkgList)
    (hhandle : ∀ a ∈ s.pkgList, s'.handle a = s.handle a)
    (hfds : ∀ a r, t.res a = some r → r.2 ∈ s.openFds → r.2 ∈ s'.openFds) : Refines s' t where
  nodup := by
    rw [hlist]
    exact hr.nodup
  listed := by
    rw [hlist]
    intro a ha
    obtain ⟨h, path, hl⟩ := hr.listed a ha
    exact ⟨h, path, (hhandle a ha).trans hl.handle, hl.name, hl.res, hl.held, hl.open_nonneg,
      hfds a _ hl.res hl.open_mem⟩
  unlisted := by
    rw [hlist]
    exact hr.unlisted
  fds := hr.fds
  inv := hr.inv

theorem Refines.recount (hr : Refines s t) {act : PkgAct} {h' : PkgHandle} {n : ℕ}
    (hstep : t.Step act { t with held := Function.update t.held a n })
    (hh : s.handle a = some h) (hname : h'.name = h.name) (hfd : h'.fd = h.fd)
    (hcount : h'.refcnt = n) :
    Refines (s.setHandle a h') { t with held := Function.update t.held a n } where
  nodup := hr.nodup
  listed := by
    intro b hb
    by_cases hba : b = a
    · subst hba
      obtain ⟨path, hl⟩ := hr.listedAs hb hh
      refine ⟨h', path, Registry.handle_setHandle_self, hname.trans hl.name, ?_, ?_, ?_, ?_⟩
      · rw [hfd]
        exact hl.res
      · change h'.refcnt = (Function.update t.held b n b : ℕ)
        rw [hcount, Function.update_self]
      · rw [hfd]
        exact hl.open_nonneg
      · rw [hfd]
        exact hl.open_mem
    · obtain ⟨p, path, hl⟩ := hr.listed b hb
      refine ⟨p, path, ?_, hl.name, hl.res, ?_, hl.open_nonneg, hl.open_mem⟩
      · rw [Registry.handle_setHandle_ne hba]
        exact hl.handle
      · change p.refcnt = (Function.update t.held a n b : ℕ)
        rw [Function.update_of_ne hba]
        exact hl.held
  unlisted := hr.unlisted
  fds := hr.fds
  inv := hstep.inv hr.inv

theorem Refines.create (hr : Refines s t) (hlist : s'.pkgList = s.pkgList ++ [a])
    (hhandle : ∀ b ∈ s.pkgList, s'.handle b = s.handle b) (hself : s'.handle a = some h)
    (hfresh : a ∉ s.pkgList) (hnew : pkgHandleByname s path = none) (hname : h.name = some path)
    (hcount : h.refcnt = 0) (hfd : 0 ≤ h.fd) (hfdfresh : h.fd ∉ s.openFds)
    (hfds : s'.openFds = h.fd :: s.openFds) :
    t.Step (.create a (path, h.fd))
        { t with res := Function.update t.res a (some (path, h.fd)) } ∧
      Refines s' { t with res := Function.update t.res a (some (path, h.fd)) } := by
  have hstep : t.Step (.create a (path, h.fd))
      { t with res := Function.update t.res a (some (path, h.fd)) } :=
    .create (hr.unlisted a hfresh) (hr.byname_eq_none_iff.mp hnew)
  have hidle : t.held a = 0 := by
    by_contra hheld
    exact hfresh (hr.mem_of_held (Nat.pos_of_ne_zero hheld))
  refine ⟨hstep, ?_, ?_, ?_, ?_, hstep.inv hr.inv⟩
  · rw [hlist]
    exact List.nodup_append.mpr ⟨hr.nodup, List.nodup_singleton a, by
      rintro b hb c hc rfl
      rw [List.mem_singleton.mp hc] at hb
      exact hfresh hb⟩
  · rw [hlist]
    intro b hb
    rcases List.mem_append.mp hb with hold | hsingle
    · obtain ⟨p, q, hl⟩ := hr.listed b hold
      have hba : b ≠ a := ne_of_mem_of_not_mem hold hfresh
      refine ⟨p, q, (hhandle b hold).trans hl.handle, hl.name, ?_, hl.held, hl.open_nonneg, ?_⟩
      · exact (Function.update_of_ne hba ..).trans hl.res
      · rw [hfds]
        exact List.mem_cons_of_mem _ hl.open_mem
    · rw [List.mem_singleton.mp hsingle]
      refine ⟨h, path, hself, hname, Function.update_self .., ?_, hfd, ?_⟩
      · rw [hcount, hidle]
        rfl
      · rw [hfds]
        exact List.mem_cons_self
  · rw [hlist]
    intro b hb
    have hba : b ≠ a := by
      rintro rfl
      exact hb (by simp)
    exact (Function.update_of_ne hba ..).trans (hr.unlisted b fun hold => hb (by simp [hold]))
  · have hopen (b : Addr) (q : CString) (hb : t.res b = some (q, h.fd)) : False := by
      obtain ⟨p, q', hl⟩ := hr.listed b (hr.res_isSome_iff.mp ⟨_, hb⟩)
      have hfd : p.fd = h.fd := congrArg Prod.snd (Option.some.inj (hl.res.symm.trans hb))
      rw [← hfd] at hfdfresh
      exact hfdfresh hl.open_mem
    intro b c p q fd hb hc
    dsimp only at hb hc
    by_cases hba : b = a
    · by_cases hca : c = a
      · rw [hba, hca]
      · rw [hba, Function.update_self] at hb
        rw [Function.update_of_ne hca] at hc
        cases hb
        exact (hopen c q hc).elim
    · rw [Function.update_of_ne hba] at hb
      by_cases hca : c = a
      · rw [hca, Function.update_self] at hc
        cases hc
        exact (hopen b p hb).elim
      · rw [Function.update_of_ne hca] at hc
        exact hr.fds b c p q fd hb hc

/-- Releasing a listed handle that nobody holds. -/
theorem Refines.release (hr : Refines s t) (hmem : a ∈ s.pkgList) (hh : s.handle a = some h)
    (hidle : h.refcnt = 0) :
    t.Step (.collect a) { t with res := Function.update t.res a none } ∧
      Refines (pkgRelease s a) { t with res := Function.update t.res a none } := by
  obtain ⟨path, hl⟩ := hr.listedAs hmem hh
  have hheld : t.held a = 0 := by
    have := hl.held
    omega
  have hstep : t.Step (.collect a) { t with res := Function.update t.res a none } :=
    .collect hheld
  refine ⟨hstep, ?_, ?_, ?_, ?_, hstep.inv hr.inv⟩
  · rw [pkgRelease_pkgList hh]
    exact hr.nodup.erase a
  · intro b hb
    obtain ⟨hba, hold⟩ := (hr.mem_pkgRelease_iff hh).mp hb
    obtain ⟨p, q, hlb⟩ := hr.listed b hold
    refine ⟨p, q, (pkgRelease_handle_ne hh hba).trans hlb.handle, hlb.name,
      (Function.update_of_ne hba ..).trans hlb.res, hlb.held, hlb.open_nonneg, ?_⟩
    rw [pkgRelease_openFds hh]
    split_ifs
    · have hfd : p.fd ≠ h.fd := by
        intro heq
        apply hba
        have hresb := hlb.res
        rw [heq] at hresb
        exact hr.fds b a _ _ _ hresb hl.res
      exact (List.mem_erase_of_ne hfd).mpr hlb.open_mem
    · exact hlb.open_mem
  · intro b hb
    dsimp only
    by_cases hba : b = a
    · rw [hba, Function.update_self]
    · rw [Function.update_of_ne hba]
      apply hr.unlisted
      exact fun hold => hb ((hr.mem_pkgRelease_iff hh).mpr ⟨hba, hold⟩)
  · have hold (b : Addr) (r : CString × ℤ) (hb : Function.update t.res a none b = some r) :
        t.res b = some r := by
      by_cases hba : b = a
      · rw [hba, Function.update_self] at hb
        cases hb
      · rwa [Function.update_of_ne hba] at hb
    intro b c p q fd hb hc
    exact hr.fds b c p q fd (hold b _ hb) (hold c _ hc)

end Refines

end JailFs
