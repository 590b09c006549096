import JailFs.PkgOpen

/-!
# A failed import is never undone

`pkg_open` builds a handle in stages: an element, a name and a descriptor, the list entry, a cache
entry for each header. No exit takes back what was there before: a file that cannot be opened or
locked leaks the element, a bad archive leaves the handle listed, and a bad header is reported as
success.
-/

namespace JailFs

/-- What is asked of a failed import: `NULL`, nothing left in the registry, and a fresh import the
next time. -/
structure Undone (s : Registry) (path : CString) (r : OpenResult) : Prop where
  handle : r.handle = none
  pkgList : r.registry.pkgList = s.pkgList
  pkgsInUse : r.registry.pkgsInUse = s.pkgsInUse
  cacheInUse : r.registry.heapVfsCache.length = s.heapVfsCache.length
  fresh : pkgHandleByname r.registry path = none

section Stages

variable {s : Registry} {env : OpenEnv} {path : CString}

theorem fileFails_pkgsInUse (hfree : s.handle env.elem = none) (hmem : env.elem ∉ s.pkgList) :
    (pkgRelease (s.prepare env path) env.elem).pkgsInUse = s.pkgsInUse + 1 := by
  have hmem' : env.elem ∉ (s.prepare env path).pkgList := by
    rw [Registry.prepare_pkgList]
    exact hmem
  rw [pkgRelease_pkgsInUse Registry.prepare_handle_self hmem', Registry.prepare_pkgsInUse hfree]

/-- The archive cannot be opened: the handle is listed by then, and the next `pkg_open` of the
path finds it. -/
theorem badArchive_listed (hnew : pkgHandleByname s path = none) :
    pkgHandleByname ((s.prepare env path).list env.elem) path = some env.elem := by
  have hother (a : Addr) (ha : a ∈ s.pkgList) (hne : a ≠ env.elem) :
      (s.prepare env path).named path a = false := by
    rw [Registry.named, Registry.prepare_handle_ne hne]
    exact eq_false_of_ne_true (List.find?_eq_none.mp hnew a ha)
  have hself : (s.prepare env path).named path env.elem = true := by
    rw [Registry.named, Registry.prepare_handle_self]
    simp
  have hlist (l : List Addr) (hl : l ⊆ s.pkgList) :
      (l ++ [env.elem]).find? ((s.prepare env path).named path) = some env.elem := by
    induction l with
    | nil => rw [List.nil_append, List.find?_cons_of_pos hself]
    | cons a l ih =>
      rw [List.cons_append]
      by_cases hae : a = env.elem
      · rw [hae, List.find?_cons_of_pos hself]
      · have hno := hother a (hl List.mem_cons_self) hae
        rw [List.find?_cons_of_neg (by rw [hno]; exact Bool.false_ne_true)]
        exact ih fun b hb => hl (List.mem_cons_of_mem _ hb)
  have hall := hlist s.pkgList (List.Subset.refl _)
  rw [pkgHandleByname, Registry.list]
  dsimp only
  rw [Registry.prepare_pkgList]
  exact hall

end Stages

/-- The promise of one call: an import of which a stage fails is undone. -/
def AllOrNothing (s : Registry) (env : OpenEnv) (path : CString) : Prop :=
  pkgHandleByname s path = none → env.fails = true → Undone s path (pkgOpen s env path)

theorem pkgOpen_not_undone {s : Registry} {env : OpenEnv} {path : CString}
    (hnew : pkgHandleByname s path = none) (hfree : s.handle env.elem = none) :
    ¬ Undone s path (pkgOpen s env path) := by
  intro h
  cases hf : env.fileFails with
  | true =>
    rw [pkgOpen_fileFails hnew hf] at h
    by_cases hmem : env.elem ∈ s.pkgList
    · have hlist := h.pkgList
      rw [pkgRelease_pkgList Registry.prepare_handle_self, Registry.prepare_pkgList] at hlist
      have hlen := congrArg List.length hlist
      rw [List.length_erase_of_mem hmem] at hlen
      have := List.length_pos_of_mem hmem
      omega
    · have hcount := h.pkgsInUse
      rw [fileFails_pkgsInUse hfree hmem] at hcount
      omega
  | false =>
    cases ha : env.archiveOk with
    | false =>
      rw [pkgOpen_badArchive hnew hf ha] at h
      have hfresh := h.fresh
      rw [badArchive_listed hnew] at hfresh
      cases hfresh
    | true =>
      have hhandle := h.handle
      rw [pkgOpen_imported hnew hf ha] at hhandle
      cases hhandle

/-- The promise is kept only where it asks for nothing: when no stage is run, or none fails. -/
theorem allOrNothing_iff {s : Registry} {env : OpenEnv} {path : CString}
    (hfree : s.handle env.elem = none) :
    AllOrNothing s env path ↔ (pkgHandleByname s path).isSome ∨ env.fails = false := by
  constructor
  · intro h
    cases hnew : pkgHandleByname s path with
    | some t => exact Or.inl rfl
    | none =>
      right
      by_contra hfails
      exact pkgOpen_not_undone hnew hfree (h hnew (eq_true_of_ne_false hfails))
  · rintro (hlisted | hok) hnew hfails
    · rw [hnew] at hlisted
      cases hlisted
    · rw [hok] at hfails
      cases hfails

def OpenEnv.badHeader : OpenEnv :=
  ⟨none, 1, 5, false, true, true,
    [.ok ⟨45, some (.ofChars ['a']), none, none, 0, 0, 33188, 1⟩ 10, .error (-30)], 10⟩

theorem allOrNothing_iff_badHeader :
    AllOrNothing (pkgInit [] 0 60) OpenEnv.badHeader (.ofChars ['x']) ↔
      (pkgHandleByname (pkgInit [] 0 60) (.ofChars ['x'])).isSome ∨
        OpenEnv.badHeader.fails = false :=
  allOrNothing_iff rfl

/-- With the bad header `pkg_open` returns a handle, keeps the entry it had added, and the next
call for the path returns the half-imported handle, whatever the system would answer. -/
theorem badHeader_not_undone :
    ¬ AllOrNothing (pkgInit [] 0 60) OpenEnv.badHeader (.ofChars ['x']) ∧
      (pkgOpen (pkgInit [] 0 60) OpenEnv.badHeader (.ofChars ['x'])).handle = some 1 ∧
      (pkgOpen (pkgInit [] 0 60) OpenEnv.badHeader
        (.ofChars ['x'])).registry.heapVfsCache.length = 1 ∧
      ∀ env, (pkgOpen (pkgOpen (pkgInit [] 0 60) OpenEnv.badHeader (.ofChars ['x'])).registry
        env (.ofChars ['x'])).handle = some 1 := by
  refine ⟨fun h => ?_, by decide, by decide, fun env => ?_⟩
  · have hundone := h rfl (by decide)
    cases hundone.handle
  · have hlisted : pkgHandleByname (pkgOpen (pkgInit [] 0 60) OpenEnv.badHeader
        (.ofChars ['x'])).registry (.ofChars ['x']) = some 1 := by decide
    rw [pkgOpen_listed hlisted]

end JailFs
