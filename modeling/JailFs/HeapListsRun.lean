import JailFs.HeapLists

/-!
# Runs of the heaps of a process

The loop of `blockheap_gc` meets each heap once. From that and from one lemma for each call every
state of a run has the invariant of the table.
-/

namespace JailFs

open DList DlinkMem BlockHeap

namespace HeapTable

variable {s t u : HeapTable} {chain : ℕ → List ℕ} {seq : ℕ → BlockList → List ℕ}
  {nodes l : List Addr} {bh : Addr} {c : BallocCall}

section Collector

/-- The heaps of `l` are collected, and the others are as they were. -/
structure Swept (s t : HeapTable) (l : List Addr) : Prop where
  addrs : t.addrs = s.addrs
  lists : t.lists = s.lists
  same : ∀ bh, bh ∉ l → s.Same t bh
  kept : ∀ bh ∈ l, s.KeepsElements t bh
  trimmed : ∀ bh ∈ l, s.Trimmed t bh
  tight : ∀ bh ∈ l, t.Tight bh

theorem Inv.gcLoop {q : Option Addr} {fuel : ℕ} (hinv : s.Inv chain seq nodes)
    (hl : Follows s.lists.next q l none) (hn : l.Nodup) (hsub : ∀ bh ∈ l, bh ∈ s.addrs)
    (hfuel : l.length < fuel) : ∃ t chain' seq', gcLoop fuel q s = .ok t ∧
      t.Inv chain' seq' nodes ∧ s.Swept t l := by
  induction l generalizing s chain seq q fuel with
  | nil =>
    obtain rfl : q = none := hl
    cases fuel with
    | zero => cases hfuel
    | succ fuel =>
      exact ⟨s, chain, seq, rfl, hinv, rfl, rfl, fun bh _ => Same.refl hinv bh,
        fun _ hbh => absurd hbh List.not_mem_nil, fun _ hbh => absurd hbh List.not_mem_nil,
        fun _ hbh => absurd hbh List.not_mem_nil⟩
  | cons a l ih =>
    obtain ⟨rfl, hrest⟩ := hl
    rw [List.nodup_cons] at hn
    have ha := hsub a List.mem_cons_self
    cases fuel with
    | zero => cases hfuel
    | succ fuel =>
      obtain ⟨s₁, chain₁, seq₁, hcollect, hinv₁, haddrs, hlists, hsame, hkept, htrim,
        htight⟩ := hinv.collect ha
      have hrest₁ : Follows s₁.lists.next (s.lists.next a) l none := by
        rw [hlists]
        exact hrest
      obtain ⟨t, chain', seq', hloop, hinv', hswept⟩ := ih hinv₁ hrest₁ hn.2
        (fun bh hbh => haddrs ▸ hsub bh (List.mem_cons_of_mem a hbh))
        (Nat.lt_of_succ_lt_succ hfuel)
      refine ⟨t, chain', seq', ?_, hinv', hswept.addrs.trans haddrs, hswept.lists.trans hlists,
        fun bh hbh => ?_, fun bh hbh => ?_, fun bh hbh => ?_, fun bh hbh => ?_⟩
      · rw [HeapTable.gcLoop]
        simp only [hinv.data a ha, hcollect]
        exact hloop
      · rw [List.mem_cons, not_or] at hbh
        exact (hsame bh hbh.1).trans (hswept.same bh hbh.2)
      · rcases List.mem_cons.mp hbh with rfl | hmem
        · exact hkept.trans ((hswept.same bh hn.1).keepsElements hinv₁)
        · have hne : bh ≠ a := ne_of_mem_of_not_mem hmem hn.1
          exact ((hsame bh hne).keepsElements hinv).trans (hswept.kept bh hmem)
      · rcases List.mem_cons.mp hbh with rfl | hmem
        · exact htrim.same (hswept.same bh hn.1) hinv₁ hkept
        · have hne : bh ≠ a := ne_of_mem_of_not_mem hmem hn.1
          exact (hsame bh hne).trimmed (hswept.trimmed bh hmem) hinv
      · rcases List.mem_cons.mp hbh with rfl | hmem
        · exact htight.same (hswept.same bh hn.1) hinv₁ (haddrs ▸ ha)
        · exact hswept.tight bh hmem

theorem Inv.gc (hinv : s.Inv chain seq nodes) : ∃ t chain' seq', blockheapGc s = .ok t ∧
    t.Inv chain' seq' nodes ∧ s.Swept t nodes := by
  refine hinv.gcLoop (hinv.shape.describes trivial).forward (hinv.shape.nodup ())
    (fun bh hbh => hinv.nodes.mem_iff.mp hbh) ?_
  rw [hinv.nodes.length_eq]
  exact Nat.lt_succ_self _

end Collector

section Calls

theorem Inv.create {elemsize : ℕ} {elemsperblock : ℤ} {env : BlockEnv}
    (hinv : s.Inv chain seq nodes) (hbh : bh ∉ s.addrs)
    (hvalid : ∀ d, env.Valid (s.heaps.mem.heap d))
    (hrun : blockheapCreateAt s bh elemsize elemsperblock env = .ok t) :
    ∃ chain' seq', t.Inv chain' seq' (bh :: nodes) := by
  unfold blockheapCreateAt at hrun
  cases hcreate : blockheapCreateIn elemsize elemsperblock s.heaps.mem env with
  | error e =>
    rw [hcreate] at hrun
    cases hrun
  | ok h =>
    rw [hcreate] at hrun
    cases hrun
    obtain ⟨d, hempty, hblock⟩ := blockheapCreateIn_ok hcreate
    obtain ⟨chain₁, seq₁, hnew, hkeeps⟩ := hempty.blockNew_keeps (hvalid d) hblock
    have hmaps := hempty.blockNew_maps (hvalid d) hblock hnew
    have hothers (j) (x : HeapHeader × List ℕ) (_ : j ≠ s.heaps.heaps.length)
        (_ : s.heaps.heaps[j]? = some x) : (s.heaps.mem.heap d).Apart [] (chain j) :=
      ⟨List.disjoint_nil_left _, fun _ hb => absurd hb List.not_mem_nil⟩
    have hi : (s.heaps.heaps ++ [(h.header, ([] : List ℕ))])[s.heaps.heaps.length]? =
        some (h.header, []) := List.getElem?_concat_length
    have hsame (j) (hj : j ≠ s.heaps.heaps.length) :
        (s.heaps.heaps ++ [(h.header, ([] : List ℕ))])[j]? = s.heaps.heaps[j]? := by
      rcases Nat.lt_or_gt_of_ne hj with hlt | hgt
      · exact List.getElem?_append_left hlt
      · rw [List.getElem?_eq_none hgt.le, List.getElem?_eq_none]
        rw [List.length_append, List.length_singleton]
        exact hgt
    have hmem : bh ∉ nodes := fun hmem => hbh (hinv.nodes.mem_iff.mp hmem)
    have hadd : dlinkAdd s.lists (some bh) bh () = s.lists.insertAt (some bh) bh () [] nodes :=
      dlinkAdd_eq hinv.shape trivial hmem
    have hshape : (s.lists.insertAt (some bh) bh () [] nodes).Shape (fun _ => True)
        (Function.update (fun _ => nodes) () ([] ++ bh :: nodes)) :=
      hinv.shape.insertAt trivial rfl fun _ => hmem
    refine ⟨_, _, hinv.heaps.update hkeeps hnew hothers rfl hi hsame,
      hinv.owned.update hinv.heaps hkeeps hmaps hothers ?_ rfl hi hsame, ?_, ?_, ?_, ?_, ?_⟩
    · intro x hx
      rw [List.getElem?_eq_none le_rfl] at hx
      cases hx
    · simp only [List.length_append, List.length_singleton, hinv.length]
    · exact List.nodup_append.mpr ⟨hinv.nodup, List.nodup_singleton bh, fun a ha b hb =>
        fun heq => hbh (List.mem_singleton.mp hb ▸ heq ▸ ha)⟩
    · dsimp only
      rw [hadd]
      refine hshape.narrow (fun _ _ => trivial) (fun list _ => ?_) fun _ hno => absurd trivial hno
      cases list
      rw [Function.update_self, List.nil_append]
    · exact (hinv.nodes.cons bh).trans (List.perm_append_singleton bh s.addrs).symm
    · intro a ha
      dsimp only
      rw [hadd]
      by_cases hne : a = bh
      · rw [hne]
        exact Function.update_self bh _ _
      · refine (Function.update_of_ne hne _ _).trans (hinv.data a ?_)
        exact (List.mem_append.mp ha).resolve_right fun h₁ => hne (List.mem_singleton.mp h₁)

theorem skip_idxOf {i : ℕ} {a : Addr} (hn : l.Nodup) (ha : a ∈ l.eraseIdx i) :
    skip i ((l.eraseIdx i).idxOf a) = l.idxOf a := by
  have hget : (l.eraseIdx i)[(l.eraseIdx i).idxOf a]? = some a := List.getElem?_idxOf ha
  rw [getElem?_eraseIdx_skip] at hget
  obtain ⟨hlt, heq⟩ := List.getElem?_eq_some_iff.mp hget
  rw [← hn.idxOf_getElem _ hlt, heq]

theorem Inv.destroy (hinv : s.Inv chain seq nodes) (hbh : bh ∈ s.addrs) :
    ∃ t chain' seq', blockheapDestroyAt s bh = .ok t ∧ t.Inv chain' seq' (nodes.erase bh) ∧
      t.addrs = s.addrs.erase bh ∧ ∀ bh' ∈ t.addrs, s.KeepsElements t bh' := by
  obtain ⟨d, out, hfind⟩ := hinv.exists_find hbh
  have hheap := hinv.heap hfind
  have haddrs : s.addrs.eraseIdx (s.addrs.idxOf bh) = s.addrs.erase bh :=
    (List.erase_eq_eraseIdx_of_idxOf rfl).symm
  obtain ⟨before, after, hseq, hshape, -⟩ :=
    hinv.shape.erase (trivial : (fun _ : Unit => True) ()) (hinv.nodes.mem_iff.mpr hbh)
  have hdelete : dlinkDelete s.lists bh () = s.lists.removeAt () before after :=
    dlinkDelete_eq hinv.shape trivial hseq
  refine ⟨{
      heaps := ⟨((s.heaps.mem.heap d).without (chain (s.addrs.idxOf bh))).memory,
        s.heaps.heaps.eraseIdx (s.addrs.idxOf bh)⟩
      addrs := s.addrs.eraseIdx (s.addrs.idxOf bh)
      lists := dlinkDelete s.lists bh () }, _, _, ?_,
    ⟨hinv.heaps.eraseIdx hfind, hinv.owned.eraseIdx d _, ?_, ?_, ?_, ?_, ?_⟩, haddrs, ?_⟩
  · rw [blockheapDestroyAt, hfind]
    dsimp only
    rw [hheap.destroy]
  · dsimp only
    rw [List.length_eraseIdx, List.length_eraseIdx, hinv.length]
  · exact hinv.nodup.sublist (List.eraseIdx_sublist _ _)
  · dsimp only
    rw [hdelete]
    refine hshape.narrow (fun _ _ => trivial) (fun list _ => ?_) fun _ hno => absurd trivial hno
    cases list
    rw [Function.update_self]
  · rw [haddrs]
    exact hinv.nodes.erase bh
  · intro a ha
    dsimp only
    rw [hdelete]
    exact hinv.data a (List.mem_of_mem_eraseIdx ha)
  · intro bh' hmem d' out' hfind'
    have hplace := skip_idxOf hinv.nodup hmem
    have hfind₁ : s.heaps.heaps[skip (s.addrs.idxOf bh)
        ((s.addrs.eraseIdx (s.addrs.idxOf bh)).idxOf bh')]? = some (d', out') := by
      rw [hplace]
      exact hfind'
    refine ⟨d', (getElem?_eraseIdx_skip _ _ _).trans hfind₁, rfl, fun _ _ _ _ => rfl⟩

end Calls

end HeapTable

section Run

variable {s t : HeapTable} {chain : ℕ → List ℕ} {seq : ℕ → BlockList → List ℕ}
  {nodes : List Addr} {c : BallocCall} {calls : List BallocCall} {mem : HeapMemory}
  {lists : DlinkMem Unit}

theorem BallocStep.inv (hinv : s.Inv chain seq nodes) (hstep : BallocStep s c t) :
    ∃ chain' seq' nodes', t.Inv chain' seq' nodes' := by
  cases hstep with
  | create hbh hvalid hrun =>
    obtain ⟨chain', seq', hinv'⟩ := hinv.create hbh hvalid hrun
    exact ⟨chain', seq', _, hinv'⟩
  | call hfind hstep =>
    obtain ⟨chain₁, seq₁, hnew, hkeeps⟩ := HeapStep.keeps (hinv.heap hfind) hstep
    exact ⟨_, _, nodes,
      (hinv.set hfind hkeeps (HeapStep.maps (hinv.heap hfind) hstep hnew) hnew).1⟩
  | gc hrun =>
    obtain ⟨t', chain', seq', hok, hinv', -⟩ := hinv.gc
    rw [hrun] at hok
    cases hok
    exact ⟨chain', seq', nodes, hinv'⟩
  | @destroy _ bh hrun =>
    have hbh : bh ∈ s.addrs := by
      cases hfind : s.find bh with
      | none =>
        rw [blockheapDestroyAt, hfind] at hrun
        cases hrun
      | some x => exact hinv.mem_of_find hfind
    obtain ⟨t', chain', seq', hok, hinv', -⟩ := hinv.destroy hbh
    rw [hrun] at hok
    cases hok
    exact ⟨chain', seq', _, hinv'⟩

theorem HeapTable.inv_nil (hmem : ∀ p, mem.mapped p = none) (hlists : lists.Describes () []) :
    HeapTable.Inv ⟨⟨mem, []⟩, [], lists⟩ (fun _ => []) (fun _ _ => []) [] where
  heaps := Heaps.inv_nil mem
  owned p hp := absurd (hmem p) hp
  length := rfl
  nodup := List.nodup_nil
  shape := by
    refine ⟨fun _ => trivial, fun _ _ => hlists.forward, fun _ _ => hlists.backward,
      fun _ _ => hlists.length, fun _ _ => rfl, fun _ => List.nodup_nil, fun _ _ _ => ?_⟩
    exact List.disjoint_nil_left _
  nodes := List.Perm.refl []
  data bh hbh := absurd hbh List.not_mem_nil

theorem run_table (hmem : ∀ p, mem.mapped p = none) (hlists : lists.Describes () [])
    (hrun : Exec BallocStep ⟨⟨mem, []⟩, [], lists⟩ calls s) :
    ∃ chain seq nodes, s.Inv chain seq nodes :=
  hrun.invariant (I := fun s => ∃ chain seq nodes, s.Inv chain seq nodes)
    ⟨_, _, _, HeapTable.inv_nil hmem hlists⟩ fun _ _ _ ⟨_, _, _, hinv⟩ hstep => hstep.inv hinv

/-- A region that is mapped is that of exactly one block, which is in a heap that was not destroyed.
An element that is handed out lies in the region of such a block. -/
theorem regions_reclaimed (hmem : ∀ p, mem.mapped p = none) (hlists : lists.Describes () [])
    (hrun : Exec BallocStep ⟨⟨mem, []⟩, [], lists⟩ calls s) :
    (∀ p, s.heaps.mem.mapped p ≠ none ↔
      ∃! x : Addr × ℕ, s.Holds x.1 x.2 ∧ s.heaps.mem.elems x.2 = p) ∧
    ∀ bh d out, s.find bh = some (d, out) → ∀ p ∈ out, ∃ b, s.Holds bh b ∧
      (s.heaps.mem.heap d).inRegion b p d.elemSize = true := by
  obtain ⟨chain, seq, nodes, hinv⟩ := run_table hmem hlists hrun
  refine ⟨fun p => ⟨fun hp => ?_, ?_⟩, fun bh d out hfind p hp => ?_⟩
  · obtain ⟨i, ⟨d, out⟩, hi, b, hb, heq⟩ := hinv.owned p hp
    obtain ⟨bh, rfl, hfind⟩ := hinv.find_of_getElem? hi
    refine ⟨(bh, b), ⟨(hinv.holds_iff hfind b).mpr hb, heq⟩, ?_⟩
    rintro ⟨bh', b'⟩ ⟨hholds, heq'⟩
    obtain ⟨d', out', hfind', hb'⟩ := hinv.mem_chain hholds
    have hheap := hinv.heap hfind
    by_cases hne : bh' = bh
    · subst hne
      by_contra hpair
      have hbb : b' ≠ b := fun h => hpair (by rw [h])
      exact hheap.elems_ne hb' hb hbb (heq'.trans heq.symm)
    · have hbh := hinv.mem_of_find hfind
      have hapart := hinv.heaps.apart _ _ (d, out) _ (Ne.symm (HeapTable.idxOf_ne hbh hne))
        hfind hfind'
      exact absurd (heq'.trans heq.symm)
        (((hinv.heap hfind').beside hapart).elems_ne hheap hb hb')
  · rintro ⟨⟨bh, b⟩, ⟨hholds, rfl⟩, -⟩
    obtain ⟨d, out, hfind, hb⟩ := hinv.mem_chain hholds
    obtain ⟨len, hmapped, -⟩ := (hinv.heap hfind).region_start hb
    exact fun hnone => Option.some_ne_none len (hmapped.symm.trans hnone)
  · obtain ⟨b, hb, m, hm, rfl⟩ := (hinv.heap hfind).mem_out hp
    exact ⟨b, (hinv.holds_iff hfind b).mpr hb, (hinv.heap hfind).fits b hb m hm⟩

/-- `blockheap_gc` trims every heap, so that none has a block without a use but its only one, and
`blockheap_destroy` takes one out, and no element of the other heaps is lost. -/
theorem heaps_collected (hmem : ∀ p, mem.mapped p = none) (hlists : lists.Describes () [])
    (hrun : Exec BallocStep ⟨⟨mem, []⟩, [], lists⟩ calls s) :
    (∃ t, blockheapGc s = .ok t ∧ t.addrs = s.addrs ∧
      ∀ bh ∈ s.addrs, s.KeepsElements t bh ∧ s.Trimmed t bh ∧ t.Tight bh) ∧
    ∀ bh ∈ s.addrs, ∃ t, blockheapDestroyAt s bh = .ok t ∧ t.addrs = s.addrs.erase bh ∧
      ∀ bh' ∈ t.addrs, s.KeepsElements t bh' := by
  obtain ⟨chain, seq, nodes, hinv⟩ := run_table hmem hlists hrun
  constructor
  · obtain ⟨t, -, -, hgc, -, hswept⟩ := hinv.gc
    refine ⟨t, hgc, hswept.addrs, fun bh hbh => ?_⟩
    have hmem := hinv.nodes.mem_iff.mpr hbh
    exact ⟨hswept.kept bh hmem, hswept.trimmed bh hmem, hswept.tight bh hmem⟩
  · intro bh hbh
    obtain ⟨t, -, -, hdestroy, -, haddrs, hkept⟩ := hinv.destroy hbh
    exact ⟨t, hdestroy, haddrs, hkept⟩

end Run

section TwoHeaps

/-- `heap_lists` as the process finds it. -/
def noHeaps : DlinkMem Unit :=
  ⟨fun _ => none, fun _ => none, fun _ => none, fun _ => none, fun _ => none, fun _ => 0⟩

theorem noHeaps_describes : noHeaps.Describes () [] := ⟨rfl, rfl, rfl⟩

/-- Two heaps, of which the first one goes while an element of the second one is handed out. -/
def destroyCalls : List BallocCall :=
  [] ++ [.create 16 3 2 firstEnv] ++ [.create 48 3 2 secondEnv] ++ [.call 48 (.alloc noEnv 8264)] ++
    [.gc] ++ [.destroy 16]

theorem destroyCalls_run : ∃ s d,
    Exec BallocStep ⟨⟨zeroMem.memory, []⟩, [], noHeaps⟩ destroyCalls s ∧
    s.addrs = [48] ∧ s.find 48 = some (d, [8264]) ∧ s.heaps.mem.mapped 8192 = some 4096 :=
  ⟨_, _, (((((Exec.nil _).snoc (.create (by decide) (fun _ => firstEnv_valid rfl rfl) rfl)).snoc
    (.create (by decide) (fun _ => secondEnv_valid rfl rfl) rfl)).snoc
    (.call rfl (.alloc (noEnv_valid _) rfl))).snoc (.gc rfl)).snoc (.destroy rfl), rfl, rfl, rfl⟩

theorem regions_reclaimed_two : ∃ s,
    Exec BallocStep ⟨⟨zeroMem.memory, []⟩, [], noHeaps⟩ destroyCalls s ∧ s.addrs = [48] ∧
      ∃! x : Addr × ℕ, s.Holds x.1 x.2 ∧ s.heaps.mem.elems x.2 = 8192 := by
  obtain ⟨s, d, hrun, haddrs, -, hmapped⟩ := destroyCalls_run
  obtain ⟨hregions, -⟩ := regions_reclaimed (fun _ => rfl) noHeaps_describes hrun
  exact ⟨s, hrun, haddrs, (hregions 8192).mp fun hnone => by rw [hnone] at hmapped; cases hmapped⟩

theorem heaps_collected_two : ∃ s t,
    Exec BallocStep ⟨⟨zeroMem.memory, []⟩, [], noHeaps⟩ destroyCalls s ∧
      blockheapGc s = .ok t ∧ s.KeepsElements t 48 ∧ s.Trimmed t 48 ∧ t.Tight 48 := by
  obtain ⟨s, d, hrun, haddrs, -, -⟩ := destroyCalls_run
  obtain ⟨⟨t, hgc, -, hall⟩, -⟩ := heaps_collected (fun _ => rfl) noHeaps_describes hrun
  obtain ⟨hkeeps, htrim, htight⟩ := hall 48 (by rw [haddrs]; exact List.mem_singleton_self 48)
  exact ⟨s, t, hrun, hgc, hkeeps, htrim, htight⟩

end TwoHeaps

end JailFs
