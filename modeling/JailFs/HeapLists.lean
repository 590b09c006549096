import JailFs.BlockHeapDestroy

/-!
# The heaps of a process

`heap_lists` names every heap of the process, and `blockheap_gc` collects them one after another. A
run creates heaps, calls them, collects them and destroys them in any order. Whatever is mapped in a
state that a run reaches is the region of one block of one heap (`regions_reclaimed`), and both
`blockheap_gc` and `blockheap_destroy` return there (`heaps_collected`).
-/

namespace JailFs

open DList DlinkMem BlockHeap

structure HeapTable where
  heaps : Heaps
  /-- Where the `BlockHeap` of each heap is, and with it the node of the heap on `heap_lists`. -/
  addrs : List Addr
  /-- `heap_lists` -/
  lists : DlinkMem Unit

namespace HeapTable

/-- The heap at an address, with its elements that are handed out. -/
def find (s : HeapTable) (bh : Addr) : Option (HeapHeader × List ℕ) :=
  s.heaps.heaps[s.addrs.idxOf bh]?

def set (s : HeapTable) (bh : Addr) (h : BlockHeap) (out : List ℕ) : HeapTable :=
  { s with heaps := ⟨h.memory, s.heaps.heaps.set (s.addrs.idxOf bh) (h.header, out)⟩ }

/-- `blockheap_garbagecollect` of the heap at an address. -/
def collect (s : HeapTable) (bh : Addr) : Except HeapError HeapTable :=
  match s.find bh with
  | none => .error .fault
  | some (d, out) =>
    match blockheapGarbagecollect (s.heaps.mem.heap d) with
    | .error e => .error e
    | .ok h => .ok (s.set bh h out)

/-- The loop of `blockheap_gc`, which takes the next node before the body. -/
def gcLoop : ℕ → Option Addr → HeapTable → Except HeapError HeapTable
  | 0, _, _ => .error .endless
  | _ + 1, none, s => .ok s
  | fuel + 1, some ptr, s =>
    let tptr := s.lists.next ptr
    match s.lists.data ptr with
    -- `blockheap_garbagecollect` of `NULL`
    | none => gcLoop fuel tptr s
    | some bh =>
      match s.collect bh with
      | .error e => .error e
      | .ok s => gcLoop fuel tptr s

end HeapTable

/-- `blockheap_create` with the address that `calloc` gives for the `BlockHeap`. -/
def blockheapCreateAt (s : HeapTable) (bh : Addr) (elemsize : ℕ) (elemsperblock : ℤ)
    (env : BlockEnv) : Except HeapError HeapTable :=
  match blockheapCreateIn elemsize elemsperblock s.heaps.mem env with
  | .error e => .error e
  | .ok h => .ok
    { heaps := ⟨h.memory, s.heaps.heaps ++ [(h.header, [])]⟩
      addrs := s.addrs ++ [bh]
      lists := dlinkAdd s.lists (some bh) bh () }

def blockheapGc (s : HeapTable) : Except HeapError HeapTable :=
  HeapTable.gcLoop (s.addrs.length + 1) (s.lists.head ()) s

/-- `blockheap_destroy` of the heap at an address. -/
def blockheapDestroyAt (s : HeapTable) (bh : Addr) : Except HeapError HeapTable :=
  match s.find bh with
  | none => .error .fault
  | some (d, _) =>
    match blockheapDestroy (s.heaps.mem.heap d) with
    | .error e => .error e
    | .ok h => .ok
      { heaps := ⟨h.memory, s.heaps.heaps.eraseIdx (s.addrs.idxOf bh)⟩
        addrs := s.addrs.eraseIdx (s.addrs.idxOf bh)
        lists := dlinkDelete s.lists bh () }

inductive BallocCall
  | create (bh : Addr) (elemsize : ℕ) (elemsperblock : ℤ) (env : BlockEnv)
  | call (bh : Addr) (c : HeapCall)
  | gc
  | destroy (bh : Addr)

inductive BallocStep : HeapTable → BallocCall → HeapTable → Prop
  | create {s t : HeapTable} {bh : Addr} {elemsize : ℕ} {elemsperblock : ℤ} {env : BlockEnv}
      (hbh : bh ∉ s.addrs) (hvalid : ∀ d, env.Valid (s.heaps.mem.heap d))
      (hrun : blockheapCreateAt s bh elemsize elemsperblock env = .ok t) :
      BallocStep s (.create bh elemsize elemsperblock env) t
  | call {s : HeapTable} {bh : Addr} {d : HeapHeader} {out : List ℕ} {c : HeapCall}
      {t : HeapState} (hfind : s.find bh = some (d, out))
      (hstep : HeapStep ⟨s.heaps.mem.heap d, out⟩ c t) :
      BallocStep s (.call bh c) (s.set bh t.heap t.out)
  | gc {s t : HeapTable} (hrun : blockheapGc s = .ok t) : BallocStep s .gc t
  | destroy {s t : HeapTable} {bh : Addr} (hrun : blockheapDestroyAt s bh = .ok t) :
      BallocStep s (.destroy bh) t

section Heaps

variable {s t : Heaps} {chain : ℕ → List ℕ} {seq : ℕ → BlockList → List ℕ} {i : ℕ}
  {d : HeapHeader} {h : BlockHeap} {chain₀ chain₁ out : List ℕ}

/-- Every region that is mapped is that of a block of some heap. -/
def Heaps.Owned (s : Heaps) (chain : ℕ → List ℕ) : Prop :=
  ∀ p, s.mem.mapped p ≠ none → ∃ i x, s.heaps[i]? = some x ∧ ∃ b ∈ chain i, s.mem.elems b = p

theorem Heaps.Inv.untouched (hinv : s.Inv chain seq)
    (hkeeps : (s.mem.heap d).Keeps chain₀ h chain₁)
    (hothers : ∀ j x, j ≠ i → s.heaps[j]? = some x → (s.mem.heap d).Apart chain₀ (chain j))
    {j : ℕ} {x : HeapHeader × List ℕ} (hj : j ≠ i) (hx : s.heaps[j]? = some x) :
    (s.mem.heap d).Untouched h (chain j) ∧ h.Beside chain₁ (chain j) :=
  hkeeps _ ((hinv.heap j x.1 x.2 hx).beside (hothers j x hj hx))

theorem Heaps.Owned.update (howned : s.Owned chain) (hinv : s.Inv chain seq)
    (hkeeps : (s.mem.heap d).Keeps chain₀ h chain₁) (hmaps : (s.mem.heap d).Maps chain₀ h chain₁)
    (hothers : ∀ j x, j ≠ i → s.heaps[j]? = some x → (s.mem.heap d).Apart chain₀ (chain j))
    (hold : ∀ x, s.heaps[i]? = some x → chain i = chain₀) (hmem : t.mem = h.memory)
    {x : HeapHeader × List ℕ} (hi : t.heaps[i]? = some x)
    (hsame : ∀ j, j ≠ i → t.heaps[j]? = s.heaps[j]?) :
    t.Owned (Function.update chain i chain₁) := by
  intro p hp
  rw [hmem] at hp ⊢
  rcases hmaps p hp with howns | ⟨hmapped, hfree⟩
  · refine ⟨i, x, hi, ?_⟩
    rw [Function.update_self]
    exact howns
  · obtain ⟨j, y, hy, b, hb, heq⟩ := howned p hmapped
    have hj : j ≠ i := by
      rintro rfl
      rw [hold y hy] at hb
      exact hfree ⟨b, hb, heq⟩
    refine ⟨j, y, (hsame j hj).trans hy, b, ?_, ?_⟩
    · rw [Function.update_of_ne hj]
      exact hb
    · exact ((hinv.untouched hkeeps hothers hj hy).1.elems b hb).trans heq

/-- Where the heaps behind the one at `i` stand once it is gone. -/
def skip (i j : ℕ) : ℕ := if j < i then j else j + 1

theorem getElem?_eraseIdx_skip {α : Type} (l : List α) (i j : ℕ) :
    (l.eraseIdx i)[j]? = l[skip i j]? := by
  rw [List.getElem?_eraseIdx, skip]
  split_ifs <;> rfl

theorem skip_ne (i j : ℕ) : skip i j ≠ i := by
  unfold skip
  split_ifs <;> omega

theorem skip_injective {i j k : ℕ} (hjk : j ≠ k) : skip i j ≠ skip i k := by
  unfold skip
  split_ifs <;> omega

theorem exists_skip {i j : ℕ} (hji : j ≠ i) : ∃ k, skip i k = j := by
  rcases Nat.lt_or_gt_of_ne hji with hlt | hgt
  · exact ⟨j, if_pos hlt⟩
  · refine ⟨j - 1, (if_neg ?_).trans ?_⟩ <;> omega

theorem Heaps.Inv.eraseIdx (hinv : s.Inv chain seq) (hi : s.heaps[i]? = some (d, out)) :
    Heaps.Inv ⟨((s.mem.heap d).without (chain i)).memory, s.heaps.eraseIdx i⟩
      (fun j => chain (skip i j)) fun j => seq (skip i j) := by
  have hkeeps := (hinv.heap i d out hi).without_keeps
  have hothers (j x) (hj : j ≠ i) (hx : s.heaps[j]? = some x) :=
    hinv.apart i j (d, out) x (Ne.symm hj) hi hx
  constructor
  · intro j d' out' hj
    rw [getElem?_eraseIdx_skip] at hj
    exact (hinv.untouched hkeeps hothers (skip_ne i j) hj).1.inv (hinv.heap _ d' out' hj)
  · intro j k x y hjk hj hk
    rw [getElem?_eraseIdx_skip] at hj hk
    have ha := hinv.apart _ _ x y (skip_injective hjk) hj hk
    have ha' : (s.mem.heap d).Apart (chain (skip i j)) (chain (skip i k)) :=
      ⟨ha.disjoint, ha.regions⟩
    have hleft := ha'.of_untouched (hinv.untouched hkeeps hothers (skip_ne i j) hj).1
      (hinv.untouched hkeeps hothers (skip_ne i k) hk).1
    exact ⟨hleft.disjoint, hleft.regions⟩

theorem Heaps.Owned.eraseIdx (howned : s.Owned chain) (d : HeapHeader) (i : ℕ) :
    Heaps.Owned ⟨((s.mem.heap d).without (chain i)).memory, s.heaps.eraseIdx i⟩
      fun j => chain (skip i j) := by
  intro p hp
  rcases without_maps p hp with ⟨b, hb, -⟩ | ⟨hmapped, hfree⟩
  · cases hb
  · obtain ⟨j, y, hy, b, hb, heq⟩ := howned p hmapped
    have hj : j ≠ i := by
      rintro rfl
      exact hfree ⟨b, hb, heq⟩
    obtain ⟨k, rfl⟩ := exists_skip hj
    exact ⟨k, y, (getElem?_eraseIdx_skip _ i k).trans hy, b, hb, heq⟩

end Heaps

namespace HeapTable

/-- The heaps keep apart and own what is mapped, and `heap_lists` has each of them once. -/
structure Inv (s : HeapTable) (chain : ℕ → List ℕ) (seq : ℕ → BlockList → List ℕ)
    (nodes : List Addr) : Prop where
  heaps : s.heaps.Inv chain seq
  owned : s.heaps.Owned chain
  length : s.addrs.length = s.heaps.heaps.length
  nodup : s.addrs.Nodup
  shape : s.lists.Shape (fun _ => True) fun _ => nodes
  nodes : nodes.Perm s.addrs
  data : ∀ bh ∈ s.addrs, s.lists.data bh = some bh

/-- The block `b` is in the heap at `bh`. -/
def Holds (s : HeapTable) (bh : Addr) (b : ℕ) : Prop :=
  ∃ d out chain, s.find bh = some (d, out) ∧ Follows s.heaps.mem.next d.base chain none ∧ b ∈ chain

/-- The elements of the heap at `bh` that are handed out are the same in both, with what is in
them. -/
def KeepsElements (s t : HeapTable) (bh : Addr) : Prop :=
  ∀ d out, s.find bh = some (d, out) → ∃ d', t.find bh = some (d', out) ∧
    d'.elemSize = d.elemSize ∧
    ∀ p ∈ out, ∀ k < d.elemSize, t.heaps.mem.byte (p + k) = s.heaps.mem.byte (p + k)

/-- In `t` the heap at `bh` has its blocks of `s` with an element in use, or all of them where the
collector does not look. -/
def Trimmed (s t : HeapTable) (bh : Addr) : Prop :=
  ∀ d out, s.find bh = some (d, out) → ∀ b, t.Holds bh b ↔
    s.Holds bh b ∧ ((s.heaps.mem.heap d).Idle ∨ (s.heaps.mem.heap d).allFree b = false)

/-- The heap at `bh` has no block of which all elements are free, unless it is its only one. -/
def Tight (t : HeapTable) (bh : Addr) : Prop :=
  ∀ d out, t.find bh = some (d, out) →
    (∃ b, ∀ b', t.Holds bh b' → b' = b) ∨
      ∀ b, t.Holds bh b → (t.heaps.mem.heap d).allFree b = false

/-- The heap at `bh` and its blocks are the same in both. -/
def Same (s t : HeapTable) (bh : Addr) : Prop :=
  ∀ d out chain, s.find bh = some (d, out) → Follows s.heaps.mem.next d.base chain none →
    t.find bh = some (d, out) ∧ (s.heaps.mem.heap d).Untouched (t.heaps.mem.heap d) chain

variable {s t u : HeapTable} {chain : ℕ → List ℕ} {seq : ℕ → BlockList → List ℕ}
  {nodes : List Addr} {bh : Addr} {d : HeapHeader} {out : List ℕ}

section Find

theorem Inv.mem_of_find {x : HeapHeader × List ℕ} (hinv : s.Inv chain seq nodes)
    (hfind : s.find bh = some x) : bh ∈ s.addrs := by
  obtain ⟨hlt, -⟩ := List.getElem?_eq_some_iff.mp hfind
  rw [← hinv.length] at hlt
  exact List.idxOf_lt_length_iff.mp hlt

theorem Inv.exists_find (hinv : s.Inv chain seq nodes) (hbh : bh ∈ s.addrs) :
    ∃ d out, s.find bh = some (d, out) := by
  have hlt := List.idxOf_lt_length_of_mem hbh
  rw [hinv.length] at hlt
  exact ⟨_, _, List.getElem?_eq_getElem hlt⟩

theorem Inv.find_of_getElem? {i : ℕ} {x : HeapHeader × List ℕ} (hinv : s.Inv chain seq nodes)
    (hi : s.heaps.heaps[i]? = some x) : ∃ bh, s.addrs.idxOf bh = i ∧ s.find bh = some x := by
  have hlt := (List.getElem?_eq_some_iff.mp hi).1
  rw [← hinv.length] at hlt
  have hidx : s.addrs.idxOf s.addrs[i] = i := hinv.nodup.idxOf_getElem i hlt
  refine ⟨s.addrs[i], hidx, ?_⟩
  rw [find, hidx]
  exact hi

theorem Inv.heap (hinv : s.Inv chain seq nodes) (hfind : s.find bh = some (d, out)) :
    (s.heaps.mem.heap d).Inv (chain (s.addrs.idxOf bh)) (seq (s.addrs.idxOf bh)) out :=
  hinv.heaps.heap _ d out hfind

theorem Inv.mem_chain {b : ℕ} (hinv : s.Inv chain seq nodes) (hholds : s.Holds bh b) :
    ∃ d out, s.find bh = some (d, out) ∧ b ∈ chain (s.addrs.idxOf bh) := by
  obtain ⟨d, out, l, hfind, hl, hb⟩ := hholds
  rw [hl.unique (hinv.heap hfind).follows] at hb
  exact ⟨d, out, hfind, hb⟩

theorem Inv.holds_iff (hinv : s.Inv chain seq nodes) (hfind : s.find bh = some (d, out)) (b : ℕ) :
    s.Holds bh b ↔ b ∈ chain (s.addrs.idxOf bh) := by
  constructor
  · intro hholds
    obtain ⟨-, -, -, hb⟩ := hinv.mem_chain hholds
    exact hb
  · exact fun hb => ⟨d, out, _, hfind, (hinv.heap hfind).follows, hb⟩

theorem idxOf_ne {bh' : Addr} (hbh : bh ∈ s.addrs) (hne : bh' ≠ bh) :
    s.addrs.idxOf bh' ≠ s.addrs.idxOf bh := fun heq =>
  hne ((List.idxOf_inj hbh).mp heq.symm).symm

theorem find_set_self {h : BlockHeap} {out' : List ℕ} (hfind : s.find bh = some (d, out)) :
    (s.set bh h out').find bh = some (h.header, out') :=
  List.getElem?_set_self (List.getElem?_eq_some_iff.mp hfind).1

end Find

section Same

theorem Same.refl (hinv : s.Inv chain seq nodes) (bh : Addr) : s.Same s bh := by
  intro d out l hfind hfollows
  refine ⟨hfind, Untouched.refl fun b hb => ?_⟩
  rw [hfollows.unique (hinv.heap hfind).follows] at hb
  exact (hinv.heap hfind).inUse b hb

theorem Same.follows (hs : s.Same t bh) {l : List ℕ} (hfind : s.find bh = some (d, out))
    (hl : Follows s.heaps.mem.next d.base l none) : Follows t.heaps.mem.next d.base l none :=
  hl.congr (hs d out l hfind hl).2.next

theorem Same.trans (hs : s.Same t bh) (hs' : t.Same u bh) : s.Same u bh := by
  intro d out l hfind hl
  obtain ⟨hfind', hu⟩ := hs d out l hfind hl
  obtain ⟨hfind'', hu'⟩ := hs' d out l hfind' (hs.follows hfind hl)
  exact ⟨hfind'', hu.trans hu'⟩

theorem Same.holds_iff (hs : s.Same t bh) (hinv : s.Inv chain seq nodes)
    (hfind : s.find bh = some (d, out)) (b : ℕ) : t.Holds bh b ↔ s.Holds bh b := by
  have hl := (hinv.heap hfind).follows
  have hfind' := (hs d out _ hfind hl).1
  rw [hinv.holds_iff hfind]
  constructor
  · rintro ⟨d', out', l, hfind'', hl', hb⟩
    rw [hfind'] at hfind''
    cases hfind''
    rwa [hl'.unique (hs.follows hfind hl)] at hb
  · exact fun hb => ⟨d, out, _, hfind', hs.follows hfind hl, hb⟩

theorem Same.keepsElements (hs : s.Same t bh) (hinv : s.Inv chain seq nodes) :
    s.KeepsElements t bh := by
  intro d out hfind
  have hheap := hinv.heap hfind
  obtain ⟨hfind', hu⟩ := hs d out _ hfind hheap.follows
  refine ⟨d, hfind', rfl, fun p hp k hk => ?_⟩
  obtain ⟨b, hb, m, hm, rfl⟩ := hheap.mem_out hp
  obtain ⟨len, hmapped, hlo, hhi⟩ := inRegion_iff.mp (hheap.fits b hb m hm)
  change _ + d.elemSize ≤ _ at hhi
  refine hu.byte _ ⟨b, hb, inRegion_iff.mpr ⟨len, hmapped, ?_, ?_⟩⟩ <;> omega

theorem KeepsElements.trans (hk : s.KeepsElements t bh) (hk' : t.KeepsElements u bh) :
    s.KeepsElements u bh := by
  intro d out hfind
  obtain ⟨d', hfind', hsize, hbyte⟩ := hk d out hfind
  obtain ⟨d'', hfind'', hsize', hbyte'⟩ := hk' d' out hfind'
  refine ⟨d'', hfind'', hsize'.trans hsize, fun p hp k hlt => ?_⟩
  exact (hbyte' p hp k (hsize ▸ hlt)).trans (hbyte p hp k hlt)

/-- The heap is trimmed by a step before which, or after which, nothing happens to it. -/
theorem Trimmed.same (htrim : s.Trimmed t bh) (hs : t.Same u bh) (hinv : t.Inv chain seq nodes)
    (hkeeps : s.KeepsElements t bh) : s.Trimmed u bh := by
  intro d out hfind b
  obtain ⟨d', hfind', -⟩ := hkeeps d out hfind
  rw [hs.holds_iff hinv hfind']
  exact htrim d out hfind b

theorem Same.trimmed (hs : s.Same t bh) (htrim : t.Trimmed u bh) (hinv : s.Inv chain seq nodes) :
    s.Trimmed u bh := by
  intro d out hfind b
  have hl := (hinv.heap hfind).follows
  obtain ⟨hfind', hu⟩ := hs d out _ hfind hl
  rw [htrim d out hfind' b, hs.holds_iff hinv hfind]
  refine and_congr_right fun hb => or_congr Iff.rfl ?_
  rw [hinv.holds_iff hfind] at hb
  rw [allFree, allFree, hu.links.length (.free b) hb]
  rfl

theorem Tight.same (htight : t.Tight bh) (hs : t.Same u bh) (hinv : t.Inv chain seq nodes)
    (hbh : bh ∈ t.addrs) : u.Tight bh := by
  intro d' out' hfind'
  obtain ⟨d, out, hfind⟩ := hinv.exists_find hbh
  obtain ⟨hfind'', hu⟩ := hs d out _ hfind (hinv.heap hfind).follows
  obtain ⟨rfl, rfl⟩ := Prod.mk.inj (Option.some.inj (hfind'.symm.trans hfind''))
  rcases htight d' out' hfind with ⟨b, hone⟩ | hbusy
  · exact .inl ⟨b, fun b' hb' => hone b' ((hs.holds_iff hinv hfind b').mp hb')⟩
  · refine .inr fun b hb => ?_
    have hb' := (hs.holds_iff hinv hfind b).mp hb
    have hholds := (hinv.holds_iff hfind b).mp hb'
    rw [← hbusy b hb', allFree, allFree, hu.links.length (.free b) hholds]
    rfl

end Same

section Calls

variable {h : BlockHeap} {chain₁ out' : List ℕ} {seq₁ : BlockList → List ℕ}

theorem Inv.set (hinv : s.Inv chain seq nodes) (hfind : s.find bh = some (d, out))
    (hkeeps : (s.heaps.mem.heap d).Keeps (chain (s.addrs.idxOf bh)) h chain₁)
    (hmaps : (s.heaps.mem.heap d).Maps (chain (s.addrs.idxOf bh)) h chain₁)
    (hnew : h.Inv chain₁ seq₁ out') :
    (s.set bh h out').Inv (Function.update chain (s.addrs.idxOf bh) chain₁)
        (Function.update seq (s.addrs.idxOf bh) seq₁) nodes ∧
      ∀ bh', bh' ≠ bh → s.Same (s.set bh h out') bh' := by
  have hbh := hinv.mem_of_find hfind
  have hothers (j x) (hj : j ≠ s.addrs.idxOf bh) (hx : s.heaps.heaps[j]? = some x) :=
    hinv.heaps.apart _ j (d, out) x (Ne.symm hj) hfind hx
  have hi : (s.set bh h out').heaps.heaps[s.addrs.idxOf bh]? = some (h.header, out') :=
    find_set_self hfind
  have hsame (j) (hj : j ≠ s.addrs.idxOf bh) :
      (s.set bh h out').heaps.heaps[j]? = s.heaps.heaps[j]? := List.getElem?_set_ne (Ne.symm hj)
  refine ⟨⟨hinv.heaps.update hkeeps hnew hothers rfl hi hsame,
    hinv.owned.update hinv.heaps hkeeps hmaps hothers (fun _ _ => rfl) rfl hi hsame,
    ?_, hinv.nodup, hinv.shape, hinv.nodes, hinv.data⟩, fun bh' hne d' out₁ l hfind' hl => ?_⟩
  · rw [HeapTable.set, List.length_set]
    exact hinv.length
  · have hj := idxOf_ne hbh hne
    refine ⟨(hsame _ hj).trans hfind', ?_⟩
    rw [hl.unique (hinv.heap hfind').follows]
    have hu := (hinv.heaps.untouched hkeeps hothers hj hfind').1
    exact ⟨hu.inUse, hu.next, hu.elems, hu.allocSize, hu.mapped, hu.links, hu.owner, hu.byte⟩

theorem Inv.collect (hinv : s.Inv chain seq nodes) (hbh : bh ∈ s.addrs) :
    ∃ t chain' seq', s.collect bh = .ok t ∧ t.Inv chain' seq' nodes ∧ t.addrs = s.addrs ∧
      t.lists = s.lists ∧ (∀ bh', bh' ≠ bh → s.Same t bh') ∧ s.KeepsElements t bh ∧
      s.Trimmed t bh ∧ t.Tight bh := by
  obtain ⟨d, out, hfind⟩ := hinv.exists_find hbh
  have hheap := hinv.heap hfind
  obtain ⟨h, chain₁, seq₁, hrun, hnew, -⟩ := blockheapGarbagecollect_spec hheap
  have hkeeps : (s.heaps.mem.heap d).Keeps (chain (s.addrs.idxOf bh)) h chain₁ := by
    obtain ⟨chain₂, seq₂, hnew', hkeeps⟩ := hheap.garbagecollect_keeps hrun
    rwa [hnew'.chain_unique hnew] at hkeeps
  obtain ⟨hinv', hsame⟩ := hinv.set hfind hkeeps (hheap.garbagecollect_maps hrun hnew) hnew
  have hfind' : (s.set bh h out).find bh = some (h.header, out) := find_set_self hfind
  have hcollected : h.elemSize = d.elemSize ∧ h.byte = s.heaps.mem.byte ∧
      ∀ b, b ∈ chain₁ ↔ b ∈ chain (s.addrs.idxOf bh) ∧
        ((s.heaps.mem.heap d).Idle ∨ (s.heaps.mem.heap d).allFree b = false) := by
    by_cases hidle : (s.heaps.mem.heap d).Idle
    · rw [blockheapGarbagecollect_idle hidle] at hrun
      cases hrun
      refine ⟨rfl, rfl, fun b => ?_⟩
      rw [hheap.chain_unique hnew]
      simp only [hidle, true_or, and_true]
    · obtain ⟨h₁, seq₂, hok, hinv₁, hc⟩ := blockheapGarbagecollect_busy hheap hidle
      rw [hrun] at hok
      cases hok
      refine ⟨hc.elemSize, hc.byte, fun b => ?_⟩
      rw [hnew.chain_unique hinv₁, List.mem_filter, Bool.not_eq_true']
      simp only [hidle, false_or]
  refine ⟨s.set bh h out, _, _, ?_, hinv', rfl, rfl, hsame, ?_, ?_, ?_⟩
  · rw [HeapTable.collect, hfind]
    dsimp only
    rw [hrun]
  · intro d' out₁ hfind₁
    rw [hfind] at hfind₁
    cases hfind₁
    exact ⟨h.header, hfind', hcollected.1, fun p _ k _ => congrFun hcollected.2.1 _⟩
  · intro d' out₁ hfind₁ b
    rw [hfind] at hfind₁
    cases hfind₁
    rw [hinv'.holds_iff hfind', hinv.holds_iff hfind]
    change b ∈ Function.update chain (s.addrs.idxOf bh) chain₁ (s.addrs.idxOf bh) ↔ _
    rw [Function.update_self]
    exact hcollected.2.2 b
  · intro d' out₁ hfind₁
    cases hfind'.symm.trans hfind₁
    have hholds (b : ℕ) : (s.set bh h out).Holds bh b ↔ b ∈ chain₁ := by
      rw [hinv'.holds_iff hfind']
      change b ∈ Function.update chain (s.addrs.idxOf bh) chain₁ (s.addrs.idxOf bh) ↔ _
      rw [Function.update_self]
    rcases hheap.tight_of_garbagecollect hrun hnew with hone | hbusy
    · obtain ⟨b, hb⟩ := List.length_eq_one_iff.mp hone
      refine .inl ⟨b, fun b' hb' => ?_⟩
      rw [hholds, hb, List.mem_singleton] at hb'
      exact hb'
    · exact .inr fun b hb => hbusy b ((hholds b).mp hb)

end Calls

end HeapTable

end JailFs
