import JailFs.History
import JailFs.LsdList

/-!
# The thread pools of `threads.c`

A pool is a list of copies and the records of its threads. `list_add` is given the size of a
pointer, so a copy holds the first field of the record only, the thread's id. `thread_shutdown`
drops the first entry of the list, whosever it is: `pool_contract_iff` says in which orders that is
the right one.
-/

namespace JailFs

/-- A thread record, without its attributes. -/
structure Thread where
  thrInfo : UInt64
  refcnt : ℤ
  fini : Option Addr
  argv : Option Addr
  deriving DecidableEq

/-- What `memcpy` takes of a record: `sizeof(tmp)` bytes. -/
def Thread.copied (t : Thread) : UInt64 := t.thrInfo

structure ThreadPool where
  list : ListP UInt64
  threads : Addr → Option Thread

/-- `threadpool_init`; the name and the attributes of the pool are left out. -/
def threadpoolInit : ThreadPool := ⟨createList, fun _ => none⟩

/-- `thread_create`, with the memory for the record and the list node, and the id that
`pthread_create` gives unless it fails. -/
def threadCreate (s : ThreadPool) (thr node : Addr) (info : Option UInt64) (fini : Option Addr) :
    Except MemFault (ThreadPool × Option Addr) :=
  match info with
  -- the record is not given back
  | none =>
    .ok ({ s with threads := Function.update s.threads thr (some ⟨0, 0, none, none⟩) }, none)
  | some info =>
    let tmp : Thread := ⟨info, 1, fini, none⟩
    (listAdd s.list node tmp.copied).map fun list =>
      (⟨list, Function.update s.threads thr (some tmp)⟩, some thr)

def threadShutdown (s : ThreadPool) (thr : Option Addr) :
    Except MemFault (ThreadPool × Option Addr) :=
  match thr with
  | none => .ok (s, none)
  | some thr =>
    match s.threads thr with
    | none => .error .freed
    | some t =>
      let t := { t with refcnt := wrapInt (t.refcnt - 1) }
      if t.refcnt ≤ 0 then
        (listRemove s.list FRONT).map fun list =>
          (⟨list, Function.update s.threads thr none⟩, none)
      else .ok ({ s with threads := Function.update s.threads thr (some t) }, some thr)

/-- The calls on a pool, with the memory that is handed out in them. -/
inductive PoolCall
  | create (thr node : Addr) (info : Option UInt64) (fini : Option Addr)
  | shutdown (thr : Addr)
  deriving DecidableEq

namespace PoolCall

def apply (s : ThreadPool) : PoolCall → Except MemFault (ThreadPool × Option Addr)
  | create thr node info fini => threadCreate s thr node info fini
  | shutdown thr => threadShutdown s (some thr)

/-- The threads of the pool with their list nodes: a thread that is created brings an entry, and
its shutdown takes away that entry. -/
def effect (entries : List (Addr × Addr)) : PoolCall → List (Addr × Addr)
  | create thr node info _ => if info.isSome then entries ++ [(thr, node)] else entries
  | shutdown thr => entries.filter fun e => e.1 ≠ thr

/-- Memory that is handed out is not in use, and only threads of the pool are shut down. -/
def Proper (entries : List (Addr × Addr)) : PoolCall → Prop
  | create thr node _ _ => thr ∉ entries.map Prod.fst ∧ node ∉ entries.map Prod.snd
  | shutdown thr => thr ∈ entries.map Prod.fst

/-- A thread is shut down only if it is the oldest of several. -/
def OldestOfSeveral (entries : List (Addr × Addr)) : PoolCall → Prop
  | create _ _ _ _ => True
  | shutdown thr => ∃ node next rest, entries = (thr, node) :: next :: rest

end PoolCall

/-- The entries that belong in the list after the calls. -/
def poolEntries (hist : List PoolCall) : List (Addr × Addr) := hist.foldl PoolCall.effect []

theorem poolEntries_snoc (hist : List PoolCall) (c : PoolCall) :
    poolEntries (hist ++ [c]) = c.effect (poolEntries hist) := List.foldl_concat ..

def PoolStep (s : ThreadPool) (c : PoolCall) (t : ThreadPool) : Prop :=
  ∃ r, c.apply s = .ok (t, r)

namespace ThreadPool

open DList

def Lists (s : ThreadPool) (nodes : List Addr) : Prop :=
  Follows s.list.next s.list.first nodes none ∧
    Follows s.list.prev s.list.last nodes.reverse none

/-- The list has the entries, and each of their threads is referred to once. -/
structure Fits (s : ThreadPool) (entries : List (Addr × Addr)) : Prop where
  shape : s.list.Shape (entries.map Prod.snd)
  threads : (entries.map Prod.fst).Nodup
  refcnt : ∀ e ∈ entries, ∃ t, s.threads e.1 = some t ∧ t.refcnt = 1

variable {s t : ThreadPool} {entries rest : List (Addr × Addr)} {thr node : Addr} {e : Addr × Addr}

theorem fits_init : threadpoolInit.Fits [] where
  shape := ListP.shape_createList
  threads := List.nodup_nil
  refcnt := fun _ h => absurd h List.not_mem_nil

theorem Fits.lists_iff (h : s.Fits entries) {nodes : List Addr} :
    s.Lists nodes ↔ nodes = entries.map Prod.snd := by
  constructor
  · rintro ⟨hforth, -⟩
    exact hforth.unique h.shape.follows.1
  · rintro rfl
    exact h.shape.follows

theorem Fits.create (h : s.Fits entries) (hthr : thr ∉ entries.map Prod.fst)
    (hnode : node ∉ entries.map Prod.snd) (info : Option UInt64) (fini : Option Addr) :
    ∃ t r, threadCreate s thr node info fini = .ok (t, r) ∧
      t.Fits ((PoolCall.create thr node info fini).effect entries) := by
  have hother (v : Thread) (e : Addr × Addr) (he : e ∈ entries) :
      Function.update s.threads thr (some v) e.1 = s.threads e.1 :=
    Function.update_of_ne (ne_of_mem_of_not_mem (List.mem_map_of_mem he) hthr) _ _
  cases info with
  | none =>
    refine ⟨_, _, rfl, h.shape, h.threads, fun e he => ?_⟩
    dsimp only
    rw [hother _ e he]
    exact h.refcnt e he
  | some info =>
    have hfree : s.list.data node = none := by
      by_contra hused
      exact hnode ((h.shape.inUse node).mpr hused)
    obtain ⟨list, hadd, hshape, -⟩ := h.shape.add hfree (Thread.copied ⟨info, 1, fini, none⟩)
    have heffect : (PoolCall.create thr node (some info) fini).effect entries =
        entries ++ [(thr, node)] := rfl
    rw [heffect]
    refine ⟨_, _, by rw [threadCreate, hadd]; rfl, ?_, ?_, ?_⟩
    · rw [List.map_append]
      exact hshape
    · rw [List.map_append, List.nodup_append]
      refine ⟨h.threads, List.nodup_singleton thr, fun a ha b hb => ?_⟩
      rw [List.mem_singleton.mp hb]
      exact ne_of_mem_of_not_mem ha hthr
    · intro e he
      rcases List.mem_append.mp he with he | he
      · dsimp only
        rw [hother _ e he]
        exact h.refcnt e he
      · rw [List.mem_singleton.mp he]
        exact ⟨_, Function.update_self .., rfl⟩

/-- A shutdown brings the count of its thread to zero and asks for the first entry to be removed. -/
theorem Fits.shutdown_eq (h : s.Fits entries) (hthr : thr ∈ entries.map Prod.fst) :
    threadShutdown s (some thr) = (listRemove s.list FRONT).map fun list =>
      (⟨list, Function.update s.threads thr none⟩, none) := by
  obtain ⟨e, he, rfl⟩ := List.mem_map.mp hthr
  obtain ⟨t, ht, hone⟩ := h.refcnt e he
  have hzero : wrapInt (t.refcnt - 1) ≤ 0 := by
    rw [hone]
    decide
  rw [threadShutdown]
  dsimp only
  rw [ht]
  dsimp only
  rw [if_pos hzero]

theorem Fits.shutdown (h : s.Fits (e :: rest)) (hthr : thr ∈ (e :: rest).map Prod.fst) :
    (rest = [] → threadShutdown s (some thr) = .error .nullNode) ∧
      (rest ≠ [] → ∃ t r, threadShutdown s (some thr) = .ok (t, r) ∧
        t.list.Shape (rest.map Prod.snd) ∧ t.threads = Function.update s.threads thr none) := by
  rw [h.shutdown_eq hthr]
  obtain ⟨hone, hmore⟩ := ListP.Shape.remove_front h.shape
  constructor
  · intro hnil
    rw [hone (by rw [hnil]; rfl)]
    rfl
  · intro hne
    obtain ⟨list, hremove, hlist⟩ := hmore fun hnil => hne (List.map_eq_nil_iff.mp hnil)
    rw [hremove]
    exact ⟨_, _, rfl, hlist, rfl⟩

theorem Fits.effect_head (h : s.Fits (e :: rest)) :
    (PoolCall.shutdown e.1).effect (e :: rest) = rest := by
  have hrest : rest.filter (fun e' => e'.1 ≠ e.1) = rest := by
    rw [List.filter_eq_self]
    intro e' he'
    have hfresh := (List.nodup_cons.mp h.threads).1
    exact decide_eq_true (ne_of_mem_of_not_mem (List.mem_map_of_mem he') hfresh)
  rw [PoolCall.effect, List.filter_cons_of_neg (by simp), hrest]

/-- Dropping the first entry drops the thread's own exactly if the thread comes first. -/
theorem Fits.dropped_iff (h : s.Fits (e :: rest)) :
    rest.map Prod.snd = ((PoolCall.shutdown thr).effect (e :: rest)).map Prod.snd ↔
      thr = e.1 := by
  constructor
  · intro heq
    by_contra hne
    have hmem : e.2 ∈ rest.map Prod.snd := by
      rw [heq, PoolCall.effect]
      exact List.mem_map_of_mem
        (List.mem_filter.mpr ⟨List.mem_cons_self, decide_eq_true (Ne.symm hne)⟩)
    exact (List.nodup_cons.mp h.shape.nodup).1 hmem
  · rintro rfl
    rw [h.effect_head]

theorem Fits.shutdown_good_iff (h : s.Fits entries) (hthr : thr ∈ entries.map Prod.fst) :
    (∃ t r, threadShutdown s (some thr) = .ok (t, r) ∧
        t.Lists (((PoolCall.shutdown thr).effect entries).map Prod.snd)) ↔
      (PoolCall.shutdown thr).OldestOfSeveral entries := by
  obtain ⟨e, rest, rfl⟩ : ∃ e rest, entries = e :: rest := by
    rw [← List.ne_nil_iff_exists_cons]
    rintro rfl
    exact absurd hthr List.not_mem_nil
  obtain ⟨hone, hmore⟩ := h.shutdown hthr
  constructor
  · rintro ⟨t, r, hok, hlists⟩
    have hne : rest ≠ [] := by
      intro hnil
      rw [hone hnil] at hok
      cases hok
    obtain ⟨t', r', hok', hshape, -⟩ := hmore hne
    rw [hok] at hok'
    cases hok'
    have hfirst := h.dropped_iff.mp (hshape.follows.1.unique hlists.1)
    obtain ⟨next, rest, rfl⟩ := List.exists_cons_of_ne_nil hne
    exact ⟨e.2, next, rest, by rw [hfirst]⟩
  · rintro ⟨node, next, rest, heq⟩
    obtain ⟨rfl, rfl⟩ := List.cons.inj heq
    obtain ⟨t, r, hok, hshape, -⟩ := hmore (List.cons_ne_nil _ _)
    refine ⟨t, r, hok, ?_⟩
    rw [← h.dropped_iff.mpr rfl]
    exact hshape.follows

/-- The step lemma: after a call that meets the condition the pool fits again. -/
theorem Fits.call {c : PoolCall} {r : Option Addr} (h : s.Fits entries) (hproper : c.Proper entries)
    (holdest : c.OldestOfSeveral entries) (hok : c.apply s = .ok (t, r)) :
    t.Fits (c.effect entries) := by
  cases c with
  | create thr node info fini =>
    obtain ⟨t', r', hok', ht⟩ := h.create hproper.1 hproper.2 info fini
    rw [PoolCall.apply, hok'] at hok
    cases hok
    exact ht
  | shutdown thr =>
    obtain ⟨node, next, rest, rfl⟩ := holdest
    obtain ⟨t', r', hok', hshape, hthreads⟩ := (h.shutdown hproper).2 (List.cons_ne_nil _ _)
    rw [PoolCall.apply, hok'] at hok
    cases hok
    rw [h.effect_head]
    obtain ⟨hfresh, hnodup⟩ := List.nodup_cons.mp h.threads
    refine ⟨hshape, hnodup, fun e he => ?_⟩
    rw [hthreads, Function.update_of_ne (ne_of_mem_of_not_mem (List.mem_map_of_mem he) hfresh)]
    exact h.refcnt e (List.mem_cons_of_mem _ he)

theorem Fits.good_iff {c : PoolCall} (h : s.Fits entries) (hproper : c.Proper entries) :
    (∃ t r, c.apply s = .ok (t, r) ∧ t.Lists ((c.effect entries).map Prod.snd)) ↔
      c.OldestOfSeveral entries := by
  cases c with
  | create thr node info fini =>
    obtain ⟨t, r, hok, ht⟩ := h.create hproper.1 hproper.2 info fini
    exact iff_of_true ⟨t, r, hok, ht.lists_iff.mpr rfl⟩ trivial
  | shutdown thr => exact h.shutdown_good_iff hproper

end ThreadPool

/-- What is asked of a call: it returns, and the list has the entries that belong in it. -/
def GoodPoolCall (pre : List PoolCall) (c : PoolCall) (s : ThreadPool) : Prop :=
  ∃ t r, c.apply s = .ok (t, r) ∧ t.Lists ((poolEntries (pre ++ [c])).map Prod.snd)

/-- The list of a pool keeps the entries of its threads along exactly those histories in which
a thread is shut down only while it is the oldest of the pool and not the only one. -/
theorem pool_contract_iff {hist : List PoolCall}
    (hproper : Along (fun pre c => c.Proper (poolEntries pre)) hist) :
    Exec.Meets PoolStep threadpoolInit GoodPoolCall hist ↔
      Along (fun pre c => c.OldestOfSeveral (poolEntries pre)) hist := by
  refine Exec.meets_iff_of_valid (R := fun pre s => s.Fits (poolEntries pre))
    ThreadPool.fits_init ?_ ?_ ?_ hproper
  · rintro pre c s t h hvalid holdest ⟨r, hok⟩
    rw [poolEntries_snoc]
    exact h.call hvalid holdest hok
  · intro pre c s h hvalid holdest
    obtain ⟨t, r, hok, -⟩ := (h.good_iff hvalid).mpr holdest
    exact ⟨t, r, hok⟩
  · intro pre c s h hvalid
    rw [GoodPoolCall, poolEntries_snoc]
    exact h.good_iff hvalid

section OneThread

def createShutdown : List PoolCall := [.create 1 2 (some 3) none, .shutdown 1]

theorem createShutdown_proper :
    Along (fun pre c => PoolCall.Proper (poolEntries pre) c) createShutdown := by
  have hcreate : Along (fun pre c => PoolCall.Proper (poolEntries pre) c)
      ([] ++ [.create 1 2 (some 3) none]) :=
    along_snoc.mpr ⟨along_nil, List.not_mem_nil, List.not_mem_nil⟩
  exact along_snoc.mpr ⟨hcreate, List.mem_singleton_self 1⟩

theorem pool_contract_iff_createShutdown :
    Exec.Meets PoolStep threadpoolInit GoodPoolCall createShutdown ↔
      Along (fun pre c => PoolCall.OldestOfSeveral (poolEntries pre) c) createShutdown :=
  pool_contract_iff createShutdown_proper

/-- The shutdown of the only thread follows a `NULL` node. -/
theorem pool_contract_fails :
    ¬ Exec.Meets PoolStep threadpoolInit GoodPoolCall createShutdown := by
  intro h
  obtain ⟨t, r, hok, -⟩ := h [.create 1 2 (some 3) none] (.shutdown 1) [] rfl _
    (Exec.single ⟨_, rfl⟩)
  cases hok

end OneThread

end JailFs
