import JailFs.DList
import JailFs.Dict

/-!
# The linked lists of `lsd/list.c`

The memory is split by field: `data` leads from the nodes in use to what their copies hold, `next`
and `prev` are the links. A fresh node comes from `mem_alloc` as zeros, and `mem_free` takes a
node out of use. What `memcpy` copies into a node is a value of any type.
-/

universe u

namespace JailFs

open DList

def FRONT : UInt8 := 0

def BACK : UInt8 := 1

/-- How a call fails to return: it follows a `NULL` node, `mem_free` asserts that it was given no
`NULL`, or memory that was given back is read. -/
inductive MemFault
  | nullNode
  | assertion
  | freed
  deriving DecidableEq

structure ListP (β : Type u) where
  data : Addr → Option β
  next : Addr → Option Addr
  prev : Addr → Option Addr
  first : Option Addr
  last : Option Addr
  length : ℤ

structure ListIter where
  current : Option Addr
  started : Bool
  deriving DecidableEq

section Source

variable {β : Type u}

def createList : ListP β := ⟨fun _ => none, fun _ => none, fun _ => none, none, none, 0⟩

/-- `list_add`; `node` is the new `linked_node` and `data` what is copied. -/
def listAdd (s : ListP β) (node : Addr) (data : β) : Except MemFault (ListP β) :=
  let s := { s with data := Function.update s.data node (some data) }
  match s.first with
  | none =>
    .ok { s with
      prev := Function.update s.prev node none, next := Function.update s.next node none
      first := some node, last := some node, length := wrapInt (s.length + 1) }
  | some _ =>
    match s.last with
    | none => .error .nullNode
    | some last =>
      .ok { s with
        next := Function.update (Function.update s.next last (some node)) node none
        prev := Function.update s.prev node (some last)
        last := some node, length := wrapInt (s.length + 1) }

/-- `list_pop`. The length stays as it is, and so does `first`. -/
def listPop (s : ListP β) : Except MemFault (ListP β × Option β) :=
  match s.last with
  | none => .ok (s, none)
  | some last =>
    match s.prev last with
    | none => .error .nullNode
    | some p =>
      .ok ({ s with
        last := some p, next := Function.update s.next p none
        data := Function.update s.data last none }, s.data last)

/-- `list_poll`. The length stays as it is, and so does `last`. -/
def listPoll (s : ListP β) : Except MemFault (ListP β × Option β) :=
  match s.first with
  | none => .ok (s, none)
  | some first =>
    match s.next first with
    | none => .error .nullNode
    | some n =>
      .ok ({ s with
        first := some n, prev := Function.update s.prev n none
        data := Function.update s.data first none }, s.data first)

/-- `list->destructor(data)`, where the destructor is `mem_free`. -/
def ListP.destructor (r : ListP β × Option β) : Except MemFault (ListP β) :=
  if r.2.isSome then .ok r.1 else .error .assertion

def listRemove (s : ListP β) (fin : UInt8) : Except MemFault (ListP β) :=
  if fin = FRONT then (listPoll s).bind ListP.destructor
  else if fin = BACK then (listPop s).bind ListP.destructor
  else .ok s

def listIterator (s : ListP β) (init : UInt8) : Option ListIter :=
  if init = FRONT then some ⟨s.first, false⟩
  else if init = BACK then some ⟨s.last, false⟩
  else none

def listCurrent (s : ListP β) (iter : ListIter) : Option β :=
  if iter.started then iter.current.bind s.data else none

def listNext (s : ListP β) (iter : ListIter) : ListIter × Option β :=
  match iter.current with
  | none => (iter, none)
  | some a =>
    if iter.started then
      let iter := { iter with current := s.next a }
      (iter, listCurrent s iter)
    else ({ iter with started := true }, s.data a)

end Source

namespace ListP

variable {β : Type u}

/-- The nodes in use are `nodes`, linked both ways between the two ends of the list. -/
structure Shape (s : ListP β) (nodes : List Addr) : Prop where
  links : Seg s.next s.prev none nodes none
  first : s.first = nodes.head?
  last : s.last = nodes.getLast?
  nodup : nodes.Nodup
  inUse : ∀ a, a ∈ nodes ↔ s.data a ≠ none

/-- The forward chain from `first`, the backward chain from `last` and the length describe the
items. -/
def Describes (s : ListP β) (items : List β) : Prop :=
  ∃ nodes, Follows s.next s.first nodes none ∧ Follows s.prev s.last nodes.reverse none ∧
    nodes.map s.data = items.map some ∧ s.length = items.length

variable {s s' : ListP β} {nodes : List Addr} {items : List β} {m : Addr} {x : β}

theorem shape_createList : (createList : ListP β).Shape [] where
  links := trivial
  first := rfl
  last := rfl
  nodup := List.nodup_nil
  inUse := fun _ => iff_of_false List.not_mem_nil fun h => h rfl

theorem Shape.follows (h : s.Shape nodes) :
    Follows s.next s.first nodes none ∧ Follows s.prev s.last nodes.reverse none := by
  obtain ⟨hforth, hback⟩ := seg_iff_follows.mp h.links
  rw [Option.or_none] at hforth hback
  rw [h.first, h.last]
  exact ⟨hforth, hback⟩

theorem map_update {f : Addr → Option β} (hm : m ∉ nodes) (v : Option β) :
    nodes.map (Function.update f m v) = nodes.map f :=
  List.map_congr_left fun _ ha => Function.update_of_ne (ne_of_mem_of_not_mem ha hm) _ _

theorem Shape.describes_iff (h : s.Shape nodes) :
    s.Describes items ↔ nodes.map s.data = items.map some ∧ s.length = items.length := by
  obtain ⟨hforth, hback⟩ := h.follows
  constructor
  · rintro ⟨nodes', hforth', -, hdata, hlength⟩
    rw [hforth.unique hforth']
    exact ⟨hdata, hlength⟩
  · rintro ⟨hdata, hlength⟩
    exact ⟨nodes, hforth, hback, hdata, hlength⟩

theorem Shape.add (h : s.Shape nodes) (hm : s.data m = none) (x : β) :
    ∃ t, listAdd s m x = .ok t ∧ t.Shape (nodes ++ [m]) ∧
      t.data = Function.update s.data m (some x) ∧ t.length = wrapInt (s.length + 1) := by
  have hfresh : m ∉ nodes := fun hmem => (h.inUse m).mp hmem hm
  have hold : Seg s.next s.prev none (nodes ++ []) none := by
    rw [List.append_nil]
    exact h.links
  have hlinks := hold.insert (m := m) (by rw [List.append_nil]; exact h.nodup)
    (by rw [List.append_nil]; exact hfresh)
  have hnodup : (nodes ++ [m]).Nodup := by
    rw [List.nodup_append]
    refine ⟨h.nodup, List.nodup_singleton m, fun a ha b hb => ?_⟩
    rw [List.mem_singleton.mp hb]
    exact ne_of_mem_of_not_mem ha hfresh
  have huse (a : Addr) : a ∈ nodes ++ [m] ↔ Function.update s.data m (some x) a ≠ none := by
    by_cases ha : a = m
    · rw [ha, Function.update_self]
      simp
    · rw [Function.update_of_ne ha, ← h.inUse a]
      simp [ha]
  cases hl : nodes.getLast? with
  | none =>
    obtain rfl := List.getLast?_eq_none_iff.mp hl
    have hfirst : s.first = none := h.first
    refine ⟨_, by rw [listAdd]; dsimp only; rw [hfirst], ?_, rfl, rfl⟩
    exact ⟨hlinks, rfl, rfl, hnodup, huse⟩
  | some l =>
    have hne : nodes ≠ [] := by
      rintro rfl
      cases hl
    obtain ⟨a, nodes, rfl⟩ := List.exists_cons_of_ne_nil hne
    have hfirst : s.first = some a := h.first
    have hlast : s.last = some l := h.last.trans hl
    refine ⟨_, by rw [listAdd]; dsimp only; rw [hfirst]; dsimp only; rw [hlast], ?_, rfl, rfl⟩
    rw [hl] at hlinks
    refine ⟨hlinks, rfl, ?_, hnodup, huse⟩
    rw [List.getLast?_concat]

theorem Shape.pop (h : s.Shape (nodes ++ [m])) :
    (nodes = [] → listPop s = .error .nullNode) ∧
      (nodes ≠ [] → ∃ t, listPop s = .ok (t, s.data m) ∧ t.Shape nodes ∧
        nodes.map t.data = nodes.map s.data ∧ t.length = s.length) := by
  have hlast : s.last = some m := by rw [h.last, List.getLast?_concat]
  obtain ⟨-, hprev, hnext, -⟩ := seg_insert_iff.mp h.links
  rw [Option.or_none] at hprev
  have hsplit := List.nodup_append.mp h.nodup
  have hfresh : m ∉ nodes := fun hmem => hsplit.2.2 m hmem m (List.mem_singleton_self m) rfl
  constructor
  · rintro rfl
    have hnull : s.prev m = none := hprev
    rw [listPop, hlast]
    dsimp only
    rw [hnull]
  · intro hne
    obtain ⟨before, p, rfl⟩ : ∃ before p, nodes = before ++ [p] :=
      ⟨_, _, (List.dropLast_append_getLast hne).symm⟩
    rw [List.getLast?_concat] at hprev
    have hlinks := Seg.remove (l := before ++ [p]) (m := m) h.links h.nodup
    rw [hprev, hnext, List.append_nil] at hlinks
    refine ⟨{ s with
        last := some p, next := Function.update s.next p none
        data := Function.update s.data m none }, ?_, ?_, ?_, rfl⟩
    · rw [listPop, hlast]
      dsimp only
      rw [hprev]
    · refine ⟨hlinks, ?_, by rw [List.getLast?_concat], hsplit.1, fun a => ?_⟩
      · change s.first = _
        rw [h.first, List.head?_append_of_ne_nil _ hne]
      · change a ∈ before ++ [p] ↔ Function.update s.data m none a ≠ none
        by_cases ha : a = m
        · rw [ha, Function.update_self]
          exact iff_of_false hfresh fun hn => hn rfl
        · rw [Function.update_of_ne ha, ← h.inUse a, List.mem_append (t := [m]),
            List.mem_singleton, or_iff_left ha]
    · exact map_update hfresh none

theorem Shape.poll (h : s.Shape (m :: nodes)) :
    (nodes = [] → listPoll s = .error .nullNode) ∧
      (nodes ≠ [] → ∃ t, listPoll s = .ok (t, s.data m) ∧ t.Shape nodes ∧
        nodes.map t.data = nodes.map s.data ∧ t.length = s.length) := by
  have hfirst : s.first = some m := h.first
  obtain ⟨hprev, hnext, -⟩ := h.links
  rw [Option.or_none] at hnext
  obtain ⟨hfresh, hnodup⟩ := List.nodup_cons.mp h.nodup
  constructor
  · rintro rfl
    have hnull : s.next m = none := hnext
    rw [listPoll, hfirst]
    dsimp only
    rw [hnull]
  · intro hne
    obtain ⟨n, after, rfl⟩ := List.exists_cons_of_ne_nil hne
    rw [List.head?_cons] at hnext
    have hlinks := Seg.remove (l := []) (m := m) h.links h.nodup
    rw [hprev, hnext, List.nil_append] at hlinks
    refine ⟨{ s with
        first := some n, prev := Function.update s.prev n none
        data := Function.update s.data m none }, ?_, ?_, ?_, rfl⟩
    · rw [listPoll, hfirst]
      dsimp only
      rw [hnext]
    · refine ⟨hlinks, rfl, ?_, hnodup, fun a => ?_⟩
      · change s.last = _
        rw [h.last, List.getLast?_cons_cons]
      · change a ∈ n :: after ↔ Function.update s.data m none a ≠ none
        by_cases ha : a = m
        · rw [ha, Function.update_self]
          exact iff_of_false hfresh fun hn => hn rfl
        · rw [Function.update_of_ne ha, ← h.inUse a, List.mem_cons (a := a) (b := m),
            or_iff_right ha]
    · exact map_update hfresh none

theorem Shape.remove_front (h : s.Shape (m :: nodes)) :
    (nodes = [] → listRemove s FRONT = .error .nullNode) ∧
      (nodes ≠ [] → ∃ t, listRemove s FRONT = .ok t ∧ t.Shape nodes) := by
  obtain ⟨hone, hmore⟩ := h.poll
  constructor
  · intro hnil
    rw [listRemove, if_pos rfl, hone hnil]
    rfl
  · intro hne
    obtain ⟨t, hpoll, ht, -⟩ := hmore hne
    have hdata : (s.data m).isSome :=
      Option.isSome_iff_ne_none.mpr ((h.inUse m).mp List.mem_cons_self)
    refine ⟨t, ?_, ht⟩
    rw [listRemove, if_pos rfl, hpoll, Except.bind, destructor, if_pos hdata]

/-- The nodes that an iterator has still to visit. -/
def Ahead (s : ListP β) (iter : ListIter) (nodes : List Addr) : Prop :=
  if iter.started then Follows s.next (iter.current.bind s.next) nodes none
  else Follows s.next iter.current nodes none

theorem Shape.ahead_iterator (h : s.Shape nodes) : s.Ahead ⟨s.first, false⟩ nodes := h.follows.1

theorem Ahead.next_nil {iter : ListIter} (h : s.Ahead iter []) :
    (listNext s iter).2 = none := by
  obtain ⟨current, started⟩ := iter
  rw [Ahead] at h
  rw [listNext]
  cases current with
  | none => rfl
  | some a =>
    split_ifs at h with hstarted
    · dsimp only
      rw [if_pos hstarted, listCurrent]
      change (if started = true then (s.next a).bind s.data else none) = none
      have hend : s.next a = none := h
      rw [if_pos hstarted, hend]
      rfl
    · cases h

theorem Ahead.next_cons {iter : ListIter} {a : Addr} (h : s.Ahead iter (a :: nodes)) :
    (listNext s iter).2 = s.data a ∧ s.Ahead (listNext s iter).1 nodes := by
  obtain ⟨current, started⟩ := iter
  rw [Ahead] at h
  rw [listNext]
  cases current with
  | none => split_ifs at h <;> cases h.1
  | some b =>
    split_ifs at h with hstarted
    · obtain ⟨hnext, hrest⟩ := h
      have hb : s.next b = some a := hnext
      dsimp only
      rw [if_pos hstarted, hb, listCurrent, Ahead]
      change (if started = true then s.data a else none) = s.data a ∧ _
      rw [if_pos hstarted]
      dsimp only
      rw [if_pos hstarted]
      exact ⟨rfl, hrest⟩
    · obtain ⟨hb, hrest⟩ := h
      cases hb
      dsimp only
      rw [if_neg hstarted]
      exact ⟨rfl, hrest⟩

end ListP

end JailFs
