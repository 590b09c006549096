import JailFs.History
import JailFs.LsdList
import Mathlib.Data.Fintype.EquivFin

/-!
# Runs of calls on a list

`Holds s items` says that the list is linked both ways and its nodes hold the items. Every call
that returns keeps it, so in every run the ends and the chains agree and each call answers with the
item it should (`holds_of_run`). A call that takes the only item follows a `NULL` node, and none
lowers the length: `list_contract_iff` says what is left of the contract.
-/

universe u

namespace JailFs

inductive ListCall (β : Type u)
  | add (data : β)
  | pop
  | poll
  | remove (fin : UInt8)

variable {β : Type u}

namespace ListCall

/-- The list afterwards and the item that is returned; `node` is the node of a `list_add`. -/
def apply (node : Addr) (s : ListP β) : ListCall β → Except MemFault (ListP β × Option β)
  | add data => (listAdd s node data).map fun s => (s, none)
  | pop => listPop s
  | poll => listPoll s
  | remove fin => (listRemove s fin).map fun s => (s, none)

def effect (items : List β) : ListCall β → List β
  | add data => items ++ [data]
  | pop => items.dropLast
  | poll => items.tail
  | remove fin => if fin = FRONT then items.tail else if fin = BACK then items.dropLast else items

/-- The item that the call is to return. -/
def answer (items : List β) : ListCall β → Option β
  | add _ => none
  | pop => items.getLast?
  | poll => items.head?
  | remove _ => none

/-- The call takes nothing from a list of `items`, and does not overflow its length. -/
def Harmless (items : List β) : ListCall β → Prop
  | add _ => items.length + 1 < 2 ^ 31
  | pop => items = []
  | poll => items = []
  | remove fin => fin ≠ FRONT ∧ fin ≠ BACK

end ListCall

/-- The items that are left after the calls. -/
def remaining (hist : List (ListCall β)) : List β := hist.foldl ListCall.effect []

theorem remaining_snoc (hist : List (ListCall β)) (c : ListCall β) :
    remaining (hist ++ [c]) = c.effect (remaining hist) := List.foldl_concat ..

/-- One call that returns. -/
def ListStep (s : ListP β) (c : ListCall β) (t : ListP β) : Prop :=
  ∃ node r, s.data node = none ∧ c.apply node s = .ok (t, r)

namespace ListP

def Holds (s : ListP β) (items : List β) : Prop :=
  ∃ nodes, s.Shape nodes ∧ nodes.map s.data = items.map some

variable {s t : ListP β} {items : List β} {x : β} {node : Addr}

theorem map_ok_iff {γ δ : Type u} {r : Except MemFault γ} {f : γ → δ} {b : δ} :
    r.map f = .ok b ↔ ∃ a, r = .ok a ∧ f a = b := by
  cases r with
  | error e => simp [Except.map]
  | ok a => simp [Except.map]

theorem holds_createList : (createList : ListP β).Holds [] := ⟨[], shape_createList, rfl⟩

theorem Holds.describes_iff (h : s.Holds items) : s.Describes items ↔ s.length = items.length := by
  obtain ⟨nodes, hs, hitems⟩ := h
  rw [hs.describes_iff, and_iff_right hitems]

theorem Holds.exists_fresh (h : s.Holds items) : ∃ node, s.data node = none := by
  obtain ⟨nodes, hs, -⟩ := h
  obtain ⟨node, hnode⟩ := Infinite.exists_notMem_finset nodes.toFinset
  rw [List.mem_toFinset, hs.inUse, not_not] at hnode
  exact ⟨node, hnode⟩

theorem Holds.add (h : s.Holds items) (hnode : s.data node = none) (x : β) :
    ∃ t, listAdd s node x = .ok t ∧ t.Holds (items ++ [x]) ∧
      t.length = wrapInt (s.length + 1) := by
  obtain ⟨nodes, hs, hitems⟩ := h
  obtain ⟨t, hadd, ht, hdata, hlength⟩ := hs.add hnode x
  have hfresh : node ∉ nodes := fun hmem => (hs.inUse node).mp hmem hnode
  refine ⟨t, hadd, ⟨nodes ++ [node], ht, ?_⟩, hlength⟩
  rw [hdata, List.map_append, List.map_append, map_update hfresh, hitems]
  simp

theorem Holds.ends_nil (h : s.Holds []) : s.first = none ∧ s.last = none := by
  obtain ⟨nodes, hs, hitems⟩ := h
  obtain rfl := List.map_eq_nil_iff.mp hitems
  exact ⟨hs.first, hs.last⟩

theorem Holds.pop_nil (h : s.Holds []) : listPop s = .ok (s, none) := by
  rw [listPop, h.ends_nil.2]

theorem Holds.poll_nil (h : s.Holds []) : listPoll s = .ok (s, none) := by
  rw [listPoll, h.ends_nil.1]

/-- `list_pop` of the only item follows the `NULL` before it; of several it returns the last. -/
theorem Holds.pop (h : s.Holds (items ++ [x])) :
    (items = [] → listPop s = .error .nullNode) ∧
      (items ≠ [] → ∃ t, listPop s = .ok (t, some x) ∧ t.Holds items ∧ t.length = s.length) := by
  obtain ⟨all, hs, hitems⟩ := h
  rw [List.map_append] at hitems
  obtain ⟨nodes, last, rfl, hnodes, hlast⟩ := List.map_eq_append_iff.mp hitems
  obtain ⟨m, rfl, hm⟩ := List.map_eq_singleton_iff.mp hlast
  have hempty : nodes = [] ↔ items = [] := by
    rw [← List.map_eq_nil_iff (f := s.data), hnodes, List.map_eq_nil_iff]
  obtain ⟨hone, hmore⟩ := hs.pop
  refine ⟨fun hnil => hone (hempty.mpr hnil), fun hne => ?_⟩
  obtain ⟨t, hpop, ht, hdata, hlength⟩ := hmore fun hnil => hne (hempty.mp hnil)
  exact ⟨t, hpop.trans (by rw [hm]), ⟨nodes, ht, hdata.trans hnodes⟩, hlength⟩

/-- `list_poll` of the only item follows the `NULL` after it; of several it returns the first. -/
theorem Holds.poll (h : s.Holds (x :: items)) :
    (items = [] → listPoll s = .error .nullNode) ∧
      (items ≠ [] → ∃ t, listPoll s = .ok (t, some x) ∧ t.Holds items ∧ t.length = s.length) := by
  obtain ⟨all, hs, hitems⟩ := h
  obtain ⟨m, nodes, rfl, hm, hnodes⟩ := List.map_eq_cons_iff.mp hitems
  have hempty : nodes = [] ↔ items = [] := by
    rw [← List.map_eq_nil_iff (f := s.data), hnodes, List.map_eq_nil_iff]
  obtain ⟨hone, hmore⟩ := hs.poll
  refine ⟨fun hnil => hone (hempty.mpr hnil), fun hne => ?_⟩
  obtain ⟨t, hpoll, ht, hdata, hlength⟩ := hmore fun hnil => hne (hempty.mp hnil)
  exact ⟨t, hpoll.trans (by rw [hm]), ⟨nodes, ht, hdata.trans hnodes⟩, hlength⟩

/-- What a call at one end of the list can do: find nothing, follow a `NULL` node, or take the item
and leave the length as it is. -/
def Takes (s : ListP β) (items rest : List β) (item : Option β)
    (r : Except MemFault (ListP β × Option β)) : Prop :=
  items = [] ∧ r = .ok (s, none) ∨ r = .error .nullNode ∧ items ≠ [] ∨
    ∃ t, r = .ok (t, item) ∧ item.isSome ∧ t.Holds rest ∧ t.length = s.length ∧
      rest.length + 1 = items.length

theorem Holds.pop_takes (h : s.Holds items) :
    s.Takes items items.dropLast items.getLast? (listPop s) := by
  rcases List.eq_nil_or_concat items with rfl | ⟨items, x, rfl⟩
  · exact .inl ⟨rfl, h.pop_nil⟩
  · rw [List.concat_eq_append] at h ⊢
    obtain ⟨hone, hmore⟩ := h.pop
    rw [List.dropLast_concat, List.getLast?_concat]
    by_cases hnil : items = []
    · exact .inr (.inl ⟨hone hnil, by simp⟩)
    · obtain ⟨t, hpop, ht, hlength⟩ := hmore hnil
      exact .inr (.inr ⟨t, hpop, rfl, ht, hlength, by simp⟩)

theorem Holds.poll_takes (h : s.Holds items) :
    s.Takes items items.tail items.head? (listPoll s) := by
  cases items with
  | nil => exact .inl ⟨rfl, h.poll_nil⟩
  | cons x items =>
    obtain ⟨hone, hmore⟩ := h.poll
    by_cases hnil : items = []
    · exact .inr (.inl ⟨hone hnil, List.cons_ne_nil x items⟩)
    · obtain ⟨t, hpoll, ht, hlength⟩ := hmore hnil
      exact .inr (.inr ⟨t, hpoll, rfl, ht, hlength, rfl⟩)

theorem Takes.good_iff {rest : List β} {item : Option β}
    {r : Except MemFault (ListP β × Option β)} (htakes : s.Takes items rest item r)
    (h : s.Holds items) (hlength : s.length = items.length)
    (hnil : items = [] → rest = [] ∧ item = none) :
    (∃ t, r = .ok (t, item) ∧ t.Describes rest) ↔ items = [] := by
  constructor
  · rintro ⟨t, hr, hdescribes⟩
    rcases htakes with ⟨hitems, -⟩ | ⟨herr, -⟩ | ⟨t', hok, -, ht, hsame, hcount⟩
    · exact hitems
    · rw [herr] at hr
      cases hr
    · rw [hok] at hr
      cases hr
      rw [ht.describes_iff] at hdescribes
      omega
  · intro hitems
    obtain ⟨rfl, rfl⟩ := hnil hitems
    rcases htakes with ⟨-, hok⟩ | ⟨-, hne⟩ | ⟨-, -, -, -, -, hcount⟩
    · subst hitems
      exact ⟨s, hok, h.describes_iff.mpr hlength⟩
    · exact absurd hitems hne
    · rw [hitems] at hcount
      cases hcount

/-- `list_remove` never leaves what it should: there is no item to destroy, the only item is
followed by a `NULL` node, or the length is too high. -/
theorem Takes.destroyed {rest : List β} {item : Option β}
    {r : Except MemFault (ListP β × Option β)} (htakes : s.Takes items rest item r) :
    (∀ t, r.bind destructor = .ok t → t.Holds rest) ∧
      (s.length = items.length → ¬ ∃ t, r.bind destructor = .ok t ∧ t.Describes rest) := by
  rcases htakes with ⟨-, rfl⟩ | ⟨rfl, -⟩ | ⟨t, rfl, hsome, ht, hsame, hcount⟩
  · constructor
    · intro t hok
      cases hok
    · rintro - ⟨t, hok, -⟩
      cases hok
  · constructor
    · intro t hok
      cases hok
    · rintro - ⟨t, hok, -⟩
      cases hok
  · have hdestroyed : (Except.ok (t, item) : Except MemFault _).bind destructor = .ok t := by
      rw [Except.bind, ListP.destructor, if_pos hsome]
    rw [hdestroyed]
    constructor
    · intro t' hok
      cases hok
      exact ht
    · rintro hlength ⟨t', hok, hdescribes⟩
      cases hok
      rw [ht.describes_iff] at hdescribes
      omega

variable {c : ListCall β}

/-- The step lemma: a call that returns answers with the right item and leaves the right ones. -/
theorem Holds.call {r : Option β} (h : s.Holds items) (hnode : s.data node = none)
    (hok : c.apply node s = .ok (t, r)) : t.Holds (c.effect items) ∧ r = c.answer items := by
  cases c with
  | add x =>
    obtain ⟨t', hadd, ht, -⟩ := h.add hnode x
    rw [ListCall.apply, hadd] at hok
    cases hok
    exact ⟨ht, rfl⟩
  | pop =>
    rw [ListCall.apply] at hok
    rcases h.pop_takes with ⟨rfl, heq⟩ | ⟨heq, -⟩ | ⟨t', heq, -, ht, -⟩
    · rw [heq] at hok
      cases hok
      exact ⟨h, rfl⟩
    · rw [heq] at hok
      cases hok
    · rw [heq] at hok
      cases hok
      exact ⟨ht, rfl⟩
  | poll =>
    rw [ListCall.apply] at hok
    rcases h.poll_takes with ⟨rfl, heq⟩ | ⟨heq, -⟩ | ⟨t', heq, -, ht, -⟩
    · rw [heq] at hok
      cases hok
      exact ⟨h, rfl⟩
    · rw [heq] at hok
      cases hok
    · rw [heq] at hok
      cases hok
      exact ⟨ht, rfl⟩
  | remove fin =>
    rw [ListCall.apply, listRemove] at hok
    rw [ListCall.effect]
    split_ifs at hok ⊢
    · obtain ⟨t', hremove, heq⟩ := map_ok_iff.mp hok
      cases heq
      exact ⟨h.poll_takes.destroyed.1 t hremove, rfl⟩
    · obtain ⟨t', hremove, heq⟩ := map_ok_iff.mp hok
      cases heq
      exact ⟨h.pop_takes.destroyed.1 t hremove, rfl⟩
    · cases hok
      exact ⟨h, rfl⟩

/-- While the length is right, a call does all that it should exactly if it is harmless. -/
theorem Holds.good_iff (h : s.Holds items) (hlength : s.length = items.length)
    (hnode : s.data node = none) :
    (∃ t, c.apply node s = .ok (t, c.answer items) ∧ t.Describes (c.effect items)) ↔
      c.Harmless items := by
  cases c with
  | add x =>
    obtain ⟨t, hadd, ht, htl⟩ := h.add hnode x
    have happly : (ListCall.add x).apply node s = .ok (t, none) := by
      rw [ListCall.apply, hadd]
      rfl
    have hdescribes : t.Describes (items ++ [x]) ↔ items.length + 1 < 2 ^ 31 := by
      rw [ht.describes_iff, htl, hlength, List.length_append, List.length_singleton,
        Int.natCast_add, Int.natCast_one, wrapInt_eq_self_iff]
      omega
    rw [happly]
    constructor
    · rintro ⟨t', hok, hd⟩
      cases hok
      exact hdescribes.mp hd
    · intro hroom
      exact ⟨t, rfl, hdescribes.mpr hroom⟩
  | pop =>
    refine h.pop_takes.good_iff h hlength ?_
    rintro rfl
    exact ⟨rfl, rfl⟩
  | poll =>
    refine h.poll_takes.good_iff h hlength ?_
    rintro rfl
    exact ⟨rfl, rfl⟩
  | remove fin =>
    rw [ListCall.Harmless, ListCall.apply, listRemove, ListCall.effect]
    split_ifs with hfront hback
    · refine iff_of_false ?_ fun hne => hne.1 hfront
      rintro ⟨t, hok, hdescribes⟩
      obtain ⟨t', hremove, heq⟩ := map_ok_iff.mp hok
      cases heq
      exact h.poll_takes.destroyed.2 hlength ⟨t, hremove, hdescribes⟩
    · refine iff_of_false ?_ fun hne => hne.2 hback
      rintro ⟨t, hok, hdescribes⟩
      obtain ⟨t', hremove, heq⟩ := map_ok_iff.mp hok
      cases heq
      exact h.pop_takes.destroyed.2 hlength ⟨t, hremove, hdescribes⟩
    · exact iff_of_true ⟨s, rfl, h.describes_iff.mpr hlength⟩ ⟨hfront, hback⟩

end ListP

/-- The run lemma: whatever the calls, as long as they return the list holds what should remain. -/
theorem holds_of_run {hist : List (ListCall β)} {s : ListP β}
    (hrun : Exec ListStep createList hist s) : s.Holds (remaining hist) := by
  refine hrun.history_invariant (I := fun hist s => s.Holds (remaining hist))
    ListP.holds_createList fun hist s c t h hstep => ?_
  obtain ⟨node, r, hnode, hok⟩ := hstep
  rw [remaining_snoc]
  exact (h.call hnode hok).1

/-- What is asked of a call: it returns, with the item it should, and the two ends, the two chains
and the length describe the items that remain. -/
def GoodListCall (pre : List (ListCall β)) (c : ListCall β) (s : ListP β) : Prop :=
  ∀ node, s.data node = none →
    ∃ t, c.apply node s = .ok (t, c.answer (remaining pre)) ∧
      t.Describes (remaining (pre ++ [c]))

/-- The contract of the list is kept along exactly those histories whose calls never take an item
from a list that has one, never ask `list_remove` for an item, and add fewer than `2 ^ 31`. -/
theorem list_contract_iff (hist : List (ListCall β)) :
    Exec.Meets ListStep createList GoodListCall hist ↔
      Along (fun pre c => c.Harmless (remaining pre)) hist := by
  let R (pre : List (ListCall β)) (s : ListP β) : Prop :=
    s.Holds (remaining pre) ∧ s.length = (remaining pre).length
  have hgood (pre : List (ListCall β)) (c : ListCall β) (s : ListP β) (hR : R pre s) :
      GoodListCall pre c s ↔ c.Harmless (remaining pre) := by
    obtain ⟨node, hnode⟩ := hR.1.exists_fresh
    rw [GoodListCall, remaining_snoc]
    constructor
    · intro h
      exact (hR.1.good_iff hR.2 hnode).mp (h node hnode)
    · intro h node' hnode'
      exact (hR.1.good_iff hR.2 hnode').mpr h
  refine Exec.meets_iff (R := R) ⟨ListP.holds_createList, rfl⟩ ?_ ?_ hgood
  · intro pre c s t hR hharmless hstep
    obtain ⟨node, r, hnode, hok⟩ := hstep
    obtain ⟨t', hok', hdescribes⟩ := (hR.1.good_iff hR.2 hnode).mpr hharmless
    rw [hok] at hok'
    cases hok'
    have ht := (hR.1.call hnode hok).1
    change t.Holds (remaining (pre ++ [c])) ∧ t.length = (remaining (pre ++ [c])).length
    rw [remaining_snoc]
    exact ⟨ht, ht.describes_iff.mp hdescribes⟩
  · intro pre c s hR hharmless
    obtain ⟨node, hnode⟩ := hR.1.exists_fresh
    obtain ⟨t, hok, -⟩ := (hR.1.good_iff hR.2 hnode).mpr hharmless
    exact ⟨t, node, _, hnode, hok⟩

/-- `list_pop` of a list with one item crashes. -/
theorem list_contract_fails : ¬ Exec.Meets ListStep createList GoodListCall
    [ListCall.add (7 : UInt8), .pop] := by
  intro h
  have hfree : (createList : ListP UInt8).data 1 = none := rfl
  obtain ⟨s, hadd, -⟩ := ListP.holds_createList.add hfree 7
  cases hadd
  obtain ⟨t, hok, -⟩ := h [.add 7] .pop [] rfl _ (Exec.single ⟨1, none, rfl, rfl⟩) 2 rfl
  cases hok

end JailFs
