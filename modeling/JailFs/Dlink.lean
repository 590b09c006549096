import JailFs.DList
import JailFs.Dict

/-!
# The doubly linked lists of `dlink.c`

The memory is split by field: one function for each field of `dlink_node` and of `dlink_list`, since
no two fields share an address. The nodes are addresses, the lists are named by any type. A
`NULL` pointer that is followed is a result `none`. `insertAt` and `removeAt` say what the
insertions and the removals of `dlink.c` do to a list that is linked both ways.
-/

universe u

namespace JailFs

open DList

structure DlinkMem (ι : Type u) where
  data : Addr → Option Addr
  next : Addr → Option Addr
  prev : Addr → Option Addr
  head : ι → Option Addr
  tail : ι → Option Addr
  length : ι → ℕ

section Source

variable {ι : Type u} [DecidableEq ι]

namespace DlinkMem

def setData (s : DlinkMem ι) (m : Addr) (v : Option Addr) : DlinkMem ι :=
  { s with data := Function.update s.data m v }

def setNext (s : DlinkMem ι) (m : Addr) (v : Option Addr) : DlinkMem ι :=
  { s with next := Function.update s.next m v }

def setPrev (s : DlinkMem ι) (m : Addr) (v : Option Addr) : DlinkMem ι :=
  { s with prev := Function.update s.prev m v }

def setHead (s : DlinkMem ι) (list : ι) (v : Option Addr) : DlinkMem ι :=
  { s with head := Function.update s.head list v }

def setTail (s : DlinkMem ι) (list : ι) (v : Option Addr) : DlinkMem ι :=
  { s with tail := Function.update s.tail list v }

def setLength (s : DlinkMem ι) (list : ι) (v : ℕ) : DlinkMem ι :=
  { s with length := Function.update s.length list v }

end DlinkMem

def dlinkAdd (s : DlinkMem ι) (data : Option Addr) (m : Addr) (list : ι) : DlinkMem ι :=
  let s := ((s.setData m data).setNext m (s.head list)).setPrev m none
  let s :=
    match s.head list with
    | some head => s.setPrev head (some m)
    | none => if s.tail list = none then s.setTail list (some m) else s
  (s.setHead list (some m)).setLength list (s.length list + 1)

def dlinkAddBefore (s : DlinkMem ι) (b : Option Addr) (data : Option Addr) (m : Addr) (list : ι) :
    Option (DlinkMem ι) :=
  if b = s.head list then some (dlinkAdd s data m list)
  else
    match b with
    | none => none
    | some b =>
      let s := s.setData m data
      match s.prev b with
      | none => none
      | some p =>
        let s := s.setNext p (some m)
        let s := s.setPrev m (s.prev b)
        let s := s.setPrev b (some m)
        let s := s.setNext m (some b)
        some (s.setLength list (s.length list + 1))

def dlinkAddTail (s : DlinkMem ι) (data : Option Addr) (m : Addr) (list : ι) : DlinkMem ι :=
  let s := ((s.setData m data).setNext m none).setPrev m (s.tail list)
  let s :=
    if s.head list = none then s.setHead list (some m)
    else
      match s.tail list with
      | some tail => s.setNext tail (some m)
      | none => s
  (s.setTail list (some m)).setLength list (s.length list + 1)

def dlinkDelete (s : DlinkMem ι) (m : Addr) (list : ι) : DlinkMem ι :=
  let s :=
    match s.prev m with
    | none => s.setHead list (s.next m)
    | some p => s.setNext p (s.next m)
  let s :=
    match s.next m with
    | none => s.setTail list (s.prev m)
    | some n => s.setPrev n (s.prev m)
  s.setLength list (s.length list - 1)

/-- `DLINK_FOREACH` from `ptr` up to the first node with this data; `none` if it takes `fuel` nodes
to get there. -/
def dlinkForeachFind (s : DlinkMem ι) (data : Option Addr) : ℕ → Option Addr → Option (Option Addr)
  | 0, _ => none
  | _ + 1, none => some none
  | fuel + 1, some ptr =>
    if s.data ptr = data then some (some ptr) else dlinkForeachFind s data fuel (s.next ptr)

/-- The list afterwards and the node that was found. -/
def dlinkFindDelete (s : DlinkMem ι) (fuel : ℕ) (data : Option Addr) (list : ι) :
    Option (DlinkMem ι × Option Addr) :=
  match dlinkForeachFind s data fuel (s.head list) with
  | none => none
  | some none => some (s, none)
  | some (some ptr) =>
    let s :=
      match s.next ptr with
      | some n => s.setPrev n (s.prev ptr)
      | none => s.setTail list (s.prev ptr)
    let s :=
      match s.prev ptr with
      | some p => s.setNext p (s.next ptr)
      | none => s.setHead list (s.next ptr)
    let s := (s.setPrev ptr none).setNext ptr none
    some (s.setLength list (s.length list - 1), some ptr)

def dlinkMove (s : DlinkMem ι) (m : Option Addr) (oldlist newlist : Option ι) : DlinkMem ι :=
  match m, oldlist, newlist with
  | some m, some oldlist, some newlist =>
    let s :=
      match s.next m with
      | some n => s.setPrev n (s.prev m)
      | none => s.setTail oldlist (s.prev m)
    let s :=
      match s.prev m with
      | some p => s.setNext p (s.next m)
      | none => s.setHead oldlist (s.next m)
    let s := (s.setPrev m none).setNext m (s.head newlist)
    let s :=
      match s.head newlist with
      | some head => s.setPrev head (some m)
      | none => if s.tail newlist = none then s.setTail newlist (some m) else s
    let s := (s.setHead newlist (some m)).setLength oldlist (s.length oldlist - 1)
    s.setLength newlist (s.length newlist + 1)
  | _, _, _ => s

end Source

namespace DlinkMem

variable {ι : Type u}

/-- The forward chain from `head`, the backward chain from `tail` and the length describe `l`. -/
structure Describes (s : DlinkMem ι) (list : ι) (l : List Addr) : Prop where
  forward : Follows s.next (s.head list) l none
  backward : Follows s.prev (s.tail list) l.reverse none
  length : s.length list = l.length

/-- Every live list is linked both ways, and no node is on two lists or twice on one. A list that
is not live, as one in memory that is not in use, has the empty sequence. -/
structure Shape (s : DlinkMem ι) (live : ι → Prop) (seq : ι → List Addr) : Prop where
  links : ∀ list, Seg s.next s.prev none (seq list) none
  head : ∀ list, live list → s.head list = (seq list).head?
  tail : ∀ list, live list → s.tail list = (seq list).getLast?
  length : ∀ list, live list → s.length list = (seq list).length
  dead : ∀ list, ¬ live list → seq list = []
  nodup : ∀ list, (seq list).Nodup
  disjoint : ∀ list list', list ≠ list' → (seq list).Disjoint (seq list')

theorem Shape.describes {s : DlinkMem ι} {live : ι → Prop} {seq : ι → List Addr} {list : ι}
    (h : s.Shape live seq) (hlive : live list) : s.Describes list (seq list) := by
  obtain ⟨hforth, hback⟩ := seg_iff_follows.mp (h.links list)
  rw [Option.or_none] at hforth hback
  refine ⟨?_, ?_, h.length list hlive⟩
  · rw [h.head list hlive]
    exact hforth
  · rw [h.tail list hlive]
    exact hback

theorem Shape.narrow {s : DlinkMem ι} {live live' : ι → Prop} {seq seq' : ι → List Addr}
    (h : s.Shape live seq) (hle : ∀ list, live' list → live list)
    (hsame : ∀ list, live' list → seq' list = seq list)
    (hdead : ∀ list, ¬ live' list → seq' list = []) : s.Shape live' seq' := by
  constructor
  · intro list
    by_cases hl : live' list
    · rw [hsame list hl]
      exact h.links list
    · rw [hdead list hl]
      trivial
  · intro list hl
    rw [hsame list hl]
    exact h.head list (hle list hl)
  · intro list hl
    rw [hsame list hl]
    exact h.tail list (hle list hl)
  · intro list hl
    rw [hsame list hl]
    exact h.length list (hle list hl)
  · exact hdead
  · intro list
    by_cases hl : live' list
    · rw [hsame list hl]
      exact h.nodup list
    · rw [hdead list hl]
      exact List.nodup_nil
  · intro list list' hne
    by_cases hl : live' list
    · by_cases hl' : live' list'
      · rw [hsame list hl, hsame list' hl']
        exact h.disjoint list list' hne
      · rw [hdead list' hl']
        exact List.disjoint_nil_right _
    · rw [hdead list hl]
      exact List.disjoint_nil_left _

section Update

variable [DecidableEq ι] {s s' : DlinkMem ι} {live : ι → Prop} {seq : ι → List Addr} {list : ι}
  {m : Addr} {before after : List Addr} {data : Option Addr}

/-- What an insertion of `m` between `before` and `after` leaves. -/
def insertAt (s : DlinkMem ι) (data : Option Addr) (m : Addr) (list : ι)
    (before after : List Addr) : DlinkMem ι where
  data := Function.update s.data m data
  next := Function.update (setAt s.next before.getLast? (some m)) m after.head?
  prev := Function.update (setAt s.prev after.head? (some m)) m before.getLast?
  head := Function.update s.head list (before ++ m :: after).head?
  tail := Function.update s.tail list (before ++ m :: after).getLast?
  length := Function.update s.length list (s.length list + 1)

/-- What the removal of the node between `before` and `after` leaves. -/
def removeAt (s : DlinkMem ι) (list : ι) (before after : List Addr) : DlinkMem ι where
  data := s.data
  next := setAt s.next before.getLast? after.head?
  prev := setAt s.prev after.head? before.getLast?
  head := Function.update s.head list (before ++ after).head?
  tail := Function.update s.tail list (before ++ after).getLast?
  length := Function.update s.length list (s.length list - 1)

theorem Shape.update (h : s.Shape live seq) (hlive : live list) {l : List Addr}
    (hlinks : Seg s'.next s'.prev none l none) (hn : l.Nodup)
    (hfar : ∀ list', list ≠ list' → l.Disjoint (seq list') ∧
      ∀ a ∈ seq list', s'.next a = s.next a ∧ s'.prev a = s.prev a)
    (hhead : s'.head = Function.update s.head list l.head?)
    (htail : s'.tail = Function.update s.tail list l.getLast?)
    (hlength : s'.length = Function.update s.length list l.length) :
    s'.Shape live (Function.update seq list l) := by
  constructor
  · intro i
    by_cases hi : i = list
    · rw [hi, Function.update_self]
      exact hlinks
    · rw [Function.update_of_ne hi]
      have hsame := (hfar i (Ne.symm hi)).2
      exact (h.links i).congr (fun a ha => (hsame a ha).1) fun a ha => (hsame a ha).2
  · intro i hi'
    rw [hhead]
    by_cases hi : i = list
    · rw [hi, Function.update_self, Function.update_self]
    · rw [Function.update_of_ne hi, Function.update_of_ne hi, h.head i hi']
  · intro i hi'
    rw [htail]
    by_cases hi : i = list
    · rw [hi, Function.update_self, Function.update_self]
    · rw [Function.update_of_ne hi, Function.update_of_ne hi, h.tail i hi']
  · intro i hi'
    rw [hlength]
    by_cases hi : i = list
    · rw [hi, Function.update_self, Function.update_self]
    · rw [Function.update_of_ne hi, Function.update_of_ne hi, h.length i hi']
  · intro i hi
    have hne : i ≠ list := fun heq => hi (heq.symm ▸ hlive)
    rw [Function.update_of_ne hne]
    exact h.dead i hi
  · intro i
    by_cases hi : i = list
    · rw [hi, Function.update_self]
      exact hn
    · rw [Function.update_of_ne hi]
      exact h.nodup i
  · intro i j hij
    by_cases hi : i = list
    · subst hi
      rw [Function.update_self, Function.update_of_ne (Ne.symm hij)]
      exact (hfar j hij).1
    · by_cases hj : j = list
      · subst hj
        rw [Function.update_self, Function.update_of_ne hi]
        exact List.disjoint_symm (hfar i (Ne.symm hij)).1
      · rw [Function.update_of_ne hi, Function.update_of_ne hj]
        exact h.disjoint i j hij

theorem Shape.insertAt (h : s.Shape live seq) (hlive : live list)
    (hseq : seq list = before ++ after) (hm : ∀ list', m ∉ seq list') :
    (s.insertAt data m list before after).Shape live
      (Function.update seq list (before ++ m :: after)) := by
  have hlinks := h.links list
  have hn := h.nodup list
  have hmem := hm list
  rw [hseq] at hlinks hn hmem
  refine h.update hlive (hlinks.insert hn hmem) ?_ ?_ rfl rfl ?_
  · rw [List.nodup_middle]
    exact List.nodup_cons.mpr ⟨hmem, hn⟩
  · intro list' hne
    have hd := h.disjoint list list' hne
    rw [hseq, List.disjoint_append_left] at hd
    refine ⟨?_, fun a ha => ?_⟩
    · rw [List.disjoint_append_left, List.disjoint_cons_left]
      exact ⟨hd.1, hm list', hd.2⟩
    · have ham : a ≠ m := ne_of_mem_of_not_mem ha (hm list')
      exact ⟨(Function.update_of_ne ham _ _).trans (setAt_of_not_mem (ne_getLast? hd.1) ha),
        (Function.update_of_ne ham _ _).trans
          (setAt_of_not_mem (ne_head? (List.disjoint_symm hd.2)) ha)⟩
  · rw [DlinkMem.insertAt, h.length list hlive, hseq]
    simp [Nat.add_assoc]

theorem Shape.removeAt (h : s.Shape live seq) (hlive : live list)
    (hseq : seq list = before ++ m :: after) :
    (s.removeAt list before after).Shape live (Function.update seq list (before ++ after)) := by
  have hlinks := h.links list
  have hn := h.nodup list
  rw [hseq] at hlinks hn
  have hm := (seg_insert_iff.mp hlinks).2
  rw [Option.or_none, Option.or_none] at hm
  have hrest := hlinks.remove hn
  rw [hm.1, hm.2.1] at hrest
  refine h.update hlive hrest ?_ ?_ rfl rfl ?_
  · rw [List.nodup_middle] at hn
    exact (List.nodup_cons.mp hn).2
  · intro list' hne
    have hd := h.disjoint list list' hne
    rw [hseq, List.disjoint_append_left, List.disjoint_cons_left] at hd
    refine ⟨List.disjoint_append_left.mpr ⟨hd.1, hd.2.2⟩, fun a ha => ?_⟩
    exact ⟨setAt_of_not_mem (ne_getLast? hd.1) ha,
      setAt_of_not_mem (ne_head? (List.disjoint_symm hd.2.2)) ha⟩
  · rw [DlinkMem.removeAt, h.length list hlive, hseq]
    simp

end Update

/-- The two memories have the same in these nodes and in these lists. -/
structure Agrees (s s' : DlinkMem ι) (nodes : Addr → Prop) (lists : ι → Prop) : Prop where
  data : ∀ a, nodes a → s'.data a = s.data a
  next : ∀ a, nodes a → s'.next a = s.next a
  prev : ∀ a, nodes a → s'.prev a = s.prev a
  head : ∀ list, lists list → s'.head list = s.head list
  tail : ∀ list, lists list → s'.tail list = s.tail list
  length : ∀ list, lists list → s'.length list = s.length list

section Agrees

variable {s s' s'' : DlinkMem ι} {nodes : Addr → Prop} {lists : ι → Prop}

theorem Agrees.refl (s : DlinkMem ι) (nodes : Addr → Prop) (lists : ι → Prop) :
    s.Agrees s nodes lists :=
  ⟨fun _ _ => rfl, fun _ _ => rfl, fun _ _ => rfl, fun _ _ => rfl, fun _ _ => rfl, fun _ _ => rfl⟩

theorem Agrees.trans (h : s.Agrees s' nodes lists) (h' : s'.Agrees s'' nodes lists) :
    s.Agrees s'' nodes lists where
  data a ha := (h'.data a ha).trans (h.data a ha)
  next a ha := (h'.next a ha).trans (h.next a ha)
  prev a ha := (h'.prev a ha).trans (h.prev a ha)
  head list hl := (h'.head list hl).trans (h.head list hl)
  tail list hl := (h'.tail list hl).trans (h.tail list hl)
  length list hl := (h'.length list hl).trans (h.length list hl)

/-- Lists that are found as they were have the sequences that they had. -/
theorem Agrees.shape {live : ι → Prop} {seq : ι → List Addr} (h : s.Agrees s' nodes lists)
    (hs : s.Shape live seq) (hlists : ∀ list, live list → lists list)
    (hnodes : ∀ list, ∀ a ∈ seq list, nodes a) : s'.Shape live seq where
  links list := (hs.links list).congr (fun a ha => h.next a (hnodes list a ha))
    fun a ha => h.prev a (hnodes list a ha)
  head list hl := (h.head list (hlists list hl)).trans (hs.head list hl)
  tail list hl := (h.tail list (hlists list hl)).trans (hs.tail list hl)
  length list hl := (h.length list (hlists list hl)).trans (hs.length list hl)
  dead := hs.dead
  nodup := hs.nodup
  disjoint := hs.disjoint

variable [DecidableEq ι] {list : ι} {m : Addr} {before after : List Addr} {data : Option Addr}

theorem insertAt_agrees (hlist : ¬ lists list) (hm : ¬ nodes m)
    (hbefore : ∀ a ∈ before, ¬ nodes a) (hafter : ∀ a ∈ after, ¬ nodes a) :
    s.Agrees (s.insertAt data m list before after) nodes lists := by
  have hne {a : Addr} (ha : nodes a) : a ≠ m := fun heq => hm (heq ▸ ha)
  have hother {list' : ι} (hl : lists list') : list' ≠ list := fun heq => hlist (heq ▸ hl)
  constructor
  · exact fun a ha => Function.update_of_ne (hne ha) _ _
  · intro a ha
    refine (Function.update_of_ne (hne ha) _ _).trans (setAt_of_ne fun hlast => ?_)
    exact hbefore a (List.mem_of_getLast? hlast) ha
  · intro a ha
    refine (Function.update_of_ne (hne ha) _ _).trans (setAt_of_ne fun hhead => ?_)
    exact hafter a (List.mem_of_head? hhead) ha
  · exact fun list' hl => Function.update_of_ne (hother hl) _ _
  · exact fun list' hl => Function.update_of_ne (hother hl) _ _
  · exact fun list' hl => Function.update_of_ne (hother hl) _ _

theorem removeAt_agrees (hlist : ¬ lists list) (hbefore : ∀ a ∈ before, ¬ nodes a)
    (hafter : ∀ a ∈ after, ¬ nodes a) :
    s.Agrees (s.removeAt list before after) nodes lists := by
  have hother {list' : ι} (hl : lists list') : list' ≠ list := fun heq => hlist (heq ▸ hl)
  constructor
  · exact fun a _ => rfl
  · exact fun a ha => setAt_of_ne fun hlast => hbefore a (List.mem_of_getLast? hlast) ha
  · exact fun a ha => setAt_of_ne fun hhead => hafter a (List.mem_of_head? hhead) ha
  · exact fun list' hl => Function.update_of_ne (hother hl) _ _
  · exact fun list' hl => Function.update_of_ne (hother hl) _ _
  · exact fun list' hl => Function.update_of_ne (hother hl) _ _

end Agrees

end DlinkMem

end JailFs
