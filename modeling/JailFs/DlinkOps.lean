import JailFs.Dlink
import JailFs.Exec

/-!
# The list operations on sequences

Each of the six operations of `dlink.c` is one insertion or one removal, or both, on a memory whose
lists are in shape (`dlinkAdd_eq` to `dlinkMove_eq`). `DlinkOp.apply` is what the operation means on
plain sequences of nodes, and `describes_of_run` says that after any run of them, on any number of
lists, every list of the memory describes its sequence.
-/

universe u

namespace JailFs

open DList DlinkMem

variable {ι : Type u} [DecidableEq ι] {s : DlinkMem ι} {live : ι → Prop} {seq : ι → List Addr}
  {list : ι} {m b : Addr} {before after : List Addr} {data : Option Addr}

section Equations

theorem dlinkAdd_eq (h : s.Shape live seq) (hlive : live list) (hm : m ∉ seq list) :
    dlinkAdd s data m list = s.insertAt data m list [] (seq list) := by
  have hhead := h.head list hlive
  have htail := h.tail list hlive
  cases hseq : seq list with
  | nil =>
    rw [hseq] at hhead htail
    have hhead' : s.head list = none := hhead
    have htail' : s.tail list = none := htail
    simp [dlinkAdd, setData, setNext, setPrev, setHead, setTail, setLength, hhead', htail',
      insertAt, setAt]
  | cons a l =>
    rw [hseq] at hhead htail hm
    have hhead' : s.head list = some a := hhead
    have hne : m ≠ a := fun heq => hm (heq ▸ List.mem_cons_self)
    have hlast : (m :: a :: l).getLast? = s.tail list := by
      rw [htail, List.getLast?_cons_cons]
    simp only [dlinkAdd, setData, setNext, setPrev, setHead, setLength, hhead', insertAt, setAt,
      List.nil_append, List.head?_cons, List.getLast?_nil, hlast, Function.update_eq_self,
      Function.update_comm hne]

theorem dlinkAddTail_eq (h : s.Shape live seq) (hlive : live list) (hm : m ∉ seq list) :
    dlinkAddTail s data m list = s.insertAt data m list (seq list) [] := by
  have hhead := h.head list hlive
  have htail := h.tail list hlive
  rcases List.eq_nil_or_concat (seq list) with hseq | ⟨l, a, hseq⟩
  · rw [hseq] at hhead htail
    have hhead' : s.head list = none := hhead
    have htail' : s.tail list = none := htail
    simp [dlinkAddTail, setData, setNext, setPrev, setHead, setTail, setLength, hhead', htail',
      insertAt, setAt, hseq]
  · rw [hseq, List.concat_eq_append] at hhead htail hm
    rw [List.getLast?_concat] at htail
    have hne : m ≠ a := fun heq => hm (heq ▸ List.mem_append_right _ List.mem_cons_self)
    have hfirst : (l ++ [a] ++ [m]).head? = s.head list := by
      rw [hhead, List.head?_append]
      cases l <;> rfl
    have hsome : s.head list ≠ none := by
      rw [hhead]
      cases l <;> simp
    simp only [dlinkAddTail, setData, setNext, setPrev, setHead, setTail, setLength, if_neg hsome,
      htail, insertAt, setAt, hseq, List.concat_eq_append, hfirst, Function.update_eq_self,
      List.getLast?_concat, List.head?_nil, Function.update_comm hne]

theorem dlinkAddBefore_eq (h : s.Shape live seq) (hlive : live list)
    (hseq : seq list = before ++ b :: after)
    (hm : m ∉ seq list) :
    dlinkAddBefore s (some b) data m list = some (s.insertAt data m list before (b :: after)) := by
  have hhead := h.head list hlive
  have hn := h.nodup list
  rcases List.eq_nil_or_concat before with rfl | ⟨l, p, rfl⟩
  · rw [hseq] at hhead
    have hfirst : some b = s.head list := hhead.symm
    rw [dlinkAddBefore, if_pos hfirst, dlinkAdd_eq h hlive hm, hseq]
    rfl
  · rw [List.concat_eq_append] at *
    have hprev : s.prev b = some p := by
      have hlinks := h.links list
      rw [hseq, seg_insert_iff, List.getLast?_concat] at hlinks
      exact hlinks.2.1
    have hfirst : (l ++ [p] ++ m :: b :: after).head? = s.head list := by
      rw [hhead, hseq]
      cases l <;> rfl
    have hlast : (l ++ [p] ++ m :: b :: after).getLast? = s.tail list := by
      rw [h.tail list hlive, hseq]
      simp [List.getLast?_append]
    have hnothead : some b ≠ s.head list := by
      rw [hhead, hseq]
      rw [hseq, List.nodup_append] at hn
      have hne (a : Addr) (ha : a ∈ l ++ [p]) : a ≠ b := hn.2.2 a ha b List.mem_cons_self
      cases l with
      | nil => exact fun heq => hne p (by simp) (Option.some.inj heq).symm
      | cons a l => exact fun heq => hne a (by simp) (Option.some.inj heq).symm
    rw [hseq] at hm
    have hmb : m ≠ b := fun heq => hm (by simp [heq])
    have hmp : m ≠ p := fun heq => hm (by simp [heq])
    rw [dlinkAddBefore, if_neg hnothead]
    simp only [setData, setNext, setPrev, setLength, hprev, insertAt, setAt, hfirst, hlast,
      Function.update_eq_self, List.getLast?_concat, List.head?_cons, Function.update_comm hmb]

omit [DecidableEq ι] in
/-- What the neighbours of a linked node are, and what they mean for the ends of the list. -/
theorem DlinkMem.Shape.neighbours (h : s.Shape live seq) (hlive : live list)
    (hseq : seq list = before ++ m :: after) :
    s.prev m = before.getLast? ∧ s.next m = after.head? ∧
      (∀ p, before.getLast? = some p → m ≠ p ∧ (before ++ after).head? = s.head list) ∧
      (before.getLast? = none → (before ++ after).head? = after.head?) ∧
      (∀ n, after.head? = some n → m ≠ n ∧ (before ++ after).getLast? = s.tail list) ∧
      (after.head? = none → (before ++ after).getLast? = before.getLast?) := by
  have hlinks := h.links list
  have hn := h.nodup list
  rw [hseq, seg_insert_iff, Option.or_none, Option.or_none] at hlinks
  rw [hseq, List.nodup_middle, List.nodup_cons, List.mem_append, not_or] at hn
  refine ⟨hlinks.2.1, hlinks.2.2.1, fun p hp => ⟨?_, ?_⟩, fun hb => ?_, fun n hn' => ⟨?_, ?_⟩,
    fun ha => ?_⟩
  · exact fun heq => hn.1.1 (heq ▸ List.mem_of_getLast? hp)
  · rw [h.head list hlive, hseq]
    cases before with
    | nil => cases hp
    | cons a l => rfl
  · rw [List.getLast?_eq_none_iff.mp hb, List.nil_append]
  · exact fun heq => hn.1.2 (heq ▸ List.mem_of_head? hn')
  · rw [h.tail list hlive, hseq]
    cases after with
    | nil => cases hn'
    | cons a l => simp [List.getLast?_append]
  · rw [List.head?_eq_none_iff.mp ha, List.append_nil]

theorem dlinkDelete_eq (h : s.Shape live seq) (hlive : live list)
    (hseq : seq list = before ++ m :: after) :
    dlinkDelete s m list = s.removeAt list before after := by
  obtain ⟨hprev, hnext, hp, hnop, hn, hnon⟩ := h.neighbours hlive hseq
  cases hb : before.getLast? with
  | none =>
    cases ha : after.head? with
    | none =>
      simp only [dlinkDelete, setHead, setTail, setLength, removeAt, setAt, hprev, hnext, hb, ha,
        hnop hb, hnon ha]
    | some n =>
      simp only [dlinkDelete, setPrev, setHead, setLength, removeAt, setAt, hprev, hnext, hb, ha,
        hnop hb, (hn n ha).2, Function.update_eq_self]
  | some p =>
    cases ha : after.head? with
    | none =>
      simp only [dlinkDelete, setNext, setTail, setLength, removeAt, setAt, hprev, hnext, hb, ha,
        hnon ha, (hp p hb).2, Function.update_eq_self, Function.update_of_ne (hp p hb).1]
    | some n =>
      simp only [dlinkDelete, setNext, setPrev, setLength, removeAt, setAt, hprev, hnext, hb, ha,
        (hp p hb).2, (hn n ha).2, Function.update_eq_self, Function.update_of_ne (hp p hb).1]

/-- The statements that `dlink_find_delete` and `dlink_move` share: the same repairs as in
`dlink_delete`, in the other order, with the length left for later. -/
def unlinked (s : DlinkMem ι) (m : Addr) (list : ι) : DlinkMem ι :=
  let s :=
    match s.next m with
    | some n => s.setPrev n (s.prev m)
    | none => s.setTail list (s.prev m)
  match s.prev m with
  | some p => s.setNext p (s.next m)
  | none => s.setHead list (s.next m)

theorem unlinked_eq (h : s.Shape live seq) (hlive : live list)
    (hseq : seq list = before ++ m :: after) :
    (unlinked s m list).setLength list (s.length list - 1) = s.removeAt list before after := by
  obtain ⟨hprev, hnext, hp, hnop, hn, hnon⟩ := h.neighbours hlive hseq
  cases hb : before.getLast? with
  | none =>
    cases ha : after.head? with
    | none =>
      simp only [unlinked, setHead, setTail, setLength, removeAt, setAt, hprev, hnext, hb, ha,
        hnop hb, hnon ha]
    | some n =>
      simp only [unlinked, setPrev, setHead, setLength, removeAt, setAt, hprev, hnext, hb, ha,
        hnop hb, (hn n ha).2, Function.update_eq_self, Function.update_of_ne (hn n ha).1]
  | some p =>
    cases ha : after.head? with
    | none =>
      simp only [unlinked, setNext, setTail, setLength, removeAt, setAt, hprev, hnext, hb, ha,
        hnon ha, (hp p hb).2, Function.update_eq_self]
    | some n =>
      simp only [unlinked, setNext, setPrev, setLength, removeAt, setAt, hprev, hnext, hb, ha,
        (hp p hb).2, (hn n ha).2, Function.update_eq_self, Function.update_of_ne (hn n ha).1]

/-- `dlink_move` is `dlink_delete` followed by `dlink_add` with the data the node has. -/
theorem dlinkMove_eq {old new : ι} (h : s.Shape live seq) (hlive : live old)
    (hseq : seq old = before ++ m :: after) :
    dlinkMove s (some m) (some old) (some new) =
      dlinkAdd (s.removeAt old before after) (s.data m) m new := by
  have hlength : (unlinked s m old).length = s.length := by
    unfold unlinked
    cases s.next m <;> dsimp only <;> split <;> rfl
  have hdata : (unlinked s m old).data = s.data := by
    unfold unlinked
    cases s.next m <;> dsimp only <;> split <;> rfl
  have hmove : dlinkMove s (some m) (some old) (some new) =
      dlinkAdd ((unlinked s m old).setLength old (s.length old - 1)) (s.data m) m new := by
    have hself : Function.update (unlinked s m old).data m (s.data m) =
        (unlinked s m old).data := by
      rw [hdata, Function.update_eq_self]
    change (let s₁ := ((unlinked s m old).setPrev m none).setNext m ((unlinked s m old).head new)
      let s₂ :=
        match s₁.head new with
        | some head => s₁.setPrev head (some m)
        | none => if s₁.tail new = none then s₁.setTail new (some m) else s₁
      let s₃ := (s₂.setHead new (some m)).setLength old (s₂.length old - 1)
      s₃.setLength new (s₃.length new + 1)) = _
    cases hhead : (unlinked s m old).head new with
    | some a =>
      simp only [dlinkAdd, setData, setNext, setPrev, setHead, setLength, hhead, hself, hlength]
    | none =>
      by_cases htail : (unlinked s m old).tail new = none
      · simp only [dlinkAdd, setData, setNext, setPrev, setHead, setTail, setLength, hhead, hself,
          hlength, htail, if_true]
      · simp only [dlinkAdd, setData, setNext, setPrev, setHead, setLength, hhead, hself,
          hlength, if_neg htail]
  rw [hmove, unlinked_eq h hlive hseq]

omit [DecidableEq ι] in
theorem dlinkForeachFind_eq {p : Option Addr} {l : List Addr} {fuel : ℕ}
    (h : Follows s.next p l none) (hfuel : l.length < fuel) :
    dlinkForeachFind s data fuel p = some (l.find? fun a => s.data a = data) := by
  induction l generalizing p fuel with
  | nil =>
    obtain rfl : p = none := h
    cases fuel with
    | zero => cases hfuel
    | succ fuel => rfl
  | cons a l ih =>
    obtain ⟨rfl, hl⟩ := h
    cases fuel with
    | zero => cases hfuel
    | succ fuel =>
      rw [dlinkForeachFind, List.find?_cons]
      by_cases hd : s.data a = data
      · simp [hd]
      · simp only [hd, decide_false]
        exact ih hl (Nat.lt_of_succ_lt_succ hfuel)

theorem dlinkFindDelete_eq {fuel : ℕ} (h : s.Shape live seq) (hlive : live list)
    (hfuel : (seq list).length < fuel)
    (hfind : (seq list).find? (fun a => s.data a = data) = some m)
    (hseq : seq list = before ++ m :: after) :
    dlinkFindDelete s fuel data list =
      some (((s.removeAt list before after).setPrev m none).setNext m none, some m) := by
  have hlength : (unlinked s m list).length list = s.length list := by
    unfold unlinked
    cases s.next m <;> dsimp only <;> split <;> rfl
  rw [dlinkFindDelete, dlinkForeachFind_eq (h.describes hlive).forward hfuel, hfind,
    ← unlinked_eq h hlive hseq, ← hlength]
  rfl

theorem dlinkFindDelete_none {fuel : ℕ} (h : s.Shape live seq) (hlive : live list)
    (hfuel : (seq list).length < fuel)
    (hfind : (seq list).find? (fun a => s.data a = data) = none) :
    dlinkFindDelete s fuel data list = some (s, none) := by
  rw [dlinkFindDelete, dlinkForeachFind_eq (h.describes hlive).forward hfuel, hfind]

omit [DecidableEq ι] in
theorem DlinkMem.Shape.detach (h : s.Shape live seq) (hm : ∀ list, m ∉ seq list) :
    ((s.setPrev m none).setNext m none).Shape live seq where
  links list := (h.links list).congr
    (fun _ ha => Function.update_of_ne (ne_of_mem_of_not_mem ha (hm list)) _ _)
    fun _ ha => Function.update_of_ne (ne_of_mem_of_not_mem ha (hm list)) _ _
  head := h.head
  tail := h.tail
  length := h.length
  dead := h.dead
  nodup := h.nodup
  disjoint := h.disjoint

end Equations

/-- Plain sequences of nodes, and the data of each node. -/
structure Sequences (ι : Type u) where
  nodes : ι → List Addr
  data : Addr → Option Addr

inductive DlinkOp (ι : Type u)
  | add (data : Option Addr) (m : Addr) (list : ι)
  | addBefore (b data : Option Addr) (m : Addr) (list : ι)
  | addTail (data : Option Addr) (m : Addr) (list : ι)
  | delete (m : Addr) (list : ι)
  | findDelete (data : Option Addr) (list : ι)
  | move (m : Option Addr) (oldlist newlist : Option ι)

/-- The sequences after a node has moved to the front of a list. -/
def moved (seq : ι → List Addr) (m : Addr) (old new : ι) : ι → List Addr :=
  let seq := Function.update seq old ((seq old).erase m)
  Function.update seq new (m :: seq new)

namespace DlinkOp

def exec (fuel : ℕ) (s : DlinkMem ι) : DlinkOp ι → Option (DlinkMem ι)
  | add data m list => some (dlinkAdd s data m list)
  | addBefore b data m list => dlinkAddBefore s b data m list
  | addTail data m list => some (dlinkAddTail s data m list)
  | delete m list => some (dlinkDelete s m list)
  | findDelete data list => (dlinkFindDelete s fuel data list).map Prod.fst
  | move m oldlist newlist => some (dlinkMove s m oldlist newlist)

def apply (q : Sequences ι) : DlinkOp ι → Sequences ι
  | add data m list =>
    ⟨Function.update q.nodes list (m :: q.nodes list), Function.update q.data m data⟩
  | addBefore b data m list =>
    ⟨Function.update q.nodes list ((q.nodes list).takeWhile (some · ≠ b) ++
      m :: (q.nodes list).dropWhile (some · ≠ b)), Function.update q.data m data⟩
  | addTail data m list =>
    ⟨Function.update q.nodes list (q.nodes list ++ [m]), Function.update q.data m data⟩
  | delete m list => ⟨Function.update q.nodes list ((q.nodes list).erase m), q.data⟩
  | findDelete data list =>
    match (q.nodes list).find? fun a => q.data a = data with
    | none => q
    | some m => ⟨Function.update q.nodes list ((q.nodes list).erase m), q.data⟩
  | move m oldlist newlist =>
    match m, oldlist, newlist with
    | some m, some old, some new => ⟨moved q.nodes m old new, q.data⟩
    | _, _, _ => q

/-- A node is put on a list when it is on none, and taken off the list it is on. -/
def Allowed (q : Sequences ι) : DlinkOp ι → Prop
  | add _ m _ => ∀ list, m ∉ q.nodes list
  | addBefore b _ m list => (∀ list, m ∉ q.nodes list) ∧
      match b with
      | none => q.nodes list = []
      | some b => b ∈ q.nodes list
  | addTail _ m _ => ∀ list, m ∉ q.nodes list
  | delete m list => m ∈ q.nodes list
  | findDelete _ _ => True
  | move m oldlist newlist =>
    match m, oldlist, newlist with
    | some m, some old, some _ => m ∈ q.nodes old
    | _, _, _ => True

/-- One operation on plain sequences. -/
def Step (q : Sequences ι) (op : DlinkOp ι) (q' : Sequences ι) : Prop :=
  op.Allowed q ∧ q' = op.apply q

end DlinkOp

section Refinement

variable {q : Sequences ι} {op : DlinkOp ι}

theorem DlinkMem.Shape.erase (h : s.Shape live seq) (hlive : live list) (hm : m ∈ seq list) :
    ∃ before after, seq list = before ++ m :: after ∧
      (s.removeAt list before after).Shape live (Function.update seq list ((seq list).erase m)) ∧
      ∀ list', m ∉ Function.update seq list ((seq list).erase m) list' := by
  obtain ⟨before, after, -, hseq, herase⟩ := List.exists_erase_eq hm
  refine ⟨before, after, hseq, ?_, fun list' => ?_⟩
  · rw [herase]
    exact h.removeAt hlive hseq
  · by_cases hl : list' = list
    · rw [hl, Function.update_self]
      exact (h.nodup list).not_mem_erase
    · rw [Function.update_of_ne hl]
      exact fun hm' => h.disjoint list list' (Ne.symm hl) hm hm'

section Moved

variable {old new : ι}

theorem moved_old (hne : old ≠ new) : moved seq m old new old = (seq old).erase m := by
  rw [moved, Function.update_of_ne hne, Function.update_self]

theorem moved_new (hne : old ≠ new) : moved seq m old new new = m :: seq new := by
  rw [moved, Function.update_self, Function.update_of_ne hne.symm]

theorem moved_other (hold : list ≠ old) (hnew : list ≠ new) :
    moved seq m old new list = seq list := by
  rw [moved, Function.update_of_ne hnew, Function.update_of_ne hold]

end Moved

theorem DlinkMem.Shape.move {old new : ι} (h : s.Shape live seq) (hold : live old)
    (hnew : live new) (hm : m ∈ seq old) :
    (dlinkMove s (some m) (some old) (some new)).Shape live (moved seq m old new) ∧
      (dlinkMove s (some m) (some old) (some new)).data = s.data := by
  obtain ⟨before, after, hseq, hshape, hgone⟩ := h.erase hold hm
  rw [dlinkMove_eq h hold hseq, dlinkAdd_eq hshape hnew (hgone new)]
  exact ⟨hshape.insertAt hnew rfl hgone, Function.update_eq_self _ _⟩

theorem DlinkMem.Shape.move_agrees {old new : ι} {nodes : Addr → Prop} {lists : ι → Prop}
    (h : s.Shape live seq) (hold : live old) (hnew : live new) (hm : m ∈ seq old)
    (hlists : ¬ lists old ∧ ¬ lists new)
    (hnodes : ∀ a, a ∈ seq old ∨ a ∈ seq new → ¬ nodes a) :
    s.Agrees (dlinkMove s (some m) (some old) (some new)) nodes lists := by
  obtain ⟨before, after, hseq, hshape, hgone⟩ := h.erase hold hm
  have hnode {a : Addr} (ha : a ∈ before ∨ a ∈ after) : ¬ nodes a := by
    refine hnodes a (.inl ?_)
    rw [hseq, List.mem_append, List.mem_cons]
    exact ha.imp_right .inr
  rw [dlinkMove_eq h hold hseq, dlinkAdd_eq hshape hnew (hgone new)]
  refine (removeAt_agrees hlists.1 (fun a ha => hnode (.inl ha)) fun a ha =>
    hnode (.inr ha)).trans (insertAt_agrees hlists.2 (hnodes m (.inl hm))
      (fun a ha => absurd ha List.not_mem_nil) fun a ha => ?_)
  by_cases hne : new = old
  · rw [hne, Function.update_self] at ha
    exact hnodes a (.inl (List.mem_of_mem_erase ha))
  · rw [Function.update_of_ne hne] at ha
    exact hnodes a (.inr ha)

theorem DlinkOp.exec_refines (h : s.Shape (fun _ => True) q.nodes) (hd : s.data = q.data)
    (ha : op.Allowed q) : ∃ s',
      (∀ fuel, (∀ list, (q.nodes list).length < fuel) → op.exec fuel s = some s') ∧
      s'.Shape (fun _ => True) (op.apply q).nodes ∧ s'.data = (op.apply q).data := by
  cases op with
  | add data m list =>
    have hnew : ∀ list, m ∉ q.nodes list := ha
    refine ⟨_, fun fuel _ => congrArg some (dlinkAdd_eq h trivial (hnew list)),
      h.insertAt trivial rfl hnew, ?_⟩
    rw [apply, insertAt, hd]
  | addBefore b data m list =>
    have hnew : ∀ list, m ∉ q.nodes list := ha.1
    cases b with
    | none =>
      have hnil : q.nodes list = [] := ha.2
      have hexec : dlinkAddBefore s none data m list = some (s.insertAt data m list [] []) := by
        rw [dlinkAddBefore, h.head list trivial, hnil, if_pos List.head?_nil.symm,
          dlinkAdd_eq h trivial (hnew list), hnil]
      refine ⟨_, fun fuel _ => hexec, ?_, ?_⟩
      · rw [apply, hnil]
        exact h.insertAt trivial hnil hnew
      · rw [apply, insertAt, hd]
    | some b =>
      have hmem : b ∈ q.nodes list := ha.2
      obtain ⟨before, after, hb, hseq, -⟩ := List.exists_erase_eq hmem
      have hsplit : (q.nodes list).takeWhile (some · ≠ some b) = before ∧
          (q.nodes list).dropWhile (some · ≠ some b) = b :: after := by
        rw [hseq]
        have hne : ∀ a ∈ before, decide (some a ≠ some b) = true := fun a ha =>
          decide_eq_true fun heq => hb (Option.some.inj heq ▸ ha)
        rw [List.takeWhile_append_of_pos hne, List.dropWhile_append_of_pos hne]
        simp
      refine ⟨_, fun fuel _ => dlinkAddBefore_eq h trivial hseq (hnew list), ?_, ?_⟩
      · rw [apply, hsplit.1, hsplit.2]
        exact h.insertAt trivial hseq hnew
      · rw [apply, insertAt, hd]
  | addTail data m list =>
    have hnew : ∀ list, m ∉ q.nodes list := ha
    refine ⟨_, fun fuel _ => congrArg some (dlinkAddTail_eq h trivial (hnew list)),
      h.insertAt trivial (List.append_nil _).symm hnew, ?_⟩
    rw [apply, insertAt, hd]
  | delete m list =>
    obtain ⟨before, after, hseq, hshape, -⟩ := h.erase trivial ha
    exact ⟨_, fun fuel _ => congrArg some (dlinkDelete_eq h trivial hseq), hshape, hd⟩
  | findDelete data list =>
    rw [apply, ← hd]
    cases hfind : (q.nodes list).find? fun a => s.data a = data with
    | none =>
      refine ⟨s, fun fuel hfuel => ?_, h, hd⟩
      rw [exec, dlinkFindDelete_none h trivial (hfuel list) hfind]
      rfl
    | some m =>
      obtain ⟨before, after, hseq, hshape, hgone⟩ :=
        h.erase trivial (List.mem_of_find?_eq_some hfind)
      refine ⟨_, fun fuel hfuel => ?_, hshape.detach hgone, rfl⟩
      rw [exec, dlinkFindDelete_eq h trivial (hfuel list) hfind hseq]
      rfl
  | move m oldlist newlist =>
    cases m with
    | none => exact ⟨s, fun _ _ => rfl, h, hd⟩
    | some m =>
      cases oldlist with
      | none => exact ⟨s, fun _ _ => rfl, h, hd⟩
      | some old =>
        cases newlist with
        | none => exact ⟨s, fun _ _ => rfl, h, hd⟩
        | some new =>
          obtain ⟨hshape, hdata⟩ := h.move trivial trivial ha
          exact ⟨_, fun _ _ => rfl, hshape, hdata.trans hd⟩

theorem length_update_le {f : ι → List Addr} {l : List Addr} {n : ℕ}
    (hf : ∀ list, (f list).length ≤ n) (hl : l.length ≤ n) (list' : ι) :
    (Function.update f list l list').length ≤ n := by
  by_cases hi : list' = list
  · rwa [hi, Function.update_self]
  · rw [Function.update_of_ne hi]
    exact hf list'

theorem DlinkOp.length_apply_le {n : ℕ} (hn : ∀ list, (q.nodes list).length ≤ n) (list : ι) :
    ((op.apply q).nodes list).length ≤ n + 1 := by
  have hle := fun list => (hn list).trans (Nat.le_succ n)
  have herase (m : Addr) (i list : ι) :
      (Function.update q.nodes i ((q.nodes i).erase m) list).length ≤ n :=
    length_update_le hn (List.length_erase_le.trans (hn i)) list
  cases op with
  | add data m i =>
    apply length_update_le hle
    exact Nat.succ_le_succ (hn i)
  | addBefore b data m i =>
    apply length_update_le hle
    have hsame := congrArg List.length
      (List.takeWhile_append_dropWhile (p := fun a => some a ≠ b) (l := q.nodes i))
    rw [List.length_append] at hsame ⊢
    rw [List.length_cons]
    exact (Nat.succ_le_succ (hsame.le.trans (hn i)))
  | addTail data m i =>
    apply length_update_le hle
    rw [List.length_append]
    exact Nat.succ_le_succ (hn i)
  | delete m i => exact (herase m i list).trans (Nat.le_succ n)
  | findDelete data i =>
    rw [apply]
    cases (q.nodes i).find? fun a => q.data a = data with
    | none => exact hle list
    | some m => exact (herase m i list).trans (Nat.le_succ n)
  | move m oldlist newlist =>
    cases m with
    | none => exact hle list
    | some m =>
      cases oldlist with
      | none => exact hle list
      | some old =>
        cases newlist with
        | none => exact hle list
        | some new =>
          apply length_update_le fun list => (herase m old list).trans (Nat.le_succ n)
          exact Nat.succ_le_succ (herase m old new)

/-- After any run of operations on lists that start empty, every list describes the sequence to
which the same operations lead. -/
theorem describes_of_run (hempty : ∀ list, s.head list = none ∧ s.tail list = none ∧
      s.length list = 0) {ops : List (DlinkOp ι)}
    (h : Exec DlinkOp.Step ⟨fun _ => [], s.data⟩ ops q) :
    ∃ t, (∀ fuel, ops.length < fuel → ops.foldlM (fun s op => op.exec fuel s) s = some t) ∧
      ∀ list, t.Describes list (q.nodes list) := by
  have hrun : ∃ t, (∀ fuel, ops.length < fuel →
      ops.foldlM (fun s op => op.exec fuel s) s = some t) ∧
        t.Shape (fun _ => True) q.nodes ∧ t.data = q.data ∧
        ∀ list, (q.nodes list).length ≤ ops.length := by
    induction h with
    | nil =>
      refine ⟨s, fun _ _ => rfl, ⟨fun _ => trivial, fun list _ => (hempty list).1,
        fun list _ => (hempty list).2.1, fun list _ => (hempty list).2.2, fun _ _ => rfl,
        fun _ => List.nodup_nil, fun _ _ _ => List.disjoint_nil_left _⟩, rfl, fun _ => le_rfl⟩
    | @snoc q q' ops op _ hstep ih =>
      obtain ⟨t, hexec, hshape, hdata, hlen⟩ := ih
      obtain ⟨ha, rfl⟩ := hstep
      obtain ⟨t', hop, hshape', hdata'⟩ := DlinkOp.exec_refines hshape hdata ha
      refine ⟨t', fun fuel hfuel => ?_, hshape', hdata', fun list => ?_⟩
      · rw [List.length_append, List.length_singleton] at hfuel
        have hlast := hop fuel fun list => (hlen list).trans_lt (by omega)
        rw [List.foldlM_append, hexec fuel (by omega)]
        simpa using hlast
      · rw [List.length_append, List.length_singleton]
        exact DlinkOp.length_apply_le hlen list
  obtain ⟨t, hexec, hshape, -⟩ := hrun
  exact ⟨t, hexec, fun list => hshape.describes trivial⟩

end Refinement

section Two

/-- Two empty lists. -/
def twoLists : DlinkMem Bool :=
  ⟨fun _ => none, fun _ => none, fun _ => none, fun _ => none, fun _ => none, fun _ => 0⟩

def twoListOps : List (DlinkOp Bool) :=
  [.add none 8 true, .addTail none 16 true, .addBefore (some 16) none 24 true,
    .move (some 8) (some true) (some false)]

theorem describes_of_run_two : ∃ t,
    (∀ fuel, 4 < fuel → twoListOps.foldlM (fun s op => op.exec fuel s) twoLists = some t) ∧
      ∀ list, t.Describes list (if list then [24, 16] else [8]) := by
  obtain ⟨t, hexec, hdesc⟩ := describes_of_run (fun _ => ⟨rfl, rfl, rfl⟩)
    (((((Exec.nil (⟨fun _ => [], twoLists.data⟩ : Sequences Bool)).snoc
      (a := .add none 8 true) ⟨fun _ => List.not_mem_nil, rfl⟩).snoc
      (a := .addTail none 16 true) ⟨by simp [DlinkOp.Allowed, DlinkOp.apply], rfl⟩).snoc
      (a := .addBefore (some 16) none 24 true) ⟨by simp [DlinkOp.Allowed, DlinkOp.apply], rfl⟩).snoc
      (a := .move (some 8) (some true) (some false))
        ⟨by simp [DlinkOp.Allowed, DlinkOp.apply], rfl⟩)
  refine ⟨t, hexec, fun list => ?_⟩
  cases list with
  | true => exact hdesc true
  | false => exact hdesc false

end Two

end JailFs
