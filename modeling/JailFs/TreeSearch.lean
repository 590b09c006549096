import JailFs.TreeDelete

/-!
# `tree_search` and the pointers of a tree

A search that prunes one side at each node misses no node that compares equal to the key, also
where equal data stands on both sides of a node, because the order of the whole tree is sorted.
-/

namespace JailFs

open LinkedTree RedBlack Comparator

variable {α : Type} {cmpfunc : α → α → ℤ} {s : TreeMem α} {key : α} {c : Ctx Addr (Item α)}
  {t : DataTree α} {loose : List Addr}

/-- A node found by a search, or the proof that there is none. -/
def Found (cmpfunc : α → α → ℤ) (s : TreeMem α) (key : α) (t : DataTree α) :
    Option Addr → Prop
  | some node => ∃ cell x, s.heap node = some cell ∧ cell.val.data = some x ∧ x ∈ inorder t ∧
      cmpfunc key x = 0
  | none => ∀ x ∈ inorder t, cmpfunc key x ≠ 0

theorem searchFrom (hcmp : IsPreorder cmpfunc) (hrep : Rep Item.stored s.heap none (plug c t))
    (hsorted : Sorted cmpfunc (inorder (plug c t)))
    (hctx : ∀ x ∈ inorder (plug c t), x ∉ inorder t → cmpfunc key x ≠ 0) :
    ∃ res, (Program.loop (searchBody cmpfunc s key) t.top).Returns res ∧
      Found cmpfunc s key (plug c t) res := by
  induction t generalizing c with
  | nil =>
    exact ⟨none, Program.loop_ends rfl, fun x hx => hctx x hx (by simp [inorder, Tree.entries])⟩
  | node l a b r ihl ihr =>
    have hcell : s.heap a = some ⟨l.top, r.top, above c, b.stored⟩ := (rep_plug.mp hrep).1.1
    have hsub := sorted_of_plug hsorted
    rw [inorder_node] at hsub
    rcases lt_trichotomy (cmpfunc key b.data) 0 with hlt | heq | hgt
    · obtain ⟨res, hret, hres⟩ := ihl (c := ⟨.left, a, b, r⟩ :: c) hrep hsorted fun x hx hxl => by
        by_cases hxt : x ∈ inorder (.node l a b r)
        · rw [inorder_node, List.mem_append] at hxt
          exact hsub.ne_of_lt hcmp hlt (hxt.resolve_left hxl)
        · exact hctx x hx hxt
      refine ⟨res, Program.loop_goes_on ?_ hret, hres⟩
      simp [searchBody, Tree.top, hcell, Item.stored, hlt, hlt.ne]
    · refine ⟨some a, Program.loop_ends ?_, _, b.data, hcell, rfl, ?_, heq⟩
      · simp [searchBody, Tree.top, hcell, Item.stored, heq]
      · rw [inorder_plug, inorder_node]
        simp
    · obtain ⟨res, hret, hres⟩ := ihr (c := ⟨.right, a, b, l⟩ :: c) hrep hsorted fun x hx hxr => by
        by_cases hxt : x ∈ inorder (.node l a b r)
        · rw [inorder_node] at hxt
          refine hsub.ne_of_gt hcmp hgt ?_
          simp only [List.mem_append, List.mem_cons, List.not_mem_nil, or_false] at hxt ⊢
          tauto
        · exact hctx x hx hxt
      refine ⟨res, Program.loop_goes_on ?_ hret, hres⟩
      simp [searchBody, Tree.top, hcell, Item.stored, hgt.ne', not_lt_of_gt hgt]

/-- A search comes to its end at a node that compares equal to the key, if there is one. -/
theorem TreeMem.Shows.treeSearch (hcmp : IsPreorder cmpfunc) (hs : s.Shows t loose)
    (hsorted : Sorted cmpfunc (inorder t)) :
    ∃ res, (JailFs.treeSearch cmpfunc s key).Returns res ∧ Found cmpfunc s key t res := by
  rw [JailFs.treeSearch, hs.root]
  exact searchFrom (c := []) hcmp hs.rep hsorted fun x hx hx' => absurd hx hx'

/-- The parent pointers match the child pointers above them, and the root pointer matches the node
without a parent. -/
structure TreeMem.LinksAgree (s : TreeMem α) : Prop where
  child : ∀ p cell d q, s.heap p = some cell → cell.child d = some q →
    ∃ cell', s.heap q = some cell' ∧ cell'.parent = some p
  parent : ∀ q cell p, s.heap q = some cell → cell.parent = some p →
    ∃ cell' d, s.heap p = some cell' ∧ cell'.child d = some q
  root : ∀ q cell, s.heap q = some cell → (cell.parent = none ↔ s.root = some q)

theorem rep_top {h : Heap Addr (NodeData α)} {p : Option Addr} {q : Addr}
    (hr : Rep Item.stored h p t) (hq : t.top = some q) :
    ∃ cell, h q = some cell ∧ cell.parent = p := by
  cases t with
  | nil => cases hq
  | node l a b r =>
    cases hq
    exact ⟨_, hr.1, rfl⟩

theorem TreeMem.Shows.focus (hs : s.Shows t []) {p : Addr} {cell : TreeNode α}
    (hp : s.heap p = some cell) : ∃ c l b r, t = plug c (.node l p b r) ∧
      cell = ⟨l.top, r.top, above c, b.stored⟩ := by
  have hmem : p ∈ t.addrs := by
    have h := (hs.nodes p).mp (by rw [hp]; rfl)
    simpa using h
  obtain ⟨c, l, b, r, rfl⟩ := exists_plug hmem
  exact ⟨c, l, b, r, rfl, Option.some.inj (hp.symm.trans (hs.heap_at (d := .left)))⟩

theorem TreeMem.Shows.linksAgree (hs : s.Shows t []) : s.LinksAgree := by
  constructor
  · intro p cell d q hp hq
    obtain ⟨c, l, b, r, rfl, rfl⟩ := hs.focus hp
    obtain ⟨⟨-, hl, hr⟩, -⟩ := rep_plug.mp hs.rep
    cases d with
    | left => exact rep_top hl hq
    | right => exact rep_top hr hq
  · intro q cell p hq hp
    obtain ⟨c, l, b, r, rfl, rfl⟩ := hs.focus hq
    cases c with
    | nil => cases hp
    | cons g c =>
      cases hp
      exact ⟨_, g.side, (rep_plug.mp hs.rep).2.1, Cell.child_sided⟩
  · intro q cell hq
    obtain ⟨c, l, b, r, rfl, rfl⟩ := hs.focus hq
    cases c with
    | nil => exact iff_of_true rfl hs.root
    | cons g c =>
      refine iff_of_false (fun h => by cases h) fun h => ?_
      rw [hs.root] at h
      have hnd := nodup_plug.mp hs.nodup
      exact hnd.2.2 (by simp) (mem_ctxAddrs_of_top (List.cons_ne_nil g c) h)

end JailFs
