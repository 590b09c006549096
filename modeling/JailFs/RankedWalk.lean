import Mathlib.Data.List.Nodup
import Mathlib.Order.Nat
import Mathlib.Logic.Relation

/-!
# A bounded walk whose counter is shared by siblings

A walk of a tree is meant to stop at a nesting bound. Here the counter that is tested against the
bound is raised once for each child and handed on to the next one, so a child is entered with the
number of children before it added to its depth. The `rank` of a place is that counter and the
`nest` of a place its true depth; the walk visits the places of small rank
(`mem_rankedWalk_iff`), and visits those of small nesting exactly if every one of them also has a
small rank (`rankedWalk_nesting_iff`).
-/

universe u

namespace RankedWalk

/-- A node of the tree as the walk comes to it. -/
structure Place (α : Type u) where
  node : α
  nest : ℕ
  rank : ℕ

section Tree

variable {α : Type u} (children : α → List α)

inductive Child : Place α → Place α → Prop
  | mk {p : Place α} {before after : List α} {c : α}
      (h : children p.node = before ++ c :: after) :
      Child p ⟨c, p.nest + 1, p.rank + before.length + 1⟩

abbrev Reaches : Place α → Place α → Prop := Relation.ReflTransGen (Child children)

variable {children} {p q r : Place α}

theorem Child.mem (h : Child children p q) : q.node ∈ children p.node := by
  cases h with
  | mk h =>
    rw [h]
    exact List.mem_append_right _ List.mem_cons_self

theorem Child.nest_eq (h : Child children p q) : q.nest = p.nest + 1 := by
  cases h with
  | mk h => rfl

theorem Child.rank_lt (h : Child children p q) : p.rank < q.rank := by
  cases h with
  | mk h =>
    dsimp only
    omega

theorem Reaches.nest_le (h : Reaches children p q) (hp : p.nest ≤ p.rank) : q.nest ≤ q.rank := by
  induction h with
  | refl => exact hp
  | tail _ hstep ih =>
    rw [hstep.nest_eq]
    have hlt := hstep.rank_lt
    omega

theorem Reaches.rank_le (h : Reaches children p q) : p.rank ≤ q.rank := by
  induction h with
  | refl => exact le_rfl
  | tail _ hstep ih => exact ih.trans hstep.rank_lt.le

/-- In a tree without repeated nodes a node is reached in one way only. `size` excludes that the
root is found again below itself. -/
theorem Reaches.eq_of_node_eq (size : α → ℕ)
    (hsize : ∀ a c, c ∈ children a → size a < size c)
    (hparent : ∀ a b c, c ∈ children a → c ∈ children b → a = b)
    (hnodup : ∀ a, (children a).Nodup)
    (hp : Reaches children r p) (hq : Reaches children r q) (h : p.node = q.node) : p = q := by
  have hgrow {s t : Place α} (hst : Reaches children s t) : size s.node ≤ size t.node := by
    induction hst with
    | refl => exact le_rfl
    | tail _ hstep ih => exact ih.trans (hsize _ _ hstep.mem).le
  induction hp generalizing q with
  | refl =>
    rcases Relation.ReflTransGen.cases_tail hq with rfl | ⟨q', hq', hstep⟩
    · rfl
    · have hlt := hsize _ _ hstep.mem
      have hle := hgrow hq'
      rw [h] at hle
      omega
  | @tail p' p hp' hstep ih =>
    rcases Relation.ReflTransGen.cases_tail hq with rfl | ⟨q', hq', hstep'⟩
    · have hlt := hsize _ _ hstep.mem
      have hle := hgrow hp'
      rw [h] at hlt
      omega
    · have hmem := hstep.mem
      rw [h] at hmem
      obtain rfl : p' = q' := ih hq' (hparent _ _ _ hmem hstep'.mem)
      cases hstep with
      | @mk before after c h₁ =>
        cases hstep' with
        | @mk before' after' c' h₂ =>
          obtain rfl : c = c' := h
          have hnd := hnodup p'.node
          rw [h₁] at hnd
          have hc : c ∉ before ++ after := (List.nodup_cons.mp (List.nodup_middle.mp hnd)).1
          rw [List.mem_append, not_or] at hc
          obtain ⟨hbefore, -⟩ := (List.append_cons_inj_of_notMem hc.1 hc.2).mp (h₁.symm.trans h₂)
          rw [hbefore]

end Tree

section Walk

variable {α : Type u}

/-- One pass over the children still to come: each is visited if the counter it raises is still
below `limit`. -/
def walkFrom (limit : ℕ) (visit : α → ℕ → List α) : List α → ℕ → List α
  | [], _ => []
  | c :: rest, depth =>
    (if depth + 1 < limit then visit c (depth + 1) else []) ++
      walkFrom limit visit rest (depth + 1)

def rankedWalk (children : α → List α) (limit : ℕ) : ℕ → α → ℕ → List α
  | 0, _, _ => []
  | fuel + 1, a, depth =>
    a :: walkFrom limit (rankedWalk children limit fuel) (children a) depth

variable {children : α → List α} {limit fuel depth : ℕ} {visit : α → ℕ → List α} {a b : α}

theorem mem_walkFrom_iff {cs : List α} :
    b ∈ walkFrom limit visit cs depth ↔
      ∃ before c after, cs = before ++ c :: after ∧ depth + before.length + 1 < limit ∧
        b ∈ visit c (depth + before.length + 1) := by
  induction cs generalizing depth with
  | nil => simp [walkFrom]
  | cons c rest ih =>
    rw [walkFrom, List.mem_append, ih]
    constructor
    · rintro (h | ⟨before, c', after, hcs, hlt, hb⟩)
      · split_ifs at h with hlt
        · exact ⟨[], c, rest, rfl, hlt, h⟩
        · cases h
      · refine ⟨c :: before, c', after, by rw [hcs]; rfl, ?_, ?_⟩
        · rw [List.length_cons]
          omega
        · rwa [List.length_cons, show depth + (before.length + 1) + 1 =
            depth + 1 + before.length + 1 by omega]
    · rintro ⟨before, c', after, hcs, hlt, hb⟩
      cases before with
      | nil =>
        rw [List.nil_append, List.cons.injEq] at hcs
        rw [← hcs.1] at hb
        exact .inl (by rwa [if_pos (by simpa using hlt)])
      | cons c₀ before =>
        rw [List.cons_append, List.cons.injEq] at hcs
        rw [List.length_cons] at hlt hb
        refine .inr ⟨before, c', after, hcs.2, by omega, ?_⟩
        rwa [show depth + 1 + before.length + 1 = depth + (before.length + 1) + 1 by omega]

theorem mem_rankedWalk_iff (nest : ℕ) (hdepth : depth < limit) (hfuel : limit ≤ depth + fuel) :
    b ∈ rankedWalk children limit fuel a depth ↔
      ∃ p, Reaches children ⟨a, nest, depth⟩ p ∧ p.node = b ∧ p.rank < limit := by
  induction fuel generalizing a nest depth with
  | zero => omega
  | succ fuel ih =>
    rw [rankedWalk, List.mem_cons, mem_walkFrom_iff]
    constructor
    · rintro (rfl | ⟨before, c, after, hcs, hlt, hb⟩)
      · exact ⟨_, .refl, rfl, hdepth⟩
      · obtain ⟨p, hreach, hnode, hrank⟩ := (ih (nest + 1) hlt (by omega)).mp hb
        exact ⟨p, .head (.mk hcs) hreach, hnode, hrank⟩
    · rintro ⟨p, hreach, hnode, hrank⟩
      rcases Relation.ReflTransGen.cases_head_iff.mp hreach with rfl | ⟨q, hstep, hrest⟩
      · exact .inl hnode.symm
      · cases hstep with
        | @mk before after c hcs =>
          have hlt : depth + before.length + 1 < limit :=
            lt_of_le_of_lt (Reaches.rank_le hrest) hrank
          exact .inr ⟨before, c, after, hcs, hlt,
            (ih (nest + 1) hlt (by omega)).mpr ⟨p, hrest, hnode, hrank⟩⟩

/-- Among the nodes that count, the walk visits those of nesting below `limit` exactly if each of
them has a rank below `limit`. -/
theorem rankedWalk_nesting_iff {nest : ℕ} (keep : α → Prop) (hdepth : depth < limit)
    (hfuel : limit ≤ depth + fuel) (hnest : nest ≤ depth)
    (hunique : ∀ p q, Reaches children ⟨a, nest, depth⟩ p → Reaches children ⟨a, nest, depth⟩ q →
      p.node = q.node → p = q) :
    (∀ b, keep b → (b ∈ rankedWalk children limit fuel a depth ↔
        ∃ p, Reaches children ⟨a, nest, depth⟩ p ∧ p.node = b ∧ p.nest < limit)) ↔
      ∀ p, Reaches children ⟨a, nest, depth⟩ p → keep p.node → p.nest < limit →
        p.rank < limit := by
  constructor
  · intro h p hp hkeep hlt
    obtain ⟨q, hq, hnode, hrank⟩ :=
      (mem_rankedWalk_iff nest hdepth hfuel).mp ((h p.node hkeep).mpr ⟨p, hp, rfl, hlt⟩)
    rwa [hunique p q hp hq hnode.symm]
  · intro h b hkeep
    rw [mem_rankedWalk_iff nest hdepth hfuel]
    constructor
    · rintro ⟨p, hp, hnode, hrank⟩
      exact ⟨p, hp, hnode, lt_of_le_of_lt (hp.nest_le hnest) hrank⟩
    · rintro ⟨p, hp, rfl, hlt⟩
      exact ⟨p, hp, rfl, h p hp hkeep hlt⟩

end Walk

end RankedWalk
