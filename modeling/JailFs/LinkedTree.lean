import Mathlib.Data.List.Nodup
import Mathlib.Logic.Function.Basic

/-!
# Binary trees in linked memory

A heap holds cells with pointers to two children and to the parent, and a value. `Rep emb h p t`
says that the heap holds the tree `t` below the parent `p`; a value of the tree is stored as its
image under `emb`. A context is the path from a subtree up to the root, `plug` puts a subtree back,
and `RepCtx` is what the heap holds of a context. Left and right are a parameter of every rule.
-/

universe u v w

namespace LinkedTree

inductive Side
  | left
  | right
  deriving DecidableEq

def Side.other : Side → Side
  | left => right
  | right => left

@[simp] theorem Side.other_other (d : Side) : d.other.other = d := by cases d <;> rfl

theorem Side.eq_or_eq_other (d e : Side) : e = d ∨ e = d.other := by
  cases d <;> cases e <;> simp [Side.other]

/-- A binary tree whose nodes have an address and a value. -/
inductive Tree (P : Type u) (β : Type v)
  | nil
  | node (l : Tree P β) (a : P) (b : β) (r : Tree P β)

structure Cell (P : Type u) (γ : Type w) where
  left : Option P
  right : Option P
  parent : Option P
  val : γ

abbrev Heap (P : Type u) (γ : Type w) := P → Option (Cell P γ)

namespace Cell

variable {P : Type u} {γ : Type w}

def child (c : Cell P γ) : Side → Option P
  | .left => c.left
  | .right => c.right

def setChild (c : Cell P γ) (d : Side) (p : Option P) : Cell P γ :=
  match d with
  | .left => { c with left := p }
  | .right => { c with right := p }

def setParent (c : Cell P γ) (p : Option P) : Cell P γ := { c with parent := p }

/-- The cell with the child `x` on the side `d` and `y` on the other one. -/
def sided (d : Side) (x y p : Option P) (v : γ) : Cell P γ :=
  match d with
  | .left => ⟨x, y, p, v⟩
  | .right => ⟨y, x, p, v⟩

variable {d : Side} {x y z p q : Option P} {v : γ}

@[simp] theorem child_sided : (sided d x y p v).child d = x := by cases d <;> rfl

@[simp] theorem child_other_sided : (sided d x y p v).child d.other = y := by cases d <;> rfl

@[simp] theorem parent_sided : (sided d x y p v).parent = p := by cases d <;> rfl

@[simp] theorem val_sided : (sided d x y p v).val = v := by cases d <;> rfl

@[simp] theorem setChild_sided : (sided d x y p v).setChild d z = sided d z y p v := by
  cases d <;> rfl

@[simp] theorem setChild_other_sided :
    (sided d x y p v).setChild d.other z = sided d x z p v := by
  cases d <;> rfl

@[simp] theorem setParent_sided : (sided d x y p v).setParent q = sided d x y q v := by
  cases d <;> rfl

theorem sided_other : sided d.other x y p v = sided d y x p v := by cases d <;> rfl

/-- The comparison with the left child tells on which side a child is. -/
theorem side_eq [DecidableEq P] (hy : y ≠ x) :
    (if (sided d x y p v).left = x then Side.left else Side.right) = d := by
  cases d with
  | left => simp [sided]
  | right => simp [sided, hy]

end Cell

namespace Tree

variable {P : Type u} {β : Type v}

def top : Tree P β → Option P
  | nil => none
  | node _ a _ _ => some a

/-- The nodes in order. -/
def entries : Tree P β → List (P × β)
  | nil => []
  | node l a b r => l.entries ++ (a, b) :: r.entries

def addrs (t : Tree P β) : List P := t.entries.map Prod.fst

/-- The node with the subtree `t` on the side `d` and `u` on the other one. -/
def sided (d : Side) (t : Tree P β) (a : P) (b : β) (u : Tree P β) : Tree P β :=
  match d with
  | .left => node t a b u
  | .right => node u a b t

/-- The subtree on a side. -/
def child : Tree P β → Side → Tree P β
  | nil, _ => nil
  | node l _ _ _, .left => l
  | node _ _ _ r, .right => r

variable {d : Side} {t u l r : Tree P β} {a x : P} {b : β}

@[simp] theorem child_sided : (sided d t a b u).child d = t := by cases d <;> rfl

@[simp] theorem child_other_sided : (sided d t a b u).child d.other = u := by cases d <;> rfl

theorem sided_other : sided d.other t a b u = sided d u a b t := by cases d <;> rfl

@[simp] theorem top_sided : (sided d t a b u).top = some a := by cases d <;> rfl

@[simp] theorem addrs_nil : (nil : Tree P β).addrs = [] := rfl

@[simp] theorem addrs_node : (node l a b r).addrs = l.addrs ++ a :: r.addrs := by
  simp only [addrs, entries, List.map_append, List.map_cons]

@[simp] theorem mem_addrs_sided :
    x ∈ (sided d t a b u).addrs ↔ x = a ∨ x ∈ t.addrs ∨ x ∈ u.addrs := by
  cases d <;> simp only [sided, addrs_node, List.mem_append, List.mem_cons] <;> tauto

theorem mem_addrs_of_top (h : t.top = some x) : x ∈ t.addrs := by
  cases t with
  | nil => cases h
  | node l a b r =>
    cases h
    simp

theorem nodup_sided : (sided d t a b u).addrs.Nodup ↔
    a ∉ t.addrs ∧ a ∉ u.addrs ∧ t.addrs.Nodup ∧ u.addrs.Nodup ∧ t.addrs.Disjoint u.addrs := by
  have hcomm : t.addrs.Disjoint u.addrs ↔ u.addrs.Disjoint t.addrs := List.disjoint_comm
  cases d <;>
    simp only [sided, addrs_node, List.nodup_append', List.nodup_cons, List.disjoint_cons_right] <;>
    tauto

/-- Every tree that is not empty is a node, seen from either side. -/
theorem exists_sided (d : Side) (h : t ≠ nil) : ∃ t' a b u, t = sided d t' a b u := by
  cases t with
  | nil => exact absurd rfl h
  | node l a b r =>
    cases d with
    | left => exact ⟨l, a, b, r, rfl⟩
    | right => exact ⟨r, a, b, l, rfl⟩

/-- A rotation keeps the order. -/
theorem entries_rotate {v : Tree P β} {y : P} {b' : β} :
    (sided d (sided d t x b u) y b' v).entries = (sided d t x b (sided d u y b' v)).entries := by
  cases d <;> simp [sided, entries]

theorem top_eq_none_iff : t.top = none ↔ t = nil := by
  cases t with
  | nil => exact iff_of_true rfl rfl
  | node l a b r => exact iff_of_false (fun h => by cases h) (fun h => by cases h)

end Tree

/-- One step of the path upwards: the node, the side that the path comes from, the other subtree. -/
structure Frame (P : Type u) (β : Type v) where
  side : Side
  addr : P
  val : β
  sibling : Tree P β

/-- The path from a subtree to the root, the parent first. -/
abbrev Ctx (P : Type u) (β : Type v) := List (Frame P β)

section Ctx

variable {P : Type u} {β : Type v} {c : Ctx P β} {f : Frame P β} {t u : Tree P β} {x : P}

def Frame.fill (f : Frame P β) (t : Tree P β) : Tree P β := .sided f.side t f.addr f.val f.sibling

def plug : Ctx P β → Tree P β → Tree P β
  | [], t => t
  | f :: c, t => plug c (f.fill t)

def above : Ctx P β → Option P
  | [] => none
  | f :: _ => some f.addr

/-- The nodes that come before the subtree. -/
def before : Ctx P β → List (P × β)
  | [] => []
  | f :: c => before c ++ (match f.side with
      | .left => []
      | .right => f.sibling.entries ++ [(f.addr, f.val)])

/-- The nodes that come after the subtree. -/
def after : Ctx P β → List (P × β)
  | [] => []
  | f :: c => (match f.side with
      | .left => (f.addr, f.val) :: f.sibling.entries
      | .right => []) ++ after c

def ctxAddrs : Ctx P β → List P
  | [] => []
  | f :: c => f.addr :: (f.sibling.addrs ++ ctxAddrs c)

@[simp] theorem plug_nil : plug [] t = t := rfl

theorem plug_cons : plug (f :: c) t = plug c (.sided f.side t f.addr f.val f.sibling) := rfl

/-- The subtree on the other side in the hole. -/
theorem plug_sibling {d : Side} {a : P} {b : β} :
    plug (⟨d.other, a, b, t⟩ :: c) u = plug c (.sided d t a b u) := by
  rw [plug_cons, Tree.sided_other]

theorem plug_append {c' : Ctx P β} : plug (c ++ c') t = plug c' (plug c t) := by
  induction c generalizing t with
  | nil => rfl
  | cons f c ih => exact ih

theorem before_append {c' : Ctx P β} : before (c ++ c') = before c' ++ before c := by
  induction c with
  | nil => exact (List.append_nil _).symm
  | cons f c ih => simp only [List.cons_append, before, ih, List.append_assoc]

theorem after_append {c' : Ctx P β} : after (c ++ c') = after c ++ after c' := by
  induction c with
  | nil => rfl
  | cons f c ih => simp only [List.cons_append, after, ih, List.append_assoc]

theorem entries_plug : (plug c t).entries = before c ++ t.entries ++ after c := by
  induction c generalizing t with
  | nil => simp [plug, before, after]
  | cons f c ih =>
    rw [plug, ih]
    cases hf : f.side <;> simp [Frame.fill, Tree.sided, Tree.entries, before, after, hf]

@[simp] theorem mem_addrs_plug : x ∈ (plug c t).addrs ↔ x ∈ t.addrs ∨ x ∈ ctxAddrs c := by
  induction c generalizing t with
  | nil => simp [plug, ctxAddrs]
  | cons f c ih =>
    rw [plug, ih, Frame.fill, Tree.mem_addrs_sided, ctxAddrs, List.mem_cons, List.mem_append]
    tauto

theorem entries_plug_congr (h : t.entries = u.entries) :
    (plug c t).entries = (plug c u).entries := by
  rw [entries_plug, entries_plug, h]

theorem top_plug_congr (hc : c ≠ []) : (plug c t).top = (plug c u).top := by
  induction c generalizing t u with
  | nil => exact absurd rfl hc
  | cons g c ih =>
    rw [plug, plug]
    by_cases hc' : c = []
    · subst hc'
      rw [plug_nil, plug_nil, Frame.fill, Frame.fill, Tree.top_sided, Tree.top_sided]
    · exact ih hc'

/-- The root above a subtree is a node of the context. -/
theorem mem_ctxAddrs_of_top (hc : c ≠ []) (h : (plug c t).top = some x) : x ∈ ctxAddrs c := by
  induction c generalizing t with
  | nil => exact absurd rfl hc
  | cons f c ih =>
    rw [ctxAddrs, List.mem_cons, List.mem_append]
    by_cases hc' : c = []
    · subst hc'
      rw [plug_cons, plug_nil, Tree.top_sided] at h
      exact .inl (Option.some.inj h).symm
    · exact .inr (.inr (ih hc' h))

theorem nodup_plug : (plug c t).addrs.Nodup ↔
    t.addrs.Nodup ∧ (ctxAddrs c).Nodup ∧ t.addrs.Disjoint (ctxAddrs c) := by
  induction c generalizing t with
  | nil => simp [plug, ctxAddrs]
  | cons f c ih =>
    rw [plug, ih, Frame.fill, Tree.nodup_sided, ctxAddrs, List.nodup_cons, List.nodup_append',
      List.disjoint_cons_right, List.disjoint_append_right]
    have hmem : (f.fill t).addrs.Disjoint (ctxAddrs c) ↔ f.addr ∉ ctxAddrs c ∧
        t.addrs.Disjoint (ctxAddrs c) ∧ f.sibling.addrs.Disjoint (ctxAddrs c) := by
      simp only [List.disjoint_left, Frame.fill, Tree.mem_addrs_sided]
      constructor
      · exact fun h => ⟨fun h' => h (.inl rfl) h', fun _ hx => h (.inr (.inl hx)),
          fun _ hx => h (.inr (.inr hx))⟩
      · rintro ⟨h₁, h₂, h₃⟩ x (rfl | hx | hx)
        · exact h₁
        · exact h₂ hx
        · exact h₃ hx
    rw [← Frame.fill, hmem, List.mem_append]
    tauto

theorem mem_ctxAddrs_of_above (h : above c = some x) : x ∈ ctxAddrs c := by
  cases c with
  | nil => cases h
  | cons f c =>
    cases h
    exact List.mem_cons_self

/-- Every node of a tree is the root of a subtree in some context. -/
theorem exists_plug (hx : x ∈ t.addrs) : ∃ c l b r, t = plug c (.node l x b r) := by
  induction t with
  | nil => simp at hx
  | node l a b r ihl ihr =>
    rw [Tree.addrs_node, List.mem_append, List.mem_cons] at hx
    rcases hx with hx | rfl | hx
    · obtain ⟨c, l', b', r', rfl⟩ := ihl hx
      exact ⟨c ++ [⟨.left, a, b, r⟩], l', b', r', by rw [plug_append]; rfl⟩
    · exact ⟨[], l, b, r, rfl⟩
    · obtain ⟨c, l', b', r', rfl⟩ := ihr hx
      exact ⟨c ++ [⟨.right, a, b, l⟩], l', b', r', by rw [plug_append]; rfl⟩

theorem exists_plug_sided (d : Side) (hx : x ∈ t.addrs) :
    ∃ c A b B, t = plug c (.sided d A x b B) := by
  obtain ⟨c, l, b, r, h⟩ := exists_plug hx
  cases d with
  | left => exact ⟨c, l, b, r, h⟩
  | right => exact ⟨c, r, b, l, h⟩

end Ctx

section Rep

variable {P : Type u} {β : Type v} {γ : Type w} {emb : β → γ}

/-- The heap holds the tree, and its top has the parent `p`. -/
def Rep (emb : β → γ) (h : Heap P γ) : Option P → Tree P β → Prop
  | _, .nil => True
  | p, .node l a b r => h a = some ⟨l.top, r.top, p, emb b⟩ ∧ Rep emb h (some a) l ∧
      Rep emb h (some a) r

/-- The heap holds the context, and its hole is filled with the pointer `x`. -/
def RepCtx (emb : β → γ) (h : Heap P γ) : Ctx P β → Option P → Prop
  | [], _ => True
  | f :: c, x => h f.addr = some (.sided f.side x f.sibling.top (above c) (emb f.val)) ∧
      Rep emb h (some f.addr) f.sibling ∧ RepCtx emb h c (some f.addr)

variable {h h' : Heap P γ} {p q : Option P} {t u : Tree P β} {c : Ctx P β} {x y : Option P}
  {a : P} {b : β} {d : Side}

theorem rep_sided : Rep emb h p (.sided d t a b u) ↔
    h a = some (.sided d t.top u.top p (emb b)) ∧ Rep emb h (some a) t ∧ Rep emb h (some a) u := by
  cases d
  · exact Iff.rfl
  · exact and_congr_right fun _ => and_comm

theorem rep_plug : Rep emb h none (plug c t) ↔ Rep emb h (above c) t ∧ RepCtx emb h c t.top := by
  induction c generalizing t with
  | nil => simp [plug, above, RepCtx]
  | cons f c ih =>
    rw [plug, ih, Frame.fill, rep_sided, Tree.top_sided, RepCtx, above]
    tauto

theorem Rep.congr (hr : Rep emb h p t) (hsame : ∀ a ∈ t.addrs, h' a = h a) :
    Rep emb h' p t := by
  induction t generalizing p with
  | nil => trivial
  | node l a b r ihl ihr =>
    simp only [Tree.addrs_node, List.mem_append, List.mem_cons] at hsame
    obtain ⟨ha, hl, hr⟩ := hr
    refine ⟨?_, ihl hl fun x hx => hsame x (.inl hx), ihr hr fun x hx => hsame x (.inr (.inr hx))⟩
    rw [hsame a (.inr (.inl rfl)), ha]

/-- A subtree is moved below another parent when the parent of its top is changed. -/
theorem Rep.reparent (hr : Rep emb h p t) (hnd : t.addrs.Nodup)
    (htop : ∀ a cell, t.top = some a → h a = some cell → h' a = some (cell.setParent q))
    (hsame : ∀ a ∈ t.addrs, t.top ≠ some a → h' a = h a) : Rep emb h' q t := by
  cases t with
  | nil => trivial
  | node l a b r =>
    obtain ⟨ha, hl, hr⟩ := hr
    obtain ⟨hal, har, -⟩ := (Tree.nodup_sided (d := .left)).mp hnd
    refine ⟨htop a _ rfl ha, hl.congr fun x hx => ?_, hr.congr fun x hx => ?_⟩
    · exact hsame x (by simp [hx]) fun hax => hal (Option.some.inj hax ▸ hx)
    · exact hsame x (by simp [hx]) fun hax => har (Option.some.inj hax ▸ hx)

theorem RepCtx.congr (hr : RepCtx emb h c x) (hsame : ∀ a ∈ ctxAddrs c, h' a = h a) :
    RepCtx emb h' c x := by
  induction c generalizing x with
  | nil => trivial
  | cons f c ih =>
    simp only [ctxAddrs, List.mem_cons, List.mem_append] at hsame
    obtain ⟨hf, hs, hc⟩ := hr
    refine ⟨?_, hs.congr fun a ha => hsame a (.inr (.inl ha)), ih hc fun a ha =>
      hsame a (.inr (.inr ha))⟩
    rw [hsame f.addr (.inl rfl), hf]

/-- The hole of a context is filled anew when the child pointer of the parent is changed. -/
theorem RepCtx.rehole (hr : RepCtx emb h c x) (hnd : (ctxAddrs c).Nodup)
    (habove : ∀ f c' cell, c = f :: c' → h f.addr = some cell →
      h' f.addr = some (cell.setChild f.side y))
    (hsame : ∀ a ∈ ctxAddrs c, above c ≠ some a → h' a = h a) : RepCtx emb h' c y := by
  cases c with
  | nil => trivial
  | cons f c =>
    obtain ⟨hf, hs, hc⟩ := hr
    rw [ctxAddrs, List.nodup_cons, List.mem_append] at hnd
    refine ⟨?_, hs.congr fun a ha => ?_, hc.congr fun a ha => ?_⟩
    · rw [habove f c _ rfl hf, Cell.setChild_sided]
    · exact hsame a (by simp [ctxAddrs, ha]) fun hfa =>
        hnd.1 (.inl (Option.some.inj hfa ▸ ha))
    · exact hsame a (by simp [ctxAddrs, ha]) fun hfa =>
        hnd.1 (.inr (Option.some.inj hfa ▸ ha))

theorem Rep.isSome (hr : Rep emb h p t) {a : P} (ha : a ∈ t.addrs) : (h a).isSome := by
  induction t generalizing p with
  | nil => simp at ha
  | node l a' b r ihl ihr =>
    rw [Tree.addrs_node, List.mem_append, List.mem_cons] at ha
    rcases ha with ha | rfl | ha
    · exact ihl hr.2.1 ha
    · rw [hr.1]
      rfl
    · exact ihr hr.2.2 ha

/-- The heap holds the value of every node. -/
theorem Rep.val_of_mem (hr : Rep emb h p t) (ha : (a, b) ∈ t.entries) :
    ∃ cell, h a = some cell ∧ cell.val = emb b := by
  induction t generalizing p with
  | nil => cases ha
  | node l a' b' r ihl ihr =>
    rw [Tree.entries, List.mem_append, List.mem_cons] at ha
    rcases ha with ha | ha | ha
    · exact ihl hr.2.1 ha
    · cases ha
      exact ⟨_, hr.1, rfl⟩
    · exact ihr hr.2.2 ha

end Rep

end LinkedTree
