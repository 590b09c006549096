import JailFs.TreeDelete

/-!
# The red-black operations of `tree.c`

`rb_insert` and `rb_delete` are `tree_insert` and `pull_out` followed by a loop that restores the
colours. One turn of a loop is a step that may fault. Both branches of a turn are the same with left
and right exchanged, so the side of the node is a parameter of `rbInsertSide` and `rbDeleteSide`.
-/

namespace JailFs

open LinkedTree RedBlack

section Source

variable {α : Type}

/-- `NULL` is black. -/
def rbColor (s : TreeMem α) : Option Addr → Option Color
  | none => some .black
  | some node => (s.heap node).map fun cell => cell.val.color

def rbInsertSide (d : Side) (s : TreeMem α) (current parent grandparent : Addr) :
    Option (TreeMem α × Addr) := do
  let g ← s.heap grandparent
  let color ← rbColor s (g.child d.other)
  if color = .red then
    let uncle ← g.child d.other
    let s ← s.setColor parent .black
    let s ← s.setColor uncle .black
    let s ← s.setColor grandparent .red
    some (s, grandparent)
  else
    let p ← s.heap parent
    if p.child d.other = some current then
      let s ← rotate d s parent
      some (s, parent)
    else
      let s ← s.setColor parent .black
      let s ← s.setColor grandparent .red
      let s ← rotate d.other s grandparent
      some (s, current)

/-- One turn of the loop of `rb_insert`. -/
def rbInsertBody : TreeMem α × Addr → Option (TreeMem α ⊕ (TreeMem α × Addr))
  | (s, current) =>
    if s.root = some current then some (.inl s)
    else do
      let cell ← s.heap current
      let color ← rbColor s cell.parent
      if color ≠ .red then some (.inl s)
      else do
        let parent ← cell.parent
        let p ← s.heap parent
        let grandparent ← p.parent
        let g ← s.heap grandparent
        let d : Side := if g.left = some parent then .left else .right
        let next ← rbInsertSide d s current parent grandparent
        some (.inr next)

def rbInsert (cmpfunc : α → α → ℤ) (s : TreeMem α) (m : Addr) (x : α) : Program (TreeMem α) := do
  let s ← treeInsert cmpfunc s m x
  let s ← s.setColor m .red
  let s ← Program.loop rbInsertBody (s, m)
  let root ← s.root
  s.setColor root .black

/-- The four cases of `rb_delete_fixup`, once the sibling is not red. -/
def rbDeleteCases (d : Side) (s : TreeMem α) (parent : Addr) (node : Option Addr) :
    Option (TreeMem α × Option Addr × Option Addr) := do
  let p ← s.heap parent
  let sibling ← p.child d.other
  let sib ← s.heap sibling
  let near ← rbColor s (sib.child d)
  let far ← rbColor s (sib.child d.other)
  if near = .black ∧ far = .black then
    let s ← s.setColor sibling .red
    some (s, p.parent, some parent)
  else if far = .black then
    let nephew ← sib.child d
    let s ← s.setColor nephew .red
    let s ← rotate d.other s sibling
    some (s, some parent, node)
  else
    let nephew ← sib.child d.other
    let s ← s.setColor sibling p.val.color
    let s ← s.setColor parent .black
    let s ← s.setColor nephew .black
    let s ← rotate d s parent
    some (s, none, s.root)

def rbDeleteSide (d : Side) (s : TreeMem α) (parent : Addr) (node : Option Addr) :
    Option (TreeMem α × Option Addr × Option Addr) := do
  let p ← s.heap parent
  let color ← rbColor s (p.child d.other)
  if color = .red then
    let sibling ← p.child d.other
    let s ← s.setColor sibling .black
    let s ← s.setColor parent .red
    let s ← rotate d s parent
    rbDeleteCases d s parent node
  else rbDeleteCases d s parent node

/-- One turn of the loop of `rb_delete_fixup`, on the memory, `parent` and `node`. -/
def rbDeleteBody : TreeMem α × Option Addr × Option Addr →
    Option ((TreeMem α × Option Addr) ⊕ (TreeMem α × Option Addr × Option Addr))
  | (s, parent, node) =>
    if node = s.root then some (.inl (s, node))
    else do
      let color ← rbColor s node
      if color ≠ .black then some (.inl (s, node))
      else do
        let parent ← parent
        let p ← s.heap parent
        let d : Side := if p.left = node then .left else .right
        let next ← rbDeleteSide d s parent node
        some (.inr next)

def rbDeleteFixup (s : TreeMem α) (parent node : Option Addr) : Program (TreeMem α) := do
  let (s, node) ← Program.loop rbDeleteBody (s, parent, node)
  match node with
  | none => pure s
  | some node => s.setColor node .black

def rbDelete (s : TreeMem α) (node : Addr) : Program (TreeMem α) := do
  let (s, current) ← pullOut s node
  let cell ← s.heap current
  let next := if cell.left ≠ none then cell.left else cell.right
  if cell.val.color = .black then
    let s ← rbDeleteFixup s cell.parent next
    release s current
  else release s current

end Source

end JailFs
