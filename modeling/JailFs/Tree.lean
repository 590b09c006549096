import JailFs.Dict
import JailFs.Program
import JailFs.RedBlack

/-!
# The trees of `tree.c`

A `tree_node` is a cell with the two child pointers, the parent pointer, the copy of the data and
the colour; `data` is `NULL` once `pull_out` has taken it away. The memory is a partial function of
the address, so that a step which follows `NULL` or a freed node faults. The allocator's choice of
a node is an argument. Where the source repeats a branch with left and right exchanged, the side is
a parameter; `tr->cmpfunc` is the argument `cmpfunc`.
-/

namespace JailFs

open LinkedTree RedBlack

/-- What a node holds beside its pointers. -/
structure NodeData (α : Type) where
  data : Option α
  color : Color

abbrev TreeNode (α : Type) := Cell Addr (NodeData α)

structure TreeMem (α : Type) where
  heap : Heap Addr (NodeData α)
  root : Option Addr

namespace TreeMem

variable {α : Type}

def empty : TreeMem α := ⟨fun _ => none, none⟩

/-- An assignment to fields of the node `m`. -/
def write (s : TreeMem α) (m : Addr) (f : TreeNode α → TreeNode α) : Option (TreeMem α) :=
  (s.heap m).map fun cell => { s with heap := Function.update s.heap m (some (f cell)) }

/-- The same where `m` may be `NULL`, and then nothing is done. -/
def writeOpt (s : TreeMem α) (m : Option Addr) (f : TreeNode α → TreeNode α) :
    Option (TreeMem α) :=
  match m with
  | none => some s
  | some m => s.write m f

def setColor (s : TreeMem α) (m : Addr) (c : Color) : Option (TreeMem α) :=
  s.write m fun cell => { cell with val := { cell.val with color := c } }

def setData (s : TreeMem α) (m : Addr) (x : Option α) : Option (TreeMem α) :=
  s.write m fun cell => { cell with val := { cell.val with data := x } }

def free (s : TreeMem α) (m : Addr) : TreeMem α :=
  { s with heap := Function.update s.heap m none }

/-- `child`, a child of `parent` or the root, is replaced by `next`. -/
def relink (s : TreeMem α) (parent : Option Addr) (child : Addr) (next : Option Addr) :
    Option (TreeMem α) :=
  match parent with
  | none => some { s with root := next }
  | some p => do
    let cell ← s.heap p
    if cell.left = some child then s.write p (·.setChild .left next)
    else s.write p (·.setChild .right next)

end TreeMem

section Source

variable {α : Type}

/-- `mem_alloc` gives zeroed memory, and `RED` is zero. -/
def makeNode (s : TreeMem α) (m : Addr) (x : α) : TreeMem α :=
  { s with heap := Function.update s.heap m (some ⟨none, none, none, ⟨some x, .red⟩⟩) }

/-- One turn of the loop of `tree_insert`, on `parent` and `current`. -/
def treeInsertBody (cmpfunc : α → α → ℤ) (s : TreeMem α) (x : α) :
    Option Addr × Option Addr → Option (Option Addr ⊕ (Option Addr × Option Addr))
  | (parent, none) => some (.inl parent)
  | (_, some current) => do
    let cell ← s.heap current
    let y ← cell.val.data
    some (.inr (some current, if cmpfunc x y < 0 then cell.left else cell.right))

def treeInsert (cmpfunc : α → α → ℤ) (s : TreeMem α) (m : Addr) (x : α) : Program (TreeMem α) := do
  let s := makeNode s m x
  let parent ← Program.loop (treeInsertBody cmpfunc s x) (none, s.root)
  let s ← s.write m (·.setParent parent)
  match parent with
  | none => pure { s with root := some m }
  | some p =>
    let cell ← s.heap p
    let y ← cell.val.data
    if cmpfunc x y < 0 then s.write p (·.setChild .left (some m))
    else s.write p (·.setChild .right (some m))

def treeMinimum (s : TreeMem α) (node : Addr) : Program Addr :=
  Program.loop (fun node => do
    let cell ← s.heap node
    match cell.left with
    | none => some (.inl node)
    | some next => some (.inr next)) node

/-- One turn of the loop of `tree_successor`, on `node` and `next`. -/
def treeSuccessorBody (s : TreeMem α) :
    Addr × Option Addr → Option (Option Addr ⊕ (Addr × Option Addr))
  | (_, none) => some (.inl none)
  | (node, some next) => do
    let cell ← s.heap next
    if cell.right = some node then some (.inr (next, cell.parent)) else some (.inl (some next))

def treeSuccessor (s : TreeMem α) (node : Addr) : Program (Option Addr) := do
  let cell ← s.heap node
  match cell.right with
  | some right => do
    let next ← treeMinimum s right
    pure (some next)
  | none => Program.loop (treeSuccessorBody s) (node, cell.parent)

/-- The node that leaves the tree for the data of `node`. -/
def spliced (s : TreeMem α) (node : Addr) : Program (Option Addr) := do
  let cell ← s.heap node
  if cell.left = none ∨ cell.right = none then pure (some node) else treeSuccessor s node

/-- `node->data = current->data`, unless they are the same node. -/
def takeData (s : TreeMem α) (node current : Addr) (x : Option α) : Option (TreeMem α) :=
  if node ≠ current then s.setData node x else some s

/-- `current`, which has at most one child, is taken out of the tree, and its data goes to
`node`. -/
def pullOutAt (s : TreeMem α) (node current : Addr) : Option (TreeMem α) := do
  let cell ← s.heap current
  let next := if cell.left ≠ none then cell.left else cell.right
  let s ← s.writeOpt next (·.setParent cell.parent)
  let s ← s.relink cell.parent current next
  let target ← s.heap node
  -- `mem_free` does not take `NULL`
  let _ ← target.val.data
  let s ← takeData s node current cell.val.data
  s.setData current none

def pullOut (s : TreeMem α) (node : Addr) : Program (TreeMem α × Addr) := do
  let current ← spliced s node
  let current ← current
  let s ← pullOutAt s node current
  pure (s, current)

/-- The end of `tree_delete` and of `rb_delete`. -/
def release (s : TreeMem α) (current : Addr) : Option (TreeMem α) := do
  let s ← s.write current fun cell => ⟨none, none, none, cell.val⟩
  some (s.free current)

def treeDelete (s : TreeMem α) (node : Addr) : Program (TreeMem α) := do
  let (s, current) ← pullOut s node
  release s current

/-- One call of `search_r`. -/
def searchBody (cmpfunc : α → α → ℤ) (s : TreeMem α) (key : α) :
    Option Addr → Option (Option Addr ⊕ Option Addr)
  | none => some (.inl none)
  | some node => do
    let cell ← s.heap node
    let y ← cell.val.data
    let res := cmpfunc key y
    if res = 0 then some (.inl (some node))
    else if res < 0 then some (.inr cell.left)
    else some (.inr cell.right)

def treeSearch (cmpfunc : α → α → ℤ) (s : TreeMem α) (key : α) : Program (Option Addr) :=
  Program.loop (searchBody cmpfunc s key) s.root

/-- `left_rotate` with `.left`, `right_rotate` with `.right`. -/
def rotate (d : Side) (s : TreeMem α) (node : Addr) : Option (TreeMem α) := do
  let cell ← s.heap node
  match cell.child d.other with
  | none => some s
  | some right =>
    let inner ← s.heap right
    let s ← s.write node (·.setChild d.other (inner.child d))
    let s ← s.writeOpt (inner.child d) (·.setParent (some node))
    let s ← s.write right (·.setParent cell.parent)
    let s ← s.relink cell.parent node (some right)
    let s ← s.write right (·.setChild d (some node))
    s.write node (·.setParent (some right))

def leftRotate (s : TreeMem α) (node : Addr) : Option (TreeMem α) := rotate .left s node

def rightRotate (s : TreeMem α) (node : Addr) : Option (TreeMem α) := rotate .right s node

end Source

end JailFs
