import Mathlib.Data.Finset.Basic
import DemoCode.Lib.Loop
import DemoCode.Lib.Trees

/-! `AVL_tree.cpp`: a height-balanced tree of nodes. A null pointer is `none`; a function that
dereferences one has no result, and neither has one whose bound on passes and nested calls is too
small. -/

namespace DemoCode.AVLTree

open Trees

abbrev Addr := ℕ

/-- The `Node`s in memory, where `child` stands for the fields `l` and `r`, and the `root` of
`main`. -/
structure AvlTree where
  val : Addr → Int
  child : Side → Addr → Option Addr
  live : Finset Addr
  root : Option Addr

/-- Where `new` finds memory. -/
structure Allocator where
  pick : AvlTree → Addr
  pick_free : ∀ s, pick s ∉ s.live

/-- A `Node**`: the address of the `root` of `main`, or of a field of a node. -/
inductive Link where
  | main
  | field (side : Side) (a : Addr)
  deriving DecidableEq, Repr

namespace AvlTree

def empty : AvlTree where
  val _ := 0
  child _ _ := none
  live := ∅
  root := none

@[simps -fullyApplied]
def setChild (s : AvlTree) (side : Side) (a : Addr) (x : Option Addr) : AvlTree :=
  { s with child := fun side' b => if side' = side ∧ b = a then x else s.child side' b }

section

variable (s : AvlTree) {side side' : Side} {a b : Addr} (x : Option Addr)

theorem setChild_self : (s.setChild side a x).child side a = x := if_pos ⟨rfl, rfl⟩

theorem setChild_side (h : side' ≠ side) : (s.setChild side a x).child side' b = s.child side' b :=
  if_neg fun hBoth => h hBoth.1

theorem setChild_ne (h : b ≠ a) : (s.setChild side a x).child side' b = s.child side' b :=
  if_neg fun hBoth => h hBoth.2

end

@[simps -fullyApplied]
def setRoot (s : AvlTree) (x : Option Addr) : AvlTree := { s with root := x }

/-- `new Node(val)`. -/
@[simps -fullyApplied]
def new (s : AvlTree) (a : Addr) (val : Int) : AvlTree where
  val b := if b = a then val else s.val b
  child side b := if b = a then none else s.child side b
  live := insert a s.live
  root := s.root

@[simps -fullyApplied]
def delete (s : AvlTree) (a : Addr) : AvlTree := { s with live := s.live.erase a }

def load (s : AvlTree) : Link → Option Addr
  | .main => s.root
  | .field side a => s.child side a

def store (s : AvlTree) : Link → Option Addr → AvlTree
  | .main, x => s.setRoot x
  | .field side a, x => s.setChild side a x

/-- `GetHeight`.  The heights are `int`s in the source: memory has no path of 2^31 nodes. -/
def getHeight : ℕ → AvlTree → Option Addr → Option Int
  | 0, _, _ => none
  | _ + 1, _, none => some 0
  | fuel + 1, s, some root => do
    let lHeight ← getHeight fuel s (s.child .left root)
    let rHeight ← getHeight fuel s (s.child .right root)
    some (if lHeight > rHeight then lHeight + 1 else rHeight + 1)

/-! ### Rotations -/

/-- The node behind the link `root` changes places with its child on `side`; the link is returned as
it is set then. -/
def rotate (side : Side) (s : AvlTree) (root : Addr) : Option (AvlTree × Addr) := do
  let son ← s.child side root
  let s := s.setChild side root (s.child side.other son)
  let s := s.setChild side.other son (some root)
  some (s, son)

/-- First the child on `side`, through the link to it, then the node. -/
def rotate2 (side : Side) (s : AvlTree) (root : Addr) : Option (AvlTree × Addr) := do
  let son ← s.child side root
  let (s, son) ← s.rotate side.other son
  (s.setChild side root (some son)).rotate side root

def ll : AvlTree → Addr → Option (AvlTree × Addr) := rotate .left

def rr : AvlTree → Addr → Option (AvlTree × Addr) := rotate .right

def lr : AvlTree → Addr → Option (AvlTree × Addr) := rotate2 .left

def rl : AvlTree → Addr → Option (AvlTree × Addr) := rotate2 .right

/-- Which rotation is taken when a child is too high: the single one where this says so of the child
on the side. -/
abbrev Outer := Side → AvlTree → Addr → Bool

/-- `val < (*pos)->l->val`, and the mirrored test. -/
def addOuter (val : Int) : Outer
  | .left, s, l => val < s.val l
  | .right, s, r => val > s.val r

/-- `ltmp->l != NULL`, and the mirrored test. -/
def delOuter : Outer
  | side, s, tmp => (s.child side tmp).isSome

/-- The child of `root` on `side` is too high. -/
def lower (side : Side) (single double : AvlTree → Addr → Option (AvlTree × Addr)) (outer : Outer)
    (s : AvlTree) (root : Addr) : Option (AvlTree × Addr) := do
  let son ← s.child side root
  if outer side s son then single s root else double s root

/-- One pass of a loop behind `adjust to fit`. -/
def adjust (outer : Outer) (fuel : ℕ) (s : AvlTree) (pos : Link) : Option AvlTree := do
  let node ← s.load pos
  let lh ← s.getHeight fuel (s.child .left node)
  let rh ← s.getHeight fuel (s.child .right node)
  if lh - rh > 1 then
    (s.lower .left ll lr outer node).map fun x => x.1.store pos (some x.2)
  else if rh - lh > 1 then
    (s.lower .right rr rl outer node).map fun x => x.1.store pos (some x.2)
  else some s

/-- What the recursive functions do behind a call, which may have left the child on `side` too high. -/
def adjustRe (side : Side) (single double : AvlTree → Addr → Option (AvlTree × Addr)) (outer : Outer)
    (fuel : ℕ) (s : AvlTree) (root : Addr) : Option (AvlTree × Addr) := do
  let h ← s.getHeight fuel (s.child side root)
  let h' ← s.getHeight fuel (s.child side.other root)
  if h - h' > 1 then s.lower side single double outer root else some (s, root)

/-! ### `AddNode` -/

/-- The first loop of `AddNode`: the links on the way down, the last one first. -/
def descendPass (s : AvlTree) (val : Int) :
    List Link × Link → Loop.Pass (List Link × Link) Empty (List Link)
  | (pathNode, root) =>
    match s.load root with
    | none => .leave [] pathNode
    | some node =>
      if val < s.val node then .again [] (root :: pathNode, .field .left node)
      else .again [] (root :: pathNode, .field .right node)

/-- The new node is linked below the node behind the top of the stack. -/
def linkNode (s : AvlTree) (newNode : Addr) (val : Int) (top : Link) : Option AvlTree := do
  let node ← s.load top
  if val > s.val node then some (s.setChild .right node (some newNode))
  else some (s.setChild .left node (some newNode))

def addNode (alloc : Allocator) (fuel : ℕ) (s : AvlTree) (val : Int) : Option AvlTree :=
  let newNode := alloc.pick s
  let s := s.new newNode val
  if s.root = none then some (s.setRoot (some newNode))
  else do
    let (_, pathNode) ← Loop.run (s.descendPass val) fuel ([], .main)
    let top ← pathNode.head?
    let s ← s.linkNode newNode val top
    pathNode.tail.foldlM (adjust (addOuter val) fuel) s

def addNodeRe (alloc : Allocator) : ℕ → AvlTree → Option Addr → Int → Option (AvlTree × Option Addr)
  | 0, _, _, _ => none
  | _ + 1, s, none, val =>
    let newNode := alloc.pick s
    some (s.new newNode val, some newNode)
  | fuel + 1, s, some root, val =>
    if val > s.val root then do
      let (s, r) ← addNodeRe alloc fuel s (s.child .right root) val
      let (s, root) ← (s.setChild .right root r).adjustRe .right rr rl (addOuter val) fuel root
      some (s, some root)
    else if val < s.val root then do
      let (s, l) ← addNodeRe alloc fuel s (s.child .left root) val
      let (s, root) ← (s.setChild .left root l).adjustRe .left ll lr (addOuter val) fuel root
      some (s, some root)
    else some (s, some root)

/-- `root = AddNode_re(root, val)`, as `main` has it. -/
def addRe (alloc : Allocator) (fuel : ℕ) (s : AvlTree) (val : Int) : Option AvlTree :=
  (addNodeRe alloc fuel s s.root val).map fun x => x.1.setRoot x.2

/-! ### `DelNode` -/

/-- The first loop of `DelNode`, which also finds the link `delNode`. -/
def seekPass (s : AvlTree) (val : Int) :
    List Link × Link → Loop.Pass (List Link × Link) Empty (List Link × Option Link)
  | (pathNode, root) =>
    match s.load root with
    | none => .leave [] (pathNode, none)
    | some node =>
      if val < s.val node then .again [] (root :: pathNode, .field .left node)
      else if val > s.val node then .again [] (root :: pathNode, .field .right node)
      else .leave [] (root :: pathNode, some root)

/-- The loop that goes to the last node below `p`, with the node before it. -/
def lastPass (s : AvlTree) : Addr × Addr → Loop.Pass (Addr × Addr) Empty (Addr × Addr)
  | (pre, p) =>
    match s.child .right p with
    | none => .leave [] (pre, p)
    | some r => .again [] (p, r)

/-- The last node of the left subtree, which begins at `l`, takes the place of `node`. -/
def replace (fuel : ℕ) (s : AvlTree) (node l pre : Addr) : Option (AvlTree × Addr) :=
  if s.child .right l = none then
    some ((s.setChild .right l (s.child .right node)).delete node, l)
  else do
    let (_, pre, p) ← Loop.run s.lastPass fuel (pre, l)
    let s := s.setChild .right pre (s.child .left p)
    let s := s.setChild .left p (s.child .left node)
    let s := s.setChild .right p (s.child .right node)
    some (s.delete node, p)

/-- The node behind `delNode` is taken out; what is left of the stack is returned. -/
def unlink (fuel : ℕ) (s : AvlTree) (pathNode : List Link) (delNode : Link) :
    Option (AvlTree × List Link) := do
  let tmp ← s.load delNode
  match s.child .left tmp, s.child .right tmp with
  | none, r => some ((s.store delNode r).delete tmp, pathNode.tail)
  | some l, none => some ((s.store delNode (some l)).delete tmp, pathNode.tail)
  | some l, some _ =>
    (s.replace fuel tmp l l).map fun x => (x.1.store delNode (some x.2), pathNode)

def delNode (fuel : ℕ) (s : AvlTree) (val : Int) : Option AvlTree :=
  if s.root = none then some s
  else do
    let (_, pathNode, delNode) ← Loop.run (s.seekPass val) fuel ([], .main)
    match delNode with
    | none => some s
    | some delNode =>
      let (s, pathNode) ← s.unlink fuel pathNode delNode
      pathNode.foldlM (adjust delOuter fuel) s

def delNodeRe : ℕ → AvlTree → Option Addr → Int → Option (AvlTree × Option Addr)
  | 0, _, _, _ => none
  | _ + 1, s, none, _ => some (s, none)
  | fuel + 1, s, some root, val =>
    if val > s.val root then do
      let (s, r) ← delNodeRe fuel s (s.child .right root) val
      let (s, root) ← (s.setChild .right root r).adjustRe .left ll lr delOuter fuel root
      some (s, some root)
    else if val < s.val root then do
      let (s, l) ← delNodeRe fuel s (s.child .left root) val
      let (s, root) ← (s.setChild .left root l).adjustRe .right rr rl delOuter fuel root
      some (s, some root)
    else
      match s.child .left root, s.child .right root with
      | none, r => some (s.delete root, r)
      | some l, none => some (s.delete root, some l)
      | some l, some _ => (s.replace fuel root l root).map fun x => (x.1, some x.2)

/-- `root = DelNode_re(root, val)`, as `main` has it. -/
def delRe (fuel : ℕ) (s : AvlTree) (val : Int) : Option AvlTree :=
  (delNodeRe fuel s s.root val).map fun x => x.1.setRoot x.2

end AvlTree

end DemoCode.AVLTree
