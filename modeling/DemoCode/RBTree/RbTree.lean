import Mathlib.Data.Finset.Basic
import DemoCode.Lib.Loop
import DemoCode.Lib.RedBlack

/-! `RB_tree.cpp`: a red-black tree of nodes with parent links. A null pointer is `none`; a function
that dereferences one has no result. Loops take a bound on their passes. -/

namespace DemoCode.RBTree

open Trees RedBlack

abbrev Addr := ℕ

/-- The `Node`s in memory, where `child` stands for the fields `l` and `r`, and the `root` of
`main`. -/
structure RbTree where
  val : Addr → Int
  child : Side → Addr → Option Addr
  p : Addr → Option Addr
  color : Addr → Color
  live : Finset Addr
  root : Option Addr

/-- Where `new` finds memory. -/
structure Allocator where
  pick : RbTree → Addr
  pick_free : ∀ s, pick s ∉ s.live

namespace RbTree

def empty : RbTree where
  val _ := 0
  child _ _ := none
  p _ := none
  color _ := .red
  live := ∅
  root := none

@[simps -fullyApplied]
def setVal (s : RbTree) (a : Addr) (val : Int) : RbTree :=
  { s with val := fun b => if b = a then val else s.val b }

@[simps -fullyApplied]
def setChild (s : RbTree) (side : Side) (a : Addr) (x : Option Addr) : RbTree :=
  { s with child := fun side' b => if side' = side ∧ b = a then x else s.child side' b }

@[simps -fullyApplied]
def setP (s : RbTree) (a : Addr) (x : Option Addr) : RbTree :=
  { s with p := fun b => if b = a then x else s.p b }

@[simps -fullyApplied]
def setColor (s : RbTree) (a : Addr) (c : Color) : RbTree :=
  { s with color := fun b => if b = a then c else s.color b }

@[simps -fullyApplied]
def setRoot (s : RbTree) (x : Option Addr) : RbTree := { s with root := x }

/-- `new Node(val)`. -/
@[simps -fullyApplied]
def new (s : RbTree) (a : Addr) (val : Int) : RbTree where
  val b := if b = a then val else s.val b
  child side b := if b = a then none else s.child side b
  p b := if b = a then none else s.p b
  color b := if b = a then .red else s.color b
  live := insert a s.live
  root := s.root

@[simps -fullyApplied]
def delete (s : RbTree) (a : Addr) : RbTree := { s with live := s.live.erase a }

/-- `if(x != NULL) x->p = a`. -/
def adopt (s : RbTree) (a : Option Addr) : Option Addr → RbTree
  | none => s
  | some x => s.setP x a

section

variable (s : RbTree) (a x : Option Addr)

@[simp] theorem adopt_val : (s.adopt a x).val = s.val := by cases x <;> rfl

@[simp] theorem adopt_child : (s.adopt a x).child = s.child := by cases x <;> rfl

@[simp] theorem adopt_color : (s.adopt a x).color = s.color := by cases x <;> rfl

@[simp] theorem adopt_live : (s.adopt a x).live = s.live := by cases x <;> rfl

@[simp] theorem adopt_root : (s.adopt a x).root = s.root := by cases x <;> rfl

@[simp] theorem adopt_p (b : Addr) : (s.adopt a x).p b = if x = some b then a else s.p b := by
  cases x with
  | none => rfl
  | some x => simp [adopt, eq_comm]

end

/-! ### Rotations -/

/-- The node at the reference `root` changes places with its child on `side`; the reference is
returned as it is set then. -/
def rotate (side : Side) (s : RbTree) (root : Addr) : Option (RbTree × Addr) := do
  let tmp ← s.child side root
  let s := s.setChild side root (s.child side.other tmp)
  let s := s.adopt (some root) (s.child side.other tmp)
  let s := s.setChild side.other tmp (some root)
  let s := s.setP tmp (s.p root)
  let s := s.setP root (some tmp)
  some (s, tmp)

/-- First the child on `side`, through the reference to it, then the node. -/
def rotate2 (side : Side) (s : RbTree) (root : Addr) : Option (RbTree × Addr) := do
  let son ← s.child side root
  let (s, son) ← s.rotate side.other son
  (s.setChild side root (some son)).rotate side root

def ll : RbTree → Addr → Option (RbTree × Addr) := rotate .left

def rr : RbTree → Addr → Option (RbTree × Addr) := rotate .right

def lr : RbTree → Addr → Option (RbTree × Addr) := rotate2 .left

def rl : RbTree → Addr → Option (RbTree × Addr) := rotate2 .right

def rebuildCon (s : RbTree) (son : Addr) : Option Addr → RbTree
  | none => s.setRoot (some son)
  | some parent =>
    if s.val parent > s.val son then s.setChild .left parent (some son)
    else s.setChild .right parent (some son)

/-! ### `AddNode` -/

/-- One half of the loop of `AddFixUp`, with its two rotations: `p` is the child of `gp` on `side`. -/
def addFixUpHalf (side : Side) (single double : RbTree → Addr → Option (RbTree × Addr)) (s : RbTree)
    (newNode p gp : Addr) : Option (RbTree × Addr) :=
  match (s.child side.other gp).filter fun u => s.color u = .red with
  | some u => some (((s.setColor p .black).setColor u .black).setColor gp .red, gp)
  | none => do
    let s := s.setColor gp .red
    let (s, gp) ←
      if some newNode = s.child side p then single (s.setColor p .black) gp
      else double (s.setColor newNode .black) gp
    some (s.rebuildCon gp (s.p gp), newNode)

def addFixUpPass : RbTree × Addr → Loop.Pass (RbTree × Addr) Empty (Option RbTree)
  | (s, newNode) =>
    match (s.p newNode).filter fun p => s.color p = .red with
    | none => .leave [] (s.root.map fun root => s.setColor root .black)
    | some p =>
      match (s.p p).bind fun gp =>
        if some p = s.child .left gp then addFixUpHalf .left ll lr s newNode p gp
        else addFixUpHalf .right rr rl s newNode p gp with
      | none => .leave [] none
      | some t => .again [] t

def addFixUp (fuel : ℕ) (s : RbTree) (newNode : Addr) : Option (Option RbTree) :=
  (Loop.run addFixUpPass fuel (s, newNode)).map (·.2)

/-- The loop that goes down to `val`, as `AddNode` has it with `pre` and `p`; that of `DelNode` keeps
no `pre`. -/
def seekPass (s : RbTree) (val : Int) :
    Option Addr × Option Addr →
      Loop.Pass (Option Addr × Option Addr) Empty (Option Addr × Option Addr)
  | (pre, none) => .leave [] (pre, none)
  | (_, some p) =>
    if val > s.val p then .again [] (some p, s.child .right p)
    else if val < s.val p then .again [] (some p, s.child .left p)
    else .leave [] (some p, some p)

def seek (fuel : ℕ) (s : RbTree) (val : Int) : Option (Option Addr × Option Addr) :=
  (Loop.run (s.seekPass val) fuel (s.root, s.root)).map (·.2)

/-- The new node is linked below `pre`. -/
def linkNode (s : RbTree) (newNode : Addr) (pre : Option Addr) (val : Int) : Option RbTree :=
  let s := s.setP newNode pre
  match s.root, pre with
  | none, _ => some (s.setRoot (some newNode))
  | some _, none => none
  | some _, some pre =>
    if val > s.val pre then some (s.setChild .right pre (some newNode))
    else some (s.setChild .left pre (some newNode))

/-- The rest of `AddNode`, behind its loop; where `val` is in the tree, the new node is left alone. -/
def addAt (fuel : ℕ) (s : RbTree) (newNode : Addr) (val : Int) :
    Option Addr × Option Addr → Option (Option RbTree)
  | (_, some _) => some (some s)
  | (pre, none) =>
    match s.linkNode newNode pre val with
    | none => some none
    | some s => s.addFixUp fuel newNode

def addNode (alloc : Allocator) (fuel : ℕ) (s : RbTree) (val : Int) : Option (Option RbTree) :=
  let newNode := alloc.pick s
  let s := s.new newNode val
  (s.seek fuel val).bind fun x => s.addAt fuel newNode val x

/-! ### `DelNode` -/

/-- The state of the loop of `DelFixUp`: the tree, `replace` and `parent`. -/
abbrev DelState := RbTree × Option Addr × Option Addr

/-- One half of the loop of `DelFixUp`, for `parent->l == replace` (`left`) or not (`right`), with its
two rotations. Both halves give the colour of `parent` to `brother->l`; in the right half this is not
the nephew that the test before has found. -/
def delFixUpHalf (side : Side) (single double : RbTree → Addr → Option (RbTree × Addr)) (s : RbTree)
    (replace : Option Addr) (parent : Addr) :
    Option (Loop.Pass DelState Empty (Option RbTree)) := do
  let brother ← s.child side.other parent
  if s.child .left brother = none ∧ s.child .right brother = none then
    if s.color parent = .red then
      some (.leave [] (some ((s.setColor parent .black).setColor brother .red)))
    else
      let s := s.setColor brother .red
      some (.again [] (s, some parent, s.p parent))
  else if s.color brother = .red then
    let (s, parent) ← single ((s.setColor brother .black).setColor parent .red) parent
    some (.again [] (s.rebuildCon parent (s.p parent), replace, some parent))
  else
    let (s, parent) ←
      if s.child side brother ≠ none then do
        let l ← s.child .left brother
        let s := (s.setColor l (s.color parent)).setColor parent .black
        let nephew ← s.child side brother
        double (s.setColor nephew .black) parent
      else do
        let s := (s.setColor brother (s.color parent)).setColor parent .black
        let nephew ← s.child side.other brother
        single (s.setColor nephew .black) parent
    some (.leave [] (some (s.rebuildCon parent (s.p parent))))

def delFixUpPass : DelState → Loop.Pass DelState Empty (Option RbTree)
  | (s, replace, parent) =>
    if replace = s.root then .leave [] (some s) else
      (parent.bind fun parent =>
        if s.child .left parent = replace then delFixUpHalf .left rr rl s replace parent
        else delFixUpHalf .right ll lr s replace parent).getD (.leave [] none)

def delFixUp (fuel : ℕ) (s : RbTree) (replace parent : Option Addr) : Option (Option RbTree) :=
  match replace with
  | some replace => some (some (s.setColor replace .black))
  | none => (Loop.run delFixUpPass fuel (s, none, parent)).map (·.2)

/-- The loop that goes to the last node below `hj`. -/
def lastPass (s : RbTree) (hj : Addr) : Loop.Pass Addr Empty Addr :=
  match s.child .right hj with
  | none => .leave [] hj
  | some r => .again [] r

/-- A node with two children takes the value of `hj`, the last node of its left subtree, which goes
in its place. -/
def takeHj (fuel : ℕ) (s : RbTree) (delNode : Addr) : Option (RbTree × Addr) :=
  match s.child .left delNode, s.child .right delNode with
  | some l, some _ =>
    (Loop.run s.lastPass fuel l).map fun x => (s.setVal delNode (s.val x.2), x.2)
  | _, _ => some (s, delNode)

/-- The only child of a node takes its place at the root. -/
def unlinkRoot (s : RbTree) (delNode : Addr) : RbTree :=
  let s := s.setRoot
    (if s.child .left delNode = none then s.child .right delNode else s.child .left delNode)
  match s.root with
  | none => s
  | some root => (s.setP root none).setColor root .black

/-- `delChild` takes the place of a node below `p`. -/
def unlinkBelow (s : RbTree) (delNode p : Addr) (delChild : Option Addr) : RbTree :=
  let s :=
    if s.child .left p = some delNode then s.setChild .left p delChild
    else s.setChild .right p delChild
  s.adopt (s.p delNode) delChild

theorem unlinkBelow_color (s : RbTree) (delNode p : Addr) (delChild : Option Addr) :
    (s.unlinkBelow delNode p delChild).color = s.color := by
  simp only [unlinkBelow, adopt_color]
  split <;> rfl

theorem unlinkBelow_p (s : RbTree) (delNode p : Addr) (delChild : Option Addr) (b : Addr) :
    (s.unlinkBelow delNode p delChild).p b =
      if delChild = some b then s.p delNode else s.p b := by
  by_cases h : s.child .left p = some delNode <;> simp [unlinkBelow, h]

def delChild (s : RbTree) (delNode : Addr) : Option Addr :=
  if s.child .left delNode ≠ none then s.child .left delNode else s.child .right delNode

def unlink (fuel : ℕ) (s : RbTree) (delNode : Addr) : Option (Option RbTree) :=
  if s.child .left delNode = none ∨ s.child .right delNode = none then
    match s.p delNode with
    | none => some (some ((s.unlinkRoot delNode).delete delNode))
    | some p =>
      let delChild := s.delChild delNode
      let s := s.unlinkBelow delNode p delChild
      if s.color delNode = .black then
        (s.delFixUp fuel delChild (s.p delNode)).map (Option.map (·.delete delNode))
      else some (some (s.delete delNode))
  else some (some s)

/-- The rest of `DelNode`, behind its first loop. -/
def delAt (fuel : ℕ) (s : RbTree) : Option Addr → Option (Option RbTree)
  | none => some (some s)
  | some delNode => (s.takeHj fuel delNode).bind fun x => x.1.unlink fuel x.2

def delNode (fuel : ℕ) (s : RbTree) (val : Int) : Option (Option RbTree) :=
  (s.seek fuel val).bind fun x => s.delAt fuel x.2

end RbTree

end DemoCode.RBTree
