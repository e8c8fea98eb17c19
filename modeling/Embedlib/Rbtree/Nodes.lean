import Embedlib.Library.Program
import Embedlib.Rb.Interface
import Mathlib.Logic.Function.Basic

/-! Nodes of the tree with parent pointers, and the accessors of `rbtree.h`. -/

set_option autoImplicit false

namespace Embedlib.Rbtree

open Library Rb

/-- `RB_NODE`. The parent and the colour share the word `rb_parent_color`. -/
structure RbNode (ν : Type) where
  parent : Ptr ν
  color : Color
  left : Ptr ν
  right : Ptr ν
  deriving DecidableEq, Repr

namespace RbNode

variable {ν : Type}

def child (node : RbNode ν) : Dir → Ptr ν
  | .left => node.left
  | .right => node.right

def setChild (node : RbNode ν) (p : Ptr ν) : Dir → RbNode ν
  | .left => { node with left := p }
  | .right => { node with right := p }

def setParentColor (node : RbNode ν) (parent : Ptr ν) (color : Color) : RbNode ν :=
  { node with parent := parent, color := color }

def setParent (node : RbNode ν) (parent : Ptr ν) : RbNode ν := node.setParentColor parent node.color

def setColor (node : RbNode ν) (color : Color) : RbNode ν := node.setParentColor node.parent color

end RbNode

abbrev Records (ν : Type) := ν → RbNode ν

def Records.modify {ν : Type} [DecidableEq ν] (mem : Records ν) (x : ν)
    (change : RbNode ν → RbNode ν) : Records ν :=
  Function.update mem x (change (mem x))

/-- What an operation works on: the nodes and `root->rb_root`. -/
structure State (ν : Type) where
  mem : Records ν
  root : Ptr ν

variable {ν : Type}

def deref (p : Ptr ν) : Program (State ν) ν :=
  match p with
  | some x => pure x
  | none => fault .nullPointer

def rbParent (node : Ptr ν) : Program (State ν) (Ptr ν) := do
  let x ← deref node
  return ((← get).mem x).parent

def rbChild (node : Ptr ν) (dir : Dir) : Program (State ν) (Ptr ν) := do
  let x ← deref node
  return ((← get).mem x).child dir

def rbColor (node : Ptr ν) : Program (State ν) Color := do
  let x ← deref node
  return ((← get).mem x).color

/-- `root->rb_root = p` -/
def setRoot (p : Ptr ν) : Program (State ν) Unit := modify fun s => { s with root := p }

variable [DecidableEq ν]

def change (node : Ptr ν) (f : RbNode ν → RbNode ν) : Program (State ν) Unit := do
  let x ← deref node
  modify fun s => { s with mem := s.mem.modify x f }

def rbSetParent (node parent : Ptr ν) : Program (State ν) Unit :=
  change node fun n => n.setParent parent

def rbSetParentColor (node parent : Ptr ν) (color : Color) : Program (State ν) Unit :=
  change node fun n => n.setParentColor parent color

def rbSetChild (node : Ptr ν) (dir : Dir) (child : Ptr ν) : Program (State ν) Unit :=
  change node fun n => n.setChild child dir

def rbSetColor (node : Ptr ν) (color : Color) : Program (State ν) Unit :=
  change node fun n => n.setColor color

/-- `dest->rb_parent_color = src->rb_parent_color` -/
def copyParentColor (dest src : Ptr ν) : Program (State ν) Unit := do
  let parent ← rbParent src
  let color ← rbColor src
  rbSetParentColor dest parent color

end Embedlib.Rbtree
