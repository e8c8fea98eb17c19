import Embedlib.Library.Program
import Embedlib.Rb.Interface
import Mathlib.Logic.Function.Basic

/-! Nodes and paths of the compact tree.

The operations of the tree reach a node only through the inline accessors of
`rbtree_compact.h`; `NodeMemory` collects them, so that one text of the
operations runs on any representation of a node.
-/

set_option autoImplicit false

namespace Embedlib.RbtreeCompact

open Library Rb

class NodeMemory (μ : Type) (ν : outParam Type) where
  child : μ → ν → Dir → Ptr ν
  color : μ → ν → Color
  setChild : μ → ν → Dir → Ptr ν → μ
  setColor : μ → ν → Color → μ
  setLeftChildColor : μ → ν → Ptr ν → Color → μ
  copyLeftChildColor : μ → ν → ν → μ
  setRightChild : μ → ν → Ptr ν → μ
  copyRightChild : μ → ν → ν → μ

/-- A node with its links and its colour in separate fields. -/
structure RbNode (ν : Type) where
  left : Ptr ν
  right : Ptr ν
  color : Color
  deriving DecidableEq, Repr

namespace RbNode

variable {ν : Type}

def child (node : RbNode ν) : Dir → Ptr ν
  | .left => node.left
  | .right => node.right

def setChild (node : RbNode ν) (p : Ptr ν) : Dir → RbNode ν
  | .left => { node with left := p }
  | .right => { node with right := p }

end RbNode

abbrev Records (ν : Type) := ν → RbNode ν

def Records.modify {ν : Type} [DecidableEq ν] (mem : Records ν) (x : ν)
    (change : RbNode ν → RbNode ν) : Records ν :=
  Function.update mem x (change (mem x))

instance {ν : Type} [DecidableEq ν] : NodeMemory (Records ν) ν where
  child mem x d := (mem x).child d
  color mem x := (mem x).color
  setChild mem x d p := Records.modify mem x fun node => node.setChild p d
  setColor mem x c := Records.modify mem x fun node => { node with color := c }
  setLeftChildColor mem x p c := Records.modify mem x fun node => { node with left := p, color := c }
  copyLeftChildColor mem dest src := Records.modify mem dest fun node =>
    { node with left := (mem src).left, color := (mem src).color }
  setRightChild mem x p := Records.modify mem x fun node => { node with right := p }
  copyRightChild mem dest src := Records.modify mem dest fun node =>
    { node with right := (mem src).right }

/-- `RB_PATH_ENTRY` -/
structure PathEntry (ν : Type) where
  parent : Ptr ν
  dir : Dir
  deriving DecidableEq, Repr

/-- `RB_PATH`, with an array that has a slot at every index. -/
structure RbPath (ν : Type) where
  path : Nat → PathEntry ν
  cur : Nat

/-- What an operation works on: the nodes, `root->rb_root` and the path.
`written` only records the indices of the path entries that were written. -/
structure State (μ ν : Type) where
  mem : μ
  root : Ptr ν
  rp : RbPath ν
  written : List Nat

variable {μ ν : Type} [NodeMemory μ ν]

def deref (p : Ptr ν) : Program (State μ ν) ν :=
  match p with
  | some x => pure x
  | none => fault .nullPointer

def rbChild (node : Ptr ν) (dir : Dir) : Program (State μ ν) (Ptr ν) := do
  let x ← deref node
  return NodeMemory.child (← get).mem x dir

def rbColor (node : Ptr ν) : Program (State μ ν) Color := do
  let x ← deref node
  return NodeMemory.color (← get).mem x

def rbSetChild (node : Ptr ν) (dir : Dir) (child : Ptr ν) : Program (State μ ν) Unit := do
  let x ← deref node
  modify fun s => { s with mem := NodeMemory.setChild s.mem x dir child }

def rbSetColor (node : Ptr ν) (color : Color) : Program (State μ ν) Unit := do
  let x ← deref node
  modify fun s => { s with mem := NodeMemory.setColor s.mem x color }

def rbSetLeftChildColor (node child : Ptr ν) (color : Color) : Program (State μ ν) Unit := do
  let x ← deref node
  modify fun s => { s with mem := NodeMemory.setLeftChildColor s.mem x child color }

def rbCopyLeftChildColor (dest src : Ptr ν) : Program (State μ ν) Unit := do
  let x ← deref dest
  let y ← deref src
  modify fun s => { s with mem := NodeMemory.copyLeftChildColor s.mem x y }

def rbSetRightChild (node child : Ptr ν) : Program (State μ ν) Unit := do
  let x ← deref node
  modify fun s => { s with mem := NodeMemory.setRightChild s.mem x child }

def rbCopyRightChild (dest src : Ptr ν) : Program (State μ ν) Unit := do
  let x ← deref dest
  let y ← deref src
  modify fun s => { s with mem := NodeMemory.copyRightChild s.mem x y }

/-- `root->rb_root = p` -/
def setRoot (p : Ptr ν) : Program (State μ ν) Unit :=
  modify fun s => { s with root := p }

/-- `rp->cur[-back]` -/
def entryAt (back : Nat) : Program (State μ ν) (PathEntry ν) := do
  let rp := (← get).rp
  if back ≤ rp.cur then return rp.path (rp.cur - back) else fault .outOfBounds

/-- A write to `path[i]`. -/
def writeEntry (i : Nat) (change : PathEntry ν → PathEntry ν) : Program (State μ ν) Unit :=
  modify fun s => { s with
    rp := { s.rp with path := Function.update s.rp.path i (change (s.rp.path i)) }
    written := i :: s.written }

/-- `++rp->cur` -/
def advance : Program (State μ ν) Unit :=
  modify fun s => { s with rp := { s.rp with cur := s.rp.cur + 1 } }

/-- `rp->cur -= n` -/
def retreat (n : Nat) : Program (State μ ν) Unit := do
  if n ≤ (← get).rp.cur then
    modify fun s => { s with rp := { s.rp with cur := s.rp.cur - n } }
  else fault .outOfBounds

/-- `++rp->cur; rp->cur->parent = parent; rp->cur->dir = dir;` -/
def push (parent : Ptr ν) (dir : Dir) : Program (State μ ν) Unit := do
  advance
  let cur := (← get).rp.cur
  writeEntry cur fun entry => { entry with parent := parent }
  writeEntry cur fun entry => { entry with dir := dir }

/-- `RB_PATH_INIT(rp)`. The direction of the first entry is left as it is. -/
def rbPathInit : Program (State μ ν) Unit := do
  modify fun s => { s with rp := { s.rp with cur := 0 } }
  writeEntry 0 fun entry => { entry with parent := none }

end Embedlib.RbtreeCompact
