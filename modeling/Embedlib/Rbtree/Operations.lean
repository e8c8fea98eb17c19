import Embedlib.Rbtree.Nodes

/-! The functions of `rbtree.c` and the generated operations of `rbtree.h`,
statement by statement. `fuel` bounds the rounds of each loop. -/

set_option autoImplicit false

namespace Embedlib.Rbtree

open Library Rb

variable {ν κ : Type} [DecidableEq ν]

/-- `p != NULL && rb_color(p) == RB_RED` -/
def isRed (p : Ptr ν) : Program (State ν) Bool :=
  match p with
  | none => return false
  | some _ => return (← rbColor p) = .red

/-- `p == NULL || rb_color(p) == RB_BLACK` -/
def isBlack (p : Ptr ν) : Program (State ν) Bool :=
  match p with
  | none => return true
  | some _ => return (← rbColor p) = .black

/-- `if (p != NULL) rb_set_parent(p, parent);` -/
def adopt (p parent : Ptr ν) : Program (State ν) Unit :=
  match p with
  | none => return ()
  | some _ => rbSetParent p parent

/-- `parent->rb_child[dir] == child ? dir : (dir ^ 1)` -/
def childDir (parent : Ptr ν) (dir : Dir) (child : Ptr ν) : Program (State ν) Dir := do
  return if (← rbChild parent dir) = child then dir else dir.flip

def rbRotate (node : Ptr ν) (direction : Dir) : Program (State ν) Unit := do
  let pivot ← rbChild node direction.flip
  rbSetChild node direction.flip (← rbChild pivot direction)
  adopt (← rbChild pivot direction) node
  let nodeParent ← rbParent node
  rbSetParent pivot nodeParent
  match nodeParent with
  | none => setRoot pivot
  | some _ => rbSetChild nodeParent (← childDir nodeParent direction node) pivot
  rbSetChild pivot direction node
  rbSetParent node pivot

/-- The end of a round of `rbInsertColor` when the uncle is black. -/
def rbInsertColorLast (node parent gparent : Ptr ν) (dir : Dir) :
    Program (State ν) (Turn (Ptr ν) Unit) := do
  let (node, parent) ← if (← rbChild parent dir.flip) = node then do
      -- Case 2
      rbRotate parent dir
      pure (parent, node)
    else pure (node, parent)
  -- Case 3
  rbSetColor parent .black
  rbSetColor gparent .red
  rbRotate gparent dir.flip
  return .again node

def rbInsertColorRound (node : Ptr ν) : Program (State ν) (Turn (Ptr ν) Unit) := do
  let parent ← rbParent node
  if ← isRed parent then
    let gparent ← rbParent parent
    let dir ← childDir gparent .left parent
    let uncle ← rbChild gparent dir.flip
    if ← isRed uncle then
      -- Case 1
      rbSetColor parent .black
      rbSetColor uncle .black
      rbSetColor gparent .red
      return .again gparent
    else rbInsertColorLast node parent gparent dir
  else return .leave ()

def rbInsertColor (fuel : Nat) (node : Ptr ν) : Program (State ν) Unit := do
  loop rbInsertColorRound fuel node
  rbSetColor (← get).root .black

/-- Case 4 of `rbRemoveColor`, after which the loop is left with
`node = root->rb_root`. -/
def rbRemoveColorLast (parent sibling : Ptr ν) (dir : Dir) :
    Program (State ν) (Turn (Ptr ν × Ptr ν) (Ptr ν)) := do
  rbSetColor sibling (← rbColor parent)
  rbSetColor parent .black
  rbSetColor (← rbChild sibling dir.flip) .black
  rbRotate parent dir
  return .leave (← get).root

/-- The end of a round of `rbRemoveColor`, where the sibling is black. -/
def rbRemoveColorRest (parent sibling : Ptr ν) (dir : Dir) :
    Program (State ν) (Turn (Ptr ν × Ptr ν) (Ptr ν)) := do
  if ← isBlack (← rbChild sibling dir.flip) then
    if ← isBlack (← rbChild sibling dir) then
      -- Case 2
      rbSetColor sibling .red
      return .again (← rbParent parent, parent)
    else
      -- Case 3
      rbSetColor (← rbChild sibling dir) .black
      rbSetColor sibling .red
      rbRotate sibling dir.flip
      rbRemoveColorLast parent (← rbChild parent dir.flip) dir
  else rbRemoveColorLast parent sibling dir

/-- Case 1 of `rbRemoveColor`. -/
def rbRemoveColorLower (parent sibling : Ptr ν) (dir : Dir) : Program (State ν) (Ptr ν) := do
  rbSetColor sibling .black
  rbSetColor parent .red
  rbRotate parent dir
  rbChild parent dir.flip

/-- One round, for the locals `parent` and `node`. -/
def rbRemoveColorRound (at_ : Ptr ν × Ptr ν) : Program (State ν) (Turn (Ptr ν × Ptr ν) (Ptr ν)) := do
  let (parent, node) := at_
  if (← isBlack node) ∧ node ≠ (← get).root then
    let dir ← childDir parent .left node
    let sibling ← rbChild parent dir.flip
    let sibling ← if (← rbColor sibling) = .red then rbRemoveColorLower parent sibling dir
      else pure sibling
    rbRemoveColorRest parent sibling dir
  else return .leave node

def rbRemoveColor (fuel : Nat) (parent node : Ptr ν) : Program (State ν) Unit := do
  match ← loop rbRemoveColorRound fuel (parent, node) with
  | some x => rbSetColor (some x) .black
  | none => return ()

def rbChangeChild (parent oldChild newChild : Ptr ν) : Program (State ν) Unit := do
  rbSetChild parent (← childDir parent .left oldChild) newChild

/-- `if (parent != NULL) rb_change_child(parent, oldChild, newChild); else root->rb_root = newChild;` -/
def link (parent oldChild newChild : Ptr ν) : Program (State ν) Unit :=
  match parent with
  | some _ => rbChangeChild parent oldChild newChild
  | none => setRoot newChild

/-- One step down while there is a child: the walks of `rbRemove`, `rbIter` and
`rbIterNext`. -/
def walkRound (dir : Dir) (p : Ptr ν) : Program (State ν) (Turn (Ptr ν) (Ptr ν)) := do
  match ← rbChild p dir with
  | some q => return .again (some q)
  | none => return .leave p

/-- The locals of `rbRemove` after the node was unlinked. -/
structure Unlinked (ν : Type) where
  transplanter : Ptr ν
  replacement : Ptr ν
  parent : Ptr ν
  deletedColor : Color

/-- The successor of a node with two children takes over its links and its colour. -/
def rbTakePlace (node successor : Ptr ν) : Program (State ν) (Unlinked ν) := do
  let deletedColor ← rbColor successor
  let child ← rbChild successor .right
  let parent ← rbParent successor
  -- Unless the successor is the right child, its own child takes its place.
  let parent ← if parent ≠ node then do
      rbChangeChild parent successor child
      adopt child parent
      rbSetChild successor .right (← rbChild node .right)
      rbSetParent (← rbChild node .right) successor
      pure parent
    else pure successor
  rbSetChild successor .left (← rbChild node .left)
  rbSetParent (← rbChild node .left) successor
  copyParentColor successor node
  return ⟨successor, child, parent, deletedColor⟩

def rbUnlink (fuel : Nat) (node : Ptr ν) : Program (State ν) (Unlinked ν) := do
  let nodeParent ← rbParent node
  let deletedColor ← rbColor node
  if (← rbChild node .left) = none then
    let transplanter ← rbChild node .right
    -- Here the child may be missing as well; below, a left child is there.
    adopt transplanter nodeParent
    return ⟨transplanter, transplanter, nodeParent, deletedColor⟩
  else if (← rbChild node .right) = none then
    let transplanter ← rbChild node .left
    rbSetParent transplanter nodeParent
    return ⟨transplanter, transplanter, nodeParent, deletedColor⟩
  else
    let successor ← loop (walkRound .left) fuel (← rbChild node .right)
    rbTakePlace node successor

def rbRemove (fuel : Nat) (node : Ptr ν) : Program (State ν) Unit := do
  let nodeParent ← rbParent node
  let unlinked ← rbUnlink fuel node
  link nodeParent node unlinked.transplanter
  if unlinked.deletedColor = .black then
    rbRemoveColor fuel unlinked.parent unlinked.replacement

def rbIter (fuel : Nat) (dir : Dir) : Program (State ν) (Ptr ν) := do
  match (← get).root with
  | none => return none
  | some p => loop (walkRound dir) fuel (some p)

/-- One step up from `node`, while it is the child in direction `dir`. -/
def climbRound (dir : Dir) (node : Ptr ν) : Program (State ν) (Turn (Ptr ν) (Ptr ν)) := do
  match ← rbParent node with
  | none => return .leave none
  | some p => if (← rbChild (some p) dir) = node then return .again (some p) else return .leave (some p)

def rbIterNext (fuel : Nat) (node : Ptr ν) (dir : Dir) : Program (State ν) (Ptr ν) := do
  match node with
  | none => return none
  | some _ =>
    match ← rbChild node dir with
    | some p => loop (walkRound dir.flip) fuel (some p)
    -- No child on this side: the next node is above.
    | none => loop (climbRound dir) fuel node

def rbFirst (fuel : Nat) : Program (State ν) (Ptr ν) := rbIter fuel .left
def rbLast (fuel : Nat) : Program (State ν) (Ptr ν) := rbIter fuel .right
def rbNext (fuel : Nat) (node : Ptr ν) : Program (State ν) (Ptr ν) := rbIterNext fuel node .right
def rbPrev (fuel : Nat) (node : Ptr ν) : Program (State ν) (Ptr ν) := rbIterNext fuel node .left

/-- One comparison of `RB_INSERT`: the entry that was met, or the last node and
the side of it on which the new node belongs. -/
def rbInsertRound (cmp : ν → ν → Int) (node p : ν) :
    Program (State ν) (Turn ν (ν ⊕ ν × Dir)) := do
  match sideOf (cmp node p) with
  | none => return .leave (.inl p)
  | some dir =>
    match ← rbChild (some p) dir with
    | some q => return .again q
    | none => return .leave (.inr (p, dir))

/-- The end of `rbInsert`, after the new node was linked in below `parent`. -/
def rbInsertNew (fuel : Nat) (parent : Ptr ν) (node : ν) : Program (State ν) (Ptr ν) := do
  rbSetParentColor (some node) parent .red
  rbSetChild (some node) .left none
  rbSetChild (some node) .right none
  rbInsertColor fuel (some node)
  return some node

/-- `RB_GENERATE_INSERT` -/
def rbInsert (cmp : ν → ν → Int) (fuel : Nat) (node : ν) : Program (State ν) (Ptr ν) := do
  match (← get).root with
  | some p =>
    match ← loop (rbInsertRound cmp node) fuel p with
    -- An equal entry is returned, and the tree is left alone.
    | .inl ent => return some ent
    | .inr (parent, dir) =>
      rbSetChild (some parent) dir (some node)
      rbInsertNew fuel (some parent) node
  | none =>
    setRoot (some node)
    rbInsertNew fuel none node

def rbFindRound (keyCmp : κ → ν → Int) (key : κ) (p : Ptr ν) :
    Program (State ν) (Turn (Ptr ν) (Ptr ν)) := do
  match p with
  | none => return .leave none
  | some ent =>
    match sideOf (keyCmp key ent) with
    | none => return .leave (some ent)
    | some dir => return .again (← rbChild (some ent) dir)

/-- `RB_GENERATE_FIND` -/
def rbFind (keyCmp : κ → ν → Int) (fuel : Nat) (key : κ) : Program (State ν) (Ptr ν) := do
  loop (rbFindRound keyCmp key) fuel (← get).root

/-- `RB_GENERATE_REMOVE` -/
def rbRemoveKey (keyCmp : κ → ν → Int) (fuel : Nat) (key : κ) : Program (State ν) (Ptr ν) := do
  match ← rbFind keyCmp fuel key with
  | none => return none
  | some node =>
    rbRemove fuel (some node)
    return some node

end Embedlib.Rbtree
