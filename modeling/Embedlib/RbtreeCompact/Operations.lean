import Embedlib.RbtreeCompact.Nodes

/-! The functions of `rbtree_compact.c` and the generated operations of
`rbtree_compact.h`, statement by statement. `fuel` bounds the rounds of each
loop. -/

set_option autoImplicit false

namespace Embedlib.RbtreeCompact

open Library Rb

variable {μ ν κ : Type} [NodeMemory μ ν] [DecidableEq ν]

/-- `p != NULL && rb_color(p) == RB_RED` -/
def isRed (p : Ptr ν) : Program (State μ ν) Bool :=
  match p with
  | none => return false
  | some _ => return (← rbColor p) = .red

/-- `p == NULL || rb_color(p) == RB_BLACK` -/
def isBlack (p : Ptr ν) : Program (State μ ν) Bool :=
  match p with
  | none => return true
  | some _ => return (← rbColor p) = .black

/-- Link `t` where the path entry points:
`if (parent != NULL) rb_set_child(parent, dir, t); else root->rb_root = t;` -/
def link (entry : PathEntry ν) (t : Ptr ν) : Program (State μ ν) Unit :=
  match entry.parent with
  | some _ => rbSetChild entry.parent entry.dir t
  | none => setRoot t

def rbRotate (node : Ptr ν) (direction : Dir) : Program (State μ ν) (Ptr ν) := do
  let pivot ← rbChild node direction.flip
  rbSetChild node direction.flip (← rbChild pivot direction)
  rbSetChild pivot direction node
  return pivot

/-- The end of a round of `rbInsertColor` when the uncle is black, after which
the loop is left. -/
def rbInsertColorLast (parent gparent : Ptr ν) (dir : Dir) : Program (State μ ν) (Turn Unit Unit) := do
  let parent ← if (← entryAt 0).dir ≠ dir then do
      -- Case 2
      let parent ← rbRotate parent dir
      rbSetChild gparent dir parent
      pure parent
    else pure parent
  -- Case 3
  rbSetColor parent .black
  rbSetColor gparent .red
  let t ← rbRotate gparent dir.flip
  link (← entryAt 2) t
  return .leave ()

def rbInsertColorRound (_ : Unit) : Program (State μ ν) (Turn Unit Unit) := do
  let parent := (← entryAt 0).parent
  if ← isRed parent then
    let upper ← entryAt 1
    let gparent := upper.parent
    let dir := upper.dir
    let uncle ← rbChild gparent dir.flip
    if ← isRed uncle then
      -- Case 1
      rbSetColor parent .black
      rbSetColor uncle .black
      rbSetColor gparent .red
      retreat 2
      return .again ()
    else rbInsertColorLast parent gparent dir
  else return .leave ()

def rbInsertColor (fuel : Nat) : Program (State μ ν) Unit := do
  loop rbInsertColorRound fuel ()
  rbSetColor (← get).root .black

/-- Case 4 of `rbRemoveColor`, after which the loop is left with
`node = root->rb_root`. -/
def rbRemoveColorLast (parent sibling nibling : Ptr ν) (dir : Dir) :
    Program (State μ ν) (Turn (Ptr ν) (Ptr ν)) := do
  rbSetColor sibling (← rbColor parent)
  rbSetColor parent .black
  rbSetColor nibling .black
  -- The sibling comes up; the path entry of the parent's place is the one above.
  let t ← rbRotate parent dir
  link (← entryAt 1) t
  return .leave (← get).root

/-- The end of a round of `rbRemoveColor`, where the sibling is black. -/
def rbRemoveColorRest (parent sibling : Ptr ν) (dir : Dir) :
    Program (State μ ν) (Turn (Ptr ν) (Ptr ν)) := do
  let nibling ← rbChild sibling dir.flip
  if ← isBlack nibling then
    let nibling2 ← rbChild sibling dir
    if ← isBlack nibling2 then
      -- Case 2
      rbSetColor sibling .red
      retreat 1
      return .again parent
    else
      -- Case 3
      rbSetColor nibling2 .black
      rbSetColor sibling .red
      let t ← rbRotate sibling dir.flip
      rbSetChild parent dir.flip t
      rbRemoveColorLast parent t sibling dir
  else rbRemoveColorLast parent sibling nibling dir

/-- Case 1 of `rbRemoveColor`: the path grows by one entry. -/
def rbRemoveColorLower (parent sibling : Ptr ν) (dir : Dir) : Program (State μ ν) (Ptr ν) := do
  rbSetColor sibling .black
  rbSetColor parent .red
  let t ← rbRotate parent dir
  link (← entryAt 1) t
  let cur := (← get).rp.cur
  let here ← entryAt 0
  writeEntry (cur + 1) fun _ => here
  writeEntry cur fun entry => { entry with parent := t }
  writeEntry cur fun entry => { entry with dir := dir }
  advance
  rbChild parent dir.flip

def rbRemoveColorRound (node : Ptr ν) : Program (State μ ν) (Turn (Ptr ν) (Ptr ν)) := do
  if (← isBlack node) ∧ node ≠ (← get).root then
    let entry ← entryAt 0
    let parent := entry.parent
    let dir := entry.dir
    let sibling ← rbChild parent dir.flip
    let sibling ← if (← rbColor sibling) = .red then rbRemoveColorLower parent sibling dir
      else pure sibling
    rbRemoveColorRest parent sibling dir
  else return .leave node

def rbRemoveColor (fuel : Nat) (node : Ptr ν) : Program (State μ ν) Unit := do
  match ← loop rbRemoveColorRound fuel node with
  | some x => rbSetColor (some x) .black
  | none => return ()

/-- One step down while there is a child: the walks of `rbRemove`, `rbIter` and
`rbIterNext`. -/
def walkRound (dir : Dir) (p : Ptr ν) : Program (State μ ν) (Turn (Ptr ν) (Ptr ν)) := do
  match ← rbChild p dir with
  | some q =>
    push p dir
    return .again (some q)
  | none => return .leave p

/-- The locals of `rbRemove` after the node was unlinked. -/
structure Unlinked (ν : Type) where
  transplanter : Ptr ν
  replacement : Ptr ν
  deletedColor : Color

/-- The successor of a node with two children takes its place, in the tree and
in the path entry `nodeRpe`. -/
def rbTakePlace (node successor : Ptr ν) (nodeRpe : Nat) : Program (State μ ν) (Unlinked ν) := do
  let deletedColor ← rbColor successor
  let child ← rbChild successor .right
  let entry ← entryAt 0
  -- The successor is not the right child: its own child takes its place.
  if entry.parent ≠ node then
    rbSetChild entry.parent entry.dir child
    rbCopyRightChild successor node
  rbCopyLeftChildColor successor node
  writeEntry nodeRpe fun entry => { entry with parent := successor }
  return ⟨successor, child, deletedColor⟩

/-- The part of `rbRemove` for a node with two children. -/
def rbTransplant (fuel : Nat) (node : Ptr ν) : Program (State μ ν) (Unlinked ν) := do
  push node .right
  -- The entry just pushed is patched when the successor is known.
  let nodeRpe := (← get).rp.cur
  let successor ← loop (walkRound .left) fuel (← rbChild node .right)
  rbTakePlace node successor nodeRpe

def rbUnlink (fuel : Nat) (node : Ptr ν) : Program (State μ ν) (Unlinked ν) := do
  let deletedColor ← rbColor node
  if (← rbChild node .left) = none then
    let transplanter ← rbChild node .right
    return ⟨transplanter, transplanter, deletedColor⟩
  else if (← rbChild node .right) = none then
    let transplanter ← rbChild node .left
    return ⟨transplanter, transplanter, deletedColor⟩
  else rbTransplant fuel node

def rbRemove (fuel : Nat) (node : Ptr ν) : Program (State μ ν) Unit := do
  let entry ← entryAt 0
  let unlinked ← rbUnlink fuel node
  link entry unlinked.transplanter
  if unlinked.deletedColor = .black then
    rbRemoveColor fuel unlinked.replacement

def rbIter (fuel : Nat) (dir : Dir) : Program (State μ ν) (Ptr ν) := do
  rbPathInit
  match (← get).root with
  | none => return none
  | some p => loop (walkRound dir) fuel (some p)

/-- One step up, until the step was made from a child in direction `dir ^ 1`. -/
def climbRound (dir : Dir) (_ : Unit) : Program (State μ ν) (Turn Unit (Ptr ν)) := do
  let entry ← entryAt 0
  match entry.parent with
  | none => return .leave none
  | some p =>
    retreat 1
    if entry.dir = dir.flip then return .leave (some p) else return .again ()

def rbIterNext (fuel : Nat) (node : Ptr ν) (dir : Dir) : Program (State μ ν) (Ptr ν) := do
  match node with
  | none => return none
  | some _ =>
    match ← rbChild node dir with
    | some p =>
      push node dir
      loop (walkRound dir.flip) fuel (some p)
    -- No child on this side: the next node is above.
    | none => loop (climbRound dir) fuel ()

def rbFirst (fuel : Nat) : Program (State μ ν) (Ptr ν) := rbIter fuel .left
def rbLast (fuel : Nat) : Program (State μ ν) (Ptr ν) := rbIter fuel .right
def rbNext (fuel : Nat) (node : Ptr ν) : Program (State μ ν) (Ptr ν) := rbIterNext fuel node .right
def rbPrev (fuel : Nat) (node : Ptr ν) : Program (State μ ν) (Ptr ν) := rbIterNext fuel node .left

/-- One comparison of `RB_INSERT`: the entry that was met, or the side of the
last node on which the new node belongs. -/
def rbInsertRound (cmp : ν → ν → Int) (node p : ν) :
    Program (State μ ν) (Turn ν (ν ⊕ Dir)) := do
  match sideOf (cmp node p) with
  | none => return .leave (.inl p)
  | some dir =>
    push (some p) dir
    match ← rbChild (some p) dir with
    | some q => return .again q
    | none => return .leave (.inr dir)

/-- The end of `rbInsert`, after the new node was linked in. -/
def rbInsertNew (fuel : Nat) (node : ν) : Program (State μ ν) (Ptr ν) := do
  rbSetLeftChildColor (some node) none .red
  rbSetRightChild (some node) none
  rbInsertColor fuel
  return some node

/-- `RB_GENERATE_INSERT` -/
def rbInsert (cmp : ν → ν → Int) (fuel : Nat) (node : ν) : Program (State μ ν) (Ptr ν) := do
  rbPathInit
  match (← get).root with
  | some p =>
    match ← loop (rbInsertRound cmp node) fuel p with
    -- An equal entry is returned, and the tree is left alone.
    | .inl ent => return some ent
    | .inr dir =>
      rbSetChild (← entryAt 0).parent dir (some node)
      rbInsertNew fuel node
  | none =>
    setRoot (some node)
    rbInsertNew fuel node

def rbFindRound (keyCmp : κ → ν → Int) (key : κ) (p : Ptr ν) :
    Program (State μ ν) (Turn (Ptr ν) (Ptr ν)) := do
  match p with
  | none => return .leave none
  | some ent =>
    match sideOf (keyCmp key ent) with
    | none => return .leave (some ent)
    | some dir =>
      push (some ent) dir
      return .again (← rbChild (some ent) dir)

/-- `RB_GENERATE_FIND` -/
def rbFind (keyCmp : κ → ν → Int) (fuel : Nat) (key : κ) : Program (State μ ν) (Ptr ν) := do
  rbPathInit
  loop (rbFindRound keyCmp key) fuel (← get).root

/-- `RB_GENERATE_REMOVE` -/
def rbRemoveKey (keyCmp : κ → ν → Int) (fuel : Nat) (key : κ) : Program (State μ ν) (Ptr ν) := do
  match ← rbFind keyCmp fuel key with
  | none => return none
  | some node =>
    rbRemove fuel (some node)
    return some node

end Embedlib.RbtreeCompact
