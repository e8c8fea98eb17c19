import Embedlib.RbtreeCompact.Words
import Embedlib.Rbtree.Nodes
import Embedlib.Library.Simulation

/-! Nodes as `rbtree.h` stores them: the parent and the colour share one raw word,
the children are plain pointers. -/

set_option autoImplicit false

namespace Embedlib.Rbtree.Tagged

open Library Rb
open RbtreeCompact (Layout colorBit bitColor locate_or word_or_low colorBit_mask colorBit_low colorBit_bitColor
  bitColor_colorBit mask_mask mask_low)

variable {ν α : Type} {w : Nat}

/-- `RB_NODE`, with `rb_parent_color` -/
structure RawNode (ν : Type) (w : Nat) where
  parentColor : BitVec w
  left : Ptr ν
  right : Ptr ν

def RawNode.child (node : RawNode ν w) : Dir → Ptr ν
  | .left => node.left
  | .right => node.right

def RawNode.setChild (node : RawNode ν w) (p : Ptr ν) : Dir → RawNode ν w
  | .left => { node with left := p }
  | .right => { node with right := p }

/-- What an operation works on: the words of all nodes and `root->rb_root`. -/
structure State (layout : Layout ν w) where
  mem : ν → RawNode ν w
  root : Ptr ν

variable {layout : Layout ν w}

def deref (p : Ptr ν) : Program (State layout) ν :=
  match p with
  | some x => pure x
  | none => fault .nullPointer

def rbParent (node : Ptr ν) : Program (State layout) (Ptr ν) := do
  let x ← deref node
  return layout.locate (((← get).mem x).parentColor &&& ~~~1#w)

def rbChild (node : Ptr ν) (dir : Dir) : Program (State layout) (Ptr ν) := do
  let x ← deref node
  return ((← get).mem x).child dir

def rbColor (node : Ptr ν) : Program (State layout) Color := do
  let x ← deref node
  return bitColor (((← get).mem x).parentColor &&& 1#w)

/-- `root->rb_root = p` -/
def setRoot (p : Ptr ν) : Program (State layout) Unit := modify fun s => { s with root := p }

variable [DecidableEq ν]

def change (node : Ptr ν) (f : RawNode ν w → RawNode ν w) : Program (State layout) Unit := do
  let x ← deref node
  modify fun s => { s with mem := Function.update s.mem x (f (s.mem x)) }

def rbSetParent (node parent : Ptr ν) : Program (State layout) Unit :=
  change node fun n => { n with parentColor := layout.word parent ||| (n.parentColor &&& 1#w) }

def rbSetParentColor (node parent : Ptr ν) (color : Color) : Program (State layout) Unit :=
  change node fun n => { n with parentColor := layout.word parent ||| (colorBit w color &&& 1#w) }

def rbSetChild (node : Ptr ν) (dir : Dir) (child : Ptr ν) : Program (State layout) Unit :=
  change node fun n => n.setChild child dir

def rbSetColor (node : Ptr ν) (color : Color) : Program (State layout) Unit :=
  change node fun n => { n with parentColor := (n.parentColor &&& ~~~1#w) ||| colorBit w color }

/-- `dest->rb_parent_color = src->rb_parent_color` -/
def copyParentColor (dest src : Ptr ν) : Program (State layout) Unit := do
  let y ← deref src
  let word := ((← get).mem y).parentColor
  change dest fun n => { n with parentColor := word }

/-! ### The words read into records -/

/-- The words of a node, read into a record. -/
def view (layout : Layout ν w) (raw : RawNode ν w) : RbNode ν :=
  ⟨layout.locate (raw.parentColor &&& ~~~1#w), bitColor (raw.parentColor &&& 1#w), raw.left, raw.right⟩

/-- The word holds nothing else than the parent and the colour. -/
def Exact (layout : Layout ν w) (raw : RawNode ν w) : Prop :=
  raw.parentColor = layout.word (view layout raw).parent ||| colorBit w (view layout raw).color

def State.records (s : State layout) : Rbtree.State ν := ⟨fun x => view layout (s.mem x), s.root⟩

def ExactOn (xs : List ν) (s : State layout) : Prop := ∀ x ∈ xs, Exact layout (s.mem x)

/-- On raw words the program does what it does on records, and keeps the words of `xs` exact. -/
abbrev Agrees (layout : Layout ν w) (xs : List ν) (raw : Program (State layout) α)
    (record : Program (Rbtree.State ν) α) : Prop :=
  Simulates State.records (ExactOn xs) raw record

omit [DecidableEq ν] in
theorem view_word (x : ν) (raw : RawNode ν w) (p : Ptr ν) (c : Color) :
    view layout { raw with parentColor := layout.word p ||| colorBit w c } =
      (view layout raw).setParentColor p c := by
  simp only [view, RbNode.setParentColor]
  rw [locate_or (colorBit_mask c), word_or_low,
    colorBit_low, bitColor_colorBit (layout.width_pos x)]

omit [DecidableEq ν] in
theorem exact_word (x : ν) (raw : RawNode ν w) (p : Ptr ν) (c : Color) :
    Exact layout { raw with parentColor := layout.word p ||| colorBit w c } := by
  rw [Exact, view_word x]
  rfl

variable {xs : List ν}

omit [DecidableEq ν] in
theorem agrees_deref (p : Ptr ν) : Agrees layout xs (deref p) (Rbtree.deref p) := by
  cases p with
  | none => exact simulates_fault _
  | some x => exact simulates_pure x

omit [DecidableEq ν] in
theorem agrees_setRoot (p : Ptr ν) : Agrees layout xs (setRoot p) (Rbtree.setRoot p) :=
  simulates_modify (fun _ => rfl) fun _ exact => exact

omit [DecidableEq ν] in
theorem agrees_rbParent (p : Ptr ν) : Agrees layout xs (rbParent p) (Rbtree.rbParent p) :=
  (agrees_deref p).bind fun _ => simulates_get fun _ => simulates_pure _

omit [DecidableEq ν] in
theorem agrees_rbChild (p : Ptr ν) (d : Dir) : Agrees layout xs (rbChild p d) (Rbtree.rbChild p d) :=
  (agrees_deref p).bind fun x => simulates_get fun s => by
    have same : (s.records.mem x).child d = (s.mem x).child d := by cases d <;> rfl
    rw [same]
    exact simulates_pure _

omit [DecidableEq ν] in
theorem agrees_rbColor (p : Ptr ν) : Agrees layout xs (rbColor p) (Rbtree.rbColor p) :=
  (agrees_deref p).bind fun _ => simulates_get fun _ => simulates_pure _

theorem agrees_change (p : Ptr ν) {f : RawNode ν w → RawNode ν w} {f' : RbNode ν → RbNode ν}
    (same : ν → ∀ raw, view layout (f raw) = f' (view layout raw))
    (kept : ν → ∀ raw, Exact layout raw → Exact layout (f raw)) :
    Agrees layout xs (change p f) (Rbtree.change p f') :=
  (agrees_deref p).bind fun x => by
    refine simulates_modify (fun s => ?_) fun s exact y member => ?_
    · simp only [State.records, Records.modify]
      congr 1
      funext y
      by_cases here : y = x
      · subst here
        simp only [Function.update_self]
        exact same y _
      · simp only [Function.update_of_ne here]
    · by_cases here : y = x
      · subst here
        simpa only [Function.update_self] using kept y _ (exact y member)
      · simpa only [Function.update_of_ne here] using exact y member

theorem agrees_rbSetParent (p parent : Ptr ν) :
    Agrees layout xs (rbSetParent p parent) (Rbtree.rbSetParent p parent) := by
  have word (raw : RawNode ν w) : layout.word parent ||| (raw.parentColor &&& 1#w) =
      layout.word parent ||| colorBit w (view layout raw).color :=
    congrArg _ (colorBit_bitColor _).symm
  refine agrees_change p (fun x raw => ?_) fun x raw _ => ?_
  · rw [word, view_word x]
    rfl
  · rw [word]
    exact exact_word x raw parent _

theorem agrees_rbSetParentColor (p parent : Ptr ν) (c : Color) :
    Agrees layout xs (rbSetParentColor p parent c) (Rbtree.rbSetParentColor p parent c) := by
  refine agrees_change p (fun x raw => ?_) fun x raw _ => ?_
  · rw [colorBit_low, view_word x]
  · rw [colorBit_low]
    exact exact_word x raw parent c

theorem agrees_rbSetChild (p : Ptr ν) (d : Dir) (q : Ptr ν) :
    Agrees layout xs (rbSetChild p d q) (Rbtree.rbSetChild p d q) := by
  refine agrees_change p (fun _ raw => ?_) fun _ raw exact => ?_
  · cases d <;> rfl
  · cases d <;> exact exact

theorem agrees_rbSetColor (p : Ptr ν) (c : Color) :
    Agrees layout xs (rbSetColor p c) (Rbtree.rbSetColor p c) := by
  refine agrees_change p (fun x raw => ?_) fun x raw exact => ?_
  · simp only [view, RbNode.setColor, RbNode.setParentColor, BitVec.and_or_distrib_right,
      mask_mask, mask_low, colorBit_mask, colorBit_low,
      BitVec.or_zero, BitVec.zero_or, bitColor_colorBit (layout.width_pos x)]
  · have link : raw.parentColor &&& ~~~1#w = layout.word (view layout raw).parent := by
      conv_lhs => rw [exact]
      rw [BitVec.and_or_distrib_right, layout.word_mask, colorBit_mask, BitVec.or_zero]
    rw [link]
    exact exact_word x raw _ c

/-- The copied word is exact if that of the source is. -/
theorem agrees_copyParentColor (p : Ptr ν) {x : ν} (member : x ∈ xs) :
    Agrees layout xs (copyParentColor p (some x)) (Rbtree.copyParentColor p (some x)) := by
  intro s exact
  have source := exact x member
  have copied : Agrees layout xs (change p fun n => { n with parentColor := (s.mem x).parentColor })
      (Rbtree.change p fun n => n.setParentColor (s.records.mem x).parent (s.records.mem x).color) := by
    refine agrees_change p (fun _ _ => rfl) fun y raw _ => ?_
    rw [source]
    exact exact_word y raw _ _
  exact copied s exact

end Embedlib.Rbtree.Tagged
