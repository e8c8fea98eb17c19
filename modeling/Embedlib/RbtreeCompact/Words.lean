import Embedlib.RbtreeCompact.Operations

/-! Nodes of two raw words, as `rbtree_compact.h` stores them: the links are
addresses, and the lowest bit of the left word is the colour. -/

set_option autoImplicit false

namespace Embedlib.RbtreeCompact

open Library Rb

/-- Where the nodes are. `locate` is the cast of a word to a node pointer, and
may do anything on a word that is the address of no node. -/
structure Layout (ν : Type) (w : Nat) where
  address : ν → BitVec w
  locate : BitVec w → Ptr ν
  even : ∀ x, address x &&& 1#w = 0#w
  locate_address : ∀ x, locate (address x) = some x
  locate_zero : locate 0#w = none

/-- `RB_NODE`, with `rb_child_color` -/
structure RawNode (w : Nat) where
  childColor : Dir → BitVec w

def RawNode.set {w : Nat} (node : RawNode w) (dir : Dir) (word : BitVec w) : RawNode w :=
  ⟨fun d => if d = dir then word else node.childColor d⟩

def colorBit (w : Nat) : Color → BitVec w
  | .red => 0#w
  | .black => 1#w

/-- The colour of a word that is masked with `0x1`. -/
def bitColor {w : Nat} (word : BitVec w) : Color := if word = 0#w then .red else .black

section
variable {ν : Type} {w : Nat}

/-- The cast of a node pointer to a word. -/
def Layout.word (layout : Layout ν w) : Ptr ν → BitVec w
  | none => 0#w
  | some x => layout.address x

def Words (_layout : Layout ν w) : Type := ν → RawNode w

variable {layout : Layout ν w}

def Words.modify [DecidableEq ν] (mem : Words layout) (x : ν) (dir : Dir) (word : BitVec w) : Words layout :=
  fun y => if y = x then (mem x).set dir word else mem y

instance [DecidableEq ν] : NodeMemory (Words layout) ν where
  child mem x d := layout.locate ((mem x).childColor d &&& ~~~1#w)
  color mem x := bitColor ((mem x).childColor .left &&& 1#w)
  setChild mem x d p := mem.modify x d (layout.word p ||| ((mem x).childColor d &&& 1#w))
  setColor mem x c := mem.modify x .left (((mem x).childColor .left &&& ~~~1#w) ||| colorBit w c)
  setLeftChildColor mem x p c := mem.modify x .left (layout.word p ||| colorBit w c)
  copyLeftChildColor mem dest src := mem.modify dest .left ((mem src).childColor .left)
  setRightChild mem x p := mem.modify x .right (layout.word p)
  copyRightChild mem dest src := mem.modify dest .right ((mem src).childColor .right)

def Layout.view (layout : Layout ν w) (raw : RawNode w) : RbNode ν :=
  ⟨layout.locate (raw.childColor .left &&& ~~~1#w), layout.locate (raw.childColor .right &&& ~~~1#w),
    bitColor (raw.childColor .left &&& 1#w)⟩

def Words.records (mem : Words layout) : Records ν := fun x => layout.view (mem x)

/-- The left word is the address of the left child or the colour, the right word
is the address of the right child. -/
structure Layout.Encodes (layout : Layout ν w) (raw : RawNode w) (node : RbNode ν) : Prop where
  left_eq : raw.childColor .left = layout.word node.left ||| colorBit w node.color
  right_eq : raw.childColor .right = layout.word node.right

/-- The words of `x` hold nothing else than its record. -/
def Words.Exact (mem : Words layout) (x : ν) : Prop := layout.Encodes (mem x) (mem.records x)

end

/-! ### The bits of a word -/

section
variable {w : Nat} (v : BitVec w)

theorem mask_mask : v &&& ~~~1#w &&& ~~~1#w = v &&& ~~~1#w := by
  rw [BitVec.and_assoc, BitVec.and_self]

theorem low_low : v &&& 1#w &&& 1#w = v &&& 1#w := by rw [BitVec.and_assoc, BitVec.and_self]

theorem mask_low : v &&& ~~~1#w &&& 1#w = 0#w := by
  rw [BitVec.and_assoc, BitVec.not_and_self]
  exact BitVec.and_zero

theorem low_mask : v &&& 1#w &&& ~~~1#w = 0#w := by
  rw [BitVec.and_assoc, BitVec.and_not_self]
  exact BitVec.and_zero

theorem mask_or_low : v &&& ~~~1#w ||| v &&& 1#w = v := by
  rw [← BitVec.and_or_distrib_left, BitVec.not_or_self]
  exact BitVec.and_allOnes

theorem colorBit_low (c : Color) : colorBit w c &&& 1#w = colorBit w c := by
  cases c <;> simp [colorBit]

theorem colorBit_mask (c : Color) : colorBit w c &&& ~~~1#w = 0#w := by
  cases c <;> simp [colorBit]

theorem bitColor_colorBit {w : Nat} (positive : 0 < w) (c : Color) : bitColor (colorBit w c) = c := by
  cases c with
  | red => rfl
  | black =>
    have one : 1#w ≠ 0#w := by simpa using Nat.ne_of_gt positive
    exact if_neg one

theorem low_eq : v &&& 1#w = 0#w ∨ v &&& 1#w = 1#w := by
  have one : BitVec.setWidth w 1#1 = 1#w := BitVec.eq_of_toNat_eq (by simp)
  rw [BitVec.and_one_eq_setWidth_ofBool_getLsbD]
  cases v.getLsbD 0 with
  | false => exact .inl (by simp)
  | true => exact .inr one

theorem colorBit_bitColor : colorBit w (bitColor (v &&& 1#w)) = v &&& 1#w := by
  unfold bitColor
  split
  · rename_i zero
    exact zero.symm
  · rename_i other
    exact ((low_eq v).resolve_left other).symm

end

section
variable {ν : Type} {w : Nat} (layout : Layout ν w)

theorem Layout.width_pos {ν : Type} {w : Nat} (layout : Layout ν w) (x : ν) : 0 < w := by
  rcases Nat.eq_zero_or_pos w with rfl | positive
  -- The only word without bits is `NULL`, which is no address.
  · have found := layout.locate_address x
    rw [BitVec.of_length_zero (x := layout.address x), layout.locate_zero] at found
    cases found
  · exact positive

theorem Layout.word_low (p : Ptr ν) : layout.word p &&& 1#w = 0#w := by
  cases p with
  | none => exact BitVec.zero_and
  | some x => exact layout.even x

theorem Layout.word_mask (p : Ptr ν) : layout.word p &&& ~~~1#w = layout.word p := by
  have whole := mask_or_low (layout.word p)
  rw [layout.word_low, BitVec.or_zero] at whole
  exact whole

theorem Layout.locate_word (p : Ptr ν) : layout.locate (layout.word p) = p := by
  cases p with
  | none => exact layout.locate_zero
  | some x => exact layout.locate_address x

theorem Layout.address_injective : Function.Injective layout.address := by
  intro x y same
  have found := layout.locate_address x
  rw [same, layout.locate_address] at found
  exact (Option.some.inj found).symm

theorem Layout.address_ne_zero (x : ν) : layout.address x ≠ 0#w := by
  intro zero
  have found := layout.locate_address x
  rw [zero, layout.locate_zero] at found
  cases found

open Classical in
noncomputable def nodeAt (address : ν → BitVec w) (word : BitVec w) : Ptr ν :=
  if found : ∃ x, address x = word then some found.choose else none

theorem nodeAt_address {address : ν → BitVec w} (distinct : Function.Injective address) (x : ν) :
    nodeAt address (address x) = some x := by
  have found : ∃ y, address y = address x := ⟨x, rfl⟩
  simp only [nodeAt, dif_pos found, distinct found.choose_spec]

/-- Nodes may be anywhere at distinct even addresses other than `NULL`. -/
theorem exists_layout {address : ν → BitVec w} (distinct : Function.Injective address)
    (nonzero : ∀ x, address x ≠ 0#w) (even : ∀ x, address x &&& 1#w = 0#w) :
    ∃ layout : Layout ν w, layout.address = address := by
  have null : nodeAt address 0#w = none := dif_neg fun ⟨x, zero⟩ => nonzero x zero
  exact ⟨⟨address, nodeAt address, even, nodeAt_address distinct, null⟩, rfl⟩

end

/-! ### The accessors -/

section
variable {ν : Type} {w : Nat} {layout : Layout ν w} {raw : RawNode w}

theorem view_set_left (v : BitVec w) : layout.view (raw.set .left v) =
    { layout.view raw with left := layout.locate (v &&& ~~~1#w), color := bitColor (v &&& 1#w) } := rfl

theorem view_set_right (v : BitVec w) : layout.view (raw.set .right v) =
    { layout.view raw with right := layout.locate (v &&& ~~~1#w) } := rfl

theorem locate_or {p : Ptr ν} {bit : BitVec w} (low : bit &&& ~~~1#w = 0#w) :
    layout.locate ((layout.word p ||| bit) &&& ~~~1#w) = p := by
  rw [BitVec.and_or_distrib_right, layout.word_mask, low, BitVec.or_zero, layout.locate_word]

theorem word_or_low (p : Ptr ν) (bit : BitVec w) : (layout.word p ||| bit) &&& 1#w = bit &&& 1#w := by
  rw [BitVec.and_or_distrib_right, layout.word_low, BitVec.zero_or]

theorem view_setChild (d : Dir) (p : Ptr ν) :
    layout.view (raw.set d (layout.word p ||| (raw.childColor d &&& 1#w))) = (layout.view raw).setChild p d := by
  cases d with
  | left =>
    rw [view_set_left, locate_or (low_mask _), word_or_low, low_low]
    rfl
  | right =>
    rw [view_set_right, locate_or (low_mask _)]
    rfl

theorem view_setColor (x : ν) (c : Color) :
    layout.view (raw.set .left ((raw.childColor .left &&& ~~~1#w) ||| colorBit w c)) =
      { layout.view raw with color := c } := by
  rw [view_set_left, BitVec.and_or_distrib_right, BitVec.and_or_distrib_right, mask_mask, mask_low, colorBit_mask,
    colorBit_low, BitVec.or_zero, BitVec.zero_or, bitColor_colorBit (layout.width_pos x)]
  rfl

theorem view_setLeftChildColor (x : ν) (p : Ptr ν) (c : Color) :
    layout.view (raw.set .left (layout.word p ||| colorBit w c)) =
      { layout.view raw with left := p, color := c } := by
  rw [view_set_left, locate_or (colorBit_mask c), word_or_low, colorBit_low,
    bitColor_colorBit (layout.width_pos x)]

theorem view_setRightChild (p : Ptr ν) :
    layout.view (raw.set .right (layout.word p)) = { layout.view raw with right := p } := by
  rw [view_set_right, layout.word_mask, layout.locate_word]

theorem Layout.Encodes.view_eq {node : RbNode ν} (encodes : layout.Encodes raw node) (x : ν) :
    layout.view raw = node := by
  rw [Layout.view, encodes.left_eq, encodes.right_eq, locate_or (colorBit_mask _), word_or_low, colorBit_low,
    bitColor_colorBit (layout.width_pos x), layout.word_mask, layout.locate_word]

variable [DecidableEq ν] {mem : Words layout} {x : ν}

theorem Words.modify_self (d : Dir) (v : BitVec w) : mem.modify x d v x = (mem x).set d v :=
  if_pos rfl

theorem Words.modify_of_ne {y : ν} (other : y ≠ x) (d : Dir) (v : BitVec w) : mem.modify x d v y = mem y :=
  if_neg other

theorem words_modify {d : Dir} {v : BitVec w} {change : RbNode ν → RbNode ν}
    (same : layout.view ((mem x).set d v) = change (layout.view (mem x))) :
    (mem.modify x d v).records = mem.records.modify x change := by
  funext y
  by_cases here : y = x
  · subst here
    rw [Words.records, Words.modify_self, same, Records.modify, Function.update_self]
    rfl
  · rw [Words.records, Words.modify_of_ne here, Records.modify, Function.update_of_ne here]
    rfl

theorem words_child (d : Dir) : NodeMemory.child mem x d = NodeMemory.child mem.records x d := by
  cases d <;> rfl

theorem words_setChild (d : Dir) (p : Ptr ν) :
    (NodeMemory.setChild mem x d p).records = NodeMemory.setChild mem.records x d p :=
  words_modify (view_setChild d p)

theorem words_setColor (c : Color) :
    (NodeMemory.setColor mem x c).records = NodeMemory.setColor mem.records x c :=
  words_modify (view_setColor x c)

theorem words_setLeftChildColor (p : Ptr ν) (c : Color) :
    (NodeMemory.setLeftChildColor mem x p c).records = NodeMemory.setLeftChildColor mem.records x p c :=
  words_modify (view_setLeftChildColor x p c)

theorem words_copyLeftChildColor (y : ν) :
    (NodeMemory.copyLeftChildColor mem x y).records = NodeMemory.copyLeftChildColor mem.records x y :=
  words_modify rfl

theorem words_setRightChild (p : Ptr ν) :
    (NodeMemory.setRightChild mem x p).records = NodeMemory.setRightChild mem.records x p :=
  words_modify (view_setRightChild p)

theorem words_copyRightChild (y : ν) :
    (NodeMemory.copyRightChild mem x y).records = NodeMemory.copyRightChild mem.records x y :=
  words_modify rfl

end

/-! ### Words that hold nothing but a record -/

section
variable {ν : Type} {w : Nat} {layout : Layout ν w} {raw : RawNode w} {node : RbNode ν}

theorem Layout.Encodes.set_left (encodes : layout.Encodes raw node) {v : BitVec w} {p : Ptr ν} {c : Color}
    (left : v = layout.word p ||| colorBit w c) :
    layout.Encodes (raw.set .left v) { node with left := p, color := c } := ⟨left, encodes.right_eq⟩

theorem Layout.Encodes.set_right (encodes : layout.Encodes raw node) {v : BitVec w} {p : Ptr ν}
    (right : v = layout.word p) : layout.Encodes (raw.set .right v) { node with right := p } :=
  ⟨encodes.left_eq, right⟩

variable {mem : Words layout} {x y z : ν}

theorem exact_of_encodes {n : RbNode ν} (encodes : layout.Encodes (mem x) n) : mem.Exact x := by
  unfold Words.Exact Words.records
  rw [encodes.view_eq x]
  exact encodes

variable [DecidableEq ν]

theorem exact_modify {d : Dir} {v : BitVec w} (exact : mem.Exact y)
    (here : mem.Exact x → ∃ node, layout.Encodes ((mem x).set d v) node) : (mem.modify x d v).Exact y := by
  by_cases same : y = x
  · subst same
    obtain ⟨node, encodes⟩ := here exact
    apply exact_of_encodes (n := node)
    rw [Words.modify_self]
    exact encodes
  · unfold Words.Exact Words.records at exact ⊢
    rw [Words.modify_of_ne same]
    exact exact

theorem exact_setChild (exact : mem.Exact y) (d : Dir) (p : Ptr ν) :
    (NodeMemory.setChild mem x d p).Exact y := by
  apply exact_modify exact
  intro here
  cases d with
  | left => exact ⟨_, here.set_left (congrArg _ (colorBit_bitColor _).symm)⟩
  -- The source keeps the lowest bit of the right word as well, and it is zero.
  | right =>
    refine ⟨_, here.set_right (p := p) ?_⟩
    rw [here.right_eq, layout.word_low, BitVec.or_zero]

theorem exact_setColor (exact : mem.Exact y) (c : Color) : (NodeMemory.setColor mem x c).Exact y := by
  refine exact_modify exact fun here => ⟨_, here.set_left (p := (mem.records x).left) (c := c) ?_⟩
  rw [here.left_eq, BitVec.and_or_distrib_right, layout.word_mask, colorBit_mask, BitVec.or_zero]

theorem exact_setLeftChildColor (exact : mem.Exact y) (p : Ptr ν) (c : Color) :
    (NodeMemory.setLeftChildColor mem x p c).Exact y :=
  exact_modify exact fun here => ⟨_, here.set_left rfl⟩

theorem exact_copyLeftChildColor (exact : mem.Exact y) (source : mem.Exact z) :
    (NodeMemory.copyLeftChildColor mem x z).Exact y :=
  exact_modify exact fun here => ⟨_, here.set_left source.left_eq⟩

theorem exact_setRightChild (exact : mem.Exact y) (p : Ptr ν) : (NodeMemory.setRightChild mem x p).Exact y :=
  exact_modify exact fun here => ⟨_, here.set_right rfl⟩

theorem exact_copyRightChild (exact : mem.Exact y) (source : mem.Exact z) :
    (NodeMemory.copyRightChild mem x z).Exact y :=
  exact_modify exact fun here => ⟨_, here.set_right source.right_eq⟩

theorem exact_new (mem : Words layout) (x : ν) (p q : Ptr ν) (c : Color) :
    (NodeMemory.setRightChild (NodeMemory.setLeftChildColor mem x p c) x q).Exact x := by
  have words : NodeMemory.setRightChild (NodeMemory.setLeftChildColor mem x p c) x q x =
      ((mem x).set .left (layout.word p ||| colorBit w c)).set .right (layout.word q) := by
    show (mem.modify x .left _).modify x .right _ x = _
    rw [Words.modify_self, Words.modify_self]
  apply exact_of_encodes (n := ⟨p, q, c⟩)
  rw [words]
  exact ⟨rfl, rfl⟩

end

end Embedlib.RbtreeCompact
