import Embedlib.Library.OrderedMap
import Mathlib.Data.Int.Order.Basic

/-! What the headers of the two red-black trees have in common: the generated
calls and the comparators they are generated with. -/

set_option autoImplicit false

namespace Embedlib.Rb

open Library

variable {ν δ κ : Type}

/-- `RB_NODE *`: `none` is `NULL`. Containers are identified with the nodes
embedded in them. -/
abbrev Ptr (ν : Type) := Option ν

/-- The branches on the result `c` of a comparison: `c < 0` is left, `c > 0` is
right, else the entry itself. -/
def sideOf (c : Int) : Option Dir :=
  if c < 0 then some .left else if c > 0 then some .right else none

/-- The comparators given to `RB_GEN`, on the contents of the containers; both
agree with the order of the keys. -/
structure Comparators (δ κ : Type) [LinearOrder κ] where
  keyOf : δ → κ
  cmp : δ → δ → Int
  keyCmp : κ → δ → Int
  cmp_neg : ∀ a b, cmp a b < 0 ↔ keyOf a < keyOf b
  cmp_pos : ∀ a b, 0 < cmp a b ↔ keyOf b < keyOf a
  keyCmp_neg : ∀ k b, keyCmp k b < 0 ↔ k < keyOf b
  keyCmp_pos : ∀ k b, 0 < keyCmp k b ↔ keyOf b < k

/-- `A_NODE_CMP` and `A_NODE_KEY_CMP` of the tests, in exact integers. -/
def aNode : Comparators Int Int where
  keyOf val := val
  cmp n1 n2 := n1 - n2
  keyCmp key n := key - n
  cmp_neg := difference_neg
  cmp_pos := difference_pos
  keyCmp_neg := difference_neg
  keyCmp_pos := difference_pos

/-- `RB_INSERT` of a container whose content was set before, `RB_FIND`, `RB_REMOVE`. -/
inductive Call (ν δ κ : Type) where
  | insert (node : ν) (content : δ)
  | find (key : κ)
  | remove (key : κ)
  deriving Repr

end Embedlib.Rb
