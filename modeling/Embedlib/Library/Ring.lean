import Embedlib.Library.Slots
import Mathlib.Data.Nat.ModEq

/-! Buffers read around from a slot, as if unrolled. -/

set_option autoImplicit false

namespace Embedlib.Library

variable {α : Type}

/-- The slot `j` steps around from `front`. -/
def around (size front j : Nat) : Nat := (front + j) % size

/-- The buffer as seen from `front`. -/
def unroll (slots : Nat → α) (size front j : Nat) : α := slots (around size front j)

section
variable {size front i j : Nat}

theorem around_lt (some : 0 < size) : around size front j < size := Nat.mod_lt _ some

theorem around_zero (inside : front < size) : around size front 0 = front := Nat.mod_eq_of_lt inside

theorem around_succ : (around size front j + 1) % size = around size front (j + 1) := by
  rw [around, around, Nat.mod_add_mod, Nat.add_assoc]

theorem around_next : around size ((front + 1) % size) j = around size front (j + 1) := by
  rw [around, around, Nat.mod_add_mod, Nat.add_right_comm, Nat.add_assoc]

theorem around_inj (left : i < size) (right : j < size) :
    around size front i = around size front j ↔ i = j := by
  constructor
  · intro same
    have equal : i ≡ j [MOD size] := Nat.ModEq.add_left_cancel' front same
    rwa [Nat.ModEq, Nat.mod_eq_of_lt left, Nat.mod_eq_of_lt right] at equal
  · exact fun same => same ▸ rfl

/-- The end of a view with room is none of its slots, except that of a full turn
from the first. -/
theorem around_eq_end {len : Nat} (first : 0 < i) (inside : i ≤ len) (fits : len ≤ size) :
    around size front i = around size front len ↔ i = len := by
  constructor
  · intro same
    rcases Nat.lt_or_ge len size with short | full
    · exact (around_inj (inside.trans_lt short) short).mp same
    · obtain rfl : len = size := by omega
      rcases Nat.lt_or_eq_of_le inside with less | rfl
      · have turn : around len front len = around len front 0 := by
          rw [around, around, Nat.add_mod_right, Nat.add_zero]
        rw [turn, around_inj less (by omega)] at same
        omega
      · rfl
  · exact fun same => same ▸ rfl

variable {slots : Nat → α}

theorem unroll_update {m : Nat} (inside : m < size) (here : j < size) (x : α) :
    unroll (Function.update slots (around size front m) x) size front j =
      Function.update (unroll slots size front) m x j := by
  by_cases same : j = m
  · subst same
    rw [unroll, Function.update_self, Function.update_self]
  · rw [unroll, Function.update_of_ne same, Function.update_of_ne fun equal => same ((around_inj here inside).mp equal)]
    rfl

theorem unroll_next : unroll slots size ((front + 1) % size) j = unroll slots size front (j + 1) := by
  rw [unroll, around_next, unroll]

theorem segment_unroll_push {len : Nat} (room : len < size) (x : α) :
    segment (unroll (Function.update slots (around size front len) x) size front) 0 (len + 1) =
      segment (unroll slots size front) 0 len ++ [x] := by
  rw [← segment_append _ _ _ 1, segment_succ, segment_zero, Nat.zero_add, unroll_update room room, Function.update_self]
  refine congrArg (· ++ [x]) (segment_congr fun j _ less => ?_)
  rw [unroll_update room (by omega), Function.update_of_ne (by omega)]

theorem segment_unroll_pop (inside : front < size) {len : Nat} :
    segment (unroll slots size front) 0 (len + 1) =
      slots front :: segment (unroll slots size ((front + 1) % size)) 0 len := by
  rw [segment_succ, unroll, around_zero inside]
  refine congrArg (slots front :: ·) (segment_shift fun j _ => ?_)
  rw [unroll_next, Nat.zero_add, Nat.zero_add, Nat.add_comm]

end

theorem lower_congr {f g : Nat → α} {size index last : Nat} (same : ∀ j < size, f j = g j)
    (inside : last < size) {j : Nat} (here : j < size) : lower f index last j = lower g index last j := by
  unfold lower
  split
  · exact same (j + 1) (by omega)
  · exact same j here

end Embedlib.Library
