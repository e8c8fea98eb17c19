import Mathlib.Data.List.Range
import Mathlib.Logic.Function.Basic

/-! Segments of a buffer, and the moves that open and close a gap in one. -/

set_option autoImplicit false

namespace Embedlib.Library

variable {α : Type}

/-- The `count` slots from `start` on. -/
def segment (slots : Nat → α) (start count : Nat) : List α := (List.range' start count).map slots

section
variable {slots other : Nat → α} {start count : Nat}

@[simp] theorem segment_zero : segment slots start 0 = [] := rfl

theorem segment_succ : segment slots start (count + 1) = slots start :: segment slots (start + 1) count := by
  simp only [segment, List.range'_succ, List.map_cons]

@[simp] theorem length_segment : (segment slots start count).length = count := by
  simp only [segment, List.length_map, List.length_range']

theorem segment_append (slots : Nat → α) (start count more : Nat) :
    segment slots start count ++ segment slots (start + count) more = segment slots start (count + more) := by
  rw [segment, segment, ← List.map_append, List.range'_append_1, segment]

theorem segment_shift {first : Nat} (same : ∀ j < count, other (first + j) = slots (start + j)) :
    segment other first count = segment slots start count := by
  rw [segment, segment, List.range'_eq_map_range, List.range'_eq_map_range, List.map_map, List.map_map]
  exact List.map_congr_left fun j member => same j (List.mem_range.mp member)

theorem segment_congr (same : ∀ j, start ≤ j → j < start + count → other j = slots j) :
    segment other start count = segment slots start count :=
  segment_shift fun j less => same (start + j) (by omega) (by omega)

theorem mem_segment {x : α} :
    x ∈ segment slots start count ↔ ∃ j, start ≤ j ∧ j < start + count ∧ slots j = x := by
  simp only [segment, List.mem_map, List.mem_range'_1, and_assoc]

theorem segment_split {index : Nat} (inside : index < count) :
    segment slots start count = segment slots start index ++
      slots (start + index) :: segment slots (start + index + 1) (count - index - 1) := by
  rw [← segment_succ, segment_append]
  congr 1
  omega

theorem pairwise_segment {R : α → α → Prop} :
    (segment slots start count).Pairwise R ↔
      ∀ i j, start ≤ i → i < j → j < start + count → R (slots i) (slots j) := by
  induction count generalizing start with
  | zero =>
    refine ⟨fun _ i j low less high => ?_, fun _ => List.Pairwise.nil⟩
    omega
  | succ count ih =>
    rw [segment_succ, List.pairwise_cons, ih]
    constructor
    · rintro ⟨first, rest⟩ i j low less high
      by_cases here : i = start
      · subst here
        exact first _ (mem_segment.mpr ⟨j, by omega, by omega, rfl⟩)
      · exact rest i j (by omega) less (by omega)
    · refine fun all => ⟨fun x member => ?_, fun i j low less high => all i j (by omega) less (by omega)⟩
      obtain ⟨j, low, high, rfl⟩ := mem_segment.mp member
      exact all start j (Nat.le_refl _) low (by omega)

end

/-- The slots from `index` to `last - 1` moved up by one. -/
def raise (slots : Nat → α) (index last : Nat) (j : Nat) : α :=
  if index < j ∧ j ≤ last then slots (j - 1) else slots j

/-- The slots from `index + 1` to `last` moved down by one. -/
def lower (slots : Nat → α) (index last : Nat) (j : Nat) : α :=
  if index ≤ j ∧ j < last then slots (j + 1) else slots j

section
variable {slots : Nat → α} {index last : Nat}

@[simp] theorem raise_self : raise slots index index = slots := by
  funext j
  rw [raise, if_neg (by omega)]

@[simp] theorem lower_self : lower slots index index = slots := by
  funext j
  rw [lower, if_neg (by omega)]

theorem raise_succ (less : index ≤ last) :
    raise (Function.update slots (last + 1) (slots last)) index last = raise slots index (last + 1) := by
  funext j
  simp only [raise, Function.update_apply]
  grind

theorem lower_succ (less : index < last) :
    lower (Function.update slots index (slots (index + 1))) (index + 1) last = lower slots index last := by
  funext j
  simp only [lower, Function.update_apply]
  grind

theorem segment_raise (x : α) (inside : index ≤ last) :
    segment (Function.update (raise slots index last) index x) 0 (last + 1) =
      segment slots 0 index ++ x :: segment slots index (last - index) := by
  have below : index < last + 1 := by omega
  rw [segment_split below, Nat.zero_add, Function.update_self]
  congr 1
  · apply segment_congr
    intro j _ _
    rw [Function.update_of_ne (by omega), raise, if_neg (by omega)]
  · have rest : last + 1 - index - 1 = last - index := by omega
    rw [rest]
    refine congrArg (x :: ·) (segment_shift fun j less => ?_)
    rw [Function.update_of_ne (by omega), raise, if_pos (by omega)]
    congr 1
    omega

theorem segment_lower (inside : index ≤ last) :
    segment (lower slots index last) 0 last =
      segment slots 0 index ++ segment slots (index + 1) (last - index) := by
  have split : last = index + (last - index) := by omega
  rw [split, ← segment_append]
  congr 1
  · apply segment_congr
    intro j _ _
    rw [lower, if_neg (by omega)]
  · rw [Nat.add_sub_cancel_left]
    apply segment_shift
    intro j less
    rw [lower, if_pos (by omega)]
    congr 1
    omega

end

end Embedlib.Library
