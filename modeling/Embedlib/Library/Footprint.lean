import Embedlib.Library.LinkedTree
import Mathlib.Data.Set.Insert

/-! Sets of nodes that pointers do not lead out of. -/

set_option autoImplicit false

namespace Embedlib.Library

variable {ν ρ : Type}

/-- A pointer that leads nowhere else than into `own`. -/
def Among (own : Set ν) (p : Option ν) : Prop := ∀ x, p = some x → x ∈ own

def AmongBoth (own : Set ν) (both : Option ν × Option ν) : Prop := Among own both.1 ∧ Among own both.2

variable {own : Set ν}

theorem among_none : Among own none := nofun

theorem among_some {x : ν} (member : x ∈ own) : Among own (some x) := by
  rintro _ ⟨⟩
  exact member

theorem Among.mono {wider : Set ν} {p : Option ν} (among : Among own p) (within : own ⊆ wider) :
    Among wider p :=
  fun x found => within (among x found)

theorem Shows.among {record : Option ν → Color → Option ν → Option ν → ρ} {heap : ν → ρ} {root : Option ν}
    {t : ColorTree ν} (shows : Shows record heap root t) :
    Among {y | y ∈ t.toList} root ∧ ∀ x ∈ t.toList, ∃ up c left right, heap x = record up c left right ∧
      Among {y | y ∈ t.toList} up ∧ Among {y | y ∈ t.toList} left ∧ Among {y | y ∈ t.toList} right := by
  refine ⟨fun x top => ColorTree.root_mem (shows.root_eq.symm.trans top), fun x member => ?_⟩
  obtain ⟨up, c, left, right, here, ups, lefts, rights⟩ := shows.holds.links member
  exact ⟨up, c, left, right, here, fun y found => (ups y found).resolve_left nofun, lefts, rights⟩

end Embedlib.Library
