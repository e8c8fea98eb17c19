import Embedlib.Library.SearchTree
import Mathlib.Order.Lattice

/-! Finite maps as sequences sorted by key, and search in a tree of such a sequence. -/

set_option autoImplicit false

namespace Embedlib.Library

variable {α κ : Type} [LinearOrder κ]

theorem difference_neg (a b : Int) : a - b < 0 ↔ a < b := by omega

theorem difference_pos (a b : Int) : 0 < a - b ↔ b < a := by omega

/-- The elements of `l`, in increasing key order, are the entries of `map`. -/
structure Lists (key : α → κ) (map : κ → Option α) (l : List α) : Prop where
  sorted : l.Pairwise fun a b => key a < key b
  entries : ∀ k x, map k = some x ↔ x ∈ l ∧ key x = k

/-- Every key of `a` is below `k`, every key of `b` above it. -/
def Brackets (key : α → κ) (k : κ) (a b : List α) : Prop :=
  (∀ y ∈ a, key y < k) ∧ ∀ y ∈ b, k < key y

section
variable {key : α → κ} {map : κ → Option α} {l a b : List α} {x : α} {k : κ}

theorem lists_nil : Lists key (fun _ => none) [] :=
  ⟨List.Pairwise.nil, by simp⟩

theorem Lists.mem_iff (lists : Lists key map l) : x ∈ l ↔ map (key x) = some x := by
  rw [lists.entries, and_iff_left rfl]

theorem Lists.absent (lists : Lists key map l) : map k = none ↔ ∀ x ∈ l, key x ≠ k := by
  constructor
  · intro none x member same
    rw [(lists.entries k x).mpr ⟨member, same⟩] at none
    cases none
  · intro different
    cases entry : map k with
    | none => rfl
    | some x =>
      obtain ⟨member, same⟩ := (lists.entries k x).mp entry
      exact absurd same (different x member)

theorem Lists.congr_key {key' : α → κ} (lists : Lists key map l)
    (same : ∀ x ∈ l, key' x = key x) : Lists key' map l where
  sorted := lists.sorted.imp_of_mem fun left right less => by rwa [same _ left, same _ right]
  entries k x := by
    rw [lists.entries k x]
    exact and_congr_right fun member => by rw [same x member]

theorem Lists.brackets (lists : Lists key map (a ++ x :: b)) : Brackets key (key x) a b := by
  obtain ⟨_, right, across⟩ := List.pairwise_append.mp lists.sorted
  exact ⟨fun y member => across y member x (by simp), (List.pairwise_cons.mp right).1⟩

theorem Lists.findIdx?_eq (lists : Lists key map (a ++ x :: b)) :
    (a ++ x :: b).findIdx? (fun y => key y = key x) = some a.length := by
  have before : a.findIdx? (fun y => decide (key y = key x)) = none := by
    rw [List.findIdx?_eq_none_iff]
    intro y member
    simpa using (lists.brackets.1 y member).ne
  rw [List.findIdx?_append, before, List.findIdx?_cons]
  simp

theorem Lists.insert (lists : Lists key map (a ++ b)) (brackets : Brackets key (key x) a b) :
    Lists key (Function.update map (key x) (some x)) (a ++ x :: b) where
  sorted := by
    obtain ⟨left, right, across⟩ := List.pairwise_append.mp lists.sorted
    refine List.pairwise_append.mpr ⟨left, List.pairwise_cons.mpr ⟨brackets.2, right⟩, ?_⟩
    intro y inLeft z inRight
    rcases List.mem_cons.mp inRight with rfl | inRight
    · exact brackets.1 y inLeft
    · exact across y inLeft z inRight
  entries k y := by
    by_cases here : k = key x
    · subst here
      simp only [Function.update_self, Option.some.injEq, List.mem_append, List.mem_cons]
      constructor
      · rintro rfl; exact ⟨.inr (.inl rfl), rfl⟩
      · rintro ⟨member | rfl | member, same⟩
        · exact absurd same (brackets.1 y member).ne
        · rfl
        · exact absurd same (brackets.2 y member).ne'
    · rw [Function.update_of_ne here, lists.entries]
      simp only [List.mem_append, List.mem_cons]
      apply and_congr_left
      intro same
      have other : y ≠ x := fun same' => here (same ▸ same' ▸ rfl)
      simp [other]

theorem Lists.erase (lists : Lists key map (a ++ x :: b)) :
    Lists key (Function.update map (key x) none) (a ++ b) where
  sorted := by
    obtain ⟨left, right, across⟩ := List.pairwise_append.mp lists.sorted
    refine List.pairwise_append.mpr ⟨left, (List.pairwise_cons.mp right).2, ?_⟩
    exact fun y inLeft z inRight => across y inLeft z (List.mem_cons_of_mem x inRight)
  entries k y := by
    have brackets := lists.brackets
    by_cases here : k = key x
    · subst here
      simp only [Function.update_self, List.mem_append]
      constructor
      · intro impossible; cases impossible
      · rintro ⟨member | member, same⟩
        · exact absurd same (brackets.1 y member).ne
        · exact absurd same (brackets.2 y member).ne'
    · rw [Function.update_of_ne here, lists.entries]
      simp only [List.mem_append, List.mem_cons]
      apply and_congr_left
      intro same
      have other : y ≠ x := fun same' => here (same ▸ same' ▸ rfl)
      simp [other]

end

/-! ### Search -/

/-- The side of an element on which the key `k` belongs. -/
def toward (key : α → κ) (k : κ) (x : α) : Option Dir :=
  if k < key x then some .left else if key x < k then some .right else none

section
variable {key : α → κ} {k : κ}

theorem toward_none {x : α} : toward key k x = none ↔ key x = k := by
  unfold toward
  split
  · rename_i less; simp [less.ne']
  · split
    · rename_i more; simp [more.ne]
    · rename_i notLess notMore
      simp [le_antisymm (not_lt.mp notLess) (not_lt.mp notMore)]

theorem toward_left {x : α} : toward key k x = some .left ↔ k < key x := by
  unfold toward
  split
  · simp_all
  · split <;> simp_all

theorem toward_right {x : α} : toward key k x = some .right ↔ key x < k := by
  unfold toward
  split
  · rename_i less; simp [less.le]
  · split <;> simp_all

theorem descend_brackets (sp : Spine α) {t : ColorTree α}
    (sorted : t.toList.Pairwise fun a b => key a < key b) (brackets : Brackets key k sp.before sp.after) :
    Brackets key k (sp.descend (toward key k) t).1.before (sp.descend (toward key k) t).1.after := by
  fun_induction Spine.descend (toward key k) sp t with
  | case1 => exact brackets
  | case2 => exact brackets
  | case3 sp c l x r left ih =>
    obtain ⟨leftSorted, rest, _⟩ := List.pairwise_append.mp sorted
    have less := toward_left.mp left
    refine ih leftSorted ⟨by simpa [Spine.before] using brackets.1, ?_⟩
    intro y member
    simp only [Spine.after, List.cons_append, List.mem_cons, List.mem_append] at member
    rcases member with rfl | member | member
    · exact less
    · exact less.trans ((List.pairwise_cons.mp rest).1 y member)
    · exact brackets.2 y member
  | case4 sp c l x r right ih =>
    obtain ⟨_, rest, across⟩ := List.pairwise_append.mp sorted
    have more := toward_right.mp right
    refine ih (List.pairwise_cons.mp rest).2 ⟨?_, by simpa [Spine.after] using brackets.2⟩
    intro y member
    simp only [Spine.before, List.mem_append, List.mem_singleton] at member
    rcases member with member | member | rfl
    · exact brackets.1 y member
    · exact (across y member x (by simp)).trans more
    · exact more

end

end Embedlib.Library
