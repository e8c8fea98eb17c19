import Embedlib.Library.ColorTree
import Mathlib.Algebra.Group.Nat.Defs

/-! The red-black invariant, for trees and for trees with a hole.

`IsRedBlack` states the invariant by paths. `Balanced` and `Fits` index it by
the black height, so that a fix-up can be followed one frame at a time.
-/

set_option autoImplicit false

namespace Embedlib.Library

variable {α : Type}

/-- The red-black invariant of a whole tree. -/
structure IsRedBlack (t : ColorTree α) : Prop where
  root_black : t.color = .black
  no_red_red : t.NoRedRed
  same_blacks : ∃ n, ∀ blacks ∈ t.pathBlacks, blacks = n

/-- Red-black of black height `n`, with a root of either colour. -/
inductive Balanced : Nat → ColorTree α → Prop where
  | nil : Balanced 0 .nil
  | red {n : Nat} {l r : ColorTree α} {x : α} : Balanced n l → Balanced n r →
      l.color = .black → r.color = .black → Balanced n (.node .red l x r)
  | black {n : Nat} {l r : ColorTree α} {x : α} : Balanced n l → Balanced n r →
      Balanced (n + 1) (.node .black l x r)

/-- The spine takes a subtree of black height `n` whose root has colour `c`
(or black) to a red-black tree with a black root. -/
inductive Fits : Color → Nat → Spine α → Prop where
  | root {n : Nat} : Fits .black n []
  | red {n : Nat} {d : Dir} {x : α} {u : ColorTree α} {sp : Spine α} :
      Balanced n u → u.color = .black → Fits .red n sp → Fits .black n (⟨d, .red, x, u⟩ :: sp)
  | black {c : Color} {n : Nat} {d : Dir} {x : α} {u : ColorTree α} {sp : Spine α} :
      Balanced n u → Fits .black (n + 1) sp → Fits c n (⟨d, .black, x, u⟩ :: sp)

theorem pathBlacks_ne_nil (t : ColorTree α) : t.pathBlacks ≠ [] := by
  induction t with
  | nil => simp [ColorTree.pathBlacks]
  | node c l x r ihl ihr => simp [ColorTree.pathBlacks, ihl]

theorem Balanced.noRedRed {n : Nat} {t : ColorTree α} (balanced : Balanced n t) : t.NoRedRed := by
  induction balanced with
  | nil => trivial
  | red _ _ leftBlack rightBlack ihl ihr => exact ⟨fun _ => ⟨leftBlack, rightBlack⟩, ihl, ihr⟩
  | black _ _ ihl ihr => exact ⟨nofun, ihl, ihr⟩

theorem Balanced.pathBlacks {n : Nat} {t : ColorTree α} (balanced : Balanced n t) :
    ∀ blacks ∈ t.pathBlacks, blacks = n := by
  induction balanced with
  | nil => simp [ColorTree.pathBlacks]
  | red _ _ _ _ ihl ihr =>
    intro blacks member
    simp only [ColorTree.pathBlacks, List.mem_map, List.mem_append] at member
    obtain ⟨below, member, rfl⟩ := member
    simpa using member.elim (ihl below) (ihr below)
  | black _ _ ihl ihr =>
    intro blacks member
    simp only [ColorTree.pathBlacks, List.mem_map, List.mem_append] at member
    obtain ⟨below, member, rfl⟩ := member
    simpa using member.elim (ihl below) (ihr below)

theorem balanced_of_paths {t : ColorTree α} (noRedRed : t.NoRedRed) {n : Nat}
    (same : ∀ blacks ∈ t.pathBlacks, blacks = n) : Balanced n t := by
  induction t generalizing n with
  | nil => obtain rfl : 0 = n := same 0 (by simp [ColorTree.pathBlacks]); exact .nil
  | node c l x r ihl ihr =>
    obtain ⟨below, leftOk, rightOk⟩ := noRedRed
    simp only [ColorTree.pathBlacks, List.mem_map, List.mem_append] at same
    cases c with
    | red =>
      have left : Balanced n l := ihl leftOk fun k member => same k ⟨k, .inl member, by simp⟩
      have right : Balanced n r := ihr rightOk fun k member => same k ⟨k, .inr member, by simp⟩
      exact .red left right (below rfl).1 (below rfl).2
    | black =>
      obtain ⟨k, member⟩ := List.exists_mem_of_ne_nil _ (pathBlacks_ne_nil l)
      obtain rfl : k + 1 = n := same _ ⟨k, .inl member, by simp⟩
      have left : Balanced k l := ihl leftOk fun j member => by
        simpa using same (j + 1) ⟨j, .inl member, by simp⟩
      have right : Balanced k r := ihr rightOk fun j member => by
        simpa using same (j + 1) ⟨j, .inr member, by simp⟩
      exact .black left right

theorem isRedBlack_iff {t : ColorTree α} :
    IsRedBlack t ↔ t.color = .black ∧ ∃ n, Balanced n t := by
  constructor
  · rintro ⟨rootBlack, noRedRed, n, same⟩
    exact ⟨rootBlack, n, balanced_of_paths noRedRed same⟩
  · rintro ⟨rootBlack, n, balanced⟩
    exact ⟨rootBlack, balanced.noRedRed, n, balanced.pathBlacks⟩

theorem isRedBlack_nil : IsRedBlack (.nil : ColorTree α) := isRedBlack_iff.mpr ⟨rfl, 0, .nil⟩

section
variable {n : Nat} {d : Dir} {c : Color} {t u : ColorTree α} {x : α} {sp : Spine α}

@[simp] theorem balanced_join_red :
    Balanced n (.join d .red t x u) ↔
      Balanced n t ∧ Balanced n u ∧ t.color = .black ∧ u.color = .black := by
  cases d <;> constructor
  · rintro (_ | ⟨l, r, lb, rb⟩ | _); exact ⟨l, r, lb, rb⟩
  · rintro ⟨l, r, lb, rb⟩; exact .red l r lb rb
  · rintro (_ | ⟨l, r, lb, rb⟩ | _); exact ⟨r, l, rb, lb⟩
  · rintro ⟨l, r, lb, rb⟩; exact .red r l rb lb

@[simp] theorem balanced_join_black :
    Balanced (n + 1) (.join d .black t x u) ↔ Balanced n t ∧ Balanced n u := by
  cases d <;> constructor
  · rintro (_ | _ | ⟨l, r⟩); exact ⟨l, r⟩
  · rintro ⟨l, r⟩; exact .black l r
  · rintro (_ | _ | ⟨l, r⟩); exact ⟨r, l⟩
  · rintro ⟨l, r⟩; exact .black r l

theorem Balanced.child (balanced : Balanced n t) (red : t.color = .red) (d : Dir) :
    Balanced n (t.child d) ∧ (t.child d).color = .black := by
  cases balanced with
  | nil => cases red
  | black => cases red
  | red l r lb rb => cases d <;> exact ⟨by assumption, by assumption⟩

theorem Balanced.child_of_black (balanced : Balanced (n + 1) t) (black : t.color = .black) (d : Dir) :
    Balanced n (t.child d) := by
  cases balanced with
  | red => cases black
  | black l r => cases d <;> assumption

theorem Balanced.blacken (balanced : Balanced n t) (red : t.color = .red) :
    Balanced (n + 1) (t.recolor .black) := by
  cases balanced with
  | nil => cases red
  | black => cases red
  | red l r lb rb => exact .black l r

theorem Balanced.redden (balanced : Balanced (n + 1) t) (black : t.color = .black)
    (near : (t.child .left).color = .black) (far : (t.child .right).color = .black) :
    Balanced n (t.recolor .red) := by
  cases balanced with
  | red => cases black
  | black l r => exact .red l r near far

theorem Balanced.exists_blacken (balanced : Balanced n t) : ∃ m, Balanced m (t.recolor .black) := by
  cases color : t.color with
  | red => exact ⟨n + 1, balanced.blacken color⟩
  | black => exact ⟨n, by rwa [ColorTree.recolor_self color]⟩

theorem Balanced.node (balanced : Balanced (n + 1) t) : ∃ c l y r, t = .node c l y r := by
  cases balanced with
  | red => exact ⟨_, _, _, _, rfl⟩
  | black => exact ⟨_, _, _, _, rfl⟩

theorem Fits.weaken (fits : Fits .red n sp) : Fits .black n sp := by
  cases fits with
  | black u rest => exact .black u rest

theorem Fits.of_color (fits : Fits c n sp) : Fits .black n sp := by
  cases c with
  | red => exact fits.weaken
  | black => exact fits

theorem Fits.below_black {f : Frame α} (fits : Fits .black n (f :: sp)) (black : f.color = .black) :
    Fits c n (f :: sp) := by
  cases fits with
  | red => cases black
  | black u rest => exact .black u rest

theorem Fits.of_red (fits : Fits .red n sp) :
    ∃ d x u rest, sp = ⟨d, .black, x, u⟩ :: rest ∧ Balanced n u ∧ Fits .black (n + 1) rest := by
  cases fits with
  | black u rest => exact ⟨_, _, _, _, rfl, u, rest⟩

theorem Fits.of_red_frame {p g : Frame α} (fits : Fits c n (p :: g :: sp)) (red : p.color = .red) :
    (Balanced n p.sibling ∧ p.sibling.color = .black) ∧ Balanced n g.sibling ∧ Fits .black (n + 1) sp := by
  cases fits with
  | black => cases red
  | red sibling siblingBlack grand =>
    obtain ⟨d, x, v, rest, same, uncle, outer⟩ := grand.of_red
    obtain ⟨rfl, rfl⟩ := List.cons.inj same
    exact ⟨⟨sibling, siblingBlack⟩, uncle, outer⟩

theorem Fits.plug (fits : Fits c n sp) (balanced : Balanced n t)
    (colors : t.color = .black ∨ c = .red) : IsRedBlack (sp.plug t) := by
  induction fits generalizing t with
  | root => exact isRedBlack_iff.mpr ⟨colors.resolve_right (by simp), _, balanced⟩
  | red u uBlack rest ih =>
    have black := colors.resolve_right (by simp)
    exact ih (balanced_join_red.mpr ⟨balanced, u, black, uBlack⟩) (.inr rfl)
  | black u rest ih =>
    exact ih (balanced_join_black.mpr ⟨balanced, u⟩) (.inl (by simp [Frame.fill]))

theorem Fits.down (fits : Fits c n sp) (balanced : Balanced n (.join d c t x u)) :
    ∃ m, Fits t.color m (⟨d, c, x, u⟩ :: sp) ∧ Balanced m t := by
  cases c with
  | red =>
    obtain ⟨near, far, nearBlack, farBlack⟩ := balanced_join_red.mp balanced
    exact ⟨n, nearBlack ▸ .red far farBlack fits, near⟩
  | black =>
    cases n with
    | zero => cases d <;> cases balanced
    | succ n =>
      obtain ⟨near, far⟩ := balanced_join_black.mp balanced
      exact ⟨n, .black far fits, near⟩

theorem IsRedBlack.fits {sp : Spine α} {t : ColorTree α} (redBlack : IsRedBlack (sp.plug t)) :
    ∃ n, Fits t.color n sp ∧ Balanced n t := by
  induction sp generalizing t with
  | nil =>
    obtain ⟨black, n, balanced⟩ := isRedBlack_iff.mp redBlack
    rw [Spine.plug_nil] at black balanced
    exact ⟨n, black ▸ .root, balanced⟩
  | cons f sp ih =>
    obtain ⟨n, fits, balanced⟩ := ih redBlack
    rw [Frame.fill, ColorTree.join_color] at fits
    exact fits.down balanced

theorem IsRedBlack.recolor_self (redBlack : IsRedBlack t) : t.recolor .black = t :=
  ColorTree.recolor_self redBlack.root_black

end

/-! ### Height and size -/

theorem Balanced.pow_le_size {n : Nat} {t : ColorTree α} (balanced : Balanced n t) :
    2 ^ n ≤ t.size + 1 := by
  induction balanced with
  | nil => simp
  | red _ _ _ _ ihl ihr => simp only [ColorTree.size]; omega
  | black _ _ ihl ihr => simp only [ColorTree.size, Nat.pow_succ]; omega

/-- A longest path has at least the black nodes of the tree and at most one
red node above each of them, and one more at a red root. -/
theorem Balanced.height_bounds {n : Nat} {t : ColorTree α} (balanced : Balanced n t) :
    n ≤ t.height ∧ t.height ≤ 2 * n + 1 ∧ (t.color = .black → t.height ≤ 2 * n) := by
  induction balanced with
  | nil => simp [ColorTree.height]
  | red _ _ lb rb ihl ihr =>
    have left := ihl.2.2 lb
    have right := ihr.2.2 rb
    refine ⟨?_, ?_, fun black => by cases black⟩ <;> simp only [ColorTree.height] <;> omega
  | black _ _ ihl ihr =>
    refine ⟨?_, ?_, fun _ => ?_⟩ <;> simp only [ColorTree.height] <;> omega

theorem two_pow_red {n h : Nat} (low : n ≤ h) (tall : h ≤ 2 * n) :
    2 ^ (h + 1 - n) ≤ 2 ^ (h - n) + 2 ^ n := by
  have small : 2 ^ (h - n) ≤ 2 ^ n := Nat.pow_le_pow_right (by decide) (by omega)
  have split : h + 1 - n = (h - n) + 1 := by omega
  rw [split, Nat.pow_succ]
  omega

/-- Every black node and every red node of a longest path carries a subtree of
its own black height off the path. -/
theorem Balanced.two_pows_le_size {n : Nat} {t : ColorTree α} (balanced : Balanced n t) :
    2 ^ n + 2 ^ (t.height - n) ≤ t.size + 2 := by
  induction balanced with
  | nil => simp [ColorTree.height, ColorTree.size]
  | @red n l r x left right lb rb ihl ihr =>
    have leftSize := left.pow_le_size
    have rightSize := right.pow_le_size
    have leftTall := left.height_bounds
    have rightTall := right.height_bounds
    simp only [ColorTree.height, ColorTree.size]
    -- the taller subtree is on the path, the other one is off it
    rcases Nat.le_total l.height r.height with tall | tall
    · have grown := two_pow_red rightTall.1 (rightTall.2.2 rb)
      rw [Nat.max_eq_right tall]
      omega
    · have grown := two_pow_red leftTall.1 (leftTall.2.2 lb)
      rw [Nat.max_eq_left tall]
      omega
  | @black n l r x left right ihl ihr =>
    have leftSize := left.pow_le_size
    have rightSize := right.pow_le_size
    simp only [ColorTree.height, ColorTree.size, Nat.add_sub_add_right, Nat.pow_succ]
    rcases Nat.le_total l.height r.height with tall | tall
    · rw [Nat.max_eq_right tall]; omega
    · rw [Nat.max_eq_left tall]; omega

theorem two_pow_half_le_succ (k : Nat) : 2 ^ (k / 2 + 1) ≤ 2 ^ k + 1 := by
  match k with
  | 0 => decide
  | 1 => decide
  | k + 2 =>
    have less : 2 ^ ((k + 2) / 2 + 1) ≤ 2 ^ (k + 2) := Nat.pow_le_pow_right (by decide) (by omega)
    omega

theorem two_pow_half_le (a b : Nat) (le : a ≤ b) : 2 ^ ((a + b) / 2 + 1) ≤ 2 ^ a + 2 ^ b := by
  obtain ⟨k, rfl⟩ := Nat.exists_eq_add_of_le le
  have halved : (a + (a + k)) / 2 + 1 = a + (k / 2 + 1) := by omega
  calc 2 ^ ((a + (a + k)) / 2 + 1) = 2 ^ a * 2 ^ (k / 2 + 1) := by rw [halved, Nat.pow_add]
    _ ≤ 2 ^ a * (2 ^ k + 1) := Nat.mul_le_mul_left _ (two_pow_half_le_succ k)
    _ = 2 ^ a + 2 ^ (a + k) := by rw [Nat.mul_add, Nat.pow_add, Nat.mul_one, Nat.add_comm]

/-- The red-black height bound. -/
theorem IsRedBlack.two_pow_height_le {t : ColorTree α} (redBlack : IsRedBlack t) :
    2 ^ (t.height / 2 + 1) ≤ t.size + 2 := by
  obtain ⟨black, n, balanced⟩ := isRedBlack_iff.mp redBlack
  have tall := balanced.height_bounds
  have split : t.height - n + n = t.height := by omega
  have few : t.height - n ≤ n := by have := tall.2.2 black; omega
  -- A longest path has `n` black nodes and the rest red.
  calc 2 ^ (t.height / 2 + 1) = 2 ^ ((t.height - n + n) / 2 + 1) := by rw [split]
    _ ≤ 2 ^ (t.height - n) + 2 ^ n := two_pow_half_le _ _ few
    _ = 2 ^ n + 2 ^ (t.height - n) := Nat.add_comm _ _
    _ ≤ t.size + 2 := balanced.two_pows_le_size

end Embedlib.Library
