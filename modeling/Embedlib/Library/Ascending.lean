import Embedlib.Library.TreeMap

/-! Red-black trees that grow at one end.

Elements inserted in ascending order make the right side of the tree as tall as
it can be. The colours along that side form a counter: a level holds one, two or
three units of its size, and an insertion adds one unit to the lowest level.
-/

set_option autoImplicit false

namespace Embedlib.Library

open Spine

/-- The units of a level. -/
inductive Level where
  | one
  | two
  | three
  deriving DecidableEq, Repr

namespace Level

def units : Level → Nat
  | one => 1
  | two => 2
  | three => 3

def nodes : Level → Nat
  | one => 1
  | two => 2
  | three => 2

/-- The value of the counter, lowest level first. -/
def total : List Level → Nat
  | [] => 0
  | a :: rest => a.units + 2 * total rest

def length : List Level → Nat
  | [] => 0
  | a :: rest => a.nodes + length rest

def succ : List Level → List Level
  | [] => [one]
  | one :: rest => two :: rest
  | two :: rest => three :: rest
  | three :: rest => two :: succ rest

/-- Only the highest level may hold a single unit. -/
def Steady : List Level → Prop
  | [] => True
  | [_] => True
  | a :: b :: rest => a ≠ one ∧ Steady (b :: rest)

theorem total_succ (levels : List Level) : total (succ levels) = total levels + 1 := by
  fun_induction succ levels with
  | case1 => rfl
  | case2 rest => simp only [total, units]; omega
  | case3 rest => simp only [total, units]; omega
  | case4 rest ih => simp only [total, units, ih]; omega

theorem Steady.tail {a : Level} {rest : List Level} (steady : Steady (a :: rest)) : Steady rest := by
  cases rest with
  | nil => trivial
  | cons b rest => exact steady.2

theorem Steady.cons {a : Level} {rest : List Level} (steady : Steady rest) (more : a ≠ one) :
    Steady (a :: rest) := by
  cases rest with
  | nil => trivial
  | cons b rest => exact ⟨more, steady⟩

theorem Steady.succ {levels : List Level} (steady : Steady levels) : Steady (succ levels) := by
  fun_induction Level.succ levels with
  | case1 => trivial
  | case2 rest => exact steady.tail.cons (by decide)
  | case3 rest => exact steady.tail.cons (by decide)
  | case4 rest ih => exact (ih steady.tail).cons (by decide)

theorem Steady.total_lt {levels : List Level} (steady : Steady levels) :
    total levels + 2 < 2 ^ (length levels / 2 + 2) := by
  induction levels with
  | nil => decide
  | cons a rest ih =>
    cases rest with
    | nil => cases a <;> decide
    | cons b rest =>
      have below := ih steady.tail
      have two : a.nodes = 2 := by cases a <;> first | exact absurd rfl steady.1 | rfl
      have few : a.units ≤ 3 := by cases a <;> decide
      have grows : (2 + length (b :: rest)) / 2 + 2 = length (b :: rest) / 2 + 2 + 1 := by omega
      rw [total, length, two, grows, Nat.pow_succ]
      omega

theorem Steady.le_length {levels : List Level} (steady : Steady levels) {k : Nat}
    (large : 2 ^ (k + 1) ≤ total levels + 2) : 2 * k ≤ length levels := by
  have bound : 2 ^ (k + 1) < 2 ^ (length levels / 2 + 2) := Nat.lt_of_le_of_lt large steady.total_lt
  have := (Nat.pow_lt_pow_iff_right (by decide)).mp bound
  omega

end Level

variable {α : Type}

/-- The right side of a tree, with the colours that `levels` stands for. -/
inductive Stairs : List Level → Spine α → Prop where
  | root : Stairs [] []
  | one {rest : List Level} {sp : Spine α} {x : α} {u : ColorTree α} :
      u.color = .black → Stairs rest sp → Stairs (.one :: rest) (⟨.right, .black, x, u⟩ :: sp)
  | two {rest : List Level} {sp : Spine α} {x y : α} {u v : ColorTree α} :
      v.color = .black → u.color = .black → Stairs rest sp →
      Stairs (.two :: rest) (⟨.right, .red, y, v⟩ :: ⟨.right, .black, x, u⟩ :: sp)
  | three {rest : List Level} {sp : Spine α} {x y : α} {u v : ColorTree α} :
      v.color = .black → u.color = .red → Stairs rest sp →
      Stairs (.three :: rest) (⟨.right, .red, y, v⟩ :: ⟨.right, .black, x, u⟩ :: sp)

namespace Stairs

variable {levels : List Level} {sp : Spine α}

theorem length_eq (stairs : Stairs levels sp) : sp.length = Level.length levels := by
  induction stairs with
  | root => rfl
  | one _ _ ih => simp only [List.length_cons, ih, Level.length, Level.nodes]; omega
  | two _ _ _ ih => simp only [List.length_cons, ih, Level.length, Level.nodes]; omega
  | three _ _ _ ih => simp only [List.length_cons, ih, Level.length, Level.nodes]; omega

theorem right (stairs : Stairs levels sp) : ∀ f ∈ sp, f.dir = .right := by
  induction stairs with
  | root => nofun
  | one _ _ ih => exact List.forall_mem_cons.mpr ⟨rfl, ih⟩
  | two _ _ _ ih => exact List.forall_mem_cons.mpr ⟨rfl, List.forall_mem_cons.mpr ⟨rfl, ih⟩⟩
  | three _ _ _ ih => exact List.forall_mem_cons.mpr ⟨rfl, List.forall_mem_cons.mpr ⟨rfl, ih⟩⟩

theorem root_black (stairs : Stairs levels sp) (t : ColorTree α) (black : t.color = .black) :
    (plug sp t).color = .black := by
  induction stairs generalizing t with
  | root => exact black
  | one _ _ ih => exact ih _ (by simp [Frame.fill])
  | two _ _ _ ih => exact ih _ (by simp [Frame.fill])
  | three _ _ _ ih => exact ih _ (by simp [Frame.fill])

/-- The fix-up of a new unit carries like the counter. `inner` is the right side
below the red node `x`. -/
theorem insertFix (stairs : Stairs levels sp) (inner : Spine α) (x : α) (l : ColorTree α)
    (black : l.color = .black) :
    ∃ sp', Stairs (Level.succ levels) sp' ∧
      (Spine.insertFix sp (.join .right .red (plug inner .nil) x l)).recolor .black =
        plug (inner ++ sp') .nil := by
  induction stairs generalizing inner x l with
  | root =>
    refine ⟨[⟨.right, .black, x, l⟩], .one black .root, ?_⟩
    rw [plug_append]
    rfl
  | @one rest sp y u uBlack stairs ih =>
    refine ⟨⟨.right, .red, x, l⟩ :: ⟨.right, .black, y, u⟩ :: sp, .two black uBlack stairs, ?_⟩
    rw [insertFix_black (p := ⟨.right, .black, y, u⟩) rfl, plug_cons,
      ColorTree.recolor_self (stairs.root_black _ (by simp [Frame.fill])), plug_append]
    rfl
  | @two rest sp y z u v vBlack uBlack stairs ih =>
    refine ⟨⟨.right, .red, x, l⟩ :: ⟨.right, .black, z, .join .right .red v y u⟩ :: sp,
      .three black rfl stairs, ?_⟩
    rw [Spine.insertFix, if_pos rfl, if_neg (by simp [uBlack]), if_pos rfl,
      ColorTree.recolor_self (stairs.root_black _ (by simp)), plug_append]
    rfl
  -- The uncle is red: two units stay and the carry goes up as a new red node.
  | @three rest sp y z u v vBlack uRed stairs ih =>
    obtain ⟨sp', stairs', fixed⟩ := ih (inner ++ [⟨.right, .red, x, l⟩, ⟨.right, .black, z, v⟩]) y
      (u.recolor .black) (ColorTree.recolor_black_color u)
    refine ⟨⟨.right, .red, x, l⟩ :: ⟨.right, .black, z, v⟩ :: sp', .two black vBlack stairs', ?_⟩
    rw [Spine.insertFix, if_pos rfl, if_pos uRed]
    rw [plug_append, List.append_assoc] at fixed
    exact fixed

theorem insertAt (stairs : Stairs levels sp) (x : α) :
    ∃ sp', Stairs (Level.succ levels) sp' ∧ Spine.insertAt sp x = plug sp' .nil :=
  stairs.insertFix [] x .nil rfl

end Stairs

end Embedlib.Library
