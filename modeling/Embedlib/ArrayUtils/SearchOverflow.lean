import Embedlib.ArrayUtils.ArrayMap
import Embedlib.ArrayUtils.ArrayMapPool

/-! The binary search in 32-bit `int`: for which lengths and keys it is right.

Bounds below `2 ^ 30` have no overflowing sum. Above it everything depends on the
probes of a search that keeps to the right, since one turn to the left brings both
bounds below `2 ^ 30` for good.
-/

set_option autoImplicit false

namespace Embedlib.ArrayUtils

open Library

variable {α κ : Type}

/-- The probe after `j` turns to the right. -/
def rung (len j : Nat) : Nat := len - (len / 2 ^ (j + 1) + 1)

/-- The lower bound after `j` turns to the right. -/
def base (len : Nat) : Nat → Nat
  | 0 => 0
  | j + 1 => rung len j + 1

section
variable {len : Nat}

theorem middle_base (more : 0 < len) (j : Nat) : middle (base len j) len = rung len j := by
  cases j with
  | zero => simp only [middle, base, rung]; omega
  | succ j =>
    have half : len / 2 ^ (j + 2) = len / 2 ^ (j + 1) / 2 := by rw [Nat.pow_succ _ (j + 1), Nat.div_div_eq_div_mul]
    have small : len / 2 ^ (j + 1) < len := Nat.div_lt_self more (Nat.one_lt_two_pow (by omega))
    simp only [middle, base, rung, half]
    omega

theorem rung_lt (more : 0 < len) (j : Nat) : rung len j < len := Nat.sub_lt more (Nat.succ_pos _)

theorem rung_mono {i j : Nat} (less : i ≤ j) : rung len i ≤ rung len j := by
  have shrinks : len / 2 ^ (j + 1) ≤ len / 2 ^ (i + 1) :=
    Nat.div_le_div_left (Nat.pow_le_pow_right (by decide) (by omega)) (Nat.two_pow_pos _)
  unfold rung; omega

theorem rung_last : rung len len = len - 1 := by
  have small : len < 2 ^ (len + 1) := Nat.lt_of_lt_of_le Nat.lt_two_pow_self
    (Nat.pow_le_pow_right (by decide) (Nat.le_succ _))
  rw [rung, Nat.div_eq_of_lt small]

end

theorem computes_int32 {low high : Nat} (small : middle low high < 2 ^ 30) : Computes .int32 low high := by
  unfold middle at small
  constructor <;>
  · simp only [IntArithmetic.int32, middle]
    rw [if_pos (by omega)]

theorem ofUnsigned_int32_neg {len : Nat} (large : 2 ^ 31 < len) (admitted : len < 2 ^ 32) :
    IntArithmetic.int32.ofUnsigned ((len : Int) - 1) < 0 := by
  simp only [IntArithmetic.int32, Int.bmod]
  omega

theorem ofUnsigned_int32 {len : Nat} (small : len ≤ 2 ^ 31) :
    IntArithmetic.int32.ofUnsigned ((len : Int) - 1) = len - 1 := by
  simp only [IntArithmetic.int32, Int.bmod]
  omega

theorem ensures_int32 {σ : Type} {n : Int} {post : Int → σ → Prop} {state : σ} :
    Ensures (IntArithmetic.int32.int n) post state ↔ (-2 ^ 31 ≤ n ∧ n < 2 ^ 31) ∧ post n state := by
  by_cases fits : -2 ^ 31 ≤ n ∧ n < 2 ^ 31
  · simp only [Ensures, IntArithmetic.int, IntArithmetic.int32, if_pos fits, Except.map]
    exact (and_iff_right fits).symm
  · simp only [Ensures, IntArithmetic.int, IntArithmetic.int32, if_neg fits, Except.map]
    exact (iff_false_intro fun both => fits both.1).symm

theorem ensures_getItem_iff {i : Int} {post : α → Items α → Prop} {map : Items α} :
    Ensures (getItem i) post map ↔ (0 ≤ i ∧ i < map.size) ∧ post (map.item i.toNat) map := by
  by_cases inside : 0 ≤ i ∧ i < map.size
  · simp [getItem, inside]
  · simp [getItem, inside]

variable [LinearOrder κ]

/-- The result that the search should give: the index of the key, or the number of
smaller items. -/
def Answers (key : α → κ) (item : Nat → α) (len : Nat) (k : κ) (result : Bool × Int) : Prop :=
  (∃ index : Nat, result = (true, (index : Int)) ∧ index < len ∧ key (item index) = k) ∨
    result = (false, ((segment item 0 len).countP (fun x => key x < k) : Int)) ∧ ∀ i < len, key (item i) ≠ k

/-- The search ends without a fault and with the right answer, wherever the buffer
ends behind the `len` items. -/
def Correct {σ : Type} (search : Program σ (Bool × Int)) (state : Nat → σ) (key : α → κ) (item : Nat → α)
    (len : Nat) (k : κ) : Prop :=
  ∀ size, len ≤ size → ∃ result, search (state size) = .ok (result, state size) ∧
    Answers key item len k result

/-- The search stays within 32 bits: there are at most `2 ^ 30` items, or at most
`2 ^ 31` and the key is not behind all rungs below `2 ^ 30`, or it is before all items. -/
def Fits (key : α → κ) (item : Nat → α) (len : Nat) (k : κ) : Prop :=
  len ≤ 2 ^ 30 ∨ (len ≤ 2 ^ 31 ∧ ∃ j, rung len j < 2 ^ 30 ∧ k ≤ key (item (rung len j))) ∨
    ∀ i < len, k < key (item i)

section
variable {key : α → κ} {item : Nat → α} {len : Nat} {k : κ}

theorem Narrowed.answers {low : Nat} (narrowed : Narrowed key item len k low low) :
    Answers key item len k (false, (low : Int)) := by
  have inside := narrowed.inside
  have split := segment_append item 0 low (len - low)
  rw [Nat.zero_add, Nat.add_sub_cancel' inside] at split
  obtain ⟨before, behind⟩ := narrowed.brackets
  refine .inr ⟨?_, fun i less same => ?_⟩
  · have all : (segment item 0 low).countP (fun x => key x < k) = low := by
      rw [List.countP_eq_length.mpr fun x member => decide_eq_true (before x member), length_segment]
    have none : (segment item low (len - low)).countP (fun x => key x < k) = 0 :=
      List.countP_eq_zero.mpr fun x member => by simpa using (behind x member).le
    rw [← split, List.countP_append, all, none, Nat.add_zero]
  · rcases Nat.lt_or_ge i low with below | above
    · exact (narrowed.below i below).ne same
    · exact (narrowed.above i above less).ne' same

/-- The bounds either are below `2 ^ 30`, or are those of a search that has only
turned to the right. -/
def Climbs (key : α → κ) (item : Nat → α) (len : Nat) (k : κ) (low high : Nat) : Prop :=
  Narrowed key item len k low high ∧ (high ≤ 2 ^ 30 ∨ high = len ∧
    ∃ i, low = base len i ∧ ∀ j < i, key (item (rung len j)) < k)

theorem Climbs.middle_lt {low high : Nat} (climbs : Climbs key item len k low high)
    (stops : ∃ j, rung len j < 2 ^ 30 ∧ k ≤ key (item (rung len j))) (more : low < high) :
    middle low high < 2 ^ 30 := by
  obtain ⟨narrowed, small | ⟨rfl, i, rfl, passed⟩⟩ := climbs
  · exact (ArrayUtils.middle_lt more).trans_le small
  · obtain ⟨j, small, stop⟩ := stops
    rw [middle_base (Nat.zero_lt_of_lt more)]
    have reached : i ≤ j := Nat.le_of_not_lt fun passes => (passed j passes).not_ge stop
    exact (rung_mono reached).trans_lt small

theorem guides_climbs (c : KeyCmp α κ) (size : Nat) (ascends : Ascends c.keyOf item len) (most : len ≤ 2 ^ 31)
    (stops : len ≤ 2 ^ 30 ∨ ∃ j, rung len j < 2 ^ 30 ∧ k ≤ c.keyOf (item (rung len j))) :
    Guides .int32 c.keyCmp ⟨item, size, len⟩ k (Climbs c.keyOf item len k) where
  last := ofUnsigned_int32 most
  start := ⟨narrowed_start, .inr ⟨rfl, 0, rfl, nofun⟩⟩
  inside _ _ climbs := ⟨climbs.1.ordered, climbs.1.inside⟩
  computes low high climbs more := by
    rcases stops with few | stops
    · exact computes_int32 ((middle_lt more).trans_le (climbs.1.inside.trans few))
    · exact computes_int32 (climbs.middle_lt stops more)
  right low high climbs more less := by
    have below := (c.keyCmp_neg _ _).mp less
    refine ⟨climbs.1.right ascends (middle_lt more) below, ?_⟩
    rcases climbs.2 with small | ⟨rfl, i, rfl, passed⟩
    · exact .inl small
    · have here := middle_base (Nat.zero_lt_of_lt more) i
      refine .inr ⟨rfl, i + 1, by rw [base, here], fun j less => ?_⟩
      rcases Nat.lt_succ_iff_lt_or_eq.mp less with less | rfl
      · exact passed j less
      · rw [here] at below
        exact below
  left low high climbs more greater := by
    refine ⟨climbs.1.left ascends (le_middle more) (middle_lt more) ((c.keyCmp_pos _ _).mp greater), .inl ?_⟩
    rcases stops with few | stops
    · exact ((middle_lt more).le.trans climbs.1.inside).trans few
    · exact (climbs.middle_lt stops more).le

theorem correct_of_stops (c : KeyCmp α κ) (ascends : Ascends c.keyOf item len) (most : len ≤ 2 ^ 31)
    (stops : len ≤ 2 ^ 30 ∨ ∃ j, rung len j < 2 ^ 30 ∧ k ≤ c.keyOf (item (rung len j))) :
    Correct (bsearch .int32 c.keyCmp k) (fun size => ⟨item, size, len⟩) c.keyOf item len k := by
  intro size fits
  have ensured : Ensures (bsearch .int32 c.keyCmp k)
      (fun result after => after = ⟨item, size, len⟩ ∧ Answers c.keyOf item len k result) ⟨item, size, len⟩ := by
    refine (guides_climbs c size ascends most stops).ensures_bsearch fits ?_ ?_
    · intro low high climbs more same
      exact ⟨rfl, .inl ⟨_, rfl, (middle_lt more).trans_le climbs.1.inside, c.eq_zero.mp same⟩⟩
    · exact fun low climbs => ⟨rfl, climbs.1.answers⟩
  obtain ⟨result, after, ran, rfl, answers⟩ := ensured.result
  exact ⟨result, ran, answers⟩

/-- A round at the rung `j` stays below `2 ^ 30`, and goes on at the next rung if the
key is behind it. -/
theorem climb (c : KeyCmp α κ) {size fuel j : Nat} {post : Bool × Int → Items α → Prop}
    (lower : base len j < len)
    (ensured : Ensures (loop (bsearchRound .int32 c.keyCmp k) fuel ((base len j : Int), (len : Int) - 1)) post
      ⟨item, size, len⟩) :
    rung len j < 2 ^ 30 ∧ (c.keyOf (item (rung len j)) < k →
      ∃ fuel', Ensures (loop (bsearchRound .int32 c.keyCmp k) fuel' ((base len (j + 1) : Int), (len : Int) - 1))
        post ⟨item, size, len⟩) := by
  cases fuel with
  | zero => exact ensured.elim
  | succ fuel =>
    have more : 0 < len := Nat.zero_lt_of_lt lower
    rw [ensures_loop_succ] at ensured
    have inside : (base len j : Int) ≤ (len : Int) - 1 := by omega
    simp only [bsearchRound, if_pos inside, ensures_bind, ensures_int32, middle_eq lower,
      middle_base more, ensures_getItem_iff, Int.toNat_natCast] at ensured
    obtain ⟨⟨_, sum⟩, _, ensured⟩ := ensured
    have here := middle_base more j
    unfold middle at here
    refine ⟨by omega, fun less => ⟨fuel, ?_⟩⟩
    simp only [if_pos ((c.keyCmp_neg _ _).mpr less), ensures_bind, ensures_int32, ensures_pure] at ensured
    exact ensured.2

theorem overflows (c : KeyCmp α κ) {size : Nat} (large : 2 ^ 30 < len) (most : len ≤ 2 ^ 31)
    (behind : ∀ j, rung len j < 2 ^ 30 → c.keyOf (item (rung len j)) < k)
    (post : Bool × Int → Items α → Prop) : ¬ Ensures (bsearch .int32 c.keyCmp k) post ⟨item, size, len⟩ := by
  intro ensured
  have more : 0 < len := by omega
  -- By induction: the search can only turn right, and never reaches the last rung.
  have climbs : ∀ j, base len j < len ∧ ∃ fuel, Ensures
      (loop (bsearchRound .int32 c.keyCmp k) fuel ((base len j : Int), (len : Int) - 1)) post
        ⟨item, size, len⟩ := by
    intro j
    induction j with
    | zero =>
      simp only [bsearch, ensures_bind, ensures_get, ofUnsigned_int32 most] at ensured
      exact ⟨more, _, ensured⟩
    | succ j ih =>
      obtain ⟨lower, fuel, ensured⟩ := ih
      obtain ⟨small, next⟩ := climb c lower ensured
      exact ⟨by simp only [base]; omega, next (behind j small)⟩
  obtain ⟨lower, fuel, ensured⟩ := climbs len
  have small := (climb c lower ensured).1
  rw [rung_last] at small
  omega

theorem answers_zero : Answers key item len k (false, 0) ↔ ∀ i < len, k < key (item i) := by
  constructor
  · rintro (⟨index, same, _⟩ | ⟨same, absent⟩) i less
    · cases same
    · have count : (0 : Int) = (segment item 0 len).countP fun x => key x < k := congrArg Prod.snd same
      have none : (segment item 0 len).countP (fun x => key x < k) = 0 := by omega
      have member : item i ∈ segment item 0 len := mem_segment.mpr ⟨i, Nat.zero_le _, by omega, rfl⟩
      have low : ¬ key (item i) < k := by simpa using List.countP_eq_zero.mp none _ member
      exact lt_of_le_of_ne (not_lt.mp low) (Ne.symm (absent i less))
  · intro above
    have narrowed : Narrowed key item len k 0 0 :=
      ⟨Nat.le_refl _, Nat.zero_le _, nofun, fun j _ less => above j less⟩
    exact narrowed.answers

theorem bsearch_neg (c : KeyCmp α κ) {map : Items α} (large : 2 ^ 31 < map.len) (admitted : map.len < 2 ^ 32) :
    bsearch .int32 c.keyCmp k map = .ok ((false, 0), map) := by
  have negative := ofUnsigned_int32_neg large admitted
  have ensured : Ensures (bsearch .int32 c.keyCmp k) (fun result after => result = (false, 0) ∧ after = map)
      map := by
    unfold bsearch
    simp only [ensures_bind, ensures_get, ensures_loop_succ, bsearchRound,
      if_neg (show ¬ (0 : Int) ≤ IntArithmetic.int32.ofUnsigned ((map.len : Int) - 1) by omega)]
    exact ⟨rfl, rfl⟩
  obtain ⟨_, _, ran, rfl, rfl⟩ := ensured.result
  exact ran

theorem correct_iff_fits (c : KeyCmp α κ) (admitted : len < 2 ^ 32) (ascends : Ascends c.keyOf item len) :
    Correct (bsearch .int32 c.keyCmp k) (fun size => ⟨item, size, len⟩) c.keyOf item len k ↔
      Fits c.keyOf item len k := by
  rcases Nat.lt_or_ge (2 ^ 31) len with large | most
  · have short : Fits c.keyOf item len k ↔ ∀ i < len, k < c.keyOf (item i) := by
      unfold Fits
      constructor
      · rintro (few | ⟨few, _⟩ | above)
        · omega
        · omega
        · exact above
      · exact fun above => .inr (.inr above)
    rw [short, ← answers_zero]
    constructor
    · intro correct
      obtain ⟨result, ran, answers⟩ := correct len (Nat.le_refl _)
      rw [bsearch_neg c large admitted] at ran
      cases ran
      exact answers
    · exact fun answers size _ => ⟨_, bsearch_neg c large admitted, answers⟩
  · constructor
    · intro correct
      obtain ⟨result, ran, _⟩ := correct len (Nat.le_refl _)
      rcases Nat.lt_or_ge (2 ^ 30) len with many | few
      · by_contra outside
        refine overflows c many most (fun j small => ?_) (fun _ _ => True) ((ensures_of_run ran).mpr trivial)
        exact not_le.mp fun stop => outside (.inr (.inl ⟨most, j, small, stop⟩))
      · exact .inl few
    · rintro (few | ⟨_, stops⟩ | above)
      · exact correct_of_stops c ascends most (.inl few)
      · exact correct_of_stops c ascends most (.inr stops)
      · rcases Nat.eq_zero_or_pos len with rfl | more
        · exact correct_of_stops c ascends most (.inl (Nat.zero_le _))
        · refine correct_of_stops c ascends most (.inr ⟨0, ?_, (above _ (rung_lt more 0)).le⟩)
          simp only [rung]
          omega

end

theorem pool_correct_iff {ν δ : Type} (c : KeyCmp δ κ) {item : Nat → ν} {len : Nat} {k : κ} (objects : ν → δ)
    (log : List (Event ν κ)) :
    Correct (arrayMapPoolBsearch .int32 c.keyCmp k) (fun size => ⟨⟨item, size, len⟩, objects, log⟩)
        (fun x => c.keyOf (objects x)) item len k ↔
      Correct (bsearch .int32 (c.at objects).keyCmp k) (fun size => ⟨item, size, len⟩)
        (fun x => c.keyOf (objects x)) item len k := by
  have same : ∀ size result, arrayMapPoolBsearch .int32 c.keyCmp k ⟨⟨item, size, len⟩, objects, log⟩ =
      .ok (result, ⟨⟨item, size, len⟩, objects, log⟩) ↔
        bsearch .int32 (c.at objects).keyCmp k ⟨item, size, len⟩ = .ok (result, ⟨item, size, len⟩) := by
    intro size result
    show onItems (bsearch .int32 (c.at objects).keyCmp k) ⟨⟨item, size, len⟩, objects, log⟩ = _ ↔ _
    simp only [onItems, within]
    cases bsearch .int32 (c.at objects).keyCmp k ⟨item, size, len⟩ with
    | error why => simp
    | ok outcome => simp [Prod.ext_iff]
  simp only [Correct, same]

/-- For every admitted length, sorted items and key: the searches of the map and of
the pool never overflow, stay among the items and give the right answer if and only
if they stay within the limits. -/
theorem bsearch_correct_iff {ν δ : Type} (c : KeyCmp δ κ) (len : Nat) (admitted : len < 2 ^ 32) (k : κ) :
    (∀ item : Nat → δ, Ascends c.keyOf item len →
      (Correct (arrayMapBsearch .int32 c.keyCmp k) (fun size => ⟨item, size, len⟩) c.keyOf item len k ↔
        Fits c.keyOf item len k)) ∧
    ∀ (item : Nat → ν) (objects : ν → δ) (log : List (Event ν κ)),
      Ascends (fun x => c.keyOf (objects x)) item len →
      (Correct (arrayMapPoolBsearch .int32 c.keyCmp k) (fun size => ⟨⟨item, size, len⟩, objects, log⟩)
          (fun x => c.keyOf (objects x)) item len k ↔
        Fits (fun x => c.keyOf (objects x)) item len k) := by
  refine ⟨fun item ascends => correct_iff_fits c admitted ascends, fun item objects log ascends => ?_⟩
  rw [pool_correct_iff]
  exact correct_iff_fits (c.at objects) admitted ascends

def numbers : KeyCmp Int Int where
  keyOf item := item
  keyCmp item key := item - key
  keyCmp_neg := difference_neg
  keyCmp_pos := difference_pos

theorem bsearch_correct_iff_four :
    (Correct (arrayMapBsearch .int32 numbers.keyCmp 5) (fun size => ⟨fun i => 2 * (i : Int), size, 4⟩)
        numbers.keyOf (fun i => 2 * (i : Int)) 4 5 ↔ Fits numbers.keyOf (fun i => 2 * (i : Int)) 4 5) ∧
      (Correct (arrayMapPoolBsearch .int32 numbers.keyCmp 5)
          (fun size => (⟨⟨fun i => i, size, 4⟩, fun i => 2 * (i : Int), []⟩ : Pool Nat Int Int))
          (fun i => numbers.keyOf (2 * (i : Int))) (fun i => i) 4 5 ↔
        Fits (fun i => numbers.keyOf (2 * (i : Int))) (fun i => i) 4 5) :=
  have ascends : ∀ i j : Nat, i < j → j < 4 → 2 * (i : Int) < 2 * (j : Int) := fun _ _ less _ => by omega
  have both := bsearch_correct_iff numbers 4 (by decide) 5
  ⟨both.1 _ ascends, both.2 (fun i : Nat => i) _ [] ascends⟩

/-- Among the numbers from 0 to `2 ^ 30` the search for the last one overflows. -/
theorem bsearch_overflow :
    Ascends numbers.keyOf (fun i => (i : Int)) (2 ^ 30 + 1) ∧
      arrayMapBsearch .int32 numbers.keyCmp (2 ^ 30 : Int) ⟨fun i => i, 2 ^ 30 + 1, 2 ^ 30 + 1⟩ =
        .error .overflow :=
  ⟨fun _ _ less _ => Int.ofNat_lt.mpr less, rfl⟩

end Embedlib.ArrayUtils
