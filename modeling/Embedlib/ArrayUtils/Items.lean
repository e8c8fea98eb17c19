import Embedlib.Library.Program
import Embedlib.Library.Slots
import Mathlib.Algebra.Group.Int.Defs
import Mathlib.Algebra.Group.Nat.Defs
import Mathlib.Data.List.Nodup
import Mathlib.Order.Lattice
import Mathlib.Data.Int.Order.Basic

/-! The sorted item array below `ARRAY_MAP` and `ARRAY_MAP_POOL`: its fields, the
binary search and the two loops that shift items. -/

set_option autoImplicit false

namespace Embedlib.ArrayUtils

open Library

variable {α κ : Type}

/-- The fields of `ARRAY_MAP_TYPE` and `ARRAY_MAP_POOL_TYPE`. Memory goes on
behind the buffer: `size` is all that says where it ends. -/
@[ext] structure Items (α : Type) where
  item : Nat → α
  size : Nat
  len : Nat

/-- `ARRAY_MAP_INIT`, `ARRAY_MAP_POOL_INIT` -/
def Items.init (buf : Nat → α) (siz : Nat) : Items α := ⟨buf, siz, 0⟩

def Items.live (map : Items α) : List α := segment map.item 0 map.len

def Items.spare (map : Items α) : List α := segment map.item map.len (map.size - map.len)

/-- `key_cmp`, with the keys whose order it follows. -/
structure KeyCmp (α κ : Type) [LinearOrder κ] where
  keyOf : α → κ
  keyCmp : α → κ → Int
  keyCmp_neg : ∀ x k, keyCmp x k < 0 ↔ keyOf x < k
  keyCmp_pos : ∀ x k, 0 < keyCmp x k ↔ k < keyOf x

/-- The value of an `int` expression, and of an `uint32_t` expression that is
stored in an `int`. -/
structure IntArithmetic where
  signed : Int → Except Fault Int
  ofUnsigned : Int → Int

namespace IntArithmetic

def exact : IntArithmetic := ⟨.ok, id⟩

def int {σ : Type} (arith : IntArithmetic) (n : Int) : Program σ Int := fun state =>
  (arith.signed n).map fun value => (value, state)

/-- 32-bit `int`. A conversion from `uint32_t` wraps, a signed overflow is a fault. -/
def int32 : IntArithmetic where
  signed n := if -2 ^ 31 ≤ n ∧ n < 2 ^ 31 then .ok n else .error .overflow
  ofUnsigned n := n.bmod (2 ^ 32)

theorem ensures_int {σ : Type} {arith : IntArithmetic} {n : Int} (fits : arith.signed n = .ok n)
    (post : Int → σ → Prop) (state : σ) : Ensures (arith.int n) post state ↔ post n state := by
  simp only [Ensures, int, fits, Except.map]

end IntArithmetic

/-- `item[i]` -/
def getItem (i : Int) : Program (Items α) α := do
  let map ← get
  if 0 ≤ i ∧ i < map.size then return map.item i.toNat else fault .outOfBounds

/-- `item[i] = value` -/
def setItem (i : Int) (value : α) : Program (Items α) Unit := do
  let map ← get
  if 0 ≤ i ∧ i < map.size then
    modify fun map => { map with item := Function.update map.item i.toNat value }
  else fault .outOfBounds

/-- One round of the search, from the bounds `low` and `high`. -/
def bsearchRound (arith : IntArithmetic) (keyCmp : α → κ → Int) (key : κ) :
    Int × Int → Program (Items α) (Turn (Int × Int) (Bool × Int)) := fun (low, high) => do
  if low ≤ high then
    -- The sum is an `int`: it may overflow before it is halved.
    let med := (← arith.int (low + high)).tdiv 2
    let c := keyCmp (← getItem med) key
    if c < 0 then
      return .again (← arith.int (med + 1), high)
    else if c > 0 then
      return .again (low, ← arith.int (med - 1))
    else
      return .leave (true, med)
  else
    return .leave (false, low)

/-- `ARRAY_MAP_GENERATE_BSEARCH`, `ARRAY_MAP_POOL_GENERATE_BSEARCH`. Returns
whether the key was found, and `*index`. -/
def bsearch (arith : IntArithmetic) (keyCmp : α → κ → Int) (key : κ) : Program (Items α) (Bool × Int) := do
  let len := (← get).len
  -- `high` is an `int` that takes `map->len - 1` of an `uint32_t`.
  loop (bsearchRound arith keyCmp key) (len + 1) (0, arith.ofUnsigned (len - 1))

/-- `for (i = len; i > index; --i) item[i] = item[i - 1]` -/
def shiftUp (index : Int) : Program (Items α) Unit := do
  let len := (← get).len
  loop (fun (i : Int) => do
    if i > index then
      setItem i (← getItem (i - 1))
      return .again (i - 1)
    else
      return .leave ()) (len + 1) (len : Int)

/-- `for (i = index; i < len - 1; ++i) item[i] = item[i + 1]` -/
def shiftDown (index : Int) : Program (Items α) Unit := do
  let len := (← get).len
  loop (fun (i : Int) => do
    if i < (← get).len - 1 then
      setItem i (← getItem (i + 1))
      return .again (i + 1)
    else
      return .leave ()) (len + 1) index

/-- Shift the items from `index` on, `item[index] = value`, `++len`. -/
def insertItem (index : Int) (value : α) : Program (Items α) Unit := do
  shiftUp index
  setItem index value
  modify fun map => { map with len := map.len + 1 }

def Items.insertAt (map : Items α) (index : Nat) (value : α) : Items α :=
  ⟨Function.update (raise map.item index map.len) index value, map.size, map.len + 1⟩

/-- The items after the removal of one, with `map.item (map.len - 1)` as it was. -/
def Items.removeAt (map : Items α) (index : Nat) : Items α :=
  ⟨lower map.item index (map.len - 1), map.size, map.len - 1⟩

/-- The items after the removal of one that becomes the first spare item. -/
def Items.recycleAt (map : Items α) (index : Nat) : Items α :=
  ⟨Function.update (lower map.item index (map.len - 1)) (map.len - 1) (map.item index), map.size, map.len - 1⟩

section
variable {map : Items α} {index : Nat} {x : α}

theorem Items.live_split (below : index ≤ map.len) :
    map.live = segment map.item 0 index ++ segment map.item index (map.len - index) := by
  have joined := segment_append map.item 0 index (map.len - index)
  rw [Nat.zero_add, Nat.add_sub_cancel' below] at joined
  exact joined.symm

theorem Items.live_insertAt (below : index ≤ map.len) :
    (map.insertAt index x).live = segment map.item 0 index ++ x :: segment map.item index (map.len - index) :=
  segment_raise x below

theorem Items.live_at (inside : index < map.len) :
    map.live = segment map.item 0 index ++
      map.item index :: segment map.item (index + 1) (map.len - 1 - index) := by
  rw [Items.live, segment_split inside, Nat.zero_add, Nat.sub_right_comm]

theorem Items.live_removeAt (inside : index < map.len) :
    (map.removeAt index).live =
      segment map.item 0 index ++ segment map.item (index + 1) (map.len - 1 - index) :=
  segment_lower (by omega)

theorem Items.live_recycleAt (inside : index < map.len) :
    (map.recycleAt index).live =
      segment map.item 0 index ++ segment map.item (index + 1) (map.len - 1 - index) := by
  rw [← Items.live_removeAt inside]
  apply segment_congr
  intro j _ less
  have before : j < map.len - 1 := by rwa [Nat.zero_add] at less
  exact Function.update_of_ne before.ne _ _

theorem Items.item_mem_live (inside : index < map.len) : map.item index ∈ map.live :=
  mem_segment.mpr ⟨index, Nat.zero_le _, by omega, rfl⟩

theorem Items.mem_live_insertAt (below : index ≤ map.len) {y : α} :
    y ∈ (map.insertAt index x).live ↔ y = x ∨ y ∈ map.live := by
  rw [Items.live_insertAt below, Items.live_split below, List.perm_middle.mem_iff, List.mem_cons]

theorem Items.mem_live_recycleAt (inside : index < map.len) (distinct : map.live.Nodup) {y : α} :
    y ∈ (map.recycleAt index).live ↔ y ∈ map.live ∧ y ≠ map.item index := by
  rw [Items.live_at inside] at distinct ⊢
  rw [Items.live_recycleAt inside, List.perm_middle.mem_iff, List.mem_cons]
  have apart := (List.nodup_cons.mp (List.nodup_middle.mp distinct)).1
  constructor
  · exact fun member => ⟨.inr member, fun same => apart (same ▸ member)⟩
  · exact fun ⟨member, other⟩ => member.resolve_left other

theorem Items.spare_recycleAt (inside : index < map.len) (fits : map.len ≤ map.size) :
    (map.recycleAt index).spare = map.item index :: map.spare := by
  have room : map.size - (map.len - 1) = map.size - map.len + 1 := by omega
  simp only [Items.spare, Items.recycleAt]
  rw [room, segment_succ, Function.update_self, Nat.sub_add_cancel (by omega)]
  refine congrArg (map.item index :: ·) (segment_congr fun j low _ => ?_)
  rw [Function.update_of_ne (by omega), lower, if_neg (by omega)]

theorem Items.spare_insertAt (below : index ≤ map.len) (room : map.len < map.size) :
    map.spare = map.item map.len :: (map.insertAt index x).spare := by
  have grows : map.size - map.len = map.size - (map.len + 1) + 1 := by omega
  rw [Items.spare, grows, segment_succ]
  refine congrArg (map.item map.len :: ·) (segment_congr fun j low _ => ?_).symm
  simp only [Items.insertAt]
  rw [Function.update_of_ne (by omega), raise, if_neg (by omega)]

theorem Items.live_append_spare (fits : map.len ≤ map.size) :
    map.live ++ map.spare = segment map.item 0 map.size := by
  have joined := segment_append map.item 0 map.len (map.size - map.len)
  rw [Nat.zero_add, Nat.add_sub_cancel' fits] at joined
  exact joined

theorem ensures_getItem {i : Int} {n : Nat} {post : α → Items α → Prop} (here : i = n)
    (inside : n < map.size) (holds : post (map.item n) map) : Ensures (getItem i) post map := by
  subst here
  simpa [getItem, inside] using holds

theorem ensures_setItem {i : Int} {n : Nat} {value : α} {post : Unit → Items α → Prop} (here : i = n)
    (inside : n < map.size) (holds : post () { map with item := Function.update map.item n value }) :
    Ensures (setItem i value) post map := by
  subst here
  simpa [setItem, inside] using holds

theorem ensures_shiftUp (below : index ≤ map.len) (room : map.len < map.size)
    {post : Unit → Items α → Prop}
    (holds : post () { map with item := raise map.item index map.len }) :
    Ensures (shiftUp (index : Int)) post map := by
  unfold shiftUp
  simp only [ensures_bind, ensures_get]
  refine ensures_loop (fun left (i : Int) state => ∃ last : Nat, i = last ∧ left = last - index ∧ index ≤ last ∧
    last ≤ map.len ∧ ∃ slots, state = { map with item := slots } ∧
      raise slots index last = raise map.item index map.len) ?_ (Nat.lt_succ_of_le (Nat.sub_le _ index))
    ⟨map.len, rfl, rfl, below, Nat.le_refl _, map.item, rfl, rfl⟩
  rintro left _ _ ⟨last, rfl, rfl, low, high, slots, rfl, moved⟩
  cases last with
  | zero =>
    obtain rfl : index = 0 := by omega
    rw [raise_self] at moved
    simpa [ensures_ite, moved] using holds
  | succ last =>
    by_cases more : index < last + 1
    · have here : ((last + 1 : Nat) : Int) - 1 = (last : Nat) := by omega
      have goesOn : ((last + 1 : Nat) : Int) > index := by omega
      simp only [if_pos goesOn, ensures_bind, ensures_pure]
      have inside : last + 1 < map.size := by omega
      refine ensures_getItem here (Nat.lt_of_succ_lt inside) (ensures_setItem rfl inside ?_)
      refine ⟨last - index, by omega, last, here, rfl, by omega, by omega, _, rfl, ?_⟩
      rw [raise_succ (by omega), moved]
    · obtain rfl : index = last + 1 := by omega
      rw [raise_self] at moved
      simpa [ensures_ite, moved] using holds

theorem ensures_insertItem (below : index ≤ map.len) (room : map.len < map.size)
    {post : Unit → Items α → Prop} (holds : post () (map.insertAt index x)) :
    Ensures (insertItem (index : Int) x) post map := by
  unfold insertItem
  simp only [ensures_bind, ensures_modify]
  exact ensures_shiftUp below room (ensures_setItem rfl (Nat.lt_of_le_of_lt below room) holds)

theorem ensures_shiftDown {last : Nat} (top : map.len = last + 1) (below : index ≤ last)
    (fits : map.len ≤ map.size) {post : Unit → Items α → Prop}
    (holds : post () { map with item := lower map.item index last }) :
    Ensures (shiftDown (index : Int)) post map := by
  unfold shiftDown
  simp only [ensures_bind, ensures_get]
  refine ensures_loop (fun left (i : Int) state => ∃ low : Nat, i = low ∧ left = last - low ∧ low ≤ last ∧
    ∃ slots, state = { map with item := slots } ∧ lower slots low last = lower map.item index last) ?_
    (show last - index < map.len + 1 by omega) ⟨index, rfl, rfl, below, map.item, rfl, rfl⟩
  rintro left _ _ ⟨low, rfl, rfl, high, slots, rfl, moved⟩
  by_cases more : low < last
  · have goesOn : (low : Int) < (map.len : Int) - 1 := by omega
    simp only [ensures_bind, ensures_get, ensures_pure, if_pos goesOn]
    have inside : low + 1 < map.size := by omega
    refine ensures_getItem (n := low + 1) rfl inside (ensures_setItem rfl (Nat.lt_of_succ_lt inside) ?_)
    refine ⟨last - (low + 1), by omega, low + 1, rfl, rfl, by omega, _, rfl, ?_⟩
    rw [lower_succ more, moved]
  · obtain rfl : low = last := by omega
    rw [lower_self] at moved
    have stops : ¬ (low : Int) < (map.len : Int) - 1 := by omega
    simp only [ensures_bind, ensures_get, ensures_pure, if_neg stops]
    rw [moved]
    exact holds

end

end Embedlib.ArrayUtils
