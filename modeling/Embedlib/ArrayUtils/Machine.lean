import Embedlib.ArrayUtils.SearchOverflow
import Embedlib.Library.Preservation

/-! `ARRAY_MAP` and `ARRAY_MAP_POOL` with the integer types of the source.

The fields are `uint32_t`, `index` and the counters of the loops are `int` or
`uint32_t` as declared. Up to a capacity of `2 ^ 30` this makes no difference,
whatever the comparator says.
-/

set_option autoImplicit false

namespace Embedlib.ArrayUtils.Machine

open Library IntArithmetic

variable {α κ : Type}

/-- The value of an `uint32_t` expression. -/
def uint32 (n : Int) : Int := n % 2 ^ 32

def shiftUpRound (index i : Int) : Program (Items α) (Turn Int Unit) := do
  if i > index then
    setItem i (← getItem (← int32.int (i - 1)))
    return .again (← int32.int (i - 1))
  else
    return .leave ()

/-- `for (i = len; i > index; --i) item[i] = item[i - 1]` with an `int` counter -/
def shiftUp (index : Int) : Program (Items α) Unit := do
  let len := (← get).len
  loop (shiftUpRound index) (len + 1) (int32.ofUnsigned len)

def shiftDownRound (i : Int) : Program (Items α) (Turn Int Unit) := do
  if i < uint32 ((← get).len - 1) then
    setItem i (← getItem (uint32 (i + 1)))
    return .again (uint32 (i + 1))
  else
    return .leave ()

/-- `for (i = index; i < len - 1; ++i) item[i] = item[i + 1]` with an `uint32_t` counter -/
def shiftDown (index : Int) : Program (Items α) Unit := do
  let len := (← get).len
  loop shiftDownRound (len + 1) (uint32 index)

/-- `++len` -/
def incrementLen : Program (Items α) Unit := modify fun map => { map with len := (uint32 (map.len + 1)).toNat }

/-- `--len` -/
def decrementLen : Program (Items α) Unit := modify fun map => { map with len := (uint32 (map.len - 1)).toNat }

def insertItem (index : Int) (value : α) : Program (Items α) Unit := do
  shiftUp index
  setItem index value
  incrementLen

/-- `ARRAY_MAP_GENERATE_INSERT` -/
def arrayMapInsert (keyCmp : α → κ → Int) (key : κ) (value : α) : Program (Items α) Bool := do
  let (found, index) ← arrayMapBsearch .int32 keyCmp key
  if !found then
    let map ← get
    if map.len ≥ map.size then
      return false
    else
      insertItem index value
      return true
  else
    return false

/-- `ARRAY_MAP_GENERATE_REMOVE` -/
def arrayMapRemove (keyCmp : α → κ → Int) (key : κ) : Program (Items α) Unit := do
  let (found, index) ← arrayMapBsearch .int32 keyCmp key
  if found then
    shiftDown index
    decrementLen

/-- `ARRAY_MAP_GENERATE_FIND` -/
def arrayMapFind (keyCmp : α → κ → Int) (key : κ) (value : α) : Program (Items α) (Bool × α) := do
  let (found, index) ← arrayMapBsearch .int32 keyCmp key
  if found then
    return (true, ← getItem index)
  else
    return (false, value)

section
variable {ν δ : Type} (gen : PoolGen ν δ κ)

/-- `ARRAY_MAP_POOL_GENERATE_GET` -/
def arrayMapPoolGet (key : κ) : Program (Pool ν δ κ) (Option ν) := do
  let (found, index) ← arrayMapPoolBsearch .int32 gen.keyCmp key
  if !found then
    let map := (← get).items
    if map.len ≥ map.size then
      return none
    else
      let newItem ← onItems (getItem map.len)
      callInitializer gen newItem key
      onItems (insertItem index newItem)
      return some (← onItems (getItem index))
  else
    return some (← onItems (getItem index))

/-- `ARRAY_MAP_POOL_GENERATE_FREE` -/
def arrayMapPoolFree (key : κ) : Program (Pool ν δ κ) Unit := do
  let (found, index) ← arrayMapPoolBsearch .int32 gen.keyCmp key
  if found then
    callFinalizer gen (← onItems (getItem index))
    let freeItem ← onItems (getItem index)
    onItems (shiftDown index)
    let len := (← get).items.len
    onItems (setItem (uint32 (len - 1)) freeItem)
    onItems decrementLen

/-- `ARRAY_MAP_POOL_GENERATE_FIND` -/
def arrayMapPoolFind (key : κ) : Program (Pool ν δ κ) (Option ν) := do
  let (found, index) ← arrayMapPoolBsearch .int32 gen.keyCmp key
  if found then
    return some (← onItems (getItem index))
  else
    return none

end

section
variable {map : Items α}

/-- The buffer is not longer than `2 ^ 30`, and holds what is stored. -/
structure Small (map : Items α) : Prop where
  fits : map.len ≤ map.size
  short : map.size ≤ 2 ^ 30

theorem int_int32 {σ : Type} {n : Int} (fits : -2 ^ 31 ≤ n ∧ n < 2 ^ 31) :
    (int32.int n : Program σ Int) = pure n := by
  funext state
  simp only [IntArithmetic.int, int32, if_pos fits, Except.map]
  rfl

theorem exact_int {σ : Type} (n : Int) : (exact.int n : Program σ Int) = pure n := rfl

theorem uint32_eq {n : Int} (low : 0 ≤ n) (high : n < 2 ^ 32) : uint32 n = n := Int.emod_eq_of_lt low high

theorem whenever_getItem (i : Int) : Whenever (getItem i) (fun _ after => after = map) map := by
  apply whenever_get
  by_cases inside : 0 ≤ i ∧ i < map.size
  · rw [if_pos inside]
    exact whenever_pure rfl
  · rw [if_neg inside]
    exact nofun

theorem whenever_setItem (i : Int) (value : α) :
    Whenever (setItem i value) (fun _ after => after.len = map.len) map := by
  apply whenever_get
  by_cases inside : 0 ≤ i ∧ i < map.size
  · rw [if_pos inside]
    rintro _ _ ⟨⟩
    rfl
  · rw [if_neg inside]
    exact nofun

/-- Bounds whose sum fits in an `int`. -/
structure Bounded (bounds : Int × Int) : Prop where
  low : 0 ≤ bounds.1
  low_le : bounds.1 ≤ 2 ^ 30
  high : -1 ≤ bounds.2
  high_lt : bounds.2 < 2 ^ 30

section
variable {bounds : Int × Int}

theorem Bounded.middle (bounded : Bounded bounds) (more : bounds.1 ≤ bounds.2) :
    bounds.1 ≤ (bounds.1 + bounds.2).tdiv 2 ∧ (bounds.1 + bounds.2).tdiv 2 ≤ bounds.2 := by
  have low := bounded.low
  rw [Int.tdiv_eq_ediv_of_nonneg (by omega)]
  omega

theorem bsearchRound_eq (bounded : Bounded bounds) (keyCmp : α → κ → Int) (key : κ) :
    bsearchRound .int32 keyCmp key bounds map = bsearchRound .exact keyCmp key bounds map := by
  obtain ⟨low, high⟩ := bounds
  have low_nonneg : 0 ≤ low := bounded.low
  have high_lt : high < 2 ^ 30 := bounded.high_lt
  unfold bsearchRound
  by_cases more : low ≤ high
  · obtain ⟨above, below⟩ : low ≤ (low + high).tdiv 2 ∧ (low + high).tdiv 2 ≤ high := bounded.middle more
    simp only [if_pos more, exact_int, pure_bind,
      int_int32 (show -2 ^ 31 ≤ low + high ∧ low + high < 2 ^ 31 by omega),
      int_int32 (show -2 ^ 31 ≤ (low + high).tdiv 2 + 1 ∧ (low + high).tdiv 2 + 1 < 2 ^ 31 by omega),
      int_int32 (show -2 ^ 31 ≤ (low + high).tdiv 2 - 1 ∧ (low + high).tdiv 2 - 1 < 2 ^ 31 by omega)]
  · simp only [if_neg more]

theorem bsearchRound_bounded (bounded : Bounded bounds) (keyCmp : α → κ → Int) (key : κ) :
    Whenever (bsearchRound .exact keyCmp key bounds)
      (fun turn _ => ∀ next, turn = .again next → Bounded next) map := by
  obtain ⟨low, high⟩ := bounds
  have low_nonneg : 0 ≤ low := bounded.low
  have high_lt : high < 2 ^ 30 := bounded.high_lt
  have low_le : low ≤ 2 ^ 30 := bounded.low_le
  have high_ge : -1 ≤ high := bounded.high
  unfold bsearchRound
  by_cases more : low ≤ high
  · obtain ⟨above, below⟩ : low ≤ (low + high).tdiv 2 ∧ (low + high).tdiv 2 ≤ high := bounded.middle more
    simp only [if_pos more, exact_int, pure_bind]
    refine (whenever_getItem _).bind fun item _ _ => ?_
    by_cases less : keyCmp item key < 0
    · simp only [if_pos less]
      refine whenever_pure ?_
      rintro _ ⟨⟩
      constructor <;> simp only <;> omega
    · by_cases greater : keyCmp item key > 0
      · simp only [if_neg less, if_pos greater]
        refine whenever_pure ?_
        rintro _ ⟨⟩
        constructor <;> simp only <;> omega
      · simp only [if_neg less, if_neg greater]
        exact whenever_pure nofun
  · simp only [if_neg more]
    exact whenever_pure nofun

end

theorem bsearch_eq (short : map.len ≤ 2 ^ 30) (keyCmp : α → κ → Int) (key : κ) :
    bsearch .int32 keyCmp key map = bsearch .exact keyCmp key map := by
  have last := ofUnsigned_int32 (show map.len ≤ 2 ^ 31 by omega)
  have start : Bounded (0, (map.len : Int) - 1) := ⟨by omega, by omega, by omega, by omega⟩
  unfold bsearch
  rw [get_bind, get_bind, last]
  exact loop_congr (fun bounds _ => Bounded bounds) (fun _ _ bounded => bsearchRound_eq bounded keyCmp key)
    (fun _ _ bounded => bsearchRound_bounded bounded keyCmp key) _ start

theorem ofUnsigned_eq {n : Nat} (short : n ≤ 2 ^ 30) : int32.ofUnsigned (n : Int) = n := by
  simp only [int32, Int.bmod]
  omega

theorem shiftUpRound_eq {index i : Int} (low : 0 ≤ i) (high : i ≤ 2 ^ 30) :
    (shiftUpRound index i : Program (Items α) _) = do
      if i > index then
        setItem i (← getItem (i - 1))
        return .again (i - 1)
      else
        return .leave () := by
  simp only [shiftUpRound, int_int32 (show -2 ^ 31 ≤ i - 1 ∧ i - 1 < 2 ^ 31 by omega), pure_bind]

theorem shiftUp_eq (short : map.len ≤ 2 ^ 30) {index : Int} (low : 0 ≤ index) :
    shiftUp index map = ArrayUtils.shiftUp index map := by
  have start := ofUnsigned_eq short
  unfold shiftUp ArrayUtils.shiftUp
  rw [get_bind, get_bind, start]
  refine loop_congr (fun (i : Int) _ => 0 ≤ i ∧ i ≤ 2 ^ 30) (fun i state bounds => ?_) (fun i state bounds => ?_) _
    (by omega)
  · rw [shiftUpRound_eq bounds.1 bounds.2]
  · by_cases more : i > index
    · simp only [if_pos more]
      refine (whenever_getItem _).bind fun item _ _ => (whenever_setItem i item).bind fun _ _ _ => whenever_pure ?_
      rintro _ ⟨⟩
      omega
    · simp only [if_neg more]
      exact whenever_pure nofun

theorem shiftDown_eq (short : map.len ≤ 2 ^ 30) {index : Int} (low : 0 ≤ index) (inside : index < map.len) :
    shiftDown index map = ArrayUtils.shiftDown index map := by
  have start : uint32 index = index := uint32_eq low (by omega)
  unfold shiftDown ArrayUtils.shiftDown
  rw [get_bind, get_bind, start]
  refine loop_congr (fun (i : Int) state => 0 ≤ i ∧ i < map.len ∧ state.len = map.len) (fun i state bounds => ?_)
    (fun i state bounds => ?_) _ ⟨low, inside, rfl⟩
  · obtain ⟨nonneg, less, same⟩ := bounds
    have last : uint32 ((state.len : Int) - 1) = state.len - 1 := uint32_eq (by omega) (by omega)
    have next : uint32 (i + 1) = i + 1 := uint32_eq (by omega) (by omega)
    rw [shiftDownRound, next, get_bind, get_bind, last]
  · obtain ⟨nonneg, less, same⟩ := bounds
    apply whenever_get
    by_cases more : i < (state.len : Int) - 1
    · simp only [if_pos more]
      refine (whenever_getItem _).bind fun item _ kept => (whenever_setItem i item).bind fun _ _ stored => whenever_pure ?_
      subst kept
      rintro _ ⟨⟩
      omega
    · simp only [if_neg more]
      exact whenever_pure nofun

section
variable {index : Nat}

theorem insertItem_eq (below : index ≤ map.len) (room : map.len < map.size) (short : map.size ≤ 2 ^ 30) (value : α) :
    insertItem (index : Int) value map = ArrayUtils.insertItem (index : Int) value map := by
  have shifted : Ensures (ArrayUtils.shiftUp (index : Int)) (fun _ after => after.len = map.len) map :=
    ensures_shiftUp below room rfl
  unfold insertItem ArrayUtils.insertItem
  refine bind_congr_at (shiftUp_eq (by omega) (by omega)) shifted.whenever fun _ middle moved => ?_
  refine bind_congr_at rfl (whenever_setItem _ value) fun _ after stored => ?_
  have grows : uint32 ((after.len : Int) + 1) = after.len + 1 := uint32_eq (by omega) (by omega)
  simp only [incrementLen, modify, modifyGet, MonadStateOf.modifyGet, StateT.modifyGet, grows]
  rfl

theorem decrementLen_eq (some : 0 < map.len) (short : map.len ≤ 2 ^ 30) :
    decrementLen map = (modify fun map => { map with len := map.len - 1 } : Program (Items α) Unit) map := by
  have shrinks : (uint32 ((map.len : Int) - 1)).toNat = map.len - 1 := by
    rw [uint32_eq (by omega) (by omega)]
    omega
  simp only [decrementLen, modify, modifyGet, MonadStateOf.modifyGet, StateT.modifyGet, shrinks]

theorem whenever_shiftDown (inside : index < map.len) (fits : map.len ≤ map.size) :
    Whenever (ArrayUtils.shiftDown (index : Int)) (fun _ after => after.len = map.len) map := by
  have shifted : Ensures (ArrayUtils.shiftDown (index : Int)) (fun _ after => after.len = map.len) map :=
    ensures_shiftDown (show map.len = map.len - 1 + 1 by omega) (by omega) fits rfl
  exact shifted.whenever

def Ends (map : Items α) (result : Bool × Int) (after : Items α) : Prop :=
  map = after ∧ ∃ index : Nat, result = (true, (index : Int)) ∧ index < map.len ∨
    result = (false, (index : Int)) ∧ index ≤ map.len

end

section
variable (small : Small map) (keyCmp : α → κ → Int) (key : κ)
include small

theorem ensures_ends : Ensures (ArrayUtils.arrayMapBsearch .exact keyCmp key) (Ends map) map := by
  refine (guides_inside keyCmp map key).ensures_bsearch small.fits ?_ ?_
  · exact fun low high inv more _ => ⟨rfl, _, .inl ⟨rfl, (middle_lt more).trans_le inv.2⟩⟩
  · exact fun low inv => ⟨rfl, low, .inr ⟨rfl, inv.2⟩⟩

theorem arrayMapInsert_eq (value : α) :
    arrayMapInsert keyCmp key value map = ArrayUtils.arrayMapInsert keyCmp key value map := by
  have short := small.short
  have search := bsearch_eq (small.fits.trans small.short) keyCmp key
  refine bind_congr_at search (ensures_ends small keyCmp key).whenever ?_
  rintro _ _ ⟨rfl, index, ⟨rfl, _⟩ | ⟨rfl, below⟩⟩
  · simp only [Bool.not_true, Bool.false_eq_true, if_false]
  · simp only [Bool.not_false, if_true]
    rw [get_bind, get_bind]
    by_cases full : map.len ≥ map.size
    · simp only [if_pos full]
    · simp only [if_neg full]
      exact bind_congr_at (insertItem_eq below (by omega) small.short value) (whenever_true _ _) fun _ _ _ => rfl

theorem arrayMapRemove_eq : arrayMapRemove keyCmp key map = ArrayUtils.arrayMapRemove keyCmp key map := by
  have fits := small.fits
  have short := fits.trans small.short
  refine bind_congr_at (bsearch_eq short keyCmp key) (ensures_ends small keyCmp key).whenever ?_
  rintro _ _ ⟨rfl, index, ⟨rfl, inside⟩ | ⟨rfl, _⟩⟩
  · simp only [if_true]
    refine bind_congr_at (shiftDown_eq short (by omega) (by omega)) (whenever_shiftDown inside fits) ?_
    intro _ after moved
    exact decrementLen_eq (by omega) (by omega)
  · rfl

theorem arrayMapFind_eq (value : α) :
    arrayMapFind keyCmp key value map = ArrayUtils.arrayMapFind keyCmp key value map :=
  bind_congr_at (bsearch_eq (small.fits.trans small.short) keyCmp key) (ensures_ends small keyCmp key).whenever
    fun _ _ _ => rfl

end

end

end Embedlib.ArrayUtils.Machine
