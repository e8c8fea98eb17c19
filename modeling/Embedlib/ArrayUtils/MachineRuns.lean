import Embedlib.ArrayUtils.LifeCycle
import Embedlib.ArrayUtils.Machine

/-! Runs of `ARRAY_MAP` and `ARRAY_MAP_POOL` with the integer types of the source. -/

set_option autoImplicit false

namespace Embedlib.ArrayUtils.Machine

open Library

section
variable {α κ : Type} [LinearOrder κ] (c : KeyCmp α κ)

def mapCall : ArrayMap.Call α κ → Program (Items α) (ArrayMap.Answer α)
  | .init buf siz => do
    set (Items.init buf siz)
    return .done
  | .insert key value => return .inserted (← arrayMapInsert c.keyCmp key value)
  | .remove key => do
    arrayMapRemove c.keyCmp key
    return .done
  | .find key value => do
    let (ok, value) ← arrayMapFind c.keyCmp key value
    return .found ok value
  | .clear => do
    arrayMapClear
    return .done

def mapRun : List (ArrayMap.Call α κ) → Program (Items α) (List (ArrayMap.Answer α))
  | [] => return []
  | first :: rest => do
    let answer ← mapCall c first
    return answer :: (← mapRun rest)

end

def Short {α κ : Type} : ArrayMap.Call α κ → Prop
  | .init _ siz => siz ≤ 2 ^ 30
  | _ => True

section
variable {α κ : Type} [LinearOrder κ] {c : KeyCmp α κ} {map : Items α}

theorem mapCall_eq (small : Small map) (request : ArrayMap.Call α κ) :
    mapCall c request map = ArrayMap.call c request map := by
  cases request with
  | init | clear => rfl
  | insert key value => exact bind_congr_at (arrayMapInsert_eq small _ key value) (whenever_true _ _) fun _ _ _ => rfl
  | remove key => exact bind_congr_at (arrayMapRemove_eq small _ key) (whenever_true _ _) fun _ _ _ => rfl
  | find key value => exact bind_congr_at (arrayMapFind_eq small _ key value) (whenever_true _ _) fun _ _ _ => rfl

theorem ensures_small (small : Small map) {request : ArrayMap.Call α κ} (asked : Short request) :
    Ensures (ArrayMap.call c request) (fun _ => Small) map := by
  have fits := small.fits
  cases request with
  | init buf siz => exact ⟨Nat.zero_le _, asked⟩
  | clear => exact ⟨Nat.zero_le _, small.short⟩
  | insert key value =>
    simp only [ArrayMap.call, ArrayUtils.arrayMapInsert, ensures_bind, ensures_pure]
    apply (ensures_ends small c.keyCmp key).mono
    rintro _ _ ⟨rfl, index, ⟨rfl, _⟩ | ⟨rfl, below⟩⟩
    · exact small
    · simp only [Bool.not_false, if_true, ensures_bind, ensures_get]
      by_cases full : map.len ≥ map.size
      · rw [if_pos full]
        exact small
      · rw [if_neg full, ensures_bind]
        have room : map.len < map.size := by omega
        exact ensures_insertItem below room ⟨room, small.short⟩
  | remove key =>
    simp only [ArrayMap.call, ArrayUtils.arrayMapRemove, ensures_bind, ensures_pure]
    apply (ensures_ends small c.keyCmp key).mono
    rintro _ _ ⟨rfl, index, ⟨rfl, inside⟩ | ⟨rfl, _⟩⟩
    · simp only [if_true, ensures_bind, ensures_modify]
      exact ensures_shiftDown (show map.len = map.len - 1 + 1 by omega) (by omega) fits
        ⟨(Nat.sub_le _ _).trans fits, small.short⟩
    · exact small
  | find key value =>
    simp only [ArrayMap.call, ArrayUtils.arrayMapFind, ensures_bind, ensures_pure]
    apply (ensures_ends small c.keyCmp key).mono
    rintro _ _ ⟨rfl, index, ⟨rfl, inside⟩ | ⟨rfl, _⟩⟩
    · simp only [if_true, ensures_bind, ensures_pure]
      exact ensures_getItem rfl (inside.trans_le fits) small
    · exact small

theorem mapRun_eq (small : Small map) {calls : List (ArrayMap.Call α κ)} (asked : ∀ call ∈ calls, Short call) :
    mapRun c calls map = ArrayMap.run c calls map ∧ Ensures (ArrayMap.run c calls) (fun _ => Small) map := by
  induction calls generalizing map with
  | nil => exact ⟨rfl, small⟩
  | cons first rest ih =>
    obtain ⟨here, others⟩ := List.forall_mem_cons.mp asked
    have kept := ensures_small (c := c) small here
    constructor
    · refine bind_congr_at (mapCall_eq small first) kept.whenever fun answer middle small' => ?_
      exact bind_congr_at (ih small' others).1 (whenever_true _ _) fun _ _ _ => rfl
    · exact kept.bind fun answer middle small' => (ih small' others).2.bind fun _ _ ends => ends

/-- On buffers of up to `2 ^ 30` values the array map of the source runs as with
unbounded integers: without an overflow and inside its buffer, whatever is
inserted. If values are inserted under the keys they carry, it is the finite map. -/
theorem map_run_machine (c : KeyCmp α κ) (buf : Nat → α) {siz : Nat} (short : siz ≤ 2 ^ 30)
    {calls : List (ArrayMap.Call α κ)} (asked : ∀ call ∈ calls, Short call) :
    ∃ answers map, mapRun c calls (Items.init buf siz) = .ok (answers, map) ∧
      ArrayMap.run c calls (Items.init buf siz) = .ok (answers, map) ∧ map.len ≤ map.size ∧
      ((∀ call ∈ calls, ArrayMap.Admits c call) →
        answers = ((ArrayMap.Ref.init siz).run calls).1 ∧
        ArrayMap.Represents c map ((ArrayMap.Ref.init siz).run calls).2) := by
  have start : Small (Items.init buf siz) := ⟨Nat.zero_le _, short⟩
  obtain ⟨same, ensured⟩ := mapRun_eq (c := c) start asked
  obtain ⟨answers, map, ran, small⟩ := ensured.result
  refine ⟨answers, map, same.trans ran, ran, small.fits, fun admitted => ?_⟩
  exact (ensures_of_run ran).mp ((ArrayMap.represents_init buf siz).ensures_run admitted)

/-- The tests' items in a buffer that is full, and again in one of the largest size. -/
def refilled : List (ArrayMap.Call (Int × Int) Int) :=
  ArrayMap.fill ++ [.init (fun _ => (0, 0)) (2 ^ 30), .insert 4 (4, 0), .find 4 (0, 0)]

theorem map_run_machine_fill :
    ∃ answers map, mapRun ArrayMap.aItem refilled (Items.init (fun _ => (0, 0)) 2) = .ok (answers, map) ∧
      ArrayMap.run ArrayMap.aItem refilled (Items.init (fun _ => (0, 0)) 2) = .ok (answers, map) ∧
      map.len ≤ map.size ∧ answers = ((ArrayMap.Ref.init 2).run refilled).1 ∧
      ArrayMap.Represents ArrayMap.aItem map ((ArrayMap.Ref.init 2).run refilled).2 := by
  have short : ∀ call ∈ refilled, Short call := by simp [refilled, ArrayMap.fill, Short]
  obtain ⟨answers, map, ranMachine, ran, fits, represents⟩ := map_run_machine ArrayMap.aItem (fun _ => (0, 0))
    (show 2 ≤ 2 ^ 30 by decide) short
  have admitted : ∀ call ∈ refilled, ArrayMap.Admits ArrayMap.aItem call := by
    simp [refilled, ArrayMap.fill, ArrayMap.Admits, ArrayMap.aItem]
  exact ⟨answers, map, ranMachine, ran, fits, represents admitted⟩

end

section
variable {ν δ κ : Type} (gen : PoolGen ν δ κ)

def poolCall : ArrayMapPool.Call κ → Program (Pool ν δ κ) (Option ν)
  | .get key => arrayMapPoolGet gen key
  | .free key => do
    arrayMapPoolFree gen key
    return none
  | .find key => arrayMapPoolFind gen key
  | .clear => do
    arrayMapPoolClear
    return none

def poolRun : List (ArrayMapPool.Call κ) → Program (Pool ν δ κ) (List (Option ν))
  | [] => return []
  | first :: rest => do
    let answer ← poolCall gen first
    return answer :: (← poolRun rest)

end

section
variable {ν δ κ : Type} {gen : PoolGen ν δ κ} {pointers : List ν} {pool : Pool ν δ κ}

open ArrayMapPool (Stocked Searched search_inside)

theorem arrayMapPoolBsearch_eq (gen : PoolGen ν δ κ) (short : pool.items.len ≤ 2 ^ 30) (key : κ) :
    arrayMapPoolBsearch .int32 gen.keyCmp key pool = arrayMapPoolBsearch .exact gen.keyCmp key pool := by
  unfold arrayMapPoolBsearch
  rw [get_bind, get_bind]
  exact within_congr (bsearch_eq short _ key)

theorem whenever_onItems {β : Type} {program : Program (Items ν) β} {post : β → Items ν → Prop}
    (holds : Whenever program post pool.items) :
    Whenever (onItems program) (fun result (after : Pool ν δ κ) => post result after.items) pool :=
  whenever_within holds

theorem whenever_initialized (item : ν) (key : κ) :
    Whenever (callInitializer gen item key) (fun _ after => after.items = pool.items) pool := by
  rintro _ _ ⟨⟩
  rfl

theorem whenever_finalized (item : ν) :
    Whenever (callFinalizer gen item) (fun _ (after : Pool ν δ κ) => after.items = pool.items) pool := by
  rintro _ _ ⟨⟩
  rfl

variable (stocked : Stocked pointers pool) (short : pool.items.size ≤ 2 ^ 30) (key : κ)
include stocked short

theorem arrayMapPoolGet_eq : arrayMapPoolGet gen key pool = ArrayUtils.arrayMapPoolGet gen key pool := by
  have search := arrayMapPoolBsearch_eq gen (stocked.fits.trans short) key
  refine bind_congr_at search (search_inside stocked key).whenever ?_
  rintro _ _ ⟨rfl, index, ⟨rfl, _⟩ | ⟨rfl, below, _⟩⟩
  · simp only [Bool.not_true, Bool.false_eq_true, if_false]
  · simp only [Bool.not_false, if_true]
    rw [get_bind, get_bind]
    by_cases full : pool.items.len ≥ pool.items.size
    · simp only [if_pos full]
    · simp only [if_neg full]
      refine bind_congr_at rfl (whenever_onItems (whenever_getItem _)) fun newItem middle same => ?_
      refine bind_congr_at rfl (whenever_initialized newItem key) fun _ ready kept => ?_
      have inserted : insertItem (index : Int) newItem ready.items =
          ArrayUtils.insertItem (index : Int) newItem ready.items := by
        rw [kept, same]
        exact insertItem_eq below (by omega) short newItem
      exact bind_congr_at (within_congr inserted) (whenever_true _ _) fun _ _ _ => rfl

theorem arrayMapPoolFree_eq : arrayMapPoolFree gen key pool = ArrayUtils.arrayMapPoolFree gen key pool := by
  have fits := stocked.fits
  have search := arrayMapPoolBsearch_eq gen (fits.trans short) key
  refine bind_congr_at search (search_inside stocked key).whenever ?_
  rintro _ _ ⟨rfl, index, ⟨rfl, inside, _⟩ | ⟨rfl, _⟩⟩
  · simp only [if_true]
    refine bind_congr_at rfl (whenever_onItems (whenever_getItem _)) fun item looked same => ?_
    refine bind_congr_at rfl (whenever_finalized item) fun _ ready kept => ?_
    refine bind_congr_at rfl (whenever_onItems (whenever_getItem _)) fun freeItem middle again => ?_
    have items : middle.items = pool.items := again.trans (kept.trans same)
    have down : shiftDown (index : Int) middle.items = ArrayUtils.shiftDown (index : Int) middle.items := by
      rw [items]
      exact shiftDown_eq (fits.trans short) (by omega) (by omega)
    have moves : Whenever (ArrayUtils.shiftDown (index : Int)) (fun _ after => after.len = pool.items.len)
        middle.items := by
      rw [items]
      exact whenever_shiftDown inside fits
    refine bind_congr_at (within_congr down) (whenever_onItems moves) fun _ shifted moved => ?_
    have last : uint32 ((shifted.items.len : Int) - 1) = shifted.items.len - 1 := uint32_eq (by omega) (by omega)
    rw [get_bind, get_bind, last]
    refine bind_congr_at rfl (whenever_onItems (whenever_setItem _ freeItem)) fun _ stored put => ?_
    exact within_congr (decrementLen_eq (by omega) (by omega))
  · simp only [Bool.false_eq_true, if_false]

theorem arrayMapPoolFind_eq : arrayMapPoolFind gen key pool = ArrayUtils.arrayMapPoolFind gen key pool :=
  bind_congr_at (arrayMapPoolBsearch_eq gen (stocked.fits.trans short) key) (whenever_true _ _) fun _ _ _ => rfl

omit key in
theorem poolCall_eq (request : ArrayMapPool.Call κ) :
    poolCall gen request pool = ArrayMapPool.call gen request pool := by
  cases request with
  | get key => exact arrayMapPoolGet_eq stocked short key
  | free key => exact bind_congr_at (arrayMapPoolFree_eq stocked short key) (whenever_true _ _) fun _ _ _ => rfl
  | find key => exact arrayMapPoolFind_eq stocked short key
  | clear => rfl

end

section
variable {ν δ κ : Type} {pointers : List ν}

open ArrayMapPool (Stocked ensures_outcome)

theorem poolRun_eq (gen : PoolGen ν δ κ) (short : pointers.length ≤ 2 ^ 30) {pool : Pool ν δ κ}
    (stocked : Stocked pointers pool)
    (calls : List (ArrayMapPool.Call κ)) :
    poolRun gen calls pool = ArrayMapPool.run gen calls pool ∧
      Ensures (ArrayMapPool.run gen calls) (fun _ => Stocked pointers) pool := by
  induction calls generalizing pool with
  | nil => exact ⟨rfl, stocked⟩
  | cons first rest ih =>
    have small : pool.items.size ≤ 2 ^ 30 := stocked.size_eq.trans_le short
    have kept : Ensures (ArrayMapPool.call gen first) (fun _ => Stocked pointers) pool :=
      (ensures_outcome stocked first).mono fun _ _ outcome => stocked.outcome outcome
    constructor
    · refine bind_congr_at (poolCall_eq stocked small first) kept.whenever fun answer middle stocked' => ?_
      exact bind_congr_at (ih stocked').1 (whenever_true _ _) fun _ _ _ => rfl
    · exact kept.bind fun answer middle stocked' => (ih stocked').2.bind fun _ _ ends => ends

/-- A pool of up to `2 ^ 30` pointers runs as with unbounded integers, without an
overflow and without losing a pointer, whatever the comparator, the initializer and
the finalizer do. If they respect the keys, it is the abstract pool. -/
theorem pool_run_machine (gen : PoolGen ν δ κ) (buf : Nat → ν) {siz : Nat} (short : siz ≤ 2 ^ 30)
    (objects : ν → δ) (calls : List (ArrayMapPool.Call κ)) :
    ∃ answers pool, poolRun gen calls (Pool.init buf siz objects) = .ok (answers, pool) ∧
      ArrayMapPool.run gen calls (Pool.init buf siz objects) = .ok (answers, pool) ∧
      Stocked (segment buf 0 siz) pool ∧
      (∀ [LinearOrder κ], ∀ keys : gen.Keys, (segment buf 0 siz).Nodup → ∃ ref,
        ArrayMapPool.Ref.Run ⟨fun _ => none, segment buf 0 siz⟩ calls answers pool.log ref ∧
        ArrayMapPool.Represents keys (segment buf 0 siz) pool ref) := by
  have few : (segment buf 0 siz).length ≤ 2 ^ 30 := length_segment.trans_le short
  obtain ⟨same, ensured⟩ := poolRun_eq gen few (ArrayMapPool.stocked_init buf siz objects) calls
  obtain ⟨answers, pool, ran, stocked⟩ := ensured.result
  refine ⟨answers, pool, same.trans ran, ran, stocked, fun keys distinct => ?_⟩
  have represents := (ArrayMapPool.represents_init keys buf siz objects).ensures_run distinct calls
  obtain ⟨events, ref, steps, represents', logged⟩ := (ensures_of_run ran).mp represents
  obtain rfl : pool.log = events := logged
  exact ⟨ref, steps, represents'⟩

theorem pool_run_machine_itemPool :
    ∃ answers pool,
      poolRun ArrayMapPool.itemPool ArrayMapPool.itemCalls (Pool.init (fun i => i) 4 fun _ => 0) = .ok (answers, pool) ∧
      ArrayMapPool.run ArrayMapPool.itemPool ArrayMapPool.itemCalls (Pool.init (fun i => i) 4 fun _ => 0) =
        .ok (answers, pool) ∧
      Stocked (segment (fun i => i) 0 4) pool ∧
      (∀ [LinearOrder Int], ∀ keys : ArrayMapPool.itemPool.Keys, (segment (fun i => i) 0 4).Nodup → ∃ ref,
        ArrayMapPool.Ref.Run ⟨fun _ => none, segment (fun i => i) 0 4⟩ ArrayMapPool.itemCalls answers pool.log ref ∧
        ArrayMapPool.Represents keys (segment (fun i => i) 0 4) pool ref) :=
  pool_run_machine ArrayMapPool.itemPool (fun i => i) (by decide) (fun _ => 0) ArrayMapPool.itemCalls

end

end Embedlib.ArrayUtils.Machine
