import Embedlib.ArrayUtils.Search

/-! `ARRAY_MAP_POOL`, and what each of its operations does to the pool. -/

set_option autoImplicit false

namespace Embedlib.ArrayUtils

open Library

variable {ν δ κ : Type}

/-- Calls of the initializer and of the finalizer. -/
inductive Event (ν κ : Type) where
  | initialized (object : ν) (key : κ)
  | finalized (object : ν)
  deriving DecidableEq, Repr

/-- A pool of pointers, what they point to, and the events so far. -/
@[ext] structure Pool (ν δ κ : Type) where
  items : Items ν
  objects : ν → δ
  log : List (Event ν κ)

/-- `ARRAY_MAP_POOL_INIT` -/
def Pool.init (buf : Nat → ν) (siz : Nat) (objects : ν → δ) : Pool ν δ κ :=
  ⟨Items.init buf siz, objects, []⟩

/-- What `ARRAY_MAP_POOL_GEN` is given, on the contents of the objects. -/
structure PoolGen (ν δ κ : Type) where
  keyCmp : δ → κ → Int
  initializer : ν → κ → (ν → δ) → ν → δ
  finalizer : ν → (ν → δ) → ν → δ

/-- `key_cmp` follows the order of the keys in the objects. The initializer and the
finalizer may change any object, but no key except that of their own object. -/
structure PoolGen.Keys {ν δ κ : Type} [LinearOrder κ] (gen : PoolGen ν δ κ) where
  keyOf : δ → κ
  keyCmp_neg : ∀ x k, gen.keyCmp x k < 0 ↔ keyOf x < k
  keyCmp_pos : ∀ x k, 0 < gen.keyCmp x k ↔ k < keyOf x
  initializer_self : ∀ x k objects, keyOf (gen.initializer x k objects x) = k
  initializer_other : ∀ x k objects y, y ≠ x → keyOf (gen.initializer x k objects y) = keyOf (objects y)
  finalizer_other : ∀ x objects y, y ≠ x → keyOf (gen.finalizer x objects y) = keyOf (objects y)

/-- `key_cmp` on pointers to the objects. -/
def KeyCmp.at [LinearOrder κ] (c : KeyCmp δ κ) (objects : ν → δ) : KeyCmp ν κ where
  keyOf x := c.keyOf (objects x)
  keyCmp x k := c.keyCmp (objects x) k
  keyCmp_neg x k := c.keyCmp_neg (objects x) k
  keyCmp_pos x k := c.keyCmp_pos (objects x) k

def PoolGen.Keys.at [LinearOrder κ] {gen : PoolGen ν δ κ} (keys : gen.Keys) (objects : ν → δ) : KeyCmp ν κ :=
  KeyCmp.at ⟨keys.keyOf, gen.keyCmp, keys.keyCmp_neg, keys.keyCmp_pos⟩ objects

def onItems {α : Type} (program : Program (Items ν) α) : Program (Pool ν δ κ) α :=
  within (fun pool => pool.items) (fun items pool => { pool with items := items }) program

/-- `ARRAY_MAP_POOL_GENERATE_BSEARCH` -/
def arrayMapPoolBsearch (arith : IntArithmetic) (keyCmp : δ → κ → Int) (key : κ) :
    Program (Pool ν δ κ) (Bool × Int) := do
  let pool ← get
  onItems (bsearch arith (fun item => keyCmp (pool.objects item)) key)

section
variable (gen : PoolGen ν δ κ)

def callInitializer (item : ν) (key : κ) : Program (Pool ν δ κ) Unit :=
  modify fun pool => { pool with
    objects := gen.initializer item key pool.objects
    log := pool.log ++ [.initialized item key] }

def callFinalizer (item : ν) : Program (Pool ν δ κ) Unit :=
  modify fun pool => { pool with
    objects := gen.finalizer item pool.objects
    log := pool.log ++ [.finalized item] }

/-- `ARRAY_MAP_POOL_GENERATE_GET` -/
def arrayMapPoolGet (key : κ) : Program (Pool ν δ κ) (Option ν) := do
  let (found, index) ← arrayMapPoolBsearch .exact gen.keyCmp key
  if !found then
    let map := (← get).items
    if map.len ≥ map.size then
      return none
    else
      let newItem ← onItems (getItem map.len)
      callInitializer gen newItem key
      onItems (insertItem index newItem)
      return some (← onItems (getItem index))
  else
    return some (← onItems (getItem index))

/-- `ARRAY_MAP_POOL_GENERATE_FREE` -/
def arrayMapPoolFree (key : κ) : Program (Pool ν δ κ) Unit := do
  let (found, index) ← arrayMapPoolBsearch .exact gen.keyCmp key
  if found then
    callFinalizer gen (← onItems (getItem index))
    -- The freed pointer goes behind the items that are left, to be handed out next.
    let freeItem ← onItems (getItem index)
    onItems (shiftDown index)
    let len := (← get).items.len
    onItems (setItem (len - 1) freeItem)
    onItems (modify fun map => { map with len := map.len - 1 })

/-- `ARRAY_MAP_POOL_GENERATE_FIND` -/
def arrayMapPoolFind (key : κ) : Program (Pool ν δ κ) (Option ν) := do
  let (found, index) ← arrayMapPoolBsearch .exact gen.keyCmp key
  if found then
    return some (← onItems (getItem index))
  else
    return none

/-- `ARRAY_MAP_POOL_CLEAR` -/
def arrayMapPoolClear : Program (Pool ν δ κ) Unit :=
  onItems (modify fun map => { map with len := 0 })

end

namespace ArrayMapPool

inductive Call (κ : Type) where
  | get (key : κ)
  | free (key : κ)
  | find (key : κ)
  | clear
  deriving DecidableEq, Repr

section
variable (gen : PoolGen ν δ κ)

def call : Call κ → Program (Pool ν δ κ) (Option ν)
  | .get key => arrayMapPoolGet gen key
  | .free key => do
    arrayMapPoolFree gen key
    return none
  | .find key => arrayMapPoolFind gen key
  | .clear => do
    arrayMapPoolClear
    return none

def run : List (Call κ) → Program (Pool ν δ κ) (List (Option ν))
  | [] => return []
  | first :: rest => do
    let answer ← call gen first
    return answer :: (← run rest)

end

/-- The buffer holds its pointers, in some order. -/
structure Stocked (pointers : List ν) (pool : Pool ν δ κ) : Prop where
  size_eq : pool.items.size = pointers.length
  fits : pool.items.len ≤ pool.items.size
  perm : (segment pool.items.item 0 pool.items.size).Perm pointers

/-- What a call does, by where the search for a key ends: `Found` and `Missed` say
which indices it may end with. -/
inductive Outcome (gen : PoolGen ν δ κ) (pool : Pool ν δ κ) (Found Missed : κ → Nat → Prop) :
    Call κ → Option ν → Pool ν δ κ → Prop where
  | hit {key : κ} {index : Nat} : Found key index →
      Outcome gen pool Found Missed (.get key) (some (pool.items.item index)) pool
  | full {key : κ} {index : Nat} : Missed key index → pool.items.size ≤ pool.items.len →
      Outcome gen pool Found Missed (.get key) none pool
  | taken {key : κ} {index : Nat} {x : ν} : Missed key index → pool.items.len < pool.items.size →
      x = pool.items.item pool.items.len → Outcome gen pool Found Missed (.get key) (some x)
        ⟨pool.items.insertAt index x, gen.initializer x key pool.objects, pool.log ++ [.initialized x key]⟩
  | freed {key : κ} {index : Nat} {x : ν} : Found key index → x = pool.items.item index →
      Outcome gen pool Found Missed (.free key) none
        ⟨pool.items.recycleAt index, gen.finalizer x pool.objects, pool.log ++ [.finalized x]⟩
  | unfreed {key : κ} {index : Nat} : Missed key index →
      Outcome gen pool Found Missed (.free key) none pool
  | found {key : κ} {index : Nat} : Found key index →
      Outcome gen pool Found Missed (.find key) (some (pool.items.item index)) pool
  | unfound {key : κ} {index : Nat} : Missed key index →
      Outcome gen pool Found Missed (.find key) none pool
  | cleared : Outcome gen pool Found Missed .clear none { pool with items := { pool.items with len := 0 } }

section
variable {gen : PoolGen ν δ κ} {pointers : List ν} {pool : Pool ν δ κ} {Found Missed : κ → Nat → Prop}

theorem ensures_onItems {α : Type} {program : Program (Items ν) α} {post : α → Pool ν δ κ → Prop}
    (ensured : Ensures program (fun result items => post result { pool with items := items }) pool.items) :
    Ensures (onItems program) post pool := by
  rw [onItems, ensures_within]
  exact ensured

def Searched (pool : Pool ν δ κ) (Found Missed : Nat → Prop) (result : Bool × Int) (after : Pool ν δ κ) :
    Prop :=
  pool = after ∧ ∃ index : Nat, result = (true, (index : Int)) ∧ Found index ∧ index < pool.items.len ∨
    result = (false, (index : Int)) ∧ Missed index ∧ index ≤ pool.items.len

theorem ensures_call (stocked : Stocked pointers pool)
    (search : ∀ key, Ensures (arrayMapPoolBsearch .exact gen.keyCmp key)
      (Searched pool (Found key) (Missed key)) pool) (request : Call κ) :
    Ensures (call gen request) (Outcome gen pool Found Missed request) pool := by
  have fits := stocked.fits
  cases request with
  | get key =>
    apply (search key).bind
    intro _ _ searched
    obtain ⟨rfl, index, ⟨rfl, here, inside⟩ | ⟨rfl, here, below⟩⟩ := searched
    · simp only [Bool.not_true, Bool.false_eq_true, if_false, ensures_bind, ensures_pure]
      exact ensures_onItems (ensures_getItem rfl (inside.trans_le fits) (.hit here))
    · simp only [Bool.not_false, if_true, ensures_bind, ensures_get]
      by_cases full : pool.items.len ≥ pool.items.size
      · rw [if_pos full]
        exact .full here full
      · have room : pool.items.len < pool.items.size := by omega
        have filled : (pool.items.insertAt index (pool.items.item pool.items.len)).item index =
            pool.items.item pool.items.len := Function.update_self _ _ _
        simp only [if_neg full, ensures_bind, ensures_pure, callInitializer, ensures_modify]
        refine ensures_onItems (ensures_getItem rfl room ?_)
        refine ensures_onItems (ensures_insertItem below room ?_)
        refine ensures_onItems (ensures_getItem rfl (below.trans_lt room) ?_)
        simp only [filled]
        exact .taken here room rfl
  | free key =>
    simp only [call, arrayMapPoolFree, ensures_bind, ensures_pure]
    apply (search key).mono
    intro _ _ searched
    obtain ⟨rfl, index, ⟨rfl, here, inside⟩ | ⟨rfl, here, below⟩⟩ := searched
    · have low := inside.trans_le fits
      simp only [if_true, ensures_bind, ensures_get, callFinalizer, ensures_modify]
      refine ensures_onItems (ensures_getItem rfl low (ensures_onItems (ensures_getItem rfl low ?_)))
      refine ensures_onItems (ensures_shiftDown
        (show pool.items.len = pool.items.len - 1 + 1 by omega) (by omega) fits ?_)
      refine ensures_onItems (ensures_setItem (n := pool.items.len - 1)
        (show (pool.items.len : Int) - 1 = _ by omega) (show _ < pool.items.size by omega) ?_)
      exact ensures_onItems (.freed here rfl)
    · exact .unfreed here
  | find key =>
    apply (search key).bind
    intro _ _ searched
    obtain ⟨rfl, index, ⟨rfl, here, inside⟩ | ⟨rfl, here, below⟩⟩ := searched
    · simp only [if_true, ensures_bind, ensures_pure]
      exact ensures_onItems (ensures_getItem rfl (inside.trans_le fits) (.found here))
    · exact .unfound here
  | clear =>
    simp only [call, arrayMapPoolClear, ensures_bind, ensures_pure]
    exact ensures_onItems .cleared

theorem stocked_init (buf : Nat → ν) (siz : Nat) (objects : ν → δ) :
    Stocked (segment buf 0 siz) (Pool.init buf siz objects : Pool ν δ κ) :=
  ⟨length_segment.symm, Nat.zero_le _, List.Perm.refl _⟩

namespace Stocked

theorem live_append_spare (stocked : Stocked pointers pool) :
    (pool.items.live ++ pool.items.spare).Perm pointers := by
  rw [Items.live_append_spare stocked.fits]
  exact stocked.perm

theorem fresh (stocked : Stocked pointers pool) (distinct : pointers.Nodup)
    (room : pool.items.len < pool.items.size) : pool.items.item pool.items.len ∉ pool.items.live := by
  have nodup := stocked.live_append_spare.nodup_iff.mpr distinct
  refine fun stored => (List.nodup_append.mp nodup).2.2 _ stored _ ?_ rfl
  exact mem_segment.mpr ⟨_, Nat.le_refl _, by omega, rfl⟩

theorem live_nodup (stocked : Stocked pointers pool) (distinct : pointers.Nodup) : pool.items.live.Nodup :=
  (List.nodup_append.mp (stocked.live_append_spare.nodup_iff.mpr distinct)).1

theorem insertAt (stocked : Stocked pointers pool) {index : Nat} (below : index ≤ pool.items.len)
    (room : pool.items.len < pool.items.size) {x : ν} (next : x = pool.items.item pool.items.len)
    (objects : ν → δ) (log : List (Event ν κ)) :
    Stocked pointers ⟨pool.items.insertAt index x, objects, log⟩ := by
  have all := stocked.live_append_spare
  have fits : (pool.items.insertAt index x).len ≤ (pool.items.insertAt index x).size := room
  refine ⟨stocked.size_eq, room, ?_⟩
  show (segment (pool.items.insertAt index x).item 0 (pool.items.insertAt index x).size).Perm pointers
  rw [Items.live_split below, Items.spare_insertAt (x := x) below room, ← next] at all
  rw [← Items.live_append_spare fits, Items.live_insertAt below]
  refine List.Perm.trans ?_ all
  rw [List.append_assoc, List.append_assoc]
  exact List.Perm.append_left _ List.perm_middle.symm

theorem recycleAt (stocked : Stocked pointers pool) {index : Nat} (inside : index < pool.items.len)
    (objects : ν → δ) (log : List (Event ν κ)) :
    Stocked pointers ⟨pool.items.recycleAt index, objects, log⟩ := by
  have all := stocked.live_append_spare
  have fits : (pool.items.recycleAt index).len ≤ (pool.items.recycleAt index).size :=
    (Nat.sub_le _ _).trans stocked.fits
  refine ⟨stocked.size_eq, fits, ?_⟩
  show (segment (pool.items.recycleAt index).item 0 (pool.items.recycleAt index).size).Perm pointers
  rw [← Items.live_append_spare fits, Items.live_recycleAt inside, Items.spare_recycleAt inside stocked.fits]
  rw [Items.live_at inside] at all
  refine List.Perm.trans ?_ all
  rw [List.append_assoc, List.append_assoc]
  exact List.Perm.append_left _ List.perm_middle

theorem clear (stocked : Stocked pointers pool) :
    Stocked pointers { pool with items := { pool.items with len := 0 } } :=
  ⟨stocked.size_eq, Nat.zero_le _, stocked.perm⟩

end Stocked

end

end ArrayMapPool

end Embedlib.ArrayUtils
