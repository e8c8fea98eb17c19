import Embedlib.ArrayUtils.Search

/-! `ARRAY_MAP`, and the bounded finite map that it is for. -/

set_option autoImplicit false

namespace Embedlib.ArrayUtils

open Library

variable {α κ : Type}

/-- `ARRAY_MAP_GENERATE_BSEARCH` -/
def arrayMapBsearch (arith : IntArithmetic) (keyCmp : α → κ → Int) (key : κ) :
    Program (Items α) (Bool × Int) :=
  bsearch arith keyCmp key

/-- `ARRAY_MAP_GENERATE_INSERT` -/
def arrayMapInsert (keyCmp : α → κ → Int) (key : κ) (value : α) : Program (Items α) Bool := do
  let (found, index) ← arrayMapBsearch .exact keyCmp key
  if !found then
    let map ← get
    if map.len ≥ map.size then
      return false
    else
      insertItem index value
      return true
  else
    return false

/-- `ARRAY_MAP_GENERATE_REMOVE` -/
def arrayMapRemove (keyCmp : α → κ → Int) (key : κ) : Program (Items α) Unit := do
  let (found, index) ← arrayMapBsearch .exact keyCmp key
  if found then
    shiftDown index
    modify fun map => { map with len := map.len - 1 }

/-- `ARRAY_MAP_GENERATE_FIND`. `value` is what the caller has in `*value`; what is
there afterwards is returned. -/
def arrayMapFind (keyCmp : α → κ → Int) (key : κ) (value : α) : Program (Items α) (Bool × α) := do
  let (found, index) ← arrayMapBsearch .exact keyCmp key
  if found then
    return (true, ← getItem index)
  else
    return (false, value)

/-- `ARRAY_MAP_CLEAR` -/
def arrayMapClear : Program (Items α) Unit := modify fun map => { map with len := 0 }

namespace ArrayMap

inductive Call (α κ : Type) where
  | init (buf : Nat → α) (siz : Nat)
  | insert (key : κ) (value : α)
  | remove (key : κ)
  | find (key : κ) (value : α)
  | clear

inductive Answer (α : Type) where
  | done
  | inserted (ok : Bool)
  | found (ok : Bool) (value : α)
  deriving DecidableEq, Repr

/-- A finite map with room for `capacity` entries, of which `count` are taken. -/
structure Ref (α κ : Type) where
  capacity : Nat
  count : Nat
  map : κ → Option α

def Ref.init (capacity : Nat) : Ref α κ := ⟨capacity, 0, fun _ => none⟩

section
variable [LinearOrder κ] (c : KeyCmp α κ)

def call : Call α κ → Program (Items α) (Answer α)
  | .init buf siz => do
    set (Items.init buf siz)
    return .done
  | .insert key value => return .inserted (← arrayMapInsert c.keyCmp key value)
  | .remove key => do
    arrayMapRemove c.keyCmp key
    return .done
  | .find key value => do
    let (ok, value) ← arrayMapFind c.keyCmp key value
    return .found ok value
  | .clear => do
    arrayMapClear
    return .done

def run : List (Call α κ) → Program (Items α) (List (Answer α))
  | [] => return []
  | first :: rest => do
    let answer ← call c first
    return answer :: (← run rest)

end

section
variable [LinearOrder κ]

def Ref.call (ref : Ref α κ) : Call α κ → Answer α × Ref α κ
  | .init _ siz => (.done, Ref.init siz)
  | .insert key value => match ref.map key with
    | some _ => (.inserted false, ref)
    | none =>
      if ref.count < ref.capacity then
        (.inserted true, ⟨ref.capacity, ref.count + 1, Function.update ref.map key (some value)⟩)
      else (.inserted false, ref)
  | .remove key => match ref.map key with
    | none => (.done, ref)
    | some _ => (.done, ⟨ref.capacity, ref.count - 1, Function.update ref.map key none⟩)
  | .find key value => match ref.map key with
    | none => (.found false value, ref)
    | some stored => (.found true stored, ref)
  | .clear => (.done, ⟨ref.capacity, 0, fun _ => none⟩)

def Ref.run (ref : Ref α κ) : List (Call α κ) → List (Answer α) × Ref α κ
  | [] => ([], ref)
  | first :: rest =>
    let rested := (ref.call first).2.run rest
    ((ref.call first).1 :: rested.1, rested.2)

end

/-- A value is inserted under the key it carries. -/
def Admits [LinearOrder κ] (c : KeyCmp α κ) : Call α κ → Prop
  | .insert key value => c.keyOf value = key
  | _ => True

/-- The stored items are the entries of the map in key order. -/
structure Represents [LinearOrder κ] (c : KeyCmp α κ) (map : Items α) (ref : Ref α κ) : Prop where
  size_eq : map.size = ref.capacity
  len_eq : map.len = ref.count
  fits : map.len ≤ map.size
  lists : Lists c.keyOf ref.map map.live

/-- What an operation leaves alone: everything when it fails or only looks, and
always the memory behind the buffer. -/
def Effect [LinearOrder κ] (ref : Ref α κ) (before after : Items α) : Call α κ → Prop
  | .init buf siz => after = Items.init buf siz
  | .insert key _ => (ref.map key ≠ none ∨ ref.count = ref.capacity → after = before) ∧
    ∀ j, before.size ≤ j → after.item j = before.item j
  | .remove key => (ref.map key = none → after = before) ∧
    ∀ j, before.size ≤ j → after.item j = before.item j
  | .find _ _ => after = before
  | .clear => after.item = before.item

section
variable [LinearOrder κ] {c : KeyCmp α κ} {map : Items α} {ref : Ref α κ}

def Simulates (c : KeyCmp α κ) (map : Items α) (ref : Ref α κ) (request : Call α κ) (answer : Answer α)
    (after : Items α) : Prop :=
  answer = (ref.call request).1 ∧ Represents c after (ref.call request).2 ∧ Effect ref map after request

theorem represents_init (buf : Nat → α) (siz : Nat) : Represents c (Items.init buf siz) (Ref.init siz) :=
  ⟨rfl, rfl, Nat.zero_le _, lists_nil⟩

theorem Represents.ensures_insert (represents : Represents c map ref) {key : κ} {value : α}
    (carries : c.keyOf value = key) :
    Ensures (call c (.insert key value)) (Simulates c map ref (.insert key value)) map := by
  simp only [call, arrayMapInsert, arrayMapBsearch, ensures_bind, ensures_pure]
  refine ensures_search c represents.fits represents.lists ?_ ?_
  · intro index inside stored
    have kept : ref.call (.insert key value) = (.inserted false, ref) := by simp only [Ref.call, stored]
    exact ⟨by rw [kept], by rw [kept]; exact represents, fun _ => rfl, fun _ _ => rfl⟩
  · intro index below stored brackets
    simp only [Bool.not_false, if_true, ensures_bind, ensures_get]
    -- The source looks at the room after the search only.
    by_cases full : map.len ≥ map.size
    · have small : ¬ ref.count < ref.capacity := by
        rw [← represents.len_eq, ← represents.size_eq]; omega
      have kept : ref.call (.insert key value) = (.inserted false, ref) := by
        simp only [Ref.call, stored, if_neg small]
      rw [if_pos full]
      exact ⟨by rw [kept], by rw [kept]; exact represents, fun _ => rfl, fun _ _ => rfl⟩
    · have room : map.len < map.size := by omega
      have small : ref.count < ref.capacity := by rwa [← represents.len_eq, ← represents.size_eq]
      have grown : ref.call (.insert key value) =
          (.inserted true, ⟨ref.capacity, ref.count + 1, Function.update ref.map key (some value)⟩) := by
        simp only [Ref.call, stored, if_pos small]
      rw [if_neg full, ensures_bind]
      refine ensures_insertItem below room ⟨by rw [grown], ?_, ?_, ?_⟩
      · rw [grown]
        refine ⟨represents.size_eq, congrArg (· + 1) represents.len_eq, room, ?_⟩
        have lists := represents.lists
        subst carries
        rw [Items.live_split below] at lists
        rw [Items.live_insertAt below]
        exact lists.insert brackets
      · rintro (present | limit)
        · exact absurd stored present
        · omega
      · intro j behind
        simp only [Items.insertAt]
        rw [Function.update_of_ne (by omega), raise, if_neg (by omega)]

theorem Represents.ensures_remove (represents : Represents c map ref) (key : κ) :
    Ensures (call c (.remove key)) (Simulates c map ref (.remove key)) map := by
  simp only [call, arrayMapRemove, arrayMapBsearch, ensures_bind, ensures_pure]
  refine ensures_search c represents.fits represents.lists ?_ ?_
  · intro index inside stored
    have shrunk : ref.call (.remove key) =
        (.done, ⟨ref.capacity, ref.count - 1, Function.update ref.map key none⟩) := by
      simp only [Ref.call, stored]
    have fits := represents.fits
    simp only [if_true, ensures_bind, ensures_modify]
    refine ensures_shiftDown (show map.len = map.len - 1 + 1 by omega) (by omega) fits
      ⟨by rw [shrunk], ?_, ?_, ?_⟩
    · rw [shrunk]
      refine ⟨represents.size_eq, congrArg (· - 1) represents.len_eq,
        (Nat.sub_le _ _).trans fits, ?_⟩
      have lists := represents.lists
      have here := ((lists.entries key _).mp stored).2
      subst here
      rw [Items.live_at inside] at lists
      exact (Items.live_removeAt inside).symm ▸ lists.erase
    · intro absent
      rw [stored] at absent
      cases absent
    · intro j behind
      have outside : ¬ (index ≤ j ∧ j < map.len - 1) := by omega
      simp only [lower, if_neg outside]
  · intro index below stored brackets
    have kept : ref.call (.remove key) = (.done, ref) := by simp only [Ref.call, stored]
    exact ⟨by rw [kept], by rw [kept]; exact represents, fun _ => rfl, fun _ _ => rfl⟩

theorem Represents.ensures_find (represents : Represents c map ref) (key : κ) (value : α) :
    Ensures (call c (.find key value)) (Simulates c map ref (.find key value)) map := by
  simp only [call, arrayMapFind, arrayMapBsearch, ensures_bind, ensures_pure]
  refine ensures_search c represents.fits represents.lists ?_ ?_
  · intro index inside stored
    have found : ref.call (.find key value) = (.found true (map.item index), ref) := by
      simp only [Ref.call, stored]
    simp only [if_true, ensures_bind, ensures_pure]
    refine ensures_getItem rfl (Nat.lt_of_lt_of_le inside represents.fits) ⟨by rw [found], ?_, rfl⟩
    rw [found]
    exact represents
  · intro index below stored brackets
    have missed : ref.call (.find key value) = (.found false value, ref) := by simp only [Ref.call, stored]
    exact ⟨by rw [missed], by rw [missed]; exact represents, rfl⟩

theorem Represents.ensures_call (represents : Represents c map ref) {request : Call α κ}
    (admitted : Admits c request) :
    Ensures (call c request) (Simulates c map ref request) map := by
  cases request with
  | init buf siz => exact ⟨rfl, represents_init buf siz, rfl⟩
  | insert key value => exact represents.ensures_insert admitted
  | remove key => exact represents.ensures_remove key
  | find key value => exact represents.ensures_find key value
  | clear => exact ⟨rfl, ⟨represents.size_eq, rfl, Nat.zero_le _, lists_nil⟩, rfl⟩

theorem Represents.ensures_run (represents : Represents c map ref) {calls : List (Call α κ)}
    (admitted : ∀ request ∈ calls, Admits c request) :
    Ensures (run c calls)
      (fun answers after => answers = (ref.run calls).1 ∧ Represents c after (ref.run calls).2) map := by
  induction calls generalizing map ref with
  | nil => exact ⟨rfl, represents⟩
  | cons first rest ih =>
    obtain ⟨here, others⟩ := List.forall_mem_cons.mp admitted
    apply (represents.ensures_call here).bind
    intro answer middle simulates
    obtain ⟨same, represents', _⟩ := simulates
    apply (ih represents' others).bind
    intro answers after rested
    exact ⟨by rw [same, rested.1, Ref.run], rested.2⟩

/-- After any run the stored items are the entries of the finite map in key order,
and the next call does to them what it does to the map. No call leaves the buffer:
that would be a fault. -/
theorem map_run_represents (c : KeyCmp α κ) (buf : Nat → α) (siz : Nat) (calls : List (Call α κ))
    (request : Call α κ) (admitted : ∀ call ∈ calls ++ [request], Admits c call) :
    let ref := (Ref.init siz).run calls
    ∃ map answer after, run c calls (Items.init buf siz) = .ok (ref.1, map) ∧ Represents c map ref.2 ∧
      call c request map = .ok (answer, after) ∧ Simulates c map ref.2 request answer after := by
  intro ref
  obtain ⟨before, last⟩ := List.forall_mem_append.mp admitted
  obtain ⟨answers, map, ran, rfl, represents⟩ := ((represents_init buf siz).ensures_run before).result
  obtain ⟨answer, after, called, simulates⟩ :=
    (represents.ensures_call (last request (List.mem_singleton_self _))).result
  exact ⟨map, answer, after, ran, represents, called, simulates⟩

end

/-- `A_ITEM` with `A_ITEM_MAP_KEY_CMP` of the tests: a key and a value. -/
def aItem : KeyCmp (Int × Int) Int where
  keyOf item := item.1
  keyCmp item key := item.1 - key
  keyCmp_neg _ _ := by omega
  keyCmp_pos _ _ := by omega

def fill : List (Call (Int × Int) Int) :=
  [.insert 3 (3, 30), .insert 1 (1, 10), .insert 3 (3, 33), .insert 5 (5, 50), .remove 1]

theorem map_run_represents_fill :
    let ref := (Ref.init 2).run fill
    ∃ map answer after, run aItem fill (Items.init (fun _ => (0, 0)) 2) = .ok (ref.1, map) ∧
      Represents aItem map ref.2 ∧ call aItem (.find 3 (7, 7)) map = .ok (answer, after) ∧
      Simulates aItem map ref.2 (.find 3 (7, 7)) answer after :=
  map_run_represents aItem _ 2 fill (.find 3 (7, 7)) (by simp [fill, Admits, aItem])

end ArrayMap

end Embedlib.ArrayUtils
