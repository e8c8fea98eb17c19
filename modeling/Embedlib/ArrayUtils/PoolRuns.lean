import Embedlib.ArrayUtils.ArrayMapPool

/-! Runs of a pool as runs of an abstract pool: a map from keys to objects beside a
stack of free objects. -/

set_option autoImplicit false

namespace Embedlib.ArrayUtils.ArrayMapPool

open Library

variable {ν δ κ : Type}

/-- The object under each key, and the free objects, the next one first. -/
structure Ref (ν κ : Type) where
  map : κ → Option ν
  stack : List ν

/-- One operation on the abstract pool: its answer, the calls of the initializer
and the finalizer it makes, and the pool afterwards. Clearing makes all objects
free, in the order of their keys. -/
def Ref.Step [LinearOrder κ] (before : Ref ν κ) (answer : Option ν) (events : List (Event ν κ))
    (after : Ref ν κ) : Call κ → Prop
  | .get key => match before.map key, before.stack with
    | some x, _ => answer = some x ∧ events = [] ∧ after = before
    | none, [] => answer = none ∧ events = [] ∧ after = before
    | none, x :: stack => answer = some x ∧ events = [.initialized x key] ∧
      after = ⟨Function.update before.map key (some x), stack⟩
  | .free key => answer = none ∧ match before.map key with
    | none => events = [] ∧ after = before
    | some x => events = [.finalized x] ∧ after = ⟨Function.update before.map key none, x :: before.stack⟩
  | .find key => answer = before.map key ∧ events = [] ∧ after = before
  | .clear => answer = none ∧ events = [] ∧ after.map = (fun _ => none) ∧
    ∃ freed : List ν, (∀ x, x ∈ freed ↔ ∃ key, before.map key = some x) ∧
      freed.Pairwise (fun x y => ∃ j k, before.map j = some x ∧ before.map k = some y ∧ j < k) ∧
      after.stack = freed ++ before.stack

inductive Ref.Run [LinearOrder κ] :
    Ref ν κ → List (Call κ) → List (Option ν) → List (Event ν κ) → Ref ν κ → Prop where
  | done (ref : Ref ν κ) : Run ref [] [] [] ref
  | step {before middle after : Ref ν κ} {request : Call κ} {rest : List (Call κ)} {answer : Option ν}
      {answers : List (Option ν)} {events more : List (Event ν κ)} :
      before.Step answer events middle request → Run middle rest answers more after →
      Run before (request :: rest) (answer :: answers) (events ++ more) after

def happen (gen : PoolGen ν δ κ) (objects : ν → δ) : Event ν κ → ν → δ
  | .initialized x key => gen.initializer x key objects
  | .finalized x => gen.finalizer x objects

section
variable [LinearOrder κ] {gen : PoolGen ν δ κ} (keys : gen.Keys)

/-- The stored pointers are the objects of the map in key order, the others the
free objects, and all of them the pointers of the buffer at the start. -/
structure Represents (pointers : List ν) (pool : Pool ν δ κ) (ref : Ref ν κ) : Prop
    extends Stocked pointers pool where
  lists : Lists (fun x => keys.keyOf (pool.objects x)) ref.map pool.items.live
  stack_eq : pool.items.spare = ref.stack

/-- The outcome of a call on the pool and on the abstract pool. Without an event
only clearing changes the pool. -/
def Simulates (pointers : List ν) (pool : Pool ν δ κ) (ref : Ref ν κ) (request : Call κ)
    (answer : Option ν) (after : Pool ν δ κ) : Prop :=
  ∃ events ref', ref.Step answer events ref' request ∧ Represents keys pointers after ref' ∧
    after.log = pool.log ++ events ∧ after.objects = events.foldl (happen gen) pool.objects ∧
    (events = [] → request ≠ .clear → after = pool)

end

section
variable [LinearOrder κ] {gen : PoolGen ν δ κ} {keys : gen.Keys} {pointers : List ν} {pool : Pool ν δ κ}
  {ref : Ref ν κ}

theorem represents_init (keys : gen.Keys) (buf : Nat → ν) (siz : Nat) (objects : ν → δ) :
    Represents keys (segment buf 0 siz) (Pool.init buf siz objects) ⟨fun _ => none, segment buf 0 siz⟩ :=
  ⟨stocked_init buf siz objects, lists_nil, rfl⟩

def Represents.Hit (pool : Pool ν δ κ) (ref : Ref ν κ) (key : κ) (index : Nat) : Prop :=
  index < pool.items.len ∧ ref.map key = some (pool.items.item index)

def Represents.Miss (keys : gen.Keys) (pool : Pool ν δ κ) (ref : Ref ν κ) (key : κ) (index : Nat) : Prop :=
  index ≤ pool.items.len ∧ ref.map key = none ∧
    Brackets (fun x => keys.keyOf (pool.objects x)) key (segment pool.items.item 0 index)
      (segment pool.items.item index (pool.items.len - index))

theorem Represents.search (represents : Represents keys pointers pool ref) (key : κ) :
    Ensures (arrayMapPoolBsearch .exact gen.keyCmp key)
      (Searched pool (Hit pool ref key) (Miss keys pool ref key)) pool := by
  unfold arrayMapPoolBsearch
  simp only [ensures_bind, ensures_get]
  refine ensures_onItems (ensures_search (keys.at pool.objects) represents.fits represents.lists ?_ ?_)
  · exact fun index inside stored => ⟨rfl, index, .inl ⟨rfl, ⟨inside, stored⟩, inside⟩⟩
  · exact fun index below stored brackets => ⟨rfl, index, .inr ⟨rfl, ⟨below, stored, brackets⟩, below⟩⟩

theorem Represents.taken (represents : Represents keys pointers pool ref) (distinct : pointers.Nodup)
    {key : κ} {index : Nat} (missed : Miss keys pool ref key index)
    (room : pool.items.len < pool.items.size) {x : ν} (next : x = pool.items.item pool.items.len)
    (log : List (Event ν κ)) :
    ∃ stack, ref.stack = x :: stack ∧
      Represents keys pointers ⟨pool.items.insertAt index x, gen.initializer x key pool.objects, log⟩
        ⟨Function.update ref.map key (some x), stack⟩ := by
  obtain ⟨below, absent, before, behind⟩ := missed
  have spare := represents.stack_eq.symm.trans (Items.spare_insertAt (x := x) below room)
  rw [← next] at spare
  have fresh : x ∉ pool.items.live := next ▸ represents.fresh distinct room
  -- The initializer may change stored objects, but none of their keys.
  have kept : ∀ y ∈ pool.items.live,
      keys.keyOf (gen.initializer x key pool.objects y) = keys.keyOf (pool.objects y) :=
    fun y stored => keys.initializer_other x key pool.objects y fun same => fresh (same ▸ stored)
  have here := keys.initializer_self x key pool.objects
  refine ⟨_, spare, represents.insertAt below room next _ _, ?_, rfl⟩
  have lists := represents.lists.congr_key kept
  rw [Items.live_split below] at lists kept
  have inserted := Lists.insert (x := x) lists (by
    rw [here]
    exact ⟨fun y member => (kept y (List.mem_append_left _ member)).trans_lt (before y member),
      fun y member => (behind y member).trans_eq (kept y (List.mem_append_right _ member)).symm⟩)
  rw [here] at inserted
  exact (Items.live_insertAt below).symm ▸ inserted

theorem Represents.freed (represents : Represents keys pointers pool ref) (distinct : pointers.Nodup)
    {key : κ} {index : Nat} (hit : Hit pool ref key index) {x : ν} (here : x = pool.items.item index)
    (log : List (Event ν κ)) :
    Represents keys pointers ⟨pool.items.recycleAt index, gen.finalizer x pool.objects, log⟩
      ⟨Function.update ref.map key none, x :: ref.stack⟩ := by
  obtain ⟨inside, stored⟩ := hit
  subst here
  have lists := represents.lists
  have nodup := represents.live_nodup distinct
  have own := ((lists.entries key _).mp stored).2
  refine ⟨represents.recycleAt inside _ _, ?_, ?_⟩
  · rw [Items.live_at inside] at lists nodup
    have erased := lists.erase
    simp only [own] at erased
    refine (Items.live_recycleAt inside).symm ▸ erased.congr_key fun y member => ?_
    -- The finalizer leaves the keys of the objects that stay stored.
    refine keys.finalizer_other _ _ y fun same => ?_
    subst same
    exact (List.nodup_cons.mp (List.nodup_middle.mp nodup)).1 member
  · rw [Items.spare_recycleAt inside represents.fits, represents.stack_eq]

theorem Represents.cleared (represents : Represents keys pointers pool ref) :
    Represents keys pointers { pool with items := { pool.items with len := 0 } }
      ⟨fun _ => none, pool.items.live ++ ref.stack⟩ := by
  refine ⟨represents.clear, lists_nil, ?_⟩
  rw [← represents.stack_eq, Items.live_append_spare represents.fits]
  rfl

theorem Represents.simulates_same (represents : Represents keys pointers pool ref) {request : Call κ}
    {answer : Option ν} (step : ref.Step answer [] ref request) :
    Simulates keys pointers pool ref request answer pool :=
  ⟨[], ref, step, represents, (List.append_nil _).symm, rfl, fun _ _ => rfl⟩

theorem Represents.ensures_call (represents : Represents keys pointers pool ref) (distinct : pointers.Nodup)
    (request : Call κ) : Ensures (call gen request) (Simulates keys pointers pool ref request) pool := by
  apply (ArrayMapPool.ensures_call represents.toStocked represents.search request).mono
  intro answer after outcome
  cases outcome with
  | hit hit => exact represents.simulates_same (by simp [Ref.Step, hit.2])
  | full missed full =>
    have empty : ref.stack = [] := by
      rw [← represents.stack_eq, Items.spare, Nat.sub_eq_zero_of_le full, segment_zero]
    exact represents.simulates_same (by simp [Ref.Step, missed.2.1, empty])
  | taken missed room next =>
    obtain ⟨stack, top, represents'⟩ := represents.taken distinct missed room next _
    exact ⟨[.initialized _ _], _, by simp [Ref.Step, missed.2.1, top], represents', rfl, rfl, by rintro ⟨⟩⟩
  | freed hit here =>
    refine ⟨[.finalized _], _, ?_, represents.freed distinct hit here _, rfl, rfl, by rintro ⟨⟩⟩
    simp [Ref.Step, hit.2, here]
  | unfreed missed => exact represents.simulates_same (by simp [Ref.Step, missed.2.1])
  | found hit => exact represents.simulates_same (by simp [Ref.Step, hit.2])
  | unfound missed => exact represents.simulates_same (by simp [Ref.Step, missed.2.1])
  -- Clearing leaves the pointers where they are: the items become spare in key order.
  | cleared =>
    have lists := represents.lists
    refine ⟨[], _, ⟨rfl, rfl, rfl, pool.items.live, fun x => ?_, ?_, rfl⟩, represents.cleared,
      (List.append_nil _).symm, rfl, fun _ other => absurd rfl other⟩
    · constructor
      · intro member
        exact ⟨_, lists.mem_iff.mp member⟩
      · rintro ⟨k, stored⟩
        exact ((lists.entries k x).mp stored).1
    · refine lists.sorted.imp_of_mem fun first second less => ?_
      exact ⟨_, _, lists.mem_iff.mp first, lists.mem_iff.mp second, less⟩

theorem Represents.ensures_run (represents : Represents keys pointers pool ref) (distinct : pointers.Nodup)
    (calls : List (Call κ)) :
    Ensures (run gen calls) (fun answers after => ∃ events ref', ref.Run calls answers events ref' ∧
      Represents keys pointers after ref' ∧ after.log = pool.log ++ events) pool := by
  induction calls generalizing pool ref with
  | nil => exact ⟨[], ref, .done ref, represents, (List.append_nil _).symm⟩
  | cons first rest ih =>
    apply (represents.ensures_call distinct first).bind
    intro answer middle simulates
    obtain ⟨events, ref₁, step, represents₁, logged, _⟩ := simulates
    apply (ih represents₁).bind
    intro answers after rested
    obtain ⟨more, ref₂, steps, represents₂, logged'⟩ := rested
    exact ⟨events ++ more, ref₂, .step step steps, represents₂, by rw [logged', logged, List.append_assoc]⟩

/-- After any run the pool is the abstract pool, which has made the logged calls,
and the next call does to it what it does to the abstract pool. -/
theorem run_simulates (keys : gen.Keys) (buf : Nat → ν) (siz : Nat) (objects : ν → δ)
    (distinct : (segment buf 0 siz).Nodup) (calls : List (Call κ)) (request : Call κ) :
    ∃ answers pool ref answer after, run gen calls (Pool.init buf siz objects) = .ok (answers, pool) ∧
      Ref.Run ⟨fun _ => none, segment buf 0 siz⟩ calls answers pool.log ref ∧
      Represents keys (segment buf 0 siz) pool ref ∧ call gen request pool = .ok (answer, after) ∧
      Simulates keys (segment buf 0 siz) pool ref request answer after := by
  obtain ⟨answers, pool, ran, events, ref, steps, represents, logged⟩ :=
    ((represents_init keys buf siz objects).ensures_run distinct calls).result
  obtain rfl : pool.log = events := logged
  obtain ⟨answer, after, called, simulates⟩ := (represents.ensures_call distinct request).result
  exact ⟨answers, pool, ref, answer, after, ran, steps, represents, called, simulates⟩

end

/-- The pool of the tests: `A_ITEM_MAP_POOL_KEY_CMP` and an initializer that sets the
key; the finalizer does nothing. The value of an object is left out. -/
def itemPool : PoolGen Nat Int Int where
  keyCmp item key := item - key
  initializer item key objects := Function.update objects item key
  finalizer _ objects := objects

def itemPoolKeys : itemPool.Keys where
  keyOf item := item
  keyCmp_neg _ _ := by simp only [itemPool]; omega
  keyCmp_pos _ _ := by simp only [itemPool]; omega
  initializer_self _ _ _ := Function.update_self _ _ _
  initializer_other _ _ _ _ other := Function.update_of_ne other _ _
  finalizer_other _ _ _ _ := rfl

def itemCalls : List (Call Int) := [.get 3, .get 1, .get 3, .free 3, .get 4, .clear, .get 2]

theorem run_simulates_itemPool :
    ∃ answers pool ref answer after,
      run itemPool itemCalls (Pool.init (fun i => i) 4 fun _ => 0) = .ok (answers, pool) ∧
      Ref.Run ⟨fun _ => none, segment (fun i => i) 0 4⟩ itemCalls answers pool.log ref ∧
      Represents itemPoolKeys (segment (fun i => i) 0 4) pool ref ∧
      call itemPool (.free 2) pool = .ok (answer, after) ∧
      Simulates itemPoolKeys (segment (fun i => i) 0 4) pool ref (.free 2) answer after :=
  run_simulates itemPoolKeys (fun i => i) 4 (fun _ => 0) (by decide) itemCalls (.free 2)

end Embedlib.ArrayUtils.ArrayMapPool
