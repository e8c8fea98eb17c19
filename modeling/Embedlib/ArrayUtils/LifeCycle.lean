import Embedlib.ArrayUtils.PoolRuns

/-! When the initializer and the finalizer of a pool take turns on every object.
`CLEAR` frees the stored objects without the finalizer. Nothing is assumed of the
comparator: an object is stored once whatever order the search follows. -/

set_option autoImplicit false

namespace Embedlib.ArrayUtils.ArrayMapPool

open Library

variable {ν δ κ : Type}

section
variable [DecidableEq ν]

/-- The calls on `x` take turns. `live` says that the initializer came last. -/
def Alternates (x : ν) : Bool → List (Event ν κ) → Prop
  | _, [] => True
  | live, .initialized y _ :: rest =>
    if y = x then live = false ∧ Alternates x true rest else Alternates x live rest
  | live, .finalized y :: rest =>
    if y = x then live = true ∧ Alternates x false rest else Alternates x live rest

def liveAfter (x : ν) : Bool → List (Event ν κ) → Bool
  | live, [] => live
  | live, .initialized y _ :: rest => liveAfter x (if y = x then true else live) rest
  | live, .finalized y :: rest => liveAfter x (if y = x then false else live) rest

theorem alternates_append {x : ν} {live : Bool} {first rest : List (Event ν κ)} :
    Alternates x live (first ++ rest) ↔
      Alternates x live first ∧ Alternates x (liveAfter x live first) rest := by
  induction first generalizing live with
  | nil => simp [Alternates, liveAfter]
  | cons event first ih =>
    cases event with
    | initialized y key => by_cases same : y = x <;> simp [Alternates, liveAfter, same, ih, and_assoc]
    | finalized y => by_cases same : y = x <;> simp [Alternates, liveAfter, same, ih, and_assoc]

theorem liveAfter_append {x : ν} {live : Bool} {first rest : List (Event ν κ)} :
    liveAfter x live (first ++ rest) = liveAfter x (liveAfter x live first) rest := by
  induction first generalizing live with
  | nil => rfl
  | cons event first ih => cases event <;> exact ih

end

section
variable (gen : PoolGen ν δ κ)

/-- Every `CLEAR` of the run finds the pool empty. -/
def Tidy : List (Call κ) → Pool ν δ κ → Prop
  | [], _ => True
  | request :: rest, pool => (request = .clear → pool.items.len = 0) ∧
    ∀ answer after, call gen request pool = .ok (answer, after) → Tidy rest after

theorem tidy_of_not_mem {calls : List (Call κ)} (never : .clear ∉ calls) (pool : Pool ν δ κ) :
    Tidy gen calls pool := by
  induction calls generalizing pool with
  | nil => trivial
  | cons first rest ih =>
    rw [List.mem_cons, not_or] at never
    exact ⟨fun same => absurd same.symm never.1, fun _ after _ => ih never.2 after⟩

/-- The calls so far take turns, and the stored objects are those that the
initializer had last. -/
def Tracks [DecidableEq ν] (pool : Pool ν δ κ) : Prop :=
  ∀ x, Alternates x false pool.log ∧ (liveAfter x false pool.log = true ↔ x ∈ pool.items.live)

end

section
variable {gen : PoolGen ν δ κ} {pointers : List ν} {pool after : Pool ν δ κ}

theorem search_inside (stocked : Stocked pointers pool) (key : κ) :
    Ensures (arrayMapPoolBsearch .exact gen.keyCmp key)
      (Searched pool (fun index => index < pool.items.len) (fun index => index ≤ pool.items.len)) pool := by
  unfold arrayMapPoolBsearch
  simp only [ensures_bind, ensures_get]
  refine ensures_onItems ((guides_inside _ pool.items key).ensures_bsearch stocked.fits ?_ ?_)
  · intro low high inv more _
    have inside := (middle_lt more).trans_le inv.2
    exact ⟨rfl, _, .inl ⟨rfl, inside, inside⟩⟩
  · intro low inv
    exact ⟨rfl, low, .inr ⟨rfl, inv.2, inv.2⟩⟩

theorem ensures_outcome (stocked : Stocked pointers pool) (request : Call κ) :
    Ensures (call gen request) (Outcome gen pool (fun _ index => index < pool.items.len)
      (fun _ index => index ≤ pool.items.len) request) pool :=
  ensures_call stocked (search_inside stocked) request

theorem Stocked.outcome (stocked : Stocked pointers pool) {request : Call κ} {answer : Option ν}
    (outcome : Outcome gen pool (fun _ index => index < pool.items.len)
      (fun _ index => index ≤ pool.items.len) request answer after) : Stocked pointers after := by
  cases outcome with
  | hit | full | unfreed | found | unfound => exact stocked
  | taken below room next => exact stocked.insertAt below room next _ _
  | freed inside => exact stocked.recycleAt inside _ _
  | cleared => exact stocked.clear

variable [DecidableEq ν]

/-- An event on `x` keeps the turns if `x` is stored before a finalizer and after an
initializer only. -/
theorem Tracks.event (tracks : Tracks pool) {x : ν} {event : Event ν κ} {stored : Bool}
    (kind : event = .finalized x ∧ stored = true ∨ ∃ key, event = .initialized x key ∧ stored = false)
    (before : x ∈ pool.items.live ↔ stored = true) (behind : x ∈ after.items.live ↔ stored = false)
    (others : ∀ y, y ≠ x → (y ∈ after.items.live ↔ y ∈ pool.items.live))
    (logged : after.log = pool.log ++ [event]) : Tracks after := by
  intro y
  obtain ⟨turns, live⟩ := tracks y
  rw [logged, alternates_append, liveAfter_append]
  by_cases same : x = y
  · subst same
    have state : liveAfter x false pool.log = stored := by
      rw [Bool.eq_iff_iff, live, before]
    rw [state, behind]
    obtain ⟨rfl, rfl⟩ | ⟨key, rfl, rfl⟩ := kind
    · exact ⟨⟨turns, by simp [Alternates]⟩, by simp [liveAfter]⟩
    · exact ⟨⟨turns, by simp [Alternates]⟩, by simp [liveAfter]⟩
  · rw [others y (Ne.symm same), ← live]
    obtain ⟨rfl, rfl⟩ | ⟨key, rfl, rfl⟩ := kind
    · exact ⟨⟨turns, by simp [Alternates, same]⟩, by simp [liveAfter, same]⟩
    · exact ⟨⟨turns, by simp [Alternates, same]⟩, by simp [liveAfter, same]⟩

theorem Tracks.outcome (tracks : Tracks pool) (stocked : Stocked pointers pool) (distinct : pointers.Nodup)
    {request : Call κ} {answer : Option ν} (tidy : request = .clear → pool.items.len = 0)
    (outcome : Outcome gen pool (fun _ index => index < pool.items.len)
      (fun _ index => index ≤ pool.items.len) request answer after) : Tracks after := by
  cases outcome with
  | hit | full | unfreed | found | unfound => exact tracks
  | taken below room next =>
    have fresh := next ▸ stocked.fresh distinct room
    refine tracks.event (.inr ⟨_, rfl, rfl⟩) (by simp [fresh]) ?_ (fun y other => ?_) rfl
    · simp [Items.mem_live_insertAt below]
    · simp [Items.mem_live_insertAt below, other]
  | freed inside here =>
    have nodup := stocked.live_nodup distinct
    have stored := here ▸ Items.item_mem_live inside
    refine tracks.event (.inl ⟨rfl, rfl⟩) (by simp [stored]) ?_ (fun y other => ?_) rfl
    · simp [Items.mem_live_recycleAt inside nodup, here]
    · simp [Items.mem_live_recycleAt inside nodup, here ▸ other]
  | cleared =>
    intro y
    have here := tracks y
    rw [Items.live, tidy rfl, segment_zero] at here
    exact here

end

theorem Tracks.run [DecidableEq ν] {gen : PoolGen ν δ κ} {pointers : List ν} {pool : Pool ν δ κ}
    (tracks : Tracks pool) (stocked : Stocked pointers pool) (distinct : pointers.Nodup)
    {calls : List (Call κ)} (tidy : Tidy gen calls pool) :
    Ensures (run gen calls) (fun _ after => Tracks after ∧ Stocked pointers after) pool := by
  induction calls generalizing pool with
  | nil => exact ⟨tracks, stocked⟩
  | cons first rest ih =>
    obtain ⟨here, others⟩ := tidy
    obtain ⟨answer, middle, called, outcome⟩ := (ensures_outcome stocked first).result
    have kept := ih (tracks.outcome stocked distinct here outcome) (stocked.outcome outcome)
      (others _ _ called)
    simp only [ArrayMapPool.run, ensures_bind]
    exact (ensures_of_run called).mpr (kept.mono fun _ _ holds => holds)

/-- After clearing a pool in use, the next object handed out is initialized twice. -/
theorem Tracks.clear_get [DecidableEq ν] {gen : PoolGen ν δ κ} {pointers : List ν} {pool : Pool ν δ κ}
    (tracks : Tracks pool) (stocked : Stocked pointers pool) (used : pool.items.len ≠ 0) (key : κ) :
    Ensures (ArrayMapPool.run gen [.clear, .get key])
      (fun _ after => ∃ x, ¬ Alternates x false after.log) pool := by
  apply (ensures_outcome stocked .clear).bind
  intro _ middle emptied
  have stocked' := stocked.outcome emptied
  cases emptied
  refine Ensures.bind ((ensures_outcome stocked' (.get key)).bind fun _ after got => ?_)
    fun _ _ holds => holds
  have fits := stocked.fits
  cases got with
  | hit inside => exact absurd inside (Nat.not_lt_zero _)
  | full _ full =>
    have some : ¬ pool.items.size ≤ 0 := by omega
    exact absurd full some
  | taken below room next =>
    refine ⟨pool.items.item 0, fun turns => ?_⟩
    have first := Items.item_mem_live (Nat.pos_of_ne_zero used)
    rw [alternates_append, next, (tracks (pool.items.item 0)).2.mpr first] at turns
    simp [Alternates] at turns

/-- In a run that clears the pool only when it is empty, the initializer and the
finalizer take turns on every object. To clear a pool in use breaks this with the
next object handed out. -/
theorem run_alternates [DecidableEq ν] (gen : PoolGen ν δ κ) (buf : Nat → ν) (siz : Nat)
    (objects : ν → δ) (distinct : (segment buf 0 siz).Nodup) (calls : List (Call κ))
    (tidy : Tidy gen calls (Pool.init buf siz objects)) :
    ∃ answers pool, run gen calls (Pool.init buf siz objects) = .ok (answers, pool) ∧
      (∀ x, Alternates x false pool.log) ∧
      (pool.items.len ≠ 0 → ∀ key, ∃ answers' after, run gen [.clear, .get key] pool = .ok (answers', after) ∧
        ∃ x, ¬ Alternates x false after.log) := by
  have tracks : Tracks (Pool.init buf siz objects : Pool ν δ κ) := fun x => ⟨trivial, by
    simp [Pool.init, Items.init, Items.live, liveAfter]⟩
  obtain ⟨answers, pool, ran, tracks, stocked⟩ :=
    (tracks.run (stocked_init buf siz objects) distinct tidy).result
  exact ⟨answers, pool, ran, fun x => (tracks x).1, fun used key => (tracks.clear_get stocked used key).result⟩

theorem run_alternates_reused :
    ∃ answers pool, run itemPool [.clear, .get 1, .free 1, .get 2] (Pool.init (fun i => i) 1 fun _ => 0) =
        .ok (answers, pool) ∧
      (∀ x, Alternates x false pool.log) ∧
      (pool.items.len ≠ 0 → ∀ key, ∃ answers' after,
        run itemPool [.clear, .get key] pool = .ok (answers', after) ∧ ∃ x, ¬ Alternates x false after.log) :=
  run_alternates itemPool (fun i => i) 1 (fun _ => 0) (by decide) _
    ⟨fun _ => rfl, fun _ _ _ => tidy_of_not_mem itemPool (by decide) _⟩

/-- The only object of a pool is initialized for the key 1 and, the pool being
cleared, again for the key 2. -/
theorem clear_skips_finalizer :
    ∃ answers pool, run itemPool [.get 1, .clear, .get 2] (Pool.init (fun i => i) 1 fun _ => 0) =
        .ok (answers, pool) ∧
      pool.log = [.initialized 0 1, .initialized 0 2] ∧ ¬ Alternates 0 false pool.log := by
  refine ⟨_, _, rfl, rfl, ?_⟩
  show ¬ Alternates 0 false [.initialized 0 (1 : Int), .initialized 0 2]
  simp [Alternates]

end Embedlib.ArrayUtils.ArrayMapPool
