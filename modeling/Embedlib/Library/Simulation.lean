import Embedlib.Library.Program

/-! One program follows another through a view of its state.

The concrete program is run on states that `view` takes to states of the
abstract one. Whenever the abstract program ends in a result, so does the
concrete one, in the same result and in a state with the same view.
-/

set_option autoImplicit false

namespace Embedlib.Library

variable {σ τ α β γ : Type} (view : τ → σ)

/-- From `state` the concrete program does what the abstract one does, and ends
in a result and a state that satisfy `post`. -/
def Tracks (concrete : Program τ α) (abstract : Program σ α) (post : α → τ → Prop) (state : τ) : Prop :=
  ∀ result final, abstract (view state) = .ok (result, final) →
    ∃ reached, concrete state = .ok (result, reached) ∧ view reached = final ∧ post result reached

/-- The concrete program does what the abstract one does, and keeps `inv`. -/
def Simulates (inv : τ → Prop) (concrete : Program τ α) (abstract : Program σ α) : Prop :=
  ∀ state, inv state → Tracks view concrete abstract (fun _ => inv) state

variable {view} {inv : τ → Prop} {concrete : Program τ α} {abstract : Program σ α} {state : τ}
  {post : α → τ → Prop}

theorem tracks_pure {result : α} (holds : post result state) :
    Tracks view (pure result) (pure result) post state := by
  rintro _ _ ⟨⟩
  exact ⟨state, rfl, rfl, holds⟩

theorem Tracks.mono {weaker : α → τ → Prop} (tracks : Tracks view concrete abstract post state)
    (implies : ∀ result reached, post result reached → weaker result reached) :
    Tracks view concrete abstract weaker state := by
  intro result final ran
  obtain ⟨reached, ran', same, holds⟩ := tracks result final ran
  exact ⟨reached, ran', same, implies result reached holds⟩

theorem bind_ok {first : Program σ α} {rest : α → Program σ β} {start final : σ} {result : β}
    (ran : (first >>= rest) start = .ok (result, final)) :
    ∃ value middle, first start = .ok (value, middle) ∧ rest value middle = .ok (result, final) := by
  cases outcome : first start with
  | error why =>
    simp only [bind, StateT.bind, outcome, Except.bind] at ran
    cases ran
  | ok both =>
    simp only [bind, StateT.bind, outcome, Except.bind] at ran
    exact ⟨both.1, both.2, rfl, ran⟩

theorem ok_bind {first : Program σ α} {rest : α → Program σ β} {start middle : σ} {value : α}
    (ran : first start = .ok (value, middle)) : (first >>= rest) start = rest value middle := by
  simp only [bind, StateT.bind, ran, Except.bind]

theorem Tracks.bind {middle : α → τ → Prop} {last : β → τ → Prop} {rest : α → Program τ β}
    {rest' : α → Program σ β} (tracks : Tracks view concrete abstract middle state)
    (continues : ∀ value reached, middle value reached → Tracks view (rest value) (rest' value) last reached) :
    Tracks view (concrete >>= rest) (abstract >>= rest') last state := by
  intro result final ran
  obtain ⟨value, between, first, second⟩ := bind_ok ran
  obtain ⟨reached, first', rfl, holds⟩ := tracks value between first
  rw [ok_bind first']
  exact continues value reached holds result final second

theorem Tracks.bind_get {last : β → τ → Prop} {rest : τ → Program τ β} {rest' : σ → Program σ β}
    (continues : Tracks view (rest state) (rest' (view state)) last state) :
    Tracks view (get >>= rest) (get >>= rest') last state := continues

theorem Tracks.and_ensures {ensured : α → σ → Prop} (tracks : Tracks view concrete abstract post state)
    (ensures : Ensures abstract ensured (view state)) :
    Tracks view concrete abstract (fun result reached => post result reached ∧ ensured result (view reached))
      state := by
  intro result final ran
  obtain ⟨reached, ran', rfl, holds⟩ := tracks result final ran
  exact ⟨reached, ran', rfl, holds, (ensures_of_run ran).mp ensures⟩

theorem simulates_pure (result : α) : Simulates view inv (pure result) (pure result) :=
  fun _ holds => tracks_pure holds

theorem simulates_fault (why : Fault) : Simulates view inv concrete (fault why : Program σ α) :=
  fun _ _ => nofun

theorem Simulates.bind {rest : α → Program τ β} {rest' : α → Program σ β}
    (simulates : Simulates view inv concrete abstract)
    (continues : ∀ value, Simulates view inv (rest value) (rest' value)) :
    Simulates view inv (concrete >>= rest) (abstract >>= rest') :=
  fun state holds => (simulates state holds).bind fun value reached kept => continues value reached kept

theorem simulates_get {rest : τ → Program τ β} {rest' : σ → Program σ β}
    (continues : ∀ state, Simulates view inv (rest state) (rest' (view state))) :
    Simulates view inv (get >>= rest) (get >>= rest') :=
  fun state holds => (continues state state holds).bind_get

theorem simulates_modify {change : τ → τ} {change' : σ → σ} (same : ∀ state, view (change state) = change' (view state))
    (kept : ∀ state, inv state → inv (change state)) :
    Simulates view inv (modify change : Program τ PUnit) (modify change') := by
  rintro state holds _ _ ⟨⟩
  exact ⟨change state, rfl, same state, kept state holds⟩

theorem simulates_ite {condition : Prop} [Decidable condition] {other : Program τ α} {other' : Program σ α}
    (yes : Simulates view inv concrete abstract) (no : Simulates view inv other other') :
    Simulates view inv (if condition then concrete else other) (if condition then abstract else other') := by
  split
  · exact yes
  · exact no

theorem simulates_loop {body : β → Program τ (Turn β γ)} {body' : β → Program σ (Turn β γ)}
    (round : ∀ value, Simulates view inv (body value) (body' value)) (fuel : Nat) (value : β) :
    Simulates view inv (loop body fuel value) (loop body' fuel value) := by
  induction fuel generalizing value with
  | zero => exact simulates_fault _
  | succ fuel ih =>
    apply (round value).bind
    intro turn
    cases turn with
    | again next => exact ih next
    | leave result => exact simulates_pure result

end Embedlib.Library
