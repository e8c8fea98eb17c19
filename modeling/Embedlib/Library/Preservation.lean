import Embedlib.Library.Simulation

/-! What programs keep wherever they end: partial correctness.

Nothing is asked of a program that faults. The rules follow the composition of a
program, and say what it keeps of the state and what its result is like.
-/

set_option autoImplicit false

namespace Embedlib.Library

variable {σ α β γ : Type}

/-- The weakest liberal precondition: the program faults, or ends in a result and
a state that satisfy `post`. -/
def Whenever (program : Program σ α) (post : α → σ → Prop) (state : σ) : Prop :=
  ∀ result final, program state = .ok (result, final) → post result final

/-- From a state with `inv` the program ends, if at all, in one with `inv`, and
with a result that satisfies `returns`. -/
def Preserves (inv : σ → Prop) (program : Program σ α) (returns : α → Prop) : Prop :=
  ∀ state, inv state → Whenever program (fun result final => inv final ∧ returns result) state

section
variable {program : Program σ α} {post weaker : α → σ → Prop} {state : σ}

theorem Whenever.mono (holds : Whenever program post state)
    (implies : ∀ result final, post result final → weaker result final) :
    Whenever program weaker state :=
  fun result final ran => implies result final (holds result final ran)

theorem Ensures.whenever (ensured : Ensures program post state) : Whenever program post state := by
  intro result final ran
  exact (ensures_of_run ran).mp ensured

theorem whenever_true (program : Program σ α) (state : σ) : Whenever program (fun _ _ => True) state :=
  fun _ _ _ => trivial

theorem whenever_pure {result : α} (holds : post result state) :
    Whenever (pure result : Program σ α) post state := by
  rintro _ _ ⟨⟩
  exact holds

theorem Whenever.bind {rest : α → Program σ β} {last : β → σ → Prop} (holds : Whenever program post state)
    (continues : ∀ result final, post result final → Whenever (rest result) last final) :
    Whenever (program >>= rest) last state := by
  intro result final ran
  obtain ⟨value, middle, first, second⟩ := bind_ok ran
  exact continues value middle (holds value middle first) result final second

theorem whenever_within {τ : Type} {part : σ → τ} {put : τ → σ → σ} {program : Program τ α}
    (holds : Whenever program (fun result changed => post result (put changed state)) (part state)) :
    Whenever (within part put program) post state := by
  intro result final ran
  unfold within at ran
  cases inner : program (part state) with
  | error why =>
    rw [inner] at ran
    cases ran
  | ok outcome =>
    rw [inner] at ran
    cases ran
    exact holds _ _ inner

theorem whenever_get {rest : σ → Program σ β} {last : β → σ → Prop} (holds : Whenever (rest state) last state) :
    Whenever (get >>= rest) last state := holds

theorem whenever_modify {change : σ → σ} {rest : PUnit → Program σ β} {last : β → σ → Prop}
    (holds : Whenever (rest ⟨⟩) last (change state)) : Whenever (modify change >>= rest) last state := holds

end

section
variable {inv : σ → Prop} {program other : Program σ α} {returns : α → Prop}

theorem preserves_pure {result : α} (holds : returns result) :
    Preserves inv (pure result : Program σ α) returns :=
  fun _ kept => whenever_pure ⟨kept, holds⟩

theorem preserves_fault (why : Fault) : Preserves inv (fault why : Program σ α) returns :=
  fun _ _ => nofun

theorem Preserves.bind {rest : α → Program σ β} {last : β → Prop} (kept : Preserves inv program returns)
    (continues : ∀ result, returns result → Preserves inv (rest result) last) :
    Preserves inv (program >>= rest) last :=
  fun state holds => (kept state holds).bind fun result final ends => continues result ends.2 final ends.1

theorem preserves_get {rest : σ → Program σ β} {last : β → Prop}
    (continues : ∀ state, inv state → Preserves inv (rest state) last) :
    Preserves inv (get >>= rest) last :=
  fun state holds => continues state holds state holds

theorem preserves_modify {change : σ → σ} {returns : PUnit → Prop} (holds : returns ⟨⟩)
    (kept : ∀ state, inv state → inv (change state)) :
    Preserves inv (modify change : Program σ PUnit) returns := by
  rintro state starts _ _ ⟨⟩
  exact ⟨kept state starts, holds⟩

theorem preserves_ite {condition : Prop} [Decidable condition]
    (yes : condition → Preserves inv program returns) (no : ¬ condition → Preserves inv other returns) :
    Preserves inv (if condition then program else other) returns := by
  split
  · rename_i holds
    exact yes holds
  · rename_i fails
    exact no fails

/-- What a loop body hands on: a value for the next round, or a result. -/
def Turn.Hands (values : β → Prop) (returns : γ → Prop) : Turn β γ → Prop
  | .again next => values next
  | .leave result => returns result

theorem preserves_loop {body : β → Program σ (Turn β γ)} {values : β → Prop} {returns : γ → Prop}
    (round : ∀ value, values value → Preserves inv (body value) (Turn.Hands values returns)) (fuel : Nat)
    {value : β} (start : values value) : Preserves inv (loop body fuel value) returns := by
  induction fuel generalizing value with
  | zero => exact preserves_fault _
  | succ fuel ih =>
    apply (round value start).bind
    intro turn hands
    cases turn with
    | again next => exact ih hands
    | leave result => exact preserves_pure hands

end

/-! Two programs that do the same from one state. -/

section
variable {program program' : Program σ α} {post : α → σ → Prop} {state : σ}

theorem get_bind (rest : σ → Program σ β) (state : σ) : (get >>= rest) state = rest state state := rfl

theorem within_congr {τ : Type} {part : σ → τ} {put : τ → σ → σ} {program program' : Program τ α}
    (same : program (part state) = program' (part state)) :
    within part put program state = within part put program' state := by
  simp only [within, same]

/-- Where the first parts do the same, the rests have to from the states they lead to. -/
theorem bind_congr_at {rest rest' : α → Program σ β} (same : program state = program' state)
    (holds : Whenever program' post state)
    (continues : ∀ result final, post result final → rest result final = rest' result final) :
    (program >>= rest) state = (program' >>= rest') state := by
  simp only [bind, StateT.bind, same]
  cases ran : program' state with
  | error why => rfl
  | ok outcome => exact continues _ _ (holds _ _ ran)

theorem loop_congr {body body' : β → Program σ (Turn β γ)} (Inv : β → σ → Prop)
    (round : ∀ value state, Inv value state → body value state = body' value state)
    (kept : ∀ value state, Inv value state →
      Whenever (body' value) (fun turn final => ∀ next, turn = .again next → Inv next final) state)
    (fuel : Nat) {value : β} {state : σ} (start : Inv value state) :
    loop body fuel value state = loop body' fuel value state := by
  induction fuel generalizing value state with
  | zero => rfl
  | succ fuel ih =>
    refine bind_congr_at (round value state start) (kept value state start) ?_
    intro turn final next
    cases turn with
    | again value => exact ih (next value rfl)
    | leave result => rfl

end

end Embedlib.Library
