import Mathlib.Init

/-! Imperative programs over an explicit state, with the faults of pointer code.

A program is a state transformer that may stop in a fault. Loops carry a bound
on their iterations, so that every program computes; the rules below are for
total correctness, and a proof by them exhibits a bound that is enough.
-/

set_option autoImplicit false

namespace Embedlib.Library

inductive Fault where
  | nullPointer
  | outOfBounds
  | overflow
  | divisionByZero
  | outOfFuel
  deriving DecidableEq, Repr

abbrev Program (σ α : Type) := StateT σ (Except Fault) α

variable {σ α β γ : Type}

def fault (why : Fault) : Program σ α := fun _ => .error why

/-- What a loop body decides: another round from a new value, or the result. -/
inductive Turn (β γ : Type) where
  | again : β → Turn β γ
  | leave : γ → Turn β γ

def loop (body : β → Program σ (Turn β γ)) : Nat → β → Program σ γ
  | 0, _ => fault .outOfFuel
  | fuel + 1, value => do
    match ← body value with
    | .again next => loop body fuel next
    | .leave result => return result

/-- The weakest precondition: the program ends without a fault in a result and
a state that satisfy `post`. -/
def Ensures (program : Program σ α) (post : α → σ → Prop) (state : σ) : Prop :=
  match program state with
  | .ok (result, final) => post result final
  | .error _ => False

theorem Ensures.result {program : Program σ α} {post : α → σ → Prop} {state : σ}
    (ensured : Ensures program post state) :
    ∃ result final, program state = .ok (result, final) ∧ post result final := by
  unfold Ensures at ensured
  split at ensured
  · rename_i result final ran
    exact ⟨result, final, ran, ensured⟩
  · exact ensured.elim

theorem ensures_of_run {program : Program σ α} {post : α → σ → Prop} {state final : σ} {result : α}
    (ran : program state = .ok (result, final)) : Ensures program post state ↔ post result final := by
  simp only [Ensures, ran]

theorem Ensures.mono {program : Program σ α} {post weaker : α → σ → Prop} {state : σ}
    (ensured : Ensures program post state)
    (implies : ∀ result final, post result final → weaker result final) :
    Ensures program weaker state := by
  obtain ⟨result, final, ran, holds⟩ := ensured.result
  exact (ensures_of_run ran).mpr (implies _ _ holds)

@[simp] theorem ensures_pure (result : α) (post : α → σ → Prop) :
    Ensures (pure result : Program σ α) post = post result := rfl

@[simp] theorem ensures_fault (why : Fault) (post : α → σ → Prop) (state : σ) :
    Ensures (fault why) post state ↔ False := Iff.rfl

@[simp] theorem ensures_get (post : σ → σ → Prop) :
    Ensures (get : Program σ σ) post = fun state => post state state := rfl

@[simp] theorem ensures_modify (change : σ → σ) (post : PUnit → σ → Prop) :
    Ensures (modify change : Program σ PUnit) post = fun state => post ⟨⟩ (change state) := rfl

@[simp] theorem ensures_bind (first : Program σ α) (rest : α → Program σ β) (post : β → σ → Prop) :
    Ensures (first >>= rest) post = Ensures first fun middle => Ensures (rest middle) post := by
  funext state
  cases ran : first state with
  | error why => simp [Ensures, bind, StateT.bind, Except.bind, ran]
  | ok outcome => simp [Ensures, bind, StateT.bind, Except.bind, ran]

theorem Ensures.bind {first : Program σ α} {rest : α → Program σ β} {middle : α → σ → Prop}
    {post : β → σ → Prop} {state : σ} (ensured : Ensures first middle state)
    (continues : ∀ result final, middle result final → Ensures (rest result) post final) :
    Ensures (first >>= rest) post state := by
  rw [ensures_bind]
  exact ensured.mono continues

def within {τ : Type} (part : σ → τ) (put : τ → σ → σ) (program : Program τ α) : Program σ α := fun state =>
  match program (part state) with
  | .ok (result, changed) => .ok (result, put changed state)
  | .error why => .error why

@[simp] theorem ensures_within {τ : Type} (part : σ → τ) (put : τ → σ → σ) (program : Program τ α)
    (post : α → σ → Prop) (state : σ) :
    Ensures (within part put program) post state ↔
      Ensures program (fun result changed => post result (put changed state)) (part state) := by
  unfold Ensures within
  cases program (part state) <;> rfl

theorem ensures_ite (condition : Prop) [Decidable condition] (yes no : Program σ α)
    (post : α → σ → Prop) (state : σ) :
    Ensures (if condition then yes else no) post state ↔
      if condition then Ensures yes post state else Ensures no post state := by
  split <;> rfl

/-- The postcondition of a loop body for a loop with `fuel` rounds left. -/
def Turn.Meets (body : β → Program σ (Turn β γ)) (fuel : Nat) (post : γ → σ → Prop) :
    Turn β γ → σ → Prop
  | .again next => Ensures (loop body fuel next) post
  | .leave result => post result

@[simp] theorem Turn.meets_again (body : β → Program σ (Turn β γ)) (fuel : Nat)
    (post : γ → σ → Prop) (next : β) (state : σ) :
    (Turn.again next).Meets body fuel post state ↔ Ensures (loop body fuel next) post state := Iff.rfl

@[simp] theorem Turn.meets_leave (body : β → Program σ (Turn β γ)) (fuel : Nat)
    (post : γ → σ → Prop) (result : γ) (state : σ) :
    (Turn.leave result).Meets body fuel post state ↔ post result state := Iff.rfl

theorem ensures_loop_succ (body : β → Program σ (Turn β γ)) (fuel : Nat) (value : β)
    (post : γ → σ → Prop) (state : σ) :
    Ensures (loop body (fuel + 1) value) post state ↔
      Ensures (body value) (fun turn => turn.Meets body fuel post) state := by
  simp only [loop, ensures_bind]
  constructor <;>
  · refine fun ensured => ensured.mono fun turn final holds => ?_
    cases turn <;> exact holds

/-- The invariant rule: `Inv n` says that at most `n` rounds are left. -/
theorem ensures_loop {body : β → Program σ (Turn β γ)} {post : γ → σ → Prop}
    (Inv : Nat → β → σ → Prop)
    (step : ∀ left value state, Inv left value state →
      Ensures (body value) (fun turn final => match turn with
        | .again next => ∃ fewer < left, Inv fewer next final
        | .leave result => post result final) state)
    {left fuel : Nat} (enough : left < fuel) {value : β} {state : σ} (start : Inv left value state) :
    Ensures (loop body fuel value) post state := by
  -- By induction on the rounds still allowed; the measure only has to stay below them.
  induction fuel generalizing left value state with
  | zero => omega
  | succ fuel ih =>
    rw [ensures_loop_succ]
    apply (step left value state start).mono
    intro turn final holds
    cases turn with
    | leave result => exact holds
    | again next =>
      obtain ⟨fewer, less, inv⟩ := holds
      exact ih (by omega) inv

end Embedlib.Library
