import Mathlib.Algebra.GroupWithZero.Nat
import Embedlib.Library.Cursor
import Embedlib.Library.Program

/-! What it costs to go through a whole tree step by step.

A single step may go up or down the whole height. A traversal enters and leaves each
node once, so that its steps cost two rounds for each node together.
-/

set_option autoImplicit false

namespace Embedlib.Library

variable {α σ : Type}

def ColorTree.reach (d : Dir) : ColorTree α → Nat
  | .nil => 0
  | .node _ l _ r => match d with
    | .left => l.reach .left + 1
    | .right => r.reach .right + 1

theorem ColorTree.join_reach (d : Dir) (c : Color) (t : ColorTree α) (x : α) (u : ColorTree α) :
    (ColorTree.join d c t x u).reach d = t.reach d + 1 := by
  cases d <;> rfl

theorem ColorTree.join_size (d : Dir) (c : Color) (t : ColorTree α) (x : α) (u : ColorTree α) :
    (ColorTree.join d c t x u).size = t.size + u.size + 1 := by
  cases d <;>
  · simp only [ColorTree.join, ColorTree.size]
    omega

namespace Spine

def climbRounds (d : Dir) : Spine α → Nat
  | [] => 1
  | f :: sp => if f.dir = d.flip then 1 else climbRounds d sp + 1

def stepRounds (d : Dir) (sp : Spine α) (t : ColorTree α) : Nat :=
  match t.child d with
  | .nil => climbRounds d sp
  | .node e l y r => (ColorTree.node e l y r).reach d.flip

/-- How many elements around the hole are not entered yet. -/
def unentered (d : Dir) : Spine α → Nat
  | [] => 0
  | f :: sp => if f.dir = d.flip then f.sibling.size + unentered d sp else unentered d sp

/-- What a traversal still costs: the nodes above and the one at the position are left
once, those that are not entered yet are entered and left. -/
def toll (d : Dir) (sp : Spine α) (t : ColorTree α) : Nat :=
  sp.length + 1 + 2 * ((t.child d).size + unentered d sp)

def tollAt (d : Dir) : Option (Spine α × ColorTree α) → Nat
  | none => 0
  | some (sp, t) => toll d sp t

end Spine

open Spine

section
variable {d : Dir} {sp : Spine α} {c : Color} {x : α} {t u near far : ColorTree α}

theorem unentered_against {f : Frame α} (against : f.dir = d.flip) :
    unentered d (f :: sp) = f.sibling.size + unentered d sp := by
  rw [unentered, if_pos against]

theorem unentered_along {f : Frame α} (along : f.dir = d) : unentered d (f :: sp) = unentered d sp := by
  rw [unentered, if_neg]
  rw [along]
  exact (Dir.flip_ne d).symm

theorem climb_toll (d : Dir) (sp : Spine α) (t : ColorTree α) :
    climbRounds d sp + tollAt d (climb d sp t) = sp.length + 1 + 2 * unentered d sp := by
  fun_induction climb d sp t with
  | case1 t => rfl
  | case2 f sp t against =>
    rw [climbRounds, if_pos against, unentered_against against]
    simp only [tollAt, toll, Frame.fill, against, ColorTree.join_flip, ColorTree.join_near, List.length_cons]
    omega
  | case3 f sp t against ih =>
    have along : f.dir = d := by simpa using Dir.eq_flip_of_ne against
    rw [climbRounds, if_neg against, unentered_along along, List.length_cons]
    omega

theorem outermost_toll (d : Dir) (sp : Spine α) (present : t ≠ .nil) :
    t.reach d.flip + toll d (outermost d.flip sp t).1 (outermost d.flip sp t).2 =
      2 * t.size + sp.length + 2 * unentered d sp := by
  induction t generalizing sp with
  | nil => exact absurd rfl present
  | node c l x r ihl ihr =>
    have whole (near far : ColorTree α) (same : ColorTree.node c l x r = .join d.flip c near x far)
        (ih : ∀ sp, near ≠ .nil →
          near.reach d.flip + toll d (outermost d.flip sp near).1 (outermost d.flip sp near).2 =
            2 * near.size + sp.length + 2 * unentered d sp) :
        (ColorTree.node c l x r).reach d.flip +
            toll d (outermost d.flip sp (.node c l x r)).1 (outermost d.flip sp (.node c l x r)).2 =
          2 * (ColorTree.node c l x r).size + sp.length + 2 * unentered d sp := by
      rw [same, ColorTree.join_reach, ColorTree.join_size]
      by_cases stop : near = .nil
      · subst stop
        rw [outermost_stop, toll, ColorTree.join_flip, ColorTree.join_near]
        simp only [ColorTree.reach, ColorTree.size]
        omega
      · have down := ih (⟨d.flip, c, x, far⟩ :: sp) stop
        have against : unentered d (⟨d.flip, c, x, far⟩ :: sp) = far.size + unentered d sp := unentered_against rfl
        rw [against, List.length_cons] at down
        rw [outermost_step d.flip sp c x far stop]
        omega
    cases d with
    | left => exact whole r l rfl fun sp present => ihr sp present
    | right => exact whole l r rfl fun sp present => ihl sp present

/-- A step costs what the rest of the traversal gets cheaper. -/
theorem step_toll (here : t.root = some x) : stepRounds d sp t + tollAt d (step d sp t) = toll d sp t := by
  obtain ⟨c, near, far, rfl⟩ := ColorTree.exists_join here d
  unfold stepRounds toll
  rw [ColorTree.join_near]
  cases near with
  | nil =>
    rw [step_up]
    have climbed := climb_toll d sp (.join d c .nil x far)
    simpa [ColorTree.size] using climbed
  | node e l y r =>
    rw [step_down d sp c x far ColorTree.node_ne_nil]
    have down := outermost_toll (t := .node e l y r) d (⟨d, c, x, far⟩ :: sp) ColorTree.node_ne_nil
    have along : unentered d (⟨d, c, x, far⟩ :: sp) = unentered d sp := unentered_along rfl
    rw [along, List.length_cons] at down
    simp only [tollAt]
    omega

end

/-! ### Traversals by a program -/

section
variable (first : Nat → Program σ (Option α)) (next : Nat → α → Program σ (Option α))

/-- Follow `next` to the end, with a bound on the rounds of each step. The elements
are listed. -/
def march : List Nat → Option α → Program σ (List α)
  | _, none => return []
  | [], some _ => fault .outOfFuel
  | fuel :: rest, some x => do
    let y ← next fuel x
    let visited ← march rest y
    return x :: visited

def traverse : List Nat → Program σ (List α)
  | [] => fault .outOfFuel
  | fuel :: rest => do
    let x ← first fuel
    march next rest x

end

def Spine.enter (d : Dir) : ColorTree α → Option (Spine α × ColorTree α)
  | .nil => none
  | .node c l x r => some (outermost d.flip [] (.node c l x r))

theorem enter_eq (d : Dir) {t : ColorTree α} (present : t ≠ .nil) : enter d t = some (outermost d.flip [] t) := by
  cases t with
  | nil => exact absurd rfl present
  | node => rfl

def Reaches (at_ : Spine α → ColorTree α → σ → Prop) (done : σ → Prop) (next : Option (Spine α × ColorTree α))
    (p : Option α) (s : σ) : Prop :=
  match next with
  | none => p = none ∧ done s
  | some (sp, t) => p = t.root ∧ at_ sp t s

/-- Every step in the tree costs no more than its rounds. -/
def Paced (next : Nat → α → Program σ (Option α)) (at_ : Spine α → ColorTree α → σ → Prop) (done : σ → Prop) (d : Dir)
    (whole : ColorTree α) : Prop :=
  ∀ sp t x s fuel, at_ sp t s → plug sp t = whole → t.root = some x → stepRounds d sp t ≤ fuel →
    Ensures (next fuel x) (Reaches at_ done (step d sp t)) s

section
variable {first : Nat → Program σ (Option α)} {next : Nat → α → Program σ (Option α)}
  {at_ : Spine α → ColorTree α → σ → Prop} {done : σ → Prop} {d : Dir} {whole : ColorTree α}

theorem Paced.march (paced : Paced next at_ done d whole) {sp : Spine α} {t : ColorTree α} {back front : List α} {x : α}
    {s : σ} (start : at_ sp t s) (same : plug sp t = whole) (focus : Focus d sp t back x front) :
    ∃ rounds : List Nat, rounds.sum = toll d sp t ∧
      Ensures (march next rounds (some x)) (fun visited s' => visited = x :: front ∧ done s') s := by
  induction front generalizing sp t back x s with
  | nil =>
    have pays : stepRounds d sp t + tollAt d (step d sp t) = toll d sp t := step_toll focus.root_eq
    have stepped := paced sp t x s _ start same focus.root_eq (Nat.le_refl _)
    have last : step d sp t = none := step_lands focus
    rw [last] at pays stepped
    refine ⟨[stepRounds d sp t], by simpa [tollAt] using pays, ?_⟩
    simp only [Library.march, ensures_bind]
    refine stepped.mono ?_
    rintro _ s' ⟨rfl, ended⟩
    exact ⟨rfl, ended⟩
  | cons y rest ih =>
    have pays : stepRounds d sp t + tollAt d (step d sp t) = toll d sp t := step_toll focus.root_eq
    obtain ⟨p, s', ran, reaches⟩ := (paced sp t x s _ start same focus.root_eq (Nat.le_refl _)).result
    obtain ⟨sp', t', moved, whole', focus'⟩ := step_lands focus
    rw [moved] at pays reaches
    obtain ⟨rfl, placed⟩ := reaches
    obtain ⟨rounds, sum, marched⟩ := ih placed (whole'.trans same) focus'
    refine ⟨stepRounds d sp t :: rounds, by rw [List.sum_cons, sum]; exact pays, ?_⟩
    rw [focus'.root_eq] at ran
    simp only [Library.march, ensures_bind]
    refine (ensures_of_run ran).mpr (marched.mono ?_)
    rintro _ s'' ⟨rfl, ended⟩
    exact ⟨rfl, ended⟩

/-- A whole traversal costs two rounds for each element. -/
theorem Paced.traverse (paced : Paced next at_ done d whole) {s : σ}
    (enters : ∀ fuel, whole.reach d.flip ≤ fuel → Ensures (first fuel) (Reaches at_ done (enter d whole)) s) :
    ∃ rounds : List Nat, rounds.sum = 2 * whole.size ∧
      Ensures (traverse first next rounds) (fun visited s' => visited = whole.sweep d ∧ done s') s := by
  obtain ⟨p, s', ran, reaches⟩ := (enters _ (Nat.le_refl _)).result
  by_cases empty : whole = .nil
  · subst empty
    obtain ⟨rfl, ended⟩ := reaches
    refine ⟨[0], rfl, ?_⟩
    simp only [Library.traverse, ensures_bind]
    exact (ensures_of_run ran).mpr ⟨(sweep_nil d).symm, ended⟩
  · rw [enter_eq d empty] at reaches
    obtain ⟨rfl, placed⟩ := reaches
    obtain ⟨same, y, rest, focus⟩ := outermost_focus d empty
    have swept := focus.sweep_eq
    rw [same] at swept
    have down := outermost_toll d [] empty
    obtain ⟨rounds, sum, marched⟩ := paced.march placed same focus
    refine ⟨whole.reach d.flip :: rounds, by rw [List.sum_cons, sum, down]; rfl, ?_⟩
    rw [focus.root_eq] at ran
    simp only [Library.traverse, ensures_bind]
    refine (ensures_of_run ran).mpr (marched.mono ?_)
    rintro _ s'' ⟨rfl, ended⟩
    exact ⟨swept.symm, ended⟩

end

end Embedlib.Library
