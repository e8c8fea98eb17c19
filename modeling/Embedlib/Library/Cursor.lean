import Embedlib.Library.OrderedMap

/-! Positions in a tree, and the step from one to the next in order.

A direction `d` gives an order of the elements; what is ahead of a position and
what is behind it are lists that start at the position.
-/

set_option autoImplicit false

namespace Embedlib.Library

variable {α : Type}

/-- The elements in the order of direction `d`. -/
def ColorTree.sweep (d : Dir) (t : ColorTree α) : List α :=
  match d with
  | .left => t.toList.reverse
  | .right => t.toList

namespace Spine

/-- What comes after the hole in direction `d`. -/
def beyond (d : Dir) (sp : Spine α) : List α :=
  match d with
  | .left => (before sp).reverse
  | .right => after sp

/-- What comes after the root of the subtree in direction `d`. -/
def ahead (d : Dir) (sp : Spine α) (t : ColorTree α) : List α := (t.child d).sweep d ++ beyond d sp

/-- Go up to the first node that is left in direction `d`. -/
def climb (d : Dir) : Spine α → ColorTree α → Option (Spine α × ColorTree α)
  | [], _ => none
  | f :: sp, t => if f.dir = d.flip then some (sp, f.fill t) else climb d sp (f.fill t)

/-- The position after this one in direction `d`. -/
def step (d : Dir) (sp : Spine α) : ColorTree α → Option (Spine α × ColorTree α)
  | .nil => none
  | .node c l x r =>
    let t := ColorTree.node c l x r
    match t.child d with
    -- Nothing on this side: the next node is above.
    | .nil => climb d sp t
    | .node e l' y r' =>
      some (outermost d.flip (⟨d, c, x, t.child d.flip⟩ :: sp) (.node e l' y r'))

/-- The position of `x`, with `back` behind it and `front` ahead of it in direction `d`. -/
structure Focus (d : Dir) (sp : Spine α) (t : ColorTree α) (back : List α) (x : α) (front : List α) :
    Prop where
  root_eq : t.root = some x
  back_eq : ahead d.flip sp t = back
  front_eq : ahead d sp t = front

/-- The next position is that of the first element of `front`, with `back` behind it. -/
def Lands (d : Dir) (whole : ColorTree α) (back front : List α)
    (next : Option (Spine α × ColorTree α)) : Prop :=
  match front with
  | [] => next = none
  | y :: rest => ∃ sp t, next = some (sp, t) ∧ plug sp t = whole ∧ Focus d sp t back y rest

end Spine

open Spine

@[simp] theorem sweep_nil (d : Dir) : (.nil : ColorTree α).sweep d = [] := by cases d <;> rfl

theorem sweep_flip (d : Dir) (t : ColorTree α) : t.sweep d.flip = (t.sweep d).reverse := by
  cases d <;> simp [ColorTree.sweep, Dir.flip]

theorem sweep_join (d : Dir) (c : Color) (t : ColorTree α) (x : α) (u : ColorTree α) :
    (ColorTree.join d c t x u).sweep d = u.sweep d ++ x :: t.sweep d := by
  cases d <;> simp [ColorTree.sweep, ColorTree.join, ColorTree.toList]

theorem beyond_along {d : Dir} {f : Frame α} {sp : Spine α} (along : f.dir = d) :
    beyond d (f :: sp) = beyond d sp := by
  subst along
  cases direction : f.dir <;> simp [beyond, before, after, direction]

theorem beyond_against {d : Dir} {f : Frame α} {sp : Spine α} (against : f.dir = d.flip) :
    beyond d (f :: sp) = f.value :: (f.sibling.sweep d ++ beyond d sp) := by
  cases d <;> simp [beyond, before, after, against, Dir.flip, ColorTree.sweep]

theorem beyond_append_along {d : Dir} {inner : Spine α} (along : ∀ f ∈ inner, f.dir = d)
    (sp : Spine α) : beyond d (inner ++ sp) = beyond d sp := by
  induction inner with
  | nil => rfl
  | cons f inner ih =>
    rw [List.cons_append, beyond_along (along f List.mem_cons_self),
      ih fun g member => along g (List.mem_cons_of_mem f member)]

theorem Spine.Focus.flip {d : Dir} {sp : Spine α} {t : ColorTree α} {x : α} {back front : List α}
    (focus : Focus d sp t back x front) : Focus d.flip sp t front x back :=
  ⟨focus.root_eq, by rw [Dir.flip_flip]; exact focus.front_eq, focus.back_eq⟩

theorem Spine.Lands.root_eq {d : Dir} {whole : ColorTree α} {back front : List α}
    {next : Option (Spine α × ColorTree α)} (lands : Lands d whole back front next) :
    next.bind (fun p => p.2.root) = front.head? := by
  unfold Lands at lands
  split at lands
  · rw [lands]; rfl
  · obtain ⟨sp, t, rfl, _, focus⟩ := lands
    exact focus.root_eq

theorem sweep_plug (d : Dir) (sp : Spine α) (t : ColorTree α) :
    (plug sp t).sweep d = (beyond d.flip sp).reverse ++ (t.sweep d ++ beyond d sp) := by
  cases d <;> simp [ColorTree.sweep, beyond, Dir.flip, plug_toList]

theorem Spine.Focus.sweep_eq {d : Dir} {sp : Spine α} {t : ColorTree α} {x : α} {back front : List α}
    (focus : Focus d sp t back x front) : (plug sp t).sweep d = back.reverse ++ x :: front := by
  obtain ⟨c, near, far, rfl⟩ := ColorTree.exists_join focus.root_eq d
  rw [sweep_plug, sweep_join, ← focus.back_eq, ← focus.front_eq, ahead, ahead, ColorTree.join_far,
    ColorTree.join_near, sweep_flip]
  simp

theorem step_up (d : Dir) (sp : Spine α) (c : Color) (x : α) (u : ColorTree α) :
    step d sp (.join d c .nil x u) = climb d sp (.join d c .nil x u) := by
  cases d <;> rfl

theorem step_down (d : Dir) (sp : Spine α) (c : Color) {t : ColorTree α} (x : α) (u : ColorTree α)
    (present : t ≠ .nil) :
    step d sp (.join d c t x u) = some (outermost d.flip (⟨d, c, x, u⟩ :: sp) t) := by
  cases t with
  | nil => exact absurd rfl present
  | node => cases d <;> rfl

theorem climb_lands (d : Dir) (sp : Spine α) (t : ColorTree α) :
    Lands d (plug sp t) (t.sweep d.flip ++ beyond d.flip sp) (beyond d sp) (climb d sp t) := by
  fun_induction climb d sp t with
  | case1 => cases d <;> rfl
  | case2 f sp t against =>
    rw [beyond_against against]
    refine ⟨sp, f.fill t, rfl, rfl, ?_, ?_, ?_⟩
    · exact ColorTree.join_root ..
    · rw [ahead, Frame.fill, against, ColorTree.join_near, beyond_along against]
    · rw [ahead, Frame.fill, against, ColorTree.join_flip, ColorTree.join_near]
  | case3 f sp t against ih =>
    have along : f.dir = d := by simpa using Dir.eq_flip_of_ne against
    have behind : (f.fill t).sweep d.flip ++ beyond d.flip sp =
        t.sweep d.flip ++ beyond d.flip (f :: sp) := by
      rw [beyond_against (by simpa using along), Frame.fill, along,
        ← ColorTree.join_flip, sweep_join]
      simp
    rw [beyond_along along, ← behind]
    exact ih

theorem outermost_lands (d : Dir) (sp : Spine α) {t : ColorTree α} (present : t ≠ .nil) :
    Lands d (plug sp t) (beyond d.flip sp) (t.sweep d ++ beyond d sp)
      (some (outermost d.flip sp t)) := by
  obtain ⟨inner, e, m, u, whole, along, reached⟩ := outermost_spec d.flip present
  rw [reached]
  have same : plug (inner ++ sp) (.join d.flip e .nil m u) = plug sp t := by
    rw [plug_append, ← whole]
  have focus : Focus d (inner ++ sp) (.join d.flip e .nil m u) (beyond d.flip sp) m
      (u.sweep d ++ beyond d (inner ++ sp)) := by
    refine ⟨by simp, ?_, ?_⟩
    · rw [ahead, ColorTree.join_near, sweep_nil, beyond_append_along along]; rfl
    · rw [ahead, ColorTree.join_flip, ColorTree.join_near]
  -- What is ahead follows from what is behind, as the whole sequence is the same.
  have lists := focus.sweep_eq
  rw [same, sweep_plug] at lists
  rw [List.append_cancel_left lists]
  exact ⟨_, _, rfl, same, focus⟩

theorem outermost_focus (d : Dir) {t : ColorTree α} (present : t ≠ .nil) :
    plug (outermost d.flip [] t).1 (outermost d.flip [] t).2 = t ∧
      ∃ x rest, Focus d (outermost d.flip [] t).1 (outermost d.flip [] t).2 [] x rest := by
  have lands := outermost_lands d [] present
  unfold Lands at lands
  split at lands
  · cases lands
  · rename_i x rest _
    obtain ⟨sp, u, same, whole, focus⟩ := lands
    rw [Option.some.inj same]
    have first : beyond d.flip ([] : Spine α) = [] := by cases d <;> rfl
    rw [first] at focus
    exact ⟨whole, x, rest, focus⟩

/-- One step: the position moves by one element, and there is none at the end. -/
theorem step_lands {d : Dir} {sp : Spine α} {t : ColorTree α} {x : α} {back front : List α}
    (focus : Focus d sp t back x front) : Lands d (plug sp t) (x :: back) front (step d sp t) := by
  obtain ⟨rootEq, rfl, rfl⟩ := focus
  obtain ⟨c, near, far, rfl⟩ := ColorTree.exists_join rootEq d
  rw [ahead, ahead, ColorTree.join_near, ColorTree.join_far]
  by_cases present : near = .nil
  · subst present
    have climbed := climb_lands d sp (.join d c .nil x far)
    rw [← ColorTree.join_flip, sweep_join, sweep_nil, ColorTree.join_flip, List.append_assoc] at climbed
    rw [step_up]
    simpa using climbed
  · have first := outermost_lands d (⟨d, c, x, far⟩ :: sp) present
    have along : beyond d (⟨d, c, x, far⟩ :: sp) = beyond d sp := beyond_along (f := ⟨d, c, x, far⟩) rfl
    have against : beyond d.flip (⟨d, c, x, far⟩ :: sp) = x :: (far.sweep d.flip ++ beyond d.flip sp) :=
      beyond_against (f := ⟨d, c, x, far⟩) (by simp)
    rw [along, against] at first
    rw [step_down d sp c x far present]
    exact first

theorem exists_focus_below {t : ColorTree α} {x : α} {a b : List α} (listed : t.toList = a ++ x :: b)
    (sp : Spine α) : ∃ sp' u, plug sp' u = plug sp t ∧
      Focus .right sp' u (a.reverse ++ beyond .left sp) x (b ++ beyond .right sp) := by
  induction t generalizing a b sp with
  | nil => simp [ColorTree.toList] at listed
  | node c l y r ihl ihr =>
    rw [ColorTree.toList, List.append_eq_append_iff] at listed
    rcases listed with ⟨inner, rfl, rest⟩ | ⟨inner, inLeft, rest⟩
    · obtain _ | ⟨z, inner⟩ := inner
      · obtain ⟨rfl, rfl⟩ := List.cons.inj rest
        exact ⟨sp, .node c l y r, rfl, rfl, by simp [ahead, Dir.flip, ColorTree.child, ColorTree.sweep],
          rfl⟩
      · obtain ⟨rfl, inRight⟩ := List.cons.inj rest
        obtain ⟨sp', u, whole, focus⟩ := ihr inRight (⟨.right, c, y, l⟩ :: sp)
        refine ⟨sp', u, whole, ?_⟩
        rw [beyond_against (d := .left) rfl, beyond_along (d := .right) rfl] at focus
        simpa [ColorTree.sweep] using focus
    · obtain _ | ⟨z, inner⟩ := inner
      · obtain ⟨rfl, rfl⟩ := List.cons.inj rest
        rw [List.append_nil] at inLeft
        subst inLeft
        exact ⟨sp, .node c l x r, rfl, rfl, by simp [ahead, Dir.flip, ColorTree.child, ColorTree.sweep],
          rfl⟩
      · obtain ⟨rfl, rfl⟩ := List.cons.inj rest
        obtain ⟨sp', u, whole, focus⟩ := ihl inLeft (⟨.left, c, y, r⟩ :: sp)
        refine ⟨sp', u, whole, ?_⟩
        rw [beyond_along (d := .left) rfl, beyond_against (d := .right) rfl] at focus
        simpa [ColorTree.sweep] using focus

theorem exists_focus {t : ColorTree α} {x : α} {a b : List α} (listed : t.toList = a ++ x :: b) :
    ∃ sp c l r, plug sp (.node c l x r) = t ∧ Focus .right sp (.node c l x r) a.reverse x b := by
  obtain ⟨sp, u, whole, focus⟩ := exists_focus_below listed []
  obtain ⟨c, l, r, rfl⟩ := ColorTree.exists_join focus.root_eq .left
  exact ⟨sp, c, l, r, whole, by simpa [beyond, before, after, ColorTree.join] using focus⟩

theorem Spine.Focus.removeAt_toList {sp : Spine α} {c : Color} {l r : ColorTree α} {x : α} {a b : List α}
    (focus : Focus .right sp (.node c l x r) a.reverse x b) :
    (removeAt sp (.node c l x r)).toList = a ++ b := by
  have behind : before sp ++ l.toList = a := by
    have reversed := congrArg List.reverse focus.back_eq
    simpa [ahead, Dir.flip, ColorTree.child, ColorTree.sweep, beyond] using reversed
  have front : r.toList ++ after sp = b := focus.front_eq
  rw [Library.removeAt_toList, ← behind, ← front]
  simp

theorem Lists.index_eq {κ : Type} [LinearOrder κ] {key : α → κ} {map : κ → Option α} {sp : Spine α}
    {t : ColorTree α} {x : α} {back front : List α} (lists : Lists key map (plug sp t).toList)
    (focus : Focus .right sp t back x front) :
    (plug sp t).toList.findIdx? (fun y => key y = key x) = some back.length := by
  have listed : (plug sp t).toList = back.reverse ++ x :: front := focus.sweep_eq
  rw [listed] at lists ⊢
  rw [lists.findIdx?_eq, List.length_reverse]

end Embedlib.Library
