import Embedlib.Library.Fixup
import Mathlib.Logic.Function.Basic

/-! Search, insertion and removal in red-black trees.

The elements are compared only through `side`, the direction in which a search
leaves an element, so that any comparison function can stand behind it.
-/

set_option autoImplicit false

namespace Embedlib.Library

variable {α κ : Type}

namespace Spine

/-- Follow `side` down from `t` until an element is met or the tree ends. -/
def descend (side : α → Option Dir) (sp : Spine α) : ColorTree α → Spine α × ColorTree α
  | .nil => (sp, .nil)
  | .node c l x r => match side x with
    | none => (sp, .node c l x r)
    | some .left => descend side (⟨.left, c, x, r⟩ :: sp) l
    | some .right => descend side (⟨.right, c, x, l⟩ :: sp) r

/-- Put `x` at an empty place. -/
def insertAt (sp : Spine α) (x : α) : ColorTree α :=
  (insertFix sp (.node .red .nil x .nil)).recolor .black

/-- Follow direction `d` down to the last node. -/
def outermost (d : Dir) (sp : Spine α) : ColorTree α → Spine α × ColorTree α
  | .nil => (sp, .nil)
  | .node c l x r =>
    let further := match d with
      | .left => outermost .left (⟨.left, c, x, r⟩ :: sp) l
      | .right => outermost .right (⟨.right, c, x, l⟩ :: sp) r
    match further.2 with
    | .nil => (sp, .node c l x r)
    | .node .. => further

/-- What taking a node out leaves: the place of the subtree that moved up, that
subtree, and the colour that is missing there. -/
structure Gap (α : Type) where
  place : Spine α
  moved : ColorTree α
  lost : Color

/-- Take the root of the subtree out of the whole tree. With two children its
successor, the leftmost node on the right, takes its place and its colour. -/
def unlink (sp : Spine α) : ColorTree α → Gap α
  | .nil => ⟨sp, .nil, .red⟩
  -- With at most one child nothing takes the node's place.
  | .node c .nil _ r => ⟨sp, r, c⟩
  | .node c l _ .nil => ⟨sp, l, c⟩
  | .node c l _ r =>
    match outermost .left [] r with
    | (_, .nil) => ⟨sp, .nil, .red⟩
    | (inner, .node e _ m r') => ⟨inner ++ ⟨.right, c, m, l⟩ :: sp, r', e⟩

def Gap.close (gap : Gap α) : ColorTree α :=
  if gap.lost = .black then removeFix gap.place gap.moved else plug gap.place gap.moved

def removeAt (sp : Spine α) (t : ColorTree α) : ColorTree α := (unlink sp t).close

end Spine

open Spine

theorem descend_here {side : α → Option Dir} {x : α} (here : side x = none) (sp : Spine α)
    (c : Color) (l r : ColorTree α) : descend side sp (.node c l x r) = (sp, .node c l x r) := by
  rw [descend, here]

theorem descend_step {side : α → Option Dir} {x : α} {d : Dir} (further : side x = some d)
    (sp : Spine α) (c : Color) (t u : ColorTree α) :
    descend side sp (.join d c t x u) = descend side (⟨d, c, x, u⟩ :: sp) t := by
  cases d <;> rw [ColorTree.join, descend, further]

theorem descend_plug (side : α → Option Dir) (sp : Spine α) (t : ColorTree α) :
    plug (descend side sp t).1 (descend side sp t).2 = plug sp t := by
  fun_induction descend side sp t with
  | case1 => rfl
  | case2 => rfl
  | case3 sp c l x r _ ih => exact ih
  | case4 sp c l x r _ ih => exact ih

theorem descend_height (side : α → Option Dir) (sp : Spine α) (t : ColorTree α) :
    (descend side sp t).1.length + (descend side sp t).2.height ≤ sp.length + t.height := by
  fun_induction descend side sp t with
  | case1 => simp
  | case2 => simp
  | case3 sp c l x r _ ih =>
    simp only [List.length_cons, ColorTree.height] at ih ⊢
    omega
  | case4 sp c l x r _ ih =>
    simp only [List.length_cons, ColorTree.height] at ih ⊢
    omega

theorem descend_found {side : α → Option Dir} {sp : Spine α} {t : ColorTree α} {x : α}
    (found : (descend side sp t).2.root = some x) : side x = none := by
  fun_induction descend side sp t with
  | case1 => cases found
  | case2 sp c l y r here => cases found; exact here
  | case3 sp c l y r _ ih => exact ih found
  | case4 sp c l y r _ ih => exact ih found

theorem outermost_ne_nil (d : Dir) (sp : Spine α) (c : Color) (l : ColorTree α) (x : α)
    (r : ColorTree α) : (outermost d sp (.node c l x r)).2 ≠ .nil := by
  simp only [outermost]
  split
  · simp
  · rename_i more; simp [more]

theorem outermost_stop (d : Dir) (sp : Spine α) (c : Color) (x : α) (u : ColorTree α) :
    outermost d sp (.join d c .nil x u) = (sp, .join d c .nil x u) := by
  cases d <;> rfl

theorem outermost_step (d : Dir) (sp : Spine α) (c : Color) {t : ColorTree α} (x : α)
    (u : ColorTree α) (more : t ≠ .nil) :
    outermost d sp (.join d c t x u) = outermost d (⟨d, c, x, u⟩ :: sp) t := by
  cases t with
  | nil => exact absurd rfl more
  | node e l y r =>
    cases d with
    | left =>
      have ends := outermost_ne_nil .left (⟨.left, c, x, u⟩ :: sp) e l y r
      simp only [ColorTree.join]
      rw [outermost]
      split
      · rename_i stop; exact absurd stop ends
      · rfl
    | right =>
      have ends := outermost_ne_nil .right (⟨.right, c, x, u⟩ :: sp) e l y r
      simp only [ColorTree.join]
      rw [outermost]
      split
      · rename_i stop; exact absurd stop ends
      · rfl

theorem outermost_spec (d : Dir) {t : ColorTree α} (some : t ≠ .nil) :
    ∃ inner e m u, t = plug inner (.join d e .nil m u) ∧ (∀ f ∈ inner, f.dir = d) ∧
      ∀ sp, outermost d sp t = (inner ++ sp, .join d e .nil m u) := by
  induction t with
  | nil => exact absurd rfl some
  | node c l x r ihl ihr =>
    have ih : (ColorTree.node c l x r).child d ≠ .nil →
        ∃ inner e m u, (ColorTree.node c l x r).child d = plug inner (.join d e .nil m u) ∧
          (∀ f ∈ inner, f.dir = d) ∧
          ∀ sp, outermost d sp ((ColorTree.node c l x r).child d) =
            (inner ++ sp, .join d e .nil m u) := by
      cases d
      · exact ihl
      · exact ihr
    -- From here on both directions are one case: a near child and a far one.
    rw [ColorTree.node_eq_join d]
    generalize ColorTree.child d (.node c l x r) = near at ih ⊢
    generalize ColorTree.child d.flip (.node c l x r) = far
    by_cases stop : near = .nil
    · subst stop
      exact ⟨[], c, x, far, rfl, by simp, fun sp => outermost_stop d sp c x far⟩
    · obtain ⟨inner, e, m, u, whole, along, reached⟩ := ih stop
      refine ⟨inner ++ [⟨d, c, x, far⟩], e, m, u, ?_, ?_, fun sp => ?_⟩
      · rw [plug_append, ← whole]; rfl
      · intro f member
        rcases List.mem_append.mp member with member | member
        · exact along f member
        · rw [List.mem_singleton.mp member]
      · rw [outermost_step d sp c x far stop, reached, List.append_assoc]; rfl

theorem before_of_left {sp : Spine α} (along : ∀ f ∈ sp, f.dir = .left) : before sp = [] := by
  induction sp with
  | nil => rfl
  | cons f sp ih =>
    rw [before, ih fun g member => along g (List.mem_cons_of_mem f member), along f (by simp)]
    rfl

/-! ### Insertion and removal at a position -/

theorem insertAt_toList (sp : Spine α) (x : α) :
    (insertAt sp x).toList = sp.before ++ x :: sp.after := by
  rw [insertAt, ColorTree.recolor_toList, insertFix_toList, plug_toList]
  simp [ColorTree.toList]

theorem fits_leaf {sp : Spine α} (redBlack : IsRedBlack (plug sp .nil)) : Fits .black 0 sp := by
  obtain ⟨n, fits, balanced⟩ := redBlack.fits
  cases balanced
  exact fits

theorem balanced_leaf (x : α) : Balanced 0 (.node .red .nil x .nil) := .red .nil .nil rfl rfl

theorem insertAt_isRedBlack {sp : Spine α} (redBlack : IsRedBlack (plug sp .nil)) (x : α) :
    IsRedBlack (insertAt sp x) :=
  insertFix_isRedBlack (fits_leaf redBlack) (balanced_leaf x) rfl

theorem unlink_one (sp : Spine α) (d : Dir) (c : Color) (x : α) (u : ColorTree α) :
    unlink sp (.join d c .nil x u) = ⟨sp, u, c⟩ := by
  cases d with
  | left => rfl
  | right => cases u <;> rfl

theorem unlink_both (sp : Spine α) (c : Color) {l r : ColorTree α} (x : α) (left : l ≠ .nil)
    (right : r ≠ .nil) :
    ∃ inner e m r', r = plug inner (.node e .nil m r') ∧ (∀ f ∈ inner, f.dir = .left) ∧
      (∀ sp, outermost .left sp r = (inner ++ sp, .node e .nil m r')) ∧
      unlink sp (.node c l x r) = ⟨inner ++ ⟨.right, c, m, l⟩ :: sp, r', e⟩ := by
  obtain ⟨inner, e, m, r', whole, along, reached⟩ := outermost_spec .left right
  have found := reached []
  rw [List.append_nil] at found
  refine ⟨inner, e, m, r', whole, along, reached, ?_⟩
  rw [unlink, found]
  · rfl
  · exact left
  · exact right

theorem one_or_both (c : Color) (l : ColorTree α) (x : α) (r : ColorTree α) :
    (∃ d u, ColorTree.node c l x r = .join d c .nil x u) ∨ l ≠ .nil ∧ r ≠ .nil := by
  by_cases left : l = .nil
  · exact .inl ⟨.left, r, by rw [left]; rfl⟩
  by_cases right : r = .nil
  · exact .inl ⟨.right, l, by rw [right]; rfl⟩
  exact .inr ⟨left, right⟩

theorem unlink_toList (sp : Spine α) (c : Color) (l : ColorTree α) (x : α) (r : ColorTree α) :
    (plug (unlink sp (.node c l x r)).place (unlink sp (.node c l x r)).moved).toList =
      sp.before ++ (l.toList ++ r.toList) ++ sp.after := by
  rcases one_or_both c l x r with ⟨d, u, one⟩ | ⟨left, right⟩
  · rw [one, unlink_one, plug_toList]
    cases d <;> cases one <;> simp [ColorTree.toList]
  · obtain ⟨inner, e, m, r', rfl, along, _, unlinked⟩ := unlink_both sp c x left right
    rw [unlinked, plug_append]
    simp only [plug_cons, Frame.fill, plug_toList, before_of_left along]
    simp [ColorTree.join, ColorTree.toList, plug_toList, before_of_left along]

theorem removeAt_toList (sp : Spine α) (c : Color) (l : ColorTree α) (x : α) (r : ColorTree α) :
    (removeAt sp (.node c l x r)).toList = sp.before ++ (l.toList ++ r.toList) ++ sp.after := by
  rw [← unlink_toList sp c l x r, removeAt, Gap.close]
  split
  · exact removeFix_toList _ _
  · rfl

def Spine.Gap.Sound (gap : Gap α) : Prop :=
  match gap.lost with
  | .red => IsRedBlack (plug gap.place gap.moved)
  | .black => ∃ n, Fits .black (n + 1) gap.place ∧ Lacking n gap.moved

theorem Spine.Gap.Sound.close {gap : Gap α} (sound : gap.Sound) : IsRedBlack gap.close := by
  unfold Gap.Sound at sound
  unfold Gap.close
  cases lost : gap.lost with
  | red => rw [lost] at sound; simpa using sound
  | black =>
    rw [lost] at sound
    obtain ⟨n, fits, lacking⟩ := sound
    simpa using removeFix_isRedBlack fits lacking

theorem gap_sound {sp : Spine α} {d : Dir} {c : Color} {x : α} {u : ColorTree α}
    (redBlack : IsRedBlack (plug sp (.join d c .nil x u))) : (⟨sp, u, c⟩ : Gap α).Sound := by
  obtain ⟨n, fits, balanced⟩ := redBlack.fits
  cases c with
  | red =>
    obtain ⟨_, rest, _, black⟩ := balanced_join_red.mp balanced
    exact fits.of_color.plug rest (.inl black)
  | black =>
    cases n with
    -- A black node with an empty place below it has black height one at least.
    | zero => cases d <;> cases balanced
    | succ n =>
      obtain ⟨_, rest⟩ := balanced_join_black.mp balanced
      exact ⟨n, fits.of_color, rest.lacking⟩

theorem unlink_sound {sp : Spine α} {c : Color} {l : ColorTree α} {x : α} {r : ColorTree α}
    (redBlack : IsRedBlack (plug sp (.node c l x r))) : (unlink sp (.node c l x r)).Sound := by
  rcases one_or_both c l x r with ⟨d, u, one⟩ | ⟨left, right⟩
  · rw [one, unlink_one]
    exact gap_sound (one ▸ redBlack)
  · obtain ⟨inner, e, m, r', rfl, along, _, unlinked⟩ := unlink_both sp c x left right
    rw [unlinked]
    apply gap_sound (d := .left) (x := m)
    obtain ⟨n, fits, balanced⟩ := redBlack.fits
    have renamed : Balanced n (.node c l m (plug inner (.node e .nil m r'))) := by
      cases balanced with
      | red l r lb rb => exact .red l r lb rb
      | black l r => exact .black l r
    have whole := fits.plug renamed (by cases c <;> simp [ColorTree.color])
    exact plug_append inner _ (.node e .nil m r') ▸ whole

theorem removeAt_isRedBlack {sp : Spine α} {c : Color} {l : ColorTree α} {x : α} {r : ColorTree α}
    (redBlack : IsRedBlack (plug sp (.node c l x r))) :
    IsRedBlack (removeAt sp (.node c l x r)) := (unlink_sound redBlack).close

end Embedlib.Library
