import Embedlib.Library.RedBlack

/-! Rebalancing a red-black tree from a position in it.

`insertFix` repairs a red node that may hang below a red node, `removeFix` a
subtree that lacks one black node. Both keep the in-order sequence.
-/

set_option autoImplicit false

namespace Embedlib.Library

variable {α : Type}

namespace Spine

/-- Repair above the red subtree `t`. The root may be left red. -/
def insertFix : Spine α → ColorTree α → ColorTree α
  | p :: g :: sp, t =>
    if p.color = .red then
      if g.sibling.color = .red then
        insertFix sp (.join g.dir .red (.join p.dir .black t p.value p.sibling) g.value
          (g.sibling.recolor .black))
      else if p.dir = g.dir then
        plug sp (.join g.dir .black t p.value (.join g.dir .red p.sibling g.value g.sibling))
      else match t.root with
        | none => plug (p :: g :: sp) t
        | some x => plug sp (.join g.dir .black
            (.join g.dir .red p.sibling p.value (t.child g.dir)) x
            (.join g.dir .red (t.child g.dir.flip) g.value g.sibling))
    else plug (p :: g :: sp) t
  | sp, t => plug sp t

/-- The outcome of repairing one frame of a removal: the subtree has its black
node back, or the subtree one level up now lacks it. -/
inductive Repair (α : Type) where
  | whole (t : ColorTree α)
  | short (t : ColorTree α)

/-- Repair `near`, which lacks a black node, below `x` with the black sibling `far`. -/
def repair (d : Dir) (c : Color) (near : ColorTree α) (x : α) (far : ColorTree α) : Repair α :=
  match far.root with
  | none => .short (.join d c near x far)
  | some y =>
    if (far.child d.flip).color = .red then
      .whole (.join d c (.join d .black near x (far.child d)) y ((far.child d.flip).recolor .black))
    else match (far.child d).color, (far.child d).root with
      | .red, some z => .whole (.join d c
          (.join d .black near x ((far.child d).child d)) z
          (.join d .black ((far.child d).child d.flip) y (far.child d.flip)))
      | _, _ => .short (.join d c near x (far.recolor .red))

/-- Repair above the subtree `t`, which lacks one black node. -/
def removeFix : Spine α → ColorTree α → ColorTree α
  | [], t => t.recolor .black
  | f :: sp, t =>
    if t.color = .red then plug (f :: sp) (t.recolor .black)
    else match f.sibling.color, f.sibling.root with
      | .red, some y =>
        let lowered : Spine α := ⟨f.dir, .black, y, f.sibling.child f.dir.flip⟩ :: sp
        match repair f.dir .red t f.value (f.sibling.child f.dir) with
        | .whole u => (plug lowered u).recolor .black
        | .short u => plug lowered (u.recolor .black)
      | _, _ =>
        match repair f.dir f.color t f.value f.sibling with
        | .whole u => (plug sp u).recolor .black
        | .short u => removeFix sp u

end Spine

open Spine

/-! ### The in-order sequence -/

theorem node_toList (d : Dir) {t : ColorTree α} {x : α} (found : t.root = some x) :
    t.toList = (ColorTree.join d t.color (t.child d) x (t.child d.flip)).toList := by
  cases t with
  | nil => cases found
  | node c l y r => cases found; rw [ColorTree.node_eq_join d]; simp

theorem rotate_toList (d : Dir) (c e c' e' : Color) (a b u : ColorTree α) (x y : α) :
    (ColorTree.join d c (.join d e a x b) y u).toList =
      (ColorTree.join d c' a x (.join d e' b y u)).toList := by
  cases d <;> simp [ColorTree.join, ColorTree.toList]

theorem join_toList_congr (d : Dir) (c e : Color) {t t' u u' : ColorTree α} (x : α)
    (near : t.toList = t'.toList) (far : u.toList = u'.toList) :
    (ColorTree.join d c t x u).toList = (ColorTree.join d e t' x u').toList := by
  cases d <;> simp [ColorTree.join, ColorTree.toList, near, far]

theorem plug_toList_congr (sp : Spine α) {t u : ColorTree α} (same : t.toList = u.toList) :
    (plug sp t).toList = (plug sp u).toList := by
  rw [plug_toList, plug_toList, same]

theorem insertFix_black {p : Frame α} (black : p.color = .black) (sp : Spine α) (t : ColorTree α) :
    insertFix (p :: sp) t = plug (p :: sp) t := by
  cases sp with
  | nil => rfl
  | cons g sp => rw [insertFix, if_neg (by simp [black])]

theorem insertFix_toList (sp : Spine α) (t : ColorTree α) :
    (insertFix sp t).toList = (plug sp t).toList := by
  fun_induction insertFix sp t with
  | case1 p g sp t parentRed uncleRed ih =>
    rw [ih]
    refine plug_toList_congr sp (join_toList_congr _ _ _ _ ?_ (ColorTree.recolor_toList _ _))
    exact join_toList_congr _ _ _ _ rfl rfl
  | case2 p g sp t parentRed uncleBlack straight =>
    apply plug_toList_congr sp
    rw [Frame.fill, Frame.fill, straight]
    exact (rotate_toList _ _ _ _ _ _ _ _ _ _).symm
  | case3 p g sp t parentRed uncleBlack bent found => rfl
  | case4 p g sp t parentRed uncleBlack bent x found =>
    apply plug_toList_congr sp
    -- A bent path is two rotations, the lower one against the direction of the grandparent.
    have opposite : p.dir = g.dir.flip := Dir.eq_flip_of_ne bent
    rw [Frame.fill, Frame.fill, opposite, ColorTree.join_flip, ← rotate_toList _ g.color .red]
    refine join_toList_congr _ _ _ _ ?_ rfl
    rw [rotate_toList _ _ _ p.color t.color]
    exact join_toList_congr _ _ _ _ rfl (node_toList _ found).symm
  | case5 => rfl
  | case6 => rfl

theorem insertFix_ne_nil {sp : Spine α} {t : ColorTree α} (present : t ≠ .nil) : insertFix sp t ≠ .nil := by
  intro empty
  have same := insertFix_toList sp t
  rw [empty, plug_toList] at same
  cases t with
  | nil => exact present rfl
  | node c l x r => simp [ColorTree.toList] at same

/-- Whatever the outcome, the elements are those of the frame. -/
def Spine.Repair.tree : Repair α → ColorTree α
  | .whole t => t
  | .short t => t

theorem repair_toList (d : Dir) (c : Color) (near : ColorTree α) (x : α) (far : ColorTree α) :
    (repair d c near x far).tree.toList = (ColorTree.join d c near x far).toList := by
  fun_cases repair d c near x far with
  | case1 found => rfl
  | case2 y found farRed =>
    rw [Repair.tree, rotate_toList _ _ _ c far.color]
    apply join_toList_congr _ _ _ _ rfl
    rw [node_toList d found]
    exact join_toList_congr _ _ _ _ rfl (ColorTree.recolor_toList _ _)
  | case3 y found farBlack z inner nearRed =>
    rw [Repair.tree, rotate_toList _ _ _ c .black]
    apply join_toList_congr _ _ _ _ rfl
    rw [← rotate_toList _ far.color (far.child d).color, node_toList d found]
    exact join_toList_congr _ _ _ _ (node_toList d inner).symm rfl
  | case4 y found farBlack => exact join_toList_congr _ _ _ _ rfl (ColorTree.recolor_toList _ _)

theorem lower_toList (f : Frame α) (sp : Spine α) (t : ColorTree α) {y : α}
    (found : f.sibling.root = some y) :
    (plug (⟨f.dir, .black, y, f.sibling.child f.dir.flip⟩ :: sp)
      (.join f.dir .red t f.value (f.sibling.child f.dir))).toList = (plug (f :: sp) t).toList := by
  apply plug_toList_congr sp
  rw [Frame.fill, Frame.fill, rotate_toList _ _ _ f.color f.sibling.color]
  exact join_toList_congr _ _ _ _ rfl (node_toList _ found).symm

theorem removeFix_toList (sp : Spine α) (t : ColorTree α) :
    (removeFix sp t).toList = (plug sp t).toList := by
  fun_induction removeFix sp t with
  | case1 t => exact ColorTree.recolor_toList _ _
  | case2 f sp t red => exact plug_toList_congr _ (ColorTree.recolor_toList _ _)
  | case3 f sp t black y found siblingRed lowered u repaired =>
    have same := repair_toList f.dir .red t f.value (f.sibling.child f.dir)
    rw [repaired] at same
    rw [ColorTree.recolor_toList, ← lower_toList f sp t found]
    exact plug_toList_congr _ same
  | case4 f sp t black y found siblingRed lowered u repaired =>
    have same := repair_toList f.dir .red t f.value (f.sibling.child f.dir)
    rw [repaired] at same
    rw [← lower_toList f sp t found]
    exact plug_toList_congr _ ((ColorTree.recolor_toList _ _).trans same)
  | case5 f sp t black u repaired =>
    have same := repair_toList f.dir f.color t f.value f.sibling
    rw [repaired] at same
    exact (ColorTree.recolor_toList _ _).trans (plug_toList_congr sp same)
  | case6 f sp t black u repaired siblingBlack ih =>
    have same := repair_toList f.dir f.color t f.value f.sibling
    rw [repaired] at same
    exact ih.trans (plug_toList_congr sp same)

/-! ### The red-black invariant -/

theorem insertFix_isRedBlack {n : Nat} {sp : Spine α} {t : ColorTree α} (fits : Fits .black n sp)
    (balanced : Balanced n t) (red : t.color = .red) :
    IsRedBlack ((insertFix sp t).recolor .black) := by
  fun_induction insertFix sp t generalizing n with
  | case1 p g sp t parentRed uncleRed ih =>
    obtain ⟨⟨sibling, _⟩, uncle, outer⟩ := fits.of_red_frame parentRed
    refine ih outer (balanced_join_red.mpr ⟨?_, uncle.blacken uncleRed, ?_, ?_⟩) (by simp)
    · exact balanced_join_black.mpr ⟨balanced, sibling⟩
    · simp
    · exact ColorTree.recolor_black_color _
  | case2 p g sp t parentRed uncleBlack straight =>
    obtain ⟨⟨sibling, siblingBlack⟩, uncle, outer⟩ := fits.of_red_frame parentRed
    have lower : Balanced n (.join g.dir .red p.sibling g.value g.sibling) :=
      balanced_join_red.mpr ⟨sibling, uncle, siblingBlack, Color.eq_black_of_ne uncleBlack⟩
    have upper : Balanced (n + 1) (.join g.dir .black t p.value (.join g.dir .red p.sibling g.value g.sibling)) :=
      balanced_join_black.mpr ⟨balanced, lower⟩
    have whole := outer.plug upper (.inl (ColorTree.join_color ..))
    exact whole.recolor_self.symm ▸ whole
  | case3 p g sp t parentRed uncleBlack bent found =>
    rw [ColorTree.root_eq_none.mp found] at red
    cases red
  | case4 p g sp t parentRed uncleBlack bent x found =>
    obtain ⟨⟨sibling, siblingBlack⟩, uncle, outer⟩ := fits.of_red_frame parentRed
    obtain ⟨near, nearBlack⟩ := balanced.child red g.dir
    obtain ⟨far, farBlack⟩ := balanced.child red g.dir.flip
    have inner : Balanced n (.join g.dir .red p.sibling p.value (t.child g.dir)) :=
      balanced_join_red.mpr ⟨sibling, near, siblingBlack, nearBlack⟩
    have lower : Balanced n (.join g.dir .red (t.child g.dir.flip) g.value g.sibling) :=
      balanced_join_red.mpr ⟨far, uncle, farBlack, Color.eq_black_of_ne uncleBlack⟩
    have upper : Balanced (n + 1) (.join g.dir .black (.join g.dir .red p.sibling p.value (t.child g.dir)) x
        (.join g.dir .red (t.child g.dir.flip) g.value g.sibling)) := balanced_join_black.mpr ⟨inner, lower⟩
    have whole := outer.plug upper (.inl (ColorTree.join_color ..))
    exact whole.recolor_self.symm ▸ whole
  | case5 p g sp t parentBlack =>
    have whole := (fits.below_black (Color.eq_black_of_ne parentBlack)).plug balanced (.inr rfl)
    exact whole.recolor_self.symm ▸ whole
  | case6 sp t short =>
    cases sp with
    | nil => exact isRedBlack_iff.mpr ⟨ColorTree.recolor_black_color _, balanced.exists_blacken⟩
    | cons f sp =>
      cases color : f.color with
      | black =>
        have whole := (fits.below_black color).plug balanced (.inr rfl)
        exact whole.recolor_self.symm ▸ whole
      | red =>
        cases fits with
        | black => cases color
        | red u uBlack rest =>
          obtain ⟨d, x, v, rest, rfl, _⟩ := rest.of_red
          exact (short _ _ _ rfl).elim

/-- What a removal leaves at a position of black height `n + 1`: a red root to
be painted black, or a tree one black node short. -/
def Lacking (n : Nat) (t : ColorTree α) : Prop :=
  match t.color with
  | .red => Balanced (n + 1) (t.recolor .black)
  | .black => Balanced n t

theorem Balanced.lacking {n : Nat} {t : ColorTree α} (balanced : Balanced n t) : Lacking n t := by
  unfold Lacking
  split
  · exact balanced.blacken (by assumption)
  · exact balanced

theorem Lacking.of_red {n : Nat} {t : ColorTree α} (lacking : Lacking n t) (red : t.color = .red) :
    Balanced (n + 1) (t.recolor .black) := by
  unfold Lacking at lacking; rwa [red] at lacking

theorem Lacking.of_black {n : Nat} {t : ColorTree α} (lacking : Lacking n t)
    (black : t.color = .black) : Balanced n t := by
  unfold Lacking at lacking; rwa [black] at lacking

/-- The black height of a node of colour `c` above subtrees of black height `n`. -/
def heightAbove (c : Color) (n : Nat) : Nat :=
  match c with
  | .red => n
  | .black => n + 1

theorem balanced_join {c : Color} {n : Nat} {d : Dir} {t u : ColorTree α} {x : α}
    (near : Balanced n t) (far : Balanced n u) (nearBlack : t.color = .black)
    (farBlack : u.color = .black) : Balanced (heightAbove c n) (.join d c t x u) := by
  cases c with
  | red => exact balanced_join_red.mpr ⟨near, far, nearBlack, farBlack⟩
  | black => exact balanced_join_black.mpr ⟨near, far⟩

theorem Fits.sibling {n : Nat} {f : Frame α} {sp : Spine α} (fits : Fits .black n (f :: sp)) :
    Balanced n f.sibling ∧ Fits f.color (heightAbove f.color n) sp ∧
      (f.color = .red → f.sibling.color = .black) := by
  cases fits with
  | red u uBlack rest => exact ⟨u, rest, fun _ => uBlack⟩
  | black u rest => exact ⟨u, rest, nofun⟩

theorem Fits.sibling_ne_nil {n : Nat} {f : Frame α} {sp : Spine α} (fits : Fits .black (n + 1) (f :: sp)) :
    f.sibling ≠ .nil := by
  obtain ⟨sibling, _, _⟩ := fits.sibling
  intro empty
  rw [empty] at sibling
  cases sibling

theorem repair_color (d : Dir) (c : Color) (near : ColorTree α) (x : α) (far : ColorTree α) :
    (repair d c near x far).tree.color = c := by
  fun_cases repair d c near x far <;> simp [Repair.tree]

def Spine.Repair.Sound (c : Color) (n : Nat) : Repair α → Prop
  | .whole u => u.color = c ∧ Balanced (heightAbove c (n + 1)) u
  | .short u => u.color = c ∧ Balanced (n + 1) (u.recolor .black)

theorem repair_sound {n : Nat} (d : Dir) (c : Color) {near far : ColorTree α} (x : α)
    (lacks : Balanced n near) (sibling : Balanced (n + 1) far) (siblingBlack : far.color = .black) :
    (repair d c near x far).Sound c n := by
  have inner := sibling.child_of_black siblingBlack d
  have outer := sibling.child_of_black siblingBlack d.flip
  fun_cases repair d c near x far with
  | case1 found =>
    obtain ⟨_, _, _, _, rfl⟩ := sibling.node
    cases found
  | case2 y found farRed =>
    exact ⟨by simp, balanced_join (balanced_join_black.mpr ⟨lacks, inner⟩)
      (outer.blacken farRed) (by simp) (ColorTree.recolor_black_color _)⟩
  | case3 y found farBlack z innerRoot innerRed =>
    have a := (inner.child innerRed d).1
    have b := (inner.child innerRed d.flip).1
    exact ⟨by simp, balanced_join (balanced_join_black.mpr ⟨lacks, a⟩)
      (balanced_join_black.mpr ⟨b, outer⟩) (by simp) (by simp)⟩
  | case4 y found farBlack innerBlack =>
    have farOk := Color.eq_black_of_ne farBlack
    have innerOk := ColorTree.black_of_root innerBlack
    have reddened : Balanced n (far.recolor .red) := by
      cases d with
      | left => exact sibling.redden siblingBlack innerOk farOk
      | right => exact sibling.redden siblingBlack farOk innerOk
    exact ⟨by simp, by simpa using ⟨lacks, reddened⟩⟩

theorem red_sibling {n : Nat} {d : Dir} {c : Color} {x y : α} {far : ColorTree α} {sp : Spine α}
    (fits : Fits .black (n + 1) (⟨d, c, x, far⟩ :: sp)) (found : far.root = some y)
    (red : far.color = .red) : ∃ a b, far = .join d .red a y b ∧ a ≠ .nil := by
  obtain ⟨sibling, _, _⟩ := fits.sibling
  obtain ⟨e, a, b, rfl⟩ := ColorTree.exists_join found d
  obtain ⟨inner, _⟩ := sibling.child red d
  rw [ColorTree.join_color] at red
  rw [ColorTree.join_near] at inner
  exact ⟨a, b, by rw [red], by rintro rfl; cases inner⟩

/-- A red sibling goes up, and the repair is done below it with a black sibling. -/
theorem repair_lowered {n : Nat} {f : Frame α} {sp : Spine α} {t : ColorTree α}
    (fits : Fits .black (n + 1) (f :: sp)) (lacks : Balanced n t) (siblingRed : f.sibling.color = .red) :
    Balanced (n + 1) (f.sibling.child f.dir.flip) ∧ Fits .black (n + 2) sp ∧
      (repair f.dir .red t f.value (f.sibling.child f.dir)).Sound .red n := by
  obtain ⟨sibling, outer, siblingOk⟩ := fits.sibling
  have frameBlack : f.color = .black := Color.eq_black_of_ne fun red => by
    simp [siblingOk red] at siblingRed
  rw [frameBlack] at outer
  obtain ⟨inner, innerBlack⟩ := sibling.child siblingRed f.dir
  obtain ⟨far, _⟩ := sibling.child siblingRed f.dir.flip
  exact ⟨far, outer, repair_sound f.dir .red f.value lacks inner innerBlack⟩

theorem repair_short {n : Nat} {f : Frame α} {sp : Spine α} {t u : ColorTree α}
    (fits : Fits .black (n + 1) (f :: sp)) (lacks : Balanced n t) (siblingBlack : f.sibling.color = .black)
    (repaired : repair f.dir f.color t f.value f.sibling = .short u) :
    ∃ m, Fits .black (m + 1) sp ∧ Lacking m u := by
  obtain ⟨sibling, outer, _⟩ := fits.sibling
  have sound := repair_sound f.dir f.color f.value lacks sibling siblingBlack
  rw [repaired] at sound
  obtain ⟨same, settled⟩ := sound
  cases color : f.color with
  -- A red frame is painted black on the way up, which ends the repair there.
  | red =>
    rw [color] at outer same
    exact ⟨n, outer.weaken, by unfold Lacking; rw [same]; exact settled⟩
  | black =>
    rw [color] at outer same
    rw [ColorTree.recolor_self same] at settled
    exact ⟨n + 1, outer, settled.lacking⟩

theorem removeFix_isRedBlack {n : Nat} {sp : Spine α} {t : ColorTree α}
    (fits : Fits .black (n + 1) sp) (lacking : Lacking n t) : IsRedBlack (removeFix sp t) := by
  fun_induction removeFix sp t generalizing n with
  | case1 t =>
    refine isRedBlack_iff.mpr ⟨ColorTree.recolor_black_color t, ?_⟩
    cases color : t.color with
    | red => exact ⟨_, lacking.of_red color⟩
    | black => exact (lacking.of_black color).exists_blacken
  | case2 f sp t red => exact fits.plug (lacking.of_red red) (.inl (ColorTree.recolor_black_color t))
  | case3 f sp t black y found siblingRed lowered u =>
    rename_i repaired
    have lacks := lacking.of_black (Color.eq_black_of_ne black)
    obtain ⟨far, outer, sound⟩ := repair_lowered fits lacks siblingRed
    rw [repaired] at sound
    have whole : IsRedBlack (plug lowered u) := (Fits.black far outer).plug sound.2 (.inr rfl)
    exact whole.recolor_self.symm ▸ whole
  | case4 f sp t black y found siblingRed lowered u =>
    rename_i repaired
    have lacks := lacking.of_black (Color.eq_black_of_ne black)
    obtain ⟨far, outer, sound⟩ := repair_lowered fits lacks siblingRed
    rw [repaired] at sound
    exact (Fits.black (c := .red) far outer).plug sound.2 (.inr rfl)
  | case5 f sp t black u repaired siblingBlack =>
    obtain ⟨sibling, outer, _⟩ := fits.sibling
    have tBlack := Color.eq_black_of_ne black
    have siblingOk := ColorTree.black_of_root siblingBlack
    have sound := repair_sound f.dir f.color f.value (lacking.of_black tBlack) sibling siblingOk
    rw [repaired] at sound
    have whole : IsRedBlack (plug sp u) := by
      apply outer.plug sound.2
      rw [sound.1]
      cases f.color <;> simp
    exact whole.recolor_self.symm ▸ whole
  | case6 f sp t black u repaired siblingBlack ih =>
    obtain ⟨m, outer, short⟩ := repair_short fits (lacking.of_black (Color.eq_black_of_ne black))
      (ColorTree.black_of_root siblingBlack) repaired
    exact ih outer short

end Embedlib.Library
