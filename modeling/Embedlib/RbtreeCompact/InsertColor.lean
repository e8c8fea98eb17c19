import Embedlib.RbtreeCompact.Rules
import Embedlib.Library.Fixup

/-! `rb_insert_color` performs the insertion fix-up on the tree at the path. -/

set_option autoImplicit false

namespace Embedlib.RbtreeCompact

open Library Rb Spine

variable {ν : Type} [DecidableEq ν] {s : State (Records ν) ν}

theorem ensures_insert_case3 (inner : Spine ν) {sp : Spine ν} {d : Dir} {c c' : Color} {a b u : ColorTree ν}
    {x y : ν} {post : Unit → State (Records ν) ν → Prop}
    (shows : s.Shows (sp.plug (.join d c (.join d c' a x b) y u))) (place : s.At (inner ++ sp))
    (holds : ∀ s', s'.Shows (sp.plug (.join d .black a x (.join d .red b y u))) →
      s'.written = s.written → post () s') :
    Ensures (rbSetColor (some x) .black) (fun _ => Ensures (rbSetColor (some y) .red) fun _ =>
      Ensures (rbRotate (some y) d.flip) fun t => Ensures (entryAt inner.length) fun entry =>
        Ensures (link entry t) post) s := by
  apply ensures_setColor_at shows.near
  intro s₁ shows₁ same₁
  apply ensures_setColor_at shows₁.of_near
  intro s₂ shows₂ same₂
  have place₂ := (place.same same₁).same same₂
  have turned : s₂.Shows (sp.plug (.join d.flip .red u y (.join d.flip .black b x a))) := by
    simpa using shows₂
  refine ensures_rotate_link inner turned place₂ fun s₃ shows₃ same₃ => holds s₃ ?_ ?_
  · simpa using shows₃
  · exact ((same₁.trans same₂).trans same₃).written_eq

section
variable {sp : Spine ν} {pd gd : Dir} {px gx : ν} {gc : Color} {t pu gu : ColorTree ν}
  {post : Turn Unit Unit → State (Records ν) ν → Prop}

theorem ensures_insert_case1
    (shows : s.Shows (sp.plug (.join gd gc (.join pd .red t px pu) gx gu)))
    (place : s.At (⟨pd, .red, px, pu⟩ :: ⟨gd, gc, gx, gu⟩ :: sp)) (uncleRed : gu.color = .red)
    (holds : ∀ s', s'.Shows (sp.plug (.join gd .red (.join pd .black t px pu) gx (gu.recolor .black))) →
      s'.At sp → s'.written = s.written → post (.again ()) s') :
    Ensures (rbInsertColorRound ()) post s := by
  unfold rbInsertColorRound
  simp only [ensures_bind]
  apply ensures_entryAt [] place
  intro entry leads
  obtain rfl := leads
  have parentEq := shows.near.node_eq
  have grandEq := shows.node_eq
  cases gu with
  | nil => cases uncleRed
  | node c l ux r =>
    obtain rfl := uncleRed
    have uncleEq := Shows.node_eq (d := .left) shows.far
    simp only [ensures_isRed_some, records_color, parentEq, nodeRecord_color, decide_true, if_true,
      ensures_bind]
    apply ensures_entryAt [_] place
    intro entry leads
    obtain rfl := leads
    simp only [ensures_rbChild, records_child, grandEq, nodeRecord_far, ColorTree.root,
      ensures_isRed_some, records_color, uncleEq, nodeRecord_color, decide_true, if_true, ensures_bind]
    apply ensures_setColor_at shows.near
    intro s₁ shows₁ same₁
    apply ensures_setColor_at (d := .left) shows₁.of_near.far
    intro s₂ shows₂ same₂
    apply ensures_setColor_at shows₂.of_far
    intro s₃ shows₃ same₃
    have same := (same₁.trans same₂).trans same₃
    apply ensures_retreat [_, _] (place.same same)
    intro s₄ mem root written place₄
    exact holds s₄ (shows₃.same_heap mem root) place₄ (written.trans same.written_eq)

theorem ensures_insert_last
    (shows : s.Shows (sp.plug (.join gd gc (.join pd .red t px pu) gx gu)))
    (place : s.At (⟨pd, .red, px, pu⟩ :: ⟨gd, gc, gx, gu⟩ :: sp)) (uncleBlack : gu.color ≠ .red)
    (rest : Ensures (rbInsertColorLast (some px) (some gx) gd) post s) :
    Ensures (rbInsertColorRound ()) post s := by
  unfold rbInsertColorRound
  simp only [ensures_bind]
  apply ensures_entryAt [] place
  intro entry leads
  obtain rfl := leads
  have parentEq := shows.near.node_eq
  have grandEq := shows.node_eq
  simp only [ensures_isRed_some, records_color, parentEq, nodeRecord_color, decide_true, if_true,
    ensures_bind]
  apply ensures_entryAt [_] place
  intro entry leads
  obtain rfl := leads
  simp only [ensures_rbChild, records_child, grandEq, nodeRecord_far]
  apply ensures_isRed_at shows.far
  simpa [uncleBlack] using rest

theorem ensures_insert_straight
    (shows : s.Shows (sp.plug (.join gd gc (.join gd .red t px pu) gx gu)))
    (place : s.At (⟨gd, .red, px, pu⟩ :: ⟨gd, gc, gx, gu⟩ :: sp))
    (holds : ∀ s', s'.Shows (sp.plug (.join gd .black t px (.join gd .red pu gx gu))) →
      s'.written = s.written → post (.leave ()) s') :
    Ensures (rbInsertColorLast (some px) (some gx) gd) post s := by
  unfold rbInsertColorLast
  simp only [ensures_bind]
  apply ensures_entryAt [] place
  intro entry leads
  obtain rfl := leads
  simp only [ne_eq, not_true_eq_false, if_false, ensures_bind, ensures_pure]
  exact ensures_insert_case3 [_, _] shows place holds

/-- Case 2, then Case 3: the new node hangs on the other side. -/
theorem ensures_insert_bent {x : ν} {a b : ColorTree ν} {c : Color}
    (shows : s.Shows (sp.plug (.join gd gc (.join gd .red pu px (.join gd c a x b)) gx gu)))
    (place : s.At (⟨gd.flip, .red, px, pu⟩ :: ⟨gd, gc, gx, gu⟩ :: sp))
    (holds : ∀ s', s'.Shows (sp.plug (.join gd .black (.join gd .red pu px a) x (.join gd .red b gx gu))) →
      s'.written = s.written → post (.leave ()) s') :
    Ensures (rbInsertColorLast (some px) (some gx) gd) post s := by
  unfold rbInsertColorLast
  simp only [ensures_bind]
  apply ensures_entryAt [] place
  intro entry leads
  obtain rfl := leads
  simp only [ne_eq, Dir.flip_ne, not_false_eq_true, if_true, ensures_bind, ensures_pure]
  apply ensures_rbRotate (shows_plug.mp shows.near)
  intro s₁ hangs same₁
  -- Between the two rotations the source links the lower one in below the grandparent.
  have linked : Ensures (link ⟨some gx, gd⟩ (ColorTree.join gd c (.join gd .red pu px a) x b).root)
      (fun _ => Ensures (rbSetColor (some x) .black) fun _ => Ensures (rbSetColor (some gx) .red)
        fun _ => Ensures (rbRotate (some gx) gd.flip) fun t => Ensures (entryAt 2) fun entry =>
          Ensures (link entry t) fun _ => post (.leave ())) s₁ :=
    ensures_link hangs rfl fun s₂ shows₂ same₂ =>
      ensures_insert_case3 [_, _] shows₂.of_near ((place.same same₁).same same₂)
        fun s₃ shows₃ written => holds s₃ shows₃
          (written.trans (same₁.trans same₂).written_eq)
  simpa only [link, ColorTree.join_root] using linked

theorem ensures_insert_stop {sp : Spine ν} (shows : s.Shows (sp.plug t)) (place : s.At sp)
    (black : ∀ f rest, sp = f :: rest → f.color ≠ .red) (holds : post (.leave ()) s) :
    Ensures (rbInsertColorRound ()) post s := by
  unfold rbInsertColorRound
  simp only [ensures_bind]
  apply ensures_entryAt [] place
  intro entry leads
  cases sp with
  | nil =>
    have top : entry.parent = none := leads
    simpa [top] using holds
  | cons f sp =>
    obtain rfl := leads
    simpa [shows.frame_eq, black f sp rfl] using holds

end

theorem ensures_insertLoop {n fuel : Nat} {sp : Spine ν} {t : ColorTree ν}
    {post : Unit → State (Records ν) ν → Prop} (shows : s.Shows (sp.plug t)) (place : s.At sp)
    (fits : Fits .black n sp) (balanced : Balanced n t) (red : t.color = .red)
    (enough : sp.length < fuel)
    (holds : ∀ s', s'.Shows (insertFix sp t) → s'.written = s.written → post () s') :
    Ensures (loop rbInsertColorRound fuel ()) post s := by
  fun_induction insertFix sp t generalizing s fuel n with
  | case1 p g sp t parentRed uncleRed ih =>
    obtain ⟨⟨sibling, _⟩, uncle, outer⟩ := fits.of_red_frame parentRed
    obtain ⟨pd, _, px, pu⟩ := p
    obtain rfl := parentRed
    obtain ⟨fuel, rfl⟩ : ∃ k, fuel = k + 1 := ⟨fuel - 1, by omega⟩
    rw [ensures_loop_succ]
    apply ensures_insert_case1 shows place uncleRed
    intro s' shows' place' written
    refine ih shows' place' outer (balanced_join_red.mpr ⟨?_, uncle.blacken uncleRed, ?_, ?_⟩) (by simp)
      (by simp only [List.length_cons] at enough; omega) fun s'' shows'' written' =>
        holds s'' shows'' (written'.trans written)
    · exact balanced_join_black.mpr ⟨balanced, sibling⟩
    · simp
    · exact ColorTree.recolor_black_color _
  | case2 p g sp t parentRed uncleBlack straight =>
    obtain ⟨pd, _, px, pu⟩ := p
    obtain rfl := parentRed
    obtain rfl := straight
    obtain ⟨fuel, rfl⟩ : ∃ k, fuel = k + 1 := ⟨fuel - 1, by omega⟩
    rw [ensures_loop_succ]
    exact ensures_insert_last shows place uncleBlack (ensures_insert_straight shows place holds)
  | case3 p g sp t parentRed uncleBlack bent found =>
    rw [ColorTree.root_eq_none.mp found] at red
    cases red
  | case4 p g sp t parentRed uncleBlack bent x found =>
    obtain ⟨pd, _, px, pu⟩ := p
    obtain ⟨gd, gc, gx, gu⟩ := g
    obtain rfl := parentRed
    obtain rfl := Dir.eq_flip_of_ne bent
    obtain ⟨fuel, rfl⟩ : ∃ k, fuel = k + 1 := ⟨fuel - 1, by omega⟩
    rw [ensures_loop_succ]
    apply ensures_insert_last shows place uncleBlack
    cases t with
    | nil => cases found
    | node c l y r =>
      obtain rfl : y = x := Option.some.inj found
      have turned : s.Shows (plug sp (.join gd gc (.join gd .red pu px (.join gd c
          ((ColorTree.node c l y r).child gd) y ((ColorTree.node c l y r).child gd.flip))) gx gu)) := by
        rw [← ColorTree.node_eq_join]
        simpa only [plug_cons, Frame.fill, ColorTree.join_flip] using shows
      exact ensures_insert_bent turned place holds
  | case5 p g sp t parentBlack =>
    obtain ⟨fuel, rfl⟩ : ∃ k, fuel = k + 1 := ⟨fuel - 1, by omega⟩
    rw [ensures_loop_succ]
    refine ensures_insert_stop shows place ?_ (holds s shows rfl)
    rintro f rest ⟨⟩
    exact parentBlack
  -- A red parent without a grandparent would be a red root.
  | case6 sp t short =>
    obtain ⟨fuel, rfl⟩ : ∃ k, fuel = k + 1 := ⟨fuel - 1, by omega⟩
    rw [ensures_loop_succ]
    refine ensures_insert_stop shows place ?_ (holds s shows rfl)
    rintro ⟨fd, fc, fx, fu⟩ rest rfl parentRed
    obtain rfl := parentRed
    obtain _ | ⟨_, _, grand⟩ | _ := fits
    obtain ⟨gd, gx, gu, above, rfl, _⟩ := grand.of_red
    exact short _ _ _ rfl

theorem ensures_rbInsertColor {n fuel : Nat} {sp : Spine ν} {t : ColorTree ν}
    {post : Unit → State (Records ν) ν → Prop} (shows : s.Shows (sp.plug t)) (place : s.At sp)
    (fits : Fits .black n sp) (balanced : Balanced n t) (red : t.color = .red)
    (enough : sp.length < fuel)
    (holds : ∀ s', s'.Shows ((insertFix sp t).recolor .black) → s'.written = s.written → post () s') :
    Ensures (rbInsertColor fuel) post s := by
  unfold rbInsertColor
  simp only [ensures_bind, ensures_get]
  apply ensures_insertLoop shows place fits balanced red enough
  intro s₁ shows₁ written₁
  have present : t ≠ .nil := by
    rintro rfl
    cases red
  cases fixed : insertFix sp t with
  | nil => exact absurd fixed (insertFix_ne_nil present)
  | node c l x r =>
    rw [fixed] at shows₁ holds
    exact ensures_setColor_root shows₁ fun s₂ shows₂ same₂ =>
      holds s₂ shows₂ (same₂.written_eq.trans written₁)

end Embedlib.RbtreeCompact
