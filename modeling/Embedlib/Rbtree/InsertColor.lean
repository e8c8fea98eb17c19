import Embedlib.Rbtree.Rules
import Embedlib.Library.Fixup

/-! `rb_insert_color` performs the insertion fix-up, at the node it is given. -/

set_option autoImplicit false

namespace Embedlib.Rbtree

open Library Rb Spine

variable {ν : Type} [DecidableEq ν] {s : State ν}

theorem ensures_insert_case3 {sp : Spine ν} {d : Dir} {c c' : Color} {a b u : ColorTree ν} {x y : ν}
    {post : Unit → State ν → Prop} (shows : s.Shows (sp.plug (.join d c (.join d c' a x b) y u)))
    (holds : ∀ s', s'.Shows (sp.plug (.join d .black a x (.join d .red b y u))) → post () s') :
    Ensures (rbSetColor (some x) .black) (fun _ => Ensures (rbSetColor (some y) .red) fun _ =>
      Ensures (rbRotate (some y) d.flip) post) s := by
  apply ensures_setColor_at shows.near
  intro s₁ shows₁
  apply ensures_setColor_at shows₁.of_near
  intro s₂ shows₂
  -- The rotation goes the other way, so the tree is read from the other side.
  have turned : s₂.Shows (sp.plug (.join d.flip .red u y (.join d.flip .black b x a))) := by
    simpa using shows₂
  exact ensures_rbRotate turned fun s₃ shows₃ => holds s₃ (by simpa using shows₃)

section
variable {sp : Spine ν} {pd gd : Dir} {px gx : ν} {gc : Color} {t pu gu : ColorTree ν} {x : ν}
  {post : Turn (Ptr ν) Unit → State ν → Prop}

theorem ensures_insert_go
    (shows : s.Shows (sp.plug (.join gd gc (.join pd .red t px pu) gx gu))) (root : t.root = some x)
    (rest : if gu.color = .red
      then Ensures (rbSetColor (some px) .black) (fun _ => Ensures (rbSetColor gu.root .black) fun _ =>
        Ensures (rbSetColor (some gx) .red) fun _ => post (.again (some gx))) s
      else Ensures (rbInsertColorLast (some x) (some px) (some gx) gd) post s) :
    Ensures (rbInsertColorRound (some x)) post s := by
  have parentEq := shows.near.node_eq
  have grandEq := shows.node_eq
  obtain ⟨c, near, far, rfl⟩ := ColorTree.exists_join root .left
  have nodeEq := shows.near.near.node_eq
  -- The source finds the side of the parent by comparing it with a child of the grandparent.
  have apart : gu.root ≠ some px := by
    have around := (shows_plug.mp shows.near).fresh.2.2
    exact fun found => around (by simp [nodes, ColorTree.root_mem found])
  unfold rbInsertColorRound
  simp only [ensures_bind, ensures_rbParent, nodeEq, nodeRecord_parent, top,
    ensures_isRed_some, parentEq, nodeRecord_color, decide_true, if_true]
  rw [ColorTree.join_root] at grandEq
  apply ensures_childDir_at (f := ⟨gd, gc, gx, gu⟩) .left _ grandEq apart
  simp only [ensures_rbChild, grandEq, nodeRecord_far]
  apply ensures_isRed_at shows.far
  by_cases red : gu.color = .red
  · rw [if_pos red] at rest
    simp only [red, decide_true, if_true, ensures_bind, ensures_pure]
    exact rest
  · rw [if_neg red] at rest
    simp only [red, decide_false, Bool.false_eq_true, if_false]
    exact rest

theorem ensures_insert_case1
    (shows : s.Shows (sp.plug (.join gd gc (.join pd .red t px pu) gx gu))) (root : t.root = some x)
    (uncleRed : gu.color = .red)
    (holds : ∀ s', s'.Shows (sp.plug (.join gd .red (.join pd .black t px pu) gx (gu.recolor .black))) →
      post (.again (some gx)) s') :
    Ensures (rbInsertColorRound (some x)) post s := by
  apply ensures_insert_go shows root
  rw [if_pos uncleRed]
  obtain _ | ⟨uc, l, ux, r⟩ := gu
  · cases uncleRed
  apply ensures_setColor_at shows.near
  intro s₁ shows₁
  apply ensures_setColor_at (d := .left) shows₁.of_near.far
  intro s₂ shows₂
  exact ensures_setColor_at shows₂.of_far holds

theorem ensures_insert_straight
    (shows : s.Shows (sp.plug (.join gd gc (.join gd .red t px pu) gx gu))) (root : t.root = some x)
    (holds : ∀ s', s'.Shows (sp.plug (.join gd .black t px (.join gd .red pu gx gu))) →
      post (.again (some x)) s') :
    Ensures (rbInsertColorLast (some x) (some px) (some gx) gd) post s := by
  have parentEq := shows.near.node_eq
  have other := shows.near.near.sibling_ne root
  unfold rbInsertColorLast
  simp only [ensures_bind, ensures_rbChild, parentEq, nodeRecord_far, other, if_false,
    ensures_pure]
  exact ensures_insert_case3 shows holds

/-- Case 2, then Case 3: the new node hangs on the other side. -/
theorem ensures_insert_bent {a b : ColorTree ν} {c : Color}
    (shows : s.Shows (sp.plug (.join gd gc (.join gd .red pu px (.join gd c a x b)) gx gu)))
    (holds : ∀ s', s'.Shows (sp.plug (.join gd .black (.join gd .red pu px a) x (.join gd .red b gx gu))) →
      post (.again (some px)) s') :
    Ensures (rbInsertColorLast (some x) (some px) (some gx) gd) post s := by
  have parentEq := shows.near.node_eq
  unfold rbInsertColorLast
  simp only [ensures_bind, ensures_rbChild, parentEq, nodeRecord_far,
    ColorTree.join_root, if_true, ensures_pure]
  exact ensures_rbRotate shows.near fun s₁ shows₁ => ensures_insert_case3 shows₁.of_near holds

theorem ensures_insert_stop {sp : Spine ν} (shows : s.Shows (sp.plug t)) (root : t.root = some x)
    (black : ∀ f rest, sp = f :: rest → f.color ≠ .red) (holds : post (.leave ()) s) :
    Ensures (rbInsertColorRound (some x)) post s := by
  obtain ⟨c, near, far, rfl⟩ := ColorTree.exists_join root .left
  unfold rbInsertColorRound
  simp only [ensures_bind, ensures_rbParent, shows.node_eq, nodeRecord_parent]
  cases sp with
  | nil => exact holds
  | cons f rest =>
    simp only [top, ensures_isRed_some, shows.frame_eq, nodeRecord_color, black f rest rfl, decide_false,
      Bool.false_eq_true, if_false]
    exact holds

end

theorem ensures_insert_done {sp : Spine ν} {f : Frame ν} {t : ColorTree ν} {x : ν} {fuel : Nat}
    {post : Unit → State ν → Prop} (shows : s.Shows (plug (f :: sp) t)) (root : t.root = some x)
    (black : f.color = .black) (enough : 0 < fuel) (holds : post () s) :
    (Turn.again (some x)).Meets rbInsertColorRound fuel post s := by
  obtain ⟨fuel, rfl⟩ : ∃ k, fuel = k + 1 := ⟨fuel - 1, by omega⟩
  rw [Turn.meets_again, ensures_loop_succ]
  refine ensures_insert_stop shows root ?_ holds
  rintro _ _ ⟨⟩
  simp [black]

theorem ensures_insertLoop {n fuel : Nat} {sp : Spine ν} {t : ColorTree ν} {x : ν}
    {post : Unit → State ν → Prop} (shows : s.Shows (sp.plug t)) (root : t.root = some x)
    (fits : Fits .black n sp) (balanced : Balanced n t) (enough : sp.length < fuel)
    (holds : ∀ s', s'.Shows (insertFix sp t) → post () s') :
    Ensures (loop rbInsertColorRound fuel (some x)) post s := by
  obtain ⟨fuel, rfl⟩ : ∃ k, fuel = k + 1 := ⟨fuel - 1, by omega⟩
  rw [ensures_loop_succ]
  fun_induction insertFix sp t generalizing s fuel n x with
  | case1 p g sp t parentRed uncleRed ih =>
    obtain ⟨⟨sibling, _⟩, uncle, outer⟩ := fits.of_red_frame parentRed
    obtain ⟨pd, _, px, pu⟩ := p
    obtain rfl := parentRed
    simp only [List.length_cons] at enough
    obtain ⟨fuel, rfl⟩ : ∃ k, fuel = k + 1 := ⟨fuel - 1, by omega⟩
    apply ensures_insert_case1 shows root uncleRed
    intro s' shows'
    rw [Turn.meets_again, ensures_loop_succ]
    refine ih shows' (by simp) outer (balanced_join_red.mpr ⟨?_, uncle.blacken uncleRed, ?_, ?_⟩)
      holds fuel (by omega)
    · exact balanced_join_black.mpr ⟨balanced, sibling⟩
    · simp
    · exact ColorTree.recolor_black_color _
  | case2 p g sp t parentRed uncleBlack straight =>
    obtain ⟨pd, _, px, pu⟩ := p
    obtain rfl := parentRed
    obtain rfl := straight
    apply ensures_insert_go shows root
    rw [if_neg uncleBlack]
    apply ensures_insert_straight shows root
    intro s' shows'
    exact ensures_insert_done shows'.near root rfl (by simp only [List.length_cons] at enough; omega)
      (holds s' shows')
  | case3 p g sp t parentRed uncleBlack bent found => cases found.symm.trans root
  | case4 p g sp t parentRed uncleBlack bent y found =>
    obtain ⟨pd, _, px, pu⟩ := p
    obtain ⟨gd, gc, gx, gu⟩ := g
    obtain rfl := parentRed
    obtain rfl := Dir.eq_flip_of_ne bent
    obtain rfl := Option.some.inj (found.symm.trans root)
    apply ensures_insert_go shows root
    rw [if_neg uncleBlack]
    obtain ⟨c, a, b, rfl⟩ := ColorTree.exists_join root gd
    simp only [ColorTree.join_near, ColorTree.join_far] at holds
    have turned : s.Shows (plug sp (.join gd gc (.join gd .red pu px (.join gd c a y b)) gx gu)) := by
      simpa only [plug_cons, Frame.fill, ColorTree.join_flip] using shows
    apply ensures_insert_bent turned
    intro s' shows'
    exact ensures_insert_done shows'.near (ColorTree.join_root ..) rfl
      (by simp only [List.length_cons] at enough; omega) (holds s' shows')
  | case5 p g sp t parentBlack =>
    refine ensures_insert_stop shows root ?_ (holds s shows)
    rintro f rest ⟨⟩
    exact parentBlack
  -- A red parent without a grandparent would be a red root.
  | case6 sp t short =>
    refine ensures_insert_stop shows root ?_ (holds s shows)
    rintro ⟨fd, fc, fx, fu⟩ rest rfl parentRed
    obtain rfl := parentRed
    obtain _ | ⟨_, _, grand⟩ | _ := fits
    obtain ⟨gd, gx, gu, above, rfl, _⟩ := grand.of_red
    exact short _ _ _ rfl

/-- `rb_insert_color` repairs the tree above a red node and paints the root black. -/
theorem ensures_rbInsertColor {n fuel : Nat} {sp : Spine ν} {t : ColorTree ν} {x : ν}
    {post : Unit → State ν → Prop} (shows : s.Shows (sp.plug t)) (root : t.root = some x)
    (fits : Fits .black n sp) (balanced : Balanced n t) (enough : sp.length < fuel)
    (holds : ∀ s', s'.Shows ((insertFix sp t).recolor .black) → post () s') :
    Ensures (rbInsertColor fuel (some x)) post s := by
  unfold rbInsertColor
  simp only [ensures_bind, ensures_get]
  apply ensures_insertLoop shows root fits balanced enough
  intro s₁ shows₁
  have present : t ≠ .nil := by
    rintro rfl
    cases root
  cases fixed : insertFix sp t with
  | nil => exact absurd fixed (insertFix_ne_nil present)
  | node c l y r =>
    rw [fixed] at shows₁ holds
    exact ensures_setColor_root shows₁ holds

end Embedlib.Rbtree
