import Embedlib.Rbtree.Rules
import Embedlib.Library.Fixup

/-! `rb_remove_color` performs the removal fix-up, below the parent it is given. -/

set_option autoImplicit false

namespace Embedlib.Rbtree

open Library Rb Spine

variable {ν : Type} [DecidableEq ν] {s : State ν}

section
variable {sp : Spine ν} {d : Dir} {c : Color} {t far a b : ColorTree ν} {x y : ν}
  {post : Turn (Ptr ν × Ptr ν) (Ptr ν) → State ν → Prop}

theorem ensures_remove_last {e : Color} (shows : s.Shows (sp.plug (.join d c t x (.join d e a y b))))
    (present : b ≠ .nil)
    (holds : ∀ s', s'.Shows (sp.plug (.join d c (.join d .black t x a) y (b.recolor .black))) →
      post (.leave s'.root) s') :
    Ensures (rbRemoveColorLast (some x) (some y) d) post s := by
  obtain _ | ⟨bc, b₁, z, b₂⟩ := b
  · exact absurd rfl present
  unfold rbRemoveColorLast
  simp only [ensures_bind, ensures_rbColor, shows.node_eq, nodeRecord_color]
  apply ensures_setColor_at shows.far
  intro s₁ shows₁
  apply ensures_setColor_at shows₁.of_far
  intro s₂ shows₂
  simp only [ensures_rbChild, shows₂.far.node_eq, nodeRecord_far, ColorTree.root]
  apply ensures_setColor_at (d := .left) shows₂.far.far
  intro s₃ shows₃
  exact ensures_rbRotate shows₃.of_far.of_far holds

theorem ensures_remove_case2 (shows : s.Shows (sp.plug (.join d c t x far))) (present : far ≠ .nil)
    (outer : (far.child d.flip).color = .black) (inner : (far.child d).color = .black)
    (holds : ∀ s', s'.Shows (sp.plug (.join d c t x (far.recolor .red))) →
      post (.again (sp.top, some x)) s') :
    Ensures (rbRemoveColorRest (some x) far.root d) post s := by
  obtain ⟨y, root⟩ : ∃ y, far.root = some y := Option.ne_none_iff_exists'.mp
    fun empty => present (ColorTree.root_eq_none.mp empty)
  obtain ⟨e, a, b, rfl⟩ := ColorTree.exists_join root d
  rw [ColorTree.join_far] at outer
  rw [ColorTree.join_near] at inner
  unfold rbRemoveColorRest
  simp only [ColorTree.join_root, ensures_bind, ensures_rbChild, shows.far.node_eq,
    nodeRecord_far]
  apply ensures_isBlack_at shows.far.far
  simp only [outer, decide_true, if_true, ensures_bind, ensures_rbChild, shows.far.node_eq,
    nodeRecord_near]
  apply ensures_isBlack_at shows.far.near
  simp only [inner, decide_true, if_true, ensures_bind]
  apply ensures_setColor_at shows.far
  intro s₁ shows₁
  simp only [ensures_rbParent, shows₁.of_far.node_eq, nodeRecord_parent, ensures_pure]
  apply holds s₁
  rw [ColorTree.join_recolor]
  exact shows₁.of_far

/-- Case 3, then Case 4: the inner nephew `z` goes up twice. -/
theorem ensures_remove_case3 {e i : Color} {u : ColorTree ν} {z : ν}
    (shows : s.Shows (sp.plug (.join d c t x (.join d e (.join d i a z b) y u))))
    (outer : u.color = .black) (inner : i ≠ .black)
    (holds : ∀ s', s'.Shows (sp.plug (.join d c (.join d .black t x a) z (.join d .black b y u))) →
      post (.leave s'.root) s') :
    Ensures (rbRemoveColorRest (some x) (some y) d) post s := by
  unfold rbRemoveColorRest
  simp only [ensures_bind, ensures_rbChild, shows.far.node_eq, nodeRecord_far]
  apply ensures_isBlack_at shows.far.far
  simp only [outer, decide_true, if_true, ensures_bind, ensures_rbChild, shows.far.node_eq,
    nodeRecord_near]
  apply ensures_isBlack_at shows.far.near
  simp only [ColorTree.join_color, inner, decide_false, Bool.false_eq_true, if_false, ensures_bind,
    ensures_rbChild, shows.far.node_eq, nodeRecord_near, ColorTree.join_root]
  apply ensures_setColor_at shows.far.near
  intro s₁ shows₁
  apply ensures_setColor_at shows₁.of_near
  intro s₂ shows₂
  have turned : s₂.Shows (Spine.plug (⟨d.flip, c, x, t⟩ :: sp)
      (.join d.flip .red u y (.join d.flip .black b z a))) := by simpa using shows₂
  apply ensures_rbRotate turned
  intro s₃ shows₃
  have raised : s₃.Shows (sp.plug (.join d c t x (.join d .black a z (.join d .red b y u)))) := by
    rw [ColorTree.join_flip, ColorTree.join_flip] at shows₃
    exact shows₃.of_far
  simp only [ensures_rbChild, raised.node_eq, nodeRecord_far, ColorTree.join_root]
  apply ensures_remove_last raised ColorTree.join_ne_nil
  intro s₄ shows₄
  exact holds s₄ (by simpa using shows₄)

theorem ensures_remove_rest (shows : s.Shows (sp.plug (.join d c t x far))) (present : far ≠ .nil)
    (holds : match repair d c t x far with
      | .whole u => ∀ s', s'.Shows (sp.plug u) → post (.leave s'.root) s'
      | .short u => ∀ s', s'.Shows (sp.plug u) → post (.again (sp.top, u.root)) s') :
    Ensures (rbRemoveColorRest (some x) far.root d) post s := by
  revert holds
  fun_cases repair d c t x far with
  | case1 found => exact absurd (ColorTree.root_eq_none.mp found) present
  | case2 y found outerRed =>
    intro holds
    obtain ⟨e, a, b, rfl⟩ := ColorTree.exists_join found d
    simp only [ColorTree.join_far, ColorTree.join_near] at outerRed holds
    simp only [ColorTree.join_root, rbRemoveColorRest, ensures_bind, ensures_rbChild,
      shows.far.node_eq, nodeRecord_far]
    apply ensures_isBlack_at shows.far.far
    simp only [outerRed, reduceCtorEq, decide_false, Bool.false_eq_true, if_false]
    refine ensures_remove_last shows ?_ holds
    rintro rfl
    cases outerRed
  | case3 y found outerBlack z inner innerRed =>
    intro holds
    obtain ⟨e, a, b, rfl⟩ := ColorTree.exists_join found d
    simp only [ColorTree.join_far, ColorTree.join_near] at outerBlack inner innerRed holds
    obtain ⟨i, a, b', rfl⟩ := ColorTree.exists_join inner d
    simp only [ColorTree.join_far, ColorTree.join_near, ColorTree.join_color] at innerRed holds
    rw [ColorTree.join_root]
    exact ensures_remove_case3 shows (Color.eq_black_of_ne outerBlack) (by simp [innerRed]) holds
  | case4 y found outerBlack innerBlack =>
    intro holds
    refine ensures_remove_case2 shows present (Color.eq_black_of_ne outerBlack)
      (ColorTree.black_of_root innerBlack) ?_
    simpa only [ColorTree.join_root] using holds

theorem ensures_remove_case1 {post : Ptr ν → State ν → Prop} {e : Color}
    (shows : s.Shows (sp.plug (.join d c t x (.join d e a y b))))
    (holds : ∀ s', s'.Shows (sp.plug (.join d .black (.join d .red t x a) y b)) → post a.root s') :
    Ensures (rbRemoveColorLower (some x) (some y) d) post s := by
  unfold rbRemoveColorLower
  simp only [ensures_bind]
  apply ensures_setColor_at shows.far
  intro s₁ shows₁
  apply ensures_setColor_at shows₁.of_far
  intro s₂ shows₂
  apply ensures_rbRotate shows₂
  intro s₃ shows₃
  simp only [ensures_rbChild, shows₃.near.node_eq, nodeRecord_far]
  exact holds s₃ shows₃

theorem ensures_remove_stop (shows : s.Shows (sp.plug t)) (stop : t.color = .red ∨ sp = [])
    (holds : post (.leave t.root) s) : Ensures (rbRemoveColorRound (sp.top, t.root)) post s := by
  unfold rbRemoveColorRound
  simp only [ensures_bind]
  apply ensures_isBlack_at shows
  simp only [ensures_get]
  rw [if_neg]
  · exact holds
  · rintro ⟨black, notRoot⟩
    rcases stop with red | rfl
    · simp [red] at black
    · exact notRoot shows.root_eq.symm

theorem ensures_remove_go {f : Frame ν} (shows : s.Shows (Spine.plug (f :: sp) t))
    (black : t.color ≠ .red) (present : f.sibling ≠ .nil)
    (rest : if f.sibling.color = .red
      then Ensures (rbRemoveColorLower (some f.value) f.sibling.root f.dir)
        (fun sibling => Ensures (rbRemoveColorRest (some f.value) sibling f.dir) post) s
      else Ensures (rbRemoveColorRest (some f.value) f.sibling.root f.dir) post s) :
    Ensures (rbRemoveColorRound (top (f :: sp), t.root)) post s := by
  unfold rbRemoveColorRound
  simp only [ensures_bind]
  apply ensures_isBlack_at shows
  simp only [ensures_get]
  rw [if_pos ⟨by simp [Color.eq_black_of_ne black], shows.root_ne⟩]
  simp only [top, ensures_bind]
  -- The position may be empty, so a missing sibling could not be told from it.
  have apart : f.sibling.root ≠ t.root := by
    intro same
    cases found : f.sibling.root with
    | none => exact present (ColorTree.root_eq_none.mp found)
    | some y => exact shows.sibling_ne (same.symm.trans found) found
  apply ensures_childDir_at .left _ shows.frame_eq apart
  simp only [ensures_rbChild, shows.frame_eq, nodeRecord_far]
  obtain ⟨d, c, x, far⟩ := f
  obtain _ | ⟨e, l, y, r⟩ := far
  · exact absurd rfl present
  have siblingEq := Shows.node_eq (d := .left) (shows_plug.mpr (shows_plug.mp shows)).far
  simp only [ColorTree.root, ensures_rbColor, siblingEq, nodeRecord_color, ensures_ite, ensures_bind,
    ensures_pure]
  exact rest

theorem ensures_remove_red
    (shows : s.Shows (Spine.plug (⟨d, c, x, .join d .red a y b⟩ :: sp) t)) (black : t.color ≠ .red)
    (present : a ≠ .nil)
    (holds : match repair d .red t x a with
      | .whole u => ∀ s', s'.Shows (Spine.plug (⟨d, .black, y, b⟩ :: sp) u) → post (.leave s'.root) s'
      | .short u => ∀ s', s'.Shows (Spine.plug (⟨d, .black, y, b⟩ :: sp) u) →
        post (.again (top (⟨d, .black, y, b⟩ :: sp), u.root)) s') :
    Ensures (rbRemoveColorRound (top (⟨d, c, x, .join d .red a y b⟩ :: sp), t.root)) post s := by
  apply ensures_remove_go shows black ColorTree.join_ne_nil
  rw [if_pos (by simp), ColorTree.join_root]
  exact ensures_remove_case1 shows fun s₁ shows₁ => ensures_remove_rest shows₁.near present holds

theorem ensures_remove_black {f : Frame ν} (shows : s.Shows (Spine.plug (f :: sp) t))
    (black : t.color ≠ .red) (present : f.sibling ≠ .nil) (siblingBlack : f.sibling.color = .black)
    (holds : match repair f.dir f.color t f.value f.sibling with
      | .whole u => ∀ s', s'.Shows (sp.plug u) → post (.leave s'.root) s'
      | .short u => ∀ s', s'.Shows (sp.plug u) → post (.again (sp.top, u.root)) s') :
    Ensures (rbRemoveColorRound (top (f :: sp), t.root)) post s := by
  apply ensures_remove_go shows black present
  rw [if_neg (by simp [siblingBlack])]
  exact ensures_remove_rest shows present holds

end

/-- What the loop of `rb_remove_color` leaves: a position whose root is still
to be painted black. -/
theorem ensures_removeLoop {n fuel : Nat} {sp : Spine ν} {t : ColorTree ν}
    {post : Ptr ν → State ν → Prop} (shows : s.Shows (sp.plug t)) (fits : Fits .black (n + 1) sp)
    (lacking : Lacking n t) (enough : sp.length < fuel)
    (holds : ∀ s' sp' t', s'.Shows (plug sp' t') → plug sp' (t'.recolor .black) = removeFix sp t →
      post t'.root s') :
    Ensures (loop rbRemoveColorRound fuel (sp.top, t.root)) post s := by
  obtain ⟨fuel, rfl⟩ : ∃ k, fuel = k + 1 := ⟨fuel - 1, by omega⟩
  rw [ensures_loop_succ]
  fun_induction removeFix sp t generalizing s fuel n with
  | case1 t => exact ensures_remove_stop shows (.inr rfl) (holds s [] t shows rfl)
  | case2 f sp t red => exact ensures_remove_stop shows (.inl red) (holds s (f :: sp) t shows rfl)
  | case3 f sp t black y found siblingRed lowered u =>
    rename_i repaired
    obtain ⟨d, c, x, far⟩ := f
    obtain ⟨a, b, rfl, present⟩ := red_sibling fits found siblingRed
    rw [ColorTree.join_near] at repaired
    apply ensures_remove_red shows black present
    rw [repaired]
    intro s₁ shows₁
    have root : s₁.root = _ := shows₁.root_eq
    rw [Turn.meets_leave, root]
    exact holds s₁ [] _ shows₁ (by simp only [lowered, plug_nil, ColorTree.join_far])
  | case4 f sp t black y found siblingRed lowered u =>
    rename_i repaired
    obtain ⟨d, c, x, far⟩ := f
    obtain ⟨a, b, rfl, present⟩ := red_sibling fits found siblingRed
    rw [ColorTree.join_near] at repaired
    apply ensures_remove_red shows black present
    rw [repaired]
    intro s₁ shows₁
    obtain ⟨fuel, rfl⟩ : ∃ k, fuel = k + 1 :=
      ⟨fuel - 1, by rw [List.length_cons] at enough; omega⟩
    have red : u.color = .red := by
      have shape := repair_color d .red t x a
      rwa [repaired] at shape
    rw [Turn.meets_again, ensures_loop_succ]
    refine ensures_remove_stop shows₁ (.inl red) (holds s₁ _ u shows₁ ?_)
    simp only [lowered, ColorTree.join_far]
  | case5 f sp t black u repaired siblingBlack =>
    apply ensures_remove_black shows black fits.sibling_ne_nil (ColorTree.black_of_root siblingBlack)
    rw [repaired]
    intro s₁ shows₁
    have root : s₁.root = _ := shows₁.root_eq
    rw [Turn.meets_leave, root]
    exact holds s₁ [] _ shows₁ rfl
  | case6 f sp t black u repaired siblingBlack ih =>
    obtain ⟨m, outer, short⟩ := repair_short fits (lacking.of_black (Color.eq_black_of_ne black))
      (ColorTree.black_of_root siblingBlack) repaired
    apply ensures_remove_black shows black fits.sibling_ne_nil (ColorTree.black_of_root siblingBlack)
    rw [repaired]
    intro s₁ shows₁
    rw [List.length_cons] at enough
    obtain ⟨fuel, rfl⟩ : ∃ k, fuel = k + 1 := ⟨fuel - 1, by omega⟩
    rw [Turn.meets_again, ensures_loop_succ]
    exact ih shows₁ outer short holds fuel (by omega)

theorem ensures_rbRemoveColor {n fuel : Nat} {sp : Spine ν} {t : ColorTree ν}
    {post : Unit → State ν → Prop} (shows : s.Shows (sp.plug t)) (fits : Fits .black (n + 1) sp)
    (lacking : Lacking n t) (enough : sp.length < fuel)
    (holds : ∀ s', s'.Shows (removeFix sp t) → post () s') :
    Ensures (rbRemoveColor fuel sp.top t.root) post s := by
  unfold rbRemoveColor
  simp only [ensures_bind]
  apply ensures_removeLoop shows fits lacking enough
  intro s₁ sp' t' shows₁ fixed
  rw [← fixed] at holds
  cases t' with
  | nil => exact holds s₁ shows₁
  | node c l x r => exact ensures_setColor_at (d := .left) shows₁ holds

end Embedlib.Rbtree
