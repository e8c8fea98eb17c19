import Embedlib.RbtreeCompact.Rules
import Embedlib.Library.Fixup

/-! `rb_remove_color` performs the removal fix-up on the tree at the path. -/

set_option autoImplicit false

namespace Embedlib.RbtreeCompact

open Library Rb Spine

variable {ν : Type} [DecidableEq ν] {s : State (Records ν) ν}

section
variable {sp : Spine ν} {d : Dir} {c : Color} {t far a b : ColorTree ν} {x y : ν}
  {post : Turn (Ptr ν) (Ptr ν) → State (Records ν) ν → Prop}

theorem ensures_remove_last {f : Frame ν} {e : Color}
    (shows : s.Shows (sp.plug (.join d c t x (.join d e a y b)))) (place : s.At (f :: sp))
    (present : b ≠ .nil)
    (holds : ∀ s', s'.Shows (sp.plug (.join d c (.join d .black t x a) y (b.recolor .black))) →
      s'.written = s.written → post (.leave s'.root) s') :
    Ensures (rbRemoveColorLast (some x) (some y) b.root d) post s := by
  obtain _ | ⟨bc, b₁, z, b₂⟩ := b
  · exact absurd rfl present
  have parentEq := shows.node_eq
  unfold rbRemoveColorLast
  simp only [ensures_bind, ensures_rbColor, records_color, parentEq,
    nodeRecord_color]
  apply ensures_setColor_at shows.far
  intro s₁ shows₁ same₁
  apply ensures_setColor_at shows₁.of_far
  intro s₂ shows₂ same₂
  apply ensures_setColor_at (d := .left) shows₂.far.far
  intro s₃ shows₃ same₃
  have same := (same₁.trans same₂).trans same₃
  apply ensures_rotate_link [f] shows₃.of_far.of_far (place.same same)
  intro s₄ shows₄ same₄
  exact holds s₄ shows₄ (same.trans same₄).written_eq

theorem ensures_remove_case2
    (shows : s.Shows (sp.plug (.join d c t x far))) (place : s.At (⟨d, c, x, far⟩ :: sp))
    (present : far ≠ .nil) (outer : (far.child d.flip).color = .black)
    (inner : (far.child d).color = .black)
    (holds : ∀ s', s'.Shows (sp.plug (.join d c t x (far.recolor .red))) → s'.At sp →
      s'.written = s.written → post (.again (some x)) s') :
    Ensures (rbRemoveColorRest (some x) far.root d) post s := by
  obtain _ | ⟨e, l, y, r⟩ := far
  · exact absurd rfl present
  have siblingShows := shows.far
  rw [ColorTree.node_eq_join d] at siblingShows
  have siblingEq := siblingShows.node_eq
  unfold rbRemoveColorRest
  simp only [ColorTree.root, ensures_bind, ensures_rbChild, records_child,
    siblingEq, nodeRecord_far]
  apply ensures_isBlack_at siblingShows.far
  simp only [outer, decide_true, if_true, ensures_bind, ensures_rbChild, records_child, siblingEq,
    nodeRecord_near]
  apply ensures_isBlack_at siblingShows.near
  simp only [inner, decide_true, if_true, ensures_bind, ensures_pure]
  apply ensures_setColor_at (d := .left) shows.far
  intro s₁ shows₁ same₁
  apply ensures_retreat [_] (place.same same₁)
  intro s₂ mem root written place₂
  exact holds s₂ (State.Shows.same_heap shows₁.of_far mem root) place₂ (written.trans same₁.written_eq)

/-- Case 3, then Case 4: the inner nephew `z` goes up twice. -/
theorem ensures_remove_case3 {e i : Color} {u : ColorTree ν} {z : ν}
    (shows : s.Shows (sp.plug (.join d c t x (.join d e (.join d i a z b) y u))))
    (place : s.At (⟨d, c, x, far⟩ :: sp)) (outer : u.color = .black) (inner : i ≠ .black)
    (holds : ∀ s', s'.Shows (sp.plug (.join d c (.join d .black t x a) z (.join d .black b y u))) →
      s'.written = s.written → post (.leave s'.root) s') :
    Ensures (rbRemoveColorRest (some x) (some y) d) post s := by
  have siblingEq := shows.far.node_eq
  unfold rbRemoveColorRest
  simp only [ensures_bind, ensures_rbChild, records_child, siblingEq,
    nodeRecord_far]
  apply ensures_isBlack_at shows.far.far
  simp only [outer, decide_true, if_true, ensures_bind, ensures_rbChild, records_child, siblingEq,
    nodeRecord_near]
  apply ensures_isBlack_at shows.far.near
  simp only [ColorTree.join_color, inner, decide_false, Bool.false_eq_true, if_false, ensures_bind,
    ColorTree.join_root]
  apply ensures_setColor_at shows.far.near
  intro s₁ shows₁ same₁
  apply ensures_setColor_at shows₁.of_near
  intro s₂ shows₂ same₂
  have turned : s₂.Shows (Spine.plug (⟨d.flip, c, x, t⟩ :: sp)
      (.join d.flip .red u y (.join d.flip .black b z a))) := by simpa using shows₂
  apply ensures_rbRotate (shows_plug.mp turned)
  intro s₃ hangs same₃
  have same := (same₁.trans same₂).trans same₃
  have raised : s₃.Hangs (⟨d.flip, c, x, t⟩ :: sp) (some y)
      (.join d .black a z (.join d .red b y u)) := by simpa using hangs
  have linked : Ensures (link ⟨some x, d.flip⟩ (ColorTree.join d .black a z (.join d .red b y u)).root)
      (fun _ => Ensures (rbRemoveColorLast (some x) (some z) (some y) d) post) s₃ :=
    ensures_link raised rfl fun s₄ shows₄ same₄ => by
      have last : Ensures (rbRemoveColorLast (some x) (some z) (ColorTree.join d .red b y u).root d) post s₄ :=
        ensures_remove_last shows₄.of_far ((place.same same).same same₄) ColorTree.join_ne_nil
          fun s₅ shows₅ written₅ => holds s₅ (by simpa using shows₅) (written₅.trans (same.trans same₄).written_eq)
      simpa only [ColorTree.join_root] using last
  simpa only [link, ColorTree.join_root] using linked

theorem ensures_remove_rest (shows : s.Shows (sp.plug (.join d c t x far)))
    (place : s.At (⟨d, c, x, far⟩ :: sp)) (present : far ≠ .nil)
    (holds : match repair d c t x far with
      | .whole u => ∀ s', s'.Shows (sp.plug u) → s'.written = s.written → post (.leave s'.root) s'
      | .short u => ∀ s', s'.Shows (sp.plug u) → s'.At sp → s'.written = s.written →
        post (.again u.root) s') :
    Ensures (rbRemoveColorRest (some x) far.root d) post s := by
  revert holds
  fun_cases repair d c t x far with
  | case1 found => exact absurd (ColorTree.root_eq_none.mp found) present
  | case2 y found outerRed =>
    intro holds
    obtain ⟨e, a, b, rfl⟩ := ColorTree.exists_join found d
    simp only [ColorTree.join_far, ColorTree.join_near] at outerRed holds
    simp only [ColorTree.join_root, rbRemoveColorRest, ensures_bind, ensures_rbChild,
      records_child, shows.far.node_eq, nodeRecord_far]
    apply ensures_isBlack_at shows.far.far
    simp only [outerRed, reduceCtorEq, decide_false, Bool.false_eq_true, if_false]
    refine ensures_remove_last shows place ?_ holds
    rintro rfl
    cases outerRed
  | case3 y found outerBlack z inner innerRed =>
    intro holds
    obtain ⟨e, a, b, rfl⟩ := ColorTree.exists_join found d
    simp only [ColorTree.join_far, ColorTree.join_near] at outerBlack inner innerRed holds
    obtain ⟨i, a, b', rfl⟩ := ColorTree.exists_join inner d
    simp only [ColorTree.join_far, ColorTree.join_near, ColorTree.join_color] at innerRed holds
    rw [ColorTree.join_root]
    exact ensures_remove_case3 shows place (Color.eq_black_of_ne outerBlack) (by simp [innerRed]) holds
  | case4 y found outerBlack innerBlack =>
    intro holds
    refine ensures_remove_case2 shows place present (Color.eq_black_of_ne outerBlack)
      (ColorTree.black_of_root innerBlack) ?_
    simpa only [ColorTree.join_root] using holds

theorem ensures_remove_case1 {post : Ptr ν → State (Records ν) ν → Prop} {f : Frame ν} {e : Color}
    {top : Nat} (shows : s.Shows (sp.plug (.join d c t x (.join d e a y b))))
    (place : s.At (⟨d, f.color, x, f.sibling⟩ :: sp)) (within : s.Within top)
    (room : sp.length + 2 ≤ top)
    (holds : ∀ s', s'.Shows (sp.plug (.join d .black (.join d .red t x a) y b)) →
      s'.At (⟨d, .red, x, a⟩ :: ⟨d, .black, y, b⟩ :: sp) → s'.Within top → post a.root s') :
    Ensures (rbRemoveColorLower (some x) (some y) d) post s := by
  unfold rbRemoveColorLower
  simp only [ensures_bind]
  apply ensures_setColor_at shows.far
  intro s₁ shows₁ same₁
  apply ensures_setColor_at shows₁.of_far
  intro s₂ shows₂ same₂
  apply ensures_rotate_link [_] shows₂ ((place.same same₁).same same₂)
  intro s₃ shows₃ same₃
  have same := (same₁.trans same₂).trans same₃
  have place₃ := place.same same
  have within₃ := within.same same
  simp only [ensures_get]
  apply ensures_entryAt [] place₃
  intro entry leads
  obtain rfl := leads
  have lower := shows₃.near.node_eq
  simp only [ensures_writeEntry, ensures_advance, ensures_rbChild, records_child, lower,
    nodeRecord_far, place₃.cur_eq, List.length_cons]
  refine holds _ (State.Shows.same_heap shows₃ rfl rfl) ⟨by simp, ?_, ?_, ?_⟩ ?_
  · simp
  · simp
  · exact ((place₃.follows.2.update (by omega) _).update (by omega) _).update (by omega) _
  · simp only [State.Within, List.forall_mem_cons]
    exact ⟨by omega, by omega, by omega, within₃⟩

theorem ensures_remove_stop (shows : s.Shows (sp.plug t)) (stop : t.color = .red ∨ sp = [])
    (holds : post (.leave t.root) s) : Ensures (rbRemoveColorRound t.root) post s := by
  unfold rbRemoveColorRound
  simp only [ensures_bind]
  apply ensures_isBlack_at shows
  simp only [ensures_get]
  rw [if_neg]
  · exact holds
  · rintro ⟨black, notRoot⟩
    rcases stop with red | rfl
    · simp [red] at black
    · exact notRoot shows.root_eq.symm

theorem ensures_remove_go {f : Frame ν} (shows : s.Shows (Spine.plug (f :: sp) t))
    (place : s.At (f :: sp)) (black : t.color ≠ .red) (present : f.sibling ≠ .nil)
    (rest : if f.sibling.color = .red
      then Ensures (rbRemoveColorLower (some f.value) f.sibling.root f.dir)
        (fun sibling => Ensures (rbRemoveColorRest (some f.value) sibling f.dir) post) s
      else Ensures (rbRemoveColorRest (some f.value) f.sibling.root f.dir) post s) :
    Ensures (rbRemoveColorRound t.root) post s := by
  unfold rbRemoveColorRound
  simp only [ensures_bind]
  apply ensures_isBlack_at shows
  simp only [ensures_get]
  rw [if_pos ⟨by simp [Color.eq_black_of_ne black], shows.root_ne⟩]
  simp only [ensures_bind]
  apply ensures_entryAt [] place
  intro entry leads
  obtain rfl := leads
  simp only [ensures_rbChild, records_child, shows.frame_eq, nodeRecord_far]
  obtain ⟨d, c, x, far⟩ := f
  obtain _ | ⟨e, l, y, r⟩ := far
  · exact absurd rfl present
  have siblingEq := Shows.node_eq (d := .left) (shows_plug.mpr (shows_plug.mp shows)).far
  simp only [ColorTree.root, ensures_rbColor, records_color, siblingEq, nodeRecord_color,
    ensures_ite, ensures_bind, ensures_pure]
  exact rest

theorem ensures_remove_red {top : Nat}
    (shows : s.Shows (Spine.plug (⟨d, c, x, .join d .red a y b⟩ :: sp) t))
    (place : s.At (⟨d, c, x, .join d .red a y b⟩ :: sp)) (black : t.color ≠ .red)
    (present : a ≠ .nil) (within : s.Within top) (room : sp.length + 2 ≤ top)
    (holds : match repair d .red t x a with
      | .whole u => ∀ s', s'.Shows (Spine.plug (⟨d, .black, y, b⟩ :: sp) u) → s'.Within top →
        post (.leave s'.root) s'
      | .short u => ∀ s', s'.Shows (Spine.plug (⟨d, .black, y, b⟩ :: sp) u) → s'.Within top →
        post (.again u.root) s') :
    Ensures (rbRemoveColorRound t.root) post s := by
  apply ensures_remove_go shows place black ColorTree.join_ne_nil
  rw [if_pos (by simp), ColorTree.join_root]
  -- Here alone the path gets longer than the place of the removal, by one entry.
  refine ensures_remove_case1 (f := ⟨d, c, x, _⟩) shows place within room
    fun s₁ shows₁ place₁ within₁ => ?_
  apply ensures_remove_rest shows₁.near place₁ present
  revert holds
  cases repair d .red t x a with
  | whole u => exact fun holds s₂ shows₂ written₂ => holds s₂ shows₂ (within₁.of_written written₂)
  | short u => exact fun holds s₂ shows₂ _ written₂ => holds s₂ shows₂ (within₁.of_written written₂)

theorem ensures_remove_black {f : Frame ν} {top : Nat} (shows : s.Shows (Spine.plug (f :: sp) t))
    (place : s.At (f :: sp)) (black : t.color ≠ .red) (present : f.sibling ≠ .nil)
    (siblingBlack : f.sibling.color = .black) (within : s.Within top)
    (holds : match repair f.dir f.color t f.value f.sibling with
      | .whole u => ∀ s', s'.Shows (sp.plug u) → s'.Within top → post (.leave s'.root) s'
      | .short u => ∀ s', s'.Shows (sp.plug u) → s'.At sp → s'.Within top →
        post (.again u.root) s') :
    Ensures (rbRemoveColorRound t.root) post s := by
  apply ensures_remove_go shows place black present
  rw [if_neg (by simp [siblingBlack])]
  apply ensures_remove_rest shows place present
  revert holds
  cases repair f.dir f.color t f.value f.sibling with
  | whole u => exact fun holds s₁ shows₁ written₁ => holds s₁ shows₁ (within.of_written written₁)
  | short u =>
    exact fun holds s₁ shows₁ place₁ written₁ => holds s₁ shows₁ place₁ (within.of_written written₁)

end

/-- What the loop of `rb_remove_color` leaves: a position whose root is still
to be painted black. -/
theorem ensures_removeLoop {n fuel top : Nat} {sp : Spine ν} {t : ColorTree ν}
    {post : Ptr ν → State (Records ν) ν → Prop} (shows : s.Shows (sp.plug t)) (place : s.At sp)
    (fits : Fits .black (n + 1) sp) (lacking : Lacking n t) (within : s.Within top)
    (room : sp.length + 1 ≤ top) (enough : sp.length < fuel)
    (holds : ∀ s' sp' t', s'.Shows (plug sp' t') → plug sp' (t'.recolor .black) = removeFix sp t →
      s'.Within top → post t'.root s') :
    Ensures (loop rbRemoveColorRound fuel t.root) post s := by
  obtain ⟨fuel, rfl⟩ : ∃ k, fuel = k + 1 := ⟨fuel - 1, by omega⟩
  rw [ensures_loop_succ]
  fun_induction removeFix sp t generalizing s fuel n with
  | case1 t => exact ensures_remove_stop shows (.inr rfl) (holds s [] t shows rfl within)
  | case2 f sp t red => exact ensures_remove_stop shows (.inl red) (holds s (f :: sp) t shows rfl within)
  | case3 f sp t black y found siblingRed lowered u =>
    rename_i repaired
    obtain ⟨d, c, x, far⟩ := f
    obtain ⟨a, b, rfl, present⟩ := red_sibling fits found siblingRed
    rw [ColorTree.join_near] at repaired
    have deep : sp.length + 2 ≤ top := by rw [List.length_cons] at room; omega
    apply ensures_remove_red shows place black present within deep
    rw [repaired]
    intro s₁ shows₁ within₁
    have root : s₁.root = _ := shows₁.root_eq
    rw [Turn.meets_leave, root]
    exact holds s₁ [] _ shows₁ (by simp only [lowered, plug_nil, ColorTree.join_far]) within₁
  | case4 f sp t black y found siblingRed lowered u =>
    rename_i repaired
    obtain ⟨d, c, x, far⟩ := f
    obtain ⟨a, b, rfl, present⟩ := red_sibling fits found siblingRed
    rw [ColorTree.join_near] at repaired
    have deep : sp.length + 2 ≤ top := by rw [List.length_cons] at room; omega
    apply ensures_remove_red shows place black present within deep
    rw [repaired]
    intro s₁ shows₁ within₁
    obtain ⟨fuel, rfl⟩ : ∃ k, fuel = k + 1 :=
      ⟨fuel - 1, by rw [List.length_cons] at enough; omega⟩
    have red : u.color = .red := by
      have shape := repair_color d .red t x a
      rwa [repaired] at shape
    rw [Turn.meets_again, ensures_loop_succ]
    refine ensures_remove_stop shows₁ (.inl red) (holds s₁ _ u shows₁ ?_ within₁)
    simp only [lowered, ColorTree.join_far]
  | case5 f sp t black u repaired siblingBlack =>
    apply ensures_remove_black shows place black fits.sibling_ne_nil
      (ColorTree.black_of_root siblingBlack) within
    rw [repaired]
    intro s₁ shows₁ within₁
    have root : s₁.root = _ := shows₁.root_eq
    rw [Turn.meets_leave, root]
    exact holds s₁ [] _ shows₁ rfl within₁
  | case6 f sp t black u repaired siblingBlack ih =>
    obtain ⟨m, outer, short⟩ := repair_short fits (lacking.of_black (Color.eq_black_of_ne black))
      (ColorTree.black_of_root siblingBlack) repaired
    apply ensures_remove_black shows place black fits.sibling_ne_nil
      (ColorTree.black_of_root siblingBlack) within
    rw [repaired]
    intro s₁ shows₁ place₁ within₁
    rw [List.length_cons] at room enough
    obtain ⟨fuel, rfl⟩ : ∃ k, fuel = k + 1 := ⟨fuel - 1, by omega⟩
    rw [Turn.meets_again, ensures_loop_succ]
    exact ih shows₁ place₁ outer short within₁ (by omega) holds fuel (by omega)

theorem ensures_rbRemoveColor {n fuel top : Nat} {sp : Spine ν} {t : ColorTree ν}
    {post : Unit → State (Records ν) ν → Prop} (shows : s.Shows (sp.plug t)) (place : s.At sp)
    (fits : Fits .black (n + 1) sp) (lacking : Lacking n t) (within : s.Within top)
    (room : sp.length + 1 ≤ top) (enough : sp.length < fuel)
    (holds : ∀ s', s'.Shows (removeFix sp t) → s'.Within top → post () s') :
    Ensures (rbRemoveColor fuel t.root) post s := by
  unfold rbRemoveColor
  simp only [ensures_bind]
  refine ensures_removeLoop shows place fits lacking within room enough
    fun s₁ sp' t' shows₁ fixed within₁ => ?_
  rw [← fixed] at holds
  cases t' with
  | nil => exact holds s₁ shows₁ within₁
  | node c l x r =>
    apply ensures_setColor_at (d := .left) shows₁
    intro s₂ shows₂ same₂
    exact holds s₂ shows₂ (within₁.same same₂)

end Embedlib.RbtreeCompact
