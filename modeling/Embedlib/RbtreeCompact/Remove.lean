import Embedlib.RbtreeCompact.RemoveColor
import Embedlib.RbtreeCompact.Walks

/-! `rb_remove` takes the node at the path out of the tree. -/

set_option autoImplicit false

namespace Embedlib.RbtreeCompact

open Library Rb Spine

variable {ν : Type} [DecidableEq ν] {s : State (Records ν) ν} {sp inner : Spine ν} {c e : Color}
  {l r r' : ColorTree ν} {x m : ν}

omit [DecidableEq ν] in
theorem State.Shows.transplant {mem : Records ν}
    (shows : s.Shows (sp.plug (.node c l x (plug inner (.node e .nil m r')))))
    (here : mem m = ⟨l.root, (plug inner r').root, c⟩)
    (cut : ∀ f rest, inner = f :: rest →
      mem f.value = recordAt nodeRecord f.dir (top rest) f.color r'.root f.sibling.root)
    (same : ∀ z, z ≠ m → top inner ≠ some z → mem z = s.mem z) :
    Library.Hangs nodeRecord mem s.root sp (some x) (.node c l m (plug inner r')) := by
  have hangs := shows_plug.mp shows
  obtain ⟨_, left, right⟩ := hangs.holds
  obtain ⟨around, _, _, rest⟩ := holds_plug.mp (holds_up right none)
  obtain ⟨_, spread⟩ := List.nodup_cons.mp (successor_distinct _ hangs.distinct)
  obtain ⟨fresh, others⟩ := List.nodup_cons.mp spread
  simp only [List.nodup_append, List.mem_append, not_or] at others fresh
  obtain ⟨_, ⟨_, ⟨innerDistinct, _, _⟩, _⟩, _⟩ := id others
  have apart : ∀ z, z ∈ l.toList ∨ z ∈ r'.toList ∨ z ∈ sp.nodes → mem z = s.mem z := by
    intro z member
    apply same z (by rintro rfl; grind)
    intro top
    have inInner := Spine.top_mem top
    grind
  have moved : HoldsAround nodeRecord mem inner r'.root :=
    around.relink innerDistinct cut fun z member other =>
      same z (fun is => fresh.2.2.1 (is ▸ member)) other
  refine hangs.replace ((holds_join (d := .left)).mpr ⟨here, ?_, ?_⟩)
    (fun z m => apart z (.inr (.inr m))) (moved_distinct _ spread)
  · exact holds_up (left.congr fun z m => apart z (.inl m)) _
  · refine holds_up (holds_plug.mpr ⟨moved, holds_up (rest.congr fun z m => ?_) _⟩) _
    exact apart z (.inr (.inl m))

theorem ensures_unlink_one {d : Dir} {u : ColorTree ν} {fuel : Nat}
    {post : Unlinked ν → State (Records ν) ν → Prop}
    (shows : s.Shows (sp.plug (.join d c .nil x u)))
    (holds : s.Hangs sp (some x) u → post ⟨u.root, u.root, c⟩ s) :
    Ensures (rbUnlink fuel (some x)) post s := by
  have hangs := shows_plug.mp shows
  have lifted : s.Hangs sp (some x) u := by
    have rest := holds_up (holds_join.mp hangs.holds).2.2 sp.top
    rw [ColorTree.join_root] at hangs
    refine hangs.replace rest (fun _ _ => rfl) ?_
    have distinct := (List.nodup_cons.mp (nodup_join.mp hangs.distinct)).2
    simpa [ColorTree.toList] using distinct
  have here := shows.node_eq
  unfold rbUnlink
  simp only [ensures_bind, ensures_rbColor, ensures_rbChild, records_color, records_child,
    here, nodeRecord_color, ensures_ite, ensures_pure]
  cases d with
  | left => simpa [recordAt, nodeRecord, RbNode.child, ColorTree.root] using holds lifted
  | right =>
    have result := holds lifted
    cases u <;> simpa [recordAt, nodeRecord, RbNode.child, ColorTree.root] using result

theorem ensures_rbTakePlace {top : Nat} {post : Unlinked ν → State (Records ν) ν → Prop}
    (shows : s.Shows (sp.plug (.node c l x (plug inner (.node e .nil m r')))))
    (place : s.At (inner ++ ⟨.right, c, x, l⟩ :: sp)) (within : s.Within top)
    (along : ∀ f ∈ inner, f.dir = .left) (room : sp.length + 1 ≤ top)
    (holds : ∀ s', s'.Hangs sp (some x) (.node c l m (plug inner r')) →
      s'.At (inner ++ ⟨.right, c, m, l⟩ :: sp) → s'.Within top → post ⟨some m, r'.root, e⟩ s') :
    Ensures (rbTakePlace (some x) (some m) (sp.length + 1)) post s := by
  have spread := successor_distinct _ (shows_plug.mp shows).distinct
  have nodeEq := Shows.node_eq (d := .left) shows
  have inside : s.Shows (plug (inner ++ ⟨.right, c, x, l⟩ :: sp) (.node e .nil m r')) := by
    rw [plug_append]; exact shows
  have successorEq := Shows.node_eq (d := .left) inside
  unfold rbTakePlace
  simp only [ensures_bind, ensures_rbColor, ensures_rbChild, records_color,
    records_child, successorEq, nodeRecord_color]
  apply ensures_entryAt [] place
  intro entry leads
  cases inner with
  | nil =>
    obtain rfl := leads
    simp only [ne_eq, not_true_eq_false, if_false, ensures_bind, ensures_rbCopyLeftChildColor,
      ensures_writeEntry, ensures_pure]
    refine holds _ (shows.transplant ?_ (by rintro _ _ ⟨⟩) ?_) ?_ (List.forall_mem_cons.mpr ⟨room, within⟩)
    · simp [successorEq, nodeEq, recordAt, nodeRecord]
    · intro z other _
      simp [modify_of_ne, other]
    · show State.At _ ([] ++ ⟨.right, c, m, l⟩ :: sp)
      exact State.At.patch place rfl rfl
  | cons g rest =>
    obtain rfl := leads
    obtain ⟨xg, xm, mg⟩ : x ≠ g.value ∧ x ≠ m ∧ g.value ≠ m := by
      simp only [nodes, List.nodup_cons, List.mem_cons, List.mem_append] at spread; grind
    have other : some g.value ≠ some x := fun same => xg (Option.some.inj same).symm
    have parentEq := Shows.frame_eq inside
    simp only [ne_eq, other, not_false_eq_true, if_true, ensures_bind, ensures_rbSetChild,
      ensures_rbCopyRightChild, ensures_rbCopyLeftChildColor, ensures_writeEntry, ensures_pure]
    refine holds _ (shows.transplant ?_ ?_ ?_)
      (State.At.patch place rfl rfl) (List.forall_mem_cons.mpr ⟨room, within⟩)
    · simp [modify_of_ne, xg, xm, nodeEq, recordAt, nodeRecord]
      rw [plug_root, plug_root]
      rfl
    · rintro _ _ ⟨⟩
      simp [modify_of_ne, mg, parentEq]
      generalize g.dir = d
      cases d <;> rfl
    · intro z notM notTop
      have notG : z ≠ g.value := fun same => notTop (by rw [same]; rfl)
      simp [modify_of_ne, notM, notG]

theorem ensures_rbTransplant {fuel top : Nat} {post : Unlinked ν → State (Records ν) ν → Prop}
    (shows : s.Shows (sp.plug (.node c l x r))) (place : s.At sp) (within : s.Within top)
    (whole : r = plug inner (.node e .nil m r')) (along : ∀ f ∈ inner, f.dir = .left)
    (reached : ∀ sp, outermost .left sp r = (inner ++ sp, .node e .nil m r'))
    (room : sp.length + (r.height + 1) ≤ top) (enough : r.height ≤ fuel)
    (holds : ∀ s', s'.Hangs sp (some x) (.node c l m (plug inner r')) →
      s'.At (inner ++ ⟨.right, c, m, l⟩ :: sp) → s'.Within top → post ⟨some m, r'.root, e⟩ s') :
    Ensures (rbTransplant fuel (some x)) post s := by
  have nodeEq := Shows.node_eq (d := .left) shows
  unfold rbTransplant
  simp only [ensures_bind]
  apply ensures_push (c := c) (u := l) place
  intro s₁ mem₁ root₁ place₁ written₁
  have within₁ := within.push (by omega) written₁
  have shows₁ : s₁.Shows (plug (⟨.right, c, x, l⟩ :: sp) r) := State.Shows.same_heap shows mem₁ root₁
  simp only [ensures_get, ensures_rbChild, records_child, mem₁, nodeEq]
  refine ensures_walk (d := .left) shows₁ place₁ within₁ ?_ (by rw [List.length_cons]; omega) enough
    fun s₂ mem₂ root₂ place₂ within₂ => ?_
  · intro empty
    have ends := reached []
    rw [empty] at ends
    exact absurd (congrArg Prod.snd ends).symm ColorTree.node_ne_nil
  -- The walk leaves the path at the successor, below the entry that will be patched.
  · rw [reached] at place₂ ⊢
    rw [place₁.cur_eq, List.length_cons]
    have shows₂ : s₂.Shows (sp.plug (.node c l x r)) := State.Shows.same_heap shows₁ mem₂ root₂
    rw [whole] at shows₂
    exact ensures_rbTakePlace shows₂ place₂ within₂ along (by omega) holds

theorem ensures_unlink_both {fuel : Nat} {post : Unlinked ν → State (Records ν) ν → Prop}
    (shows : s.Shows (sp.plug (.node c l x r))) (left : l ≠ .nil) (right : r ≠ .nil)
    (rest : Ensures (rbTransplant fuel (some x)) post s) :
    Ensures (rbUnlink fuel (some x)) post s := by
  have nodeEq := Shows.node_eq (d := .left) shows
  have leftRoot : l.root ≠ none := fun empty => left (ColorTree.root_eq_none.mp empty)
  have rightRoot : r.root ≠ none := fun empty => right (ColorTree.root_eq_none.mp empty)
  simpa [rbUnlink, nodeEq, recordAt, nodeRecord, RbNode.child, ensures_ite, leftRoot, rightRoot]
    using rest

theorem ensures_close (gap : Gap ν) {fuel top : Nat} {post : Unit → State (Records ν) ν → Prop}
    (shows : s.Shows (plug gap.place gap.moved)) (place : s.At gap.place) (sound : gap.Sound)
    (within : s.Within top) (room : gap.place.length + 1 ≤ top) (enough : gap.place.length < fuel)
    (holds : ∀ s', s'.Shows gap.close → s'.Within top → post () s') :
    Ensures (if gap.lost = .black then rbRemoveColor fuel gap.moved.root else pure ()) post s := by
  unfold Gap.close at holds
  unfold Gap.Sound at sound
  split
  · rename_i lost
    rw [lost] at sound
    obtain ⟨n, fits, lacking⟩ := sound
    rw [if_pos lost] at holds
    exact ensures_rbRemoveColor shows place fits lacking within room enough holds
  · rename_i lost
    rw [if_neg lost] at holds
    exact holds s shows within

/-- `rb_remove` removes the node at the position of the path. -/
theorem ensures_rbRemove {fuel top : Nat} {post : Unit → State (Records ν) ν → Prop}
    (shows : s.Shows (sp.plug (.node c l x r))) (place : s.At sp)
    (redBlack : IsRedBlack (sp.plug (.node c l x r))) (within : s.Within top)
    (room : (sp.plug (.node c l x r)).height ≤ top) (enough : (sp.plug (.node c l x r)).height ≤ fuel)
    (holds : ∀ s', s'.Shows (removeAt sp (.node c l x r)) → s'.Within top → post () s') :
    Ensures (rbRemove fuel (some x)) post s := by
  have deep := length_height_le sp (.node c l x r)
  simp only [ColorTree.height] at deep
  have sound := unlink_sound redBlack
  unfold rbRemove
  simp only [ensures_bind]
  apply ensures_entryAt [] place
  intro entry leads
  rw [removeAt] at holds
  rcases one_or_both c l x r with ⟨d, u, one⟩ | ⟨left, right⟩
  · rw [one, unlink_one] at sound holds
    rw [one] at shows
    apply ensures_unlink_one shows
    intro hangs
    apply ensures_link hangs leads
    intro s₁ shows₁ same₁
    exact ensures_close ⟨sp, u, c⟩ shows₁ (place.same same₁) sound (within.same same₁)
      (by simp only; omega) (by simp only; omega) holds
  · obtain ⟨inner, e, m, r', whole, along, reached, unlinked⟩ := unlink_both sp c x left right
    rw [unlinked] at sound holds
    have below := length_height_le inner (.node e .nil m r')
    rw [← whole] at below
    simp only [ColorTree.height] at below
    apply ensures_unlink_both shows left right
    refine ensures_rbTransplant shows place within whole along reached (by omega) (by omega)
      fun s₁ hangs₁ place₁ within₁ => ?_
    apply ensures_link hangs₁ leads
    intro s₂ shows₂ same₂
    refine ensures_close ⟨inner ++ ⟨.right, c, m, l⟩ :: sp, r', e⟩ ?_ (place₁.same same₂)
      sound (within₁.same same₂) ?_ ?_ holds
    · rw [plug_append]; exact shows₂
    · simp only [List.length_append, List.length_cons]; omega
    · simp only [List.length_append, List.length_cons]; omega

end Embedlib.RbtreeCompact
