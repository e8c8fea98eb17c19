import Embedlib.Rbtree.RemoveColor
import Embedlib.Rbtree.Walks

/-! `rb_remove` takes a node out of the tree. -/

set_option autoImplicit false

namespace Embedlib.Rbtree

open Library Rb Spine

variable {ν : Type} [DecidableEq ν] {s : State ν} {sp inner : Spine ν} {c e : Color}
  {l r r' q : ColorTree ν} {x m : ν}

theorem ensures_unlink_one {d : Dir} {u : ColorTree ν} {fuel : Nat} {post : Unlinked ν → State ν → Prop}
    (shows : s.Shows (sp.plug (.join d c .nil x u)))
    (holds : ∀ s', s'.Hangs sp (some x) u → post ⟨u.root, u.root, sp.top, c⟩ s') :
    Ensures (rbUnlink fuel (some x)) post s := by
  have hangs := shows_plug.mp shows
  rw [ColorTree.join_root] at hangs
  have distinct := (List.nodup_cons.mp (nodup_join.mp hangs.distinct)).2
  simp only [ColorTree.toList, List.nil_append] at distinct
  obtain ⟨uDistinct, _, apart⟩ := List.nodup_append.mp distinct
  have lifted : State.Hangs { s with mem := s.mem.adopt u.root sp.top } sp (some x) u :=
    hangs.replace (holds_adopt _ (holds_join.mp hangs.holds).2.2 uDistinct)
      (fun z member => adopt_of_ne fun root => apart z (ColorTree.root_mem root) z member rfl) distinct
  have result := holds _ lifted
  have here := shows.node_eq
  unfold rbUnlink
  simp only [ensures_bind, ensures_rbParent, ensures_rbColor, ensures_rbChild, here,
    nodeRecord_parent, nodeRecord_color, ensures_ite, ensures_adopt, ensures_pure]
  cases d with
  | left => simpa [recordAt, nodeRecord, RbNode.child, ColorTree.root] using result
  | right =>
    cases u with
    | nil => simpa [recordAt, nodeRecord, RbNode.child, ColorTree.root] using result
    | node uc ul ux ur =>
      simpa [recordAt, nodeRecord, RbNode.child, ColorTree.root, Records.adopt] using result

/-- The successor `m` is out of the way and its right child is that of the
place it is to take. -/
structure State.Ready (s : State ν) (sp : Spine ν) (c : Color) (l : ColorTree ν) (x m : ν)
    (q : ColorTree ν) : Prop where
  root_eq : s.root = sp.rootOf (some x)
  around : HoldsAround nodeRecord s.mem sp (some x)
  node_eq : ∃ p, s.mem x = nodeRecord sp.top c l.root p
  left : Holds nodeRecord s.mem (some x) l
  right_eq : (s.mem m).right = q.root
  right : Holds nodeRecord s.mem (some m) q
  apart : x ≠ m ∧ x ∉ l.toList
  distinct : ((ColorTree.node c l m q).toList ++ sp.nodes).Nodup

theorem ensures_seat {post : Unit → State ν → Prop} (ready : s.Ready sp c l x m q) (present : l ≠ .nil)
    (holds : ∀ s', s'.Hangs sp (some x) (.node c l m q) → post () s') :
    Ensures (rbChild (some x) .left) (fun a => Ensures (rbSetChild (some m) .left a) fun _ =>
      Ensures (rbChild (some x) .left) fun a => Ensures (rbSetParent a (some m)) fun _ =>
        Ensures (copyParentColor (some m) (some x)) post) s := by
  obtain ⟨p, nodeEq⟩ := ready.node_eq
  obtain ⟨xm, xl⟩ := ready.apart
  obtain ⟨lx, root⟩ : ∃ lx, l.root = some lx := Option.ne_none_iff_exists'.mp
    fun empty => present (ColorTree.root_eq_none.mp empty)
  have spread := nodup_join (d := .left) |>.mp ready.distinct
  obtain ⟨mOut, rest⟩ := List.nodup_cons.mp spread
  simp only [List.nodup_append, List.mem_append, not_or] at mOut rest
  obtain ⟨lDistinct, _, lApart⟩ := rest
  have member := ColorTree.root_mem root
  have xRoot : x ≠ lx := fun same => xl (same ▸ member)
  have mRoot : m ≠ lx := fun same => mOut.1 (same ▸ member)
  simp only [ensures_rbChild, ensures_rbSetChild, nodeEq, nodeRecord, RbNode.child, modify_of_ne xm,
    root, ensures_rbSetParent, ensures_copyParentColor, modify_of_ne xRoot]
  have untouched : ∀ z, z ≠ m → z ≠ lx → (((s.mem.modify m fun n => n.setChild (some lx) .left).modify lx
      fun n => n.setParent (some m)).modify m fun n => n.setParentColor sp.top c) z = s.mem z := by
    intro z notM notRoot
    rw [modify_of_ne notM, modify_of_ne notRoot, modify_of_ne notM]
  have outside : ∀ z, z ∈ q.toList ∨ z ∈ sp.nodes → z ≠ lx := fun z inside same =>
    lApart lx member z (by simpa using inside) same.symm
  refine holds _ ⟨ready.root_eq, ready.around.congr fun z inside => ?_, ⟨?_, ?_, ?_⟩, ready.distinct⟩
  · exact untouched z (ne_of_mem_of_not_mem inside mOut.2.2) (outside z (.inr inside))
  · simp only [modify_self, modify_of_ne mRoot, root, nodeRecord, ← ready.right_eq]
    rfl
  · apply (holds_adopt _ ready.left lDistinct).congr
    intro z inside
    have notM := ne_of_mem_of_not_mem inside mOut.1
    dsimp only
    rw [root, modify_of_ne notM]
    exact adopt_modify_of_ne (p := some lx) notM
  · exact ready.right.congr fun z inside =>
      untouched z (ne_of_mem_of_not_mem inside mOut.2.1) (outside z (.inl inside))

omit [DecidableEq ν] in
theorem State.Shows.ready_child (shows : s.Shows (sp.plug (.node c l x (.node e .nil m r')))) :
    s.Ready sp c l x m r' := by
  have hangs := shows_plug.mp shows
  obtain ⟨here, left, there, _, below⟩ := hangs.holds
  obtain ⟨xOut, spread⟩ := List.nodup_cons.mp (successor_distinct [] hangs.distinct)
  simp only [List.mem_cons, List.mem_append, not_or] at xOut
  exact ⟨hangs.root_eq, hangs.around, ⟨_, here⟩, left, by rw [there]; rfl, below, ⟨xOut.1, xOut.2.1⟩,
    moved_distinct [] spread⟩

theorem ensures_cut {g : Frame ν} {rest : Spine ν} {post : Unit → State ν → Prop}
    (shows : s.Shows (plug (g :: rest) (.node e .nil m r')))
    (holds : ∀ s', s'.Shows (plug (g :: rest) r') → post () s') :
    Ensures (rbChangeChild (some g.value) (some m) r'.root) (fun _ =>
      Ensures (adopt r'.root (some g.value)) post) s := by
  have hangs := shows_plug.mp shows
  obtain ⟨_, _, below⟩ := hangs.holds
  obtain ⟨_, others⟩ := List.nodup_cons.mp ((nodup_join (d := .left)).mp hangs.distinct)
  simp only [ColorTree.toList, List.nil_append] at others
  obtain ⟨distinct, _, apart⟩ := List.nodup_append.mp others
  -- The child that moves up is below the successor, so no frame is written through it.
  have notRoot : ∀ z ∈ nodes (g :: rest), r'.root ≠ some z := fun z member root =>
    apart z (ColorTree.root_mem root) z member rfl
  have member : g.value ∈ nodes (g :: rest) := top_mem rfl
  apply ensures_rbChangeChild (Spine.top rest) shows.frame_eq (shows.sibling_ne rfl)
  rw [ensures_adopt]
  refine holds _ (Shows.cut (d := .left) shows (shows.root_eq.trans (plug_root _ _)) ?_ ?_ ?_)
  · refine holds_adopt _ (below.congr fun z inside => ?_) distinct
    have other : z ≠ g.value := fun same => apart z inside z (same ▸ member) rfl
    simp only [modify_of_ne other]
  · rintro _ _ ⟨⟩
    simp only [adopt_of_ne (notRoot _ member), modify_self]
    rw [shows.frame_eq, nodeRecord_setNear]
  · intro z inside notTop
    have other : z ≠ g.value := fun same => notTop (congrArg some same.symm)
    simp only [adopt_of_ne (notRoot z inside), modify_of_ne other]

theorem ensures_take_right {post : Unit → State ν → Prop} (shows : s.Shows (sp.plug (.node c l x q)))
    (present : q ≠ .nil) (apart : x ≠ m) (distinct : ((ColorTree.node c l m q).toList ++ sp.nodes).Nodup)
    (holds : ∀ s', s'.Ready sp c l x m q → post () s') :
    Ensures (rbChild (some x) .right) (fun a => Ensures (rbSetChild (some m) .right a) fun _ =>
      Ensures (rbChild (some x) .right) fun a => Ensures (rbSetParent a (some m)) post) s := by
  have hangs := shows_plug.mp shows
  obtain ⟨here, left, right⟩ := hangs.holds
  obtain ⟨xLeft, xRight, _⟩ := Hangs.fresh (d := .left) hangs
  obtain ⟨qx, root⟩ : ∃ qx, q.root = some qx := Option.ne_none_iff_exists'.mp
    fun empty => present (ColorTree.root_eq_none.mp empty)
  have member := ColorTree.root_mem root
  obtain ⟨mOut, rest⟩ := List.nodup_cons.mp ((nodup_join (d := .left)).mp distinct)
  simp only [List.mem_append, not_or] at mOut
  obtain ⟨_, others, lApart⟩ := List.nodup_append.mp rest
  obtain ⟨qDistinct, _, qApart⟩ := List.nodup_append.mp others
  have xRoot : x ≠ qx := fun same => xRight (same ▸ member)
  have mRoot : m ≠ qx := fun same => mOut.2.1 (same ▸ member)
  simp only [ensures_rbChild, ensures_rbSetChild, here, nodeRecord, RbNode.child, modify_of_ne apart,
    root, ensures_rbSetParent]
  have untouched : ∀ z, z ≠ m → z ≠ qx → ((s.mem.modify m fun n => n.setChild (some qx) .right).modify qx
      fun n => n.setParent (some m)) z = s.mem z := by
    intro z notM notRoot
    rw [modify_of_ne notRoot, modify_of_ne notM]
  refine holds _ ⟨hangs.root_eq, hangs.around.congr fun z inside => ?_, ⟨q.root, ?_⟩,
    left.congr fun z inside => ?_, ?_, ?_, ⟨apart, xLeft⟩, distinct⟩
  · apply untouched z (ne_of_mem_of_not_mem inside mOut.2.2)
    intro same
    exact qApart qx member z inside same.symm
  · exact (untouched x apart xRoot).trans here
  · apply untouched z (ne_of_mem_of_not_mem inside mOut.1)
    intro same
    exact lApart z inside qx (List.mem_append_left _ member) same
  · simp only [modify_of_ne mRoot, modify_self, root]
    rfl
  · apply (holds_adopt _ right qDistinct).congr
    intro z inside
    have notM := ne_of_mem_of_not_mem inside mOut.2.1
    rw [root]
    exact adopt_modify_of_ne (p := some qx) notM

/-- The successor `m` is unlinked and takes over the links of `x`. -/
theorem ensures_rbTakePlace {post : Unlinked ν → State ν → Prop}
    (shows : s.Shows (sp.plug (.node c l x (plug inner (.node e .nil m r'))))) (present : l ≠ .nil)
    (holds : ∀ s', s'.Hangs sp (some x) (.node c l m (plug inner r')) →
      post ⟨some m, r'.root, top (inner ++ ⟨.right, c, m, l⟩ :: sp), e⟩ s') :
    Ensures (rbTakePlace (some x) (some m)) post s := by
  have inside : s.Shows (plug (inner ++ ⟨.right, c, x, l⟩ :: sp) (.node e .nil m r')) := by
    rw [plug_append]; exact shows
  have successorEq := Shows.node_eq (d := .left) inside
  have childEq : (s.mem m).child .right = r'.root := by rw [successorEq]; rfl
  obtain ⟨xOut, spread⟩ := List.nodup_cons.mp (successor_distinct _ (shows_plug.mp shows).distinct)
  simp only [List.mem_cons, List.mem_append, not_or] at xOut
  unfold rbTakePlace
  simp only [ensures_bind, ensures_rbColor, ensures_rbChild, ensures_rbParent, childEq]
  rw [successorEq, nodeRecord_color, nodeRecord_parent]
  cases inner with
  | nil =>
    simp only [List.nil_append, top, ne_eq, not_true_eq_false, if_false, ensures_bind, ensures_pure]
    exact ensures_seat shows.ready_child present holds
  | cons g rest =>
    have other : some g.value ≠ some x := fun same => by
      have := Option.some.inj same
      exact xOut.2.2.2.1 (by simp [nodes, this])
    simp only [List.cons_append, top, ne_eq, other, not_false_eq_true, if_true, ensures_bind, ensures_pure]
    apply ensures_cut inside
    intro s₁ shows₁
    have lower : s₁.Shows (plug (⟨.right, c, x, l⟩ :: sp) (plug (g :: rest) r')) :=
      plug_append (g :: rest) _ r' ▸ shows₁
    refine ensures_take_right lower (plug_cons_ne_nil g rest r') xOut.1 (moved_distinct _ spread)
      fun s₂ ready => ?_
    exact ensures_seat ready present holds

theorem ensures_unlink_both {fuel : Nat} {post : Unlinked ν → State ν → Prop}
    (shows : s.Shows (sp.plug (.node c l x r))) (left : l ≠ .nil) (whole : r = plug inner (.node e .nil m r'))
    (reached : ∀ sp, outermost .left sp r = (inner ++ sp, .node e .nil m r')) (right : r ≠ .nil)
    (enough : r.height ≤ fuel)
    (holds : ∀ s', s'.Hangs sp (some x) (.node c l m (plug inner r')) →
      post ⟨some m, r'.root, top (inner ++ ⟨.right, c, m, l⟩ :: sp), e⟩ s') :
    Ensures (rbUnlink fuel (some x)) post s := by
  have leftRoot : l.root ≠ none := fun empty => left (ColorTree.root_eq_none.mp empty)
  have rightRoot : r.root ≠ none := fun empty => right (ColorTree.root_eq_none.mp empty)
  have rest : Ensures (loop (walkRound .left) fuel r.root)
      (fun successor => Ensures (rbTakePlace (some x) successor) post) s := by
    have below : s.Shows (plug (⟨.right, c, x, l⟩ :: sp) r) := shows
    apply ensures_walk below right enough
    rw [reached]
    exact ensures_rbTakePlace (whole ▸ shows) left holds
  simpa [rbUnlink, shows_plug.mp shows |>.holds.1, nodeRecord, RbNode.child, ensures_ite, leftRoot, rightRoot]
    using rest

theorem ensures_close (gap : Gap ν) {fuel : Nat} {post : Unit → State ν → Prop}
    (shows : s.Shows (plug gap.place gap.moved)) (sound : gap.Sound) (enough : gap.place.length < fuel)
    (holds : ∀ s', s'.Shows gap.close → post () s') :
    Ensures (if gap.lost = .black then rbRemoveColor fuel (top gap.place) gap.moved.root else pure ()) post s := by
  unfold Gap.close at holds
  unfold Gap.Sound at sound
  split
  · rename_i lost
    rw [lost] at sound
    obtain ⟨n, fits, lacking⟩ := sound
    rw [if_pos lost] at holds
    exact ensures_rbRemoveColor shows fits lacking enough holds
  · rename_i lost
    rw [if_neg lost] at holds
    exact holds s shows

/-- `rb_remove` removes the node at a position. -/
theorem ensures_rbRemove {fuel : Nat} {post : Unit → State ν → Prop}
    (shows : s.Shows (sp.plug (.node c l x r))) (redBlack : IsRedBlack (sp.plug (.node c l x r)))
    (enough : (sp.plug (.node c l x r)).height ≤ fuel)
    (holds : ∀ s', s'.Shows (removeAt sp (.node c l x r)) → post () s') :
    Ensures (rbRemove fuel (some x)) post s := by
  have deep := length_height_le sp (.node c l x r)
  simp only [ColorTree.height] at deep
  have sound := unlink_sound redBlack
  have fresh := (Hangs.fresh (d := .left) (shows_plug.mp shows)).2.2
  have nodeEq := Shows.node_eq (d := .left) shows
  unfold rbRemove
  simp only [ensures_bind, ensures_rbParent, nodeEq, nodeRecord_parent]
  rw [removeAt] at holds
  rcases one_or_both c l x r with ⟨d, u, one⟩ | ⟨left, right⟩
  · rw [one, unlink_one] at sound holds
    rw [one] at shows
    apply ensures_unlink_one shows
    intro s₁ hangs
    apply ensures_link (t := u) hangs fresh
    intro s₂ shows₂
    exact ensures_close ⟨sp, u, c⟩ shows₂ sound (by simp only; omega) holds
  · obtain ⟨inner, e, m, r', whole, along, reached, unlinked⟩ := unlink_both sp c x left right
    rw [unlinked] at sound holds
    have below := length_height_le inner (.node e .nil m r')
    rw [← whole] at below
    simp only [ColorTree.height] at below
    apply ensures_unlink_both shows left whole reached right (by omega)
    intro s₁ hangs
    apply ensures_link (t := .node c l m (plug inner r')) hangs fresh
    intro s₂ shows₂
    refine ensures_close ⟨inner ++ ⟨.right, c, m, l⟩ :: sp, r', e⟩ ?_ sound ?_ holds
    · rw [plug_append]; exact shows₂
    · simp only [List.length_append, List.length_cons]; omega

end Embedlib.Rbtree
