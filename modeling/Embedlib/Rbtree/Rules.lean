import Embedlib.Rbtree.Operations
import Embedlib.Library.LinkedTree

/-! Rules for the accessors, for a rotation and for relinking, in terms of the
tree that the links spell out in both directions. -/

set_option autoImplicit false

namespace Embedlib.Rbtree

open Library Rb

section
variable {ν : Type} {s : State ν} {x y : ν} {d : Dir} {p : Ptr ν} {c : Color}

@[simp] theorem ensures_deref {post : ν → State ν → Prop} :
    Ensures (deref (some x)) post s ↔ post x s := Iff.rfl

@[simp] theorem ensures_setRoot {post : Unit → State ν → Prop} :
    Ensures (setRoot p) post s ↔ post () { s with root := p } := Iff.rfl

@[simp] theorem ensures_rbParent {post : Ptr ν → State ν → Prop} :
    Ensures (rbParent (some x)) post s ↔ post (s.mem x).parent s := Iff.rfl

@[simp] theorem ensures_rbChild {post : Ptr ν → State ν → Prop} :
    Ensures (rbChild (some x) d) post s ↔ post ((s.mem x).child d) s := Iff.rfl

@[simp] theorem ensures_rbColor {post : Color → State ν → Prop} :
    Ensures (rbColor (some x)) post s ↔ post (s.mem x).color s := Iff.rfl

@[simp] theorem ensures_isRed_none {post : Bool → State ν → Prop} :
    Ensures (isRed none) post s ↔ post false s := Iff.rfl

@[simp] theorem ensures_isRed_some {post : Bool → State ν → Prop} :
    Ensures (isRed (some x)) post s ↔ post (decide ((s.mem x).color = .red)) s := Iff.rfl

@[simp] theorem ensures_isBlack_none {post : Bool → State ν → Prop} :
    Ensures (isBlack none) post s ↔ post true s := Iff.rfl

@[simp] theorem ensures_isBlack_some {post : Bool → State ν → Prop} :
    Ensures (isBlack (some x)) post s ↔ post (decide ((s.mem x).color = .black)) s := Iff.rfl

variable [DecidableEq ν]

@[simp] theorem ensures_change {f : RbNode ν → RbNode ν} {post : Unit → State ν → Prop} :
    Ensures (change (some x) f) post s ↔ post () { s with mem := s.mem.modify x f } := Iff.rfl

@[simp] theorem ensures_rbSetParent {post : Unit → State ν → Prop} :
    Ensures (rbSetParent (some x) p) post s ↔
      post () { s with mem := s.mem.modify x fun n => n.setParent p } := Iff.rfl

@[simp] theorem ensures_rbSetParentColor {post : Unit → State ν → Prop} :
    Ensures (rbSetParentColor (some x) p c) post s ↔
      post () { s with mem := s.mem.modify x fun n => n.setParentColor p c } := Iff.rfl

@[simp] theorem ensures_rbSetChild {post : Unit → State ν → Prop} :
    Ensures (rbSetChild (some x) d p) post s ↔
      post () { s with mem := s.mem.modify x fun n => n.setChild p d } := Iff.rfl

@[simp] theorem ensures_rbSetColor {post : Unit → State ν → Prop} :
    Ensures (rbSetColor (some x) c) post s ↔
      post () { s with mem := s.mem.modify x fun n => n.setColor c } := Iff.rfl

@[simp] theorem ensures_copyParentColor {post : Unit → State ν → Prop} :
    Ensures (copyParentColor (some x) (some y)) post s ↔ post () { s with
      mem := s.mem.modify x fun n => n.setParentColor (s.mem y).parent (s.mem y).color } := Iff.rfl

@[simp] theorem ensures_childDir {post : Dir → State ν → Prop} :
    Ensures (childDir (some x) d p) post s ↔
      post (if (s.mem x).child d = p then d else d.flip) s := Iff.rfl

def Records.adopt (mem : Records ν) (p parent : Ptr ν) : Records ν :=
  match p with
  | none => mem
  | some x => mem.modify x fun n => n.setParent parent

@[simp] theorem ensures_adopt {parent : Ptr ν} {post : Unit → State ν → Prop} :
    Ensures (adopt p parent) post s ↔ post () { s with mem := s.mem.adopt p parent } := by
  cases p <;> rfl

variable {mem : Records ν}

@[simp] theorem modify_self (f : RbNode ν → RbNode ν) : mem.modify x f x = f (mem x) :=
  Function.update_self ..

theorem modify_of_ne {f : RbNode ν → RbNode ν} (other : y ≠ x) : mem.modify x f y = mem y :=
  Function.update_of_ne other ..

theorem adopt_of_ne {parent : Ptr ν} (other : p ≠ some y) : mem.adopt p parent y = mem y := by
  cases p with
  | none => rfl
  | some x => exact Function.update_of_ne (fun same => other (congrArg some same.symm)) ..

theorem adopt_modify_of_ne {f : RbNode ν → RbNode ν} {parent : Ptr ν} (other : y ≠ x) :
    (mem.modify x f).adopt p parent y = mem.adopt p parent y := by
  cases p with
  | none => exact modify_of_ne other
  | some z =>
    unfold Records.adopt
    by_cases same : y = z
    · subst same
      simp only [modify_self, modify_of_ne other]
    · simp only [modify_of_ne same, modify_of_ne other]

end

/-! ### Trees of records -/

section
variable {ν : Type}

def nodeRecord (up : Ptr ν) (c : Color) (l r : Ptr ν) : RbNode ν := ⟨up, c, l, r⟩

def State.Shows (s : State ν) (t : ColorTree ν) : Prop := Library.Shows nodeRecord s.mem s.root t

def State.Hangs (s : State ν) (sp : Spine ν) (p : Ptr ν) (t : ColorTree ν) : Prop :=
  Library.Hangs nodeRecord s.mem s.root sp p t

variable {d : Dir} {up p q : Ptr ν} {c : Color}

@[simp] theorem nodeRecord_parent : (recordAt nodeRecord d up c p q).parent = up := by cases d <;> rfl

@[simp] theorem nodeRecord_near : (recordAt nodeRecord d up c p q).child d = p := by cases d <;> rfl

@[simp] theorem nodeRecord_far : (recordAt nodeRecord d up c p q).child d.flip = q := by
  cases d <;> rfl

@[simp] theorem nodeRecord_color : (recordAt nodeRecord d up c p q).color = c := by cases d <;> rfl

@[simp] theorem nodeRecord_setNear (p' : Ptr ν) :
    (recordAt nodeRecord d up c p q).setChild p' d = recordAt nodeRecord d up c p' q := by
  cases d <;> rfl

@[simp] theorem nodeRecord_setFar (q' : Ptr ν) :
    (recordAt nodeRecord d up c p q).setChild q' d.flip = recordAt nodeRecord d up c p q' := by
  cases d <;> rfl

@[simp] theorem nodeRecord_setColor (c' : Color) :
    (recordAt nodeRecord d up c p q).setColor c' = recordAt nodeRecord d up c' p q := by
  cases d <;> rfl

@[simp] theorem nodeRecord_setParent (up' : Ptr ν) :
    (recordAt nodeRecord d up c p q).setParent up' = recordAt nodeRecord d up' c p q := by
  cases d <;> rfl

theorem nodeRecord_dir [DecidableEq ν] (apart : q ≠ p) (e : Dir) :
    (if (recordAt nodeRecord d up c p q).child e = p then e else e.flip) = d := by
  cases d <;> cases e <;> simp [recordAt, nodeRecord, RbNode.child, Dir.flip, apart]

variable [DecidableEq ν] {s : State ν} {mem : Records ν} {sp : Spine ν} {x y : ν}
  {t u a b e : ColorTree ν} {c' : Color}

theorem holds_adopt (up' : Ptr ν) (holds : Holds nodeRecord mem up t) (distinct : t.toList.Nodup) :
    Holds nodeRecord (mem.adopt t.root up') up' t := by
  refine holds.reparent distinct ?_ fun z _ other => adopt_of_ne other
  rintro c l x r rfl
  simp [Records.adopt, ColorTree.root, holds.1, nodeRecord, RbNode.setParent, RbNode.setParentColor]

omit [DecidableEq ν] in
theorem ensures_isRed_at {post : Bool → State ν → Prop} (shows : s.Shows (sp.plug t))
    (holds : post (decide (t.color = .red)) s) : Ensures (isRed t.root) post s := by
  cases t with
  | nil => exact holds
  | node c l x r =>
    have here := Shows.node_eq (d := .left) shows
    rw [ColorTree.root, ensures_isRed_some, here, nodeRecord_color]
    exact holds

omit [DecidableEq ν] in
theorem ensures_isBlack_at {post : Bool → State ν → Prop} (shows : s.Shows (sp.plug t))
    (holds : post (decide (t.color = .black)) s) : Ensures (isBlack t.root) post s := by
  cases t with
  | nil => exact holds
  | node c l x r =>
    have here := Shows.node_eq (d := .left) shows
    rw [ColorTree.root, ensures_isBlack_some, here, nodeRecord_color]
    exact holds

theorem ensures_setColor_at {post : Unit → State ν → Prop}
    (shows : s.Shows (sp.plug (.join d c t x u)))
    (holds : ∀ s', s'.Shows (sp.plug (.join d c' t x u)) → post () s') :
    Ensures (rbSetColor (some x) c') post s := by
  have hangs := shows_plug.mp shows
  rw [ColorTree.join_root] at hangs
  have painted : Library.Hangs nodeRecord (s.mem.modify x fun n => n.setColor c') s.root sp
      (some x) (.join d c' t x u) :=
    hangs.paint (by simp [hangs.node_eq]) fun y other => modify_of_ne other
  exact holds _ (shows_plug.mpr (by simpa using painted))

theorem ensures_setColor_root {post : Unit → State ν → Prop} (shows : s.Shows (.node c t x u))
    (holds : ∀ s', s'.Shows (.node c' t x u) → post () s') :
    Ensures (rbSetColor s.root c') post s := by
  have root : s.root = some x := shows.root_eq
  rw [root]
  have atRoot : s.Shows (Spine.plug [] (.join .left c t x u)) := shows
  exact ensures_setColor_at atRoot holds

theorem ensures_childDir_at {f : Frame ν} {post : Dir → State ν → Prop} (e : Dir) (up : Ptr ν)
    (here : s.mem f.value = recordAt nodeRecord f.dir up f.color p f.sibling.root)
    (apart : f.sibling.root ≠ p) (holds : post f.dir s) :
    Ensures (childDir (some f.value) e p) post s := by
  -- Whichever side the source asks about, the other child cannot be `p`.
  rw [ensures_childDir, here, nodeRecord_dir apart]
  exact holds

/-- The nodes after a rotation of `x` in direction `d` below `y`, where `b` is
between them and `link` is done to the place above. -/
def Records.rotate (mem : Records ν) (d : Dir) (x y : ν) (b up : Ptr ν) (link : Records ν → Records ν) :
    Records ν :=
  let mem := ((mem.modify x fun n => n.setChild b d.flip).adopt b (some x)).modify y fun n => n.setParent up
  ((link mem).modify y fun n => n.setChild (some x) d).modify x fun n => n.setParent (some y)

theorem State.Shows.rotate {root : Ptr ν} (shows : s.Shows (sp.plug (.join d c a x (.join d c' b y e))))
    (link : Records ν → Records ν)
    (frame : ∀ mem z, sp.top ≠ some z → link mem z = mem z)
    (rooted : root = sp.rootOf (some y))
    (linked : ∀ f rest, sp = f :: rest → ∀ mem : Records ν, mem f.value = s.mem f.value →
      link mem f.value = recordAt nodeRecord f.dir (Spine.top rest) f.color (some y) f.sibling.root) :
    Library.Shows nodeRecord (s.mem.rotate d x y b.root sp.top link) root
      (sp.plug (.join d c' (.join d c a x b) y e)) := by
  have hangs := shows_plug.mp shows
  obtain ⟨xy, apart⟩ := hangs.rotation_fresh
  obtain ⟨here, _, far⟩ := holds_join.mp hangs.holds
  obtain ⟨pivot, inner, _⟩ := holds_join.mp far
  rw [ColorTree.join_root] at here
  have outside : ∀ z, sp.top = some z → z ≠ x ∧ z ≠ y ∧ b.root ≠ some z := fun z top =>
    have member := Spine.top_mem top
    have away := apart z (.inr (.inr (.inr member)))
    ⟨away.1, away.2, fun root =>
      hangs.rotation_apart z (.inr (.inr member)) (ColorTree.root_mem root)⟩
  have xOut : sp.top ≠ some x := fun top => (outside x top).1 rfl
  have yOut : sp.top ≠ some y := fun top => (outside y top).2.1 rfl
  have between : ∀ z, b.root = some z → z ≠ x ∧ z ≠ y := fun z root =>
    apart z (.inr (.inl (ColorTree.root_mem root)))
  have xIn : b.root ≠ some x := fun root => (between x root).1 rfl
  have yIn : b.root ≠ some y := fun root => (between y root).2 rfl
  have others : ∀ z, z ≠ x → z ≠ y → sp.top ≠ some z →
      s.mem.rotate d x y b.root sp.top link z = s.mem.adopt b.root (some x) z := by
    intro z notX notY notTop
    simp only [Records.rotate, modify_of_ne notX, modify_of_ne notY, frame _ z notTop]
    exact adopt_modify_of_ne notX
  refine Library.Shows.rotate shows rooted ?_ ?_ ?_ ?_ ?_
  · rintro f rest rfl
    obtain ⟨notX, notY, notB⟩ := outside f.value rfl
    simp only [Records.rotate, modify_of_ne notX, modify_of_ne notY]
    exact linked f rest rfl _ (by simp only [modify_of_ne notX, modify_of_ne notY, adopt_of_ne notB])
  · simp only [Records.rotate, modify_self, modify_of_ne xy, frame _ x xOut, adopt_of_ne xIn, here]
    simp
  · simp only [Records.rotate, modify_self, modify_of_ne xy.symm, frame _ y yOut, adopt_of_ne yIn, pivot]
    simp
  · have distinct : b.toList.Nodup := shows.far.near.subtree_nodup
    apply (holds_adopt (some x) inner distinct).congr
    intro z member
    have away := apart z (.inr (.inl member))
    exact others z away.1 away.2 fun top =>
      hangs.rotation_apart z (.inr (.inr (Spine.top_mem top))) member
  · intro z notX notY notB notTop
    rw [others z notX notY notTop, adopt_of_ne fun root => notB (ColorTree.root_mem root)]

theorem ensures_rbRotate {post : Unit → State ν → Prop}
    (shows : s.Shows (sp.plug (.join d c a x (.join d c' b y e))))
    (holds : ∀ s', s'.Shows (sp.plug (.join d c' (.join d c a x b) y e)) → post () s') :
    Ensures (rbRotate (some x) d) post s := by
  have hangs := shows_plug.mp shows
  obtain ⟨xy, apart⟩ := hangs.rotation_fresh
  have here := shows.node_eq
  have pivot := shows.far.node_eq
  rw [ColorTree.join_root] at here
  have xIn : b.root ≠ some x := fun root => (apart x (.inr (.inl (ColorTree.root_mem root)))).1 rfl
  have inner : ((s.mem.modify x fun n => n.setChild b.root d.flip) y).child d = b.root := by
    rw [modify_of_ne xy.symm, pivot, nodeRecord_near]
  have up : (((s.mem.modify x fun n => n.setChild b.root d.flip).adopt b.root (some x)) x).parent =
      sp.top := by
    rw [adopt_of_ne xIn, modify_self, here, nodeRecord_setFar, nodeRecord_parent]
  unfold rbRotate
  simp only [ensures_bind, ensures_rbChild, ensures_rbSetChild, ensures_adopt,
    ensures_rbParent, ensures_rbSetParent, here, nodeRecord_far, pivot, nodeRecord_near, inner, up]
  cases sp with
  | nil => exact holds _ (shows.rotate id (fun _ _ _ => rfl) rfl nofun)
  | cons f rest =>
    have frame := shows.frame_eq
    rw [ColorTree.join_root] at frame
    obtain ⟨notX, notY⟩ := apart f.value (.inr (.inr (.inr (Spine.top_mem rfl))))
    have notB : b.root ≠ some f.value := fun root =>
      hangs.rotation_apart f.value (.inr (.inr (Spine.top_mem rfl))) (ColorTree.root_mem root)
    have sibling : f.sibling.root ≠ some x := fun root =>
      hangs.fresh.2.2 (by simp [Spine.nodes, ColorTree.root_mem root])
    simp only [Spine.top, ensures_bind]
    refine ensures_childDir_at d (Spine.top rest) ?_ sibling ?_
    · simp only [modify_of_ne notY, adopt_of_ne notB, modify_of_ne notX]
      exact frame
    refine holds _ (shows.rotate (fun mem => mem.modify f.value fun n => n.setChild (some y) f.dir)
      ?_ (shows.root_eq.trans (Spine.plug_root _ _)) ?_)
    · exact fun mem z other => modify_of_ne fun same => other (congrArg some same.symm)
    · rintro _ _ ⟨⟩ mem same
      rw [modify_self, same, frame, nodeRecord_setNear]

theorem ensures_rbChangeChild {f : Frame ν} {post : Unit → State ν → Prop} (up : Ptr ν)
    (here : s.mem f.value = recordAt nodeRecord f.dir up f.color p f.sibling.root)
    (apart : f.sibling.root ≠ p)
    (holds : post () { s with mem := s.mem.modify f.value fun n => n.setChild q f.dir }) :
    Ensures (rbChangeChild (some f.value) p q) post s := by
  unfold rbChangeChild
  simp only [ensures_bind]
  exact ensures_childDir_at _ up here apart holds

theorem ensures_link {post : Unit → State ν → Prop} (hangs : s.Hangs sp (some x) t)
    (fresh : x ∉ sp.nodes) (holds : ∀ s', s'.Shows (sp.plug t) → post () s') :
    Ensures (link sp.top (some x) t.root) post s := by
  cases sp with
  | nil => exact holds _ (hangs.link rfl nofun fun _ _ => rfl)
  | cons f rest =>
    have frame := hangs.around.1
    -- `rb_change_child` finds the place by comparing with `x`, which is nowhere else above.
    refine ensures_rbChangeChild (Spine.top rest) frame ?_ (holds _ (hangs.link hangs.root_eq ?_ ?_))
    · exact fun root => fresh (by simp [Spine.nodes, ColorTree.root_mem root])
    · rintro _ _ ⟨⟩
      simp only [modify_self]
      rw [frame, nodeRecord_setNear]
    · intro z other
      have apart : z ≠ f.value := fun same => other (congrArg some same.symm)
      simp only [modify_of_ne apart]

end

end Embedlib.Rbtree
