import Embedlib.RbtreeCompact.Operations
import Embedlib.Library.LinkedTree

/-! Rules for the accessors, for a rotation and for relinking, in terms of the
tree that the links spell out. -/

set_option autoImplicit false

namespace Embedlib.RbtreeCompact

open Library Rb

section
variable {μ ν : Type} {s : State μ ν} {x y : ν} {d : Dir} {p : Ptr ν} {c : Color}

@[simp] theorem ensures_deref {post : ν → State μ ν → Prop} :
    Ensures (deref (some x)) post s ↔ post x s := Iff.rfl

@[simp] theorem ensures_setRoot {post : Unit → State μ ν → Prop} :
    Ensures (setRoot p) post s ↔ post () { s with root := p } := Iff.rfl

@[simp] theorem ensures_advance {post : Unit → State μ ν → Prop} :
    Ensures advance post s ↔ post () { s with rp := { s.rp with cur := s.rp.cur + 1 } } := Iff.rfl

@[simp] theorem ensures_writeEntry {i : Nat} {change : PathEntry ν → PathEntry ν}
    {post : Unit → State μ ν → Prop} :
    Ensures (writeEntry i change) post s ↔ post () { s with
      rp := { s.rp with path := Function.update s.rp.path i (change (s.rp.path i)) }
      written := i :: s.written } := Iff.rfl

variable [NodeMemory μ ν]

@[simp] theorem ensures_rbChild {post : Ptr ν → State μ ν → Prop} :
    Ensures (rbChild (some x) d) post s ↔ post (NodeMemory.child s.mem x d) s := Iff.rfl

@[simp] theorem ensures_rbColor {post : Color → State μ ν → Prop} :
    Ensures (rbColor (some x)) post s ↔ post (NodeMemory.color s.mem x) s := Iff.rfl

@[simp] theorem ensures_rbSetChild {post : Unit → State μ ν → Prop} :
    Ensures (rbSetChild (some x) d p) post s ↔
      post () { s with mem := NodeMemory.setChild s.mem x d p } := Iff.rfl

@[simp] theorem ensures_rbSetColor {post : Unit → State μ ν → Prop} :
    Ensures (rbSetColor (some x) c) post s ↔
      post () { s with mem := NodeMemory.setColor s.mem x c } := Iff.rfl

@[simp] theorem ensures_rbSetLeftChildColor {post : Unit → State μ ν → Prop} :
    Ensures (rbSetLeftChildColor (some x) p c) post s ↔
      post () { s with mem := NodeMemory.setLeftChildColor s.mem x p c } := Iff.rfl

@[simp] theorem ensures_rbCopyLeftChildColor {post : Unit → State μ ν → Prop} :
    Ensures (rbCopyLeftChildColor (some x) (some y)) post s ↔
      post () { s with mem := NodeMemory.copyLeftChildColor s.mem x y } := Iff.rfl

@[simp] theorem ensures_rbSetRightChild {post : Unit → State μ ν → Prop} :
    Ensures (rbSetRightChild (some x) p) post s ↔
      post () { s with mem := NodeMemory.setRightChild s.mem x p } := Iff.rfl

@[simp] theorem ensures_rbCopyRightChild {post : Unit → State μ ν → Prop} :
    Ensures (rbCopyRightChild (some x) (some y)) post s ↔
      post () { s with mem := NodeMemory.copyRightChild s.mem x y } := Iff.rfl

@[simp] theorem ensures_isRed_none {post : Bool → State μ ν → Prop} :
    Ensures (isRed none) post s ↔ post false s := Iff.rfl

@[simp] theorem ensures_isRed_some {post : Bool → State μ ν → Prop} :
    Ensures (isRed (some x)) post s ↔ post (decide (NodeMemory.color s.mem x = .red)) s := Iff.rfl

@[simp] theorem ensures_isBlack_none {post : Bool → State μ ν → Prop} :
    Ensures (isBlack none) post s ↔ post true s := Iff.rfl

@[simp] theorem ensures_isBlack_some {post : Bool → State μ ν → Prop} :
    Ensures (isBlack (some x)) post s ↔ post (decide (NodeMemory.color s.mem x = .black)) s := Iff.rfl

end

/-! ### The path -/

section
variable {μ ν : Type} {s s' : State μ ν}

/-- The entries of the spine, from the root's `NULL` parent on. -/
def Follows (path : Nat → PathEntry ν) : Spine ν → Prop
  | [] => (path 0).parent = none
  | f :: sp => path (sp.length + 1) = ⟨some f.value, f.dir⟩ ∧ Follows path sp

def Leads (entry : PathEntry ν) : Spine ν → Prop
  | [] => entry.parent = none
  | f :: _ => entry = ⟨some f.value, f.dir⟩

/-- The path points at the place at the end of the spine. -/
structure State.At (s : State μ ν) (sp : Spine ν) : Prop where
  cur_eq : s.rp.cur = sp.length
  follows : Follows s.rp.path sp

/-- Every entry written has an index of at most `top`. -/
def State.Within (s : State μ ν) (top : Nat) : Prop := ∀ i ∈ s.written, i ≤ top

structure State.SamePath (s s' : State μ ν) : Prop where
  rp_eq : s'.rp = s.rp
  written_eq : s'.written = s.written

theorem State.SamePath.trans {s'' : State μ ν} (first : s.SamePath s') (second : s'.SamePath s'') :
    s.SamePath s'' :=
  ⟨second.rp_eq.trans first.rp_eq, second.written_eq.trans first.written_eq⟩

theorem State.At.same {sp : Spine ν} (at_ : s.At sp) (same : s.SamePath s') : s'.At sp :=
  ⟨by rw [same.rp_eq]; exact at_.cur_eq, by rw [same.rp_eq]; exact at_.follows⟩

theorem State.Within.of_written {top : Nat} (within : s.Within top)
    (same : s'.written = s.written) : s'.Within top := by
  unfold State.Within; rw [same]; exact within

theorem State.Within.same {top : Nat} (within : s.Within top) (same : s.SamePath s') :
    s'.Within top := within.of_written same.written_eq

theorem Follows.leads {path : Nat → PathEntry ν} {sp : Spine ν} (follows : Follows path sp) :
    Leads (path sp.length) sp := by
  cases sp with
  | nil => exact follows
  | cons f sp => exact follows.1

theorem Follows.drop {path : Nat → PathEntry ν} {inner outer : Spine ν}
    (follows : Follows path (inner ++ outer)) : Follows path outer := by
  induction inner with
  | nil => exact follows
  | cons f inner ih => exact ih follows.2

/-- Entries above the spine do not matter. -/
theorem Follows.congr {path path' : Nat → PathEntry ν} {sp : Spine ν} (follows : Follows path sp)
    (same : ∀ i ≤ sp.length, path' i = path i) : Follows path' sp := by
  induction sp with
  | nil => rw [Follows, same 0 (Nat.le_refl _)]; exact follows
  | cons f sp ih =>
    refine ⟨(same _ (Nat.le_refl _)).trans follows.1, ih follows.2 fun i less => same i ?_⟩
    rw [List.length_cons]; omega

theorem Follows.update {path : Nat → PathEntry ν} {sp : Spine ν} (follows : Follows path sp)
    {i : Nat} (above : sp.length < i) (entry : PathEntry ν) :
    Follows (Function.update path i entry) sp :=
  follows.congr fun _ less => Function.update_of_ne (by omega) _ _

theorem State.At.patch {inner sp : Spine ν} {d : Dir} {c : Color} {x m : ν} {u : ColorTree ν}
    (at_ : s.At (inner ++ ⟨d, c, x, u⟩ :: sp)) (cur : s'.rp.cur = s.rp.cur)
    (path : s'.rp.path = Function.update s.rp.path (sp.length + 1)
      { s.rp.path (sp.length + 1) with parent := some m }) :
    s'.At (inner ++ ⟨d, c, m, u⟩ :: sp) := by
  have follows := at_.follows
  refine ⟨cur.trans (at_.cur_eq.trans (by simp)), ?_⟩
  have entry : s.rp.path (sp.length + 1) = ⟨some x, d⟩ := follows.drop.1
  rw [path, entry]
  clear path cur at_
  induction inner with
  | nil => exact ⟨Function.update_self .., follows.2.update (by omega) _⟩
  | cons g inner ih =>
    refine ⟨?_, ih follows.2⟩
    have here := follows.1
    simp only [List.append_eq, List.length_append, List.length_cons] at here ⊢
    rw [Function.update_of_ne (by omega)]
    exact here

theorem ensures_entryAt (inner : Spine ν) {outer : Spine ν} {post : PathEntry ν → State μ ν → Prop}
    (at_ : s.At (inner ++ outer)) (holds : ∀ entry, Leads entry outer → post entry s) :
    Ensures (entryAt inner.length) post s := by
  have cur := at_.cur_eq
  rw [List.length_append] at cur
  unfold entryAt
  simp only [ensures_bind, ensures_get]
  have here : s.rp.cur - inner.length = outer.length := by omega
  rw [if_pos (by omega), here]
  exact holds _ at_.follows.drop.leads

theorem ensures_retreat (inner : Spine ν) {outer : Spine ν} {post : Unit → State μ ν → Prop}
    (at_ : s.At (inner ++ outer))
    (holds : ∀ s', s'.mem = s.mem → s'.root = s.root → s'.written = s.written → s'.At outer →
      post () s') : Ensures (retreat inner.length) post s := by
  have cur := at_.cur_eq
  rw [List.length_append] at cur
  unfold retreat
  simp only [ensures_bind, ensures_get]
  rw [if_pos (by omega)]
  exact holds _ rfl rfl rfl ⟨by simp only; omega, at_.follows.drop⟩

theorem ensures_push {sp : Spine ν} {x : ν} {d : Dir} {c : Color} {u : ColorTree ν}
    {post : Unit → State μ ν → Prop} (at_ : s.At sp)
    (holds : ∀ s', s'.mem = s.mem → s'.root = s.root → s'.At (⟨d, c, x, u⟩ :: sp) →
      s'.written = (sp.length + 1) :: (sp.length + 1) :: s.written → post () s') :
    Ensures (push (some x) d) post s := by
  have cur := at_.cur_eq
  unfold push
  simp only [ensures_bind, ensures_advance, ensures_get, ensures_writeEntry, cur]
  refine holds _ rfl rfl ⟨by simp, ?_, ?_⟩ rfl
  · simp
  · exact (at_.follows.update (by omega) _).update (by omega) _

theorem State.Within.push {i top : Nat} (within : s.Within top) (room : i ≤ top)
    (written : s'.written = i :: i :: s.written) : s'.Within top := by
  unfold State.Within
  rw [written]
  simpa only [List.forall_mem_cons] using ⟨room, room, within⟩

theorem ensures_rbPathInit {post : Unit → State μ ν → Prop}
    (holds : ∀ s', s'.mem = s.mem → s'.root = s.root → s'.At [] → s'.written = 0 :: s.written →
      post () s') : Ensures rbPathInit post s := by
  unfold rbPathInit
  simp only [ensures_bind, ensures_modify, ensures_writeEntry]
  exact holds _ rfl rfl ⟨rfl, by simp [Follows]⟩ rfl

end

/-! ### Trees of records -/

section
variable {ν : Type}

/-- The compact tree stores no parent. -/
def nodeRecord (_ : Ptr ν) (c : Color) (l r : Ptr ν) : RbNode ν := ⟨l, r, c⟩

def State.Shows (s : State (Records ν) ν) (t : ColorTree ν) : Prop :=
  Library.Shows nodeRecord s.mem s.root t

def State.Hangs (s : State (Records ν) ν) (sp : Spine ν) (p : Ptr ν) (t : ColorTree ν) : Prop :=
  Library.Hangs nodeRecord s.mem s.root sp p t

variable {d : Dir} {up p q : Ptr ν} {c : Color}

@[simp] theorem nodeRecord_near : (recordAt nodeRecord d up c p q).child d = p := by cases d <;> rfl

@[simp] theorem nodeRecord_far : (recordAt nodeRecord d up c p q).child d.flip = q := by
  cases d <;> rfl

@[simp] theorem nodeRecord_color : (recordAt nodeRecord d up c p q).color = c := by cases d <;> rfl

@[simp] theorem nodeRecord_setNear (p' : Ptr ν) :
    (recordAt nodeRecord d up c p q).setChild p' d = recordAt nodeRecord d up c p' q := by
  cases d <;> rfl

@[simp] theorem nodeRecord_setFar (q' : Ptr ν) :
    (recordAt nodeRecord d up c p q).setChild q' d.flip = recordAt nodeRecord d up c p q' := by
  cases d <;> rfl

@[simp] theorem nodeRecord_setColor (c' : Color) :
    ({ recordAt nodeRecord d up c p q with color := c' } : RbNode ν) =
      recordAt nodeRecord d up c' p q := by
  cases d <;> rfl

theorem nodeRecord_up (up' : Ptr ν) :
    recordAt nodeRecord d up c p q = recordAt nodeRecord d up' c p q := by cases d <;> rfl

theorem holds_up {heap : Records ν} {t : ColorTree ν} (holds : Holds nodeRecord heap up t)
    (up' : Ptr ν) : Holds nodeRecord heap up' t := by
  cases t with
  | nil => trivial
  | node c l x r => exact holds

variable {s : State (Records ν) ν} {sp : Spine ν} {x y : ν} {t u a b e : ColorTree ν} {c' : Color}

theorem State.Shows.same_heap {s' : State (Records ν) ν} (shows : s.Shows t) (mem : s'.mem = s.mem)
    (root : s'.root = s.root) : s'.Shows t := by
  unfold State.Shows; rw [mem, root]; exact shows

variable [DecidableEq ν] {mem : Records ν}

@[simp] theorem records_child : NodeMemory.child mem x d = (mem x).child d := rfl

@[simp] theorem records_color : NodeMemory.color mem x = (mem x).color := rfl

@[simp] theorem records_setChild :
    NodeMemory.setChild mem x d p = mem.modify x fun node => node.setChild p d := rfl

@[simp] theorem records_setColor :
    NodeMemory.setColor mem x c = mem.modify x fun node => { node with color := c } := rfl

@[simp] theorem records_setLeftChildColor :
    NodeMemory.setLeftChildColor mem x p c =
      mem.modify x fun node => { node with left := p, color := c } := rfl

@[simp] theorem records_setRightChild :
    NodeMemory.setRightChild mem x p = mem.modify x fun node => { node with right := p } := rfl

@[simp] theorem records_copyLeftChildColor :
    NodeMemory.copyLeftChildColor mem x y =
      mem.modify x fun node => { node with left := (mem y).left, color := (mem y).color } := rfl

@[simp] theorem records_copyRightChild :
    NodeMemory.copyRightChild mem x y = mem.modify x fun node => { node with right := (mem y).right } :=
  rfl

@[simp] theorem modify_self (change : RbNode ν → RbNode ν) :
    mem.modify x change x = change (mem x) := Function.update_self ..

theorem modify_of_ne {change : RbNode ν → RbNode ν} (other : y ≠ x) :
    mem.modify x change y = mem y := Function.update_of_ne other ..

theorem ensures_isRed_at {post : Bool → State (Records ν) ν → Prop}
    (shows : s.Shows (sp.plug t)) (holds : post (decide (t.color = .red)) s) :
    Ensures (isRed t.root) post s := by
  cases t with
  | nil => exact holds
  | node c l x r =>
    have here := Shows.node_eq (d := .left) shows
    rw [ColorTree.root, ensures_isRed_some, records_color, here, nodeRecord_color]
    exact holds

theorem ensures_isBlack_at {post : Bool → State (Records ν) ν → Prop}
    (shows : s.Shows (sp.plug t)) (holds : post (decide (t.color = .black)) s) :
    Ensures (isBlack t.root) post s := by
  cases t with
  | nil => exact holds
  | node c l x r =>
    have here := Shows.node_eq (d := .left) shows
    rw [ColorTree.root, ensures_isBlack_some, records_color, here, nodeRecord_color]
    exact holds

theorem ensures_setColor_at {post : Unit → State (Records ν) ν → Prop}
    (shows : s.Shows (sp.plug (.join d c t x u)))
    (holds : ∀ s', s'.Shows (sp.plug (.join d c' t x u)) → s.SamePath s' → post () s') :
    Ensures (rbSetColor (some x) c') post s := by
  have hangs := shows_plug.mp shows
  have painted : Library.Hangs nodeRecord (NodeMemory.setColor s.mem x c') s.root sp (some x)
      (.join d c' t x u) := by
    rw [ColorTree.join_root] at hangs
    exact hangs.paint (by simp [hangs.node_eq]) fun y other => modify_of_ne other
  exact holds _ (shows_plug.mpr (by simpa using painted)) ⟨rfl, rfl⟩

theorem ensures_setColor_root {post : Unit → State (Records ν) ν → Prop}
    (shows : s.Shows (.node c t x u))
    (holds : ∀ s', s'.Shows (.node c' t x u) → s.SamePath s' → post () s') :
    Ensures (rbSetColor s.root c') post s := by
  have root : s.root = some x := shows.root_eq
  rw [root]
  have atRoot : s.Shows (Spine.plug [] (.join .left c t x u)) := shows
  exact ensures_setColor_at atRoot holds

/-- The rule of `rb_rotate`: the rotated subtree still hangs by the old link. -/
theorem ensures_rbRotate {post : Ptr ν → State (Records ν) ν → Prop}
    (hangs : s.Hangs sp p (.join d c a x (.join d c' b y e)))
    (holds : ∀ s', s'.Hangs sp p (.join d c' (.join d c a x b) y e) → s.SamePath s' →
      post (some y) s') :
    Ensures (rbRotate (some x) d) post s := by
  obtain ⟨xy, apart⟩ := hangs.rotation_fresh
  obtain ⟨here, near, far⟩ := holds_join.mp hangs.holds
  obtain ⟨pivot, inner, outer⟩ := holds_join.mp far
  unfold rbRotate
  simp only [ensures_bind, ensures_rbChild, ensures_rbSetChild, ensures_pure,
    records_child, records_setChild, here, pivot, nodeRecord_far, nodeRecord_near,
    ColorTree.join_root]
  have untouched : ∀ z, z ≠ x → z ≠ y → Records.modify (Records.modify s.mem x
      fun node => node.setChild b.root d.flip) y (fun node => node.setChild (some x) d) z = s.mem z :=
    fun z notX notY => (modify_of_ne notY).trans (modify_of_ne notX)
  refine holds _ (Hangs.rotate hangs ?_ ?_ ?_ fun z notX notY _ => untouched z notX notY) ⟨rfl, rfl⟩
  · simpa [modify_of_ne xy, here] using nodeRecord_up _
  · simpa [modify_of_ne xy.symm, pivot] using nodeRecord_up _
  · refine holds_up (inner.congr fun z member => ?_) _
    exact untouched z (apart z (.inr (.inl member))).1 (apart z (.inr (.inl member))).2

theorem ensures_link {post : Unit → State (Records ν) ν → Prop} {entry : PathEntry ν}
    (hangs : s.Hangs sp p t) (leads : Leads entry sp)
    (holds : ∀ s', s'.Shows (sp.plug t) → s.SamePath s' → post () s') :
    Ensures (link entry t.root) post s := by
  cases sp with
  -- At the root the entry's parent is `NULL`, and the root pointer takes the link.
  | nil =>
    have top : entry.parent = none := leads
    simp only [link, top, ensures_setRoot]
    exact holds _ (hangs.link rfl nofun fun x _ => rfl) ⟨rfl, rfl⟩
  | cons f sp =>
    obtain rfl : entry = ⟨some f.value, f.dir⟩ := leads
    have untouched : ∀ x, x ≠ f.value →
        NodeMemory.setChild s.mem f.value f.dir t.root x = s.mem x := fun x other => modify_of_ne other
    refine holds _ (hangs.link hangs.root_eq ?_ fun x other => ?_) ⟨rfl, rfl⟩
    · rintro _ _ ⟨⟩
      simp [hangs.around.1]
    · exact untouched x fun same => other (congrArg some same.symm)

theorem ensures_rotate_link {post : Ptr ν → Unit → State (Records ν) ν → Prop} (inner : Spine ν)
    (shows : s.Shows (sp.plug (.join d c a x (.join d c' b y e)))) (place : s.At (inner ++ sp))
    (holds : ∀ s', s'.Shows (sp.plug (.join d c' (.join d c a x b) y e)) → s.SamePath s' →
      post (some y) () s') :
    Ensures (rbRotate (some x) d) (fun t => Ensures (entryAt inner.length) fun entry =>
      Ensures (link entry t) (post t)) s := by
  apply ensures_rbRotate (shows_plug.mp shows)
  intro s₁ hangs same
  apply ensures_entryAt inner (place.same same)
  intro entry leads
  have linked : Ensures (link entry (ColorTree.join d c' (.join d c a x b) y e).root) (post (some y)) s₁ :=
    ensures_link hangs leads fun s₂ shows' same' => holds s₂ shows' (same.trans same')
  rwa [ColorTree.join_root] at linked

end

end Embedlib.RbtreeCompact
