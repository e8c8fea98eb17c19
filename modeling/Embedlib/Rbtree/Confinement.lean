import Embedlib.Rbtree.Operations
import Embedlib.Library.Footprint
import Embedlib.Library.Preservation

/-! The operations of the tree with parent pointers stay among the nodes they can
reach, whether or not the links make up a tree. -/

set_option autoImplicit false

namespace Embedlib.Rbtree

open Library Rb

variable {ν κ : Type}

structure RbNode.Inside (own : Set ν) (node : RbNode ν) : Prop where
  parent : Among own node.parent
  child : ∀ d, Among own (node.child d)

/-- The links of the nodes of `own`, and the root, lead nowhere else than into
`own`. Outside of `own` the nodes are those of `before`. -/
structure Confined (own : Set ν) (before : Records ν) (s : State ν) : Prop where
  outside : ∀ x ∉ own, s.mem x = before x
  inside : ∀ x ∈ own, (s.mem x).Inside own
  root : Among own s.root

abbrev Stays {α : Type} (own : Set ν) (before : Records ν) (program : Program (State ν) α)
    (returns : α → Prop) : Prop := Preserves (Confined own before) program returns

variable {own : Set ν} {before : Records ν}

theorem RbNode.Inside.mono {wider : Set ν} {node : RbNode ν} (inside : node.Inside own) (within : own ⊆ wider) :
    node.Inside wider :=
  ⟨inside.parent.mono within, fun d => (inside.child d).mono within⟩

/-! ### Accessors -/

theorem stays_deref {p : Ptr ν} (among : Among own p) : Stays own before (deref p) (· ∈ own) := by
  cases p with
  | none => exact preserves_fault _
  | some x => exact preserves_pure (among x rfl)

theorem stays_rbParent {p : Ptr ν} (among : Among own p) : Stays own before (rbParent p) (Among own) :=
  (stays_deref among).bind fun x member => preserves_get fun _ held => preserves_pure (held.inside x member).parent

theorem stays_rbChild {p : Ptr ν} (among : Among own p) (d : Dir) :
    Stays own before (rbChild p d) (Among own) :=
  (stays_deref among).bind fun x member =>
    preserves_get fun _ held => preserves_pure ((held.inside x member).child d)

theorem stays_rbColor {p : Ptr ν} (among : Among own p) : Stays own before (rbColor p) (fun _ => True) :=
  (stays_deref among).bind fun _ _ => preserves_get fun _ _ => preserves_pure trivial

theorem stays_setRoot {p : Ptr ν} (among : Among own p) : Stays own before (setRoot p) (fun _ => True) :=
  preserves_modify trivial fun _ held => ⟨held.outside, held.inside, among⟩

theorem stays_isRed {p : Ptr ν} (among : Among own p) : Stays own before (isRed p) (fun _ => True) := by
  cases p with
  | none => exact preserves_pure trivial
  | some x => exact (stays_rbColor among).bind fun _ _ => preserves_pure trivial

theorem stays_isBlack {p : Ptr ν} (among : Among own p) : Stays own before (isBlack p) (fun _ => True) := by
  cases p with
  | none => exact preserves_pure trivial
  | some x => exact (stays_rbColor among).bind fun _ _ => preserves_pure trivial

theorem RbNode.Inside.setChild {node : RbNode ν} (inside : node.Inside own) {p : Ptr ν} (link : Among own p)
    (d : Dir) : (node.setChild p d).Inside own := by
  refine ⟨by cases d <;> exact inside.parent, fun e => ?_⟩
  cases d <;> cases e
  · exact link
  · exact inside.child .right
  · exact inside.child .left
  · exact link

theorem RbNode.Inside.setParentColor {node : RbNode ν} (inside : node.Inside own) {p : Ptr ν}
    (link : Among own p) (c : Color) : (node.setParentColor p c).Inside own :=
  ⟨link, fun d => by
    cases d
    · exact inside.child .left
    · exact inside.child .right⟩

variable [DecidableEq ν]

theorem stays_change {p : Ptr ν} (among : Among own p) {f : RbNode ν → RbNode ν}
    (kept : ∀ node : RbNode ν, node.Inside own → (f node).Inside own) :
    Stays own before (change p f) (fun _ => True) := by
  refine (stays_deref among).bind fun x member => preserves_modify trivial fun s held => ?_
  refine ⟨fun y other => ?_, fun y inside => ?_, held.root⟩
  · have apart : y ≠ x := fun same => other (same ▸ member)
    simpa only [Records.modify, Function.update_of_ne apart] using held.outside y other
  · by_cases here : y = x
    · subst here
      simpa only [Records.modify, Function.update_self] using kept _ (held.inside y member)
    · simpa only [Records.modify, Function.update_of_ne here] using held.inside y inside

theorem stays_rbSetParent {p q : Ptr ν} (among : Among own p) (link : Among own q) :
    Stays own before (rbSetParent p q) (fun _ => True) :=
  stays_change among fun _ inside => inside.setParentColor link _

theorem stays_rbSetParentColor {p q : Ptr ν} (among : Among own p) (link : Among own q) (c : Color) :
    Stays own before (rbSetParentColor p q c) (fun _ => True) :=
  stays_change among fun _ inside => inside.setParentColor link c

theorem stays_rbSetChild {p q : Ptr ν} (among : Among own p) (d : Dir) (link : Among own q) :
    Stays own before (rbSetChild p d q) (fun _ => True) :=
  stays_change among fun _ inside => inside.setChild link d

theorem stays_rbSetColor {p : Ptr ν} (among : Among own p) (c : Color) :
    Stays own before (rbSetColor p c) (fun _ => True) :=
  stays_change among fun _ inside => inside.setParentColor inside.parent c

theorem stays_copyParentColor {p q : Ptr ν} (among : Among own p) (source : Among own q) :
    Stays own before (copyParentColor p q) (fun _ => True) :=
  (stays_rbParent source).bind fun _ link => (stays_rbColor source).bind fun _ _ =>
    stays_rbSetParentColor among link _

theorem stays_adopt {p q : Ptr ν} (among : Among own p) (link : Among own q) :
    Stays own before (adopt p q) (fun _ => True) := by
  cases p with
  | none => exact preserves_pure trivial
  | some x => exact stays_rbSetParent among link

theorem stays_childDir {p : Ptr ν} (among : Among own p) (d : Dir) (child : Ptr ν) :
    Stays own before (childDir p d child) (fun _ => True) :=
  (stays_rbChild among d).bind fun _ _ => preserves_pure trivial

/-! ### Rotations and fix-ups -/

theorem stays_rbRotate {p : Ptr ν} (among : Among own p) (d : Dir) :
    Stays own before (rbRotate p d) (fun _ => True) := by
  refine (stays_rbChild among d.flip).bind fun pivot lower => (stays_rbChild lower d).bind fun inner between =>
    (stays_rbSetChild among _ between).bind fun _ _ => (stays_rbChild lower d).bind fun inner between =>
      (stays_adopt between among).bind fun _ _ => (stays_rbParent among).bind fun up above =>
        (stays_rbSetParent lower above).bind fun _ _ => ?_
  have rest : Stays own before (do
      rbSetChild pivot d p
      rbSetParent p pivot) (fun _ => True) :=
    (stays_rbSetChild lower _ among).bind fun _ _ => stays_rbSetParent among lower
  cases up with
  | none => exact (stays_setRoot lower).bind fun _ _ => rest
  | some f =>
    exact (stays_childDir above d p).bind fun side _ => (stays_rbSetChild above side lower).bind fun _ _ => rest

theorem stays_rbInsertColorLast {node parent gparent : Ptr ν} (leaf : Among own node)
    (lower : Among own parent) (upper : Among own gparent) (d : Dir) :
    Stays own before (rbInsertColorLast node parent gparent d) (Turn.Hands (Among own) fun _ => True) := by
  unfold rbInsertColorLast
  have rest (both : Ptr ν × Ptr ν) (inside : AmongBoth own both) : Stays own before (do
      rbSetColor both.2 .black
      rbSetColor gparent .red
      rbRotate gparent d.flip
      return .again both.1) (Turn.Hands (Among own) fun _ : Unit => True) :=
    (stays_rbSetColor inside.2 _).bind fun _ _ => (stays_rbSetColor upper _).bind fun _ _ =>
      (stays_rbRotate upper _).bind fun _ _ => preserves_pure inside.1
  have bent : Stays own before (pure (parent, node)) (AmongBoth own) := preserves_pure ⟨lower, leaf⟩
  have straight : Stays own before (pure (node, parent)) (AmongBoth own) := preserves_pure ⟨leaf, lower⟩
  refine (stays_rbChild lower _).bind fun near _ => preserves_ite (fun _ => ?_) fun _ => straight.bind rest
  exact (stays_rbRotate lower d).bind fun _ _ => bent.bind rest

theorem stays_rbInsertColorRound {node : Ptr ν} (among : Among own node) :
    Stays own before (rbInsertColorRound node) (Turn.Hands (Among own) fun _ => True) := by
  unfold rbInsertColorRound
  refine (stays_rbParent among).bind fun parent lower => (stays_isRed lower).bind fun red _ => ?_
  refine preserves_ite (fun _ => ?_) fun _ => preserves_pure trivial
  refine (stays_rbParent lower).bind fun gparent upper => (stays_childDir upper _ _).bind fun side _ =>
    (stays_rbChild upper _).bind fun uncle beside => (stays_isRed beside).bind fun red _ => ?_
  refine preserves_ite (fun _ => ?_) fun _ => stays_rbInsertColorLast among lower upper side
  exact (stays_rbSetColor lower _).bind fun _ _ => (stays_rbSetColor beside _).bind fun _ _ =>
    (stays_rbSetColor upper _).bind fun _ _ => preserves_pure upper

theorem stays_rbInsertColor (fuel : Nat) {node : Ptr ν} (among : Among own node) :
    Stays own before (rbInsertColor fuel node) (fun _ => True) :=
  (preserves_loop (fun _ inside => stays_rbInsertColorRound inside) fuel among).bind fun _ _ =>
    preserves_get fun _ held => stays_rbSetColor held.root _

theorem stays_rbRemoveColorLast {parent sibling : Ptr ν} (upper : Among own parent) (beside : Among own sibling)
    (d : Dir) : Stays own before (rbRemoveColorLast parent sibling d) (Turn.Hands (AmongBoth own) (Among own)) :=
  (stays_rbColor upper).bind fun _ _ => (stays_rbSetColor beside _).bind fun _ _ =>
    (stays_rbSetColor upper _).bind fun _ _ => (stays_rbChild beside _).bind fun _ outer =>
      (stays_rbSetColor outer _).bind fun _ _ => (stays_rbRotate upper d).bind fun _ _ =>
        preserves_get fun _ held => preserves_pure held.root

theorem stays_rbRemoveColorRest {parent sibling : Ptr ν} (upper : Among own parent) (beside : Among own sibling)
    (d : Dir) : Stays own before (rbRemoveColorRest parent sibling d) (Turn.Hands (AmongBoth own) (Among own)) := by
  unfold rbRemoveColorRest
  refine (stays_rbChild beside _).bind fun outer far => (stays_isBlack far).bind fun black _ => ?_
  refine preserves_ite (fun _ => ?_) fun _ => stays_rbRemoveColorLast upper beside d
  refine (stays_rbChild beside _).bind fun inner near => (stays_isBlack near).bind fun black _ => ?_
  refine preserves_ite (fun _ => ?_) fun _ => ?_
  · exact (stays_rbSetColor beside _).bind fun _ _ => (stays_rbParent upper).bind fun _ above =>
      preserves_pure ⟨above, upper⟩
  · exact (stays_rbChild beside _).bind fun _ near => (stays_rbSetColor near _).bind fun _ _ =>
      (stays_rbSetColor beside _).bind fun _ _ => (stays_rbRotate beside _).bind fun _ _ =>
        (stays_rbChild upper _).bind fun _ turned => stays_rbRemoveColorLast upper turned d

theorem stays_rbRemoveColorLower {parent sibling : Ptr ν} (upper : Among own parent) (beside : Among own sibling)
    (d : Dir) : Stays own before (rbRemoveColorLower parent sibling d) (Among own) :=
  (stays_rbSetColor beside _).bind fun _ _ => (stays_rbSetColor upper _).bind fun _ _ =>
    (stays_rbRotate upper d).bind fun _ _ => stays_rbChild upper _

theorem stays_rbRemoveColorRound {both : Ptr ν × Ptr ν} (among : AmongBoth own both) :
    Stays own before (rbRemoveColorRound both) (Turn.Hands (AmongBoth own) (Among own)) := by
  obtain ⟨parent, node⟩ := both
  obtain ⟨upper, inside⟩ := among
  refine (stays_isBlack inside).bind fun black _ => preserves_get fun s _ => ?_
  refine preserves_ite (fun _ => ?_) fun _ => preserves_pure inside
  refine (stays_childDir upper _ _).bind fun side _ => (stays_rbChild upper _).bind fun sibling beside =>
    (stays_rbColor beside).bind fun color _ => ?_
  have rest (sibling : Ptr ν) (beside : Among own sibling) : Stays own before _ _ :=
    stays_rbRemoveColorRest upper beside side
  exact preserves_ite (fun _ => (stays_rbRemoveColorLower upper beside _).bind rest) fun _ =>
    (preserves_pure beside).bind rest

theorem stays_rbRemoveColor (fuel : Nat) {parent node : Ptr ν} (upper : Among own parent) (inside : Among own node) :
    Stays own before (rbRemoveColor fuel parent node) (fun _ => True) :=
  (preserves_loop (fun _ among => stays_rbRemoveColorRound among) fuel ⟨upper, inside⟩).bind fun p ends => by
    cases p with
    | none => exact preserves_pure trivial
    | some x => exact stays_rbSetColor ends _

/-! ### Removal, search and insertion -/

theorem stays_rbChangeChild {p q : Ptr ν} (among : Among own p) (old : Ptr ν) (link : Among own q) :
    Stays own before (rbChangeChild p old q) (fun _ => True) :=
  (stays_childDir among _ _).bind fun _ _ => stays_rbSetChild among _ link

theorem stays_link {p q : Ptr ν} (among : Among own p) (old : Ptr ν) (target : Among own q) :
    Stays own before (link p old q) (fun _ => True) := by
  cases p with
  | none => exact stays_setRoot target
  | some x => exact stays_rbChangeChild among old target

omit [DecidableEq ν] in
theorem stays_walkRound (d : Dir) {p : Ptr ν} (among : Among own p) :
    Stays own before (walkRound d p) (Turn.Hands (Among own) (Among own)) :=
  (stays_rbChild among d).bind fun q below => by
    cases q with
    | none => exact preserves_pure among
    | some x => exact preserves_pure below

structure Unlinked.Among (own : Set ν) (unlinked : Unlinked ν) : Prop where
  transplanter : Library.Among own unlinked.transplanter
  replacement : Library.Among own unlinked.replacement
  parent : Library.Among own unlinked.parent

theorem stays_rbTakePlace {p successor : Ptr ν} (among : Among own p) (next : Among own successor) :
    Stays own before (rbTakePlace p successor) (Unlinked.Among own) := by
  unfold rbTakePlace
  refine (stays_rbColor next).bind fun color _ => (stays_rbChild next .right).bind fun child below =>
    (stays_rbParent next).bind fun parent above => ?_
  have rest (parent : Ptr ν) (above : Library.Among own parent) : Stays own before (do
      rbSetChild successor .left (← rbChild p .left)
      rbSetParent (← rbChild p .left) successor
      copyParentColor successor p
      return ⟨successor, child, parent, color⟩) (Unlinked.Among own) :=
    (stays_rbChild among .left).bind fun _ left => (stays_rbSetChild next _ left).bind fun _ _ =>
      (stays_rbChild among .left).bind fun _ left => (stays_rbSetParent left next).bind fun _ _ =>
        (stays_copyParentColor next among).bind fun _ _ => preserves_pure ⟨next, below, above⟩
  refine preserves_ite (fun _ => ?_) fun _ => (preserves_pure next).bind rest
  exact (stays_rbChangeChild above _ below).bind fun _ _ => (stays_adopt below above).bind fun _ _ =>
    (stays_rbChild among .right).bind fun _ right => (stays_rbSetChild next _ right).bind fun _ _ =>
      (stays_rbChild among .right).bind fun _ right => (stays_rbSetParent right next).bind fun _ _ =>
        (preserves_pure above).bind rest

theorem stays_rbUnlink (fuel : Nat) {p : Ptr ν} (among : Among own p) :
    Stays own before (rbUnlink fuel p) (Unlinked.Among own) := by
  unfold rbUnlink
  refine (stays_rbParent among).bind fun up above => (stays_rbColor among).bind fun color _ =>
    (stays_rbChild among .left).bind fun left _ => preserves_ite (fun _ => ?_) fun _ => ?_
  · exact (stays_rbChild among .right).bind fun _ only => (stays_adopt only above).bind fun _ _ =>
      preserves_pure ⟨only, only, above⟩
  refine (stays_rbChild among .right).bind fun right _ => preserves_ite (fun _ => ?_) fun _ => ?_
  · exact (stays_rbChild among .left).bind fun _ only => (stays_rbSetParent only above).bind fun _ _ =>
      preserves_pure ⟨only, only, above⟩
  · exact (stays_rbChild among .right).bind fun _ below =>
      (preserves_loop (fun _ inside => stays_walkRound .left inside) fuel below).bind fun _ next =>
        stays_rbTakePlace among next

theorem stays_rbRemove (fuel : Nat) {p : Ptr ν} (among : Among own p) :
    Stays own before (rbRemove fuel p) (fun _ => True) := by
  unfold rbRemove
  refine (stays_rbParent among).bind fun up above => (stays_rbUnlink fuel among).bind fun unlinked inside =>
    (stays_link above _ inside.transplanter).bind fun _ _ => ?_
  exact preserves_ite (fun _ => stays_rbRemoveColor fuel inside.parent inside.replacement) fun _ =>
    preserves_pure trivial

omit [DecidableEq ν] in
theorem stays_rbFind (keyCmp : κ → ν → Int) (fuel : Nat) (key : κ) :
    Stays own before (rbFind keyCmp fuel key) (Among own) := by
  refine preserves_get fun _ held => preserves_loop (fun p among => ?_) fuel held.root
  cases p with
  | none => exact preserves_pure among_none
  | some x =>
    simp only [rbFindRound]
    split
    · exact preserves_pure among
    · exact (stays_rbChild among _).bind fun _ below => preserves_pure below

theorem stays_rbRemoveKey (keyCmp : κ → ν → Int) (fuel : Nat) (key : κ) :
    Stays own before (rbRemoveKey keyCmp fuel key) (fun _ => True) :=
  (stays_rbFind keyCmp fuel key).bind fun p inside => by
    cases p with
    | none => exact preserves_pure trivial
    | some x => exact (stays_rbRemove fuel inside).bind fun _ _ => preserves_pure trivial

omit [DecidableEq ν] in
theorem stays_rbInsertRound (cmp : ν → ν → Int) (node : ν) {p : ν} (member : p ∈ own) :
    Stays own before (rbInsertRound cmp node p)
      (Turn.Hands (· ∈ own) (Sum.elim (fun _ => True) fun place => place.1 ∈ own)) := by
  unfold rbInsertRound
  split
  · exact preserves_pure trivial
  · refine (stays_rbChild (among_some member) _).bind fun q below => ?_
    cases q with
    | none => exact preserves_pure member
    | some x => exact preserves_pure (below x rfl)

/-- A node was linked in whose own links are not set yet. -/
structure Joins (own : Set ν) (before : Records ν) (node : ν) (s : State ν) : Prop where
  outside : ∀ x ∉ insert node own, s.mem x = before x
  inside : ∀ x ∈ own, x ≠ node → (s.mem x).Inside (insert node own)
  root : Among (insert node own) s.root

theorem Joins.whenever_rbInsertNew {node : ν} {s : State ν} (joins : Joins own before node s) (fuel : Nat)
    {parent : Ptr ν} (above : Among own parent) :
    Whenever (rbInsertNew fuel parent node) (fun _ s' => Confined (insert node own) before s') s := by
  apply whenever_modify
  apply whenever_modify
  apply whenever_modify
  refine Whenever.bind (stays_rbInsertColor fuel (among_some (.inl rfl)) _ ⟨fun x other => ?_, fun x member => ?_,
    joins.root⟩) fun _ _ ends => whenever_pure ends.1
  · have apart : x ≠ node := fun same => other (.inl same)
    simpa only [Records.modify, Function.update_of_ne apart] using joins.outside x other
  · by_cases new : x = node
    · subst new
      simp only [Records.modify, Function.update_self]
      refine ⟨above.mono (Set.subset_insert _ _), fun d => ?_⟩
      cases d <;> exact among_none
    · simpa only [Records.modify, Function.update_of_ne new] using joins.inside x (member.resolve_left new) new

theorem Confined.joins_child {s : State ν} (held : Confined own before s) {x : ν} (member : x ∈ own) (d : Dir)
    (node : ν) : Joins own before node { s with mem := s.mem.modify x fun n => n.setChild (some node) d } := by
  have widens : own ⊆ insert node own := Set.subset_insert _ _
  refine ⟨fun y other => ?_, fun y inside _ => ?_, held.root.mono widens⟩
  · have apart : y ≠ x := fun same => other (.inr (same ▸ member))
    simpa only [Records.modify, Function.update_of_ne apart] using held.outside y fun inside => other (.inr inside)
  · by_cases here : y = x
    · subst here
      simp only [Records.modify, Function.update_self]
      exact ((held.inside y member).mono widens).setChild (among_some (.inl rfl)) d
    · simpa only [Records.modify, Function.update_of_ne here] using (held.inside y inside).mono widens

theorem whenever_rbInsert {s : State ν} (held : Confined own before s) (cmp : ν → ν → Int) (fuel : Nat) (node : ν) :
    Whenever (rbInsert cmp fuel node) (fun _ (s' : State ν) => ∀ x ∉ insert node own, s'.mem x = before x) s := by
  have widens : own ⊆ insert node own := Set.subset_insert _ _
  apply whenever_get
  cases top : s.root with
  | none =>
    apply whenever_modify
    have joins : Joins own before node { s with root := some node } :=
      ⟨fun x other => held.outside x fun member => other (.inr member),
        fun x member _ => (held.inside x member).mono widens, among_some (.inl rfl)⟩
    exact (joins.whenever_rbInsertNew fuel among_none).mono fun _ _ ends => ends.outside
  | some p =>
    refine (preserves_loop (fun _ inside => stays_rbInsertRound cmp node inside) fuel (held.root p top) s held).bind
      fun turn s₁ ends => ?_
    obtain ⟨held₁, place⟩ := ends
    cases turn with
    | inl ent => exact whenever_pure fun x other => held₁.outside x fun member => other (.inr member)
    | inr found =>
      apply whenever_modify
      exact ((held₁.joins_child place found.2 node).whenever_rbInsertNew fuel (among_some place)).mono
        fun _ _ ends => ends.outside

end Embedlib.Rbtree
