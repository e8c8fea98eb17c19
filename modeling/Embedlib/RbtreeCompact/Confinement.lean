import Embedlib.RbtreeCompact.Operations
import Embedlib.Library.Footprint
import Embedlib.Library.Preservation

/-! The operations of the compact tree stay among the nodes they can reach.

Let the links of the nodes of a set lead to nodes of the set only. An operation
that starts there writes to no other node, whether or not the links make up a tree.
-/

set_option autoImplicit false

namespace Embedlib.RbtreeCompact

open Library Rb

variable {ν κ : Type}

/-- The links of the nodes of `own`, and the root, lead nowhere else than into
`own`. Outside of `own` the nodes are those of `before`. -/
structure Enclosed (own : Set ν) (before mem : Records ν) (root : Ptr ν) : Prop where
  outside : ∀ x ∉ own, mem x = before x
  links : ∀ x ∈ own, ∀ d, Among own ((mem x).child d)
  root : Among own root

/-- So does the path up to its current entry. -/
structure Confined (own : Set ν) (before : Records ν) (s : State (Records ν) ν) : Prop
    extends Enclosed own before s.mem s.root where
  path : ∀ i ≤ s.rp.cur, Among own (s.rp.path i).parent

abbrev Stays {α : Type} (own : Set ν) (before : Records ν) (program : Program (State (Records ν) ν) α)
    (returns : α → Prop) : Prop := Preserves (Confined own before) program returns

variable {own : Set ν} {before : Records ν}

/-! ### Accessors and the path -/

theorem stays_deref {p : Ptr ν} (among : Among own p) : Stays own before (deref p) (· ∈ own) := by
  cases p with
  | none => exact preserves_fault _
  | some x => exact preserves_pure (among x rfl)

theorem stays_setRoot {p : Ptr ν} (among : Among own p) :
    Stays own before (setRoot p) (fun _ => True) :=
  preserves_modify trivial fun _ held => ⟨⟨held.outside, held.links, among⟩, held.path⟩

theorem stays_entryAt (back : Nat) :
    Stays own before (entryAt back) (fun entry => Among own entry.parent) :=
  preserves_get fun _ held =>
    preserves_ite (fun _ => preserves_pure (held.path _ (Nat.sub_le _ _))) fun _ => preserves_fault _

theorem Confined.write {s : State (Records ν) ν} (held : Confined own before s) (i : Nat) {entry : PathEntry ν}
    {written : List Nat} (among : i ≤ s.rp.cur → Among own entry.parent) :
    Confined own before { s with
      rp := { s.rp with path := Function.update s.rp.path i entry }, written := written } := by
  refine ⟨held.toEnclosed, fun j low => ?_⟩
  by_cases here : j = i
  · subst here
    simpa only [Function.update_self] using among low
  · simpa only [Function.update_of_ne here] using held.path j low

theorem stays_writeEntry (i : Nat) {change : PathEntry ν → PathEntry ν}
    (among : ∀ entry, Among own entry.parent → Among own (change entry).parent) :
    Stays own before (writeEntry i change) (fun _ => True) :=
  preserves_modify trivial fun _ held => held.write i fun low => among _ (held.path i low)

theorem stays_retreat (n : Nat) : Stays own before (retreat n) (fun _ => True) :=
  preserves_get fun _ _ => preserves_ite
    (fun _ => preserves_modify trivial fun _ held =>
      ⟨held.toEnclosed, fun i low => held.path i (Nat.le_trans low (Nat.sub_le _ _))⟩)
    fun _ => preserves_fault _

theorem stays_push {p : Ptr ν} (among : Among own p) (d : Dir) :
    Stays own before (push p d) (fun _ => True) := by
  intro s held
  apply whenever_modify
  apply whenever_get
  apply whenever_modify
  refine stays_writeEntry (s.rp.cur + 1) ?_ _ ⟨held.toEnclosed, fun i low => ?_⟩
  · exact fun _ leads => leads
  by_cases here : i = s.rp.cur + 1
  · subst here
    simpa only [Function.update_self] using among
  · simp only [Function.update_of_ne here]
    exact held.path i (by simp only at low; omega)

theorem whenever_rbPathInit {s : State (Records ν) ν} (enclosed : Enclosed own before s.mem s.root) :
    Whenever rbPathInit (fun _ s' => Confined own before s') s := by
  rintro _ _ ⟨⟩
  refine ⟨enclosed, fun i low => ?_⟩
  obtain rfl := Nat.le_zero.mp low
  simpa only [Function.update_self] using among_none

/-- Case 1 fills the next entry before the path grows by it. -/
theorem Confined.lowerPath {s : State (Records ν) ν} (held : Confined own before s) {here : PathEntry ν}
    {t : Ptr ν} (leads : Among own here.parent) (pivot : Among own t) (d : Dir) {α : Type}
    {rest : Program (State (Records ν) ν) α} {returns : α → Prop} (continues : Stays own before rest returns) :
    Whenever (do
      writeEntry (s.rp.cur + 1) fun _ => here
      writeEntry s.rp.cur fun entry => { entry with parent := t }
      writeEntry s.rp.cur fun entry => { entry with dir := d }
      advance
      rest) (fun result s' => Confined own before s' ∧ returns result) s := by
  apply whenever_modify
  apply whenever_modify
  apply whenever_modify
  apply whenever_modify
  refine continues _ ⟨held.toEnclosed, fun i low => ?_⟩
  by_cases next : i = s.rp.cur + 1
  · subst next
    simpa [Function.update_of_ne] using leads
  · by_cases top : i = s.rp.cur
    · subst top
      simpa [Function.update_of_ne] using pivot
    · have below : i ≤ s.rp.cur := by simp only at low; omega
      simpa [Function.update_of_ne, next, top] using held.path i below

variable [DecidableEq ν]

theorem stays_rbChild {p : Ptr ν} (among : Among own p) (d : Dir) :
    Stays own before (rbChild p d) (Among own) :=
  (stays_deref among).bind fun x member => preserves_get fun _ held => preserves_pure (held.links x member d)

theorem stays_rbColor {p : Ptr ν} (among : Among own p) :
    Stays own before (rbColor p) (fun _ => True) :=
  (stays_deref among).bind fun _ _ => preserves_get fun _ _ => preserves_pure trivial

theorem Confined.modify {s : State (Records ν) ν} (held : Confined own before s) {x : ν} (member : x ∈ own)
    {change : RbNode ν → RbNode ν} (among : ∀ d, Among own ((change (s.mem x)).child d)) :
    Confined own before { s with mem := s.mem.modify x change } := by
  refine ⟨⟨fun y other => ?_, fun y inside d => ?_, held.root⟩, held.path⟩
  · have apart : y ≠ x := fun same => other (same ▸ member)
    simpa only [Records.modify, Function.update_of_ne apart] using held.outside y other
  · by_cases here : y = x
    · subst here
      simpa only [Records.modify, Function.update_self] using among d
    · simpa only [Records.modify, Function.update_of_ne here] using held.links y inside d

theorem stays_rbSetChild {p q : Ptr ν} (among : Among own p) (d : Dir) (link : Among own q) :
    Stays own before (rbSetChild p d q) (fun _ => True) :=
  (stays_deref among).bind fun x member => preserves_modify trivial fun s held =>
    held.modify member fun e => by
      cases d <;> cases e
      · exact link
      · exact held.links x member .right
      · exact held.links x member .left
      · exact link

theorem stays_rbSetColor {p : Ptr ν} (among : Among own p) (c : Color) :
    Stays own before (rbSetColor p c) (fun _ => True) :=
  (stays_deref among).bind fun x member => preserves_modify trivial fun s held =>
    held.modify member fun e => by
      cases e
      · exact held.links x member .left
      · exact held.links x member .right

theorem stays_rbCopyLeftChildColor {p q : Ptr ν} (among : Among own p) (source : Among own q) :
    Stays own before (rbCopyLeftChildColor p q) (fun _ => True) :=
  (stays_deref among).bind fun x member => (stays_deref source).bind fun y inside =>
    preserves_modify trivial fun s held => held.modify member fun e => by
      cases e
      · exact held.links y inside .left
      · exact held.links x member .right

theorem stays_rbCopyRightChild {p q : Ptr ν} (among : Among own p) (source : Among own q) :
    Stays own before (rbCopyRightChild p q) (fun _ => True) :=
  (stays_deref among).bind fun x member => (stays_deref source).bind fun y inside =>
    preserves_modify trivial fun s held => held.modify member fun e => by
      cases e
      · exact held.links x member .left
      · exact held.links y inside .right

theorem stays_isRed {p : Ptr ν} (among : Among own p) : Stays own before (isRed p) (fun _ => True) := by
  cases p with
  | none => exact preserves_pure trivial
  | some x => exact (stays_rbColor among).bind fun _ _ => preserves_pure trivial

theorem stays_isBlack {p : Ptr ν} (among : Among own p) : Stays own before (isBlack p) (fun _ => True) := by
  cases p with
  | none => exact preserves_pure trivial
  | some x => exact (stays_rbColor among).bind fun _ _ => preserves_pure trivial

theorem stays_link {entry : PathEntry ν} (among : Among own entry.parent) {p : Ptr ν} (target : Among own p) :
    Stays own before (link entry p) (fun _ => True) := by
  unfold link
  split
  · exact stays_rbSetChild among _ target
  · exact stays_setRoot target

/-! ### Rotations and fix-ups -/

theorem stays_rbRotate {p : Ptr ν} (among : Among own p) (d : Dir) :
    Stays own before (rbRotate p d) (Among own) :=
  (stays_rbChild among d.flip).bind fun _ pivot => (stays_rbChild pivot d).bind fun _ inner =>
    (stays_rbSetChild among _ inner).bind fun _ _ => (stays_rbSetChild pivot _ among).bind fun _ _ =>
      preserves_pure pivot

theorem stays_rotate_link {p : Ptr ν} (among : Among own p) (d : Dir) (back : Nat) {α : Type}
    {rest : Program (State (Records ν) ν) α} {returns : α → Prop} (continues : Stays own before rest returns) :
    Stays own before (do
      let t ← rbRotate p d
      link (← entryAt back) t
      rest) returns :=
  (stays_rbRotate among d).bind fun _ pivot => (stays_entryAt back).bind fun _ place =>
    (stays_link place pivot).bind fun _ _ => continues

theorem stays_rbInsertColorLast {parent gparent : Ptr ν} (lower : Among own parent) (upper : Among own gparent)
    (d : Dir) : Stays own before (rbInsertColorLast parent gparent d) (Turn.Hands (fun _ => True) fun _ => True) := by
  unfold rbInsertColorLast
  have left : Stays own before (pure (Turn.leave ())) (Turn.Hands (fun _ : Unit => True) fun _ : Unit => True) :=
    preserves_pure trivial
  have rest (parent : Ptr ν) (lower : Among own parent) : Stays own before (do
      rbSetColor parent .black
      rbSetColor gparent .red
      let t ← rbRotate gparent d.flip
      link (← entryAt 2) t
      return .leave ()) (Turn.Hands (fun _ => True) fun _ => True) :=
    (stays_rbSetColor lower _).bind fun _ _ => (stays_rbSetColor upper _).bind fun _ _ =>
      stays_rotate_link upper d.flip 2 left
  refine (stays_entryAt 0).bind fun entry _ => preserves_ite (fun _ => ?_) fun _ =>
    (preserves_pure lower).bind rest
  exact (stays_rbRotate lower d).bind fun pivot inside => (stays_rbSetChild upper d inside).bind fun _ _ =>
    (preserves_pure inside).bind rest

theorem stays_rbInsertColorRound (turn : Unit) :
    Stays own before (rbInsertColorRound turn) (Turn.Hands (fun _ => True) fun _ => True) := by
  unfold rbInsertColorRound
  refine (stays_entryAt 0).bind fun entry lower => (stays_isRed lower).bind fun red _ => ?_
  refine preserves_ite (fun _ => ?_) fun _ => preserves_pure trivial
  refine (stays_entryAt 1).bind fun above upper => (stays_rbChild upper _).bind fun uncle beside =>
    (stays_isRed beside).bind fun red _ => ?_
  refine preserves_ite (fun _ => ?_) fun _ => stays_rbInsertColorLast lower upper _
  exact (stays_rbSetColor lower _).bind fun _ _ => (stays_rbSetColor beside _).bind fun _ _ =>
    (stays_rbSetColor upper _).bind fun _ _ => (stays_retreat 2).bind fun _ _ => preserves_pure trivial

theorem stays_rbInsertColor (fuel : Nat) : Stays own before (rbInsertColor fuel) (fun _ => True) :=
  (preserves_loop (fun value _ => stays_rbInsertColorRound value) fuel trivial).bind fun _ _ =>
    preserves_get fun _ held => stays_rbSetColor held.root _

theorem stays_rbRemoveColorLast {parent sibling nibling : Ptr ν} (upper : Among own parent)
    (beside : Among own sibling) (outer : Among own nibling) (d : Dir) :
    Stays own before (rbRemoveColorLast parent sibling nibling d) (Turn.Hands (Among own) (Among own)) :=
  (stays_rbColor upper).bind fun _ _ => (stays_rbSetColor beside _).bind fun _ _ =>
    (stays_rbSetColor upper _).bind fun _ _ => (stays_rbSetColor outer _).bind fun _ _ =>
      stays_rotate_link upper d 1 (preserves_get fun _ held => preserves_pure held.root)

theorem stays_rbRemoveColorRest {parent sibling : Ptr ν} (upper : Among own parent)
    (beside : Among own sibling) (d : Dir) :
    Stays own before (rbRemoveColorRest parent sibling d) (Turn.Hands (Among own) (Among own)) := by
  unfold rbRemoveColorRest
  refine (stays_rbChild beside _).bind fun outer far => (stays_isBlack far).bind fun black _ => ?_
  refine preserves_ite (fun _ => ?_) fun _ => stays_rbRemoveColorLast upper beside far d
  refine (stays_rbChild beside _).bind fun inner near => (stays_isBlack near).bind fun black _ => ?_
  refine preserves_ite (fun _ => ?_) fun _ => ?_
  · exact (stays_rbSetColor beside _).bind fun _ _ => (stays_retreat 1).bind fun _ _ => preserves_pure upper
  · exact (stays_rbSetColor near _).bind fun _ _ => (stays_rbSetColor beside _).bind fun _ _ =>
      (stays_rbRotate beside _).bind fun _ pivot => (stays_rbSetChild upper _ pivot).bind fun _ _ =>
        stays_rbRemoveColorLast upper pivot beside d

theorem stays_rbRemoveColorLower {parent sibling : Ptr ν} (upper : Among own parent)
    (beside : Among own sibling) (d : Dir) :
    Stays own before (rbRemoveColorLower parent sibling d) (Among own) := by
  refine (stays_rbSetColor beside _).bind fun _ _ => (stays_rbSetColor upper _).bind fun _ _ =>
    (stays_rbRotate upper d).bind fun t pivot => (stays_entryAt 1).bind fun above place =>
      (stays_link place pivot).bind fun _ _ s held => ?_
  have here : Whenever (entryAt 0) (fun entry s' => s' = s ∧ Among own entry.parent) s := by
    rintro entry s' ⟨⟩
    exact ⟨rfl, held.path _ (Nat.sub_le _ _)⟩
  apply whenever_get
  refine here.bind fun entry s' same => ?_
  obtain ⟨rfl, leads⟩ := same
  exact held.lowerPath leads pivot d (stays_rbChild upper d.flip)

theorem stays_rbRemoveColorRound {p : Ptr ν} (among : Among own p) :
    Stays own before (rbRemoveColorRound p) (Turn.Hands (Among own) (Among own)) := by
  unfold rbRemoveColorRound
  refine (stays_isBlack among).bind fun black _ => preserves_get fun s _ => ?_
  refine preserves_ite (fun _ => ?_) fun _ => preserves_pure among
  refine (stays_entryAt 0).bind fun entry upper => (stays_rbChild upper _).bind fun sibling beside =>
    (stays_rbColor beside).bind fun color _ => ?_
  have rest (sibling : Ptr ν) (beside : Among own sibling) : Stays own before _ _ :=
    stays_rbRemoveColorRest upper beside entry.dir
  exact preserves_ite (fun _ => (stays_rbRemoveColorLower upper beside _).bind rest) fun _ =>
    (preserves_pure beside).bind rest

theorem stays_rbRemoveColor (fuel : Nat) {p : Ptr ν} (among : Among own p) :
    Stays own before (rbRemoveColor fuel p) (fun _ => True) :=
  (preserves_loop (fun _ inside => stays_rbRemoveColorRound inside) fuel among).bind fun q inside => by
    cases q with
    | none => exact preserves_pure trivial
    | some x => exact stays_rbSetColor inside _

/-! ### Removal, search and insertion -/

theorem stays_walkRound (d : Dir) {p : Ptr ν} (among : Among own p) :
    Stays own before (walkRound d p) (Turn.Hands (Among own) (Among own)) :=
  (stays_rbChild among d).bind fun q inside => by
    cases q with
    | none => exact preserves_pure among
    | some x => exact (stays_push among d).bind fun _ _ => preserves_pure inside

def Unlinked.Among (own : Set ν) (unlinked : Unlinked ν) : Prop :=
  Library.Among own unlinked.transplanter ∧ Library.Among own unlinked.replacement

theorem stays_rbTakePlace {p successor : Ptr ν} (among : Among own p) (next : Among own successor)
    (nodeRpe : Nat) : Stays own before (rbTakePlace p successor nodeRpe) (Unlinked.Among own) := by
  unfold rbTakePlace
  refine (stays_rbColor next).bind fun color _ => (stays_rbChild next .right).bind fun child below =>
    (stays_entryAt 0).bind fun entry place => ?_
  have rest : Stays own before (do
      rbCopyLeftChildColor successor p
      writeEntry nodeRpe fun entry => { entry with parent := successor }
      return ⟨successor, child, color⟩) (Unlinked.Among own) :=
    (stays_rbCopyLeftChildColor next among).bind fun _ _ =>
      (stays_writeEntry nodeRpe fun _ _ => next).bind fun _ _ => preserves_pure ⟨next, below⟩
  refine preserves_ite (fun _ => ?_) fun _ => rest
  exact (stays_rbSetChild place _ below).bind fun _ _ => (stays_rbCopyRightChild next among).bind fun _ _ => rest

theorem stays_rbTransplant (fuel : Nat) {p : Ptr ν} (among : Among own p) :
    Stays own before (rbTransplant fuel p) (Unlinked.Among own) :=
  (stays_push among .right).bind fun _ _ => preserves_get fun _ _ => (stays_rbChild among .right).bind fun _ below =>
    (preserves_loop (fun _ inside => stays_walkRound .left inside) fuel below).bind fun _ next =>
      stays_rbTakePlace among next _

theorem stays_rbUnlink (fuel : Nat) {p : Ptr ν} (among : Among own p) :
    Stays own before (rbUnlink fuel p) (Unlinked.Among own) := by
  unfold rbUnlink
  refine (stays_rbColor among).bind fun color _ => (stays_rbChild among .left).bind fun left _ => ?_
  refine preserves_ite (fun _ => (stays_rbChild among .right).bind fun _ only => preserves_pure ⟨only, only⟩) fun _ => ?_
  refine (stays_rbChild among .right).bind fun right _ => ?_
  exact preserves_ite (fun _ => (stays_rbChild among .left).bind fun _ only => preserves_pure ⟨only, only⟩) fun _ =>
    stays_rbTransplant fuel among

theorem stays_rbRemove (fuel : Nat) {p : Ptr ν} (among : Among own p) :
    Stays own before (rbRemove fuel p) (fun _ => True) := by
  unfold rbRemove
  refine (stays_entryAt 0).bind fun entry place => (stays_rbUnlink fuel among).bind fun unlinked inside =>
    (stays_link place inside.1).bind fun _ _ => ?_
  exact preserves_ite (fun _ => stays_rbRemoveColor fuel inside.2) fun _ => preserves_pure trivial

theorem stays_findRound (keyCmp : κ → ν → Int) (key : κ) {p : Ptr ν} (among : Among own p) :
    Stays own before (rbFindRound keyCmp key p) (Turn.Hands (Among own) (Among own)) := by
  cases p with
  | none => exact preserves_pure among_none
  | some x =>
    simp only [rbFindRound]
    split
    · exact preserves_pure among
    · exact (stays_push among _).bind fun _ _ => (stays_rbChild among _).bind fun _ below => preserves_pure below

theorem whenever_rbFind {s : State (Records ν) ν} (enclosed : Enclosed own before s.mem s.root)
    (keyCmp : κ → ν → Int) (fuel : Nat) (key : κ) :
    Whenever (rbFind keyCmp fuel key) (fun p s' => Confined own before s' ∧ Among own p) s :=
  (whenever_rbPathInit enclosed).bind fun _ s' held =>
    preserves_loop (fun _ inside => stays_findRound keyCmp key inside) fuel held.root s' held

theorem whenever_rbRemoveKey {s : State (Records ν) ν} (enclosed : Enclosed own before s.mem s.root)
    (keyCmp : κ → ν → Int) (fuel : Nat) (key : κ) :
    Whenever (rbRemoveKey keyCmp fuel key) (fun _ s' => Confined own before s') s := by
  refine (whenever_rbFind enclosed keyCmp fuel key).bind fun p s' found => ?_
  obtain ⟨held, inside⟩ := found
  cases p with
  | none => exact whenever_pure held
  | some x => exact (stays_rbRemove fuel inside s' held).bind fun _ s'' ends => whenever_pure ends.1

theorem stays_rbInsertRound (cmp : ν → ν → Int) (node : ν) {p : ν} (member : p ∈ own) :
    Stays own before (rbInsertRound cmp node p) (Turn.Hands (· ∈ own) fun _ => True) := by
  unfold rbInsertRound
  split
  · exact preserves_pure trivial
  · refine (stays_push (among_some member) _).bind fun _ _ =>
      (stays_rbChild (among_some member) _).bind fun q below => ?_
    cases q with
    | none => exact preserves_pure trivial
    | some x => exact preserves_pure (below x rfl)

structure Joins (own : Set ν) (before : Records ν) (node : ν) (s : State (Records ν) ν) : Prop where
  outside : ∀ x ∉ insert node own, s.mem x = before x
  links : ∀ x ∈ own, x ≠ node → ∀ d, Among (insert node own) ((s.mem x).child d)
  root : Among (insert node own) s.root
  path : ∀ i ≤ s.rp.cur, Among (insert node own) (s.rp.path i).parent

theorem Joins.whenever_rbInsertNew {node : ν} {s : State (Records ν) ν} (joins : Joins own before node s)
    (fuel : Nat) : Whenever (rbInsertNew fuel node) (fun _ s' => Confined (insert node own) before s') s := by
  apply whenever_modify
  apply whenever_modify
  have others : ∀ x, x ≠ node → NodeMemory.setRightChild
      (NodeMemory.setLeftChildColor s.mem node none .red) node none x = s.mem x := fun x other => by
    show Records.modify (Records.modify _ _ _) _ _ x = _
    simp only [Records.modify, Function.update_of_ne other]
  refine Whenever.bind (stays_rbInsertColor fuel _ ⟨⟨fun x other => ?_, fun x inside d => ?_, joins.root⟩,
    joins.path⟩) fun _ _ ends => whenever_pure ends.1
  · have apart : x ≠ node := fun same => other (.inl same)
    exact (others x apart).trans (joins.outside x other)
  · by_cases new : x = node
    · subst new
      cases d <;> simp [NodeMemory.setRightChild, NodeMemory.setLeftChildColor, Records.modify, RbNode.child,
        among_none]
    · simp only [others x new]
      exact joins.links x (inside.resolve_left new) new d

omit [DecidableEq ν] in
theorem Confined.joins_root {s : State (Records ν) ν} (held : Confined own before s) (node : ν) :
    Joins own before node { s with root := some node } :=
  ⟨fun x other => held.outside x fun member => other (.inr member),
    fun x member _ d => (held.links x member d).mono (Set.subset_insert _ _), among_some (.inl rfl),
    fun i low => (held.path i low).mono (Set.subset_insert _ _)⟩

theorem Confined.joins_child {s : State (Records ν) ν} (held : Confined own before s) {x : ν} (member : x ∈ own)
    (d : Dir) (node : ν) :
    Joins own before node { s with mem := s.mem.modify x fun n => n.setChild (some node) d } := by
  have widens : own ⊆ insert node own := Set.subset_insert _ _
  refine ⟨fun y other => ?_, fun y inside _ e => ?_, held.root.mono widens, fun i low => (held.path i low).mono widens⟩
  · have apart : y ≠ x := fun same => other (.inr (same ▸ member))
    simpa only [Records.modify, Function.update_of_ne apart] using held.outside y fun inside => other (.inr inside)
  · by_cases here : y = x
    · subst here
      simp only [Records.modify, Function.update_self]
      cases d <;> cases e
      · exact among_some (.inl rfl)
      · exact (held.links y member .right).mono widens
      · exact (held.links y member .left).mono widens
      · exact among_some (.inl rfl)
    · simpa only [Records.modify, Function.update_of_ne here] using (held.links y inside e).mono widens

theorem whenever_rbInsert {s : State (Records ν) ν} (enclosed : Enclosed own before s.mem s.root)
    (cmp : ν → ν → Int) (fuel : Nat) (node : ν) :
    Whenever (rbInsert cmp fuel node)
      (fun _ (s' : State (Records ν) ν) => ∀ x ∉ insert node own, s'.mem x = before x) s := by
  refine (whenever_rbPathInit enclosed).bind fun _ s₁ held => ?_
  apply whenever_get
  cases top : s₁.root with
  | none =>
    apply whenever_modify
    exact ((held.joins_root node).whenever_rbInsertNew fuel).mono fun _ _ ends => ends.outside
  | some p =>
    refine (preserves_loop (fun _ inside => stays_rbInsertRound cmp node inside) fuel (held.root p top) s₁ held).bind
      fun turn s₂ ends => ?_
    obtain ⟨held₂, _⟩ := ends
    cases turn with
    | inl ent => exact whenever_pure fun x other => held₂.outside x fun member => other (.inr member)
    | inr dir =>
      refine (stays_entryAt 0 s₂ held₂).bind fun entry s₃ reached => ?_
      obtain ⟨held₃, leads⟩ := reached
      cases parent : entry.parent with
      | none => exact nofun
      | some f =>
        apply whenever_modify
        exact ((held₃.joins_child (leads f parent) dir node).whenever_rbInsertNew fuel).mono fun _ _ ends =>
          ends.outside

end Embedlib.RbtreeCompact
