import Embedlib.Rbtree.WordOperations

/-! Every operation on raw words does what it does on records, and exact words stay exact. -/

set_option autoImplicit false

namespace Embedlib.Rbtree.Tagged

open Library Rb
open RbtreeCompact (Layout)

variable {ν κ : Type} {w : Nat} {layout : Layout ν w} {xs : List ν} [DecidableEq ν]

omit [DecidableEq ν] in
theorem agrees_isRed (p : Ptr ν) : Agrees layout xs (isRed p) (Rbtree.isRed p) := by
  cases p with
  | none => exact simulates_pure false
  | some x => exact (agrees_rbColor (some x)).bind fun c => simulates_pure _

omit [DecidableEq ν] in
theorem agrees_isBlack (p : Ptr ν) : Agrees layout xs (isBlack p) (Rbtree.isBlack p) := by
  cases p with
  | none => exact simulates_pure true
  | some x => exact (agrees_rbColor (some x)).bind fun c => simulates_pure _

theorem agrees_adopt (p parent : Ptr ν) : Agrees layout xs (adopt p parent) (Rbtree.adopt p parent) := by
  cases p with
  | none => exact simulates_pure ()
  | some x => exact agrees_rbSetParent _ _

theorem agrees_childDir (parent : Ptr ν) (d : Dir) (child : Ptr ν) :
    Agrees layout xs (childDir parent d child) (Rbtree.childDir parent d child) :=
  (agrees_rbChild parent d).bind fun _ => simulates_pure _

/-! ### Rotations and fix-ups -/

theorem agrees_rbRotate (p : Ptr ν) (d : Dir) : Agrees layout xs (rbRotate p d) (Rbtree.rbRotate p d) := by
  unfold rbRotate Rbtree.rbRotate
  refine (agrees_rbChild p d.flip).bind fun pivot => (agrees_rbChild pivot d).bind fun inner =>
    (agrees_rbSetChild p d.flip inner).bind fun _ => (agrees_rbChild pivot d).bind fun inner =>
      (agrees_adopt inner p).bind fun _ => (agrees_rbParent p).bind fun above =>
        (agrees_rbSetParent pivot above).bind fun _ => ?_
  have last : Agrees layout xs _ _ := (agrees_rbSetChild pivot d p).bind fun _ => agrees_rbSetParent p pivot
  cases above with
  | none => exact (agrees_setRoot pivot).bind fun _ => last
  | some q =>
    exact (agrees_childDir (some q) d p).bind fun e => (agrees_rbSetChild (some q) e pivot).bind fun _ => last

theorem agrees_rbInsertColorLast (node parent gparent : Ptr ν) (d : Dir) :
    Agrees layout xs (rbInsertColorLast node parent gparent d) (Rbtree.rbInsertColorLast node parent gparent d) := by
  unfold rbInsertColorLast Rbtree.rbInsertColorLast
  have rest (both : Ptr ν × Ptr ν) : Agrees layout xs _ _ :=
    (agrees_rbSetColor both.2 .black).bind fun _ => (agrees_rbSetColor gparent .red).bind fun _ =>
      (agrees_rbRotate gparent d.flip).bind fun _ => simulates_pure (Turn.again both.1 : Turn (Ptr ν) Unit)
  refine (agrees_rbChild parent d.flip).bind fun inner => simulates_ite ?_ ((simulates_pure _).bind rest)
  exact (agrees_rbRotate parent d).bind fun _ => (simulates_pure (parent, node)).bind rest

theorem agrees_rbInsertColorRound (node : Ptr ν) :
    Agrees layout xs (rbInsertColorRound node) (Rbtree.rbInsertColorRound node) := by
  unfold rbInsertColorRound Rbtree.rbInsertColorRound
  refine (agrees_rbParent node).bind fun parent => (agrees_isRed parent).bind fun red =>
    simulates_ite ?_ (simulates_pure _)
  refine (agrees_rbParent parent).bind fun gparent => (agrees_childDir gparent .left parent).bind fun d =>
    (agrees_rbChild gparent d.flip).bind fun uncle => (agrees_isRed uncle).bind fun red =>
      simulates_ite ?_ (agrees_rbInsertColorLast _ _ _ _)
  exact (agrees_rbSetColor parent .black).bind fun _ => (agrees_rbSetColor uncle .black).bind fun _ =>
    (agrees_rbSetColor gparent .red).bind fun _ => simulates_pure _

theorem agrees_rbInsertColor (fuel : Nat) (node : Ptr ν) :
    Agrees layout xs (rbInsertColor fuel node) (Rbtree.rbInsertColor fuel node) :=
  (simulates_loop agrees_rbInsertColorRound fuel node).bind fun _ => simulates_get fun s =>
    agrees_rbSetColor s.root .black

theorem agrees_rbRemoveColorLast (parent sibling : Ptr ν) (d : Dir) :
    Agrees layout xs (rbRemoveColorLast parent sibling d) (Rbtree.rbRemoveColorLast parent sibling d) :=
  (agrees_rbColor parent).bind fun c => (agrees_rbSetColor sibling c).bind fun _ =>
    (agrees_rbSetColor parent .black).bind fun _ => (agrees_rbChild sibling d.flip).bind fun outer =>
      (agrees_rbSetColor outer .black).bind fun _ => (agrees_rbRotate parent d).bind fun _ =>
        simulates_get fun _ => simulates_pure _

theorem agrees_rbRemoveColorRest (parent sibling : Ptr ν) (d : Dir) :
    Agrees layout xs (rbRemoveColorRest parent sibling d) (Rbtree.rbRemoveColorRest parent sibling d) := by
  unfold rbRemoveColorRest Rbtree.rbRemoveColorRest
  refine (agrees_rbChild sibling d.flip).bind fun outer => (agrees_isBlack outer).bind fun black =>
    simulates_ite ?_ (agrees_rbRemoveColorLast _ _ _)
  refine (agrees_rbChild sibling d).bind fun inner => (agrees_isBlack inner).bind fun black => simulates_ite ?_ ?_
  · exact (agrees_rbSetColor sibling .red).bind fun _ => (agrees_rbParent parent).bind fun _ => simulates_pure _
  · exact (agrees_rbChild sibling d).bind fun inner => (agrees_rbSetColor inner .black).bind fun _ =>
      (agrees_rbSetColor sibling .red).bind fun _ => (agrees_rbRotate sibling d.flip).bind fun _ =>
        (agrees_rbChild parent d.flip).bind fun sibling => agrees_rbRemoveColorLast parent sibling d

theorem agrees_rbRemoveColorLower (parent sibling : Ptr ν) (d : Dir) :
    Agrees layout xs (rbRemoveColorLower parent sibling d) (Rbtree.rbRemoveColorLower parent sibling d) :=
  (agrees_rbSetColor sibling .black).bind fun _ => (agrees_rbSetColor parent .red).bind fun _ =>
    (agrees_rbRotate parent d).bind fun _ => agrees_rbChild parent d.flip

theorem agrees_rbRemoveColorRound (both : Ptr ν × Ptr ν) :
    Agrees layout xs (rbRemoveColorRound both) (Rbtree.rbRemoveColorRound both) := by
  obtain ⟨parent, node⟩ := both
  unfold rbRemoveColorRound Rbtree.rbRemoveColorRound
  refine (agrees_isBlack node).bind fun black => simulates_get fun s => simulates_ite ?_ (simulates_pure _)
  refine (agrees_childDir parent .left node).bind fun d => (agrees_rbChild parent d.flip).bind fun sibling =>
    (agrees_rbColor sibling).bind fun c => ?_
  have rest (sibling : Ptr ν) : Agrees layout xs _ _ := agrees_rbRemoveColorRest parent sibling d
  exact simulates_ite ((agrees_rbRemoveColorLower parent sibling d).bind rest) ((simulates_pure sibling).bind rest)

theorem agrees_rbRemoveColor (fuel : Nat) (parent node : Ptr ν) :
    Agrees layout xs (rbRemoveColor fuel parent node) (Rbtree.rbRemoveColor fuel parent node) :=
  (simulates_loop agrees_rbRemoveColorRound fuel (parent, node)).bind fun q => by
    cases q with
    | none => exact simulates_pure ()
    | some x => exact agrees_rbSetColor _ _

/-! ### Removal, walks and search -/

theorem agrees_rbChangeChild (parent old new : Ptr ν) :
    Agrees layout xs (rbChangeChild parent old new) (Rbtree.rbChangeChild parent old new) :=
  (agrees_childDir parent .left old).bind fun d => agrees_rbSetChild parent d new

theorem agrees_link (parent old new : Ptr ν) : Agrees layout xs (link parent old new) (Rbtree.link parent old new) := by
  cases parent with
  | none => exact agrees_setRoot new
  | some q => exact agrees_rbChangeChild _ _ _

omit [DecidableEq ν] in
theorem agrees_walkRound (d : Dir) (p : Ptr ν) : Agrees layout xs (walkRound d p) (Rbtree.walkRound d p) :=
  (agrees_rbChild p d).bind fun q => by
    cases q with
    | none => exact simulates_pure _
    | some x => exact simulates_pure _

theorem agrees_rbTakePlace {x : ν} (member : x ∈ xs) (successor : Ptr ν) :
    Agrees layout xs (rbTakePlace (some x) successor) (Rbtree.rbTakePlace (some x) successor) := by
  unfold rbTakePlace Rbtree.rbTakePlace
  refine (agrees_rbColor successor).bind fun c => (agrees_rbChild successor .right).bind fun child =>
    (agrees_rbParent successor).bind fun parent => ?_
  have rest (parent : Ptr ν) : Agrees layout xs _ _ :=
    (agrees_rbChild (some x) .left).bind fun left => (agrees_rbSetChild successor .left left).bind fun _ =>
      (agrees_rbChild (some x) .left).bind fun left => (agrees_rbSetParent left successor).bind fun _ =>
        (agrees_copyParentColor successor member).bind fun _ =>
          simulates_pure (⟨successor, child, parent, c⟩ : Unlinked ν)
  refine simulates_ite ?_ ((simulates_pure _).bind rest)
  exact (agrees_rbChangeChild parent successor child).bind fun _ => (agrees_adopt child parent).bind fun _ =>
    (agrees_rbChild (some x) .right).bind fun right => (agrees_rbSetChild successor .right right).bind fun _ =>
      (agrees_rbChild (some x) .right).bind fun right => (agrees_rbSetParent right successor).bind fun _ =>
        (simulates_pure parent).bind rest

theorem agrees_rbUnlink (fuel : Nat) {x : ν} (member : x ∈ xs) :
    Agrees layout xs (rbUnlink fuel (some x)) (Rbtree.rbUnlink fuel (some x)) := by
  unfold rbUnlink Rbtree.rbUnlink
  refine (agrees_rbParent (some x)).bind fun parent => (agrees_rbColor (some x)).bind fun c =>
    (agrees_rbChild (some x) .left).bind fun left => simulates_ite ?_ ?_
  · exact (agrees_rbChild (some x) .right).bind fun only => (agrees_adopt only parent).bind fun _ => simulates_pure _
  · refine (agrees_rbChild (some x) .right).bind fun right => simulates_ite ?_ ?_
    · exact (agrees_rbChild (some x) .left).bind fun only => (agrees_rbSetParent only parent).bind fun _ =>
        simulates_pure _
    · exact (agrees_rbChild (some x) .right).bind fun below =>
        (simulates_loop (agrees_walkRound .left) fuel below).bind fun next => agrees_rbTakePlace member next

theorem agrees_rbRemove (fuel : Nat) {x : ν} (member : x ∈ xs) :
    Agrees layout xs (rbRemove fuel (some x)) (Rbtree.rbRemove fuel (some x)) := by
  unfold rbRemove Rbtree.rbRemove
  exact (agrees_rbParent (some x)).bind fun parent => (agrees_rbUnlink fuel member).bind fun unlinked =>
    (agrees_link _ _ _).bind fun _ => simulates_ite (agrees_rbRemoveColor fuel _ _) (simulates_pure ())

omit [DecidableEq ν] in
theorem agrees_rbIter (fuel : Nat) (d : Dir) : Agrees layout xs (rbIter fuel d) (Rbtree.rbIter fuel d) := by
  unfold rbIter Rbtree.rbIter
  refine simulates_get fun s => ?_
  have same : s.records.root = s.root := rfl
  rw [same]
  cases s.root with
  | none => exact simulates_pure none
  | some p => exact simulates_loop (agrees_walkRound d) fuel (some p)

theorem agrees_climbRound (d : Dir) (p : Ptr ν) : Agrees layout xs (climbRound d p) (Rbtree.climbRound d p) :=
  (agrees_rbParent p).bind fun q => by
    cases q with
    | none => exact simulates_pure _
    | some y => exact (agrees_rbChild (some y) d).bind fun child => simulates_ite (simulates_pure _) (simulates_pure _)

theorem agrees_rbIterNext (fuel : Nat) (p : Ptr ν) (d : Dir) :
    Agrees layout xs (rbIterNext fuel p d) (Rbtree.rbIterNext fuel p d) := by
  cases p with
  | none => exact simulates_pure none
  | some x =>
    refine (agrees_rbChild (some x) d).bind fun q => ?_
    cases q with
    | none => exact simulates_loop (agrees_climbRound d) fuel (some x)
    | some y => exact simulates_loop (agrees_walkRound d.flip) fuel (some y)

omit [DecidableEq ν] in
theorem agrees_rbFindRound (keyCmp : κ → ν → Int) (key : κ) (p : Ptr ν) :
    Agrees layout xs (rbFindRound keyCmp key p) (Rbtree.rbFindRound keyCmp key p) := by
  cases p with
  | none => exact simulates_pure _
  | some x =>
    simp only [rbFindRound, Rbtree.rbFindRound]
    cases sideOf (keyCmp key x) with
    | none => exact simulates_pure _
    | some d => exact (agrees_rbChild (some x) d).bind fun _ => simulates_pure _

omit [DecidableEq ν] in
theorem agrees_rbFind (keyCmp : κ → ν → Int) (fuel : Nat) (key : κ) :
    Agrees layout xs (rbFind keyCmp fuel key) (Rbtree.rbFind keyCmp fuel key) :=
  simulates_get fun s => simulates_loop (agrees_rbFindRound keyCmp key) fuel s.root

/-! ### Insertion -/

omit [DecidableEq ν] in
theorem agrees_rbInsertRound (cmp : ν → ν → Int) (node p : ν) :
    Agrees layout xs (rbInsertRound cmp node p) (Rbtree.rbInsertRound cmp node p) := by
  unfold rbInsertRound Rbtree.rbInsertRound
  cases sideOf (cmp node p) with
  | none => exact simulates_pure _
  | some d =>
    refine (agrees_rbChild (some p) d).bind fun q => ?_
    cases q with
    | none => exact simulates_pure _
    | some x => exact simulates_pure _

theorem tracks_rbInsertNew {s : State layout} (exact : ExactOn xs s) (fuel : Nat) (parent : Ptr ν) (node : ν) :
    Tracks State.records (rbInsertNew fuel parent node) (Rbtree.rbInsertNew fuel parent node)
      (fun _ s' => ExactOn (node :: xs) s') s := by
  have written : Tracks State.records (rbSetParentColor (some node) parent .red)
      (Rbtree.rbSetParentColor (some node) parent .red) (fun _ s' => ExactOn (node :: xs) s') s := by
    intro result final ran
    obtain ⟨s', ran', same, exact'⟩ := agrees_rbSetParentColor (some node) parent .red s exact result final ran
    refine ⟨s', ran', same, List.forall_mem_cons.mpr ⟨?_, exact'⟩⟩
    cases ran'
    simp only [Function.update_self, RbtreeCompact.colorBit_low]
    exact exact_word node (s.mem node) parent .red
  exact written.bind fun _ s' exact' =>
    ((agrees_rbSetChild (some node) .left none).bind fun _ => (agrees_rbSetChild (some node) .right none).bind fun _ =>
      (agrees_rbInsertColor fuel (some node)).bind fun _ => simulates_pure (some node)) s' exact'

theorem agrees_rbInsertNew (fuel : Nat) (parent : Ptr ν) (node : ν) :
    Agrees layout xs (rbInsertNew fuel parent node) (Rbtree.rbInsertNew fuel parent node) :=
  fun _ exact => (tracks_rbInsertNew exact fuel parent node).mono fun _ _ kept x member =>
    kept x (List.mem_cons_of_mem _ member)

theorem agrees_rbInsert (cmp : ν → ν → Int) (fuel : Nat) (node : ν) :
    Agrees layout xs (rbInsert cmp fuel node) (Rbtree.rbInsert cmp fuel node) := by
  unfold rbInsert Rbtree.rbInsert
  refine simulates_get fun s => ?_
  have same : s.records.root = s.root := rfl
  rw [same]
  cases s.root with
  | none => exact (agrees_setRoot _).bind fun _ => agrees_rbInsertNew fuel none node
  | some p =>
    refine (simulates_loop (agrees_rbInsertRound cmp node) fuel p).bind fun turn => ?_
    cases turn with
    | inl ent => exact simulates_pure _
    | inr found => exact (agrees_rbSetChild _ _ _).bind fun _ => agrees_rbInsertNew fuel _ node

end Embedlib.Rbtree.Tagged
