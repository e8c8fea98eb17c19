import Embedlib.RbtreeCompact.Words
import Embedlib.Library.Simulation

/-! Every operation on raw words does what it does on records, and words that
hold nothing but a record stay such words. -/

set_option autoImplicit false

namespace Embedlib.RbtreeCompact

open Library Rb

variable {ν κ α : Type} {w : Nat}

def State.records {layout : Layout ν w} (s : State (Words layout) ν) : State (Records ν) ν :=
  ⟨s.mem.records, s.root, s.rp, s.written⟩

def ExactOn {layout : Layout ν w} (xs : List ν) (s : State (Words layout) ν) : Prop := ∀ x ∈ xs, s.mem.Exact x

/-- On raw words the program does what it does on records, and keeps the words of `xs` exact. -/
abbrev Agrees (layout : Layout ν w) (xs : List ν) (raw : Program (State (Words layout) ν) α)
    (record : Program (State (Records ν) ν) α) : Prop :=
  Simulates State.records (ExactOn xs) raw record

variable {layout : Layout ν w} {xs : List ν}

/-! ### Accessors and the path -/

theorem agrees_deref (p : Ptr ν) : Agrees layout xs (deref p) (deref p) := by
  cases p with
  | none => exact simulates_fault _
  | some x => exact simulates_pure x

theorem agrees_setRoot (p : Ptr ν) : Agrees layout xs (setRoot p) (setRoot p) :=
  simulates_modify (fun _ => rfl) fun _ exact => exact

theorem agrees_entryAt (back : Nat) : Agrees layout xs (entryAt back) (entryAt back) :=
  simulates_get fun _ => simulates_ite (simulates_pure _) (simulates_fault _)

theorem agrees_writeEntry (i : Nat) (change : PathEntry ν → PathEntry ν) :
    Agrees layout xs (writeEntry i change) (writeEntry i change) :=
  simulates_modify (fun _ => rfl) fun _ exact => exact

theorem agrees_advance : Agrees layout xs advance advance :=
  simulates_modify (fun _ => rfl) fun _ exact => exact

theorem agrees_retreat (n : Nat) : Agrees layout xs (retreat n) (retreat n) :=
  simulates_get fun _ => simulates_ite (simulates_modify (fun _ => rfl) fun _ exact => exact) (simulates_fault _)

theorem agrees_push (p : Ptr ν) (d : Dir) : Agrees layout xs (push p d) (push p d) :=
  agrees_advance.bind fun _ => simulates_get fun _ =>
    (agrees_writeEntry _ _).bind fun _ => agrees_writeEntry _ _

theorem agrees_rbPathInit : Agrees layout xs rbPathInit rbPathInit :=
  .bind (simulates_modify (fun _ => rfl) fun _ exact => exact) fun _ => agrees_writeEntry _ _

variable [DecidableEq ν]

theorem agrees_rbChild (p : Ptr ν) (d : Dir) : Agrees layout xs (rbChild p d) (rbChild p d) :=
  (agrees_deref p).bind fun _ => simulates_get fun _ => by
    rw [words_child]
    exact simulates_pure _

theorem agrees_rbColor (p : Ptr ν) : Agrees layout xs (rbColor p) (rbColor p) :=
  (agrees_deref p).bind fun _ => simulates_get fun _ => simulates_pure _

omit [DecidableEq ν] in
theorem agrees_write (change : Words layout → Words layout) (change' : Records ν → Records ν)
    (same : ∀ mem, (change mem).records = change' mem.records)
    (kept : ∀ mem y, mem.Exact y → (change mem).Exact y) :
    Agrees layout xs (modify fun s => { s with mem := change s.mem } : Program _ PUnit)
      (modify fun s => { s with mem := change' s.mem }) := by
  refine simulates_modify (fun s => ?_) fun s exact x member => kept s.mem x (exact x member)
  simp only [State.records, same]

theorem agrees_rbSetChild (p : Ptr ν) (d : Dir) (q : Ptr ν) :
    Agrees layout xs (rbSetChild p d q) (rbSetChild p d q) :=
  (agrees_deref p).bind fun x => agrees_write (NodeMemory.setChild · x d q) (NodeMemory.setChild · x d q)
    (fun _ => words_setChild d q) fun _ _ exact => exact_setChild exact d q

theorem agrees_rbSetColor (p : Ptr ν) (c : Color) : Agrees layout xs (rbSetColor p c) (rbSetColor p c) :=
  (agrees_deref p).bind fun x => agrees_write (NodeMemory.setColor · x c) (NodeMemory.setColor · x c)
    (fun _ => words_setColor c) fun _ _ exact => exact_setColor exact c

theorem agrees_rbCopyLeftChildColor (p : Ptr ν) {x : ν} (member : x ∈ xs) :
    Agrees layout xs (rbCopyLeftChildColor p (some x)) (rbCopyLeftChildColor p (some x)) :=
  (agrees_deref p).bind fun y => by
    refine simulates_modify (fun s => ?_) fun s exact z inside =>
      exact_copyLeftChildColor (exact z inside) (exact x member)
    simp only [State.records, words_copyLeftChildColor]

theorem agrees_rbCopyRightChild (p : Ptr ν) {x : ν} (member : x ∈ xs) :
    Agrees layout xs (rbCopyRightChild p (some x)) (rbCopyRightChild p (some x)) :=
  (agrees_deref p).bind fun y => by
    refine simulates_modify (fun s => ?_) fun s exact z inside =>
      exact_copyRightChild (exact z inside) (exact x member)
    simp only [State.records, words_copyRightChild]

theorem agrees_isRed (p : Ptr ν) : Agrees layout xs (isRed p) (isRed p) := by
  cases p with
  | none => exact simulates_pure false
  | some x => exact (agrees_rbColor (some x)).bind fun c => simulates_pure _

theorem agrees_isBlack (p : Ptr ν) : Agrees layout xs (isBlack p) (isBlack p) := by
  cases p with
  | none => exact simulates_pure true
  | some x => exact (agrees_rbColor (some x)).bind fun c => simulates_pure _

theorem agrees_link (entry : PathEntry ν) (p : Ptr ν) : Agrees layout xs (link entry p) (link entry p) := by
  unfold link
  split
  · exact agrees_rbSetChild _ _ _
  · exact agrees_setRoot p

/-! ### Rotations and fix-ups -/

theorem agrees_rbRotate (p : Ptr ν) (d : Dir) : Agrees layout xs (rbRotate p d) (rbRotate p d) :=
  (agrees_rbChild p d.flip).bind fun pivot => (agrees_rbChild pivot d).bind fun _ =>
    (agrees_rbSetChild _ _ _).bind fun _ => (agrees_rbSetChild _ _ _).bind fun _ => simulates_pure pivot

theorem agrees_rbInsertColorLast (parent gparent : Ptr ν) (d : Dir) :
    Agrees layout xs (rbInsertColorLast parent gparent d) (rbInsertColorLast parent gparent d) := by
  unfold rbInsertColorLast
  have rest (parent : Ptr ν) : Agrees layout xs _ _ :=
    (agrees_rbSetColor parent .black).bind fun _ => (agrees_rbSetColor gparent .red).bind fun _ =>
      (agrees_rbRotate gparent d.flip).bind fun t => (agrees_entryAt 2).bind fun entry =>
        (agrees_link entry t).bind fun _ => simulates_pure (Turn.leave () : Turn Unit Unit)
  refine (agrees_entryAt 0).bind fun entry => simulates_ite ?_ ((simulates_pure parent).bind rest)
  exact (agrees_rbRotate _ _).bind fun pivot => (agrees_rbSetChild _ _ _).bind fun _ =>
    (simulates_pure pivot).bind rest

theorem agrees_rbInsertColorRound (turn : Unit) :
    Agrees layout xs (rbInsertColorRound turn) (rbInsertColorRound turn) := by
  unfold rbInsertColorRound
  apply (agrees_entryAt 0).bind
  intro entry
  apply (agrees_isRed _).bind
  intro red
  refine simulates_ite ?_ (simulates_pure _)
  refine (agrees_entryAt 1).bind fun upper => (agrees_rbChild _ _).bind fun uncle => (agrees_isRed _).bind fun red => ?_
  refine simulates_ite ?_ (agrees_rbInsertColorLast _ _ _)
  exact (agrees_rbSetColor _ _).bind fun _ => (agrees_rbSetColor _ _).bind fun _ =>
    (agrees_rbSetColor _ _).bind fun _ => (agrees_retreat 2).bind fun _ => simulates_pure _

theorem agrees_rbInsertColor (fuel : Nat) : Agrees layout xs (rbInsertColor fuel) (rbInsertColor fuel) :=
  (simulates_loop agrees_rbInsertColorRound fuel ()).bind fun _ => simulates_get fun _ => agrees_rbSetColor _ _

theorem agrees_rbRemoveColorLast (parent sibling nibling : Ptr ν) (d : Dir) :
    Agrees layout xs (rbRemoveColorLast parent sibling nibling d)
      (rbRemoveColorLast parent sibling nibling d) :=
  (agrees_rbColor _).bind fun _ => (agrees_rbSetColor _ _).bind fun _ => (agrees_rbSetColor _ _).bind fun _ =>
    (agrees_rbSetColor _ _).bind fun _ => (agrees_rbRotate _ _).bind fun _ => (agrees_entryAt 1).bind fun _ =>
      (agrees_link _ _).bind fun _ => simulates_get fun _ => simulates_pure _

theorem agrees_rbRemoveColorRest (parent sibling : Ptr ν) (d : Dir) :
    Agrees layout xs (rbRemoveColorRest parent sibling d) (rbRemoveColorRest parent sibling d) := by
  unfold rbRemoveColorRest
  refine (agrees_rbChild _ _).bind fun outer => (agrees_isBlack _).bind fun black => ?_
  refine simulates_ite ?_ (agrees_rbRemoveColorLast _ _ _ _)
  refine (agrees_rbChild _ _).bind fun inner => (agrees_isBlack _).bind fun black => simulates_ite ?_ ?_
  · exact (agrees_rbSetColor _ _).bind fun _ => (agrees_retreat 1).bind fun _ => simulates_pure _
  · exact (agrees_rbSetColor _ _).bind fun _ => (agrees_rbSetColor _ _).bind fun _ =>
      (agrees_rbRotate _ _).bind fun _ => (agrees_rbSetChild _ _ _).bind fun _ =>
        agrees_rbRemoveColorLast _ _ _ _

theorem agrees_rbRemoveColorLower (parent sibling : Ptr ν) (d : Dir) :
    Agrees layout xs (rbRemoveColorLower parent sibling d) (rbRemoveColorLower parent sibling d) :=
  (agrees_rbSetColor _ _).bind fun _ => (agrees_rbSetColor _ _).bind fun _ => (agrees_rbRotate _ _).bind fun _ =>
    (agrees_entryAt 1).bind fun _ => (agrees_link _ _).bind fun _ => simulates_get fun _ =>
      (agrees_entryAt 0).bind fun _ => (agrees_writeEntry _ _).bind fun _ => (agrees_writeEntry _ _).bind fun _ =>
        (agrees_writeEntry _ _).bind fun _ => agrees_advance.bind fun _ => agrees_rbChild _ _

theorem agrees_rbRemoveColorRound (p : Ptr ν) :
    Agrees layout xs (rbRemoveColorRound p) (rbRemoveColorRound p) := by
  unfold rbRemoveColorRound
  refine (agrees_isBlack p).bind fun black => simulates_get fun s => simulates_ite ?_ (simulates_pure _)
  refine (agrees_entryAt 0).bind fun entry => (agrees_rbChild _ _).bind fun sibling =>
    (agrees_rbColor _).bind fun color => ?_
  have rest (sibling : Ptr ν) : Agrees layout xs _ _ :=
    agrees_rbRemoveColorRest entry.parent sibling entry.dir
  exact simulates_ite ((agrees_rbRemoveColorLower _ _ _).bind rest) ((simulates_pure sibling).bind rest)

theorem agrees_rbRemoveColor (fuel : Nat) (p : Ptr ν) :
    Agrees layout xs (rbRemoveColor fuel p) (rbRemoveColor fuel p) :=
  (simulates_loop agrees_rbRemoveColorRound fuel p).bind fun q => by
    cases q with
    | none => exact simulates_pure ()
    | some x => exact agrees_rbSetColor _ _

/-! ### Removal, search and insertion -/

theorem agrees_walkRound (d : Dir) (p : Ptr ν) : Agrees layout xs (walkRound d p) (walkRound d p) :=
  (agrees_rbChild p d).bind fun q => by
    cases q with
    | none => exact simulates_pure _
    | some x => exact (agrees_push _ _).bind fun _ => simulates_pure _

theorem agrees_rbTakePlace {x : ν} (member : x ∈ xs) (successor : Ptr ν) (nodeRpe : Nat) :
    Agrees layout xs (rbTakePlace (some x) successor nodeRpe) (rbTakePlace (some x) successor nodeRpe) := by
  unfold rbTakePlace
  refine (agrees_rbColor _).bind fun color => (agrees_rbChild _ _).bind fun child => (agrees_entryAt 0).bind fun entry => ?_
  have rest : Agrees layout xs _ _ := (agrees_rbCopyLeftChildColor successor member).bind fun _ =>
    (agrees_writeEntry nodeRpe fun entry => { entry with parent := successor }).bind fun _ =>
      simulates_pure (⟨successor, child, color⟩ : Unlinked ν)
  split
  · exact (agrees_rbSetChild _ _ _).bind fun _ => (agrees_rbCopyRightChild _ member).bind fun _ => rest
  · exact rest

theorem agrees_rbTransplant (fuel : Nat) {x : ν} (member : x ∈ xs) :
    Agrees layout xs (rbTransplant fuel (some x)) (rbTransplant fuel (some x)) :=
  (agrees_push _ _).bind fun _ => simulates_get fun _ => (agrees_rbChild _ _).bind fun p =>
    (simulates_loop (agrees_walkRound .left) fuel p).bind fun q => agrees_rbTakePlace member q _

theorem agrees_rbUnlink (fuel : Nat) {x : ν} (member : x ∈ xs) :
    Agrees layout xs (rbUnlink fuel (some x)) (rbUnlink fuel (some x)) := by
  unfold rbUnlink
  refine (agrees_rbColor _).bind fun color => (agrees_rbChild _ _).bind fun left => ?_
  refine simulates_ite ((agrees_rbChild _ _).bind fun _ => simulates_pure _) ?_
  apply (agrees_rbChild _ _).bind
  intro right
  exact simulates_ite ((agrees_rbChild _ _).bind fun _ => simulates_pure _) (agrees_rbTransplant fuel member)

theorem agrees_rbRemove (fuel : Nat) {x : ν} (member : x ∈ xs) :
    Agrees layout xs (rbRemove fuel (some x)) (rbRemove fuel (some x)) := by
  unfold rbRemove
  refine (agrees_entryAt 0).bind fun entry => (agrees_rbUnlink fuel member).bind fun unlinked => ?_
  apply (agrees_link _ _).bind
  intro _
  -- The fix-up only goes through the accessors.
  split
  · exact agrees_rbRemoveColor fuel _
  · exact simulates_pure ()

theorem agrees_rbFind (keyCmp : κ → ν → Int) (fuel : Nat) (key : κ) :
    Agrees layout xs (rbFind keyCmp fuel key) (rbFind keyCmp fuel key) := by
  refine agrees_rbPathInit.bind fun _ => simulates_get fun s => simulates_loop (fun p => ?_) fuel _
  cases p with
  | none => exact simulates_pure _
  | some x =>
    simp only [rbFindRound]
    split
    · exact simulates_pure _
    · exact (agrees_push _ _).bind fun _ => (agrees_rbChild _ _).bind fun _ => simulates_pure _

theorem agrees_rbInsertRound (cmp : ν → ν → Int) (node p : ν) :
    Agrees layout xs (rbInsertRound cmp node p) (rbInsertRound cmp node p) := by
  unfold rbInsertRound
  split
  · exact simulates_pure _
  · refine (agrees_push _ _).bind fun _ => (agrees_rbChild _ _).bind fun q => ?_
    cases q with
    | none => exact simulates_pure _
    | some y => exact simulates_pure _

theorem tracks_rbInsertNew {s : State (Words layout) ν} {node : ν} {fuel : Nat} (exact : ExactOn xs s) :
    Tracks State.records (rbInsertNew fuel node) (rbInsertNew fuel node)
      (fun _ s' => ExactOn (node :: xs) s') s := by
  have left : Tracks State.records (rbSetLeftChildColor (some node) none .red)
      (rbSetLeftChildColor (some node) none .red)
      (fun _ s' => s' = { s with mem := NodeMemory.setLeftChildColor s.mem node none .red }) s := by
    rintro _ _ ⟨⟩
    refine ⟨_, rfl, ?_, rfl⟩
    simp only [State.records, words_setLeftChildColor]
  apply left.bind
  rintro _ _ rfl
  have right : Tracks State.records (rbSetRightChild (some node) none) (rbSetRightChild (some node) none)
      (fun _ s' => ExactOn (node :: xs) s')
      { s with mem := NodeMemory.setLeftChildColor s.mem node none .red } := by
    rintro _ _ ⟨⟩
    refine ⟨_, rfl, ?_, ?_⟩
    · simp only [State.records, words_setRightChild]
    · refine List.forall_mem_cons.mpr ⟨exact_new s.mem node none none .red, fun x member => ?_⟩
      exact exact_setRightChild (exact_setLeftChildColor (exact x member) none .red) none
  apply right.bind
  intro _ s' exact'
  exact Tracks.bind (agrees_rbInsertColor fuel s' exact') fun _ _ kept => tracks_pure kept

theorem agrees_rbInsertNew (fuel : Nat) (node : ν) :
    Agrees layout xs (rbInsertNew fuel node) (rbInsertNew fuel node) :=
  fun _ exact => (tracks_rbInsertNew exact).mono fun _ _ kept x member => kept x (List.mem_cons_of_mem _ member)

theorem agrees_rbInsert (cmp : ν → ν → Int) (fuel : Nat) (node : ν) :
    Agrees layout xs (rbInsert cmp fuel node) (rbInsert cmp fuel node) := by
  unfold rbInsert
  refine agrees_rbPathInit.bind fun _ => simulates_get fun s => ?_
  have same : s.records.root = s.root := rfl
  simp only [same]
  cases s.root with
  | none => exact (agrees_setRoot _).bind fun _ => agrees_rbInsertNew fuel node
  | some p =>
    apply (simulates_loop (agrees_rbInsertRound cmp node) fuel p).bind
    intro turn
    cases turn with
    | inl ent => exact simulates_pure _
    | inr d =>
      exact (agrees_entryAt 0).bind fun entry => (agrees_rbSetChild _ _ _).bind fun _ =>
        agrees_rbInsertNew fuel node

end Embedlib.RbtreeCompact
