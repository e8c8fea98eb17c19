import Embedlib.ArrayUtils.QueueRuns

/-! The iterator of a queue as the focus of a list cursor. -/

set_option autoImplicit false

namespace Embedlib.ArrayUtils.ArrayQueue

open Library

variable {α : Type} {w : Nat}

/-- What may happen while an iterator is in use. -/
inductive Move (α : Type) where
  | next
  | remove
  | enqueue (data : α)
  | dequeue (data : α)
  deriving DecidableEq, Repr

def move (iter : Nat) : Move α → Program (Queue α w) (Option Nat)
  | .next => queueIterNext iter
  | .remove => queueIterRemove iter
  | .enqueue data => do
    let _ ← enqueue data
    return some iter
  | .dequeue data => do
    let _ ← dequeue data
    return some iter

/-- The moves of a list one after the other, as long as the iterator is not `END`. -/
def walk : Option Nat → List (Move α) → Program (Queue α w) (Option Nat)
  | some iter, first :: rest => do walk (← move iter first) rest
  | iter, _ => return iter

/-- One round of a sweep: `ITER_REMOVE` on an element that satisfies `p`, `ITER_NEXT` on another. -/
def sweepRound (p : α → Bool) :
    Option Nat × List α → Program (Queue α w) (Turn (Option Nat × List α) (List α))
  | (none, visited) => return .leave visited
  | (some iter, visited) => do
    let data ← readSlot iter
    if p data then
      return .again (← queueIterRemove iter, visited ++ [data])
    else
      return .again (← queueIterNext iter, visited ++ [data])

/-- A sweep over the queue. Returns the visited elements. -/
def sweep (p : α → Bool) : Program (Queue α w) (List α) := do
  let iter ← queueIter
  let q ← get
  loop (sweepRound p) (q.len.toNat + 1) (iter, [])

/-- A cursor in a list, or past its end. -/
inductive Position (α : Type) where
  | focus (before : List α) (here : α) (after : List α)
  | ended (list : List α)

namespace Position

def start : List α → Position α
  | [] => ended []
  | x :: rest => focus [] x rest

def enter (before : List α) : List α → Position α
  | [] => ended before
  | x :: after => focus before x after

def move (capacity : Nat) : Position α → Move α → Position α
  | focus before x after, .next => enter (before ++ [x]) after
  | focus before _ after, .remove => enter before after
  | focus before x after, .enqueue data =>
    if (before ++ x :: after).length < capacity then focus before x (after ++ [data])
    else focus before x after
  | focus before x after, .dequeue _ => focus before.tail x after
  | ended list, _ => ended list

/-- The cursor is not past the end, and `DEQUEUE` does not take the element under it. -/
def Admits : Position α → Move α → Prop
  | focus before _ _, .dequeue _ => before ≠ []
  | focus _ _ _, _ => True
  | ended _, _ => False

def walk (capacity : Nat) (position : Position α) : List (Move α) → Position α
  | [] => position
  | first :: rest => (position.move capacity first).walk capacity rest

def AdmitsAll (capacity : Nat) (position : Position α) : List (Move α) → Prop
  | [] => True
  | first :: rest => position.Admits first ∧ (position.move capacity first).AdmitsAll capacity rest

end Position

/-- The queue holds the list of the cursor, and the iterator is at its focus. -/
def Points (capacity : Nat) (q : Queue α w) (iter : Option Nat) : Position α → Prop
  | .focus before x after => Represents q ⟨capacity, before ++ x :: after⟩ ∧
    iter = some (q.slot before.length) ∧ q.item (q.slot before.length) = x
  | .ended list => Represents q ⟨capacity, list⟩ ∧ iter = none

section
variable {q : Queue α w} {capacity : Nat} {before after list : List α} {x : α}

theorem Represents.item_slot (represents : Represents q ⟨capacity, before ++ x :: after⟩) :
    q.item (q.slot before.length) = x := by
  have len : q.len.toNat = (before ++ x :: after).length := represents.len_eq
  have inside : before.length < q.len.toNat := by simp [len]
  have contents : q.contents = before ++ x :: after := represents.contents_eq
  rw [Queue.contents, segment_split inside, Nat.zero_add] at contents
  exact (List.cons.inj (List.append_inj contents (by simp)).2).1

theorem Represents.inside (represents : Represents q ⟨capacity, before ++ x :: after⟩) :
    before.length < q.len.toNat := by
  have len : q.len.toNat = (before ++ x :: after).length := represents.len_eq
  simp [len]

theorem Represents.size_pos (represents : Represents q ⟨capacity, before ++ x :: after⟩) : 0 < q.size.toNat :=
  represents.toRing.size_pos represents.inside

theorem Represents.last_iff (represents : Represents q ⟨capacity, before ++ x :: after⟩) :
    before.length + 1 = q.len.toNat ↔ after = [] := by
  have len : q.len.toNat = (before ++ x :: after).length := represents.len_eq
  rw [len, List.length_append, List.length_cons, ← List.length_eq_zero_iff]
  omega

theorem points_enter (represents : Represents q ⟨capacity, before ++ after⟩) :
    Points capacity q (if after = [] then none else some (q.slot before.length))
      (Position.enter before after) := by
  cases after with
  | nil => exact ⟨by rwa [List.append_nil] at represents, rfl⟩
  | cons y after => exact ⟨represents, rfl, represents.item_slot⟩

theorem Represents.ensures_iterNext (represents : Represents q ⟨capacity, before ++ x :: after⟩)
    {post : Option Nat → Queue α w → Prop}
    (holds : ∀ iter, Points capacity q iter (Position.enter (before ++ [x]) after) → post iter q) :
    Ensures (queueIterNext (q.slot before.length)) post q := by
  unfold queueIterNext
  simp only [ensures_bind, ensures_get]
  apply ensures_nextSlot represents.size_pos
  have moved : Represents q ⟨capacity, (before ++ [x]) ++ after⟩ := by
    rwa [List.append_assoc, List.singleton_append]
  have points := points_enter moved
  have ended := (represents.toRing.next_eq_back represents.inside).trans represents.last_iff
  -- `END` is where the next slot is the back, which is so for the last element only.
  by_cases last : after = []
  · rw [if_pos (ended.mpr last)]
    rw [if_pos last] at points
    exact holds none points
  · rw [if_neg (mt ended.mp last)]
    rw [if_neg last] at points
    apply holds
    rw [Queue.slot, around_succ]
    simpa [Queue.slot] using points

theorem Represents.ensures_iterRemove (represents : Represents q ⟨capacity, before ++ x :: after⟩)
    {post : Option Nat → Queue α w → Prop}
    (holds : ∀ iter q', Points capacity q' iter (Position.enter before after) → post iter q') :
    Ensures (queueIterRemove (q.slot before.length)) post q := by
  apply represents.toRing.ensures_queueIterRemove represents.inside
  intro q' ring size front contents
  have whole : q.contents = before ++ x :: after := represents.contents_eq
  rw [Queue.contents, segment_split represents.inside, Nat.zero_add] at whole
  obtain ⟨first, rest⟩ := List.append_inj whole (by simp)
  have represents' : Represents q' ⟨capacity, before ++ after⟩ := by
    refine ⟨ring, by rw [size]; exact represents.size_eq, ?_⟩
    rw [contents, first, Nat.sub_right_comm, (List.cons.inj rest).2]
  have points := points_enter represents'
  have same : q'.slot before.length = q.slot before.length := by simp only [Queue.slot, size, front]
  rw [same] at points
  simpa only [represents.last_iff] using holds _ q' points

theorem Points.ensures_move {iter : Option Nat} {position : Position α} (points : Points capacity q iter position)
    {step : Move α} (admitted : position.Admits step) :
    ∃ slot, iter = some slot ∧
      Ensures (move slot step) (fun iter' q' => Points capacity q' iter' (position.move capacity step)) q := by
  cases position with
  | ended list => exact admitted.elim
  | focus before x after =>
    obtain ⟨represents, rfl, here⟩ := points
    refine ⟨_, rfl, ?_⟩
    cases step with
    | next => exact represents.ensures_iterNext fun _ points => points
    | remove => exact represents.ensures_iterRemove fun _ _ points => points
    | enqueue data =>
      have size : q.size.toNat = capacity := represents.size_eq
      have len : q.len.toNat = (before ++ x :: after).length := represents.len_eq
      simp only [move, ensures_bind, ensures_pure, Position.move]
      by_cases full : q.isFull = true
      · have limit := represents.isFull_iff.mp full
        unfold enqueue
        simp only [ensures_bind, ensures_get, if_pos full, ensures_pure]
        rw [if_neg (by simp only at limit; omega)]
        exact ⟨represents, rfl, here⟩
      · have room := represents.toRing.room full
        apply represents.toRing.ensures_enqueue room
        intro q' ring size' front contents
        have represents' : Represents q' ⟨capacity, before ++ x :: (after ++ [data])⟩ := by
          refine ⟨ring, by rw [size', size], ?_⟩
          rw [contents, represents.contents_eq, List.append_assoc, List.cons_append]
        have same : q'.slot before.length = q.slot before.length := by simp only [Queue.slot, size', front]
        rw [if_pos (by omega)]
        exact ⟨represents', congrArg some same.symm, represents'.item_slot⟩
    | dequeue data =>
      cases before with
      | nil => exact absurd rfl admitted
      | cons y before =>
        have used : 0 < q.len.toNat := Nat.zero_lt_of_lt represents.inside
        simp only [move, ensures_bind, ensures_pure]
        apply represents.toRing.ensures_dequeue used
        intro q' ring size slot contents
        rw [represents.contents_eq, List.cons_append] at contents
        have represents' : Represents q' ⟨capacity, before ++ x :: after⟩ :=
          ⟨ring, by rw [size]; exact represents.size_eq, (List.cons.inj contents).2.symm⟩
        exact ⟨represents', congrArg some (slot _).symm, represents'.item_slot⟩

theorem points_end {iter : Option Nat} {position : Position α} (points : Points capacity q iter position) :
    iter = none ↔ ∃ list, position = .ended list := by
  cases position with
  | ended list => exact ⟨fun _ => ⟨list, rfl⟩, fun _ => points.2⟩
  | focus before x after =>
    obtain ⟨_, rfl, _⟩ := points
    simp

theorem Points.ensures_walk {iter : Option Nat} {position : Position α} (points : Points capacity q iter position)
    {moves : List (Move α)} (admitted : position.AdmitsAll capacity moves) :
    Ensures (walk iter moves) (fun iter' q' => Points capacity q' iter' (position.walk capacity moves)) q := by
  induction moves generalizing q iter position with
  | nil => cases iter <;> exact points
  | cons first rest ih =>
    obtain ⟨here, others⟩ := admitted
    obtain ⟨slot, rfl, moved⟩ := points.ensures_move here
    exact moved.bind fun iter' q' points' => ih points' others

theorem Represents.ensures_queueIter (represents : Represents q ⟨capacity, list⟩) :
    Ensures queueIter (fun iter q' => q' = q ∧ Points capacity q iter (Position.start list)) q := by
  unfold queueIter
  simp only [ensures_bind, ensures_get, ensures_pure, true_and]
  cases list with
  | nil =>
    rw [if_pos (represents.isEmpty_iff.mpr rfl)]
    exact ⟨represents, rfl⟩
  | cons x list =>
    have focused : Represents q ⟨capacity, [] ++ x :: list⟩ := represents
    have front := around_zero (represents.toRing.front_lt focused.size_pos)
    rw [if_neg (mt represents.isEmpty_iff.mp (List.cons_ne_nil x list))]
    exact ⟨represents, congrArg some front.symm, focused.item_slot⟩

theorem Represents.ensures_sweep (represents : Represents q ⟨capacity, list⟩) (p : α → Bool) :
    Ensures (sweep p) (fun visited q' => visited = list ∧
      Represents q' ⟨capacity, list.filter fun x => !p x⟩) q := by
  have len : q.len.toNat = list.length := represents.len_eq
  unfold sweep
  simp only [ensures_bind, ensures_get]
  apply represents.ensures_queueIter.mono
  intro iter q' started
  obtain ⟨rfl, points⟩ := started
  refine ensures_loop (fun left (value : Option Nat × List α) state => ∃ done rest, list = done ++ rest ∧
    value.2 = done ∧ left = rest.length ∧
    Points capacity state value.1 (Position.enter (done.filter fun x => !p x) rest)) ?_
    (show list.length < _ by omega) ⟨[], list, rfl, rfl, rfl, by cases list <;> exact points⟩
  rintro _ ⟨iter, visited⟩ state ⟨done, rest, rfl, same, rfl, points⟩
  obtain rfl : visited = done := same
  cases rest with
  | nil =>
    obtain ⟨represents', rfl⟩ := points
    exact ⟨(List.append_nil _).symm, by rwa [List.append_nil]⟩
  | cons x rest =>
    obtain ⟨represents', rfl, here⟩ := points
    have moved : visited ++ x :: rest = (visited ++ [x]) ++ rest := by simp
    unfold sweepRound
    simp only [ensures_bind]
    refine ensures_readSlot (around_lt represents'.size_pos) ?_
    rw [here]
    by_cases drops : p x = true
    · simp only [if_pos drops, ensures_bind, ensures_pure]
      apply represents'.ensures_iterRemove
      intro iter' state' points'
      refine ⟨rest.length, Nat.lt_succ_self _, visited ++ [x], rest, moved, rfl, rfl, ?_⟩
      rw [List.filter_append, List.filter_cons_of_neg (by simp [drops]), List.filter_nil, List.append_nil]
      exact points'
    · simp only [if_neg drops, ensures_bind, ensures_pure]
      apply represents'.ensures_iterNext
      intro iter' points'
      refine ⟨rest.length, Nat.lt_succ_self _, visited ++ [x], rest, moved, rfl, rfl, ?_⟩
      rw [List.filter_append, List.filter_cons_of_pos (by simp [drops]), List.filter_nil]
      exact points'

end

/-- In every reachable queue an iterator from `ITER` on is a cursor in the list, through
any moves, and a sweep visits the list and filters it. -/
theorem queue_cursor_exact (buf : Nat → α) (siz : BitVec w) (calls : List (Call α))
    (admitted : (⟨siz.toNat, []⟩ : Ref α).AdmitsAll calls) :
    let list := ((⟨siz.toNat, []⟩ : Ref α).run calls).list
    ∃ answers q, run calls (Queue.init buf siz) = .ok (answers, q) ∧ Represents q ⟨siz.toNat, list⟩ ∧
      (∀ moves, (Position.start list).AdmitsAll siz.toNat moves →
        ∃ iter q₁ iter' q', queueIter q = .ok (iter, q₁) ∧ walk iter moves q₁ = .ok (iter', q') ∧
          Points siz.toNat q' iter' ((Position.start list).walk siz.toNat moves) ∧
          (iter' = none ↔ ∃ rest, (Position.start list).walk siz.toNat moves = .ended rest)) ∧
      ∀ p : α → Bool, ∃ q', sweep p q = .ok (list, q') ∧
        Represents q' ⟨siz.toNat, list.filter fun x => !p x⟩ := by
  intro list
  obtain ⟨answers, q, ran, represents⟩ := ((represents_init buf siz).ensures_run admitted).result
  have capacity := Ref.capacity_run (⟨siz.toNat, []⟩ : Ref α) calls
  have represents' : Represents q ⟨siz.toNat, list⟩ :=
    ⟨represents.toRing, represents.size_eq.trans capacity, represents.contents_eq⟩
  refine ⟨answers, q, ran, represents', fun moves allowed => ?_, fun p => ?_⟩
  · obtain ⟨iter, _, started, rfl, points⟩ := represents'.ensures_queueIter.result
    obtain ⟨iter', q', walked, points'⟩ := (points.ensures_walk allowed).result
    exact ⟨iter, _, iter', q', started, walked, points', points_end points'⟩
  · obtain ⟨visited, q', swept, rfl, represents''⟩ := (represents'.ensures_sweep p).result
    exact ⟨q', swept, represents''⟩

theorem queue_cursor_exact_turns :
    let list := ((⟨(3 : BitVec 8).toNat, []⟩ : Ref Nat).run turns).list
    ∃ answers q, run turns (Queue.init (fun _ => 0) (3 : BitVec 8)) = .ok (answers, q) ∧
      Represents q ⟨(3 : BitVec 8).toNat, list⟩ ∧
      (∀ moves, (Position.start list).AdmitsAll (3 : BitVec 8).toNat moves →
        ∃ iter q₁ iter' q', queueIter q = .ok (iter, q₁) ∧ walk iter moves q₁ = .ok (iter', q') ∧
          Points (3 : BitVec 8).toNat q' iter' ((Position.start list).walk (3 : BitVec 8).toNat moves) ∧
          (iter' = none ↔ ∃ rest, (Position.start list).walk (3 : BitVec 8).toNat moves = .ended rest)) ∧
      ∀ p : Nat → Bool, ∃ q', sweep p q = .ok (list, q') ∧
        Represents q' ⟨(3 : BitVec 8).toNat, list.filter fun x => !p x⟩ :=
  queue_cursor_exact _ 3 turns (by simp [turns, Ref.AdmitsAll, Ref.Admits, Ref.call])

end Embedlib.ArrayUtils.ArrayQueue
