import Embedlib.ArrayUtils.QueueRuns

/-! What goes into a queue comes out in the same order, or is removed, or is still there. -/

set_option autoImplicit false

namespace Embedlib.ArrayUtils.ArrayQueue

open Library

variable {α : Type} {w : Nat}

def Call.accepts : Call α → Answer α → List α
  | .enqueue data, .enqueued true => [data]
  | _, _ => []

def Answer.delivers : Answer α → List α
  | .dequeued true data => [data]
  | _ => []

def Call.removals : Call α → Nat
  | .remove _ => 1
  | _ => 0

def accepted (calls : List (Call α)) (answers : List (Answer α)) : List α :=
  (List.zipWith Call.accepts calls answers).flatten

def delivered (answers : List (Answer α)) : List α := answers.flatMap Answer.delivers

def removals (calls : List (Call α)) : Nat := (calls.map Call.removals).sum

/-- `taken` comes from the front of `given`, and `lost` elements are missing in what is `left`. -/
structure Conserves (given taken left : List α) (lost : Nat) : Prop where
  sublist : (taken ++ left).Sublist given
  length_eq : given.length = taken.length + left.length + lost

section
variable {q : Queue α w} {ref : Ref α}

theorem Conserves.trans {given taken left more later rest : List α} {lost lost' : Nat}
    (first : Conserves given taken left lost) (second : Conserves (left ++ more) later rest lost') :
    Conserves (given ++ more) (taken ++ later) rest (lost + lost') where
  sublist := by
    have lower : (taken ++ (later ++ rest)).Sublist (taken ++ (left ++ more)) := second.sublist.append_left taken
    have upper : (taken ++ left ++ more).Sublist (given ++ more) := first.sublist.append_right more
    rw [List.append_assoc] at upper ⊢
    exact lower.trans upper
  length_eq := by
    have both := first.length_eq
    have last := second.length_eq
    simp only [List.length_append] at last ⊢
    omega

theorem Simulates.conserves {request : Call α} {answer : Answer α} {after : Queue α w}
    (simulates : Simulates q ref request answer after) (admitted : ref.Admits request) :
    Conserves (ref.list ++ request.accepts answer) answer.delivers (ref.call request).list request.removals := by
  obtain ⟨_, effect⟩ := simulates
  cases request with
  | enqueue data =>
    obtain ⟨rfl, _⟩ := effect
    simp only [Ref.call, Answer.delivers, Call.removals]
    by_cases room : ref.list.length < ref.capacity
    · simp only [room, decide_true, if_true]
      exact ⟨List.Sublist.refl _, by simp [Call.accepts]⟩
    · simp only [room, decide_false, if_false]
      exact ⟨by simp [Call.accepts], by simp [Call.accepts]⟩
  | dequeue data =>
    simp only [Ref.call, Call.accepts, Call.removals, List.append_nil]
    simp only [Effect] at effect
    cases elements : ref.list with
    | nil =>
      rw [elements] at effect
      obtain ⟨rfl, _⟩ := effect
      exact ⟨List.Sublist.refl _, rfl⟩
    | cons x rest =>
      rw [elements] at effect
      subst effect
      exact ⟨List.Sublist.refl _, by simp [Answer.delivers, Nat.add_comm]⟩
  | remove j =>
    have inside : j < ref.list.length := admitted
    simp only [Effect] at effect
    subst effect
    simp only [Ref.call, Call.accepts, Answer.delivers, Call.removals, List.append_nil]
    refine ⟨List.eraseIdx_sublist _ _, ?_⟩
    rw [List.length_eraseIdx_of_lt inside]
    simp only [List.length_nil]
    omega

theorem Represents.ensures_conserves (represents : Represents q ref) {calls : List (Call α)}
    (admitted : ref.AdmitsAll calls) :
    Ensures (run calls) (fun answers after => Represents after (ref.run calls) ∧
      Conserves (ref.list ++ accepted calls answers) (delivered answers) (ref.run calls).list (removals calls)) q := by
  induction calls generalizing q ref with
  | nil => exact ⟨represents, by simp [accepted, delivered, Ref.run], by simp [accepted, delivered, removals, Ref.run]⟩
  | cons first rest ih =>
    obtain ⟨here, others⟩ := admitted
    apply (represents.ensures_call here).bind
    intro answer middle simulates
    refine (ih simulates.1 others).bind fun answers after rested => ⟨rested.1, ?_⟩
    have whole := (simulates.conserves here).trans rested.2
    simpa only [accepted, delivered, removals, List.zipWith_cons_cons, List.flatten_cons, List.flatMap_cons,
      List.map_cons, List.sum_cons, List.append_assoc, Ref.run] using whole

theorem Represents.ensures_queueFront (represents : Represents q ref) {x : α} {rest : List α}
    (elements : ref.list = x :: rest) : Ensures queueFront (fun data after => data = x ∧ after = q) q := by
  have used : 0 < q.len.toNat := by rw [represents.len_eq, elements]; exact Nat.succ_pos _
  have some := represents.toRing.size_pos used
  have contents : q.contents = x :: rest := represents.contents_eq.trans elements
  have first : q.item q.front.toNat = x := by
    rw [Queue.contents, ← Nat.succ_pred_eq_of_pos used, segment_succ, Queue.view, unroll,
      around_zero (represents.front_lt some)] at contents
    exact (List.cons.inj contents).1
  unfold queueFront
  simp only [ensures_bind, ensures_get]
  exact ensures_readSlot (represents.front_lt some) ⟨first, rfl⟩

end

/-- Over any run the elements that were accepted are, in their order, those that were
delivered and those that are still in the queue, but for one for each removal; and
`FRONT` shows what `DEQUEUE` would deliver. -/
theorem queue_fifo (buf : Nat → α) (siz : BitVec w) (calls : List (Call α))
    (admitted : (⟨siz.toNat, []⟩ : Ref α).AdmitsAll calls) :
    ∃ answers q, run calls (Queue.init buf siz) = .ok (answers, q) ∧
      (delivered answers ++ q.contents).Sublist (accepted calls answers) ∧
      (accepted calls answers).length = (delivered answers).length + q.contents.length + removals calls ∧
      (removals calls = 0 → delivered answers ++ q.contents = accepted calls answers) ∧
      ∀ x rest, q.contents = x :: rest → queueFront q = .ok (x, q) ∧
        ∀ data, ∃ after, call (.dequeue data) q = .ok (.dequeued true x, after) ∧ after.contents = rest := by
  obtain ⟨answers, q, ran, represents, conserves⟩ := ((represents_init buf siz).ensures_conserves admitted).result
  obtain ⟨sublist, length_eq⟩ := conserves
  rw [List.nil_append] at sublist length_eq
  refine ⟨answers, q, ran, ?_, ?_, fun none => ?_, fun x rest elements => ?_⟩
  · rw [represents.contents_eq]
    exact sublist
  · rw [represents.contents_eq]
    exact length_eq
  · rw [represents.contents_eq]
    refine sublist.eq_of_length ?_
    rw [List.length_append]
    omega
  · rw [represents.contents_eq] at elements
    obtain ⟨data, after, looked, rfl, rfl⟩ := (represents.ensures_queueFront elements).result
    refine ⟨looked, fun data => ?_⟩
    obtain ⟨answer, after, called, represents', effect⟩ := (represents.ensures_dequeue data).result
    simp only [Effect, elements] at effect
    subst effect
    exact ⟨after, called, by rw [represents'.contents_eq, Ref.call, elements, List.tail_cons]⟩

theorem queue_fifo_turns :
    ∃ answers q, run turns (Queue.init (fun _ => 0) (3 : BitVec 8)) = .ok (answers, q) ∧
      (delivered answers ++ q.contents).Sublist (accepted turns answers) ∧
      (accepted turns answers).length = (delivered answers).length + q.contents.length + removals turns ∧
      (removals turns = 0 → delivered answers ++ q.contents = accepted turns answers) ∧
      ∀ x rest, q.contents = x :: rest → queueFront q = .ok (x, q) ∧
        ∀ data, ∃ after, call (.dequeue data) q = .ok (.dequeued true x, after) ∧ after.contents = rest :=
  queue_fifo _ 3 turns (by
    simp [turns, Ref.AdmitsAll, Ref.Admits, Ref.call])

end Embedlib.ArrayUtils.ArrayQueue
