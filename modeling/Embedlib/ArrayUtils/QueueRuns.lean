import Embedlib.ArrayUtils.ArrayQueue

/-! Runs of `ENQUEUE`, `DEQUEUE` and `ITER_REMOVE` as runs on a bounded list. -/

set_option autoImplicit false

namespace Embedlib.ArrayUtils.ArrayQueue

open Library

variable {α : Type} {w : Nat}

/-- `remove j` is `ARRAY_QUEUE_ITER_REMOVE` with an iterator at the element `j`. -/
inductive Call (α : Type) where
  | enqueue (data : α)
  | dequeue (data : α)
  | remove (j : Nat)
  deriving DecidableEq, Repr

inductive Answer (α : Type) where
  | enqueued (ok : Bool)
  | dequeued (ok : Bool) (data : α)
  | removed (iter : Option Nat)
  deriving DecidableEq, Repr

/-- A list with room for `capacity` elements. -/
structure Ref (α : Type) where
  capacity : Nat
  list : List α

def call : Call α → Program (Queue α w) (Answer α)
  | .enqueue data => return .enqueued (← enqueue data)
  | .dequeue data => do
    let (ok, data) ← dequeue data
    return .dequeued ok data
  | .remove j => do
    let q ← get
    return .removed (← queueIterRemove (q.slot j))

def run : List (Call α) → Program (Queue α w) (List (Answer α))
  | [] => return []
  | first :: rest => do
    let answer ← call first
    return answer :: (← run rest)

def Ref.call (ref : Ref α) : Call α → Ref α
  | .enqueue data => if ref.list.length < ref.capacity then ⟨ref.capacity, ref.list ++ [data]⟩ else ref
  | .dequeue _ => ⟨ref.capacity, ref.list.tail⟩
  | .remove j => ⟨ref.capacity, ref.list.eraseIdx j⟩

def Ref.run (ref : Ref α) : List (Call α) → Ref α
  | [] => ref
  | first :: rest => (ref.call first).run rest

def Ref.Admits (ref : Ref α) : Call α → Prop
  | .remove j => j < ref.list.length
  | _ => True

def Ref.AdmitsAll (ref : Ref α) : List (Call α) → Prop
  | [] => True
  | first :: rest => ref.Admits first ∧ (ref.call first).AdmitsAll rest

/-- The queue is the list, and its counters agree. -/
structure Represents (q : Queue α w) (ref : Ref α) : Prop extends Ring q where
  size_eq : q.size.toNat = ref.capacity
  contents_eq : q.contents = ref.list

/-- What a call answers, and that it changes nothing when it fails. -/
def Effect (ref : Ref α) (before : Queue α w) (answer : Answer α) (after : Queue α w) : Call α → Prop
  | .enqueue _ => answer = .enqueued (ref.list.length < ref.capacity) ∧
    (ref.list.length = ref.capacity → after = before)
  | .dequeue data => match ref.list with
    | [] => answer = .dequeued false data ∧ after = before
    | x :: _ => answer = .dequeued true x
  | .remove j => answer = .removed (if j + 1 = ref.list.length then none else some (before.slot j))

def Simulates (q : Queue α w) (ref : Ref α) (request : Call α) (answer : Answer α) (after : Queue α w) : Prop :=
  Represents after (ref.call request) ∧ Effect ref q answer after request

section
variable {q : Queue α w} {ref : Ref α}

theorem represents_init (buf : Nat → α) (siz : BitVec w) :
    Represents (Queue.init buf siz) ⟨siz.toNat, []⟩ :=
  ⟨ring_init buf siz, rfl, by simp [Queue.contents, Queue.init]⟩

theorem Represents.len_eq (represents : Represents q ref) : q.len.toNat = ref.list.length := by
  rw [← represents.contents_eq, length_contents]

/-- `ARRAY_QUEUE_IS_EMPTY` and `ARRAY_QUEUE_IS_FULL` are right. -/
theorem Represents.isEmpty_iff (represents : Represents q ref) : q.isEmpty = true ↔ ref.list = [] := by
  rw [ArrayUtils.isEmpty_iff, represents.len_eq, List.length_eq_zero_iff]

theorem Represents.isFull_iff (represents : Represents q ref) :
    q.isFull = true ↔ ref.list.length = ref.capacity := by
  rw [ArrayUtils.isFull_iff, represents.len_eq, represents.size_eq]

theorem Represents.ensures_enqueue (represents : Represents q ref) (data : α) :
    Ensures (call (.enqueue data)) (Simulates q ref (.enqueue data)) q := by
  have len := represents.len_eq
  have size := represents.size_eq
  simp only [call, ensures_bind, ensures_pure]
  by_cases full : q.isFull = true
  · have limit := represents.isFull_iff.mp full
    unfold enqueue
    simp only [ensures_bind, ensures_get, if_pos full, ensures_pure]
    refine ⟨?_, by simp [limit], fun _ => rfl⟩
    simp only [Ref.call, limit, lt_irrefl, if_false]
    exact represents
  · have room := represents.toRing.room full
    apply represents.toRing.ensures_enqueue room
    intro after ring size' _ contents
    have more : ref.list.length < ref.capacity := by omega
    refine ⟨?_, by simp [more], fun limit => absurd limit more.ne⟩
    simp only [Ref.call, if_pos more]
    exact ⟨ring, by rw [size', size], by rw [contents, represents.contents_eq]⟩

theorem Represents.ensures_dequeue (represents : Represents q ref) (data : α) :
    Ensures (call (.dequeue data)) (Simulates q ref (.dequeue data)) q := by
  simp only [call, ensures_bind, ensures_pure]
  by_cases empty : q.isEmpty = true
  · have none := represents.isEmpty_iff.mp empty
    unfold dequeue
    simp only [ensures_bind, ensures_get, if_pos empty, ensures_pure]
    refine ⟨⟨represents.toRing, represents.size_eq, ?_⟩, ?_⟩
    · rw [represents.contents_eq, none, Ref.call, none, List.tail_nil]
    · simp [Effect, none]
  · have used : 0 < q.len.toNat := Nat.pos_of_ne_zero fun zero => empty (ArrayUtils.isEmpty_iff.mpr zero)
    apply represents.toRing.ensures_dequeue used
    intro after ring size _ contents
    rw [represents.contents_eq] at contents
    refine ⟨⟨ring, by rw [size]; exact represents.size_eq, ?_⟩, ?_⟩
    · rw [Ref.call, contents, List.tail_cons]
    · simp [Effect, contents]

theorem Represents.ensures_remove (represents : Represents q ref) {j : Nat} (inside : j < ref.list.length) :
    Ensures (call (.remove j)) (Simulates q ref (.remove j)) q := by
  have len := represents.len_eq
  simp only [call, ensures_bind, ensures_get, ensures_pure]
  apply represents.toRing.ensures_queueIterRemove (by omega)
  intro after ring size _ contents
  refine ⟨⟨ring, by rw [size]; exact represents.size_eq, ?_⟩, by rw [Effect, len]⟩
  have below : j < q.len.toNat := by omega
  rw [contents, Ref.call, ← represents.contents_eq, Queue.contents,
    segment_split below, List.eraseIdx_append_of_length_le (by simp)]
  simp [Nat.sub_right_comm]

theorem Represents.ensures_call (represents : Represents q ref) {request : Call α}
    (admitted : ref.Admits request) : Ensures (call request) (Simulates q ref request) q := by
  cases request with
  | enqueue data => exact represents.ensures_enqueue data
  | dequeue data => exact represents.ensures_dequeue data
  | remove j => exact represents.ensures_remove admitted

theorem Represents.ensures_run (represents : Represents q ref) {calls : List (Call α)}
    (admitted : ref.AdmitsAll calls) : Ensures (run calls) (fun _ after => Represents after (ref.run calls)) q := by
  induction calls generalizing q ref with
  | nil => exact represents
  | cons first rest ih =>
    obtain ⟨here, others⟩ := admitted
    apply (represents.ensures_call here).bind
    intro answer middle simulates
    exact (ih simulates.1 others).bind fun answers after rested => rested

theorem Ref.capacity_run (ref : Ref α) (calls : List (Call α)) : (ref.run calls).capacity = ref.capacity := by
  induction calls generalizing ref with
  | nil => rfl
  | cons first rest ih =>
    rw [Ref.run, ih]
    cases first with
    | enqueue data => simp only [Ref.call]; split <;> rfl
    | dequeue data => rfl
    | remove j => rfl

theorem Ref.admitsAll_append {calls : List (Call α)} {request : Call α} :
    ref.AdmitsAll (calls ++ [request]) ↔ ref.AdmitsAll calls ∧ (ref.run calls).Admits request := by
  induction calls generalizing ref with
  | nil => simp [Ref.AdmitsAll, Ref.run]
  | cons first rest ih => simp only [List.cons_append, Ref.AdmitsAll, Ref.run, ih, and_assoc]

end

/-- After any run the queue is the list, front and back stay in the buffer, and the
next call does to the queue what it does to the list. A counter that wraps and a
modulo by zero would be faults. -/
theorem queue_run_represents (buf : Nat → α) (siz : BitVec w) (calls : List (Call α)) (request : Call α)
    (admitted : (⟨siz.toNat, []⟩ : Ref α).AdmitsAll (calls ++ [request])) :
    let ref := (⟨siz.toNat, []⟩ : Ref α).run calls
    ∃ answers q answer after, run calls (Queue.init buf siz) = .ok (answers, q) ∧ Represents q ref ∧
      (q.isEmpty = true ↔ ref.list.length = 0) ∧ (q.isFull = true ↔ ref.list.length = siz.toNat) ∧
      (0 < siz.toNat → q.front.toNat < siz.toNat ∧ q.back.toNat < siz.toNat ∧
        q.back.toNat = (q.front.toNat + q.len.toNat) % siz.toNat) ∧
      call request q = .ok (answer, after) ∧ Simulates q ref request answer after := by
  intro ref
  obtain ⟨before, last⟩ := Ref.admitsAll_append.mp admitted
  obtain ⟨answers, q, ran, represents⟩ := ((represents_init buf siz).ensures_run before).result
  obtain ⟨answer, after, called, simulates⟩ := (represents.ensures_call last).result
  have capacity : ref.capacity = siz.toNat := Ref.capacity_run _ calls
  have size := represents.size_eq.trans capacity
  refine ⟨answers, q, answer, after, ran, represents, ?_, ?_, fun some => ?_, called, simulates⟩
  · rw [represents.isEmpty_iff, List.length_eq_zero_iff]
  · rw [represents.isFull_iff, capacity]
  · rw [← size] at some ⊢
    exact ⟨represents.front_lt some, represents.toRing.back_lt some, represents.back_eq some⟩

def turns : List (Call Nat) :=
  [.enqueue 1, .enqueue 2, .enqueue 3, .enqueue 4, .dequeue 0, .enqueue 5, .remove 1, .enqueue 6]

theorem queue_run_represents_turns :
    let ref := (⟨(3 : BitVec 8).toNat, []⟩ : Ref Nat).run turns
    ∃ answers q answer after, run turns (Queue.init (fun _ => 0) (3 : BitVec 8)) = .ok (answers, q) ∧
      Represents q ref ∧ (q.isEmpty = true ↔ ref.list.length = 0) ∧
      (q.isFull = true ↔ ref.list.length = (3 : BitVec 8).toNat) ∧
      (0 < (3 : BitVec 8).toNat → q.front.toNat < (3 : BitVec 8).toNat ∧ q.back.toNat < (3 : BitVec 8).toNat ∧
        q.back.toNat = (q.front.toNat + q.len.toNat) % (3 : BitVec 8).toNat) ∧
      call (.remove 2) q = .ok (answer, after) ∧ Simulates q ref (.remove 2) answer after :=
  queue_run_represents _ 3 turns (.remove 2) (by
    simp [turns, Ref.AdmitsAll, Ref.Admits, Ref.call])

end Embedlib.ArrayUtils.ArrayQueue
