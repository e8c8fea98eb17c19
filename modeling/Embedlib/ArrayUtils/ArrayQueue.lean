import Embedlib.Library.Program
import Embedlib.Library.Ring

/-! `ARRAY_QUEUE`, with counters of `w` bits. Unsigned arithmetic that wraps would be
a fault here, like a modulo by zero. -/

set_option autoImplicit false

namespace Embedlib.ArrayUtils

open Library

variable {α : Type} {w : Nat}

/-- `ARRAY_QUEUE_TYPE_IMPL` -/
@[ext] structure Queue (α : Type) (w : Nat) where
  item : Nat → α
  size : BitVec w
  front : BitVec w
  back : BitVec w
  len : BitVec w

/-- `ARRAY_QUEUE_INIT` -/
def Queue.init (buf : Nat → α) (siz : BitVec w) : Queue α w := ⟨buf, siz, 0, 0, 0⟩

/-- `ARRAY_QUEUE_IS_EMPTY` -/
def Queue.isEmpty (q : Queue α w) : Bool := q.len == 0

/-- `ARRAY_QUEUE_IS_FULL` -/
def Queue.isFull (q : Queue α w) : Bool := q.len == q.size

def Queue.slot (q : Queue α w) (j : Nat) : Nat := around q.size.toNat q.front.toNat j

/-- The elements from the front on, however far they reach around. -/
def Queue.view (q : Queue α w) : Nat → α := unroll q.item q.size.toNat q.front.toNat

def Queue.contents (q : Queue α w) : List α := segment q.view 0 q.len.toNat

def counter (w n : Nat) : Program (Queue α w) (BitVec w) :=
  if n < 2 ^ w then return BitVec.ofNat w n else fault .overflow

def modulo (n : Nat) (m : BitVec w) : Program (Queue α w) Nat :=
  if m = 0 then fault .divisionByZero else return n % m.toNat

def readSlot (i : Nat) : Program (Queue α w) α := do
  let q ← get
  if i < q.size.toNat then return q.item i else fault .outOfBounds

def writeSlot (i : Nat) (data : α) : Program (Queue α w) Unit := do
  let q ← get
  if i < q.size.toNat then
    modify fun q => { q with item := Function.update q.item i data }
  else fault .outOfBounds

/-- `(n + 1) % size` -/
def advance (n : BitVec w) : Program (Queue α w) (BitVec w) := do
  let sum ← counter w (n.toNat + 1)
  counter w (← modulo sum.toNat (← get).size)

/-- `ARRAY_QUEUE_ENQUEUE_RET` -/
def enqueue (data : α) : Program (Queue α w) Bool := do
  let q ← get
  if q.isFull then
    return false
  else
    writeSlot q.back.toNat data
    let back ← advance q.back
    modify fun q => { q with back := back }
    let len ← counter w ((← get).len.toNat + 1)
    modify fun q => { q with len := len }
    return true

/-- `--len` -/
def decrementLen : Program (Queue α w) Unit := do
  let q ← get
  if q.len = 0 then fault .overflow
  else modify fun q => { q with len := q.len - 1 }

/-- `ARRAY_QUEUE_DEQUEUE_RET`. `data` is what the caller has in `*pdata`; what is
there afterwards is returned. -/
def dequeue (data : α) : Program (Queue α w) (Bool × α) := do
  let q ← get
  if q.isEmpty then
    return (false, data)
  else
    let data ← readSlot q.front.toNat
    let front ← advance q.front
    modify fun q => { q with front := front }
    decrementLen
    return (true, data)

/-- `ARRAY_QUEUE_FRONT`, which does not ask whether there is an element. -/
def queueFront : Program (Queue α w) α := do
  readSlot (← get).front.toNat

/-- `ARRAY_QUEUE_ITER`. An iterator is the index of a slot, `none` is `ARRAY_QUEUE_ITER_END`. -/
def queueIter : Program (Queue α w) (Option Nat) := do
  let q ← get
  return if q.isEmpty then none else some q.front.toNat

/-- `(i + 1) % size` in `ptrdiff_t` -/
def nextSlot (i : Nat) : Program (Queue α w) Nat := do
  modulo (i + 1) (← get).size

/-- `ARRAY_QUEUE_ITER_NEXT` -/
def queueIterNext (iter : Nat) : Program (Queue α w) (Option Nat) := do
  let i ← nextSlot iter
  if i = (← get).back.toNat then return none else return some i

def removeRound : Nat × Nat → Program (Queue α w) (Turn (Nat × Nat) Nat) := fun (i, iNext) => do
  writeSlot i (← readSlot iNext)
  let i := iNext
  let iNext ← nextSlot i
  if iNext ≠ (← get).back.toNat then return .again (i, iNext) else return .leave i

/-- `ARRAY_QUEUE_ITER_REMOVE` -/
def queueIterRemove (iter : Nat) : Program (Queue α w) (Option Nat) := do
  let iNext ← nextSlot iter
  let q ← get
  -- The last element goes without a move.
  if iNext = q.back.toNat then
    let back ← counter w iter
    modify fun q => { q with back := back }
    decrementLen
    return none
  else
    let i ← loop removeRound (q.size.toNat + 1) (iter, iNext)
    let back ← counter w i
    modify fun q => { q with back := back }
    decrementLen
    return some iter

section
variable {q : Queue α w}

theorem ensures_counter {n : Nat} {post : BitVec w → Queue α w → Prop} (fits : n < 2 ^ w)
    (holds : post (BitVec.ofNat w n) q) : Ensures (counter w n) post q := by
  rw [counter, if_pos fits]
  exact holds

theorem ensures_modulo {n : Nat} {m : BitVec w} {post : Nat → Queue α w → Prop} (some : 0 < m.toNat)
    (holds : post (n % m.toNat) q) : Ensures (modulo n m) post q := by
  have nonzero : m ≠ 0 := by rintro rfl; simp at some
  rw [modulo, if_neg nonzero]
  exact holds

theorem ensures_readSlot {i : Nat} {post : α → Queue α w → Prop} (inside : i < q.size.toNat)
    (holds : post (q.item i) q) : Ensures (readSlot i) post q := by
  simpa [readSlot, inside] using holds

theorem ensures_writeSlot {i : Nat} {data : α} {post : Unit → Queue α w → Prop} (inside : i < q.size.toNat)
    (holds : post () { q with item := Function.update q.item i data }) :
    Ensures (writeSlot i data) post q := by
  simpa [writeSlot, inside] using holds

theorem ensures_advance {n : BitVec w} {post : BitVec w → Queue α w → Prop} (inside : n.toNat < q.size.toNat)
    (holds : ∀ next : BitVec w, next.toNat = (n.toNat + 1) % q.size.toNat → post next q) :
    Ensures (advance n) post q := by
  have bound := q.size.isLt
  have less : (n.toNat + 1) % q.size.toNat < q.size.toNat := Nat.mod_lt _ (by omega)
  unfold advance
  simp only [ensures_bind, ensures_get]
  have sum : (BitVec.ofNat w (n.toNat + 1)).toNat = n.toNat + 1 := by
    rw [BitVec.toNat_ofNat, Nat.mod_eq_of_lt (by omega)]
  refine ensures_counter (by omega) (ensures_modulo (by omega) ?_)
  rw [sum]
  refine ensures_counter (less.trans bound) (holds _ ?_)
  rw [BitVec.toNat_ofNat, Nat.mod_eq_of_lt (less.trans bound)]

theorem ensures_nextSlot {i : Nat} {post : Nat → Queue α w → Prop} (some : 0 < q.size.toNat)
    (holds : post ((i + 1) % q.size.toNat) q) : Ensures (nextSlot i) post q := by
  unfold nextSlot
  simp only [ensures_bind, ensures_get]
  exact ensures_modulo some holds

theorem ensures_decrementLen {post : Unit → Queue α w → Prop} (used : 0 < q.len.toNat)
    (holds : ∀ len : BitVec w, len.toNat = q.len.toNat - 1 → post () { q with len := len }) :
    Ensures decrementLen post q := by
  have nonzero : q.len ≠ 0 := by intro zero; rw [zero] at used; simp at used
  unfold decrementLen
  simp only [ensures_bind, ensures_get, if_neg nonzero, ensures_modify]
  apply holds
  have bound := q.len.isLt
  have one : (1 : BitVec w).toNat = 1 := by
    show (BitVec.ofNat w 1).toNat = 1
    rw [BitVec.toNat_ofNat, Nat.mod_eq_of_lt (by omega)]
  rw [BitVec.toNat_sub_of_le (by rw [BitVec.le_def, one]; exact used), one]

end

/-- How front, back and length agree. An empty and a full queue have the same ends. -/
structure Ring (q : Queue α w) : Prop where
  fits : q.len.toNat ≤ q.size.toNat
  front_lt : 0 < q.size.toNat → q.front.toNat < q.size.toNat
  back_eq : 0 < q.size.toNat → q.back.toNat = (q.front.toNat + q.len.toNat) % q.size.toNat

theorem ring_init (buf : Nat → α) (siz : BitVec w) : Ring (Queue.init buf siz) := by
  refine ⟨?_, ?_, ?_⟩ <;> simp [Queue.init]

theorem isEmpty_iff {q : Queue α w} : q.isEmpty = true ↔ q.len.toNat = 0 := by
  simp [Queue.isEmpty, BitVec.toNat_eq]

theorem isFull_iff {q : Queue α w} : q.isFull = true ↔ q.len.toNat = q.size.toNat := by
  simp [Queue.isFull, BitVec.toNat_eq]

theorem length_contents {q : Queue α w} : q.contents.length = q.len.toNat := length_segment

namespace Ring

variable {q : Queue α w}

theorem size_pos (ring : Ring q) {j : Nat} (inside : j < q.len.toNat) : 0 < q.size.toNat :=
  Nat.lt_of_lt_of_le (Nat.zero_lt_of_lt inside) ring.fits

theorem back_lt (ring : Ring q) (some : 0 < q.size.toNat) : q.back.toNat < q.size.toNat := by
  rw [ring.back_eq some]
  exact Nat.mod_lt _ some

theorem room (ring : Ring q) (free : ¬ q.isFull = true) : q.len.toNat < q.size.toNat :=
  Nat.lt_of_le_of_ne ring.fits fun same => free (isFull_iff.mpr same)

theorem next_eq_back (ring : Ring q) {j : Nat} (inside : j < q.len.toNat) :
    (q.slot j + 1) % q.size.toNat = q.back.toNat ↔ j + 1 = q.len.toNat := by
  rw [Queue.slot, around_succ, ring.back_eq (ring.size_pos inside)]
  exact around_eq_end (Nat.succ_pos j) inside ring.fits

theorem ensures_enqueue (ring : Ring q) (room : q.len.toNat < q.size.toNat) {data : α}
    {post : Bool → Queue α w → Prop}
    (holds : ∀ after : Queue α w, Ring after → after.size = q.size → after.front = q.front →
      after.contents = q.contents ++ [data] → post true after) : Ensures (enqueue data) post q := by
  have some : 0 < q.size.toNat := Nat.zero_lt_of_lt room
  have bound := q.size.isLt
  have notFull : ¬ q.isFull = true := fun full => room.ne (isFull_iff.mp full)
  have back := ring.back_eq some
  unfold enqueue
  simp only [ensures_bind, ensures_get, if_neg notFull, ensures_modify, ensures_pure]
  refine ensures_writeSlot (ring.back_lt some) (ensures_advance (ring.back_lt some) fun next next_eq => ?_)
  have len : (BitVec.ofNat w (q.len.toNat + 1)).toNat = q.len.toNat + 1 := by
    rw [BitVec.toNat_ofNat, Nat.mod_eq_of_lt (by omega)]
  refine ensures_counter (show q.len.toNat + 1 < 2 ^ w by omega) (holds _ ?_ rfl rfl ?_)
  · refine ⟨by simp only [len]; exact room, fun _ => ring.front_lt some, fun _ => ?_⟩
    simp only [len, next_eq]
    rw [back]
    exact around_succ
  · simp only [Queue.contents, Queue.view, len]
    rw [back]
    exact segment_unroll_push room data

theorem ensures_dequeue (ring : Ring q) (used : 0 < q.len.toNat) {data : α}
    {post : Bool × α → Queue α w → Prop}
    (holds : ∀ after : Queue α w, Ring after → after.size = q.size →
      (∀ j, after.slot j = q.slot (j + 1)) → q.contents = q.item q.front.toNat :: after.contents →
      post (true, q.item q.front.toNat) after) : Ensures (dequeue data) post q := by
  have some := ring.size_pos used
  have front := ring.front_lt some
  have fits := ring.fits
  have notEmpty : ¬ q.isEmpty = true := fun empty => used.ne' (isEmpty_iff.mp empty)
  unfold dequeue
  simp only [ensures_bind, ensures_get, if_neg notEmpty, ensures_modify, ensures_pure]
  refine ensures_readSlot front (ensures_advance front fun next next_eq => ?_)
  refine ensures_decrementLen used fun len len_eq => ?_
  have less : len.toNat + 1 = q.len.toNat := by simp only at len_eq; omega
  refine holds _ ⟨?_, fun _ => ?_, fun _ => ?_⟩ rfl (fun j => ?_) ?_
  · simp only; omega
  · simp only [next_eq]
    exact Nat.mod_lt _ some
  · simp only [next_eq]
    rw [ring.back_eq some, ← less]
    exact around_next.symm
  · simp only [Queue.slot, next_eq]
    exact around_next
  · simp only [Queue.contents, Queue.view, next_eq, ← less]
    exact segment_unroll_pop front

theorem ensures_removeLoop (ring : Ring q) {j : Nat} (more : j + 1 < q.len.toNat)
    {post : Nat → Queue α w → Prop}
    (holds : ∀ item : Nat → α,
      (∀ s < q.size.toNat, unroll item q.size.toNat q.front.toNat s = lower q.view j (q.len.toNat - 1) s) →
      post (q.slot (q.len.toNat - 1)) { q with item := item }) :
    Ensures (loop removeRound (q.size.toNat + 1) (q.slot j, (q.slot j + 1) % q.size.toNat)) post q := by
  have fits := ring.fits
  have pos := ring.size_pos more
  refine ensures_loop (fun left (value : Nat × Nat) state => ∃ low, value = (q.slot low, q.slot (low + 1)) ∧
    j ≤ low ∧ low + 1 < q.len.toNat ∧ left = q.len.toNat - low ∧ ∃ item, state = { q with item := item } ∧
      ∀ s < q.size.toNat, lower (unroll item q.size.toNat q.front.toNat) low (q.len.toNat - 1) s =
        lower q.view j (q.len.toNat - 1) s) ?_ (show q.len.toNat - j < q.size.toNat + 1 by omega)
    ⟨j, by rw [Queue.slot, around_succ]; rfl, Nat.le_refl _, more, rfl, q.item, rfl, fun _ _ => rfl⟩
  rintro left _ _ ⟨low, rfl, reached, short, rfl, item, rfl, moved⟩
  have last : q.len.toNat - 1 < q.size.toNat := by omega
  unfold removeRound
  simp only [ensures_bind, ensures_get]
  refine ensures_readSlot (around_lt pos) (ensures_writeSlot (around_lt pos) (ensures_nextSlot pos ?_))
  have next : ∀ s < q.size.toNat,
      lower (unroll (Function.update item (q.slot low) (item (q.slot (low + 1)))) q.size.toNat q.front.toNat)
        (low + 1) (q.len.toNat - 1) s = lower q.view j (q.len.toNat - 1) s := by
    intro s inside
    have lower : low < q.len.toNat - 1 := by omega
    rw [← moved s inside, ← lower_succ lower]
    exact lower_congr (fun m less => unroll_update (by omega) less _) last inside
  have here : (q.slot (low + 1) + 1) % q.size.toNat = q.slot (low + 2) := around_succ
  have ended := ring.next_eq_back short
  -- The round that reaches the end leaves the loop with the slot of the last element.
  by_cases done : low + 2 = q.len.toNat
  · simp only [ended.mpr done, ne_eq, not_true_eq_false, if_false, ensures_pure]
    have stop : low + 1 = q.len.toNat - 1 := by omega
    rw [stop]
    apply holds
    intro s inside
    have same := next s inside
    rw [stop, lower_self] at same
    exact same
  · simp only [ne_eq, mt ended.mp done, not_false_eq_true, if_true, ensures_pure]
    exact ⟨q.len.toNat - (low + 1), by omega, low + 1, by rw [here], by omega, by omega, rfl, _, rfl, next⟩

theorem ensures_queueIterRemove (ring : Ring q) {j : Nat} (inside : j < q.len.toNat)
    {post : Option Nat → Queue α w → Prop}
    (holds : ∀ after : Queue α w, Ring after → after.size = q.size → after.front = q.front →
      after.contents = segment q.view 0 j ++ segment q.view (j + 1) (q.len.toNat - 1 - j) →
      post (if j + 1 = q.len.toNat then none else some (q.slot j)) after) :
    Ensures (queueIterRemove (q.slot j)) post q := by
  have pos := ring.size_pos inside
  have fits := ring.fits
  have bound := q.size.isLt
  -- what is left to do once the items are moved and `i` is the slot of the last one
  have finish : ∀ (item : Nat → α) (back : BitVec w), back.toNat = q.slot (q.len.toNat - 1) →
      (∀ s < q.size.toNat, unroll item q.size.toNat q.front.toNat s = lower q.view j (q.len.toNat - 1) s) →
      Ensures decrementLen (fun _ => post (if j + 1 = q.len.toNat then none else some (q.slot j)))
        { q with item := item, back := back } := by
    intro item back last moved
    refine ensures_decrementLen (Nat.zero_lt_of_lt inside) fun len len_eq => ?_
    simp only at len_eq
    refine holds _ ⟨?_, fun _ => ring.front_lt pos, fun _ => ?_⟩ rfl rfl ?_
    · simp only; omega
    · simp only [last, len_eq]
      rfl
    · simp only [Queue.contents, Queue.view, len_eq]
      rw [segment_congr fun s _ less => moved s (by omega)]
      exact segment_lower (by omega)
  have stored : ∀ i, i < q.size.toNat → (BitVec.ofNat w i).toNat = i := fun i less => by
    rw [BitVec.toNat_ofNat, Nat.mod_eq_of_lt (less.trans bound)]
  unfold queueIterRemove
  simp only [ensures_bind, ensures_get]
  apply ensures_nextSlot pos
  by_cases last : j + 1 = q.len.toNat
  · have here : q.slot j < q.size.toNat := around_lt pos
    simp only [if_pos ((ring.next_eq_back inside).mpr last), ensures_bind, ensures_modify, ensures_pure]
    apply ensures_counter (here.trans bound)
    have done := finish q.item (BitVec.ofNat w (q.slot j)) (by rw [stored _ here, ← last]; rfl) fun s _ => by
      rw [← last, Nat.add_sub_cancel, lower_self]; rfl
    rw [if_pos last] at done
    exact done
  · have first : ¬ (q.slot j + 1) % q.size.toNat = q.back.toNat := mt (ring.next_eq_back inside).mp last
    have here : q.slot (q.len.toNat - 1) < q.size.toNat := around_lt pos
    simp only [if_neg first, ensures_bind, ensures_modify, ensures_pure]
    refine ring.ensures_removeLoop (by omega) fun item moved => ensures_counter (here.trans bound) ?_
    have done := finish item (BitVec.ofNat w (q.slot (q.len.toNat - 1))) (stored _ here) moved
    rw [if_neg last] at done
    exact done

end Ring

end Embedlib.ArrayUtils
