import Embedlib.Library.Cursor
import Embedlib.Rb.Requests

/-! Iteration over a map to which requests are made in each round.

The iterator stands at a stored node. Requests may add and remove any nodes but that
one, and the next node is the nearest of those that are stored then.
-/

set_option autoImplicit false

namespace Embedlib.Rb

open Library

variable {ν δ κ : Type}

/-- The keys from `k` on in direction `d`, without `k`. -/
def Past [LT κ] (d : Dir) (k k' : κ) : Prop :=
  match d with
  | .left => k' < k
  | .right => k < k'

/-- The request removes the node `x`, or that with the key `k`. -/
def Request.Takes (k : κ) (x : ν) : Request ν δ κ → Prop
  | .call (.insert _ _) => False
  | .call (.find _) => False
  | .call (.remove key) => key = k
  | .erase node => node = x

section
variable [LinearOrder κ]

/-- The first entry in direction `d` with a key in `keys`. -/
def Ref.First (d : Dir) (ref : Ref ν δ κ) (keys : κ → Prop) : Option (κ × ν) → Prop
  | none => ∀ k, keys k → ref.map k = none
  | some (k, x) => keys k ∧ ref.map k = some x ∧ ∀ k', keys k' → ref.map k' ≠ none → k' = k ∨ Past d k k'

/-- An iteration from one entry to the next, with requests in each round, until they
or the entries end. -/
inductive Ref.Travels [DecidableEq ν] (c : Comparators δ κ) (d : Dir) :
    Ref ν δ κ → Option (κ × ν) → List (List (Request ν δ κ)) → List (κ × ν) → Ref ν δ κ → Option (κ × ν) → Prop where
  | done {ref : Ref ν δ κ} {rounds : List (List (Request ν δ κ))} : Travels c d ref none rounds [] ref none
  | pause {ref : Ref ν δ κ} {at_ : κ × ν} : Travels c d ref (some at_) [] [] ref (some at_)
  | visit {ref final : Ref ν δ κ} {k : κ} {x : ν} {requests : List (Request ν δ κ)} {next last : Option (κ × ν)}
      {rest : List (List (Request ν δ κ))} {visited : List (κ × ν)} :
      ref.AdmitsAll c requests → (∀ request ∈ requests, ¬ request.Takes k x) →
      (ref.serveAll c requests).2.First d (Past d k) next →
      Travels c d (ref.serveAll c requests).2 next rest visited final last →
      Travels c d ref (some (k, x)) (requests :: rest) ((k, x) :: visited) final last

variable {c : Comparators δ κ} {d : Dir} {ref : Ref ν δ κ} {k k' k'' : κ} {x : ν}

theorem past_irrefl : ¬ Past d k k := by
  cases d
  · exact lt_irrefl k
  · exact lt_irrefl k

theorem Past.trans (first : Past d k k') (second : Past d k' k'') : Past d k k'' := by
  cases d
  · exact lt_trans second first
  · exact lt_trans first second

theorem Ref.First.entry {keys : κ → Prop} (first : ref.First d keys (some (k, x))) : ref.map k = some x := first.2.1

variable [DecidableEq ν]

theorem Ref.serve_entry (stored : ref.map k = some x) {request : Request ν δ κ} (admitted : ref.Admits c request)
    (spared : ¬ request.Takes k x) : (ref.serve c request).2.map k = some x := by
  have kept {key : κ} (other : key ≠ k) : Function.update ref.map key none k = some x := by
    rwa [Function.update_of_ne other.symm]
  rcases request with (⟨node, content⟩ | key | key) | node
  · simp only [Ref.serve, Ref.call]
    cases found : ref.map (c.keyOf content) with
    | some y => exact stored
    | none =>
      have other : k ≠ c.keyOf content := by
        rintro rfl
        rw [stored] at found
        cases found
      exact (Function.update_of_ne other _ _).trans stored
  · exact stored
  · exact kept spared
  · refine kept fun same => spared ?_
    have entry : ref.map (c.keyOf (ref.data node)) = some node := admitted
    rw [same, stored] at entry
    exact (Option.some.inj entry).symm

theorem Ref.serveAll_entry (stored : ref.map k = some x) {requests : List (Request ν δ κ)}
    (admitted : ref.AdmitsAll c requests) (spared : ∀ request ∈ requests, ¬ request.Takes k x) :
    (ref.serveAll c requests).2.map k = some x := by
  induction requests generalizing ref with
  | nil => exact stored
  | cons request rest ih =>
    obtain ⟨here, others⟩ := admitted
    obtain ⟨first, spared⟩ := List.forall_mem_cons.mp spared
    exact ih (Ref.serve_entry stored here first) others spared

section
variable {at_ last : Option (κ × ν)} {rounds : List (List (Request ν δ κ))} {visited : List (κ × ν)} {final : Ref ν δ κ}

theorem Ref.Travels.past (travels : Ref.Travels c d ref at_ rounds visited final last) {k : κ}
    (start : ∀ entry, at_ = some entry → Past d k entry.1) : ∀ entry ∈ visited, Past d k entry.1 := by
  induction travels generalizing k with
  | done | pause => nofun
  | visit _ _ first _ ih =>
    have here := start _ rfl
    refine List.forall_mem_cons.mpr ⟨here, ih ?_⟩
    rintro ⟨k', y⟩ rfl
    exact here.trans first.1

theorem Ref.Travels.ascending (travels : Ref.Travels c d ref at_ rounds visited final last) :
    visited.Pairwise fun a b => Past d a.1 b.1 := by
  induction travels with
  | done | pause => exact List.Pairwise.nil
  | visit _ _ first rest ih =>
    refine List.pairwise_cons.mpr ⟨rest.past ?_, ih⟩
    rintro ⟨k', y⟩ rfl
    exact first.1

/-- A travel that pauses at an entry goes on with any requests that leave the entry alone. -/
theorem Ref.Travels.extend {requests : List (Request ν δ κ)} {next : Option (κ × ν)}
    (travels : Ref.Travels c d ref at_ rounds visited final (some (k, x))) (admitted : final.AdmitsAll c requests)
    (spared : ∀ request ∈ requests, ¬ request.Takes k x)
    (first : (final.serveAll c requests).2.First d (Past d k) next) :
    Ref.Travels c d ref at_ (rounds ++ [requests]) (visited ++ [(k, x)]) (final.serveAll c requests).2 next := by
  generalize pauses : some (k, x) = last at travels
  induction travels with
  | done => cases pauses
  | pause =>
    cases pauses
    refine .visit admitted spared first ?_
    cases next with
    | none => exact .done
    | some entry => exact .pause
  | visit others standing step _ ih => exact .visit others standing step (ih admitted first pauses)

/-- An entry ahead that no request takes is visited before the iteration is over. -/
theorem Ref.Travels.complete (travels : Ref.Travels c d ref at_ rounds visited final none) {k : κ} {y : ν}
    (stored : ref.map k = some y) (spared : ∀ requests ∈ rounds, ∀ request ∈ requests, ¬ request.Takes k y)
    (ahead : ∃ entry, at_ = some entry ∧ ref.map entry.1 = some entry.2 ∧ (k = entry.1 ∨ Past d entry.1 k)) :
    (k, y) ∈ visited := by
  generalize ends : (none : Option (κ × ν)) = last at travels
  induction travels with
  | done =>
    obtain ⟨_, none, _⟩ := ahead
    cases none
  | pause => cases ends
  | @visit ref _ _ _ requests next _ _ _ admitted _ first _ ih =>
    obtain ⟨_, ⟨⟩, entry, here⟩ := ahead
    obtain ⟨spared, others⟩ := List.forall_mem_cons.mp spared
    rcases here with rfl | beyond
    · rw [stored] at entry
      cases entry
      exact List.mem_cons_self
    · have still := Ref.serveAll_entry stored admitted spared
      have present : (ref.serveAll c requests).2.map k ≠ none := by rw [still]; exact nofun
      refine List.mem_cons_of_mem _ (ih still others ?_ ends)
      cases next with
      | none => exact absurd (first k beyond) present
      | some entry => exact ⟨entry, rfl, first.entry, first.2.2 k beyond present⟩

end

end

/-! ### The sequence of the stored nodes -/

section
variable [LinearOrder κ] {key : ν → κ} {d : Dir} {map : κ → Option ν} {t : ColorTree ν}

theorem sweep_sorted (lists : Lists key map t.toList) (d : Dir) :
    (t.sweep d).Pairwise fun a b => Past d (key a) (key b) := by
  cases d with
  | left => exact List.pairwise_reverse.mpr lists.sorted
  | right => exact lists.sorted

theorem mem_sweep {x : ν} : x ∈ t.sweep d ↔ x ∈ t.toList := by
  cases d
  · exact List.mem_reverse
  · exact Iff.rfl

theorem Ref.First.head_eq {data : ν → δ} {keys : κ → Prop} {entry : Option (κ × ν)} {back front : List ν}
    (first : Ref.First d ⟨data, map⟩ keys entry) (lists : Lists key map t.toList)
    (listed : t.sweep d = back ++ front) (outside : ∀ x ∈ back, ¬ keys (key x)) (inside : ∀ x ∈ front, keys (key x)) :
    entry.map Prod.snd = front.head? := by
  have sorted := sweep_sorted lists d
  rw [listed] at sorted
  have stored (x : ν) (member : x ∈ front) : map (key x) = some x := by
    rw [← lists.mem_iff, ← mem_sweep (d := d), listed]
    exact List.mem_append_right _ member
  cases entry with
  | none =>
    cases front with
    | nil => rfl
    | cons z rest =>
      have gone : map (key z) = none := first _ (inside z List.mem_cons_self)
      rw [stored z List.mem_cons_self] at gone
      cases gone
  | some entry =>
    obtain ⟨k, x⟩ := entry
    obtain ⟨among, found, least⟩ := first
    obtain ⟨member, rfl⟩ := (lists.entries k x).mp found
    rw [← mem_sweep (d := d), listed, List.mem_append] at member
    have here := member.resolve_left fun behind => outside x behind among
    cases front with
    | nil => cases here
    | cons z rest =>
      rcases List.mem_cons.mp here with rfl | later
      · rfl
      · have before := (List.pairwise_cons.mp (List.pairwise_append.mp sorted).2.1).1 x later
        have present : map (key z) ≠ none := by rw [stored z List.mem_cons_self]; exact nofun
        rcases least _ (inside z List.mem_cons_self) present with same | past
        · rw [same] at before
          exact absurd before past_irrefl
        · exact absurd (before.trans past) past_irrefl

theorem Ref.First.start_eq {data : ν → δ} {entry : Option (κ × ν)}
    (first : Ref.First d ⟨data, map⟩ (fun _ => True) entry) (lists : Lists key map t.toList) :
    entry.map Prod.snd = (t.sweep d).head? := by
  have whole : t.sweep d = [] ++ t.sweep d := rfl
  exact first.head_eq lists whole nofun fun _ _ => trivial

theorem Ref.First.next_eq {data : ν → δ} {entry : Option (κ × ν)} {x : ν} {back front : List ν}
    (first : Ref.First d ⟨data, map⟩ (Past d (key x)) entry) (lists : Lists key map t.toList)
    (listed : t.sweep d = back ++ x :: front) : entry.map Prod.snd = front.head? := by
  have sorted := sweep_sorted lists d
  rw [listed] at sorted
  obtain ⟨_, right, across⟩ := List.pairwise_append.mp sorted
  have inside : ∀ y ∈ front, Past d (key x) (key y) := (List.pairwise_cons.mp right).1
  have whole : t.sweep d = (back ++ [x]) ++ front := by rw [listed, List.append_assoc]; rfl
  refine first.head_eq lists whole (fun y member beyond => ?_) inside
  rcases List.mem_append.mp member with behind | here
  · have before := across y behind x List.mem_cons_self
    exact past_irrefl (before.trans beyond)
  · rw [List.mem_singleton] at here
    exact past_irrefl (here ▸ beyond)

theorem Ref.exists_first (data : ν → δ) (lists : Lists key map t.toList) (d : Dir) (keys : κ → Prop) :
    ∃ entry, Ref.First d ⟨data, map⟩ keys entry := by
  classical
  have sorted := sweep_sorted lists d
  have listed {k : κ} (present : map k ≠ none) : ∃ y ∈ t.sweep d, key y = k := by
    obtain ⟨y, entry⟩ := Option.ne_none_iff_exists'.mp present
    obtain ⟨member, same⟩ := (lists.entries k y).mp entry
    exact ⟨y, mem_sweep.mpr member, same⟩
  cases found : (t.sweep d).find? fun y => decide (keys (key y)) with
  | none =>
    refine ⟨none, fun k among => ?_⟩
    by_contra present
    obtain ⟨y, member, rfl⟩ := listed present
    exact List.find?_eq_none.mp found y member (decide_eq_true among)
  | some x =>
    obtain ⟨among, back, front, split, outside⟩ := List.find?_eq_some_iff_append.mp found
    rw [split] at sorted listed
    have stored : map (key x) = some x := by
      rw [← lists.mem_iff, ← mem_sweep (d := d), split]
      exact List.mem_append_right _ List.mem_cons_self
    refine ⟨some (key x, x), of_decide_eq_true among, stored, fun k' among' present => ?_⟩
    obtain ⟨y, member, rfl⟩ := listed present
    rcases List.mem_append.mp member with behind | here
    · have none := outside y behind
      simp [among'] at none
    · rcases List.mem_cons.mp here with rfl | later
      · exact .inl rfl
      · exact .inr ((List.pairwise_cons.mp (List.pairwise_append.mp sorted).2.1).1 y later)

end

/-! ### A detour -/

/-- At the first entry of `reuse` one node comes up ahead and the other is taken; at
the new one the entry that was left behind is taken. -/
def detour : List (List (Request Nat Int Int)) :=
  [[.call (.insert 3 25), .erase 1], [.call (.remove 20)]]

def afterReuse : Ref Nat Int Int := ((Ref.init fun _ => 0).serveAll aNode (reuse.map .call)).2

theorem afterReuse_map (k : Int) :
    afterReuse.map k = if k = 30 then some 1 else if k = 20 then some 2 else none := by
  rw [afterReuse, Ref.serveAll_calls]
  simp [reuse, Ref.run, Ref.call, Ref.init, aNode, Function.update_apply]
  grind

theorem detour_first : afterReuse.First .right (fun _ => True) (some (20, 2)) := by
  refine ⟨trivial, by simp [afterReuse_map], fun k _ present => ?_⟩
  simp only [afterReuse_map] at present
  simp only [Past]
  grind

theorem detour_travels : Ref.Travels aNode .right afterReuse (some (20, 2)) detour [(20, 2), (25, 3)]
    (afterReuse.serveAll aNode detour.flatten).2 none := by
  have content : afterReuse.data 1 = 30 := by decide
  have admitted : afterReuse.AdmitsAll aNode [.call (.insert 3 25), .erase 1] := by
    simp [Ref.AdmitsAll, Ref.Admits, Ref.Allows, Ref.serve, Ref.call, aNode, afterReuse_map, content]
    grind
  have ahead : (afterReuse.serveAll aNode [.call (.insert 3 25), .erase 1]).2.First .right (Past .right 20)
      (some (25, 3)) := by
    simp [Ref.First, Ref.serveAll, Ref.serve, Ref.call, aNode, eraseCall, afterReuse_map, content, Past,
      Function.update_apply]
    grind
  have last : (afterReuse.serveAll aNode detour.flatten).2.First .right (Past .right 25) none := by
    simp [detour, Ref.First, Ref.serveAll, Ref.serve, Ref.call, aNode, eraseCall, afterReuse_map, content, Past,
      Function.update_apply]
    grind
  exact .visit admitted (by simp [Request.Takes]) ahead (.visit ⟨trivial, trivial⟩ (by simp [Request.Takes]) last .done)

end Embedlib.Rb
