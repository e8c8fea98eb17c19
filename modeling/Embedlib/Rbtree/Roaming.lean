import Embedlib.Rb.Travels
import Embedlib.Rbtree.Iteration

/-! The loop from `rb_first` by `rb_next`, and from `rb_last` by `rb_prev`, with
requests to the tree in its body. -/

set_option autoImplicit false

namespace Embedlib.Rbtree

open Library Rb Spine

variable {ν δ κ : Type}

/-- From a stored node to the next one, with requests in each round. The visited nodes
are listed. -/
def Store.roam [DecidableEq ν] [LinearOrder κ] (c : Comparators δ κ) (fuel : Nat) (d : Dir) (store : Store ν δ)
    (it : Ptr ν) : List (List (Request ν δ κ)) → Except Fault (List ν × Store ν δ × Ptr ν)
  | [] => return ([], store, it)
  | requests :: rest => do
    match it with
    | none => return ([], store, none)
    | some x =>
      let (_, store) ← store.serveAll c fuel requests
      let (nxt, store) ← store.perform (rbIterNext fuel (some x) d)
      let (visited, final) ← store.roam c fuel d nxt rest
      return (x :: visited, final)

section
variable {t : ColorTree ν} {x : ν}

theorem exists_focus_of_mem (d : Dir) (member : x ∈ t.toList) :
    ∃ sp u back front, plug sp u = t ∧ Focus d sp u back x front := by
  obtain ⟨a, b, listed⟩ := List.append_of_mem member
  obtain ⟨sp, c, l, r, whole, focus⟩ := exists_focus listed
  cases d with
  | left => exact ⟨sp, _, b, a.reverse, whole, focus.flip⟩
  | right => exact ⟨sp, _, a.reverse, b, whole, focus⟩

end

section
variable [LinearOrder κ] [DecidableEq ν] {c : Comparators δ κ} {store : Store ν δ} {model : Model ν δ}
  {ref final : Ref ν δ κ} {fuel : Nat} {d : Dir}

omit [DecidableEq ν] in
theorem Store.start_eq {start : Option (κ × ν)} (shows : store.Shows model) (keeps : Keeps c model ref)
    (first : ref.First d (fun _ => True) start) (enough : model.tree.height ≤ fuel) :
    store.perform (rbIter fuel d.flip) = .ok (start.map Prod.snd, store) := by
  rw [first.start_eq keeps.lists]
  exact Store.perform_reads (ensures_rbIter (s := ⟨store.mem, store.root⟩) shows.tree enough ⟨rfl, rfl⟩)

theorem Store.step_eq {k : κ} {x : ν} {next : Option (κ × ν)} (shows : store.Shows model) (keeps : Keeps c model ref)
    (stored : ref.map k = some x) (first : ref.First d (Past d k) next) (enough : model.tree.height < fuel) :
    store.perform (rbIterNext fuel (some x) d) = .ok (next.map Prod.snd, store) := by
  obtain ⟨member, rfl⟩ := (keeps.lists.entries k x).mp stored
  obtain ⟨sp, u, back, front, whole, focus⟩ := exists_focus_of_mem d member
  have tree := shows.tree
  have listed := focus.sweep_eq
  rw [← whole] at tree enough
  rw [whole] at listed
  rw [first.next_eq keeps.lists listed]
  exact Store.perform_reads (ensures_rbIterNext (s := ⟨store.mem, store.root⟩) tree focus enough ⟨rfl, rfl⟩)

theorem Store.Shows.roam {at_ last : Option (κ × ν)} {rounds : List (List (Request ν δ κ))} {visited : List (κ × ν)}
    (travels : Ref.Travels c d ref at_ rounds visited final last) (shows : store.Shows model)
    (keeps : Keeps c model ref) (standing : ∀ entry, at_ = some entry → ref.map entry.1 = some entry.2)
    (enough : model.tree.size + rounds.flatten.length < fuel) :
    ∃ after model, store.roam c fuel d (at_.map Prod.snd) rounds =
        .ok (visited.map Prod.snd, after, last.map Prod.snd) ∧
      after.Shows model ∧ Keeps c model final := by
  induction travels generalizing store model with
  | @done ref rounds =>
    refine ⟨store, model, ?_, shows, keeps⟩
    cases rounds <;> rfl
  | pause => exact ⟨store, model, rfl, shows, keeps⟩
  | @visit ref final k x requests next last rest visited admitted spared first others ih =>
    rw [List.flatten_cons, List.length_append] at enough
    obtain ⟨after, ran, shows⟩ := Store.serveAll_sound shows keeps admitted (show _ ≤ fuel by omega)
    have grown := Model.serveAll_size_le (c := c) model requests
    obtain ⟨_, keeps⟩ := keeps.serveAll admitted
    have low := ColorTree.height_le_size (model.serveAll c requests).2.tree
    have stored := Ref.serveAll_entry (standing _ rfl) admitted spared
    have stepped := Store.step_eq shows keeps stored first (show _ < fuel by omega)
    have forward : ∀ entry, next = some entry → (ref.serveAll c requests).2.map entry.1 = some entry.2 := by
      rintro ⟨k', y⟩ rfl
      exact first.entry
    obtain ⟨end_, model', rested, shown, kept⟩ := ih shows keeps forward (by omega)
    refine ⟨end_, model', ?_, shown, kept⟩
    simp only [Store.roam, Option.map_some, ran, bind, Except.bind, stepped, rested]
    rfl

end

section
variable [LinearOrder κ] [DecidableEq ν] (c : Comparators δ κ)

/-- After any run, a loop from the first node in direction `d` visits the nodes in the
order of their keys, whatever requests its body makes as long as they leave the node
that it is at: it skips the nodes that were taken and meets those that came up ahead,
and when it ends it has met every node of the start that was never taken. -/
theorem roam_exact (mem : Records ν) (data : ν → δ) (requests : List (Request ν δ κ))
    (admitted : (Ref.init data).AdmitsAll c requests) {ref final : Ref ν δ κ} {d : Dir}
    (reached : ((Ref.init data).serveAll c requests).2 = ref) {start last : Option (κ × ν)}
    (first : ref.First d (fun _ => True) start) {rounds : List (List (Request ν δ κ))} {visited : List (κ × ν)}
    (travels : Ref.Travels c d ref start rounds visited final last) {fuel : Nat}
    (enough : requests.length + rounds.flatten.length < fuel) :
    ∃ results store after, (Store.init mem data).serveAll c fuel requests = .ok (results, store) ∧
      store.perform (rbIter fuel d.flip) = .ok (start.map Prod.snd, store) ∧
      store.roam c fuel d (start.map Prod.snd) rounds = .ok (visited.map Prod.snd, after, last.map Prod.snd) ∧
      after.Represents c final ∧ visited.Pairwise (fun a b => Past d a.1 b.1) ∧
      (last = none → ∀ k x, ref.map k = some x →
        (∀ requests ∈ rounds, ∀ request ∈ requests, ¬ request.Takes k x) → (k, x) ∈ visited) ∧
      ∀ k x more, last = some (k, x) → final.AdmitsAll c more → (∀ request ∈ more, ¬ request.Takes k x) →
        ∃ next, Ref.Travels c d ref start (rounds ++ [more]) (visited ++ [(k, x)]) (final.serveAll c more).2 next := by
  subst reached
  obtain ⟨store, model, ran, _, shows, keeps, small⟩ := serveAll_init mem admitted (show _ ≤ fuel by omega)
  have low := ColorTree.height_le_size model.tree
  have standing : ∀ entry, start = some entry → ((Ref.init data).serveAll c requests).2.map entry.1 = some entry.2 := by
    rintro ⟨k, x⟩ rfl
    exact first.entry
  obtain ⟨after, model', roamed, shown, kept⟩ := shows.roam travels keeps standing (show _ < fuel by omega)
  refine ⟨_, store, after, ran, Store.start_eq shows keeps first (by omega), roamed, shown.represents c kept,
    travels.ascending, ?_, ?_⟩
  · rintro rfl k x stored spared
    refine travels.complete stored spared ?_
    cases start with
    | none => exact nomatch (first k trivial).symm.trans stored
    | some entry => exact ⟨entry, rfl, first.entry, first.2.2 k trivial (by rw [stored]; exact nofun)⟩
  · rintro k x more rfl allowed spared
    have lists := (kept.serveAll allowed).2.lists
    obtain ⟨next, step⟩ := Ref.exists_first (final.serveAll c more).2.data lists d (Past d k)
    exact ⟨next, travels.extend allowed spared step⟩

theorem roam_exact_detour :
    let final := (afterReuse.serveAll aNode detour.flatten).2
    ∃ results store after,
      (Store.init (fun _ => ⟨none, .red, none, none⟩) fun _ => 0).serveAll aNode 9 (reuse.map .call) =
        .ok (results, store) ∧
      store.perform (rbIter 9 .left) = .ok (some 2, store) ∧
      store.roam aNode 9 .right (some 2) detour = .ok ([2, 3], after, none) ∧
      after.Represents aNode final ∧
      [((20 : Int), 2), (25, 3)].Pairwise (fun a b => Past .right a.1 b.1) ∧
      ((none : Option (Int × Nat)) = none → ∀ k x, afterReuse.map k = some x →
        (∀ requests ∈ detour, ∀ request ∈ requests, ¬ request.Takes k x) → (k, x) ∈ [(20, 2), (25, 3)]) ∧
      ∀ k x more, (none : Option (Int × Nat)) = some (k, x) → final.AdmitsAll aNode more →
        (∀ request ∈ more, ¬ request.Takes k x) →
        ∃ next, Ref.Travels aNode .right afterReuse (some (20, 2)) (detour ++ [more]) ([(20, 2), (25, 3)] ++ [(k, x)])
          (final.serveAll aNode more).2 next :=
  roam_exact aNode _ _ _ (Ref.admitsAll_calls.mpr reuse_allowed) rfl detour_first detour_travels (by decide)

end

end Embedlib.Rbtree
