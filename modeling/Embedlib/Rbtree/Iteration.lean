import Embedlib.Rbtree.Runs

/-! `rb_first`, `rb_last`, `rb_next` and `rb_prev`, and a sweep that removes
nodes as it goes. -/

set_option autoImplicit false

namespace Embedlib.Rbtree

open Library Rb Spine

section
variable {ν : Type} {s : State ν} {d : Dir} {sp : Spine ν} {t : ColorTree ν} {x : ν} {back front : List ν}
  {fuel : Nat} {post : Ptr ν → State ν → Prop}

theorem ensures_rbIter (shows : s.Shows t) (enough : t.height ≤ fuel)
    (holds : post (t.sweep d).head? s) : Ensures (rbIter fuel d.flip) post s := by
  unfold rbIter
  have root : s.root = t.root := shows.root_eq
  simp only [ensures_bind, ensures_get, root]
  by_cases empty : t = .nil
  · subst empty
    rw [sweep_nil] at holds
    exact holds
  · have first := outermost_lands d [] empty
    have edge : beyond d ([] : Spine ν) = [] := by cases d <;> rfl
    rw [edge, List.append_nil] at first
    have root : (outermost d.flip [] t).2.root = (t.sweep d).head? := first.root_eq
    obtain _ | ⟨c, l, y, r⟩ := t
    · exact absurd rfl empty
    · have whole : s.Shows (plug [] (.node c l y r)) := shows
      exact ensures_walk whole ColorTree.node_ne_nil enough (root ▸ holds)

variable [DecidableEq ν]

theorem ensures_climb (shows : s.Shows (sp.plug t)) (root : t.root = some x) (enough : sp.length < fuel)
    (holds : post ((climb d sp t).bind fun p => p.2.root) s) :
    Ensures (loop (climbRound d) fuel (some x)) post s := by
  obtain ⟨fuel, rfl⟩ : ∃ k, fuel = k + 1 := ⟨fuel - 1, by omega⟩
  rw [ensures_loop_succ]
  have up : (s.mem x).parent = sp.top := by
    obtain ⟨c, near, far, rfl⟩ := ColorTree.exists_join root .left
    rw [shows.node_eq, nodeRecord_parent]
  fun_induction climb d sp t generalizing x fuel with
  | case1 t =>
    unfold climbRound
    simp only [ensures_bind, ensures_rbParent, up]
    exact holds
  | case2 f sp t against =>
    have other := shows.sibling_ne root
    -- Coming from the other side, the node asked about is the sibling.
    have turned : (s.mem f.value).child d = f.sibling.root := by
      rw [shows.frame_eq, against, recordAt_flip, nodeRecord_near]
    unfold climbRound
    simp only [ensures_bind, ensures_rbParent, up, top, ensures_rbChild, turned, other, if_false,
      ensures_pure]
    simpa [Frame.fill] using holds
  | case3 f sp t against ih =>
    have along : f.dir = d := by simpa using Dir.eq_flip_of_ne against
    have turned : (s.mem f.value).child d = some x := by
      rw [shows.frame_eq, along, nodeRecord_near, root]
    unfold climbRound
    simp only [ensures_bind, ensures_rbParent, up, top, ensures_rbChild, turned, if_true,
      ensures_pure]
    rw [List.length_cons] at enough
    obtain ⟨fuel, rfl⟩ : ∃ k, fuel = k + 1 := ⟨fuel - 1, by omega⟩
    rw [Turn.meets_again, ensures_loop_succ]
    apply ih shows (ColorTree.join_root ..) holds fuel (by omega)
    rw [shows.frame_eq, nodeRecord_parent]

theorem ensures_rbIterNext (shows : s.Shows (sp.plug t)) (focus : Focus d sp t back x front)
    (enough : (sp.plug t).height < fuel) (holds : post front.head? s) :
    Ensures (rbIterNext fuel (some x) d) post s := by
  have next := (step_lands focus).root_eq
  have deep := length_height_le sp t
  obtain ⟨c, near, far, rfl⟩ := ColorTree.exists_join focus.root_eq d
  rw [ColorTree.join_height] at deep
  unfold rbIterNext
  simp only [ensures_bind, ensures_rbChild, shows.node_eq, nodeRecord_near]
  by_cases present : near = .nil
  · subst present
    rw [step_up] at next
    exact ensures_climb shows (ColorTree.join_root ..) (by omega) (next ▸ holds)
  · rw [step_down d sp c x far present] at next
    obtain _ | ⟨e, a, z, b⟩ := near
    · exact absurd rfl present
    have reached : (outermost d.flip (⟨d, c, x, far⟩ :: sp) (.node e a z b)).2.root = front.head? := next
    exact ensures_walk shows.near ColorTree.node_ne_nil (by omega) (reached ▸ holds)

end

/-- One round of the sweep `for (it = rb_first(root); it != NULL; it = nxt)`, which
takes `nxt = rb_next(it)` and then removes the nodes in `erased`. The nodes that
were visited are listed. -/
def sweepRound {ν : Type} [DecidableEq ν] (erased : ν → Bool) (fuel : Nat) (at_ : List ν × Ptr ν) :
    Program (State ν) (Turn (List ν × Ptr ν) (List ν)) := do
  match at_.2 with
  | none => return .leave at_.1
  | some it =>
    let nxt ← rbNext fuel (some it)
    if erased it then rbRemove fuel (some it)
    return .again (at_.1 ++ [it], nxt)

def eraseSweep {ν : Type} [DecidableEq ν] (erased : ν → Bool) (fuel : Nat) : Program (State ν) (List ν) := do
  let it ← rbFirst fuel
  loop (sweepRound erased fuel) fuel ([], it)

section
variable {ν : Type} [DecidableEq ν] {s : State ν} {t : ColorTree ν} {x : ν} {fuel : Nat}
  {erased : ν → Bool}

/-- Between two rounds of the sweep: `visited` is done, `front` is still to come. -/
def Sweeping (erased : ν → Bool) (bound : Nat) (visited front : List ν) (s : State ν) : Prop :=
  ∃ t, s.Shows t ∧ IsRedBlack t ∧ t.toList = visited.filter (!erased ·) ++ front ∧ t.size ≤ bound

theorem ensures_sweepRound {visited front : List ν} {bound : Nat}
    (sweeping : Sweeping erased bound visited (x :: front) s) (enough : bound < fuel) :
    Ensures (sweepRound erased fuel (visited, some x)) (fun turn s' =>
      turn = .again (visited ++ [x], front.head?) ∧ Sweeping erased bound (visited ++ [x]) front s') s := by
  obtain ⟨t, shows, redBlack, listed, small⟩ := sweeping
  obtain ⟨sp, c, l, r, rfl, focus⟩ := exists_focus listed
  have low := ColorTree.height_le_size (plug sp (.node c l x r))
  unfold sweepRound
  simp only [ensures_bind]
  -- The next node is taken before the removal, from the tree as it is.
  apply ensures_rbIterNext shows focus (by omega)
  cases gone : erased x with
  | false =>
    have kept : (visited ++ [x]).filter (!erased ·) = visited.filter (!erased ·) ++ [x] := by
      simp [gone]
    refine ⟨rfl, _, shows, redBlack, ?_, small⟩
    rw [listed, kept, List.append_assoc]
    rfl
  | true =>
    have dropped : (visited ++ [x]).filter (!erased ·) = visited.filter (!erased ·) := by simp [gone]
    simp only [if_true, ensures_bind]
    apply ensures_rbRemove shows redBlack (by omega)
    intro s' shows'
    have rest := focus.removeAt_toList
    refine ⟨rfl, _, shows', removeAt_isRedBlack redBlack, by rw [rest, dropped], ?_⟩
    have before := congrArg List.length listed
    have after := congrArg List.length rest
    simp only [ColorTree.length_toList, List.length_append, List.length_cons] at before after
    omega

theorem ensures_eraseSweep (shows : s.Shows t) (redBlack : IsRedBlack t) (enough : t.size < fuel) :
    Ensures (eraseSweep erased fuel) (fun visited s' => visited = t.toList ∧ ∃ left, s'.Shows left ∧
      IsRedBlack left ∧ left.toList = t.toList.filter (!erased ·)) s := by
  have low := ColorTree.height_le_size t
  unfold eraseSweep
  simp only [ensures_bind]
  have first : Ensures (rbFirst fuel) (fun it => Ensures (loop (sweepRound erased fuel) fuel ([], it))
      fun visited s' => visited = t.toList ∧ ∃ left, s'.Shows left ∧ IsRedBlack left ∧
        left.toList = t.toList.filter (!erased ·)) s := by
    apply ensures_rbIter (d := .right) shows (by omega)
    refine ensures_loop (fun left at_ s => ∃ front, at_.2 = front.head? ∧ at_.1 ++ front = t.toList ∧
      front.length = left ∧ Sweeping erased t.size at_.1 front s) ?_ enough
      ⟨t.toList, rfl, rfl, ColorTree.length_toList t, t, shows, redBlack, by simp, Nat.le_refl _⟩
    rintro left ⟨visited, it⟩ s' ⟨front, rfl, whole, rfl, sweeping⟩
    cases front with
    | nil =>
      obtain ⟨t', shows', redBlack', listed, _⟩ := sweeping
      simp only [List.append_nil] at whole listed
      exact ⟨whole, t', shows', redBlack', by rw [listed, whole]⟩
    | cons x rest =>
      apply (ensures_sweepRound sweeping enough).mono
      intro turn s'' next
      obtain ⟨rfl, sweeping'⟩ := next
      exact ⟨rest.length, by simp, rest, rfl, by simpa using whole, rfl, sweeping'⟩
  exact first

end

section
variable {ν δ κ : Type} [LinearOrder κ] [DecidableEq ν] {store : Store ν δ} {t : ColorTree ν} {fuel : Nat}

omit [DecidableEq ν] in
theorem Store.perform_reads {store : Store ν δ} {program : Program (State ν) (Ptr ν)} {p : Ptr ν}
    (ensured : Ensures program (fun q s => q = p ∧ s = ⟨store.mem, store.root⟩) ⟨store.mem, store.root⟩) :
    store.perform program = .ok (p, store) := by
  obtain ⟨q, s, ran, rfl, rfl⟩ := store.perform_ok ensured
  exact ran

omit [DecidableEq ν] in
theorem Store.first_eq (shows : Library.Shows nodeRecord store.mem store.root t) (enough : t.height ≤ fuel) :
    store.perform (rbFirst fuel) = .ok (t.toList.head?, store) :=
  Store.perform_reads (ensures_rbIter (d := .right) (s := ⟨store.mem, store.root⟩) shows enough ⟨rfl, rfl⟩)

omit [DecidableEq ν] in
theorem Store.last_eq (shows : Library.Shows nodeRecord store.mem store.root t) (enough : t.height ≤ fuel) :
    store.perform (rbLast fuel) = .ok (t.toList.getLast?, store) := by
  rw [← List.head?_reverse]
  exact Store.perform_reads
    (ensures_rbIter (d := .left) (s := ⟨store.mem, store.root⟩) shows enough ⟨rfl, rfl⟩)

theorem Store.next_eq (shows : Library.Shows nodeRecord store.mem store.root t) (enough : t.height < fuel)
    {x : ν} {a b : List ν} (listed : t.toList = a ++ x :: b) :
    store.perform (rbNext fuel (some x)) = .ok (b.head?, store) ∧
      store.perform (rbPrev fuel (some x)) = .ok (a.getLast?, store) := by
  obtain ⟨sp, c, l, r, rfl, focus⟩ := exists_focus listed
  rw [← List.head?_reverse]
  exact ⟨Store.perform_reads
      (ensures_rbIterNext (s := ⟨store.mem, store.root⟩) shows focus enough ⟨rfl, rfl⟩),
    Store.perform_reads
      (ensures_rbIterNext (s := ⟨store.mem, store.root⟩) shows focus.flip enough ⟨rfl, rfl⟩)⟩

variable (c : Comparators δ κ)

/-- After any run, the iterators step through the stored nodes in order, and a
sweep that removes some of them as it goes visits all and keeps the others. -/
theorem iteration_exact (mem : Records ν) (data : ν → δ) (requests : List (Request ν δ κ))
    (admitted : (Ref.init data).AdmitsAll c requests) {fuel : Nat} (enough : requests.length < fuel) :
    ∃ results store tree, (Store.init mem data).serveAll c fuel requests = .ok (results, store) ∧
      Library.Shows nodeRecord store.mem store.root tree ∧
      store.perform (rbFirst fuel) = .ok (tree.toList.head?, store) ∧
      store.perform (rbLast fuel) = .ok (tree.toList.getLast?, store) ∧
      (∀ a x b, tree.toList = a ++ x :: b →
        store.perform (rbNext fuel (some x)) = .ok (b.head?, store) ∧
        store.perform (rbPrev fuel (some x)) = .ok (a.getLast?, store)) ∧
      ∀ erased : ν → Bool, ∃ swept left,
        store.perform (eraseSweep erased fuel) = .ok (tree.toList, swept) ∧
        Library.Shows nodeRecord swept.mem swept.root left ∧ IsRedBlack left ∧
        left.toList = tree.toList.filter (!erased ·) := by
  obtain ⟨store, model, ran, _, shows, keeps, small⟩ := serveAll_init mem admitted (show _ ≤ fuel by omega)
  have low := ColorTree.height_le_size model.tree
  refine ⟨_, store, model.tree, ran, shows.tree, Store.first_eq shows.tree (by omega),
    Store.last_eq shows.tree (by omega), fun a x b listed => Store.next_eq shows.tree (by omega) listed,
    fun erased => ?_⟩
  have start : State.Shows ⟨store.mem, store.root⟩ model.tree := shows.tree
  obtain ⟨visited, s, swept, rfl, left, shows', redBlack, kept⟩ :=
    store.perform_ok (ensures_eraseSweep start keeps.redBlack (show _ < fuel by omega))
  exact ⟨_, left, swept, shows', redBlack, kept⟩

theorem iteration_exact_recycle :
    ∃ results store tree,
      (Store.init (fun _ => ⟨none, .red, none, none⟩) fun _ => 0).serveAll aNode 7 recycle =
        .ok (results, store) ∧
      Library.Shows nodeRecord store.mem store.root tree ∧
      store.perform (rbFirst 7) = .ok (tree.toList.head?, store) ∧
      store.perform (rbLast 7) = .ok (tree.toList.getLast?, store) ∧
      (∀ a x b, tree.toList = a ++ x :: b →
        store.perform (rbNext 7 (some x)) = .ok (b.head?, store) ∧
        store.perform (rbPrev 7 (some x)) = .ok (a.getLast?, store)) ∧
      ∀ erased : Nat → Bool, ∃ swept left,
        store.perform (eraseSweep erased 7) = .ok (tree.toList, swept) ∧
        Library.Shows nodeRecord swept.mem swept.root left ∧ IsRedBlack left ∧
        left.toList = tree.toList.filter (!erased ·) :=
  iteration_exact aNode _ _ _ recycle_admitted (by decide)

end

end Embedlib.Rbtree
