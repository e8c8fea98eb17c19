import Embedlib.Library.Traversal
import Embedlib.RbtreeCompact.Cursor
import Embedlib.Rbtree.Iteration

/-! The loop from `rb_first` by `rb_next`, and from `rb_last` by `rb_prev`, takes two
rounds for each node in both trees, however many a single step may take. -/

set_option autoImplicit false

namespace Embedlib.Rbtree

open Library Rb Spine

section
variable {ν : Type} {s : State ν} {d : Dir} {sp : Spine ν} {t : ColorTree ν} {x : ν} {fuel : Nat}
  {post : Ptr ν → State ν → Prop}

theorem ensures_walk_reach (shows : s.Shows (sp.plug t)) (present : t ≠ .nil) (enough : t.reach d ≤ fuel)
    (holds : post (outermost d sp t).2.root s) : Ensures (loop (walkRound d) fuel t.root) post s := by
  induction fuel generalizing sp t with
  | zero =>
    obtain _ | ⟨c, l, y, r⟩ := t
    · exact absurd rfl present
    obtain ⟨c, near, far, same⟩ := ColorTree.exists_join (t := .node c l y r) rfl d
    rw [same, ColorTree.join_reach] at enough
    omega
  | succ fuel ih =>
    obtain _ | ⟨c, l, y, r⟩ := t
    · exact absurd rfl present
    obtain ⟨c, near, far, same⟩ := ColorTree.exists_join (t := .node c l y r) rfl d
    rw [same] at shows enough holds ⊢
    rw [ColorTree.join_reach] at enough
    rw [ensures_loop_succ, ColorTree.join_root]
    unfold walkRound
    simp only [ensures_bind, ensures_rbChild, shows.node_eq, nodeRecord_near]
    obtain _ | ⟨e, a, z, b⟩ := near
    · rw [outermost_stop, ColorTree.join_root] at holds
      exact holds
    · rw [outermost_step d sp c y far (t := .node e a z b) ColorTree.node_ne_nil] at holds
      exact ih shows.near ColorTree.node_ne_nil (by omega) holds

variable [DecidableEq ν]

theorem ensures_climb_rounds (shows : s.Shows (sp.plug t)) (root : t.root = some x) (enough : climbRounds d sp ≤ fuel)
    (holds : post ((climb d sp t).bind fun p => p.2.root) s) :
    Ensures (loop (climbRound d) fuel (some x)) post s := by
  have up : (s.mem x).parent = sp.top := by
    obtain ⟨c, near, far, rfl⟩ := ColorTree.exists_join root .left
    rw [shows.node_eq, nodeRecord_parent]
  fun_induction climb d sp t generalizing x fuel with
  | case1 t =>
    obtain ⟨fuel, rfl⟩ : ∃ k, fuel = k + 1 := ⟨fuel - 1, by rw [climbRounds] at enough; omega⟩
    rw [ensures_loop_succ]
    unfold climbRound
    simp only [ensures_bind, ensures_rbParent, up]
    exact holds
  | case2 f sp t against =>
    rw [climbRounds, if_pos against] at enough
    obtain ⟨fuel, rfl⟩ : ∃ k, fuel = k + 1 := ⟨fuel - 1, by omega⟩
    have other := shows.sibling_ne root
    have turned : (s.mem f.value).child d = f.sibling.root := by
      rw [shows.frame_eq, against, recordAt_flip, nodeRecord_near]
    rw [ensures_loop_succ]
    unfold climbRound
    simp only [ensures_bind, ensures_rbParent, up, top, ensures_rbChild, turned, other, if_false,
      ensures_pure]
    simpa [Frame.fill] using holds
  | case3 f sp t against ih =>
    rw [climbRounds, if_neg against] at enough
    obtain ⟨fuel, rfl⟩ : ∃ k, fuel = k + 1 := ⟨fuel - 1, by omega⟩
    have along : f.dir = d := by simpa using Dir.eq_flip_of_ne against
    have turned : (s.mem f.value).child d = some x := by
      rw [shows.frame_eq, along, nodeRecord_near, root]
    rw [ensures_loop_succ]
    unfold climbRound
    simp only [ensures_bind, ensures_rbParent, up, top, ensures_rbChild, turned, if_true,
      ensures_pure]
    apply ih shows (ColorTree.join_root ..) (by omega) holds
    rw [shows.frame_eq, nodeRecord_parent]

/-- The loop in direction `d`, with a bound on the rounds of each of its calls. -/
def sweepAll (d : Dir) (rounds : List Nat) : Program (State ν) (List ν) :=
  traverse (fun fuel => rbIter fuel d.flip) (fun fuel x => rbIterNext fuel (some x) d) rounds

theorem paced (shows : s.Shows t) (d : Dir) :
    Paced (fun fuel x => rbIterNext fuel (some x) d) (fun _ _ s' => s' = s) (fun s' => s' = s) d t := by
  rintro sp u x _ fuel rfl rfl here enough
  obtain ⟨c, near, far, rfl⟩ := ColorTree.exists_join here d
  unfold stepRounds at enough
  rw [ColorTree.join_near] at enough
  unfold rbIterNext
  simp only [ensures_bind, ensures_rbChild, shows.node_eq, nodeRecord_near]
  cases near with
  | nil =>
    rw [step_up]
    refine ensures_climb_rounds shows (ColorTree.join_root ..) enough ?_
    cases climb d sp (.join d c .nil x far) with
    | none => exact ⟨rfl, rfl⟩
    | some next => exact ⟨rfl, rfl⟩
  | node e a z b =>
    rw [step_down d sp c x far ColorTree.node_ne_nil]
    exact ensures_walk_reach shows.near ColorTree.node_ne_nil enough ⟨rfl, rfl⟩

theorem ensures_sweepAll (shows : s.Shows t) (d : Dir) :
    ∃ rounds : List Nat, rounds.sum = 2 * t.size ∧
      Ensures (sweepAll d rounds) (fun visited s' => visited = t.sweep d ∧ s' = s) s := by
  refine (paced shows d).traverse fun fuel enough => ?_
  have root : s.root = t.root := shows.root_eq
  unfold rbIter
  simp only [ensures_bind, ensures_get, root]
  cases t with
  | nil => exact ⟨rfl, rfl⟩
  | node c l y r =>
    have whole : s.Shows (plug [] (.node c l y r)) := shows
    exact ensures_walk_reach whole ColorTree.node_ne_nil enough ⟨rfl, rfl⟩

end

end Embedlib.Rbtree

namespace Embedlib.RbtreeCompact

open Library Rb Spine

section
variable {ν : Type} [DecidableEq ν] {s : State (Records ν) ν} {d : Dir} {sp : Spine ν} {t : ColorTree ν} {fuel : Nat}
  {post : Ptr ν → State (Records ν) ν → Prop}

/-- Only the path was written since `s`. -/
structure State.Kept (s s' : State (Records ν) ν) : Prop where
  mem_eq : s'.mem = s.mem
  root_eq : s'.root = s.root

omit [DecidableEq ν] in
theorem State.Kept.trans {s₁ s₂ : State (Records ν) ν} (first : s.Kept s₁) (second : s₁.Kept s₂) : s.Kept s₂ :=
  ⟨second.mem_eq.trans first.mem_eq, second.root_eq.trans first.root_eq⟩

theorem ensures_walk_reach (shows : s.Shows (sp.plug t)) (place : s.At sp) (present : t ≠ .nil)
    (enough : t.reach d ≤ fuel)
    (holds : ∀ s', s.Kept s' → s'.At (outermost d sp t).1 → post (outermost d sp t).2.root s') :
    Ensures (loop (walkRound d) fuel t.root) post s := by
  induction fuel generalizing sp t s with
  | zero =>
    obtain _ | ⟨c, l, y, r⟩ := t
    · exact absurd rfl present
    obtain ⟨c, near, far, same⟩ := ColorTree.exists_join (t := .node c l y r) rfl d
    rw [same, ColorTree.join_reach] at enough
    omega
  | succ fuel ih =>
    obtain _ | ⟨c, l, y, r⟩ := t
    · exact absurd rfl present
    obtain ⟨c, near, far, same⟩ := ColorTree.exists_join (t := .node c l y r) rfl d
    rw [same] at shows enough holds ⊢
    rw [ColorTree.join_reach] at enough
    rw [ensures_loop_succ, ColorTree.join_root]
    simp only [walkRound, ensures_bind, ensures_rbChild, records_child, shows.node_eq, nodeRecord_near]
    obtain _ | ⟨e, a, z, b⟩ := near
    · rw [outermost_stop, ColorTree.join_root] at holds
      exact holds s ⟨rfl, rfl⟩ place
    · rw [outermost_step d sp c y far (t := .node e a z b) ColorTree.node_ne_nil] at holds
      simp only [ColorTree.root, ensures_bind]
      apply ensures_push (c := c) (u := far) place
      intro s₁ mem₁ root₁ place₁ _
      have kept : s.Kept s₁ := ⟨mem₁, root₁⟩
      exact ih (State.Shows.same_heap shows.near mem₁ root₁) place₁ ColorTree.node_ne_nil (by omega)
        fun s₂ later => holds s₂ (kept.trans later)

omit [DecidableEq ν] in
theorem ensures_climb_rounds (place : s.At sp) (enough : climbRounds d sp ≤ fuel)
    (holds : ∀ s', s.Kept s' →
      match climb d sp t with
      | none => post none s'
      | some (sp', t') => s'.At sp' → post t'.root s') :
    Ensures (loop (climbRound d) fuel ()) post s := by
  fun_induction climb d sp t generalizing s fuel with
  | case1 t =>
    obtain ⟨fuel, rfl⟩ : ∃ k, fuel = k + 1 := ⟨fuel - 1, by rw [climbRounds] at enough; omega⟩
    rw [ensures_loop_succ]
    unfold climbRound
    simp only [ensures_bind]
    apply ensures_entryAt [] place
    intro entry leads
    have top : entry.parent = none := leads
    rw [top]
    exact holds s ⟨rfl, rfl⟩
  | case2 f sp t against =>
    rw [climbRounds, if_pos against] at enough
    obtain ⟨fuel, rfl⟩ : ∃ k, fuel = k + 1 := ⟨fuel - 1, by omega⟩
    rw [ensures_loop_succ]
    unfold climbRound
    simp only [ensures_bind]
    apply ensures_entryAt [] place
    intro entry leads
    obtain rfl := leads
    simp only [against, if_true, ensures_bind, ensures_pure]
    apply ensures_retreat [_] place
    intro s₁ mem₁ root₁ _ place₁
    simpa [Frame.fill] using holds s₁ ⟨mem₁, root₁⟩ place₁
  | case3 f sp t against ih =>
    rw [climbRounds, if_neg against] at enough
    obtain ⟨fuel, rfl⟩ : ∃ k, fuel = k + 1 := ⟨fuel - 1, by omega⟩
    rw [ensures_loop_succ]
    unfold climbRound
    simp only [ensures_bind]
    apply ensures_entryAt [] place
    intro entry leads
    obtain rfl := leads
    simp only [against, if_false, ensures_bind, ensures_pure]
    apply ensures_retreat [_] place
    intro s₁ mem₁ root₁ _ place₁
    have kept : s.Kept s₁ := ⟨mem₁, root₁⟩
    exact ih place₁ (by omega) fun s₂ later => holds s₂ (kept.trans later)

def sweepAll (d : Dir) (rounds : List Nat) : Program (State (Records ν) ν) (List ν) :=
  traverse (fun fuel => rbIter fuel d.flip) (fun fuel x => rbIterNext fuel (some x) d) rounds

theorem paced (shows : s.Shows t) (d : Dir) :
    Paced (fun fuel x => rbIterNext fuel (some x) d) (fun sp _ s' => s.Kept s' ∧ s'.At sp) s.Kept d t := by
  rintro sp u x s₁ fuel ⟨kept, place⟩ rfl here enough
  obtain ⟨c, near, far, rfl⟩ := ColorTree.exists_join here d
  have shows : s₁.Shows (sp.plug (.join d c near x far)) := shows.same_heap kept.mem_eq kept.root_eq
  unfold stepRounds at enough
  rw [ColorTree.join_near] at enough
  unfold rbIterNext
  simp only [ensures_bind, ensures_rbChild, records_child, shows.node_eq, nodeRecord_near]
  cases near with
  | nil =>
    rw [step_up]
    refine ensures_climb_rounds (t := .join d c .nil x far) place enough fun s₂ later => ?_
    cases climb d sp (.join d c .nil x far) with
    | none => exact ⟨rfl, kept.trans later⟩
    | some next => exact fun place₂ => ⟨rfl, kept.trans later, place₂⟩
  | node e a z b =>
    rw [step_down d sp c x far ColorTree.node_ne_nil]
    simp only [ColorTree.root, ensures_bind]
    apply ensures_push (c := c) (u := far) place
    intro s₂ mem₂ root₂ place₂ _
    have pushed : s₁.Kept s₂ := ⟨mem₂, root₂⟩
    have below : s₂.Shows (plug (⟨d, c, x, far⟩ :: sp) (.node e a z b)) := State.Shows.same_heap shows.near mem₂ root₂
    exact ensures_walk_reach below place₂ ColorTree.node_ne_nil enough
      fun s₃ later place₃ => ⟨rfl, kept.trans (pushed.trans later), place₃⟩

theorem ensures_sweepAll (shows : s.Shows t) (d : Dir) :
    ∃ rounds : List Nat, rounds.sum = 2 * t.size ∧
      Ensures (sweepAll d rounds) (fun visited s' => visited = t.sweep d ∧ s.Kept s') s := by
  refine (paced shows d).traverse fun fuel enough => ?_
  unfold rbIter
  simp only [ensures_bind]
  apply ensures_rbPathInit
  intro s₁ mem₁ root₁ place₁ _
  have kept : s.Kept s₁ := ⟨mem₁, root₁⟩
  have whole : s₁.Shows (plug [] t) := shows.same_heap mem₁ root₁
  have root : s₁.root = t.root := whole.root_eq
  simp only [ensures_get, root]
  cases t with
  | nil => exact ⟨rfl, kept⟩
  | node c l y r =>
    exact ensures_walk_reach whole place₁ ColorTree.node_ne_nil enough
      fun s₂ later place₂ => ⟨rfl, kept.trans later, place₂⟩

end

end Embedlib.RbtreeCompact

namespace Embedlib.Rb

open Library

variable {ν δ κ : Type} [LinearOrder κ] [DecidableEq ν] (c : Comparators δ κ)

/-- After any run the loop visits all stored nodes in order, forwards or backwards,
with two rounds for each of them in all its calls together. -/
theorem traversals_linear (data : ν → δ) (requests : List (Request ν δ κ))
    (admitted : (Ref.init data).AdmitsAll c requests) {fuel : Nat} (enough : requests.length ≤ fuel) :
    (∀ mem : Rbtree.Records ν, ∃ results store tree,
      (Rbtree.Store.init mem data).serveAll c fuel requests = .ok (results, store) ∧
      Shows Rbtree.nodeRecord store.mem store.root tree ∧
      ∀ d, ∃ rounds : List Nat, rounds.sum = 2 * tree.size ∧
        Rbtree.sweepAll d rounds ⟨store.mem, store.root⟩ = .ok (tree.sweep d, ⟨store.mem, store.root⟩)) ∧
    ∀ (mem : RbtreeCompact.Records ν) (calls : List (RbtreeCompact.RbPath ν × Call ν δ κ)),
      (calls.map Prod.snd).map .call = requests → ∃ results store tree,
      (RbtreeCompact.Store.init mem data).run c fuel calls = .ok (results, store) ∧
      Shows RbtreeCompact.nodeRecord store.mem store.root tree ∧
      ∀ d rp, ∃ (rounds : List Nat) (s : RbtreeCompact.State (RbtreeCompact.Records ν) ν),
        rounds.sum = 2 * tree.size ∧
        RbtreeCompact.sweepAll d rounds ⟨store.mem, store.root, rp, []⟩ = .ok (tree.sweep d, s) ∧
        s.mem = store.mem ∧ s.root = store.root := by
  constructor
  · intro mem
    obtain ⟨store, model, ran, _, shows, _⟩ := Rbtree.serveAll_init mem admitted enough
    refine ⟨_, store, model.tree, ran, shows.tree, fun d => ?_⟩
    have start : Rbtree.State.Shows ⟨store.mem, store.root⟩ model.tree := shows.tree
    obtain ⟨rounds, sum, ensured⟩ := Rbtree.ensures_sweepAll start d
    obtain ⟨_, _, swept, rfl, rfl⟩ := ensured.result
    exact ⟨rounds, sum, swept⟩
  · rintro mem calls rfl
    have allowed := Ref.admitsAll_calls.mp admitted
    obtain ⟨store, model, ran, _, shows, _⟩ := RbtreeCompact.run_init mem allowed
      (show _ ≤ fuel by simpa using enough)
    refine ⟨_, store, model.tree, ran, shows.tree, fun d rp => ?_⟩
    have start : RbtreeCompact.State.Shows ⟨store.mem, store.root, rp, []⟩ model.tree := shows.tree
    obtain ⟨rounds, sum, ensured⟩ := RbtreeCompact.ensures_sweepAll start d
    obtain ⟨_, s, swept, rfl, kept⟩ := ensured.result
    exact ⟨rounds, s, sum, swept, kept.mem_eq, kept.root_eq⟩

theorem traversals_linear_reuse :
    (∀ mem : Rbtree.Records Nat, ∃ results store tree,
      (Rbtree.Store.init mem fun _ => 0).serveAll aNode 5 (reuse.map .call) = .ok (results, store) ∧
      Shows Rbtree.nodeRecord store.mem store.root tree ∧
      ∀ d, ∃ rounds : List Nat, rounds.sum = 2 * tree.size ∧
        Rbtree.sweepAll d rounds ⟨store.mem, store.root⟩ = .ok (tree.sweep d, ⟨store.mem, store.root⟩)) ∧
    ∀ (mem : RbtreeCompact.Records Nat) (calls : List (RbtreeCompact.RbPath Nat × Call Nat Int Int)),
      (calls.map Prod.snd).map .call = reuse.map Request.call → ∃ results store tree,
      (RbtreeCompact.Store.init mem fun _ => 0).run aNode 5 calls = .ok (results, store) ∧
      Shows RbtreeCompact.nodeRecord store.mem store.root tree ∧
      ∀ d rp, ∃ (rounds : List Nat) (s : RbtreeCompact.State (RbtreeCompact.Records Nat) Nat),
        rounds.sum = 2 * tree.size ∧
        RbtreeCompact.sweepAll d rounds ⟨store.mem, store.root, rp, []⟩ = .ok (tree.sweep d, s) ∧
        s.mem = store.mem ∧ s.root = store.root :=
  traversals_linear aNode _ (reuse.map .call) (Ref.admitsAll_calls.mpr reuse_allowed) (by decide)

end Embedlib.Rb
