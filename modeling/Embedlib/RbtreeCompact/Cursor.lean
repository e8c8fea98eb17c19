import Embedlib.RbtreeCompact.Runs
import Embedlib.Library.Cursor

/-! A cursor on the compact tree: `rb_first`, `rb_last` or `RB_FIND`, any steps
with `rb_next` and `rb_prev`, and `rb_remove` at the node that was reached. -/

set_option autoImplicit false

namespace Embedlib.RbtreeCompact

open Library Rb Spine

section
variable {ν : Type} [DecidableEq ν] {s : State (Records ν) ν} {d : Dir} {sp : Spine ν}
  {t : ColorTree ν} {x : ν} {back front : List ν} {top fuel : Nat}
  {post : Ptr ν → State (Records ν) ν → Prop}

theorem ensures_rbIter (shows : s.Shows t) (within : s.Within top) (room : t.height ≤ top)
    (enough : t.height ≤ fuel)
    (holds : ∀ s', s'.mem = s.mem → s'.root = s.root → s'.At (outermost d [] t).1 → s'.Within top →
      post (outermost d [] t).2.root s') : Ensures (rbIter fuel d) post s := by
  unfold rbIter
  simp only [ensures_bind]
  apply ensures_rbPathInit
  intro s₁ mem₁ root₁ place₁ written₁
  have whole : s₁.Shows (plug [] t) := shows.same_heap mem₁ root₁
  have within₁ := within.init written₁
  have root : s₁.root = t.root := whole.root_eq
  simp only [ensures_get, root]
  obtain _ | ⟨c, l, y, r⟩ := t
  · exact holds s₁ mem₁ root₁ place₁ within₁
  · exact ensures_walk whole place₁ within₁ ColorTree.node_ne_nil (by simpa using room) enough
      fun s₂ mem₂ root₂ => holds s₂ (mem₂.trans mem₁) (root₂.trans root₁)

omit [DecidableEq ν] in
theorem ensures_climb (place : s.At sp) (enough : sp.length < fuel)
    (holds : ∀ s', s'.mem = s.mem → s'.root = s.root → s'.written = s.written →
      match climb d sp t with
      | none => post none s'
      | some (sp', t') => s'.At sp' → post t'.root s') :
    Ensures (loop (climbRound d) fuel ()) post s := by
  obtain ⟨fuel, rfl⟩ : ∃ k, fuel = k + 1 := ⟨fuel - 1, by omega⟩
  rw [ensures_loop_succ]
  fun_induction climb d sp t generalizing s fuel with
  | case1 t =>
    unfold climbRound
    simp only [ensures_bind]
    apply ensures_entryAt [] place
    intro entry leads
    have top : entry.parent = none := leads
    rw [top]
    exact holds s rfl rfl rfl
  -- Coming from the other side, the source stops at the parent.
  | case2 f sp t against =>
    unfold climbRound
    simp only [ensures_bind]
    apply ensures_entryAt [] place
    intro entry leads
    obtain rfl := leads
    simp only [against, if_true, ensures_bind, ensures_pure]
    apply ensures_retreat [_] place
    intro s₁ mem₁ root₁ written₁ place₁
    simpa [Frame.fill] using holds s₁ mem₁ root₁ written₁ place₁
  | case3 f sp t against ih =>
    unfold climbRound
    simp only [ensures_bind]
    apply ensures_entryAt [] place
    intro entry leads
    obtain rfl := leads
    simp only [against, if_false, ensures_bind, ensures_pure]
    apply ensures_retreat [_] place
    intro s₁ mem₁ root₁ written₁ place₁
    rw [List.length_cons] at enough
    obtain ⟨fuel, rfl⟩ : ∃ k, fuel = k + 1 := ⟨fuel - 1, by omega⟩
    rw [Turn.meets_again, ensures_loop_succ]
    exact ih place₁ (fun s₂ mem₂ root₂ written₂ =>
      holds s₂ (mem₂.trans mem₁) (root₂.trans root₁) (written₂.trans written₁)) fuel (by omega)

theorem ensures_rbIterNext (shows : s.Shows (sp.plug t)) (place : s.At sp) (within : s.Within top)
    (room : (sp.plug t).height ≤ top) (enough : (sp.plug t).height < fuel)
    (focus : Focus d sp t back x front)
    (ends : front = [] → ∀ s', s'.mem = s.mem → s'.root = s.root → s'.Within top → post none s')
    (moves : ∀ y rest, front = y :: rest → ∀ s' sp' t', s'.mem = s.mem → s'.root = s.root →
      s'.At sp' → s'.Within top → plug sp' t' = plug sp t → Focus d sp' t' (x :: back) y rest →
      post (some y) s') :
    Ensures (rbIterNext fuel (some x) d) post s := by
  have lands := step_lands focus
  have deep := length_height_le sp t
  obtain ⟨c, near, far, rfl⟩ := ColorTree.exists_join focus.root_eq d
  rw [ColorTree.join_height] at deep
  unfold rbIterNext
  simp only [ensures_bind, ensures_rbChild, records_child, shows.node_eq, nodeRecord_near]
  have finish : ∀ s', s'.mem = s.mem → s'.root = s.root → s'.Within top →
      match step d sp (.join d c near x far) with
      | none => post none s'
      | some (sp', t') => s'.At sp' → post t'.root s' := by
    intro s' mem root within'
    unfold Lands at lands
    split at lands
    · rw [lands]; exact ends rfl s' mem root within'
    · obtain ⟨sp', t', next, same, focus'⟩ := lands
      rw [next]
      intro place'
      rw [focus'.root_eq]
      exact moves _ _ rfl s' sp' t' mem root place' within' same focus'
  by_cases present : near = .nil
  · subst present
    rw [step_up] at finish
    exact ensures_climb place (by omega) fun s₁ mem₁ root₁ written₁ =>
      finish s₁ mem₁ root₁ (within.of_written written₁)
  · obtain _ | ⟨e, a, z, b⟩ := near
    · exact absurd rfl present
    rw [step_down d sp c x far present] at finish
    simp only [ColorTree.root, ensures_bind]
    apply ensures_push (c := c) (u := far) place
    intro s₁ mem₁ root₁ place₁ written₁
    have within₁ := within.push (by omega) written₁
    have shows₁ : s₁.Shows (plug (⟨d, c, x, far⟩ :: sp) (.node e a z b)) :=
      State.Shows.same_heap shows.near mem₁ root₁
    refine ensures_walk shows₁ place₁ within₁ ColorTree.node_ne_nil (by rw [List.length_cons]; omega)
      (by omega) fun s₂ mem₂ root₂ place₂ within₂ => ?_
    exact finish s₂ (mem₂.trans mem₁) (root₂.trans root₁) within₂ place₂

end

inductive Start (κ : Type) where
  | first
  | last
  | find (key : κ)
  deriving Repr

section
variable {μ ν κ : Type} [NodeMemory μ ν] [DecidableEq ν]

def startAt (keyCmp : κ → ν → Int) (fuel : Nat) : Start κ → Program (State μ ν) (Ptr ν)
  | .first => rbFirst fuel
  | .last => rbLast fuel
  | .find key => rbFind keyCmp fuel key

/-- `rb_next` is a step to the right, `rb_prev` a step to the left; there is no
step from `NULL`. -/
def steps (fuel : Nat) : Ptr ν → List Dir → Program (State μ ν) (Ptr ν)
  | node, [] => return node
  | none, _ :: _ => return none
  | some x, .right :: rest => do steps fuel (← rbNext fuel (some x)) rest
  | some x, .left :: rest => do steps fuel (← rbPrev fuel (some x)) rest

def cursor (keyCmp : κ → ν → Int) (fuel : Nat) (start : Start κ) (moves : List Dir) :
    Program (State μ ν) (Ptr ν) := do
  steps fuel (← startAt keyCmp fuel start) moves

def Start.index [DecidableEq κ] (key : ν → κ) (xs : List ν) : Start κ → Option Nat
  | .first => if xs = [] then none else some 0
  | .last => if xs = [] then none else some (xs.length - 1)
  | .find k => xs.findIdx? fun x => key x = k

def neighbour (n : Nat) (i : Nat) : Dir → Option Nat
  | .left => if 0 < i then some (i - 1) else none
  | .right => if i + 1 < n then some (i + 1) else none

def indexAfter (n : Nat) (start : Option Nat) (moves : List Dir) : Option Nat :=
  moves.foldl (fun index d => index.bind fun i => neighbour n i d) start

end

/-- The cursor `p` stands at `index` in the tree, and the path leads there. -/
structure Stands {ν : Type} (tree : ColorTree ν) (index : Option Nat) (p : Ptr ν)
    (s : State (Records ν) ν) : Prop where
  shows : s.Shows tree
  position : match index, p with
    | none, none => True
    | some i, some x => ∃ sp t back front, s.At sp ∧ plug sp t = tree ∧
        Focus .right sp t back x front ∧ back.length = i
    | _, _ => False

/-- The cursor stands at `index`, and only the path was written since `s`. -/
structure Reached {ν : Type} (s : State (Records ν) ν) (top : Nat) (tree : ColorTree ν)
    (index : Option Nat) (p : Ptr ν) (s' : State (Records ν) ν) : Prop where
  mem_eq : s'.mem = s.mem
  root_eq : s'.root = s.root
  within : s'.Within top
  stands : Stands tree index p s'

section
variable {ν κ : Type} [DecidableEq ν] {s : State (Records ν) ν} {tree : ColorTree ν} {x : ν}
  {index : Option Nat} {i top fuel : Nat}

omit [DecidableEq ν] in
theorem stands_at {sp : Spine ν} {t : ColorTree ν} {back front : List ν} (shows : s.Shows tree)
    (place : s.At sp) (whole : plug sp t = tree) (focus : Focus .right sp t back x front) :
    Stands tree (some back.length) (some x) s :=
  ⟨shows, sp, t, back, front, place, whole, focus, rfl⟩

theorem ensures_neighbour {d : Dir} (stands : Stands tree (some i) (some x) s)
    (within : s.Within top) (room : tree.height ≤ top) (enough : tree.height < fuel) :
    Ensures (rbIterNext fuel (some x) d) (Reached s top tree (neighbour tree.size i d)) s := by
  obtain ⟨shows, sp, t, back, front, place, rfl, focus, rfl⟩ := stands
  have size := congrArg List.length focus.sweep_eq
  simp only [ColorTree.sweep, ColorTree.length_toList, List.length_append, List.length_reverse,
    List.length_cons] at size
  cases d with
  | right =>
    refine ensures_rbIterNext shows place within room enough focus ?_ ?_
    · rintro rfl s' mem root within'
      refine ⟨mem, root, within', State.Shows.same_heap shows mem root, ?_⟩
      simp [neighbour, size]
    · rintro y rest rfl s' sp' t' mem root place' within' same focus'
      refine ⟨mem, root, within', State.Shows.same_heap shows mem root, ?_⟩
      rw [List.length_cons] at size
      rw [neighbour, if_pos (by omega)]
      exact ⟨sp', t', _, _, place', same, focus', rfl⟩
  | left =>
    refine ensures_rbIterNext shows place within room enough focus.flip ?_ ?_
    · rintro rfl s' mem root within'
      refine ⟨mem, root, within', State.Shows.same_heap shows mem root, ?_⟩
      simp [neighbour]
    · rintro y rest rfl s' sp' t' mem root place' within' same focus'
      refine ⟨mem, root, within', State.Shows.same_heap shows mem root, ?_⟩
      rw [neighbour, if_pos (by simp)]
      exact ⟨sp', t', _, _, place', same, focus'.flip, by simp⟩

variable [LinearOrder κ] {key : ν → κ} {map : κ → Option ν} {keyCmp : κ → ν → Int}

theorem ensures_startAt {start : Start κ} (compares : ∀ k x, sideOf (keyCmp k x) = toward key k x)
    (lists : Lists key map tree.toList) (shows : s.Shows tree) (within : s.Within top)
    (room : tree.height ≤ top) (enough : tree.height < fuel) :
    Ensures (startAt keyCmp fuel start) (Reached s top tree (start.index key tree.toList)) s := by
  cases start with
  | first =>
    apply ensures_rbIter shows within room (by omega)
    intro s' mem root place' within'
    have shows' := shows.same_heap mem root
    refine ⟨mem, root, within', ?_⟩
    by_cases empty : tree = .nil
    · subst empty
      exact ⟨shows', trivial⟩
    · obtain ⟨whole, x, rest, focus⟩ := outermost_focus .right empty
      have listed : tree.toList = _ := whole ▸ focus.sweep_eq
      have found : (outermost .left [] tree).2.root = some x := focus.root_eq
      rw [found, Start.index,
        if_neg (by rw [listed]; simp)]
      exact stands_at shows' place' whole focus
  | last =>
    apply ensures_rbIter shows within room (by omega)
    intro s' mem root place' within'
    have shows' := shows.same_heap mem root
    refine ⟨mem, root, within', ?_⟩
    by_cases empty : tree = .nil
    · subst empty
      exact ⟨shows', trivial⟩
    · obtain ⟨whole, x, rest, focus⟩ := outermost_focus .left empty
      have listed : tree.toList = _ := whole ▸ focus.flip.sweep_eq
      have length := congrArg List.length listed
      simp only [List.length_append, List.length_reverse, List.length_cons, List.length_nil] at length
      have found : (outermost .right [] tree).2.root = some x := focus.root_eq
      rw [found, Start.index,
        if_neg (by rw [listed]; simp), length]
      exact stands_at shows' place' whole focus.flip
  | find k =>
    apply ensures_rbFind (compares k) shows within room enough
    intro s' mem root place' within' _
    have shows' := shows.same_heap mem root
    refine ⟨mem, root, within', ?_⟩
    have found := lists.search_eq k
    cases entry : map k with
    | none =>
      rw [entry] at found
      have absent : tree.toList.findIdx? (fun x => key x = k) = none := by
        rw [List.findIdx?_eq_none_iff]
        intro y member
        simpa using lists.absent.mp entry y member
      have missed : (descend (toward key k) [] tree).2.root = none := found
      rw [missed, Start.index, absent]
      exact ⟨shows', trivial⟩
    | some x =>
      rw [entry] at found
      obtain ⟨_, rfl⟩ := (lists.entries k x).mp entry
      obtain ⟨c, l, r, here, whole⟩ := ColorTree.search_some found
      have focus : Focus .right (descend (toward key (key x)) [] tree).1 (.node c l x r) _ x _ :=
        ⟨rfl, rfl, rfl⟩
      have index := Lists.index_eq (whole.symm ▸ lists) focus
      rw [whole] at index
      rw [here, Start.index, index]
      exact stands_at shows' place' whole focus

omit [DecidableEq ν] in
theorem Reached.trans {s₁ s₂ : State (Records ν) ν} {j : Option Nat} {p q : Ptr ν}
    (first : Reached s top tree index p s₁) (second : Reached s₁ top tree j q s₂) :
    Reached s top tree j q s₂ :=
  ⟨second.mem_eq.trans first.mem_eq, second.root_eq.trans first.root_eq, second.within, second.stands⟩

theorem indexAfter_none (n : Nat) (moves : List Dir) : indexAfter n none moves = none := by
  induction moves with
  | nil => rfl
  | cons d rest ih => exact ih

theorem ensures_steps {p : Ptr ν} {moves : List Dir} (stands : Stands tree index p s)
    (within : s.Within top) (room : tree.height ≤ top) (enough : tree.height < fuel) :
    Ensures (steps fuel p moves) (Reached s top tree (indexAfter tree.size index moves)) s := by
  induction moves generalizing p index s with
  | nil => cases p <;> exact ⟨rfl, rfl, within, stands⟩
  | cons d rest ih =>
    have position := stands.position
    cases p with
    | none =>
      cases index with
      | some i => exact position.elim
      | none =>
        rw [indexAfter_none]
        exact ⟨rfl, rfl, within, stands⟩
    | some x =>
      cases index with
      | none => exact position.elim
      | some i =>
        have step : Ensures (rbIterNext fuel (some x) d >>= fun p => steps fuel p rest)
            (Reached s top tree (indexAfter tree.size (neighbour tree.size i d) rest)) s :=
          (ensures_neighbour stands within room enough).bind fun p s₁ first =>
            (ih first.stands first.within).mono fun p' s₂ others => first.trans others
        cases d <;> exact step

theorem ensures_cursor {start : Start κ} {moves : List Dir}
    (compares : ∀ k x, sideOf (keyCmp k x) = toward key k x) (lists : Lists key map tree.toList)
    (shows : s.Shows tree) (within : s.Within top) (room : tree.height ≤ top)
    (enough : tree.height < fuel) :
    Ensures (cursor keyCmp fuel start moves)
      (Reached s top tree (indexAfter tree.size (start.index key tree.toList) moves)) s :=
  (ensures_startAt compares lists shows within room enough).bind fun _ _ first =>
    (ensures_steps first.stands first.within room enough).mono fun _ _ others => first.trans others

omit [DecidableEq ν] in
theorem Stands.eq_getElem {p : Ptr ν} (stands : Stands tree index p s) :
    p = index.bind (tree.toList[·]?) := by
  have position := stands.position
  cases index with
  | none => cases p with
    | none => rfl
    | some x => exact position.elim
  | some i => cases p with
    | none => exact position.elim
    | some x =>
      obtain ⟨sp, t, back, front, _, rfl, focus, rfl⟩ := position
      have listed : (plug sp t).toList = _ := focus.sweep_eq
      rw [listed]
      simp

omit [DecidableEq ν] in
theorem Stands.mem {p : Ptr ν} (stands : Stands tree index p s) (here : p = some x) :
    x ∈ tree.toList := by
  have found := stands.eq_getElem
  cases index with
  | none => cases here.symm.trans found
  | some i => exact List.mem_of_getElem? (found.symm.trans here)

omit [DecidableEq ν] in
theorem Stands.path_exact {p : Ptr ν} (stands : Stands tree index p s) (here : p = some x) :
    ∃ sp c l r, tree = plug sp (.node c l x r) ∧ s.rp.cur = sp.length ∧ Follows s.rp.path sp := by
  have position := stands.position
  subst here
  cases index with
  | none => exact position.elim
  | some i =>
    obtain ⟨sp, t, back, front, place, rfl, focus, rfl⟩ := position
    obtain ⟨c, l, r, rfl⟩ := ColorTree.exists_join focus.root_eq .left
    exact ⟨sp, c, l, r, rfl, place.cur_eq, place.follows⟩

theorem Stands.ensures_rbRemove {p : Ptr ν} (stands : Stands tree index p s) (redBlack : IsRedBlack tree)
    (lists : Lists key map tree.toList) (within : s.Within top) (room : tree.height ≤ top)
    (enough : tree.height < fuel) (here : p = some x) :
    Ensures (rbRemove fuel (some x)) (fun _ s' => s'.Shows (tree.remove (toward key (key x))) ∧
      s'.Within top) s := by
  obtain ⟨sp, c, l, r, rfl, cur, follows⟩ := stands.path_exact here
  rw [← lists.removeAt_eq]
  exact RbtreeCompact.ensures_rbRemove stands.shows ⟨cur, follows⟩ redBlack within room (by omega)
    fun s' shows' within' => ⟨shows', within'⟩

end

section
variable {ν δ κ : Type} [LinearOrder κ] [DecidableEq ν] (c : Comparators δ κ)

/-- A cursor moves by one element at a step, its path is exact, and removing
the node under it is removing by that node's key. -/
theorem cursor_exact (mem : Records ν) (data : ν → δ) (calls : List (RbPath ν × Call ν δ κ))
    (allowed : (Ref.init data).AllowsAll c (calls.map Prod.snd)) {fuel : Nat}
    (enough : calls.length < fuel) (start : Start κ) (moves : List Dir) (rp rp' : RbPath ν) :
    ∃ results store tree p s,
      (Store.init mem data).run c fuel calls = .ok (results, store) ∧
      Library.Shows nodeRecord store.mem store.root tree ∧
      cursor (fun k x => c.keyCmp k (store.data x)) fuel start moves
        ⟨store.mem, store.root, rp, []⟩ = .ok (p, s) ∧
      s.mem = store.mem ∧ s.root = store.root ∧
      p = (indexAfter tree.size (start.index (fun x => c.keyOf (store.data x)) tree.toList) moves).bind
        (tree.toList[·]?) ∧
      ∀ x, p = some x →
        (∃ sp e l r, tree = plug sp (.node e l x r) ∧ s.rp.cur = sp.length ∧ Follows s.rp.path sp) ∧
        ∃ erased outcome tree', rbRemove fuel (some x) s = .ok ((), erased) ∧
          store.call c fuel rp' (.remove (c.keyOf (store.data x))) = .ok outcome ∧
          outcome.result = some x ∧ Library.Shows nodeRecord erased.mem erased.root tree' ∧
          Library.Shows nodeRecord outcome.store.mem outcome.store.root tree' := by
  obtain ⟨store, model, ran, _, shows, keeps, low⟩ := run_init mem allowed (show _ ≤ fuel by omega)
  have high : model.tree.height < fuel := by omega
  have lists := keeps.lists
  rw [← keeps.data_eq, ← shows.data_eq] at lists
  have start : State.Shows ⟨store.mem, store.root, rp, []⟩ model.tree := shows.tree
  have within : State.Within ⟨store.mem, store.root, rp, []⟩ model.tree.height := by simp [State.Within]
  obtain ⟨p, s, moved, reached⟩ := (ensures_cursor (fun k x => c.sideOf_keyCmp k (store.data x)) lists
    start within (Nat.le_refl _) high).result
  refine ⟨_, store, model.tree, p, s, ran, shows.tree, moved, reached.mem_eq, reached.root_eq,
    reached.stands.eq_getElem, fun x here => ⟨?_, ?_⟩⟩
  · exact reached.stands.path_exact here
  · obtain ⟨_, erased, removed, shows', _⟩ := (reached.stands.ensures_rbRemove keeps.redBlack lists
      reached.within (Nat.le_refl _) high here).result
    have removable : ∀ ref : Ref ν δ κ, ref.Allows c (.remove (c.keyOf (store.data x))) := fun _ => trivial
    obtain ⟨outcome, called, sound⟩ := Store.call_sound shows keeps (removable _) high rp'
    refine ⟨erased, outcome, _, removed, called, ?_, shows', ?_⟩
    · have member := reached.stands.mem here
      rw [sound.result_eq, (keeps.call (removable _)).1]
      exact lists.mem_iff.mp member
    · have shown := sound.shows.tree
      simp only [Model.call, ← shows.data_eq] at shown
      exact shown

theorem cursor_exact_reuse :
    ∃ results store tree p s,
      (Store.init (fun _ => ⟨none, none, .red⟩) fun _ => 0).run aNode 6
        (reuse.map (atRest, ·)) = .ok (results, store) ∧
      Library.Shows nodeRecord store.mem store.root tree ∧
      cursor (fun k x => aNode.keyCmp k (store.data x)) 6 .first [.right]
        ⟨store.mem, store.root, atRest, []⟩ = .ok (p, s) ∧
      s.mem = store.mem ∧ s.root = store.root ∧
      p = (indexAfter tree.size
        (Start.first.index (fun x => aNode.keyOf (store.data x)) tree.toList) [.right]).bind
        (tree.toList[·]?) ∧
      ∀ x, p = some x →
        (∃ sp e l r, tree = plug sp (.node e l x r) ∧ s.rp.cur = sp.length ∧ Follows s.rp.path sp) ∧
        ∃ erased outcome tree', rbRemove 6 (some x) s = .ok ((), erased) ∧
          store.call aNode 6 atRest (.remove (aNode.keyOf (store.data x))) = .ok outcome ∧
          outcome.result = some x ∧ Library.Shows nodeRecord erased.mem erased.root tree' ∧
          Library.Shows nodeRecord outcome.store.mem outcome.store.root tree' :=
  cursor_exact aNode _ _ _ (by simpa [Function.comp_def] using reuse_allowed) (by decide) _ _ _ _

end

end Embedlib.RbtreeCompact
