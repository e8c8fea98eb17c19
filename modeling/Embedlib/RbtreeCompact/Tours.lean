import Embedlib.Rb.Travels
import Embedlib.RbtreeCompact.Cursor

/-! Any number of cursors on one compact tree.

A caller keeps paths, starts cursors on them, steps and removes through them, and makes
calls in between. A cursor stands until a node is stored or removed; no other request
disturbs it.
-/

set_option autoImplicit false

namespace Embedlib.RbtreeCompact

open Library Rb Spine

variable {ι μ ν δ κ : Type}

/-- A call with a path of its own, or what is done through a cursor. -/
inductive Action (ι ν δ κ : Type) where
  | call (call : Call ν δ κ)
  | start (cursor : ι) (at_ : Start κ)
  | move (cursor : ι) (d : Dir)
  | erase (cursor : ι)
  deriving Repr

/-! ### Cursors on the map -/

/-- The map, and the entries at which the cursors stand. -/
structure Tour (ι ν δ κ : Type) where
  ref : Ref ν δ κ
  standing : ι → Option (κ × ν)

def Tour.init (data : ν → δ) : Tour ι ν δ κ := ⟨Ref.init data, fun _ => none⟩

/-- A cursor starts at the first entry with one of these keys. -/
def Start.keys : Start κ → κ → Prop
  | .first, _ => True
  | .last, _ => True
  | .find key, k => k = key

def Start.dir : Start κ → Dir
  | .first => .right
  | .last => .left
  | .find _ => .right

section
variable [DecidableEq ι] [DecidableEq ν] [LinearOrder κ] (c : Comparators δ κ)

/-- Only where a cursor stands there are a step and a removal. -/
def Tour.Admits (tour : Tour ι ν δ κ) : Action ι ν δ κ → Prop
  | .call call => tour.ref.Allows c call
  | .start _ _ => True
  | .move cursor _ => tour.standing cursor ≠ none
  | .erase cursor => tour.standing cursor ≠ none

inductive Tour.Acts : Tour ι ν δ κ → Action ι ν δ κ → Option ν → Tour ι ν δ κ → Prop where
  | pass {tour : Tour ι ν δ κ} {call : Call ν δ κ} : tour.ref.Allows c call → tour.ref.Passive c call →
      Acts tour (.call call) (tour.ref.call c call).1 ⟨(tour.ref.call c call).2, tour.standing⟩
  | change {tour : Tour ι ν δ κ} {call : Call ν δ κ} : tour.ref.Allows c call → ¬ tour.ref.Passive c call →
      Acts tour (.call call) (tour.ref.call c call).1 ⟨(tour.ref.call c call).2, fun _ => none⟩
  | start {tour : Tour ι ν δ κ} {cursor : ι} {at_ : Start κ} {entry : Option (κ × ν)} :
      tour.ref.First at_.dir at_.keys entry →
      Acts tour (.start cursor at_) (entry.map Prod.snd) ⟨tour.ref, Function.update tour.standing cursor entry⟩
  | move {tour : Tour ι ν δ κ} {cursor : ι} {d : Dir} {k : κ} {x : ν} {entry : Option (κ × ν)} :
      tour.standing cursor = some (k, x) → tour.ref.First d (Past d k) entry →
      Acts tour (.move cursor d) (entry.map Prod.snd) ⟨tour.ref, Function.update tour.standing cursor entry⟩
  | erase {tour : Tour ι ν δ κ} {cursor : ι} {k : κ} {x : ν} : tour.standing cursor = some (k, x) →
      Acts tour (.erase cursor) none ⟨(tour.ref.call c (.remove k)).2, fun _ => none⟩

inductive Tour.Runs : Tour ι ν δ κ → List (Action ι ν δ κ) → List (Option ν) → Tour ι ν δ κ → Prop where
  | nil {tour : Tour ι ν δ κ} : Runs tour [] [] tour
  | cons {tour next final : Tour ι ν δ κ} {action : Action ι ν δ κ} {rest : List (Action ι ν δ κ)}
      {result : Option ν} {results : List (Option ν)} :
      tour.Acts c action result next → Runs next rest results final →
      Runs tour (action :: rest) (result :: results) final

end

/-! ### Cursors on the tree -/

/-- The tree, the paths of the cursors, and the nodes that they were given last. -/
structure Session (μ ι ν δ : Type) where
  store : Store μ ν δ
  paths : ι → RbPath ν
  nodes : ι → Ptr ν

section
variable [NodeMemory μ ν] [DecidableEq ι] [DecidableEq ν] [LinearOrder κ] (c : Comparators δ κ) (fuel : Nat)

def Session.opens (session : Session μ ι ν δ) (cursor : ι) : State μ ν :=
  ⟨session.store.mem, session.store.root, session.paths cursor, []⟩

def Session.closes (session : Session μ ι ν δ) (cursor : ι) (result : Ptr ν) (s : State μ ν) : Session μ ι ν δ :=
  ⟨⟨s.mem, s.root, session.store.data⟩, Function.update session.paths cursor s.rp,
    Function.update session.nodes cursor result⟩

def Session.perform (session : Session μ ι ν δ) (cursor : ι) (program : Program (State μ ν) (Ptr ν)) :
    Except Fault (Ptr ν × Session μ ι ν δ) :=
  match program (session.opens cursor) with
  | .ok (result, s) => .ok (result, session.closes cursor result s)
  | .error why => .error why

/-- `rb_remove` of the node that a cursor was given. -/
def rbErase (node : Ptr ν) : Program (State μ ν) (Ptr ν) := do
  rbRemove fuel node
  return none

/-- `rp` is the path of a call, before `RB_PATH_INIT`. -/
def Session.act (session : Session μ ι ν δ) (rp : RbPath ν) :
    Action ι ν δ κ → Except Fault (Ptr ν × Session μ ι ν δ)
  | .call call => do
    let outcome ← session.store.call c fuel rp call
    return (outcome.result, { session with store := outcome.store })
  | .start cursor at_ =>
    session.perform cursor (startAt (fun k b => c.keyCmp k (session.store.data b)) fuel at_)
  | .move cursor d => session.perform cursor (rbIterNext fuel (session.nodes cursor) d)
  | .erase cursor => session.perform cursor (rbErase fuel (session.nodes cursor))

def Session.run (session : Session μ ι ν δ) :
    List (RbPath ν × Action ι ν δ κ) → Except Fault (List (Ptr ν) × Session μ ι ν δ)
  | [] => return ([], session)
  | (rp, action) :: rest => do
    let (result, session) ← session.act c fuel rp action
    let (results, final) ← session.run rest
    return (result :: results, final)

end

/-- The path is the way from the root of the tree to the node `x`. -/
def Routes (tree : ColorTree ν) (rp : RbPath ν) (x : ν) : Prop :=
  ∃ sp t, plug sp t = tree ∧ t.root = some x ∧ rp.cur = sp.length ∧ Follows rp.path sp

/-- A program comes to the node of `entry`, and writes to nothing but the path. -/
structure Comes (s : State (Records ν) ν) (tree : ColorTree ν) (entry : Option (κ × ν)) (p : Ptr ν)
    (s' : State (Records ν) ν) : Prop where
  result_eq : p = entry.map Prod.snd
  mem_eq : s'.mem = s.mem
  root_eq : s'.root = s.root
  routes : ∀ k x, entry = some (k, x) → Routes tree s'.rp x

section
variable [DecidableEq ν] [LinearOrder κ] {s s' : State (Records ν) ν} {tree t : ColorTree ν} {sp : Spine ν} {x : ν}
  {top fuel : Nat} {d : Dir} {key : ν → κ} {map : κ → Option ν} {data : ν → δ} {entry : Option (κ × ν)}
  {keyCmp : κ → ν → Int}

omit [DecidableEq ν] [LinearOrder κ] in
theorem comes_at (mem : s'.mem = s.mem) (root : s'.root = s.root) (place : s'.At sp) (whole : plug sp t = tree)
    (found : t.root = entry.map Prod.snd) : Comes s tree entry t.root s' := by
  refine ⟨found, mem, root, ?_⟩
  rintro k x rfl
  exact ⟨sp, t, whole, found, place.cur_eq, place.follows⟩

theorem ensures_edge (first : Ref.First d ⟨data, map⟩ (fun _ => True) entry) (lists : Lists key map tree.toList)
    (shows : s.Shows tree) (within : s.Within top) (room : tree.height ≤ top) (enough : tree.height ≤ fuel) :
    Ensures (rbIter fuel d.flip) (Comes s tree entry) s := by
  have found := first.start_eq lists
  refine ensures_rbIter shows within room enough fun s' mem root place _ => ?_
  by_cases empty : tree = .nil
  · subst empty
    rw [sweep_nil] at found
    exact comes_at mem root place rfl found.symm
  · obtain ⟨whole, y, rest, focus⟩ := outermost_focus d empty
    have swept := focus.sweep_eq
    rw [whole] at swept
    rw [swept] at found
    exact comes_at mem root place whole (focus.root_eq.trans found.symm)

theorem ensures_start {at_ : Start κ} (compares : ∀ k x, sideOf (keyCmp k x) = toward key k x)
    (first : Ref.First at_.dir ⟨data, map⟩ at_.keys entry) (lists : Lists key map tree.toList)
    (shows : s.Shows tree) (within : s.Within top) (room : tree.height ≤ top) (enough : tree.height < fuel) :
    Ensures (startAt keyCmp fuel at_) (Comes s tree entry) s := by
  cases at_ with
  | first => exact ensures_edge (d := .right) first lists shows within room (by omega)
  | last => exact ensures_edge (d := .left) first lists shows within room (by omega)
  | find k =>
    refine ensures_rbFind (compares k) shows within room enough fun s' mem root place _ _ => ?_
    have found : (descend (toward key k) [] tree).2.root = map k := lists.search_eq k
    have here : map k = entry.map Prod.snd := by
      cases entry with
      | none => exact first k rfl
      | some entry =>
        obtain ⟨rfl, stored, _⟩ := first
        exact stored
    exact comes_at mem root place (descend_plug _ [] tree) (found.trans here)

theorem ensures_move (first : Ref.First d ⟨data, map⟩ (Past d (key x)) entry) (lists : Lists key map tree.toList)
    (routes : Routes tree s.rp x) (shows : s.Shows tree) (within : s.Within top) (room : tree.height ≤ top)
    (enough : tree.height < fuel) : Ensures (rbIterNext fuel (some x) d) (Comes s tree entry) s := by
  obtain ⟨sp, t, rfl, here, cur, follows⟩ := routes
  have focus : Focus d sp t _ x _ := ⟨here, rfl, rfl⟩
  have found := first.next_eq lists focus.sweep_eq
  refine ensures_rbIterNext shows ⟨cur, follows⟩ within room enough focus ?_ ?_
  · intro last s' mem root _
    rw [last] at found
    refine ⟨found.symm, mem, root, ?_⟩
    rintro k y rfl
    cases found
  · intro y rest next s' sp' t' mem root place _ whole focus'
    rw [next] at found
    rw [← focus'.root_eq]
    exact comes_at mem root place whole (focus'.root_eq.trans found.symm)

theorem ensures_erase (routes : Routes tree s.rp x) (redBlack : IsRedBlack tree) (lists : Lists key map tree.toList)
    (shows : s.Shows tree) (within : s.Within top) (room : tree.height ≤ top) (enough : tree.height ≤ fuel) :
    Ensures (rbErase fuel (some x)) (fun p s' => p = none ∧ s'.Shows (tree.remove (toward key (key x)))) s := by
  obtain ⟨sp, t, rfl, here, cur, follows⟩ := routes
  obtain ⟨c, l, r, rfl⟩ := ColorTree.exists_join here .left
  have place : s.At sp := ⟨cur, follows⟩
  have removed := Lists.removeAt_eq (c := c) (l := l) (r := r) lists
  have whole : s.Shows (sp.plug (.node c l x r)) := shows
  unfold rbErase
  simp only [ensures_bind]
  exact ensures_rbRemove whole place redBlack within room enough fun s' shows' _ => ⟨rfl, removed ▸ shows'⟩

end

/-! ### A session follows its tour -/

section
variable [DecidableEq ν] [LinearOrder κ] (c : Comparators δ κ)

def Tour.after (tour : Tour ι ν δ κ) (model : Model ν δ) : Action ι ν δ κ → Model ν δ
  | .call call => (model.call c call).2
  | .start _ _ => model
  | .move _ _ => model
  | .erase cursor =>
    match tour.standing cursor with
    | some (k, _) => (model.call c (.remove k)).2
    | none => model

theorem Tour.after_size_le (tour : Tour ι ν δ κ) (model : Model ν δ) (action : Action ι ν δ κ) :
    (tour.after c model action).tree.size ≤ model.tree.size + 1 := by
  cases action with
  | call call => exact model.call_size_le call
  | start cursor at_ => exact Nat.le_succ _
  | move cursor d => exact Nat.le_succ _
  | erase cursor =>
    simp only [Tour.after]
    split
    · exact model.call_size_le _
    · exact Nat.le_succ _

end

section
variable [DecidableEq ι] [DecidableEq ν] [LinearOrder κ] {c : Comparators δ κ} {session : Session (Records ν) ι ν δ}
  {tour tour' : Tour ι ν δ κ} {model : Model ν δ} {ref : Ref ν δ κ} {fuel : Nat}

/-- The tree keeps the map, and every cursor that stands has the way to its node. -/
structure Session.Shows (c : Comparators δ κ) (session : Session (Records ν) ι ν δ) (tour : Tour ι ν δ κ)
    (model : Model ν δ) : Prop where
  store : session.store.Shows model
  keeps : Keeps c model tour.ref
  cursors : ∀ cursor k x, tour.standing cursor = some (k, x) →
    tour.ref.map k = some x ∧ session.nodes cursor = some x ∧ Routes model.tree (session.paths cursor) x

omit [DecidableEq ι] [DecidableEq ν] in
theorem Session.Shows.lists (shows : session.Shows c tour model) :
    Lists (fun x => c.keyOf (session.store.data x)) tour.ref.map model.tree.toList := by
  rw [shows.store.data_eq, shows.keeps.data_eq]
  exact shows.keeps.lists

omit [DecidableEq ν] [LinearOrder κ] in
theorem Session.perform_ok {cursor : ι} {program : Program (State (Records ν) ν) (Ptr ν)}
    {post : Ptr ν → State (Records ν) ν → Prop} (ensured : Ensures program post (session.opens cursor)) :
    ∃ result s, session.perform cursor program = .ok (result, session.closes cursor result s) ∧ post result s := by
  obtain ⟨result, s, ran, holds⟩ := ensured.result
  exact ⟨result, s, by rw [Session.perform, ran], holds⟩

omit [DecidableEq ν] in
theorem Session.Shows.comes (shows : session.Shows c tour model) {cursor : ι} {entry : Option (κ × ν)}
    {program : Program (State (Records ν) ν) (Ptr ν)}
    (ensured : Ensures program (Comes (session.opens cursor) model.tree entry) (session.opens cursor))
    (stored : ∀ k x, entry = some (k, x) → tour.ref.map k = some x) :
    ∃ session', session.perform cursor program = .ok (entry.map Prod.snd, session') ∧
      session'.Shows c ⟨tour.ref, Function.update tour.standing cursor entry⟩ model := by
  obtain ⟨_, s, ran, rfl, mem, root, routes⟩ := Session.perform_ok ensured
  have tree : Library.Shows nodeRecord s.mem s.root model.tree := by
    rw [mem, root]
    exact shows.store.tree
  refine ⟨_, ran, ⟨tree, shows.store.data_eq⟩, shows.keeps, fun other k x stands => ?_⟩
  by_cases here : other = cursor
  · subst here
    simp only [Session.closes, Function.update_self] at stands ⊢
    exact ⟨stored k x stands, by rw [stands]; rfl, routes k x stands⟩
  · simp only [Session.closes, Function.update_of_ne here] at stands ⊢
    exact shows.cursors other k x stands

theorem Session.Shows.call (shows : session.Shows c tour model) {call : Call ν δ κ} (allowed : tour.ref.Allows c call)
    (enough : model.tree.height < fuel) (rp : RbPath ν) (standing : ι → Option (κ × ν))
    (kept : ∀ cursor k x, standing cursor = some (k, x) →
      (tour.ref.call c call).2.map k = some x ∧ session.nodes cursor = some x ∧
        Routes (model.call c call).2.tree (session.paths cursor) x) :
    ∃ session', session.act c fuel rp (.call call) = .ok ((tour.ref.call c call).1, session') ∧
      session'.Shows c ⟨(tour.ref.call c call).2, standing⟩ (model.call c call).2 := by
  obtain ⟨outcome, ran, sound⟩ := Store.call_sound shows.store shows.keeps allowed enough rp
  obtain ⟨same, keeps⟩ := shows.keeps.call allowed
  refine ⟨{ session with store := outcome.store }, ?_, sound.shows, keeps, kept⟩
  simp only [Session.act, ran, bind, Except.bind, ← same, ← sound.result_eq]
  rfl

theorem Session.Shows.act (shows : session.Shows c tour model) {action : Action ι ν δ κ} {result : Option ν}
    (acts : tour.Acts c action result tour') (enough : model.tree.height < fuel) (rp : RbPath ν) :
    ∃ session', session.act c fuel rp action = .ok (result, session') ∧
      session'.Shows c tour' (tour.after c model action) := by
  have lists := shows.lists
  have start (cursor : ι) : (session.opens cursor).Shows model.tree := shows.store.tree
  have within (cursor : ι) : (session.opens cursor).Within model.tree.height := by simp [State.Within, Session.opens]
  cases acts with
  | @pass call allowed passive =>
    obtain ⟨tree, map⟩ := shows.keeps.pass allowed passive
    exact shows.call allowed enough rp _ fun cursor k x stands => by
      rw [tree, map]
      exact shows.cursors cursor k x stands
  | @change call allowed =>
    exact shows.call allowed enough rp (fun _ => none) fun _ _ _ stands => by cases stands
  | @start cursor at_ entry first =>
    have compares := fun k x => c.sideOf_keyCmp k (session.store.data x)
    exact shows.comes
      (ensures_start compares first lists (start cursor) (within cursor) (Nat.le_refl _) enough)
      (by rintro k x rfl; exact first.entry)
  | @move cursor d k x entry stands first =>
    obtain ⟨stored, node, routes⟩ := shows.cursors cursor k x stands
    obtain ⟨_, rfl⟩ := (lists.entries k x).mp stored
    rw [Session.act, node]
    exact shows.comes
      (ensures_move first lists routes (start cursor) (within cursor) (Nat.le_refl _) enough)
      (by rintro k x rfl; exact first.entry)
  | @erase cursor k x stands =>
    obtain ⟨stored, node, routes⟩ := shows.cursors cursor k x stands
    obtain ⟨_, rfl⟩ := (lists.entries k x).mp stored
    have removable : tour.ref.Allows c (.remove (c.keyOf (session.store.data x))) := trivial
    have erased := ensures_erase routes shows.keeps.redBlack lists (start cursor) (within cursor) (Nat.le_refl _)
      (show _ ≤ fuel by omega)
    obtain ⟨_, s, ran, rfl, shows'⟩ := Session.perform_ok erased
    have after : tour.after c model (.erase cursor) =
        (model.call c (.remove (c.keyOf (session.store.data x)))).2 := by simp only [Tour.after, stands]
    rw [after]
    refine ⟨session.closes cursor none s, by rw [Session.act, node, ran], ⟨?_, shows.store.data_eq⟩,
      (shows.keeps.call removable).2, fun _ _ _ stands => by cases stands⟩
    simp only [Model.call, ← shows.store.data_eq]
    exact shows'

omit [DecidableEq ι] [DecidableEq ν] in
theorem session_init_shows (mem : Records ν) (data : ν → δ) (paths : ι → RbPath ν) (nodes : ι → Ptr ν) :
    Session.Shows c ⟨Store.init mem data, paths, nodes⟩ (Tour.init data) (Model.init data) :=
  ⟨store_init_shows mem data, keeps_init data, nofun⟩

theorem Session.Shows.run (shows : session.Shows c tour model) {actions : List (RbPath ν × Action ι ν δ κ)}
    {results : List (Option ν)} {final : Tour ι ν δ κ} (runs : tour.Runs c (actions.map Prod.snd) results final)
    (enough : model.tree.size + actions.length ≤ fuel) :
    ∃ session' model', session.run c fuel actions = .ok (results, session') ∧ session'.Shows c final model' := by
  induction actions generalizing session tour model results with
  | nil =>
    cases runs
    exact ⟨session, model, rfl, shows⟩
  | cons first rest ih =>
    obtain ⟨rp, action⟩ := first
    rw [List.length_cons] at enough
    have low := ColorTree.height_le_size model.tree
    cases runs with
    | cons acts others =>
      obtain ⟨next, acted, shown⟩ := shows.act acts (show _ < fuel by omega) rp
      have grown := tour.after_size_le c model action
      obtain ⟨end_, model₂, rested, ended⟩ := ih shown others (Nat.le_trans (Nat.add_le_add_right grown _) (by omega))
      refine ⟨end_, model₂, ?_, ended⟩
      simp only [Session.run, acted, bind, Except.bind, rested]
      rfl

theorem Session.Shows.acts (shows : session.Shows c tour model) {action : Action ι ν δ κ}
    (admitted : tour.Admits c action) :
    ∃ result next, tour.Acts c action result next := by
  have lists := shows.keeps.lists
  cases action with
  | call call =>
    by_cases passive : tour.ref.Passive c call
    · exact ⟨_, _, .pass admitted passive⟩
    · exact ⟨_, _, .change admitted passive⟩
  | start cursor at_ =>
    obtain ⟨entry, first⟩ := Ref.exists_first tour.ref.data lists at_.dir at_.keys
    exact ⟨_, _, .start first⟩
  | move cursor d =>
    obtain ⟨⟨k, x⟩, stands⟩ := Option.ne_none_iff_exists'.mp admitted
    obtain ⟨entry, first⟩ := Ref.exists_first tour.ref.data lists d (Past d k)
    exact ⟨_, _, .move stands first⟩
  | erase cursor =>
    obtain ⟨⟨k, x⟩, stands⟩ := Option.ne_none_iff_exists'.mp admitted
    exact ⟨_, _, .erase stands⟩

end

section
variable [DecidableEq ι] [DecidableEq ν] [LinearOrder κ] (c : Comparators δ κ)

/-- Any number of cursors, in any interleaving with calls, move over the map: every
result is that of the map, every cursor that stands has the way from the root to its node,
and from there any step, removal or call goes on. -/
theorem tours_exact (mem : Records ν) (data : ν → δ) (paths : ι → RbPath ν) (nodes : ι → Ptr ν)
    {actions : List (RbPath ν × Action ι ν δ κ)} {results : List (Option ν)} {tour : Tour ι ν δ κ}
    (runs : (Tour.init data).Runs c (actions.map Prod.snd) results tour) {fuel : Nat} (enough : actions.length ≤ fuel) :
    ∃ session tree, Session.run c fuel ⟨Store.init mem data, paths, nodes⟩ actions = .ok (results, session) ∧
      session.store.data = tour.ref.data ∧ Library.Shows nodeRecord session.store.mem session.store.root tree ∧
      IsRedBlack tree ∧ Lists (fun x => c.keyOf (tour.ref.data x)) tour.ref.map tree.toList ∧
      (∀ cursor k x, tour.standing cursor = some (k, x) →
        tour.ref.map k = some x ∧ session.nodes cursor = some x ∧ Routes tree (session.paths cursor) x) ∧
      ∀ action, tour.Admits c action → ∃ result next, tour.Acts c action result next := by
  have begins := session_init_shows (c := c) mem data paths nodes
  obtain ⟨session, model, ran, shows⟩ := begins.run runs
    (show _ ≤ fuel by simpa [Model.init, ColorTree.size] using enough)
  exact ⟨session, model.tree, ran, shows.store.data_eq.trans shows.keeps.data_eq, shows.store.tree,
    shows.keeps.redBlack, shows.keeps.lists, shows.cursors, fun _ admitted => shows.acts admitted⟩

theorem Tour.Runs.append {c : Comparators δ κ} {tour middle final : Tour ι ν δ κ}
    {actions more : List (Action ι ν δ κ)} {results others : List (Option ν)} (runs : tour.Runs c actions results middle)
    (continues : middle.Runs c more others final) : tour.Runs c (actions ++ more) (results ++ others) final := by
  induction runs with
  | nil => exact continues
  | cons acts _ ih => exact .cons acts (ih continues)

end

section
variable [DecidableEq ν] (one two : ν)

/-- Two nodes, a cursor on each, and a removal by one of them. -/
def strollOut : List (Action Bool ν Int Int) :=
  [.call (.insert one 10), .call (.insert two 20), .start false .first, .start true (.find 20), .call (.find 10),
    .move false .right, .erase true]

/-- The removed node comes back in front of the other, and a cursor meets it there. -/
def strollBack : List (Action Bool ν Int Int) := [.call (.insert two 5), .start false .last, .move false .left]

def strollNodes : List (Option ν) :=
  [some one, some two, some one, some two, some one, some two, none, some two, some one, some two]

def strollBoth : Ref ν Int Int := ((Ref.init fun _ => 0).run aNode [.insert one 10, .insert two 20]).2
def strollOne : Ref ν Int Int := ((strollBoth one two).call aNode (.remove 20)).2
def strollAgain : Ref ν Int Int := ((strollOne one two).call aNode (.insert two 5)).2

def strollTour {ν : Type} (ref : Ref ν Int Int) (places : List (Bool × Int × ν)) : Tour Bool ν Int Int :=
  ⟨ref, places.foldr (fun place standing => Function.update standing place.1 (some place.2)) fun _ => none⟩

def strolled : Tour Bool ν Int Int := strollTour (strollAgain one two) [(false, 5, two), (false, 10, one)]

theorem strollBoth_map (k : Int) :
    (strollBoth one two).map k = if k = 20 then some two else if k = 10 then some one else none := by
  simp [strollBoth, Ref.run, Ref.call, Ref.init, aNode, Function.update_apply]

theorem strollOne_map (k : Int) : (strollOne one two).map k = if k = 10 then some one else none := by
  simp [strollOne, Ref.call, strollBoth_map, Function.update_apply]
  grind

theorem strollAgain_map (k : Int) :
    (strollAgain one two).map k = if k = 5 then some two else if k = 10 then some one else none := by
  simp [strollAgain, Ref.call, strollOne_map, aNode, Function.update_apply]

variable {one two}

theorem strollOut_runs (apart : one ≠ two) : (Tour.init fun _ => 0).Runs aNode (strollOut one two)
    [some one, some two, some one, some two, some one, some two, none] (strollTour (strollOne one two) []) := by
  have first : (strollBoth one two).First .right Start.first.keys (some (10, one)) := by
    simp [Ref.First, Start.keys, strollBoth_map, Past]
    grind
  have found : (strollBoth one two).First .right (Start.find (20 : Int)).keys (some (20, two)) := by
    simp [Ref.First, Start.keys, strollBoth_map, Past]
  have next : (strollBoth one two).First .right (Past .right 10) (some (20, two)) := by
    simp [Ref.First, strollBoth_map, Past]
    grind
  have opens := @Tour.Acts.start _ _ _ _ _ _ _ aNode (strollTour (strollBoth one two) []) false .first _ first
  have finds := @Tour.Acts.start _ _ _ _ _ _ _ aNode (strollTour (strollBoth one two) [(false, 10, one)]) true
    (.find 20) _ found
  have passes := @Tour.Acts.pass _ _ _ _ _ _ _ aNode
    (strollTour (strollBoth one two) [(true, 20, two), (false, 10, one)]) (.find 10) trivial trivial
  have moves := @Tour.Acts.move _ _ _ _ _ _ _ aNode
    (strollTour (strollBoth one two) [(true, 20, two), (false, 10, one)]) false .right 10 one _ rfl next
  have erases := @Tour.Acts.erase _ _ _ _ _ _ _ aNode
    (strollTour (strollBoth one two) [(false, 20, two), (true, 20, two), (false, 10, one)]) true 20 two rfl
  refine .cons (.change ?_ ?_) (.cons (.change ?_ ?_)
    (.cons opens (.cons finds (.cons passes (.cons moves (.cons erases .nil))))))
  all_goals simp [Ref.Allows, Ref.Passive, Tour.init, Ref.init, Ref.call, aNode, Function.update_apply, apart]

theorem strollBack_runs (apart : one ≠ two) : (strollTour (strollOne one two) []).Runs aNode (strollBack two)
    [some two, some one, some two] (strolled one two) := by
  have last : (strollAgain one two).First .left Start.last.keys (some (10, one)) := by
    simp [Ref.First, Start.keys, strollAgain_map, Past]
    grind
  have before : (strollAgain one two).First .left (Past .left 10) (some (5, two)) := by
    simp [Ref.First, strollAgain_map, Past]
    grind
  have opens := @Tour.Acts.start _ _ _ _ _ _ _ aNode (strollTour (strollAgain one two) []) false .last _ last
  have moves := @Tour.Acts.move _ _ _ _ _ _ _ aNode (strollTour (strollAgain one two) [(false, 10, one)]) false
    .left 10 one _ rfl before
  have returns : (strollTour (strollOne one two) []).Acts aNode (.call (.insert two 5)) (some two)
      (strollTour (strollAgain one two) []) := by
    refine .change ?_ ?_
    all_goals simp [Ref.Allows, Ref.Passive, strollTour, strollOne_map, aNode, apart]
  exact .cons returns (.cons opens (.cons moves .nil))

theorem stroll_runs (apart : one ≠ two) : (Tour.init fun _ => 0).Runs aNode (strollOut one two ++ strollBack two)
    (strollNodes one two) (strolled one two) :=
  (strollOut_runs apart).append (strollBack_runs apart)

end

theorem tours_exact_stroll :
    ∃ session tree, Session.run aNode 10
        ⟨Store.init (fun _ => ⟨none, none, .red⟩) fun _ => 0, fun _ => atRest, fun _ => none⟩
        ((strollOut 1 2 ++ strollBack 2).map (atRest, ·)) =
        .ok (strollNodes 1 2, session) ∧
      session.store.data = (strolled 1 2).ref.data ∧
      Library.Shows nodeRecord session.store.mem session.store.root tree ∧ IsRedBlack tree ∧
      Lists (fun x => aNode.keyOf ((strolled 1 2).ref.data x)) (strolled 1 2).ref.map tree.toList ∧
      (∀ cursor k x, (strolled 1 2).standing cursor = some (k, x) →
        (strolled 1 2).ref.map k = some x ∧ session.nodes cursor = some x ∧ Routes tree (session.paths cursor) x) ∧
      ∀ action, (strolled 1 2).Admits aNode action → ∃ result next, (strolled 1 2).Acts aNode action result next :=
  tours_exact aNode _ _ _ _ (by simpa [Function.comp_def] using stroll_runs (by decide)) (by decide)

end Embedlib.RbtreeCompact
