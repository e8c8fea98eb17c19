import Embedlib.RbtreeCompact.TaggedRuns
import Embedlib.RbtreeCompact.Tours

/-! Cursors on raw words.

Between two actions the caller may write anything into the words of nodes that are not
stored. What the cursors meet, and the paths they keep, are those of a tree of records.
-/

set_option autoImplicit false

namespace Embedlib.RbtreeCompact

open Library Rb

variable {ι ν δ κ : Type} {w : Nat} {layout : Layout ν w} {xs : List ν}

/-! ### Walks -/

section
variable [DecidableEq ν]

theorem agrees_rbIter (fuel : Nat) (d : Dir) : Agrees layout xs (rbIter fuel d) (rbIter fuel d) :=
  agrees_rbPathInit.bind fun _ => simulates_get fun s => by
    simp only [State.records]
    split
    · exact simulates_pure none
    · exact simulates_loop (agrees_walkRound d) fuel _

omit [DecidableEq ν] in
theorem agrees_climbRound (d : Dir) (turn : Unit) : Agrees layout xs (climbRound d turn) (climbRound d turn) := by
  refine (agrees_entryAt 0).bind fun entry => ?_
  split
  · exact simulates_pure _
  · exact (agrees_retreat 1).bind fun _ => simulates_ite (simulates_pure _) (simulates_pure _)

theorem agrees_rbIterNext (fuel : Nat) (p : Ptr ν) (d : Dir) :
    Agrees layout xs (rbIterNext fuel p d) (rbIterNext fuel p d) := by
  cases p with
  | none => exact simulates_pure none
  | some x =>
    refine (agrees_rbChild (some x) d).bind fun q => ?_
    cases q with
    | none => exact simulates_loop (agrees_climbRound d) fuel ()
    | some y => exact (agrees_push _ _).bind fun _ => simulates_loop (agrees_walkRound d.flip) fuel (some y)

theorem agrees_startAt (keyCmp : κ → ν → Int) (fuel : Nat) (at_ : Start κ) :
    Agrees layout xs (startAt keyCmp fuel at_) (startAt keyCmp fuel at_) := by
  cases at_ with
  | first => exact agrees_rbIter fuel .left
  | last => exact agrees_rbIter fuel .right
  | find key => exact agrees_rbFind keyCmp fuel key

theorem agrees_rbErase (fuel : Nat) {x : ν} (member : x ∈ xs) :
    Agrees layout xs (rbErase fuel (some x)) (rbErase fuel (some x)) :=
  (agrees_rbRemove fuel member).bind fun _ => simulates_pure none

end

/-! ### Sessions -/

section
variable [DecidableEq ι] [DecidableEq ν] [LinearOrder κ] {c : Comparators δ κ}
  {session : Session (Words layout) ι ν δ} {tour tour' : Tour ι ν δ κ} {model : Model ν δ} {fuel : Nat}

def Session.records (session : Session (Words layout) ι ν δ) : Session (Records ν) ι ν δ :=
  ⟨session.store.records, session.paths, session.nodes⟩

/-- The words of the stored nodes hold the tree that the cursors are on, and nothing else. -/
structure Session.Holds (c : Comparators δ κ) (session : Session (Words layout) ι ν δ) (tour : Tour ι ν δ κ)
    (model : Model ν δ) : Prop where
  shows : session.records.Shows c tour model
  exact : ∀ x ∈ model.tree.toList, session.store.mem.Exact x

omit [LinearOrder κ] [DecidableEq ν] in
theorem Session.perform_agrees {cursor : ι} {raw : Program (State (Words layout) ν) (Ptr ν)}
    {record : Program (State (Records ν) ν) (Ptr ν)} {result : Ptr ν} {after : Session (Records ν) ι ν δ}
    (agrees : Agrees layout xs raw record) (exact : ∀ x ∈ xs, session.store.mem.Exact x)
    (ran : session.records.perform cursor record = .ok (result, after)) :
    ∃ session', session.perform cursor raw = .ok (result, session') ∧ session'.records = after ∧
      ∀ x ∈ xs, session'.store.mem.Exact x := by
  unfold Session.perform at ran
  split at ran
  · rename_i p s ended
    cases ran
    obtain ⟨s', ended', rfl, kept⟩ := agrees (session.opens cursor) exact result s ended
    exact ⟨session.closes cursor result s', by rw [Session.perform, ended'], rfl, kept⟩
  · cases ran

theorem Session.act_call {μ : Type} [NodeMemory μ ν] {session after : Session μ ι ν δ} {rp : RbPath ν}
    {call : Call ν δ κ} {result : Ptr ν} (ran : session.act c fuel rp (.call call) = .ok (result, after)) :
    after.paths = session.paths ∧ after.nodes = session.nodes := by
  simp only [Session.act] at ran
  cases called : session.store.call c fuel rp call with
  | error why =>
    rw [called] at ran
    cases ran
  | ok outcome =>
    rw [called] at ran
    cases ran
    exact ⟨rfl, rfl⟩

omit [DecidableEq ι] in
theorem Tour.after_mem {action : Action ι ν δ κ} (other : ∀ call, action ≠ .call call) {x : ν}
    (member : x ∈ (tour.after c model action).tree.toList) : x ∈ model.tree.toList := by
  cases action with
  | call call => exact absurd rfl (other call)
  | start cursor at_ => exact member
  | move cursor d => exact member
  | erase cursor =>
    simp only [Tour.after] at member
    split at member
    · exact ColorTree.mem_of_remove member
    · exact member

theorem Session.Holds.act (holds : session.Holds c tour model) {action : Action ι ν δ κ} {result : Option ν}
    (acts : tour.Acts c action result tour') (enough : model.tree.height < fuel) (rp : RbPath ν) :
    ∃ session', session.act c fuel rp action = .ok (result, session') ∧
      session'.Holds c tour' (tour.after c model action) := by
  obtain ⟨after, ran, shown⟩ := holds.shows.act acts enough rp
  have performs {cursor : ι} {raw : Program (State (Words layout) ν) (Ptr ν)}
      {record : Program (State (Records ν) ν) (Ptr ν)} (other : ∀ call, action ≠ .call call)
      (agrees : Agrees layout model.tree.toList raw record)
      (same : session.records.act c fuel rp action = session.records.perform cursor record) :
      ∃ session', session.perform cursor raw = .ok (result, session') ∧
        session'.Holds c tour' (tour.after c model action) := by
    obtain ⟨session', ran', rfl, kept⟩ := Session.perform_agrees agrees holds.exact (same ▸ ran)
    exact ⟨session', ran', shown, fun x member => kept x (Tour.after_mem other member)⟩
  cases action with
  | call call =>
    have stored : session.store.Holds model := ⟨holds.shows.store, holds.exact⟩
    have allowed : tour.ref.Allows c call := by cases acts <;> assumption
    obtain ⟨outcome, called, same, held⟩ := stored.call holds.shows.keeps allowed enough rp
    obtain ⟨paths, nodes⟩ := Session.act_call ran
    have answer : result = (model.call c call).1 := by
      rw [(holds.shows.keeps.call allowed).1]
      cases acts <;> rfl
    refine ⟨{ session with store := outcome.store }, ?_, ⟨held.shows, shown.keeps, ?_⟩, held.exact⟩
    · simp only [Session.act, called, bind, Except.bind, same, answer]
      rfl
    · have cursors := shown.cursors
      rw [paths, nodes] at cursors
      exact cursors
  | start cursor at_ => exact performs (fun _ same => by cases same) (agrees_startAt _ fuel at_) rfl
  | move cursor d => exact performs (fun _ same => by cases same) (agrees_rbIterNext fuel _ d) rfl
  | erase cursor =>
    cases acts with
    | @erase _ k x stands =>
      obtain ⟨stored, node, _⟩ := holds.shows.cursors cursor k x stands
      obtain ⟨member, _⟩ := (holds.shows.keeps.lists.entries k x).mp stored
      have here : session.nodes cursor = some x := node
      rw [Session.act, here]
      exact performs (fun _ same => by cases same) (agrees_rbErase fuel member) (by rw [Session.act, node])

/-- An action, and what is written from outside into the words of nodes before it. -/
structure Stop (ι ν δ κ : Type) (w : Nat) where
  noise : ν → Option (RawNode w)
  rp : RbPath ν
  action : Action ι ν δ κ

def Session.runWords (c : Comparators δ κ) (fuel : Nat) (session : Session (Words layout) ι ν δ) :
    List (Stop ι ν δ κ w) → Except Fault (List (Ptr ν) × Session (Words layout) ι ν δ)
  | [] => return ([], session)
  | stop :: rest => do
    let store := { session.store with mem := session.store.mem.scribble stop.noise }
    let (result, session) ← Session.act c fuel { session with store := store } stop.rp stop.action
    let (results, final) ← session.runWords c fuel rest
    return (result :: results, final)

/-- A run of the map in which the words of a node are left alone while it is stored. -/
inductive Tour.Spares (c : Comparators δ κ) :
    Tour ι ν δ κ → List (Stop ι ν δ κ w) → List (Option ν) → Tour ι ν δ κ → Prop where
  | nil {tour : Tour ι ν δ κ} : Spares c tour [] [] tour
  | cons {tour next final : Tour ι ν δ κ} {stop : Stop ι ν δ κ w} {rest : List (Stop ι ν δ κ w)}
      {result : Option ν} {results : List (Option ν)} :
      (∀ k x, tour.ref.map k = some x → stop.noise x = none) →
      tour.Acts c stop.action result next → Spares c next rest results final →
      Spares c tour (stop :: rest) (result :: results) final

omit [DecidableEq ι] [DecidableEq ν] in
theorem Session.Holds.scribble (holds : session.Holds c tour model) {noise : ν → Option (RawNode w)}
    (spared : ∀ x ∈ model.tree.toList, noise x = none) :
    Session.Holds c { session with store := { session.store with mem := session.store.mem.scribble noise } }
      tour model := by
  have stored : session.store.Holds model := ⟨holds.shows.store, holds.exact⟩
  obtain ⟨shows, exact⟩ := stored.scribble spared
  exact ⟨⟨shows, holds.shows.keeps, holds.shows.cursors⟩, exact⟩

theorem Session.Holds.run (holds : session.Holds c tour model) {plain : Session (Records ν) ι ν δ}
    (shows : plain.Shows c tour model) {stops : List (Stop ι ν δ κ w)} {results : List (Option ν)}
    {final : Tour ι ν δ κ} (spares : tour.Spares c stops results final)
    (enough : model.tree.size + stops.length ≤ fuel) :
    ∃ raw records model', session.runWords c fuel stops = .ok (results, raw) ∧
      plain.run c fuel (stops.map fun stop => (stop.rp, stop.action)) = .ok (results, records) ∧
      raw.Holds c final model' ∧ records.Shows c final model' := by
  induction stops generalizing session plain tour model results with
  | nil =>
    cases spares
    exact ⟨session, plain, model, rfl, rfl, holds, shows⟩
  | cons stop rest ih =>
    rw [List.length_cons] at enough
    have low := ColorTree.height_le_size model.tree
    have grown := tour.after_size_le c model stop.action
    cases spares with
    | cons spared acts others =>
      have quiet : ∀ x ∈ model.tree.toList, stop.noise x = none := fun x member =>
        spared _ x (holds.shows.keeps.lists.mem_iff.mp member)
      obtain ⟨next, acted, held⟩ := (holds.scribble quiet).act acts (show _ < fuel by omega) stop.rp
      obtain ⟨next', acted', shown⟩ := shows.act acts (show _ < fuel by omega) stop.rp
      obtain ⟨raw, records, model', ran, ran', held', shown'⟩ := ih held shown others (by omega)
      refine ⟨raw, records, model', ?_, ?_, held', shown'⟩
      · simp only [Session.runWords, acted, bind, Except.bind, ran]
        rfl
      · simp only [List.map_cons, Session.run, acted', bind, Except.bind, ran']
        rfl

variable (c)

/-- For every assignment of addresses, sessions with any number of cursors on raw words
are in lock step with sessions on records: every action returns what the map returns, the
words of every stored node are the links and the colour of its record, and every cursor
that stands has the way to its node. -/
theorem tours_lock_step {address : ν → BitVec w} (distinct : Function.Injective address)
    (nonzero : ∀ x, address x ≠ 0#w) (even : ∀ x, address x &&& 1#w = 0#w) :
    (∃ layout : Layout ν w, layout.address = address) ∧
    ∀ layout : Layout ν w, layout.address = address →
      ∀ (words : Words layout) (mem : Records ν) (data : ν → δ) (paths : ι → RbPath ν) (nodes : ι → Ptr ν)
        (stops : List (Stop ι ν δ κ w)) (results : List (Option ν)) (tour : Tour ι ν δ κ) (fuel : Nat),
        (Tour.init data).Spares c stops results tour → stops.length ≤ fuel →
        ∃ raw session tree,
          Session.runWords c fuel ⟨Store.init words data, paths, nodes⟩ stops = .ok (results, raw) ∧
          Session.run c fuel ⟨Store.init mem data, paths, nodes⟩ (stops.map fun stop => (stop.rp, stop.action)) =
            .ok (results, session) ∧
          Library.Shows nodeRecord session.store.mem session.store.root tree ∧
          raw.store.root = session.store.root ∧
          (∀ x ∈ tree.toList,
            (raw.store.mem x).childColor .left =
              layout.word (session.store.mem x).left ||| colorBit w (session.store.mem x).color ∧
            (raw.store.mem x).childColor .right = layout.word (session.store.mem x).right) ∧
          ∀ cursor k x, tour.standing cursor = some (k, x) →
            x ∈ tree.toList ∧ raw.nodes cursor = some x ∧ Routes tree (raw.paths cursor) x := by
  refine ⟨exists_layout distinct nonzero even, ?_⟩
  intro layout _ words mem data paths nodes stops results tour fuel spares enough
  have begun : Session.Holds c ⟨Store.init words data, paths, nodes⟩ (Tour.init data) (Model.init data) :=
    ⟨session_init_shows (words.records) data paths nodes, nofun⟩
  obtain ⟨raw, session, model, ranRaw, ran, holds, shows⟩ := begun.run
    (session_init_shows mem data paths nodes) spares (by simpa [Model.init, ColorTree.size] using enough)
  have stored := holds.shows.store.tree
  refine ⟨raw, session, model.tree, ranRaw, ran, shows.store.tree,
    stored.root_eq.trans shows.store.tree.root_eq.symm, fun x member => ?_, fun cursor k x stands => ?_⟩
  · have records : raw.store.mem.records x = session.store.mem x := shows.store.tree.holds.unique stored.holds x member
    have encodes := holds.exact x member
    unfold Words.Exact at encodes
    rw [records] at encodes
    exact ⟨encodes.left_eq, encodes.right_eq⟩
  · obtain ⟨inside, node, routes⟩ := holds.shows.cursors cursor k x stands
    exact ⟨((holds.shows.keeps.lists.entries k x).mp inside).1, node, routes⟩

variable {c}

def Stop.quiet (rp : RbPath ν) (action : Action ι ν δ κ) : Stop ι ν δ κ w := ⟨fun _ => none, rp, action⟩

def stopsAfter (noise : ν → Option (RawNode w)) (rp : RbPath ν) : List (Action ι ν δ κ) → List (Stop ι ν δ κ w)
  | [] => []
  | action :: rest => ⟨noise, rp, action⟩ :: rest.map (Stop.quiet rp)

theorem Tour.Runs.quiet {actions : List (Action ι ν δ κ)} {results : List (Option ν)}
    (runs : tour.Runs c actions results tour') (rp : RbPath ν) :
    tour.Spares c (actions.map (Stop.quiet rp) : List (Stop ι ν δ κ w)) results tour' := by
  induction runs with
  | nil => exact .nil
  | cons acts _ ih => exact .cons (fun _ _ _ => rfl) acts ih

theorem Tour.Runs.after {actions : List (Action ι ν δ κ)} {results : List (Option ν)} {noise : ν → Option (RawNode w)}
    (runs : tour.Runs c actions results tour') (spared : ∀ k x, tour.ref.map k = some x → noise x = none)
    (rp : RbPath ν) : tour.Spares c (stopsAfter noise rp actions) results tour' := by
  cases runs with
  | nil => exact .nil
  | cons acts others => exact .cons spared acts (others.quiet rp)

theorem Tour.Spares.append {middle : Tour ι ν δ κ} {stops more : List (Stop ι ν δ κ w)}
    {results others : List (Option ν)} (spares : tour.Spares c stops results middle)
    (continues : middle.Spares c more others tour') :
    tour.Spares c (stops ++ more) (results ++ others) tour' := by
  induction spares with
  | nil => exact continues
  | cons spared acts _ ih => exact .cons spared acts (ih continues)

end

def firstNode : Fin 4 := (Fin.last 2).castSucc
def lastNode : Fin 4 := .last 3

def unused : RbPath (Fin 4) := ⟨fun _ => ⟨some lastNode, .right⟩, 7⟩

/-- A stroll in which the words of the removed node are overwritten before it comes back. -/
def revisited : List (Stop Bool (Fin 4) Int Int 16) :=
  (strollOut firstNode lastNode).map (.quiet unused) ++
    stopsAfter (fun x => if x = lastNode then some ⟨fun _ => 0xffff#16⟩ else none) unused (strollBack lastNode)

theorem revisited_spares : (Tour.init fun _ => 0).Spares aNode revisited (strollNodes firstNode lastNode)
    (strolled firstNode lastNode) := by
  have apart : firstNode ≠ lastNode := by decide
  refine ((strollOut_runs apart).quiet unused).append ((strollBack_runs apart).after ?_ unused)
  intro k x stored
  have kept : (strollOne firstNode lastNode).map k = some x := stored
  rw [strollOne_map] at kept
  split at kept
  · cases kept
    exact if_neg apart
  · cases kept

theorem tours_lock_step_packed :
    ∃ raw session tree,
      Session.runWords aNode 10
          ⟨(Store.init (fun _ => ⟨fun _ => 0x1235#16⟩) fun _ => 0 : Store (Words packed) (Fin 4) Int),
            fun _ => unused, fun _ => none⟩ revisited =
        .ok (strollNodes firstNode lastNode, raw) ∧
      Session.run aNode 10
          ⟨Store.init (fun _ => ⟨none, none, .red⟩) fun _ => 0, fun _ => unused, fun _ => none⟩
          (revisited.map fun stop => (stop.rp, stop.action)) =
        .ok (strollNodes firstNode lastNode, session) ∧
      Library.Shows nodeRecord session.store.mem session.store.root tree ∧
      raw.store.root = session.store.root ∧
      (∀ x ∈ tree.toList,
        (raw.store.mem x).childColor .left =
          packed.word (session.store.mem x).left ||| colorBit 16 (session.store.mem x).color ∧
        (raw.store.mem x).childColor .right = packed.word (session.store.mem x).right) ∧
      ∀ cursor k x, (strolled firstNode lastNode).standing cursor = some (k, x) →
        x ∈ tree.toList ∧ raw.nodes cursor = some x ∧ Routes tree (raw.paths cursor) x :=
  (tours_lock_step aNode packed.address_injective packed.address_ne_zero packed.even).2 packed rfl
    _ _ _ _ _ revisited _ _ 10 revisited_spares (by decide)

end Embedlib.RbtreeCompact
