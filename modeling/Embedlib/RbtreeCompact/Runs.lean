import Embedlib.RbtreeCompact.Generated
import Embedlib.Rb.Model

/-! Runs of `RB_INSERT`, `RB_FIND` and `RB_REMOVE` on the compact tree. -/

set_option autoImplicit false

namespace Embedlib.RbtreeCompact

open Library Rb

variable {μ ν δ κ : Type}

/-- What outlives a call: the nodes, the root and the contents of the containers. -/
@[ext] structure Store (μ ν δ : Type) where
  mem : μ
  root : Ptr ν
  data : ν → δ

/-- `RB_ROOT_INIT` -/
def Store.init (mem : μ) (data : ν → δ) : Store μ ν δ := ⟨mem, none, data⟩

def atRest : RbPath Nat := ⟨fun _ => ⟨none, .left⟩, 0⟩

/-- The pointer a call returns, what it leaves, and the path entries it wrote. -/
structure Outcome (μ ν δ : Type) where
  result : Ptr ν
  store : Store μ ν δ
  written : List Nat

/-- Run an operation; `rp` is its path before `RB_PATH_INIT`. -/
def Store.perform (store : Store μ ν δ) (rp : RbPath ν) (program : Program (State μ ν) (Ptr ν)) :
    Except Fault (Outcome μ ν δ) :=
  match program ⟨store.mem, store.root, rp, []⟩ with
  | .ok (result, s) => .ok ⟨result, ⟨s.mem, s.root, store.data⟩, s.written⟩
  | .error why => .error why

section
variable [NodeMemory μ ν] [DecidableEq ν] [LinearOrder κ] (c : Comparators δ κ) (fuel : Nat)

def Store.call (store : Store μ ν δ) (rp : RbPath ν) :
    Call ν δ κ → Except Fault (Outcome μ ν δ)
  | .insert node content =>
    let data := Function.update store.data node content
    Store.perform { store with data := data } rp
      (rbInsert (fun a b => c.cmp (data a) (data b)) fuel node)
  | .find key => store.perform rp (rbFind (fun k b => c.keyCmp k (store.data b)) fuel key)
  | .remove key => store.perform rp (rbRemoveKey (fun k b => c.keyCmp k (store.data b)) fuel key)

def Store.run (store : Store μ ν δ) :
    List (RbPath ν × Call ν δ κ) → Except Fault (List (Ptr ν) × Store μ ν δ)
  | [] => return ([], store)
  | (rp, call) :: rest => do
    let outcome ← store.call c fuel rp call
    let (results, final) ← outcome.store.run rest
    return (outcome.result :: results, final)

end

theorem Store.perform_ok (store : Store μ ν δ) {rp : RbPath ν} {program : Program (State μ ν) (Ptr ν)}
    {post : Ptr ν → State μ ν → Prop} (ensured : Ensures program post ⟨store.mem, store.root, rp, []⟩) :
    ∃ result s, store.perform rp program = .ok ⟨result, ⟨s.mem, s.root, store.data⟩, s.written⟩ ∧
      post result s := by
  obtain ⟨result, s, ran, holds⟩ := ensured.result
  exact ⟨result, s, by rw [Store.perform, ran], holds⟩

/-- The links and colours in the store spell out the tree of the model. -/
structure Store.Shows (store : Store (Records ν) ν δ) (model : Model ν δ) : Prop where
  tree : Library.Shows nodeRecord store.mem store.root model.tree
  data_eq : store.data = model.data

structure Outcome.Sound [LinearOrder κ] [DecidableEq ν] (c : Comparators δ κ)
    (store : Store (Records ν) ν δ) (model : Model ν δ) (ref : Ref ν δ κ) (call : Call ν δ κ)
    (outcome : Outcome (Records ν) ν δ) : Prop where
  result_eq : outcome.result = (model.call c call).1
  shows : outcome.store.Shows (model.call c call).2
  bounded : ∀ i ∈ outcome.written, i ≤ model.tree.height
  unchanged : ref.Passive c call → outcome.store.mem = store.mem ∧ outcome.store.root = store.root

section
variable [LinearOrder κ] [DecidableEq ν] {c : Comparators δ κ} {store : Store (Records ν) ν δ}
  {model : Model ν δ} {ref : Ref ν δ κ} {fuel : Nat}

theorem sound_of_ensures {call : Call ν δ κ} {data : ν → δ} {rp : RbPath ν}
    {program : Program (State (Records ν) ν) (Ptr ν)}
    (ensured : Ensures program (fun result s => result = (model.call c call).1 ∧
      s.Shows (model.call c call).2.tree ∧ s.Within model.tree.height ∧
      (ref.Passive c call → s.mem = store.mem ∧ s.root = store.root)) ⟨store.mem, store.root, rp, []⟩)
    (dataEq : data = (model.call c call).2.data) :
    ∃ outcome, Store.perform { store with data := data } rp program = .ok outcome ∧
      outcome.Sound c store model ref call := by
  obtain ⟨result, s, ran, same, shows, within, unchanged⟩ :=
    Store.perform_ok { store with data := data } ensured
  exact ⟨_, ran, same, ⟨shows, dataEq⟩, within, unchanged⟩

theorem Store.call_sound (shows : store.Shows model) (keeps : Keeps c model ref)
    {call : Call ν δ κ} (allowed : ref.Allows c call) (enough : model.tree.height < fuel)
    (rp : RbPath ν) :
    ∃ outcome, store.call c fuel rp call = .ok outcome ∧ outcome.Sound c store model ref call := by
  have dataEq := shows.data_eq
  have start : State.Shows ⟨store.mem, store.root, rp, []⟩ model.tree := shows.tree
  have within : State.Within ⟨store.mem, store.root, rp, []⟩ model.tree.height := by simp [State.Within]
  cases call with
  | insert node content =>
    have compares := c.side_insert dataEq node content
    have found := keeps.search_insert allowed
    refine sound_of_ensures ?_ (by simp only [Model.call, dataEq])
    cases stored : ref.map (c.keyOf content) with
    | some y =>
      have present := found.trans stored
      refine ensures_insert_present compares start within (Nat.le_refl _) enough present
        fun s' mem root within => ⟨?_, ?_, within, fun _ => ⟨mem, root⟩⟩
      · simp [Model.call, present]
      · simp only [Model.call, ColorTree.insert_present present]
        exact start.same_heap mem root
    | none =>
      have absent := found.trans stored
      have fresh := keeps.fresh allowed stored
      refine ensures_insert_absent compares start keeps.redBlack fresh within (Nat.le_refl _) enough absent
        fun s' shows' within' => ⟨?_, ?_, within', fun passive => absurd stored passive⟩
      · simp [Model.call, absent]
      · simp only [Model.call, ColorTree.insert_absent absent]
        exact shows'
  | find key =>
    have compares := c.side_key dataEq key
    refine sound_of_ensures ?_ dataEq
    exact ensures_rbFind compares start within (Nat.le_refl _) enough
      fun s' mem root _ within' _ => ⟨rfl, start.same_heap mem root, within', fun _ => ⟨mem, root⟩⟩
  | remove key =>
    have compares := c.side_key dataEq key
    have found := keeps.search_key key
    refine sound_of_ensures ?_ dataEq
    cases stored : ref.map key with
    | none =>
      have absent := found.trans stored
      refine ensures_remove_absent compares start within (Nat.le_refl _) enough absent
        fun s' mem root within' => ⟨absent.symm, ?_, within', fun _ => ⟨mem, root⟩⟩
      simp only [Model.call, ColorTree.remove_absent absent]
      exact start.same_heap mem root
    | some x =>
      have present := found.trans stored
      refine ensures_remove_present compares start keeps.redBlack within (Nat.le_refl _) enough present
        fun s' shows' within' => ⟨present.symm, ?_, within', fun passive => ?_⟩
      · simp only [Model.call, ColorTree.remove_present present]
        exact shows'
      · cases passive.symm.trans stored

omit [DecidableEq ν] in
theorem store_init_shows (mem : Records ν) (data : ν → δ) :
    (Store.init mem data).Shows (Model.init data) :=
  ⟨⟨rfl, trivial, List.nodup_nil⟩, rfl⟩

theorem Store.run_sound (shows : store.Shows model) (keeps : Keeps c model ref)
    {calls : List (RbPath ν × Call ν δ κ)} (allowed : ref.AllowsAll c (calls.map Prod.snd))
    (enough : model.tree.size + calls.length ≤ fuel) :
    ∃ final, store.run c fuel calls = .ok ((model.run c (calls.map Prod.snd)).1, final) ∧
      final.Shows (model.run c (calls.map Prod.snd)).2 := by
  induction calls generalizing store model ref with
  | nil => exact ⟨store, rfl, shows⟩
  | cons first rest ih =>
    obtain ⟨rp, call⟩ := first
    obtain ⟨here, others⟩ : ref.Allows c call ∧
      (ref.call c call).2.AllowsAll c (rest.map Prod.snd) := allowed
    rw [List.length_cons] at enough
    have low := ColorTree.height_le_size model.tree
    have grown := model.call_size_le (c := c) call
    obtain ⟨outcome, ran, sound⟩ := Store.call_sound shows keeps here (show _ < fuel by omega) rp
    obtain ⟨final, rested, shows'⟩ := ih sound.shows (keeps.call here).2 others (by omega)
    refine ⟨final, ?_, shows'⟩
    simp only [Store.run, ran, bind, Except.bind, rested, sound.result_eq, List.map_cons, Model.run]
    rfl

theorem run_init (mem : Records ν) {data : ν → δ} {calls : List (RbPath ν × Call ν δ κ)}
    (allowed : (Ref.init data).AllowsAll c (calls.map Prod.snd)) (enough : calls.length ≤ fuel) :
    ∃ final model, (Store.init mem data).run c fuel calls =
        .ok (((Ref.init data).run c (calls.map Prod.snd)).1, final) ∧
      model = ((Model.init data).run c (calls.map Prod.snd)).2 ∧ final.Shows model ∧
      Keeps c model ((Ref.init data).run c (calls.map Prod.snd)).2 ∧
      model.tree.height ≤ calls.length := by
  obtain ⟨same, keeps⟩ := (keeps_init (c := c) data).run allowed
  obtain ⟨final, ran, shows⟩ := Store.run_sound (store_init_shows mem data) (keeps_init (c := c) data)
    allowed (show _ ≤ fuel by simpa [Model.init, ColorTree.size] using enough)
  have grown := Model.run_size_le (c := c) (Model.init data) (calls.map Prod.snd)
  have low := ColorTree.height_le_size ((Model.init data).run c (calls.map Prod.snd)).2.tree
  have empty : (Model.init data).tree.size = 0 := rfl
  simp only [List.length_map, empty, Nat.zero_add] at grown
  exact ⟨final, _, same ▸ ran, rfl, shows, keeps, Nat.le_trans low grown⟩

end

section
variable [LinearOrder κ] [DecidableEq ν] (c : Comparators δ κ)

/-- Every run of calls from an empty root ends in a red-black tree. -/
theorem run_isRedBlack (mem : Records ν) (data : ν → δ) (calls : List (RbPath ν × Call ν δ κ))
    (allowed : (Ref.init data).AllowsAll c (calls.map Prod.snd)) {fuel : Nat}
    (enough : calls.length ≤ fuel) :
    ∃ results final tree, (Store.init mem data).run c fuel calls = .ok (results, final) ∧
      Library.Shows nodeRecord final.mem final.root tree ∧ IsRedBlack tree := by
  obtain ⟨final, model, ran, _, shows, keeps, _⟩ := run_init mem allowed enough
  exact ⟨_, final, model.tree, ran, shows.tree, keeps.redBlack⟩

theorem run_isRedBlack_reuse :
    ∃ results final tree, (Store.init (fun _ => ⟨none, none, .red⟩) fun _ => 0).run aNode 5
        (reuse.map (atRest, ·)) = .ok (results, final) ∧
      Library.Shows nodeRecord final.mem final.root tree ∧ IsRedBlack tree :=
  run_isRedBlack aNode _ _ _ (by simpa [Function.comp_def] using reuse_allowed) (by decide)

/-- The store holds the map: its links spell out a tree that lists the stored
nodes in key order. -/
def Store.Represents (store : Store (Records ν) ν δ) (ref : Ref ν δ κ) : Prop :=
  store.data = ref.data ∧ ∃ tree, Library.Shows nodeRecord store.mem store.root tree ∧
    Lists (fun x => c.keyOf (store.data x)) ref.map tree.toList

/-- What a call leaves alone: every word, unless it stores or removes a node; no
link to a removed node stays in the root or in a stored node. -/
def Effect (ref : Ref ν δ κ) (before after : Store (Records ν) ν δ) : Call ν δ κ → Prop
  | .insert _ content =>
    ref.map (c.keyOf content) ≠ none → after.mem = before.mem ∧ after.root = before.root
  | .find _ => after = before
  | .remove key => match ref.map key with
    | none => after = before
    | some x => after.root ≠ some x ∧ ∀ k y, (ref.call c (.remove key)).2.map k = some y →
      (after.mem y).left ≠ some x ∧ (after.mem y).right ≠ some x

omit [DecidableEq ν] in
theorem Store.Shows.represents {store : Store (Records ν) ν δ} {model : Model ν δ} {ref : Ref ν δ κ}
    (shows : store.Shows model) (keeps : Keeps c model ref) : store.Represents c ref :=
  ⟨shows.data_eq.trans keeps.data_eq, model.tree, shows.tree, by
    rw [shows.data_eq, keeps.data_eq]; exact keeps.lists⟩

theorem Outcome.Sound.effect {store : Store (Records ν) ν δ} {model : Model ν δ} {ref : Ref ν δ κ}
    {call : Call ν δ κ} {outcome : Outcome (Records ν) ν δ}
    (sound : outcome.Sound c store model ref call) (shows : store.Shows model)
    (keeps : Keeps c model ref) (allowed : ref.Allows c call) :
    Effect c ref store outcome.store call := by
  have after := (keeps.call allowed).2
  have shown := sound.shows
  cases call with
  | insert node content => exact sound.unchanged
  | find key =>
    obtain ⟨mem, root⟩ := sound.unchanged trivial
    exact Store.ext mem root (shown.data_eq.trans shows.data_eq.symm)
  | remove key =>
    cases stored : ref.map key with
    | none =>
      obtain ⟨mem, root⟩ := sound.unchanged stored
      simp only [Effect, stored]
      exact Store.ext mem root (shown.data_eq.trans shows.data_eq.symm)
    | some x =>
      have gone := keeps.removed_not_mem stored
      simp only [Effect, stored]
      refine ⟨fun root => gone (ColorTree.root_mem (shown.tree.root_eq.symm.trans root)), ?_⟩
      intro k y entry
      have member := ((after.lists.entries k y).mp entry).1
      obtain ⟨p, e, left, right, record, _, lefts, rights⟩ := shown.tree.holds.links member
      rw [record]
      exact ⟨fun same => gone (lefts x same), fun same => gone (rights x same)⟩

/-- After any run from an empty root the tree is the ordered map of the stored
nodes, and the next call does to it what it does to the map. -/
theorem run_represents (mem : Records ν) (data : ν → δ) (calls : List (RbPath ν × Call ν δ κ))
    (rp : RbPath ν) (call : Call ν δ κ)
    (allowed : (Ref.init data).AllowsAll c (calls.map Prod.snd ++ [call])) {fuel : Nat}
    (enough : calls.length < fuel) :
    let ref := (Ref.init data).run c (calls.map Prod.snd)
    ∃ store outcome, (Store.init mem data).run c fuel calls = .ok (ref.1, store) ∧
      store.Represents c ref.2 ∧ store.call c fuel rp call = .ok outcome ∧
      outcome.result = (ref.2.call c call).1 ∧ outcome.store.Represents c (ref.2.call c call).2 ∧
      Effect c ref.2 store outcome.store call := by
  intro ref
  obtain ⟨before, allowed⟩ := Ref.allowsAll_append.mp allowed
  obtain ⟨store, model, ran, _, shows, keeps, low⟩ := run_init mem before (show _ ≤ fuel by omega)
  obtain ⟨outcome, called, sound⟩ := Store.call_sound shows keeps allowed (show _ < fuel by omega) rp
  obtain ⟨answer, keeps'⟩ := keeps.call allowed
  exact ⟨store, outcome, ran, shows.represents c keeps, called, sound.result_eq.trans answer,
    sound.shows.represents c keeps', sound.effect c shows keeps allowed⟩

theorem run_represents_reuse :
    let ref := (Ref.init fun _ => 0).run aNode (reuse.take 4)
    ∃ store outcome, (Store.init (fun _ => ⟨none, none, .red⟩) fun _ => 0).run aNode 5
        ((reuse.take 4).map (atRest, ·)) = .ok (ref.1, store) ∧
      store.Represents aNode ref.2 ∧
      store.call aNode 5 atRest (.insert 1 30) = .ok outcome ∧
      outcome.result = (ref.2.call aNode (.insert 1 30)).1 ∧
      outcome.store.Represents aNode (ref.2.call aNode (.insert 1 30)).2 ∧
      Effect aNode ref.2 store outcome.store (.insert 1 30) :=
  run_represents aNode _ _ ((reuse.take 4).map (atRest, ·)) _ _
    (by
      have whole : reuse.take 4 ++ [.insert 1 30] = reuse := rfl
      simpa [Function.comp_def, whole] using reuse_allowed) (by decide)

end

end Embedlib.RbtreeCompact
