import Embedlib.Rbtree.Generated
import Embedlib.Rb.Requests

/-! Runs of `RB_INSERT`, `RB_FIND`, `RB_REMOVE` and `rb_remove` on the tree with
parent pointers. -/

set_option autoImplicit false

namespace Embedlib.Rbtree

open Library Rb Spine

variable {ν δ κ : Type}

/-- What outlives a call: the nodes, the root and the contents of the containers. -/
@[ext] structure Store (ν δ : Type) where
  mem : Records ν
  root : Ptr ν
  data : ν → δ

/-- `RB_ROOT_INIT` -/
def Store.init (mem : Records ν) (data : ν → δ) : Store ν δ := ⟨mem, none, data⟩

def Store.perform {α : Type} (store : Store ν δ) (program : Program (State ν) α) :
    Except Fault (α × Store ν δ) :=
  match program ⟨store.mem, store.root⟩ with
  | .ok (result, s) => .ok (result, ⟨s.mem, s.root, store.data⟩)
  | .error why => .error why

section
variable [DecidableEq ν] [LinearOrder κ] (c : Comparators δ κ) (fuel : Nat)

def Store.serve (store : Store ν δ) : Request ν δ κ → Except Fault (Ptr ν × Store ν δ)
  | .call (.insert node content) =>
    let data := Function.update store.data node content
    Store.perform { store with data := data } (rbInsert (fun a b => c.cmp (data a) (data b)) fuel node)
  | .call (.find key) => store.perform (rbFind (fun k b => c.keyCmp k (store.data b)) fuel key)
  | .call (.remove key) => store.perform (rbRemoveKey (fun k b => c.keyCmp k (store.data b)) fuel key)
  | .erase node => store.perform do
    rbRemove fuel (some node)
    return none

def Store.serveAll (store : Store ν δ) :
    List (Request ν δ κ) → Except Fault (List (Ptr ν) × Store ν δ)
  | [] => return ([], store)
  | request :: rest => do
    let (result, store) ← store.serve c fuel request
    let (results, final) ← store.serveAll rest
    return (result :: results, final)

end

theorem Store.perform_ok {α : Type} (store : Store ν δ) {program : Program (State ν) α}
    {post : α → State ν → Prop} (ensured : Ensures program post ⟨store.mem, store.root⟩) :
    ∃ result s, store.perform program = .ok (result, ⟨s.mem, s.root, store.data⟩) ∧ post result s := by
  obtain ⟨result, s, ran, holds⟩ := ensured.result
  exact ⟨result, s, by rw [Store.perform, ran], holds⟩

/-- The links and colours in the store spell out the tree of the model. -/
structure Store.Shows (store : Store ν δ) (model : Model ν δ) : Prop where
  tree : Library.Shows nodeRecord store.mem store.root model.tree
  data_eq : store.data = model.data

structure Sound [LinearOrder κ] [DecidableEq ν] (c : Comparators δ κ) (store : Store ν δ)
    (model : Model ν δ) (ref : Ref ν δ κ) (request : Request ν δ κ) (result : Ptr ν) (after : Store ν δ) :
    Prop where
  result_eq : result = (model.serve c request).1
  shows : after.Shows (model.serve c request).2
  unchanged : ref.Idle c request → after.mem = store.mem ∧ after.root = store.root

section
variable [LinearOrder κ] [DecidableEq ν] {c : Comparators δ κ} {store : Store ν δ}
  {model : Model ν δ} {ref : Ref ν δ κ} {fuel : Nat}

theorem sound_of_ensures {request : Request ν δ κ} {data : ν → δ} {program : Program (State ν) (Ptr ν)}
    (ensured : Ensures program (fun result s => result = (model.serve c request).1 ∧
      s.Shows (model.serve c request).2.tree ∧
      (ref.Idle c request → s.mem = store.mem ∧ s.root = store.root)) ⟨store.mem, store.root⟩)
    (dataEq : data = (model.serve c request).2.data) :
    ∃ result after, Store.perform { store with data := data } program = .ok (result, after) ∧
      Sound c store model ref request result after := by
  obtain ⟨result, s, ran, same, shows, unchanged⟩ :=
    Store.perform_ok { store with data := data } ensured
  exact ⟨_, _, ran, same, ⟨shows, dataEq⟩, unchanged⟩

theorem ensures_erase {s : State ν} {t : ColorTree ν} {x : ν} {key : ν → κ} {map : κ → Option ν}
    (shows : s.Shows t) (redBlack : IsRedBlack t) (lists : Lists key map t.toList) (member : x ∈ t.toList)
    (enough : t.height < fuel) :
    Ensures (rbRemove fuel (some x)) (fun _ s' => s'.Shows (t.remove (toward key (key x)))) s := by
  obtain ⟨a, b, listed⟩ := List.append_of_mem member
  obtain ⟨sp, e, l, r, rfl, _⟩ := exists_focus listed
  rw [← lists.removeAt_eq]
  exact ensures_rbRemove shows redBlack (by omega) fun _ shows' => shows'

theorem Store.serve_sound (shows : store.Shows model) (keeps : Keeps c model ref)
    {request : Request ν δ κ} (admitted : ref.Admits c request) (enough : model.tree.height < fuel) :
    ∃ result after, store.serve c fuel request = .ok (result, after) ∧
      Sound c store model ref request result after := by
  have dataEq := shows.data_eq
  have start : State.Shows ⟨store.mem, store.root⟩ model.tree := shows.tree
  have lists := keeps.lists
  rw [← keeps.data_eq] at lists
  rcases request with (⟨node, content⟩ | key | key) | node
  · have compares := c.side_insert dataEq node content
    have found := keeps.search_insert admitted
    refine sound_of_ensures ?_ (by simp only [Model.serve, Model.call, dataEq])
    cases stored : ref.map (c.keyOf content) with
    | some y =>
      have present := found.trans stored
      refine ensures_insert_present compares start enough present ⟨?_, ?_, fun _ => ⟨rfl, rfl⟩⟩
      · simp [Model.serve, Model.call, present]
      · simp only [Model.serve, Model.call, ColorTree.insert_present present]
        exact start
    | none =>
      have absent := found.trans stored
      have fresh := keeps.fresh admitted stored
      refine ensures_insert_absent compares start keeps.redBlack fresh enough absent
        fun s' shows' => ⟨?_, shows', fun passive => absurd stored passive⟩
      simp [Model.serve, Model.call, absent]
  · have compares := c.side_key dataEq key
    refine sound_of_ensures ?_ dataEq
    exact ensures_rbFind compares start enough ⟨rfl, start, fun _ => ⟨rfl, rfl⟩⟩
  · have compares := c.side_key dataEq key
    have found := keeps.search_key key
    refine sound_of_ensures ?_ dataEq
    cases stored : ref.map key with
    | none =>
      have absent := found.trans stored
      refine ensures_remove_absent compares start enough absent ⟨absent.symm, ?_, fun _ => ⟨rfl, rfl⟩⟩
      simp only [Model.serve, Model.call, ColorTree.remove_absent absent]
      exact start
    | some x =>
      have present := found.trans stored
      refine ensures_remove_present compares start keeps.redBlack enough present
        fun s' shows' => ⟨present.symm, shows', fun passive => ?_⟩
      cases passive.symm.trans stored
  · have member : node ∈ model.tree.toList := by
      rw [keeps.lists.mem_iff]; exact admitted
    refine sound_of_ensures ?_ dataEq
    exact (ensures_erase start keeps.redBlack lists member enough).bind fun _ s' shows' =>
      ⟨rfl, shows', False.elim⟩

omit [DecidableEq ν] in
theorem store_init_shows (mem : Records ν) (data : ν → δ) :
    (Store.init mem data).Shows (Model.init data) :=
  ⟨⟨rfl, trivial, List.nodup_nil⟩, rfl⟩

theorem Store.serveAll_sound (shows : store.Shows model) (keeps : Keeps c model ref)
    {requests : List (Request ν δ κ)} (admitted : ref.AdmitsAll c requests)
    (enough : model.tree.size + requests.length ≤ fuel) :
    ∃ final, store.serveAll c fuel requests = .ok ((model.serveAll c requests).1, final) ∧
      final.Shows (model.serveAll c requests).2 := by
  induction requests generalizing store model ref with
  | nil => exact ⟨store, rfl, shows⟩
  | cons request rest ih =>
    obtain ⟨here, others⟩ := admitted
    rw [List.length_cons] at enough
    have low := ColorTree.height_le_size model.tree
    have grown : (model.serve c request).2.tree.size ≤ model.tree.size + 1 := Model.serve_size_le request
    obtain ⟨result, after, ran, sound⟩ := Store.serve_sound shows keeps here (show _ < fuel by omega)
    obtain ⟨final, rested, shows'⟩ := ih sound.shows (keeps.serve here).2 others (by omega)
    refine ⟨final, ?_, shows'⟩
    simp only [Store.serveAll, ran, bind, Except.bind, rested, sound.result_eq, Model.serveAll]
    rfl

theorem serveAll_init (mem : Records ν) {data : ν → δ} {requests : List (Request ν δ κ)}
    (admitted : (Ref.init data).AdmitsAll c requests) (enough : requests.length ≤ fuel) :
    ∃ final model, (Store.init mem data).serveAll c fuel requests =
        .ok (((Ref.init data).serveAll c requests).1, final) ∧
      model = ((Model.init data).serveAll c requests).2 ∧ final.Shows model ∧
      Keeps c model ((Ref.init data).serveAll c requests).2 ∧ model.tree.size ≤ requests.length := by
  obtain ⟨same, keeps⟩ := (keeps_init (c := c) data).serveAll admitted
  obtain ⟨final, ran, shows⟩ := Store.serveAll_sound (store_init_shows mem data)
    (keeps_init (c := c) data) admitted
    (show _ ≤ fuel by simpa [Model.init, ColorTree.size] using enough)
  have grown := Model.serveAll_size_le (c := c) (Model.init data) requests
  -- Each request adds one node at most, so the number of requests bounds the rounds.
  have empty : (Model.init data).tree.size = 0 := rfl
  simp only [empty, Nat.zero_add] at grown
  exact ⟨final, _, same ▸ ran, rfl, shows, keeps, grown⟩

end

theorem parent_of_child {mem : Records ν} {root : Ptr ν} {t : ColorTree ν}
    (shows : Library.Shows nodeRecord mem root t) {x y : ν} {d : Dir} (member : x ∈ t.toList)
    (child : (mem x).child d = some y) : (mem y).parent = some x := by
  obtain ⟨a, b, listed⟩ := List.append_of_mem member
  obtain ⟨sp, e, l, r, rfl, _⟩ := exists_focus listed
  obtain ⟨_, near, far, same⟩ := ColorTree.exists_join (t := .node e l x r) rfl d
  rw [same] at shows
  rw [shows.node_eq, nodeRecord_near] at child
  obtain ⟨c, l, r, rfl⟩ := ColorTree.exists_join child .left
  rw [shows.near.node_eq, nodeRecord_parent]
  rfl

theorem parent_of_root {mem : Records ν} {root : Ptr ν} {t : ColorTree ν}
    (shows : Library.Shows nodeRecord mem root t) {x : ν} (top : root = some x) : (mem x).parent = none := by
  obtain ⟨c, l, r, rfl⟩ := ColorTree.exists_join (shows.root_eq.symm.trans top) .left
  have here : Library.Shows nodeRecord mem root (plug [] (.join .left c l x r)) := shows
  rw [here.node_eq, nodeRecord_parent]
  rfl

section
variable [LinearOrder κ] [DecidableEq ν] (c : Comparators δ κ)

/-- Every run of requests from an empty root ends in a red-black tree whose
children know their parents. -/
theorem serveAll_isRedBlack (mem : Records ν) (data : ν → δ) (requests : List (Request ν δ κ))
    (admitted : (Ref.init data).AdmitsAll c requests) {fuel : Nat} (enough : requests.length ≤ fuel) :
    ∃ results final tree, (Store.init mem data).serveAll c fuel requests = .ok (results, final) ∧
      Library.Shows nodeRecord final.mem final.root tree ∧
      (∀ x, final.root = some x → (final.mem x).parent = none) ∧
      (∀ x ∈ tree.toList, ∀ d y, (final.mem x).child d = some y → (final.mem y).parent = some x) ∧
      IsRedBlack tree := by
  obtain ⟨final, model, ran, _, shows, keeps, _⟩ := serveAll_init mem admitted enough
  exact ⟨_, final, model.tree, ran, shows.tree, fun x top => parent_of_root shows.tree top,
    fun x member d y child => parent_of_child shows.tree member child, keeps.redBlack⟩

theorem serveAll_isRedBlack_recycle :
    ∃ results final tree,
      (Store.init (fun _ => ⟨none, .red, none, none⟩) fun _ => 0).serveAll aNode 6 recycle =
        .ok (results, final) ∧
      Library.Shows nodeRecord final.mem final.root tree ∧
      (∀ x, final.root = some x → (final.mem x).parent = none) ∧
      (∀ x ∈ tree.toList, ∀ d y, (final.mem x).child d = some y → (final.mem y).parent = some x) ∧
      IsRedBlack tree :=
  serveAll_isRedBlack aNode _ _ _ recycle_admitted (by decide)

/-- The store holds the map: its links spell out a tree that lists the stored
nodes in key order. -/
def Store.Represents (store : Store ν δ) (ref : Ref ν δ κ) : Prop :=
  store.data = ref.data ∧ ∃ tree, Library.Shows nodeRecord store.mem store.root tree ∧
    Lists (fun x => c.keyOf (store.data x)) ref.map tree.toList

/-- No link of the root or of a stored node leads to `x`. -/
def Store.Free (store : Store ν δ) (ref : Ref ν δ κ) (x : ν) : Prop :=
  store.root ≠ some x ∧ ∀ k y, ref.map k = some y →
    (store.mem y).left ≠ some x ∧ (store.mem y).right ≠ some x ∧ (store.mem y).parent ≠ some x

/-- What a request leaves alone: every word, unless it stores or removes a node;
a removed node is free. -/
def Effect (ref : Ref ν δ κ) (before after : Store ν δ) : Request ν δ κ → Prop
  | .call (.insert _ content) =>
    ref.map (c.keyOf content) ≠ none → after.mem = before.mem ∧ after.root = before.root
  | .call (.find _) => after = before
  | .call (.remove key) => match ref.map key with
    | none => after = before
    | some x => after.Free (ref.call c (.remove key)).2 x
  | .erase x => after.Free (ref.serve c (.erase x)).2 x

omit [DecidableEq ν] in
theorem Store.Shows.represents {store : Store ν δ} {model : Model ν δ} {ref : Ref ν δ κ}
    (shows : store.Shows model) (keeps : Keeps c model ref) : store.Represents c ref :=
  ⟨shows.data_eq.trans keeps.data_eq, model.tree, shows.tree, by
    rw [shows.data_eq, keeps.data_eq]; exact keeps.lists⟩

omit [DecidableEq ν] in
theorem Store.Shows.free {store : Store ν δ} {model : Model ν δ} {ref : Ref ν δ κ} {x : ν}
    (shows : store.Shows model) (keeps : Keeps c model ref) (gone : x ∉ model.tree.toList) :
    store.Free ref x := by
  refine ⟨fun root => gone (ColorTree.root_mem (shows.tree.root_eq.symm.trans root)), ?_⟩
  intro k y entry
  have member := ((keeps.lists.entries k y).mp entry).1
  obtain ⟨p, e, left, right, record, parents, lefts, rights⟩ := shows.tree.holds.links member
  rw [record]
  refine ⟨fun same => gone (lefts x same), fun same => gone (rights x same), fun same => ?_⟩
  exact (parents x same).elim nofun gone

theorem Sound.effect {store after : Store ν δ} {model : Model ν δ} {ref : Ref ν δ κ}
    {request : Request ν δ κ} {result : Ptr ν} (sound : Sound c store model ref request result after)
    (shows : store.Shows model) (keeps : Keeps c model ref) (admitted : ref.Admits c request) :
    Effect c ref store after request := by
  have keeps' := (keeps.serve admitted).2
  have shown := sound.shows
  rcases request with (⟨node, content⟩ | key | key) | x
  · exact sound.unchanged
  · obtain ⟨mem, root⟩ := sound.unchanged trivial
    exact Store.ext mem root (shown.data_eq.trans shows.data_eq.symm)
  · cases stored : ref.map key with
    | none =>
      obtain ⟨mem, root⟩ := sound.unchanged stored
      simp only [Effect, stored]
      exact Store.ext mem root (shown.data_eq.trans shows.data_eq.symm)
    | some x =>
      simp only [Effect, stored]
      exact shown.free c keeps' (keeps.removed_not_mem stored)
  · apply shown.free c keeps'
    simp only [Model.serve, eraseCall, keeps.data_eq]
    exact keeps.removed_not_mem admitted

/-- After any run from an empty root the tree is the ordered map of the stored
nodes, and the next request does to it what it does to the map. -/
theorem serveAll_represents (mem : Records ν) (data : ν → δ) (requests : List (Request ν δ κ))
    (request : Request ν δ κ) (admitted : (Ref.init data).AdmitsAll c (requests ++ [request])) {fuel : Nat}
    (enough : requests.length < fuel) :
    let ref := (Ref.init data).serveAll c requests
    ∃ store result after, (Store.init mem data).serveAll c fuel requests = .ok (ref.1, store) ∧
      store.Represents c ref.2 ∧ store.serve c fuel request = .ok (result, after) ∧
      result = (ref.2.serve c request).1 ∧ after.Represents c (ref.2.serve c request).2 ∧
      Effect c ref.2 store after request := by
  intro ref
  obtain ⟨before, admitted⟩ := Ref.admitsAll_append.mp admitted
  obtain ⟨store, model, ran, _, shows, keeps, small⟩ := serveAll_init mem before (show _ ≤ fuel by omega)
  have low := ColorTree.height_le_size model.tree
  obtain ⟨result, after, served, sound⟩ := Store.serve_sound shows keeps admitted (show _ < fuel by omega)
  obtain ⟨answer, keeps'⟩ := keeps.serve admitted
  exact ⟨store, result, after, ran, shows.represents c keeps, served, sound.result_eq.trans answer,
    sound.shows.represents c keeps', sound.effect c shows keeps admitted⟩

theorem serveAll_represents_recycle :
    let ref := (Ref.init fun _ => 0).serveAll aNode (reuse.map .call)
    ∃ store result after,
      (Store.init (fun _ => ⟨none, .red, none, none⟩) fun _ => 0).serveAll aNode 6 (reuse.map .call) =
        .ok (ref.1, store) ∧
      store.Represents aNode ref.2 ∧ store.serve aNode 6 (.erase 1) = .ok (result, after) ∧
      result = (ref.2.serve aNode (.erase 1)).1 ∧ after.Represents aNode (ref.2.serve aNode (.erase 1)).2 ∧
      Effect aNode ref.2 store after (.erase 1) :=
  serveAll_represents aNode _ _ (reuse.map .call) (.erase 1) recycle_admitted (by decide)

end

end Embedlib.Rbtree
