import Embedlib.Rbtree.Iteration
import Embedlib.RbtreeCompact.TaggedRuns
import Embedlib.Rbtree.Tagged

/-! Runs on raw words are in lock step with runs on records, whatever the words
of a node held before it was inserted. -/

set_option autoImplicit false

namespace Embedlib.Rbtree.Tagged

open Library Rb Spine
open RbtreeCompact (Layout colorBit exists_layout packed)

variable {ν δ κ : Type} {w : Nat} {layout : Layout ν w}

section
variable [DecidableEq ν] {xs : List ν} {s : State layout} {t : ColorTree ν} {side : ν → Option Dir} {node : ν}
  {fuel : Nat}

theorem tracks_insert_absent {cmp : ν → ν → Int} (compares : ∀ y, sideOf (cmp node y) = side y)
    (shows : s.records.Shows t) (enough : t.height < fuel) (absent : t.search side = none) (exact : ExactOn xs s) :
    Tracks State.records (rbInsert cmp fuel node) (Rbtree.rbInsert cmp fuel node)
      (fun _ s' => ExactOn (node :: xs) s') s := by
  apply Tracks.bind_get
  have root : s.root = t.root := shows.root_eq
  have same : s.records.root = t.root := root
  simp only [root, same]
  obtain _ | ⟨c, l, y, r⟩ := t
  · exact (agrees_setRoot _ s exact).bind fun _ s' exact' => tracks_rbInsertNew exact' fuel none node
  · have searched : Ensures (loop (Rbtree.rbInsertRound cmp node) fuel y)
        (fun turn _ => ∃ found, turn = .inr found) s.records := by
      have whole : s.records.Shows (plug [] (.node c l y r)) := shows
      refine ensures_insertSearch compares whole (by omega) rfl ?_ ?_
      · intro z found
        cases absent.symm.trans found
      · intro f _ _
        exact ⟨_, rfl⟩
    apply ((simulates_loop (agrees_rbInsertRound cmp node) fuel y s exact).and_ensures searched).bind
    rintro _ s₁ ⟨exact₁, ⟨parent, d⟩, rfl⟩
    exact (agrees_rbSetChild (some parent) d (some node) s₁ exact₁).bind fun _ s₂ exact₂ =>
      tracks_rbInsertNew exact₂ fuel (some parent) node

theorem tracks_rbRemoveKey {keyCmp : κ → ν → Int} {key : κ} (compares : ∀ x, sideOf (keyCmp key x) = side x)
    (shows : s.records.Shows t) (enough : t.height < fuel) (exact : ExactOn t.toList s) :
    Tracks State.records (rbRemoveKey keyCmp fuel key) (Rbtree.rbRemoveKey keyCmp fuel key)
      (fun _ s' => ExactOn t.toList s') s := by
  have found : Ensures (Rbtree.rbFind keyCmp fuel key) (fun p _ => p = t.search side) s.records :=
    ensures_rbFind compares shows enough rfl
  apply ((agrees_rbFind keyCmp fuel key s exact).and_ensures found).bind
  rintro _ s₁ ⟨exact₁, rfl⟩
  cases met : t.search side with
  | none => exact tracks_pure exact₁
  | some x =>
    obtain ⟨c, l, r, _, whole⟩ := ColorTree.search_some met
    -- The node that is found is in the tree, so its words are exact.
    have member : x ∈ t.toList := by
      rw [← whole, mem_plug]
      simp [ColorTree.toList]
    exact Tracks.bind (agrees_rbRemove fuel member s₁ exact₁) fun _ _ kept => tracks_pure kept

end

structure Store (layout : Layout ν w) (δ : Type) where
  mem : ν → RawNode ν w
  root : Ptr ν
  data : ν → δ

/-- `RB_ROOT_INIT` -/
def Store.init (mem : ν → RawNode ν w) (data : ν → δ) : Store layout δ := ⟨mem, none, data⟩

def Store.state (store : Store layout δ) : State layout := ⟨store.mem, store.root⟩

def Store.perform {α : Type} (store : Store layout δ) (program : Program (State layout) α) :
    Except Fault (α × Store layout δ) :=
  match program store.state with
  | .ok (result, s) => .ok (result, ⟨s.mem, s.root, store.data⟩)
  | .error why => .error why

/-- A request, and what is written from outside into the words of nodes before it. -/
structure Visit (ν δ κ : Type) (w : Nat) where
  noise : ν → Option (RawNode ν w)
  request : Request ν δ κ

def scribble (mem : ν → RawNode ν w) (noise : ν → Option (RawNode ν w)) : ν → RawNode ν w :=
  fun x => (noise x).getD (mem x)

section
variable [DecidableEq ν] [LinearOrder κ] (c : Comparators δ κ) (fuel : Nat)

def Store.serve (store : Store layout δ) : Request ν δ κ → Except Fault (Ptr ν × Store layout δ)
  | .call (.insert node content) =>
    let data := Function.update store.data node content
    Store.perform { store with data := data } (rbInsert (fun a b => c.cmp (data a) (data b)) fuel node)
  | .call (.find key) => store.perform (rbFind (fun k b => c.keyCmp k (store.data b)) fuel key)
  | .call (.remove key) => store.perform (rbRemoveKey (fun k b => c.keyCmp k (store.data b)) fuel key)
  | .erase node => store.perform do
    rbRemove fuel (some node)
    return none

def Store.serveAll (store : Store layout δ) :
    List (Visit ν δ κ w) → Except Fault (List (Ptr ν) × Store layout δ)
  | [] => return ([], store)
  | visit :: rest => do
    let (result, store) ← Store.serve c fuel (⟨scribble store.mem visit.noise, store.root, store.data⟩ : Store layout δ)
      visit.request
    let (results, final) ← store.serveAll rest
    return (result :: results, final)

/-- The words of a node are left alone while it is stored. -/
def Spares (ref : Ref ν δ κ) : List (Visit ν δ κ w) → Prop
  | [] => True
  | visit :: rest => (∀ key x, ref.map key = some x → visit.noise x = none) ∧
      Spares (ref.serve c visit.request).2 rest

end

def Store.records (store : Store layout δ) : Rbtree.Store ν δ :=
  ⟨store.state.records.mem, store.root, store.data⟩

/-- The words of the stored nodes hold the tree of the model and nothing else. -/
structure Store.Holds (store : Store layout δ) (model : Model ν δ) : Prop where
  shows : store.records.Shows model
  exact : ExactOn model.tree.toList store.state

section
variable [DecidableEq ν] [LinearOrder κ] {c : Comparators δ κ} {store : Store layout δ} {model : Model ν δ}
  {ref : Ref ν δ κ} {fuel : Nat}

theorem holds_of_tracks {request : Request ν δ κ} {data : ν → δ} {xs : List ν} {raw : Program (State layout) (Ptr ν)}
    {record : Program (Rbtree.State ν) (Ptr ν)} {result : Ptr ν} {after : Rbtree.Store ν δ}
    (sound : Sound c store.records model ref request result after)
    (ran : Rbtree.Store.perform { store.records with data := data } record = .ok (result, after))
    (tracks : Tracks State.records raw record (fun _ s' => ExactOn xs s') store.state)
    (inside : ∀ x ∈ (model.serve c request).2.tree.toList, x ∈ xs) :
    ∃ after, Store.perform { store with data := data } raw = .ok ((model.serve c request).1, after) ∧
      after.Holds (model.serve c request).2 := by
  unfold Rbtree.Store.perform at ran
  split at ran
  · rename_i p s ended
    obtain ⟨s', ended', rfl, exact⟩ := tracks p s ended
    cases ran
    refine ⟨⟨s'.mem, s'.root, data⟩, ?_, ⟨sound.shows, fun x member => exact x (inside x member)⟩⟩
    have here : Store.state { store with data := data } = store.state := rfl
    rw [Store.perform, here, ended', ← sound.result_eq]
  · cases ran

theorem Store.Holds.serve (holds : store.Holds model) (keeps : Keeps c model ref) {request : Request ν δ κ}
    (admitted : ref.Admits c request) (enough : model.tree.height < fuel) :
    ∃ after, store.serve c fuel request = .ok ((model.serve c request).1, after) ∧
      after.Holds (model.serve c request).2 := by
  obtain ⟨result, after, ran, sound⟩ := Rbtree.Store.serve_sound holds.shows keeps admitted enough
  have dataEq : store.data = model.data := holds.shows.data_eq
  have start : store.state.records.Shows model.tree := holds.shows.tree
  rcases request with (⟨node, content⟩ | key | key) | node
  · cases met : model.tree.search (side c (Function.update model.data node content) (c.keyOf content)) with
    | some y =>
      apply holds_of_tracks sound ran (agrees_rbInsert _ fuel node store.state holds.exact)
      intro x member
      simpa only [Model.serve, Model.call, ColorTree.insert_present met] using member
    | none =>
      have compares := c.side_insert dataEq node content
      exact holds_of_tracks sound ran (tracks_insert_absent compares start enough met holds.exact)
        fun x member => ColorTree.mem_of_insert met member
  · exact holds_of_tracks sound ran (agrees_rbFind _ fuel key store.state holds.exact) fun x member => member
  · have compares := c.side_key dataEq key
    exact holds_of_tracks sound ran (tracks_rbRemoveKey compares start enough holds.exact)
      fun x member => ColorTree.mem_of_remove member
  · have member : node ∈ model.tree.toList := keeps.lists.mem_iff.mpr admitted
    have erased : Agrees layout model.tree.toList (do
        rbRemove fuel (some node)
        return none) (do
        Rbtree.rbRemove fuel (some node)
        return none) := (agrees_rbRemove fuel member).bind fun _ => simulates_pure (none : Ptr ν)
    exact holds_of_tracks sound ran (erased store.state holds.exact) fun x inside => ColorTree.mem_of_remove inside

omit [DecidableEq ν] [LinearOrder κ] in
theorem Store.Holds.scribble (holds : store.Holds model) {noise : ν → Option (RawNode ν w)}
    (spared : ∀ x ∈ model.tree.toList, noise x = none) :
    Store.Holds (⟨scribble store.mem noise, store.root, store.data⟩ : Store layout δ) model := by
  have same : ∀ x ∈ model.tree.toList, Tagged.scribble store.mem noise x = store.mem x := fun x member => by
    rw [Tagged.scribble, spared x member]
    rfl
  obtain ⟨⟨⟨root, links, distinct⟩, data⟩, exact⟩ := holds
  refine ⟨⟨⟨root, links.congr fun x member => ?_, distinct⟩, data⟩, fun x member => ?_⟩
  · exact congrArg (view layout) (same x member)
  · show Exact layout (Tagged.scribble store.mem noise x)
    rw [same x member]
    exact exact x member

theorem Store.Holds.serveAll (holds : store.Holds model) (keeps : Keeps c model ref) {visits : List (Visit ν δ κ w)}
    (admitted : ref.AdmitsAll c (visits.map Visit.request)) (spares : Spares c ref visits)
    (enough : model.tree.size + visits.length ≤ fuel) :
    ∃ final, store.serveAll c fuel visits = .ok ((model.serveAll c (visits.map Visit.request)).1, final) ∧
      final.Holds (model.serveAll c (visits.map Visit.request)).2 := by
  induction visits generalizing store model ref with
  | nil => exact ⟨store, rfl, holds⟩
  | cons visit rest ih =>
    obtain ⟨here, others⟩ := admitted
    obtain ⟨spared, spares'⟩ := spares
    rw [List.length_cons] at enough
    have low := ColorTree.height_le_size model.tree
    have grown : (model.serve c visit.request).2.tree.size ≤ model.tree.size + 1 := Model.serve_size_le visit.request
    have quiet : ∀ x ∈ model.tree.toList, visit.noise x = none := fun x member =>
      spared _ x (keeps.lists.mem_iff.mp member)
    obtain ⟨after, ran, holds'⟩ := (holds.scribble quiet).serve keeps here (show _ < fuel by omega)
    obtain ⟨final, rested, held⟩ := ih holds' (keeps.serve here).2 others spares' (by omega)
    refine ⟨final, ?_, held⟩
    simp only [Store.serveAll, ran, bind, Except.bind, rested, List.map_cons, Model.serveAll]
    rfl

omit [DecidableEq ν] in
theorem looks_alike {raw : Program (State layout) (Ptr ν)} {record : Program (Rbtree.State ν) (Ptr ν)}
    {xs : List ν} (agrees : Agrees layout xs raw record) (exact : ExactOn xs store.state) {p : Ptr ν}
    (ensured : Ensures record (fun q _ => q = p) store.state.records) :
    (raw store.state).map Prod.fst = .ok p := by
  obtain ⟨_, s, ran, rfl⟩ := ensured.result
  obtain ⟨s', ran', _, _⟩ := agrees store.state exact _ s ran
  rw [ran']
  rfl

omit [DecidableEq ν] [LinearOrder κ] in
theorem ensured_eq {record : Program (Rbtree.State ν) (Ptr ν)} {s : Rbtree.State ν} {p : Ptr ν}
    (ensured : Ensures record (fun q _ => q = p) s) : (record s).map Prod.fst = .ok p := by
  obtain ⟨_, s', ran, rfl⟩ := ensured.result
  rw [ran]
  rfl

section
variable {t : ColorTree ν} (low : t.height < fuel)

include low

omit [DecidableEq ν] in
/-- The tree alone determines where a walk ends. -/
theorem rbIter_settled (d : Dir) :
    ∃ p, ∀ s : Rbtree.State ν, s.Shows t → Ensures (Rbtree.rbIter fuel d) (fun q _ => q = p) s := by
  refine ⟨(t.sweep d.flip).head?, fun s shown => ?_⟩
  have flipped : Ensures (Rbtree.rbIter fuel d.flip.flip) (fun q _ => q = (t.sweep d.flip).head?) s :=
    ensures_rbIter shown (Nat.le_of_lt low) rfl
  rwa [Dir.flip_flip] at flipped

theorem rbIterNext_settled {x : ν} (member : x ∈ t.toList) (d : Dir) :
    ∃ p, ∀ s : Rbtree.State ν, s.Shows t → Ensures (Rbtree.rbIterNext fuel (some x) d) (fun q _ => q = p) s := by
  obtain ⟨a, b, listed⟩ := List.append_of_mem member
  obtain ⟨sp, e, l, r, rfl, focus⟩ := exists_focus listed
  cases d with
  | right => exact ⟨_, fun s shown => ensures_rbIterNext shown focus low rfl⟩
  | left => exact ⟨_, fun s shown => ensures_rbIterNext shown focus.flip low rfl⟩

end

variable (c)

/-- For every assignment of addresses, runs on words that hold a parent and a colour
are in lock step with runs on records, and so are the walks over their trees. -/
theorem parent_words_lock_step {address : ν → BitVec w} (distinct : Function.Injective address)
    (nonzero : ∀ x, address x ≠ 0#w) (even : ∀ x, address x &&& 1#w = 0#w) :
    (∃ layout : Layout ν w, layout.address = address) ∧
    ∀ layout : Layout ν w, layout.address = address →
      ∀ (words : ν → RawNode ν w) (mem : Records ν) (data : ν → δ) (visits : List (Visit ν δ κ w)) (fuel : Nat),
        (Ref.init data).AdmitsAll c (visits.map Visit.request) → Spares c (Ref.init data) visits →
        visits.length < fuel →
        ∃ results, ∃ raw : Store layout δ, ∃ store : Rbtree.Store ν δ, ∃ tree,
          (Store.init words data).serveAll c fuel visits = .ok (results, raw) ∧
          (Rbtree.Store.init mem data).serveAll c fuel (visits.map Visit.request) = .ok (results, store) ∧
          Library.Shows nodeRecord store.mem store.root tree ∧ raw.root = store.root ∧
          (∀ x ∈ tree.toList,
            (raw.mem x).parentColor = layout.word (store.mem x).parent ||| colorBit w (store.mem x).color ∧
            (raw.mem x).left = (store.mem x).left ∧ (raw.mem x).right = (store.mem x).right) ∧
          ∀ d, (∃ p, (rbIter fuel d raw.state).map Prod.fst = .ok p ∧
              (Rbtree.rbIter fuel d ⟨store.mem, store.root⟩).map Prod.fst = .ok p) ∧
            ∀ x ∈ tree.toList, ∃ p, (rbIterNext fuel (some x) d raw.state).map Prod.fst = .ok p ∧
              (Rbtree.rbIterNext fuel (some x) d ⟨store.mem, store.root⟩).map Prod.fst = .ok p := by
  refine ⟨exists_layout distinct nonzero even, ?_⟩
  intro layout _ words mem data visits fuel admitted spares enough
  have begun : (Store.init words data : Store layout δ).Holds (Model.init data) :=
    ⟨⟨⟨rfl, trivial, List.nodup_nil⟩, rfl⟩, nofun⟩
  obtain ⟨raw, ranRaw, holds⟩ := begun.serveAll (keeps_init (c := c) data) admitted spares
    (show _ ≤ fuel by simpa [Model.init, ColorTree.size] using Nat.le_of_lt enough)
  obtain ⟨store, model, ran, rfl, shows, _, small⟩ := serveAll_init mem admitted
    (show _ ≤ fuel by simpa using Nat.le_of_lt enough)
  have answers := ((keeps_init (c := c) data).serveAll admitted).1
  rw [answers] at ranRaw
  rw [List.length_map] at small
  have low : ((Model.init data).serveAll c (visits.map Visit.request)).2.tree.height < fuel :=
    Nat.lt_of_le_of_lt (Nat.le_trans (ColorTree.height_le_size _) small) enough
  refine ⟨_, raw, store, _, ranRaw, ran, shows.tree, holds.shows.tree.root_eq.trans shows.tree.root_eq.symm,
    fun x member => ?_, fun d => ⟨?_, fun x member => ?_⟩⟩
  · -- Two heaps that hold one tree agree on the records of its nodes.
    have records : view layout (raw.mem x) = store.mem x := shows.tree.holds.unique holds.shows.tree.holds x member
    have exact : (raw.mem x).parentColor = layout.word (view layout (raw.mem x)).parent |||
      colorBit w (view layout (raw.mem x)).color := holds.exact x member
    rw [records] at exact
    exact ⟨exact, congrArg RbNode.left records, congrArg RbNode.right records⟩
  · obtain ⟨p, looks⟩ := rbIter_settled low d
    exact ⟨p, looks_alike (agrees_rbIter fuel d) holds.exact (looks _ holds.shows.tree),
      ensured_eq (looks _ shows.tree)⟩
  · obtain ⟨p, looks⟩ := rbIterNext_settled low member d
    exact ⟨p, looks_alike (agrees_rbIterNext fuel (some x) d) holds.exact (looks _ holds.shows.tree),
      ensured_eq (looks _ shows.tree)⟩

end

/-- A node is taken out directly and inserted again after its words were overwritten;
it ends as the child of the other one. -/
def overwritten : List (Visit (Fin 4) Int Int 16) :=
  let one : Fin 4 := ⟨1, by decide⟩
  let two : Fin 4 := ⟨2, by decide⟩
  [⟨fun _ => none, .call (.insert one 10)⟩, ⟨fun _ => none, .call (.insert two 20)⟩, ⟨fun _ => none, .erase one⟩,
    ⟨fun x => if x = one then some ⟨0xffff#16, some two, some one⟩ else none, .call (.insert one 30)⟩,
    ⟨fun _ => none, .call (.find 20)⟩]

theorem parent_words_lock_step_packed :
    ∃ results, ∃ raw : Store packed Int, ∃ store : Rbtree.Store (Fin 4) Int, ∃ tree,
      (Store.init (fun _ => ⟨0x1235#16, none, some 2⟩) fun _ => 0).serveAll aNode 6 overwritten =
        .ok (results, raw) ∧
      (Rbtree.Store.init (fun _ => ⟨none, .red, none, none⟩) fun _ => 0).serveAll aNode 6
        (overwritten.map Visit.request) = .ok (results, store) ∧
      Library.Shows nodeRecord store.mem store.root tree ∧ raw.root = store.root ∧
      (∀ x ∈ tree.toList,
        (raw.mem x).parentColor = packed.word (store.mem x).parent ||| colorBit 16 (store.mem x).color ∧
        (raw.mem x).left = (store.mem x).left ∧ (raw.mem x).right = (store.mem x).right) ∧
      ∀ d, (∃ p, (rbIter 6 d raw.state).map Prod.fst = .ok p ∧
          (Rbtree.rbIter 6 d ⟨store.mem, store.root⟩).map Prod.fst = .ok p) ∧
        ∀ x ∈ tree.toList, ∃ p, (rbIterNext 6 (some x) d raw.state).map Prod.fst = .ok p ∧
          (Rbtree.rbIterNext 6 (some x) d ⟨store.mem, store.root⟩).map Prod.fst = .ok p :=
  (parent_words_lock_step aNode packed.address_injective packed.address_ne_zero packed.even).2 packed rfl
    _ _ _ overwritten 6
    (by
      simp [overwritten, Ref.AdmitsAll, Ref.Admits, Ref.Allows, Ref.serve, eraseCall, Ref.call, Ref.init, aNode,
        Function.update_apply]
      grind)
    (by
      simp [overwritten, Spares, Ref.serve, eraseCall, Ref.call, Ref.init, aNode, Function.update_apply]
      grind)
    (by decide)

end Embedlib.Rbtree.Tagged
