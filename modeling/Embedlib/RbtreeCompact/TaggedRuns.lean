import Embedlib.RbtreeCompact.Tagged
import Embedlib.RbtreeCompact.Runs

/-! Runs on raw words are in lock step with runs on records, whatever the words
of a node held before it was inserted. -/

set_option autoImplicit false

namespace Embedlib.RbtreeCompact

open Library Rb Spine

variable {ν δ κ : Type} {w : Nat} {layout : Layout ν w}

section
variable [DecidableEq ν] {xs : List ν} {s : State (Words layout) ν} {t : ColorTree ν} {side : ν → Option Dir}
  {node : ν} {fuel : Nat}

theorem tracks_insert_absent {cmp : ν → ν → Int} {top : Nat} (compares : ∀ y, sideOf (cmp node y) = side y)
    (shows : s.records.Shows t) (within : s.records.Within top) (room : t.height ≤ top) (enough : t.height < fuel)
    (absent : (descend side [] t).2.root = none) (exact : ExactOn xs s) :
    Tracks State.records (rbInsert cmp fuel node) (rbInsert cmp fuel node)
      (fun _ s' => ExactOn (node :: xs) s') s := by
  have begun : Ensures rbPathInit (fun _ s' => s'.Shows t ∧ s'.At [] ∧ s'.Within top) s.records :=
    ensures_rbPathInit fun s' mem root place written => ⟨shows.same_heap mem root, place, within.init written⟩
  apply ((agrees_rbPathInit s exact).and_ensures begun).bind
  rintro _ s₁ ⟨exact₁, shows₁, place₁, within₁⟩
  apply Tracks.bind_get
  have whole : s₁.records.Shows (plug [] t) := shows₁
  have root : s₁.root = t.root := shows₁.root_eq
  have same : s₁.records.root = t.root := root
  simp only [root, same]
  obtain _ | ⟨c, l, y, r⟩ := t
  · exact (agrees_setRoot _ s₁ exact₁).bind fun _ s₂ exact₂ => tracks_rbInsertNew exact₂
  · have searched : Ensures (loop (rbInsertRound cmp node) fuel y) (fun turn _ => ∃ d, turn = .inr d) s₁.records := by
      refine ensures_insertSearch compares whole place₁ within₁ (by simpa using room) (by omega) rfl ?_ ?_
      · intro _ z _ _ _ found
        cases absent.symm.trans found
      · intro _ f _ _ _ _ _ _
        exact ⟨f.dir, rfl⟩
    apply ((simulates_loop (agrees_rbInsertRound cmp node) fuel y s₁ exact₁).and_ensures searched).bind
    rintro _ s₂ ⟨exact₂, d, rfl⟩
    exact (agrees_entryAt 0 s₂ exact₂).bind fun entry s₃ exact₃ =>
      (agrees_rbSetChild _ _ _ s₃ exact₃).bind fun _ s₄ exact₄ => tracks_rbInsertNew exact₄

theorem tracks_rbRemoveKey {keyCmp : κ → ν → Int} {key : κ} {top : Nat}
    (compares : ∀ x, sideOf (keyCmp key x) = side x) (shows : s.records.Shows t)
    (within : s.records.Within top) (room : t.height ≤ top) (enough : t.height < fuel)
    (exact : ExactOn t.toList s) :
    Tracks State.records (rbRemoveKey keyCmp fuel key) (rbRemoveKey keyCmp fuel key)
      (fun _ s' => ExactOn t.toList s') s := by
  have found : Ensures (rbFind keyCmp fuel key) (fun p _ => p = t.search side) s.records :=
    ensures_rbFind compares shows within room enough fun _ _ _ _ _ _ => rfl
  apply ((agrees_rbFind keyCmp fuel key s exact).and_ensures found).bind
  rintro _ s₁ ⟨exact₁, rfl⟩
  cases met : t.search side with
  | none => exact tracks_pure exact₁
  | some x =>
    obtain ⟨c, l, r, _, whole⟩ := ColorTree.search_some met
    have member : x ∈ t.toList := by
      rw [← whole, mem_plug]
      simp [ColorTree.toList]
    exact Tracks.bind (agrees_rbRemove fuel member s₁ exact₁) fun _ _ kept => tracks_pure kept

end

section
variable [LinearOrder κ] [DecidableEq ν] {c : Comparators δ κ} {store : Store (Words layout) ν δ}
  {model : Model ν δ} {ref : Ref ν δ κ} {fuel : Nat}

def Store.records (store : Store (Words layout) ν δ) : Store (Records ν) ν δ :=
  ⟨store.mem.records, store.root, store.data⟩

/-- The words of the stored nodes hold the tree of the model and nothing else. -/
structure Store.Holds (store : Store (Words layout) ν δ) (model : Model ν δ) : Prop where
  shows : store.records.Shows model
  exact : ∀ x ∈ model.tree.toList, store.mem.Exact x

omit [DecidableEq ν] in
theorem Store.perform_tracks (store : Store (Words layout) ν δ) {rp : RbPath ν} {raw : Program (State (Words layout) ν) (Ptr ν)}
    {record : Program (State (Records ν) ν) (Ptr ν)} {post : Ptr ν → State (Words layout) ν → Prop}
    {outcome : Outcome (Records ν) ν δ}
    (tracks : Tracks State.records raw record post ⟨store.mem, store.root, rp, []⟩)
    (ran : store.records.perform rp record = .ok outcome) :
    ∃ outcome', store.perform rp raw = .ok outcome' ∧ outcome'.result = outcome.result ∧
      outcome'.store.records = outcome.store ∧
      ∃ s, post outcome.result s ∧ s.mem = outcome'.store.mem := by
  unfold Store.perform at ran
  split at ran
  · rename_i result s ended
    obtain ⟨s', ended', rfl, holds⟩ := tracks result s ended
    cases ran
    exact ⟨⟨result, ⟨s'.mem, s'.root, store.data⟩, s'.written⟩, by rw [Store.perform, ended'], rfl, rfl,
      s', holds, rfl⟩
  · cases ran

theorem holds_of_tracks {call : Call ν δ κ} {data : ν → δ} {rp : RbPath ν} {xs : List ν}
    {raw : Program (State (Words layout) ν) (Ptr ν)} {record : Program (State (Records ν) ν) (Ptr ν)}
    {outcome : Outcome (Records ν) ν δ} (sound : outcome.Sound c store.records model ref call)
    (ran : Store.perform { store.records with data := data } rp record = .ok outcome)
    (tracks : Tracks State.records raw record (fun _ s' => ExactOn xs s') ⟨store.mem, store.root, rp, []⟩)
    (inside : ∀ x ∈ (model.call c call).2.tree.toList, x ∈ xs) :
    ∃ outcome, Store.perform { store with data := data } rp raw = .ok outcome ∧
      outcome.result = (model.call c call).1 ∧ outcome.store.Holds (model.call c call).2 := by
  obtain ⟨outcome', ran', same, records, s, exact, mem⟩ :=
    Store.perform_tracks { store with data := data } tracks ran
  refine ⟨outcome', ran', same.trans sound.result_eq, records ▸ sound.shows, fun x member => ?_⟩
  rw [← mem]
  exact exact x (inside x member)

theorem Store.Holds.call (holds : store.Holds model) (keeps : Keeps c model ref) {call : Call ν δ κ}
    (allowed : ref.Allows c call) (enough : model.tree.height < fuel) (rp : RbPath ν) :
    ∃ outcome, store.call c fuel rp call = .ok outcome ∧ outcome.result = (model.call c call).1 ∧
      outcome.store.Holds (model.call c call).2 := by
  obtain ⟨outcome, ran, sound⟩ := Store.call_sound holds.shows keeps allowed enough rp
  have dataEq : store.data = model.data := holds.shows.data_eq
  have start : (State.records ⟨store.mem, store.root, rp, []⟩).Shows model.tree := holds.shows.tree
  have within : (State.records ⟨store.mem, store.root, rp, []⟩).Within model.tree.height := by
    simp [State.Within, State.records]
  cases call with
  | insert node content =>
    cases met : model.tree.search (side c (Function.update model.data node content) (c.keyOf content)) with
    | some y =>
      apply holds_of_tracks sound ran (agrees_rbInsert _ fuel node _ holds.exact)
      intro x member
      simpa only [Model.call, ColorTree.insert_present met] using member
    | none =>
      have compares := c.side_insert dataEq node content
      exact holds_of_tracks sound ran (tracks_insert_absent compares start within (Nat.le_refl _) enough met
        holds.exact) fun x member => ColorTree.mem_of_insert met member
  | find key => exact holds_of_tracks sound ran (agrees_rbFind _ fuel key _ holds.exact) fun x member => member
  | remove key =>
    have compares := c.side_key dataEq key
    exact holds_of_tracks sound ran (tracks_rbRemoveKey compares start within (Nat.le_refl _) enough
      holds.exact) fun x member => ColorTree.mem_of_remove member

/-- A call, and what is written from outside into the words of nodes before it. -/
structure Visit (ν δ κ : Type) (w : Nat) where
  noise : ν → Option (RawNode w)
  rp : RbPath ν
  call : Call ν δ κ

def Words.scribble (mem : Words layout) (noise : ν → Option (RawNode w)) : Words layout :=
  fun x => (noise x).getD (mem x)

def Store.runWords (c : Comparators δ κ) (fuel : Nat) (store : Store (Words layout) ν δ) :
    List (Visit ν δ κ w) → Except Fault (List (Ptr ν) × Store (Words layout) ν δ)
  | [] => return ([], store)
  | visit :: rest => do
    let outcome ← Store.call c fuel { store with mem := store.mem.scribble visit.noise } visit.rp visit.call
    let (results, final) ← outcome.store.runWords c fuel rest
    return (outcome.result :: results, final)

/-- The words of a node are left alone while it is stored. -/
def Spares (c : Comparators δ κ) (ref : Ref ν δ κ) : List (Visit ν δ κ w) → Prop
  | [] => True
  | visit :: rest => (∀ key x, ref.map key = some x → visit.noise x = none) ∧
      Spares c (ref.call c visit.call).2 rest

omit [LinearOrder κ] [DecidableEq ν] in
theorem Store.Holds.scribble (holds : store.Holds model) {noise : ν → Option (RawNode w)}
    (spared : ∀ x ∈ model.tree.toList, noise x = none) :
    Store.Holds { store with mem := store.mem.scribble noise } model := by
  have same : ∀ x ∈ model.tree.toList, store.mem.scribble noise x = store.mem x := fun x member => by
    rw [Words.scribble, spared x member]
    rfl
  obtain ⟨⟨⟨root, links, distinct⟩, data⟩, exact⟩ := holds
  refine ⟨⟨⟨root, links.congr fun x member => ?_, distinct⟩, data⟩, fun x member => ?_⟩
  · exact congrArg layout.view (same x member)
  · show layout.Encodes (store.mem.scribble noise x) (layout.view (store.mem.scribble noise x))
    rw [same x member]
    exact exact x member

theorem Store.Holds.runWords (holds : store.Holds model) (keeps : Keeps c model ref)
    {visits : List (Visit ν δ κ w)} (allowed : ref.AllowsAll c (visits.map Visit.call))
    (spares : Spares c ref visits) (enough : model.tree.size + visits.length ≤ fuel) :
    ∃ final, store.runWords c fuel visits = .ok ((model.run c (visits.map Visit.call)).1, final) ∧
      final.Holds (model.run c (visits.map Visit.call)).2 := by
  induction visits generalizing store model ref with
  | nil => exact ⟨store, rfl, holds⟩
  | cons visit rest ih =>
    obtain ⟨here, others⟩ := allowed
    obtain ⟨spared, spares'⟩ := spares
    rw [List.length_cons] at enough
    have low := ColorTree.height_le_size model.tree
    have grown := model.call_size_le (c := c) visit.call
    have quiet : ∀ x ∈ model.tree.toList, visit.noise x = none := fun x member =>
      spared _ x (keeps.lists.mem_iff.mp member)
    obtain ⟨outcome, ran, same, holds'⟩ :=
      (holds.scribble quiet).call keeps here (show _ < fuel by omega) visit.rp
    obtain ⟨final, rested, held⟩ := ih holds' (keeps.call here).2 others spares' (by omega)
    refine ⟨final, ?_, held⟩
    simp only [Store.runWords, ran, bind, Except.bind, rested, same, List.map_cons, Model.run]
    rfl

variable (c)

/-- For every assignment of addresses, runs on raw words are in lock step with
runs on records: the calls return the same nodes, and the words of every stored
node are the links and the colour of its record. -/
theorem words_lock_step {address : ν → BitVec w} (distinct : Function.Injective address)
    (nonzero : ∀ x, address x ≠ 0#w) (even : ∀ x, address x &&& 1#w = 0#w) :
    (∃ layout : Layout ν w, layout.address = address) ∧
    ∀ layout : Layout ν w, layout.address = address →
      ∀ (words : Words layout) (mem : Records ν) (data : ν → δ) (visits : List (Visit ν δ κ w)) (fuel : Nat),
        (Ref.init data).AllowsAll c (visits.map Visit.call) → Spares c (Ref.init data) visits →
        visits.length ≤ fuel →
        ∃ results raw store tree,
          (Store.init words data).runWords c fuel visits = .ok (results, raw) ∧
          (Store.init mem data).run c fuel (visits.map fun visit => (visit.rp, visit.call)) =
            .ok (results, store) ∧
          Library.Shows nodeRecord store.mem store.root tree ∧ raw.root = store.root ∧
          ∀ x ∈ tree.toList,
            (raw.mem x).childColor .left = layout.word (store.mem x).left ||| colorBit w (store.mem x).color ∧
            (raw.mem x).childColor .right = layout.word (store.mem x).right ∧
            (raw.mem x).childColor .right &&& 1#w = 0#w := by
  refine ⟨exists_layout distinct nonzero even, ?_⟩
  intro layout _ words mem data visits fuel allowed spares enough
  have plain : (visits.map fun visit => (visit.rp, visit.call)).map Prod.snd = visits.map Visit.call := by
    simp [Function.comp_def]
  have begun : (Store.init words data).Holds (Model.init data) := ⟨⟨⟨rfl, trivial, List.nodup_nil⟩, rfl⟩, nofun⟩
  obtain ⟨raw, ranRaw, holds⟩ := begun.runWords (keeps_init (c := c) data) allowed spares
    (show _ ≤ fuel by simpa [Model.init, ColorTree.size] using enough)
  rw [← plain] at allowed
  obtain ⟨store, model, ran, same, shows, _⟩ := run_init mem allowed (show _ ≤ fuel by simpa using enough)
  rw [plain] at same ran
  subst same
  have answers := ((keeps_init (c := c) data).run (plain ▸ allowed)).1
  refine ⟨_, raw, store, _, answers ▸ ranRaw, ran, shows.tree,
    holds.shows.tree.root_eq.trans shows.tree.root_eq.symm, fun x member => ?_⟩
  have records : raw.mem.records x = store.mem x := shows.tree.holds.unique holds.shows.tree.holds x member
  have encodes := holds.exact x member
  unfold Words.Exact at encodes
  rw [records] at encodes
  refine ⟨encodes.left_eq, encodes.right_eq, ?_⟩
  rw [encodes.right_eq, layout.word_low]

/-- Four nodes of four bytes; a word that is no address leads to the last node. -/
def packed : Layout (Fin 4) 16 where
  address x := BitVec.ofNat 16 (4 * x + 4)
  locate word := if word = 0#16 then none else if word = 4#16 then some 0 else if word = 8#16 then some 1
    else if word = 12#16 then some 2 else some 3
  even := by decide
  locate_address := by decide
  locate_zero := rfl

def overwritten : List (Visit (Fin 4) Int Int 16) :=
  let rp : RbPath (Fin 4) := ⟨fun _ => ⟨some 3, .right⟩, 7⟩
  [⟨fun _ => none, rp, .insert 1 10⟩, ⟨fun _ => none, rp, .insert 2 20⟩, ⟨fun _ => none, rp, .remove 10⟩,
    ⟨fun x => if x = 1 then some ⟨fun _ => 0xffff#16⟩ else none, rp, .insert 1 30⟩,
    ⟨fun _ => none, rp, .find 30⟩]

theorem words_lock_step_packed :
    ∃ results, ∃ raw : Store (Words packed) (Fin 4) Int, ∃ store tree,
      (Store.init (fun _ => ⟨fun _ => 0x1235#16⟩) fun _ => 0).runWords aNode 5 overwritten =
        .ok (results, raw) ∧
      (Store.init (fun _ => ⟨none, none, .red⟩) fun _ => 0).run aNode 5
        (overwritten.map fun visit => (visit.rp, visit.call)) = .ok (results, store) ∧
      Library.Shows nodeRecord store.mem store.root tree ∧ raw.root = store.root ∧
      ∀ x ∈ tree.toList,
        (raw.mem x).childColor .left = packed.word (store.mem x).left ||| colorBit 16 (store.mem x).color ∧
        (raw.mem x).childColor .right = packed.word (store.mem x).right ∧
        (raw.mem x).childColor .right &&& 1#16 = 0#16 :=
  (words_lock_step aNode packed.address_injective packed.address_ne_zero packed.even).2 packed rfl
    _ _ _ overwritten 5
    (by
      simp [overwritten, Ref.AllowsAll, Ref.Allows, Ref.call, Ref.init, aNode, Function.update_apply]
      grind)
    (by
      simp [overwritten, Spares, Ref.call, Ref.init, aNode, Function.update_apply]
      grind)
    (by decide)

end

end Embedlib.RbtreeCompact
