import Embedlib.Rb.Forest
import Embedlib.RbtreeCompact.Confinement
import Embedlib.RbtreeCompact.Runs
import Embedlib.Rbtree.Confinement
import Embedlib.Rbtree.Runs

/-! Forests of compact trees and of trees with parent pointers. -/

set_option autoImplicit false

namespace Embedlib

open Library Rb

variable {ν δ κ : Type}

namespace RbtreeCompact

theorem Store.perform_outside {store : Store (Records ν) ν δ} {rp : RbPath ν}
    {program : Program (State (Records ν) ν) (Ptr ν)} {outcome : Outcome (Records ν) ν δ} {own : Set ν}
    (ran : store.perform rp program = .ok outcome)
    (outside : Whenever program (fun _ s => ∀ x ∉ own, s.mem x = store.mem x)
      ⟨store.mem, store.root, rp, []⟩) : ∀ x ∉ own, outcome.store.mem x = store.mem x := by
  unfold Store.perform at ran
  split at ran
  · rename_i result s ended
    cases ran
    exact outside result s ended
  · cases ran

theorem enclosed_of_shows {mem : Records ν} {root : Ptr ν} {t : ColorTree ν}
    (shows : Library.Shows nodeRecord mem root t) : Enclosed {x | x ∈ t.toList} mem mem root := by
  obtain ⟨top, nodes⟩ := shows.among
  refine ⟨fun _ _ => rfl, fun x member d => ?_, top⟩
  obtain ⟨up, c, left, right, here, _, lefts, rights⟩ := nodes x member
  rw [here]
  cases d
  · exact lefts
  · exact rights

variable [DecidableEq ν] [LinearOrder κ] {c : Comparators δ κ} {fuel : Nat}

/-- A call writes to no node but those of its tree and the one it inserts. -/
theorem Store.call_outside {store : Store (Records ν) ν δ} {model : Model ν δ} (shows : store.Shows model)
    {rp : RbPath ν} {call : Call ν δ κ} {outcome : Outcome (Records ν) ν δ}
    (ran : store.call c fuel rp call = .ok outcome) {x : ν} (absent : x ∉ model.tree.toList)
    (other : (Request.call call).joins ≠ some x) : outcome.store.mem x = store.mem x := by
  have enclosed : Enclosed {x | x ∈ model.tree.toList} store.mem store.mem store.root := enclosed_of_shows shows.tree
  cases call with
  | insert node content =>
    refine Store.perform_outside ran (whenever_rbInsert enclosed _ fuel node) x ?_
    rintro (rfl | member)
    · exact other rfl
    · exact absent member
  | find key =>
    exact Store.perform_outside ran ((whenever_rbFind enclosed _ fuel key).mono fun _ _ ends => ends.1.outside)
      x absent
  | remove key =>
    exact Store.perform_outside ran ((whenever_rbRemoveKey enclosed _ fuel key).mono fun _ _ ends => ends.outside)
      x absent

def engine : Engine (RbNode ν) ν δ κ (RbPath ν × Call ν δ κ) where
  record := nodeRecord
  request op := .call op.2
  serve c fuel tree op := do
    let outcome ← Store.call c fuel ⟨tree.mem, tree.root, tree.data⟩ op.1 op.2
    return (outcome.result, ⟨outcome.store.mem, outcome.store.root, outcome.store.data⟩)
  sound c fuel tree model ref op shows keeps admitted enough := by
    have start : Store.Shows ⟨tree.mem, tree.root, tree.data⟩ model := ⟨shows.tree, shows.data_eq⟩
    obtain ⟨outcome, ran, sound⟩ := Store.call_sound start keeps admitted enough op.1
    refine ⟨⟨outcome.store.mem, outcome.store.root, outcome.store.data⟩, ?_,
      ⟨sound.shows.data_eq, sound.shows.tree⟩, fun x absent other => Store.call_outside start ran absent other⟩
    rw [ran, Model.serve, ← sound.result_eq]
    rfl

variable {ι : Type} [DecidableEq ι] (cs : ι → Comparators δ κ)

/-- After any interleaving of calls to several roots over the same nodes, each root
leads to a red-black tree of its own map, and the next call to one of them leaves the
nodes of all others alone. -/
theorem forest_calls_represent (mem : Records ν) (data : ν → δ) (ops : List (ι × RbPath ν × Call ν δ κ)) (i : ι)
    (op : RbPath ν × Call ν δ κ)
    (admitted : (Maps.init data).AdmitsAll cs (engine.requests ops ++ [(i, engine.request op)]))
    (enough : ops.length < fuel) :
    let maps := (Maps.init data).serveAll cs (engine.requests ops)
    ∃ forest after, (Forest.init mem data).serveAll engine cs fuel ops = .ok (maps.1, forest) ∧
      forest.Represents nodeRecord cs maps.2 ∧
      (∀ x, (∀ op ∈ ops, (engine.request op.2).joins ≠ some x) → forest.mem x = mem x) ∧
      forest.serve engine cs fuel i op = .ok ((maps.2.serve cs i (engine.request op)).1, after) ∧
      after.Represents nodeRecord cs (maps.2.serve cs i (engine.request op)).2 ∧
      maps.2.Spares i (engine.request op) forest after :=
  engine.serves_forest cs mem data ops i op admitted enough

theorem forest_calls_represent_exchange :
    let ops : List (Bool × RbPath Nat × Call Nat Int Int) :=
      [(true, atRest, .insert 1 10), (false, atRest, .insert 2 10), (true, atRest, .insert 3 10),
        (true, atRest, .remove 10)]
    let maps := (Maps.init fun _ => 0).serveAll (fun _ => aNode) (engine.requests ops)
    ∃ forest after, (Forest.init (fun _ => ⟨none, none, .red⟩) fun _ => 0).serveAll engine (fun _ => aNode) 5 ops =
        .ok (maps.1, forest) ∧
      forest.Represents nodeRecord (fun _ => aNode) maps.2 ∧
      (∀ x, (∀ op ∈ ops, (engine.request op.2).joins ≠ some x) → forest.mem x = ⟨none, none, .red⟩) ∧
      forest.serve engine (fun _ => aNode) 5 false (atRest, .insert 1 5) =
        .ok ((maps.2.serve (fun _ => aNode) false (.call (.insert 1 5))).1, after) ∧
      after.Represents nodeRecord (fun _ => aNode) (maps.2.serve (fun _ => aNode) false (.call (.insert 1 5))).2 ∧
      maps.2.Spares false (.call (.insert 1 5)) forest after :=
  forest_calls_represent _ _ _ _ _ (atRest, .insert 1 5) exchange_admitted (by decide)

end RbtreeCompact

namespace Rbtree

theorem Store.perform_outside {store after : Store ν δ} {α : Type} {program : Program (State ν) α} {result : α}
    {own : Set ν} (ran : store.perform program = .ok (result, after))
    (outside : Whenever program (fun _ s => ∀ x ∉ own, s.mem x = store.mem x) ⟨store.mem, store.root⟩) :
    ∀ x ∉ own, after.mem x = store.mem x := by
  unfold Store.perform at ran
  split at ran
  · rename_i result s ended
    cases ran
    exact outside result s ended
  · cases ran

theorem confined_of_shows {mem : Records ν} {root : Ptr ν} {t : ColorTree ν}
    (shows : Library.Shows nodeRecord mem root t) : Confined {x | x ∈ t.toList} mem ⟨mem, root⟩ := by
  obtain ⟨top, nodes⟩ := shows.among
  refine ⟨fun _ _ => rfl, fun x member => ?_, top⟩
  obtain ⟨up, c, left, right, here, ups, lefts, rights⟩ := nodes x member
  simp only [here]
  refine ⟨ups, fun d => ?_⟩
  cases d
  · exact lefts
  · exact rights

variable [DecidableEq ν] [LinearOrder κ] {c : Comparators δ κ} {fuel : Nat}

theorem Store.serve_outside {store after : Store ν δ} {model : Model ν δ} (shows : store.Shows model)
    {ref : Ref ν δ κ} (keeps : Keeps c model ref) {request : Request ν δ κ} (admitted : ref.Admits c request)
    {result : Ptr ν} (ran : store.serve c fuel request = .ok (result, after)) {x : ν}
    (absent : x ∉ model.tree.toList) (other : request.joins ≠ some x) : after.mem x = store.mem x := by
  have confined : Confined {x | x ∈ model.tree.toList} store.mem ⟨store.mem, store.root⟩ :=
    confined_of_shows shows.tree
  rcases request with (⟨node, content⟩ | key | key) | node
  · refine Store.perform_outside ran (whenever_rbInsert confined _ fuel node) x ?_
    rintro (rfl | member)
    · exact other rfl
    · exact absent member
  · exact Store.perform_outside ran ((stays_rbFind _ fuel key _ confined).mono fun _ _ ends => ends.1.outside)
      x absent
  · exact Store.perform_outside ran ((stays_rbRemoveKey _ fuel key _ confined).mono fun _ _ ends => ends.1.outside)
      x absent
  · have member : node ∈ {x | x ∈ model.tree.toList} := keeps.lists.mem_iff.mpr admitted
    exact Store.perform_outside ran ((stays_rbRemove fuel (among_some member) _ confined).bind
      fun _ _ ends => whenever_pure ends.1.outside) x absent

def engine : Engine (RbNode ν) ν δ κ (Request ν δ κ) where
  record := nodeRecord
  request op := op
  serve c fuel tree op := do
    let (result, after) ← Store.serve c fuel ⟨tree.mem, tree.root, tree.data⟩ op
    return (result, ⟨after.mem, after.root, after.data⟩)
  sound c fuel tree model ref op shows keeps admitted enough := by
    have start : Store.Shows ⟨tree.mem, tree.root, tree.data⟩ model := ⟨shows.tree, shows.data_eq⟩
    obtain ⟨result, after, ran, sound⟩ := Store.serve_sound start keeps admitted enough
    refine ⟨⟨after.mem, after.root, after.data⟩, ?_, ⟨sound.shows.data_eq, sound.shows.tree⟩,
      fun x absent other => Store.serve_outside start keeps admitted ran absent other⟩
    rw [ran, ← sound.result_eq]
    rfl

variable {ι : Type} [DecidableEq ι] (cs : ι → Comparators δ κ)

/-- After any interleaving of requests to several roots over the same nodes, each
root leads to a red-black tree of its own map, and the next request to one of them
leaves the nodes of all others alone. -/
theorem forest_requests_represent (mem : Records ν) (data : ν → δ) (ops : List (ι × Request ν δ κ)) (i : ι)
    (op : Request ν δ κ) (admitted : (Maps.init data).AdmitsAll cs (engine.requests ops ++ [(i, engine.request op)]))
    (enough : ops.length < fuel) :
    let maps := (Maps.init data).serveAll cs (engine.requests ops)
    ∃ forest after, (Forest.init mem data).serveAll engine cs fuel ops = .ok (maps.1, forest) ∧
      forest.Represents nodeRecord cs maps.2 ∧
      (∀ x, (∀ op ∈ ops, (engine.request op.2).joins ≠ some x) → forest.mem x = mem x) ∧
      forest.serve engine cs fuel i op = .ok ((maps.2.serve cs i (engine.request op)).1, after) ∧
      after.Represents nodeRecord cs (maps.2.serve cs i (engine.request op)).2 ∧
      maps.2.Spares i (engine.request op) forest after :=
  engine.serves_forest cs mem data ops i op admitted enough

theorem forest_requests_represent_exchange :
    let maps := (Maps.init fun _ => 0).serveAll (fun _ => aNode) (engine.requests (exchange.take 4))
    ∃ forest after, (Forest.init (fun _ => ⟨none, .red, none, none⟩) fun _ => 0).serveAll engine (fun _ => aNode) 5
        (exchange.take 4) = .ok (maps.1, forest) ∧
      forest.Represents nodeRecord (fun _ => aNode) maps.2 ∧
      (∀ x, (∀ op ∈ exchange.take 4, (engine.request op.2).joins ≠ some x) →
        forest.mem x = ⟨none, .red, none, none⟩) ∧
      forest.serve engine (fun _ => aNode) 5 false (.call (.insert 1 5)) =
        .ok ((maps.2.serve (fun _ => aNode) false (.call (.insert 1 5))).1, after) ∧
      after.Represents nodeRecord (fun _ => aNode) (maps.2.serve (fun _ => aNode) false (.call (.insert 1 5))).2 ∧
      maps.2.Spares false (.call (.insert 1 5)) forest after :=
  forest_requests_represent _ _ _ _ _ (.call (.insert 1 5)) exchange_admitted (by decide)

end Rbtree

end Embedlib
