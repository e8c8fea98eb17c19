import Embedlib.Rb.Requests
import Embedlib.Library.Footprint
import Embedlib.Library.Program

/-! Several trees whose nodes lie in one memory.

Each root has comparators of its own, and a container is in one of the trees at
most. Requests to the roots come in any order. What is needed of an implementation
is how it serves a request on one root, and which nodes it leaves alone there.
-/

set_option autoImplicit false

namespace Embedlib.Rb

open Library

variable {ι ν ρ δ κ ο : Type}

/-- The contents of all containers, and what each of the maps stores. -/
structure Maps (ι ν δ κ : Type) where
  data : ν → δ
  map : ι → κ → Option ν

def Maps.init (data : ν → δ) : Maps ι ν δ κ := ⟨data, fun _ _ => none⟩

def Maps.ref (maps : Maps ι ν δ κ) (i : ι) : Ref ν δ κ := ⟨maps.data, maps.map i⟩

section
variable [DecidableEq ι] [DecidableEq ν] [LinearOrder κ] (c : ι → Comparators δ κ)

def Maps.serve (maps : Maps ι ν δ κ) (i : ι) (request : Request ν δ κ) : Option ν × Maps ι ν δ κ :=
  let served := (maps.ref i).serve (c i) request
  (served.1, ⟨served.2.data, Function.update maps.map i served.2.map⟩)

def Maps.serveAll (maps : Maps ι ν δ κ) : List (ι × Request ν δ κ) → List (Option ν) × Maps ι ν δ κ
  | [] => ([], maps)
  | (i, request) :: rest =>
    let rested := (maps.serve c i request).2.serveAll rest
    ((maps.serve c i request).1 :: rested.1, rested.2)

/-- A container that is inserted into one tree is in none of the others. -/
def Maps.Admits (maps : Maps ι ν δ κ) (i : ι) (request : Request ν δ κ) : Prop :=
  (maps.ref i).Admits (c i) request ∧
    ∀ node, request.joins = some node → ∀ j, j ≠ i → ∀ key, maps.map j key ≠ some node

def Maps.AdmitsAll (maps : Maps ι ν δ κ) : List (ι × Request ν δ κ) → Prop
  | [] => True
  | (i, request) :: rest => maps.Admits c i request ∧ (maps.serve c i request).2.AdmitsAll rest

end

/-- A root, the nodes and the contents of the containers. -/
structure Tree (ρ ν δ : Type) where
  mem : ν → ρ
  root : Ptr ν
  data : ν → δ

structure Tree.Shows (record : Option ν → Color → Option ν → Option ν → ρ) (tree : Tree ρ ν δ)
    (model : Model ν δ) : Prop where
  data_eq : tree.data = model.data
  tree : Library.Shows record tree.mem tree.root model.tree

/-- How an implementation serves a request on one root. -/
structure Engine (ρ ν δ κ ο : Type) [LinearOrder κ] [DecidableEq ν] where
  record : Option ν → Color → Option ν → Option ν → ρ
  request : ο → Request ν δ κ
  serve : Comparators δ κ → Nat → Tree ρ ν δ → ο → Except Fault (Ptr ν × Tree ρ ν δ)
  sound : ∀ (c : Comparators δ κ) (fuel : Nat) (tree : Tree ρ ν δ) (model : Model ν δ) (ref : Ref ν δ κ) (op : ο),
    tree.Shows record model → Keeps c model ref → ref.Admits c (request op) → model.tree.height < fuel →
    ∃ after, serve c fuel tree op = .ok ((model.serve c (request op)).1, after) ∧
      after.Shows record (model.serve c (request op)).2 ∧
      ∀ x ∉ model.tree.toList, (request op).joins ≠ some x → after.mem x = tree.mem x

/-- Roots over the same nodes. -/
structure Forest (ι ρ ν δ : Type) where
  mem : ν → ρ
  root : ι → Ptr ν
  data : ν → δ

/-- `RB_ROOT_INIT` of every root -/
def Forest.init (mem : ν → ρ) (data : ν → δ) : Forest ι ρ ν δ := ⟨mem, fun _ => none, data⟩

def Forest.tree (forest : Forest ι ρ ν δ) (i : ι) : Tree ρ ν δ := ⟨forest.mem, forest.root i, forest.data⟩

def Forest.plant [DecidableEq ι] (forest : Forest ι ρ ν δ) (i : ι) (tree : Tree ρ ν δ) : Forest ι ρ ν δ :=
  ⟨tree.mem, Function.update forest.root i tree.root, tree.data⟩

section
variable [DecidableEq ι] [DecidableEq ν] [LinearOrder κ] (engine : Engine ρ ν δ κ ο) (c : ι → Comparators δ κ)
  (fuel : Nat)

def Forest.serve (forest : Forest ι ρ ν δ) (i : ι) (op : ο) : Except Fault (Ptr ν × Forest ι ρ ν δ) := do
  let (result, after) ← engine.serve (c i) fuel (forest.tree i) op
  return (result, forest.plant i after)

def Forest.serveAll (forest : Forest ι ρ ν δ) :
    List (ι × ο) → Except Fault (List (Ptr ν) × Forest ι ρ ν δ)
  | [] => return ([], forest)
  | (i, op) :: rest => do
    let (result, forest) ← forest.serve engine c fuel i op
    let (results, final) ← forest.serveAll rest
    return (result :: results, final)

def Engine.requests (ops : List (ι × ο)) : List (ι × Request ν δ κ) :=
  ops.map fun op => (op.1, engine.request op.2)

end

/-- The roots lead to red-black trees that keep the maps and have no node in common. -/
structure Forest.Holds [LinearOrder κ] (record : Option ν → Color → Option ν → Option ν → ρ)
    (c : ι → Comparators δ κ) (forest : Forest ι ρ ν δ) (trees : ι → ColorTree ν) (maps : Maps ι ν δ κ) :
    Prop where
  data_eq : forest.data = maps.data
  shows : ∀ i, Library.Shows record forest.mem (forest.root i) (trees i)
  redBlack : ∀ i, IsRedBlack (trees i)
  lists : ∀ i, Lists (fun x => (c i).keyOf (maps.data x)) (maps.map i) (trees i).toList
  apart : ∀ i j, i ≠ j → ∀ x ∈ (trees i).toList, x ∉ (trees j).toList

def Forest.Represents [LinearOrder κ] (record : Option ν → Color → Option ν → Option ν → ρ)
    (c : ι → Comparators δ κ) (forest : Forest ι ρ ν δ) (maps : Maps ι ν δ κ) : Prop :=
  ∃ trees, forest.Holds record c trees maps

section
variable [LinearOrder κ] {record : Option ν → Color → Option ν → Option ν → ρ} {c : ι → Comparators δ κ}
  {forest : Forest ι ρ ν δ} {trees : ι → ColorTree ν} {maps : Maps ι ν δ κ}

theorem Forest.Holds.keeps (holds : forest.Holds record c trees maps) (i : ι) :
    Keeps (c i) ⟨forest.data, trees i⟩ (maps.ref i) :=
  ⟨holds.data_eq, holds.redBlack i, holds.lists i⟩

theorem Forest.init_holds (record : Option ν → Color → Option ν → Option ν → ρ) (c : ι → Comparators δ κ)
    (mem : ν → ρ) (data : ν → δ) :
    (Forest.init mem data).Holds record c (fun _ => .nil) (Maps.init data) :=
  ⟨rfl, fun _ => ⟨rfl, trivial, List.nodup_nil⟩, fun _ => isRedBlack_nil, fun _ => lists_nil, fun _ _ _ => nofun⟩

theorem Forest.Holds.joins_ne (holds : forest.Holds record c trees maps) {i j : ι} {request : Request ν δ κ}
    (admitted : maps.Admits c i request) (other : j ≠ i) {x : ν} (member : x ∈ (trees j).toList) :
    request.joins ≠ some x :=
  fun joins => admitted.2 x joins j other _ ((holds.lists j).mem_iff.mp member)

end

section
variable [DecidableEq ι] [DecidableEq ν] [LinearOrder κ] {engine : Engine ρ ν δ κ ο} {c : ι → Comparators δ κ}
  {fuel : Nat} {forest : Forest ι ρ ν δ} {trees : ι → ColorTree ν} {maps : Maps ι ν δ κ}

/-- What a request to one of the roots leaves alone: all other roots, and the nodes
that are neither in its tree nor inserted. -/
structure Maps.Spares (maps : Maps ι ν δ κ) (i : ι) (request : Request ν δ κ) (before after : Forest ι ρ ν δ) :
    Prop where
  roots : ∀ j, j ≠ i → after.root j = before.root j
  nodes : ∀ x, (∀ key, maps.map i key ≠ some x) → request.joins ≠ some x → after.mem x = before.mem x

theorem Maps.admitsAll_append {requests : List (ι × Request ν δ κ)} {i : ι} {request : Request ν δ κ} :
    maps.AdmitsAll c (requests ++ [(i, request)]) ↔
      maps.AdmitsAll c requests ∧ (maps.serveAll c requests).2.Admits c i request := by
  induction requests generalizing maps with
  | nil => simp [Maps.AdmitsAll, Maps.serveAll]
  | cons first rest ih => simp only [List.cons_append, Maps.AdmitsAll, Maps.serveAll, ih, and_assoc]

variable (c) in
/-- The trees after a request to the one at `i`. -/
def treesAfter (data : ν → δ) (trees : ι → ColorTree ν) (i : ι) (request : Request ν δ κ) : ι → ColorTree ν :=
  Function.update trees i (Model.serve (c i) ⟨data, trees i⟩ request).2.tree

theorem treesAfter_size_le (data : ν → δ) (i : ι) (request : Request ν δ κ) (j : ι) :
    (treesAfter c data trees i request j).size ≤ (trees j).size + 1 := by
  by_cases here : j = i
  · subst here
    rw [treesAfter, Function.update_self]
    exact Model.serve_size_le request
  · rw [treesAfter, Function.update_of_ne here]
    exact Nat.le_succ _

theorem mem_of_treesAfter {data : ν → δ} {i : ι} {request : Request ν δ κ} {j : ι} {x : ν}
    (member : x ∈ (treesAfter c data trees i request j).toList) :
    x ∈ (trees j).toList ∨ j = i ∧ request.joins = some x := by
  by_cases here : j = i
  · subst here
    rw [treesAfter, Function.update_self] at member
    exact (Model.mem_of_serve member).imp_right fun joins => ⟨rfl, joins⟩
  · rw [treesAfter, Function.update_of_ne here] at member
    exact .inl member

section
variable {record : Option ν → Color → Option ν → Option ν → ρ} {i : ι} {request : Request ν δ κ}

/-- A node joins a tree only where no other tree has it. -/
theorem Forest.Holds.apart_after (holds : forest.Holds record c trees maps) (admitted : maps.Admits c i request)
    {j k : ι} (different : j ≠ k) {x : ν} (left : x ∈ (treesAfter c forest.data trees i request j).toList) :
    x ∉ (treesAfter c forest.data trees i request k).toList := by
  intro right
  rcases mem_of_treesAfter left with before | ⟨rfl, joins⟩
  · rcases mem_of_treesAfter right with before' | ⟨rfl, joins⟩
    · exact holds.apart j k different x before before'
    · exact holds.joins_ne admitted different before joins
  · rcases mem_of_treesAfter right with before' | ⟨rfl, _⟩
    · exact holds.joins_ne admitted different.symm before' joins
    · exact different rfl

theorem Forest.Holds.plant (holds : forest.Holds record c trees maps) (admitted : maps.Admits c i request)
    {after : Tree ρ ν δ} (shows : after.Shows record (Model.serve (c i) ⟨forest.data, trees i⟩ request).2)
    (frame : ∀ x ∉ (trees i).toList, request.joins ≠ some x → after.mem x = forest.mem x) :
    (forest.plant i after).Holds record c (treesAfter c forest.data trees i request) (maps.serve c i request).2 := by
  obtain ⟨_, keeps⟩ := (holds.keeps i).serve admitted.1
  have at_root (j : ι) :
      Library.Shows record after.mem (Function.update forest.root i after.root j)
          (treesAfter c forest.data trees i request j) ∧
        IsRedBlack (treesAfter c forest.data trees i request j) ∧
        Lists (fun x => (c j).keyOf ((maps.serve c i request).2.data x)) ((maps.serve c i request).2.map j)
          (treesAfter c forest.data trees i request j).toList := by
    simp only [treesAfter, Maps.serve]
    by_cases here : j = i
    · subst here
      simp only [Function.update_self]
      exact ⟨shows.tree, keeps.redBlack, keeps.lists⟩
    · simp only [Function.update_of_ne here]
      have kept := holds.shows j
      refine ⟨⟨kept.root_eq, kept.holds.congr fun x member => ?_, kept.distinct⟩, holds.redBlack j,
        (holds.lists j).congr_key fun x member => ?_⟩
      · exact frame x (holds.apart j i here x member) (holds.joins_ne admitted here member)
      · exact congrArg (c j).keyOf (Ref.serve_data (holds.joins_ne admitted here member))
  exact ⟨shows.data_eq.trans keeps.data_eq, fun j => (at_root j).1, fun j => (at_root j).2.1,
    fun j => (at_root j).2.2, fun j k different x left => holds.apart_after admitted different left⟩

end

theorem Forest.Holds.serve (holds : forest.Holds engine.record c trees maps) {i : ι} {op : ο}
    (admitted : maps.Admits c i (engine.request op)) (enough : (trees i).height < fuel) :
    ∃ after trees', forest.serve engine c fuel i op =
        .ok ((maps.serve c i (engine.request op)).1, after) ∧
      after.Holds engine.record c trees' (maps.serve c i (engine.request op)).2 ∧
      maps.Spares i (engine.request op) forest after ∧ ∀ j, (trees' j).size ≤ (trees j).size + 1 ∧
        ∀ x ∈ (trees' j).toList, x ∈ (trees j).toList ∨ (engine.request op).joins = some x := by
  obtain ⟨same, _⟩ := (holds.keeps i).serve admitted.1
  obtain ⟨after, ran, shows, frame⟩ := engine.sound (c i) fuel (forest.tree i) ⟨forest.data, trees i⟩ (maps.ref i)
    op ⟨rfl, holds.shows i⟩ (holds.keeps i) admitted.1 enough
  refine ⟨forest.plant i after, _, ?_, holds.plant admitted shows frame,
    ⟨fun j other => Function.update_of_ne other _ _, fun x absent apart => ?_⟩,
    fun j => ⟨treesAfter_size_le _ _ _ j, fun x member => (mem_of_treesAfter member).imp_right And.right⟩⟩
  · rw [Forest.serve, ran, same]
    rfl
  · refine frame x (fun member => ?_) apart
    exact absent _ ((holds.lists i).mem_iff.mp member)

theorem Forest.Holds.serveAll (holds : forest.Holds engine.record c trees maps) {ops : List (ι × ο)}
    (admitted : maps.AdmitsAll c (engine.requests ops)) (enough : ∀ i, (trees i).size + ops.length ≤ fuel) :
    ∃ final trees', forest.serveAll engine c fuel ops =
        .ok ((maps.serveAll c (engine.requests ops)).1, final) ∧
      final.Holds engine.record c trees' (maps.serveAll c (engine.requests ops)).2 ∧
      (∀ x, (∀ op ∈ ops, (engine.request op.2).joins ≠ some x) → (∀ i, x ∉ (trees i).toList) →
        final.mem x = forest.mem x) ∧
      ∀ i, (trees' i).size ≤ (trees i).size + ops.length := by
  induction ops generalizing forest trees maps with
  | nil => exact ⟨forest, trees, rfl, holds, fun x _ _ => rfl, fun i => Nat.le_refl _⟩
  | cons first rest ih =>
    obtain ⟨i, op⟩ := first
    obtain ⟨here, others⟩ := admitted
    simp only [List.length_cons] at enough
    have low := ColorTree.height_le_size (trees i)
    have room := enough i
    obtain ⟨after, trees₁, ran, holds₁, spares, origin⟩ := holds.serve here (show (trees i).height < fuel by omega)
    obtain ⟨final, trees₂, rested, holds₂, frame, sizes⟩ := ih holds₁ others fun j => by
      have := enough j
      have := (origin j).1
      omega
    refine ⟨final, trees₂, ?_, holds₂, fun x apart absent => ?_, fun j => ?_⟩
    · simp only [Forest.serveAll, ran, bind, Except.bind, rested]
      rfl
    · obtain ⟨other, later⟩ := List.forall_mem_cons.mp apart
      refine (frame x later fun j inside => ?_).trans (spares.nodes x (fun key stored => ?_) other)
      · exact ((origin j).2 x inside).elim (absent j) other
      · exact absent i (((holds.lists i).entries key x).mp stored).1
    · have := sizes j
      have := (origin j).1
      simp only [List.length_cons]
      omega

variable (engine c)

theorem Engine.serves_forest (mem : ν → ρ) (data : ν → δ) (ops : List (ι × ο)) (i : ι) (op : ο)
    (admitted : (Maps.init data).AdmitsAll c (engine.requests ops ++ [(i, engine.request op)]))
    (enough : ops.length < fuel) :
    let maps := (Maps.init data).serveAll c (engine.requests ops)
    ∃ forest after, (Forest.init mem data).serveAll engine c fuel ops = .ok (maps.1, forest) ∧
      forest.Represents engine.record c maps.2 ∧
      (∀ x, (∀ op ∈ ops, (engine.request op.2).joins ≠ some x) → forest.mem x = mem x) ∧
      forest.serve engine c fuel i op = .ok ((maps.2.serve c i (engine.request op)).1, after) ∧
      after.Represents engine.record c (maps.2.serve c i (engine.request op)).2 ∧
      maps.2.Spares i (engine.request op) forest after := by
  intro maps
  obtain ⟨before, admitted⟩ := Maps.admitsAll_append.mp admitted
  have empty : (ColorTree.nil : ColorTree ν).size = 0 := rfl
  obtain ⟨forest, trees, ran, holds, frame, sizes⟩ := (Forest.init_holds engine.record c mem data).serveAll before
    (show ∀ _ : ι, _ ≤ fuel by intro _; omega)
  have low := ColorTree.height_le_size (trees i)
  have room := sizes i
  obtain ⟨after, trees', served, holds', spares, _⟩ := holds.serve admitted (show (trees i).height < fuel by omega)
  exact ⟨forest, after, ran, ⟨trees, holds⟩, fun x apart => frame x apart fun _ => nofun, served, ⟨trees', holds'⟩,
    spares⟩

end

/-- Two maps over the same three containers: one container moves from the one map to the other. -/
def exchange : List (Bool × Request Nat Int Int) :=
  [(true, .call (.insert 1 10)), (false, .call (.insert 2 10)), (true, .call (.insert 3 10)),
    (true, .call (.remove 10)), (false, .call (.insert 1 5))]

theorem exchange_admitted : (Maps.init fun _ => 0).AdmitsAll (fun _ => aNode) exchange := by
  simp [exchange, Maps.AdmitsAll, Maps.Admits, Maps.serve, Maps.ref, Maps.init, Request.joins, Ref.serve, Ref.Admits,
    Ref.Allows, Ref.call, aNode, Function.update_apply]

end Embedlib.Rb
