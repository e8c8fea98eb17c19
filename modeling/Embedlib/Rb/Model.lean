import Embedlib.Rb.Interface
import Embedlib.Library.TreeMap

/-! The finite map that both red-black trees are for.

`Ref` is the map as the caller sees it. `Model` is the same map kept in a
coloured tree; the two implementations are compared with it node for node.
-/

set_option autoImplicit false

namespace Embedlib.Rb

open Library

variable {ν δ κ : Type}

/-- The contents of all containers, and the node stored under each key. -/
structure Ref (ν δ κ : Type) where
  data : ν → δ
  map : κ → Option ν

def Ref.init (data : ν → δ) : Ref ν δ κ := ⟨data, fun _ => none⟩

/-- The contents of all containers, and the stored nodes as a tree. -/
structure Model (ν δ : Type) where
  data : ν → δ
  tree : ColorTree ν

def Model.init (data : ν → δ) : Model ν δ := ⟨data, .nil⟩

section
variable [LinearOrder κ] [DecidableEq ν] (c : Comparators δ κ)

def Ref.call (ref : Ref ν δ κ) : Call ν δ κ → Option ν × Ref ν δ κ
  | .insert node content =>
    let data := Function.update ref.data node content
    match ref.map (c.keyOf content) with
    | some stored => (some stored, { ref with data := data })
    | none => (some node, ⟨data, Function.update ref.map (c.keyOf content) (some node)⟩)
  | .find key => (ref.map key, ref)
  | .remove key => (ref.map key, { ref with map := Function.update ref.map key none })

def Ref.run (ref : Ref ν δ κ) : List (Call ν δ κ) → List (Option ν) × Ref ν δ κ
  | [] => ([], ref)
  | call :: rest =>
    let rested := (ref.call c call).2.run rest
    ((ref.call c call).1 :: rested.1, rested.2)

/-- The content of a container may be set anew, but not with another key while
the container is stored. -/
def Ref.Allows (ref : Ref ν δ κ) : Call ν δ κ → Prop
  | .insert node content => ∀ key, ref.map key = some node → c.keyOf content = key
  | .find _ => True
  | .remove _ => True

def Ref.AllowsAll (ref : Ref ν δ κ) : List (Call ν δ κ) → Prop
  | [] => True
  | call :: rest => ref.Allows c call ∧ (ref.call c call).2.AllowsAll rest

/-- A call that neither stores nor removes a node. -/
def Ref.Passive (ref : Ref ν δ κ) : Call ν δ κ → Prop
  | .insert _ content => ref.map (c.keyOf content) ≠ none
  | .find _ => True
  | .remove key => ref.map key = none

/-- The direction in which a search for `key` leaves a node. -/
def side (data : ν → δ) (key : κ) : ν → Option Dir := toward (fun x => c.keyOf (data x)) key

def Model.call (model : Model ν δ) : Call ν δ κ → Option ν × Model ν δ
  | .insert node content =>
    let data := Function.update model.data node content
    let side := side c data (c.keyOf content)
    (some ((model.tree.search side).getD node), ⟨data, model.tree.insert side node⟩)
  | .find key => (model.tree.search (side c model.data key), model)
  | .remove key =>
    let side := side c model.data key
    (model.tree.search side, { model with tree := model.tree.remove side })

def Model.run (model : Model ν δ) : List (Call ν δ κ) → List (Option ν) × Model ν δ
  | [] => ([], model)
  | call :: rest =>
    let rested := (model.call c call).2.run rest
    ((model.call c call).1 :: rested.1, rested.2)

/-- The tree keeps the map: it is red-black and lists the entries in key order. -/
structure Keeps (model : Model ν δ) (ref : Ref ν δ κ) : Prop where
  data_eq : model.data = ref.data
  redBlack : IsRedBlack model.tree
  lists : Lists (fun x => c.keyOf (ref.data x)) ref.map model.tree.toList

end

section
variable [LinearOrder κ] {c : Comparators δ κ}

theorem Comparators.sideOf_cmp (a b : δ) : sideOf (c.cmp a b) = toward c.keyOf (c.keyOf a) b := by
  simp only [sideOf, toward, gt_iff_lt, c.cmp_neg, c.cmp_pos]

theorem Comparators.sideOf_keyCmp (k : κ) (b : δ) : sideOf (c.keyCmp k b) = toward c.keyOf k b := by
  simp only [sideOf, toward, gt_iff_lt, c.keyCmp_neg, c.keyCmp_pos]

theorem keeps_init (data : ν → δ) : Keeps c (Model.init data) (Ref.init data) :=
  ⟨rfl, isRedBlack_nil, lists_nil⟩

/-- A search by a key leaves a node to the side on which the key belongs. -/
theorem Comparators.side_key {data data' : ν → δ} (same : data = data') (key : κ) (x : ν) :
    sideOf (c.keyCmp key (data x)) = side c data' key x := by
  rw [c.sideOf_keyCmp, same]
  rfl

variable {model : Model ν δ} {ref : Ref ν δ κ}

theorem Keeps.search_key (keeps : Keeps c model ref) (key : κ) :
    model.tree.search (side c model.data key) = ref.map key := by
  rw [keeps.data_eq]
  exact keeps.lists.search_eq key

/-- A container whose new key is not stored is itself not stored. -/
theorem Keeps.fresh (keeps : Keeps c model ref) {node : ν} {content : δ}
    (allowed : ref.Allows c (.insert node content)) (absent : ref.map (c.keyOf content) = none) :
    node ∉ model.tree.toList := by
  intro member
  have entry := keeps.lists.mem_iff.mp member
  rw [allowed _ entry, entry] at absent
  cases absent

variable [DecidableEq ν]

theorem Comparators.side_insert {data data' : ν → δ} (same : data = data') (node : ν) (content : δ) (x : ν) :
    sideOf (c.cmp (Function.update data node content node) (Function.update data node content x)) =
      side c (Function.update data' node content) (c.keyOf content) x := by
  rw [c.sideOf_cmp, same, Function.update_self]
  rfl

theorem Keeps.lists_update (keeps : Keeps c model ref) {node : ν} {content : δ}
    (allowed : ref.Allows c (.insert node content)) :
    Lists (fun x => c.keyOf (Function.update ref.data node content x)) ref.map model.tree.toList := by
  apply keeps.lists.congr_key
  intro x member
  by_cases same : x = node
  · subst same
    simpa using allowed _ (keeps.lists.mem_iff.mp member)
  · simp [Function.update_of_ne same]

theorem Keeps.search_insert (keeps : Keeps c model ref) {node : ν} {content : δ}
    (allowed : ref.Allows c (.insert node content)) :
    model.tree.search (side c (Function.update model.data node content) (c.keyOf content)) =
      ref.map (c.keyOf content) := by
  rw [keeps.data_eq]
  exact (keeps.lists_update allowed).search_eq _

/-- One call on the tree is one call on the map. -/
theorem Keeps.call (keeps : Keeps c model ref) {call : Call ν δ κ} (allowed : ref.Allows c call) :
    (model.call c call).1 = (ref.call c call).1 ∧
      Keeps c (model.call c call).2 (ref.call c call).2 := by
  have dataEq := keeps.data_eq
  cases call with
  | insert node content =>
    have lists := keeps.lists_update allowed
    have found := keeps.search_insert allowed
    rw [dataEq] at found
    simp only [Model.call, Ref.call, dataEq, found]
    cases stored : ref.map (c.keyOf content) with
    | some y =>
      rw [stored] at found
      rw [ColorTree.insert_present found]
      exact ⟨rfl, rfl, keeps.redBlack, lists⟩
    | none =>
      have here : c.keyOf (Function.update ref.data node content node) = c.keyOf content := by simp
      have inserted := Lists.insert_tree (x := node) lists (by simpa using stored)
      rw [here] at inserted
      exact ⟨rfl, rfl, insert_isRedBlack keeps.redBlack node, inserted⟩
  | find key =>
    exact ⟨keeps.search_key key, keeps⟩
  | remove key =>
    have found := keeps.search_key key
    rw [dataEq] at found
    simp only [Model.call, Ref.call, dataEq]
    refine ⟨found, rfl, remove_isRedBlack keeps.redBlack, ?_⟩
    cases stored : ref.map key with
    | none =>
      rw [stored] at found
      rw [ColorTree.remove_absent found, ← stored, Function.update_eq_self]
      exact keeps.lists
    | some x => exact keeps.lists.remove_tree stored

theorem Keeps.pass (keeps : Keeps c model ref) {call : Call ν δ κ} (allowed : ref.Allows c call)
    (passive : ref.Passive c call) :
    (model.call c call).2.tree = model.tree ∧ (ref.call c call).2.map = ref.map := by
  cases call with
  | insert node content =>
    obtain ⟨y, stored⟩ := Option.ne_none_iff_exists'.mp passive
    have found := (keeps.search_insert allowed).trans stored
    refine ⟨ColorTree.insert_present found node, ?_⟩
    simp only [Ref.call, stored]
  | find key => exact ⟨rfl, rfl⟩
  | remove key =>
    have found := (keeps.search_key key).trans passive
    have gone : ref.map key = none := passive
    simp only [Model.call, Ref.call]
    exact ⟨ColorTree.remove_absent found, by rw [← gone, Function.update_eq_self]⟩

theorem Keeps.removed_not_mem (keeps : Keeps c model ref) {key : κ} {x : ν} (stored : ref.map key = some x) :
    x ∉ (model.call c (.remove key)).2.tree.toList := by
  have removable : ref.Allows c (.remove key) := trivial
  intro member
  have entry := (keeps.call removable).2.lists.mem_iff.mp member
  simp only [Ref.call, ((keeps.lists.entries key x).mp stored).2, Function.update_self] at entry
  cases entry

theorem Keeps.run (keeps : Keeps c model ref) {calls : List (Call ν δ κ)}
    (allowed : ref.AllowsAll c calls) :
    (model.run c calls).1 = (ref.run c calls).1 ∧
      Keeps c (model.run c calls).2 (ref.run c calls).2 := by
  induction calls generalizing model ref with
  | nil => exact ⟨rfl, keeps⟩
  | cons call rest ih =>
    obtain ⟨first, others⟩ := allowed
    obtain ⟨same, keeps⟩ := keeps.call first
    obtain ⟨results, keeps⟩ := ih keeps others
    exact ⟨by simp only [Model.run, Ref.run, same, results], keeps⟩

theorem Model.call_size_le (model : Model ν δ) (call : Call ν δ κ) :
    (model.call c call).2.tree.size ≤ model.tree.size + 1 := by
  cases call with
  | insert node content => exact ColorTree.insert_size_le _ _ _
  | find key => exact Nat.le_succ _
  | remove key => exact Nat.le_succ_of_le (ColorTree.remove_size_le _ _)

theorem Model.run_size_le (model : Model ν δ) (calls : List (Call ν δ κ)) :
    (model.run c calls).2.tree.size ≤ model.tree.size + calls.length := by
  induction calls generalizing model with
  | nil => exact Nat.le_refl _
  | cons call rest ih =>
    have first := model.call_size_le (c := c) call
    have others := ih (model.call c call).2
    simp only [Model.run, List.length_cons]
    omega

theorem Model.run_append (calls : List (Call ν δ κ)) (call : Call ν δ κ) :
    (model.run c (calls ++ [call])).2 = ((model.run c calls).2.call c call).2 := by
  induction calls generalizing model with
  | nil => rfl
  | cons first rest ih => exact ih

theorem Ref.allowsAll_append {calls : List (Call ν δ κ)} {call : Call ν δ κ} :
    ref.AllowsAll c (calls ++ [call]) ↔
      ref.AllowsAll c calls ∧ (ref.run c calls).2.Allows c call := by
  induction calls generalizing ref with
  | nil => simp [Ref.AllowsAll, Ref.run]
  | cons first rest ih => simp only [List.cons_append, Ref.AllowsAll, Ref.run, ih, and_assoc]

end

def reuse : List (Call Nat Int Int) :=
  [.insert 1 10, .insert 2 20, .insert 3 10, .remove 10, .insert 1 30]

theorem reuse_allowed : (Ref.init fun _ => 0).AllowsAll aNode reuse := by
  simp [reuse, Ref.AllowsAll, Ref.Allows, Ref.call, Ref.init, aNode, Function.update_apply]
  grind

end Embedlib.Rb
