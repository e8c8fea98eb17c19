import Embedlib.Library.Turnover
import Embedlib.Rb.ForestRuns
import Mathlib.Data.ENat.Lattice

/-! How many nodes the calls on a tree change.

A single call may paint a whole path, but runs from an empty root change a constant
number of nodes for each call on average. No call changes more links than a
constant number.
-/

set_option autoImplicit false

namespace Embedlib.Rb

open Library

variable {ν ρ δ κ ο β : Type}

section
variable [LinearOrder κ] [DecidableEq ν] {c : Comparators δ κ} {model : Model ν δ} {ref : Ref ν δ κ}

theorem Keeps.serve_adds (keeps : Keeps c model ref) {record : Option ν → Color → Option ν → Option ν → ρ}
    {paint : Nat} (paints : Paints record paint) (request : Request ν δ κ) :
    ∃ i, Adds (16 + i * paint) (model.tree.records record none) ((model.serve c request).2.tree.records record none) ∧
      i + 3 * (model.serve c request).2.tree.charge ≤ 3 * model.tree.charge + 50 := by
  rcases request with (⟨node, content⟩ | key | key) | node
  · obtain ⟨i, adds, pays⟩ := insert_adds paints keeps.redBlack
      (side c (Function.update model.data node content) (c.keyOf content)) node
    exact ⟨i, adds.mono (by omega), pays.trans (by omega)⟩
  · exact ⟨0, (adds_of_subset subset_rfl).mono (Nat.zero_le _), by simp only [Model.serve, Model.call]; omega⟩
  · exact remove_adds paints model.tree _
  · exact remove_adds paints model.tree _

theorem Model.serve_others (model : Model ν δ) (request : Request ν δ κ) :
    ∃ other : Set ν, other.encard ≤ 1 ∧ ∀ x ∉ (model.serve c request).2.tree.toList, x ∉ other →
      x ∉ model.tree.toList ∧ request.joins ≠ some x := by
  have removed (side : ν → Option Dir) : ∃ other : Set ν, other.encard ≤ 1 ∧
      ∀ x ∉ (model.tree.remove side).toList, x ∉ other → x ∉ model.tree.toList := by
    cases met : model.tree.search side with
    | none =>
      rw [ColorTree.remove_absent met]
      exact ⟨∅, by simp, fun x absent _ => absent⟩
    | some y =>
      obtain ⟨a, b, before, after⟩ := ColorTree.remove_toList met
      refine ⟨{y}, (Set.encard_singleton y).le, fun x absent other => ?_⟩
      rw [after, List.mem_append] at absent
      rw [before, List.mem_append, List.mem_cons]
      have different : x ≠ y := other
      tauto
  rcases request with (⟨node, content⟩ | key | key) | node
  · refine ⟨{node}, (Set.encard_singleton node).le, fun x absent other => ⟨fun member => absent ?_, ?_⟩⟩
    · simp only [Model.serve, Model.call]
      cases met : model.tree.search (side c (Function.update model.data node content) (c.keyOf content)) with
      | some y => rwa [ColorTree.insert_present met]
      | none =>
        obtain ⟨a, b, before, after⟩ := ColorTree.insert_toList met node
        rw [before, List.mem_append] at member
        rw [after, List.mem_append, List.mem_cons]
        tauto
    · rintro ⟨⟩
      exact other rfl
  · exact ⟨∅, by simp, fun x absent _ => ⟨absent, (Option.some_ne_none x).symm⟩⟩
  · obtain ⟨other, few, apart⟩ := removed (side c model.data key)
    exact ⟨other, few, fun x absent outside => ⟨apart x absent outside, (Option.some_ne_none x).symm⟩⟩
  · obtain ⟨other, few, apart⟩ := removed (side c model.data (c.keyOf (model.data node)))
    exact ⟨other, few, fun x absent outside => ⟨apart x absent outside, (Option.some_ne_none x).symm⟩⟩

end

section
variable [LinearOrder κ] [DecidableEq ν] (engine : Engine ρ ν δ κ ο) (c : Comparators δ κ) (fuel : Nat)

/-- The nodes of which an operation changes what `view` shows. -/
def changed (view : ρ → β) (before after : ν → ρ) : Set ν := {x | view (after x) ≠ view (before x)}

/-- How many nodes the operations of a run change, if none of them stops in a fault. -/
noncomputable def Engine.rewritten : Tree ρ ν δ → List ο → ℕ∞
  | _, [] => 0
  | tree, op :: rest => match engine.serve c fuel tree op with
    | .ok (_, after) => (changed id tree.mem after.mem).encard + Engine.rewritten after rest
    | .error _ => ⊤

/-- In how many nodes an operation of a run changes what `view` shows, at most. -/
noncomputable def Engine.peak (view : ρ → β) : Tree ρ ν δ → List ο → ℕ∞
  | _, [] => 0
  | tree, op :: rest => match engine.serve c fuel tree op with
    | .ok (_, after) => max (changed view tree.mem after.mem).encard (Engine.peak view after rest)
    | .error _ => ⊤

end

section
variable [LinearOrder κ] [DecidableEq ν] {engine : Engine ρ ν δ κ ο} {c : Comparators δ κ} {fuel : Nat}
  {tree : Tree ρ ν δ} {model : Model ν δ} {ref : Ref ν δ κ}

theorem Engine.serve_changed {op : ο} (shows : tree.Shows engine.record model) (keeps : Keeps c model ref)
    (admitted : ref.Admits c (engine.request op)) (enough : model.tree.height < fuel) {view : ρ → β} {paint : Nat}
    (paints : Paints (fun up c l r => view (engine.record up c l r)) paint) :
    ∃ after i, engine.serve c fuel tree op = .ok ((model.serve c (engine.request op)).1, after) ∧
      after.Shows engine.record (model.serve c (engine.request op)).2 ∧
      (changed view tree.mem after.mem).encard ≤ (17 + i * paint : Nat) ∧
      i + 3 * (model.serve c (engine.request op)).2.tree.charge ≤ 3 * model.tree.charge + 50 := by
  obtain ⟨after, served, shows', outside⟩ := engine.sound c fuel tree model ref op shows keeps admitted enough
  obtain ⟨i, adds, pays⟩ := keeps.serve_adds paints (engine.request op)
  obtain ⟨other, few, apart⟩ := Model.serve_others (c := c) model (engine.request op)
  have inside := (shows.tree.holds.view view).changed (shows'.tree.holds.view view) adds
  refine ⟨after, i, served, shows', ?_, pays⟩
  have covered : changed view tree.mem after.mem ⊆ other ∪
      {x | x ∈ (model.serve c (engine.request op)).2.tree.toList ∧ view (after.mem x) ≠ view (tree.mem x)} := by
    intro x differs
    by_cases member : x ∈ (model.serve c (engine.request op)).2.tree.toList
    · exact .inr ⟨member, differs⟩
    · by_contra neither
      obtain ⟨absent, apart⟩ := apart x member fun isOther => neither (.inl isOther)
      exact differs (congrArg view (outside x absent apart))
  calc
    (changed view tree.mem after.mem).encard ≤ other.encard + _ :=
      (Set.encard_le_encard covered).trans (Set.encard_union_le _ _)
    _ ≤ 1 + ((16 + i * paint : Nat) : ℕ∞) := add_le_add few inside
    _ = (17 + i * paint : Nat) := by rw [← Nat.cast_one, ← Nat.cast_add]; congr 1; omega

/-- The charge of the tree pays for what is painted in a run. -/
theorem Engine.rewritten_le (shows : tree.Shows engine.record model) (keeps : Keeps c model ref) {ops : List ο}
    (admitted : ref.AdmitsAll c (ops.map engine.request)) (enough : model.tree.size + ops.length ≤ fuel) :
    engine.rewritten c fuel tree ops ≤ (67 * ops.length + 3 * model.tree.charge : Nat) := by
  induction ops generalizing tree model ref with
  | nil => exact bot_le
  | cons op rest ih =>
    obtain ⟨here, others⟩ := admitted
    rw [List.length_cons] at enough
    have low := ColorTree.height_le_size model.tree
    have grown : (model.serve c (engine.request op)).2.tree.size ≤ model.tree.size + 1 := Model.serve_size_le _
    have paints : Paints (fun up c l r => id (engine.record up c l r)) 1 := nofun
    obtain ⟨after, i, served, shows', few, pays⟩ := Engine.serve_changed shows keeps here
      (show model.tree.height < fuel by omega) paints
    have rested := ih shows' (keeps.serve here).2 others (by omega)
    simp only [Engine.rewritten, served]
    calc
      _ ≤ ((17 + i * 1 : Nat) : ℕ∞) + (67 * rest.length + 3 * (model.serve c (engine.request op)).2.tree.charge : Nat) :=
        add_le_add few rested
      _ ≤ (67 * (op :: rest).length + 3 * model.tree.charge : Nat) := by
        rw [← Nat.cast_add, List.length_cons]
        exact Nat.cast_le.mpr (by omega)

theorem Engine.peak_le (shows : tree.Shows engine.record model) (keeps : Keeps c model ref) {ops : List ο}
    (admitted : ref.AdmitsAll c (ops.map engine.request)) (enough : model.tree.size + ops.length ≤ fuel)
    {view : ρ → β} (paints : Paints (fun up c l r => view (engine.record up c l r)) 0) :
    engine.peak c fuel view tree ops ≤ 17 := by
  induction ops generalizing tree model ref with
  | nil => exact bot_le
  | cons op rest ih =>
    obtain ⟨here, others⟩ := admitted
    rw [List.length_cons] at enough
    have low := ColorTree.height_le_size model.tree
    have grown : (model.serve c (engine.request op)).2.tree.size ≤ model.tree.size + 1 := Model.serve_size_le _
    obtain ⟨after, i, served, shows', few, _⟩ := Engine.serve_changed shows keeps here
      (show model.tree.height < fuel by omega) paints
    have rested := ih shows' (keeps.serve here).2 others (by omega)
    simp only [Engine.peak, served]
    exact max_le few rested

omit [DecidableEq ν] in
theorem Tree.init_shows (record : Option ν → Color → Option ν → Option ν → ρ) (mem : ν → ρ) (data : ν → δ) :
    (⟨mem, none, data⟩ : Tree ρ ν δ).Shows record (Model.init data) :=
  ⟨rfl, rfl, trivial, List.nodup_nil⟩

theorem Engine.rewritten_init (engine : Engine ρ ν δ κ ο) (mem : ν → ρ) {data : ν → δ} {ops : List ο}
    (admitted : (Ref.init data).AdmitsAll c (ops.map engine.request)) (enough : ops.length ≤ fuel) :
    engine.rewritten c fuel ⟨mem, none, data⟩ ops ≤ (67 * ops.length : Nat) :=
  Engine.rewritten_le (Tree.init_shows engine.record mem data) (keeps_init data) admitted
    (by simpa [Model.init, ColorTree.size] using enough)

theorem Engine.peak_init (engine : Engine ρ ν δ κ ο) (mem : ν → ρ) {data : ν → δ} {ops : List ο}
    (admitted : (Ref.init data).AdmitsAll c (ops.map engine.request)) (enough : ops.length ≤ fuel) {view : ρ → β}
    (paints : Paints (fun up c l r => view (engine.record up c l r)) 0) :
    engine.peak c fuel view ⟨mem, none, data⟩ ops ≤ 17 :=
  Engine.peak_le (Tree.init_shows engine.record mem data) (keeps_init data) admitted
    (by simpa [Model.init, ColorTree.size] using enough) paints

end

section
variable [LinearOrder κ] [DecidableEq ν] (c : Comparators δ κ)

/-- From an empty root, both trees change a constant number of nodes for each
request on average, however tall they grow. -/
theorem rewrites_amortized (data : ν → δ) (requests : List (Request ν δ κ))
    (admitted : (Ref.init data).AdmitsAll c requests) {fuel : Nat} (enough : requests.length ≤ fuel) :
    (∀ mem : Rbtree.Records ν,
      Rbtree.engine.rewritten c fuel ⟨mem, none, data⟩ requests ≤ (67 * requests.length : Nat)) ∧
    ∀ (mem : RbtreeCompact.Records ν) (ops : List (RbtreeCompact.RbPath ν × Call ν δ κ)),
      ops.map RbtreeCompact.engine.request = requests →
      RbtreeCompact.engine.rewritten c fuel ⟨mem, none, data⟩ ops ≤ (67 * requests.length : Nat) := by
  constructor
  · intro mem
    have linked : (Ref.init data).AdmitsAll c (requests.map Rbtree.engine.request) :=
      (List.map_id requests).symm ▸ admitted
    exact Rbtree.engine.rewritten_init mem linked enough
  · rintro mem ops rfl
    rw [List.length_map] at enough ⊢
    exact RbtreeCompact.engine.rewritten_init mem admitted enough

/-- No request to either tree changes the links of more than seventeen nodes. -/
theorem relinks_bounded (data : ν → δ) (requests : List (Request ν δ κ))
    (admitted : (Ref.init data).AdmitsAll c requests) {fuel : Nat} (enough : requests.length ≤ fuel) :
    (∀ mem : Rbtree.Records ν,
      Rbtree.engine.peak c fuel (fun node => (node.parent, node.left, node.right)) ⟨mem, none, data⟩ requests ≤ 17) ∧
    ∀ (mem : RbtreeCompact.Records ν) (ops : List (RbtreeCompact.RbPath ν × Call ν δ κ)),
      ops.map RbtreeCompact.engine.request = requests →
      RbtreeCompact.engine.peak c fuel (fun node => (node.left, node.right)) ⟨mem, none, data⟩ ops ≤ 17 := by
  constructor
  · intro mem
    have linked : (Ref.init data).AdmitsAll c (requests.map Rbtree.engine.request) :=
      (List.map_id requests).symm ▸ admitted
    exact Rbtree.engine.peak_init mem linked enough fun _ _ _ _ _ _ => rfl
  · rintro mem ops rfl
    rw [List.length_map] at enough
    exact RbtreeCompact.engine.peak_init mem admitted enough fun _ _ _ _ _ _ => rfl

theorem rewrites_amortized_reuse :
    (∀ mem : Rbtree.Records Nat,
      Rbtree.engine.rewritten aNode 5 ⟨mem, none, fun _ => 0⟩ (reuse.map .call) ≤ (67 * 5 : Nat)) ∧
    ∀ (mem : RbtreeCompact.Records Nat) (ops : List (RbtreeCompact.RbPath Nat × Call Nat Int Int)),
      ops.map RbtreeCompact.engine.request = reuse.map .call →
      RbtreeCompact.engine.rewritten aNode 5 ⟨mem, none, fun _ => 0⟩ ops ≤ (67 * 5 : Nat) :=
  rewrites_amortized aNode _ (reuse.map .call) (Ref.admitsAll_calls.mpr reuse_allowed) (by decide)

theorem relinks_bounded_reuse :
    (∀ mem : Rbtree.Records Nat,
      Rbtree.engine.peak aNode 5 (fun node => (node.parent, node.left, node.right)) ⟨mem, none, fun _ => 0⟩
        (reuse.map .call) ≤ 17) ∧
    ∀ (mem : RbtreeCompact.Records Nat) (ops : List (RbtreeCompact.RbPath Nat × Call Nat Int Int)),
      ops.map RbtreeCompact.engine.request = reuse.map .call →
      RbtreeCompact.engine.peak aNode 5 (fun node => (node.left, node.right)) ⟨mem, none, fun _ => 0⟩ ops ≤ 17 :=
  relinks_bounded aNode _ (reuse.map .call) (Ref.admitsAll_calls.mpr reuse_allowed) (by decide)

end

end Embedlib.Rb
