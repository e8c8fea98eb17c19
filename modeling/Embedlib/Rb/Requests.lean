import Embedlib.Rb.Model

/-! Calls by key, and removals of a stored node that is given itself. -/

set_option autoImplicit false

namespace Embedlib.Rb

open Library

variable {ν δ κ : Type}

/-- A generated call, or a direct `rb_remove`. -/
inductive Request (ν δ κ : Type) where
  | call (call : Call ν δ κ)
  | erase (node : ν)
  deriving Repr

/-- The node that a request stores unless it finds an equal one. -/
def Request.joins : Request ν δ κ → Option ν
  | .call (.insert node _) => some node
  | .call (.find _) => none
  | .call (.remove _) => none
  | .erase _ => none

section
variable [LinearOrder κ] [DecidableEq ν] (c : Comparators δ κ)

/-- The call that removes a node by its own key. -/
def eraseCall (data : ν → δ) (node : ν) : Call ν δ κ := .remove (c.keyOf (data node))

def Ref.serve (ref : Ref ν δ κ) : Request ν δ κ → Option ν × Ref ν δ κ
  | .call call => ref.call c call
  | .erase node => (none, (ref.call c (eraseCall c ref.data node)).2)

def Ref.serveAll (ref : Ref ν δ κ) : List (Request ν δ κ) → List (Option ν) × Ref ν δ κ
  | [] => ([], ref)
  | request :: rest =>
    let rested := (ref.serve c request).2.serveAll rest
    ((ref.serve c request).1 :: rested.1, rested.2)

/-- Only a stored node may be removed directly. -/
def Ref.Admits (ref : Ref ν δ κ) : Request ν δ κ → Prop
  | .call call => ref.Allows c call
  | .erase node => ref.map (c.keyOf (ref.data node)) = some node

def Ref.AdmitsAll (ref : Ref ν δ κ) : List (Request ν δ κ) → Prop
  | [] => True
  | request :: rest => ref.Admits c request ∧ (ref.serve c request).2.AdmitsAll rest

/-- A request that neither stores nor removes a node. -/
def Ref.Idle (ref : Ref ν δ κ) : Request ν δ κ → Prop
  | .call call => ref.Passive c call
  | .erase _ => False

def Model.serve (model : Model ν δ) : Request ν δ κ → Option ν × Model ν δ
  | .call call => model.call c call
  | .erase node => (none, (model.call c (eraseCall c model.data node)).2)

def Model.serveAll (model : Model ν δ) : List (Request ν δ κ) → List (Option ν) × Model ν δ
  | [] => ([], model)
  | request :: rest =>
    let rested := (model.serve c request).2.serveAll rest
    ((model.serve c request).1 :: rested.1, rested.2)

end

section
variable [LinearOrder κ] [DecidableEq ν] {c : Comparators δ κ} {model : Model ν δ} {ref : Ref ν δ κ}

theorem Keeps.serve (keeps : Keeps c model ref) {request : Request ν δ κ}
    (admitted : ref.Admits c request) :
    (model.serve c request).1 = (ref.serve c request).1 ∧
      Keeps c (model.serve c request).2 (ref.serve c request).2 := by
  cases request with
  | call call => exact keeps.call admitted
  | erase node =>
    refine ⟨rfl, ?_⟩
    simp only [Model.serve, Ref.serve, keeps.data_eq]
    have removable : ref.Allows c (eraseCall c ref.data node) := trivial
    exact (keeps.call removable).2

theorem Keeps.serveAll (keeps : Keeps c model ref) {requests : List (Request ν δ κ)}
    (admitted : ref.AdmitsAll c requests) :
    (model.serveAll c requests).1 = (ref.serveAll c requests).1 ∧
      Keeps c (model.serveAll c requests).2 (ref.serveAll c requests).2 := by
  induction requests generalizing model ref with
  | nil => exact ⟨rfl, keeps⟩
  | cons request rest ih =>
    obtain ⟨first, others⟩ := admitted
    obtain ⟨same, keeps⟩ := keeps.serve first
    obtain ⟨results, keeps⟩ := ih keeps others
    exact ⟨by simp only [Model.serveAll, Ref.serveAll, same, results], keeps⟩

theorem Model.mem_of_serve {request : Request ν δ κ} {x : ν}
    (member : x ∈ (model.serve c request).2.tree.toList) :
    x ∈ model.tree.toList ∨ request.joins = some x := by
  rcases request with (⟨node, content⟩ | key | key) | node
  · simp only [Model.serve, Model.call] at member
    cases met : model.tree.search (side c (Function.update model.data node content) (c.keyOf content)) with
    | some y =>
      rw [ColorTree.insert_present met] at member
      exact .inl member
    | none =>
      obtain rfl | inside := List.mem_cons.mp (ColorTree.mem_of_insert met member)
      · exact .inr rfl
      · exact .inl inside
  · exact .inl member
  · exact .inl (ColorTree.mem_of_remove member)
  · exact .inl (ColorTree.mem_of_remove member)

theorem Ref.serve_data {request : Request ν δ κ} {x : ν} (other : request.joins ≠ some x) :
    (ref.serve c request).2.data x = ref.data x := by
  rcases request with (⟨node, content⟩ | key | key) | node
  · have apart : x ≠ node := fun same => other (same ▸ rfl)
    simp only [Ref.serve, Ref.call]
    cases ref.map (c.keyOf content) <;> exact Function.update_of_ne apart content ref.data
  · rfl
  · rfl
  · rfl

theorem Ref.stored_of_serve {request : Request ν δ κ} {key : κ} {x : ν}
    (stored : (ref.serve c request).2.map key = some x) : ref.map key = some x ∨ request.joins = some x := by
  have cleared {other : κ} (entry : Function.update ref.map other none key = some x) : ref.map key = some x := by
    by_cases here : key = other
    · subst here
      simp at entry
    · simpa only [Function.update_of_ne here] using entry
  rcases request with (⟨node, content⟩ | other | other) | node
  · simp only [Ref.serve, Ref.call] at stored
    cases found : ref.map (c.keyOf content) with
    | some y =>
      rw [found] at stored
      exact .inl stored
    | none =>
      rw [found] at stored
      by_cases here : key = c.keyOf content
      · subst here
        simp only [Function.update_self] at stored
        exact .inr stored
      · exact .inl (by simpa only [Function.update_of_ne here] using stored)
  · exact .inl stored
  · exact .inl (cleared stored)
  · exact .inl (cleared stored)

theorem Model.serve_size_le (request : Request ν δ κ) :
    (model.serve c request).2.tree.size ≤ model.tree.size + 1 := by
  cases request with
  | call call => exact model.call_size_le call
  | erase node => exact model.call_size_le _

theorem Model.serveAll_size_le (model : Model ν δ) (requests : List (Request ν δ κ)) :
    (model.serveAll c requests).2.tree.size ≤ model.tree.size + requests.length := by
  induction requests generalizing model with
  | nil => exact Nat.le_refl _
  | cons request rest ih =>
    have first : (model.serve c request).2.tree.size ≤ model.tree.size + 1 := Model.serve_size_le request
    have others := ih (model.serve c request).2
    simp only [Model.serveAll, List.length_cons]
    omega

theorem Ref.admitsAll_append {requests : List (Request ν δ κ)} {request : Request ν δ κ} :
    ref.AdmitsAll c (requests ++ [request]) ↔
      ref.AdmitsAll c requests ∧ (ref.serveAll c requests).2.Admits c request := by
  induction requests generalizing ref with
  | nil => simp [Ref.AdmitsAll, Ref.serveAll]
  | cons first rest ih => simp only [List.cons_append, Ref.AdmitsAll, Ref.serveAll, ih, and_assoc]

theorem Ref.admitsAll_of_append {before after : List (Request ν δ κ)}
    (admitted : ref.AdmitsAll c (before ++ after)) : ref.AdmitsAll c before := by
  induction before generalizing ref with
  | nil => trivial
  | cons first rest ih => exact ⟨admitted.1, ih admitted.2⟩

/-- Without direct removals a run of requests is a run of calls. -/
theorem Ref.serveAll_calls (ref : Ref ν δ κ) (calls : List (Call ν δ κ)) :
    ref.serveAll c (calls.map .call) = ref.run c calls := by
  induction calls generalizing ref with
  | nil => rfl
  | cons call rest ih => simp only [List.map_cons, Ref.serveAll, Ref.serve, ih, Ref.run]

theorem Ref.admitsAll_calls {calls : List (Call ν δ κ)} :
    ref.AdmitsAll c (calls.map .call) ↔ ref.AllowsAll c calls := by
  induction calls generalizing ref with
  | nil => exact Iff.rfl
  | cons call rest ih => simp only [List.map_cons, Ref.AdmitsAll, Ref.Admits, Ref.serve, ih, Ref.AllowsAll]

theorem Model.serveAll_calls (model : Model ν δ) (calls : List (Call ν δ κ)) :
    model.serveAll c (calls.map .call) = model.run c calls := by
  induction calls generalizing model with
  | nil => rfl
  | cons call rest ih => simp only [List.map_cons, Model.serveAll, Model.serve, ih, Model.run]

end

def recycle : List (Request Nat Int Int) := reuse.map .call ++ [.erase 1]

theorem recycle_admitted : (Ref.init fun _ => 0).AdmitsAll aNode recycle := by
  rw [recycle, Ref.admitsAll_append, Ref.admitsAll_calls, Ref.serveAll_calls]
  exact ⟨reuse_allowed, by simp only [Ref.Admits]; decide⟩

end Embedlib.Rb
