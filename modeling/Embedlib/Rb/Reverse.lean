import Embedlib.Rb.Requests
import Embedlib.Library.Mirror
import Mathlib.Order.OrderDual

/-! The same requests under the reversed order of the keys. -/

set_option autoImplicit false

namespace Embedlib.Rb

open Library OrderDual

variable {ν δ κ : Type}

def Call.reverse : Call ν δ κ → Call ν δ κᵒᵈ
  | .insert node content => .insert node content
  | .find key => .find (toDual key)
  | .remove key => .remove (toDual key)

def Request.reverse : Request ν δ κ → Request ν δ κᵒᵈ
  | .call request => .call request.reverse
  | .erase node => .erase node

def Ref.reverse (ref : Ref ν δ κ) : Ref ν δ κᵒᵈ := ⟨ref.data, fun key => ref.map (ofDual key)⟩

def Model.mirror (model : Model ν δ) : Model ν δ := ⟨model.data, model.tree.mirror⟩

section
variable [LinearOrder κ]

/-- The same keys under the reversed order. -/
def Reverses (c : Comparators δ κ) (c' : Comparators δ κᵒᵈ) : Prop :=
  ∀ content, c'.keyOf content = toDual (c.keyOf content)

variable {c : Comparators δ κ} {c' : Comparators δ κᵒᵈ} {ref : Ref ν δ κ}

theorem Reverses.side_eq (reverses : Reverses c c') (data : ν → δ) (key : κ) :
    side c' data (toDual key) = fun x => (side c data key x).map Dir.flip := by
  funext x
  simp only [side, toward, reverses (data x), toDual_lt_toDual]
  rcases lt_trichotomy key (c.keyOf (data x)) with less | same | greater
  · simp [less, less.not_gt, Dir.flip]
  · simp [same]
  · simp [greater, greater.not_gt, Dir.flip]

variable [DecidableEq ν]

theorem Reverses.call_eq (reverses : Reverses c c') (call : Call ν δ κ) :
    ref.reverse.call c' call.reverse = ((ref.call c call).1, (ref.call c call).2.reverse) := by
  cases call with
  | insert node content =>
    simp only [Ref.call, Call.reverse, Ref.reverse, reverses content, ofDual_toDual]
    cases ref.map (c.keyOf content) with
    | some stored => rfl
    | none => rfl
  | find key => rfl
  | remove key => rfl

omit [DecidableEq ν] in
theorem Reverses.allows (reverses : Reverses c c') {call : Call ν δ κ} (allowed : ref.Allows c call) :
    ref.reverse.Allows c' call.reverse := by
  cases call with
  | insert node content =>
    intro key stored
    rw [reverses content, allowed (ofDual key) stored, toDual_ofDual]
  | find key => trivial
  | remove key => trivial

theorem Reverses.serve_eq (reverses : Reverses c c') (request : Request ν δ κ) :
    ref.reverse.serve c' request.reverse = ((ref.serve c request).1, (ref.serve c request).2.reverse) := by
  cases request with
  | call call => exact reverses.call_eq call
  | erase node =>
    have erased : eraseCall c' ref.data node = (eraseCall c ref.data node).reverse := by
      rw [eraseCall, reverses]; rfl
    have same : ref.reverse.call c' (eraseCall c ref.data node).reverse = _ := reverses.call_eq _
    have data : ref.reverse.data = ref.data := rfl
    simp only [Request.reverse, Ref.serve, data, erased, same]

omit [DecidableEq ν] in
theorem Reverses.admits (reverses : Reverses c c') {request : Request ν δ κ}
    (admitted : ref.Admits c request) : ref.reverse.Admits c' request.reverse := by
  cases request with
  | call call => exact reverses.allows admitted
  | erase node =>
    have stored : ref.map (ofDual (c'.keyOf (ref.data node))) = some node := by
      rw [reverses, ofDual_toDual]; exact admitted
    exact stored

theorem Reverses.admitsAll (reverses : Reverses c c') {requests : List (Request ν δ κ)}
    (admitted : ref.AdmitsAll c requests) :
    ref.reverse.AdmitsAll c' (requests.map Request.reverse) := by
  induction requests generalizing ref with
  | nil => trivial
  | cons request rest ih =>
    obtain ⟨here, others⟩ := admitted
    rw [List.map_cons, Ref.AdmitsAll, reverses.serve_eq request]
    exact ⟨reverses.admits here, ih others⟩

/-- The element that is found under the key has at most one child. -/
def Model.Slim (c : Comparators δ κ) (model : Model ν δ) (key : κ) : Prop :=
  ∀ x, model.tree.search (side c model.data key) = some x → ∃ d e u,
    (Spine.descend (side c model.data key) [] model.tree).2 = .join d e .nil x u

variable {model : Model ν δ}

theorem Reverses.mirror_call (reverses : Reverses c c') {call : Call ν δ κ}
    (slim : ∀ key, call = .remove key → model.Slim c key) :
    model.mirror.call c' call.reverse = ((model.call c call).1, (model.call c call).2.mirror) := by
  cases call with
  | insert node content =>
    simp only [Model.call, Call.reverse, Model.mirror, reverses content, reverses.side_eq,
      ColorTree.mirror_search, ColorTree.mirror_insert]
  | find key =>
    simp only [Model.call, Call.reverse, Model.mirror, reverses.side_eq, ColorTree.mirror_search]
  | remove key =>
    simp only [Model.call, Call.reverse, Model.mirror, reverses.side_eq, ColorTree.mirror_search,
      ColorTree.mirror_remove _ _ (slim key rfl)]

def Request.removedKey (c : Comparators δ κ) (data : ν → δ) : Request ν δ κ → Option κ
  | .call (.insert _ _) => none
  | .call (.find _) => none
  | .call (.remove key) => some key
  | .erase node => some (c.keyOf (data node))

theorem Reverses.mirror_serve (reverses : Reverses c c') {request : Request ν δ κ}
    (slim : ∀ key, request.removedKey c model.data = some key → model.Slim c key) :
    model.mirror.serve c' request.reverse =
      ((model.serve c request).1, (model.serve c request).2.mirror) := by
  cases request with
  | call call =>
    refine reverses.mirror_call fun key removes => slim key ?_
    rw [removes]
    rfl
  | erase node =>
    have erased : eraseCall c' model.data node = (eraseCall c model.data node).reverse := by
      rw [eraseCall, reverses]; rfl
    have same : model.mirror.call c' (eraseCall c model.data node).reverse = _ :=
      reverses.mirror_call fun key removes => slim key (congrArg some (Call.remove.inj removes))
    have data : model.mirror.data = model.data := rfl
    simp only [Request.reverse, Model.serve, data, erased, same]

end

end Embedlib.Rb
