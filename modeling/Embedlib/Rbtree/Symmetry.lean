import Embedlib.Rbtree.Iteration
import Embedlib.Rb.Reverse

/-! Left and right in the tree with parent pointers: the same requests under the
reversed order build the mirror image. -/

set_option autoImplicit false

namespace Embedlib.Rbtree

open Library Rb Spine OrderDual

variable {ν δ κ : Type}

/-- The second store holds the mirror image of the tree in the first, node for node. -/
structure Mirrors (store reversed : Store ν δ) (tree : ColorTree ν) : Prop where
  shows : Library.Shows nodeRecord store.mem store.root tree
  reversed_shows : Library.Shows nodeRecord reversed.mem reversed.root tree.mirror
  same_root : reversed.root = store.root
  swapped : ∀ x ∈ tree.toList, ∀ d, (reversed.mem x).child d = (store.mem x).child d.flip
  same_parent : ∀ x ∈ tree.toList, (reversed.mem x).parent = (store.mem x).parent
  same_color : ∀ x ∈ tree.toList, (reversed.mem x).color = (store.mem x).color

theorem mirrors_of_shows {store reversed : Store ν δ} {tree : ColorTree ν}
    (shows : Library.Shows nodeRecord store.mem store.root tree)
    (mirrored : Library.Shows nodeRecord reversed.mem reversed.root tree.mirror) :
    Mirrors store reversed tree := by
  have same : ∀ x ∈ tree.toList, ∃ up c l r, store.mem x = ⟨up, c, l, r⟩ ∧ reversed.mem x = ⟨up, c, r, l⟩ := by
    intro x member
    obtain ⟨a, b, listed⟩ := List.append_of_mem member
    obtain ⟨sp, c, l, r, rfl, _⟩ := exists_focus listed
    rw [mirror_plug] at mirrored
    have here : reversed.mem x = recordAt nodeRecord .left (top sp.mirror) c r.mirror.root l.mirror.root :=
      mirrored.node_eq (d := .left)
    rw [mirror_top, ColorTree.mirror_root, ColorTree.mirror_root] at here
    exact ⟨_, _, _, _, shows.node_eq (d := .left), here⟩
  refine ⟨shows, mirrored, ?_, ?_, ?_, ?_⟩
  · rw [shows.root_eq, mirrored.root_eq, ColorTree.mirror_root]
  all_goals
    intro x member
    obtain ⟨up, c, l, r, first, second⟩ := same x member
    rw [first, second]
  rintro (_ | _) <;> rfl

section
variable [DecidableEq ν] [LinearOrder κ]

def removed (result : Ptr ν) : Request ν δ κ → Ptr ν
  | .call (.insert _ _) => none
  | .call (.find _) => none
  | .call (.remove _) => result
  | .erase node => some node

/-- Every node that the requests take out has at most one child at that moment. -/
def Store.Slim (c : Comparators δ κ) (fuel : Nat) (store : Store ν δ) : List (Request ν δ κ) → Prop
  | [] => True
  | request :: rest => match store.serve c fuel request with
    | .error _ => True
    | .ok (result, after) =>
      (∀ x ∈ removed result request, (store.mem x).left = none ∨ (store.mem x).right = none) ∧
        after.Slim c fuel rest

instance decidableSlim (c : Comparators δ κ) (fuel : Nat) :
    (store : Store ν δ) → (requests : List (Request ν δ κ)) → Decidable (store.Slim c fuel requests)
  | _, [] => isTrue trivial
  | store, request :: rest =>
    match served : store.serve c fuel request with
    | .error _ => isTrue (by simp [Store.Slim, served])
    | .ok (result, after) =>
      have := decidableSlim c fuel after rest
      decidable_of_iff ((∀ x ∈ removed result request,
        (store.mem x).left = none ∨ (store.mem x).right = none) ∧ after.Slim c fuel rest)
        (by simp [Store.Slim, served])

variable {c : Comparators δ κ} {c' : Comparators δ κᵒᵈ} {store : Store ν δ} {model : Model ν δ}
  {ref : Ref ν δ κ} {fuel : Nat}

omit [DecidableEq ν] [LinearOrder κ] in
theorem slim_join {mem : Records ν} {root : Ptr ν} {sp : Spine ν} {e : Color} {l r : ColorTree ν} {x : ν}
    (shows : Library.Shows nodeRecord mem root (plug sp (.node e l x r)))
    (slim : (mem x).left = none ∨ (mem x).right = none) :
    ∃ d u, ColorTree.node e l x r = .join d e .nil x u := by
  rw [shows.node_eq (d := .left)] at slim
  rcases slim with left | right
  · exact ⟨.left, r, by rw [ColorTree.root_eq_none.mp left]; rfl⟩
  · exact ⟨.right, l, by rw [ColorTree.root_eq_none.mp right]; rfl⟩

theorem slim_model (shows : store.Shows model) (keeps : Keeps c model ref) {request : Request ν δ κ}
    (admitted : ref.Admits c request)
    (slim : ∀ x ∈ removed (model.serve c request).1 request,
      (store.mem x).left = none ∨ (store.mem x).right = none) {key : κ}
    (removes : request.removedKey c model.data = some key) : model.Slim c key := by
  intro x met
  obtain ⟨e, l, r, here, whole⟩ := ColorTree.search_some met
  have tree := shows.tree
  rw [← whole] at tree
  have gone : removed (model.serve c request).1 request = some x := by
    rcases request with (_ | _ | key) | node
    · cases removes
    · cases removes
    · obtain rfl := Option.some.inj removes
      exact met
    · obtain rfl := Option.some.inj removes
      rw [keeps.data_eq] at met
      exact admitted.symm.trans ((keeps.lists.search_eq _).symm.trans met)
  obtain ⟨d, u, one⟩ := slim_join tree (slim x gone)
  exact ⟨d, e, u, here.trans one⟩

theorem Store.Slim.mirror (reverses : Reverses c c') {requests : List (Request ν δ κ)}
    (slim : store.Slim c fuel requests) (shows : store.Shows model) (keeps : Keeps c model ref)
    (admitted : ref.AdmitsAll c requests) (enough : model.tree.size + requests.length ≤ fuel) :
    model.mirror.serveAll c' (requests.map Request.reverse) =
      ((model.serveAll c requests).1, (model.serveAll c requests).2.mirror) := by
  induction requests generalizing store model ref with
  | nil => rfl
  | cons request rest ih =>
    obtain ⟨here, others⟩ := admitted
    rw [List.length_cons] at enough
    have low := ColorTree.height_le_size model.tree
    have grown : (model.serve c request).2.tree.size ≤ model.tree.size + 1 := Model.serve_size_le request
    obtain ⟨result, after, ran, sound⟩ := Store.serve_sound shows keeps here (show _ < fuel by omega)
    rw [Store.Slim, ran] at slim
    obtain ⟨thin, slim'⟩ := slim
    rw [sound.result_eq] at thin
    have first := reverses.mirror_serve fun key removes => slim_model shows keeps here thin removes
    have rested := ih slim' sound.shows (keeps.serve here).2 others (by omega)
    simp only [List.map_cons, Model.serveAll, first, rested]

omit [DecidableEq ν] [LinearOrder κ] in
theorem Mirrors.step [DecidableEq ν] {reversed : Store ν δ} {tree : ColorTree ν} {x : ν}
    (mirrors : Mirrors store reversed tree) (member : x ∈ tree.toList) (enough : tree.height < fuel) :
    ∃ next prev, store.perform (rbNext fuel (some x)) = .ok (next, store) ∧
      reversed.perform (rbPrev fuel (some x)) = .ok (next, reversed) ∧
      store.perform (rbPrev fuel (some x)) = .ok (prev, store) ∧
      reversed.perform (rbNext fuel (some x)) = .ok (prev, reversed) := by
  obtain ⟨a, b, listed⟩ := List.append_of_mem member
  have listed' : tree.mirror.toList = b.reverse ++ x :: a.reverse := by
    rw [ColorTree.mirror_toList, listed]; simp
  obtain ⟨next, prev⟩ := Store.next_eq mirrors.shows enough listed
  obtain ⟨next', prev'⟩ := Store.next_eq mirrors.reversed_shows
    (by rw [ColorTree.mirror_height]; exact enough) listed'
  rw [List.getLast?_reverse] at prev'
  rw [List.head?_reverse] at next'
  exact ⟨b.head?, a.getLast?, next, prev', prev, next'⟩

theorem Store.Slim.of_append {before after : List (Request ν δ κ)}
    (slim : store.Slim c fuel (before ++ after)) : store.Slim c fuel before := by
  induction before generalizing store with
  | nil => trivial
  | cons request rest ih =>
    simp only [List.cons_append, Store.Slim] at slim ⊢
    split at slim
    · trivial
    · exact ⟨slim.1, ih slim.2⟩

end

section
variable [LinearOrder κ] [DecidableEq ν] (c : Comparators δ κ) (c' : Comparators δ κᵒᵈ)

/-- Insertions and removals of nodes with at most one child build, under the
reversed order, the mirror image at every step. -/
theorem serveAll_mirrors (reverses : Reverses c c') (mem mem' : Records ν) (data : ν → δ)
    (requests : List (Request ν δ κ)) (admitted : (Ref.init data).AdmitsAll c requests) {fuel : Nat}
    (enough : requests.length < fuel) (slim : (Store.init mem data).Slim c fuel requests) :
    ∀ before after, requests = before ++ after → ∃ results store reversed tree,
      (Store.init mem data).serveAll c fuel before = .ok (results, store) ∧
      (Store.init mem' data).serveAll c' fuel (before.map Request.reverse) = .ok (results, reversed) ∧
      Mirrors store reversed tree ∧
      ∀ x ∈ tree.toList, ∃ next prev,
        store.perform (rbNext fuel (some x)) = .ok (next, store) ∧
        reversed.perform (rbPrev fuel (some x)) = .ok (next, reversed) ∧
        store.perform (rbPrev fuel (some x)) = .ok (prev, store) ∧
        reversed.perform (rbNext fuel (some x)) = .ok (prev, reversed) := by
  rintro before after rfl
  rw [List.length_append] at enough
  have admitted := Ref.admitsAll_of_append admitted
  have started := keeps_init (c := c) data
  have mirrored := slim.of_append.mirror reverses (store_init_shows mem data) started admitted
    (show _ ≤ fuel by simp only [Model.init, ColorTree.size]; omega)
  obtain ⟨store, model, ran, rfl, shows, keeps, small⟩ := serveAll_init mem admitted (show _ ≤ fuel by omega)
  have admitted' : (Ref.init data).AdmitsAll c' (before.map Request.reverse) := reverses.admitsAll admitted
  obtain ⟨reversed, model', ran', rfl, shows', keeps', _⟩ := serveAll_init mem' admitted'
    (show _ ≤ fuel by rw [List.length_map]; omega)
  have same : (Model.init data).serveAll c' (before.map Request.reverse) = _ := mirrored
  -- The reference does not look at the order, so both runs give its answers.
  have answers : ((Ref.init data).serveAll c' (before.map Request.reverse)).1 =
      ((Ref.init data).serveAll c before).1 := by
    rw [← ((keeps_init data).serveAll admitted').1, ← ((keeps_init data).serveAll admitted).1, same]
  have tree' := shows'.tree
  rw [same] at tree'
  have mirrors : Mirrors store reversed ((Model.init data).serveAll c before).2.tree :=
    mirrors_of_shows shows.tree tree'
  have low := ColorTree.height_le_size ((Model.init data).serveAll c before).2.tree
  refine ⟨_, store, reversed, _, ran, answers ▸ ran', mirrors, fun x member => ?_⟩
  exact mirrors.step member (by omega)

def aNodeDown : Comparators Int Intᵒᵈ where
  keyOf val := toDual val
  cmp n1 n2 := n2 - n1
  keyCmp key n := n - ofDual key
  cmp_neg _ _ := by rw [toDual_lt_toDual]; omega
  cmp_pos _ _ := by rw [toDual_lt_toDual]; omega
  keyCmp_neg k b := by rw [← toDual_ofDual k, toDual_lt_toDual, ofDual_toDual]; omega
  keyCmp_pos k b := by rw [← toDual_ofDual k, toDual_lt_toDual, ofDual_toDual]; omega

def slender : List (Request Nat Int Int) :=
  [.call (.insert 1 10), .call (.insert 2 20), .call (.remove 10), .call (.insert 3 30),
    .call (.insert 1 10), .erase 3]

theorem serveAll_mirrors_slender :
    ∃ results store reversed tree,
      (Store.init (fun _ => ⟨none, .red, none, none⟩) fun _ => 0).serveAll aNode 7 (slender.take 5) =
        .ok (results, store) ∧
      (Store.init (fun _ => ⟨none, .black, none, none⟩) fun _ => 0).serveAll aNodeDown 7
        ((slender.take 5).map Request.reverse) = .ok (results, reversed) ∧
      Mirrors store reversed tree ∧
      ∀ x ∈ tree.toList, ∃ next prev,
        store.perform (rbNext 7 (some x)) = .ok (next, store) ∧
        reversed.perform (rbPrev 7 (some x)) = .ok (next, reversed) ∧
        store.perform (rbPrev 7 (some x)) = .ok (prev, store) ∧
        reversed.perform (rbNext 7 (some x)) = .ok (prev, reversed) :=
  serveAll_mirrors aNode aNodeDown (fun _ => rfl) _ _ _ slender
    (by
      simp [slender, Ref.AdmitsAll, Ref.Admits, Ref.Allows, Ref.serve, Ref.call, Ref.init, aNode,
        Function.update_apply]
      grind)
    (by decide) (by decide +kernel) _ (slender.drop 5) rfl

end

end Embedlib.Rbtree
