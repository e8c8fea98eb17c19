import Embedlib.Rbtree.Rules
import Embedlib.Library.Cursor

/-! The walks through the tree: down to an outermost node, down by a key, and up. -/

set_option autoImplicit false

namespace Embedlib.Rbtree

open Library Rb Spine

variable {ν : Type} {s : State ν} {sp : Spine ν} {t : ColorTree ν} {fuel : Nat}

theorem ensures_walk {d : Dir} {post : Ptr ν → State ν → Prop} (shows : s.Shows (sp.plug t))
    (present : t ≠ .nil) (enough : t.height ≤ fuel) (holds : post (outermost d sp t).2.root s) :
    Ensures (loop (walkRound d) fuel t.root) post s := by
  induction fuel generalizing sp t with
  | zero => cases t with
    | nil => exact absurd rfl present
    | node => simp [ColorTree.height] at enough
  | succ fuel ih =>
    obtain _ | ⟨c, l, x, r⟩ := t
    · exact absurd rfl present
    obtain ⟨c, near, far, same⟩ := ColorTree.exists_join (t := .node c l x r) rfl d
    rw [same] at shows enough holds ⊢
    rw [ColorTree.join_height] at enough
    rw [ensures_loop_succ, ColorTree.join_root]
    unfold walkRound
    simp only [ensures_bind, ensures_rbChild, shows.node_eq, nodeRecord_near]
    obtain _ | ⟨e, a, y, b⟩ := near
    · rw [outermost_stop, ColorTree.join_root] at holds
      exact holds
    · rw [outermost_step d sp c x far (t := .node e a y b) ColorTree.node_ne_nil] at holds
      exact ih shows.near ColorTree.node_ne_nil (by omega) holds

theorem ensures_findLoop {κ : Type} {keyCmp : κ → ν → Int} {key : κ} {side : ν → Option Dir}
    {post : Ptr ν → State ν → Prop} (compares : ∀ x, sideOf (keyCmp key x) = side x)
    (shows : s.Shows (sp.plug t)) (enough : t.height < fuel)
    (holds : post (descend side sp t).2.root s) :
    Ensures (loop (rbFindRound keyCmp key) fuel t.root) post s := by
  induction fuel generalizing sp t with
  | zero => omega
  | succ fuel ih =>
    rw [ensures_loop_succ]
    obtain _ | ⟨c, l, x, r⟩ := t
    · exact holds
    cases turn : side x with
    | none =>
      rw [descend_here turn] at holds
      simpa [ColorTree.root, rbFindRound, compares, turn] using holds
    | some d =>
      obtain ⟨c, near, far, same⟩ := ColorTree.exists_join (t := .node c l x r) rfl d
      rw [same] at shows enough holds ⊢
      rw [ColorTree.join_height] at enough
      rw [descend_step turn] at holds
      simp only [ColorTree.join_root, rbFindRound, compares, turn, ensures_bind, ensures_rbChild,
        shows.node_eq, nodeRecord_near, ensures_pure, Turn.meets_again]
      exact ih shows.near (by omega) holds

/-- The search of `RB_INSERT` ends at an equal node or below the last one. -/
theorem ensures_insertSearch {cmp : ν → ν → Int} {node x : ν} {side : ν → Option Dir}
    {post : ν ⊕ ν × Dir → State ν → Prop} (compares : ∀ y, sideOf (cmp node y) = side y)
    (shows : s.Shows (sp.plug t)) (enough : t.height ≤ fuel) (start : t.root = some x)
    (found : ∀ y, (descend side sp t).2.root = some y → post (.inl y) s)
    (missed : ∀ f rest, descend side sp t = (f :: rest, .nil) → post (.inr (f.value, f.dir)) s) :
    Ensures (loop (rbInsertRound cmp node) fuel x) post s := by
  induction fuel generalizing sp t x with
  | zero => cases t with
    | nil => cases start
    | node => simp [ColorTree.height] at enough
  | succ fuel ih =>
    rw [ensures_loop_succ]
    obtain _ | ⟨c, l, y, r⟩ := t
    · cases start
    obtain rfl : y = x := Option.some.inj start
    cases turn : side y with
    | none =>
      rw [descend_here turn] at found
      simpa [rbInsertRound, compares, turn] using found y rfl
    | some d =>
      obtain ⟨c, near, far, same⟩ := ColorTree.exists_join (t := .node c l y r) rfl d
      rw [same] at shows enough found missed
      rw [ColorTree.join_height] at enough
      rw [descend_step turn] at found missed
      simp only [rbInsertRound, compares, turn, ensures_bind, ensures_rbChild, shows.node_eq,
        nodeRecord_near]
      cases near with
      | nil => exact missed _ _ rfl
      | node e a z b => exact ih shows.near (by omega) rfl found missed

end Embedlib.Rbtree
