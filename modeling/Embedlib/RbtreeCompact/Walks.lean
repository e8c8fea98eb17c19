import Embedlib.RbtreeCompact.Rules
import Embedlib.Library.OrderedMap

/-! The walks along the path: down to an outermost node, down by a key, and up. -/

set_option autoImplicit false

namespace Embedlib.RbtreeCompact

open Library Rb Spine

variable {ν : Type} [DecidableEq ν] {s : State (Records ν) ν}

theorem ensures_walk {d : Dir} {sp : Spine ν} {t : ColorTree ν} {top fuel : Nat}
    {post : Ptr ν → State (Records ν) ν → Prop} (shows : s.Shows (sp.plug t)) (place : s.At sp)
    (within : s.Within top) (present : t ≠ .nil) (room : sp.length + t.height ≤ top)
    (enough : t.height ≤ fuel)
    (holds : ∀ s', s'.mem = s.mem → s'.root = s.root → s'.At (outermost d sp t).1 → s'.Within top →
      post (outermost d sp t).2.root s') : Ensures (loop (walkRound d) fuel t.root) post s := by
  induction fuel generalizing sp t s with
  | zero => cases t with
    | nil => exact absurd rfl present
    | node => simp [ColorTree.height] at enough
  | succ fuel ih =>
    obtain _ | ⟨c, l, x, r⟩ := t
    · exact absurd rfl present
    obtain ⟨c, near, far, same⟩ := ColorTree.exists_join (t := .node c l x r) rfl d
    rw [same] at shows room enough holds ⊢
    rw [ColorTree.join_height] at room enough
    rw [ensures_loop_succ, ColorTree.join_root]
    simp only [walkRound, ensures_bind, ensures_rbChild, records_child, shows.node_eq, nodeRecord_near]
    obtain _ | ⟨e, a, y, b⟩ := near
    · rw [outermost_stop, ColorTree.join_root] at holds
      exact holds s rfl rfl place within
    · have step := outermost_step d sp c x far (t := .node e a y b) ColorTree.node_ne_nil
      rw [step] at holds
      simp only [ColorTree.root, ensures_bind]
      apply ensures_push (c := c) (u := far) place
      intro s₁ mem₁ root₁ place₁ written₁
      have within₁ := within.push (by omega) written₁
      refine ih (State.Shows.same_heap shows.near mem₁ root₁) place₁ within₁ ColorTree.node_ne_nil
        (by rw [List.length_cons]; omega) (by omega) fun s₂ mem₂ root₂ place₂ within₂ => ?_
      exact holds s₂ (mem₂.trans mem₁) (root₂.trans root₁) place₂ within₂

/-- Every entry up to the current one was written. -/
def State.Filled (s : State (Records ν) ν) : Prop := ∀ i ≤ s.rp.cur, i ∈ s.written

omit [DecidableEq ν] in
theorem State.Filled.push {s' : State (Records ν) ν} {sp : Spine ν} {f : Frame ν} (filled : s.Filled)
    (place : s.At sp) (place' : s'.At (f :: sp))
    (written : s'.written = (sp.length + 1) :: (sp.length + 1) :: s.written) : s'.Filled := by
  intro i less
  rw [place'.cur_eq, List.length_cons] at less
  rw [written, List.mem_cons, List.mem_cons]
  rcases Nat.lt_or_ge sp.length i with above | below
  · exact .inl (by omega)
  · exact .inr (.inr (filled i (by rw [place.cur_eq]; exact below)))

theorem ensures_findLoop {κ : Type} {keyCmp : κ → ν → Int} {key : κ} {side : ν → Option Dir}
    {sp : Spine ν} {t : ColorTree ν} {top fuel : Nat} {post : Ptr ν → State (Records ν) ν → Prop}
    (compares : ∀ x, sideOf (keyCmp key x) = side x) (shows : s.Shows (sp.plug t)) (place : s.At sp)
    (within : s.Within top) (room : sp.length + t.height ≤ top) (enough : t.height < fuel)
    (holds : ∀ s', s'.mem = s.mem → s'.root = s.root → s'.At (descend side sp t).1 → s'.Within top →
      (s.Filled → s'.Filled) → post (descend side sp t).2.root s') :
    Ensures (loop (rbFindRound keyCmp key) fuel t.root) post s := by
  induction fuel generalizing sp t s with
  | zero => omega
  | succ fuel ih =>
    rw [ensures_loop_succ]
    obtain _ | ⟨c, l, x, r⟩ := t
    · exact holds s rfl rfl place within id
    cases turn : side x with
    | none =>
      rw [descend_here turn] at holds
      simpa [ColorTree.root, rbFindRound, compares, turn] using holds s rfl rfl place within
    | some d =>
      obtain ⟨c, near, far, same⟩ := ColorTree.exists_join (t := .node c l x r) rfl d
      rw [same] at shows room enough holds ⊢
      rw [ColorTree.join_height] at room enough
      rw [descend_step turn] at holds
      simp only [ColorTree.join_root, rbFindRound, compares, turn, ensures_bind]
      apply ensures_push (c := c) (u := far) place
      intro s₁ mem₁ root₁ place₁ written₁
      have within₁ := within.push (by omega) written₁
      simp only [ensures_rbChild, records_child, mem₁, shows.node_eq, nodeRecord_near, ensures_pure,
        Turn.meets_again]
      refine ih (State.Shows.same_heap shows.near mem₁ root₁) place₁ within₁
        (by rw [List.length_cons]; omega) (by omega) fun s₂ mem₂ root₂ place₂ within₂ filled₂ => ?_
      exact holds s₂ (mem₂.trans mem₁) (root₂.trans root₁) place₂ within₂
        fun filled => filled₂ (filled.push place place₁ written₁)

theorem ensures_insertSearch {cmp : ν → ν → Int} {node x : ν} {side : ν → Option Dir}
    {sp : Spine ν} {t : ColorTree ν} {top fuel : Nat} {post : ν ⊕ Dir → State (Records ν) ν → Prop}
    (compares : ∀ y, sideOf (cmp node y) = side y) (shows : s.Shows (sp.plug t)) (place : s.At sp)
    (within : s.Within top) (room : sp.length + t.height ≤ top) (enough : t.height ≤ fuel)
    (start : t.root = some x)
    (found : ∀ s' y, s'.mem = s.mem → s'.root = s.root → s'.Within top →
      (descend side sp t).2.root = some y → post (.inl y) s')
    (missed : ∀ s' f rest, s'.mem = s.mem → s'.root = s.root → s'.At (f :: rest) → s'.Within top →
      descend side sp t = (f :: rest, .nil) → post (.inr f.dir) s') :
    Ensures (loop (rbInsertRound cmp node) fuel x) post s := by
  induction fuel generalizing sp t s x with
  | zero => cases t with
    | nil => cases start
    | node => simp [ColorTree.height] at enough
  | succ fuel ih =>
    rw [ensures_loop_succ]
    obtain _ | ⟨c, l, y, r⟩ := t
    · cases start
    obtain rfl : y = x := Option.some.inj start
    cases turn : side y with
    | none =>
      rw [descend_here turn] at found
      simpa [rbInsertRound, compares, turn] using found s y rfl rfl within rfl
    | some d =>
      obtain ⟨c, near, far, same⟩ := ColorTree.exists_join (t := .node c l y r) rfl d
      rw [same] at shows room enough found missed
      rw [ColorTree.join_height] at room enough
      rw [descend_step turn] at found missed
      simp only [rbInsertRound, compares, turn, ensures_bind]
      apply ensures_push (c := c) (u := far) place
      intro s₁ mem₁ root₁ place₁ written₁
      have within₁ := within.push (by omega) written₁
      simp only [ensures_rbChild, records_child, mem₁, shows.node_eq, nodeRecord_near]
      cases near with
      | nil => exact missed s₁ _ _ mem₁ root₁ place₁ within₁ rfl
      | node e a z b =>
        refine ih (State.Shows.same_heap shows.near mem₁ root₁) place₁ within₁
          (by rw [List.length_cons]; omega) (by omega) rfl ?_ ?_
        · exact fun s₂ w mem₂ root₂ => found s₂ w (mem₂.trans mem₁) (root₂.trans root₁)
        · exact fun s₂ f rest mem₂ root₂ => missed s₂ f rest (mem₂.trans mem₁) (root₂.trans root₁)

end Embedlib.RbtreeCompact
