import Embedlib.RbtreeCompact.InsertColor
import Embedlib.RbtreeCompact.Remove

/-! What `RB_INSERT`, `RB_FIND` and `RB_REMOVE` do to the tree, for comparators
that send a search in the direction `side`. -/

set_option autoImplicit false

namespace Embedlib.RbtreeCompact

open Library Rb Spine

variable {ν κ : Type} [DecidableEq ν] {s : State (Records ν) ν} {t : ColorTree ν}
  {side : ν → Option Dir} {top fuel : Nat}

omit [DecidableEq ν] in
theorem State.Within.init {s' : State (Records ν) ν} (within : s.Within top)
    (written : s'.written = 0 :: s.written) : s'.Within top := by
  unfold State.Within
  rw [written]
  exact List.forall_mem_cons.mpr ⟨Nat.zero_le _, within⟩

theorem ensures_rbFind {keyCmp : κ → ν → Int} {key : κ} {post : Ptr ν → State (Records ν) ν → Prop}
    (compares : ∀ x, sideOf (keyCmp key x) = side x) (shows : s.Shows t) (within : s.Within top)
    (room : t.height ≤ top) (enough : t.height < fuel)
    (holds : ∀ s', s'.mem = s.mem → s'.root = s.root → s'.At (descend side [] t).1 → s'.Within top →
      s'.Filled → post (descend side [] t).2.root s') :
    Ensures (rbFind keyCmp fuel key) post s := by
  unfold rbFind
  simp only [ensures_bind]
  apply ensures_rbPathInit
  intro s₁ mem₁ root₁ place₁ written₁
  have shows₁ : s₁.Shows t := shows.same_heap mem₁ root₁
  have whole : s₁.Shows (plug [] t) := shows₁
  have root : s₁.root = t.root := shows₁.root_eq
  simp only [ensures_get, root]
  have filled : s₁.Filled := fun i less => by
    rw [place₁.cur_eq, List.length_nil] at less
    rw [written₁, Nat.le_zero.mp less]
    exact List.mem_cons_self
  exact ensures_findLoop compares whole place₁ (within.init written₁) (by simpa using room) enough
    fun s₂ mem₂ root₂ place₂ within₂ filled₂ =>
      holds s₂ (mem₂.trans mem₁) (root₂.trans root₁) place₂ within₂ (filled₂ filled)

theorem ensures_remove_absent {keyCmp : κ → ν → Int} {key : κ}
    {post : Ptr ν → State (Records ν) ν → Prop} (compares : ∀ x, sideOf (keyCmp key x) = side x)
    (shows : s.Shows t) (within : s.Within top) (room : t.height ≤ top) (enough : t.height < fuel)
    (absent : (descend side [] t).2.root = none)
    (holds : ∀ s', s'.mem = s.mem → s'.root = s.root → s'.Within top → post none s') :
    Ensures (rbRemoveKey keyCmp fuel key) post s := by
  unfold rbRemoveKey
  simp only [ensures_bind]
  apply ensures_rbFind compares shows within room enough
  intro s₁ mem₁ root₁ _ within₁ _
  rw [absent]
  exact holds s₁ mem₁ root₁ within₁

theorem ensures_remove_present {keyCmp : κ → ν → Int} {key : κ} {x : ν}
    {post : Ptr ν → State (Records ν) ν → Prop} (compares : ∀ x, sideOf (keyCmp key x) = side x)
    (shows : s.Shows t) (redBlack : IsRedBlack t) (within : s.Within top) (room : t.height ≤ top)
    (enough : t.height < fuel) (present : (descend side [] t).2.root = some x)
    (holds : ∀ s', s'.Shows (removeAt (descend side [] t).1 (descend side [] t).2) → s'.Within top →
      post (some x) s') :
    Ensures (rbRemoveKey keyCmp fuel key) post s := by
  unfold rbRemoveKey
  simp only [ensures_bind]
  apply ensures_rbFind compares shows within room enough
  intro s₁ mem₁ root₁ place₁ within₁ _
  have whole := descend_plug side [] t
  revert place₁ present holds whole
  generalize (descend side [] t).1 = sp
  generalize (descend side [] t).2 = u
  intro present holds place₁ whole
  obtain _ | ⟨c, l, y, r⟩ := u
  · cases present
  obtain rfl : y = x := Option.some.inj present
  rw [plug_nil] at whole
  rw [← whole] at shows redBlack room enough
  simp only [ColorTree.root, ensures_bind, ensures_pure]
  exact ensures_rbRemove (shows.same_heap mem₁ root₁) place₁ redBlack within₁ room (by omega) holds

theorem ensures_insert_present {cmp : ν → ν → Int} {node x : ν}
    {post : Ptr ν → State (Records ν) ν → Prop} (compares : ∀ y, sideOf (cmp node y) = side y)
    (shows : s.Shows t) (within : s.Within top) (room : t.height ≤ top) (enough : t.height < fuel)
    (present : (descend side [] t).2.root = some x)
    (holds : ∀ s', s'.mem = s.mem → s'.root = s.root → s'.Within top → post (some x) s') :
    Ensures (rbInsert cmp fuel node) post s := by
  unfold rbInsert
  simp only [ensures_bind]
  apply ensures_rbPathInit
  intro s₁ mem₁ root₁ place₁ written₁
  have whole : s₁.Shows (plug [] t) := shows.same_heap mem₁ root₁
  obtain _ | ⟨c, l, y, r⟩ := t
  · cases present
  have root : s₁.root = some y := whole.root_eq
  simp only [ensures_get, root, ensures_bind]
  refine ensures_insertSearch compares whole place₁ (within.init written₁) (by simpa using room)
    (by omega) rfl ?_ ?_
  · intro s₂ z mem₂ root₂ within₂ found
    obtain rfl : x = z := Option.some.inj (present.symm.trans found)
    exact holds s₂ (mem₂.trans mem₁) (root₂.trans root₁) within₂
  · intro s₂ f rest _ _ _ _ missed
    rw [missed] at present
    cases present

/-- The new node is linked in at an empty place; its own words are set afterwards. -/
theorem ensures_rbInsertNew {s₀ : State (Records ν) ν} {node : ν} {sp : Spine ν}
    {post : Ptr ν → State (Records ν) ν → Prop} (shows : s₀.Shows (sp.plug .nil))
    (redBlack : IsRedBlack (sp.plug .nil)) (fresh : node ∉ sp.nodes) (place : s.At sp)
    (rooted : s.root = sp.rootOf (some node))
    (linked : ∀ f rest, sp = f :: rest →
      s.mem f.value = recordAt nodeRecord f.dir (Spine.top rest) f.color (some node) f.sibling.root)
    (same : ∀ z, sp.top ≠ some z → s.mem z = s₀.mem z) (enough : sp.length < fuel)
    (holds : ∀ s', s'.Shows (insertAt sp node) → s'.written = s.written → post (some node) s') :
    Ensures (rbInsertNew fuel node) post s := by
  unfold rbInsertNew
  simp only [ensures_bind, ensures_rbSetLeftChildColor, ensures_rbSetRightChild,
    ensures_pure]
  have untouched : ∀ z, z ≠ node → NodeMemory.setRightChild
      (NodeMemory.setLeftChildColor s.mem node none .red) node none z = s.mem z := by
    intro z other
    simp [modify_of_ne, other]
  have apart : ∀ z ∈ nodes sp, z ≠ node := fun z member => ne_of_mem_of_not_mem member fresh
  have attached : Library.Shows nodeRecord (NodeMemory.setRightChild
      (NodeMemory.setLeftChildColor s.mem node none .red) node none) s.root
      (sp.plug (.node .red .nil node .nil)) := by
    refine shows.attach fresh rooted (by simp [nodeRecord]) ?_ fun z member other => ?_
    · rintro f rest rfl
      exact (untouched _ (apart _ (by simp [nodes]))).trans (linked f rest rfl)
    · exact (untouched z (apart z member)).trans (same z other)
  exact ensures_rbInsertColor attached ⟨place.cur_eq, place.follows⟩ (fits_leaf redBlack)
    (balanced_leaf node) rfl enough holds

theorem ensures_insert_absent {cmp : ν → ν → Int} {node : ν}
    {post : Ptr ν → State (Records ν) ν → Prop} (compares : ∀ y, sideOf (cmp node y) = side y)
    (shows : s.Shows t) (redBlack : IsRedBlack t) (fresh : node ∉ t.toList) (within : s.Within top)
    (room : t.height ≤ top) (enough : t.height < fuel) (absent : (descend side [] t).2.root = none)
    (holds : ∀ s', s'.Shows (insertAt (descend side [] t).1 node) → s'.Within top →
      post (some node) s') :
    Ensures (rbInsert cmp fuel node) post s := by
  unfold rbInsert
  simp only [ensures_bind]
  apply ensures_rbPathInit
  intro s₁ mem₁ root₁ place₁ written₁
  have whole : s₁.Shows (plug [] t) := shows.same_heap mem₁ root₁
  obtain _ | ⟨c, l, y, r⟩ := t
  · have root : s₁.root = none := whole.root_eq
    simp only [ensures_get, root, ensures_bind, ensures_setRoot]
    refine ensures_rbInsertNew whole redBlack (by simp [nodes]) ⟨place₁.cur_eq, place₁.follows⟩
      rfl (by rintro _ _ ⟨⟩) (fun _ _ => rfl) (by simpa [ColorTree.height] using enough) fun s₂ shows₂ written₂ => ?_
    exact holds s₂ shows₂ ((within.init written₁).of_written written₂)
  have root : s₁.root = some y := whole.root_eq
  simp only [ensures_get, root, ensures_bind]
  refine ensures_insertSearch compares whole place₁ (within.init written₁) (by simpa using room)
    (by omega) rfl ?_ ?_
  · intro s₂ z _ _ _ found
    cases absent.symm.trans found
  · intro s₂ f rest mem₂ root₂ place₂ within₂ missed
    have deep := descend_height side [] (.node c l y r)
    have same := descend_plug side [] (.node c l y r)
    rw [missed] at holds same deep
    have shows₂ : s₂.Shows (plug (f :: rest) .nil) := by
      rw [same]; exact State.Shows.same_heap whole mem₂ root₂
    rw [plug_nil] at same
    rw [← same, mem_plug] at fresh
    simp only [ensures_bind]
    apply ensures_entryAt [] place₂
    intro entry leads
    obtain rfl := leads
    simp only [ensures_rbSetChild, records_setChild]
    refine ensures_rbInsertNew shows₂ (same ▸ redBlack) (fun member => fresh (.inr member))
      ⟨place₂.cur_eq, place₂.follows⟩ (shows₂.root_eq.trans (plug_root _ _)) ?_ ?_ ?_ fun s₃ shows₃ written₃ =>
        holds s₃ shows₃ (within₂.of_written written₃)
    · rintro _ _ ⟨⟩
      simp [shows₂.frame_eq]
    · intro z other
      have apart : z ≠ f.value := fun same => other (by rw [same]; rfl)
      simp only [modify_of_ne apart]
    · simp only [List.length_nil] at deep
      omega

end Embedlib.RbtreeCompact
