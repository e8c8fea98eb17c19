import Embedlib.Rbtree.InsertColor
import Embedlib.Rbtree.Remove
import Embedlib.Library.TreeMap

/-! What `RB_INSERT`, `RB_FIND` and `RB_REMOVE` do to the tree, for comparators
that send a search in the direction `side`. -/

set_option autoImplicit false

namespace Embedlib.Rbtree

open Library Rb Spine

variable {ν κ : Type} {s : State ν} {t : ColorTree ν} {side : ν → Option Dir} {fuel : Nat}

theorem ensures_rbFind {keyCmp : κ → ν → Int} {key : κ} {post : Ptr ν → State ν → Prop}
    (compares : ∀ x, sideOf (keyCmp key x) = side x) (shows : s.Shows t) (enough : t.height < fuel)
    (holds : post (t.search side) s) : Ensures (rbFind keyCmp fuel key) post s := by
  have whole : s.Shows (plug [] t) := shows
  unfold rbFind
  have root : s.root = t.root := shows.root_eq
  simp only [ensures_bind, ensures_get, root]
  exact ensures_findLoop compares whole enough holds

variable [DecidableEq ν]

theorem ensures_remove_absent {keyCmp : κ → ν → Int} {key : κ} {post : Ptr ν → State ν → Prop}
    (compares : ∀ x, sideOf (keyCmp key x) = side x) (shows : s.Shows t) (enough : t.height < fuel)
    (absent : t.search side = none) (holds : post none s) :
    Ensures (rbRemoveKey keyCmp fuel key) post s := by
  unfold rbRemoveKey
  simp only [ensures_bind]
  apply ensures_rbFind compares shows enough
  rw [absent]
  exact holds

theorem ensures_remove_present {keyCmp : κ → ν → Int} {key : κ} {x : ν} {post : Ptr ν → State ν → Prop}
    (compares : ∀ x, sideOf (keyCmp key x) = side x) (shows : s.Shows t) (redBlack : IsRedBlack t)
    (enough : t.height < fuel) (present : t.search side = some x)
    (holds : ∀ s', s'.Shows (t.remove side) → post (some x) s') :
    Ensures (rbRemoveKey keyCmp fuel key) post s := by
  unfold rbRemoveKey
  simp only [ensures_bind]
  apply ensures_rbFind compares shows enough
  obtain ⟨c, l, r, here, whole⟩ := ColorTree.search_some present
  rw [ColorTree.remove_present present, here] at holds
  rw [← whole] at shows redBlack enough
  simp only [present, ensures_bind, ensures_pure]
  exact ensures_rbRemove shows redBlack (by omega) holds

theorem ensures_insert_present {cmp : ν → ν → Int} {node x : ν} {post : Ptr ν → State ν → Prop}
    (compares : ∀ y, sideOf (cmp node y) = side y) (shows : s.Shows t) (enough : t.height < fuel)
    (present : t.search side = some x) (holds : post (some x) s) :
    Ensures (rbInsert cmp fuel node) post s := by
  have whole : s.Shows (plug [] t) := shows
  obtain _ | ⟨c, l, y, r⟩ := t
  · cases present
  unfold rbInsert
  have root : s.root = some y := shows.root_eq
  simp only [ensures_bind, ensures_get, root]
  refine ensures_insertSearch compares whole (by omega) rfl ?_ ?_
  · intro z found
    obtain rfl : x = z := Option.some.inj (present.symm.trans found)
    exact holds
  · intro f rest missed
    rw [ColorTree.search, missed] at present
    cases present

/-- The new node is linked in at an empty place; its own words are set afterwards. -/
theorem ensures_rbInsertNew {s₀ : State ν} {node : ν} {sp : Spine ν} {post : Ptr ν → State ν → Prop}
    (shows : s₀.Shows (sp.plug .nil)) (redBlack : IsRedBlack (sp.plug .nil)) (fresh : node ∉ sp.nodes)
    (rooted : s.root = sp.rootOf (some node))
    (linked : ∀ f rest, sp = f :: rest →
      s.mem f.value = recordAt nodeRecord f.dir (Spine.top rest) f.color (some node) f.sibling.root)
    (same : ∀ z, sp.top ≠ some z → s.mem z = s₀.mem z) (enough : sp.length < fuel)
    (holds : ∀ s', s'.Shows (insertAt sp node) → post (some node) s') :
    Ensures (rbInsertNew fuel sp.top node) post s := by
  unfold rbInsertNew
  simp only [ensures_bind, ensures_rbSetParentColor, ensures_rbSetChild, ensures_pure]
  have untouched : ∀ z, z ≠ node → (((s.mem.modify node fun n => n.setParentColor sp.top .red).modify node
      fun n => n.setChild none .left).modify node fun n => n.setChild none .right) z = s.mem z :=
    fun z other => (modify_of_ne other).trans ((modify_of_ne other).trans (modify_of_ne other))
  have apart : ∀ z ∈ nodes sp, z ≠ node := fun z member => ne_of_mem_of_not_mem member fresh
  refine ensures_rbInsertColor (show State.Shows _ (sp.plug (.node .red .nil node .nil)) from ?_) rfl (fits_leaf redBlack)
    (balanced_leaf node) enough holds
  refine shows.attach fresh rooted ?_ ?_ fun z member other => ?_
  · simp only [modify_self]
    rfl
  · rintro f rest rfl
    exact (untouched _ (apart _ (by simp [nodes]))).trans (linked f rest rfl)
  · exact (untouched z (apart z member)).trans (same z other)

theorem ensures_insert_absent {cmp : ν → ν → Int} {node : ν} {post : Ptr ν → State ν → Prop}
    (compares : ∀ y, sideOf (cmp node y) = side y) (shows : s.Shows t) (redBlack : IsRedBlack t)
    (fresh : node ∉ t.toList) (enough : t.height < fuel) (absent : t.search side = none)
    (holds : ∀ s', s'.Shows (t.insert side node) → post (some node) s') :
    Ensures (rbInsert cmp fuel node) post s := by
  have whole : s.Shows (plug [] t) := shows
  rw [ColorTree.insert_absent absent] at holds
  obtain _ | ⟨c, l, y, r⟩ := t
  · unfold rbInsert
    have root : s.root = none := shows.root_eq
    simp only [ensures_bind, ensures_get, root, ensures_setRoot]
    show Ensures (rbInsertNew fuel (top ([] : Spine ν)) node) post _
    exact ensures_rbInsertNew whole redBlack (by simp [nodes]) rfl (by rintro _ _ ⟨⟩) (fun _ _ => rfl)
      (by simpa [ColorTree.height] using enough) holds
  unfold rbInsert
  have root : s.root = some y := shows.root_eq
  simp only [ensures_bind, ensures_get, root]
  refine ensures_insertSearch compares whole (by omega) rfl ?_ ?_
  · intro z found
    cases absent.symm.trans found
  · intro f rest missed
    have deep := descend_height side [] (.node c l y r)
    have same := descend_plug side [] (.node c l y r)
    rw [missed] at holds same deep
    rw [← same] at whole
    rw [plug_nil] at same
    rw [← same, mem_plug] at fresh
    simp only [ensures_bind, ensures_rbSetChild]
    show Ensures (rbInsertNew fuel (top (f :: rest)) node) post _
    refine ensures_rbInsertNew whole (same ▸ redBlack) (fun member => fresh (.inr member))
      (whole.root_eq.trans (plug_root _ _)) ?_ ?_ ?_ holds
    · rintro _ _ ⟨⟩
      simp only [modify_self]
      rw [whole.frame_eq, nodeRecord_setNear]
    · intro z other
      have apart : z ≠ f.value := fun same => other (by rw [same]; rfl)
      simp only [modify_of_ne apart]
    · simp only [List.length_nil] at deep
      omega

end Embedlib.Rbtree
