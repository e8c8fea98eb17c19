import Embedlib.Library.TreeMap

/-! The mirror image of a tree.

Search, both repairs and removal of an element with at most one child treat the
two directions alike. An element with two children is replaced by its successor,
whose mirror image is the predecessor.
-/

set_option autoImplicit false

namespace Embedlib.Library

variable {α : Type}

namespace ColorTree

def mirror : ColorTree α → ColorTree α
  | .nil => .nil
  | .node c l x r => .node c r.mirror x l.mirror

@[simp] theorem mirror_nil : (.nil : ColorTree α).mirror = .nil := rfl

@[simp] theorem mirror_join (d : Dir) (c : Color) (t : ColorTree α) (x : α) (u : ColorTree α) :
    (join d c t x u).mirror = join d.flip c t.mirror x u.mirror := by cases d <;> rfl

@[simp] theorem mirror_root (t : ColorTree α) : t.mirror.root = t.root := by cases t <;> rfl

@[simp] theorem mirror_color (t : ColorTree α) : t.mirror.color = t.color := by cases t <;> rfl

@[simp] theorem mirror_recolor (c : Color) (t : ColorTree α) :
    (t.recolor c).mirror = t.mirror.recolor c := by cases t <;> rfl

@[simp] theorem mirror_child (d : Dir) (t : ColorTree α) : t.mirror.child d = (t.child d.flip).mirror := by
  cases t <;> cases d <;> rfl

theorem mirror_height (t : ColorTree α) : t.mirror.height = t.height := by
  induction t with
  | nil => rfl
  | node c l x r ihl ihr => simp only [mirror, height, ihl, ihr, Nat.max_comm]

theorem mirror_toList (t : ColorTree α) : t.mirror.toList = t.toList.reverse := by
  induction t with
  | nil => rfl
  | node c l x r ihl ihr => simp [mirror, toList, ihl, ihr]

end ColorTree

def Frame.mirror (f : Frame α) : Frame α := ⟨f.dir.flip, f.color, f.value, f.sibling.mirror⟩

theorem Dir.flip_inj {d e : Dir} : d.flip = e.flip ↔ d = e := by cases d <;> cases e <;> decide

@[simp] theorem Frame.mirror_fill (f : Frame α) (t : ColorTree α) :
    (f.fill t).mirror = f.mirror.fill t.mirror := ColorTree.mirror_join ..

namespace Spine

def mirror (sp : Spine α) : Spine α := sp.map Frame.mirror

@[simp] theorem mirror_plug (sp : Spine α) (t : ColorTree α) :
    (plug sp t).mirror = plug sp.mirror t.mirror := by
  induction sp generalizing t with
  | nil => rfl
  | cons f sp ih => rw [plug_cons, ih, Frame.mirror_fill]; rfl

@[simp] theorem mirror_top (sp : Spine α) : top sp.mirror = top sp := by cases sp <;> rfl

def Repair.mirror : Repair α → Repair α
  | .whole t => .whole t.mirror
  | .short t => .short t.mirror

theorem mirror_insertFix (sp : Spine α) (t : ColorTree α) :
    (insertFix sp t).mirror = insertFix sp.mirror t.mirror := by
  fun_induction insertFix sp t with
  | case1 p g sp t parentRed uncleRed ih =>
    rw [ih]
    simp [mirror, insertFix, Frame.mirror, parentRed, uncleRed]
  | case2 p g sp t parentRed uncleBlack straight =>
    simp [mirror, insertFix, Frame.mirror, parentRed, uncleBlack, straight]
  | case3 p g sp t parentRed uncleBlack bent found =>
    simp [mirror, insertFix, Frame.mirror, parentRed, uncleBlack, bent, found, Dir.flip_inj]
  | case4 p g sp t parentRed uncleBlack bent x found =>
    simp [mirror, insertFix, Frame.mirror, parentRed, uncleBlack, bent, found, Dir.flip_inj]
  | case5 p g sp t parentBlack => simp [mirror, insertFix, Frame.mirror, parentBlack]
  | case6 sp t short =>
    obtain _ | ⟨p, _ | ⟨g, sp⟩⟩ := sp
    · rfl
    · exact mirror_plug [p] t
    · exact absurd rfl (short p g sp)

theorem mirror_repair (d : Dir) (c : Color) (near : ColorTree α) (x : α) (far : ColorTree α) :
    (repair d c near x far).mirror = repair d.flip c near.mirror x far.mirror := by
  fun_cases repair d c near x far with
  | case1 found => simp [Repair.mirror, repair, found]
  | case2 y found farRed => simp [Repair.mirror, repair, found, farRed]
  | case3 y found farBlack z inner nearRed => simp [Repair.mirror, repair, found, farBlack, inner, nearRed]
  | case4 y found farBlack bare => simp [Repair.mirror, repair, found, farBlack]

theorem mirror_removeFix (sp : Spine α) (t : ColorTree α) :
    (removeFix sp t).mirror = removeFix sp.mirror t.mirror := by
  fun_induction removeFix sp t with
  | case1 t => simp [mirror, removeFix]
  | case2 f sp t red => simp [mirror, removeFix, red]
  | case3 f sp t black y found siblingRed lowered u repaired =>
    have same := mirror_repair f.dir .red t f.value (f.sibling.child f.dir)
    rw [repaired] at same
    simp [mirror, removeFix, Frame.mirror, Repair.mirror, black, found, siblingRed, lowered, ← same]
  | case4 f sp t black y found siblingRed lowered u repaired =>
    have same := mirror_repair f.dir .red t f.value (f.sibling.child f.dir)
    rw [repaired] at same
    simp [mirror, removeFix, Frame.mirror, Repair.mirror, black, found, siblingRed, lowered, ← same]
  | case5 f sp t black u repaired =>
    have same := mirror_repair f.dir f.color t f.value f.sibling
    rw [repaired] at same
    simp [mirror, removeFix, Frame.mirror, Repair.mirror, black, ← same]
  | case6 f sp t black u repaired siblingBlack ih =>
    have same := mirror_repair f.dir f.color t f.value f.sibling
    rw [repaired] at same
    rw [ih]
    simp [mirror, removeFix, Frame.mirror, Repair.mirror, black, ← same]

theorem mirror_insertAt (sp : Spine α) (x : α) : (insertAt sp x).mirror = insertAt sp.mirror x := by
  rw [insertAt, ColorTree.mirror_recolor, mirror_insertFix]
  rfl

theorem mirror_removeAt (sp : Spine α) (d : Dir) (c : Color) (x : α) (u : ColorTree α) :
    (removeAt sp (.join d c .nil x u)).mirror = removeAt sp.mirror (ColorTree.join d c .nil x u).mirror := by
  rw [ColorTree.mirror_join, ColorTree.mirror_nil, removeAt, removeAt, unlink_one, unlink_one, Gap.close, Gap.close]
  split
  · exact mirror_removeFix sp u
  · exact mirror_plug sp u

theorem mirror_descend (side : α → Option Dir) (sp : Spine α) (t : ColorTree α) :
    descend (fun x => (side x).map Dir.flip) sp.mirror t.mirror =
      ((descend side sp t).1.mirror, (descend side sp t).2.mirror) := by
  fun_induction descend side sp t with
  | case1 => rfl
  | case2 sp c l x r here => simp [ColorTree.mirror, descend, here]
  | case3 sp c l x r further ih => simp [ColorTree.mirror, descend, further, Dir.flip, ← ih]; rfl
  | case4 sp c l x r further ih => simp [ColorTree.mirror, descend, further, Dir.flip, ← ih]; rfl

end Spine

namespace ColorTree

open Spine

variable {side : α → Option Dir} {t : ColorTree α}

theorem mirror_search (side : α → Option Dir) (t : ColorTree α) :
    t.mirror.search (fun x => (side x).map Dir.flip) = t.search side := by
  have same := mirror_descend side [] t
  have empty : ([] : Spine α) = Spine.mirror [] := rfl
  rw [search, search, empty, same]
  exact mirror_root _

theorem mirror_insert (side : α → Option Dir) (x : α) (t : ColorTree α) :
    (t.insert side x).mirror = t.mirror.insert (fun x => (side x).map Dir.flip) x := by
  have same := mirror_descend side [] t
  have found := mirror_search side t
  cases met : t.search side with
  | some y => rw [insert_present met, insert_present (found.trans met)]
  | none =>
    rw [insert_absent met, insert_absent (found.trans met), mirror_insertAt]
    exact congrArg (fun p => insertAt p.1 x) same.symm

theorem mirror_remove (side : α → Option Dir) (t : ColorTree α)
    (slim : ∀ x, t.search side = some x → ∃ d c u, (descend side [] t).2 = join d c .nil x u) :
    (t.remove side).mirror = t.mirror.remove (fun x => (side x).map Dir.flip) := by
  have same := mirror_descend side [] t
  have found := mirror_search side t
  cases met : t.search side with
  | none => rw [remove_absent met, remove_absent (found.trans met)]
  | some x =>
    obtain ⟨d, c, u, here⟩ := slim x met
    rw [remove_present met, remove_present (found.trans met), here, mirror_removeAt, ← here]
    exact congrArg (fun p => removeAt p.1 p.2) same.symm

end ColorTree

end Embedlib.Library
