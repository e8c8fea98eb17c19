import Embedlib.Library.OrderedMap

/-! The finite map of a sorted red-black tree: search, insertion and removal. -/

set_option autoImplicit false

namespace Embedlib.Library

open Spine

variable {α κ : Type}

namespace ColorTree

def search (side : α → Option Dir) (t : ColorTree α) : Option α := (descend side [] t).2.root

def insert (side : α → Option Dir) (x : α) (t : ColorTree α) : ColorTree α :=
  match t.search side with
  | some _ => t
  | none => insertAt (descend side [] t).1 x

def remove (side : α → Option Dir) (t : ColorTree α) : ColorTree α :=
  match t.search side with
  | none => t
  | some _ => removeAt (descend side [] t).1 (descend side [] t).2

theorem insert_absent {side : α → Option Dir} {t : ColorTree α} (absent : t.search side = none)
    (x : α) : t.insert side x = insertAt (descend side [] t).1 x := by
  rw [insert, absent]

theorem insert_present {side : α → Option Dir} {t : ColorTree α} {y : α}
    (present : t.search side = some y) (x : α) : t.insert side x = t := by
  rw [insert, present]

theorem remove_absent {side : α → Option Dir} {t : ColorTree α} (absent : t.search side = none) :
    t.remove side = t := by
  rw [remove, absent]

theorem remove_present {side : α → Option Dir} {t : ColorTree α} {x : α}
    (present : t.search side = some x) :
    t.remove side = removeAt (descend side [] t).1 (descend side [] t).2 := by
  rw [remove, present]

theorem search_some {side : α → Option Dir} {t : ColorTree α} {x : α}
    (present : t.search side = some x) :
    ∃ c l r, (descend side [] t).2 = .node c l x r ∧
      plug (descend side [] t).1 (.node c l x r) = t := by
  have whole := descend_plug side [] t
  rw [plug_nil] at whole
  unfold search at present
  cases found : (descend side [] t).2 with
  | nil => rw [found] at present; cases present
  | node c l y r =>
    rw [found] at present whole
    obtain rfl : y = x := Option.some.inj present
    exact ⟨c, l, r, rfl, whole⟩

theorem search_none {side : α → Option Dir} {t : ColorTree α} (absent : t.search side = none) :
    plug (descend side [] t).1 .nil = t := by
  have whole := descend_plug side [] t
  rwa [root_eq_none.mp absent, plug_nil] at whole

theorem insert_toList {side : α → Option Dir} {t : ColorTree α} (absent : t.search side = none) (x : α) :
    ∃ a b, t.toList = a ++ b ∧ (t.insert side x).toList = a ++ x :: b := by
  refine ⟨before (descend side [] t).1, after (descend side [] t).1, ?_, ?_⟩
  · have whole := plug_toList (descend side [] t).1 .nil
    rw [search_none absent] at whole
    simpa [toList] using whole
  · rw [insert_absent absent, insertAt_toList]

theorem remove_toList {side : α → Option Dir} {t : ColorTree α} {x : α} (present : t.search side = some x) :
    ∃ a b, t.toList = a ++ x :: b ∧ (t.remove side).toList = a ++ b := by
  obtain ⟨c, l, r, here, whole⟩ := search_some present
  refine ⟨before (descend side [] t).1 ++ l.toList, r.toList ++ after (descend side [] t).1, ?_, ?_⟩
  · have listed := plug_toList (descend side [] t).1 (.node c l x r)
    rw [whole] at listed
    simpa [toList] using listed
  · rw [remove_present present, here, removeAt_toList]
    simp

theorem insert_size_le (side : α → Option Dir) (x : α) (t : ColorTree α) :
    (t.insert side x).size ≤ t.size + 1 := by
  cases found : t.search side with
  | some y => rw [insert_present found]; omega
  | none =>
    obtain ⟨a, b, before, after⟩ := insert_toList found x
    rw [← length_toList, ← length_toList, before, after, List.length_append, List.length_append, List.length_cons]
    omega

theorem remove_size_le (side : α → Option Dir) (t : ColorTree α) :
    (t.remove side).size ≤ t.size := by
  cases found : t.search side with
  | none => exact Nat.le_of_eq (congrArg size (remove_absent found))
  | some x =>
    obtain ⟨a, b, before, after⟩ := remove_toList found
    rw [← length_toList, ← length_toList, before, after, List.length_append, List.length_append, List.length_cons]
    omega

theorem mem_of_insert {side : α → Option Dir} {t : ColorTree α} {x y : α} (absent : t.search side = none)
    (member : y ∈ (t.insert side x).toList) : y ∈ x :: t.toList := by
  obtain ⟨a, b, before, after⟩ := insert_toList absent x
  rw [after] at member
  rw [before]
  simpa [or_left_comm] using member

theorem mem_of_remove {side : α → Option Dir} {t : ColorTree α} {y : α}
    (member : y ∈ (t.remove side).toList) : y ∈ t.toList := by
  cases found : t.search side with
  | none => rwa [remove_absent found] at member
  | some x =>
    obtain ⟨a, b, before, after⟩ := remove_toList found
    rw [after] at member
    rw [before]
    exact (List.mem_append.mp member).elim (List.mem_append_left _)
      fun right => List.mem_append_right _ (List.mem_cons_of_mem _ right)

end ColorTree

open ColorTree

theorem insert_isRedBlack {side : α → Option Dir} {t : ColorTree α} (redBlack : IsRedBlack t)
    (x : α) : IsRedBlack (t.insert side x) := by
  cases found : t.search side with
  | some y => rwa [insert_present found]
  | none =>
    rw [insert_absent found]
    exact insertAt_isRedBlack (by rwa [search_none found]) x

theorem remove_isRedBlack {side : α → Option Dir} {t : ColorTree α} (redBlack : IsRedBlack t) :
    IsRedBlack (t.remove side) := by
  cases found : t.search side with
  | none => rwa [remove_absent found]
  | some x =>
    obtain ⟨c, l, r, here, whole⟩ := search_some found
    rw [remove_present found, here]
    exact removeAt_isRedBlack (by rwa [whole])

section
variable [LinearOrder κ] {key : α → κ} {map : κ → Option α} {t : ColorTree α} {k : κ} {x : α}

/-- A search by key finds what the map holds under the key. -/
theorem Lists.search_eq (lists : Lists key map t.toList) (k : κ) :
    t.search (toward key k) = map k := by
  cases found : t.search (toward key k) with
  | some x =>
    obtain ⟨c, l, r, _, whole⟩ := search_some found
    have member : x ∈ t.toList := by
      rw [← whole, mem_plug]
      exact .inl (ColorTree.root_mem rfl)
    exact ((lists.entries k x).mpr ⟨member, toward_none.mp (descend_found found)⟩).symm
  | none =>
    have whole := search_none found
    -- Around the empty place the keys are below or above `k`, so none of them is `k`.
    have brackets : Brackets key k _ _ :=
      descend_brackets [] lists.sorted ⟨by simp [before], by simp [after]⟩
    refine (lists.absent.mpr fun y member => ?_).symm
    rw [← whole, plug_toList] at member
    simp only [ColorTree.toList, List.append_nil, List.mem_append] at member
    exact member.elim (fun left => (brackets.1 y left).ne) fun right => (brackets.2 y right).ne'

theorem Lists.insert_tree (lists : Lists key map t.toList) (absent : map (key x) = none) :
    Lists key (Function.update map (key x) (some x)) (t.insert (toward key (key x)) x).toList := by
  have missed := (lists.search_eq (key x)).trans absent
  have whole := search_none missed
  have brackets : Brackets key (key x) _ _ :=
    descend_brackets [] lists.sorted ⟨by simp [before], by simp [after]⟩
  rw [insert_absent missed, insertAt_toList]
  rw [← whole, plug_toList] at lists
  refine Lists.insert ?_ brackets
  simpa [ColorTree.toList] using lists

theorem Lists.remove_tree (lists : Lists key map t.toList) (present : map k = some x) :
    Lists key (Function.update map k none) (t.remove (toward key k)).toList := by
  have found := (lists.search_eq k).trans present
  obtain ⟨c, l, r, here, whole⟩ := search_some found
  obtain rfl := ((lists.entries k x).mp present).2
  rw [remove_present found, here, removeAt_toList]
  rw [← whole, plug_toList, ColorTree.toList] at lists
  have split : Lists key map
      ((before (descend (toward key (key x)) [] t).1 ++ l.toList) ++ x ::
        (r.toList ++ after (descend (toward key (key x)) [] t).1)) := by simpa using lists
  simpa using split.erase

end

/-! ### Positions -/

theorem descend_along {side : α → Option Dir} {sp : Spine α} {t : ColorTree α}
    (leads : ∀ f ∈ sp, side f.value = some f.dir) : descend side [] (plug sp t) = descend side sp t := by
  induction sp generalizing t with
  | nil => rfl
  | cons f sp ih =>
    rw [plug_cons, ih fun g member => leads g (List.mem_cons_of_mem f member), Frame.fill,
      descend_step (leads f List.mem_cons_self)]

theorem mem_around {sp : Spine α} {f : Frame α} (member : f ∈ sp) :
    f.dir = .left ∧ f.value ∈ after sp ∨ f.dir = .right ∧ f.value ∈ before sp := by
  induction sp with
  | nil => cases member
  | cons g sp ih =>
    rcases List.mem_cons.mp member with rfl | deeper
    · cases direction : f.dir <;> simp [before, after, direction]
    · rcases ih deeper with ⟨left, member⟩ | ⟨right, member⟩
      · exact .inl ⟨left, by simp [after, member]⟩
      · exact .inr ⟨right, by simp [before, member]⟩

section
variable [LinearOrder κ] {key : α → κ} {map : κ → Option α} {sp : Spine α} {c : Color}
  {l r : ColorTree α} {x : α}

theorem Lists.descend_eq (lists : Lists key map (plug sp (.node c l x r)).toList) :
    descend (toward key (key x)) [] (plug sp (.node c l x r)) = (sp, .node c l x r) := by
  rw [plug_toList, ColorTree.toList] at lists
  have split : Lists key map ((before sp ++ l.toList) ++ x :: (r.toList ++ after sp)) := by
    simpa using lists
  obtain ⟨below, above⟩ := split.brackets
  -- A frame on the way is left toward the side on which the key of `x` lies.
  rw [descend_along, descend_here (toward_none.mpr rfl)]
  intro f member
  rcases mem_around member with ⟨direction, right⟩ | ⟨direction, left⟩
  · rw [direction, toward_left]
    exact above f.value (List.mem_append_right _ right)
  · rw [direction, toward_right]
    exact below f.value (List.mem_append_left _ left)

theorem Lists.removeAt_eq (lists : Lists key map (plug sp (.node c l x r)).toList) :
    removeAt sp (.node c l x r) = (plug sp (.node c l x r)).remove (toward key (key x)) := by
  have found : (plug sp (.node c l x r)).search (toward key (key x)) = some x := by
    rw [ColorTree.search, lists.descend_eq]; rfl
  rw [remove_present found, lists.descend_eq]

end

end Embedlib.Library
