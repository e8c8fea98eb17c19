import Embedlib.Library.LinkedTree
import Embedlib.Library.TreeMap
import Mathlib.Data.Set.Card

/-! How much of a linked red-black tree an insertion or a removal rewrites.

A rebalancing links few nodes anew. It may paint many, on its way up to the root,
but a charge on the nodes of the tree pays for all of them but a few.
-/

set_option autoImplicit false

namespace Embedlib.Library

open Spine

variable {ν ρ : Type}

/-! ### What the nodes say -/

section
variable (record : Option ν → Color → Option ν → Option ν → ρ)

def ColorTree.records (up : Option ν) : ColorTree ν → Set (ν × ρ)
  | .nil => ∅
  | .node c l x r => {(x, record up c l.root r.root)} ∪ (l.records (some x) ∪ r.records (some x))

def Spine.records : Spine ν → Option ν → Set (ν × ρ)
  | [], _ => ∅
  | f :: sp, p => {(f.value, recordAt record f.dir (Spine.top sp) f.color p f.sibling.root)} ∪
      (f.sibling.records record (some f.value) ∪ records sp (some f.value))

end

/-- At most `k` of the new records are not among the old ones. -/
def Adds (k : Nat) (old new : Set (ν × ρ)) : Prop := (new \ old).encard ≤ k

section
variable {j k : Nat} {old middle new new' : Set (ν × ρ)}

theorem Adds.mono (adds : Adds j old new) (less : j ≤ k) : Adds k old new :=
  adds.trans (Nat.cast_le.mpr less)

theorem adds_of_subset (within : new ⊆ old) : Adds 0 old new := by
  unfold Adds
  rw [Set.sdiff_eq_empty.mpr within]
  exact Set.encard_empty.le

theorem Adds.union (adds : Adds j old new) (adds' : Adds k old new') : Adds (j + k) old (new ∪ new') := by
  unfold Adds
  rw [Set.union_sdiff_distrib, Nat.cast_add]
  exact (Set.encard_union_le _ _).trans (add_le_add adds adds')

theorem adds_singleton (e : ν × ρ) : Adds 1 old {e} :=
  (Set.encard_le_encard Set.sdiff_subset).trans (Set.encard_singleton e).le

theorem Adds.mono_left {wider : Set (ν × ρ)} (adds : Adds k old new) (within : old ⊆ wider) : Adds k wider new :=
  (Set.encard_le_encard (Set.sdiff_subset_sdiff_right within)).trans adds

theorem Adds.mono_right (adds : Adds k old new) (within : new' ⊆ new) : Adds k old new' :=
  (Set.encard_le_encard (Set.sdiff_subset_sdiff_left within)).trans adds

theorem Adds.trans (adds : Adds j old middle) (adds' : Adds k middle new) : Adds (j + k) old new := by
  have covered : new \ old ⊆ (middle \ old) ∪ (new \ middle) := by
    intro e member
    by_cases between : e ∈ middle
    · exact .inl ⟨between, member.2⟩
    · exact .inr ⟨member.1, between⟩
  refine (Set.encard_le_encard covered).trans ?_
  rw [Nat.cast_add]
  exact (Set.encard_union_le _ _).trans (add_le_add adds adds')

end

/-! ### The charge -/

/-- A black node is charged for children of one colour. -/
def debt : Color → Color → Color → Nat
  | .black, .black, .black => 1
  | .black, .red, .red => 2
  | _, _, _ => 0

theorem debt_le (c a b : Color) : debt c a b ≤ 2 := by
  cases c <;> cases a <;> cases b <;> decide

theorem debt_red (a b : Color) : debt .red a b = 0 := by
  cases a <;> cases b <;> rfl

theorem debt_comm (c a b : Color) : debt c a b = debt c b a := by
  cases c <;> cases a <;> cases b <;> rfl

def ColorTree.charge {α : Type} : ColorTree α → Nat
  | .nil => 0
  | .node c l _ r => l.charge + r.charge + debt c l.color r.color

/-- The charge of the nodes around a hole for a subtree of colour `c`. -/
def Spine.charge {α : Type} : Spine α → Color → Nat
  | [], _ => 0
  | f :: sp, c => f.sibling.charge + debt f.color c f.sibling.color + charge sp f.color

section
variable {α : Type} {sp : Spine α} {t u : ColorTree α} {c e : Color} {d : Dir} {x : α}

@[simp] theorem charge_join : (ColorTree.join d c t x u).charge = t.charge + u.charge + debt c t.color u.color := by
  cases d with
  | left => rfl
  | right => simp only [ColorTree.join, ColorTree.charge, debt_comm c u.color, Nat.add_comm u.charge]

theorem charge_plug : (plug sp t).charge = t.charge + sp.charge t.color := by
  induction sp generalizing t with
  | nil => rfl
  | cons f sp ih =>
    rw [plug_cons, ih, Frame.fill, charge_join, ColorTree.join_color, Spine.charge]
    omega

/-- The subtree in a hole weighs on the innermost frame only. -/
theorem spine_charge_le (sp : Spine α) (c e : Color) : sp.charge c ≤ sp.charge e + 2 := by
  cases sp with
  | nil => exact Nat.zero_le _
  | cons f sp =>
    have most := debt_le f.color c f.sibling.color
    simp only [Spine.charge]
    omega

theorem recolor_charge_le (c : Color) (t : ColorTree α) : (t.recolor c).charge ≤ t.charge + 2 := by
  cases t with
  | nil => exact Nat.zero_le _
  | node e l x r =>
    have most := debt_le c l.color r.color
    simp only [ColorTree.recolor, ColorTree.charge]
    omega

theorem charge_blacken (red : t.color = .red) (near : (t.child .left).color = .black)
    (far : (t.child .right).color = .black) : (t.recolor .black).charge = t.charge + 1 := by
  cases t with
  | nil => cases red
  | node e l x r =>
    obtain rfl : e = .red := red
    have left : l.color = .black := near
    have right : r.color = .black := far
    simp only [ColorTree.recolor, ColorTree.charge, left, right, debt]

theorem charge_redden (present : t.root = some x) (black : t.color = .black) (near : (t.child d).color = .black)
    (far : (t.child d.flip).color = .black) : (t.recolor .red).charge + 1 = t.charge := by
  obtain ⟨c, l, r, rfl⟩ := ColorTree.exists_join present d
  simp only [ColorTree.join_color, ColorTree.join_near, ColorTree.join_far] at black near far
  simp only [ColorTree.join_recolor, charge_join, black, near, far, debt]

end

/-! ### Pieces of a rewritten tree -/

section
variable {record : Option ν → Color → Option ν → Option ν → ρ} {up up' p q : Option ν} {sp : Spine ν}
  {t u : ColorTree ν} {c e : Color} {d : Dir} {x : ν} {old : Set (ν × ρ)} {paint : Nat}

theorem records_join : (ColorTree.join d c t x u).records record up =
    {(x, recordAt record d up c t.root u.root)} ∪ (t.records record (some x) ∪ u.records record (some x)) := by
  cases d with
  | left => rfl
  | right => rw [Set.union_comm (t.records record (some x))]; rfl

theorem records_plug :
    (plug sp t).records record none = t.records record (Spine.top sp) ∪ sp.records record t.root := by
  induction sp generalizing t with
  | nil => exact (Set.union_empty _).symm
  | cons f sp ih =>
    rw [plug_cons, ih, Frame.fill, records_join, ColorTree.join_root]
    simp only [Spine.records, Spine.top]
    ext e
    simp only [Set.mem_union]
    tauto

theorem adds_moved (within : t.records record up ⊆ old) (up' : Option ν) : Adds 1 old (t.records record up') := by
  cases t with
  | nil => exact (adds_of_subset (Set.empty_subset _)).mono (Nat.zero_le _)
  | node c l x r => exact (adds_singleton _).union (adds_of_subset (Set.subset_union_right.trans within))

theorem adds_relinked (within : sp.records record p ⊆ old) (q : Option ν) : Adds 1 old (sp.records record q) := by
  cases sp with
  | nil => exact (adds_of_subset (Set.empty_subset _)).mono (Nat.zero_le _)
  | cons f sp => exact (adds_singleton _).union (adds_of_subset (Set.subset_union_right.trans within))

/-- A coat of paint counts, unless the records do not tell the colour. -/
def Paints (record : Option ν → Color → Option ν → Option ν → ρ) (paint : Nat) : Prop :=
  paint = 0 → ∀ up c e l r, record up c l r = record up e l r

theorem Paints.entry (paints : Paints record paint) (here : (x, recordAt record d up c p q) ∈ old) (e : Color) :
    Adds paint old {(x, recordAt record d up e p q)} := by
  by_cases free : paint = 0
  · have same : recordAt record d up e p q = recordAt record d up c p q := by
      cases d <;> exact paints free _ _ _ _ _
    rw [same]
    exact (adds_of_subset (Set.singleton_subset_iff.mpr here)).mono (Nat.zero_le _)
  · exact (adds_singleton _).mono (Nat.one_le_iff_ne_zero.mpr free)

theorem Paints.recolor (paints : Paints record paint) (within : t.records record up ⊆ old) (c : Color) :
    Adds paint old ((t.recolor c).records record up) := by
  cases t with
  | nil => exact (adds_of_subset (Set.empty_subset _)).mono (Nat.zero_le _)
  | node e l x r =>
    have here : (x, recordAt record .left up e l.root r.root) ∈ old := within (.inl rfl)
    exact (paints.entry here c).union (adds_of_subset (Set.subset_union_right.trans within))

end

/-! ### Steps of a rebalancing -/

section
variable {record : Option ν → Color → Option ν → Option ν → ρ} {paint : Nat} {sp : Spine ν} {d : Dir}
  {t u v w : ColorTree ν} {x y z : ν}

theorem Paints.recolor_plug (paints : Paints record paint) (c : Color) :
    Adds paint ((plug sp t).records record none) ((plug sp (t.recolor c)).records record none) := by
  rw [records_plug, records_plug, ColorTree.recolor_root]
  have around := adds_of_subset
    (Set.subset_union_right (s := t.records record (Spine.top sp)) (t := sp.records record t.root))
  exact (paints.recolor Set.subset_union_left c).union around

theorem rotate_adds (c e c' e' : Color) :
    Adds 4 ((plug sp (.join d c (.join d e t x u) y v)).records record none)
      ((plug sp (.join d c' t x (.join d e' u y v))).records record none) := by
  generalize within : (plug sp (.join d c (.join d e t x u) y v)).records record none = old
  simp only [records_plug, records_join, ColorTree.join_root] at within ⊢
  have first : t.records record (some x) ⊆ old := fun e member => by simp [← within, member]
  have between : u.records record (some x) ⊆ old := fun e member => by simp [← within, member]
  have last : v.records record (some y) ⊆ old := fun e member => by simp [← within, member]
  have around : sp.records record (some y) ⊆ old := fun e member => by simp [← within, member]
  exact (((adds_singleton _).union ((adds_of_subset first).union ((adds_singleton _).union
    ((adds_moved between _).union (adds_of_subset last))))).union (adds_relinked around _)).mono (Nat.le_refl _)

theorem double_rotate_adds (c e f c' e' f' : Color) :
    Adds 6 ((plug sp (.join d c (.join d e t x (.join d f u z v)) y w)).records record none)
      ((plug sp (.join d c' (.join d e' t x u) z (.join d f' v y w))).records record none) := by
  generalize within : (plug sp (.join d c (.join d e t x (.join d f u z v)) y w)).records record none = old
  simp only [records_plug, records_join, ColorTree.join_root] at within ⊢
  have first : t.records record (some x) ⊆ old := fun e member => by simp [← within, member]
  have near : u.records record (some z) ⊆ old := fun e member => by simp [← within, member]
  have far : v.records record (some z) ⊆ old := fun e member => by simp [← within, member]
  have last : w.records record (some y) ⊆ old := fun e member => by simp [← within, member]
  have around : sp.records record (some y) ⊆ old := fun e member => by simp [← within, member]
  exact (((adds_singleton _).union (((adds_singleton _).union ((adds_of_subset first).union (adds_moved near _))).union
    ((adds_singleton _).union ((adds_moved far _).union (adds_of_subset last))))).union
    (adds_relinked around _)).mono (Nat.le_refl _)

theorem rotate_far_adds (c e c' e' : Color) :
    Adds 4 ((plug sp (.join d c v y (.join d e u x t))).records record none)
      ((plug sp (.join d c' (.join d e' v y u) x t)).records record none) := by
  have mirrored : Adds 4 ((plug sp (.join d.flip c (.join d.flip e t x u) y v)).records record none)
      ((plug sp (.join d.flip c' t x (.join d.flip e' u y v))).records record none) := rotate_adds c e c' e'
  simpa only [ColorTree.join_flip] using mirrored

theorem double_rotate_far_adds (c e f c' e' f' : Color) :
    Adds 6 ((plug sp (.join d c w y (.join d e (.join d f v z u) x t))).records record none)
      ((plug sp (.join d c' (.join d f' w y v) z (.join d e' u x t))).records record none) := by
  have mirrored : Adds 6
      ((plug sp (.join d.flip c (.join d.flip e t x (.join d.flip f u z v)) y w)).records record none)
      ((plug sp (.join d.flip c' (.join d.flip e' t x u) z (.join d.flip f' v y w))).records record none) :=
    double_rotate_adds c e f c' e' f'
  simpa only [ColorTree.join_flip] using mirrored

theorem Paints.family (paints : Paints record paint) {p g : Frame ν} (c e f : Color) :
    Adds (3 * paint) ((plug (p :: g :: sp) t).records record none)
      ((plug sp (.join g.dir c (.join p.dir e t p.value p.sibling) g.value (g.sibling.recolor f))).records record none) := by
  generalize within : (plug (p :: g :: sp) t).records record none = old
  simp only [plug_cons, Frame.fill, records_plug, records_join, ColorTree.join_root, ColorTree.recolor_root]
    at within ⊢
  have parent : (p.value, recordAt record p.dir (some g.value) p.color t.root p.sibling.root) ∈ old := by
    simp [← within]
  have grand : (g.value, recordAt record g.dir (Spine.top sp) g.color (some p.value) g.sibling.root) ∈ old := by
    simp [← within]
  have first : t.records record (some p.value) ⊆ old := fun e member => by simp [← within, member]
  have second : p.sibling.records record (some p.value) ⊆ old := fun e member => by simp [← within, member]
  have uncle : g.sibling.records record (some g.value) ⊆ old := fun e member => by simp [← within, member]
  have around : sp.records record (some g.value) ⊆ old := fun e member => by simp [← within, member]
  have lower := (paints.entry parent e).union ((adds_of_subset first).union (adds_of_subset second))
  have upper := (paints.entry grand c).union (lower.union (paints.recolor uncle f))
  exact (upper.union (adds_of_subset around)).mono (by omega)

end

/-! ### Insertion -/

section
variable {record : Option ν → Color → Option ν → Option ν → ρ} {paint : Nat}

theorem Fits.grand_black {c : Color} {n : Nat} {p g : Frame ν} {sp : Spine ν} (fits : Fits c n (p :: g :: sp))
    (red : p.color = .red) : g.color = .black := by
  cases fits with
  | black => cases red
  | red sibling siblingBlack grand => cases grand; rfl

/-- A round that goes on paints three nodes, and makes the tree lighter by one. -/
theorem insertFix_adds (paints : Paints record paint) {n : Nat} {sp : Spine ν} {t : ColorTree ν}
    (fits : Fits .black n sp) (balanced : Balanced n t) (red : t.color = .red) :
    ∃ i, Adds (6 + i * paint) ((plug sp t).records record none) ((insertFix sp t).records record none) ∧
      i + 3 * (insertFix sp t).charge ≤ 3 * (t.charge + sp.charge .black) + 6 := by
  fun_induction insertFix sp t generalizing n with
  | case1 p g sp t parentRed uncleRed ih =>
    obtain ⟨⟨sibling, siblingBlack⟩, uncle, outer⟩ := fits.of_red_frame parentRed
    have grandBlack := fits.grand_black parentRed
    have upper : Balanced (n + 1) (.join p.dir .black t p.value p.sibling) :=
      balanced_join_black.mpr ⟨balanced, sibling⟩
    obtain ⟨i, adds, pays⟩ := ih outer (balanced_join_red.mpr
      ⟨upper, uncle.blacken uncleRed, by simp, ColorTree.recolor_black_color _⟩) (by simp)
    refine ⟨i + 3, ((paints.family .red .black .black).trans adds).mono (by rw [Nat.add_mul]; omega), ?_⟩
    have lighter := charge_blacken uncleRed (uncle.child uncleRed .left).2 (uncle.child uncleRed .right).2
    have parentDebt : debt .black t.color p.sibling.color = 0 := by rw [red, siblingBlack]; rfl
    simp only [charge_join, ColorTree.join_color, Spine.charge, parentRed, uncleRed, grandBlack, parentDebt] at pays ⊢
    simp only [debt] at pays ⊢
    omega
  | case2 p g sp t parentRed uncleBlack straight =>
    refine ⟨0, ?_, ?_⟩
    · rw [plug_cons, plug_cons, Frame.fill, Frame.fill, straight]
      exact (rotate_adds _ _ _ _).mono (by omega)
    · have grandBlack := fits.grand_black parentRed
      have uncleBlack := Color.eq_black_of_ne uncleBlack
      simp only [charge_plug, charge_join, ColorTree.join_color, Spine.charge, parentRed, grandBlack, uncleBlack,
        red, debt]
      omega
  | case3 p g sp t parentRed uncleBlack bent found =>
    rw [ColorTree.root_eq_none.mp found] at red
    cases red
  | case4 p g sp t parentRed uncleBlack bent x found =>
    obtain ⟨c, near, far, rfl⟩ := ColorTree.exists_join found g.dir
    have opposite : p.dir = g.dir.flip := Dir.eq_flip_of_ne bent
    simp only [ColorTree.join_near, ColorTree.join_far]
    refine ⟨0, ?_, ?_⟩
    · rw [plug_cons, plug_cons, Frame.fill, Frame.fill, opposite, ColorTree.join_flip]
      exact (double_rotate_adds _ _ _ _ _ _).mono (by omega)
    · have grandBlack := fits.grand_black parentRed
      simp only [charge_plug, charge_join, ColorTree.join_color, Spine.charge, parentRed, grandBlack, debt]
      omega
  | case5 p g sp t parentBlack =>
    have most := spine_charge_le (p :: g :: sp) t.color .black
    refine ⟨0, (adds_of_subset subset_rfl).mono (Nat.zero_le _), ?_⟩
    rw [charge_plug]
    omega
  | case6 sp t short =>
    have most := spine_charge_le sp t.color .black
    refine ⟨0, (adds_of_subset subset_rfl).mono (Nat.zero_le _), ?_⟩
    rw [charge_plug]
    omega

/-- An insertion relinks at most eight nodes. -/
theorem insertAt_adds (paints : Paints record paint) {sp : Spine ν} (redBlack : IsRedBlack (plug sp .nil)) (x : ν) :
    ∃ i, Adds (8 + i * paint) ((plug sp .nil).records record none) ((insertAt sp x).records record none) ∧
      i + 3 * (insertAt sp x).charge ≤ 3 * (plug sp .nil).charge + 13 := by
  obtain ⟨i, adds, pays⟩ := insertFix_adds paints (fits_leaf redBlack) (balanced_leaf x) rfl
  have hung : Adds 2 ((plug sp .nil).records record none) ((plug sp (.node .red .nil x .nil)).records record none) := by
    rw [records_plug, records_plug]
    have leaf : (ColorTree.node .red .nil x .nil).records record (Spine.top sp) ⊆
        {(x, record (Spine.top sp) .red none none)} := by simp [ColorTree.records, ColorTree.root]
    exact (((adds_singleton _).mono_right leaf).union (adds_relinked Set.subset_union_right _)).mono (Nat.le_refl _)
  have topped : Adds paint ((insertFix sp (.node .red .nil x .nil)).records record none)
      ((insertAt sp x).records record none) := paints.recolor subset_rfl .black
  have heavier := recolor_charge_le .black (insertFix sp (.node .red .nil x .nil))
  refine ⟨i + 1, ((hung.trans adds).trans topped).mono (by rw [Nat.add_mul]; omega), ?_⟩
  rw [charge_plug]
  simp only [ColorTree.charge, ColorTree.color, debt] at pays ⊢
  unfold insertAt
  omega

end

/-! ### Removal -/

section
variable {record : Option ν → Color → Option ν → Option ν → ρ} {paint : Nat} {sp : Spine ν} {d : Dir} {c : Color}
  {near far t u : ColorTree ν} {x : ν}

/-- What the outcome of a repair costs. Where the repair goes on, one node is
painted, and the tree becomes lighter by one. -/
def Spine.Repair.Costs (record : Option ν → Color → Option ν → Option ν → ρ) (paint : Nat) (sp : Spine ν)
    (before : ColorTree ν) : Repair ν → Prop
  | .whole u => Adds (6 + paint) ((plug sp before).records record none) ((plug sp u).records record none) ∧
      (plug sp u).charge ≤ (plug sp before).charge + 6
  | .short u => ∃ i, Adds (i * paint) ((plug sp before).records record none) ((plug sp u).records record none) ∧
      i + 3 * (plug sp u).charge ≤ 3 * (plug sp before).charge ∧ i ≤ 1

theorem repair_costs (paints : Paints record paint) (sp : Spine ν) (c : Color) (x : ν) (far : ColorTree ν)
    (black : near.color = .black) :
    (repair d c near x far).Costs record paint sp (.join d c near x far) := by
  fun_cases repair d c near x far with
  | case1 found => exact ⟨0, (adds_of_subset subset_rfl).mono (Nat.zero_le _), Nat.le_of_eq (Nat.zero_add _), by decide⟩
  | case2 y found farRed =>
    obtain ⟨e, inner, outer, rfl⟩ := ColorTree.exists_join found d
    simp only [ColorTree.join_near, ColorTree.join_far]
    have turned : Adds 4 ((plug sp (.join d c near x (.join d e inner y outer))).records record none)
        ((plug sp (.join d c (.join d .black near x inner) y outer)).records record none) := rotate_far_adds _ _ _ _
    have painted : Adds paint ((plug sp (.join d c (.join d .black near x inner) y outer)).records record none)
        ((plug sp (.join d c (.join d .black near x inner) y (outer.recolor .black))).records record none) := by
      rw [plug_far, plug_far]
      exact paints.recolor_plug .black
    have nephew := recolor_charge_le .black outer
    have lower := debt_le .black near.color inner.color
    have upper := debt_le c .black (outer.recolor .black).color
    refine ⟨(turned.trans painted).mono (by omega), ?_⟩
    simp only [charge_plug, charge_join, ColorTree.join_color]
    omega
  | case3 y found farBlack z innerRoot nearRed =>
    obtain ⟨e, inner, outer, rfl⟩ := ColorTree.exists_join found d
    simp only [ColorTree.join_near, ColorTree.join_far] at innerRoot ⊢
    obtain ⟨f, a, b, rfl⟩ := ColorTree.exists_join innerRoot d
    simp only [ColorTree.join_near, ColorTree.join_far]
    have turned : Adds 6 ((plug sp (.join d c near x (.join d e (.join d f a z b) y outer))).records record none)
        ((plug sp (.join d c (.join d .black near x a) z (.join d .black b y outer))).records record none) :=
      double_rotate_far_adds _ _ _ _ _ _
    have left := debt_le .black near.color a.color
    have right := debt_le .black b.color outer.color
    have upper := debt_le c .black .black
    refine ⟨turned.mono (by omega), ?_⟩
    simp only [charge_plug, charge_join, ColorTree.join_color]
    omega
  | case4 y found farBlack innerBlack =>
    have painted : Adds paint ((plug sp (.join d c near x far)).records record none)
        ((plug sp (.join d c near x (far.recolor .red))).records record none) := by
      rw [plug_far, plug_far]
      exact paints.recolor_plug .red
    by_cases farRed : far.color = .red
    · rw [ColorTree.recolor_self farRed]
      exact ⟨0, (adds_of_subset subset_rfl).mono (Nat.zero_le _), Nat.le_of_eq (Nat.zero_add _), by decide⟩
    · have siblingBlack := Color.eq_black_of_ne farRed
      have lighter := charge_redden found siblingBlack (ColorTree.black_of_root innerBlack)
        (Color.eq_black_of_ne farBlack)
      have frame : debt c .black .red ≤ debt c .black .black := by cases c <;> decide
      refine ⟨1, painted.mono (by omega), ?_, by decide⟩
      simp only [charge_plug, charge_join, ColorTree.join_color, black, siblingBlack]
      obtain ⟨e, inner, outer, rfl⟩ := ColorTree.exists_join found d
      simp only [ColorTree.join_recolor, ColorTree.join_color] at lighter ⊢
      omega

theorem plug_recolor_charge_le (sp : Spine ν) (c : Color) (t : ColorTree ν) :
    (plug sp (t.recolor c)).charge ≤ (plug sp t).charge + 4 := by
  have here := recolor_charge_le c t
  have around := spine_charge_le sp (t.recolor c).color t.color
  rw [charge_plug, charge_plug]
  omega

theorem lower_costs (f : Frame ν) (sp : Spine ν) (t : ColorTree ν) {y : ν} (found : f.sibling.root = some y) :
    Adds 4 ((plug (f :: sp) t).records record none)
      ((plug (⟨f.dir, .black, y, f.sibling.child f.dir.flip⟩ :: sp)
        (.join f.dir .red t f.value (f.sibling.child f.dir))).records record none) ∧
      (plug (⟨f.dir, .black, y, f.sibling.child f.dir.flip⟩ :: sp)
        (.join f.dir .red t f.value (f.sibling.child f.dir))).charge ≤ (plug (f :: sp) t).charge + 4 := by
  obtain ⟨d, c, x, sibling⟩ := f
  obtain ⟨e, inner, outer, rfl⟩ := ColorTree.exists_join found d
  simp only [ColorTree.join_near, ColorTree.join_far, plug_cons, Frame.fill]
  refine ⟨rotate_far_adds _ _ _ _, ?_⟩
  have upper := debt_le .black .red outer.color
  have around := spine_charge_le sp .black c
  simp only [charge_plug, charge_join, ColorTree.join_color, debt_red]
  omega

/-- A round that goes on paints one node. -/
theorem removeFix_adds (paints : Paints record paint) (sp : Spine ν) (t : ColorTree ν) :
    ∃ i, Adds (10 + i * paint) ((plug sp t).records record none) ((removeFix sp t).records record none) ∧
      i + 3 * (removeFix sp t).charge ≤ 3 * (plug sp t).charge + 44 := by
  fun_induction removeFix sp t with
  | case1 t =>
    have heavier := recolor_charge_le .black t
    refine ⟨1, (paints.recolor subset_rfl .black).mono (by omega), ?_⟩
    rw [plug_nil]
    omega
  | case2 f sp t red =>
    have heavier := plug_recolor_charge_le (f :: sp) .black t
    exact ⟨1, (paints.recolor_plug .black).mono (by omega), by omega⟩
  | case3 f sp t black y found siblingRed lowered u repaired =>
    obtain ⟨turned, heavier⟩ : Adds 4 _ ((plug lowered _).records record none) ∧ (plug lowered _).charge ≤ _ + 4 :=
      lower_costs f sp t found
    have costs := repair_costs (d := f.dir) paints lowered .red f.value (f.sibling.child f.dir)
      (Color.eq_black_of_ne black)
    rw [repaired] at costs
    have last := recolor_charge_le .black (plug lowered u)
    refine ⟨2, ((turned.trans costs.1).trans (paints.recolor subset_rfl .black)).mono (by omega), ?_⟩
    have ends := costs.2
    omega
  | case4 f sp t black y found siblingRed lowered u repaired =>
    obtain ⟨turned, heavier⟩ : Adds 4 _ ((plug lowered _).records record none) ∧ (plug lowered _).charge ≤ _ + 4 :=
      lower_costs f sp t found
    have costs := repair_costs (d := f.dir) paints lowered .red f.value (f.sibling.child f.dir)
      (Color.eq_black_of_ne black)
    rw [repaired] at costs
    obtain ⟨i, painted, pays, few⟩ := costs
    have last := plug_recolor_charge_le lowered .black u
    refine ⟨i + 1, ((turned.trans painted).trans (paints.recolor_plug .black)).mono (by rw [Nat.add_mul]; omega), ?_⟩
    omega
  | case5 f sp t black u repaired =>
    have costs := repair_costs (d := f.dir) paints sp f.color f.value f.sibling (Color.eq_black_of_ne black)
    rw [repaired] at costs
    have last := recolor_charge_le .black (plug sp u)
    refine ⟨2, (costs.1.trans (paints.recolor subset_rfl .black)).mono (by omega), ?_⟩
    have ends : _ ≤ (plug (f :: sp) t).charge + 6 := costs.2
    omega
  | case6 f sp t black u repaired siblingBlack ih =>
    have costs := repair_costs (d := f.dir) paints sp f.color f.value f.sibling (Color.eq_black_of_ne black)
    rw [repaired] at costs
    obtain ⟨i, painted, pays, _⟩ := costs
    obtain ⟨j, adds, rest⟩ := ih
    refine ⟨i + j, (painted.trans adds).mono (by rw [Nat.add_mul]; omega), ?_⟩
    have goesOn : i + 3 * (plug sp u).charge ≤ 3 * (plug (f :: sp) t).charge := pays
    omega

theorem rename_adds (inner : Spine ν) (m : ν) (p : Option ν) :
    Adds 4 ((inner ++ ⟨d, c, x, u⟩ :: sp).records record p) ((inner ++ ⟨d, c, m, u⟩ :: sp).records record p) := by
  have frame (p : Option ν) :
      Adds 3 (Spine.records record (⟨d, c, x, u⟩ :: sp) p) (Spine.records record (⟨d, c, m, u⟩ :: sp) p) := by
    have sibling : u.records record (some x) ⊆ Spine.records record (⟨d, c, x, u⟩ :: sp) p :=
      fun e member => by simp [Spine.records, member]
    have around : sp.records record (some x) ⊆ Spine.records record (⟨d, c, x, u⟩ :: sp) p :=
      fun e member => by simp [Spine.records, member]
    exact ((adds_singleton _).union ((adds_moved sibling _).union (adds_relinked around _))).mono (Nat.le_refl _)
  induction inner generalizing p with
  | nil => exact (frame p).mono (by decide)
  | cons f inner ih =>
    have kept : f.sibling.records record (some f.value) ⊆
        Spine.records record (f :: (inner ++ ⟨d, c, x, u⟩ :: sp)) p := fun e member => by simp [Spine.records, member]
    have outside : Spine.records record (inner ++ ⟨d, c, x, u⟩ :: sp) (some f.value) ⊆
        Spine.records record (f :: (inner ++ ⟨d, c, x, u⟩ :: sp)) p := fun e member => by simp [Spine.records, member]
    cases inner with
    | nil =>
      have rest := (frame (some f.value)).mono_left outside
      exact ((adds_singleton _).union ((adds_of_subset kept).union rest)).mono (Nat.le_refl _)
    | cons g inner =>
      have here : {(f.value, recordAt record f.dir (some g.value) f.color p f.sibling.root)} ⊆
          Spine.records record (f :: (g :: inner ++ ⟨d, c, x, u⟩ :: sp)) p := fun e member => by
        simp [Spine.records, Spine.top, Set.mem_singleton_iff.mp member]
      have rest := (ih (some f.value)).mono_left outside
      exact ((adds_of_subset here).union ((adds_of_subset kept).union rest)).mono (by omega)

theorem charge_renamed (inner : Spine ν) (m : ν) (e : Color) :
    (inner ++ ⟨d, c, m, u⟩ :: sp).charge e = (inner ++ ⟨d, c, x, u⟩ :: sp).charge e := by
  induction inner generalizing e with
  | nil => rfl
  | cons f inner ih => simp only [List.cons_append, Spine.charge, ih]

variable (record) in
theorem unlink_adds (sp : Spine ν) (c : Color) (l : ColorTree ν) (x : ν) (r : ColorTree ν) :
    let gap := unlink sp (.node c l x r)
    Adds 6 ((plug sp (.node c l x r)).records record none) ((plug gap.place gap.moved).records record none) ∧
      (plug gap.place gap.moved).charge ≤ (plug sp (.node c l x r)).charge + 2 := by
  intro gap
  rcases one_or_both c l x r with ⟨d, u, one⟩ | ⟨left, right⟩
  · have unlinked : gap = ⟨sp, u, c⟩ := by
      simp only [gap]
      rw [one, unlink_one]
    rw [unlinked, one]
    constructor
    · generalize within : (plug sp (.join d c .nil x u)).records record none = old
      simp only [records_plug, records_join, ColorTree.join_root] at within ⊢
      have moved : u.records record (some x) ⊆ old := fun e member => by simp [← within, member]
      have around : sp.records record (some x) ⊆ old := fun e member => by simp [← within, member]
      exact ((adds_moved moved _).union (adds_relinked around _)).mono (by decide)
    · have around := spine_charge_le sp u.color c
      simp only [charge_plug, charge_join, ColorTree.join_color]
      omega
  · obtain ⟨inner, e, m, r', rfl, _, _, unlinked⟩ := unlink_both sp c x left right
    have place : plug sp (.node c l x (plug inner (.node e .nil m r'))) =
        plug (inner ++ ⟨.right, c, x, l⟩ :: sp) (.node e .nil m r') :=
      (plug_append inner (⟨.right, c, x, l⟩ :: sp) (.node e .nil m r')).symm
    simp only [gap]
    rw [unlinked, place]
    constructor
    · rw [records_plug, records_plug]
      have subtree : r'.records record (some m) ⊆
          (ColorTree.node e .nil m r').records record (Spine.top (inner ++ ⟨.right, c, x, l⟩ :: sp)) ∪
            (inner ++ ⟨.right, c, x, l⟩ :: sp).records record (some m) :=
        fun e member => by simp [ColorTree.records, member]
      have relinked : Adds 5 ((inner ++ ⟨.right, c, x, l⟩ :: sp).records record (some m))
          ((inner ++ ⟨.right, c, m, l⟩ :: sp).records record r'.root) :=
        (rename_adds inner m (some m)).trans (adds_relinked subset_rfl r'.root)
      exact ((adds_moved subtree _).union (relinked.mono_left Set.subset_union_right)).mono (by decide)
    · have around := spine_charge_le (inner ++ ⟨.right, c, x, l⟩ :: sp) r'.color e
      have renamed : (inner ++ ⟨.right, c, m, l⟩ :: sp).charge r'.color =
          (inner ++ ⟨.right, c, x, l⟩ :: sp).charge r'.color := charge_renamed inner m _
      have top : (ColorTree.node e .nil m r').color = e := rfl
      simp only [charge_plug, renamed, top, ColorTree.charge]
      omega

/-- A removal relinks at most sixteen nodes. -/
theorem removeAt_adds (paints : Paints record paint) (sp : Spine ν) (c : Color) (l : ColorTree ν) (x : ν)
    (r : ColorTree ν) :
    ∃ i, Adds (16 + i * paint) ((plug sp (.node c l x r)).records record none)
        ((removeAt sp (.node c l x r)).records record none) ∧
      i + 3 * (removeAt sp (.node c l x r)).charge ≤ 3 * (plug sp (.node c l x r)).charge + 50 := by
  obtain ⟨taken, heavier⟩ := unlink_adds record sp c l x r
  unfold removeAt Gap.close
  split
  · obtain ⟨i, adds, pays⟩ := removeFix_adds paints (unlink sp (.node c l x r)).place (unlink sp (.node c l x r)).moved
    exact ⟨i, (taken.trans adds).mono (by omega), by omega⟩
  · exact ⟨0, taken.mono (by omega), by omega⟩

end

/-! ### Search trees in a heap -/

section
variable {record : Option ν → Color → Option ν → Option ν → ρ} {paint : Nat}

theorem insert_adds (paints : Paints record paint) {t : ColorTree ν} (redBlack : IsRedBlack t)
    (side : ν → Option Dir) (x : ν) :
    ∃ i, Adds (8 + i * paint) (t.records record none) ((t.insert side x).records record none) ∧
      i + 3 * (t.insert side x).charge ≤ 3 * t.charge + 13 := by
  cases met : t.search side with
  | some y =>
    rw [ColorTree.insert_present met]
    exact ⟨0, (adds_of_subset subset_rfl).mono (Nat.zero_le _), by omega⟩
  | none =>
    have place := ColorTree.search_none met
    have inserted := insertAt_adds paints (place.symm ▸ redBlack) x
    rwa [place, ← ColorTree.insert_absent met] at inserted

theorem remove_adds (paints : Paints record paint) (t : ColorTree ν) (side : ν → Option Dir) :
    ∃ i, Adds (16 + i * paint) (t.records record none) ((t.remove side).records record none) ∧
      i + 3 * (t.remove side).charge ≤ 3 * t.charge + 50 := by
  cases met : t.search side with
  | none =>
    rw [ColorTree.remove_absent met]
    exact ⟨0, (adds_of_subset subset_rfl).mono (Nat.zero_le _), by omega⟩
  | some x =>
    obtain ⟨c, l, r, here, place⟩ := ColorTree.search_some met
    have removed := removeAt_adds paints (descend side [] t).1 c l x r
    rwa [place, ← here, ← ColorTree.remove_present met] at removed

theorem Holds.records {heap : ν → ρ} {up : Option ν} {t : ColorTree ν} (holds : Holds record heap up t) :
    t.records record up = (fun x => (x, heap x)) '' {x | x ∈ t.toList} := by
  induction t generalizing up with
  | nil => simp [ColorTree.records, ColorTree.toList]
  | node c l x r ihl ihr =>
    obtain ⟨here, left, right⟩ := holds
    rw [ColorTree.records, ihl left, ihr right, ← here]
    ext e
    simp only [ColorTree.toList, Set.mem_union, Set.mem_image, Set.mem_ofPred_eq, List.mem_append, List.mem_cons,
      Set.mem_singleton_iff]
    grind

theorem Holds.changed {heap heap' : ν → ρ} {t t' : ColorTree ν} {k : Nat} (holds : Holds record heap none t)
    (holds' : Holds record heap' none t') (adds : Adds k (t.records record none) (t'.records record none)) :
    {x | x ∈ t'.toList ∧ heap' x ≠ heap x}.encard ≤ k := by
  have distinct : Function.Injective fun x => (x, heap' x) := fun x y same => (Prod.mk.inj same).1
  rw [← distinct.encard_image]
  refine (Set.encard_le_encard ?_).trans adds
  rintro _ ⟨x, ⟨member, changed⟩, rfl⟩
  rw [holds.records, holds'.records]
  refine ⟨⟨x, member, rfl⟩, ?_⟩
  rintro ⟨y, _, same⟩
  obtain ⟨rfl, unchanged⟩ := Prod.mk.inj same
  exact changed unchanged.symm

theorem Holds.view {β : Type} {heap : ν → ρ} {up : Option ν} {t : ColorTree ν} (holds : Holds record heap up t)
    (view : ρ → β) : Holds (fun up c l r => view (record up c l r)) (fun x => view (heap x)) up t := by
  induction t generalizing up with
  | nil => trivial
  | node c l x r ihl ihr => exact ⟨congrArg view holds.1, ihl holds.2.1, ihr holds.2.2⟩

end

end Embedlib.Library
