import Embedlib.Library.ColorTree
import Mathlib.Logic.Function.Basic

/-! Coloured trees linked together in a heap of node records.

The record of a node is a function of its parent, its colour and its two
children. `Shows` says that the links from a root spell out a tree whose nodes
are pairwise distinct; `Hangs` says the same around a position, whose link may
lag behind the subtree, which is the form in which a change of the heap is proved.
-/

set_option autoImplicit false

namespace Embedlib.Library

variable {ν ρ : Type} (record : Option ν → Color → Option ν → Option ν → ρ)

/-- The record of a node with child `near` in direction `d` and `far` opposite. -/
def recordAt (d : Dir) (up : Option ν) (c : Color) (near far : Option ν) : ρ :=
  match d with
  | .left => record up c near far
  | .right => record up c far near

def Holds (heap : ν → ρ) (up : Option ν) : ColorTree ν → Prop
  | .nil => True
  | .node c l x r => heap x = record up c l.root r.root ∧
      Holds heap (some x) l ∧ Holds heap (some x) r

/-- The heap around a hole, whose place is linked to `p`. -/
def HoldsAround (heap : ν → ρ) : Spine ν → Option ν → Prop
  | [], _ => True
  | f :: sp, p => heap f.value = recordAt record f.dir (Spine.top sp) f.color p f.sibling.root ∧
      Holds record heap (some f.value) f.sibling ∧ HoldsAround heap sp (some f.value)

structure Shows (heap : ν → ρ) (root : Option ν) (t : ColorTree ν) : Prop where
  root_eq : root = t.root
  holds : Holds record heap none t
  distinct : t.toList.Nodup

/-- The subtree `t` belongs at the end of the spine, where the link is still `p`. -/
structure Hangs (heap : ν → ρ) (root : Option ν) (sp : Spine ν) (p : Option ν) (t : ColorTree ν) :
    Prop where
  root_eq : root = sp.rootOf p
  around : HoldsAround record heap sp p
  holds : Holds record heap sp.top t
  distinct : (t.toList ++ sp.nodes).Nodup

section
variable {record} {heap heap' : ν → ρ} {root up : Option ν} {sp : Spine ν} {t u : ColorTree ν}
  {d : Dir} {c : Color} {x : ν}

@[simp] theorem recordAt_flip (d : Dir) (up : Option ν) (c : Color) (p q : Option ν) :
    recordAt record d.flip up c p q = recordAt record d up c q p := by cases d <;> rfl

@[simp] theorem holds_join :
    Holds record heap up (.join d c t x u) ↔ heap x = recordAt record d up c t.root u.root ∧
      Holds record heap (some x) t ∧ Holds record heap (some x) u := by
  cases d
  · exact Iff.rfl
  · exact and_congr_right fun _ => and_comm

theorem holds_plug : Holds record heap none (sp.plug t) ↔
    HoldsAround record heap sp t.root ∧ Holds record heap sp.top t := by
  induction sp generalizing t with
  | nil => exact ⟨fun holds => ⟨trivial, holds⟩, fun both => both.2⟩
  | cons f sp ih =>
    rw [Spine.plug_cons, ih, Frame.fill, holds_join, ColorTree.join_root, HoldsAround]
    constructor
    · rintro ⟨outer, here, inner, sibling⟩; exact ⟨⟨here, sibling, outer⟩, inner⟩
    · rintro ⟨⟨here, sibling, outer⟩, inner⟩; exact ⟨outer, here, inner, sibling⟩

theorem shows_plug :
    Shows record heap root (sp.plug t) ↔ Hangs record heap root sp t.root t := by
  constructor
  · rintro ⟨rootEq, holds, distinct⟩
    obtain ⟨around, inner⟩ := holds_plug.mp holds
    exact ⟨by rw [rootEq, Spine.plug_root], around, inner, Spine.nodup_plug.mp distinct⟩
  · rintro ⟨rootEq, around, inner, distinct⟩
    exact ⟨by rw [rootEq, Spine.plug_root], holds_plug.mpr ⟨around, inner⟩,
      Spine.nodup_plug.mpr distinct⟩

/-- The frame rule: a tree depends only on the records of its nodes. -/
theorem Holds.congr (holds : Holds record heap up t) (same : ∀ x ∈ t.toList, heap' x = heap x) :
    Holds record heap' up t := by
  induction t generalizing up with
  | nil => trivial
  | node c l x r ihl ihr =>
    obtain ⟨here, left, right⟩ := holds
    simp only [ColorTree.toList, List.mem_append, List.mem_cons] at same
    exact ⟨(same x (.inr (.inl rfl))).trans here, ihl left fun y member => same y (.inl member),
      ihr right fun y member => same y (.inr (.inr member))⟩

theorem Holds.unique (holds : Holds record heap up t) (holds' : Holds record heap' up t) :
    ∀ x ∈ t.toList, heap' x = heap x := by
  induction t generalizing up with
  | nil => nofun
  | node c l x r ihl ihr =>
    obtain ⟨here, left, right⟩ := holds
    obtain ⟨here', left', right'⟩ := holds'
    intro y member
    rw [ColorTree.toList, List.mem_append, List.mem_cons] at member
    rcases member with inLeft | rfl | inRight
    · exact ihl left left' y inLeft
    · exact here'.trans here.symm
    · exact ihr right right' y inRight

theorem HoldsAround.congr {p : Option ν} (holds : HoldsAround record heap sp p)
    (same : ∀ x ∈ sp.nodes, heap' x = heap x) : HoldsAround record heap' sp p := by
  induction sp generalizing p with
  | nil => trivial
  | cons f sp ih =>
    obtain ⟨here, sibling, outer⟩ := holds
    simp only [Spine.nodes, List.mem_cons, List.mem_append] at same
    exact ⟨(same _ (.inl rfl)).trans here, sibling.congr fun y member => same y (.inr (.inl member)),
      ih outer fun y member => same y (.inr (.inr member))⟩

theorem HoldsAround.relink {p q : Option ν} (holds : HoldsAround record heap sp p)
    (distinct : sp.nodes.Nodup)
    (linked : ∀ f rest, sp = f :: rest →
      heap' f.value = recordAt record f.dir (Spine.top rest) f.color q f.sibling.root)
    (same : ∀ x ∈ sp.nodes, sp.top ≠ some x → heap' x = heap x) :
    HoldsAround record heap' sp q := by
  cases sp with
  | nil => trivial
  | cons f sp =>
    obtain ⟨_, sibling, outer⟩ := holds
    obtain ⟨fresh, rest⟩ := List.nodup_cons.mp distinct
    -- Only the innermost frame refers to the hole, so every other record is as it was.
    have apart : ∀ y ∈ f.sibling.toList ++ Spine.nodes sp, heap' y = heap y := by
      intro y member
      apply same y (List.mem_cons_of_mem _ member)
      intro top
      exact fresh (Option.some.inj top ▸ member)
    exact ⟨linked f sp rfl, sibling.congr fun y member => apart y (List.mem_append_left _ member),
      outer.congr fun y member => apart y (List.mem_append_right _ member)⟩

theorem Hangs.node_eq {p : Option ν} (hangs : Hangs record heap root sp p (.join d c t x u)) :
    heap x = recordAt record d sp.top c t.root u.root := (holds_join.mp hangs.holds).1

theorem Shows.node_eq (shows : Shows record heap root (sp.plug (.join d c t x u))) :
    heap x = recordAt record d sp.top c t.root u.root := (shows_plug.mp shows).node_eq

theorem Holds.links (holds : Holds record heap up t) {y : ν} (member : y ∈ t.toList) :
    ∃ parent c left right, heap y = record parent c left right ∧
      (∀ z, parent = some z → up = some z ∨ z ∈ t.toList) ∧
      (∀ z, left = some z → z ∈ t.toList) ∧ ∀ z, right = some z → z ∈ t.toList := by
  induction t generalizing up with
  | nil => cases member
  | node c l x r ihl ihr =>
    obtain ⟨here, left, right⟩ := holds
    simp only [ColorTree.toList, List.mem_append, List.mem_cons] at member ⊢
    rcases member with inLeft | rfl | inRight
    · obtain ⟨p, e, a, b, eq, parents, lefts, rights⟩ := ihl left inLeft
      refine ⟨p, e, a, b, eq, fun z same => ?_, fun z same => .inl (lefts z same),
        fun z same => .inl (rights z same)⟩
      exact (parents z same).elim (fun is => .inr (.inr (.inl (Option.some.inj is).symm))) fun is => .inr (.inl is)
    · exact ⟨up, c, l.root, r.root, here, fun z same => .inl same,
        fun z same => .inl (ColorTree.root_mem same), fun z same => .inr (.inr (ColorTree.root_mem same))⟩
    · obtain ⟨p, e, a, b, eq, parents, lefts, rights⟩ := ihr right inRight
      refine ⟨p, e, a, b, eq, fun z same => ?_, fun z same => .inr (.inr (lefts z same)),
        fun z same => .inr (.inr (rights z same))⟩
      exact (parents z same).elim (fun is => .inr (.inr (.inl (Option.some.inj is).symm)))
        fun is => .inr (.inr (.inr is))

theorem Shows.frame_eq {f : Frame ν} {rest : Spine ν}
    (shows : Shows record heap root (Spine.plug (f :: rest) t)) :
    heap f.value = recordAt record f.dir (Spine.top rest) f.color t.root f.sibling.root :=
  (shows_plug.mp shows).around.1

theorem Shows.subtree_nodup (shows : Shows record heap root (sp.plug t)) : t.toList.Nodup :=
  (List.nodup_append.mp (shows_plug.mp shows).distinct).1

theorem Shows.sibling_ne {f : Frame ν} {rest : Spine ν}
    (shows : Shows record heap root (Spine.plug (f :: rest) t)) (found : t.root = some x) :
    f.sibling.root ≠ some x := by
  obtain ⟨_, _, apart⟩ := List.nodup_append.mp (shows_plug.mp shows).distinct
  intro sibling
  exact apart x (ColorTree.root_mem found) x (by simp [Spine.nodes, ColorTree.root_mem sibling]) rfl

theorem Shows.root_ne {f : Frame ν} {rest : Spine ν}
    (shows : Shows record heap root (Spine.plug (f :: rest) t)) : t.root ≠ root := by
  obtain ⟨y, member, outer⟩ := Spine.rootOf_mem f rest t.root
  obtain ⟨_, _, apart⟩ := List.nodup_append.mp (shows_plug.mp shows).distinct
  rw [shows.root_eq, Spine.plug_root, outer]
  exact fun found => apart y (ColorTree.root_mem found) y member rfl

theorem Shows.far (shows : Shows record heap root (sp.plug (.join d c t x u))) :
    Shows record heap root (Spine.plug (⟨d.flip, c, x, t⟩ :: sp) u) :=
  Spine.plug_far sp d c t x u ▸ shows

theorem Shows.of_far (shows : Shows record heap root (Spine.plug (⟨d.flip, c, x, t⟩ :: sp) u)) :
    Shows record heap root (sp.plug (.join d c t x u)) := Spine.plug_far sp d c t x u ▸ shows

theorem Shows.near (shows : Shows record heap root (sp.plug (.join d c t x u))) :
    Shows record heap root (Spine.plug (⟨d, c, x, u⟩ :: sp) t) := shows

theorem Shows.of_near (shows : Shows record heap root (Spine.plug (⟨d, c, x, u⟩ :: sp) t)) :
    Shows record heap root (sp.plug (.join d c t x u)) := shows

theorem nodup_join {rest : List ν} :
    ((ColorTree.join d c t x u).toList ++ rest).Nodup ↔
      (x :: (t.toList ++ (u.toList ++ rest))).Nodup := by
  rw [((ColorTree.join_toList_perm d c t x u).append_right rest).nodup_iff]
  simp

theorem Hangs.fresh {p : Option ν} (hangs : Hangs record heap root sp p (.join d c t x u)) :
    x ∉ t.toList ∧ x ∉ u.toList ∧ x ∉ sp.nodes := by
  have distinct := (List.nodup_cons.mp (nodup_join.mp hangs.distinct)).1
  simpa using distinct

theorem Hangs.replace {p : Option ν} (hangs : Hangs record heap root sp p t)
    (holds : Holds record heap' sp.top u) (same : ∀ y ∈ sp.nodes, heap' y = heap y)
    (distinct : (u.toList ++ sp.nodes).Nodup) : Hangs record heap' root sp p u :=
  ⟨hangs.root_eq, hangs.around.congr same, holds, distinct⟩

theorem Hangs.focus {p : Option ν} (hangs : Hangs record heap root sp p t)
    (holds : Holds record heap' sp.top u) (same : ∀ y ∈ sp.nodes, heap' y = heap y)
    (perm : t.toList.Perm u.toList) : Hangs record heap' root sp p u :=
  hangs.replace holds same ((perm.append_right sp.nodes).nodup_iff.mp hangs.distinct)

theorem successor_distinct (inner : Spine ν) {c e : Color} {l r : ColorTree ν} {x m : ν}
    {rest : List ν}
    (distinct : ((ColorTree.node c l x (inner.plug (.node e .nil m r))).toList ++ rest).Nodup) :
    (x :: m :: (l.toList ++ (r.toList ++ (inner.nodes ++ rest)))).Nodup := by
  have right : (inner.plug (.node e .nil m r)).toList.Perm (m :: (r.toList ++ inner.nodes)) := by
    simpa [ColorTree.toList] using Spine.plug_perm inner (.node e .nil m r)
  have whole : (ColorTree.node c l x (inner.plug (.node e .nil m r))).toList.Perm
      (x :: (l.toList ++ m :: (r.toList ++ inner.nodes))) :=
    (ColorTree.join_toList_perm .left c l x _).trans ((right.append_left l.toList).cons x)
  have lifted := ((whole.trans (List.perm_middle.cons x)).append_right rest).nodup_iff.mp distinct
  simpa only [List.cons_append, List.append_assoc] using lifted

theorem moved_distinct (inner : Spine ν) {c : Color} {l r : ColorTree ν} {m : ν} {rest : List ν}
    (distinct : (m :: (l.toList ++ (r.toList ++ (inner.nodes ++ rest)))).Nodup) :
    ((ColorTree.node c l m (inner.plug r)).toList ++ rest).Nodup := by
  have whole : (ColorTree.node c l m (inner.plug r)).toList.Perm
      (m :: (l.toList ++ (r.toList ++ inner.nodes))) :=
    (ColorTree.join_toList_perm .left c l m _).trans
      (((Spine.plug_perm inner r).append_left l.toList).cons m)
  apply (whole.append_right rest).nodup_iff.mpr
  simpa only [List.cons_append, List.append_assoc] using distinct

theorem Hangs.paint {p : Option ν} {c' : Color} (hangs : Hangs record heap root sp p (.join d c t x u))
    (here : heap' x = recordAt record d sp.top c' t.root u.root)
    (apart : ∀ y, y ≠ x → heap' y = heap y) : Hangs record heap' root sp p (.join d c' t x u) := by
  obtain ⟨inNear, inFar, inSpine⟩ := hangs.fresh
  obtain ⟨_, near, far⟩ := holds_join.mp hangs.holds
  refine hangs.focus (holds_join.mpr ⟨here, ?_, ?_⟩) ?_ ?_
  · exact near.congr fun y member => apart y (ne_of_mem_of_not_mem member inNear)
  · exact far.congr fun y member => apart y (ne_of_mem_of_not_mem member inFar)
  · exact fun y member => apart y (ne_of_mem_of_not_mem member inSpine)
  · exact (ColorTree.join_toList_perm ..).trans (ColorTree.join_toList_perm ..).symm

theorem Hangs.rotation_fresh {p : Option ν} {c' : Color} {a b e : ColorTree ν} {y : ν}
    (hangs : Hangs record heap root sp p (.join d c a x (.join d c' b y e))) :
    x ≠ y ∧ ∀ z, z ∈ a.toList ∨ z ∈ b.toList ∨ z ∈ e.toList ∨ z ∈ sp.nodes → z ≠ x ∧ z ≠ y := by
  have distinct := nodup_join.mp hangs.distinct
  have perm := (ColorTree.join_toList_perm d c' b y e).append_right sp.nodes
  have moved := ((perm.append_left a.toList).cons x).nodup_iff.mp distinct
  simp only [List.cons_append, List.nodup_cons, List.mem_append, List.mem_cons, not_or,
    List.nodup_middle] at moved
  obtain ⟨⟨xA, xy, ⟨xB, xE⟩, xSp⟩, ⟨yA, ⟨yB, yE⟩, ySp⟩, _⟩ := moved
  refine ⟨xy, fun z member => ⟨?_, ?_⟩⟩ <;> rintro rfl <;> rcases member with m | m | m | m <;>
    contradiction

theorem rotate_perm (d : Dir) (c c' e e' : Color) (a b u : ColorTree ν) (x y : ν) :
    (ColorTree.join d c a x (.join d c' b y u)).toList.Perm
      (ColorTree.join d e (.join d e' a x b) y u).toList := by
  cases d <;> simp [ColorTree.join, ColorTree.toList]

/-- Rotate `x` in direction `d` below `y`, whose place is linked to `p'`. The
subtree between them changes its parent. -/
theorem Hangs.rotate_at {root' p p' : Option ν} {c' : Color} {a b e : ColorTree ν} {y : ν}
    (hangs : Hangs record heap root sp p (.join d c a x (.join d c' b y e)))
    (rooted : root' = sp.rootOf p') (around : HoldsAround record heap' sp p')
    (lower : heap' x = recordAt record d (some y) c a.root b.root)
    (upper : heap' y = recordAt record d sp.top c' (some x) e.root)
    (moved : Holds record heap' (some x) b)
    (same : ∀ z, z ∈ a.toList ∨ z ∈ e.toList → heap' z = heap z) :
    Hangs record heap' root' sp p' (.join d c' (.join d c a x b) y e) := by
  obtain ⟨_, near, far⟩ := holds_join.mp hangs.holds
  obtain ⟨_, _, outer⟩ := holds_join.mp far
  refine ⟨rooted, around, holds_join.mpr ⟨by simpa using upper, holds_join.mpr ⟨lower, ?_, moved⟩, ?_⟩, ?_⟩
  · exact near.congr fun z member => same z (.inl member)
  · exact outer.congr fun z member => same z (.inr member)
  · exact ((rotate_perm d c c' c' c a b e x y).append_right sp.nodes).nodup_iff.mp hangs.distinct

theorem Hangs.rotation_apart {p : Option ν} {c' : Color} {a b e : ColorTree ν} {y : ν}
    (hangs : Hangs record heap root sp p (.join d c a x (.join d c' b y e))) :
    ∀ z, z ∈ a.toList ∨ z ∈ e.toList ∨ z ∈ sp.nodes → z ∉ b.toList := by
  have spread := (((ColorTree.join_toList_perm d c a x (.join d c' b y e)).trans
    (((ColorTree.join_toList_perm d c' b y e).append_left a.toList).cons x)).append_right
      sp.nodes).nodup_iff.mp hangs.distinct
  simp only [List.nodup_append, List.cons_append, List.nodup_cons, List.mem_append,
    List.mem_cons] at spread
  grind

theorem Hangs.rotate {p : Option ν} {c' : Color} {a b e : ColorTree ν} {y : ν}
    (hangs : Hangs record heap root sp p (.join d c a x (.join d c' b y e)))
    (lower : heap' x = recordAt record d (some y) c a.root b.root)
    (upper : heap' y = recordAt record d sp.top c' (some x) e.root)
    (moved : Holds record heap' (some x) b)
    (same : ∀ z, z ≠ x → z ≠ y → z ∉ b.toList → heap' z = heap z) :
    Hangs record heap' root sp p (.join d c' (.join d c a x b) y e) := by
  obtain ⟨_, apart⟩ := hangs.rotation_fresh
  have aside := hangs.rotation_apart
  refine hangs.rotate_at hangs.root_eq (hangs.around.congr fun z m => ?_) lower upper moved fun z m => ?_
  · have other := apart z (.inr (.inr (.inr m)))
    exact same z other.1 other.2 (aside z (.inr (.inr m)))
  · have other := apart z (m.elim .inl fun m => .inr (.inr (.inl m)))
    exact same z other.1 other.2 (aside z (m.elim .inl fun m => .inr (.inl m)))

theorem Shows.rotate {root' : Option ν} {c' : Color} {a b e : ColorTree ν} {y : ν}
    (shows : Shows record heap root (sp.plug (.join d c a x (.join d c' b y e))))
    (rooted : root' = sp.rootOf (some y))
    (linked : ∀ f rest, sp = f :: rest →
      heap' f.value = recordAt record f.dir (Spine.top rest) f.color (some y) f.sibling.root)
    (lower : heap' x = recordAt record d (some y) c a.root b.root)
    (upper : heap' y = recordAt record d sp.top c' (some x) e.root)
    (moved : Holds record heap' (some x) b)
    (same : ∀ z, z ≠ x → z ≠ y → z ∉ b.toList → sp.top ≠ some z → heap' z = heap z) :
    Shows record heap' root' (sp.plug (.join d c' (.join d c a x b) y e)) := by
  have hangs := shows_plug.mp shows
  obtain ⟨_, apart⟩ := hangs.rotation_fresh
  have aside := hangs.rotation_apart
  obtain ⟨_, spineDistinct, outside⟩ := List.nodup_append.mp hangs.distinct
  -- Here the frame above changes as well, so the spine is relinked and not kept.
  have around : HoldsAround record heap' sp (some y) :=
    hangs.around.relink spineDistinct linked fun z m other =>
      have away := apart z (.inr (.inr (.inr m)))
      same z away.1 away.2 (aside z (.inr (.inr m))) other
  apply shows_plug.mpr
  rw [ColorTree.join_root]
  apply hangs.rotate_at rooted around lower upper moved
  intro z m
  have away := apart z (m.elim .inl fun m => .inr (.inr (.inl m)))
  refine same z away.1 away.2 (aside z (m.elim .inl fun m => .inr (.inl m))) fun top => ?_
  exact outside z (by rcases m with m | m <;> simp [m]) z
    (Spine.top_mem top) rfl

/-- Only the root of a subtree knows its parent. -/
theorem Holds.reparent {up' : Option ν} (holds : Holds record heap up t) (distinct : t.toList.Nodup)
    (here : ∀ c l x r, t = .node c l x r → heap' x = record up' c l.root r.root)
    (same : ∀ z ∈ t.toList, t.root ≠ some z → heap' z = heap z) : Holds record heap' up' t := by
  cases t with
  | nil => trivial
  | node c l x r =>
    obtain ⟨_, left, right⟩ := holds
    obtain ⟨_, rest, apart⟩ := List.nodup_append.mp distinct
    have other : ∀ z, z ∈ l.toList ∨ z ∈ r.toList → z ≠ x := by
      rintro z (member | member)
      · exact apart z member x List.mem_cons_self
      · exact ne_of_mem_of_not_mem member (List.nodup_cons.mp rest).1
    -- The children keep their parent `x`, so below the root nothing is read again.
    have below : ∀ z, z ∈ l.toList ∨ z ∈ r.toList → heap' z = heap z := fun z member =>
      same z (by simpa [ColorTree.toList, or_left_comm] using .inr member) fun root =>
        other z member (Option.some.inj root).symm
    exact ⟨here c l x r rfl, left.congr fun z m => below z (.inl m), right.congr fun z m => below z (.inr m)⟩

theorem Shows.cut {root' : Option ν} (shows : Shows record heap root (sp.plug (.join d c .nil x u)))
    (rooted : root' = sp.rootOf u.root) (moved : Holds record heap' sp.top u)
    (linked : ∀ f rest, sp = f :: rest →
      heap' f.value = recordAt record f.dir (Spine.top rest) f.color u.root f.sibling.root)
    (same : ∀ z ∈ sp.nodes, sp.top ≠ some z → heap' z = heap z) :
    Shows record heap' root' (sp.plug u) := by
  have hangs := shows_plug.mp shows
  have distinct := (List.nodup_cons.mp (nodup_join.mp hangs.distinct)).2
  simp only [ColorTree.toList, List.nil_append] at distinct
  have outer := (List.nodup_append.mp distinct).2.1
  exact shows_plug.mpr ⟨rooted, hangs.around.relink outer linked same, moved, distinct⟩

theorem Shows.attach {root' : Option ν} (shows : Shows record heap root (sp.plug .nil))
    (fresh : x ∉ sp.nodes) (rooted : root' = sp.rootOf (some x))
    (here : heap' x = record sp.top c none none)
    (linked : ∀ f rest, sp = f :: rest →
      heap' f.value = recordAt record f.dir (Spine.top rest) f.color (some x) f.sibling.root)
    (same : ∀ z ∈ sp.nodes, sp.top ≠ some z → heap' z = heap z) :
    Shows record heap' root' (sp.plug (.node c .nil x .nil)) := by
  have hangs := shows_plug.mp shows
  refine shows_plug.mpr ⟨rooted, hangs.around.relink hangs.distinct linked same, ⟨here, trivial, trivial⟩, ?_⟩
  exact List.nodup_cons.mpr ⟨fresh, hangs.distinct⟩

theorem Hangs.link {root' p : Option ν} (hangs : Hangs record heap root sp p t)
    (rooted : root' = sp.rootOf t.root)
    (linked : ∀ f rest, sp = f :: rest →
      heap' f.value = recordAt record f.dir (Spine.top rest) f.color t.root f.sibling.root)
    (same : ∀ x, sp.top ≠ some x → heap' x = heap x) :
    Shows record heap' root' (sp.plug t) := by
  obtain ⟨_, spineDistinct, apart⟩ := List.nodup_append.mp hangs.distinct
  refine shows_plug.mpr ⟨rooted, ?_, ?_, hangs.distinct⟩
  · exact hangs.around.relink spineDistinct linked fun x _ other => same x other
  · refine hangs.holds.congr fun x member => same x fun top => ?_
    cases sp with
    | nil => cases top
    | cons f sp =>
      cases top
      exact apart _ member _ (by simp [Spine.nodes]) rfl

end

end Embedlib.Library
