import Mathlib.Data.List.Nodup
import Mathlib.Data.List.Perm.Basic

/-! Coloured binary trees with a hole.

Positions are spines: the frames from a subtree up to the root, innermost first.
Everything is stated for a direction and its opposite, so that one lemma serves
the two mirror images of a rotation.
-/

set_option autoImplicit false

namespace Embedlib.Library

inductive Dir where | left | right
  deriving DecidableEq, Repr

def Dir.flip : Dir → Dir
  | .left => .right
  | .right => .left

@[simp] theorem Dir.flip_flip (d : Dir) : d.flip.flip = d := by cases d <;> rfl

@[simp] theorem Dir.flip_ne (d : Dir) : d.flip ≠ d := by cases d <;> decide

theorem Dir.eq_flip_of_ne {d e : Dir} (different : d ≠ e) : d = e.flip := by
  cases d <;> cases e <;> simp_all [flip]

inductive Color where | red | black
  deriving DecidableEq, Repr

theorem Color.eq_black_of_ne {c : Color} (different : c ≠ .red) : c = .black := by
  cases c <;> simp_all

inductive ColorTree (α : Type) where
  | nil
  | node (color : Color) (left : ColorTree α) (value : α) (right : ColorTree α)
  deriving DecidableEq, Repr

namespace ColorTree

variable {α : Type}

def root : ColorTree α → Option α
  | nil => none
  | node _ _ x _ => some x

/-- The empty tree counts as black. -/
def color : ColorTree α → Color
  | nil => .black
  | node c _ _ _ => c

def toList : ColorTree α → List α
  | nil => []
  | node _ l x r => l.toList ++ x :: r.toList

def size : ColorTree α → Nat
  | nil => 0
  | node _ l _ r => l.size + 1 + r.size

def height : ColorTree α → Nat
  | nil => 0
  | node _ l _ r => max l.height r.height + 1

def child (d : Dir) : ColorTree α → ColorTree α
  | nil => nil
  | node _ l _ r => match d with
    | .left => l
    | .right => r

def recolor (c : Color) : ColorTree α → ColorTree α
  | nil => nil
  | node _ l x r => node c l x r

/-- The node `x` with `near` in direction `d` and `far` opposite. -/
def join (d : Dir) (c : Color) (near : ColorTree α) (x : α) (far : ColorTree α) : ColorTree α :=
  match d with
  | .left => node c near x far
  | .right => node c far x near

theorem node_eq_join (d : Dir) (c : Color) (l : ColorTree α) (x : α) (r : ColorTree α) :
    node c l x r = join d c ((node c l x r).child d) x ((node c l x r).child d.flip) := by
  cases d <;> rfl

theorem node_ne_nil {c : Color} {l : ColorTree α} {x : α} {r : ColorTree α} : node c l x r ≠ nil := by
  intro same
  cases same

theorem join_ne_nil {d : Dir} {c : Color} {t : ColorTree α} {x : α} {u : ColorTree α} :
    join d c t x u ≠ nil := by
  cases d
  · exact node_ne_nil
  · exact node_ne_nil

@[simp] theorem join_flip (d : Dir) (c : Color) (t : ColorTree α) (x : α) (u : ColorTree α) :
    join d.flip c t x u = join d c u x t := by cases d <;> rfl

@[simp] theorem join_root (d : Dir) (c : Color) (t : ColorTree α) (x : α) (u : ColorTree α) :
    (join d c t x u).root = some x := by cases d <;> rfl

@[simp] theorem join_color (d : Dir) (c : Color) (t : ColorTree α) (x : α) (u : ColorTree α) :
    (join d c t x u).color = c := by cases d <;> rfl

@[simp] theorem join_recolor (d : Dir) (c e : Color) (t : ColorTree α) (x : α) (u : ColorTree α) :
    (join d c t x u).recolor e = join d e t x u := by cases d <;> rfl

@[simp] theorem join_near (d : Dir) (c : Color) (t : ColorTree α) (x : α) (u : ColorTree α) :
    (join d c t x u).child d = t := by cases d <;> rfl

@[simp] theorem join_far (d : Dir) (c : Color) (t : ColorTree α) (x : α) (u : ColorTree α) :
    (join d c t x u).child d.flip = u := by cases d <;> rfl

theorem join_height (d : Dir) (c : Color) (t : ColorTree α) (x : α) (u : ColorTree α) :
    (join d c t x u).height = max t.height u.height + 1 := by
  cases d <;> simp [join, height, Nat.max_comm]

theorem join_toList_perm (d : Dir) (c : Color) (t : ColorTree α) (x : α) (u : ColorTree α) :
    (join d c t x u).toList.Perm (x :: (t.toList ++ u.toList)) := by
  cases d
  · exact List.perm_middle
  · exact List.perm_middle.trans (List.perm_append_comm.cons x)

@[simp] theorem mem_join {d : Dir} {c : Color} {t : ColorTree α} {x y : α} {u : ColorTree α} :
    y ∈ (join d c t x u).toList ↔ y = x ∨ y ∈ t.toList ∨ y ∈ u.toList := by
  simp [(join_toList_perm d c t x u).mem_iff]

@[simp] theorem recolor_root (c : Color) (t : ColorTree α) : (t.recolor c).root = t.root := by
  cases t <;> rfl

@[simp] theorem recolor_toList (c : Color) (t : ColorTree α) : (t.recolor c).toList = t.toList := by
  cases t <;> rfl

@[simp] theorem recolor_height (c : Color) (t : ColorTree α) : (t.recolor c).height = t.height := by
  cases t <;> rfl

theorem recolor_self {c : Color} {t : ColorTree α} (same : t.color = c) : t.recolor c = t := by
  cases t with
  | nil => rfl
  | node e l x r => simp only [color] at same; rw [same]; rfl

theorem recolor_black_color (t : ColorTree α) : (t.recolor .black).color = .black := by
  cases t <;> rfl

theorem root_mem {t : ColorTree α} {x : α} (found : t.root = some x) : x ∈ t.toList := by
  cases t with
  | nil => cases found
  | node c l y r => cases found; simp [toList]

theorem exists_join {t : ColorTree α} {x : α} (found : t.root = some x) (d : Dir) :
    ∃ c near far, t = join d c near x far := by
  cases t with
  | nil => cases found
  | node c l y r =>
    obtain rfl : y = x := Option.some.inj found
    exact ⟨c, _, _, node_eq_join d c l y r⟩

theorem root_eq_none {t : ColorTree α} : t.root = none ↔ t = nil := by
  cases t <;> simp [root]

theorem black_of_root {t : ColorTree α} (black : ∀ x, t.color = .red → t.root = some x → False) :
    t.color = .black := by
  cases t with
  | nil => rfl
  | node c l x r => exact Color.eq_black_of_ne fun red => black x red rfl

theorem length_toList (t : ColorTree α) : t.toList.length = t.size := by
  induction t with
  | nil => rfl
  | node c l x r ihl ihr => simp [toList, size, ihl, ihr]; omega

theorem height_le_size (t : ColorTree α) : t.height ≤ t.size := by
  induction t with
  | nil => simp [height]
  | node c l x r ihl ihr => simp only [height, size]; omega

/-- A red node is never a child of a red node. -/
def NoRedRed : ColorTree α → Prop
  | nil => True
  | node c l _ r => (c = .red → l.color = .black ∧ r.color = .black) ∧ l.NoRedRed ∧ r.NoRedRed

/-- The numbers of black nodes on the paths from the root to the empty subtrees. -/
def pathBlacks : ColorTree α → List Nat
  | nil => [0]
  | node c l _ r => (l.pathBlacks ++ r.pathBlacks).map (· + if c = .black then 1 else 0)

end ColorTree

/-- One step of the way up: the parent, the side the subtree hangs on, and the
subtree on the other side. -/
structure Frame (α : Type) where
  dir : Dir
  color : Color
  value : α
  sibling : ColorTree α
  deriving DecidableEq, Repr

abbrev Spine (α : Type) := List (Frame α)

variable {α : Type}

def Frame.fill (f : Frame α) (t : ColorTree α) : ColorTree α :=
  ColorTree.join f.dir f.color t f.value f.sibling

namespace Spine

/-- The whole tree: `t` at the end of the spine. -/
def plug : Spine α → ColorTree α → ColorTree α
  | [], t => t
  | f :: sp, t => plug sp (f.fill t)

def top : Spine α → Option α
  | [] => none
  | f :: _ => some f.value

def nodes : Spine α → List α
  | [] => []
  | f :: sp => f.value :: (f.sibling.toList ++ nodes sp)

def before : Spine α → List α
  | [] => []
  | f :: sp => before sp ++ match f.dir with
    | .left => []
    | .right => f.sibling.toList ++ [f.value]

def after : Spine α → List α
  | [] => []
  | f :: sp => (match f.dir with
    | .left => f.value :: f.sibling.toList
    | .right => []) ++ after sp

/-- The root of the plugged tree, from the root of what is plugged in. -/
def rootOf : Spine α → Option α → Option α
  | [], p => p
  | f :: sp, _ => rootOf sp (some f.value)

@[simp] theorem plug_nil (t : ColorTree α) : plug [] t = t := rfl

theorem plug_cons (f : Frame α) (sp : Spine α) (t : ColorTree α) :
    plug (f :: sp) t = plug sp (f.fill t) := rfl

theorem plug_append (inner outer : Spine α) (t : ColorTree α) :
    plug (inner ++ outer) t = plug outer (plug inner t) := by
  induction inner generalizing t with
  | nil => rfl
  | cons f sp ih => exact ih (f.fill t)

theorem plug_far (sp : Spine α) (d : Dir) (c : Color) (t : ColorTree α) (x : α) (u : ColorTree α) :
    plug sp (.join d c t x u) = plug (⟨d.flip, c, x, t⟩ :: sp) u := by
  simp [plug, Frame.fill]

theorem plug_root (sp : Spine α) (t : ColorTree α) : (plug sp t).root = rootOf sp t.root := by
  induction sp generalizing t with
  | nil => rfl
  | cons f sp ih => simp [plug, rootOf, ih, Frame.fill]

theorem top_mem {sp : Spine α} {x : α} (top : top sp = some x) : x ∈ nodes sp := by
  cases sp with
  | nil => cases top
  | cons f sp => cases top; simp [nodes]

theorem rootOf_mem (f : Frame α) (sp : Spine α) (p : Option α) :
    ∃ y ∈ nodes (f :: sp), rootOf (f :: sp) p = some y := by
  induction sp generalizing f p with
  | nil => exact ⟨f.value, by simp [nodes], rfl⟩
  | cons g sp ih =>
    obtain ⟨y, member, outer⟩ := ih g (some f.value)
    exact ⟨y, by rw [nodes]; simp [member], outer⟩

theorem plug_cons_ne_nil (f : Frame α) (sp : Spine α) (t : ColorTree α) : plug (f :: sp) t ≠ .nil := by
  intro empty
  have root := plug_root (f :: sp) t
  obtain ⟨y, _, outer⟩ := rootOf_mem f sp t.root
  rw [empty, outer] at root
  cases root

theorem plug_toList (sp : Spine α) (t : ColorTree α) :
    (plug sp t).toList = sp.before ++ t.toList ++ sp.after := by
  induction sp generalizing t with
  | nil => simp [before, after]
  | cons f sp ih =>
    rw [plug_cons, ih, Frame.fill]
    cases direction : f.dir <;>
      simp [ColorTree.join, ColorTree.toList, before, after, direction]

theorem plug_perm (sp : Spine α) (t : ColorTree α) :
    (plug sp t).toList.Perm (t.toList ++ sp.nodes) := by
  induction sp generalizing t with
  | nil => simp [nodes]
  | cons f sp ih =>
    have inner := (ColorTree.join_toList_perm f.dir f.color t f.value f.sibling).append_right (nodes sp)
    have shuffle : (f.value :: (t.toList ++ f.sibling.toList) ++ nodes sp).Perm
        (t.toList ++ nodes (f :: sp)) := by
      simpa [nodes] using
        (@List.perm_middle _ f.value t.toList (f.sibling.toList ++ nodes sp)).symm
    exact (ih (f.fill t)).trans (inner.trans shuffle)

theorem mem_plug {sp : Spine α} {t : ColorTree α} {x : α} :
    x ∈ (plug sp t).toList ↔ x ∈ t.toList ∨ x ∈ nodes sp := by
  simp [(plug_perm sp t).mem_iff]

theorem nodup_plug {sp : Spine α} {t : ColorTree α} :
    (plug sp t).toList.Nodup ↔ (t.toList ++ nodes sp).Nodup := (plug_perm sp t).nodup_iff

theorem length_height_le (sp : Spine α) (t : ColorTree α) :
    sp.length + t.height ≤ (plug sp t).height := by
  induction sp generalizing t with
  | nil => simp
  | cons f sp ih =>
    have deeper := ih (f.fill t)
    rw [Frame.fill, ColorTree.join_height] at deeper
    rw [plug_cons, Frame.fill, List.length_cons]
    omega

end Spine

end Embedlib.Library
