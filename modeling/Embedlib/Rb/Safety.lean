import Embedlib.RbtreeCompact.Runs
import Embedlib.Rbtree.Runs

/-! The fix-up loops of both trees on an arbitrary red-black tree.

A model of either tree stops in a fault where the code would follow `NULL` or
read below the first path entry, and where a loop would not end. -/

set_option autoImplicit false

namespace Embedlib.Rb

open Library Spine

variable {ν α σ : Type}

/-- With enough rounds for its loops the program ends without a fault, from each
of the states in the same result and the same tree. -/
def Settles (shows : σ → ColorTree ν → Prop) (program : Nat → Program σ α) (rounds : Nat)
    (start : σ → Prop) : Prop :=
  ∃ result tree, ∀ s, start s → ∀ fuel, rounds < fuel →
    ∃ s', program fuel s = .ok (result, s') ∧ shows s' tree

theorem settles_of_ensures {shows : σ → ColorTree ν → Prop} {program : Nat → Program σ α} {rounds : Nat}
    {start : σ → Prop} (result : α) (tree : ColorTree ν)
    (ensured : ∀ s, start s → ∀ fuel, rounds < fuel →
      Ensures (program fuel) (fun p s' => p = result ∧ shows s' tree) s) :
    Settles shows program rounds start := by
  refine ⟨result, tree, fun s begins fuel enough => ?_⟩
  obtain ⟨p, s', ran, rfl, shown⟩ := (ensured s begins fuel enough).result
  exact ⟨s', ran, shown⟩

theorem exists_within (s : RbtreeCompact.State (RbtreeCompact.Records ν) ν) (h : Nat) :
    ∃ top, s.Within top ∧ h ≤ top := by
  unfold RbtreeCompact.State.Within
  induction s.written with
  | nil => exact ⟨h, nofun, Nat.le_refl h⟩
  | cons i rest ih =>
    obtain ⟨top, within, room⟩ := ih
    refine ⟨max i top, List.forall_mem_cons.mpr ⟨Nat.le_max_left .., fun j member => ?_⟩, ?_⟩
    · exact Nat.le_trans (within j member) (Nat.le_max_right ..)
    · exact Nat.le_trans room (Nat.le_max_right ..)

variable [DecidableEq ν] {tree : ColorTree ν}

section
variable {cmp : ν → ν → Int} {node : ν}

/-- `RB_INSERT` with any comparison, of a node that is not in the tree unless
the search meets an equal one. -/
theorem compact_insert_settles (redBlack : IsRedBlack tree)
    (fresh : node ∈ tree.toList → tree.search (fun x => sideOf (cmp node x)) ≠ none) :
    Settles RbtreeCompact.State.Shows (fun fuel => RbtreeCompact.rbInsert cmp fuel node) tree.height
      (fun s => s.Shows tree) := by
  -- The path of the state may hold anything: `RB_PATH_INIT` comes first.
  cases met : tree.search (fun x => sideOf (cmp node x)) with
  | none =>
    refine settles_of_ensures (some node) (tree.insert (fun x => sideOf (cmp node x)) node) fun s shows fuel enough => ?_
    obtain ⟨top, within, room⟩ := exists_within s tree.height
    rw [ColorTree.insert_absent met]
    exact RbtreeCompact.ensures_insert_absent (fun _ => rfl) shows redBlack
      (fun member => fresh member met) within room enough met fun s' shows' _ => ⟨rfl, shows'⟩
  | some x =>
    apply settles_of_ensures (some x) tree
    intro s shows fuel enough
    obtain ⟨top, within, room⟩ := exists_within s tree.height
    exact RbtreeCompact.ensures_insert_present (fun _ => rfl) shows within room enough met
      fun s' mem root _ => ⟨rfl, shows.same_heap mem root⟩

theorem linked_insert_settles (redBlack : IsRedBlack tree)
    (fresh : node ∈ tree.toList → tree.search (fun x => sideOf (cmp node x)) ≠ none) :
    Settles Rbtree.State.Shows (fun fuel => Rbtree.rbInsert cmp fuel node) tree.height
      (fun s => s.Shows tree) := by
  cases met : tree.search (fun x => sideOf (cmp node x)) with
  | none =>
    refine settles_of_ensures (some node) (tree.insert (fun x => sideOf (cmp node x)) node) fun s shows fuel enough => ?_
    exact Rbtree.ensures_insert_absent (fun _ => rfl) shows redBlack (fun member => fresh member met)
      enough met fun s' shows' => ⟨rfl, shows'⟩
  | some x =>
    apply settles_of_ensures (some x) tree
    intro s shows fuel enough
    exact Rbtree.ensures_insert_present (fun _ => rfl) shows enough met ⟨rfl, shows⟩

end

section
variable {sp : Spine ν} {c : Color} {l r : ColorTree ν} {x : ν}

/-- `rb_remove` of the node that the path leads to. What the direction of the
first entry holds is left open. -/
theorem compact_remove_settles (redBlack : IsRedBlack (sp.plug (.node c l x r))) :
    Settles RbtreeCompact.State.Shows (fun fuel => RbtreeCompact.rbRemove fuel (some x))
      (sp.plug (.node c l x r)).height (fun s => s.Shows (sp.plug (.node c l x r)) ∧ s.At sp) := by
  apply settles_of_ensures () (removeAt sp (.node c l x r))
  intro s start fuel enough
  obtain ⟨shows, place⟩ := start
  obtain ⟨top, within, room⟩ := exists_within s (sp.plug (.node c l x r)).height
  exact RbtreeCompact.ensures_rbRemove shows place redBlack within room (Nat.le_of_lt enough)
    fun s' shows' _ => ⟨rfl, shows'⟩

theorem linked_remove_settles (redBlack : IsRedBlack (sp.plug (.node c l x r))) :
    Settles Rbtree.State.Shows (fun fuel => Rbtree.rbRemove fuel (some x))
      (sp.plug (.node c l x r)).height (fun s => s.Shows (sp.plug (.node c l x r))) := by
  apply settles_of_ensures () (removeAt sp (.node c l x r))
  intro s shows fuel enough
  exact Rbtree.ensures_rbRemove shows redBlack (Nat.le_of_lt enough) fun s' shows' => ⟨rfl, shows'⟩

end

/-- Insertion into and removal from a red-black tree end without a fault, and
what the path held before has no influence on the tree. -/
theorem fixups_settle (redBlack : IsRedBlack tree) :
    (∀ (cmp : ν → ν → Int) (node : ν),
      (node ∈ tree.toList → tree.search (fun x => sideOf (cmp node x)) ≠ none) →
      Settles RbtreeCompact.State.Shows (fun fuel => RbtreeCompact.rbInsert cmp fuel node) tree.height
          (fun s => s.Shows tree) ∧
        Settles Rbtree.State.Shows (fun fuel => Rbtree.rbInsert cmp fuel node) tree.height
          (fun s => s.Shows tree)) ∧
    ∀ (sp : Spine ν) (c : Color) (l : ColorTree ν) (x : ν) (r : ColorTree ν),
      tree = sp.plug (.node c l x r) →
      Settles RbtreeCompact.State.Shows (fun fuel => RbtreeCompact.rbRemove fuel (some x)) tree.height
          (fun s => s.Shows tree ∧ s.At sp) ∧
        Settles Rbtree.State.Shows (fun fuel => Rbtree.rbRemove fuel (some x)) tree.height
          (fun s => s.Shows tree) := by
  refine ⟨fun cmp node fresh => ?_, ?_⟩
  · exact ⟨compact_insert_settles redBlack fresh, linked_insert_settles redBlack fresh⟩
  · rintro sp c l x r rfl
    exact ⟨compact_remove_settles redBlack, linked_remove_settles redBlack⟩

/-- Without its leftmost node this tree goes through Case 1 and then Case 2. -/
def leaning : ColorTree Nat :=
  plug [⟨.left, .black, 2, .node .red (.node .black .nil 3 .nil) 4 (.node .black .nil 5 .nil)⟩]
    (.node .black .nil 1 .nil)

theorem fixups_settle_leaning :
    (Settles RbtreeCompact.State.Shows
        (fun fuel => RbtreeCompact.rbInsert (fun a b : Nat => (a : Int) - b) fuel 6) leaning.height
          (fun s => s.Shows leaning) ∧
      Settles Rbtree.State.Shows
        (fun fuel => Rbtree.rbInsert (fun a b : Nat => (a : Int) - b) fuel 6) leaning.height
          (fun s => s.Shows leaning)) ∧
    Settles RbtreeCompact.State.Shows (fun fuel => RbtreeCompact.rbRemove fuel (some 1)) leaning.height
        (fun s => s.Shows leaning ∧
          s.At [⟨.left, .black, 2, .node .red (.node .black .nil 3 .nil) 4 (.node .black .nil 5 .nil)⟩]) ∧
      Settles Rbtree.State.Shows (fun fuel => Rbtree.rbRemove fuel (some 1)) leaning.height
        (fun s => s.Shows leaning) := by
  have noRedRed : leaning.NoRedRed := by
    simp [leaning, plug, Frame.fill, ColorTree.join, ColorTree.NoRedRed, ColorTree.color]
  obtain ⟨inserts, removes⟩ := fixups_settle ⟨rfl, noRedRed, 2, by decide⟩
  exact ⟨inserts _ 6 (by decide), removes _ .black .nil 1 .nil rfl⟩

end Embedlib.Rb
