import Embedlib.RbtreeCompact.Cursor
import Embedlib.Library.Ascending

/-! How many path entries the operations write.

No write is further than the height of the tree, and the trees of ascending keys
are the ones for which a search goes that far.
-/

set_option autoImplicit false

namespace Embedlib.RbtreeCompact

open Library Rb Spine

/-- One use of the tree: a call, or a cursor whose node may be removed at the end. -/
inductive Use (ν δ κ : Type) where
  | call (call : Call ν δ κ)
  | cursor (start : Start κ) (moves : List Dir)
  | erase (start : Start κ) (moves : List Dir)
  deriving Repr

section
variable {μ ν δ κ : Type} [NodeMemory μ ν] [DecidableEq ν] [LinearOrder κ]

def Store.use (c : Comparators δ κ) (fuel : Nat) (store : Store μ ν δ) (rp : RbPath ν) :
    Use ν δ κ → Except Fault (Outcome μ ν δ)
  | .call call => store.call c fuel rp call
  | .cursor start moves =>
    store.perform rp (cursor (fun k x => c.keyCmp k (store.data x)) fuel start moves)
  | .erase start moves => store.perform rp do
    match ← cursor (fun k x => c.keyCmp k (store.data x)) fuel start moves with
    | none => return none
    | some x =>
      rbRemove fuel (some x)
      return some x

def Use.Allowed (c : Comparators δ κ) (ref : Ref ν δ κ) : Use ν δ κ → Prop
  | .call request => ref.Allows c request
  | .cursor _ _ => True
  | .erase _ _ => True

end

section
variable {ν δ κ : Type} [DecidableEq ν] [LinearOrder κ] {c : Comparators δ κ}
  {store : Store (Records ν) ν δ} {model : Model ν δ} {ref : Ref ν δ κ} {fuel : Nat}

theorem Store.use_bounded (shows : store.Shows model) (keeps : Keeps c model ref) {use : Use ν δ κ}
    (allowed : use.Allowed c ref) (enough : model.tree.height < fuel) (rp : RbPath ν) :
    ∃ outcome, store.use c fuel rp use = .ok outcome ∧
      ∀ i ∈ outcome.written, i ≤ model.tree.height := by
  have lists := keeps.lists
  rw [← keeps.data_eq, ← shows.data_eq] at lists
  have start : State.Shows ⟨store.mem, store.root, rp, []⟩ model.tree := shows.tree
  have within : State.Within ⟨store.mem, store.root, rp, []⟩ model.tree.height := by simp [State.Within]
  have moved : ∀ start moves, Ensures
      (RbtreeCompact.cursor (fun k x => c.keyCmp k (store.data x)) fuel start moves) _
      ⟨store.mem, store.root, rp, []⟩ := fun _ _ =>
    ensures_cursor (fun k x => c.sideOf_keyCmp k (store.data x)) lists start within (Nat.le_refl _) enough
  cases use with
  | call call =>
    obtain ⟨outcome, ran, sound⟩ := Store.call_sound shows keeps allowed enough rp
    exact ⟨outcome, ran, sound.bounded⟩
  | cursor start moves =>
    obtain ⟨p, s, ran, reached⟩ := store.perform_ok (moved start moves)
    exact ⟨_, ran, reached.within⟩
  | erase start moves =>
    have erased : Ensures (do
        match ← RbtreeCompact.cursor (fun k x => c.keyCmp k (store.data x)) fuel start moves with
        | none => pure none
        | some x => do
          rbRemove fuel (some x)
          return some x) (fun _ s => s.Within model.tree.height) ⟨store.mem, store.root, rp, []⟩ := by
      apply (moved start moves).bind
      intro p s reached
      cases p with
      | none => exact reached.within
      | some x =>
        exact (reached.stands.ensures_rbRemove keeps.redBlack lists reached.within (Nat.le_refl _)
          enough rfl).bind fun _ _ removed => removed.2
    obtain ⟨p, s, ran, within'⟩ := store.perform_ok erased
    exact ⟨_, ran, within'⟩

end

section
variable {ν δ κ : Type} [DecidableEq ν] [LinearOrder κ] (c : Comparators δ κ)

/-- What a use of a tree of `n` nodes writes stays within the height that a
red-black tree of `n` nodes can have: index `2 * k` takes `2 ^ (k + 1) - 2` nodes. -/
theorem run_depth_bound (mem : Records ν) (data : ν → δ) (calls : List (RbPath ν × Call ν δ κ))
    (allowed : (Ref.init data).AllowsAll c (calls.map Prod.snd)) {fuel : Nat}
    (enough : calls.length < fuel) :
    ∃ results store tree, (Store.init mem data).run c fuel calls = .ok (results, store) ∧
      Library.Shows nodeRecord store.mem store.root tree ∧
      ∀ (rp : RbPath ν) (use : Use ν δ κ),
        use.Allowed c ((Ref.init data).run c (calls.map Prod.snd)).2 →
        ∃ outcome, store.use c fuel rp use = .ok outcome ∧
          (∀ i ∈ outcome.written, 2 ^ (i / 2 + 1) ≤ tree.size + 2) ∧
          ∀ k, 2 * k ∈ outcome.written → 2 ^ (k + 1) - 2 ≤ tree.size := by
  obtain ⟨store, model, ran, _, shows, keeps, low⟩ := run_init mem allowed (Nat.le_of_lt enough)
  have tall := keeps.redBlack.two_pow_height_le
  refine ⟨_, store, model.tree, ran, shows.tree, fun rp use free => ?_⟩
  obtain ⟨outcome, used, bounded⟩ := store.use_bounded shows keeps free (show _ < fuel by omega) rp
  -- An index is at most the height, and the height is logarithmic in the size.
  have deep : ∀ i ∈ outcome.written, 2 ^ (i / 2 + 1) ≤ model.tree.size + 2 := by
    intro i member
    have shallow : i / 2 + 1 ≤ model.tree.height / 2 + 1 := by
      have := bounded i member
      omega
    exact Nat.le_trans (Nat.pow_le_pow_right (by decide) shallow) tall
  refine ⟨outcome, used, deep, fun k member => ?_⟩
  have reached := deep (2 * k) member
  rw [Nat.mul_div_cancel_left k (by decide)] at reached
  omega

theorem run_depth_bound_reuse :
    ∃ results store tree, (Store.init (fun _ => ⟨none, none, .red⟩) fun _ => 0).run aNode 6
        (reuse.map (atRest, ·)) = .ok (results, store) ∧
      Library.Shows nodeRecord store.mem store.root tree ∧
      ∀ (rp : RbPath Nat) (use : Use Nat Int Int),
        use.Allowed aNode ((Ref.init fun _ => 0).run aNode ((reuse.map (atRest, ·)).map Prod.snd)).2 →
        ∃ outcome, store.use aNode 6 rp use = .ok outcome ∧
          (∀ i ∈ outcome.written, 2 ^ (i / 2 + 1) ≤ tree.size + 2) ∧
          ∀ k, 2 * k ∈ outcome.written → 2 ^ (k + 1) - 2 ≤ tree.size :=
  run_depth_bound aNode _ _ _ (by simpa [Function.comp_def] using reuse_allowed) (by decide)

end

/-! ### Ascending keys -/

def ascending (n : Nat) : List (Call Nat Int Int) := (List.range n).map fun i => .insert i i

theorem ascending_succ (n : Nat) : ascending (n + 1) = ascending n ++ [.insert n n] := by
  simp [ascending, List.range_succ]

/-- The tree of ascending keys: a counter of the nodes is spelt out on its right side. -/
structure Grown (n : Nat) (model : Model Nat Int) (levels : List Level) (sp : Spine Nat) : Prop where
  data_eq : model.data = fun i : Nat => (i : Int)
  tree_eq : model.tree = plug sp .nil
  stairs : Stairs levels sp
  steady : Level.Steady levels
  total_eq : Level.total levels = n
  size_eq : model.tree.size = n
  below : ∀ x ∈ model.tree.toList, x < n

theorem Grown.descend_eq {n : Nat} {model : Model Nat Int} {levels : List Level} {sp : Spine Nat}
    (grown : Grown n model levels sp) :
    descend (side aNode model.data (n : Int)) [] model.tree = (sp, .nil) := by
  rw [grown.tree_eq, descend_along]
  · rfl
  · intro f member
    -- All keys are smaller than the new one: the search keeps to the right side.
    have inside : f.value ∈ model.tree.toList := by
      rw [grown.tree_eq, plug_toList]
      rcases mem_around member with ⟨_, above⟩ | ⟨_, below⟩ <;> simp [*]
    have less := grown.below f.value inside
    rw [grown.stairs.right f member, side, grown.data_eq, toward_right]
    exact Int.ofNat_lt.mpr less

theorem Grown.insert {n : Nat} {model : Model Nat Int} {levels : List Level} {sp : Spine Nat}
    (grown : Grown n model levels sp) :
    ∃ levels' sp', Grown (n + 1) (model.call aNode (.insert n (n : Int))).2 levels' sp' := by
  have same : Function.update model.data n (n : Int) = model.data := by
    rw [grown.data_eq]; exact Function.update_eq_self ..
  have missed : model.tree.search (side aNode model.data (n : Int)) = none := by
    rw [ColorTree.search, grown.descend_eq]; rfl
  obtain ⟨sp', stairs', inserted⟩ := grown.stairs.insertAt n
  have tree : (model.call aNode (.insert n (n : Int))).2.tree = plug sp' .nil := by
    simp only [Model.call, same]
    have key : aNode.keyOf (n : Int) = n := rfl
    rw [key, ColorTree.insert_absent missed, grown.descend_eq, inserted]
  have before := congrArg ColorTree.toList grown.tree_eq
  have after := congrArg ColorTree.toList inserted
  rw [plug_toList] at before
  rw [insertAt_toList] at after
  refine ⟨_, sp', by rw [← grown.data_eq]; exact same, tree, stairs', grown.steady.succ, ?_, ?_, ?_⟩
  · rw [Level.total_succ, grown.total_eq]
  · have size := grown.size_eq
    rw [tree, ← ColorTree.length_toList, ← after]
    rw [← ColorTree.length_toList, before] at size
    simp only [List.length_append, List.length_cons, ColorTree.toList, List.length_nil] at size ⊢
    omega
  · intro x member
    rw [tree, ← after, List.mem_append, List.mem_cons] at member
    have old : ∀ y, y ∈ Spine.before sp ∨ y ∈ Spine.after sp → y < n := by
      intro y inside
      apply grown.below y
      rw [before]
      simpa [ColorTree.toList] using inside
    rcases member with left | rfl | right
    · exact Nat.lt_succ_of_lt (old x (.inl left))
    · exact Nat.lt_succ_self x
    · exact Nat.lt_succ_of_lt (old x (.inr right))

theorem grown_ascending (n : Nat) :
    (Ref.init fun i : Nat => (i : Int)).AllowsAll aNode (ascending n) ∧
      ∃ levels sp, Grown n ((Model.init fun i : Nat => (i : Int)).run aNode (ascending n)).2 levels sp := by
  induction n with
  | zero => exact ⟨trivial, [], [], rfl, rfl, .root, trivial, rfl, rfl, nofun⟩
  | succ n ih =>
    obtain ⟨allowed, levels, sp, grown⟩ := ih
    rw [ascending_succ, Ref.allowsAll_append, Model.run_append]
    refine ⟨⟨allowed, fun key stored => ?_⟩, grown.insert⟩
    obtain ⟨_, keeps⟩ := (keeps_init (c := aNode) fun i : Nat => (i : Int)).run allowed
    have entry := ((keeps.lists.entries key n).mp stored).2
    rwa [← keeps.data_eq, grown.data_eq] at entry

/-- A search beyond the last of `n` ascending keys writes every entry up to the end of the path. -/
theorem ascending_writes (mem : Records Nat) (rp : RbPath Nat) {k n : Nat} (large : 2 ^ (k + 1) ≤ n + 2) :
    (Ref.init fun i : Nat => (i : Int)).AllowsAll aNode (ascending n) ∧
      ((Model.init fun i : Nat => (i : Int)).run aNode (ascending n)).2.tree.size = n ∧
      ∃ results store outcome,
        (Store.init mem fun i : Nat => (i : Int)).run aNode (n + 1) ((ascending n).map (rp, ·)) =
          .ok (results, store) ∧
        store.Shows ((Model.init fun i : Nat => (i : Int)).run aNode (ascending n)).2 ∧
        store.call aNode (n + 1) rp (.find n) = .ok outcome ∧ 2 * k ∈ outcome.written := by
  have plain : ((ascending n).map (rp, ·)).map Prod.snd = ascending n := by simp [Function.comp_def]
  have count : ((ascending n).map (rp, ·)).length = n := by simp [ascending]
  obtain ⟨allowed, levels, sp, grown⟩ := grown_ascending n
  have fuel : ((ascending n).map (rp, ·)).length ≤ n + 1 := by omega
  obtain ⟨store, model, ran, same, shows, _, low⟩ := run_init mem (plain ▸ allowed) fuel
  rw [plain] at same
  rw [← same] at grown ⊢
  have compares := aNode.side_key shows.data_eq (n : Int)
  have start : State.Shows ⟨store.mem, store.root, rp, []⟩ model.tree := shows.tree
  have within : State.Within ⟨store.mem, store.root, rp, []⟩ model.tree.height := by simp [State.Within]
  have long : 2 * k ≤ sp.length := by
    rw [grown.stairs.length_eq]
    exact grown.steady.le_length (by rw [grown.total_eq]; exact large)
  have search : Ensures (rbFind (fun k x => aNode.keyCmp k (store.data x)) (n + 1) (n : Int))
      (fun _ s => 2 * k ∈ s.written) ⟨store.mem, store.root, rp, []⟩ :=
    ensures_rbFind compares start within (Nat.le_refl _) (by omega) fun s' _ _ place _ filled =>
      filled _ (by rw [place.cur_eq, grown.descend_eq]; exact long)
  obtain ⟨result, s, found, written⟩ := store.perform_ok search
  exact ⟨allowed, grown.size_eq, _, store, _, ran, shows, found, written⟩

/-- In a tree of `n` nodes every use writes inside a path of `w` entries. -/
def PathFits (w n : Nat) : Prop :=
  ∀ (ν δ κ : Type) [DecidableEq ν] [LinearOrder κ] (c : Comparators δ κ) (mem : Records ν) (data : ν → δ)
    (calls : List (RbPath ν × Call ν δ κ)) (fuel : Nat),
    (Ref.init data).AllowsAll c (calls.map Prod.snd) → calls.length < fuel →
    ((Model.init data).run c (calls.map Prod.snd)).2.tree.size = n →
    ∃ results store, (Store.init mem data).run c fuel calls = .ok (results, store) ∧
      store.Shows ((Model.init data).run c (calls.map Prod.snd)).2 ∧
      ∀ (rp : RbPath ν) (use : Use ν δ κ),
        use.Allowed c ((Ref.init data).run c (calls.map Prod.snd)).2 →
        ∃ outcome, store.use c fuel rp use = .ok outcome ∧ ∀ i ∈ outcome.written, i ≤ w - 1

/-- A path with an entry for every bit of a pointer is large enough for exactly
the trees of fewer than `2 ^ (w / 2 + 1) - 2` nodes. -/
theorem path_fits_iff {w : Nat} (width : w ∈ [16, 32, 64]) (n : Nat) :
    PathFits w n ↔ n + 2 < 2 ^ (w / 2 + 1) := by
  have even : 2 * (w / 2) = w ∧ 0 < w := by
    simp only [List.mem_cons, List.not_mem_nil, or_false] at width
    omega
  constructor
  · intro fits
    -- In a larger tree, one of ascending keys, a search writes an entry too many.
    by_contra large
    have plain : ((ascending n).map (atRest, ·)).map Prod.snd = ascending n := by
      simp [Function.comp_def]
    obtain ⟨allowed, size, results, store, outcome, ran, _, called, written⟩ :=
      ascending_writes (fun _ => ⟨none, none, .red⟩) atRest (Nat.le_of_not_lt large)
    obtain ⟨results', store', ran', _, bounded⟩ := fits Nat Int Int aNode (fun _ => ⟨none, none, .red⟩) _
      ((ascending n).map (atRest, ·)) (n + 1) (by rw [plain]; exact allowed) (by simp [ascending])
      (by rw [plain]; exact size)
    obtain ⟨rfl, rfl⟩ : results = results' ∧ store = store' := by simpa using ran.symm.trans ran'
    obtain ⟨outcome', called', less⟩ := bounded atRest (.call (.find n)) trivial
    obtain rfl : outcome = outcome' := by simpa using called.symm.trans called'
    have := less _ written
    omega
  · intro small ν δ κ _ _ c mem data calls fuel allowed enough size
    obtain ⟨store, model, ran, same, shows, keeps, low⟩ := run_init mem allowed (Nat.le_of_lt enough)
    rw [← same] at size ⊢
    have tall := keeps.redBlack.two_pow_height_le
    -- In a smaller tree the height stays below the entries.
    have below : model.tree.height / 2 + 1 < w / 2 + 1 :=
      (Nat.pow_lt_pow_iff_right (by decide)).mp (Nat.lt_of_le_of_lt tall (by omega))
    refine ⟨_, store, ran, shows, fun rp use free => ?_⟩
    obtain ⟨outcome, used, bounded⟩ := store.use_bounded shows keeps free (show _ < fuel by omega) rp
    exact ⟨outcome, used, fun i member => by have := bounded i member; omega⟩

theorem path_fits_iff_below : PathFits 16 509 :=
  (path_fits_iff (by decide) 509).mpr (by decide)

/-- In 510 nodes of four bytes a search writes entry 16 of a path of 16 entries. -/
theorem path_overflow :
    510 * (2 * 16 / 8) ≤ 2 ^ 16 ∧
      (Ref.init fun i : Nat => (i : Int)).AllowsAll aNode (ascending 510) ∧
      ((Model.init fun i : Nat => (i : Int)).run aNode (ascending 510)).2.tree.size = 510 ∧
      ∃ results store outcome,
        (Store.init (fun _ => ⟨none, none, .red⟩) fun i : Nat => (i : Int)).run aNode (510 + 1)
          ((ascending 510).map (atRest, ·)) = .ok (results, store) ∧
        store.Shows ((Model.init fun i : Nat => (i : Int)).run aNode (ascending 510)).2 ∧
        store.call aNode (510 + 1) atRest (.find (510 : Nat)) = .ok outcome ∧ 2 * 8 ∈ outcome.written ∧
        16 - 1 < 2 * 8 := by
  have large : 2 ^ (8 + 1) ≤ 510 + 2 := by decide
  have overflow := ascending_writes (fun _ => ⟨none, none, .red⟩) atRest large
  simpa only [Nat.reduceMul, Nat.reduceSub, Nat.reduceLT, and_true] using ⟨by decide, overflow⟩

end Embedlib.RbtreeCompact
