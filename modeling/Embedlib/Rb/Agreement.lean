import Embedlib.RbtreeCompact.Runs
import Embedlib.Rbtree.Runs

/-! The compact tree and the tree with parent pointers do the same. -/

set_option autoImplicit false

namespace Embedlib.Rb

open Library Spine

variable {ν δ κ : Type}

/-- The two stores hold the same tree, node for node. -/
structure Agree (compact : RbtreeCompact.Store (RbtreeCompact.Records ν) ν δ) (linked : Rbtree.Store ν δ)
    (tree : ColorTree ν) : Prop where
  compact_shows : Shows RbtreeCompact.nodeRecord compact.mem compact.root tree
  linked_shows : Shows Rbtree.nodeRecord linked.mem linked.root tree
  same_root : compact.root = linked.root
  same_left : ∀ x ∈ tree.toList, (compact.mem x).left = (linked.mem x).left
  same_right : ∀ x ∈ tree.toList, (compact.mem x).right = (linked.mem x).right
  same_color : ∀ x ∈ tree.toList, (compact.mem x).color = (linked.mem x).color

theorem agree_of_shows {compact : RbtreeCompact.Store (RbtreeCompact.Records ν) ν δ}
    {linked : Rbtree.Store ν δ} {tree : ColorTree ν}
    (compactShows : Shows RbtreeCompact.nodeRecord compact.mem compact.root tree)
    (linkedShows : Shows Rbtree.nodeRecord linked.mem linked.root tree) : Agree compact linked tree := by
  have same : ∀ x ∈ tree.toList, ∃ up c l r, compact.mem x = ⟨l, r, c⟩ ∧ linked.mem x = ⟨up, c, l, r⟩ := by
    intro x member
    obtain ⟨a, b, listed⟩ := List.append_of_mem member
    obtain ⟨sp, c, l, r, rfl, _⟩ := exists_focus listed
    exact ⟨_, _, _, _, compactShows.node_eq (d := .left), linkedShows.node_eq (d := .left)⟩
  refine ⟨compactShows, linkedShows, compactShows.root_eq.trans linkedShows.root_eq.symm, ?_, ?_, ?_⟩
  all_goals
    intro x member
    obtain ⟨up, c, l, r, inCompact, inLinked⟩ := same x member
    rw [inCompact, inLinked]

section
variable [LinearOrder κ] [DecidableEq ν] (c : Comparators δ κ)

/-- Both trees answer a run of calls alike and end in the same tree. -/
theorem runs_agree (mem : RbtreeCompact.Records ν) (mem' : Rbtree.Records ν) (data : ν → δ)
    (calls : List (RbtreeCompact.RbPath ν × Call ν δ κ))
    (allowed : (Ref.init data).AllowsAll c (calls.map Prod.snd)) {fuel : Nat}
    (enough : calls.length ≤ fuel) :
    ∃ results compact linked tree,
      (RbtreeCompact.Store.init mem data).run c fuel calls = .ok (results, compact) ∧
      (Rbtree.Store.init mem' data).serveAll c fuel ((calls.map Prod.snd).map .call) =
        .ok (results, linked) ∧
      Agree compact linked tree := by
  obtain ⟨compact, model, ran, rfl, shows, _⟩ := RbtreeCompact.run_init mem allowed enough
  obtain ⟨linked, model', ran', rfl, shows', _⟩ := Rbtree.serveAll_init mem'
    (Ref.admitsAll_calls.mpr allowed) (show _ ≤ fuel by simpa using enough)
  rw [Ref.serveAll_calls] at ran'
  rw [Model.serveAll_calls] at shows'
  exact ⟨_, compact, linked, _, ran, ran', agree_of_shows shows.tree shows'.tree⟩

theorem runs_agree_reuse :
    ∃ results compact linked tree,
      (RbtreeCompact.Store.init (fun _ => ⟨none, none, .red⟩) fun _ => 0).run aNode 5
        (reuse.map (RbtreeCompact.atRest, ·)) = .ok (results, compact) ∧
      (Rbtree.Store.init (fun _ => ⟨none, .red, none, none⟩) fun _ => 0).serveAll aNode 5
        (((reuse.map (RbtreeCompact.atRest, ·)).map Prod.snd).map .call) =
          .ok (results, linked) ∧
      Agree compact linked tree :=
  runs_agree aNode _ _ _ _ (by simpa [Function.comp_def] using reuse_allowed) (by decide)

end

end Embedlib.Rb
