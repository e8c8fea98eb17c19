import Embedlib.RbtreeCompact.Runs
import Embedlib.Rbtree.Runs

/-! How many rounds the loops of both trees need.

Runs may be of any length. What counts is how many nodes are stored at a time.
-/

set_option autoImplicit false

namespace Embedlib.Rb

open Library

variable {ν δ κ : Type}

def Ref.AtMost (n : Nat) (ref : Ref ν δ κ) : Prop :=
  ∀ xs : List ν, xs.Nodup → (∀ x ∈ xs, ∃ key, ref.map key = some x) → xs.length ≤ n

theorem Ref.atMost {ref : Ref ν δ κ} {ys : List ν} (within : ∀ key x, ref.map key = some x → x ∈ ys) :
    ref.AtMost ys.length := by
  intro xs distinct stored
  refine (List.subperm_of_subset distinct fun x member => ?_).length_le
  obtain ⟨key, entry⟩ := stored x member
  exact within key x entry

section
variable [LinearOrder κ] [DecidableEq ν] {c : Comparators δ κ} {model : Model ν δ} {ref : Ref ν δ κ} {n fuel : Nat}

variable (c) in
def Ref.StaysAtMost (n : Nat) (ref : Ref ν δ κ) : List (Request ν δ κ) → Prop
  | [] => ref.AtMost n
  | request :: rest => ref.AtMost n ∧ (ref.serve c request).2.StaysAtMost n rest

omit [DecidableEq ν] in
theorem Keeps.size_le (keeps : Keeps c model ref) (few : ref.AtMost n) : model.tree.size ≤ n := by
  rw [← ColorTree.length_toList]
  refine few _ ?_ fun x member => ⟨_, keeps.lists.mem_iff.mp member⟩
  exact keeps.lists.sorted.imp fun less same => absurd (same ▸ less) (lt_irrefl _)

theorem Ref.staysAtMost {ys : List ν} (within : ∀ key x, ref.map key = some x → x ∈ ys)
    {requests : List (Request ν δ κ)} (joining : ∀ request ∈ requests, ∀ x, request.joins = some x → x ∈ ys) :
    ref.StaysAtMost c ys.length requests := by
  induction requests generalizing ref with
  | nil => exact Ref.atMost within
  | cons request rest ih =>
    obtain ⟨here, others⟩ := List.forall_mem_cons.mp joining
    refine ⟨Ref.atMost within, ih (fun key x stored => ?_) others⟩
    exact (Ref.stored_of_serve stored).elim (within key x) (here x)

omit [DecidableEq ν] in
theorem Keeps.height_lt (keeps : Keeps c model ref) (few : ref.AtMost n) (enough : n + 2 < 2 ^ (fuel / 2 + 1)) :
    model.tree.height < fuel := by
  have tall := keeps.redBlack.two_pow_height_le
  have small := keeps.size_le few
  have halves : model.tree.height / 2 + 1 < fuel / 2 + 1 :=
    (Nat.pow_lt_pow_iff_right (by decide)).mp (show 2 ^ _ < 2 ^ _ by omega)
  omega

end

end Embedlib.Rb

namespace Embedlib

open Library Rb

variable {ν δ κ : Type} [LinearOrder κ] [DecidableEq ν] {c : Comparators δ κ} {model : Model ν δ} {ref : Ref ν δ κ}
  {n fuel : Nat}

theorem RbtreeCompact.Store.Shows.run_rounds {store : RbtreeCompact.Store (RbtreeCompact.Records ν) ν δ}
    (shows : store.Shows model) (keeps : Keeps c model ref) {calls : List (RbtreeCompact.RbPath ν × Call ν δ κ)}
    (allowed : ref.AllowsAll c (calls.map Prod.snd)) (few : ref.StaysAtMost c n ((calls.map Prod.snd).map .call))
    (enough : n + 2 < 2 ^ (fuel / 2 + 1)) :
    ∃ final, store.run c fuel calls = .ok ((ref.run c (calls.map Prod.snd)).1, final) ∧
      final.Represents c (ref.run c (calls.map Prod.snd)).2 := by
  induction calls generalizing store model ref with
  | nil => exact ⟨store, rfl, shows.represents c keeps⟩
  | cons first rest ih =>
    obtain ⟨rp, call⟩ := first
    obtain ⟨here, others⟩ := allowed
    obtain ⟨small, few⟩ := few
    obtain ⟨outcome, ran, sound⟩ := RbtreeCompact.Store.call_sound shows keeps here (keeps.height_lt small enough) rp
    obtain ⟨same, keeps'⟩ := keeps.call here
    obtain ⟨final, rested, represents⟩ := ih sound.shows keeps' others few
    refine ⟨final, ?_, represents⟩
    simp only [RbtreeCompact.Store.run, ran, bind, Except.bind, rested, sound.result_eq, same, List.map_cons, Ref.run]
    rfl

theorem Rbtree.Store.Shows.serveAll_rounds {store : Rbtree.Store ν δ} (shows : store.Shows model)
    (keeps : Keeps c model ref) {requests : List (Request ν δ κ)} (admitted : ref.AdmitsAll c requests)
    (few : ref.StaysAtMost c n requests) (enough : n + 2 < 2 ^ (fuel / 2 + 1)) :
    ∃ final, store.serveAll c fuel requests = .ok ((ref.serveAll c requests).1, final) ∧
      final.Represents c (ref.serveAll c requests).2 := by
  induction requests generalizing store model ref with
  | nil => exact ⟨store, rfl, shows.represents c keeps⟩
  | cons request rest ih =>
    obtain ⟨here, others⟩ := admitted
    obtain ⟨small, few⟩ := few
    obtain ⟨result, after, ran, sound⟩ := Rbtree.Store.serve_sound shows keeps here (keeps.height_lt small enough)
    obtain ⟨same, keeps'⟩ := keeps.serve here
    obtain ⟨final, rested, represents⟩ := ih sound.shows keeps' others few
    refine ⟨final, ?_, represents⟩
    simp only [Rbtree.Store.serveAll, ran, bind, Except.bind, rested, sound.result_eq, same, Ref.serveAll]
    rfl

variable (c) in
/-- While no more than `n` nodes are stored at a time, no loop of either tree makes
more than about `2 * log2 n` rounds, however long the run. -/
theorem Rb.rounds_logarithmic (data : ν → δ) (enough : n + 2 < 2 ^ (fuel / 2 + 1)) :
    (∀ (mem : RbtreeCompact.Records ν) (calls : List (RbtreeCompact.RbPath ν × Call ν δ κ)),
      (Ref.init data).AllowsAll c (calls.map Prod.snd) →
      (Ref.init data).StaysAtMost c n ((calls.map Prod.snd).map .call) →
      ∃ final, (RbtreeCompact.Store.init mem data).run c fuel calls =
          .ok (((Ref.init data).run c (calls.map Prod.snd)).1, final) ∧
        final.Represents c ((Ref.init data).run c (calls.map Prod.snd)).2) ∧
    ∀ (mem : Rbtree.Records ν) (requests : List (Request ν δ κ)),
      (Ref.init data).AdmitsAll c requests → (Ref.init data).StaysAtMost c n requests →
      ∃ final, (Rbtree.Store.init mem data).serveAll c fuel requests =
          .ok (((Ref.init data).serveAll c requests).1, final) ∧
        final.Represents c ((Ref.init data).serveAll c requests).2 := by
  refine ⟨fun mem calls allowed few => ?_, fun mem requests admitted few => ?_⟩
  · exact (RbtreeCompact.store_init_shows mem data).run_rounds (keeps_init data) allowed few enough
  · exact (Rbtree.store_init_shows mem data).serveAll_rounds (keeps_init data) admitted few enough

theorem Rb.rounds_logarithmic_reuse :
    (∃ final, (RbtreeCompact.Store.init (fun _ => ⟨none, none, .red⟩) fun _ => 0).run aNode 4
          (reuse.map (RbtreeCompact.atRest, ·)) =
        .ok (((Ref.init fun _ => 0).run aNode ((reuse.map (RbtreeCompact.atRest, ·)).map Prod.snd)).1, final) ∧
      final.Represents aNode ((Ref.init fun _ => 0).run aNode ((reuse.map (RbtreeCompact.atRest, ·)).map Prod.snd)).2) ∧
    ∃ final, (Rbtree.Store.init (fun _ => ⟨none, .red, none, none⟩) fun _ => 0).serveAll aNode 4 recycle =
        .ok (((Ref.init fun _ => 0).serveAll aNode recycle).1, final) ∧
      final.Represents aNode ((Ref.init fun _ => 0).serveAll aNode recycle).2 := by
  have enough : 3 + 2 < 2 ^ (4 / 2 + 1) := by decide
  have few (requests : List (Request Nat Int Int))
      (joining : ∀ request ∈ requests, ∀ x, request.joins = some x → x ∈ [1, 2, 3]) :
      (Ref.init fun _ => 0).StaysAtMost aNode 3 requests := Ref.staysAtMost nofun joining
  obtain ⟨compact, linked⟩ := Rb.rounds_logarithmic aNode (fun _ : Nat => 0) enough
  refine ⟨compact _ _ (by simpa [Function.comp_def] using reuse_allowed) (few _ ?_),
    linked _ _ recycle_admitted (few _ ?_)⟩
  · simp [reuse, Request.joins]
  · simp [recycle, reuse, Request.joins]

end Embedlib
