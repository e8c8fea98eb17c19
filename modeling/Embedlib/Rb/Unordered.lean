import Embedlib.Rb.Agreement

/-! Both trees with comparators that agree with no order.

A comparator may answer anything, and two calls may be made with two comparators. What
is lost is the order; the trees stay red-black, and no node is lost or doubled.
-/

set_option autoImplicit false

namespace Embedlib.Rb

open Library Spine

variable {ν δ κ : Type}

/-- A call and the comparator that it is made with. -/
inductive Demand (ν κ : Type) where
  | insert (cmp : ν → ν → Int) (node : ν)
  | find (keyCmp : κ → ν → Int) (key : κ)
  | remove (keyCmp : κ → ν → Int) (key : κ)

def Demand.side : Demand ν κ → ν → Option Dir
  | .insert cmp node, x => sideOf (cmp node x)
  | .find keyCmp key, x => sideOf (keyCmp key x)
  | .remove keyCmp key, x => sideOf (keyCmp key x)

/-- What a demand may do to the sequence of the stored nodes. -/
inductive Alters : List ν → Demand ν κ → Option ν → List ν → Prop where
  | present {l : List ν} {cmp : ν → ν → Int} {node x : ν} : x ∈ l → cmp node x = 0 →
      Alters l (.insert cmp node) (some x) l
  | joined {a b : List ν} {cmp : ν → ν → Int} {node : ν} : node ∉ a ++ b →
      Alters (a ++ b) (.insert cmp node) (some node) (a ++ node :: b)
  | found {l : List ν} {keyCmp : κ → ν → Int} {key : κ} {x : ν} : x ∈ l → keyCmp key x = 0 →
      Alters l (.find keyCmp key) (some x) l
  | missed {l : List ν} {keyCmp : κ → ν → Int} {key : κ} : Alters l (.find keyCmp key) none l
  | removed {a b : List ν} {keyCmp : κ → ν → Int} {key : κ} {x : ν} : keyCmp key x = 0 →
      Alters (a ++ x :: b) (.remove keyCmp key) (some x) (a ++ b)
  | absent {l : List ν} {keyCmp : κ → ν → Int} {key : κ} : Alters l (.remove keyCmp key) none l

inductive AltersAll : List ν → List (Demand ν κ) → List (Option ν) → List ν → Prop where
  | nil {l : List ν} : AltersAll l [] [] l
  | cons {l l' final : List ν} {demand : Demand ν κ} {rest : List (Demand ν κ)} {result : Option ν}
      {results : List (Option ν)} : Alters l demand result l' → AltersAll l' rest results final →
      AltersAll l (demand :: rest) (result :: results) final

def Demand.serve (demand : Demand ν κ) (t : ColorTree ν) : Option ν × ColorTree ν :=
  match demand with
  | .insert _ node => (some ((t.search demand.side).getD node), t.insert demand.side node)
  | .find _ _ => (t.search demand.side, t)
  | .remove _ _ => (t.search demand.side, t.remove demand.side)

def serveDemands : ColorTree ν → List (Demand ν κ) → List (Option ν) × ColorTree ν
  | t, [] => ([], t)
  | t, demand :: rest =>
    let rested := serveDemands (demand.serve t).2 rest
    ((demand.serve t).1 :: rested.1, rested.2)

/-- A stored node is inserted again only where its own search meets a stored node. -/
def Demand.Allowed : Demand ν κ → ColorTree ν → Prop
  | .insert cmp node, t => node ∈ t.toList → t.search (fun x => sideOf (cmp node x)) ≠ none
  | .find _ _, _ => True
  | .remove _ _, _ => True

def AllowedAll : ColorTree ν → List (Demand ν κ) → Prop
  | _, [] => True
  | t, demand :: rest => demand.Allowed t ∧ AllowedAll (demand.serve t).2 rest

instance [DecidableEq ν] : (demand : Demand ν κ) → (t : ColorTree ν) → Decidable (demand.Allowed t)
  | .insert cmp node, t =>
    inferInstanceAs (Decidable (node ∈ t.toList → t.search (fun x => sideOf (cmp node x)) ≠ none))
  | .find _ _, _ => .isTrue trivial
  | .remove _ _, _ => .isTrue trivial

instance decidableAllowedAll [DecidableEq ν] : (t : ColorTree ν) → (demands : List (Demand ν κ)) →
    Decidable (AllowedAll t demands)
  | _, [] => .isTrue trivial
  | t, demand :: rest =>
    have := decidableAllowedAll (demand.serve t).2 rest
    inferInstanceAs (Decidable (demand.Allowed t ∧ AllowedAll (demand.serve t).2 rest))

/-! ### On the tree -/

section
variable {demand : Demand ν κ} {t : ColorTree ν}

theorem sideOf_none {c : Int} : sideOf c = none ↔ c = 0 := by
  unfold sideOf
  split
  · constructor
    · nofun
    · omega
  · split
    · constructor
      · nofun
      · omega
    · constructor
      · omega
      · exact fun _ => rfl

theorem Demand.serve_isRedBlack (redBlack : IsRedBlack t) : IsRedBlack (demand.serve t).2 := by
  cases demand with
  | insert cmp node => exact insert_isRedBlack redBlack node
  | find keyCmp key => exact redBlack
  | remove keyCmp key => exact remove_isRedBlack redBlack

theorem Demand.serve_size_le : (demand.serve t).2.size ≤ t.size + 1 := by
  cases demand with
  | insert cmp node => exact ColorTree.insert_size_le _ _ _
  | find keyCmp key => exact Nat.le_succ _
  | remove keyCmp key => exact Nat.le_succ_of_le (ColorTree.remove_size_le _ _)

theorem search_meets {side : ν → Option Dir} {x : ν} (found : t.search side = some x) :
    x ∈ t.toList ∧ side x = none := by
  obtain ⟨a, b, listed, _⟩ := ColorTree.remove_toList found
  exact ⟨by rw [listed]; exact List.mem_append_right _ List.mem_cons_self, descend_found found⟩

theorem Demand.serve_alters (allowed : demand.Allowed t) :
    Alters t.toList demand (demand.serve t).1 (demand.serve t).2.toList := by
  cases demand with
  | insert cmp node =>
    simp only [Demand.serve]
    cases found : t.search (Demand.insert cmp node : Demand ν κ).side with
    | some x =>
      obtain ⟨member, here⟩ := search_meets found
      rw [ColorTree.insert_present found]
      exact .present member (sideOf_none.mp here)
    | none =>
      obtain ⟨a, b, before, after⟩ := ColorTree.insert_toList found node
      have new : node ∉ t.toList := fun member => allowed member found
      rw [before] at new
      rw [before, after]
      exact .joined new
  | find keyCmp key =>
    simp only [Demand.serve]
    cases found : t.search (Demand.find keyCmp key).side with
    | some x =>
      obtain ⟨member, here⟩ := search_meets found
      exact .found member (sideOf_none.mp here)
    | none => exact .missed
  | remove keyCmp key =>
    simp only [Demand.serve]
    cases found : t.search (Demand.remove keyCmp key).side with
    | some x =>
      obtain ⟨a, b, before, after⟩ := ColorTree.remove_toList found
      rw [before, after]
      exact .removed (sideOf_none.mp (search_meets found).2)
    | none =>
      rw [ColorTree.remove_absent found]
      exact .absent

theorem serveDemands_alters {demands : List (Demand ν κ)} (redBlack : IsRedBlack t) (allowed : AllowedAll t demands) :
    IsRedBlack (serveDemands t demands).2 ∧
      AltersAll t.toList demands (serveDemands t demands).1 (serveDemands t demands).2.toList := by
  induction demands generalizing t with
  | nil => exact ⟨redBlack, .nil⟩
  | cons demand rest ih =>
    obtain ⟨here, others⟩ := allowed
    obtain ⟨redBlack', altered⟩ := ih (Demand.serve_isRedBlack redBlack) others
    exact ⟨redBlack', .cons (Demand.serve_alters here) altered⟩

end

end Embedlib.Rb

/-! ### On the compact tree -/

namespace Embedlib.RbtreeCompact

open Library Rb Spine

variable {μ ν δ κ : Type}

section
variable [NodeMemory μ ν] [DecidableEq ν] (fuel : Nat)

def Store.demand (store : Store μ ν δ) (rp : RbPath ν) : Demand ν κ → Except Fault (Outcome μ ν δ)
  | .insert cmp node => store.perform rp (rbInsert cmp fuel node)
  | .find keyCmp key => store.perform rp (rbFind keyCmp fuel key)
  | .remove keyCmp key => store.perform rp (rbRemoveKey keyCmp fuel key)

def Store.demandAll (store : Store μ ν δ) :
    List (RbPath ν × Demand ν κ) → Except Fault (List (Ptr ν) × Store μ ν δ)
  | [] => return ([], store)
  | (rp, demand) :: rest => do
    let outcome ← store.demand fuel rp demand
    let (results, final) ← outcome.store.demandAll rest
    return (outcome.result :: results, final)

end

variable [DecidableEq ν] {store : Store (Records ν) ν δ} {t : ColorTree ν} {fuel : Nat}

theorem Store.demand_sound (shows : Library.Shows nodeRecord store.mem store.root t) (redBlack : IsRedBlack t)
    {demand : Demand ν κ} (allowed : demand.Allowed t) (enough : t.height < fuel) (rp : RbPath ν) :
    ∃ outcome, store.demand fuel rp demand = .ok outcome ∧ outcome.result = (demand.serve t).1 ∧
      Library.Shows nodeRecord outcome.store.mem outcome.store.root (demand.serve t).2 := by
  have start : State.Shows ⟨store.mem, store.root, rp, []⟩ t := shows
  have within : State.Within ⟨store.mem, store.root, rp, []⟩ t.height := by simp [State.Within]
  have ends {program : Program (State (Records ν) ν) (Ptr ν)}
      (ensured : Ensures program (fun result s => result = (demand.serve t).1 ∧ s.Shows (demand.serve t).2)
        ⟨store.mem, store.root, rp, []⟩) :
      ∃ outcome, store.perform rp program = .ok outcome ∧ outcome.result = (demand.serve t).1 ∧
        Library.Shows nodeRecord outcome.store.mem outcome.store.root (demand.serve t).2 := by
    obtain ⟨_, _, ran, same, shows'⟩ := store.perform_ok ensured
    exact ⟨_, ran, same, shows'⟩
  cases demand with
  | insert cmp node =>
    have compares (y : ν) : sideOf (cmp node y) = (Demand.insert cmp node : Demand ν κ).side y := rfl
    refine ends ?_
    simp only [Demand.serve]
    cases found : t.search (Demand.insert cmp node : Demand ν κ).side with
    | some x =>
      refine ensures_insert_present compares start within (Nat.le_refl _) enough found
        fun s' mem root _ => ⟨rfl, ?_⟩
      rw [ColorTree.insert_present found]
      exact start.same_heap mem root
    | none =>
      refine ensures_insert_absent compares start redBlack (fun member => allowed member found) within
        (Nat.le_refl _) enough found fun s' shows' _ => ⟨rfl, ?_⟩
      rw [ColorTree.insert_absent found]
      exact shows'
  | find keyCmp key =>
    have compares (y : ν) : sideOf (keyCmp key y) = (Demand.find keyCmp key).side y := rfl
    exact ends (ensures_rbFind compares start within (Nat.le_refl _) enough
      fun s' mem root _ _ _ => ⟨rfl, start.same_heap mem root⟩)
  | remove keyCmp key =>
    have compares (y : ν) : sideOf (keyCmp key y) = (Demand.remove keyCmp key).side y := rfl
    refine ends ?_
    simp only [Demand.serve]
    cases found : t.search (Demand.remove keyCmp key).side with
    | some x =>
      refine ensures_remove_present compares start redBlack within (Nat.le_refl _) enough found
        fun s' shows' _ => ⟨rfl, ?_⟩
      rw [ColorTree.remove_present found]
      exact shows'
    | none =>
      refine ensures_remove_absent compares start within (Nat.le_refl _) enough found
        fun s' mem root _ => ⟨rfl, ?_⟩
      rw [ColorTree.remove_absent found]
      exact start.same_heap mem root

theorem Store.demandAll_sound (shows : Library.Shows nodeRecord store.mem store.root t) (redBlack : IsRedBlack t)
    {demands : List (RbPath ν × Demand ν κ)} (allowed : AllowedAll t (demands.map Prod.snd))
    (enough : t.size + demands.length ≤ fuel) :
    ∃ final, store.demandAll fuel demands = .ok ((serveDemands t (demands.map Prod.snd)).1, final) ∧
      Library.Shows nodeRecord final.mem final.root (serveDemands t (demands.map Prod.snd)).2 := by
  induction demands generalizing store t with
  | nil => exact ⟨store, rfl, shows⟩
  | cons first rest ih =>
    obtain ⟨rp, demand⟩ := first
    obtain ⟨here, others⟩ : demand.Allowed t ∧ AllowedAll (demand.serve t).2 (rest.map Prod.snd) := allowed
    rw [List.length_cons] at enough
    have low := ColorTree.height_le_size t
    have grown := demand.serve_size_le (t := t)
    obtain ⟨outcome, ran, same, shows'⟩ := store.demand_sound shows redBlack here (show _ < fuel by omega) rp
    obtain ⟨final, rested, shown⟩ := ih shows' (Demand.serve_isRedBlack redBlack) others (by omega)
    refine ⟨final, ?_, shown⟩
    simp only [Store.demandAll, ran, bind, Except.bind, rested, same, List.map_cons, serveDemands]
    rfl

end Embedlib.RbtreeCompact

/-! ### On the tree with parent pointers -/

namespace Embedlib.Rbtree

open Library Rb Spine

variable {ν δ κ : Type} [DecidableEq ν]

section
variable (fuel : Nat)

def Store.demand (store : Store ν δ) : Demand ν κ → Except Fault (Ptr ν × Store ν δ)
  | .insert cmp node => store.perform (rbInsert cmp fuel node)
  | .find keyCmp key => store.perform (rbFind keyCmp fuel key)
  | .remove keyCmp key => store.perform (rbRemoveKey keyCmp fuel key)

def Store.demandAll (store : Store ν δ) : List (Demand ν κ) → Except Fault (List (Ptr ν) × Store ν δ)
  | [] => return ([], store)
  | demand :: rest => do
    let (result, store) ← store.demand fuel demand
    let (results, final) ← store.demandAll rest
    return (result :: results, final)

end

variable {store : Store ν δ} {t : ColorTree ν} {fuel : Nat}

theorem Store.demand_sound (shows : Library.Shows nodeRecord store.mem store.root t) (redBlack : IsRedBlack t)
    {demand : Demand ν κ} (allowed : demand.Allowed t) (enough : t.height < fuel) :
    ∃ after, store.demand fuel demand = .ok ((demand.serve t).1, after) ∧
      Library.Shows nodeRecord after.mem after.root (demand.serve t).2 := by
  have start : State.Shows ⟨store.mem, store.root⟩ t := shows
  have ends {program : Program (State ν) (Ptr ν)}
      (ensured : Ensures program (fun result s => result = (demand.serve t).1 ∧ s.Shows (demand.serve t).2)
        ⟨store.mem, store.root⟩) :
      ∃ after, store.perform program = .ok ((demand.serve t).1, after) ∧
        Library.Shows nodeRecord after.mem after.root (demand.serve t).2 := by
    obtain ⟨_, _, ran, rfl, shows'⟩ := store.perform_ok ensured
    exact ⟨_, ran, shows'⟩
  cases demand with
  | insert cmp node =>
    have compares (y : ν) : sideOf (cmp node y) = (Demand.insert cmp node : Demand ν κ).side y := rfl
    refine ends ?_
    simp only [Demand.serve]
    cases found : t.search (Demand.insert cmp node : Demand ν κ).side with
    | some x =>
      rw [ColorTree.insert_present found]
      exact ensures_insert_present compares start enough found ⟨rfl, start⟩
    | none =>
      exact ensures_insert_absent compares start redBlack (fun member => allowed member found) enough found
        fun s' shows' => ⟨rfl, shows'⟩
  | find keyCmp key =>
    have compares (y : ν) : sideOf (keyCmp key y) = (Demand.find keyCmp key).side y := rfl
    exact ends (ensures_rbFind compares start enough ⟨rfl, start⟩)
  | remove keyCmp key =>
    have compares (y : ν) : sideOf (keyCmp key y) = (Demand.remove keyCmp key).side y := rfl
    refine ends ?_
    simp only [Demand.serve]
    cases found : t.search (Demand.remove keyCmp key).side with
    | some x => exact ensures_remove_present compares start redBlack enough found fun s' shows' => ⟨rfl, shows'⟩
    | none =>
      rw [ColorTree.remove_absent found]
      exact ensures_remove_absent compares start enough found ⟨rfl, start⟩

theorem Store.demandAll_sound (shows : Library.Shows nodeRecord store.mem store.root t) (redBlack : IsRedBlack t)
    {demands : List (Demand ν κ)} (allowed : AllowedAll t demands) (enough : t.size + demands.length ≤ fuel) :
    ∃ final, store.demandAll fuel demands = .ok ((serveDemands t demands).1, final) ∧
      Library.Shows nodeRecord final.mem final.root (serveDemands t demands).2 := by
  induction demands generalizing store t with
  | nil => exact ⟨store, rfl, shows⟩
  | cons demand rest ih =>
    obtain ⟨here, others⟩ := allowed
    rw [List.length_cons] at enough
    have low := ColorTree.height_le_size t
    have grown := demand.serve_size_le (t := t)
    obtain ⟨after, ran, shows'⟩ := store.demand_sound shows redBlack here (show _ < fuel by omega)
    obtain ⟨final, rested, shown⟩ := ih shows' (Demand.serve_isRedBlack redBlack) others (by omega)
    refine ⟨final, ?_, shown⟩
    simp only [Store.demandAll, ran, bind, Except.bind, rested, serveDemands]
    rfl

end Embedlib.Rbtree

/-! ### Any comparators -/

namespace Embedlib.Rb

open Library Spine

variable {ν δ κ : Type} [DecidableEq ν]

section
variable [LinearOrder κ] (c : Comparators δ κ)

/-- A call is a demand whose comparator reads the contents of then. -/
def Call.demand (data : ν → δ) : Call ν δ κ → Demand ν κ
  | .insert node content =>
    .insert (fun x y => c.cmp (Function.update data node content x) (Function.update data node content y)) node
  | .find key => .find (fun k x => c.keyCmp k (data x)) key
  | .remove key => .remove (fun k x => c.keyCmp k (data x)) key

def Model.demands (model : Model ν δ) : List (Call ν δ κ) → List (Demand ν κ)
  | [] => []
  | call :: rest => call.demand c model.data :: (model.call c call).2.demands rest

variable {c} {model : Model ν δ} {ref : Ref ν δ κ}

theorem Call.demand_serve (call : Call ν δ κ) :
    ((call.demand c model.data).serve model.tree).2 = (model.call c call).2.tree := by
  cases call with
  | insert node content =>
    exact congrArg (fun side => model.tree.insert side node) (funext (c.side_insert rfl node content))
  | find key => rfl
  | remove key => exact congrArg model.tree.remove (funext (c.side_key rfl key))

theorem Keeps.demand_allowed (keeps : Keeps c model ref) {call : Call ν δ κ} (allowed : ref.Allows c call) :
    (call.demand c model.data).Allowed model.tree := by
  cases call with
  | insert node content =>
    intro member missed
    have searched : model.tree.search (side c (Function.update model.data node content) (c.keyOf content)) = none := by
      rw [← missed]
      exact congrArg model.tree.search (funext (c.side_insert rfl node content)).symm
    exact keeps.fresh allowed ((keeps.search_insert allowed).symm.trans searched) member
  | find key => trivial
  | remove key => trivial

theorem Keeps.demands_allowed (keeps : Keeps c model ref) {calls : List (Call ν δ κ)}
    (allowed : ref.AllowsAll c calls) : AllowedAll model.tree (model.demands c calls) := by
  induction calls generalizing model ref with
  | nil => trivial
  | cons call rest ih =>
    obtain ⟨here, others⟩ := allowed
    refine ⟨keeps.demand_allowed here, ?_⟩
    rw [Call.demand_serve]
    exact ih (keeps.call here).2 others

end

/-- Whatever the comparators answer, both trees serve a run without a fault and alike and
stay red-black, and a demand stores or removes the one node that it returns and leaves all
others in their sequence. Only a stored node must not be inserted again where its search
misses, which comparators that agree with an order never do. -/
theorem unordered_safe (data : ν → δ) :
    (∀ (mem : RbtreeCompact.Records ν) (mem' : Rbtree.Records ν)
      (demands : List (RbtreeCompact.RbPath ν × Demand ν κ)) (fuel : Nat),
      AllowedAll .nil (demands.map Prod.snd) → demands.length ≤ fuel →
      ∃ results compact linked tree,
        (RbtreeCompact.Store.init mem data).demandAll fuel demands = .ok (results, compact) ∧
        (Rbtree.Store.init mem' data).demandAll fuel (demands.map Prod.snd) = .ok (results, linked) ∧
        Agree compact linked tree ∧ IsRedBlack tree ∧ AltersAll [] (demands.map Prod.snd) results tree.toList) ∧
    ∀ [LinearOrder κ] (c : Comparators δ κ) (calls : List (Call ν δ κ)),
      (Ref.init data).AllowsAll c calls → AllowedAll .nil ((Model.init data).demands c calls) := by
  refine ⟨fun mem mem' demands fuel allowed enough => ?_,
    fun c calls allowed => (keeps_init data).demands_allowed allowed⟩
  obtain ⟨redBlack, altered⟩ := serveDemands_alters isRedBlack_nil allowed
  obtain ⟨compact, ran, shows⟩ := RbtreeCompact.Store.demandAll_sound
    (RbtreeCompact.store_init_shows mem data).tree isRedBlack_nil allowed
    (show _ ≤ fuel by simpa [Model.init, ColorTree.size] using enough)
  obtain ⟨linked, ran', shows'⟩ := Rbtree.Store.demandAll_sound (Rbtree.store_init_shows mem' data).tree
    isRedBlack_nil allowed (show _ ≤ fuel by simpa [Model.init, ColorTree.size] using enough)
  exact ⟨_, compact, linked, _, ran, ran', agree_of_shows shows shows', redBlack, altered⟩

/-- The difference of two values in 8 bits. It is no order: 100 is less than -100, which
is less than 0, which is less than 100. -/
def wrapped (a b : Int) : Int := (a - b).bmod 256

/-- Insertions by wrapped differences, one of a stored node, and a search and removals by
other comparators. -/
def disorderly : List (Demand Int Int) :=
  [.insert wrapped 100, .insert wrapped (-100), .insert wrapped 0, .insert (fun _ _ => 1) 7, .insert wrapped 50,
    .insert wrapped 0, .find wrapped 100, .remove (fun _ _ => -1) 0, .remove wrapped 100, .insert wrapped 100]

def onPaths : List (RbtreeCompact.RbPath Int × Demand Int Int) := disorderly.map (⟨fun _ => ⟨none, .left⟩, 0⟩, ·)

theorem unordered_safe_disorderly :
    (∃ results compact linked tree,
      (RbtreeCompact.Store.init (fun _ => ⟨none, none, .red⟩) fun _ => ()).demandAll 10 onPaths =
        .ok (results, compact) ∧
      (Rbtree.Store.init (fun _ => ⟨none, .red, none, none⟩) fun _ => ()).demandAll 10 (onPaths.map Prod.snd) =
        .ok (results, linked) ∧
      Agree compact linked tree ∧ IsRedBlack tree ∧ AltersAll [] (onPaths.map Prod.snd) results tree.toList) ∧
    AllowedAll .nil ((Model.init fun _ => 0).demands aNode reuse) :=
  ⟨(unordered_safe (κ := Int) fun _ => ()).1 _ _ onPaths 10 (by decide) (by decide),
    (unordered_safe fun _ => 0).2 aNode reuse reuse_allowed⟩

end Embedlib.Rb
