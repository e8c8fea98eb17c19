import Embedlib.ArrayUtils.Items
import Embedlib.Library.OrderedMap

/-! What the binary search finds. -/

set_option autoImplicit false

namespace Embedlib.ArrayUtils

open Library

variable {α κ : Type} [LinearOrder κ]

/-- The first `len` items are in strictly increasing key order. -/
def Ascends (key : α → κ) (item : Nat → α) (len : Nat) : Prop :=
  ∀ i j, i < j → j < len → key (item i) < key (item j)

/-- The items before `low` are below `k`, those from `high` on above it. -/
structure Narrowed (key : α → κ) (item : Nat → α) (len : Nat) (k : κ) (low high : Nat) : Prop where
  ordered : low ≤ high
  inside : high ≤ len
  below : ∀ j < low, key (item j) < k
  above : ∀ j, high ≤ j → j < len → k < key (item j)

section
variable {key : α → κ} {item : Nat → α} {len low high med : Nat} {k : κ}

theorem ascends_iff : Ascends key item len ↔ (segment item 0 len).Pairwise fun a b => key a < key b := by
  simp only [Ascends, pairwise_segment, Nat.zero_le, true_implies, Nat.zero_add]

theorem narrowed_start : Narrowed key item len k 0 len :=
  ⟨Nat.zero_le _, Nat.le_refl _, nofun, fun _ _ _ => by omega⟩

theorem Narrowed.right (narrowed : Narrowed key item len k low high) (ascends : Ascends key item len)
    (within : med < high) (less : key (item med) < k) : Narrowed key item len k (med + 1) high := by
  refine ⟨within, narrowed.inside, fun j before => ?_, narrowed.above⟩
  rcases Nat.lt_succ_iff_lt_or_eq.mp before with before | rfl
  · exact (ascends j med before (Nat.lt_of_lt_of_le within narrowed.inside)).trans less
  · exact less

theorem Narrowed.left (narrowed : Narrowed key item len k low high) (ascends : Ascends key item len)
    (after : low ≤ med) (within : med < high) (more : k < key (item med)) :
    Narrowed key item len k low med := by
  refine ⟨after, Nat.le_of_lt (Nat.lt_of_lt_of_le within narrowed.inside), narrowed.below, ?_⟩
  intro j behind inside
  rcases Nat.lt_or_eq_of_le behind with past | rfl
  · exact more.trans (ascends med j past inside)
  · exact more

theorem Narrowed.brackets (narrowed : Narrowed key item len k low low) :
    Brackets key k (segment item 0 low) (segment item low (len - low)) := by
  have inside := narrowed.inside
  constructor
  · intro y member
    obtain ⟨j, _, before, rfl⟩ := mem_segment.mp member
    exact narrowed.below j (by omega)
  · intro y member
    obtain ⟨j, behind, before, rfl⟩ := mem_segment.mp member
    exact narrowed.above j behind (by omega)

end

/-- The index probed between two bounds; `high` is the first index behind them. -/
def middle (low high : Nat) : Nat := (low + high - 1) / 2

theorem middle_eq {low high : Nat} (more : low < high) :
    ((low : Int) + ((high : Int) - 1)).tdiv 2 = (middle low high : Nat) := by
  rw [middle, Int.tdiv_eq_ediv_of_nonneg (by omega)]
  omega

theorem le_middle {low high : Nat} (more : low < high) : low ≤ middle low high := by
  unfold middle; omega

theorem middle_lt {low high : Nat} (more : low < high) : middle low high < high := by
  unfold middle; omega

/-- The expressions that one round of the search evaluates do not overflow. -/
structure Computes (arith : IntArithmetic) (low high : Nat) : Prop where
  sum : arith.signed ((low : Int) + ((high : Int) - 1)) = .ok ((low : Int) + ((high : Int) - 1))
  next : arith.signed ((middle low high : Nat) + 1) = .ok ((middle low high : Nat) + 1)
  previous : arith.signed ((middle low high : Nat) - 1) = .ok ((middle low high : Nat) - 1)

theorem exact_computes (low high : Nat) : Computes .exact low high := ⟨rfl, rfl, rfl⟩

/-- `Inv` holds of the bounds in every round of the search for `k`. -/
structure Guides {α κ : Type} (arith : IntArithmetic) (keyCmp : α → κ → Int) (map : Items α) (k : κ)
    (Inv : Nat → Nat → Prop) : Prop where
  last : arith.ofUnsigned (map.len - 1) = map.len - 1
  start : Inv 0 map.len
  inside : ∀ low high, Inv low high → low ≤ high ∧ high ≤ map.len
  computes : ∀ low high, Inv low high → low < high → Computes arith low high
  right : ∀ low high, Inv low high → low < high → keyCmp (map.item (middle low high)) k < 0 →
    Inv (middle low high + 1) high
  left : ∀ low high, Inv low high → low < high → 0 < keyCmp (map.item (middle low high)) k →
    Inv low (middle low high)

/-- The search ends where a probe hits the key, or where the bounds meet. -/
theorem Guides.ensures_bsearch {α κ : Type} {arith : IntArithmetic} {keyCmp : α → κ → Int} {map : Items α}
    {k : κ} {Inv : Nat → Nat → Prop} (guides : Guides arith keyCmp map k Inv) (fits : map.len ≤ map.size)
    {post : Bool × Int → Items α → Prop}
    (present : ∀ low high, Inv low high → low < high → keyCmp (map.item (middle low high)) k = 0 →
      post (true, (middle low high : Nat)) map)
    (absent : ∀ low : Nat, Inv low low → post (false, low) map) :
    Ensures (bsearch arith keyCmp k) post map := by
  unfold bsearch
  simp only [ensures_bind, ensures_get]
  refine ensures_loop (fun left (bounds : Int × Int) state => map = state ∧ ∃ low high : Nat,
    bounds = ((low : Int), (high : Int) - 1) ∧ left = high - low ∧ Inv low high) ?_
    (Nat.lt_succ_self map.len) ⟨rfl, 0, map.len, by rw [guides.last]; rfl, rfl, guides.start⟩
  rintro left ⟨_, _⟩ _ ⟨rfl, low, high, bounds, rfl, inv⟩
  obtain ⟨rfl, rfl⟩ := Prod.mk.inj bounds
  obtain ⟨ordered, inside⟩ := guides.inside low high inv
  by_cases more : low < high
  · have computes := guides.computes low high inv more
    have after := le_middle more
    have within := middle_lt more
    unfold bsearchRound
    have goesOn : (low : Int) ≤ (high : Int) - 1 := by omega
    simp only [if_pos goesOn, ensures_bind]
    apply (arith.ensures_int computes.sum _ _).mpr
    apply ensures_getItem (middle_eq more) (by omega)
    -- The three branches of the source; a round that goes on has fewer items left.
    rcases lt_trichotomy (keyCmp (map.item (middle low high)) k) 0 with less | same | greater
    · simp only [if_pos less, ensures_bind, ensures_pure, middle_eq more]
      apply (arith.ensures_int computes.next _ _).mpr
      exact ⟨high - (middle low high + 1), by omega, rfl, _, high, rfl, rfl, guides.right low high inv more less⟩
    · simp only [same, lt_irrefl, if_false, ensures_pure, middle_eq more]
      exact present low high inv more same
    · simp only [if_neg greater.not_gt, if_pos greater, ensures_bind, ensures_pure, middle_eq more]
      apply (arith.ensures_int computes.previous _ _).mpr
      exact ⟨middle low high - low, by omega, rfl, low, _, rfl, rfl, guides.left low high inv more greater⟩
  · obtain rfl : low = high := by omega
    unfold bsearchRound
    have stops : ¬ (low : Int) ≤ (low : Int) - 1 := by omega
    simp only [if_neg stops, ensures_pure]
    exact absent low inv

theorem guides_inside {α κ : Type} (keyCmp : α → κ → Int) (map : Items α) (k : κ) :
    Guides .exact keyCmp map k fun low high => low ≤ high ∧ high ≤ map.len where
  last := rfl
  start := ⟨Nat.zero_le _, Nat.le_refl _⟩
  inside _ _ inv := inv
  computes low high _ _ := exact_computes low high
  right _ _ inv more _ := ⟨middle_lt more, inv.2⟩
  left _ _ inv more _ := ⟨le_middle more, (Nat.le_of_lt (middle_lt more)).trans inv.2⟩

theorem guides_narrowed (c : KeyCmp α κ) {map : Items α} (ascends : Ascends c.keyOf map.item map.len) (k : κ) :
    Guides .exact c.keyCmp map k (Narrowed c.keyOf map.item map.len k) where
  last := rfl
  start := narrowed_start
  inside _ _ narrowed := ⟨narrowed.ordered, narrowed.inside⟩
  computes low high _ _ := exact_computes low high
  right _ _ narrowed more less := narrowed.right ascends (middle_lt more) ((c.keyCmp_neg _ _).mp less)
  left _ _ narrowed more greater :=
    narrowed.left ascends (le_middle more) (middle_lt more) ((c.keyCmp_pos _ _).mp greater)

theorem KeyCmp.eq_zero (c : KeyCmp α κ) {x : α} {k : κ} : c.keyCmp x k = 0 ↔ c.keyOf x = k := by
  have below := c.keyCmp_neg x k
  have above := c.keyCmp_pos x k
  rcases lt_trichotomy (c.keyOf x) k with less | same | greater
  · exact ⟨fun zero => absurd (below.mpr less) (by omega), fun same => absurd same less.ne⟩
  · rw [same] at below above
    simp only [lt_irrefl, iff_false] at below above
    exact ⟨fun _ => same, fun _ => by omega⟩
  · exact ⟨fun zero => absurd (above.mpr greater) (by omega), fun same => absurd same greater.ne'⟩

theorem ensures_search (c : KeyCmp α κ) {map : Items α} {entries : κ → Option α} {k : κ}
    {post : Bool × Int → Items α → Prop} (fits : map.len ≤ map.size)
    (lists : Lists c.keyOf entries map.live)
    (present : ∀ index : Nat, index < map.len → entries k = some (map.item index) → post (true, index) map)
    (absent : ∀ index : Nat, index ≤ map.len → entries k = none →
      Brackets c.keyOf k (segment map.item 0 index) (segment map.item index (map.len - index)) →
      post (false, index) map) :
    Ensures (bsearch .exact c.keyCmp k) post map := by
  refine (guides_narrowed c (ascends_iff.mpr lists.sorted) k).ensures_bsearch fits ?_ ?_
  · intro low high narrowed more same
    have inside := (middle_lt more).trans_le narrowed.inside
    exact present _ inside ((lists.entries k _).mpr ⟨Items.item_mem_live inside, c.eq_zero.mp same⟩)
  · intro index narrowed
    have brackets := narrowed.brackets
    refine absent index narrowed.inside (lists.absent.mpr fun x member => ?_) brackets
    rw [Items.live_split narrowed.inside, List.mem_append] at member
    exact member.elim (fun below => (brackets.1 x below).ne) fun above => (brackets.2 x above).ne'

end Embedlib.ArrayUtils
