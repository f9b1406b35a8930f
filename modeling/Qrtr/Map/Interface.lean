/-
Module: Qrtr.Map.Interface
Layer: Map
Purpose: The interface of `map.h` as a class, so that its users can be stated over any table that offers
  it. `LawfulMap` sees a table as a row of positions, some of them live, and says what each operation
  does to them. Two positions of one key are allowed; `Single` rules them out, and `PutOk` is the
  condition under which a put keeps it so. The hash map of `map.c` is one such table; the table that
  replaces in place is another, whose puts are always fine.
Imports: Qrtr.Map.Operations
Main exports: MapOps, LawfulMap, MapOps.forEach, Single, Entry, get_eq_some_iff, entry_remove_iff,
  entry_reput_iff, forEach_eq, mem_forEach, Removal
Open obligations: none
-/
import Qrtr.Map.Operations

namespace Qrtr

/-- What a put leaves behind: the return code, the table, and the allocations still to come. -/
structure Reput (T : Type) where
  rc : Int
  table : T
  allocs : AllocPlan

/-- The operations of `map.h` that the name server uses. `bound` bounds the positions an iterator can
    have. -/
class MapOps (T : Type) (V : outParam Type) where
  create : T
  get : T → UInt32 → Option V
  reput : AllocPlan → T → UInt32 → V → Reput T
  remove : T → UInt32 → T
  iterFirst : T → Option Nat
  iterNext : T → Nat → Option Nat
  iterItem : T → Nat → Option V
  bound : T → Nat

namespace MapOps

variable {T V : Type} [MapOps T V]

/-- The items `map_for_each` visits from `iter` on when its body leaves the table alone. -/
def forEachFrom (t : T) : Nat → Option Nat → List V
  | 0, _ => []
  | _ + 1, none => []
  | n + 1, some iter => (iterItem t iter).toList ++ forEachFrom t n (iterNext t iter)

/-- The items of a full `map_for_each` whose body leaves the table alone. -/
def forEach (t : T) : List V := forEachFrom t (bound t + 1) (iterFirst t)

end MapOps

open MapOps

/-- What the operations do, told by the live positions of a table. -/
class LawfulMap (T : Type) (V : outParam Type) [MapOps T V] where
  /-- The key and the item at a position. -/
  live : T → Nat → Option (UInt32 × V)
  /-- The representation invariant. -/
  Ok : T → Prop
  /-- A put of the key meets the item it has to replace. -/
  PutOk : T → UInt32 → Prop
  ok_create : Ok (create : T)
  live_create : ∀ i, live (create : T) i = none
  lt_bound : ∀ {t : T} {i e}, live t i = some e → i < bound t
  iterFirst_eq_some_iff : ∀ {t : T} {j}, iterFirst t = some j ↔
    live t j ≠ none ∧ ∀ l < j, live t l = none
  iterNext_eq_some_iff : ∀ {t : T} {i j}, iterNext t i = some j ↔
    i < j ∧ live t j ≠ none ∧ ∀ l, i < l → l < j → live t l = none
  iterItem_eq : ∀ (t : T) i, iterItem t i = (live t i).map Prod.snd
  live_of_get : ∀ {t : T} {k v}, Ok t → get t k = some v → ∃ i, live t i = some (k, v)
  not_live_of_get : ∀ {t : T} {k}, Ok t → get t k = none → ∀ i v, live t i ≠ some (k, v)
  ok_remove : ∀ {t : T} (k), Ok t → Ok (remove t k)
  bound_remove : ∀ (t : T) k, bound (remove t k) = bound t
  live_remove : ∀ {t : T} {k v}, Ok t → get t k = some v →
    ∃ i, live t i = some (k, v) ∧ ∀ j, live (remove t k) j = if j = i then none else live t j
  get_remove_ne : ∀ {t : T} {k k'}, Ok t → k' ≠ k → get (remove t k) k' = get t k'
  ok_reput : ∀ {t : T} (a k v), Ok t → Ok (reput a t k v).table
  reput_fails : ∀ {t : T} {a k v}, Ok t → (reput a t k v).rc ≠ 0 →
    (reput a t k v).table = t ∧ a ≠ []
  allocs_reput : ∀ {t : T} (k v), Ok t → (reput [] t k v).allocs = []
  live_reput : ∀ {t : T} {a k v i e}, Ok t → (reput a t k v).rc = 0 →
    live (reput a t k v).table i = some e → e = (k, v) ∨ ∃ j, live t j = some e
  get_reput : ∀ {t : T} {a k v}, Ok t → (reput a t k v).rc = 0 →
    get (reput a t k v).table k = some v
  putOk_of_absent : ∀ {t : T} {k}, (∀ i v, live t i ≠ some (k, v)) → PutOk t k
  single_reput : ∀ {t : T} {a k v}, Ok t → (reput a t k v).rc = 0 → PutOk t k →
    (∀ i j k v w, live t i = some (k, v) → live t j = some (k, w) → i = j) →
    ∀ i j k' w x, live (reput a t k v).table i = some (k', w) →
      live (reput a t k v).table j = some (k', x) → i = j
  live_reput_ne : ∀ {t : T} {a k v k' w}, Ok t → (reput a t k v).rc = 0 → PutOk t k →
    (∀ i j k v w, live t i = some (k, v) → live t j = some (k, w) → i = j) → k' ≠ k →
    (∃ j, live t j = some (k', w)) → ∃ i, live (reput a t k v).table i = some (k', w)

open LawfulMap

variable {T V : Type} [MapOps T V] [LawfulMap T V]

/-- No key is live at two positions. -/
def Single (t : T) : Prop :=
  ∀ i j k v w, live t i = some (k, v) → live t j = some (k, w) → i = j

/-- The item is live under the key. -/
def Entry (t : T) (k : UInt32) (v : V) : Prop := ∃ i, live t i = some (k, v)

theorem Single.create : Single (MapOps.create : T) := by
  intro i j k v w hi
  rw [live_create] at hi
  cases hi

theorem not_entry_create (k : UInt32) (v : V) : ¬ Entry (MapOps.create : T) k v := by
  rintro ⟨i, hi⟩
  rw [live_create] at hi
  cases hi

/-- Without duplicates a lookup answers with the one item of the key. -/
theorem get_eq_some_iff {t : T} (h : Ok t) (hs : Single t) {k : UInt32} {v : V} :
    get t k = some v ↔ Entry t k v := by
  constructor
  · exact live_of_get h
  · rintro ⟨i, hi⟩
    cases hget : get t k with
    | none => exact absurd hi (not_live_of_get h hget i v)
    | some w =>
        obtain ⟨j, hj⟩ := live_of_get h hget
        have hij := hs i j k v w hi hj
        subst hij
        rw [hi] at hj
        cases hj
        rfl

theorem get_eq_none_iff {t : T} (h : Ok t) {k : UInt32} :
    get t k = none ↔ ∀ v : V, ¬ Entry t k v := by
  constructor
  · rintro hget v ⟨i, hi⟩
    exact not_live_of_get h hget i v hi
  · intro hall
    cases hget : get t k with
    | none => rfl
    | some v => exact absurd (live_of_get h hget) (hall v)

theorem get_create (k : UInt32) : get (MapOps.create : T) k = (none : Option V) :=
  (get_eq_none_iff ok_create).2 fun v => not_entry_create k v

/-- What is live after a removal was live before. -/
theorem live_of_live_remove {t : T} (h : Ok t) {k : UInt32} {v : V} (hget : get t k = some v) {i : Nat}
    {e : UInt32 × V} (hi : live (MapOps.remove t k) i = some e) : live t i = some e := by
  obtain ⟨p, -, hlive⟩ := live_remove h hget
  rw [hlive] at hi
  split at hi
  · cases hi
  · exact hi

theorem Single.remove {t : T} (hs : Single t) (h : Ok t) {k : UInt32} {v : V}
    (hget : get t k = some v) : Single (MapOps.remove t k) :=
  fun i j k' w x hi hj =>
    hs i j k' w x (live_of_live_remove h hget hi) (live_of_live_remove h hget hj)

/-- Without duplicates a removal empties the one position of its key. -/
theorem live_remove_at {t : T} (h : Ok t) (hs : Single t) {j : Nat} {k : UInt32} {v : V}
    (hj : live t j = some (k, v)) :
    get t k = some v ∧ ∀ i, live (MapOps.remove t k) i = if i = j then none else live t i := by
  have hget := (get_eq_some_iff h hs).2 ⟨j, hj⟩
  obtain ⟨p, hp, hlive⟩ := live_remove h hget
  obtain rfl := hs p j k v v hp hj
  exact ⟨hget, hlive⟩

/-- Without duplicates a removal takes the key away and leaves the others. -/
theorem entry_remove_iff {t : T} (h : Ok t) (hs : Single t) {k : UInt32} {v : V}
    (hget : get t k = some v) (k' : UInt32) (w : V) :
    Entry (MapOps.remove t k) k' w ↔ k' ≠ k ∧ Entry t k' w := by
  obtain ⟨p, hp, hlive⟩ := live_remove h hget
  constructor
  · rintro ⟨i, hi⟩
    refine ⟨?_, i, live_of_live_remove h hget hi⟩
    rintro rfl
    have hip := hs i p k' w v (live_of_live_remove h hget hi) hp
    rw [hlive, if_pos hip] at hi
    cases hi
  · rintro ⟨hne, i, hi⟩
    refine ⟨i, ?_⟩
    rw [hlive, if_neg, hi]
    rintro rfl
    rw [hi] at hp
    cases hp
    exact hne rfl

/-- A put that meets the item it replaces changes its key alone. -/
theorem entry_reput_iff {t : T} (h : Ok t) (hs : Single t) {a : AllocPlan} {k : UInt32} {v : V}
    (hput : PutOk t k) (hrc : (reput a t k v).rc = 0) (k' : UInt32) (w : V) :
    Entry (reput a t k v).table k' w ↔ if k' = k then w = v else Entry t k' w := by
  have hsingle : Single (reput a t k v).table := single_reput h hrc hput hs
  have hown := (get_eq_some_iff (ok_reput a k v h) hsingle).1 (get_reput h hrc)
  split
  · rename_i hk
    subst hk
    rw [← get_eq_some_iff (ok_reput a k' v h) hsingle, get_reput h hrc]
    simp [eq_comm]
  · rename_i hk
    constructor
    · rintro ⟨i, hi⟩
      rcases live_reput h hrc hi with heq | hold
      · cases heq
        exact absurd rfl hk
      · exact hold
    · exact live_reput_ne h hrc hput hs hk

/-! ### Iteration -/

theorem iterFirst_eq_none_iff {t : T} : iterFirst t = none ↔ ∀ l, live t l = none := by
  constructor
  · intro hnone l
    induction l using Nat.strong_induction_on with
    | _ l ih =>
        by_contra hlive
        rw [iterFirst_eq_some_iff.2 ⟨hlive, ih⟩] at hnone
        cases hnone
  · intro hall
    cases hiter : iterFirst t with
    | none => rfl
    | some j => exact absurd (hall j) (iterFirst_eq_some_iff.1 hiter).1

theorem iterNext_eq_none_iff {t : T} {i : Nat} :
    iterNext t i = none ↔ ∀ l, i < l → live t l = none := by
  constructor
  · intro hnone l
    induction l using Nat.strong_induction_on with
    | _ l ih =>
        intro hl
        by_contra hlive
        have hnext := iterNext_eq_some_iff.2 ⟨hl, hlive, fun l' hl' hlt => ih l' hlt hl'⟩
        rw [hnone] at hnext
        cases hnext
  · intro hall
    cases hiter : iterNext t i with
    | none => rfl
    | some j =>
        obtain ⟨hj, hlive, -⟩ := iterNext_eq_some_iff.1 hiter
        exact absurd (hall j hj) hlive

/-- The live items at the positions from `start` on, in order. -/
def itemsFrom (t : T) (start : Nat) : List V :=
  (List.range' start (bound t - start)).filterMap fun i => (live t i).map Prod.snd

/-- The iterator stands at the first live position from `start` on, or at the end. -/
def Stands (t : T) (start : Nat) (iter : Option Nat) : Prop :=
  match iter with
  | none => ∀ l, start ≤ l → live t l = none
  | some j => start ≤ j ∧ live t j ≠ none ∧ ∀ l, start ≤ l → l < j → live t l = none

theorem stands_iterFirst (t : T) : Stands t 0 (iterFirst t) := by
  cases hiter : iterFirst t with
  | none => exact fun l _ => iterFirst_eq_none_iff.1 hiter l
  | some j =>
      obtain ⟨hlive, hbefore⟩ := iterFirst_eq_some_iff.1 hiter
      exact ⟨Nat.zero_le j, hlive, fun l _ hl => hbefore l hl⟩

theorem stands_iterNext (t : T) (i : Nat) : Stands t (i + 1) (iterNext t i) := by
  cases hiter : iterNext t i with
  | none => exact fun l hl => iterNext_eq_none_iff.1 hiter l hl
  | some j => exact iterNext_eq_some_iff.1 hiter

theorem itemsFrom_eq_nil {t : T} {start : Nat} (h : Stands t start none) : itemsFrom t start = [] := by
  rw [itemsFrom, List.filterMap_eq_nil_iff]
  intro i hi
  rw [h i (List.mem_range'_1.1 hi).1]
  rfl

theorem itemsFrom_succ {t : T} {i : Nat} (hi : i < bound t) :
    itemsFrom t i = ((live t i).map Prod.snd).toList ++ itemsFrom t (i + 1) := by
  obtain ⟨n, hn⟩ : ∃ n, bound t - i = n + 1 := ⟨bound t - i - 1, by omega⟩
  have hn' : bound t - (i + 1) = n := by omega
  rw [itemsFrom, itemsFrom, hn, hn', List.range'_succ, List.filterMap_cons]
  cases (live t i).map Prod.snd <;> rfl

/-- An iterator skips the positions that are not live. -/
theorem itemsFrom_stands {t : T} {j : Nat} (hj : j < bound t) :
    ∀ {n start : Nat}, start + n = j → (∀ l, start ≤ l → l < j → live t l = none) →
      itemsFrom t start = itemsFrom t j
  | 0, start, hn, _ => by
      rw [← hn, Nat.add_zero]
  | n + 1, start, hn, hskip => by
      have hlt : start < j := by omega
      rw [itemsFrom_succ (Nat.lt_trans hlt hj), hskip start (Nat.le_refl _) hlt,
        itemsFrom_stands hj (n := n) (by omega) fun l hl => hskip l (by omega)]
      rfl

theorem forEachFrom_eq (t : T) :
    ∀ {n start : Nat} {iter : Option Nat}, Stands t start iter → bound t < n + start →
      forEachFrom t n iter = itemsFrom t start
  | 0, start, iter, _, hn => by
      have hempty : bound t - start = 0 := by omega
      rw [itemsFrom, hempty]
      rfl
  | n + 1, start, none, hstands, _ => (itemsFrom_eq_nil hstands).symm
  | n + 1, start, some j, ⟨hsj, hlive, hskip⟩, hn => by
      obtain ⟨e, he⟩ := Option.ne_none_iff_exists'.1 hlive
      have hj := lt_bound he
      have hrest := forEachFrom_eq t (n := n) (stands_iterNext t j) (by omega)
      rw [forEachFrom, hrest, iterItem_eq, itemsFrom_stands hj (n := j - start) (by omega) hskip,
        itemsFrom_succ hj]

theorem forEach_eq (t : T) : forEach t = itemsFrom t 0 :=
  forEachFrom_eq t (stands_iterFirst t) (by omega)

/-- A full iteration visits exactly the live items. -/
theorem mem_forEach {t : T} {v : V} : v ∈ forEach t ↔ ∃ k, Entry t k v := by
  rw [forEach_eq, itemsFrom, List.mem_filterMap]
  constructor
  · rintro ⟨i, -, hi⟩
    rw [Option.map_eq_some_iff] at hi
    obtain ⟨⟨k, w⟩, hlive, rfl⟩ := hi
    exact ⟨k, i, hlive⟩
  · rintro ⟨k, i, hi⟩
    have hlt := lt_bound hi
    exact ⟨i, List.mem_range'_1.2 ⟨Nat.zero_le i, by omega⟩, by rw [hi]; rfl⟩

/-- An empty table has nothing to visit. -/
theorem forEach_eq_nil_iff {t : T} : forEach t = [] ↔ ∀ i, live t i = none := by
  rw [List.eq_nil_iff_forall_not_mem]
  constructor
  · intro hnil i
    by_contra hlive
    obtain ⟨⟨k, v⟩, he⟩ := Option.ne_none_iff_exists'.1 hlive
    exact hnil v (mem_forEach.2 ⟨k, i, he⟩)
  · intro hall v hv
    obtain ⟨k, i, hi⟩ := mem_forEach.1 hv
    rw [hall i] at hi
    cases hi

/-! ### Sequences of removals -/

/-- The second table comes from the first by removals that took the listed items out, in order. -/
inductive Removal : T → List V → T → Prop where
  | nil (t : T) : Removal t [] t
  | cons {t t' : T} {k : UInt32} {v : V} {vs : List V} (found : get t k = some v)
      (rest : Removal (remove t k) vs t') : Removal t (v :: vs) t'

namespace Removal

variable {t t' : T} {vs : List V}

omit [LawfulMap T V] in
theorem one {k : UInt32} {v : V} (found : get t k = some v) : Removal t [v] (remove t k) :=
  .cons found (.nil _)

theorem ok (h : Removal t vs t') (hok : Ok t) : Ok t' := by
  induction h with
  | nil t => exact hok
  | cons found rest ih => exact ih (ok_remove _ hok)

theorem single (h : Removal t vs t') (hok : Ok t) (hs : Single t) : Single t' := by
  induction h with
  | nil t => exact hs
  | cons found rest ih => exact ih (ok_remove _ hok) (hs.remove hok found)

/-- What is live afterwards was live before. -/
theorem live_of (h : Removal t vs t') (hok : Ok t) {i : Nat} {e : UInt32 × V}
    (hi : live t' i = some e) : live t i = some e := by
  induction h with
  | nil t => exact hi
  | cons found rest ih =>
      exact live_of_live_remove hok found (ih (ok_remove _ hok) hi)

/-- What was taken out was live. -/
theorem entry_of_mem (h : Removal t vs t') (hok : Ok t) {v : V} (hv : v ∈ vs) :
    ∃ k, Entry t k v := by
  induction h with
  | nil t => cases hv
  | @cons t t' k w ws found rest ih =>
      rcases List.mem_cons.1 hv with rfl | hmem
      · exact ⟨k, live_of_get hok found⟩
      · obtain ⟨k', i, hi⟩ := ih (ok_remove _ hok) hmem
        exact ⟨k', i, live_of_live_remove hok found hi⟩

end Removal

/-- The items from a position on depend on the positions from there on. -/
theorem itemsFrom_congr {t t' : T} {start : Nat} (hbound : bound t = bound t')
    (h : ∀ l, start ≤ l → live t l = live t' l) : itemsFrom t start = itemsFrom t' start := by
  rw [itemsFrom, itemsFrom, hbound]
  apply List.filterMap_congr
  intro i hi
  rw [h i (List.mem_range'_1.1 hi).1]

end Qrtr
