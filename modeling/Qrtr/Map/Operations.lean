/-
Module: Qrtr.Map.Operations
Layer: Map
Purpose: One specification for each map operation under the representation invariant: lookup finds a
  live item of the key if there is one, removal turns one slot into a tombstone and nothing else, an
  iteration visits the live slots in order, and `map_reput` updates one key where the put is sound.
Imports: Qrtr.Map.Invariant
Main exports: mapFind_eq_none_iff, mapGet_eq_some_iff, mapRemove_cases, Map.Inv.remove,
  Map.holds_mapRemove, mapIterFrom_eq_some_iff, mapForEach_eq, mapReput_spec, Map.Inv.clear
Open obligations: none
-/
import Qrtr.Map.Invariant

namespace Qrtr

open CyclicScan

variable {V : Type}

/-! ### Lookup -/

/-- A lookup that finds something found a live item of the key. -/
theorem mapFind_eq_some {m : Map V} {key : UInt32} {e : Nat} (h : mapFind m key = some e) :
    ∃ v, m.slot e = .item key v := by
  unfold mapFind at h
  split at h
  · cases h
  · rename_i hsize
    have hhome := Map.home_lt (Nat.pos_of_ne_zero hsize) key
    rw [mapFindLoop_eq_scan, Option.bind_eq_some_iff] at h
    obtain ⟨j, hscan, hj⟩ := h
    split at hj
    · cases hj
    · rename_i hfree
      cases hj
      obtain ⟨i, -, -, hends, -⟩ := (scan_eq_some_iff _ hhome).1 hscan
      cases hslot : m.slot e <;> simp [Map.free, Map.ends, Slot.live?, hslot] at hfree hends
      rename_i k v
      exact ⟨v, by rw [hends]⟩

/-- Under the invariant a live key is found. -/
theorem mapFind_isSome {m : Map V} (h : m.Inv) {key : UInt32} {v : V} (hv : m.Holds key v) :
    ∃ e, mapFind m key = some e := by
  obtain ⟨s, hs⟩ := hv
  have hslt := Map.lt_size_of_item hs
  have hpos : 0 < m.size := Nat.zero_lt_of_lt hslt
  have hhome := Map.home_lt hpos key
  have hends : m.ends key s = true := by simp [Map.ends, hs]
  cases hscan : scan (m.ends key) m.size m.size (m.home key) with
  | none =>
      have := (scan_full_eq_none_iff _ hhome).1 hscan s hslt
      rw [hends] at this
      cases this
  | some j =>
      obtain ⟨i, hi, rfl, hhit, hbefore⟩ := (scan_eq_some_iff _ hhome).1 hscan
      -- the walk ends no later than at `s`, and a NULL slot ahead of `s` would break the invariant
      have hnotfree : ¬ m.free (stop m.size (m.home key) i) := by
        intro hfree
        have hne : i ≠ dist m.size (m.home key) s := by
          rintro rfl
          rw [stop_dist hhome hslt] at hfree
          simp [Map.free, Slot.live?, hs] at hfree
        have hlt : i < dist m.size (m.home key) s := by
          by_contra hge
          have := hbefore (dist m.size (m.home key) s) (by omega)
          rw [stop_dist hhome hslt, hends] at this
          cases this
        have hnonnull := h.reach hs i hlt
        cases hslot : m.slot (stop m.size (m.home key) i) <;>
          simp [Map.free, Map.ends, Slot.live?, hslot] at hfree hhit hnonnull
      refine ⟨stop m.size (m.home key) i, ?_⟩
      simp only [Map.home] at hscan hnotfree ⊢
      rw [mapFind, if_neg (by omega), mapFindLoop_eq_scan, hscan, Option.bind_some, if_neg hnotfree]

theorem mapFind_eq_none_iff {m : Map V} (h : m.Inv) {key : UInt32} :
    mapFind m key = none ↔ ∀ v, ¬ m.Holds key v := by
  constructor
  · intro hnone v hv
    obtain ⟨e, he⟩ := mapFind_isSome h hv
    rw [hnone] at he
    cases he
  · intro hall
    cases hfind : mapFind m key with
    | none => rfl
    | some e =>
        obtain ⟨v, hv⟩ := mapFind_eq_some hfind
        exact absurd ⟨e, hv⟩ (hall v)

/-- What `map_get` returns is live under the key. -/
theorem holds_of_mapGet {m : Map V} {key : UInt32} {v : V} (h : mapGet m key = some v) :
    m.Holds key v := by
  unfold mapGet at h
  cases hfind : mapFind m key with
  | none => rw [hfind] at h; cases h
  | some e =>
      obtain ⟨w, hw⟩ := mapFind_eq_some hfind
      rw [hfind] at h
      simp only [hw, Slot.live?, Option.map_some, Option.some.injEq] at h
      exact ⟨e, by rw [hw, h]⟩

theorem mapGet_eq_some_iff {m : Map V} (h : m.Inv) (hu : m.Unique) {key : UInt32} {v : V} :
    mapGet m key = some v ↔ m.Holds key v := by
  refine ⟨holds_of_mapGet, fun hv => ?_⟩
  obtain ⟨e, he⟩ := mapFind_isSome h hv
  obtain ⟨w, hw⟩ := mapFind_eq_some he
  rw [hu.holds_inj hv ⟨e, hw⟩]
  simp [mapGet, he, hw, Slot.live?]

theorem mapGet_eq_none_iff {m : Map V} (h : m.Inv) {key : UInt32} :
    mapGet m key = none ↔ ∀ v, ¬ m.Holds key v := by
  rw [← mapFind_eq_none_iff h]
  unfold mapGet
  cases hfind : mapFind m key with
  | none => simp
  | some e =>
      obtain ⟨w, hw⟩ := mapFind_eq_some hfind
      simp [hw, Slot.live?]

theorem mapContains_iff {m : Map V} (h : m.Inv) {key : UInt32} :
    mapContains m key = true ↔ ∃ v, m.Holds key v := by
  rw [mapContains, Option.isSome_iff_ne_none, Ne, mapFind_eq_none_iff h]
  simp

/-! ### Removal -/

/-- A removal turns at most one slot, a live slot of the key, into a tombstone. -/
theorem mapRemove_cases (m : Map V) (key : UInt32) :
    (mapFind m key = none ∧ mapRemove m key = (1, m)) ∨
      ∃ e v, mapFind m key = some e ∧ m.slot e = .item key v ∧
        mapRemove m key = (0, { m.setSlot e .deleted with count := m.count - 1 }) := by
  cases hfind : mapFind m key with
  | none => exact Or.inl ⟨rfl, by simp [mapRemove, hfind]⟩
  | some e =>
      obtain ⟨v, hv⟩ := mapFind_eq_some hfind
      exact Or.inr ⟨e, v, rfl, hv, by simp [mapRemove, hfind]⟩

theorem Map.slot_removed {m : Map V} {e : Nat} (he : e < m.size) (c : Nat) (j : Nat) :
    ({ m.setSlot e .deleted with count := c } : Map V).slot j =
      if j = e then .deleted else m.slot j :=
  Map.slot_setSlot he .deleted j

@[simp] theorem Map.size_mapRemove (m : Map V) (key : UInt32) :
    (mapRemove m key).2.size = m.size := by
  rcases mapRemove_cases m key with ⟨-, heq⟩ | ⟨e, v, -, -, heq⟩
  · rw [heq]
  · rw [heq]
    show (m.setSlot e .deleted).size = _
    simp

theorem Map.Inv.remove {m : Map V} (h : m.Inv) (key : UInt32) : (mapRemove m key).2.Inv := by
  rcases mapRemove_cases m key with ⟨-, heq⟩ | ⟨e, v, -, hv, heq⟩
  · rwa [heq]
  · rw [heq]
    have he := Map.lt_size_of_item hv
    constructor
    · have hcount := Map.liveCount_setSlot he .deleted
      have hfree : ¬ m.free e := by simp [Map.free, Slot.live?, hv]
      show m.count - 1 = (m.setSlot e .deleted).liveCount
      simp only [hfree, Slot.live?, if_false, if_true] at hcount
      rw [h.count_eq]
      omega
    · intro s k w hs i hi
      rw [Map.slot_removed he] at hs
      split at hs
      · cases hs
      · have hi' : i < dist m.size (m.home k) s := by
          simpa [Map.size, Map.home, Map.setSlot] using hi
        have hold := h.reach hs i hi'
        have hsize : ({ m.setSlot e .deleted with count := m.count - 1 } : Map V).size = m.size :=
          Map.size_setSlot m e .deleted
        simp only [Map.home, hsize] at hold ⊢
        rw [Map.slot_removed he]
        split
        · simp
        · exact hold

/-- The slots after a removal from a table without duplicates. -/
theorem Map.slot_mapRemove {m : Map V} (h : m.Inv) (hu : m.Unique) (key : UInt32) (j : Nat) :
    (mapRemove m key).2.slot j =
      match m.slot j with
      | .item k v => if k = key then .deleted else .item k v
      | s => s := by
  rcases mapRemove_cases m key with ⟨hnone, heq⟩ | ⟨e, v, -, hv, heq⟩
  · rw [heq]
    cases hslot : m.slot j with
    | empty => rfl
    | deleted => rfl
    | item k w =>
        have hk : k ≠ key := by
          rintro rfl
          exact (mapFind_eq_none_iff h).1 hnone w ⟨j, hslot⟩
        simp [hk]
  · rw [heq, Map.slot_removed (Map.lt_size_of_item hv)]
    by_cases hj : j = e
    · subst hj; simp [hv]
    · rw [if_neg hj]
      cases hslot : m.slot j with
      | empty => rfl
      | deleted => rfl
      | item k w =>
          have hk : k ≠ key := by
            rintro rfl
            exact hj (hu j e k w v hslot hv)
          simp [hk]

/-- What is live after a removal was live before it, under another key. -/
theorem Map.slot_mapRemove_eq_item {m : Map V} (h : m.Inv) (hu : m.Unique) {key k : UInt32} {j : Nat}
    {v : V} : (mapRemove m key).2.slot j = .item k v ↔ k ≠ key ∧ m.slot j = .item k v := by
  rw [Map.slot_mapRemove h hu]
  cases hslot : m.slot j with
  | empty => simp
  | deleted => simp
  | item k' v' =>
      by_cases hk : k' = key
      · simp only [if_pos hk, reduceCtorEq, Slot.item.injEq, false_iff, not_and]
        rintro hne rfl -
        exact hne hk
      · simp only [if_neg hk, Slot.item.injEq]
        constructor
        · rintro ⟨rfl, rfl⟩
          exact ⟨hk, rfl, rfl⟩
        · exact And.right

theorem Map.Unique.remove {m : Map V} (hu : m.Unique) (h : m.Inv) (key : UInt32) :
    (mapRemove m key).2.Unique := by
  intro s t k v w hs ht
  exact hu s t k v w ((Map.slot_mapRemove_eq_item h hu).1 hs).2
    ((Map.slot_mapRemove_eq_item h hu).1 ht).2

theorem Map.holds_mapRemove {m : Map V} (h : m.Inv) (hu : m.Unique) (key k : UInt32) (v : V) :
    (mapRemove m key).2.Holds k v ↔ k ≠ key ∧ m.Holds k v := by
  simp only [Map.Holds, Map.slot_mapRemove_eq_item h hu, exists_and_left]

/-! ### Iteration -/

/-- The walk of `map_iter_from` returns the first live slot from `start` on. -/
theorem mapIterLoop_eq_some_iff (m : Map V) :
    ∀ {n i j : Nat}, mapIterLoop m n i = some j ↔
      i ≤ j ∧ j < i + n ∧ (m.slot j).live?.isSome = true ∧
        ∀ l, i ≤ l → l < j → (m.slot l).live? = none
  | 0, i, j => by simp [mapIterLoop]; omega
  | n + 1, i, j => by
      unfold mapIterLoop
      by_cases hlive : (m.slot i).live?.isSome = true
      · rw [if_pos hlive]
        constructor
        · rintro ⟨⟩
          exact ⟨Nat.le_refl _, by omega, hlive, fun l hl hlt => absurd hlt (by omega)⟩
        · rintro ⟨hij, -, -, hbefore⟩
          by_contra hne
          have hlt : i < j := by
            rcases Nat.lt_or_eq_of_le hij with h | h
            · exact h
            · exact absurd (by rw [h]) hne
          have := hbefore i (Nat.le_refl _) hlt
          rw [this] at hlive
          cases hlive
      · rw [if_neg hlive, mapIterLoop_eq_some_iff m]
        have hdead : (m.slot i).live? = none := by
          simpa [Option.isSome_iff_ne_none] using hlive
        constructor
        · rintro ⟨hij, hjn, hj, hbefore⟩
          refine ⟨by omega, by omega, hj, fun l hl hlt => ?_⟩
          rcases Nat.lt_or_eq_of_le hl with h | h
          · exact hbefore l h hlt
          · rw [← h]; exact hdead
        · rintro ⟨hij, hjn, hj, hbefore⟩
          have hne : i ≠ j := by
            rintro rfl
            exact hlive hj
          exact ⟨by omega, by omega, hj, fun l hl hlt => hbefore l (by omega) hlt⟩

theorem mapIterFrom_eq_some_iff (m : Map V) {start j : Nat} :
    mapIterFrom m start = some j ↔
      start ≤ j ∧ (m.slot j).live?.isSome = true ∧
        ∀ l, start ≤ l → l < j → (m.slot l).live? = none := by
  rw [mapIterFrom, mapIterLoop_eq_some_iff]
  constructor
  · rintro ⟨h, -, hj, hbefore⟩
    exact ⟨h, hj, hbefore⟩
  · rintro ⟨h, hj, hbefore⟩
    have hlt : j < m.size := by
      apply Map.lt_size_of_slot_ne_empty
      intro hslot
      simp [hslot, Slot.live?] at hj
    exact ⟨h, by omega, hj, hbefore⟩

theorem mapIterFrom_eq_none_iff (m : Map V) {start : Nat} :
    mapIterFrom m start = none ↔ ∀ l, start ≤ l → (m.slot l).live? = none := by
  constructor
  · intro hnone l
    induction l using Nat.strong_induction_on with
    | _ l ih =>
        intro hl
        by_contra hlive
        have := (mapIterFrom_eq_some_iff m).2
          ⟨hl, Option.isSome_iff_ne_none.2 hlive, fun l' hl' hlt => ih l' hlt hl'⟩
        rw [hnone] at this
        cases this
  · intro hall
    cases hiter : mapIterFrom m start with
    | none => rfl
    | some j =>
        obtain ⟨hj, hlive, -⟩ := (mapIterFrom_eq_some_iff m).1 hiter
        rw [hall j hj] at hlive
        cases hlive

/-- A slot that holds nothing is skipped. -/
theorem mapIterFrom_skip {m : Map V} {start : Nat} (h : (m.slot start).live? = none) :
    mapIterFrom m start = mapIterFrom m (start + 1) := by
  cases hiter : mapIterFrom m (start + 1) with
  | none =>
      rw [mapIterFrom_eq_none_iff] at hiter ⊢
      intro l hl
      rcases Nat.lt_or_eq_of_le hl with hlt | rfl
      · exact hiter l hlt
      · exact h
  | some j =>
      rw [mapIterFrom_eq_some_iff] at hiter ⊢
      obtain ⟨hj, hlive, hbefore⟩ := hiter
      refine ⟨by omega, hlive, fun l hl hlt => ?_⟩
      rcases Nat.lt_or_eq_of_le hl with h' | rfl
      · exact hbefore l h' hlt
      · exact h

/-- A full iteration from a slot on visits the live entries of the slots from there on, in order. -/
theorem mapForEachFrom_eq (m : Map V) :
    ∀ (slots : List (Slot V)) {n start : Nat}, m.data.drop start = slots → slots.length < n →
      mapForEachFrom m n (mapIterFrom m start) =
        (slots.filterMap Slot.live?).map Prod.snd
  | [], n, start, hdrop, hn => by
      have hend : m.data.length ≤ start := List.drop_eq_nil_iff.1 hdrop
      have hnone : mapIterFrom m start = none :=
        (mapIterFrom_eq_none_iff m).2 fun l hl => by
          rw [Map.slot_of_size_le (show m.size ≤ l from Nat.le_trans hend hl)]; rfl
      obtain ⟨n, rfl⟩ : ∃ n', n = n' + 1 := ⟨n - 1, by simp at hn; omega⟩
      rw [hnone]
      rfl
  | s :: slots, n, start, hdrop, hn => by
      simp only [List.length_cons] at hn
      have hlt : start < m.data.length := by
        by_contra hge
        rw [List.drop_eq_nil_iff.2 (by omega)] at hdrop
        cases hdrop
      rw [List.drop_eq_getElem_cons hlt] at hdrop
      obtain ⟨hhead, htail⟩ := List.cons.inj hdrop
      have hslot : m.slot start = s := by simp [Map.slot, List.getD, hlt, hhead]
      cases hentry : s.live? with
      | none =>
          rw [mapIterFrom_skip (by rw [hslot, hentry]),
            mapForEachFrom_eq m slots htail (by omega), List.filterMap_cons_none hentry]
      | some e =>
          have hiter : mapIterFrom m start = some start :=
            (mapIterFrom_eq_some_iff m).2
              ⟨Nat.le_refl _, by rw [hslot, hentry]; rfl, fun l hl hlt' => absurd hlt' (by omega)⟩
          obtain ⟨n, rfl⟩ : ∃ n', n = n' + 1 := ⟨n - 1, by omega⟩
          rw [hiter, mapForEachFrom, mapIterNext, mapForEachFrom_eq m slots htail (by omega),
            List.filterMap_cons_some hentry]
          simp [mapIterItem, hslot, hentry]

/-- A full iteration yields the item of every live slot once. -/
theorem mapForEach_eq (m : Map V) : mapForEach m = m.entries.map Prod.snd :=
  mapForEachFrom_eq m m.data rfl (Nat.lt_succ_self _)

/-! ### The put -/

/-- What a sound `map_reput` with succeeding allocations does: it reports the displaced item, keeps
    both invariants and changes the value of its key alone. -/
structure PutSpec (m : Map V) (key : UInt32) (value : V) (r : PutResult V) : Prop where
  rc_eq : r.rc = 0
  allocs_eq : r.allocs = []
  inv : r.map.Inv
  unique : r.map.Unique
  old_eq : ∀ w, r.old = some w ↔ m.Holds key w
  holds : ∀ k v, r.map.Holds k v ↔ if k = key then v = value else m.Holds k v
  clean : m.Clean → r.map.Clean

theorem PutSpec.placed {m : Map V} (h : m.Inv) (hroom : m.count ≠ m.size) (hu : m.Unique)
    {key : UInt32} (hput : m.PutOk key) (value : V) :
    PutSpec m key value (placed [] m key value) where
  rc_eq := rfl
  allocs_eq := rfl
  inv := h.place hroom key value
  unique := hu.place h hroom hput value
  old_eq := Map.displaced_eq_some_iff h hroom hu hput
  holds := Map.holds_place h hroom hu hput value
  clean hclean := hclean.place h hroom key value

theorem mapReput_spec {m : Map V} (h : m.Inv) (hu : m.Unique) {key : UInt32} (hput : m.PutOk key)
    (value : V) : PutSpec m key value (mapReput [] m key value) := by
  rw [mapReput_eq h]
  split
  · rename_i hroom
    exact .placed h hroom hu hput value
  · -- a full table is rehashed first, into one that holds the same and has no tombstones
    have hfill := Map.Filling.rehashed m
    have hle := m.liveCount_le_size
    have spec := PutSpec.placed hfill.inv (hfill.room (by omega)) hfill.unique
      (hfill.clean.putOk key) value
    exact
      { rc_eq := spec.rc_eq
        allocs_eq := spec.allocs_eq
        inv := spec.inv
        unique := spec.unique
        old_eq := fun w => by rw [← Map.holds_rehashed hu]; exact spec.old_eq w
        holds := fun k v => by rw [← Map.holds_rehashed hu]; exact spec.holds k v
        clean := fun _ => spec.clean hfill.clean }

/-! ### The empty maps -/

theorem Map.Inv.create : (mapCreate : Map V).Inv where
  count_eq := rfl
  reach := by intro s k v hs; simp [mapCreate, Map.slot] at hs

theorem Map.Unique.create : (mapCreate : Map V).Unique := by
  intro s t k v w hs
  simp [mapCreate, Map.slot] at hs

theorem Map.not_holds_create (k : UInt32) (v : V) : ¬ (mapCreate : Map V).Holds k v := by
  rintro ⟨s, hs⟩
  simp [mapCreate, Map.slot] at hs

theorem Map.Clean.create : (mapCreate : Map V).Clean := by
  intro s
  simp [mapCreate, Map.slot]

theorem Map.slot_mapClear (m : Map V) (s : Nat) : (mapClear m).1.slot s = .empty := by
  simp only [mapClear, Map.slot, List.getD, List.getElem?_map]
  cases m.data[s]? <;> rfl

theorem Map.not_holds_clear (m : Map V) (k : UInt32) (v : V) : ¬ (mapClear m).1.Holds k v := by
  rintro ⟨s, hs⟩
  simp [Map.slot_mapClear] at hs

theorem Map.Inv.clear (m : Map V) : (mapClear m).1.Inv where
  count_eq := by
    simp only [mapClear, Map.liveCount, List.countP_map]
    exact (List.countP_eq_zero.2 fun s _ => by simp [Slot.live?]).symm
  reach := by intro s k v hs; simp [Map.slot_mapClear] at hs

theorem Map.Unique.clear (m : Map V) : (mapClear m).1.Unique := by
  intro s t k v w hs
  simp [Map.slot_mapClear] at hs

end Qrtr
