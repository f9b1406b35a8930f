/-
Module: Qrtr.Map.Representation
Layer: Map
Purpose: The representation invariant of the map on its memory. `MapMem.Consistent` says it in terms of the
  entries, the keys of the items and what `map_find` returns. It holds behind every sequence of calls in
  which no item is put under a key while the map holds it under another, and in which the table stays
  below 2^31 slots. Neither condition can be left out: an item put twice takes its old slot along to the
  new key, and the walks through a table of 2^31 slots go beyond the largest `int`.
Imports: Qrtr.Map.Reached
Main exports: mapFind_eq, MapMem.Intact, MapMem.Consistent, Intact.consistent, Fitting, GuardedRun,
  mapStep_intact, mapRun_consistent, mapRun_inconsistent
Open obligations: none
-/
import Qrtr.Map.Reached

namespace Qrtr.Memory

open CyclicScan Traced

variable {A : Type} {m : MapMem A}

/-! ### The walk of `map_find` -/

/-- The loop of `map_find` is the loop over the slots of the view. -/
theorem mapFindLoop_eq (h : m.Sound) (hsmall : m.size.toNat < 2 ^ 31) (key : UInt32) :
    ∀ left i idx : Nat, i + left = m.size.toNat → idx < m.size.toNat →
      mapFindLoop m key left i idx = pure (Qrtr.mapFindLoop m.view key left idx)
  | 0, _, _, _, _ => rfl
  | left + 1, i, idx, hi, hidx => by
      have hnext := Nat.mod_lt (idx + 1) (Nat.zero_lt_of_lt hidx)
      have ih := mapFindLoop_eq h hsmall key left (i + 1) _ (by omega) hnext
      have hslot := m.view_slot idx
      rw [mapFindLoop, h.entry_eq hidx, pure_bind, MapMem.advance_eq hsmall hidx, pure_bind,
        increment_of_lt (i := i) (by omega), Qrtr.mapFindLoop, h.view_size]
      cases hentry : m.entryAt idx with
      | null => simp [hslot, hentry, MapEntry.slot]
      | deleted =>
          simp only [hslot, hentry, MapEntry.slot, pure_bind]
          exact ih
      | item a =>
          by_cases hkey : m.key a = key
          · simp [hslot, hentry, MapEntry.slot, hkey]
          · simp only [hslot, hentry, MapEntry.slot, if_neg hkey, pure_bind]
            exact ih

theorem mapFind_eq (h : m.Sound) (hsmall : m.size.toNat < 2 ^ 31) (key : UInt32) :
    mapFind m key = pure (Qrtr.mapFind m.view key) := by
  by_cases hzero : m.size = 0
  · have hview : m.view.size = 0 := by rw [h.view_size, hzero]; rfl
    rw [mapFind, if_pos hzero, Qrtr.mapFind, if_pos hview]
  · have hpos : 0 < m.size.toNat := by
      refine Nat.pos_of_ne_zero fun heq => hzero ?_
      exact UInt32.toNat_inj.mp heq
    have hview : ¬ m.view.size = 0 := by rw [h.view_size]; omega
    have hhome : m.view.home key < m.size.toNat := by
      rw [← h.view_size] at hpos ⊢
      exact Map.home_lt hpos key
    have hloop := mapFindLoop_eq h hsmall key m.size.toNat 0 _ (by omega) hhome
    rw [mapFind, if_neg hzero, h.start_eq hsmall hpos, pure_bind, Qrtr.mapFind, if_neg hview,
      h.view_size]
    simpa [Map.home, h.view_size] using hloop

/-! ### The invariant -/

/-- What the guarded calls keep: a sound memory of fewer than 2^31 slots whose view is a map in order. -/
structure MapMem.Intact (m : MapMem A) : Prop where
  sound : m.Sound
  small : m.size.toNat < 2 ^ 31
  inv : m.view.Inv

/-- The representation invariant. -/
structure MapMem.Consistent (m : MapMem A) : Prop where
  /-- The table has `size` entries. -/
  length_eq : m.data.length = m.size.toNat
  /-- `count` is the number of entries that hold a live item. -/
  count_eq : m.count.toNat = m.liveCount
  count_le : m.count ≤ m.size
  /-- No entry on the cyclic path from the home of an item's key to the item is NULL. -/
  reach : ∀ s a, m.entryAt s = .item a →
    ∀ i < dist m.size.toNat ((m.key a).toNat % m.size.toNat) s,
      m.entryAt (stop m.size.toNat ((m.key a).toNat % m.size.toNat) i) ≠ .null
  /-- For the key of a live item `map_find` returns an entry with a live item of that key. -/
  finds : ∀ s a, m.entryAt s = .item a →
    ∃ e b, (mapFind m (m.key a)).res = .ok (some e) ∧ m.entryAt e = .item b ∧ m.key b = m.key a
  /-- For a key `map_find` returns NULL exactly if no entry holds a live item of that key. -/
  misses : ∀ key, (mapFind m key).res = .ok none ↔ ∀ s a, m.entryAt s = .item a → m.key a ≠ key

/-- The slots of the view that hold an item are the entries that do. -/
theorem view_slot_eq_item {s : Nat} {k : UInt32} {a : A} :
    m.view.slot s = .item k a ↔ m.entryAt s = .item a ∧ m.key a = k := by
  rw [m.view_slot]
  cases m.entryAt s with
  | null => simp [MapEntry.slot]
  | deleted => simp [MapEntry.slot]
  | item b =>
      simp only [MapEntry.slot, Slot.item.injEq, MapEntry.item.injEq]
      constructor
      · rintro ⟨rfl, rfl⟩
        exact ⟨rfl, rfl⟩
      · rintro ⟨rfl, rfl⟩
        exact ⟨rfl, rfl⟩

theorem MapMem.Intact.consistent (h : m.Intact) : m.Consistent where
  length_eq := h.sound.length_eq
  count_eq := h.sound.count_eq
  count_le := h.sound.count_le
  reach := by
    intro s a hs i hi
    have hreach := h.inv.reach (view_slot_eq_item.mpr ⟨hs, rfl⟩) i
      (by simpa [Map.home, h.sound.view_size] using hi)
    intro hnull
    refine hreach ?_
    rw [m.view_slot, Map.home, h.sound.view_size, hnull]
    rfl
  finds := by
    intro s a hs
    obtain ⟨e, he⟩ := mapFind_isSome h.inv ⟨s, view_slot_eq_item.mpr ⟨hs, rfl⟩⟩
    obtain ⟨b, hb⟩ := mapFind_eq_some he
    obtain ⟨hentry, hkey⟩ := view_slot_eq_item.mp hb
    exact ⟨e, b, by rw [mapFind_eq h.sound h.small, he]; rfl, hentry, hkey⟩
  misses := by
    intro key
    rw [mapFind_eq h.sound h.small, pure_res]
    constructor
    · intro hnone s a hs hkey
      exact (mapFind_eq_none_iff h.inv).mp (Except.ok.inj hnone) a
        ⟨s, view_slot_eq_item.mpr ⟨hs, hkey⟩⟩
    · intro hall
      refine congrArg _ ((mapFind_eq_none_iff h.inv).mpr ?_)
      rintro a ⟨s, hs⟩
      obtain ⟨hentry, hkey⟩ := view_slot_eq_item.mp hs
      exact hall s a hentry hkey

/-! ### What the calls keep -/

theorem MapMem.Intact.create (m : MapMem A) : (mapCreate m).Intact where
  sound := .create m
  small := (by decide : (0 : UInt32).toNat < 2 ^ 31)
  inv := .create

/-- Only what the view reads matters. -/
theorem MapMem.Intact.withAllocs (h : m.Intact) (allocs : AllocPlan) :
    ({ m with allocs := allocs } : MapMem A).Intact where
  sound := ⟨h.sound.length_eq, h.sound.count_eq⟩
  small := h.small
  inv := h.inv

theorem mem_data_iff {a : A} : .item a ∈ m.data ↔ m.view.Holds (m.key a) a := by
  rw [← Map.mem_entries_iff, view_entries, liveEntries, List.mem_filterMap]
  constructor
  · intro hmem
    exact ⟨_, hmem, rfl⟩
  · rintro ⟨e, he, hlive⟩
    cases e with
    | null => cases hlive
    | deleted => cases hlive
    | item b =>
        obtain ⟨-, rfl⟩ := Prod.mk.inj (Option.some.inj hlive)
        exact he

/-- A rehash brings no item under another key. -/
theorem MapMem.Exclusive.of_rehashed {t : MapMem A} {key : UInt32} {value : A}
    (h : m.Exclusive key value) (hkey : t.key = m.key) (ht : t.view = m.view.rehashed) :
    t.Exclusive key value := by
  intro hmem
  rw [mem_data_iff, ht, hkey] at hmem
  rw [hkey]
  exact h (mem_data_iff.mpr (Map.holds_of_rehashed hmem))

theorem MapMem.Sound.view_removed (h : m.Sound) {e : Nat} {a : A} (he : e < m.data.length)
    (hentry : m.entryAt e = .item a) :
    (m.removed e).view = { m.view.setSlot e .deleted with count := m.view.count - 1 } := by
  have hcount : (m.removed e).view.count = m.view.count - 1 := h.toNat_count_removed he hentry
  have hset := congrArg Map.data (m.view_setEntry e .deleted)
  have hdata : (m.removed e).view.data = (m.view.setSlot e .deleted).data := hset
  show (⟨(m.removed e).view.count, (m.removed e).view.data⟩ : Map A) = _
  rw [hcount, hdata]

/-- A removal does to the view what it does to a map of slots. -/
theorem MapMem.Intact.remove (h : m.Intact) (key : UInt32) :
    ∃ m', (mapRemove m key).res = .ok ((Qrtr.mapRemove m.view key).1, m') ∧ m'.Intact ∧
      m'.view = (Qrtr.mapRemove m.view key).2 := by
  have hfind := mapFind_eq h.sound h.small key
  have hinv := h.inv.remove key
  rw [mapRemove, hfind, pure_bind]
  rcases mapRemove_cases m.view key with ⟨hnone, heq⟩ | ⟨e, a, hsome, hslot, heq⟩
  · rw [hnone, heq]
    exact ⟨m, rfl, h, rfl⟩
  · obtain ⟨hentry, -⟩ := view_slot_eq_item.mp hslot
    have he : e < m.data.length := by
      rw [h.sound.length_eq, ← h.sound.view_size]
      exact Map.lt_size_of_item hslot
    have hview := h.sound.view_removed he hentry
    rw [heq] at hinv
    rw [hsome, heq]
    exact ⟨m.removed e, rfl, ⟨h.sound.removed he hentry, h.small, by rwa [hview]⟩, hview⟩

/-- The loop of `map_clear` over a table of fewer than 2^31 slots. -/
theorem mapClearLoop_eq :
    ∀ (data : List (MapEntry A)) (i : Nat), i + data.length < 2 ^ 31 →
      (mapClearLoop data.length i data).res =
        .ok (List.replicate data.length .null, data.filterMap MapEntry.item?)
  | [], _, _ => rfl
  | e :: data, i, hlen => by
      rw [List.length_cons] at hlen ⊢
      have hloop := mapClearLoop_eq data (i + 1) (by omega)
      rw [mapClearLoop, increment_of_lt (by omega), pure_bind, bind_ok hloop]
      cases e <;> rfl

/-- Clearing does to the view what it does to a map of slots, and releases the same items. -/
theorem MapMem.Intact.clear (h : m.Intact) :
    ∃ m', (mapClear m).res = .ok (m', (Qrtr.mapClear m.view).2) ∧ m'.Intact ∧
      m'.view = (Qrtr.mapClear m.view).1 := by
  have hsmall := h.small
  have hlength := h.sound.length_eq
  have hloop : (mapClearLoop m.size.toNat 0 m.data).res =
      .ok (List.replicate m.size.toNat .null, m.data.filterMap MapEntry.item?) := by
    rw [← hlength]
    exact mapClearLoop_eq m.data 0 (by omega)
  have hreleased : (Qrtr.mapClear m.view).2 = m.data.filterMap MapEntry.item? := by
    rw [Qrtr.mapClear, MapMem.view, List.filterMap_map]
    refine List.filterMap_congr fun e _ => ?_
    cases e <;> rfl
  have hclear : (mapClear m).res =
      .ok ({ m with data := List.replicate m.size.toNat .null, count := 0 },
        (Qrtr.mapClear m.view).2) := by
    rw [mapClear, bind_ok hloop, hreleased]
    rfl
  have hview : ({ m with data := List.replicate m.size.toNat .null, count := 0 } : MapMem A).view =
      (Qrtr.mapClear m.view).1 := by
    rw [Qrtr.mapClear, List.map_const', show m.view.data.length = m.size.toNat from h.sound.view_size,
      MapMem.view, List.map_replicate]
    rfl
  refine ⟨_, hclear, ⟨mapClear_sound h.sound _ hclear, h.small, ?_⟩, hview⟩
  rw [hview]
  exact .clear m.view

/-- Looking a key up answers as on a map of slots. -/
theorem MapMem.Intact.contains (h : m.Intact) (key : UInt32) :
    (mapContains m key).res = .ok (if Qrtr.mapContains m.view key then 1 else 0) := by
  rw [mapContains, mapFind_eq h.sound h.small, pure_bind, Qrtr.mapContains]
  cases Qrtr.mapFind m.view key <;> rfl

theorem MapMem.Intact.get (h : m.Intact) (key : UInt32) :
    (mapGet m key).res = .ok (Qrtr.mapGet m.view key) := by
  rw [mapGet, mapFind_eq h.sound h.small, pure_bind, Qrtr.mapGet]
  cases hfind : Qrtr.mapFind m.view key with
  | none => rfl
  | some e =>
      obtain ⟨a, hslot⟩ := mapFind_eq_some hfind
      obtain ⟨hentry, -⟩ := view_slot_eq_item.mp hslot
      have he := Map.lt_size_of_item hslot
      rw [h.sound.view_size] at he
      dsimp only
      rw [h.sound.entry_eq he, pure_bind, hslot, hentry]
      rfl

variable [DecidableEq A]

/-- The result of a put on a map of slots that the result of a put shows. -/
def Put.view (r : Put A) : PutResult A :=
  { rc := r.rc, old := r.old, map := r.map.view, allocs := r.map.allocs }

/-- A put of an item that is not held under another key does to the view what it does to a map of slots. -/
theorem PutOutcome.refines {key : UInt32} {value : A} {out : Op (Put A)}
    (hout : PutOutcome m key value out) (h : m.Intact) (hexclusive : m.Exclusive key value)
    (hgrow : m.count = m.size → (calloc m.allocs).1 = true → m.size.toNat + 256 < 2 ^ 31) :
    ∃ r, out.res = .ok r ∧ r.map.Intact ∧ r.view = Qrtr.mapReput m.allocs m.view key value := by
  rw [Qrtr.mapReput_eq h.inv]
  cases hout with
  | @placed idx hroom hidx hview =>
      have hplace := hview hexclusive
      have hroom' := h.sound.view_room.mpr hroom
      have hinv := h.inv.place hroom' key value
      have hsmall : (m.placed idx key value).size.toNat < 2 ^ 31 := by simpa using h.small
      refine ⟨_, rfl, ⟨h.sound.placed hroom hidx key value, hsmall, by rwa [hplace]⟩, ?_⟩
      rw [if_pos hroom', Put.view, hplace, MapMem.placed_allocs]
      rfl
  | refused hfull halloc =>
      have hfull' : ¬ m.view.count ≠ m.view.size := fun hne => h.sound.view_room.mp hne hfull
      refine ⟨_, rfl, h.withAllocs _, ?_⟩
      rw [if_neg hfull', calloc_eq halloc]
      rfl
  | @grown _ t idx hfull halloc _ hsound _ hkey hallocs ht hroom hidx hview =>
      have hfull' : ¬ m.view.count ≠ m.view.size := fun hne => h.sound.view_room.mp hne hfull
      have hfill := Map.Filling.rehashed m.view
      have hplace := hview (hexclusive.of_rehashed hkey ht)
      have hroom' := hsound.view_room.mpr hroom
      rw [ht] at hplace hroom'
      have hinv := hfill.inv.place hroom' key value
      have hsmall : (t.placed idx key value).size.toNat < 2 ^ 31 := by
        have hgrown := hgrow hfull halloc
        rw [MapMem.placed_size, ← hsound.view_size, ht, hfill.size_eq, h.sound.view_size]
        exact hgrown
      refine ⟨_, rfl, ⟨hsound.placed hroom hidx key value, hsmall, by rwa [hplace]⟩, ?_⟩
      rw [if_neg hfull', Put.view, hplace, MapMem.placed_allocs, hallocs, ht, calloc_eq halloc]
      rfl

/-- A call is fitting if it puts an item under a key only where no entry holds the item under another key,
    and does not extend the table to 2^31 slots or more. -/
def Fitting (m : MapMem A) : MapOp A → Prop
  | .put key value | .reput key value =>
      m.Exclusive key value ∧
        (m.count = m.size → (calloc m.allocs).1 = true → m.size.toNat + 256 < 2 ^ 31)
  | _ => True

/-- A fitting put does to the view what it does to a map of slots. -/
theorem MapMem.Intact.reput (h : m.Intact) (rounds : Nat) {key : UInt32} {value : A}
    (hfit : Fitting m (.reput key value)) :
    ∃ r, (mapReput (rounds + 2) m key value).res = .ok r ∧ r.map.Intact ∧
      r.view = Qrtr.mapReput m.allocs m.view key value := by
  obtain ⟨hexclusive, hgrow⟩ := hfit
  exact (mapReput_outcome h.sound h.small hgrow rounds key value).refines h hexclusive hgrow

/-- Every call of the run is fitting in the memory that it is made in. -/
def GuardedRun (rounds : Nat) : MapMem A → List (MapOp A) → Prop
  | _, [] => True
  | m, op :: ops =>
      Fitting m op ∧ ∀ m', (mapStep rounds m op).res = .ok m' → GuardedRun rounds m' ops

instance Fitting.decidable (m : MapMem A) : ∀ op : MapOp A, Decidable (Fitting m op)
  | .put _ _ | .reput _ _ => inferInstanceAs (Decidable ((_ → _) ∧ (_ → _ → _)))
  | .create | .remove _ | .clear | .contains _ | .get _ | .length => inferInstanceAs (Decidable True)

instance GuardedRun.decidable (rounds : Nat) :
    ∀ (m : MapMem A) (ops : List (MapOp A)), Decidable (GuardedRun rounds m ops)
  | _, [] => inferInstanceAs (Decidable True)
  | m, op :: ops =>
      have : Decidable (∀ m', (mapStep rounds m op).res = .ok m' → GuardedRun rounds m' ops) :=
        match (mapStep rounds m op).res with
        | .error _ => .isTrue fun _ h => nomatch h
        | .ok m' =>
            have := GuardedRun.decidable rounds m' ops
            decidable_of_iff (GuardedRun rounds m' ops)
              ⟨fun h _ heq => Except.ok.inj heq ▸ h, fun h => h m' rfl⟩
      inferInstanceAs (Decidable (Fitting m op ∧ _))

theorem map_res_ok {α β : Type} {x : Op α} {a : α} (h : x.res = .ok a) (f : α → β) :
    (f <$> x).res = .ok (f a) := by
  rw [← bind_pure_comp, bind_ok h]
  rfl

/-- A fitting call returns and leaves the memory in order. -/
theorem mapStep_intact (h : m.Intact) (rounds : Nat) {op : MapOp A} (hfit : Fitting m op) :
    ∃ m', (mapStep (rounds + 2) m op).res = .ok m' ∧ m'.Intact := by
  cases op with
  | create => exact ⟨_, rfl, .create m⟩
  | put key value =>
      obtain ⟨r, hr, hintact, -⟩ := h.reput rounds hfit
      have hput : (mapPut (rounds + 2) m key value).res = .ok (r.rc, r.map) := by
        rw [mapPut, bind_ok hr]
        rfl
      exact ⟨r.map, map_res_ok hput _, hintact⟩
  | reput key value =>
      obtain ⟨r, hr, hintact, -⟩ := h.reput rounds hfit
      exact ⟨r.map, map_res_ok hr _, hintact⟩
  | remove key =>
      obtain ⟨m', hr, hintact, -⟩ := h.remove key
      exact ⟨m', map_res_ok hr _, hintact⟩
  | clear =>
      obtain ⟨m', hr, hintact, -⟩ := h.clear
      exact ⟨m', map_res_ok hr _, hintact⟩
  | contains key => exact ⟨m, map_res_ok (h.contains key) _, h⟩
  | get key => exact ⟨m, map_res_ok (h.get key) _, h⟩
  | length => exact ⟨m, rfl, h⟩

/-- A guarded run returns and leaves the memory in order. -/
theorem mapRun_intact (rounds : Nat) :
    ∀ (ops : List (MapOp A)) {m : MapMem A}, m.Intact → GuardedRun (rounds + 2) m ops →
      ∃ m', (mapRun (rounds + 2) m ops).res = .ok m' ∧ m'.Intact
  | [], m, h, _ => ⟨m, rfl, h⟩
  | op :: ops, m, h, hguard => by
      obtain ⟨hfit, hrest⟩ := hguard
      obtain ⟨m', hstep, hm'⟩ := mapStep_intact h rounds hfit
      obtain ⟨m'', hrun, hm''⟩ := mapRun_intact rounds ops hm' (hrest m' hstep)
      exact ⟨m'', by rw [mapRun, bind_ok hstep]; exact hrun, hm''⟩

/-- Behind every guarded run of calls on a new map the representation invariant holds. -/
theorem mapRun_consistent (rounds : Nat) (memory : MapMem A) (ops : List (MapOp A))
    (hguard : GuardedRun (rounds + 2) (mapCreate memory) ops) :
    ∃ m, (mapRun (rounds + 2) (mapCreate memory) ops).res = .ok m ∧ m.Consistent := by
  obtain ⟨m, hrun, hintact⟩ := mapRun_intact rounds ops (.create memory) hguard
  exact ⟨m, hrun, hintact.consistent⟩

/-- Two items whose keys have the same home, the first of them taken out again. -/
def colliding : List (MapOp Nat) := [.put 1 0, .put 257 1, .remove 1, .get 257]

theorem mapRun_consistent_colliding :
    ∃ m, (mapRun 2 unused colliding).res = .ok m ∧ m.Consistent ∧
      m.data.take 3 = [.null, .deleted, .item 1] := by
  obtain ⟨m, hrun, hm⟩ : ∃ m, (mapRun 2 unused colliding).res = .ok m ∧ m.Consistent :=
    mapRun_consistent 0 unused colliding (by decide +kernel)
  have hleft : (mapRun 2 unused colliding).res.map (·.data.take 3) = .ok [.null, .deleted, .item 1] := by
    decide +kernel
  rw [hrun] at hleft
  exact ⟨m, hrun, hm, Except.ok.inj hleft⟩

/-! ### A table of 2^31 slots -/

/-- The first `n` entries hold the items 0, 1, .., n - 1, the others are NULL, and there are at most 2^31
    entries. -/
structure Ascending (n : Nat) (m : MapMem Nat) : Prop where
  count_eq : m.count.toNat = n
  le_size : n ≤ m.size.toNat
  size_le : m.size.toNat ≤ 2 ^ 31
  aligned : m.size.toNat % 256 = 0
  data_eq : m.data = (List.range n).map .item ++ List.replicate (m.size.toNat - n) .null
  key_eq : m.key = UInt32.ofNat
  allocs_eq : m.allocs = []

section

variable {n : Nat} {m : MapMem Nat}

theorem Ascending.data_get (h : Ascending n m) (hroom : n < m.size.toNat) : m.data[n]? = some .null := by
  rw [h.data_eq, List.getElem?_append_right (by simp), List.getElem?_replicate]
  simp
  omega

theorem Ascending.key_toNat (h : Ascending n m) (hroom : n < m.size.toNat) : (m.key n).toNat = n := by
  have hsize := h.size_le
  rw [h.key_eq, UInt32.toNat_ofNat']
  omega

/-- The item `n` finds the slot `n` free. -/
theorem Ascending.reput (h : Ascending n m) (hroom : n < m.size.toNat) (rounds : Nat) :
    ∃ m', mapReput (rounds + 1) m (m.key n) n =
        after [.hash n] (pure { rc := 0, old := none, map := m' }) ∧
      Ascending (n + 1) m' ∧ m'.size = m.size := by
  have hsize := h.size_le
  have hcount := h.count_eq
  have hkey := h.key_toNat hroom
  have hne : m.count ≠ m.size := by
    intro heq
    rw [heq] at hcount
    omega
  have hentry : ∀ c, ({ m with count := c } : MapMem Nat).entry n = pure .null := by
    intro c
    simp [MapMem.entry, h.data_get hroom]
  have hmod : (m.key n % m.size).toNat = n := by
    rw [UInt32.toNat_mod, hkey, Nat.mod_eq_of_lt hroom]
  have hstart : m.start (m.key n) = pure (n : Int) := by
    rw [MapMem.start, modulo_of_pos (by omega), pure_bind, asInt_of_lt (by omega), hmod]
  obtain ⟨left, hleft⟩ : ∃ left, m.size.toNat = left + 1 := ⟨m.size.toNat - 1, by omega⟩
  have hhash : mapHash m (m.key n) =
      after [.hash n] (pure ((n : Int), { m with count := m.count + 1 })) := by
    rw [mapHash, if_neg hne, hstart, pure_bind, hleft, mapHashLoop, hentry m.count]
    rfl
  have hnonneg : ¬ (n : Int) < 0 := by omega
  refine ⟨({ m with count := m.count + 1 } : MapMem Nat).store n (m.key n) n, ?_, ?_, rfl⟩
  · rw [mapReput, hhash]
    simp only [after_bind, pure_bind, if_neg hnonneg, hentry]
    rfl
  · constructor
    case count_eq =>
      show (m.count + 1).toNat = n + 1
      rw [UInt32.toNat_add, hcount]
      simp
      omega
    case le_size => exact hroom
    case size_le => exact hsize
    case aligned => exact h.aligned
    case data_eq =>
      have hrest : m.size.toNat - n = m.size.toNat - (n + 1) + 1 := by omega
      show m.data.set n (.item n) = _
      rw [h.data_eq, hrest, List.replicate_succ, List.set_append_right _ _ (by simp)]
      simp [MapMem.store, MapMem.setEntry, List.range_succ]
    case key_eq => exact (Function.update_eq_self n m.key).trans h.key_eq
    case allocs_eq => exact h.allocs_eq

/-- Copying the items from the `n`-th on into a table that has the ones before. -/
theorem Ascending.copyLoop (rounds : Nat) :
    ∀ (left : Nat) {n : Nat} {m : MapMem Nat}, Ascending n m → n + left ≤ m.size.toNat →
      ∃ m', (Memory.copyLoop (mapReput (rounds + 1)) left
          ((List.range' n left).map .item) m).res = .ok (0, m') ∧
        Ascending (n + left) m' ∧ m'.size = m.size
  | 0, n, m, h, _ => ⟨m, rfl, h, rfl⟩
  | left + 1, n, m, h, hfits => by
      obtain ⟨m₁, hput, h₁, hsize₁⟩ := h.reput (by omega) rounds
      obtain ⟨m', hloop, h', hsize'⟩ := Ascending.copyLoop rounds left h₁ (by rw [hsize₁]; omega)
      refine ⟨m', ?_, by rwa [Nat.add_right_comm] at h', hsize'.trans hsize₁⟩
      rw [List.range'_succ, List.map_cons, Memory.copyLoop, hput]
      simpa using hloop

/-- A full table of fewer than 2^31 slots is copied into a larger one. -/
theorem Ascending.rehash (h : Ascending n m) (hfull : m.size.toNat = n) (hsmall : n + 256 ≤ 2 ^ 31)
    (rounds : Nat) :
    ∃ m', (mapRehash (mapReput (rounds + 1)) m).res = .ok (0, m') ∧ Ascending n m' ∧
      m'.size.toNat = n + 256 := by
  have hsize : (m.size + 256).toNat = n + 256 := by
    rw [UInt32.toNat_add, hfull]
    simp
    omega
  have hgrown : Ascending 0 (m.grown []) :=
    { count_eq := rfl
      le_size := Nat.zero_le _
      size_le := by rw [MapMem.grown, hsize]; exact hsmall
      aligned := by have := h.aligned; rw [MapMem.grown, hsize]; omega
      data_eq := by simp [MapMem.grown]
      key_eq := h.key_eq
      allocs_eq := rfl }
  have hdata : m.data = (List.range' 0 n).map .item := by
    rw [h.data_eq, hfull, Nat.sub_self, ← List.range_eq_range']
    simp
  have hrounds : (asInt m.size).toNat = n := by
    rw [asInt_of_lt (by omega), hfull]
    rfl
  obtain ⟨m', hloop, h', hsize'⟩ := Ascending.copyLoop rounds n hgrown
    (by rw [MapMem.grown, hsize]; omega)
  refine ⟨m', ?_, by rwa [Nat.zero_add] at h', by rw [hsize', MapMem.grown, hsize]⟩
  rw [mapRehash, h.allocs_eq, hrounds, hdata]
  simpa [calloc] using hloop

/-- The next put, into a table that need not grow beyond 2^31 slots. -/
theorem Ascending.step (h : Ascending n m) (hn : n < 2 ^ 31) (rounds : Nat) :
    ∃ m', (mapStep (rounds + 2) m (.put (UInt32.ofNat n) n)).res = .ok m' ∧ Ascending (n + 1) m' := by
  have hkey : m.key n = UInt32.ofNat n := by rw [h.key_eq]
  suffices hput : ∃ r, (mapReput (rounds + 2) m (m.key n) n).res = .ok r ∧ Ascending (n + 1) r.map by
    obtain ⟨r, hr, h'⟩ := hput
    rw [hkey] at hr
    refine ⟨r.map, map_res_ok (a := (r.rc, r.map)) ?_ _, h'⟩
    rw [mapPut, bind_ok hr]
    rfl
  rcases Nat.lt_or_eq_of_le h.le_size with hroom | hfull
  · obtain ⟨m', hput, h', -⟩ := h.reput hroom (rounds + 1)
    exact ⟨_, by rw [hput]; rfl, h'⟩
  · have haligned := h.aligned
    have hcount : m.count = m.size := UInt32.toNat_inj.mp (by rw [h.count_eq, hfull])
    obtain ⟨t, hrehash, ht, hsize⟩ := h.rehash hfull.symm (by omega) rounds
    obtain ⟨m', hput, h', -⟩ := ht.reput (by omega) rounds
    have hneg : (-1 : Int) < 0 := by decide
    have hkeys : t.key n = m.key n := by rw [ht.key_eq, h.key_eq]
    refine ⟨{ rc := 0, old := none, map := m' }, ?_, h'⟩
    rw [mapReput, mapHash_full hcount]
    simp only [after_bind, pure_bind, if_pos hneg, bind_ok hrehash, lt_irrefl, if_false, ← hkeys, hput]
    rfl

end

theorem mapRun_append {A : Type} [DecidableEq A] (rounds : Nat) (m : MapMem A) (ops more : List (MapOp A)) :
    mapRun rounds m (ops ++ more) = mapRun rounds m ops >>= fun m => mapRun rounds m more := by
  induction ops generalizing m with
  | nil => rfl
  | cons op ops ih => simp only [List.cons_append, mapRun, bind_assoc, ih]

theorem puts_succ (n : Nat) : puts (n + 1) = puts n ++ [.put (UInt32.ofNat n) n] := by
  simp [puts, List.range_succ]

theorem mapRun_puts (rounds : Nat) :
    ∀ n ≤ 2 ^ 31, ∃ m, (mapRun (rounds + 2) numbered (puts n)).res = .ok m ∧ Ascending n m
  | 0, _ =>
      ⟨numbered, rfl,
        { count_eq := rfl
          le_size := Nat.zero_le _
          size_le := Nat.zero_le _
          aligned := rfl
          data_eq := rfl
          key_eq := rfl
          allocs_eq := rfl }⟩
  | n + 1, hn => by
      obtain ⟨m, hrun, h⟩ := mapRun_puts rounds n (by omega)
      obtain ⟨m', hstep, h'⟩ := h.step (by omega) rounds
      refine ⟨m', ?_, h'⟩
      rw [puts_succ, mapRun_append, bind_ok hrun, mapRun, after_res, bind_ok hstep]
      rfl

/-- More than 2^31 - 256 items take a table of 2^31 slots. -/
theorem Ascending.size_eq {n : Nat} {m : MapMem Nat} (h : Ascending n m) (hn : 2 ^ 31 - 256 < n) :
    m.size.toNat = 2 ^ 31 := by
  have hle := h.le_size
  have hmax := h.size_le
  have haligned := h.aligned
  omega

/-- In a table of 2^31 slots the walk from the last slot increments the largest `int`. -/
theorem mapGet_undefined {m : MapMem Nat} (hlength : m.data.length = m.size.toNat)
    (hsize : m.size.toNat = 2 ^ 31) : (mapGet m 2147483647).res = .error .undefined := by
  have hzero : m.size ≠ 0 := by
    rintro heq
    rw [heq] at hsize
    exact absurd hsize (by decide)
  have hmod : (2147483647 % m.size).toNat = 2147483647 := by
    rw [UInt32.toNat_mod, hsize]
    decide
  have hstart : m.start 2147483647 = pure ((2147483647 : Nat) : Int) := by
    rw [MapMem.start, modulo_of_pos (by omega), pure_bind, asInt_of_lt (by omega), hmod]
  have hidx : 2147483647 < m.data.length := by omega
  have hentry : m.entry ((2147483647 : Nat) : Int) = pure (m.data[2147483647]) := by
    rw [MapMem.entry, if_neg (by omega), Int.toNat_natCast, List.getElem?_eq_getElem hidx]
  have hadvance : m.advance ((2147483647 : Nat) : Int) = fail .undefined := by
    rw [MapMem.advance, increment, if_neg (by omega)]
    rfl
  obtain ⟨left, hleft⟩ : ∃ left, m.size.toNat = left + 1 := ⟨2 ^ 31 - 1, by omega⟩
  rw [mapGet, mapFind, if_neg hzero, hstart, pure_bind, hleft, mapFindLoop, hentry, pure_bind, hadvance]
  rfl

theorem mapRun_puts_get_undefined (rounds : Nat) :
    (mapRun (rounds + 2) numbered (puts (2 ^ 31 - 255) ++ [.get 2147483647])).res =
      .error .undefined := by
  obtain ⟨m, hrun, h⟩ := mapRun_puts rounds (2 ^ 31 - 255) (by omega)
  have hlength : m.data.length = m.size.toNat := by
    have hle := h.le_size
    rw [h.data_eq]
    simp
    omega
  have hget := mapGet_undefined hlength (h.size_eq (by omega))
  rw [mapRun_append, bind_ok hrun, mapRun, mapStep, after_res, ← bind_pure_comp, bind_assoc,
    bind_error hget]

/-- What the map shows after the item 0 has been put under 1 and then under 2, and 2 has been removed. -/
def relabelled : MapMem Nat where
  count := 1
  size := 256
  data := [.null, .item 0, .deleted] ++ List.replicate 253 .null
  key := Function.update (Function.update unused.key 0 1) 0 2
  allocs := []

/-- Two runs that are not guarded. An item put under a second key stays in its old slot, where `map_find`
    does not look for it. Once there are 2^31 slots, looking up the key 2^31 - 1 has no defined behaviour. -/
theorem mapRun_inconsistent :
    (mapRun 2 unused [.put 1 0, .put 2 0, .remove 2]).res = .ok relabelled ∧ ¬ relabelled.Consistent ∧
      ∀ rounds, (mapRun (rounds + 2) numbered (puts (2 ^ 31 - 255) ++ [.get 2147483647])).res =
        .error .undefined := by
  refine ⟨by rfl, fun h => ?_, mapRun_puts_get_undefined⟩
  have hnone : (mapFind relabelled 2).res = .ok none := by rfl
  exact (h.misses 2).mp hnone 1 0 (by decide) (by decide)

end Qrtr.Memory
