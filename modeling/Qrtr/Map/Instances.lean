/-
Module: Qrtr.Map.Instances
Layer: Map
Purpose: The hash map of `map.c` behind the interface of `map.h`. It obeys the laws whatever duplicates
  it holds, and its puts keep keys apart where no tombstone lies ahead of the item to replace.
Imports: Qrtr.Map.Interface
Main exports: mapGet_mapRemove_ne, mapGet_mapPlace, mapGet_mapPlace_ne, mapGet_rehashed, mapReput_cases,
  Map.entry_iff, Map.single_iff
Open obligations: none
-/
import Qrtr.Map.Interface

namespace Qrtr

open CyclicScan

variable {V : Type}

/-! ### The hash map -/

/-- A lookup returns the item of the slot at which its walk ends. -/
theorem mapGet_eq_some_iff_scan {m : Map V} (hpos : 0 < m.size) {key : UInt32} {v : V} :
    mapGet m key = some v ↔
      ∃ s, scan (m.ends key) m.size m.size (m.home key) = some s ∧ m.slot s = .item key v := by
  have hfind : mapFind m key = (scan (m.ends key) m.size m.size (m.home key)).bind fun j =>
      if m.free j then none else some j := by
    rw [mapFind, if_neg (by omega), mapFindLoop_eq_scan, Map.home]
  rw [mapGet, hfind]
  cases hscan : scan (m.ends key) m.size m.size (m.home key) with
  | none => simp
  | some j =>
      obtain ⟨i, -, -, hends, -⟩ := (scan_eq_some_iff _ (Map.home_lt hpos key)).1 hscan
      cases hslot : m.slot j with
      | empty => simp [Map.free, hslot, Slot.live?]
      | deleted => simp [Map.free, hslot, Slot.live?]
      | item k w =>
          have hk : k = key := by simpa [Map.ends, hslot] using hends
          subst hk
          simp [Map.free, hslot, Slot.live?]

/-- Removing another key does not change what a lookup finds, duplicates or not. -/
theorem mapGet_mapRemove_ne {m : Map V} {key key' : UInt32} (hne : key' ≠ key) :
    mapGet (mapRemove m key).2 key' = mapGet m key' := by
  rcases mapRemove_cases m key with ⟨-, heq⟩ | ⟨e, v, -, hv, heq⟩
  · rw [heq]
  · have he := Map.lt_size_of_item hv
    have hpos : 0 < m.size := Nat.zero_lt_of_lt he
    have hslot : ∀ j, (mapRemove m key).2.slot j = if j = e then .deleted else m.slot j := by
      rw [heq]
      exact Map.slot_removed he _
    have hsize := Map.size_mapRemove m key
    -- the walk passes the tombstone as it passed the item of the other key
    have hends : (mapRemove m key).2.ends key' = m.ends key' := by
      funext j
      simp only [Map.ends, hslot]
      by_cases hj : j = e
      · subst hj
        simp [hv, Ne.symm hne]
      · rw [if_neg hj]
    apply Option.ext
    intro w
    rw [mapGet_eq_some_iff_scan (by rwa [hsize]), mapGet_eq_some_iff_scan hpos, hsize, hends]
    apply exists_congr
    intro j
    simp only [Map.home, hsize, hslot]
    by_cases hj : j = e
    · subst hj
      simp [hv, Ne.symm hne]
    · rw [if_neg hj]

/-- After a placement a slot holds the new item or what it held. -/
theorem slot_place_eq_item {m : Map V} (h : m.Inv) (hroom : m.count ≠ m.size) {key : UInt32}
    {value : V} {j : Nat} {k : UInt32} {v : V} (hj : (mapPlace m key value).slot j = .item k v) :
    (k, v) = (key, value) ∨ m.slot j = .item k v := by
  obtain ⟨idx, hidx, -, -, hplace, -⟩ := mapPlace_cases h hroom key value
  rw [hplace, Map.slot_place hidx] at hj
  split at hj
  · cases hj
    exact Or.inl rfl
  · exact Or.inr hj

/-- A lookup after a placement walks as before it, over the slots the placement leaves. -/
theorem mapGet_mapPlace_iff_scan {m : Map V} (h : m.Inv) (hroom : m.count ≠ m.size) (hpos : 0 < m.size)
    (key : UInt32) (value : V) {key' : UInt32} {v : V} :
    mapGet (mapPlace m key value) key' = some v ↔
      ∃ s, scan ((mapPlace m key value).ends key') m.size m.size (m.home key') = some s ∧
        (mapPlace m key value).slot s = .item key' v := by
  have hsize : (mapPlace m key value).size = m.size := Map.size_mapPlace h hroom key value
  have hhome : (mapPlace m key value).home key' = m.home key' := by rw [Map.home, hsize, Map.home]
  rw [mapGet_eq_some_iff_scan (by omega), hhome, hsize]

/-- A lookup finds the item just placed, whatever else is live under the key. -/
theorem mapGet_mapPlace {m : Map V} (h : m.Inv) (hroom : m.count ≠ m.size) (key : UInt32)
    (value : V) : mapGet (mapPlace m key value) key = some value := by
  obtain ⟨idx, hidx, -, hbefore, hplace, -⟩ := mapPlace_cases h hroom key value
  have hslot := fun j => Map.slot_place hidx (m.countAfter idx) (.item key value) j
  rw [← hplace] at hslot
  have hpos : 0 < m.size := Nat.zero_lt_of_lt hidx
  have hhome := Map.home_lt hpos key
  rw [mapGet_mapPlace_iff_scan h hroom hpos]
  refine ⟨idx, ?_, by rw [hslot, if_pos rfl]⟩
  rw [scan_eq_some_iff _ hhome]
  refine ⟨dist m.size (m.home key) idx, dist_lt hpos, (stop_dist hhome hidx).symm, ?_, ?_⟩
  · simp [Map.ends, hslot]
  · intro i hi
    have htakes := hbefore i hi
    have hne : stop m.size (m.home key) i ≠ idx := by
      intro heq
      have hd := dist_stop hhome (Nat.lt_trans hi (dist_lt hpos))
      rw [heq] at hd
      omega
    rw [Map.ends, hslot, if_neg hne]
    cases hcase : m.slot (stop m.size (m.home key) i) with
    | empty => simp [Map.takes, hcase] at htakes
    | deleted => rfl
    | item k v => simpa [Map.takes, hcase] using htakes

/-- Placing another key does not change what a lookup finds, duplicates or not. -/
theorem mapGet_mapPlace_ne {m : Map V} (h : m.Inv) (hroom : m.count ≠ m.size) {key key' : UInt32}
    (hne : key' ≠ key) (value : V) : mapGet (mapPlace m key value) key' = mapGet m key' := by
  obtain ⟨idx, hidx, htakes, -, hplace, -⟩ := mapPlace_cases h hroom key value
  have hslot := fun j => Map.slot_place hidx (m.countAfter idx) (.item key value) j
  rw [← hplace] at hslot
  have hpos : 0 < m.size := Nat.zero_lt_of_lt hidx
  have hhome := Map.home_lt hpos key'
  -- the slot taken held no item of `key'`, so a walk that met one stops where it did
  have hidx' : ∀ w, m.slot idx ≠ .item key' w := by
    intro w hw
    simp [Map.takes, hw, hne] at htakes
  cases hget : mapGet m key' with
  | none =>
      rw [mapGet_eq_none_iff (h.place hroom key value)]
      rintro w ⟨s, hs⟩
      rcases slot_place_eq_item h hroom hs with heq | hold
      · cases heq
        exact hne rfl
      · exact (mapGet_eq_none_iff h).1 hget w ⟨s, hold⟩
  | some w =>
      obtain ⟨s, hscan, hs⟩ := (mapGet_eq_some_iff_scan hpos).1 hget
      have hsi : s ≠ idx := by
        rintro rfl
        exact hidx' w hs
      rw [mapGet_mapPlace_iff_scan h hroom hpos]
      refine ⟨s, ?_, by rw [hslot, if_neg hsi, hs]⟩
      obtain ⟨i, hi, hstop, hends, hbefore⟩ := (scan_eq_some_iff _ hhome).1 hscan
      refine (scan_eq_some_iff _ hhome).2 ⟨i, hi, hstop, ?_, fun l hl => ?_⟩
      · rwa [Map.ends, hslot, if_neg hsi]
      · have hbefore' := hbefore l hl
        by_cases hl' : stop m.size (m.home key') l = idx
        · simp only [Map.ends, hslot, if_pos hl']
          simpa using Ne.symm hne
        · simpa only [Map.ends, hslot, if_neg hl'] using hbefore'

/-- The last item under a key in the order of the slots. -/
def Map.lastOf (m : Map V) (key : UInt32) : Option V :=
  (m.entries.reverse.find? fun e => e.1 == key).map Prod.snd

/-- Copying items into a clean table leaves, of the items of one key, the last. -/
theorem Map.Filling.mapGet_foldl {size : Nat} (key : UInt32) :
    ∀ (es : List (UInt32 × V)) {copied : Nat} {t : Map V}, Filling size copied t →
      copied + es.length ≤ size →
      mapGet (es.foldl (fun t e => mapPlace t e.1 e.2) t) key =
        ((es.reverse.find? fun e => e.1 == key).map Prod.snd).or (mapGet t key)
  | [], _, _, _, _ => rfl
  | e :: es, copied, t, h, hlen => by
      simp only [List.length_cons] at hlen
      have hroom := h.room (by omega)
      have hrest := mapGet_foldl key es (h.place (by omega) e.1 e.2) (by omega)
      rw [List.foldl_cons, hrest, List.reverse_cons, List.find?_append, Option.map_or,
        Option.or_assoc]
      congr 1
      by_cases hkey : e.1 = key
      · subst hkey
        rw [mapGet_mapPlace h.inv hroom]
        simp
      · rw [mapGet_mapPlace_ne h.inv hroom (Ne.symm hkey)]
        simp [hkey]

/-- A grown table answers with the last item of a key. -/
theorem mapGet_rehashed (m : Map V) (key : UInt32) : mapGet m.rehashed key = m.lastOf key := by
  have hle := m.liveCount_le_size
  have hlen := m.length_entries
  have hfresh : mapGet m.fresh key = none :=
    (mapGet_eq_none_iff (.fresh m)).2 fun v ⟨s, hs⟩ => by
      rw [Map.slot_fresh] at hs
      cases hs
  rw [Map.rehashed, (Map.Filling.fresh m).mapGet_foldl key m.entries (by omega), hfresh, Option.or_none,
    Map.lastOf]

/-- A put places the item into the table, or into the table grown from it, or fails because the new
    table could not be allocated. -/
theorem mapReput_cases {m : Map V} (h : m.Inv) (allocs : AllocPlan) (key : UInt32) (value : V) :
    (∃ b : Map V, (b = m ∨ m.count = m.size ∧ b = m.rehashed) ∧ b.Inv ∧ b.count ≠ b.size ∧
        (mapReput allocs m key value).rc = 0 ∧
        (mapReput allocs m key value).map = mapPlace b key value) ∨
      ((mapReput allocs m key value).rc = -1 ∧ (mapReput allocs m key value).map = m ∧
        allocs ≠ []) := by
  rw [mapReput_eq h]
  split
  · rename_i hroom
    exact Or.inl ⟨m, Or.inl rfl, h, hroom, rfl, rfl⟩
  · rename_i hfull
    have hfull' : m.count = m.size := not_not.1 hfull
    have hfill := Map.Filling.rehashed m
    have hle := m.liveCount_le_size
    cases allocs with
    | nil => exact Or.inl ⟨_, Or.inr ⟨hfull', rfl⟩, hfill.inv, hfill.room (by omega), rfl, rfl⟩
    | cons ok rest =>
        cases ok with
        | false => exact Or.inr ⟨rfl, rfl, by simp⟩
        | true => exact Or.inl ⟨_, Or.inr ⟨hfull', rfl⟩, hfill.inv, hfill.room (by omega), rfl, rfl⟩

/-- A put that succeeds places the item into the table or into the table grown from it. -/
theorem mapReput_placed {m : Map V} (h : m.Inv) {allocs : AllocPlan} {key : UInt32} {value : V}
    (hrc : (mapReput allocs m key value).rc = 0) :
    ∃ b : Map V, (b = m ∨ m.count = m.size ∧ b = m.rehashed) ∧ b.Inv ∧ b.count ≠ b.size ∧
      (mapReput allocs m key value).map = mapPlace b key value := by
  rcases mapReput_cases h allocs key value with ⟨b, hbase, hb, hroom, -, hmap⟩ | ⟨hbad, -⟩
  · exact ⟨b, hbase, hb, hroom, hmap⟩
  · rw [hrc] at hbad
    cases hbad

theorem Map.live_eq_some_iff {m : Map V} {j : Nat} {k : UInt32} {v : V} :
    (m.slot j).live? = some (k, v) ↔ m.slot j = .item k v := by
  cases m.slot j <;> simp [Slot.live?]

theorem Map.unique_iff {m : Map V} :
    m.Unique ↔ ∀ i j k v w, (m.slot i).live? = some (k, v) → (m.slot j).live? = some (k, w) →
      i = j := by
  simp only [Map.Unique, Map.live_eq_some_iff]

/-- The `map_reput` of the name server's tables. -/
def mapReputTable (allocs : AllocPlan) (m : Map V) (key : UInt32) (value : V) : Reput (Map V) where
  rc := (mapReput allocs m key value).rc
  table := (mapReput allocs m key value).map
  allocs := (mapReput allocs m key value).allocs

instance : MapOps (Map V) V where
  create := mapCreate
  get := mapGet
  reput := mapReputTable
  remove m key := (mapRemove m key).2
  iterFirst := mapIterFirst
  iterNext := mapIterNext
  iterItem := mapIterItem
  bound := Map.size

/-- The base table of a successful put keeps keys apart and is safe to put into. -/
theorem Map.putBase {m b : Map V} (hb : b = m ∨ m.count = m.size ∧ b = m.rehashed) (hu : m.Unique)
    {key : UInt32} (hput : m.PutOk key) :
    b.Unique ∧ b.PutOk key ∧ ∀ k v, b.Holds k v ↔ m.Holds k v := by
  rcases hb with rfl | ⟨-, rfl⟩
  · exact ⟨hu, hput, fun _ _ => Iff.rfl⟩
  · have hfill := Map.Filling.rehashed m
    exact ⟨hfill.unique, hfill.clean.putOk key, Map.holds_rehashed hu⟩

instance : LawfulMap (Map V) V where
  live m i := (m.slot i).live?
  Ok := Map.Inv
  PutOk := Map.PutOk
  ok_create := .create
  live_create i := by simp [MapOps.create, mapCreate, Map.slot, Slot.live?]
  lt_bound {m i e} h := by
    apply Map.lt_size_of_slot_ne_empty
    intro hslot
    rw [hslot] at h
    cases h
  iterFirst_eq_some_iff {m j} := by
    show mapIterFrom m 0 = some j ↔ _
    rw [mapIterFrom_eq_some_iff, Option.isSome_iff_ne_none]
    simp
  iterNext_eq_some_iff {m i j} := by
    show mapIterFrom m (i + 1) = some j ↔ _
    rw [mapIterFrom_eq_some_iff, Option.isSome_iff_ne_none]
    rfl
  iterItem_eq m i := rfl
  live_of_get {m k v} _ hget := by
    obtain ⟨i, hi⟩ := holds_of_mapGet hget
    exact ⟨i, Map.live_eq_some_iff.2 hi⟩
  not_live_of_get {m k} h hget i v hi :=
    (mapGet_eq_none_iff h).1 hget v ⟨i, Map.live_eq_some_iff.1 hi⟩
  ok_remove k h := h.remove k
  bound_remove m k := Map.size_mapRemove m k
  live_remove {m k v} h hget := by
    rcases mapRemove_cases m k with ⟨hnone, -⟩ | ⟨e, w, hfind, hw, heq⟩
    · exact absurd (holds_of_mapGet hget) ((mapFind_eq_none_iff h).1 hnone v)
    · have hvw : w = v := by
        have hget' : mapGet m k = some v := hget
        rw [mapGet, hfind] at hget'
        simpa [hw, Slot.live?] using hget'
      subst hvw
      refine ⟨e, Map.live_eq_some_iff.2 hw, fun j => ?_⟩
      show ((mapRemove m k).2.slot j).live? = _
      rw [heq, Map.slot_removed (Map.lt_size_of_item hw)]
      split <;> rfl
  get_remove_ne _ hne := mapGet_mapRemove_ne hne
  ok_reput {m} a k v h := by
    show (mapReput a m k v).map.Inv
    rcases mapReput_cases h a k v with ⟨b, -, hb, hroom, -, hmap⟩ | ⟨-, hmap, -⟩
    · rw [hmap]
      exact hb.place hroom k v
    · rwa [hmap]
  reput_fails {m a k v} h hrc := by
    rcases mapReput_cases h a k v with ⟨b, -, -, -, hok, -⟩ | ⟨-, hmap, ha⟩
    · exact absurd hok hrc
    · exact ⟨hmap, ha⟩
  allocs_reput {m} k v h := by
    show (mapReput [] m k v).allocs = []
    rw [mapReput_eq h]
    split <;> rfl
  live_reput {m a k v i e} h hrc hi := by
    obtain ⟨k', w⟩ := e
    have hi' := Map.live_eq_some_iff.1 hi
    obtain ⟨b, hbase, hb, hroom, hmap⟩ := mapReput_placed h hrc
    simp only [MapOps.reput, mapReputTable, hmap] at hi'
    rcases slot_place_eq_item hb hroom hi' with heq | hold
    · exact Or.inl heq
    · rcases hbase with rfl | ⟨-, rfl⟩
      · exact Or.inr ⟨i, Map.live_eq_some_iff.2 hold⟩
      · obtain ⟨j, hj⟩ := Map.holds_of_rehashed ⟨i, hold⟩
        exact Or.inr ⟨j, Map.live_eq_some_iff.2 hj⟩
  get_reput {m a k v} h hrc := by
    obtain ⟨b, -, hb, hroom, hmap⟩ := mapReput_placed h hrc
    show mapGet (mapReput a m k v).map k = some v
    rw [hmap]
    exact mapGet_mapPlace hb hroom k v
  putOk_of_absent {m k} habs :=
    Map.putOk_of_not_holds fun w ⟨i, hi⟩ => habs i w (Map.live_eq_some_iff.2 hi)
  single_reput {m a k v} h hrc hput hs := by
    have hu := Map.unique_iff.2 hs
    obtain ⟨b, hbase, hb, hroom, hmap⟩ := mapReput_placed h hrc
    obtain ⟨hbu, hbput, -⟩ := Map.putBase hbase hu hput
    show ∀ i j k' w x, ((mapReput a m k v).map.slot i).live? = some (k', w) →
      ((mapReput a m k v).map.slot j).live? = some (k', x) → i = j
    rw [hmap]
    exact Map.unique_iff.1 (hbu.place hb hroom hbput v)
  live_reput_ne {m a k v k' w} h hrc hput hs hne hold := by
    have hu := Map.unique_iff.2 hs
    obtain ⟨b, hbase, hb, hroom, hmap⟩ := mapReput_placed h hrc
    obtain ⟨hbu, hbput, hholds⟩ := Map.putBase hbase hu hput
    obtain ⟨j, hj⟩ := hold
    have hplaced : (mapPlace b k v).Holds k' w := by
      rw [Map.holds_place hb hroom hbu hbput, if_neg hne, hholds]
      exact ⟨j, Map.live_eq_some_iff.1 hj⟩
    obtain ⟨i, hi⟩ := hplaced
    refine ⟨i, ?_⟩
    show ((mapReput a m k v).map.slot i).live? = _
    rw [hmap]
    exact Map.live_eq_some_iff.2 hi

theorem Map.entry_iff {m : Map V} {k : UInt32} {v : V} : Entry m k v ↔ m.Holds k v := by
  constructor
  · rintro ⟨i, hi⟩
    exact ⟨i, Map.live_eq_some_iff.1 hi⟩
  · rintro ⟨i, hi⟩
    exact ⟨i, Map.live_eq_some_iff.2 hi⟩

theorem Map.single_iff {m : Map V} : Single m ↔ m.Unique := Map.unique_iff.symm

end Qrtr
