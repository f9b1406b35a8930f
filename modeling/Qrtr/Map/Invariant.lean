/-
Module: Qrtr.Map.Invariant
Layer: Map
Purpose: The representation invariant of the hash map and what one operation does under it. `Map.Inv`
  says that the count is the number of live slots and that no slot between a key's home and the slot
  that holds it is NULL. It is kept by every operation, whatever the keys. `Map.Unique` says that no
  key is live twice; it is kept by `map_reput` only where no tombstone lies on the walk ahead of the
  key's slot (`Map.PutOk`). `mapReput_eq` is the closed form of `map_reput`: at most one rehash, and
  then one placement.
Imports: Qrtr.Map.Core, Qrtr.Foundation.CyclicScan
Main exports: Map.Holds, Map.Inv, Map.Unique, Map.PutOk, mapPlace, rehashed, mapReput_eq,
  size_mapReput, mapReputN_eq_mapReput
Open obligations: none
-/
import Qrtr.Map.Core
import Qrtr.Foundation.CyclicScan
import Mathlib.Tactic.SplitIfs

namespace Qrtr

open CyclicScan

variable {V : Type}

namespace Map

/-! ### Slots -/

/-- A slot that a put may take without looking further: NULL or a tombstone. -/
def free (m : Map V) (idx : Nat) : Prop := (m.slot idx).live? = none

instance (m : Map V) (idx : Nat) : Decidable (m.free idx) :=
  inferInstanceAs (Decidable (_ = _))

/-- The slot at which the walk for `key` starts. -/
def home (m : Map V) (key : UInt32) : Nat := key.toNat % m.size

/-- The number of slots that hold a live item. -/
def liveCount (m : Map V) : Nat := m.data.countP fun s => s.live?.isSome

/-- Some slot holds the item `value` under `key`. -/
def Holds (m : Map V) (key : UInt32) (value : V) : Prop := ∃ s, m.slot s = .item key value

theorem slot_of_size_le {m : Map V} {idx : Nat} (h : m.size ≤ idx) : m.slot idx = .empty := by
  simp only [size] at h
  simp [slot, List.getD, List.getElem?_eq_none h]

/-- Only slots of the table hold items or tombstones. -/
theorem lt_size_of_slot_ne_empty {m : Map V} {idx : Nat} (h : m.slot idx ≠ .empty) :
    idx < m.size := by
  by_contra hge
  exact h (slot_of_size_le (by omega))

theorem lt_size_of_item {m : Map V} {idx : Nat} {k : UInt32} {v : V}
    (h : m.slot idx = .item k v) : idx < m.size :=
  lt_size_of_slot_ne_empty (by simp [h])

@[simp] theorem size_setSlot (m : Map V) (idx : Nat) (s : Slot V) :
    (m.setSlot idx s).size = m.size := by
  simp [setSlot, size]

@[simp] theorem home_setSlot (m : Map V) (idx : Nat) (s : Slot V) (key : UInt32) :
    (m.setSlot idx s).home key = m.home key := by
  simp [home]

theorem slot_setSlot {m : Map V} {idx : Nat} (hidx : idx < m.size) (s : Slot V) (j : Nat) :
    (m.setSlot idx s).slot j = if j = idx then s else m.slot j := by
  simp only [size] at hidx
  by_cases hj : j = idx
  · subst hj; simp [setSlot, slot, List.getD, hidx]
  · have hj' : idx ≠ j := fun h => hj h.symm
    simp [setSlot, slot, List.getD, List.getElem?_set_ne hj', hj]

theorem liveCount_setSlot {m : Map V} {idx : Nat} (hidx : idx < m.size) (s : Slot V) :
    (m.setSlot idx s).liveCount + (if m.free idx then 0 else 1) =
      m.liveCount + (if s.live? = none then 0 else 1) := by
  have hlen : idx < m.data.length := hidx
  have hslot : m.slot idx = m.data[idx] := by simp [slot, List.getD, hlen]
  have hmem : m.data[idx] ∈ m.data := List.getElem_mem hlen
  have hpos : (m.data[idx]).live?.isSome = true → 0 < m.data.countP fun s => s.live?.isSome :=
    fun h => List.countP_pos_iff.2 ⟨_, hmem, h⟩
  simp only [liveCount, setSlot, free, hslot, List.countP_set hlen]
  generalize List.countP (fun s : Slot V => s.live?.isSome) m.data = live at hpos ⊢
  cases hold : (m.data[idx]).live? <;> cases hnew : s.live? <;>
    simp [hold] at hpos ⊢ <;> omega

/-- A table whose live count is below its size has a free slot. -/
theorem exists_free {m : Map V} (h : m.liveCount < m.size) : ∃ idx < m.size, m.free idx := by
  by_contra hnone
  have hall : ∀ s ∈ m.data, s.live?.isSome = true := by
    intro s hs
    obtain ⟨i, hi, rfl⟩ := List.getElem_of_mem hs
    have hslot : m.slot i = m.data[i] := by simp [slot, List.getD, hi]
    have hfree : ¬ m.free i := fun hf => hnone ⟨i, hi, hf⟩
    simpa [free, hslot, Option.isSome_iff_ne_none] using hfree
  have : m.liveCount = m.size := List.countP_eq_length.2 hall
  omega

/-! ### The invariants -/

/-- The representation invariant. -/
structure Inv (m : Map V) : Prop where
  /-- The count is the number of live slots. -/
  count_eq : m.count = m.liveCount
  /-- No slot between the home of a live key and its slot is NULL. -/
  reach : ∀ {s k v}, m.slot s = .item k v →
    ∀ i < dist m.size (m.home k) s, m.slot (stop m.size (m.home k) i) ≠ .empty

/-- No key is live in two slots. -/
def Unique (m : Map V) : Prop :=
  ∀ s t k v w, m.slot s = .item k v → m.slot t = .item k w → s = t

/-- The condition under which a put of `key` is sound: if the key is live, no tombstone lies on its
    walk ahead of the slot that holds it. -/
def PutOk (m : Map V) (key : UInt32) : Prop :=
  ∀ s w, m.slot s = .item key w →
    ∀ i < dist m.size (m.home key) s, m.slot (stop m.size (m.home key) i) ≠ .deleted

/-- A table without tombstones. -/
def Clean (m : Map V) : Prop := ∀ s, m.slot s ≠ .deleted

theorem Clean.putOk {m : Map V} (h : m.Clean) (key : UInt32) : m.PutOk key :=
  fun _ _ _ _ _ => h _

/-- Putting a key that is not live is always sound. -/
theorem putOk_of_not_holds {m : Map V} {key : UInt32} (h : ∀ w, ¬ m.Holds key w) : m.PutOk key :=
  fun s w hs => absurd ⟨s, hs⟩ (h w)

theorem liveCount_le_size (m : Map V) : m.liveCount ≤ m.size := List.countP_le_length

theorem home_lt {m : Map V} (h : 0 < m.size) (key : UInt32) : m.home key < m.size :=
  Nat.mod_lt _ h

/-- Under uniqueness a key has one value. -/
theorem Unique.holds_inj {m : Map V} (h : m.Unique) {k : UInt32} {v w : V}
    (hv : m.Holds k v) (hw : m.Holds k w) : v = w := by
  obtain ⟨s, hs⟩ := hv
  obtain ⟨t, ht⟩ := hw
  have hst := h s t k v w hs ht
  subst hst
  rw [hs] at ht
  exact (Slot.item.inj ht).2

/-! ### The two probe walks as scans -/

/-- Where the walk of `map_hash` stops: at a free slot or at the key. -/
def takes (m : Map V) (key : UInt32) (idx : Nat) : Bool :=
  match m.slot idx with
  | .item k _ => k = key
  | _ => true

/-- Where the walk of `map_find` stops: at a NULL slot or at the key. -/
def ends (m : Map V) (key : UInt32) (idx : Nat) : Bool :=
  match m.slot idx with
  | .empty => true
  | .deleted => false
  | .item k _ => k = key

/-- The count after a put has taken the slot `idx`. -/
def countAfter (m : Map V) (idx : Nat) : Nat := if m.free idx then m.count + 1 else m.count

end Map

theorem mapHashLoop_eq_scan (m : Map V) (key : UInt32) :
    ∀ steps idx, mapHashLoop m key steps idx =
      match scan (m.takes key) m.size steps idx with
      | none => .error (-2)
      | some j => .ok (j, { m with count := m.countAfter j })
  | 0, _ => rfl
  | steps + 1, idx => by
      have ih := mapHashLoop_eq_scan m key steps ((idx + 1) % m.size)
      cases hslot : m.slot idx with
      | empty =>
          simp [mapHashLoop, scan, hslot, Map.takes, Map.countAfter, Map.free, Slot.live?]
      | deleted =>
          simp [mapHashLoop, scan, hslot, Map.takes, Map.countAfter, Map.free, Slot.live?]
      | item k v =>
          by_cases hk : k = key
          · simp [mapHashLoop, scan, hslot, Map.takes, Map.countAfter, Map.free, Slot.live?, hk]
          · simp [mapHashLoop, scan, hslot, Map.takes, hk, ih]

theorem mapFindLoop_eq_scan (m : Map V) (key : UInt32) :
    ∀ steps idx, mapFindLoop m key steps idx =
      (scan (m.ends key) m.size steps idx).bind fun j => if m.free j then none else some j
  | 0, _ => rfl
  | steps + 1, idx => by
      have ih := mapFindLoop_eq_scan m key steps ((idx + 1) % m.size)
      cases hslot : m.slot idx with
      | empty => simp [mapFindLoop, scan, hslot, Map.ends, Map.free, Slot.live?]
      | deleted => simp [mapFindLoop, scan, hslot, Map.ends, ih]
      | item k v =>
          by_cases hk : k = key
          · simp [mapFindLoop, scan, hslot, Map.ends, Map.free, Slot.live?, hk]
          · simp [mapFindLoop, scan, hslot, Map.ends, hk, ih]

/-! ### One placement -/

/-- The effect of `map_reput` on a table with room. -/
def mapPlace (m : Map V) (key : UInt32) (value : V) : Map V :=
  match mapHash m key with
  | .ok (idx, m') => m'.setSlot idx (.item key value)
  | .error _ => m

/-- The item `map_reput` reports in `*old` for a table with room. -/
def displaced (m : Map V) (key : UInt32) : Option V :=
  match mapHash m key with
  | .ok (idx, m') => (m'.slot idx).live?.map Prod.snd
  | .error _ => none

/-- In a table with room the walk of `map_hash` stops, at the first slot that is free or holds the key. -/
theorem Map.scan_room {m : Map V} (hcount : m.count = m.liveCount) (hroom : m.count ≠ m.size)
    (key : UInt32) :
    ∃ idx < m.size, scan (m.takes key) m.size m.size (m.home key) = some idx ∧
      m.takes key idx = true ∧
      (∀ i < dist m.size (m.home key) idx, m.takes key (stop m.size (m.home key) i) = false) := by
  have hlt : m.liveCount < m.size := by
    have := m.liveCount_le_size
    omega
  have hhome := Map.home_lt (Nat.zero_lt_of_lt hlt) key
  obtain ⟨f, hf, hfree⟩ := Map.exists_free hlt
  have htakes : m.takes key f = true := by
    cases hslot : m.slot f <;> simp [Map.takes, Map.free, Slot.live?, hslot] at hfree ⊢
  cases hscan : scan (m.takes key) m.size m.size (m.home key) with
  | none =>
      have := (scan_full_eq_none_iff _ hhome).1 hscan f hf
      rw [htakes] at this
      cases this
  | some idx =>
      obtain ⟨i, hi, rfl, hhit, hbefore⟩ := (scan_eq_some_iff _ hhome).1 hscan
      refine ⟨_, stop_lt (Nat.zero_lt_of_lt hi), rfl, hhit, ?_⟩
      rwa [dist_stop hhome hi]

/-- Where the walk of `map_hash` stops is what it returns. -/
theorem mapHash_of_scan {m : Map V} (hroom : m.count ≠ m.size) {key : UInt32} {idx : Nat}
    (hscan : scan (m.takes key) m.size m.size (m.home key) = some idx) :
    mapHash m key = .ok (idx, { m with count := m.countAfter idx }) := by
  simp only [Map.home] at hscan
  rw [mapHash, if_neg hroom, mapHashLoop_eq_scan, hscan]

/-- In a table with room `map_hash` finds the first slot that is free or holds the key. -/
theorem mapHash_room {m : Map V} (h : m.Inv) (hroom : m.count ≠ m.size) (key : UInt32) :
    ∃ idx < m.size, m.takes key idx = true ∧
      (∀ i < dist m.size (m.home key) idx, m.takes key (stop m.size (m.home key) i) = false) ∧
      mapHash m key = .ok (idx, { m with count := m.countAfter idx }) := by
  obtain ⟨idx, hidx, hscan, htakes, hbefore⟩ := Map.scan_room h.count_eq hroom key
  exact ⟨idx, hidx, htakes, hbefore, mapHash_of_scan hroom hscan⟩

/-- What a placement does: it writes the item into the first slot that is free or holds the key. -/
theorem mapPlace_cases {m : Map V} (h : m.Inv) (hroom : m.count ≠ m.size) (key : UInt32) (value : V) :
    ∃ idx < m.size, m.takes key idx = true ∧
      (∀ i < dist m.size (m.home key) idx, m.takes key (stop m.size (m.home key) i) = false) ∧
      mapPlace m key value =
        ({ m with count := m.countAfter idx } : Map V).setSlot idx (.item key value) ∧
      displaced m key = (m.slot idx).live?.map Prod.snd := by
  obtain ⟨idx, hidx, htakes, hbefore, hhash⟩ := mapHash_room h hroom key
  exact ⟨idx, hidx, htakes, hbefore, by simp [mapPlace, hhash], by simp [displaced, hhash]; rfl⟩

/-- A slot the walk passes over is not NULL. -/
theorem Map.slot_ne_empty_of_takes {m : Map V} {key : UInt32} {idx : Nat}
    (h : m.takes key idx = false) : m.slot idx ≠ .empty := by
  intro hslot
  simp [Map.takes, hslot] at h

theorem Map.size_mapPlace {m : Map V} (h : m.Inv) (hroom : m.count ≠ m.size) (key : UInt32)
    (value : V) : (mapPlace m key value).size = m.size := by
  obtain ⟨idx, -, -, -, hplace, -⟩ := mapPlace_cases h hroom key value
  rw [hplace, Map.size_setSlot]
  rfl

/-- The slots after a placement. -/
theorem Map.slot_place {m : Map V} {idx : Nat} (hidx : idx < m.size) (c : Nat) (s : Slot V)
    (j : Nat) :
    (({ m with count := c } : Map V).setSlot idx s).slot j = if j = idx then s else m.slot j :=
  Map.slot_setSlot (m := { m with count := c }) hidx s j

/-- A placement keeps the representation invariant. -/
theorem Map.Inv.place {m : Map V} (h : m.Inv) (hroom : m.count ≠ m.size) (key : UInt32) (value : V) :
    (mapPlace m key value).Inv := by
  obtain ⟨idx, hidx, -, hbefore, hplace, -⟩ := mapPlace_cases h hroom key value
  rw [hplace]
  constructor
  · have hcount := Map.liveCount_setSlot hidx (.item key value)
    show m.countAfter idx = (m.setSlot idx (.item key value)).liveCount
    simp only [Map.countAfter, h.count_eq]
    by_cases hf : m.free idx <;> simp [hf, Slot.live?] at hcount ⊢ <;> omega
  · intro s k v hs i hi
    simp only [Map.size_setSlot, Map.home_setSlot] at hi ⊢
    rw [Map.slot_place hidx] at hs ⊢
    split
    · simp
    · rename_i hne
      split at hs
      · -- the new item: the walk of `map_hash` passed over every slot ahead of it
        rename_i hsi
        cases hs
        subst hsi
        exact Map.slot_ne_empty_of_takes (hbefore i hi)
      · exact h.reach hs i hi

/-- If the key is live and no tombstone is ahead of it, the placement takes the key's own slot. -/
theorem Map.takes_own_slot {m : Map V} (h : m.Inv) (hu : m.Unique) {key : UInt32} (hput : m.PutOk key)
    {idx s : Nat} {w : V} (hidx : idx < m.size) (htakes : m.takes key idx = true)
    (hbefore : ∀ i < dist m.size (m.home key) idx,
      m.takes key (stop m.size (m.home key) i) = false)
    (hs : m.slot s = .item key w) : s = idx := by
  have hpos : 0 < m.size := Nat.zero_lt_of_lt hidx
  have hhome := Map.home_lt hpos key
  have hslt := Map.lt_size_of_item hs
  rcases Nat.lt_trichotomy (dist m.size (m.home key) idx) (dist m.size (m.home key) s) with
    hlt | heq | hgt
  · -- the walk stopped ahead of `s`, at a slot that is neither NULL nor a tombstone
    have hne := h.reach hs _ hlt
    have hnd := hput s w hs _ hlt
    rw [stop_dist hhome hidx] at hne hnd
    cases hslot : m.slot idx with
    | empty => exact absurd hslot hne
    | deleted => exact absurd hslot hnd
    | item k v =>
        have hk : k = key := by simpa [Map.takes, hslot] using htakes
        subst hk
        exact hu s idx k w v hs hslot
  · rw [← stop_dist hhome hidx, heq, stop_dist hhome hslt]
  · have hmiss := hbefore _ hgt
    rw [stop_dist hhome hslt] at hmiss
    simp [Map.takes, hs] at hmiss

/-- The contents of a table after a sound placement. -/
theorem Map.slot_place_other {m : Map V} (h : m.Inv) (hroom : m.count ≠ m.size) (hu : m.Unique)
    {key : UInt32} (hput : m.PutOk key) (value : V) :
    ∃ idx < m.size, (∀ j, (mapPlace m key value).slot j =
        if j = idx then .item key value else m.slot j) ∧
      (∀ j w, m.slot j = .item key w → j = idx) ∧
      displaced m key = (m.slot idx).live?.map Prod.snd ∧
      (∀ k v, m.slot idx = .item k v → k = key) := by
  obtain ⟨idx, hidx, htakes, hbefore, hplace, hold⟩ := mapPlace_cases h hroom key value
  refine ⟨idx, hidx, ?_, ?_, hold, ?_⟩
  · intro j; rw [hplace, Map.slot_place hidx]
  · intro j w hj
    exact Map.takes_own_slot h hu hput hidx htakes hbefore hj
  · intro k v hslot
    simpa [Map.takes, hslot] using htakes

/-- A sound placement keeps keys unique. -/
theorem Map.Unique.place {m : Map V} (hu : m.Unique) (h : m.Inv) (hroom : m.count ≠ m.size)
    {key : UInt32} (hput : m.PutOk key) (value : V) : (mapPlace m key value).Unique := by
  obtain ⟨idx, -, hslots, hown, -, -⟩ := Map.slot_place_other h hroom hu hput value
  intro s t k v w hs ht
  rw [hslots] at hs ht
  by_cases hsi : s = idx <;> by_cases hti : t = idx
  · rw [hsi, hti]
  · rw [if_pos hsi] at hs
    rw [if_neg hti] at ht
    cases hs
    exact absurd (hown t w ht) hti
  · rw [if_neg hsi] at hs
    rw [if_pos hti] at ht
    cases ht
    exact absurd (hown s v hs) hsi
  · rw [if_neg hsi] at hs
    rw [if_neg hti] at ht
    exact hu s t k v w hs ht

/-- After a sound placement the key has the new value and every other key what it had. -/
theorem Map.holds_place {m : Map V} (h : m.Inv) (hroom : m.count ≠ m.size) (hu : m.Unique)
    {key : UInt32} (hput : m.PutOk key) (value : V) (k : UInt32) (v : V) :
    (mapPlace m key value).Holds k v ↔ if k = key then v = value else m.Holds k v := by
  obtain ⟨idx, hidx, hslots, hown, -, hkey⟩ := Map.slot_place_other h hroom hu hput value
  constructor
  · rintro ⟨s, hs⟩
    rw [hslots] at hs
    split at hs
    · cases hs; simp
    · rename_i hne
      by_cases hk : k = key
      · subst hk; exact absurd (hown s v hs) hne
      · rw [if_neg hk]; exact ⟨s, hs⟩
  · intro hkv
    by_cases hk : k = key
    · rw [if_pos hk] at hkv
      exact ⟨idx, by rw [hslots, if_pos rfl, hk, hkv]⟩
    · rw [if_neg hk] at hkv
      obtain ⟨s, hs⟩ := hkv
      refine ⟨s, ?_⟩
      rw [hslots, if_neg ?_, hs]
      rintro rfl
      exact hk (hkey k v hs)

/-- A sound placement reports exactly the item it displaces. -/
theorem Map.displaced_eq_some_iff {m : Map V} (h : m.Inv) (hroom : m.count ≠ m.size) (hu : m.Unique)
    {key : UInt32} (hput : m.PutOk key) (w : V) :
    displaced m key = some w ↔ m.Holds key w := by
  obtain ⟨idx, -, -, hown, hold, hkey⟩ := Map.slot_place_other h hroom hu hput w
  rw [hold]
  constructor
  · intro hw
    cases hslot : m.slot idx <;> simp [hslot, Slot.live?] at hw
    rename_i k v
    exact ⟨idx, by rw [hslot, hkey k v hslot, hw]⟩
  · rintro ⟨s, hs⟩
    rw [← hown s w hs, hs]
    rfl

/-- A placement into a table without tombstones leaves none. -/
theorem Map.Clean.place {m : Map V} (hc : m.Clean) (h : m.Inv) (hroom : m.count ≠ m.size)
    (key : UInt32) (value : V) : (mapPlace m key value).Clean := by
  obtain ⟨idx, hidx, -, -, hplace, -⟩ := mapPlace_cases h hroom key value
  intro s
  rw [hplace, Map.slot_place hidx]
  split
  · simp
  · exact hc s

/-- A placement adds at most one live slot. -/
theorem Map.count_place_le {m : Map V} (h : m.Inv) (hroom : m.count ≠ m.size) (key : UInt32)
    (value : V) : (mapPlace m key value).count ≤ m.count + 1 := by
  obtain ⟨idx, -, -, -, hplace, -⟩ := mapPlace_cases h hroom key value
  rw [hplace]
  show m.countAfter idx ≤ _
  unfold Map.countAfter
  split <;> omega

/-! ### The rehash -/

namespace Map

/-- The live entries in slot order. -/
def entries (m : Map V) : List (UInt32 × V) := m.data.filterMap Slot.live?

/-- The table `map_rehash` allocates. -/
def fresh (m : Map V) : Map V := { count := 0, data := List.replicate (m.size + 256) .empty }

/-- The table `map_rehash` ends with: the live entries placed into the fresh table in slot order. -/
def rehashed (m : Map V) : Map V := m.entries.foldl (fun t e => mapPlace t e.1 e.2) m.fresh

theorem mem_entries_iff {m : Map V} {k : UInt32} {v : V} :
    (k, v) ∈ m.entries ↔ m.Holds k v := by
  simp only [entries, List.mem_filterMap, Holds]
  constructor
  · rintro ⟨s, hs, hentry⟩
    obtain ⟨i, hi, rfl⟩ := List.getElem_of_mem hs
    refine ⟨i, ?_⟩
    have hslot : m.slot i = m.data[i] := by simp [slot, List.getD, hi]
    rw [hslot]
    cases hd : m.data[i] <;> simp [hd, Slot.live?] at hentry
    rw [hentry.1, hentry.2]
  · rintro ⟨i, hslot⟩
    have hi : i < m.data.length := lt_size_of_item hslot
    have hget : m.data[i] = .item k v := by rw [← hslot]; simp [slot, List.getD, hi]
    exact ⟨m.data[i], List.getElem_mem hi, by simp [hget, Slot.live?]⟩

theorem length_entries (m : Map V) : m.entries.length = m.liveCount := by
  simp only [entries, liveCount]
  induction m.data with
  | nil => rfl
  | cons s rest ih => cases s <;> simp [Slot.live?] at ih ⊢ <;> exact ih

theorem size_fresh (m : Map V) : m.fresh.size = m.size + 256 := by simp [fresh, size]

theorem slot_fresh (m : Map V) (s : Nat) : m.fresh.slot s = .empty := by
  simp only [slot, fresh, List.getD, List.getElem?_replicate]
  split <;> rfl

theorem Inv.fresh (m : Map V) : m.fresh.Inv where
  count_eq := by
    simp only [liveCount, Map.fresh]
    rw [List.countP_replicate]
    rfl
  reach := by intro s k v hs; simp [slot_fresh] at hs

theorem Unique.fresh (m : Map V) : m.fresh.Unique := by
  intro s t k v w hs
  simp [slot_fresh] at hs

theorem Clean.fresh (m : Map V) : m.fresh.Clean := by
  intro s
  simp [slot_fresh]

/-- What the copy loop keeps of the table it fills: the invariant, no duplicate and no tombstone, the
    size, and a count that grows by at most one for each entry copied. -/
structure Filling (size copied : Nat) (t : Map V) : Prop where
  inv : t.Inv
  unique : t.Unique
  clean : t.Clean
  size_eq : t.size = size
  count_le : t.count ≤ copied

theorem Filling.fresh (m : Map V) : Filling (m.size + 256) 0 m.fresh where
  inv := .fresh m
  unique := .fresh m
  clean := .fresh m
  size_eq := size_fresh m
  count_le := Nat.le_refl _

theorem Filling.room {size copied : Nat} {t : Map V} (h : Filling size copied t)
    (hlt : copied < size) : t.count ≠ t.size := by
  have := h.count_le
  have := h.size_eq
  omega

theorem Filling.place {size copied : Nat} {t : Map V} (h : Filling size copied t)
    (hlt : copied < size) (key : UInt32) (value : V) :
    Filling size (copied + 1) (mapPlace t key value) := by
  have hroom := h.room hlt
  exact
    { inv := h.inv.place hroom key value
      unique := h.unique.place h.inv hroom (h.clean.putOk key) value
      clean := h.clean.place h.inv hroom key value
      size_eq := by rw [size_mapPlace h.inv hroom, h.size_eq]
      count_le := by
        have := count_place_le h.inv hroom key value
        have := h.count_le
        omega }

theorem Filling.foldl_place {size : Nat} :
    ∀ (es : List (UInt32 × V)) {copied : Nat} {t : Map V}, Filling size copied t →
      copied + es.length ≤ size →
      Filling size (copied + es.length) (es.foldl (fun t e => mapPlace t e.1 e.2) t)
  | [], _, _, h, _ => h
  | e :: es, copied, t, h, hlen => by
      simp only [List.length_cons] at hlen ⊢
      have hnext := Filling.foldl_place es (h.place (by omega) e.1 e.2) (by omega)
      rw [show copied + (es.length + 1) = copied + 1 + es.length by omega]
      exact hnext

/-- The copy loop holds nothing but what it was given. -/
theorem Filling.holds_of_foldl {size : Nat} {k : UInt32} {v : V} :
    ∀ (es : List (UInt32 × V)) {copied : Nat} {t : Map V}, Filling size copied t →
      copied + es.length ≤ size →
      (es.foldl (fun t e => mapPlace t e.1 e.2) t).Holds k v → (k, v) ∈ es ∨ t.Holds k v
  | [], _, _, _, _, hk => Or.inr hk
  | e :: es, copied, t, h, hlen, hk => by
      simp only [List.length_cons] at hlen
      have hroom := h.room (by omega)
      rcases Filling.holds_of_foldl es (h.place (by omega) e.1 e.2) (by omega) hk with hmem | hold
      · exact Or.inl (List.mem_cons_of_mem _ hmem)
      · rw [holds_place h.inv hroom h.unique (h.clean.putOk _)] at hold
        split at hold
        · rename_i hke
          exact Or.inl (by rw [hke, hold]; exact List.mem_cons_self ..)
        · exact Or.inr hold

/-- The copy loop keeps a value for every key it has met. -/
theorem Filling.foldl_holds_key {size : Nat} {k : UInt32} :
    ∀ (es : List (UInt32 × V)) {copied : Nat} {t : Map V}, Filling size copied t →
      copied + es.length ≤ size →
      ((∃ v, (k, v) ∈ es) ∨ ∃ v, t.Holds k v) →
      ∃ v, (es.foldl (fun t e => mapPlace t e.1 e.2) t).Holds k v
  | [], _, _, _, _, hk => by simpa using hk
  | e :: es, copied, t, h, hlen, hk => by
      simp only [List.length_cons] at hlen
      have hroom := h.room (by omega)
      refine Filling.foldl_holds_key es (h.place (by omega) e.1 e.2) (by omega) ?_
      have hplace := holds_place h.inv hroom h.unique (h.clean.putOk e.1) e.2 k
      by_cases hke : k = e.1
      · exact Or.inr ⟨e.2, by rw [hplace, if_pos hke]⟩
      · rcases hk with ⟨v, hv⟩ | ⟨v, hv⟩
        · rcases List.mem_cons.1 hv with rfl | hv
          · exact absurd rfl hke
          · exact Or.inl ⟨v, hv⟩
        · exact Or.inr ⟨v, by rw [hplace, if_neg hke]; exact hv⟩

theorem Filling.rehashed (m : Map V) : Filling (m.size + 256) m.liveCount m.rehashed := by
  have hle := m.liveCount_le_size
  have hlen := m.length_entries
  have h := (Filling.fresh m).foldl_place m.entries (by omega)
  rwa [Nat.zero_add, hlen] at h

theorem length_entries_le (m : Map V) : 0 + m.entries.length ≤ m.size + 256 := by
  have hle := m.liveCount_le_size
  have hlen := m.length_entries
  omega

/-- A rehash makes nothing live that was not. -/
theorem holds_of_rehashed {m : Map V} {k : UInt32} {v : V} (h : m.rehashed.Holds k v) :
    m.Holds k v := by
  rcases (Filling.fresh m).holds_of_foldl m.entries m.length_entries_le h with hmem | ⟨s, hs⟩
  · exact mem_entries_iff.1 hmem
  · simp [slot_fresh] at hs

/-- A rehash keeps the contents of a table without duplicates. -/
theorem holds_rehashed {m : Map V} (hu : m.Unique) (k : UInt32) (v : V) :
    m.rehashed.Holds k v ↔ m.Holds k v := by
  refine ⟨holds_of_rehashed, fun hv => ?_⟩
  obtain ⟨w, hw⟩ := (Filling.fresh m).foldl_holds_key m.entries m.length_entries_le
    (Or.inl ⟨v, mem_entries_iff.2 hv⟩)
  rwa [hu.holds_inj hv (holds_of_rehashed hw)]

end Map

/-- The result of a put into a table with room. -/
def placed (allocs : AllocPlan) (m : Map V) (key : UInt32) (value : V) : PutResult V :=
  { rc := 0, old := displaced m key, map := mapPlace m key value, allocs := allocs }

/-- Into a table with room `map_reput` puts at once. -/
theorem mapReputN_room {m : Map V} (h : m.Inv) (hroom : m.count ≠ m.size) (n : Nat)
    (allocs : AllocPlan) (key : UInt32) (value : V) :
    mapReputN (n + 1) allocs m key value = some (placed allocs m key value) := by
  obtain ⟨idx, -, -, -, hhash⟩ := mapHash_room h hroom key
  simp [mapReputN, placed, mapPlace, displaced, hhash]

/-- While `map_rehash` copies, every put finds room, so the copy runs to its end. -/
theorem rehashCopy_eq (n : Nat) {size : Nat} :
    ∀ (slots : List (Slot V)) (allocs : AllocPlan) {copied : Nat} {t : Map V},
      Map.Filling size copied t → copied + (slots.filterMap Slot.live?).length < size →
      rehashCopy (mapReputN (n + 1)) slots allocs t =
        some
          { rc := 0, old := none
            map := (slots.filterMap Slot.live?).foldl (fun t e => mapPlace t e.1 e.2) t
            allocs := allocs }
  | [], _, _, _, _, _ => rfl
  | .empty :: slots, allocs, copied, t, h, hlen => by
      simpa [rehashCopy, List.filterMap_cons, Slot.live?] using rehashCopy_eq n slots allocs h
        (by simpa [List.filterMap_cons, Slot.live?] using hlen)
  | .deleted :: slots, allocs, copied, t, h, hlen => by
      simpa [rehashCopy, List.filterMap_cons, Slot.live?] using rehashCopy_eq n slots allocs h
        (by simpa [List.filterMap_cons, Slot.live?] using hlen)
  | .item k v :: slots, allocs, copied, t, h, hlen => by
      have hlen' : copied + 1 + (slots.filterMap Slot.live?).length < size := by
        simp only [List.filterMap_cons, Slot.live?, List.length_cons] at hlen
        omega
      have hput := mapReputN_room h.inv (h.room (by omega)) n allocs k v
      have ih := rehashCopy_eq n slots allocs (h.place (by omega) k v) hlen'
      simp only [rehashCopy, hput, placed, ih, Slot.live?, List.filterMap_cons, List.foldl_cons]
      rfl

/-- `map_rehash` either fails to allocate, leaving the map alone, or ends with the rehashed table. -/
theorem mapRehash_eq {m : Map V} (n : Nat) (allocs : AllocPlan) :
    mapRehash (mapReputN (n + 1)) allocs m =
      match calloc allocs with
      | (false, rest) => some { rc := -1, old := none, map := m, allocs := rest }
      | (true, rest) => some { rc := 0, old := none, map := m.rehashed, allocs := rest } := by
  have hle := m.liveCount_le_size
  have hlen := m.length_entries
  have hcopy := rehashCopy_eq n m.data (calloc allocs).2 (Map.Filling.fresh m)
    (by simp only [Map.entries] at hlen; omega)
  rw [mapRehash]
  rcases hc : calloc allocs with ⟨ok, rest⟩
  cases ok with
  | false => rfl
  | true => rw [hc] at hcopy; exact hcopy

/-- The closed form of `map_reput`: a full table is rehashed once, and the put then finds room. -/
theorem mapReputN_eq {m : Map V} (h : m.Inv) (n : Nat) (allocs : AllocPlan) (key : UInt32)
    (value : V) :
    mapReputN (n + 2) allocs m key value =
      some
        (if m.count ≠ m.size then placed allocs m key value
          else match calloc allocs with
            | (false, rest) => { rc := -1, old := none, map := m, allocs := rest }
            | (true, rest) => placed rest m.rehashed key value) := by
  by_cases hroom : m.count ≠ m.size
  · rw [mapReputN_room h hroom, if_pos hroom]
  · rw [if_neg hroom]
    have hfull : m.count = m.size := not_not.1 hroom
    have hhash : mapHash m key = .error (-1) := by rw [mapHash, if_pos hfull]
    rw [mapReputN]
    simp only [hhash, mapRehash_eq]
    rcases calloc allocs with ⟨ok, rest⟩
    cases ok with
    | false => rfl
    | true =>
        have hfill := Map.Filling.rehashed m
        have hle := m.liveCount_le_size
        exact mapReputN_room hfill.inv (hfill.room (by omega)) n rest key value

theorem mapReput_eq {m : Map V} (h : m.Inv) (allocs : AllocPlan) (key : UInt32) (value : V) :
    mapReput allocs m key value =
      if m.count ≠ m.size then placed allocs m key value
      else match calloc allocs with
        | (false, rest) => { rc := -1, old := none, map := m, allocs := rest }
        | (true, rest) => placed rest m.rehashed key value := by
  rw [mapReput, mapReputN_eq h 0]
  rfl

/-- A put leaves the size as it is, or adds 256 slots to a full table. -/
theorem size_mapReput {m : Map V} (h : m.Inv) (allocs : AllocPlan) (key : UInt32) (value : V) :
    (mapReput allocs m key value).map.size = m.size ∨
      m.count = m.size ∧ (mapReput allocs m key value).map.size = m.size + 256 := by
  rw [mapReput_eq h]
  split
  case isTrue hroom => exact .inl (Map.size_mapPlace h hroom key value)
  case isFalse hfull =>
      rcases calloc allocs with ⟨ok, rest⟩
      cases ok with
      | false => exact .inl rfl
      | true =>
          have hfill := Map.Filling.rehashed m
          have hle := m.liveCount_le_size
          refine .inr ⟨not_not.1 hfull, ?_⟩
          rw [← hfill.size_eq]
          exact Map.size_mapPlace hfill.inv (hfill.room (by omega)) key value

/-- More rounds than two never change what `map_reput` does. -/
theorem mapReputN_eq_mapReput {m : Map V} (h : m.Inv) (n : Nat) (allocs : AllocPlan) (key : UInt32)
    (value : V) : mapReputN (n + 2) allocs m key value = some (mapReput allocs m key value) := by
  rw [mapReputN_eq h, mapReput_eq h]

end Qrtr
