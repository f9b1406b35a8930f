/-
Module: Qrtr.Map.Pointers
Layer: Map
Purpose: What the memory of a map shows: `MapMem.view` is the map of slots, each with its item under the
  key that the item has now. On a table of fewer than 2^31 slots no index overflows, and the walks of
  `map_hash` and `map_find` are the scans of the view. `mapReput_outcome` says once what a put does: it
  takes a slot, or it is refused because the larger table cannot be allocated, or it copies every live
  item into the larger table, without rehashing again and without stopping early, and then takes a slot.
  A put does to the view what it does to a map of slots unless its item is held under another key.
Imports: Qrtr.Map.Memory, Qrtr.Map.Operations
Main exports: MapMem.view, MapMem.Sound, MapMem.Exclusive, mapHashLoop_eq, mapHash_room, copyLoop_eq,
  mapRehash_eq, PutOutcome, mapReput_outcome
Open obligations: none
-/
import Qrtr.Map.Memory
import Qrtr.Map.Operations

namespace Qrtr.Memory

open CyclicScan Traced

variable {A : Type}

/-! ### What the memory shows -/

/-- The slot that an entry is, when the items have the keys `key`. -/
def MapEntry.slot (key : A → UInt32) : MapEntry A → Slot A
  | .null => .empty
  | .deleted => .deleted
  | .item a => .item (key a) a

namespace MapMem

/-- `map->data[idx].item`, at an index of the table. -/
def entryAt (m : MapMem A) (idx : Nat) : MapEntry A := m.data.getD idx .null

/-- The map of slots that the memory shows. -/
def view (m : MapMem A) : Map A := { count := m.count.toNat, data := m.data.map (·.slot m.key) }

/-- The number of entries that hold a live item. -/
def liveCount (m : MapMem A) : Nat := m.data.countP fun e => e.item?.isSome

/-- The table has as many entries as `size` says, and `count` of them are live. -/
structure Sound (m : MapMem A) : Prop where
  length_eq : m.data.length = m.size.toNat
  count_eq : m.count.toNat = m.liveCount

/-- No slot holds the item under another key. -/
def Exclusive (m : MapMem A) (key : UInt32) (value : A) : Prop :=
  .item value ∈ m.data → m.key value = key

end MapMem

@[simp] theorem live?_slot (key : A → UInt32) (e : MapEntry A) :
    (e.slot key).live? = e.item?.map fun a => (key a, a) := by
  cases e <;> rfl

namespace MapMem

variable {m : MapMem A}

theorem view_slot (m : MapMem A) (idx : Nat) : m.view.slot idx = (m.entryAt idx).slot m.key := by
  simp only [view, Map.slot, entryAt, List.getD, List.getElem?_map]
  cases m.data[idx]? <;> rfl

theorem view_liveCount (m : MapMem A) : m.view.liveCount = m.liveCount := by
  simp [view, Map.liveCount, liveCount, List.countP_map, Function.comp_def]

theorem Sound.view_size (h : m.Sound) : m.view.size = m.size.toNat := by
  rw [← h.length_eq]
  exact List.length_map ..

theorem Sound.view_count_eq (h : m.Sound) : m.view.count = m.view.liveCount := by
  rw [view_liveCount, ← h.count_eq]
  rfl

theorem Sound.count_le (h : m.Sound) : m.count.toNat ≤ m.size.toNat := by
  have hle := m.view.liveCount_le_size
  rwa [← h.view_count_eq, h.view_size] at hle

/-- A table has room when its count is not its size. -/
theorem Sound.view_room (h : m.Sound) : m.view.count ≠ m.view.size ↔ m.count ≠ m.size := by
  rw [h.view_size]
  exact not_congr UInt32.toNat_inj

theorem Sound.count_lt (h : m.Sound) (hroom : m.count ≠ m.size) : m.count.toNat < m.size.toNat := by
  have hle := h.count_le
  have hne : m.count.toNat ≠ m.size.toNat := fun heq => hroom (UInt32.toNat_inj.mp heq)
  omega

end MapMem

/-! ### Indices of a table of fewer than 2^31 slots -/

theorem asInt_of_lt {n : UInt32} (h : n.toNat < 2 ^ 31) : asInt n = n.toNat := if_pos h

theorem increment_of_lt {i : Nat} (h : i < 2 ^ 31 - 1) : increment i = pure ((i + 1 : Nat) : Int) := by
  rw [increment, if_pos (by omega)]
  rfl

theorem toNat_ofInt {i : Nat} (h : i < 2 ^ 32) : (UInt32.ofInt (i : Int)).toNat = i := by
  rw [UInt32.ofInt, UInt32.toNat_ofNat']
  omega

theorem modulo_of_pos {a b : UInt32} (h : 0 < b.toNat) : modulo a b = pure (a % b) := by
  rw [modulo, if_neg]
  rintro rfl
  exact absurd h (by decide)

namespace MapMem

variable {m : MapMem A}

theorem Sound.entry_eq (h : m.Sound) {idx : Nat} (hidx : idx < m.size.toNat) :
    m.entry idx = pure (m.entryAt idx) := by
  rw [← h.length_eq] at hidx
  simp [entry, entryAt, List.getElem?_eq_getElem hidx, List.getD]

theorem Sound.start_eq (h : m.Sound) (hsmall : m.size.toNat < 2 ^ 31) (hpos : 0 < m.size.toNat)
    (key : UInt32) : m.start key = pure (m.view.home key : Int) := by
  have hlt := Nat.mod_lt key.toNat hpos
  rw [start, modulo_of_pos hpos, pure_bind, asInt_of_lt (by rw [UInt32.toNat_mod]; omega)]
  simp [Map.home, h.view_size]

theorem advance_eq (hsmall : m.size.toNat < 2 ^ 31) {idx : Nat} (hidx : idx < m.size.toNat) :
    m.advance idx = pure (((idx + 1) % m.size.toNat : Nat) : Int) := by
  have hpos : 0 < m.size.toNat := Nat.zero_lt_of_lt hidx
  have hlt := Nat.mod_lt (idx + 1) hpos
  have hnext : (UInt32.ofInt ((idx + 1 : Nat) : Int) % m.size).toNat = (idx + 1) % m.size.toNat := by
    rw [UInt32.toNat_mod, toNat_ofInt (by omega)]
  rw [advance, increment_of_lt (by omega), pure_bind, modulo_of_pos hpos, pure_bind,
    asInt_of_lt (by rw [hnext]; omega), hnext]

end MapMem

/-! ### The walk of `map_hash` -/

namespace MapMem

/-- The memory after `map_hash` has returned the index `idx`. -/
def counted (m : MapMem A) (idx : Nat) : MapMem A :=
  if m.view.free idx then { m with count := m.count + 1 } else m

theorem free_iff (m : MapMem A) (idx : Nat) : m.view.free idx ↔ (m.entryAt idx).item? = none := by
  rw [Map.free, view_slot, live?_slot, Option.map_eq_none_iff]

end MapMem

variable {m : MapMem A}

/-- The loop of `map_hash` is a scan of the view. -/
theorem mapHashLoop_eq (h : m.Sound) (hsmall : m.size.toNat < 2 ^ 31) (key : UInt32) :
    ∀ left i idx : Nat, i + left = m.size.toNat → idx < m.size.toNat →
      mapHashLoop m key left i idx =
        pure (match scan (m.view.takes key) m.view.size left idx with
          | none => (-2, m)
          | some j => ((j : Int), m.counted j))
  | 0, _, _, _, _ => rfl
  | left + 1, i, idx, hi, hidx => by
      rw [mapHashLoop, h.entry_eq hidx, pure_bind, scan]
      cases hentry : m.entryAt idx with
      | null =>
          simp [Map.takes, m.view_slot, hentry, MapEntry.slot, MapMem.counted, m.free_iff, MapEntry.item?]
      | deleted =>
          simp [Map.takes, m.view_slot, hentry, MapEntry.slot, MapMem.counted, m.free_iff, MapEntry.item?]
      | item a =>
          by_cases hkey : m.key a = key
          · simp [Map.takes, m.view_slot, hentry, MapEntry.slot, MapMem.counted, m.free_iff,
              MapEntry.item?, hkey]
          · have hnext := Nat.mod_lt (idx + 1) (Nat.zero_lt_of_lt hidx)
            have ih := mapHashLoop_eq h hsmall key left (i + 1) _ (by omega) hnext
            simp only [if_neg hkey, m.advance_eq hsmall hidx, pure_bind,
              increment_of_lt (i := i) (by omega), ih]
            simp [Map.takes, m.view_slot, hentry, MapEntry.slot, hkey, h.view_size]

/-- In a full table `map_hash` returns -1. -/
theorem mapHash_full (hfull : m.count = m.size) (key : UInt32) :
    mapHash m key = after [.hash (-1)] (pure (-1, m)) := by
  rw [mapHash, if_pos hfull]
  rfl

/-- In a table with room `map_hash` returns the first slot on the walk that is free or holds the key. -/
theorem mapHash_room (h : m.Sound) (hsmall : m.size.toNat < 2 ^ 31) (hroom : m.count ≠ m.size)
    (key : UInt32) :
    ∃ idx < m.size.toNat, scan (m.view.takes key) m.view.size m.view.size (m.view.home key) = some idx ∧
      mapHash m key = after [.hash idx] (pure ((idx : Int), m.counted idx)) := by
  obtain ⟨idx, hidx, hscan, -, -⟩ := Map.scan_room h.view_count_eq (h.view_room.mpr hroom) key
  rw [h.view_size] at hidx
  have hpos : 0 < m.size.toNat := Nat.zero_lt_of_lt hidx
  have hhome : m.view.home key < m.size.toNat := by
    rw [← h.view_size] at hpos ⊢
    exact Map.home_lt hpos key
  refine ⟨idx, hidx, hscan, ?_⟩
  have hloop := mapHashLoop_eq h hsmall key m.size.toNat 0 _ (by omega) hhome
  rw [h.view_size] at hscan
  rw [h.view_size, hscan] at hloop
  rw [mapHash, if_neg hroom, h.start_eq hsmall hpos, pure_bind]
  exact congrArg (· >>= fun r => emit (.hash r.1) >>= fun _ => pure r) hloop

/-! ### Taking a slot -/

namespace MapMem

@[simp] theorem counted_size (m : MapMem A) (idx : Nat) : (m.counted idx).size = m.size := by
  unfold counted; split <;> rfl

@[simp] theorem counted_data (m : MapMem A) (idx : Nat) : (m.counted idx).data = m.data := by
  unfold counted; split <;> rfl

@[simp] theorem counted_key (m : MapMem A) (idx : Nat) : (m.counted idx).key = m.key := by
  unfold counted; split <;> rfl

@[simp] theorem counted_allocs (m : MapMem A) (idx : Nat) : (m.counted idx).allocs = m.allocs := by
  unfold counted; split <;> rfl

/-- The count after `map_hash` has returned a slot of a table with room. -/
theorem Sound.toNat_count_counted (h : m.Sound) (hroom : m.count ≠ m.size) (idx : Nat) :
    (m.counted idx).count.toNat = m.view.countAfter idx := by
  have hlt := h.count_lt hroom
  have hmax := m.size.toNat_lt
  unfold counted Map.countAfter
  split
  · show (m.count + 1).toNat = m.count.toNat + 1
    rw [UInt32.toNat_add]
    simp
    omega
  · rfl

theorem view_setEntry (m : MapMem A) (idx : Nat) (e : MapEntry A) :
    (m.setEntry idx e).view = m.view.setSlot idx (e.slot m.key) := by
  simp [view, setEntry, Map.setSlot, List.map_set]

end MapMem

variable [DecidableEq A]

namespace MapMem

/-- The memory after a put has taken the slot `idx`. -/
def placed (m : MapMem A) (idx : Nat) (key : UInt32) (value : A) : MapMem A :=
  (m.counted idx).store idx key value

section

variable (m : MapMem A) (idx : Nat) (key : UInt32) (value : A)

@[simp] theorem placed_size : (m.placed idx key value).size = m.size := counted_size m idx

@[simp] theorem placed_data : (m.placed idx key value).data = m.data.set idx (.item value) := by
  simp [placed, store, setEntry]

@[simp] theorem placed_key : (m.placed idx key value).key = Function.update m.key value key := by
  simp [placed, store]

@[simp] theorem placed_allocs : (m.placed idx key value).allocs = m.allocs := counted_allocs m idx

theorem placed_count : (m.placed idx key value).count = (m.counted idx).count := rfl

theorem placed_liveCount :
    (m.placed idx key value).liveCount = (m.view.setSlot idx (.item (m.key value) value)).liveCount := by
  have hentry := m.view_setEntry idx (.item value)
  rw [show m.view.setSlot idx (.item (m.key value) value) = (m.setEntry idx (.item value)).view from
    hentry.symm, view_liveCount]
  simp [liveCount, setEntry]

end

/-- Taking a slot keeps the count the number of live entries, whatever the item is. -/
theorem Sound.placed (h : m.Sound) (hroom : m.count ≠ m.size) {idx : Nat}
    (hidx : idx < m.size.toNat) (key : UInt32) (value : A) : (m.placed idx key value).Sound where
  length_eq := by simp [h.length_eq]
  count_eq := by
    have hset := Map.liveCount_setSlot (m := m.view) (by rwa [h.view_size]) (.item (m.key value) value)
    rw [placed_count, h.toNat_count_counted hroom, placed_liveCount, Map.countAfter, h.view_count_eq]
    by_cases hfree : m.view.free idx <;> simp [hfree, Slot.live?] at hset ⊢ <;> omega

/-- Taking a slot is a placement in the view if no slot holds the item under another key. -/
theorem Sound.view_placed (h : m.Sound) (hroom : m.count ≠ m.size) (idx : Nat) {key : UInt32}
    {value : A} (hexclusive : m.Exclusive key value) :
    (m.placed idx key value).view =
      ({ m.view with count := m.view.countAfter idx } : Map A).setSlot idx (.item key value) := by
  have hkept : m.data.map (·.slot (Function.update m.key value key)) = m.data.map (·.slot m.key) := by
    refine List.map_congr_left fun e he => ?_
    cases e with
    | null => rfl
    | deleted => rfl
    | item a =>
        by_cases ha : a = value
        · subst ha
          simp [MapEntry.slot, hexclusive he]
        · simp [MapEntry.slot, ha]
  have hslot : (MapEntry.item value).slot (Function.update m.key value key) = .item key value := by
    simp [MapEntry.slot]
  have hdata : (m.placed idx key value).view.data = m.view.data.set idx (.item key value) := by
    simp only [view, placed_data, placed_key, List.map_set, hkept, hslot]
  have hcount : (m.placed idx key value).view.count = m.view.countAfter idx :=
    h.toNat_count_counted hroom idx
  show (⟨(m.placed idx key value).view.count, (m.placed idx key value).view.data⟩ : Map A) = _
  rw [hcount, hdata]
  rfl

end MapMem

/-- A put into a table with room takes a slot at once, and reports the item in it. Where its own item is not
    held under another key, it does to the view what it does to a map of slots. -/
theorem mapReput_room (h : m.Sound) (hsmall : m.size.toNat < 2 ^ 31) (hroom : m.count ≠ m.size)
    (rounds : Nat) (key : UInt32) (value : A) :
    ∃ idx < m.size.toNat,
      mapReput (rounds + 1) m key value =
        after [.hash idx]
          (pure { rc := 0, old := displaced m.view key, map := m.placed idx key value }) ∧
      (m.Exclusive key value → (m.placed idx key value).view = mapPlace m.view key value) := by
  obtain ⟨idx, hidx, hscan, hhash⟩ := mapHash_room h hsmall hroom key
  have hslotHash := mapHash_of_scan (h.view_room.mpr hroom) hscan
  refine ⟨idx, hidx, ?_, fun hexclusive => ?_⟩
  · have hentry : (m.counted idx).entry idx = pure (m.entryAt idx) := by
      rw [MapMem.entry, MapMem.counted_data]
      exact h.entry_eq hidx
    have hold : displaced m.view key = (m.entryAt idx).item? := by
      rw [displaced, hslotHash]
      show (m.view.slot idx).live?.map Prod.snd = _
      rw [m.view_slot, live?_slot]
      cases (m.entryAt idx).item? <;> rfl
    have hnonneg : ¬ (idx : Int) < 0 := by omega
    rw [mapReput, hhash, hold]
    simp only [after_bind, pure_bind, if_neg hnonneg, hentry]
    rfl
  · rw [h.view_placed hroom idx hexclusive, mapPlace, hslotHash]

/-! ### The copy into a larger table -/

/-- What a put that finds room leaves in the trace: a slot from `map_hash`, success to the copy loop. -/
def MapEvent.Quiet : MapEvent → Prop
  | .hash rc => 0 ≤ rc
  | .copied rc => rc = 0
  | _ => False

/-- The live items of entries, each under its key. -/
def liveEntries (key : A → UInt32) (entries : List (MapEntry A)) : List (UInt32 × A) :=
  entries.filterMap fun e => (e.slot key).live?

omit [DecidableEq A] in
theorem liveEntries_item (key : A → UInt32) (a : A) (entries : List (MapEntry A)) :
    liveEntries key (.item a :: entries) = (key a, a) :: liveEntries key entries := rfl

omit [DecidableEq A] in
theorem view_entries (m : MapMem A) : m.view.entries = liveEntries m.key m.data := by
  rw [Map.entries, MapMem.view, List.filterMap_map]
  rfl

/-- While `map_rehash` copies, every put finds room, and the copy runs to its end. -/
theorem copyLoop_eq (rounds : Nat) {size : Nat} (hsmall : size < 2 ^ 31) :
    ∀ (oldt : List (MapEntry A)) {copied : Nat} {t : MapMem A}, t.Sound → t.size.toNat = size →
      t.view.Filling size copied → copied + (liveEntries t.key oldt).length < size →
      ∃ events t', copyLoop (mapReput (rounds + 1)) oldt.length oldt t = after events (pure (0, t')) ∧
        (∀ e ∈ events, e.Quiet) ∧ t'.Sound ∧ t'.size = t.size ∧ t'.key = t.key ∧
        t'.allocs = t.allocs ∧
        t'.view = (liveEntries t.key oldt).foldl (fun t e => mapPlace t e.1 e.2) t.view
  | [], _, t, h, _, _, _ => ⟨[], t, rfl, by simp, h, rfl, rfl, rfl, rfl⟩
  | .null :: oldt, _, _, h, hsize, hfill, hlen =>
      copyLoop_eq rounds hsmall oldt h hsize hfill hlen
  | .deleted :: oldt, _, _, h, hsize, hfill, hlen =>
      copyLoop_eq rounds hsmall oldt h hsize hfill hlen
  | .item a :: oldt, copied, t, h, hsize, hfill, hlen => by
      rw [liveEntries_item, List.length_cons] at hlen
      have hroom : t.count ≠ t.size := h.view_room.mp (hfill.room (by omega))
      obtain ⟨idx, hidx, hput, hview⟩ := mapReput_room h (by omega) hroom rounds (t.key a) a
      have hkey : (t.placed idx (t.key a) a).key = t.key := by simp
      have hplace := hview fun _ => rfl
      obtain ⟨events, t', hloop, hquiet, hsound, hsize', hkey', hallocs, hview'⟩ :=
        copyLoop_eq rounds hsmall oldt (h.placed hroom hidx (t.key a) a)
          (by rw [MapMem.placed_size]; exact hsize) (by rw [hplace]; exact hfill.place (by omega) _ _)
          (by rw [hkey]; omega)
      refine ⟨[.hash idx, .copied 0] ++ events, t', ?_, ?_, hsound, ?_, ?_, ?_, ?_⟩
      · rw [List.length_cons, copyLoop, hput]
        simp only [after_bind, pure_bind, emit_bind, lt_irrefl, if_false, hloop, after_after,
          List.cons_append, List.nil_append]
      · intro e he
        rcases List.mem_append.mp he with he | he
        · rcases List.mem_pair.mp he with rfl | rfl
          · exact Int.natCast_nonneg idx
          · rfl
        · exact hquiet e he
      · rw [hsize', MapMem.placed_size]
      · rw [hkey', hkey]
      · rw [hallocs, MapMem.placed_allocs]
      · rw [hview', hkey, hplace]
        rfl

/-! ### What a put does -/

/-- What is known of the outcome of an allocation is known of its plan. -/
theorem calloc_eq {allocs : AllocPlan} {ok : Bool} (h : (calloc allocs).1 = ok) :
    calloc allocs = (ok, (calloc allocs).2) := Prod.ext h rfl

omit [DecidableEq A] in
/-- The memory when the copy loop starts shows an empty table with 256 slots more. -/
theorem view_grown (h : m.Sound) (allocs : AllocPlan) (hsmall : m.size.toNat + 256 < 2 ^ 31) :
    (m.grown allocs).view = m.view.fresh := by
  have hsize : (m.size + 256).toNat = m.size.toNat + 256 := by
    rw [UInt32.toNat_add]
    simp
    omega
  simp [MapMem.view, MapMem.grown, Map.fresh, hsize, h.length_eq, Map.size, MapEntry.slot]

omit [DecidableEq A] in
theorem MapMem.Sound.grown (m : MapMem A) (allocs : AllocPlan) : (m.grown allocs).Sound where
  length_eq := by simp [MapMem.grown]
  count_eq := by
    simp only [MapMem.liveCount, MapMem.grown, List.countP_replicate]
    rfl

/-- A rehash whose allocation succeeds, of a table that stays below 2^31 slots. -/
theorem mapRehash_eq (h : m.Sound) (hsmall : m.size.toNat + 256 < 2 ^ 31) (rounds : Nat)
    (halloc : (calloc m.allocs).1 = true) :
    ∃ events m', mapRehash (mapReput (rounds + 1)) m =
        after ([.rehash, .alloc true] ++ events) (pure (0, m')) ∧
      (∀ e ∈ events, e.Quiet) ∧ m'.Sound ∧ m'.size = m.size + 256 ∧ m'.key = m.key ∧
      m'.allocs = (calloc m.allocs).2 ∧ m'.view = m.view.rehashed := by
  obtain ⟨allocs, hallocs⟩ : ∃ allocs, allocs = (calloc m.allocs).2 := ⟨_, rfl⟩
  have hcalloc := calloc_eq halloc
  rw [← hallocs] at hcalloc ⊢
  have hview := view_grown h allocs hsmall
  have hgrown := MapMem.Sound.grown m allocs
  have hsize : (m.grown allocs).size.toNat = m.size.toNat + 256 := by
    rw [← hgrown.view_size, hview, Map.size_fresh, h.view_size]
  have hfill : (m.grown allocs).view.Filling (m.size.toNat + 256) 0 := by
    rw [hview, ← h.view_size]
    exact .fresh m.view
  have hlen : 0 + (liveEntries (m.grown allocs).key m.data).length < m.size.toNat + 256 := by
    have hle := h.count_le
    have hentries : m.view.entries.length = m.count.toNat := by
      rw [Map.length_entries, ← h.view_count_eq]
      rfl
    rw [show liveEntries (m.grown allocs).key m.data = m.view.entries from (view_entries m).symm,
      hentries]
    omega
  obtain ⟨events, m', hloop, hquiet, hsound, hsize', hkey, hplan, hcopied⟩ :=
    copyLoop_eq rounds hsmall m.data hgrown hsize hfill hlen
  refine ⟨events, m', ?_, hquiet, hsound, hsize', hkey, hplan, ?_⟩
  · have hrounds : (asInt m.size).toNat = m.data.length := by
      rw [asInt_of_lt (by omega), h.length_eq]
      rfl
    rw [mapRehash, hcalloc, hrounds]
    simp only [emit_bind, hloop, after_after, List.cons_append, List.nil_append]
  · rw [hcopied, hview, Map.rehashed, view_entries]
    rfl

omit [DecidableEq A] in
/-- A rehash whose allocation fails. -/
theorem mapRehash_refused (put : MapMem A → UInt32 → A → Op (Put A))
    (halloc : (calloc m.allocs).1 = false) :
    mapRehash put m =
      after [.rehash, .alloc false] (pure (-1, { m with allocs := (calloc m.allocs).2 })) := by
  rw [mapRehash, calloc_eq halloc]
  rfl

/-- What `map_reput` does: it takes a slot, it is refused, or it copies everything into a larger table and
    takes a slot of that. -/
inductive PutOutcome (m : MapMem A) (key : UInt32) (value : A) : Op (Put A) → Prop where
  | placed {idx : Nat} (hroom : m.count ≠ m.size) (hidx : idx < m.size.toNat)
      (hview : m.Exclusive key value → (m.placed idx key value).view = mapPlace m.view key value) :
      PutOutcome m key value
        (after [.hash idx]
          (pure { rc := 0, old := displaced m.view key, map := m.placed idx key value }))
  | refused (hfull : m.count = m.size) (halloc : (calloc m.allocs).1 = false) :
      PutOutcome m key value
        (after [.hash (-1), .rehash, .alloc false]
          (pure { rc := -1, old := none, map := { m with allocs := (calloc m.allocs).2 } }))
  | grown {events : List MapEvent} {t : MapMem A} {idx : Nat} (hfull : m.count = m.size)
      (halloc : (calloc m.allocs).1 = true) (hquiet : ∀ e ∈ events, e.Quiet) (hsound : t.Sound)
      (hsize : t.size = m.size + 256) (hkey : t.key = m.key) (hallocs : t.allocs = (calloc m.allocs).2)
      (ht : t.view = m.view.rehashed)
      (hroom : t.count ≠ t.size) (hidx : idx < t.size.toNat)
      (hview : t.Exclusive key value → (t.placed idx key value).view = mapPlace t.view key value) :
      PutOutcome m key value
        (after ([.hash (-1), .rehash, .alloc true] ++ events ++ [.hash idx])
          (pure { rc := 0, old := displaced t.view key, map := t.placed idx key value }))

/-- Two rounds are enough for `map_reput` as long as the table stays below 2^31 slots. -/
theorem mapReput_outcome (h : m.Sound) (hsmall : m.size.toNat < 2 ^ 31)
    (hgrow : m.count = m.size → (calloc m.allocs).1 = true → m.size.toNat + 256 < 2 ^ 31)
    (rounds : Nat) (key : UInt32) (value : A) :
    PutOutcome m key value (mapReput (rounds + 2) m key value) := by
  by_cases hfull : m.count = m.size
  · have hneg : (-1 : Int) < 0 := by decide
    rw [mapReput, mapHash_full hfull]
    simp only [after_bind, pure_bind, if_pos hneg]
    cases halloc : (calloc m.allocs).1 with
    | false =>
        rw [mapRehash_refused _ halloc]
        simp only [after_bind, pure_bind, if_pos hneg, after_after]
        exact .refused hfull halloc
    | true =>
        have hsmall' := hgrow hfull halloc
        obtain ⟨events, t, hrehash, hquiet, hsound, hsize, hkey, hallocs, ht⟩ :=
          mapRehash_eq h hsmall' rounds halloc
        have hfill := Map.Filling.rehashed m.view
        have hle := m.view.liveCount_le_size
        have hroom : t.count ≠ t.size :=
          hsound.view_room.mp (by rw [ht]; exact hfill.room (by omega))
        have hsizeNat : t.size.toNat = m.size.toNat + 256 := by
          rw [← hsound.view_size, ht, hfill.size_eq, h.view_size]
        obtain ⟨idx, hidx, hput, hview⟩ := mapReput_room hsound (by omega) hroom rounds key value
        rw [hrehash]
        simp only [after_bind, pure_bind, lt_irrefl, if_false, hput, after_after]
        exact .grown hfull halloc hquiet hsound hsize hkey hallocs ht hroom hidx hview
  · obtain ⟨idx, hidx, hput, hview⟩ := mapReput_room h hsmall hfull (rounds + 1) key value
    rw [hput]
    exact .placed hfull hidx hview

end Qrtr.Memory
