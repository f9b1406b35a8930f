/-
Module: Qrtr.Map.Image
Layer: Map
Purpose: The functions of `map.c` look at keys only, never into an item. `Map.image` replaces every item by
  what a function makes of it, and each function of the map commutes with that: a map of pointers works as
  the map of the records they point to. `Map.Apart` says that no item is in two slots; puts of new items
  keep that, and `ReputItems` says which items a put leaves in the table.
Imports: Qrtr.Map.Instances
Main exports: Slot.image, Map.image, Map.image_congr, mapGet_image, mapRemove_image, mapReput_image,
  mapForEach_image, Map.Apart, ReputItems, mapReput_items
Open obligations: none
-/
import Qrtr.Map.Instances

namespace Qrtr

variable {V W : Type}

/-! ### Images -/

/-- The slot with what `f` makes of its item. -/
def Slot.image (f : V → W) : Slot V → Slot W
  | .empty => .empty
  | .deleted => .deleted
  | .item key value => .item key (f value)

/-- The map with what `f` makes of its items. -/
def Map.image (f : V → W) (m : Map V) : Map W := { count := m.count, data := m.data.map (Slot.image f) }

/-- The result of a put with what `f` makes of the items. -/
def PutResult.image (f : V → W) (r : PutResult V) : PutResult W :=
  { rc := r.rc, old := r.old.map f, map := r.map.image f, allocs := r.allocs }

section

variable (f : V → W) (m : Map V)

@[simp] theorem Slot.live?_image (s : Slot V) :
    (s.image f).live? = s.live?.map fun e => (e.1, f e.2) := by
  cases s <;> rfl

@[simp] theorem Map.count_image : (m.image f).count = m.count := rfl

@[simp] theorem Map.size_image : (m.image f).size = m.size := by simp [Map.size, Map.image]

@[simp] theorem Map.slot_image (idx : Nat) : (m.image f).slot idx = (m.slot idx).image f := by
  simp only [Map.slot, Map.image, List.getD, List.getElem?_map]
  cases m.data[idx]? <;> rfl

theorem Map.image_setSlot (idx : Nat) (s : Slot V) :
    (m.setSlot idx s).image f = (m.image f).setSlot idx (s.image f) := by
  simp [Map.setSlot, Map.image, List.map_set]

theorem Map.entries_image : (m.image f).entries = m.entries.map fun e => (e.1, f e.2) := by
  simp only [Map.entries, Map.image, List.filterMap_map, List.map_filterMap]
  refine List.filterMap_congr fun s _ => ?_
  exact Slot.live?_image f s

theorem Map.image_create : (mapCreate : Map V).image f = mapCreate := rfl

end

/-- Only what is made of the items in the map matters. -/
theorem Map.image_congr {f g : V → W} {m : Map V} (h : ∀ k v, m.Holds k v → f v = g v) :
    m.image f = m.image g := by
  simp only [Map.image, Map.mk.injEq, true_and, List.map_inj_left]
  intro s hs
  cases s with
  | empty => rfl
  | deleted => rfl
  | item k v =>
      have hentry : (k, v) ∈ m.entries := List.mem_filterMap.2 ⟨_, hs, rfl⟩
      rw [Slot.image, Slot.image, h k v (Map.mem_entries_iff.1 hentry)]

section

variable {f : V → W} {m : Map V}

theorem Map.slot_image_eq_item {s : Nat} {k : UInt32} {w : W} :
    (m.image f).slot s = .item k w ↔ ∃ v, m.slot s = .item k v ∧ f v = w := by
  rw [Map.slot_image]
  cases m.slot s <;> simp [Slot.image, and_assoc]

theorem Map.slot_image_eq_deleted {s : Nat} : (m.image f).slot s = .deleted ↔ m.slot s = .deleted := by
  rw [Map.slot_image]
  cases m.slot s <;> simp [Slot.image]

/-- Duplicates are duplicates of keys. -/
theorem Map.unique_image : (m.image f).Unique ↔ m.Unique := by
  constructor
  · intro h s t k v w hv hw
    exact h s t k (f v) (f w) (slot_image_eq_item.2 ⟨v, hv, rfl⟩) (slot_image_eq_item.2 ⟨w, hw, rfl⟩)
  · intro h s t k v w hv hw
    obtain ⟨v', hv', -⟩ := slot_image_eq_item.1 hv
    obtain ⟨w', hw', -⟩ := slot_image_eq_item.1 hw
    exact h s t k v' w' hv' hw'

theorem Map.putOk_image {key : UInt32} : (m.image f).PutOk key ↔ m.PutOk key := by
  simp only [Map.PutOk, Map.home, Map.size_image, ne_eq, slot_image_eq_deleted]
  constructor
  · exact fun h s v hv => h s (f v) (slot_image_eq_item.2 ⟨v, hv, rfl⟩)
  · intro h s w hw
    obtain ⟨v, hv, -⟩ := slot_image_eq_item.1 hw
    exact h s v hv

end

/-! ### The functions of the map -/

section

variable (f : V → W)

theorem mapHashLoop_image (m : Map V) (key : UInt32) :
    ∀ steps idx, mapHashLoop (m.image f) key steps idx =
      (mapHashLoop m key steps idx).map fun r => (r.1, r.2.image f)
  | 0, _ => rfl
  | steps + 1, idx => by
      rw [mapHashLoop, mapHashLoop, Map.slot_image]
      cases m.slot idx with
      | empty => rfl
      | deleted => rfl
      | item k v =>
          simp only [Slot.image, Map.size_image]
          split
          · rfl
          · exact mapHashLoop_image m key steps _

theorem mapHash_image (m : Map V) (key : UInt32) :
    mapHash (m.image f) key = (mapHash m key).map fun r => (r.1, r.2.image f) := by
  rw [mapHash, mapHash, Map.count_image, Map.size_image]
  split
  · rfl
  · exact mapHashLoop_image f m key _ _

theorem mapFindLoop_image (m : Map V) (key : UInt32) :
    ∀ steps idx, mapFindLoop (m.image f) key steps idx = mapFindLoop m key steps idx
  | 0, _ => rfl
  | steps + 1, idx => by
      rw [mapFindLoop, mapFindLoop, Map.slot_image, Map.size_image]
      cases m.slot idx with
      | empty => rfl
      | deleted => exact mapFindLoop_image m key steps _
      | item k v =>
          simp only [Slot.image]
          split
          · rfl
          · exact mapFindLoop_image m key steps _

theorem mapFind_image (m : Map V) (key : UInt32) : mapFind (m.image f) key = mapFind m key := by
  rw [mapFind, mapFind, Map.size_image, mapFindLoop_image]

theorem mapGet_image (m : Map V) (key : UInt32) : mapGet (m.image f) key = (mapGet m key).map f := by
  rw [mapGet, mapGet, mapFind_image]
  cases mapFind m key with
  | none => rfl
  | some e =>
      simp only [Map.slot_image, Slot.live?_image, Option.map_map]
      rfl

theorem mapRemove_image (m : Map V) (key : UInt32) :
    (mapRemove (m.image f) key).2 = (mapRemove m key).2.image f := by
  rw [mapRemove, mapRemove, mapFind_image]
  cases mapFind m key with
  | none => rfl
  | some e =>
      have hset := Map.image_setSlot f m e .deleted
      simp only [Slot.image] at hset
      simp only [← hset]
      rfl

theorem mapIterLoop_image (m : Map V) :
    ∀ n i, mapIterLoop (m.image f) n i = mapIterLoop m n i
  | 0, _ => rfl
  | n + 1, i => by
      rw [mapIterLoop, mapIterLoop, Map.slot_image, Slot.live?_image, Option.isSome_map,
        mapIterLoop_image m n]

theorem mapIterFrom_image (m : Map V) (start : Nat) :
    mapIterFrom (m.image f) start = mapIterFrom m start := by
  rw [mapIterFrom, mapIterFrom, Map.size_image, mapIterLoop_image]

theorem mapIterItem_image (m : Map V) (iter : Nat) :
    mapIterItem (m.image f) iter = (mapIterItem m iter).map f := by
  simp only [mapIterItem, Map.slot_image, Slot.live?_image, Option.map_map]
  rfl

theorem mapForEach_image (m : Map V) : mapForEach (m.image f) = (mapForEach m).map f := by
  simp only [mapForEach_eq, Map.entries_image, List.map_map]
  rfl

/-- The iteration of the interface is that of the map. -/
theorem forEach_eq_mapForEach (m : Map V) : MapOps.forEach m = mapForEach m := by
  have hfrom : ∀ n iter, MapOps.forEachFrom m n iter = mapForEachFrom m n iter := by
    intro n
    induction n with
    | zero => exact fun _ => rfl
    | succ n ih =>
        intro iter
        cases iter with
        | none => rfl
        | some me => exact congrArg ((mapIterItem m me).toList ++ ·) (ih _)
  exact hfrom _ _

/-- The copy loop, over puts that commute with images. -/
theorem rehashCopy_image {put : AllocPlan → Map V → UInt32 → V → Option (PutResult V)}
    {put' : AllocPlan → Map W → UInt32 → W → Option (PutResult W)}
    (hput : ∀ allocs m k v, put' allocs (m.image f) k (f v) = (put allocs m k v).map (PutResult.image f)) :
    ∀ (slots : List (Slot V)) (allocs : AllocPlan) (m : Map V),
      rehashCopy put' (slots.map (Slot.image f)) allocs (m.image f) =
        (rehashCopy put slots allocs m).map (PutResult.image f)
  | [], _, _ => rfl
  | .empty :: slots, allocs, m => rehashCopy_image hput slots allocs m
  | .deleted :: slots, allocs, m => rehashCopy_image hput slots allocs m
  | .item k v :: slots, allocs, m => by
      rw [List.map_cons, Slot.image, rehashCopy, rehashCopy, hput]
      cases put allocs m k v with
      | none => rfl
      | some r =>
          simp only [Option.map_some, PutResult.image]
          split
          · rfl
          · exact rehashCopy_image hput slots r.allocs r.map

theorem mapRehash_image {put : AllocPlan → Map V → UInt32 → V → Option (PutResult V)}
    {put' : AllocPlan → Map W → UInt32 → W → Option (PutResult W)}
    (hput : ∀ allocs m k v, put' allocs (m.image f) k (f v) = (put allocs m k v).map (PutResult.image f))
    (allocs : AllocPlan) (m : Map V) :
    mapRehash put' allocs (m.image f) = (mapRehash put allocs m).map (PutResult.image f) := by
  rw [mapRehash, mapRehash]
  rcases calloc allocs with ⟨ok, rest⟩
  cases ok with
  | false => rfl
  | true =>
      have hnew : (⟨0, List.replicate (m.size + 256) .empty⟩ : Map W) =
          (⟨0, List.replicate (m.size + 256) .empty⟩ : Map V).image f := by
        simp [Map.image, Slot.image]
      simp only [Map.size_image, hnew]
      exact rehashCopy_image f hput m.data rest _

theorem mapReputN_image :
    ∀ n allocs (m : Map V) key value, mapReputN n allocs (m.image f) key (f value) =
      (mapReputN n allocs m key value).map (PutResult.image f)
  | 0, _, _, _, _ => rfl
  | n + 1, allocs, m, key, value => by
      rw [mapReputN, mapReputN, mapHash_image]
      cases mapHash m key with
      | ok r =>
          simp only [Except.map, Option.map_some, PutResult.image, Map.slot_image, Slot.live?_image,
            Option.map_map, Map.image_setSlot]
          rfl
      | error e =>
          simp only [Except.map, mapRehash_image f (mapReputN_image n)]
          cases mapRehash (mapReputN n) allocs m with
          | none => rfl
          | some r =>
              simp only [Option.map_some, PutResult.image]
              split
              · rfl
              · exact mapReputN_image n r.allocs r.map key value

/-- A put into the map of pointers is a put into the map of what they point to. -/
theorem mapReput_image (allocs : AllocPlan) (m : Map V) (key : UInt32) (value : V) :
    mapReput allocs (m.image f) key (f value) = (mapReput allocs m key value).image f := by
  rw [mapReput, mapReput, mapReputN_image]
  cases mapReputN 2 allocs m key value <;> rfl

end

/-! ### Items that are in one slot only -/

/-- No item is in two slots. -/
def Map.Apart (m : Map V) : Prop :=
  ∀ i j k l v, m.slot i = .item k v → m.slot j = .item l v → i = j

theorem Map.Apart.create : (mapCreate : Map V).Apart := by
  intro i j k l v hi
  simp [mapCreate, Map.slot] at hi

theorem Map.Apart.remove {m : Map V} (h : m.Apart) (key : UInt32) : (mapRemove m key).2.Apart := by
  rcases mapRemove_cases m key with ⟨-, heq⟩ | ⟨e, v, -, hv, heq⟩
  · rwa [heq]
  · intro i j k l w hi hj
    rw [heq, Map.slot_removed (Map.lt_size_of_item hv)] at hi hj
    split at hi
    · cases hi
    · split at hj
      · cases hj
      · exact h i j k l w hi hj

/-- The slots after a placement: one has the new item, the others what they had. -/
theorem mapPlace_slots {m : Map V} (h : m.Inv) (hroom : m.count ≠ m.size) (key : UInt32) (value : V) :
    ∃ idx, displaced m key = (m.slot idx).live?.map Prod.snd ∧
      ∀ j, (mapPlace m key value).slot j = if j = idx then .item key value else m.slot j := by
  obtain ⟨idx, hidx, -, -, hhash⟩ := mapHash_room h hroom key
  refine ⟨idx, ?_, fun j => ?_⟩
  · rw [displaced, hhash]
    rfl
  · rw [mapPlace, hhash]
    exact Map.slot_place hidx _ _ j

/-- Placing an item that is not there yet. -/
theorem Map.Apart.place {m : Map V} (ha : m.Apart) (h : m.Inv) (hroom : m.count ≠ m.size) (key : UInt32)
    {value : V} (hnew : ∀ k, ¬ m.Holds k value) : (mapPlace m key value).Apart := by
  obtain ⟨idx, -, hslot⟩ := mapPlace_slots h hroom key value
  intro i j k l v hi hj
  rw [hslot] at hi hj
  split at hi
  · split at hj
    · rename_i hi' hj'
      exact hi'.trans hj'.symm
    · cases hi
      exact absurd ⟨j, hj⟩ (hnew l)
  · split at hj
    · cases hj
      exact absurd ⟨i, hi⟩ (hnew k)
    · exact ha i j k l v hi hj

/-- The items of a table whose items are apart, slot by slot, are different. -/
theorem Map.Apart.nodup {m : Map V} (h : m.Apart) : (m.entries.map Prod.snd).Nodup := by
  have hpairs : m.data.Pairwise fun s t => ∀ k l v, s = .item k v → t ≠ .item l v := by
    rw [List.pairwise_iff_getElem]
    intro i j hi hj hlt k l v hs ht
    have heq := h i j k l v (by simp [Map.slot, List.getD, hi, hs]) (by simp [Map.slot, List.getD, hj, ht])
    omega
  rw [List.Nodup, List.pairwise_map, Map.entries, List.pairwise_filterMap]
  refine hpairs.imp fun {s t} hst e he e' he' heq => ?_
  cases s with
  | empty => cases he
  | deleted => cases he
  | item k v =>
      cases t with
      | empty => cases he'
      | deleted => cases he'
      | item l w =>
          cases he
          cases he'
          obtain rfl : v = w := heq
          exact hst k l v rfl rfl

/-- Copying items that are different and not there yet. -/
theorem Map.Filling.apart_foldl {size : Nat} :
    ∀ (es : List (UInt32 × V)) {copied : Nat} {t : Map V}, Filling size copied t → t.Apart →
      copied + es.length ≤ size → (es.map Prod.snd).Nodup →
      (∀ e ∈ es, ∀ k, ¬ t.Holds k e.2) → (es.foldl (fun t e => mapPlace t e.1 e.2) t).Apart
  | [], _, _, _, ha, _, _, _ => ha
  | e :: es, copied, t, hfill, ha, hlen, hnodup, hnew => by
      rw [List.length_cons] at hlen
      rw [List.map_cons, List.nodup_cons] at hnodup
      have hroom := hfill.room (by omega)
      have hnew' := List.forall_mem_cons.1 hnew
      refine Map.Filling.apart_foldl es (hfill.place (by omega) e.1 e.2)
        (ha.place hfill.inv hroom e.1 hnew'.1) (by omega) hnodup.2 fun e' he' k => ?_
      rintro ⟨s, hs⟩
      rcases slot_place_eq_item hfill.inv hroom hs with heq | hold
      · obtain ⟨-, hvalue⟩ := Prod.mk.inj heq
        exact hnodup.1 (List.mem_map.2 ⟨e', he', hvalue⟩)
      · exact hnew'.2 e' he' k ⟨s, hold⟩

theorem Map.Apart.rehashed {m : Map V} (h : m.Apart) : m.rehashed.Apart := by
  refine (Filling.fresh m).apart_foldl m.entries (fun i j k l v hi => ?_) m.length_entries_le h.nodup
    fun e _ k => ?_
  · simp [slot_fresh] at hi
  · rintro ⟨s, hs⟩
    simp [slot_fresh] at hs

/-- What a successful put of a new item does to the items of the table. -/
structure ReputItems (m : Map V) (key : UInt32) (value : V) (r : PutResult V) : Prop where
  inv : r.map.Inv
  apart : r.map.Apart
  put : r.map.Holds key value
  only : ∀ {k v}, r.map.Holds k v → (k, v) = (key, value) ∨ m.Holds k v
  old : ∀ {v}, r.old = some v → (∃ k, m.Holds k v) ∧ ∀ k, ¬ r.map.Holds k v
  /-- Without duplicates the item displaced is the only one that goes. -/
  kept : m.Unique → m.PutOk key → ∀ {k v}, m.Holds k v → r.map.Holds k v ∨ r.old = some v

/-- The part of `map_reput` behind the search for room: the table is the one before or the grown one. -/
theorem mapReput_base {m : Map V} (h : m.Inv) {allocs : AllocPlan} {key : UInt32} {value : V}
    (hrc : (mapReput allocs m key value).rc = 0) :
    ∃ b : Map V, (b = m ∨ m.count = m.size ∧ b = m.rehashed) ∧ b.Inv ∧ b.count ≠ b.size ∧
      (mapReput allocs m key value).map = mapPlace b key value ∧
      (mapReput allocs m key value).old = displaced b key := by
  rw [mapReput_eq h] at hrc ⊢
  by_cases hroom : m.count ≠ m.size
  · rw [if_pos hroom]
    exact ⟨m, Or.inl rfl, h, hroom, rfl, rfl⟩
  · rw [if_neg hroom] at hrc ⊢
    rcases hc : calloc allocs with ⟨ok, rest⟩
    rw [hc] at hrc
    cases ok with
    | false => cases hrc
    | true =>
        have hfill := Map.Filling.rehashed m
        have hle := m.liveCount_le_size
        exact ⟨m.rehashed, Or.inr ⟨not_not.1 hroom, rfl⟩, hfill.inv, hfill.room (by omega), rfl, rfl⟩

theorem mapReput_items {m : Map V} (h : m.Inv) (ha : m.Apart) {allocs : AllocPlan} {key : UInt32}
    {value : V} (hnew : ∀ k, ¬ m.Holds k value) (hrc : (mapReput allocs m key value).rc = 0) :
    ReputItems m key value (mapReput allocs m key value) := by
  obtain ⟨b, hbase, hb, hroom, hmap, hold⟩ := mapReput_base h hrc
  have hholds : ∀ {k v}, b.Holds k v → m.Holds k v := by
    intro k v hkv
    rcases hbase with rfl | ⟨-, rfl⟩
    · exact hkv
    · exact Map.holds_of_rehashed hkv
  have hapart : b.Apart := by
    rcases hbase with rfl | ⟨-, rfl⟩
    · exact ha
    · exact ha.rehashed
  have hbnew : ∀ k, ¬ b.Holds k value := fun k hk => hnew k (hholds hk)
  obtain ⟨idx, hdisplaced, hslot⟩ := mapPlace_slots hb hroom key value
  constructor
  case inv => rw [hmap]; exact hb.place hroom key value
  case apart => rw [hmap]; exact hapart.place hb hroom key hbnew
  case put => rw [hmap]; exact ⟨idx, by rw [hslot, if_pos rfl]⟩
  case only =>
    intro k v hkv
    rw [hmap] at hkv
    obtain ⟨s, hs⟩ := hkv
    rcases slot_place_eq_item hb hroom hs with heq | hs
    · exact Or.inl heq
    · exact Or.inr (hholds ⟨s, hs⟩)
  case old =>
    intro v hv
    rw [hold, hdisplaced] at hv
    obtain ⟨⟨k, v⟩, hlive, rfl⟩ := Option.map_eq_some_iff.1 hv
    have hidx := Map.live_eq_some_iff.1 hlive
    refine ⟨⟨k, hholds ⟨idx, hidx⟩⟩, ?_⟩
    rintro l ⟨s, hs⟩
    rw [hmap, hslot] at hs
    split at hs
    · cases hs
      exact hbnew k ⟨idx, hidx⟩
    · rename_i hne
      exact hne (hapart s idx l k v hs hidx)
  case kept =>
    intro hu hput k v hkv
    obtain ⟨hbu, hbput, hbholds⟩ := Map.putBase hbase hu hput
    rw [hmap, hold, Map.holds_place hb hroom hbu hbput, Map.displaced_eq_some_iff hb hroom hbu hbput]
    by_cases hk : k = key
    · subst hk
      exact Or.inr ((hbholds k v).2 hkv)
    · rw [if_neg hk]
      exact Or.inl ((hbholds k v).2 hkv)

end Qrtr
