/-
Module: Qrtr.Map.FiniteMap
Layer: Map
Purpose: The hash map against the mathematical finite map that `map.h` offers. Both are machines over
  one alphabet of calls. A put of a key that is live behind a tombstone leaves two live items of one
  key, and from there on the answers differ (`map_not_finite_map`); where no put does that, and none
  needs a table of 2^31 slots, the answers are those of the finite map (`map_finite_map`).
Imports: Qrtr.Map.Operations, Qrtr.Foundation.Run
Main exports: MapOp, MapRes, mapStep, finmapStep, MapOp.Sound, map_finite_map, map_not_finite_map
Open obligations: none
-/
import Qrtr.Map.Operations
import Qrtr.Foundation.Run
import Mathlib.Data.Finmap

namespace Qrtr

variable {V : Type}

/-- A call of the map's interface; `iterate` is a full `map_for_each`. -/
inductive MapOp (V : Type) where
  | create
  | put (key : UInt32) (value : V)
  | reput (key : UInt32) (value : V)
  | remove (key : UInt32)
  | clear
  | get (key : UInt32)
  | contains (key : UInt32)
  | length
  | iterate
deriving DecidableEq, Repr

/-- What a call returns. The order in which an iteration or `map_clear` meets the items is left open. -/
inductive MapRes (V : Type) where
  | code (rc : Int)
  | reput (rc : Int) (old : Option V)
  | item (value : Option V)
  | found (found : Bool)
  | length (n : Nat)
  | items (values : Multiset V)

/-- One call of the hash map, all allocations succeeding. -/
def mapStep (m : Map V) : MapOp V → Map V × MapRes V
  | .create => (mapCreate, .code 0)
  | .put key value => let r := mapPut [] m key value; (r.map, .code r.rc)
  | .reput key value => let r := mapReput [] m key value; (r.map, .reput r.rc r.old)
  | .remove key => let r := mapRemove m key; (r.2, .code r.1)
  | .clear => let r := mapClear m; (r.1, .items (r.2 : Multiset V))
  | .get key => (m, .item (mapGet m key))
  | .contains key => (m, .found (mapContains m key))
  | .length => (m, .length (mapLength m))
  | .iterate => (m, .items (mapForEach m : Multiset V))

theorem mapStep_put_map (m : Map V) (key : UInt32) (value : V) :
    (mapStep m (.put key value)).1 = (mapReput [] m key value).map := rfl

/-- One call of the finite map. -/
def finmapStep (f : Finmap fun _ : UInt32 => V) : MapOp V → (Finmap fun _ : UInt32 => V) × MapRes V
  | .create => (∅, .code 0)
  | .put key value => (f.insert key value, .code 0)
  | .reput key value => (f.insert key value, .reput 0 (f.lookup key))
  | .remove key => (f.erase key, .code (if (f.lookup key).isSome then 0 else 1))
  | .clear => (∅, .items (f.entries.map Sigma.snd))
  | .get key => (f, .item (f.lookup key))
  | .contains key => (f, .found (f.lookup key).isSome)
  | .length => (f, .length f.keys.card)
  | .iterate => (f, .items (f.entries.map Sigma.snd))

/-- The condition under which a call does what the finite map does: a put finds no tombstone on the
    walk ahead of a live item of its key; its item, whose key the put overwrites, is not in the map
    under another key; and it does not extend the table to 2^31 slots, which an `int` cannot count. -/
def MapOp.Sound (m : Map V) : MapOp V → Prop
  | .put key value | .reput key value =>
      m.PutOk key ∧ (∀ k, m.Holds k value → k = key) ∧ (m.count = m.size → m.size + 256 < 2 ^ 31)
  | _ => True

/-! ### The finite map a table stands for -/

/-- The live entries as a list of dependent pairs. -/
def Map.sigmaEntries (m : Map V) : List (Σ _ : UInt32, V) := m.entries.map fun e => ⟨e.1, e.2⟩

theorem Map.Unique.nodupKeys {m : Map V} (hu : m.Unique) : m.sigmaEntries.NodupKeys := by
  rw [List.nodupKeys_iff_pairwise, Map.sigmaEntries, List.pairwise_map, Map.entries,
    List.pairwise_filterMap, List.pairwise_iff_getElem]
  intro i j hi hj hij a ha b hb hkeys
  have hslot : ∀ (l : Nat) (hl : l < m.data.length) (e : UInt32 × V),
      (m.data[l]).live? = some e → m.slot l = .item e.1 e.2 := by
    intro l hl e he
    have : m.slot l = m.data[l] := by simp [Map.slot, List.getD, hl]
    rw [this]
    cases hd : m.data[l] <;> simp [hd, Slot.live?] at he
    rw [← he]
  have hsi := hslot i hi a ha
  have hsj := hslot j hj b hb
  simp only at hkeys
  rw [← hkeys] at hsj
  have := hu i j _ _ _ hsi hsj
  omega

/-- The finite map a table without duplicates stands for. -/
def Map.toFinmap (m : Map V) (hu : m.Unique) : Finmap fun _ : UInt32 => V :=
  ⟨(m.sigmaEntries : Multiset (Σ _ : UInt32, V)), Multiset.coe_nodupKeys.2 hu.nodupKeys⟩

theorem Map.lookup_toFinmap {m : Map V} (hu : m.Unique) (k : UInt32) (v : V) :
    (m.toFinmap hu).lookup k = some v ↔ m.Holds k v := by
  rw [Finmap.lookup_eq_some_iff, ← Map.mem_entries_iff]
  simp [Map.toFinmap, Map.sigmaEntries]

/-- A table represents a finite map: it keeps the invariants, an `int` can count its slots, and it holds
    the map's entries. -/
structure Map.Represents (m : Map V) (f : Finmap fun _ : UInt32 => V) : Prop where
  inv : m.Inv
  unique : m.Unique
  small : m.size < 2 ^ 31
  holds : ∀ k v, m.Holds k v ↔ f.lookup k = some v

namespace Map.Represents

variable {m : Map V} {f : Finmap fun _ : UInt32 => V}

theorem eq_toFinmap (h : m.Represents f) : f = m.toFinmap h.unique := by
  apply Finmap.ext_lookup
  intro k
  apply Option.ext
  intro v
  show f.lookup k = some v ↔ (m.toFinmap h.unique).lookup k = some v
  rw [Map.lookup_toFinmap, h.holds]

theorem items_eq (h : m.Represents f) :
    f.entries.map Sigma.snd = ((m.entries.map Prod.snd : List V) : Multiset V) := by
  rw [h.eq_toFinmap]
  simp [Map.toFinmap, Map.sigmaEntries, Function.comp_def]

theorem card_eq (h : m.Represents f) : f.keys.card = m.count := by
  rw [h.eq_toFinmap, h.inv.count_eq, ← Map.length_entries]
  simp [Finmap.keys, Map.toFinmap, Map.sigmaEntries, Multiset.keys]

theorem lookup_eq (h : m.Represents f) (key : UInt32) : f.lookup key = mapGet m key := by
  apply Option.ext
  intro v
  show f.lookup key = some v ↔ mapGet m key = some v
  rw [mapGet_eq_some_iff h.inv h.unique, h.holds]

theorem lookup_isSome (h : m.Represents f) (key : UInt32) :
    (f.lookup key).isSome = mapContains m key := by
  rw [Bool.eq_iff_iff, mapContains_iff h.inv, Option.isSome_iff_exists]
  simp only [h.holds]

theorem create : (mapCreate : Map V).Represents ∅ where
  inv := .create
  unique := .create
  small := Nat.two_pow_pos 31
  holds k v := by simp [Map.not_holds_create]

theorem clear (h : m.Represents f) : (mapClear m).1.Represents ∅ where
  inv := .clear m
  unique := .clear m
  small := by
    rw [Map.size, mapClear, List.length_map]
    exact h.small
  holds k v := by simp [Map.not_holds_clear]

/-- A sound put inserts into the finite map and reports the entry it displaces. -/
theorem put (h : m.Represents f) {key : UInt32} {value : V} {r : PutResult V}
    (hr : PutSpec m key value r) (hsmall : r.map.size < 2 ^ 31) :
    r.old = f.lookup key ∧ r.map.Represents (f.insert key value) := by
  refine ⟨?_, hr.inv, hr.unique, hsmall, ?_⟩
  · apply Option.ext
    intro w
    show r.old = some w ↔ f.lookup key = some w
    rw [hr.old_eq, h.holds]
  · intro k v
    rw [hr.holds]
    by_cases hk : k = key
    · subst hk
      simp [eq_comm]
    · rw [if_neg hk, Finmap.lookup_insert_of_ne _ hk, h.holds]

/-- A removal erases from the finite map. -/
theorem remove (h : m.Represents f) (key : UInt32) :
    (mapRemove m key).2.Represents (f.erase key) where
  inv := h.inv.remove key
  unique := h.unique.remove h.inv key
  small := by
    rw [Map.size_mapRemove]
    exact h.small
  holds k v := by
    rw [Map.holds_mapRemove h.inv h.unique, h.holds]
    by_cases hk : k = key
    · subst hk
      simp
    · simp [hk, Finmap.lookup_erase_ne hk]

theorem remove_code (h : m.Represents f) (key : UInt32) :
    (mapRemove m key).1 = if (f.lookup key).isSome then 0 else 1 := by
  rw [h.lookup_isSome, mapContains, mapRemove]
  cases mapFind m key <;> rfl

/-- A put that need not extend the table too far. -/
theorem small_mapReput (h : m.Represents f) (key : UInt32) (value : V)
    (hgrow : m.count = m.size → m.size + 256 < 2 ^ 31) : (mapReput [] m key value).map.size < 2 ^ 31 := by
  rcases size_mapReput h.inv [] key value with hsame | ⟨hfull, hmore⟩
  · rw [hsame]
    exact h.small
  · rw [hmore]
    exact hgrow hfull

/-- One sound call answers as the finite map does and keeps the table its representation. -/
theorem step (h : m.Represents f) (op : MapOp V) (hop : op.Sound m) :
    (mapStep m op).2 = (finmapStep f op).2 ∧
      (mapStep m op).1.Represents (finmapStep f op).1 := by
  cases op with
  | create => exact ⟨rfl, create⟩
  | put key value =>
      obtain ⟨hput, -, hgrow⟩ := hop
      have hr := mapReput_spec h.inv h.unique hput value
      have hsmall := h.small_mapReput key value hgrow
      exact ⟨by simp [mapStep, finmapStep, mapPut, hr.rc_eq], (h.put hr hsmall).2⟩
  | reput key value =>
      obtain ⟨hput, -, hgrow⟩ := hop
      have hr := mapReput_spec h.inv h.unique hput value
      have hsmall := h.small_mapReput key value hgrow
      exact ⟨by simp [mapStep, finmapStep, hr.rc_eq, (h.put hr hsmall).1], (h.put hr hsmall).2⟩
  | remove key =>
      exact ⟨by simp [mapStep, finmapStep, h.remove_code], h.remove key⟩
  | clear =>
      refine ⟨?_, h.clear⟩
      simp only [mapStep, finmapStep, h.items_eq, mapClear, Map.entries]
      rw [List.map_filterMap]
  | get key => exact ⟨by simp [mapStep, finmapStep, h.lookup_eq], h⟩
  | contains key => exact ⟨by simp [mapStep, finmapStep, h.lookup_isSome], h⟩
  | length => exact ⟨by simp [mapStep, finmapStep, mapLength, h.card_eq], h⟩
  | iterate => exact ⟨by simp [mapStep, finmapStep, h.items_eq, mapForEach_eq], h⟩

end Map.Represents

/-- Along every run whose puts are sound the hash map answers as the finite map does. -/
theorem map_finite_map (ops : List (MapOp V))
    (hops : Run.Guarded (fun m op => op.Sound m) mapStep mapCreate ops) :
    Run.outputs mapStep mapCreate ops = Run.outputs finmapStep ∅ ops :=
  Run.Guarded.outputs_eq (fun _ _ op hrel hop => Map.Represents.step hrel op hop)
    Map.Represents.create hops

/-- A run that replaces a live item and removes it: the second put meets no tombstone. -/
theorem map_finite_map_replace :
    Run.outputs mapStep mapCreate [.put 5 10, .reput 5 11, .remove 5, .get (5 : UInt32)] =
      Run.outputs finmapStep (∅ : Finmap fun _ : UInt32 => Nat)
        [.put 5 10, .reput 5 11, .remove 5, .get 5] := by
  have hput : (mapCreate : Map Nat).PutOk 5 :=
    Map.putOk_of_not_holds fun w => Map.not_holds_create 5 w
  have hfirst : PutSpec mapCreate 5 10 (mapReput [] (mapCreate : Map Nat) 5 10) :=
    mapReput_spec .create .create hput 10
  have hown : ∀ k, (mapReput [] (mapCreate : Map Nat) 5 10).map.Holds k 11 → k = 5 := by
    intro k hk
    rw [hfirst.holds] at hk
    split at hk
    · assumption
    · exact absurd hk (Map.not_holds_create k 11)
  have hsize : (mapReput [] (mapCreate : Map Nat) 5 10).map.size + 256 < 2 ^ 31 := by
    rcases size_mapReput (m := (mapCreate : Map Nat)) .create [] 5 10 with hsame | ⟨-, hmore⟩
    · rw [hsame]
      decide
    · rw [hmore]
      decide
  refine map_finite_map _ ⟨⟨hput, ?_, fun _ => by decide⟩, ?_, trivial, trivial, trivial⟩
  · exact fun k hk => absurd hk (Map.not_holds_create k 10)
  · rw [mapStep_put_map]
    exact ⟨(hfirst.clean .create).putOk 5, hown, fun _ => hsize⟩

/-- The call sequence that tells the two apart. The keys 0 and 256 share their home in a table of 256
    slots; removing 0 leaves a tombstone ahead of the item of 256, and the second put of 256 takes the
    tombstone. After the removal of 256 the first item put under it is still found. -/
def tombstoneRun : List (MapOp Nat) :=
  [.put 0 10, .put 256 11, .remove 0, .reput 256 12, .length, .remove 256, .get 256]

set_option maxRecDepth 4000 in
/-- The hash map is not a finite map on every run: `map_reput` misses the item it should displace, the
    length counts the key twice, and the key survives its removal. -/
theorem map_not_finite_map :
    Run.outputs mapStep mapCreate tombstoneRun ≠ Run.outputs finmapStep ∅ tombstoneRun := by
  have hmap : Run.outputs mapStep mapCreate tombstoneRun =
      [.code 0, .code 0, .code 0, .reput 0 none, .length 2, .code 0, .item (some 11)] := by rfl
  have hfinmap : Run.outputs finmapStep ∅ tombstoneRun =
      [.code 0, .code 0, .code 0, .reput 0 (some 11), .length 1, .code 0, .item none] := by rfl
  rw [hmap, hfinmap]
  simp

end Qrtr
