/-
Module: Qrtr.Map.FiniteTable
Layer: Map
Purpose: The finite map that `map.h` offers, as a table behind its interface: a put replaces the item of
  its key wherever that is. `ReplacingMap` says so of a table, and a row of slots is one: a put writes over
  the slot of its key or adds one at the end, and a removal leaves an empty slot.
Imports: Qrtr.Map.Interface
Main exports: ReplacingMap, SlotRow, SlotRow.pos_eq_none, SlotRow.get_eq_some, SlotRow.put_cases
Open obligations: none
-/
import Qrtr.Map.Interface
import Mathlib.Data.List.GetD

namespace Qrtr

/-- A table whose puts always meet the item that they have to replace. -/
class ReplacingMap (T : Type) (V : outParam Type) [MapOps T V] extends LawfulMap T V where
  putOk : ∀ (t : T) (k : UInt32), LawfulMap.PutOk t k

/-- A row of slots, each with a key and an item or empty. -/
structure SlotRow (V : Type) where
  row : List (Option (UInt32 × V))

namespace SlotRow

variable {V : Type}

/-- The slot at a position. -/
def slot (t : SlotRow V) (i : Nat) : Option (UInt32 × V) := t.row.getD i none

/-- The slot holds the key. -/
def holds (key : UInt32) (s : Option (UInt32 × V)) : Bool := s.any fun e => e.1 == key

/-- The position of a key. -/
def pos (t : SlotRow V) (key : UInt32) : Option Nat := t.row.findIdx? (holds key)

/-- The item of a key. -/
def get (t : SlotRow V) (key : UInt32) : Option V :=
  match t.pos key with
  | none => none
  | some i => (t.slot i).map Prod.snd

/-- The row with an item under a key. -/
def put (t : SlotRow V) (key : UInt32) (value : V) : SlotRow V :=
  match t.pos key with
  | none => ⟨t.row ++ [some (key, value)]⟩
  | some i => ⟨t.row.set i (some (key, value))⟩

/-- The row without a key. -/
def remove (t : SlotRow V) (key : UInt32) : SlotRow V :=
  match t.pos key with
  | none => t
  | some i => ⟨t.row.set i none⟩

/-- The first position from `start` on with an item. -/
def iterFrom (t : SlotRow V) (start : Nat) : Option Nat :=
  (List.range t.row.length).find? fun i => decide (start ≤ i) && (t.slot i).isSome

/-! ### Positions -/

theorem lt_of_slot {t : SlotRow V} {i : Nat} {e : UInt32 × V} (h : t.slot i = some e) :
    i < t.row.length := by
  by_contra hge
  rw [slot, List.getD_eq_default _ _ (Nat.not_lt.1 hge)] at h
  cases h

theorem slot_eq_getElem {t : SlotRow V} {i : Nat} (h : i < t.row.length) : t.slot i = t.row[i] :=
  List.getD_eq_getElem _ _ h

theorem holds_iff {key : UInt32} {s : Option (UInt32 × V)} :
    holds key s = true ↔ ∃ v, s = some (key, v) := by
  cases s with
  | none => simp [holds]
  | some e =>
      obtain ⟨k, v⟩ := e
      simp [holds]

theorem pos_eq_some {t : SlotRow V} {key : UInt32} {i : Nat} (h : t.pos key = some i) :
    ∃ v, t.slot i = some (key, v) := by
  obtain ⟨hlt, hholds, -⟩ := List.findIdx?_eq_some_iff_getElem.1 h
  rw [slot_eq_getElem hlt]
  exact holds_iff.1 hholds

theorem pos_eq_none {t : SlotRow V} {key : UInt32} (h : t.pos key = none) (i : Nat) (v : V) :
    t.slot i ≠ some (key, v) := by
  intro hslot
  have hlt := lt_of_slot hslot
  rw [slot_eq_getElem hlt] at hslot
  have hnot := List.findIdx?_eq_none_iff.1 h _ (List.getElem_mem hlt)
  rw [hslot, holds_iff.2 ⟨v, rfl⟩] at hnot
  cases hnot

theorem slot_set {t : SlotRow V} {i : Nat} (h : i < t.row.length) (s : Option (UInt32 × V)) (j : Nat) :
    slot ⟨t.row.set i s⟩ j = if j = i then s else t.slot j := by
  rw [slot, slot, List.getD_eq_getElem?_getD, List.getD_eq_getElem?_getD, List.getElem?_set]
  by_cases hj : j = i
  · subst hj
    rw [if_pos rfl, if_pos rfl, if_pos h]
    rfl
  · rw [if_neg (Ne.symm hj), if_neg hj]

theorem slot_append (t : SlotRow V) (s : Option (UInt32 × V)) (j : Nat) :
    slot ⟨t.row ++ [s]⟩ j = if j = t.row.length then s else t.slot j := by
  rw [slot, slot, List.getD_eq_getElem?_getD, List.getD_eq_getElem?_getD, List.getElem?_append]
  by_cases hj : j = t.row.length
  · subst hj
    simp
  · rw [if_neg hj]
    by_cases hlt : j < t.row.length
    · rw [if_pos hlt]
    · obtain ⟨n, hn⟩ : ∃ n, j - t.row.length = n + 1 := ⟨j - t.row.length - 1, by omega⟩
      rw [if_neg hlt, hn, List.getElem?_eq_none (Nat.not_lt.1 hlt)]
      rfl

/-! ### Keys apart -/

/-- No key is in two slots. -/
def Apart (t : SlotRow V) : Prop :=
  ∀ i j k v w, t.slot i = some (k, v) → t.slot j = some (k, w) → i = j

theorem get_eq_some {t : SlotRow V} (h : t.Apart) {key : UInt32} {v : V} :
    t.get key = some v ↔ ∃ i, t.slot i = some (key, v) := by
  rw [get]
  cases hpos : t.pos key with
  | none => exact iff_of_false nofun fun ⟨i, hi⟩ => pos_eq_none hpos i v hi
  | some i =>
      obtain ⟨w, hw⟩ := pos_eq_some hpos
      simp only [hw, Option.map_some, Option.some.injEq]
      constructor
      · rintro rfl
        exact ⟨i, hw⟩
      · rintro ⟨j, hj⟩
        have hij := h i j key w v hw hj
        subst hij
        rw [hw] at hj
        cases hj
        rfl

/-- A put writes one slot, which held the key or, if no slot did, nothing. -/
theorem put_cases (t : SlotRow V) (key : UInt32) (value : V) :
    ∃ i, (∀ j, (t.put key value).slot j = if j = i then some (key, value) else t.slot j) ∧
      ((∃ w, t.slot i = some (key, w)) ∨ t.slot i = none ∧ ∀ j w, t.slot j ≠ some (key, w)) := by
  rw [put]
  cases hpos : t.pos key with
  | none =>
      refine ⟨t.row.length, t.slot_append _, Or.inr ⟨?_, pos_eq_none hpos⟩⟩
      exact List.getD_eq_default _ _ (Nat.le_refl _)
  | some i =>
      obtain ⟨w, hw⟩ := pos_eq_some hpos
      exact ⟨i, slot_set (lt_of_slot hw) _, Or.inl ⟨w, hw⟩⟩

theorem Apart.put {t : SlotRow V} (h : t.Apart) (key : UInt32) (value : V) : (t.put key value).Apart := by
  obtain ⟨p, hslot, hp⟩ := t.put_cases key value
  have helse : ∀ i v, i ≠ p → t.slot i ≠ some (key, v) := by
    intro i v hip hi
    rcases hp with ⟨w, hw⟩ | ⟨-, habs⟩
    · exact hip (h i p key v w hi hw)
    · exact habs i v hi
  intro i j k v w hi hj
  rw [hslot] at hi hj
  split at hi <;> split at hj
  · rename_i hip hjp
    rw [hip, hjp]
  · rename_i hjp
    cases hi
    exact absurd hj (helse j w hjp)
  · rename_i hip _
    cases hj
    exact absurd hi (helse i v hip)
  · exact h i j k v w hi hj

/-- A removal of a key that is there empties its slot. -/
theorem remove_cases {t : SlotRow V} {key : UInt32} {i : Nat} (h : t.pos key = some i) (j : Nat) :
    (t.remove key).slot j = if j = i then none else t.slot j := by
  obtain ⟨w, hw⟩ := pos_eq_some h
  rw [remove, h]
  exact slot_set (lt_of_slot hw) none j

theorem slot_of_remove {t : SlotRow V} {key : UInt32} {i : Nat} {e : UInt32 × V}
    (h : (t.remove key).slot i = some e) : t.slot i = some e := by
  cases hpos : t.pos key with
  | none => rwa [remove, hpos] at h
  | some p =>
      rw [remove_cases hpos] at h
      split at h
      · cases h
      · exact h

theorem Apart.remove {t : SlotRow V} (h : t.Apart) (key : UInt32) : (t.remove key).Apart :=
  fun i j k v w hi hj => h i j k v w (slot_of_remove hi) (slot_of_remove hj)

theorem iterFrom_eq_some_iff {t : SlotRow V} {start j : Nat} : t.iterFrom start = some j ↔
    start ≤ j ∧ t.slot j ≠ none ∧ ∀ l, start ≤ l → l < j → t.slot l = none := by
  have hfind : t.iterFrom start = some j ↔ _ := List.find?_range_eq_some
  rw [hfind]
  simp only [Bool.and_eq_true, decide_eq_true_eq, Bool.not_eq_true', Bool.and_eq_false_iff,
    decide_eq_false_iff_not, Option.isSome_iff_ne_none, List.mem_range, Option.isSome_eq_false_iff,
    Option.isNone_iff_eq_none]
  constructor
  · rintro ⟨⟨hle, hlive⟩, -, hbefore⟩
    exact ⟨hle, hlive, fun l hl hlt => (hbefore l hlt).resolve_left (not_not.2 hl)⟩
  · rintro ⟨hle, hlive, hbefore⟩
    obtain ⟨e, he⟩ := Option.ne_none_iff_exists'.1 hlive
    exact ⟨⟨hle, hlive⟩, lt_of_slot he, fun l hlt => or_iff_not_imp_left.2 fun hl =>
      hbefore l (not_not.1 hl) hlt⟩

end SlotRow

/-! ### The row as a table -/

variable {V : Type}

instance : MapOps (SlotRow V) V where
  create := ⟨[]⟩
  get := SlotRow.get
  reput plan t key value := { rc := 0, table := t.put key value, allocs := plan }
  remove := SlotRow.remove
  iterFirst t := t.iterFrom 0
  iterNext t i := t.iterFrom (i + 1)
  iterItem t i := (t.slot i).map Prod.snd
  bound t := t.row.length

instance : ReplacingMap (SlotRow V) V where
  live := SlotRow.slot
  Ok := SlotRow.Apart
  PutOk _ _ := True
  putOk _ _ := trivial
  ok_create _ _ _ _ _ hi := nomatch hi
  live_create _ := rfl
  lt_bound := SlotRow.lt_of_slot
  iterFirst_eq_some_iff {t j} := by
    have hiter : t.iterFrom 0 = some j ↔ _ := SlotRow.iterFrom_eq_some_iff
    change t.iterFrom 0 = some j ↔ _
    simpa using hiter
  iterNext_eq_some_iff := SlotRow.iterFrom_eq_some_iff
  iterItem_eq _ _ := rfl
  live_of_get h := (SlotRow.get_eq_some h).1
  not_live_of_get {t k} h hnone i v hi := by
    have hsome := (SlotRow.get_eq_some h).2 ⟨i, hi⟩
    exact nomatch hnone.symm.trans hsome
  ok_remove key h := h.remove key
  bound_remove t key := by
    change (t.remove key).row.length = t.row.length
    rw [SlotRow.remove]
    split
    · rfl
    · exact List.length_set
  live_remove {t k v} h hget := by
    change t.get k = some v at hget
    rw [SlotRow.get] at hget
    cases hpos : t.pos k with
    | none =>
        rw [hpos] at hget
        cases hget
    | some i =>
        obtain ⟨w, hw⟩ := SlotRow.pos_eq_some hpos
        rw [hpos] at hget
        simp only [hw, Option.map_some, Option.some.injEq] at hget
        subst hget
        exact ⟨i, hw, SlotRow.remove_cases hpos⟩
  get_remove_ne {t k k'} h hne := by
    apply Option.ext
    intro v
    change (t.remove k).get k' = some v ↔ t.get k' = some v
    rw [SlotRow.get_eq_some (h.remove k), SlotRow.get_eq_some h]
    apply exists_congr
    intro i
    refine ⟨SlotRow.slot_of_remove, fun hi => ?_⟩
    cases hpos : t.pos k with
    | none => rwa [SlotRow.remove, hpos]
    | some p =>
        obtain ⟨w, hw⟩ := SlotRow.pos_eq_some hpos
        rw [SlotRow.remove_cases hpos, if_neg, hi]
        rintro rfl
        rw [hw] at hi
        cases hi
        exact hne rfl
  ok_reput _ k v h := h.put k v
  reput_fails _ hrc := absurd rfl hrc
  allocs_reput _ _ _ := rfl
  live_reput {t a k v i e} _ _ hi := by
    obtain ⟨p, hslot, -⟩ := t.put_cases k v
    change (t.put k v).slot i = some e at hi
    rw [hslot] at hi
    split at hi
    · cases hi
      exact Or.inl rfl
    · exact Or.inr ⟨i, hi⟩
  get_reput {t a k v} h _ := by
    obtain ⟨p, hslot, -⟩ := t.put_cases k v
    exact (SlotRow.get_eq_some (h.put k v)).2 ⟨p, by rw [hslot, if_pos rfl]⟩
  putOk_of_absent _ := trivial
  single_reput h _ _ _ := h.put _ _
  live_reput_ne {t a k v k' w} _ _ _ _ hne hj := by
    obtain ⟨p, hslot, hp⟩ := t.put_cases k v
    obtain ⟨j, hj⟩ := hj
    refine ⟨j, ?_⟩
    change (t.put k v).slot j = _
    rw [hslot, if_neg, hj]
    rintro rfl
    rcases hp with ⟨x, hx⟩ | ⟨hnone, -⟩
    · rw [hx] at hj
      cases hj
      exact hne rfl
    · rw [hnone] at hj
      cases hj

end Qrtr
