/-
Module: Qrtr.Foundation.RecordHeap
Layer: Foundation
Purpose: Records that are allocated and freed. A heap gives every address out once, so that whoever keeps a
  pointer to a freed record does not find another one there: an access to a record that is not live has no
  result, and so has freeing it a second time.
Imports: Mathlib.Logic.Function.Basic
Main exports: RecordHeap, RecordHeap.alloc, RecordHeap.put, RecordHeap.drop, RecordHeap.dropAll,
  RecordHeap.free, RecordHeap.select, RecordHeap.Bounded
Open obligations: none
-/
import Mathlib.Logic.Function.Basic

namespace Qrtr

/-- The live records by their addresses, and the first address that has not been given out. -/
structure RecordHeap (R : Type) where
  cells : Nat → Option R
  fresh : Nat

namespace RecordHeap

variable {R : Type}

/-- The heap before anything is allocated. -/
def empty : RecordHeap R := ⟨fun _ => none, 0⟩

/-- A new record, at the address `fresh`. -/
def alloc (h : RecordHeap R) (r : R) : RecordHeap R where
  cells := Function.update h.cells h.fresh (some r)
  fresh := h.fresh + 1

/-- Another record at an address. -/
def put (h : RecordHeap R) (a : Nat) (r : R) : RecordHeap R :=
  { h with cells := Function.update h.cells a (some r) }

/-- No record at an address any more. -/
def drop (h : RecordHeap R) (a : Nat) : RecordHeap R :=
  { h with cells := Function.update h.cells a none }

/-- No record at any of the addresses any more. -/
def dropAll (h : RecordHeap R) (as : List Nat) : RecordHeap R :=
  { h with cells := fun b => if b ∈ as then none else h.cells b }

/-- `free` of a live record. -/
def free (h : RecordHeap R) (a : Nat) : Option (RecordHeap R) :=
  if (h.cells a).isSome then some (h.drop a) else none

/-- What a function tells of the live records, such as those of one kind. -/
def select {X : Type} (h : RecordHeap R) (f : R → Option X) (a : Nat) : Option X := (h.cells a).bind f

/-- Only addresses that have been given out hold records. -/
def Bounded (h : RecordHeap R) : Prop := ∀ a r, h.cells a = some r → a < h.fresh

variable {h : RecordHeap R} {a b : Nat} {r s : R}

theorem cells_alloc (h : RecordHeap R) (r : R) (b : Nat) :
    (h.alloc r).cells b = if b = h.fresh then some r else h.cells b := by
  simp only [alloc, Function.update_apply]

theorem cells_put (h : RecordHeap R) (a : Nat) (r : R) (b : Nat) :
    (h.put a r).cells b = if b = a then some r else h.cells b := by
  simp only [put, Function.update_apply]

theorem cells_drop (h : RecordHeap R) (a b : Nat) :
    (h.drop a).cells b = if b = a then none else h.cells b := by
  simp only [drop, Function.update_apply]

@[simp] theorem dropAll_nil (h : RecordHeap R) : h.dropAll [] = h := by
  simp only [dropAll, List.not_mem_nil, if_false]

theorem dropAll_cons (h : RecordHeap R) (a : Nat) (as : List Nat) :
    h.dropAll (a :: as) = (h.drop a).dropAll as := by
  simp only [dropAll, drop, mk.injEq, and_true]
  funext b
  by_cases has : b ∈ as
  · rw [if_pos has, if_pos (List.mem_cons_of_mem _ has)]
  · rw [if_neg has, Function.update_apply]
    simp only [List.mem_cons, has, or_false]

theorem dropAll_append (h : RecordHeap R) (as bs : List Nat) :
    h.dropAll (as ++ bs) = (h.dropAll as).dropAll bs := by
  simp only [dropAll, mk.injEq, and_true]
  funext b
  by_cases hbs : b ∈ bs
  · rw [if_pos hbs, if_pos (List.mem_append_right _ hbs)]
  · simp only [List.mem_append, hbs, or_false, if_false]

theorem select_dropAll {X : Type} (f : R → Option X) {as : List Nat} (hb : b ∉ as) :
    (h.dropAll as).select f b = h.select f b := by
  simp only [select, dropAll, if_neg hb]

@[simp] theorem fresh_put (h : RecordHeap R) (a : Nat) (r : R) : (h.put a r).fresh = h.fresh := rfl

@[simp] theorem fresh_drop (h : RecordHeap R) (a : Nat) : (h.drop a).fresh = h.fresh := rfl

/-- Assigning the record that is there. -/
theorem put_eq_self (hlive : h.cells a = some r) : h.put a r = h := by
  rw [put, ← hlive, Function.update_eq_self]

theorem free_eq (hlive : h.cells a = some s) : h.free a = some (h.drop a) := by
  rw [free, hlive]
  rfl

section

variable {X : Type} (f : R → Option X)

theorem select_alloc (h : RecordHeap R) (r : R) :
    (h.alloc r).select f = Function.update (h.select f) h.fresh (f r) := by
  funext b
  rw [select, cells_alloc, Function.update_apply]
  split <;> rfl

theorem select_put (h : RecordHeap R) (a : Nat) (r : R) :
    (h.put a r).select f = Function.update (h.select f) a (f r) := by
  funext b
  rw [select, cells_put, Function.update_apply]
  split <;> rfl

theorem select_drop (h : RecordHeap R) (a : Nat) :
    (h.drop a).select f = Function.update (h.select f) a none := by
  funext b
  rw [select, cells_drop, Function.update_apply]
  split <;> rfl

/-- A change of a record that the function does not see, before and after. -/
theorem select_put_of_none (hnone : h.select f a = none) (hr : f r = none) :
    (h.put a r).select f = h.select f := by
  rw [select_put, hr, ← hnone, Function.update_eq_self]

theorem select_drop_of_none (hnone : h.select f a = none) : (h.drop a).select f = h.select f := by
  rw [select_drop, ← hnone, Function.update_eq_self]

end

theorem Bounded.cells_fresh (hb : h.Bounded) : h.cells h.fresh = none :=
  Option.eq_none_iff_forall_not_mem.2 fun r hr => Nat.lt_irrefl _ (hb _ r hr)

theorem Bounded.select_fresh (hb : h.Bounded) {X : Type} (f : R → Option X) :
    h.select f h.fresh = none := by
  rw [select, hb.cells_fresh]
  rfl

/-- A new record that the function does not see. -/
theorem Bounded.select_alloc_of_none (hb : h.Bounded) {X : Type} {f : R → Option X} (hr : f r = none) :
    (h.alloc r).select f = h.select f := by
  rw [select_alloc, hr, ← hb.select_fresh f, Function.update_eq_self]

/-- A new record that is freed at once. -/
theorem Bounded.select_drop_alloc (hb : h.Bounded) {X : Type} (f : R → Option X) (r : R) :
    ((h.alloc r).drop h.fresh).select f = h.select f := by
  rw [select_drop, select_alloc, Function.update_idem, ← hb.select_fresh f, Function.update_eq_self]

/-- A new record that is assigned to at once. -/
theorem select_put_alloc (h : RecordHeap R) {X : Type} (f : R → Option X) (r s : R) :
    ((h.alloc r).put h.fresh s).select f = Function.update (h.select f) h.fresh (f s) := by
  rw [select_put, select_alloc, Function.update_idem]

theorem Bounded.select_put_alloc_of_none (hb : h.Bounded) {X : Type} {f : R → Option X} {r s : R}
    (hs : f s = none) : ((h.alloc r).put h.fresh s).select f = h.select f := by
  rw [select_put_alloc, hs, ← hb.select_fresh f, Function.update_eq_self]

@[simp] theorem cells_alloc_fresh (h : RecordHeap R) (r : R) : (h.alloc r).cells h.fresh = some r := by
  rw [cells_alloc, if_pos rfl]

/-- The address of a new record is not that of a live one. -/
theorem Bounded.ne_fresh (hb : h.Bounded) (hlive : h.cells a = some r) : a ≠ h.fresh :=
  Nat.ne_of_lt (hb a r hlive)

theorem Bounded.cells_alloc_of_live (hb : h.Bounded) (hlive : h.cells a = some r) (s : R) :
    (h.alloc s).cells a = some r := by
  rw [cells_alloc, if_neg (hb.ne_fresh hlive), hlive]

theorem Bounded.empty : (empty : RecordHeap R).Bounded := by
  intro a r hlive
  cases hlive

theorem Bounded.alloc (hb : h.Bounded) (r : R) : (h.alloc r).Bounded := by
  intro a s hlive
  rw [cells_alloc] at hlive
  split at hlive
  · exact Nat.lt_succ_of_le (Nat.le_of_eq ‹a = h.fresh›)
  · exact Nat.lt_succ_of_lt (hb a s hlive)

theorem Bounded.put (hb : h.Bounded) (hlive : h.cells a = some s) (r : R) : (h.put a r).Bounded := by
  intro b t hb'
  rw [cells_put] at hb'
  split at hb'
  · rename_i heq
    rw [heq]
    exact hb a s hlive
  · exact hb b t hb'

theorem Bounded.drop (hb : h.Bounded) (a : Nat) : (h.drop a).Bounded := by
  intro b t hb'
  rw [cells_drop] at hb'
  split at hb'
  · cases hb'
  · exact hb b t hb'

/-- There are no more records than addresses that have been given out. -/
theorem Bounded.length_le (hb : h.Bounded) {as : List Nat} (hnodup : as.Nodup)
    (hlive : ∀ a ∈ as, ∃ r, h.cells a = some r) : as.length ≤ h.fresh := by
  have hsub : as ⊆ List.range h.fresh := fun a ha => by
    obtain ⟨r, hr⟩ := hlive a ha
    exact List.mem_range.2 (hb a r hr)
  have hle := hnodup.length_le_of_subset hsub
  rwa [List.length_range] at hle

end RecordHeap

end Qrtr
