/-
Module: Qrtr.Map.Core
Layer: Map
Purpose: The open-addressed hash map of `map.c`, function by function. A `struct map_entry` holds a
  NULL pointer, the address of the marker `deleted`, or an item; items are intrusive, so an occupied
  slot carries the item's key together with the item it stands for. The number of slots is the length
  of `data`, as `map->size` always is. `map_reput`, `map_put` and `map_rehash` call each other around a
  retry loop without a bound; the model gives the recursion an explicit bound and
  `mapReputN_eq_mapReput` (in `Map.Invariant`) shows that the bound is never felt.
  Indices and sizes are natural numbers, exact while a table has fewer than 2^31 slots; `nsRun_small` (in
  `NameServer.Growth`) says how long that is for the name server.
Imports: none
Main exports: Slot, Map, mapCreate, mapClear, mapHash, mapReput, mapPut, mapRehash, mapFind, mapGet,
  mapContains, mapRemove, mapLength, mapIterFirst, mapIterNext, mapIterItem, mapForEach
Open obligations: none
-/
import Mathlib.Data.List.Basic

namespace Qrtr

/-- What the `item` pointer of a `struct map_entry` is: NULL, `&deleted`, or an item with its key. -/
inductive Slot (V : Type) where
  | empty
  | deleted
  | item (key : UInt32) (value : V)
deriving DecidableEq, Repr, Inhabited

/-- The key and the item of a slot that holds a live item. -/
def Slot.live? {V : Type} : Slot V → Option (UInt32 × V)
  | .item key value => some (key, value)
  | _ => none

/-- `struct map`. The member `size` is the length of `data`. -/
structure Map (V : Type) where
  count : Nat
  data : List (Slot V)
deriving DecidableEq, Repr

/-- The outcomes of the coming allocations, in order; an exhausted plan means that they succeed. -/
abbrev AllocPlan := List Bool

/-- One `calloc`: whether it succeeds, and the plan for the allocations after it. -/
def calloc : AllocPlan → Bool × AllocPlan
  | [] => (true, [])
  | ok :: rest => (ok, rest)

namespace Map

variable {V : Type}

/-- `map->size`. -/
def size (m : Map V) : Nat := m.data.length

/-- `map->data[idx].item`. -/
def slot (m : Map V) (idx : Nat) : Slot V := m.data.getD idx .empty

/-- The assignment `map->data[idx].item = s`. -/
def setSlot (m : Map V) (idx : Nat) (s : Slot V) : Map V := { m with data := m.data.set idx s }

end Map

variable {V : Type}

/-- `map_create`. -/
def mapCreate : Map V := { count := 0, data := [] }

/-- `map_clear`: the emptied map and the items handed to `release`, in order. -/
def mapClear (m : Map V) : Map V × List V :=
  ({ count := 0, data := m.data.map fun _ => .empty },
    m.data.filterMap fun s => s.live?.map Prod.snd)

/-- The probe loop of `map_hash`. A NULL slot and a tombstone are both taken at once; whether the key
    sits further along the walk is not looked at. -/
def mapHashLoop (m : Map V) (key : UInt32) : Nat → Nat → Except Int (Nat × Map V)
  | 0, _ => .error (-2)
  | i + 1, idx =>
      match m.slot idx with
      | .empty => .ok (idx, { m with count := m.count + 1 })
      | .deleted => .ok (idx, { m with count := m.count + 1 })
      | .item k _ =>
          if k = key then .ok (idx, m) else mapHashLoop m key i ((idx + 1) % m.size)

/-- `map_hash`: the slot for `key` and the map with its new count, or a negative code. -/
def mapHash (m : Map V) (key : UInt32) : Except Int (Nat × Map V) :=
  if m.count = m.size then .error (-1)
  else mapHashLoop m key m.size (key.toNat % m.size)

/-- What `map_reput` and `map_rehash` leave behind: the return code, `*old` (`none` for NULL), the map,
    and the outcomes of the allocations still to come. -/
structure PutResult (V : Type) where
  rc : Int
  old : Option V
  map : Map V
  allocs : AllocPlan
deriving DecidableEq, Repr

/-- The copy loop of `map_rehash`: put every item of the old table into the new one and stop at the
    first put that fails. -/
def rehashCopy (put : AllocPlan → Map V → UInt32 → V → Option (PutResult V)) :
    List (Slot V) → AllocPlan → Map V → Option (PutResult V)
  | [], allocs, m => some { rc := 0, old := none, map := m, allocs := allocs }
  | .item k v :: rest, allocs, m =>
      match put allocs m k v with
      | none => none
      | some r =>
          if r.rc < 0 then some { r with old := none } else rehashCopy put rest r.allocs r.map
  | _ :: rest, allocs, m => rehashCopy put rest allocs m

/-- `map_rehash`, over the `map_put` it calls back. -/
def mapRehash (put : AllocPlan → Map V → UInt32 → V → Option (PutResult V))
    (allocs : AllocPlan) (m : Map V) : Option (PutResult V) :=
  match calloc allocs with
  | (false, allocs) => some { rc := -1, old := none, map := m, allocs := allocs }
  | (true, allocs) =>
      rehashCopy put m.data allocs { count := 0, data := List.replicate (m.size + 256) .empty }

/-- `map_reput` with its retry loop and the calls `map_rehash` makes back to it bounded by a number of
    rounds; `none` when the bound is exceeded. -/
def mapReputN : Nat → AllocPlan → Map V → UInt32 → V → Option (PutResult V)
  | 0, _, _, _, _ => none
  | n + 1, allocs, m, key, value =>
      match mapHash m key with
      | .ok (idx, m') =>
          some
            { rc := 0
              old := (m'.slot idx).live?.map Prod.snd
              map := m'.setSlot idx (.item key value)
              allocs := allocs }
      | .error _ =>
          match mapRehash (mapReputN n) allocs m with
          | none => none
          | some r =>
              if r.rc < 0 then some r else mapReputN n r.allocs r.map key value

/-- `map_reput`. Two rounds are enough for every map the operations build. -/
def mapReput (allocs : AllocPlan) (m : Map V) (key : UInt32) (value : V) : PutResult V :=
  (mapReputN 2 allocs m key value).getD { rc := -1, old := none, map := m, allocs := allocs }

/-- `map_put`: `map_reput` without the displaced item. -/
def mapPut (allocs : AllocPlan) (m : Map V) (key : UInt32) (value : V) : PutResult V :=
  { mapReput allocs m key value with old := none }

/-- The probe loop of `map_find`. -/
def mapFindLoop (m : Map V) (key : UInt32) : Nat → Nat → Option Nat
  | 0, _ => none
  | i + 1, idx =>
      match m.slot idx with
      | .empty => none
      | .deleted => mapFindLoop m key i ((idx + 1) % m.size)
      | .item k _ => if k = key then some idx else mapFindLoop m key i ((idx + 1) % m.size)

/-- `map_find`: the slot found, by its index. -/
def mapFind (m : Map V) (key : UInt32) : Option Nat :=
  if m.size = 0 then none else mapFindLoop m key m.size (key.toNat % m.size)

/-- `map_contains`. -/
def mapContains (m : Map V) (key : UInt32) : Bool := (mapFind m key).isSome

/-- `map_get`. -/
def mapGet (m : Map V) (key : UInt32) : Option V :=
  match mapFind m key with
  | none => none
  | some e => (m.slot e).live?.map Prod.snd

/-- `map_remove`: the return code and the map with a tombstone in the slot found. -/
def mapRemove (m : Map V) (key : UInt32) : Int × Map V :=
  match mapFind m key with
  | none => (1, m)
  | some e => (0, { m.setSlot e .deleted with count := m.count - 1 })

/-- `map_length`. -/
def mapLength (m : Map V) : Nat := m.count

/-- The loop of `map_iter_from`, with the number of slots still to look at. -/
def mapIterLoop (m : Map V) : Nat → Nat → Option Nat
  | 0, _ => none
  | n + 1, i => if (m.slot i).live?.isSome then some i else mapIterLoop m n (i + 1)

/-- `map_iter_from`. -/
def mapIterFrom (m : Map V) (start : Nat) : Option Nat := mapIterLoop m (m.size - start) start

/-- `map_iter_first`. -/
def mapIterFirst (m : Map V) : Option Nat := mapIterFrom m 0

/-- `map_iter_next`, at an iterator that is not NULL. -/
def mapIterNext (m : Map V) (iter : Nat) : Option Nat := mapIterFrom m (iter + 1)

/-- `map_iter_item`. -/
def mapIterItem (m : Map V) (iter : Nat) : Option V := (m.slot iter).live?.map Prod.snd

/-- The items `map_for_each` visits from `iter` on when its body leaves the map alone. -/
def mapForEachFrom (m : Map V) : Nat → Option Nat → List V
  | 0, _ => []
  | _ + 1, none => []
  | n + 1, some iter => (mapIterItem m iter).toList ++ mapForEachFrom m n (mapIterNext m iter)

/-- The items of a full `map_for_each` whose body leaves the map alone. -/
def mapForEach (m : Map V) : List V := mapForEachFrom m (m.size + 1) (mapIterFirst m)

end Qrtr
