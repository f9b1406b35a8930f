/-
Module: Qrtr.Map.Memory
Layer: Map
Purpose: The map of `map.c` on the memory that it works on. A `struct map_entry` holds a pointer, and the
  key of an item is a member of the item: a put writes it, and every slot that points to the item shows the
  new key. Sizes and counts are 32-bit unsigned numbers; slot indices are `int`, converted from unsigned
  as usual compilers do, and a negative index, an index behind the table, a signed overflow and a modulus
  of 0 are undefined behaviour. The retry loop of `map_reput` and the calls `map_rehash` makes back to it
  have a number of rounds as their bound. A computation leaves a trace of what `map_hash`, `map_rehash`,
  `calloc` and the puts of the copy loop return.
Imports: Qrtr.Map.Core, Qrtr.Foundation.Traced
Main exports: MapEntry, MapMem, MapStuck, MapEvent, mapHash, mapReput, mapPut, mapRehash, mapFind,
  mapContains, mapGet, mapRemove, mapClear, mapCreate, MapOp, mapStep, mapRun
Open obligations: none
-/
import Qrtr.Map.Core
import Qrtr.Foundation.Traced
import Mathlib.Algebra.Group.Int.Defs
import Mathlib.Algebra.GroupWithZero.Nat
import Mathlib.Logic.Function.Basic

namespace Qrtr.Memory

open Traced

/-- What the `item` pointer of a `struct map_entry` is: NULL, `&deleted`, or the address of an item. -/
inductive MapEntry (A : Type) where
  | null
  | deleted
  | item (a : A)
deriving DecidableEq, Repr

/-- The item that an entry points to, if it is live. -/
def MapEntry.item? {A : Type} : MapEntry A → Option A
  | .item a => some a
  | _ => none

/-- A `struct map`, the table `data`, the member `key` of every `struct map_item`, and the outcomes of the
    allocations to come. -/
structure MapMem (A : Type) where
  count : UInt32
  size : UInt32
  data : List (MapEntry A)
  key : A → UInt32
  allocs : AllocPlan

/-- Why a computation has no result: undefined behaviour, or more rounds than the bound allows. -/
inductive MapStuck where
  | undefined
  | rounds
deriving DecidableEq, Repr

/-- What a computation leaves in its trace. -/
inductive MapEvent where
  /-- `map_hash` returns. -/
  | hash (rc : Int)
  /-- `map_rehash` is called. -/
  | rehash
  /-- `calloc` returns, and whether it succeeds. -/
  | alloc (ok : Bool)
  /-- `map_put` returns to the copy loop of `map_rehash`. -/
  | copied (rc : Int)
  /-- `map_rehash` returns from within its copy loop. -/
  | cutOff
deriving DecidableEq, Repr

/-- A computation on the memory of a map. -/
abbrev Op (α : Type) := Traced MapStuck MapEvent α

/-! ### Arithmetic -/

/-- An unsigned number converted to `int`. -/
def asInt (n : UInt32) : Int := if n.toNat < 2 ^ 31 then n.toNat else (n.toNat : Int) - 2 ^ 32

/-- `i + 1` in `int`. -/
def increment (i : Int) : Op Int := if i < 2 ^ 31 - 1 then pure (i + 1) else fail .undefined

/-- `a % b` in unsigned numbers. -/
def modulo (a b : UInt32) : Op UInt32 := if b = 0 then fail .undefined else pure (a % b)

variable {A : Type}

namespace MapMem

/-- `map->data[idx].item`. -/
def entry (m : MapMem A) (idx : Int) : Op (MapEntry A) :=
  if idx < 0 then fail .undefined
  else
    match m.data[idx.toNat]? with
    | none => fail .undefined
    | some e => pure e

/-- `map->data[idx].item = e`, at an index that has been read. -/
def setEntry (m : MapMem A) (idx : Int) (e : MapEntry A) : MapMem A :=
  { m with data := m.data.set idx.toNat e }

/-- `idx = key % map->size`. -/
def start (m : MapMem A) (key : UInt32) : Op Int := do
  let idx ← modulo key m.size
  pure (asInt idx)

/-- `idx = (idx + 1) % map->size`. -/
def advance (m : MapMem A) (idx : Int) : Op Int := do
  let next ← increment idx
  let idx ← modulo (UInt32.ofInt next) m.size
  pure (asInt idx)

end MapMem

/-! ### Putting -/

/-- The loop of `map_hash`, with the number of rounds left of `i < map->size`. -/
def mapHashLoop (m : MapMem A) (key : UInt32) : Nat → Int → Int → Op (Int × MapMem A)
  | 0, _, _ => pure (-2, m)
  | left + 1, i, idx => do
      let e ← m.entry idx
      match e with
      | .null => pure (idx, { m with count := m.count + 1 })
      | .deleted => pure (idx, { m with count := m.count + 1 })
      | .item a =>
          if m.key a = key then pure (idx, m)
          else do
            let idx ← m.advance idx
            let i ← increment i
            mapHashLoop m key left i idx

/-- `map_hash`. -/
def mapHash (m : MapMem A) (key : UInt32) : Op (Int × MapMem A) := do
  let r ←
    if m.count = m.size then pure (-1, m)
    else do
      let idx ← m.start key
      mapHashLoop m key m.size.toNat 0 idx
  emit (.hash r.1)
  pure r

/-- What `map_reput` leaves behind: the return code, `*old` (`none` for NULL), and the memory. -/
structure Put (A : Type) where
  rc : Int
  old : Option A
  map : MapMem A

/-- The copy loop of `map_rehash`, with the number of rounds left of `i < o_size`. -/
def copyLoop (put : MapMem A → UInt32 → A → Op (Put A)) :
    Nat → List (MapEntry A) → MapMem A → Op (Int × MapMem A)
  | 0, _, m => pure (0, m)
  | _ + 1, [], _ => fail .undefined
  | left + 1, .item a :: oldt, m => do
      let r ← put m (m.key a) a
      emit (.copied r.rc)
      if r.rc < 0 then do
        emit .cutOff
        pure (r.rc, r.map)
      else copyLoop put left oldt r.map
  | left + 1, _ :: oldt, m => copyLoop put left oldt m

/-- The memory of `map_rehash` when its copy loop starts: the new table in place of the old one. -/
def MapMem.grown (m : MapMem A) (allocs : AllocPlan) : MapMem A :=
  { m with
    count := 0
    size := m.size + 256
    data := List.replicate (m.size + 256).toNat .null
    allocs := allocs }

/-- `map_rehash`, over the `map_put` it calls back. `o_size` is an `int`: a size from 2^31 on is negative
    there, and then nothing is copied. -/
def mapRehash (put : MapMem A → UInt32 → A → Op (Put A)) (m : MapMem A) : Op (Int × MapMem A) := do
  emit .rehash
  match calloc m.allocs with
  | (false, allocs) => do
      emit (.alloc false)
      pure (-1, { m with allocs := allocs })
  | (true, allocs) => do
      emit (.alloc true)
      copyLoop put (asInt m.size).toNat m.data (m.grown allocs)

variable [DecidableEq A]

/-- `map->data[rc].item = value` and `map->data[rc].item->key = key`. -/
def MapMem.store (m : MapMem A) (rc : Int) (key : UInt32) (value : A) : MapMem A :=
  { m.setEntry rc (.item value) with key := Function.update m.key value key }

/-- `map_reput`, at a value that is not NULL, with a bound on the rounds of its loop. -/
def mapReput : Nat → MapMem A → UInt32 → A → Op (Put A)
  | 0, _, _, _ => fail .rounds
  | rounds + 1, m, key, value => do
      let (rc, m) ← mapHash m key
      if rc < 0 then do
        let (rc, m) ← mapRehash (mapReput rounds) m
        if rc < 0 then pure { rc := rc, old := none, map := m }
        else mapReput rounds m key value
      else do
        let e ← m.entry rc
        pure { rc := 0, old := e.item?, map := m.store rc key value }

/-- `map_put`: `map_reput` without the displaced item. -/
def mapPut (rounds : Nat) (m : MapMem A) (key : UInt32) (value : A) : Op (Int × MapMem A) := do
  let r ← mapReput rounds m key value
  pure (r.rc, r.map)

/-! ### Looking up -/

/-- The loop of `map_find`, with the number of rounds left of `i < map->size`. -/
def mapFindLoop (m : MapMem A) (key : UInt32) : Nat → Int → Int → Op (Option Nat)
  | 0, _, _ => pure none
  | left + 1, i, idx => do
      let e ← m.entry idx
      let next ← m.advance idx
      match e with
      | .null => pure none
      | .deleted => do
          let i ← increment i
          mapFindLoop m key left i next
      | .item a =>
          if m.key a = key then pure (some idx.toNat)
          else do
            let i ← increment i
            mapFindLoop m key left i next

/-- `map_find`: the entry found, by its index. -/
def mapFind (m : MapMem A) (key : UInt32) : Op (Option Nat) :=
  if m.size = 0 then pure none
  else do
    let idx ← m.start key
    mapFindLoop m key m.size.toNat 0 idx

/-- `map_contains`. -/
def mapContains (m : MapMem A) (key : UInt32) : Op Int := do
  let e ← mapFind m key
  pure (if e = none then 0 else 1)

/-- `map_get`. -/
def mapGet (m : MapMem A) (key : UInt32) : Op (Option A) := do
  match ← mapFind m key with
  | none => pure none
  | some e => do
      let entry ← m.entry e
      pure entry.item?

/-- `map_remove`. -/
def mapRemove (m : MapMem A) (key : UInt32) : Op (Int × MapMem A) := do
  match ← mapFind m key with
  | none => pure (1, m)
  | some e => pure (0, { m.setEntry e .deleted with count := m.count - 1 })

/-- `map_length`, at a map that is not NULL. -/
def mapLength (m : MapMem A) : UInt32 := m.count

/-! ### Creating and clearing -/

/-- `map_create`. -/
def mapCreate (m : MapMem A) : MapMem A := { m with size := 0, data := [], count := 0 }

/-- The loop of `map_clear`, with the number of rounds left of `i < map->size`: the entries left behind,
    and the items handed to `release`. -/
def mapClearLoop : Nat → Int → List (MapEntry A) → Op (List (MapEntry A) × List A)
  | 0, _, data => pure (data, [])
  | _ + 1, _, [] => fail .undefined
  | left + 1, i, e :: data => do
      let i ← increment i
      let (data, released) ← mapClearLoop left i data
      pure (.null :: data, e.item?.toList ++ released)

/-- `map_clear`: the memory afterwards and the items handed to `release`, in order. -/
def mapClear (m : MapMem A) : Op (MapMem A × List A) := do
  let (data, released) ← mapClearLoop m.size.toNat 0 m.data
  pure ({ m with data := data, count := 0 }, released)

/-! ### Runs -/

/-- A call of a function of `map.h`. -/
inductive MapOp (A : Type) where
  | create
  | put (key : UInt32) (value : A)
  | reput (key : UInt32) (value : A)
  | remove (key : UInt32)
  | clear
  | contains (key : UInt32)
  | get (key : UInt32)
  | length
deriving DecidableEq, Repr

/-- The memory after one call. -/
def mapStep (rounds : Nat) (m : MapMem A) : MapOp A → Op (MapMem A)
  | .create => pure (mapCreate m)
  | .put key value => Prod.snd <$> mapPut rounds m key value
  | .reput key value => Put.map <$> mapReput rounds m key value
  | .remove key => Prod.snd <$> mapRemove m key
  | .clear => Prod.fst <$> mapClear m
  | .contains key => (fun _ => m) <$> mapContains m key
  | .get key => (fun _ => m) <$> mapGet m key
  | .length => pure m

/-- The memory after a sequence of calls. -/
def mapRun (rounds : Nat) : MapMem A → List (MapOp A) → Op (MapMem A)
  | m, [] => pure m
  | m, op :: ops => do
      let m ← mapStep rounds m op
      mapRun rounds m ops

end Qrtr.Memory
