/-
Module: Qrtr.LinkedList.Core
Layer: LinkedList
Purpose: The doubly linked list of `list.h`, function by function and assignment by assignment. A pointer
  to a `struct list_item` is an item or NULL (`none`); the links of all items, members of the list or not,
  are part of the state. Only `list_remove`, and `list_pop` through it, can follow a link without having
  looked whether it is NULL; these return `none` when they do. `seqStep` says what each operation is for:
  the same operations on a plain sequence.
Imports: Qrtr.Foundation.LinkWalk, Qrtr.Foundation.Run
Main exports: Links, listInit, listAppend, listPrepend, listInsert, listRemove, listPop, listFirst,
  listNext, listForEach, listForEachSafe, ListOp, listStep, seqStep, Links.Stands, Links.StandsAlong
Open obligations: none
-/
import Qrtr.Foundation.LinkWalk
import Qrtr.Foundation.Run

namespace Qrtr

open LinkWalk

/-- A `struct list` and the members `next` and `prev` of every `struct list_item`. -/
structure Links (A : Type) where
  head : Option A
  tail : Option A
  next : A → Option A
  prev : A → Option A

namespace Links

variable {A : Type}

/-- The list in the direction of `next`. -/
def forward (l : Links A) : Way A := ⟨l.head, l.next⟩

/-- The list in the direction of `prev`. -/
def backward (l : Links A) : Way A := ⟨l.tail, l.prev⟩

variable [DecidableEq A]

/-- `x->next = v`. -/
def setNext (l : Links A) (x : A) (v : Option A) : Links A :=
  { l with next := Function.update l.next x v }

/-- `x->prev = v`. -/
def setPrev (l : Links A) (x : A) (v : Option A) : Links A :=
  { l with prev := Function.update l.prev x v }

end Links

variable {A : Type}

/-- `list_init`. The links of the items are left as they are. -/
def listInit (l : Links A) : Links A := { l with head := none, tail := none }

section

variable [DecidableEq A]

/-- `list_append`, and `list_push`. -/
def listAppend (l : Links A) (item : A) : Links A :=
  let l := l.setNext item none
  let l := l.setPrev item l.tail
  let l := match l.tail with
    | some tail => l.setNext tail (some item)
    | none => { l with head := some item }
  { l with tail := some item }

/-- `list_prepend`. The `prev` of the old head is not assigned. -/
def listPrepend (l : Links A) (item : A) : Links A :=
  let l := l.setPrev item none
  let l := l.setNext item l.head
  let l := if l.head = none then { l with tail := some item } else l
  { l with head := some item }

/-- `list_insert`. -/
def listInsert (l : Links A) (after : Option A) (item : A) : Links A :=
  match after with
  | none => listPrepend l item
  | some after =>
      let l := l.setPrev item (some after)
      let l := l.setNext item (l.next after)
      let l := l.setNext after (some item)
      let l := match l.next item with
        | some next => l.setPrev next (some item)
        | none => l
      if l.tail = some after then { l with tail := some item } else l

/-- `list_remove`. An item other than the head has its `prev` followed unchecked. -/
def listRemove (l : Links A) (item : A) : Option (Links A) :=
  let l := match l.next item with
    | some next => l.setPrev next (l.prev item)
    | none => l
  let unlinked : Option (Links A) :=
    if l.head = some item then
      let l := { l with head := l.next item }
      some (if l.head = none then { l with tail := none } else l)
    else
      match l.prev item with
      | none => none
      | some prev =>
          let l := l.setNext prev (l.next item)
          some (if l.tail = some item then { l with tail := l.prev item } else l)
  unlinked.map fun l => (l.setNext item none).setPrev item none

/-- `list_pop`: the links afterwards and the item returned. -/
def listPop (l : Links A) : Option (Links A × Option A) :=
  match l.head with
  | none => some (l, none)
  | some item => (listRemove l item).map fun l => (l, some item)

end

/-- `list_first`. -/
def listFirst (l : Links A) : Option A := l.head

/-- `list_next`. -/
def listNext (l : Links A) (item : A) : Option A := l.next item

/-! ### Loops over the list -/

/-- The items that `list_for_each` visits from `iter` on, in at most `rounds` rounds, if its body leaves the
    list alone. -/
def listForEachFrom (l : Links A) : Nat → Option A → List A
  | 0, _ => []
  | _ + 1, none => []
  | rounds + 1, some iter => iter :: listForEachFrom l rounds (listNext l iter)

/-- `list_for_each`. -/
def listForEach (l : Links A) (rounds : Nat) : List A := listForEachFrom l rounds (listFirst l)

/-- `list_for_each_safe` from `iter` on, in at most `rounds` rounds, with a body that removes the items that
    `unwanted` accepts. The next item is read before the body runs. -/
def listForEachSafeFrom [DecidableEq A] (unwanted : A → Bool) :
    Nat → Links A → Option A → Option (Links A)
  | 0, l, _ => some l
  | _ + 1, l, none => some l
  | rounds + 1, l, some iter =>
      let bkup := listNext l iter
      if unwanted iter then (listRemove l iter).bind fun l => listForEachSafeFrom unwanted rounds l bkup
      else listForEachSafeFrom unwanted rounds l bkup

/-- `list_for_each_safe` with a body that removes the unwanted items, as in `ctrl_cmd_del_lookup`. -/
def listForEachSafe [DecidableEq A] (unwanted : A → Bool) (rounds : Nat) (l : Links A) :
    Option (Links A) :=
  listForEachSafeFrom unwanted rounds l (listFirst l)

/-! ### Operations and what they are for -/

/-- A call of a function that changes the list. -/
inductive ListOp (A : Type) where
  | append (item : A)
  | prepend (item : A)
  | insert (after : Option A) (item : A)
  | remove (item : A)
  | pop
deriving DecidableEq, Repr

section

variable [DecidableEq A]

/-- One call: the links afterwards and the item returned, or `none` if a NULL link is followed. -/
def listStep (l : Links A) : ListOp A → Option (Links A × Option A)
  | .append item => some (listAppend l item, none)
  | .prepend item => some (listPrepend l item, none)
  | .insert after item => some (listInsert l after item, none)
  | .remove item => (listRemove l item).map fun l => (l, none)
  | .pop => listPop l

/-- The sequence with `item` put behind `after`. -/
def insertAfter (after item : A) : List A → List A
  | [] => []
  | x :: xs => if x = after then x :: item :: xs else x :: insertAfter after item xs

/-- The call on a plain sequence: the sequence afterwards and the item returned. -/
def seqStep (xs : List A) : ListOp A → List A × Option A
  | .append item => (xs ++ [item], none)
  | .prepend item => (item :: xs, none)
  | .insert none item => (item :: xs, none)
  | .insert (some after) item => (insertAfter after item xs, none)
  | .remove item => (xs.erase item, none)
  | .pop => (xs.tail, xs.head?)

end

/-- What a caller of the operation guarantees: an item is put into the list while it is not in it, and
    the item to insert after or to remove is a member. -/
def ListOp.Proper (xs : List A) : ListOp A → Prop
  | .append item => item ∉ xs
  | .prepend item => item ∉ xs
  | .insert none item => item ∉ xs
  | .insert (some after) item => after ∈ xs ∧ item ∉ xs
  | .remove item => item ∈ xs
  | .pop => True

/-- Nothing is put in front of a member: `list_prepend`, and `list_insert` after NULL, are only called on
    an empty list. -/
def ListOp.KeepsHead (xs : List A) : ListOp A → Prop
  | .prepend _ => xs = []
  | .insert none _ => xs = []
  | _ => True

/-- The links stand for the sequence `xs` in either direction, and `head` and `tail` are its ends. -/
structure Links.Stands (l : Links A) (xs : List A) : Prop where
  forward : l.forward.Visits xs
  backward : l.backward.Visits xs.reverse
  head_eq : l.head = xs.head?
  tail_eq : l.tail = xs.getLast?

/-- All along a run of operations the links stand for the sequence that the same operations make of `xs`,
    every operation returns the item it returns on the sequence, and none follows a NULL link. -/
def Links.StandsAlong [DecidableEq A] : Links A → List A → List (ListOp A) → Prop
  | l, xs, [] => l.Stands xs
  | l, xs, op :: ops =>
      l.Stands xs ∧
        ∃ l', listStep l op = some (l', (seqStep xs op).2) ∧
          StandsAlong l' (seqStep xs op).1 ops

end Qrtr
