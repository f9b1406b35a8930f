/-
Module: Qrtr.Qmi.Restore
Layer: Qmi
Purpose: What it means that a structure comes back from a message: the addresses that the present fields
  hold and those that a field owns, the descriptors and the structures that a message can carry, and the
  condition under which the decoder meets its own state on the way. `data_len_value` outlives a group, so
  the count of one group can leave high bytes in the count of the next; and a nested array whose last
  element begins at the end of the payload is refused, although there is nothing of it to read.
Imports: Qmi.Serialize
Main exports: Holds, Owns, Restored, FieldsDisjoint, RoundTripRules, CountsBeforeArrays, Restorable,
  NestedClean, MessageClean
Open obligations: none
-/
import Qrtr.Qmi.Serialize

namespace Qrtr

/-! ### Addresses of fields -/

/-- The addresses in a structure at `base` that the group holds: its count, and as many elements as
    the count says; of a string, the characters and the NUL. -/
inductive Holds (cs : Mem) : Group → Nat → Nat → Prop
  | count {g : Group} {base x : Nat} {l : QmiElemInfo} (hlen : g.len? = some l)
      (hx : InBlock (base + l.offset) 4 x) : Holds cs g base x
  | text {g : Group} {base x : Nat} (htype : g.value.dataType = .string)
      (hx : InBlock (base + g.value.offset) (textLen cs g.value (base + g.value.offset) + 1) x) :
      Holds cs g base x
  | basic {g : Group} {base x : Nat} (hstruct : g.value.dataType ≠ .struct)
      (hstring : g.value.dataType ≠ .string)
      (hx : InBlock (base + g.value.offset) (g.count cs base * g.value.elemSize) x) :
      Holds cs g base x
  | nested {g g' : Group} {base i x : Nat} (htype : g.value.dataType = .struct)
      (hi : i < g.count cs base) (hg' : g' ∈ groups g.value.eiArray)
      (hx : Holds cs g' (base + g.value.offset + i * g.value.elemSize) x) : Holds cs g base x

/-- The elements that a field has room for; `elem_len` is the length of an array, or of a string. -/
def QmiElemInfo.slots (ei : QmiElemInfo) : Nat :=
  if ei.arrayType = .noArray ∧ ei.dataType ≠ .string then 1 else ei.elemLen

/-- The addresses in a structure at `base` that the group owns, whatever the structure holds: one byte
    for a flag, four for a count, and the elements of the value. -/
inductive Owns : Group → Nat → Nat → Prop
  | flag {g : Group} {base : Nat} {f : QmiElemInfo} (hflag : g.flag? = some f) :
      Owns g base (base + f.offset)
  | count {g : Group} {base x : Nat} {l : QmiElemInfo} (hlen : g.len? = some l)
      (hx : InBlock (base + l.offset) 4 x) : Owns g base x
  | elems {g : Group} {base x : Nat} (hstruct : g.value.dataType ≠ .struct)
      (hx : InBlock (base + g.value.offset) (g.value.slots * g.value.elemSize) x) : Owns g base x
  | nested {g g' : Group} {base i x : Nat} (htype : g.value.dataType = .struct)
      (hi : i < g.value.slots) (hg' : g' ∈ groups g.value.eiArray)
      (hx : Owns g' (base + g.value.offset + i * g.value.elemSize) x) : Owns g base x

/-- The memory `m` holds the message that `cs` holds: the flags of the present fields are 1 and their
    values those of `cs`, and the absent fields are zero. -/
def Restored (cs : Mem) (ei : List QmiElemInfo) (m : Mem) : Prop :=
  ∀ g ∈ groups ei,
    if g.present cs 0 then
      (∀ f, g.flag? = some f → m (0 + f.offset) = 1) ∧ ∀ x, Holds cs g 0 x → m x = cs x
    else ∀ x, Owns g 0 x → m x = 0

/-- The fields of the message lie apart from each other. -/
structure FieldsDisjoint (gs : List Group) : Prop where
  /-- No two groups own an address in common. -/
  groups : gs.Pairwise fun g g' => ∀ x, Owns g 0 x → ¬ Owns g' 0 x
  /-- The flag of a group is not in its count or its value. -/
  flag : ∀ g ∈ gs, ∀ f, g.flag? = some f → ¬ Owns g.unflagged 0 (0 + f.offset)

/-! ### Descriptors and structures for a message -/

/-- What a group needs, besides what the encoder relies on, to come back. -/
structure Group.RoundTrippable (g : Group) : Prop where
  /-- The count takes one byte or two, and they are enough for `elem_len`. -/
  len_size : ∀ l, g.len? = some l →
    (l.elemSize = 1 ∨ l.elemSize = 2) ∧ g.value.elemLen < 256 ^ l.elemSize
  string_array : g.value.dataType = .string → g.value.arrayType = .noArray

/-- The groups of a well-formed descriptor; every TLV type labels one group. -/
def RoundTripRules (level : Nat) (gs : List Group) (eoti : QmiElemInfo) : Prop :=
  EncodeRules level gs eoti ∧ (∀ g ∈ gs, g.RoundTrippable) ∧
    (level = 1 → (gs.map fun g => g.value.tlvType).Nodup)

/-- Counts stand in front of variable-length arrays only. -/
def CountsBeforeArrays (_ : Nat) (gs : List Group) (_ : QmiElemInfo) : Prop :=
  ∀ g ∈ gs, g.len? ≠ none → g.value.arrayType = .varLenArray

/-- In every present field of the structure at `base` the count, which is a `uint32_t` of its own, is
    at most `elem_len`, and the string is shorter. -/
inductive Restorable (cs : Mem) : List QmiElemInfo → Nat → Prop
  | mk {ei : List QmiElemInfo} {base : Nat}
      (hcount : ∀ g ∈ groups ei, g.present cs base = true → ∀ l, g.len? = some l →
        leValue (cs.bytes (base + l.offset) 4) ≤ g.value.elemLen)
      (htext : ∀ g ∈ groups ei, g.present cs base = true → g.value.dataType = .string →
        textLen cs g.value (base + g.value.offset) < g.value.elemLen)
      (hnest : ∀ g ∈ groups ei, g.present cs base = true → g.value.dataType = .struct →
        ∀ i, i < g.count cs base →
          Restorable cs g.value.eiArray (base + g.value.offset + i * g.value.elemSize)) :
      Restorable cs ei base

/-! ### The state of the decoder on the way -/

/-- `n` structures from `addr` on, with `room` bytes up to the end of the payload: each is clean, and
    below the second level the last one does not begin at the end of the payload. -/
def ElemsClean (elem : Nat → List UInt8) (nested : Nat → Nat → Prop) (size : Nat) (top : Bool)
    (n addr room : Nat) : Prop :=
  (∀ i, i < n → nested (addr + i * size) (room - (arrayBytes elem size i addr).length)) ∧
    (top = false → 0 < n → (arrayBytes elem size (n - 1) addr).length < room)

/-- A group that the decoder comes to with `stale` in `data_len_value`, `room` bytes before the end of
    the payload. -/
structure Group.Clean (nested : List QmiElemInfo → Nat → Nat → Prop)
    (bytes : List QmiElemInfo → Nat → List UInt8) (cs : Mem) (top : Bool) (base stale room : Nat)
    (g : Group) : Prop where
  /-- Nothing of `stale` is left above the bytes of the count. -/
  count : ∀ l, g.len? = some l → stale < 256 ^ dataLenSz l
  /-- Only a variable-length array is left out for a count of zero. -/
  used : g.value.arrayType = .varLenArray ∨ g.hasValue cs base = true
  elems : g.value.dataType = .struct →
    ElemsClean (bytes g.value.eiArray) (nested g.value.eiArray) g.value.elemSize top
      (g.count cs base) (base + g.value.offset) (room - (g.countPrefix cs base).length)

/-- The fields of a nested structure, as far as there is payload left. -/
def FieldsClean (clean : Nat → Nat → Group → Prop) (count : Group → Nat)
    (payload : Group → List UInt8) : List Group → Nat → Nat → Prop
  | [], _, _ => True
  | g :: gs, stale, room =>
      room = 0 ∨ (clean stale room g ∧
        FieldsClean clean count payload gs (count g) (room - (payload g).length))

/-- A nested structure at `base`, `room` bytes before the end of the payload. -/
def NestedClean (cs : Mem) : Nat → List QmiElemInfo → Nat → Nat → Prop
  | 0, _, _, _ => True
  | d + 1, ei, base, room =>
      FieldsClean (Group.Clean (NestedClean cs d) (nestedBytes cs d) cs false base)
        (Group.count cs base) (Group.payload (nestedBytes cs d) cs false base) (groups ei) 0 room

/-- The present groups of a message, each in a payload of its own. -/
def TlvsClean (cs : Mem) (d base : Nat) : List Group → Nat → Prop
  | [], _ => True
  | g :: gs, stale =>
      if g.present cs base then
        g.Clean (NestedClean cs d) (nestedBytes cs d) cs true base stale (g.body cs d base).length ∧
          TlvsClean cs d base gs (g.count cs base)
      else TlvsClean cs d base gs stale

/-- The decoder reads every count of the message that `cs` holds as it was written, and comes to the last
    element of every nested array. -/
def MessageClean (cs : Mem) (ei : List QmiElemInfo) : Prop :=
  TlvsClean cs (nestDepth ei - 1) 0 (groups ei) 0

end Qrtr
