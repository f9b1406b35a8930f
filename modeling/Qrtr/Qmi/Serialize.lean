/-
Module: Qrtr.Qmi.Serialize
Layer: Qmi
Purpose: What an encoded message is, said without cursors, back-patching or a buffer: a serializer over the
  groups of a descriptor, with every count as the encoder reads it, from the low `elem_size` bytes of its
  field (`Qmi.Plain` has the serializer that reads all of it). Next to it, the descriptors and the C
  structures that the encoder is meant for, and the encoding cut into the pieces that the encoder checks and
  writes one at a time, each with its position and the number its check compares with `out_buf_len`.
Imports: Qmi.Descriptor
Main exports: messageBytes, nestedBytes, ValuesFit, EncodeRules, Piece, messagePieces, nestedPieces,
  FirstMisfitRefused
Open obligations: none
-/
import Qrtr.Qmi.Descriptor

namespace Qrtr

/-! ### The serializer -/

namespace Group

variable (cs : Mem) (base : Nat) (g : Group)

/-- The field is in the message: it has no flag, or the flag is set. -/
def present : Bool :=
  match g.flag? with
  | none => true
  | some f => cs (base + f.offset) != 0

/-- The count that the encoder takes from the `QMI_DATA_LEN` of the group: the low bytes of the field. -/
def lenValue : Nat :=
  match g.len? with
  | none => 0
  | some l => leValue (cs.bytes (base + l.offset) l.elemSize)

/-- The number of elements that the encoder takes for the value. -/
def count : Nat :=
  match g.value.arrayType with
  | .noArray => 1
  | .staticArray => g.value.elemLen
  | .varLenArray => g.lenValue cs base

/-- A count of zero leaves the value out. -/
def hasValue : Bool := g.len?.isNone || g.lenValue cs base != 0

/-- The count as it stands in front of the elements. -/
def countPrefix : List UInt8 :=
  match g.len? with
  | none => []
  | some l => leBytes (dataLenSz l) (g.lenValue cs base)

end Group

/-- `n` elements from `addr` on, `size` apart. -/
def arrayBytes (elem : Nat → List UInt8) (size : Nat) : Nat → Nat → List UInt8
  | 0, _ => []
  | n + 1, addr => elem addr ++ arrayBytes elem size n (addr + size)

/-- The length of the string in the field of `ei` at `addr`; more than `elem_len` when it has no NUL
    in time. -/
def textLen (cs : Mem) (ei : QmiElemInfo) (addr : Nat) : Nat := strnlen cs addr (ei.elemLen + 1)

/-- A string: the low bytes of its length in front of it, except at the top level, where the TLV holds
    the length. -/
def textBytes (cs : Mem) (top : Bool) (ei : QmiElemInfo) (addr : Nat) : List UInt8 :=
  (if top then [] else leBytes (stringLenSz ei) (textLen cs ei addr)) ++
    cs.bytes addr (textLen cs ei addr * ei.elemSize)

/-- `n` elements of a value; `nested` serializes a nested structure. -/
def valueBytes (nested : List QmiElemInfo → Nat → List UInt8) (cs : Mem) (top : Bool)
    (ei : QmiElemInfo) (addr n : Nat) : List UInt8 :=
  match ei.dataType with
  | .struct => arrayBytes (nested ei.eiArray) ei.elemSize n addr
  | .string => textBytes cs top ei addr
  | _ => cs.bytes addr (n * ei.elemSize)

/-- The count prefix of a group and the elements of its value. -/
def Group.payload (nested : List QmiElemInfo → Nat → List UInt8) (cs : Mem) (top : Bool)
    (base : Nat) (g : Group) : List UInt8 :=
  g.countPrefix cs base ++
    if g.hasValue cs base then
      valueBytes nested cs top g.value (base + g.value.offset) (g.count cs base)
    else []

/-- A nested structure: its fields one after the other, without TLV headers. -/
def nestedBytes (cs : Mem) : Nat → List QmiElemInfo → Nat → List UInt8
  | 0, _, _ => []
  | d + 1, ei, base => (groups ei).flatMap (Group.payload (nestedBytes cs d) cs false base)

/-- The payload of a group at the top level. -/
def Group.body (cs : Mem) (d : Nat) (base : Nat) (g : Group) : List UInt8 :=
  g.payload (nestedBytes cs d) cs true base

/-- A TLV header: the type, and the length in two little-endian bytes. -/
def tlvHeader (type : UInt8) (len : Nat) : List UInt8 := type :: leBytes 2 len

/-- A group as a TLV. -/
def Group.tlv (cs : Mem) (d : Nat) (base : Nat) (g : Group) : List UInt8 :=
  tlvHeader g.value.tlvType (g.body cs d base).length ++ g.body cs d base

/-- The TLVs of the present groups among `gs`. -/
def tlvBytes (cs : Mem) (d base : Nat) (gs : List Group) : List UInt8 :=
  (gs.filter (Group.present cs base)).flatMap (Group.tlv cs d base)

/-- A message: the TLVs of the present groups, in the order of the descriptor. -/
def messageBytes (cs : Mem) (ei : List QmiElemInfo) (base : Nat) : List UInt8 :=
  tlvBytes cs (nestDepth ei - 1) base (groups ei)

theorem length_tlvHeader (type : UInt8) (len : Nat) : (tlvHeader type len).length = 3 := by
  simp [tlvHeader]

/-- The widths that a count has in a message. -/
theorem dataLenSz_eq {l : QmiElemInfo} (h : l.elemSize = 1 ∨ l.elemSize = 2) : dataLenSz l = l.elemSize := by
  unfold dataLenSz
  rcases h with h | h <;> simp [h]

theorem length_textBytes (cs : Mem) {ei : QmiElemInfo} (hsize : ei.elemSize = 1) (top : Bool) (addr : Nat) :
    (textBytes cs top ei addr).length = (if top then 0 else stringLenSz ei) + textLen cs ei addr := by
  cases top <;> simp [textBytes, hsize]

theorem length_tlv (cs : Mem) (d base : Nat) (g : Group) :
    (g.tlv cs d base).length = 3 + (g.body cs d base).length := by
  rw [Group.tlv, List.length_append, length_tlvHeader]

theorem tlvBytes_cons (cs : Mem) (d base : Nat) (g : Group) (gs : List Group) :
    tlvBytes cs d base (g :: gs) =
      if g.present cs base then g.tlv cs d base ++ tlvBytes cs d base gs
      else tlvBytes cs d base gs := by
  cases h : g.present cs base <;> simp [tlvBytes, h]

/-! ### What the encoder is meant for -/

/-- The counts of a group are at most `elem_len`, and its strings at most `bound elem_len` bytes. -/
def Group.ValueFits (nested : List QmiElemInfo → Nat → Prop) (bound : Nat → Nat) (cs : Mem)
    (base : Nat) (g : Group) : Prop :=
  (g.value.arrayType = .varLenArray → g.lenValue cs base ≤ g.value.elemLen) ∧
  (g.hasValue cs base = true →
    match g.value.dataType with
    | .struct => ∀ i, i < g.count cs base →
        nested g.value.eiArray (base + g.value.offset + i * g.value.elemSize)
    | .string => textLen cs g.value (base + g.value.offset) ≤ bound g.value.elemLen
    | _ => True)

/-- The C structure at `base` holds counts within `elem_len` and strings of at most `bound elem_len`
    bytes, in every field that the encoder comes to. -/
def ValuesFit (bound : Nat → Nat) (cs : Mem) : Nat → List QmiElemInfo → Nat → Prop
  | 0, _, _ => True
  | d + 1, ei, base => ∀ g ∈ groups ei, g.present cs base = true →
      g.ValueFits (ValuesFit bound cs d) bound cs base

/-- The type of the element that an array starts with. -/
def headType (ei : List QmiElemInfo) : Option UInt8 := ei.head?.map QmiElemInfo.tlvType

/-- Every group has one type, and the type of the group or the end behind it is another. -/
def TypesSeparate : List Group → QmiElemInfo → Prop
  | [], _ => True
  | g :: gs, eoti =>
      (∀ e ∈ g.elems, e.tlvType = g.value.tlvType) ∧
        headType (flatten gs eoti) ≠ some g.value.tlvType ∧ TypesSeparate gs eoti

/-- What the encoder relies on in a group. -/
structure Group.Encodable (level : Nat) (g : Group) : Prop where
  /-- Nested structures have no optional fields. -/
  flag_top : 1 < level → g.flag? = none
  flag_array : ∀ f, g.flag? = some f → f.arrayType ≠ .varLenArray
  len_array : ∀ l, g.len? = some l → l.arrayType = .noArray
  len_size : ∀ l, g.len? = some l → 1 ≤ l.elemSize ∧ l.elemSize ≤ 4
  /-- A variable-length array has its count in front of it. -/
  var_len : g.value.arrayType = .varLenArray → g.len? ≠ none
  string_size : g.value.dataType = .string → g.value.elemSize = 1

/-- The groups of a descriptor that the encoder is meant for; TLV types matter at the top level. -/
def EncodeRules (level : Nat) (gs : List Group) (eoti : QmiElemInfo) : Prop :=
  (∀ g ∈ gs, g.Encodable level) ∧ (level = 1 → TypesSeparate gs eoti)

theorem EncodeRules.tail {level : Nat} {g : Group} {gs : List Group} {eoti : QmiElemInfo}
    (h : EncodeRules level (g :: gs) eoti) : EncodeRules level gs eoti :=
  ⟨fun g' hg' => h.1 g' (List.mem_cons_of_mem _ hg'), fun hone => (h.2 hone).2.2⟩

/-- Every group of a nested structure is present. -/
theorem Group.Encodable.present {level : Nat} {g : Group} (h : g.Encodable level) (hlevel : 1 < level)
    (cs : Mem) (base : Nat) : g.present cs base = true := by
  simp [Group.present, h.flag_top hlevel]

/-- A group with a flag is one of the message itself. -/
theorem Group.Encodable.level_of_flag {level : Nat} {g : Group} {f : QmiElemInfo}
    (h : g.Encodable level) (hlevel : 1 ≤ level) (hf : g.flag? = some f) : level = 1 := by
  apply Nat.le_antisymm _ hlevel
  apply Nat.le_of_not_lt
  intro hdeep
  rw [h.flag_top hdeep] at hf
  cases hf

/-! ### The pieces of an encoding -/

/-- What the encoder writes behind one check: the bytes, where they start, and the number that the
    check compares with the end of the buffer. -/
structure Piece where
  start : Nat
  bytes : List UInt8
  need : Nat

/-- The piece ends inside the buffer. -/
def Piece.Fits (bound : Nat) (p : Piece) : Prop := p.start + p.bytes.length ≤ bound

/-- The check in front of the piece lets it through. -/
def Piece.Passes (bound : Nat) (p : Piece) : Prop := p.need ≤ bound

instance (bound : Nat) (p : Piece) : Decidable (p.Fits bound) := by
  unfold Piece.Fits
  infer_instance

instance (bound : Nat) (p : Piece) : Decidable (p.Passes bound) := by
  unfold Piece.Passes
  infer_instance

/-- A count or an array, in the structure whose bytes start at `start`. The check adds up the size and
    the bytes already encoded in `uint32_t`. -/
def sumPiece (start pos : Nat) (bs : List UInt8) : Piece where
  start := pos
  bytes := bs
  need := start + u32 (u32 bs.length + (pos - start))

/-- A string. The check of a nested one leaves out the three bytes of the TLV header around it. -/
def textPiece (cs : Mem) (top : Bool) (ei : QmiElemInfo) (addr pos : Nat) : Piece where
  start := pos
  bytes := textBytes cs top ei addr
  need :=
    if top then pos + textLen cs ei addr
    else pos + u32 (textLen cs ei addr + stringLenSz ei) - 3

/-- The back-patched header of a TLV. It has no check of its own. -/
def headerPiece (type : UInt8) (len pos : Nat) : Piece where
  start := pos
  bytes := tlvHeader type len
  need := 0

/-- The pieces of `n` structures, each behind the bytes of the one before. -/
def arrayPieces (elem : Nat → List UInt8) (pieces : Nat → Nat → List Piece) (size : Nat) :
    Nat → Nat → Nat → List Piece
  | 0, _, _ => []
  | n + 1, pos, addr =>
      pieces pos addr ++ arrayPieces elem pieces size n (pos + (elem addr).length) (addr + size)

/-- The pieces of `n` elements of a value. -/
def valuePieces (nested : List QmiElemInfo → Nat → List UInt8)
    (pieces : List QmiElemInfo → Nat → Nat → List Piece) (cs : Mem) (top : Bool)
    (ei : QmiElemInfo) (start pos addr n : Nat) : List Piece :=
  match ei.dataType with
  | .struct => arrayPieces (nested ei.eiArray) (pieces ei.eiArray) ei.elemSize n pos addr
  | .string => [textPiece cs top ei addr pos]
  | _ => [sumPiece start pos (cs.bytes addr (n * ei.elemSize))]

/-- The pieces of the payload of a group. -/
def Group.payloadPieces (nested : List QmiElemInfo → Nat → List UInt8)
    (pieces : List QmiElemInfo → Nat → Nat → List Piece) (cs : Mem) (top : Bool)
    (start pos base : Nat) (g : Group) : List Piece :=
  (if g.len?.isSome then [sumPiece start pos (g.countPrefix cs base)] else []) ++
    if g.hasValue cs base then
      valuePieces nested pieces cs top g.value start (pos + (g.countPrefix cs base).length)
        (base + g.value.offset) (g.count cs base)
    else []

/-- The pieces of the fields `gs` of a nested structure. -/
def fieldPieces (nested : List QmiElemInfo → Nat → List UInt8)
    (pieces : List QmiElemInfo → Nat → Nat → List Piece) (cs : Mem) (start base : Nat) :
    Nat → List Group → List Piece
  | _, [] => []
  | pos, g :: gs =>
      g.payloadPieces nested pieces cs false start pos base ++
        fieldPieces nested pieces cs start base
          (pos + (g.payload nested cs false base).length) gs

/-- The pieces of a nested structure whose bytes start at `pos`. -/
def nestedPieces (cs : Mem) : Nat → List QmiElemInfo → Nat → Nat → List Piece
  | 0, _, _, _ => []
  | d + 1, ei, pos, base =>
      fieldPieces (nestedBytes cs d) (nestedPieces cs d) cs pos base pos (groups ei)

/-- The pieces of a TLV: its payload, then its header. -/
def Group.tlvPieces (cs : Mem) (d start pos base : Nat) (g : Group) : List Piece :=
  g.payloadPieces (nestedBytes cs d) (nestedPieces cs d) cs true start (pos + 3) base ++
    [headerPiece g.value.tlvType (g.body cs d base).length pos]

/-- The pieces of the TLVs of the present groups among `gs`, the first of them at `pos`. -/
def tlvsPieces (cs : Mem) (d start base : Nat) : Nat → List Group → List Piece
  | _, [] => []
  | pos, g :: gs =>
      if g.present cs base then
        g.tlvPieces cs d start pos base ++
          tlvsPieces cs d start base (pos + (g.tlv cs d base).length) gs
      else tlvsPieces cs d start base pos gs

/-- The pieces of a message in a buffer that starts at `outBuf`, in the order in which the encoder
    checks and writes them. -/
def messagePieces (cs : Mem) (ei : List QmiElemInfo) (outBuf base : Nat) : List Piece :=
  tlvsPieces cs (nestDepth ei - 1) (outBuf + 3) base outBuf (groups ei)

/-- The first piece that does not fit into the buffer, if there is one, is refused by its check. -/
def FirstMisfitRefused (bound : Nat) : List Piece → Prop
  | [] => True
  | p :: ps => if p.Fits bound then FirstMisfitRefused bound ps else ¬ p.Passes bound

instance decidableFirstMisfitRefused (bound : Nat) : ∀ ps, Decidable (FirstMisfitRefused bound ps)
  | [] => .isTrue trivial
  | p :: ps =>
      have := decidableFirstMisfitRefused bound ps
      inferInstanceAs (Decidable (if p.Fits bound then _ else _))

end Qrtr
