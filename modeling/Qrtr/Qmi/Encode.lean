/-
Module: Qrtr.Qmi.Encode
Layer: Qmi
Purpose: The encoder of `lib/qmi.c`, function by function: `qmi_encode` with its element encoders, and
  `qmi_encode_message`. The trace holds the writes to the output buffer, in order, as offsets from the
  start of the buffer; the C structure is read-only memory. `strlen` is cut off one byte past
  `elem_len`, which its only use, the comparison with `elem_len`, cannot tell from the full scan.
  The loops are bounded by the length of the descriptor and the recursion by `nestDepth`. Lengths are
  natural numbers; `Qmi.MachineEncode` has the encoder with those of C, and `Machine.qmiEncode_eq` that
  they make no difference to an encoding of fewer than 2^31 bytes.
Imports: Qmi.Descriptor
Main exports: Encoding, qmiEncodeBasicElem, qmiEncodeStructElem, qmiEncodeStringElem, EncodeState,
  qmiEncodeIter, qmiEncodeLoop, qmiEncode, qmiEncodeMessage, packetAfter
Open obligations: none
-/
import Qrtr.Qmi.Descriptor

namespace Qrtr

/-- Encoder code: its trace is the writes to the output buffer. -/
abbrev Encoding := Traced QmiError Write

/-- A recursive call of `qmi_encode`: descriptor, `out_buf`, `in_c_struct`, `out_buf_len`, `enc_level`. -/
abbrev EncodeCall := List QmiElemInfo → Nat → Nat → Nat → Nat → Encoding Nat

/-- `qmi_encode_basic_elem` from a local variable of the caller: its low `size` bytes. -/
def qmiEncodeLocal (bufDst size value : Nat) : Encoding Nat := do
  Traced.emit ⟨bufDst, leBytes size value⟩
  pure size

/-- `qmi_encode_basic_elem`. -/
def qmiEncodeBasicElem (cs : Mem) (elemSize : Nat) : Nat → Nat → Nat → Encoding Nat
  | 0, _, _ => pure 0
  | elemLen + 1, bufDst, bufSrc => do
      Traced.emit ⟨bufDst, cs.bytes bufSrc elemSize⟩
      let rc ← qmiEncodeBasicElem cs elemSize elemLen (bufDst + elemSize) (bufSrc + elemSize)
      pure (elemSize + rc)

/-- `qmi_encode_struct_elem`, from `encoded_bytes` on. -/
def qmiEncodeStructElem (rec : EncodeCall) (ei : QmiElemInfo) (outBufLen encLevel : Nat) :
    Nat → Nat → Nat → Nat → Encoding Nat
  | 0, _, _, encodedBytes => pure encodedBytes
  | elemLen + 1, bufDst, bufSrc, encodedBytes => do
      let rc ← rec ei.eiArray bufDst bufSrc (u32Sub outBufLen encodedBytes) encLevel
      qmiEncodeStructElem rec ei outBufLen encLevel elemLen (bufDst + rc) (bufSrc + ei.elemSize)
        (encodedBytes + rc)

/-- `qmi_encode_string_elem`. -/
def qmiEncodeStringElem (cs : Mem) (ei : QmiElemInfo) (bufDst bufSrc outBufLen encLevel : Nat) :
    Encoding Nat :=
  let stringLen := strnlen cs bufSrc (ei.elemLen + 1)
  let stringLenSz := stringLenSz ei
  if ei.elemLen < stringLen then Traced.fail einval
  else if encLevel = 1 then
    if outBufLen < stringLen + 3 then Traced.fail einval
    else qmiEncodeBasicElem cs ei.elemSize stringLen bufDst bufSrc
  else if outBufLen < u32 (stringLen + stringLenSz) then Traced.fail einval
  else do
    let encodedBytes ← qmiEncodeLocal bufDst stringLenSz stringLen
    let rc ← qmiEncodeBasicElem cs ei.elemSize stringLen (bufDst + encodedBytes) bufSrc
    pure (encodedBytes + rc)

/-- The local variables of `qmi_encode` that outlive an iteration of its loop. -/
structure EncodeState where
  tempEi : List QmiElemInfo
  dataLenValue : Nat
  bufDst : Nat
  tlvPointer : Nat
  tlvLen : Nat
  encodedBytes : Nat
  encodeTlv : Bool

/-- `UPDATE_ENCODE_VARIABLES`. -/
def EncodeState.update (s : EncodeState) (rc : Nat) : EncodeState :=
  { s with
    tempEi := s.tempEi.tail
    bufDst := s.bufDst + rc
    encodedBytes := s.encodedBytes + rc
    tlvLen := s.tlvLen + rc
    encodeTlv := true }

/-- `memcpy(&data_len_value, buf_src, elem_size)`: the low bytes of the variable are replaced. -/
def overlayLow (old : Nat) (low : List UInt8) : Nat :=
  leValue low + 256 ^ low.length * (old / 256 ^ low.length)

/-- `data_len_value` for the element at hand, from its array type and the value so far. -/
def encodeCount (ei : QmiElemInfo) (dataLenValue : Nat) : Encoding Nat :=
  match ei.arrayType with
  | .noArray => pure 1
  | .staticArray => pure ei.elemLen
  | .varLenArray =>
      if dataLenValue = 0 ∨ ei.elemLen < dataLenValue then Traced.fail einval
      else pure dataLenValue

/-- The branch `QMI_OPT_FLAG` of the switch in `qmi_encode`. -/
def encodeOptFlag (cs : Mem) (bufSrc encLevel : Nat) (s : EncodeState) : Encoding EncodeState :=
  if cs bufSrc ≠ 0 then pure { s with tempEi := s.tempEi.tail }
  else do
    let next ← skipToNextElem s.tempEi encLevel
    pure { s with tempEi := next }

/-- The branch `QMI_DATA_LEN`. -/
def encodeDataLen (cs : Mem) (ei : QmiElemInfo) (bufSrc outBufLen encLevel : Nat) (s : EncodeState) :
    Encoding EncodeState := do
  let dataLenValue := overlayLow s.dataLenValue (cs.bytes bufSrc ei.elemSize)
  let dataLenSz := dataLenSz ei
  if outBufLen < u32 (dataLenSz + s.encodedBytes) + 3 then Traced.fail einval
  else do
    let rc ← qmiEncodeLocal s.bufDst dataLenSz dataLenValue
    let s := { s.update rc with dataLenValue := dataLenValue }
    if dataLenValue = 0 then do
      let next ← skipToNextElem s.tempEi encLevel
      pure { s with tempEi := next }
    else pure { s with encodeTlv := false }

/-- The branches of the basic types. -/
def encodeBasic (cs : Mem) (ei : QmiElemInfo) (bufSrc outBufLen : Nat) (s : EncodeState) :
    Encoding EncodeState :=
  if outBufLen < u32 (u32 (s.dataLenValue * ei.elemSize) + s.encodedBytes) + 3 then
    Traced.fail einval
  else do
    let rc ← qmiEncodeBasicElem cs ei.elemSize s.dataLenValue s.bufDst bufSrc
    pure (s.update rc)

/-- The branch `QMI_STRUCT`. -/
def encodeStruct (rec : EncodeCall) (ei : QmiElemInfo) (bufSrc outBufLen encLevel : Nat)
    (s : EncodeState) : Encoding EncodeState := do
  let rc ← qmiEncodeStructElem rec ei (u32Sub outBufLen s.encodedBytes) (encLevel + 1)
    s.dataLenValue s.bufDst bufSrc 0
  pure (s.update rc)

/-- The branch `QMI_STRING`. -/
def encodeString (cs : Mem) (ei : QmiElemInfo) (bufSrc outBufLen encLevel : Nat) (s : EncodeState) :
    Encoding EncodeState := do
  let rc ← qmiEncodeStringElem cs ei s.bufDst bufSrc (u32Sub outBufLen s.encodedBytes) encLevel
  pure (s.update rc)

/-- The switch of `qmi_encode`. -/
def encodeSwitch (rec : EncodeCall) (cs : Mem) (ei : QmiElemInfo)
    (bufSrc outBufLen encLevel : Nat) (s : EncodeState) : Encoding EncodeState :=
  match ei.dataType with
  | .optFlag => encodeOptFlag cs bufSrc encLevel s
  | .dataLen => encodeDataLen cs ei bufSrc outBufLen encLevel s
  | .struct => encodeStruct rec ei bufSrc outBufLen encLevel s
  | .string => encodeString cs ei bufSrc outBufLen encLevel s
  | .eoti => Traced.fail einval
  | _ => encodeBasic cs ei bufSrc outBufLen s

/-- The end of an iteration: `QMI_ENCDEC_ENCODE_TLV` back-patches the header when a TLV is complete. -/
def encodeTlvHeader (encLevel : Nat) (tlvType : UInt8) (s : EncodeState) : Encoding EncodeState :=
  if s.encodeTlv ∧ encLevel = 1 then do
    Traced.emit ⟨s.tlvPointer, [tlvType]⟩
    Traced.emit ⟨s.tlvPointer + 1, [UInt8.ofNat s.tlvLen]⟩
    Traced.emit ⟨s.tlvPointer + 2, [UInt8.ofNat (s.tlvLen / 256)]⟩
    pure { s with
      encodedBytes := s.encodedBytes + 3
      tlvPointer := s.bufDst
      tlvLen := 0
      bufDst := s.bufDst + 3
      encodeTlv := false }
  else pure s

/-- One iteration of the loop of `qmi_encode`, at the element `ei`. -/
def qmiEncodeIter (rec : EncodeCall) (cs : Mem) (inCStruct outBufLen encLevel : Nat)
    (ei : QmiElemInfo) (s : EncodeState) : Encoding EncodeState := do
  let dataLenValue ← encodeCount ei s.dataLenValue
  let s ← encodeSwitch rec cs ei (inCStruct + ei.offset) outBufLen encLevel
    { s with dataLenValue := dataLenValue }
  encodeTlvHeader encLevel ei.tlvType s

/-- The loop of `qmi_encode`. -/
def qmiEncodeLoop (rec : EncodeCall) (cs : Mem) (inCStruct outBufLen encLevel : Nat) :
    Nat → EncodeState → Encoding Nat
  | 0, _ => Traced.fail .exhausted
  | n + 1, s => do
      let (ei, _) ← deref s.tempEi
      if ei.dataType = .eoti then pure s.encodedBytes
      else do
        let s ← qmiEncodeIter rec cs inCStruct outBufLen encLevel ei s
        qmiEncodeLoop rec cs inCStruct outBufLen encLevel n s

/-- The state in which `qmi_encode` enters its loop. -/
def EncodeState.init (eiArray : List QmiElemInfo) (outBuf encLevel : Nat) : EncodeState where
  tempEi := eiArray
  dataLenValue := 0
  bufDst := if encLevel = 1 then outBuf + 3 else outBuf
  tlvPointer := outBuf
  tlvLen := 0
  encodedBytes := 0
  encodeTlv := false

/-- `qmi_encode`. -/
def qmiEncode (cs : Mem) : Nat → EncodeCall
  | 0, _, _, _, _, _ => Traced.fail .exhausted
  | d + 1, eiArray, outBuf, inCStruct, outBufLen, encLevel =>
      if eiArray.isEmpty then pure 0
      else qmiEncodeLoop (qmiEncode cs d) cs inCStruct outBufLen encLevel eiArray.length
        (EncodeState.init eiArray outBuf encLevel)

/-- The low `w` bytes of a C integer. -/
def intBytes (w : Nat) (n : Int) : List UInt8 := leBytes w (n % 256 ^ w).toNat

/-- The call of `qmi_encode` in `qmi_encode_message`, made when there is a structure to encode. -/
def encodePayload (cStruct : Option Mem) (ei : List QmiElemInfo) (outBufLen : Nat) : Encoding Nat :=
  match cStruct with
  | some cs => qmiEncode cs (nestDepth ei) ei qmiHeaderSize 0 outBufLen 1
  | none => pure 0

/-- `qmi_encode_message`: the writes to `pkt->data` and the returned length. `cStruct` is `none` for
    NULL. -/
def qmiEncodeMessage (pkt : QrtrPacket) (type msgId txnId : Int) (cStruct : Option Mem)
    (ei : List QmiElemInfo) : Encoding Nat := do
  if cStruct.isNone then
    let ret ← qmiCalcMinMsgLen (nestDepth ei) ei 1
    if ret ≠ 0 then Traced.fail einval
  if pkt.dataLen < qmiHeaderSize then Traced.fail emsgsize
  else
    match pkt.data with
    | none => Traced.fail .fault
    | some _ => do
        let msglen ← encodePayload cStruct ei (u32 (pkt.dataLen - qmiHeaderSize))
        Traced.emit ⟨0, intBytes 1 type⟩
        Traced.emit ⟨1, intBytes 2 txnId⟩
        Traced.emit ⟨3, intBytes 2 msgId⟩
        Traced.emit ⟨5, leBytes 2 msglen⟩
        pure (qmiHeaderSize + msglen)

/-- `QRTR_TYPE_DATA`. -/
def qrtrTypeData : Int := 1

/-- The packet that a call of `qmi_encode_message` leaves behind. -/
def packetAfter (pkt : QrtrPacket) (run : Encoding Nat) : QrtrPacket :=
  let data := pkt.data.map fun m => applyWrites m run.trace
  match run.res with
  | .ok len => { type := qrtrTypeData, data := data, dataLen := len }
  | .error _ => { pkt with data := data }

end Qrtr
