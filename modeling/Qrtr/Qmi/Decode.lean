/-
Module: Qrtr.Qmi.Decode
Layer: Qmi
Purpose: The decoder of `lib/qmi.c`, function by function: `qmi_decode` with its element decoders,
  `qmi_decode_header` and `qmi_decode_message`. The trace holds every access: reads of the input at
  offsets into the packet, stores to the C structure, TLV headers, and the subtractions of unsigned
  lengths. The input is a total memory, so a read past its end finds an arbitrary byte.
  `DecodeEvent.store` names the element whose field the code means to store to, and the index within
  the field. The loops are bounded by the input and the descriptor, the recursion by `nestDepth`.
  Lengths are natural numbers; `Qmi.MachineDecode` has the decoder with those of C, and
  `Machine.qmiDecode_eq` that they make no difference to inputs and fields of fewer than 2^31 bytes.
Imports: Qmi.Encode
Main exports: Decoding, DecodeEvent, qmiDecodeBasicElem, qmiDecodeStructElem, qmiDecodeStringElem,
  DecodeState, qmiDecodeElem, qmiDecodeIter, qmiDecodeLoop, qmiDecode, qmiDecodeHeader,
  qmiDecodeMessage, storedWrites
Open obligations: none
-/
import Qrtr.Qmi.Encode

namespace Qrtr

/-- What the decoder does to memory and to lengths. -/
inductive DecodeEvent where
  /-- `QMI_ENCDEC_DECODE_TLV` on the three bytes at `pos`. -/
  | tlv (pos type len : Nat)
  /-- A read of `size` bytes of the packet. -/
  | read (pos size : Nat)
  /-- The subtraction `a - b` of unsigned lengths. -/
  | sub (a b : Nat)
  /-- A store to the C structure, meant for the element `index` of the field of `ei`. -/
  | store (ei : QmiElemInfo) (index addr : Nat) (bytes : List UInt8)
  /-- The element `index` of an array of structures is about to be decoded at `addr`. -/
  | enter (ei : QmiElemInfo) (index addr : Nat)

/-- Decoder code: its trace is the accesses that it makes. -/
abbrev Decoding := Traced QmiError DecodeEvent

/-- A recursive call of `qmi_decode`: descriptor, `out_c_struct`, `in_buf`, `in_buf_len`,
    `dec_level`. -/
abbrev DecodeCall := List QmiElemInfo → Nat → Nat → Nat → Nat → Decoding Nat

/-- A subtraction of unsigned lengths. -/
def decodeSub (a b : Nat) : Decoding Nat := do
  Traced.emit (.sub a b)
  pure (u32Sub a b)

/-- `qmi_decode_basic_elem` into a local variable of the caller: the bytes read. -/
def qmiDecodeLocal (mem : Mem) (bufSrc size : Nat) : Decoding (List UInt8) := do
  Traced.emit (.read bufSrc size)
  pure (mem.bytes bufSrc size)

/-- `qmi_decode_basic_elem` into the field of `ei`, from element `i` on. -/
def qmiDecodeBasicElem (mem : Mem) (ei : QmiElemInfo) : Nat → Nat → Nat → Nat → Decoding Nat
  | 0, _, _, _ => pure 0
  | elemLen + 1, i, bufDst, bufSrc => do
      Traced.emit (.read bufSrc ei.elemSize)
      Traced.emit (.store ei i bufDst (mem.bytes bufSrc ei.elemSize))
      let rc ← qmiDecodeBasicElem mem ei elemLen (i + 1) (bufDst + ei.elemSize)
        (bufSrc + ei.elemSize)
      pure (ei.elemSize + rc)

/-- The loop of `qmi_decode_struct_elem`: the final `i` and `decoded_bytes`. -/
def qmiDecodeStructLoop (rec : DecodeCall) (ei : QmiElemInfo) (tlvLen decLevel : Nat) :
    Nat → Nat → Nat → Nat → Nat → Decoding (Nat × Nat)
  | 0, i, _, _, decodedBytes => pure (i, decodedBytes)
  | left + 1, i, bufDst, bufSrc, decodedBytes =>
      if decodedBytes < tlvLen then do
        Traced.emit (.enter ei i bufDst)
        let room ← decodeSub tlvLen decodedBytes
        let rc ← rec ei.eiArray bufDst bufSrc room decLevel
        qmiDecodeStructLoop rec ei tlvLen decLevel left (i + 1) (bufDst + ei.elemSize)
          (bufSrc + rc) (decodedBytes + rc)
      else pure (i, decodedBytes)

/-- `qmi_decode_struct_elem`. -/
def qmiDecodeStructElem (rec : DecodeCall) (ei : QmiElemInfo)
    (bufDst bufSrc elemLen tlvLen decLevel : Nat) : Decoding Nat := do
  let (i, decodedBytes) ← qmiDecodeStructLoop rec ei tlvLen decLevel elemLen 0 bufDst bufSrc 0
  if (decLevel ≤ 2 ∧ decodedBytes ≠ tlvLen) ∨
      (2 < decLevel ∧ (i < elemLen ∨ tlvLen < decodedBytes)) then Traced.fail efault
  else pure decodedBytes

/-- The length of a string and the bytes it took to read it. -/
def decodeStringLen (mem : Mem) (ei : QmiElemInfo) (bufSrc tlvLen decLevel : Nat) :
    Decoding (Nat × Nat) :=
  if decLevel = 1 then pure (tlvLen, 0)
  else do
    let low ← qmiDecodeLocal mem bufSrc (stringLenSz ei)
    pure (overlayLow 0 low, stringLenSz ei)

/-- `qmi_decode_string_elem`. -/
def qmiDecodeStringElem (mem : Mem) (ei : QmiElemInfo) (bufDst bufSrc tlvLen decLevel : Nat) :
    Decoding Nat := do
  let (stringLen, decodedBytes) ← decodeStringLen mem ei bufSrc tlvLen decLevel
  if ei.elemLen < stringLen then Traced.fail einval
  else if tlvLen < stringLen then Traced.fail efault
  else do
    let rc ← qmiDecodeBasicElem mem ei stringLen 0 bufDst (bufSrc + decodedBytes)
    Traced.emit (.store ei stringLen (bufDst + stringLen) [0])
    pure (decodedBytes + rc)

/-- The local variables of `qmi_decode` that outlive an iteration of its loop. -/
structure DecodeState where
  tempEi : List QmiElemInfo
  dataLenValue : Nat
  bufSrc : Nat
  decodedBytes : Nat

/-- `UPDATE_DECODE_VARIABLES`. -/
def DecodeState.update (s : DecodeState) (rc : Nat) : DecodeState :=
  { s with bufSrc := s.bufSrc + rc, decodedBytes := s.decodedBytes + rc }

/-- The element at hand, when it is a `QMI_OPT_FLAG`, is set and passed over. -/
def decodeOptFlag (out : Nat) (s : DecodeState) : Decoding DecodeState := do
  let (ei, rest) ← deref s.tempEi
  if ei.dataType = .optFlag then do
    Traced.emit (.store ei 0 (out + ei.offset) [1])
    pure { s with tempEi := rest }
  else pure s

/-- The element at hand, when it is a `QMI_DATA_LEN`, is read into the low bytes of
    `data_len_value`, stored and passed over; also the `tlv_len` that is left. -/
def decodeDataLen (mem : Mem) (out tlvLen : Nat) (s : DecodeState) :
    Decoding (DecodeState × Nat) := do
  let (ei, rest) ← deref s.tempEi
  if ei.dataType = .dataLen then do
    let low ← qmiDecodeLocal mem s.bufSrc (dataLenSz ei)
    let dataLenValue := overlayLow s.dataLenValue low
    Traced.emit (.store ei 0 (out + ei.offset) (leBytes 4 dataLenValue))
    let tlvLen ← decodeSub tlvLen (dataLenSz ei)
    pure ({ s with tempEi := rest, dataLenValue := dataLenValue }.update (dataLenSz ei), tlvLen)
  else pure (s, tlvLen)

/-- `data_len_value` for the value at hand, from its array type and the value so far. -/
def decodeCount (ei : QmiElemInfo) (dataLenValue : Nat) : Decoding Nat :=
  match ei.arrayType with
  | .noArray => pure 1
  | .staticArray => pure ei.elemLen
  | .varLenArray =>
      if ei.elemLen < dataLenValue then Traced.fail einval else pure dataLenValue

/-- The switch of `qmi_decode`. -/
def decodeSwitch (rec : DecodeCall) (mem : Mem) (ei : QmiElemInfo)
    (bufDst bufSrc dataLenValue tlvLen decLevel : Nat) : Decoding Nat :=
  match ei.dataType with
  | .struct => qmiDecodeStructElem rec ei bufDst bufSrc dataLenValue tlvLen (decLevel + 1)
  | .string => qmiDecodeStringElem mem ei bufDst bufSrc tlvLen decLevel
  | .eoti | .optFlag | .dataLen => Traced.fail einval
  | _ => qmiDecodeBasicElem mem ei dataLenValue 0 bufDst bufSrc

/-- An iteration of the loop of `qmi_decode` from the assignment to `buf_dst` on. -/
def qmiDecodeElem (rec : DecodeCall) (mem : Mem) (out decLevel tlvLen : Nat) (s : DecodeState) :
    Decoding DecodeState := do
  let s ← decodeOptFlag out s
  let (s, tlvLen) ← decodeDataLen mem out tlvLen s
  let (ei, rest) ← deref s.tempEi
  let dataLenValue ← decodeCount ei s.dataLenValue
  let rc ← decodeSwitch rec mem ei (out + ei.offset) s.bufSrc dataLenValue tlvLen decLevel
  pure ({ s with tempEi := rest, dataLenValue := dataLenValue }.update rc)

/-- `OPTIONAL_TLV_TYPE_START`. -/
def optionalTlvTypeStart : Nat := 0x10

/-- `QMI_ENCDEC_DECODE_TLV`. -/
def decodeTlv (mem : Mem) (pos : Nat) : Decoding (Nat × Nat) := do
  let type := (mem pos).toNat
  let len := leValue (mem.bytes (pos + 1) 2)
  Traced.emit (.tlv pos type len)
  pure (type, len)

/-- How an iteration of the loop of `qmi_decode` ends. -/
inductive DecodeNext where
  | done (decodedBytes : Nat)
  | more (s : DecodeState)

/-- One iteration of the loop of `qmi_decode`. -/
def qmiDecodeIter (rec : DecodeCall) (mem : Mem) (eiArray : List QmiElemInfo)
    (out inBufLen decLevel : Nat) (s : DecodeState) : Decoding DecodeNext :=
  if decLevel = 1 then do
    let (type, tlvLen) ← decodeTlv mem s.bufSrc
    let s := s.update 3
    match findEi eiArray type with
    | some tempEi => do
        let s ← qmiDecodeElem rec mem out decLevel tlvLen { s with tempEi := tempEi }
        pure (.more s)
    | none =>
        if type < optionalTlvTypeStart then Traced.fail einval
        else pure (.more (s.update tlvLen))
  else do
    let (ei, _) ← deref s.tempEi
    if ei.dataType = .eoti then pure (.done s.decodedBytes)
    else do
      let tlvLen ← decodeSub inBufLen s.decodedBytes
      let s ← qmiDecodeElem rec mem out decLevel tlvLen s
      pure (.more s)

/-- The loop of `qmi_decode`. -/
def qmiDecodeLoop (rec : DecodeCall) (mem : Mem) (eiArray : List QmiElemInfo)
    (out inBufLen decLevel : Nat) : Nat → DecodeState → Decoding Nat
  | 0, _ => Traced.fail .exhausted
  | n + 1, s =>
      if s.decodedBytes < inBufLen then do
        match ← qmiDecodeIter rec mem eiArray out inBufLen decLevel s with
        | .done decodedBytes => pure decodedBytes
        | .more s => qmiDecodeLoop rec mem eiArray out inBufLen decLevel n s
      else pure s.decodedBytes

/-- The state in which `qmi_decode` enters its loop. -/
def DecodeState.init (eiArray : List QmiElemInfo) (inBuf : Nat) : DecodeState where
  tempEi := eiArray
  dataLenValue := 0
  bufSrc := inBuf
  decodedBytes := 0

/-- `qmi_decode`. -/
def qmiDecode (mem : Mem) : Nat → DecodeCall
  | 0, _, _, _, _, _ => Traced.fail .exhausted
  | d + 1, eiArray, out, inBuf, inBufLen, decLevel =>
      qmiDecodeLoop (qmiDecode mem d) mem eiArray out inBufLen decLevel
        (inBufLen + eiArray.length + 1) (DecodeState.init eiArray inBuf)

/-- A field of `struct qmi_header`: `size` bytes of the packet at `pos`. -/
def readHeaderField (mem : Mem) (pos size : Nat) : Decoding Nat := do
  Traced.emit (.read pos size)
  pure (leValue (mem.bytes pos size))

/-- `pkt->data_len - sizeof(struct qmi_header)`, a subtraction of `size_t`. -/
def payloadLen (dataLen : Nat) : Decoding Nat := do
  Traced.emit (.sub dataLen qmiHeaderSize)
  pure ((dataLen + (2 ^ 64 - qmiHeaderSize)) % 2 ^ 64)

/-- `qmi_decode_header`: the message id, or a negative errno. -/
def qmiDecodeHeader (pkt : QrtrPacket) : Decoding Nat :=
  match pkt.data with
  | none => Traced.fail .fault
  | some mem => do
      let msgLen ← readHeaderField mem 5 2
      let len ← payloadLen pkt.dataLen
      if msgLen ≠ len then Traced.fail einval
      else readHeaderField mem 3 2

/-- `if (txn) *txn = hdr->txn_id`. -/
def readTxn (mem : Mem) (txn : Bool) : Decoding (Option Nat) :=
  if txn then do
    let txnId ← readHeaderField mem 1 2
    pure (some txnId)
  else pure none

/-- `qmi_decode_message`: the returned length and what is stored in `*txn`. `cStruct` is the address
    of the structure, `none` for NULL. -/
def qmiDecodeMessage (cStruct : Option Nat) (txn : Bool) (pkt : QrtrPacket) (type id : Int)
    (ei : List QmiElemInfo) : Decoding (Nat × Option Nat) :=
  match ei, cStruct, pkt.data with
  | [], _, _ => Traced.fail einval
  | _, none, _ => Traced.fail einval
  | _, _, none => Traced.fail einval
  | ei, some out, some mem =>
      if pkt.dataLen = 0 then Traced.fail einval
      else do
        let hdrType ← readHeaderField mem 0 1
        if (hdrType : Int) ≠ type then Traced.fail einval
        else do
          let hdrMsgId ← readHeaderField mem 3 2
          if (hdrMsgId : Int) ≠ id then Traced.fail einval
          else do
            let txnId ← readTxn mem txn
            let len ← payloadLen pkt.dataLen
            let ret ← qmiDecode mem (nestDepth ei) ei out qmiHeaderSize (u32 len) 1
            pure (ret, txnId)

/-- The store of an event, if it is one. -/
def DecodeEvent.write? : DecodeEvent → Option Write
  | .store _ _ addr bytes => some ⟨addr, bytes⟩
  | _ => none

/-- The stores to the C structure, in order. -/
def storedWrites (trace : List DecodeEvent) : List Write := trace.filterMap DecodeEvent.write?

end Qrtr
