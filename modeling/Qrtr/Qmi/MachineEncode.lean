/-
Module: Qrtr.Qmi.MachineEncode
Layer: Qmi
Purpose: `qmi_encode` with the numbers of C: `encoded_bytes` and `tlv_len` are `uint32_t`, what a function
  returns is an `int`, and a pointer that a negative `int` is added to moves back. A run that stays in a buffer
  of fewer than 2^31 bytes meets none of this: up to its first byte outside the buffer it is the run of the
  encoder over natural numbers.
Imports: Qmi.EncodePieces
Main exports: Machine.Negative, Machine.intOf, Machine.advance, Machine.qmiEncode, Standing,
  Machine.qmiEncode_matches
Open obligations: none
-/
import Qrtr.Qmi.EncodePieces

namespace Qrtr

namespace Machine

/-! ### Numbers -/

/-- A C `int` is held by its 32 bits, and is negative if the highest of them is set. -/
def Negative (rc : Nat) : Prop := 2 ^ 31 ≤ rc

instance (rc : Nat) : Decidable (Negative rc) := by
  unfold Negative
  infer_instance

/-- The number that an `int` stands for. -/
def intOf (rc : Nat) : Int := ((rc + 2 ^ 31 : Nat) : Int) % 2 ^ 32 - 2 ^ 31

theorem intOf_of_lt {rc : Nat} (h : rc < 2 ^ 31) : intOf rc = rc := by
  unfold intOf
  omega

theorem intOf_lt (rc : Nat) : intOf rc < 2 ^ 31 := by
  unfold intOf
  omega

/-- A pointer moved by an `int`. -/
def advance (p rc : Nat) : Nat := ((p + intOf rc) % 2 ^ 64).toNat

theorem advance_of_lt {p rc : Nat} (hrc : rc < 2 ^ 31) (hp : p + rc < 2 ^ 64) : advance p rc = p + rc := by
  rw [advance, intOf_of_lt hrc]
  omega

/-! ### The encoder -/

/-- `qmi_encode_basic_elem`; `rc` is a `uint32_t`. -/
def qmiEncodeBasicElem (cs : Mem) (elemSize elemLen bufDst bufSrc : Nat) : Encoding Nat := do
  let rc ← Qrtr.qmiEncodeBasicElem cs elemSize elemLen bufDst bufSrc
  pure (u32 rc)

/-- `qmi_encode_struct_elem`, from `encoded_bytes` on. -/
def qmiEncodeStructElem (rec : EncodeCall) (ei : QmiElemInfo) (outBufLen encLevel : Nat) :
    Nat → Nat → Nat → Nat → Encoding Nat
  | 0, _, _, encodedBytes => pure encodedBytes
  | elemLen + 1, bufDst, bufSrc, encodedBytes => do
      let rc ← rec ei.eiArray bufDst bufSrc (u32Sub outBufLen encodedBytes) encLevel
      if Negative rc then Traced.fail (.errno (intOf rc))
      else
        qmiEncodeStructElem rec ei outBufLen encLevel elemLen (advance bufDst rc) (bufSrc + ei.elemSize)
          (u32 (encodedBytes + rc))

/-- `qmi_encode_string_elem`. -/
def qmiEncodeStringElem (cs : Mem) (ei : QmiElemInfo) (bufDst bufSrc outBufLen encLevel : Nat) :
    Encoding Nat :=
  let stringLen := strnlen cs bufSrc (ei.elemLen + 1)
  let stringLenSz := stringLenSz ei
  if ei.elemLen < stringLen then Traced.fail einval
  else if encLevel = 1 then
    if outBufLen < stringLen + 3 then Traced.fail einval
    else qmiEncodeBasicElem cs ei.elemSize stringLen bufDst bufSrc
  else if outBufLen < u32 (stringLen + stringLenSz) then Traced.fail einval
  else do
    let encodedBytes ← qmiEncodeLocal bufDst stringLenSz stringLen
    let rc ← qmiEncodeBasicElem cs ei.elemSize stringLen (bufDst + encodedBytes) bufSrc
    pure (u32 (encodedBytes + rc))

/-- `UPDATE_ENCODE_VARIABLES`. -/
def update (s : EncodeState) (rc : Nat) : EncodeState :=
  { s with
    tempEi := s.tempEi.tail
    bufDst := advance s.bufDst rc
    encodedBytes := u32 (s.encodedBytes + rc)
    tlvLen := u32 (s.tlvLen + rc)
    encodeTlv := true }

/-- The branch `QMI_DATA_LEN`. -/
def encodeDataLen (cs : Mem) (ei : QmiElemInfo) (bufSrc outBufLen encLevel : Nat) (s : EncodeState) :
    Encoding EncodeState := do
  let dataLenValue := overlayLow s.dataLenValue (cs.bytes bufSrc ei.elemSize)
  let dataLenSz := dataLenSz ei
  if outBufLen < u32 (dataLenSz + s.encodedBytes) + 3 then Traced.fail einval
  else do
    let rc ← qmiEncodeLocal s.bufDst dataLenSz dataLenValue
    let s := { update s rc with dataLenValue := dataLenValue }
    if dataLenValue = 0 then do
      let next ← skipToNextElem s.tempEi encLevel
      pure { s with tempEi := next }
    else pure { s with encodeTlv := false }

/-- The branches of the basic types. -/
def encodeBasic (cs : Mem) (ei : QmiElemInfo) (bufSrc outBufLen : Nat) (s : EncodeState) :
    Encoding EncodeState :=
  if outBufLen < u32 (u32 (s.dataLenValue * ei.elemSize) + s.encodedBytes) + 3 then
    Traced.fail einval
  else do
    let rc ← qmiEncodeBasicElem cs ei.elemSize s.dataLenValue s.bufDst bufSrc
    pure (update s rc)

/-- The branch `QMI_STRUCT`. -/
def encodeStruct (rec : EncodeCall) (ei : QmiElemInfo) (bufSrc outBufLen encLevel : Nat)
    (s : EncodeState) : Encoding EncodeState := do
  let rc ← qmiEncodeStructElem rec ei (u32Sub outBufLen s.encodedBytes) (encLevel + 1)
    s.dataLenValue s.bufDst bufSrc 0
  if Negative rc then Traced.fail (.errno (intOf rc)) else pure (update s rc)

/-- The branch `QMI_STRING`. -/
def encodeString (cs : Mem) (ei : QmiElemInfo) (bufSrc outBufLen encLevel : Nat) (s : EncodeState) :
    Encoding EncodeState := do
  let rc ← qmiEncodeStringElem cs ei s.bufDst bufSrc (u32Sub outBufLen s.encodedBytes) encLevel
  if Negative rc then Traced.fail (.errno (intOf rc)) else pure (update s rc)

/-- The switch of `qmi_encode`. -/
def encodeSwitch (rec : EncodeCall) (cs : Mem) (ei : QmiElemInfo)
    (bufSrc outBufLen encLevel : Nat) (s : EncodeState) : Encoding EncodeState :=
  match ei.dataType with
  | .optFlag => encodeOptFlag cs bufSrc encLevel s
  | .dataLen => encodeDataLen cs ei bufSrc outBufLen encLevel s
  | .struct => encodeStruct rec ei bufSrc outBufLen encLevel s
  | .string => encodeString cs ei bufSrc outBufLen encLevel s
  | .eoti => Traced.fail einval
  | _ => encodeBasic cs ei bufSrc outBufLen s

/-- The end of an iteration: `QMI_ENCDEC_ENCODE_TLV` back-patches the header when a TLV is complete. -/
def encodeTlvHeader (encLevel : Nat) (tlvType : UInt8) (s : EncodeState) : Encoding EncodeState :=
  if s.encodeTlv ∧ encLevel = 1 then do
    Traced.emit ⟨s.tlvPointer, [tlvType]⟩
    Traced.emit ⟨s.tlvPointer + 1, [UInt8.ofNat s.tlvLen]⟩
    Traced.emit ⟨s.tlvPointer + 2, [UInt8.ofNat (s.tlvLen / 256)]⟩
    pure { s with
      encodedBytes := u32 (s.encodedBytes + 3)
      tlvPointer := s.bufDst
      tlvLen := 0
      bufDst := s.bufDst + 3
      encodeTlv := false }
  else pure s

/-- One iteration of the loop of `qmi_encode`, at the element `ei`. -/
def qmiEncodeIter (rec : EncodeCall) (cs : Mem) (inCStruct outBufLen encLevel : Nat)
    (ei : QmiElemInfo) (s : EncodeState) : Encoding EncodeState := do
  let dataLenValue ← encodeCount ei s.dataLenValue
  let s ← encodeSwitch rec cs ei (inCStruct + ei.offset) outBufLen encLevel
    { s with dataLenValue := dataLenValue }
  encodeTlvHeader encLevel ei.tlvType s

/-- The loop of `qmi_encode`. -/
def qmiEncodeLoop (rec : EncodeCall) (cs : Mem) (inCStruct outBufLen encLevel : Nat) :
    Nat → EncodeState → Encoding Nat
  | 0, _ => Traced.fail .exhausted
  | n + 1, s => do
      let (ei, _) ← deref s.tempEi
      if ei.dataType = .eoti then pure s.encodedBytes
      else do
        let s ← qmiEncodeIter rec cs inCStruct outBufLen encLevel ei s
        qmiEncodeLoop rec cs inCStruct outBufLen encLevel n s

/-- `qmi_encode`; the result is an `int`, held by its 32 bits. -/
def qmiEncode (cs : Mem) : Nat → EncodeCall
  | 0, _, _, _, _, _ => Traced.fail .exhausted
  | d + 1, eiArray, outBuf, inCStruct, outBufLen, encLevel =>
      if eiArray.isEmpty then pure 0
      else qmiEncodeLoop (qmiEncode cs d) cs inCStruct outBufLen encLevel eiArray.length
        (EncodeState.init eiArray outBuf encLevel)

/-! ### As long as the writes stay in the buffer -/

/-- Every byte of the write is below `bound`. -/
def Below (bound : Nat) (w : Write) : Prop := ∀ i, i < w.bytes.length → w.addr + i < bound

/-- `n` bytes written from `pos` on end below `bound`, if there are any. -/
def Ends (bound pos n : Nat) : Prop := n = 0 ∨ pos + n ≤ bound

/-- Where a run from `start` on stands. At the top level three bytes are left free for a header, which ends
    where the payload of the TLV starts. -/
structure Standing (bound start encLevel : Nat) (s : EncodeState) : Prop where
  buf : s.bufDst = start + s.encodedBytes
  le : s.bufDst ≤ bound + 3
  tlv : s.tlvLen ≤ s.encodedBytes
  top : encLevel = 1 → s.bufDst ≤ bound ∨ s.bufDst = s.tlvPointer + 3
  nested : encLevel ≠ 1 → Ends bound start s.encodedBytes

section Agreement

variable {bound start encLevel outBufLen : Nat}

/-- Where a run stands depends on its cursors alone. -/
theorem Standing.congr {s s' : EncodeState} (h : Standing bound start encLevel s)
    (hdst : s'.bufDst = s.bufDst) (hbytes : s'.encodedBytes = s.encodedBytes)
    (htlv : s'.tlvLen = s.tlvLen) (hpointer : s'.tlvPointer = s.tlvPointer) :
    Standing bound start encLevel s' where
  buf := by rw [hdst, hbytes, h.buf]
  le := hdst ▸ h.le
  tlv := by rw [htlv, hbytes]; exact h.tlv
  top := by rw [hdst, hpointer]; exact h.top
  nested := by rw [hbytes]; exact h.nested

/-- Bytes were written, or none were needed. -/
theorem Standing.update {s : EncodeState} (h : Standing bound start encLevel s) {rc : Nat}
    (hrc : Ends bound s.bufDst rc) : Standing bound start encLevel (s.update rc) := by
  have hbuf := h.buf
  have hle := h.le
  have htlv := h.tlv
  constructor
  case buf =>
      change s.bufDst + rc = start + (s.encodedBytes + rc)
      omega
  case le =>
      change s.bufDst + rc ≤ bound + 3
      rcases hrc with hrc | hrc <;> omega
  case tlv =>
      change s.tlvLen + rc ≤ s.encodedBytes + rc
      omega
  case top =>
      intro hone
      change s.bufDst + rc ≤ bound ∨ s.bufDst + rc = s.tlvPointer + 3
      rcases hrc with hrc | hrc
      · rw [hrc]
        exact h.top hone
      · exact .inl hrc
  case nested =>
      intro hdeep
      change Ends bound start (s.encodedBytes + rc)
      rcases hrc with hrc | hrc
      · rw [hrc]
        exact h.nested hdeep
      · exact .inr (by omega)

/-- An array of a basic type. -/
theorem qmiEncodeBasicElem_matches (cs : Mem) (elemSize n bufDst bufSrc : Nat)
    (hsmall : bound < 2 ^ 32) :
    Traced.Matches (Below bound) (Ends bound bufDst)
      (Qrtr.qmiEncodeBasicElem cs elemSize n bufDst bufSrc)
      (qmiEncodeBasicElem cs elemSize n bufDst bufSrc) := by
  obtain ⟨hres, hws⟩ := qmiEncodeBasicElem_spec cs elemSize n bufDst bufSrc
  have hends : Traced.Every (Below bound) (Qrtr.qmiEncodeBasicElem cs elemSize n bufDst bufSrc) →
      Ends bound bufDst (n * elemSize) := by
    intro hevery
    by_contra hnot
    rw [Ends, not_or] at hnot
    have hne : cs.bytes bufSrc (n * elemSize) ≠ [] := by
      intro hnil
      have hlen := congrArg List.length hnil
      rw [Mem.length_bytes] at hlen
      exact hnot.1 hlen
    have hover : bound < bufDst + (cs.bytes bufSrc (n * elemSize)).length := by
      rw [Mem.length_bytes]
      omega
    obtain ⟨w, hw, hend, hbytes⟩ := hws.overrun hne hover
    have hpos := List.length_pos_iff.mpr hbytes
    have := hevery w hw (w.bytes.length - 1) (by omega)
    omega
  have htrace : (qmiEncodeBasicElem cs elemSize n bufDst bufSrc).trace =
      (Qrtr.qmiEncodeBasicElem cs elemSize n bufDst bufSrc).trace := Traced.bind_pure_trace _ _
  constructor
  case eq =>
      intro hevery
      have hall : Traced.Every (Below bound) (Qrtr.qmiEncodeBasicElem cs elemSize n bufDst bufSrc) := by
        rcases hevery with hevery | hevery
        · exact hevery
        · intro w hw
          exact hevery w (htrace ▸ hw)
      have hrc : u32 (n * elemSize) = n * elemSize := u32_of_lt (by
        rcases hends hall with hzero | hle <;> omega)
      rw [qmiEncodeBasicElem, Traced.bind_ok hres, hrc, ← Traced.eq_after hres]
  case value =>
      intro hevery rc hrc
      rw [hres] at hrc
      cases hrc
      exact hends hevery

/-- A local variable of the caller. -/
theorem qmiEncodeLocal_matches (bufDst size value : Nat) :
    Traced.Matches (Below bound) (fun rc => rc = size ∧ Ends bound bufDst rc)
      (qmiEncodeLocal bufDst size value) (qmiEncodeLocal bufDst size value) := by
  refine (Traced.matches_emit _).bind fun _ hin => Traced.matches_pure ⟨rfl, ?_⟩
  rcases Nat.eq_zero_or_pos size with hzero | hpos
  · exact .inl hzero
  · have hlast := hin (size - 1) (by rw [length_leBytes]; omega)
    exact .inr (by dsimp only at hlast; omega)

variable (hsmall : bound < 2 ^ 31)

include hsmall

/-- Adding to the cursors of a run that stands in the buffer does not wrap. -/
theorem Standing.update_eq {s : EncodeState} (h : Standing bound start encLevel s) {rc : Nat}
    (hrc : Ends bound s.bufDst rc) : Machine.update s rc = s.update rc := by
  have hbuf := h.buf
  have hle := h.le
  have htlv := h.tlv
  have hsum : rc ≤ bound ∧ s.bufDst + rc ≤ bound + 3 := by rcases hrc with hrc | hrc <;> omega
  rw [Machine.update, EncodeState.update, advance_of_lt (by omega) (by omega), u32_of_lt (by omega),
    u32_of_lt (by omega)]

/-- The branches of the basic types. -/
theorem encodeBasic_matches (cs : Mem) (ei : QmiElemInfo) (bufSrc : Nat) {s : EncodeState}
    (h : Standing bound start encLevel s) :
    Traced.Matches (Below bound) (Standing bound start encLevel)
      (Qrtr.encodeBasic cs ei bufSrc outBufLen s) (encodeBasic cs ei bufSrc outBufLen s) := by
  refine .check (fun _ => Traced.matches_fail _) fun _ => ?_
  refine (qmiEncodeBasicElem_matches cs _ _ _ _ (by omega)).bind fun rc hrc => ?_
  rw [h.update_eq hsmall hrc]
  exact Traced.matches_pure (h.update hrc)

/-- The branch `QMI_DATA_LEN`. -/
theorem encodeDataLen_matches (cs : Mem) (ei : QmiElemInfo) (bufSrc : Nat) {s : EncodeState}
    (h : Standing bound start encLevel s) :
    Traced.Matches (Below bound) (Standing bound start encLevel)
      (Qrtr.encodeDataLen cs ei bufSrc outBufLen encLevel s)
      (encodeDataLen cs ei bufSrc outBufLen encLevel s) := by
  refine .check (fun _ => Traced.matches_fail _) fun _ => ?_
  refine (qmiEncodeLocal_matches _ _ _).bind fun rc ⟨_, hrc⟩ => ?_
  rw [h.update_eq hsmall hrc]
  have hnext := h.update hrc
  refine .check (fun _ => ?_) fun _ => Traced.matches_pure (hnext.congr rfl rfl rfl rfl)
  refine Traced.Matches.bind (R := fun _ => True) (.of_eq rfl fun _ _ _ => trivial) fun next _ => ?_
  exact Traced.matches_pure (hnext.congr rfl rfl rfl rfl)

/-- What `qmi_encode_string_elem` writes. -/
theorem qmiEncodeStringElem_matches (cs : Mem) (ei : QmiElemInfo) (bufDst bufSrc room : Nat) :
    Traced.Matches (Below bound) (Ends bound bufDst)
      (Qrtr.qmiEncodeStringElem cs ei bufDst bufSrc room encLevel)
      (qmiEncodeStringElem cs ei bufDst bufSrc room encLevel) := by
  refine .check (fun _ => Traced.matches_fail _) fun _ => .check (fun _ => ?_) fun _ => ?_
  · refine .check (fun _ => Traced.matches_fail _) fun _ => ?_
    exact qmiEncodeBasicElem_matches cs _ _ _ _ (by omega)
  · refine .check (fun _ => Traced.matches_fail _) fun _ => ?_
    refine (qmiEncodeLocal_matches _ _ _).bind fun width ⟨_, hwidth⟩ => ?_
    refine (qmiEncodeBasicElem_matches cs _ _ _ _ (by omega)).bind fun rc hrc => ?_
    have hends : Ends bound bufDst (width + rc) := by
      unfold Ends at *
      omega
    have hsum : u32 (width + rc) = width + rc := u32_of_lt (by
      rcases hends with hends | hends <;> omega)
    rw [hsum]
    exact Traced.matches_pure hends

/-- The branch `QMI_STRING`. -/
theorem encodeString_matches (cs : Mem) (ei : QmiElemInfo) (bufSrc : Nat) {s : EncodeState}
    (h : Standing bound start encLevel s) :
    Traced.Matches (Below bound) (Standing bound start encLevel)
      (Qrtr.encodeString cs ei bufSrc outBufLen encLevel s)
      (encodeString cs ei bufSrc outBufLen encLevel s) := by
  refine (qmiEncodeStringElem_matches hsmall cs ei _ _ _).bind fun rc hrc => ?_
  have hpos : ¬ Negative rc := by
    rw [Negative]
    rcases hrc with hrc | hrc <;> omega
  rw [if_neg hpos, h.update_eq hsmall hrc]
  exact Traced.matches_pure (h.update hrc)

omit hsmall in
/-- The two versions of a call for a nested structure. -/
def CallMatches (bound encLevel : Nat) (rec rec' : EncodeCall) : Prop :=
  ∀ eiArray bufDst bufSrc room, bufDst ≤ bound + 3 →
    Traced.Matches (Below bound) (Ends bound bufDst) (rec eiArray bufDst bufSrc room encLevel)
      (rec' eiArray bufDst bufSrc room encLevel)

/-- An array of structures, from the byte `encodedBytes` of its encoding on. -/
theorem qmiEncodeStructElem_matches {rec rec' : EncodeCall} (hcall : CallMatches bound encLevel rec rec')
    (ei : QmiElemInfo) (room first : Nat) :
    ∀ (n : Nat) {bufDst bufSrc encodedBytes : Nat}, bufDst = first + encodedBytes → bufDst ≤ bound + 3 →
      Ends bound first encodedBytes →
      Traced.Matches (Below bound) (Ends bound first)
        (Qrtr.qmiEncodeStructElem rec ei room encLevel n bufDst bufSrc encodedBytes)
        (qmiEncodeStructElem rec' ei room encLevel n bufDst bufSrc encodedBytes)
  | 0, _, _, _, _, _, hends => Traced.matches_pure hends
  | n + 1, bufDst, bufSrc, encodedBytes, hdst, hle, hends => by
      refine (hcall _ _ _ _ hle).bind fun rc hrc => ?_
      have hbound : rc ≤ bound := by rcases hrc with hrc | hrc <;> omega
      have hpos : ¬ Negative rc := by
        rw [Negative]
        omega
      have hnext : Ends bound first (encodedBytes + rc) := by
        unfold Ends at *
        omega
      rw [if_neg hpos, advance_of_lt (by omega) (by omega),
        u32_of_lt (by rcases hnext with hnext | hnext <;> omega)]
      refine qmiEncodeStructElem_matches hcall ei room first n (by omega) ?_ hnext
      rcases hrc with hrc | hrc <;> omega

/-- The branch `QMI_STRUCT`. -/
theorem encodeStruct_matches {rec rec' : EncodeCall} (hcall : CallMatches bound (encLevel + 1) rec rec')
    (ei : QmiElemInfo) (bufSrc : Nat) {s : EncodeState} (h : Standing bound start encLevel s) :
    Traced.Matches (Below bound) (Standing bound start encLevel)
      (Qrtr.encodeStruct rec ei bufSrc outBufLen encLevel s)
      (encodeStruct rec' ei bufSrc outBufLen encLevel s) := by
  refine (qmiEncodeStructElem_matches hsmall hcall ei _ _ _ rfl h.le (.inl rfl)).bind fun rc hrc => ?_
  have hpos : ¬ Negative rc := by
    rw [Negative]
    rcases hrc with hrc | hrc <;> omega
  rw [if_neg hpos, h.update_eq hsmall hrc]
  exact Traced.matches_pure (h.update hrc)

/-- The switch. -/
theorem encodeSwitch_matches {rec rec' : EncodeCall} (hcall : CallMatches bound (encLevel + 1) rec rec')
    (cs : Mem) (ei : QmiElemInfo) (bufSrc : Nat) {s : EncodeState}
    (h : Standing bound start encLevel s) :
    Traced.Matches (Below bound) (Standing bound start encLevel)
      (Qrtr.encodeSwitch rec cs ei bufSrc outBufLen encLevel s)
      (encodeSwitch rec' cs ei bufSrc outBufLen encLevel s) := by
  unfold Qrtr.encodeSwitch encodeSwitch
  cases ei.dataType with
  | optFlag =>
      refine .check (fun _ => Traced.matches_pure (h.congr rfl rfl rfl rfl)) fun _ => ?_
      refine Traced.Matches.bind (R := fun _ => True) (.of_eq rfl fun _ _ _ => trivial) fun next _ => ?_
      exact Traced.matches_pure (h.congr rfl rfl rfl rfl)
  | dataLen => exact encodeDataLen_matches hsmall cs ei bufSrc h
  | struct => exact encodeStruct_matches hsmall hcall ei bufSrc h
  | string => exact encodeString_matches hsmall cs ei bufSrc h
  | eoti => exact Traced.matches_fail _
  | _ => exact encodeBasic_matches hsmall cs ei bufSrc h

/-- The end of an iteration. -/
theorem encodeTlvHeader_matches (type : UInt8) {s : EncodeState} (h : Standing bound start encLevel s) :
    Traced.Matches (Below bound) (Standing bound start encLevel)
      (Qrtr.encodeTlvHeader encLevel type s) (encodeTlvHeader encLevel type s) := by
  refine .check (fun ⟨_, hone⟩ => ?_) fun _ => Traced.matches_pure h
  refine (Traced.matches_emit _).bind fun _ _ => (Traced.matches_emit _).bind fun _ _ =>
    (Traced.matches_emit _).bind fun _ hlast => ?_
  have hpointer := hlast 0 Nat.one_pos
  dsimp only at hpointer
  have hbuf := h.buf
  have hle : s.bufDst ≤ bound := by
    rcases h.top hone with hle | hempty <;> omega
  rw [u32_of_lt (by omega)]
  apply Traced.matches_pure
  constructor
  case buf =>
      change s.bufDst + 3 = start + (s.encodedBytes + 3)
      omega
  case le =>
      change s.bufDst + 3 ≤ bound + 3
      omega
  case tlv => exact Nat.zero_le _
  case top => exact fun _ => .inr rfl
  case nested => exact fun hdeep => absurd hone hdeep

/-- One iteration. -/
theorem qmiEncodeIter_matches {rec rec' : EncodeCall} (hcall : CallMatches bound (encLevel + 1) rec rec')
    (cs : Mem) (inCStruct : Nat) (ei : QmiElemInfo) {s : EncodeState}
    (h : Standing bound start encLevel s) :
    Traced.Matches (Below bound) (Standing bound start encLevel)
      (Qrtr.qmiEncodeIter rec cs inCStruct outBufLen encLevel ei s)
      (qmiEncodeIter rec' cs inCStruct outBufLen encLevel ei s) := by
  refine Traced.Matches.bind (R := fun _ => True) (.of_eq rfl fun _ _ _ => trivial) fun count _ => ?_
  have hcounted : Standing bound start encLevel { s with dataLenValue := count } := h.congr rfl rfl rfl rfl
  refine (encodeSwitch_matches hsmall hcall cs ei _ hcounted).bind fun s' h' => ?_
  exact encodeTlvHeader_matches hsmall ei.tlvType h'

/-- The loop. -/
theorem qmiEncodeLoop_matches {rec rec' : EncodeCall} (hcall : CallMatches bound (encLevel + 1) rec rec')
    (cs : Mem) (inCStruct : Nat) :
    ∀ (n : Nat) {s : EncodeState}, Standing bound start encLevel s →
      Traced.Matches (Below bound) (fun rc => start + rc ≤ bound + 3 ∧ (encLevel ≠ 1 → Ends bound start rc))
        (Qrtr.qmiEncodeLoop rec cs inCStruct outBufLen encLevel n s)
        (qmiEncodeLoop rec' cs inCStruct outBufLen encLevel n s)
  | 0, _, _ => Traced.matches_fail _
  | n + 1, s, h => by
      refine Traced.Matches.bind (R := fun _ => True) (.of_eq rfl fun _ _ _ => trivial) fun ⟨ei, _⟩ _ => ?_
      refine .check (fun _ => ?_) fun _ => ?_
      · exact Traced.matches_pure ⟨h.buf ▸ h.le, h.nested⟩
      · refine (qmiEncodeIter_matches hsmall hcall cs inCStruct ei h).bind fun s' h' => ?_
        exact qmiEncodeLoop_matches hcall cs inCStruct n h'

omit hsmall in
/-- The buffer of a call starts inside the buffer of the run; that of a nested structure may start where the
    bytes left free for a header end. -/
def Entered (bound encLevel outBuf : Nat) : Prop :=
  encLevel = 1 ∧ outBuf ≤ bound ∨ 1 < encLevel ∧ outBuf ≤ bound + 3

omit hsmall in
/-- The state in which `qmi_encode` enters its loop. -/
theorem Standing.init (eiArray : List QmiElemInfo) {outBuf : Nat} (h : Entered bound encLevel outBuf) :
    Standing bound (EncodeState.init eiArray outBuf encLevel).bufDst encLevel
      (EncodeState.init eiArray outBuf encLevel) where
  buf := rfl
  le := by
    unfold Entered at h
    unfold EncodeState.init
    dsimp only
    split <;> omega
  tlv := Nat.le_refl _
  top hone := by simp [EncodeState.init, hone]
  nested _ := .inl rfl

omit hsmall in
/-- What a call returns: no more than fits, and in a nested structure the end of its bytes. -/
def Returned (bound encLevel outBuf rc : Nat) : Prop :=
  rc ≤ bound ∧ (encLevel ≠ 1 → Ends bound outBuf rc)

/-- As long as its writes stay below `bound`, `qmi_encode` is the encoder over natural numbers. -/
theorem qmiEncode_matches (cs : Mem) (d : Nat) (eiArray : List QmiElemInfo) {outBuf : Nat}
    (inCStruct outBufLen : Nat) (h : Entered bound encLevel outBuf) :
    Traced.Matches (Below bound) (Returned bound encLevel outBuf)
      (Qrtr.qmiEncode cs d eiArray outBuf inCStruct outBufLen encLevel)
      (qmiEncode cs d eiArray outBuf inCStruct outBufLen encLevel) := by
  induction d generalizing eiArray outBuf inCStruct outBufLen encLevel with
  | zero => exact Traced.matches_fail _
  | succ d ih =>
      refine .check (fun _ => Traced.matches_pure ⟨Nat.zero_le _, fun _ => .inl rfl⟩) fun _ => ?_
      have hlevel : 1 ≤ encLevel := by
        unfold Entered at h
        omega
      have hcall : CallMatches bound (encLevel + 1) (Qrtr.qmiEncode cs d) (qmiEncode cs d) := by
        intro eiArray bufDst bufSrc room hle
        refine (ih eiArray bufSrc room (.inr ⟨by omega, hle⟩)).imp (fun _ h => h) fun rc hrc => ?_
        exact hrc.2 (by omega)
      refine (qmiEncodeLoop_matches hsmall hcall cs inCStruct eiArray.length
        (Standing.init eiArray h)).imp (fun _ h => h) fun rc ⟨hend, hnested⟩ => ?_
      unfold EncodeState.init at hend hnested
      dsimp only at hend hnested
      by_cases hone : encLevel = 1
      · rw [if_pos hone] at hend
        exact ⟨by omega, fun hdeep => absurd hone hdeep⟩
      · rw [if_neg hone] at hend hnested
        have hends := hnested hone
        refine ⟨?_, fun _ => hends⟩
        rcases hends with hends | hends <;> omega

end Agreement

end Machine

end Qrtr
