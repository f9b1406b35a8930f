/-
Module: Qrtr.Qmi.MachineDecode
Layer: Qmi
Purpose: `qmi_decode` with the numbers of C: `decoded_bytes` is a `uint32_t` here and an `int` in the element
  decoders, what a function returns is an `int`, and a pointer that a negative `int` is added to moves back.
  A run that reads nothing from 2^31 bytes on meets none of this: up to its first read there it is the run of
  the decoder over natural numbers. The bound of the loop of a message is enough as long as `decoded_bytes`
  does not wrap.
Imports: Qmi.MachineEncode, Qmi.Walk
Main exports: Machine.qmiDecode, Machine.qmiDecodeMessage, Machine.Reads, Machine.qmiDecode_matches
Open obligations: none
-/
import Qrtr.Qmi.MachineEncode
import Qrtr.Qmi.Walk

namespace Qrtr

namespace Machine

/-! ### The decoder -/

/-- `qmi_decode_basic_elem`; `rc` is a `uint32_t`. -/
def qmiDecodeBasicElem (mem : Mem) (ei : QmiElemInfo) (elemLen bufDst bufSrc : Nat) : Decoding Nat := do
  let rc ← Qrtr.qmiDecodeBasicElem mem ei elemLen 0 bufDst bufSrc
  pure (u32 rc)

/-- The loop of `qmi_decode_struct_elem`: the final `i` and `decoded_bytes`. -/
def qmiDecodeStructLoop (rec : DecodeCall) (ei : QmiElemInfo) (tlvLen decLevel : Nat) :
    Nat → Nat → Nat → Nat → Nat → Decoding (Nat × Nat)
  | 0, i, _, _, decodedBytes => pure (i, decodedBytes)
  | left + 1, i, bufDst, bufSrc, decodedBytes =>
      if decodedBytes < tlvLen then do
        Traced.emit (.enter ei i bufDst)
        let room ← decodeSub tlvLen decodedBytes
        let rc ← rec ei.eiArray bufDst bufSrc room decLevel
        if Negative rc then Traced.fail (.errno (intOf rc))
        else
          qmiDecodeStructLoop rec ei tlvLen decLevel left (i + 1) (bufDst + ei.elemSize)
            (advance bufSrc rc) (u32 (decodedBytes + rc))
      else pure (i, decodedBytes)

/-- `qmi_decode_struct_elem`. -/
def qmiDecodeStructElem (rec : DecodeCall) (ei : QmiElemInfo)
    (bufDst bufSrc elemLen tlvLen decLevel : Nat) : Decoding Nat := do
  let (i, decodedBytes) ← qmiDecodeStructLoop rec ei tlvLen decLevel elemLen 0 bufDst bufSrc 0
  if (decLevel ≤ 2 ∧ decodedBytes ≠ tlvLen) ∨
      (2 < decLevel ∧ (i < elemLen ∨ tlvLen < decodedBytes)) then Traced.fail efault
  else pure decodedBytes

/-- `qmi_decode_string_elem`. -/
def qmiDecodeStringElem (mem : Mem) (ei : QmiElemInfo) (bufDst bufSrc tlvLen decLevel : Nat) :
    Decoding Nat := do
  let (stringLen, decodedBytes) ← decodeStringLen mem ei bufSrc tlvLen decLevel
  if ei.elemLen < stringLen then Traced.fail einval
  else if tlvLen < stringLen then Traced.fail efault
  else do
    let rc ← qmiDecodeBasicElem mem ei stringLen bufDst (bufSrc + decodedBytes)
    Traced.emit (.store ei stringLen (bufDst + stringLen) [0])
    pure (u32 (decodedBytes + rc))

/-- `UPDATE_DECODE_VARIABLES`. -/
def updateDecode (s : DecodeState) (rc : Nat) : DecodeState :=
  { s with bufSrc := advance s.bufSrc rc, decodedBytes := u32 (s.decodedBytes + rc) }

/-- The element at hand, when it is a `QMI_DATA_LEN`. -/
def decodeDataLen (mem : Mem) (out tlvLen : Nat) (s : DecodeState) : Decoding (DecodeState × Nat) := do
  let (ei, rest) ← deref s.tempEi
  if ei.dataType = .dataLen then do
    let low ← qmiDecodeLocal mem s.bufSrc (dataLenSz ei)
    let dataLenValue := overlayLow s.dataLenValue low
    Traced.emit (.store ei 0 (out + ei.offset) (leBytes 4 dataLenValue))
    let tlvLen ← decodeSub tlvLen (dataLenSz ei)
    pure (updateDecode { s with tempEi := rest, dataLenValue := dataLenValue } (dataLenSz ei), tlvLen)
  else pure (s, tlvLen)

/-- The switch of `qmi_decode`. -/
def decodeSwitch (rec : DecodeCall) (mem : Mem) (ei : QmiElemInfo)
    (bufDst bufSrc dataLenValue tlvLen decLevel : Nat) : Decoding Nat :=
  match ei.dataType with
  | .struct => do
      let rc ← qmiDecodeStructElem rec ei bufDst bufSrc dataLenValue tlvLen (decLevel + 1)
      if Negative rc then Traced.fail (.errno (intOf rc)) else pure rc
  | .string => do
      let rc ← qmiDecodeStringElem mem ei bufDst bufSrc tlvLen decLevel
      if Negative rc then Traced.fail (.errno (intOf rc)) else pure rc
  | .eoti | .optFlag | .dataLen => Traced.fail einval
  | _ => qmiDecodeBasicElem mem ei dataLenValue bufDst bufSrc

/-- An iteration of the loop of `qmi_decode` from the assignment to `buf_dst` on. -/
def qmiDecodeElem (rec : DecodeCall) (mem : Mem) (out decLevel tlvLen : Nat) (s : DecodeState) :
    Decoding DecodeState := do
  let s ← decodeOptFlag out s
  let (s, tlvLen) ← decodeDataLen mem out tlvLen s
  let (ei, rest) ← deref s.tempEi
  let dataLenValue ← decodeCount ei s.dataLenValue
  let rc ← decodeSwitch rec mem ei (out + ei.offset) s.bufSrc dataLenValue tlvLen decLevel
  pure (updateDecode { s with tempEi := rest, dataLenValue := dataLenValue } rc)

/-- One iteration of the loop of `qmi_decode`. -/
def qmiDecodeIter (rec : DecodeCall) (mem : Mem) (eiArray : List QmiElemInfo)
    (out inBufLen decLevel : Nat) (s : DecodeState) : Decoding DecodeNext :=
  if decLevel = 1 then do
    let (type, tlvLen) ← decodeTlv mem s.bufSrc
    let s := { s with bufSrc := s.bufSrc + 3, decodedBytes := u32 (s.decodedBytes + 3) }
    match findEi eiArray type with
    | some tempEi => do
        let s ← qmiDecodeElem rec mem out decLevel tlvLen { s with tempEi := tempEi }
        pure (.more s)
    | none =>
        if type < optionalTlvTypeStart then Traced.fail einval
        else pure (.more (updateDecode s tlvLen))
  else do
    let (ei, _) ← deref s.tempEi
    if ei.dataType = .eoti then pure (.done s.decodedBytes)
    else do
      let tlvLen ← decodeSub inBufLen s.decodedBytes
      let s ← qmiDecodeElem rec mem out decLevel tlvLen s
      pure (.more s)

/-- The loop of `qmi_decode`. -/
def qmiDecodeLoop (rec : DecodeCall) (mem : Mem) (eiArray : List QmiElemInfo)
    (out inBufLen decLevel : Nat) : Nat → DecodeState → Decoding Nat
  | 0, _ => Traced.fail .exhausted
  | n + 1, s =>
      if s.decodedBytes < inBufLen then do
        match ← qmiDecodeIter rec mem eiArray out inBufLen decLevel s with
        | .done decodedBytes => pure decodedBytes
        | .more s => qmiDecodeLoop rec mem eiArray out inBufLen decLevel n s
      else pure s.decodedBytes

/-- `qmi_decode`; the result is an `int`, held by its 32 bits. -/
def qmiDecode (mem : Mem) : Nat → DecodeCall
  | 0, _, _, _, _, _ => Traced.fail .exhausted
  | d + 1, eiArray, out, inBuf, inBufLen, decLevel =>
      qmiDecodeLoop (qmiDecode mem d) mem eiArray out inBufLen decLevel
        (inBufLen + eiArray.length + 1) (DecodeState.init eiArray inBuf)

/-- `qmi_decode_message`. -/
def qmiDecodeMessage (cStruct : Option Nat) (txn : Bool) (pkt : QrtrPacket) (type id : Int)
    (ei : List QmiElemInfo) : Decoding (Nat × Option Nat) :=
  match ei, cStruct, pkt.data with
  | [], _, _ => Traced.fail einval
  | _, none, _ => Traced.fail einval
  | _, _, none => Traced.fail einval
  | ei, some out, some mem =>
      if pkt.dataLen = 0 then Traced.fail einval
      else do
        let hdrType ← readHeaderField mem 0 1
        if (hdrType : Int) ≠ type then Traced.fail einval
        else do
          let hdrMsgId ← readHeaderField mem 3 2
          if (hdrMsgId : Int) ≠ id then Traced.fail einval
          else do
            let txnId ← readTxn mem txn
            let len ← payloadLen pkt.dataLen
            let ret ← qmiDecode mem (nestDepth ei) ei out qmiHeaderSize (u32 len) 1
            pure (ret, txnId)

/-! ### As long as the reads stay below a limit -/

/-- A read ends at `limit` at the latest, if it takes any bytes. -/
def Reads (limit : Nat) : DecodeEvent → Prop
  | .tlv pos _ _ => pos + 3 ≤ limit
  | .read pos size => Ends limit pos size
  | .sub .. | .store .. | .enter .. => True

/-- Where a run from `start` on stands. -/
structure Reached (limit start : Nat) (s : DecodeState) : Prop where
  buf : s.bufSrc = start + s.decodedBytes
  le : s.bufSrc ≤ limit

section Agreement

variable {limit start decLevel : Nat}

theorem Ends.add_le {pos n : Nat} (h : Ends limit pos n) (hpos : pos ≤ limit) : pos + n ≤ limit := by
  rcases h with h | h <;> omega

/-- An array of a basic type. -/
theorem qmiDecodeBasicElem_matches (mem : Mem) (ei : QmiElemInfo) (n bufDst : Nat) {bufSrc : Nat}
    (hsmall : limit < 2 ^ 31) (hpos : bufSrc ≤ limit) :
    Traced.Matches (Reads limit) (fun rc => bufSrc + rc ≤ limit)
      (Qrtr.qmiDecodeBasicElem mem ei n 0 bufDst bufSrc) (qmiDecodeBasicElem mem ei n bufDst bufSrc) := by
  have hres := qmiDecodeBasicElem_res mem ei n 0 bufDst bufSrc
  have hends : (Qrtr.qmiDecodeBasicElem mem ei n 0 bufDst bufSrc).Every (Reads limit) →
      bufSrc + n * ei.elemSize ≤ limit := by
    intro hevery
    rw [qmiDecodeBasicElem_every] at hevery
    cases n with
    | zero => simpa using hpos
    | succ n =>
        have hlast := (hevery n (Nat.lt_succ_self n)).1
        rw [Nat.succ_mul]
        rcases hlast with hzero | hle
        · rw [hzero]
          simpa using hpos
        · omega
  have htrace : (qmiDecodeBasicElem mem ei n bufDst bufSrc).trace =
      (Qrtr.qmiDecodeBasicElem mem ei n 0 bufDst bufSrc).trace := Traced.bind_pure_trace _ _
  constructor
  case eq =>
      intro hevery
      have hall : (Qrtr.qmiDecodeBasicElem mem ei n 0 bufDst bufSrc).Every (Reads limit) := by
        rcases hevery with hevery | hevery
        · exact hevery
        · intro e he
          exact hevery e (htrace ▸ he)
      have hrc : u32 (n * ei.elemSize) = n * ei.elemSize := u32_of_lt (by have := hends hall; omega)
      rw [qmiDecodeBasicElem, Traced.bind_ok hres, hrc, ← Traced.eq_after hres]
  case value =>
      intro hevery rc hrc
      rw [hres] at hrc
      cases hrc
      exact hends hevery

/-- A local variable of the caller. -/
theorem qmiDecodeLocal_matches (mem : Mem) {bufSrc : Nat} (size : Nat) (hpos : bufSrc ≤ limit) :
    Traced.Matches (Reads limit) (fun _ => bufSrc + size ≤ limit) (qmiDecodeLocal mem bufSrc size)
      (qmiDecodeLocal mem bufSrc size) :=
  (Traced.matches_emit _).bind fun _ hread => Traced.matches_pure (Ends.add_le hread hpos)

/-- A step that is the same in both and says nothing about positions. -/
theorem matches_same {α : Type} (m : Decoding α) :
    Traced.Matches (Reads limit) (fun _ => True) m m := .of_eq rfl fun _ _ _ => trivial

variable (hsmall : limit < 2 ^ 31)

include hsmall

/-- Adding to the cursors of a run that stands below the limit does not wrap. -/
theorem Reached.update_eq {s : DecodeState} (h : Reached limit start s) {rc : Nat}
    (hrc : s.bufSrc + rc ≤ limit + 65536) (hlt : rc < 2 ^ 31) : updateDecode s rc = s.update rc := by
  have hbuf := h.buf
  rw [updateDecode, DecodeState.update, advance_of_lt hlt (by omega), u32_of_lt (by omega)]

omit hsmall in
theorem Reached.update {s : DecodeState} (h : Reached limit start s) {rc : Nat}
    (hrc : s.bufSrc + rc ≤ limit) : Reached limit start (s.update rc) where
  buf := by
    have hbuf := h.buf
    change s.bufSrc + rc = start + (s.decodedBytes + rc)
    omega
  le := hrc

/-- What `qmi_decode_string_elem` reads. -/
theorem qmiDecodeStringElem_matches (mem : Mem) (ei : QmiElemInfo) (bufDst tlvLen : Nat) {bufSrc : Nat}
    (hpos : bufSrc ≤ limit) :
    Traced.Matches (Reads limit) (fun rc => bufSrc + rc ≤ limit)
      (Qrtr.qmiDecodeStringElem mem ei bufDst bufSrc tlvLen decLevel)
      (qmiDecodeStringElem mem ei bufDst bufSrc tlvLen decLevel) := by
  have hlen : Traced.Matches (Reads limit) (fun r : Nat × Nat => bufSrc + r.2 ≤ limit)
      (decodeStringLen mem ei bufSrc tlvLen decLevel) (decodeStringLen mem ei bufSrc tlvLen decLevel) := by
    refine .check (fun _ => Traced.matches_pure hpos) fun _ => ?_
    exact (qmiDecodeLocal_matches mem _ hpos).bind fun _ hwidth => Traced.matches_pure hwidth
  refine hlen.bind fun ⟨stringLen, width⟩ hwidth => ?_
  refine .check (fun _ => Traced.matches_fail _) fun _ => .check (fun _ => Traced.matches_fail _) fun _ => ?_
  refine (qmiDecodeBasicElem_matches mem ei stringLen bufDst hsmall hwidth).bind fun rc hrc => ?_
  refine (matches_same _).bind fun _ _ => ?_
  rw [u32_of_lt (by omega)]
  exact Traced.matches_pure (by omega)

omit hsmall in
/-- The two versions of a call for a nested structure. -/
def DecodesMatch (limit decLevel : Nat) (rec rec' : DecodeCall) : Prop :=
  ∀ eiArray out inBuf inBufLen, inBuf ≤ limit →
    Traced.Matches (Reads limit) (fun rc => inBuf + rc ≤ limit) (rec eiArray out inBuf inBufLen decLevel)
      (rec' eiArray out inBuf inBufLen decLevel)

/-- The loop over an array of structures, from the byte `decodedBytes` on. -/
theorem qmiDecodeStructLoop_matches {rec rec' : DecodeCall} (hcall : DecodesMatch limit decLevel rec rec')
    (ei : QmiElemInfo) (tlvLen first : Nat) :
    ∀ (left i bufDst : Nat) {bufSrc decodedBytes : Nat}, bufSrc = first + decodedBytes → bufSrc ≤ limit →
      Traced.Matches (Reads limit) (fun r : Nat × Nat => first + r.2 ≤ limit)
        (Qrtr.qmiDecodeStructLoop rec ei tlvLen decLevel left i bufDst bufSrc decodedBytes)
        (qmiDecodeStructLoop rec' ei tlvLen decLevel left i bufDst bufSrc decodedBytes)
  | 0, _, _, _, _, hbuf, hle => Traced.matches_pure (hbuf ▸ hle)
  | left + 1, i, bufDst, bufSrc, decodedBytes, hbuf, hle => by
      refine .check (fun _ => ?_) fun _ => Traced.matches_pure (hbuf ▸ hle)
      refine (matches_same _).bind fun _ _ => (matches_same _).bind fun room _ => ?_
      refine (hcall _ _ _ _ hle).bind fun rc hrc => ?_
      have hpos : ¬ Negative rc := by
        rw [Negative]
        omega
      rw [if_neg hpos, advance_of_lt (by omega) (by omega), u32_of_lt (by omega)]
      exact qmiDecodeStructLoop_matches hcall ei tlvLen first left _ _ (by omega) hrc

/-- The switch. -/
theorem decodeSwitch_matches {rec rec' : DecodeCall} (hcall : DecodesMatch limit (decLevel + 1) rec rec')
    (mem : Mem) (ei : QmiElemInfo) (bufDst dataLenValue tlvLen : Nat) {bufSrc : Nat}
    (hpos : bufSrc ≤ limit) :
    Traced.Matches (Reads limit) (fun rc => bufSrc + rc ≤ limit)
      (Qrtr.decodeSwitch rec mem ei bufDst bufSrc dataLenValue tlvLen decLevel)
      (decodeSwitch rec' mem ei bufDst bufSrc dataLenValue tlvLen decLevel) := by
  -- behind the call: what it returns is not negative
  have hreturn : ∀ {m m' : Decoding Nat},
      Traced.Matches (Reads limit) (fun rc => bufSrc + rc ≤ limit) m m' →
      Traced.Matches (Reads limit) (fun rc => bufSrc + rc ≤ limit) m
        (m' >>= fun rc => if Negative rc then Traced.fail (.errno (intOf rc)) else pure rc) := by
    intro m m' hm
    have hbind : Traced.Matches (Reads limit) (fun rc => bufSrc + rc ≤ limit) (m >>= pure)
        (m' >>= fun rc => if Negative rc then Traced.fail (.errno (intOf rc)) else pure rc) := by
      refine hm.bind fun rc hrc => ?_
      rw [if_neg (by rw [Negative]; omega)]
      exact Traced.matches_pure hrc
    rwa [bind_pure] at hbind
  unfold Qrtr.decodeSwitch decodeSwitch
  cases ei.dataType with
  | struct =>
      apply hreturn
      have hloop := qmiDecodeStructLoop_matches hsmall hcall ei tlvLen bufSrc dataLenValue 0 bufDst
        (Nat.add_zero bufSrc).symm hpos
      refine hloop.bind fun r hr => ?_
      exact .check (fun _ => Traced.matches_fail _) fun _ => Traced.matches_pure hr
  | string => exact hreturn (qmiDecodeStringElem_matches hsmall mem ei bufDst tlvLen hpos)
  | eoti | optFlag | dataLen => exact Traced.matches_fail _
  | _ => exact qmiDecodeBasicElem_matches mem ei _ bufDst hsmall hpos

/-- The element at hand, when it is a `QMI_DATA_LEN`. -/
theorem decodeDataLen_matches (mem : Mem) (out tlvLen : Nat) {s : DecodeState} (h : Reached limit start s) :
    Traced.Matches (Reads limit) (fun r : DecodeState × Nat => Reached limit start r.1)
      (Qrtr.decodeDataLen mem out tlvLen s) (decodeDataLen mem out tlvLen s) := by
  refine (matches_same _).bind fun ⟨ei, rest⟩ _ => .check (fun _ => ?_) fun _ => Traced.matches_pure h
  refine (qmiDecodeLocal_matches mem _ h.le).bind fun low hlow => ?_
  refine (matches_same _).bind fun _ _ => (matches_same _).bind fun left _ => ?_
  have h' : Reached limit start
      { s with tempEi := rest, dataLenValue := overlayLow s.dataLenValue low } := ⟨h.buf, h.le⟩
  rw [h'.update_eq hsmall (by dsimp only; omega) (by omega)]
  exact Traced.matches_pure (h'.update hlow)

/-- An element. -/
theorem qmiDecodeElem_matches {rec rec' : DecodeCall} (hcall : DecodesMatch limit (decLevel + 1) rec rec')
    (mem : Mem) (out tlvLen : Nat) {s : DecodeState} (h : Reached limit start s) :
    Traced.Matches (Reads limit) (Reached limit start)
      (Qrtr.qmiDecodeElem rec mem out decLevel tlvLen s) (qmiDecodeElem rec' mem out decLevel tlvLen s) := by
  have hflag : Traced.Matches (Reads limit) (Reached limit start) (decodeOptFlag out s)
      (decodeOptFlag out s) := by
    refine (matches_same _).bind fun ⟨ei, rest⟩ _ => .check (fun _ => ?_) fun _ => Traced.matches_pure h
    exact (matches_same _).bind fun _ _ => Traced.matches_pure ⟨h.buf, h.le⟩
  refine hflag.bind fun s hs => ?_
  refine (decodeDataLen_matches hsmall mem out tlvLen hs).bind fun ⟨s, tlvLen⟩ hs => ?_
  refine (matches_same _).bind fun ⟨ei, rest⟩ _ => (matches_same _).bind fun count _ => ?_
  refine (decodeSwitch_matches hsmall hcall mem ei _ _ _ hs.le).bind fun rc hrc => ?_
  have h' : Reached limit start { s with tempEi := rest, dataLenValue := count } := ⟨hs.buf, hs.le⟩
  rw [h'.update_eq hsmall (by dsimp only at hrc ⊢; omega) (by dsimp only at hrc; omega)]
  exact Traced.matches_pure (h'.update hrc)

omit hsmall in
/-- How far behind the limit a run may stand: at the top level a TLV that the descriptor does not know is
    skipped without a read. -/
def slack (decLevel : Nat) : Nat := if decLevel = 1 then 65535 else 0

omit hsmall in
/-- What an iteration leaves. -/
def ReachedNext (limit start decLevel : Nat) : DecodeNext → Prop
  | .done decodedBytes => start + decodedBytes ≤ limit + slack decLevel
  | .more s => Reached (limit + slack decLevel) start s

/-- One iteration. -/
theorem qmiDecodeIter_matches {rec rec' : DecodeCall} (hcall : DecodesMatch limit (decLevel + 1) rec rec')
    (mem : Mem) (eiArray : List QmiElemInfo) (out inBufLen : Nat) {s : DecodeState}
    (h : Reached (limit + slack decLevel) start s) :
    Traced.Matches (Reads limit) (ReachedNext limit start decLevel)
      (Qrtr.qmiDecodeIter rec mem eiArray out inBufLen decLevel s)
      (qmiDecodeIter rec' mem eiArray out inBufLen decLevel s) := by
  have hbuf := h.buf
  refine .check (fun hone => ?_) fun hdeep => ?_
  · have htlv : Traced.Matches (Reads limit) (fun r : Nat × Nat => s.bufSrc + 3 ≤ limit ∧ r.2 < 65536)
        (decodeTlv mem s.bufSrc) (decodeTlv mem s.bufSrc) :=
      (Traced.matches_emit _).bind fun _ hread =>
        Traced.matches_pure ⟨hread, leValue_bytes_lt mem (s.bufSrc + 1) 2⟩
    refine htlv.bind ?_
    rintro ⟨type, tlvLen⟩ ⟨hread, hlen⟩
    have hs : Reached limit start (s.update 3) := by
      refine ⟨?_, hread⟩
      change s.bufSrc + 3 = start + (s.decodedBytes + 3)
      omega
    have hsum : u32 (s.decodedBytes + 3) = s.decodedBytes + 3 := u32_of_lt (by omega)
    simp only [hsum]
    cases findEi eiArray type with
    | some tempEi =>
        have hfound : Reached limit start
            ⟨tempEi, s.dataLenValue, s.bufSrc + 3, s.decodedBytes + 3⟩ := ⟨hs.buf, hs.le⟩
        refine (qmiDecodeElem_matches hsmall hcall mem out tlvLen hfound).bind fun s' hs' => ?_
        exact Traced.matches_pure ⟨hs'.buf, Nat.le_trans hs'.le (Nat.le_add_right _ _)⟩
    | none =>
        refine .check (fun _ => Traced.matches_fail _) fun _ => ?_
        have hend : s.bufSrc + 3 + tlvLen ≤ limit + 65535 := by
          dsimp only at hlen
          omega
        have hskip : updateDecode ⟨s.tempEi, s.dataLenValue, s.bufSrc + 3, s.decodedBytes + 3⟩ tlvLen =
            (s.update 3).update tlvLen :=
          hs.update_eq hsmall (Nat.le_trans hend (by omega)) (by dsimp only at hlen; omega)
        rw [hskip]
        refine Traced.matches_pure ⟨?_, by rw [slack, if_pos hone]; exact hend⟩
        have := hs.buf
        change (s.update 3).bufSrc + tlvLen = start + ((s.update 3).decodedBytes + tlvLen)
        omega
  · have hs : Reached limit start s := by
      have hle := h.le
      rw [slack, if_neg hdeep] at hle
      exact ⟨hbuf, hle⟩
    refine (matches_same _).bind ?_
    rintro ⟨ei, _⟩ _
    refine .check (fun _ => ?_) fun _ => ?_
    · exact Traced.matches_pure (Nat.le_trans (Nat.le_of_eq hbuf.symm) h.le)
    · refine (matches_same _).bind fun tlvLen _ => ?_
      refine (qmiDecodeElem_matches hsmall hcall mem out tlvLen hs).bind fun s' hs' => ?_
      exact Traced.matches_pure ⟨hs'.buf, Nat.le_trans hs'.le (Nat.le_add_right _ _)⟩

/-- The loop. -/
theorem qmiDecodeLoop_matches {rec rec' : DecodeCall} (hcall : DecodesMatch limit (decLevel + 1) rec rec')
    (mem : Mem) (eiArray : List QmiElemInfo) (out inBufLen : Nat) :
    ∀ (n : Nat) {s : DecodeState}, Reached (limit + slack decLevel) start s →
      Traced.Matches (Reads limit) (fun rc => start + rc ≤ limit + slack decLevel)
        (Qrtr.qmiDecodeLoop rec mem eiArray out inBufLen decLevel n s)
        (qmiDecodeLoop rec' mem eiArray out inBufLen decLevel n s)
  | 0, _, _ => Traced.matches_fail _
  | n + 1, s, h => by
      refine .check (fun _ => ?_) fun _ => Traced.matches_pure (h.buf ▸ h.le)
      refine (qmiDecodeIter_matches hsmall hcall mem eiArray out inBufLen h).bind fun next hnext => ?_
      cases next with
      | done decodedBytes => exact Traced.matches_pure hnext
      | more s' => exact qmiDecodeLoop_matches hcall mem eiArray out inBufLen n hnext

/-- As long as its reads end at `limit` at the latest, `qmi_decode` is the decoder over natural numbers. -/
theorem qmiDecode_matches (mem : Mem) (d : Nat) (eiArray : List QmiElemInfo) (out : Nat) {inBuf : Nat}
    (inBufLen : Nat) (hlevel : 1 ≤ decLevel) (hstart : inBuf ≤ limit) :
    Traced.Matches (Reads limit) (fun rc => inBuf + rc ≤ limit + slack decLevel)
      (Qrtr.qmiDecode mem d eiArray out inBuf inBufLen decLevel)
      (qmiDecode mem d eiArray out inBuf inBufLen decLevel) := by
  induction d generalizing eiArray out inBuf inBufLen decLevel with
  | zero => exact Traced.matches_fail _
  | succ d ih =>
      have hcall : DecodesMatch limit (decLevel + 1) (Qrtr.qmiDecode mem d) (qmiDecode mem d) := by
        intro eiArray out inBuf inBufLen hstart
        have hcall : Traced.Matches (Reads limit) (fun rc => inBuf + rc ≤ limit + slack (decLevel + 1)) _ _ :=
          ih eiArray out inBufLen (by omega) hstart
        rwa [slack, if_neg (by omega), Nat.add_zero] at hcall
      have hinit : Reached (limit + slack decLevel) inBuf (DecodeState.init eiArray inBuf) :=
        ⟨rfl, Nat.le_trans hstart (Nat.le_add_right _ _)⟩
      exact qmiDecodeLoop_matches hsmall hcall mem eiArray out inBufLen _ hinit

end Agreement

end Machine

end Qrtr
