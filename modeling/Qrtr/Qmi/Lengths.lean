/-
Module: Qrtr.Qmi.Lengths
Layer: Qmi
Purpose: Whether the length fields of an encoded message are true. The encoder adds lengths up as 32-bit
  numbers and stores them in fields of 16 bits, at the TLVs and in the header, and nothing in between
  compares them with 65535. The space that it is given has no say in what it writes where it succeeds.
Imports: Qmi.RoundTrip
Main exports: qmiEncode_agree, qmiEncodeMessage_agree, HoldsTlvs, LengthsTrue, lengthsTrue_iff
Open obligations: none
-/
import Qrtr.Qmi.RoundTrip

namespace Qrtr

open Traced

/-! ### The encoder and the space it is given -/

/-- Where the call for a structure succeeds, it does the same whatever the space. -/
abbrev CallAgrees (rec : EncodeCall) : Prop :=
  ∀ ei outBuf base n n' level, Agree (rec ei outBuf base n level) (rec ei outBuf base n' level)

section

variable {rec : EncodeCall} (hrec : CallAgrees rec) (cs : Mem) (ei : QmiElemInfo) (n n' level : Nat)

include hrec in
theorem qmiEncodeStructElem_agree (elemLen bufDst bufSrc encodedBytes : Nat) :
    Agree (qmiEncodeStructElem rec ei n level elemLen bufDst bufSrc encodedBytes)
      (qmiEncodeStructElem rec ei n' level elemLen bufDst bufSrc encodedBytes) := by
  induction elemLen generalizing bufDst bufSrc encodedBytes with
  | zero => exact .refl _
  | succ elemLen ih => exact (hrec _ _ _ _ _ _).bind fun _ => ih _ _ _

theorem qmiEncodeStringElem_agree (bufDst bufSrc : Nat) :
    Agree (qmiEncodeStringElem cs ei bufDst bufSrc n level)
      (qmiEncodeStringElem cs ei bufDst bufSrc n' level) := by
  unfold qmiEncodeStringElem
  apply Agree.check
  by_cases hlevel : level = 1
  · rw [if_pos hlevel, if_pos hlevel]
    exact (Agree.refl _).check
  · rw [if_neg hlevel, if_neg hlevel]
    exact (Agree.refl _).check

include hrec in
theorem encodeSwitch_agree (bufSrc : Nat) (s : EncodeState) :
    Agree (encodeSwitch rec cs ei bufSrc n level s) (encodeSwitch rec cs ei bufSrc n' level s) := by
  unfold encodeSwitch
  cases ei.dataType with
  | eoti => exact .refl _
  | optFlag => exact .refl _
  | dataLen => exact (Agree.refl _).check
  | struct => exact (qmiEncodeStructElem_agree hrec _ _ _ _ _ _ _ _).bind fun _ => .refl _
  | string => exact (qmiEncodeStringElem_agree _ _ _ _ _ _ _).bind fun _ => .refl _
  | _ => exact (Agree.refl _).check

include hrec in
theorem qmiEncodeLoop_agree (base fuel : Nat) (s : EncodeState) :
    Agree (qmiEncodeLoop rec cs base n level fuel s) (qmiEncodeLoop rec cs base n' level fuel s) := by
  induction fuel generalizing s with
  | zero => exact .refl _
  | succ fuel ih =>
      apply (Agree.refl _).bind
      rintro ⟨ei, rest⟩
      by_cases hend : ei.dataType = .eoti
      · simp only [if_pos hend]
        exact .refl _
      · simp only [if_neg hend]
        refine Agree.bind ?_ fun s => ih s
        apply (Agree.refl _).bind
        intro dataLenValue
        exact (encodeSwitch_agree hrec _ _ _ _ _ _ _).bind fun _ => .refl _

end

/-- What the encoder writes and returns where it succeeds does not depend on the space. -/
theorem qmiEncode_agree (cs : Mem) (d : Nat) : CallAgrees (qmiEncode cs d) := by
  induction d with
  | zero => exact fun _ _ _ _ _ _ => .refl _
  | succ d ih =>
      intro ei outBuf base n n' level
      rw [qmiEncode, qmiEncode]
      split
      · exact .refl _
      · exact qmiEncodeLoop_agree ih _ _ _ _ _ _ _

theorem qmiEncodeMessage_agree {pkt pkt' : QrtrPacket} (hdata : pkt.data = pkt'.data)
    (type msgId txnId : Int) (cs : Mem) (ei : List QmiElemInfo) :
    Agree (qmiEncodeMessage pkt type msgId txnId (some cs) ei)
      (qmiEncodeMessage pkt' type msgId txnId (some cs) ei) := by
  unfold qmiEncodeMessage
  simp only [Option.isNone_some, Bool.false_eq_true, if_false]
  apply Agree.check
  rw [hdata]
  cases pkt'.data with
  | none => exact .refl _
  | some m => exact (qmiEncode_agree cs _ _ _ _ _ _ _).bind fun _ => .refl _

/-! ### Length fields -/

/-- From `pos` on the packet holds the given types and payloads as TLVs, and each length field is the number
    of bytes of its payload. -/
def HoldsTlvs (mem : Mem) : Nat → List (UInt8 × List UInt8) → Prop
  | _, [] => True
  | pos, (type, payload) :: rest =>
      mem pos = type ∧ leValue (mem.bytes (pos + 1) 2) = payload.length ∧ mem.Has (pos + 3) payload ∧
        HoldsTlvs mem (pos + 3 + payload.length) rest

/-- The types and payloads of the present fields of a message. -/
def messageTlvs (cs : Mem) (ei : List QmiElemInfo) : List (UInt8 × List UInt8) :=
  ((groups ei).filter (Group.present cs 0)).map fun g =>
    (g.value.tlvType, g.body cs (nestDepth ei - 1) 0)

/-- The number of bytes of the TLVs. -/
def tlvsSize (tlvs : List (UInt8 × List UInt8)) : Nat := (tlvs.map fun tlv => 3 + tlv.2.length).sum

/-- The packet holds the given TLVs behind its header, the length fields of the header and of the TLVs are
    the numbers of bytes that follow, and `qmi_decode_header` returns the message id. -/
def LengthsTrue (pkt : QrtrPacket) (msgId : Int) (tlvs : List (UInt8 × List UInt8)) : Prop :=
  ∃ mem, pkt.data = some mem ∧ pkt.dataLen = qmiHeaderSize + tlvsSize tlvs ∧
    leValue (mem.bytes 5 2) = pkt.dataLen - qmiHeaderSize ∧ HoldsTlvs mem qmiHeaderSize tlvs ∧
    ∃ id, (qmiDecodeHeader pkt).res = .ok id ∧ (id : Int) = msgId

theorem tlvsSize_messageTlvs (cs : Mem) (ei : List QmiElemInfo) :
    tlvsSize (messageTlvs cs ei) = (messageBytes cs ei 0).length := by
  rw [messageBytes, tlvBytes, messageTlvs, tlvsSize, List.length_flatMap, List.map_map]
  congr 1
  apply List.map_congr_left
  intro g _
  exact (length_tlv cs _ 0 g).symm

/-- Where the bytes of the TLVs stand and no payload is too long for its field, the fields are true. -/
theorem holdsTlvs_of_has {cs : Mem} {d : Nat} {mem : Mem} :
    ∀ {gs : List Group} {pos : Nat}, mem.Has pos (gs.flatMap (Group.tlv cs d 0)) →
      (gs.flatMap (Group.tlv cs d 0)).length < 65536 →
      HoldsTlvs mem pos (gs.map fun g => (g.value.tlvType, g.body cs d 0))
  | [], _, _, _ => trivial
  | g :: gs, pos, hhas, hlt => by
      rw [List.flatMap_cons, Mem.has_append, length_tlv] at hhas
      rw [List.flatMap_cons, List.length_append, length_tlv] at hlt
      obtain ⟨htlv, hrest⟩ := hhas
      rw [Group.tlv, Mem.has_append, length_tlvHeader] at htlv
      obtain ⟨hheader, hbody⟩ := htlv
      have hfields : mem pos = g.value.tlvType ∧
          mem.bytes (pos + 1) 2 = leBytes 2 (g.body cs d 0).length := by
        rw [tlvHeader, Mem.Has, List.length_cons, length_leBytes] at hheader
        exact List.cons.inj hheader
      refine ⟨hfields.1, ?_, hbody, ?_⟩
      · rw [hfields.2, leValue_leBytes, Nat.mod_eq_of_lt]
        exact Nat.lt_of_le_of_lt (by omega) hlt
      · rw [Nat.add_assoc]
        exact holdsTlvs_of_has hrest (by omega)

/-- A packet that holds the header and the bytes of a message that is short enough. -/
theorem lengthsTrue_packet (m cs : Mem) {ei : List QmiElemInfo} (type txnId : Int) {msgId : Int}
    (hid : 0 ≤ msgId ∧ msgId < 65536) (hlen : (messageBytes cs ei 0).length ≤ 65535) :
    LengthsTrue
      ⟨qrtrTypeData, some (m.write 0 (packetBytes type msgId txnId cs ei)),
        qmiHeaderSize + (messageBytes cs ei 0).length⟩ msgId (messageTlvs cs ei) := by
  have hhas := Mem.has_write m 0 (packetBytes type msgId txnId cs ei)
  refine ⟨_, rfl, by rw [tlvsSize_messageTlvs], ?_⟩
  unfold qmiDecodeHeader
  generalize m.write 0 (packetBytes type msgId txnId cs ei) = mem at hhas ⊢
  rw [packetBytes] at hhas
  simp only [Mem.has_append, List.length_append, length_intBytes, length_leBytes, Nat.zero_add,
    Nat.reduceAdd] at hhas
  obtain ⟨⟨⟨⟨-, -⟩, hmsgId⟩, hmsgLen⟩, hmsg⟩ := hhas
  simp only [Mem.Has, length_intBytes, length_leBytes] at hmsgId hmsgLen
  have hvalue : leValue (mem.bytes 5 2) = (messageBytes cs ei 0).length := by
    rw [hmsgLen, leValue_leBytes]
    exact Nat.mod_eq_of_lt (Nat.lt_succ_of_le hlen)
  refine ⟨?_, ?_, leValue (intBytes 2 msgId), ?_, ?_⟩
  · rw [hvalue, Nat.add_sub_cancel_left]
  · exact holdsTlvs_of_has hmsg (Nat.lt_succ_of_le hlen)
  · have hpayload : (qmiHeaderSize + (messageBytes cs ei 0).length + (2 ^ 64 - qmiHeaderSize)) % 2 ^ 64 =
        (messageBytes cs ei 0).length := by
      unfold qmiHeaderSize
      omega
    rw [← hmsgId]
    simp only [readHeaderField_bind, payloadLen_bind, after_res, hvalue, hpayload, ne_eq,
      not_true_eq_false, if_false]
    rfl
  · rw [leValue_intBytes]
    exact Int.emod_eq_of_lt hid.1 hid.2

/-- Only into a packet with data does `qmi_encode_message` succeed. -/
theorem data_of_encoded {pkt : QrtrPacket} {type msgId txnId : Int} {cs : Mem} {ei : List QmiElemInfo}
    {len : Nat} (hok : (qmiEncodeMessage pkt type msgId txnId (some cs) ei).res = .ok len) :
    ∃ m, pkt.data = some m := by
  unfold qmiEncodeMessage at hok
  simp only [Option.isNone_some, Bool.false_eq_true, if_false] at hok
  split at hok
  · cases hok
  cases hdata : pkt.data with
  | none =>
      rw [hdata] at hok
      cases hok
  | some m => exact ⟨m, rfl⟩

/-- Wherever `qmi_encode_message` succeeds, the lengths are true if and only if no more than 65535 bytes
    follow the header. -/
theorem lengthsTrue_iff {pkt : QrtrPacket} {cs : Mem} {ei : List QmiElemInfo}
    (h : Described EncodeRules 1 ei) (hfit : ValuesFit id cs (nestDepth ei) ei 0)
    {type msgId txnId : Int} (hid : 0 ≤ msgId ∧ msgId < 65536) {len : Nat}
    (hok : (qmiEncodeMessage pkt type msgId txnId (some cs) ei).res = .ok len) :
    LengthsTrue (packetAfter pkt (qmiEncodeMessage pkt type msgId txnId (some cs) ei)) msgId
        (messageTlvs cs ei) ↔
      (messageBytes cs ei 0).length ≤ 65535 := by
  constructor
  · rintro ⟨mem, -, hsize, hlen, -⟩
    have hlt := leValue_bytes_lt mem 5 2
    rw [hlen, hsize, tlvsSize_messageTlvs] at hlt
    omega
  · intro hlen
    obtain ⟨m, hdata⟩ := data_of_encoded hok
    -- the run is that into a packet with just the space that the message takes
    obtain ⟨pkt', hpkt'⟩ : ∃ pkt' : QrtrPacket,
      pkt' = { pkt with dataLen := qmiHeaderSize + (messageBytes cs ei 0).length } := ⟨_, rfl⟩
    have hdata' : pkt'.data = some m := hpkt' ▸ hdata
    have hroom : qmiHeaderSize ≤ pkt'.dataLen := by
      rw [hpkt']
      exact Nat.le_add_right _ _
    have hspace : (messageBytes cs ei 0).length ≤ u32 (pkt'.dataLen - qmiHeaderSize) := by
      rw [hpkt', Nat.add_sub_cancel_left, u32_of_lt (by omega)]
    obtain ⟨hpacket, hres⟩ := qmiEncodeMessage_run hdata' type msgId txnId h hfit hroom hspace
    obtain ⟨hvalue, htrace⟩ := qmiEncodeMessage_agree (hdata.trans hdata'.symm) type msgId txnId cs ei
      _ _ hok hres
    have hsame : packetAfter pkt (qmiEncodeMessage pkt type msgId txnId (some cs) ei) =
        packetAfter pkt' (qmiEncodeMessage pkt' type msgId txnId (some cs) ei) := by
      rw [packetAfter, packetAfter, hok, hres, htrace, hvalue, hdata, hdata']
    rw [hsame, hpacket]
    exact lengthsTrue_packet m cs type txnId hid hlen

/-- The string "ab". -/
theorem lengthsTrue_iff_sample :
    LengthsTrue (packetAfter ⟨0, some fun _ => 0, 16⟩
        (qmiEncodeMessage ⟨0, some fun _ => 0, 16⟩ 2 0x20 1 (some sampleValue) sampleMessage)) 0x20
        (messageTlvs sampleValue sampleMessage) ↔
      (messageBytes sampleValue sampleMessage 0).length ≤ 65535 := by
  have hbytes : messageBytes sampleValue sampleMessage 0 = [1, 3, 0, 2, 97, 98] := by decide
  have hdata : (⟨0, some fun _ => 0, 16⟩ : QrtrPacket).data = some fun _ => 0 := rfl
  have hfit := sampleValue_fits.low sampleMessage_described
  obtain ⟨-, hres⟩ := qmiEncodeMessage_run hdata 2 0x20 1 sampleMessage_described hfit
    (by decide) (by rw [hbytes]; decide)
  exact lengthsTrue_iff sampleMessage_described hfit (by decide) hres

/-- A message with an array of 65536 bytes. -/
def sampleLong : List QmiElemInfo :=
  flatten [⟨none, none, ⟨.unsigned1Byte, 65536, 1, .staticArray, 1, 0, []⟩⟩] sampleEnd

theorem sampleLong_described : Described EncodeRules 1 sampleLong := by
  refine .mk rfl ?_ ⟨?_, ?_⟩ ?_
  · simp only [List.mem_singleton, forall_eq]
    exact ⟨by simp, by simp, trivial⟩
  · simp only [List.mem_singleton, forall_eq]
    exact ⟨by simp, by simp, by simp, by simp, by simp, by simp⟩
  · intro _
    exact ⟨by simp [Group.elems], by simp [headType, sampleEnd], trivial⟩
  · simp

/-- The array takes one byte more than its length field can say, and the TLV four more than that of the
    header. -/
theorem not_lengthsTrue :
    Described EncodeRules 1 sampleLong ∧
      ValuesFit id (fun _ => 0) (nestDepth sampleLong) sampleLong 0 ∧
      (∃ len, (qmiEncodeMessage ⟨0, some fun _ => 0, 65546⟩ 2 0x20 1 (some fun _ => 0) sampleLong).res =
        .ok len) ∧
      ¬ LengthsTrue (packetAfter ⟨0, some fun _ => 0, 65546⟩
          (qmiEncodeMessage ⟨0, some fun _ => 0, 65546⟩ 2 0x20 1 (some fun _ => 0) sampleLong)) 0x20
          (messageTlvs (fun _ => 0) sampleLong) := by
  have hfit : ValuesFit id (fun _ => 0) (nestDepth sampleLong) sampleLong 0 := by
    intro g hg _
    rw [List.mem_singleton.mp (show g ∈ [(⟨none, none, _⟩ : Group)] from hg)]
    exact ⟨by simp, fun _ => trivial⟩
  have hlen : (messageBytes (fun _ => 0) sampleLong 0).length = 65539 := by
    have hmsg : messageBytes (fun _ => 0) sampleLong 0 =
        Group.tlv (fun _ => 0) 0 0
          ⟨none, none, ⟨.unsigned1Byte, 65536, 1, .staticArray, 1, 0, []⟩⟩ ++ [] := rfl
    rw [hmsg, List.append_nil, length_tlv]
    simp [Group.body, Group.payload, Group.countPrefix, Group.hasValue, valueBytes, Group.count]
  have hdata : (⟨0, some fun _ => 0, 65546⟩ : QrtrPacket).data = some fun _ => 0 := rfl
  obtain ⟨-, hres⟩ := qmiEncodeMessage_run hdata 2 0x20 1 sampleLong_described hfit (by decide)
    (by rw [hlen]; decide)
  refine ⟨sampleLong_described, hfit, ⟨_, hres⟩, ?_⟩
  rintro ⟨mem, -, hsize, hmsgLen, -⟩
  have hlt := leValue_bytes_lt mem 5 2
  rw [hmsgLen, hsize, tlvsSize_messageTlvs, hlen] at hlt
  exact absurd hlt (by decide)

end Qrtr
