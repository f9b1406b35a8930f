/-
Module: Qrtr.Qmi.DecodeReads
Layer: Qmi
Purpose: What the decoder reads. Its accesses stay inside a packet, and no subtraction of lengths wraps, if
  and only if every site of the message lies in the packet, a count in its TLV; `qmi_decode_header` stays
  inside the packets that hold a header. The decoder does not check any of this itself.
Imports: Qmi.Walk, Qmi.EncodeCorrect
Main exports: DecodeEvent.StaysInside, Site.InPacket, qmiDecode_staysInside_iff, qmiDecodeHeader_staysInside_iff
Open obligations: none
-/
import Qrtr.Qmi.Walk
import Qrtr.Qmi.EncodeCorrect

namespace Qrtr

/-- The `size` bytes at `pos` are bytes of a packet of `dataLen` bytes. -/
def Inside (dataLen pos size : Nat) : Prop := ∀ i, i < size → pos + i < dataLen

instance (dataLen pos size : Nat) : Decidable (Inside dataLen pos size) := by
  unfold Inside
  infer_instance

/-- The access reads only bytes of the packet, and a subtraction does not wrap. -/
def DecodeEvent.StaysInside (dataLen : Nat) : DecodeEvent → Prop
  | .tlv pos _ _ => Inside dataLen pos 3
  | .read pos size => Inside dataLen pos size
  | .sub a b => b ≤ a
  | .store .. | .enter .. => True

/-- The site lies in the packet, and a count in what is left of its TLV. -/
def Site.InPacket (dataLen : Nat) : Site → Prop
  | .header pos => Inside dataLen pos 3
  | .count pos width room => Inside dataLen pos width ∧ width ≤ room
  | .body pos size => Inside dataLen pos size
  | .textLen pos width => Inside dataLen pos width
  | .text _ pos len size => Inside dataLen pos (len * size)

instance (dataLen : Nat) (s : Site) : Decidable (s.InPacket dataLen) := by
  cases s <;> unfold Site.InPacket <;> infer_instance

/-- Elements one after the other are inside exactly when the block of them is. -/
theorem inside_mul_iff (dataLen pos size n : Nat) :
    (∀ i, i < n → Inside dataLen (pos + i * size) size) ↔ Inside dataLen pos (n * size) := by
  constructor
  · intro h j hj
    have hsize : 0 < size := Nat.pos_of_ne_zero fun h0 => by simp [h0] at hj
    have hdiv : j / size < n := (Nat.div_lt_iff_lt_mul hsize).mpr hj
    have hin := h (j / size) hdiv (j % size) (Nat.mod_lt _ hsize)
    have hsplit := Nat.div_add_mod' j size
    omega
  · intro h i hi j hj
    have hle : (i + 1) * size ≤ n * size := Nat.mul_le_mul_right _ hi
    have hsucc : (i + 1) * size = i * size + size := Nat.succ_mul i size
    have hin := h (i * size + j) (by omega)
    omega

theorem tracked_staysInside (dataLen : Nat) (mem : Mem) (out : Nat) (g : Group) :
    Tracked (DecodeEvent.StaysInside dataLen) (Site.InPacket dataLen) mem out g where
  flag _ _ := trivial
  count l _ pos v room := by simp [DecodeEvent.StaysInside, Site.InPacket]
  basic _ _ n _ pos := by
    simp only [ElemsIn, DecodeEvent.StaysInside, Site.InPacket, and_true]
    exact inside_mul_iff _ _ _ _
  enter _ _ _ := trivial
  textLen _ := Iff.rfl
  text _ len _ pos := by
    simp only [ElemsIn, DecodeEvent.StaysInside, Site.InPacket, and_true]
    exact inside_mul_iff _ _ _ _

theorem trackedAt_staysInside {R : Nat → List Group → QmiElemInfo → Prop} (dataLen : Nat) (mem : Mem)
    {level : Nat} {ei : List QmiElemInfo} (h : Described R level ei) (out : Nat) :
    TrackedAt (DecodeEvent.StaysInside dataLen) (Site.InPacket dataLen) mem ei out := by
  induction h generalizing out with
  | mk hend hshape _ _ ih =>
      refine .mk (fun g _ => tracked_staysInside dataLen mem out g) ?_
      rw [groups_flatten hend hshape]
      intro g hg hstruct i _
      exact ih g hg hstruct _

/-- The decoder of a message stays inside the packet exactly when the sites of the message do. -/
theorem qmiDecode_staysInside_iff {R : Nat → List Group → QmiElemInfo → Prop} (mem : Mem)
    {ei : List QmiElemInfo} (h : Described R 1 ei) (out inBuf inBufLen dataLen : Nat) :
    (qmiDecode mem (nestDepth ei) ei out inBuf inBufLen 1).Every (DecodeEvent.StaysInside dataLen) ↔
      (walkMessage mem ei inBuf inBufLen).Every (Site.InPacket dataLen) := by
  rw [qmiDecode_eq_readMessage mem h]
  exact (readMessage_tracks h (trackedAt_staysInside dataLen mem h out) (fun _ _ hlt => Nat.le_of_lt hlt)
    (fun _ _ _ => Iff.rfl) inBuf inBufLen).every_iff

/-! ### The header -/

theorem readHeaderField_bind {α : Type} (mem : Mem) (pos size : Nat) (f : Nat → Decoding α) :
    readHeaderField mem pos size >>= f =
      Traced.after [.read pos size] (f (leValue (mem.bytes pos size))) := rfl

theorem payloadLen_bind {α : Type} (dataLen : Nat) (f : Nat → Decoding α) :
    payloadLen dataLen >>= f =
      Traced.after [.sub dataLen qmiHeaderSize] (f ((dataLen + (2 ^ 64 - qmiHeaderSize)) % 2 ^ 64)) :=
  rfl

/-- What `qmi_decode_message` stores in `*txn`. -/
theorem readTxn_res (mem : Mem) (txn : Bool) :
    (readTxn mem txn).res = .ok (if txn then some (leValue (mem.bytes 1 2)) else none) := by
  cases txn <;> rfl

/-- `qmi_decode_header` reads the last two bytes of the header of any packet. -/
theorem qmiDecodeHeader_staysInside_iff {pkt : QrtrPacket} {mem : Mem} (hdata : pkt.data = some mem) :
    (qmiDecodeHeader pkt).Every (DecodeEvent.StaysInside pkt.dataLen) ↔ 7 ≤ pkt.dataLen := by
  have hfive : Inside pkt.dataLen 5 2 ↔ 7 ≤ pkt.dataLen := by
    constructor
    · intro h
      have := h 1 (by omega)
      omega
    · intro h i hi
      omega
  have hthree : 7 ≤ pkt.dataLen → Inside pkt.dataLen 3 2 := fun h i hi => by omega
  unfold qmiDecodeHeader
  rw [hdata]
  simp only [readHeaderField_bind, payloadLen_bind, Traced.after_after, List.cons_append,
    List.nil_append, Traced.every_after, List.forall_mem_cons, DecodeEvent.StaysInside, hfive]
  constructor
  · exact fun h => h.1.1
  · intro h
    refine ⟨⟨h, h, by simp⟩, ?_⟩
    split
    · exact Traced.every_fail _
    · simpa [readHeaderField, ← bind_pure_comp, DecodeEvent.StaysInside] using hthree h

/-- The header of the packet carries the expected type and message id. -/
def HeaderMatches (mem : Mem) (type id : Int) : Prop :=
  (leValue (mem.bytes 0 1) : Int) = type ∧ (leValue (mem.bytes 3 2) : Int) = id

end Qrtr
