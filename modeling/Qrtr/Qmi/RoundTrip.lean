/-
Module: Qrtr.Qmi.RoundTrip
Layer: Qmi
Purpose: A message that goes through a packet: `qmi_encode_message` into a packet and `qmi_decode_message`
  out of it, into a zeroed structure. It comes through if and only if its type and ids fit the fields of
  the header and the decoder meets a clean state on the way.
Imports: Qmi.EncodeCorrect, Qmi.ReadBack, Qmi.DecodeReads
Main exports: RoundTrips, ComesThrough, roundTrips_iff
Open obligations: none
-/
import Qrtr.Qmi.EncodeCorrect
import Qrtr.Qmi.ReadBack
import Qrtr.Qmi.DecodeReads
import Mathlib.Data.List.Nodup
import Mathlib.Data.List.Pairwise

namespace Qrtr

/-! ### The round trip -/

/-- The message that `cs` holds is encoded into `pkt`, and decoded from it with the same type, message id
    and descriptor: both succeed, the transaction id is returned, and the structure comes back. -/
def RoundTrips (pkt : QrtrPacket) (type msgId txnId : Int) (cs : Mem) (ei : List QmiElemInfo) : Prop :=
  let sent := qmiEncodeMessage pkt type msgId txnId (some cs) ei
  let received := qmiDecodeMessage (some 0) true (packetAfter pkt sent) type msgId ei
  (∃ n, sent.res = .ok n) ∧
    ∃ ret txn : Nat, received.res = .ok (ret, some txn) ∧ (txn : Int) = txnId ∧
      Restored cs ei (applyWrites (fun _ => 0) (storedWrites received.trace))

/-- The numbers fit their fields in the header, the space that is passed on as a `uint32_t` is enough, and
    the decoder reads every count as it was written. -/
structure ComesThrough (pkt : QrtrPacket) (type msgId txnId : Int) (cs : Mem)
    (ei : List QmiElemInfo) : Prop where
  type : 0 ≤ type ∧ type < 256
  msgId : 0 ≤ msgId ∧ msgId < 65536
  txnId : 0 ≤ txnId ∧ txnId < 65536
  space : (messageBytes cs ei 0).length ≤ u32 (pkt.dataLen - qmiHeaderSize)
  clean : MessageClean cs ei

/-! ### The packet -/

/-- A packet with a message: the header, and the bytes of the message. -/
def packetBytes (type msgId txnId : Int) (cs : Mem) (ei : List QmiElemInfo) : List UInt8 :=
  (intBytes 1 type ++ intBytes 2 txnId ++ intBytes 2 msgId ++
    leBytes 2 (messageBytes cs ei 0).length) ++ messageBytes cs ei 0

theorem length_intBytes (w : Nat) (n : Int) : (intBytes w n).length = w := length_leBytes _ _

/-- A C integer in a field of `w` bytes. -/
theorem leValue_intBytes (w : Nat) (n : Int) : (leValue (intBytes w n) : Int) = n % 256 ^ w := by
  have hpos : (0 : Int) < 256 ^ w := Int.pow_pos (by decide)
  have hnonneg := Int.emod_nonneg n hpos.ne'
  have hlt := Int.emod_lt_of_pos n hpos
  rw [intBytes, leValue_leBytes, Nat.mod_eq_of_lt]
  · exact Int.toNat_of_nonneg hnonneg
  · apply (Int.toNat_lt hnonneg).mpr
    push_cast
    exact hlt

/-- A structure that can come back can be encoded. -/
theorem Restorable.valuesFit {cs : Mem} {level : Nat} {ei : List QmiElemInfo}
    (h : Described RoundTripRules level ei) {base : Nat} (hrest : Restorable cs ei base) (d : Nat) :
    ValuesFit id cs d ei base := by
  induction h generalizing base d with
  | @mk level gs eoti hend hshape hP _ ih =>
      cases d with
      | zero => exact trivial
      | succ d =>
          obtain ⟨⟨hencode, _⟩, htrip, _⟩ := hP
          obtain ⟨hcount, htext, hnest⟩ := hrest
          rw [ValuesFit]
          rw [groups_flatten hend hshape] at hcount htext hnest ⊢
          intro g hg hpresent
          refine ⟨?_, fun _ => ?_⟩
          · intro harray
            obtain ⟨l, hl⟩ := Option.ne_none_iff_exists'.mp ((hencode g hg).var_len harray)
            rw [((htrip g hg).lenValue hl (hcount g hg hpresent l hl)).1]
            exact hcount g hg hpresent l hl
          · cases htype : g.value.dataType with
            | struct => exact fun i hi => ih g hg htype (hnest g hg hpresent htype i hi) d
            | string => exact (htext g hg hpresent htype).le
            | _ => exact trivial

/-- A structure that `qmi_encode` accepts is followed by the header of its packet. -/
theorem qmiEncodeMessage_of_ok {pkt : QrtrPacket} {m : Mem} (hdata : pkt.data = some m)
    (type msgId txnId : Int) {cs : Mem} {ei : List QmiElemInfo} (hheader : qmiHeaderSize ≤ pkt.dataLen)
    {n : Nat} (hres : (qmiEncode cs (nestDepth ei) ei qmiHeaderSize 0
      (u32 (pkt.dataLen - qmiHeaderSize)) 1).res = .ok n) :
    qmiEncodeMessage pkt type msgId txnId (some cs) ei =
      Traced.after (qmiEncode cs (nestDepth ei) ei qmiHeaderSize 0
          (u32 (pkt.dataLen - qmiHeaderSize)) 1).trace
        (Traced.after [⟨0, intBytes 1 type⟩, ⟨1, intBytes 2 txnId⟩, ⟨3, intBytes 2 msgId⟩,
          ⟨5, leBytes 2 n⟩] (pure (qmiHeaderSize + n))) := by
  unfold qmiEncodeMessage encodePayload
  rw [hdata]
  simp only [Option.isNone_some, Bool.false_eq_true, if_false, if_neg (Nat.not_lt.mpr hheader)]
  rw [Traced.bind_ok hres]
  rfl

/-- What `qmi_encode_message` leaves in a packet with enough space. -/
theorem qmiEncodeMessage_run {pkt : QrtrPacket} {m : Mem} (hdata : pkt.data = some m)
    (type msgId txnId : Int) {cs : Mem} {ei : List QmiElemInfo} (h : Described EncodeRules 1 ei)
    (hfit : ValuesFit id cs (nestDepth ei) ei 0) (hheader : qmiHeaderSize ≤ pkt.dataLen)
    (hspace : (messageBytes cs ei 0).length ≤ u32 (pkt.dataLen - qmiHeaderSize)) :
    packetAfter pkt (qmiEncodeMessage pkt type msgId txnId (some cs) ei) =
        ⟨qrtrTypeData, some (m.write 0 (packetBytes type msgId txnId cs ei)),
          qmiHeaderSize + (messageBytes cs ei 0).length⟩ ∧
      (qmiEncodeMessage pkt type msgId txnId (some cs) ei).res =
        .ok (qmiHeaderSize + (messageBytes cs ei 0).length) := by
  have hlt : u32 (pkt.dataLen - qmiHeaderSize) < 2 ^ 32 := Nat.mod_lt _ (by omega)
  obtain ⟨hres, hmem⟩ := (qmiEncode_message cs (fun n => Nat.le_refl n) h qmiHeaderSize hlt hfit).of_fits
    ((messagePieces_fit_iff _ _ _ _ _).mpr hspace)
  have hrun := qmiEncodeMessage_of_ok hdata type msgId txnId hheader hres
  have hheaderChunks : Chunks 0 [⟨0, intBytes 1 type⟩, ⟨1, intBytes 2 txnId⟩, ⟨3, intBytes 2 msgId⟩,
      ⟨5, leBytes 2 (messageBytes cs ei 0).length⟩]
      (intBytes 1 type ++ intBytes 2 txnId ++ intBytes 2 msgId ++
        leBytes 2 (messageBytes cs ei 0).length) := by
    rw [List.append_assoc, List.append_assoc]
    refine .cons (.cons (.cons (.single _ _)))
  have hbytes : applyWrites m (qmiEncodeMessage pkt type msgId txnId (some cs) ei).trace =
      m.write 0 (packetBytes type msgId txnId cs ei) := by
    rw [hrun, Traced.after_trace, applyWrites_append, hmem, messagePieces, applyPieces_tlvs,
      Traced.after_trace, Traced.pure_trace, List.append_nil, applyWrites_chunks hheaderChunks]
    exact Mem.write_write_left m 0 _ _
  have hok : (qmiEncodeMessage pkt type msgId txnId (some cs) ei).res =
      .ok (qmiHeaderSize + (messageBytes cs ei 0).length) := by
    rw [hrun]
    rfl
  refine ⟨?_, hok⟩
  rw [packetAfter, hok, hdata]
  simp only [Option.map_some, hbytes]

/-- The decoder on such a packet. -/
theorem qmiDecodeMessage_settles {strict : Prop} (m : Mem) {cs img : Mem} (type msgId txnId : Int)
    {ei : List QmiElemInfo} (h : Described (SettleRules strict) 1 ei) (hrest : Restorable cs ei 0)
    (hlt : (messageBytes cs ei 0).length < 65536)
    (himg : ∀ g ∈ groups ei, g.present cs 0 = true → Images img cs g 0) :
    Settles strict ((0 ≤ type ∧ type < 256) ∧ (0 ≤ msgId ∧ msgId < 65536) ∧ MessageClean cs ei) img
      (fun x => ∃ g ∈ groups ei, g.present cs 0 = true ∧ HoldsOrFlag cs g 0 x)
      ((messageBytes cs ei 0).length, some (leValue (intBytes 2 txnId)))
      (qmiDecodeMessage (some 0) true ⟨qrtrTypeData,
        some (m.write 0 (packetBytes type msgId txnId cs ei)),
        qmiHeaderSize + (messageBytes cs ei 0).length⟩ type msgId ei) := by
  have hhas := Mem.has_write m 0 (packetBytes type msgId txnId cs ei)
  generalize m.write 0 (packetBytes type msgId txnId cs ei) = mem at hhas ⊢
  rw [packetBytes] at hhas
  simp only [Mem.has_append, List.length_append, length_intBytes, length_leBytes, Nat.zero_add,
    Nat.reduceAdd] at hhas
  obtain ⟨⟨⟨⟨htype, htxn⟩, hid⟩, _⟩, hmsg⟩ := hhas
  simp only [Mem.Has, length_intBytes] at htype htxn hid
  have hdesc : ∃ e es, ei = e :: es := by
    cases h with
    | @mk _ gs eoti _ _ _ _ => exact List.exists_cons_of_ne_nil (flatten_ne_nil gs eoti)
  obtain ⟨e, es, hei⟩ := hdesc
  have hread := readMessage_settles h hrest himg hmsg hlt
  rw [← qmiDecode_eq_readMessage mem h] at hread
  have hlen : u32 ((qmiHeaderSize + (messageBytes cs ei 0).length + (2 ^ 64 - qmiHeaderSize)) % 2 ^ 64)
      = (messageBytes cs ei 0).length := by
    unfold u32 qmiHeaderSize
    omega
  have hvalue := hread.map fun ret => (ret, some (leValue (intBytes 2 txnId)))
  have htypeFits : (leValue (intBytes 1 type) : Int) ≠ type ↔ ¬ (0 ≤ type ∧ type < 256) := by
    rw [leValue_intBytes]
    omega
  have hidFits : (leValue (intBytes 2 msgId) : Int) ≠ msgId ↔ ¬ (0 ≤ msgId ∧ msgId < 65536) := by
    rw [leValue_intBytes]
    omega
  have hrun : qmiDecodeMessage (some 0) true ⟨qrtrTypeData, some mem,
        qmiHeaderSize + (messageBytes cs ei 0).length⟩ type msgId ei =
      Traced.after [.read 0 1] (if ¬ (0 ≤ type ∧ type < 256) then Traced.fail einval
        else Traced.after [.read 3 2] (if ¬ (0 ≤ msgId ∧ msgId < 65536) then Traced.fail einval
          else Traced.after [.read 1 2,
              .sub (qmiHeaderSize + (messageBytes cs ei 0).length) qmiHeaderSize] (do
            let ret ← qmiDecode mem (nestDepth ei) ei 0 qmiHeaderSize (messageBytes cs ei 0).length 1
            pure (ret, some (leValue (intBytes 2 txnId)))))) := by
    subst hei
    have hne : qmiHeaderSize + (messageBytes cs (e :: es) 0).length ≠ 0 := by
      unfold qmiHeaderSize
      omega
    unfold qmiDecodeMessage
    simp only [if_neg hne, readHeaderField_bind, htype, hid, htypeFits, hidFits, readTxn, if_true,
      pure_bind, Traced.after_bind, htxn, payloadLen_bind, hlen, Traced.after_after, List.cons_append,
      List.nil_append]
  rw [hrun]
  apply Settles.after rfl
  by_cases ht : 0 ≤ type ∧ type < 256
  · rw [if_neg (not_not.mpr ht)]
    apply Settles.after rfl
    by_cases hi : 0 ≤ msgId ∧ msgId < 65536
    · rw [if_neg (not_not.mpr hi)]
      apply Settles.after rfl
      apply hvalue.congr _ fun _ => Iff.rfl
      exact ⟨fun hc => hc.2.2, fun hc => ⟨ht, hi, hc⟩⟩
    · rw [if_pos hi]
      exact ⟨fun hc => absurd hc.2.1 hi, fun _ _ => ⟨_, rfl⟩⟩
  · rw [if_pos ht]
    exact ⟨fun hc => absurd hc.1 ht, fun _ _ => ⟨_, rfl⟩⟩

/-! ### What is held is owned -/

/-- A group owns what it owns without its flag. -/
theorem Owns.of_unflagged {g : Group} {base x : Nat} (h : Owns g.unflagged base x) : Owns g base x := by
  cases h with
  | flag hflag => cases hflag
  | count hlen hx => exact .count hlen hx
  | elems hstruct hx => exact .elems hstruct hx
  | nested htype hi hg' hx => exact .nested htype hi hg' hx

/-- The elements of a present field are among those it has room for. -/
theorem count_le_slots {cs : Mem} {level : Nat} {g : Group} (hencode : g.Encodable level)
    (htrip : g.RoundTrippable) {base : Nat}
    (hcount : ∀ l, g.len? = some l → leValue (cs.bytes (base + l.offset) 4) ≤ g.value.elemLen)
    (hstring : g.value.dataType ≠ .string) : g.count cs base ≤ g.value.slots := by
  unfold Group.count QmiElemInfo.slots
  cases harray : g.value.arrayType with
  | noArray => simp [hstring]
  | staticArray => simp
  | varLenArray =>
      obtain ⟨l, hl⟩ := Option.ne_none_iff_exists'.mp (hencode.var_len harray)
      simp only [reduceCtorEq, false_and, if_false]
      rw [(htrip.lenValue hl (hcount l hl)).1]
      exact hcount l hl

/-- A field of a nested structure has no flag, so it is present. -/
theorem present_nested {level : Nat} {ei : List QmiElemInfo} (h : Described RoundTripRules level ei)
    (hlevel : 1 < level) {g : Group} (hg : g ∈ groups ei) (cs : Mem) (base : Nat) :
    g.present cs base = true := by
  cases h with
  | mk hend hshape hP _ =>
      rw [groups_flatten hend hshape] at hg
      simp [Group.present, (hP.1.1 g hg).flag_top hlevel]

/-- A present group owns what it holds. -/
theorem Holds.owns {cs : Mem} {level : Nat} {ei : List QmiElemInfo}
    (h : Described RoundTripRules level ei) (hlevel : 0 < level) {base : Nat}
    (hrest : Restorable cs ei base) {g : Group} (hg : g ∈ groups ei)
    (hpresent : g.present cs base = true) {x : Nat} (hx : Holds cs g base x) :
    Owns g.unflagged base x := by
  induction h generalizing base g x with
  | @mk level gs eoti hend hshape hP hdesc ih =>
      obtain ⟨⟨hencode, _⟩, htrip, _⟩ := hP
      obtain ⟨hcount, htext, hnest⟩ := hrest
      rw [groups_flatten hend hshape] at hg hcount htext hnest
      cases hx with
      | count hlen hx => exact .count hlen hx
      | text htype hx =>
          have hlt := htext g hg hpresent htype
          apply Owns.elems (g := g.unflagged) (by simp [Group.unflagged, htype])
          change InBlock (base + g.value.offset) (g.value.slots * g.value.elemSize) x
          rw [(hencode g hg).string_size htype, QmiElemInfo.slots, if_neg (by simp [htype])]
          unfold InBlock at hx ⊢
          omega
      | basic hstruct hstring hx =>
          have hle := Nat.mul_le_mul_right g.value.elemSize
            (count_le_slots (hencode g hg) (htrip g hg) (hcount g hg hpresent) hstring)
          apply Owns.elems (g := g.unflagged) hstruct
          change InBlock (base + g.value.offset) (g.value.slots * g.value.elemSize) x
          unfold InBlock at hx ⊢
          omega
      | nested htype hi hg' hx =>
          have hle := count_le_slots (hencode g hg) (htrip g hg) (hcount g hg hpresent)
            (by simp [htype])
          have hpresent' := present_nested (hdesc g hg htype) (by omega) hg' cs
          exact .nested htype (Nat.lt_of_lt_of_le hi hle) hg' (Owns.of_unflagged
            (ih g hg htype (by omega) (hnest g hg hpresent htype _ hi) hg' (hpresent' _) hx))

/-! ### From the stores to the structure -/

/-- Two groups that own an address in common are one. -/
theorem FieldsDisjoint.eq_of_owns {gs : List Group} (h : FieldsDisjoint gs) {g g' : Group} (hg : g ∈ gs)
    (hg' : g' ∈ gs) {x : Nat} (hx : Owns g 0 x) (hx' : Owns g' 0 x) : g = g' := by
  by_contra hne
  have hsymm : Std.Symm fun g g' : Group => ∀ x, Owns g 0 x → ¬ Owns g' 0 x :=
    ⟨fun _ _ hdisj x hx hx' => hdisj x hx' hx⟩
  exact h.groups.forall hg hg' hne x hx hx'

section Structure

variable {cs img : Mem} {ei : List QmiElemInfo}

/-- The image of a message: `cs`, with flags of 1. -/
theorem exists_image (h : Described RoundTripRules 1 ei) (hdisj : FieldsDisjoint (groups ei))
    (hrest : Restorable cs ei 0) :
    ∃ img : Mem, ∀ g ∈ groups ei, g.present cs 0 = true → Images img cs g 0 := by
  classical
  refine ⟨fun x => if ∃ g ∈ groups ei, ∃ f, g.flag? = some f ∧ x = 0 + f.offset then 1 else cs x, ?_⟩
  intro g hg hpresent
  constructor
  · intro f hf
    exact if_pos ⟨g, hg, f, hf, rfl⟩
  · intro x hx
    have howns := hx.owns h (by omega) hrest hg hpresent
    refine (if_neg ?_).symm
    rintro ⟨g', hg', f, hf, rfl⟩
    obtain rfl := hdisj.eq_of_owns hg hg' howns.of_unflagged (.flag hf)
    exact hdisj.flag g hg f hf howns

/-- A structure into which a message was copied holds the message. -/
theorem restored_of_copies (h : Described RoundTripRules 1 ei) (hdisj : FieldsDisjoint (groups ei))
    (hrest : Restorable cs ei 0)
    (himg : ∀ g ∈ groups ei, g.present cs 0 = true → Images img cs g 0) {ws : List Write}
    (hcopies : Copies img
      (fun x => ∃ g ∈ groups ei, g.present cs 0 = true ∧ HoldsOrFlag cs g 0 x) ws) :
    Restored cs ei (applyWrites (fun _ => 0) ws) := by
  intro g hg
  by_cases hpresent : g.present cs 0 = true
  · rw [if_pos hpresent]
    constructor
    · intro f hf
      rw [(hcopies _ _).1 ⟨g, hg, hpresent, .inl ⟨f, hf, rfl⟩⟩]
      exact (himg g hg hpresent).flag f hf
    · intro x hx
      rw [(hcopies _ _).1 ⟨g, hg, hpresent, .inr hx⟩]
      exact ((himg g hg hpresent).value x hx).symm
  · rw [if_neg hpresent]
    intro x hx
    apply (hcopies _ _).2
    rintro ⟨g', hg', hpresent', hx'⟩
    have howns' : Owns g' 0 x := by
      rcases hx' with ⟨f, hf, rfl⟩ | hx'
      · exact .flag hf
      · exact (hx'.owns h (by omega) hrest hg' hpresent').of_unflagged
    rw [hdisj.eq_of_owns hg hg' hx howns'] at hpresent
    exact hpresent hpresent'

end Structure

/-! ### When a message comes through -/

section Message

variable {pkt : QrtrPacket} {m cs : Mem} {ei : List QmiElemInfo} {type msgId txnId : Int}

/-- What comes through is restored; and with counts in front of arrays only, what does not is refused. -/
theorem roundTrips_settles {strict : Prop} (hdata : pkt.data = some m)
    (h : Described RoundTripRules 1 ei) (hstrict : strict → Described CountsBeforeArrays 1 ei)
    (hdisj : FieldsDisjoint (groups ei)) (hrest : Restorable cs ei 0)
    (hlt : (messageBytes cs ei 0).length < 65536) (hheader : qmiHeaderSize ≤ pkt.dataLen)
    (hspace : (messageBytes cs ei 0).length ≤ u32 (pkt.dataLen - qmiHeaderSize)) :
    (ComesThrough pkt type msgId txnId cs ei → RoundTrips pkt type msgId txnId cs ei) ∧
      (strict → RoundTrips pkt type msgId txnId cs ei → ComesThrough pkt type msgId txnId cs ei) := by
  have hencode : Described EncodeRules 1 ei := h.imp fun _ _ _ hP => hP.1
  obtain ⟨hpacket, hsent⟩ := qmiEncodeMessage_run hdata type msgId txnId hencode
    (hrest.valuesFit h _) hheader hspace
  obtain ⟨img, himg⟩ := exists_image h hdisj hrest
  have hreceived := qmiDecodeMessage_settles m type msgId txnId (h.and_imp hstrict) hrest hlt himg
  have htxn : (leValue (intBytes 2 txnId) : Int) = txnId ↔ 0 ≤ txnId ∧ txnId < 65536 := by
    rw [leValue_intBytes]
    omega
  unfold RoundTrips
  simp only [hpacket]
  constructor
  · rintro ⟨ht, hi, hx, _, hclean⟩
    obtain ⟨hres, hcopies⟩ := hreceived.reads ⟨ht, hi, hclean⟩
    exact ⟨⟨_, hsent⟩, _, _, hres, htxn.mpr hx, restored_of_copies h hdisj hrest himg hcopies⟩
  · rintro hs ⟨_, ret, txn, hres, hx, _⟩
    by_cases hclean : (0 ≤ type ∧ type < 256) ∧ (0 ≤ msgId ∧ msgId < 65536) ∧ MessageClean cs ei
    · have heq := (hreceived.reads hclean).res
      rw [hres] at heq
      cases heq
      exact ⟨hclean.1, hclean.2.1, htxn.mp hx, hspace, hclean.2.2⟩
    · obtain ⟨e, he⟩ := hreceived.fails hs hclean
      rw [hres] at he
      cases he

/-- A message that fits the packet comes through if its numbers fit the header and the decoder meets a
    clean state; with counts in front of arrays only, and a length that a `uint32_t` holds, only then. -/
theorem roundTrips_iff (hdata : pkt.data = some m) (h : Described RoundTripRules 1 ei)
    (hdisj : FieldsDisjoint (groups ei)) (hrest : Restorable cs ei 0)
    (hlen : (messageBytes cs ei 0).length ≤ 65535)
    (hfits : qmiHeaderSize + (messageBytes cs ei 0).length ≤ pkt.dataLen) :
    (ComesThrough pkt type msgId txnId cs ei → RoundTrips pkt type msgId txnId cs ei) ∧
      (Described CountsBeforeArrays 1 ei → pkt.dataLen - qmiHeaderSize < 2 ^ 32 →
        (RoundTrips pkt type msgId txnId cs ei ↔ ComesThrough pkt type msgId txnId cs ei)) := by
  have hlt : (messageBytes cs ei 0).length < 65536 := Nat.lt_succ_of_le hlen
  have hheader : qmiHeaderSize ≤ pkt.dataLen := Nat.le_of_add_right_le hfits
  constructor
  · intro hthrough
    exact (roundTrips_settles hdata h False.elim hdisj hrest hlt hheader hthrough.space).1 hthrough
  · intro hstrict hlarge
    have hspace : (messageBytes cs ei 0).length ≤ u32 (pkt.dataLen - qmiHeaderSize) := by
      rw [u32_of_lt hlarge]
      exact Nat.le_sub_of_add_le' hfits
    obtain ⟨hback, hthere⟩ :=
      roundTrips_settles hdata h (fun _ : True => hstrict) hdisj hrest hlt hheader hspace
    exact ⟨hthere trivial, hback⟩

end Message

theorem sampleMessage_roundTripRules : Described RoundTripRules 1 sampleMessage := by
  have hshape : ∀ g ∈ [(⟨none, none, sampleStruct⟩ : Group)], g.Shaped := by
    simp only [List.mem_singleton, forall_eq]
    exact ⟨by simp, by simp, trivial⟩
  have hshape' : ∀ g ∈ [(⟨none, none, sampleText⟩ : Group)], g.Shaped := by
    simp only [List.mem_singleton, forall_eq]
    exact ⟨by simp, by simp, trivial⟩
  obtain ⟨hrules, hnest⟩ := sampleMessage_described.inv rfl hshape
  obtain ⟨hrules', _⟩ := (hnest _ List.mem_cons_self rfl).inv rfl hshape'
  refine .mk rfl hshape ⟨hrules, ?_, fun _ => List.nodup_singleton _⟩ ?_
  · simp only [List.mem_singleton, forall_eq]
    exact ⟨by simp, by simp [sampleStruct]⟩
  · simp only [List.mem_singleton, forall_eq]
    refine fun _ => .mk rfl hshape' ⟨hrules', ?_, fun _ => List.nodup_singleton _⟩ ?_
    · simp only [List.mem_singleton, forall_eq]
      exact ⟨by simp, by simp [sampleText]⟩
    · simp [sampleText]

/-- The string "ab" comes through. -/
theorem roundTrips_sample :
    RoundTrips ⟨0, some fun _ => 0, 16⟩ 2 0x20 1 sampleValue sampleMessage := by
  have hbytes : messageBytes sampleValue sampleMessage 0 = [1, 3, 0, 2, 97, 98] := by decide
  have hdisj : FieldsDisjoint (groups sampleMessage) := by
    refine ⟨List.pairwise_singleton _ _, ?_⟩
    change ∀ g ∈ [(⟨none, none, sampleStruct⟩ : Group)], _
    simp
  have hrest : Restorable sampleValue sampleMessage 0 := by
    have htext : Restorable sampleValue sampleStruct.eiArray 0 := by
      constructor
      all_goals
        change ∀ g ∈ [(⟨none, none, sampleText⟩ : Group)], _
        simp only [List.mem_singleton, forall_eq]
        intro _
      · simp
      · exact fun _ => by decide
      · simp [sampleText]
    constructor
    all_goals
      change ∀ g ∈ [(⟨none, none, sampleStruct⟩ : Group)], _
      simp only [List.mem_singleton, forall_eq]
      intro _
    · simp
    · simp [sampleStruct]
    · intro _ i hi
      obtain rfl : i = 0 := Nat.lt_one_iff.mp hi
      exact htext
  have hclean : MessageClean sampleValue sampleMessage := by
    refine ⟨⟨by simp, .inr rfl, fun _ => ⟨?_, by simp⟩⟩, trivial⟩
    intro i hi
    obtain rfl : i = 0 := Nat.lt_one_iff.mp hi
    exact .inr ⟨⟨by simp, .inr rfl, by simp [sampleText]⟩, trivial⟩
  apply (roundTrips_iff rfl sampleMessage_roundTripRules hdisj hrest (by rw [hbytes]; decide)
    (by rw [hbytes]; decide)).1
  exact ⟨by decide, by decide, by decide, by rw [hbytes]; decide, hclean⟩

/-- Two variable-length arrays of bytes. The count of the first takes two bytes, that of the second
    one. -/
def sampleArrayGroups : List Group :=
  [⟨none, some ⟨.dataLen, 1, 2, .noArray, 1, 0, []⟩, ⟨.unsigned1Byte, 300, 1, .varLenArray, 1, 4, []⟩⟩,
    ⟨none, some ⟨.dataLen, 1, 1, .noArray, 2, 304, []⟩, ⟨.unsigned1Byte, 4, 1, .varLenArray, 2, 308, []⟩⟩]

/-- A message with the two arrays. -/
def sampleCounts : List QmiElemInfo := flatten sampleArrayGroups sampleEnd

/-- 256 zeros in the first array, one in the second. -/
def sampleArrays : Mem := fun a => if a = 1 ∨ a = 304 then 1 else 0

theorem sampleArrayGroups_shaped : ∀ g ∈ sampleArrayGroups, g.Shaped := by
  simp only [sampleArrayGroups, List.mem_cons, List.not_mem_nil, or_false, forall_eq_or_imp, forall_eq]
  exact ⟨⟨by simp, by simp, trivial⟩, ⟨by simp, by simp, trivial⟩⟩

theorem sampleArrayGroups_basic : ∀ g ∈ sampleArrayGroups, g.value.dataType ≠ .struct := by
  simp [sampleArrayGroups]

theorem sampleCounts_rules : Described RoundTripRules 1 sampleCounts := by
  refine .mk rfl sampleArrayGroups_shaped ⟨⟨?_, fun _ => ?_⟩, ?_, fun _ => by decide⟩
    fun g hg hstruct => absurd hstruct (sampleArrayGroups_basic g hg)
  · simp only [sampleArrayGroups, List.mem_cons, List.not_mem_nil, or_false, forall_eq_or_imp, forall_eq]
    exact ⟨⟨by simp, by simp, by simp, by simp, by simp, by simp⟩,
      ⟨by simp, by simp, by simp, by simp, by simp, by simp⟩⟩
  · exact ⟨by simp [Group.elems], by simp [headType, Group.elems],
      by simp [Group.elems], by simp [headType, sampleEnd], trivial⟩
  · simp only [sampleArrayGroups, List.mem_cons, List.not_mem_nil, or_false, forall_eq_or_imp, forall_eq]
    exact ⟨⟨by simp, by simp⟩, ⟨by simp, by simp⟩⟩

set_option maxRecDepth 4000 in
/-- The 256 of the first count is still above the byte of the second, and the message is refused. -/
theorem not_roundTrips :
    Described RoundTripRules 1 sampleCounts ∧ FieldsDisjoint (groups sampleCounts) ∧
      Restorable sampleArrays sampleCounts 0 ∧
      (messageBytes sampleArrays sampleCounts 0).length = 266 ∧
      ¬ RoundTrips ⟨0, some fun _ => 0, 512⟩ 2 0x20 1 sampleArrays sampleCounts := by
  have hlen : (messageBytes sampleArrays sampleCounts 0).length = 266 := by rfl
  have hdisj : FieldsDisjoint (groups sampleCounts) := by
    constructor
    · apply List.pairwise_pair.mpr
      intro x hx hx'
      have hbefore : x < 304 := by
        cases hx with
        | flag hflag => cases hflag
        | count hl hx =>
            cases hl
            exact Nat.lt_trans hx.2 (by decide)
        | elems _ hx => exact hx.2
        | nested htype => cases htype
      have hbehind : 304 ≤ x := by
        cases hx' with
        | flag hflag => cases hflag
        | count hl hx =>
            cases hl
            exact hx.1
        | elems _ hx => exact Nat.le_trans (by decide) hx.1
        | nested htype => cases htype
      exact absurd hbefore (Nat.not_lt.mpr hbehind)
    · change ∀ g ∈ [(_ : Group), _], _
      simp
  have hrest : Restorable sampleArrays sampleCounts 0 := by
    constructor
    all_goals
      change ∀ g ∈ [(_ : Group), _], _
      simp only [List.mem_cons, List.not_mem_nil, or_false, forall_eq_or_imp, forall_eq]
    · exact ⟨fun _ l hl => by cases hl; decide, fun _ l hl => by cases hl; decide⟩
    · simp
    · simp
  refine ⟨sampleCounts_rules, hdisj, hrest, hlen, ?_⟩
  have hstrict : Described CountsBeforeArrays 1 sampleCounts := by
    refine .mk rfl sampleArrayGroups_shaped ?_
      fun g hg hstruct => absurd hstruct (sampleArrayGroups_basic g hg)
    simp [CountsBeforeArrays, sampleArrayGroups]
  intro h
  have hthrough := (roundTrips_settles rfl sampleCounts_rules (fun _ : True => hstrict) hdisj hrest
    (by rw [hlen]; decide) (by decide) (by rw [hlen]; decide)).2 trivial h
  obtain ⟨_, hsecond, _⟩ := hthrough.clean
  exact absurd (hsecond.count _ rfl) (by decide)

end Qrtr
