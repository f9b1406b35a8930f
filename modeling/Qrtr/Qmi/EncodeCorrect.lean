/-
Module: Qrtr.Qmi.EncodeCorrect
Layer: Qmi
Purpose: What `qmi_encode` does with the space it is given. In a buffer that holds the message, it is the
  plain serializer if and only if it reads every count right, which it does not for a count that its prefix
  is too narrow for. In any buffer, it is exact about the space if and only if the first piece that does not
  fit is refused by its check, and no count comes between the two sizes; the checks that are too weak are
  those of strings in nested structures, and a TLV header that no check stands in front of.
Imports: Qmi.Plain, Qmi.Refusal
Main exports: qmiEncode_eq_messageBytes, EncodesPlainly, encodesPlainly_iff, EncodesExactly,
  encodesExactly_iff
Open obligations: none
-/
import Qrtr.Qmi.Plain
import Qrtr.Qmi.Refusal

namespace Qrtr

/-! ### From pieces to bytes -/

/-- Memory after the pieces have been written. -/
def applyPieces (mem : Mem) (ps : List Piece) : Mem :=
  ps.foldl (fun m p => m.write p.start p.bytes) mem

theorem applyPieces_append (mem : Mem) (ps ps' : List Piece) :
    applyPieces mem (ps ++ ps') = applyPieces (applyPieces mem ps) ps' :=
  List.foldl_append

/-- Pieces that lie side by side write one block. -/
theorem applyPieces_laid {pos : Nat} {ps : List Piece} {bs : List UInt8} (h : Laid pos ps bs)
    (mem : Mem) : applyPieces mem ps = mem.write pos bs := by
  induction h generalizing mem with
  | nil => exact (Mem.write_nil mem _).symm
  | cons _ ih => exact (ih _).trans (Mem.write_write_right _ _ _ _)

theorem laid_body (cs : Mem) (d start pos base : Nat) (g : Group) :
    Laid pos (g.payloadPieces (nestedBytes cs d) (nestedPieces cs d) cs true start pos base)
      (g.body cs d base) :=
  laid_payload cs (laid_nested cs d) true start pos base g

/-- The header goes in front of the payload that was written before it. -/
theorem applyPieces_tlv (cs : Mem) (d start pos base : Nat) (g : Group) (mem : Mem) :
    applyPieces mem (g.tlvPieces cs d start pos base) = mem.write pos (g.tlv cs d base) := by
  rw [Group.tlvPieces, applyPieces_append, applyPieces_laid (laid_body cs d start (pos + 3) base g)]
  have h := Mem.write_write_left mem pos
    (tlvHeader g.value.tlvType (g.body cs d base).length) (g.body cs d base)
  rw [length_tlvHeader] at h
  exact h

theorem applyPieces_tlvs (cs : Mem) (d start base : Nat) (gs : List Group) (pos : Nat) (mem : Mem) :
    applyPieces mem (tlvsPieces cs d start base pos gs) = mem.write pos (tlvBytes cs d base gs) := by
  induction gs generalizing pos mem with
  | nil => exact (Mem.write_nil mem pos).symm
  | cons g gs ih =>
      rw [tlvsPieces, tlvBytes_cons]
      split
      · rw [applyPieces_append, applyPieces_tlv, ih, Mem.write_write_right]
      · exact ih _ _

/-- The pieces of a TLV fit exactly when the TLV does. -/
theorem tlvPieces_fit_iff (cs : Mem) (d start pos base bound : Nat) (g : Group) :
    (∀ p ∈ g.tlvPieces cs d start pos base, p.Fits bound) ↔
      pos + (g.tlv cs d base).length ≤ bound := by
  have hlaid := laid_body cs d start (pos + 3) base g
  have hheader : (headerPiece g.value.tlvType (g.body cs d base).length pos).Fits bound ↔
      pos + 3 ≤ bound := by
    simp [Piece.Fits, headerPiece, length_tlvHeader]
  rw [length_tlv, Group.tlvPieces]
  constructor
  · intro h
    have hpos := hheader.mp (h _ (List.mem_append_right _ List.mem_cons_self))
    have := hlaid.end_le (fun p hp => h p (List.mem_append_left _ hp)) hpos (Nat.le_refl _)
    omega
  · intro h p hp
    rcases List.mem_append.mp hp with hp | hp
    · exact hlaid.fits (by omega) p hp
    · rw [List.mem_singleton.mp hp]
      exact hheader.mpr (by omega)

theorem tlvsPieces_fit_iff (cs : Mem) (d start base bound : Nat) (gs : List Group) {pos : Nat}
    (hpos : pos ≤ bound) :
    (∀ p ∈ tlvsPieces cs d start base pos gs, p.Fits bound) ↔
      pos + (tlvBytes cs d base gs).length ≤ bound := by
  induction gs generalizing pos with
  | nil => simpa [tlvsPieces, tlvBytes] using hpos
  | cons g gs ih =>
      rw [tlvsPieces, tlvBytes_cons]
      split
      · rw [List.forall_mem_append, tlvPieces_fit_iff, List.length_append]
        constructor
        · rintro ⟨hg, hgs⟩
          have := (ih hg).mp hgs
          omega
        · intro h
          exact ⟨by omega, (ih (by omega)).mpr (by omega)⟩
      · exact ih hpos

/-- The pieces of a message fit exactly when the message does. -/
theorem messagePieces_fit_iff (cs : Mem) (ei : List QmiElemInfo) (outBuf base outBufLen : Nat) :
    (∀ p ∈ messagePieces cs ei outBuf base, p.Fits (outBuf + outBufLen)) ↔
      (messageBytes cs ei base).length ≤ outBufLen := by
  rw [messagePieces, tlvsPieces_fit_iff _ _ _ _ _ _ (Nat.le_add_right _ _), messageBytes]
  omega

/-! ### What a run that follows its pieces does -/

theorem Follows.of_fits {α : Type} {bound : Nat} {a : α} {ps : List Piece} {m : Encoding α}
    (h : Follows bound a ps m) (hfit : ∀ p ∈ ps, p.Fits bound) :
    m.res = .ok a ∧ ∀ mem, applyWrites mem m.trace = applyPieces mem ps := by
  induction h with
  | done => exact ⟨rfl, fun _ => rfl⟩
  | written _ hws _ ih =>
      obtain ⟨hres, hmem⟩ := ih fun p hp => hfit p (List.mem_cons_of_mem _ hp)
      refine ⟨hres, fun mem => ?_⟩
      rw [Traced.after_trace, applyWrites_append, applyWrites_chunks hws, hmem]
      rfl
  | refused _ hmisfit => exact absurd (hfit _ List.mem_cons_self) hmisfit
  | overrun _ hmisfit _ _ => exact absurd (hfit _ List.mem_cons_self) hmisfit

/-- If the first misfit is refused, nothing is written past the end, and the run succeeds exactly when
    everything fits. -/
theorem Follows.of_refused {α : Type} {bound : Nat} {a : α} {ps : List Piece} {m : Encoding α}
    (h : Follows bound a ps m) (hrefused : FirstMisfitRefused bound ps) :
    (∀ w ∈ m.trace, w.addr + w.bytes.length ≤ bound) ∧
      ((∃ n, m.res = .ok n) ↔ ∀ p ∈ ps, p.Fits bound) := by
  induction h with
  | done => exact ⟨by simp, by simp⟩
  | written hfit hws _ ih =>
      rw [FirstMisfitRefused, if_pos hfit] at hrefused
      obtain ⟨hin, hres⟩ := ih hrefused
      refine ⟨?_, ?_⟩
      · intro w hw
        rcases List.mem_append.mp hw with hw | hw
        · exact Nat.le_trans (hws.inside w hw).2 hfit
        · exact hin w hw
      · rw [Traced.after_res, hres, List.forall_mem_cons]
        simp [hfit]
  | refused _ hfit =>
      refine ⟨by simp, ?_⟩
      simp only [Traced.fail_res, reduceCtorEq, exists_false, false_iff]
      exact fun hall => hfit (hall _ List.mem_cons_self)
  | overrun hcheck hfit _ _ =>
      rw [FirstMisfitRefused, if_neg hfit] at hrefused
      exact absurd hcheck hrefused

/-- If the first misfit is let through, a byte is written past the end. -/
theorem Follows.of_not_refused {α : Type} {bound : Nat} {a : α} {ps : List Piece} {m : Encoding α}
    (h : Follows bound a ps m) (hnot : ¬ FirstMisfitRefused bound ps) :
    ∃ w ∈ m.trace, bound < w.addr + w.bytes.length ∧ w.bytes ≠ [] := by
  induction h with
  | done => exact absurd trivial hnot
  | written hfit _ _ ih =>
      rw [FirstMisfitRefused, if_pos hfit] at hnot
      obtain ⟨w, hw, hbound⟩ := ih hnot
      exact ⟨w, List.mem_append_right _ hw, hbound⟩
  | refused hcheck hfit =>
      rw [FirstMisfitRefused, if_neg hfit] at hnot
      exact absurd hcheck hnot
  | overrun _ hfit hne hws =>
      obtain ⟨w, hw, hbound⟩ := hws.overrun hne (Nat.lt_of_not_le hfit)
      exact ⟨w, List.mem_append_left _ hw, hbound⟩

/-! ### A message to run the encoder on -/

/-- A string of at most five characters. -/
def sampleText : QmiElemInfo where
  dataType := .string
  elemLen := 5
  elemSize := 1
  arrayType := .noArray
  tlvType := 0
  offset := 0
  eiArray := []

/-- The end of a descriptor. -/
def sampleEnd : QmiElemInfo where
  dataType := .eoti
  elemLen := 0
  elemSize := 0
  arrayType := .noArray
  tlvType := 0
  offset := 0
  eiArray := []

/-- A structure that holds the string. -/
def sampleStruct : QmiElemInfo where
  dataType := .struct
  elemLen := 1
  elemSize := 5
  arrayType := .noArray
  tlvType := 1
  offset := 0
  eiArray := flatten [⟨none, none, sampleText⟩] sampleEnd

/-- A message of one TLV, the structure. -/
def sampleMessage : List QmiElemInfo := flatten [⟨none, none, sampleStruct⟩] sampleEnd

/-- The string "ab". -/
def sampleValue : Mem := fun a => [97, 98].getD a 0

theorem sampleMessage_described : Described EncodeRules 1 sampleMessage := by
  have htext : Described EncodeRules 2 (flatten [⟨none, none, sampleText⟩] sampleEnd) := by
    refine .mk rfl ?_ ⟨?_, by simp⟩ ?_
    · simp only [List.mem_singleton, forall_eq]
      exact ⟨by simp, by simp, trivial⟩
    · simp only [List.mem_singleton, forall_eq]
      exact ⟨by simp, by simp, by simp, by simp, by simp [sampleText], fun _ => rfl⟩
    · simp [sampleText]
  refine .mk rfl ?_ ⟨?_, ?_⟩ ?_
  · simp only [List.mem_singleton, forall_eq]
    exact ⟨by simp, by simp, trivial⟩
  · simp only [List.mem_singleton, forall_eq]
    exact ⟨by simp, by simp, by simp, by simp, by simp [sampleStruct], by simp [sampleStruct]⟩
  · intro _
    exact ⟨by simp [Group.elems], by simp [headType, sampleEnd, sampleStruct], trivial⟩
  · simp only [List.mem_singleton, forall_eq]
    exact fun _ => htext

theorem sampleValue_fits : Plain.ValuesFit sampleValue (nestDepth sampleMessage) sampleMessage 0 := by
  intro g hg _
  rw [List.mem_singleton.mp (show g ∈ [⟨none, none, sampleStruct⟩] from hg)]
  refine ⟨by simp [sampleStruct], fun _ i hi g hg _ => ?_⟩
  rw [List.mem_singleton.mp (show g ∈ [⟨none, none, sampleText⟩] from hg)]
  obtain rfl : i = 0 := Nat.lt_one_iff.mp hi
  refine ⟨by simp [sampleText], fun _ => ?_⟩
  change textLen sampleValue sampleText 0 ≤ 5
  decide

/-- The count of an array, one byte wide in the message. -/
def sampleLen : QmiElemInfo := ⟨.dataLen, 1, 1, .noArray, 1, 0, []⟩

/-- An array of at most `most` bytes. -/
def sampleList (most : Nat) : Group :=
  ⟨none, some sampleLen, ⟨.unsigned1Byte, most, 1, .varLenArray, 1, 4, []⟩⟩

/-- A message of one TLV, the array. -/
def sampleListMessage (most : Nat) : List QmiElemInfo := flatten [sampleList most] sampleEnd

/-- The count `c`, and an array of sevens. -/
def sampleListValue (c : Nat) : Mem := fun a => (leBytes 4 c).getD a 7

theorem sampleListMessage_described (most : Nat) : Described EncodeRules 1 (sampleListMessage most) := by
  refine .mk rfl ?_ ⟨?_, ?_⟩ ?_
  · simp only [List.mem_singleton, forall_eq]
    exact ⟨by simp [sampleList], by simp [sampleList, sampleLen], trivial⟩
  · simp only [List.mem_singleton, forall_eq]
    exact ⟨by simp [sampleList], by simp [sampleList], by simp [sampleList, sampleLen],
      by simp [sampleList, sampleLen], by simp [sampleList], by simp [sampleList]⟩
  · intro _
    exact ⟨by simp [Group.elems, sampleList, sampleLen], by simp [headType, sampleEnd, sampleList], trivial⟩
  · simp [sampleList]

/-! ### The encoder and the plain serializer -/

/-- In a buffer that holds the message, the encoder leaves the bytes of the plain serializer, changes
    nothing else, and returns their number. -/
theorem qmiEncode_eq_messageBytes (cs : Mem) {ei : List QmiElemInfo} (h : Described EncodeRules 1 ei)
    (outBuf : Nat) {base outBufLen : Nat} (hlen : outBufLen < 2 ^ 32)
    (hfit : ValuesFit id cs (nestDepth ei) ei base)
    (hroom : (messageBytes cs ei base).length ≤ outBufLen) :
    (qmiEncode cs (nestDepth ei) ei outBuf base outBufLen 1).res
        = .ok (messageBytes cs ei base).length ∧
      ∀ mem, applyWrites mem (qmiEncode cs (nestDepth ei) ei outBuf base outBufLen 1).trace
        = mem.write outBuf (messageBytes cs ei base) := by
  have hrun := qmiEncode_message cs (fun n => Nat.le_refl n) h outBuf hlen hfit
  have hpieces := (messagePieces_fit_iff cs ei outBuf base outBufLen).mpr hroom
  obtain ⟨hres, hmem⟩ := hrun.of_fits hpieces
  refine ⟨hres, fun mem => ?_⟩
  rw [hmem, messagePieces, applyPieces_tlvs, messageBytes]

/-- In a buffer that holds the message, `qmi_encode` leaves the bytes of the plain serializer, changes
    nothing else, and returns their number. -/
def EncodesPlainly (cs : Mem) (ei : List QmiElemInfo) (base outBufLen : Nat) : Prop :=
  (∃ rc, (Machine.qmiEncode cs (nestDepth ei) ei 0 base outBufLen 1).res = .ok rc ∧
      Machine.intOf rc = (Plain.messageBytes cs ei base).length) ∧
    ∀ mem, applyWrites mem (Machine.qmiEncode cs (nestDepth ei) ei 0 base outBufLen 1).trace
      = mem.write 0 (Plain.messageBytes cs ei base)

/-- The encoder is the plain serializer if and only if it reads every count right and an `int` holds the
    length of the message. -/
theorem encodesPlainly_iff (cs : Mem) {ei : List QmiElemInfo} (h : Described EncodeRules 1 ei)
    {base outBufLen : Nat} (hlen : outBufLen < 2 ^ 32) (hfit : Plain.ValuesFit cs (nestDepth ei) ei base)
    (hroom : (Plain.messageBytes cs ei base).length ≤ outBufLen) :
    EncodesPlainly cs ei base outBufLen ↔
      CountsRead cs true (nestDepth ei) ei base ∧ (Plain.messageBytes cs ei base).length < 2 ^ 31 := by
  have hshortens := messageBytes_shortens cs h base
  have hlow := hfit.low h
  have hroom' := Nat.le_trans hshortens.le hroom
  obtain ⟨hres, hmem⟩ := qmiEncode_eq_messageBytes cs h 0 hlen hlow hroom'
  have hsame := fun hshort : (Plain.messageBytes cs ei base).length < 2 ^ 31 =>
    Machine.qmiEncode_eq cs h base outBufLen (Nat.lt_of_le_of_lt hshortens.le hshort)
  constructor
  · rintro ⟨⟨rc, hrc, hint⟩, -⟩
    have hshort : (Plain.messageBytes cs ei base).length < 2 ^ 31 := by
      have := Machine.intOf_lt rc
      omega
    have hle := hshortens.le
    rw [hsame hshort, hres] at hrc
    cases hrc
    rw [Machine.intOf_of_lt (by omega)] at hint
    exact ⟨hshortens.of_length (by omega), hshort⟩
  · rintro ⟨hread, hshort⟩
    rw [EncodesPlainly, hsame hshort, ← hshortens.eq hread]
    exact ⟨⟨_, hres, Machine.intOf_of_lt (by rw [hshortens.eq hread]; exact hshort)⟩, hmem⟩

/-- The sample message in a buffer of exactly its size. -/
theorem encodesPlainly_sample : EncodesPlainly sampleValue sampleMessage 0 6 := by
  have hbytes : Plain.messageBytes sampleValue sampleMessage 0 = [1, 3, 0, 2, 97, 98] := by decide
  refine (encodesPlainly_iff sampleValue sampleMessage_described (by omega) sampleValue_fits
    (by rw [hbytes]; decide)).mpr ⟨?_, by rw [hbytes]; decide⟩
  intro g hg _
  rw [List.mem_singleton.mp (show g ∈ [⟨none, none, sampleStruct⟩] from hg)]
  refine ⟨Group.countRead_of_none rfl, fun _ _ i hi g hg _ => ?_⟩
  rw [List.mem_singleton.mp (show g ∈ [⟨none, none, sampleText⟩] from hg)]
  exact ⟨Group.countRead_of_none rfl, fun _ hstruct => absurd hstruct (by decide)⟩

theorem sampleListValue_fits : Plain.ValuesFit (sampleListValue 256) 2 (sampleListMessage 300) 0 := by
  intro g hg _
  rw [List.mem_singleton.mp (show g ∈ [sampleList 300] from hg)]
  exact ⟨fun _ => by decide, fun _ => trivial⟩

set_option maxRecDepth 4000 in
/-- 256 elements are none: the encoder reads the low byte of the count. -/
theorem not_encodesPlainly :
    Described EncodeRules 1 (sampleListMessage 300) ∧
      Plain.ValuesFit (sampleListValue 256) (nestDepth (sampleListMessage 300)) (sampleListMessage 300) 0 ∧
      (Plain.messageBytes (sampleListValue 256) (sampleListMessage 300) 0).length = 260 ∧
      ¬ EncodesPlainly (sampleListValue 256) (sampleListMessage 300) 0 512 := by
  have hlen : (Plain.messageBytes (sampleListValue 256) (sampleListMessage 300) 0).length = 260 := by
    decide +kernel
  refine ⟨sampleListMessage_described 300, sampleListValue_fits, hlen, ?_⟩
  rintro ⟨⟨rc, hrc, hint⟩, -⟩
  have hres : (Machine.qmiEncode (sampleListValue 256) (nestDepth (sampleListMessage 300))
      (sampleListMessage 300) 0 0 512 1).res = .ok 4 := by decide
  rw [hres] at hrc
  cases hrc
  rw [hlen] at hint
  exact absurd hint (by decide)

/-! ### The encoder and the space it is given -/

/-- The encoder is exact about the space: it returns no negative number if and only if the message fits into
    the buffer, and every byte that it writes lies in the buffer. -/
def EncodesExactly (cs : Mem) (ei : List QmiElemInfo) (base outBufLen : Nat) : Prop :=
  ((∃ rc, (Machine.qmiEncode cs (nestDepth ei) ei 0 base outBufLen 1).res = .ok rc ∧ ¬ Machine.Negative rc) ↔
      (Plain.messageBytes cs ei base).length ≤ outBufLen) ∧
    Traced.Every (Machine.Below outBufLen) (Machine.qmiEncode cs (nestDepth ei) ei 0 base outBufLen 1)

/-- The encoder over natural numbers writes inside the buffer if and only if the check in front of the first
    piece that does not fit, if there is one, refuses it. -/
theorem qmiEncode_inside_iff (cs : Mem) {ei : List QmiElemInfo} (h : Described EncodeRules 1 ei)
    {base outBufLen : Nat} (hlen : outBufLen < 2 ^ 32) (hfit : ValuesFit id cs (nestDepth ei) ei base) :
    Traced.Every (Machine.Below outBufLen) (qmiEncode cs (nestDepth ei) ei 0 base outBufLen 1) ↔
      FirstMisfitRefused outBufLen (messagePieces cs ei 0 base) := by
  have hrun := qmiEncode_message cs (fun n => Nat.le_refl n) h 0 hlen hfit
  rw [Nat.zero_add] at hrun
  constructor
  · intro hinside
    apply Decidable.byContradiction
    intro hnot
    obtain ⟨w, hw, hend, hne⟩ := hrun.of_not_refused hnot
    have hpos := List.length_pos_iff.mpr hne
    have := hinside w hw (w.bytes.length - 1) (by omega)
    omega
  · intro hrefused w hw i hi
    have := (hrun.of_refused hrefused).1 w hw
    omega

/-- Then it succeeds exactly when the message fits. -/
theorem qmiEncode_succeeds_iff (cs : Mem) {ei : List QmiElemInfo} (h : Described EncodeRules 1 ei)
    {base outBufLen : Nat} (hlen : outBufLen < 2 ^ 32) (hfit : ValuesFit id cs (nestDepth ei) ei base)
    (hrefused : FirstMisfitRefused outBufLen (messagePieces cs ei 0 base)) :
    (∃ n, (qmiEncode cs (nestDepth ei) ei 0 base outBufLen 1).res = .ok n) ↔
      (messageBytes cs ei base).length ≤ outBufLen := by
  have hrun := qmiEncode_message cs (fun n => Nat.le_refl n) h 0 hlen hfit
  have hpieces := messagePieces_fit_iff cs ei 0 base outBufLen
  rw [Nat.zero_add] at hrun hpieces
  exact (hrun.of_refused hrefused).2.trans hpieces

/-- With a message or a buffer of fewer than 2^31 bytes, the numbers of C make no difference inside the
    buffer. -/
theorem Machine.qmiEncode_inside (cs : Mem) {ei : List QmiElemInfo} (h : Described EncodeRules 1 ei)
    (base outBufLen : Nat) (hshort : (messageBytes cs ei base).length < 2 ^ 31 ∨ outBufLen < 2 ^ 31) :
    Traced.Matches (Below outBufLen) (fun rc => ¬ Negative rc)
      (Qrtr.qmiEncode cs (nestDepth ei) ei 0 base outBufLen 1)
      (qmiEncode cs (nestDepth ei) ei 0 base outBufLen 1) := by
  rcases hshort with hshort | hshort
  · refine .of_eq (qmiEncode_eq cs h base outBufLen hshort) fun _ rc hrc => ?_
    obtain ⟨rfl, -⟩ := (qmiEncodeMessage_guarded cs h 0 base outBufLen).ensures.of_ok hrc
    exact Nat.not_le_of_lt hshort
  · have hmatches := qmiEncode_matches hshort cs (nestDepth ei) ei base outBufLen (.inl ⟨rfl, Nat.zero_le _⟩)
    refine hmatches.imp (fun _ hw => hw) fun rc hrc => ?_
    exact Nat.not_le_of_lt (Nat.lt_of_le_of_lt hrc.1 hshort)

/-- The encoder is exact about the space if and only if the check in front of the first piece that does
    not fit, if there is one, refuses it, and the buffer does not lie between the sizes of the message with
    the counts as the encoder reads them and with the counts as they are. -/
theorem encodesExactly_iff (cs : Mem) {ei : List QmiElemInfo} (h : Described EncodeRules 1 ei)
    {base outBufLen : Nat} (hlen : outBufLen < 2 ^ 32) (hfit : Plain.ValuesFit cs (nestDepth ei) ei base)
    (hshort : (Plain.messageBytes cs ei base).length < 2 ^ 31 ∨ outBufLen < 2 ^ 31) :
    EncodesExactly cs ei base outBufLen ↔
      FirstMisfitRefused outBufLen (messagePieces cs ei 0 base) ∧
        ¬ ((messageBytes cs ei base).length ≤ outBufLen ∧
          outBufLen < (Plain.messageBytes cs ei base).length) := by
  have hle := (messageBytes_shortens cs h base).le
  have hlow := hfit.low h
  have hsame := Machine.qmiEncode_inside cs h base outBufLen (hshort.imp_left (Nat.lt_of_le_of_lt hle))
  have hinside := hsame.every_iff.trans (qmiEncode_inside_iff cs h hlen hlow)
  rw [EncodesExactly, hinside, and_comm]
  apply and_congr_right
  intro hrefused
  have hevery := (qmiEncode_inside_iff cs h hlen hlow).mpr hrefused
  have hsucceeds := qmiEncode_succeeds_iff cs h hlen hlow hrefused
  have hresult : (∃ rc, (qmiEncode cs (nestDepth ei) ei 0 base outBufLen 1).res = .ok rc ∧
      ¬ Machine.Negative rc) ↔ (messageBytes cs ei base).length ≤ outBufLen := by
    rw [← hsucceeds]
    exact exists_congr fun rc => and_iff_left_of_imp (hsame.value hevery rc)
  rw [hsame.eq (.inl hevery), hresult]
  omega

/-- One byte short, the sample message is not refused: the check of the string leaves out the header of
    the TLV around it. -/
theorem not_encodesExactly_sample :
    Described EncodeRules 1 sampleMessage ∧
      Plain.ValuesFit sampleValue (nestDepth sampleMessage) sampleMessage 0 ∧
      ¬ EncodesExactly sampleValue sampleMessage 0 5 := by
  refine ⟨sampleMessage_described, sampleValue_fits, ?_⟩
  intro ⟨_, hinside⟩
  have hwrite : (⟨5, [98]⟩ : Write) ∈
      (Machine.qmiEncode sampleValue (nestDepth sampleMessage) sampleMessage 0 0 5 1).trace := by decide
  exact absurd (hinside _ hwrite 0 (by decide)) (by decide)

/-- In a buffer of two bytes the check refuses the string, and the encoder is exact. -/
theorem encodesExactly_sample : EncodesExactly sampleValue sampleMessage 0 2 :=
  (encodesExactly_iff sampleValue sampleMessage_described (by omega) sampleValue_fits
    (.inr (by omega))).mpr (by decide)

/-! ### Which checks are exact -/

/-- The check of a count or an array is exact unless its sum wraps. -/
theorem sumPiece_passes_iff {start pos bound : Nat} {bs : List UInt8} (hpos : start ≤ pos)
    (hsum : bs.length + (pos - start) < 2 ^ 32) :
    (sumPiece start pos bs).Passes bound ↔ (sumPiece start pos bs).Fits bound := by
  have hlen : u32 bs.length = bs.length := u32_of_lt (by omega)
  change start + u32 (u32 bs.length + (pos - start)) ≤ bound ↔ pos + bs.length ≤ bound
  rw [hlen, u32_of_lt hsum]
  omega

/-- The check of a string at the top level is exact. -/
theorem textPiece_top_passes_iff (cs : Mem) {ei : QmiElemInfo} (hsize : ei.elemSize = 1)
    (addr pos bound : Nat) :
    (textPiece cs true ei addr pos).Passes bound ↔ (textPiece cs true ei addr pos).Fits bound := by
  simp [Piece.Passes, Piece.Fits, textPiece, textBytes, hsize]

/-- The check of a string in a nested structure lets it through up to three bytes past the end. -/
theorem textPiece_nested_passes_iff (cs : Mem) {ei : QmiElemInfo} (hsize : ei.elemSize = 1)
    {addr pos bound : Nat} (hsum : textLen cs ei addr + stringLenSz ei < 2 ^ 32) :
    (textPiece cs false ei addr pos).Passes bound ↔
      (textPiece cs false ei addr pos).Fits (bound + 3) := by
  have hbytes : (textBytes cs false ei addr).length = stringLenSz ei + textLen cs ei addr := by
    simp [textBytes, hsize]
  change pos + u32 (textLen cs ei addr + stringLenSz ei) - 3 ≤ bound ↔
    pos + (textBytes cs false ei addr).length ≤ bound + 3
  rw [u32_of_lt hsum, hbytes]
  omega

end Qrtr
