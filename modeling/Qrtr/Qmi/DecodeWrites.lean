/-
Module: Qrtr.Qmi.DecodeWrites
Layer: Qmi
Purpose: Where the decoder writes. Every byte that it stores lies in the described field that it is meant
  for, and every index is below the capacity of that field, if and only if no string that the message
  brings is exactly as long as its field: the terminating NUL of such a string goes one past the end. Said of
  the decoder with the numbers of C, for inputs and fields of fewer than 2^31 bytes together.
Imports: Qmi.DecodeReads, Qmi.Reach
Main exports: IsField, DecodeEvent.InField, WriteRules, qmiDecode_writes_iff
Open obligations: none
-/
import Qrtr.Qmi.DecodeReads
import Qrtr.Qmi.Reach

namespace Qrtr

/-- The bytes that a field owns. -/
def QmiElemInfo.fieldSize (ei : QmiElemInfo) : Nat :=
  match ei.dataType with
  | .optFlag => 1
  | .dataLen => 4
  | _ => ei.elemLen * ei.elemSize

/-- The number of elements of a field. -/
def QmiElemInfo.fieldLen (ei : QmiElemInfo) : Nat :=
  match ei.dataType with
  | .optFlag | .dataLen => 1
  | _ => ei.elemLen

/-- The structure described by `ei`, at `base`, has the field of `e` at `addr`: directly, or in an element
    of an array of structures. -/
inductive IsField : List QmiElemInfo → Nat → QmiElemInfo → Nat → Prop
  | here {ei : List QmiElemInfo} {base : Nat} {e : QmiElemInfo} (h : e ∈ ei) :
      IsField ei base e (base + e.offset)
  | nested {ei : List QmiElemInfo} {base : Nat} {s e : QmiElemInfo} {addr i : Nat} (h : s ∈ ei)
      (hs : s.dataType = .struct) (hi : i < s.elemLen)
      (hfield : IsField s.eiArray (base + s.offset + i * s.elemSize) e addr) : IsField ei base e addr

/-- A store goes to bytes of the field that it is meant for, at an index below its length; so does the
    decoding of an element of an array of structures. -/
def DecodeEvent.InField (ei : List QmiElemInfo) (base : Nat) : DecodeEvent → Prop
  | .store e index addr bytes => index < e.fieldLen ∧ ∃ field, IsField ei base e field ∧
      field ≤ addr ∧ addr + bytes.length ≤ field + e.fieldSize
  | .enter e index addr => index < e.fieldLen ∧ ∃ field, IsField ei base e field ∧
      addr = field + index * e.elemSize
  | _ => True

/-- The site is not a string that is exactly as long as its field. -/
def Site.LeavesNul : Site → Prop
  | .text capacity _ len _ => len ≠ capacity
  | _ => True

instance (s : Site) : Decidable s.LeavesNul :=
  match s with
  | .text capacity _ len _ => inferInstanceAs (Decidable (len ≠ capacity))
  | .header .. | .count .. | .body .. | .textLen .. => .isTrue trivial

/-- A single value takes up at least one element of its field; strings are made of bytes. -/
def WriteRules (_ : Nat) (gs : List Group) (_ : QmiElemInfo) : Prop :=
  ∀ g ∈ gs, (g.value.dataType = .string → g.value.elemSize = 1) ∧
    (g.value.dataType ≠ .string → g.value.arrayType = .noArray → 1 ≤ g.value.elemLen)

/-- The fields of a part are fields of the whole. -/
def FieldsOf (part : List QmiElemInfo) (out : Nat) (whole : List QmiElemInfo) (base : Nat) : Prop :=
  ∀ e addr, IsField part out e addr → IsField whole base e addr

/-! ### One group -/

theorem maxCount_le {ei : QmiElemInfo} (h : ei.arrayType = .noArray → 1 ≤ ei.elemLen) :
    ei.maxCount ≤ ei.elemLen := by
  unfold QmiElemInfo.maxCount
  cases harray : ei.arrayType with
  | noArray => exact h harray
  | staticArray | varLenArray => exact Nat.le_refl _

theorem fieldLen_value {ei : QmiElemInfo} (h : ei.dataType.IsValue) : ei.fieldLen = ei.elemLen := by
  unfold QmiElemInfo.fieldLen
  cases htype : ei.dataType <;> simp_all [QmiElemType.IsValue]

theorem fieldSize_value {ei : QmiElemInfo} (h : ei.dataType.IsValue) :
    ei.fieldSize = ei.elemLen * ei.elemSize := by
  unfold QmiElemInfo.fieldSize
  cases htype : ei.dataType <;> simp_all [QmiElemType.IsValue]

section Group

variable {gs : List Group} {eoti : QmiElemInfo} {out base : Nat} {whole : List QmiElemInfo} {g : Group}

/-- An element of the array is a field. -/
theorem field_of_mem (hpart : FieldsOf (flatten gs eoti) out whole base) (hg : g ∈ gs)
    {e : QmiElemInfo} (he : e ∈ g.elems) : IsField whole base e (out + e.offset) := by
  apply hpart
  apply IsField.here
  exact List.mem_append_left _ (List.mem_flatMap.mpr ⟨g, hg, he⟩)

theorem mem_elems_flag {f : QmiElemInfo} (h : g.flag? = some f) : f ∈ g.elems := by
  simp [Group.elems, h]

theorem mem_elems_len {l : QmiElemInfo} (h : g.len? = some l) : l ∈ g.elems := by
  simp [Group.elems, h]

theorem mem_elems_value : g.value ∈ g.elems := by
  simp [Group.elems]

/-- The elements of a value lie in its field. -/
theorem elemsIn_field (hshape : g.Shaped) (hfield : IsField whole base g.value (out + g.value.offset))
    (mem : Mem) {n : Nat} (hn : n ≤ g.value.elemLen) (pos : Nat) :
    ElemsIn (DecodeEvent.InField whole base) mem g.value n pos (out + g.value.offset) := by
  intro i hi
  refine ⟨trivial, ?_, out + g.value.offset, hfield, Nat.le_add_right _ _, ?_⟩
  · rw [fieldLen_value hshape.value]
    omega
  · have hmul : (i + 1) * g.value.elemSize ≤ g.value.elemLen * g.value.elemSize :=
      Nat.mul_le_mul_right _ (by omega)
    rw [Nat.succ_mul] at hmul
    rw [fieldSize_value hshape.value, Mem.length_bytes]
    omega

/-- Every access of a group lies in its fields, unless a string leaves no room for its NUL. -/
theorem tracked_inField (hpart : FieldsOf (flatten gs eoti) out whole base) (hg : g ∈ gs)
    (hshape : g.Shaped) (hstring : g.value.dataType = .string → g.value.elemSize = 1)
    (hsingle : g.value.dataType ≠ .string → g.value.arrayType = .noArray → 1 ≤ g.value.elemLen)
    (mem : Mem) : Tracked (DecodeEvent.InField whole base) Site.LeavesNul mem out g where
  flag f hf := by
    have hfield := field_of_mem hpart hg (mem_elems_flag hf)
    have htype := hshape.flag f hf
    refine ⟨?_, out + f.offset, hfield, Nat.le_refl _, ?_⟩
    · simp [QmiElemInfo.fieldLen, htype]
    · simp [QmiElemInfo.fieldSize, htype]
  count l hl pos v room := by
    have hfield := field_of_mem hpart hg (mem_elems_len hl)
    have htype := hshape.len l hl
    refine iff_of_true ⟨trivial, ⟨?_, out + l.offset, hfield, Nat.le_refl _, ?_⟩, trivial⟩ trivial
    · simp [QmiElemInfo.fieldLen, htype]
    · simp [QmiElemInfo.fieldSize, htype]
  basic _ hnot n hn pos := by
    have hle := Nat.le_trans hn (maxCount_le (hsingle hnot))
    exact iff_of_true
      (elemsIn_field hshape (field_of_mem hpart hg mem_elems_value) mem hle pos) trivial
  enter htype i hi := by
    have hle := maxCount_le (hsingle (by simp [htype]))
    refine ⟨?_, out + g.value.offset, field_of_mem hpart hg mem_elems_value, rfl⟩
    rw [fieldLen_value hshape.value]
    omega
  textLen _ := iff_of_true trivial trivial
  text htype len hlen pos := by
    have hfield := field_of_mem hpart hg (mem_elems_value (g := g))
    have hchars := elemsIn_field hshape hfield mem hlen pos
    have hindex := fieldLen_value hshape.value
    have hsize := fieldSize_value hshape.value
    rw [hstring htype, Nat.mul_one] at hsize
    constructor
    · intro ⟨_, hnul, _⟩
      rw [hindex] at hnul
      exact Nat.ne_of_lt hnul
    · intro hne
      have hlt : len < g.value.elemLen := Nat.lt_of_le_of_ne hlen hne
      refine ⟨hchars, ?_, out + g.value.offset, hfield, Nat.le_add_right _ _, ?_⟩
      · rwa [hindex]
      · rw [hsize, List.length_singleton]
        omega

end Group

/-! ### The decoder -/

theorem trackedAt_inField {level : Nat} {ei : List QmiElemInfo} (h : Described WriteRules level ei)
    {whole : List QmiElemInfo} {out base : Nat} (hpart : FieldsOf ei out whole base) (mem : Mem) :
    TrackedAt (DecodeEvent.InField whole base) Site.LeavesNul mem ei out := by
  induction h generalizing out with
  | @mk level gs eoti hend hshape hrules _ ih =>
      apply TrackedAt.mk
      · rw [groups_flatten hend hshape]
        intro g hg
        obtain ⟨hstring, hsingle⟩ := hrules g hg
        exact tracked_inField hpart hg (hshape g hg) hstring hsingle mem
      · rw [groups_flatten hend hshape]
        intro g hg hstruct i hi
        have hle := maxCount_le ((hrules g hg).2 (by simp [hstruct]))
        apply ih g hg hstruct
        intro e addr hfield
        exact hpart _ _ (.nested (value_mem_flatten hg eoti) hstruct (by omega) hfield)

/-- Whatever the input, the decoder writes only inside the described fields if and only if no string that
    it comes to is exactly as long as its field. -/
theorem qmiDecode_writes_iff (mem : Mem) {ei : List QmiElemInfo} (h : Described WriteRules 1 ei)
    (out : Nat) {inBuf inBufLen : Nat} (hsmall : inBuf + inBufLen + 2 + wireSize ei < 2 ^ 31) :
    (Machine.qmiDecode mem (nestDepth ei) ei out inBuf inBufLen 1).Every (DecodeEvent.InField ei out) ↔
      (walkMessage mem ei inBuf inBufLen).Every Site.LeavesNul := by
  rw [Machine.qmiDecode_eq mem h out hsmall, qmiDecode_eq_readMessage mem h]
  exact (readMessage_tracks h (trackedAt_inField h (fun _ _ hfield => hfield) mem)
    (fun _ _ _ => trivial) (fun _ _ _ => iff_of_true trivial trivial) inBuf inBufLen).every_iff

theorem sampleMessage_writeRules : Described WriteRules 1 sampleMessage := by
  have htext : Described WriteRules 2 (flatten [⟨none, none, sampleText⟩] sampleEnd) := by
    refine .mk rfl ?_ ?_ ?_
    · simp only [List.mem_singleton, forall_eq]
      exact ⟨by simp, by simp, trivial⟩
    · simp only [WriteRules, List.mem_singleton, forall_eq]
      exact ⟨fun _ => rfl, by simp [sampleText]⟩
    · simp [sampleText]
  refine .mk rfl ?_ ?_ ?_
  · simp only [List.mem_singleton, forall_eq]
    exact ⟨by simp, by simp, trivial⟩
  · simp only [WriteRules, List.mem_singleton, forall_eq]
    exact ⟨by simp [sampleStruct], by simp [sampleStruct]⟩
  · simp only [List.mem_singleton, forall_eq]
    exact fun _ => htext

/-- The string "ab" leaves room for its NUL. -/
theorem qmiDecode_writes_sample :
    (Machine.qmiDecode (fun a => [1, 3, 0, 2, 97, 98].getD a 0) (nestDepth sampleMessage) sampleMessage
      0 0 6 1).Every (DecodeEvent.InField sampleMessage 0) := by
  have hsites : ∀ s ∈ (walkMessage (fun a => [1, 3, 0, 2, 97, 98].getD a 0) sampleMessage 0 6).trace,
      s.LeavesNul := by decide
  exact (qmiDecode_writes_iff _ sampleMessage_writeRules 0 (by decide)).mpr hsites

/-- A string of five characters in its field of five: the NUL is stored behind the structure. -/
theorem not_qmiDecode_writes :
    Described WriteRules 1 sampleMessage ∧
      ¬ (Machine.qmiDecode (fun a => [1, 6, 0, 5, 97, 98, 99, 100, 101].getD a 0)
        (nestDepth sampleMessage) sampleMessage 0 0 9 1).Every (DecodeEvent.InField sampleMessage 0) := by
  refine ⟨sampleMessage_writeRules, ?_⟩
  intro h
  have htrace : (Machine.qmiDecode (fun a => [1, 6, 0, 5, 97, 98, 99, 100, 101].getD a 0)
      (nestDepth sampleMessage) sampleMessage 0 0 9 1).trace[15]? = some (.store sampleText 5 5 [0]) := by
    rfl
  obtain ⟨hindex, _⟩ := h _ (List.mem_of_getElem? htrace)
  exact absurd hindex (by decide)

end Qrtr
