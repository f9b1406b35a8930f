/-
Module: Qrtr.Qmi.Counts
Layer: Qmi
Purpose: Whether the encoder honours the count of an array or refuses it. `FieldAt` says where in the
  encoding of a structure a field stands, at any depth. The encoder reads as many bytes of a count as its
  prefix has on the wire, and checks what it has read; the decoder stores four. So a count that does not
  fit the prefix is cut off before the check sees it.
Imports: Qmi.EncodeCorrect
Main exports: structBytes, FieldAt, CountHonoured, countHonoured_iff
Open obligations: none
-/
import Qrtr.Qmi.EncodeCorrect

namespace Qrtr

/-! ### A structure, whatever the bound on the nesting -/

/-- The bytes of a nested structure. -/
def structBytes (cs : Mem) (ei : List QmiElemInfo) (base : Nat) : List UInt8 :=
  nestedBytes cs (nestDepth ei) ei base

section Bytes

variable {cs : Mem}

/-- Only the bytes of the nested structures matter. -/
theorem valueBytes_congr {nested nested' : List QmiElemInfo → Nat → List UInt8} {ei : QmiElemInfo}
    (h : ei.dataType = .struct → nested ei.eiArray = nested' ei.eiArray) (top : Bool) (addr n : Nat) :
    valueBytes nested cs top ei addr n = valueBytes nested' cs top ei addr n := by
  unfold valueBytes
  cases htype : ei.dataType with
  | struct => simp only [h htype]
  | _ => rfl

theorem Group.payload_congr {nested nested' : List QmiElemInfo → Nat → List UInt8} {g : Group}
    (h : g.value.dataType = .struct → nested g.value.eiArray = nested' g.value.eiArray) (top : Bool)
    (base : Nat) : g.payload nested cs top base = g.payload nested' cs top base := by
  rw [Group.payload, Group.payload, valueBytes_congr h]

/-- The bound on the nesting does not matter, once it is high enough. -/
theorem nestedBytes_eq {P : Nat → List Group → QmiElemInfo → Prop} {level : Nat}
    {ei : List QmiElemInfo} (h : Described P level ei) {d : Nat} (hd : nestDepth ei ≤ d) :
    nestedBytes cs d ei = structBytes cs ei := by
  induction h generalizing d with
  | @mk level gs eoti hend hshape hP hnest ih =>
      obtain ⟨d, rfl⟩ := exists_eq_succ_of_nestDepth_le hd
      obtain ⟨k, hk⟩ := exists_eq_succ_of_nestDepth_le (Nat.le_refl (nestDepth (flatten gs eoti)))
      funext base
      rw [structBytes, hk, nestedBytes, nestedBytes, groups_flatten hend hshape]
      apply List.flatMap_congr
      intro g hg
      apply Group.payload_congr
      intro hstruct
      rw [ih g hg hstruct (nestDepth_value hg hd), ih g hg hstruct (nestDepth_value hg hk.le)]

end Bytes

/-! ### The fields of an encoding -/

section Fields

variable (cs : Mem)

/-- The header in front of a field, at the top level. -/
def Group.header (top : Bool) (base : Nat) (g : Group) : List UInt8 :=
  if top then tlvHeader g.value.tlvType (g.payload (structBytes cs) cs top base).length else []

/-- What a group adds to the encoding of its structure. -/
def Group.encoding (top : Bool) (base : Nat) (g : Group) : List UInt8 :=
  if g.present cs base then g.header cs top base ++ g.payload (structBytes cs) cs top base else []

/-- The encoding of the groups `gs` of a structure. -/
def groupsBytes (top : Bool) (base : Nat) (gs : List Group) : List UInt8 :=
  gs.flatMap (Group.encoding cs top base)

/-- The field `g` of the structure at `b` takes the bytes from `p` up to `q`, if the encoding of the
    structure at `base` starts at `pos`. The field belongs to this structure, or to one of the structures
    in it; `top` says that this one is the message. -/
inductive FieldAt (cs : Mem) :
    Bool → List QmiElemInfo → Nat → Nat → Group → Nat → Nat → Nat → Prop
  | own {top : Bool} {ei : List QmiElemInfo} {base pos : Nat} {gs gs' : List Group} {g : Group}
      (hei : groups ei = gs ++ g :: gs') (hpresent : g.present cs base = true) :
      FieldAt cs top ei base pos g base
        (pos + (groupsBytes cs top base gs ++ g.header cs top base).length)
        (pos + (groupsBytes cs top base gs ++ g.encoding cs top base).length)
  | inner {top : Bool} {ei : List QmiElemInfo} {base pos i b p q : Nat} {gs gs' : List Group}
      {h g : Group} (hei : groups ei = gs ++ h :: gs') (hpresent : h.present cs base = true)
      (hstruct : h.value.dataType = .struct) (hvalue : h.hasValue cs base = true)
      (hi : i < h.count cs base)
      (hin : FieldAt cs false h.value.eiArray (base + h.value.offset + i * h.value.elemSize)
        (pos + (groupsBytes cs top base gs ++ (h.header cs top base ++ (h.countPrefix cs base ++
          arrayBytes (structBytes cs h.value.eiArray) h.value.elemSize i
            (base + h.value.offset)))).length) g b p q) :
      FieldAt cs top ei base pos g b p q

end Fields

section Layout

variable {cs : Mem}

/-- The bytes of a structure are those of its groups. -/
theorem structBytes_eq {level : Nat} {ei : List QmiElemInfo} (h : Described EncodeRules level ei)
    (hlevel : 1 < level) (base : Nat) : structBytes cs ei base = groupsBytes cs false base (groups ei) := by
  obtain ⟨d, hd⟩ := exists_eq_succ_of_nestDepth_le (Nat.le_refl (nestDepth ei))
  rw [structBytes, hd, nestedBytes, groupsBytes]
  cases h with
  | @mk _ gs eoti hend hshape hP hnest =>
      rw [groups_flatten hend hshape]
      apply List.flatMap_congr
      intro g hg
      have hpresent := (hP.1 g hg).present hlevel cs base
      rw [Group.encoding, if_pos hpresent]
      apply Group.payload_congr
      intro hstruct
      exact nestedBytes_eq (hnest g hg hstruct) (nestDepth_value hg hd.le)

/-- The bytes of a message are those of its groups. -/
theorem messageBytes_eq {ei : List QmiElemInfo} (h : Described EncodeRules 1 ei) (base : Nat) :
    messageBytes cs ei base = groupsBytes cs true base (groups ei) := by
  obtain ⟨d, hd⟩ := exists_eq_succ_of_nestDepth_le (Nat.le_refl (nestDepth ei))
  rw [messageBytes, hd, Nat.add_sub_cancel]
  cases h with
  | @mk _ gs eoti hend hshape hP hnest =>
      rw [groups_flatten hend hshape]
      have hpayload : ∀ g ∈ gs, g.body cs d base = g.payload (structBytes cs) cs true base := by
        intro g hg
        apply Group.payload_congr
        intro hstruct
        exact nestedBytes_eq (hnest g hg hstruct) (nestDepth_value hg hd.le)
      clear hnest hP hshape hd
      induction gs with
      | nil => rfl
      | cons g gs ih =>
          have hbody := hpayload g List.mem_cons_self
          have hrest := ih fun g' hg' => hpayload g' (List.mem_cons_of_mem _ hg')
          have hcons : groupsBytes cs true base (g :: gs)
              = g.encoding cs true base ++ groupsBytes cs true base gs := rfl
          rw [tlvBytes_cons, hrest, hcons, Group.encoding, Group.header, Group.tlv, hbody]
          split <;> rfl

/-- The elements of an array, cut in two. -/
theorem arrayBytes_add (elem : Nat → List UInt8) (size i k addr : Nat) :
    arrayBytes elem size (i + k) addr
      = arrayBytes elem size i addr ++ arrayBytes elem size k (addr + i * size) := by
  induction i generalizing addr with
  | zero => simp [arrayBytes]
  | succ i ih =>
      have hcount : i + 1 + k = i + k + 1 := by omega
      have haddr : addr + size + i * size = addr + (i + 1) * size := by ring
      rw [hcount, arrayBytes, ih, haddr, arrayBytes, List.append_assoc]

/-- The bytes of an array of a basic type, element by element. -/
theorem arrayBytes_basic (size n addr : Nat) :
    arrayBytes (fun a => cs.bytes a size) size n addr = cs.bytes addr (n * size) := by
  induction n generalizing addr with
  | zero => simp [arrayBytes]
  | succ n ih =>
      have hlen : (n + 1) * size = size + n * size := by ring
      rw [arrayBytes, ih, hlen, Mem.bytes_add]

/-- An element of an array stands behind those in front of it. -/
theorem has_element {mem : Mem} {elem : Nat → List UInt8} {size n i pos addr : Nat} (hi : i < n)
    (h : mem.Has pos (arrayBytes elem size n addr)) :
    mem.Has (pos + (arrayBytes elem size i addr).length) (elem (addr + i * size)) := by
  have hn : n = i + (n - i - 1 + 1) := by omega
  rw [hn, arrayBytes_add, Mem.has_append, arrayBytes, Mem.has_append] at h
  exact h.2.1

/-- Where the field stands, its payload stands. -/
theorem FieldAt.payload_has {mem : Mem} {top : Bool} {ei : List QmiElemInfo} {base pos b p q : Nat}
    {g : Group} (hat : FieldAt cs top ei base pos g b p q) {level : Nat}
    (h : Described EncodeRules level ei) (hlevel : 1 ≤ level)
    (hmem : mem.Has pos (groupsBytes cs top base (groups ei))) :
    ∃ top, mem.Has p (g.payload (structBytes cs) cs top b) ∧
      q - p = (g.payload (structBytes cs) cs top b).length := by
  induction hat generalizing level with
  | @own top ei base pos gs gs' g hei hpresent =>
      rw [hei, groupsBytes, List.flatMap_append, List.flatMap_cons, Mem.has_append, Mem.has_append,
        Group.encoding, if_pos hpresent, Mem.has_append] at hmem
      obtain ⟨-, ⟨-, hpayload⟩, -⟩ := hmem
      refine ⟨top, ?_, ?_⟩
      · rw [List.length_append, ← Nat.add_assoc]
        exact hpayload
      · rw [Group.encoding, if_pos hpresent]
        simp only [List.length_append]
        omega
  | @inner top ei base pos i b p q gs gs' f g hei hpresent hstruct hvalue hi hin ih =>
      rw [hei, groupsBytes, List.flatMap_append, List.flatMap_cons, Mem.has_append, Mem.has_append,
        Group.encoding, if_pos hpresent, Mem.has_append, Group.payload, if_pos hvalue, valueBytes,
        hstruct, Mem.has_append] at hmem
      obtain ⟨-, ⟨-, -, helems⟩, -⟩ := hmem
      cases h with
      | @mk _ gs₀ eoti hend hshape hP hnest =>
          have hf : f ∈ gs₀ := by
            rw [← groups_flatten hend hshape, hei]
            simp
          have hnested := hnest f hf hstruct
          apply ih hnested (by omega)
          rw [← structBytes_eq hnested (by omega)]
          simp only [List.length_append, ← Nat.add_assoc]
          exact has_element hi helems

/-- A field of a structure whose values fit keeps to the grammar and to its bound. -/
theorem FieldAt.within {top : Bool} {ei : List QmiElemInfo} {base pos b p q : Nat} {g : Group}
    (hat : FieldAt cs top ei base pos g b p q) {level : Nat} (h : Described EncodeRules level ei) {d : Nat}
    (hd : nestDepth ei ≤ d) (hfit : ValuesFit id cs d ei base)
    (harray : g.value.arrayType = .varLenArray) : g.lenValue cs b ≤ g.value.elemLen := by
  induction hat generalizing level d with
  | @own top ei base pos gs gs' g hei hpresent =>
      obtain ⟨d, rfl⟩ := exists_eq_succ_of_nestDepth_le hd
      exact (hfit g (by simp [hei]) hpresent).1 harray
  | @inner top ei base pos i b p q gs gs' f g hei hpresent hstruct hvalue hi hin ih =>
      obtain ⟨d, rfl⟩ := exists_eq_succ_of_nestDepth_le hd
      have hfits := (hfit f (by simp [hei]) hpresent).2 hvalue
      rw [hstruct] at hfits
      cases h with
      | @mk _ gs₀ eoti hend hshape hP hnest =>
          have hf : f ∈ gs₀ := by
            rw [← groups_flatten hend hshape, hei]
            simp
          exact ih (hnest f hf hstruct) (nestDepth_value hf hd) (hfits i hi) harray

end Layout

/-! ### Counts -/

section Count

variable (cs : Mem) (g : Group)

/-- The bytes of one element of an array. -/
def Group.element (addr : Nat) : List UInt8 :=
  match g.value.dataType with
  | .struct => structBytes cs g.value.eiArray addr
  | _ => cs.bytes addr g.value.elemSize

/-- From `p` up to `q` the buffer holds the count `c` as a prefix, behind it `c` elements of the array of
    the structure at `b`, and nothing else. -/
def CountKept (mem : Mem) (l : QmiElemInfo) (b p q c : Nat) : Prop :=
  ∃ low, low.length = dataLenSz l ∧ leValue low = c ∧
    mem.bytes p (q - p) =
      low ++ arrayBytes (g.element cs) g.value.elemSize c (b + g.value.offset)

/-- `qmi_encode` refuses the count of the array `g` when it is above the maximum; otherwise, if the rest of the
    structure is within its bounds, the count stands in front of as many elements. -/
def CountHonoured (ei : List QmiElemInfo) (base outBufLen : Nat) (l : QmiElemInfo) (b p q : Nat) : Prop :=
  let run := Machine.qmiEncode cs (nestDepth ei) ei 0 base outBufLen 1
  (g.value.elemLen < countField cs l b → run.res = .error einval) ∧
    (countField cs l b ≤ g.value.elemLen → ValuesFit id cs (nestDepth ei) ei base →
      (∃ rc, run.res = .ok rc ∧ ¬ Machine.Negative rc) ∧
        ∀ mem, CountKept cs g (applyWrites mem run.trace) l b p q (countField cs l b))

end Count

section Honoured

variable {cs : Mem} {g : Group} {l : QmiElemInfo}

/-- The payload of an array is its count and as many elements. -/
theorem payload_array (hl : g.len? = some l) (harray : g.value.arrayType = .varLenArray)
    (htext : g.value.dataType ≠ .string) (top : Bool) (b : Nat) :
    g.payload (structBytes cs) cs top b =
      leBytes (dataLenSz l) (g.lenValue cs b) ++
        arrayBytes (g.element cs) g.value.elemSize (g.lenValue cs b) (b + g.value.offset) := by
  have hcount : g.count cs b = g.lenValue cs b := by simp [Group.count, harray]
  have hvalue : valueBytes (structBytes cs) cs top g.value (b + g.value.offset) (g.lenValue cs b)
      = arrayBytes (g.element cs) g.value.elemSize (g.lenValue cs b) (b + g.value.offset) := by
    unfold valueBytes Group.element
    cases htype : g.value.dataType with
    | string => exact absurd htype htext
    | struct => rfl
    | _ => exact (arrayBytes_basic _ _ _).symm
  rw [Group.payload, Group.countPrefix, hl, hcount, hvalue]
  by_cases hzero : g.lenValue cs b = 0
  · rw [hzero]
    simp [Group.hasValue, hl, hzero, arrayBytes]
  · simp [Group.hasValue, hl, hzero]

/-- In an encoding of fewer than 2^31 bytes, the count of an array is honoured or refused if and only if it
    fits its prefix, or the structure is refused anyway. -/
theorem countHonoured_iff {ei : List QmiElemInfo} (h : Described EncodeRules 1 ei)
    {base outBufLen b p q : Nat} (hlen : outBufLen < 2 ^ 32)
    (hroom : ValuesFit id cs (nestDepth ei) ei base → (messageBytes cs ei base).length ≤ outBufLen)
    (hshort : (messageBytes cs ei base).length < 2 ^ 31)
    (hat : FieldAt cs true ei base 0 g b p q) (hl : g.len? = some l)
    (hsize : l.elemSize = 1 ∨ l.elemSize = 2) (harray : g.value.arrayType = .varLenArray)
    (htext : g.value.dataType ≠ .string) :
    CountHonoured cs g ei base outBufLen l b p q ↔
      (ValuesFit id cs (nestDepth ei) ei base → countField cs l b < 256 ^ l.elemSize) := by
  have hvalue : g.lenValue cs b = countField cs l b % 256 ^ l.elemSize :=
    lenValue_eq_mod hl (by rcases hsize with hone | htwo <;> omega) b
  have hensures := (qmiEncodeMessage_guarded cs h 0 base outBufLen).ensures
  rw [CountHonoured, Machine.qmiEncode_eq cs h base outBufLen hshort]
  constructor
  · intro ⟨hrefused, hkept⟩ hfit
    rcases Nat.lt_or_ge g.value.elemLen (countField cs l b) with habove | hwithin
    · have hres := (qmiEncode_eq_messageBytes cs h 0 hlen hfit (hroom hfit)).1
      rw [hrefused habove] at hres
      cases hres
    · obtain ⟨low, hwidth, hcount, -⟩ := (hkept hwithin hfit).2 fun _ => 0
      rw [← hcount, ← dataLenSz_eq hsize, ← hwidth]
      exact leValue_lt low
  · intro hnarrow
    constructor
    · intro habove
      have hnot : ¬ ValuesFit id cs (nestDepth ei) ei base := by
        intro hfit
        have hwithin := hat.within h (Nat.le_refl _) hfit harray
        rw [hvalue, Nat.mod_eq_of_lt (hnarrow hfit)] at hwithin
        omega
      obtain ⟨_, hres, rfl⟩ := hensures.of_not fun _ hfit => hnot hfit.2
      exact hres
    · intro _ hfit
      obtain ⟨hres, hmem⟩ := qmiEncode_eq_messageBytes cs h 0 hlen hfit (hroom hfit)
      refine ⟨⟨_, hres, Nat.not_le_of_lt hshort⟩, fun mem => ?_⟩
      have hwritten := Mem.has_write mem 0 (messageBytes cs ei base)
      rw [← hmem, messageBytes_eq h] at hwritten
      obtain ⟨top, hpayload, hsub⟩ := hat.payload_has h (Nat.le_refl 1) hwritten
      rw [Nat.mod_eq_of_lt (hnarrow hfit)] at hvalue
      rw [Mem.Has, ← hsub, payload_array hl harray htext, hvalue] at hpayload
      refine ⟨_, length_leBytes _ _, ?_, hpayload⟩
      rw [leValue_leBytes, dataLenSz_eq hsize, Nat.mod_eq_of_lt (hnarrow hfit)]

end Honoured

/-! ### An array on either side of the width of its prefix -/

/-- Two elements: the count is honoured. -/
theorem countHonoured_two :
    CountHonoured (sampleListValue 2) (sampleList 100) (sampleListMessage 100) 0 9 sampleLen 0 3 6 := by
  have hat : FieldAt (sampleListValue 2) true (sampleListMessage 100) 0 0 (sampleList 100) 0 3 6 :=
    @FieldAt.own _ _ _ _ _ [] [] _ rfl rfl
  have hbytes : (messageBytes (sampleListValue 2) (sampleListMessage 100) 0).length = 6 := by decide
  exact (countHonoured_iff (sampleListMessage_described 100) (by decide) (fun _ => by rw [hbytes]; decide)
    (by rw [hbytes]; decide) hat rfl (.inl rfl) rfl (by decide)).mpr fun _ => by decide

/-- 257 elements are one element: neither the maximum of 100 is seen to be exceeded, nor is the count in
    the message the one of the structure. -/
theorem not_countHonoured :
    Described EncodeRules 1 (sampleListMessage 100) ∧
      FieldAt (sampleListValue 257) true (sampleListMessage 100) 0 0 (sampleList 100) 0 3 5 ∧
      countField (sampleListValue 257) sampleLen 0 = 257 ∧
      ¬ CountHonoured (sampleListValue 257) (sampleList 100) (sampleListMessage 100) 0 512 sampleLen 0 3 5 := by
  refine ⟨sampleListMessage_described 100, @FieldAt.own _ _ _ _ _ [] [] _ rfl rfl, by decide, ?_⟩
  intro ⟨hrefused, _⟩
  have hres : (Machine.qmiEncode (sampleListValue 257) (nestDepth (sampleListMessage 100))
      (sampleListMessage 100) 0 0 512 1).res = .ok 5 := by decide
  rw [hrefused (by decide)] at hres
  cases hres

end Qrtr
