/-
Module: Qrtr.Qmi.Plain
Layer: Qmi
Purpose: The encoding of what the C structure holds, with every count read from its whole `uint32_t`. The
  encoder takes the low `elem_size` bytes of a count instead (`Group.lenValue`); its bytes are never more,
  and they are those of the plain serializer exactly when no count loses an element that takes a byte.
Imports: Qmi.Serialize
Main exports: countField, Plain.messageBytes, Plain.ValuesFit, CountsRead, messageBytes_shortens,
  Plain.ValuesFit.low
Open obligations: none
-/
import Qrtr.Qmi.Serialize

namespace Qrtr

/-! ### The plain serializer -/

/-- The `uint32_t` that the C structure at `b` holds as the count of an array. -/
def countField (cs : Mem) (l : QmiElemInfo) (b : Nat) : Nat := leValue (cs.bytes (b + l.offset) 4)

/-- How many elements there are behind the count `c`. -/
def Group.numberOf (g : Group) (c : Nat) : Nat :=
  match g.value.arrayType with
  | .noArray => 1
  | .staticArray => g.value.elemLen
  | .varLenArray => c

/-- The elements behind the count `c`; a count of zero leaves them out. -/
def Group.elements (nested : List QmiElemInfo → Nat → List UInt8) (cs : Mem) (top : Bool) (base : Nat)
    (g : Group) (c : Nat) : List UInt8 :=
  if g.len?.isNone || c != 0 then
    valueBytes nested cs top g.value (base + g.value.offset) (g.numberOf c)
  else []

namespace Plain

/-- The count that the C structure holds for the group. -/
def lenValue (cs : Mem) (base : Nat) (g : Group) : Nat :=
  match g.len? with
  | none => 0
  | some l => countField cs l base

/-- The count as it stands in front of the elements. -/
def countPrefix (cs : Mem) (base : Nat) (g : Group) : List UInt8 :=
  match g.len? with
  | none => []
  | some l => leBytes (dataLenSz l) (lenValue cs base g)

/-- The count prefix of a group and the elements of its value. -/
def payload (nested : List QmiElemInfo → Nat → List UInt8) (cs : Mem) (top : Bool) (base : Nat)
    (g : Group) : List UInt8 :=
  countPrefix cs base g ++ g.elements nested cs top base (lenValue cs base g)

/-- A nested structure: its fields one after the other, without TLV headers. -/
def nestedBytes (cs : Mem) : Nat → List QmiElemInfo → Nat → List UInt8
  | 0, _, _ => []
  | d + 1, ei, base => (groups ei).flatMap (payload (nestedBytes cs d) cs false base)

/-- A group as a TLV: the type, the length of the payload in two little-endian bytes, and the payload. -/
def tlv (cs : Mem) (d base : Nat) (g : Group) : List UInt8 :=
  tlvHeader g.value.tlvType (payload (nestedBytes cs d) cs true base g).length ++
    payload (nestedBytes cs d) cs true base g

/-- A message: the TLVs of the present groups, in the order of the descriptor. -/
def messageBytes (cs : Mem) (ei : List QmiElemInfo) (base : Nat) : List UInt8 :=
  ((groups ei).filter (Group.present cs base)).flatMap (tlv cs (nestDepth ei - 1) base)

/-- The count of a group is at most `elem_len`, and so is the length of a string. -/
def ValueFits (nested : List QmiElemInfo → Nat → Prop) (cs : Mem) (base : Nat) (g : Group) : Prop :=
  (g.value.arrayType = .varLenArray → lenValue cs base g ≤ g.value.elemLen) ∧
  (g.len? = none ∨ lenValue cs base g ≠ 0 →
    match g.value.dataType with
    | .struct => ∀ i, i < g.numberOf (lenValue cs base g) →
        nested g.value.eiArray (base + g.value.offset + i * g.value.elemSize)
    | .string => textLen cs g.value (base + g.value.offset) ≤ g.value.elemLen
    | _ => True)

/-- The C structure at `base` holds counts and strings within `elem_len`, in every field. -/
def ValuesFit (cs : Mem) : Nat → List QmiElemInfo → Nat → Prop
  | 0, _, _ => True
  | d + 1, ei, base => ∀ g ∈ groups ei, g.present cs base = true → ValueFits (ValuesFit cs d) cs base g

end Plain

/-! ### Bytes that get lost -/

/-- `xs'` is no longer than `xs`, and the same exactly if `C` holds. -/
structure Shortens (C : Prop) (xs' xs : List UInt8) : Prop where
  le : xs'.length ≤ xs.length
  of_length : xs'.length = xs.length → C
  eq : C → xs' = xs

section Shortening

variable {C D : Prop} {xs' xs ys' ys : List UInt8}

theorem Shortens.refl (xs : List UInt8) : Shortens True xs xs := ⟨Nat.le_refl _, fun _ => trivial, fun _ => rfl⟩

theorem Shortens.of_isPrefix (h : xs' <+: xs) : Shortens (xs' = xs) xs' xs :=
  ⟨h.length_le, h.eq_of_length, id⟩

theorem Shortens.congr (h : Shortens C xs' xs) (hCD : C ↔ D) : Shortens D xs' xs :=
  ⟨h.le, fun hlen => hCD.mp (h.of_length hlen), fun hD => h.eq (hCD.mpr hD)⟩

theorem Shortens.append (h : Shortens C xs' xs) (h' : Shortens D ys' ys) :
    Shortens (C ∧ D) (xs' ++ ys') (xs ++ ys) := by
  have hle := h.le
  have hle' := h'.le
  constructor
  case le =>
      rw [List.length_append, List.length_append]
      omega
  case of_length =>
      intro hlen
      rw [List.length_append, List.length_append] at hlen
      exact ⟨h.of_length (by omega), h'.of_length (by omega)⟩
  case eq =>
      rintro ⟨hC, hD⟩
      rw [h.eq hC, h'.eq hD]

theorem Shortens.trans (h : Shortens C xs' xs) (h' : Shortens D xs ys) : Shortens (C ∧ D) xs' ys := by
  have hle := h.le
  have hle' := h'.le
  refine ⟨Nat.le_trans hle hle', fun hlen => ?_, fun ⟨hC, hD⟩ => (h.eq hC).trans (h'.eq hD)⟩
  exact ⟨h.of_length (by omega), h'.of_length (by omega)⟩

theorem Shortens.flatMap {α : Type} {C : α → Prop} {f' f : α → List UInt8} {l : List α}
    (h : ∀ a ∈ l, Shortens (C a) (f' a) (f a)) :
    Shortens (∀ a ∈ l, C a) (l.flatMap f') (l.flatMap f) := by
  induction l with
  | nil => exact (Shortens.refl []).congr (by simp)
  | cons a l ih =>
      have hrest := ih fun b hb => h b (List.mem_cons_of_mem _ hb)
      rw [List.flatMap_cons, List.flatMap_cons]
      exact ((h a List.mem_cons_self).append hrest).congr (by simp)

end Shortening

/-! ### Counts that the encoder reads right -/

/-- The count of the group fits its prefix, or the elements that its low bytes leave out take no bytes. -/
def Group.CountRead (nested : List QmiElemInfo → Nat → List UInt8) (cs : Mem) (top : Bool) (base : Nat)
    (g : Group) : Prop :=
  ∀ l, g.len? = some l → countField cs l base < 256 ^ l.elemSize ∨
    g.elements nested cs top base (g.lenValue cs base) =
      g.elements nested cs top base (countField cs l base)

/-- Every count that the encoder comes to is read right. -/
def CountsRead (cs : Mem) : Bool → Nat → List QmiElemInfo → Nat → Prop
  | _, 0, _, _ => True
  | top, d + 1, ei, base => ∀ g ∈ groups ei, g.present cs base = true →
      g.CountRead (Plain.nestedBytes cs d) cs top base ∧
        (g.hasValue cs base = true → g.value.dataType = .struct → ∀ i, i < g.count cs base →
          CountsRead cs false d g.value.eiArray (base + g.value.offset + i * g.value.elemSize))

/-- Without a count there is nothing to read. -/
theorem Group.countRead_of_none {nested : List QmiElemInfo → Nat → List UInt8} {cs : Mem} {top : Bool}
    {base : Nat} {g : Group} (h : g.len? = none) : g.CountRead nested cs top base := by
  intro l hl
  rw [h] at hl
  cases hl

section Low

variable {cs : Mem} {level base : Nat} {g : Group}

theorem Group.payload_eq (nested : List QmiElemInfo → Nat → List UInt8) (cs : Mem) (top : Bool)
    (base : Nat) (g : Group) : g.payload nested cs top base =
      g.countPrefix cs base ++ g.elements nested cs top base (g.lenValue cs base) := by
  unfold Group.payload Group.elements Group.hasValue Group.count Group.numberOf
  rfl

/-- The encoder reads the low bytes of the count. -/
theorem lenValue_eq_mod {l : QmiElemInfo} (hl : g.len? = some l) (hsize : l.elemSize ≤ 4) (b : Nat) :
    g.lenValue cs b = countField cs l b % 256 ^ l.elemSize := by
  have hfour : l.elemSize + (4 - l.elemSize) = 4 := by omega
  simp only [Group.lenValue, hl, countField]
  rw [leValue_take cs _ l.elemSize (4 - l.elemSize), hfour]

/-- What the low bytes say is no more than the count. -/
theorem Group.Encodable.lenValue_le (h : g.Encodable level) (cs : Mem) (base : Nat) :
    g.lenValue cs base ≤ Plain.lenValue cs base g := by
  cases hl : g.len? with
  | none => simp [Group.lenValue, hl]
  | some l =>
      rw [lenValue_eq_mod hl (h.len_size l hl).2, Plain.lenValue, hl]
      exact Nat.mod_le _ _

/-- The prefix is the same: it has no more bytes than the encoder reads. -/
theorem Group.Encodable.countPrefix_eq (h : g.Encodable level) (cs : Mem) (base : Nat) :
    Plain.countPrefix cs base g = g.countPrefix cs base := by
  cases hl : g.len? with
  | none => simp [Plain.countPrefix, Group.countPrefix, hl]
  | some l =>
      obtain ⟨hone, hfour⟩ := h.len_size l hl
      have hwidth : dataLenSz l ≤ l.elemSize := by
        unfold dataLenSz
        split <;> omega
      simp only [Plain.countPrefix, Group.countPrefix, hl]
      rw [lenValue_eq_mod hl hfour, Plain.lenValue, hl]
      exact (leBytes_mod hwidth _).symm

/-- Fewer elements are the first ones. -/
theorem arrayBytes_isPrefix (elem : Nat → List UInt8) (size : Nat) :
    ∀ {n k : Nat} (addr : Nat), n ≤ k → arrayBytes elem size n addr <+: arrayBytes elem size k addr
  | 0, _, _, _ => List.nil_prefix
  | n + 1, 0, _, h => absurd h (Nat.not_succ_le_zero n)
  | _ + 1, _ + 1, addr, h =>
      (List.prefix_append_right_inj (elem addr)).mpr
        (arrayBytes_isPrefix elem size (addr + size) (Nat.le_of_succ_le_succ h))

/-- An array, element by element. -/
theorem arrayBytes_eq_flatMap (elem : Nat → List UInt8) (size n addr : Nat) :
    arrayBytes elem size n addr = (List.range n).flatMap fun i => elem (addr + i * size) := by
  induction n generalizing addr with
  | zero => rfl
  | succ n ih =>
      have hnext : ∀ i, addr + size + i * size = addr + (i + 1) * size := fun i => by ring
      rw [arrayBytes, ih, List.range_succ_eq_map, List.flatMap_cons, List.flatMap_map]
      simp [hnext]

theorem valueBytes_isPrefix (nested : List QmiElemInfo → Nat → List UInt8) (cs : Mem) (top : Bool)
    (ei : QmiElemInfo) (addr : Nat) {n k : Nat} (h : n ≤ k) :
    valueBytes nested cs top ei addr n <+: valueBytes nested cs top ei addr k := by
  unfold valueBytes
  split
  · exact arrayBytes_isPrefix _ _ _ h
  · exact List.prefix_rfl
  · obtain ⟨m, hm⟩ := Nat.exists_eq_add_of_le (Nat.mul_le_mul_right ei.elemSize h)
    rw [hm, Mem.bytes_add]
    exact List.prefix_append _ _

theorem Group.numberOf_le (g : Group) {c k : Nat} (h : c ≤ k) : g.numberOf c ≤ g.numberOf k := by
  unfold Group.numberOf
  split
  · exact Nat.le_refl _
  · exact Nat.le_refl _
  · exact h

/-- The elements behind a smaller count are the first ones. -/
theorem Group.elements_isPrefix (nested : List QmiElemInfo → Nat → List UInt8) (cs : Mem) (top : Bool)
    (base : Nat) (g : Group) {c k : Nat} (h : c ≤ k) :
    g.elements nested cs top base c <+: g.elements nested cs top base k := by
  unfold Group.elements
  by_cases hnone : g.len?.isNone = true
  · simp only [hnone, Bool.true_or, if_true]
    exact valueBytes_isPrefix nested cs top _ _ (g.numberOf_le h)
  · by_cases hzero : c = 0
    · simp [hnone, hzero]
    · have hk : k ≠ 0 := by omega
      simp only [Bool.or_eq_true, bne_iff_ne, ne_eq, hzero, hk, not_false_iff, or_true, if_true]
      exact valueBytes_isPrefix nested cs top _ _ (g.numberOf_le h)

/-- The same number of elements, with shorter structures in them. -/
theorem valueBytes_shortens {nested' nested : List QmiElemInfo → Nat → List UInt8} (cs : Mem) (top : Bool)
    (ei : QmiElemInfo) (addr n : Nat) {C : Nat → Prop}
    (h : ei.dataType = .struct → ∀ i, i < n →
      Shortens (C i) (nested' ei.eiArray (addr + i * ei.elemSize)) (nested ei.eiArray (addr + i * ei.elemSize))) :
    Shortens (ei.dataType = .struct → ∀ i, i < n → C i) (valueBytes nested' cs top ei addr n)
      (valueBytes nested cs top ei addr n) := by
  unfold valueBytes
  cases htype : ei.dataType with
  | struct =>
      simp only [arrayBytes_eq_flatMap]
      refine (Shortens.flatMap (C := C) fun i hi => h htype i (List.mem_range.mp hi)).congr ?_
      simp
  | _ => exact (Shortens.refl _).congr (by simp)

/-- A group: bytes get lost with its count, or inside the elements that are left. -/
theorem Group.Encodable.payload_shortens {nested' nested : List QmiElemInfo → Nat → List UInt8} (h : g.Encodable level)
    (cs : Mem) (top : Bool) (base : Nat) {C : Nat → Prop}
    (hnested : g.value.dataType = .struct → ∀ i, i < g.count cs base →
      Shortens (C i) (nested' g.value.eiArray (base + g.value.offset + i * g.value.elemSize))
        (nested g.value.eiArray (base + g.value.offset + i * g.value.elemSize))) :
    Shortens
      (g.CountRead nested cs top base ∧
        (g.hasValue cs base = true → g.value.dataType = .struct → ∀ i, i < g.count cs base → C i))
      (g.payload nested' cs top base) (Plain.payload nested cs top base g) := by
  have hcount : g.elements nested cs top base (g.lenValue cs base) =
      g.elements nested cs top base (Plain.lenValue cs base g) ↔ g.CountRead nested cs top base := by
    cases hl : g.len? with
    | none => simp [Group.CountRead, hl, Group.lenValue, Plain.lenValue]
    | some l =>
        simp only [Group.CountRead, hl, Option.some.injEq, forall_eq', Plain.lenValue]
        refine ⟨Or.inr, fun hread => hread.elim (fun hlt => ?_) id⟩
        rw [lenValue_eq_mod hl (h.len_size l hl).2, Nat.mod_eq_of_lt hlt]
  have hlow := Shortens.of_isPrefix
    (g.elements_isPrefix nested cs top base (h.lenValue_le cs base))
  have hsame : Shortens (g.hasValue cs base = true → g.value.dataType = .struct →
        ∀ i, i < g.count cs base → C i)
      (g.elements nested' cs top base (g.lenValue cs base))
      (g.elements nested cs top base (g.lenValue cs base)) := by
    change Shortens _ (if g.hasValue cs base then _ else []) (if g.hasValue cs base then _ else [])
    cases g.hasValue cs base with
    | false => exact (Shortens.refl _).congr (by simp)
    | true => exact (valueBytes_shortens cs top g.value _ _ hnested).congr (by simp)
  rw [Group.payload_eq, Plain.payload, h.countPrefix_eq]
  refine ((Shortens.refl _).append (hsame.trans hlow)).congr ?_
  rw [hcount, true_and, and_comm]

end Low

section Message

variable {cs : Mem}

/-- A nested structure. -/
theorem nestedBytes_shortens (d : Nat) {level : Nat} {ei : List QmiElemInfo}
    (h : Described EncodeRules level ei) (hlevel : 1 < level) (base : Nat) :
    Shortens (CountsRead cs false d ei base) (nestedBytes cs d ei base)
      (Plain.nestedBytes cs d ei base) := by
  induction d generalizing level ei base with
  | zero => exact Shortens.refl []
  | succ d ih =>
      cases h with
      | @mk _ gs eoti hend hshape hP hnest =>
          rw [nestedBytes, Plain.nestedBytes, CountsRead, groups_flatten hend hshape]
          refine (Shortens.flatMap fun g hg => (hP.1 g hg).payload_shortens cs false base
            fun hstruct i _ => ih (hnest g hg hstruct) (by omega) _).congr ?_
          exact forall₂_congr fun g hg => by simp [(hP.1 g hg).present hlevel cs base]

/-- A TLV is shorter by as much as its payload. -/
theorem tlv_shortens {C : Prop} {d base : Nat} {g : Group}
    (h : Shortens C (g.body cs d base) (Plain.payload (Plain.nestedBytes cs d) cs true base g)) :
    Shortens C (g.tlv cs d base) (Plain.tlv cs d base g) := by
  constructor
  case le =>
      rw [length_tlv, Plain.tlv, List.length_append, length_tlvHeader]
      exact Nat.add_le_add_left h.le 3
  case of_length =>
      rw [length_tlv, Plain.tlv, List.length_append, length_tlvHeader]
      exact fun hlen => h.of_length (Nat.add_left_cancel hlen)
  case eq =>
      intro hC
      rw [Group.tlv, h.eq hC, Plain.tlv]

/-- A message: the encoder's bytes are no more than those of the plain serializer, and the same exactly if
    every count is read right. -/
theorem messageBytes_shortens (cs : Mem) {ei : List QmiElemInfo} (h : Described EncodeRules 1 ei) (base : Nat) :
    Shortens (CountsRead cs true (nestDepth ei) ei base) (messageBytes cs ei base)
      (Plain.messageBytes cs ei base) := by
  obtain ⟨d, hd⟩ := exists_eq_succ_of_nestDepth_le (Nat.le_refl (nestDepth ei))
  rw [messageBytes, Plain.messageBytes, hd, Nat.add_sub_cancel, CountsRead]
  cases h with
  | @mk _ gs eoti hend hshape hP hnest =>
      rw [groups_flatten hend hshape, tlvBytes]
      refine (Shortens.flatMap fun g hg => tlv_shortens
        ((hP.1 g (List.mem_of_mem_filter hg)).payload_shortens cs true base fun hstruct i _ =>
          nestedBytes_shortens d (hnest g (List.mem_of_mem_filter hg) hstruct) (by omega) _)).congr ?_
      simp [List.mem_filter]

/-- What is within its bounds is so for the encoder, which comes to no more of it. -/
theorem Plain.ValuesFit.low {d level : Nat} {ei : List QmiElemInfo} {base : Nat}
    (h : Plain.ValuesFit cs d ei base) (hdescribed : Described EncodeRules level ei) :
    Qrtr.ValuesFit id cs d ei base := by
  induction d generalizing level ei base with
  | zero => trivial
  | succ d ih =>
      cases hdescribed with
      | @mk _ gs eoti hend hshape hP hnest =>
          rw [Qrtr.ValuesFit]
          rw [Plain.ValuesFit] at h
          rw [groups_flatten hend hshape] at h ⊢
          intro g hg hpresent
          obtain ⟨harray, hvalue⟩ := h g hg hpresent
          have hle := (hP.1 g hg).lenValue_le cs base
          refine ⟨fun hvar => Nat.le_trans hle (harray hvar), fun hhas => ?_⟩
          have hread : g.len? = none ∨ Plain.lenValue cs base g ≠ 0 := by
            rw [Group.hasValue, Bool.or_eq_true, Option.isNone_iff_eq_none, bne_iff_ne] at hhas
            exact hhas.imp_right fun hne => by omega
          have hvalue := hvalue hread
          cases htype : g.value.dataType with
          | struct =>
              rw [htype] at hvalue
              exact fun i hi => ih (hvalue i (Nat.lt_of_lt_of_le hi (g.numberOf_le hle))) (hnest g hg htype)
          | string =>
              rw [htype] at hvalue
              exact hvalue
          | _ => trivial

end Message

end Qrtr
