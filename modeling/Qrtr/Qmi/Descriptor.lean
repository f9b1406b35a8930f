/-
Module: Qrtr.Qmi.Descriptor
Layer: Qmi
Purpose: Message descriptors, the `struct qmi_elem_info` arrays that drive the encoder and the
  decoder. A pointer into an array is the rest of the array from there on, NULL is the empty list, and
  a pointer that is followed past the end of its array is a fault. A descriptor that follows the
  documented grammar is a sequence of groups, an optional flag and an optional length in front of a
  value; `groups` reads them back and `flatten` lists their elements.
  The host is little-endian. Lengths and cursors are natural numbers, here and in the encoder and the decoder
  over these descriptors; `Machine.qmiEncode_eq` and `Machine.qmiDecode_eq` say that below 2^31 bytes the
  numbers of C make no difference. Where the code relies on 32-bit arithmetic, it is written out (`u32`,
  `u32Sub`).
Imports: Foundation.Traced, Foundation.ByteMemory
Main exports: QmiElemInfo, Group, groups, flatten, Described, nestDepth, skipToNextElem,
  qmiCalcMinMsgLen
Open obligations: none
-/
import Qrtr.Foundation.Traced
import Qrtr.Foundation.ByteMemory

namespace Qrtr

/-- `enum qmi_elem_type`. -/
inductive QmiElemType where
  | eoti
  | optFlag
  | dataLen
  | unsigned1Byte
  | unsigned2Byte
  | unsigned4Byte
  | unsigned8Byte
  | signed1ByteEnum
  | signed2ByteEnum
  | signed4ByteEnum
  | struct
  | string
deriving DecidableEq, Repr

/-- `enum qmi_array_type`. -/
inductive QmiArrayType where
  | noArray
  | staticArray
  | varLenArray
deriving DecidableEq, Repr

/-- `struct qmi_elem_info`. -/
structure QmiElemInfo where
  dataType : QmiElemType
  elemLen : Nat
  elemSize : Nat
  arrayType : QmiArrayType
  tlvType : UInt8
  offset : Nat
  eiArray : List QmiElemInfo

/-- How a call ends early: with a negative errno, by following a pointer out of a descriptor array, or
    by exhausting the bound that the model puts on a recursion. -/
inductive QmiError where
  | errno (code : Int)
  | fault
  | exhausted
deriving DecidableEq, Repr

/-- `-EINVAL`. -/
def einval : QmiError := .errno (-22)

/-- `-EFAULT`. -/
def efault : QmiError := .errno (-14)

/-- `-EMSGSIZE`. -/
def emsgsize : QmiError := .errno (-90)

/-- Reduction to `uint32_t`. -/
def u32 (n : Nat) : Nat := n % 2 ^ 32

/-- Subtraction of `uint32_t`. -/
def u32Sub (a b : Nat) : Nat := (a + (2 ^ 32 - b % 2 ^ 32)) % 2 ^ 32

theorem u32_of_lt {n : Nat} (h : n < 2 ^ 32) : u32 n = n := Nat.mod_eq_of_lt h

theorem u32_le (n : Nat) : u32 n ≤ n := Nat.mod_le _ _

theorem u32Sub_of_le {a b : Nat} (hle : b ≤ a) (ha : a < 2 ^ 32) : u32Sub a b = a - b := by
  unfold u32Sub
  omega

/-- Reading the element that a descriptor pointer points to. -/
def deref {ev : Type} : List QmiElemInfo → Traced QmiError ev (QmiElemInfo × List QmiElemInfo)
  | [] => Traced.fail .fault
  | ei :: rest => pure (ei, rest)

/-- The width of a count on the wire: `elem_size == sizeof(uint8_t) ? 1 : 2`. -/
def dataLenSz (ei : QmiElemInfo) : Nat := if ei.elemSize = 1 then 1 else 2

/-- The width of the length in front of a string in a nested structure. -/
def stringLenSz (ei : QmiElemInfo) : Nat := if ei.elemLen ≤ 256 then 1 else 2

/-- The `do`-`while` loop of `skip_to_next_elem`: past every element of the same TLV type. -/
def skipSameType {ev : Type} : List QmiElemInfo → Traced QmiError ev (List QmiElemInfo)
  | ei :: next :: rest =>
      if ei.tlvType = next.tlvType then skipSameType (next :: rest) else pure (next :: rest)
  | _ => Traced.fail .fault

/-- `skip_to_next_elem`. -/
def skipToNextElem {ev : Type} (tempEi : List QmiElemInfo) (level : Nat) :
    Traced QmiError ev (List QmiElemInfo) :=
  if 1 < level then pure tempEi.tail else skipSameType tempEi

/-- `find_ei`, with NULL as `none`. -/
def findEi : List QmiElemInfo → Nat → Option (List QmiElemInfo)
  | [], _ => none
  | ei :: rest, type =>
      if ei.dataType = .eoti then none
      else if ei.tlvType.toNat = type then some (ei :: rest)
      else findEi rest type

mutual

/-- How deep the structures below an element nest. -/
def QmiElemInfo.depth : QmiElemInfo → Nat
  | ⟨_, _, _, _, _, _, eiArray⟩ => nestDepth eiArray

/-- How deep a descriptor nests; the bound given to the recursion of the encoder and the decoder. -/
def nestDepth : List QmiElemInfo → Nat
  | [] => 1
  | ei :: rest => max (ei.depth + 1) (nestDepth rest)

end

/-- The body of the loop of `qmi_calc_min_msg_len`, over the rest of the array; `rec` is the call for
    a nested structure. The sum is a C `int`, held by its 32 bits. -/
def qmiCalcMinMsgLenLoop {ev : Type} (rec : List QmiElemInfo → Nat → Traced QmiError ev Nat)
    (level : Nat) : Nat → List QmiElemInfo → Nat → Traced QmiError ev Nat
  | 0, _, _ => Traced.fail .exhausted
  | n + 1, tempEi, minMsgLen => do
      let (ei, rest) ← deref tempEi
      let header := if level = 1 then 3 else 0
      match ei.dataType with
      | .eoti => pure minMsgLen
      | .optFlag =>
          let next ← skipToNextElem tempEi level
          qmiCalcMinMsgLenLoop rec level n next minMsgLen
      | .dataLen => qmiCalcMinMsgLenLoop rec level n rest (u32 (minMsgLen + dataLenSz ei))
      | .struct =>
          let nested ← rec ei.eiArray (level + 1)
          qmiCalcMinMsgLenLoop rec level n rest (u32 (minMsgLen + nested + header))
      | .string =>
          let width := if 1 < level then stringLenSz ei else 0
          qmiCalcMinMsgLenLoop rec level n rest
            (u32 (minMsgLen + width + ei.elemLen * ei.elemSize + header))
      | _ =>
          qmiCalcMinMsgLenLoop rec level n rest (u32 (minMsgLen + ei.elemLen * ei.elemSize + header))

/-- `qmi_calc_min_msg_len`. -/
def qmiCalcMinMsgLen {ev : Type} : Nat → List QmiElemInfo → Nat → Traced QmiError ev Nat
  | 0, _, _ => Traced.fail .exhausted
  | d + 1, eiArray, level =>
      if eiArray.isEmpty then pure 0
      else qmiCalcMinMsgLenLoop (qmiCalcMinMsgLen d) level (eiArray.length + 1) eiArray 0

/-- `struct qrtr_packet`, as far as the QMI functions use it; `data` is `none` for NULL. -/
structure QrtrPacket where
  type : Int
  data : Option Mem
  dataLen : Nat

/-- `sizeof(struct qmi_header)`. -/
def qmiHeaderSize : Nat := 7

/-! ### The grammar of descriptors -/

/-- One field of a message: `[QMI_OPT_FLAG] [QMI_DATA_LEN] value`. -/
structure Group where
  flag? : Option QmiElemInfo
  len? : Option QmiElemInfo
  value : QmiElemInfo

/-- The data types that a value may have. -/
def QmiElemType.IsValue : QmiElemType → Prop
  | .eoti | .optFlag | .dataLen => False
  | _ => True

instance (t : QmiElemType) : Decidable t.IsValue := by
  cases t <;> unfold QmiElemType.IsValue <;> infer_instance

/-- The elements of a group, in the order of the array. -/
def Group.elems (g : Group) : List QmiElemInfo := g.flag?.toList ++ g.len?.toList ++ [g.value]

/-- A group without its flag. -/
def Group.unflagged (g : Group) : Group := { g with flag? := none }

/-- The array of the groups `gs` with its terminating element. -/
def flatten (gs : List Group) (eoti : QmiElemInfo) : List QmiElemInfo :=
  gs.flatMap Group.elems ++ [eoti]

/-- Reading groups off an array, with the flag and the length already seen. -/
def groupsFrom (flag? len? : Option QmiElemInfo) : List QmiElemInfo → List Group
  | [] => []
  | ei :: rest =>
      match ei.dataType with
      | .eoti => []
      | .optFlag => groupsFrom (some ei) len? rest
      | .dataLen => groupsFrom flag? (some ei) rest
      | _ => ⟨flag?, len?, ei⟩ :: groupsFrom none none rest

/-- The groups of an array. -/
def groups (eiArray : List QmiElemInfo) : List Group := groupsFrom none none eiArray

/-- The members of the group have the data types of their places. -/
structure Group.Shaped (g : Group) : Prop where
  flag : ∀ f, g.flag? = some f → f.dataType = .optFlag
  len : ∀ l, g.len? = some l → l.dataType = .dataLen
  value : g.value.dataType.IsValue

/-- The array is a sequence of groups that ends in `QMI_EOTI`, at every level of nesting, and the
    groups of every level satisfy `P`; level 1 is the message itself. -/
inductive Described (P : Nat → List Group → QmiElemInfo → Prop) : Nat → List QmiElemInfo → Prop
  | mk {level : Nat} {gs : List Group} {eoti : QmiElemInfo}
      (hend : eoti.dataType = .eoti)
      (hshape : ∀ g ∈ gs, g.Shaped)
      (hP : P level gs eoti)
      (hnest : ∀ g ∈ gs, g.value.dataType = .struct → Described P (level + 1) g.value.eiArray) :
      Described P level (flatten gs eoti)

theorem groupsFrom_value {v : QmiElemInfo} (hv : v.dataType.IsValue) (flag? len? : Option QmiElemInfo)
    (rest : List QmiElemInfo) :
    groupsFrom flag? len? (v :: rest) = ⟨flag?, len?, v⟩ :: groups rest := by
  cases h : v.dataType <;> simp_all [groupsFrom, groups, QmiElemType.IsValue]

theorem groupsFrom_flag {f : QmiElemInfo} (hf : f.dataType = .optFlag)
    (flag? len? : Option QmiElemInfo) (rest : List QmiElemInfo) :
    groupsFrom flag? len? (f :: rest) = groupsFrom (some f) len? rest := by
  simp [groupsFrom, hf]

theorem groupsFrom_len {l : QmiElemInfo} (hl : l.dataType = .dataLen)
    (flag? len? : Option QmiElemInfo) (rest : List QmiElemInfo) :
    groupsFrom flag? len? (l :: rest) = groupsFrom flag? (some l) rest := by
  simp [groupsFrom, hl]

/-- A group in front of an array is the first one read off. -/
theorem groups_append {g : Group} (h : g.Shaped) (rest : List QmiElemInfo) :
    groups (g.elems ++ rest) = g :: groups rest := by
  obtain ⟨flag?, len?, value⟩ := g
  have hv := groupsFrom_value h.value
  cases flag? with
  | none =>
      cases len? with
      | none => exact hv none none rest
      | some l => exact (groupsFrom_len (h.len l rfl) _ _ _).trans (hv none (some l) rest)
  | some f =>
      cases len? with
      | none => exact (groupsFrom_flag (h.flag f rfl) _ _ _).trans (hv (some f) none rest)
      | some l =>
          exact (groupsFrom_flag (h.flag f rfl) _ _ _).trans
            ((groupsFrom_len (h.len l rfl) _ _ _).trans (hv (some f) (some l) rest))

@[simp] theorem flatten_cons (g : Group) (gs : List Group) (eoti : QmiElemInfo) :
    flatten (g :: gs) eoti = g.elems ++ flatten gs eoti := by
  simp [flatten]

@[simp] theorem flatten_nil (eoti : QmiElemInfo) : flatten [] eoti = [eoti] := rfl

/-- Reading the groups of an array back. -/
theorem groups_flatten {gs : List Group} {eoti : QmiElemInfo} (hend : eoti.dataType = .eoti)
    (hshape : ∀ g ∈ gs, g.Shaped) : groups (flatten gs eoti) = gs := by
  induction gs with
  | nil => simp [groups, groupsFrom, hend]
  | cons g gs ih =>
      rw [flatten_cons, groups_append (hshape g List.mem_cons_self),
        ih fun g' hg' => hshape g' (List.mem_cons_of_mem _ hg')]

theorem Group.length_elems_pos (g : Group) : 0 < g.elems.length := by
  simp [Group.elems]

/-- A group whose flag, if it has one, is passed. -/
theorem Group.unflagged_of_none {g : Group} (hf : g.flag? = none) : g.unflagged = g := by
  cases g
  cases hf
  rfl

/-- The flag of a group stands in front of the rest. -/
theorem Group.elems_of_flag {g : Group} {f : QmiElemInfo} (hf : g.flag? = some f) :
    g.elems = f :: g.unflagged.elems := by
  simp [Group.elems, Group.unflagged, hf]

/-- The value alone. -/
theorem Group.unflagged_elems_of_none {g : Group} (hl : g.len? = none) :
    g.unflagged.elems = [g.value] := by
  simp [Group.elems, Group.unflagged, hl]

/-- The count and the value. -/
theorem Group.unflagged_elems_of_len {g : Group} {l : QmiElemInfo} (hl : g.len? = some l) :
    g.unflagged.elems = [l, g.value] := by
  simp [Group.elems, Group.unflagged, hl]

theorem length_flatten_ge (gs : List Group) (eoti : QmiElemInfo) :
    gs.length + 1 ≤ (flatten gs eoti).length := by
  induction gs with
  | nil => simp
  | cons g gs ih =>
      have hg := g.length_elems_pos
      rw [flatten_cons, List.length_append, List.length_cons]
      omega

theorem depth_lt_nestDepth {ei : QmiElemInfo} {eis : List QmiElemInfo} (h : ei ∈ eis) :
    nestDepth ei.eiArray < nestDepth eis := by
  induction eis with
  | nil => cases h
  | cons e eis ih =>
      rw [nestDepth]
      rcases List.mem_cons.mp h with rfl | h
      · have hdepth : ei.depth = nestDepth ei.eiArray := by
          cases ei
          rw [QmiElemInfo.depth]
        omega
      · have := ih h
        omega

theorem nestDepth_pos (eis : List QmiElemInfo) : 0 < nestDepth eis := by
  cases eis with
  | nil => simp [nestDepth]
  | cons e eis =>
      rw [nestDepth]
      omega

/-- A bound for the nesting is not zero. -/
theorem exists_eq_succ_of_nestDepth_le {eis : List QmiElemInfo} {d : Nat} (hd : nestDepth eis ≤ d) :
    ∃ d', d = d' + 1 :=
  Nat.exists_eq_add_one.mpr (Nat.lt_of_lt_of_le (nestDepth_pos eis) hd)

theorem value_mem_flatten {g : Group} {gs : List Group} (h : g ∈ gs) (eoti : QmiElemInfo) :
    g.value ∈ flatten gs eoti := by
  apply List.mem_append_left
  exact List.mem_flatMap.mpr ⟨g, h, by simp [Group.elems]⟩

/-- The bound for a descriptor leaves enough for each of its nested structures. -/
theorem nestDepth_value {g : Group} {gs : List Group} {eoti : QmiElemInfo} {d : Nat} (hg : g ∈ gs)
    (hd : nestDepth (flatten gs eoti) ≤ d + 1) : nestDepth g.value.eiArray ≤ d := by
  have := depth_lt_nestDepth (value_mem_flatten hg eoti)
  omega

/-- A weaker condition on the groups. -/
theorem Described.imp {P Q : Nat → List Group → QmiElemInfo → Prop} {level : Nat}
    {ei : List QmiElemInfo} (hPQ : ∀ level gs eoti, P level gs eoti → Q level gs eoti)
    (h : Described P level ei) : Described Q level ei := by
  induction h with
  | mk hend hshape hP _ ih => exact .mk hend hshape (hPQ _ _ _ hP) ih

/-- The groups of an array that follows the grammar satisfy the condition. -/
theorem Described.inv {P : Nat → List Group → QmiElemInfo → Prop} {level : Nat} {gs : List Group}
    {eoti : QmiElemInfo} (h : Described P level (flatten gs eoti)) (hend : eoti.dataType = .eoti)
    (hshape : ∀ g ∈ gs, g.Shaped) :
    P level gs eoti ∧
      ∀ g ∈ gs, g.value.dataType = .struct → Described P (level + 1) g.value.eiArray := by
  generalize hei : flatten gs eoti = ei at h
  cases h with
  | @mk _ gs' eoti' hend' hshape' hP hnest =>
      have hgs : gs = gs' := by
        rw [← groups_flatten hend hshape, hei, groups_flatten hend' hshape']
      subst hgs
      obtain rfl : eoti = eoti' := by
        have hlast := List.append_cancel_left hei
        exact (List.cons.inj hlast).1
      exact ⟨hP, hnest⟩

/-- Two conditions on the groups, the second of them under an assumption. -/
theorem Described.and_imp {P Q : Nat → List Group → QmiElemInfo → Prop} {strict : Prop} {level : Nat}
    {ei : List QmiElemInfo} (h : Described P level ei) (hQ : strict → Described Q level ei) :
    Described (fun level gs eoti => P level gs eoti ∧ (strict → Q level gs eoti)) level ei := by
  induction h with
  | mk hend hshape hP _ ih =>
      exact .mk hend hshape ⟨hP, fun hs => ((hQ hs).inv hend hshape).1⟩
        fun g hg hstruct => ih g hg hstruct fun hs => ((hQ hs).inv hend hshape).2 g hg hstruct

end Qrtr
