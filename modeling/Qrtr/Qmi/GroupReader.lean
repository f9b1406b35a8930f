/-
Module: Qrtr.Qmi.GroupReader
Layer: Qmi
Purpose: The decoder over the groups of a descriptor instead of a cursor into its array. On descriptors
  that follow the grammar it is the decoder (`qmiDecode_eq_readMessage`), and it never exhausts the bound
  of a loop, so the results about decoding are proved about the readers of this module.
Imports: Qmi.Decode
Main exports: readGroup, readFields, readNested, readTlvs, readMessage, findGroup, Group.tails,
  qmiDecode_eq_readNested, qmiDecode_eq_readMessage
Open obligations: none
-/
import Qrtr.Qmi.Decode

namespace Qrtr

/-! ### The readers -/

/-- The flag of a group is set. -/
def readFlag (out : Nat) (g : Group) : Decoding Unit :=
  match g.flag? with
  | none => pure ()
  | some f => Traced.emit (.store f 0 (out + f.offset) [1])

/-- The count of a group: `data_len_value`, the length left for the value, and the bytes read. -/
def readCount (mem : Mem) (out : Nat) (g : Group) (dataLenValue pos tlvLen : Nat) :
    Decoding (Nat × Nat × Nat) :=
  match g.len? with
  | none => pure (dataLenValue, tlvLen, 0)
  | some l => do
      let low ← qmiDecodeLocal mem pos (dataLenSz l)
      Traced.emit (.store l 0 (out + l.offset) (leBytes 4 (overlayLow dataLenValue low)))
      let tlvLen ← decodeSub tlvLen (dataLenSz l)
      pure (overlayLow dataLenValue low, tlvLen, dataLenSz l)

/-- A group at `pos`: `data_len_value` after it, and the bytes it took. -/
def readGroup (rec : DecodeCall) (mem : Mem) (out decLevel : Nat) (g : Group)
    (dataLenValue pos tlvLen : Nat) : Decoding (Nat × Nat) := do
  readFlag out g
  let (dataLenValue, tlvLen, width) ← readCount mem out g dataLenValue pos tlvLen
  let count ← decodeCount g.value dataLenValue
  let rc ← decodeSwitch rec mem g.value (out + g.value.offset) (pos + width) count tlvLen decLevel
  pure (count, width + rc)

/-- The fields `gs` of a nested structure, while there is input left. -/
def readFields (rec : DecodeCall) (mem : Mem) (out inBuf inBufLen decLevel : Nat) :
    List Group → Nat → Nat → Decoding Nat
  | [], _, decodedBytes => pure decodedBytes
  | g :: gs, dataLenValue, decodedBytes =>
      if decodedBytes < inBufLen then do
        let tlvLen ← decodeSub inBufLen decodedBytes
        let (dataLenValue, rc) ← readGroup rec mem out decLevel g dataLenValue
          (inBuf + decodedBytes) tlvLen
        readFields rec mem out inBuf inBufLen decLevel gs dataLenValue (decodedBytes + rc)
      else pure decodedBytes

/-- A nested structure. -/
def readNested (mem : Mem) : Nat → DecodeCall
  | 0, _, _, _, _, _ => Traced.fail .exhausted
  | d + 1, ei, out, inBuf, inBufLen, decLevel =>
      readFields (readNested mem d) mem out inBuf inBufLen decLevel (groups ei) 0 0

/-- The group that the decoder turns to for a TLV type. -/
def findGroup (ei : List QmiElemInfo) (type : Nat) : Option Group :=
  (findEi ei type).bind fun rest => (groups rest).head?

/-- The TLVs of a message, from `decodedBytes` on. -/
def readTlvs (rec : DecodeCall) (mem : Mem) (ei : List QmiElemInfo) (out inBuf inBufLen : Nat) :
    Nat → Nat → Nat → Decoding Nat
  | 0, _, _ => Traced.fail .exhausted
  | n + 1, dataLenValue, decodedBytes =>
      if decodedBytes < inBufLen then do
        let (type, len) ← decodeTlv mem (inBuf + decodedBytes)
        match findGroup ei type with
        | some g => do
            let (dataLenValue, rc) ← readGroup rec mem out 1 g dataLenValue
              (inBuf + decodedBytes + 3) len
            readTlvs rec mem ei out inBuf inBufLen n dataLenValue (decodedBytes + 3 + rc)
        | none =>
            if type < optionalTlvTypeStart then Traced.fail einval
            else readTlvs rec mem ei out inBuf inBufLen n dataLenValue (decodedBytes + 3 + len)
      else pure decodedBytes

/-- A message. -/
def readMessage (mem : Mem) (ei : List QmiElemInfo) (out inBuf inBufLen : Nat) : Decoding Nat :=
  readTlvs (readNested mem (nestDepth ei - 1)) mem ei out inBuf inBufLen (inBufLen + ei.length + 1) 0 0

/-! ### Where a search in a descriptor ends -/

/-- The groups that an array read from inside `g` begins with. -/
def Group.tails (g : Group) : List Group :=
  [g, { g with flag? := none }, { g with flag? := none, len? := none }]

theorem Group.Shaped.tail {g g' : Group} (h : g.Shaped) (hg' : g' ∈ g.tails) : g'.Shaped := by
  simp only [Group.tails, List.mem_cons, List.not_mem_nil, or_false] at hg'
  rcases hg' with rfl | rfl | rfl
  · exact h
  · exact ⟨by simp, h.len, h.value⟩
  · exact ⟨by simp, by simp, h.value⟩

theorem Group.value_of_tail {g g' : Group} (hg' : g' ∈ g.tails) : g'.value = g.value := by
  simp only [Group.tails, List.mem_cons, List.not_mem_nil, or_false] at hg'
  rcases hg' with rfl | rfl | rfl <;> rfl

/-- What lies behind the front of a group is a tail of it. -/
theorem Group.elems_suffix {g : Group} {e : QmiElemInfo} {front back : List QmiElemInfo}
    (h : g.elems = front ++ e :: back) : ∃ g' ∈ g.tails, e :: back = g'.elems := by
  obtain ⟨flag?, len?, value⟩ := g
  cases flag? <;> cases len? <;> cases front <;>
    simp_all [Group.elems, Group.tails]
  all_goals
    rename_i front
    cases front <;> simp_all
  all_goals
    rename_i front
    cases front <;> simp_all

/-- A search in a descriptor ends in front of a tail of one of its groups. -/
theorem findEi_flatten {gs : List Group} {eoti : QmiElemInfo} (hend : eoti.dataType = .eoti)
    {type : Nat} {es : List QmiElemInfo} (h : findEi (flatten gs eoti) type = some es) :
    ∃ g ∈ gs, ∃ g' ∈ g.tails, ∃ rest, es = g'.elems ++ rest := by
  induction gs with
  | nil => simp [findEi, hend] at h
  | cons g gs ih =>
      rw [flatten_cons] at h
      have key : ∀ front back, g.elems = front ++ back →
          findEi (back ++ flatten gs eoti) type = some es →
          (∃ g' ∈ g.tails, ∃ rest, es = g'.elems ++ rest) ∨
            findEi (flatten gs eoti) type = some es := by
        intro front back
        induction back generalizing front with
        | nil =>
            intro _ hfind
            exact .inr hfind
        | cons e back ihback =>
            intro hsplit hfind
            rw [List.cons_append, findEi] at hfind
            split at hfind
            · cases hfind
            · split at hfind
              · cases hfind
                obtain ⟨g', hg', htail⟩ := Group.elems_suffix hsplit
                exact .inl ⟨g', hg', flatten gs eoti, by rw [← htail]; rfl⟩
              · exact ihback (front ++ [e]) (by simp [hsplit]) hfind
      rcases key [] g.elems rfl h with ⟨g', hg', rest, hes⟩ | hrest
      · exact ⟨g, List.mem_cons_self, g', hg', rest, hes⟩
      · obtain ⟨g₁, hg₁, hrest⟩ := ih hrest
        exact ⟨g₁, List.mem_cons_of_mem _ hg₁, hrest⟩

/-- What the search of the code and the search for a group have in common. -/
theorem findGroup_flatten {gs : List Group} {eoti : QmiElemInfo} (hend : eoti.dataType = .eoti)
    (hshape : ∀ g ∈ gs, g.Shaped) (type : Nat) :
    (findEi (flatten gs eoti) type = none ∧ findGroup (flatten gs eoti) type = none) ∨
      ∃ g ∈ gs, ∃ g' ∈ g.tails, ∃ rest, findEi (flatten gs eoti) type = some (g'.elems ++ rest) ∧
        findGroup (flatten gs eoti) type = some g' := by
  cases h : findEi (flatten gs eoti) type with
  | none => exact .inl ⟨rfl, by simp [findGroup, h]⟩
  | some es =>
      obtain ⟨g, hg, g', hg', rest, rfl⟩ := findEi_flatten hend h
      refine .inr ⟨g, hg, g', hg', rest, rfl, ?_⟩
      simp [findGroup, h, groups_append ((hshape g hg).tail hg')]

/-! ### The decoder is the reader -/

/-- The flag of the group at hand. -/
theorem decodeOptFlag_group {out : Nat} {g : Group} {rest : List QmiElemInfo} (hshape : g.Shaped)
    {s : DecodeState} (hs : s.tempEi = g.elems ++ rest) :
    decodeOptFlag out s = (do
      readFlag out g
      pure { s with tempEi := g.unflagged.elems ++ rest }) := by
  obtain ⟨tempEi, dataLenValue, bufSrc, decodedBytes⟩ := s
  obtain ⟨flag?, len?, value⟩ := g
  subst hs
  cases flag? with
  | some f => simp [decodeOptFlag, readFlag, Group.elems, Group.unflagged, deref, hshape.flag f rfl]
  | none =>
      cases len? with
      | some l =>
          simp [decodeOptFlag, readFlag, Group.elems, Group.unflagged, deref, hshape.len l rfl]
      | none =>
          have hvalue : value.dataType.IsValue := hshape.value
          have hne : value.dataType ≠ .optFlag := fun h => by simp [h, QmiElemType.IsValue] at hvalue
          simp [decodeOptFlag, readFlag, Group.elems, Group.unflagged, deref, hne]

/-- The count of the group at hand. -/
theorem decodeDataLen_group {mem : Mem} {out tlvLen : Nat} {g : Group} {rest : List QmiElemInfo}
    (hshape : g.Shaped) {s : DecodeState} (hs : s.tempEi = g.unflagged.elems ++ rest) :
    decodeDataLen mem out tlvLen s = (do
      let (dataLenValue, tlvLen, width) ← readCount mem out g s.dataLenValue s.bufSrc tlvLen
      pure (⟨g.value :: rest, dataLenValue, s.bufSrc + width, s.decodedBytes + width⟩, tlvLen)) := by
  obtain ⟨tempEi, dataLenValue, bufSrc, decodedBytes⟩ := s
  obtain ⟨flag?, len?, value⟩ := g
  subst hs
  cases len? with
  | some l =>
      simp [decodeDataLen, readCount, Group.elems, Group.unflagged, deref, DecodeState.update,
        hshape.len l rfl]
  | none =>
      have hvalue : value.dataType.IsValue := hshape.value
      have hne : value.dataType ≠ .dataLen := fun h => by simp [h, QmiElemType.IsValue] at hvalue
      simp [decodeDataLen, readCount, Group.elems, Group.unflagged, deref, hne]

/-- One iteration of the decoder, from the front of a group. -/
theorem qmiDecodeElem_group {rec : DecodeCall} {mem : Mem} {out decLevel tlvLen : Nat} {g : Group}
    {rest : List QmiElemInfo} (hshape : g.Shaped) {s : DecodeState}
    (hs : s.tempEi = g.elems ++ rest) :
    qmiDecodeElem rec mem out decLevel tlvLen s = (do
      let (dataLenValue, rc) ← readGroup rec mem out decLevel g s.dataLenValue s.bufSrc tlvLen
      pure (⟨rest, dataLenValue, s.bufSrc + rc, s.decodedBytes + rc⟩ : DecodeState)) := by
  rw [qmiDecodeElem, decodeOptFlag_group hshape hs, readGroup]
  simp only [bind_assoc, pure_bind]
  congr 1
  funext _
  rw [decodeDataLen_group hshape rfl]
  simp only [bind_assoc, pure_bind, deref, DecodeState.update, Nat.add_assoc]

/-- The decoder of a structure calls `rec` on the nested descriptor only. -/
theorem qmiDecodeStructElem_congr {rec rec' : DecodeCall} {ei : QmiElemInfo} {decLevel : Nat}
    (h : ∀ out inBuf inBufLen,
      rec ei.eiArray out inBuf inBufLen decLevel = rec' ei.eiArray out inBuf inBufLen decLevel)
    (bufDst bufSrc elemLen tlvLen : Nat) :
    qmiDecodeStructElem rec ei bufDst bufSrc elemLen tlvLen decLevel =
      qmiDecodeStructElem rec' ei bufDst bufSrc elemLen tlvLen decLevel := by
  have key : ∀ (left i bufDst bufSrc decodedBytes : Nat),
      qmiDecodeStructLoop rec ei tlvLen decLevel left i bufDst bufSrc decodedBytes =
        qmiDecodeStructLoop rec' ei tlvLen decLevel left i bufDst bufSrc decodedBytes := by
    intro left
    induction left with
    | zero =>
        intros
        rfl
    | succ left ih =>
        intro i bufDst bufSrc decodedBytes
        simp only [qmiDecodeStructLoop, h, ih]
  rw [qmiDecodeStructElem, qmiDecodeStructElem, key]

/-- Reading a group calls `rec` on its nested descriptor only. -/
theorem readGroup_congr {rec rec' : DecodeCall} {g : Group} {decLevel : Nat}
    (h : g.value.dataType = .struct → ∀ out inBuf inBufLen,
      rec g.value.eiArray out inBuf inBufLen (decLevel + 1) =
        rec' g.value.eiArray out inBuf inBufLen (decLevel + 1))
    (mem : Mem) (out dataLenValue pos tlvLen : Nat) :
    readGroup rec mem out decLevel g dataLenValue pos tlvLen =
      readGroup rec' mem out decLevel g dataLenValue pos tlvLen := by
  have hswitch : ∀ bufDst bufSrc count tlvLen,
      decodeSwitch rec mem g.value bufDst bufSrc count tlvLen decLevel =
        decodeSwitch rec' mem g.value bufDst bufSrc count tlvLen decLevel := by
    intro bufDst bufSrc count tlvLen
    unfold decodeSwitch
    cases htype : g.value.dataType with
    | struct => exact qmiDecodeStructElem_congr (h htype) _ _ _ _
    | _ => rfl
  simp only [readGroup, hswitch]

/-- A group does not begin with the end of the array. -/
theorem Group.Shaped.head {g : Group} (h : g.Shaped) :
    ∃ e es, g.elems = e :: es ∧ e.dataType ≠ .eoti := by
  obtain ⟨flag?, len?, value⟩ := g
  cases flag? with
  | some f => exact ⟨f, _, rfl, by simp [h.flag f rfl]⟩
  | none =>
      cases len? with
      | some l => exact ⟨l, _, rfl, by simp [h.len l rfl]⟩
      | none =>
          have hvalue : value.dataType.IsValue := h.value
          exact ⟨value, _, rfl, fun he => by simp [he, QmiElemType.IsValue] at hvalue⟩

/-- The loop of the decoder over the fields of a nested structure. -/
theorem qmiDecodeLoop_fields {rec rec' : DecodeCall} {mem : Mem} {ei : List QmiElemInfo}
    {out inBuf inBufLen decLevel : Nat} (hlevel : decLevel ≠ 1) {gs : List Group}
    {eoti : QmiElemInfo} (hend : eoti.dataType = .eoti) (hshape : ∀ g ∈ gs, g.Shaped)
    (hrec : ∀ g ∈ gs, g.value.dataType = .struct → ∀ out inBuf inBufLen,
      rec g.value.eiArray out inBuf inBufLen (decLevel + 1) =
        rec' g.value.eiArray out inBuf inBufLen (decLevel + 1))
    {fuel : Nat} (hfuel : gs.length < fuel) {s : DecodeState} (hs : s.tempEi = flatten gs eoti)
    (hsrc : s.bufSrc = inBuf + s.decodedBytes) :
    qmiDecodeLoop rec mem ei out inBufLen decLevel fuel s =
      readFields rec' mem out inBuf inBufLen decLevel gs s.dataLenValue s.decodedBytes := by
  induction gs generalizing fuel s with
  | nil =>
      obtain ⟨fuel, rfl⟩ : ∃ f, fuel = f + 1 := ⟨fuel - 1, by omega⟩
      rw [qmiDecodeLoop, qmiDecodeIter, if_neg hlevel, hs, readFields]
      split
      · simp [deref, flatten, hend]
      · rfl
  | cons g gs ih =>
      obtain ⟨fuel, rfl⟩ : ∃ f, fuel = f + 1 := ⟨fuel - 1, by omega⟩
      have hgroup := hshape g List.mem_cons_self
      rw [flatten_cons] at hs
      obtain ⟨e, es, hes, hne⟩ : ∃ e es, g.elems ++ flatten gs eoti = e :: es ∧
          e.dataType ≠ .eoti := by
        obtain ⟨e, es, hes, hne⟩ := hgroup.head
        exact ⟨e, es ++ flatten gs eoti, by rw [hes]; rfl, hne⟩
      rw [qmiDecodeLoop, readFields]
      split
      · rw [qmiDecodeIter, if_neg hlevel, hs, hes, deref, pure_bind]
        simp only [hne, if_false, bind_assoc, pure_bind]
        congr 1
        funext tlvLen
        rw [qmiDecodeElem_group hgroup hs, readGroup_congr (hrec g List.mem_cons_self), hsrc]
        simp only [bind_assoc, pure_bind]
        congr 1
        funext r
        rw [ih (fun g' hg' => hshape g' (List.mem_cons_of_mem _ hg'))
          (fun g' hg' => hrec g' (List.mem_cons_of_mem _ hg'))
          (by simpa using hfuel) rfl (by simp [Nat.add_assoc])]
      · rfl

/-- The decoder of a nested structure. -/
theorem qmiDecode_eq_readNested {P : Nat → List Group → QmiElemInfo → Prop} (mem : Mem) {level : Nat}
    {ei : List QmiElemInfo} (h : Described P level ei) (hlevel : 1 < level) {d : Nat}
    (hd : nestDepth ei ≤ d) (out inBuf inBufLen : Nat) :
    qmiDecode mem d ei out inBuf inBufLen level = readNested mem d ei out inBuf inBufLen level := by
  induction h generalizing d out inBuf inBufLen with
  | @mk level gs eoti hend hshape _ _ ih =>
      obtain ⟨d, rfl⟩ := exists_eq_succ_of_nestDepth_le hd
      rw [qmiDecode, readNested, groups_flatten hend hshape]
      have hlen := length_flatten_ge gs eoti
      exact qmiDecodeLoop_fields (by omega) hend hshape
        (fun g hg hstruct out inBuf inBufLen =>
          ih g hg hstruct (by omega) (nestDepth_value hg hd) out inBuf inBufLen)
        (by omega) rfl rfl

/-- The loop of the decoder over the TLVs of a message. -/
theorem qmiDecodeLoop_tlvs {rec rec' : DecodeCall} {mem : Mem} {out inBuf inBufLen : Nat}
    {gs : List Group} {eoti : QmiElemInfo} (hend : eoti.dataType = .eoti)
    (hshape : ∀ g ∈ gs, g.Shaped)
    (hrec : ∀ g ∈ gs, g.value.dataType = .struct → ∀ out inBuf inBufLen,
      rec g.value.eiArray out inBuf inBufLen 2 = rec' g.value.eiArray out inBuf inBufLen 2)
    (fuel : Nat) {s : DecodeState} (hsrc : s.bufSrc = inBuf + s.decodedBytes) :
    qmiDecodeLoop rec mem (flatten gs eoti) out inBufLen 1 fuel s =
      readTlvs rec' mem (flatten gs eoti) out inBuf inBufLen fuel s.dataLenValue s.decodedBytes := by
  induction fuel generalizing s with
  | zero => rfl
  | succ fuel ih =>
      rw [qmiDecodeLoop, readTlvs]
      split
      · rw [qmiDecodeIter, if_pos rfl, hsrc]
        simp only [bind_assoc]
        congr 1
        funext r
        obtain ⟨type, len⟩ := r
        rcases findGroup_flatten hend hshape type with
          ⟨hfind, hgroup⟩ | ⟨g, hg, g', hg', rest, hfind, hgroup⟩
        · simp only [hfind, hgroup]
          split
          · rfl
          · rw [pure_bind]
            apply ih
            simp [DecodeState.update, hsrc, Nat.add_assoc]
        · have hrec' : g'.value.dataType = .struct → ∀ out inBuf inBufLen,
              rec g'.value.eiArray out inBuf inBufLen (1 + 1) =
                rec' g'.value.eiArray out inBuf inBufLen (1 + 1) := by
            rw [Group.value_of_tail hg']
            exact hrec g hg
          simp only [hfind, hgroup, bind_assoc, pure_bind]
          rw [qmiDecodeElem_group ((hshape g hg).tail hg') rfl, readGroup_congr hrec']
          simp only [bind_assoc, pure_bind, DecodeState.update, hsrc]
          congr 1
          funext r
          rw [ih (by simp [Nat.add_assoc])]
      · rfl

/-- The decoder of a message. -/
theorem qmiDecode_eq_readMessage {P : Nat → List Group → QmiElemInfo → Prop} (mem : Mem)
    {ei : List QmiElemInfo} (h : Described P 1 ei) (out inBuf inBufLen : Nat) :
    qmiDecode mem (nestDepth ei) ei out inBuf inBufLen 1 = readMessage mem ei out inBuf inBufLen := by
  obtain ⟨d, hd⟩ := exists_eq_succ_of_nestDepth_le (Nat.le_refl (nestDepth ei))
  rw [readMessage, hd, qmiDecode, Nat.add_sub_cancel]
  cases h with
  | @mk _ gs eoti hend hshape _ hnest =>
      apply qmiDecodeLoop_tlvs hend hshape
      · intro g hg hstruct out inBuf inBufLen
        exact qmiDecode_eq_readNested mem (hnest g hg hstruct) (by omega) (nestDepth_value hg hd.le)
          out inBuf inBufLen
      · rfl

end Qrtr
