/-
Module: Qrtr.Qmi.Walk
Layer: Qmi
Purpose: A walk over an encoded message that stores nothing: it visits the places where the message
  takes bytes from the input, its sites, and takes the decisions the decoder takes. A property of the
  decoder's accesses that is decided at the sites (`Tracked`) holds of all of them exactly when every
  site has the matching property (`readMessage_tracks`). Conditions on the input are stated over sites.
Imports: Qmi.GroupReader
Main exports: Site, Walk, walkGroup, walkNested, walkMessage, Tracked, TrackedAt, readMessage_tracks
Open obligations: none
-/
import Qrtr.Qmi.GroupReader

namespace Qrtr

/-- A place where a message takes bytes from the input. -/
inductive Site where
  /-- The three bytes of a TLV header. -/
  | header (pos : Nat)
  /-- A count of `width` bytes, in a payload that has `room` bytes left. -/
  | count (pos width room : Nat)
  /-- The elements of an array of basic type, `size` bytes in all. -/
  | body (pos size : Nat)
  /-- The length in front of a string. -/
  | textLen (pos width : Nat)
  /-- A string of `len` characters of `size` bytes, for a field of `capacity` characters. -/
  | text (capacity pos len size : Nat)

/-- A walk: its trace is the sites it visits. -/
abbrev Walk := Traced QmiError Site

/-- The walk over a nested structure: descriptor, position, bytes left, level. -/
abbrev WalkCall := List QmiElemInfo → Nat → Nat → Nat → Walk Nat

/-! ### The walk -/

/-- The count of a group: `data_len_value`, the length left for the value, and the bytes taken. -/
def walkCount (mem : Mem) (g : Group) (dataLenValue pos tlvLen : Nat) : Walk (Nat × Nat × Nat) :=
  match g.len? with
  | none => pure (dataLenValue, tlvLen, 0)
  | some l => do
      Traced.emit (.count pos (dataLenSz l) tlvLen)
      pure (overlayLow dataLenValue (mem.bytes pos (dataLenSz l)), u32Sub tlvLen (dataLenSz l),
        dataLenSz l)

/-- The number of elements of a value, refused when there is no room for them in the structure. -/
def walkElems (ei : QmiElemInfo) (dataLenValue : Nat) : Walk Nat :=
  match ei.arrayType with
  | .noArray => pure 1
  | .staticArray => pure ei.elemLen
  | .varLenArray => if ei.elemLen < dataLenValue then Traced.fail einval else pure dataLenValue

/-- Structures one after the other, while the payload lasts: how many, and their bytes. -/
def walkStructs (nested : Nat → Nat → Walk Nat) (tlvLen : Nat) :
    Nat → Nat → Nat → Nat → Walk (Nat × Nat)
  | 0, i, _, decodedBytes => pure (i, decodedBytes)
  | left + 1, i, pos, decodedBytes =>
      if decodedBytes < tlvLen then do
        let rc ← nested pos (u32Sub tlvLen decodedBytes)
        walkStructs nested tlvLen left (i + 1) (pos + rc) (decodedBytes + rc)
      else pure (i, decodedBytes)

/-- An array of structures, which has to take the payload up. -/
def walkStruct (rec : WalkCall) (ei : QmiElemInfo) (pos count tlvLen level : Nat) : Walk Nat := do
  let (i, decodedBytes) ← walkStructs (fun pos len => rec ei.eiArray pos len level) tlvLen count 0 pos 0
  if (level ≤ 2 ∧ decodedBytes ≠ tlvLen) ∨ (2 < level ∧ (i < count ∨ tlvLen < decodedBytes)) then
    Traced.fail efault
  else pure decodedBytes

/-- The length of a string and the bytes it took. -/
def walkTextLen (mem : Mem) (ei : QmiElemInfo) (pos tlvLen level : Nat) : Walk (Nat × Nat) :=
  if level = 1 then pure (tlvLen, 0)
  else do
    Traced.emit (.textLen pos (stringLenSz ei))
    pure (overlayLow 0 (mem.bytes pos (stringLenSz ei)), stringLenSz ei)

/-- A string. -/
def walkText (mem : Mem) (ei : QmiElemInfo) (pos tlvLen level : Nat) : Walk Nat := do
  let (len, width) ← walkTextLen mem ei pos tlvLen level
  if ei.elemLen < len then Traced.fail einval
  else if tlvLen < len then Traced.fail efault
  else do
    Traced.emit (.text ei.elemLen (pos + width) len ei.elemSize)
    pure (width + len * ei.elemSize)

/-- The value of a group. -/
def walkValue (rec : WalkCall) (mem : Mem) (ei : QmiElemInfo) (pos count tlvLen level : Nat) :
    Walk Nat :=
  match ei.dataType with
  | .struct => walkStruct rec ei pos count tlvLen (level + 1)
  | .string => walkText mem ei pos tlvLen level
  | .eoti | .optFlag | .dataLen => Traced.fail einval
  | _ => do
      Traced.emit (.body pos (count * ei.elemSize))
      pure (count * ei.elemSize)

/-- A group: `data_len_value` after it, and the bytes it took. -/
def walkGroup (rec : WalkCall) (mem : Mem) (level : Nat) (g : Group) (dataLenValue pos tlvLen : Nat) :
    Walk (Nat × Nat) := do
  let (dataLenValue, tlvLen, width) ← walkCount mem g dataLenValue pos tlvLen
  let count ← walkElems g.value dataLenValue
  let rc ← walkValue rec mem g.value (pos + width) count tlvLen level
  pure (count, width + rc)

/-- The fields of a nested structure, while there is input left. -/
def walkFields (rec : WalkCall) (mem : Mem) (inBuf inBufLen level : Nat) :
    List Group → Nat → Nat → Walk Nat
  | [], _, decodedBytes => pure decodedBytes
  | g :: gs, dataLenValue, decodedBytes =>
      if decodedBytes < inBufLen then do
        let (dataLenValue, rc) ← walkGroup rec mem level g dataLenValue (inBuf + decodedBytes)
          (u32Sub inBufLen decodedBytes)
        walkFields rec mem inBuf inBufLen level gs dataLenValue (decodedBytes + rc)
      else pure decodedBytes

/-- A nested structure. -/
def walkNested (mem : Mem) : Nat → WalkCall
  | 0, _, _, _, _ => Traced.fail .exhausted
  | d + 1, ei, inBuf, inBufLen, level =>
      walkFields (walkNested mem d) mem inBuf inBufLen level (groups ei) 0 0

/-- The TLVs of a message, from `decodedBytes` on. -/
def walkTlvs (rec : WalkCall) (mem : Mem) (ei : List QmiElemInfo) (inBuf inBufLen : Nat) :
    Nat → Nat → Nat → Walk Nat
  | 0, _, _ => Traced.fail .exhausted
  | n + 1, dataLenValue, decodedBytes =>
      if decodedBytes < inBufLen then do
        Traced.emit (.header (inBuf + decodedBytes))
        let type := (mem (inBuf + decodedBytes)).toNat
        let len := leValue (mem.bytes (inBuf + decodedBytes + 1) 2)
        match findGroup ei type with
        | some g => do
            let (dataLenValue, rc) ← walkGroup rec mem 1 g dataLenValue (inBuf + decodedBytes + 3) len
            walkTlvs rec mem ei inBuf inBufLen n dataLenValue (decodedBytes + 3 + rc)
        | none =>
            if type < optionalTlvTypeStart then Traced.fail einval
            else walkTlvs rec mem ei inBuf inBufLen n dataLenValue (decodedBytes + 3 + len)
      else pure decodedBytes

/-- A message of `inBufLen` bytes at `inBuf`. -/
def walkMessage (mem : Mem) (ei : List QmiElemInfo) (inBuf inBufLen : Nat) : Walk Nat :=
  walkTlvs (walkNested mem (nestDepth ei - 1)) mem ei inBuf inBufLen (inBufLen + ei.length + 1) 0 0

/-! ### Properties that are decided at the sites -/

/-- How many elements the decoder may come to in the value of a group. -/
def QmiElemInfo.maxCount (ei : QmiElemInfo) : Nat :=
  match ei.arrayType with
  | .noArray => 1
  | _ => ei.elemLen

/-- The accesses of `n` elements from position `pos` on, stored from `addr` on. -/
def ElemsIn (P : DecodeEvent → Prop) (mem : Mem) (ei : QmiElemInfo) (n pos addr : Nat) : Prop :=
  ∀ i, i < n → P (.read (pos + i * ei.elemSize) ei.elemSize) ∧
    P (.store ei i (addr + i * ei.elemSize) (mem.bytes (pos + i * ei.elemSize) ei.elemSize))

/-- The accesses of the group `g`, in a structure at `out`, are in `P` exactly when its sites are in
    `Q`. -/
structure Tracked (P : DecodeEvent → Prop) (Q : Site → Prop) (mem : Mem) (out : Nat) (g : Group) :
    Prop where
  flag : ∀ f, g.flag? = some f → P (.store f 0 (out + f.offset) [1])
  count : ∀ l, g.len? = some l → ∀ pos v room,
    (P (.read pos (dataLenSz l)) ∧ P (.store l 0 (out + l.offset) (leBytes 4 v)) ∧
      P (.sub room (dataLenSz l))) ↔ Q (.count pos (dataLenSz l) room)
  basic : g.value.dataType ≠ .struct → g.value.dataType ≠ .string → ∀ n, n ≤ g.value.maxCount →
    ∀ pos, ElemsIn P mem g.value n pos (out + g.value.offset) ↔
      Q (.body pos (n * g.value.elemSize))
  enter : g.value.dataType = .struct → ∀ i, i < g.value.maxCount →
    P (.enter g.value i (out + g.value.offset + i * g.value.elemSize))
  textLen : ∀ pos, P (.read pos (stringLenSz g.value)) ↔ Q (.textLen pos (stringLenSz g.value))
  text : g.value.dataType = .string → ∀ len, len ≤ g.value.elemLen → ∀ pos,
    (ElemsIn P mem g.value len pos (out + g.value.offset) ∧
      P (.store g.value len (out + g.value.offset + len) [0])) ↔
      Q (.text g.value.elemLen pos len g.value.elemSize)

/-- The same of every group of a structure at `out` and of the structures in it. -/
inductive TrackedAt (P : DecodeEvent → Prop) (Q : Site → Prop) (mem : Mem) :
    List QmiElemInfo → Nat → Prop
  | mk {ei : List QmiElemInfo} {out : Nat} (hgroup : ∀ g ∈ groups ei, Tracked P Q mem out g)
      (hnest : ∀ g ∈ groups ei, g.value.dataType = .struct → ∀ i, i < g.value.maxCount →
        TrackedAt P Q mem g.value.eiArray (out + g.value.offset + i * g.value.elemSize)) :
      TrackedAt P Q mem ei out

section Tracking

variable {P : DecodeEvent → Prop} {Q : Site → Prop} {mem : Mem}

theorem decodeCount_tracks (ei : QmiElemInfo) (dataLenValue : Nat) :
    Traced.Tracks P Q (decodeCount ei dataLenValue) (walkElems ei dataLenValue) := by
  unfold decodeCount walkElems
  cases ei.arrayType with
  | noArray | staticArray => exact .pure _
  | varLenArray =>
      simp only
      split
      · exact .fail _
      · exact .pure _

/-- The elements read are at most those the field may hold. -/
theorem decodeCount_le {ei : QmiElemInfo} {dataLenValue n : Nat}
    (h : (decodeCount ei dataLenValue).res = .ok n) : n ≤ ei.maxCount := by
  unfold decodeCount at h
  unfold QmiElemInfo.maxCount
  cases harray : ei.arrayType with
  | noArray | staticArray =>
      rw [harray] at h
      cases h
      exact Nat.le_refl _
  | varLenArray =>
      rw [harray] at h
      simp only at h ⊢
      split at h
      · cases h
      · cases h
        omega

/-- An array of basic type: its result and its accesses. -/
theorem qmiDecodeBasicElem_spec (P : DecodeEvent → Prop) (mem : Mem) (ei : QmiElemInfo)
    (n i addr pos : Nat) :
    (qmiDecodeBasicElem mem ei n i addr pos).res = .ok (n * ei.elemSize) ∧
      ((qmiDecodeBasicElem mem ei n i addr pos).Every P ↔
        ∀ j, j < n → P (.read (pos + j * ei.elemSize) ei.elemSize) ∧
          P (.store ei (i + j) (addr + j * ei.elemSize)
            (mem.bytes (pos + j * ei.elemSize) ei.elemSize))) := by
  induction n generalizing i addr pos with
  | zero => simp [qmiDecodeBasicElem]
  | succ n ih =>
      obtain ⟨hres, hevery⟩ := ih (i + 1) (addr + ei.elemSize) (pos + ei.elemSize)
      have hmul : (n + 1) * ei.elemSize = ei.elemSize + n * ei.elemSize := by ring
      have hshift : ∀ a j : Nat, a + ei.elemSize + j * ei.elemSize = a + (j + 1) * ei.elemSize := by
        intro a j
        ring
      have hindex : ∀ j : Nat, i + 1 + j = i + (j + 1) := by
        intro j
        ring
      rw [qmiDecodeBasicElem, Traced.emit_bind, Traced.emit_bind, Traced.bind_ok hres, hmul]
      refine ⟨rfl, ?_⟩
      rw [Nat.forall_lt_succ_left, Traced.after_after, Traced.after_after, Traced.every_after]
      simp only [hshift, hindex] at hevery
      simp only [List.cons_append, List.nil_append, List.forall_mem_cons, Traced.every_pure, and_true,
        Nat.zero_mul, Nat.add_zero, and_assoc]
      exact and_congr_right fun _ => and_congr_right fun _ => hevery

/-- The accesses of a whole field. -/
theorem qmiDecodeBasicElem_every (P : DecodeEvent → Prop) (mem : Mem) (ei : QmiElemInfo)
    (n addr pos : Nat) :
    (qmiDecodeBasicElem mem ei n 0 addr pos).Every P ↔ ElemsIn P mem ei n pos addr := by
  have h := (qmiDecodeBasicElem_spec P mem ei n 0 addr pos).2
  simp only [Nat.zero_add] at h
  exact h

theorem qmiDecodeBasicElem_res (mem : Mem) (ei : QmiElemInfo) (n i addr pos : Nat) :
    (qmiDecodeBasicElem mem ei n i addr pos).res = .ok (n * ei.elemSize) :=
  (qmiDecodeBasicElem_spec (fun _ => True) mem ei n i addr pos).1

theorem decodeSub_bind {α : Type} (a b : Nat) (f : Nat → Decoding α) :
    decodeSub a b >>= f = Traced.after [.sub a b] (f (u32Sub a b)) := rfl

theorem qmiDecodeLocal_bind {α : Type} (pos size : Nat) (f : List UInt8 → Decoding α) :
    qmiDecodeLocal mem pos size >>= f = Traced.after [.read pos size] (f (mem.bytes pos size)) := rfl

/-- Structures one after the other. -/
theorem qmiDecodeStructLoop_tracks {rec : DecodeCall} {nested : Nat → Nat → Walk Nat}
    {ei : QmiElemInfo} {addr level : Nat} (tlvLen : Nat) (hsub : ∀ a b, b < a → P (.sub a b)) (n : Nat)
    (henter : ∀ i, i < n → P (.enter ei i (addr + i * ei.elemSize)))
    (hrec : ∀ i, i < n → ∀ pos len, Traced.Tracks P Q
      (rec ei.eiArray (addr + i * ei.elemSize) pos len level) (nested pos len))
    (left i pos decodedBytes : Nat) (hn : i + left = n) :
    Traced.Tracks P Q
      (qmiDecodeStructLoop rec ei tlvLen level left i (addr + i * ei.elemSize) pos decodedBytes)
      (walkStructs nested tlvLen left i pos decodedBytes) := by
  induction left generalizing i pos decodedBytes with
  | zero => exact .pure _
  | succ left ih =>
      rw [qmiDecodeStructLoop, walkStructs]
      split
      · rw [Traced.emit_bind, decodeSub_bind, Traced.after_after]
        apply Traced.Tracks.after
        · simp only [List.cons_append, List.nil_append, List.forall_mem_cons, List.not_mem_nil,
            false_implies, implies_true, and_true]
          exact ⟨henter i (by omega), hsub _ _ ‹_›⟩
        · apply (hrec i (by omega) _ _).bind
          intro rc _
          have haddr : addr + i * ei.elemSize + ei.elemSize = addr + (i + 1) * ei.elemSize := by ring
          rw [haddr]
          exact ih _ _ _ (by omega)
      · exact .pure _

/-- A string. -/
theorem qmiDecodeStringElem_tracks {out pos tlvLen level : Nat} {g : Group}
    (h : Tracked P Q mem out g) (htype : g.value.dataType = .string) :
    Traced.Tracks P Q
      (qmiDecodeStringElem mem g.value (out + g.value.offset) pos tlvLen level)
      (walkText mem g.value pos tlvLen level) := by
  have hlen : Traced.Tracks P Q (decodeStringLen mem g.value pos tlvLen level)
      (walkTextLen mem g.value pos tlvLen level) := by
    unfold decodeStringLen walkTextLen
    split
    · exact .pure _
    · refine ⟨rfl, ?_⟩
      rw [qmiDecodeLocal_bind, Traced.emit_bind, Traced.every_after, Traced.every_after]
      simpa using h.textLen pos
  apply hlen.bind
  intro r _
  obtain ⟨len, width⟩ := r
  simp only
  split
  · exact .fail _
  · split
    · exact .fail _
    · have htext := h.text htype len (by omega) (pos + width)
      rw [Traced.bind_ok (qmiDecodeBasicElem_res _ _ _ _ _ _)]
      refine ⟨rfl, ?_⟩
      rw [Traced.emit_bind, Traced.emit_bind, Traced.after_after, Traced.every_after,
        Traced.every_after, List.forall_mem_append]
      have hbody := qmiDecodeBasicElem_every P mem g.value len (out + g.value.offset) (pos + width)
      simp only [List.mem_singleton, forall_eq, Traced.every_pure, and_true]
      rw [← htext]
      exact and_congr_left fun _ => hbody

/-- The value of a group. -/
theorem decodeSwitch_tracks {rec : DecodeCall} {wrec : WalkCall} {out pos n tlvLen level : Nat}
    {g : Group} (hshape : g.Shaped) (h : Tracked P Q mem out g) (hsub : ∀ a b, b < a → P (.sub a b))
    (hn : n ≤ g.value.maxCount)
    (hrec : g.value.dataType = .struct → ∀ i, i < g.value.maxCount → ∀ pos len, Traced.Tracks P Q
      (rec g.value.eiArray (out + g.value.offset + i * g.value.elemSize) pos len (level + 1))
      (wrec g.value.eiArray pos len (level + 1))) :
    Traced.Tracks P Q
      (decodeSwitch rec mem g.value (out + g.value.offset) pos n tlvLen level)
      (walkValue wrec mem g.value pos n tlvLen level) := by
  have hvalue := hshape.value
  unfold decodeSwitch walkValue
  cases htype : g.value.dataType with
  | eoti | optFlag | dataLen => simp [htype, QmiElemType.IsValue] at hvalue
  | struct =>
      have hloop := qmiDecodeStructLoop_tracks tlvLen hsub n
        (fun i hi => h.enter htype i (Nat.lt_of_lt_of_le hi hn))
        (fun i hi => hrec htype i (Nat.lt_of_lt_of_le hi hn)) n 0 pos 0 (Nat.zero_add n)
      rw [Nat.zero_mul, Nat.add_zero] at hloop
      apply hloop.bind
      intro r _
      obtain ⟨i, decodedBytes⟩ := r
      simp only
      split
      · exact .fail _
      · exact .pure _
  | string => exact qmiDecodeStringElem_tracks h htype
  | _ =>
      have hbasic := h.basic (by simp [htype]) (by simp [htype]) n hn pos
      refine ⟨qmiDecodeBasicElem_res _ _ _ _ _ _, ?_⟩
      simp only
      rw [qmiDecodeBasicElem_every, hbasic, Traced.emit_bind, Traced.every_after]
      simp

/-- A group. -/
theorem readGroup_tracks {rec : DecodeCall} {wrec : WalkCall} {out level : Nat} {g : Group}
    (hshape : g.Shaped) (h : Tracked P Q mem out g) (hsub : ∀ a b, b < a → P (.sub a b))
    (hrec : g.value.dataType = .struct → ∀ i, i < g.value.maxCount → ∀ pos len, Traced.Tracks P Q
      (rec g.value.eiArray (out + g.value.offset + i * g.value.elemSize) pos len (level + 1))
      (wrec g.value.eiArray pos len (level + 1))) (dataLenValue pos tlvLen : Nat) :
    Traced.Tracks P Q (readGroup rec mem out level g dataLenValue pos tlvLen)
      (walkGroup wrec mem level g dataLenValue pos tlvLen) := by
  have hcount : Traced.Tracks P Q (do
      readFlag out g
      readCount mem out g dataLenValue pos tlvLen) (walkCount mem g dataLenValue pos tlvLen) := by
    have hflag : (readFlag out g).res = .ok () ∧ (readFlag out g).Every P := by
      unfold readFlag
      cases hf : g.flag? with
      | none => simp
      | some f => simpa using h.flag f hf
    rw [Traced.bind_ok hflag.1]
    apply Traced.Tracks.after hflag.2
    unfold readCount walkCount
    cases hl : g.len? with
    | none => exact .pure _
    | some l =>
        have hsite := h.count l hl pos (overlayLow dataLenValue (mem.bytes pos (dataLenSz l))) tlvLen
        simp only [qmiDecodeLocal_bind, Traced.emit_bind, decodeSub_bind, Traced.after_after]
        refine ⟨rfl, ?_⟩
        simp only [List.cons_append, List.nil_append, Traced.every_after, List.forall_mem_cons,
          List.not_mem_nil, false_implies, implies_true, and_true, Traced.every_pure]
        exact hsite
  rw [readGroup, ← bind_assoc, walkGroup]
  apply hcount.bind
  intro r _
  obtain ⟨v, room, width⟩ := r
  apply (decodeCount_tracks g.value v).bind
  intro n hn
  apply (decodeSwitch_tracks hshape h hsub (decodeCount_le hn) hrec).bind
  intro rc _
  exact .pure _

/-- The fields of a nested structure. -/
theorem readFields_tracks {rec : DecodeCall} {wrec : WalkCall} {out inBuf inBufLen level : Nat}
    {gs : List Group} (hshape : ∀ g ∈ gs, g.Shaped) (h : ∀ g ∈ gs, Tracked P Q mem out g)
    (hsub : ∀ a b, b < a → P (.sub a b))
    (hrec : ∀ g ∈ gs, g.value.dataType = .struct → ∀ i, i < g.value.maxCount → ∀ pos len,
      Traced.Tracks P Q
        (rec g.value.eiArray (out + g.value.offset + i * g.value.elemSize) pos len (level + 1))
        (wrec g.value.eiArray pos len (level + 1))) (dataLenValue decodedBytes : Nat) :
    Traced.Tracks P Q (readFields rec mem out inBuf inBufLen level gs dataLenValue decodedBytes)
      (walkFields wrec mem inBuf inBufLen level gs dataLenValue decodedBytes) := by
  induction gs generalizing dataLenValue decodedBytes with
  | nil => exact .pure _
  | cons g gs ih =>
      rw [readFields, walkFields]
      split
      · rw [decodeSub_bind]
        apply Traced.Tracks.after
        · simp only [List.mem_singleton, forall_eq]
          exact hsub _ _ ‹_›
        · apply (readGroup_tracks (hshape g List.mem_cons_self) (h g List.mem_cons_self) hsub
            (hrec g List.mem_cons_self) _ _ _).bind
          intro r _
          exact ih (fun g' hg' => hshape g' (List.mem_cons_of_mem _ hg'))
            (fun g' hg' => h g' (List.mem_cons_of_mem _ hg'))
            (fun g' hg' => hrec g' (List.mem_cons_of_mem _ hg')) _ _
      · exact .pure _

/-- A nested structure. -/
theorem readNested_tracks {R : Nat → List Group → QmiElemInfo → Prop} {level : Nat}
    {ei : List QmiElemInfo} (hdesc : Described R level ei) {out : Nat}
    (h : TrackedAt P Q mem ei out) (hsub : ∀ a b, b < a → P (.sub a b)) {d : Nat}
    (hd : nestDepth ei ≤ d) (inBuf inBufLen : Nat) :
    Traced.Tracks P Q (readNested mem d ei out inBuf inBufLen level)
      (walkNested mem d ei inBuf inBufLen level) := by
  induction hdesc generalizing d out inBuf inBufLen with
  | @mk level gs eoti hend hshape _ _ ih =>
      obtain ⟨d, rfl⟩ := exists_eq_succ_of_nestDepth_le hd
      obtain ⟨hgroup, hnest⟩ := h
      rw [readNested, walkNested]
      rw [groups_flatten hend hshape] at hgroup hnest ⊢
      exact readFields_tracks hshape hgroup hsub
        (fun g hg hstruct i hi => ih g hg hstruct (hnest g hg hstruct i hi) (nestDepth_value hg hd)) _ _

theorem Tracked.tail {out : Nat} {g g' : Group} (h : Tracked P Q mem out g) (hg' : g' ∈ g.tails) :
    Tracked P Q mem out g' := by
  simp only [Group.tails, List.mem_cons, List.not_mem_nil, or_false] at hg'
  rcases hg' with rfl | rfl | rfl
  · exact h
  · exact ⟨by simp, h.count, h.basic, h.enter, h.textLen, h.text⟩
  · exact ⟨by simp, by simp, h.basic, h.enter, h.textLen, h.text⟩

/-- The TLVs of a message. -/
theorem readTlvs_tracks {rec : DecodeCall} {wrec : WalkCall} {out inBuf inBufLen : Nat}
    {gs : List Group} {eoti : QmiElemInfo} (hend : eoti.dataType = .eoti)
    (hshape : ∀ g ∈ gs, g.Shaped) (h : ∀ g ∈ gs, Tracked P Q mem out g)
    (hsub : ∀ a b, b < a → P (.sub a b)) (htlv : ∀ pos type len, P (.tlv pos type len) ↔ Q (.header pos))
    (hrec : ∀ g ∈ gs, g.value.dataType = .struct → ∀ i, i < g.value.maxCount → ∀ pos len,
      Traced.Tracks P Q (rec g.value.eiArray (out + g.value.offset + i * g.value.elemSize) pos len 2)
        (wrec g.value.eiArray pos len 2)) (fuel dataLenValue decodedBytes : Nat) :
    Traced.Tracks P Q
      (readTlvs rec mem (flatten gs eoti) out inBuf inBufLen fuel dataLenValue decodedBytes)
      (walkTlvs wrec mem (flatten gs eoti) inBuf inBufLen fuel dataLenValue decodedBytes) := by
  induction fuel generalizing dataLenValue decodedBytes with
  | zero => exact .fail _
  | succ fuel ih =>
      rw [readTlvs, walkTlvs]
      split
      · rw [decodeTlv, bind_assoc]
        apply (Traced.Tracks.emit (htlv _ _ _)).bind
        intro _ _
        rw [pure_bind]
        rcases findGroup_flatten hend hshape (mem (inBuf + decodedBytes)).toNat with
          ⟨_, hgroup⟩ | ⟨g, hg, g', hg', _, _, hgroup⟩
        · simp only [hgroup]
          split
          · exact .fail _
          · exact ih _ _
        · have hrec' : g'.value.dataType = .struct → ∀ i, i < g'.value.maxCount → ∀ pos len,
              Traced.Tracks P Q
                (rec g'.value.eiArray (out + g'.value.offset + i * g'.value.elemSize) pos len 2)
                (wrec g'.value.eiArray pos len 2) := by
            rw [Group.value_of_tail hg']
            exact hrec g hg
          simp only [hgroup]
          apply (readGroup_tracks ((hshape g hg).tail hg') ((h g hg).tail hg') hsub hrec' _ _ _).bind
          intro r _
          exact ih _ _
      · exact .pure _

/-- The decoder ends like the walk, and its accesses are in `P` exactly when the sites of the walk are
    in `Q`. -/
theorem readMessage_tracks {R : Nat → List Group → QmiElemInfo → Prop} {ei : List QmiElemInfo}
    (hdesc : Described R 1 ei) {out : Nat} (h : TrackedAt P Q mem ei out)
    (hsub : ∀ a b, b < a → P (.sub a b)) (htlv : ∀ pos type len, P (.tlv pos type len) ↔ Q (.header pos))
    (inBuf inBufLen : Nat) :
    Traced.Tracks P Q (readMessage mem ei out inBuf inBufLen) (walkMessage mem ei inBuf inBufLen) := by
  obtain ⟨d, hd⟩ := exists_eq_succ_of_nestDepth_le (Nat.le_refl (nestDepth ei))
  rw [readMessage, walkMessage, hd, Nat.add_sub_cancel]
  cases hdesc with
  | @mk _ gs eoti hend hshape _ hnest =>
      obtain ⟨hgroup, hstructs⟩ := h
      rw [groups_flatten hend hshape] at hgroup hstructs
      exact readTlvs_tracks hend hshape hgroup hsub htlv
        (fun g hg hstruct i hi => readNested_tracks (hnest g hg hstruct) (hstructs g hg hstruct i hi)
          hsub (nestDepth_value hg hd.le)) _ _ _

end Tracking

end Qrtr
