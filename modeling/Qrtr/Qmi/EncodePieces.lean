/-
Module: Qrtr.Qmi.EncodePieces
Layer: Qmi
Purpose: The encoder refines the pieces of the message. `Follows` says that a run writes the pieces it
  is given one after the other, up to the first that its check refuses, or to the first that ends past
  the buffer although its check let it through; beyond that one nothing is said, since the remaining
  length has wrapped. One lemma for each branch of the switch and for the header, then the loop of a
  nested structure and the loop of the message by induction over their groups.
Imports: Qmi.Encode, Qmi.Serialize
Main exports: Follows, Follows.bind, Laid, qmiEncode_nested, qmiEncode_message
Open obligations: none
-/
import Qrtr.Qmi.Encode
import Qrtr.Qmi.Serialize

namespace Qrtr

variable {α β : Type}

/-! ### Runs that follow a list of pieces -/

/-- `m` writes the pieces in order and returns `a`, unless a piece does not fit below `bound`. -/
inductive Follows (bound : Nat) (a : α) : List Piece → Encoding α → Prop
  | done : Follows bound a [] (pure a)
  | written {p : Piece} {ps : List Piece} {ws : List Write} {m : Encoding α}
      (hfit : p.Fits bound) (hws : Chunks p.start ws p.bytes) (hm : Follows bound a ps m) :
      Follows bound a (p :: ps) (Traced.after ws m)
  | refused {p : Piece} {ps : List Piece}
      (hcheck : ¬ p.Passes bound) (hfit : ¬ p.Fits bound) :
      Follows bound a (p :: ps) (Traced.fail einval)
  | overrun {p : Piece} {ps : List Piece} {ws : List Write} {m : Encoding α}
      (hcheck : p.Passes bound) (hfit : ¬ p.Fits bound) (hne : p.bytes ≠ [])
      (hws : Chunks p.start ws p.bytes) : Follows bound a (p :: ps) (Traced.after ws m)

/-- Following is kept by sequencing; the second part may assume that the pieces of the first fit. -/
theorem Follows.bind {bound : Nat} {a : α} {b : β} {ps ps' : List Piece} {m : Encoding α}
    {f : α → Encoding β} (hm : Follows bound a ps m)
    (hf : (∀ p ∈ ps, p.Fits bound) → Follows bound b ps' (f a)) :
    Follows bound b (ps ++ ps') (m >>= f) := by
  induction hm with
  | done =>
      rw [pure_bind]
      exact hf (by simp)
  | written hfit hws _ ih =>
      rw [Traced.after_bind]
      apply Follows.written hfit hws
      apply ih
      intro hps
      exact hf (List.forall_mem_cons.mpr ⟨hfit, hps⟩)
  | refused hcheck hfit => exact .refused hcheck hfit
  | overrun hcheck hfit hne hws =>
      rw [Traced.after_bind]
      exact .overrun hcheck hfit hne hws

/-- A result computed from the result. -/
theorem Follows.map {bound : Nat} {a : α} {ps : List Piece} {m : Encoding α} (f : α → β)
    (hm : Follows bound a ps m) : Follows bound (f a) ps (m >>= fun a => pure (f a)) := by
  have h := hm.bind (f := fun a => pure (f a)) (fun _ => Follows.done)
  rwa [List.append_nil] at h

/-- One piece behind its check. -/
theorem Follows.check {bound : Nat} {a : α} (p : Piece) {m : Encoding α} {ws : List Write}
    {c : Prop} [Decidable c] (hm : m = Traced.after ws (pure a)) (hws : Chunks p.start ws p.bytes)
    (hc : c ↔ ¬ p.Passes bound) (hneed : p.need ≤ p.start + p.bytes.length)
    (hempty : p.bytes = [] → p.need = p.start) :
    Follows bound a [p] (if c then Traced.fail einval else m) := by
  split
  · rename_i hcheck
    have hpass := hc.mp hcheck
    have hfit : ¬ p.Fits bound := fun hfit => hpass (Nat.le_trans hneed hfit)
    exact .refused hpass hfit
  · rename_i hcheck
    have hpass : p.Passes bound := Decidable.not_not.mp fun h => hcheck (hc.mpr h)
    rw [hm]
    by_cases hfit : p.Fits bound
    · exact .written hfit hws .done
    · refine .overrun hpass hfit ?_ hws
      intro hnil
      apply hfit
      have hlen : p.bytes.length = 0 := by rw [hnil]; rfl
      unfold Piece.Fits Piece.Passes at *
      rw [hlen, Nat.add_zero, ← hempty hnil]
      exact hpass

/-! ### Pieces that lie side by side -/

/-- The pieces fill the block `bs` at `pos` from left to right. -/
inductive Laid : Nat → List Piece → List UInt8 → Prop
  | nil {pos : Nat} : Laid pos [] []
  | cons {p : Piece} {ps : List Piece} {bs : List UInt8} (h : Laid (p.start + p.bytes.length) ps bs) :
      Laid p.start (p :: ps) (p.bytes ++ bs)

theorem Laid.single (p : Piece) : Laid p.start [p] p.bytes := by
  have h : Laid p.start [p] (p.bytes ++ []) := .cons .nil
  rwa [List.append_nil] at h

theorem Laid.append {pos : Nat} {ps ps' : List Piece} {bs bs' : List UInt8} (h : Laid pos ps bs)
    (h' : Laid (pos + bs.length) ps' bs') : Laid pos (ps ++ ps') (bs ++ bs') := by
  induction h with
  | nil => exact h'
  | cons _ ih =>
      rw [List.append_assoc]
      apply Laid.cons
      apply ih
      rwa [List.length_append, ← Nat.add_assoc] at h'

/-- If every piece fits, the block ends inside the buffer, or where it started. -/
theorem Laid.end_le {pos bound limit : Nat} {ps : List Piece} {bs : List UInt8} (h : Laid pos ps bs)
    (hfit : ∀ p ∈ ps, p.Fits bound) (hpos : pos ≤ limit) (hlimit : bound ≤ limit) :
    pos + bs.length ≤ limit := by
  induction h with
  | nil => exact hpos
  | @cons p ps bs _ ih =>
      have hp : p.Fits bound := hfit p List.mem_cons_self
      have := ih (fun q hq => hfit q (List.mem_cons_of_mem _ hq)) (Nat.le_trans hp hlimit)
      rw [List.length_append]
      omega

/-- If the block ends inside the buffer, every piece fits. -/
theorem Laid.fits {pos bound : Nat} {ps : List Piece} {bs : List UInt8} (h : Laid pos ps bs)
    (hend : pos + bs.length ≤ bound) : ∀ p ∈ ps, p.Fits bound := by
  induction h with
  | nil => simp
  | @cons p ps bs _ ih =>
      rw [List.length_append] at hend
      have hp : p.Fits bound := by
        unfold Piece.Fits
        omega
      exact List.forall_mem_cons.mpr ⟨hp, ih (by omega)⟩

section Layout

variable (cs : Mem)

/-- The pieces of an array lie side by side if those of its elements do. -/
theorem laid_array {elem : Nat → List UInt8} {pieces : Nat → Nat → List Piece}
    (h : ∀ pos addr, Laid pos (pieces pos addr) (elem addr)) (size n pos addr : Nat) :
    Laid pos (arrayPieces elem pieces size n pos addr) (arrayBytes elem size n addr) := by
  induction n generalizing pos addr with
  | zero => exact .nil
  | succ n ih => exact (h pos addr).append (ih _ _)

theorem laid_value {nested : List QmiElemInfo → Nat → List UInt8}
    {pieces : List QmiElemInfo → Nat → Nat → List Piece}
    (h : ∀ ei pos addr, Laid pos (pieces ei pos addr) (nested ei addr)) (top : Bool)
    (ei : QmiElemInfo) (start pos addr n : Nat) :
    Laid pos (valuePieces nested pieces cs top ei start pos addr n)
      (valueBytes nested cs top ei addr n) := by
  unfold valuePieces valueBytes
  split
  · exact laid_array (h _) _ _ _ _
  · exact Laid.single (textPiece cs top ei addr pos)
  · exact Laid.single (sumPiece start pos _)

theorem laid_payload {nested : List QmiElemInfo → Nat → List UInt8}
    {pieces : List QmiElemInfo → Nat → Nat → List Piece}
    (h : ∀ ei pos addr, Laid pos (pieces ei pos addr) (nested ei addr)) (top : Bool)
    (start pos base : Nat) (g : Group) :
    Laid pos (g.payloadPieces nested pieces cs top start pos base)
      (g.payload nested cs top base) := by
  unfold Group.payloadPieces Group.payload
  apply Laid.append
  · cases hl : g.len? with
    | none =>
        simp only [Group.countPrefix, hl, Option.isSome_none, Bool.false_eq_true, if_false]
        exact .nil
    | some l =>
        simp only [Option.isSome_some, if_true]
        exact Laid.single (sumPiece start pos _)
  · split
    · exact laid_value cs h _ _ _ _ _ _
    · exact .nil

theorem laid_nested (d : Nat) (ei : List QmiElemInfo) (pos base : Nat) :
    Laid pos (nestedPieces cs d ei pos base) (nestedBytes cs d ei base) := by
  induction d generalizing ei pos base with
  | zero => exact .nil
  | succ d ih =>
      rw [nestedPieces, nestedBytes]
      have key : ∀ (gs : List Group) (start pos : Nat),
          Laid pos (fieldPieces (nestedBytes cs d) (nestedPieces cs d) cs start base pos gs)
            (gs.flatMap (Group.payload (nestedBytes cs d) cs false base)) := by
        intro gs
        induction gs with
        | nil =>
            intro start pos
            exact .nil
        | cons g gs ihgs =>
            intro start pos
            rw [List.flatMap_cons, fieldPieces]
            exact (laid_payload cs ih false start pos base g).append (ihgs _ _)
      exact key _ _ _

end Layout

/-! ### Skipping a group -/

/-- Skipping past elements of one type, up to an element of another. -/
theorem skipSameType_append {ev : Type} {t : UInt8} {es rest : List QmiElemInfo} (hne : es ≠ [])
    (hes : ∀ e ∈ es, e.tlvType = t) (hrest : rest ≠ []) (hhead : headType rest ≠ some t) :
    skipSameType (es ++ rest) = (pure rest : Traced QmiError ev _) := by
  induction es with
  | nil => exact absurd rfl hne
  | cons e es ih =>
      have he := hes e List.mem_cons_self
      cases es with
      | nil =>
          obtain ⟨r, rest', rfl⟩ := List.exists_cons_of_ne_nil hrest
          have hdiff : ¬ e.tlvType = r.tlvType := by
            intro h
            apply hhead
            rw [headType, List.head?_cons, Option.map_some, ← h, he]
          simp [skipSameType, hdiff]
      | cons e' es' =>
          have he' := hes e' (by simp)
          have hrec := ih (List.cons_ne_nil _ _) fun x hx => hes x (List.mem_cons_of_mem _ hx)
          simp only [List.cons_append] at hrec ⊢
          rw [skipSameType, if_pos (he.trans he'.symm), hrec]

theorem flatten_ne_nil (gs : List Group) (eoti : QmiElemInfo) : flatten gs eoti ≠ [] := by
  simp [flatten]

section Skip

variable {level : Nat} {g : Group} {gs : List Group} {eoti : QmiElemInfo}

/-- Skipping from inside the last elements of a group ends behind the group. -/
theorem EncodeRules.skip_elems (h : EncodeRules 1 (g :: gs) eoti) (es : List QmiElemInfo) (hne : es ≠ [])
    (hes : ∀ e ∈ es, e ∈ g.elems) :
    skipToNextElem (es ++ flatten gs eoti) 1 = (pure (flatten gs eoti) : Encoding _) := by
  obtain ⟨hsame, hdiff, _⟩ := h.2 rfl
  rw [skipToNextElem, if_neg (Nat.lt_irrefl 1)]
  exact skipSameType_append hne (fun e he => hsame e (hes e he)) (flatten_ne_nil _ _) hdiff

/-- Skipping the value of a group. -/
theorem EncodeRules.skip_value (h : EncodeRules level (g :: gs) eoti) (hlevel : 1 ≤ level) :
    skipToNextElem (g.value :: flatten gs eoti) level = (pure (flatten gs eoti) : Encoding _) := by
  rcases Nat.lt_or_eq_of_le hlevel with hdeep | hone
  · rw [skipToNextElem, if_pos hdeep, List.tail_cons]
  · subst hone
    exact h.skip_elems [g.value] (List.cons_ne_nil _ _) (by simp [Group.elems])

end Skip

/-! ### The element encoders -/

/-- The array encoder copies its elements. -/
theorem qmiEncodeBasicElem_spec (cs : Mem) (elemSize n bufDst bufSrc : Nat) :
    (qmiEncodeBasicElem cs elemSize n bufDst bufSrc).res = .ok (n * elemSize) ∧
      Chunks bufDst (qmiEncodeBasicElem cs elemSize n bufDst bufSrc).trace
        (cs.bytes bufSrc (n * elemSize)) := by
  induction n generalizing bufDst bufSrc with
  | zero => simpa [qmiEncodeBasicElem] using Chunks.nil
  | succ n ih =>
      obtain ⟨hres, hws⟩ := ih (bufDst + elemSize) (bufSrc + elemSize)
      have hmul : (n + 1) * elemSize = elemSize + n * elemSize := by ring
      rw [qmiEncodeBasicElem, Traced.emit_bind, Traced.bind_ok hres, hmul, Mem.bytes_add]
      refine ⟨rfl, ?_⟩
      simp only [Traced.after_trace, Traced.pure_trace, List.append_nil, List.singleton_append]
      apply Chunks.cons
      rwa [Mem.length_bytes]

section Iteration

variable {bound start outBufLen : Nat}

/-- Where a call of `qmi_encode` stands: its bytes start at `start`, and the space it was given reaches
    three bytes past the end of the buffer, for the header of the TLV around it. -/
structure EncodeState.At (bound start outBufLen : Nat) (s : EncodeState) : Prop where
  buf : s.bufDst = start + s.encodedBytes
  room : s.encodedBytes ≤ outBufLen
  limit : start + outBufLen = bound + 3
  start_ge : 3 ≤ start
  len_lt : outBufLen < 2 ^ 32

/-- Where a call stands depends on its counters alone. -/
theorem EncodeState.At.congr {s s' : EncodeState} (h : s.At bound start outBufLen)
    (hdst : s'.bufDst = s.bufDst) (hbytes : s'.encodedBytes = s.encodedBytes) :
    s'.At bound start outBufLen where
  buf := by rw [hdst, hbytes, h.buf]
  room := hbytes ▸ h.room
  limit := h.limit
  start_ge := h.start_ge
  len_lt := h.len_lt

/-- Bytes were written, or none were needed. -/
theorem EncodeState.At.update {s : EncodeState} (h : s.At bound start outBufLen) {rc : Nat}
    (hrc : s.bufDst + rc ≤ bound + 3) : (s.update rc).At bound start outBufLen := by
  obtain ⟨hbuf, _, hlimit, hge, hlt⟩ := h
  refine ⟨?_, ?_, hlimit, hge, hlt⟩
  · change s.bufDst + rc = start + (s.encodedBytes + rc)
    omega
  · change s.encodedBytes + rc ≤ outBufLen
    omega

/-- The check of a count or an array. -/
theorem EncodeState.At.sum_check {s : EncodeState} (h : s.At bound start outBufLen)
    (bs : List UInt8) :
    outBufLen < u32 (u32 bs.length + s.encodedBytes) + 3 ↔
      ¬ (sumPiece start s.bufDst bs).Passes bound := by
  have hsub : s.bufDst - start = s.encodedBytes := by
    have := h.buf
    omega
  have hlimit := h.limit
  change _ ↔ ¬ start + u32 (u32 bs.length + (s.bufDst - start)) ≤ bound
  rw [hsub]
  omega

theorem EncodeState.At.sum_need {s : EncodeState} (h : s.At bound start outBufLen)
    (bs : List UInt8) :
    (sumPiece start s.bufDst bs).need ≤ s.bufDst + bs.length := by
  have h1 := u32_le bs.length
  have h2 := u32_le (u32 bs.length + (s.bufDst - start))
  have hbuf := h.buf
  change start + u32 (u32 bs.length + (s.bufDst - start)) ≤ _
  omega

theorem EncodeState.At.sum_empty {s : EncodeState} (h : s.At bound start outBufLen)
    {bs : List UInt8} (hbs : bs = []) : (sumPiece start s.bufDst bs).need = s.bufDst := by
  subst hbs
  obtain ⟨hbuf, hroom, _, _, hlt⟩ := h
  have hsub : s.bufDst - start = s.encodedBytes := by omega
  change start + u32 (u32 0 + (s.bufDst - start)) = _
  have hu : u32 (u32 0 + s.encodedBytes) = s.encodedBytes := by
    rw [u32_of_lt (show 0 < 2 ^ 32 by omega), Nat.zero_add, u32_of_lt (by omega)]
  rw [hsub, hu, hbuf]

/-- `memcpy` over the initial value 1 of `data_len_value`. -/
theorem overlayLow_one {low : List UInt8} (h : low ≠ []) : overlayLow 1 low = leValue low := by
  have hlen : 0 < low.length := List.length_pos_iff.mpr h
  have hpow : 1 < 256 ^ low.length := Nat.one_lt_pow (by omega) (by norm_num)
  rw [overlayLow, Nat.div_eq_of_lt hpow, Nat.mul_zero, Nat.add_zero]

/-- The count of a group, read over the initial value 1 of `data_len_value`. -/
theorem Group.Encodable.overlay_count {level : Nat} {g : Group} {l : QmiElemInfo}
    (h : g.Encodable level) (hl : g.len? = some l) (cs : Mem) (base : Nat) :
    overlayLow 1 (cs.bytes (base + l.offset) l.elemSize) = g.lenValue cs base := by
  have hne : cs.bytes (base + l.offset) l.elemSize ≠ [] := by
    apply List.ne_nil_of_length_pos
    rw [Mem.length_bytes]
    exact (h.len_size l hl).1
  simp [overlayLow_one hne, Group.lenValue, hl]

/-- The branch `QMI_DATA_LEN`: the count, and past the value when the count is zero. -/
theorem encodeDataLen_follows {s : EncodeState} (h : s.At bound start outBufLen) {cs : Mem}
    (ei : QmiElemInfo) (bufSrc encLevel : Nat) {v : Nat} (next : List QmiElemInfo)
    (hcount : overlayLow s.dataLenValue (cs.bytes bufSrc ei.elemSize) = v)
    (hskip : v = 0 → skipToNextElem s.tempEi.tail encLevel = (pure next : Encoding _)) :
    Follows bound
      { s.update (dataLenSz ei) with
        dataLenValue := v
        tempEi := if v = 0 then next else s.tempEi.tail
        encodeTlv := decide (v = 0) }
      [sumPiece start s.bufDst (leBytes (dataLenSz ei) v)]
      (encodeDataLen cs ei bufSrc outBufLen encLevel s) := by
  have hwidth : u32 (dataLenSz ei) = dataLenSz ei := by
    apply u32_of_lt
    unfold dataLenSz
    split <;> omega
  have hcheck := h.sum_check (leBytes (dataLenSz ei) v)
  rw [length_leBytes, hwidth] at hcheck
  unfold encodeDataLen
  simp only [hcount]
  apply Follows.check _ ?_ (Chunks.single _ _) hcheck (h.sum_need _) h.sum_empty
  rw [qmiEncodeLocal, Traced.emit_bind, Traced.after_bind, pure_bind]
  by_cases hzero : v = 0
  · have htail : (s.update (dataLenSz ei)).tempEi = s.tempEi.tail := rfl
    simp only [hzero, if_true, htail, hskip hzero, pure_bind]
    simp [EncodeState.update, sumPiece]
  · simp only [hzero, if_false]
    simp [EncodeState.update, sumPiece]

/-- The branches of the basic types. -/
theorem encodeBasic_follows {s : EncodeState} (h : s.At bound start outBufLen) (cs : Mem)
    (ei : QmiElemInfo) (bufSrc : Nat) :
    Follows bound (s.update (s.dataLenValue * ei.elemSize))
      [sumPiece start s.bufDst (cs.bytes bufSrc (s.dataLenValue * ei.elemSize))]
      (encodeBasic cs ei bufSrc outBufLen s) := by
  have hcheck := h.sum_check (cs.bytes bufSrc (s.dataLenValue * ei.elemSize))
  rw [Mem.length_bytes] at hcheck
  obtain ⟨hres, hws⟩ := qmiEncodeBasicElem_spec cs ei.elemSize s.dataLenValue s.bufDst bufSrc
  exact .check _ (Traced.bind_ok hres _) hws hcheck (h.sum_need _) h.sum_empty

/-- The subtraction of the bytes already encoded does not wrap. -/
theorem EncodeState.At.rest {s : EncodeState} (h : s.At bound start outBufLen) :
    u32Sub outBufLen s.encodedBytes = outBufLen - s.encodedBytes :=
  u32Sub_of_le h.room h.len_lt

/-- A step that succeeds is its trace. -/
theorem Traced.eq_after {ε ev : Type} {m : Traced ε ev α} {a : α} (h : m.res = .ok a) :
    m = Traced.after m.trace (pure a) := by
  cases m
  cases h
  simp [Traced.after]

/-- The room that `qmi_encode_string_elem` asks for. -/
def textRoom (cs : Mem) (top : Bool) (ei : QmiElemInfo) (addr : Nat) : Nat :=
  if top then textLen cs ei addr + 3 else u32 (textLen cs ei addr + stringLenSz ei)

/-- `qmi_encode_string_elem`: the two checks, and the bytes. -/
theorem qmiEncodeStringElem_eq (cs : Mem) {ei : QmiElemInfo} {bufDst bufSrc room encLevel : Nat} {top : Bool}
    (htop : encLevel = 1 ↔ top = true) (hsize : ei.elemSize = 1) :
    ∃ ws, Chunks bufDst ws (textBytes cs top ei bufSrc) ∧
      qmiEncodeStringElem cs ei bufDst bufSrc room encLevel =
        if ei.elemLen < textLen cs ei bufSrc then Traced.fail einval
        else if room < textRoom cs top ei bufSrc then Traced.fail einval
        else Traced.after ws (pure (textBytes cs top ei bufSrc).length) := by
  have hlength := length_textBytes cs hsize top bufSrc
  cases top with
  | true =>
      obtain ⟨hres, hws⟩ := qmiEncodeBasicElem_spec cs ei.elemSize (textLen cs ei bufSrc) bufDst bufSrc
      refine ⟨_, hws, ?_⟩
      have hrun := Traced.eq_after hres
      rw [hsize, Nat.mul_one] at hrun
      simp only [if_true, Nat.zero_add] at hlength
      rw [hlength, hsize, ← hrun]
      simp only [qmiEncodeStringElem, htop.mpr rfl, if_true, textRoom, hsize]
      rfl
  | false =>
      have hlevel : ¬ encLevel = 1 := fun hone => Bool.false_ne_true (htop.mp hone)
      obtain ⟨hres, hws⟩ := qmiEncodeBasicElem_spec cs ei.elemSize (textLen cs ei bufSrc)
        (bufDst + stringLenSz ei) bufSrc
      have hchunks : Chunks bufDst (⟨bufDst, leBytes (stringLenSz ei) (textLen cs ei bufSrc)⟩ ::
          (qmiEncodeBasicElem cs ei.elemSize (textLen cs ei bufSrc) (bufDst + stringLenSz ei) bufSrc).trace)
          (textBytes cs false ei bufSrc) := by
        apply Chunks.cons
        rwa [length_leBytes]
      refine ⟨_, hchunks, ?_⟩
      have hrun : (do
          let encodedBytes ← qmiEncodeLocal bufDst (stringLenSz ei) (textLen cs ei bufSrc)
          let rc ← qmiEncodeBasicElem cs ei.elemSize (textLen cs ei bufSrc) (bufDst + encodedBytes) bufSrc
          pure (encodedBytes + rc)) = Traced.after
            (⟨bufDst, leBytes (stringLenSz ei) (textLen cs ei bufSrc)⟩ ::
              (qmiEncodeBasicElem cs ei.elemSize (textLen cs ei bufSrc) (bufDst + stringLenSz ei)
                bufSrc).trace)
            (pure (textBytes cs false ei bufSrc).length) := by
        rw [qmiEncodeLocal, Traced.emit_bind, Traced.after_bind, pure_bind, Traced.bind_ok hres, hlength,
          hsize, Nat.mul_one, Traced.after_after]
        rfl
      rw [← hrun]
      simp only [qmiEncodeStringElem, hlevel, if_false, textRoom]
      rfl

/-- A string at the top level: the check is exact. -/
theorem qmiEncodeStringElem_top (cs : Mem) {ei : QmiElemInfo} {bufDst bufSrc room : Nat}
    (hsize : ei.elemSize = 1) (hlen : textLen cs ei bufSrc ≤ ei.elemLen)
    (hroom : bufDst + room = bound + 3) :
    Follows bound (textBytes cs true ei bufSrc).length [textPiece cs true ei bufSrc bufDst]
      (qmiEncodeStringElem cs ei bufDst bufSrc room 1) := by
  have hlength := length_textBytes cs hsize true bufSrc
  simp only [if_true, Nat.zero_add] at hlength
  obtain ⟨ws, hws, hrun⟩ := qmiEncodeStringElem_eq cs (iff_of_true rfl rfl) hsize
  rw [hrun, if_neg (Nat.not_lt.mpr hlen)]
  apply Follows.check (textPiece cs true ei bufSrc bufDst) rfl hws
  · change room < textLen cs ei bufSrc + 3 ↔ ¬ bufDst + textLen cs ei bufSrc ≤ bound
    omega
  · change bufDst + textLen cs ei bufSrc ≤ bufDst + (textBytes cs true ei bufSrc).length
    rw [hlength]
  · intro hnil
    change bufDst + textLen cs ei bufSrc = bufDst
    have hzero := congrArg List.length hnil
    change (textBytes cs true ei bufSrc).length = 0 at hzero
    omega

/-- A string in a nested structure: the check leaves three bytes too many. -/
theorem qmiEncodeStringElem_nested (cs : Mem) {ei : QmiElemInfo} {bufDst bufSrc room encLevel : Nat}
    (hlevel : 1 < encLevel) (hsize : ei.elemSize = 1) (hlen : textLen cs ei bufSrc ≤ ei.elemLen)
    (hroom : bufDst + room = bound + 3) (hdst : 3 ≤ bufDst) :
    Follows bound (textBytes cs false ei bufSrc).length [textPiece cs false ei bufSrc bufDst]
      (qmiEncodeStringElem cs ei bufDst bufSrc room encLevel) := by
  have hlength := length_textBytes cs hsize false bufSrc
  simp only [Bool.false_eq_true, if_false] at hlength
  have hwidth : 0 < stringLenSz ei := by
    unfold stringLenSz
    split <;> omega
  have hu := u32_le (textLen cs ei bufSrc + stringLenSz ei)
  obtain ⟨ws, hws, hrun⟩ := qmiEncodeStringElem_eq cs
    (iff_of_false (show ¬ encLevel = 1 by omega) Bool.false_ne_true) hsize
  rw [hrun, if_neg (Nat.not_lt.mpr hlen)]
  apply Follows.check (textPiece cs false ei bufSrc bufDst) rfl hws
  · change room < u32 (textLen cs ei bufSrc + stringLenSz ei)
      ↔ ¬ bufDst + u32 (textLen cs ei bufSrc + stringLenSz ei) - 3 ≤ bound
    omega
  · change bufDst + u32 (textLen cs ei bufSrc + stringLenSz ei) - 3
      ≤ bufDst + (textBytes cs false ei bufSrc).length
    omega
  · intro hnil
    have hzero := congrArg List.length hnil
    change (textBytes cs false ei bufSrc).length = 0 at hzero
    omega

/-- The call of `qmi_encode` for a nested structure follows the pieces of the structure. -/
def CallFollows (bound d : Nat) (limit : Nat → Nat) (cs : Mem) (rec : EncodeCall)
    (ei : List QmiElemInfo) (encLevel : Nat) : Prop :=
  ∀ pos addr room, pos + room = bound + 3 → room < 2 ^ 32 → 3 ≤ pos → ValuesFit limit cs d ei addr →
    Follows bound (nestedBytes cs d ei addr).length (nestedPieces cs d ei pos addr)
      (rec ei pos addr room encLevel)

/-- An array of structures, from the byte `encodedBytes` of its encoding on. -/
theorem qmiEncodeStructElem_follows {d encLevel : Nat} {limit : Nat → Nat} {cs : Mem}
    {rec : EncodeCall} {ei : QmiElemInfo} (hcall : CallFollows bound d limit cs rec ei.eiArray encLevel)
    (room n bufDst bufSrc encodedBytes : Nat) (hroom : bufDst + room = bound + 3 + encodedBytes)
    (hle : encodedBytes ≤ room) (hlt : room < 2 ^ 32) (hdst : 3 ≤ bufDst)
    (hfit : ∀ i, i < n → ValuesFit limit cs d ei.eiArray (bufSrc + i * ei.elemSize)) :
    Follows bound
      (encodedBytes +
        (arrayBytes (nestedBytes cs d ei.eiArray) ei.elemSize n bufSrc).length)
      (arrayPieces (nestedBytes cs d ei.eiArray) (nestedPieces cs d ei.eiArray) ei.elemSize n bufDst
        bufSrc)
      (qmiEncodeStructElem rec ei room encLevel n bufDst bufSrc encodedBytes) := by
  induction n generalizing bufDst bufSrc encodedBytes with
  | zero => exact .done
  | succ n ih =>
      have hsub : u32Sub room encodedBytes = room - encodedBytes := u32Sub_of_le hle hlt
      have hfirst := hfit 0 (Nat.succ_pos n)
      rw [Nat.zero_mul, Nat.add_zero] at hfirst
      rw [qmiEncodeStructElem, arrayPieces, arrayBytes, hsub, List.length_append, ← Nat.add_assoc]
      apply Follows.bind (hcall _ _ _ (by omega) (by omega) hdst hfirst)
      intro hps
      have hend := (laid_nested cs d ei.eiArray bufDst bufSrc).end_le hps
        (show bufDst ≤ bound + 3 by omega) (by omega)
      apply ih
      · omega
      · omega
      · omega
      · intro i hi
        have haddr : bufSrc + ei.elemSize + i * ei.elemSize = bufSrc + (i + 1) * ei.elemSize := by
          ring
        rw [haddr]
        exact hfit (i + 1) (by omega)

/-- The part of `ValueFits` about the elements themselves. -/
def ElementsFit (d : Nat) (limit : Nat → Nat) (cs : Mem) (ei : QmiElemInfo) (addr n : Nat) : Prop :=
  match ei.dataType with
  | .struct => ∀ i, i < n → ValuesFit limit cs d ei.eiArray (addr + i * ei.elemSize)
  | .string => textLen cs ei addr ≤ limit ei.elemLen
  | _ => True

/-- The switch at a value. -/
theorem encodeSwitch_value {d encLevel : Nat} {limit : Nat → Nat} {cs : Mem} {rec : EncodeCall}
    {ei : QmiElemInfo} {s : EncodeState} {bufSrc : Nat} {top : Bool}
    (htop : top = decide (encLevel = 1)) (hlevel : 1 ≤ encLevel) (hlimit : ∀ n, limit n ≤ n)
    (h : s.At bound start outBufLen) (hvalue : ei.dataType.IsValue)
    (hstring : ei.dataType = .string → ei.elemSize = 1)
    (hcall : ei.dataType = .struct → CallFollows bound d limit cs rec ei.eiArray (encLevel + 1))
    (hfit : ElementsFit d limit cs ei bufSrc s.dataLenValue) :
    Follows bound
      (s.update (valueBytes (nestedBytes cs d) cs top ei bufSrc s.dataLenValue).length)
      (valuePieces (nestedBytes cs d) (nestedPieces cs d) cs top ei start s.bufDst bufSrc
        s.dataLenValue)
      (encodeSwitch rec cs ei bufSrc outBufLen encLevel s) := by
  have hbuf := h.buf
  have hroom := h.room
  have hbound := h.limit
  have hge := h.start_ge
  have hlt := h.len_lt
  have hbasic := encodeBasic_follows h cs ei bufSrc
  unfold encodeSwitch valuePieces valueBytes ElementsFit at *
  cases htype : ei.dataType with
  | eoti | optFlag | dataLen => simp [htype, QmiElemType.IsValue] at hvalue
  | struct =>
      simp only [htype] at hfit
      have harray := qmiEncodeStructElem_follows (hcall htype) (outBufLen - s.encodedBytes)
        s.dataLenValue s.bufDst bufSrc 0 (by omega) (by omega) (by omega) (by omega) hfit
      rw [Nat.zero_add] at harray
      simp only [encodeStruct, h.rest]
      exact harray.map _
  | string =>
      simp only [htype] at hfit
      have hlen := Nat.le_trans hfit (hlimit _)
      simp only [encodeString, h.rest]
      apply Follows.map
      by_cases hone : encLevel = 1
      · subst hone
        rw [htop]
        exact qmiEncodeStringElem_top cs (hstring htype) hlen (by omega)
      · rw [htop, decide_eq_false hone]
        exact qmiEncodeStringElem_nested cs (by omega) (hstring htype) hlen (by omega) (by omega)
  | _ => simpa using hbasic

/-! ### The end of an iteration -/

/-- The state after the header of a TLV has been written. -/
def EncodeState.flush (s : EncodeState) : EncodeState :=
  { s with
    encodedBytes := s.encodedBytes + 3
    tlvPointer := s.bufDst
    tlvLen := 0
    bufDst := s.bufDst + 3
    encodeTlv := false }

/-- Nothing to write: the TLV is not complete, or the structure is nested. -/
theorem encodeTlvHeader_skip {encLevel : Nat} {s : EncodeState} (type : UInt8)
    (h : ¬ (s.encodeTlv = true ∧ encLevel = 1)) : encodeTlvHeader encLevel type s = pure s :=
  if_neg h

/-- The header of a complete TLV, byte by byte. -/
theorem encodeTlvHeader_eq {s : EncodeState} (type : UInt8) (h : s.encodeTlv = true) :
    ∃ ws, Chunks s.tlvPointer ws (tlvHeader type s.tlvLen) ∧
      encodeTlvHeader 1 type s = Traced.after ws (pure s.flush) := by
  refine ⟨[⟨s.tlvPointer, [type]⟩, ⟨s.tlvPointer + 1, [UInt8.ofNat s.tlvLen]⟩,
    ⟨s.tlvPointer + 2, [UInt8.ofNat (s.tlvLen / 256)]⟩], .cons (.cons (.cons .nil)), ?_⟩
  rw [encodeTlvHeader, if_pos ⟨h, rfl⟩]
  rfl

theorem encodeTlvHeader_follows {s : EncodeState} (type : UInt8) (h : s.encodeTlv = true) :
    Follows bound s.flush [headerPiece type s.tlvLen s.tlvPointer] (encodeTlvHeader 1 type s) := by
  obtain ⟨ws, hws, hrun⟩ := encodeTlvHeader_eq type h
  rw [hrun]
  by_cases hfit : (headerPiece type s.tlvLen s.tlvPointer).Fits bound
  · exact .written hfit hws .done
  · exact .overrun (Nat.zero_le _) hfit (List.cons_ne_nil _ _) hws

/-- A call of `qmi_encode` between two groups; at the top level the header of the next TLV is already
    left free. -/
structure EncodeState.Between (bound start outBufLen : Nat) (top : Bool) (s : EncodeState) : Prop
    extends s.At bound start outBufLen where
  idle : top = true → s.encodeTlv = false ∧ s.tlvLen = 0 ∧ s.tlvPointer + 3 = s.bufDst

/-- The header piece that closes a group, at the top level. -/
def closing (top : Bool) (type : UInt8) (len pos : Nat) : List Piece :=
  if top then [headerPiece type len (pos - 3)] else []

/-- The bytes of a header, at the top level. -/
def closingLen (top : Bool) : Nat := if top then 3 else 0

/-- The iteration that completes a group. `s` is the state before its header, `first` the state in which
    the group began. -/
theorem encodeTlvHeader_close {top : Bool} {encLevel : Nat} {first s : EncodeState} (type : UInt8)
    (len : Nat) (htop : top = decide (encLevel = 1)) (hfirst : first.Between bound start outBufLen top)
    (hs : s.At bound start outBufLen) (hdst : s.bufDst = first.bufDst + len)
    (htlv : top = true → s.encodeTlv = true ∧ s.tlvLen = len ∧ s.tlvPointer = first.tlvPointer)
    (hend : first.bufDst ≤ bound → first.bufDst + len ≤ bound) :
    ∃ s' : EncodeState, s'.tempEi = s.tempEi ∧ s'.bufDst = first.bufDst + len + closingLen top ∧
      Follows bound s' (closing top type len first.bufDst) (encodeTlvHeader encLevel type s) ∧
      ((∀ p ∈ closing top type len first.bufDst, p.Fits bound) →
        s'.Between bound start outBufLen top) := by
  cases top with
  | false =>
      have hlevel : encLevel ≠ 1 := of_decide_eq_false htop.symm
      refine ⟨s, rfl, hdst, ?_, fun _ => ⟨hs, by simp⟩⟩
      rw [encodeTlvHeader_skip type fun h => hlevel h.2]
      exact .done
  | true =>
      have hlevel : encLevel = 1 := of_decide_eq_true htop.symm
      obtain ⟨henc, hlen, hptr⟩ := htlv rfl
      obtain ⟨_, _, hhole⟩ := hfirst.idle rfl
      have hpos : first.bufDst - 3 = s.tlvPointer := by omega
      subst hlevel
      refine ⟨s.flush, rfl, ?_, ?_, ?_⟩
      · change s.bufDst + 3 = _
        rw [hdst]
        rfl
      · have h : Follows bound s.flush [headerPiece type s.tlvLen s.tlvPointer]
            (encodeTlvHeader 1 type s) := encodeTlvHeader_follows type henc
        rw [hlen] at h
        simpa [closing, hpos] using h
      · intro hps
        have hhdr : s.tlvPointer + 3 ≤ bound := by
          have := hps (headerPiece type len (first.bufDst - 3)) (by simp [closing])
          rw [hpos] at this
          exact this
        have hin := hend (by omega)
        refine ⟨⟨?_, ?_, hs.limit, hs.start_ge, hs.len_lt⟩, fun _ => ⟨rfl, rfl, rfl⟩⟩
        · change s.bufDst + 3 = start + (s.encodedBytes + 3)
          rw [hs.buf, Nat.add_assoc]
        · change s.encodedBytes + 3 ≤ outBufLen
          have hbuf := hs.buf
          have hlimit := hs.limit
          omega

/-! ### The loop over a group -/

section Loop

variable {α : Type} {d encLevel base : Nat} {limit : Nat → Nat} {cs : Mem} {rec : EncodeCall} {top : Bool}

/-- An iteration of the loop, at an element that is not the last. -/
theorem qmiEncodeLoop_cons {ei : QmiElemInfo} {rest : List QmiElemInfo} {s : EncodeState}
    (hs : s.tempEi = ei :: rest) (hei : ei.dataType ≠ .eoti) (n : Nat) :
    qmiEncodeLoop rec cs base outBufLen encLevel (n + 1) s =
      qmiEncodeIter rec cs base outBufLen encLevel ei s >>=
        qmiEncodeLoop rec cs base outBufLen encLevel n := by
  rw [qmiEncodeLoop, hs, deref]
  simp [hei]

/-- The loop at the last element. -/
theorem qmiEncodeLoop_nil {ei : QmiElemInfo} {rest : List QmiElemInfo} {s : EncodeState}
    (hs : s.tempEi = ei :: rest) (hei : ei.dataType = .eoti) (n : Nat) :
    qmiEncodeLoop rec cs base outBufLen encLevel (n + 1) s = pure s.encodedBytes := by
  rw [qmiEncodeLoop, hs, deref]
  simp [hei]

theorem QmiElemType.IsValue.ne_eoti {t : QmiElemType} (h : t.IsValue) : t ≠ .eoti := by
  intro he
  subst he
  exact h

/-- The iteration at the count of a group. -/
theorem qmiEncodeIter_len {g : Group} {l : QmiElemInfo} (hshape : g.Shaped)
    (hrules : g.Encodable encLevel) (hl : g.len? = some l) (s : EncodeState) :
    qmiEncodeIter rec cs base outBufLen encLevel l s =
      encodeDataLen cs l (base + l.offset) outBufLen encLevel { s with dataLenValue := 1 } >>=
        encodeTlvHeader encLevel l.tlvType := by
  rw [qmiEncodeIter, encodeCount, hrules.len_array l hl, pure_bind, encodeSwitch, hshape.len l hl]

/-- The count that the code computes for the value of a group. -/
theorem encodeCount_value {g : Group} {limit : Nat → Nat} {dataLenValue : Nat}
    (hrules : g.Encodable encLevel)
    (hfit : g.ValueFits (ValuesFit limit cs d) limit cs base)
    (hlen : g.len? ≠ none → dataLenValue = g.lenValue cs base ∧ g.lenValue cs base ≠ 0) :
    encodeCount g.value dataLenValue = pure (g.count cs base) := by
  unfold encodeCount Group.count
  cases harray : g.value.arrayType with
  | noArray | staticArray => rfl
  | varLenArray =>
      obtain ⟨hval, hne⟩ := hlen (hrules.var_len harray)
      have hle := hfit.1 harray
      simp only [hval]
      rw [if_neg]
      omega

/-- The end of a group: its header, and the loop behind it. -/
theorem loop_close {rest : List QmiElemInfo} {first s : EncodeState} (type : UInt8)
    (len fuel total : Nat) (ps : List Piece) (htop : top = decide (encLevel = 1))
    (hfirst : first.Between bound start outBufLen top) (hs : s.At bound start outBufLen)
    (htemp : s.tempEi = rest) (hdst : s.bufDst = first.bufDst + len)
    (htlv : top = true → s.encodeTlv = true ∧ s.tlvLen = len ∧ s.tlvPointer = first.tlvPointer)
    (hend : first.bufDst ≤ bound → first.bufDst + len ≤ bound)
    (hrest : ∀ s' : EncodeState, s'.tempEi = rest → s'.Between bound start outBufLen top →
      s'.bufDst = first.bufDst + len + closingLen top →
      Follows bound total ps (qmiEncodeLoop rec cs base outBufLen encLevel fuel s')) :
    Follows bound total (closing top type len first.bufDst ++ ps)
      (encodeTlvHeader encLevel type s >>= qmiEncodeLoop rec cs base outBufLen encLevel fuel) := by
  obtain ⟨s', htemp', hdst', hclose, hbetween⟩ :=
    encodeTlvHeader_close type len htop hfirst hs hdst htlv hend
  apply hclose.bind
  intro hps
  exact hrest s' (htemp'.trans htemp) (hbetween hps) hdst'

section Group

variable {g : Group} (htop : top = decide (encLevel = 1)) (hlevel : 1 ≤ encLevel)
  (hlimit : ∀ n, limit n ≤ n) (hshape : g.Shaped) (hrules : g.Encodable encLevel)
  (hcall : g.value.dataType = .struct →
    CallFollows bound d limit cs rec g.value.eiArray (encLevel + 1))

include htop hlevel hlimit hshape hrules hcall

/-- The value of a group, its count already read; `done` bytes of the group are written. -/
theorem loop_value {rest : List QmiElemInfo} {first s : EncodeState} {n : Nat}
    (done fuel total : Nat) (ps : List Piece)
    (hfirst : first.Between bound start outBufLen top) (hs : s.At bound start outBufLen)
    (htemp : s.tempEi = g.value :: rest) (hdst : s.bufDst = first.bufDst + done)
    (htlv : top = true → s.tlvLen = done ∧ s.tlvPointer = first.tlvPointer)
    (hdone : first.bufDst ≤ bound → first.bufDst + done ≤ bound)
    (hcount : encodeCount g.value s.dataLenValue = pure n)
    (hfit : ElementsFit d limit cs g.value (base + g.value.offset) n)
    (hrest : ∀ s' : EncodeState, s'.tempEi = rest → s'.Between bound start outBufLen top →
      s'.bufDst = first.bufDst + (done + (valueBytes (nestedBytes cs d) cs top g.value
        (base + g.value.offset) n).length) + closingLen top →
      Follows bound total ps (qmiEncodeLoop rec cs base outBufLen encLevel fuel s')) :
    Follows bound total
      (valuePieces (nestedBytes cs d) (nestedPieces cs d) cs top g.value start s.bufDst
          (base + g.value.offset) n ++
        (closing top g.value.tlvType (done + (valueBytes (nestedBytes cs d) cs top g.value
          (base + g.value.offset) n).length) first.bufDst ++ ps))
      (qmiEncodeLoop rec cs base outBufLen encLevel (fuel + 1) s) := by
  rw [qmiEncodeLoop_cons htemp hshape.value.ne_eoti, qmiEncodeIter, hcount, pure_bind, bind_assoc]
  have hs' : EncodeState.At bound start outBufLen { s with dataLenValue := n } := hs.congr rfl rfl
  apply Follows.bind (encodeSwitch_value htop hlevel hlimit hs' hshape.value hrules.string_size hcall
    hfit)
  intro hps
  have hlaid := laid_value cs (laid_nested cs d) top g.value start s.bufDst (base + g.value.offset) n
  have hbuf := hs.buf
  have hroom := hs.room
  have hbound := hs.limit
  have hin := hlaid.end_le hps (show s.bufDst ≤ bound + 3 by omega) (by omega)
  apply loop_close _ _ _ _ _ htop hfirst (hs'.update hin) ?_ ?_ ?_ ?_ hrest
  · change s.tempEi.tail = rest
    rw [htemp, List.tail_cons]
  · change s.bufDst + _ = _
    rw [hdst, Nat.add_assoc]
  · intro ht
    obtain ⟨hlen, hptr⟩ := htlv ht
    refine ⟨rfl, ?_, hptr⟩
    change s.tlvLen + _ = _
    rw [hlen]
  · intro hle
    have := hlaid.end_le hps (hdst ▸ hdone hle) (Nat.le_refl _)
    omega

/-- The loop over a group with a count: the value follows unless the count is zero. -/
theorem loop_counted {l : QmiElemInfo} {rest : List QmiElemInfo} {s : EncodeState}
    (fuel total : Nat) (ps : List Piece)
    (hfit : g.ValueFits (ValuesFit limit cs d) limit cs base) (hl : g.len? = some l)
    (htypes : top = true → l.tlvType = g.value.tlvType)
    (hskip : skipToNextElem (g.value :: rest) encLevel = (pure rest : Encoding _))
    (hs : s.Between bound start outBufLen top) (htemp : s.tempEi = l :: g.value :: rest)
    (hfuel : rest.length + 2 ≤ fuel)
    (hrest : ∀ (fuel : Nat) (s' : EncodeState), rest.length ≤ fuel → s'.tempEi = rest →
      s'.Between bound start outBufLen top →
      s'.bufDst = s.bufDst + (g.payload (nestedBytes cs d) cs top base).length + closingLen top →
      Follows bound total ps (qmiEncodeLoop rec cs base outBufLen encLevel fuel s')) :
    Follows bound total
      (g.payloadPieces (nestedBytes cs d) (nestedPieces cs d) cs top start s.bufDst base ++
        (closing top g.value.tlvType (g.payload (nestedBytes cs d) cs top base).length s.bufDst ++ ps))
      (qmiEncodeLoop rec cs base outBufLen encLevel fuel s) := by
  have hfront : g.countPrefix cs base = leBytes (dataLenSz l) (g.lenValue cs base) := by
    simp [Group.countPrefix, hl]
  obtain ⟨fuel, rfl⟩ : ∃ f, fuel = f + 1 := ⟨fuel - 1, by omega⟩
  have hs1 : EncodeState.At bound start outBufLen { s with dataLenValue := 1 } := hs.congr rfl rfl
  have hcheck := encodeDataLen_follows hs1 l (base + l.offset) encLevel rest
    (hrules.overlay_count hl cs base) (fun _ => by rwa [htemp, List.tail_cons])
  rw [qmiEncodeLoop_cons htemp (by simp [hshape.len l hl]), qmiEncodeIter_len hshape hrules hl, bind_assoc]
  simp only [Group.payloadPieces, Group.payload, hl, hfront, Option.isSome_some, if_true]
  rw [List.append_assoc]
  apply hcheck.bind
  intro hps
  have hin : s.bufDst + dataLenSz l ≤ bound := by
    have := hps _ List.mem_cons_self
    simpa [Piece.Fits, sumPiece] using this
  have hs2 := hs1.update (Nat.le_trans hin (Nat.le_add_right _ _))
  have htlv : top = true → s.tlvLen + dataLenSz l = dataLenSz l := by
    intro ht
    rw [(hs.idle ht).2.1, Nat.zero_add]
  by_cases hzero : g.lenValue cs base = 0
  · have hvalue : g.hasValue cs base = false := by simp [Group.hasValue, hl, hzero]
    have htype : closing top g.value.tlvType (dataLenSz l) s.bufDst
        = closing top l.tlvType (dataLenSz l) s.bufDst := by
      cases top with
      | false => rfl
      | true => rw [htypes rfl]
    simp only [hvalue, hzero, Bool.false_eq_true, if_false, if_true, List.nil_append,
      List.append_nil, length_leBytes, decide_true, htype]
    apply loop_close _ _ _ _ _ htop hs
    · exact hs2.congr rfl rfl
    · rfl
    · rfl
    · exact fun ht => ⟨rfl, htlv ht, rfl⟩
    · exact fun _ => hin
    · intro s' htemp' hbetween hdst
      apply hrest fuel s' (by omega) htemp' hbetween
      simpa [Group.payload, hfront, hvalue] using hdst
  · have hvalue : g.hasValue cs base = true := by simp [Group.hasValue, hl, hzero]
    simp only [hvalue, hzero, if_false, if_true, List.length_append, length_leBytes, decide_false]
    obtain ⟨fuel, rfl⟩ : ∃ f, fuel = f + 1 := ⟨fuel - 1, by omega⟩
    rw [encodeTlvHeader_skip _ (by simp), pure_bind]
    apply loop_value htop hlevel hlimit hshape hrules hcall (dataLenSz l) fuel total ps hs
      (s := { EncodeState.update { s with dataLenValue := 1 } (dataLenSz l) with
        dataLenValue := g.lenValue cs base
        tempEi := s.tempEi.tail
        encodeTlv := false })
    · exact hs2.congr rfl rfl
    · rw [htemp, List.tail_cons]
    · rfl
    · exact fun ht => ⟨htlv ht, rfl⟩
    · exact fun _ => hin
    · exact encodeCount_value hrules hfit fun _ => ⟨rfl, hzero⟩
    · exact hfit.2 hvalue
    · intro s' htemp' hbetween hdst
      apply hrest fuel s' (by omega) htemp' hbetween
      simpa [Group.payload, hfront, hvalue] using hdst

/-- The loop over a group, its flag already passed. -/
theorem loop_group (rest : List QmiElemInfo) {s : EncodeState} (fuel total : Nat) (ps : List Piece)
    (hfit : g.ValueFits (ValuesFit limit cs d) limit cs base)
    (htypes : ∀ l, top = true → g.len? = some l → l.tlvType = g.value.tlvType)
    (hskip : skipToNextElem (g.value :: rest) encLevel = (pure rest : Encoding _))
    (hs : s.Between bound start outBufLen top) (htemp : s.tempEi = g.unflagged.elems ++ rest)
    (hfuel : g.unflagged.elems.length + rest.length ≤ fuel)
    (hrest : ∀ (fuel : Nat) (s' : EncodeState), rest.length ≤ fuel → s'.tempEi = rest →
      s'.Between bound start outBufLen top →
      s'.bufDst = s.bufDst + (g.payload (nestedBytes cs d) cs top base).length + closingLen top →
      Follows bound total ps (qmiEncodeLoop rec cs base outBufLen encLevel fuel s')) :
    Follows bound total
      (g.payloadPieces (nestedBytes cs d) (nestedPieces cs d) cs top start s.bufDst base ++
        (closing top g.value.tlvType (g.payload (nestedBytes cs d) cs top base).length s.bufDst ++ ps))
      (qmiEncodeLoop rec cs base outBufLen encLevel fuel s) := by
  cases hl : g.len? with
  | none =>
      rw [Group.unflagged_elems_of_none hl] at htemp hfuel
      have hvalue : g.hasValue cs base = true := by simp [Group.hasValue, hl]
      have hfront : g.countPrefix cs base = [] := by simp [Group.countPrefix, hl]
      rw [List.length_singleton] at hfuel
      obtain ⟨fuel, rfl⟩ : ∃ f, fuel = f + 1 := ⟨fuel - 1, by omega⟩
      simp only [Group.payloadPieces, Group.payload, hl, hvalue, hfront, Option.isSome_none,
        Bool.false_eq_true, if_false, if_true, List.nil_append, List.length_nil, Nat.add_zero]
      have hmain := loop_value htop hlevel hlimit hshape hrules hcall 0 fuel total ps hs hs.toAt htemp
        rfl (fun ht => ⟨(hs.idle ht).2.1, rfl⟩) id
        (encodeCount_value hrules hfit (fun h => absurd hl h)) (hfit.2 hvalue)
      rw [Nat.zero_add] at hmain
      apply hmain
      intro s' htemp' hbetween hdst
      apply hrest fuel s' (by omega) htemp' hbetween
      simpa [Group.payload, hfront, hvalue] using hdst
  | some l =>
      rw [Group.unflagged_elems_of_len hl] at htemp hfuel
      simp only [List.length_cons, List.length_nil] at hfuel
      exact loop_counted htop hlevel hlimit hshape hrules hcall fuel total ps hfit hl
        (fun ht => htypes l ht hl) hskip hs htemp (by omega) hrest

end Group

/-- The loop over the fields `gs` of a nested structure. -/
theorem loop_nested {gs : List Group} {eoti : QmiElemInfo} (hend : eoti.dataType = .eoti)
    (hlevel : 1 < encLevel) (hlimit : ∀ n, limit n ≤ n) (hshape : ∀ g ∈ gs, g.Shaped)
    (hrules : EncodeRules encLevel gs eoti)
    (hcall : ∀ g ∈ gs, g.value.dataType = .struct →
      CallFollows bound d limit cs rec g.value.eiArray (encLevel + 1))
    (hfit : ∀ g ∈ gs, g.ValueFits (ValuesFit limit cs d) limit cs base) {s : EncodeState} {fuel : Nat}
    (hs : s.Between bound start outBufLen false) (htemp : s.tempEi = flatten gs eoti)
    (hfuel : (flatten gs eoti).length ≤ fuel) :
    Follows bound
      (s.encodedBytes + (gs.flatMap (Group.payload (nestedBytes cs d) cs false base)).length)
      (fieldPieces (nestedBytes cs d) (nestedPieces cs d) cs start base s.bufDst gs)
      (qmiEncodeLoop rec cs base outBufLen encLevel fuel s) := by
  induction gs generalizing s fuel with
  | nil =>
      obtain ⟨fuel, rfl⟩ : ∃ f, fuel = f + 1 := ⟨fuel - 1, by simp at hfuel; omega⟩
      rw [qmiEncodeLoop_nil htemp hend]
      exact .done
  | cons g gs ih =>
      have htop : false = decide (encLevel = 1) := by
        rw [decide_eq_false (by omega)]
      have hg := hrules.1 g List.mem_cons_self
      have hflag := Group.unflagged_of_none (hg.flag_top hlevel)
      rw [flatten_cons] at htemp hfuel
      rw [List.length_append] at hfuel
      have hgroup := loop_group htop (by omega) hlimit (hshape g List.mem_cons_self) hg
        (hcall g List.mem_cons_self) (flatten gs eoti) fuel
        (s.encodedBytes +
          ((g :: gs).flatMap (Group.payload (nestedBytes cs d) cs false base)).length)
        (fieldPieces (nestedBytes cs d) (nestedPieces cs d) cs start base
          (s.bufDst + (g.payload (nestedBytes cs d) cs false base).length) gs)
        (hfit g List.mem_cons_self) (fun _ h => by cases h) (hrules.skip_value hlevel.le) hs
        (by rwa [hflag]) (by rwa [hflag])
      simp only [closing, closingLen, Bool.false_eq_true, if_false, List.nil_append, Nat.add_zero]
        at hgroup
      apply hgroup
      intro fuel' s' hfuel' htemp' hbetween hdst
      have hrest := ih (fun g' hg' => hshape g' (List.mem_cons_of_mem _ hg')) hrules.tail
        (fun g' hg' => hcall g' (List.mem_cons_of_mem _ hg'))
        (fun g' hg' => hfit g' (List.mem_cons_of_mem _ hg')) hbetween htemp' hfuel'
      have hbuf := hs.buf
      have hbuf' := hbetween.buf
      have hcount : s'.encodedBytes
          = s.encodedBytes + (g.payload (nestedBytes cs d) cs false base).length := by
        omega
      rw [List.flatMap_cons, List.length_append, ← Nat.add_assoc, ← hcount, ← hdst]
      exact hrest

/-- The iteration at the flag of a group only moves on: into the group, or past it. -/
theorem iter_flag {g : Group} {gs : List Group} {eoti f : QmiElemInfo} {s : EncodeState}
    (rec : EncodeCall) (outBufLen : Nat) (hidle : s.encodeTlv = false) (hshape : g.Shaped)
    (hrules : EncodeRules 1 (g :: gs) eoti) (hf : g.flag? = some f)
    (htemp : s.tempEi = g.elems ++ flatten gs eoti) :
    ∃ c, qmiEncodeIter rec cs base outBufLen 1 f s =
      pure { s with
        dataLenValue := c
        tempEi := if g.present cs base then g.unflagged.elems ++ flatten gs eoti else flatten gs eoti } := by
  obtain ⟨c, hcount⟩ : ∃ c, encodeCount f s.dataLenValue = pure c := by
    unfold encodeCount
    cases harray : f.arrayType with
    | noArray | staticArray => exact ⟨_, rfl⟩
    | varLenArray => exact absurd harray ((hrules.1 g List.mem_cons_self).flag_array f hf)
  have helems := Group.elems_of_flag hf
  have hskip := hrules.skip_elems g.elems (by simp [helems]) fun _ he => he
  rw [← htemp] at hskip
  obtain ⟨next, hnext⟩ : ∃ next, next = if g.present cs base then g.unflagged.elems ++ flatten gs eoti
      else flatten gs eoti := ⟨_, rfl⟩
  have hflag : encodeOptFlag cs (base + f.offset) 1 { s with dataLenValue := c } =
      pure { s with dataLenValue := c, tempEi := next } := by
    rw [hnext]
    by_cases hclear : cs (base + f.offset) = 0
    · simp [encodeOptFlag, Group.present, hf, hclear, hskip]
    · simp [encodeOptFlag, Group.present, hf, hclear, htemp, helems]
  refine ⟨c, ?_⟩
  rw [qmiEncodeIter, hcount, pure_bind, encodeSwitch, hshape.flag f hf, ← hnext]
  simp only [hflag, pure_bind]
  exact encodeTlvHeader_skip _ (by simp [hidle])

/-- A present group of a message, its flag already passed. -/
theorem loop_unflagged {g : Group} {gs : List Group} {eoti : QmiElemInfo} (hlimit : ∀ n, limit n ≤ n)
    (hshape : g.Shaped) (hrules : EncodeRules 1 (g :: gs) eoti)
    (hcall : g.value.dataType = .struct → CallFollows bound d limit cs rec g.value.eiArray 2)
    (hfit : g.ValueFits (ValuesFit limit cs d) limit cs base) (hpresent : g.present cs base = true)
    (hrest : ∀ (s : EncodeState) (fuel : Nat), s.Between bound start outBufLen true →
      s.tempEi = flatten gs eoti → (flatten gs eoti).length ≤ fuel →
      Follows bound (s.encodedBytes + (tlvBytes cs d base gs).length)
        (tlvsPieces cs d start base (s.bufDst - 3) gs)
        (qmiEncodeLoop rec cs base outBufLen 1 fuel s))
    (s : EncodeState) (fuel : Nat) (hs : s.Between bound start outBufLen true)
    (htemp : s.tempEi = g.unflagged.elems ++ flatten gs eoti)
    (hfuel : g.unflagged.elems.length + (flatten gs eoti).length ≤ fuel) :
    Follows bound (s.encodedBytes + (tlvBytes cs d base (g :: gs)).length)
      (tlvsPieces cs d start base (s.bufDst - 3) (g :: gs))
      (qmiEncodeLoop rec cs base outBufLen 1 fuel s) := by
  obtain ⟨hsame, _, _⟩ := hrules.2 rfl
  have hbuf := hs.buf
  have hge := hs.start_ge
  have hbody : g.payload (nestedBytes cs d) cs true base = g.body cs d base := rfl
  have htlv : (g.tlv cs d base).length = 3 + (g.body cs d base).length := by
    simp [Group.tlv, tlvHeader]
    omega
  have hbytes : tlvBytes cs d base (g :: gs) = g.tlv cs d base ++ tlvBytes cs d base gs := by
    simp [tlvBytes, hpresent]
  have hgroup := loop_group (by simp) (Nat.le_refl 1) hlimit hshape
    (hrules.1 g List.mem_cons_self) hcall (flatten gs eoti) fuel
    (s.encodedBytes + (tlvBytes cs d base (g :: gs)).length)
    (tlvsPieces cs d start base (s.bufDst - 3 + (g.tlv cs d base).length) gs) hfit
    (fun l _ hl => hsame l (by simp [Group.elems, hl])) (hrules.skip_value (Nat.le_refl 1)) hs htemp
    hfuel
  rw [tlvsPieces, if_pos hpresent, Group.tlvPieces, List.append_assoc]
  have hpos : s.bufDst - 3 + 3 = s.bufDst := by omega
  rw [hpos]
  apply hgroup
  intro fuel' s' hfuel' htemp' hbetween hdst
  have hbuf' := hbetween.buf
  rw [hbody] at hdst
  have hnext : s.bufDst - 3 + (g.tlv cs d base).length = s'.bufDst - 3 := by
    simp only [closingLen, if_true] at hdst
    omega
  have hcount : s'.encodedBytes = s.encodedBytes + (g.tlv cs d base).length := by
    simp only [closingLen, if_true] at hdst
    omega
  rw [hnext, hbytes, List.length_append, ← Nat.add_assoc, ← hcount]
  exact hrest s' fuel' hbetween htemp' hfuel'

/-- The loop over the groups `gs` of a message. -/
theorem loop_message {gs : List Group} {eoti : QmiElemInfo} (hend : eoti.dataType = .eoti)
    (hlimit : ∀ n, limit n ≤ n) (hshape : ∀ g ∈ gs, g.Shaped)
    (hrules : EncodeRules 1 gs eoti)
    (hcall : ∀ g ∈ gs, g.value.dataType = .struct →
      CallFollows bound d limit cs rec g.value.eiArray 2)
    (hfit : ∀ g ∈ gs, g.present cs base = true →
      g.ValueFits (ValuesFit limit cs d) limit cs base) (s : EncodeState) (fuel : Nat)
    (hs : s.Between bound start outBufLen true) (htemp : s.tempEi = flatten gs eoti)
    (hfuel : (flatten gs eoti).length ≤ fuel) :
    Follows bound (s.encodedBytes + (tlvBytes cs d base gs).length)
      (tlvsPieces cs d start base (s.bufDst - 3) gs)
      (qmiEncodeLoop rec cs base outBufLen 1 fuel s) := by
  induction gs generalizing s fuel with
  | nil =>
      obtain ⟨fuel, rfl⟩ : ∃ f, fuel = f + 1 := ⟨fuel - 1, by simp at hfuel; omega⟩
      rw [qmiEncodeLoop_nil htemp hend]
      exact .done
  | cons g gs ih =>
      have ih' := ih (fun g' hg' => hshape g' (List.mem_cons_of_mem _ hg')) hrules.tail
        (fun g' hg' => hcall g' (List.mem_cons_of_mem _ hg'))
        (fun g' hg' => hfit g' (List.mem_cons_of_mem _ hg'))
      rw [flatten_cons] at htemp hfuel
      rw [List.length_append] at hfuel
      have hvalue := fun hpresent => loop_unflagged hlimit (hshape g List.mem_cons_self) hrules
        (hcall g List.mem_cons_self) (hfit g List.mem_cons_self hpresent) hpresent ih'
      cases hf : g.flag? with
      | none =>
          have hflag := Group.unflagged_of_none hf
          have hpresent : g.present cs base = true := by simp [Group.present, hf]
          exact hvalue hpresent s fuel hs (by rwa [hflag]) (by rwa [hflag])
      | some f =>
          have hg := hshape g List.mem_cons_self
          obtain ⟨c, hiter⟩ := iter_flag rec outBufLen (hs.idle rfl).1 hg hrules hf htemp
          have hs' : ∀ next, EncodeState.Between bound start outBufLen true
              { s with dataLenValue := c, tempEi := next } := fun _ => ⟨hs.congr rfl rfl, hs.idle⟩
          rw [Group.elems_of_flag hf] at htemp hfuel
          rw [List.length_cons] at hfuel
          obtain ⟨fuel, rfl⟩ : ∃ f, fuel = f + 1 := ⟨fuel - 1, by omega⟩
          rw [qmiEncodeLoop_cons htemp (by simp [hg.flag f hf]), hiter, pure_bind]
          cases hpresent : g.present cs base with
          | true => exact hvalue hpresent _ fuel (hs' _) rfl (by omega)
          | false =>
              have hbytes : tlvBytes cs d base (g :: gs) = tlvBytes cs d base gs := by
                simp [tlvBytes, hpresent]
              rw [hbytes, tlvsPieces, hpresent]
              exact ih' _ fuel (hs' _) rfl (by omega)

end Loop

end Iteration

/-! ### The encoder -/

/-- A nested structure. -/
theorem qmiEncode_nested {bound : Nat} {limit : Nat → Nat} (cs : Mem) (hlimit : ∀ n, limit n ≤ n)
    {level : Nat} {ei : List QmiElemInfo} (h : Described EncodeRules level ei) (hlevel : 1 < level)
    {d : Nat} (hd : nestDepth ei ≤ d) : CallFollows bound d limit cs (qmiEncode cs d) ei level := by
  induction h generalizing d with
  | @mk level gs eoti hend hshape hP hnest ih =>
      intro pos addr room hroom hlt hpos hfit
      obtain ⟨d, rfl⟩ := exists_eq_succ_of_nestDepth_le hd
      have hne : (flatten gs eoti).isEmpty = false := by simp [flatten]
      have hone : level ≠ 1 := by omega
      rw [ValuesFit, groups_flatten hend hshape] at hfit
      rw [qmiEncode, hne, nestedBytes, nestedPieces, groups_flatten hend hshape]
      have hs : (EncodeState.init (flatten gs eoti) pos level).Between bound pos room false := by
        refine ⟨⟨?_, Nat.zero_le _, hroom, hpos, hlt⟩, by simp⟩
        simp [EncodeState.init, hone]
      have hmain := loop_nested hend hlevel hlimit hshape hP
        (fun g hg hstruct => ih g hg hstruct (by omega) (nestDepth_value hg hd))
        (fun g hg => hfit g hg ((hP.1 g hg).present hlevel cs addr)) hs rfl
        (Nat.le_refl _)
      simpa [EncodeState.init, hone] using hmain

/-- The encoder at level 1 follows the pieces of the message. -/
theorem qmiEncode_message {limit : Nat → Nat} (cs : Mem) (hlimit : ∀ n, limit n ≤ n)
    {ei : List QmiElemInfo} (h : Described EncodeRules 1 ei) (outBuf : Nat) {base outBufLen : Nat}
    (hlen : outBufLen < 2 ^ 32) (hfit : ValuesFit limit cs (nestDepth ei) ei base) :
    Follows (outBuf + outBufLen) (messageBytes cs ei base).length (messagePieces cs ei outBuf base)
      (qmiEncode cs (nestDepth ei) ei outBuf base outBufLen 1) := by
  obtain ⟨d, hd⟩ := exists_eq_succ_of_nestDepth_le (Nat.le_refl (nestDepth ei))
  rw [messageBytes, messagePieces, hd, Nat.add_sub_cancel]
  rw [hd] at hfit
  cases h with
  | @mk _ gs eoti hend hshape hP hnest =>
      have hne : (flatten gs eoti).isEmpty = false := by simp [flatten]
      rw [ValuesFit, groups_flatten hend hshape] at hfit
      rw [qmiEncode, hne, groups_flatten hend hshape]
      have hs : (EncodeState.init (flatten gs eoti) outBuf 1).Between (outBuf + outBufLen)
          (outBuf + 3) outBufLen true := by
        refine ⟨⟨?_, Nat.zero_le _, ?_, ?_, hlen⟩, fun _ => ⟨rfl, rfl, rfl⟩⟩
        · rfl
        · omega
        · omega
      have hmain := loop_message hend hlimit hshape hP
        (fun g hg hstruct =>
          qmiEncode_nested cs hlimit (hnest g hg hstruct) (by omega) (nestDepth_value hg hd.le)) hfit
        _ _ hs rfl (Nat.le_refl _)
      simpa [EncodeState.init] using hmain

end Qrtr
