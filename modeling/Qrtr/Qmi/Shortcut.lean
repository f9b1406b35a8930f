/-
Module: Qrtr.Qmi.Shortcut
Layer: Qmi
Purpose: The call of `qmi_encode_message` without a structure. `qmi_calc_min_msg_len` adds up what every
  field without a flag takes when it is full, in an `int`; `minLen` is the sum itself. No structure at all
  is accepted when the `int` is zero, and a structure encodes to nothing exactly when every field has a
  flag, that is when the sum is zero. The two agree unless the sum wraps around to zero.
Imports: Qmi.RoundTrip, Qmi.Refusal
Main exports: minLen, qmiCalcMinMsgLen_eq, ShortcutAgrees, shortcutAgrees_iff
Open obligations: none
-/
import Qrtr.Qmi.RoundTrip
import Qrtr.Qmi.Refusal

namespace Qrtr

/-! ### The minimal length -/

/-- What a value takes when it is full, one structure standing for all elements of an array. -/
def QmiElemInfo.minLen (nested : List QmiElemInfo → Nat) (top : Bool) (ei : QmiElemInfo) : Nat :=
  match ei.dataType with
  | .struct => nested ei.eiArray
  | .string => (if top then 0 else stringLenSz ei) + ei.elemLen * ei.elemSize
  | _ => ei.elemLen * ei.elemSize

/-- What a group takes, with the header of its TLV at the top level. -/
def Group.minLen (nested : List QmiElemInfo → Nat) (top : Bool) (g : Group) : Nat :=
  (match g.len? with
    | none => 0
    | some l => dataLenSz l) + g.value.minLen nested top + if top then 3 else 0

/-- What the groups without a flag take. -/
def groupsMinLen (nested : List QmiElemInfo → Nat) (top : Bool) (gs : List Group) : Nat :=
  ((gs.filter fun g => g.flag?.isNone).map (Group.minLen nested top)).sum

/-- What the fields without a flag take, at every level. -/
def minLen : Nat → Bool → List QmiElemInfo → Nat
  | 0, _, _ => 0
  | d + 1, top, ei => groupsMinLen (minLen d false) top (groups ei)

theorem u32_add_left (a b : Nat) : u32 (u32 a + b) = u32 (a + b) := Nat.mod_add_mod a (2 ^ 32) b

section Loop

variable {rec : List QmiElemInfo → Nat → Encoding Nat} {nested : List QmiElemInfo → Nat} {level : Nat}
  {top : Bool}

/-- The iteration at a value. -/
theorem calcLoop_value {ei : QmiElemInfo} (htop : top = decide (level = 1)) (hlevel : 1 ≤ level)
    (hvalue : ei.dataType.IsValue)
    (hrec : ei.dataType = .struct → rec ei.eiArray (level + 1) = pure (u32 (nested ei.eiArray)))
    (rest : List QmiElemInfo) (n acc : Nat) :
    qmiCalcMinMsgLenLoop rec level (n + 1) (ei :: rest) (u32 acc) =
      qmiCalcMinMsgLenLoop rec level n rest
        (u32 (acc + ei.minLen nested top + if top then 3 else 0)) := by
  have hheader : (if top then 3 else 0) = if level = 1 then 3 else 0 := by
    rw [htop]
    by_cases hone : level = 1 <;> simp [hone]
  rw [qmiCalcMinMsgLenLoop, deref, pure_bind, hheader]
  unfold QmiElemInfo.minLen
  cases htype : ei.dataType with
  | eoti | optFlag | dataLen => simp [htype, QmiElemType.IsValue] at hvalue
  | struct =>
      have hsum : ∀ a b c : Nat, u32 (u32 a + u32 b + c) = u32 (a + b + c) := by
        intro a b c
        unfold u32
        omega
      simp only [htype, hrec htype, pure_bind, hsum]
  | string =>
      have hwidth : (if 1 < level then stringLenSz ei else 0) = if top then 0 else stringLenSz ei := by
        rw [htop]
        by_cases hone : level = 1
        · simp [hone]
        · have hdeep : 1 < level := by omega
          simp [hone, hdeep]
      simp only [htype, hwidth, Nat.add_assoc, u32_add_left]
  | _ => simp only [htype, Nat.add_assoc, u32_add_left]

/-- The loop over the groups. -/
theorem calcLoop_groups {gs : List Group} {eoti : QmiElemInfo} (hend : eoti.dataType = .eoti)
    (htop : top = decide (level = 1)) (hlevel : 1 ≤ level) (hshape : ∀ g ∈ gs, g.Shaped)
    (hrules : EncodeRules level gs eoti)
    (hrec : ∀ g ∈ gs, g.value.dataType = .struct →
      rec g.value.eiArray (level + 1) = pure (u32 (nested g.value.eiArray)))
    (n acc : Nat) (hn : (flatten gs eoti).length ≤ n) :
    qmiCalcMinMsgLenLoop rec level n (flatten gs eoti) (u32 acc) =
      pure (u32 (acc + groupsMinLen nested top gs)) := by
  induction gs generalizing n acc with
  | nil =>
      obtain ⟨n, rfl⟩ : ∃ k, n = k + 1 := ⟨n - 1, by simp at hn; omega⟩
      rw [flatten_nil, qmiCalcMinMsgLenLoop, deref, pure_bind]
      simp [hend, groupsMinLen]
  | cons g gs ih =>
      have hg := hshape g List.mem_cons_self
      have hrest := ih (fun g' hg' => hshape g' (List.mem_cons_of_mem _ hg')) hrules.tail
        (fun g' hg' => hrec g' (List.mem_cons_of_mem _ hg'))
      rw [flatten_cons, List.length_append] at hn
      cases hf : g.flag? with
      | some f =>
          have hone := (hrules.1 g List.mem_cons_self).level_of_flag hlevel hf
          have helems := Group.elems_of_flag hf
          subst hone
          have hskip := hrules.skip_elems g.elems (by simp [helems]) fun _ he => he
          have hlen : 0 < g.elems.length := g.length_elems_pos
          obtain ⟨n, rfl⟩ : ∃ k, n = k + 1 := ⟨n - 1, by omega⟩
          have hsum : groupsMinLen nested top (g :: gs) = groupsMinLen nested top gs := by
            simp [groupsMinLen, hf]
          rw [hsum, ← hrest n acc (by omega), flatten_cons]
          rw [helems] at hskip ⊢
          rw [List.cons_append] at hskip ⊢
          rw [qmiCalcMinMsgLenLoop, deref, pure_bind]
          simp only [hg.flag f hf, hskip, pure_bind]
      | none =>
          have hsum : groupsMinLen nested top (g :: gs)
              = g.minLen nested top + groupsMinLen nested top gs := by
            simp [groupsMinLen, hf]
          have hvalue := calcLoop_value htop hlevel hg.value (hrec g List.mem_cons_self)
            (flatten gs eoti)
          rw [hsum, flatten_cons]
          cases hl : g.len? with
          | none =>
              have helems : g.elems = [g.value] := by simp [Group.elems, hf, hl]
              have hmin : g.minLen nested top = g.value.minLen nested top + if top then 3 else 0 := by
                simp [Group.minLen, hl]
              rw [helems] at hn ⊢
              obtain ⟨n, rfl⟩ : ∃ k, n = k + 1 := ⟨n - 1, by simp at hn; omega⟩
              rw [List.singleton_append, hvalue, hrest n _ (by simp at hn; omega), hmin]
              simp only [Nat.add_assoc]
          | some l =>
              have helems : g.elems = [l, g.value] := by simp [Group.elems, hf, hl]
              have hmin : g.minLen nested top
                  = dataLenSz l + g.value.minLen nested top + if top then 3 else 0 := by
                simp [Group.minLen, hl]
              rw [helems] at hn ⊢
              obtain ⟨n, rfl⟩ : ∃ k, n = k + 2 := ⟨n - 2, by simp at hn; omega⟩
              rw [List.cons_append, List.singleton_append, qmiCalcMinMsgLenLoop, deref, pure_bind]
              simp only [hg.len l hl, u32_add_left]
              rw [hvalue, hrest n _ (by simp at hn; omega), hmin]
              simp only [Nat.add_assoc]

end Loop

/-- `qmi_calc_min_msg_len` computes the sum, as far as an `int` holds it. -/
theorem qmiCalcMinMsgLen_eq {level : Nat} {ei : List QmiElemInfo} (h : Described EncodeRules level ei)
    (hlevel : 1 ≤ level) {d : Nat} (hd : nestDepth ei ≤ d) :
    (qmiCalcMinMsgLen d ei level : Encoding Nat) = pure (u32 (minLen d (decide (level = 1)) ei)) := by
  induction h generalizing d with
  | @mk level gs eoti hend hshape hP hnest ih =>
      obtain ⟨d, rfl⟩ := exists_eq_succ_of_nestDepth_le hd
      have hne : (flatten gs eoti).isEmpty = false := by simp [flatten]
      rw [qmiCalcMinMsgLen, hne, minLen, groups_flatten hend hshape]
      have hrec : ∀ g ∈ gs, g.value.dataType = .struct →
          (qmiCalcMinMsgLen d g.value.eiArray (level + 1) : Encoding Nat)
            = pure (u32 (minLen d false g.value.eiArray)) := by
        intro g hg hstruct
        rw [ih g hg hstruct (by omega) (nestDepth_value hg hd), decide_eq_false (by omega)]
      have hloop := calcLoop_groups hend (rfl : decide (level = 1) = _) hlevel hshape hP hrec
        ((flatten gs eoti).length + 1) 0 (Nat.le_succ _)
      rwa [Nat.zero_add] at hloop

/-! ### Structures that encode to nothing -/

/-- The descriptor is NULL, or one that the encoder is meant for. -/
def DescribedOrNull (ei : List QmiElemInfo) : Prop := ei = [] ∨ Described EncodeRules 1 ei

/-- Every field of the message has a flag. -/
def AllOptional (ei : List QmiElemInfo) : Prop := ∀ g ∈ groups ei, g.flag? ≠ none

/-- All option flags of the structure are clear. -/
def FlagsClear (cs : Mem) (ei : List QmiElemInfo) : Prop :=
  ∀ g ∈ groups ei, ∀ f, g.flag? = some f → cs f.offset = 0

section Zero

variable {cs : Mem} {ei : List QmiElemInfo}

/-- Only a message without mandatory fields has the minimal length zero. -/
theorem minLen_eq_zero_iff (d : Nat) : minLen (d + 1) true ei = 0 ↔ AllOptional ei := by
  rw [minLen, groupsMinLen, List.sum_eq_zero_iff_forall_eq_nat]
  constructor
  · intro h g hg hnone
    have hmem : g ∈ (groups ei).filter fun g => g.flag?.isNone :=
      List.mem_filter.mpr ⟨hg, by simp [hnone]⟩
    have hzero := h _ (List.mem_map_of_mem hmem)
    simp [Group.minLen] at hzero
  · intro h n hn
    obtain ⟨g, hg, -⟩ := List.mem_map.mp hn
    obtain ⟨hg, hnone⟩ := List.mem_filter.mp hg
    exact absurd (Option.isNone_iff_eq_none.mp hnone) (h g hg)

/-- With all flags clear, no field is present. -/
theorem FlagsClear.absent (hclear : FlagsClear cs ei) (hall : AllOptional ei) {g : Group}
    (hg : g ∈ groups ei) : g.present cs 0 = false := by
  obtain ⟨f, hf⟩ := Option.ne_none_iff_exists'.mp (hall g hg)
  simp [Group.present, hf, hclear g hg f hf]

theorem FlagsClear.messageBytes_eq_nil (hclear : FlagsClear cs ei) (hall : AllOptional ei) :
    messageBytes cs ei 0 = [] := by
  have hnone : (groups ei).filter (Group.present cs 0) = [] := by
    rw [List.filter_eq_nil_iff]
    intro g hg
    simp [hclear.absent hall hg]
  rw [messageBytes, tlvBytes, hnone]
  rfl

theorem FlagsClear.valuesFit (hclear : FlagsClear cs ei) (hall : AllOptional ei) (d : Nat) :
    ValuesFit id cs d ei 0 := by
  cases d with
  | zero => trivial
  | succ d =>
      intro g hg hpresent
      rw [hclear.absent hall hg] at hpresent
      cases hpresent

/-- A mandatory field puts a TLV into the message. -/
theorem allOptional_of_nil (h : messageBytes cs ei 0 = []) : AllOptional ei := by
  intro g hg hnone
  have hpresent : g ∈ (groups ei).filter (Group.present cs 0) :=
    List.mem_filter.mpr ⟨hg, by simp [Group.present, hnone]⟩
  rw [messageBytes, tlvBytes, List.flatMap_eq_nil_iff] at h
  have hlen := congrArg List.length (h g hpresent)
  rw [length_tlv, List.length_nil] at hlen
  omega

/-- Some structure encodes to nothing if and only if every field has a flag. -/
theorem exists_encode_zero_iff (h : DescribedOrNull ei) (outBuf : Nat) {room : Nat} (hlt : room < 2 ^ 32)
    (hroom : ∀ cs, ValuesFit id cs (nestDepth ei) ei 0 → (messageBytes cs ei 0).length ≤ room) :
    (∃ cs, (qmiEncode cs (nestDepth ei) ei outBuf 0 room 1).res = .ok 0) ↔ AllOptional ei := by
  rcases h with rfl | h
  · have hall : AllOptional [] := by simp [AllOptional, groups, groupsFrom]
    exact iff_of_true ⟨fun _ => 0, rfl⟩ hall
  · constructor
    · rintro ⟨cs, hres⟩
      obtain ⟨hlen, -⟩ := (qmiEncodeMessage_guarded cs h outBuf 0 room).ensures.of_ok hres
      exact allOptional_of_nil (List.length_eq_zero_iff.mp hlen.symm)
    · intro hall
      have hclear : FlagsClear (fun _ => 0) ei := fun _ _ _ _ => rfl
      have hfit := hclear.valuesFit hall (nestDepth ei)
      refine ⟨fun _ => 0, ?_⟩
      rw [(qmiEncode_eq_messageBytes _ h outBuf hlt hfit (hroom _ hfit)).1,
        hclear.messageBytes_eq_nil hall]
      rfl

end Zero

/-! ### The call without a structure -/

section Shortcut

variable {pkt : QrtrPacket} {m : Mem} {ei : List QmiElemInfo} (type msgId txnId : Int)

/-- Without a structure, `qmi_encode_message` succeeds if and only if some structure encodes to nothing, and
    then it does what it does for a structure with all flags clear. Otherwise it returns `-EINVAL` and
    leaves the packet as it was. -/
structure ShortcutAgrees (pkt : QrtrPacket) (ei : List QmiElemInfo) : Prop where
  accepts : (∃ n, (qmiEncodeMessage pkt type msgId txnId none ei).res = .ok n) ↔
    ∃ cs, (qmiEncode cs (nestDepth ei) ei qmiHeaderSize 0 (u32 (pkt.dataLen - qmiHeaderSize)) 1).res
      = .ok 0
  same : ∀ n, (qmiEncodeMessage pkt type msgId txnId none ei).res = .ok n → ∀ cs, FlagsClear cs ei →
    (qmiEncodeMessage pkt type msgId txnId (some cs) ei).res = .ok n ∧
      packetAfter pkt (qmiEncodeMessage pkt type msgId txnId none ei) =
        packetAfter pkt (qmiEncodeMessage pkt type msgId txnId (some cs) ei)
  refuses : (∀ n, (qmiEncodeMessage pkt type msgId txnId none ei).res ≠ .ok n) →
    (qmiEncodeMessage pkt type msgId txnId none ei).res = .error einval ∧
      packetAfter pkt (qmiEncodeMessage pkt type msgId txnId none ei) = pkt

/-- The minimal length of any descriptor, NULL included. -/
theorem qmiCalcMinMsgLen_top (h : DescribedOrNull ei) :
    (qmiCalcMinMsgLen (nestDepth ei) ei 1 : Encoding Nat) = pure (u32 (minLen (nestDepth ei) true ei)) := by
  rcases h with rfl | h
  · rfl
  · exact qmiCalcMinMsgLen_eq h (Nat.le_refl 1) (Nat.le_refl _)

/-- The call without a structure, when the sum does not come out as zero. -/
theorem qmiEncodeMessage_refused (h : DescribedOrNull ei) (hsum : u32 (minLen (nestDepth ei) true ei) ≠ 0) :
    qmiEncodeMessage pkt type msgId txnId none ei = Traced.fail einval := by
  rw [qmiEncodeMessage, qmiCalcMinMsgLen_top h]
  simp [hsum]

/-- The call without a structure, when the sum comes out as zero: the header of an empty message. -/
theorem qmiEncodeMessage_empty (hdata : pkt.data = some m) (hheader : qmiHeaderSize ≤ pkt.dataLen)
    (h : DescribedOrNull ei) (hsum : u32 (minLen (nestDepth ei) true ei) = 0) :
    qmiEncodeMessage pkt type msgId txnId none ei =
      Traced.after [⟨0, intBytes 1 type⟩, ⟨1, intBytes 2 txnId⟩, ⟨3, intBytes 2 msgId⟩, ⟨5, leBytes 2 0⟩]
        (pure qmiHeaderSize) := by
  rw [qmiEncodeMessage, qmiCalcMinMsgLen_top h, hdata]
  simp [hsum, Nat.not_lt.mpr hheader, encodePayload]
  rfl

/-- A structure with all flags clear, when every field has one, encodes to nothing. -/
theorem qmiEncode_clear (h : DescribedOrNull ei) (hall : AllOptional ei) {cs : Mem}
    (hclear : FlagsClear cs ei) (outBuf : Nat) {room : Nat} (hlt : room < 2 ^ 32) :
    (qmiEncode cs (nestDepth ei) ei outBuf 0 room 1).res = .ok 0 ∧
      ∀ mem, applyWrites mem (qmiEncode cs (nestDepth ei) ei outBuf 0 room 1).trace = mem := by
  rcases h with rfl | h
  · exact ⟨rfl, fun _ => rfl⟩
  · have hnil := hclear.messageBytes_eq_nil hall
    have hrun := qmiEncode_eq_messageBytes cs h outBuf hlt (hclear.valuesFit hall _)
      (by rw [hnil]; exact Nat.zero_le _)
    simpa [hnil] using hrun

/-- It leaves the packet that the call without a structure leaves. -/
theorem qmiEncodeMessage_clear (hdata : pkt.data = some m) (hheader : qmiHeaderSize ≤ pkt.dataLen)
    (h : DescribedOrNull ei) (hall : AllOptional ei)
    (hsum : u32 (minLen (nestDepth ei) true ei) = 0) {cs : Mem} (hclear : FlagsClear cs ei) :
    (qmiEncodeMessage pkt type msgId txnId (some cs) ei).res = .ok qmiHeaderSize ∧
      packetAfter pkt (qmiEncodeMessage pkt type msgId txnId none ei) =
        packetAfter pkt (qmiEncodeMessage pkt type msgId txnId (some cs) ei) := by
  have hlt : u32 (pkt.dataLen - qmiHeaderSize) < 2 ^ 32 := Nat.mod_lt _ (by omega)
  obtain ⟨hres, hwrites⟩ := qmiEncode_clear h hall hclear qmiHeaderSize hlt
  have hempty := qmiEncodeMessage_empty type msgId txnId hdata hheader h hsum
  have hrun := qmiEncodeMessage_of_ok hdata type msgId txnId hheader hres
  rw [Nat.add_zero, ← hempty] at hrun
  constructor
  · rw [hrun, hempty]
    rfl
  · rw [hrun, packetAfter, packetAfter, Traced.after_res, Traced.after_trace]
    simp only [applyWrites_append, hwrites]

/-- The call without a structure agrees with the encoder if and only if the sum of the minimal lengths does
    not wrap around to zero. -/
theorem shortcutAgrees_iff (hdata : pkt.data = some m) (hheader : qmiHeaderSize ≤ pkt.dataLen)
    (h : DescribedOrNull ei)
    (hroom : ∀ cs, ValuesFit id cs (nestDepth ei) ei 0 →
      (messageBytes cs ei 0).length ≤ u32 (pkt.dataLen - qmiHeaderSize)) :
    ShortcutAgrees type msgId txnId pkt ei ↔
      (u32 (minLen (nestDepth ei) true ei) = 0 → minLen (nestDepth ei) true ei = 0) := by
  have hlt : u32 (pkt.dataLen - qmiHeaderSize) < 2 ^ 32 := Nat.mod_lt _ (by omega)
  have hzero := exists_encode_zero_iff h qmiHeaderSize hlt hroom
  obtain ⟨d, hd⟩ := exists_eq_succ_of_nestDepth_le (Nat.le_refl (nestDepth ei))
  have hmin : minLen (nestDepth ei) true ei = 0 ↔ AllOptional ei := by
    rw [hd]
    exact minLen_eq_zero_iff d
  constructor
  · intro hagrees hsum
    rw [hmin, ← hzero, ← hagrees.accepts, qmiEncodeMessage_empty type msgId txnId hdata hheader h hsum]
    exact ⟨_, rfl⟩
  · intro hnowrap
    by_cases hsum : u32 (minLen (nestDepth ei) true ei) = 0
    · have hall := hmin.mp (hnowrap hsum)
      have hrun := qmiEncodeMessage_empty type msgId txnId hdata hheader h hsum
      constructor
      · rw [hzero, hrun]
        exact iff_of_true ⟨_, rfl⟩ hall
      · intro n hn cs hclear
        obtain ⟨hres, hpkt⟩ := qmiEncodeMessage_clear type msgId txnId hdata hheader h hall hsum hclear
        rw [hrun] at hn
        rw [hres]
        exact ⟨hn, hpkt⟩
      · intro hnot
        exact absurd (by rw [hrun]; rfl) (hnot qmiHeaderSize)
    · have hrun : qmiEncodeMessage pkt type msgId txnId none ei = Traced.fail einval :=
        qmiEncodeMessage_refused type msgId txnId h hsum
      have hnone : ¬ AllOptional ei := fun hall => hsum (by rw [hmin.mpr hall]; rfl)
      constructor
      · rw [hzero, hrun]
        exact iff_of_false (fun ⟨_, hn⟩ => nomatch hn) hnone
      · intro n hn
        rw [hrun] at hn
        cases hn
      · intro _
        rw [hrun]
        refine ⟨rfl, ?_⟩
        cases pkt
        simp [packetAfter]

end Shortcut

/-! ### Sums on either side of the wrap -/

/-- A byte, with an array length that nothing but the sum looks at. -/
def sampleField (len : Nat) : Group := ⟨none, none, ⟨.unsigned1Byte, len, 1, .noArray, 1, 0, []⟩⟩

/-- A message of that byte alone. -/
def sampleFieldMessage (len : Nat) : List QmiElemInfo := flatten [sampleField len] sampleEnd

theorem sampleFieldMessage_described (len : Nat) : Described EncodeRules 1 (sampleFieldMessage len) := by
  refine .mk rfl ?_ ⟨?_, ?_⟩ ?_
  · simp only [List.mem_singleton, forall_eq]
    exact ⟨by simp [sampleField], by simp [sampleField], trivial⟩
  · simp only [List.mem_singleton, forall_eq]
    exact ⟨by simp, by simp [sampleField], by simp [sampleField], by simp [sampleField],
      by simp [sampleField], by simp [sampleField]⟩
  · intro _
    exact ⟨by simp [Group.elems, sampleField], by simp [headType, sampleEnd, sampleField], trivial⟩
  · simp [sampleField]

theorem length_sampleFieldMessage (cs : Mem) (len : Nat) :
    (messageBytes cs (sampleFieldMessage len) 0).length = 4 := rfl

/-- The sum is 4. -/
theorem shortcutAgrees_field : ShortcutAgrees 0 32 1 ⟨5, some fun _ => 0, 16⟩ (sampleFieldMessage 1) :=
  (shortcutAgrees_iff 0 32 1 rfl (by decide) (.inr (sampleFieldMessage_described 1)) fun cs _ => by
    rw [length_sampleFieldMessage]
    decide).mpr fun hsum => absurd hsum (by decide)

/-- The sum is 2 ^ 32: no structure is accepted, although every structure encodes to four bytes. -/
theorem not_shortcutAgrees :
    Described EncodeRules 1 (sampleFieldMessage 4294967293) ∧
      (∀ cs, (messageBytes cs (sampleFieldMessage 4294967293) 0).length = 4) ∧
      ¬ ShortcutAgrees 0 32 1 ⟨5, some fun _ => 0, 16⟩ (sampleFieldMessage 4294967293) := by
  have hdescribed := sampleFieldMessage_described 4294967293
  refine ⟨hdescribed, fun cs => length_sampleFieldMessage cs _, ?_⟩
  intro hagrees
  have hok : (qmiEncodeMessage ⟨5, some fun _ => 0, 16⟩ 0 32 1 none (sampleFieldMessage 4294967293)).res
      = .ok 7 := by rfl
  obtain ⟨cs, hcs⟩ := hagrees.accepts.mp ⟨7, hok⟩
  have hall := (exists_encode_zero_iff (.inr hdescribed) qmiHeaderSize (by decide) fun cs _ => by
    rw [length_sampleFieldMessage]
    decide).mp ⟨cs, hcs⟩
  exact hall (sampleField 4294967293) List.mem_cons_self rfl

end Qrtr
