/-
Module: Qrtr.Qmi.Refusal
Layer: Qmi
Purpose: Which structures the encoder takes, and how far it gets. Whatever the space, it writes no further
  than the encoding reaches, and ends in one of two ways: it refuses with `-EINVAL`, or every count and
  every string that it came to is within its bound, and it returns the length of the encoding. One lemma for
  each branch of the switch, then one group, then the loop by induction over the groups. So the numbers of C
  make no difference to an encoding of fewer than 2^31 bytes, in any buffer.
Imports: Qmi.MachineEncode
Main exports: qmiEncode_guarded, qmiEncodeMessage_guarded, Machine.qmiEncode_eq
Open obligations: none
-/
import Qrtr.Qmi.MachineEncode

namespace Qrtr

open Traced

/-! ### The element encoders -/

/-- The writes of a block stay below what lies behind it. -/
theorem Chunks.writes_below {pos limit : Nat} {ws : List Write} {bs : List UInt8} (h : Chunks pos ws bs)
    (hend : pos + bs.length ≤ limit) : ∀ w ∈ ws, Machine.Below limit w := by
  intro w hw i hi
  have := (h.inside w hw).2
  omega

section Elements

variable {limit outBufLen encLevel : Nat} {top : Bool}

theorem qmiEncodeStringElem_guarded (cs : Mem) {ei : QmiElemInfo} {bufDst bufSrc : Nat}
    (htop : top = decide (encLevel = 1)) (hsize : ei.elemSize = 1)
    (hend : bufDst + (textBytes cs top ei bufSrc).length ≤ limit) :
    (qmiEncodeStringElem cs ei bufDst bufSrc outBufLen encLevel).Guarded (Machine.Below limit) (· = einval)
      fun rc => rc = (textBytes cs top ei bufSrc).length ∧ textLen cs ei bufSrc ≤ ei.elemLen := by
  obtain ⟨ws, hws, hrun⟩ : ∃ ws, Chunks bufDst ws (textBytes cs top ei bufSrc) ∧
      qmiEncodeStringElem cs ei bufDst bufSrc outBufLen encLevel = _ :=
    qmiEncodeStringElem_eq cs (by simp [htop]) hsize
  rw [hrun]
  refine .check rfl fun hlen => .check rfl fun _ => ?_
  exact .after (hws.writes_below hend) (guarded_pure ⟨rfl, Nat.le_of_not_lt hlen⟩)

/-- The call of `qmi_encode` for a nested structure refuses it, or its values fit; it writes the bytes of
    the structure at most. -/
def CallGuarded (d : Nat) (cs : Mem) (rec : EncodeCall) (ei : List QmiElemInfo) (encLevel : Nat) : Prop :=
  ∀ outBuf base outBufLen limit, outBuf + (nestedBytes cs d ei base).length ≤ limit →
    (rec ei outBuf base outBufLen encLevel).Guarded (Machine.Below limit) (· = einval) fun rc =>
      rc = (nestedBytes cs d ei base).length ∧ ValuesFit id cs d ei base

theorem qmiEncodeStructElem_guarded {d : Nat} {cs : Mem} {rec : EncodeCall} {ei : QmiElemInfo}
    (hcall : CallGuarded d cs rec ei.eiArray encLevel) (n bufDst bufSrc encodedBytes : Nat)
    (hend : bufDst + (arrayBytes (nestedBytes cs d ei.eiArray) ei.elemSize n bufSrc).length ≤ limit) :
    (qmiEncodeStructElem rec ei outBufLen encLevel n bufDst bufSrc encodedBytes).Guarded
      (Machine.Below limit) (· = einval) fun rc =>
        rc = encodedBytes + (arrayBytes (nestedBytes cs d ei.eiArray) ei.elemSize n bufSrc).length ∧
          ∀ i, i < n → ValuesFit id cs d ei.eiArray (bufSrc + i * ei.elemSize) := by
  induction n generalizing bufDst bufSrc encodedBytes with
  | zero => exact guarded_pure ⟨rfl, fun i hi => absurd hi (Nat.not_lt_zero i)⟩
  | succ n ih =>
      rw [arrayBytes, List.length_append] at hend ⊢
      refine (hcall bufDst bufSrc (u32Sub outBufLen encodedBytes) limit (by omega)).bind ?_
      rintro _ ⟨rfl, hfirst⟩
      refine (ih _ (bufSrc + ei.elemSize) _ (by omega)).imp ?_
      rintro _ ⟨rfl, hrest⟩
      refine ⟨by omega, fun i hi => ?_⟩
      cases i with
      | zero => rwa [Nat.zero_mul, Nat.add_zero]
      | succ i =>
          have haddr : bufSrc + (i + 1) * ei.elemSize = bufSrc + ei.elemSize + i * ei.elemSize := by
            ring
          rw [haddr]
          exact hrest i (by omega)

end Elements

/-! ### Where a run stands -/

/-- The cursors of a run from `start` on; at the top level a header is left free behind `tlv_pointer`. -/
structure EncodeState.Open (start : Nat) (top : Bool) (s : EncodeState) : Prop where
  buf : s.bufDst = start + s.encodedBytes
  pointer : top = true → s.tlvPointer + 3 ≤ s.bufDst

/-- `n` bytes further on, at the elements `rest`. -/
structure EncodeState.Moved (start : Nat) (top : Bool) (s : EncodeState) (n : Nat) (rest : List QmiElemInfo)
    (s' : EncodeState) : Prop extends s'.Open start top where
  temp : s'.tempEi = rest
  dst : s'.bufDst = s.bufDst + n

/-- The header of the TLV is written or not needed. -/
def EncodeState.Idle (top : Bool) (s : EncodeState) : Prop := top = true → s.encodeTlv = false

section Group

variable {d encLevel base outBufLen start limit : Nat} {cs : Mem} {rec : EncodeCall} {top : Bool}

theorem EncodeState.Open.congr {s s' : EncodeState} (h : s.Open start top) (hdst : s'.bufDst = s.bufDst)
    (hbytes : s'.encodedBytes = s.encodedBytes) (hpointer : s'.tlvPointer = s.tlvPointer) :
    s'.Open start top where
  buf := by rw [hdst, hbytes, h.buf]
  pointer ht := by rw [hdst, hpointer]; exact h.pointer ht

theorem EncodeState.Open.update {s : EncodeState} (h : s.Open start top) (rc : Nat) :
    (s.update rc).Open start top where
  buf := by
    have := h.buf
    change s.bufDst + rc = start + (s.encodedBytes + rc)
    omega
  pointer ht := Nat.le_trans (h.pointer ht) (Nat.le_add_right _ _)

/-- The switch at a value. -/
theorem encodeSwitch_guarded {ei : QmiElemInfo} (bufSrc : Nat) (s : EncodeState)
    (htop : top = decide (encLevel = 1)) (hvalue : ei.dataType.IsValue)
    (hstring : ei.dataType = .string → ei.elemSize = 1)
    (hcall : ei.dataType = .struct → CallGuarded d cs rec ei.eiArray (encLevel + 1))
    (hend : s.bufDst + (valueBytes (nestedBytes cs d) cs top ei bufSrc s.dataLenValue).length ≤ limit) :
    (encodeSwitch rec cs ei bufSrc outBufLen encLevel s).Guarded (Machine.Below limit) (· = einval) fun s' =>
      s' = s.update (valueBytes (nestedBytes cs d) cs top ei bufSrc s.dataLenValue).length ∧
        ElementsFit d id cs ei bufSrc s.dataLenValue := by
  have hbasic : ∀ {n}, n = s.dataLenValue * ei.elemSize → s.bufDst + n ≤ limit →
      (encodeBasic cs ei bufSrc outBufLen s).Guarded (Machine.Below limit) (· = einval) fun s' =>
        s' = s.update n ∧ True := by
    rintro _ rfl hend
    refine .check rfl fun _ => ?_
    obtain ⟨hres, hws⟩ := qmiEncodeBasicElem_spec cs ei.elemSize s.dataLenValue s.bufDst bufSrc
    rw [Traced.bind_ok hres]
    exact .after (hws.writes_below (by rwa [Mem.length_bytes])) (guarded_pure ⟨rfl, trivial⟩)
  unfold encodeSwitch ElementsFit valueBytes at *
  cases htype : ei.dataType with
  | eoti | optFlag | dataLen => simp [htype, QmiElemType.IsValue] at hvalue
  | struct =>
      rw [htype] at hend
      refine (qmiEncodeStructElem_guarded (hcall htype) _ _ _ _ hend).bind ?_
      rintro _ ⟨rfl, hfit⟩
      rw [Nat.zero_add]
      exact guarded_pure ⟨rfl, hfit⟩
  | string =>
      rw [htype] at hend
      refine (qmiEncodeStringElem_guarded cs htop (hstring htype) hend).bind ?_
      rintro _ ⟨rfl, hfit⟩
      exact guarded_pure ⟨rfl, hfit⟩
  | _ =>
      rw [htype] at hend
      exact hbasic (Mem.length_bytes _ _ _) hend

/-- The end of an iteration that completes a group. -/
theorem encodeTlvHeader_guarded {s : EncodeState} (type : UInt8) (htop : top = decide (encLevel = 1))
    (hs : s.Open start top) (henc : s.encodeTlv = true) (hend : s.bufDst ≤ limit) :
    (encodeTlvHeader encLevel type s).Guarded (Machine.Below limit) (· = einval) fun s' =>
      s.Moved start top (closingLen top) s.tempEi s' ∧ s'.Idle top := by
  cases top with
  | false =>
      have hlevel : encLevel ≠ 1 := of_decide_eq_false htop.symm
      rw [encodeTlvHeader_skip type fun h => hlevel h.2]
      exact guarded_pure ⟨⟨hs, rfl, rfl⟩, nofun⟩
  | true =>
      obtain rfl : encLevel = 1 := of_decide_eq_true htop.symm
      have hpointer := hs.pointer rfl
      obtain ⟨ws, hws, hrun⟩ := encodeTlvHeader_eq type henc
      rw [hrun]
      refine .after (hws.writes_below (by rw [length_tlvHeader]; omega)) (guarded_pure ?_)
      refine ⟨⟨⟨?_, fun _ => Nat.le_refl _⟩, rfl, rfl⟩, fun _ => rfl⟩
      have hbuf := hs.buf
      change s.bufDst + 3 = start + (s.encodedBytes + 3)
      omega

/-- The count for the value of a group, when the variable holds the count in front of it. -/
theorem encodeCount_guarded {g : Group} {dataLenValue : Nat} (hrules : g.Encodable encLevel)
    (hlen : g.len? ≠ none → dataLenValue = g.lenValue cs base) :
    (encodeCount g.value dataLenValue).Guarded (Machine.Below limit) (· = einval) fun n =>
      n = g.count cs base ∧
        (g.value.arrayType = .varLenArray → g.lenValue cs base ≤ g.value.elemLen) := by
  unfold encodeCount Group.count
  cases harray : g.value.arrayType with
  | noArray | staticArray => exact guarded_pure ⟨rfl, by simp⟩
  | varLenArray =>
      refine .check rfl fun hrange => ?_
      rw [hlen (hrules.var_len harray)] at hrange ⊢
      exact guarded_pure ⟨rfl, fun _ => by omega⟩

/-- The iteration at the value of a group. -/
theorem iter_value_guarded {g : Group} {rest : List QmiElemInfo} {s : EncodeState}
    (htop : top = decide (encLevel = 1)) (hshape : g.Shaped) (hrules : g.Encodable encLevel)
    (hcall : g.value.dataType = .struct → CallGuarded d cs rec g.value.eiArray (encLevel + 1))
    (hs : s.Open start top) (htemp : s.tempEi = g.value :: rest)
    (hlen : g.len? ≠ none → s.dataLenValue = g.lenValue cs base)
    {n : Nat}
    (hn : n = (valueBytes (nestedBytes cs d) cs top g.value (base + g.value.offset) (g.count cs base)).length)
    (hend : s.bufDst + n ≤ limit) :
    (qmiEncodeIter rec cs base outBufLen encLevel g.value s).Guarded (Machine.Below limit) (· = einval)
      fun s' => (s.Moved start top (n + closingLen top) rest s' ∧ s'.Idle top) ∧
        g.ValueFits (ValuesFit id cs d) id cs base := by
  subst hn
  refine (encodeCount_guarded hrules hlen).bind ?_
  rintro _ ⟨rfl, hcount⟩
  have hs' : EncodeState.Open start top { s with dataLenValue := g.count cs base } := hs.congr rfl rfl rfl
  refine (encodeSwitch_guarded (d := d) _ _ htop hshape.value hrules.string_size hcall hend).bind ?_
  rintro _ ⟨rfl, hfit⟩
  refine (encodeTlvHeader_guarded _ htop (hs'.update _) rfl hend).imp ?_
  rintro s' ⟨⟨hopen, htemp', hdst⟩, hidle⟩
  refine ⟨⟨⟨hopen, ?_, ?_⟩, hidle⟩, hcount, fun _ => hfit⟩
  · rw [htemp']
    change s.tempEi.tail = rest
    rw [htemp, List.tail_cons]
  · rw [hdst]
    exact Nat.add_assoc _ _ _

/-- The iteration at a count: on to the value, or past it when the count is zero. -/
theorem iter_len_guarded {g : Group} {l : QmiElemInfo} {rest : List QmiElemInfo} {s : EncodeState}
    (htop : top = decide (encLevel = 1)) (hshape : g.Shaped) (hrules : g.Encodable encLevel)
    (hl : g.len? = some l) (hskip : skipToNextElem (g.value :: rest) encLevel = (pure rest : Encoding _))
    (hs : s.Open start top) (htemp : s.tempEi = l :: g.value :: rest)
    (hend : s.bufDst + dataLenSz l ≤ limit) :
    (qmiEncodeIter rec cs base outBufLen encLevel l s).Guarded (Machine.Below limit) (· = einval) fun s' =>
      if g.lenValue cs base = 0 then s.Moved start top (dataLenSz l + closingLen top) rest s' ∧ s'.Idle top
      else s.Moved start top (dataLenSz l) (g.value :: rest) s' ∧ s'.dataLenValue = g.lenValue cs base := by
  have hcount := hrules.overlay_count hl cs base
  have hws : ∀ w ∈ [(⟨s.bufDst, leBytes (dataLenSz l) (g.lenValue cs base)⟩ : Write)],
      Machine.Below limit w := (Chunks.single _ _).writes_below (by rwa [length_leBytes])
  have hone : EncodeState.Open start top { s with dataLenValue := 1 } := hs.congr rfl rfl rfl
  have hs' := hone.update (dataLenSz l)
  rw [qmiEncodeIter_len hshape hrules hl]
  simp only [encodeDataLen, hcount]
  by_cases hzero : g.lenValue cs base = 0
  · simp only [hzero, if_true, EncodeState.update, htemp, List.tail_cons, hskip, pure_bind]
    refine Guarded.bind (R := fun s' => s' =
      { EncodeState.update { s with dataLenValue := 1 } (dataLenSz l) with
        dataLenValue := 0, tempEi := rest }) (.check rfl fun _ => ?_) ?_
    · rw [qmiEncodeLocal, Traced.emit_bind, Traced.after_bind, pure_bind]
      rw [hzero] at hws
      exact .after hws (guarded_pure rfl)
    · rintro _ rfl
      have hnext : EncodeState.Open start top
          { EncodeState.update { s with dataLenValue := 1 } (dataLenSz l) with
            dataLenValue := 0, tempEi := rest } := hs'.congr rfl rfl rfl
      refine (encodeTlvHeader_guarded _ htop hnext rfl hend).imp ?_
      rintro s' ⟨⟨hopen, htemp', hdst⟩, hidle⟩
      refine ⟨⟨hopen, htemp', ?_⟩, hidle⟩
      rw [hdst]
      exact Nat.add_assoc _ _ _
  · simp only [hzero, if_false, EncodeState.update, htemp, List.tail_cons]
    refine Guarded.bind (R := fun s' => s' =
      { EncodeState.update { s with dataLenValue := 1 } (dataLenSz l) with
        dataLenValue := g.lenValue cs base, tempEi := g.value :: rest, encodeTlv := false })
      (.check rfl fun _ => ?_) ?_
    · rw [qmiEncodeLocal, Traced.emit_bind, Traced.after_bind, pure_bind]
      exact .after hws (guarded_pure rfl)
    · rintro _ rfl
      rw [encodeTlvHeader_skip _ (by simp)]
      exact guarded_pure ⟨⟨hs'.congr rfl rfl rfl, rfl, rfl⟩, rfl⟩

/-- The loop from a group on, its flag already passed: `R` is what the rest of the loop ensures. -/
theorem loop_unflagged_guarded {g : Group} {rest : List QmiElemInfo} {R : Nat → Prop} (s : EncodeState)
    (fuel : Nat) (htop : top = decide (encLevel = 1)) (hshape : g.Shaped) (hrules : g.Encodable encLevel)
    (hcall : g.value.dataType = .struct → CallGuarded d cs rec g.value.eiArray (encLevel + 1))
    (hskip : skipToNextElem (g.value :: rest) encLevel = (pure rest : Encoding _))
    (hs : s.Open start top) (htemp : s.tempEi = g.unflagged.elems ++ rest)
    (hfuel : g.unflagged.elems.length + rest.length ≤ fuel)
    (hend : s.bufDst + (g.payload (nestedBytes cs d) cs top base).length ≤ limit)
    (hrest : ∀ (s' : EncodeState) (fuel' : Nat),
      s.Moved start top ((g.payload (nestedBytes cs d) cs top base).length + closingLen top) rest s' →
      s'.Idle top → rest.length ≤ fuel' →
      (qmiEncodeLoop rec cs base outBufLen encLevel fuel' s').Guarded (Machine.Below limit) (· = einval) R) :
    (qmiEncodeLoop rec cs base outBufLen encLevel fuel s).Guarded (Machine.Below limit) (· = einval) fun rc =>
      g.ValueFits (ValuesFit id cs d) id cs base ∧ R rc := by
  rw [Group.payload, List.length_append] at hend hrest
  -- the value, with the bytes of the count behind it
  have hvalue : ∀ (s' : EncodeState) (fuel' : Nat), g.hasValue cs base = true →
      s.Moved start top (g.countPrefix cs base).length (g.value :: rest) s' →
      (g.len? ≠ none → s'.dataLenValue = g.lenValue cs base) → rest.length + 1 ≤ fuel' →
      (qmiEncodeLoop rec cs base outBufLen encLevel fuel' s').Guarded (Machine.Below limit) (· = einval)
        fun rc => g.ValueFits (ValuesFit id cs d) id cs base ∧ R rc := by
    rintro s' fuel' hhas ⟨hs', htemp', hdst⟩ hlen hfuel
    rw [if_pos hhas] at hend hrest
    obtain ⟨fuel', rfl⟩ : ∃ f, fuel' = f + 1 := ⟨fuel' - 1, by omega⟩
    rw [qmiEncodeLoop_cons htemp' hshape.value.ne_eoti]
    refine (iter_value_guarded htop hshape hrules hcall hs' htemp' hlen rfl (by omega)).bind ?_
    rintro s'' ⟨⟨⟨hs'', htemp'', hdst'⟩, hidle⟩, hfit⟩
    exact (hrest s'' fuel' ⟨hs'', htemp'', by omega⟩ hidle (by omega)).imp fun _ hR => ⟨hfit, hR⟩
  cases hl : g.len? with
  | none =>
      have hhas : g.hasValue cs base = true := by simp [Group.hasValue, hl]
      have hfront : (g.countPrefix cs base).length = 0 := by simp [Group.countPrefix, hl]
      rw [Group.unflagged_elems_of_none hl] at htemp hfuel
      rw [List.length_singleton] at hfuel
      exact hvalue s fuel hhas ⟨hs, htemp, by rw [hfront, Nat.add_zero]⟩ (fun h => absurd hl h) (by omega)
  | some l =>
      have hfront : (g.countPrefix cs base).length = dataLenSz l := by simp [Group.countPrefix, hl]
      rw [Group.unflagged_elems_of_len hl] at htemp hfuel
      simp only [List.length_cons, List.length_nil] at hfuel
      obtain ⟨fuel, rfl⟩ : ∃ f, fuel = f + 1 := ⟨fuel - 1, by omega⟩
      rw [qmiEncodeLoop_cons htemp (by simp [hshape.len l hl])]
      refine (iter_len_guarded htop hshape hrules hl hskip hs htemp (by omega)).bind ?_
      intro s' hs'
      by_cases hzero : g.lenValue cs base = 0
      · have hhas : g.hasValue cs base = false := by simp [Group.hasValue, hl, hzero]
        have hfits : g.ValueFits (ValuesFit id cs d) id cs base := by
          refine ⟨fun _ => by omega, fun h => ?_⟩
          rw [hhas] at h
          cases h
        rw [if_pos hzero] at hs'
        rw [hfront, if_neg (by simp [hhas])] at hrest
        exact (hrest s' fuel hs'.1 hs'.2 (by omega)).imp fun _ hR => ⟨hfits, hR⟩
      · have hhas : g.hasValue cs base = true := by simp [Group.hasValue, hl, hzero]
        rw [if_neg hzero, ← hfront] at hs'
        exact hvalue s' fuel hhas hs'.1 (fun _ => hs'.2) (by omega)

end Group

/-! ### The loop -/

section Loop

variable {d encLevel base outBufLen start limit : Nat} {cs : Mem} {rec : EncodeCall} {top : Bool}

/-- The bytes that a group takes, with the header of its TLV. -/
def Group.encodedSize (cs : Mem) (d : Nat) (top : Bool) (base : Nat) (g : Group) : Nat :=
  if g.present cs base then (g.payload (nestedBytes cs d) cs top base).length + closingLen top else 0

/-- The loop over the groups `gs`. -/
theorem loop_guarded {gs : List Group} {eoti : QmiElemInfo} (htop : top = decide (encLevel = 1))
    (hend : eoti.dataType = .eoti) (hlevel : 1 ≤ encLevel) (hshape : ∀ g ∈ gs, g.Shaped)
    (hrules : EncodeRules encLevel gs eoti)
    (hcall : ∀ g ∈ gs, g.value.dataType = .struct → CallGuarded d cs rec g.value.eiArray (encLevel + 1))
    (s : EncodeState) (fuel : Nat) (hs : s.Open start top) (hidle : s.Idle top)
    (htemp : s.tempEi = flatten gs eoti) (hfuel : (flatten gs eoti).length ≤ fuel)
    (hlimit : s.bufDst + (gs.map (Group.encodedSize cs d top base)).sum ≤ limit + closingLen top) :
    (qmiEncodeLoop rec cs base outBufLen encLevel fuel s).Guarded (Machine.Below limit) (· = einval) fun rc =>
      rc = s.encodedBytes + (gs.map (Group.encodedSize cs d top base)).sum ∧
        ∀ g ∈ gs, g.present cs base = true → g.ValueFits (ValuesFit id cs d) id cs base := by
  induction gs generalizing s fuel with
  | nil =>
      obtain ⟨fuel, rfl⟩ : ∃ f, fuel = f + 1 := ⟨fuel - 1, by simp at hfuel; omega⟩
      rw [qmiEncodeLoop_nil htemp hend]
      exact guarded_pure ⟨rfl, by simp⟩
  | cons g gs ih =>
      have hg := hshape g List.mem_cons_self
      have hrest := ih (fun g' hg' => hshape g' (List.mem_cons_of_mem _ hg')) hrules.tail
        (fun g' hg' => hcall g' (List.mem_cons_of_mem _ hg'))
      rw [List.map_cons, List.sum_cons] at hlimit ⊢
      -- a present group, from its count or its value on
      have hpresent : ∀ (s' : EncodeState) (fuel' : Nat), g.present cs base = true →
          s.Moved start top 0 (g.unflagged.elems ++ flatten gs eoti) s' →
          g.unflagged.elems.length + (flatten gs eoti).length ≤ fuel' →
          (qmiEncodeLoop rec cs base outBufLen encLevel fuel' s').Guarded (Machine.Below limit) (· = einval)
            fun rc => rc = s.encodedBytes +
                (g.encodedSize cs d top base + (gs.map (Group.encodedSize cs d top base)).sum) ∧
              ∀ g' ∈ g :: gs, g'.present cs base = true → g'.ValueFits (ValuesFit id cs d) id cs base := by
        intro s' fuel' hpres ⟨hs', htemp', hdst⟩ hfuel'
        rw [Group.encodedSize, if_pos hpres] at hlimit ⊢
        refine (loop_unflagged_guarded (R := fun rc =>
            rc = s.encodedBytes + ((g.payload (nestedBytes cs d) cs top base).length + closingLen top +
                (gs.map (Group.encodedSize cs d top base)).sum) ∧
              ∀ g' ∈ gs, g'.present cs base = true → g'.ValueFits (ValuesFit id cs d) id cs base)
          s' fuel' htop hg (hrules.1 g List.mem_cons_self) (hcall g List.mem_cons_self)
          (hrules.skip_value hlevel) hs' htemp' hfuel' (by omega) ?_).imp fun _ ⟨hfit, hrc, hfits⟩ =>
            ⟨hrc, List.forall_mem_cons.mpr ⟨fun _ => hfit, hfits⟩⟩
        rintro s'' fuel'' ⟨hs'', htemp'', hdst''⟩ hidle'' hfuel''
        have hbuf := hs.buf
        have hbuf'' := hs''.buf
        refine (hrest s'' fuel'' hs'' hidle'' htemp'' hfuel'' (by omega)).imp ?_
        rintro _ ⟨rfl, hfits⟩
        exact ⟨by omega, hfits⟩
      rw [flatten_cons] at htemp hfuel
      rw [List.length_append] at hfuel
      cases hf : g.flag? with
      | none =>
          have hflag := Group.unflagged_of_none hf
          have hpres : g.present cs base = true := by simp [Group.present, hf]
          exact hpresent s fuel hpres ⟨hs, by rwa [hflag], rfl⟩ (by rwa [hflag])
      | some f =>
          obtain rfl := (hrules.1 g List.mem_cons_self).level_of_flag hlevel hf
          obtain rfl : top = true := htop
          obtain ⟨c, hiter⟩ := iter_flag rec outBufLen (hidle rfl) hg hrules hf htemp
          rw [Group.elems_of_flag hf] at htemp hfuel
          rw [List.length_cons] at hfuel
          obtain ⟨fuel, rfl⟩ : ∃ n, fuel = n + 1 := ⟨fuel - 1, by omega⟩
          rw [qmiEncodeLoop_cons htemp (by simp [hg.flag f hf]), hiter, pure_bind]
          cases hpres : g.present cs base with
          | true => exact hpresent _ fuel hpres ⟨hs.congr rfl rfl rfl, rfl, rfl⟩ (by omega)
          | false =>
              have hsize : g.encodedSize cs d true base = 0 := if_neg (by simp [hpres])
              rw [hsize, Nat.zero_add] at hlimit ⊢
              refine (hrest { s with dataLenValue := c, tempEi := flatten gs eoti } fuel
                (hs.congr rfl rfl rfl) hidle rfl (by omega) hlimit).imp ?_
              rintro _ ⟨hrc, hfits⟩
              exact ⟨hrc, List.forall_mem_cons.mpr ⟨fun h => by simp [hpres] at h, hfits⟩⟩

end Loop

/-! ### The encoder -/

/-- The groups of a nested structure are all present, and have no headers. -/
theorem length_nestedBytes {cs : Mem} {d level base : Nat} {gs : List Group} {eoti : QmiElemInfo}
    (hrules : EncodeRules level gs eoti) (hlevel : 1 < level) :
    (gs.flatMap (Group.payload (nestedBytes cs d) cs false base)).length =
      (gs.map (Group.encodedSize cs d false base)).sum := by
  rw [List.length_flatMap]
  congr 1
  apply List.map_congr_left
  intro g hg
  rw [Group.encodedSize, if_pos ((hrules.1 g hg).present hlevel cs base)]
  rfl

theorem length_tlvBytes (cs : Mem) (d base : Nat) (gs : List Group) :
    (tlvBytes cs d base gs).length = (gs.map (Group.encodedSize cs d true base)).sum := by
  induction gs with
  | nil => rfl
  | cons g gs ih =>
      rw [tlvBytes_cons, List.map_cons, List.sum_cons, ← ih, Group.encodedSize]
      split
      · rw [List.length_append, length_tlv, Group.body, closingLen, if_pos rfl, Nat.add_comm 3]
      · exact (Nat.zero_add _).symm

/-- A nested structure. -/
theorem qmiEncode_guarded (cs : Mem) {level : Nat} {ei : List QmiElemInfo}
    (h : Described EncodeRules level ei) (hlevel : 1 < level) {d : Nat} (hd : nestDepth ei ≤ d) :
    CallGuarded d cs (qmiEncode cs d) ei level := by
  induction h generalizing d with
  | @mk level gs eoti hend hshape hP hnest ih =>
      intro outBuf base outBufLen limit hlimit
      obtain ⟨d, rfl⟩ := exists_eq_succ_of_nestDepth_le hd
      have hne : (flatten gs eoti).isEmpty = false := by simp [flatten]
      have hone : level ≠ 1 := by omega
      rw [nestedBytes, groups_flatten hend hshape, length_nestedBytes hP hlevel] at hlimit ⊢
      rw [qmiEncode, hne, ValuesFit, groups_flatten hend hshape]
      have hs : (EncodeState.init (flatten gs eoti) outBuf level).Open outBuf false := by
        refine ⟨?_, fun h => absurd h Bool.false_ne_true⟩
        simp [EncodeState.init, hone]
      refine (loop_guarded (decide_eq_false hone).symm hend hlevel.le hshape hP
        (fun g hg hstruct => ih g hg hstruct (by omega) (nestDepth_value hg hd)) _ _ hs
        (fun h => absurd h Bool.false_ne_true) rfl
        (Nat.le_refl _) (by simpa [EncodeState.init, hone, closingLen] using hlimit)).imp ?_
      rintro _ ⟨rfl, hfits⟩
      exact ⟨Nat.zero_add _, hfits⟩

/-- The encoder refuses a message with `-EINVAL`, or its counts and strings are within their bounds; whatever
    the space, it writes the bytes of the message at most. -/
theorem qmiEncodeMessage_guarded (cs : Mem) {ei : List QmiElemInfo} (h : Described EncodeRules 1 ei)
    (outBuf base outBufLen : Nat) :
    (qmiEncode cs (nestDepth ei) ei outBuf base outBufLen 1).Guarded
      (Machine.Below (outBuf + (messageBytes cs ei base).length)) (· = einval) fun rc =>
        rc = (messageBytes cs ei base).length ∧ ValuesFit id cs (nestDepth ei) ei base := by
  obtain ⟨d, hd⟩ := exists_eq_succ_of_nestDepth_le (Nat.le_refl (nestDepth ei))
  rw [messageBytes, hd, Nat.add_sub_cancel, length_tlvBytes]
  cases h with
  | @mk _ gs eoti hend hshape hP hnest =>
      have hne : (flatten gs eoti).isEmpty = false := by simp [flatten]
      rw [qmiEncode, hne, ValuesFit, groups_flatten hend hshape]
      have hs : (EncodeState.init (flatten gs eoti) outBuf 1).Open (outBuf + 3) true :=
        ⟨rfl, fun _ => Nat.le_refl _⟩
      refine (loop_guarded rfl hend (Nat.le_refl 1) hshape hP
        (fun g hg hstruct => qmiEncode_guarded cs (hnest g hg hstruct) (by omega) (nestDepth_value hg hd.le))
        _ _ hs (fun _ => rfl) rfl (Nat.le_refl _) (by simp [EncodeState.init, closingLen]; omega)).imp ?_
      rintro _ ⟨rfl, hfits⟩
      exact ⟨Nat.zero_add _, hfits⟩

/-- The numbers of C make no difference to an encoding of fewer than 2^31 bytes. -/
theorem Machine.qmiEncode_eq (cs : Mem) {ei : List QmiElemInfo} (h : Described EncodeRules 1 ei)
    (base outBufLen : Nat) (hshort : (messageBytes cs ei base).length < 2 ^ 31) :
    qmiEncode cs (nestDepth ei) ei 0 base outBufLen 1 =
      Qrtr.qmiEncode cs (nestDepth ei) ei 0 base outBufLen 1 := by
  have hbelow := (qmiEncodeMessage_guarded cs h 0 base outBufLen).every
  rw [Nat.zero_add] at hbelow
  exact (qmiEncode_matches hshort cs _ ei base outBufLen (.inl ⟨rfl, Nat.zero_le _⟩)).eq (.inl hbelow)

end Qrtr
