/-
Module: Qrtr.Qmi.ReadBack
Layer: Qmi
Purpose: The decoder on the bytes of the plain serializer. From a clean start it reads every field back and
  stores it where it came from; from any other it ends in an error, if counts stand in front of
  variable-length arrays only. One lemma for each function of the decoder, up to a whole message.
Imports: Qmi.Restore, Qmi.Walk
Main exports: ReadsBack, Settles, readGroup_settles, readNested_settles, readMessage_settles
Open obligations: none
-/
import Qrtr.Qmi.Restore
import Qrtr.Qmi.Walk

namespace Qrtr

/-! ### Runs that read back -/

theorem storedWrites_append (t t' : List DecodeEvent) :
    storedWrites (t ++ t') = storedWrites t ++ storedWrites t' :=
  List.filterMap_append

section Rules

variable {α β : Type} {img : Mem} {H H' : Nat → Prop} {a : α} {b : β} {m : Decoding α}
  {f : α → Decoding β}

/-- The run succeeds with `a`, and its stores copy the addresses in `H` from `img`. -/
structure ReadsBack (img : Mem) (H : Nat → Prop) (a : α) (m : Decoding α) : Prop where
  res : m.res = .ok a
  copies : Copies img H (storedWrites m.trace)

theorem ReadsBack.pure (img : Mem) (h : ∀ x, ¬ H x) (a : α) :
    ReadsBack img H a (Pure.pure a : Decoding α) :=
  ⟨rfl, Copies.nil h⟩

/-- A result computed from that of a run. -/
theorem ReadsBack.map (h : ReadsBack img H a m) (f : α → β) :
    ReadsBack img H (f a) (m >>= fun r => Pure.pure (f r)) := by
  rw [Traced.bind_ok h.res]
  refine ⟨rfl, ?_⟩
  rw [Traced.after_trace, Traced.pure_trace, List.append_nil]
  exact h.copies

/-- Events that are no stores, in front of a run. -/
theorem ReadsBack.after {t : List DecodeEvent} (ht : storedWrites t = [])
    (h : ReadsBack img H a m) : ReadsBack img H a (Traced.after t m) := by
  refine ⟨h.res, ?_⟩
  rw [Traced.after_trace, storedWrites_append, ht, List.nil_append]
  exact h.copies

theorem ReadsBack.bind (h : ReadsBack img H a m) (h' : ReadsBack img H' b (f a)) :
    ReadsBack img (fun x => H x ∨ H' x) b (m >>= f) := by
  rw [Traced.bind_ok h.res]
  refine ⟨h'.res, ?_⟩
  rw [Traced.after_trace, storedWrites_append]
  exact h.copies.append h'.copies

/-- A first part without stores. -/
theorem ReadsBack.silent_bind (h : ReadsBack img (fun _ => False) a m)
    (h' : ReadsBack img H b (f a)) : ReadsBack img H b (m >>= f) :=
  ⟨(h.bind h').res, (h.bind h').copies.congr fun _ => (iff_of_eq (false_or _)).symm⟩

theorem ReadsBack.congr (h : ReadsBack img H a m) (hH : ∀ x, H' x ↔ H x) : ReadsBack img H' a m :=
  ⟨h.res, h.copies.congr hH⟩

/-- The run reads back if it is `clean`; if it is not, and `strict` holds, it ends in an error. -/
structure Settles (strict clean : Prop) (img : Mem) (H : Nat → Prop) (a : α) (m : Decoding α) :
    Prop where
  reads : clean → ReadsBack img H a m
  fails : strict → ¬ clean → ∃ e, m.res = .error e

variable {strict clean clean' : Prop}

theorem ReadsBack.settles (h : ReadsBack img H a m) (hclean : clean) :
    Settles strict clean img H a m :=
  ⟨fun _ => h, fun _ hnot => absurd hclean hnot⟩

theorem Settles.congr (h : Settles strict clean img H a m) (hclean : clean' ↔ clean)
    (hH : ∀ x, H' x ↔ H x) : Settles strict clean' img H' a m :=
  ⟨fun hc => (h.reads (hclean.mp hc)).congr hH, fun hs hnot => h.fails hs fun hc => hnot (hclean.mpr hc)⟩

theorem Settles.after {t : List DecodeEvent} (ht : storedWrites t = [])
    (h : Settles strict clean img H a m) : Settles strict clean img H a (Traced.after t m) :=
  ⟨fun hc => (h.reads hc).after ht, h.fails⟩

/-- A sequence settles when its parts do; the first error ends it. -/
theorem Settles.bind (h : Settles strict clean img H a m) (h' : Settles strict clean' img H' b (f a)) :
    Settles strict (clean ∧ clean') img (fun x => H x ∨ H' x) b (m >>= f) := by
  refine ⟨fun hc => (h.reads hc.1).bind (h'.reads hc.2), fun hs hnot => ?_⟩
  by_cases hclean : clean
  · obtain ⟨e, he⟩ := h'.fails hs fun hc => hnot ⟨hclean, hc⟩
    rw [Traced.bind_ok (h.reads hclean).res]
    exact ⟨e, he⟩
  · obtain ⟨e, he⟩ := h.fails hs hclean
    rw [Traced.bind_error he]
    exact ⟨e, rfl⟩

theorem Settles.map (h : Settles strict clean img H a m) (f : α → β) :
    Settles strict clean img H (f a) (m >>= fun r => Pure.pure (f r)) := by
  refine ⟨fun hc => (h.reads hc).map f, fun hs hnot => ?_⟩
  obtain ⟨e, he⟩ := h.fails hs hnot
  rw [Traced.bind_error he]
  exact ⟨e, rfl⟩

/-- The same with a first part that always succeeds. -/
theorem ReadsBack.bind_settles (h : ReadsBack img H a m)
    (h' : Settles strict clean img H' b (f a)) :
    Settles strict clean img (fun x => H x ∨ H' x) b (m >>= f) :=
  ((h.settles trivial).bind h').congr (iff_of_eq (true_and _)).symm fun _ => Iff.rfl

end Rules

/-! ### Basic types and strings -/

theorem inBlock_add {a n k x : Nat} : InBlock a (n + k) x ↔ InBlock a n x ∨ InBlock (a + n) k x := by
  unfold InBlock
  omega

/-- An array of a basic type. -/
theorem qmiDecodeBasicElem_readsBack {mem cs : Mem} (ei : QmiElemInfo) {n : Nat} (i : Nat)
    {addr pos : Nat} (h : mem.Has pos (cs.bytes addr (n * ei.elemSize))) :
    ReadsBack cs (InBlock addr (n * ei.elemSize)) (n * ei.elemSize)
      (qmiDecodeBasicElem mem ei n i addr pos) := by
  induction n generalizing i addr pos with
  | zero =>
      rw [Nat.zero_mul]
      apply ReadsBack.pure
      intro x
      unfold InBlock
      omega
  | succ n ih =>
      have hmul : (n + 1) * ei.elemSize = ei.elemSize + n * ei.elemSize := by ring
      rw [hmul] at h ⊢
      rw [Mem.bytes_add, Mem.has_append, Mem.length_bytes] at h
      obtain ⟨hhead, htail⟩ := h
      have hbytes : mem.bytes pos ei.elemSize = cs.bytes addr ei.elemSize := by
        rw [Mem.Has, Mem.length_bytes] at hhead
        exact hhead
      rw [qmiDecodeBasicElem, hbytes]
      have hstore : ReadsBack cs (InBlock addr ei.elemSize) ()
          (Traced.emit (.store ei i addr (cs.bytes addr ei.elemSize))) :=
        ⟨rfl, Copies.single cs addr ei.elemSize⟩
      rw [Traced.emit_bind]
      apply ReadsBack.after rfl
      apply (hstore.bind ((ih (i + 1) htail).map (ei.elemSize + ·))).congr
      intro x
      exact inBlock_add

/-- The string in the field of `ei` has a NUL, which lies in the field. -/
theorem textLen_nul {cs : Mem} {ei : QmiElemInfo} {addr : Nat} (h : textLen cs ei addr < ei.elemLen) :
    cs (addr + textLen cs ei addr) = 0 :=
  strnlen_nul (Nat.lt_succ_of_lt h)

/-- The length of a string is read as it was written, if the prefix holds it. -/
theorem overlayLow_leBytes {n k : Nat} (h : n < 256 ^ k) : overlayLow 0 (leBytes k n) = n := by
  rw [overlayLow, Nat.zero_div, Nat.mul_zero, Nat.add_zero, leValue_leBytes, Nat.mod_eq_of_lt h]

/-- A string whose length fits the prefix, if it has one. -/
theorem qmiDecodeStringElem_readsBack {mem cs : Mem} {ei : QmiElemInfo} (hsize : ei.elemSize = 1)
    {addr pos room level : Nat} {top : Bool} (htop : level = 1 ↔ top = true)
    (hlen : textLen cs ei addr ≤ ei.elemLen) (hnul : cs (addr + textLen cs ei addr) = 0)
    (hwidth : top = false → textLen cs ei addr < 256 ^ stringLenSz ei)
    (hmem : mem.Has pos (textBytes cs top ei addr)) (hroom : (textBytes cs top ei addr).length ≤ room)
    (hall : top = true → (textBytes cs top ei addr).length = room) :
    ReadsBack cs (InBlock addr (textLen cs ei addr + 1)) (textBytes cs top ei addr).length
      (qmiDecodeStringElem mem ei addr pos room level) := by
  rw [length_textBytes cs hsize] at hroom hall ⊢
  rw [textBytes, hsize, Nat.mul_one, Mem.has_append] at hmem
  obtain ⟨hfront, htext⟩ := hmem
  have hread : ReadsBack cs (fun _ => False)
      (textLen cs ei addr, if top then 0 else stringLenSz ei)
      (decodeStringLen mem ei pos room level) := by
    unfold decodeStringLen
    cases top with
    | true =>
        rw [if_pos (htop.mpr rfl)]
        have := hall rfl
        simp only [if_true, Nat.zero_add] at this ⊢
        rw [this]
        exact .pure _ (fun _ => not_false) _
    | false =>
        rw [if_neg (fun h => Bool.false_ne_true (htop.mp h)), qmiDecodeLocal_bind]
        rw [if_neg (by simp), Mem.Has, length_leBytes] at hfront
        rw [hfront, overlayLow_leBytes (hwidth rfl)]
        exact .after rfl (.pure _ (fun _ => not_false) _)
  have hstart : pos + (if top then [] else leBytes (stringLenSz ei) (textLen cs ei addr)).length =
      pos + if top then 0 else stringLenSz ei := by
    cases top <;> simp
  rw [hstart] at htext
  have hbody : ReadsBack cs (InBlock addr (textLen cs ei addr)) (textLen cs ei addr)
      (qmiDecodeBasicElem mem ei (textLen cs ei addr) 0 addr
        (pos + if top then 0 else stringLenSz ei)) := by
    have h := qmiDecodeBasicElem_readsBack ei 0 (n := textLen cs ei addr) (by
      rw [hsize, Nat.mul_one]
      exact htext)
    rwa [hsize, Nat.mul_one] at h
  have hstop : ReadsBack cs (InBlock (addr + textLen cs ei addr) 1) ()
      (Traced.emit (.store ei (textLen cs ei addr) (addr + textLen cs ei addr) [0])) := by
    refine ⟨rfl, ?_⟩
    have := Copies.single cs (addr + textLen cs ei addr) 1
    rwa [Mem.bytes, Mem.bytes_zero, hnul] at this
  have hrest : ReadsBack cs (InBlock addr (textLen cs ei addr + 1))
      ((if top then 0 else stringLenSz ei) + textLen cs ei addr) (do
        let rc ← qmiDecodeBasicElem mem ei (textLen cs ei addr) 0 addr
          (pos + if top then 0 else stringLenSz ei)
        Traced.emit (.store ei (textLen cs ei addr) (addr + textLen cs ei addr) [0])
        pure ((if top then 0 else stringLenSz ei) + rc)) := by
    apply (hbody.bind (hstop.map fun _ => _)).congr
    intro x
    exact inBlock_add
  rw [qmiDecodeStringElem]
  apply hread.silent_bind
  simp only
  rw [if_neg (Nat.not_lt.mpr hlen), if_neg (Nat.not_lt.mpr (Nat.le_of_add_left_le hroom))]
  exact hrest

/-- A string in its field, with its NUL, fits the prefix. -/
theorem textLen_width {cs : Mem} {ei : QmiElemInfo} {addr : Nat} (h : textLen cs ei addr < ei.elemLen)
    (hlt : textLen cs ei addr < 65536) : textLen cs ei addr < 256 ^ stringLenSz ei := by
  unfold stringLenSz
  split
  · change _ < 256
    omega
  · exact hlt

/-! ### Arrays of structures -/

section Structures

variable {strict : Prop} {mem cs : Mem} {rec : DecodeCall} {ei : QmiElemInfo} {level tlvLen : Nat}
  {elem : Nat → List UInt8} {nested : Nat → Nat → Prop} {H : Nat → Nat → Prop}

/-- The call for the structure at `addr` settles wherever its bytes are met, with any room behind them. A
    structure without bytes holds nothing, and it is clean at the end of the payload. -/
structure ElemSettles (strict : Prop) (mem cs : Mem) (rec : DecodeCall) (eiArray : List QmiElemInfo)
    (level : Nat) (elem : Nat → List UInt8) (nested : Nat → Nat → Prop) (H : Nat → Nat → Prop)
    (addr : Nat) : Prop where
  call : ∀ pos room, mem.Has pos (elem addr) → (elem addr).length ≤ room → room < 65536 →
    Settles strict (nested addr room) cs (H addr) (elem addr).length (rec eiArray addr pos room level)
  empty : elem addr = [] → ∀ x, ¬ H addr x
  atEnd : nested addr 0

theorem length_arrayBytes_succ (size n addr : Nat) : (arrayBytes elem size (n + 1) addr).length =
    (elem addr).length + (arrayBytes elem size n (addr + size)).length := by
  rw [arrayBytes, List.length_append]

theorem addr_succ (addr size j : Nat) : addr + (j + 1) * size = addr + size + j * size := by
  ring

/-- No element of an array without bytes holds anything. -/
theorem arrayBytes_empty {n addr : Nat} (h : ∀ j, j < n → ElemSettles strict mem cs rec ei.eiArray level
      elem nested H (addr + j * ei.elemSize))
    (hempty : (arrayBytes elem ei.elemSize n addr).length = 0) {j : Nat} (hj : j < n) (x : Nat) :
    ¬ H (addr + j * ei.elemSize) x := by
  induction n generalizing addr j with
  | zero => exact absurd hj (Nat.not_lt_zero _)
  | succ n ih =>
      rw [length_arrayBytes_succ] at hempty
      obtain ⟨hhead, htail⟩ := Nat.add_eq_zero_iff.mp hempty
      cases j with
      | zero =>
          apply (h 0 hj).empty
          rw [Nat.zero_mul, Nat.add_zero]
          exact List.length_eq_zero_iff.mp hhead
      | succ j =>
          rw [addr_succ]
          apply ih _ htail (Nat.lt_of_succ_lt_succ hj)
          intro j hj
          rw [← addr_succ]
          exact h (j + 1) (Nat.succ_lt_succ hj)

/-- The loop over the structures of an array, from the one at `addr` on, `k` bytes after the start. It
    stops early exactly when the last structure begins at the end of the payload. -/
theorem qmiDecodeStructLoop_settles (hlt : tlvLen < 65536) (left i addr pos k : Nat)
    (h : ∀ j, j < left → ElemSettles strict mem cs rec ei.eiArray level elem nested H
      (addr + j * ei.elemSize))
    (hmem : mem.Has pos (arrayBytes elem ei.elemSize left addr))
    (hroom : k + (arrayBytes elem ei.elemSize left addr).length ≤ tlvLen) :
    ∃ i', i' ≤ i + left ∧ (i' < i + left ↔
        0 < left ∧ tlvLen ≤ k + (arrayBytes elem ei.elemSize (left - 1) addr).length) ∧
      Settles strict (∀ j, j < left → nested (addr + j * ei.elemSize)
          (tlvLen - (k + (arrayBytes elem ei.elemSize j addr).length)))
        cs (fun x => ∃ j, j < left ∧ H (addr + j * ei.elemSize) x)
        (i', k + (arrayBytes elem ei.elemSize left addr).length)
        (qmiDecodeStructLoop rec ei tlvLen level left i addr pos k) := by
  induction left generalizing i addr pos k with
  | zero =>
      refine ⟨i, Nat.le_refl _, by simp, ?_⟩
      apply ReadsBack.settles
      · exact .pure cs (by simp) _
      · simp
  | succ left ih =>
      have hhead : ElemSettles strict mem cs rec ei.eiArray level elem nested H addr := by
        have := h 0 (Nat.zero_lt_succ _)
        rwa [Nat.zero_mul, Nat.add_zero] at this
      rw [qmiDecodeStructLoop]
      by_cases hk : k < tlvLen
      · rw [if_pos hk, Traced.emit_bind, decodeSub_bind, Traced.after_after,
          u32Sub_of_le hk.le (by omega)]
        rw [arrayBytes, Mem.has_append] at hmem
        rw [length_arrayBytes_succ, ← Nat.add_assoc] at hroom
        have hcall := hhead.call pos (tlvLen - k) hmem.1 (by omega) (by omega)
        obtain ⟨i', hle, hstop, hrest⟩ := ih (i + 1) (addr + ei.elemSize) (pos + (elem addr).length)
          (k + (elem addr).length)
          (fun j hj => by
            rw [← addr_succ]
            exact h (j + 1) (Nat.succ_lt_succ hj)) hmem.2 hroom
        refine ⟨i', by omega, ?_, ?_⟩
        · cases left with
          | zero =>
              have : ¬ i' < i + 1 + 0 := fun hlt => Nat.lt_irrefl 0 (hstop.mp hlt).1
              simp only [arrayBytes, Nat.add_sub_cancel, List.length_nil]
              omega
          | succ left =>
              rw [Nat.add_sub_cancel] at hstop ⊢
              rw [length_arrayBytes_succ, ← Nat.add_assoc]
              omega
        · rw [length_arrayBytes_succ, ← Nat.add_assoc]
          apply Settles.after rfl
          apply (hcall.bind hrest).congr
          · rw [Nat.forall_lt_succ_left]
            simp only [Nat.zero_mul, Nat.add_zero, arrayBytes, List.length_nil, addr_succ,
              List.length_append, Nat.add_assoc]
          · intro x
            rw [Nat.exists_lt_succ_left]
            simp only [Nat.zero_mul, Nat.add_zero, addr_succ]
      · -- the payload is used up: what is left of the array has no bytes
        rw [if_neg hk]
        have hempty : (arrayBytes elem ei.elemSize (left + 1) addr).length = 0 := by omega
        have hshort : ∀ j, tlvLen - (k + (arrayBytes elem ei.elemSize j addr).length) = 0 := by
          intro j
          omega
        refine ⟨i, by omega, ?_, ?_⟩
        · constructor
          · intro _
            exact ⟨Nat.succ_pos _, by omega⟩
          · intro _
            omega
        · rw [hempty, Nat.add_zero]
          apply ReadsBack.settles
          · apply ReadsBack.pure
            rintro x ⟨j, hj, hx⟩
            exact arrayBytes_empty h hempty hj x hx
          · intro j hj
            rw [hshort]
            exact (h j hj).atEnd

/-- An array of structures. -/
theorem qmiDecodeStructElem_settles {n addr pos : Nat} {top : Bool} (htop : level ≤ 2 ↔ top = true)
    (hlt : tlvLen < 65536)
    (h : ∀ j, j < n → ElemSettles strict mem cs rec ei.eiArray level elem nested H
      (addr + j * ei.elemSize))
    (hmem : mem.Has pos (arrayBytes elem ei.elemSize n addr))
    (hroom : (arrayBytes elem ei.elemSize n addr).length ≤ tlvLen)
    (hall : top = true → (arrayBytes elem ei.elemSize n addr).length = tlvLen) :
    Settles strict (ElemsClean elem nested ei.elemSize top n addr tlvLen) cs
      (fun x => ∃ j, j < n ∧ H (addr + j * ei.elemSize) x)
      (arrayBytes elem ei.elemSize n addr).length
      (qmiDecodeStructElem rec ei addr pos n tlvLen level) := by
  obtain ⟨i', hle, hstop, hloop⟩ := qmiDecodeStructLoop_settles hlt n 0 addr pos 0 h hmem
    (by rwa [Nat.zero_add])
  simp only [Nat.zero_add] at hle hstop hloop
  have hcheck : Settles strict
      (top = false → 0 < n → (arrayBytes elem ei.elemSize (n - 1) addr).length < tlvLen) cs
      (fun _ => False) (arrayBytes elem ei.elemSize n addr).length
      (if (level ≤ 2 ∧ (arrayBytes elem ei.elemSize n addr).length ≠ tlvLen) ∨
          (2 < level ∧ (i' < n ∨ tlvLen < (arrayBytes elem ei.elemSize n addr).length)) then
        Traced.fail efault
      else pure (arrayBytes elem ei.elemSize n addr).length : Decoding Nat) := by
    constructor
    · intro hclean
      rw [if_neg]
      · exact .pure cs (fun _ => not_false) _
      · rintro (⟨htwo, hne⟩ | ⟨htwo, hi | hover⟩)
        · exact hne (hall (htop.mp htwo))
        · have htop' : top = false :=
            Bool.eq_false_iff.mpr fun heq => absurd (htop.mpr heq) (Nat.not_le.mpr htwo)
          obtain ⟨hn, hend⟩ := hstop.mp hi
          exact absurd (hclean htop' hn) (Nat.not_lt.mpr hend)
        · exact absurd hroom (Nat.not_le.mpr hover)
    · intro _ hnot
      rw [if_pos]
      · exact ⟨_, rfl⟩
      · obtain ⟨htop', hrest⟩ := Classical.not_imp.mp hnot
        obtain ⟨hn, hend⟩ := Classical.not_imp.mp hrest
        refine .inr ⟨Nat.lt_of_not_le fun hle => ?_, .inl (hstop.mpr ⟨hn, Nat.le_of_not_lt hend⟩)⟩
        rw [htop.mp hle] at htop'
        cases htop'
  apply (hloop.bind hcheck).congr
  · exact Iff.rfl
  · exact fun _ => (iff_of_eq (or_false _)).symm

end Structures

/-! ### Groups -/

section Groups

variable {strict : Prop} {mem cs : Mem} {rec : DecodeCall} {d : Nat}

/-- The call for the structure at `addr`, with the bytes of the plain serializer. -/
abbrev CallSettles (strict : Prop) (mem cs : Mem) (rec : DecodeCall) (d level : Nat)
    (eiArray : List QmiElemInfo) (addr : Nat) : Prop :=
  ElemSettles strict mem cs rec eiArray level (nestedBytes cs d eiArray) (NestedClean cs d eiArray)
    (fun addr x => ∃ g ∈ groups eiArray, Holds cs g addr x) addr

/-- The addresses of the elements that a group holds. -/
def HoldsElems (cs : Mem) (g : Group) (base x : Nat) : Prop :=
  match g.value.dataType with
  | .struct => ∃ i, i < g.count cs base ∧ ∃ g' ∈ groups g.value.eiArray,
      Holds cs g' (base + g.value.offset + i * g.value.elemSize) x
  | .string =>
      InBlock (base + g.value.offset) (textLen cs g.value (base + g.value.offset) + 1) x
  | _ => InBlock (base + g.value.offset) (g.count cs base * g.value.elemSize) x

theorem holds_iff {g : Group} {base x : Nat} : Holds cs g base x ↔
    (∃ l, g.len? = some l ∧ InBlock (base + l.offset) 4 x) ∨ HoldsElems cs g base x := by
  unfold HoldsElems
  constructor
  · intro h
    cases h with
    | count hlen hx => exact .inl ⟨_, hlen, hx⟩
    | text htype hx =>
        simp only [htype]
        exact .inr hx
    | basic hstruct hstring hx =>
        right
        cases htype : g.value.dataType with
        | struct => exact absurd htype hstruct
        | string => exact absurd htype hstring
        | _ => exact hx
    | nested htype hi hg' hx =>
        simp only [htype]
        exact .inr ⟨_, hi, _, hg', hx⟩
  · rintro (⟨l, hlen, hx⟩ | h)
    · exact .count hlen hx
    · cases htype : g.value.dataType with
      | struct =>
          rw [htype] at h
          obtain ⟨i, hi, g', hg', hx⟩ := h
          exact .nested htype hi hg' hx
      | string =>
          rw [htype] at h
          exact .text htype h
      | _ =>
          rw [htype] at h
          exact .basic (by simp [htype]) (by simp [htype]) h

/-- The value of a group. -/
theorem decodeSwitch_settles {g : Group} (hvalue : g.value.dataType.IsValue)
    (hsize : g.value.dataType = .string → g.value.elemSize = 1) {base pos room level : Nat}
    {top : Bool} (htop : level = 1 ↔ top = true) (hlevel : 0 < level)
    (htext : g.value.dataType = .string →
      textLen cs g.value (base + g.value.offset) < g.value.elemLen)
    (hcalls : g.value.dataType = .struct → ∀ i, i < g.count cs base →
      CallSettles strict mem cs rec d (level + 1) g.value.eiArray
        (base + g.value.offset + i * g.value.elemSize))
    (hmem : mem.Has pos (valueBytes (nestedBytes cs d) cs top g.value (base + g.value.offset)
      (g.count cs base)))
    (hlt : room < 65536)
    (hroom : (valueBytes (nestedBytes cs d) cs top g.value (base + g.value.offset)
      (g.count cs base)).length ≤ room)
    (hall : top = true → (valueBytes (nestedBytes cs d) cs top g.value (base + g.value.offset)
      (g.count cs base)).length = room) :
    Settles strict (g.value.dataType = .struct →
        ElemsClean (nestedBytes cs d g.value.eiArray) (NestedClean cs d g.value.eiArray)
          g.value.elemSize top (g.count cs base) (base + g.value.offset) room) cs
      (HoldsElems cs g base)
      (valueBytes (nestedBytes cs d) cs top g.value (base + g.value.offset) (g.count cs base)).length
      (decodeSwitch rec mem g.value (base + g.value.offset) pos (g.count cs base) room level) := by
  unfold valueBytes at hmem hroom hall ⊢
  unfold HoldsElems decodeSwitch
  cases htype : g.value.dataType with
  | eoti | optFlag | dataLen => simp [htype, QmiElemType.IsValue] at hvalue
  | struct =>
      simp only [htype] at hmem hroom hall ⊢
      have htop' : level + 1 ≤ 2 ↔ top = true := by
        rw [← htop]
        omega
      apply (qmiDecodeStructElem_settles htop' hlt (hcalls htype) hmem hroom hall).congr
      · exact forall_const _
      · exact fun _ => Iff.rfl
  | string =>
      simp only [htype] at hmem hroom hall ⊢
      have hlen := htext htype
      have hshort : textLen cs g.value (base + g.value.offset) < 65536 := by
        rw [length_textBytes cs (hsize htype)] at hroom
        omega
      exact (qmiDecodeStringElem_readsBack (hsize htype) htop hlen.le (textLen_nul hlen)
        (fun _ => textLen_width hlen hshort) hmem hroom hall).settles (by simp)
  | _ =>
      simp only [htype, Mem.length_bytes] at hmem ⊢
      exact (qmiDecodeBasicElem_readsBack g.value 0 hmem).settles (by simp)

/-- The count of a group fits its place in the message, and the bytes that the encoder takes make it up. -/
theorem Group.RoundTrippable.lenValue {g : Group} (htrip : g.RoundTrippable) {base : Nat}
    {l : QmiElemInfo} (hl : g.len? = some l)
    (hcount : leValue (cs.bytes (base + l.offset) 4) ≤ g.value.elemLen) :
    g.lenValue cs base = leValue (cs.bytes (base + l.offset) 4) ∧
      g.lenValue cs base < 256 ^ dataLenSz l := by
  obtain ⟨hsize, hwide⟩ := htrip.len_size l hl
  have hlt : leValue (cs.bytes (base + l.offset) 4) < 256 ^ l.elemSize := Nat.lt_of_le_of_lt hcount hwide
  obtain ⟨k, hk⟩ : ∃ k, 4 = l.elemSize + k := ⟨4 - l.elemSize, by omega⟩
  have hvalue : g.lenValue cs base = leValue (cs.bytes (base + l.offset) 4) := by
    rw [Group.lenValue, hl]
    simp only
    rw [leValue_take cs _ _ k, ← hk, Nat.mod_eq_of_lt hlt]
  rw [hvalue, dataLenSz_eq hsize]
  exact ⟨rfl, hlt⟩

/-- The width of a count in a message. -/
theorem length_countPrefix (cs : Mem) {g : Group} (base : Nat) {l : QmiElemInfo} (hl : g.len? = some l) :
    (g.countPrefix cs base).length = dataLenSz l := by
  rw [Group.countPrefix, hl]
  exact length_leBytes _ _

/-- A count over a `stale` value that leaves no high bytes. -/
theorem overlayLow_lenValue {g : Group} {base stale : Nat} {l : QmiElemInfo}
    (hfit : g.lenValue cs base < 256 ^ dataLenSz l) (hstale : stale < 256 ^ dataLenSz l) :
    overlayLow stale (leBytes (dataLenSz l) (g.lenValue cs base)) = g.lenValue cs base := by
  rw [overlayLow, length_leBytes, Nat.div_eq_of_lt hstale, Nat.mul_zero, Nat.add_zero, leValue_leBytes,
    Nat.mod_eq_of_lt hfit]

/-- The count of a group, read over a `stale` value. -/
theorem readCount_readsBack {g : Group} {level : Nat} (hrules : g.Encodable level)
    (htrip : g.RoundTrippable) {base stale pos room : Nat}
    (hcount : ∀ l, g.len? = some l → leValue (cs.bytes (base + l.offset) 4) ≤ g.value.elemLen)
    (hmem : mem.Has pos (g.countPrefix cs base)) (hlt : room < 65536)
    (hroom : (g.countPrefix cs base).length ≤ room)
    (hstale : ∀ l, g.len? = some l → stale < 256 ^ dataLenSz l) :
    ∃ v, decodeCount g.value v = pure (g.count cs base) ∧
      ReadsBack cs (fun x => ∃ l, g.len? = some l ∧ InBlock (base + l.offset) 4 x)
        (v, room - (g.countPrefix cs base).length, (g.countPrefix cs base).length)
        (readCount mem base g stale pos room) := by
  cases hl : g.len? with
  | none =>
      refine ⟨stale, ?_, ?_⟩
      · unfold decodeCount Group.count
        cases harray : g.value.arrayType with
        | noArray | staticArray => rfl
        | varLenArray => exact absurd hl (hrules.var_len harray)
      · have hnil : g.countPrefix cs base = [] := by rw [Group.countPrefix, hl]
        rw [readCount, hl, hnil]
        exact .pure cs (by simp) _
  | some l =>
      obtain ⟨hvalue, hfit⟩ := htrip.lenValue hl (hcount l hl)
      refine ⟨g.lenValue cs base, ?_, ?_⟩
      · unfold decodeCount Group.count
        cases harray : g.value.arrayType with
        | noArray | staticArray => rfl
        | varLenArray =>
            have := hcount l hl
            rw [← hvalue] at this
            exact if_neg (Nat.not_lt.mpr this)
      · have hwidth : mem.bytes pos (dataLenSz l) = leBytes (dataLenSz l) (g.lenValue cs base) := by
          rw [Mem.Has, length_countPrefix cs base hl, Group.countPrefix, hl] at hmem
          exact hmem
        rw [length_countPrefix cs base hl] at hroom ⊢
        rw [readCount, hl]
        simp only
        rw [qmiDecodeLocal_bind, hwidth, overlayLow_lenValue hfit (hstale l hl), decodeSub_bind,
          u32Sub_of_le hroom (by omega)]
        apply ReadsBack.after rfl
        have hstore : ReadsBack cs (InBlock (base + l.offset) 4) ()
            (Traced.emit (.store l 0 (base + l.offset) (leBytes 4 (g.lenValue cs base)))) := by
          have hbytes : leBytes 4 (g.lenValue cs base) = cs.bytes (base + l.offset) 4 := by
            have := leBytes_leValue (cs.bytes (base + l.offset) 4)
            rwa [Mem.length_bytes, ← hvalue] at this
          rw [hbytes]
          exact ⟨rfl, Copies.single _ _ _⟩
        apply (hstore.bind (ReadsBack.after rfl (.pure cs (fun _ => not_false) _))).congr
        intro x
        simp

/-- A count over a `stale` value that leaves high bytes is too large for an array. -/
theorem readGroup_stale {g : Group} {base stale pos room level : Nat} {l : QmiElemInfo}
    (hflag : g.flag? = none) (hl : g.len? = some l) (harray : g.value.arrayType = .varLenArray)
    (hwide : g.value.elemLen < 256 ^ dataLenSz l) (hstale : ¬ stale < 256 ^ dataLenSz l) :
    ∃ e, (readGroup rec mem base level g stale pos room).res = .error e := by
  have hcount : decodeCount g.value (overlayLow stale (mem.bytes pos (dataLenSz l))) =
      Traced.fail einval := by
    unfold decodeCount overlayLow
    rw [harray, Mem.length_bytes]
    have hdiv : 1 ≤ stale / 256 ^ dataLenSz l :=
      (Nat.one_le_div_iff (Nat.pow_pos (by omega))).mpr (Nat.le_of_not_lt hstale)
    have := Nat.mul_le_mul_left (256 ^ dataLenSz l) hdiv
    exact if_pos (by omega)
  refine ⟨einval, ?_⟩
  rw [readGroup, readFlag, hflag, readCount, hl]
  simp only [pure_bind, qmiDecodeLocal_bind, Traced.emit_bind, decodeSub_bind, Traced.after_bind,
    hcount, Traced.fail_bind, Traced.after_res, Traced.fail_res]

/-- A group that is used, its count in front of its elements. -/
theorem Group.payload_used {g : Group} (htrip : g.RoundTrippable) {base : Nat} {top : Bool}
    (hused : g.value.arrayType = .varLenArray ∨ g.hasValue cs base = true) :
    g.payload (nestedBytes cs d) cs top base = g.countPrefix cs base ++
      valueBytes (nestedBytes cs d) cs top g.value (base + g.value.offset) (g.count cs base) := by
  rw [Group.payload]
  cases hvalue : g.hasValue cs base with
  | true => rfl
  | false =>
      rw [hvalue] at hused
      have harray := hused.resolve_right Bool.false_ne_true
      have hzero : g.count cs base = 0 := by
        rw [Group.hasValue, Bool.or_eq_false_iff] at hvalue
        rw [Group.count, harray]
        simpa using hvalue.2
      have hempty : valueBytes (nestedBytes cs d) cs top g.value (base + g.value.offset) 0 = [] := by
        unfold valueBytes
        cases htype : g.value.dataType with
        | string =>
            have := htrip.string_array htype
            rw [harray] at this
            cases this
        | struct => rfl
        | _ => simp
      rw [hzero, hempty]
      rfl

/-- What a group of a structure at `base` needs to settle. -/
structure Group.Settled (strict : Prop) (mem cs : Mem) (rec : DecodeCall) (d level base : Nat)
    (g : Group) : Prop where
  value : g.value.dataType.IsValue
  rules : g.Encodable level
  trip : g.RoundTrippable
  count : ∀ l, g.len? = some l → leValue (cs.bytes (base + l.offset) 4) ≤ g.value.elemLen
  text : g.value.dataType = .string →
    textLen cs g.value (base + g.value.offset) < g.value.elemLen
  calls : g.value.dataType = .struct → ∀ i, i < g.count cs base →
    CallSettles strict mem cs rec d (level + 1) g.value.eiArray
      (base + g.value.offset + i * g.value.elemSize)
  strict : strict → g.len? ≠ none → g.value.arrayType = .varLenArray

/-- A group without a flag. -/
theorem readGroup_settles {g : Group} {level base : Nat} (hg : g.Settled strict mem cs rec d level base)
    (hflag : g.flag? = none) (stale : Nat) {pos room : Nat} {top : Bool} (htop : level = 1 ↔ top = true)
    (hlevel : 0 < level)
    (hmem : mem.Has pos (g.payload (nestedBytes cs d) cs top base)) (hlt : room < 65536)
    (hroom : (g.payload (nestedBytes cs d) cs top base).length ≤ room)
    (hall : top = true → (g.payload (nestedBytes cs d) cs top base).length = room) :
    Settles strict (g.Clean (NestedClean cs d) (nestedBytes cs d) cs top base stale room) cs
      (Holds cs g base) (g.count cs base, (g.payload (nestedBytes cs d) cs top base).length)
      (readGroup rec mem base level g stale pos room) := by
  by_cases hstale : ∀ l, g.len? = some l → stale < 256 ^ dataLenSz l
  · by_cases hused : g.value.arrayType = .varLenArray ∨ g.hasValue cs base = true
    · rw [Group.payload_used hg.trip hused] at hmem hroom hall ⊢
      rw [Mem.has_append] at hmem
      rw [List.length_append] at hroom hall ⊢
      obtain ⟨v, hv, hread⟩ := readCount_readsBack hg.rules hg.trip hg.count hmem.1 hlt (by omega) hstale
      have hrest : Settles strict (g.value.dataType = .struct →
            ElemsClean (nestedBytes cs d g.value.eiArray) (NestedClean cs d g.value.eiArray)
              g.value.elemSize top (g.count cs base) (base + g.value.offset)
              (room - (g.countPrefix cs base).length)) cs (HoldsElems cs g base)
          (g.count cs base, (g.countPrefix cs base).length +
            (valueBytes (nestedBytes cs d) cs top g.value (base + g.value.offset)
              (g.count cs base)).length) (do
            let count ← decodeCount g.value v
            let rc ← decodeSwitch rec mem g.value (base + g.value.offset)
              (pos + (g.countPrefix cs base).length) count (room - (g.countPrefix cs base).length) level
            pure (count, (g.countPrefix cs base).length + rc)) := by
        rw [hv, pure_bind]
        refine (decodeSwitch_settles hg.value hg.rules.string_size htop hlevel hg.text hg.calls hmem.2
          ?_ ?_ ?_).map fun rc => (g.count cs base, (g.countPrefix cs base).length + rc)
        · omega
        · omega
        · intro heq
          have := hall heq
          omega
      rw [readGroup, readFlag, hflag]
      simp only [pure_bind]
      apply (hread.bind_settles hrest).congr
      · exact ⟨Group.Clean.elems, fun h => ⟨hstale, hused, h⟩⟩
      · exact fun _ => holds_iff
    · refine ⟨fun hclean => absurd hclean.used hused, fun hs _ => absurd ?_ hused⟩
      cases hl : g.len? with
      | none =>
          right
          simp [Group.hasValue, hl]
      | some l => exact .inl (hg.strict hs (by simp [hl]))
  · refine ⟨fun hclean => absurd hclean.count hstale, fun hs _ => ?_⟩
    simp only [not_forall] at hstale
    obtain ⟨l, hl, hstale⟩ := hstale
    obtain ⟨hsize, hwide⟩ := hg.trip.len_size l hl
    rw [← dataLenSz_eq hsize] at hwide
    exact readGroup_stale hflag hl (hg.strict hs (by simp [hl])) hwide hstale

/-- A group without bytes in a nested structure holds nothing. -/
theorem payload_empty {g : Group} (hvalue : g.value.dataType.IsValue) (htrip : g.RoundTrippable)
    {base level : Nat}
    (hcalls : g.value.dataType = .struct → ∀ i, i < g.count cs base →
      CallSettles strict mem cs rec d level g.value.eiArray
        (base + g.value.offset + i * g.value.elemSize))
    (h : g.payload (nestedBytes cs d) cs false base = []) (x : Nat) : ¬ Holds cs g base x := by
  have hnil : g.countPrefix cs base = [] := (List.append_eq_nil_iff.mp h).1
  have hl : g.len? = none := by
    cases hl : g.len? with
    | none => rfl
    | some l =>
        have hlen := length_countPrefix cs base hl
        rw [hnil] at hlen
        unfold dataLenSz at hlen
        split at hlen <;> cases hlen
  have hused : g.hasValue cs base = true := by simp [Group.hasValue, hl]
  rw [Group.payload_used htrip (.inr hused), hnil, List.nil_append] at h
  rw [holds_iff, hl]
  rintro (⟨_, hnone, _⟩ | helems)
  · cases hnone
  · unfold HoldsElems at helems
    unfold valueBytes at h
    cases htype : g.value.dataType with
    | eoti | optFlag | dataLen => simp [htype, QmiElemType.IsValue] at hvalue
    | struct =>
        rw [htype] at helems h
        obtain ⟨i, hi, hx⟩ := helems
        exact arrayBytes_empty (hcalls htype) (List.length_eq_zero_iff.mpr h) hi x hx
    | string =>
        rw [htype] at h
        have hlen := congrArg List.length (List.append_eq_nil_iff.mp h).1
        rw [if_neg Bool.false_ne_true, length_leBytes, List.length_nil] at hlen
        unfold stringLenSz at hlen
        split at hlen <;> cases hlen
    | _ =>
        rw [htype] at helems h
        have hlen := congrArg List.length h
        rw [Mem.length_bytes, List.length_nil] at hlen
        simp only [InBlock, hlen] at helems
        omega

/-- The fields of a nested structure, `k` bytes after its start. -/
theorem readFields_settles {base inBufLen level : Nat} (inBuf : Nat) (hlevel : 1 < level)
    (hlt : inBufLen < 65536) {gs : List Group}
    (h : ∀ g ∈ gs, g.Settled strict mem cs rec d level base) (stale k : Nat)
    (hmem : mem.Has (inBuf + k) (gs.flatMap (Group.payload (nestedBytes cs d) cs false base)))
    (hroom : k + (gs.flatMap (Group.payload (nestedBytes cs d) cs false base)).length ≤ inBufLen) :
    Settles strict
      (FieldsClean (Group.Clean (NestedClean cs d) (nestedBytes cs d) cs false base)
        (Group.count cs base) (Group.payload (nestedBytes cs d) cs false base) gs stale
        (inBufLen - k)) cs
      (fun x => ∃ g ∈ gs, Holds cs g base x)
      (k + (gs.flatMap (Group.payload (nestedBytes cs d) cs false base)).length)
      (readFields rec mem base inBuf inBufLen level gs stale k) := by
  induction gs generalizing stale k with
  | nil => exact (ReadsBack.pure cs (by simp) _).settles trivial
  | cons g gs ih =>
      have hg := h g List.mem_cons_self
      have htop : level = 1 ↔ false = true := by
        simp only [Bool.false_eq_true, iff_false]
        omega
      rw [readFields]
      by_cases hk : k < inBufLen
      · rw [if_pos hk, decodeSub_bind, u32Sub_of_le hk.le (by omega)]
        rw [List.flatMap_cons, Mem.has_append, Nat.add_assoc] at hmem
        rw [List.flatMap_cons, List.length_append, ← Nat.add_assoc] at hroom ⊢
        apply Settles.after rfl
        have hflag := hg.rules.flag_top hlevel
        have hbytes : (g.payload (nestedBytes cs d) cs false base).length ≤ inBufLen - k := by omega
        have hgroup := readGroup_settles hg hflag stale htop (by omega) hmem.1 (by omega) hbytes (by simp)
        have hrest := ih (fun g' hg' => h g' (List.mem_cons_of_mem _ hg')) (g.count cs base)
          (k + (g.payload (nestedBytes cs d) cs false base).length) hmem.2 hroom
        apply (hgroup.bind hrest).congr
        · rw [FieldsClean, Nat.sub_sub]
          exact or_iff_right (by omega)
        · intro x
          simp only [List.mem_cons, exists_eq_or_imp]
      · -- the payload is used up: the fields that are left have no bytes
        rw [if_neg hk]
        have hempty : ((g :: gs).flatMap (Group.payload (nestedBytes cs d) cs false base)).length = 0 := by
          omega
        rw [hempty, Nat.add_zero]
        apply ReadsBack.settles
        · apply ReadsBack.pure
          rintro x ⟨g', hg', hx⟩
          have hnil := List.flatMap_eq_nil_iff.mp (List.length_eq_zero_iff.mp hempty) g' hg'
          have hsettled := h g' hg'
          exact payload_empty hsettled.value hsettled.trip hsettled.calls hnil x hx
        · rw [FieldsClean]
          left
          omega

end Groups

/-! ### Nested structures -/

/-- The rules of a well-formed descriptor, with the counts where `strict` wants them. -/
def SettleRules (strict : Prop) (level : Nat) (gs : List Group) (eoti : QmiElemInfo) : Prop :=
  RoundTripRules level gs eoti ∧ (strict → CountsBeforeArrays level gs eoti)

section Nested

variable {strict : Prop} {mem cs : Mem}

/-- The groups of a structure settle when the structures in it do. -/
theorem settled_of_rules {rec : DecodeCall} {d level base : Nat} {gs : List Group} {eoti : QmiElemInfo}
    (hend : eoti.dataType = .eoti) (hshape : ∀ g ∈ gs, g.Shaped)
    (hrules : SettleRules strict level gs eoti) (hrest : Restorable cs (flatten gs eoti) base)
    {g : Group} (hg : g ∈ gs) (hpresent : g.present cs base = true)
    (hcalls : g.value.dataType = .struct → ∀ addr, Restorable cs g.value.eiArray addr →
      CallSettles strict mem cs rec d (level + 1) g.value.eiArray addr) :
    g.Settled strict mem cs rec d level base := by
  obtain ⟨⟨⟨hencode, _⟩, htrip, _⟩, hstrict⟩ := hrules
  obtain ⟨hcount, htext, hnest⟩ := hrest
  rw [groups_flatten hend hshape] at hcount htext hnest
  exact ⟨(hshape g hg).value, hencode g hg, htrip g hg, hcount g hg hpresent, htext g hg hpresent,
    fun hstruct i hi => hcalls hstruct _ (hnest g hg hpresent hstruct i hi), fun hs => hstrict hs g hg⟩

/-- A nested structure. -/
theorem readNested_settles {level : Nat} {ei : List QmiElemInfo}
    (h : Described (SettleRules strict) level ei) (hlevel : 1 < level) {d : Nat}
    (hd : nestDepth ei ≤ d) {addr : Nat} (hrest : Restorable cs ei addr) :
    CallSettles strict mem cs (readNested mem d) d level ei addr := by
  induction h generalizing d addr with
  | @mk level gs eoti hend hshape hP hnest ih =>
      obtain ⟨d, rfl⟩ := exists_eq_succ_of_nestDepth_le hd
      have hsettled : ∀ g ∈ gs, g.Settled strict mem cs (readNested mem d) d level addr := by
        intro g hg
        have hpresent : g.present cs addr = true := by
          simp [Group.present, (hP.1.1.1 g hg).flag_top hlevel]
        exact settled_of_rules hend hshape hP hrest hg hpresent fun hstruct _ =>
          ih g hg hstruct (by omega) (nestDepth_value hg hd)
      refine ⟨?_, ?_, ?_⟩
      · intro pos room hmem hroom hlt
        rw [nestedBytes, groups_flatten hend hshape] at hmem hroom ⊢
        rw [readNested, NestedClean, groups_flatten hend hshape]
        have hfields := readFields_settles pos hlevel hlt hsettled 0 0 hmem
          (by rwa [Nat.zero_add])
        rwa [Nat.zero_add] at hfields
      · intro hempty x
        rw [nestedBytes, groups_flatten hend hshape, List.flatMap_eq_nil_iff] at hempty
        rw [groups_flatten hend hshape]
        rintro ⟨g, hg, hx⟩
        have := hsettled g hg
        exact payload_empty this.value this.trip this.calls (hempty g hg) x hx
      · rw [NestedClean]
        cases groups (flatten gs eoti) with
        | nil => exact trivial
        | cons g gs => exact .inl rfl

end Nested

/-! ### Messages -/

theorem findEi_append {es rest : List QmiElemInfo} {type : Nat}
    (h : ∀ e ∈ es, e.dataType ≠ .eoti ∧ e.tlvType.toNat ≠ type) :
    findEi (es ++ rest) type = findEi rest type := by
  induction es with
  | nil => rfl
  | cons e es ih =>
      obtain ⟨hend, hne⟩ := h e List.mem_cons_self
      rw [List.cons_append, findEi, if_neg hend, if_neg hne,
        ih fun e' he' => h e' (List.mem_cons_of_mem _ he')]

/-- No element of a group ends the array. -/
theorem Group.Shaped.ne_eoti {g : Group} (h : g.Shaped) {e : QmiElemInfo} (he : e ∈ g.elems) :
    e.dataType ≠ .eoti := by
  simp only [Group.elems, List.mem_append, Option.mem_toList, List.mem_singleton] at he
  rcases he with (hf | hl) | rfl
  · simp [h.flag e hf]
  · simp [h.len e hl]
  · intro heoti
    have := h.value
    simp [heoti, QmiElemType.IsValue] at this

/-- A search for the type of a group finds the group. -/
theorem findGroup_type {gs : List Group} {eoti : QmiElemInfo} (hshape : ∀ g ∈ gs, g.Shaped)
    (htypes : TypesSeparate gs eoti) (hnodup : (gs.map fun g => g.value.tlvType).Nodup) {g : Group}
    (hg : g ∈ gs) : findGroup (flatten gs eoti) g.value.tlvType.toNat = some g := by
  induction gs with
  | nil => cases hg
  | cons g₁ gs ih =>
      obtain ⟨hsame, _, htypes⟩ := htypes
      obtain ⟨hfresh, hnodup⟩ := List.nodup_cons.mp hnodup
      have hshape₁ := hshape g₁ List.mem_cons_self
      rw [flatten_cons]
      rcases List.mem_cons.mp hg with rfl | hg
      · obtain ⟨e, es, helems, hend⟩ := hshape₁.head
        have htype : e.tlvType = g.value.tlvType := hsame e (helems ▸ List.mem_cons_self)
        rw [findGroup, helems, List.cons_append, findEi, if_neg hend, if_pos (congrArg _ htype),
          ← List.cons_append, ← helems]
        change (groups (g.elems ++ flatten gs eoti)).head? = some g
        rw [groups_append hshape₁]
        rfl
      · have hskip : ∀ e ∈ g₁.elems, e.dataType ≠ .eoti ∧ e.tlvType.toNat ≠ g.value.tlvType.toNat := by
          intro e he
          refine ⟨hshape₁.ne_eoti he, fun heq => hfresh (List.mem_map.mpr ⟨g, hg, ?_⟩)⟩
          exact (UInt8.toNat_inj.mp heq).symm.trans (hsame e he)
        rw [findGroup, findEi_append hskip]
        exact ih (fun g' hg' => hshape g' (List.mem_cons_of_mem _ hg')) htypes hnodup hg

section Message

variable {strict : Prop} {mem cs img : Mem} {rec : DecodeCall} {d base : Nat}

/-- The flag of a group makes no difference behind it. -/
theorem Group.Settled.unflagged {level : Nat} {g : Group} (h : g.Settled strict mem cs rec d level base) :
    g.unflagged.Settled strict mem cs rec d level base where
  value := h.value
  rules := ⟨fun _ => rfl, by simp [Group.unflagged], h.rules.len_array, h.rules.len_size,
    h.rules.var_len, h.rules.string_size⟩
  trip := ⟨h.trip.len_size, h.trip.string_array⟩
  count := h.count
  text := h.text
  calls := h.calls
  strict := h.strict

/-- The addresses of a present group: its flag and what it holds. -/
def HoldsOrFlag (cs : Mem) (g : Group) (base x : Nat) : Prop :=
  (∃ f, g.flag? = some f ∧ x = base + f.offset) ∨ Holds cs g base x

/-- The image that a message leaves: what `cs` holds, with flags of 1. -/
structure Images (img cs : Mem) (g : Group) (base : Nat) : Prop where
  flag : ∀ f, g.flag? = some f → img (base + f.offset) = 1
  value : ∀ x, Holds cs g base x → cs x = img x

theorem Settles.agree {α : Type} {clean : Prop} {H : Nat → Prop} {a : α} {m : Decoding α}
    (h : Settles strict clean cs H a m) (himg : ∀ x, H x → cs x = img x) :
    Settles strict clean img H a m :=
  ⟨fun hc => ⟨(h.reads hc).res, (h.reads hc).copies.agree himg⟩, h.fails⟩

/-- A group of a message. -/
theorem readGroup_message {g : Group} (hg : g.Settled strict mem cs rec d 1 base)
    (himg : Images img cs g base) (stale : Nat) {pos : Nat}
    (hmem : mem.Has pos (g.body cs d base)) (hlt : (g.body cs d base).length < 65536) :
    Settles strict (g.Clean (NestedClean cs d) (nestedBytes cs d) cs true base stale
        (g.body cs d base).length) img (HoldsOrFlag cs g base)
      (g.count cs base, (g.body cs d base).length)
      (readGroup rec mem base 1 g stale pos (g.body cs d base).length) := by
  have htop : 1 = 1 ↔ true = true := iff_of_true rfl rfl
  have hgroup := readGroup_settles hg.unflagged rfl stale htop (by omega) hmem hlt (Nat.le_refl _)
    (fun _ => rfl)
  have hvalue : Settles strict (g.Clean (NestedClean cs d) (nestedBytes cs d) cs true base stale
      (g.body cs d base).length) img (Holds cs g base) (g.count cs base, (g.body cs d base).length)
      (readGroup rec mem base 1 g.unflagged stale pos (g.body cs d base).length) := by
    apply Settles.agree _ himg.value
    apply hgroup.congr
    · exact ⟨fun h => ⟨h.count, h.used, h.elems⟩, fun h => ⟨h.count, h.used, h.elems⟩⟩
    · intro x
      rw [holds_iff, holds_iff]
      exact Iff.rfl
  have hflag : ReadsBack img (fun x => ∃ f, g.flag? = some f ∧ x = base + f.offset) ()
      (readFlag base g) := by
    unfold readFlag
    cases hf : g.flag? with
    | none => exact .pure img (by simp) _
    | some f =>
        have hone : [(1 : UInt8)] = img.bytes (base + f.offset) 1 := by
          rw [Mem.bytes, himg.flag f hf, Mem.bytes_zero]
        refine ⟨rfl, ?_⟩
        change Copies img _ [⟨base + f.offset, [1]⟩]
        rw [hone]
        apply (Copies.single img (base + f.offset) 1).congr
        intro x
        simp only [Option.some.injEq, exists_eq_left', InBlock]
        omega
  have hsplit : readGroup rec mem base 1 g stale pos (g.body cs d base).length = (do
      readFlag base g
      readGroup rec mem base 1 g.unflagged stale pos (g.body cs d base).length) := rfl
  rw [hsplit]
  exact hflag.bind_settles hvalue

/-- The header of a TLV. -/
theorem decodeTlv_header {pos len : Nat} {type : UInt8} (hmem : mem.Has pos (tlvHeader type len))
    (hlt : len < 65536) {α : Type} (f : Nat × Nat → Decoding α) :
    decodeTlv mem pos >>= f = Traced.after [.tlv pos type.toNat len] (f (type.toNat, len)) := by
  rw [Mem.Has, length_tlvHeader] at hmem
  obtain ⟨htype, hlen⟩ := List.cons.inj hmem
  have hvalue : leValue (leBytes 2 len) = len :=
    (leValue_leBytes 2 len).trans (Nat.mod_eq_of_lt hlt)
  rw [decodeTlv, htype, hlen, hvalue]
  rfl

/-- The TLVs of a message, from the group at hand on. -/
theorem readTlvs_settles {ei : List QmiElemInfo} {inBuf inBufLen : Nat} (hlt : inBufLen < 65536)
    {gs : List Group} (hfind : ∀ g ∈ gs, findGroup ei g.value.tlvType.toNat = some g)
    (hsettled : ∀ g ∈ gs, g.present cs base = true → g.Settled strict mem cs rec d 1 base)
    (himg : ∀ g ∈ gs, g.present cs base = true → Images img cs g base) {fuel : Nat}
    (hfuel : gs.length < fuel) (stale : Nat) {k : Nat}
    (hmem : mem.Has (inBuf + k) (tlvBytes cs d base gs))
    (hlen : k + (tlvBytes cs d base gs).length = inBufLen) :
    Settles strict (TlvsClean cs d base gs stale) img
      (fun x => ∃ g ∈ gs, g.present cs base = true ∧ HoldsOrFlag cs g base x) inBufLen
      (readTlvs rec mem ei base inBuf inBufLen fuel stale k) := by
  induction gs generalizing fuel stale k with
  | nil =>
      obtain ⟨fuel, rfl⟩ : ∃ f, fuel = f + 1 := ⟨fuel - 1, by omega⟩
      have hk : k = inBufLen := hlen
      rw [readTlvs, if_neg (by omega), hk]
      exact (ReadsBack.pure img (by simp) _).settles trivial
  | cons g gs ih =>
      have hrest := fun {n : Nat} (hn : gs.length < n) =>
        ih (fun g' hg' => hfind g' (List.mem_cons_of_mem _ hg'))
          (fun g' hg' => hsettled g' (List.mem_cons_of_mem _ hg'))
          (fun g' hg' => himg g' (List.mem_cons_of_mem _ hg')) hn
      rw [tlvBytes_cons] at hmem hlen
      rw [TlvsClean]
      by_cases hpresent : g.present cs base = true
      · obtain ⟨fuel, rfl⟩ : ∃ f, fuel = f + 1 := ⟨fuel - 1, by omega⟩
        rw [if_pos hpresent] at hmem hlen ⊢
        rw [Group.tlv, Mem.has_append, Mem.has_append, List.length_append, length_tlvHeader] at hmem
        rw [List.length_append, length_tlv] at hlen
        obtain ⟨⟨hheader, hbody⟩, htail⟩ := hmem
        have hgroup := readGroup_message (hsettled g List.mem_cons_self hpresent)
          (himg g List.mem_cons_self hpresent) stale hbody (by omega)
        rw [← Nat.add_assoc, Nat.add_assoc inBuf k 3, Nat.add_assoc inBuf] at htail
        have htlvs := hrest (by simpa using hfuel) (g.count cs base) htail (by omega)
        rw [readTlvs, if_pos (by omega), decodeTlv_header hheader (by omega)]
        simp only [hfind g List.mem_cons_self]
        apply Settles.after rfl
        apply (hgroup.bind htlvs).congr Iff.rfl
        intro x
        simp only [List.mem_cons, exists_eq_or_imp, hpresent, true_and]
      · rw [if_neg hpresent] at hmem hlen ⊢
        apply (hrest (by simp at hfuel; omega) stale hmem hlen).congr Iff.rfl
        intro x
        simp only [List.mem_cons, exists_eq_or_imp, hpresent, Bool.false_eq_true, false_and, false_or]

/-- A message. -/
theorem readMessage_settles {ei : List QmiElemInfo} (h : Described (SettleRules strict) 1 ei)
    {inBuf : Nat} (hrest : Restorable cs ei base)
    (himg : ∀ g ∈ groups ei, g.present cs base = true → Images img cs g base)
    (hmem : mem.Has inBuf (messageBytes cs ei base)) (hlt : (messageBytes cs ei base).length < 65536) :
    Settles strict (TlvsClean cs (nestDepth ei - 1) base (groups ei) 0) img
      (fun x => ∃ g ∈ groups ei, g.present cs base = true ∧ HoldsOrFlag cs g base x)
      (messageBytes cs ei base).length
      (readMessage mem ei base inBuf (messageBytes cs ei base).length) := by
  obtain ⟨d, hd⟩ := exists_eq_succ_of_nestDepth_le (Nat.le_refl (nestDepth ei))
  rw [readMessage]
  unfold messageBytes at hmem hlt ⊢
  rw [hd, Nat.add_sub_cancel] at hmem hlt ⊢
  cases h with
  | @mk _ gs eoti hend hshape hP hnest =>
      rw [groups_flatten hend hshape] at himg hmem hlt ⊢
      obtain ⟨⟨⟨_, htypes⟩, _, hnodup⟩, _⟩ := id hP
      have hlength := length_flatten_ge gs eoti
      have hsettled : ∀ g ∈ gs, g.present cs base = true →
          g.Settled strict mem cs (readNested mem d) d 1 base :=
        fun g hg hpresent => settled_of_rules hend hshape hP hrest hg hpresent fun hstruct _ =>
          readNested_settles (hnest g hg hstruct) (by omega) (nestDepth_value hg hd.le)
      exact readTlvs_settles hlt (fun g hg => findGroup_type hshape (htypes rfl) (hnodup rfl) hg)
        hsettled himg (by omega) 0 hmem (Nat.zero_add _)

end Message

end Qrtr
