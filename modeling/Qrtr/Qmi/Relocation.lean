/-
Module: Qrtr.Qmi.Relocation
Layer: Qmi
Purpose: What decides how a group is read. It is read forward, and an accepted one has read only bytes among
  those that it took (`Takes`). Where another input holds the same bytes some way further on, it is read
  there as it is here, with the same stores and the same result, whether it is accepted or not.
Imports: Qmi.Walk, Qmi.CompleteReading
Main exports: DecodeEvent.ReadsIn, Takes, readGroup_takes, readNested_takes, Alike, Further, readGroup_alike,
  readNested_alike
Open obligations: none
-/
import Qrtr.Qmi.Walk
import Qrtr.Qmi.CompleteReading

namespace Qrtr

open Traced

/-- The access reads only bytes at the positions in `S`. -/
def DecodeEvent.ReadsIn (S : Nat → Prop) : DecodeEvent → Prop
  | .tlv pos _ _ => ∀ i, i < 3 → S (pos + i)
  | .read pos size => ∀ i, i < size → S (pos + i)
  | .sub .. | .store .. | .enter .. => True

/-! ### The bytes that an accepted run took -/

/-- The run reads at `start` or further on. If it is accepted, it has read nothing from `stop` on, which
    depends on its result. -/
structure Takes {α : Type} (start : Nat) (stop : α → Nat) (m : Decoding α) : Prop where
  le : ∀ a, m.res = .ok a → start ≤ stop a
  ahead : m.Every (DecodeEvent.ReadsIn (start ≤ ·))
  within : ∀ a, m.res = .ok a → m.Every (DecodeEvent.ReadsIn (· < stop a))

theorem DecodeEvent.ReadsIn.imp {S S' : Nat → Prop} (h : ∀ x, S x → S' x) {e : DecodeEvent}
    (he : e.ReadsIn S) : e.ReadsIn S' := by
  cases e with
  | tlv | read => exact fun i hi => h _ (he i hi)
  | sub | store | enter => trivial

theorem DecodeEvent.ReadsIn.and {S S' : Nat → Prop} {e : DecodeEvent} (h : e.ReadsIn S)
    (h' : e.ReadsIn S') : e.ReadsIn (fun x => S x ∧ S' x) := by
  cases e with
  | tlv | read => exact fun i hi => ⟨h i hi, h' i hi⟩
  | sub | store | enter => trivial

theorem every_readsIn_imp {α : Type} {S S' : Nat → Prop} (h : ∀ x, S x → S' x) {m : Decoding α}
    (hm : m.Every (DecodeEvent.ReadsIn S)) : m.Every (DecodeEvent.ReadsIn S') :=
  fun e he => (hm e he).imp h

section Rules

variable {α β : Type} {start : Nat} {stop : α → Nat} {m n : Decoding α}

/-- A run that reads nothing. -/
theorem Takes.silent (h : ∀ a, m.res = .ok a → start ≤ stop a)
    (hm : ∀ S, m.Every (DecodeEvent.ReadsIn S)) : Takes start stop m :=
  ⟨h, hm _, fun _ _ => hm _⟩

theorem takes_pure {a : α} (h : start ≤ stop a) : Takes start stop (pure a : Decoding α) := by
  apply Takes.silent
  · intro a' ha'
    cases ha'
    exact h
  · exact fun _ => every_pure _

theorem takes_fail (e : QmiError) : Takes start stop (fail e : Decoding α) :=
  .silent (fun _ h => nomatch h) fun _ => every_fail _

/-- An access that reads nothing. -/
theorem takes_emit {e : DecodeEvent} (h : ∀ S, e.ReadsIn S) :
    Takes start (fun _ => start) (emit e : Decoding Unit) :=
  .silent (fun _ _ => Nat.le_refl _) fun _ => (every_emit _).mpr (h _)

theorem takes_read (mem : Mem) (pos size : Nat) :
    Takes pos (fun _ => pos + size) (qmiDecodeLocal mem pos size) := by
  have hread : ∀ S, (DecodeEvent.read pos size).ReadsIn S →
      (qmiDecodeLocal mem pos size).Every (DecodeEvent.ReadsIn S) :=
    fun S h => List.forall_mem_singleton.mpr h
  refine ⟨fun _ _ => Nat.le_add_right _ _, hread _ ?_, fun _ _ => hread _ ?_⟩
  · exact fun i _ => Nat.le_add_right _ _
  · exact fun i hi => Nat.add_lt_add_left hi _

theorem Takes.bind {stop' : β → Nat} {f : α → Decoding β} (hm : Takes start stop m)
    (hf : ∀ a, m.res = .ok a → Takes (stop a) stop' (f a)) : Takes start stop' (m >>= f) := by
  constructor
  · intro b hb
    obtain ⟨a, ha, hfa⟩ := bind_res_ok hb
    exact Nat.le_trans (hm.le a ha) ((hf a ha).le b hfa)
  · refine every_bind_iff.mpr ⟨hm.ahead, fun a ha => ?_⟩
    exact every_readsIn_imp (fun x hx => Nat.le_trans (hm.le a ha) hx) (hf a ha).ahead
  · intro b hb
    obtain ⟨a, ha, hfa⟩ := bind_res_ok hb
    refine (every_bind_ok ha).mpr ⟨?_, (hf a ha).within b hfa⟩
    exact every_readsIn_imp (fun x hx => Nat.lt_of_lt_of_le hx ((hf a ha).le b hfa)) (hm.within a ha)

theorem Takes.later {start' : Nat} (hm : Takes start' stop m) (h : start ≤ start') :
    Takes start stop m :=
  ⟨fun a ha => Nat.le_trans h (hm.le a ha),
    every_readsIn_imp (fun _ hx => Nat.le_trans h hx) hm.ahead, hm.within⟩

theorem Takes.check {c : Prop} [Decidable c] (hm : Takes start stop m) (hn : Takes start stop n) :
    Takes start stop (if c then m else n) := by
  split
  · exact hm
  · exact hn

end Rules

section Taken

variable {mem : Mem} {rec : DecodeCall} {level tlvLen : Nat} {ei : QmiElemInfo}

theorem decodeSub_takes (start a b : Nat) : Takes start (fun _ => start) (decodeSub a b) :=
  .silent (fun _ _ => Nat.le_refl _) fun _ => List.forall_mem_singleton.mpr trivial

theorem qmiDecodeBasicElem_takes (n i addr pos : Nat) :
    Takes pos (fun rc => pos + rc) (qmiDecodeBasicElem mem ei n i addr pos) := by
  refine ⟨fun _ _ => Nat.le_add_right _ _, ?_, ?_⟩
  · rw [(qmiDecodeBasicElem_spec _ mem ei n i addr pos).2]
    intro j hj
    refine ⟨fun k _ => ?_, trivial⟩
    rw [Nat.add_assoc]
    exact Nat.le_add_right _ _
  · intro rc hrc
    rw [qmiDecodeBasicElem_res] at hrc
    cases hrc
    rw [(qmiDecodeBasicElem_spec _ mem ei n i addr pos).2]
    intro j hj
    have hmul : (j + 1) * ei.elemSize ≤ n * ei.elemSize := Nat.mul_le_mul_right _ hj
    rw [Nat.succ_mul] at hmul
    exact ⟨fun k hk => by omega, trivial⟩

/-- A structure takes what it says. -/
abbrev CallTakes (rec : DecodeCall) (eiArray : List QmiElemInfo) (level : Nat) : Prop :=
  ∀ out pos room, Takes pos (fun rc => pos + rc) (rec eiArray out pos room level)

theorem qmiDecodeStructElem_takes (hcall : CallTakes rec ei.eiArray level) (addr pos count : Nat) :
    Takes pos (fun rc => pos + rc) (qmiDecodeStructElem rec ei addr pos count tlvLen level) := by
  have hloop : ∀ left i addr k, Takes (pos + k) (fun r => pos + r.2)
      (qmiDecodeStructLoop rec ei tlvLen level left i addr (pos + k) k) := by
    intro left
    induction left with
    | zero => exact fun _ _ k => takes_pure (Nat.le_refl _)
    | succ left ih =>
        intro i addr k
        refine Takes.check ?_ (takes_pure (Nat.le_refl _))
        refine Takes.bind (takes_emit fun _ => trivial) fun _ _ => ?_
        refine Takes.bind (decodeSub_takes _ _ _) fun room _ => ?_
        refine Takes.bind (hcall _ _ _) fun rc _ => ?_
        rw [Nat.add_assoc]
        exact ih _ _ _
  refine Takes.bind (hloop count 0 addr 0) ?_
  rintro ⟨i, total⟩ _
  exact Takes.check (takes_fail _) (takes_pure (Nat.le_refl _))

theorem qmiDecodeStringElem_takes (addr pos : Nat) :
    Takes pos (fun rc => pos + rc) (qmiDecodeStringElem mem ei addr pos tlvLen level) := by
  have hlen : Takes pos (fun r => pos + r.2) (decodeStringLen mem ei pos tlvLen level) :=
    Takes.check (takes_pure (Nat.le_refl _))
      ((takes_read mem pos _).bind fun _ _ => takes_pure (Nat.le_refl _))
  apply hlen.bind
  rintro ⟨len, width⟩ _
  refine Takes.check (takes_fail _) (Takes.check (takes_fail _) ?_)
  refine Takes.bind (qmiDecodeBasicElem_takes _ _ _ _) fun rc _ => ?_
  refine Takes.bind (takes_emit fun _ => trivial) fun _ _ => takes_pure ?_
  rw [Nat.add_assoc]

theorem decodeSwitch_takes (hcall : ei.dataType = .struct → CallTakes rec ei.eiArray (level + 1))
    (addr pos count : Nat) :
    Takes pos (fun rc => pos + rc) (decodeSwitch rec mem ei addr pos count tlvLen level) := by
  unfold decodeSwitch
  cases htype : ei.dataType with
  | eoti | optFlag | dataLen => exact takes_fail _
  | struct => exact qmiDecodeStructElem_takes (hcall htype) _ _ _
  | string => exact qmiDecodeStringElem_takes _ _
  | _ => exact qmiDecodeBasicElem_takes _ _ _ _

/-- A group takes what it says. -/
theorem readGroup_takes {g : Group}
    (hcall : g.value.dataType = .struct → CallTakes rec g.value.eiArray (level + 1))
    (out dataLenValue pos : Nat) :
    Takes pos (fun r => pos + r.2) (readGroup rec mem out level g dataLenValue pos tlvLen) := by
  have hflag : Takes pos (fun _ => pos) (readFlag out g) := by
    unfold readFlag
    cases g.flag? with
    | none => exact takes_pure (Nat.le_refl _)
    | some f => exact takes_emit fun _ => trivial
  have hcount : Takes pos (fun r => pos + r.2.2) (readCount mem out g dataLenValue pos tlvLen) := by
    unfold readCount
    cases g.len? with
    | none => exact takes_pure (Nat.le_refl _)
    | some l =>
        refine (takes_read mem pos _).bind fun _ _ => ?_
        refine Takes.bind (takes_emit fun _ => trivial) fun _ _ => ?_
        exact (decodeSub_takes _ _ _).bind fun _ _ => takes_pure (Nat.le_refl _)
  refine hflag.bind fun _ _ => hcount.bind ?_
  rintro ⟨v, left, width⟩ _
  have helems : Takes (pos + width) (fun _ => pos + width) (decodeCount g.value v) := by
    apply Takes.silent (fun _ _ => Nat.le_refl _)
    intro S
    rw [Every, decodeCount_trace]
    simp
  refine helems.bind fun count _ => (decodeSwitch_takes hcall _ _ _).bind fun rc _ => takes_pure ?_
  rw [Nat.add_assoc]

/-- A nested structure takes what it says. -/
theorem readNested_takes (mem : Mem) (d : Nat) (eiArray : List QmiElemInfo) (level : Nat) :
    CallTakes (readNested mem d) eiArray level := by
  induction d generalizing eiArray level with
  | zero => exact fun _ _ _ => takes_fail _
  | succ d ih =>
      intro out pos room
      have key : ∀ (gs : List Group) (v k : Nat), Takes (pos + k) (fun rc => pos + rc)
          (readFields (readNested mem d) mem out pos room level gs v k) := by
        intro gs
        induction gs with
        | nil => exact fun _ k => takes_pure (Nat.le_refl _)
        | cons g gs ihgs =>
            intro v k
            refine Takes.check ?_ (takes_pure (Nat.le_refl _))
            refine Takes.bind (decodeSub_takes _ _ _) fun tlvLen _ => ?_
            refine Takes.bind (readGroup_takes (fun _ => ih _ _) _ _ _) ?_
            rintro ⟨v', rc⟩ _
            rw [Nat.add_assoc]
            exact ihgs _ _
      exact key (groups eiArray) 0 0

end Taken

/-! ### The same bytes some way further on -/

/-- As long as the first run reads only at positions in `S`, the second ends like it and stores the same. -/
abbrev Alike {α : Type} (S : Nat → Prop) (m m' : Decoding α) : Prop :=
  Mirrors (DecodeEvent.ReadsIn S) DecodeEvent.write? m m'

section Further

variable {mem mem' : Mem} {S : Nat → Prop} {δ level tlvLen : Nat} {rec rec' : DecodeCall}

/-- The bytes at the positions in `S` stand `δ` further on in the second input. -/
def Further (mem mem' : Mem) (S : Nat → Prop) (δ : Nat) : Prop := ∀ x, S x → mem' (x + δ) = mem x

theorem Further.bytes (hmem : Further mem mem' S δ) {pos size : Nat}
    (h : (DecodeEvent.read pos size).ReadsIn S) : mem'.bytes (pos + δ) size = mem.bytes pos size := by
  apply List.ext_getElem?
  intro i
  rw [Mem.getElem?_bytes, Mem.getElem?_bytes]
  split
  · have haddr : pos + δ + i = pos + i + δ := by omega
    rw [haddr, hmem _ (h i ‹_›)]
  · rfl

theorem qmiDecodeLocal_alike (hmem : Further mem mem' S δ) (pos size : Nat) :
    Alike S (qmiDecodeLocal mem pos size) (qmiDecodeLocal mem' (pos + δ) size) := by
  intro hP
  have hread := hP (.read pos size) List.mem_cons_self
  refine ⟨?_, rfl⟩
  change Except.ok (mem'.bytes (pos + δ) size) = Except.ok (mem.bytes pos size)
  rw [hmem.bytes hread]

theorem decodeTlv_alike (hmem : Further mem mem' S δ) (pos : Nat) :
    Alike S (decodeTlv mem pos) (decodeTlv mem' (pos + δ)) := by
  intro hP
  have hread : ∀ i, i < 3 → S (pos + i) := hP (.tlv pos _ _) List.mem_cons_self
  have htype : mem' (pos + δ) = mem pos := hmem pos (hread 0 (by omega))
  have hlen : mem'.bytes (pos + 1 + δ) 2 = mem.bytes (pos + 1) 2 := by
    apply hmem.bytes
    intro i hi
    have := hread (1 + i) (by omega)
    rwa [← Nat.add_assoc] at this
  have haddr : pos + δ + 1 = pos + 1 + δ := by omega
  refine ⟨?_, rfl⟩
  change Except.ok ((mem' (pos + δ)).toNat, leValue (mem'.bytes (pos + δ + 1) 2))
    = Except.ok ((mem pos).toNat, leValue (mem.bytes (pos + 1) 2))
  rw [htype, haddr, hlen]

theorem qmiDecodeBasicElem_alike (hmem : Further mem mem' S δ) (ei : QmiElemInfo)
    (n i addr pos : Nat) :
    Alike S (qmiDecodeBasicElem mem ei n i addr pos)
      (qmiDecodeBasicElem mem' ei n i addr (pos + δ)) := by
  induction n generalizing i addr pos with
  | zero => exact .refl _
  | succ n ih =>
      intro hP
      have hbytes := hmem.bytes (hP (.read pos ei.elemSize) List.mem_cons_self)
      have hnext : pos + δ + ei.elemSize = pos + ei.elemSize + δ := by omega
      revert hP
      rw [qmiDecodeBasicElem, qmiDecodeBasicElem, hbytes, hnext]
      refine Mirrors.bind (.emit fun _ => rfl) fun _ => Mirrors.bind (.refl _) fun _ => ?_
      exact (ih _ _ _).bind fun _ => .refl _

/-- The structures in the second input are read as those in the first. -/
abbrev CallAlike (S : Nat → Prop) (δ : Nat) (rec rec' : DecodeCall) (eiArray : List QmiElemInfo)
    (level : Nat) : Prop :=
  ∀ out pos room, Alike S (rec eiArray out pos room level) (rec' eiArray out (pos + δ) room level)

theorem qmiDecodeStructElem_alike {ei : QmiElemInfo} (hcall : CallAlike S δ rec rec' ei.eiArray level)
    (addr pos count : Nat) :
    Alike S (qmiDecodeStructElem rec ei addr pos count tlvLen level)
      (qmiDecodeStructElem rec' ei addr (pos + δ) count tlvLen level) := by
  have hloop : ∀ left i addr pos k,
      Alike S (qmiDecodeStructLoop rec ei tlvLen level left i addr pos k)
        (qmiDecodeStructLoop rec' ei tlvLen level left i addr (pos + δ) k) := by
    intro left
    induction left with
    | zero => exact fun _ _ _ _ => .refl _
    | succ left ih =>
        intro i addr pos k
        refine Mirrors.check ?_ (.refl _)
        refine Mirrors.bind (.refl _) fun _ => Mirrors.bind (.refl _) fun room => ?_
        refine (hcall addr pos room).bind fun rc => ?_
        have hnext : pos + δ + rc = pos + rc + δ := by omega
        rw [hnext]
        exact ih _ _ _ _
  exact (hloop _ _ _ _ _).bind fun _ => .refl _

theorem qmiDecodeStringElem_alike (hmem : Further mem mem' S δ) (ei : QmiElemInfo) (addr pos : Nat) :
    Alike S (qmiDecodeStringElem mem ei addr pos tlvLen level)
      (qmiDecodeStringElem mem' ei addr (pos + δ) tlvLen level) := by
  have hlen : Alike S (decodeStringLen mem ei pos tlvLen level)
      (decodeStringLen mem' ei (pos + δ) tlvLen level) :=
    Mirrors.check (.refl _) ((qmiDecodeLocal_alike hmem _ _).bind fun _ => .refl _)
  apply hlen.bind
  rintro ⟨len, width⟩
  have haddr : pos + δ + width = pos + width + δ := by omega
  refine Mirrors.check (.refl _) (Mirrors.check (.refl _) ?_)
  rw [haddr]
  exact (qmiDecodeBasicElem_alike hmem _ _ _ _ _).bind fun _ => .refl _

theorem decodeSwitch_alike (hmem : Further mem mem' S δ) {ei : QmiElemInfo}
    (hcall : ei.dataType = .struct → CallAlike S δ rec rec' ei.eiArray (level + 1))
    (addr pos count : Nat) :
    Alike S (decodeSwitch rec mem ei addr pos count tlvLen level)
      (decodeSwitch rec' mem' ei addr (pos + δ) count tlvLen level) := by
  unfold decodeSwitch
  cases htype : ei.dataType with
  | eoti | optFlag | dataLen => exact .refl _
  | struct => exact qmiDecodeStructElem_alike (hcall htype) _ _ _
  | string => exact qmiDecodeStringElem_alike hmem _ _ _
  | _ => exact qmiDecodeBasicElem_alike hmem _ _ _ _ _

/-- A group is read in the second input as in the first. -/
theorem readGroup_alike (hmem : Further mem mem' S δ) {g : Group}
    (hcall : g.value.dataType = .struct → CallAlike S δ rec rec' g.value.eiArray (level + 1))
    (out dataLenValue pos : Nat) :
    Alike S (readGroup rec mem out level g dataLenValue pos tlvLen)
      (readGroup rec' mem' out level g dataLenValue (pos + δ) tlvLen) := by
  have hcount : Alike S (readCount mem out g dataLenValue pos tlvLen)
      (readCount mem' out g dataLenValue (pos + δ) tlvLen) := by
    unfold readCount
    cases g.len? with
    | none => exact .refl _
    | some l => exact (qmiDecodeLocal_alike hmem _ _).bind fun _ => .refl _
  apply Mirrors.bind (.refl _)
  intro _
  apply hcount.bind
  rintro ⟨v, left, width⟩
  apply Mirrors.bind (.refl _)
  intro count
  have haddr : pos + δ + width = pos + width + δ := by omega
  simp only [haddr]
  exact (decodeSwitch_alike hmem hcall _ _ _).bind fun _ => .refl _

/-- A nested structure is read in the second input as in the first. -/
theorem readNested_alike (hmem : Further mem mem' S δ) (d : Nat) (eiArray : List QmiElemInfo)
    (level : Nat) : CallAlike S δ (readNested mem d) (readNested mem' d) eiArray level := by
  induction d generalizing eiArray level with
  | zero => exact fun _ _ _ => .refl _
  | succ d ih =>
      intro out pos room
      have key : ∀ (gs : List Group) (v k : Nat),
          Alike S (readFields (readNested mem d) mem out pos room level gs v k)
            (readFields (readNested mem' d) mem' out (pos + δ) room level gs v k) := by
        intro gs
        induction gs with
        | nil => exact fun _ _ => .refl _
        | cons g gs ihgs =>
            intro v k
            refine Mirrors.check (Mirrors.bind (.refl _) fun tlvLen => ?_) (.refl _)
            have haddr : pos + δ + k = pos + k + δ := by omega
            rw [haddr]
            exact (readGroup_alike hmem (fun _ => ih _ _) _ _ _).bind fun _ => ihgs _ _
      exact key _ _ _

end Further

end Qrtr
