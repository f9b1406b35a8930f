/-
Module: Qrtr.Qmi.Reach
Layer: Qmi
Purpose: How far behind its input the decoder can read. It compares nothing with the end of the input but
  the start of a TLV, so a read ends at most one header and all fields of the descriptor behind it.
  If that is below 2^31 bytes, the numbers of C make no difference to the decoder, whatever the input.
Imports: Qmi.MachineDecode
Main exports: wireSize, Site.Reads, walkMessage_reads, Machine.qmiDecode_eq
Open obligations: none
-/
import Mathlib.Algebra.Order.BigOperators.Group.List
import Qrtr.Qmi.MachineDecode

namespace Qrtr

open Traced

/-! ### The bytes of a descriptor -/

mutual

/-- The most bytes that an element takes in a message: two for a count, and every array and string full. -/
def QmiElemInfo.wireSize : QmiElemInfo → Nat
  | ⟨dataType, elemLen, elemSize, arrayType, _, _, eiArray⟩ =>
      let count := if arrayType = .noArray then 1 else elemLen
      match dataType with
      | .eoti | .optFlag => 0
      | .dataLen => 2
      | .struct => count * wireSize eiArray
      | .string => 2 + elemLen * elemSize
      | _ => count * elemSize

/-- The most bytes that the elements of a descriptor take together. -/
def wireSize : List QmiElemInfo → Nat
  | [] => 0
  | ei :: rest => ei.wireSize + wireSize rest

end

/-- The most bytes that a group takes. -/
def Group.wireSize (g : Group) : Nat := (if g.len?.isSome then 2 else 0) + g.value.wireSize

theorem wireSize_append (es es' : List QmiElemInfo) :
    wireSize (es ++ es') = wireSize es + wireSize es' := by
  induction es with
  | nil => simp [wireSize]
  | cons e es ih => rw [List.cons_append, wireSize, wireSize, ih, Nat.add_assoc]

/-- The flag of a group is not in the message. -/
theorem wireSize_elems {g : Group} (h : g.Shaped) : wireSize g.elems = g.wireSize := by
  have hflag : ∀ f, g.flag? = some f → f.wireSize = 0 := by
    rintro ⟨dataType, _, _, _, _, _, _⟩ hf
    obtain rfl := h.flag _ hf
    rfl
  have hlen : ∀ l, g.len? = some l → l.wireSize = 2 := by
    rintro ⟨dataType, _, _, _, _, _, _⟩ hl
    obtain rfl := h.len _ hl
    rfl
  unfold Group.elems Group.wireSize
  cases hf : g.flag? <;> cases hl : g.len? <;>
    simp [wireSize, hflag, hlen, hf, hl]

theorem wireSize_flatten {gs : List Group} (h : ∀ g ∈ gs, g.Shaped) (eoti : QmiElemInfo) :
    wireSize (flatten gs eoti) = (gs.map Group.wireSize).sum + eoti.wireSize := by
  rw [flatten, wireSize_append, wireSize, wireSize, Nat.add_zero]
  congr 1
  induction gs with
  | nil => rfl
  | cons g gs ih =>
      rw [List.flatMap_cons, wireSize_append, wireSize_elems (h g List.mem_cons_self), List.map_cons,
        List.sum_cons, ih fun g' hg' => h g' (List.mem_cons_of_mem _ hg')]

/-- A group that a search ends in front of is no larger than the descriptor. -/
theorem Group.wireSize_tail_le {gs : List Group} (h : ∀ g ∈ gs, g.Shaped) (eoti : QmiElemInfo) {g g' : Group}
    (hg : g ∈ gs) (hg' : g' ∈ g.tails) : g'.wireSize ≤ Qrtr.wireSize (flatten gs eoti) := by
  have hle : g'.wireSize ≤ g.wireSize := by
    simp only [Group.tails, List.mem_cons, List.not_mem_nil, or_false] at hg'
    rcases hg' with rfl | rfl | rfl <;> simp [Group.wireSize]
  have hmem : g.wireSize ≤ (gs.map Group.wireSize).sum :=  List.le_sum_of_mem (List.mem_map_of_mem hg)
  rw [wireSize_flatten h]
  omega

/-- What the value of a group takes, by its type. -/
theorem QmiElemInfo.wireSize_eq (ei : QmiElemInfo) : ei.wireSize =
    match ei.dataType with
    | .eoti | .optFlag => 0
    | .dataLen => 2
    | .struct => ei.maxCount * Qrtr.wireSize ei.eiArray
    | .string => 2 + ei.elemLen * ei.elemSize
    | _ => ei.maxCount * ei.elemSize := by
  obtain ⟨dataType, elemLen, elemSize, arrayType, _, _, eiArray⟩ := ei
  cases dataType <;> cases arrayType <;> simp [QmiElemInfo.wireSize, QmiElemInfo.maxCount]

/-! ### The sites of a message -/

/-- What is read at the site ends at `limit` at the latest. -/
def Site.Reads (limit : Nat) : Site → Prop
  | .header pos => pos + 3 ≤ limit
  | .count pos width _ => Machine.Ends limit pos width
  | .body pos size => Machine.Ends limit pos size
  | .textLen pos width => Machine.Ends limit pos width
  | .text _ pos len size => Machine.Ends limit pos (len * size)

section Walks

variable {mem : Mem} {limit level : Nat}

/-- A walk reads below the limit, and takes no more than `n` bytes. -/
def TakesUpTo (limit n : Nat) (m : Walk Nat) : Prop :=
  m.Guarded (Site.Reads limit) (fun _ => True) fun rc => rc ≤ n

/-- Structures one after the other, from the byte `k` on. -/
theorem walkStructs_takesUpTo {nested : Nat → Nat → Walk Nat} {size : Nat}
    (hnested : ∀ pos room, pos + size ≤ limit → TakesUpTo limit size (nested pos room)) (room : Nat) :
    ∀ (left i pos k : Nat), pos + left * size ≤ limit →
      (walkStructs nested room left i pos k).Guarded (Site.Reads limit) (fun _ => True) fun r =>
        r.2 ≤ k + left * size
  | 0, _, _, k, _ => guarded_pure (Nat.le_add_right k _)
  | left + 1, i, pos, k, hend => by
      rw [Nat.succ_mul] at hend ⊢
      rw [walkStructs]
      split
      · refine (hnested _ _ (by omega)).bind fun rc hrc => ?_
        refine (walkStructs_takesUpTo hnested room left _ _ _ (by omega)).imp fun r hr => ?_
        omega
      · exact guarded_pure (by dsimp only; omega)

/-- A string. -/
theorem walkText_takesUpTo (ei : QmiElemInfo) {pos : Nat} (room : Nat)
    (hend : pos + (2 + ei.elemLen * ei.elemSize) ≤ limit) :
    TakesUpTo limit (2 + ei.elemLen * ei.elemSize) (walkText mem ei pos room level) := by
  have hwidth : stringLenSz ei ≤ 2 := by
    unfold stringLenSz
    split <;> omega
  have hlen : (walkTextLen mem ei pos room level).Guarded (Site.Reads limit) (fun _ => True) fun r =>
      r.2 ≤ 2 := by
    unfold walkTextLen
    split
    · exact guarded_pure (Nat.zero_le _)
    · refine .after (R := fun r : Nat × Nat => r.2 ≤ 2) ?_ (guarded_pure hwidth)
      simp only [emit_trace, List.mem_singleton, forall_eq]
      exact .inr (by omega)
  refine hlen.bind fun ⟨len, width⟩ hle => ?_
  refine .check trivial fun hfits => .check trivial fun _ => ?_
  have hmul := Nat.mul_le_mul_right ei.elemSize (Nat.le_of_not_lt hfits)
  refine .after (t := [_]) ?_ (guarded_pure ?_)
  · simp only [List.mem_singleton, forall_eq]
    exact .inr (by dsimp only at hle; omega)
  · dsimp only at hle ⊢
    omega

/-- The nested calls that a walk makes take no more than the structure has room for. -/
abbrev CallTakesUpTo (limit : Nat) (rec : WalkCall) (ei : List QmiElemInfo) : Prop :=
  ∀ pos room level, pos + wireSize ei ≤ limit → TakesUpTo limit (wireSize ei) (rec ei pos room level)

/-- The value of a group. -/
theorem walkValue_takesUpTo {rec : WalkCall} {ei : QmiElemInfo}
    (hrec : ei.dataType = .struct → CallTakesUpTo limit rec ei.eiArray) {pos count : Nat} (room : Nat)
    (hcount : count ≤ ei.maxCount) (hend : pos + ei.wireSize ≤ limit) :
    TakesUpTo limit ei.wireSize (walkValue rec mem ei pos count room level) := by
  have hbody : pos + count * ei.elemSize ≤ limit →
      TakesUpTo limit (count * ei.elemSize) (do
        Traced.emit (.body pos (count * ei.elemSize))
        pure (count * ei.elemSize)) := by
    intro hle
    refine .after (t := [_]) ?_ (guarded_pure (Nat.le_refl _))
    simp only [List.mem_singleton, forall_eq]
    exact .inr hle
  have hsize := ei.wireSize_eq
  unfold walkValue
  cases htype : ei.dataType with
  | eoti | optFlag | dataLen => exact guarded_fail trivial
  | struct =>
      simp only [htype] at hsize
      have hmul := Nat.mul_le_mul_right (wireSize ei.eiArray) hcount
      have hnested : ∀ pos len, pos + wireSize ei.eiArray ≤ limit →
          TakesUpTo limit (wireSize ei.eiArray) (rec ei.eiArray pos len (level + 1)) :=
        fun pos len => hrec htype pos len (level + 1)
      refine (walkStructs_takesUpTo hnested room count 0 pos 0 (by omega)).bind fun r hr =>
        .check trivial fun _ => guarded_pure ?_
      omega
  | string =>
      simp only [htype] at hsize
      rw [hsize] at hend ⊢
      exact walkText_takesUpTo ei room hend
  | _ =>
      simp only [htype] at hsize
      have hmul := Nat.mul_le_mul_right ei.elemSize hcount
      exact (hbody (by omega)).imp fun rc hrc => by omega

/-- A group. -/
theorem walkGroup_takesUpTo {rec : WalkCall} {g : Group}
    (hrec : g.value.dataType = .struct → CallTakesUpTo limit rec g.value.eiArray) (dataLenValue : Nat) {pos : Nat}
    (room : Nat) (hend : pos + g.wireSize ≤ limit) :
    (walkGroup rec mem level g dataLenValue pos room).Guarded (Site.Reads limit) (fun _ => True) fun r =>
      r.2 ≤ g.wireSize := by
  have hcount : (walkCount mem g dataLenValue pos room).Guarded (Site.Reads limit) (fun _ => True) fun r =>
      r.2.2 ≤ if g.len?.isSome then 2 else 0 := by
    unfold walkCount
    cases hl : g.len? with
    | none => exact guarded_pure (Nat.zero_le _)
    | some l =>
        have hwidth : dataLenSz l ≤ 2 := by
          unfold dataLenSz
          split <;> omega
        refine .after (t := [_]) ?_ (guarded_pure hwidth)
        simp only [List.mem_singleton, forall_eq]
        rw [Group.wireSize, hl] at hend
        exact .inr (by simp only [Option.isSome_some, if_true] at hend; omega)
  have helems : ∀ v, (walkElems g.value v).Guarded (Site.Reads limit) (fun _ => True) fun n =>
      n ≤ g.value.maxCount := by
    intro v
    unfold walkElems QmiElemInfo.maxCount
    cases g.value.arrayType with
    | noArray | staticArray => exact guarded_pure (Nat.le_refl _)
    | varLenArray => exact .check trivial fun hle => guarded_pure (Nat.le_of_not_lt hle)
  rw [Group.wireSize] at hend ⊢
  refine hcount.bind fun ⟨v, left, width⟩ hwidth => ?_
  dsimp only at hwidth
  refine (helems v).bind fun n hn => ?_
  refine (walkValue_takesUpTo hrec left hn (by omega)).bind fun rc hrc => guarded_pure ?_
  dsimp only
  omega

/-- The fields of a nested structure, from the byte `k` on. -/
theorem walkFields_takesUpTo {rec : WalkCall} {inBuf inBufLen : Nat} :
    ∀ {gs : List Group} (v k : Nat),
      (∀ g ∈ gs, g.value.dataType = .struct → CallTakesUpTo limit rec g.value.eiArray) →
      inBuf + k + (gs.map Group.wireSize).sum ≤ limit →
      TakesUpTo limit (k + (gs.map Group.wireSize).sum) (walkFields rec mem inBuf inBufLen level gs v k)
  | [], _, _, _, _ => guarded_pure (Nat.le_refl _)
  | g :: gs, v, k, hrec, hend => by
      rw [List.map_cons, List.sum_cons] at hend ⊢
      rw [walkFields]
      split
      · refine (walkGroup_takesUpTo (hrec g List.mem_cons_self) v _ (by omega)).bind ?_
        rintro ⟨v', rc⟩ hrc
        dsimp only at hrc
        refine (walkFields_takesUpTo v' (k + rc) (fun g' hg' => hrec g' (List.mem_cons_of_mem _ hg'))
          (by omega)).imp fun n hn => ?_
        omega
      · exact guarded_pure (by omega)

/-- A nested structure. -/
theorem walkNested_takesUpTo {R : Nat → List Group → QmiElemInfo → Prop} {ei : List QmiElemInfo}
    (h : Described R level ei) (d : Nat) : CallTakesUpTo limit (walkNested mem d) ei := by
  induction d generalizing level ei with
  | zero => exact fun _ _ _ _ => guarded_fail trivial
  | succ d ih =>
      cases h with
      | @mk _ gs eoti hend hshape _ hnest =>
          intro pos room level hle
          rw [wireSize_flatten hshape] at hle ⊢
          rw [walkNested, groups_flatten hend hshape]
          refine (walkFields_takesUpTo 0 0 (fun g hg hstruct => ih (hnest g hg hstruct)) (by omega)).imp
            fun n hn => ?_
          omega

/-- The TLVs of a message, from the byte `k` on: a header begins in the input. -/
theorem walkTlvs_reads {rec : WalkCall} {gs : List Group} {eoti : QmiElemInfo} {inBuf inBufLen : Nat}
    (hend : eoti.dataType = .eoti) (hshape : ∀ g ∈ gs, g.Shaped)
    (hlimit : inBuf + inBufLen + 2 + wireSize (flatten gs eoti) ≤ limit)
    (hrec : ∀ g ∈ gs, g.value.dataType = .struct → CallTakesUpTo limit rec g.value.eiArray) :
    ∀ fuel v k, (walkTlvs rec mem (flatten gs eoti) inBuf inBufLen fuel v k).Every (Site.Reads limit)
  | 0, _, _ => every_fail _
  | fuel + 1, v, k => by
      rw [walkTlvs]
      split
      · rename_i hk
        have hheader : inBuf + k + 3 ≤ limit := by omega
        rw [emit_bind, every_after]
        refine ⟨fun s hs => (List.mem_singleton.mp hs).symm ▸ hheader, ?_⟩
        rcases findGroup_flatten hend hshape (mem (inBuf + k)).toNat with
          ⟨_, hgroup⟩ | ⟨g, hg, g', hg', _, _, hgroup⟩
        · simp only [hgroup]
          split
          · exact every_fail _
          · exact walkTlvs_reads hend hshape hlimit hrec _ _ _
        · simp only [hgroup]
          have hle := Group.wireSize_tail_le hshape eoti hg hg'
          have hrec' : g'.value.dataType = .struct → CallTakesUpTo limit rec g'.value.eiArray := by
            rw [Group.value_of_tail hg']
            exact hrec g hg
          exact every_bind_iff.mpr ⟨(walkGroup_takesUpTo hrec' v _ (by omega)).every,
            fun _ _ => walkTlvs_reads hend hshape hlimit hrec _ _ _⟩
      · exact every_pure _

/-- The sites of a message: a group ends no further behind its header than the descriptor is large. -/
theorem walkMessage_reads {R : Nat → List Group → QmiElemInfo → Prop} {ei : List QmiElemInfo}
    (h : Described R 1 ei) (mem : Mem) (inBuf inBufLen : Nat) :
    (walkMessage mem ei inBuf inBufLen).Every (Site.Reads (inBuf + inBufLen + 2 + wireSize ei)) := by
  cases h with
  | mk hend hshape _ hnest =>
      exact walkTlvs_reads hend hshape (Nat.le_refl _)
        (fun g hg hstruct => walkNested_takesUpTo (hnest g hg hstruct) _) _ _ _

end Walks

/-! ### The decoder -/

/-- Elements one after the other end in time exactly when the block of them does. -/
theorem ends_mul_iff (limit pos size n : Nat) :
    (∀ i, i < n → Machine.Ends limit (pos + i * size) size) ↔ Machine.Ends limit pos (n * size) := by
  constructor
  · intro h
    cases n with
    | zero => exact .inl (Nat.zero_mul _)
    | succ n =>
        rw [Nat.succ_mul]
        rcases h n (Nat.lt_succ_self n) with hzero | hle
        · exact .inl (by simp [hzero])
        · exact .inr (by omega)
  · intro h i hi
    have hle : (i + 1) * size ≤ n * size := Nat.mul_le_mul_right _ hi
    rw [Nat.succ_mul] at hle
    unfold Machine.Ends at *
    omega

theorem tracked_reads (limit : Nat) (mem : Mem) (out : Nat) (g : Group) :
    Tracked (Machine.Reads limit) (Site.Reads limit) mem out g where
  flag _ _ := trivial
  count l _ pos v room := by simp [Machine.Reads, Site.Reads]
  basic _ _ n _ pos := by
    simp only [ElemsIn, Machine.Reads, Site.Reads, and_true]
    exact ends_mul_iff _ _ _ _
  enter _ _ _ := trivial
  textLen _ := Iff.rfl
  text _ len _ pos := by
    simp only [ElemsIn, Machine.Reads, Site.Reads, and_true]
    exact ends_mul_iff _ _ _ _

theorem trackedAt_reads {R : Nat → List Group → QmiElemInfo → Prop} (limit : Nat) (mem : Mem)
    {level : Nat} {ei : List QmiElemInfo} (h : Described R level ei) (out : Nat) :
    TrackedAt (Machine.Reads limit) (Site.Reads limit) mem ei out := by
  induction h generalizing out with
  | mk hend hshape _ _ ih =>
      refine .mk (fun g _ => tracked_reads limit mem out g) ?_
      rw [groups_flatten hend hshape]
      intro g hg hstruct i _
      exact ih g hg hstruct _

/-- The numbers of C make no difference to the decoder when the input and the fields of the descriptor
    take fewer than 2^31 bytes together. -/
theorem Machine.qmiDecode_eq {R : Nat → List Group → QmiElemInfo → Prop} (mem : Mem)
    {ei : List QmiElemInfo} (h : Described R 1 ei) (out : Nat) {inBuf inBufLen : Nat}
    (hsmall : inBuf + inBufLen + 2 + wireSize ei < 2 ^ 31) :
    qmiDecode mem (nestDepth ei) ei out inBuf inBufLen 1 =
      Qrtr.qmiDecode mem (nestDepth ei) ei out inBuf inBufLen 1 := by
  have hreads : (Qrtr.qmiDecode mem (nestDepth ei) ei out inBuf inBufLen 1).Every
      (Reads (inBuf + inBufLen + 2 + wireSize ei)) := by
    rw [qmiDecode_eq_readMessage mem h]
    exact (readMessage_tracks h (trackedAt_reads _ mem h out) (fun _ _ _ => trivial)
      (fun _ _ _ => Iff.rfl) inBuf inBufLen).every_iff.mpr (walkMessage_reads h mem inBuf inBufLen)
  exact (qmiDecode_matches hsmall mem _ ei out inBufLen (Nat.le_refl 1) (by omega)).eq (.inl hreads)

end Qrtr
