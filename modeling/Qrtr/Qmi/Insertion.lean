/-
Module: Qrtr.Qmi.Insertion
Layer: Qmi
Purpose: A TLV of a type that the descriptor does not know, put where the decoder begins a TLV. In front of
  it the decoder has read only bytes that did not move; behind it the decoder stands where it stood
  without it, with the same count left over. So an optional TLV leaves no trace but in the returned
  length, and any other is refused.
Imports: Qmi.Framing, Qmi.Relocation
Main exports: TlvStarts, Transparent, qmiDecode_insert
Open obligations: none
-/
import Qrtr.Qmi.Framing
import Qrtr.Qmi.Relocation

namespace Qrtr

open Traced

/-! ### The loop over the TLVs -/

section Loop

variable {mem mem' : Mem} {ei : List QmiElemInfo} {out inBuf stop fuel v pos : Nat} {rec : DecodeCall}

/-- The bound on the loop does not matter, once it is high enough. -/
theorem readTlvs_fuel {fuel' : Nat} (hone : 0 < fuel) (hone' : 0 < fuel') (h : stop < fuel + pos)
    (h' : stop < fuel' + pos) :
    readTlvs rec mem ei out inBuf stop fuel v pos = readTlvs rec mem ei out inBuf stop fuel' v pos := by
  induction fuel generalizing fuel' v pos with
  | zero => exact absurd hone (Nat.lt_irrefl 0)
  | succ fuel ih =>
      obtain ⟨fuel', rfl⟩ : ∃ f, fuel' = f + 1 := ⟨fuel' - 1, by omega⟩
      by_cases hpos : pos < stop
      · cases hfind : findGroup ei (mem (inBuf + pos)).toNat with
        | none =>
            rw [readTlvs_of_none hpos hfind, readTlvs_of_none hpos hfind]
            congr 2
            exact ih (by omega) (by omega) (by omega) (by omega)
        | some g =>
            rw [readTlvs_of_some hpos hfind, readTlvs_of_some hpos hfind]
            congr 2
            funext r
            exact ih (by omega) (by omega) (by omega) (by omega)
      · rw [readTlvs_end hpos, readTlvs_end hpos]

theorem takes_header (mem : Mem) (pos : Nat) : Takes pos (fun _ => pos + 3) (decodeTlv mem pos) := by
  have hread : ∀ S : Nat → Prop, (∀ i, i < 3 → S (pos + i)) →
      (decodeTlv mem pos).Every (DecodeEvent.ReadsIn S) :=
    fun S h => List.forall_mem_singleton.mpr h
  refine ⟨fun _ _ => Nat.le_add_right _ _, hread _ ?_, fun _ _ => hread _ ?_⟩
  · exact fun i _ => Nat.le_add_right _ _
  · exact fun i hi => Nat.add_lt_add_left hi _

/-- A message takes what it says. -/
theorem readTlvs_takes (mem : Mem) (ei : List QmiElemInfo) (out inBuf stop d fuel v pos : Nat) :
    Takes (inBuf + pos) (fun r => inBuf + r)
      (readTlvs (readNested mem d) mem ei out inBuf stop fuel v pos) := by
  induction fuel generalizing v pos with
  | zero => exact takes_fail _
  | succ fuel ih =>
      refine Takes.check ?_ (takes_pure (Nat.le_refl _))
      refine Takes.bind (takes_header _ _) ?_
      rintro ⟨type, len⟩ _
      cases hfind : findGroup ei type with
      | none =>
          simp only [hfind]
          exact Takes.check (takes_fail _) ((ih _ _).later (by omega))
      | some g =>
          simp only [hfind]
          refine Takes.bind (readGroup_takes (fun _ => readNested_takes _ _ _ _) _ _ _) ?_
          rintro ⟨v', rc⟩ _
          exact (ih _ _).later (by omega)

/-- A message is read in the second input as in the first, and the result counts the bytes in front. -/
theorem readTlvs_alike {S : Nat → Prop} {k : Nat} (hmem : Further mem mem' S k) (d fuel v pos : Nat) :
    Alike S
      (readTlvs (readNested mem d) mem ei out inBuf stop fuel v pos >>= fun n => pure (n + k))
      (readTlvs (readNested mem' d) mem' ei out inBuf (stop + k) fuel v (pos + k)) := by
  induction fuel generalizing v pos with
  | zero => exact .refl _
  | succ fuel ih =>
      rw [readTlvs, readTlvs]
      simp only [Nat.add_lt_add_iff_right]
      split
      · have haddr : inBuf + (pos + k) = inBuf + pos + k := by omega
        rw [haddr, bind_assoc]
        refine (decodeTlv_alike hmem _).bind ?_
        rintro ⟨type, len⟩
        cases findGroup ei type with
        | none =>
            simp only
            split
            · exact .refl _
            · have hnext : pos + k + 3 + len = pos + 3 + len + k := by omega
              rw [hnext]
              exact ih _ _
        | some g =>
            simp only
            have haddr' : inBuf + pos + k + 3 = inBuf + pos + 3 + k := by omega
            rw [haddr', bind_assoc]
            refine (readGroup_alike hmem (fun _ => readNested_alike hmem _ _ _) _ _ _).bind ?_
            rintro ⟨v', rc⟩
            have hnext : pos + k + 3 + rc = pos + 3 + rc + k := by omega
            simp only [hnext]
            exact ih _ _
      · exact .refl _

end Loop

/-! ### Where a TLV may be put -/

/-- The positions from `lo` up to `hi`. -/
def Between (lo hi x : Nat) : Prop := lo ≤ x ∧ x < hi

/-- The decoder begins a TLV at `b`, or has come to the end of the message there. -/
def TlvStarts (run : Decoding Nat) (inBuf len b : Nat) : Prop :=
  inBuf + b ∈ headers run.trace ∨ run.res = .ok len ∧ b = len

/-- The second run stores what the first stores and fails as it fails; if it succeeds, it returns `k` more. -/
structure Transparent (k : Nat) (run run' : Decoding Nat) : Prop where
  writes : storedWrites run'.trace = storedWrites run.trace
  error : ∀ e, run.res = .error e → run'.res = .error e
  ok : ∀ n, run.res = .ok n → run'.res = .ok (n + k)

section Starts

variable {m m' : Decoding Nat} {inBuf len b k start : Nat}

/-- Every TLV begins where the run began, or further on. -/
theorem TlvStarts.ge (h : TlvStarts m inBuf len b) (hm : Takes start (fun r => inBuf + r) m) :
    start ≤ inBuf + b := by
  rcases h with hheader | ⟨hres, rfl⟩
  · obtain ⟨e, he, hpos⟩ := List.mem_filterMap.mp hheader
    cases e with
    | tlv p type l =>
        cases hpos
        exact hm.ahead _ he 0 (by omega)
    | read | sub | store | enter => cases hpos
  · exact hm.le _ hres

/-- A TLV that begins behind the first header. -/
theorem TlvStarts.of_after {mem : Mem} {p : Nat} (h : TlvStarts (after [headerEvent mem p] m) inBuf len b)
    (hne : inBuf + b ≠ p) : TlvStarts m inBuf len b := by
  rcases h with hheader | hend
  · rw [after_trace, List.singleton_append, headerEvent, headers_tlv, List.mem_cons] at hheader
    exact .inl (hheader.resolve_left hne)
  · exact .inr hend

/-- No TLV begins in a run that is refused at once. -/
theorem not_tlvStarts_fail (e : QmiError) : ¬ TlvStarts (fail e) inBuf len b := by
  rintro (hheader | ⟨hres, -⟩)
  · cases hheader
  · cases hres

/-- A TLV that begins behind a group. -/
theorem TlvStarts.of_bind {α : Type} {group : Decoding α} {f : α → Decoding Nat}
    (h : TlvStarts (group >>= f) inBuf len b) (hquiet : headers group.trace = []) :
    ∃ a, group.res = .ok a ∧ TlvStarts (f a) inBuf len b := by
  cases hres : group.res with
  | ok a =>
      rw [bind_ok hres, TlvStarts, after_trace, headers_append, hquiet, List.nil_append] at h
      exact ⟨a, rfl, h⟩
  | error e =>
      rw [bind_error hres, TlvStarts, hquiet] at h
      rcases h with hheader | ⟨hok, -⟩
      · cases hheader
      · cases hok

theorem Transparent.of_alike
    (h : m'.res = (m >>= fun n => pure (n + k)).res ∧ storedWrites m'.trace = storedWrites m.trace) :
    Transparent k m m' := by
  obtain ⟨hres, hwrites⟩ := h
  refine ⟨hwrites, fun e he => ?_, fun n hn => ?_⟩
  · rw [hres, bind_error he]
  · rw [hres, bind_ok hn]
    rfl

/-- A header in front of both. -/
theorem Transparent.after (h : Transparent k m m') (mem mem' : Mem) (p p' : Nat) :
    Transparent k (after [headerEvent mem p] m) (after [headerEvent mem' p'] m') :=
  ⟨h.writes, h.error, h.ok⟩

/-- A header in front of the second run alone. -/
theorem Transparent.after_right (h : Transparent k m m') (mem' : Mem) (p' : Nat) :
    Transparent k m (Traced.after [headerEvent mem' p'] m') :=
  ⟨h.writes, h.error, h.ok⟩

/-- A group in front of both. -/
theorem Transparent.bind {α : Type} {group group' : Decoding α} {a : α} {f f' : α → Decoding Nat}
    (hres : group.res = .ok a)
    (hgroup : group'.res = group.res ∧ storedWrites group'.trace = storedWrites group.trace)
    (h : Transparent k (f a) (f' a)) : Transparent k (group >>= f) (group' >>= f') := by
  rw [bind_ok hres, bind_ok (hgroup.1.trans hres)]
  refine ⟨?_, h.error, h.ok⟩
  rw [after_trace, after_trace, storedWrites, storedWrites, List.filterMap_append, List.filterMap_append]
  exact congrArg₂ (· ++ ·) hgroup.2 h.writes

end Starts

section Insert

variable {R : Nat → List Group → QmiElemInfo → Prop} {mem mem' : Mem} {out inBuf stop d b k : Nat}
  {gs : List Group} {eoti : QmiElemInfo}

/-- The two inputs have the same header in front of the boundary. -/
theorem Further.header (hbefore : Further mem mem' (Between inBuf (inBuf + b)) 0) {p : Nat}
    (hlo : inBuf ≤ p) (hhi : p + 3 ≤ inBuf + b) :
    mem' p = mem p ∧ tlvLenAt mem' p = tlvLenAt mem p := by
  have hread : (DecodeEvent.read (p + 1) 2).ReadsIn (Between inBuf (inBuf + b)) := by
    intro i hi
    unfold Between
    omega
  refine ⟨hbefore p ⟨hlo, by omega⟩, ?_⟩
  exact congrArg leValue (hbefore.bytes hread)

/-- At the boundary `b` the new TLV is read, and the run is back where it was without it. -/
theorem readTlvs_boundary {ei : List QmiElemInfo}
    (hunknown : findGroup ei (mem' (inBuf + b)).toNat = none)
    (hk : k = 3 + tlvLenAt mem' (inBuf + b))
    (hbehind : Further mem mem' (Between (inBuf + b) (inBuf + stop)) k) {fuel fuel' v : Nat}
    (hone : 0 < fuel) (hfuel : stop < fuel + b) (hfuel' : stop + k < fuel' + 1 + b) (hle : b ≤ stop)
    (hin : (readTlvs (readNested mem d) mem ei out inBuf stop fuel v b).Every
      (DecodeEvent.ReadsIn (· < inBuf + stop))) :
    ((mem' (inBuf + b)).toNat < optionalTlvTypeStart →
      (readTlvs (readNested mem' d) mem' ei out inBuf (stop + k) (fuel' + 1) v b).res
        = .error einval) ∧
    (optionalTlvTypeStart ≤ (mem' (inBuf + b)).toNat → Transparent k
      (readTlvs (readNested mem d) mem ei out inBuf stop fuel v b)
      (readTlvs (readNested mem' d) mem' ei out inBuf (stop + k) (fuel' + 1) v b)) := by
  rw [readTlvs_of_none (by omega) hunknown]
  refine ⟨fun hlow => by rw [if_pos hlow]; rfl, fun hhigh => ?_⟩
  rw [if_neg (Nat.not_lt.mpr hhigh)]
  have hnext : b + 3 + tlvLenAt mem' (inBuf + b) = b + k := by omega
  have hreads : (readTlvs (readNested mem d) mem ei out inBuf stop fuel v b >>=
      fun n => pure (n + k)).Every (DecodeEvent.ReadsIn (Between (inBuf + b) (inBuf + stop))) := by
    refine every_bind_iff.mpr ⟨fun e he => ?_, fun _ _ => every_pure _⟩
    exact ((readTlvs_takes mem _ _ _ _ _ _ _ _).ahead e he).and (hin e he)
  obtain ⟨hres, hwrites⟩ := readTlvs_alike hbehind d fuel v b hreads
  rw [bind_pure_trace] at hwrites
  have hbound : readTlvs (readNested mem' d) mem' ei out inBuf (stop + k) fuel' v (b + k) =
      readTlvs (readNested mem' d) mem' ei out inBuf (stop + k) fuel v (b + k) :=
    readTlvs_fuel (by omega) hone (by omega) (by omega)
  rw [hnext, hbound]
  exact (Transparent.of_alike ⟨hres, hwrites⟩).after_right _ _

/-- From any TLV on: with the new TLV at the boundary `b`, the run is what it was, or it is refused. -/
theorem readTlvs_insert (hend : eoti.dataType = .eoti) (hshape : ∀ g ∈ gs, g.Shaped)
    (hnest : ∀ g ∈ gs, g.value.dataType = .struct → Described R 2 g.value.eiArray)
    (hd : ∀ g ∈ gs, g.value.dataType = .struct → nestDepth g.value.eiArray ≤ d)
    (hunknown : findGroup (flatten gs eoti) (mem' (inBuf + b)).toNat = none)
    (hk : k = 3 + tlvLenAt mem' (inBuf + b))
    (hbefore : Further mem mem' (Between inBuf (inBuf + b)) 0)
    (hbehind : Further mem mem' (Between (inBuf + b) (inBuf + stop)) k)
    {fuel fuel' v pos : Nat} (hone : 0 < fuel) (hfuel : stop < fuel + pos)
    (hfuel' : stop + k < fuel' + pos)
    (hin : (readTlvs (readNested mem d) mem (flatten gs eoti) out inBuf stop fuel v pos).Every
      (DecodeEvent.ReadsIn (· < inBuf + stop)))
    (hb : TlvStarts (readTlvs (readNested mem d) mem (flatten gs eoti) out inBuf stop fuel v pos)
      inBuf stop b) :
    ((mem' (inBuf + b)).toNat < optionalTlvTypeStart →
      (readTlvs (readNested mem' d) mem' (flatten gs eoti) out inBuf (stop + k) fuel' v pos).res
        = .error einval) ∧
    (optionalTlvTypeStart ≤ (mem' (inBuf + b)).toNat → Transparent k
      (readTlvs (readNested mem d) mem (flatten gs eoti) out inBuf stop fuel v pos)
      (readTlvs (readNested mem' d) mem' (flatten gs eoti) out inBuf (stop + k) fuel' v pos)) := by
  induction fuel generalizing fuel' v pos with
  | zero => exact absurd hone (Nat.lt_irrefl 0)
  | succ fuel ih =>
      have hle := hb.ge (readTlvs_takes mem _ _ _ _ _ _ _ _)
      have hstop : pos < stop ∨ pos = stop ∧ b = stop := by
        by_cases hpos : pos < stop
        · exact .inl hpos
        · rw [readTlvs_end hpos] at hb
          rcases hb with hheader | ⟨hres, rfl⟩
          · cases hheader
          · cases hres
            exact .inr ⟨rfl, rfl⟩
      obtain ⟨fuel', rfl⟩ : ∃ f, fuel' = f + 1 := ⟨fuel' - 1, by omega⟩
      have hpos' : pos < stop + k := by omega
      by_cases hat : pos = b
      · subst hat
        exact readTlvs_boundary hunknown hk hbehind hone (by omega) hfuel' (by omega) hin
      · have hlt : pos < stop := by omega
        have hne : inBuf + b ≠ inBuf + pos := by omega
        rcases findGroup_flatten hend hshape (mem (inBuf + pos)).toNat with
          ⟨_, hfind⟩ | ⟨g, hg, g', hg', _, _, hfind⟩
        · rw [readTlvs_of_none hlt hfind] at hb hin ⊢
          have hrest := hb.of_after hne
          split at hrest
          · exact absurd hrest (not_tlvStarts_fail _)
          · rename_i hopt
            rw [if_neg hopt] at hin ⊢
            have hnext := hrest.ge (readTlvs_takes mem _ _ _ _ _ _ _ _)
            obtain ⟨htype, hlen⟩ := hbefore.header (show inBuf ≤ inBuf + pos by omega) (by omega)
            obtain ⟨hlow, hhigh⟩ := ih (show 0 < fuel by omega) (by omega)
              (show stop + k < fuel' + (pos + 3 + tlvLenAt mem (inBuf + pos)) by omega)
              ((every_after _ _).mp hin).2 hrest
            rw [readTlvs_of_none hpos' (by rwa [htype]), htype, if_neg hopt, hlen]
            exact ⟨hlow, fun h => (hhigh h).after _ _ _ _⟩
        · have hvalue := Group.value_of_tail hg'
          have hquiet := readGroup_headers mem out ((hshape g hg).tail hg')
            (by rw [hvalue]; exact hnest g hg) (by rw [hvalue]; exact hd g hg) v (inBuf + pos + 3)
            (tlvLenAt mem (inBuf + pos))
          rw [readTlvs_of_some hlt hfind] at hb hin ⊢
          obtain ⟨⟨v', rc⟩, hgroup, hrest⟩ := (hb.of_after hne).of_bind hquiet
          have hnext := hrest.ge (readTlvs_takes mem _ _ _ _ _ _ _ _)
          obtain ⟨htype, hlen⟩ := hbefore.header (show inBuf ≤ inBuf + pos by omega) (by omega)
          have hin' := (every_bind_iff.mp ((every_after _ _).mp hin).2).2 _ hgroup
          obtain ⟨hlow, hhigh⟩ := ih (show 0 < fuel by omega) (by omega)
            (show stop + k < fuel' + (pos + 3 + rc) by omega) hin' hrest
          have htakes : Takes (inBuf + pos + 3) (fun r => inBuf + pos + 3 + r.2) (readGroup
              (readNested mem d) mem out 1 g' v (inBuf + pos + 3) (tlvLenAt mem (inBuf + pos))) :=
            readGroup_takes (fun _ => readNested_takes mem d _ _) _ _ _
          have hreads : (readGroup (readNested mem d) mem out 1 g' v (inBuf + pos + 3)
              (tlvLenAt mem (inBuf + pos))).Every
              (DecodeEvent.ReadsIn (Between inBuf (inBuf + b))) := by
            intro e he
            apply ((htakes.ahead e he).and (htakes.within _ hgroup e he)).imp
            exact fun x hx => ⟨by omega, by omega⟩
          have hsame := readGroup_alike hbefore (fun _ => readNested_alike hbefore d _ _) _ _ _ hreads
          rw [readTlvs_of_some hpos' (by rwa [htype]), hlen]
          refine ⟨fun h => ?_, fun h => ?_⟩
          · rw [after_res, bind_ok (hsame.1.trans hgroup), after_res]
            exact hlow h
          · exact (Transparent.bind hgroup hsame (hhigh h)).after _ _ _ _

end Insert

/-! ### The message with the TLV -/

/-- The message `msg` with a TLV put in at `b`. -/
def insertTlv (msg : List UInt8) (b : Nat) (type : UInt8) (payload : List UInt8) : List UInt8 :=
  msg.take b ++ (tlvHeader type payload.length ++ (payload ++ msg.drop b))

theorem length_insertTlv {msg : List UInt8} {b : Nat} (h : b ≤ msg.length) (type : UInt8)
    (payload : List UInt8) :
    (insertTlv msg b type payload).length = msg.length + (3 + payload.length) := by
  simp only [insertTlv, List.length_append, List.length_take, List.length_drop, length_tlvHeader]
  omega

/-- The descriptor does not know the type. -/
theorem findGroup_unknown {R : Nat → List Group → QmiElemInfo → Prop} {level : Nat}
    {ei : List QmiElemInfo} (h : Described R level ei) {type : UInt8}
    (hunknown : ∀ g ∈ groups ei, ∀ e ∈ g.elems, e.tlvType ≠ type) : findGroup ei type.toNat = none := by
  cases h with
  | @mk _ gs eoti hend hshape =>
      rw [groups_flatten hend hshape] at hunknown
      have hnone : ∀ es : List QmiElemInfo, (∀ e ∈ es, e.tlvType ≠ type) →
          findEi (es ++ [eoti]) type.toNat = none := by
        intro es
        induction es with
        | nil =>
            intro _
            simp [findEi, hend]
        | cons e es ih =>
            intro hes
            have hne : ¬ e.tlvType.toNat = type.toNat := fun heq =>
              hes e List.mem_cons_self (UInt8.toNat_inj.mp heq)
            rw [List.cons_append, findEi, if_neg hne,
              ih fun e' he' => hes e' (List.mem_cons_of_mem _ he')]
            split <;> rfl
      have hfind := hnone (gs.flatMap Group.elems) fun e he => by
        obtain ⟨g, hg, heg⟩ := List.mem_flatMap.mp he
        exact hunknown g hg e heg
      rw [findGroup, flatten, hfind]
      rfl

/-- Putting a complete TLV of an unknown type in where the decoder begins a TLV, or at the end of the
    message if it is reached: an optional one changes neither the stores nor the error, and the returned
    length by its own; any other makes the decoder refuse the message. -/
theorem qmiDecode_insert {R : Nat → List Group → QmiElemInfo → Prop} {mem mem' : Mem}
    {ei : List QmiElemInfo} (h : Described R 1 ei) {out inBuf b : Nat} {msg payload : List UInt8}
    {type : UInt8} (hmsg : mem.Has inBuf msg) (hmsg' : mem'.Has inBuf (insertTlv msg b type payload))
    (hunknown : ∀ g ∈ groups ei, ∀ e ∈ g.elems, e.tlvType ≠ type) (hlen : payload.length < 65536)
    (hin : (qmiDecode mem (nestDepth ei) ei out inBuf msg.length 1).Every
      (DecodeEvent.ReadsIn (Between inBuf (inBuf + msg.length))))
    (hb : TlvStarts (qmiDecode mem (nestDepth ei) ei out inBuf msg.length 1) inBuf msg.length b) :
    (type.toNat < optionalTlvTypeStart →
      (qmiDecode mem' (nestDepth ei) ei out inBuf (insertTlv msg b type payload).length 1).res
        = .error einval) ∧
    (optionalTlvTypeStart ≤ type.toNat → Transparent (3 + payload.length)
      (qmiDecode mem (nestDepth ei) ei out inBuf msg.length 1)
      (qmiDecode mem' (nestDepth ei) ei out inBuf (insertTlv msg b type payload).length 1)) := by
  have hle : b ≤ msg.length := by
    rcases hb with hheader | ⟨-, rfl⟩
    · obtain ⟨e, he, hpos⟩ := List.mem_filterMap.mp hheader
      cases e with
      | tlv p t l =>
          cases hpos
          have hfirst := (hin _ he 0 (by omega)).2
          omega
      | read | sub | store | enter => cases hpos
    · exact Nat.le_refl _
  -- the bytes of the two messages, piece by piece
  have htake : (msg.take b).length = b := List.length_take_of_le hle
  have hsplit : mem.Has inBuf (msg.take b ++ msg.drop b) := by rwa [List.take_append_drop]
  rw [Mem.has_append, htake] at hsplit
  rw [insertTlv, Mem.has_append, Mem.has_append, Mem.has_append, htake, length_tlvHeader] at hmsg'
  obtain ⟨hfront, hback⟩ := hsplit
  obtain ⟨hfront', hheader, -, hback'⟩ := hmsg'
  obtain ⟨htype, hsize⟩ : mem' (inBuf + b) = type ∧ tlvLenAt mem' (inBuf + b) = payload.length := by
    obtain ⟨htype, hsize⟩ := List.cons.inj hheader
    refine ⟨htype, ?_⟩
    have hwidth : (leBytes 2 payload.length).length = 2 := length_leBytes _ _
    rw [hwidth] at hsize
    rw [tlvLenAt, hsize, leValue_leBytes]
    exact Nat.mod_eq_of_lt hlen
  have hbefore : Further mem mem' (Between inBuf (inBuf + b)) 0 := by
    rintro x ⟨hlo, hhi⟩
    obtain ⟨i, rfl⟩ := Nat.exists_eq_add_of_le hlo
    exact hfront.agree hfront' (by omega)
  have hbehind : Further mem mem' (Between (inBuf + b) (inBuf + msg.length)) (3 + payload.length) := by
    rintro x ⟨hlo, hhi⟩
    obtain ⟨i, rfl⟩ := Nat.exists_eq_add_of_le hlo
    have haddr : inBuf + b + i + (3 + payload.length) = inBuf + b + 3 + payload.length + i := by omega
    rw [haddr]
    exact hback.agree hback' (by rw [List.length_drop]; omega)
  have hfind := findGroup_unknown h hunknown
  rw [length_insertTlv hle]
  rw [qmiDecode_eq_readMessage mem h] at hin hb ⊢
  rw [qmiDecode_eq_readMessage mem' h]
  obtain ⟨d, hd⟩ := exists_eq_succ_of_nestDepth_le (Nat.le_refl (nestDepth ei))
  unfold readMessage at hin hb ⊢
  rw [hd, Nat.add_sub_cancel] at hin hb ⊢
  cases h with
  | mk hend hshape _ hnest =>
      rw [← htype]
      exact readTlvs_insert hend hshape hnest (fun g hg _ => nestDepth_value hg hd.le)
        (by rwa [htype]) (by rw [hsize]) hbefore hbehind (Nat.succ_pos _) (by omega) (by omega)
        (every_readsIn_imp (fun x hx => hx.2) hin) hb

/-- The structure with the string "ab", as a message. -/
def sampleInput : List UInt8 := [1, 3, 0, 2, 97, 98]

/-- A TLV of the unknown type 0x20 in front of the structure with the string "ab". -/
theorem qmiDecode_insert_sample :
    Transparent 4
      (qmiDecode (fun a => sampleInput.getD a 0) (nestDepth sampleMessage) sampleMessage 0 0 6 1)
      (qmiDecode (fun a => (insertTlv sampleInput 0 0x20 [7]).getD a 0) (nestDepth sampleMessage)
        sampleMessage 0 0 10 1) := by
  have hres : (qmiDecode (fun a => sampleInput.getD a 0) (nestDepth sampleMessage) sampleMessage 0 0 6
      1).res = .ok 6 := by rfl
  have hheaders : headers (qmiDecode (fun a => sampleInput.getD a 0) (nestDepth sampleMessage)
      sampleMessage 0 0 6 1).trace = [0] := by rfl
  have hin : (qmiDecode (fun a => sampleInput.getD a 0) (nestDepth sampleMessage) sampleMessage 0 0 6
      1).Every (DecodeEvent.ReadsIn (Between 0 (0 + 6))) := by
    have htakes : Takes 0 (fun r => 0 + r) (qmiDecode (fun a => sampleInput.getD a 0)
        (nestDepth sampleMessage) sampleMessage 0 0 6 1) := by
      rw [qmiDecode_eq_readMessage _ sampleMessage_described]
      exact readTlvs_takes _ _ _ 0 _ _ _ _ 0
    exact fun e he => (htakes.ahead e he).and (htakes.within _ hres e he)
  have hunknown : ∀ g ∈ groups sampleMessage, ∀ e ∈ g.elems, e.tlvType ≠ 0x20 := by
    change ∀ g ∈ [(⟨none, none, sampleStruct⟩ : Group)], _
    simp [Group.elems, sampleStruct]
  have hstarts : TlvStarts (qmiDecode (fun a => sampleInput.getD a 0) (nestDepth sampleMessage)
      sampleMessage 0 0 6 1) 0 6 0 :=
    .inl (by rw [hheaders]; exact List.mem_cons_self)
  have hmsg : Mem.Has (fun a => sampleInput.getD a 0) 0 sampleInput := rfl
  have hmsg' : Mem.Has (fun a => (insertTlv sampleInput 0 0x20 [7]).getD a 0) 0
      (insertTlv sampleInput 0 0x20 [7]) := rfl
  exact (qmiDecode_insert sampleMessage_described hmsg hmsg' hunknown (by decide) hin hstarts).2
    (by decide)

end Qrtr
