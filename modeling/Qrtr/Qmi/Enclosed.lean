/-
Module: Qrtr.Qmi.Enclosed
Layer: Qmi
Purpose: Messages whose parts lie in their packet, said over the bytes. `Enclosed` reads a part of a message
  off the bytes, with the number of bytes that it takes, or finds that it is refused; `MessageEnclosed` puts
  the TLVs of a message together. The sites of a message lie in the packet exactly when the message is
  enclosed, so with the numbers of C both decoders stay inside a packet of fewer than 2^31 bytes exactly when
  it holds a header and an enclosed message.
Imports: Qmi.Framing, Qmi.MachineDecode
Main exports: Part, Enclosed, MessageEnclosed, walkMessage_inPacket_iff, decode_staysInside_iff
Open obligations: none
-/
import Qrtr.Qmi.Framing
import Qrtr.Qmi.MachineDecode

namespace Qrtr

open Traced

/-! ### The parts of a message -/

/-- A part of a message. `top` says that it stands in a TLV and not in a structure. -/
inductive Part where
  /-- The fields `gs` of a structure; `dataLenValue` is left over from the field before. -/
  | fields (gs : List Group) (dataLenValue : Nat)
  /-- A field: a count, if it has one, and a value. -/
  | field (top : Bool) (g : Group) (dataLenValue : Nat)
  /-- A value of `count` elements. -/
  | value (top : Bool) (ei : QmiElemInfo) (count : Nat)
  /-- `count` structures. -/
  | structs (top : Bool) (ei : QmiElemInfo) (count : Nat)

/-- The count of the field at `pos` is above its maximum. -/
def Group.TooMany (mem : Mem) (g : Group) (dataLenValue pos : Nat) : Prop :=
  g.value.arrayType = .varLenArray ∧ g.value.elemLen < g.taken mem dataLenValue pos

instance (mem : Mem) (g : Group) (dataLenValue pos : Nat) : Decidable (g.TooMany mem dataLenValue pos) := by
  unfold Group.TooMany
  infer_instance

/-- The length of the string at `pos`, and the bytes in front that hold it; a TLV holds it itself. -/
def textSpan (mem : Mem) (top : Bool) (ei : QmiElemInfo) (pos room : Nat) : Nat × Nat :=
  if top then (room, 0) else (leValue (mem.bytes pos (stringLenSz ei)), stringLenSz ei)

/-- With `room` bytes left for it, the part at `pos` lies in the packet of `stop` bytes, as far as it is read,
    and a count in the bytes left for its field. It takes so many bytes, or is refused. -/
inductive Enclosed (mem : Mem) (stop : Nat) : Part → Nat → Nat → Option Nat → Prop
  /-- The structure ends with its fields, or with the bytes left for it. -/
  | ended {gs : List Group} {v pos room : Nat} (h : gs = [] ∨ room = 0) :
      Enclosed mem stop (.fields gs v) pos room (some 0)
  | next {g : Group} {gs : List Group} {v pos room n : Nat} {out : Option Nat} (hroom : 0 < room)
      (hfield : Enclosed mem stop (.field false g v) pos room (some n))
      (hrest : Enclosed mem stop (.fields gs (g.taken mem v pos)) (pos + n) (room - n) out) :
      Enclosed mem stop (.fields (g :: gs) v) pos room (out.map (n + ·))
  | nextRefused {g : Group} {gs : List Group} {v pos room : Nat} (hroom : 0 < room)
      (hfield : Enclosed mem stop (.field false g v) pos room none) :
      Enclosed mem stop (.fields (g :: gs) v) pos room none
  | tooMany {top : Bool} {g : Group} {v pos room : Nat} (hcount : Inside stop pos g.width)
      (hwidth : g.width ≤ room) (h : g.TooMany mem v pos) :
      Enclosed mem stop (.field top g v) pos room none
  | counted {top : Bool} {g : Group} {v pos room : Nat} {out : Option Nat}
      (hcount : Inside stop pos g.width) (hwidth : g.width ≤ room) (h : ¬ g.TooMany mem v pos)
      (hvalue : Enclosed mem stop (.value top g.value (g.taken mem v pos)) (pos + g.width)
        (room - g.width) out) :
      Enclosed mem stop (.field top g v) pos room (out.map (g.width + ·))
  | basic {top : Bool} {ei : QmiElemInfo} {count pos room : Nat} (hstruct : ei.dataType ≠ .struct)
      (hstring : ei.dataType ≠ .string) (hin : Inside stop pos (count * ei.elemSize)) :
      Enclosed mem stop (.value top ei count) pos room (some (count * ei.elemSize))
  | text {top : Bool} {ei : QmiElemInfo} {count pos room len width : Nat} (htype : ei.dataType = .string)
      (hspan : textSpan mem top ei pos room = (len, width)) (hlen : Inside stop pos width)
      (hfits : len ≤ ei.elemLen ∧ len ≤ room) (hin : Inside stop (pos + width) (len * ei.elemSize)) :
      Enclosed mem stop (.value top ei count) pos room (some (width + len * ei.elemSize))
  | textRefused {top : Bool} {ei : QmiElemInfo} {count pos room len width : Nat}
      (htype : ei.dataType = .string) (hspan : textSpan mem top ei pos room = (len, width))
      (hlen : Inside stop pos width) (hfits : ¬ (len ≤ ei.elemLen ∧ len ≤ room)) :
      Enclosed mem stop (.value top ei count) pos room none
  | array {top : Bool} {ei : QmiElemInfo} {count pos room : Nat} {out : Option Nat}
      (htype : ei.dataType = .struct) (h : Enclosed mem stop (.structs top ei count) pos room out) :
      Enclosed mem stop (.value top ei count) pos room out
  /-- The structures of a TLV have to take up its payload, those of a structure have to be complete. -/
  | stopped {top : Bool} {ei : QmiElemInfo} {count pos room : Nat} (h : count = 0 ∨ room = 0) :
      Enclosed mem stop (.structs top ei count) pos room
        (if (if top then room = 0 else count = 0) then some 0 else none)
  | element {top : Bool} {ei : QmiElemInfo} {count pos room n : Nat} {out : Option Nat} (hroom : 0 < room)
      (hfields : Enclosed mem stop (.fields (groups ei.eiArray) 0) pos room (some n)) (hle : n ≤ room)
      (hrest : Enclosed mem stop (.structs top ei count) (pos + n) (room - n) out) :
      Enclosed mem stop (.structs top ei (count + 1)) pos room (out.map (n + ·))
  /-- A structure that is refused, or takes more than the bytes left. -/
  | elementRefused {top : Bool} {ei : QmiElemInfo} {count pos room : Nat} {taken : Option Nat}
      (hroom : 0 < room) (hfields : Enclosed mem stop (.fields (groups ei.eiArray) 0) pos room taken)
      (hover : ∀ n, taken = some n → room < n) :
      Enclosed mem stop (.structs top ei (count + 1)) pos room none

/-- From `pos` on the TLVs of a message, as far as they are read, lie in the packet of `stop` bytes. -/
inductive MessageEnclosed (mem : Mem) (ei : List QmiElemInfo) (stop : Nat) : Nat → Nat → Prop
  | done {v pos : Nat} (hpos : stop ≤ pos) : MessageEnclosed mem ei stop v pos
  | invalid {v pos : Nat} (hheader : Inside stop pos 3) (hfind : findGroup ei (mem pos).toNat = none)
      (htype : (mem pos).toNat < optionalTlvTypeStart) : MessageEnclosed mem ei stop v pos
  | skipped {v pos : Nat} (hheader : Inside stop pos 3) (hfind : findGroup ei (mem pos).toNat = none)
      (htype : optionalTlvTypeStart ≤ (mem pos).toNat)
      (hrest : MessageEnclosed mem ei stop v (pos + 3 + tlvLenAt mem pos)) :
      MessageEnclosed mem ei stop v pos
  | refused {v pos : Nat} {g : Group} (hheader : Inside stop pos 3)
      (hfind : findGroup ei (mem pos).toNat = some g)
      (hfield : Enclosed mem stop (.field true g v) (pos + 3) (tlvLenAt mem pos) none) :
      MessageEnclosed mem ei stop v pos
  | field {v pos n : Nat} {g : Group} (hheader : Inside stop pos 3)
      (hfind : findGroup ei (mem pos).toNat = some g)
      (hfield : Enclosed mem stop (.field true g v) (pos + 3) (tlvLenAt mem pos) (some n))
      (hrest : MessageEnclosed mem ei stop (g.taken mem v (pos + 3)) (pos + 3 + n)) :
      MessageEnclosed mem ei stop v pos

/-! ### Inversion -/

section Inversion

variable {mem : Mem} {stop v pos room : Nat} {out : Option Nat}

theorem enclosed_fields_nil : Enclosed mem stop (.fields [] v) pos room out ↔ out = some 0 := by
  constructor
  · intro h
    cases h
    rfl
  · rintro rfl
    exact .ended (.inl rfl)

theorem enclosed_fields_cons {g : Group} {gs : List Group} :
    Enclosed mem stop (.fields (g :: gs) v) pos room out ↔
      if 0 < room then
        (Enclosed mem stop (.field false g v) pos room none ∧ out = none) ∨
          ∃ n, Enclosed mem stop (.field false g v) pos room (some n) ∧ ∃ rest,
            Enclosed mem stop (.fields gs (g.taken mem v pos)) (pos + n) (room - n) rest ∧
              out = rest.map (n + ·)
      else out = some 0 := by
  constructor
  · intro h
    cases h with
    | ended h => rw [if_neg (by simpa using h)]
    | next hroom hfield hrest =>
        rw [if_pos hroom]
        exact .inr ⟨_, hfield, _, hrest, rfl⟩
    | nextRefused hroom hfield =>
        rw [if_pos hroom]
        exact .inl ⟨hfield, rfl⟩
  · split
    · rename_i hroom
      rintro (⟨hfield, rfl⟩ | ⟨n, hfield, rest, hrest, rfl⟩)
      · exact .nextRefused hroom hfield
      · exact .next hroom hfield hrest
    · rintro rfl
      exact .ended (.inr (by omega))

theorem enclosed_field {top : Bool} {g : Group} :
    Enclosed mem stop (.field top g v) pos room out ↔
      (Inside stop pos g.width ∧ g.width ≤ room) ∧
        ((g.TooMany mem v pos ∧ out = none) ∨ ¬ g.TooMany mem v pos ∧ ∃ rest,
          Enclosed mem stop (.value top g.value (g.taken mem v pos)) (pos + g.width) (room - g.width) rest ∧
            out = rest.map (g.width + ·)) := by
  constructor
  · intro h
    cases h with
    | tooMany hcount hwidth h => exact ⟨⟨hcount, hwidth⟩, .inl ⟨h, rfl⟩⟩
    | counted hcount hwidth h hvalue => exact ⟨⟨hcount, hwidth⟩, .inr ⟨h, _, hvalue, rfl⟩⟩
  · rintro ⟨⟨hcount, hwidth⟩, ⟨h, rfl⟩ | ⟨h, rest, hvalue, rfl⟩⟩
    · exact .tooMany hcount hwidth h
    · exact .counted hcount hwidth h hvalue

theorem enclosed_basic {top : Bool} {ei : QmiElemInfo} {count : Nat} (hstruct : ei.dataType ≠ .struct)
    (hstring : ei.dataType ≠ .string) : Enclosed mem stop (.value top ei count) pos room out ↔
      Inside stop pos (count * ei.elemSize) ∧ out = some (count * ei.elemSize) := by
  constructor
  · intro h
    cases h with
    | basic _ _ hin => exact ⟨hin, rfl⟩
    | text htype | textRefused htype => exact absurd htype hstring
    | array htype => exact absurd htype hstruct
  · rintro ⟨hin, rfl⟩
    exact .basic hstruct hstring hin

theorem enclosed_text {top : Bool} {ei : QmiElemInfo} {count len width : Nat} (htype : ei.dataType = .string)
    (hspan : textSpan mem top ei pos room = (len, width)) :
    Enclosed mem stop (.value top ei count) pos room out ↔
      Inside stop pos width ∧
        if len ≤ ei.elemLen ∧ len ≤ room then
          Inside stop (pos + width) (len * ei.elemSize) ∧ out = some (width + len * ei.elemSize)
        else out = none := by
  constructor
  · intro h
    cases h with
    | basic _ hstring _ => exact absurd htype hstring
    | text _ hspan' hlen hfits hin =>
        rw [hspan] at hspan'
        cases hspan'
        exact ⟨hlen, by rw [if_pos hfits]; exact ⟨hin, rfl⟩⟩
    | textRefused _ hspan' hlen hfits =>
        rw [hspan] at hspan'
        cases hspan'
        exact ⟨hlen, by rw [if_neg hfits]⟩
    | array htype' _ => simp [htype] at htype'
  · rintro ⟨hlen, h⟩
    split at h
    · obtain ⟨hin, rfl⟩ := h
      exact .text htype hspan hlen ‹_› hin
    · subst h
      exact .textRefused htype hspan hlen ‹_›

theorem enclosed_array {top : Bool} {ei : QmiElemInfo} {count : Nat} (htype : ei.dataType = .struct) :
    Enclosed mem stop (.value top ei count) pos room out ↔
      Enclosed mem stop (.structs top ei count) pos room out := by
  constructor
  · intro h
    cases h with
    | basic hstruct => exact absurd htype hstruct
    | text htype' | textRefused htype' => simp [htype] at htype'
    | array _ h => exact h
  · exact .array htype

theorem enclosed_structs_stopped {top : Bool} {ei : QmiElemInfo} {count : Nat} (h : count = 0 ∨ room = 0) :
    Enclosed mem stop (.structs top ei count) pos room out ↔
      out = if (if top then room = 0 else count = 0) then some 0 else none := by
  constructor
  · intro henclosed
    cases henclosed with
    | stopped => rfl
    | element hroom | elementRefused hroom => omega
  · rintro rfl
    exact .stopped h

theorem enclosed_structs_succ {top : Bool} {ei : QmiElemInfo} {count : Nat} (hroom : 0 < room) :
    Enclosed mem stop (.structs top ei (count + 1)) pos room out ↔
      (∃ taken, Enclosed mem stop (.fields (groups ei.eiArray) 0) pos room taken ∧
        (∀ n, taken = some n → room < n) ∧ out = none) ∨
      ∃ n, Enclosed mem stop (.fields (groups ei.eiArray) 0) pos room (some n) ∧ n ≤ room ∧ ∃ rest,
        Enclosed mem stop (.structs top ei count) (pos + n) (room - n) rest ∧ out = rest.map (n + ·) := by
  constructor
  · intro h
    cases h with
    | stopped h => omega
    | element _ hfields hle hrest => exact .inr ⟨_, hfields, hle, _, hrest, rfl⟩
    | elementRefused _ hfields hover => exact .inl ⟨_, hfields, hover, rfl⟩
  · rintro (⟨taken, hfields, hover, rfl⟩ | ⟨n, hfields, hle, rest, hrest, rfl⟩)
    · exact .elementRefused hroom hfields hover
    · exact .element hroom hfields hle hrest

/-- At a TLV that the descriptor does not know. -/
theorem messageEnclosed_unknown {ei : List QmiElemInfo} (hpos : pos < stop)
    (hfind : findGroup ei (mem pos).toNat = none) :
    MessageEnclosed mem ei stop v pos ↔ Inside stop pos 3 ∧
      ((mem pos).toNat < optionalTlvTypeStart ∨
        optionalTlvTypeStart ≤ (mem pos).toNat ∧
          MessageEnclosed mem ei stop v (pos + 3 + tlvLenAt mem pos)) := by
  constructor
  · intro h
    cases h with
    | done h => omega
    | invalid hheader _ htype => exact ⟨hheader, .inl htype⟩
    | skipped hheader _ htype hrest => exact ⟨hheader, .inr ⟨htype, hrest⟩⟩
    | refused _ hfind' | field _ hfind' => simp [hfind] at hfind'
  · rintro ⟨hheader, htype | ⟨htype, hrest⟩⟩
    · exact .invalid hheader hfind htype
    · exact .skipped hheader hfind htype hrest

/-- At a TLV that the descriptor knows. -/
theorem messageEnclosed_known {ei : List QmiElemInfo} {g : Group} (hpos : pos < stop)
    (hfind : findGroup ei (mem pos).toNat = some g) :
    MessageEnclosed mem ei stop v pos ↔ Inside stop pos 3 ∧
      (Enclosed mem stop (.field true g v) (pos + 3) (tlvLenAt mem pos) none ∨
        ∃ n, Enclosed mem stop (.field true g v) (pos + 3) (tlvLenAt mem pos) (some n) ∧
          MessageEnclosed mem ei stop (g.taken mem v (pos + 3)) (pos + 3 + n)) := by
  constructor
  · intro h
    cases h with
    | done h => omega
    | invalid _ hfind' | skipped _ hfind' => simp [hfind] at hfind'
    | refused hheader hfind' hfield =>
        rw [hfind] at hfind'
        cases hfind'
        exact ⟨hheader, .inl hfield⟩
    | field hheader hfind' hfield hrest =>
        rw [hfind] at hfind'
        cases hfind'
        exact ⟨hheader, .inr ⟨_, hfield, hrest⟩⟩
  · rintro ⟨hheader, hfield | ⟨n, hfield, hrest⟩⟩
    · exact .refused hheader hfind hfield
    · exact .field hheader hfind hfield hrest

end Inversion

/-! ### The walk -/

section Walks

variable {mem : Mem} {stop level : Nat} {top : Bool}

/-- The walk over a nested structure reads it off the bytes. -/
abbrev CallEnclosed (mem : Mem) (stop : Nat) (rec : WalkCall) (ei : List QmiElemInfo) : Prop :=
  ∀ pos room level out, room < 2 ^ 32 → 1 < level →
    (Outcome (Site.InPacket stop) (rec ei pos room level) out ↔
      Enclosed mem stop (.fields (groups ei) 0) pos room out)

/-- The check behind an array of structures: `i` of `count` structures have taken `decodedBytes` bytes. -/
def checkStructs (level count room : Nat) : Nat × Nat → Walk Nat := fun (i, decodedBytes) =>
  if (level ≤ 2 ∧ decodedBytes ≠ room) ∨ (2 < level ∧ (i < count ∨ room < decodedBytes)) then
    Traced.fail efault
  else pure decodedBytes

/-- Behind the last structure, or when no bytes are left. -/
theorem checkStructs_stopped (htop : top = decide (level ≤ 2)) {i left count k room : Nat}
    (hcount : i + left = count) (hk : k ≤ room) (hstop : left = 0 ∨ room - k = 0) {ei : QmiElemInfo}
    {pos : Nat} {out : Option Nat} :
    Outcome (Site.InPacket stop) (checkStructs level count room (i, k)) out ↔
      ∃ rest, Enclosed mem stop (.structs top ei left) pos (room - k) rest ∧ out = rest.map (k + ·) := by
  simp only [enclosed_structs_stopped hstop, exists_eq_left, checkStructs]
  have hcheck : (if top then room - k = 0 else left = 0) ↔
      ¬ ((level ≤ 2 ∧ k ≠ room) ∨ (2 < level ∧ (i < count ∨ room < k))) := by
    rw [htop]
    by_cases hlevel : level ≤ 2
    · simp only [hlevel, decide_true, if_true, true_and]
      omega
    · simp only [hlevel, decide_false, Bool.false_eq_true, if_false, false_and, false_or]
      omega
  by_cases h : if top then room - k = 0 else left = 0
  · rw [if_neg (hcheck.mp h), if_pos h, outcome_pure]
    rfl
  · rw [if_pos (not_not.mp (hcheck.not.mp h)), if_neg h, outcome_fail]
    rfl

/-- Structures that took more than the bytes left are refused. -/
theorem checkStructs_over {i left count k room : Nat} (hk : room < k) {nested : Nat → Nat → Walk Nat}
    {pos : Nat} {out : Option Nat} :
    Outcome (Site.InPacket stop) (walkStructs nested room left i pos k >>= checkStructs level count room) out ↔
      out = none := by
  have hstop : walkStructs nested room left i pos k = pure (i, k) := by
    cases left with
    | zero => rfl
    | succ left => rw [walkStructs, if_neg (Nat.not_lt.mpr hk.le)]
  rw [hstop, pure_bind, checkStructs, if_pos (by omega), outcome_fail]

/-- Structures one after the other, `k` bytes taken, and the check behind them. -/
theorem walkStructs_outcome {rec : WalkCall} {ei : QmiElemInfo} (hrec : CallEnclosed mem stop rec ei.eiArray)
    (htop : top = decide (level ≤ 2)) (hlevel : 1 < level) {room : Nat} (hroom : room < 2 ^ 32) (count : Nat) :
    ∀ (left i pos k : Nat) (out : Option Nat), i + left = count → k ≤ room →
      (Outcome (Site.InPacket stop)
          (walkStructs (fun pos len => rec ei.eiArray pos len level) room left i pos k >>=
            checkStructs level count room) out ↔
        ∃ rest, Enclosed mem stop (.structs top ei left) pos (room - k) rest ∧ out = rest.map (k + ·)) := by
  intro left
  induction left with
  | zero =>
      intro i pos k out hcount hk
      rw [walkStructs, pure_bind]
      exact checkStructs_stopped htop hcount hk (.inl rfl)
  | succ left ih =>
      intro i pos k out hcount hk
      rw [walkStructs]
      by_cases hlt : k < room
      · rw [if_pos hlt, bind_assoc, outcome_bind, u32Sub_of_le hk hroom]
        have hcall := fun out => hrec pos (room - k) level out (by omega) hlevel
        have hnext : ∀ n, k + n ≤ room → (Outcome (Site.InPacket stop)
            (walkStructs (fun pos len => rec ei.eiArray pos len level) room left (i + 1) (pos + n) (k + n) >>=
              checkStructs level count room) out ↔ _) :=
          fun n hn => ih (i + 1) (pos + n) (k + n) out (by omega) hn
        simp only [enclosed_structs_succ (Nat.sub_pos_of_lt hlt), hcall]
        constructor
        · rintro (⟨hfields, rfl⟩ | ⟨n, hfields, hrest⟩)
          · exact ⟨none, .inl ⟨none, hfields, by simp, rfl⟩, rfl⟩
          · by_cases hn : k + n ≤ room
            · obtain ⟨rest, hrest, rfl⟩ := (hnext n hn).mp hrest
              refine ⟨rest.map (n + ·), .inr ⟨n, hfields, by omega, rest, ?_, rfl⟩, ?_⟩
              · rwa [Nat.sub_sub]
              · simp [Option.map_map, Function.comp_def, Nat.add_assoc]
            · obtain rfl := (checkStructs_over (by omega)).mp hrest
              exact ⟨none, .inl ⟨some n, hfields, by simp; omega, rfl⟩, rfl⟩
        · rintro ⟨rest, ⟨taken, hfields, hover, rfl⟩ | ⟨n, hfields, hle, rest, hrest, rfl⟩, rfl⟩
          · cases taken with
            | none => exact .inl ⟨hfields, rfl⟩
            | some n =>
                have := hover n rfl
                exact .inr ⟨n, hfields, (checkStructs_over (by omega)).mpr rfl⟩
          · refine .inr ⟨n, hfields, (hnext n (by omega)).mpr ⟨rest, ?_, ?_⟩⟩
            · rwa [← Nat.sub_sub]
            · simp [Option.map_map, Function.comp_def, Nat.add_assoc]
      · rw [if_neg hlt, pure_bind]
        exact checkStructs_stopped htop hcount hk (.inr (by omega))

theorem overlayLow_zero (low : List UInt8) : overlayLow 0 low = leValue low := by
  rw [overlayLow, Nat.zero_div, Nat.mul_zero, Nat.add_zero]

/-- A string. -/
theorem walkText_outcome {ei : QmiElemInfo} (htype : ei.dataType = .string) (htop : top = decide (level = 1))
    {count pos room : Nat} {out : Option Nat} :
    Outcome (Site.InPacket stop) (walkText mem ei pos room level) out ↔
      Enclosed mem stop (.value top ei count) pos room out := by
  rcases hspan : textSpan mem top ei pos room with ⟨len, width⟩
  have hlen : Outcome (Site.InPacket stop) (walkText mem ei pos room level) out ↔
      Inside stop pos width ∧ Outcome (Site.InPacket stop) (do
        if ei.elemLen < len then Traced.fail einval
        else if room < len then Traced.fail efault
        else do
          Traced.emit (.text ei.elemLen (pos + width) len ei.elemSize)
          pure (width + len * ei.elemSize)) out := by
    unfold walkText walkTextLen
    by_cases hone : level = 1
    · rw [htop, decide_eq_true hone, textSpan, if_pos rfl] at hspan
      cases hspan
      rw [if_pos hone, pure_bind]
      exact (and_iff_right fun i hi => absurd hi (Nat.not_lt_zero i)).symm
    · rw [htop, decide_eq_false hone, textSpan, if_neg Bool.false_ne_true] at hspan
      cases hspan
      rw [if_neg hone, bind_assoc, outcome_emit, pure_bind, overlayLow_zero]
      exact Iff.rfl
  rw [hlen, enclosed_text htype hspan]
  apply and_congr_right
  intro _
  by_cases hfits : len ≤ ei.elemLen ∧ len ≤ room
  · rw [if_neg (by omega), if_neg (by omega), if_pos hfits, outcome_emit, outcome_pure]
    exact Iff.rfl
  · rw [if_neg hfits]
    split
    · exact outcome_fail
    · rw [if_pos (by omega), outcome_fail]

/-- The value of a group. -/
theorem walkValue_outcome {rec : WalkCall} {ei : QmiElemInfo} (hvalue : ei.dataType.IsValue)
    (hrec : ei.dataType = .struct → CallEnclosed mem stop rec ei.eiArray) (hlevel : 0 < level)
    (htop : top = decide (level = 1)) {count pos room : Nat} (hroom : room < 2 ^ 32) {out : Option Nat} :
    Outcome (Site.InPacket stop) (walkValue rec mem ei pos count room level) out ↔
      Enclosed mem stop (.value top ei count) pos room out := by
  unfold walkValue
  cases htype : ei.dataType with
  | eoti | optFlag | dataLen => simp [htype, QmiElemType.IsValue] at hvalue
  | struct =>
      have htop' : top = decide (level + 1 ≤ 2) := by
        rw [htop]
        congr 1
        simp only [eq_iff_iff]
        omega
      have hstructs := walkStructs_outcome (hrec htype) htop' (by omega) hroom count count 0 pos 0 out
        (Nat.zero_add _) (Nat.zero_le _)
      rw [enclosed_array htype]
      refine hstructs.trans ?_
      simp
  | string => exact walkText_outcome htype htop
  | _ =>
      rw [outcome_emit, outcome_pure, enclosed_basic (by simp [htype]) (by simp [htype])]
      exact Iff.rfl

/-- The count of a field, if it has one. -/
theorem walkCount_outcome (mem : Mem) (stop : Nat) (g : Group) (v pos : Nat) {room : Nat}
    (hroom : room < 2 ^ 32) :
    ∃ v', (g.value.arrayType = .varLenArray → v' = g.taken mem v pos) ∧
      ∀ {β : Type} (f : Nat × Nat × Nat → Walk β) (out : Option β),
        (Outcome (Site.InPacket stop) (walkCount mem g v pos room >>= f) out ↔
          (Inside stop pos g.width ∧ g.width ≤ room) ∧
            Outcome (Site.InPacket stop) (f (v', room - g.width, g.width)) out) := by
  unfold walkCount Group.taken Group.width
  cases g.len? with
  | none =>
      refine ⟨v, fun harray => by rw [harray], fun f out => ?_⟩
      rw [pure_bind]
      exact (and_iff_right ⟨fun i hi => absurd hi (Nat.not_lt_zero i), Nat.zero_le _⟩).symm
  | some l =>
      refine ⟨_, fun harray => by rw [harray], fun f out => ?_⟩
      rw [bind_assoc, outcome_emit, pure_bind]
      apply and_congr_right
      intro hin
      rw [u32Sub_of_le hin.2 hroom]

/-- The number of elements of a field. -/
theorem walkElems_taken {g : Group} {v v' pos : Nat}
    (hv : g.value.arrayType = .varLenArray → v' = g.taken mem v pos) :
    (g.TooMany mem v pos → walkElems g.value v' = Traced.fail einval) ∧
      (¬ g.TooMany mem v pos → walkElems g.value v' = pure (g.taken mem v pos)) := by
  unfold Group.TooMany walkElems
  cases harray : g.value.arrayType with
  | noArray | staticArray => simp [Group.taken, harray]
  | varLenArray =>
      simp only [true_and, hv harray]
      exact ⟨fun h => if_pos h, fun h => if_neg h⟩

/-- A field. -/
theorem walkGroup_outcome {rec : WalkCall} {g : Group} (hshape : g.Shaped)
    (hrec : g.value.dataType = .struct → CallEnclosed mem stop rec g.value.eiArray) (hlevel : 0 < level)
    (htop : top = decide (level = 1)) {v pos room : Nat} (hroom : room < 2 ^ 32) {out : Option (Nat × Nat)} :
    Outcome (Site.InPacket stop) (walkGroup rec mem level g v pos room) out ↔
      ∃ rest, Enclosed mem stop (.field top g v) pos room rest ∧ out = rest.map (g.taken mem v pos, ·) := by
  obtain ⟨v', hv', hcount⟩ := walkCount_outcome mem stop g v pos hroom
  obtain ⟨hmany, hfew⟩ := walkElems_taken hv'
  rw [walkGroup, hcount]
  simp only [enclosed_field]
  by_cases h : g.TooMany mem v pos
  · rw [hmany h, fail_bind, outcome_fail]
    simp [h, and_assoc]
  · have hvalue : ∀ out, Outcome (Site.InPacket stop)
          (walkValue rec mem g.value (pos + g.width) (g.taken mem v pos) (room - g.width) level) out ↔
        Enclosed mem stop (.value top g.value (g.taken mem v pos)) (pos + g.width) (room - g.width) out :=
      fun _ => walkValue_outcome hshape.value hrec hlevel htop (by omega)
    rw [hfew h, pure_bind, outcome_map]
    simp only [hvalue, h, false_and, not_false_eq_true, true_and, false_or]
    constructor
    · rintro ⟨hin, rest, hrest, rfl⟩
      exact ⟨_, ⟨hin, rest, hrest, rfl⟩, by simp [Function.comp_def]⟩
    · rintro ⟨_, ⟨hin, rest, hrest, rfl⟩, rfl⟩
      exact ⟨hin, rest, hrest, by simp [Function.comp_def]⟩

/-- The fields of a structure of `room` bytes, `k` of which are taken. -/
theorem walkFields_outcome {rec : WalkCall} (hlevel : 1 < level) {start room : Nat} (hroom : room < 2 ^ 32)
    {gs : List Group} (hshape : ∀ g ∈ gs, g.Shaped)
    (hrec : ∀ g ∈ gs, g.value.dataType = .struct → CallEnclosed mem stop rec g.value.eiArray)
    {v k : Nat} {out : Option Nat} :
    Outcome (Site.InPacket stop) (walkFields rec mem start room level gs v k) out ↔
      ∃ rest, Enclosed mem stop (.fields gs v) (start + k) (room - k) rest ∧ out = rest.map (k + ·) := by
  induction gs generalizing v k out with
  | nil =>
      rw [walkFields, outcome_pure]
      simp [enclosed_fields_nil]
  | cons g gs ih =>
      rw [List.forall_mem_cons] at hshape hrec
      rw [walkFields]
      simp only [enclosed_fields_cons, Nat.sub_pos_iff_lt]
      split
      · have htop : false = decide (level = 1) := by
          rw [decide_eq_false]
          omega
        have hfield : ∀ out, Outcome (Site.InPacket stop)
              (walkGroup rec mem level g v (start + k) (room - k)) out ↔
            ∃ rest, Enclosed mem stop (.field false g v) (start + k) (room - k) rest ∧
              out = rest.map (g.taken mem v (start + k), ·) :=
          fun _ => walkGroup_outcome hshape.1 hrec.1 (by omega) htop (by omega)
        rw [u32Sub_of_le (by omega) hroom, outcome_bind]
        simp only [hfield, ih hshape.2 hrec.2]
        constructor
        · rintro (⟨⟨rest, hrest, hnone⟩, rfl⟩ | ⟨a, ⟨rest, hrest, hsome⟩, rest', hrest', rfl⟩)
          · obtain rfl := Option.map_eq_none_iff.mp hnone.symm
            exact ⟨none, .inl ⟨hrest, rfl⟩, rfl⟩
          · obtain ⟨n, rfl, rfl⟩ := Option.map_eq_some_iff.mp hsome.symm
            refine ⟨_, .inr ⟨n, hrest, rest', ?_, rfl⟩, ?_⟩
            · rwa [Nat.add_assoc, Nat.sub_sub]
            · simp [Option.map_map, Function.comp_def, Nat.add_assoc]
        · rintro ⟨rest, ⟨hrest, rfl⟩ | ⟨n, hrest, rest', hrest', rfl⟩, rfl⟩
          · exact .inl ⟨⟨none, hrest, rfl⟩, rfl⟩
          · refine .inr ⟨_, ⟨some n, hrest, rfl⟩, rest', ?_, ?_⟩
            · rwa [← Nat.add_assoc, ← Nat.sub_sub]
            · simp [Option.map_map, Function.comp_def, Nat.add_assoc]
      · rw [outcome_pure]
        simp

/-- A nested structure. -/
theorem walkNested_outcome {R : Nat → List Group → QmiElemInfo → Prop} {ei : List QmiElemInfo}
    (h : Described R level ei) {d : Nat} (hd : nestDepth ei ≤ d) :
    CallEnclosed mem stop (walkNested mem d) ei := by
  induction h generalizing d with
  | @mk level gs eoti hend hshape _ _ ih =>
      intro pos room level' out hroom hlevel
      obtain ⟨d, rfl⟩ := exists_eq_succ_of_nestDepth_le hd
      have hcall : ∀ g ∈ gs, g.value.dataType = .struct →
          CallEnclosed mem stop (walkNested mem d) g.value.eiArray :=
        fun g hg hstruct => ih g hg hstruct (nestDepth_value hg hd)
      rw [walkNested, groups_flatten hend hshape, walkFields_outcome hlevel hroom hshape hcall]
      simp

/-- The TLVs of a message of `len` bytes at `start`, `k` of which are taken. -/
theorem walkTlvs_inPacket_iff {rec : WalkCall} {start len : Nat} {gs : List Group} {eoti : QmiElemInfo}
    (hend : eoti.dataType = .eoti) (hshape : ∀ g ∈ gs, g.Shaped)
    (hrec : ∀ g ∈ gs, g.value.dataType = .struct → CallEnclosed mem (start + len) rec g.value.eiArray)
    (fuel : Nat) {v k : Nat} (hfuel : len - k < fuel) :
    (walkTlvs rec mem (flatten gs eoti) start len fuel v k).Every (Site.InPacket (start + len)) ↔
      MessageEnclosed mem (flatten gs eoti) (start + len) v (start + k) := by
  induction fuel generalizing v k with
  | zero => omega
  | succ fuel ih =>
      rw [walkTlvs]
      by_cases hlt : k < len
      · have hpos : start + k < start + len := by omega
        have hat : ∀ n, start + k + 3 + n = start + (k + 3 + n) := by omega
        rw [if_pos hlt, emit_bind, every_after]
        simp only [List.mem_singleton, forall_eq, Site.InPacket]
        rcases findGroup_flatten hend hshape (mem (start + k)).toNat with
          ⟨_, hfind⟩ | ⟨g, hg, g', hg', _, _, hfind⟩
        · rw [messageEnclosed_unknown hpos hfind, hfind]
          apply and_congr_right
          intro _
          by_cases htype : (mem (start + k)).toNat < optionalTlvTypeStart
          · simp [htype]
          · have hrest := ih (v := v) (k := k + 3 + tlvLenAt mem (start + k)) (by omega)
            simp only [htype, if_false, false_or, Nat.not_lt.mp htype, true_and, hat]
            exact hrest
        · have hrec' : g'.value.dataType = .struct →
              CallEnclosed mem (start + len) rec g'.value.eiArray := by
            rw [Group.value_of_tail hg']
            exact hrec g hg
          have hfield : ∀ out, Outcome (Site.InPacket (start + len))
                (walkGroup rec mem 1 g' v (start + k + 3) (leValue (mem.bytes (start + k + 1) 2))) out ↔
              ∃ rest, Enclosed mem (start + len) (.field true g' v) (start + k + 3)
                  (tlvLenAt mem (start + k)) rest ∧ out = rest.map (g'.taken mem v (start + k + 3), ·) :=
            fun _ => walkGroup_outcome ((hshape g hg).tail hg') hrec' Nat.one_pos rfl
              (Nat.lt_trans (tlvLenAt_lt mem (start + k)) (by omega))
          rw [messageEnclosed_known hpos hfind, hfind]
          apply and_congr_right
          intro _
          have hrest := fun v n => ih (v := v) (k := k + 3 + n) (by omega)
          rw [every_bind_outcome]
          simp only [hat, hrest, hfield]
          constructor
          · rintro (⟨rest, hnone, heq⟩ | ⟨a, ⟨rest, hsome, heq⟩, hrest⟩)
            · obtain rfl := Option.map_eq_none_iff.mp heq.symm
              exact .inl hnone
            · obtain ⟨n, rfl, rfl⟩ := Option.map_eq_some_iff.mp heq.symm
              exact .inr ⟨n, hsome, hrest⟩
          · rintro (hnone | ⟨n, hsome, hrest⟩)
            · exact .inl ⟨none, hnone, rfl⟩
            · exact .inr ⟨_, ⟨some n, hsome, rfl⟩, hrest⟩
      · rw [if_neg hlt]
        exact iff_of_true (every_pure _) (.done (by omega))

/-- The sites of a message of `len` bytes at `start` lie in the packet that ends with it exactly when the
    message is enclosed. -/
theorem walkMessage_inPacket_iff {R : Nat → List Group → QmiElemInfo → Prop} {ei : List QmiElemInfo}
    (h : Described R 1 ei) (start len : Nat) :
    (walkMessage mem ei start len).Every (Site.InPacket (start + len)) ↔
      MessageEnclosed mem ei (start + len) 0 start := by
  obtain ⟨d, hd⟩ := exists_eq_succ_of_nestDepth_le (Nat.le_refl (nestDepth ei))
  rw [walkMessage, hd, Nat.add_sub_cancel]
  cases h with
  | @mk _ gs eoti hend hshape _ hnest =>
      have hcall : ∀ g ∈ gs, g.value.dataType = .struct →
          CallEnclosed mem (start + len) (walkNested mem d) g.value.eiArray :=
        fun g hg hstruct => walkNested_outcome (hnest g hg hstruct) (nestDepth_value hg hd.le)
      exact walkTlvs_inPacket_iff hend hshape hcall _ (by omega)

end Walks

/-! ### The decoders -/

theorem DecodeEvent.StaysInside.reads {dataLen : Nat} {e : DecodeEvent} (h : e.StaysInside dataLen) :
    Machine.Reads dataLen e := by
  cases e with
  | tlv pos _ _ => exact h 2 (by omega)
  | read pos size =>
      cases size with
      | zero => exact .inl rfl
      | succ size => exact .inr (h size (Nat.lt_succ_self size))
  | sub | store | enter => trivial

/-- `qmi_decode` on a payload that ends with its packet. -/
theorem qmiDecode_enclosed_iff {R : Nat → List Group → QmiElemInfo → Prop} (mem : Mem) {ei : List QmiElemInfo}
    (h : Described R 1 ei) (out start len : Nat) (hsmall : start + len < 2 ^ 31) :
    (Machine.qmiDecode mem (nestDepth ei) ei out start len 1).Every
        (DecodeEvent.StaysInside (start + len)) ↔ MessageEnclosed mem ei (start + len) 0 start := by
  have hmatches := (Machine.qmiDecode_matches hsmall mem (nestDepth ei) ei out len Nat.le.refl
    (Nat.le_add_right start len)).imp (fun _ => DecodeEvent.StaysInside.reads) fun _ => id
  rw [hmatches.every_iff, qmiDecode_staysInside_iff mem h, walkMessage_inPacket_iff h]

theorem readTxn_staysInside (mem : Mem) (txn : Bool) {dataLen : Nat} (hin : Inside dataLen 1 2) :
    (readTxn mem txn).Every (DecodeEvent.StaysInside dataLen) := by
  unfold readTxn
  split
  · rw [readHeaderField_bind, Traced.every_after]
    simpa [DecodeEvent.StaysInside] using hin
  · exact Traced.every_pure _

/-- Both decoders stay inside a packet if and only if it has room for the header and, when a structure is
    given and the header matches, the message in it is enclosed. -/
theorem decode_staysInside_iff {R : Nat → List Group → QmiElemInfo → Prop} {pkt : QrtrPacket} {mem : Mem}
    (hdata : pkt.data = some mem) (hsmall : pkt.dataLen < 2 ^ 31) {ei : List QmiElemInfo}
    (h : Described R 1 ei) (cStruct : Option Nat) (txn : Bool) (type id : Int) :
    ((qmiDecodeHeader pkt).Every (DecodeEvent.StaysInside pkt.dataLen) ∧
        (Machine.qmiDecodeMessage cStruct txn pkt type id ei).Every
          (DecodeEvent.StaysInside pkt.dataLen)) ↔
      7 ≤ pkt.dataLen ∧ (cStruct.isSome → HeaderMatches mem type id →
        MessageEnclosed mem ei pkt.dataLen 0 qmiHeaderSize) := by
  rw [qmiDecodeHeader_staysInside_iff hdata]
  apply and_congr_right
  intro hseven
  obtain ⟨e, es, rfl⟩ : ∃ e es, ei = e :: es := by
    cases h
    exact List.exists_cons_of_ne_nil (flatten_ne_nil _ _)
  cases cStruct with
  | none => simp [Machine.qmiDecodeMessage]
  | some out =>
      have hpos : pkt.dataLen ≠ 0 := by omega
      have hlen : (pkt.dataLen + (2 ^ 64 - qmiHeaderSize)) % 2 ^ 64 = pkt.dataLen - qmiHeaderSize := by
        unfold qmiHeaderSize
        omega
      have hcast : u32 (pkt.dataLen - qmiHeaderSize) = pkt.dataLen - qmiHeaderSize := u32_of_lt (by omega)
      have hin : ∀ pos size, pos + size ≤ 7 → Inside pkt.dataLen pos size := fun pos size hle i hi => by
        omega
      have hdecode : (Machine.qmiDecode mem (nestDepth (e :: es)) (e :: es) out qmiHeaderSize
            (pkt.dataLen - qmiHeaderSize) 1).Every (DecodeEvent.StaysInside pkt.dataLen) ↔
          MessageEnclosed mem (e :: es) pkt.dataLen 0 qmiHeaderSize := by
        have hsum : qmiHeaderSize + (pkt.dataLen - qmiHeaderSize) = pkt.dataLen :=
          Nat.add_sub_cancel' hseven
        have hiff := qmiDecode_enclosed_iff mem h out qmiHeaderSize (pkt.dataLen - qmiHeaderSize)
        rw [hsum] at hiff
        exact hiff hsmall
      simp only [Machine.qmiDecodeMessage, hdata, hpos, if_false, readHeaderField_bind, Traced.every_after,
        List.mem_singleton, forall_eq, DecodeEvent.StaysInside, hin 0 1 (by omega), true_and,
        Option.isSome_some, true_implies, HeaderMatches]
      split
      · rename_i htype
        simp [htype]
      rename_i htype
      simp only [Traced.every_after, List.mem_singleton, forall_eq, DecodeEvent.StaysInside,
        hin 3 2 (by omega), true_and]
      split
      · rename_i hid
        simp [hid]
      rename_i hid
      have htxn := readTxn_staysInside mem txn (hin 1 2 (by omega))
      rw [Traced.every_bind_ok (readTxn_res mem txn), and_iff_right htxn, payloadLen_bind, hlen, hcast,
        Traced.every_after, Traced.every_bind_iff, hdecode]
      simp only [List.mem_singleton, forall_eq, DecodeEvent.StaysInside, qmiHeaderSize, hseven,
        Traced.every_pure, implies_true, and_true, true_and]
      have hboth := And.intro (Decidable.not_not.mp htype) (Decidable.not_not.mp hid)
      exact ⟨fun h _ => h, fun h => h hboth⟩

/-- A packet of `dataLen` bytes. -/
def samplePacket (bytes : List UInt8) (dataLen : Nat) : QrtrPacket where
  type := 1
  data := some fun a => bytes.getD a 0
  dataLen := dataLen

/-- A complete message: type 2, transaction 1, id 0x20, and the sample structure with "ab". -/
def sampleBytes : List UInt8 := [2, 1, 0, 0x20, 0, 6, 0, 1, 3, 0, 2, 97, 98]

/-- The string with its length, in the structure, in the TLV. -/
theorem sampleBytes_enclosed : MessageEnclosed (fun a => sampleBytes.getD a 0) sampleMessage 13 0 7 := by
  have htext : Enclosed (fun a => sampleBytes.getD a 0) 13 (.value false sampleText 1) 10 3
      (some (1 + 2 * 1)) := .text rfl rfl (by decide) (by decide) (by decide)
  have hfield : Enclosed (fun a => sampleBytes.getD a 0) 13 (.field false ⟨none, none, sampleText⟩ 0) 10 3
      (some 3) := enclosed_field.mpr ⟨by decide, .inr ⟨by decide, _, htext, rfl⟩⟩
  have hfields : Enclosed (fun a => sampleBytes.getD a 0) 13 (.fields (groups sampleStruct.eiArray) 0) 10 3
      (Option.map (3 + ·) (some 0)) := .next (by decide) hfield (.ended (.inl rfl))
  have hstructs : Enclosed (fun a => sampleBytes.getD a 0) 13 (.structs true sampleStruct 1) 10 3
      (Option.map (3 + ·) (some 0)) := .element (by decide) hfields (by decide) (.stopped (.inr rfl))
  have htlv : Enclosed (fun a => sampleBytes.getD a 0) 13 (.field true ⟨none, none, sampleStruct⟩ 0) 10 3
      (some 3) := enclosed_field.mpr ⟨by decide, .inr ⟨by decide, _, .array rfl hstructs, rfl⟩⟩
  exact .field (by decide) rfl htlv (.done (by decide))

/-- Nothing outside the complete message is read. -/
theorem decode_staysInside_sample :
    (qmiDecodeHeader (samplePacket sampleBytes 13)).Every (DecodeEvent.StaysInside 13) ∧
      (Machine.qmiDecodeMessage (some 0) true (samplePacket sampleBytes 13) 2 0x20 sampleMessage).Every
        (DecodeEvent.StaysInside 13) := by
  exact (decode_staysInside_iff rfl (by decide) sampleMessage_described (some 0) true 2 0x20).mpr
    ⟨by decide, fun _ _ => sampleBytes_enclosed⟩

/-- A packet of six bytes makes `qmi_decode_header` read past the end. A packet of eight bytes with the
    expected type and id makes `qmi_decode_message` read past the end. -/
theorem not_decode_staysInside :
    Described EncodeRules 1 sampleMessage ∧
      ¬ (qmiDecodeHeader (samplePacket sampleBytes 6)).Every (DecodeEvent.StaysInside 6) ∧
      ¬ (Machine.qmiDecodeMessage (some 0) true (samplePacket sampleBytes 8) 2 0x20 sampleMessage).Every
          (DecodeEvent.StaysInside 8) := by
  refine ⟨sampleMessage_described, ?_, ?_⟩
  · intro h
    have hread := h (.read 5 2) List.mem_cons_self 1 (by omega)
    omega
  · intro h
    have htrace : (Machine.qmiDecodeMessage (some 0) true (samplePacket sampleBytes 8) 2 0x20
        sampleMessage).trace[4]? = some (.tlv 7 1 3) := by rfl
    have hread := h _ (List.mem_of_getElem? htrace) 1 (by omega)
    omega

end Qrtr
