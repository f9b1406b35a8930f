/-
Module: Qrtr.Foundation.ByteMemory
Layer: Foundation
Purpose: Byte-addressed memory, blocks of it, logs of writes, and little-endian numbers. `Chunks` says
  that a log of writes fills one block from left to right; `applyWrites_chunks` is what such a log
  does to memory. `Copies` says that a log carries the bytes of an image over to a set of addresses.
Imports: none
Main exports: Mem, Mem.bytes, Mem.write, Write, applyWrites, Chunks, Copies, leValue, leBytes, strnlen
Open obligations: none
-/
import Mathlib.Data.List.Basic
import Mathlib.Algebra.Group.Nat.Defs
import Mathlib.Tactic.Ring

namespace Qrtr

/-- Memory: the byte at every address. -/
abbrev Mem := Nat → UInt8

/-- The `n` bytes at `a`. -/
def Mem.bytes (m : Mem) (a : Nat) : Nat → List UInt8
  | 0 => []
  | n + 1 => m a :: Mem.bytes m (a + 1) n

/-- Memory with `bs` stored at `a`. -/
def Mem.write (m : Mem) (a : Nat) (bs : List UInt8) : Mem :=
  fun x => if a ≤ x then (bs[x - a]?).getD (m x) else m x

namespace Mem

@[simp] theorem bytes_zero (m : Mem) (a : Nat) : m.bytes a 0 = [] := rfl

@[simp] theorem length_bytes (m : Mem) (a n : Nat) : (m.bytes a n).length = n := by
  induction n generalizing a with
  | zero => rfl
  | succ n ih => simp [bytes, ih]

theorem bytes_add (m : Mem) (a n k : Nat) :
    m.bytes a (n + k) = m.bytes a n ++ m.bytes (a + n) k := by
  induction n generalizing a with
  | zero => simp
  | succ n ih =>
      have harg : n + 1 + k = n + k + 1 := by omega
      have haddr : a + 1 + n = a + (n + 1) := by omega
      rw [harg, bytes, ih, haddr]
      rfl

theorem getElem?_bytes (m : Mem) (a n i : Nat) :
    (m.bytes a n)[i]? = if i < n then some (m (a + i)) else none := by
  induction n generalizing a i with
  | zero => simp
  | succ n ih =>
      cases i with
      | zero => simp [bytes]
      | succ i =>
          have haddr : a + 1 + i = a + (i + 1) := by omega
          simp [bytes, ih, haddr]

theorem write_of_lt {m : Mem} {a x : Nat} (bs : List UInt8) (h : x < a) : m.write a bs x = m x := by
  simp [write, Nat.not_le.mpr h]

theorem write_of_ge {m : Mem} {a x : Nat} {bs : List UInt8} (h : a + bs.length ≤ x) :
    m.write a bs x = m x := by
  have hnone : bs[x - a]? = none := List.getElem?_eq_none (by omega)
  simp [write, hnone]

theorem write_add {m : Mem} {a i : Nat} {bs : List UInt8} {b : UInt8} (h : bs[i]? = some b) :
    m.write a bs (a + i) = b := by
  simp [write, h]

@[simp] theorem write_nil (m : Mem) (a : Nat) : m.write a [] = m := by
  funext x
  simp [write]

/-- Two adjacent blocks, the left one first. -/
theorem write_write_right (m : Mem) (a : Nat) (bs cs : List UInt8) :
    (m.write a bs).write (a + bs.length) cs = m.write a (bs ++ cs) := by
  funext x
  rcases Nat.lt_or_ge x a with hx | hx
  · rw [write_of_lt _ (by omega), write_of_lt _ hx, write_of_lt _ hx]
  obtain ⟨i, rfl⟩ : ∃ i, x = a + i := ⟨x - a, by omega⟩
  rcases Nat.lt_or_ge i bs.length with hi | hi
  · rw [write_of_lt _ (by omega)]
    simp [write, List.getElem?_append_left hi, hi]
  · have hnone : bs[i]? = none := List.getElem?_eq_none hi
    have hle : a + bs.length ≤ a + i := by omega
    have hsub : a + i - (a + bs.length) = i - bs.length := by omega
    simp [write, List.getElem?_append_right hi, hle, hsub, hnone]

/-- Two adjacent blocks, the right one first. -/
theorem write_write_left (m : Mem) (a : Nat) (bs cs : List UInt8) :
    (m.write (a + bs.length) cs).write a bs = m.write a (bs ++ cs) := by
  rw [← write_write_right]
  funext x
  rcases Nat.lt_or_ge x a with hx | hx
  · have hx' : x < a + bs.length := by omega
    simp only [write_of_lt _ hx, write_of_lt _ hx']
  rcases Nat.lt_or_ge x (a + bs.length) with hx' | hx'
  · rw [write_of_lt _ hx']
    simp only [write, if_pos hx, if_neg (Nat.not_le.mpr hx')]
  · rw [write_of_ge hx']
    simp only [write, if_pos hx']
    have hnone : bs[x - a]? = none := List.getElem?_eq_none (by omega)
    simp [hnone]

theorem bytes_write (m : Mem) (a : Nat) (bs : List UInt8) :
    (m.write a bs).bytes a bs.length = bs := by
  apply List.ext_getElem?
  intro i
  rw [getElem?_bytes]
  split
  · rename_i hi
    rw [write_add (List.getElem?_eq_getElem hi), List.getElem?_eq_getElem hi]
  · rw [List.getElem?_eq_none (by omega)]

/-- The bytes `bs` stand at `a`. -/
def Has (m : Mem) (a : Nat) (bs : List UInt8) : Prop := m.bytes a bs.length = bs

/-- Two lists of bytes stand one after the other. -/
theorem has_append {m : Mem} {a : Nat} {bs cs : List UInt8} :
    m.Has a (bs ++ cs) ↔ m.Has a bs ∧ m.Has (a + bs.length) cs := by
  unfold Has
  rw [List.length_append, bytes_add]
  constructor
  · intro h
    exact List.append_inj h (length_bytes _ _ _)
  · intro ⟨hleft, hright⟩
    rw [hleft, hright]

theorem has_write (m : Mem) (a : Nat) (bs : List UInt8) : (m.write a bs).Has a bs := bytes_write m a bs

/-- Where the same bytes stand, the memories agree. -/
theorem Has.agree {m m' : Mem} {a a' i : Nat} {bs : List UInt8} (h : m.Has a bs) (h' : m'.Has a' bs)
    (hi : i < bs.length) : m' (a' + i) = m (a + i) := by
  have hbyte := getElem?_bytes m a bs.length i
  have hbyte' := getElem?_bytes m' a' bs.length i
  rw [h, if_pos hi] at hbyte
  rw [h', if_pos hi, hbyte] at hbyte'
  exact (Option.some.inj hbyte').symm

end Mem

/-! ### Little-endian numbers -/

/-- The number whose little-endian digits are `bs`. -/
def leValue : List UInt8 → Nat
  | [] => 0
  | b :: bs => b.toNat + 256 * leValue bs

/-- The low `w` bytes of `n`, least significant first. -/
def leBytes : Nat → Nat → List UInt8
  | 0, _ => []
  | w + 1, n => UInt8.ofNat n :: leBytes w (n / 256)

@[simp] theorem length_leBytes (w n : Nat) : (leBytes w n).length = w := by
  induction w generalizing n with
  | zero => rfl
  | succ w ih => simp [leBytes, ih]

theorem leValue_lt (bs : List UInt8) : leValue bs < 256 ^ bs.length := by
  induction bs with
  | nil => simp [leValue]
  | cons b bs ih =>
      have hb := b.toNat_lt
      rw [leValue, List.length_cons, pow_succ]
      omega

theorem leValue_leBytes (w n : Nat) : leValue (leBytes w n) = n % 256 ^ w := by
  induction w generalizing n with
  | zero => simp [leBytes, leValue, Nat.mod_one]
  | succ w ih =>
      rw [leBytes, leValue, ih, pow_succ, Nat.mul_comm (256 ^ w), Nat.mod_mul]
      simp

theorem leBytes_leValue (bs : List UInt8) : leBytes bs.length (leValue bs) = bs := by
  induction bs with
  | nil => rfl
  | cons b bs ih =>
      have hb := b.toNat_lt
      have hdiv : (b.toNat + 256 * leValue bs) / 256 = leValue bs := by omega
      have hmod : UInt8.ofNat (b.toNat + 256 * leValue bs) = b := by
        apply UInt8.toNat_inj.mp
        simp
      rw [List.length_cons, leValue, leBytes, hdiv, hmod, ih]

/-- The low bytes of a number are those of a remainder that keeps as many. -/
theorem leBytes_mod {w k : Nat} (h : w ≤ k) (n : Nat) : leBytes w (n % 256 ^ k) = leBytes w n := by
  have hlow : ∀ n, leBytes w (n % 256 ^ w) = leBytes w n := by
    intro n
    have hback := leBytes_leValue (leBytes w n)
    rwa [length_leBytes, leValue_leBytes] at hback
  rw [← hlow, Nat.mod_mod_of_dvd _ (Nat.pow_dvd_pow 256 h), hlow]

theorem leValue_bytes_lt (m : Mem) (a w : Nat) : leValue (m.bytes a w) < 256 ^ w := by
  have h := leValue_lt (m.bytes a w)
  rwa [Mem.length_bytes] at h

/-- Fewer bytes of the same number are its remainder. -/
theorem leValue_take (m : Mem) (a w k : Nat) :
    leValue (m.bytes a w) = leValue (m.bytes a (w + k)) % 256 ^ w := by
  have h : ∀ (n a : Nat), leValue (m.bytes a (n + k))
      = leValue (m.bytes a n) + 256 ^ n * leValue (m.bytes (a + n) k) := by
    intro n
    induction n with
    | zero => simp [leValue]
    | succ n ih =>
        intro a
        have harg : n + 1 + k = n + k + 1 := by omega
        have haddr : a + 1 + n = a + (n + 1) := by omega
        rw [harg, Mem.bytes, leValue, ih, haddr, Mem.bytes, leValue]
        ring
  rw [h, Nat.add_mul_mod_self_left, Nat.mod_eq_of_lt (leValue_bytes_lt m a w)]

/-! ### Logs of writes -/

/-- One write to memory. -/
structure Write where
  addr : Nat
  bytes : List UInt8
deriving DecidableEq, Repr

/-- Memory after a log of writes. -/
def applyWrites (m : Mem) (ws : List Write) : Mem :=
  ws.foldl (fun m w => m.write w.addr w.bytes) m

@[simp] theorem applyWrites_nil (m : Mem) : applyWrites m [] = m := rfl

@[simp] theorem applyWrites_cons (m : Mem) (w : Write) (ws : List Write) :
    applyWrites m (w :: ws) = applyWrites (m.write w.addr w.bytes) ws := rfl

theorem applyWrites_append (m : Mem) (ws ws' : List Write) :
    applyWrites m (ws ++ ws') = applyWrites (applyWrites m ws) ws' :=
  List.foldl_append

/-- The log fills the block `bs` at `pos` from left to right. -/
inductive Chunks : Nat → List Write → List UInt8 → Prop
  | nil {pos} : Chunks pos [] []
  | cons {pos bs ws cs} : Chunks (pos + bs.length) ws cs → Chunks pos (⟨pos, bs⟩ :: ws) (bs ++ cs)

theorem Chunks.single (pos : Nat) (bs : List UInt8) : Chunks pos [⟨pos, bs⟩] bs := by
  have h : Chunks pos [⟨pos, bs⟩] (bs ++ []) := .cons .nil
  rwa [List.append_nil] at h

/-- What a log that fills one block does to memory. -/
theorem applyWrites_chunks {pos : Nat} {ws : List Write} {bs : List UInt8} (h : Chunks pos ws bs)
    (m : Mem) : applyWrites m ws = m.write pos bs := by
  induction h generalizing m with
  | nil => simp
  | cons _ ih => rw [applyWrites_cons, ih, Mem.write_write_right]

/-- The writes of such a log stay inside its block. -/
theorem Chunks.inside {pos : Nat} {ws : List Write} {bs : List UInt8} (h : Chunks pos ws bs) :
    ∀ w ∈ ws, pos ≤ w.addr ∧ w.addr + w.bytes.length ≤ pos + bs.length := by
  induction h with
  | nil => simp
  | cons _ ih =>
      intro w hw
      rw [List.length_append]
      rcases List.mem_cons.mp hw with rfl | hw
      · exact ⟨Nat.le_refl _, by simp⟩
      · have := ih w hw
        omega

/-- A block that is not empty and ends past `bound` takes a byte at or past `bound`. -/
theorem Chunks.overrun {pos : Nat} {ws : List Write} {bs : List UInt8} (h : Chunks pos ws bs)
    {bound : Nat} (hne : bs ≠ []) (hend : bound < pos + bs.length) :
    ∃ w ∈ ws, bound < w.addr + w.bytes.length ∧ w.bytes ≠ [] := by
  induction h with
  | nil => exact absurd rfl hne
  | @cons pos bs ws cs hrest ih =>
      cases hcs : cs with
      | nil =>
          subst hcs
          rw [List.append_nil] at hne hend
          exact ⟨_, List.mem_cons_self, hend, hne⟩
      | cons c cs' =>
          rw [List.length_append, ← Nat.add_assoc] at hend
          obtain ⟨w, hw, hbound⟩ := ih (by simp [hcs]) hend
          exact ⟨w, List.mem_cons_of_mem _ hw, hbound⟩

/-! ### Logs that copy -/

/-- The address `x` is one of the `n` from `a` on. -/
def InBlock (a n x : Nat) : Prop := a ≤ x ∧ x < a + n

/-- The log leaves the bytes of `img` at the addresses in `H`, and the others as they were. -/
def Copies (img : Mem) (H : Nat → Prop) (ws : List Write) : Prop :=
  ∀ (m : Mem) (x : Nat), (H x → applyWrites m ws x = img x) ∧ (¬ H x → applyWrites m ws x = m x)

section Copying

variable {img : Mem} {H H' : Nat → Prop} {ws ws' : List Write}

theorem Copies.nil (h : ∀ x, ¬ H x) : Copies img H [] :=
  fun _ x => ⟨fun hx => absurd hx (h x), fun _ => rfl⟩

theorem Copies.single (img : Mem) (a n : Nat) : Copies img (InBlock a n) [⟨a, img.bytes a n⟩] := by
  intro m x
  constructor
  · rintro ⟨hle, hlt⟩
    obtain ⟨i, rfl⟩ := Nat.exists_eq_add_of_le hle
    apply Mem.write_add
    rw [Mem.getElem?_bytes, if_pos (Nat.lt_of_add_lt_add_left hlt)]
  · intro hx
    change m.write a (img.bytes a n) x = m x
    rcases Nat.lt_or_ge x a with hlt | hge
    · exact Mem.write_of_lt _ hlt
    · apply Mem.write_of_ge
      rw [Mem.length_bytes]
      exact Nat.le_of_not_lt fun hlt => hx ⟨hge, hlt⟩

theorem Copies.append (h : Copies img H ws) (h' : Copies img H' ws') :
    Copies img (fun x => H x ∨ H' x) (ws ++ ws') := by
  intro m x
  rw [applyWrites_append]
  obtain ⟨hin', hout'⟩ := h' (applyWrites m ws) x
  obtain ⟨hin, hout⟩ := h m x
  by_cases hx' : H' x
  · exact ⟨fun _ => hin' hx', fun hnot => absurd (.inr hx') hnot⟩
  · rw [hout' hx']
    exact ⟨fun hx => hin (hx.resolve_right hx'), fun hnot => hout fun hx => hnot (.inl hx)⟩

theorem Copies.congr (h : Copies img H ws) (hH : ∀ x, H' x ↔ H x) : Copies img H' ws :=
  fun m x => ⟨fun hx => (h m x).1 ((hH x).mp hx), fun hx => (h m x).2 fun hx' => hx ((hH x).mpr hx')⟩

/-- Bytes that stand in the image stand in the memory after the log. -/
theorem Copies.has {a : Nat} {bs : List UInt8} (h : Copies img (InBlock a bs.length) ws)
    (himg : img.Has a bs) (m : Mem) : (applyWrites m ws).Has a bs := by
  unfold Mem.Has at himg ⊢
  rw [← himg, Mem.length_bytes]
  apply List.ext_getElem?
  intro i
  rw [Mem.getElem?_bytes, Mem.getElem?_bytes]
  split
  · rename_i hi
    rw [(h m (a + i)).1 ⟨Nat.le_add_right a i, Nat.add_lt_add_left hi a⟩]
  · rfl

/-- Another image with the same bytes at the addresses that are copied. -/
theorem Copies.agree {img' : Mem} (h : Copies img H ws) (himg : ∀ x, H x → img x = img' x) :
    Copies img' H ws :=
  fun m x => ⟨fun hx => ((h m x).1 hx).trans (himg x hx), (h m x).2⟩

end Copying

/-! ### C strings -/

/-- The number of bytes in front of the first NUL at `a`, or `n` when there is none among the first
    `n` bytes. -/
def strnlen (m : Mem) : Nat → Nat → Nat
  | _, 0 => 0
  | a, n + 1 => if m a = 0 then 0 else strnlen m (a + 1) n + 1

/-- A string shorter than the bound ends in a NUL. -/
theorem strnlen_nul {m : Mem} {a n : Nat} (h : strnlen m a n < n) : m (a + strnlen m a n) = 0 := by
  induction n generalizing a with
  | zero => exact absurd h (Nat.not_lt_zero _)
  | succ n ih =>
      rw [strnlen] at h ⊢
      split
      · assumption
      · rename_i hne
        rw [if_neg hne] at h
        have := ih (a := a + 1) (by omega)
        rwa [Nat.add_assoc, Nat.add_comm 1] at this

end Qrtr
