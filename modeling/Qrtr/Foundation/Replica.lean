/-
Module: Qrtr.Foundation.Replica
Layer: Foundation
Purpose: A value, its copy elsewhere, and the operations under way from the one to the other. `Behind` says
  that the operations take the copy to the value or below it; it is kept when the value changes and relays
  the change, when an operation arrives, when the copy is lost with some of what was under way, and when the
  value is lost. `Settles` says after how many operations the copy is the value and stays it.
Imports: none
Main exports: play, Behind, Relays, Behind.push, Behind.pop, Behind.restart, Behind.wipe, Settles,
  Settles.pop, Settles.push
Open obligations: none
-/
import Mathlib.Order.Bounds.Basic

namespace Qrtr.Replica

variable {V Op : Type} (act : Op → V → V)

/-- The value after a sequence of operations. -/
def play (ops : List Op) (v : V) : V := ops.foldl (fun v op => act op v) v

@[simp] theorem play_nil (v : V) : play act [] v = v := rfl

@[simp] theorem play_cons (op : Op) (ops : List Op) (v : V) :
    play act (op :: ops) v = play act ops (act op v) := rfl

theorem play_append (ops ops' : List Op) (v : V) :
    play act (ops ++ ops') v = play act ops' (play act ops v) := List.foldl_append

/-- Operations that leave a value as it is. -/
theorem play_fixed {ops : List Op} {v : V} (h : ∀ op ∈ ops, act op v = v) : play act ops v = v := by
  induction ops with
  | nil => rfl
  | cons op ops ih =>
      rw [play_cons, h op List.mem_cons_self]
      exact ih fun op' hop' => h op' (List.mem_cons_of_mem _ hop')

section

variable [Preorder V] {act}

theorem play_mono (hmono : ∀ op, Monotone (act op)) (ops : List Op) : Monotone (play act ops) := by
  induction ops with
  | nil => exact monotone_id
  | cons op ops ih => exact ih.comp (hmono op)

variable (act)

/-- What is under way takes the copy to the original or below it, and all the way if `whole`. -/
structure Behind (whole : Prop) (ops : List Op) (copy original : V) : Prop where
  below : play act ops copy ≤ original
  equal : whole → play act ops copy = original

/-- The operations repeat a change of the original: they take what is below it to what is below, and the
    original itself, or everything if they tell all `afresh`, to the original. -/
structure Relays (afresh : Prop) (ops : List Op) (before after : V) : Prop where
  below : ∀ v, v ≤ before → play act ops v ≤ after
  equal : ∀ v, v ≤ before → afresh ∨ v = before → play act ops v = after

variable {act} {whole afresh : Prop} {ops ops' lost : List Op} {op : Op} {copy original original' : V}

/-- The original changes and says so. -/
theorem Behind.push (h : Behind act whole ops copy original) (hr : Relays act afresh ops' original original') :
    Behind act (whole ∨ afresh) (ops ++ ops') copy original' := by
  constructor
  · rw [play_append]
    exact hr.below _ h.below
  · intro hboth
    rw [play_append]
    exact hr.equal _ h.below (hboth.symm.imp_right h.equal)

/-- The next operation reaches the copy. -/
theorem Behind.pop (h : Behind act whole (op :: ops) copy original) :
    Behind act whole ops (act op copy) original := ⟨h.below, h.equal⟩

variable [OrderBot V]

/-- The copy is lost, and so are some operations that were to reach it first. -/
theorem Behind.restart (hmono : ∀ op, Monotone (act op))
    (h : Behind act whole (lost ++ ops) copy original) : Behind act False ops ⊥ original := by
  have hbelow := h.below
  rw [play_append] at hbelow
  exact ⟨(play_mono hmono ops bot_le).trans hbelow, False.elim⟩

/-- The original is lost, and the last operations say so. -/
theorem Behind.wipe (hwipe : ∀ v : V, play act ops' v = ⊥) (ops : List Op) (copy : V) :
    Behind act True (ops ++ ops') copy ⊥ := by
  have hplay : play act (ops ++ ops') copy = ⊥ := (play_append ..).trans (hwipe _)
  exact ⟨hplay.le, fun _ => hplay⟩

end

/-! ### Coming to agree -/

/-- The first `k` operations under way take the copy to the original, and the others leave it there. -/
def Settles (k : Nat) (ops : List Op) (copy original : V) : Prop :=
  ∃ first rest, ops = first ++ rest ∧ first.length = k ∧ play act first copy = original ∧
    ∀ op ∈ rest, act op original = original

variable {act} {k : Nat} {ops ops' : List Op} {op : Op} {copy original : V}

theorem Behind.settles [Preorder V] {whole : Prop} (h : Behind act whole ops copy original)
    (hwhole : whole) : Settles act ops.length ops copy original :=
  ⟨ops, [], (List.append_nil _).symm, rfl, h.equal hwhole, fun _ hop => absurd hop List.not_mem_nil⟩

theorem Settles.eq (h : Settles act 0 ops copy original) : copy = original := by
  obtain ⟨first, rest, -, hlen, hplay, -⟩ := h
  rw [List.length_eq_zero_iff.1 hlen] at hplay
  exact hplay

theorem Settles.ne_nil (h : Settles act (k + 1) ops copy original) : ops ≠ [] := by
  obtain ⟨first, rest, rfl, hlen, -, -⟩ := h
  intro hnil
  rw [(List.append_eq_nil_iff.1 hnil).1] at hlen
  cases hlen

/-- One operation less is missing when the next has reached the copy. -/
theorem Settles.pop (h : Settles act k (op :: ops) copy original) :
    Settles act (k - 1) ops (act op copy) original := by
  obtain ⟨first, rest, hops, hlen, hplay, hrest⟩ := h
  cases first with
  | nil =>
      subst hlen
      change op :: ops = rest at hops
      subst hops
      change copy = original at hplay
      subst hplay
      have hfixed := hrest op List.mem_cons_self
      rw [hfixed]
      exact ⟨[], ops, rfl, rfl, rfl, fun op' hop' => hrest op' (List.mem_cons_of_mem _ hop')⟩
  | cons op' first =>
      rw [List.cons_append, List.cons.injEq] at hops
      obtain ⟨rfl, rfl⟩ := hops
      subst hlen
      exact ⟨first, rest, rfl, rfl, hplay, hrest⟩

/-- Operations that change nothing may follow. -/
theorem Settles.push (h : Settles act k ops copy original) (hfixed : ∀ op ∈ ops', act op original = original) :
    Settles act k (ops ++ ops') copy original := by
  obtain ⟨first, rest, rfl, hlen, hplay, hrest⟩ := h
  refine ⟨first, rest ++ ops', List.append_assoc .., hlen, hplay, fun op hop => ?_⟩
  rcases List.mem_append.1 hop with hold | hnew
  · exact hrest op hold
  · exact hfixed op hnew

end Qrtr.Replica
