/-
Module: Qrtr.Waiter.Adding
Layer: Waiter
Purpose: What the functions that add a ticket do, `Added`, allocation failures included. The ticket goes into
  the list before the poll set is renewed, and the old poll set is gone before the new one is there: when
  that allocation fails, the waiter is left with a ticket that nobody has and without a poll set.
Imports: Waiter.Core
Main exports: NewTicket.ticket, Added, waiterAdd_added, FailsCleanly, failsCleanly_iff
Open obligations: none
-/
import Qrtr.Waiter.Core
import Mathlib.Tactic.SplitIfs

namespace Qrtr

/-! ### What adding does -/

/-- The ticket that is added. -/
def NewTicket.ticket : NewTicket → Ticket
  | .null => Ticket.zero
  | .fd filedes => { Ticket.zero with type := .fd filedes }
  | .timeout ms now => { Ticket.zero with type := .timeout ms, start := now }

/-- Whether the waiter gets a new poll set with its next ticket. -/
def Waiter.Renews (w : Waiter) : Prop := w.count % 32 = 0

instance (w : Waiter) : Decidable w.Renews := by
  unfold Waiter.Renews
  infer_instance

/-- The waiter with one more ticket. -/
def Waiter.added (w : Waiter) (t : Ticket) : Waiter where
  tickets := w.tickets ++ [t]
  pollset := if w.Renews then some (pollsetCreate (w.count + 33)) else w.pollset
  count := w.count + 1

/-- The waiter and the ticket behind a call that adds one. -/
inductive Added (mem : Allocs) (w : Waiter) (new : NewTicket) : Waiter × Option Nat → Prop
  | noTicket (hticket : mem.ticket = false) : Added mem w new (w, none)
  | noPollset (hticket : mem.ticket = true) (hrenews : w.Renews) (hpollset : mem.pollset = false) :
      Added mem w new ({ w with tickets := w.tickets ++ [Ticket.zero], pollset := none }, none)
  | added (hticket : mem.ticket = true) (hpollset : w.Renews → mem.pollset = true) :
      Added mem w new (w.added new.ticket, some w.tickets.length)

theorem modify_append_last {α : Type} (l : List α) (a : α) (f : α → α) :
    (l ++ [a]).modify l.length f = l ++ [f a] := by
  induction l with
  | nil => rfl
  | cons b l ih => rw [List.cons_append, List.length_cons, List.modify_succ_cons, ih, List.cons_append]

/-- `waiter_add_null`. -/
theorem waiterAddNull_added (mem : Allocs) (w : Waiter) : Added mem w .null (waiterAddNull mem w) := by
  unfold waiterAddNull
  cases hticket : mem.ticket with
  | false => exact .noTicket hticket
  | true =>
      have hadded : ∀ pollset, waiterTicketSetNull ⟨w.tickets ++ [Ticket.zero], pollset, w.count + 1⟩
          w.tickets.length = ⟨w.tickets ++ [Ticket.zero], pollset, w.count + 1⟩ := by
        intro pollset
        rw [waiterTicketSetNull, Waiter.modify, modify_append_last]
        rfl
      by_cases hrenews : w.Renews
      · have hcount : w.count % 32 = 0 := hrenews
        cases hpollset : mem.pollset with
        | false => simpa [hcount] using Added.noPollset hticket hrenews hpollset
        | true =>
            have h : Added mem w .null _ := .added hticket fun _ => hpollset
            simpa [hcount, hadded, Waiter.added, hrenews, NewTicket.ticket] using h
      · have hcount : ¬ w.count % 32 = 0 := hrenews
        have h : Added mem w .null _ := .added hticket fun hr => absurd hr hrenews
        simpa [hcount, hadded, Waiter.added, hrenews, NewTicket.ticket] using h

/-- A function that adds a null ticket, and changes it when it is there. -/
theorem Added.change {mem : Allocs} {w : Waiter} {new : NewTicket} (f : Ticket → Ticket)
    (hf : f Ticket.zero = new.ticket) : ∀ {r : Waiter × Option Nat}, Added mem w .null r →
    Added mem w new
      (match r with
        | (w, none) => (w, none)
        | (w, some ticket) => (w.modify ticket f, some ticket)) := by
  intro r h
  cases h with
  | noTicket hticket => exact .noTicket hticket
  | noPollset hticket hrenews hpollset => exact .noPollset hticket hrenews hpollset
  | added hticket hpollset =>
      have hmodify : (w.added NewTicket.null.ticket).modify w.tickets.length f = w.added new.ticket := by
        rw [Waiter.modify, Waiter.added, modify_append_last, ← hf]
        rfl
      dsimp only
      rw [hmodify]
      exact .added hticket hpollset

/-- The functions that add a ticket. -/
theorem waiterAdd_added (mem : Allocs) (w : Waiter) (new : NewTicket) :
    Added mem w new (waiterAdd mem w new) := by
  have hnull := waiterAddNull_added mem w
  cases new with
  | null => exact hnull
  | fd filedes => exact Added.change (fun t => { t with type := .fd filedes }) rfl hnull
  | timeout ms now => exact Added.change (fun t => { t with type := .timeout ms, start := now }) rfl hnull

/-! ### Failing -/

/-- `waiter_wait` needs a poll set. -/
theorem waiterWait_isSome (wake : Wake) (w : Waiter) : (waiterWait wake w).isSome = w.pollset.isSome := by
  unfold waiterWait
  cases w.pollset with
  | none => rfl
  | some ps =>
      dsimp only
      split_ifs <;> rfl

/-- A call that returns NULL leaves the waiter as it was: the tickets, their number, and the poll set with
    its slots. A following `waiter_wait` does what it would have done without the call. -/
def FailsCleanly (mem : Allocs) (w : Waiter) (new : NewTicket) : Prop :=
  (waiterAdd mem w new).2 = none →
    (waiterAdd mem w new).1.tickets = w.tickets ∧ (waiterAdd mem w new).1.count = w.count ∧
      (waiterAdd mem w new).1.pollset.map Pollset.capacity = w.pollset.map Pollset.capacity ∧
      ∀ wake, waiterWait wake (waiterAdd mem w new).1 = waiterWait wake w

/-- The list with a ticket behind it is another list. -/
theorem not_failsCleanly_of_noPollset {mem : Allocs} {w : Waiter} (new : NewTicket)
    (hticket : mem.ticket = true) (hrenews : w.Renews) (hpollset : mem.pollset = false) :
    ¬ FailsCleanly mem w new := by
  intro hclean
  have hadded := waiterAdd_added mem w new
  unfold FailsCleanly at hclean
  generalize waiterAdd mem w new = r at hadded hclean
  cases hadded with
  | noTicket hno => exact absurd (hticket.symm.trans hno) (by decide)
  | noPollset =>
      have hlength := congrArg List.length (hclean rfl).1
      rw [List.length_append, List.length_singleton] at hlength
      omega
  | added _ hsome => exact absurd ((hsome hrenews).symm.trans hpollset) (by decide)

/-- A call fails cleanly, except when the ticket is there and the new poll set is not. -/
theorem failsCleanly_iff (mem : Allocs) (w : Waiter) (new : NewTicket) :
    FailsCleanly mem w new ↔ ¬ (mem.ticket = true ∧ w.count % 32 = 0 ∧ mem.pollset = false) := by
  constructor
  · intro hclean ⟨hticket, hrenews, hpollset⟩
    exact not_failsCleanly_of_noPollset new hticket hrenews hpollset hclean
  · intro hcond
    have hadded := waiterAdd_added mem w new
    unfold FailsCleanly
    generalize waiterAdd mem w new = r at hadded
    cases hadded with
    | noTicket => exact fun _ => ⟨rfl, rfl, rfl, fun _ => rfl⟩
    | noPollset hticket hrenews hpollset => exact absurd ⟨hticket, hrenews, hpollset⟩ hcond
    | added => exact fun hnone => nomatch hnone

/-- A waiter with `n` tickets for descriptor 3. -/
def sampleWaiter : Nat → Waiter
  | 0 => waiterCreate
  | n + 1 => (waiterAddFd ⟨true, true⟩ (sampleWaiter n) 3).1

theorem sampleWaiter_succ (n : Nat) : sampleWaiter (n + 1) = (sampleWaiter n).added (NewTicket.fd 3).ticket := by
  have hadded := waiterAdd_added ⟨true, true⟩ (sampleWaiter n) (.fd 3)
  rw [sampleWaiter]
  change Added _ _ _ (waiterAddFd ⟨true, true⟩ (sampleWaiter n) 3) at hadded
  generalize waiterAddFd ⟨true, true⟩ (sampleWaiter n) 3 = r at hadded
  cases hadded with
  | noTicket hno => cases hno
  | noPollset _ _ hno => cases hno
  | added => rfl

theorem count_sampleWaiter (n : Nat) : (sampleWaiter n).count = n := by
  induction n with
  | zero => rfl
  | succ n ih => rw [sampleWaiter_succ, Waiter.added, ih]

theorem pollset_sampleWaiter (n : Nat) : (sampleWaiter (n + 1)).pollset.isSome := by
  induction n with
  | zero => rfl
  | succ n ih =>
      rw [sampleWaiter_succ, Waiter.added]
      dsimp only
      split
      · rfl
      · exact ih

/-- The 33rd ticket needs a new poll set, and there is none: `waiter_wait`, which had 32 descriptors to wait
    for, is left with a NULL pointer. -/
theorem not_failsCleanly :
    (waiterAdd ⟨true, false⟩ (sampleWaiter 32) .null).2 = none ∧
      (∀ wake, (waiterWait wake (sampleWaiter 32)).isSome) ∧
      (∀ wake, waiterWait wake (waiterAdd ⟨true, false⟩ (sampleWaiter 32) .null).1 = none) ∧
      ¬ FailsCleanly ⟨true, false⟩ (sampleWaiter 32) .null := by
  have hrenews : (sampleWaiter 32).Renews := by rw [Waiter.Renews, count_sampleWaiter]
  have hwaits : ∀ wake, (waiterWait wake (sampleWaiter 32)).isSome := by
    intro wake
    rw [waiterWait_isSome]
    exact pollset_sampleWaiter 31
  have hadded := waiterAdd_added ⟨true, false⟩ (sampleWaiter 32) .null
  have hnot : ¬ FailsCleanly ⟨true, false⟩ (sampleWaiter 32) .null :=
    not_failsCleanly_of_noPollset .null rfl hrenews rfl
  generalize waiterAdd ⟨true, false⟩ (sampleWaiter 32) .null = r at hadded ⊢
  cases hadded with
  | noTicket hno => cases hno
  | noPollset => exact ⟨rfl, hwaits, fun _ => rfl, hnot⟩
  | added _ hsome => cases hsome hrenews

end Qrtr
