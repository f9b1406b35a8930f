/-
Module: Qrtr.Waiter.Timeout
Layer: Waiter
Purpose: What `waiter_wait_timeout` promises: it sleeps no longer than it may, its result says whether the time
  is over, and the ticket that it needs for this leaves no trace in the waiter.
Imports: Waiter.Dispatch
Main exports: TimesOut, waiterWaitTimeout_timesOut
Open obligations: none
-/
import Mathlib.Data.List.InsertIdx
import Qrtr.Waiter.Dispatch

namespace Qrtr

/-- The ticket on the stack of `waiter_wait_timeout`. -/
def timeoutTicket (ms now : Nat) : Ticket := { Ticket.zero with type := .timeout ms, start := now }

/-- A `waiter_wait_timeout` from `w` to `w'`, called at the time `now`, with the result `rc`. -/
structure TimesOut (wake : Wake) (w w' : Waiter) (log : WaitLog) (ms now : Nat) (rc : Int) : Prop where
  /-- The result is -1 if the time is over; it is 0 if something came before, or `poll` failed. -/
  result : rc = 0 ∨ rc = -1
  expired : rc = -1 ↔ ¬ log.PollFails wake ∧ now + ms ≤ wake.after
  /-- `poll` waits no longer than what is left of the time, and is not called with nothing left. -/
  sleeps : ∀ k, log.timeout = some k → 0 < k ∧ k ≤ ((now + ms : Nat) : Int) - wake.before
  /-- The waiter has the tickets that it had, and only callbacks of theirs have run. -/
  count : w'.count = w.count
  types : w'.tickets.map Ticket.type = w.tickets.map Ticket.type
  own : ∀ call ∈ log.calls, call.position < w.tickets.length

section Raised

variable {wake : Wake} {w w' : Waiter} {log : WaitLog} {ms now : Nat}

theorem raised_last (w : Waiter) (ms now : Nat) :
    (w.raised ms now).tickets[w.tickets.length]? = some (timeoutTicket ms now) := by
  rw [Waiter.raised, List.getElem?_append_right (Nat.le_refl _), Nat.sub_self]
  rfl

theorem raised_fit (hfit : DeadlinesFit w.tickets) (hms : now + ms < 2 ^ 63) :
    DeadlinesFit (w.raised ms now).tickets := by
  intro t ht d hd
  rcases List.mem_append.1 ht with ht | ht
  · exact hfit t ht d hd
  · rw [List.mem_singleton.1 ht] at hd
    obtain rfl := Option.some.inj hd
    exact hms

/-- The mark of the ticket, behind the wait. -/
theorem raised_updated (hk : KeepsDeadlines wake (w.raised ms now) w' log) :
    ∃ t, w'.tickets[w.tickets.length]? = some t ∧
      (t.updated = true ↔ ¬ log.PollFails wake ∧ now + ms ≤ wake.after) := by
  have ht := raised_last w ms now
  have hdeadline : (timeoutTicket ms now).deadline? = some (now + ms) := rfl
  by_cases hfails : log.PollFails wake
  · refine ⟨timeoutTicket ms now, ?_, ?_⟩
    · rw [(hk.failed hfails).1, ht]
    · simp [hfails, timeoutTicket, Ticket.zero]
  · by_cases hdue : now + ms ≤ wake.after
    · obtain ⟨⟨updated, hleft, hmark⟩, -⟩ := hk.due hfails _ _ _ ht hdeadline hdue
      refine ⟨_, hleft, ?_⟩
      -- it has no callback that could clear the mark
      have hset : updated = true := by
        cases updated with
        | true => rfl
        | false => cases (hmark rfl).2.1
      simp [hset, hfails, hdue]
    · obtain ⟨hleft, -⟩ := hk.early hfails _ _ _ ht hdeadline (Nat.lt_of_not_le hdue)
      refine ⟨_, hleft, ?_⟩
      simp [hdue, timeoutTicket, Ticket.zero]

/-- The ticket has no callback. -/
theorem raised_calls (hk : KeepsDeadlines wake (w.raised ms now) w' log) :
    (log.calls.filter fun call => call.position = w.tickets.length) = [] := by
  have ht := raised_last w ms now
  have hdeadline : (timeoutTicket ms now).deadline? = some (now + ms) := rfl
  by_cases hfails : log.PollFails wake
  · rw [(hk.failed hfails).2]
    rfl
  · by_cases hdue : now + ms ≤ wake.after
    · exact (hk.due hfails _ _ _ ht hdeadline hdue).2
    · exact (hk.early hfails _ _ _ ht hdeadline (Nat.lt_of_not_le hdue)).2

/-- The time that is left is the longest that `poll` may wait. -/
theorem raised_sleeps (hk : KeepsDeadlines wake (w.raised ms now) w' log) {k : Int}
    (hk' : log.timeout = some k) : 0 < k ∧ k ≤ ((now + ms : Nat) : Int) - wake.before := by
  have hmem := List.mem_of_getElem? (raised_last w ms now)
  have hdeadline : (timeoutTicket ms now).deadline? = some (now + ms) := rfl
  by_cases hforever : k = -1
  · -- there is a timer
    have hnone := hk.forever.1 (hforever ▸ hk') _ hmem
    rw [hdeadline] at hnone
    cases hnone
  · obtain ⟨hpos, -, t, ht, d, hd, hearliest, rfl⟩ := hk.sleeps k hk' hforever
    have hle := hearliest _ hmem _ hdeadline
    exact ⟨hpos, by omega⟩

end Raised

/-- `waiter_wait_timeout` keeps to its time. -/
theorem waiterWaitTimeout_timesOut {wake : Wake} {w : Waiter} {ms now : Nat} (hps : w.pollset.isSome)
    (hfit : DeadlinesFit w.tickets) (hms : now + ms < 2 ^ 63) (hown : KeepsOwnFlag wake.acts) :
    ∃ w' log rc, waiterWaitTimeout wake w ms now = some (w', log, rc) ∧ TimesOut wake w w' log ms now rc := by
  obtain ⟨w₁, log, hwait, hd⟩ := waiterWait_dispatches (w := w.raised ms now) hps hown
  obtain ⟨ps, hps⟩ := Option.isSome_iff_exists.1 hps
  obtain ⟨w₂, log₂, hwait₂, hk⟩ :=
    waiterWait_keepsDeadlines (w := w.raised ms now) hps (raised_fit hfit hms) hown
  obtain ⟨rfl, rfl⟩ := Prod.mk.inj (Option.some.inj (hwait₂.symm.trans hwait))
  obtain ⟨t, ht, hmark⟩ := raised_updated hk
  have hallocates : ∀ i, ∀ a ∈ wake.acts.getD i [], a.Allocates := by
    intro i a ha
    rw [hown i a ha]
    trivial
  have hgrown := waiterWait_grown hallocates hwait
  have hlength : (w.raised ms now).tickets.length = w.tickets.length + 1 := List.length_append
  have hstill := hk.length
  refine ⟨waiterTicketDelete w₂ w.tickets.length, log₂, if t.updated then -1 else 0, ?_, ?_⟩
  · unfold waiterWaitTimeout
    dsimp only
    rw [← Waiter.raised, hwait]
    dsimp only
    rw [ht]
    cases hupdated : t.updated <;> simp [waiterTicketCheck, hupdated]
  · constructor
    case result => split <;> simp
    case expired =>
        rw [← hmark]
        cases t.updated <;> simp
    case sleeps => exact fun k => raised_sleeps hk
    case count =>
        have hcount := hgrown.count
        have hnone := hgrown.length
        change w₂.count - 1 = w.count
        change w₂.count = w.count + 1 + _ at hcount
        omega
    case types =>
        have htypes : w₂.tickets.map Ticket.type = w.tickets.map Ticket.type ++ [.timeout ms] := by
          rw [hd.types, Waiter.raised, List.map_append]
          rfl
        have hlast : (w.tickets.map Ticket.type).length ≤ w.tickets.length :=
          Nat.le_of_eq (List.length_map _)
        rw [waiterTicketDelete, ← List.eraseIdx_map, htypes, List.eraseIdx_append_of_length_le hlast,
          List.length_map, Nat.sub_self, List.eraseIdx_zero, List.tail_cons, List.append_nil]
    case own =>
        intro call hcall
        obtain ⟨t', ht', -⟩ := hd.calls call hcall
        have hlt := (List.getElem?_eq_some_iff.1 ht').1
        rw [hlength] at hlt
        by_contra hge
        have hlast : call.position = w.tickets.length := by omega
        have hmem : call ∈ log₂.calls.filter fun c => c.position = w.tickets.length :=
          List.mem_filter.2 ⟨hcall, decide_eq_true hlast⟩
        rw [raised_calls hk] at hmem
        exact absurd hmem List.not_mem_nil

/-- A timer and a descriptor, which is ready after four of ten milliseconds. -/
theorem waiterWaitTimeout_timesOut_sample :
    ∃ w' log rc, waiterWaitTimeout ⟨100, 104, 1, fun k => k == 0, []⟩ sampleTimers 10 100 = some (w', log, rc) ∧
      TimesOut ⟨100, 104, 1, fun k => k == 0, []⟩ sampleTimers w' log 10 100 rc := by
  apply waiterWaitTimeout_timesOut rfl
  · intro t ht d hd
    simp only [sampleTimers, List.mem_cons, List.not_mem_nil, or_false] at ht
    rcases ht with rfl | rfl | rfl
    · cases hd
      decide
    · cases hd
      decide
    · cases hd
  · decide
  · intro i a ha
    exact absurd ha List.not_mem_nil

end Qrtr
