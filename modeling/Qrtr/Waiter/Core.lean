/-
Module: Qrtr.Waiter.Core
Layer: Waiter
Purpose: `waiter.c`, function by function. The linked list of tickets is a list, and a pointer to a ticket
  its position in it. What a call gets from outside comes with it: whether the allocations succeed, what
  the clock reads, what `poll` answers, and what the callbacks do.
Imports: none
Main exports: Ticket, Pollset, Waiter, waiterAddNull, waiterAddFd, waiterAddTimeout, waiterAdd,
  waiterSynchronize, TicketAction, Wake, waiterWait, waiterWaitTimeout
Open obligations: none
-/
import Mathlib.Algebra.GroupWithZero.Nat
import Mathlib.Data.List.Basic

namespace Qrtr

/-! ### Tickets and the poll set -/

/-- `enum waiter_type`, with the member of the union that goes with it. -/
inductive WaiterType where
  | null
  | fd (filedes : Int)
  | timeout (interval : Nat)
deriving DecidableEq

/-- The function of a callback and its data. -/
abbrev Callback := Nat

/-- `struct waiter_ticket`. -/
structure Ticket where
  type : WaiterType
  callback : Option Callback
  start : Nat
  updated : Bool
deriving DecidableEq

/-- A ticket from `calloc`. -/
def Ticket.zero : Ticket := ⟨.null, none, 0, false⟩

/-- `struct pollset`, with the slots behind it: `capacity` of them are allocated, and the first ones are
    in use, for `fds`. -/
structure Pollset where
  capacity : Nat
  fds : List Int
  cause : Option Nat
deriving DecidableEq

/-- `struct waiter`. -/
structure Waiter where
  tickets : List Ticket
  pollset : Option Pollset
  count : Nat
deriving DecidableEq

/-- `pollset_create`. -/
def pollsetCreate (count : Nat) : Pollset := ⟨count, [], some 0⟩

/-- `pollset_reset`. -/
def pollsetReset (ps : Pollset) : Pollset := { ps with fds := [] }

/-- `pollset_add_fd`. Whether the slot that it fills is there is not looked at. -/
def pollsetAddFd (ps : Pollset) (fd : Int) : Pollset := { ps with fds := ps.fds ++ [fd] }

/-- `pollset_wait` behind the call of `poll`, which has returned `rc` and set `revents`. -/
def pollsetWait (ps : Pollset) (rc : Int) (revents : Nat → Bool) : Pollset :=
  if rc ≤ 0 then ps else { ps with cause := (List.range ps.fds.length).find? revents }

/-- `pollset_cause_fd`. -/
def pollsetCauseFd (ps : Pollset) (fd : Int) : Bool :=
  match ps.cause with
  | none => false
  | some i => ps.fds[i]? == some fd

/-- A number in a `uint64_t`. -/
def u64 (n : Nat) : Nat := n % 2 ^ 64

/-! ### Operations on tickets -/

/-- `waiter_create`. -/
def waiterCreate : Waiter := ⟨[], none, 0⟩

/-- A change of the ticket at a position. -/
def Waiter.modify (w : Waiter) (i : Nat) (f : Ticket → Ticket) : Waiter :=
  { w with tickets := w.tickets.modify i f }

/-- `waiter_ticket_set_null`. -/
def waiterTicketSetNull (w : Waiter) (i : Nat) : Waiter := w.modify i fun t => { t with type := .null }

/-- `waiter_ticket_set_fd`. -/
def waiterTicketSetFd (w : Waiter) (i : Nat) (fd : Int) : Waiter :=
  w.modify i fun t => { t with type := .fd fd }

/-- `waiter_ticket_set_timeout`, at the time `now`. -/
def waiterTicketSetTimeout (w : Waiter) (i ms now : Nat) : Waiter :=
  w.modify i fun t => { t with type := .timeout ms, start := now }

/-- `waiter_ticket_callback`. -/
def waiterTicketCallback (w : Waiter) (i : Nat) (cb : Option Callback) : Waiter :=
  w.modify i fun t => { t with callback := cb }

/-- `waiter_ticket_check`. -/
def waiterTicketCheck (t : Ticket) : Int := if t.updated then 0 else -1

/-- `waiter_ticket_clear`, without its result. -/
def waiterTicketClear (w : Waiter) (i : Nat) : Waiter := w.modify i fun t => { t with updated := false }

/-- `waiter_ticket_delete`. -/
def waiterTicketDelete (w : Waiter) (i : Nat) : Waiter :=
  { w with tickets := w.tickets.eraseIdx i, count := w.count - 1 }

/-! ### Adding tickets -/

/-- Which allocations of a call succeed: that of the ticket, and that of the poll set. -/
structure Allocs where
  ticket : Bool
  pollset : Bool
deriving DecidableEq

/-- `waiter_add_null`: the waiter behind it, and the ticket that it returns. -/
def waiterAddNull (mem : Allocs) (w : Waiter) : Waiter × Option Nat :=
  if mem.ticket = false then (w, none)
  else
    let ticket := w.tickets.length
    let w := { w with tickets := w.tickets ++ [Ticket.zero] }
    if w.count % 32 = 0 then
      if mem.pollset = false then ({ w with pollset := none }, none)
      else
        let w := { w with pollset := some (pollsetCreate (w.count + 33)), count := w.count + 1 }
        (waiterTicketSetNull w ticket, some ticket)
    else (waiterTicketSetNull { w with count := w.count + 1 } ticket, some ticket)

/-- `waiter_add_fd`. -/
def waiterAddFd (mem : Allocs) (w : Waiter) (fd : Int) : Waiter × Option Nat :=
  match waiterAddNull mem w with
  | (w, none) => (w, none)
  | (w, some ticket) => (waiterTicketSetFd w ticket fd, some ticket)

/-- `waiter_add_timeout`, at the time `now`. -/
def waiterAddTimeout (mem : Allocs) (w : Waiter) (ms now : Nat) : Waiter × Option Nat :=
  match waiterAddNull mem w with
  | (w, none) => (w, none)
  | (w, some ticket) => (waiterTicketSetTimeout w ticket ms now, some ticket)

/-- What a new ticket waits for: a call of `waiter_add_null`, `waiter_add_fd` or `waiter_add_timeout`. -/
inductive NewTicket where
  | null
  | fd (fd : Int)
  | timeout (ms now : Nat)
deriving DecidableEq

def waiterAdd (mem : Allocs) (w : Waiter) : NewTicket → Waiter × Option Nat
  | .null => waiterAddNull mem w
  | .fd fd => waiterAddFd mem w fd
  | .timeout ms now => waiterAddTimeout mem w ms now

/-! ### Timers in step -/

/-- The inner loop of `waiter_synchronize`: the next ticket with the same interval gets the start. -/
def passStart (interval start : Nat) : List Ticket → List Ticket
  | [] => []
  | oticket :: rest =>
      if oticket.type = .timeout interval then { oticket with start := start } :: rest
      else oticket :: passStart interval start rest

/-- The outer loop, from a node on. -/
def synchronizeLoop : Nat → List Ticket → List Ticket
  | 0, tickets => tickets
  | _ + 1, [] => []
  | n + 1, ticket :: rest =>
      match ticket.type with
      | .timeout interval => ticket :: synchronizeLoop n (passStart interval ticket.start rest)
      | _ => ticket :: synchronizeLoop n rest

/-- `waiter_synchronize`. -/
def waiterSynchronize (w : Waiter) : Waiter :=
  { w with tickets := synchronizeLoop w.tickets.length w.tickets }

/-! ### Waiting -/

/-- What a callback may do with the waiter: anything but wait and delete. -/
inductive TicketAction where
  | add (mem : Allocs) (new : NewTicket)
  | setNull (i : Nat)
  | setFd (i : Nat) (fd : Int)
  | setTimeout (i ms now : Nat)
  | callback (i : Nat) (cb : Option Callback)
  | clear (i : Nat)
deriving DecidableEq

def TicketAction.perform (w : Waiter) : TicketAction → Waiter
  | .add mem new => (waiterAdd mem w new).1
  | .setNull i => waiterTicketSetNull w i
  | .setFd i fd => waiterTicketSetFd w i fd
  | .setTimeout i ms now => waiterTicketSetTimeout w i ms now
  | .callback i cb => waiterTicketCallback w i cb
  | .clear i => waiterTicketClear w i

/-- What one `waiter_wait` gets from outside: the clock in front of `poll` and behind it, the result of
    `poll` and the slots with `POLLERR` or `POLLIN`, and what the callback of the ticket at each position
    does, when it runs. -/
structure Wake where
  before : Nat
  after : Nat
  rc : Int
  revents : Nat → Bool
  acts : List (List TicketAction)

/-- A callback that runs: the position of its ticket, and the ticket that it sees. -/
structure Call where
  position : Nat
  callback : Callback
  ticket : Ticket
deriving DecidableEq

/-- What one `waiter_wait` does: the poll set that it fills, the timeout that it gives to `poll`, unless it
    skips it, and the callbacks that run. -/
structure WaitLog where
  filled : Pollset
  timeout : Option Int
  calls : List Call
deriving DecidableEq

/-- The first loop of `waiter_wait`, at a ticket: the poll set and `term_time`. -/
def fillTicket (acc : Pollset × Nat) (ticket : Ticket) : Pollset × Nat :=
  match ticket.type with
  | .timeout interval =>
      if u64 (ticket.start + interval) < acc.2 then (acc.1, u64 (ticket.start + interval)) else acc
  | .fd filedes => (pollsetAddFd acc.1 filedes, acc.2)
  | .null => acc

/-- `(uint64_t)-1`. -/
def u64Max : Nat := 2 ^ 64 - 1

/-- `(1u << 31) - 1`. -/
def maxDelta : Nat := 2 ^ 31 - 1

/-- The timeout for `poll`; none if the earliest deadline has passed. -/
def pollTimeout (termTime now : Nat) : Option Int :=
  if termTime = u64Max then some (-1)
  else if termTime ≤ now then none
  else
    let delta := termTime - now
    some (if maxDelta < delta then maxDelta else delta)

/-- The switch in the second loop: the ticket, and whether it is `fresh`. -/
def wakeSwitch (ps : Pollset) (rc : Int) (now : Nat) (ticket : Ticket) : Ticket × Bool :=
  match ticket.type with
  | .timeout interval =>
      if u64 (ticket.start + interval) ≤ now then ({ ticket with start := now }, !ticket.updated)
      else (ticket, false)
  | .fd filedes =>
      if rc = 0 then (ticket, false)
      else if pollsetCauseFd ps filedes then (ticket, !ticket.updated)
      else (ticket, false)
  | .null => (ticket, false)

/-- An iteration of the second loop, up to the callback. -/
def wakeTicket (ps : Pollset) (rc : Int) (now : Nat) (ticket : Ticket) : Ticket × Bool :=
  match wakeSwitch ps rc now ticket with
  | (ticket, fresh) => (if fresh then { ticket with updated := true } else ticket, fresh)

/-- The second loop, from a position on. The callbacks may append tickets, which are visited as well; with
    enough fuel the loop ends behind the last ticket. -/
def wakeLoop (ps : Pollset) (rc : Int) (now : Nat) (acts : List (List TicketAction)) :
    Nat → Nat → Waiter → Waiter × List Call
  | 0, _, w => (w, [])
  | fuel + 1, i, w =>
      match w.tickets[i]? with
      | none => (w, [])
      | some ticket =>
          match wakeTicket ps rc now ticket with
          | (ticket, fresh) =>
              let w := w.modify i fun _ => ticket
              match (if fresh then ticket.callback else none) with
              | none => wakeLoop ps rc now acts fuel (i + 1) w
              | some cb =>
                  let w := (acts.getD i []).foldl TicketAction.perform w
                  let rest := wakeLoop ps rc now acts fuel (i + 1) w
                  (rest.1, ⟨i, cb, ticket⟩ :: rest.2)

/-- An upper bound on the number of tickets that the second loop visits. -/
def Wake.fuel (wake : Wake) (w : Waiter) : Nat := w.tickets.length + (wake.acts.map List.length).sum

/-- `waiter_wait`; none if it resets the poll set through a NULL pointer. The local `ps` keeps what `poll`
    said, also when a callback renews the poll set of the waiter. -/
def waiterWait (wake : Wake) (w : Waiter) : Option (Waiter × WaitLog) :=
  match w.pollset with
  | none => none
  | some ps =>
      let (filled, termTime) := w.tickets.foldl fillTicket (pollsetReset ps, u64Max)
      let timeout := pollTimeout termTime wake.before
      let rc := if timeout.isSome then wake.rc else 0
      let ps := pollsetWait filled rc wake.revents
      let w := { w with pollset := some ps }
      if rc < 0 then some (w, ⟨filled, timeout, []⟩)
      else
        let (w', calls) := wakeLoop ps rc wake.after wake.acts (wake.fuel w) 0 w
        some (w', ⟨filled, timeout, calls⟩)

/-- `waiter_wait_timeout`, at the time `now`: the waiter, what `waiter_wait` did, and the result. -/
def waiterWaitTimeout (wake : Wake) (w : Waiter) (ms now : Nat) : Option (Waiter × WaitLog × Int) :=
  let ticket := w.tickets.length
  let raised := { w with
    tickets := w.tickets ++ [{ Ticket.zero with type := .timeout ms, start := now }]
    count := w.count + 1 }
  match waiterWait wake raised with
  | none => none
  | some (w', log) =>
      let rc := (w'.tickets[ticket]?.map waiterTicketCheck).getD 0
      some (waiterTicketDelete w' ticket, log, if rc = 0 then -1 else 0)

end Qrtr
