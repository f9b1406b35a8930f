/-
Module: Qrtr.Waiter.Capacity
Layer: Waiter
Purpose: Room in the poll set. It is renewed, with 33 slots more than tickets, whenever a ticket is added while
  their number is a multiple of 32, so the slots run out 33 tickets later, and by then it is renewed again.
  `waiter_wait_timeout` raises the number by one for its own ticket without renewing anything: at a multiple
  of 32 the callbacks may then add tickets past the renewal that was due.
Imports: Foundation.Run, Waiter.Adding, Waiter.Synchronize
Main exports: Grown, HasSlots, waiterWait_filled, waiterWait_grown, WaiterOp, waiterStep, AlwaysHasRoom,
  Roomy, Roomy.hasSlots, pollset_has_room
Open obligations: none
-/
import Qrtr.Foundation.Run
import Qrtr.Waiter.Adding
import Qrtr.Waiter.Synchronize

namespace Qrtr

/-! ### Growing -/

/-- The slots of the poll set, if there is one. -/
def Waiter.slots (w : Waiter) : Option Nat := w.pollset.map Pollset.capacity

/-- The number of tickets at the last renewal on the way from `n` tickets to `n + k`, if there is one. -/
def lastRenewal (n k : Nat) : Nat := 32 * ((n + k - 1) / 32)

/-- `w'` is `w` with `k` more tickets; the poll set is that of the last renewal on the way, if there is one. -/
structure Grown (k : Nat) (w w' : Waiter) : Prop where
  length : w'.tickets.length = w.tickets.length + k
  count : w'.count = w.count + k
  renewed : 0 < k → w.count ≤ lastRenewal w.count k → w'.slots = some (lastRenewal w.count k + 33)
  kept : k = 0 ∨ lastRenewal w.count k < w.count → w'.slots = w.slots

section Growing

variable {k : Nat} {w w' w'' : Waiter}

theorem slots_added_renewed (h : w.count % 32 = 0) (t : Ticket) :
    (w.added t).slots = some (w.count + 33) := by
  have hrenews : w.Renews := h
  simp [Waiter.added, Waiter.slots, hrenews, pollsetCreate]

theorem slots_added_kept (h : ¬ w.count % 32 = 0) (t : Ticket) : (w.added t).slots = w.slots := by
  have hrenews : ¬ w.Renews := h
  simp [Waiter.added, Waiter.slots, hrenews]

theorem Grown.refl (w : Waiter) : Grown 0 w w where
  length := rfl
  count := rfl
  renewed h := absurd h (Nat.lt_irrefl 0)
  kept _ := rfl

/-- A change that adds no ticket. -/
theorem Grown.frame (h : Grown k w w') (hlength : w''.tickets.length = w'.tickets.length)
    (hcount : w''.count = w'.count) (hslots : w''.slots = w'.slots) : Grown k w w'' where
  length := hlength.trans h.length
  count := hcount.trans h.count
  renewed hk hle := hslots.trans (h.renewed hk hle)
  kept hkept := hslots.trans (h.kept hkept)

/-- One ticket more. -/
theorem Grown.added (h : Grown k w w') (t : Ticket) : Grown (k + 1) w (w'.added t) := by
  have hcount := h.count
  constructor
  case length =>
      change (w'.tickets ++ [t]).length = _
      rw [List.length_append, List.length_singleton, h.length, Nat.add_assoc]
  case count =>
      change w'.count + 1 = _
      rw [hcount, Nat.add_assoc]
  case renewed =>
      intro _ hle
      unfold lastRenewal at hle ⊢
      by_cases hrenews : w'.count % 32 = 0
      · have hlast : 32 * ((w.count + (k + 1) - 1) / 32) = w'.count := by omega
        rw [slots_added_renewed hrenews, hlast]
      · have hlast : lastRenewal w.count k = 32 * ((w.count + (k + 1) - 1) / 32) := by
          unfold lastRenewal
          omega
        rw [slots_added_kept hrenews, ← hlast]
        rw [← hlast] at hle
        exact h.renewed (by omega) hle
  case kept =>
      intro hlt
      have hlt := hlt.resolve_left (Nat.succ_ne_zero k)
      unfold lastRenewal at hlt
      have hrenews : ¬ w'.count % 32 = 0 := by omega
      rw [slots_added_kept hrenews]
      apply h.kept
      right
      unfold lastRenewal
      omega

end Growing

/-! ### Callbacks that add -/

/-- The allocations of the call succeed. -/
def TicketAction.Allocates : TicketAction → Prop
  | .add mem _ => mem = ⟨true, true⟩
  | _ => True

/-- How many tickets the call adds. -/
def TicketAction.adds : TicketAction → Nat
  | .add _ _ => 1
  | _ => 0

/-- How many tickets the callbacks add. -/
def callAdds (acts : List (List TicketAction)) (calls : List Call) : Nat :=
  (calls.map fun call => ((acts.getD call.position []).map TicketAction.adds).sum).sum

section Acting

variable {k : Nat} {w w' : Waiter}

/-- With the allocations that it needs, every call that adds a ticket does. -/
theorem waiterAdd_allocates (w : Waiter) (new : NewTicket) :
    waiterAdd ⟨true, true⟩ w new = (w.added new.ticket, some w.tickets.length) := by
  have h := waiterAdd_added ⟨true, true⟩ w new
  generalize waiterAdd ⟨true, true⟩ w new = r at h
  cases h with
  | noTicket hno => cases hno
  | noPollset _ _ hno => cases hno
  | added => rfl

theorem Grown.modify (h : Grown k w w') (i : Nat) (f : Ticket → Ticket) : Grown k w (w'.modify i f) :=
  h.frame (List.length_modify f w'.tickets i) rfl rfl

theorem Grown.perform (h : Grown k w w') {a : TicketAction} (ha : a.Allocates) :
    Grown (k + a.adds) w (a.perform w') := by
  cases a with
  | add mem new =>
      obtain rfl : mem = ⟨true, true⟩ := ha
      rw [TicketAction.perform, waiterAdd_allocates]
      exact h.added _
  | setNull i => exact h.modify i _
  | setFd i fd => exact h.modify i _
  | setTimeout i ms now => exact h.modify i _
  | callback i cb => exact h.modify i _
  | clear i => exact h.modify i _

theorem Grown.foldl_perform (h : Grown k w w') {l : List TicketAction} (hl : ∀ a ∈ l, a.Allocates) :
    Grown (k + (l.map TicketAction.adds).sum) w (l.foldl TicketAction.perform w') := by
  induction l generalizing k w' with
  | nil => exact h
  | cons a l ih =>
      have hrest := ih (h.perform (hl a List.mem_cons_self)) fun a' ha' => hl a' (List.mem_cons_of_mem _ ha')
      rw [List.map_cons, List.sum_cons, ← Nat.add_assoc]
      exact hrest

/-- The second loop adds what its callbacks add. -/
theorem Grown.wakeLoop {ps : Pollset} {rc : Int} {now : Nat} {acts : List (List TicketAction)}
    (hacts : ∀ i, ∀ a ∈ acts.getD i [], a.Allocates) {fuel i : Nat} (h : Grown k w w') :
    Grown (k + callAdds acts (wakeLoop ps rc now acts fuel i w').2) w
      (wakeLoop ps rc now acts fuel i w').1 := by
  induction fuel generalizing k i w' with
  | zero => exact h
  | succ fuel ih =>
      rw [Qrtr.wakeLoop]
      cases w'.tickets[i]? with
      | none => exact h
      | some t =>
          dsimp only
          cases if (wakeTicket ps rc now t).2 then (wakeTicket ps rc now t).1.callback else none with
          | none => exact ih (h.modify i _)
          | some cb =>
              have hcall := (h.modify i fun _ => (wakeTicket ps rc now t).1).foldl_perform (hacts i)
              have hrest := ih (i := i + 1) hcall
              dsimp only
              rw [callAdds, List.map_cons, List.sum_cons, ← Nat.add_assoc]
              exact hrest

end Acting

/-! ### Enough fuel -/

section Fuel

variable {ps : Pollset} {rc : Int} {now : Nat} {acts : List (List TicketAction)}

theorem length_perform_le (w : Waiter) (a : TicketAction) :
    (a.perform w).tickets.length ≤ w.tickets.length + 1 := by
  have hmodify : ∀ i f, (w.modify i f).tickets.length ≤ w.tickets.length + 1 := fun i f =>
    Nat.le_succ_of_le (Nat.le_of_eq (List.length_modify f w.tickets i))
  cases a with
  | add mem new =>
      have h := waiterAdd_added mem w new
      rw [TicketAction.perform]
      generalize waiterAdd mem w new = r at h
      cases h with
      | noTicket => exact Nat.le_succ _
      | noPollset => exact Nat.le_of_eq List.length_append
      | added => exact Nat.le_of_eq List.length_append
  | setNull i => exact hmodify i _
  | setFd i fd => exact hmodify i _
  | setTimeout i ms now => exact hmodify i _
  | callback i cb => exact hmodify i _
  | clear i => exact hmodify i _

theorem length_foldl_perform_le (w : Waiter) (l : List TicketAction) :
    (l.foldl TicketAction.perform w).tickets.length ≤ w.tickets.length + l.length := by
  induction l generalizing w with
  | nil => exact Nat.le_refl _
  | cons a l ih =>
      have hrest := ih (a.perform w)
      have hhead := length_perform_le w a
      rw [List.foldl_cons, List.length_cons]
      omega

theorem sum_drop (acts : List (List TicketAction)) (i : Nat) :
    ((acts.drop i).map List.length).sum =
      (acts.getD i []).length + ((acts.drop (i + 1)).map List.length).sum := by
  induction acts generalizing i with
  | nil => simp
  | cons a acts ih =>
      cases i with
      | zero => simp
      | succ i => simpa using ih i

/-- The second loop is over before the fuel is, if there is fuel for the tickets left and those that the
    callbacks may still add. -/
theorem wakeLoop_fuel {fuel i : Nat} {w : Waiter}
    (h : w.tickets.length + ((acts.drop i).map List.length).sum ≤ i + fuel) :
    wakeLoop ps rc now acts (fuel + 1) i w = wakeLoop ps rc now acts fuel i w := by
  induction fuel generalizing i w with
  | zero =>
      have hnone : w.tickets[i]? = none := List.getElem?_eq_none (by omega)
      rw [wakeLoop, wakeLoop, hnone]
  | succ fuel ih =>
      have hsum := sum_drop acts i
      rw [wakeLoop, wakeLoop]
      cases w.tickets[i]? with
      | none => rfl
      | some t =>
          dsimp only
          generalize wakeTicket ps rc now t = r
          have hlength : (w.modify i fun _ => r.1).tickets.length = w.tickets.length := List.length_modify _ _ _
          cases if r.2 then r.1.callback else none with
          | none => exact ih (by omega)
          | some cb =>
              have hacts := length_foldl_perform_le (w.modify i fun _ => r.1) (acts.getD i [])
              dsimp only
              rw [ih (by omega)]

/-- More fuel than `waiter_wait` gives the loop changes nothing. -/
theorem wakeLoop_enough (wake : Wake) (w : Waiter) (n : Nat) :
    wakeLoop ps rc now wake.acts (wake.fuel w + n) 0 w = wakeLoop ps rc now wake.acts (wake.fuel w) 0 w := by
  induction n with
  | zero => rfl
  | succ n ih =>
      rw [← ih, ← Nat.add_assoc]
      apply wakeLoop_fuel
      rw [List.drop_zero, Wake.fuel]
      omega

end Fuel

/-! ### Filling the poll set -/

/-- The descriptor that a ticket waits for. -/
def Ticket.fd? (t : Ticket) : Option Int :=
  match t.type with
  | .fd filedes => some filedes
  | _ => none

/-- The poll set is there, with a slot for every ticket that has a descriptor. -/
def Waiter.HasSlots (w : Waiter) : Prop :=
  ∃ ps, w.pollset = some ps ∧ (w.tickets.filterMap Ticket.fd?).length ≤ ps.capacity

/-- The first loop puts the descriptors into the poll set, one slot for each ticket that has one. -/
theorem foldl_fillTicket_filled (tickets : List Ticket) (acc : Pollset × Nat) :
    (tickets.foldl fillTicket acc).1 = { acc.1 with fds := acc.1.fds ++ tickets.filterMap Ticket.fd? } := by
  induction tickets generalizing acc with
  | nil => simp
  | cons t tickets ih =>
      have hstep : (fillTicket acc t).1 = { acc.1 with fds := acc.1.fds ++ t.fd?.toList } := by
        unfold fillTicket Ticket.fd?
        cases t.type with
        | null => simp
        | fd filedes => rfl
        | timeout interval =>
            dsimp only
            split <;> simp
      rw [List.foldl_cons, ih, hstep]
      cases hfd : t.fd? with
      | none => simp [hfd]
      | some fd => simp [hfd]

theorem capacity_pollsetWait (ps : Pollset) (rc : Int) (revents : Nat → Bool) :
    (pollsetWait ps rc revents).capacity = ps.capacity := by
  unfold pollsetWait
  split <;> rfl

section Waiting

variable {wake : Wake} {w w' : Waiter} {log : WaitLog}

/-- What `waiter_wait` fills, when it returns. -/
theorem waiterWait_filled {ps : Pollset} (hps : w.pollset = some ps)
    (h : waiterWait wake w = some (w', log)) :
    log.filled = { ps with fds := w.tickets.filterMap Ticket.fd? } := by
  have hfilled := foldl_fillTicket_filled w.tickets (pollsetReset ps, u64Max)
  unfold waiterWait at h
  rw [hps] at h
  dsimp only at h
  generalize w.tickets.foldl fillTicket (pollsetReset ps, u64Max) = acc at h hfilled
  generalize (if (pollTimeout acc.2 wake.before).isSome then wake.rc else 0) = rc at h
  rw [pollsetReset, List.nil_append] at hfilled
  split at h
  all_goals
    obtain ⟨-, rfl⟩ := Prod.mk.inj (Option.some.inj h)
    exact hfilled

/-- What `waiter_wait` does to the numbers. -/
theorem waiterWait_grown (hacts : ∀ i, ∀ a ∈ wake.acts.getD i [], a.Allocates)
    (h : waiterWait wake w = some (w', log)) : Grown (callAdds wake.acts log.calls) w w' := by
  unfold waiterWait at h
  cases hps : w.pollset with
  | none =>
      rw [hps] at h
      cases h
  | some ps =>
      rw [hps] at h
      dsimp only at h
      have hfilled := foldl_fillTicket_filled w.tickets (pollsetReset ps, u64Max)
      generalize w.tickets.foldl fillTicket (pollsetReset ps, u64Max) = acc at h hfilled
      generalize (if (pollTimeout acc.2 wake.before).isSome then wake.rc else 0) = rc at h
      have hsame : some (pollsetWait acc.1 rc wake.revents).capacity = w.slots := by
        rw [capacity_pollsetWait, hfilled, Waiter.slots, hps]
        rfl
      have hpolled : Grown 0 w { w with pollset := some (pollsetWait acc.1 rc wake.revents) } :=
        (Grown.refl w).frame rfl rfl hsame
      split at h
      case isTrue =>
          obtain ⟨rfl, rfl⟩ := Prod.mk.inj (Option.some.inj h)
          exact hpolled
      case isFalse =>
          obtain ⟨rfl, rfl⟩ := Prod.mk.inj (Option.some.inj h)
          rw [← Nat.zero_add (callAdds _ _)]
          exact hpolled.wakeLoop hacts

/-- The waiter with the ticket of `waiter_wait_timeout`. -/
def Waiter.raised (w : Waiter) (ms now : Nat) : Waiter :=
  { w with
    tickets := w.tickets ++ [{ Ticket.zero with type := .timeout ms, start := now }]
    count := w.count + 1 }

/-- `waiter_wait_timeout` is a `waiter_wait` with a ticket more. -/
theorem waiterWaitTimeout_some {ms now : Nat} (h : waiterWait wake (w.raised ms now) = some (w', log)) :
    ∃ rc, waiterWaitTimeout wake w ms now = some (waiterTicketDelete w' w.tickets.length, log, rc) := by
  unfold waiterWaitTimeout
  dsimp only
  rw [← Waiter.raised, h]
  exact ⟨_, rfl⟩

end Waiting

/-! ### Runs -/

/-- A call of the program: one that the callbacks may make as well, or one that they may not. -/
inductive WaiterOp where
  | act (a : TicketAction)
  | delete (i : Nat)
  | synchronize
  | wait (wake : Wake)
  | waitTimeout (wake : Wake) (ms now : Nat)

/-- What the outside gets to see: nothing, what a `waiter_wait` did, or a NULL pointer that was followed. -/
inductive Outcome where
  | quiet
  | waited (log : WaitLog)
  | crashed

def waiterStep (w : Waiter) : WaiterOp → Waiter × Outcome
  | .act a => (a.perform w, .quiet)
  | .delete i => (waiterTicketDelete w i, .quiet)
  | .synchronize => (waiterSynchronize w, .quiet)
  | .wait wake =>
      match waiterWait wake w with
      | none => (w, .crashed)
      | some (w', log) => (w', .waited log)
  | .waitTimeout wake ms now =>
      match waiterWaitTimeout wake w ms now with
      | none => (w, .crashed)
      | some (w', log, _) => (w', .waited log)

/-- Allocations succeed, those of the callbacks included, and what is deleted is there. -/
def WaiterOp.Proper (w : Waiter) : WaiterOp → Prop
  | .act a => a.Allocates
  | .delete i => i < w.tickets.length
  | .synchronize => True
  | .wait wake => ∀ i, ∀ a ∈ wake.acts.getD i [], a.Allocates
  | .waitTimeout wake _ _ => ∀ i, ∀ a ∈ wake.acts.getD i [], a.Allocates

/-- The poll set, where there is one and it was filled, had a slot for every ticket with a descriptor. -/
def Outcome.HasRoom : Outcome → Prop
  | .quiet => True
  | .waited log => log.filled.fds.length ≤ log.filled.capacity
  | .crashed => False

/-- Every time the poll set is filled in a run from `w`, it has room. -/
def AlwaysHasRoom (w : Waiter) (ops : List WaiterOp) : Prop := ∀ o ∈ Run.outputs waiterStep w ops, o.HasRoom

/-- How many tickets the callbacks add in a `waiter_wait_timeout`. -/
def timeoutAdds (wake : Wake) (w : Waiter) (ms now : Nat) : Nat :=
  match waiterWaitTimeout wake w ms now with
  | none => 0
  | some (_, log, _) => callAdds wake.acts log.calls

/-- In a `waiter_wait_timeout` at a positive multiple of 32 tickets, with the poll set from 32 tickets before,
    the callbacks add no ticket, or so many that they come to the next multiple. -/
def WaiterOp.KeepsRoom (w : Waiter) : WaiterOp → Prop
  | .waitTimeout wake ms now =>
      w.count = 0 ∨ w.count % 32 ≠ 0 ∨ (∃ n, w.slots = some n ∧ w.count + 33 ≤ n) ∨
        timeoutAdds wake w ms now = 0 ∨ 32 ≤ timeoutAdds wake w ms now
  | _ => True

/-- The invariant: the poll set is at least the one of the last renewal that led to this many tickets. -/
structure Roomy (w : Waiter) : Prop where
  count : w.tickets.length = w.count
  slots : ∃ n, w.slots = some n ∧ 32 * ((w.count - 1) / 32) + 33 ≤ n

section Invariant

variable {w w' : Waiter} {k : Nat}

/-- The first ticket. -/
theorem roomy_first (new : NewTicket) : Roomy (waiterAdd ⟨true, true⟩ waiterCreate new).1 := by
  rw [waiterAdd_allocates]
  refine ⟨rfl, 33, rfl, ?_⟩
  change 32 * ((0 + 1 - 1) / 32) + 33 ≤ 33
  decide

theorem Roomy.grown (hw : Roomy w) (h : Grown k w w') : Roomy w' := by
  obtain ⟨n, hn, hle⟩ := hw.slots
  refine ⟨by rw [h.length, h.count, hw.count], ?_⟩
  rw [h.count]
  by_cases hrenewed : 0 < k ∧ w.count ≤ lastRenewal w.count k
  · exact ⟨_, h.renewed hrenewed.1 hrenewed.2, Nat.le_refl _⟩
  · refine ⟨n, (h.kept (by omega)).trans hn, ?_⟩
    unfold lastRenewal at hrenewed
    omega

/-- Deleting a ticket. -/
theorem Roomy.delete (hw : Roomy w) {i : Nat} (hi : i < w.tickets.length) : Roomy (waiterTicketDelete w i) := by
  obtain ⟨n, hn, hle⟩ := hw.slots
  refine ⟨?_, n, hn, ?_⟩
  · change (w.tickets.eraseIdx i).length = w.count - 1
    rw [List.length_eraseIdx_of_lt hi, hw.count]
  · change 32 * ((w.count - 1 - 1) / 32) + 33 ≤ n
    omega

/-- Such a waiter has a slot for every ticket. -/
theorem Roomy.hasSlots (hw : Roomy w) : w.HasSlots := by
  obtain ⟨n, hn, hle⟩ := hw.slots
  obtain ⟨ps, hps, rfl⟩ := Option.map_eq_some_iff.mp hn
  have hcount := hw.count
  have hfds := List.length_filterMap_le Ticket.fd? w.tickets
  exact ⟨ps, hps, by omega⟩

theorem waiterWait_roomy {wake : Wake} (hw : Roomy w) (hacts : ∀ i, ∀ a ∈ wake.acts.getD i [], a.Allocates) :
    Roomy (waiterStep w (.wait wake)).1 ∧ (waiterStep w (.wait wake)).2.HasRoom := by
  obtain ⟨ps, hps, hroom⟩ := hw.hasSlots
  cases hwait : waiterWait wake w with
  | none =>
      have hsome := waiterWait_isSome wake w
      rw [hwait, hps] at hsome
      cases hsome
  | some r =>
      obtain ⟨w', log⟩ := r
      simp only [waiterStep, hwait]
      refine ⟨hw.grown (waiterWait_grown hacts hwait), ?_⟩
      rw [Outcome.HasRoom, waiterWait_filled hps hwait]
      exact hroom

/-- The ticket of `waiter_wait_timeout` goes again. If it has kept a renewal from happening, no other has made
    up for it, and there are too few slots: that is what `KeepsRoom` excludes. -/
theorem Roomy.lowered {ms now : Nat} (hw : Roomy w) (h : Grown k (w.raised ms now) w')
    (hkeeps : w.count = 0 ∨ w.count % 32 ≠ 0 ∨ (∃ n, w.slots = some n ∧ w.count + 33 ≤ n) ∨ k = 0 ∨ 32 ≤ k) :
    Roomy (waiterTicketDelete w' w.tickets.length) := by
  obtain ⟨n, hn, hle⟩ := hw.slots
  have hlength : w'.tickets.length = w.tickets.length + 1 + k := by
    rw [h.length, Waiter.raised, List.length_append, List.length_singleton]
  have hcount : w'.count = w.count + 1 + k := h.count
  constructor
  case count =>
      change (w'.tickets.eraseIdx w.tickets.length).length = w'.count - 1
      rw [List.length_eraseIdx_of_lt (by omega), hlength, hcount, hw.count]
  case slots =>
      change ∃ n, w'.slots = some n ∧ 32 * ((w'.count - 1 - 1) / 32) + 33 ≤ n
      rw [hcount]
      have hrenewed := h.renewed
      have hkept := h.kept
      change 0 < k → w.count + 1 ≤ lastRenewal (w.count + 1) k → _ at hrenewed
      change k = 0 ∨ lastRenewal (w.count + 1) k < w.count + 1 → w'.slots = w.slots at hkept
      unfold lastRenewal at hrenewed hkept
      by_cases hpassed : 0 < k ∧ w.count + 1 ≤ 32 * ((w.count + 1 + k - 1) / 32)
      · refine ⟨_, hrenewed hpassed.1 hpassed.2, ?_⟩
        change _ ≤ 32 * ((w.count + 1 + k - 1) / 32) + 33
        omega
      · refine ⟨n, (hkept (by omega)).trans hn, ?_⟩
        rcases hkeeps with hzero | hbetween | ⟨n', hn', hroom⟩ | hnone | hmany
        · omega
        · omega
        · obtain rfl := Option.some.inj (hn.symm.trans hn')
          omega
        · omega
        · omega

theorem waiterWaitTimeout_roomy {wake : Wake} {ms now : Nat} (hw : Roomy w)
    (hacts : ∀ i, ∀ a ∈ wake.acts.getD i [], a.Allocates)
    (hkeeps : (WaiterOp.waitTimeout wake ms now).KeepsRoom w) :
    Roomy (waiterStep w (.waitTimeout wake ms now)).1 ∧
      (waiterStep w (.waitTimeout wake ms now)).2.HasRoom := by
  obtain ⟨ps, hps, hroom⟩ := hw.hasSlots
  have hraised : (w.raised ms now).pollset = some ps := hps
  cases hwait : waiterWait wake (w.raised ms now) with
  | none =>
      have hsome := waiterWait_isSome wake (w.raised ms now)
      rw [hwait, hraised] at hsome
      cases hsome
  | some r =>
      obtain ⟨w', log⟩ := r
      obtain ⟨rc, hrun⟩ := waiterWaitTimeout_some hwait
      simp only [WaiterOp.KeepsRoom, timeoutAdds, hrun] at hkeeps
      simp only [waiterStep, hrun]
      refine ⟨hw.lowered (waiterWait_grown hacts hwait) hkeeps, ?_⟩
      -- the ticket of the call has no descriptor
      have hticket : (w.raised ms now).tickets.filterMap Ticket.fd? = w.tickets.filterMap Ticket.fd? := by
        rw [Waiter.raised, List.filterMap_append]
        exact List.append_nil _
      rw [Outcome.HasRoom, waiterWait_filled hraised hwait, hticket]
      exact hroom

/-- One step. -/
theorem waiterStep_roomy {op : WaiterOp} (hw : Roomy w) (hproper : op.Proper w) (hkeeps : op.KeepsRoom w) :
    Roomy (waiterStep w op).1 ∧ (waiterStep w op).2.HasRoom := by
  cases op with
  | act a => exact ⟨hw.grown ((Grown.refl w).perform hproper), trivial⟩
  | delete i => exact ⟨hw.delete hproper, trivial⟩
  | synchronize =>
      have hlength : (waiterSynchronize w).tickets.length = w.tickets.length := by
        rw [waiterSynchronize, synchronizeLoop_eq (Nat.le_refl _), List.length_map]
      exact ⟨hw.grown ((Grown.refl w).frame hlength rfl rfl), trivial⟩
  | wait wake => exact waiterWait_roomy hw hproper
  | waitTimeout wake ms now => exact waiterWaitTimeout_roomy hw hproper hkeeps

end Invariant

/-- In every run that starts with a ticket, the poll set always has room for the descriptors, if no
    `waiter_wait_timeout` keeps a renewal from happening. -/
theorem pollset_has_room (new : NewTicket) {ops : List WaiterOp}
    (hops : Run.Guarded (fun w op => op.Proper w ∧ op.KeepsRoom w) waiterStep
      (waiterAdd ⟨true, true⟩ waiterCreate new).1 ops) :
    AlwaysHasRoom (waiterAdd ⟨true, true⟩ waiterCreate new).1 ops :=
  Run.Guarded.outputs_forall (fun _ _ hw ⟨hproper, hkeeps⟩ => waiterStep_roomy hw hproper hkeeps)
    (roomy_first new) hops

/-- A second ticket, and one wait of each kind. -/
theorem pollset_has_room_sample : AlwaysHasRoom (waiterAdd ⟨true, true⟩ waiterCreate .null).1
    [.act (.add ⟨true, true⟩ (.fd 3)), .wait ⟨0, 0, 1, fun _ => true, []⟩,
      .waitTimeout ⟨0, 0, 1, fun _ => true, []⟩ 1000 0] := by
  apply pollset_has_room
  have hquiet : ∀ i, ∀ a ∈ ([] : List (List TicketAction)).getD i [], a.Allocates :=
    fun _ _ ha => absurd ha List.not_mem_nil
  exact ⟨⟨rfl, trivial⟩, ⟨hquiet, trivial⟩, ⟨hquiet, .inr (.inl (by decide))⟩, trivial⟩

/-- With the first ticket 32 tickets for a descriptor; the callback of the first one adds two more, in a
    `waiter_wait_timeout`. Then comes another wait. -/
def overrunOps : List WaiterOp :=
  List.replicate 31 (.act (.add ⟨true, true⟩ (.fd 3))) ++
    [.act (.callback 0 (some 0)),
      .waitTimeout ⟨0, 0, 1, fun _ => true, [[.add ⟨true, true⟩ (.fd 4), .add ⟨true, true⟩ (.fd 5)]]⟩ 1000 0,
      .wait ⟨0, 0, 1, fun _ => true, []⟩]

instance (o : Outcome) : Decidable o.HasRoom := by
  cases o <;> unfold Outcome.HasRoom <;> infer_instance

/-- 34 descriptors for 33 slots. -/
theorem not_pollset_has_room :
    Run.Guarded (fun w op => op.Proper w) waiterStep (waiterAdd ⟨true, true⟩ waiterCreate (.fd 3)).1
        overrunOps ∧
      ¬ AlwaysHasRoom (waiterAdd ⟨true, true⟩ waiterCreate (.fd 3)).1 overrunOps := by
  constructor
  · apply Run.Guarded.of_forall
    intro op hop w
    simp only [overrunOps, List.mem_append, List.mem_replicate, List.mem_cons, List.not_mem_nil,
      or_false] at hop
    rcases hop with ⟨-, rfl⟩ | rfl | rfl | rfl
    · exact rfl
    · trivial
    · intro i a ha
      cases i with
      | zero =>
          simp only [List.getD_cons_zero, List.mem_cons, List.not_mem_nil, or_false] at ha
          rcases ha with rfl | rfl <;> rfl
      | succ i => exact absurd ha List.not_mem_nil
    · exact fun _ _ ha => absurd ha List.not_mem_nil
  · unfold AlwaysHasRoom
    decide +kernel

end Qrtr
