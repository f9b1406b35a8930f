/-
Module: Qrtr.Waiter.Deadlines
Layer: Waiter
Purpose: Timers in `waiter_wait`. `poll` sleeps up to the earliest deadline and no longer; behind it exactly
  the timers whose deadline has passed are restarted and marked, each runs its callback once at most, and
  the others are left alone. The second loop is taken apart ticket by ticket: with callbacks that keep to
  their own ticket, what it does to one does not depend on the others. All this takes a poll set with a slot
  for every descriptor: `waiter_wait` looks neither for the one nor for the other.
Imports: Waiter.Capacity
Main exports: Ticket.deadline?, KeepsOwnFlag, wakeLoop_woken, KeepsDeadlines, waiterWait_keepsDeadlines,
  WaitsInTime, waitsInTime_iff
Open obligations: none
-/
import Qrtr.Waiter.Capacity

namespace Qrtr

/-! ### The earliest deadline -/

/-- When a timer is due. -/
def Ticket.deadline? (t : Ticket) : Option Nat :=
  match t.type with
  | .timeout interval => some (t.start + interval)
  | _ => none

/-- Deadlines that are far from the end of a `uint64_t`. -/
def DeadlinesFit (tickets : List Ticket) : Prop := ∀ t ∈ tickets, ∀ d, t.deadline? = some d → d < 2 ^ 63

/-- `bound` is the least of `limit` and the deadlines. -/
structure Earliest (tickets : List Ticket) (limit bound : Nat) : Prop where
  le_limit : bound ≤ limit
  le_deadline : ∀ t ∈ tickets, ∀ d, t.deadline? = some d → bound ≤ d
  attained : bound = limit ∨ ∃ t ∈ tickets, t.deadline? = some bound

/-- A ticket without a deadline in front. -/
theorem Earliest.cons_other {t : Ticket} {tickets : List Ticket} {limit bound : Nat}
    (h : Earliest tickets limit bound) (hother : t.deadline? = none) : Earliest (t :: tickets) limit bound := by
  refine ⟨h.le_limit, fun t' ht' d hd => ?_, h.attained.imp_right ?_⟩
  · rcases List.mem_cons.mp ht' with rfl | ht'
    · rw [hother] at hd
      cases hd
    · exact h.le_deadline t' ht' d hd
  · intro ⟨t', ht', hd⟩
    exact ⟨t', List.mem_cons_of_mem _ ht', hd⟩

/-- A timer in front. -/
theorem Earliest.cons_timer {t : Ticket} {tickets : List Ticket} {limit bound d : Nat}
    (h : Earliest tickets (min d limit) bound) (hd : t.deadline? = some d) :
    Earliest (t :: tickets) limit bound := by
  have hle := h.le_limit
  refine ⟨by omega, fun t' ht' d' hd' => ?_, ?_⟩
  · rcases List.mem_cons.mp ht' with rfl | ht'
    · obtain rfl := Option.some.inj (hd.symm.trans hd')
      omega
    · exact h.le_deadline t' ht' d' hd'
  · rcases h.attained with hmin | ⟨t', ht', hbound⟩
    · rcases Nat.le_total d limit with hdl | hdl
      · rw [Nat.min_eq_left hdl] at hmin
        exact .inr ⟨t, List.mem_cons_self, hmin ▸ hd⟩
      · rw [Nat.min_eq_right hdl] at hmin
        exact .inl hmin
    · exact .inr ⟨t', List.mem_cons_of_mem _ ht', hbound⟩

section Fill

variable {t : Ticket} {tickets : List Ticket} {d : Nat}

/-- The first loop at a timer. -/
theorem fillTicket_timer (acc : Pollset × Nat) (h : t.deadline? = some d) (hlt : d < 2 ^ 63) :
    (fillTicket acc t).2 = min d acc.2 := by
  unfold Ticket.deadline? at h
  unfold fillTicket
  cases htype : t.type with
  | timeout interval =>
      rw [htype] at h
      obtain rfl := Option.some.inj h
      have hfit : u64 (t.start + interval) = t.start + interval := Nat.mod_eq_of_lt (by omega)
      dsimp only
      rw [hfit]
      split
      case isTrue hlater => exact (Nat.min_eq_left (Nat.le_of_lt hlater)).symm
      case isFalse hearlier => exact (Nat.min_eq_right (Nat.le_of_not_lt hearlier)).symm
  | null | fd =>
      rw [htype] at h
      cases h

/-- The first loop at another ticket. -/
theorem fillTicket_other (acc : Pollset × Nat) (h : t.deadline? = none) : (fillTicket acc t).2 = acc.2 := by
  unfold Ticket.deadline? at h
  unfold fillTicket
  cases htype : t.type with
  | timeout interval =>
      rw [htype] at h
      cases h
  | null | fd => rfl

/-- The first loop looks for the earliest deadline. -/
theorem foldl_fillTicket_earliest (hfit : DeadlinesFit tickets) (acc : Pollset × Nat) :
    Earliest tickets acc.2 (tickets.foldl fillTicket acc).2 := by
  induction tickets generalizing acc with
  | nil => exact ⟨Nat.le_refl _, fun _ ht => absurd ht List.not_mem_nil, .inl rfl⟩
  | cons t tickets ih =>
      have hrest := ih (fun t' ht' => hfit t' (List.mem_cons_of_mem _ ht')) (fillTicket acc t)
      rw [List.foldl_cons]
      cases hd : t.deadline? with
      | none =>
          rw [fillTicket_other acc hd] at hrest
          exact hrest.cons_other hd
      | some d =>
          rw [fillTicket_timer acc hd (hfit t List.mem_cons_self d hd)] at hrest
          exact hrest.cons_timer hd

end Fill

/-! ### Sleeping -/

section Sleep

variable {tickets : List Ticket} {termTime now : Nat}

/-- With no timer at all the limit is left, which no deadline reaches. -/
theorem Earliest.eq_limit_iff (h : Earliest tickets u64Max termTime) (hfit : DeadlinesFit tickets) :
    termTime = u64Max ↔ ∀ t ∈ tickets, t.deadline? = none := by
  constructor
  · intro hmax t ht
    cases hd : t.deadline? with
    | none => rfl
    | some d =>
        have hle := h.le_deadline t ht d hd
        have hlt := hfit t ht d hd
        unfold u64Max at hmax
        omega
  · intro hnone
    rcases h.attained with hmax | ⟨t, ht, hd⟩
    · exact hmax
    · rw [hnone t ht] at hd
      cases hd

/-- `poll` waits forever exactly when there is no timer. -/
theorem pollTimeout_forever (h : Earliest tickets u64Max termTime) (hfit : DeadlinesFit tickets) :
    pollTimeout termTime now = some (-1) ↔ ∀ t ∈ tickets, t.deadline? = none := by
  rw [← h.eq_limit_iff hfit, pollTimeout]
  constructor
  · intro hforever
    by_contra hne
    rw [if_neg hne] at hforever
    split at hforever
    · cases hforever
    · have := Option.some.inj hforever
      split at this <;> omega
  · intro hmax
    rw [if_pos hmax]

/-- `poll` is skipped exactly when a deadline has passed. -/
theorem pollTimeout_skipped (h : Earliest tickets u64Max termTime) (hfit : DeadlinesFit tickets) :
    pollTimeout termTime now = none ↔ ∃ t ∈ tickets, ∃ d, t.deadline? = some d ∧ d ≤ now := by
  constructor
  · intro hnone
    unfold pollTimeout at hnone
    split at hnone
    · cases hnone
    · rename_i hne
      split at hnone
      · rename_i hpast
        obtain ⟨t, ht, hd⟩ := h.attained.resolve_left hne
        exact ⟨t, ht, termTime, hd, hpast⟩
      · cases hnone
  · intro ⟨t, ht, d, hd, hpast⟩
    have hne : termTime ≠ u64Max := by
      intro hmax
      rw [(h.eq_limit_iff hfit).mp hmax t ht] at hd
      cases hd
    have hle := h.le_deadline t ht d hd
    rw [pollTimeout, if_neg hne, if_pos (Nat.le_trans hle hpast)]

/-- Otherwise `poll` waits for the earliest deadline, or as long as an `int` can say. -/
theorem pollTimeout_sleeps (h : Earliest tickets u64Max termTime) {ms : Int}
    (hms : pollTimeout termTime now = some ms) (hne : ms ≠ -1) :
    0 < ms ∧ ms ≤ maxDelta ∧ ∃ t ∈ tickets, ∃ d, t.deadline? = some d ∧
      (∀ t' ∈ tickets, ∀ d', t'.deadline? = some d' → d ≤ d') ∧
      ms = min ((d : Int) - now) maxDelta := by
  unfold pollTimeout at hms
  split at hms
  case isTrue => exact absurd (Option.some.inj hms).symm hne
  case isFalse hmax =>
      obtain ⟨t, ht, hd⟩ := h.attained.resolve_left hmax
      split at hms
      case isTrue => cases hms
      case isFalse hfuture =>
          have hdelta : (0 : Int) < maxDelta := by decide
          have hms' := Option.some.inj hms
          refine ⟨?_, ?_, t, ht, termTime, hd, h.le_deadline, ?_⟩
          all_goals
            split at hms' <;> omega

end Sleep

/-! ### Waking -/

/-- The callbacks touch nothing but the flag of their own ticket. -/
def KeepsOwnFlag (acts : List (List TicketAction)) : Prop := ∀ i, ∀ a ∈ acts.getD i [], a = .clear i

section Wake

variable (ps : Pollset) (rc : Int) (now : Nat) (acts : List (List TicketAction))

/-- The callback that the second loop runs for the ticket at a position. -/
def Ticket.call? (i : Nat) (t : Ticket) : Option Call :=
  (if (wakeTicket ps rc now t).2 then (wakeTicket ps rc now t).1.callback else none).map fun cb =>
    ⟨i, cb, (wakeTicket ps rc now t).1⟩

/-- The ticket behind its iteration of the second loop. -/
def Ticket.awake (i : Nat) (t : Ticket) : Ticket :=
  if (t.call? ps rc now i).isSome ∧ acts.getD i [] ≠ [] then { (wakeTicket ps rc now t).1 with updated := false }
  else (wakeTicket ps rc now t).1

variable {acts}

/-- Clearing a flag twice is clearing it once. -/
theorem foldl_clear {i : Nat} (w : Waiter) {l : List TicketAction} (h : ∀ a ∈ l, a = .clear i) :
    l.foldl TicketAction.perform w = if l = [] then w else waiterTicketClear w i := by
  induction l generalizing w with
  | nil => rfl
  | cons a l ih =>
      have hclear : a = .clear i := h a List.mem_cons_self
      have hagain : waiterTicketClear (waiterTicketClear w i) i = waiterTicketClear w i := by
        simp only [waiterTicketClear, Waiter.modify, List.modify_modify_eq]
        rfl
      rw [List.foldl_cons, ih _ fun a' ha' => h a' (List.mem_cons_of_mem _ ha'), hclear]
      simp only [TicketAction.perform, hagain, ite_self, reduceCtorEq, if_false]

/-- One iteration, with a callback that keeps to its own ticket. -/
theorem wakeLoop_step (hown : KeepsOwnFlag acts) {w : Waiter} {i : Nat} {t : Ticket}
    (ht : w.tickets[i]? = some t) (fuel : Nat) :
    wakeLoop ps rc now acts (fuel + 1) i w =
      ((wakeLoop ps rc now acts fuel (i + 1) (w.modify i fun _ => t.awake ps rc now acts i)).1,
        (t.call? ps rc now i).toList ++
          (wakeLoop ps rc now acts fuel (i + 1) (w.modify i fun _ => t.awake ps rc now acts i)).2) := by
  have hclear : ∀ (w : Waiter) (t : Ticket), waiterTicketClear (w.modify i fun _ => t) i =
      w.modify i fun _ => { t with updated := false } := by
    intro w t
    simp only [waiterTicketClear, Waiter.modify, List.modify_modify_eq]
    rfl
  rw [wakeLoop, ht]
  unfold Ticket.awake Ticket.call?
  dsimp only
  generalize wakeTicket ps rc now t = r
  obtain ⟨t', fresh⟩ := r
  dsimp only
  cases hcb : if fresh then t'.callback else none with
  | none => simp
  | some cb =>
      rw [foldl_clear _ (hown i)]
      generalize acts.getD i [] = l
      cases l with
      | nil => simp
      | cons a l => simp [hclear]

/-- The second loop from the position `i` on: the waiter and the calls that it ends with. -/
structure Woken (acts : List (List TicketAction)) (i : Nat) (w w' : Waiter) (calls : List Call) : Prop where
  tickets : ∀ j, w'.tickets[j]? =
    if j < i then w.tickets[j]? else w.tickets[j]?.map (Ticket.awake ps rc now acts j)
  calls : ∀ j, (calls.filter fun call => call.position = j) =
    if j < i then [] else (w.tickets[j]?.bind (Ticket.call? ps rc now j)).toList

/-- Behind the last ticket there is nothing to do. -/
theorem Woken.done {i : Nat} {w : Waiter} (hi : w.tickets.length ≤ i) : Woken ps rc now acts i w w [] := by
  have hnone : ∀ j, ¬ j < i → w.tickets[j]? = none := fun j hj => List.getElem?_eq_none (by omega)
  constructor
  case tickets =>
      intro j
      split
      case isTrue => rfl
      case isFalse hj =>
          rw [hnone j hj]
          rfl
  case calls =>
      intro j
      split
      case isTrue => rfl
      case isFalse hj =>
          rw [hnone j hj]
          rfl

/-- A ticket in front of the rest of the loop. -/
theorem Woken.cons {i : Nat} {w w' : Waiter} {calls : List Call} {t : Ticket} (ht : w.tickets[i]? = some t)
    (h : Woken ps rc now acts (i + 1) (w.modify i fun _ => t.awake ps rc now acts i) w' calls) :
    Woken ps rc now acts i w w' ((t.call? ps rc now i).toList ++ calls) := by
  have hat : ∀ j, (w.modify i fun _ => t.awake ps rc now acts i).tickets[j]? =
      if i = j then some (t.awake ps rc now acts i) else w.tickets[j]? := by
    intro j
    rw [Waiter.modify, List.getElem?_modify]
    split
    case isTrue hij =>
        subst hij
        rw [ht]
        rfl
    case isFalse => simp
  have hposition : ∀ j, (t.call? ps rc now i).toList.filter (fun call => call.position = j) =
      if i = j then (t.call? ps rc now i).toList else [] := by
    intro j
    unfold Ticket.call?
    cases if (wakeTicket ps rc now t).2 then (wakeTicket ps rc now t).1.callback else none with
    | none => simp
    | some cb => by_cases hij : i = j <;> simp [hij]
  constructor
  case tickets =>
      intro j
      rw [h.tickets j, hat j]
      rcases Nat.lt_trichotomy j i with hlt | rfl | hgt
      · rw [if_pos (Nat.lt_succ_of_lt hlt), if_pos hlt, if_neg (by omega)]
      · rw [if_pos (Nat.lt_succ_self j), if_pos rfl, if_neg (Nat.lt_irrefl j), ht]
        rfl
      · rw [if_neg (by omega), if_neg (by omega), if_neg (by omega)]
  case calls =>
      intro j
      rw [List.filter_append, hposition j, h.calls j, hat j]
      rcases Nat.lt_trichotomy j i with hlt | rfl | hgt
      · rw [if_neg (by omega), if_pos (Nat.lt_succ_of_lt hlt), if_pos hlt, List.nil_append]
      · rw [if_pos rfl, if_pos (Nat.lt_succ_self j), if_neg (Nat.lt_irrefl j), ht, List.append_nil]
        rfl
      · rw [if_neg (by omega), if_neg (by omega), if_neg (by omega), if_neg (by omega), List.nil_append]

/-- The second loop deals with every ticket on its own. -/
theorem wakeLoop_woken (hown : KeepsOwnFlag acts) {fuel i : Nat} {w : Waiter}
    (hfuel : w.tickets.length ≤ i + fuel) :
    Woken ps rc now acts i w (wakeLoop ps rc now acts fuel i w).1 (wakeLoop ps rc now acts fuel i w).2 := by
  induction fuel generalizing i w with
  | zero => exact .done ps rc now hfuel
  | succ fuel ih =>
      cases ht : w.tickets[i]? with
      | none =>
          rw [wakeLoop, ht]
          exact .done ps rc now (List.getElem?_eq_none_iff.mp ht)
      | some t =>
          rw [wakeLoop_step ps rc now hown ht]
          apply Woken.cons ps rc now ht
          apply ih
          rw [Waiter.modify, List.length_modify]
          omega

end Wake

/-! ### Timers that wake -/

section Timer

variable {ps : Pollset} {rc : Int} {now : Nat} {t : Ticket} {d : Nat}

/-- A timer, by its deadline. -/
theorem wakeTicket_timer (hd : t.deadline? = some d) (hlt : d < 2 ^ 63) :
    wakeTicket ps rc now t =
      if d ≤ now then ({ t with start := now, updated := true }, !t.updated) else (t, false) := by
  unfold Ticket.deadline? at hd
  unfold wakeTicket wakeSwitch
  cases htype : t.type with
  | timeout interval =>
      rw [htype] at hd
      obtain rfl := Option.some.inj hd
      have hfit : u64 (t.start + interval) = t.start + interval := Nat.mod_eq_of_lt (by omega)
      dsimp only
      rw [hfit]
      split
      case isTrue =>
          -- a timer that is not fresh has its flag set already
          cases t.updated <;> simp
      case isFalse => rfl
  | null | fd =>
      rw [htype] at hd
      cases hd

/-- A timer that is due is restarted and marked; its callback runs unless it was marked before. -/
theorem Ticket.call?_due (hd : t.deadline? = some d) (hlt : d < 2 ^ 63) (hdue : d ≤ now) (i : Nat) :
    t.call? ps rc now i = if t.updated then none else t.callback.map fun cb =>
      ⟨i, cb, { t with start := now, updated := true }⟩ := by
  rw [Ticket.call?, wakeTicket_timer hd hlt, if_pos hdue]
  cases t.updated <;> rfl

theorem Ticket.awake_due (hd : t.deadline? = some d) (hlt : d < 2 ^ 63) (hdue : d ≤ now)
    (acts : List (List TicketAction)) (i : Nat) :
    t.awake ps rc now acts i = { t with
      start := now
      updated := decide (¬ (t.updated = false ∧ t.callback.isSome ∧ acts.getD i [] ≠ [])) } := by
  rw [Ticket.awake, Ticket.call?_due hd hlt hdue, wakeTicket_timer hd hlt, if_pos hdue]
  generalize acts.getD i [] = l
  cases t.updated <;> cases t.callback <;> cases l <;> rfl

/-- Another timer is left alone. -/
theorem Ticket.call?_early (hd : t.deadline? = some d) (hlt : d < 2 ^ 63) (hearly : now < d) (i : Nat) :
    t.call? ps rc now i = none := by
  rw [Ticket.call?, wakeTicket_timer hd hlt, if_neg (Nat.not_le.mpr hearly)]
  rfl

theorem Ticket.awake_early (hd : t.deadline? = some d) (hlt : d < 2 ^ 63) (hearly : now < d)
    (acts : List (List TicketAction)) (i : Nat) : t.awake ps rc now acts i = t := by
  rw [Ticket.awake, Ticket.call?_early hd hlt hearly, wakeTicket_timer hd hlt,
    if_neg (Nat.not_le.mpr hearly)]
  rfl

end Timer

/-! ### Keeping deadlines -/

/-- `poll` is called, and fails. -/
def WaitLog.PollFails (log : WaitLog) (wake : Wake) : Prop := log.timeout ≠ none ∧ wake.rc < 0

/-- The deadlines of the tickets of `w` in a `waiter_wait` that leaves `w'`. -/
structure KeepsDeadlines (wake : Wake) (w w' : Waiter) (log : WaitLog) : Prop where
  /-- `poll` waits forever exactly when there is no timer. -/
  forever : log.timeout = some (-1) ↔ ∀ t ∈ w.tickets, t.deadline? = none
  /-- `poll` is skipped exactly when a deadline has passed. -/
  skipped : log.timeout = none ↔ ∃ t ∈ w.tickets, ∃ d, t.deadline? = some d ∧ d ≤ wake.before
  /-- Otherwise it waits for the earliest deadline, or as long as an `int` can say. -/
  sleeps : ∀ ms, log.timeout = some ms → ms ≠ -1 →
    0 < ms ∧ ms ≤ maxDelta ∧ ∃ t ∈ w.tickets, ∃ d, t.deadline? = some d ∧
      (∀ t' ∈ w.tickets, ∀ d', t'.deadline? = some d' → d ≤ d') ∧
      ms = min ((d : Int) - wake.before) maxDelta
  length : w'.tickets.length = w.tickets.length
  /-- A timer that is due is restarted and marked, unless its callback clears the mark again. The callback
      runs once, and sees the mark, if the timer was not marked before. -/
  due : ¬ log.PollFails wake → ∀ i t d, w.tickets[i]? = some t → t.deadline? = some d → d ≤ wake.after →
    (∃ updated, w'.tickets[i]? = some { t with start := wake.after, updated := updated } ∧
      (updated = false → t.updated = false ∧ t.callback.isSome ∧ wake.acts.getD i [] ≠ [])) ∧
    (log.calls.filter fun call => call.position = i) =
      if t.updated then [] else (t.callback.map fun cb =>
        Call.mk i cb { t with start := wake.after, updated := true }).toList
  /-- Another timer is left alone. -/
  early : ¬ log.PollFails wake → ∀ i t d, w.tickets[i]? = some t → t.deadline? = some d → wake.after < d →
    w'.tickets[i]? = some t ∧ (log.calls.filter fun call => call.position = i) = []
  /-- When `poll` fails, nothing wakes. -/
  failed : log.PollFails wake → w'.tickets = w.tickets ∧ log.calls = []

section Keeping

variable {wake : Wake} {w w' : Waiter} {ps : Pollset} {filled : Pollset} {termTime : Nat} {calls : List Call}

/-- When `poll` fails, or the second loop has dealt with every ticket on its own. -/
theorem keepsDeadlines_of_woken (hearliest : Earliest w.tickets u64Max termTime)
    (hfit : DeadlinesFit w.tickets)
    (hfails : (WaitLog.mk filled (pollTimeout termTime wake.before) calls).PollFails wake →
      w'.tickets = w.tickets ∧ calls = [])
    (hwoken : ¬ (WaitLog.mk filled (pollTimeout termTime wake.before) calls).PollFails wake →
      ∃ ps rc, Woken ps rc wake.after wake.acts 0 w w' calls) :
    KeepsDeadlines wake w w' ⟨filled, pollTimeout termTime wake.before, calls⟩ := by
  have htickets : ∀ {ps rc}, Woken ps rc wake.after wake.acts 0 w w' calls → ∀ i,
      w'.tickets[i]? = w.tickets[i]?.map (Ticket.awake ps rc wake.after wake.acts i) := by
    intro ps rc h i
    rw [h.tickets i, if_neg (Nat.not_lt_zero i)]
  have hcalls : ∀ {ps rc}, Woken ps rc wake.after wake.acts 0 w w' calls → ∀ i,
      (calls.filter fun call => call.position = i) =
        (w.tickets[i]?.bind (Ticket.call? ps rc wake.after i)).toList := by
    intro ps rc h i
    rw [h.calls i, if_neg (Nat.not_lt_zero i)]
  constructor
  case forever => exact pollTimeout_forever hearliest hfit
  case skipped => exact pollTimeout_skipped hearliest hfit
  case sleeps => exact fun ms hms hne => pollTimeout_sleeps hearliest hms hne
  case length =>
      by_cases hf : (WaitLog.mk filled (pollTimeout termTime wake.before) calls).PollFails wake
      · rw [(hfails hf).1]
      · obtain ⟨ps, rc, h⟩ := hwoken hf
        apply Nat.le_antisymm
        · apply List.getElem?_eq_none_iff.mp
          rw [htickets h, List.getElem?_eq_none (Nat.le_refl _)]
          rfl
        · apply List.getElem?_eq_none_iff.mp
          have hnone := htickets h w'.tickets.length
          rw [List.getElem?_eq_none (Nat.le_refl _)] at hnone
          exact Option.map_eq_none_iff.mp hnone.symm
  case due =>
      intro hf i t d ht hd hdue
      obtain ⟨ps, rc, h⟩ := hwoken hf
      have hlt := hfit t (List.mem_of_getElem? ht) d hd
      constructor
      · rw [htickets h i, ht, Option.map_some, Ticket.awake_due hd hlt hdue]
        refine ⟨_, rfl, fun hfalse => ?_⟩
        exact Decidable.not_not.mp (of_decide_eq_false hfalse)
      · rw [hcalls h i, ht, Option.bind_some, Ticket.call?_due hd hlt hdue]
        split <;> rfl
  case early =>
      intro hf i t d ht hd hearly
      obtain ⟨ps, rc, h⟩ := hwoken hf
      have hlt := hfit t (List.mem_of_getElem? ht) d hd
      constructor
      · rw [htickets h i, ht, Option.map_some, Ticket.awake_early hd hlt hearly]
      · rw [hcalls h i, ht, Option.bind_some, Ticket.call?_early hd hlt hearly]
        rfl
  case failed => exact hfails

/-- With a poll set `waiter_wait` keeps every deadline, if its slots are enough. -/
theorem waiterWait_keepsDeadlines (hps : w.pollset = some ps) (hfit : DeadlinesFit w.tickets)
    (hown : KeepsOwnFlag wake.acts) :
    ∃ w' log, waiterWait wake w = some (w', log) ∧ KeepsDeadlines wake w w' log := by
  have hearliest := foldl_fillTicket_earliest hfit (pollsetReset ps, u64Max)
  unfold waiterWait
  rw [hps]
  dsimp only
  generalize w.tickets.foldl fillTicket (pollsetReset ps, u64Max) = acc at hearliest ⊢
  obtain ⟨filled, termTime⟩ := acc
  dsimp only at hearliest ⊢
  generalize hrc : (if (pollTimeout termTime wake.before).isSome then wake.rc else 0) = rc
  have hfails : ∀ calls, (WaitLog.mk filled (pollTimeout termTime wake.before) calls).PollFails wake ↔
      rc < 0 := by
    intro calls
    rw [← hrc]
    unfold WaitLog.PollFails
    cases pollTimeout termTime wake.before <;> simp
  by_cases hneg : rc < 0
  · rw [if_pos hneg]
    refine ⟨_, _, rfl, keepsDeadlines_of_woken hearliest hfit (fun _ => ⟨rfl, rfl⟩) fun hnot => ?_⟩
    exact absurd ((hfails []).mpr hneg) hnot
  · rw [if_neg hneg]
    generalize hset : ({ w with pollset := some (pollsetWait filled rc wake.revents) } : Waiter) = w₁
    have htickets : w.tickets = w₁.tickets := by rw [← hset]
    have hfuel : w₁.tickets.length ≤ 0 + wake.fuel w₁ := by
      rw [Nat.zero_add]
      exact Nat.le_add_right _ _
    have hwoken := wakeLoop_woken (pollsetWait filled rc wake.revents) rc wake.after hown hfuel
    refine ⟨_, _, rfl, keepsDeadlines_of_woken hearliest hfit (fun hf => ?_) fun _ =>
      ⟨pollsetWait filled rc wake.revents, rc, ?_, ?_⟩⟩
    · exact absurd ((hfails _).mp hf) hneg
    · rw [htickets]
      exact hwoken.tickets
    · rw [htickets]
      exact hwoken.calls

end Keeping

/-- `waiter_wait` returns, has written into slots of the poll set only, and has kept every deadline. -/
def WaitsInTime (wake : Wake) (w : Waiter) : Prop :=
  ∃ w' log, waiterWait wake w = some (w', log) ∧ log.filled.fds.length ≤ log.filled.capacity ∧
    KeepsDeadlines wake w w' log

/-- `waiter_wait` keeps every deadline exactly when the poll set is there and has room. -/
theorem waitsInTime_iff {wake : Wake} {w : Waiter} (hfit : DeadlinesFit w.tickets)
    (hown : KeepsOwnFlag wake.acts) : WaitsInTime wake w ↔ w.HasSlots := by
  constructor
  · rintro ⟨w', log, hwait, hroom, -⟩
    have hsome := waiterWait_isSome wake w
    rw [hwait] at hsome
    obtain ⟨ps, hps⟩ := Option.isSome_iff_exists.mp hsome.symm
    rw [waiterWait_filled hps hwait] at hroom
    exact ⟨ps, hps, hroom⟩
  · rintro ⟨ps, hps, hroom⟩
    obtain ⟨w', log, hwait, hkeeps⟩ := waiterWait_keepsDeadlines hps hfit hown
    refine ⟨w', log, hwait, ?_, hkeeps⟩
    rw [waiterWait_filled hps hwait]
    exact hroom

/-- Two timers, one with a callback that clears its mark, and a descriptor. -/
def sampleTimers : Waiter :=
  ⟨[⟨.timeout 10, some 0, 100, false⟩, ⟨.timeout 50, none, 100, false⟩, ⟨.fd 3, none, 0, false⟩],
    some (pollsetCreate 33), 3⟩

/-- The first timer wakes, two milliseconds late. -/
theorem waitsInTime_iff_sample : WaitsInTime ⟨105, 112, 0, fun _ => false, [[.clear 0]]⟩ sampleTimers := by
  refine (waitsInTime_iff ?_ ?_).mpr ⟨pollsetCreate 33, rfl, by decide⟩
  · intro t ht d hd
    simp only [sampleTimers, List.mem_cons, List.not_mem_nil, or_false] at ht
    rcases ht with rfl | rfl | rfl
    · cases hd
      decide
    · cases hd
      decide
    · cases hd
  · intro i a ha
    cases i with
    | zero => exact List.mem_singleton.mp ha
    | succ i => exact absurd ha List.not_mem_nil

/-- A waiter with 34 tickets for a descriptor and the poll set of 33 slots that it got with the first. -/
def crowded : Waiter := ⟨List.replicate 34 ⟨.fd 3, none, 0, false⟩, some (pollsetCreate 33), 34⟩

/-- A new waiter has no poll set to reset, and a crowded one fills a slot too many. -/
theorem not_waitsInTime :
    (∀ wake, ¬ WaitsInTime wake waiterCreate) ∧ ∀ wake, ¬ WaitsInTime wake crowded := by
  constructor
  · rintro wake ⟨w', log, hwait, -⟩
    cases hwait
  · rintro wake ⟨w', log, hwait, hroom, -⟩
    rw [waiterWait_filled rfl hwait] at hroom
    revert hroom
    decide

end Qrtr
