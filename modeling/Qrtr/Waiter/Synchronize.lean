/-
Module: Qrtr.Waiter.Synchronize
Layer: Waiter
Purpose: `waiter_synchronize`. Every timer hands its start to the next one with the same interval, so the
  start of the first of them travels down the list: the loop is a map over the tickets that gives each timer
  the start of the first with its interval.
Imports: Waiter.Core
Main exports: firstStart, InStep, synchronizeLoop_eq, waiterSynchronize_inStep
Open obligations: none
-/
import Qrtr.Waiter.Core

namespace Qrtr

/-! ### The first timer with an interval -/

/-- The start of the first timeout ticket with the interval. -/
def firstStart (interval : Nat) (tickets : List Ticket) : Option Nat :=
  (tickets.find? fun t => t.type = .timeout interval).map Ticket.start

section First

variable {interval start : Nat} {tickets rest : List Ticket} {ticket : Ticket}

theorem firstStart_cons_same (h : ticket.type = .timeout interval) :
    firstStart interval (ticket :: rest) = some ticket.start := by
  simp [firstStart, h]

theorem firstStart_cons_other (h : ticket.type ≠ .timeout interval) :
    firstStart interval (ticket :: rest) = firstStart interval rest := by
  simp [firstStart, h]

/-- Where a timer with the interval is, there is a first one. -/
theorem firstStart_of_mem (hmem : ticket ∈ tickets) (h : ticket.type = .timeout interval) :
    ∃ start, firstStart interval tickets = some start := by
  cases hfirst : tickets.find? fun t => t.type = .timeout interval with
  | none =>
      rw [List.find?_eq_none] at hfirst
      exact absurd (decide_eq_true h) (hfirst ticket hmem)
  | some first => exact ⟨first.start, by rw [firstStart, hfirst]; rfl⟩

/-- A start that is passed on becomes that of the first timer with its interval. -/
theorem firstStart_passStart_same :
    firstStart interval (passStart interval start rest) = (firstStart interval rest).map fun _ => start := by
  induction rest with
  | nil => rfl
  | cons oticket rest ih =>
      rw [passStart]
      split
      · rename_i h
        have hset : ({ oticket with start := start } : Ticket).type = .timeout interval := h
        rw [firstStart_cons_same hset, firstStart_cons_same h]
        rfl
      · rename_i h
        rw [firstStart_cons_other h, firstStart_cons_other h, ih]

/-- Timers with another interval are left alone. -/
theorem firstStart_passStart_other {other : Nat} (hne : other ≠ interval) :
    firstStart other (passStart interval start rest) = firstStart other rest := by
  induction rest with
  | nil => rfl
  | cons oticket rest ih =>
      rw [passStart]
      split
      · rename_i h
        have hother : oticket.type ≠ .timeout other := by
          rw [h]
          intro heq
          exact hne (WaiterType.timeout.inj heq).symm
        have hset : ({ oticket with start := start } : Ticket).type ≠ .timeout other := hother
        rw [firstStart_cons_other hset, firstStart_cons_other hother]
      · by_cases h : oticket.type = .timeout other
        · rw [firstStart_cons_same h, firstStart_cons_same h]
        · rw [firstStart_cons_other h, firstStart_cons_other h, ih]

theorem length_passStart : (passStart interval start rest).length = rest.length := by
  induction rest with
  | nil => rfl
  | cons oticket rest ih =>
      rw [passStart]
      split
      · rfl
      · rw [List.length_cons, List.length_cons, ih]

end First

/-! ### The loop as a map -/

/-- A timer takes the start that belongs to its interval, if there is one. -/
def Ticket.align (starts : Nat → Option Nat) (t : Ticket) : Ticket :=
  match t.type with
  | .timeout interval => { t with start := (starts interval).getD t.start }
  | _ => t

section Align

variable {starts starts' : Nat → Option Nat} {t : Ticket} {interval start : Nat}

theorem Ticket.align_timeout (h : t.type = .timeout interval) :
    t.align starts = { t with start := (starts interval).getD t.start } := by
  simp [align, h]

theorem Ticket.align_other (h : ∀ interval, t.type ≠ .timeout interval) : t.align starts = t := by
  unfold align
  cases htype : t.type with
  | timeout interval => exact absurd htype (h interval)
  | _ => rfl

@[simp] theorem Ticket.align_type (starts : Nat → Option Nat) (t : Ticket) :
    (t.align starts).type = t.type := by
  unfold align
  split <;> simp_all

/-- Only the start changes. -/
theorem Ticket.align_fields (starts : Nat → Option Nat) (t : Ticket) :
    t.align starts = { t with start := (t.align starts).start } := by
  unfold align
  split <;> rfl

theorem Ticket.align_congr (h : ∀ interval, t.type = .timeout interval → starts interval = starts' interval) :
    t.align starts = t.align starts' := by
  unfold align
  split
  · rename_i interval htype
    rw [h interval htype]
  · rfl

/-- Behind the map, the start that a timer had does not matter. -/
theorem map_align_passStart (starts : Nat → Option Nat) (h : (starts interval).isSome) (rest : List Ticket) :
    (passStart interval start rest).map (Ticket.align starts) = rest.map (Ticket.align starts) := by
  obtain ⟨first, hfirst⟩ := Option.isSome_iff_exists.mp h
  induction rest with
  | nil => rfl
  | cons oticket rest ih =>
      rw [passStart]
      split
      · rename_i htype
        have hset : ({ oticket with start := start } : Ticket).type = .timeout interval := htype
        rw [List.map_cons, List.map_cons, Ticket.align_timeout hset,
          Ticket.align_timeout htype, hfirst]
        rfl
      · rw [List.map_cons, List.map_cons, ih]

/-- What the tickets behind a timer come to, once it has passed on its start. -/
theorem map_align_cons (h : t.type = .timeout interval) (rest : List Ticket) :
    (passStart interval t.start rest).map
        (Ticket.align fun i => firstStart i (passStart interval t.start rest)) =
      rest.map (Ticket.align fun i => firstStart i (t :: rest)) := by
  have hhead : firstStart interval (t :: rest) = some t.start := firstStart_cons_same h
  have hisSome : (firstStart interval (t :: rest)).isSome := by
    rw [hhead]
    rfl
  rw [← map_align_passStart (fun i => firstStart i (t :: rest)) hisSome rest]
  apply List.map_congr_left
  intro oticket hmem
  apply Ticket.align_congr
  intro other htype
  by_cases hother : other = interval
  · subst hother
    obtain ⟨first, hfirst⟩ := firstStart_of_mem hmem htype
    rw [hhead, hfirst]
    rw [firstStart_passStart_same] at hfirst
    obtain ⟨-, -, rfl⟩ := Option.map_eq_some_iff.mp hfirst
    rfl
  · rw [firstStart_passStart_other hother, firstStart_cons_other]
    rw [h]
    intro heq
    exact hother (WaiterType.timeout.inj heq).symm

/-- A ticket that is no timer changes no first start. -/
theorem map_align_skip (h : ∀ interval, t.type ≠ .timeout interval) (rest : List Ticket) :
    rest.map (Ticket.align fun i => firstStart i rest) =
      rest.map (Ticket.align fun i => firstStart i (t :: rest)) := by
  apply List.map_congr_left
  intro oticket _
  apply Ticket.align_congr
  intro interval _
  rw [firstStart_cons_other (h interval)]

end Align

/-- The loop gives every timer the start of the first with its interval. -/
theorem synchronizeLoop_eq {n : Nat} {tickets : List Ticket} (hn : tickets.length ≤ n) :
    synchronizeLoop n tickets = tickets.map (Ticket.align fun i => firstStart i tickets) := by
  induction n generalizing tickets with
  | zero =>
      rw [List.length_eq_zero_iff.mp (Nat.le_zero.mp hn)]
      rfl
  | succ n ih =>
      cases tickets with
      | nil => rfl
      | cons ticket rest =>
          have hrest : rest.length ≤ n := Nat.le_of_succ_le_succ hn
          rw [synchronizeLoop, List.map_cons]
          cases htype : ticket.type with
          | timeout interval =>
              have hhead : ticket.align (fun i => firstStart i (ticket :: rest)) = ticket := by
                rw [Ticket.align_timeout htype, firstStart_cons_same htype]
                rfl
              dsimp only
              rw [ih (by rwa [length_passStart]), map_align_cons htype, hhead]
          | null | fd =>
              have hother : ∀ interval, ticket.type ≠ .timeout interval := by
                intro interval heq
                rw [htype] at heq
                cases heq
              dsimp only
              rw [ih hrest, map_align_skip hother, Ticket.align_other hother]

/-! ### Timers in step -/

/-- The tickets `after` are the tickets `before` with their timers in step. -/
structure InStep (before after : List Ticket) : Prop where
  length : after.length = before.length
  /-- Nothing but a start changes. -/
  fields : ∀ (i : Nat) (t t' : Ticket), before[i]? = some t → after[i]? = some t' →
    t' = { t with start := t'.start }
  /-- The starts of other tickets do not change. -/
  others : ∀ (i : Nat) (t : Ticket), before[i]? = some t → (∀ interval, t.type ≠ .timeout interval) →
    after[i]? = some t
  /-- A timer has the start that the first timer with its interval had. -/
  first : ∀ t ∈ after, ∀ interval, t.type = .timeout interval → firstStart interval before = some t.start
  /-- Two timers with the same interval have the same start. -/
  same : ∀ t ∈ after, ∀ t' ∈ after, ∀ interval, t.type = .timeout interval → t'.type = .timeout interval →
    t.start = t'.start

/-- The map brings the timers into step. -/
theorem inStep_map (tickets : List Ticket) :
    InStep tickets (tickets.map (Ticket.align fun i => firstStart i tickets)) := by
  have hfirst : ∀ t ∈ tickets.map (Ticket.align fun i => firstStart i tickets), ∀ interval,
      t.type = .timeout interval → firstStart interval tickets = some t.start := by
    intro t hmem interval htype
    obtain ⟨t, ht, rfl⟩ := List.mem_map.mp hmem
    rw [Ticket.align_type] at htype
    obtain ⟨start, hstart⟩ := firstStart_of_mem ht htype
    rw [Ticket.align_timeout htype, hstart]
    rfl
  constructor
  case length => exact List.length_map _
  case fields =>
      intro i t t' ht ht'
      rw [List.getElem?_map, ht] at ht'
      obtain rfl := Option.some.inj ht'
      exact Ticket.align_fields _ t
  case others =>
      intro i t ht hother
      rw [List.getElem?_map, ht, Option.map_some, Ticket.align_other hother]
  case first => exact hfirst
  case same =>
      intro t ht t' ht' interval htype htype'
      have h := hfirst t ht interval htype
      rw [hfirst t' ht' interval htype'] at h
      exact (Option.some.inj h).symm

/-- Timers that are in step stay as they are. -/
theorem map_align_of_first {tickets : List Ticket}
    (h : ∀ t ∈ tickets, ∀ interval, t.type = .timeout interval → firstStart interval tickets = some t.start) :
    tickets.map (Ticket.align fun i => firstStart i tickets) = tickets := by
  conv => rhs; rw [← List.map_id tickets]
  apply List.map_congr_left
  intro t ht
  by_cases hother : ∀ interval, t.type ≠ .timeout interval
  · exact Ticket.align_other hother
  · obtain ⟨interval, htype⟩ := not_forall_not.mp hother
    rw [Ticket.align_timeout htype, h t ht interval htype]
    rfl

/-- The map does not change which timer is the first with its interval. -/
theorem firstStart_map_align (starts : Nat → Option Nat) (tickets : List Ticket) (interval : Nat) :
    firstStart interval (tickets.map (Ticket.align starts)) =
      (firstStart interval tickets).map fun start => (starts interval).getD start := by
  induction tickets with
  | nil => rfl
  | cons t tickets ih =>
      rw [List.map_cons]
      by_cases h : t.type = .timeout interval
      · rw [firstStart_cons_same ((Ticket.align_type starts t).trans h), firstStart_cons_same h,
          Ticket.align_timeout h]
        rfl
      · have halign : (t.align starts).type ≠ .timeout interval := by rwa [Ticket.align_type]
        rw [firstStart_cons_other halign, firstStart_cons_other h, ih]

/-- `waiter_synchronize` brings the timers into step, changes nothing else, and a second call changes
    nothing. -/
theorem waiterSynchronize_inStep (w : Waiter) :
    InStep w.tickets (waiterSynchronize w).tickets ∧ (waiterSynchronize w).pollset = w.pollset ∧
      (waiterSynchronize w).count = w.count ∧
      waiterSynchronize (waiterSynchronize w) = waiterSynchronize w := by
  have htickets : (waiterSynchronize w).tickets =
      w.tickets.map (Ticket.align fun i => firstStart i w.tickets) := synchronizeLoop_eq (Nat.le_refl _)
  have hstep := inStep_map w.tickets
  rw [← htickets] at hstep
  have hagain : synchronizeLoop (waiterSynchronize w).tickets.length (waiterSynchronize w).tickets =
      (waiterSynchronize w).tickets := by
    rw [synchronizeLoop_eq (Nat.le_refl _)]
    apply map_align_of_first
    intro t ht interval htype
    rw [← hstep.first t ht interval htype, htickets, firstStart_map_align]
    cases firstStart interval w.tickets <;> rfl
  refine ⟨hstep, rfl, rfl, ?_⟩
  rw [waiterSynchronize, hagain]

/-- The second and the third timer of 5 ms take the start of the first; the one of 7 ms keeps its own. -/
example : (synchronizeLoop 4 [⟨.timeout 5, none, 1, false⟩, ⟨.timeout 7, none, 2, false⟩,
    ⟨.timeout 5, none, 3, false⟩, ⟨.timeout 5, none, 4, true⟩]).map Ticket.start = [1, 2, 1, 1] := by rfl

end Qrtr
