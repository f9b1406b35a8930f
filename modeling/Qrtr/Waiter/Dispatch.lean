/-
Module: Qrtr.Waiter.Dispatch
Layer: Waiter
Purpose: The descriptors that `waiter_wait` serves. One wait serves one descriptor, that of the first slot
  that `poll` found ready, and none if the wait goes without `poll`. Over a run of waits the callback of a
  descriptor runs in just the waits that serve it, as long as it has cleared its mark every time; and a timer
  that is behind in every wait keeps all descriptors waiting.
Imports: Waiter.Deadlines
Main exports: FirstReady, WaitLog.Serves, Dispatches, waiterWait_dispatches, Dispatches.one_descriptor, waits,
  Turns, waits_dispatch, Behind, overrun_starves
Open obligations: none
-/
import Qrtr.Waiter.Deadlines

namespace Qrtr

/-! ### The slot that counts -/

/-- The slot of `fd` is the first one that is ready. -/
def FirstReady (fds : List Int) (revents : Nat → Bool) (fd : Int) : Prop :=
  ∃ k, fds[k]? = some fd ∧ revents k = true ∧ ∀ j < k, revents j = false

/-- The descriptors of the tickets, in the order of their slots. -/
def Waiter.fds (w : Waiter) : List Int := w.tickets.filterMap Ticket.fd?

/-- What `poll` says decides for `fd`: it is called, it finds something, and `fd` comes first. -/
def WaitLog.Serves (log : WaitLog) (wake : Wake) (fds : List Int) (fd : Int) : Prop :=
  (log.timeout ≠ none ∧ 0 < wake.rc) ∧ FirstReady fds wake.revents fd

/-- Two descriptors are not served at once. -/
theorem FirstReady.unique {fds : List Int} {revents : Nat → Bool} {fd fd' : Int}
    (h : FirstReady fds revents fd) (h' : FirstReady fds revents fd') : fd = fd' := by
  obtain ⟨k, hk, hready, hbefore⟩ := h
  obtain ⟨k', hk', hready', hbefore'⟩ := h'
  rcases Nat.lt_trichotomy k k' with hlt | rfl | hgt
  · rw [hbefore' k hlt] at hready
    cases hready
  · exact Option.some.inj (hk.symm.trans hk')
  · rw [hbefore k' hgt] at hready'
    cases hready'

/-- The cause that `pollset_wait` keeps is the first slot that is ready. -/
theorem pollsetCauseFd_iff {ps : Pollset} {rc : Int} (hrc : 0 < rc) (revents : Nat → Bool) (fd : Int) :
    pollsetCauseFd (pollsetWait ps rc revents) fd = true ↔ FirstReady ps.fds revents fd := by
  rw [pollsetWait, if_neg (Int.not_le.2 hrc)]
  unfold pollsetCauseFd FirstReady
  dsimp only
  cases hfind : (List.range ps.fds.length).find? revents with
  | none =>
      rw [List.find?_range_eq_none] at hfind
      constructor
      · intro h
        cases h
      · rintro ⟨k, hk, hready, -⟩
        have hnot := hfind k (List.getElem?_eq_some_iff.1 hk).1
        rw [hready] at hnot
        cases hnot
  | some i =>
      obtain ⟨hready, -, hbefore⟩ := List.find?_range_eq_some.1 hfind
      have hbefore' : ∀ j < i, revents j = false := by
        intro j hj
        simpa using hbefore j hj
      dsimp only
      constructor
      · intro h
        exact ⟨i, eq_of_beq h, hready, hbefore'⟩
      · rintro ⟨k, hk, hready', hfirst⟩
        -- no slot in front of either is ready
        have hsame : k = i := by
          rcases Nat.lt_trichotomy k i with hlt | heq | hgt
          · rw [hbefore' k hlt] at hready'
            cases hready'
          · exact heq
          · rw [hfirst i hgt] at hready
            cases hready
        rw [← hsame, hk]
        exact beq_self_eq_true _

/-! ### One ticket -/

section Descriptor

variable {ps : Pollset} {rc : Int} {now : Nat} {t : Ticket} {fd : Int}

/-- A ticket keeps what it waits for. -/
theorem wakeTicket_type (ps : Pollset) (rc : Int) (now : Nat) (t : Ticket) :
    (wakeTicket ps rc now t).1.type = t.type := by
  have hswitch : (wakeSwitch ps rc now t).1.type = t.type := by
    unfold wakeSwitch
    cases htype : t.type with
    | null => exact htype
    | fd filedes =>
        dsimp only
        split
        case isTrue => exact htype
        case isFalse => split <;> exact htype
    | timeout interval =>
        dsimp only
        split
        case isTrue => rfl
        case isFalse => exact htype
  unfold wakeTicket
  generalize wakeSwitch ps rc now t = r at hswitch ⊢
  obtain ⟨t', fresh⟩ := r
  cases fresh <;> exact hswitch

theorem Ticket.awake_type (acts : List (List TicketAction)) (i : Nat) :
    (t.awake ps rc now acts i).type = t.type := by
  unfold Ticket.awake
  split <;> exact wakeTicket_type ps rc now t

/-- A ticket with a descriptor is marked when its descriptor is the cause. -/
theorem wakeTicket_fd (hfd : t.fd? = some fd) :
    wakeTicket ps rc now t =
      if rc ≠ 0 ∧ pollsetCauseFd ps fd = true then ({ t with updated := true }, !t.updated)
      else (t, false) := by
  obtain ⟨type, callback, start, updated⟩ := t
  cases type with
  | null | timeout => cases hfd
  | fd filedes =>
      obtain rfl := Option.some.inj hfd
      unfold wakeTicket wakeSwitch
      dsimp only
      by_cases hzero : rc = 0
      · simp [hzero]
      · by_cases hcause : pollsetCauseFd ps filedes = true
        · -- a ticket that is not fresh has its mark already
          cases updated <;> simp [hzero, hcause]
        · simp [hzero, hcause]

/-- The callback of a ticket whose descriptor is the cause runs, unless the ticket has its mark. -/
theorem Ticket.call?_served (hfd : t.fd? = some fd) (hcause : rc ≠ 0 ∧ pollsetCauseFd ps fd = true)
    (i : Nat) :
    t.call? ps rc now i = if t.updated then none else t.callback.map fun cb =>
      ⟨i, cb, { t with updated := true }⟩ := by
  rw [Ticket.call?, wakeTicket_fd hfd, if_pos hcause]
  cases t.updated <;> rfl

theorem Ticket.awake_served (hfd : t.fd? = some fd) (hcause : rc ≠ 0 ∧ pollsetCauseFd ps fd = true)
    (acts : List (List TicketAction)) (i : Nat) :
    t.awake ps rc now acts i = { t with
      updated := decide (¬ (t.updated = false ∧ t.callback.isSome ∧ acts.getD i [] ≠ [])) } := by
  rw [Ticket.awake, Ticket.call?_served hfd hcause, wakeTicket_fd hfd, if_pos hcause]
  generalize acts.getD i [] = l
  cases t.updated <;> cases t.callback <;> cases l <;> rfl

/-- Any other one is left alone. -/
theorem Ticket.call?_passed (hfd : t.fd? = some fd) (hcause : ¬ (rc ≠ 0 ∧ pollsetCauseFd ps fd = true))
    (i : Nat) : t.call? ps rc now i = none := by
  rw [Ticket.call?, wakeTicket_fd hfd, if_neg hcause]
  rfl

theorem Ticket.awake_passed (hfd : t.fd? = some fd) (hcause : ¬ (rc ≠ 0 ∧ pollsetCauseFd ps fd = true))
    (acts : List (List TicketAction)) (i : Nat) : t.awake ps rc now acts i = t := by
  rw [Ticket.awake, Ticket.call?_passed hfd hcause, wakeTicket_fd hfd, if_neg hcause]
  rfl

end Descriptor

/-! ### One wait -/

/-- What one `waiter_wait` does for the descriptors, from `w` to `w'`. -/
structure Dispatches (wake : Wake) (w w' : Waiter) (log : WaitLog) : Prop where
  pollset : w'.pollset.isSome
  types : w'.tickets.map Ticket.type = w.tickets.map Ticket.type
  /-- A ticket of the descriptor that is served is marked, unless its callback clears the mark again. The
      callback runs once, and sees the mark, if the ticket was not marked before. -/
  served : ∀ i t fd, w.tickets[i]? = some t → t.fd? = some fd → log.Serves wake w.fds fd →
    w'.tickets[i]? = some { t with
      updated := decide (¬ (t.updated = false ∧ t.callback.isSome ∧ wake.acts.getD i [] ≠ [])) } ∧
    (log.calls.filter fun call => call.position = i) =
      if t.updated then [] else (t.callback.map fun cb => Call.mk i cb { t with updated := true }).toList
  /-- A ticket of another descriptor is left alone. -/
  passed : ∀ i t fd, w.tickets[i]? = some t → t.fd? = some fd → ¬ log.Serves wake w.fds fd →
    w'.tickets[i]? = some t ∧ (log.calls.filter fun call => call.position = i) = []
  /-- Whatever runs runs for a ticket of the waiter. -/
  calls : ∀ call ∈ log.calls, ∃ t, w.tickets[call.position]? = some t ∧ call.ticket.type = t.type

/-- Callbacks that keep to their own tickets leave the poll set alone. -/
theorem wakeLoop_pollset (ps : Pollset) (rc : Int) (now : Nat) {acts : List (List TicketAction)}
    (hown : KeepsOwnFlag acts) (fuel i : Nat) (w : Waiter) :
    (wakeLoop ps rc now acts fuel i w).1.pollset = w.pollset := by
  induction fuel generalizing i w with
  | zero => rfl
  | succ fuel ih =>
      cases ht : w.tickets[i]? with
      | none => rw [wakeLoop, ht]
      | some t =>
          rw [wakeLoop_step ps rc now hown ht, ih]
          rfl

/-- Tickets at the same positions with the same types. -/
theorem map_type_eq {tickets tickets' : List Ticket} {f : Nat → Ticket → Ticket}
    (h : ∀ j, tickets'[j]? = tickets[j]?.map (f j)) (hf : ∀ j t, (f j t).type = t.type) :
    tickets'.map Ticket.type = tickets.map Ticket.type := by
  apply List.ext_getElem?
  intro j
  rw [List.getElem?_map, List.getElem?_map, h j]
  cases tickets[j]? with
  | none => rfl
  | some t => exact congrArg some (hf j t)

section Waiting

variable {wake : Wake} {w w' : Waiter} {log : WaitLog} {ps : Pollset} {rc : Int}

/-- When the second loop has dealt with every ticket on its own. -/
theorem dispatches_of_woken (hwoken : Woken ps rc wake.after wake.acts 0 w w' log.calls)
    (hpollset : w'.pollset.isSome)
    (hcause : ∀ fd, (rc ≠ 0 ∧ pollsetCauseFd ps fd = true) ↔ log.Serves wake w.fds fd) :
    Dispatches wake w w' log := by
  have htickets : ∀ i, w'.tickets[i]? = w.tickets[i]?.map (Ticket.awake ps rc wake.after wake.acts i) := by
    intro i
    rw [hwoken.tickets i, if_neg (Nat.not_lt_zero i)]
  have hcalls : ∀ i, (log.calls.filter fun call => call.position = i) =
      (w.tickets[i]?.bind (Ticket.call? ps rc wake.after i)).toList := by
    intro i
    rw [hwoken.calls i, if_neg (Nat.not_lt_zero i)]
  constructor
  case pollset => exact hpollset
  case types => exact map_type_eq htickets fun j t => Ticket.awake_type wake.acts j
  case served =>
      intro i t fd ht hfd hserves
      have hthis := (hcause fd).2 hserves
      constructor
      · rw [htickets i, ht, Option.map_some, Ticket.awake_served hfd hthis]
      · rw [hcalls i, ht, Option.bind_some, Ticket.call?_served hfd hthis]
        split <;> rfl
  case passed =>
      intro i t fd ht hfd hserves
      have hother := fun h => hserves ((hcause fd).1 h)
      constructor
      · rw [htickets i, ht, Option.map_some, Ticket.awake_passed hfd hother]
      · rw [hcalls i, ht, Option.bind_some, Ticket.call?_passed hfd hother]
        rfl
  case calls =>
      intro call hcall
      have hmem : call ∈ log.calls.filter fun c => c.position = call.position :=
        List.mem_filter.2 ⟨hcall, decide_eq_true rfl⟩
      rw [hcalls, Option.mem_toList, Option.bind_eq_some_iff] at hmem
      obtain ⟨t, ht, hrun⟩ := hmem
      obtain ⟨cb, -, hview⟩ := Option.map_eq_some_iff.1 hrun
      refine ⟨t, ht, ?_⟩
      rw [← hview]
      exact wakeTicket_type ps rc wake.after t

/-- `waiter_wait` serves the descriptor that comes first. -/
theorem waiterWait_dispatches (hps : w.pollset.isSome) (hown : KeepsOwnFlag wake.acts) :
    ∃ w' log, waiterWait wake w = some (w', log) ∧ Dispatches wake w w' log := by
  obtain ⟨ps, hps⟩ := Option.isSome_iff_exists.1 hps
  have hfilled := foldl_fillTicket_filled w.tickets (pollsetReset ps, u64Max)
  unfold waiterWait
  rw [hps]
  dsimp only
  generalize w.tickets.foldl fillTicket (pollsetReset ps, u64Max) = acc at hfilled ⊢
  obtain ⟨filled, termTime⟩ := acc
  dsimp only at hfilled ⊢
  have hfds : filled.fds = w.fds := by
    rw [hfilled]
    rfl
  generalize htimeout : pollTimeout termTime wake.before = timeout
  generalize hrc : (if timeout.isSome then wake.rc else 0) = rc
  have hrc' : 0 < rc ↔ timeout ≠ none ∧ 0 < wake.rc := by
    rw [← hrc]
    cases timeout <;> simp
  by_cases hneg : rc < 0
  · rw [if_pos hneg]
    have hnot : ∀ fd, ¬ (WaitLog.mk filled timeout []).Serves wake w.fds fd := by
      intro fd hserves
      have hpos := hrc'.2 hserves.1
      omega
    exact ⟨_, _, rfl, rfl, rfl, fun i t fd _ _ hserves => absurd hserves (hnot fd),
      fun i t fd ht _ _ => ⟨ht, rfl⟩, fun call hcall => absurd hcall List.not_mem_nil⟩
  · rw [if_neg hneg]
    generalize hset : ({ w with pollset := some (pollsetWait filled rc wake.revents) } : Waiter) = w₁
    have htickets : w.tickets = w₁.tickets := by rw [← hset]
    have hfuel : w₁.tickets.length ≤ 0 + wake.fuel w₁ := by
      rw [Nat.zero_add]
      exact Nat.le_add_right _ _
    have hwoken := wakeLoop_woken (pollsetWait filled rc wake.revents) rc wake.after hown hfuel
    have hpollset : (wakeLoop (pollsetWait filled rc wake.revents) rc wake.after wake.acts (wake.fuel w₁) 0
        w₁).1.pollset.isSome := by
      rw [wakeLoop_pollset _ _ _ hown, ← hset]
      rfl
    refine ⟨_, _, rfl, dispatches_of_woken ⟨htickets ▸ hwoken.tickets, htickets ▸ hwoken.calls⟩ hpollset
      fun fd => ?_⟩
    unfold WaitLog.Serves
    rw [← hrc', ← hfds]
    constructor
    · rintro ⟨hne, hcause⟩
      have hpos : 0 < rc := by omega
      exact ⟨hpos, (pollsetCauseFd_iff hpos wake.revents fd).1 hcause⟩
    · rintro ⟨hpos, hfirst⟩
      exact ⟨by omega, (pollsetCauseFd_iff hpos wake.revents fd).2 hfirst⟩

end Waiting

/-! ### Waits in a row -/

/-- One `waiter_wait` after the other. -/
def waits (w : Waiter) (wakes : List Wake) : Option (Waiter × List WaitLog) :=
  Run.attempt (fun w wake => waiterWait wake w) w wakes

/-- The wait `now`, after the ones in `past`, is one for the callback of the ticket `t` at the position `i`: its
    descriptor `fd` is served, and it has no mark, since none of the waits before has left it with one. -/
structure Turns (fds : List Int) (i : Nat) (t : Ticket) (fd : Int) (past : List (Wake × WaitLog))
    (now : Wake × WaitLog) : Prop where
  serves : now.2.Serves now.1 fds fd
  unmarked : t.updated = false
  cleared : ∀ p ∈ past, p.2.Serves p.1 fds fd → p.1.acts.getD i [] ≠ []

section Row

variable {wake : Wake} {w w' : Waiter} {log : WaitLog} {i : Nat} {t : Ticket} {fd : Int} {cb : Callback}

theorem Dispatches.fds (h : Dispatches wake w w' log) : w'.fds = w.fds := by
  have hmap : ∀ tickets : List Ticket, tickets.filterMap Ticket.fd? =
      (tickets.map Ticket.type).filterMap fun type => Ticket.fd? ⟨type, none, 0, false⟩ := by
    intro tickets
    rw [List.filterMap_map]
    rfl
  rw [Waiter.fds, Waiter.fds, hmap, hmap, h.types]

/-- What a wait leaves of a ticket with a descriptor: at most its mark is new. -/
theorem Dispatches.ticket (h : Dispatches wake w w' log) (ht : w.tickets[i]? = some t) (hfd : t.fd? = some fd)
    (hcb : t.callback = some cb) :
    ∃ updated, w'.tickets[i]? = some { t with updated := updated } ∧
      (updated = false ↔ t.updated = false ∧ (log.Serves wake w.fds fd → wake.acts.getD i [] ≠ [])) := by
  by_cases hserves : log.Serves wake w.fds fd
  · refine ⟨_, (h.served i t fd ht hfd hserves).1, ?_⟩
    simp [hcb, hserves]
  · exact ⟨t.updated, (h.passed i t fd ht hfd hserves).1, by simp [hserves]⟩

/-- A callback that runs for a descriptor runs because this one is served. -/
theorem Dispatches.serves_of_call (h : Dispatches wake w w' log) {call : Call} (hcall : call ∈ log.calls)
    (hfd : call.ticket.fd? = some fd) : log.Serves wake w.fds fd := by
  obtain ⟨t, ht, htype⟩ := h.calls call hcall
  have hfd' : t.fd? = some fd := by
    rw [← hfd]
    unfold Ticket.fd?
    rw [htype]
  by_contra hserves
  have hmem : call ∈ log.calls.filter fun c => c.position = call.position :=
    List.mem_filter.2 ⟨hcall, decide_eq_true rfl⟩
  rw [(h.passed _ t fd ht hfd' hserves).2] at hmem
  exact absurd hmem List.not_mem_nil

/-- One wait serves one descriptor. -/
theorem Dispatches.one_descriptor (h : Dispatches wake w w' log) {call call' : Call} {fd' : Int}
    (hcall : call ∈ log.calls) (hfd : call.ticket.fd? = some fd) (hcall' : call' ∈ log.calls)
    (hfd' : call'.ticket.fd? = some fd') : fd = fd' :=
  (h.serves_of_call hcall hfd).2.unique (h.serves_of_call hcall' hfd').2

/-- The callback of a descriptor in a wait. -/
theorem Dispatches.call (h : Dispatches wake w w' log) (ht : w.tickets[i]? = some t) (hfd : t.fd? = some fd)
    (hcb : t.callback = some cb) :
    (Turns w.fds i t fd [] (wake, log) →
      (log.calls.filter fun call => call.position = i) = [⟨i, cb, { t with updated := true }⟩]) ∧
    (¬ Turns w.fds i t fd [] (wake, log) → (log.calls.filter fun call => call.position = i) = []) := by
  constructor
  · intro hturn
    rw [(h.served i t fd ht hfd hturn.serves).2, hturn.unmarked, hcb]
    rfl
  · intro hturn
    by_cases hserves : log.Serves wake w.fds fd
    · rw [(h.served i t fd ht hfd hserves).2]
      cases hupdated : t.updated with
      | true => rfl
      | false => exact absurd ⟨hserves, hupdated, fun p hp => absurd hp List.not_mem_nil⟩ hturn
    · exact (h.passed i t fd ht hfd hserves).2

/-- The first of the waits in front of the others. -/
theorem Turns.cons_iff {past : List (Wake × WaitLog)} {now : Wake × WaitLog} {fds : List Int} {updated : Bool}
    (h : updated = false ↔ t.updated = false ∧ (log.Serves wake fds fd → wake.acts.getD i [] ≠ [])) :
    Turns fds i { t with updated := updated } fd past now ↔ Turns fds i t fd ((wake, log) :: past) now := by
  constructor
  · rintro ⟨hserves, hunmarked, hcleared⟩
    obtain ⟨hbefore, hfirst⟩ := h.1 hunmarked
    exact ⟨hserves, hbefore, List.forall_mem_cons.2 ⟨hfirst, hcleared⟩⟩
  · rintro ⟨hserves, hunmarked, hcleared⟩
    obtain ⟨hfirst, hrest⟩ := List.forall_mem_cons.1 hcleared
    exact ⟨hserves, h.2 ⟨hunmarked, hfirst⟩, hrest⟩

end Row

/-- In a row of waits the callback of a descriptor runs in just those that are its turn, once in each, and sees
    its ticket marked. -/
theorem waits_dispatch {w : Waiter} {wakes : List Wake} (hps : w.pollset.isSome)
    (hown : ∀ wake ∈ wakes, KeepsOwnFlag wake.acts) :
    ∃ w' logs, waits w wakes = some (w', logs) ∧ logs.length = wakes.length ∧
      ∀ i t fd cb, w.tickets[i]? = some t → t.fd? = some fd → t.callback = some cb →
        ∀ past now later, wakes.zip logs = past ++ now :: later →
          (Turns w.fds i t fd past now →
            (now.2.calls.filter fun call => call.position = i) = [⟨i, cb, { t with updated := true }⟩]) ∧
          (¬ Turns w.fds i t fd past now → (now.2.calls.filter fun call => call.position = i) = []) := by
  induction wakes generalizing w with
  | nil =>
      refine ⟨w, [], rfl, rfl, fun i t fd cb _ _ _ past now later hzip => ?_⟩
      cases past <;> cases hzip
  | cons wake wakes ih =>
      obtain ⟨hthis, hrest⟩ := List.forall_mem_cons.1 hown
      obtain ⟨w₁, log, hwait, hd⟩ := waiterWait_dispatches hps hthis
      obtain ⟨w', logs, hwaits, hlength, hlater⟩ := ih hd.pollset hrest
      rw [waits] at hwaits
      refine ⟨w', log :: logs, ?_, congrArg (· + 1) hlength, ?_⟩
      · rw [waits, Run.attempt, hwait, Option.bind_some, hwaits]
        rfl
      · intro i t fd cb ht hfd hcb past now later hzip
        rw [List.zip_cons_cons] at hzip
        cases past with
        | nil =>
            obtain ⟨rfl, -⟩ := List.cons.inj hzip
            exact hd.call ht hfd hcb
        | cons p past =>
            obtain ⟨rfl, htail⟩ := List.cons.inj hzip
            obtain ⟨updated, ht₁, hmark⟩ := hd.ticket ht hfd hcb
            have hnext := hlater i { t with updated := updated } fd cb ht₁ hfd hcb past now later htail
            rw [hd.fds, Turns.cons_iff hmark] at hnext
            exact hnext

/-- Two descriptors; the callback of the second one does not clear its mark. -/
def sampleDescriptors : Waiter :=
  ⟨[⟨.fd 3, some 0, 0, false⟩, ⟨.fd 4, some 1, 0, false⟩], some (pollsetCreate 33), 2⟩

/-- Both are ready, then only the second one, twice. -/
def sampleWakes : List Wake :=
  [⟨5, 6, 2, fun _ => true, [[.clear 0]]⟩, ⟨7, 8, 1, fun k => k == 1, [[.clear 0]]⟩,
    ⟨9, 10, 1, fun k => k == 1, [[.clear 0]]⟩]

theorem waits_dispatch_sample :
    ∃ w' logs, waits sampleDescriptors sampleWakes = some (w', logs) ∧ logs.length = sampleWakes.length ∧
      ∀ i t fd cb, sampleDescriptors.tickets[i]? = some t → t.fd? = some fd → t.callback = some cb →
        ∀ past now later, sampleWakes.zip logs = past ++ now :: later →
          (Turns sampleDescriptors.fds i t fd past now →
            (now.2.calls.filter fun call => call.position = i) = [⟨i, cb, { t with updated := true }⟩]) ∧
          (¬ Turns sampleDescriptors.fds i t fd past now →
            (now.2.calls.filter fun call => call.position = i) = []) := by
  apply waits_dispatch rfl
  intro wake hwake i a ha
  simp only [sampleWakes, List.mem_cons, List.not_mem_nil, or_false] at hwake
  rcases hwake with rfl | rfl | rfl
  all_goals
    cases i with
    | zero => exact List.mem_singleton.1 ha
    | succ i => exact absurd ha List.not_mem_nil

/-! ### A timer that is behind -/

/-- Every wait comes too late for a timer that was started at a time: its deadline has passed already. -/
def Behind (interval : Nat) : Nat → List Wake → Prop
  | _, [] => True
  | start, wake :: wakes =>
      start + interval ≤ wake.before ∧ wake.before ≤ wake.after ∧ Behind interval wake.after wakes

/-- No deadline is out of range, whenever the timers are started. -/
def ClockFits (types : List WaiterType) (wakes : List Wake) : Prop :=
  ∀ wake ∈ wakes, ∀ interval, .timeout interval ∈ types → wake.after + interval < 2 ^ 63

section Overrun

variable {wake : Wake} {w w' : Waiter} {log : WaitLog} {i interval : Nat} {t : Ticket}

theorem Ticket.deadline?_timeout (h : t.type = .timeout interval) :
    t.deadline? = some (t.start + interval) := by
  rw [Ticket.deadline?, h]

theorem Ticket.type_of_deadline? {d : Nat} (h : t.deadline? = some d) :
    ∃ interval, t.type = .timeout interval := by
  unfold Ticket.deadline? at h
  cases htype : t.type with
  | timeout interval => exact ⟨interval, rfl⟩
  | null | fd =>
      rw [htype] at h
      cases h

/-- A wait leaves deadlines that fit. -/
theorem KeepsDeadlines.fits (h : KeepsDeadlines wake w w' log) (hd : Dispatches wake w w' log)
    (hpoll : ¬ log.PollFails wake) (hfit : DeadlinesFit w.tickets)
    (hclock : ∀ interval, .timeout interval ∈ w.tickets.map Ticket.type → wake.after + interval < 2 ^ 63) :
    DeadlinesFit w'.tickets := by
  intro t' ht' d' hd'
  obtain ⟨interval, htype'⟩ := Ticket.type_of_deadline? hd'
  obtain ⟨j, hj⟩ := List.mem_iff_getElem?.1 ht'
  -- the ticket that was there before, of the same type
  have hsame := congrArg (fun l => l[j]?) hd.types
  simp only [List.getElem?_map, hj, Option.map_some] at hsame
  obtain ⟨t, ht, htype⟩ := Option.map_eq_some_iff.1 hsame.symm
  rw [htype'] at htype
  have hdeadline := Ticket.deadline?_timeout htype
  by_cases hdue : t.start + interval ≤ wake.after
  · obtain ⟨⟨updated, hleft, -⟩, -⟩ := h.due hpoll j t _ ht hdeadline hdue
    rw [hj] at hleft
    rw [Ticket.deadline?_timeout htype'] at hd'
    obtain rfl := Option.some.inj hd'
    rw [Option.some.inj hleft]
    exact hclock interval (htype ▸ List.mem_map_of_mem (List.mem_of_getElem? ht))
  · obtain ⟨hleft, -⟩ := h.early hpoll j t _ ht hdeadline (Nat.lt_of_not_le hdue)
    rw [hj] at hleft
    rw [Option.some.inj hleft] at hd'
    exact hfit t (List.mem_of_getElem? ht) d' hd'

end Overrun

/-- With a timer that is behind in every wait, `poll` is not called in any of them, and no descriptor is
    served. -/
theorem overrun_starves {w : Waiter} {wakes : List Wake} {i interval : Nat} {t : Ticket}
    (hps : w.pollset.isSome) (hfit : DeadlinesFit w.tickets) (hown : ∀ wake ∈ wakes, KeepsOwnFlag wake.acts)
    (hclock : ClockFits (w.tickets.map Ticket.type) wakes) (ht : w.tickets[i]? = some t)
    (htype : t.type = .timeout interval) (hbehind : Behind interval t.start wakes) :
    ∃ w' logs, waits w wakes = some (w', logs) ∧ logs.length = wakes.length ∧
      ∀ log ∈ logs, log.timeout = none ∧ ∀ call ∈ log.calls, call.ticket.fd? = none := by
  induction wakes generalizing w t with
  | nil => exact ⟨w, [], rfl, rfl, fun log hlog => absurd hlog List.not_mem_nil⟩
  | cons wake wakes ih =>
      obtain ⟨hthis, hrest⟩ := List.forall_mem_cons.1 hown
      obtain ⟨hnow, hlater⟩ := List.forall_mem_cons.1 hclock
      obtain ⟨hlate, hclockwise, hbehind⟩ := hbehind
      obtain ⟨w₁, log, hwait, hd⟩ := waiterWait_dispatches hps hthis
      obtain ⟨ps, hps⟩ := Option.isSome_iff_exists.1 hps
      obtain ⟨w₂, log₂, hwait₂, hk⟩ := waiterWait_keepsDeadlines hps hfit hthis
      obtain ⟨rfl, rfl⟩ := Prod.mk.inj (Option.some.inj (hwait₂.symm.trans hwait))
      have hdeadline := Ticket.deadline?_timeout htype
      have hskipped : log₂.timeout = none := hk.skipped.2 ⟨t, List.mem_of_getElem? ht, _, hdeadline, hlate⟩
      have hpoll : ¬ log₂.PollFails wake := fun hfails => hfails.1 hskipped
      obtain ⟨⟨updated, ht₁, -⟩, -⟩ := hk.due hpoll i t _ ht hdeadline (by omega)
      obtain ⟨w', logs, hwaits, hlength, hall⟩ := ih hd.pollset (hk.fits hd hpoll hfit hnow) hrest
        (hd.types ▸ hlater) ht₁ htype hbehind
      rw [waits] at hwaits
      refine ⟨w', log₂ :: logs, ?_, congrArg (· + 1) hlength, List.forall_mem_cons.2 ⟨⟨hskipped, ?_⟩, hall⟩⟩
      · rw [waits, Run.attempt, hwait, Option.bind_some, hwaits]
        rfl
      · intro call hcall
        cases hfd : call.ticket.fd? with
        | none => rfl
        | some fd => exact absurd hskipped (hd.serves_of_call hcall hfd).1.1

/-- A timer of five milliseconds and a descriptor that is ready all the time. -/
def sampleBehind : Waiter :=
  ⟨[⟨.timeout 5, none, 0, false⟩, ⟨.fd 3, some 0, 0, false⟩], some (pollsetCreate 33), 2⟩

/-- Between two waits six milliseconds pass. -/
theorem overrun_starves_sample :
    ∃ w' logs, waits sampleBehind [⟨6, 6, 1, fun _ => true, []⟩, ⟨12, 12, 1, fun _ => true, []⟩] =
        some (w', logs) ∧ logs.length = 2 ∧
      ∀ log ∈ logs, log.timeout = none ∧ ∀ call ∈ log.calls, call.ticket.fd? = none := by
  refine overrun_starves (i := 0) (t := ⟨.timeout 5, none, 0, false⟩) rfl ?_ ?_ ?_ rfl rfl ?_
  · intro t ht d hd
    simp only [sampleBehind, List.mem_cons, List.not_mem_nil, or_false] at ht
    rcases ht with rfl | rfl
    · cases hd
      decide
    · cases hd
  · intro wake hwake i a ha
    simp only [List.mem_cons, List.not_mem_nil, or_false] at hwake
    rcases hwake with rfl | rfl <;> exact absurd ha (by simp)
  · intro wake hwake interval hmem
    have hinterval : interval = 5 := by simpa [sampleBehind] using hmem
    simp only [List.mem_cons, List.not_mem_nil, or_false] at hwake
    subst hinterval
    rcases hwake with rfl | rfl <;> decide
  · exact ⟨by decide, by decide, by decide, by decide, trivial⟩

end Qrtr
