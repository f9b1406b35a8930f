/-
Module: Qrtr.Records.Main
Layer: Records
Purpose: `main` of `ns.c`: how it sets itself up, and its loop, in which `waiter_wait` waits for the control
  socket and calls `ctrl_port_fn`. Put together the parts do what each of them promises: `poll` is told to
  wait for the socket, and for as long as it takes; what arrives when it answers is handled once and in
  order, until a `recvfrom` brings nothing. Command line, log and `fork` are left out but for the end of the
  parent.
Imports: Qrtr.Records.Safety, Qrtr.Waiter.Core
Main exports: Setup, Daemon, mainStart, Turn, mainTurn, mainRun, Idle, serve, handled, main_serves
Open obligations: none
-/
import Qrtr.Records.Safety
import Qrtr.Waiter.Core

namespace Qrtr.Records

open Run

/-! ### Setting up -/

/-- What `bind` answers. -/
inductive Bound where
  | bound
  | inUse
  | failed
deriving DecidableEq

/-- What `main` gets from outside in front of its loop: whether `waiter_create` and `map_create` have memory,
    the control socket and what `getsockname` says is its node, the answers of `bind` and of `sendto`,
    whether this process is the one that goes on, and whether there is memory for the ticket. -/
structure Setup where
  waiter : Bool
  nodes : Bool
  sock : Int
  name : Option UInt32
  bind : Bound
  hello : Bool
  stack : Mem
  stays : Bool
  ticket : Allocs

/-- How `main` ends in front of its loop: `exit` with a status and what it logs, or `go_dormant`. -/
inductive Stop where
  | exit (status : Nat) (text : Option String)
  | dormant
deriving DecidableEq

/-- The daemon: the name server and the waiter. -/
structure Daemon where
  ns : Ns
  waiter : Waiter

/-- `say_hello`. -/
def sayHello (w : Exec) : Int × Exec :=
  let r := w.sendto .sayHello bcastSq (helloPkt w.order)
  if r.1 < 0 then r else (0, r.2)

/-- `main` up to `bind`: the local node. -/
def mainBind (u : Setup) : Except Stop UInt32 :=
  if u.waiter = false then .error (.exit 1 (some "unable to create waiter"))
  else if u.nodes = false then .error (.exit 1 (some "unable to create node map"))
  else if u.sock < 0 then .error (.exit 1 (some "unable to create control socket"))
  else
    match u.name with
    | none => .error (.exit 1 (some "getsockname()"))
    | some localNode =>
        if u.bind = .inUse then .error .dormant
        else if u.bind = .failed then .error (.exit 1 (some "bind control socket"))
        else .ok localNode

/-- `main` up to its loop, and what it sends. It follows a NULL pointer if the ticket could not be added. -/
def mainStart (order : HostOrder) (memory : Links Addr) (u : Setup) :
    Option (Except Stop (Daemon × List Msg)) :=
  match mainBind u with
  | .error stop => some (.error stop)
  | .ok localNode =>
      let r := sayHello
        { nsInit order localNode memory with stack := u.stack, allocs := [], sends := [u.hello], sent := [] }
      if r.1 ≠ 0 then some (.error (.exit 1 (some "unable to say hello")))
      else if u.stays = false then some (.error (.exit 0 none))
      else
        match waiterAddFd u.ticket waiterCreate u.sock with
        | (_, none) => none
        | (waiter, some tkt) =>
            some (.ok (⟨r.2.toNs, waiterTicketCallback waiter tkt (some 0)⟩, r.2.sent))

/-! ### The loop -/

/-- What one turn of the loop gets from outside: the clock in front of `poll` and behind it, the answer of
    `poll`, and what `recvfrom` brings to the callback of the ticket at each position. Nothing at all, also
    when it fails, is an empty datagram. -/
structure Turn where
  before : Nat
  after : Nat
  rc : Int
  revents : Nat → Bool
  received : Nat → Event

/-- What `waiter_wait` gets: `ctrl_port_fn` clears the ticket that it is called for. -/
def Turn.wake (t : Turn) (w : Waiter) : Wake where
  before := t.before
  after := t.after
  rc := t.rc
  revents := t.revents
  acts := (List.range w.tickets.length).map fun i => [.clear i]

/-- What the outside gets to see of a turn: the descriptors and the timeout given to `poll`, the slots that
    there are for the descriptors, and the datagrams sent. -/
structure Round where
  fds : List Int
  slots : Nat
  timeout : Option Int
  sent : List Msg
deriving DecidableEq

/-- The callback `ctrl_port_fn`. -/
def callback (s : Ns) (e : Event) : Option (Ns × List Msg) := do
  let (_, w) ← ctrlPortFn (s.exec e) e.sq e.datagram e.stale
  some (w.toNs, w.sent)

/-- A turn of the loop, which is over when the socket is closed. -/
def mainTurn (d : Daemon) (t : Turn) : Option (Daemon × Option Round) :=
  if d.ns.sockOpen then do
    let (waiter, log) ← waiterWait (t.wake d.waiter) d.waiter
    let (ns, sent) ← attempt callback d.ns (log.calls.map fun call => t.received call.position)
    some (⟨ns, waiter⟩, some ⟨log.filled.fds, log.filled.capacity, log.timeout, sent.flatten⟩)
  else some (d, none)

/-- The loop. -/
def mainRun : Daemon → List Turn → Option (Daemon × List (Option Round)) := attempt mainTurn

/-! ### What the loop is for -/

/-- The socket has something to receive. -/
def Turn.Ready (t : Turn) : Prop := 0 < t.rc ∧ t.revents 0 = true

instance (t : Turn) : Decidable t.Ready := inferInstanceAs (Decidable (_ ∧ _))

/-- What the turns bring to the name server. -/
def handled (ts : List Turn) : List Event := (ts.filter fun t => t.Ready).map fun t => t.received 0

/-- A turn, with the name server without records and no waiter. -/
def serve (sock : Int) (v : Qrtr.Ns (Map Server)) (t : Turn) : Qrtr.Ns (Map Server) × Option Round :=
  if v.sockOpen then
    if t.Ready then ((Qrtr.nsStep v (t.received 0)).1,
      some ⟨[sock], 33, some (-1), (Qrtr.nsStep v (t.received 0)).2⟩)
    else (v, some ⟨[sock], 33, some (-1), []⟩)
  else (v, none)

/-- The ticket of the socket, as `main` adds it. -/
def ctrlTicket (sock : Int) : Ticket := ⟨.fd sock, some 0, 0, false⟩

/-- `poll` is given the socket, in a slot that is there, and no timeout. -/
structure Round.Polls (sock : Int) (round : Round) : Prop where
  fds : round.fds = [sock]
  slots : round.slots = 33
  timeout : round.timeout = some (-1)

/-- The waiter between two turns: the ticket of the socket, not marked, and a poll set. -/
structure Idle (sock : Int) (w : Waiter) : Prop where
  tickets : w.tickets = [ctrlTicket sock]
  pollset : ∃ ps, w.pollset = some ps ∧ ps.capacity = 33

/-! ### One turn -/

/-- With one descriptor in the poll set, the first slot is the cause or there is none. -/
theorem pollsetCauseFd_single {ps : Pollset} {sock : Int} {rc : Int} (hfds : ps.fds = [sock]) (hrc : 0 < rc)
    (revents : Nat → Bool) : pollsetCauseFd (pollsetWait ps rc revents) sock = revents 0 := by
  rw [pollsetWait, if_neg (Int.not_le.2 hrc), pollsetCauseFd, hfds]
  cases hfirst : revents 0 <;> simp [List.range_succ, List.find?, hfirst]

/-- The second loop at the ticket. -/
theorem wakeTicket_ctrl {ps : Pollset} {sock : Int} (hfds : ps.fds = [sock]) {t : Turn} (hrc : ¬ t.rc < 0) :
    wakeTicket (pollsetWait ps t.rc t.revents) t.rc t.after (ctrlTicket sock) =
      ({ ctrlTicket sock with updated := decide t.Ready }, decide t.Ready) := by
  have hswitch : wakeSwitch (pollsetWait ps t.rc t.revents) t.rc t.after (ctrlTicket sock) =
      (ctrlTicket sock, decide t.Ready) := by
    simp only [wakeSwitch, ctrlTicket]
    by_cases hzero : t.rc = 0
    · simp [Turn.Ready, hzero]
    · have hpos : 0 < t.rc := by omega
      rw [if_neg hzero, pollsetCauseFd_single hfds hpos]
      by_cases hfirst : t.revents 0 = true
      · simp [Turn.Ready, hpos, hfirst]
      · simp [Turn.Ready, hfirst]
  rw [wakeTicket, hswitch]
  by_cases hready : t.Ready
  · simp [hready]
  · simp [hready, ctrlTicket]

/-- The second loop. When `ctrl_port_fn` is called it clears the mark again. -/
theorem wakeLoop_ctrl {ps : Pollset} {sock rc : Int} {now : Nat} {fresh : Bool} (w : Waiter)
    (hw : w.tickets = [ctrlTicket sock])
    (hticket : wakeTicket ps rc now (ctrlTicket sock) = ({ ctrlTicket sock with updated := fresh }, fresh)) :
    wakeLoop ps rc now [[.clear 0]] 2 0 w =
      (w, if fresh then [⟨0, 0, { ctrlTicket sock with updated := true }⟩] else []) := by
  obtain ⟨tickets, pollset, count⟩ := w
  subst hw
  simp only [wakeLoop, List.getElem?_cons_zero, hticket]
  cases fresh <;> rfl

/-- `waiter_wait` waits for the socket, without a timeout; it calls `ctrl_port_fn` when there is something
    to receive. -/
theorem Idle.wait {sock : Int} {w : Waiter} (h : Idle sock w) (t : Turn) :
    ∃ w' log, waiterWait (t.wake w) w = some (w', log) ∧ Idle sock w' ∧
      log.filled.fds = [sock] ∧ log.filled.capacity = 33 ∧ log.timeout = some (-1) ∧
      log.calls.map (fun call => t.received call.position) = if t.Ready then [t.received 0] else [] := by
  obtain ⟨tickets, pollset, count⟩ := w
  obtain ⟨rfl, ps, rfl, hcapacity⟩ := h
  let filled := pollsetAddFd (pollsetReset ps) sock
  let w' : Waiter := ⟨[ctrlTicket sock], some (pollsetWait filled t.rc t.revents), count⟩
  have hidle : Idle sock w' := by
    refine ⟨rfl, _, rfl, ?_⟩
    rw [pollsetWait]
    split <;> exact hcapacity
  by_cases hfails : t.rc < 0
  · have hready : ¬ t.Ready := fun hready => absurd hready.1 (by omega)
    refine ⟨w', ⟨filled, some (-1), []⟩, if_pos hfails, hidle, rfl, hcapacity, rfl, ?_⟩
    rw [if_neg hready]
    rfl
  · have hloop := wakeLoop_ctrl w' rfl (wakeTicket_ctrl (show filled.fds = [sock] from rfl) hfails)
    refine ⟨w', ⟨filled, some (-1), _⟩, (if_neg hfails).trans
      (congrArg (fun r => some (r.1, (⟨filled, some (-1), r.2⟩ : WaitLog))) hloop), hidle, rfl, hcapacity,
      rfl, ?_⟩
    by_cases hready : t.Ready
    · simp [hready]
    · simp [hready]

/-- The daemon between two turns: its records show the name server without records, and its waiter is idle. -/
structure Daemon.Serves (sock : Int) (d : Daemon) (v : Qrtr.Ns (Map Server)) : Prop where
  ns : d.ns.Represents v
  idle : Idle sock d.waiter

theorem Daemon.Serves.turn (sock : Int) (d : Daemon) (v : Qrtr.Ns (Map Server)) (t : Turn)
    (h : d.Serves sock v) (_ : True) :
    ∃ d', mainTurn d t = some (d', (serve sock v t).2) ∧ d'.Serves sock (serve sock v t).1 := by
  have hopen : v.sockOpen = d.ns.sockOpen := by
    obtain ⟨spare, ls, hshows⟩ := h.ns
    exact hshows.sockOpen
  rw [mainTurn, serve, hopen]
  by_cases hrunning : d.ns.sockOpen = true
  · obtain ⟨w', log, hwait, hidle', hfds, hcapacity, htimeout, hcalls⟩ := h.idle.wait t
    rw [if_pos hrunning, if_pos hrunning, hwait]
    simp only [Option.bind_eq_bind, Option.bind_some, hfds, hcapacity, htimeout, hcalls]
    by_cases hready : t.Ready
    · obtain ⟨s', hstep, hs'⟩ := Ns.Represents.step d.ns v (t.received 0) h.ns trivial
      have hcallback : callback d.ns (t.received 0) = some (s', (Qrtr.nsStep v (t.received 0)).2) := by
        rw [nsStep, if_pos hrunning] at hstep
        exact hstep
      simp only [if_pos hready, attempt, hcallback, Option.bind_some, Option.map_some, List.flatten_cons,
        List.flatten_nil, List.append_nil]
      exact ⟨⟨s', w'⟩, rfl, hs', hidle'⟩
    · simp only [if_neg hready]
      exact ⟨⟨d.ns, w'⟩, rfl, h.ns, hidle'⟩
  · rw [if_neg hrunning, if_neg hrunning]
    exact ⟨d, rfl, h⟩

/-! ### Whole runs -/

theorem serve_fst (sock : Int) (v : Qrtr.Ns (Map Server)) (t : Turn) :
    (serve sock v t).1 = if t.Ready then (Qrtr.nsStep v (t.received 0)).1 else v := by
  rw [serve, Qrtr.nsStep]
  by_cases hopen : v.sockOpen = true
  · simp only [if_pos hopen]
    split <;> rfl
  · simp only [if_neg hopen, ite_self]

theorem serve_sent (sock : Int) (v : Qrtr.Ns (Map Server)) (t : Turn) :
    ((serve sock v t).2.elim [] Round.sent) = if t.Ready then (Qrtr.nsStep v (t.received 0)).2 else [] := by
  rw [serve, Qrtr.nsStep]
  by_cases hopen : v.sockOpen = true
  · simp only [if_pos hopen]
    split <;> rfl
  · simp only [if_neg hopen, ite_self]
    rfl

theorem handled_cons (t : Turn) (ts : List Turn) :
    handled (t :: ts) = if t.Ready then t.received 0 :: handled ts else handled ts := by
  rw [handled, List.filter_cons]
  by_cases hready : t.Ready
  · simp only [hready, decide_true, if_true, List.map_cons]
    rfl
  · simp only [hready, decide_false, if_false, Bool.false_eq_true]
    rfl

/-- The turns that find nothing to receive leave no trace. -/
theorem serve_run (sock : Int) : ∀ (ts : List Turn) (v : Qrtr.Ns (Map Server)),
    final (serve sock) v ts = final Qrtr.nsStep v (handled ts) ∧
      (outputs (serve sock) v ts).flatMap (fun round => round.elim [] Round.sent) =
        (outputs Qrtr.nsStep v (handled ts)).flatten
  | [], _ => ⟨rfl, rfl⟩
  | t :: ts, v => by
      obtain ⟨hfinal, hsent⟩ := serve_run sock ts (serve sock v t).1
      rw [final, outputs, List.flatMap_cons, hfinal, hsent, serve_sent, handled_cons, serve_fst]
      split <;> exact ⟨rfl, rfl⟩

/-- `poll` is always given the socket, in a slot that is there, and no timeout. -/
theorem serve_polls (sock : Int) : ∀ (ts : List Turn) (v : Qrtr.Ns (Map Server)) {round : Round},
    some round ∈ outputs (serve sock) v ts → round.Polls sock
  | [], _, _, hround => absurd hround List.not_mem_nil
  | t :: ts, v, round, hround => by
      rcases List.mem_cons.1 hround with hhead | htail
      · rw [serve] at hhead
        split_ifs at hhead
        all_goals
          obtain rfl := Option.some.inj hhead
          exact ⟨rfl, rfl, rfl⟩
      · exact serve_polls sock ts _ htail

/-- The socket is open until a `recvfrom` brings nothing. -/
theorem final_sockOpen : ∀ (es : List Event) {v : Qrtr.Ns (Map Server)}, v.TablesOk →
    ((final Qrtr.nsStep v es).sockOpen = true ↔ v.sockOpen = true ∧ ∀ e ∈ es, e.datagram ≠ [])
  | [], v, _ => by simp [final]
  | e :: es, v, hv => by
      rw [final, final_sockOpen es (hv.step e), nsStep_sockOpen hv, List.forall_mem_cons, and_assoc]

theorem mainBind_ok {u : Setup} {localNode : UInt32} (h : mainBind u = .ok localNode) :
    u.name = some localNode := by
  rw [mainBind] at h
  cases hname : u.name with
  | none =>
      simp only [hname] at h
      split_ifs at h
  | some name =>
      simp only [hname] at h
      split_ifs at h
      rw [Except.ok.inj h]

/-- What `say_hello` sends, whether it can or not. -/
theorem sayHello_snd (w : Exec) :
    (sayHello w).2 = { w with
      sends := w.sends.tail
      sent := w.sent ++ [{ call := .sayHello, dest := bcastSq, payload := helloPkt w.order }] } := by
  rw [sayHello]
  split <;> rfl

/-- The waiter with the ticket of the socket. -/
theorem idle_started (sock : Int) {mem : Allocs} {waiter : Waiter} {tkt : Nat}
    (h : waiterAddFd mem waiterCreate sock = (waiter, some tkt)) :
    Idle sock (waiterTicketCallback waiter tkt (some 0)) := by
  obtain ⟨ticket, pollset⟩ := mem
  cases ticket <;> cases pollset <;> cases h
  exact ⟨rfl, _, rfl, rfl⟩

/-- The daemon that `main` goes into its loop with: it has said hello to everyone. -/
theorem mainStart_started {order : HostOrder} {memory : Links Addr} {u : Setup} {d : Daemon}
    {hello : List Msg} (h : mainStart order memory u = some (.ok (d, hello))) :
    ∃ localNode, u.name = some localNode ∧ d.ns = nsInit order localNode memory ∧ Idle u.sock d.waiter ∧
      hello = [{ call := .sayHello, dest := bcastSq, payload := helloPkt order }] := by
  rw [mainStart] at h
  cases hbind : mainBind u with
  | error stop =>
      rw [hbind] at h
      cases h
  | ok localNode =>
      simp only [hbind, sayHello_snd] at h
      split at h
      · cases h
      split at h
      · cases h
      rcases hadd : waiterAddFd u.ticket waiterCreate u.sock with ⟨waiter, _ | tkt⟩
      · rw [hadd] at h
        cases h
      · rw [hadd] at h
        obtain ⟨rfl, rfl⟩ := Prod.mk.inj (Except.ok.inj (Option.some.inj h))
        exact ⟨localNode, mainBind_ok hbind, rfl, idle_started u.sock hadd, rfl⟩

/-- Once `main` has come to its loop, nothing that arrives and nothing that fails stops it but a `recvfrom`
    that brings nothing. `poll` is always told to wait for the socket alone, for as long as it takes; what the
    turns with something to receive bring is handled once each, in order; and when the loop is over the
    end of the program finds the records that it frees. -/
theorem main_serves {order : HostOrder} {memory : Links Addr} {u : Setup} {d : Daemon} {hello : List Msg}
    (hstart : mainStart order memory u = some (.ok (d, hello))) (ts : List Turn) :
    ∃ localNode d' rounds s', u.name = some localNode ∧
      hello = [{ call := .sayHello, dest := bcastSq, payload := helloPkt order }] ∧
      mainRun d ts = some (d', rounds) ∧
      (∀ round, some round ∈ rounds → round.Polls u.sock) ∧
      rounds.flatMap (fun round => round.elim [] Round.sent) =
        (outputs Qrtr.nsStep (Qrtr.nsInit order localNode : Qrtr.Ns (Map Server)) (handled ts)).flatten ∧
      d'.ns.shown = final Qrtr.nsStep (Qrtr.nsInit order localNode) (handled ts) ∧
      (d'.ns.sockOpen = true ↔ ∀ e ∈ handled ts, e.datagram ≠ []) ∧
      shutdown d'.ns = some s' := by
  obtain ⟨localNode, hname, hns, hidle, hhello⟩ := mainStart_started hstart
  have hinit : d.ns.Represents (Qrtr.nsInit order localNode) := by
    rw [hns]
    exact ⟨_, _, Shows.init order localNode memory⟩
  have hguarded : Guarded (fun _ _ => True) (serve u.sock) (Qrtr.nsInit order localNode) ts :=
    Guarded.of_forall _ fun _ _ _ => trivial
  obtain ⟨d', hrun, ⟨spare, ls, hshows⟩, -⟩ :=
    Guarded.attempt_eq (Daemon.Serves.turn u.sock) ⟨hinit, hidle⟩ hguarded
  obtain ⟨hfinal, hsent⟩ := serve_run u.sock ts (Qrtr.nsInit order localNode)
  obtain ⟨s', hshutdown, -⟩ := hshows.shutdown_eq
  have hok := (Qrtr.Ns.Inv.init (T := Map Server) order localNode).toTablesOk
  refine ⟨localNode, d', _, s', hname, hhello, hrun, fun round hround => serve_polls u.sock ts _ hround, hsent,
    hshows.shown_eq.trans hfinal, ?_, hshutdown⟩
  rw [← hshows.sockOpen, hfinal, final_sockOpen _ hok]
  exact and_iff_right rfl

/-- A setup in which nothing fails. -/
def sampleSetup : Setup := ⟨true, true, 3, some 1, .bound, true, fun _ => 0, true, ⟨true, true⟩⟩

/-- An interrupted `poll`, a registration, and the end of the socket. -/
def sampleTurns : List Turn :=
  [⟨0, 0, -1, fun _ => false, fun _ => .ofWords { node := 2, port := 7 } [qrtrTypeNewServer, 4, 1, 2, 9]⟩,
    ⟨5, 9, 1, fun _ => true, fun _ => .ofWords { node := 2, port := 7 } [qrtrTypeNewServer, 4, 1, 2, 9]⟩,
    ⟨9, 9, 1, fun _ => true, fun _ => .ofWords { node := 2, port := 7 } []⟩]

/-- The daemon that this setup leads to. -/
def sampleDaemon : Daemon := ⟨nsInit .little 1 untouched, ⟨[ctrlTicket 3], some (pollsetCreate 33), 1⟩⟩

theorem main_serves_sample :
    ∃ localNode d' rounds s', sampleSetup.name = some localNode ∧
      [{ call := .sayHello, dest := bcastSq, payload := helloPkt .little : Msg }] =
        [{ call := .sayHello, dest := bcastSq, payload := helloPkt .little }] ∧
      mainRun sampleDaemon sampleTurns = some (d', rounds) ∧
      (∀ round, some round ∈ rounds → round.Polls 3) ∧
      rounds.flatMap (fun round => round.elim [] Round.sent) =
        (outputs Qrtr.nsStep (Qrtr.nsInit .little localNode : Qrtr.Ns (Map Server))
          (handled sampleTurns)).flatten ∧
      d'.ns.shown = final Qrtr.nsStep (Qrtr.nsInit .little localNode) (handled sampleTurns) ∧
      (d'.ns.sockOpen = true ↔ ∀ e ∈ handled sampleTurns, e.datagram ≠ []) ∧
      shutdown d'.ns = some s' :=
  main_serves (show mainStart .little untouched sampleSetup = some (.ok (sampleDaemon, _)) from rfl) sampleTurns

end Qrtr.Records
