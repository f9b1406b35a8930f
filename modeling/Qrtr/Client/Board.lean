/-
Module: Qrtr.Client.Board
Layer: Client
Purpose: What the clients of a host have asked for through the client library: which service each socket
  has published, and what each socket looks for. Whatever the clients call, in any order, and whatever other
  nodes send in between, the name server holds exactly that.
Imports: Qrtr.NameServer.Publication
Main exports: qrtrRemoveServer, qrtrRemoveLookup, LibCall, LibCall.packet, Board, Board.call, Input,
  hostStep, Board.Shows, board_shown
Open obligations: none
-/
import Qrtr.NameServer.Publication

namespace Qrtr

open MapOps LawfulMap

/-! ### The client library -/

/-- A packet of the client library that names the socket it is sent from. -/
def clientPktFrom (order : HostOrder) (cmd : UInt32) (x : Publication) (sq : Sockaddr) : List UInt8 :=
  ctrlPkt order
    [cpuToLe32 order cmd, cpuToLe32 order x.service, cpuToLe32 order x.word, cpuToLe32 order sq.node,
      cpuToLe32 order sq.port]

/-- The packet of `qrtr_remove_server`. -/
def qrtrRemoveServer (order : HostOrder) (x : Publication) (sq : Sockaddr) : List UInt8 :=
  clientPktFrom order qrtrTypeDelServer x sq

/-- The packet of `qrtr_remove_lookup`. -/
def qrtrRemoveLookup (order : HostOrder) (x : Publication) (sq : Sockaddr) : List UInt8 :=
  clientPktFrom order qrtrTypeDelLookup x sq

/-- The packet of `qrtr_publish`. -/
def qrtrPublish (order : HostOrder) (x : Publication) : List UInt8 := qrtrNewServer order x

/-- The packet of `qrtr_bye`. -/
def qrtrBye (order : HostOrder) (x : Publication) (sq : Sockaddr) : List UInt8 := qrtrRemoveServer order x sq

/-- A call of the client library that reaches the name server, or the end of the socket. -/
inductive LibCall where
  | publish (x : Publication)
  | bye (x : Publication)
  | newLookup (x : Publication)
  | removeLookup (x : Publication)
  | close
deriving DecidableEq

/-- The datagram of a call. The DEL_CLIENT of a socket that is closed comes from its own port. -/
def LibCall.packet (order : HostOrder) (sq : Sockaddr) : LibCall → List UInt8
  | .publish x => qrtrPublish order x
  | .bye x => qrtrBye order x sq
  | .newLookup x => qrtrNewLookup order x
  | .removeLookup x => qrtrRemoveLookup order x sq
  | .close => [qrtrTypeDelClient, sq.node, sq.port, 0, 0].flatMap le32

/-- What the name server makes of the call. -/
def LibCall.action (sq : Sockaddr) : LibCall → Action
  | .publish x => .register (x.server sq)
  | .bye _ => .unregister sq.node sq.port
  | .newLookup x => .watch (x.lookup sq)
  | .removeLookup x => .unwatch sq x.service x.word
  | .close => .closePort sq.node sq.port

/-- A call that the name server takes: a service has a number and its socket a port. -/
def LibCall.Proper (port : UInt32) : LibCall → Prop
  | .publish x => x.service ≠ 0 ∧ port ≠ 0
  | _ => True

/-- What the name server reads from a packet that names its socket. -/
theorem Event.words_clientFrom {e : Event} {order : HostOrder} {cmd : UInt32} {x : Publication} {sq : Sockaddr}
    (h : e.datagram = clientPktFrom order cmd x sq) :
    4 ≤ e.received.length ∧ e.word 0 = cmd ∧ e.word 4 = x.service ∧ e.word 8 = x.word := by
  have hdatagram : e.datagram = [cmd, x.service, x.word, sq.node, sq.port].flatMap le32 := by
    rw [h]
    simp [clientPktFrom, ctrlPkt]
  obtain ⟨hlen, h0, h4, h8, -⟩ := Event.words hdatagram
  exact ⟨by omega, h0, h4, h8⟩

/-- The name server takes a call of a local client for what it is. -/
theorem LibCall.action_eq {c : LibCall} {e : Event} {order : HostOrder} {localNode : UInt32}
    (hlocal : e.sq.node = localNode) (hdatagram : e.datagram = c.packet order e.sq)
    (hproper : c.Proper e.sq.port) :
    4 ≤ e.received.length ∧ e.action localNode = c.action e.sq := by
  cases c with
  | publish x =>
      obtain ⟨hlen, h0, h4, h8⟩ := Event.words_client hdatagram
      refine ⟨hlen, ?_⟩
      rw [e.action_newServer_local localNode hlen h0 hlocal (h4 ▸ hproper.1) hproper.2, h4, h8]
      rfl
  | bye x =>
      obtain ⟨hlen, h0, -⟩ := Event.words_clientFrom hdatagram
      refine ⟨hlen, ?_⟩
      rw [Event.action, if_neg (Nat.not_lt.2 hlen), h0]
      exact if_pos hlocal
  | newLookup x =>
      obtain ⟨hlen, h0, h4, h8⟩ := Event.words_client hdatagram
      refine ⟨hlen, ?_⟩
      rw [e.action_newLookup_local localNode hlen h0 hlocal, h4, h8]
      rfl
  | removeLookup x =>
      obtain ⟨hlen, h0, h4, h8⟩ := Event.words_clientFrom hdatagram
      refine ⟨hlen, ?_⟩
      rw [e.action_delLookup localNode hlen h0, h4, h8]
      rfl
  | close =>
      obtain ⟨hlen, h0, h4, h8, -⟩ := Event.words hdatagram
      have hlen' : 4 ≤ e.received.length := by omega
      refine ⟨hlen', ?_⟩
      rw [e.action_delClient_valid localNode hlen' h0 h4.symm fun _ => h8.symm, h4, h8]
      rfl

/-! ### What the clients have asked for -/

/-- The service that each port of the host has published, if any, and what it looks for, in order. -/
structure Board where
  published : UInt32 → Option Publication
  wanted : UInt32 → List Publication

def Board.empty : Board := ⟨fun _ => none, fun _ => []⟩

/-- The publication is the one that `qrtr_remove_lookup` is called with, or one for every instance of its
    service: `ctrl_cmd_del_lookup` drops that as well. -/
def Publication.Dropped (y x : Publication) : Prop := x.service = y.service ∧ (x.word = 0 ∨ x.word = y.word)

instance (y x : Publication) : Decidable (y.Dropped x) := inferInstanceAs (Decidable (_ ∧ _))

/-- A call from a port. A socket publishes one service at a time, whichever it then takes back. -/
def Board.call (b : Board) (p : UInt32) : LibCall → Board
  | .publish x => { b with published := Function.update b.published p (some x) }
  | .bye _ => { b with published := Function.update b.published p none }
  | .newLookup y => { b with wanted := Function.update b.wanted p (b.wanted p ++ [y]) }
  | .removeLookup y =>
      { b with wanted := Function.update b.wanted p ((b.wanted p).filter fun x => ¬ y.Dropped x) }
  | .close =>
      { published := Function.update b.published p none
        wanted := Function.update b.wanted p [] }

/-- What the name server of a host receives: a call of a local client, with whatever is in the buffer and on
    the stack, or a datagram of another node. -/
inductive Input where
  | call (port : UInt32) (c : LibCall) (stale stack : Mem)
  | remote (e : Event)

def Input.event (order : HostOrder) (localNode : UInt32) : Input → Event
  | .call port c stale stack =>
      { sq := { node := localNode, port := port }
        datagram := c.packet order { node := localNode, port := port }
        stale := stale
        stack := stack
        allocs := []
        sends := [] }
  | .remote e => e

/-- What other nodes send is no business of the board. -/
def Board.step (b : Board) : Input → Board
  | .call port c _ _ => b.call port c
  | .remote _ => b

/-- The name server of a host. -/
def hostStep (s : Ns (Map Server)) (i : Input) : Ns (Map Server) × List Msg :=
  nsStep s (i.event s.order s.localNode)

/-- A proper call, or a datagram of another node that is not empty and finds memory. -/
def Input.Proper (localNode : UInt32) : Input → Prop
  | .call port c _ _ => c.Proper port
  | .remote e => e.sq.node ≠ localNode ∧ e.datagram ≠ [] ∧ e.allocs = []

/-- The name server holds what the clients have asked for. -/
structure Board.Shows (b : Board) (s : Ns (Map Server)) : Prop where
  published : ∀ p, s.server s.localNode p = (b.published p).map fun x => x.server ⟨s.localNode, p⟩
  wanted : ∀ p, (s.lookups.filter fun l => l.sq = ⟨s.localNode, p⟩) =
    (b.wanted p).map fun y => y.lookup ⟨s.localNode, p⟩

/-! ### One step -/

section

variable {f : Registry} {ls : List Lookup} {localNode : UInt32}

/-- The lookups of a socket behind a filter. -/
theorem filter_lookups {sq : Sockaddr} {ys : List Publication}
    (h : (ls.filter fun l => l.sq = sq) = ys.map fun y => y.lookup sq) (keep : Lookup → Bool) :
    ((ls.filter keep).filter fun l => l.sq = sq) =
      (ys.filter fun y => keep (y.lookup sq)).map fun y => y.lookup sq := by
  rw [List.filter_comm, h, List.filter_map]
  rfl

/-- What a checked action of another node leaves alone. -/
theorem Action.servers_remote {a : Action} {sq : Sockaddr} (ha : a.Checked localNode sq)
    (hremote : sq.node ≠ localNode) (p : UInt32) : a.servers f localNode p = f localNode p := by
  cases a with
  | ignored | hello | watch l | unwatch sq' service inst => rfl
  | bye n => exact if_neg fun h => hremote (ha.symm.trans h.symm)
  | closePort n q | unregister n q => exact if_neg fun h => hremote (ha.1.symm.trans h.1.symm)
  | register srv => exact if_neg fun h => hremote (ha.1.symm.trans h.1.symm)

theorem Action.lookups_remote {a : Action} {sq : Sockaddr} (ha : a.Checked localNode sq)
    (hremote : sq.node ≠ localNode) (p : UInt32) :
    ((a.lookups ls).filter fun l => l.sq = ⟨localNode, p⟩) = ls.filter fun l => l.sq = ⟨localNode, p⟩ := by
  have hkept : ∀ keep : Lookup → Bool, (∀ l, l.sq.node = localNode → keep l = true) →
      ((ls.filter keep).filter fun l => l.sq = ⟨localNode, p⟩) =
        ls.filter fun l => l.sq = ⟨localNode, p⟩ := by
    intro keep hkeep
    rw [List.filter_filter]
    refine List.filter_congr fun l _ => ?_
    by_cases hl : l.sq = ⟨localNode, p⟩
    · rw [hkeep l (congrArg Sockaddr.node hl), Bool.and_true]
    · rw [decide_eq_false hl, Bool.false_and]
  cases a with
  | ignored | hello | bye n | register srv | unregister n q => rfl
  | watch l => exact absurd ha.1 hremote
  | closePort n q =>
      refine hkept _ fun l hl => ?_
      have hne : l.sq.node ≠ n := fun h => hremote (ha.1.symm.trans (h.symm.trans hl))
      simp [hne]
  | unwatch sq' service inst =>
      obtain rfl : sq' = sq := ha
      refine hkept _ fun l hl => ?_
      have hne : l.sq.node ≠ sq'.node := fun h => hremote (h.symm.trans hl)
      simp [hne]

end

section

variable {b : Board} {s s' : Ns (Map Server)}

theorem Board.Shows.call (h : b.Shows s) {p : UInt32} {c : LibCall} (hnode : s'.localNode = s.localNode)
    (hserver : s'.server = (c.action ⟨s.localNode, p⟩).servers s.server)
    (hlookups : s'.lookups = (c.action ⟨s.localNode, p⟩).lookups s.lookups) : (b.call p c).Shows s' := by
  have hfilter := fun q keep => filter_lookups (h.wanted q) keep
  constructor
  case published =>
    intro q
    rw [hserver, hnode]
    by_cases hq : q = p
    · subst hq
      cases c with
      | publish x => simp [LibCall.action, Action.servers, Board.call, Publication.server]
      | bye x | close => simp [LibCall.action, Action.servers, Board.call]
      | newLookup x | removeLookup x => exact h.published q
    · cases c with
      | publish x => simp [LibCall.action, Action.servers, Board.call, Publication.server, hq, h.published]
      | bye x | close => simp [LibCall.action, Action.servers, Board.call, hq, h.published]
      | newLookup x | removeLookup x => exact h.published q
  case wanted =>
    intro q
    rw [hlookups, hnode]
    cases c with
    | publish x | bye x => exact h.wanted q
    | newLookup y =>
        rw [LibCall.action, Action.lookups, List.filter_append, h.wanted]
        by_cases hq : q = p
        · subst hq
          simp [Board.call, Publication.lookup]
        · simp [Board.call, Publication.lookup, hq, Ne.symm hq]
    | removeLookup y =>
        rw [LibCall.action, Action.lookups, hfilter]
        by_cases hq : q = p
        · subst hq
          simp only [Board.call, Function.update_self]
          refine congrArg _ (List.filter_congr fun x _ => Bool.eq_iff_iff.2 ?_)
          simp [Publication.lookup, Publication.Dropped]
        · have hport : (q == p) = false := beq_eq_false_iff_ne.2 hq
          simp [Board.call, Publication.lookup, hq, hport]
    | close =>
        rw [LibCall.action, Action.lookups, hfilter]
        by_cases hq : q = p
        · subst hq
          simp [Board.call, Publication.lookup]
        · have hport : (q == p) = false := beq_eq_false_iff_ne.2 hq
          simp [Board.call, Publication.lookup, hq, hport]

theorem Board.Shows.remote (h : b.Shows s) {a : Action} {sq : Sockaddr} (hnode : s'.localNode = s.localNode)
    (ha : a.Checked s.localNode sq) (hremote : sq.node ≠ s.localNode)
    (hserver : s'.server = a.servers s.server) (hlookups : s'.lookups = a.lookups s.lookups) : b.Shows s' where
  published p := by
    rw [hserver, hnode, Action.servers_remote ha hremote]
    exact h.published p
  wanted p := by
    rw [hlookups, hnode, Action.lookups_remote ha hremote]
    exact h.wanted p

/-- What the name server makes of a call. -/
theorem action_call (order : HostOrder) (localNode : UInt32) {port : UInt32} {c : LibCall} (hc : c.Proper port)
    (stale stack : Mem) :
    (Input.event order localNode (.call port c stale stack)).action localNode = c.action ⟨localNode, port⟩ :=
  (LibCall.action_eq (e := Input.event order localNode (.call port c stale stack)) rfl rfl hc).2

theorem hostAction_call (running : s.sockOpen = true) {port : UInt32} {c : LibCall} (hc : c.Proper port)
    (stale stack : Mem) :
    s.action (Input.event s.order s.localNode (.call port c stale stack)) = c.action ⟨s.localNode, port⟩ := by
  rw [Ns.action, if_pos running]
  exact action_call s.order s.localNode hc stale stack

theorem Input.Proper.received {order : HostOrder} {localNode : UInt32} {i : Input} (hi : i.Proper localNode) :
    (i.event order localNode).received ≠ [] := by
  cases i with
  | call port c stale stack =>
      have hlen := (LibCall.action_eq (c := c) (e := Input.event order localNode (.call port c stale stack)) rfl
        rfl hi).1
      intro hnil
      rw [hnil] at hlen
      exact absurd hlen (by decide)
  | remote e => exact e.received_ne_nil.2 hi.2.1

theorem Input.Proper.allocs {order : HostOrder} {localNode : UInt32} {i : Input} (hi : i.Proper localNode) :
    (i.event order localNode).allocs = [] := by
  cases i with
  | call port c stale stack => rfl
  | remote e => exact hi.2.2

/-- The board and the name server after an input. -/
theorem Board.Shows.step (h : b.Shows s) (hs : s.TablesOk) (hd : s.Distinct) (running : s.sockOpen = true)
    {i : Input} (hi : i.Proper s.localNode) (hplain : s.Plain (s.action (i.event s.order s.localNode))) :
    (b.step i).Shows (hostStep s i).1 := by
  obtain ⟨-, hserver, hlookups⟩ := nsStep_refines hs hd hplain hi.allocs
  obtain ⟨-, hnode, -⟩ := nsStep_frame hs.nodesOk hs.ok (i.event s.order s.localNode)
  cases i with
  | call port c stale stack =>
      rw [hostAction_call running hi] at hserver hlookups
      exact h.call hnode hserver hlookups
  | remote e => exact h.remote hnode (s.action_checked e) hi.1 hserver hlookups

end

/-! ### Whole runs -/

/-- The name server of a host whose clients have asked for what is on the board. -/
structure Hosts (localNode : UInt32) (b : Board) (s : Ns (Map Server)) : Prop extends s.TablesOk where
  distinct : s.Distinct
  running : s.sockOpen = true
  localNode : s.localNode = localNode
  shows : b.Shows s

/-- A proper input that registers over no server but the one it finds. -/
structure Input.Plain (localNode : UInt32) (s : Ns (Map Server)) (i : Input) : Prop where
  proper : i.Proper localNode
  plain : s.Plain (s.action (i.event s.order s.localNode))

theorem Hosts.init (order : HostOrder) (localNode : UInt32) :
    Hosts localNode .empty (nsInit order localNode) where
  toTablesOk := (Ns.Inv.init order localNode).toTablesOk
  distinct := .init order localNode
  running := rfl
  localNode := rfl
  shows := ⟨fun _ => rfl, fun _ => rfl⟩

theorem Hosts.step {localNode : UInt32} {b : Board} {s : Ns (Map Server)} (h : Hosts localNode b s) {i : Input}
    (hi : i.Plain localNode s) : Hosts localNode (b.step i) (hostStep s i).1 := by
  obtain rfl := h.localNode
  obtain ⟨-, hnode, hopen⟩ := nsStep_frame h.nodesOk h.ok (i.event s.order s.localNode)
  exact {
    toTablesOk := h.toTablesOk.step _
    distinct := (nsStep_refines h.toTablesOk h.distinct hi.plain hi.proper.allocs).1
    running := (hopen hi.proper.received).trans h.running
    localNode := hnode
    shows := h.shows.step h.toTablesOk h.distinct h.running hi.proper hi.plain }

theorem Hosts.run {localNode : UInt32} :
    ∀ {is : List Input} {b : Board} {s : Ns (Map Server)}, Hosts localNode b s →
      Run.Guarded (fun s i => i.Plain localNode s) hostStep s is →
        Hosts localNode (is.foldl Board.step b) (Run.final hostStep s is)
  | [], _, _, h, _ => h
  | _ :: _, _, _, h, ⟨hi, hrest⟩ => (h.step hi).run hrest

/-- Whatever the clients of a host call, in any order, and whatever other nodes send in between, the name
    server holds for every local port what it has published, and its lookups are those that the ports have
    asked for and not taken back. -/
theorem board_shown (order : HostOrder) (localNode : UInt32) (is : List Input)
    (hplain : Run.Guarded (fun s i => i.Plain localNode s) hostStep (nsInit order localNode) is) :
    (is.foldl Board.step .empty).Shows (Run.final hostStep (nsInit order localNode) is) :=
  ((Hosts.init order localNode).run hplain).shows

/-- Port 5 publishes a service and takes back whatever it publishes, while port 6 looks for it. -/
theorem board_shown_two :
    (List.foldl Board.step .empty
      [.call 5 (.publish ⟨7, 1, 2⟩) (fun _ => 0) fun _ => 0,
        .call 6 (.newLookup ⟨7, 0, 0⟩) (fun _ => 0) fun _ => 0,
        .call 5 (.bye ⟨8, 0, 0⟩) (fun _ => 0) fun _ => 0]).Shows
      (Run.final hostStep (nsInit .little 1)
        [.call 5 (.publish ⟨7, 1, 2⟩) (fun _ => 0) fun _ => 0,
          .call 6 (.newLookup ⟨7, 0, 0⟩) (fun _ => 0) fun _ => 0,
          .call 5 (.bye ⟨8, 0, 0⟩) (fun _ => 0) fun _ => 0]) := by
  have hplain : ∀ {s : Ns (Map Server)} {port c}, s.sockOpen = true → c.Proper port →
      (∀ sq srv, c.action sq ≠ .register srv) →
        (Input.call port c (fun _ => 0) fun _ => 0).Plain 1 s := by
    refine fun running hproper hother => ⟨hproper, fun srv h => ?_⟩
    rw [hostAction_call running hproper] at h
    exact absurd h (hother _ srv)
  refine board_shown .little 1 _ ⟨⟨⟨by decide, by decide⟩, ?_⟩, hplain ?_ trivial nofun,
    hplain ?_ trivial nofun, trivial⟩
  · exact Ns.plain_of_absent (Ns.Inv.init .little 1).toTablesOk fun srv _ => rfl
  · decide +kernel
  · decide +kernel

end Qrtr
