/-
Module: Qrtr.NameServer.Agreement
Layer: NameServer
Purpose: What one name server knows of the servers of the other. The link delivers in order and nothing
  fails; the tables are finite maps. Everything that name server `a` puts on the link says what its own
  table has become, so that the table `b` will hold once it has handled what is in flight never holds more
  than the table of `a`, and holds all of it from the first HELLO on that `a` has handled.
Imports: NameServer.Link, Map.FiniteTable
Main exports: Joined, InFlight, Agreement, StandsFor, replay, Tells, Happens.tells, Tells.repeats,
  agreement
Open obligations: none
-/
import Qrtr.NameServer.Link
import Qrtr.Map.FiniteTable
import Mathlib.Data.List.Forall2

namespace Qrtr

open MapOps LawfulMap

/-! ### Two name servers that agree -/

/-- A datagram at whose handling no allocation and no send fails. -/
structure Event.Smooth (e : Event) : Prop where
  allocs : e.allocs = []
  sends : e.sends = []

section

variable {T : Type} [MapOps T Server]

/-- A name server that has been running for a while, with datagrams from elsewhere than its own control
    port. -/
def Ns.Started (s : Ns T) : Prop :=
  ∃ order localNode events, (∀ e ∈ events, e.sq ≠ { node := localNode, port := qrtrPortCtrl }) ∧
    s = Run.final nsStep (nsInit order localNode) events

/-- A configuration of two name servers joined when `b` has no server of `a` and only HELLOs are in flight.
    The proposition says that `a` has handled a HELLO from `b` since then. -/
inductive Joined : Prop → Config T → Prop where
  | start {c : Config T} (servers : ∀ i, (c.server i).Started)
      (apart : (c.server .a).localNode ≠ (c.server .b).localNode)
      (empty : ∀ p, (c.server .b).server (c.server .a).localNode p = none)
      (hellos : ∀ i, ∀ p ∈ c.inbox i, IsHello p) : Joined False c
  | client {greeted : Prop} {c : Config T} (i : Side) {e : Event} (h : Joined greeted c)
      (smooth : e.Smooth) (own : e.sq.node = (c.server i).localNode)
      (client : e.sq.port ≠ qrtrPortCtrl) : Joined greeted (c.handle i e)
  | deliver {greeted : Prop} {c : Config T} (i : Side) {e : Event} {rest : List (List UInt8)}
      (h : Joined greeted c) (smooth : e.Smooth) (running : (c.server i).sockOpen = true)
      (flight : c.inbox i = e.datagram :: rest) (sender : e.sq = (c.server i.other).ctrlSq) :
      Joined (greeted ∨ i = .a ∧ IsHello e.datagram) ((c.setInbox i rest).handle i e)

/-- The datagrams in flight to one side, as they will be handled one after the other. -/
structure InFlight (c : Config T) (i : Side) (events : List Event) : Prop where
  datagrams : events.map Event.datagram = c.inbox i
  sender : ∀ e ∈ events, e.sq = (c.server i.other).ctrlSq
  smooth : ∀ e ∈ events, e.Smooth

/-- The name server with its socket open. -/
def Ns.running (s : Ns T) : Ns T := { s with sockOpen := true }

/-- The table that `b` would hold for the node of `a` after `events`. -/
def Config.view (c : Config T) (events : List Event) : UInt32 → Option Server :=
  (Run.final nsStep (c.server .b).running events).server (c.server .a).localNode

/-- The table of `a` for its own node. -/
def Config.own (c : Config T) : UInt32 → Option Server :=
  (c.server .a).server (c.server .a).localNode

/-- Once what is in flight has been handled, `b` holds nothing of `a` that `a` does not hold, and all of it
    if `a` has handled a HELLO. -/
structure Agreement (greeted : Prop) (c : Config T) : Prop where
  submap : ∀ events, InFlight c .b events → ∀ p srv, c.view events p = some srv →
    c.own p = some srv
  equal : greeted → ∀ events, InFlight c .b events → c.view events = c.own

end

/-! ### What datagrams stand for -/

/-- Every name server of another node that receives the datagram from the control port of `node` takes it
    for the action. -/
def StandsFor (node : UInt32) (datagram : List UInt8) (a : Action) : Prop :=
  ∀ (e : Event) (localNode : UInt32), e.datagram = datagram →
    e.sq = { node := node, port := qrtrPortCtrl } → node ≠ localNode →
    e.action localNode = a ∧ e.received ≠ []

/-- The servers after a sequence of actions. -/
def replay (actions : List Action) (f : Registry) : Registry :=
  actions.foldl (fun f a => a.servers f) f

theorem replay_append (actions actions' : List Action) (f : Registry) :
    replay (actions ++ actions') f = replay actions' (replay actions f) := List.foldl_append

/-- What becomes of the servers of a node depends on the servers of that node. -/
theorem replay_congr {n : UInt32} (actions : List Action) {f g : Registry} (h : f n = g n) :
    replay actions f n = replay actions g n := by
  induction actions generalizing f g with
  | nil => exact h
  | cons a actions ih =>
      apply ih
      funext q
      cases a <;> simp only [Action.servers, h]

theorem received_ne_nil {e : Event} (h : 4 ≤ e.datagram.length) : e.received ≠ [] := by
  intro hnil
  have hlen := (length_received e).2 h
  rw [hnil] at hlen
  exact absurd hlen (by decide)

theorem IsHello.standsFor {p : List UInt8} (h : IsHello p) (node : UInt32) : StandsFor node p .hello := by
  rintro e localNode rfl - -
  exact ⟨(e.action_eq_hello_iff localNode).2 h, received_ne_nil h.1⟩

/-- The words of an announcement, whatever was in the buffer before. -/
theorem Event.word_announce {e : Event} {order : HostOrder} {cmd : UInt32} {srv : Server}
    (h : e.datagram = announcePkt order cmd srv) :
    e.received.length = 20 ∧ e.word 0 = cmd ∧ e.word 4 = srv.service ∧ e.word 8 = srv.inst ∧
      e.word 12 = srv.node ∧ e.word 16 = srv.port := by
  apply Event.words
  rw [h, announcePkt_eq]
  simp [serverBytes]

/-- An announcement of a new server registers it. -/
theorem standsFor_new (order : HostOrder) {srv : Server} (hservice : srv.service ≠ 0)
    (hport : srv.port ≠ 0) :
    StandsFor srv.node (announcePkt order qrtrTypeNewServer srv) (.register srv) := by
  intro e localNode hdatagram hsq hne
  obtain ⟨hlen, h0, h4, h8, h12, h16⟩ := Event.word_announce hdatagram
  have hnode : e.sq.node = srv.node := by rw [hsq]
  refine ⟨?_, List.length_pos_iff.1 (by omega)⟩
  rw [e.action_newServer_remote localNode (by omega) h0 (by rwa [hnode]) (by rw [h12, hnode])
    (by rwa [h4]) (by rwa [h16]), h4, h8, h16, hnode]

/-- An announcement of a server that is gone unregisters it. -/
theorem standsFor_del (order : HostOrder) (srv : Server) :
    StandsFor srv.node (announcePkt order qrtrTypeDelServer srv) (.unregister srv.node srv.port) := by
  intro e localNode hdatagram hsq hne
  obtain ⟨hlen, h0, -, -, h12, h16⟩ := Event.word_announce hdatagram
  have hnode : e.sq.node = srv.node := by rw [hsq]
  refine ⟨?_, List.length_pos_iff.1 (by omega)⟩
  rw [e.action_delServer_remote localNode (by omega) h0 (by rwa [hnode]) (by rw [h12, hnode]), h16,
    hnode]

/-! ### What a name server tells its peer -/

/-- The datagrams among `msgs` that go over the link to `peer`. -/
def linkPart (peer : UInt32) (msgs : List Msg) : List (List UInt8) :=
  (msgs.filter (Msg.goesTo peer)).map Msg.payload

theorem linkPart_append (peer : UInt32) (msgs msgs' : List Msg) :
    linkPart peer (msgs ++ msgs') = linkPart peer msgs ++ linkPart peer msgs' := by
  rw [linkPart, List.filter_append, List.map_append]
  rfl

theorem linkPart_eq_nil {peer : UInt32} {msgs : List Msg}
    (h : ∀ m ∈ msgs, m.dest.port ≠ qrtrPortCtrl) : linkPart peer msgs = [] := by
  rw [linkPart, List.map_eq_nil_iff, List.filter_eq_nil_iff]
  exact fun m hm hgoes => h m hm (Msg.port_of_goesTo hgoes)

theorem linkPart_cons {peer : UInt32} {m : Msg} (h : m.goesTo peer = true) (msgs : List Msg) :
    linkPart peer (m :: msgs) = m.payload :: linkPart peer msgs := by
  rw [linkPart, List.filter_cons_of_pos h]
  rfl

theorem goesTo_bcast (peer : UInt32) {m : Msg} (h : m.dest = bcastSq) : m.goesTo peer = true := by
  rw [Msg.goesTo, h]
  rfl

theorem goesTo_peer {peer : UInt32} {m : Msg} (h : m.dest = { node := peer, port := qrtrPortCtrl }) :
    m.goesTo peer = true := by
  rw [Msg.goesTo, h, Bool.or_eq_true]
  exact Or.inr (beq_self_eq_true _)

section

variable {T : Type} {s : Ns T}

/-- Of what is sent about a local server that is gone, the broadcast goes over the link. -/
theorem linkPart_delMsgs (hlookups : ∀ l ∈ s.lookups, l.sq.port ≠ qrtrPortCtrl) {srv : Server}
    (hlocal : srv.node = s.localNode) (peer : UInt32) :
    linkPart peer (s.delMsgs srv) = [announcePkt s.order qrtrTypeDelServer srv] := by
  have hnotify : linkPart peer (s.notifyMsgs srv false) = [] :=
    linkPart_eq_nil fun m hm => port_of_mem_notifyMsgs hlookups hm
  rw [Ns.delMsgs, if_pos hlocal, List.singleton_append, linkPart_cons, hnotify]
  · rfl
  · exact goesTo_bcast peer rfl

theorem linkPart_newMsgs (hlookups : ∀ l ∈ s.lookups, l.sq.port ≠ qrtrPortCtrl) {srv : Server}
    (hlocal : srv.node = s.localNode) (peer : UInt32) :
    linkPart peer (s.newMsgs srv) = [announcePkt s.order qrtrTypeNewServer srv] := by
  have hnotify : linkPart peer (s.notifyMsgs srv true) = [] :=
    linkPart_eq_nil fun m hm => port_of_mem_notifyMsgs hlookups hm
  rw [Ns.newMsgs, if_pos hlocal, List.singleton_append, linkPart_cons, hnotify]
  · rfl
  · exact goesTo_bcast peer rfl

theorem linkPart_flatMap_delMsgs (hlookups : ∀ l ∈ s.lookups, l.sq.port ≠ qrtrPortCtrl)
    {gone : List Server} (hlocal : ∀ srv ∈ gone, srv.node = s.localNode) (peer : UInt32) :
    linkPart peer (gone.flatMap s.delMsgs) = gone.map (announcePkt s.order qrtrTypeDelServer) := by
  induction gone with
  | nil => rfl
  | cons srv gone ih =>
      rw [List.flatMap_cons, linkPart_append, linkPart_delMsgs hlookups (hlocal srv List.mem_cons_self),
        ih fun srv' hsrv' => hlocal srv' (List.mem_cons_of_mem _ hsrv')]
      rfl

/-- The announcements to the peer all go over the link. -/
theorem linkPart_announce (order : HostOrder) (peer : UInt32) (told : List Server) :
    linkPart peer (told.map (announceNewMsg order { node := peer, port := qrtrPortCtrl })) =
      told.map (announcePkt order qrtrTypeNewServer) := by
  induction told with
  | nil => rfl
  | cons srv told ih =>
      rw [List.map_cons, linkPart_cons (goesTo_peer rfl), ih]
      rfl

end

/-- What a name server tells its peer as the table of its own node goes from `before` to `after`. -/
inductive Tells (order : HostOrder) (node : UInt32) (before after : UInt32 → Option Server) :
    List (List UInt8) → Prop where
  | nothing (same : after = before) : Tells order node before after []
  | new {srv : Server} (owned : srv.node = node) (service : srv.service ≠ 0) (port : srv.port ≠ 0)
      (added : ∀ q, after q = if q = srv.port then some srv else before q) :
      Tells order node before after [announcePkt order qrtrTypeNewServer srv]
  | gone {gone : List Server} (owned : ∀ srv ∈ gone, srv.node = node)
      (removed : ∀ q, after q = none ∧ (∃ srv ∈ gone, srv.port = q) ∨
        after q = before q ∧ ∀ srv ∈ gone, srv.port ≠ q) :
      Tells order node before after (gone.map (announcePkt order qrtrTypeDelServer))

/-- The server of one port is gone, if there was one. -/
theorem Tells.port {order : HostOrder} {node p : UInt32} {before after : UInt32 → Option Server}
    (hkeys : ∀ srv, before p = some srv → srv.node = node ∧ srv.port = p)
    (hafter : ∀ q, after q = if q = p then none else before q) :
    Tells order node before after ((before p).toList.map (announcePkt order qrtrTypeDelServer)) := by
  refine .gone (fun srv hsrv => (hkeys srv (Option.mem_toList.1 hsrv)).1) fun q => ?_
  rw [hafter]
  by_cases hq : q = p
  · rw [if_pos hq]
    cases hbefore : before p with
    | none => exact Or.inr ⟨by rw [hq, hbefore], fun srv hsrv => nomatch hsrv⟩
    | some srv =>
        refine Or.inl ⟨rfl, srv, List.mem_singleton.2 rfl, ?_⟩
        rw [hq]
        exact (hkeys srv hbefore).2
  · rw [if_neg hq]
    refine Or.inr ⟨rfl, fun srv hsrv hport => hq ?_⟩
    rw [← hport]
    exact (hkeys srv (Option.mem_toList.1 hsrv)).2

section

variable {T : Type} [MapOps T Server] [LawfulMap T Server] {s : Ns T} {e : Event}

omit [LawfulMap T Server] in
theorem carried_eq_linkPart (smooth : e.Smooth) (peer : UInt32) :
    carried s e peer = linkPart peer (nsStep s e).2 := by
  rw [carried, smooth.sends, taken_nil]
  rfl

/-- Handling a HELLO of the peer with nothing failing sends it back, and all servers of the own node. -/
theorem carried_hello {s : Ns T} (hs : s.TablesOk) {e : Event} (smooth : e.Smooth)
    (running : s.sockOpen = true) (hhello : IsHello e.datagram) {peer : UInt32}
    (sender : e.sq = { node := peer, port := qrtrPortCtrl }) :
    carried s e peer = e.received ::
      (forEach (s.services s.localNode)).map (announcePkt s.order qrtrTypeNewServer) := by
  have hecho : ({ call := .helloEcho, dest := e.sq, payload := e.received } : Msg).goesTo peer = true :=
    goesTo_peer sender
  rw [carried_eq_linkPart smooth, nsStep_hello hs running hhello smooth.allocs smooth.sends,
    linkPart_cons hecho, sender, linkPart_announce]

/-- All servers of a node are gone. -/
theorem Tells.all (hs : s.TablesOk) (hd : s.Distinct) {order : HostOrder} {node : UInt32}
    {after : UInt32 → Option Server} (hafter : ∀ q, after q = none) :
    Tells order node (s.server node) after
      ((forEach (s.services node)).map (announcePkt order qrtrTypeDelServer)) := by
  refine .gone (fun srv hsrv => ?_) fun q => ?_
  · obtain ⟨k, hentry⟩ := mem_forEach.1 hsrv
    exact (hs.keyed hentry).1
  · rw [hafter]
    cases hq : s.server node q with
    | some srv =>
        have hport := (hs.server_node_port hq).2
        rw [← hport] at hq
        exact Or.inl ⟨rfl, srv, (mem_forEach_server hs hd).2 hq, hport⟩
    | none =>
        refine Or.inr ⟨rfl, fun srv hsrv hport => ?_⟩
        have hsome := (mem_forEach_server hs hd).1 hsrv
        rw [hport, hq] at hsome
        cases hsome

/-- What the handling of a datagram from a client of its own node makes a name server tell its peer. -/
theorem Happens.tells {a : Action} {services : UInt32 → T} {lookups : List Lookup} {msgs : List Msg}
    {rc : Int} (h : Happens s e a services lookups msgs rc) (hs : s.TablesOk) (hd : s.Distinct)
    (hc : s.ClientsApart)
    (hports : ∀ {k srv}, Entry (services s.localNode) k srv → srv.port ≠ qrtrPortCtrl)
    (hchecked : a.Checked s.localNode e.sq) (smooth : e.Smooth) (own : e.sq.node = s.localNode)
    (client : e.sq.port ≠ qrtrPortCtrl) (peer : UInt32) :
    Tells s.order s.localNode (s.server s.localNode) (a.servers s.server s.localNode)
      (linkPart peer msgs) := by
  have hkeys : ∀ p srv, s.server s.localNode p = some srv → srv.node = s.localNode ∧ srv.port = p :=
    fun p srv hsrv => hs.server_node_port hsrv
  -- what is propagated to local servers stays on the node, like what is sent to the client itself
  cases h with
  | nothing why => exact .nothing (funext fun q => why.servers_eq hs smooth.allocs _ q)
  | hello first all hrc =>
      rw [linkPart_eq_nil]
      · exact .nothing rfl
      · intro m hm
        rcases List.mem_cons.1 hm with rfl | htold
        · exact client
        · obtain ⟨srv, -, rfl⟩ := List.mem_map.1 htold
          exact client
  | bye removal complete tell all =>
      obtain ⟨rfl, -⟩ := complete (hd _) fun i k srv hi => (hs.keyed ⟨i, hi⟩).2
      have hnode : ∀ srv ∈ forEach (s.services e.sq.node), srv.node = s.localNode := by
        intro srv hsrv
        obtain ⟨k, hentry⟩ := mem_forEach.1 hsrv
        exact (hs.keyed hentry).1.trans own
      rw [linkPart_append, linkPart_flatMap_delMsgs hc.lookups hnode,
        linkPart_eq_nil fun m hm => port_of_mem_told hports tell (fun _ => rfl) hm, List.append_nil, own]
      exact .all hs hd fun q => if_pos rfl
  | @closePort n p gone told t removal tell all =>
      have hlocal : n = s.localNode := hchecked.1.trans own
      subst hlocal
      have hgone : gone = (s.server s.localNode p).toList := by
        rw [server_eq_get hs.nodesOk]
        exact removal.gone_eq smooth.allocs
      have hnode : ∀ srv ∈ gone, srv.node = s.localNode := by
        intro srv hsrv
        rw [hgone] at hsrv
        exact (hkeys p srv (Option.mem_toList.1 hsrv)).1
      have hlookups : ∀ l ∈ s.lookupsWithout s.localNode p, l.sq.port ≠ qrtrPortCtrl :=
        fun l hl => hc.lookups l (List.mem_filter.1 hl).1
      have hdels : linkPart peer (gone.flatMap
          ({ s with lookups := s.lookupsWithout s.localNode p } : Ns T).delMsgs) =
          gone.map (announcePkt s.order qrtrTypeDelServer) :=
        linkPart_flatMap_delMsgs (s := { s with lookups := s.lookupsWithout s.localNode p }) hlookups
          hnode peer
      rw [linkPart_append, hdels,
        linkPart_eq_nil fun m hm => port_of_mem_told hports tell (fun _ => rfl) hm, List.append_nil, hgone]
      refine .port (hkeys p) fun q => ?_
      simp only [Action.servers, true_and]
  | @register srv plan _ hplan hput hrc =>
      obtain ⟨hnode, hport, hservice, hportNe⟩ := hchecked
      have hlocal : srv.node = s.localNode := hnode.trans own
      rw [linkPart_newMsgs hc.lookups hlocal]
      refine .new hlocal hservice hportNe fun q => ?_
      simp only [Action.servers, hlocal, true_and]
  | @unregister n p srv found =>
      have hlocal : n = s.localNode := hchecked.1.trans own
      subst hlocal
      have hsrv : s.server s.localNode p = some srv := (server_eq_get hs.nodesOk _ _).trans found
      have htells : Tells s.order s.localNode (s.server s.localNode)
          ((Action.unregister s.localNode p).servers s.server s.localNode)
          ((s.server s.localNode p).toList.map (announcePkt s.order qrtrTypeDelServer)) := by
        refine .port (hkeys p) fun q => ?_
        simp only [Action.servers, true_and]
      rw [linkPart_delMsgs hc.lookups (hkeys p srv hsrv).1]
      rw [hsrv] at htells
      exact htells
  | @watch l reply hreply =>
      have hsq : l.sq.port ≠ qrtrPortCtrl := by
        rw [hchecked.2]
        exact client
      rw [linkPart_eq_nil]
      · exact .nothing rfl
      · intro m hm
        rcases List.mem_append.1 hm with hmem | hend
        · obtain ⟨srv, -, rfl⟩ := List.mem_map.1 hmem
          exact hsq
        · rw [List.mem_singleton.1 hend]
          exact hsq
  | unwatch => exact .nothing rfl

end

/-! ### What the peer makes of it -/

/-- One table holds no server that another does not hold. -/
def Within (f g : UInt32 → Option Server) : Prop := ∀ q srv, f q = some srv → g q = some srv

/-- Datagrams that take a table within `before` to one within `after`, and to `after` itself if the table was
    all of `before` or the datagrams tell everything afresh. -/
def Repeats (node : UInt32) (before after : UInt32 → Option Server) (datagrams : List (List UInt8))
    (fresh : Prop) : Prop :=
  ∃ actions, List.Forall₂ (StandsFor node) datagrams actions ∧ ∀ f : Registry,
    Within (f node) before → Within (replay actions f node) after ∧
      (fresh ∨ f node = before → replay actions f node = after)

/-- The servers of a node after actions on one port each: an action of the port decides, or none was. -/
theorem replay_ports {node : UInt32} {act : Server → Action} {value : Server → Option Server}
    {servers : List Server}
    (hact : ∀ srv ∈ servers, ∀ (f : Registry) (q : UInt32),
      (act srv).servers f node q = if q = srv.port then value srv else f node q)
    (f : Registry) (q : UInt32) :
    (∃ srv ∈ servers, srv.port = q ∧ replay (servers.map act) f node q = value srv) ∨
      (∀ srv ∈ servers, srv.port ≠ q) ∧ replay (servers.map act) f node q = f node q := by
  induction servers generalizing f with
  | nil => exact Or.inr ⟨fun srv hsrv => absurd hsrv List.not_mem_nil, rfl⟩
  | cons srv servers ih =>
      have hfirst := hact srv List.mem_cons_self f q
      rcases ih (fun srv' hsrv' => hact srv' (List.mem_cons_of_mem _ hsrv')) ((act srv).servers f) with
        ⟨srv', hsrv', hport, hlast⟩ | ⟨hnone, hrest⟩
      · exact Or.inl ⟨srv', List.mem_cons_of_mem _ hsrv', hport, hlast⟩
      · by_cases hq : srv.port = q
        · rw [if_pos hq.symm] at hfirst
          exact Or.inl ⟨srv, List.mem_cons_self, hq, hrest.trans hfirst⟩
        · rw [if_neg fun h => hq h.symm] at hfirst
          exact Or.inr ⟨List.forall_mem_cons.2 ⟨hq, hnone⟩, hrest.trans hfirst⟩

theorem register_servers {node : UInt32} {srv : Server} (hnode : srv.node = node) (f : Registry)
    (q : UInt32) :
    (Action.register srv).servers f node q = if q = srv.port then some srv else f node q := by
  simp only [Action.servers, hnode, true_and]

theorem unregister_servers {node : UInt32} {srv : Server} (hnode : srv.node = node) (f : Registry)
    (q : UInt32) :
    (Action.unregister srv.node srv.port).servers f node q =
      if q = srv.port then none else f node q := by
  simp only [Action.servers, hnode, true_and]

/-- Datagrams of one kind stand for the actions of theirs. -/
theorem forall₂_map {α β γ : Type} {R : β → γ → Prop} {f : α → β} {g : α → γ} {l : List α}
    (h : ∀ x ∈ l, R (f x) (g x)) : List.Forall₂ R (l.map f) (l.map g) := by
  rw [List.forall₂_map_left_iff, List.forall₂_map_right_iff, List.forall₂_same]
  exact h

/-- Actions that give each port what `after` holds there, or leave a port alone that `after` leaves alone,
    repeat the change. -/
theorem repeats_of_ports {node : UInt32} {before after : UInt32 → Option Server}
    {datagrams : List (List UInt8)} {actions : List Action}
    (hstands : List.Forall₂ (StandsFor node) datagrams actions)
    (h : ∀ (f : Registry) (q : UInt32), replay actions f node q = after q ∨
      replay actions f node q = f node q ∧ after q = before q) :
    Repeats node before after datagrams False := by
  refine ⟨actions, hstands, fun f hf => ⟨fun q srv hsrv => ?_, fun hwhole => funext fun q => ?_⟩⟩
  · rcases h f q with hnow | ⟨hsame, hafter⟩
    · rw [← hnow]
      exact hsrv
    · rw [hsame] at hsrv
      rw [hafter]
      exact hf q srv hsrv
  · rcases h f q with hnow | ⟨hsame, hafter⟩
    · exact hnow
    · rw [hsame, hafter, hwhole.resolve_left id]

/-- What a name server tells its peer lets that follow it. -/
theorem Tells.repeats {order : HostOrder} {node : UInt32} {before after : UInt32 → Option Server}
    {datagrams : List (List UInt8)} (h : Tells order node before after datagrams) :
    Repeats node before after datagrams False := by
  cases h with
  | nothing same =>
      subst same
      exact repeats_of_ports .nil fun f q => Or.inr ⟨rfl, rfl⟩
  | @new srv owned service port added =>
      subst owned
      refine repeats_of_ports (.cons (standsFor_new order service port) .nil) fun f q => ?_
      have hreplay : replay [.register srv] f srv.node q =
          if q = srv.port then some srv else f srv.node q := register_servers rfl f q
      rw [hreplay, added]
      by_cases hq : q = srv.port
      · exact Or.inl (by rw [if_pos hq, if_pos hq])
      · exact Or.inr ⟨if_neg hq, if_neg hq⟩
  | @gone gone owned removed =>
      have hstands : List.Forall₂ (StandsFor node) (gone.map (announcePkt order qrtrTypeDelServer))
          (gone.map fun srv => .unregister srv.node srv.port) := by
        refine forall₂_map fun srv hsrv => ?_
        rw [← owned srv hsrv]
        exact standsFor_del order srv
      refine repeats_of_ports hstands fun f q => ?_
      have hreplay := replay_ports (fun srv hsrv => unregister_servers (owned srv hsrv)) f q
      rcases hreplay with ⟨srv, hsrv, hport, hnone⟩ | ⟨hother, hsame⟩
      · rcases removed q with ⟨hafter, -⟩ | ⟨-, hother⟩
        · exact Or.inl (hnone.trans hafter.symm)
        · exact absurd hport (hother srv hsrv)
      · rcases removed q with ⟨-, srv, hsrv, hport⟩ | ⟨hafter, -⟩
        · exact absurd hport (hother srv hsrv)
        · exact Or.inr ⟨hsame, hafter⟩

/-- A HELLO and all servers of the node tell everything afresh. -/
theorem repeats_of_all {order : HostOrder} {node : UInt32} {table : UInt32 → Option Server}
    {hello : List UInt8} {told : List Server} (hhello : IsHello hello)
    (hall : ∀ srv, srv ∈ told ↔ table srv.port = some srv)
    (hkeys : ∀ q srv, table q = some srv → srv.node = node ∧ srv.port = q)
    (hvalid : ∀ srv ∈ told, srv.service ≠ 0 ∧ srv.port ≠ 0) :
    Repeats node table table (hello :: told.map (announcePkt order qrtrTypeNewServer)) True := by
  have hnode : ∀ srv ∈ told, srv.node = node := fun srv hsrv => (hkeys _ srv ((hall srv).1 hsrv)).1
  refine ⟨.hello :: told.map .register,
    .cons (hhello.standsFor node) (forall₂_map fun srv hsrv => ?_), fun f hf => ?_⟩
  · rw [← hnode srv hsrv]
    exact standsFor_new order (hvalid srv hsrv).1 (hvalid srv hsrv).2
  · have hwhole : replay (.hello :: told.map .register) f node = table := by
      funext q
      change replay (told.map .register) f node q = table q
      rcases replay_ports (fun srv hsrv => register_servers (hnode srv hsrv)) f q with
        ⟨srv, hsrv, hport, hsome⟩ | ⟨hother, hsame⟩
      · rw [hsome, ← hport, (hall srv).1 hsrv]
      · rw [hsame]
        cases hq : table q with
        | some srv =>
            obtain ⟨-, hport⟩ := hkeys q srv hq
            exact absurd hport (hother srv ((hall srv).2 (hport ▸ hq)))
        | none =>
            cases hf' : f node q with
            | none => rfl
            | some srv => exact nomatch hq.symm.trans (hf q srv hf')
    rw [hwhole]
    exact ⟨fun q srv hsrv => hsrv, fun _ => rfl⟩

/-! ### Every configuration -/

/-- The sender of a checked action touches the servers of its own node alone. -/
theorem Action.servers_of_checked {a : Action} {localNode : UInt32} {sq : Sockaddr}
    (h : a.Checked localNode sq) {n : UInt32} (hne : n ≠ sq.node) (f : Registry) :
    a.servers f n = f n := by
  funext q
  cases a with
  | bye m => exact if_neg fun heq => hne (heq.trans h)
  | closePort m p => exact if_neg fun heq => hne (heq.1.trans h.1)
  | register srv => exact if_neg fun heq => hne (heq.1.trans h.1)
  | unregister m p => exact if_neg fun heq => hne (heq.1.trans h.1)
  | _ => rfl

section

variable {T : Type} [MapOps T Server] [ReplacingMap T Server]

theorem Ns.plain_of_replacing (s : Ns T) (a : Action) : s.Plain a :=
  fun srv _ => ReplacingMap.putOk (s.services srv.node) (hashU32 srv.port)

theorem Ns.Distinct.step {s : Ns T} (hd : s.Distinct) (hs : s.TablesOk) (e : Event) :
    (nsStep s e).1.Distinct := hd.plain_step hs (s.plain_of_replacing _)

/-- A name server that has been running is in order. -/
theorem Ns.Started.inv {s : Ns T} (h : s.Started) : s.Inv ∧ s.Distinct ∧ s.ClientsApart := by
  obtain ⟨order, localNode, events, hfrom, rfl⟩ := h
  have hrun : ∀ (events : List Event) (s : Ns T), (∀ e ∈ events, e.sq ≠ s.ctrlSq) → s.Inv → s.Distinct →
      s.ClientsApart → (Run.final nsStep s events).Inv ∧ (Run.final nsStep s events).Distinct ∧
        (Run.final nsStep s events).ClientsApart := by
    intro events
    induction events with
    | nil => exact fun s _ hs hd hc => ⟨hs, hd, hc⟩
    | cons e events ih =>
        intro s hfrom hs hd hc
        have hctrl : (nsStep s e).1.ctrlSq = s.ctrlSq := by
          rw [Ns.ctrlSq, Ns.ctrlSq, (nsStep_frame hs.nodesOk hs.ok e).2.1]
        refine ih (nsStep s e).1 (fun e' he' => ?_) (hs.step e) (hd.step hs.toTablesOk e)
          (hc.step hs.toTablesOk (hfrom e List.mem_cons_self))
        rw [hctrl]
        exact hfrom e' (List.mem_cons_of_mem _ he')
  exact hrun events _ hfrom (.init order localNode) (.init order localNode) (.init order localNode)

/-- The invariant of a pair of name servers: what is in flight to `b` takes its table of the node of `a` to
    one within that of `a`, and to that table itself once `a` has handled a HELLO. -/
structure Paired (greeted : Prop) (c : Config T) : Prop extends c.Inv where
  distinct : ∀ i, (c.server i).Distinct
  flight : ∃ actions,
    List.Forall₂ (StandsFor (c.server .a).localNode) (c.inbox .b) actions ∧
      Within (replay actions (c.server .b).server (c.server .a).localNode) c.own ∧
      (greeted → replay actions (c.server .b).server (c.server .a).localNode = c.own)

theorem Paired.step_distinct {greeted : Prop} {c : Config T} (h : Paired greeted c) (i : Side) (e : Event) :
    ∀ j, ((c.handle i e).server j).Distinct := by
  rw [Side.forall_iff i, Config.server_handle, Config.server_handle_other]
  exact ⟨(h.distinct i).step (h.inv i).toTablesOk e, h.distinct i.other⟩

/-- A step of `a` whose datagrams repeat what it did to its table. -/
theorem Paired.handle_a {greeted fresh : Prop} {c : Config T} (h : Paired greeted c) {e : Event}
    (he : e.sq ≠ (c.server .a).ctrlSq)
    (hrepeats : Repeats (c.server .a).localNode c.own
      ((nsStep (c.server .a) e).1.server (c.server .a).localNode)
      (carried (c.server .a) e (c.server .b).localNode) fresh) :
    Paired (greeted ∨ fresh) (c.handle .a e) := by
  obtain ⟨actions, hstand, hwithin, hgreeted⟩ := h.flight
  obtain ⟨actions', hstand', hrepeat⟩ := hrepeats
  have hnode : ((c.handle .a e).server .a).localNode = (c.server .a).localNode :=
    (nsStep_frame (h.inv .a).nodesOk (h.inv .a).ok e).2.1
  have hown : (c.handle .a e).own =
      (nsStep (c.server .a) e).1.server (c.server .a).localNode := by
    rw [Config.own, hnode]
    rfl
  obtain ⟨hwithin', hwhole⟩ := hrepeat (replay actions (c.server .b).server) hwithin
  refine ⟨h.toInv.handle he, h.step_distinct .a e, actions ++ actions', ?_, ?_, ?_⟩
  · rw [hnode]
    exact List.rel_append hstand hstand'
  · rw [hown, hnode, replay_append]
    exact hwithin'
  · intro hboth
    rw [hown, hnode, replay_append]
    apply hwhole
    rcases hboth with hold | hfresh
    · exact Or.inr (hgreeted hold)
    · exact Or.inl hfresh

/-- A step of `b` that comes to the table of the node of `a` as the next datagram in flight does. -/
theorem Paired.handle_b {greeted : Prop} {c c' : Config T} (h : Paired greeted c) {e : Event}
    (he : e.sq ≠ (c.server .b).ctrlSq) {rest : List (List UInt8)} (hc' : c' = (c.setInbox .b rest).handle .b e)
    (hview : ∀ actions, List.Forall₂ (StandsFor (c.server .a).localNode) (c.inbox .b) actions →
      ∃ actions', List.Forall₂ (StandsFor (c.server .a).localNode) rest actions' ∧
        replay actions' (nsStep (c.server .b) e).1.server (c.server .a).localNode =
          replay actions (c.server .b).server (c.server .a).localNode) : Paired greeted c' := by
  subst hc'
  obtain ⟨actions, hstand, hwithin, hgreeted⟩ := h.flight
  obtain ⟨actions', hstand', hsame⟩ := hview actions hstand
  refine ⟨(h.toInv.setInbox .b rest).handle he, h.step_distinct .b e, actions', ?_, ?_, ?_⟩
  · exact hstand'
  · change Within (replay actions' (nsStep (c.server .b) e).1.server (c.server .a).localNode) c.own
    rw [hsame]
    exact hwithin
  · change greeted → replay actions' (nsStep (c.server .b) e).1.server (c.server .a).localNode = c.own
    rw [hsame]
    exact hgreeted

/-- Handling a datagram of another node leaves the own servers alone. -/
theorem server_own_of_remote {s : Ns T} (hs : s.TablesOk) (hd : s.Distinct) {e : Event} (smooth : e.Smooth)
    {n : UInt32} (hne : n ≠ e.sq.node) : (nsStep s e).1.server n = s.server n := by
  obtain ⟨-, hserver, -⟩ := nsStep_refines hs hd (s.plain_of_replacing _) smooth.allocs
  rw [hserver]
  exact Action.servers_of_checked (s.action_checked e) hne s.server

/-- What a client of its node makes `a` tell is what happens to the table of `a`. -/
theorem Paired.client_a {greeted : Prop} {c : Config T} (h : Paired greeted c) {e : Event}
    (smooth : e.Smooth) (own : e.sq.node = (c.server .a).localNode) (client : e.sq.port ≠ qrtrPortCtrl) :
    Paired greeted (c.handle .a e) := by
  have hs := (h.inv .a).toTablesOk
  have hctrl : e.sq ≠ (c.server .a).ctrlSq := fun heq => client (congrArg Sockaddr.port heq)
  obtain ⟨⟨rc, hhappens⟩, -⟩ := nsStep_happens hs.nodesOk hs.ok e
  obtain ⟨-, hserver, -⟩ := nsStep_refines hs (h.distinct .a) (Ns.plain_of_replacing _ _) smooth.allocs
  have hafter := (h.clients .a).step hs hctrl
  have htells := hhappens.tells hs (h.distinct .a) (h.clients .a)
    (by
      intro k srv hentry
      rw [← (nsStep_frame hs.nodesOk hs.ok e).2.1] at hentry
      exact hafter.servers hentry)
    ((c.server .a).action_checked e) smooth own client (c.server .b).localNode
  rw [← carried_eq_linkPart smooth, ← hserver] at htells
  have hpaired := h.handle_a hctrl htells.repeats
  rwa [or_false] at hpaired

/-- What a datagram of the peer makes `a` tell: nothing, or everything afresh if it is a HELLO. -/
theorem Paired.deliver_a {greeted : Prop} {c : Config T} (h : Paired greeted c) {e : Event}
    {rest : List (List UInt8)} (smooth : e.Smooth) (running : (c.server .a).sockOpen = true)
    (sender : e.sq = (c.server .b).ctrlSq) :
    Paired (greeted ∨ IsHello e.datagram) ((c.setInbox .a rest).handle .a e) := by
  have hset : Paired greeted (c.setInbox .a rest) := ⟨h.toInv.setInbox .a rest, h.distinct, h.flight⟩
  have hs := (h.inv .a).toTablesOk
  have hsq : e.sq = { node := (c.server .b).localNode, port := qrtrPortCtrl } := sender
  have hctrl : e.sq ≠ (c.server .a).ctrlSq := by
    rw [sender]
    exact h.sender_ne .a
  have hsame : (nsStep (c.server .a) e).1.server (c.server .a).localNode = c.own := by
    apply server_own_of_remote hs (h.distinct .a) smooth
    rw [sender]
    exact (h.nodes .a).symm
  refine hset.handle_a hctrl ?_
  simp only [Config.server_setInbox]
  rw [hsame]
  by_cases hhello : IsHello e.datagram
  · have hall : ∀ srv, srv ∈ forEach ((c.server .a).services (c.server .a).localNode) ↔
        c.own srv.port = some srv := fun srv => mem_forEach_server hs (h.distinct .a)
    have hvalid : ∀ srv ∈ forEach ((c.server .a).services (c.server .a).localNode),
        srv.service ≠ 0 ∧ srv.port ≠ 0 := by
      intro srv hsrv
      obtain ⟨k, hentry⟩ := mem_forEach.1 hsrv
      exact (h.inv .a).nonzero hentry
    rw [carried_hello hs smooth running hhello hsq, eq_true hhello]
    exact repeats_of_all hhello.take hall (fun q srv hsrv => hs.server_node_port hsrv) hvalid
  · have hnil := h.toInv.carried_eq_nil (i := .a) sender hhello (c.server .b).localNode
    rw [hnil]
    exact ⟨[], .nil, fun f hf => ⟨hf, fun hwhole => hwhole.resolve_left hhello⟩⟩

theorem replay_hello (datagrams : List (List UInt8)) (f : Registry) :
    replay (datagrams.map fun _ => .hello) f = f := by
  induction datagrams with
  | nil => rfl
  | cons p datagrams ih => exact ih

theorem Joined.paired {greeted : Prop} {c : Config T} (h : Joined greeted c) : Paired greeted c := by
  induction h with
  | @start c servers apart empty hellos =>
      refine ⟨⟨fun i => (servers i).inv.1, fun i => (servers i).inv.2.2, ?_⟩,
        fun i => (servers i).inv.2.1, (c.inbox .b).map fun _ => .hello, ?_, ?_, False.elim⟩
      · rw [Side.forall_iff .a]
        exact ⟨apart.symm, apart⟩
      · rw [List.forall₂_map_right_iff, List.forall₂_same]
        exact fun p hp => (hellos .b p hp).standsFor _
      · rw [replay_hello]
        intro q srv hsrv
        exact nomatch (empty q).symm.trans hsrv
  | @client greeted c i e _ smooth own client ih =>
      cases i with
      | a => exact ih.client_a smooth own client
      | b =>
          have hs := (ih.inv .b).toTablesOk
          have hset : c.handle .b e = (c.setInbox .b (c.inbox .b)).handle .b e := by
            rw [Config.setInbox, Function.update_eq_self]
          refine ih.handle_b (fun heq => client (congrArg Sockaddr.port heq)) hset fun actions hstand =>
            ⟨actions, hstand, replay_congr actions ?_⟩
          apply server_own_of_remote hs (ih.distinct .b) smooth
          rw [own]
          exact ih.nodes .b
  | @deliver greeted c i e rest _ smooth running flight sender ih =>
      cases i with
      | a =>
          have hpaired : Paired (greeted ∨ IsHello e.datagram) ((c.setInbox .a rest).handle .a e) :=
            ih.deliver_a smooth running sender
          simp only [true_and]
          exact hpaired
      | b =>
          have hs := (ih.inv .b).toTablesOk
          have hsq : e.sq = { node := (c.server .a).localNode, port := qrtrPortCtrl } := sender
          have hctrl : e.sq ≠ (c.server .b).ctrlSq := by
            rw [sender]
            exact ih.sender_ne .b
          simp only [reduceCtorEq, false_and, or_false]
          refine ih.handle_b hctrl rfl fun actions hstand => ?_
          rw [flight] at hstand
          cases hstand with
          | @cons _ a _ actions hfirst hrest =>
              obtain ⟨-, hserver, -⟩ := nsStep_refines hs (ih.distinct .b) (Ns.plain_of_replacing _ _)
                smooth.allocs
              have haction : (c.server .b).action e = a := by
                rw [Ns.action, if_pos running]
                exact (hfirst e _ rfl hsq (ih.nodes .b)).1
              refine ⟨actions, hrest, ?_⟩
              rw [hserver, haction]
              rfl

/-- A running name server makes of the datagrams in flight what they stand for. -/
theorem final_server {node : UInt32} :
    ∀ {events : List Event} {actions : List Action} {s : Ns T},
      List.Forall₂ (StandsFor node) (events.map Event.datagram) actions →
      (∀ e ∈ events, e.sq = { node := node, port := qrtrPortCtrl }) → (∀ e ∈ events, e.Smooth) →
      s.TablesOk → s.Distinct → s.sockOpen = true → node ≠ s.localNode →
      (Run.final nsStep s events).server = replay actions s.server
  | [], _, s, .nil, _, _, _, _, _, _ => rfl
  | e :: events, _, s, @List.Forall₂.cons _ _ _ _ a _ actions hfirst hrest, hsq, hsmooth, hs, hd, hopen,
      hne => by
      have hsmooth' := List.forall_mem_cons.1 hsmooth
      have hsq' := List.forall_mem_cons.1 hsq
      obtain ⟨hactionOf, hreceived⟩ := hfirst e s.localNode rfl hsq'.1 hne
      obtain ⟨-, hserver, -⟩ := nsStep_refines hs hd (s.plain_of_replacing (s.action e)) hsmooth'.1.allocs
      have haction : s.action e = a := by
        rw [Ns.action, if_pos hopen]
        exact hactionOf
      obtain ⟨-, hnode, hstays⟩ := nsStep_frame hs.nodesOk hs.ok e
      have htail := final_server hrest hsq'.2 hsmooth'.2 (hs.step e) (hd.step hs e)
        ((hstays hreceived).trans hopen) (by rwa [hnode])
      rw [hserver, haction] at htail
      exact htail

end

/-- In every configuration of two name servers that were joined, `b` will hold no server of `a` that `a`
    does not hold, and exactly those once `a` has handled a HELLO. -/
theorem agreement {T : Type} [MapOps T Server] [ReplacingMap T Server] {greeted : Prop} {c : Config T}
    (h : Joined greeted c) : Agreement greeted c := by
  have hpaired := h.paired
  obtain ⟨actions, hstand, hwithin, hgreeted⟩ := hpaired.flight
  have hs := (hpaired.inv .b).toTablesOk
  have hview : ∀ events, InFlight c .b events →
      c.view events = replay actions (c.server .b).server (c.server .a).localNode := by
    intro events hflight
    rw [← hflight.datagrams] at hstand
    have hfinal := final_server (s := (c.server .b).running) hstand hflight.sender hflight.smooth
      ⟨hs.nodesOk, hs.ok, hs.keyed⟩ (hpaired.distinct .b) rfl (hpaired.nodes .b)
    exact congrFun hfinal (c.server .a).localNode
  constructor
  · intro events hflight p srv hsrv
    rw [hview events hflight] at hsrv
    exact hwithin p srv hsrv
  · intro hhello events hflight
    rw [hview events hflight]
    exact hgreeted hhello

/-- The two name servers after the HELLO of `b` was handled and a client of `a` registered a server. -/
def greetedPair : Config (SlotRow Server) :=
  (((Config.start (fun _ => .little) fun i => if i = .a then 1 else 2).setInbox .a []).handle .a
    (Event.ofWords { node := 2, port := qrtrPortCtrl } [qrtrTypeHello, 0, 0, 0, 0])).handle .a
      (Event.ofWords { node := 1, port := 5 } [qrtrTypeNewServer, 7, 1, 1, 5])

set_option maxRecDepth 4000 in
/-- What is in flight then takes `b` to the server that `a` has. -/
theorem agreement_greeted :
    greetedPair.own 5 = some { service := 7, inst := 1, node := 1, port := 5 } ∧
      ∀ events, InFlight greetedPair .b events → greetedPair.view events = greetedPair.own := by
  refine ⟨by decide +kernel, ?_⟩
  have hstart : Joined False
      (.start (fun _ => .little) fun i => if i = .a then 1 else 2 : Config (SlotRow Server)) := by
    refine .start (fun i => ⟨_, _, [], fun e he => absurd he List.not_mem_nil, rfl⟩) (by decide)
      (fun p => rfl) fun i p hp => ?_
    have his : IsHello (helloPkt .little) := ⟨by decide, by decide⟩
    rw [List.mem_singleton.1 hp]
    exact his
  have hhello := hstart.deliver .a (e := Event.ofWords { node := 2, port := qrtrPortCtrl }
    [qrtrTypeHello, 0, 0, 0, 0]) ⟨rfl, rfl⟩ rfl rfl rfl
  have hjoined := hhello.client .a (e := Event.ofWords { node := 1, port := 5 }
    [qrtrTypeNewServer, 7, 1, 1, 5]) ⟨rfl, rfl⟩ (by decide +kernel) (by decide)
  exact (agreement hjoined).equal (Or.inr ⟨rfl, by decide, by decide⟩)

end Qrtr
