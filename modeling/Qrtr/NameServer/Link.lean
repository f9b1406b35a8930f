/-
Module: Qrtr.NameServer.Link
Layer: NameServer
Purpose: Two name servers on different nodes and the datagrams in flight between their control ports.
  What a step of one of them puts on the link is what it sends to the other's control port or to all of
  them. As long as both run, a HELLO in flight is answered by a HELLO, so that the exchange never comes
  to rest; without one it does, since nothing else that is delivered sends anything to the other side.
Imports: NameServer.Receive
Main exports: Side, Config, Config.handle, carried, IsHello, Delivers, Config.start_inbox, Config.Reachable,
  Ns.ClientsApart, Happens.remote_stays, rests_iff
Open obligations: none
-/
import Qrtr.NameServer.Receive

namespace Qrtr

open MapOps LawfulMap

/-! ### Two name servers and a link -/

/-- One of the two ends of the link. -/
inductive Side where
  | a
  | b
deriving DecidableEq, Repr

/-- The opposite end. -/
def Side.other : Side → Side
  | .a => .b
  | .b => .a

@[simp] theorem Side.other_other (i : Side) : i.other.other = i := by cases i <;> rfl

@[simp] theorem Side.other_ne (i : Side) : i.other ≠ i := by cases i <;> nofun

/-- Both ends have a property if one of them and its opposite do. -/
theorem Side.forall_iff {p : Side → Prop} (i : Side) : (∀ j, p j) ↔ p i ∧ p i.other := by
  constructor
  · exact fun h => ⟨h i, h i.other⟩
  · rintro ⟨hi, hother⟩ j
    cases i <;> cases j <;> assumption

/-- The datagrams that `sendto` took, of those it was handed; `sends` are the outcomes of the calls. -/
def taken : List Bool → List Msg → List Msg
  | _, [] => []
  | sends, m :: msgs => (if sends.headD true then [m] else []) ++ taken sends.tail msgs

/-- The datagram goes to the control port of the name server on `peer`. -/
def Msg.goesTo (peer : UInt32) (m : Msg) : Bool :=
  m.dest == bcastSq || m.dest == { node := peer, port := qrtrPortCtrl }

/-- The datagram asks for what a HELLO does. -/
def IsHello (datagram : List UInt8) : Prop :=
  4 ≤ datagram.length ∧ receivedWord datagram 0 = qrtrTypeHello

/-- Two name servers, and the datagrams in flight to the control port of each from that of the other. -/
structure Config (T : Type) where
  server : Side → Ns T
  inbox : Side → List (List UInt8)

section

variable {T : Type}

/-- The control port of a name server. -/
def Ns.ctrlSq (s : Ns T) : Sockaddr where
  node := s.localNode
  port := qrtrPortCtrl

/-- The configuration with other datagrams in flight to one side. -/
def Config.setInbox (c : Config T) (i : Side) (datagrams : List (List UInt8)) : Config T :=
  { c with inbox := Function.update c.inbox i datagrams }

variable [MapOps T Server]

/-- What a step of a name server puts on the link to its peer. -/
def carried (s : Ns T) (e : Event) (peer : UInt32) : List (List UInt8) :=
  ((taken e.sends (nsStep s e).2).filter (Msg.goesTo peer)).map Msg.payload

/-- One name server handles a datagram, and what it sends to the other is in flight. -/
def Config.handle (c : Config T) (i : Side) (e : Event) : Config T where
  server := Function.update c.server i (nsStep (c.server i) e).1
  inbox := Function.update c.inbox i.other
    (c.inbox i.other ++ carried (c.server i) e (c.server i.other).localNode)

/-- A datagram in flight is delivered to a name server that runs, and handled. -/
inductive Delivers (c : Config T) : Config T → Prop where
  | mk {i : Side} {before after : List (List UInt8)} {e : Event}
      (running : (c.server i).sockOpen = true) (flight : c.inbox i = before ++ e.datagram :: after)
      (sender : e.sq = (c.server i.other).ctrlSq) :
      Delivers c ((c.setInbox i (before ++ after)).handle i e)

/-- The two name servers as `main` sets them up, each having said hello. -/
def Config.start (order : Side → HostOrder) (node : Side → UInt32) : Config T where
  server i := nsInit (order i) (node i)
  inbox i := [helloPkt (order i.other)]

/-- What is in flight at the start is what `say_hello` has sent. -/
theorem Config.start_inbox (order : Side → HostOrder) (node : Side → UInt32) (i : Side) (e : Event)
    (hsends : e.sends = []) :
    (Config.start order node : Config T).inbox i =
      ((taken e.sends (sayHello ((nsInit (order i.other) (node i.other) : Ns T).exec e)).2.sent).filter
        (Msg.goesTo (node i))).map Msg.payload := by
  have hsent : (sayHello ((nsInit (order i.other) (node i.other) : Ns T).exec e)).2.sent =
      [{ call := .sayHello, dest := bcastSq, payload := helloPkt (order i.other) }] := by
    unfold sayHello
    dsimp only
    split <;> rfl
  rw [hsent, hsends]
  simp [taken, Msg.goesTo, Config.start]

/-- A configuration that comes about after start-up: datagrams come from clients, which are at other ports
    than the control port, and from the link. -/
inductive Config.Reachable : Config T → Prop where
  | start {order : Side → HostOrder} {node : Side → UInt32} (apart : node .a ≠ node .b) :
      Config.Reachable (.start order node)
  | client {c : Config T} (i : Side) {e : Event} (h : Config.Reachable c)
      (client : e.sq.port ≠ qrtrPortCtrl) : Config.Reachable (c.handle i e)
  | deliver {c c' : Config T} (h : Config.Reachable c) (step : Delivers c c') : Config.Reachable c'

end

/-! ### What goes over the link -/

theorem taken_nil : ∀ msgs : List Msg, taken [] msgs = msgs
  | [] => rfl
  | m :: msgs => congrArg (List.cons m) (taken_nil msgs)

theorem mem_of_mem_taken {m : Msg} : ∀ {sends : List Bool} {msgs : List Msg},
    m ∈ taken sends msgs → m ∈ msgs
  | sends, m' :: msgs, h => by
      rw [taken, List.mem_append] at h
      rcases h with hhead | htail
      · split at hhead
        · rw [List.mem_singleton.1 hhead]
          exact List.mem_cons_self
        · cases hhead
      · exact List.mem_cons_of_mem _ (mem_of_mem_taken htail)

/-- What goes to a control port has its number. -/
theorem Msg.port_of_goesTo {peer : UInt32} {m : Msg} (h : m.goesTo peer = true) :
    m.dest.port = qrtrPortCtrl := by
  rw [Msg.goesTo, Bool.or_eq_true, beq_iff_eq, beq_iff_eq] at h
  rcases h with hbcast | hpeer
  · rw [hbcast]
    rfl
  · rw [hpeer]

section

variable {T : Type}

/-- No lookup and no local server is at a control port. -/
structure Ns.ClientsApart [MapOps T Server] [LawfulMap T Server] (s : Ns T) : Prop where
  lookups : ∀ l ∈ s.lookups, l.sq.port ≠ qrtrPortCtrl
  servers : ∀ {k srv}, Entry (s.services s.localNode) k srv → srv.port ≠ qrtrPortCtrl

theorem port_of_mem_notifyMsgs {s : Ns T} (hlookups : ∀ l ∈ s.lookups, l.sq.port ≠ qrtrPortCtrl)
    {srv : Server} {new : Bool} {m : Msg} (hm : m ∈ s.notifyMsgs srv new) :
    m.dest.port ≠ qrtrPortCtrl := by
  obtain ⟨l, hl, rfl⟩ := List.mem_map.1 hm
  exact hlookups l (List.mem_filter.1 hl).1

/-- What is propagated to the servers of a table goes to their ports. -/
theorem port_of_mem_told [MapOps T Server] [LawfulMap T Server] {t : T}
    (hports : ∀ {k srv}, Entry t k srv → srv.port ≠ qrtrPortCtrl) {told : List Server}
    (tell : told = [] ∨ told = forEach t) {msg : Server → Msg}
    (hdest : ∀ srv, (msg srv).dest.port = srv.port) {m : Msg} (hm : m ∈ told.map msg) :
    m.dest.port ≠ qrtrPortCtrl := by
  obtain ⟨srv, hsrv, rfl⟩ := List.mem_map.1 hm
  rcases tell with rfl | rfl
  · cases hsrv
  · obtain ⟨k, hentry⟩ := mem_forEach.1 hsrv
    rw [hdest]
    exact hports hentry

/-- A remote server is not announced. -/
theorem delMsgs_remote {s : Ns T} {srv : Server} (h : srv.node ≠ s.localNode) :
    s.delMsgs srv = s.notifyMsgs srv false := by
  rw [Ns.delMsgs, if_neg h]
  exact List.nil_append _

theorem newMsgs_remote {s : Ns T} {srv : Server} (h : srv.node ≠ s.localNode) :
    s.newMsgs srv = s.notifyMsgs srv true := by
  rw [Ns.newMsgs, if_neg h]
  exact List.nil_append _

variable [MapOps T Server] [LawfulMap T Server]

theorem Ns.ClientsApart.init (order : HostOrder) (localNode : UInt32) :
    (nsInit order localNode : Ns T).ClientsApart where
  lookups _ hl := by cases hl
  servers h := absurd h (not_entry_create _ _)

/-- Datagrams from elsewhere than the name server's own control port keep clients apart from it. -/
theorem Ns.ClientsApart.step {s : Ns T} (h : s.ClientsApart) (hs : s.TablesOk) {e : Event}
    (he : e.sq ≠ s.ctrlSq) : (nsStep s e).1.ClientsApart := by
  obtain ⟨⟨rc, hhappens⟩, -⟩ := nsStep_happens hs.nodesOk hs.ok e
  have hchecked := s.action_checked e
  have hport : e.sq.node = s.localNode → e.sq.port ≠ qrtrPortCtrl :=
    fun hnode hctrl => he (Sockaddr.ext hnode hctrl)
  constructor
  · intro l hl
    rcases hhappens.lookup hl with hold | ha
    · exact h.lookups l hold
    · rw [ha] at hchecked
      obtain ⟨hlocal, hsq⟩ := hchecked
      rw [hsq]
      exact hport hlocal
  · intro k srv hentry
    rw [(nsStep_frame hs.nodesOk hs.ok e).2.1] at hentry
    rcases hhappens.entry hs.ok hentry with hold | ⟨ha, hnode, -⟩
    · exact h.servers hold
    · rw [ha] at hchecked
      obtain ⟨hsq, hown, -, -⟩ := hchecked
      have hlocal : e.sq.node = s.localNode := by rw [← hsq, ← hnode]
      rw [hown hlocal]
      exact hport hlocal

/-- A datagram of another node that is no HELLO makes a name server send nothing to a control port. -/
theorem Happens.remote_stays {s : Ns T} {e : Event} {a : Action} {services : UInt32 → T}
    {lookups : List Lookup} {msgs : List Msg} {rc : Int}
    (h : Happens s e a services lookups msgs rc) (hs : s.TablesOk) (hc : s.ClientsApart)
    (hafter : ∀ {k srv}, Entry (services s.localNode) k srv → srv.port ≠ qrtrPortCtrl)
    (hremote : e.sq.node ≠ s.localNode) (hchecked : a.Checked s.localNode e.sq) (ha : a ≠ .hello) :
    ∀ m ∈ msgs, m.dest.port ≠ qrtrPortCtrl := by
  have hgone : ∀ {n : UInt32} {k : UInt32} {srv : Server}, n = e.sq.node → Entry (s.services n) k srv →
      srv.node ≠ s.localNode := by
    intro n k srv hn hentry
    rw [(hs.keyed hentry).1, hn]
    exact hremote
  cases h with
  | nothing why => exact fun m hm => nomatch hm
  | hello first all hrc => exact absurd rfl ha
  | bye removal complete tell all =>
      intro m hm
      rcases List.mem_append.1 hm with hdel | hbye
      · obtain ⟨srv, hsrv, hmsg⟩ := List.mem_flatMap.1 hdel
        obtain ⟨k, hentry⟩ := removal.entry_of_mem (hs.ok _) hsrv
        rw [delMsgs_remote (hgone rfl hentry)] at hmsg
        exact port_of_mem_notifyMsgs hc.lookups hmsg
      · exact port_of_mem_told hafter tell (fun _ => rfl) hbye
  | @closePort n p gone told t removal tell all =>
      intro m hm
      rcases List.mem_append.1 hm with hdel | htold
      · obtain ⟨srv, hsrv, hmsg⟩ := List.mem_flatMap.1 hdel
        obtain ⟨k, hentry⟩ := removal.removal.entry_of_mem (hs.ok _) hsrv
        have hnode : srv.node ≠ s.localNode := hgone hchecked.1 hentry
        rw [delMsgs_remote (s := { s with lookups := s.lookupsWithout n p }) hnode] at hmsg
        exact port_of_mem_notifyMsgs (fun l hl => hc.lookups l (List.mem_filter.1 hl).1) hmsg
      · exact port_of_mem_told hafter tell (fun _ => rfl) htold
  | @register srv plan _ hplan hput hrc =>
      have hnode : srv.node ≠ s.localNode := by
        rw [hchecked.1]
        exact hremote
      rw [newMsgs_remote hnode]
      exact fun m hm => port_of_mem_notifyMsgs hc.lookups hm
  | @unregister n p srv found =>
      have hentry : Entry (s.services n) (hashU32 p) srv := live_of_get (hs.ok n) found
      rw [delMsgs_remote (hgone hchecked.1 hentry)]
      exact fun m hm => port_of_mem_notifyMsgs hc.lookups hm
  | watch hreply => exact absurd hchecked.1 hremote
  | unwatch => exact fun m hm => nomatch hm

end

/-! ### HELLO -/

theorem Event.delClientAction_ne_hello (localNode : UInt32) (e : Event) :
    e.delClientAction localNode ≠ .hello := by
  unfold Event.delClientAction
  split <;> nofun

theorem Event.newServerAction_ne_hello (localNode : UInt32) (e : Event) :
    e.newServerAction localNode ≠ .hello := by
  simp only [Event.newServerAction]
  generalize (if e.sq.node = localNode then e.sq.port else e.word 16) = port
  split
  · intro h
    cases h
  · intro h
    cases h

theorem Event.delServerAction_ne_hello (localNode : UInt32) (e : Event) :
    e.delServerAction localNode ≠ .hello := by
  unfold Event.delServerAction
  split
  · nofun
  · split <;> nofun

theorem Event.newLookupAction_ne_hello (localNode : UInt32) (e : Event) :
    e.newLookupAction localNode ≠ .hello := by
  unfold Event.newLookupAction
  split <;> nofun

theorem length_received (e : Event) : 4 ≤ e.received.length ↔ 4 ≤ e.datagram.length := by
  rw [Event.received, List.length_take]
  omega

/-- The first word of a datagram is its own. -/
theorem Event.word_zero {e : Event} (h : 4 ≤ e.datagram.length) :
    e.word 0 = receivedWord e.datagram 0 := by
  have hword : e.word 0 = receivedWord e.received 0 := bufferWord_of_le ((length_received e).2 h)
  rw [hword, receivedWord, receivedWord, Event.received, List.drop_zero, List.drop_zero, List.take_take]
  rfl

/-- A datagram is handled as a HELLO exactly if it is one. -/
theorem Event.action_eq_hello_iff (localNode : UInt32) (e : Event) :
    e.action localNode = .hello ↔ IsHello e.datagram := by
  unfold Event.action
  by_cases hlen : 4 ≤ e.datagram.length
  · have hlen' := (length_received e).2 hlen
    rw [if_neg (Nat.not_lt.2 hlen')]
    by_cases hhello : e.word 0 = qrtrTypeHello
    · rw [if_pos hhello]
      rw [e.word_zero hlen] at hhello
      exact iff_of_true rfl ⟨hlen, hhello⟩
    · rw [if_neg hhello]
      rw [e.word_zero hlen] at hhello
      refine iff_of_false ?_ fun h => hhello h.2
      split
      · nofun
      split
      · exact e.delClientAction_ne_hello localNode
      split
      · exact e.newServerAction_ne_hello localNode
      split
      · exact e.delServerAction_ne_hello localNode
      split
      · exact e.newLookupAction_ne_hello localNode
      split <;> nofun
  · have hshort : e.received.length < 4 := by
      rw [← Nat.not_le, length_received]
      exact hlen
    rw [if_pos hshort]
    exact iff_of_false nofun fun h => hlen h.1

theorem IsHello.take {datagram : List UInt8} (h : IsHello datagram) : IsHello (datagram.take 4096) := by
  obtain ⟨hlen, hword⟩ := h
  constructor
  · rw [List.length_take]
    omega
  · rw [← hword, receivedWord, receivedWord, List.drop_zero, List.drop_zero, List.take_take]
    rfl

/-! ### Configurations -/

section

variable {T : Type}

@[simp] theorem Config.server_setInbox (c : Config T) (i : Side) (datagrams : List (List UInt8)) :
    (c.setInbox i datagrams).server = c.server := rfl

@[simp] theorem Config.inbox_setInbox (c : Config T) (i : Side) (datagrams : List (List UInt8)) :
    (c.setInbox i datagrams).inbox i = datagrams := Function.update_self ..

@[simp] theorem Config.inbox_setInbox_other (c : Config T) (i : Side) (datagrams : List (List UInt8)) :
    (c.setInbox i datagrams).inbox i.other = c.inbox i.other :=
  Function.update_of_ne i.other_ne ..

/-- The number of datagrams in flight. -/
def Config.inFlight (c : Config T) : Nat := (c.inbox .a).length + (c.inbox .b).length

theorem Config.inFlight_eq (c : Config T) (i : Side) :
    c.inFlight = (c.inbox i).length + (c.inbox i.other).length := by
  cases i with
  | a => rfl
  | b => exact Nat.add_comm _ _

/-- The configuration holds no HELLO in flight. -/
def Config.NoHello (c : Config T) : Prop := ∀ i, ∀ p ∈ c.inbox i, ¬ IsHello p

variable [MapOps T Server]

@[simp] theorem Config.server_handle (c : Config T) (i : Side) (e : Event) :
    (c.handle i e).server i = (nsStep (c.server i) e).1 := Function.update_self ..

@[simp] theorem Config.server_handle_other (c : Config T) (i : Side) (e : Event) :
    (c.handle i e).server i.other = c.server i.other := Function.update_of_ne i.other_ne ..

@[simp] theorem Config.inbox_handle (c : Config T) (i : Side) (e : Event) :
    (c.handle i e).inbox i = c.inbox i := Function.update_of_ne i.other_ne.symm ..

@[simp] theorem Config.inbox_handle_other (c : Config T) (i : Side) (e : Event) :
    (c.handle i e).inbox i.other =
      c.inbox i.other ++ carried (c.server i) e (c.server i.other).localNode := Function.update_self ..

variable [LawfulMap T Server]

/-- What holds of every configuration: each name server is in order, the nodes are different, and clients
    are not at control ports. -/
structure Config.Inv (c : Config T) : Prop where
  inv : ∀ i, (c.server i).Inv
  clients : ∀ i, (c.server i).ClientsApart
  nodes : ∀ i, (c.server i.other).localNode ≠ (c.server i).localNode

theorem Config.Inv.setInbox {c : Config T} (h : c.Inv) (i : Side) (datagrams : List (List UInt8)) :
    (c.setInbox i datagrams).Inv := ⟨h.inv, h.clients, h.nodes⟩

/-- Handling a datagram from elsewhere than the name server's own control port keeps the invariant. -/
theorem Config.Inv.handle {c : Config T} (h : c.Inv) {i : Side} {e : Event}
    (he : e.sq ≠ (c.server i).ctrlSq) : (c.handle i e).Inv := by
  have hframe := nsStep_frame (h.inv i).nodesOk (h.inv i).ok e
  have hnodes := h.nodes i
  refine ⟨?_, ?_, ?_⟩
  · rw [Side.forall_iff i, Config.server_handle, Config.server_handle_other]
    exact ⟨(h.inv i).step e, h.inv i.other⟩
  · rw [Side.forall_iff i, Config.server_handle, Config.server_handle_other]
    exact ⟨(h.clients i).step (h.inv i).toTablesOk he, h.clients i.other⟩
  · rw [Side.forall_iff i, Side.other_other, Config.server_handle, Config.server_handle_other,
      hframe.2.1]
    exact ⟨hnodes, hnodes.symm⟩

/-- The peer is not the name server itself. -/
theorem Config.Inv.sender_ne {c : Config T} (h : c.Inv) (i : Side) :
    (c.server i.other).ctrlSq ≠ (c.server i).ctrlSq :=
  fun heq => h.nodes i (congrArg Sockaddr.node heq)

theorem Config.Inv.delivers {c c' : Config T} (h : c.Inv) (hstep : Delivers c c') : c'.Inv := by
  cases hstep with
  | @mk i before after e running flight sender =>
      apply (h.setInbox i _).handle
      rw [sender]
      exact h.sender_ne i

theorem Config.Inv.start {order : Side → HostOrder} {node : Side → UInt32} (h : node .a ≠ node .b) :
    (Config.start order node : Config T).Inv where
  inv i := .init (order i) (node i)
  clients i := .init (order i) (node i)
  nodes i := by
    cases i with
    | a => exact h.symm
    | b => exact h

theorem Config.Reachable.inv {c : Config T} (h : c.Reachable) : c.Inv := by
  induction h with
  | start apart => exact .start apart
  | client i _ client ih => exact ih.handle fun heq => client (congrArg Sockaddr.port heq)
  | deliver _ step ih => exact ih.delivers step

/-! ### Deliveries -/

/-- A delivery without a HELLO puts nothing on the link. -/
theorem Config.Inv.carried_eq_nil {c : Config T} (h : c.Inv) {i : Side} {e : Event}
    (sender : e.sq = (c.server i.other).ctrlSq) (hhello : ¬ IsHello e.datagram) (peer : UInt32) :
    carried (c.server i) e peer = [] := by
  have hs := (h.inv i).toTablesOk
  have hremote : e.sq.node ≠ (c.server i).localNode := by
    rw [sender]
    exact h.nodes i
  have ha : (c.server i).action e ≠ .hello := by
    unfold Ns.action
    split
    · exact fun haction => hhello ((e.action_eq_hello_iff _).1 haction)
    · nofun
  obtain ⟨⟨rc, hhappens⟩, -⟩ := nsStep_happens hs.nodesOk hs.ok e
  have hafter := (h.handle (e := e) (sender ▸ h.sender_ne i)).clients i
  rw [Config.server_handle] at hafter
  have hports := hhappens.remote_stays hs (h.clients i)
    (by
      intro k srv hentry
      rw [← (nsStep_frame hs.nodesOk hs.ok e).2.1] at hentry
      exact hafter.servers hentry)
    hremote ((c.server i).action_checked e) ha
  rw [carried, List.map_eq_nil_iff, List.filter_eq_nil_iff]
  intro m hm hgoes
  exact hports m (mem_of_mem_taken hm) (Msg.port_of_goesTo hgoes)

/-- A HELLO that is handled with nothing failing goes back to its sender, all local servers behind it. -/
theorem nsStep_hello {s : Ns T} (hs : s.TablesOk) {e : Event} (running : s.sockOpen = true)
    (hhello : IsHello e.datagram) (hallocs : e.allocs = []) (hsends : e.sends = []) :
    (nsStep s e).2 = { call := .helloEcho, dest := e.sq, payload := e.received } ::
      (forEach (s.services s.localNode)).map (announceNewMsg s.order e.sq) := by
  have ha : s.action e = .hello := by
    rw [Ns.action, if_pos running]
    exact (e.action_eq_hello_iff _).2 hhello
  obtain ⟨⟨rc, hhappens⟩, -⟩ := nsStep_happens hs.nodesOk hs.ok e
  rw [ha] at hhappens
  generalize (nsStep s e).1.services = services at hhappens
  generalize (nsStep s e).1.lookups = lookups at hhappens
  generalize (nsStep s e).2 = msgs at hhappens
  cases hhappens with
  | nothing why => simp [Ns.Idle, hallocs] at why
  | hello first all hrc => rw [all hallocs hsends]

theorem Config.Inv.echo_mem_carried {c : Config T} (h : c.Inv) {i : Side} {e : Event}
    (running : (c.server i).sockOpen = true) (sender : e.sq = (c.server i.other).ctrlSq)
    (hhello : IsHello e.datagram) (hallocs : e.allocs = []) (hsends : e.sends = []) :
    e.received ∈ carried (c.server i) e (c.server i.other).localNode := by
  rw [carried, nsStep_hello (h.inv i).toTablesOk running hhello hallocs hsends, hsends, taken_nil]
  refine List.mem_map.2 ⟨_, List.mem_filter.2 ⟨List.mem_cons_self, ?_⟩, rfl⟩
  rw [Msg.goesTo, sender, Bool.or_eq_true]
  exact Or.inr (beq_self_eq_true _)

/-- Without a HELLO each delivery leaves one datagram less in flight. -/
theorem Config.Inv.fewer {c c' : Config T} (h : c.Inv) (hno : c.NoHello) (hstep : Delivers c c') :
    c'.NoHello ∧ c'.inFlight < c.inFlight := by
  cases hstep with
  | @mk i before after e running flight sender =>
      have hpayload : ¬ IsHello e.datagram := hno i _ (by rw [flight]; simp)
      have hnone := h.carried_eq_nil sender hpayload (c.server i.other).localNode
      constructor
      · rw [Config.NoHello, Side.forall_iff i]
        simp only [Config.inbox_handle, Config.inbox_handle_other, Config.inbox_setInbox,
          Config.inbox_setInbox_other, Config.server_setInbox, hnone, List.append_nil]
        refine ⟨fun p hp => hno i p ?_, hno i.other⟩
        rw [flight]
        rcases List.mem_append.1 hp with hbefore | hafter
        · exact List.mem_append_left _ hbefore
        · exact List.mem_append_right _ (List.mem_cons_of_mem _ hafter)
      · rw [Config.inFlight_eq _ i, c.inFlight_eq i, Config.inbox_handle, Config.inbox_handle_other,
          Config.inbox_setInbox, Config.inbox_setInbox_other, Config.server_setInbox, hnone, flight]
        simp only [List.length_append, List.length_cons, List.length_nil]
        omega

omit [LawfulMap T Server] in
/-- A name server that has closed its socket receives nothing, and each delivery to the other leaves one
    datagram less in flight to that. -/
theorem Config.fewer_of_closed {c c' : Config T} {i : Side} (hclosed : (c.server i).sockOpen = false)
    (hstep : Delivers c c') :
    (c'.server i).sockOpen = false ∧ (c'.inbox i.other).length < (c.inbox i.other).length := by
  cases hstep with
  | @mk j before after e running flight sender =>
      have hj : j = i.other := by
        cases i <;> cases j <;> first | rfl | exact absurd (hclosed.symm.trans running) nofun
      subst hj
      have hserver := ((c.setInbox i.other (before ++ after)).server_handle_other i.other e)
      rw [Side.other_other] at hserver
      constructor
      · rw [hserver]
        exact hclosed
      · rw [Config.inbox_handle, Config.inbox_setInbox, flight]
        simp only [List.length_append, List.length_cons]
        omega

/-- Both name servers run, and a HELLO is in flight. -/
structure Config.Greeting (c : Config T) : Prop extends c.Inv where
  running : ∀ i, (c.server i).sockOpen = true
  hello : ∃ i, ∃ p ∈ c.inbox i, IsHello p

/-- The HELLO can be delivered, and then another one is in flight. -/
theorem Config.Greeting.next {c : Config T} (h : c.Greeting) : ∃ c', Delivers c c' ∧ c'.Greeting := by
  obtain ⟨i, p, hp, hhello⟩ := h.hello
  obtain ⟨before, after, flight⟩ := List.append_of_mem hp
  obtain ⟨e, he⟩ : ∃ e : Event, e =
      { sq := (c.server i.other).ctrlSq, datagram := p, stale := fun _ => 0, stack := fun _ => 0,
        allocs := [], sends := [] } := ⟨_, rfl⟩
  have hdatagram : e.datagram = p := by rw [he]
  have sender : e.sq = (c.server i.other).ctrlSq := by rw [he]
  rw [← hdatagram] at flight hhello
  have hstep : Delivers c ((c.setInbox i (before ++ after)).handle i e) :=
    .mk (h.running i) flight sender
  have hs := (h.inv i).toTablesOk
  have hecho := (h.setInbox i (before ++ after)).echo_mem_carried (h.running i) sender hhello
    (by rw [he]) (by rw [he])
  refine ⟨_, hstep, h.delivers hstep, ?_, i.other, e.received, ?_, hhello.take⟩
  · rw [Side.forall_iff i, Config.server_handle, Config.server_handle_other]
    refine ⟨?_, h.running i.other⟩
    have hne : e.received ≠ [] := fun hnil => by
      have hlen := (length_received e).2 hhello.1
      rw [hnil] at hlen
      exact absurd hlen (by decide)
    exact ((nsStep_frame hs.nodesOk hs.ok e).2.2 hne).trans (h.running i)
  · rw [Config.inbox_handle_other]
    exact List.mem_append_right _ hecho

end

/-- From a configuration after start-up there is no infinite sequence of deliveries if and only if no HELLO
    is in flight or one of the name servers has closed its socket. -/
theorem rests_iff {c : Config (Map Server)} (h : c.Reachable) :
    Acc (fun c' c => Delivers c c') c ↔ c.NoHello ∨ ∃ i, (c.server i).sockOpen = false := by
  constructor
  · intro hacc
    by_contra hnot
    obtain ⟨hhello, hopen⟩ := not_or.1 hnot
    simp only [Config.NoHello, not_forall, not_not] at hhello
    simp only [not_exists, Bool.not_eq_false] at hopen
    obtain ⟨i, p, hp, his⟩ := hhello
    have hgreeting : c.Greeting := ⟨h.inv, hopen, i, p, hp, his⟩
    have hnext : ∀ c : Config (Map Server), c.Greeting → ∃ c', Delivers c c' ∧ c'.Greeting :=
      fun _ hc => hc.next
    exact Run.not_acc_of_step hnext hgreeting hacc
  · rintro (hno | ⟨i, hclosed⟩)
    · have hfewer : ∀ c c' : Config (Map Server), c.Inv ∧ c.NoHello → Delivers c c' →
          (c'.Inv ∧ c'.NoHello) ∧ c'.inFlight < c.inFlight := by
        intro c c' ⟨hinv, hno⟩ hstep
        obtain ⟨hno', hlt⟩ := hinv.fewer hno hstep
        exact ⟨⟨hinv.delivers hstep, hno'⟩, hlt⟩
      exact Run.acc_of_measure Config.inFlight hfewer ⟨h.inv, hno⟩
    · have hfewer : ∀ c c' : Config (Map Server), (c.server i).sockOpen = false → Delivers c c' →
          (c'.server i).sockOpen = false ∧ (c'.inbox i.other).length < (c.inbox i.other).length :=
        fun _ _ hc hstep => Config.fewer_of_closed hc hstep
      exact Run.acc_of_measure (fun c => (c.inbox i.other).length) hfewer hclosed

/-- The HELLO of one side at the other, where the echo fails to go out. -/
def lostEcho (node : UInt32) : Event where
  sq := { node := node, port := qrtrPortCtrl }
  datagram := helloPkt .little
  stale := fun _ => 0
  stack := fun _ => 0
  allocs := []
  sends := [false]

/-- Both HELLOs of start-up are handled and no echo goes out; then a server registers on one side. -/
theorem rests_iff_lost :
    ∃ c : Config (Map Server), c.Reachable ∧
      c.inbox .b = [announcePkt .little qrtrTypeNewServer { service := 7, inst := 1, node := 1, port := 5 }] ∧
      Acc (fun c' c => Delivers c c') c := by
  obtain ⟨c, hc⟩ : ∃ c : Config (Map Server),
      c = .start (fun _ => .little) (fun i => if i = .a then 1 else 2) := ⟨_, rfl⟩
  have hreach : c.Reachable := hc ▸ .start (by decide)
  have hfirst : Delivers c ((c.setInbox .b ([] ++ [])).handle .b (lostEcho 1)) := by
    rw [hc]
    exact .mk rfl rfl rfl
  have hsecond : Delivers ((c.setInbox .b ([] ++ [])).handle .b (lostEcho 1))
      ((((c.setInbox .b ([] ++ [])).handle .b (lostEcho 1)).setInbox .a ([] ++ [])).handle .a
        (lostEcho 2)) := by
    rw [hc]
    exact .mk rfl rfl rfl
  have hboth := ((hreach.deliver hfirst).deliver hsecond).client .a
    (e := Event.ofWords { node := 1, port := 5 } [qrtrTypeNewServer, 7, 1, 0, 0]) (by decide)
  obtain ⟨last, hlast⟩ : ∃ last, last =
      ((((c.setInbox .b ([] ++ [])).handle .b (lostEcho 1)).setInbox .a ([] ++ [])).handle .a
        (lostEcho 2)).handle .a (Event.ofWords { node := 1, port := 5 } [qrtrTypeNewServer, 7, 1, 0, 0]) :=
    ⟨_, rfl⟩
  rw [← hlast] at hboth
  have ha : last.inbox .a = [] := by
    rw [hlast, hc]
    decide +kernel
  have hb : last.inbox .b =
      [announcePkt .little qrtrTypeNewServer { service := 7, inst := 1, node := 1, port := 5 }] := by
    rw [hlast, hc]
    decide +kernel
  refine ⟨last, hboth, hb, (rests_iff hboth).2 (Or.inl ?_)⟩
  intro i p hp
  cases i with
  | a =>
      rw [ha] at hp
      cases hp
  | b =>
      rw [hb, List.mem_singleton] at hp
      rw [hp]
      exact fun h => absurd h.2 (by decide +kernel)

/-- The two HELLOs of start-up go back and forth for ever. -/
theorem not_rests : ¬ ∀ c : Config (Map Server), c.Reachable → Acc (fun c' c => Delivers c c') c := by
  intro hall
  obtain ⟨c, hc⟩ : ∃ c : Config (Map Server), c = .start (fun _ => .little) (fun i => if i = .a then 1 else 2) :=
    ⟨_, rfl⟩
  have hreach : c.Reachable := hc ▸ .start (by decide)
  have hgreeting : c.Greeting := by
    refine ⟨hreach.inv, ?_, .a, helloPkt .little, ?_, ?_⟩
    · rw [hc]
      exact fun i => rfl
    · rw [hc]
      exact List.mem_singleton.2 rfl
    · exact ⟨by decide, by decide⟩
  have hnext : ∀ c : Config (Map Server), c.Greeting → ∃ c', Delivers c c' ∧ c'.Greeting :=
    fun _ hc => hc.next
  exact Run.not_acc_of_step hnext hgreeting (hall c hreach)

end Qrtr
