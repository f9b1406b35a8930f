/-
Module: Qrtr.NameServer.Steps
Layer: NameServer
Purpose: What a control datagram asks for, and everything that handling it can do. `Event.action` reads
  the datagram and makes the checks that a handler makes before it acts; `Happens` lists, for each
  action, the tables, the lookups, the datagrams and the return code that can come out, failed
  allocations and sends included. Every invariant is derived from `nsStep_happens`.
Imports: Qrtr.NameServer.Handlers
Main exports: Action, Event.action, Ns.action, Happens, ctrlPortFn_handled, nsStep_happens, nsStep_frame,
  Sends, Happens.sends, Sends.notify_payload
Open obligations: none
-/
import Qrtr.NameServer.Handlers

namespace Qrtr

open MapOps LawfulMap

/-! ### What a datagram asks for -/

/-- The bytes that `recvfrom` puts into the buffer. -/
def Event.received (e : Event) : List UInt8 := e.datagram.take 4096

/-- The word at an offset of the receive buffer. -/
def Event.word (e : Event) (offset : Nat) : UInt32 :=
  ofLe32 ((e.stale.write 0 e.received).bytes offset 4)

/-- What a control datagram asks the name server to do, once it has passed the checks made of it. -/
inductive Action where
  | ignored
  | hello
  | bye (node : UInt32)
  | closePort (node port : UInt32)
  | register (srv : Server)
  | unregister (node port : UInt32)
  | watch (lookup : Lookup)
  | unwatch (sq : Sockaddr) (service inst : UInt32)
deriving DecidableEq, Repr

/-- The action of a DEL_CLIENT. -/
def Event.delClientAction (localNode : UInt32) (e : Event) : Action :=
  if e.sq.node = e.word 4 ∧ (e.sq.node = localNode → e.sq.port = e.word 8) then
    .closePort (e.word 4) (e.word 8)
  else .ignored

/-- The action of a NEW_SERVER: a local sender registers itself, another node its own ports. -/
def Event.newServerAction (localNode : UInt32) (e : Event) : Action :=
  let port := if e.sq.node = localNode then e.sq.port else e.word 16
  if (e.sq.node = localNode ∨ e.sq.node = e.word 12) ∧ e.word 4 ≠ 0 ∧ port ≠ 0 then
    .register { service := e.word 4, inst := e.word 8, node := e.sq.node, port := port }
  else .ignored

/-- The action of a DEL_SERVER. -/
def Event.delServerAction (localNode : UInt32) (e : Event) : Action :=
  if e.sq.node = localNode then .unregister e.sq.node e.sq.port
  else if e.sq.node = e.word 12 then .unregister e.sq.node (e.word 16)
  else .ignored

/-- The action of a NEW_LOOKUP: only local senders may look up. -/
def Event.newLookupAction (localNode : UInt32) (e : Event) : Action :=
  if e.sq.node = localNode then .watch { service := e.word 4, inst := e.word 8, sq := e.sq }
  else .ignored

/-- The action of a datagram at a name server on a node. -/
def Event.action (localNode : UInt32) (e : Event) : Action :=
  if e.received.length < 4 then .ignored
  else if e.word 0 = qrtrTypeHello then .hello
  else if e.word 0 = qrtrTypeBye then .bye e.sq.node
  else if e.word 0 = qrtrTypeDelClient then e.delClientAction localNode
  else if e.word 0 = qrtrTypeNewServer then e.newServerAction localNode
  else if e.word 0 = qrtrTypeDelServer then e.delServerAction localNode
  else if e.word 0 = qrtrTypeNewLookup then e.newLookupAction localNode
  else if e.word 0 = qrtrTypeDelLookup then .unwatch e.sq (e.word 4) (e.word 8)
  else .ignored

variable {T : Type}

/-- The action of a datagram in a state: none once the socket is closed. -/
def Ns.action (s : Ns T) (e : Event) : Action :=
  if s.sockOpen then e.action s.localNode else .ignored

/-- The lookups that are left when those of an address are removed. -/
def Ns.lookupsWithout (s : Ns T) (node port : UInt32) : List Lookup :=
  s.lookups.filter fun lookup => !(lookup.sq.node == node && lookup.sq.port == port)

/-- The lookups that a DEL_LOOKUP leaves. -/
def Ns.lookupsUnwatched (s : Ns T) (sq : Sockaddr) (service inst : UInt32) : List Lookup :=
  s.lookups.filter fun lookup =>
    !(lookup.sq.node == sq.node && lookup.sq.port == sq.port && lookup.service == service &&
      (lookup.inst == 0 || lookup.inst == inst))

/-! ### Everything a handler can do -/

section

variable [MapOps T Server]

/-- Why nothing may happen: nothing valid was asked for, an allocation failed, or the server to
    unregister is not there. -/
def Ns.Idle (s : Ns T) (e : Event) (a : Action) : Prop :=
  a = .ignored ∨ e.allocs ≠ [] ∨
    ∃ n p, a = .unregister n p ∧ get (s.services n) (hashU32 p) = none

/-- The servers that the removal for a closed port takes out of the table of its node. -/
inductive PortGone (s : Ns T) (e : Event) (n p : UInt32) : List Server → T → Prop where
  | kept (why : e.allocs ≠ [] ∨ get (s.services n) (hashU32 p) = none) :
      PortGone s e n p [] (s.services n)
  | gone {srv : Server} (found : get (s.services n) (hashU32 p) = some srv) :
      PortGone s e n p [srv] (remove (s.services n) (hashU32 p))

variable [LawfulMap T Server]

/-- The tables, the lookups, the datagrams and the return code that handling an event can end with. -/
inductive Happens (s : Ns T) (e : Event) :
    Action → (UInt32 → T) → List Lookup → List Msg → Int → Prop where
  | nothing {a : Action} {rc : Int} (why : s.Idle e a) :
      Happens s e a s.services s.lookups [] rc
  | hello {told : List Server} {rc : Int} (first : told <+: forEach (s.services s.localNode))
      (all : e.allocs = [] → e.sends = [] → told = forEach (s.services s.localNode))
      (hrc : -1 ≤ rc) :
      Happens s e .hello s.services s.lookups
        ({ call := .helloEcho, dest := e.sq, payload := e.received } ::
          told.map (announceNewMsg s.order e.sq)) rc
  | bye {gone told : List Server} {t : T} (removal : Removal (s.services e.sq.node) gone t)
      (complete : Single (s.services e.sq.node) → Keyed (s.services e.sq.node) →
        gone = forEach (s.services e.sq.node) ∧ ∀ i, live t i = none)
      (tell : told = [] ∨
        told = forEach (Function.update s.services e.sq.node t s.localNode))
      (all : e.allocs = [] → told = forEach (Function.update s.services e.sq.node t s.localNode)) :
      Happens s e (.bye e.sq.node) (Function.update s.services e.sq.node t) s.lookups
        (gone.flatMap s.delMsgs ++ told.map (byeMsg s.order e.sq.node)) 0
  | closePort {n p : UInt32} {gone told : List Server} {t : T} (removal : PortGone s e n p gone t)
      (tell : told = [] ∨ told = forEach (Function.update s.services n t s.localNode))
      (all : e.allocs = [] → told = forEach (Function.update s.services n t s.localNode)) :
      Happens s e (.closePort n p) (Function.update s.services n t) (s.lookupsWithout n p)
        (gone.flatMap ({ s with lookups := s.lookupsWithout n p } : Ns T).delMsgs ++
          told.map (delClientMsg s.order e.stack n p)) 0
  | register {srv : Server} {plan : AllocPlan} {rc : Int} (hplan : e.allocs = [] → plan = [])
      (hput : (reput plan (s.services srv.node) (hashU32 srv.port) srv).rc = 0) (hrc : -1 ≤ rc)
      (hrecord : mapGet s.nodes (hashU32 srv.node) ≠ none → calloc e.allocs = (true, plan)) :
      Happens s e (.register srv)
        (Function.update s.services srv.node
          (reput plan (s.services srv.node) (hashU32 srv.port) srv).table)
        s.lookups (s.newMsgs srv) rc
  | unregister {n p : UInt32} {srv : Server} (found : get (s.services n) (hashU32 p) = some srv) :
      Happens s e (.unregister n p)
        (Function.update s.services n (remove (s.services n) (hashU32 p)))
        s.lookups (s.delMsgs srv) 0
  | watch {l : Lookup} {reply : List Server}
      (hreply : ∀ srv, srv ∈ reply ↔
        (∃ n, srv ∈ forEach (s.services n)) ∧ l.observes srv.service srv.inst = true) :
      Happens s e (.watch l) s.services (s.lookups ++ [l])
        ((reply.map fun srv => notifyMsg s.order l.sq (some srv) true) ++
          [notifyMsg s.order l.sq none true]) 0
  | unwatch {sq : Sockaddr} {service inst : UInt32} :
      Happens s e (.unwatch sq service inst) s.services (s.lookupsUnwatched sq service inst) [] 0

end

/-! ### One lemma for each handler -/

variable [MapOps T Server] [LawfulMap T Server]

/-- The state a handler ends in, with its return code, is one that can happen, and the node records
    are in order. -/
structure Handled (s : Ns T) (e : Event) (a : Action) (r : Int × Exec T) : Prop where
  happens : Happens s e a r.2.services r.2.lookups r.2.sent r.1
  nodesOk : NodesOk r.2.nodes r.2.services
  order : r.2.order = s.order
  localNode : r.2.localNode = s.localNode
  sockOpen : e.received ≠ [] → r.2.sockOpen = s.sockOpen

theorem Handled.nothing {s : Ns T} {e : Event} {a : Action} {nodes : Map UInt32}
    {allocs : AllocPlan} {rc : Int} (why : s.Idle e a) (h : NodesOk nodes s.services) :
    Handled s e a (rc, (s.exec e).renode nodes allocs) where
  happens := .nothing why
  nodesOk := h
  order := rfl
  localNode := rfl
  sockOpen _ := rfl

/-- A handler that ends in a state that can happen. -/
theorem Handled.of_eq {s : Ns T} {e : Event} {a : Action} {r : Int × Exec T} {rc : Int}
    {w : Exec T} (hr : r = (rc, w)) (happens : Happens s e a w.services w.lookups w.sent rc)
    (nodesOk : NodesOk w.nodes w.services) (order : w.order = s.order := by exact rfl)
    (localNode : w.localNode = s.localNode := by exact rfl)
    (sockOpen : e.received ≠ [] → w.sockOpen = s.sockOpen := by exact fun _ => rfl) :
    Handled s e a r := by
  subst hr
  exact ⟨happens, nodesOk, order, localNode, sockOpen⟩

section

variable {s : Ns T} {e : Event}

theorem ctrlCmdHello_handled (h : NodesOk s.nodes s.services) (hlen : e.received ≠ []) :
    Handled s e .hello (ctrlCmdHello (s.exec e) e.sq e.received) := by
  have hpos : 0 < e.received.length := List.length_pos_iff.2 hlen
  have hsnd := Exec.sendto_snd (s.exec e) .helloEcho e.sq e.received
  have hlow := Exec.neg_one_le_sendto (s.exec e) .helloEcho e.sq e.received
  show Handled s e .hello
    (if ((s.exec e).sendto .helloEcho e.sq e.received).1 > 0 then
      annouceServers ((s.exec e).sendto .helloEcho e.sq e.received).2 e.sq
    else (s.exec e).sendto .helloEcho e.sq e.received)
  split
  · rw [hsnd]
    obtain ⟨nodes, allocs, told, rc, hstate, hnodes, hpre, hall, hrc⟩ := annouceServers_cases
      (w := (s.exec e).sendAll [{ call := .helloEcho, dest := e.sq, payload := e.received }]) h e.sq
    refine .of_eq hstate ?_ hnodes
    exact .hello (s := s) hpre
      (fun ha hs => hall ha (Exec.sends_sendAll_of_nil (w := s.exec e) hs _)) hrc
  · rename_i hfail
    have hr : (s.exec e).sendto .helloEcho e.sq e.received =
        (((s.exec e).sendto .helloEcho e.sq e.received).1,
          (s.exec e).sendAll [{ call := .helloEcho, dest := e.sq, payload := e.received }]) := by
      rw [← hsnd]
    refine .of_eq hr (.hello List.nil_prefix (fun _ hsends => ?_) hlow) h
    rw [Exec.sendto_of_nil (w := s.exec e) hsends] at hfail
    omega

theorem ctrlCmdBye_handled (h : NodesOk s.nodes s.services) (hok : ∀ n, Ok (s.services n)) :
    Handled s e (.bye e.sq.node) (ctrlCmdBye (s.exec e) e.sq) := by
  rw [ctrlCmdBye]
  rcases nodeGet_cases (w := s.exec e) h e.sq.node with
    ⟨nodes, allocs, hgot, hnodes, hholds, hnil⟩ | ⟨nodes, allocs, hgot, hnodes, hne⟩
  · rw [hgot]
    obtain ⟨gone, t, hremoval, hcomplete, hloop⟩ := byeLoop_spec
      (w := (s.exec e).renode nodes allocs) (hok e.sq.node)
    dsimp only
    rw [hloop]
    have hnodes' := hnodes.update hholds t
    obtain ⟨nodes', allocs', told, hstate, hlast, htell, hall⟩ := propagate_cases
      (w := (((s.exec e).renode nodes allocs).setTable e.sq.node t).sendAll
        (gone.flatMap ((s.exec e).renode nodes allocs).delMsgs))
      hnodes' (.bye e.sq.node) (fun w => byePkt w.order e.sq.node) (fun _ _ => rfl)
    refine .of_eq hstate ?_ hlast
    exact .bye hremoval hcomplete htell fun ha => hall (hnil ha)
  · rw [hgot]
    exact .nothing (Or.inr (Or.inl hne)) hnodes

omit [LawfulMap T Server] in
/-- The removal in `ctrl_cmd_del_client`: `node_get` and, if it succeeds, `server_del`. -/
theorem portGone_cases {w : Exec T} (h : NodesOk w.nodes w.services) (hw : w.services = s.services)
    (ha : w.allocs = e.allocs) (n p : UInt32) :
    ∃ nodes allocs gone t,
      (match nodeGet w n with
        | (none, w) => w
        | (some node, w) => (serverDel w node p).2) =
        ((w.renode nodes allocs).setTable n t).sendAll (gone.flatMap w.delMsgs) ∧
      PortGone s e n p gone t ∧ NodesOk nodes (Function.update w.services n t) ∧
      (w.allocs = [] → allocs = []) := by
  rcases nodeGet_cases h n with
    ⟨nodes, allocs, hgot, hnodes, hholds, hnil⟩ | ⟨nodes, allocs, hgot, hnodes, hne⟩
  · rw [hgot]
    cases hget : get (s.services n) (hashU32 p) with
    | none =>
        have hdel := serverDel_none (w.renode nodes allocs) n p
          (by rw [Exec.services_renode, hw]; exact hget)
        refine ⟨nodes, allocs, [], s.services n, ?_, .kept (Or.inr hget), ?_, hnil⟩
        · simp only [hdel, List.flatMap_nil, Exec.sendAll_nil, ← hw]
          exact ((w.renode nodes allocs).setTable_self n).symm
        · rwa [← hw, Function.update_eq_self]
    | some srv =>
        have hdel := serverDel_some (w.renode nodes allocs) n p
          (by rw [Exec.services_renode, hw]; exact hget)
        refine ⟨nodes, allocs, [srv], _, ?_, .gone hget, hnodes.update hholds _, hnil⟩
        simp [hdel, ← hw]
  · rw [hgot]
    refine ⟨nodes, allocs, [], s.services n, ?_, .kept (Or.inl (ha ▸ hne)), ?_,
      fun hnil => absurd hnil hne⟩
    · simp only [List.flatMap_nil, Exec.sendAll_nil, ← hw]
      exact ((w.renode nodes allocs).setTable_self n).symm
    · rwa [← hw, Function.update_eq_self]

/-- `ctrl_cmd_del_client` on a message from the node it names, by the port it names if that is local. -/
theorem ctrlCmdDelClient_handled (h : NodesOk s.nodes s.services) {n p : UInt32}
    (hnode : e.sq.node = n) (hport : e.sq.node = s.localNode → e.sq.port = p) :
    Handled s e (.closePort n p) (ctrlCmdDelClient (s.exec e) e.sq n p) := by
  have hspoof : ¬ (e.sq.node = s.localNode ∧ e.sq.port ≠ p) := fun hbad => hbad.2 (hport hbad.1)
  rw [ctrlCmdDelClient, if_neg (by simpa using hnode)]
  rw [show (s.exec e).localNode = s.localNode from rfl, if_neg hspoof]
  obtain ⟨nodes, allocs, gone, t, hgone, hremoval, hnodes, hnil⟩ := portGone_cases (s := s) (e := e)
    (w := ({ s with lookups := s.lookupsWithout n p } : Ns T).exec e) h rfl rfl n p
  obtain ⟨nodes', allocs', told, hstate, hlast, htell, hall⟩ := propagate_cases
    (w := (((({ s with lookups := s.lookupsWithout n p } : Ns T).exec e).renode nodes
      allocs).setTable n t).sendAll
        (gone.flatMap ({ s with lookups := s.lookupsWithout n p } : Ns T).delMsgs))
    hnodes (.delClient n p) (fun w => delClientPkt w.order w.stack n p) (fun _ _ => rfl)
  have hlastPart := congrArg (fun w : Exec T => match nodeGet w w.localNode with
    | (none, w) => ((0 : Int), w)
    | (some localNode, w) =>
        (0,
          propagate (.delClient n p) (delClientPkt w.order w.stack n p)
            (forEach (w.services localNode)) w)) hgone
  exact .of_eq (hlastPart.trans hstate)
    (.closePort hremoval htell fun ha => hall (hnil ha)) hlast

/-- `ctrl_cmd_new_server` from the call of `server_add` on. -/
theorem serverAdd_handled (h : NodesOk s.nodes s.services) (hok : ∀ n, Ok (s.services n))
    (service inst port : UInt32) {a : Action}
    (ha : a = if service ≠ 0 ∧ port ≠ 0 then
      .register { service := service, inst := inst, node := e.sq.node, port := port }
      else .ignored) :
    Handled s e a
      (match serverAdd (s.exec e) service inst e.sq.node port with
        | (none, w) => (-22, w)
        | (some srv, w) =>
            let r := if srv.node = w.localNode then serviceAnnounceNew w bcastSq srv else (0, w)
            (r.1, notifyObservers service inst srv true r.2.lookups r.2)) := by
  rcases serverAdd_cases (w := s.exec e) h hok service inst e.sq.node port with
    ⟨nodes, allocs, hadd, hnodes, hwhy⟩ |
    ⟨nodes, allocs, plan, srv, t, hsrv, hservice, hport, hplan, hrc, ht, hadd, hnodes, hrecord⟩
  · rw [hadd]
    refine .nothing ?_ hnodes
    rcases hwhy with rfl | rfl | hne
    · exact Or.inl (by simp [ha])
    · exact Or.inl (by simp [ha])
    · exact Or.inr (Or.inl hne)
  · have haction : a = .register srv := by rw [ha, hsrv, if_pos ⟨hservice, hport⟩]
    have hnode : e.sq.node = srv.node := by rw [hsrv]
    have hsport : port = srv.port := by rw [hsrv]
    have hs : service = srv.service := by rw [hsrv]
    have hi : inst = srv.inst := by rw [hsrv]
    rw [hadd, haction]
    subst ht
    simp only [hnode, hsport, hs, hi] at hrc hnodes hrecord ⊢
    obtain ⟨rc, hlow, hlast⟩ := announceAdded_cases
      (((s.exec e).renode nodes allocs).setTable srv.node
        (reput plan (s.services srv.node) (hashU32 srv.port) srv).table) srv
    exact .of_eq hlast (.register hplan hrc hlow hrecord) hnodes

/-- A local sender registers itself under the port it sends from; another node names the port. -/
theorem ctrlCmdNewServer_handled (h : NodesOk s.nodes s.services) (hok : ∀ n, Ok (s.services n)) :
    Handled s e (e.newServerAction s.localNode)
      (ctrlCmdNewServer (s.exec e) e.sq (e.word 4) (e.word 8) (e.word 12) (e.word 16)) := by
  by_cases hlocal : e.sq.node = s.localNode
  · have hlocal' : e.sq.node = (s.exec e).localNode := hlocal
    have haction : e.newServerAction s.localNode =
        if e.word 4 ≠ 0 ∧ e.sq.port ≠ 0 then
          .register
            { service := e.word 4, inst := e.word 8, node := e.sq.node, port := e.sq.port }
        else .ignored := by
      have hvalid : e.sq.node = s.localNode ∨ e.sq.node = e.word 12 := Or.inl hlocal
      simp only [Event.newServerAction, hvalid, true_and, if_pos hlocal]
    simp only [ctrlCmdNewServer, if_pos hlocal', ne_eq, not_true_eq_false, if_false]
    exact serverAdd_handled h hok (e.word 4) (e.word 8) e.sq.port haction
  · have hlocal' : ¬ e.sq.node = (s.exec e).localNode := hlocal
    by_cases hnode : e.sq.node = e.word 12
    · have haction : e.newServerAction s.localNode =
          if e.word 4 ≠ 0 ∧ e.word 16 ≠ 0 then
            .register
              { service := e.word 4, inst := e.word 8, node := e.sq.node, port := e.word 16 }
          else .ignored := by
        have hvalid : e.sq.node = s.localNode ∨ e.sq.node = e.word 12 := Or.inr hnode
        simp only [Event.newServerAction, hvalid, true_and, if_neg hlocal]
      simp only [ctrlCmdNewServer, if_neg hlocal', ← hnode, ne_eq, not_true_eq_false, if_false]
      exact serverAdd_handled h hok (e.word 4) (e.word 8) (e.word 16) haction
    · have haction : e.newServerAction s.localNode = .ignored := by
        simp [Event.newServerAction, hlocal, hnode]
      simp only [ctrlCmdNewServer, if_neg hlocal', ne_eq, hnode, not_false_eq_true, if_true]
      exact .nothing (Or.inl haction) h

omit [LawfulMap T Server] in
theorem delServerAction_of_ne {localNode : UInt32} (hlocal : ¬ e.sq.node = localNode)
    (hnode : ¬ e.sq.node = e.word 12) : e.delServerAction localNode = .ignored := by
  rw [Event.delServerAction, if_neg hlocal, if_neg hnode]

/-- `ctrl_cmd_del_server` from the call of `node_get` on. -/
theorem serverDel_handled (h : NodesOk s.nodes s.services) (n p : UInt32) :
    Handled s e (.unregister n p)
      (match nodeGet (s.exec e) n with
        | (none, w) => (-2, w)
        | (some node, w) => serverDel w node p) := by
  rcases nodeGet_cases (w := s.exec e) h n with
    ⟨nodes, allocs, hgot, hnodes, hholds, -⟩ | ⟨nodes, allocs, hgot, hnodes, hne⟩
  · rw [hgot]
    cases hget : get (s.services n) (hashU32 p) with
    | none =>
        have hdel := serverDel_none ((s.exec e).renode nodes allocs) n p hget
        refine .of_eq hdel (.nothing ?_) hnodes
        exact Or.inr (Or.inr ⟨n, p, rfl, hget⟩)
    | some srv =>
        have hdel := serverDel_some ((s.exec e).renode nodes allocs) n p hget
        exact .of_eq hdel (.unregister hget) (hnodes.update hholds _)
  · rw [hgot]
    exact .nothing (Or.inr (Or.inl hne)) hnodes

theorem ctrlCmdDelServer_handled (h : NodesOk s.nodes s.services) :
    Handled s e (e.delServerAction s.localNode)
      (ctrlCmdDelServer (s.exec e) e.sq (e.word 4) (e.word 8) (e.word 12) (e.word 16)) := by
  by_cases hlocal : e.sq.node = s.localNode
  · have hlocal' : e.sq.node = (s.exec e).localNode := hlocal
    simp only [Event.delServerAction, if_pos hlocal, ctrlCmdDelServer, if_pos hlocal', ne_eq,
      not_true_eq_false, if_false, and_false]
    exact serverDel_handled h e.sq.node e.sq.port
  · have hlocal' : ¬ e.sq.node = (s.exec e).localNode := hlocal
    by_cases hnode : e.sq.node = e.word 12
    · simp only [Event.delServerAction, if_neg hlocal, ctrlCmdDelServer, ← hnode, ne_eq,
        not_true_eq_false, if_true, if_false, hlocal', false_and]
      exact serverDel_handled h e.sq.node (e.word 16)
    · rw [delServerAction_of_ne hlocal hnode]
      simp only [ctrlCmdDelServer, if_neg hlocal', ne_eq, hnode, not_false_eq_true, if_true]
      exact .nothing (Or.inl rfl) h

/-- The filter of a new lookup and the tests of the notification loops agree. -/
theorem serverMatch_eq_observes (srv : Server) (l : Lookup) :
    serverMatch srv { service := l.service, inst := l.inst, ifilter := 0 } =
      l.observes srv.service srv.inst := by
  by_cases hservice : l.service ≠ 0 ∧ srv.service ≠ l.service
  · have hservice' : l.service ≠ 0 ∧ l.service ≠ srv.service := ⟨hservice.1, Ne.symm hservice.2⟩
    simp [serverMatch, Lookup.observes, hservice, hservice']
  · have hservice' : ¬ (l.service ≠ 0 ∧ l.service ≠ srv.service) := fun h =>
      hservice ⟨h.1, Ne.symm h.2⟩
    have hall : srv.inst &&& 0xffffffff = srv.inst := UInt32.and_neg_one
    by_cases hinst : l.inst = 0
    · simp [serverMatch, Lookup.observes, hservice, hservice', hinst]
    · simp [serverMatch, Lookup.observes, hservice, hinst, hall, eq_comm]

/-- A lookup reply lists the registered servers that the lookup observes. -/
theorem mem_serverQuery {w : Exec T} (h : NodesOk w.nodes w.services) (l : Lookup) (srv : Server) :
    srv ∈ serverQuery w { service := l.service, inst := l.inst, ifilter := 0 } ↔
      (∃ n, srv ∈ forEach (w.services n)) ∧ l.observes srv.service srv.inst = true := by
  simp only [serverQuery, mapForEach_eq, List.mem_flatMap, List.mem_filter, List.mem_map,
    serverMatch_eq_observes]
  constructor
  · rintro ⟨n, -, hsrv, hobs⟩
    exact ⟨⟨n, hsrv⟩, hobs⟩
  · rintro ⟨⟨n, hsrv⟩, hobs⟩
    refine ⟨n, ⟨(hashU32 n, n), ?_, rfl⟩, hsrv, hobs⟩
    rw [Map.mem_entries_iff]
    by_contra habs
    rw [h.absent n habs, forEach_eq_nil_iff.2 live_create] at hsrv
    cases hsrv

theorem ctrlCmdNewLookup_handled (h : NodesOk s.nodes s.services) :
    Handled s e (e.newLookupAction s.localNode)
      (ctrlCmdNewLookup (s.exec e) e.sq (e.word 4) (e.word 8)) := by
  have hexec : (s.exec e).localNode = s.localNode := rfl
  rw [ctrlCmdNewLookup, hexec]
  by_cases hlocal : e.sq.node = s.localNode
  · rw [if_neg (not_not.2 hlocal), Event.newLookupAction, if_pos hlocal]
    cases hcalloc : calloc (s.exec e).allocs with
    | mk ok allocs =>
        cases ok with
        | false => exact .nothing (Or.inr (Or.inl (calloc_false hcalloc))) h
        | true =>
            obtain ⟨l, hl⟩ : ∃ l : Lookup, l =
              { service := e.word 4, inst := e.word 8, sq := e.sq } := ⟨_, rfl⟩
            have hlsq : e.sq = l.sq := by rw [hl]
            have hquery := mem_serverQuery (w := { s.exec e with
              allocs := allocs
              lookups := s.lookups ++ [l] }) h l
            have hsnd := fun w : Exec T => Exec.sendto_snd w (.lookupNotify none true) e.sq
              (notifyPkt w.order none true)
            simp only [lookupNotify, hsnd, notifyReply_eq, Exec.sendAll_sendAll, ← hl]
            have hservice : e.word 4 = l.service := by rw [hl]
            have hinst : e.word 8 = l.inst := by rw [hl]
            rw [hservice, hinst]
            refine .of_eq rfl ?_ h
            have hwatch := Happens.watch (s := s) (e := e) (l := l) hquery
            rw [← hlsq] at hwatch
            exact hwatch
  · rw [if_pos hlocal, Event.newLookupAction, if_neg hlocal]
    exact .nothing (Or.inl rfl) h

/-! ### The dispatcher -/

/-- Whatever a control datagram is, handling it ends as `Happens` says. -/
theorem ctrlPortFn_handled (h : NodesOk s.nodes s.services) (hok : ∀ n, Ok (s.services n))
    (e : Event) :
    Handled s e (e.action s.localNode) (ctrlPortFn (s.exec e) e.sq e.datagram e.stale) := by
  have hrec : e.datagram.take 4096 = e.received := rfl
  have hword : ∀ i, ctrlWord (s.exec e).order (e.stale.write 0 e.received) i = e.word i :=
    fun i => ctrlWord_eq _ _ i
  simp only [ctrlPortFn, hrec, hword, Event.action]
  by_cases hempty : e.received.length = 0
  · rw [if_pos hempty, if_pos (by omega)]
    exact .of_eq rfl (.nothing (Or.inl rfl)) h rfl rfl
      fun hne => absurd (List.length_eq_zero_iff.1 hempty) hne
  rw [if_neg hempty]
  by_cases hshort : e.received.length < 4
  · rw [if_pos hshort, if_pos hshort]
    exact .of_eq rfl (.nothing (Or.inl rfl)) h
  rw [if_neg hshort, if_neg hshort]
  have hne : e.received ≠ [] := by
    intro hnil
    exact hempty (by rw [hnil]; rfl)
  by_cases hhello : e.word 0 = qrtrTypeHello
  · rw [if_pos hhello, if_pos hhello]
    exact ctrlCmdHello_handled h hne
  rw [if_neg hhello, if_neg hhello]
  by_cases hbye : e.word 0 = qrtrTypeBye
  · rw [if_pos hbye, if_pos hbye]
    exact ctrlCmdBye_handled h hok
  rw [if_neg hbye, if_neg hbye]
  by_cases hdelClient : e.word 0 = qrtrTypeDelClient
  · rw [if_pos hdelClient, if_pos hdelClient, Event.delClientAction]
    split
    · rename_i hvalid
      exact ctrlCmdDelClient_handled h hvalid.1 hvalid.2
    · rename_i hspoof
      have hreject : ctrlCmdDelClient (s.exec e) e.sq (e.word 4) (e.word 8) = (-22, s.exec e) := by
        rw [ctrlCmdDelClient]
        split
        · rfl
        · rename_i hnode
          rw [if_pos]
          by_contra hport
          refine hspoof ⟨not_not.1 hnode, fun hlocal => ?_⟩
          by_contra hp
          exact hport ⟨hlocal, hp⟩
      exact .of_eq hreject (.nothing (Or.inl rfl)) h
  rw [if_neg hdelClient, if_neg hdelClient]
  by_cases hnewServer : e.word 0 = qrtrTypeNewServer
  · rw [if_pos hnewServer, if_pos hnewServer]
    exact ctrlCmdNewServer_handled h hok
  rw [if_neg hnewServer, if_neg hnewServer]
  by_cases hdelServer : e.word 0 = qrtrTypeDelServer
  · rw [if_pos hdelServer, if_pos hdelServer]
    exact ctrlCmdDelServer_handled h
  rw [if_neg hdelServer, if_neg hdelServer]
  by_cases hnewLookup : e.word 0 = qrtrTypeNewLookup
  · rw [if_pos hnewLookup, if_pos hnewLookup]
    exact ctrlCmdNewLookup_handled h
  rw [if_neg hnewLookup, if_neg hnewLookup]
  by_cases hdelLookup : e.word 0 = qrtrTypeDelLookup
  · rw [if_pos hdelLookup, if_pos hdelLookup]
    exact .of_eq rfl .unwatch h
  rw [if_neg hdelLookup, if_neg hdelLookup]
  exact .of_eq rfl (.nothing (Or.inl rfl)) h

/-- One turn of the name server, whatever arrives. -/
theorem nsStep_happens (h : NodesOk s.nodes s.services) (hok : ∀ n, Ok (s.services n)) (e : Event) :
    (∃ rc, Happens s e (s.action e) (nsStep s e).1.services (nsStep s e).1.lookups (nsStep s e).2
      rc) ∧ NodesOk (nsStep s e).1.nodes (nsStep s e).1.services := by
  rw [nsStep, Ns.action]
  split
  · have hhandled := ctrlPortFn_handled h hok e
    exact ⟨⟨_, hhandled.happens⟩, hhandled.nodesOk⟩
  · exact ⟨⟨0, .nothing (Or.inl rfl)⟩, h⟩

/-- The byte order and the local node never change, and the socket stays open unless the datagram is
    empty. -/
theorem nsStep_frame (h : NodesOk s.nodes s.services) (hok : ∀ n, Ok (s.services n)) (e : Event) :
    (nsStep s e).1.order = s.order ∧ (nsStep s e).1.localNode = s.localNode ∧
      (e.received ≠ [] → (nsStep s e).1.sockOpen = s.sockOpen) := by
  rw [nsStep]
  split
  · have hhandled := ctrlPortFn_handled h hok e
    exact ⟨hhandled.order, hhandled.localNode, hhandled.sockOpen⟩
  · exact ⟨rfl, rfl, fun _ => rfl⟩

end

/-! ### The datagrams of a step -/

/-- Every datagram that handling an event can send, by the call it comes from; `services` are the
    tables afterwards. -/
inductive Sends (s : Ns T) (e : Event) (a : Action) (services : UInt32 → T) : Msg → Prop where
  | echo (ha : a = .hello) :
      Sends s e a services { call := .helloEcho, dest := e.sq, payload := e.received }
  | announced {srv : Server} (ha : a = .hello) (hsrv : srv ∈ forEach (s.services s.localNode)) :
      Sends s e a services (announceNewMsg s.order e.sq srv)
  | added {srv : Server} (ha : a = .register srv) (hlocal : srv.node = s.localNode) :
      Sends s e a services (announceNewMsg s.order bcastSq srv)
  | removed {srv : Server} {n : UInt32} (hsrv : srv ∈ forEach (s.services n))
      (hlocal : srv.node = s.localNode) : Sends s e a services (announceDelMsg s.order bcastSq srv)
  | notifyNew {srv : Server} {l : Lookup} (ha : a = .register srv) (hl : l ∈ s.lookups)
      (hobs : l.observes srv.service srv.inst = true) :
      Sends s e a services (notifyMsg s.order l.sq (some srv) true)
  | notifyDel {srv : Server} {n : UInt32} {l : Lookup} (hsrv : srv ∈ forEach (s.services n))
      (hl : l ∈ s.lookups) (hobs : l.observes srv.service srv.inst = true) :
      Sends s e a services (notifyMsg s.order l.sq (some srv) false)
  | reply {srv : Server} {n : UInt32} {l : Lookup} (ha : a = .watch l)
      (hsrv : srv ∈ forEach (s.services n)) (hobs : l.observes srv.service srv.inst = true) :
      Sends s e a services (notifyMsg s.order l.sq (some srv) true)
  | replyEnd {l : Lookup} (ha : a = .watch l) :
      Sends s e a services (notifyMsg s.order l.sq none true)
  | bye {srv : Server} {n : UInt32} (ha : a = .bye n) (hsrv : srv ∈ forEach (services s.localNode)) :
      Sends s e a services (byeMsg s.order n srv)
  | delClient {srv : Server} {n p : UInt32} (ha : a = .closePort n p)
      (hsrv : srv ∈ forEach (services s.localNode)) :
      Sends s e a services (delClientMsg s.order e.stack n p srv)

section

variable {s : Ns T} {e : Event} {a : Action} {services : UInt32 → T}

omit [LawfulMap T Server] in
/-- The datagrams about a removed server, to lookups that were there before. -/
theorem sends_of_delMsgs {s' : Ns T} (horder : s'.order = s.order)
    (hnode : s'.localNode = s.localNode) (hlookups : ∀ l ∈ s'.lookups, l ∈ s.lookups) {n : UInt32}
    {srv : Server} (hsrv : srv ∈ forEach (s.services n)) {m : Msg} (hm : m ∈ s'.delMsgs srv) :
    Sends s e a services m := by
  rw [Ns.delMsgs, Ns.notifyMsgs, horder, hnode] at hm
  rcases List.mem_append.1 hm with hbcast | hnotify
  · split at hbcast
    · rename_i hlocal
      rw [List.mem_singleton.1 hbcast]
      exact .removed hsrv hlocal
    · cases hbcast
  · obtain ⟨l, hl, rfl⟩ := List.mem_map.1 hnotify
    obtain ⟨hmem, hobs⟩ := List.mem_filter.1 hl
    exact .notifyDel hsrv (hlookups l hmem) hobs

/-- Every datagram of a step is one that `Sends` lists. -/
theorem Happens.sends (hok : ∀ n, Ok (s.services n)) {lookups : List Lookup} {msgs : List Msg}
    {rc : Int} (h : Happens s e a services lookups msgs rc) {m : Msg} (hm : m ∈ msgs) :
    Sends s e a services m := by
  cases h with
  | nothing why => cases hm
  | hello first all hrc =>
      rcases List.mem_cons.1 hm with rfl | htold
      · exact .echo rfl
      · obtain ⟨srv, hsrv, rfl⟩ := List.mem_map.1 htold
        exact .announced rfl (first.subset hsrv)
  | bye removal complete tell all =>
      rcases List.mem_append.1 hm with hgone | htold
      · obtain ⟨srv, hsrv, hmsg⟩ := List.mem_flatMap.1 hgone
        have hentry := removal.entry_of_mem (hok _) hsrv
        exact sends_of_delMsgs rfl rfl (fun _ hl => hl) (mem_forEach.2 hentry) hmsg
      · obtain ⟨srv, hsrv, rfl⟩ := List.mem_map.1 htold
        rcases tell with rfl | rfl
        · cases hsrv
        · exact .bye rfl hsrv
  | @closePort n p _ _ _ removal tell all =>
      rcases List.mem_append.1 hm with hgone | htold
      · obtain ⟨srv, hsrv, hmsg⟩ := List.mem_flatMap.1 hgone
        cases removal with
        | kept why => cases hsrv
        | gone found =>
            rw [List.mem_singleton.1 hsrv] at hmsg
            refine sends_of_delMsgs (s := s) ?_ ?_ ?_
              (mem_forEach.2 ⟨_, live_of_get (hok n) found⟩) hmsg
            · rfl
            · rfl
            · exact fun l hl => (List.mem_filter.1 hl).1
      · obtain ⟨srv, hsrv, rfl⟩ := List.mem_map.1 htold
        rcases tell with rfl | rfl
        · cases hsrv
        · exact .delClient rfl hsrv
  | @register srv plan _ hplan hput hrc =>
      rw [Ns.newMsgs, Ns.notifyMsgs] at hm
      rcases List.mem_append.1 hm with hbcast | hnotify
      · split at hbcast
        · rename_i hlocal
          rw [List.mem_singleton.1 hbcast]
          exact .added rfl hlocal
        · cases hbcast
      · obtain ⟨l, hl, rfl⟩ := List.mem_map.1 hnotify
        obtain ⟨hmem, hobs⟩ := List.mem_filter.1 hl
        exact .notifyNew rfl hmem hobs
  | @unregister n p srv found =>
      exact sends_of_delMsgs rfl rfl (fun _ hl => hl)
        (mem_forEach.2 ⟨_, live_of_get (hok n) found⟩) hm
  | watch hreply =>
      rcases List.mem_append.1 hm with hmem | hend
      · obtain ⟨srv, hsrv, rfl⟩ := List.mem_map.1 hmem
        obtain ⟨⟨n, hsrv'⟩, hobs⟩ := (hreply srv).1 hsrv
        exact .reply rfl hsrv' hobs
      · rw [List.mem_singleton.1 hend]
        exact .replyEnd rfl
  | unwatch => cases hm

omit [LawfulMap T Server] in
/-- A notification is what `lookup_notify` makes of the server that it is about. -/
theorem Sends.notify_payload {m : Msg} (h : Sends s e a services m)
    {srv? : Option Server} {new : Bool} (hcall : m.call = .lookupNotify srv? new) :
    m.payload = notifyPkt s.order srv? new := by
  cases h with
  | notifyNew ha hl hobs =>
      cases hcall
      rfl
  | notifyDel hsrv hl hobs =>
      cases hcall
      rfl
  | reply ha hsrv hobs =>
      cases hcall
      rfl
  | replyEnd ha =>
      cases hcall
      rfl
  | _ => cases hcall

end

end Qrtr
