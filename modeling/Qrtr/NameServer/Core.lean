/-
Module: Qrtr.NameServer.Core
Layer: NameServer
Purpose: The name server of `ns.c`, function by function, over any table that offers the interface of
  `map.h`. A `struct node` is named by its id; `services` gives the table of the record with that name,
  and `nodes` is the hash map the records hang in. A handler runs on an `Exec`: the state of the name
  server together with what the environment still has in store for it (the bytes on its stack, the
  outcomes of its allocations and of its calls of `sendto`) and the datagrams handed to `sendto` so far.
  Freed records leave no trace. Logging is left out. The tables of `Qrtr.Map.Core` are exact below 2^31
  slots; `Qrtr.NameServer.Growth` bounds them by the number of datagrams.
Imports: Qrtr.Map.Interface, Qrtr.Map.Core, Qrtr.NameServer.Packet
Main exports: hashU32, Ns, Exec, Msg, nodeGet, serverMatch, serverQuery, serverAdd, serverDel,
  ctrlCmdHello, ctrlCmdBye, ctrlCmdDelClient, ctrlCmdNewServer, ctrlCmdDelServer, ctrlCmdNewLookup,
  ctrlCmdDelLookup, ctrlPortFn, sayHello, Event, nsInit, nsStep
Open obligations: none
-/
import Qrtr.Map.Interface
import Qrtr.Map.Core
import Qrtr.NameServer.Packet
import Mathlib.Logic.Function.Basic

namespace Qrtr

open MapOps

/-- `hash_u32`. -/
def hashU32 (value : UInt32) : UInt32 := value * 2654435761

/-- `struct server_filter`. -/
structure ServerFilter where
  service : UInt32
  inst : UInt32
  ifilter : UInt32
deriving DecidableEq, Repr

/-- `struct lookup` without its list links. -/
structure Lookup where
  service : UInt32
  inst : UInt32
  sq : Sockaddr
deriving DecidableEq, Repr

/-- The call of `sendto` that a datagram comes from, with what it is about. -/
inductive SendCall where
  | sayHello
  | helloEcho
  | announceNew (srv : Server)
  | announceDel (srv : Server)
  | lookupNotify (srv? : Option Server) (new : Bool)
  | bye (node : UInt32)
  | delClient (node port : UInt32)
deriving DecidableEq, Repr

/-- A datagram handed to `sendto`. -/
structure Msg where
  call : SendCall
  dest : Sockaddr
  payload : List UInt8
deriving DecidableEq, Repr

/-- `struct context` and the global `nodes`. The broadcast address is a constant. -/
structure Ns (T : Type) where
  order : HostOrder
  sockOpen : Bool
  localNode : UInt32
  lookups : List Lookup
  nodes : Map UInt32
  services : UInt32 → T

/-- The name server while it handles a datagram. -/
structure Exec (T : Type) extends Ns T where
  stack : Mem
  allocs : AllocPlan
  sends : List Bool
  sent : List Msg

/-- `ctx->bcast_sq`. -/
def bcastSq : Sockaddr := { node := qrtrNodeBcast, port := qrtrPortCtrl }

variable {T : Type}

/-- `sendto`: the number of bytes sent or -1. An exhausted plan means success. -/
def Exec.sendto (w : Exec T) (call : SendCall) (dest : Sockaddr) (payload : List UInt8) :
    Int × Exec T :=
  (if w.sends.headD true then payload.length else -1,
    { w with
      sends := w.sends.tail
      sent := w.sent ++ [{ call := call, dest := dest, payload := payload }] })

/-- `server_match`. -/
def serverMatch (srv : Server) (f : ServerFilter) : Bool :=
  let ifilter := if f.ifilter = 0 ∧ f.inst ≠ 0 then 0xffffffff else f.ifilter
  if f.service ≠ 0 ∧ srv.service ≠ f.service then false
  else srv.inst &&& ifilter = f.inst

/-- `service_announce_new`. -/
def serviceAnnounceNew (w : Exec T) (dest : Sockaddr) (srv : Server) : Int × Exec T :=
  w.sendto (.announceNew srv) dest (announcePkt w.order qrtrTypeNewServer srv)

/-- `service_announce_del`. -/
def serviceAnnounceDel (w : Exec T) (dest : Sockaddr) (srv : Server) : Int × Exec T :=
  w.sendto (.announceDel srv) dest (announcePkt w.order qrtrTypeDelServer srv)

/-- `lookup_notify`; `none` is a NULL server. -/
def lookupNotify (w : Exec T) (dest : Sockaddr) (srv? : Option Server) (new : Bool) : Int × Exec T :=
  w.sendto (.lookupNotify srv? new) dest (notifyPkt w.order srv? new)

/-- The test that `server_del` and `ctrl_cmd_new_server` make in their loops over the lookups. -/
def Lookup.observes (lookup : Lookup) (service inst : UInt32) : Bool :=
  if lookup.service ≠ 0 ∧ lookup.service ≠ service then false
  else if lookup.inst ≠ 0 ∧ lookup.inst ≠ inst then false
  else true

/-- The loop over the lookups in `server_del` and `ctrl_cmd_new_server`. -/
def notifyObservers (service inst : UInt32) (srv : Server) (new : Bool) :
    List Lookup → Exec T → Exec T
  | [], w => w
  | lookup :: rest, w =>
      if lookup.observes service inst then
        notifyObservers service inst srv new rest (lookupNotify w lookup.sq (some srv) new).2
      else notifyObservers service inst srv new rest w

/-- The loop over a lookup reply in `ctrl_cmd_new_lookup`. -/
def notifyReply (dest : Sockaddr) : List Server → Exec T → Exec T
  | [], w => w
  | srv :: rest, w => notifyReply dest rest (lookupNotify w dest (some srv) true).2

/-- The loop over the local servers in `annouce_servers`, which stops at the first failure. -/
def annouceLoop (sq : Sockaddr) : List Server → Exec T → Int × Exec T
  | [], w => (0, w)
  | srv :: rest, w =>
      let r := serviceAnnounceNew w sq srv
      if r.1 < 0 then r else annouceLoop sq rest r.2

/-- The loop over the local servers in `ctrl_cmd_bye` and `ctrl_cmd_del_client`. -/
def propagate (call : SendCall) (payload : List UInt8) : List Server → Exec T → Exec T
  | [], w => w
  | srv :: rest, w =>
      propagate call payload rest (w.sendto call { node := srv.node, port := srv.port } payload).2

variable [MapOps T Server]

/-- `node_get`: the name of the record, `none` for NULL. -/
def nodeGet (w : Exec T) (nodeId : UInt32) : Option UInt32 × Exec T :=
  match mapGet w.nodes (hashU32 nodeId) with
  | some node => (some node, w)
  | none =>
      match calloc w.allocs with
      | (false, allocs) => (none, { w with allocs := allocs })
      | (true, allocs) =>
          let r := mapPut allocs w.nodes (hashU32 nodeId) nodeId
          let w := { w with nodes := r.map, allocs := r.allocs }
          if r.rc ≠ 0 then (none, w)
          else (some nodeId, { w with services := Function.update w.services nodeId create })

/-- `server_query`. -/
def serverQuery (w : Exec T) (f : ServerFilter) : List Server :=
  (mapForEach w.nodes).flatMap fun node =>
    (forEach (w.services node)).filter fun srv => serverMatch srv f

/-- `annouce_servers`. -/
def annouceServers (w : Exec T) (sq : Sockaddr) : Int × Exec T :=
  match nodeGet w w.localNode with
  | (none, w) => (0, w)
  | (some node, w) => annouceLoop sq (forEach (w.services node)) w

/-- `server_add`. -/
def serverAdd (w : Exec T) (service inst nodeId port : UInt32) : Option Server × Exec T :=
  if service = 0 ∨ port = 0 then (none, w)
  else
    match calloc w.allocs with
    | (false, allocs) => (none, { w with allocs := allocs })
    | (true, allocs) =>
        let srv := { service := service, inst := inst, node := nodeId, port := port }
        match nodeGet { w with allocs := allocs } nodeId with
        | (none, w) => (none, w)
        | (some node, w) =>
            let r := reput w.allocs (w.services node) (hashU32 port) srv
            let w :=
              { w with
                services := Function.update w.services node r.table
                allocs := r.allocs }
            if r.rc ≠ 0 then (none, w) else (some srv, w)

/-- `server_del`; `-ENOENT` is -2. The key of the item that `map_get` returns is the key it was asked
    for. -/
def serverDel (w : Exec T) (node port : UInt32) : Int × Exec T :=
  match get (w.services node) (hashU32 port) with
  | none => (-2, w)
  | some srv =>
      let w :=
        { w with
          services := Function.update w.services node (remove (w.services node) (hashU32 port)) }
      let w := if srv.node = w.localNode then (serviceAnnounceDel w bcastSq srv).2 else w
      (0, notifyObservers srv.service srv.inst srv false w.lookups w)

/-- `ctrl_cmd_hello`. -/
def ctrlCmdHello (w : Exec T) (sq : Sockaddr) (buf : List UInt8) : Int × Exec T :=
  let r := w.sendto .helloEcho sq buf
  if r.1 > 0 then annouceServers r.2 sq else r

/-- The loop of `ctrl_cmd_bye` that removes the servers of a node while it iterates over them. An
    iterator always stands at an item, so that the case without one is never taken. -/
def byeLoop (node : UInt32) : Nat → Option Nat → Exec T → Exec T
  | 0, _, w => w
  | _ + 1, none, w => w
  | n + 1, some me, w =>
      match iterItem (w.services node) me with
      | none => w
      | some srv =>
          let w := (serverDel w node srv.port).2
          byeLoop node n (iterNext (w.services node) me) w

/-- `ctrl_cmd_bye`. -/
def ctrlCmdBye (w : Exec T) (sq : Sockaddr) : Int × Exec T :=
  match nodeGet w sq.node with
  | (none, w) => (0, w)
  | (some node, w) =>
      let t := w.services node
      let w := byeLoop node (bound t + 1) (iterFirst t) w
      match nodeGet w w.localNode with
      | (none, w) => (0, w)
      | (some localNode, w) =>
          (0, propagate (.bye sq.node) (byePkt w.order sq.node) (forEach (w.services localNode)) w)

/-- `ctrl_cmd_del_client`; `-EINVAL` is -22. -/
def ctrlCmdDelClient (w : Exec T) (sq : Sockaddr) (nodeId port : UInt32) : Int × Exec T :=
  if sq.node ≠ nodeId then (-22, w)
  else if sq.node = w.localNode ∧ sq.port ≠ port then (-22, w)
  else
    let w :=
      { w with
        lookups := w.lookups.filter fun lookup =>
          !(lookup.sq.node == nodeId && lookup.sq.port == port) }
    let w :=
      match nodeGet w nodeId with
      | (none, w) => w
      | (some node, w) => (serverDel w node port).2
    match nodeGet w w.localNode with
    | (none, w) => (0, w)
    | (some localNode, w) =>
        (0,
          propagate (.delClient nodeId port) (delClientPkt w.order w.stack nodeId port)
            (forEach (w.services localNode)) w)

/-- `ctrl_cmd_new_server`. -/
def ctrlCmdNewServer (w : Exec T) (sq : Sockaddr) (service inst nodeId port : UInt32) :
    Int × Exec T :=
  let nodeId' := if sq.node = w.localNode then sq.node else nodeId
  let port' := if sq.node = w.localNode then sq.port else port
  if sq.node ≠ nodeId' then (-22, w)
  else
    match serverAdd w service inst nodeId' port' with
    | (none, w) => (-22, w)
    | (some srv, w) =>
        let r := if srv.node = w.localNode then serviceAnnounceNew w bcastSq srv else (0, w)
        (r.1, notifyObservers service inst srv true r.2.lookups r.2)

/-- `ctrl_cmd_del_server`. The words `service` and `instance` are not looked at. -/
def ctrlCmdDelServer (w : Exec T) (sq : Sockaddr) (_service _inst nodeId port : UInt32) :
    Int × Exec T :=
  let nodeId' := if sq.node = w.localNode then sq.node else nodeId
  let port' := if sq.node = w.localNode then sq.port else port
  if sq.node ≠ nodeId' then (-22, w)
  else if sq.node = w.localNode ∧ sq.port ≠ port' then (-22, w)
  else
    match nodeGet w nodeId' with
    | (none, w) => (-2, w)
    | (some node, w) => serverDel w node port'

/-- `ctrl_cmd_new_lookup`. -/
def ctrlCmdNewLookup (w : Exec T) (sq : Sockaddr) (service inst : UInt32) : Int × Exec T :=
  if sq.node ≠ w.localNode then (-22, w)
  else
    match calloc w.allocs with
    | (false, allocs) => (-22, { w with allocs := allocs })
    | (true, allocs) =>
        let w :=
          { w with
            allocs := allocs
            lookups := w.lookups ++ [{ service := service, inst := inst, sq := sq }] }
        let reply := serverQuery w { service := service, inst := inst, ifilter := 0 }
        (0, (lookupNotify (notifyReply sq reply w) sq none true).2)

/-- `ctrl_cmd_del_lookup`. -/
def ctrlCmdDelLookup (w : Exec T) (sq : Sockaddr) (service inst : UInt32) : Int × Exec T :=
  (0,
    { w with
      lookups := w.lookups.filter fun lookup =>
        !(lookup.sq.node == sq.node && lookup.sq.port == sq.port && lookup.service == service &&
          (lookup.inst == 0 || lookup.inst == inst)) })

/-- `ctrl_port_fn` on a received datagram: the return code of the handler it calls, 0 where it calls none.
    `recvfrom` cuts the datagram to the 4096 bytes of the buffer, and an empty datagram closes the
    socket as an error does. The words of the packet are read from the buffer, behind a short datagram
    too. -/
def ctrlPortFn (w : Exec T) (sq : Sockaddr) (datagram : List UInt8) (stale : Mem) : Int × Exec T :=
  let received := datagram.take 4096
  let buf := stale.write 0 received
  if received.length = 0 then (0, { w with sockOpen := false })
  else if received.length < 4 then (0, w)
  else
    let cmd := ctrlWord w.order buf 0
    let word := ctrlWord w.order buf
    if cmd = qrtrTypeHello then ctrlCmdHello w sq received
    else if cmd = qrtrTypeBye then ctrlCmdBye w sq
    else if cmd = qrtrTypeDelClient then ctrlCmdDelClient w sq (word 4) (word 8)
    else if cmd = qrtrTypeNewServer then
      ctrlCmdNewServer w sq (word 4) (word 8) (word 12) (word 16)
    else if cmd = qrtrTypeDelServer then
      ctrlCmdDelServer w sq (word 4) (word 8) (word 12) (word 16)
    else if cmd = qrtrTypeNewLookup then ctrlCmdNewLookup w sq (word 4) (word 8)
    else if cmd = qrtrTypeDelLookup then ctrlCmdDelLookup w sq (word 4) (word 8)
    else (0, w)

/-- `say_hello`. -/
def sayHello (w : Exec T) : Int × Exec T :=
  let r := w.sendto .sayHello bcastSq (helloPkt w.order)
  if r.1 < 0 then r else (0, r.2)

/-! ### The name server as a machine -/

/-- A datagram that arrives at the control socket, its sender, and what its handling meets: the bytes
    left in the receive buffer and on the stack, and the outcomes of allocations and of `sendto`. -/
structure Event where
  sq : Sockaddr
  datagram : List UInt8
  stale : Mem
  stack : Mem
  allocs : AllocPlan
  sends : List Bool

/-- The name server as `main` sets it up. -/
def nsInit (order : HostOrder) (localNode : UInt32) : Ns T where
  order := order
  sockOpen := true
  localNode := localNode
  lookups := []
  nodes := mapCreate
  services := fun _ => create

/-- The name server as it starts to handle a datagram. -/
def Ns.exec (s : Ns T) (e : Event) : Exec T :=
  { s with stack := e.stack, allocs := e.allocs, sends := e.sends, sent := [] }

/-- One turn of the main loop, which ends when the socket is closed. -/
def nsStep (s : Ns T) (e : Event) : Ns T × List Msg :=
  if s.sockOpen then
    let w := (ctrlPortFn (s.exec e) e.sq e.datagram e.stale).2
    (w.toNs, w.sent)
  else (s, [])

end Qrtr
