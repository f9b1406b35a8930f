/-
Module: Qrtr.Records.Core
Layer: Records
Purpose: The name server of `ns.c` once more, now with its pointers. A `struct server`, `struct node` or
  `struct lookup` is a record of the heap, which `calloc` makes and `free` takes away; the maps hold the
  addresses of records, the lookups and a lookup reply are linked through their members `li` and `qli`.
  Every function follows the pointers that the code follows. It has no result where the code goes wrong: a
  pointer is followed or freed that is not that of a live record of its kind, a map is searched while it
  holds such a pointer, or a loop over a list does not come to the end of it. The tables `data` of the maps
  and logging are left out.
Imports: Qrtr.Foundation.RecordHeap, Qrtr.LinkedList.Core, Qrtr.NameServer.Core
Main exports: Record, Ns, Exec, nodeGet, serverQuery, serverAdd, serverDel, byeLoop, removeLookups,
  ctrlPortFn, nsInit, nsStep, nsRun, serverMiFree, nodeMiFree, shutdown
Open obligations: none
-/
import Qrtr.Foundation.RecordHeap
import Qrtr.LinkedList.Core
import Qrtr.NameServer.Core

namespace Qrtr.Records

/-- The address of a record. Pointers to its members `mi`, `li` and `qli` have the address of the record. -/
abbrev Addr := Nat

/-- A `struct server`, `struct node` or `struct lookup` without its list links; `key` is `mi.key`. -/
inductive Record where
  | server (srv : Server) (key : UInt32)
  | node (id : UInt32) (key : UInt32) (services : Map Addr)
  | lookup (lookup : Lookup)
deriving DecidableEq, Repr

/-- `mi.key`. A lookup has no member `mi`. -/
def Record.key? : Record → Option UInt32
  | .server _ key => some key
  | .node _ key _ => some key
  | .lookup _ => none

/-- The assignment of `mi.key`. -/
def Record.setKey (key : UInt32) : Record → Record
  | .server srv _ => .server srv key
  | .node id _ services => .node id key services
  | .lookup l => .lookup l

/-- `struct context`, the global `nodes` and the records: `lookups` has the members `li` of the lookups,
    `replies` the list `reply_list` and the members `qli` of the servers. -/
structure Ns where
  order : HostOrder
  sockOpen : Bool
  localNode : UInt32
  heap : RecordHeap Record
  lookups : Links Addr
  replies : Links Addr
  nodes : Map Addr

/-- The name server while it handles a datagram. -/
structure Exec extends Ns where
  stack : Mem
  allocs : AllocPlan
  sends : List Bool
  sent : List Msg

/-! ### Following pointers -/

namespace Ns

/-- The `struct server` at an address. -/
def serverAt (s : Ns) (a : Addr) : Option Server :=
  match s.heap.cells a with
  | some (.server srv _) => some srv
  | _ => none

/-- The member `services` of the `struct node` at an address. -/
def servicesAt (s : Ns) (a : Addr) : Option (Map Addr) :=
  match s.heap.cells a with
  | some (.node _ _ services) => some services
  | _ => none

/-- The `struct lookup` at an address. -/
def lookupAt (s : Ns) (a : Addr) : Option Lookup :=
  match s.heap.cells a with
  | some (.lookup lookup) => some lookup
  | _ => none

/-- A pointer to the `qli` of a `struct server`, which may be NULL. -/
def serverOrNull (s : Ns) (p : Option Addr) : Option Unit :=
  p.elim (some ()) fun a => (s.serverAt a).map fun _ => ()

/-- A pointer to the `li` of a `struct lookup`, which may be NULL. -/
def lookupOrNull (s : Ns) (p : Option Addr) : Option Unit :=
  p.elim (some ()) fun a => (s.lookupAt a).map fun _ => ()

/-- The member `mi.key` of the record at an address. -/
def keyAt (s : Ns) (a : Addr) : Option UInt32 := (s.heap.cells a).bind Record.key?

/-- Every item of the map is the `mi` of a live record, and its `key` is the one that the slot shows. -/
def carries (s : Ns) (m : Map Addr) : Bool := m.entries.all fun e => s.keyAt e.2 == some e.1

/-- `map_get`. -/
def mapGet (s : Ns) (m : Map Addr) (key : UInt32) : Option (Option Addr) :=
  if s.carries m then some (Qrtr.mapGet m key) else none

/-- `map_remove`: the map afterwards. -/
def mapRemove (s : Ns) (m : Map Addr) (key : UInt32) : Option (Map Addr) :=
  if s.carries m then some (Qrtr.mapRemove m key).2 else none

end Ns

namespace Exec

/-- `calloc` of a record and the assignments to its members that follow. -/
def calloc (w : Exec) (r : Record) : Option Addr × Exec :=
  match Qrtr.calloc w.allocs with
  | (false, allocs) => (none, { w with allocs := allocs })
  | (true, allocs) => (some w.heap.fresh, { w with allocs := allocs, heap := w.heap.alloc r })

/-- `free` of a record. -/
def free (w : Exec) (a : Addr) : Option Exec := do
  let heap ← w.heap.free a
  some { w with heap := heap }

/-- The assignment of the member `services` of a `struct node`. -/
def setServices (w : Exec) (a : Addr) (services : Map Addr) : Option Exec := do
  match ← w.heap.cells a with
  | .node id key _ => some { w with heap := w.heap.put a (.node id key services) }
  | _ => none

/-- `map_reput`: the result, with the map afterwards, and the state with the key in the item. -/
def mapReput (w : Exec) (m : Map Addr) (key : UInt32) (a : Addr) : Option (PutResult Addr × Exec) :=
  if w.carries m then do
    let r := Qrtr.mapReput w.allocs m key a
    let w := { w with allocs := r.allocs }
    if r.rc ≠ 0 then some (r, w)
    else do
      let record ← w.heap.cells a
      some (r, { w with heap := w.heap.put a (record.setKey key) })
  else none

/-- `map_put`. -/
def mapPut (w : Exec) (m : Map Addr) (key : UInt32) (a : Addr) : Option (PutResult Addr × Exec) := do
  let (r, w) ← w.mapReput m key a
  some ({ r with old := none }, w)

/-- `sendto`: the number of bytes sent or -1. An exhausted plan means success. -/
def sendto (w : Exec) (call : SendCall) (dest : Sockaddr) (payload : List UInt8) : Int × Exec :=
  (if w.sends.headD true then payload.length else -1,
    { w with
      sends := w.sends.tail
      sent := w.sent ++ [{ call := call, dest := dest, payload := payload }] })

end Exec

/-! ### The functions of the name server -/

/-- The part of `node_get` behind `calloc`: the new record is put into `nodes`, or freed. -/
def nodeInsert (w : Exec) (nodeId : UInt32) (node : Addr) : Option (Option Addr × Exec) := do
  let (r, w) ← w.mapPut w.nodes (hashU32 nodeId) node
  let w := { w with nodes := r.map }
  if r.rc ≠ 0 then do
    let w ← w.free node
    some (none, w)
  else some (some node, w)

/-- `node_get`; `none` is NULL. -/
def nodeGet (w : Exec) (nodeId : UInt32) : Option (Option Addr × Exec) := do
  match ← w.mapGet w.nodes (hashU32 nodeId) with
  | some node => some (some node, w)
  | none =>
      match w.calloc (.node nodeId 0 mapCreate) with
      | (none, w) => some (none, w)
      | (some node, w) => nodeInsert w nodeId node

/-- `service_announce_new`. -/
def serviceAnnounceNew (w : Exec) (dest : Sockaddr) (srv : Addr) : Option (Int × Exec) := do
  let srv ← w.serverAt srv
  some (w.sendto (.announceNew srv) dest (announcePkt w.order qrtrTypeNewServer srv))

/-- `service_announce_del`. -/
def serviceAnnounceDel (w : Exec) (dest : Sockaddr) (srv : Addr) : Option (Int × Exec) := do
  let srv ← w.serverAt srv
  some (w.sendto (.announceDel srv) dest (announcePkt w.order qrtrTypeDelServer srv))

/-- `lookup_notify`, at a server that is not NULL. -/
def lookupNotify (w : Exec) (dest : Sockaddr) (srv : Addr) (new : Bool) : Option (Int × Exec) := do
  let srv ← w.serverAt srv
  some (w.sendto (.lookupNotify (some srv) new) dest (notifyPkt w.order (some srv) new))

/-- `lookup_notify` at NULL. -/
def lookupNotifyEnd (w : Exec) (dest : Sockaddr) (new : Bool) : Int × Exec :=
  w.sendto (.lookupNotify none new) dest (notifyPkt w.order none new)

/-- The loop over the lookups in `server_del` and `ctrl_cmd_new_server`, from `li` on. -/
def notifyObservers (service inst : UInt32) (srv : Addr) (new : Bool) :
    Nat → Option Addr → Exec → Option Exec
  | 0, _, _ => none
  | _ + 1, none, w => some w
  | n + 1, some li, w => do
      let lookup ← w.lookupAt li
      if lookup.observes service inst then do
        let (_, w) ← lookupNotify w lookup.sq srv new
        notifyObservers service inst srv new n (w.lookups.next li) w
      else notifyObservers service inst srv new n (w.lookups.next li) w

/-- `list_append(list, &srv->qli)`: it writes to the item and to the tail of the list. -/
def appendReply (w : Exec) (srv : Addr) : Option Exec := do
  let _ ← w.serverAt srv
  let _ ← w.serverOrNull w.replies.tail
  some { w with replies := listAppend w.replies srv }

/-- The inner loop of `server_query`. -/
def queryServices (f : ServerFilter) : List Addr → Exec → Option Exec
  | [], w => some w
  | me :: rest, w => do
      let srv ← w.serverAt me
      if serverMatch srv f then do
        let w ← appendReply w me
        queryServices f rest w
      else queryServices f rest w

/-- The outer loop of `server_query`. -/
def queryNodes (f : ServerFilter) : List Addr → Exec → Option Exec
  | [], w => some w
  | node :: rest, w => do
      let services ← w.servicesAt node
      let w ← queryServices f (mapForEach services) w
      queryNodes f rest w

/-- `server_query`. -/
def serverQuery (w : Exec) (f : ServerFilter) : Option Exec :=
  queryNodes f (mapForEach w.nodes) { w with replies := listInit w.replies }

/-- The loop over the lookup reply in `ctrl_cmd_new_lookup`, from `li` on. -/
def notifyReply (dest : Sockaddr) : Nat → Option Addr → Exec → Option Exec
  | 0, _, _ => none
  | _ + 1, none, w => some w
  | n + 1, some li, w => do
      let (_, w) ← lookupNotify w dest li true
      notifyReply dest n (w.replies.next li) w

/-- The loop over the local servers in `annouce_servers`, which stops at the first failure. -/
def annouceLoop (sq : Sockaddr) : List Addr → Exec → Option (Int × Exec)
  | [], w => some (0, w)
  | srv :: rest, w => do
      let (rc, w) ← serviceAnnounceNew w sq srv
      if rc < 0 then some (rc, w) else annouceLoop sq rest w

/-- `annouce_servers`. -/
def annouceServers (w : Exec) (sq : Sockaddr) : Option (Int × Exec) := do
  match ← nodeGet w w.localNode with
  | (none, w) => some (0, w)
  | (some node, w) => do
      let services ← w.servicesAt node
      annouceLoop sq (mapForEach services) w

/-- The loop over the local servers in `ctrl_cmd_bye` and `ctrl_cmd_del_client`. -/
def propagate (call : SendCall) (payload : List UInt8) : List Addr → Exec → Option Exec
  | [], w => some w
  | me :: rest, w => do
      let srv ← w.serverAt me
      propagate call payload rest (w.sendto call { node := srv.node, port := srv.port } payload).2

/-- The call of `map_reput` in `server_add` and what follows it: the new record is put into the services of
    the node and the one it replaces is freed, or the new one is freed. -/
def serverInsert (w : Exec) (node srv : Addr) (port : UInt32) : Option (Option Addr × Exec) := do
  let services ← w.servicesAt node
  let (r, w) ← w.mapReput services (hashU32 port) srv
  let w ← w.setServices node r.map
  if r.rc ≠ 0 then do
    let w ← w.free srv
    some (none, w)
  else
    match r.old with
    | none => some (some srv, w)
    | some old => do
        let w ← w.free old
        some (some srv, w)

/-- `server_add`; `none` is NULL. -/
def serverAdd (w : Exec) (service inst nodeId port : UInt32) : Option (Option Addr × Exec) :=
  if service = 0 ∨ port = 0 then some (none, w)
  else
    let srv := { service := service, inst := inst, node := nodeId, port := port }
    match w.calloc (.server srv 0) with
    | (none, w) => some (none, w)
    | (some srv, w) => do
        match ← nodeGet w nodeId with
        | (none, w) => do
            let w ← w.free srv
            some (none, w)
        | (some node, w) => serverInsert w node srv port

/-- The broadcast of `server_del`, if the server is local. -/
def announceGone (w : Exec) (srv : Addr) : Option (Int × Exec) := do
  let server ← w.serverAt srv
  if server.node = w.localNode then serviceAnnounceDel w bcastSq srv else some (0, w)

/-- The part of `server_del` behind `map_remove`: all are told, and the record is freed. -/
def serverDrop (w : Exec) (srv : Addr) : Option Exec := do
  let (_, w) ← announceGone w srv
  let server ← w.serverAt srv
  let w ← notifyObservers server.service server.inst srv false (w.heap.fresh + 1) w.lookups.head w
  w.free srv

/-- `server_del`; `-ENOENT` is -2. -/
def serverDel (w : Exec) (node : Addr) (port : UInt32) : Option (Int × Exec) := do
  let services ← w.servicesAt node
  match ← w.mapGet services (hashU32 port) with
  | none => some (-2, w)
  | some srv => do
      let key ← w.keyAt srv
      let services ← w.mapRemove services key
      let w ← w.setServices node services
      let w ← serverDrop w srv
      some (0, w)

/-- `ctrl_cmd_hello`. -/
def ctrlCmdHello (w : Exec) (sq : Sockaddr) (buf : List UInt8) : Option (Int × Exec) :=
  let r := w.sendto .helloEcho sq buf
  if r.1 > 0 then annouceServers r.2 sq else some r

/-- The loop of `ctrl_cmd_bye` that removes the servers of a node while it iterates over them, in at most
    so many rounds. -/
def byeLoop (node : Addr) : Nat → Option Nat → Exec → Option Exec
  | 0, _, _ => none
  | _ + 1, none, w => some w
  | n + 1, some me, w => do
      let services ← w.servicesAt node
      let mi ← mapIterItem services me
      let srv ← w.serverAt mi
      let (_, w) ← serverDel w node srv.port
      let services ← w.servicesAt node
      byeLoop node n (mapIterNext services me) w

/-- The last part of `ctrl_cmd_bye` and `ctrl_cmd_del_client`: every local server is told. -/
def tellLocal (w : Exec) (call : SendCall) (payload : Exec → List UInt8) : Option (Int × Exec) := do
  match ← nodeGet w w.localNode with
  | (none, w) => some (0, w)
  | (some localNode, w) => do
      let services ← w.servicesAt localNode
      let w ← propagate call (payload w) (mapForEach services) w
      some (0, w)

/-- `ctrl_cmd_bye`. -/
def ctrlCmdBye (w : Exec) (sq : Sockaddr) : Option (Int × Exec) := do
  match ← nodeGet w sq.node with
  | (none, w) => some (0, w)
  | (some node, w) => do
      let services ← w.servicesAt node
      let w ← byeLoop node (services.size + 1) (mapIterFirst services) w
      tellLocal w (.bye sq.node) fun w => byePkt w.order sq.node

/-- `list_remove(&ctx->lookups, &lookup->li)`: it writes to the item and to its neighbours. -/
def removeLookup (w : Exec) (li : Addr) : Option Exec := do
  let _ ← w.lookupAt li
  let _ ← w.lookupOrNull (w.lookups.next li)
  let _ ← (if w.lookups.head = some li then some () else w.lookupOrNull (w.lookups.prev li))
  let lookups ← listRemove w.lookups li
  some { w with lookups := lookups }

/-- The `list_for_each_safe` loops of `ctrl_cmd_del_client` and `ctrl_cmd_del_lookup`, from `li` on, which
    remove and free the lookups that `unwanted` accepts. -/
def removeLookups (unwanted : Lookup → Bool) : Nat → Option Addr → Exec → Option Exec
  | 0, _, _ => none
  | _ + 1, none, w => some w
  | n + 1, some li, w => do
      let lookup ← w.lookupAt li
      let tmp := w.lookups.next li
      if unwanted lookup then do
        let w ← removeLookup w li
        let w ← w.free li
        removeLookups unwanted n tmp w
      else removeLookups unwanted n tmp w

/-- `ctrl_cmd_del_client`; `-EINVAL` is -22. -/
def ctrlCmdDelClient (w : Exec) (sq : Sockaddr) (nodeId port : UInt32) : Option (Int × Exec) :=
  if sq.node ≠ nodeId then some (-22, w)
  else if sq.node = w.localNode ∧ sq.port ≠ port then some (-22, w)
  else do
    let w ← removeLookups (fun lookup => lookup.sq.node == nodeId && lookup.sq.port == port)
      (w.heap.fresh + 1) w.lookups.head w
    let (node, w) ← nodeGet w nodeId
    let (_, w) ← node.elim (some (0, w)) fun node => serverDel w node port
    tellLocal w (.delClient nodeId port) fun w => delClientPkt w.order w.stack nodeId port

/-- The broadcast of `ctrl_cmd_new_server`, if the server is local. -/
def announceAdded (w : Exec) (srv : Addr) : Option (Int × Exec) := do
  let server ← w.serverAt srv
  if server.node = w.localNode then serviceAnnounceNew w bcastSq srv else some (0, w)

/-- `ctrl_cmd_new_server`. -/
def ctrlCmdNewServer (w : Exec) (sq : Sockaddr) (service inst nodeId port : UInt32) :
    Option (Int × Exec) :=
  let nodeId' := if sq.node = w.localNode then sq.node else nodeId
  let port' := if sq.node = w.localNode then sq.port else port
  if sq.node ≠ nodeId' then some (-22, w)
  else do
    match ← serverAdd w service inst nodeId' port' with
    | (none, w) => some (-22, w)
    | (some srv, w) => do
        let (rc, w) ← announceAdded w srv
        let w ← notifyObservers service inst srv true (w.heap.fresh + 1) w.lookups.head w
        some (rc, w)

/-- `ctrl_cmd_del_server`. The words `service` and `instance` are not looked at. -/
def ctrlCmdDelServer (w : Exec) (sq : Sockaddr) (_service _inst nodeId port : UInt32) :
    Option (Int × Exec) :=
  let nodeId' := if sq.node = w.localNode then sq.node else nodeId
  let port' := if sq.node = w.localNode then sq.port else port
  if sq.node ≠ nodeId' then some (-22, w)
  else if sq.node = w.localNode ∧ sq.port ≠ port' then some (-22, w)
  else do
    match ← nodeGet w nodeId' with
    | (none, w) => some (-2, w)
    | (some node, w) => serverDel w node port'

/-- `list_append(&ctx->lookups, &lookup->li)`: it writes to the item and to the tail of the list. -/
def appendLookup (w : Exec) (li : Addr) : Option Exec := do
  let _ ← w.lookupAt li
  let _ ← w.lookupOrNull w.lookups.tail
  some { w with lookups := listAppend w.lookups li }

/-- `ctrl_cmd_new_lookup`. -/
def ctrlCmdNewLookup (w : Exec) (sq : Sockaddr) (service inst : UInt32) : Option (Int × Exec) :=
  if sq.node ≠ w.localNode then some (-22, w)
  else
    match w.calloc (.lookup { service := service, inst := inst, sq := sq }) with
    | (none, w) => some (-22, w)
    | (some lookup, w) => do
        let w ← appendLookup w lookup
        let w ← serverQuery w { service := service, inst := inst, ifilter := 0 }
        let w ← notifyReply sq (w.heap.fresh + 1) w.replies.head w
        some (0, (lookupNotifyEnd w sq true).2)

/-- `ctrl_cmd_del_lookup`. -/
def ctrlCmdDelLookup (w : Exec) (sq : Sockaddr) (service inst : UInt32) : Option (Int × Exec) := do
  let w ← removeLookups
    (fun lookup =>
      lookup.sq.node == sq.node && lookup.sq.port == sq.port && lookup.service == service &&
        (lookup.inst == 0 || lookup.inst == inst))
    (w.heap.fresh + 1) w.lookups.head w
  some (0, w)

/-- `ctrl_port_fn` on a received datagram: the return code of the handler it calls, 0 where it calls
    none. -/
def ctrlPortFn (w : Exec) (sq : Sockaddr) (datagram : List UInt8) (stale : Mem) : Option (Int × Exec) :=
  let received := datagram.take 4096
  let buf := stale.write 0 received
  if received.length = 0 then some (0, { w with sockOpen := false })
  else if received.length < 4 then some (0, w)
  else
    let cmd := ctrlWord w.order buf 0
    let word := ctrlWord w.order buf
    if cmd = qrtrTypeHello then ctrlCmdHello w sq received
    else if cmd = qrtrTypeBye then ctrlCmdBye w sq
    else if cmd = qrtrTypeDelClient then ctrlCmdDelClient w sq (word 4) (word 8)
    else if cmd = qrtrTypeNewServer then
      ctrlCmdNewServer w sq (word 4) (word 8) (word 12) (word 16)
    else if cmd = qrtrTypeDelServer then
      ctrlCmdDelServer w sq (word 4) (word 8) (word 12) (word 16)
    else if cmd = qrtrTypeNewLookup then ctrlCmdNewLookup w sq (word 4) (word 8)
    else if cmd = qrtrTypeDelLookup then ctrlCmdDelLookup w sq (word 4) (word 8)
    else some (0, w)

/-! ### The name server as a machine -/

/-- The name server as `main` sets it up, with whatever links are in memory. -/
def nsInit (order : HostOrder) (localNode : UInt32) (memory : Links Addr) : Ns where
  order := order
  sockOpen := true
  localNode := localNode
  heap := .empty
  lookups := listInit memory
  replies := memory
  nodes := mapCreate

/-- The name server as it starts to handle a datagram. -/
def Ns.exec (s : Ns) (e : Event) : Exec :=
  { s with stack := e.stack, allocs := e.allocs, sends := e.sends, sent := [] }

/-- One turn of the main loop, which ends when the socket is closed. -/
def nsStep (s : Ns) (e : Event) : Option (Ns × List Msg) :=
  if s.sockOpen then do
    let (_, w) ← ctrlPortFn (s.exec e) e.sq e.datagram e.stale
    some (w.toNs, w.sent)
  else some (s, [])

/-- A run over datagrams: the state at the end and what is sent for each. -/
def nsRun : Ns → List Event → Option (Ns × List (List Msg)) := Run.attempt nsStep

/-! ### The end of the program -/

/-- `free` of a record when no datagram is being handled. -/
def Ns.free (s : Ns) (a : Addr) : Option Ns := do
  let heap ← s.heap.free a
  some { s with heap := heap }

/-- `server_mi_free`. -/
def serverMiFree (s : Ns) (mi : Addr) : Option Ns := do
  let _ ← s.serverAt mi
  s.free mi

/-- `node_mi_free`. The services of the node are cleared before the node is freed. -/
def nodeMiFree (s : Ns) (mi : Addr) : Option Ns := do
  let services ← s.servicesAt mi
  let s ← (mapClear services).2.foldlM serverMiFree s
  s.free mi

/-- The last part of `main`: the records of the nodes and their servers are freed. -/
def shutdown (s : Ns) : Option Ns :=
  (mapClear s.nodes).2.foldlM nodeMiFree { s with nodes := (mapClear s.nodes).1 }

end Qrtr.Records
