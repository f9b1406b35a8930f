/-
Module: Qrtr.NameServer.Handlers
Layer: NameServer
Purpose: What the functions of the name server do, in closed form. The loops that only send are one
  block of datagrams each; `node_get` changes nothing but the node records; `server_del` and the loop
  of `ctrl_cmd_bye` take servers out of one table and tell the observers and, for local servers, the
  other name servers. Nothing here assumes that a port is registered once.
Imports: Qrtr.NameServer.Core, Qrtr.Map.Instances
Main exports: Exec.sendAll, NodesOk, nodeGet_cases, Ns.delMsgs, serverDel_some, byeLoop_cases,
  byeLoop_complete, byeLoop_spec, serverAdd_cases
Open obligations: none
-/
import Qrtr.NameServer.Core
import Qrtr.Map.Instances

namespace Qrtr

open MapOps LawfulMap

/-! ### Blocks of datagrams -/

variable {T : Type}

/-- The state after a block of datagrams has been handed to `sendto`. -/
def Exec.sendAll (w : Exec T) (msgs : List Msg) : Exec T :=
  { w with
    sends := w.sends.drop msgs.length
    sent := w.sent ++ msgs }

/-- The datagram of `service_announce_new`. -/
def announceNewMsg (order : HostOrder) (dest : Sockaddr) (srv : Server) : Msg where
  call := .announceNew srv
  dest := dest
  payload := announcePkt order qrtrTypeNewServer srv

/-- The datagram of `service_announce_del`. -/
def announceDelMsg (order : HostOrder) (dest : Sockaddr) (srv : Server) : Msg where
  call := .announceDel srv
  dest := dest
  payload := announcePkt order qrtrTypeDelServer srv

/-- The datagram of `lookup_notify`. -/
def notifyMsg (order : HostOrder) (dest : Sockaddr) (srv? : Option Server) (new : Bool) : Msg where
  call := .lookupNotify srv? new
  dest := dest
  payload := notifyPkt order srv? new

/-- The datagram of `ctrl_cmd_bye` to a local server. -/
def byeMsg (order : HostOrder) (node : UInt32) (srv : Server) : Msg where
  call := .bye node
  dest := { node := srv.node, port := srv.port }
  payload := byePkt order node

/-- The datagram of `ctrl_cmd_del_client` to a local server. -/
def delClientMsg (order : HostOrder) (stack : Mem) (node port : UInt32) (srv : Server) : Msg where
  call := .delClient node port
  dest := { node := srv.node, port := srv.port }
  payload := delClientPkt order stack node port

/-- The notifications of a server to the lookups it matches. -/
def Ns.notifyMsgs (s : Ns T) (srv : Server) (new : Bool) : List Msg :=
  (s.lookups.filter fun lookup => lookup.observes srv.service srv.inst).map fun lookup =>
    notifyMsg s.order lookup.sq (some srv) new

/-- What `server_del` sends about the server it removes. -/
def Ns.delMsgs (s : Ns T) (srv : Server) : List Msg :=
  (if srv.node = s.localNode then [announceDelMsg s.order bcastSq srv] else []) ++
    s.notifyMsgs srv false

/-- What `ctrl_cmd_new_server` sends about the server it adds. -/
def Ns.newMsgs (s : Ns T) (srv : Server) : List Msg :=
  (if srv.node = s.localNode then [announceNewMsg s.order bcastSq srv] else []) ++
    s.notifyMsgs srv true

/-- The state with other node records and other allocations to come. -/
def Exec.renode (w : Exec T) (nodes : Map UInt32) (allocs : AllocPlan) : Exec T :=
  { w with
    nodes := nodes
    allocs := allocs }

/-- The state with another table of a node. -/
def Exec.setTable (w : Exec T) (node : UInt32) (t : T) : Exec T :=
  { w with services := Function.update w.services node t }

namespace Exec

theorem sendto_snd (w : Exec T) (call : SendCall) (dest : Sockaddr) (payload : List UInt8) :
    (w.sendto call dest payload).2 =
      w.sendAll [{ call := call, dest := dest, payload := payload }] := by
  simp [sendto, sendAll]

theorem neg_one_le_sendto (w : Exec T) (call : SendCall) (dest : Sockaddr)
    (payload : List UInt8) : -1 ≤ (w.sendto call dest payload).1 := by
  simp only [sendto]
  split <;> omega

/-- A call of `sendto` that has no failure planned for it succeeds. -/
theorem sendto_of_nil {w : Exec T} (h : w.sends = []) (call : SendCall) (dest : Sockaddr)
    (payload : List UInt8) : (w.sendto call dest payload).1 = payload.length := by
  simp [sendto, h]

@[simp] theorem sendAll_nil (w : Exec T) : w.sendAll [] = w := by simp [sendAll]

@[simp] theorem sendAll_sendAll (w : Exec T) (msgs msgs' : List Msg) :
    (w.sendAll msgs).sendAll msgs' = w.sendAll (msgs ++ msgs') := by
  simp [sendAll]

@[simp] theorem order_sendAll (w : Exec T) (msgs : List Msg) : (w.sendAll msgs).order = w.order := rfl

@[simp] theorem localNode_sendAll (w : Exec T) (msgs : List Msg) :
    (w.sendAll msgs).localNode = w.localNode := rfl

@[simp] theorem lookups_sendAll (w : Exec T) (msgs : List Msg) :
    (w.sendAll msgs).lookups = w.lookups := rfl

@[simp] theorem nodes_sendAll (w : Exec T) (msgs : List Msg) : (w.sendAll msgs).nodes = w.nodes := rfl

@[simp] theorem services_sendAll (w : Exec T) (msgs : List Msg) :
    (w.sendAll msgs).services = w.services := rfl

@[simp] theorem allocs_sendAll (w : Exec T) (msgs : List Msg) :
    (w.sendAll msgs).allocs = w.allocs := rfl

@[simp] theorem stack_sendAll (w : Exec T) (msgs : List Msg) : (w.sendAll msgs).stack = w.stack := rfl

@[simp] theorem sent_sendAll (w : Exec T) (msgs : List Msg) :
    (w.sendAll msgs).sent = w.sent ++ msgs := rfl

section

variable (w : Exec T) (nodes : Map UInt32) (allocs : AllocPlan) (node : UInt32) (t : T)

@[simp] theorem order_renode : (w.renode nodes allocs).order = w.order := rfl
@[simp] theorem localNode_renode : (w.renode nodes allocs).localNode = w.localNode := rfl
@[simp] theorem lookups_renode : (w.renode nodes allocs).lookups = w.lookups := rfl
@[simp] theorem nodes_renode : (w.renode nodes allocs).nodes = nodes := rfl
@[simp] theorem services_renode : (w.renode nodes allocs).services = w.services := rfl
@[simp] theorem allocs_renode : (w.renode nodes allocs).allocs = allocs := rfl
@[simp] theorem stack_renode : (w.renode nodes allocs).stack = w.stack := rfl
@[simp] theorem sends_renode : (w.renode nodes allocs).sends = w.sends := rfl
@[simp] theorem sent_renode : (w.renode nodes allocs).sent = w.sent := rfl

@[simp] theorem order_setTable : (w.setTable node t).order = w.order := rfl
@[simp] theorem localNode_setTable : (w.setTable node t).localNode = w.localNode := rfl
@[simp] theorem lookups_setTable : (w.setTable node t).lookups = w.lookups := rfl
@[simp] theorem nodes_setTable : (w.setTable node t).nodes = w.nodes := rfl
@[simp] theorem allocs_setTable : (w.setTable node t).allocs = w.allocs := rfl
@[simp] theorem stack_setTable : (w.setTable node t).stack = w.stack := rfl
@[simp] theorem sends_setTable : (w.setTable node t).sends = w.sends := rfl
@[simp] theorem sent_setTable : (w.setTable node t).sent = w.sent := rfl

@[simp] theorem services_setTable :
    (w.setTable node t).services = Function.update w.services node t := rfl

@[simp] theorem renode_self : w.renode w.nodes w.allocs = w := rfl

@[simp] theorem setTable_self : w.setTable node (w.services node) = w := by
  simp [setTable]

@[simp] theorem setTable_setTable (t' : T) :
    (w.setTable node t).setTable node t' = w.setTable node t' := by
  simp [setTable]

@[simp] theorem setTable_sendAll (msgs : List Msg) :
    (w.sendAll msgs).setTable node t = (w.setTable node t).sendAll msgs := rfl

@[simp] theorem delMsgs_renode : (w.renode nodes allocs).delMsgs = w.delMsgs := rfl
@[simp] theorem delMsgs_setTable : (w.setTable node t).delMsgs = w.delMsgs := rfl

@[simp] theorem delMsgs_sendAll (msgs : List Msg) : (w.sendAll msgs).delMsgs = w.delMsgs := rfl

end

theorem sends_sendAll_of_nil {w : Exec T} (h : w.sends = []) (msgs : List Msg) :
    (w.sendAll msgs).sends = [] := by
  simp [sendAll, h]

end Exec

/-! ### The sending loops -/

theorem notifyObservers_eq (service inst : UInt32) (srv : Server) (new : Bool) :
    ∀ (lookups : List Lookup) (w : Exec T),
      notifyObservers service inst srv new lookups w =
        w.sendAll ((lookups.filter fun lookup => lookup.observes service inst).map fun lookup =>
          notifyMsg w.order lookup.sq (some srv) new)
  | [], w => (w.sendAll_nil).symm
  | lookup :: rest, w => by
      rw [notifyObservers]
      split
      · rename_i hobs
        rw [lookupNotify, Exec.sendto_snd, notifyObservers_eq, Exec.sendAll_sendAll,
          List.filter_cons, if_pos hobs]
        rfl
      · rename_i hobs
        rw [notifyObservers_eq, List.filter_cons, if_neg hobs]

theorem notifyReply_eq (dest : Sockaddr) :
    ∀ (reply : List Server) (w : Exec T),
      notifyReply dest reply w =
        w.sendAll (reply.map fun srv => notifyMsg w.order dest (some srv) true)
  | [], w => (w.sendAll_nil).symm
  | srv :: rest, w => by
      rw [notifyReply, lookupNotify, Exec.sendto_snd, notifyReply_eq, Exec.sendAll_sendAll]
      rfl

theorem propagate_eq (call : SendCall) (payload : List UInt8) :
    ∀ (srvs : List Server) (w : Exec T),
      propagate call payload srvs w =
        w.sendAll (srvs.map fun srv =>
          { call := call, dest := { node := srv.node, port := srv.port }, payload := payload })
  | [], w => (w.sendAll_nil).symm
  | srv :: rest, w => by
      rw [propagate, Exec.sendto_snd, propagate_eq, Exec.sendAll_sendAll]
      rfl

/-- The announcements go to a first part of the local servers, to all of them if no send fails. -/
theorem annouceLoop_cases (sq : Sockaddr) :
    ∀ (srvs : List Server) (w : Exec T), ∃ told : List Server, ∃ rc : Int,
      annouceLoop sq srvs w = (rc, w.sendAll (told.map (announceNewMsg w.order sq))) ∧
        told <+: srvs ∧ (w.sends = [] → told = srvs) ∧ -1 ≤ rc
  | [], w => ⟨[], 0, by simp [annouceLoop], List.nil_prefix, fun _ => rfl, by omega⟩
  | srv :: rest, w => by
      have hlow := Exec.neg_one_le_sendto w (.announceNew srv) sq
        (announcePkt w.order qrtrTypeNewServer srv)
      have hsnd : (serviceAnnounceNew w sq srv).2 = w.sendAll [announceNewMsg w.order sq srv] :=
        Exec.sendto_snd w _ _ _
      rw [annouceLoop]
      by_cases hfail : (serviceAnnounceNew w sq srv).1 < 0
      · refine ⟨[srv], (serviceAnnounceNew w sq srv).1, ?_, ⟨rest, rfl⟩, fun hsends => ?_, hlow⟩
        · simp only [hfail, if_true]
          exact Prod.ext rfl hsnd
        · rw [serviceAnnounceNew, Exec.sendto_of_nil hsends] at hfail
          omega
      · obtain ⟨told, rc, hstate, hpre, hall, hrc⟩ :=
          annouceLoop_cases sq rest (w.sendAll [announceNewMsg w.order sq srv])
        refine ⟨srv :: told, rc, ?_, (List.prefix_cons_inj srv).2 hpre, fun hsends => ?_, hrc⟩
        · simp only [hfail, if_false, hsnd, hstate, Exec.sendAll_sendAll]
          rfl
        · rw [hall (Exec.sends_sendAll_of_nil hsends _)]

/-- The last part of `ctrl_cmd_new_server`: the new server is broadcast if it is local, and the lookups
    it matches are notified. -/
theorem announceAdded_cases (w : Exec T) (srv : Server) :
    ∃ rc : Int, -1 ≤ rc ∧
      (let r := if srv.node = w.localNode then serviceAnnounceNew w bcastSq srv else (0, w);
        (r.1, notifyObservers srv.service srv.inst srv true r.2.lookups r.2)) =
        (rc, w.sendAll (w.newMsgs srv)) := by
  by_cases hlocal : srv.node = w.localNode
  · refine ⟨(serviceAnnounceNew w bcastSq srv).1,
      Exec.neg_one_le_sendto w (.announceNew srv) bcastSq _, ?_⟩
    have hsnd : (serviceAnnounceNew w bcastSq srv).2 =
        w.sendAll [announceNewMsg w.order bcastSq srv] := Exec.sendto_snd w _ _ _
    simp only [if_pos hlocal, hsnd, notifyObservers_eq, Exec.sendAll_sendAll, Ns.newMsgs]
    rfl
  · refine ⟨0, by omega, ?_⟩
    simp only [if_neg hlocal, notifyObservers_eq, Ns.newMsgs]
    rfl

/-! ### Node records -/

variable [MapOps T Server]

/-- What holds of the node records: they hang under the hash of their id, one for each id, and an id
    without a record has an empty table. -/
structure NodesOk (nodes : Map UInt32) (services : UInt32 → T) : Prop where
  inv : nodes.Inv
  unique : nodes.Unique
  key : ∀ {k id}, nodes.Holds k id → k = hashU32 id
  absent : ∀ id, ¬ nodes.Holds (hashU32 id) id → services id = create

/-- `hash_u32` keeps apart what is apart. -/
theorem hashU32_injective : Function.Injective hashU32 := by
  intro a b h
  have hinv : ∀ x : UInt32, hashU32 x * 244002641 = x := by
    intro x
    rw [hashU32, UInt32.mul_assoc]
    exact UInt32.mul_one x
  rw [← hinv a, ← hinv b, h]

theorem NodesOk.init : NodesOk (mapCreate : Map UInt32) (fun _ => (create : T)) where
  inv := .create
  unique := .create
  key h := absurd h (Map.not_holds_create _ _)
  absent _ _ := rfl

/-- Changing the table of an existing record. -/
theorem NodesOk.update {nodes : Map UInt32} {services : UInt32 → T} (h : NodesOk nodes services)
    {node : UInt32} (hnode : nodes.Holds (hashU32 node) node) (t : T) :
    NodesOk nodes (Function.update services node t) where
  inv := h.inv
  unique := h.unique
  key := h.key
  absent id hid := by
    have hne : id ≠ node := by
      rintro rfl
      exact hid hnode
    rw [Function.update_of_ne hne]
    exact h.absent id hid

/-- A lookup in the node table answers with the record of the id asked for. -/
theorem NodesOk.get {nodes : Map UInt32} {services : UInt32 → T} (h : NodesOk nodes services)
    {nodeId node : UInt32} (hget : mapGet nodes (hashU32 nodeId) = some node) :
    node = nodeId ∧ nodes.Holds (hashU32 nodeId) nodeId := by
  have hholds := holds_of_mapGet hget
  have hid : node = nodeId := (hashU32_injective (h.key hholds)).symm
  subst hid
  exact ⟨rfl, hholds⟩

/-- Putting a record that is not there yet. -/
theorem mapPut_absent {V : Type} {nodes : Map V} (hinv : nodes.Inv) (hu : nodes.Unique) {key : UInt32}
    (habs : ∀ v, ¬ nodes.Holds key v) (allocs : AllocPlan) (id : V) :
    ((mapPut allocs nodes key id).rc = 0 ∧ (mapPut allocs nodes key id).map.Inv ∧
        (mapPut allocs nodes key id).map.Unique ∧
        ∀ k v, (mapPut allocs nodes key id).map.Holds k v ↔
          if k = key then v = id else nodes.Holds k v) ∨
      ((mapPut allocs nodes key id).rc ≠ 0 ∧ (mapPut allocs nodes key id).map = nodes ∧
        allocs ≠ []) := by
  have hsingle : Single nodes := Map.single_iff.2 hu
  have hput : PutOk nodes key := putOk_of_absent fun i v hi => habs v (Map.entry_iff.1 ⟨i, hi⟩)
  by_cases hrc : (mapPut allocs nodes key id).rc = 0
  · refine Or.inl ⟨hrc, ok_reput (T := Map V) allocs key id hinv, ?_, fun k v => ?_⟩
    · exact Map.single_iff.1 (single_reput (T := Map V) hinv hrc hput hsingle)
    · have hentry := entry_reput_iff (T := Map V) hinv hsingle hput hrc k v
      rwa [Map.entry_iff, Map.entry_iff] at hentry
  · exact Or.inr ⟨hrc, reput_fails (T := Map V) hinv hrc⟩

/-- An allocation that fails was planned to. -/
theorem calloc_false {allocs rest : AllocPlan} (h : calloc allocs = (false, rest)) : allocs ≠ [] := by
  rintro rfl
  cases h

theorem calloc_true {allocs rest : AllocPlan} (h : calloc allocs = (true, rest)) :
    allocs = [] → rest = [] := by
  rintro rfl
  cases h
  rfl

/-- The record table with a new record, whose table is the empty one that its id had before. -/
theorem NodesOk.insert {nodes nodes' : Map UInt32} {services : UInt32 → T}
    (h : NodesOk nodes services) {nodeId : UInt32} (hinv : nodes'.Inv) (hu : nodes'.Unique)
    (hholds : ∀ k v, nodes'.Holds k v ↔
      if k = hashU32 nodeId then v = nodeId else nodes.Holds k v) : NodesOk nodes' services where
  inv := hinv
  unique := hu
  key hk := by
    rw [hholds] at hk
    split at hk
    · rw [hk]
      assumption
    · exact h.key hk
  absent id hid := by
    apply h.absent
    intro hold
    apply hid
    rw [hholds]
    split
    · rename_i hkey
      exact hashU32_injective hkey
    · exact hold

/-- A record that is there is found, without an allocation. -/
theorem nodeGet_of_record {w : Exec T} {nodeId : UInt32} (h : mapGet w.nodes (hashU32 nodeId) ≠ none) :
    (nodeGet w nodeId).2 = w := by
  obtain ⟨node, hget⟩ := Option.ne_none_iff_exists'.1 h
  rw [nodeGet, hget]

/-- `node_get` finds or makes the record of a node, or fails for want of memory; either way it leaves
    all but the records as it was. -/
theorem nodeGet_cases {w : Exec T} (h : NodesOk w.nodes w.services) (nodeId : UInt32) :
    (∃ nodes allocs, nodeGet w nodeId = (some nodeId, w.renode nodes allocs) ∧
        NodesOk nodes w.services ∧ nodes.Holds (hashU32 nodeId) nodeId ∧
        (w.allocs = [] → allocs = [])) ∨
      ∃ nodes allocs, nodeGet w nodeId = (none, w.renode nodes allocs) ∧
        NodesOk nodes w.services ∧ w.allocs ≠ [] := by
  unfold nodeGet
  cases hget : mapGet w.nodes (hashU32 nodeId) with
  | some node =>
      obtain ⟨rfl, hholds⟩ := h.get hget
      exact Or.inl ⟨w.nodes, w.allocs, rfl, h, hholds, id⟩
  | none =>
      have habs := (mapGet_eq_none_iff h.inv).1 hget
      cases hcalloc : calloc w.allocs with
      | mk ok allocs =>
          cases ok with
          | false => exact Or.inr ⟨w.nodes, allocs, rfl, h, calloc_false hcalloc⟩
          | true =>
              have hallocs := calloc_true hcalloc
              rcases mapPut_absent h.inv h.unique habs allocs nodeId with
                ⟨hrc, hinv, hu, hholds⟩ | ⟨hrc, hmap, hne⟩
              · have hsame : Function.update w.services nodeId create = w.services := by
                  rw [← h.absent nodeId (habs nodeId), Function.update_eq_self]
                refine Or.inl ⟨_, (mapPut allocs w.nodes (hashU32 nodeId) nodeId).allocs, ?_,
                  h.insert hinv hu hholds, (hholds _ _).2 (by simp), fun hnil => ?_⟩
                · simp only [hrc, ne_eq, not_true_eq_false, if_false, hsame]
                  rfl
                · have hnil' := hallocs hnil
                  subst hnil'
                  exact allocs_reput (T := Map UInt32) (hashU32 nodeId) nodeId h.inv
              · refine Or.inr ⟨w.nodes, (mapPut allocs w.nodes (hashU32 nodeId) nodeId).allocs, ?_,
                  h, fun hnil => hne (hallocs hnil)⟩
                simp only [hrc, ne_eq, not_false_eq_true, if_true, hmap]
                rfl

/-- `annouce_servers` announces a first part of the local servers, all of them if nothing fails. -/
theorem annouceServers_cases {w : Exec T} (h : NodesOk w.nodes w.services) (sq : Sockaddr) :
    ∃ nodes allocs told rc,
      annouceServers w sq =
        (rc, (w.renode nodes allocs).sendAll (told.map (announceNewMsg w.order sq))) ∧
      NodesOk nodes w.services ∧ told <+: forEach (w.services w.localNode) ∧
      (w.allocs = [] → w.sends = [] → told = forEach (w.services w.localNode)) ∧ -1 ≤ rc := by
  unfold annouceServers
  rcases nodeGet_cases h w.localNode with
    ⟨nodes, allocs, hgot, hnodes, -, -⟩ | ⟨nodes, allocs, hgot, hnodes, hne⟩
  · obtain ⟨told, rc, hstate, hpre, hall, hrc⟩ :=
      annouceLoop_cases sq (forEach (w.services w.localNode)) (w.renode nodes allocs)
    rw [hgot]
    exact ⟨nodes, allocs, told, rc, hstate, hnodes, hpre, fun _ => hall, hrc⟩
  · rw [hgot]
    exact ⟨nodes, allocs, [], 0, by simp, hnodes, List.nil_prefix, fun hnil => absurd hnil hne,
      by omega⟩

/-- The last part of `ctrl_cmd_bye` and `ctrl_cmd_del_client`: every local server is told, or none for
    want of memory. -/
theorem propagate_cases {w : Exec T} (h : NodesOk w.nodes w.services) (call : SendCall)
    (payload : Exec T → List UInt8)
    (hpayload : ∀ nodes allocs, payload (w.renode nodes allocs) = payload w) :
    ∃ nodes allocs told,
      (match nodeGet w w.localNode with
        | (none, w) => ((0 : Int), w)
        | (some node, w) => (0, propagate call (payload w) (forEach (w.services node)) w)) =
        (0,
          (w.renode nodes allocs).sendAll (told.map fun srv : Server =>
            { call := call, dest := { node := srv.node, port := srv.port }, payload := payload w })) ∧
      NodesOk nodes w.services ∧ (told = [] ∨ told = forEach (w.services w.localNode)) ∧
      (w.allocs = [] → told = forEach (w.services w.localNode)) := by
  rcases nodeGet_cases h w.localNode with
    ⟨nodes, allocs, hgot, hnodes, -, -⟩ | ⟨nodes, allocs, hgot, hnodes, hne⟩
  · refine ⟨nodes, allocs, forEach (w.services w.localNode), ?_, hnodes, Or.inr rfl, fun _ => rfl⟩
    rw [hgot]
    simp only [propagate_eq, hpayload, Exec.services_renode]
  · refine ⟨nodes, allocs, [], ?_, hnodes, Or.inl rfl, fun hnil => absurd hnil hne⟩
    rw [hgot]
    simp

/-! ### Removing servers -/

theorem serverDel_none (w : Exec T) (node port : UInt32)
    (h : get (w.services node) (hashU32 port) = none) : serverDel w node port = (-2, w) := by
  rw [serverDel, h]

/-- `server_del` takes the server out and says so to the observers and, for a local server, to the other
    name servers. -/
theorem serverDel_some (w : Exec T) (node port : UInt32) {srv : Server}
    (h : get (w.services node) (hashU32 port) = some srv) :
    serverDel w node port =
      (0,
        (w.setTable node (remove (w.services node) (hashU32 port))).sendAll (w.delMsgs srv)) := by
  rw [serverDel, h]
  simp only [serviceAnnounceDel, notifyObservers_eq, Ns.delMsgs, Ns.notifyMsgs]
  split
  · rw [Exec.sendto_snd, Exec.sendAll_sendAll]
    rfl
  · rfl

/-- The loop of `ctrl_cmd_bye` takes some servers out of the table and tells about each. -/
theorem byeLoop_cases (node : UInt32) :
    ∀ (n : Nat) (iter : Option Nat) (w : Exec T), ∃ gone t,
      Removal (w.services node) gone t ∧
        byeLoop node n iter w = (w.setTable node t).sendAll (gone.flatMap w.delMsgs)
  | 0, _, w => ⟨[], _, .nil _, by simp [byeLoop]⟩
  | _ + 1, none, w => ⟨[], _, .nil _, by simp [byeLoop]⟩
  | n + 1, some me, w => by
      rw [byeLoop]
      cases hitem : iterItem (w.services node) me with
      | none => exact ⟨[], _, .nil _, by simp⟩
      | some srv =>
          cases hget : get (w.services node) (hashU32 srv.port) with
          | none =>
              simp only [serverDel_none w node srv.port hget]
              exact byeLoop_cases node n _ w
          | some gone =>
              simp only [serverDel_some w node srv.port hget]
              obtain ⟨rest, t, hremoval, hstate⟩ := byeLoop_cases node n
                (iterNext (remove (w.services node) (hashU32 srv.port)) me)
                ((w.setTable node (remove (w.services node) (hashU32 srv.port))).sendAll
                  (w.delMsgs gone))
              simp only [Exec.services_sendAll, Exec.services_setTable, Function.update_self]
                at hremoval ⊢
              refine ⟨gone :: rest, t, .cons hget hremoval, ?_⟩
              rw [hstate]
              simp

variable [LawfulMap T Server]

/-- Every server of the table sits under the hash of its port. -/
def Keyed (t : T) : Prop := ∀ i k srv, live t i = some (k, srv) → k = hashU32 srv.port

/-- Where no port is registered twice the loop visits every server from its iterator on, takes each out
    and leaves none behind. -/
theorem byeLoop_complete (node : UInt32) :
    ∀ (n start : Nat) (iter : Option Nat) {w : Exec T}, Ok (w.services node) →
      Single (w.services node) → Keyed (w.services node) → Stands (w.services node) start iter →
      bound (w.services node) < n + start → ∃ t, (∀ i, start ≤ i → live t i = none) ∧
        (∀ i, i < start → live t i = live (w.services node) i) ∧
        Removal (w.services node) (itemsFrom (w.services node) start) t ∧
        byeLoop node n iter w =
          (w.setTable node t).sendAll ((itemsFrom (w.services node) start).flatMap w.delMsgs)
  | 0, start, iter, w, _, _, _, _, hn => by
      have hempty : itemsFrom (w.services node) start = [] := by
        have hzero : bound (w.services node) - start = 0 := by omega
        rw [itemsFrom, hzero]
        rfl
      refine ⟨w.services node, fun i hi => ?_, fun _ _ => rfl, hempty ▸ .nil _, by
        simp [byeLoop, hempty]⟩
      cases hlive : live (w.services node) i with
      | none => rfl
      | some e =>
          have := lt_bound hlive
          omega
  | n + 1, start, none, w, _, _, _, hstands, _ => by
      have hempty := itemsFrom_eq_nil hstands
      exact ⟨w.services node, hstands, fun _ _ => rfl, hempty ▸ .nil _, by simp [byeLoop, hempty]⟩
  | n + 1, start, some me, w, hok, hs, hkeyed, ⟨hsm, hlive, hskip⟩, hn => by
      obtain ⟨⟨k, srv⟩, hsrv⟩ := Option.ne_none_iff_exists'.1 hlive
      have hk := hkeyed me k srv hsrv
      subst hk
      obtain ⟨hget, hremoved⟩ := live_remove_at hok hs hsrv
      have hbound := lt_bound hsrv
      have hok' := ok_remove (hashU32 srv.port) hok
      have hs' := hs.remove hok hget
      have hbound' := bound_remove (w.services node) (hashU32 srv.port)
      have hkeyed' : Keyed (remove (w.services node) (hashU32 srv.port)) :=
        fun i k v hi => hkeyed i k v (live_of_live_remove hok hget hi)
      have hitem : iterItem (w.services node) me = some srv := by rw [iterItem_eq, hsrv]; rfl
      obtain ⟨t, hafter, hbefore, hremoval, hstate⟩ := byeLoop_complete node n (me + 1)
        (iterNext (remove (w.services node) (hashU32 srv.port)) me)
        (w := (w.setTable node (remove (w.services node) (hashU32 srv.port))).sendAll
          (w.delMsgs srv))
        (by simpa using hok') (by simpa using hs') (by simpa using hkeyed')
        (by simpa using stands_iterNext _ me)
        (by
          simp only [Exec.services_sendAll, Exec.services_setTable, Function.update_self, hbound']
          omega)
      simp only [Exec.services_sendAll, Exec.services_setTable, Function.update_self]
        at hafter hbefore hremoval hstate
      have hrest : itemsFrom (remove (w.services node) (hashU32 srv.port)) (me + 1) =
          itemsFrom (w.services node) (me + 1) :=
        itemsFrom_congr hbound' fun l hl => by rw [hremoved, if_neg (by omega)]
      have hitems : itemsFrom (w.services node) start =
          srv :: itemsFrom (w.services node) (me + 1) := by
        rw [itemsFrom_stands hbound (n := me - start) (by omega) hskip, itemsFrom_succ hbound, hsrv]
        rfl
      refine ⟨t, fun i hi => ?_, fun i hi => ?_, ?_, ?_⟩
      · rcases Nat.lt_trichotomy i me with hlt | rfl | hgt
        · rw [hbefore i (by omega), hremoved, if_neg (by omega), hskip i hi hlt]
        · rw [hbefore i (by omega), hremoved, if_pos rfl]
        · exact hafter i hgt
      · rw [hbefore i (by omega), hremoved, if_neg (by omega)]
      · rw [hitems, ← hrest]
        exact .cons hget hremoval
      · rw [byeLoop, hitem]
        simp only [serverDel_some w node srv.port hget, Exec.services_sendAll, Exec.services_setTable,
          Function.update_self]
        rw [hstate, hitems, hrest]
        simp

/-- The removal loop of `ctrl_cmd_bye` as a whole. -/
theorem byeLoop_spec {w : Exec T} {node : UInt32} (hok : Ok (w.services node)) :
    ∃ gone t, Removal (w.services node) gone t ∧
      (Single (w.services node) → Keyed (w.services node) →
        gone = forEach (w.services node) ∧ ∀ i, live t i = none) ∧
      byeLoop node (bound (w.services node) + 1) (iterFirst (w.services node)) w =
        (w.setTable node t).sendAll (gone.flatMap w.delMsgs) := by
  by_cases hs : Single (w.services node) ∧ Keyed (w.services node)
  · obtain ⟨hsingle, hkeyed⟩ := hs
    obtain ⟨t, hafter, -, hremoval, hstate⟩ := byeLoop_complete node
      (bound (w.services node) + 1) 0 _ hok hsingle hkeyed (stands_iterFirst (w.services node))
      (by omega)
    rw [← forEach_eq] at hremoval hstate
    exact ⟨_, t, hremoval, fun _ _ => ⟨rfl, fun i => hafter i (Nat.zero_le i)⟩, hstate⟩
  · obtain ⟨gone, t, hremoval, hstate⟩ := byeLoop_cases node (bound (w.services node) + 1)
      (iterFirst (w.services node)) w
    exact ⟨gone, t, hremoval, fun hsingle hkeyed => absurd ⟨hsingle, hkeyed⟩ hs, hstate⟩

/-! ### Adding a server -/

/-- `server_add` refuses and changes no table, or puts the server into the table of its node. -/
theorem serverAdd_cases {w : Exec T} (h : NodesOk w.nodes w.services)
    (hok : ∀ n, Ok (w.services n)) (service inst nodeId port : UInt32) :
    (∃ nodes allocs, serverAdd w service inst nodeId port = (none, w.renode nodes allocs) ∧
        NodesOk nodes w.services ∧ (service = 0 ∨ port = 0 ∨ w.allocs ≠ [])) ∨
      ∃ nodes allocs plan, ∃ srv : Server, ∃ t : T,
        srv = { service := service, inst := inst, node := nodeId, port := port } ∧
        service ≠ 0 ∧ port ≠ 0 ∧ (w.allocs = [] → plan = []) ∧
        (reput plan (w.services nodeId) (hashU32 port) srv).rc = 0 ∧
        t = (reput plan (w.services nodeId) (hashU32 port) srv).table ∧
        serverAdd w service inst nodeId port =
          (some srv, (w.renode nodes allocs).setTable nodeId t) ∧
        NodesOk nodes (Function.update w.services nodeId t) ∧
        (mapGet w.nodes (hashU32 nodeId) ≠ none → calloc w.allocs = (true, plan)) := by
  unfold serverAdd
  split
  · rename_i hzero
    refine Or.inl ⟨w.nodes, w.allocs, rfl, h, ?_⟩
    rcases hzero with hservice | hport
    · exact Or.inl hservice
    · exact Or.inr (Or.inl hport)
  rename_i hnonzero
  obtain ⟨hservice, hport⟩ := not_or.1 hnonzero
  cases hcalloc : calloc w.allocs with
  | mk ok allocs =>
      cases ok with
      | false =>
          exact Or.inl ⟨w.nodes, allocs, rfl, h, Or.inr (Or.inr (calloc_false hcalloc))⟩
      | true =>
          have hallocs := calloc_true hcalloc
          have hstart : ({ w with allocs := allocs } : Exec T) = w.renode w.nodes allocs := rfl
          simp only [hstart]
          rcases nodeGet_cases (w := w.renode w.nodes allocs) h nodeId with
            ⟨nodes, allocs', hgot, hnodes, hholds, hnil⟩ | ⟨nodes, allocs', hgot, hnodes, hne⟩
          · obtain ⟨srv, hsrv⟩ : ∃ srv : Server, srv =
              { service := service, inst := inst, node := nodeId, port := port } := ⟨_, rfl⟩
            simp only [hgot, ← hsrv, Exec.allocs_renode, Exec.services_renode]
            by_cases hrc : (reput allocs' (w.services nodeId) (hashU32 port) srv).rc = 0
            · refine Or.inr ⟨nodes, (reput allocs' (w.services nodeId) (hashU32 port) srv).allocs,
                allocs', srv, _, rfl, hservice, hport, fun hw => hnil (hallocs hw), hrc, rfl, ?_,
                hnodes.update hholds _, fun hrecord => ?_⟩
              · simp only [hrc, ne_eq, not_true_eq_false, if_false]
                rfl
              · have hsame := congrArg (fun r => r.2.allocs) hgot
                have hstay := nodeGet_of_record (w := w.renode w.nodes allocs) hrecord
                have hplan : allocs = allocs' := (congrArg (fun w => w.allocs) hstay).symm.trans hsame
                rw [hplan]
            · obtain ⟨htable, hne⟩ := reput_fails (hok nodeId) hrc
              refine Or.inl ⟨nodes, (reput allocs' (w.services nodeId) (hashU32 port) srv).allocs,
                ?_, hnodes, Or.inr (Or.inr fun hw => hne (hnil (hallocs hw)))⟩
              simp only [hrc, ne_eq, not_false_eq_true, if_true, htable, Function.update_eq_self]
              rfl
          · refine Or.inl ⟨nodes, allocs', ?_, hnodes, Or.inr (Or.inr fun hw => hne (hallocs hw))⟩
            rw [hgot]
            rfl

end Qrtr
