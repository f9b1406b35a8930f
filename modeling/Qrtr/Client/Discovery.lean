/-
Module: Qrtr.Client.Discovery
Layer: Client
Purpose: `qrtr-lookup` and the name server together. What the program prints is one line for each registered
  server that matches its arguments, and the end marker of the reply ends it; on a big-endian host it takes
  none of the reply for a packet. In a mesh that has come to agree, the servers are those of all nodes.
Imports: Client.Lookup, NameServer.Convergence, NameServer.Departure, Map.FiniteMap
Main exports: receivedBy, Lists, nodup_serverQuery, nsStep_lookup, lookup_prints, mesh_discovery
Open obligations: none
-/
import Qrtr.Client.Lookup
import Qrtr.NameServer.Convergence
import Qrtr.NameServer.Departure
import Qrtr.Map.FiniteMap

namespace Qrtr

open MapOps LawfulMap

/-- What the socket of a client receives of the datagrams that a name server sends. -/
def receivedBy (client : Sockaddr) (msgs : List Msg) : List (Option (List UInt8)) :=
  (msgs.filter fun m => m.dest = client).map fun m => some m.payload

/-- The list has each registered server that matches the arguments once, and no other. An argument 0 matches
    everything. -/
structure Lists (registered : Server → Prop) (service inst : UInt32) (servers : List Server) : Prop where
  nodup : servers.Nodup
  mem_iff : ∀ srv, srv ∈ servers ↔
    registered srv ∧ (service = 0 ∨ srv.service = service) ∧ (inst = 0 ∨ srv.inst = inst)

/-! ### The reply of the name server -/

/-- The nodes of a table are visited once each. -/
theorem nodup_mapForEach {nodes : Map UInt32} (hu : nodes.Unique)
    (hkey : ∀ {k id}, nodes.Holds k id → k = hashU32 id) : (mapForEach nodes).Nodup := by
  have hkeys := hu.nodupKeys
  rw [List.NodupKeys, List.keys, Map.sigmaEntries, List.map_map] at hkeys
  have hhash : (mapForEach nodes).map hashU32 = nodes.entries.map Prod.fst := by
    rw [mapForEach_eq, List.map_map]
    refine List.map_congr_left fun entry hentry => ?_
    exact (hkey ((Map.mem_entries_iff ..).1 hentry)).symm
  refine List.Nodup.of_map hashU32 ?_
  rw [hhash]
  exact hkeys

section

variable {T : Type} [MapOps T Server] [LawfulMap T Server]

/-- A lookup reply names no server twice. -/
theorem nodup_serverQuery {w : Exec T} (h : w.toNs.TablesOk) (hd : w.toNs.Distinct) (f : ServerFilter) :
    (serverQuery w f).Nodup := by
  rw [serverQuery, List.nodup_flatMap]
  refine ⟨fun n _ => (forEach_nodup (hd n) (h.tableKeyed n)).filter _, ?_⟩
  refine (nodup_mapForEach h.nodesOk.unique h.nodesOk.key).imp fun {n n'} hne => ?_
  rw [Function.onFun_apply, List.disjoint_left]
  intro srv hn hn'
  obtain ⟨k, hentry⟩ := mem_forEach.1 (List.mem_filter.1 hn).1
  obtain ⟨k', hentry'⟩ := mem_forEach.1 (List.mem_filter.1 hn').1
  exact hne ((h.keyed hentry).1.symm.trans (h.keyed hentry').1)

/-- What the name server reads from the request of `qrtr-lookup`. -/
theorem Event.words_lookup {e : Event} {order : HostOrder} {service inst : UInt32}
    (h : e.datagram = lookupPkt order service inst) :
    4 ≤ e.received.length ∧ e.word 0 = qrtrTypeNewLookup ∧ e.word 4 = service ∧ e.word 8 = inst := by
  have hzero : wordBytes order 0 = le32 0 := by
    cases order with
    | little => rfl
    | big => rfl
  have hwords : e.datagram = [qrtrTypeNewLookup, service, inst, 0, 0].flatMap le32 := by
    simp [h, lookupPkt, ctrlPkt, hzero]
  obtain ⟨hlen, h0, h4, h8, -, -⟩ := Event.words hwords
  exact ⟨by omega, h0, h4, h8⟩

/-- The answer to a request: each matching server once, and the end marker. -/
theorem nsStep_lookup {s : Ns T} (hs : s.TablesOk) (hd : s.Distinct) (running : s.sockOpen = true)
    {e : Event} {service inst : UInt32} (hdatagram : e.datagram = lookupPkt s.order service inst)
    (hlocal : e.sq.node = s.localNode) (smooth : e.Smooth) :
    ∃ servers, Lists (fun srv => s.server srv.node srv.port = some srv) service inst servers ∧
      (nsStep s e).2 = (servers.map fun srv => notifyMsg s.order e.sq (some srv) true) ++
        [notifyMsg s.order e.sq none true] := by
  obtain ⟨hlen, hcmd, hservice, hinst⟩ := Event.words_lookup hdatagram
  have hrec : e.datagram.take 4096 = e.received := rfl
  have hword : ∀ i, ctrlWord (s.exec e).order (e.stale.write 0 e.received) i = e.word i :=
    fun i => ctrlWord_eq _ _ i
  have hnode : (s.exec e).localNode = s.localNode := rfl
  have hcalloc : calloc (s.exec e).allocs = (true, []) := by
    change calloc e.allocs = (true, [])
    rw [smooth.allocs]
    rfl
  obtain ⟨l, hl⟩ : ∃ l : Lookup, l = { service := service, inst := inst, sq := e.sq } := ⟨_, rfl⟩
  obtain ⟨w, hw⟩ : ∃ w : Exec T, w =
      { s.exec e with
        allocs := []
        lookups := (s.exec e).lookups ++ [l] } := ⟨_, rfl⟩
  have hstep : (nsStep s e).2 =
      ((serverQuery w { service := service, inst := inst, ifilter := 0 }).map fun srv =>
        notifyMsg s.order e.sq (some srv) true) ++ [notifyMsg s.order e.sq none true] := by
    have hne : e.received.length ≠ 0 := by omega
    rw [nsStep, if_pos running, ctrlPortFn]
    simp only [hrec, hword, hcmd, if_neg hne, if_neg (Nat.not_lt.2 hlen)]
    change (ctrlCmdNewLookup (s.exec e) e.sq (e.word 4) (e.word 8)).2.sent = _
    rw [ctrlCmdNewLookup, if_neg (not_not.2 (hlocal.trans hnode.symm)), hcalloc, hservice, hinst, hw, hl]
    simp only [lookupNotify, notifyReply_eq, Exec.sendto_snd, Exec.sendAll_sendAll]
    rfl
  have hws : w.toNs.TablesOk := by
    rw [hw]
    exact ⟨hs.nodesOk, hs.ok, hs.keyed⟩
  have hwd : w.toNs.Distinct := by
    rw [hw]
    exact hd
  have hservices : w.services = s.services := by rw [hw]; rfl
  refine ⟨_, ⟨nodup_serverQuery hws hwd _, fun srv => ?_⟩, hstep⟩
  have hquery := mem_serverQuery hws.nodesOk l srv
  rw [hl] at hquery
  rw [hquery, hservices]
  have hregistered : (∃ n, srv ∈ forEach (s.services n)) ↔ s.server srv.node srv.port = some srv := by
    constructor
    · rintro ⟨n, hsrv⟩
      obtain ⟨k, hentry⟩ := mem_forEach.1 hsrv
      rw [(hs.keyed hentry).1]
      exact (mem_forEach_server hs hd).1 hsrv
    · exact fun hsrv => ⟨srv.node, (mem_forEach_server hs hd).2 hsrv⟩
  have hobserves : ({ service := service, inst := inst, sq := e.sq } : Lookup).observes srv.service
      srv.inst = true ↔ (service = 0 ∨ srv.service = service) ∧ (inst = 0 ∨ srv.inst = inst) := by
    simp only [Lookup.observes]
    grind
  exact and_congr hregistered hobserves

end

/-! ### What the program makes of it -/

/-- The notification of a server on a little-endian host. -/
theorem listed_notify {srv : Server} (hservice : srv.service ≠ 0) (rest : List (Option (List UInt8))) :
    listed (some (notifyPkt .little (some srv) true) :: rest) = (srv :: (listed rest).1, (listed rest).2) := by
  have hbytes : notifyPkt .little (some srv) true = le32 qrtrTypeNewServer ++ serverBytes srv :=
    notifyPkt_some ..
  have hserver : serverOfBytes ((notifyPkt .little (some srv) true).drop 4) = srv := by
    rw [hbytes, List.drop_left' (length_le32 _), serverOfBytes_serverBytes]
  have hlen : 20 ≤ (notifyPkt .little (some srv) true).length := by
    rw [hbytes]
    simp [serverBytes]
  have hcmd : receivedWord (notifyPkt .little (some srv) true) 0 = qrtrTypeNewServer := by
    rw [hbytes, receivedWord, List.drop_zero, List.take_left' (length_le32 _), ofLe32_le32]
  rw [listed_server rest hlen hcmd, hserver]
  rw [hserver]
  exact fun hzero => hservice (congrArg Server.service hzero)

/-- On a big-endian host the command of a notification is no NEW_SERVER. -/
theorem listed_notify_big (srv? : Option Server) (rest : List (Option (List UInt8))) :
    listed (some (notifyPkt .big srv? true) :: rest) = listed rest := by
  have hword : (notifyPkt .big srv? true).take 4 = wordBytes .big qrtrTypeNewServer := by
    cases srv? with
    | none => rfl
    | some srv =>
        rw [notifyPkt_some]
        exact List.take_left' (length_wordBytes ..)
  refine listed_skip rest ?_ ?_
  · intro hnil
    rw [hnil] at hword
    exact absurd hword (by decide)
  · rintro ⟨-, hcmd⟩
    rw [receivedWord, List.drop_zero, hword] at hcmd
    exact absurd hcmd (by decide)

/-- The whole reply, with whatever arrives later. -/
theorem listed_reply (order : HostOrder) {servers : List Server} (hservice : ∀ srv ∈ servers, srv.service ≠ 0)
    (later : List (Option (List UInt8))) :
    listed ((servers.map fun srv => some (notifyPkt order (some srv) true)) ++
        some (notifyPkt order none true) :: later) =
      if order = .little then (servers, .returned) else listed later := by
  induction servers with
  | nil =>
      cases order with
      | little => exact listed_end later (by decide) (by decide) (by decide)
      | big => exact listed_notify_big none later
  | cons srv servers ih =>
      obtain ⟨hfirst, hrest⟩ := List.forall_mem_cons.1 hservice
      cases order with
      | little =>
          rw [List.map_cons, List.cons_append, listed_notify hfirst, ih hrest]
          rfl
      | big =>
          rw [List.map_cons, List.cons_append, listed_notify_big, ih hrest]
          rfl

section

variable {T : Type} [MapOps T Server] [LawfulMap T Server]

/-- The program on the answer of a name server that is in order. -/
theorem lookupLoop_reply {s : Ns T} (hs : s.Inv) (hd : s.Distinct) (running : s.sockOpen = true)
    {e : Event} {service inst : UInt32} (hdatagram : e.datagram = lookupPkt s.order service inst)
    (hlocal : e.sq.node = s.localNode) (smooth : e.Smooth) :
    ∃ servers, Lists (fun srv => s.server srv.node srv.port = some srv) service inst servers ∧
      ∀ pkt later, lookupLoop s.order pkt (receivedBy e.sq (taken e.sends (nsStep s e).2) ++ later) =
        if s.order = .little then (servers.map rowOf, .returned) else lookupLoop s.order pkt later := by
  obtain ⟨servers, hlists, hreply⟩ := nsStep_lookup hs.toTablesOk hd running hdatagram hlocal smooth
  refine ⟨servers, hlists, fun pkt later => ?_⟩
  have hservice : ∀ srv ∈ servers, srv.service ≠ 0 := by
    intro srv hsrv
    obtain ⟨k, hentry⟩ := mem_forEach.1
      ((mem_forEach_server hs.toTablesOk hd).2 ((hlists.mem_iff srv).1 hsrv).1)
    exact (hs.nonzero hentry).1
  have hreceived : receivedBy e.sq (taken e.sends (nsStep s e).2) ++ later =
      (servers.map fun srv => some (notifyPkt s.order (some srv) true)) ++
        some (notifyPkt s.order none true) :: later := by
    rw [smooth.sends, taken_nil, hreply, receivedBy, List.filter_eq_self.2]
    · simp [notifyMsg]
    · intro m hm
      rcases List.mem_append.1 hm with hmem | hend
      · obtain ⟨srv, -, rfl⟩ := List.mem_map.1 hmem
        exact decide_eq_true rfl
      · rw [List.mem_singleton.1 hend]
        exact decide_eq_true rfl
  rw [hreceived, lookupLoop_eq, lookupLoop_eq, listed_reply _ hservice]
  split
  · rfl
  · rfl

/-- After any run of the name server, `qrtr-lookup` prints one line for each registered server that matches
    its arguments and returns, on a little-endian host; on a big-endian host the reply prints nothing and
    does not end the program. -/
theorem lookup_prints (order : HostOrder) (localNode : UInt32) (events : List Event)
    (hplain : Run.Guarded (fun s e => s.Plain (s.action e)) nsStep (nsInit order localNode : Ns T) events)
    {s : Ns T} (hs : s = Run.final nsStep (nsInit order localNode) events) (running : s.sockOpen = true)
    {e : Event} {service inst : UInt32} (hdatagram : e.datagram = lookupPkt order service inst)
    (hlocal : e.sq.node = localNode) (smooth : e.Smooth) :
    ∃ servers, Lists (fun srv => s.server srv.node srv.port = some srv) service inst servers ∧
      ∀ pkt later, lookupLoop order pkt (receivedBy e.sq (taken e.sends (nsStep s e).2) ++ later) =
        if order = .little then (servers.map rowOf, .returned) else lookupLoop order pkt later := by
  obtain ⟨hinv, hd⟩ := (Ns.Inv.init order localNode).guarded_run (.init order localNode) hplain
  obtain ⟨horder, hnode⟩ := (Ns.Inv.init order localNode : (nsInit order localNode : Ns T).Inv).frame_run
    events
  rw [← hs] at hinv hd horder hnode
  obtain rfl : s.order = order := horder
  obtain rfl : s.localNode = localNode := hnode
  exact lookupLoop_reply hinv hd running hdatagram hlocal smooth

end

/-- A name server with which a client has registered a server of service 7. -/
def oneRegistered : Ns (Map Server) :=
  Run.final nsStep (nsInit .little 1)
    [Event.ofWords { node := 1, port := 5 } [qrtrTypeNewServer, 7, 1, 1, 5]]

/-- `qrtr-lookup 7` there. -/
theorem lookup_prints_one :
    ∃ servers, Lists (fun srv => oneRegistered.server srv.node srv.port = some srv) 7 0 servers ∧
      ∀ pkt later, lookupLoop .little pkt
          (receivedBy { node := 1, port := 9 } (taken [] (nsStep oneRegistered
            (Event.ofWords { node := 1, port := 9 } [qrtrTypeNewLookup, 7, 0, 0, 0])).2) ++ later) =
        (servers.map rowOf, .returned) := by
  have hplain : Run.Guarded (fun s e => s.Plain (s.action e)) nsStep (nsInit .little 1 : Ns (Map Server))
      [Event.ofWords { node := 1, port := 5 } [qrtrTypeNewServer, 7, 1, 1, 5]] :=
    ⟨Ns.plain_of_absent (Ns.Inv.init .little 1).toTablesOk fun srv _ => rfl, trivial⟩
  have hdatagram : (Event.ofWords { node := 1, port := 9 } [qrtrTypeNewLookup, 7, 0, 0, 0]).datagram =
      lookupPkt .little 7 0 := by
    decide
  obtain ⟨servers, hlists, hprints⟩ := lookup_prints .little 1 _ hplain (s := oneRegistered) rfl
    (by decide +kernel) hdatagram rfl ⟨rfl, rfl⟩
  exact ⟨servers, hlists, fun pkt later => (hprints pkt later).trans (if_pos rfl)⟩

section

variable {T : Type} [MapOps T Server] [LawfulMap T Server]

variable {I : Type} [DecidableEq I] [Finite I]

/-- When the clients of a mesh keep quiet and what is in flight keeps arriving, from some time on
    `qrtr-lookup` on any node prints one line for each matching server of any of the nodes. -/
theorem mesh_discovery {run : Nat → Mesh I T} (hquiet : Mesh.Quiet run) {informed : I → I → Prop}
    (h : Meshed informed (run 0)) (hopen : ∀ j, ((run 0).server j).sockOpen = true) :
    ∃ N, ∀ n, N ≤ n → ∀ j service inst (e : Event),
      e.datagram = lookupPkt ((run n).server j).order service inst → e.sq.node = (run n).node j →
        e.Smooth → ((run n).server j).order = .little →
          ∃ servers, Lists (fun srv => ∃ i, (run 0).own i srv.port = some srv) service inst servers ∧
            ∀ pkt later, lookupLoop .little pkt
                (receivedBy e.sq (taken e.sends (nsStep ((run n).server j) e).2) ++ later) =
              (servers.map rowOf, .returned) := by
  obtain ⟨N, hN⟩ := Filter.eventually_atTop.1 (hquiet.eventually h hopen)
  refine ⟨N, fun n hn j service inst e hdatagram hlocal smooth hlittle => ?_⟩
  obtain ⟨hfollowing, hrunning, hown⟩ := hquiet.invariant h hopen n
  have hs := hfollowing.inv j
  obtain ⟨servers, hlists, hprinted⟩ :=
    lookupLoop_reply hs (hfollowing.distinct j) (hrunning j) hdatagram hlocal smooth
  have hregistered : ∀ srv, ((run n).server j).server srv.node srv.port = some srv ↔
      ∃ i, (run 0).own i srv.port = some srv := by
    intro srv
    constructor
    · intro hsrv
      obtain ⟨i, hi⟩ := hfollowing.known j _ _ _ hsrv
      refine ⟨i, ?_⟩
      rw [← hN n hn i j, Mesh.view, hi]
      exact hsrv
    · rintro ⟨i, hi⟩
      have hview := hN n hn i j
      rw [← hview] at hi
      have hnode : srv.node = (run n).node i := (hs.toTablesOk.server_node_port hi).1
      rw [hnode]
      exact hi
  refine ⟨servers, ⟨hlists.nodup, fun srv => ?_⟩, fun pkt later => ?_⟩
  · rw [hlists.mem_iff, hregistered]
  · have hloop := hprinted pkt later
    rw [hlittle, if_pos rfl] at hloop
    exact hloop

end

/-- The second of two name servers lists the server of the first in the end. -/
theorem mesh_discovery_two :
    ∃ N, ∀ n, N ≤ n → ∀ j service inst (e : Event),
      e.datagram = lookupPkt ((twoRun n).server j).order service inst → e.sq.node = (twoRun n).node j →
        e.Smooth → ((twoRun n).server j).order = .little →
          ∃ servers, Lists (fun srv => ∃ i, twoJoined.own i srv.port = some srv) service inst servers ∧
            ∀ pkt later, lookupLoop .little pkt
                (receivedBy e.sq (taken e.sends (nsStep ((twoRun n).server j) e).2) ++ later) =
              (servers.map rowOf, .returned) :=
  mesh_discovery quiet_twoRun meshed_twoJoined sockOpen_twoJoined

end Qrtr
