/-
Module: Qrtr.NameServer.Growth
Layer: NameServer
Purpose: How large the tables of the name server get. A table grows by 256 slots when a put finds it full, so
  it has at most 255 slots more than puts were made. A datagram makes at most two puts, into the node
  table and the table of a node; the indices of `map.c` are therefore exact in every run of fewer than
  2^30 - 256 datagrams, whatever arrives and whatever fails.
Imports: NameServer.Handlers, Foundation.Run
Main exports: Map.Bounded, Ns.Bounded, Ns.Bounded.step, nsRun_small
Open obligations: none
-/
import Qrtr.NameServer.Handlers
import Qrtr.Foundation.Run

namespace Qrtr

open MapOps

/-! ### One table -/

/-- The table is in order, and `n` puts make one of its size. -/
structure Map.Bounded {V : Type} (n : Nat) (m : Map V) : Prop where
  inv : m.Inv
  count_le : m.count ≤ n
  size_le : m.size ≤ n + 255

namespace Map.Bounded

variable {V : Type} {n : Nat} {m : Map V}

theorem create : (mapCreate : Map V).Bounded n := ⟨.create, Nat.zero_le n, Nat.zero_le _⟩

theorem mono {k : Nat} (h : m.Bounded n) (hk : n ≤ k) : m.Bounded k :=
  ⟨h.inv, Nat.le_trans h.count_le hk, Nat.le_trans h.size_le (Nat.add_le_add_right hk 255)⟩

/-- A put takes one slot, and only a full table grows. -/
theorem put (h : m.Bounded n) (allocs : AllocPlan) (key : UInt32) (value : V) :
    (mapReput allocs m key value).map.Bounded (n + 1) := by
  have hcount := h.count_le
  have hsize := h.size_le
  rw [mapReput_eq h.inv]
  split
  case isTrue hroom =>
      refine ⟨h.inv.place hroom key value, ?_, ?_⟩
      · exact Nat.le_trans (Map.count_place_le h.inv hroom key value) (Nat.succ_le_succ hcount)
      · change (mapPlace m key value).size ≤ n + 1 + 255
        rw [Map.size_mapPlace h.inv hroom]
        omega
  case isFalse hfull =>
      rcases calloc allocs with ⟨ok, rest⟩
      cases ok with
      | false => exact h.mono (Nat.le_succ n)
      | true =>
          have hfill := Map.Filling.rehashed m
          have hlive := m.liveCount_le_size
          have hroom := hfill.room (by omega)
          have hplace := Map.count_place_le hfill.inv hroom key value
          have hcopied := hfill.count_le
          have hcount_eq := h.inv.count_eq
          refine ⟨hfill.inv.place hroom key value, by dsimp only [placed]; omega, ?_⟩
          change (mapPlace m.rehashed key value).size ≤ n + 1 + 255
          rw [Map.size_mapPlace hfill.inv hroom, hfill.size_eq]
          omega

theorem remove (h : m.Bounded n) (key : UInt32) : (mapRemove m key).2.Bounded n := by
  refine ⟨h.inv.remove key, ?_, by rw [Map.size_mapRemove]; exact h.size_le⟩
  have hcount := h.count_le
  rcases mapRemove_cases m key with ⟨-, heq⟩ | ⟨e, v, -, -, heq⟩
  · rwa [heq]
  · rw [heq]
    exact Nat.le_trans (Nat.sub_le _ _) hcount

/-- However many items are taken out. -/
theorem removal {t : Map V} {gone : List V} (h : m.Bounded n) (hgone : Removal m gone t) :
    t.Bounded n := by
  induction hgone with
  | nil => exact h
  | cons _ _ ih => exact ih (h.remove _)

end Map.Bounded

/-! ### All tables -/

/-- What sending keeps, the last part of `ctrl_cmd_bye` and `ctrl_cmd_del_client` keeps of the record it
    gets. -/
theorem propagate_keeps {T : Type} [MapOps T Server] {P : Exec T → Prop} {w : Exec T}
    (hnode : P (nodeGet w w.localNode).2) (hsend : ∀ w msgs, P w → P (w.sendAll msgs)) (call : SendCall)
    (payload : Exec T → List UInt8) :
    P (match nodeGet w w.localNode with
      | (none, w) => ((0 : Int), w)
      | (some node, w) => (0, propagate call (payload w) (forEach (w.services node)) w)).2 := by
  generalize nodeGet w w.localNode = r at hnode ⊢
  obtain ⟨node?, w'⟩ := r
  cases node? with
  | none => exact hnode
  | some node =>
      dsimp only
      rw [propagate_eq]
      exact hsend _ _ hnode

/-- `n` puts make tables of the size that the name server's have. -/
structure Ns.Bounded (n : Nat) (s : Ns (Map Server)) : Prop where
  nodes : s.nodes.Bounded n
  services : ∀ node, (s.services node).Bounded n

namespace Ns.Bounded

variable {n : Nat} {w : Exec (Map Server)}

theorem mono {k : Nat} {s : Ns (Map Server)} (h : s.Bounded n) (hk : n ≤ k) : s.Bounded k :=
  ⟨h.nodes.mono hk, fun node => (h.services node).mono hk⟩

theorem sendAll (h : w.toNs.Bounded n) (msgs : List Msg) : (w.sendAll msgs).toNs.Bounded n :=
  ⟨h.nodes, h.services⟩

theorem setTable (h : w.toNs.Bounded n) {t : Map Server} (ht : t.Bounded n) (node : UInt32) :
    (w.setTable node t).toNs.Bounded n := by
  refine ⟨h.nodes, fun node' => ?_⟩
  rw [Exec.services_setTable, Function.update_apply]
  split
  · exact ht
  · exact h.services node'

/-- `node_get` puts a record at most. -/
theorem nodeGet (h : w.toNs.Bounded n) (nodeId : UInt32) : (Qrtr.nodeGet w nodeId).2.toNs.Bounded (n + 1) := by
  rw [Qrtr.nodeGet]
  cases mapGet w.nodes (hashU32 nodeId) with
  | some node => exact h.mono (Nat.le_succ n)
  | none =>
      rcases calloc w.allocs with ⟨ok, rest⟩
      cases ok with
      | false => exact ⟨(h.mono (Nat.le_succ n)).nodes, (h.mono (Nat.le_succ n)).services⟩
      | true =>
          have hput : (mapPut rest w.nodes (hashU32 nodeId) nodeId).map.Bounded (n + 1) :=
            h.nodes.put rest (hashU32 nodeId) nodeId
          have hservices := (h.mono (Nat.le_succ n)).services
          simp only
          split
          · exact ⟨hput, hservices⟩
          · refine ⟨hput, fun node => ?_⟩
            dsimp only
            rw [Function.update_apply]
            split
            · exact Map.Bounded.create
            · exact hservices node

theorem serverDel (h : w.toNs.Bounded n) (node port : UInt32) :
    (Qrtr.serverDel w node port).2.toNs.Bounded n := by
  cases hget : get (w.services node) (hashU32 port) with
  | none => rwa [serverDel_none w node port hget]
  | some srv =>
      rw [serverDel_some w node port hget]
      exact (h.setTable ((h.services node).remove (hashU32 port)) node).sendAll _

/-- `server_add` puts a record at most, and the server. -/
theorem serverAdd (h : w.toNs.Bounded n) (service inst nodeId port : UInt32) :
    (Qrtr.serverAdd w service inst nodeId port).2.toNs.Bounded (n + 2) := by
  rw [Qrtr.serverAdd]
  split
  · exact h.mono (Nat.le_add_right n 2)
  · rcases calloc w.allocs with ⟨ok, rest⟩
    cases ok with
    | false => exact ⟨(h.mono (Nat.le_add_right n 2)).nodes, (h.mono (Nat.le_add_right n 2)).services⟩
    | true =>
        have hplan : ({ w with allocs := rest } : Exec (Map Server)).toNs.Bounded n :=
          ⟨h.nodes, h.services⟩
        have hnode := hplan.nodeGet nodeId
        dsimp only
        generalize Qrtr.nodeGet ({ w with allocs := rest } : Exec (Map Server)) nodeId = r at hnode ⊢
        obtain ⟨node?, w'⟩ := r
        cases node? with
        | none => exact hnode.mono (Nat.le_succ (n + 1))
        | some node =>
            have hput := (hnode.services node).put w'.allocs (hashU32 port)
              { service := service, inst := inst, node := nodeId, port := port }
            have hset := (hnode.mono (Nat.le_succ (n + 1))).setTable hput node
            dsimp only
            split
            · exact ⟨hset.nodes, hset.services⟩
            · exact ⟨hset.nodes, hset.services⟩

/-! ### One datagram -/

theorem annouceServers (h : w.toNs.Bounded n) (sq : Sockaddr) :
    (Qrtr.annouceServers w sq).2.toNs.Bounded (n + 1) := by
  have hnode := h.nodeGet w.localNode
  rw [Qrtr.annouceServers]
  generalize Qrtr.nodeGet w w.localNode = r at hnode ⊢
  obtain ⟨node?, w'⟩ := r
  cases node? with
  | none => exact hnode
  | some node =>
      obtain ⟨told, rc, heq, -⟩ := annouceLoop_cases sq (forEach (w'.services node)) w'
      dsimp only
      rw [heq]
      exact hnode.sendAll _

theorem ctrlCmdHello (h : w.toNs.Bounded n) (sq : Sockaddr) (buf : List UInt8) :
    (Qrtr.ctrlCmdHello w sq buf).2.toNs.Bounded (n + 1) := by
  have hecho : (w.sendto .helloEcho sq buf).2.toNs.Bounded n := ⟨h.nodes, h.services⟩
  rw [Qrtr.ctrlCmdHello]
  split
  · exact hecho.annouceServers sq
  · exact hecho.mono (Nat.le_succ n)

theorem ctrlCmdBye (h : w.toNs.Bounded n) (sq : Sockaddr) : (Qrtr.ctrlCmdBye w sq).2.toNs.Bounded (n + 2) := by
  have hnode := h.nodeGet sq.node
  rw [Qrtr.ctrlCmdBye]
  generalize Qrtr.nodeGet w sq.node = r at hnode ⊢
  obtain ⟨node?, w'⟩ := r
  dsimp only at hnode
  cases node? with
  | none => exact hnode.mono (Nat.le_succ (n + 1))
  | some node =>
      obtain ⟨gone, t, hgone, heq⟩ := byeLoop_cases node (bound (w'.services node) + 1)
        (iterFirst (w'.services node)) w'
      have hloop := (hnode.setTable ((hnode.services node).removal hgone) node).sendAll
        (gone.flatMap w'.delMsgs)
      dsimp only
      rw [heq]
      exact propagate_keeps (P := fun w => w.toNs.Bounded (n + 2)) (hloop.nodeGet _)
        (fun _ msgs hw => hw.sendAll msgs) (.bye sq.node) fun w => byePkt w.order sq.node

theorem ctrlCmdDelClient (h : w.toNs.Bounded n) (sq : Sockaddr) (nodeId port : UInt32) :
    (Qrtr.ctrlCmdDelClient w sq nodeId port).2.toNs.Bounded (n + 2) := by
  rw [Qrtr.ctrlCmdDelClient]
  split
  · exact h.mono (Nat.le_add_right n 2)
  split
  · exact h.mono (Nat.le_add_right n 2)
  have hwithout : ∀ lookups, ({ w with lookups := lookups } : Exec (Map Server)).toNs.Bounded n :=
    fun _ => ⟨h.nodes, h.services⟩
  have hnode := (hwithout (w.lookups.filter fun lookup =>
    !(lookup.sq.node == nodeId && lookup.sq.port == port))).nodeGet nodeId
  dsimp only
  generalize Qrtr.nodeGet ({ w with lookups := w.lookups.filter fun lookup =>
    !(lookup.sq.node == nodeId && lookup.sq.port == port) } : Exec (Map Server)) nodeId = r at hnode ⊢
  obtain ⟨node?, w'⟩ := r
  dsimp only at hnode
  -- the server of the port is taken out if the record of the node is at hand
  have htell : ∀ w' : Exec (Map Server), w'.toNs.Bounded (n + 1) → Ns.Bounded (n + 2) _ := fun w' hw' =>
    propagate_keeps (P := fun w => w.toNs.Bounded (n + 2)) (hw'.nodeGet _) (fun _ msgs hw => hw.sendAll msgs)
      (.delClient nodeId port) fun w => delClientPkt w.order w.stack nodeId port
  cases node? with
  | none => exact htell w' hnode
  | some node => exact htell _ (hnode.serverDel node port)

theorem ctrlCmdNewServer (h : w.toNs.Bounded n) (sq : Sockaddr) (service inst nodeId port : UInt32) :
    (Qrtr.ctrlCmdNewServer w sq service inst nodeId port).2.toNs.Bounded (n + 2) := by
  rw [Qrtr.ctrlCmdNewServer]
  dsimp only
  generalize (if sq.node = w.localNode then sq.port else port) = port'
  generalize (if sq.node = w.localNode then sq.node else nodeId) = nodeId'
  split
  · exact h.mono (Nat.le_add_right n 2)
  · have hadd := h.serverAdd service inst nodeId' port'
    generalize Qrtr.serverAdd w service inst nodeId' port' = r at hadd ⊢
    obtain ⟨srv?, w'⟩ := r
    cases srv? with
    | none => exact hadd
    | some srv =>
        dsimp only
        rw [notifyObservers_eq]
        split
        · exact Ns.Bounded.sendAll (w := (serviceAnnounceNew w' bcastSq srv).2) ⟨hadd.nodes, hadd.services⟩ _
        · exact hadd.sendAll _

theorem ctrlCmdDelServer (h : w.toNs.Bounded n) (sq : Sockaddr) (service inst nodeId port : UInt32) :
    (Qrtr.ctrlCmdDelServer w sq service inst nodeId port).2.toNs.Bounded (n + 1) := by
  rw [Qrtr.ctrlCmdDelServer]
  generalize (if sq.node = w.localNode then sq.port else port) = port'
  generalize (if sq.node = w.localNode then sq.node else nodeId) = nodeId'
  split
  · exact h.mono (Nat.le_succ n)
  split
  · exact h.mono (Nat.le_succ n)
  have hnode := h.nodeGet nodeId'
  generalize Qrtr.nodeGet w nodeId' = r at hnode ⊢
  obtain ⟨node?, w'⟩ := r
  cases node? with
  | none => exact hnode
  | some node => exact hnode.serverDel node port'

theorem ctrlCmdNewLookup (h : w.toNs.Bounded n) (sq : Sockaddr) (service inst : UInt32) :
    (Qrtr.ctrlCmdNewLookup w sq service inst).2.toNs.Bounded n := by
  rw [Qrtr.ctrlCmdNewLookup]
  split
  · exact h
  · rcases calloc w.allocs with ⟨ok, rest⟩
    cases ok with
    | false => exact ⟨h.nodes, h.services⟩
    | true =>
        simp only [notifyReply_eq]
        exact ⟨h.nodes, h.services⟩

/-- Whatever is received. -/
theorem ctrlPortFn (h : w.toNs.Bounded n) (sq : Sockaddr) (datagram : List UInt8) (stale : Mem) :
    (Qrtr.ctrlPortFn w sq datagram stale).2.toNs.Bounded (n + 2) := by
  have hsame := h.mono (Nat.le_add_right n 2)
  rw [Qrtr.ctrlPortFn]
  dsimp only
  split
  · exact ⟨hsame.nodes, hsame.services⟩
  split
  · exact hsame
  split
  · exact (h.ctrlCmdHello sq _).mono (Nat.le_succ (n + 1))
  split
  · exact h.ctrlCmdBye sq
  split
  · exact h.ctrlCmdDelClient sq _ _
  split
  · exact h.ctrlCmdNewServer sq _ _ _ _
  split
  · exact (h.ctrlCmdDelServer sq _ _ _ _).mono (Nat.le_succ (n + 1))
  split
  · exact (h.ctrlCmdNewLookup sq _ _).mono (Nat.le_add_right n 2)
  split
  · exact ⟨hsame.nodes, hsame.services⟩
  · exact hsame

/-! ### Runs -/

theorem init (order : HostOrder) (localNode : UInt32) :
    (nsInit order localNode : Ns (Map Server)).Bounded 0 :=
  ⟨Map.Bounded.create, fun _ => Map.Bounded.create⟩

/-- A datagram makes at most two puts. -/
theorem step {s : Ns (Map Server)} (h : s.Bounded n) (e : Event) : (nsStep s e).1.Bounded (n + 2) := by
  rw [nsStep]
  split
  · exact Ns.Bounded.ctrlPortFn (w := s.exec e) h e.sq e.datagram e.stale
  · exact h.mono (Nat.le_add_right n 2)

theorem run {s : Ns (Map Server)} (h : s.Bounded n) (events : List Event) :
    (Run.final nsStep s events).Bounded (n + 2 * events.length) := by
  induction events generalizing n s with
  | nil => exact h
  | cons e events ih =>
      have hrest := ih (h.step e)
      rw [List.length_cons]
      exact hrest.mono (by omega)

end Ns.Bounded

/-- In a run of fewer than 2^30 - 256 datagrams no table comes to 2^31 slots, nor could it with the next
    one: the indices of `map.c` are exact. -/
theorem nsRun_small (order : HostOrder) (localNode : UInt32) {events : List Event}
    (hlen : events.length < 2 ^ 30 - 256) :
    (Run.final nsStep (nsInit order localNode : Ns (Map Server)) events).nodes.size + 256 < 2 ^ 31 ∧
      ∀ node,
        ((Run.final nsStep (nsInit order localNode : Ns (Map Server)) events).services node).size + 256
          < 2 ^ 31 := by
  have hrun := (Ns.Bounded.init order localNode).run events
  refine ⟨?_, fun node => ?_⟩
  · have := hrun.nodes.size_le
    omega
  · have := (hrun.services node).size_le
    omega

end Qrtr
