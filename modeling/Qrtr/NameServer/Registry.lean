/-
Module: Qrtr.NameServer.Registry
Layer: NameServer
Purpose: The invariant of the name server's registry and what follows from it. `Ns.Inv` holds in every
  state reached from the start, whatever datagrams arrive and whichever allocations and sends fail: the
  servers of a table carry its node and sit under the hash of their port, and every lookup is owned by
  a local address. Consequently only local servers are announced to other name servers, and a
  notification without a server is the end of a lookup reply.
Imports: Qrtr.NameServer.Steps, Qrtr.Foundation.Run
Main exports: Action.Checked, Ns.action_checked, Ns.TablesOk, Ns.Inv, Ns.server, Ns.Inv.step,
  Ns.Inv.run, Ns.Reachable, RegistryInvariant, SendsInvariant, registry_invariant
Open obligations: none
-/
import Qrtr.NameServer.Steps
import Qrtr.Foundation.Run

namespace Qrtr

open MapOps LawfulMap

variable {T : Type}

/-! ### The checks a datagram has passed -/

/-- What the checks of the handlers ensure about an action and the sender that asked for it. -/
def Action.Checked (localNode : UInt32) (sq : Sockaddr) : Action → Prop
  | .ignored | .hello => True
  | .bye n => n = sq.node
  | .closePort n p => n = sq.node ∧ (sq.node = localNode → p = sq.port)
  | .register srv =>
      srv.node = sq.node ∧ (sq.node = localNode → srv.port = sq.port) ∧ srv.service ≠ 0 ∧
        srv.port ≠ 0
  | .unregister n p => n = sq.node ∧ (sq.node = localNode → p = sq.port)
  | .watch l => sq.node = localNode ∧ l.sq = sq
  | .unwatch sq' _ _ => sq' = sq

theorem Event.newServerAction_checked (localNode : UInt32) (e : Event) :
    (e.newServerAction localNode).Checked localNode e.sq := by
  have hport : e.sq.node = localNode →
      (if e.sq.node = localNode then e.sq.port else e.word 16) = e.sq.port := fun h => if_pos h
  simp only [Event.newServerAction]
  generalize (if e.sq.node = localNode then e.sq.port else e.word 16) = port at hport
  split
  · rename_i hvalid
    exact ⟨rfl, hport, hvalid.2⟩
  · trivial

theorem Event.delServerAction_checked (localNode : UInt32) (e : Event) :
    (e.delServerAction localNode).Checked localNode e.sq := by
  rw [Event.delServerAction]
  split
  · exact ⟨rfl, fun _ => rfl⟩
  · rename_i hremote
    split
    · exact ⟨rfl, fun hlocal => absurd hlocal hremote⟩
    · trivial

theorem Event.action_checked (localNode : UInt32) (e : Event) :
    (e.action localNode).Checked localNode e.sq := by
  rw [Event.action]
  split
  · trivial
  split
  · trivial
  split
  · rfl
  split
  · rw [Event.delClientAction]
    split
    · rename_i hvalid
      exact ⟨hvalid.1.symm, fun hlocal => (hvalid.2 hlocal).symm⟩
    · trivial
  split
  · exact e.newServerAction_checked localNode
  split
  · exact e.delServerAction_checked localNode
  split
  · rw [Event.newLookupAction]
    split
    · rename_i hlocal
      exact ⟨hlocal, rfl⟩
    · trivial
  split
  · rfl
  · trivial

theorem Ns.action_checked (s : Ns T) (e : Event) : (s.action e).Checked s.localNode e.sq := by
  rw [Ns.action]
  split
  · exact e.action_checked s.localNode
  · trivial

/-! ### The invariant -/

variable [MapOps T Server] [LawfulMap T Server]

/-- The tables are in order: each is a proper table, and a server carries the node of its table and sits
    under the hash of its port. -/
structure Ns.TablesOk (s : Ns T) : Prop where
  nodesOk : NodesOk s.nodes s.services
  ok : ∀ n, Ok (s.services n)
  keyed : ∀ {n k srv}, Entry (s.services n) k srv → srv.node = n ∧ k = hashU32 srv.port

/-- The invariant of the registry. -/
structure Ns.Inv (s : Ns T) : Prop extends s.TablesOk where
  nonzero : ∀ {n k srv}, Entry (s.services n) k srv → srv.service ≠ 0 ∧ srv.port ≠ 0
  lookups_local : ∀ l ∈ s.lookups, l.sq.node = s.localNode

/-- The server that `map_get` answers with for a port of a node, through the record of the node. -/
def Ns.server (s : Ns T) (n p : UInt32) : Option Server :=
  match mapGet s.nodes (hashU32 n) with
  | none => none
  | some node => get (s.services node) (hashU32 p)

/-- The record of a node only leads to its table. -/
theorem server_eq_get {s : Ns T} (h : NodesOk s.nodes s.services) (n p : UInt32) :
    s.server n p = get (s.services n) (hashU32 p) := by
  rw [Ns.server]
  cases hget : mapGet s.nodes (hashU32 n) with
  | none =>
      have habs := (mapGet_eq_none_iff h.inv).1 hget n
      rw [h.absent n habs]
      exact (get_create _).symm
  | some node => rw [(h.get hget).1]

/-- What a lookup answers with carries the node and the port it was asked for. -/
theorem Ns.TablesOk.server_node_port {s : Ns T} (h : s.TablesOk) {n p : UInt32} {srv : Server}
    (hsrv : s.server n p = some srv) : srv.node = n ∧ srv.port = p := by
  rw [server_eq_get h.nodesOk] at hsrv
  obtain ⟨hnode, hkey⟩ := h.keyed ⟨_, (live_of_get (h.ok n) hsrv).choose_spec⟩
  exact ⟨hnode, (hashU32_injective hkey).symm⟩

theorem Ns.Inv.init (order : HostOrder) (localNode : UInt32) : (nsInit order localNode : Ns T).Inv where
  nodesOk := .init
  ok _ := ok_create
  keyed h := absurd h (not_entry_create _ _)
  nonzero h := absurd h (not_entry_create _ _)
  lookups_local _ hl := by cases hl

section

variable {s : Ns T} {e : Event} {a : Action} {services : UInt32 → T} {lookups : List Lookup}
  {msgs : List Msg} {rc : Int}

omit [LawfulMap T Server] in
theorem PortGone.removal {n p : UInt32} {gone : List Server} {t : T}
    (h : PortGone s e n p gone t) : Removal (s.services n) gone t := by
  cases h with
  | kept why => exact .nil _
  | gone found => exact .one found

/-- The tables after a step are proper tables. -/
theorem Happens.ok (h : Happens s e a services lookups msgs rc) (hok : ∀ n, Ok (s.services n))
    (n : UInt32) : Ok (services n) := by
  cases h with
  | nothing why => exact hok n
  | hello first all hrc => exact hok n
  | bye removal complete tell all =>
      exact (Function.forall_update_iff _ fun _ => Ok).2 ⟨removal.ok (hok _), fun m _ => hok m⟩ n
  | closePort removal tell all =>
      exact (Function.forall_update_iff _ fun _ => Ok).2
        ⟨removal.removal.ok (hok _), fun m _ => hok m⟩ n
  | register hplan hput hrc =>
      exact (Function.forall_update_iff _ fun _ => Ok).2
        ⟨ok_reput _ _ _ (hok _), fun m _ => hok m⟩ n
  | unregister found =>
      exact (Function.forall_update_iff _ fun _ => Ok).2 ⟨ok_remove _ (hok _), fun m _ => hok m⟩ n
  | watch hreply => exact hok n
  | unwatch => exact hok n

/-- A server in a table after a step was there before, or is the one just registered. -/
theorem Happens.entry (h : Happens s e a services lookups msgs rc) (hok : ∀ n, Ok (s.services n))
    {n k : UInt32} {srv : Server} (hentry : Entry (services n) k srv) :
    Entry (s.services n) k srv ∨ a = .register srv ∧ n = srv.node ∧ k = hashU32 srv.port := by
  have hremoval : ∀ {node : UInt32} {gone : List Server} {t : T},
      Removal (s.services node) gone t → Entry (Function.update s.services node t n) k srv →
        Entry (s.services n) k srv := by
    intro node gone t hr
    refine (Function.forall_update_iff _ fun n t => Entry t k srv → Entry (s.services n) k srv).2
      ⟨?_, fun _ _ => id⟩ n
    rintro ⟨i, hi⟩
    exact ⟨i, hr.live_of (hok node) hi⟩
  cases h with
  | nothing why => exact Or.inl hentry
  | hello first all hrc => exact Or.inl hentry
  | bye removal complete tell all => exact Or.inl (hremoval removal hentry)
  | closePort removal tell all => exact Or.inl (hremoval removal.removal hentry)
  | @register srv' plan _ hplan hput hrc =>
      by_cases hn : n = srv'.node
      · subst hn
        rw [Function.update_self] at hentry
        obtain ⟨i, hi⟩ := hentry
        rcases live_reput (hok _) hput hi with hnew | hold
        · cases hnew
          exact Or.inr ⟨rfl, rfl, rfl⟩
        · exact Or.inl hold
      · rw [Function.update_of_ne hn] at hentry
        exact Or.inl hentry
  | unregister found => exact Or.inl (hremoval (.one found) hentry)
  | watch hreply => exact Or.inl hentry
  | unwatch => exact Or.inl hentry

/-- A lookup after a step was there before, or is the one just registered. -/
theorem Happens.lookup (h : Happens s e a services lookups msgs rc) {l : Lookup}
    (hl : l ∈ lookups) : l ∈ s.lookups ∨ a = .watch l := by
  cases h with
  | nothing why => exact Or.inl hl
  | hello first all hrc => exact Or.inl hl
  | bye removal complete tell all => exact Or.inl hl
  | closePort removal tell all => exact Or.inl (List.mem_filter.1 hl).1
  | register hplan hput hrc => exact Or.inl hl
  | unregister found => exact Or.inl hl
  | watch hreply =>
      rcases List.mem_append.1 hl with hold | hnew
      · exact Or.inl hold
      · rw [List.mem_singleton.1 hnew]
        exact Or.inr rfl
  | unwatch => exact Or.inl (List.mem_filter.1 hl).1

/-- A lookup reply ends with the notification without a server. -/
theorem Happens.watch_last {l : Lookup} (h : Happens s e (.watch l) services lookups msgs rc) :
    msgs = [] ∨ msgs.getLast? = some (notifyMsg s.order l.sq none true) := by
  cases h with
  | nothing why => exact Or.inl rfl
  | watch hreply => exact Or.inr (by simp)

end

theorem Ns.TablesOk.step {s : Ns T} (h : s.TablesOk) (e : Event) : (nsStep s e).1.TablesOk := by
  obtain ⟨⟨rc, hhappens⟩, hnodes⟩ := nsStep_happens h.nodesOk h.ok e
  refine ⟨hnodes, hhappens.ok h.ok, fun hentry => ?_⟩
  rcases hhappens.entry h.ok hentry with hold | ⟨-, rfl, rfl⟩
  · exact h.keyed hold
  · exact ⟨rfl, rfl⟩

/-- One step keeps the invariant, whatever arrives and whatever fails. -/
theorem Ns.Inv.step {s : Ns T} (h : s.Inv) (e : Event) : (nsStep s e).1.Inv := by
  obtain ⟨⟨rc, hhappens⟩, -⟩ := nsStep_happens h.nodesOk h.ok e
  have hchecked := s.action_checked e
  refine ⟨h.toTablesOk.step e, fun hentry => ?_, fun l hl => ?_⟩
  · rcases hhappens.entry h.ok hentry with hold | ⟨ha, -, -⟩
    · exact h.nonzero hold
    · rw [ha] at hchecked
      exact hchecked.2.2
  · rw [(nsStep_frame h.nodesOk h.ok e).2.1]
    rcases hhappens.lookup hl with hold | ha
    · exact h.lookups_local l hold
    · rw [ha] at hchecked
      rw [hchecked.2]
      exact hchecked.1

/-- The invariant holds in every state of every run. -/
theorem Ns.Inv.run {s : Ns T} (h : s.Inv) (events : List Event) :
    (Run.final nsStep s events).Inv := by
  induction events generalizing s with
  | nil => exact h
  | cons e events ih => exact ih (h.step e)

/-- The byte order and the local node are the same in every state of a run. -/
theorem Ns.Inv.frame_run {s : Ns T} (h : s.Inv) (events : List Event) :
    (Run.final nsStep s events).order = s.order ∧
      (Run.final nsStep s events).localNode = s.localNode := by
  induction events generalizing s with
  | nil => exact ⟨rfl, rfl⟩
  | cons e events ih =>
      obtain ⟨horder, hnode, -⟩ := nsStep_frame h.nodesOk h.ok e
      obtain ⟨horder', hnode'⟩ := ih (h.step e)
      exact ⟨horder'.trans horder, hnode'.trans hnode⟩

/-- A state that the name server comes to from its start. -/
def Ns.Reachable (s : Ns T) : Prop :=
  ∃ order localNode events, s = Run.final nsStep (nsInit order localNode) events

theorem Ns.Reachable.inv {s : Ns T} (h : s.Reachable) : s.Inv := by
  obtain ⟨order, localNode, events, rfl⟩ := h
  exact (Ns.Inv.init order localNode).run events

/-- A datagram of the given words, received where nothing fails and no byte is left over. -/
def Event.ofWords (sq : Sockaddr) (words : List UInt32) : Event where
  sq := sq
  datagram := words.flatMap le32
  stale := fun _ => 0
  stack := fun _ => 0
  allocs := []
  sends := []

/-! ### The registry as the hash map holds it -/

/-- What every reachable state satisfies: where servers, node records and lookups may be, and that a
    lookup by id or port never returns the record of another id or port. -/
structure RegistryInvariant (s : Ns (Map Server)) : Prop where
  server : ∀ {n i k srv}, (s.services n).slot i = .item k srv →
    srv.node = n ∧ srv.service ≠ 0 ∧ srv.port ≠ 0 ∧ k = hashU32 srv.port
  node : ∀ {i k id}, s.nodes.slot i = .item k id → k = hashU32 id
  node_get : ∀ {n id}, mapGet s.nodes (hashU32 n) = some id → id = n
  server_get : ∀ {n p srv}, mapGet (s.services n) (hashU32 p) = some srv →
    srv.node = n ∧ srv.port = p
  lookup : ∀ l ∈ s.lookups, l.sq.node = s.localNode

/-- What a step may send: announcements of local servers alone, and a notification of zeros alone at the
    end of a lookup reply. -/
structure SendsInvariant (s : Ns (Map Server)) (e : Event) : Prop where
  announced : ∀ m ∈ (nsStep s e).2, ∀ srv,
    m.call = .announceNew srv ∨ m.call = .announceDel srv → srv.node = s.localNode
  zeros : ∀ m ∈ (nsStep s e).2, ∀ srv?, m.call = .lookupNotify srv? true →
    m.payload.drop 4 = List.replicate 16 0 →
    srv? = none ∧ ∃ l, s.action e = .watch l ∧ (nsStep s e).2.getLast? = some m

theorem Ns.Inv.registryInvariant {s : Ns (Map Server)} (h : s.Inv) : RegistryInvariant s where
  server {n i k srv} hslot := by
    have hentry : Entry (s.services n) k srv := Map.entry_iff.2 ⟨i, hslot⟩
    obtain ⟨hnode, hkey⟩ := h.keyed hentry
    obtain ⟨hservice, hport⟩ := h.nonzero hentry
    exact ⟨hnode, hservice, hport, hkey⟩
  node {i k id} hslot := h.nodesOk.key ⟨i, hslot⟩
  node_get hget := (h.nodesOk.get hget).1
  server_get {n p srv} hget := by
    obtain ⟨hnode, hkey⟩ := h.keyed (Map.entry_iff.2 (holds_of_mapGet hget))
    exact ⟨hnode, (hashU32_injective hkey).symm⟩
  lookup := h.lookups_local

/-- A notification about a server is not all zeros, since its service is not. -/
theorem notifyPkt_zeros {order : HostOrder} {srv : Server} {new : Bool} (h : srv.service ≠ 0) :
    (notifyPkt order (some srv) new).drop 4 ≠ List.replicate 16 0 := by
  intro hzeros
  have hbytes : serverBytes srv = List.replicate 16 0 := by
    rw [notifyPkt_some, List.drop_left' (length_wordBytes _ _)] at hzeros
    exact hzeros
  apply h
  rw [← serverOfBytes_serverBytes srv, hbytes]
  rfl

theorem Ns.Inv.sendsInvariant {s : Ns (Map Server)} (h : s.Inv) (e : Event) :
    SendsInvariant s e := by
  obtain ⟨⟨rc, hhappens⟩, -⟩ := nsStep_happens h.nodesOk h.ok e
  have hchecked := s.action_checked e
  refine ⟨fun m hm srv hcall => ?_, fun m hm srv? hcall hzeros => ?_⟩
  · cases hhappens.sends h.ok hm with
    | announced ha hsrv =>
        obtain ⟨k, hentry⟩ := mem_forEach.1 hsrv
        simp only [announceNewMsg, SendCall.announceNew.injEq, reduceCtorEq, or_false] at hcall
        subst hcall
        exact (h.keyed hentry).1
    | added ha hlocal =>
        simp only [announceNewMsg, SendCall.announceNew.injEq, reduceCtorEq, or_false] at hcall
        subst hcall
        exact hlocal
    | removed hsrv hlocal =>
        simp only [announceDelMsg, SendCall.announceDel.injEq, reduceCtorEq, false_or] at hcall
        subst hcall
        exact hlocal
    | _ => simp [notifyMsg, byeMsg, delClientMsg] at hcall
  · cases hhappens.sends h.ok hm with
    | @notifyNew srv l ha hl hobs =>
        rw [ha] at hchecked
        exact absurd hzeros (notifyPkt_zeros hchecked.2.2.1)
    | @reply srv n l ha hsrv hobs =>
        obtain ⟨k, hentry⟩ := mem_forEach.1 hsrv
        exact absurd hzeros (notifyPkt_zeros (h.nonzero hentry).1)
    | @replyEnd l ha =>
        simp only [notifyMsg, SendCall.lookupNotify.injEq, and_true] at hcall
        rw [ha] at hhappens
        refine ⟨hcall.symm, l, ha, ?_⟩
        rcases hhappens.watch_last with hnil | hlast
        · rw [hnil] at hm
          cases hm
        · exact hlast
    | _ => simp [announceNewMsg, announceDelMsg, notifyMsg, byeMsg, delClientMsg] at hcall

/-- The registry of the name server is well formed in every state of every run, whatever fails; `hash_u32`
    keeps keys apart; and what is sent respects it. -/
theorem registry_invariant (order : HostOrder) (localNode : UInt32) (events : List Event) :
    RegistryInvariant (Run.final nsStep (nsInit order localNode) events) ∧
      Function.Injective hashU32 ∧
      ∀ e, SendsInvariant (Run.final nsStep (nsInit order localNode) events) e := by
  have h := (Ns.Inv.init (T := Map Server) order localNode).run events
  exact ⟨h.registryInvariant, hashU32_injective, fun e => h.sendsInvariant e⟩

end Qrtr
