/-
Module: Qrtr.NameServer.Effects
Layer: NameServer
Purpose: What the name server is for, and that it does it. The registry is a map from node and port to
  the server there, and a list of lookups; `Action.servers` and `Action.lookups` say what each action
  does to them. As long as no port is registered twice, a step whose allocations succeed refines this
  model exactly, except for a re-registration that meets a tombstone; `Plain` rules that one out.
Imports: Qrtr.NameServer.Registry
Main exports: Registry, Action.servers, Action.lookups, Ns.Distinct, Ns.Plain, Happens.servers_eq,
  nsStep_refines, Ns.Inv.guarded_run, Ns.Inv.adding_run, sampleNs, mem_forEach_server, Happens.bye_exact, Happens.closePort_exact,
  Event.action_newServer_local, Event.action_newServer_remote, afterFirst, afterRegister
Open obligations: none
-/
import Qrtr.NameServer.Registry

namespace Qrtr

open MapOps LawfulMap

/-! ### The abstract registry -/

/-- Servers by node and port. -/
abbrev Registry := UInt32 → UInt32 → Option Server

/-- What an action does to the servers. -/
def Action.servers : Action → Registry → UInt32 → UInt32 → Option Server
  | .bye n, f, m, q => if m = n then none else f m q
  | .closePort n p, f, m, q => if m = n ∧ q = p then none else f m q
  | .unregister n p, f, m, q => if m = n ∧ q = p then none else f m q
  | .register srv, f, m, q => if m = srv.node ∧ q = srv.port then some srv else f m q
  | _, f, m, q => f m q

/-- What an action does to the lookups. -/
def Action.lookups : Action → List Lookup → List Lookup
  | .closePort n p, ls => ls.filter fun lookup => !(lookup.sq.node == n && lookup.sq.port == p)
  | .watch l, ls => ls ++ [l]
  | .unwatch sq service inst, ls =>
      ls.filter fun lookup =>
        !(lookup.sq.node == sq.node && lookup.sq.port == sq.port && lookup.service == service &&
          (lookup.inst == 0 || lookup.inst == inst))
  | _, ls => ls

variable {T : Type} [MapOps T Server] [LawfulMap T Server]

/-- No port of a node is registered twice. -/
def Ns.Distinct (s : Ns T) : Prop := ∀ n, Single (s.services n)

/-- A registration finds the server that it replaces, if there is one. -/
def Ns.Plain (s : Ns T) (a : Action) : Prop :=
  ∀ srv, a = .register srv → PutOk (s.services srv.node) (hashU32 srv.port)

/-- The first registration of a port is always plain. -/
theorem Ns.plain_of_absent {s : Ns T} (hs : s.TablesOk) {a : Action}
    (h : ∀ srv, a = .register srv → s.server srv.node srv.port = none) : s.Plain a := by
  intro srv ha
  have habs := h srv ha
  rw [server_eq_get hs.nodesOk, get_eq_none_iff (hs.ok _)] at habs
  exact putOk_of_absent fun i v hi => habs v ⟨i, hi⟩

theorem Ns.Distinct.init (order : HostOrder) (localNode : UInt32) :
    (nsInit order localNode : Ns T).Distinct := fun _ => .create

/-- Where no port is registered twice, an entry is what a lookup answers with. -/
theorem entry_iff_server {s : Ns T} (hs : s.TablesOk) (hd : s.Distinct) {n k : UInt32}
    {srv : Server} :
    Entry (s.services n) k srv ↔ k = hashU32 srv.port ∧ s.server n srv.port = some srv := by
  rw [server_eq_get hs.nodesOk, get_eq_some_iff (hs.ok n) (hd n)]
  constructor
  · intro hentry
    obtain ⟨-, hkey⟩ := hs.keyed hentry
    exact ⟨hkey, hkey ▸ hentry⟩
  · rintro ⟨rfl, hentry⟩
    exact hentry

/-- A full iteration over the table of a node visits the servers of the node. -/
theorem mem_forEach_server {s : Ns T} (hs : s.TablesOk) (hd : s.Distinct) {n : UInt32}
    {srv : Server} : srv ∈ forEach (s.services n) ↔ s.server n srv.port = some srv := by
  rw [mem_forEach]
  constructor
  · rintro ⟨k, hentry⟩
    exact ((entry_iff_server hs hd).1 hentry).2
  · intro hsrv
    exact ⟨_, (entry_iff_server hs hd).2 ⟨rfl, hsrv⟩⟩

/-! ### One step -/

section

variable {s : Ns T} {e : Event} {a : Action} {services : UInt32 → T} {lookups : List Lookup}
  {msgs : List Msg} {rc : Int}

/-- Taking out a server that is not there changes nothing. -/
theorem server_without_absent (hs : s.TablesOk) {n p : UInt32}
    (hnone : get (s.services n) (hashU32 p) = none) (m q : UInt32) :
    (if m = n ∧ q = p then none else s.server m q) = s.server m q := by
  split
  · rename_i heq
    rw [heq.1, heq.2, server_eq_get hs.nodesOk, hnone]
  · rfl

/-- With memory at hand, nothing happens only where the action changes nothing. -/
theorem Ns.Idle.servers_eq (why : s.Idle e a) (hs : s.TablesOk) (ha : e.allocs = []) (m q : UInt32) :
    a.servers s.server m q = s.server m q := by
  rcases why with rfl | hne | ⟨n, p, rfl, hnone⟩
  · rfl
  · exact absurd ha hne
  · exact server_without_absent hs hnone m q

omit [LawfulMap T Server] in
/-- With memory at hand, the removal for a closed port takes out the server of that port. -/
theorem PortGone.gone_eq {n p : UInt32} {gone : List Server} {t : T} (h : PortGone s e n p gone t)
    (ha : e.allocs = []) : gone = (get (s.services n) (hashU32 p)).toList := by
  cases h with
  | kept why =>
      rw [why.resolve_left (not_not.2 ha)]
      rfl
  | gone found =>
      rw [found]
      rfl

/-- A step changes the lookups as its action says, unless memory runs out. -/
theorem Happens.lookups_eq (h : Happens s e a services lookups msgs rc) (ha : e.allocs = []) :
    lookups = a.lookups s.lookups := by
  cases h with
  | nothing why =>
      rcases why with rfl | hne | ⟨n, p, rfl, -⟩
      · rfl
      · exact absurd ha hne
      · rfl
  | _ => rfl

/-- A step keeps ports registered once if a registration is plain. -/
theorem Happens.distinct (h : Happens s e a services lookups msgs rc) (hs : s.TablesOk)
    (hd : s.Distinct) (hplain : s.Plain a) (n : UInt32) : Single (services n) := by
  cases h with
  | nothing why => exact hd n
  | hello first all hrc => exact hd n
  | bye removal complete tell all =>
      exact (Function.forall_update_iff _ fun _ => Single).2
        ⟨removal.single (hs.ok _) (hd _), fun m _ => hd m⟩ n
  | closePort removal tell all =>
      exact (Function.forall_update_iff _ fun _ => Single).2
        ⟨removal.removal.single (hs.ok _) (hd _), fun m _ => hd m⟩ n
  | @register srv plan _ hplan hput hrc =>
      exact (Function.forall_update_iff _ fun _ => Single).2
        ⟨single_reput (hs.ok _) hput (hplain srv rfl) (hd _), fun m _ => hd m⟩ n
  | unregister found =>
      exact (Function.forall_update_iff _ fun _ => Single).2
        ⟨(hd _).remove (hs.ok _) found, fun m _ => hd m⟩ n
  | watch hreply => exact hd n
  | unwatch => exact hd n

/-- Removing one key from a table, as lookups see it. -/
theorem get_update_remove (hs : s.TablesOk) (hd : s.Distinct) {n p : UInt32} {srv : Server}
    (found : get (s.services n) (hashU32 p) = some srv) (m q : UInt32) :
    get (Function.update s.services n (remove (s.services n) (hashU32 p)) m) (hashU32 q) =
      if m = n ∧ q = p then none else s.server m q := by
  rw [server_eq_get hs.nodesOk]
  by_cases hm : m = n
  · subst hm
    rw [Function.update_self]
    by_cases hq : q = p
    · subst hq
      rw [if_pos ⟨rfl, rfl⟩, get_eq_none_iff (ok_remove _ (hs.ok m))]
      intro v hv
      exact ((entry_remove_iff (hs.ok m) (hd m) found _ _).1 hv).1 rfl
    · rw [if_neg fun h => hq h.2, get_remove_ne (hs.ok m) fun heq => hq (hashU32_injective heq)]
  · rw [Function.update_of_ne hm, if_neg fun h => hm h.1]

/-- A plain put into a table, as lookups see it. -/
theorem get_update_reput (hs : s.TablesOk) (hd : s.Distinct) {plan : AllocPlan} {srv : Server}
    (hplain : PutOk (s.services srv.node) (hashU32 srv.port))
    (hput : (reput plan (s.services srv.node) (hashU32 srv.port) srv).rc = 0) (m q : UInt32) :
    get (Function.update s.services srv.node
        (reput plan (s.services srv.node) (hashU32 srv.port) srv).table m) (hashU32 q) =
      if m = srv.node ∧ q = srv.port then some srv else s.server m q := by
  rw [server_eq_get hs.nodesOk]
  by_cases hm : m = srv.node
  · subst hm
    rw [Function.update_self]
    by_cases hq : q = srv.port
    · subst hq
      rw [if_pos ⟨rfl, rfl⟩, get_reput (hs.ok _) hput]
    · have hkey : hashU32 q ≠ hashU32 srv.port := fun heq => hq (hashU32_injective heq)
      have hsingle := single_reput (hs.ok _) hput hplain (hd srv.node)
      rw [if_neg fun h => hq h.2]
      apply Option.ext
      intro w
      rw [get_eq_some_iff (ok_reput _ _ _ (hs.ok _)) hsingle, get_eq_some_iff (hs.ok _) (hd _),
        entry_reput_iff (hs.ok _) (hd _) hplain hput, if_neg hkey]
  · rw [Function.update_of_ne hm, if_neg fun h => hm h.1]

/-- A step changes the servers as its action says, unless memory runs out. -/
theorem Happens.servers_eq (h : Happens s e a services lookups msgs rc) (hs : s.TablesOk)
    (hd : s.Distinct) (hplain : s.Plain a) (ha : e.allocs = []) (m q : UInt32) :
    get (services m) (hashU32 q) = a.servers s.server m q := by
  have hsame : get (s.services m) (hashU32 q) = s.server m q := (server_eq_get hs.nodesOk m q).symm
  cases h with
  | nothing why => rw [hsame, why.servers_eq hs ha]
  | hello first all hrc => exact hsame
  | @bye gone told t removal complete tell all =>
      obtain ⟨-, hempty⟩ := complete (hd _) fun i k srv hi => (hs.keyed ⟨i, hi⟩).2
      rw [Action.servers]
      by_cases hm : m = e.sq.node
      · subst hm
        rw [Function.update_self, if_pos rfl, get_eq_none_iff (removal.ok (hs.ok _))]
        rintro v ⟨i, hi⟩
        rw [hempty i] at hi
        cases hi
      · rw [Function.update_of_ne hm, if_neg hm, hsame]
  | @closePort n p _ _ t removal tell all =>
      cases removal with
      | kept why =>
          have hnone := why.resolve_left (not_not.2 ha)
          rw [Function.update_eq_self, hsame]
          exact (server_without_absent hs hnone m q).symm
      | gone found => exact get_update_remove hs hd found m q
  | @register srv plan _ hplan hput hrc => exact get_update_reput hs hd (hplain srv rfl) hput m q
  | unregister found => exact get_update_remove hs hd found m q
  | watch hreply => exact hsame
  | unwatch => exact hsame

/-- A BYE with memory at hand empties a table in which no port is registered twice, and tells about every
    server of it. -/
theorem Happens.bye_exact {n : UInt32} (h : Happens s e (.bye n) services lookups msgs rc)
    (ha : e.allocs = []) (hs : Single (s.services n)) (hkeyed : Keyed (s.services n)) :
    ∃ t, services = Function.update s.services n t ∧ (∀ i, live t i = none) ∧
      lookups = s.lookups ∧
      msgs = (forEach (s.services n)).flatMap s.delMsgs ++
        (forEach (services s.localNode)).map (byeMsg s.order n) := by
  cases h with
  | nothing why => simp [Ns.Idle, ha] at why
  | bye removal complete tell all =>
      obtain ⟨rfl, hempty⟩ := complete hs hkeyed
      exact ⟨_, rfl, hempty, rfl, by rw [all ha]⟩

/-- A DEL_CLIENT with memory at hand takes out the server of the port, if there is one, and tells about
    it. -/
theorem Happens.closePort_exact {n p : UInt32} (h : Happens s e (.closePort n p) services lookups msgs rc)
    (ha : e.allocs = []) :
    lookups = s.lookupsWithout n p ∧
      msgs = (get (s.services n) (hashU32 p)).toList.flatMap
          ({ s with lookups := s.lookupsWithout n p } : Ns T).delMsgs ++
        (forEach (services s.localNode)).map (delClientMsg s.order e.stack n p) := by
  cases h with
  | nothing why => simp [Ns.Idle, ha] at why
  | closePort removal tell all =>
      refine ⟨rfl, ?_⟩
      rw [all ha, removal.gone_eq ha]

end

/-- One step does to the registry what its action says, and keeps ports registered once. -/
theorem nsStep_refines {s : Ns T} (hs : s.TablesOk) (hd : s.Distinct) {e : Event}
    (hplain : s.Plain (s.action e)) (ha : e.allocs = []) :
    (nsStep s e).1.Distinct ∧ (nsStep s e).1.server = (s.action e).servers s.server ∧
      (nsStep s e).1.lookups = (s.action e).lookups s.lookups := by
  obtain ⟨⟨rc, hhappens⟩, hnodes⟩ := nsStep_happens hs.nodesOk hs.ok e
  refine ⟨hhappens.distinct hs hd hplain, ?_, hhappens.lookups_eq ha⟩
  funext m q
  rw [server_eq_get hnodes, hhappens.servers_eq hs hd hplain ha]

/-- A plain step keeps ports registered once. -/
theorem Ns.Distinct.plain_step {s : Ns T} (hd : s.Distinct) (hs : s.TablesOk) {e : Event}
    (hplain : s.Plain (s.action e)) : (nsStep s e).1.Distinct := by
  obtain ⟨⟨rc, hhappens⟩, -⟩ := nsStep_happens hs.nodesOk hs.ok e
  exact hhappens.distinct hs hd hplain

/-- A run whose registrations meet what they replace keeps the name server in order. -/
theorem Ns.Inv.guarded_run {s : Ns T} (hs : s.Inv) (hd : s.Distinct) {events : List Event}
    (hplain : Run.Guarded (fun s e => s.Plain (s.action e)) nsStep s events) :
    (Run.final nsStep s events).Inv ∧ (Run.final nsStep s events).Distinct := by
  have hstep : ∀ (s : Ns T) e, s.Inv ∧ s.Distinct → s.Plain (s.action e) →
      (nsStep s e).1.Inv ∧ (nsStep s e).1.Distinct := by
    rintro s e ⟨hs, hd⟩ hplain
    exact ⟨hs.step e, hd.plain_step hs.toTablesOk hplain⟩
  exact Run.Guarded.invariant hstep ⟨hs, hd⟩ hplain

/-- A registration that replaces nothing. -/
def Ns.Adds (s : Ns T) (e : Event) : Prop :=
  match s.action e with
  | .register srv => s.server srv.node srv.port = none
  | _ => True

instance (s : Ns T) (e : Event) : Decidable (s.Adds e) := by
  unfold Ns.Adds
  split <;> infer_instance

/-- A run without replacements keeps the name server in order. -/
theorem Ns.Inv.adding_run {s : Ns T} (hs : s.Inv) (hd : s.Distinct) {events : List Event}
    (hadds : Run.Guarded Ns.Adds nsStep s events) :
    (Run.final nsStep s events).Inv ∧ (Run.final nsStep s events).Distinct := by
  have hstep : ∀ (s : Ns T) e, s.Inv ∧ s.Distinct → s.Adds e →
      (nsStep s e).1.Inv ∧ (nsStep s e).1.Distinct := by
    rintro s e ⟨hs, hd⟩ hadds
    have hplain : s.Plain (s.action e) := by
      apply Ns.plain_of_absent hs.toTablesOk
      intro srv hsrv
      rw [Ns.Adds, hsrv] at hadds
      exact hadds
    exact ⟨hs.step e, hd.plain_step hs.toTablesOk hplain⟩
  exact Run.Guarded.invariant hstep ⟨hs, hd⟩ hadds

/-! ### Datagrams by their words -/

/-- Only an empty datagram leaves the buffer empty. -/
theorem Event.received_ne_nil (e : Event) : e.received ≠ [] ↔ e.datagram ≠ [] := by
  rw [Event.received]
  cases e.datagram <;> simp

/-- The socket is open until a datagram is empty. -/
theorem nsStep_sockOpen {s : Ns T} (hs : s.TablesOk) (e : Event) :
    (nsStep s e).1.sockOpen = true ↔ s.sockOpen = true ∧ e.datagram ≠ [] := by
  by_cases hempty : e.datagram = []
  · refine iff_of_false (fun h => ?_) fun h => h.2 hempty
    rw [nsStep] at h
    by_cases running : s.sockOpen = true
    · rw [if_pos running] at h
      simp [ctrlPortFn, hempty] at h
    · rw [if_neg running] at h
      exact running h
  · rw [(nsStep_frame hs.nodesOk hs.ok e).2.2 (e.received_ne_nil.2 hempty)]
    exact ⟨fun h => ⟨h, hempty⟩, And.left⟩

section

variable {e : Event} (localNode : UInt32) (hlen : 4 ≤ e.received.length)

include hlen

/-- A DEL_CLIENT from the node it names, by the port it names if that is local. -/
theorem Event.action_delClient_valid (hcmd : e.word 0 = qrtrTypeDelClient)
    (hnode : e.sq.node = e.word 4) (hport : e.sq.node = localNode → e.sq.port = e.word 8) :
    e.action localNode = .closePort (e.word 4) (e.word 8) := by
  have hvalid : e.delClientAction localNode = .closePort (e.word 4) (e.word 8) :=
    if_pos ⟨hnode, hport⟩
  rw [← hvalid, Event.action, if_neg (Nat.not_lt.2 hlen), hcmd]
  rfl

/-- A DEL_CLIENT of a local sender for another port. -/
theorem Event.action_delClient_spoofed (hcmd : e.word 0 = qrtrTypeDelClient)
    (hlocal : e.sq.node = localNode) (hport : e.sq.port ≠ e.word 8) :
    e.action localNode = .ignored := by
  have hspoofed : e.delClientAction localNode = .ignored := if_neg fun h => hport (h.2 hlocal)
  rw [← hspoofed, Event.action, if_neg (Nat.not_lt.2 hlen), hcmd]
  rfl

theorem Event.action_newServer (hcmd : e.word 0 = qrtrTypeNewServer) :
    e.action localNode = e.newServerAction localNode := by
  rw [Event.action, if_neg (Nat.not_lt.2 hlen), hcmd]
  rfl

/-- A valid NEW_SERVER of a remote sender. -/
theorem Event.action_newServer_remote (hcmd : e.word 0 = qrtrTypeNewServer)
    (hremote : e.sq.node ≠ localNode) (hnode : e.word 12 = e.sq.node) (hservice : e.word 4 ≠ 0)
    (hport : e.word 16 ≠ 0) :
    e.action localNode = .register
      { service := e.word 4, inst := e.word 8, node := e.sq.node, port := e.word 16 } := by
  rw [e.action_newServer localNode hlen hcmd]
  simp [Event.newServerAction, hremote, hnode, hservice, hport]

/-- A valid NEW_SERVER of a local sender. -/
theorem Event.action_newServer_local (hcmd : e.word 0 = qrtrTypeNewServer)
    (hlocal : e.sq.node = localNode) (hservice : e.word 4 ≠ 0) (hport : e.sq.port ≠ 0) :
    e.action localNode = .register
      { service := e.word 4, inst := e.word 8, node := e.sq.node, port := e.sq.port } := by
  rw [e.action_newServer localNode hlen hcmd]
  simp [Event.newServerAction, hlocal, hservice, hport]

/-- A DEL_SERVER of a remote sender for its node. -/
theorem Event.action_delServer_remote (hcmd : e.word 0 = qrtrTypeDelServer)
    (hremote : e.sq.node ≠ localNode) (hnode : e.sq.node = e.word 12) :
    e.action localNode = .unregister e.sq.node (e.word 16) := by
  rw [Event.action, if_neg (Nat.not_lt.2 hlen), hcmd]
  exact (if_neg hremote).trans (if_pos hnode)

/-- A NEW_LOOKUP of a local sender. -/
theorem Event.action_newLookup_local (hcmd : e.word 0 = qrtrTypeNewLookup)
    (hlocal : e.sq.node = localNode) :
    e.action localNode = .watch { service := e.word 4, inst := e.word 8, sq := e.sq } := by
  rw [Event.action, if_neg (Nat.not_lt.2 hlen), hcmd]
  exact if_pos hlocal

theorem Event.action_delLookup (hcmd : e.word 0 = qrtrTypeDelLookup) :
    e.action localNode = .unwatch e.sq (e.word 4) (e.word 8) := by
  rw [Event.action, if_neg (Nat.not_lt.2 hlen), hcmd]
  rfl

end

/-- The words of a datagram of five words on the wire. -/
theorem Event.words {e : Event} {a b c d f : UInt32} (h : e.datagram = [a, b, c, d, f].flatMap le32) :
    e.received.length = 20 ∧ e.word 0 = a ∧ e.word 4 = b ∧ e.word 8 = c ∧ e.word 12 = d ∧
      e.word 16 = f := by
  have hlen : e.datagram.length = 20 := by
    rw [h]
    simp
  have hreceived : e.received = [a, b, c, d, f].flatMap le32 := by
    rw [Event.received, List.take_of_length_le (by omega), h]
  have hbytes : (e.stale.write 0 e.received).bytes 0 20 = [a, b, c, d, f].flatMap le32 := by
    rw [hreceived]
    exact Mem.has_write _ _ _
  have hwords := ctrlWord_of_words .little hbytes
  simp only [ctrlWord_eq] at hwords
  refine ⟨?_, hwords⟩
  rw [hreceived, ← h, hlen]

theorem Event.word_ofWords (sq : Sockaddr) (a b c d f : UInt32) :
    (Event.ofWords sq [a, b, c, d, f]).word 0 = a ∧ (Event.ofWords sq [a, b, c, d, f]).word 4 = b ∧
      (Event.ofWords sq [a, b, c, d, f]).word 8 = c ∧
      (Event.ofWords sq [a, b, c, d, f]).word 12 = d ∧
      (Event.ofWords sq [a, b, c, d, f]).word 16 = f :=
  (Event.words rfl).2

theorem Event.length_ofWords (sq : Sockaddr) (a b c d f : UInt32) :
    (Event.ofWords sq [a, b, c, d, f]).received.length = 20 := by
  simp [Event.received, Event.ofWords]

/-- The state after one datagram at the start, as its action says. -/
theorem afterFirst (order : HostOrder) (localNode : UInt32) {e : Event} (ha : e.allocs = [])
    (hne : e.received ≠ []) :
    ∃ s : Ns T, s.Reachable ∧ s.Distinct ∧ s.order = order ∧ s.localNode = localNode ∧
      s.sockOpen = true ∧ s.server = (e.action localNode).servers (fun _ _ => none) ∧
      s.lookups = (e.action localNode).lookups [] := by
  obtain ⟨s, hs⟩ : ∃ s : Ns T, s = nsInit order localNode := ⟨_, rfl⟩
  have hinv : s.Inv := hs ▸ .init order localNode
  have hnone : s.server = fun _ _ => none := by
    funext n p
    rw [server_eq_get hinv.nodesOk, hs]
    exact get_create _
  have hd : s.Distinct := hs ▸ .init order localNode
  have haction : s.action e = e.action localNode := by rw [hs]; rfl
  have hplain : s.Plain (s.action e) := Ns.plain_of_absent hinv.toTablesOk fun srv _ => by rw [hnone]
  obtain ⟨hdistinct, hserver, hlookups⟩ := nsStep_refines hinv.toTablesOk hd hplain ha
  obtain ⟨horder, hnode, hopen⟩ := nsStep_frame hinv.nodesOk hinv.ok e
  refine ⟨(nsStep s e).1, ⟨order, localNode, [e], by rw [hs]; rfl⟩, hdistinct, ?_, ?_, ?_, ?_, ?_⟩
  · rw [horder, hs]
    rfl
  · rw [hnode, hs]
    rfl
  · rw [hopen hne, hs]
    rfl
  · rw [hserver, haction, hnone]
  · rw [hlookups, haction, hs]
    rfl

/-- The state in which one server is registered. -/
theorem afterRegister (order : HostOrder) (localNode : UInt32) (srv : Server)
    (hservice : srv.service ≠ 0) (hport : srv.port ≠ 0) :
    ∃ s : Ns T, s.Reachable ∧ s.Distinct ∧ s.order = order ∧ s.localNode = localNode ∧
      s.sockOpen = true ∧ s.server = (Action.register srv).servers (fun _ _ => none) ∧
      s.lookups = [] := by
  obtain ⟨e, he⟩ : ∃ e, e = Event.ofWords { node := srv.node, port := srv.port }
      [qrtrTypeNewServer, srv.service, srv.inst, srv.node, srv.port] := ⟨_, rfl⟩
  have hlen : e.received.length = 20 := he ▸ Event.length_ofWords _ _ _ _ _ _
  have hwords := Event.word_ofWords { node := srv.node, port := srv.port } qrtrTypeNewServer
    srv.service srv.inst srv.node srv.port
  rw [← he] at hwords
  obtain ⟨h0, h4, h8, h12, h16⟩ := hwords
  have hsq : e.sq = { node := srv.node, port := srv.port } := by rw [he]; rfl
  have hallocs : e.allocs = [] := by rw [he]; rfl
  have haction : e.action localNode = .register srv := by
    by_cases hlocal : srv.node = localNode
    · rw [e.action_newServer_local localNode (by omega) h0 (by rwa [hsq]) (by rwa [h4])
        (by rwa [hsq]), h4, h8, hsq]
    · rw [e.action_newServer_remote localNode (by omega) h0 (by rwa [hsq]) (by rw [h12, hsq])
        (by rwa [h4]) (by rwa [h16]), h4, h8, h16, hsq]
  obtain ⟨s, hs, hd, horder, hnode, hopen, hserver, hlookups⟩ := afterFirst (T := T) order localNode
    hallocs (List.length_pos_iff.1 (by omega))
  rw [haction] at hserver hlookups
  exact ⟨s, hs, hd, horder, hnode, hopen, hserver, hlookups⟩

/-! ### A state with servers and a lookup -/

/-- On node 1 a client looks for service 7 and two servers register; two servers of node 2 are announced. -/
def sampleEvents : List Event :=
  [Event.ofWords { node := 1, port := 9 } [qrtrTypeNewLookup, 7, 0],
    Event.ofWords { node := 1, port := 5 } [qrtrTypeNewServer, 7, 1, 0, 0],
    Event.ofWords { node := 1, port := 6 } [qrtrTypeNewServer, 8, 1, 0, 0],
    Event.ofWords { node := 2, port := qrtrPortCtrl } [qrtrTypeNewServer, 7, 2, 2, 5],
    Event.ofWords { node := 2, port := qrtrPortCtrl } [qrtrTypeNewServer, 9, 1, 2, 6]]

/-- The name server of node 1 then. -/
def sampleNs : Ns (Map Server) := Run.final nsStep (nsInit .little 1) sampleEvents

theorem sampleNs_reachable : sampleNs.Reachable := ⟨.little, 1, sampleEvents, rfl⟩

theorem sampleNs_distinct : sampleNs.Distinct := by
  have hadds : Run.Guarded Ns.Adds nsStep (nsInit .little 1 : Ns (Map Server)) sampleEvents := by
    decide +kernel
  exact ((Ns.Inv.init .little 1).adding_run (.init .little 1) hadds).2

end Qrtr
