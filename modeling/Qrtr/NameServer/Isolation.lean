/-
Module: Qrtr.NameServer.Isolation
Layer: NameServer
Purpose: What a datagram cannot do. A message that its handler rejects changes no answer of a table and
  no lookup, and nothing is sent. Other messages leave alone what belongs to others, with two
  exceptions among local senders: `ctrl_cmd_bye` does not look at the port of its sender, and a table
  that grows keeps, of two records of one port, the last.
Imports: Qrtr.NameServer.Effects
Main exports: NoEffect, rejected_no_effect, KeepsOthers, OwnOnly, keepsOthers_of_ownOnly
Open obligations: none
-/
import Qrtr.NameServer.Effects

namespace Qrtr

open MapOps LawfulMap

variable {T : Type}

/-! ### Rejected messages -/

section

variable [MapOps T Server]

/-- Nothing has changed but perhaps the node records, and nothing was sent. -/
structure NoEffect (s : Ns T) (w : Exec T) : Prop where
  server : ∀ n p, w.server n p = s.server n p
  lookups : w.lookups = s.lookups
  sent : w.sent = []

variable [LawfulMap T Server]

/-- Only where nothing happens can a handler return less than the -1 of `sendto`. -/
theorem Happens.of_rejected {s : Ns T} {e : Event} {a : Action} {services : UInt32 → T}
    {lookups : List Lookup} {msgs : List Msg} {rc : Int}
    (h : Happens s e a services lookups msgs rc) (hrc : rc < -1) :
    services = s.services ∧ lookups = s.lookups ∧ msgs = [] := by
  cases h with
  | nothing why => exact ⟨rfl, rfl, rfl⟩
  | hello first all hlow => omega
  | register hplan hput hlow => omega
  | bye removal complete tell all => omega
  | closePort removal tell all => omega
  | unregister found => omega
  | watch hreply => omega
  | unwatch => omega

/-- A handler that returns `-EINVAL` or `-ENOENT` has done nothing. -/
theorem noEffect_of_rejected {s : Ns T} (h : s.TablesOk) (e : Event)
    (hrc : (ctrlPortFn (s.exec e) e.sq e.datagram e.stale).1 < -1) :
    NoEffect s (ctrlPortFn (s.exec e) e.sq e.datagram e.stale).2 := by
  have hhandled := ctrlPortFn_handled h.nodesOk h.ok e
  obtain ⟨hservices, hlookups, hsent⟩ := hhandled.happens.of_rejected hrc
  refine ⟨fun n p => ?_, hlookups, hsent⟩
  rw [server_eq_get hhandled.nodesOk, server_eq_get h.nodesOk, hservices]

end

/-- A rejected message has no effect, in every reachable state and whichever allocations fail. -/
theorem rejected_no_effect {s : Ns (Map Server)} (hs : s.Reachable) (e : Event)
    (hrc : (ctrlPortFn (s.exec e) e.sq e.datagram e.stale).1 = -22 ∨
      (ctrlPortFn (s.exec e) e.sq e.datagram e.stale).1 = -2) :
    NoEffect s (ctrlPortFn (s.exec e) e.sq e.datagram e.stale).2 :=
  noEffect_of_rejected hs.inv.toTablesOk e (by omega)

/-- Node 3 sends a DEL_CLIENT for a port of node 2 that has a server. -/
theorem rejected_no_effect_spoofed :
    NoEffect sampleNs
      (ctrlPortFn (sampleNs.exec (Event.ofWords { node := 3, port := 7 } [qrtrTypeDelClient, 2, 5]))
        { node := 3, port := 7 } ([qrtrTypeDelClient, 2, 5].flatMap le32) fun _ => 0).2 :=
  rejected_no_effect sampleNs_reachable
    (Event.ofWords { node := 3, port := 7 } [qrtrTypeDelClient, 2, 5]) (by decide +kernel)

/-! ### What belongs to others -/

/-- The address whose lookups a datagram is about: the one that a DEL_CLIENT from the same node names,
    and the sender for every other datagram. -/
def Event.owner (e : Event) : Sockaddr :=
  if e.word 0 = qrtrTypeDelClient ∧ e.sq.node = e.word 4 then
    { node := e.word 4, port := e.word 8 }
  else e.sq

/-- The datagram leaves alone what does not belong to its sender. -/
structure KeepsOthers (s : Ns (Map Server)) (e : Event) : Prop where
  otherNodes : ∀ n p srv, n ≠ e.sq.node → s.server n p = some srv →
    (nsStep s e).1.server n p = some srv
  otherPorts : e.sq.node = s.localNode → ∀ p srv, p ≠ e.sq.port →
    s.server s.localNode p = some srv → (nsStep s e).1.server s.localNode p = some srv
  lookups : ((nsStep s e).1.lookups.filter fun lookup => lookup.sq ≠ e.owner) =
    s.lookups.filter fun lookup => lookup.sq ≠ e.owner

/-- What it takes for a local sender to touch no other port: a BYE only when no other local port is
    registered, and, when a NEW_SERVER makes the table grow, the allocations of the server and of the
    larger table succeeding, no other port whose record is not the last of its records in the table. -/
structure OwnOnly (s : Ns (Map Server)) (e : Event) : Prop where
  bye : s.action e = .bye s.localNode → ∀ p, p ≠ e.sq.port → s.server s.localNode p = none
  grow : ∀ srv, s.action e = .register srv → srv.node = s.localNode →
    (s.services s.localNode).count = (s.services s.localNode).size →
    ∀ plan, calloc e.allocs = (true, plan) → (calloc plan).1 = true →
    ∀ p, p ≠ e.sq.port → (s.services s.localNode).lastOf (hashU32 p) = s.server s.localNode p

/-- A put into a full table succeeds only with the allocation of a larger one. -/
theorem calloc_of_reput {m : Map Server} (h : m.Inv) {plan : AllocPlan} {key : UInt32} {srv : Server}
    (hrc : (reput plan m key srv).rc = 0) (hfull : m.count = m.size) : (calloc plan).1 = true := by
  have hput : (mapReput plan m key srv).rc = 0 := hrc
  rw [mapReput_eq h, if_neg (not_not.2 hfull)] at hput
  rcases hcalloc : calloc plan with ⟨ok, rest⟩
  cases ok with
  | true => rfl
  | false =>
      rw [hcalloc] at hput
      cases hput

/-- A successful put leaves the lookups of another key alone, unless the table grows and the key has a
    later record. -/
theorem mapGet_reput_ne {m : Map Server} (h : m.Inv) {plan : AllocPlan} {key key' : UInt32}
    {srv : Server} (hrc : (reput plan m key srv).rc = 0) (hne : key' ≠ key)
    (hgrow : m.count = m.size → m.lastOf key' = mapGet m key') :
    mapGet (reput plan m key srv).table key' = mapGet m key' := by
  obtain ⟨b, hbase, hb, hroom, hmap⟩ := mapReput_placed h hrc
  have htable : (reput plan m key srv).table = mapPlace b key srv := hmap
  rw [htable, mapGet_mapPlace_ne hb hroom hne]
  rcases hbase with rfl | ⟨hfull, rfl⟩
  · rfl
  · rw [mapGet_rehashed, hgrow hfull]

/-- The table of another node is not touched. -/
theorem Happens.services_of_ne {s : Ns (Map Server)} {e : Event} {services : UInt32 → Map Server}
    {lookups : List Lookup} {msgs : List Msg} {rc : Int}
    (h : Happens s e (s.action e) services lookups msgs rc) {n : UInt32} (hn : n ≠ e.sq.node) :
    services n = s.services n := by
  have hchecked := s.action_checked e
  generalize s.action e = a at h hchecked
  cases h with
  | nothing why => rfl
  | hello first all hrc => rfl
  | bye removal complete tell all => exact Function.update_of_ne hn _ _
  | @closePort node p _ _ _ removal tell all =>
      have hnode : n ≠ node := by rwa [hchecked.1]
      exact Function.update_of_ne hnode _ _
  | @register srv _ _ hplan hput hrc =>
      have hnode : n ≠ srv.node := by rwa [hchecked.1]
      exact Function.update_of_ne hnode _ _
  | @unregister node p srv found =>
      have hnode : n ≠ node := by rwa [hchecked.1]
      exact Function.update_of_ne hnode _ _
  | watch hreply => rfl
  | unwatch => rfl

/-- A local sender that meets the condition leaves the other local ports alone. -/
theorem Happens.get_of_ownOnly {s : Ns (Map Server)} (hs : s.TablesOk) {e : Event}
    {services : UInt32 → Map Server} {lookups : List Lookup} {msgs : List Msg} {rc : Int}
    (h : Happens s e (s.action e) services lookups msgs rc) (hown : OwnOnly s e)
    (hlocal : e.sq.node = s.localNode) {p : UInt32} {srv : Server} (hp : p ≠ e.sq.port)
    (hsrv : s.server s.localNode p = some srv) :
    mapGet (services s.localNode) (hashU32 p) = some srv := by
  have hget := hsrv
  rw [server_eq_get hs.nodesOk] at hget
  have hkey : hashU32 p ≠ hashU32 e.sq.port := fun heq => hp (hashU32_injective heq)
  have hchecked := s.action_checked e
  have hbye := hown.bye
  have hgrow := hown.grow
  generalize s.action e = a at h hchecked hbye hgrow
  cases h with
  | nothing why => exact hget
  | hello first all hrc => exact hget
  | bye removal complete tell all =>
      rw [hbye (by rw [hlocal]) p hp] at hsrv
      cases hsrv
  | @closePort n q _ _ t removal tell all =>
      obtain ⟨hn, hq⟩ := hchecked
      rw [hlocal] at hn
      subst hn
      rw [Function.update_self]
      cases removal with
      | kept why => exact hget
      | gone found =>
          rw [hq hlocal]
          exact (mapGet_mapRemove_ne hkey).trans hget
  | @register new plan _ hplan hput hrc hrecord =>
      obtain ⟨hn, hq, -⟩ := hchecked
      rw [hlocal] at hn
      rw [hn] at hput hrecord ⊢
      rw [hq hlocal] at hput ⊢
      rw [Function.update_self, mapGet_reput_ne (hs.ok _) hput hkey]
      · exact hget
      · intro hfull
        -- the other port has a record, so that the node has one
        have hnode : mapGet s.nodes (hashU32 s.localNode) ≠ none := by
          intro hnone
          rw [Ns.server, hnone] at hsrv
          cases hsrv
        have halloc := calloc_of_reput (hs.ok _) hput hfull
        rw [hgrow new rfl hn hfull plan (hrecord hnode) halloc p hp, server_eq_get hs.nodesOk]
        rfl
  | @unregister n q gone found =>
      obtain ⟨hn, hq⟩ := hchecked
      rw [hlocal] at hn
      subst hn
      rw [Function.update_self, hq hlocal]
      exact (mapGet_mapRemove_ne hkey).trans hget
  | watch hreply => exact hget
  | unwatch => exact hget

/-- Whose lookups an action is about. -/
def Action.About (sq owner : Sockaddr) : Action → Prop
  | .closePort n p => owner = { node := n, port := p }
  | .watch _ | .unwatch _ _ _ => owner = sq
  | _ => True

theorem Event.action_about (localNode : UInt32) (e : Event) :
    (e.action localNode).About e.sq e.owner := by
  rw [Event.action]
  split
  · trivial
  split
  · trivial
  split
  · trivial
  split
  · rename_i hdelClient
    rw [Event.delClientAction]
    split
    · rename_i hvalid
      exact if_pos ⟨hdelClient, hvalid.1⟩
    · trivial
  rename_i hdelClient
  have howner : e.owner = e.sq := if_neg fun h => hdelClient h.1
  split
  · simp only [Event.newServerAction]
    generalize (if e.sq.node = localNode then e.sq.port else e.word 16) = port
    split <;> trivial
  split
  · rw [Event.delServerAction]
    split
    · trivial
    split <;> trivial
  split
  · rw [Event.newLookupAction]
    split
    · exact howner
    · trivial
  split
  · exact howner
  · trivial

theorem Ns.action_about (s : Ns T) (e : Event) : (s.action e).About e.sq e.owner := by
  rw [Ns.action]
  split
  · exact e.action_about s.localNode
  · trivial

/-- The lookups of other addresses stay, in their order. -/
theorem Happens.lookups_of_ne {s : Ns (Map Server)} {e : Event} {services : UInt32 → Map Server}
    {lookups : List Lookup} {msgs : List Msg} {rc : Int}
    (h : Happens s e (s.action e) services lookups msgs rc) :
    (lookups.filter fun lookup => lookup.sq ≠ e.owner) =
      s.lookups.filter fun lookup => lookup.sq ≠ e.owner := by
  have hchecked := s.action_checked e
  have habout := s.action_about e
  generalize s.action e = a at h hchecked habout
  cases h with
  | nothing why => rfl
  | hello first all hrc => rfl
  | bye removal complete tell all => rfl
  | @closePort n p _ _ _ removal tell all =>
      have howner : e.owner = { node := n, port := p } := habout
      rw [Ns.lookupsWithout, List.filter_filter, howner]
      apply List.filter_congr
      intro l _
      obtain ⟨_, _, node, port⟩ := l
      simp
  | register hplan hput hrc => rfl
  | unregister found => rfl
  | @watch l reply hreply =>
      have howner : e.owner = e.sq := habout
      rw [List.filter_append, howner]
      simp [hchecked.2]
  | @unwatch sq service inst =>
      have howner : e.owner = e.sq := habout
      have hsq : sq = e.sq := hchecked
      rw [Ns.lookupsUnwatched, List.filter_filter, howner, hsq]
      apply List.filter_congr
      intro l _
      by_cases hl : l.sq = e.sq
      · simp [hl]
      · have hother : (l.sq.node == e.sq.node && l.sq.port == e.sq.port) = false := by
          rw [Bool.eq_false_iff]
          intro hsame
          rw [Bool.and_eq_true, beq_iff_eq, beq_iff_eq] at hsame
          exact hl (Sockaddr.ext hsame.1 hsame.2)
        simp [hl, hother]

/-- The condition is enough: whoever sends it, a datagram that meets it affects only what is its own. -/
theorem keepsOthers_of_ownOnly {s : Ns (Map Server)} (hs : s.TablesOk) {e : Event}
    (hown : e.sq.node = s.localNode → OwnOnly s e) : KeepsOthers s e := by
  obtain ⟨⟨rc, hhappens⟩, hnodes⟩ := nsStep_happens hs.nodesOk hs.ok e
  refine ⟨fun n p srv hn hsrv => ?_, fun hlocal p srv hp hsrv => ?_, hhappens.lookups_of_ne⟩
  · rw [server_eq_get hnodes, hhappens.services_of_ne hn, ← server_eq_get hs.nodesOk]
    exact hsrv
  · rw [server_eq_get hnodes]
    exact hhappens.get_of_ownOnly hs (hown hlocal) hlocal hp hsrv

/-- Where no key has two items the last is the one that is found. -/
theorem lastOf_eq_mapGet {m : Map Server} (h : m.Inv) (hu : m.Unique) (key : UInt32) :
    m.lastOf key = mapGet m key := by
  have hfill := Map.Filling.rehashed m
  rw [← mapGet_rehashed]
  apply Option.ext
  intro v
  rw [mapGet_eq_some_iff hfill.inv hfill.unique, Map.holds_rehashed hu, mapGet_eq_some_iff h hu]

/-- Where no local port is registered twice and nothing runs out of memory the condition is needed. -/
theorem ownOnly_of_keepsOthers {s : Ns (Map Server)} (hs : s.TablesOk) {e : Event}
    (ha : e.allocs = []) (hsingle : Single (s.services s.localNode)) (hkeeps : KeepsOthers s e)
    (hlocal : e.sq.node = s.localNode) : OwnOnly s e := by
  refine ⟨fun hbye p hp => ?_, fun srv _ _ _ _ _ _ p _ => ?_⟩
  · by_contra hsome
    obtain ⟨srv, hsrv⟩ := Option.ne_none_iff_exists'.1 hsome
    have hkept := hkeeps.otherPorts hlocal p srv hp hsrv
    obtain ⟨⟨rc, hhappens⟩, hnodes⟩ := nsStep_happens hs.nodesOk hs.ok e
    rw [server_eq_get hnodes] at hkept
    rw [hbye] at hhappens
    obtain ⟨t, hservices, hempty, -, -⟩ :=
      hhappens.bye_exact ha hsingle fun i k srv hi => (hs.keyed ⟨i, hi⟩).2
    rw [hservices, Function.update_self] at hkept
    obtain ⟨i, hi⟩ := holds_of_mapGet hkept
    have hlive : live t i = some (hashU32 p, srv) := Map.live_eq_some_iff.2 hi
    rw [hempty i] at hlive
    cases hlive
  · rw [server_eq_get hs.nodesOk]
    exact lastOf_eq_mapGet (hs.ok _) (Map.single_iff.1 hsingle) _

/-- In every reachable state a datagram of a sender that is remote or meets the condition affects only
    what is the sender's own; as long as no local port is registered twice no others do. -/
theorem keepsOthers_reachable {s : Ns (Map Server)} (hs : s.Reachable) (e : Event) :
    ((e.sq.node = s.localNode → OwnOnly s e) → KeepsOthers s e) ∧
      (e.allocs = [] → Single (s.services s.localNode) → KeepsOthers s e →
        e.sq.node = s.localNode → OwnOnly s e) :=
  ⟨keepsOthers_of_ownOnly hs.inv.toTablesOk, ownOnly_of_keepsOthers hs.inv.toTablesOk⟩

/-- A local server registers another service in the place of its own, next to the servers of others. -/
theorem keepsOthers_reachable_register :
    KeepsOthers sampleNs (Event.ofWords { node := 1, port := 5 } [qrtrTypeNewServer, 9, 1, 0, 0]) :=
  (keepsOthers_reachable sampleNs_reachable _).1 fun _ =>
    ⟨fun h => absurd h (by decide +kernel), fun _ _ _ hfull => absurd hfull (by decide +kernel)⟩

set_option maxRecDepth 4000 in
/-- Port 6 of the local node says BYE and the server of port 5 is gone. -/
theorem not_keepsOthers : ¬ ∀ s : Ns (Map Server), s.Reachable → ∀ e, KeepsOthers s e := by
  intro h
  have hkept := (h _ ⟨.little, 1,
      [Event.ofWords { node := 1, port := 5 } [qrtrTypeNewServer, 7, 1, 0, 0]], rfl⟩
    (Event.ofWords { node := 1, port := 6 } [qrtrTypeBye])).otherPorts rfl 5
      { service := 7, inst := 1, node := 1, port := 5 } (by decide) (by decide +kernel)
  revert hkept
  decide +kernel

end Qrtr
