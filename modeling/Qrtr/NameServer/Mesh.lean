/-
Module: Qrtr.NameServer.Mesh
Layer: NameServer
Purpose: Any number of name servers, each joined to each other by a link that delivers in order, with nodes
  that go down and come up again. When a node goes down, some of what it sent last is lost and each other
  name server hears a BYE of it behind the rest; it comes up empty and says hello. What a name server holds
  of a node is never more than that node has, once what is in flight has been handled, and it is all of it
  where the node has handled a HELLO since the name server came up.
Imports: NameServer.Agreement, Foundation.Replica
Main exports: Roster, Action.roster, IsBye, Mesh, Meshed, Tracks, Mesh.Inv, Meshed.following,
  mesh_agreement
Open obligations: none
-/
import Qrtr.NameServer.Agreement
import Qrtr.Foundation.Replica

namespace Qrtr

open MapOps LawfulMap Replica

/-! ### The servers of one node -/

/-- The servers of a node by port. -/
abbrev Roster : Type := UInt32 → Option Server

instance : PartialOrder Roster where
  le f g := ∀ q srv, f q = some srv → g q = some srv
  le_refl _ _ _ h := h
  le_trans _ _ _ hfg hgh q srv h := hgh q srv (hfg q srv h)
  le_antisymm f g hfg hgf := by
    funext q
    cases hf : f q with
    | some srv => exact (hfg q srv hf).symm
    | none =>
        cases hg : g q with
        | none => rfl
        | some srv => exact absurd (hgf q srv hg) (by simp [hf])

instance : OrderBot Roster where
  bot _ := none
  bot_le _ _ _ h := nomatch h

/-- What an action does to the servers of a node. -/
def Action.roster (node : UInt32) (a : Action) (v : Roster) : Roster := a.servers (fun _ => v) node

/-- What becomes of the servers of a node depends on these servers alone. -/
theorem Action.servers_eq_roster (a : Action) (f : Registry) (n : UInt32) :
    a.servers f n = a.roster n (f n) := by
  funext q
  cases a <;> rfl

theorem Action.roster_mono (node : UInt32) (a : Action) : Monotone (a.roster node) := by
  intro f g hfg q srv
  cases a with
  | bye n =>
      simp only [Action.roster, Action.servers]
      split
      · exact id
      · exact hfg q srv
  | closePort n p =>
      simp only [Action.roster, Action.servers]
      split
      · exact id
      · exact hfg q srv
  | unregister n p =>
      simp only [Action.roster, Action.servers]
      split
      · exact id
      · exact hfg q srv
  | register srv' =>
      simp only [Action.roster, Action.servers]
      split
      · exact id
      · exact hfg q srv
  | ignored => exact hfg q srv
  | hello => exact hfg q srv
  | watch _ => exact hfg q srv
  | unwatch _ _ _ => exact hfg q srv

theorem replay_eq_play (actions : List Action) (f : Registry) (n : UInt32) :
    replay actions f n = play (Action.roster n) actions (f n) := by
  induction actions generalizing f with
  | nil => rfl
  | cons a actions ih =>
      rw [play_cons, ← a.servers_eq_roster]
      exact ih (a.servers f)

/-- The datagram asks for what a BYE does. -/
def IsBye (datagram : List UInt8) : Prop :=
  4 ≤ datagram.length ∧ receivedWord datagram 0 = qrtrTypeBye

theorem IsBye.standsFor {p : List UInt8} (h : IsBye p) (node : UInt32) : StandsFor node p (.bye node) := by
  rintro e localNode rfl hsq -
  obtain ⟨hlen, hword⟩ := h
  refine ⟨?_, received_ne_nil hlen⟩
  have hlen' := (length_received e).2 hlen
  rw [Event.action, if_neg (Nat.not_lt.2 hlen'), e.word_zero hlen, hword, hsq]
  rfl

theorem isHello_helloPkt (order : HostOrder) : IsHello (helloPkt order) := by
  cases order with
  | little => exact ⟨by decide, by decide⟩
  | big => exact ⟨by decide, by decide⟩

/-- What the datagrams in flight from a node stand for takes a copy of its servers to them or below. -/
def Tracks (node : UInt32) (whole : Prop) (datagrams : List (List UInt8)) (copy original : Roster) :
    Prop :=
  ∃ actions, List.Forall₂ (StandsFor node) datagrams actions ∧
    Behind (Action.roster node) whole actions copy original

section

variable {node : UInt32} {whole fresh : Prop} {datagrams datagrams' : List (List UInt8)}
  {copy original original' : Roster}

theorem Repeats.relays (h : Repeats node original original' datagrams fresh) :
    ∃ actions, List.Forall₂ (StandsFor node) datagrams actions ∧
      Relays (Action.roster node) fresh actions original original' := by
  obtain ⟨actions, hstands, hrepeat⟩ := h
  refine ⟨actions, hstands, fun v hv => ?_, fun v hv hwhole => ?_⟩
  · have hbelow := (hrepeat (fun _ => v) hv).1
    rw [replay_eq_play] at hbelow
    exact hbelow
  · have hequal := (hrepeat (fun _ => v) hv).2 hwhole
    rw [replay_eq_play] at hequal
    exact hequal

theorem Tracks.imp {whole' : Prop} (h : Tracks node whole datagrams copy original)
    (himp : whole' → whole) : Tracks node whole' datagrams copy original := by
  obtain ⟨actions, hstands, hbehind⟩ := h
  exact ⟨actions, hstands, hbehind.below, fun hwhole => hbehind.equal (himp hwhole)⟩

/-- The node does something and says so. -/
theorem Tracks.push (h : Tracks node whole datagrams copy original)
    (hrepeats : Repeats node original original' datagrams' fresh) :
    Tracks node (whole ∨ fresh) (datagrams ++ datagrams') copy original' := by
  obtain ⟨actions, hstands, hbehind⟩ := h
  obtain ⟨actions', hstands', hrelays⟩ := hrepeats.relays
  exact ⟨actions ++ actions', List.rel_append hstands hstands', hbehind.push hrelays⟩

/-- The next datagram is handled. -/
theorem Tracks.pop {p : List UInt8} (h : Tracks node whole (p :: datagrams) copy original) :
    ∃ a, StandsFor node p a ∧ Tracks node whole datagrams (a.roster node copy) original := by
  obtain ⟨actions, hstands, hbehind⟩ := h
  cases hstands with
  | cons hfirst hrest => exact ⟨_, hfirst, _, hrest, hbehind.pop⟩

/-- The copy is lost with the datagrams that were to reach it first. -/
theorem Tracks.restart (h : Tracks node whole datagrams copy original)
    (hlate : datagrams' <:+ datagrams) : Tracks node False datagrams' ⊥ original := by
  obtain ⟨actions, hstands, hbehind⟩ := h
  obtain ⟨lost, rfl⟩ := hlate
  have hrest := List.forall₂_drop lost.length hstands
  rw [List.drop_left] at hrest
  rw [← List.take_append_drop lost.length actions] at hbehind
  exact ⟨_, hrest, hbehind.restart (Action.roster_mono node)⟩

/-- The node goes down and comes up: a BYE and a HELLO follow what is left of its datagrams. -/
theorem Tracks.wipe (h : Tracks node whole datagrams copy original) {bye hello : List UInt8}
    (hkept : datagrams' <+: datagrams) (hbye : IsBye bye) (hhello : IsHello hello) :
    Tracks node True (datagrams' ++ [bye, hello]) copy ⊥ := by
  obtain ⟨actions, hstands, hbehind⟩ := h
  obtain ⟨lost, rfl⟩ := hkept
  have hfirst := List.forall₂_take datagrams'.length hstands
  rw [List.take_left] at hfirst
  refine ⟨_, List.rel_append hfirst (.cons (hbye.standsFor node) (.cons (hhello.standsFor node) .nil)), ?_⟩
  refine .wipe (fun v => ?_) _ copy
  funext q
  exact if_pos rfl

/-- Only HELLOs are in flight. -/
theorem Tracks.of_hellos (hhellos : ∀ p ∈ datagrams, IsHello p) (v : Roster) :
    Tracks node True datagrams v v := by
  have hfixed : play (Action.roster node) (datagrams.map fun _ => Action.hello) v = v := by
    refine play_fixed _ fun op hop => ?_
    obtain ⟨-, -, rfl⟩ := List.mem_map.1 hop
    rfl
  refine ⟨datagrams.map fun _ => .hello, ?_, hfixed.le, fun _ => hfixed⟩
  rw [List.forall₂_map_right_iff, List.forall₂_same]
  exact fun p hp => (hhellos p hp).standsFor node

end

/-! ### Name servers and links -/

/-- Name servers, and the datagrams in flight to the control port of one from that of another. -/
structure Mesh (I T : Type) where
  server : I → Ns T
  inbox : I → I → List (List UInt8)

section

variable {I T : Type}

/-- The node of a name server. -/
def Mesh.node (m : Mesh I T) (i : I) : UInt32 := (m.server i).localNode

section

variable [MapOps T Server]

/-- What one name server holds of the node of another. -/
def Mesh.view (m : Mesh I T) (j i : I) : Roster := (m.server j).server (m.node i)

/-- The servers of a node. -/
def Mesh.own (m : Mesh I T) (i : I) : Roster := m.view i i

end

variable [DecidableEq I]

/-- The mesh with other datagrams in flight to `i` from `k`. -/
def Mesh.setInbox (m : Mesh I T) (i k : I) (datagrams : List (List UInt8)) : Mesh I T :=
  { m with inbox := fun a b => if a = i ∧ b = k then datagrams else m.inbox a b }

variable [MapOps T Server]

/-- A name server handles a datagram, and what it sends to the others is in flight. -/
def Mesh.handle (m : Mesh I T) (i : I) (e : Event) : Mesh I T where
  server := Function.update m.server i (nsStep (m.server i) e).1
  inbox a b :=
    if b = i ∧ a ≠ i then m.inbox a i ++ carried (m.server i) e (m.node a) else m.inbox a b

/-- A node goes down and comes up. Of what is in flight from it, `sent` is left and was sent since; of what is
    in flight to it, `late` arrives after it has come up. -/
def Mesh.restart (m : Mesh I T) (i : I) (sent late : I → List (List UInt8)) : Mesh I T where
  server := Function.update m.server i (nsInit (m.server i).order (m.node i))
  inbox a b := if b = i then sent a else if a = i then late b else m.inbox a b

variable [LawfulMap T Server]

/-- A mesh that comes about from name servers that have just said hello. The relation holds of `a` and `b` if
    `a` has handled a HELLO of `b` since `b` came up, or came up itself since then. -/
inductive Meshed : (I → I → Prop) → Mesh I T → Prop where
  | start {m : Mesh I T} (servers : ∀ i, ∃ order node, m.server i = nsInit order node)
      (apart : Function.Injective m.node) (unicast : ∀ i, m.node i ≠ qrtrNodeBcast)
      (hellos : ∀ i k, ∀ p ∈ m.inbox i k, IsHello p) : Meshed (fun _ _ => True) m
  | client {informed : I → I → Prop} {m : Mesh I T} (i : I) {e : Event} (h : Meshed informed m)
      (smooth : e.Smooth) (plain : (m.server i).Plain ((m.server i).action e))
      (own : e.sq.node = m.node i) (client : e.sq.port ≠ qrtrPortCtrl) : Meshed informed (m.handle i e)
  | deliver {informed : I → I → Prop} {m : Mesh I T} {i k : I} {e : Event} {rest : List (List UInt8)}
      (h : Meshed informed m) (apart : k ≠ i) (smooth : e.Smooth)
      (plain : (m.server i).Plain ((m.server i).action e)) (running : (m.server i).sockOpen = true)
      (flight : m.inbox i k = e.datagram :: rest) (sender : e.sq = (m.server k).ctrlSq) :
      Meshed (fun a b => informed a b ∨ a = i ∧ b = k ∧ IsHello e.datagram)
        ((m.setInbox i k rest).handle i e)
  | restart {informed : I → I → Prop} {m : Mesh I T} (i : I) {kept late : I → List (List UInt8)}
      {bye : I → List UInt8} (h : Meshed informed m) (sent : ∀ j, kept j <+: m.inbox j i)
      (rest : ∀ k, late k <:+ m.inbox i k) (byes : ∀ j, IsBye (bye j)) :
      Meshed (fun a b => a = i ∨ b ≠ i ∧ informed a b)
        (m.restart i (fun j => kept j ++ [bye j, helloPkt (m.server i).order]) late)

end

/-! ### What a step leaves -/

section

variable {I T : Type} [DecidableEq I]

theorem Mesh.inbox_setInbox (m : Mesh I T) (i k : I) (datagrams : List (List UInt8)) :
    (m.setInbox i k datagrams).inbox i k = datagrams := if_pos ⟨rfl, rfl⟩

theorem Mesh.inbox_setInbox_of_ne (m : Mesh I T) {i k a b : I} (hne : ¬ (a = i ∧ b = k))
    (datagrams : List (List UInt8)) : (m.setInbox i k datagrams).inbox a b = m.inbox a b := if_neg hne

variable [MapOps T Server]

theorem Mesh.server_handle (m : Mesh I T) (i : I) (e : Event) :
    (m.handle i e).server i = (nsStep (m.server i) e).1 := Function.update_self ..

theorem Mesh.server_handle_of_ne (m : Mesh I T) {i j : I} (hne : j ≠ i) (e : Event) :
    (m.handle i e).server j = m.server j := Function.update_of_ne hne ..

theorem Mesh.inbox_handle (m : Mesh I T) {i j : I} (hne : j ≠ i) (e : Event) :
    (m.handle i e).inbox j i = m.inbox j i ++ carried (m.server i) e (m.node j) := if_pos ⟨rfl, hne⟩

theorem Mesh.inbox_handle_of_ne (m : Mesh I T) {i k : I} (hne : k ≠ i) (j : I) (e : Event) :
    (m.handle i e).inbox j k = m.inbox j k := if_neg fun h => hne h.1

theorem nsInit_server (order : HostOrder) (localNode n q : UInt32) :
    (nsInit order localNode : Ns T).server n q = none := rfl

theorem Mesh.server_restart (m : Mesh I T) (i : I) (sent late : I → List (List UInt8)) :
    (m.restart i sent late).server i = nsInit (m.server i).order (m.node i) := Function.update_self ..

theorem Mesh.server_restart_of_ne (m : Mesh I T) {i j : I} (hne : j ≠ i)
    (sent late : I → List (List UInt8)) : (m.restart i sent late).server j = m.server j :=
  Function.update_of_ne hne ..

theorem Mesh.node_restart (m : Mesh I T) (i : I) (sent late : I → List (List UInt8)) :
    (m.restart i sent late).node = m.node := by
  funext j
  by_cases hj : j = i
  · rw [hj, node, server_restart]
    rfl
  · rw [node, server_restart_of_ne m hj]
    rfl

variable [LawfulMap T Server]

/-- What holds of every mesh: each name server is in order, their nodes are different, and servers are known
    of these nodes only. -/
structure Mesh.Inv (m : Mesh I T) : Prop where
  inv : ∀ i, (m.server i).Inv
  distinct : ∀ i, (m.server i).Distinct
  clients : ∀ i, (m.server i).ClientsApart
  apart : Function.Injective m.node
  unicast : ∀ i, m.node i ≠ qrtrNodeBcast
  known : ∀ j n q srv, (m.server j).server n q = some srv → ∃ i, m.node i = n

/-- The datagram comes from one of the nodes, not from the own control port, and nothing fails. -/
structure Mesh.Admits (m : Mesh I T) (i : I) (e : Event) : Prop where
  smooth : e.Smooth
  plain : (m.server i).Plain ((m.server i).action e)
  elsewhere : e.sq ≠ (m.server i).ctrlSq
  sender : ∃ k, e.sq.node = m.node k

variable {m : Mesh I T} {i : I} {e : Event}

theorem Mesh.Inv.setInbox (h : m.Inv) (i k : I) (datagrams : List (List UInt8)) :
    (m.setInbox i k datagrams).Inv := ⟨h.inv, h.distinct, h.clients, h.apart, h.unicast, h.known⟩

theorem Mesh.Inv.node_handle (h : m.Inv) (i : I) (e : Event) : (m.handle i e).node = m.node := by
  funext j
  by_cases hj : j = i
  · subst hj
    rw [node, server_handle]
    exact (nsStep_frame (h.inv j).nodesOk (h.inv j).ok e).2.1
  · rw [node, server_handle_of_ne m hj]
    rfl

theorem Mesh.Inv.view_handle (h : m.Inv) (i : I) (e : Event) (k : I) :
    (m.handle i e).view i k = (nsStep (m.server i) e).1.server (m.node k) := by
  rw [view, server_handle, h.node_handle]

theorem Mesh.Inv.view_handle_of_ne (h : m.Inv) {j : I} (hne : j ≠ i) (e : Event) (k : I) :
    (m.handle i e).view j k = m.view j k := by
  rw [view, server_handle_of_ne m hne, h.node_handle]
  rfl

omit [DecidableEq I] in
/-- A datagram changes what is known of the node of its sender, as its action says. -/
theorem Mesh.Inv.server_step (h : m.Inv) (he : m.Admits i e) (n : UInt32) :
    (nsStep (m.server i) e).1.server n =
      ((m.server i).action e).roster n ((m.server i).server n) := by
  obtain ⟨-, hserver, -⟩ :=
    nsStep_refines (h.inv i).toTablesOk (h.distinct i) he.plain he.smooth.allocs
  rw [hserver, Action.servers_eq_roster]

omit [DecidableEq I] in
theorem Mesh.Inv.server_step_of_ne (h : m.Inv) (he : m.Admits i e) {n : UInt32} (hne : n ≠ e.sq.node) :
    (nsStep (m.server i) e).1.server n = (m.server i).server n := by
  rw [h.server_step he, ← Action.servers_eq_roster]
  exact Action.servers_of_checked ((m.server i).action_checked e) hne _

theorem Mesh.Inv.view_handle_other (h : m.Inv) (he : m.Admits i e) {k : I} (hne : m.node k ≠ e.sq.node) :
    (m.handle i e).view i k = m.view i k := by
  rw [h.view_handle, h.server_step_of_ne he hne]
  rfl

theorem Mesh.Inv.handle (h : m.Inv) (he : m.Admits i e) : (m.handle i e).Inv where
  inv := (Function.forall_update_iff m.server fun _ s => s.Inv).2
    ⟨(h.inv i).step e, fun j _ => h.inv j⟩
  distinct := (Function.forall_update_iff m.server fun _ s => s.Distinct).2
    ⟨(nsStep_refines (h.inv i).toTablesOk (h.distinct i) he.plain he.smooth.allocs).1,
      fun j _ => h.distinct j⟩
  clients := (Function.forall_update_iff m.server fun _ s => s.ClientsApart).2
    ⟨(h.clients i).step (h.inv i).toTablesOk he.elsewhere, fun j _ => h.clients j⟩
  apart := h.node_handle i e ▸ h.apart
  unicast := h.node_handle i e ▸ h.unicast
  known := by
    rw [h.node_handle]
    refine (Function.forall_update_iff m.server
      fun _ s => ∀ n q srv, s.server n q = some srv → ∃ i, m.node i = n).2 ⟨?_, fun j _ => h.known j⟩
    intro n q srv hsrv
    by_cases hn : n = e.sq.node
    · obtain ⟨k, hk⟩ := he.sender
      exact ⟨k, hk.symm.trans hn.symm⟩
    · rw [h.server_step_of_ne he hn] at hsrv
      exact h.known i n q srv hsrv

theorem Mesh.Inv.restart (h : m.Inv) (i : I) (sent late : I → List (List UInt8)) :
    (m.restart i sent late).Inv where
  inv := (Function.forall_update_iff m.server fun _ s => s.Inv).2
    ⟨.init .., fun j _ => h.inv j⟩
  distinct := (Function.forall_update_iff m.server fun _ s => s.Distinct).2
    ⟨.init _ _, fun j _ => h.distinct j⟩
  clients := (Function.forall_update_iff m.server fun _ s => s.ClientsApart).2
    ⟨Ns.ClientsApart.init .., fun j _ => h.clients j⟩
  apart := m.node_restart i sent late ▸ h.apart
  unicast := m.node_restart i sent late ▸ h.unicast
  known := by
    rw [m.node_restart]
    refine (Function.forall_update_iff m.server
      fun _ s => ∀ n q srv, s.server n q = some srv → ∃ i, m.node i = n).2 ⟨?_, fun j _ => h.known j⟩
    intro n q srv hsrv
    rw [nsInit_server] at hsrv
    cases hsrv

/-! ### Every mesh -/

omit [DecidableEq I] in
/-- A datagram delivered from another name server. -/
theorem Mesh.Inv.admits (h : m.Inv) {k : I} (hne : k ≠ i) (smooth : e.Smooth)
    (plain : (m.server i).Plain ((m.server i).action e)) (sender : e.sq = (m.server k).ctrlSq) :
    m.Admits i e where
  smooth := smooth
  plain := plain
  elsewhere heq := hne (h.apart (congrArg Sockaddr.node (sender.symm.trans heq)))
  sender := ⟨k, congrArg Sockaddr.node sender⟩

omit [DecidableEq I] in
/-- A datagram from another name server makes one send to no third, and to that one only if it is a
    HELLO. -/
theorem Mesh.Inv.carried_eq_nil (h : m.Inv) {j k : I} (he : m.Admits i e) (hne : k ≠ i)
    (sender : e.sq = (m.server k).ctrlSq) (hnot : ¬ (j = k ∧ IsHello e.datagram)) :
    carried (m.server i) e (m.node j) = [] := by
  have hs := (h.inv i).toTablesOk
  rw [carried_eq_linkPart he.smooth]
  by_cases hrunning : (m.server i).sockOpen = true
  · by_cases hhello : IsHello e.datagram
    · have hgoes : ∀ msg : Msg, msg.dest = e.sq → ¬ msg.goesTo (m.node j) = true := by
        intro msg hdest hgoes
        rw [Msg.goesTo, hdest, sender, Bool.or_eq_true, beq_iff_eq, beq_iff_eq] at hgoes
        rcases hgoes with hbcast | hpeer
        · exact h.unicast k (congrArg Sockaddr.node hbcast)
        · exact hnot ⟨(h.apart (congrArg Sockaddr.node hpeer)).symm, hhello⟩
      rw [nsStep_hello hs hrunning hhello he.smooth.allocs he.smooth.sends, linkPart,
        List.map_eq_nil_iff, List.filter_eq_nil_iff]
      intro msg hmsg
      rcases List.mem_cons.1 hmsg with rfl | htold
      · exact hgoes _ rfl
      · obtain ⟨srv, -, rfl⟩ := List.mem_map.1 htold
        exact hgoes _ rfl
    · have hremote : e.sq.node ≠ (m.server i).localNode := by
        rw [sender]
        exact fun heq => hne (h.apart heq)
      have ha : (m.server i).action e ≠ .hello := by
        rw [Ns.action, if_pos hrunning]
        exact fun haction => hhello ((e.action_eq_hello_iff _).1 haction)
      obtain ⟨⟨rc, hhappens⟩, -⟩ := nsStep_happens hs.nodesOk hs.ok e
      have hafter := (h.clients i).step hs he.elsewhere
      refine linkPart_eq_nil (hhappens.remote_stays hs (h.clients i) ?_ hremote
        ((m.server i).action_checked e) ha)
      intro k srv hentry
      rw [← (nsStep_frame hs.nodesOk hs.ok e).2.1] at hentry
      exact hafter.servers hentry
  · rw [nsStep, if_neg hrunning]
    rfl

omit [DecidableEq I] in
/-- What a client of its node makes a name server tell the others repeats what happens to its table. -/
theorem Mesh.Inv.repeats_client (h : m.Inv) (he : m.Admits i e) (own : e.sq.node = m.node i)
    (client : e.sq.port ≠ qrtrPortCtrl) (peer : UInt32) :
    Repeats (m.node i) (m.own i) ((nsStep (m.server i) e).1.server (m.node i))
      (carried (m.server i) e peer) False := by
  have hs := (h.inv i).toTablesOk
  obtain ⟨⟨rc, hhappens⟩, -⟩ := nsStep_happens hs.nodesOk hs.ok e
  obtain ⟨-, hserver, -⟩ := nsStep_refines hs (h.distinct i) he.plain he.smooth.allocs
  have hafter := (h.clients i).step hs he.elsewhere
  have htells := hhappens.tells hs (h.distinct i) (h.clients i)
    (by
      intro k srv hentry
      rw [← (nsStep_frame hs.nodesOk hs.ok e).2.1] at hentry
      exact hafter.servers hentry)
    ((m.server i).action_checked e) he.smooth own client peer
  rw [← carried_eq_linkPart he.smooth, ← hserver] at htells
  exact htells.repeats

/-- What a datagram of another name server makes one tell: nothing, or everything afresh if it is a
    HELLO. -/
theorem Mesh.Inv.repeats_delivery (h : m.Inv) {j k : I} (he : m.Admits i e) (hne : k ≠ i)
    (running : (m.server i).sockOpen = true) (sender : e.sq = (m.server k).ctrlSq) :
    Repeats (m.node i) (m.own i) ((nsStep (m.server i) e).1.server (m.node i))
      (carried (m.server i) e (m.node j)) (j = k ∧ IsHello e.datagram) := by
  have hs := (h.inv i).toTablesOk
  have hsame : (nsStep (m.server i) e).1.server (m.node i) = m.own i := by
    apply h.server_step_of_ne he
    rw [sender]
    exact fun heq => hne (h.apart heq).symm
  rw [hsame]
  by_cases hboth : j = k ∧ IsHello e.datagram
  · obtain ⟨rfl, hhello⟩ := hboth
    have hvalid : ∀ srv ∈ forEach ((m.server i).services (m.server i).localNode),
        srv.service ≠ 0 ∧ srv.port ≠ 0 := by
      intro srv hsrv
      obtain ⟨k, hentry⟩ := mem_forEach.1 hsrv
      exact (h.inv i).nonzero hentry
    have hsq : e.sq = { node := m.node j, port := qrtrPortCtrl } := sender
    rw [carried_hello hs he.smooth running hhello hsq, eq_true hhello, eq_self, and_true]
    exact repeats_of_all hhello.take (fun srv => mem_forEach_server hs (h.distinct i))
      (fun q srv hsrv => hs.server_node_port hsrv) hvalid
  · rw [h.carried_eq_nil he hne sender hboth]
    exact ⟨[], .nil, fun f hf => ⟨hf, fun hwhole => hwhole.resolve_left hboth⟩⟩

/-- A step of `i` that tells the others what it does keeps every copy behind its original, except those of
    `i` that it changes. -/
theorem Mesh.Inv.follows_handle (h : m.Inv) (he : m.Admits i e) {fresh : I → Prop}
    (hrepeats : ∀ b, Repeats (m.node i) (m.own i) ((nsStep (m.server i) e).1.server (m.node i))
      (carried (m.server i) e (m.node b)) (fresh b)) {a b : I} (hab : a ≠ b)
    (hother : b = i → m.node a ≠ e.sq.node) {whole : Prop}
    (hf : Tracks (m.node a) whole (m.inbox b a) (m.view b a) (m.own a)) :
    Tracks ((m.handle i e).node a) (whole ∨ a = i ∧ fresh b) ((m.handle i e).inbox b a)
      ((m.handle i e).view b a) ((m.handle i e).own a) := by
  have hview : (m.handle i e).view b a = m.view b a := by
    by_cases hb : b = i
    · rw [hb]
      exact h.view_handle_other he (hother hb)
    · exact h.view_handle_of_ne hb e a
  rw [hview, h.node_handle]
  by_cases ha : a = i
  · subst ha
    rw [Mesh.own, h.view_handle, m.inbox_handle hab.symm]
    exact (hf.push (hrepeats b)).imp (Or.imp_right And.right)
  · rw [Mesh.own, h.view_handle_of_ne ha, m.inbox_handle_of_ne ha]
    exact hf.imp fun hwhole => hwhole.resolve_right fun hi => ha hi.1

/-- The invariant of a mesh: every name server follows every other. -/
structure Mesh.Following (informed : I → I → Prop) (m : Mesh I T) : Prop extends m.Inv where
  follows : ∀ a b, a ≠ b →
    Tracks (m.node a) (informed a b) (m.inbox b a) (m.view b a) (m.own a)

theorem Mesh.Following.client {informed : I → I → Prop} (h : m.Following informed)
    (he : m.Admits i e) (own : e.sq.node = m.node i) (client : e.sq.port ≠ qrtrPortCtrl) :
    (m.handle i e).Following informed := by
  refine ⟨h.toInv.handle he, fun a b hab => ?_⟩
  refine (h.follows_handle he (fun b => h.repeats_client he own client (m.node b)) hab ?_
    (h.follows a b hab)).imp Or.inl
  intro hb heq
  exact hab (h.apart (heq.trans (own.trans (hb ▸ rfl))))

theorem Mesh.Following.deliver {informed : I → I → Prop} (h : m.Following informed) {k : I}
    {rest : List (List UInt8)} (hne : k ≠ i) (he : m.Admits i e)
    (running : (m.server i).sockOpen = true) (flight : m.inbox i k = e.datagram :: rest)
    (sender : e.sq = (m.server k).ctrlSq) :
    ((m.setInbox i k rest).handle i e).Following
      fun a b => informed a b ∨ a = i ∧ b = k ∧ IsHello e.datagram := by
  have hset : (m.setInbox i k rest).Inv := h.toInv.setInbox i k rest
  have he' : (m.setInbox i k rest).Admits i e := ⟨he.smooth, he.plain, he.elsewhere, he.sender⟩
  refine ⟨hset.handle he', fun a b hab => ?_⟩
  by_cases hlink : b = i ∧ a = k
  · obtain ⟨rfl, rfl⟩ := hlink
    have hflight := h.follows a b hab
    rw [flight] at hflight
    obtain ⟨action, hstands, hrest⟩ := hflight.pop
    have haction : (m.server b).action e = action := by
      rw [Ns.action, if_pos running]
      exact (hstands e _ rfl sender fun heq => hne (h.apart heq)).1
    rw [hset.node_handle, Mesh.inbox_handle_of_ne _ hne, Mesh.inbox_setInbox, hset.view_handle,
      hset.server_step he', Mesh.own, hset.view_handle_of_ne hne]
    have hview : ((m.setInbox b a rest).server b).action e = action := haction
    rw [hview]
    exact hrest.imp fun hwhole => hwhole.resolve_right fun hback => hne hback.1
  · refine hset.follows_handle he' (fun j => hset.repeats_delivery he' hne running sender) hab ?_ ?_
    · intro hb heq
      rw [sender] at heq
      exact hlink ⟨hb, h.apart heq⟩
    · rw [Mesh.inbox_setInbox_of_ne m hlink]
      exact h.follows a b hab

theorem Mesh.Following.restart {informed : I → I → Prop} (h : m.Following informed) (i : I)
    {kept late : I → List (List UInt8)} {bye : I → List UInt8} (hkept : ∀ j, kept j <+: m.inbox j i)
    (hlate : ∀ k, late k <:+ m.inbox i k) (hbye : ∀ j, IsBye (bye j)) {hello : List UInt8}
    (hhello : IsHello hello) :
    (m.restart i (fun j => kept j ++ [bye j, hello]) late).Following
      fun a b => a = i ∨ b ≠ i ∧ informed a b := by
  refine ⟨h.toInv.restart i _ _, fun a b hab => ?_⟩
  rw [Mesh.own, Mesh.view, Mesh.view, Mesh.node_restart]
  by_cases ha : a = i
  · subst ha
    have hown : ((m.restart a (fun j => kept j ++ [bye j, hello]) late).server a).server (m.node a) =
        (⊥ : Roster) := by
      rw [Mesh.server_restart]
      exact funext fun q => nsInit_server ..
    have hinbox : (m.restart a (fun j => kept j ++ [bye j, hello]) late).inbox b a =
        kept b ++ [bye b, hello] := if_pos rfl
    rw [hown, Mesh.server_restart_of_ne m hab.symm, hinbox]
    exact ((h.follows a b hab).wipe (hkept b) (hbye b) hhello).imp fun _ => trivial
  · rw [Mesh.server_restart_of_ne m ha]
    by_cases hb : b = i
    · subst hb
      have hview : ((m.restart b (fun j => kept j ++ [bye j, hello]) late).server b).server (m.node a) =
          (⊥ : Roster) := by
        rw [Mesh.server_restart]
        exact funext fun q => nsInit_server ..
      have hinbox : (m.restart b (fun j => kept j ++ [bye j, hello]) late).inbox b a = late a :=
        (if_neg ha).trans (if_pos rfl)
      rw [hview, hinbox]
      exact ((h.follows a b hab).restart (hlate a)).imp fun hinf => hinf.elim ha fun hnot => hnot.1 rfl
    · have hinbox : (m.restart i (fun j => kept j ++ [bye j, hello]) late).inbox b a = m.inbox b a :=
        (if_neg ha).trans (if_neg hb)
      rw [Mesh.server_restart_of_ne m hb, hinbox]
      exact (h.follows a b hab).imp fun hinf => (hinf.resolve_left ha).2

theorem Meshed.following {informed : I → I → Prop} (h : Meshed informed m) : m.Following informed := by
  induction h with
  | @start m servers apart unicast hellos =>
      have hempty : ∀ j n q, (m.server j).server n q = none := fun j n q => by
        obtain ⟨order, node, hserver⟩ := servers j
        rw [hserver, nsInit_server]
      refine ⟨⟨fun j => ?_, fun j => ?_, fun j => ?_, apart, unicast, ?_⟩, fun a b _ => ?_⟩
      · obtain ⟨order, node, hserver⟩ := servers j
        rw [hserver]
        exact .init order node
      · obtain ⟨order, node, hserver⟩ := servers j
        rw [hserver]
        exact .init order node
      · obtain ⟨order, node, hserver⟩ := servers j
        rw [hserver]
        exact Ns.ClientsApart.init order node
      · intro j n q srv hsrv
        rw [hempty] at hsrv
        cases hsrv
      · have hview : m.view b a = m.own a := funext fun q => (hempty b _ q).trans (hempty a _ q).symm
        rw [hview]
        exact .of_hellos (hellos b a) _
  | @client informed m i e _ smooth plain own client ih =>
      refine ih.client ⟨smooth, plain, ?_, i, own⟩ own client
      exact fun heq => client (congrArg Sockaddr.port heq)
  | @deliver informed m i k e rest _ apart smooth plain running flight sender ih =>
      exact ih.deliver apart (ih.admits apart smooth plain sender) running flight sender
  | @restart informed m i kept late bye _ sent rest byes ih =>
      exact ih.restart i sent rest byes (isHello_helloPkt _)

end

/-! ### What is known in the end -/

/-- Nothing is in flight. -/
theorem Tracks.nil {node : UInt32} {whole : Prop} {copy original : Roster}
    (h : Tracks node whole [] copy original) : copy ≤ original ∧ (whole → copy = original) := by
  obtain ⟨actions, hstands, hbehind⟩ := h
  cases hstands
  exact ⟨hbehind.below, hbehind.equal⟩

/-- A HELLO stands for nothing else. -/
theorem IsHello.eq_of_standsFor {p : List UInt8} (hhello : IsHello p) {node : UInt32} {a : Action}
    (h : StandsFor node p a) : a = .hello := by
  obtain ⟨e, he⟩ : ∃ e : Event, e =
      { sq := { node := node, port := qrtrPortCtrl }, datagram := p, stale := fun _ => 0,
        stack := fun _ => 0, allocs := [], sends := [] } := ⟨_, rfl⟩
  have hdatagram : e.datagram = p := by rw [he]
  have hsq : e.sq = { node := node, port := qrtrPortCtrl } := by rw [he]
  have hne : node ≠ node + 1 := by simp
  rw [← (h e _ hdatagram hsq hne).1, Event.action_eq_hello_iff, hdatagram]
  exact hhello

/-- Only HELLOs are in flight. -/
theorem Tracks.hellos {node : UInt32} {whole : Prop} {datagrams : List (List UInt8)} {copy original : Roster}
    (h : Tracks node whole datagrams copy original) (hhellos : ∀ p ∈ datagrams, IsHello p) :
    copy ≤ original ∧ (whole → copy = original) := by
  induction datagrams generalizing copy with
  | nil => exact h.nil
  | cons p datagrams ih =>
      obtain ⟨hhello, hrest⟩ := List.forall_mem_cons.1 hhellos
      obtain ⟨a, hstands, hpop⟩ := h.pop
      rw [hhello.eq_of_standsFor hstands] at hpop
      exact ih hpop hrest

section

variable {T : Type} [MapOps T Server] [LawfulMap T Server]

/-- A running name server that handles what is in flight from a node follows that node to the end. -/
theorem Tracks.final {node : UInt32} {whole : Prop} {original : Roster} {events : List Event} {s : Ns T}
    (h : Tracks node whole (events.map Event.datagram) (s.server node) original)
    (hsq : ∀ e ∈ events, e.sq = { node := node, port := qrtrPortCtrl }) (hsmooth : ∀ e ∈ events, e.Smooth)
    (hplain : Run.Guarded (fun s e => s.Plain (s.action e)) nsStep s events) (hs : s.TablesOk)
    (hd : s.Distinct) (hopen : s.sockOpen = true) (hne : node ≠ s.localNode) :
    Tracks node whole [] ((Run.final nsStep s events).server node) original := by
  induction events generalizing s with
  | nil => exact h
  | cons e events ih =>
      obtain ⟨hsq₁, hsq₂⟩ := List.forall_mem_cons.1 hsq
      obtain ⟨hsmooth₁, hsmooth₂⟩ := List.forall_mem_cons.1 hsmooth
      obtain ⟨a, hstands, hpop⟩ := h.pop
      obtain ⟨haction, hreceived⟩ := hstands e s.localNode rfl hsq₁ hne
      obtain ⟨hd', hserver, -⟩ := nsStep_refines hs hd hplain.1 hsmooth₁.allocs
      obtain ⟨-, hnode, hstays⟩ := nsStep_frame hs.nodesOk hs.ok e
      refine ih ?_ hsq₂ hsmooth₂ hplain.2 (hs.step e) hd' ((hstays hreceived).trans hopen) (hnode ▸ hne)
      rw [hserver, Action.servers_eq_roster, Ns.action, if_pos hopen, haction]
      exact hpop

variable {I : Type}

/-- The datagrams in flight to `j` from `i`, as they will be handled one after the other. -/
structure Mesh.InFlight (m : Mesh I T) (j i : I) (events : List Event) : Prop where
  datagrams : events.map Event.datagram = m.inbox j i
  sender : ∀ e ∈ events, e.sq = (m.server i).ctrlSq
  smooth : ∀ e ∈ events, e.Smooth
  plain : Run.Guarded (fun s e => s.Plain (s.action e)) nsStep (m.server j).running events

/-- Once what is in flight from another has been handled, a name server holds nothing of its node that it does
    not have, and all of it where it is informed. With nothing but HELLOs in flight it does so already. -/
structure Mesh.Agreement (informed : I → I → Prop) (m : Mesh I T) : Prop where
  submap : ∀ i j, i ≠ j → ∀ events, m.InFlight j i events → ∀ q srv,
    (Run.final nsStep (m.server j).running events).server (m.node i) q = some srv → m.own i q = some srv
  equal : ∀ i j, i ≠ j → informed i j → ∀ events, m.InFlight j i events →
    (Run.final nsStep (m.server j).running events).server (m.node i) = m.own i
  quiet : ∀ i j, i ≠ j → informed i j → (∀ p ∈ m.inbox j i, IsHello p) → m.view j i = m.own i

/-- Whatever the clients of any number of name servers do, in whatever order what is in flight between them
    arrives, and whichever nodes go down and come up again, they agree. -/
theorem mesh_agreement [DecidableEq I] {informed : I → I → Prop} {m : Mesh I T} (h : Meshed informed m) :
    m.Agreement informed := by
  have hm := h.following
  have hfinal : ∀ i j, i ≠ j → ∀ events, m.InFlight j i events →
      (Run.final nsStep (m.server j).running events).server (m.node i) ≤ m.own i ∧
        (informed i j → (Run.final nsStep (m.server j).running events).server (m.node i) = m.own i) := by
    intro i j hij events hflight
    have hfollows := hm.follows i j hij
    rw [← hflight.datagrams] at hfollows
    have hs := (hm.inv j).toTablesOk
    exact (hfollows.final (s := (m.server j).running) hflight.sender hflight.smooth hflight.plain
      ⟨hs.nodesOk, hs.ok, hs.keyed⟩ (hm.distinct j) rfl fun heq => hij (hm.apart heq)).nil
  exact ⟨fun i j hij events hflight => (hfinal i j hij events hflight).1,
    fun i j hij hinformed events hflight => (hfinal i j hij events hflight).2 hinformed,
    fun i j hij hinformed hhellos => ((hm.follows i j hij).hellos hhellos).2 hinformed⟩

end

/-- Three name servers that have said hello. -/
def threeGreeting : Mesh (Fin 3) (Map Server) where
  server i := nsInit .little (UInt32.ofNat (i.val + 1))
  inbox _ _ := [helloPkt .little]

/-- A client of the first registers a server. -/
def threeJoined : Mesh (Fin 3) (Map Server) :=
  threeGreeting.handle 0 (Event.ofWords { node := 1, port := 5 } [qrtrTypeNewServer, 7, 1, 1, 5])

/-- Then the node of the third goes down and comes up. -/
def threeRestarted : Mesh (Fin 3) (Map Server) :=
  threeJoined.restart 2 (fun _ => [] ++ [byePkt .little 3, helloPkt (threeJoined.server 2).order])
    fun _ => []

/-- What is in flight to the second then takes it to the server that the first has. -/
theorem mesh_agreement_restarted :
    threeRestarted.own 0 5 = some { service := 7, inst := 1, node := 1, port := 5 } ∧
      ∀ events, threeRestarted.InFlight 1 0 events →
        (Run.final nsStep (threeRestarted.server 1).running events).server (threeRestarted.node 0) =
          threeRestarted.own 0 := by
  refine ⟨by decide +kernel, ?_⟩
  have hapart : ∀ i j, threeGreeting.node i = threeGreeting.node j → i = j := by decide
  have hstart : Meshed (fun _ _ => True) threeGreeting := by
    refine .start (fun i => ⟨_, _, rfl⟩) (fun i j => hapart i j) (by decide) fun i k p hp => ?_
    rw [List.mem_singleton.1 hp]
    exact isHello_helloPkt .little
  have hjoined : Meshed (fun _ _ => True) threeJoined :=
    hstart.client 0 ⟨rfl, rfl⟩
      (Ns.plain_of_absent (Ns.Inv.init .little 1).toTablesOk fun srv _ => rfl) rfl (by decide)
  have hbye : ∀ j : Fin 3, IsBye (byePkt .little 3) := fun j => ⟨by decide, by decide⟩
  have hrestart : Meshed (fun a b => a = 2 ∨ b ≠ 2 ∧ True) threeRestarted :=
    hjoined.restart 2 (fun j => List.nil_prefix) (fun k => List.nil_suffix) hbye
  exact (mesh_agreement hrestart).equal 0 1 (by decide) (Or.inr ⟨by decide, trivial⟩)

end Qrtr
