/-
Module: Qrtr.NameServer.Noninterference
Layer: NameServer
Purpose: What one party can do to another over a whole run. The table of a node, with its tombstones, depends
  on the datagrams of that node alone, and the lookups of an address on the datagrams from there: as long as
  these are handled by what was received, whatever else arrives, in whatever order, and whatever it leaves in
  the receive buffer might as well have stayed away.
Imports: Qrtr.NameServer.Receive, Qrtr.Foundation.Unwinding
Main exports: byeTable, Event.table, nsStep_services, Event.shows, tables_of_own, lookups_of_own
Open obligations: none
-/
import Qrtr.NameServer.Receive
import Qrtr.Foundation.Unwinding

namespace Qrtr

open MapOps LawfulMap

variable {T : Type} [MapOps T Server]

/-! ### What a datagram does to the table of its node -/

/-- The table without the server of a port, if there is one. -/
def delTable (t : T) (port : UInt32) : T :=
  if (get t (hashU32 port)).isSome then remove t (hashU32 port) else t

/-- The loop of `ctrl_cmd_bye` as far as the table is concerned. -/
def byeTable : Nat → Option Nat → T → T
  | 0, _, t => t
  | _ + 1, none, t => t
  | n + 1, some me, t =>
      match iterItem t me with
      | none => t
      | some srv => byeTable n (iterNext (delTable t srv.port) me) (delTable t srv.port)

/-- The table of the node that an event comes from, behind the event. -/
def Event.table (localNode : UInt32) (e : Event) (t : T) : T :=
  match e.action localNode with
  | .bye _ => byeTable (bound t + 1) (iterFirst t) t
  | .closePort _ p | .unregister _ p => delTable t p
  | .register srv => (reput [] t (hashU32 srv.port) srv).table
  | _ => t

theorem serverDel_services (w : Exec T) (node port : UInt32) :
    (serverDel w node port).2.services =
      Function.update w.services node (delTable (w.services node) port) := by
  cases hget : get (w.services node) (hashU32 port) with
  | none => simp [serverDel_none w node port hget, delTable, hget]
  | some srv => simp [serverDel_some w node port hget, delTable, hget]

theorem byeLoop_services (node : UInt32) :
    ∀ (n : Nat) (iter : Option Nat) (w : Exec T),
      (byeLoop node n iter w).services = Function.update w.services node (byeTable n iter (w.services node))
  | 0, _, w => by simp [byeLoop, byeTable]
  | _ + 1, none, w => by simp [byeLoop, byeTable]
  | n + 1, some me, w => by
      rw [byeLoop, byeTable]
      cases hitem : iterItem (w.services node) me with
      | none => simp
      | some srv =>
          simp only [byeLoop_services node n, serverDel_services, Function.update_self,
            Function.update_idem]

variable [LawfulMap T Server]

/-- A BYE that finds memory. -/
theorem ctrlCmdBye_services {w : Exec T} (h : NodesOk w.nodes w.services) (ha : w.allocs = [])
    (hok : ∀ n, Ok (w.services n)) (sq : Sockaddr) :
    (ctrlCmdBye w sq).2.services = Function.update w.services sq.node
      (byeTable (bound (w.services sq.node) + 1) (iterFirst (w.services sq.node)) (w.services sq.node)) := by
  rw [ctrlCmdBye]
  rcases nodeGet_cases h sq.node with
    ⟨nodes, allocs, hgot, hnodes, hholds, -⟩ | ⟨nodes, allocs, -, -, hne⟩
  · rw [hgot]
    obtain ⟨gone, t, -, -, hloop⟩ := byeLoop_spec (w := w.renode nodes allocs) (hok sq.node)
    have hservices := byeLoop_services sq.node (bound (w.services sq.node) + 1)
      (iterFirst (w.services sq.node)) (w.renode nodes allocs)
    obtain ⟨nodes', allocs', told, hstate, -⟩ := propagate_cases
      (w := ((w.renode nodes allocs).setTable sq.node t).sendAll (gone.flatMap (w.renode nodes allocs).delMsgs))
      (hnodes.update hholds t) (.bye sq.node) (fun w => byePkt w.order sq.node) (fun _ _ => rfl)
    have htable : ((w.renode nodes allocs).setTable sq.node t).services = _ :=
      (congrArg (fun w : Exec T => w.services) hloop).symm.trans hservices
    dsimp only
    rw [hloop]
    exact (congrArg (fun r => r.2.services) hstate).trans htable
  · exact absurd ha hne

omit [LawfulMap T Server] in
/-- Only a BYE asks for the end of a node. -/
theorem Event.bye_of_action {e : Event} {localNode n : UInt32} (h : e.action localNode = .bye n) :
    4 ≤ e.received.length ∧ e.word 0 = qrtrTypeBye := by
  rw [Event.action] at h
  by_cases hshort : e.received.length < 4
  · rw [if_pos hshort] at h
    cases h
  rw [if_neg hshort] at h
  by_cases hbye : e.word 0 = qrtrTypeBye
  · exact ⟨Nat.not_lt.1 hshort, hbye⟩
  rw [if_neg hbye] at h
  simp only [Event.delClientAction, Event.newServerAction, Event.delServerAction, Event.newLookupAction] at h
  split_ifs at h

/-- A step on a BYE that finds memory. -/
theorem nsStep_services_bye {s : Ns T} (hs : s.TablesOk) (running : s.sockOpen = true) {e : Event}
    (ha : e.allocs = []) {n : UInt32} (hbye : e.action s.localNode = .bye n) :
    (nsStep s e).1.services =
      Function.update s.services e.sq.node (e.table s.localNode (s.services e.sq.node)) := by
  obtain ⟨hlen, hcmd⟩ := Event.bye_of_action hbye
  have hempty : e.received.length ≠ 0 := by omega
  have hhello : qrtrTypeBye ≠ qrtrTypeHello := by decide
  have hrec : e.datagram.take 4096 = e.received := rfl
  have hword : ctrlWord (s.exec e).order (e.stale.write 0 e.received) 0 = e.word 0 := ctrlWord_eq _ _ 0
  rw [Event.table, hbye, nsStep, if_pos running]
  simp only [ctrlPortFn, hrec, hword, hcmd, if_neg hempty, if_neg (Nat.not_lt.2 hlen), if_neg hhello, if_true]
  exact ctrlCmdBye_services (w := s.exec e) hs.nodesOk ha hs.ok e.sq

/-- What a step that finds memory does to the tables: it changes that of the node that the datagram comes from,
    and how depends on nothing else. -/
theorem nsStep_services {s : Ns T} (hs : s.TablesOk) (running : s.sockOpen = true) {e : Event}
    (ha : e.allocs = []) :
    (nsStep s e).1.services =
      Function.update s.services e.sq.node (e.table s.localNode (s.services e.sq.node)) := by
  have haction : s.action e = e.action s.localNode := if_pos running
  by_cases hbye : ∃ n, e.action s.localNode = .bye n
  · exact nsStep_services_bye hs running ha hbye.choose_spec
  obtain ⟨⟨rc, hhappens⟩, -⟩ := nsStep_happens hs.nodesOk hs.ok e
  have hchecked := s.action_checked e
  rw [Event.table]
  rw [haction] at hhappens hchecked
  generalize (nsStep s e).1.services = services at hhappens
  generalize (nsStep s e).1.lookups = lookups at hhappens
  generalize (nsStep s e).2 = msgs at hhappens
  generalize e.action s.localNode = a at hbye hhappens hchecked
  cases hhappens with
  | nothing why =>
      rcases why with rfl | hfails | ⟨n, p, rfl, hnone⟩
      · exact (Function.update_eq_self _ _).symm
      · exact absurd ha hfails
      · obtain rfl := hchecked.1
        simp [delTable, hnone]
  | hello first all hrc => exact (Function.update_eq_self _ _).symm
  | bye removal complete tell all => exact absurd ⟨_, rfl⟩ hbye
  | closePort removal tell all =>
      obtain rfl := hchecked.1
      cases removal with
      | kept why => simp [delTable, why.resolve_left (not_not.2 ha)]
      | gone found => simp [delTable, found]
  | @register srv plan _ hplan hput hrc =>
      have hnode : srv.node = e.sq.node := hchecked.1
      rw [hplan ha, hnode]
  | unregister found =>
      obtain rfl := hchecked.1
      simp [delTable, found]
  | watch hreply => exact (Function.update_eq_self _ _).symm
  | unwatch => exact (Function.update_eq_self _ _).symm

/-! ### Whole runs -/

/-- The invariant of the registry, at a name server on the node. -/
def Ns.Stands (localNode : UInt32) (s : Ns T) : Prop := s.Inv ∧ s.localNode = localNode

/-- What a datagram shows of some senders: itself, if it comes from one of them or is empty, which closes the
    socket. -/
def Event.shows (who : Sockaddr → Prop) [DecidablePred who] (e : Event) :
    Option (Sockaddr × List UInt8) :=
  if who e.sq ∨ e.datagram = [] then some (e.sq, e.datagram) else none

/-- Memory suffices, and what some senders say is handled by what was received. -/
def Event.Clear (localNode : UInt32) (who : Sockaddr → Prop) (e : Event) : Prop :=
  e.allocs = [] ∧ (who e.sq → e.Settled localNode)

section

variable {who : Sockaddr → Prop} [DecidablePred who] {e e' : Event} {p : Sockaddr × List UInt8}

theorem Event.of_shows (h : e.shows who = some p) :
    (who e.sq ∨ e.datagram = []) ∧ p = (e.sq, e.datagram) := by
  rw [Event.shows] at h
  split at h
  · exact ⟨‹_›, (Option.some.inj h).symm⟩
  · cases h

theorem Event.of_shows_none (h : e.shows who = none) : ¬ who e.sq ∧ e.datagram ≠ [] := by
  rw [Event.shows] at h
  split at h
  · cases h
  · exact not_or.1 ‹_›

/-- An empty datagram is too short for a command. -/
theorem Event.Clear.settled {localNode : UInt32} (h : e.Clear localNode who) (hshows : e.shows who = some p) :
    e.Settled localNode := by
  rcases (Event.of_shows hshows).1 with hwho | hempty
  · exact h.2 hwho
  · intro hlen
    rw [Event.received, hempty] at hlen
    exact absurd hlen (by decide)

/-- A clear datagram is handled like one that asks for the same as another one that shows the same. -/
theorem nsStep_shown {s : Ns T} {localNode : UInt32} (hs : s.Stands localNode) (he : e'.Clear localNode who)
    (h : e.shows who = some p) (h' : e'.shows who = some p) :
    ∃ f : Event, nsStep s e' = nsStep s f ∧ f.allocs = [] ∧ f.sq = e.sq ∧
      ∀ localNode, f.action localNode = e.action localNode := by
  obtain ⟨hinv, rfl⟩ := hs
  obtain ⟨hsq, hdatagram⟩ := Prod.mk.inj ((Event.of_shows h).2.symm.trans (Event.of_shows h').2)
  have hbuffer := nsStep_settled hinv.lookups_local (he.settled h') e.stale
  have hevent : { e' with stale := e.stale } =
      { e with stack := e'.stack, allocs := e'.allocs, sends := e'.sends } := by
    rw [hsq, hdatagram]
  refine ⟨{ e with stack := e'.stack, allocs := e'.allocs, sends := e'.sends }, ?_, he.1, rfl, fun _ => rfl⟩
  rw [← hevent, hbuffer]

/-- If the datagrams of some senders are settled in one run, so are the same datagrams in another. -/
theorem clear_of_shows {localNode : UInt32} {es es' : List Event} (hes' : ∀ e ∈ es', e.allocs = [])
    (hclear : ∀ e ∈ es, who e.sq → e.Settled localNode)
    (hsame : es.filterMap (Event.shows who) = es'.filterMap (Event.shows who)) :
    ∀ e ∈ es', e.Clear localNode who := by
  refine fun e he => ⟨hes' e he, fun hwho => ?_⟩
  have hshows : e.shows who = some (e.sq, e.datagram) := if_pos (Or.inl hwho)
  have hmem : (e.sq, e.datagram) ∈ es'.filterMap (Event.shows who) := List.mem_filterMap.2 ⟨e, he, hshows⟩
  rw [← hsame] at hmem
  obtain ⟨other, hother, hshows'⟩ := List.mem_filterMap.1 hmem
  obtain ⟨hsq, hdatagram⟩ := Prod.mk.inj (Event.of_shows hshows').2
  have hsettled := hclear other hother (hsq ▸ hwho)
  rwa [Event.Settled, Event.received, ← hsq, ← hdatagram] at hsettled

end

theorem Ns.Stands.step {localNode : UInt32} {s : Ns T} (h : s.Stands localNode) (e : Event) :
    (nsStep s e).1.Stands localNode :=
  ⟨h.1.step e, (nsStep_frame h.1.nodesOk h.1.ok e).2.1.trans h.2⟩

/-- States with the same socket have the same socket after a step. -/
theorem sockOpen_congr {s t : Ns T} (hs : s.TablesOk) (ht : t.TablesOk) (h : s.sockOpen = t.sockOpen)
    {e e' : Event} (he : e.datagram = e'.datagram) : (nsStep s e).1.sockOpen = (nsStep t e').1.sockOpen := by
  rw [Bool.eq_iff_iff, nsStep_sockOpen hs, nsStep_sockOpen ht, h, he]

theorem services_unwinds (localNode n : UInt32) :
    Run.Unwinds (fun s : Ns T => s.Stands localNode) (Event.Clear localNode fun sq => sq.node = n) nsStep
      (fun s => (s.sockOpen, s.services n)) (Event.shows fun sq => sq.node = n) where
  keeps s e hs _ := hs.step e
  skips s e hs he hshows := by
    obtain ⟨hne, hempty⟩ := Event.of_shows_none hshows
    have hopen : (nsStep s e).1.sockOpen = s.sockOpen := by
      rw [Bool.eq_iff_iff, nsStep_sockOpen hs.1.toTablesOk]
      exact and_iff_left hempty
    by_cases running : s.sockOpen = true
    · rw [hopen, nsStep_services hs.1.toTablesOk running he.1, Function.update_of_ne (Ne.symm hne)]
    · rw [nsStep, if_neg running]
  agrees s t e e' hs ht he he' p hshows hshows' hview := by
    obtain ⟨hopen, hservices⟩ := Prod.mk.inj hview
    have hsame : e.datagram = e'.datagram :=
      congrArg Prod.snd ((Event.of_shows hshows).2.symm.trans (Event.of_shows hshows').2)
    refine Prod.ext (sockOpen_congr hs.1.toTablesOk ht.1.toTablesOk hopen hsame) ?_
    show (nsStep s e).1.services n = (nsStep t e').1.services n
    obtain ⟨f, hstep, hallocs, hsq, haction⟩ := nsStep_shown ht he' hshows hshows'
    rw [hstep]
    by_cases running : s.sockOpen = true
    · have htable : f.table localNode (t.services e.sq.node) = e.table localNode (t.services e.sq.node) := by
        rw [Event.table, Event.table, haction]
      rw [nsStep_services hs.1.toTablesOk running he.1,
        nsStep_services ht.1.toTablesOk (hopen ▸ running) hallocs, hs.2, ht.2, hsq, htable]
      by_cases hn : e.sq.node = n
      · subst hn
        rw [Function.update_self, Function.update_self, hservices]
      · rw [Function.update_of_ne (Ne.symm hn), Function.update_of_ne (Ne.symm hn), hservices]
    · rw [nsStep, if_neg running, nsStep, if_neg (hopen ▸ running)]
      exact hservices

/-- Which lookups a filter keeps behind an action depends on those that it kept before. -/
theorem Action.lookups_filter (a : Action) (keep : Lookup → Bool) (ls : List Lookup) :
    (a.lookups ls).filter keep = (a.lookups (ls.filter keep)).filter keep := by
  have hfilter : ∀ stays : Lookup → Bool,
      (ls.filter stays).filter keep = ((ls.filter keep).filter stays).filter keep := by
    intro stays
    have htwice : ∀ kept : List Lookup, (kept.filter keep).filter keep = kept.filter keep := by
      intro kept
      rw [List.filter_filter]
      simp only [Bool.and_self]
    rw [List.filter_comm stays keep, htwice]
  cases a with
  | watch l => simp [Action.lookups]
  | closePort n p => exact hfilter _
  | unwatch sq service inst => exact hfilter _
  | ignored | hello | bye n | register srv | unregister n p => simp [Action.lookups]

/-- Actions of other senders do not touch the lookups of an address. -/
theorem Action.Checked.lookups_filter {localNode : UInt32} {sq c : Sockaddr} {a : Action}
    (h : a.Checked localNode sq) (hne : sq ≠ c) {ls : List Lookup}
    (hlocal : ∀ l ∈ ls, l.sq.node = localNode) :
    ((a.lookups ls).filter fun l => l.sq = c) = ls.filter fun l => l.sq = c := by
  have hapart : ∀ stays : Lookup → Bool, (∀ l ∈ ls, l.sq = c → stays l = true) →
      ((ls.filter stays).filter fun l => l.sq = c) = ls.filter fun l => l.sq = c := by
    intro stays hstays
    rw [List.filter_filter]
    refine List.filter_congr fun l hl => ?_
    by_cases hc : l.sq = c
    · simp [hc, hstays l hl hc]
    · simp [hc]
  cases a with
  | ignored | hello | bye n | register srv | unregister n p => rfl
  | watch l =>
      have hother : ¬ l.sq = c := fun hc => hne (h.2.symm.trans hc)
      simp [Action.lookups, hother]
  | closePort n p =>
      refine hapart _ fun l hl hc => ?_
      obtain ⟨rfl, hport⟩ := h
      -- the port closed is the sender's own, for the sender is on the node of the lookup
      by_contra hgone
      obtain ⟨hnode, hp⟩ : l.sq.node = sq.node ∧ l.sq.port = p := by simpa using hgone
      have hself := hport (hnode.symm.trans (hlocal l hl))
      exact hne ((Sockaddr.ext hnode (hp.trans hself)).symm.trans hc)
  | unwatch sq' service inst =>
      refine hapart _ fun l hl hc => ?_
      obtain rfl : sq' = sq := h
      by_contra hgone
      have hmatch : ((l.sq.node = sq'.node ∧ l.sq.port = sq'.port) ∧ l.service = service) ∧
          (¬ l.inst = 0 → l.inst = inst) := by simpa using hgone
      exact hne ((Sockaddr.ext hmatch.1.1.1 hmatch.1.1.2).symm.trans hc)

theorem lookups_unwinds (localNode : UInt32) (c : Sockaddr) :
    Run.Unwinds (fun s : Ns (Map Server) => s.Stands localNode) (Event.Clear localNode fun sq => sq = c)
      nsStep (fun s => (s.sockOpen, s.lookups.filter fun l => l.sq = c)) (Event.shows fun sq => sq = c) where
  keeps s e hs _ := hs.step e
  skips s e hs he hshows := by
    obtain ⟨hne, hempty⟩ := Event.of_shows_none hshows
    have hopen : (nsStep s e).1.sockOpen = s.sockOpen := by
      rw [Bool.eq_iff_iff, nsStep_sockOpen hs.1.toTablesOk]
      exact and_iff_left hempty
    obtain ⟨⟨rc, hhappens⟩, -⟩ := nsStep_happens hs.1.nodesOk hs.1.ok e
    rw [hopen, hhappens.lookups_eq he.1, (s.action_checked e).lookups_filter hne hs.1.lookups_local]
  agrees s t e e' hs ht he he' p hshows hshows' hview := by
    obtain ⟨hopen, hlookups⟩ := Prod.mk.inj hview
    have hsame : e.datagram = e'.datagram :=
      congrArg Prod.snd ((Event.of_shows hshows).2.symm.trans (Event.of_shows hshows').2)
    refine Prod.ext (sockOpen_congr hs.1.toTablesOk ht.1.toTablesOk hopen hsame) ?_
    show ((nsStep s e).1.lookups.filter fun l => l.sq = c) =
      (nsStep t e').1.lookups.filter fun l => l.sq = c
    obtain ⟨f, hstep, hallocs, hsq, haction⟩ := nsStep_shown ht he' hshows hshows'
    have hasked : s.action e = t.action f := by
      rw [Ns.action, Ns.action, hopen, hs.2, ht.2, haction]
    obtain ⟨⟨rc, hs'⟩, -⟩ := nsStep_happens hs.1.nodesOk hs.1.ok e
    obtain ⟨⟨rc', ht'⟩, -⟩ := nsStep_happens ht.1.nodesOk ht.1.ok f
    rw [hstep, hs'.lookups_eq he.1, ht'.lookups_eq hallocs, hasked, Action.lookups_filter _ _ s.lookups,
      Action.lookups_filter _ _ t.lookups, hlookups]

/-- The table of a node, with its tombstones, depends on the datagrams of the node alone, and so does every
    answer about the node: whatever else arrives between them, in whatever order, and whatever it leaves in the
    receive buffer, makes no difference. -/
theorem tables_of_own (order : HostOrder) (localNode n : UInt32) {es es' : List Event}
    (hes : ∀ e ∈ es, e.allocs = []) (hes' : ∀ e ∈ es', e.allocs = [])
    (hsettled : ∀ e ∈ es, e.sq.node = n → e.Settled localNode)
    (hsame : es.filterMap (Event.shows fun sq => sq.node = n) =
      es'.filterMap (Event.shows fun sq => sq.node = n)) :
    (Run.final nsStep (nsInit order localNode : Ns (Map Server)) es).services n =
        (Run.final nsStep (nsInit order localNode) es').services n ∧
      ∀ p, (Run.final nsStep (nsInit order localNode : Ns (Map Server)) es).server n p =
        (Run.final nsStep (nsInit order localNode : Ns (Map Server)) es').server n p := by
  have hinit : (nsInit order localNode : Ns (Map Server)).Stands localNode := ⟨.init order localNode, rfl⟩
  have hview := (services_unwinds localNode n).final_eq hinit hinit rfl
    (fun e he => ⟨hes e he, hsettled e he⟩) (clear_of_shows hes' hsettled hsame) hsame
  have hservices := congrArg Prod.snd hview
  refine ⟨hservices, fun p => ?_⟩
  rw [server_eq_get ((Ns.Inv.init order localNode).run es).nodesOk,
    server_eq_get ((Ns.Inv.init order localNode).run es').nodesOk]
  exact congrArg (fun t => get t (hashU32 p)) hservices

/-- What node 2 sends, received into a buffer that begins with the given words. -/
def fromTwo (words : List UInt32) : Event :=
  .into { node := 2, port := 7 } ([qrtrTypeNewServer, 4, 1, 2, 7].flatMap le32) words

/-- A port of node 3 and one of the host itself make no difference to node 2, nor does what they leave in the
    buffer. -/
theorem tables_of_own_two :
    (Run.final nsStep (nsInit .little 1 : Ns (Map Server))
        [.ofWords { node := 3, port := 9 } [qrtrTypeNewServer, 4, 1, 3, 9],
          fromTwo [qrtrTypeNewServer, 4, 1, 3, 9],
          .ofWords { node := 1, port := 5 } [qrtrTypeBye, 2, 0, 0, 0]]).services 2 =
        (Run.final nsStep (nsInit .little 1) [fromTwo []]).services 2 ∧
      ∀ p, (Run.final nsStep (nsInit .little 1 : Ns (Map Server))
          [.ofWords { node := 3, port := 9 } [qrtrTypeNewServer, 4, 1, 3, 9],
            fromTwo [qrtrTypeNewServer, 4, 1, 3, 9],
            .ofWords { node := 1, port := 5 } [qrtrTypeBye, 2, 0, 0, 0]]).server 2 p =
        (Run.final nsStep (nsInit .little 1 : Ns (Map Server)) [fromTwo []]).server 2 p := by
  refine tables_of_own .little 1 2 ?_ ?_ ?_ rfl
  · simp [Event.ofWords, fromTwo, Event.into]
  · simp [fromTwo, Event.into]
  · intro e he hnode _
    obtain rfl : e = fromTwo [qrtrTypeNewServer, 4, 1, 3, 9] := by
      rcases List.mem_cons.1 he with rfl | he
      · cases hnode
      rcases List.mem_cons.1 he with rfl | he
      · rfl
      · obtain rfl := List.mem_singleton.1 he
        cases hnode
    exact covered_of_length (Nat.le_refl _)

/-- The lookups of an address depend on the datagrams from there alone. -/
theorem lookups_of_own (order : HostOrder) (localNode : UInt32) (c : Sockaddr) {es es' : List Event}
    (hes : ∀ e ∈ es, e.allocs = []) (hes' : ∀ e ∈ es', e.allocs = [])
    (hsettled : ∀ e ∈ es, e.sq = c → e.Settled localNode)
    (hsame : es.filterMap (Event.shows fun sq => sq = c) = es'.filterMap (Event.shows fun sq => sq = c)) :
    ((Run.final nsStep (nsInit order localNode : Ns (Map Server)) es).lookups.filter fun l => l.sq = c) =
      (Run.final nsStep (nsInit order localNode : Ns (Map Server)) es').lookups.filter fun l => l.sq = c := by
  have hinit : (nsInit order localNode : Ns (Map Server)).Stands localNode := ⟨.init order localNode, rfl⟩
  exact congrArg Prod.snd ((lookups_unwinds localNode c).final_eq hinit hinit rfl
    (fun e he => ⟨hes e he, hsettled e he⟩) (clear_of_shows hes' hsettled hsame) hsame)

/-- The lookup of port 5 stays, whatever port 6 asks for and takes back and leaves in the buffer. -/
theorem lookups_of_own_two :
    ((Run.final nsStep (nsInit .little 1 : Ns (Map Server))
        [.ofWords { node := 1, port := 6 } [qrtrTypeNewLookup, 4, 0, 0, 0],
          .into { node := 1, port := 5 } ([qrtrTypeNewLookup, 4, 0].flatMap le32) [qrtrTypeNewLookup, 4],
          .ofWords { node := 1, port := 6 } [qrtrTypeDelLookup, 4, 0, 0, 0]]).lookups.filter
          fun l => l.sq = ⟨1, 5⟩) =
      (Run.final nsStep (nsInit .little 1 : Ns (Map Server))
        [.into { node := 1, port := 5 } ([qrtrTypeNewLookup, 4, 0].flatMap le32) []]).lookups.filter
          fun l => l.sq = ⟨1, 5⟩ := by
  refine lookups_of_own .little 1 ⟨1, 5⟩ ?_ ?_ ?_ rfl
  · simp [Event.ofWords, Event.into]
  · simp [Event.into]
  · intro e he hsq _
    obtain rfl : e = .into ⟨1, 5⟩ ([qrtrTypeNewLookup, 4, 0].flatMap le32) [qrtrTypeNewLookup, 4] := by
      rcases List.mem_cons.1 he with rfl | he
      · cases hsq
      rcases List.mem_cons.1 he with rfl | he
      · rfl
      · obtain rfl := List.mem_singleton.1 he
        cases hsq
    exact Or.inr (by decide)

end Qrtr
