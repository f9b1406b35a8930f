/-
Module: Qrtr.Records.Safety
Layer: Records
Purpose: Whole runs of the name server with its pointers. Whatever arrives and whatever fails, no pointer to
  a freed record is followed, nothing is freed twice, every loop ends, and the datagrams sent and the state
  reached are those of the name server without records. No record is lost in a run whose registrations find
  the server that they replace; and the end of the program frees the nodes and their servers, each once.
Imports: Qrtr.Records.Handlers, Qrtr.NameServer.Effects
Main exports: Ns.shown, nsStep_shows, nsRun_refines, Ns.Held, Ns.Linked, nsRun_loses_none, shutdown_frees
Open obligations: none
-/
import Qrtr.Records.Handlers
import Qrtr.NameServer.Effects

namespace Qrtr.Records

open RecordHeap Run

variable {spare : Addr → Prop} {ls : List Addr} {s : Ns} {v : Qrtr.Ns (Map Server)}

/-! ### Runs -/

/-- The name server without records that a state shows: the maps of addresses as maps of what is at the
    addresses, and the list of lookups as a sequence. -/
def Ns.shown (s : Ns) : Qrtr.Ns (Map Server) where
  order := s.order
  sockOpen := s.sockOpen
  localNode := s.localNode
  lookups := (listForEach s.lookups s.heap.fresh).filterMap s.lookupAt
  nodes := s.nodes.image (idOf (s.heap.select Record.node?))
  services := fun id =>
    match Qrtr.mapGet s.nodes (hashU32 id) with
    | none => mapCreate
    | some a => (tableOf s.heap a).image (serverOf (s.heap.select Record.server?))

theorem lookupAt_eq_select (s : Ns) : s.lookupAt = s.heap.select Record.lookup? := by
  funext a
  rw [Ns.lookupAt, select]
  rcases s.heap.cells a with _ | r
  · rfl
  · cases r <;> rfl

theorem Shows.length_le (h : Shows spare ls s v) : ls.length ≤ s.heap.fresh := by
  refine h.bounded.length_le h.lookups.nodup fun a ha => ?_
  obtain ⟨l, hl⟩ := h.lookups.mem_iff.1 ha
  exact ⟨_, cells_of_lookup hl⟩

/-- The list of lookups, walked from its head. -/
theorem Shows.listForEach_eq (h : Shows spare ls s v) : listForEach s.lookups s.heap.fresh = ls :=
  h.lookups.stands.forEach h.length_le

theorem Shows.shown_eq (h : Shows spare ls s v) : s.shown = v := by
  have hservices : s.shown.services = v.services := by
    funext id
    show (match Qrtr.mapGet s.nodes (hashU32 id) with
      | none => mapCreate
      | some a => (tableOf s.heap a).image (serverOf (s.heap.select Record.server?))) = _
    cases hget : Qrtr.mapGet s.nodes (hashU32 id) with
    | none => exact (h.tables.absent (h.tables.get_none hget)).symm
    | some a =>
        obtain ⟨t, ha⟩ := h.tables.get hget
        simp only [tableOf_eq ha]
        exact (h.tables.table ha).shown_eq.symm
  have hlookups : s.shown.lookups = v.lookups := by
    show (listForEach s.lookups s.heap.fresh).filterMap s.lookupAt = _
    rw [h.listForEach_eq, lookupAt_eq_select, h.lookups.lookups_eq]
  have hnodes : s.shown.nodes = v.nodes := h.tables.nodes_eq.symm
  cases v
  simp only [Ns.shown] at hservices hlookups hnodes ⊢
  rw [hservices, hlookups, hnodes]
  simp only [← h.order, ← h.sockOpen, ← h.localNode]

theorem Shows.init (order : HostOrder) (localNode : UInt32) (memory : Links Addr) :
    Shows (fun _ => False) [] (nsInit order localNode memory) (Qrtr.nsInit order localNode) where
  order := rfl
  sockOpen := rfl
  localNode := rfl
  bounded := Bounded.empty
  tables := .init
  lookups := .init memory

/-- One turn of the main loop. A registration that finds the server that it replaces loses no record. -/
theorem nsStep_shows (h : Shows spare ls s v) (e : Event) :
    ∃ spare' ls' s', nsStep s e = some (s', (Qrtr.nsStep v e).2) ∧
      Shows spare' ls' s' (Qrtr.nsStep v e).1 ∧
      (v.Distinct → v.Plain (v.action e) → ∀ c, spare' c ↔ spare c) := by
  rw [nsStep, Qrtr.nsStep, Ns.action, h.sockOpen]
  by_cases hopen : s.sockOpen = true
  · rw [if_pos hopen, if_pos hopen, if_pos hopen]
    have hexec : ExecShows spare ls (s.exec e) (v.exec e) := { h with
      stack := rfl
      allocs := rfl
      sends := rfl
      sent := rfl }
    obtain ⟨spare', ⟨w', ls', hrun, hw'⟩, hspare⟩ := ctrlPortFn_shows hexec e
    refine ⟨spare', ls', w'.toNs, ?_, hw'.toShows, fun hdistinct hplain => hspare fun srv hsrv => ?_⟩
    · rw [hrun, Option.bind_eq_bind, Option.bind_some]
      exact congrArg (fun sent => some (w'.toNs, sent)) hw'.sent.symm
    · exact ⟨Map.single_iff.1 (hdistinct srv.node), hplain srv hsrv⟩
  · rw [if_neg hopen, if_neg hopen]
    exact ⟨spare, ls, s, rfl, h, fun _ _ _ => Iff.rfl⟩

/-- The records of a state show the other state. -/
def Ns.Represents (s : Ns) (v : Qrtr.Ns (Map Server)) : Prop := ∃ spare ls, Shows spare ls s v

theorem Ns.Represents.step (s : Ns) (v : Qrtr.Ns (Map Server)) (e : Event) (h : s.Represents v)
    (_ : True) : ∃ s', nsStep s e = some (s', (Qrtr.nsStep v e).2) ∧ s'.Represents (Qrtr.nsStep v e).1 := by
  obtain ⟨spare, ls, h⟩ := h
  obtain ⟨spare', ls', s', hstep, hs', -⟩ := nsStep_shows h e
  exact ⟨s', hstep, spare', ls', hs'⟩

/-- Every state that a run reaches has a result, and its records show the state that the same run of the
    name server without records reaches. -/
theorem nsRun_represents (order : HostOrder) (localNode : UInt32) (memory : Links Addr)
    (es : List Event) :
    ∃ s, nsRun (nsInit order localNode memory) es =
        some (s, outputs Qrtr.nsStep (Qrtr.nsInit order localNode : Qrtr.Ns (Map Server)) es) ∧
      s.Represents (final Qrtr.nsStep (Qrtr.nsInit order localNode) es) :=
  Guarded.attempt_eq Ns.Represents.step ⟨_, _, Shows.init order localNode memory⟩
    (Guarded.of_forall _ fun _ _ _ => trivial)

/-- Whatever arrives and whatever fails, the name server follows live records only, frees none twice and
    comes to the end of every loop; it sends what the name server without records sends, and its records
    show the state that this one is in. -/
theorem nsRun_refines (order : HostOrder) (localNode : UInt32) (memory : Links Addr) (es : List Event) :
    ∃ s, nsRun (nsInit order localNode memory) es =
        some (s, outputs Qrtr.nsStep (Qrtr.nsInit order localNode : Qrtr.Ns (Map Server)) es) ∧
      s.shown = final Qrtr.nsStep (Qrtr.nsInit order localNode) es := by
  obtain ⟨s, hrun, spare, ls, hs⟩ := nsRun_represents order localNode memory es
  exact ⟨s, hrun, hs.shown_eq⟩

/-! ### No record is lost -/

/-- The record hangs in the node table, or in the table of a node that does. -/
def Ns.Held (s : Ns) (a : Addr) : Prop :=
  (∃ k, s.nodes.Holds k a) ∨
    ∃ n k id l t, s.nodes.Holds k n ∧ s.heap.cells n = some (.node id l t) ∧ ∃ k, t.Holds k a

/-- The record is in the list of lookups. -/
def Ns.Linked (s : Ns) (a : Addr) : Prop := a ∈ listForEach s.lookups s.heap.fresh

/-- The same, when no server is spare and no port is registered twice. -/
def Ns.RepresentsAll (s : Ns) (v : Qrtr.Ns (Map Server)) : Prop :=
  v.TablesOk ∧ v.Distinct ∧ ∃ ls, Shows (fun _ => False) ls s v

theorem Ns.RepresentsAll.step (s : Ns) (v : Qrtr.Ns (Map Server)) (e : Event) (h : s.RepresentsAll v)
    (hplain : v.Plain (v.action e)) :
    ∃ s', nsStep s e = some (s', (Qrtr.nsStep v e).2) ∧ s'.RepresentsAll (Qrtr.nsStep v e).1 := by
  obtain ⟨hok, hdistinct, ls, h⟩ := h
  obtain ⟨spare', ls', s', hstep, hs', hspare⟩ := nsStep_shows h e
  obtain ⟨⟨rc, hhappens⟩, -⟩ := nsStep_happens hok.nodesOk hok.ok e
  refine ⟨s', hstep, hok.step e, hhappens.distinct hok hdistinct hplain, ls', ?_⟩
  exact { hs' with tables := hs'.tables.spare_congr fun c => (hspare hdistinct hplain c).symm }

/-- Where no server is spare every live record can be reached. -/
theorem Shows.reaches (h : Shows (fun _ => False) ls s v) {a : Addr} {r : Record}
    (hlive : s.heap.cells a = some r) : s.Held a ∨ s.Linked a := by
  cases r with
  | server srv key =>
      have hsrv : s.heap.select Record.server? a = some (srv, key) := by rw [select, hlive]; rfl
      obtain ⟨n, id, l, t, hn, hheld⟩ := (h.tables.placed hsrv).resolve_left fun hno => hno
      exact Or.inl (Or.inr ⟨n, l, id, l, t, h.tables.holds_iff.2 ⟨id, t, hn⟩, cells_of_node hn, key, hheld⟩)
  | node id key services =>
      have hnode : s.heap.select Record.node? a = some (id, key, services) := by rw [select, hlive]; rfl
      exact Or.inl (Or.inl ⟨key, h.tables.holds_iff.2 ⟨id, services, hnode⟩⟩)
  | lookup l =>
      have hlookup : s.heap.select Record.lookup? a = some l := by rw [select, hlive]; rfl
      refine Or.inr ?_
      rw [Ns.Linked, h.listForEach_eq]
      exact h.lookups.mem_iff.2 ⟨l, hlookup⟩

/-! ### The end of the program -/

theorem mapClear_items {V : Type} (m : Map V) : (mapClear m).2 = mapForEach m := by
  rw [mapForEach_eq, Map.entries, List.map_filterMap]
  rfl

/-- Freeing different server records. -/
theorem serverMiFree_all :
    ∀ (as : List Addr) {s : Ns}, as.Nodup →
      (∀ a ∈ as, ∃ r, s.heap.select Record.server? a = some r) →
      as.foldlM serverMiFree s = some { s with heap := s.heap.dropAll as }
  | [], s, _, _ => by simp [List.foldlM]
  | a :: as, s, hnodup, hlive => by
      obtain ⟨⟨⟨srv, key⟩, ha⟩, hlive'⟩ := List.forall_mem_cons.1 hlive
      obtain ⟨hmem, hnodup'⟩ := List.nodup_cons.1 hnodup
      have hrest := serverMiFree_all as (s := { s with heap := s.heap.drop a }) hnodup' fun b hb => by
        have hne : b ≠ a := by
          rintro rfl
          exact hmem hb
        show ∃ r, (s.heap.drop a).select Record.server? b = some r
        rw [select_drop, Function.update_of_ne hne]
        exact hlive' b hb
      simp only [List.foldlM_cons, serverMiFree, serverAt_eq ha, Ns.free, free_eq (cells_of_server ha),
        Option.bind_eq_bind, Option.bind_some, hrest, dropAll_cons]

/-- The records that `node_mi_free` frees: the servers of the node, then the node. -/
def recordsOf (heap : RecordHeap Record) (a : Addr) : List Addr := mapForEach (tableOf heap a) ++ [a]

theorem nodeMiFree_eq {a : Addr} {id k : UInt32} {t : Map Addr}
    (ha : s.heap.select Record.node? a = some (id, k, t)) (hnodup : (mapForEach t).Nodup)
    (hlive : ∀ b ∈ mapForEach t, ∃ r, s.heap.select Record.server? b = some r) :
    nodeMiFree s a = some { s with heap := s.heap.dropAll (recordsOf s.heap a) } := by
  have hmem : a ∉ mapForEach t := by
    intro hmem
    obtain ⟨r, hr⟩ := hlive a hmem
    rw [select_of_cells (cells_of_node ha) rfl] at hr
    cases hr
  have hcells : (s.heap.dropAll (mapForEach t)).cells a = some (.node id k t) :=
    (if_neg hmem).trans (cells_of_node ha)
  rw [nodeMiFree, servicesAt_eq ha, Option.bind_eq_bind, Option.bind_some, mapClear_items,
    serverMiFree_all _ hnodup hlive]
  simp only [Option.bind_eq_bind, Option.bind_some, Ns.free, free_eq hcells, recordsOf, tableOf_eq ha,
    dropAll_append, dropAll_cons, dropAll_nil]

/-- Freeing different nodes that have no server in common. -/
theorem nodeMiFree_all :
    ∀ (ns : List Addr) {s : Ns}, (∀ a ∈ ns, ∃ r, s.heap.select Record.node? a = some r) →
      (ns.flatMap (recordsOf s.heap)).Nodup →
      (∀ a ∈ ns, ∀ b ∈ mapForEach (tableOf s.heap a), ∃ r, s.heap.select Record.server? b = some r) →
      ns.foldlM nodeMiFree s = some { s with heap := s.heap.dropAll (ns.flatMap (recordsOf s.heap)) }
  | [], s, _, _, _ => by simp [List.foldlM]
  | a :: ns, s, hnodes, hnodup, hlive => by
      obtain ⟨⟨⟨id, k, t⟩, ha⟩, hnodes'⟩ := List.forall_mem_cons.1 hnodes
      obtain ⟨hlive₁, hlive'⟩ := List.forall_mem_cons.1 hlive
      rw [List.flatMap_cons, List.nodup_append] at hnodup
      obtain ⟨hnodup₁, hnodup', hdisjoint⟩ := hnodup
      rw [tableOf_eq ha] at hlive₁
      have hfirst := nodeMiFree_eq ha (tableOf_eq ha ▸ hnodup₁.of_append_left) hlive₁
      -- the other records are still there
      have hkept : ∀ {c b}, c ∈ ns → b ∈ recordsOf s.heap c → b ∉ recordsOf s.heap a := by
        intro c b hc hb hmem
        exact hdisjoint b hmem b (List.mem_flatMap.2 ⟨c, hc, hb⟩) rfl
      have hself : ∀ {c}, c ∈ recordsOf s.heap c := List.mem_append_right _ (List.mem_singleton_self _)
      have htable : ∀ {c}, c ∈ ns → tableOf (s.heap.dropAll (recordsOf s.heap a)) c = tableOf s.heap c := by
        intro c hc
        rw [tableOf, tableOf, select_dropAll _ (hkept hc hself)]
      have hrecords : ns.flatMap (recordsOf (s.heap.dropAll (recordsOf s.heap a))) =
          ns.flatMap (recordsOf s.heap) :=
        List.flatMap_congr fun c hc => congrArg (fun t => mapForEach t ++ [c]) (htable hc)
      have hrest := nodeMiFree_all ns (s := { s with heap := s.heap.dropAll (recordsOf s.heap a) })
        (fun c hc => by
          show ∃ r, (s.heap.dropAll (recordsOf s.heap a)).select Record.node? c = some r
          rw [select_dropAll _ (hkept hc hself)]
          exact hnodes' c hc)
        (by rw [hrecords]; exact hnodup')
        fun c hc b hb => by
          have hb' : b ∈ mapForEach (tableOf s.heap c) := htable hc ▸ hb
          show ∃ r, (s.heap.dropAll (recordsOf s.heap a)).select Record.server? b = some r
          rw [select_dropAll _ (hkept hc (List.mem_append_left _ hb'))]
          exact hlive' c hc b hb'
      rw [List.foldlM_cons, hfirst, Option.bind_eq_bind, Option.bind_some, hrest]
      simp only [hrecords, List.flatMap_cons, dropAll_append]

theorem Shows.node_of_mem (h : Shows spare ls s v) {a : Addr} (ha : a ∈ mapForEach s.nodes) :
    ∃ id k t, s.heap.select Record.node? a = some (id, k, t) := by
  obtain ⟨k, hk⟩ := mem_mapForEach.1 ha
  obtain ⟨id, t, hnode⟩ := h.tables.holds_iff.1 hk
  exact ⟨id, k, t, hnode⟩

/-- The records that the end of the program frees are those that hang in the maps. -/
theorem Shows.held_iff (h : Shows spare ls s v) {a : Addr} :
    s.Held a ↔ a ∈ (mapForEach s.nodes).flatMap (recordsOf s.heap) := by
  rw [List.mem_flatMap]
  constructor
  · rintro (⟨k, hk⟩ | ⟨n, k, id, l, t, hn, hcells, m, hm⟩)
    · exact ⟨a, mem_mapForEach.2 ⟨k, hk⟩, List.mem_append_right _ (List.mem_singleton_self a)⟩
    · refine ⟨n, mem_mapForEach.2 ⟨k, hn⟩, List.mem_append_left _ ?_⟩
      have hnode : s.heap.select Record.node? n = some (id, l, t) := by rw [select, hcells]; rfl
      rw [tableOf_eq hnode]
      exact mem_mapForEach.2 ⟨m, hm⟩
  · rintro ⟨n, hn, hmem⟩
    obtain ⟨id, k, t, hnode⟩ := h.node_of_mem hn
    obtain ⟨l, hl⟩ := mem_mapForEach.1 hn
    rcases List.mem_append.1 hmem with hserver | hself
    · rw [tableOf_eq hnode] at hserver
      exact Or.inr ⟨n, l, id, k, t, hl, cells_of_node hnode, mem_mapForEach.1 hserver⟩
    · rw [List.mem_singleton.1 hself]
      exact Or.inl ⟨l, hl⟩

/-- A lookup hangs in no map. -/
theorem Shows.not_held (h : Shows spare ls s v) {a : Addr} {l : Lookup}
    (ha : s.heap.select Record.lookup? a = some l) : ¬ s.Held a := by
  have hcells := cells_of_lookup ha
  rintro (⟨k, hk⟩ | ⟨n, k, id, l, t, -, hn, m, hm⟩)
  · obtain ⟨id, t, hnode⟩ := h.tables.holds_iff.1 hk
    rw [cells_of_node hnode] at hcells
    cases hcells
  · have hnode : s.heap.select Record.node? n = some (id, l, t) := by rw [select, hn]; rfl
    obtain ⟨srv, hsrv, -⟩ := (h.tables.table hnode).held hm
    rw [cells_of_server hsrv] at hcells
    cases hcells

/-- No record is freed twice at the end of the program. -/
theorem Shows.nodup_records (h : Shows spare ls s v) :
    ((mapForEach s.nodes).flatMap (recordsOf s.heap)).Nodup := by
  have hserver : ∀ {a b id k t}, s.heap.select Record.node? a = some (id, k, t) → b ∈ mapForEach t →
      ∀ {id' k' t'}, s.heap.select Record.node? b ≠ some (id', k', t') := by
    intro a b id k t ha hb id' k' t' hb'
    obtain ⟨l, hl⟩ := mem_mapForEach.1 hb
    obtain ⟨srv, hsrv, -⟩ := (h.tables.table ha).held hl
    rw [select_of_cells (cells_of_server hsrv) rfl] at hb'
    cases hb'
  refine List.nodup_flatMap.2 ⟨fun a ha => ?_, ?_⟩
  · obtain ⟨id, k, t, hnode⟩ := h.node_of_mem ha
    rw [recordsOf, tableOf_eq hnode]
    refine List.nodup_append.2 ⟨nodup_mapForEach (h.tables.table hnode).apart, List.nodup_singleton a, ?_⟩
    intro b hb c hc
    rintro rfl
    rw [List.mem_singleton.1 hc] at hb
    exact hserver hnode hb hnode
  · refine (nodup_mapForEach h.tables.nodes_apart).imp_of_mem fun {a b} ha hb hne => ?_
    obtain ⟨id, k, t, ha⟩ := h.node_of_mem ha
    obtain ⟨id', k', t', hb⟩ := h.node_of_mem hb
    rw [Function.onFun_apply, recordsOf, recordsOf, tableOf_eq ha, tableOf_eq hb]
    intro c hc hc'
    rcases List.mem_append.1 hc with hct | hca <;> rcases List.mem_append.1 hc' with hct' | hcb
    · obtain ⟨l, hl⟩ := mem_mapForEach.1 hct
      obtain ⟨l', hl'⟩ := mem_mapForEach.1 hct'
      refine h.tables.tables_disjoint ha hb ?_ hl hl'
      rintro rfl
      exact hne (h.tables.node_inj ha hb)
    · rw [List.mem_singleton.1 hcb] at hct
      exact hserver ha hct hb
    · rw [List.mem_singleton.1 hca] at hct'
      exact hserver hb hct' ha
    · exact hne ((List.mem_singleton.1 hca).symm.trans (List.mem_singleton.1 hcb))

/-- The end of the program frees the records that hang in the maps, and no others. -/
theorem Shows.shutdown_eq (h : Shows spare ls s v) :
    ∃ s', shutdown s = some s' ∧
      ∀ a, (s.Held a → s'.heap.cells a = none) ∧ (¬ s.Held a → s'.heap.cells a = s.heap.cells a) := by
  have hall := nodeMiFree_all (mapForEach s.nodes) (s := { s with nodes := (mapClear s.nodes).1 })
    (fun a ha => by
      obtain ⟨id, k, t, hnode⟩ := h.node_of_mem ha
      exact ⟨_, hnode⟩)
    h.nodup_records
    fun a ha b hb => by
      obtain ⟨id, k, t, hnode⟩ := h.node_of_mem ha
      obtain ⟨l, hl⟩ := mem_mapForEach.1 (tableOf_eq hnode ▸ hb)
      obtain ⟨srv, hsrv, -⟩ := (h.tables.table hnode).held hl
      exact ⟨_, hsrv⟩
  rw [shutdown, mapClear_items]
  refine ⟨_, hall, fun a => ?_⟩
  rw [h.held_iff]
  exact ⟨fun hmem => if_pos hmem, fun hmem => if_neg hmem⟩

/-- Behind every run the end of the program frees every node record and every server record that hangs in a
    map, each of them once, and touches no other record. -/
theorem shutdown_frees (order : HostOrder) (localNode : UInt32) (memory : Links Addr) (es : List Event) :
    ∃ s outs s', nsRun (nsInit order localNode memory) es = some (s, outs) ∧ shutdown s = some s' ∧
      ∀ a, (s.Held a → s'.heap.cells a = none) ∧ (¬ s.Held a → s'.heap.cells a = s.heap.cells a) := by
  obtain ⟨s, hrun, spare, ls, hs⟩ := nsRun_represents order localNode memory es
  obtain ⟨s', hshutdown, hcells⟩ := hs.shutdown_eq
  exact ⟨s, _, s', hrun, hshutdown, hcells⟩

/-- In a run in which every registration meets the server it replaces, if there is one, no record is lost:
    every live record hangs in a map or in the list of lookups, and the end of the program leaves none but
    the lookups. -/
theorem nsRun_loses_none (order : HostOrder) (localNode : UInt32) (memory : Links Addr)
    (es : List Event)
    (hplain : Guarded (fun v e => v.Plain (v.action e)) Qrtr.nsStep
      (Qrtr.nsInit order localNode : Qrtr.Ns (Map Server)) es) :
    ∃ s outs s', nsRun (nsInit order localNode memory) es = some (s, outs) ∧
      (∀ a r, s.heap.cells a = some r → s.Held a ∨ s.Linked a) ∧
      shutdown s = some s' ∧ ∀ a, (∃ r, s'.heap.cells a = some r) ↔ s.Linked a := by
  have hinit : (nsInit order localNode memory).RepresentsAll (Qrtr.nsInit order localNode) :=
    ⟨(Qrtr.Ns.Inv.init order localNode).toTablesOk, Qrtr.Ns.Distinct.init order localNode, _,
      Shows.init order localNode memory⟩
  obtain ⟨s, hrun, -, -, ls, hs⟩ := Guarded.attempt_eq Ns.RepresentsAll.step hinit hplain
  obtain ⟨s', hshutdown, hcells⟩ := hs.shutdown_eq
  refine ⟨s, _, s', hrun, fun a r hlive => hs.reaches hlive, hshutdown, fun a => ⟨?_, fun hlinked => ?_⟩⟩
  · rintro ⟨r, hr⟩
    by_cases hheld : s.Held a
    · rw [(hcells a).1 hheld] at hr
      cases hr
    · rw [(hcells a).2 hheld] at hr
      exact (hs.reaches hr).resolve_left hheld
  · rw [Ns.Linked, hs.listForEach_eq] at hlinked
    obtain ⟨l, hl⟩ := hs.lookups.mem_iff.1 hlinked
    exact ⟨_, ((hcells a).2 (hs.not_held hl)).trans (cells_of_lookup hl)⟩

/-- A run in which a server registers and a client looks for it. -/
theorem nsRun_loses_none_two :
    ∃ s outs s', nsRun (nsInit .little 1 untouched)
        [.ofWords { node := 2, port := 7 } [qrtrTypeNewServer, 4, 1, 2, 9],
          .ofWords { node := 1, port := 5 } [qrtrTypeNewLookup, 4, 0, 0, 0]] = some (s, outs) ∧
      (∀ a r, s.heap.cells a = some r → s.Held a ∨ s.Linked a) ∧
      shutdown s = some s' ∧ ∀ a, (∃ r, s'.heap.cells a = some r) ↔ s.Linked a := by
  refine nsRun_loses_none .little 1 untouched _ ⟨?_, ?_, trivial⟩
  · exact Qrtr.Ns.plain_of_absent (Qrtr.Ns.Inv.init .little 1).toTablesOk fun srv _ => rfl
  · have haction : (Qrtr.nsStep (Qrtr.nsInit .little 1 : Qrtr.Ns (Map Server))
        (.ofWords { node := 2, port := 7 } [qrtrTypeNewServer, 4, 1, 2, 9])).1.action
          (.ofWords { node := 1, port := 5 } [qrtrTypeNewLookup, 4, 0, 0, 0]) =
        .watch { service := 4, inst := 0, sq := { node := 1, port := 5 } } := by
      decide +kernel
    exact fun srv h => nomatch haction.symm.trans h

end Qrtr.Records
