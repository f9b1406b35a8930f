/-
Module: Qrtr.Records.Simulation
Layer: Records
Purpose: The functions of the name server with records do what those without records do. `Shows` relates
  the two states: the maps of addresses show the tables, the linked list shows the lookups, the rest is
  equal. In related states every function has a result: it follows live records only, frees none twice and
  comes to the end of every list; and the results are related again. One lemma for each function.
Imports: Qrtr.Records.Tables
Main exports: Shows, ExecShows, nodeGet_shows, serverAdd_shows
Open obligations: none
-/
import Qrtr.Records.Tables

namespace Qrtr.Records

open RecordHeap

/-! ### Following pointers to live records -/

section

variable {s : Ns} {heap : RecordHeap Record} {a : Addr} {srv : Server} {id k : UInt32} {t : Map Addr}
  {l : Lookup}

theorem cells_of_server (h : heap.select Record.server? a = some (srv, k)) :
    heap.cells a = some (.server srv k) := by
  obtain ⟨r, hr, hsel⟩ := Option.bind_eq_some_iff.1 h
  cases r <;> cases hsel
  exact hr

theorem cells_of_node (h : heap.select Record.node? a = some (id, k, t)) :
    heap.cells a = some (.node id k t) := by
  obtain ⟨r, hr, hsel⟩ := Option.bind_eq_some_iff.1 h
  cases r <;> cases hsel
  exact hr

theorem cells_of_lookup (h : heap.select Record.lookup? a = some l) :
    heap.cells a = some (.lookup l) := by
  obtain ⟨r, hr, hsel⟩ := Option.bind_eq_some_iff.1 h
  cases r <;> cases hsel
  exact hr

/-- A live record is of one kind. -/
theorem select_of_cells {X : Type} {f : Record → Option X} {r : Record} (h : heap.cells a = some r)
    (hr : f r = none) : heap.select f a = none := by
  rw [select, h]
  exact hr

theorem serverAt_eq (h : s.heap.select Record.server? a = some (srv, k)) : s.serverAt a = some srv := by
  rw [Ns.serverAt, cells_of_server h]

theorem servicesAt_eq (h : s.heap.select Record.node? a = some (id, k, t)) : s.servicesAt a = some t := by
  rw [Ns.servicesAt, cells_of_node h]

theorem lookupAt_eq (h : s.heap.select Record.lookup? a = some l) : s.lookupAt a = some l := by
  rw [Ns.lookupAt, cells_of_lookup h]

theorem keyAt_of_server (h : s.heap.select Record.server? a = some (srv, k)) : s.keyAt a = some k := by
  rw [Ns.keyAt, cells_of_server h]
  rfl

theorem keyAt_of_node (h : s.heap.select Record.node? a = some (id, k, t)) : s.keyAt a = some k := by
  rw [Ns.keyAt, cells_of_node h]
  rfl

/-- A map whose items are live records with their keys may be searched. -/
theorem carries_iff {m : Map Addr} : s.carries m = true ↔ ∀ k a, m.Holds k a → s.keyAt a = some k := by
  simp only [Ns.carries, List.all_eq_true, Prod.forall, Map.mem_entries_iff, beq_iff_eq]

end

/-! ### Related states -/

/-- A state with records shows a state without them. -/
structure Shows (spare : Addr → Prop) (ls : List Addr) (s : Ns) (v : Qrtr.Ns (Map Server)) : Prop where
  order : v.order = s.order
  sockOpen : v.sockOpen = s.sockOpen
  localNode : v.localNode = s.localNode
  bounded : s.heap.Bounded
  tables : TablesShow (s.heap.select Record.node?) (s.heap.select Record.server?) spare s.nodes v.nodes
    v.services
  lookups : LookupsShow (s.heap.select Record.lookup?) s.lookups ls v.lookups

/-- The same while a datagram is handled. -/
structure ExecShows (spare : Addr → Prop) (ls : List Addr) (w : Exec) (v : Qrtr.Exec (Map Server)) : Prop
    extends Shows spare ls w.toNs v.toNs where
  stack : v.stack = w.stack
  allocs : v.allocs = w.allocs
  sends : v.sends = w.sends
  sent : v.sent = w.sent

/-- The state after a block of datagrams has been handed to `sendto`. -/
def Exec.sendAll (w : Exec) (msgs : List Msg) : Exec :=
  { w with
    sends := w.sends.drop msgs.length
    sent := w.sent ++ msgs }

section

variable {spare : Addr → Prop} {ls : List Addr} {s : Ns} {w : Exec} {vn : Qrtr.Ns (Map Server)}
  {v : Qrtr.Exec (Map Server)} {a b : Addr} {srv : Server} {id k : UInt32} {t : Map Addr}

theorem Shows.carries_nodes (h : Shows spare ls s vn) : s.carries s.nodes = true := by
  refine carries_iff.2 fun k a hk => ?_
  obtain ⟨id, t, ha⟩ := h.tables.holds_iff.1 hk
  exact keyAt_of_node ha

theorem Shows.carries_services (h : Shows spare ls s vn)
    (ha : s.heap.select Record.node? a = some (id, k, t)) : s.carries t = true := by
  refine carries_iff.2 fun l b hb => ?_
  obtain ⟨srv, hsrv, -⟩ := (h.tables.table ha).held hb
  exact keyAt_of_server hsrv

/-- A new record does not take anything from the others. -/
theorem carries_alloc (hb : s.heap.Bounded) {m : Map Addr} (h : s.carries m = true) (r : Record) :
    ({ s with heap := s.heap.alloc r } : Ns).carries m = true := by
  refine carries_iff.2 fun k a hk => ?_
  have hkey := carries_iff.1 h k a hk
  obtain ⟨r', hr', hkey'⟩ := Option.bind_eq_some_iff.1 hkey
  rw [Ns.keyAt, hb.cells_alloc_of_live hr']
  exact hkey'

theorem ExecShows.allocs_eq (h : ExecShows spare ls w v) (allocs : AllocPlan) :
    ExecShows spare ls { w with allocs := allocs } { v with allocs := allocs } :=
  { h with allocs := rfl }

theorem ExecShows.sendAll (h : ExecShows spare ls w v) (msgs : List Msg) :
    ExecShows spare ls (w.sendAll msgs) (v.sendAll msgs) :=
  { h with
    sends := by rw [Exec.sendAll, Qrtr.Exec.sendAll, h.sends]
    sent := by rw [Exec.sendAll, Qrtr.Exec.sendAll, h.sent] }

theorem sendto_snd (w : Exec) (call : SendCall) (dest : Sockaddr) (payload : List UInt8) :
    (w.sendto call dest payload).2 =
      w.sendAll [{ call := call, dest := dest, payload := payload }] := by
  rw [Exec.sendto, Exec.sendAll, List.length_singleton, List.drop_one]

/-- `sendto` returns the same in related states, and leaves them related. -/
theorem ExecShows.sendto (h : ExecShows spare ls w v) (call : SendCall) (dest : Sockaddr)
    (payload : List UInt8) :
    (v.sendto call dest payload).1 = (w.sendto call dest payload).1 ∧
      ExecShows spare ls (w.sendto call dest payload).2 (v.sendto call dest payload).2 := by
  constructor
  · rw [Exec.sendto, Qrtr.Exec.sendto, h.sends]
  · rw [sendto_snd, Qrtr.Exec.sendto_snd]
    exact h.sendAll _

theorem ExecShows.replies_eq (h : ExecShows spare ls w v) (replies : Links Addr) :
    ExecShows spare ls { w with replies := replies } v :=
  { h with }

/-- Which servers are spare matters only as far as it is a true statement. -/
theorem ExecShows.spare_congr (h : ExecShows spare ls w v) {spare' : Addr → Prop}
    (heq : ∀ c, spare' c ↔ spare c) : ExecShows spare' ls w v :=
  { h with tables := h.tables.spare_congr heq }

/-! ### Making and freeing servers -/

/-- A new server record is in no table. -/
theorem ExecShows.newServer (h : ExecShows spare ls w v) (allocs : AllocPlan) (srv : Server)
    (key : UInt32) :
    ExecShows (fun c => spare c ∨ c = w.heap.fresh) ls
      { w with allocs := allocs, heap := w.heap.alloc (.server srv key) } { v with allocs := allocs } :=
  { h with
    allocs := rfl
    bounded := h.bounded.alloc _
    tables := by
      rw [h.bounded.select_alloc_of_none (f := Record.node?) rfl, select_alloc]
      exact h.tables.newServer (h.bounded.select_fresh _) srv key
    lookups := by
      rw [h.bounded.select_alloc_of_none (f := Record.lookup?) rfl]
      exact h.lookups }

/-- A spare server may be freed. -/
theorem ExecShows.free (h : ExecShows spare ls w v) (hspare : spare b) :
    w.free b = some { w with heap := w.heap.drop b } ∧
      ExecShows (fun c => spare c ∧ c ≠ b) ls { w with heap := w.heap.drop b } v := by
  obtain ⟨srv, key, hb⟩ := h.tables.spare_live hspare
  have hcells := cells_of_server hb
  refine ⟨by rw [Exec.free, free_eq hcells]; rfl, ?_⟩
  exact
    { h with
      bounded := h.bounded.drop b
      tables := by
        rw [select_drop_of_none Record.node? (select_of_cells hcells rfl), select_drop]
        exact h.tables.free hspare
      lookups := by
        rw [select_drop_of_none Record.lookup? (select_of_cells hcells rfl)]
        exact h.lookups }

/-! ### Node records -/

/-- What `node_get` returns: NULL in both states, or the record of the node. -/
def NodeFound (w : Exec) (id : UInt32) : Option Addr → Option UInt32 → Prop
  | none, id' => id' = none
  | some a, id' => id' = some id ∧ ∃ k t, w.heap.select Record.node? a = some (id, k, t)

/-- `map_reput` that fails changes no record. -/
theorem mapReput_fails {m : Map Addr} (hcarries : w.carries m = true) {key : UInt32}
    (hrc : (Qrtr.mapReput w.allocs m key a).rc ≠ 0) :
    w.mapReput m key a = some (Qrtr.mapReput w.allocs m key a,
      { w with allocs := (Qrtr.mapReput w.allocs m key a).allocs }) := by
  simp only [Exec.mapReput, if_pos hcarries, if_pos hrc]

/-- `map_reput` that succeeds writes the key into the record. -/
theorem mapReput_puts {m : Map Addr} (hcarries : w.carries m = true) {key : UInt32} {r : Record}
    (hcells : w.heap.cells a = some r) (hrc : (Qrtr.mapReput w.allocs m key a).rc = 0) :
    w.mapReput m key a = some (Qrtr.mapReput w.allocs m key a,
      { w with
        allocs := (Qrtr.mapReput w.allocs m key a).allocs
        heap := w.heap.put a (r.setKey key) }) := by
  simp only [Exec.mapReput, if_pos hcarries, if_neg (not_not.2 hrc), hcells]
  rfl

/-- A put that fails leaves the map as it was. -/
theorem map_of_mapReput_fails {V : Type} {m : Map V} (h : m.Inv) {allocs : AllocPlan} {key : UInt32}
    {value : V} (hrc : (Qrtr.mapReput allocs m key value).rc ≠ 0) :
    (Qrtr.mapReput allocs m key value).map = m := by
  rcases mapReput_cases h allocs key value with ⟨-, -, -, -, hok, -⟩ | ⟨-, hmap, -⟩
  · exact absurd hok hrc
  · exact hmap

theorem nodeInsert_puts (hcarries : w.carries w.nodes = true) {nodeId : UInt32} {r : Record}
    (hcells : w.heap.cells a = some r)
    (hrc : (Qrtr.mapReput w.allocs w.nodes (hashU32 nodeId) a).rc = 0) :
    nodeInsert w nodeId a = some (some a,
      { w with
        nodes := (Qrtr.mapReput w.allocs w.nodes (hashU32 nodeId) a).map
        allocs := (Qrtr.mapReput w.allocs w.nodes (hashU32 nodeId) a).allocs
        heap := w.heap.put a (r.setKey (hashU32 nodeId)) }) := by
  simp only [nodeInsert, Exec.mapPut, mapReput_puts hcarries hcells hrc, Option.bind_eq_bind,
    Option.bind_some, hrc, ne_eq, not_true_eq_false, if_false]

theorem nodeInsert_fails (hcarries : w.carries w.nodes = true) {nodeId : UInt32} {r : Record}
    (hcells : w.heap.cells a = some r)
    (hrc : (Qrtr.mapReput w.allocs w.nodes (hashU32 nodeId) a).rc ≠ 0) :
    nodeInsert w nodeId a = some (none,
      { w with
        nodes := (Qrtr.mapReput w.allocs w.nodes (hashU32 nodeId) a).map
        allocs := (Qrtr.mapReput w.allocs w.nodes (hashU32 nodeId) a).allocs
        heap := w.heap.drop a }) := by
  simp only [nodeInsert, Exec.mapPut, mapReput_fails hcarries hrc, Option.bind_eq_bind,
    Option.bind_some, hrc, ne_eq, not_false_eq_true, if_true, Exec.free, free_eq hcells]

/-- `node_get` finds or makes the record of the node, or makes none for want of memory. -/
theorem nodeGet_shows (h : ExecShows spare ls w v) (nodeId : UInt32) :
    ∃ r w', nodeGet w nodeId = some (r, w') ∧ ExecShows spare ls w' (Qrtr.nodeGet v nodeId).2 ∧
      NodeFound w' nodeId r (Qrtr.nodeGet v nodeId).1 ∧
      w'.heap.select Record.server? = w.heap.select Record.server? ∧
      (Qrtr.nodeGet v nodeId).2.services = v.services := by
  have hcarries := h.carries_nodes
  have hshown : Qrtr.mapGet v.nodes (hashU32 nodeId) =
      (Qrtr.mapGet w.nodes (hashU32 nodeId)).map (idOf (w.heap.select Record.node?)) := by
    rw [h.tables.nodes_eq, mapGet_image]
  simp only [nodeGet, Ns.mapGet, hcarries, if_true, Qrtr.nodeGet, hshown]
  cases hget : Qrtr.mapGet w.nodes (hashU32 nodeId) with
  | some a =>
      obtain ⟨t, ha⟩ := h.tables.get hget
      exact ⟨some a, w, rfl, h, ⟨congrArg some (idOf_eq ha), _, t, ha⟩, rfl, rfl⟩
  | none =>
      simp only [Option.map_none, h.allocs, Exec.calloc]
      rcases Qrtr.calloc w.allocs with ⟨ok, rest⟩
      cases ok with
      | false => exact ⟨none, _, rfl, h.allocs_eq rest, rfl, rfl, rfl⟩
      | true =>
          have hfresh := h.bounded.select_fresh Record.node?
          obtain ⟨hnodes, hput⟩ := h.tables.put_shown hfresh rest nodeId
          have hcarries' := carries_alloc h.bounded hcarries (.node nodeId 0 mapCreate)
          have hrc : (Qrtr.mapPut rest v.nodes (hashU32 nodeId) nodeId).rc =
              (Qrtr.mapReput rest w.nodes (hashU32 nodeId) w.heap.fresh).rc := by
            rw [Qrtr.mapPut, hput]
            rfl
          have hallocs : (Qrtr.mapPut rest v.nodes (hashU32 nodeId) nodeId).allocs =
              (Qrtr.mapReput rest w.nodes (hashU32 nodeId) w.heap.fresh).allocs := by
            rw [Qrtr.mapPut, hput]
            rfl
          have hservices : Function.update v.services nodeId (MapOps.create : Map Server) = v.services := by
            rw [show (MapOps.create : Map Server) = v.services nodeId from
              (h.tables.absent (h.tables.get_none hget)).symm, Function.update_eq_self]
          simp only [hrc, hallocs]
          by_cases hok : (Qrtr.mapReput rest w.nodes (hashU32 nodeId) w.heap.fresh).rc = 0
          · refine ⟨_, _, nodeInsert_puts hcarries' (cells_alloc_fresh ..) hok, ?_⟩
            rw [if_neg (not_not.2 hok)]
            refine ⟨?_, ⟨rfl, hashU32 nodeId, mapCreate, ?_⟩, ?_, hservices⟩
            · exact
                { h with
                  allocs := rfl
                  bounded := (h.bounded.alloc _).put (cells_alloc_fresh ..) _
                  tables := by
                    rw [select_put_alloc, h.bounded.select_put_alloc_of_none (f := Record.server?) rfl]
                    exact h.tables.newNode hget hfresh hok
                  lookups := by
                    rw [h.bounded.select_put_alloc_of_none (f := Record.lookup?) rfl]
                    exact h.lookups }
            · rw [select_put_alloc]
              exact Function.update_self ..
            · exact h.bounded.select_put_alloc_of_none rfl
          · refine ⟨_, _, nodeInsert_fails hcarries' (cells_alloc_fresh ..) hok, ?_⟩
            rw [if_pos hok]
            refine ⟨?_, rfl, h.bounded.select_drop_alloc _ _, rfl⟩
            have hmap : (Qrtr.mapPut rest v.nodes (hashU32 nodeId) nodeId).map = v.nodes := by
              rw [Qrtr.mapPut, hput, hnodes]
              exact congrArg (Map.image _) (map_of_mapReput_fails h.tables.inv hok)
            exact
              { h with
                allocs := rfl
                bounded := (h.bounded.alloc _).drop _
                tables := by
                  simp only [h.bounded.select_drop_alloc, hmap, map_of_mapReput_fails h.tables.inv hok]
                  exact h.tables
                lookups := by
                  rw [h.bounded.select_drop_alloc]
                  exact h.lookups }

/-! ### Adding a server -/

/-- The put that `server_add` makes, as the table of servers sees it. -/
theorem ExecShows.reput_shown (h : ExecShows spare ls w v)
    (ha : w.heap.select Record.node? a = some (id, k, t)) {key : UInt32}
    (hb : w.heap.select Record.server? b = some (srv, key)) (port : UInt32) :
    Qrtr.mapReput v.allocs (v.services id) port srv =
      (Qrtr.mapReput w.allocs t port b).image (serverOf (w.heap.select Record.server?)) := by
  rw [h.allocs]
  exact mapReput_shown (h.tables.table ha).shown_eq (serverOf_eq hb) _ _

/-- The state behind a put that succeeds, before the record that is replaced is freed. -/
theorem ExecShows.put (h : ExecShows spare ls w v)
    (ha : w.heap.select Record.node? a = some (id, k, t)) {key : UInt32}
    (hb : w.heap.select Record.server? b = some (srv, key)) (hspare : spare b) (hid : srv.node = id)
    {port : UInt32} (hrc : (Qrtr.mapReput w.allocs t port b).rc = 0) :
    ExecShows (spareAfter spare t (Qrtr.mapReput w.allocs t port b).map b) ls
      { w with
        allocs := (Qrtr.mapReput w.allocs t port b).allocs
        heap := (w.heap.put b (.server srv port)).put a
          (.node id k (Qrtr.mapReput w.allocs t port b).map) }
      { v with
        services := Function.update v.services id (Qrtr.mapReput v.allocs (v.services id) port srv).map
        allocs := (Qrtr.mapReput v.allocs (v.services id) port srv).allocs } := by
  have hcells := cells_of_server hb
  have hcells' : (w.heap.put b (.server srv port)).cells a = some (.node id k t) := by
    rw [cells_put, if_neg, cells_of_node ha]
    rintro rfl
    rw [cells_of_node ha] at hcells
    cases hcells
  have hnode : (w.heap.put b (.server srv port)).select Record.node? = w.heap.select Record.node? :=
    select_put_of_none _ (select_of_cells hcells rfl) rfl
  have hserver : ((w.heap.put b (.server srv port)).put a
      (.node id k (Qrtr.mapReput w.allocs t port b).map)).select Record.server? =
        (w.heap.put b (.server srv port)).select Record.server? :=
    select_put_of_none _ (select_of_cells hcells' rfl) rfl
  exact
    { h with
      allocs := by
        rw [h.reput_shown ha hb]
        rfl
      bounded := (h.bounded.put hcells _).put hcells' _
      tables := by
        rw [hserver, select_put, hnode, select_put, h.allocs]
        exact h.tables.put ha hb hspare hid hrc
      lookups := by
        rw [select_put_of_none Record.lookup? (select_of_cells hcells' rfl) rfl,
          select_put_of_none Record.lookup? (select_of_cells hcells rfl) rfl]
        exact h.lookups }

/-- A put that fails: the new record is freed. -/
theorem serverInsert_fails (h : ExecShows spare ls w v)
    (ha : w.heap.select Record.node? a = some (id, k, t)) (hspare : spare b) {port : UInt32}
    (hrc : (Qrtr.mapReput w.allocs t (hashU32 port) b).rc ≠ 0) :
    ∃ w', serverInsert w a b port = some (none, w') ∧
      ExecShows (fun c => spare c ∧ c ≠ b) ls w'
        { v with allocs := (Qrtr.mapReput w.allocs t (hashU32 port) b).allocs } := by
  obtain ⟨hfree, hw'⟩ := (h.allocs_eq (Qrtr.mapReput w.allocs t (hashU32 port) b).allocs).free hspare
  refine ⟨_, ?_, hw'⟩
  have hmap := map_of_mapReput_fails (h.tables.table ha).inv hrc
  simp only [serverInsert, servicesAt_eq ha, mapReput_fails (h.carries_services ha) hrc,
    Option.bind_eq_bind, Option.bind_some, if_pos hrc, hmap, Exec.setServices, cells_of_node ha,
    put_eq_self (cells_of_node ha), hfree]

/-- A put that succeeds: the record that it replaces is freed. -/
theorem serverInsert_puts (h : ExecShows spare ls w v)
    (ha : w.heap.select Record.node? a = some (id, k, t)) {key : UInt32}
    (hb : w.heap.select Record.server? b = some (srv, key)) (hspare : spare b) (hid : srv.node = id)
    {port : UInt32} (hrc : (Qrtr.mapReput w.allocs t (hashU32 port) b).rc = 0) :
    ∃ w' spare', serverInsert w a b port = some (some b, w') ∧
      ExecShows spare' ls w'
        { v with
          services := Function.update v.services id
            (Qrtr.mapReput v.allocs (v.services id) (hashU32 port) srv).map
          allocs := (Qrtr.mapReput v.allocs (v.services id) (hashU32 port) srv).allocs } ∧
      (∃ key', w'.heap.select Record.server? b = some (srv, key')) ∧
      ((v.services id).Unique → (v.services id).PutOk (hashU32 port) →
        ∀ c, spare' c ↔ spare c ∧ c ≠ b) := by
  have hput := h.put ha hb hspare hid hrc
  have hta := h.tables.table ha
  have hitems := mapReput_items hta.inv hta.apart (h.tables.spare_free hspare ha) hrc
  have hcells := cells_of_server hb
  have ha' : (w.heap.put b (.server srv (hashU32 port))).select Record.node? a = some (id, k, t) := by
    rw [select_put_of_none Record.node? (select_of_cells hcells rfl) rfl, ha]
  have hne : a ≠ b := by
    rintro rfl
    rw [cells_of_node ha] at hcells
    cases hcells
  -- the state once the map has the new record
  have hnone (hold : (Qrtr.mapReput w.allocs t (hashU32 port) b).old = none) :
      serverInsert w a b port = some (some b, { w with
        allocs := (Qrtr.mapReput w.allocs t (hashU32 port) b).allocs
        heap := (w.heap.put b (.server srv (hashU32 port))).put a
          (.node id k (Qrtr.mapReput w.allocs t (hashU32 port) b).map) }) := by
    simp only [serverInsert, servicesAt_eq ha, mapReput_puts (h.carries_services ha) hcells hrc,
      Option.bind_eq_bind, Option.bind_some, hrc, ne_eq, not_true_eq_false, if_false,
      Record.setKey, Exec.setServices, cells_of_node ha', hold]
  have hsome {old : Addr} (hold : (Qrtr.mapReput w.allocs t (hashU32 port) b).old = some old) :
      serverInsert w a b port = (Exec.free { w with
        allocs := (Qrtr.mapReput w.allocs t (hashU32 port) b).allocs
        heap := (w.heap.put b (.server srv (hashU32 port))).put a
          (.node id k (Qrtr.mapReput w.allocs t (hashU32 port) b).map) } old).bind
        fun w => some (some b, w) := by
    simp only [serverInsert, servicesAt_eq ha, mapReput_puts (h.carries_services ha) hcells hrc,
      Option.bind_eq_bind, Option.bind_some, hrc, ne_eq, not_true_eq_false, if_false,
      Record.setKey, Exec.setServices, cells_of_node ha', hold]
  have hlive : ((w.heap.put b (.server srv (hashU32 port))).put a
      (.node id k (Qrtr.mapReput w.allocs t (hashU32 port) b).map)).cells b =
        some (.server srv (hashU32 port)) := by
    rw [cells_put, if_neg hne.symm, cells_put, if_pos rfl]
  have hkept : ∀ hu : (v.services id).Unique, ∀ hok : (v.services id).PutOk (hashU32 port), ∀ c,
      ((∃ l, t.Holds l c) ∧ ∀ l, ¬ (Qrtr.mapReput w.allocs t (hashU32 port) b).map.Holds l c) ↔
        (Qrtr.mapReput w.allocs t (hashU32 port) b).old = some c := by
    intro hu hok c
    rw [hta.shown_eq, Map.unique_image] at hu
    rw [hta.shown_eq, Map.putOk_image] at hok
    constructor
    · rintro ⟨⟨l, hl⟩, hgone⟩
      exact (hitems.kept hu hok hl).resolve_left (hgone l)
    · exact hitems.old
  cases hold : (Qrtr.mapReput w.allocs t (hashU32 port) b).old with
  | none =>
      refine ⟨_, _, hnone hold, hput, ⟨hashU32 port, ?_⟩, ?_⟩
      · rw [select, hlive]
        rfl
      · intro hu hok c
        rw [spareAfter, hkept hu hok, hold]
        simp
  | some old =>
      obtain ⟨⟨l, hl⟩, hgone⟩ := hitems.old hold
      obtain ⟨hfree, hw'⟩ := hput.free (Or.inr ⟨⟨l, hl⟩, hgone⟩)
      have hne' : b ≠ old := by
        rintro rfl
        exact h.tables.spare_free hspare ha l hl
      refine ⟨_, _, by simp only [hsome hold, hfree, Option.bind_some], hw', ⟨hashU32 port, ?_⟩, ?_⟩
      · rw [select, cells_drop, if_neg hne', hlive]
        rfl
      · intro hu hok c
        rw [spareAfter, hkept hu hok, hold]
        have hnot : ¬ spare old := fun hs => h.tables.spare_free hs ha l hl
        constructor
        · rintro ⟨hs | heq, hc⟩
          · exact hs
          · exact absurd (Option.some.inj heq).symm hc
        · rintro ⟨hs, hcb⟩
          refine ⟨Or.inl ⟨hs, hcb⟩, ?_⟩
          rintro rfl
          exact hnot hs

/-- A record that was made and freed again, or put into a table. -/
theorem spare_new (hnot : ¬ spare b) (c : Addr) : (spare c ∨ c = b) ∧ c ≠ b ↔ spare c := by
  constructor
  · rintro ⟨hs | heq, hne⟩
    · exact hs
    · exact absurd heq hne
  · intro hs
    refine ⟨Or.inl hs, ?_⟩
    rintro rfl
    exact hnot hs

/-- What `server_add` returns: NULL in both states, or the record of the server. -/
def ServerFound (w : Exec) : Option Addr → Option Server → Prop
  | none, srv => srv = none
  | some b, srv => ∃ s k, srv = some s ∧ w.heap.select Record.server? b = some (s, k)

/-- `server_add` puts the server into the table of its node, or frees its record. If the port is not
    registered twice, no record is lost. -/
theorem serverAdd_shows (h : ExecShows spare ls w v) (service inst nodeId port : UInt32) :
    ∃ r w' spare', serverAdd w service inst nodeId port = some (r, w') ∧
      ExecShows spare' ls w' (Qrtr.serverAdd v service inst nodeId port).2 ∧
      ServerFound w' r (Qrtr.serverAdd v service inst nodeId port).1 ∧
      ((service ≠ 0 → port ≠ 0 →
          (v.services nodeId).Unique ∧ (v.services nodeId).PutOk (hashU32 port)) →
        ∀ c, spare' c ↔ spare c) := by
  simp only [serverAdd, Qrtr.serverAdd]
  by_cases hzero : service = 0 ∨ port = 0
  · rw [if_pos hzero, if_pos hzero]
    exact ⟨none, w, spare, rfl, h, rfl, fun _ _ => Iff.rfl⟩
  · rw [if_neg hzero, if_neg hzero]
    simp only [h.allocs, Exec.calloc]
    rcases Qrtr.calloc w.allocs with ⟨ok, rest⟩
    cases ok with
    | false => exact ⟨none, _, spare, rfl, h.allocs_eq rest, rfl, fun _ _ => Iff.rfl⟩
    | true =>
        have hnot : ¬ spare w.heap.fresh := fun hs => by
          obtain ⟨s, k, hlive⟩ := h.tables.spare_live hs
          rw [h.bounded.select_fresh] at hlive
          cases hlive
        have h₁ := h.newServer rest { service := service, inst := inst, node := nodeId, port := port } 0
        obtain ⟨r, w₂, hget, h₂, hfound, hserver, hservices⟩ := nodeGet_shows h₁ nodeId
        simp only [hget]
        rcases hv : Qrtr.nodeGet { v with allocs := rest } nodeId with ⟨r', v₂⟩
        rw [hv] at h₂ hfound hservices
        have hnew : w₂.heap.select Record.server? w.heap.fresh =
            some ({ service := service, inst := inst, node := nodeId, port := port }, 0) := by
          rw [hserver, select_alloc]
          exact Function.update_self ..
        cases r with
        | none =>
            cases hfound
            obtain ⟨hfree, hw'⟩ := h₂.free (Or.inr rfl)
            refine ⟨none, _, _, by simp only [Option.bind_eq_bind, Option.bind_some, hfree], hw', rfl, ?_⟩
            exact fun _ => spare_new hnot
        | some a =>
            obtain ⟨rfl, k, t, ha⟩ := hfound
            have hrc : (MapOps.reput v₂.allocs (v₂.services nodeId) (hashU32 port)
                ({ service := service, inst := inst, node := nodeId, port := port } : Server)).rc =
                  (Qrtr.mapReput w₂.allocs t (hashU32 port) w.heap.fresh).rc :=
              congrArg PutResult.rc (h₂.reput_shown ha hnew (hashU32 port))
            have hallocs : (MapOps.reput v₂.allocs (v₂.services nodeId) (hashU32 port)
                ({ service := service, inst := inst, node := nodeId, port := port } : Server)).allocs =
                  (Qrtr.mapReput w₂.allocs t (hashU32 port) w.heap.fresh).allocs :=
              congrArg PutResult.allocs (h₂.reput_shown ha hnew (hashU32 port))
            simp only [Option.bind_eq_bind, Option.bind_some, hrc]
            by_cases hok : (Qrtr.mapReput w₂.allocs t (hashU32 port) w.heap.fresh).rc = 0
            · obtain ⟨w', spare', hinsert, hw', ⟨key, hkey⟩, hspare⟩ :=
                serverInsert_puts h₂ ha hnew (Or.inr rfl) rfl hok
              rw [if_neg (not_not.2 hok)]
              refine ⟨_, w', spare', hinsert, hw', ⟨_, key, rfl, hkey⟩, fun hplain c => ?_⟩
              obtain ⟨hu, hputOk⟩ := hplain (fun hz => hzero (Or.inl hz)) fun hz => hzero (Or.inr hz)
              rw [← congrFun hservices nodeId] at hu hputOk
              rw [hspare hu hputOk c]
              exact spare_new hnot c
            · obtain ⟨w', hinsert, hw'⟩ := serverInsert_fails h₂ ha (Or.inr rfl) hok
              rw [if_pos hok]
              refine ⟨none, w', _, hinsert, ?_, rfl, fun _ => spare_new hnot⟩
              -- the table of servers is the one it was, too
              have htable : (MapOps.reput v₂.allocs (v₂.services nodeId) (hashU32 port)
                  ({ service := service, inst := inst, node := nodeId, port := port } : Server)).table =
                    v₂.services nodeId := by
                have hmap := congrArg PutResult.map (h₂.reput_shown ha hnew (hashU32 port))
                have hshown := (h₂.tables.table ha).shown_eq
                exact hmap.trans
                  ((congrArg (Map.image _) (map_of_mapReput_fails (h₂.tables.table ha).inv hok)).trans
                    hshown.symm)
              rw [htable, Function.update_eq_self, hallocs]
              exact hw'

end

end Qrtr.Records
