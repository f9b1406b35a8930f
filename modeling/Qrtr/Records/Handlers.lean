/-
Module: Qrtr.Records.Handlers
Layer: Records
Purpose: The loops and the handlers of the name server with records do what those without records do. A loop
  over a linked list comes to its end, since the items of the list are different live records; a loop that
  sends changes no record; the loop of `ctrl_cmd_bye`, which takes servers out of the table it iterates
  over, never stands at a slot without an item. `ctrlPortFn_shows` puts the handlers together.
Imports: Qrtr.Records.Simulation, Qrtr.NameServer.Steps
Main exports: Simulates, serverDel_shows, byeLoop_shows, removeLookups_shows, serverQuery_shows,
  ctrlPortFn_shows
Open obligations: none
-/
import Qrtr.Records.Simulation
import Qrtr.NameServer.Steps
import Mathlib.Data.List.Flatten

namespace Qrtr.Records

open RecordHeap

variable {spare : Addr → Prop} {ls : List Addr} {w : Exec} {v : Qrtr.Exec (Map Server)} {a b : Addr}
  {srv : Server} {id k key : UInt32} {t : Map Addr}

/-! ### Loops that send -/

@[simp] theorem sendAll_nil (w : Exec) : w.sendAll [] = w := by
  simp [Exec.sendAll]

theorem lookupNotify_eq (hb : w.heap.select Record.server? b = some (srv, key)) (dest : Sockaddr)
    (new : Bool) :
    ∃ rc, lookupNotify w dest b new = some (rc, w.sendAll [notifyMsg w.order dest (some srv) new]) := by
  refine ⟨(w.sendto (.lookupNotify (some srv) new) dest (notifyPkt w.order (some srv) new)).1, ?_⟩
  rw [lookupNotify, serverAt_eq hb, notifyMsg, ← sendto_snd]
  rfl

/-- The loop over the lookups, from any item of the list on. -/
theorem notifyObservers_eq (service inst : UInt32) (new : Bool) :
    ∀ (rest pre : List Addr) {n : Nat} {w : Exec}, w.lookups.Stands (pre ++ rest) →
      (∀ a ∈ rest, ∃ l, w.heap.select Record.lookup? a = some l) → rest.length < n →
      w.heap.select Record.server? b = some (srv, key) →
      notifyObservers service inst b new n rest.head? w =
        some (w.sendAll (((rest.filterMap (w.heap.select Record.lookup?)).filter fun lookup =>
          lookup.observes service inst).map fun lookup => notifyMsg w.order lookup.sq (some srv) new))
  | [], _, n + 1, w, _, _, _, _ => by simp [notifyObservers]
  | li :: rest, pre, n + 1, w, hstands, hlive, hlen, hb => by
      obtain ⟨⟨l, hl⟩, hlive'⟩ := List.forall_mem_cons.1 hlive
      have hnext : w.lookups.next li = rest.head? := hstands.next_eq
      have hstands' : w.lookups.Stands ((pre ++ [li]) ++ rest) := by simpa using hstands
      have hlen' : rest.length < n := Nat.lt_of_succ_lt_succ hlen
      simp only [List.head?_cons, notifyObservers, lookupAt_eq hl, Option.bind_eq_bind, Option.bind_some,
        List.filterMap_cons, hl, List.filter_cons]
      by_cases hobs : l.observes service inst = true
      · obtain ⟨rc, hnotify⟩ := lookupNotify_eq hb l.sq new
        have hrest := notifyObservers_eq service inst new rest (pre ++ [li]) (n := n)
          (w := w.sendAll [notifyMsg w.order l.sq (some srv) new]) hstands' hlive' hlen' hb
        rw [if_pos hobs, if_pos hobs, hnotify, Option.bind_some]
        simp only [Exec.sendAll] at hrest ⊢
        rw [hnext, hrest]
        simp
      · rw [if_neg hobs, if_neg hobs, hnext]
        exact notifyObservers_eq service inst new rest (pre ++ [li]) hstands' hlive' hlen' hb

/-- The lookups are fewer than the addresses that have been given out. -/
theorem ExecShows.length_lookups_le (h : ExecShows spare ls w v) : ls.length ≤ w.heap.fresh := by
  refine h.bounded.length_le h.lookups.nodup fun a ha => ?_
  obtain ⟨l, hl⟩ := h.lookups.mem_iff.1 ha
  exact ⟨_, cells_of_lookup hl⟩

/-- The loop over all lookups. -/
theorem notifyObservers_shows (h : ExecShows spare ls w v)
    (hb : w.heap.select Record.server? b = some (srv, key)) (service inst : UInt32) (new : Bool) :
    ∃ w', notifyObservers service inst b new (w.heap.fresh + 1) w.lookups.head w = some w' ∧
      ExecShows spare ls w' (Qrtr.notifyObservers service inst srv new v.lookups v) ∧
      w'.heap = w.heap := by
  have hloop := notifyObservers_eq service inst new ls [] (n := w.heap.fresh + 1) h.lookups.stands
    (fun a ha => h.lookups.mem_iff.1 ha) (Nat.lt_succ_of_le h.length_lookups_le) hb
  rw [h.lookups.stands.head_eq]
  refine ⟨_, hloop, ?_, rfl⟩
  rw [Qrtr.notifyObservers_eq, h.lookups.lookups_eq, h.order]
  exact h.sendAll _

/-- The broadcast that a local server is new. -/
theorem announceNew_shows (h : ExecShows spare ls w v)
    (hb : w.heap.select Record.server? b = some (srv, key)) (dest : Sockaddr) :
    ∃ w', serviceAnnounceNew w dest b = some ((Qrtr.serviceAnnounceNew v dest srv).1, w') ∧
      ExecShows spare ls w' (Qrtr.serviceAnnounceNew v dest srv).2 ∧ w'.heap = w.heap := by
  obtain ⟨hrc, hw'⟩ := h.sendto (.announceNew srv) dest (announcePkt v.order qrtrTypeNewServer srv)
  refine ⟨_, ?_, hw', rfl⟩
  rw [Qrtr.serviceAnnounceNew, hrc, serviceAnnounceNew, serverAt_eq hb, h.order]
  rfl

/-- The broadcast that a local server is gone. -/
theorem announceDel_shows (h : ExecShows spare ls w v)
    (hb : w.heap.select Record.server? b = some (srv, key)) (dest : Sockaddr) :
    ∃ w', serviceAnnounceDel w dest b = some ((Qrtr.serviceAnnounceDel v dest srv).1, w') ∧
      ExecShows spare ls w' (Qrtr.serviceAnnounceDel v dest srv).2 ∧ w'.heap = w.heap := by
  obtain ⟨hrc, hw'⟩ := h.sendto (.announceDel srv) dest (announcePkt v.order qrtrTypeDelServer srv)
  refine ⟨_, ?_, hw', rfl⟩
  rw [Qrtr.serviceAnnounceDel, hrc, serviceAnnounceDel, serverAt_eq hb, h.order]
  rfl

/-- The broadcast that a server is gone, if it is local. -/
theorem announceGone_shows (h : ExecShows spare ls w v)
    (hb : w.heap.select Record.server? b = some (srv, key)) :
    ∃ rc w', announceGone w b = some (rc, w') ∧
      ExecShows spare ls w'
        (if srv.node = v.localNode then (Qrtr.serviceAnnounceDel v bcastSq srv).2 else v) ∧
      w'.heap = w.heap := by
  simp only [announceGone, serverAt_eq hb, Option.bind_eq_bind, Option.bind_some, h.localNode]
  by_cases hlocal : srv.node = w.localNode
  · obtain ⟨w', hsend, hw', hheap⟩ := announceDel_shows h hb bcastSq
    rw [if_pos hlocal, if_pos hlocal]
    exact ⟨_, w', hsend, hw', hheap⟩
  · rw [if_neg hlocal, if_neg hlocal]
    exact ⟨0, w, rfl, h, rfl⟩

/-- The broadcast that a server is new, if it is local. -/
theorem announceAdded_shows (h : ExecShows spare ls w v)
    (hb : w.heap.select Record.server? b = some (srv, key)) :
    ∃ w', announceAdded w b =
        some ((if srv.node = v.localNode then Qrtr.serviceAnnounceNew v bcastSq srv else (0, v)).1, w') ∧
      ExecShows spare ls w'
        (if srv.node = v.localNode then Qrtr.serviceAnnounceNew v bcastSq srv else (0, v)).2 ∧
      w'.heap = w.heap := by
  simp only [announceAdded, serverAt_eq hb, Option.bind_eq_bind, Option.bind_some, h.localNode]
  by_cases hlocal : srv.node = w.localNode
  · obtain ⟨w', hsend, hw', hheap⟩ := announceNew_shows h hb bcastSq
    rw [if_pos hlocal, if_pos hlocal]
    exact ⟨w', hsend, hw', hheap⟩
  · rw [if_neg hlocal, if_neg hlocal]
    exact ⟨w, rfl, h, rfl⟩

/-! ### Removing servers -/

/-- A server is taken out of the table of its node. -/
theorem ExecShows.takeOut (h : ExecShows spare ls w v)
    (ha : w.heap.select Record.node? a = some (id, k, t)) {port : UInt32}
    (hget : Qrtr.mapGet t port = some b) :
    ExecShows (fun c => spare c ∨ c = b) ls
      { w with heap := w.heap.put a (.node id k (Qrtr.mapRemove t port).2) }
      { v with
        services := Function.update v.services id (Qrtr.mapRemove (v.services id) port).2 } :=
  have hcells := cells_of_node ha
  { h with
    bounded := h.bounded.put hcells _
    tables := by
      rw [select_put, select_put_of_none Record.server? (select_of_cells hcells rfl) rfl]
      exact h.tables.remove ha hget
    lookups := by
      rw [select_put_of_none Record.lookup? (select_of_cells hcells rfl) rfl]
      exact h.lookups }

/-- A table without the port is left alone by a removal. -/
theorem mapRemove_of_get_none {V : Type} {m : Map V} (h : m.Inv) {port : UInt32}
    (hget : Qrtr.mapGet m port = none) : (Qrtr.mapRemove m port).2 = m := by
  have hfind := (mapFind_eq_none_iff h).2 fun v => (mapGet_eq_none_iff h).1 hget v
  rw [Qrtr.mapRemove, hfind]

/-- Telling all that a server is gone, and freeing its record. -/
theorem serverDrop_shows (h : ExecShows spare ls w v) (hspare : spare b)
    (hb : w.heap.select Record.server? b = some (srv, key)) :
    ∃ w', serverDrop w b = some w' ∧
      ExecShows (fun c => spare c ∧ c ≠ b) ls w'
        (Qrtr.notifyObservers srv.service srv.inst srv false
          (if srv.node = v.localNode then (Qrtr.serviceAnnounceDel v bcastSq srv).2 else v).lookups
          (if srv.node = v.localNode then (Qrtr.serviceAnnounceDel v bcastSq srv).2 else v)) ∧
      w'.heap = w.heap.drop b := by
  obtain ⟨rc₁, w₁, hsend, h₁, hheap₁⟩ := announceGone_shows h hb
  have hb₁ : w₁.heap.select Record.server? b = some (srv, key) := by rw [hheap₁, hb]
  obtain ⟨w₂, hloop, h₂, hheap₂⟩ := notifyObservers_shows h₁ hb₁ srv.service srv.inst false
  obtain ⟨hfree, h₃⟩ := h₂.free hspare
  refine ⟨_, ?_, h₃, ?_⟩
  · simp only [serverDrop, hsend, serverAt_eq hb₁, hloop, hfree, Option.bind_eq_bind, Option.bind_some]
  · rw [← hheap₁, ← hheap₂]

/-- What `server_del` does once it has found the server. -/
theorem serverDel_found (h : ExecShows spare ls w v)
    (ha : w.heap.select Record.node? a = some (id, k, t)) {port : UInt32}
    (hget : Qrtr.mapGet t (hashU32 port) = some b)
    (hb : w.heap.select Record.server? b = some (srv, hashU32 port)) :
    ∃ w', serverDel w a port = some ((Qrtr.serverDel v id port).1, w') ∧
      ExecShows spare ls w' (Qrtr.serverDel v id port).2 ∧
      w'.heap.select Record.node? a = some (id, k, (Qrtr.mapRemove t (hashU32 port)).2) := by
  have hcarries := h.carries_services ha
  have hshown : MapOps.get (v.services id) (hashU32 port) = some srv := by
    show Qrtr.mapGet (v.services id) (hashU32 port) = some srv
    rw [(h.tables.table ha).shown_eq, mapGet_image, hget, Option.map_some, serverOf_eq hb]
  have hcells := cells_of_server hb
  have hne : b ≠ a := by
    rintro rfl
    rw [cells_of_node ha] at hcells
    cases hcells
  have hnot : ¬ spare b := fun hs => h.tables.spare_free hs ha _ (holds_of_mapGet hget)
  have h₁ := h.takeOut ha hget
  have hb₁ : (w.heap.put a (.node id k (Qrtr.mapRemove t (hashU32 port)).2)).select Record.server? b =
      some (srv, hashU32 port) := by
    rw [select_put_of_none Record.server? (select_of_cells (cells_of_node ha) rfl) rfl, hb]
  obtain ⟨w', hdrop, hw', hheap⟩ := serverDrop_shows h₁ (Or.inr rfl) hb₁
  refine ⟨w', ?_, ?_, ?_⟩
  · simp only [serverDel, servicesAt_eq ha, Ns.mapGet, hcarries, if_true, hget, keyAt_of_server hb,
      Ns.mapRemove, Exec.setServices, cells_of_node ha, Option.bind_eq_bind, Option.bind_some, hdrop,
      Qrtr.serverDel, hshown]
  · rw [Qrtr.serverDel, hshown]
    exact hw'.spare_congr fun c => (spare_new hnot c).symm
  · rw [hheap, select_drop, Function.update_of_ne hne.symm, select_put]
    exact Function.update_self ..

/-- `server_del` takes the server of the port out of the table and frees it. -/
theorem serverDel_shows (h : ExecShows spare ls w v)
    (ha : w.heap.select Record.node? a = some (id, k, t)) (port : UInt32) :
    ∃ w', serverDel w a port = some ((Qrtr.serverDel v id port).1, w') ∧
      ExecShows spare ls w' (Qrtr.serverDel v id port).2 ∧
      w'.heap.select Record.node? a = some (id, k, (Qrtr.mapRemove t (hashU32 port)).2) := by
  have hta := h.tables.table ha
  cases hget : Qrtr.mapGet t (hashU32 port) with
  | some b =>
      obtain ⟨srv, hb, -⟩ := hta.held (holds_of_mapGet hget)
      exact serverDel_found h ha hget hb
  | none =>
      have hshown : MapOps.get (v.services id) (hashU32 port) = none := by
        show Qrtr.mapGet (v.services id) (hashU32 port) = none
        rw [hta.shown_eq, mapGet_image, hget, Option.map_none]
      rw [mapRemove_of_get_none hta.inv hget]
      refine ⟨w, ?_, ?_, ha⟩
      · simp only [serverDel, servicesAt_eq ha, Ns.mapGet, h.carries_services ha, if_true, hget,
          Qrtr.serverDel, hshown, Option.bind_eq_bind, Option.bind_some]
      · rw [Qrtr.serverDel, hshown]
        exact h

/-- The loop of `ctrl_cmd_bye`, from any iterator on: it stands at an item in every round, and the rounds
    are enough. -/
theorem byeLoop_shows (id k : UInt32) :
    ∀ (n start : Nat) {w : Exec} {v : Qrtr.Exec (Map Server)} {t : Map Addr},
      ExecShows spare ls w v → w.heap.select Record.node? a = some (id, k, t) → start ≤ t.size →
      t.size < n + start →
      ∃ w', byeLoop a n (mapIterFrom t start) w = some w' ∧
        ExecShows spare ls w' (Qrtr.byeLoop id n (mapIterFrom t start) v)
  | 0, start, w, v, t, _, _, hle, hlt => absurd hlt (by omega)
  | n + 1, start, w, v, t, h, ha, hle, hlt => by
      cases hiter : mapIterFrom t start with
      | none => exact ⟨w, rfl, h⟩
      | some me =>
          obtain ⟨hme, hlive, -⟩ := (mapIterFrom_eq_some_iff t).1 hiter
          obtain ⟨⟨l, b⟩, hslot⟩ := Option.isSome_iff_exists.1 hlive
          have hitem := Map.live_eq_some_iff.1 hslot
          have hlt' := Map.lt_size_of_item hitem
          obtain ⟨srv, hb, -⟩ := (h.tables.table ha).held ⟨me, hitem⟩
          obtain ⟨w₁, hdel, h₁, ha₁⟩ := serverDel_shows h ha srv.port
          have hsize : (Qrtr.mapRemove t (hashU32 srv.port)).2.size = t.size := Map.size_mapRemove t _
          obtain ⟨w', hloop, hw'⟩ := byeLoop_shows id k n (me + 1) h₁ ha₁ (by omega) (by omega)
          have hmi : mapIterItem t me = some b := by rw [mapIterItem, hslot]; rfl
          refine ⟨w', ?_, ?_⟩
          · simp only [byeLoop, servicesAt_eq ha, hmi, serverAt_eq hb, hdel, servicesAt_eq ha₁, mapIterNext,
              Option.bind_eq_bind, Option.bind_some, hloop]
          · have hmi' : MapOps.iterItem (v.services id) me = some srv := by
              show mapIterItem (v.services id) me = some srv
              rw [(h.tables.table ha).shown_eq, mapIterItem_image, hmi, Option.map_some, serverOf_eq hb]
            have hnext : MapOps.iterNext ((Qrtr.serverDel v id srv.port).2.services id) me =
                mapIterFrom (Qrtr.mapRemove t (hashU32 srv.port)).2 (me + 1) := by
              show mapIterFrom ((Qrtr.serverDel v id srv.port).2.services id) (me + 1) = _
              rw [(h₁.tables.table ha₁).shown_eq, mapIterFrom_image]
            simp only [Qrtr.byeLoop, hmi', hnext]
            exact hw'

/-! ### Loops over the local servers -/

/-- The records of servers, one by one. -/
def ServersAt (heap : RecordHeap Record) (as : List Addr) (srvs : List Server) : Prop :=
  List.Forall₂ (fun a srv => ∃ k, heap.select Record.server? a = some (srv, k)) as srvs

/-- `map_for_each` over a table of addresses meets the records of the servers that it shows. -/
theorem ExecShows.serversAt (h : ExecShows spare ls w v)
    (ha : w.heap.select Record.node? a = some (id, k, t)) :
    ServersAt w.heap (mapForEach t) (MapOps.forEach (v.services id)) := by
  have hta := h.tables.table ha
  have hshown : MapOps.forEach (v.services id) =
      (mapForEach t).map (serverOf (w.heap.select Record.server?)) := by
    rw [← mapForEach_image, ← hta.shown_eq]
    exact forEach_eq_mapForEach _
  rw [ServersAt, hshown, List.forall₂_map_right_iff, List.forall₂_same]
  intro b hb
  obtain ⟨⟨l, b'⟩, hmem, rfl⟩ := List.mem_map.1 (mapForEach_eq t ▸ hb)
  obtain ⟨srv, hsrv, -⟩ := hta.held (Map.mem_entries_iff.1 hmem)
  exact ⟨l, by rw [serverOf_eq hsrv, hsrv]⟩

theorem annouceLoop_shows (sq : Sockaddr) :
    ∀ {as : List Addr} {srvs : List Server} {w : Exec} {v : Qrtr.Exec (Map Server)},
      ExecShows spare ls w v → ServersAt w.heap as srvs →
      ∃ w', annouceLoop sq as w = some ((Qrtr.annouceLoop sq srvs v).1, w') ∧
        ExecShows spare ls w' (Qrtr.annouceLoop sq srvs v).2
  | _, _, w, v, h, .nil => ⟨w, rfl, h⟩
  | _, _, w, v, h, .cons ⟨k, hsrv⟩ hrest => by
      obtain ⟨w₁, hsend, h₁, hheap⟩ := announceNew_shows h hsrv sq
      simp only [annouceLoop, hsend, Qrtr.annouceLoop, Option.bind_eq_bind, Option.bind_some]
      split
      · exact ⟨w₁, rfl, h₁⟩
      · exact annouceLoop_shows sq h₁ (hheap.symm ▸ hrest)

theorem propagate_shows (call : SendCall) (payload : List UInt8) :
    ∀ {as : List Addr} {srvs : List Server} {w : Exec} {v : Qrtr.Exec (Map Server)},
      ExecShows spare ls w v → ServersAt w.heap as srvs →
      ∃ w', propagate call payload as w = some w' ∧
        ExecShows spare ls w' (Qrtr.propagate call payload srvs v)
  | _, _, w, v, h, .nil => ⟨w, rfl, h⟩
  | _, _, w, v, h, .cons (b := srv) ⟨k, hsrv⟩ hrest => by
      simp only [propagate, serverAt_eq hsrv, Qrtr.propagate, Option.bind_eq_bind, Option.bind_some]
      exact propagate_shows call payload
        (h.sendto call { node := srv.node, port := srv.port } payload).2 hrest

/-! ### Handlers -/

/-- A handler has a result, its return code is that of the other handler, and so is what the state
    afterwards shows. -/
def Simulates (spare : Addr → Prop) (r : Option (Int × Exec)) (r' : Int × Qrtr.Exec (Map Server)) : Prop :=
  ∃ w' ls', r = some (r'.1, w') ∧ ExecShows spare ls' w' r'.2

theorem ExecShows.simulates (h : ExecShows spare ls w v) (rc : Int) :
    Simulates spare (some (rc, w)) (rc, v) :=
  ⟨w, ls, rfl, h⟩

theorem annouceServers_shows (h : ExecShows spare ls w v) (sq : Sockaddr) :
    Simulates spare (annouceServers w sq) (Qrtr.annouceServers v sq) := by
  rw [annouceServers, Qrtr.annouceServers, h.localNode]
  obtain ⟨r, w₁, hget, h₁, hfound, -⟩ := nodeGet_shows h w.localNode
  rcases hv : Qrtr.nodeGet v w.localNode with ⟨r', v₁⟩
  rw [hv] at h₁ hfound
  simp only [hget, Option.bind_eq_bind, Option.bind_some]
  cases r with
  | none =>
      cases hfound
      exact h₁.simulates 0
  | some a =>
      obtain ⟨rfl, k, t, ha⟩ := hfound
      simp only [servicesAt_eq ha, Option.bind_some]
      obtain ⟨w', hloop, hw'⟩ := annouceLoop_shows sq h₁ (h₁.serversAt ha)
      exact ⟨w', ls, hloop, hw'⟩

theorem ctrlCmdHello_shows (h : ExecShows spare ls w v) (sq : Sockaddr) (buf : List UInt8) :
    Simulates spare (ctrlCmdHello w sq buf) (Qrtr.ctrlCmdHello v sq buf) := by
  obtain ⟨hrc, hw'⟩ := h.sendto .helloEcho sq buf
  simp only [ctrlCmdHello, Qrtr.ctrlCmdHello, hrc]
  split
  · exact annouceServers_shows hw' sq
  · exact ⟨_, ls, by rw [hrc], hw'⟩

/-- The last part of `ctrl_cmd_bye` and `ctrl_cmd_del_client`. -/
theorem tellLocal_shows (h : ExecShows spare ls w v) (call : SendCall) {payload : Exec → List UInt8}
    (payload' : Qrtr.Exec (Map Server) → List UInt8)
    (hpayload : ∀ {w v}, ExecShows spare ls w v → payload' v = payload w)
    {r' : Int × Qrtr.Exec (Map Server)}
    (hnone : ∀ v₁, Qrtr.nodeGet v v.localNode = (none, v₁) → r' = (0, v₁))
    (hsome : ∀ n v₁, Qrtr.nodeGet v v.localNode = (some n, v₁) →
      r' = (0, Qrtr.propagate call (payload' v₁) (MapOps.forEach (v₁.services n)) v₁)) :
    Simulates spare (tellLocal w call payload) r' := by
  rw [tellLocal, ← h.localNode]
  obtain ⟨r, w₁, hget, h₁, hfound, -⟩ := nodeGet_shows h v.localNode
  rcases hv : Qrtr.nodeGet v v.localNode with ⟨n, v₁⟩
  rw [hv] at h₁ hfound
  simp only [hget, Option.bind_eq_bind, Option.bind_some]
  cases r with
  | none =>
      cases hfound
      rw [hnone v₁ hv]
      exact h₁.simulates 0
  | some a =>
      obtain ⟨rfl, k, t, ha⟩ := hfound
      obtain ⟨w', hloop, hw'⟩ := propagate_shows call (payload w₁) h₁ (h₁.serversAt ha)
      simp only [servicesAt_eq ha, Option.bind_some, hloop, hsome _ v₁ hv, hpayload h₁]
      exact hw'.simulates 0

theorem ctrlCmdBye_shows (h : ExecShows spare ls w v) (sq : Sockaddr) :
    Simulates spare (ctrlCmdBye w sq) (Qrtr.ctrlCmdBye v sq) := by
  rw [ctrlCmdBye, Qrtr.ctrlCmdBye]
  obtain ⟨r, w₁, hget, h₁, hfound, -⟩ := nodeGet_shows h sq.node
  rcases hv : Qrtr.nodeGet v sq.node with ⟨r', v₁⟩
  rw [hv] at h₁ hfound
  simp only [hget, Option.bind_eq_bind, Option.bind_some]
  cases r with
  | none =>
      cases hfound
      exact h₁.simulates 0
  | some a =>
      obtain ⟨rfl, k, t, ha⟩ := hfound
      obtain ⟨w₂, hloop, h₂⟩ := byeLoop_shows sq.node k (t.size + 1) 0 h₁ ha (Nat.zero_le _) (by omega)
      have hshown := (h₁.tables.table ha).shown_eq
      have hsize : MapOps.bound (v₁.services sq.node) = t.size := by
        show (v₁.services sq.node).size = t.size
        rw [hshown, Map.size_image]
      have hfirst : MapOps.iterFirst (v₁.services sq.node) = mapIterFrom t 0 := by
        show mapIterFrom (v₁.services sq.node) 0 = _
        rw [hshown, mapIterFrom_image]
      rw [← hsize, ← hfirst] at h₂
      simp only [servicesAt_eq ha, Option.bind_some, mapIterFirst, hloop]
      exact tellLocal_shows h₂ (.bye sq.node) (fun v => byePkt v.order sq.node) (fun hw => by rw [hw.order])
        (fun v₂ hv₂ => by rw [hv₂]) fun n v₂ hv₂ => by rw [hv₂]

/-! ### Removing lookups -/

theorem lookupOrNull_eq {s : Ns} {p : Option Addr}
    (h : ∀ a, p = some a → ∃ l, s.heap.select Record.lookup? a = some l) : s.lookupOrNull p = some () := by
  cases p with
  | none => rfl
  | some a =>
      obtain ⟨l, hl⟩ := h a rfl
      rw [Ns.lookupOrNull, Option.elim_some, lookupAt_eq hl]
      rfl

/-- A lookup is unlinked and freed. -/
theorem ExecShows.dropLookup {li : Addr} {pre post : List Addr}
    (h : ExecShows spare (pre ++ li :: post) w v) :
    ∃ w₁, removeLookup w li = some w₁ ∧ w₁.heap = w.heap ∧
      w₁.free li = some { w₁ with heap := w₁.heap.drop li } ∧
      ExecShows spare (pre ++ post) { w₁ with heap := w₁.heap.drop li }
        { v with
          lookups := pre.filterMap (w.heap.select Record.lookup?) ++
            post.filterMap (w.heap.select Record.lookup?) } := by
  have hlive : ∀ a, a ∈ pre ++ li :: post → ∃ l, w.heap.select Record.lookup? a = some l :=
    fun a ha => h.lookups.mem_iff.1 ha
  obtain ⟨l, hl⟩ := hlive li (by simp)
  have hcells := cells_of_lookup hl
  obtain ⟨links, hremove, hlinks⟩ := h.lookups.remove
  have hnext : w.lookupOrNull (w.lookups.next li) = some () := by
    refine lookupOrNull_eq fun a ha => hlive a ?_
    rw [h.lookups.stands.next_eq] at ha
    exact List.mem_append_right _ (List.mem_cons_of_mem _ (List.mem_of_mem_head? ha))
  have hprev : w.lookupOrNull (w.lookups.prev li) = some () := by
    refine lookupOrNull_eq fun a ha => hlive a ?_
    rw [h.lookups.stands.prev_eq] at ha
    exact List.mem_append_left _ (List.mem_of_getLast? ha)
  refine ⟨{ w with lookups := links }, ?_, rfl, ?_, ?_⟩
  · simp only [removeLookup, lookupAt_eq hl, hnext, hprev, ite_self, hremove, Option.bind_eq_bind,
      Option.bind_some]
  · rw [Exec.free, free_eq hcells]
    rfl
  · exact
      { h with
        bounded := h.bounded.drop li
        tables := by
          rw [select_drop_of_none Record.node? (select_of_cells hcells rfl),
            select_drop_of_none Record.server? (select_of_cells hcells rfl)]
          exact h.tables
        lookups := by
          rw [select_drop]
          exact hlinks }

/-- The loops that remove lookups, from any item of the list on. -/
theorem removeLookups_loop (unwanted : Lookup → Bool) (rest pre : List Addr) {n : Nat} {w : Exec}
    {v : Qrtr.Exec (Map Server)} (h : ExecShows spare (pre ++ rest) w v) (hlen : rest.length < n) :
    ∃ w' ls', removeLookups unwanted n rest.head? w = some w' ∧
      ExecShows spare ls' w'
        { v with
          lookups := pre.filterMap (w.heap.select Record.lookup?) ++
            (rest.filterMap (w.heap.select Record.lookup?)).filter fun l => !unwanted l } := by
  induction rest generalizing pre n w v with
  | nil =>
      obtain ⟨n, rfl⟩ := Nat.exists_eq_add_one.2 hlen
      refine ⟨w, pre, rfl, ?_⟩
      have hlookups := h.lookups.lookups_eq
      rw [List.append_nil] at h hlookups
      simpa [← hlookups] using h
  | cons li rest ih =>
      obtain ⟨n, rfl⟩ := Nat.exists_eq_add_one.2 (Nat.zero_lt_of_lt hlen)
      have hlen' : rest.length < n := Nat.lt_of_succ_lt_succ hlen
      obtain ⟨l, hl⟩ := h.lookups.mem_iff.1 (List.mem_append_right pre (List.mem_cons_self (a := li)))
      have hnext : w.lookups.next li = rest.head? := h.lookups.stands.next_eq
      have hmem : li ∉ pre ++ rest := (List.nodup_cons.1 (List.perm_middle.nodup_iff.1 h.lookups.nodup)).1
      rw [List.mem_append, not_or] at hmem
      simp only [List.head?_cons, removeLookups, lookupAt_eq hl, Option.bind_eq_bind, Option.bind_some,
        List.filterMap_cons, hl, List.filter_cons]
      by_cases hunwanted : unwanted l = true
      · obtain ⟨w₁, hremove, hheap, hfree, h₁⟩ := h.dropLookup
        obtain ⟨w', ls', hloop, hw'⟩ := ih pre h₁ hlen'
        simp only [hunwanted, if_true, hremove, Option.bind_some, hfree, hnext, hloop]
        refine ⟨w', ls', rfl, ?_⟩
        simp only [select_drop, hheap, filterMap_update hmem.1, filterMap_update hmem.2] at hw'
        simpa [hunwanted] using hw'
      · have h₁ : ExecShows spare ((pre ++ [li]) ++ rest) w v := by simpa using h
        obtain ⟨w', ls', hloop, hw'⟩ := ih (pre ++ [li]) h₁ hlen'
        simp only [hunwanted, hnext, Bool.false_eq_true, if_false, hloop]
        exact ⟨w', ls', rfl, by simpa [List.filterMap_append, hl, hunwanted] using hw'⟩

/-- The loops that remove lookups leave those that are wanted. -/
theorem removeLookups_shows (h : ExecShows spare ls w v) (unwanted : Lookup → Bool) :
    ∃ w' ls', removeLookups unwanted (w.heap.fresh + 1) w.lookups.head w = some w' ∧
      ExecShows spare ls' w' { v with lookups := v.lookups.filter fun l => !unwanted l } := by
  rw [h.lookups.stands.head_eq, h.lookups.lookups_eq]
  exact removeLookups_loop unwanted ls [] h (Nat.lt_succ_of_le h.length_lookups_le)

theorem ctrlCmdDelLookup_shows (h : ExecShows spare ls w v) (sq : Sockaddr) (service inst : UInt32) :
    Simulates spare (ctrlCmdDelLookup w sq service inst) (Qrtr.ctrlCmdDelLookup v sq service inst) := by
  obtain ⟨w', ls', hloop, hw'⟩ := removeLookups_shows h fun lookup =>
    lookup.sq.node == sq.node && lookup.sq.port == sq.port && lookup.service == service &&
      (lookup.inst == 0 || lookup.inst == inst)
  simp only [ctrlCmdDelLookup, hloop, Option.bind_eq_bind, Option.bind_some]
  exact hw'.simulates 0

theorem ctrlCmdDelClient_shows (h : ExecShows spare ls w v) (sq : Sockaddr) (nodeId port : UInt32) :
    Simulates spare (ctrlCmdDelClient w sq nodeId port) (Qrtr.ctrlCmdDelClient v sq nodeId port) := by
  simp only [ctrlCmdDelClient, Qrtr.ctrlCmdDelClient, ← h.localNode]
  split
  · exact h.simulates (-22)
  split
  · exact h.simulates (-22)
  obtain ⟨w₁, ls₁, hloop, h₁⟩ := removeLookups_shows h fun lookup =>
    lookup.sq.node == nodeId && lookup.sq.port == port
  obtain ⟨r, w₂, hget, h₂, hfound, -⟩ := nodeGet_shows h₁ nodeId
  rcases hv : Qrtr.nodeGet
    { v with
      lookups := v.lookups.filter fun lookup => !(lookup.sq.node == nodeId && lookup.sq.port == port) }
    nodeId with ⟨r', v₂⟩
  rw [hv] at h₂ hfound
  replace h₂ : ExecShows spare ls₁ w₂ v₂ := h₂
  simp only [hloop, hget, Option.bind_eq_bind, Option.bind_some]
  cases r with
  | none =>
      cases hfound
      simp only [Option.elim_none, Option.bind_some]
      exact tellLocal_shows h₂ (.delClient nodeId port)
        (fun v => delClientPkt v.order v.stack nodeId port) (fun hw => by rw [hw.order, hw.stack])
        (fun v₃ hv₃ => by rw [hv₃]) fun n v₃ hv₃ => by rw [hv₃]
  | some a =>
      obtain ⟨rfl, k, t, ha⟩ := hfound
      obtain ⟨w₃, hdel, h₃, -⟩ := serverDel_shows h₂ ha port
      simp only [Option.elim_some, hdel, Option.bind_some]
      exact tellLocal_shows h₃ (.delClient nodeId port)
        (fun v => delClientPkt v.order v.stack nodeId port) (fun hw => by rw [hw.order, hw.stack])
        (fun v₃ hv₃ => by rw [hv₃]) fun n v₃ hv₃ => by rw [hv₃]

/-! ### Servers that come and go -/

theorem ctrlCmdDelServer_shows (h : ExecShows spare ls w v) (sq : Sockaddr)
    (service inst nodeId port : UInt32) :
    Simulates spare (ctrlCmdDelServer w sq service inst nodeId port)
      (Qrtr.ctrlCmdDelServer v sq service inst nodeId port) := by
  simp only [ctrlCmdDelServer, Qrtr.ctrlCmdDelServer, h.localNode]
  generalize (if sq.node = w.localNode then sq.node else nodeId) = nodeId'
  generalize (if sq.node = w.localNode then sq.port else port) = port'
  by_cases hnode : sq.node ≠ nodeId'
  · rw [if_pos hnode, if_pos hnode]
    exact h.simulates (-22)
  rw [if_neg hnode, if_neg hnode]
  by_cases hport : sq.node = w.localNode ∧ sq.port ≠ port'
  · rw [if_pos hport, if_pos hport]
    exact h.simulates (-22)
  rw [if_neg hport, if_neg hport]
  obtain ⟨r, w₁, hget, h₁, hfound, -⟩ := nodeGet_shows h nodeId'
  rcases hv : Qrtr.nodeGet v nodeId' with ⟨r', v₁⟩
  rw [hv] at h₁ hfound
  simp only [hget, Option.bind_eq_bind, Option.bind_some]
  cases r with
  | none =>
      cases hfound
      exact h₁.simulates (-2)
  | some a =>
      obtain ⟨rfl, k, t, ha⟩ := hfound
      obtain ⟨w₂, hdel, h₂, -⟩ := serverDel_shows h₁ ha port'
      exact ⟨w₂, ls, hdel, h₂⟩

/-- A registration that meets the server it replaces, if there is one, loses no record. -/
theorem ctrlCmdNewServer_shows (h : ExecShows spare ls w v) (sq : Sockaddr)
    (service inst nodeId port : UInt32) :
    ∃ spare', Simulates spare' (ctrlCmdNewServer w sq service inst nodeId port)
        (Qrtr.ctrlCmdNewServer v sq service inst nodeId port) ∧
      ((sq.node = w.localNode ∨ sq.node = nodeId →
          service ≠ 0 → (if sq.node = w.localNode then sq.port else port) ≠ 0 →
          (v.services sq.node).Unique ∧ (v.services sq.node).PutOk
            (hashU32 (if sq.node = w.localNode then sq.port else port))) →
        ∀ c, spare' c ↔ spare c) := by
  simp only [ctrlCmdNewServer, Qrtr.ctrlCmdNewServer, h.localNode]
  generalize hnodeId : (if sq.node = w.localNode then sq.node else nodeId) = nodeId'
  generalize (if sq.node = w.localNode then sq.port else port) = port'
  by_cases hnode : sq.node ≠ nodeId'
  · rw [if_pos hnode, if_pos hnode]
    exact ⟨spare, h.simulates (-22), fun _ _ => Iff.rfl⟩
  rw [if_neg hnode, if_neg hnode]
  have hsq : nodeId' = sq.node := (not_not.1 hnode).symm
  subst hsq
  have hsender : sq.node = w.localNode ∨ sq.node = nodeId := by
    by_cases hlocal : sq.node = w.localNode
    · exact Or.inl hlocal
    · rw [if_neg hlocal] at hnodeId
      exact Or.inr hnodeId.symm
  obtain ⟨r, w₁, spare', hadd, h₁, hfound, hspare⟩ := serverAdd_shows h service inst sq.node port'
  rcases hv : Qrtr.serverAdd v service inst sq.node port' with ⟨r', v₁⟩
  rw [hv] at h₁ hfound
  simp only [hadd, Option.bind_eq_bind, Option.bind_some]
  refine ⟨spare', ?_, fun hplain => hspare (hplain hsender)⟩
  cases r with
  | none =>
      cases hfound
      exact h₁.simulates (-22)
  | some b =>
      obtain ⟨srv, key, rfl, hb⟩ := hfound
      obtain ⟨w₂, hsend, h₂, hheap⟩ := announceAdded_shows h₁ hb
      obtain ⟨w₃, hloop, h₃, -⟩ := notifyObservers_shows h₂ (hheap.symm ▸ hb) service inst true
      simp only [hsend, Option.bind_some, hloop]
      exact h₃.simulates _

/-! ### Lookup replies -/

theorem serverOrNull_eq {s : Ns} {p : Option Addr}
    (h : ∀ a, p = some a → ∃ r, s.heap.select Record.server? a = some r) : s.serverOrNull p = some () := by
  cases p with
  | none => rfl
  | some a =>
      obtain ⟨⟨srv, key⟩, hsrv⟩ := h a rfl
      rw [Ns.serverOrNull, Option.elim_some, serverAt_eq hsrv]
      rfl

/-- A record of a server that the filter of a lookup accepts. -/
def accepts (heap : RecordHeap Record) (f : ServerFilter) (a : Addr) : Bool :=
  serverMatch (serverOf (heap.select Record.server?) a) f

/-- The inner loop of `server_query` appends the servers of a table that the filter accepts. -/
theorem queryServices_eq (f : ServerFilter) :
    ∀ (as rs : List Addr) {w : Exec}, w.replies.Stands rs → (rs ++ as).Nodup →
      (∀ a ∈ rs ++ as, ∃ r, w.heap.select Record.server? a = some r) →
      ∃ replies, queryServices f as w = some { w with replies := replies } ∧
        replies.Stands (rs ++ as.filter (accepts w.heap f))
  | [], rs, w, hstands, _, _ => ⟨w.replies, rfl, by simpa using hstands⟩
  | me :: as, rs, w, hstands, hnodup, hlive => by
      obtain ⟨⟨srv, key⟩, hsrv⟩ := hlive me (by simp)
      have hmid := List.nodup_cons.1 (List.perm_middle.nodup_iff.1 hnodup)
      simp only [queryServices, serverAt_eq hsrv, Option.bind_eq_bind, Option.bind_some, List.filter_cons,
        accepts, serverOf_eq hsrv]
      by_cases hmatch : serverMatch srv f = true
      · have htail : w.serverOrNull w.replies.tail = some () := by
          refine serverOrNull_eq fun a ha => hlive a (List.mem_append_left _ ?_)
          rw [hstands.tail_eq] at ha
          exact List.mem_of_getLast? ha
        have hmem : me ∉ rs := fun hmem => hmid.1 (List.mem_append_left _ hmem)
        have hstands' : (listAppend w.replies me).Stands (rs ++ [me]) :=
          hstands.append hnodup.of_append_left hmem
        obtain ⟨replies, hloop, hreplies⟩ := queryServices_eq f as (rs ++ [me])
          (w := { w with replies := listAppend w.replies me }) hstands' (by simpa using hnodup)
          (by simpa using hlive)
        refine ⟨replies, ?_, by simpa [hmatch] using hreplies⟩
        simp only [hmatch, if_true, appendReply, serverAt_eq hsrv, htail, Option.bind_eq_bind,
          Option.bind_some, hloop]
      · obtain ⟨replies, hloop, hreplies⟩ := queryServices_eq f as rs hstands
          (hmid.2) (fun a ha => hlive a ((List.mem_append.1 ha).elim (List.mem_append_left _)
            fun hmem => List.mem_append_right _ (List.mem_cons_of_mem _ hmem)))
        refine ⟨replies, ?_, by simpa [hmatch] using hreplies⟩
        simp only [hmatch, Bool.false_eq_true, if_false, hloop]

/-- The services of the node record at an address, without entries where there is none. -/
def tableOf (heap : RecordHeap Record) (a : Addr) : Map Addr :=
  ((heap.select Record.node? a).map fun c => c.2.2).getD mapCreate

theorem tableOf_eq {heap : RecordHeap Record} (ha : heap.select Record.node? a = some (id, k, t)) :
    tableOf heap a = t := by
  rw [tableOf, ha]
  rfl

/-- The outer loop of `server_query`. -/
theorem queryNodes_eq (f : ServerFilter) :
    ∀ (ns rs : List Addr) {w : Exec}, w.replies.Stands rs →
      (∀ a ∈ ns, ∃ r, w.heap.select Record.node? a = some r) →
      (rs ++ ns.flatMap fun a => mapForEach (tableOf w.heap a)).Nodup →
      (∀ a ∈ rs ++ ns.flatMap fun a => mapForEach (tableOf w.heap a),
        ∃ r, w.heap.select Record.server? a = some r) →
      ∃ replies, queryNodes f ns w = some { w with replies := replies } ∧
        replies.Stands (rs ++ ns.flatMap fun a => (mapForEach (tableOf w.heap a)).filter (accepts w.heap f))
  | [], rs, w, hstands, _, _, _ => ⟨w.replies, rfl, by simpa using hstands⟩
  | n :: ns, rs, w, hstands, hnodes, hnodup, hlive => by
      obtain ⟨⟨⟨id, k, t⟩, hn⟩, hnodes'⟩ := List.forall_mem_cons.1 hnodes
      rw [List.flatMap_cons, ← List.append_assoc, tableOf_eq hn] at hnodup hlive
      obtain ⟨replies₁, hloop₁, hstands₁⟩ := queryServices_eq f (mapForEach t) rs hstands
        hnodup.of_append_left fun a ha => hlive a (List.mem_append_left _ ha)
      have hsub : (rs ++ (mapForEach t).filter (accepts w.heap f)).Sublist (rs ++ mapForEach t) :=
        List.Sublist.append_left List.filter_sublist _
      obtain ⟨replies₂, hloop₂, hstands₂⟩ := queryNodes_eq f ns _ (w := { w with replies := replies₁ })
        hstands₁ hnodes' (hnodup.sublist (hsub.append_right _))
        fun a ha => hlive a ((hsub.append_right _).subset ha)
      refine ⟨replies₂, ?_, ?_⟩
      · simp only [queryNodes, servicesAt_eq hn, hloop₁, hloop₂, Option.bind_eq_bind, Option.bind_some]
      · rw [List.flatMap_cons, tableOf_eq hn, ← List.append_assoc]
        exact hstands₂

/-- The addresses that `map_for_each` meets are those in the map. -/
theorem mem_mapForEach {m : Map Addr} : a ∈ mapForEach m ↔ ∃ k, m.Holds k a := by
  rw [mapForEach_eq, List.mem_map]
  constructor
  · rintro ⟨⟨k, a⟩, hmem, rfl⟩
    exact ⟨k, Map.mem_entries_iff.1 hmem⟩
  · rintro ⟨k, hk⟩
    exact ⟨(k, a), Map.mem_entries_iff.2 hk, rfl⟩

theorem nodup_mapForEach {m : Map Addr} (h : m.Apart) : (mapForEach m).Nodup := by
  rw [mapForEach_eq]
  exact h.nodup

/-- The node records are met once each, and every server in their tables once. -/
theorem ExecShows.nodup_servers (h : ExecShows spare ls w v) :
    ((mapForEach w.nodes).flatMap fun a => mapForEach (tableOf w.heap a)).Nodup := by
  have hnode : ∀ a ∈ mapForEach w.nodes, ∃ id k t, w.heap.select Record.node? a = some (id, k, t) := by
    intro a ha
    obtain ⟨k, hk⟩ := mem_mapForEach.1 ha
    obtain ⟨id, t, hnode⟩ := h.tables.holds_iff.1 hk
    exact ⟨id, k, t, hnode⟩
  refine List.nodup_flatMap.2 ⟨fun a ha => ?_, ?_⟩
  · obtain ⟨id, k, t, hnode⟩ := hnode a ha
    rw [tableOf_eq hnode]
    exact nodup_mapForEach (h.tables.table hnode).apart
  · refine (nodup_mapForEach h.tables.nodes_apart).imp_of_mem fun {a b} ha hb hne => ?_
    obtain ⟨id, k, t, ha⟩ := hnode a ha
    obtain ⟨id', k', t', hb⟩ := hnode b hb
    rw [Function.onFun_apply, tableOf_eq ha, tableOf_eq hb]
    intro c hc hc'
    obtain ⟨l, hl⟩ := mem_mapForEach.1 hc
    obtain ⟨l', hl'⟩ := mem_mapForEach.1 hc'
    refine h.tables.tables_disjoint ha hb ?_ hl hl'
    rintro rfl
    exact hne (h.tables.node_inj ha hb)

/-- `server_query` links the records of the servers that the filter accepts. -/
theorem serverQuery_shows (h : ExecShows spare ls w v) (f : ServerFilter) :
    ∃ replies rs, serverQuery w f = some { w with replies := replies } ∧ replies.Stands rs ∧ rs.Nodup ∧
      ServersAt w.heap rs (Qrtr.serverQuery v f) := by
  have hnodes : ∀ a ∈ mapForEach w.nodes, ∃ r, w.heap.select Record.node? a = some r := by
    intro a ha
    obtain ⟨k, hk⟩ := mem_mapForEach.1 ha
    obtain ⟨id, t, hnode⟩ := h.tables.holds_iff.1 hk
    exact ⟨_, hnode⟩
  have hlive : ∀ b ∈ (mapForEach w.nodes).flatMap fun a => mapForEach (tableOf w.heap a),
      ∃ r, w.heap.select Record.server? b = some r := by
    intro b hb
    obtain ⟨a, ha, hb⟩ := List.mem_flatMap.1 hb
    obtain ⟨⟨id, k, t⟩, hnode⟩ := hnodes a ha
    rw [tableOf_eq hnode] at hb
    obtain ⟨l, hl⟩ := mem_mapForEach.1 hb
    obtain ⟨srv, hsrv, -⟩ := (h.tables.table hnode).held hl
    exact ⟨_, hsrv⟩
  obtain ⟨replies, hloop, hstands⟩ := queryNodes_eq f (mapForEach w.nodes) []
    (w := { w with replies := listInit w.replies }) (listInit_stands _) hnodes h.nodup_servers hlive
  rw [List.nil_append] at hstands
  have hsub : ((mapForEach w.nodes).flatMap fun a =>
      (mapForEach (tableOf w.heap a)).filter (accepts w.heap f)).Sublist
        ((mapForEach w.nodes).flatMap fun a => mapForEach (tableOf w.heap a)) :=
    List.Sublist.flatMap_right _ fun a _ => List.filter_sublist
  have hshown : Qrtr.serverQuery v f = ((mapForEach w.nodes).flatMap fun a =>
      (mapForEach (tableOf w.heap a)).filter (accepts w.heap f)).map
        (serverOf (w.heap.select Record.server?)) := by
    rw [Qrtr.serverQuery, h.tables.nodes_eq, mapForEach_image, List.flatMap_map, List.map_flatMap]
    refine List.flatMap_congr fun a ha => ?_
    obtain ⟨⟨id, k, t⟩, hnode⟩ := hnodes a ha
    rw [idOf_eq hnode, tableOf_eq hnode, forEach_eq_mapForEach, (h.tables.table hnode).shown_eq,
      mapForEach_image, List.filter_map]
    rfl
  refine ⟨replies, _, hloop, hstands, h.nodup_servers.sublist hsub, ?_⟩
  rw [ServersAt, hshown, List.forall₂_map_right_iff, List.forall₂_same]
  intro b hb
  obtain ⟨⟨srv, key⟩, hsrv⟩ := hlive b (hsub.subset hb)
  exact ⟨key, by rw [serverOf_eq hsrv, hsrv]⟩

/-- The loop over a lookup reply, from any item of the list on. -/
theorem notifyReply_eq (dest : Sockaddr) :
    ∀ (rest pre : List Addr) {srvs : List Server} {n : Nat} {w : Exec},
      w.replies.Stands (pre ++ rest) → ServersAt w.heap rest srvs → rest.length < n →
      notifyReply dest n rest.head? w =
        some (w.sendAll (srvs.map fun srv => notifyMsg w.order dest (some srv) true))
  | [], _, _, n + 1, w, _, .nil, _ => by simp [notifyReply]
  | li :: rest, pre, srv :: srvs, n + 1, w, hstands, .cons ⟨key, hsrv⟩ hrest, hlen => by
      have hnext : w.replies.next li = rest.head? := hstands.next_eq
      have hstands' : w.replies.Stands ((pre ++ [li]) ++ rest) := by simpa using hstands
      obtain ⟨rc, hnotify⟩ := lookupNotify_eq hsrv dest true
      have hloop := notifyReply_eq dest rest (pre ++ [li]) (n := n)
        (w := w.sendAll [notifyMsg w.order dest (some srv) true]) hstands' hrest
        (Nat.lt_of_succ_lt_succ hlen)
      rw [List.head?_cons, notifyReply, hnotify]
      simp only [Exec.sendAll] at hloop ⊢
      rw [Option.bind_eq_bind, Option.bind_some]
      simp only [hnext, hloop]
      simp

theorem appendLookup_eq {l : Lookup} (ha : w.heap.select Record.lookup? a = some l)
    (htail : ∀ b, w.lookups.tail = some b → ∃ l, w.heap.select Record.lookup? b = some l) :
    appendLookup w a = some { w with lookups := listAppend w.lookups a } := by
  simp only [appendLookup, lookupAt_eq ha, lookupOrNull_eq htail, Option.bind_eq_bind, Option.bind_some]

/-- A new lookup is linked behind the others. -/
theorem ExecShows.newLookup (h : ExecShows spare ls w v) (allocs : AllocPlan) (l : Lookup) :
    appendLookup { w with allocs := allocs, heap := w.heap.alloc (.lookup l) } w.heap.fresh =
        some { w with
          allocs := allocs
          heap := w.heap.alloc (.lookup l)
          lookups := listAppend w.lookups w.heap.fresh } ∧
      ExecShows spare (ls ++ [w.heap.fresh])
        { w with
          allocs := allocs
          heap := w.heap.alloc (.lookup l)
          lookups := listAppend w.lookups w.heap.fresh }
        { v with allocs := allocs, lookups := v.lookups ++ [l] } := by
  have hnew : (w.heap.alloc (.lookup l)).select Record.lookup? w.heap.fresh = some l := by
    rw [select_alloc]
    exact Function.update_self ..
  constructor
  · refine appendLookup_eq hnew fun a ha => ?_
    have ha' : w.lookups.tail = some a := ha
    rw [h.lookups.stands.tail_eq] at ha'
    obtain ⟨l', hl'⟩ := h.lookups.mem_iff.1 (List.mem_of_getLast? ha')
    refine ⟨l', ?_⟩
    show (w.heap.alloc (.lookup l)).select Record.lookup? a = some l'
    rw [select, h.bounded.cells_alloc_of_live (cells_of_lookup hl')]
    rfl
  · exact
      { h with
        allocs := rfl
        bounded := h.bounded.alloc _
        tables := by
          rw [h.bounded.select_alloc_of_none (f := Record.node?) rfl,
            h.bounded.select_alloc_of_none (f := Record.server?) rfl]
          exact h.tables
        lookups := by
          rw [select_alloc]
          exact h.lookups.append (h.bounded.select_fresh _) l }

/-- The records of a reply are fewer than the addresses that have been given out. -/
theorem ServersAt.length_le {heap : RecordHeap Record} (hb : heap.Bounded) {rs : List Addr}
    {srvs : List Server} (h : ServersAt heap rs srvs) (hnodup : rs.Nodup) : rs.length ≤ heap.fresh := by
  refine hb.length_le hnodup ?_
  induction h with
  | nil => simp
  | cons hsrv _ ih =>
      obtain ⟨key, hsrv⟩ := hsrv
      exact List.forall_mem_cons.2 ⟨⟨_, cells_of_server hsrv⟩, ih (List.nodup_cons.1 hnodup).2⟩

/-- The loop over a whole lookup reply. -/
theorem notifyReply_shows (h : ExecShows spare ls w v) {rs : List Addr} {srvs : List Server}
    (hstands : w.replies.Stands rs) (hnodup : rs.Nodup) (hat : ServersAt w.heap rs srvs)
    (dest : Sockaddr) :
    ∃ w', notifyReply dest (w.heap.fresh + 1) w.replies.head w = some w' ∧
      ExecShows spare ls w' (Qrtr.notifyReply dest srvs v) := by
  have hloop := notifyReply_eq dest rs [] hstands hat
    (Nat.lt_succ_of_le (hat.length_le h.bounded hnodup))
  rw [hstands.head_eq]
  refine ⟨_, hloop, ?_⟩
  rw [Qrtr.notifyReply_eq, h.order]
  exact h.sendAll _

theorem ctrlCmdNewLookup_shows (h : ExecShows spare ls w v) (sq : Sockaddr) (service inst : UInt32) :
    Simulates spare (ctrlCmdNewLookup w sq service inst) (Qrtr.ctrlCmdNewLookup v sq service inst) := by
  rw [ctrlCmdNewLookup, Qrtr.ctrlCmdNewLookup, ← h.localNode]
  by_cases hlocal : sq.node ≠ v.localNode
  · rw [if_pos hlocal, if_pos hlocal]
    exact h.simulates (-22)
  rw [if_neg hlocal, if_neg hlocal]
  simp only [h.allocs, Exec.calloc]
  rcases Qrtr.calloc w.allocs with ⟨ok, rest⟩
  cases ok with
  | false => exact (h.allocs_eq rest).simulates (-22)
  | true =>
      obtain ⟨happend, h₁⟩ := h.newLookup rest { service := service, inst := inst, sq := sq }
      obtain ⟨replies, rs, hquery, hstands, hnodup, hat⟩ :=
        serverQuery_shows h₁ { service := service, inst := inst, ifilter := 0 }
      obtain ⟨w₃, hloop, h₃⟩ := notifyReply_shows (h₁.replies_eq replies) hstands hnodup hat sq
      obtain ⟨-, h₄⟩ := h₃.sendto (.lookupNotify none true) sq (notifyPkt w₃.order none true)
      simp only [Option.bind_eq_bind] at hquery hloop ⊢
      rw [happend, Option.bind_some, hquery, Option.bind_some, hloop, Option.bind_some]
      rw [Qrtr.lookupNotify, h₃.order]
      exact h₄.simulates 0

/-! ### The dispatcher -/

/-- A datagram is handled without a fault, as it is without records; and if a registration meets the server
    that it replaces, no record is lost. -/
theorem ctrlPortFn_shows (h : ExecShows spare ls w v) (e : Event) :
    ∃ spare', Simulates spare' (ctrlPortFn w e.sq e.datagram e.stale)
        (Qrtr.ctrlPortFn v e.sq e.datagram e.stale) ∧
      ((∀ srv, e.action v.localNode = .register srv →
          (v.services srv.node).Unique ∧ (v.services srv.node).PutOk (hashU32 srv.port)) →
        ∀ c, spare' c ↔ spare c) := by
  have hrec : e.datagram.take 4096 = e.received := rfl
  have hword : ∀ order i, ctrlWord order (e.stale.write 0 e.received) i = e.word i :=
    fun order i => ctrlWord_eq order _ i
  -- only a registration can lose a record
  have hkept : ∀ {r r'}, Simulates spare r r' → ∃ spare', Simulates spare' r r' ∧
      ((∀ srv, e.action v.localNode = .register srv →
          (v.services srv.node).Unique ∧ (v.services srv.node).PutOk (hashU32 srv.port)) →
        ∀ c, spare' c ↔ spare c) :=
    fun hsim => ⟨spare, hsim, fun _ _ => Iff.rfl⟩
  simp only [ctrlPortFn, Qrtr.ctrlPortFn, hrec, hword]
  by_cases hempty : e.received.length = 0
  · rw [if_pos hempty, if_pos hempty]
    exact hkept ⟨_, ls, rfl, { h with sockOpen := rfl }⟩
  rw [if_neg hempty, if_neg hempty]
  by_cases hshort : e.received.length < 4
  · rw [if_pos hshort, if_pos hshort]
    exact hkept (h.simulates 0)
  rw [if_neg hshort, if_neg hshort]
  by_cases hhello : e.word 0 = qrtrTypeHello
  · rw [if_pos hhello, if_pos hhello]
    exact hkept (ctrlCmdHello_shows h _ _)
  rw [if_neg hhello, if_neg hhello]
  by_cases hbye : e.word 0 = qrtrTypeBye
  · rw [if_pos hbye, if_pos hbye]
    exact hkept (ctrlCmdBye_shows h _)
  rw [if_neg hbye, if_neg hbye]
  by_cases hdelClient : e.word 0 = qrtrTypeDelClient
  · rw [if_pos hdelClient, if_pos hdelClient]
    exact hkept (ctrlCmdDelClient_shows h _ _ _)
  rw [if_neg hdelClient, if_neg hdelClient]
  by_cases hnewServer : e.word 0 = qrtrTypeNewServer
  · rw [if_pos hnewServer, if_pos hnewServer]
    obtain ⟨spare', hsim, hspare⟩ :=
      ctrlCmdNewServer_shows h e.sq (e.word 4) (e.word 8) (e.word 12) (e.word 16)
    refine ⟨spare', hsim, fun hplain => hspare fun hsender hservice hport => ?_⟩
    rw [← h.localNode] at hsender hport ⊢
    refine hplain { service := e.word 4, inst := e.word 8, node := e.sq.node, port := _ } ?_
    rw [Event.action, if_neg hshort, if_neg hhello, if_neg hbye, if_neg hdelClient, if_pos hnewServer]
    exact if_pos ⟨hsender, hservice, hport⟩
  rw [if_neg hnewServer, if_neg hnewServer]
  by_cases hdelServer : e.word 0 = qrtrTypeDelServer
  · rw [if_pos hdelServer, if_pos hdelServer]
    exact hkept (ctrlCmdDelServer_shows h _ _ _ _ _)
  rw [if_neg hdelServer, if_neg hdelServer]
  by_cases hnewLookup : e.word 0 = qrtrTypeNewLookup
  · rw [if_pos hnewLookup, if_pos hnewLookup]
    exact hkept (ctrlCmdNewLookup_shows h _ _ _)
  rw [if_neg hnewLookup, if_neg hnewLookup]
  by_cases hdelLookup : e.word 0 = qrtrTypeDelLookup
  · rw [if_pos hdelLookup, if_pos hdelLookup]
    exact hkept (ctrlCmdDelLookup_shows h _ _ _)
  rw [if_neg hdelLookup, if_neg hdelLookup]
  exact hkept (h.simulates 0)

end Qrtr.Records
