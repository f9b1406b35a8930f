/-
Module: Qrtr.NameServer.Departure
Layer: NameServer
Purpose: What a BYE and a DEL_CLIENT leave behind, from any state in which no port is registered twice:
  any layout of the tables, any lookups, any outcome of `sendto`. The servers of the departed party are
  gone and nothing else is, each of them has been announced and notified once, and each local server
  that is still there has been told once.
Imports: Qrtr.NameServer.Effects
Main exports: Farewell, ByeExact, DelClientExact, departure_exact
Open obligations: none
-/
import Qrtr.NameServer.Effects
import Mathlib.Data.List.Nodup

namespace Qrtr

open MapOps LawfulMap

/-! ### Full iterations -/

section

variable {T : Type} [MapOps T Server] [LawfulMap T Server]

/-- A full iteration over a table without duplicates visits no server twice. -/
theorem forEach_nodup {t : T} (hs : Single t) (hkeyed : Keyed t) : (forEach t).Nodup := by
  rw [forEach_eq, itemsFrom]
  apply List.Nodup.filterMap
  · intro i j srv hi hj
    obtain ⟨⟨k, v⟩, hlive, hv⟩ := Option.map_eq_some_iff.1 (Option.mem_def.1 hi)
    obtain ⟨⟨k', v'⟩, hlive', hv'⟩ := Option.map_eq_some_iff.1 (Option.mem_def.1 hj)
    obtain rfl : v = srv := hv
    obtain rfl : v' = v := hv'
    have hkey : k' = k := (hkeyed j k' v' hlive').trans (hkeyed i k v' hlive).symm
    exact hs i j k v' v' hlive (hkey ▸ hlive')
  · exact List.nodup_range'

theorem Ns.TablesOk.tableKeyed {s : Ns T} (h : s.TablesOk) (n : UInt32) : Keyed (s.services n) :=
  fun i _ _ hi => (h.keyed ⟨i, hi⟩).2

end

/-! ### Departures -/

/-- The datagrams of a departure: for each server that is gone, one broadcast if it is local and one
    notification to each lookup that matches it; then one packet to each local server that is left. -/
def Farewell (s : Ns (Map Server)) (gone left : Server → Prop) (tell : Server → Msg)
    (msgs : List Msg) : Prop :=
  ∃ goneList leftList : List Server,
    (goneList.Nodup ∧ ∀ srv, srv ∈ goneList ↔ gone srv) ∧
      (leftList.Nodup ∧ ∀ srv, srv ∈ leftList ↔ left srv) ∧
      msgs = (goneList.flatMap fun srv =>
          (if srv.node = s.localNode then [announceDelMsg s.order bcastSq srv] else []) ++
            (s.lookups.filter fun lookup => lookup.observes srv.service srv.inst).map fun lookup =>
              notifyMsg s.order lookup.sq (some srv) false) ++
        leftList.map tell

/-- A BYE of a node is complete and exact. -/
structure ByeExact (s : Ns (Map Server)) (n : UInt32) (r : Ns (Map Server) × List Msg) : Prop where
  gone : ∀ p, r.1.server n p = none
  others : ∀ m p, m ≠ n → r.1.server m p = s.server m p
  lookups : r.1.lookups = s.lookups
  farewell : Farewell s (fun srv => s.server n srv.port = some srv)
    (fun srv => r.1.server s.localNode srv.port = some srv) (byeMsg s.order n) r.2

/-- A DEL_CLIENT for a port of a node is complete and exact. -/
structure DelClientExact (s : Ns (Map Server)) (stack : Mem) (n p : UInt32)
    (r : Ns (Map Server) × List Msg) : Prop where
  gone : r.1.server n p = none
  others : ∀ m q, (m, q) ≠ (n, p) → r.1.server m q = s.server m q
  lookups : r.1.lookups = s.lookups.filter fun lookup => lookup.sq ≠ { node := n, port := p }
  farewell : Farewell { s with lookups := r.1.lookups } (fun srv => s.server n p = some srv)
    (fun srv => r.1.server s.localNode srv.port = some srv) (delClientMsg s.order stack n p) r.2

section

variable {s : Ns (Map Server)} (hs : s.TablesOk) (hd : s.Distinct) {e : Event} (ha : e.allocs = [])

include hs hd ha

/-- The local servers that a departure leaves, as the last loop of its handler visits them. -/
theorem left_nodup (hplain : s.Plain (s.action e)) :
    (forEach ((nsStep s e).1.services s.localNode)).Nodup ∧
      ∀ srv, srv ∈ forEach ((nsStep s e).1.services s.localNode) ↔
        (nsStep s e).1.server s.localNode srv.port = some srv := by
  have hs' := hs.step e
  have hd' := (nsStep_refines hs hd hplain ha).1
  exact ⟨forEach_nodup (hd' _) (hs'.tableKeyed _), fun srv => mem_forEach_server hs' hd'⟩

theorem byeExact {n : UInt32} (hbye : s.action e = .bye n) : ByeExact s n (nsStep s e) := by
  have hplain : s.Plain (s.action e) := by rw [hbye]; exact fun _ h => nomatch h
  obtain ⟨-, hserver, hlookups⟩ := nsStep_refines hs hd hplain ha
  obtain ⟨⟨rc, hhappens⟩, -⟩ := nsStep_happens hs.nodesOk hs.ok e
  rw [hbye] at hserver hlookups hhappens
  obtain ⟨t, -, -, -, hmsgs⟩ := hhappens.bye_exact ha (hd n) (hs.tableKeyed n)
  refine ⟨fun p => ?_, fun m p hm => ?_, hlookups, ?_⟩
  · rw [hserver, Action.servers, if_pos rfl]
  · rw [hserver, Action.servers, if_neg hm]
  · exact ⟨_, _, ⟨forEach_nodup (hd n) (hs.tableKeyed n), fun srv => mem_forEach_server hs hd⟩,
      left_nodup hs hd ha hplain, hmsgs⟩

theorem delClientExact {n p : UInt32} (hclose : s.action e = .closePort n p) :
    DelClientExact s e.stack n p (nsStep s e) := by
  have hplain : s.Plain (s.action e) := by rw [hclose]; exact fun _ h => nomatch h
  obtain ⟨-, hserver, -⟩ := nsStep_refines hs hd hplain ha
  obtain ⟨⟨rc, hhappens⟩, -⟩ := nsStep_happens hs.nodesOk hs.ok e
  rw [hclose] at hserver hhappens
  obtain ⟨hlookups, hmsgs⟩ := hhappens.closePort_exact ha
  refine ⟨?_, fun m q hne => ?_, ?_, ?_⟩
  · rw [hserver, Action.servers, if_pos ⟨rfl, rfl⟩]
  · rw [hserver, Action.servers, if_neg]
    rintro ⟨rfl, rfl⟩
    exact hne rfl
  · rw [hlookups, Ns.lookupsWithout]
    apply List.filter_congr
    intro l _
    obtain ⟨_, _, node, port⟩ := l
    rw [Bool.eq_iff_iff]
    simp
  · refine ⟨(s.server n p).toList, _, ⟨?_, fun srv => ?_⟩, left_nodup hs hd ha hplain, ?_⟩
    · cases s.server n p <;> simp
    · simp
    · rw [hmsgs, hlookups, server_eq_get hs.nodesOk]
      rfl

end

/-- From any state whose tables are in order and in which no port is registered twice, a BYE and an
    accepted DEL_CLIENT remove exactly what they should and tell everybody concerned once. -/
theorem departure_exact {s : Ns (Map Server)} (hs : s.TablesOk) (hd : s.Distinct) {e : Event}
    (ha : e.allocs = []) :
    (∀ n, s.action e = .bye n → ByeExact s n (nsStep s e)) ∧
      ∀ n p, s.action e = .closePort n p → DelClientExact s e.stack n p (nsStep s e) :=
  ⟨fun _ => byeExact hs hd ha, fun _ _ => delClientExact hs hd ha⟩

/-- Node 2 leaves with its two servers, or the client of port 5 of node 1 with its one. -/
theorem departure_exact_local :
    ByeExact sampleNs 2
        (nsStep sampleNs (Event.ofWords { node := 2, port := qrtrPortCtrl } [qrtrTypeBye])) ∧
      DelClientExact sampleNs (fun _ => 0) 1 5
        (nsStep sampleNs (Event.ofWords { node := 1, port := 5 } [qrtrTypeDelClient, 1, 5])) := by
  have hs := sampleNs_reachable.inv.toTablesOk
  have hbye := departure_exact hs sampleNs_distinct
    (e := Event.ofWords { node := 2, port := qrtrPortCtrl } [qrtrTypeBye]) rfl
  have hclient := departure_exact hs sampleNs_distinct
    (e := Event.ofWords { node := 1, port := 5 } [qrtrTypeDelClient, 1, 5]) rfl
  exact ⟨hbye.1 2 (by decide +kernel), hclient.2 1 5 (by decide +kernel)⟩

end Qrtr
