/-
Module: Qrtr.Records.Tables
Layer: Records
Purpose: What the records and the maps of their addresses show. `TablesShow` relates the `struct node` and
  `struct server` records to the node table and the tables of servers of `Qrtr.NameServer.Core`: the node
  table holds the live node records and no others, an item of a table of servers is the live record of a
  server of that node, and no server is in two slots. The live servers that are in no table are `spare`. One
  lemma for each thing that the name server does to them: a node or a server is made, a server is put into
  a table, taken out of it, or freed.
Imports: Qrtr.Records.Core, Qrtr.Map.Image, Qrtr.NameServer.Handlers, Qrtr.LinkedList.Consistency
Main exports: Record.server?, Record.node?, Record.lookup?, TableShows, TablesShow, TablesShow.newNode,
  TablesShow.newServer, TablesShow.put, TablesShow.remove, TablesShow.free, LookupsShow,
  LookupsShow.append, LookupsShow.remove
Open obligations: none
-/
import Qrtr.Records.Core
import Qrtr.Map.Image
import Qrtr.NameServer.Handlers
import Qrtr.LinkedList.Consistency

namespace Qrtr.Records

/-! ### Records of one kind -/

/-- The `struct server` that a record is, and the key of its item. -/
def Record.server? : Record → Option (Server × UInt32)
  | .server srv key => some (srv, key)
  | _ => none

/-- The `struct node` that a record is: its id, the key of its item, and its services. -/
def Record.node? : Record → Option (UInt32 × UInt32 × Map Addr)
  | .node id key services => some (id, key, services)
  | _ => none

/-- The `struct lookup` that a record is. -/
def Record.lookup? : Record → Option Lookup
  | .lookup l => some l
  | _ => none

/-- The server at an address, with zeros where there is none. -/
def serverOf (server : Addr → Option (Server × UInt32)) (a : Addr) : Server :=
  ((server a).map Prod.fst).getD { service := 0, inst := 0, node := 0, port := 0 }

/-- The id of the node at an address, zero where there is none. -/
def idOf (node : Addr → Option (UInt32 × UInt32 × Map Addr)) (a : Addr) : UInt32 :=
  ((node a).map Prod.fst).getD 0

variable {node : Addr → Option (UInt32 × UInt32 × Map Addr)} {server : Addr → Option (Server × UInt32)}
  {a b : Addr} {id key k : UInt32} {srv : Server} {t : Map Addr}

theorem serverOf_eq (h : server a = some (srv, k)) : serverOf server a = srv := by
  rw [serverOf, h]
  rfl

theorem idOf_eq (h : node a = some (id, k, t)) : idOf node a = id := by
  rw [idOf, h]
  rfl

/-! ### One table of servers -/

/-- A table of addresses shows a table of servers of the node `id`. -/
structure TableShows (server : Addr → Option (Server × UInt32)) (id : UInt32) (t : Map Addr)
    (shown : Map Server) : Prop where
  inv : t.Inv
  apart : t.Apart
  held : ∀ {k b}, t.Holds k b → ∃ srv, server b = some (srv, k) ∧ srv.node = id
  shown_eq : shown = t.image (serverOf server)

theorem TableShows.create (server : Addr → Option (Server × UInt32)) (id : UInt32) :
    TableShows server id mapCreate mapCreate where
  inv := .create
  apart := .create
  held h := absurd h (Map.not_holds_create _ _)
  shown_eq := (Map.image_create _).symm

/-- Only the servers in the table matter. -/
theorem TableShows.congr {shown : Map Server} {server' : Addr → Option (Server × UInt32)}
    (h : TableShows server id t shown) (heq : ∀ k b, t.Holds k b → server' b = server b) :
    TableShows server' id t shown where
  inv := h.inv
  apart := h.apart
  held hk := by
    rw [heq _ _ hk]
    exact h.held hk
  shown_eq := by
    rw [h.shown_eq]
    exact Map.image_congr fun k b hb => by rw [serverOf, serverOf, heq k b hb]

/-- A put of an address shows a put of what is at the address. -/
theorem mapReput_shown {V : Type} {f : Addr → V} {m : Map Addr} {shown : Map V} {v : V}
    (hm : shown = m.image f) (hv : f a = v) (allocs : AllocPlan) (key : UInt32) :
    mapReput allocs shown key v = (mapReput allocs m key a).image f := by
  rw [hm, ← hv]
  exact mapReput_image f allocs m key a

/-! ### All tables -/

/-- The node and server records show the node table `vnodes` and the tables `services`. -/
structure TablesShow (node : Addr → Option (UInt32 × UInt32 × Map Addr))
    (server : Addr → Option (Server × UInt32)) (spare : Addr → Prop) (nodes : Map Addr)
    (vnodes : Map UInt32) (services : UInt32 → Map Server) : Prop where
  inv : nodes.Inv
  unique : nodes.Unique
  holds_iff : ∀ {k a}, nodes.Holds k a ↔ ∃ id t, node a = some (id, k, t)
  key : ∀ {a id k t}, node a = some (id, k, t) → k = hashU32 id
  nodes_eq : vnodes = nodes.image (idOf node)
  table : ∀ {a id k t}, node a = some (id, k, t) → TableShows server id t (services id)
  absent : ∀ {id}, (∀ a k t, node a ≠ some (id, k, t)) → services id = mapCreate
  placed : ∀ {b srv k}, server b = some (srv, k) →
    spare b ∨ ∃ a id l t, node a = some (id, l, t) ∧ t.Holds k b
  spare_live : ∀ {b}, spare b → ∃ srv k, server b = some (srv, k)
  spare_free : ∀ {b}, spare b → ∀ {a id l t}, node a = some (id, l, t) → ∀ k, ¬ t.Holds k b

theorem TablesShow.init :
    TablesShow (fun _ => none) (fun _ => none) (fun _ => False) mapCreate mapCreate
      fun _ => mapCreate where
  inv := .create
  unique := .create
  holds_iff := by
    intro k a
    refine ⟨fun h => absurd h (Map.not_holds_create _ _), ?_⟩
    rintro ⟨id, t, h⟩
    cases h
  key h := by cases h
  nodes_eq := (Map.image_create _).symm
  table h := by cases h
  absent _ := rfl
  placed h := by cases h
  spare_live h := h.elim
  spare_free h := h.elim

section

variable {spare : Addr → Prop} {nodes : Map Addr} {vnodes : Map UInt32} {services : UInt32 → Map Server}

/-- A node has one record. -/
theorem TablesShow.node_inj (h : TablesShow node server spare nodes vnodes services) {k k' : UInt32}
    {t t' : Map Addr} (ha : node a = some (id, k, t)) (hb : node b = some (id, k', t')) : a = b := by
  have hk := h.key ha
  have hk' := h.key hb
  subst hk
  subst hk'
  exact h.unique.holds_inj (h.holds_iff.2 ⟨_, _, ha⟩) (h.holds_iff.2 ⟨_, _, hb⟩)

/-- No node record is in two slots of the node table. -/
theorem TablesShow.nodes_apart (h : TablesShow node server spare nodes vnodes services) : nodes.Apart := by
  intro i j k l a hi hj
  obtain ⟨id, t, ha⟩ := h.holds_iff.1 ⟨i, hi⟩
  obtain ⟨id', t', ha'⟩ := h.holds_iff.1 ⟨j, hj⟩
  rw [ha] at ha'
  cases ha'
  exact h.unique i j k a a hi hj

/-- The record that the node table has for a node. -/
theorem TablesShow.get (h : TablesShow node server spare nodes vnodes services)
    (hget : mapGet nodes (hashU32 id) = some a) : ∃ t, node a = some (id, hashU32 id, t) := by
  obtain ⟨id', t, ha⟩ := h.holds_iff.1 (holds_of_mapGet hget)
  have hid := hashU32_injective (h.key ha)
  subst hid
  exact ⟨t, ha⟩

theorem TablesShow.get_none (h : TablesShow node server spare nodes vnodes services)
    (hget : mapGet nodes (hashU32 id) = none) (a : Addr) (k : UInt32) (t : Map Addr) :
    node a ≠ some (id, k, t) := by
  intro ha
  have hk := h.key ha
  subst hk
  exact (mapGet_eq_none_iff h.inv).1 hget a (h.holds_iff.2 ⟨_, _, ha⟩)

/-- The put of a new node record, as the node table sees it. -/
theorem TablesShow.put_shown (h : TablesShow node server spare nodes vnodes services)
    (ha : node a = none) (allocs : AllocPlan) (id : UInt32) :
    vnodes = nodes.image (idOf (Function.update node a (some (id, hashU32 id, mapCreate)))) ∧
      mapReput allocs vnodes (hashU32 id) id =
        (mapReput allocs nodes (hashU32 id) a).image
          (idOf (Function.update node a (some (id, hashU32 id, mapCreate)))) := by
  have himage : vnodes =
      nodes.image (idOf (Function.update node a (some (id, hashU32 id, mapCreate)))) := by
    rw [h.nodes_eq]
    refine Map.image_congr fun k b hk => ?_
    rw [idOf, idOf, Function.update_of_ne]
    rintro rfl
    obtain ⟨id', t, hb⟩ := h.holds_iff.1 hk
    rw [ha] at hb
    cases hb
  exact ⟨himage, mapReput_shown himage (idOf_eq (Function.update_self ..)) allocs _⟩

/-- The node record of a node that had none is made and put into the node table. -/
theorem TablesShow.newNode (h : TablesShow node server spare nodes vnodes services)
    (hget : mapGet nodes (hashU32 id) = none) (ha : node a = none) {allocs : AllocPlan}
    (hrc : (mapReput allocs nodes (hashU32 id) a).rc = 0) :
    TablesShow (Function.update node a (some (id, hashU32 id, mapCreate))) server spare
      (mapReput allocs nodes (hashU32 id) a).map (mapReput allocs vnodes (hashU32 id) id).map
      (Function.update services id mapCreate) := by
  have habs := (mapGet_eq_none_iff h.inv).1 hget
  obtain ⟨-, hinv, hunique, hholds⟩ | ⟨hbad, -⟩ := mapPut_absent h.inv h.unique habs allocs a
  case inr => exact absurd hrc hbad
  have hne : ∀ {k b}, nodes.Holds k b → b ≠ a := by
    rintro k b hk rfl
    obtain ⟨id', t, hb⟩ := h.holds_iff.1 hk
    rw [ha] at hb
    cases hb
  constructor
  case inv => exact hinv
  case unique => exact hunique
  case holds_iff =>
    intro k b
    rw [show (mapReput allocs nodes (hashU32 id) a).map.Holds k b ↔ _ from hholds k b]
    by_cases hb : b = a
    · subst hb
      simp only [Function.update_self, Option.some.injEq, Prod.mk.injEq]
      split
      · rename_i hk
        exact ⟨fun _ => ⟨id, mapCreate, rfl, hk.symm, rfl⟩, fun _ => trivial⟩
      · rename_i hk
        refine ⟨fun hold => absurd rfl (hne hold), ?_⟩
        rintro ⟨-, -, -, heq, -⟩
        exact absurd heq.symm hk
    · rw [Function.update_of_ne hb, ← h.holds_iff]
      split
      · rename_i hk
        subst hk
        exact iff_of_false hb (habs b)
      · rfl
  case key =>
    intro b id' k t hb
    rw [Function.update_apply] at hb
    split at hb
    · cases hb
      rfl
    · exact h.key hb
  case nodes_eq =>
    rw [(h.put_shown ha allocs id).2]
    rfl
  case table =>
    intro b id' k t hb
    rw [Function.update_apply] at hb
    split at hb
    · cases hb
      rw [Function.update_self]
      exact .create server id
    · have hid' : id' ≠ id := fun heq => h.get_none hget b k t (heq ▸ hb)
      rw [Function.update_of_ne hid']
      exact h.table hb
  case absent =>
    intro id' hnone
    rw [Function.update_apply]
    split
    · rfl
    · refine h.absent fun b k t hb => hnone b k t ?_
      rw [Function.update_of_ne (by rintro rfl; rw [ha] at hb; cases hb)]
      exact hb
  case placed =>
    intro b srv k hb
    rcases h.placed hb with hspare | ⟨c, id', l, t, hc, hk⟩
    · exact Or.inl hspare
    · refine Or.inr ⟨c, id', l, t, ?_, hk⟩
      rw [Function.update_of_ne (by rintro rfl; rw [ha] at hc; cases hc)]
      exact hc
  case spare_live => exact h.spare_live
  case spare_free =>
    intro b hspare c id' l t hc k
    rw [Function.update_apply] at hc
    split at hc
    · cases hc
      exact Map.not_holds_create _ _
    · exact h.spare_free hspare hc k

/-- A server record is made. It is in no table yet. -/
theorem TablesShow.newServer (h : TablesShow node server spare nodes vnodes services)
    (hb : server b = none) (srv : Server) (key : UInt32) :
    TablesShow node (Function.update server b (some (srv, key))) (fun c => spare c ∨ c = b) nodes vnodes
      services := by
  have hfree : ∀ {a id l t}, node a = some (id, l, t) → ∀ k, ¬ t.Holds k b := by
    intro a id l t ha k hk
    obtain ⟨s, hs, -⟩ := (h.table ha).held hk
    rw [hb] at hs
    cases hs
  constructor
  case inv => exact h.inv
  case unique => exact h.unique
  case holds_iff => exact h.holds_iff
  case key => exact h.key
  case nodes_eq => exact h.nodes_eq
  case absent => exact h.absent
  case table =>
    intro a id k t ha
    refine (h.table ha).congr fun l c hc => Function.update_of_ne ?_ _ _
    rintro rfl
    exact hfree ha l hc
  case placed =>
    intro c s k hc
    rw [Function.update_apply] at hc
    split at hc
    · exact Or.inl (Or.inr ‹c = b›)
    · exact (h.placed hc).imp Or.inl fun hplaced => hplaced
  case spare_live =>
    intro c hc
    rw [Function.update_apply]
    split
    · exact ⟨srv, key, rfl⟩
    · exact h.spare_live (hc.resolve_right ‹¬ c = b›)
  case spare_free =>
    rintro c (hc | rfl) a id l t ha k
    · exact h.spare_free hc ha k
    · exact hfree ha k

/-- The record of a node with other services. -/
theorem holds_iff_setServices (h : ∀ {k a}, nodes.Holds k a ↔ ∃ id t, node a = some (id, k, t))
    (ha : node a = some (id, k, t)) (t' : Map Addr) {l : UInt32} {c : Addr} :
    nodes.Holds l c ↔ ∃ id' t'', Function.update node a (some (id, k, t')) c = some (id', l, t'') := by
  rw [h]
  by_cases hc : c = a
  · subst hc
    simp only [ha, Function.update_self, Option.some.injEq, Prod.mk.injEq]
    constructor
    · rintro ⟨id', t'', rfl, rfl, -⟩
      exact ⟨_, _, rfl, rfl, rfl⟩
    · rintro ⟨id', t'', rfl, rfl, -⟩
      exact ⟨_, _, rfl, rfl, rfl⟩
  · rw [Function.update_of_ne hc]

theorem idOf_setServices (ha : node a = some (id, k, t)) (t' : Map Addr) :
    idOf (Function.update node a (some (id, k, t'))) = idOf node := by
  funext c
  by_cases hc : c = a
  · subst hc
    rw [idOf_eq (Function.update_self ..), idOf_eq ha]
  · rw [idOf, idOf, Function.update_of_ne hc]

/-- The services of one node and the record of one server change. What is left to show is about that table,
    that server, and the servers that are spare. -/
theorem TablesShow.setServices (h : TablesShow node server spare nodes vnodes services)
    (ha : node a = some (id, k, t)) {t' : Map Addr} {shown : Map Server} {spare' : Addr → Prop}
    {server' : Addr → Option (Server × UInt32)} (htable : TableShows server' id t' shown)
    (hothers : ∀ {c id' l t''}, id' ≠ id → node c = some (id', l, t'') → ∀ {l b}, t''.Holds l b →
      server' b = server b)
    (hplaced : ∀ {c srv l}, server' c = some (srv, l) → spare' c ∨ t'.Holds l c ∨
      ∃ d id' m t'', id' ≠ id ∧ node d = some (id', m, t'') ∧ t''.Holds l c)
    (hlive : ∀ {c}, spare' c → ∃ srv l, server' c = some (srv, l))
    (hfree : ∀ {c}, spare' c → (∀ l, ¬ t'.Holds l c) ∧
      ∀ {d id' m t''}, id' ≠ id → node d = some (id', m, t'') → ∀ l, ¬ t''.Holds l c) :
    TablesShow (Function.update node a (some (id, k, t'))) server' spare' nodes vnodes
      (Function.update services id shown) := by
  -- a record other than the one at `a` is that of another node
  have hne : ∀ {c id' l t''}, c ≠ a → node c = some (id', l, t'') → id' ≠ id := by
    rintro c id' l t'' hc hnode rfl
    exact hc (h.node_inj hnode ha)
  have hcases : ∀ {c id' l t''}, Function.update node a (some (id, k, t')) c = some (id', l, t'') →
      (id' = id ∧ l = k ∧ t'' = t') ∨ (id' ≠ id ∧ node c = some (id', l, t'')) := by
    intro c id' l t'' hc
    rw [Function.update_apply] at hc
    split at hc
    · cases hc
      exact Or.inl ⟨rfl, rfl, rfl⟩
    · exact Or.inr ⟨hne ‹_› hc, hc⟩
  constructor
  case inv => exact h.inv
  case unique => exact h.unique
  case holds_iff => exact holds_iff_setServices h.holds_iff ha t'
  case nodes_eq => rw [idOf_setServices ha, h.nodes_eq]
  case key =>
    intro c id' l t'' hc
    rcases hcases hc with ⟨rfl, rfl, rfl⟩ | ⟨-, hnode⟩
    · exact h.key ha
    · exact h.key hnode
  case table =>
    intro c id' l t'' hc
    rcases hcases hc with ⟨rfl, rfl, rfl⟩ | ⟨hid, hnode⟩
    · rw [Function.update_self]
      exact htable
    · rw [Function.update_of_ne hid]
      exact (h.table hnode).congr fun m b hb => hothers hid hnode hb
  case absent =>
    intro id' hnone
    have hid : id' ≠ id := by
      rintro rfl
      exact hnone a k t' (Function.update_self ..)
    rw [Function.update_of_ne hid]
    refine h.absent fun c l t'' hc => hnone c l t'' ?_
    rwa [Function.update_of_ne]
    rintro rfl
    rw [ha] at hc
    cases hc
    exact hid rfl
  case placed =>
    intro c srv l hc
    rcases hplaced hc with hspare | hheld | ⟨d, id', m, t'', hid, hnode, hheld⟩
    · exact Or.inl hspare
    · exact Or.inr ⟨a, id, k, t', Function.update_self .., hheld⟩
    · refine Or.inr ⟨d, id', m, t'', ?_, hheld⟩
      rwa [Function.update_of_ne]
      rintro rfl
      rw [ha] at hnode
      cases hnode
      exact hid rfl
  case spare_live => exact hlive
  case spare_free =>
    intro c hspare d id' m t'' hd l
    rcases hcases hd with ⟨rfl, rfl, rfl⟩ | ⟨hid, hnode⟩
    · exact (hfree hspare).1 l
    · exact (hfree hspare).2 hid hnode l

/-- Two tables have no server in common. -/
theorem TablesShow.tables_disjoint (h : TablesShow node server spare nodes vnodes services)
    {id' k' l l' : UInt32} {t' : Map Addr} {c : Addr} (ha : node a = some (id, k, t))
    (hb : node b = some (id', k', t')) (hid : id' ≠ id) (hc : t.Holds l c) : ¬ t'.Holds l' c := by
  intro hc'
  obtain ⟨srv, hsrv, hnode⟩ := (h.table ha).held hc
  obtain ⟨srv', hsrv', hnode'⟩ := (h.table hb).held hc'
  rw [hsrv] at hsrv'
  cases hsrv'
  exact hid (hnode'.symm.trans hnode)

/-- The servers that no table has after a put of `b`: those before it but `b`, and those that the put has
    taken from the table. -/
def spareAfter (spare : Addr → Prop) (t t' : Map Addr) (b c : Addr) : Prop :=
  spare c ∧ c ≠ b ∨ (∃ l, t.Holds l c) ∧ ∀ l, ¬ t'.Holds l c

/-- A spare server of the node is put into the table of the node. -/
theorem TablesShow.put (h : TablesShow node server spare nodes vnodes services)
    (ha : node a = some (id, k, t)) (hb : server b = some (srv, key)) (hspare : spare b)
    (hid : srv.node = id) {allocs : AllocPlan} {port : UInt32}
    (hrc : (mapReput allocs t port b).rc = 0) :
    TablesShow (Function.update node a (some (id, k, (mapReput allocs t port b).map)))
      (Function.update server b (some (srv, port)))
      (spareAfter spare t (mapReput allocs t port b).map b) nodes vnodes
      (Function.update services id (mapReput allocs (services id) port srv).map) := by
  have hta := h.table ha
  have hnew : ∀ l, ¬ t.Holds l b := h.spare_free hspare ha
  have hitems := mapReput_items hta.inv hta.apart hnew hrc
  have hother : ∀ {l c}, t.Holds l c → c ≠ b := by
    rintro l c hc rfl
    exact hnew l hc
  have hserver : ∀ {l c}, t.Holds l c → Function.update server b (some (srv, port)) c = server c :=
    fun hc => Function.update_of_ne (hother hc) _ _
  refine h.setServices ha ?_ ?_ ?_ ?_ ?_
  · constructor
    case inv => exact hitems.inv
    case apart => exact hitems.apart
    case held =>
      intro l c hc
      rcases hitems.only hc with heq | hold
      · cases heq
        exact ⟨srv, Function.update_self .., hid⟩
      · rw [hserver hold]
        exact hta.held hold
    case shown_eq =>
      have hshown := (hta.congr fun l c hc => hserver hc).shown_eq
      rw [mapReput_shown hshown (serverOf_eq (Function.update_self ..))]
      rfl
  · intro c id' l t'' hne hc m d hd
    refine Function.update_of_ne ?_ _ _
    rintro rfl
    exact h.spare_free hspare hc m hd
  · intro c s l hc
    rw [Function.update_apply] at hc
    split at hc
    · rename_i hcb
      cases hc
      rw [hcb]
      exact Or.inr (Or.inl hitems.put)
    · rename_i hcb
      rcases h.placed hc with hs | ⟨d, id', m, t'', hd, hheld⟩
      · exact Or.inl (Or.inl ⟨hs, hcb⟩)
      · by_cases hne : id' = id
        · subst hne
          obtain rfl := h.node_inj ha hd
          rw [ha] at hd
          cases hd
          by_cases hin : (mapReput allocs t port b).map.Holds l c
          · exact Or.inr (Or.inl hin)
          · refine Or.inl (Or.inr ⟨⟨l, hheld⟩, fun m hm => ?_⟩)
            rcases hitems.only hm with heq | ⟨i, hi⟩
            · cases heq
              exact hcb rfl
            · -- an item that stays is under the key it was under
              obtain ⟨j, hj⟩ := hheld
              have hij := hta.apart i j m l c hi hj
              rw [hij, hj] at hi
              cases hi
              exact hin hm
        · exact Or.inr (Or.inr ⟨d, id', m, t'', hne, hd, hheld⟩)
  · rintro c (⟨hs, hcb⟩ | ⟨⟨l, hheld⟩, -⟩)
    · rw [Function.update_of_ne hcb]
      exact h.spare_live hs
    · rw [hserver hheld]
      obtain ⟨s, hs, -⟩ := hta.held hheld
      exact ⟨s, l, hs⟩
  · rintro c (⟨hs, hcb⟩ | ⟨⟨l, hheld⟩, hgone⟩)
    · refine ⟨fun l hl => ?_, fun _ hd l => h.spare_free hs hd l⟩
      rcases hitems.only hl with heq | hold
      · cases heq
        exact hcb rfl
      · exact h.spare_free hs ha l hold
    · exact ⟨hgone, fun hne hd m => h.tables_disjoint ha hd hne hheld⟩

/-- A server is taken out of the table of its node. -/
theorem TablesShow.remove (h : TablesShow node server spare nodes vnodes services)
    (ha : node a = some (id, k, t)) {port : UInt32} (hget : mapGet t port = some b) :
    TablesShow (Function.update node a (some (id, k, (mapRemove t port).2))) server
      (fun c => spare c ∨ c = b) nodes vnodes
      (Function.update services id (mapRemove (services id) port).2) := by
  have hta := h.table ha
  have hb := holds_of_mapGet hget
  -- the one slot of the server is now a tombstone
  obtain ⟨e, he, hslot⟩ : ∃ e, t.slot e = .item port b ∧
      ∀ j, (mapRemove t port).2.slot j = if j = e then .deleted else t.slot j := by
    rcases mapRemove_cases t port with ⟨hnone, -⟩ | ⟨e, v, hfind, hv, heq⟩
    · exact absurd hb ((mapFind_eq_none_iff hta.inv).1 hnone b)
    · have hvb : v = b := by
        rw [mapGet, hfind] at hget
        simpa [hv, Slot.live?] using hget
      subst hvb
      refine ⟨e, hv, fun j => ?_⟩
      rw [heq, Map.slot_removed (Map.lt_size_of_item hv)]
  have hold : ∀ {l c}, (mapRemove t port).2.Holds l c → t.Holds l c ∧ c ≠ b := by
    rintro l c ⟨j, hj⟩
    rw [hslot] at hj
    split at hj
    · cases hj
    · rename_i hne
      refine ⟨⟨j, hj⟩, ?_⟩
      rintro rfl
      exact hne (hta.apart j e l port c hj he)
  refine h.setServices ha ?_ (fun _ _ _ _ _ => rfl) ?_ ?_ ?_
  · constructor
    case inv => exact hta.inv.remove port
    case apart => exact hta.apart.remove port
    case held => exact fun hl => hta.held (hold hl).1
    case shown_eq => rw [hta.shown_eq, mapRemove_image]
  · intro c s l hc
    rcases h.placed hc with hs | ⟨d, id', m, t'', hd, hheld⟩
    · exact Or.inl (Or.inl hs)
    · by_cases hne : id' = id
      · subst hne
        obtain rfl := h.node_inj ha hd
        rw [ha] at hd
        cases hd
        by_cases hcb : c = b
        · exact Or.inl (Or.inr hcb)
        · obtain ⟨j, hj⟩ := hheld
          refine Or.inr (Or.inl ⟨j, ?_⟩)
          rw [hslot, if_neg]
          · exact hj
          · rintro rfl
            rw [he] at hj
            cases hj
            exact hcb rfl
      · exact Or.inr (Or.inr ⟨d, id', m, t'', hne, hd, hheld⟩)
  · rintro c (hs | rfl)
    · exact h.spare_live hs
    · obtain ⟨s, hs, -⟩ := hta.held hb
      exact ⟨s, port, hs⟩
  · rintro c (hs | rfl)
    · exact ⟨fun l hl => h.spare_free hs ha l (hold hl).1, fun _ hd l => h.spare_free hs hd l⟩
    · exact ⟨fun l hl => (hold hl).2 rfl, fun hne hd l => h.tables_disjoint ha hd hne hb⟩

/-- A spare server is freed. -/
theorem TablesShow.free (h : TablesShow node server spare nodes vnodes services) (hspare : spare b) :
    TablesShow node (Function.update server b none) (fun c => spare c ∧ c ≠ b) nodes vnodes services := by
  constructor
  case inv => exact h.inv
  case unique => exact h.unique
  case holds_iff => exact h.holds_iff
  case key => exact h.key
  case nodes_eq => exact h.nodes_eq
  case absent => exact h.absent
  case table =>
    intro a id k t ha
    refine (h.table ha).congr fun l c hc => Function.update_of_ne ?_ _ _
    rintro rfl
    exact h.spare_free hspare ha l hc
  case placed =>
    intro c s k hc
    rw [Function.update_apply] at hc
    split at hc
    · cases hc
    · rename_i hcb
      exact (h.placed hc).imp (fun hs => ⟨hs, hcb⟩) fun hplaced => hplaced
  case spare_live =>
    rintro c ⟨hs, hcb⟩
    rw [Function.update_of_ne hcb]
    exact h.spare_live hs
  case spare_free => exact fun hs => h.spare_free hs.1

/-- Which servers are spare matters only as far as it is a true statement. -/
theorem TablesShow.spare_congr (h : TablesShow node server spare nodes vnodes services)
    {spare' : Addr → Prop} (heq : ∀ c, spare' c ↔ spare c) :
    TablesShow node server spare' nodes vnodes services := by
  rwa [show spare' = spare from funext fun c => propext (heq c)]

end

/-! ### The lookups -/

/-- The lookups that the records and the links show, in the order of the list. -/
structure LookupsShow (lookup : Addr → Option Lookup) (links : Links Addr) (ls : List Addr)
    (lookups : List Lookup) : Prop where
  stands : links.Stands ls
  nodup : ls.Nodup
  mem_iff : ∀ {a}, a ∈ ls ↔ ∃ l, lookup a = some l
  lookups_eq : lookups = ls.filterMap lookup

section

variable {lookup : Addr → Option Lookup} {links : Links Addr} {ls pre post : List Addr}
  {lookups : List Lookup}

theorem LookupsShow.init (memory : Links Addr) :
    LookupsShow (fun _ => none) (listInit memory) [] [] where
  stands := listInit_stands memory
  nodup := List.nodup_nil
  mem_iff := by simp
  lookups_eq := rfl

/-- Records of other addresses do not matter. -/
theorem filterMap_update {x : Option Lookup} (ha : a ∉ ls) :
    ls.filterMap (Function.update lookup a x) = ls.filterMap lookup := by
  refine List.filterMap_congr fun c hc => Function.update_of_ne ?_ _ _
  rintro rfl
  exact ha hc

theorem LookupsShow.append (h : LookupsShow lookup links ls lookups) (ha : lookup a = none)
    (l : Lookup) :
    LookupsShow (Function.update lookup a (some l)) (listAppend links a) (ls ++ [a]) (lookups ++ [l]) := by
  have hmem : a ∉ ls := fun hmem => by
    obtain ⟨l', hl'⟩ := h.mem_iff.1 hmem
    rw [ha] at hl'
    cases hl'
  constructor
  case stands => exact h.stands.append h.nodup hmem
  case nodup =>
    refine List.nodup_append.2 ⟨h.nodup, List.nodup_singleton a, fun c hc d hd => ?_⟩
    rintro rfl
    rw [List.mem_singleton.1 hd] at hc
    exact hmem hc
  case mem_iff =>
    intro c
    rw [List.mem_append, List.mem_singleton, Function.update_apply]
    split
    · rename_i hc
      exact iff_of_true (Or.inr hc) ⟨l, rfl⟩
    · rename_i hc
      rw [or_iff_left hc]
      exact h.mem_iff
  case lookups_eq =>
    rw [List.filterMap_append, filterMap_update hmem, ← h.lookups_eq]
    simp

theorem LookupsShow.remove (h : LookupsShow lookup links (pre ++ a :: post) lookups) :
    ∃ links', listRemove links a = some links' ∧
      LookupsShow (Function.update lookup a none) links' (pre ++ post)
        (pre.filterMap lookup ++ post.filterMap lookup) := by
  obtain ⟨links', hremove, hstands⟩ := h.stands.remove h.nodup
  obtain ⟨hmem, hnodup⟩ : a ∉ pre ++ post ∧ (pre ++ post).Nodup :=
    List.nodup_cons.1 ((List.perm_middle).nodup_iff.1 h.nodup)
  refine ⟨links', hremove, hstands, hnodup, ?_, ?_⟩
  · intro c
    have hiff := h.mem_iff (a := c)
    rw [Function.update_apply]
    split
    · rename_i hc
      rw [hc]
      exact iff_of_false hmem (by rintro ⟨l, hl⟩; cases hl)
    · rename_i hc
      rw [← hiff]
      simp [hc]
  · rw [← List.filterMap_append, filterMap_update hmem]

end

end Qrtr.Records
