/-
Module: Qrtr.NameServer.Observer
Layer: NameServer
Purpose: The registry as an observer sees it. A client that looks servers up is told about each server
  by lookup replies and notifications; `observe` replays them by their labels, which `tells_payload_run`
  ties to the bytes. Which datagram of a step tells a client about a server is said once, for additions
  and for removals; from that the view of a client that keeps its lookups equals the registry as long as
  nobody registers over a registered port, and what is missing when somebody does.
Imports: Qrtr.NameServer.Effects
Main exports: Msg.Tells, Happens.told_iff, observe, tells_payload_run, Quiet, view_eq_registry,
  AnnouncesOld, announcesOld_iff
Open obligations: none
-/
import Qrtr.NameServer.Effects

namespace Qrtr

open MapOps LawfulMap

/-! ### Who is told about which server -/

/-- The datagram is the notification of a client that a server is new, or that it is gone. -/
def Msg.Tells (m : Msg) (c : Sockaddr) (srv : Server) (new : Bool) : Prop :=
  m.dest = c ∧ m.call = .lookupNotify (some srv) new

/-- One of the datagrams tells the client so. -/
def Told (msgs : List Msg) (c : Sockaddr) (srv : Server) (new : Bool) : Prop :=
  ∃ m ∈ msgs, m.Tells c srv new

/-- Some lookup of the client matches the server. -/
def Watches (lookups : List Lookup) (c : Sockaddr) (srv : Server) : Prop :=
  ∃ l ∈ lookups, l.sq = c ∧ l.observes srv.service srv.inst = true

/-- The action takes the server out of the registry. -/
def Action.Removes (a : Action) (srv : Server) : Prop :=
  match a with
  | .bye n => srv.node = n
  | .closePort n p | .unregister n p => srv.node = n ∧ srv.port = p
  | _ => False

section

variable {c : Sockaddr} {x : Server} {new : Bool}

@[simp] theorem not_told_nil : ¬ Told [] c x new := by simp [Told]

@[simp] theorem told_append (msgs msgs' : List Msg) :
    Told (msgs ++ msgs') c x new ↔ Told msgs c x new ∨ Told msgs' c x new := by
  simp [Told, or_and_right, exists_or]

@[simp] theorem told_cons (m : Msg) (msgs : List Msg) :
    Told (m :: msgs) c x new ↔ m.Tells c x new ∨ Told msgs c x new := by
  simp [Told]

/-- Datagrams of other kinds tell a client nothing about servers. -/
theorem not_told_map {α : Type} {f : α → Msg} (hf : ∀ y z b, (f y).call ≠ .lookupNotify (some z) b)
    (ys : List α) : ¬ Told (ys.map f) c x new := by
  rintro ⟨m, hm, -, hcall⟩
  obtain ⟨y, -, rfl⟩ := List.mem_map.1 hm
  exact hf y x new hcall

variable {T : Type} {s : Ns T} {srv : Server}

theorem told_notifyMsgs {b : Bool} :
    Told (s.notifyMsgs srv b) c x new ↔ x = srv ∧ new = b ∧ Watches s.lookups c x := by
  constructor
  · rintro ⟨m, hm, hdest, hcall⟩
    obtain ⟨l, hl, rfl⟩ := List.mem_map.1 hm
    obtain ⟨hmem, hobs⟩ := List.mem_filter.1 hl
    cases hcall
    exact ⟨rfl, rfl, l, hmem, hdest, hobs⟩
  · rintro ⟨rfl, rfl, l, hmem, rfl, hobs⟩
    exact ⟨_, List.mem_map_of_mem (List.mem_filter.2 ⟨hmem, hobs⟩), rfl, rfl⟩

theorem told_delMsgs :
    Told (s.delMsgs srv) c x new ↔ x = srv ∧ new = false ∧ Watches s.lookups c x := by
  rw [Ns.delMsgs, told_append, told_notifyMsgs]
  apply or_iff_right
  rintro ⟨m, hm, -, hcall⟩
  split at hm
  · rw [List.mem_singleton.1 hm] at hcall
    cases hcall
  · cases hm

theorem told_newMsgs :
    Told (s.newMsgs srv) c x new ↔ x = srv ∧ new = true ∧ Watches s.lookups c x := by
  rw [Ns.newMsgs, told_append, told_notifyMsgs]
  apply or_iff_right
  rintro ⟨m, hm, -, hcall⟩
  split at hm
  · rw [List.mem_singleton.1 hm] at hcall
    cases hcall
  · cases hm

theorem told_flatMap_delMsgs {gone : List Server} :
    Told (gone.flatMap s.delMsgs) c x new ↔ x ∈ gone ∧ new = false ∧ Watches s.lookups c x := by
  constructor
  · rintro ⟨m, hm, htells⟩
    obtain ⟨srv, hsrv, hmsg⟩ := List.mem_flatMap.1 hm
    obtain ⟨rfl, hrest⟩ := told_delMsgs.1 ⟨m, hmsg, htells⟩
    exact ⟨hsrv, hrest⟩
  · rintro ⟨hsrv, hrest⟩
    have htold : Told (s.delMsgs x) c x new := told_delMsgs.2 ⟨rfl, hrest⟩
    obtain ⟨m, hmsg, htells⟩ := htold
    exact ⟨m, List.mem_flatMap.2 ⟨x, hsrv, hmsg⟩, htells⟩

end

section

variable {T : Type} [MapOps T Server] [LawfulMap T Server]

/-- A server is in some table exactly if a lookup finds it. -/
theorem exists_mem_forEach {s : Ns T} (hs : s.TablesOk) (hd : s.Distinct) {srv : Server} :
    (∃ n, srv ∈ forEach (s.services n)) ↔ s.server srv.node srv.port = some srv := by
  constructor
  · rintro ⟨n, hmem⟩
    have hsrv := (mem_forEach_server hs hd).1 hmem
    obtain ⟨hnode, -⟩ := hs.server_node_port hsrv
    rwa [hnode]
  · intro hsrv
    exact ⟨_, (mem_forEach_server hs hd).2 hsrv⟩

variable {s : Ns T} {e : Event} {a : Action} {services : UInt32 → T} {lookups : List Lookup}
  {msgs : List Msg} {rc : Int} {c : Sockaddr} {x : Server}

/-- The messages of a removal of one port. -/
theorem told_port (hs : s.TablesOk) {n p : UInt32} {gone : Option Server}
    (hgone : get (s.services n) (hashU32 p) = gone) :
    x ∈ gone.toList ↔ s.server x.node x.port = some x ∧ x.node = n ∧ x.port = p := by
  subst hgone
  rw [Option.mem_toList, ← server_eq_get hs.nodesOk]
  constructor
  · intro hsrv
    obtain ⟨rfl, rfl⟩ := hs.server_node_port hsrv
    exact ⟨hsrv, rfl, rfl⟩
  · rintro ⟨hsrv, rfl, rfl⟩
    exact hsrv

/-- A client is told that a server is new when the server registers or the client starts to look, and that
    it is gone when an action removes it. -/
theorem Happens.told_iff (h : Happens s e a services lookups msgs rc) (hs : s.TablesOk)
    (hd : s.Distinct) (ha : e.allocs = []) (new : Bool) :
    Told msgs c x new ↔
      (new = true ∧ a = .register x ∧ Watches s.lookups c x) ∨
      (new = true ∧ s.server x.node x.port = some x ∧
        ∃ l, a = .watch l ∧ l.sq = c ∧ l.observes x.service x.inst = true) ∨
      (new = false ∧ s.server x.node x.port = some x ∧ a.Removes x ∧ Watches lookups c x) := by
  cases h with
  | nothing why =>
      rcases why with rfl | hne | ⟨n, p, rfl, hnone⟩
      · simp [Action.Removes]
      · exact absurd ha hne
      · have habs : ¬ (s.server x.node x.port = some x ∧ x.node = n ∧ x.port = p) := by
          rw [← told_port hs hnone]
          simp
        simp only [not_told_nil, reduceCtorEq, false_and, and_false, exists_false, false_or,
          Action.Removes, false_iff]
        tauto
  | @hello first _ prefixes all hrc =>
      have hannounce : ¬ Told (first.map (announceNewMsg s.order e.sq)) c x new :=
        not_told_map (f := announceNewMsg s.order e.sq) (fun _ _ _ h => nomatch h) first
      simp [hannounce, Msg.Tells, Action.Removes]
  | @bye gone told _ removal complete tell all =>
      have hbye : ¬ Told (told.map (byeMsg s.order e.sq.node)) c x new :=
        not_told_map (f := byeMsg s.order e.sq.node) (fun _ _ _ h => nomatch h) told
      obtain ⟨rfl, -⟩ := complete (hd _) fun i k srv hi => (hs.keyed ⟨i, hi⟩).2
      have hgone : x ∈ forEach (s.services e.sq.node) ↔
          s.server x.node x.port = some x ∧ x.node = e.sq.node := by
        rw [mem_forEach_server hs hd]
        constructor
        · intro hsrv
          obtain ⟨hnode, -⟩ := hs.server_node_port hsrv
          rw [← hnode] at hsrv
          exact ⟨hsrv, hnode⟩
        · rintro ⟨hsrv, hnode⟩
          rwa [hnode] at hsrv
      simp [told_flatMap_delMsgs, hbye, hgone, Action.Removes]
      tauto
  | @closePort n p gone told t removal tell all =>
      have hdelClient : ¬ Told (told.map (delClientMsg s.order e.stack n p)) c x new :=
        not_told_map (f := delClientMsg s.order e.stack n p) (fun _ _ _ h => nomatch h) told
      have hgone : x ∈ gone ↔ s.server x.node x.port = some x ∧ x.node = n ∧ x.port = p := by
        rw [← told_port hs rfl, removal.gone_eq ha]
      simp [told_flatMap_delMsgs, hdelClient, hgone, Action.Removes]
      tauto
  | @register srv plan _ hplan hput hrc =>
      simp [told_newMsgs, Action.Removes]
      tauto
  | @unregister n p srv found =>
      have hgone := told_port (x := x) hs found
      simp [told_delMsgs, Action.Removes] at hgone ⊢
      tauto
  | @watch l reply hreply =>
      have hend : ¬ (notifyMsg s.order l.sq none true).Tells c x new := fun h => nomatch h.2
      have hmap : Told (reply.map fun srv => notifyMsg s.order l.sq (some srv) true) c x new ↔
          l.sq = c ∧ new = true ∧ x ∈ reply := by
        constructor
        · rintro ⟨m, hm, hdest, hcall⟩
          obtain ⟨srv, hsrv, rfl⟩ := List.mem_map.1 hm
          cases hcall
          exact ⟨hdest, rfl, hsrv⟩
        · rintro ⟨hdest, rfl, hsrv⟩
          exact ⟨_, List.mem_map_of_mem hsrv, hdest, rfl⟩
      rw [told_append, told_cons, hmap, hreply, exists_mem_forEach hs hd]
      simp [hend, Action.Removes]
      tauto
  | unwatch => simp [Action.Removes]

end

/-! ### The view of an observer -/

/-- What a client makes of a datagram: it adds the server of a NEW_SERVER notification and takes out the
    one of a DEL_SERVER notification. -/
def observe (c : Sockaddr) (view : List Server) (m : Msg) : List Server :=
  if m.dest = c then
    match m.call with
    | .lookupNotify (some srv) true => srv :: view
    | .lookupNotify (some srv) false => view.filter fun srv' => srv' ≠ srv
    | _ => view
  else view

/-- What the label says is in the bytes: what tells a client about a server is its notification. -/
theorem tells_payload {s : Ns (Map Server)} (h : s.Inv) (e : Event) {m : Msg} (hm : m ∈ (nsStep s e).2)
    {c : Sockaddr} {srv : Server} {new : Bool} (htells : m.Tells c srv new) :
    m.payload = notifyPkt s.order (some srv) new := by
  obtain ⟨⟨rc, hhappens⟩, -⟩ := nsStep_happens h.nodesOk h.ok e
  exact (hhappens.sends h.ok hm).notify_payload htells.2

/-- So it is in every run. -/
theorem tells_payload_run (order : HostOrder) (localNode : UInt32) (events : List Event) {m : Msg}
    (hm : m ∈ (Run.outputs nsStep (nsInit order localNode : Ns (Map Server)) events).flatten)
    {c : Sockaddr} {srv : Server} {new : Bool} (htells : m.Tells c srv new) :
    m.payload = notifyPkt order (some srv) new := by
  have hstep : ∀ (s : Ns (Map Server)) (e : Event), s.Inv ∧ s.order = order → True →
      ((nsStep s e).1.Inv ∧ (nsStep s e).1.order = order) ∧
        ∀ m ∈ (nsStep s e).2, m.Tells c srv new → m.payload = notifyPkt order (some srv) new := by
    rintro s e ⟨hs, rfl⟩ -
    exact ⟨⟨hs.step e, (nsStep_frame hs.nodesOk hs.ok e).1⟩, fun m hm => tells_payload hs e hm⟩
  have hall : ∀ msgs ∈ Run.outputs nsStep (nsInit order localNode : Ns (Map Server)) events,
      ∀ m ∈ msgs, m.Tells c srv new → m.payload = notifyPkt order (some srv) new :=
    Run.Guarded.outputs_forall hstep ⟨.init order localNode, rfl⟩ (.of_forall _ fun _ _ _ => trivial)
  obtain ⟨msgs, hmsgs, hmem⟩ := List.mem_flatten.1 hm
  exact hall msgs hmsgs m hmem htells

theorem mem_observe {c : Sockaddr} {view : List Server} {m : Msg} {x : Server} :
    x ∈ observe c view m ↔ m.Tells c x true ∨ x ∈ view ∧ ¬ m.Tells c x false := by
  rw [observe]
  by_cases hdest : m.dest = c
  · rw [if_pos hdest]
    split
    · rename_i srv hcall
      have hnew : m.Tells c x true ↔ x = srv := by simp [Msg.Tells, hdest, hcall, eq_comm]
      have hdel : ¬ m.Tells c x false := by simp [Msg.Tells, hcall]
      simp [hnew, hdel]
    · rename_i srv hcall
      have hnew : ¬ m.Tells c x true := by simp [Msg.Tells, hcall]
      have hdel : m.Tells c x false ↔ x = srv := by simp [Msg.Tells, hdest, hcall, eq_comm]
      simp [hnew, hdel]
    · rename_i hnotNew hnotDel
      have hnew : ¬ m.Tells c x true := fun h => hnotNew x h.2
      have hdel : ¬ m.Tells c x false := fun h => hnotDel x h.2
      simp [hnew, hdel]
  · have hnot : ∀ new, ¬ m.Tells c x new := fun new h => hdest h.1
    simp [hdest, hnot]

/-- The view after datagrams that say nothing against a server. -/
theorem mem_foldl_observe_new {c : Sockaddr} {x : Server} :
    ∀ {msgs : List Msg} {view : List Server}, ¬ Told msgs c x false →
      (x ∈ msgs.foldl (observe c) view ↔ x ∈ view ∨ Told msgs c x true)
  | [], _, _ => by simp
  | m :: msgs, view, h => by
      rw [told_cons, not_or] at h
      rw [List.foldl_cons, mem_foldl_observe_new h.2, mem_observe, told_cons]
      simp only [h.1, not_false_eq_true, and_true]
      rw [or_comm (a := m.Tells c x true), or_assoc]

/-- The view after datagrams that say nothing for a server. -/
theorem mem_foldl_observe_del {c : Sockaddr} {x : Server} :
    ∀ {msgs : List Msg} {view : List Server}, ¬ Told msgs c x true →
      (x ∈ msgs.foldl (observe c) view ↔ x ∈ view ∧ ¬ Told msgs c x false)
  | [], _, _ => by simp
  | m :: msgs, view, h => by
      rw [told_cons, not_or] at h
      rw [List.foldl_cons, mem_foldl_observe_del h.2, mem_observe, told_cons]
      simp only [h.1, false_or, not_or, and_assoc]

/-- What it takes for the view of a client to stay right: memory suffices and sends succeed, nobody
    registers over a registered port, and the client drops none of its lookups. -/
structure Quiet (c : Sockaddr) (s : Ns (Map Server)) (e : Event) : Prop where
  allocs : e.allocs = []
  sends : e.sends = []
  fresh : ∀ srv, s.action e = .register srv → s.server srv.node srv.port = none
  keeps : e.sq = c → (∀ service inst, s.action e ≠ .unwatch c service inst) ∧
    ∀ n p, s.action e ≠ .closePort n p

/-- The view of a client is the registered servers that one of its lookups matches. -/
structure ViewInv (c : Sockaddr) (s : Ns (Map Server)) (view : List Server) : Prop extends s.Inv where
  distinct : s.Distinct
  clientLocal : c.node = s.localNode
  view : ∀ srv, srv ∈ view ↔ s.server srv.node srv.port = some srv ∧ Watches s.lookups c srv

theorem watches_filter {ls : List Lookup} {keep : Lookup → Bool} {c : Sockaddr} {x : Server}
    (h : ∀ l, l.sq = c → keep l = true) : Watches (ls.filter keep) c x ↔ Watches ls c x := by
  constructor
  · rintro ⟨l, hl, hsq, hobs⟩
    exact ⟨l, (List.mem_filter.1 hl).1, hsq, hobs⟩
  · rintro ⟨l, hl, hsq, hobs⟩
    exact ⟨l, List.mem_filter.2 ⟨hl, h l hsq⟩, hsq, hobs⟩

/-- The lookups of a client that drops none. -/
theorem Quiet.watches_lookups {s : Ns (Map Server)} {e : Event} {c : Sockaddr} (hq : Quiet c s e)
    (hlocal : c.node = s.localNode) (x : Server) :
    Watches ((s.action e).lookups s.lookups) c x ↔ Watches s.lookups c x ∨
      ∃ l, s.action e = .watch l ∧ l.sq = c ∧ l.observes x.service x.inst = true := by
  have hchecked := s.action_checked e
  have hkeeps := hq.keeps
  generalize s.action e = a at hchecked hkeeps
  cases a with
  | closePort n p =>
      simp only [Action.lookups, reduceCtorEq, false_and, exists_false, or_false]
      apply watches_filter
      rintro l rfl
      obtain ⟨hn, hp⟩ := hchecked
      have hother : ¬ (l.sq.node = n ∧ l.sq.port = p) := by
        rintro ⟨hnode, hport⟩
        have hport' : p = e.sq.port := hp (by rw [← hn, ← hnode, hlocal])
        have hsq : e.sq = l.sq := Sockaddr.ext (by rw [hnode, hn]) (by rw [hport, hport'])
        exact (hkeeps hsq).2 n p rfl
      rw [not_and_or] at hother
      simpa using hother
  | watch l => simp [Action.lookups, Watches, or_and_right, exists_or]
  | unwatch sq service inst =>
      simp only [Action.lookups, reduceCtorEq, false_and, exists_false, or_false]
      apply watches_filter
      rintro l rfl
      have hother : ¬ (l.sq.node = sq.node ∧ l.sq.port = sq.port) := by
        rintro ⟨hnode, hport⟩
        have hsq : sq = l.sq := Sockaddr.ext hnode.symm hport.symm
        have hsender : e.sq = l.sq := by rw [← hsq]; exact Eq.symm hchecked
        exact (hkeeps hsender).1 service inst (by rw [hsq])
      have hpair : (l.sq.node == sq.node && l.sq.port == sq.port) = false := by
        rw [Bool.eq_false_iff]
        simpa using hother
      rw [hpair]
      rfl
  | _ => simp [Action.lookups]

/-- One step keeps the view of a client right. -/
theorem ViewInv.step {c : Sockaddr} {s : Ns (Map Server)} {view : List Server}
    (h : ViewInv c s view) {e : Event} (hq : Quiet c s e) :
    ViewInv c (nsStep s e).1 ((nsStep s e).2.foldl (observe c) view) := by
  have hs := h.toTablesOk
  have hplain : s.Plain (s.action e) := Ns.plain_of_absent hs hq.fresh
  obtain ⟨hd, hserver, hlookups⟩ := nsStep_refines hs h.distinct hplain hq.allocs
  obtain ⟨⟨rc, hhappens⟩, -⟩ := nsStep_happens hs.nodesOk hs.ok e
  refine ⟨h.toInv.step e, hd, ?_, fun x => ?_⟩
  · rw [(nsStep_frame hs.nodesOk hs.ok e).2.1]
    exact h.clientLocal
  have htold := fun new => hhappens.told_iff (c := c) (x := x) hs h.distinct hq.allocs new
  have hwatches := hq.watches_lookups h.clientLocal x
  rw [hlookups] at htold ⊢
  rw [hserver, hwatches]
  have hview := h.view x
  have hfresh := hq.fresh
  generalize s.action e = a at htold hwatches hfresh
  cases a with
  | register srv =>
      have hno : ¬ Told (nsStep s e).2 c x false := by simp [htold, Action.Removes]
      have hnone : s.server srv.node srv.port = none := hfresh srv rfl
      rw [mem_foldl_observe_new hno, htold, hview]
      simp only [Action.servers, Action.register.injEq, reduceCtorEq, Bool.true_eq_false, true_and,
        false_and, and_false, exists_false, or_false]
      by_cases hat : x.node = srv.node ∧ x.port = srv.port
      · simp [hat, hnone]
      · have hne : srv ≠ x := by
          rintro rfl
          exact hat ⟨rfl, rfl⟩
        simp [hat, hne]
  | watch l =>
      have hno : ¬ Told (nsStep s e).2 c x false := by simp [htold, Action.Removes]
      rw [mem_foldl_observe_new hno, htold, hview]
      simp only [Action.servers, reduceCtorEq, Bool.true_eq_false, true_and, false_and, and_false,
        or_false, false_or, ← and_or_left]
  | bye n =>
      have hno : ¬ Told (nsStep s e).2 c x true := by simp [htold]
      rw [mem_foldl_observe_del hno, htold, hview, hwatches]
      by_cases hat : x.node = n <;> simp [Action.servers, Action.Removes, hat]
  | closePort n p =>
      have hno : ¬ Told (nsStep s e).2 c x true := by simp [htold]
      rw [mem_foldl_observe_del hno, htold, hview, hwatches]
      by_cases hat : x.node = n ∧ x.port = p <;> simp [Action.servers, Action.Removes, hat]
  | unregister n p =>
      have hno : ¬ Told (nsStep s e).2 c x true := by simp [htold]
      rw [mem_foldl_observe_del hno, htold, hview, hwatches]
      by_cases hat : x.node = n ∧ x.port = p <;> simp [Action.servers, Action.Removes, hat]
  | _ =>
      have hno : ¬ Told (nsStep s e).2 c x true := by simp [htold]
      rw [mem_foldl_observe_del hno, htold, hview]
      simp [Action.servers, Action.Removes]

/-- The view is right at the end of every quiet run. -/
theorem ViewInv.run {c : Sockaddr} :
    ∀ {events : List Event} {s : Ns (Map Server)} {view : List Server}, ViewInv c s view →
      Run.Guarded (Quiet c) nsStep s events →
        ViewInv c (Run.final nsStep s events)
          ((Run.outputs nsStep s events).flatten.foldl (observe c) view)
  | [], _, _, h, _ => h
  | e :: events, s, view, h, ⟨hq, hrest⟩ => by
      have hnext := (h.step hq).run hrest
      rwa [← List.foldl_append] at hnext

theorem ViewInv.init (order : HostOrder) {localNode : UInt32} {c : Sockaddr}
    (hlocal : c.node = localNode) : ViewInv c (nsInit order localNode) [] where
  toInv := .init order localNode
  distinct := .init order localNode
  clientLocal := hlocal
  view srv := by simp [Watches, nsInit]

/-- Replaying the notifications of a local client that keeps its lookups gives the registered servers that
    match at least one of them. -/
theorem view_eq_registry (order : HostOrder) (localNode : UInt32) (c : Sockaddr)
    (hlocal : c.node = localNode) (events : List Event)
    (hquiet : Run.Guarded (Quiet c) nsStep (nsInit order localNode) events) (srv : Server) :
    srv ∈ (Run.outputs nsStep (nsInit order localNode : Ns (Map Server)) events).flatten.foldl
        (observe c) [] ↔
      (Run.final nsStep (nsInit order localNode : Ns (Map Server)) events).server srv.node srv.port =
          some srv ∧
        Watches (Run.final nsStep (nsInit order localNode : Ns (Map Server)) events).lookups c srv :=
  ((ViewInv.init order hlocal).run hquiet).view srv

/-- A client looks a service up and then its server registers. -/
theorem view_eq_registry_lookup :
    { service := 7, inst := 1, node := 1, port := 5 } ∈
        (Run.outputs nsStep (nsInit .little 1 : Ns (Map Server))
          [Event.ofWords { node := 1, port := 9 } [qrtrTypeNewLookup, 7, 0],
            Event.ofWords { node := 1, port := 5 } [qrtrTypeNewServer, 7, 1, 0, 0]]).flatten.foldl
          (observe { node := 1, port := 9 }) [] ↔
      (Run.final nsStep (nsInit .little 1 : Ns (Map Server))
          [Event.ofWords { node := 1, port := 9 } [qrtrTypeNewLookup, 7, 0],
            Event.ofWords { node := 1, port := 5 } [qrtrTypeNewServer, 7, 1, 0, 0]]).server 1 5 =
          some { service := 7, inst := 1, node := 1, port := 5 } ∧
        Watches (Run.final nsStep (nsInit .little 1 : Ns (Map Server))
          [Event.ofWords { node := 1, port := 9 } [qrtrTypeNewLookup, 7, 0],
            Event.ofWords { node := 1, port := 5 } [qrtrTypeNewServer, 7, 1, 0, 0]]).lookups
          { node := 1, port := 9 } { service := 7, inst := 1, node := 1, port := 5 } := by
  have hlookup : Quiet { node := 1, port := 9 } (nsInit .little 1 : Ns (Map Server))
      (Event.ofWords { node := 1, port := 9 } [qrtrTypeNewLookup, 7, 0]) := by
    have haction : (nsInit .little 1 : Ns (Map Server)).action
        (Event.ofWords { node := 1, port := 9 } [qrtrTypeNewLookup, 7, 0]) =
          .watch { service := 7, inst := 0, sq := { node := 1, port := 9 } } := by decide +kernel
    refine ⟨rfl, rfl, fun srv h => ?_, fun _ => ⟨fun service inst h => ?_, fun n p h => ?_⟩⟩
    all_goals
      rw [haction] at h
      cases h
  have hserver : Quiet { node := 1, port := 9 }
      (nsStep (nsInit .little 1 : Ns (Map Server))
        (Event.ofWords { node := 1, port := 9 } [qrtrTypeNewLookup, 7, 0])).1
      (Event.ofWords { node := 1, port := 5 } [qrtrTypeNewServer, 7, 1, 0, 0]) := by
    refine ⟨rfl, rfl, fun srv _ => ?_, fun h => absurd h (by decide)⟩
    have hdistinct := Ns.Distinct.init (T := Map Server) .little 1
    have hs := (Ns.Inv.init (T := Map Server) .little 1).toTablesOk
    rw [(nsStep_refines hs hdistinct (Ns.plain_of_absent hs fun _ _ => rfl) rfl).2.1]
    rfl
  exact view_eq_registry .little 1 { node := 1, port := 9 } rfl
    [Event.ofWords { node := 1, port := 9 } [qrtrTypeNewLookup, 7, 0],
      Event.ofWords { node := 1, port := 5 } [qrtrTypeNewServer, 7, 1, 0, 0]]
    ⟨hlookup, hserver, trivial⟩ { service := 7, inst := 1, node := 1, port := 5 }

/-! ### Registering over a registered port -/

/-- A NEW_SERVER that is accepted for a port at which another service or instance is registered. -/
structure Replaces (s : Ns (Map Server)) (e : Event) (old new : Server) : Prop where
  registered : s.server old.node old.port = some old
  asked : s.action e = .register new
  accepted : (ctrlPortFn (s.exec e) e.sq e.datagram e.stale).1 ≠ -22
  place : new.node = old.node ∧ new.port = old.port
  different : (new.service, new.inst) ≠ (old.service, old.inst)

/-- Every lookup that matches the old server is told that it is gone. -/
def AnnouncesOld (s : Ns (Map Server)) (e : Event) (old : Server) : Prop :=
  ∀ l ∈ s.lookups, l.observes old.service old.inst = true → Told (nsStep s e).2 l.sq old false

/-- A registration tells nobody that a server is gone. -/
theorem Happens.not_told_del {s : Ns (Map Server)} {e : Event} {srv : Server}
    {services : UInt32 → Map Server} {lookups : List Lookup} {msgs : List Msg} {rc : Int}
    (h : Happens s e (.register srv) services lookups msgs rc) (c : Sockaddr) (x : Server) :
    ¬ Told msgs c x false := by
  cases h with
  | nothing why => exact not_told_nil
  | register hplan hput hrc => simp [told_newMsgs]

/-- The observers of a replaced server are told that it is gone exactly if there are none. -/
theorem announcesOld_iff {s : Ns (Map Server)} (hs : s.Reachable) {e : Event} {old new : Server}
    (h : Replaces s e old new) :
    AnnouncesOld s e old ↔ ∀ l ∈ s.lookups, l.observes old.service old.inst = false := by
  obtain ⟨⟨rc, hhappens⟩, -⟩ := nsStep_happens hs.inv.nodesOk hs.inv.ok e
  rw [h.asked] at hhappens
  constructor
  · intro hall l hl
    by_contra hobs
    exact hhappens.not_told_del l.sq old (hall l hl (Bool.not_eq_false _ ▸ hobs))
  · intro hnone l hl hobs
    rw [hnone l hl] at hobs
    cases hobs

/-- The server of port 6 registers another service while the only lookup is for service 7. -/
theorem announcesOld_iff_unobserved :
    AnnouncesOld sampleNs (Event.ofWords { node := 1, port := 6 } [qrtrTypeNewServer, 9, 1, 0, 0])
        { service := 8, inst := 1, node := 1, port := 6 } ↔
      ∀ l ∈ sampleNs.lookups, l.observes 8 1 = false :=
  announcesOld_iff sampleNs_reachable
    (show Replaces _ _ _ { service := 9, inst := 1, node := 1, port := 6 } from
      { registered := by decide +kernel
        asked := by decide +kernel
        accepted := by decide +kernel
        place := ⟨rfl, rfl⟩
        different := by decide })

/-- A client that looks for service 7 is not told that its server has registered service 8. -/
theorem not_announcesOld :
    ¬ ∀ s : Ns (Map Server), s.Reachable → ∀ e old new, Replaces s e old new → AnnouncesOld s e old := by
  intro h
  have htold := h _ ⟨.little, 1,
      [Event.ofWords { node := 1, port := 9 } [qrtrTypeNewLookup, 7, 0],
        Event.ofWords { node := 1, port := 5 } [qrtrTypeNewServer, 7, 1, 0, 0]], rfl⟩
    (Event.ofWords { node := 1, port := 5 } [qrtrTypeNewServer, 8, 1, 0, 0])
    { service := 7, inst := 1, node := 1, port := 5 } { service := 8, inst := 1, node := 1, port := 5 }
    { registered := by decide +kernel
      asked := by decide +kernel
      accepted := by decide +kernel
      place := ⟨rfl, rfl⟩
      different := by decide }
    { service := 7, inst := 0, sq := { node := 1, port := 9 } } (by decide +kernel) rfl
  obtain ⟨m, hm, -, hcall⟩ := htold
  have hnew : ∀ m' ∈ (nsStep (Run.final nsStep (nsInit .little 1 : Ns (Map Server))
        [Event.ofWords { node := 1, port := 9 } [qrtrTypeNewLookup, 7, 0],
          Event.ofWords { node := 1, port := 5 } [qrtrTypeNewServer, 7, 1, 0, 0]])
      (Event.ofWords { node := 1, port := 5 } [qrtrTypeNewServer, 8, 1, 0, 0])).2,
      m'.call ≠ .lookupNotify (some { service := 7, inst := 1, node := 1, port := 5 }) false := by
    decide +kernel
  exact hnew m hm hcall

end Qrtr
