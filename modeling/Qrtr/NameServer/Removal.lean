/-
Module: Qrtr.NameServer.Removal
Layer: NameServer
Purpose: A server that was removed stays away until it registers again. Only registered servers and the
  one that registers are named in replies, announcements and notifications, and only a registration
  brings a server into the registry; so the removed one is not named along any run in which each
  registration finds the record that it replaces. Where it does not, a second record of the port
  survives the removal.
Imports: Qrtr.NameServer.Effects
Main exports: Msg.Names, StaysAway, Orderly, staysAway_of_orderly
Open obligations: none
-/
import Qrtr.NameServer.Effects

namespace Qrtr

open MapOps LawfulMap

/-! ### Which servers a step names -/

/-- The datagram says that there is a server at the port. -/
def Msg.Names (m : Msg) (n p : UInt32) : Prop :=
  ∃ srv : Server, srv.node = n ∧ srv.port = p ∧
    (m.call = .announceNew srv ∨ m.call = .lookupNotify (some srv) true)

/-- The action registers a server at the port. -/
def Action.Registers (a : Action) (n p : UInt32) : Prop :=
  ∃ srv : Server, a = .register srv ∧ srv.node = n ∧ srv.port = p

/-- The action takes the server of the port out and is about no other. -/
def Action.Deletes (a : Action) (n p : UInt32) : Prop := a = .unregister n p ∨ a = .closePort n p

/-- A port without a server is still without one after an action that does not register it. -/
theorem Action.servers_eq_none {a : Action} {f : Registry} {n p : UInt32} (hnone : f n p = none)
    (hreg : ¬ a.Registers n p) : a.servers f n p = none := by
  cases a with
  | register srv =>
      have hother : ¬ (n = srv.node ∧ p = srv.port) := by
        rintro ⟨rfl, rfl⟩
        exact hreg ⟨srv, rfl, rfl, rfl⟩
      rw [servers, if_neg hother, hnone]
  | bye node =>
      rw [servers, hnone]
      exact ite_self _
  | closePort node port =>
      rw [servers, hnone]
      exact ite_self _
  | unregister node port =>
      rw [servers, hnone]
      exact ite_self _
  | _ => exact hnone

section

variable {T : Type} [MapOps T Server] [LawfulMap T Server] {s : Ns T} {e : Event}

/-- A server that is named is registered or registers. -/
theorem Sends.names {a : Action} {services : UInt32 → T} {m : Msg} (h : Sends s e a services m)
    (hs : s.TablesOk) (hd : s.Distinct) {n p : UInt32} (hnames : m.Names n p) :
    s.server n p ≠ none ∨ a.Registers n p := by
  obtain ⟨srv, rfl, rfl, hcall⟩ := hnames
  have hregistered : ∀ {node : UInt32} {srv : Server}, srv ∈ forEach (s.services node) →
      s.server srv.node srv.port ≠ none := by
    intro node srv hsrv hnone
    have hserver := (mem_forEach_server hs hd).1 hsrv
    obtain ⟨hnode, -⟩ := hs.server_node_port hserver
    rw [hnode, hserver] at hnone
    cases hnone
  cases h with
  | announced ha hsrv =>
      rcases hcall with hcall | hcall
      · cases hcall
        exact Or.inl (hregistered hsrv)
      · cases hcall
  | added ha hlocal =>
      rcases hcall with hcall | hcall
      · cases hcall
        exact Or.inr ⟨srv, ha, rfl, rfl⟩
      · cases hcall
  | notifyNew ha hl hobs =>
      rcases hcall with hcall | hcall
      · cases hcall
      · cases hcall
        exact Or.inr ⟨srv, ha, rfl, rfl⟩
  | reply ha hsrv hobs =>
      rcases hcall with hcall | hcall
      · cases hcall
      · cases hcall
        exact Or.inl (hregistered hsrv)
  | _ => rcases hcall with hcall | hcall <;> cases hcall

end

/-! ### Runs -/

/-- Memory suffices, and a registration finds the record that it replaces, if there is one. -/
structure Orderly (s : Ns (Map Server)) (e : Event) : Prop where
  allocs : e.allocs = []
  plain : s.Plain (s.action e)

/-- A run of the name server in which no server comes back by itself: after a DEL_SERVER or DEL_CLIENT
    for a registered server is accepted, nothing names the server until it registers again. -/
def StaysAway (order : HostOrder) (localNode : UInt32) (events : List Event) : Prop :=
  ∀ before e after n p, events = before ++ e :: after →
    (Run.final nsStep (nsInit order localNode : Ns (Map Server)) before).server n p ≠ none →
    ((Run.final nsStep (nsInit order localNode : Ns (Map Server)) before).action e).Deletes n p →
    ∀ later rest, after = later ++ rest →
      Run.Guarded (fun s e => ¬ (s.action e).Registers n p) nsStep
        (Run.final nsStep (nsInit order localNode : Ns (Map Server)) (before ++ [e])) later →
      ∀ msgs ∈ Run.outputs nsStep
          (Run.final nsStep (nsInit order localNode : Ns (Map Server)) (before ++ [e])) later,
        ∀ m ∈ msgs, ¬ m.Names n p

/-- The tables are in order and no port is registered twice. -/
structure Ns.Sound (s : Ns (Map Server)) : Prop extends s.TablesOk where
  distinct : s.Distinct

theorem Ns.Sound.init (order : HostOrder) (localNode : UInt32) : (nsInit order localNode).Sound where
  toTablesOk := (Ns.Inv.init order localNode).toTablesOk
  distinct := .init order localNode

theorem Ns.Sound.step {s : Ns (Map Server)} (h : s.Sound) {e : Event} (ho : Orderly s e) :
    (nsStep s e).1.Sound where
  toTablesOk := h.toTablesOk.step e
  distinct := (nsStep_refines h.toTablesOk h.distinct ho.plain ho.allocs).1

/-- An orderly step names no server that is not registered, and leaves its port without one. -/
theorem Ns.Sound.step_away {s : Ns (Map Server)} (h : s.Sound) {e : Event} (ho : Orderly s e)
    {n p : UInt32} (hnone : s.server n p = none) (hreg : ¬ (s.action e).Registers n p) :
    (∀ m ∈ (nsStep s e).2, ¬ m.Names n p) ∧ (nsStep s e).1.server n p = none := by
  obtain ⟨⟨rc, hhappens⟩, -⟩ := nsStep_happens h.nodesOk h.ok e
  obtain ⟨-, hserver, -⟩ := nsStep_refines h.toTablesOk h.distinct ho.plain ho.allocs
  refine ⟨fun m hm hnames => ?_, ?_⟩
  · rcases (hhappens.sends h.ok hm).names h.toTablesOk h.distinct hnames with hsome | hregs
    · exact hsome hnone
    · exact hreg hregs
  · rw [hserver]
    exact Action.servers_eq_none hnone hreg

/-- Along an orderly run an unregistered server is not named before it registers. -/
theorem Ns.Sound.run_away {n p : UInt32} :
    ∀ {later : List Event} {s : Ns (Map Server)}, s.Sound → s.server n p = none →
      Run.Guarded Orderly nsStep s later →
      Run.Guarded (fun s e => ¬ (s.action e).Registers n p) nsStep s later →
        ∀ msgs ∈ Run.outputs nsStep s later, ∀ m ∈ msgs, ¬ m.Names n p
  | [], _, _, _, _, _ => fun _ h => nomatch h
  | e :: later, s, h, hnone, ⟨ho, horderly⟩, ⟨hreg, hunregistered⟩ => by
      obtain ⟨hnow, hgone⟩ := h.step_away ho hnone hreg
      intro msgs hmsgs
      rcases List.mem_cons.1 hmsgs with rfl | hlater
      · exact hnow
      · exact run_away (h.step ho) hgone horderly hunregistered msgs hlater

/-- In an orderly run a removed server stays away until it registers again. -/
theorem staysAway_of_orderly (order : HostOrder) (localNode : UInt32) (events : List Event)
    (horderly : Run.Guarded Orderly nsStep (nsInit order localNode) events) :
    StaysAway order localNode events := by
  rintro before e after n p rfl - hdeletes later rest rfl hreg
  obtain ⟨hbefore, ho, hafter⟩ := Run.Guarded.append.1 horderly
  obtain ⟨hlater, -⟩ := Run.Guarded.append.1 hafter
  have hsound : (Run.final nsStep (nsInit order localNode : Ns (Map Server)) before).Sound :=
    Run.Guarded.invariant (fun _ _ h ho => h.step ho) (Ns.Sound.init order localNode) hbefore
  obtain ⟨-, hserver, -⟩ := nsStep_refines hsound.toTablesOk hsound.distinct ho.plain ho.allocs
  have hnone : (nsStep (Run.final nsStep (nsInit order localNode : Ns (Map Server)) before) e).1.server
      n p = none := by
    rw [hserver]
    rcases hdeletes with hdel | hdel
    · rw [hdel, Action.servers, if_pos ⟨rfl, rfl⟩]
    · rw [hdel, Action.servers, if_pos ⟨rfl, rfl⟩]
  rw [Run.final_append] at hreg ⊢
  exact (hsound.step ho).run_away hnone hlater hreg

/-- A server registers and unregisters, and a client looks. -/
theorem staysAway_of_orderly_unregister :
    StaysAway .little 1
      [Event.ofWords { node := 1, port := 5 } [qrtrTypeNewServer, 7, 1, 0, 0],
        Event.ofWords { node := 1, port := 5 } [qrtrTypeDelServer],
        Event.ofWords { node := 1, port := 9 } [qrtrTypeNewLookup, 7, 0]] := by
  have hplain : ∀ (s : Ns (Map Server)) e, (∀ srv, s.action e ≠ .register srv) → s.Plain (s.action e) :=
    fun s e hne srv h => absurd h (hne srv)
  have hs := (Ns.Inv.init (T := Map Server) .little 1).toTablesOk
  refine staysAway_of_orderly .little 1 _
    ⟨⟨rfl, Ns.plain_of_absent hs fun _ _ => rfl⟩, ⟨rfl, ?_⟩, ⟨rfl, ?_⟩, trivial⟩
  · have haction : ((nsStep (nsInit .little 1 : Ns (Map Server))
        (Event.ofWords { node := 1, port := 5 } [qrtrTypeNewServer, 7, 1, 0, 0])).1.action
          (Event.ofWords { node := 1, port := 5 } [qrtrTypeDelServer])) = .unregister 1 5 := by
      decide +kernel
    exact hplain _ _ fun srv h => nomatch haction.symm.trans h
  · have haction : ((nsStep
        (nsStep (nsInit .little 1 : Ns (Map Server))
          (Event.ofWords { node := 1, port := 5 } [qrtrTypeNewServer, 7, 1, 0, 0])).1
        (Event.ofWords { node := 1, port := 5 } [qrtrTypeDelServer])).1.action
          (Event.ofWords { node := 1, port := 9 } [qrtrTypeNewLookup, 7, 0])) =
        .watch { service := 7, inst := 0, sq := { node := 1, port := 9 } } := by
      decide +kernel
    exact hplain _ _ fun srv h => nomatch haction.symm.trans h

/-- Ports 1 and 257 share their home in a table of 256 slots. Port 1 leaves a tombstone ahead of the record
    of port 257, which registers again into it and unregisters; its first record is still there. -/
theorem not_staysAway :
    ¬ ∀ order localNode events,
      Run.Guarded (fun _ e => e.allocs = []) nsStep (nsInit order localNode : Ns (Map Server)) events →
        StaysAway order localNode events := by
  intro h
  have hstays := h .little 1
    [Event.ofWords { node := 1, port := 1 } [qrtrTypeNewServer, 7, 1, 0, 0],
      Event.ofWords { node := 1, port := 257 } [qrtrTypeNewServer, 7, 1, 0, 0],
      Event.ofWords { node := 1, port := 1 } [qrtrTypeDelServer],
      Event.ofWords { node := 1, port := 257 } [qrtrTypeNewServer, 7, 1, 0, 0],
      Event.ofWords { node := 1, port := 257 } [qrtrTypeDelServer],
      Event.ofWords { node := 1, port := 9 } [qrtrTypeNewLookup, 7, 0]]
    ⟨rfl, rfl, rfl, rfl, rfl, rfl, trivial⟩
    [Event.ofWords { node := 1, port := 1 } [qrtrTypeNewServer, 7, 1, 0, 0],
      Event.ofWords { node := 1, port := 257 } [qrtrTypeNewServer, 7, 1, 0, 0],
      Event.ofWords { node := 1, port := 1 } [qrtrTypeDelServer],
      Event.ofWords { node := 1, port := 257 } [qrtrTypeNewServer, 7, 1, 0, 0]]
    (Event.ofWords { node := 1, port := 257 } [qrtrTypeDelServer])
    [Event.ofWords { node := 1, port := 9 } [qrtrTypeNewLookup, 7, 0]] 1 257 rfl (by decide +kernel)
    (Or.inl (by decide +kernel))
    [Event.ofWords { node := 1, port := 9 } [qrtrTypeNewLookup, 7, 0]] [] rfl
  have haction : (Run.final nsStep (nsInit .little 1 : Ns (Map Server))
      [Event.ofWords { node := 1, port := 1 } [qrtrTypeNewServer, 7, 1, 0, 0],
        Event.ofWords { node := 1, port := 257 } [qrtrTypeNewServer, 7, 1, 0, 0],
        Event.ofWords { node := 1, port := 1 } [qrtrTypeDelServer],
        Event.ofWords { node := 1, port := 257 } [qrtrTypeNewServer, 7, 1, 0, 0],
        Event.ofWords { node := 1, port := 257 } [qrtrTypeDelServer]]).action
        (Event.ofWords { node := 1, port := 9 } [qrtrTypeNewLookup, 7, 0]) =
      .watch { service := 7, inst := 0, sq := { node := 1, port := 9 } } := by
    decide +kernel
  have hreply : notifyMsg .little { node := 1, port := 9 }
        (some { service := 7, inst := 1, node := 1, port := 257 }) true ∈
      (nsStep (Run.final nsStep (nsInit .little 1 : Ns (Map Server))
        [Event.ofWords { node := 1, port := 1 } [qrtrTypeNewServer, 7, 1, 0, 0],
          Event.ofWords { node := 1, port := 257 } [qrtrTypeNewServer, 7, 1, 0, 0],
          Event.ofWords { node := 1, port := 1 } [qrtrTypeDelServer],
          Event.ofWords { node := 1, port := 257 } [qrtrTypeNewServer, 7, 1, 0, 0],
          Event.ofWords { node := 1, port := 257 } [qrtrTypeDelServer]])
        (Event.ofWords { node := 1, port := 9 } [qrtrTypeNewLookup, 7, 0])).2 := by
    decide +kernel
  refine hstays ⟨?_, trivial⟩ _ (List.mem_singleton.2 rfl) _ hreply ⟨_, rfl, rfl, Or.inr rfl⟩
  rintro ⟨srv, hregister, -⟩
  exact nomatch haction.symm.trans hregister

end Qrtr
