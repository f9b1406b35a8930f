/-
Module: Qrtr.NameServer.Convergence
Layer: NameServer
Purpose: When the clients of a mesh keep quiet and what is in flight keeps arriving, every name server comes
  to hold exactly what every node has, and does so from then on, although the HELLOs never stop. A HELLO of a
  name server that is not informed is in flight; once it has arrived the name server is, and then only the
  datagrams already in flight separate it from the node.
Imports: NameServer.Mesh, Foundation.Fairness
Main exports: Mesh.Delivers, Mesh.Quiet, Meshed.asked, mesh_converges
Open obligations: none
-/
import Qrtr.NameServer.Mesh
import Qrtr.Foundation.Fairness

namespace Qrtr

open MapOps LawfulMap Replica Fairness

section

variable {I T : Type} [DecidableEq I] [MapOps T Server] [LawfulMap T Server]

/-- The next datagram in flight to `i` from `k` is delivered and handled, with nothing failing. -/
inductive Mesh.Delivers (i k : I) (m : Mesh I T) : Mesh I T → Prop where
  | mk {e : Event} {rest : List (List UInt8)} (apart : k ≠ i) (smooth : e.Smooth)
      (plain : (m.server i).Plain ((m.server i).action e)) (running : (m.server i).sockOpen = true)
      (flight : m.inbox i k = e.datagram :: rest) (sender : e.sq = (m.server k).ctrlSq) :
      Mesh.Delivers i k m ((m.setInbox i k rest).handle i e)

/-- A datagram can be delivered to `i` from `k`. -/
def Mesh.Waiting (i k : I) (m : Mesh I T) : Prop := m.inbox i k ≠ [] ∧ (m.server i).sockOpen = true

/-- An execution in which clients keep quiet: every step is a delivery or none, and what waits is delivered
    some time. -/
structure Mesh.Quiet (run : Nat → Mesh I T) : Prop where
  step : ∀ n, run (n + 1) = run n ∨ ∃ i k, (run n).Delivers i k (run (n + 1))
  fair : ∀ i k, k ≠ i → Fair (Mesh.Waiting i k) (Mesh.Delivers i k) run

omit [LawfulMap T Server] in
/-- Handling a datagram takes nothing out of flight. -/
theorem Mesh.inbox_prefix_handle (m : Mesh I T) (i : I) (e : Event) (a b : I) :
    m.inbox a b <+: (m.handle i e).inbox a b := by
  by_cases hlink : b = i ∧ a ≠ i
  · obtain ⟨rfl, hne⟩ := hlink
    rw [m.inbox_handle hne]
    exact List.prefix_append ..
  · have hsame : (m.handle i e).inbox a b = m.inbox a b := if_neg hlink
    rw [hsame]

/-- A name server that is not informed of a node has a HELLO in flight to it. -/
theorem Meshed.asked {informed : I → I → Prop} {m : Mesh I T} (h : Meshed informed m) (a b : I) :
    informed a b ∨ ∃ p ∈ m.inbox a b, IsHello p := by
  induction h with
  | start servers apart unicast hellos => exact Or.inl trivial
  | @client informed m i e _ smooth plain own client ih =>
      exact ih.imp_right fun ⟨p, hp, hhello⟩ => ⟨p, (m.inbox_prefix_handle i e a b).subset hp, hhello⟩
  | @deliver informed m i k e rest _ apart smooth plain running flight sender ih =>
      rcases ih with hinformed | ⟨p, hp, hhello⟩
      · exact Or.inl (Or.inl hinformed)
      · have hkept := ((m.setInbox i k rest).inbox_prefix_handle i e a b).subset
        by_cases hlink : a = i ∧ b = k
        · obtain ⟨rfl, rfl⟩ := hlink
          rw [m.inbox_setInbox] at hkept
          rw [flight] at hp
          rcases List.mem_cons.1 hp with rfl | hrest
          · exact Or.inl (Or.inr ⟨rfl, rfl, hhello⟩)
          · exact Or.inr ⟨p, hkept hrest, hhello⟩
        · rw [m.inbox_setInbox_of_ne hlink] at hkept
          exact Or.inr ⟨p, hkept hp, hhello⟩
  | @restart informed m i kept late bye _ sent rest byes ih =>
      by_cases ha : a = i
      · exact Or.inl (Or.inl ha)
      · by_cases hb : b = i
        · refine Or.inr ⟨helloPkt (m.server i).order, ?_, isHello_helloPkt _⟩
          have hinbox : (m.restart i (fun j => kept j ++ [bye j, helloPkt (m.server i).order]) late).inbox
              a b = kept a ++ [bye a, helloPkt (m.server i).order] := if_pos hb
          rw [hinbox]
          simp
        · have hinbox : (m.restart i (fun j => kept j ++ [bye j, helloPkt (m.server i).order]) late).inbox
              a b = m.inbox a b := (if_neg hb).trans (if_neg ha)
          rw [hinbox]
          exact ih.imp_left fun hinformed => Or.inr ⟨hb, hinformed⟩

/-- The name server `b` will hold exactly what the node of `a` has. -/
def Mesh.Informs (m : Mesh I T) (a b : I) : Prop :=
  Tracks (m.node a) True (m.inbox b a) (m.view b a) (m.own a)

variable {m m' : Mesh I T}

omit [DecidableEq I] in
theorem Mesh.Following.informs {informed : I → I → Prop} (h : m.Following informed) :
    m.Following m.Informs := by
  refine ⟨h.toInv, fun a b hab => ?_⟩
  by_cases hinforms : m.Informs a b
  · exact hinforms.imp fun _ => trivial
  · exact (h.follows a b hab).imp fun hwhole => absurd hwhole hinforms

/-! ### Until a name server is informed -/

/-- A name server is informed of a node, or a HELLO of it is the `r`-th datagram in flight to that. -/
def Mesh.Asks (a b : I) : Nat → Mesh I T → Prop
  | 0, m => m.Informs a b
  | r + 1, m => ∃ before p after, m.inbox a b = before ++ p :: after ∧ IsHello p ∧ before.length = r

/-- What a delivery does to what is in flight: the first datagram of one link is gone. -/
theorem Mesh.Delivers.inbox {i k : I} (h : m.Delivers i k m') (a b : I) :
    (if a = i ∧ b = k then (m.inbox a b).tail else m.inbox a b) <+: m'.inbox a b := by
  cases h with
  | @mk e rest apart smooth plain running flight sender =>
      have hkept := (m.setInbox i k rest).inbox_prefix_handle i e a b
      by_cases hlink : a = i ∧ b = k
      · obtain ⟨rfl, rfl⟩ := hlink
        rw [m.inbox_setInbox] at hkept
        rw [if_pos ⟨rfl, rfl⟩, flight]
        exact hkept
      · rw [m.inbox_setInbox_of_ne hlink] at hkept
        rw [if_neg hlink]
        exact hkept

theorem Mesh.Following.delivers {informed : I → I → Prop} {i k : I} (h : m.Following informed)
    (hd : m.Delivers i k m') : m'.Following m'.Informs ∧ ∀ a b, a ≠ b → informed a b → m'.Informs a b := by
  cases hd with
  | @mk e rest apart smooth plain running flight sender =>
      have hnext := h.deliver apart (h.admits apart smooth plain sender) running flight sender
      exact ⟨hnext.informs, fun a b hab hinformed => (hnext.follows a b hab).imp fun _ => Or.inl hinformed⟩

/-- The HELLO comes closer with every delivery on its link. -/
theorem Mesh.Following.asks {i k a b : I} (h : m.Following m.Informs) (hd : m.Delivers i k m') (hab : a ≠ b)
    {r : Nat} (hasks : Mesh.Asks a b r m) :
    ∃ r', r' ≤ (if a = i ∧ b = k then r - 1 else r) ∧ Mesh.Asks a b r' m' := by
  cases r with
  | zero => exact ⟨0, by simp, (h.delivers hd).2 a b hab hasks⟩
  | succ r =>
      obtain ⟨before, p, after, hinbox, hhello, hlen⟩ := hasks
      obtain ⟨more, hmore⟩ := hd.inbox a b
      by_cases hlink : a = i ∧ b = k
      · rw [if_pos hlink] at hmore ⊢
        cases before with
        | nil =>
            refine ⟨0, by omega, ?_⟩
            obtain ⟨rfl, rfl⟩ := hlink
            cases hd with
            | @mk e rest apart smooth plain running flight sender =>
                have hp : e.datagram = p := (List.cons.inj (flight.symm.trans hinbox)).1
                have hnext := h.deliver apart (h.admits apart smooth plain sender) running flight sender
                exact (hnext.follows a b hab).imp fun _ => Or.inr ⟨rfl, rfl, hp ▸ hhello⟩
        | cons q before =>
            rw [hinbox] at hmore
            refine ⟨r, by omega, ?_⟩
            subst hlen
            refine ⟨before, p, after ++ more, ?_, hhello, rfl⟩
            rw [← hmore]
            simp
      · rw [if_neg hlink] at hmore ⊢
        refine ⟨r + 1, le_refl _, before, p, after ++ more, ?_, hhello, hlen⟩
        rw [← hmore, hinbox]
        simp

/-! ### Until it knows all -/

/-- The first `r` datagrams in flight to `b` from `a` take what `b` holds to what the node of `a` has, and the
    others change nothing. -/
def Mesh.Settled (a b : I) (r : Nat) (m : Mesh I T) : Prop :=
  ∃ actions, List.Forall₂ (StandsFor (m.node a)) (m.inbox b a) actions ∧
    Settles (Action.roster (m.node a)) r actions (m.view b a) (m.own a)

omit [DecidableEq I] [LawfulMap T Server] in
theorem Mesh.Informs.settled {a b : I} (h : m.Informs a b) :
    Mesh.Settled a b (m.inbox b a).length m := by
  obtain ⟨actions, hstands, hbehind⟩ := h
  refine ⟨actions, hstands, ?_⟩
  rw [hstands.length_eq]
  exact hbehind.settles trivial

omit [DecidableEq I] in
/-- What a datagram of another name server makes one tell changes no copy that is right. -/
theorem Mesh.Inv.carried_fixed (h : m.Inv) {i j k : I} {e : Event} (he : m.Admits i e) (hne : k ≠ i)
    (running : (m.server i).sockOpen = true) (sender : e.sq = (m.server k).ctrlSq) :
    ∃ actions, List.Forall₂ (StandsFor (m.node i)) (carried (m.server i) e (m.node j)) actions ∧
      ∀ a ∈ actions, a.roster (m.node i) (m.own i) = m.own i := by
  have hs := (h.inv i).toTablesOk
  by_cases hboth : j = k ∧ IsHello e.datagram
  · obtain ⟨rfl, hhello⟩ := hboth
    have htold : ∀ srv ∈ forEach ((m.server i).services (m.server i).localNode),
        srv.node = m.node i ∧ m.own i srv.port = some srv ∧ srv.service ≠ 0 ∧ srv.port ≠ 0 := by
      intro srv hsrv
      obtain ⟨k, hentry⟩ := mem_forEach.1 hsrv
      exact ⟨(hs.keyed hentry).1, (mem_forEach_server hs (h.distinct i)).1 hsrv, (h.inv i).nonzero hentry⟩
    have hsq : e.sq = { node := m.node j, port := qrtrPortCtrl } := sender
    rw [carried_hello hs he.smooth running hhello hsq]
    refine ⟨.hello :: (forEach ((m.server i).services (m.server i).localNode)).map .register,
      .cons (hhello.take.standsFor _) (forall₂_map fun srv hsrv => ?_), fun a ha => ?_⟩
    · obtain ⟨hnode, -, hservice, hport⟩ := htold srv hsrv
      rw [← hnode]
      exact standsFor_new _ hservice hport
    · rcases List.mem_cons.1 ha with rfl | hregister
      · rfl
      · obtain ⟨srv, hsrv, rfl⟩ := List.mem_map.1 hregister
        obtain ⟨hnode, hown, -, -⟩ := htold srv hsrv
        funext q
        rw [Action.roster, register_servers hnode]
        by_cases hq : q = srv.port
        · rw [if_pos hq, hq, hown]
        · exact if_neg hq
  · rw [h.carried_eq_nil he hne sender hboth]
    exact ⟨[], .nil, fun a ha => absurd ha List.not_mem_nil⟩

/-- Deliveries leave the nodes and their servers alone. -/
theorem Mesh.Inv.own_delivers (h : m.Inv) {i k : I} (hd : m.Delivers i k m') :
    m'.node = m.node ∧ m'.own = m.own := by
  cases hd with
  | @mk e rest apart smooth plain running flight sender =>
      have hset := h.setInbox i k rest
      have he : (m.setInbox i k rest).Admits i e := hset.admits apart smooth plain sender
      refine ⟨hset.node_handle i e, funext fun a => ?_⟩
      by_cases ha : a = i
      · subst ha
        refine hset.view_handle_other he ?_
        rw [sender]
        exact fun heq => apart (h.apart heq).symm
      · exact hset.view_handle_of_ne ha e a

/-- Each delivery on the link settles one datagram more, and no delivery unsettles any. -/
theorem Mesh.Inv.settled (h : m.Inv) {i k a b : I} (hd : m.Delivers i k m') (hab : a ≠ b) {r : Nat}
    (hsettled : Mesh.Settled a b r m) :
    ∃ r', r' ≤ (if b = i ∧ a = k then r - 1 else r) ∧ Mesh.Settled a b r' m' := by
  obtain ⟨hnode, hown⟩ := h.own_delivers hd
  obtain ⟨actions, hstands, hsettles⟩ := hsettled
  simp only [Mesh.Settled, hnode, hown]
  cases hd with
  | @mk e rest apart smooth plain running flight sender =>
      have hset := h.setInbox i k rest
      have he : (m.setInbox i k rest).Admits i e := hset.admits apart smooth plain sender
      by_cases hlink : b = i ∧ a = k
      · rw [if_pos hlink]
        obtain ⟨rfl, rfl⟩ := hlink
        rw [flight] at hstands
        cases hstands with
        | @cons _ action _ actions hfirst hrest =>
            have haction : ((m.setInbox b a rest).server b).action e = action := by
              have hopen : ((m.setInbox b a rest).server b).sockOpen = true := running
              rw [Ns.action, if_pos hopen]
              exact (hfirst e _ rfl sender fun heq => apart (h.apart heq)).1
            refine ⟨r - 1, le_refl _, actions, ?_, ?_⟩
            · rw [Mesh.inbox_handle_of_ne _ apart, m.inbox_setInbox]
              exact hrest
            · rw [hset.view_handle, hset.server_step he, haction]
              exact hsettles.pop
      · rw [if_neg hlink]
        have hview : ((m.setInbox i k rest).handle i e).view b a = m.view b a := by
          by_cases hb : b = i
          · subst hb
            refine hset.view_handle_other he ?_
            rw [sender]
            exact fun heq => hlink ⟨rfl, h.apart heq⟩
          · exact hset.view_handle_of_ne hb e a
        rw [hview]
        by_cases ha : a = i
        · subst ha
          obtain ⟨more, hmore, hfixed⟩ := hset.carried_fixed (j := b) he apart running sender
          refine ⟨r, le_refl _, actions ++ more, ?_, hsettles.push hfixed⟩
          rw [Mesh.inbox_handle _ hab.symm, m.inbox_setInbox_of_ne hlink]
          exact List.rel_append hstands hmore
        · refine ⟨r, le_refl _, actions, ?_, hsettles⟩
          rw [Mesh.inbox_handle_of_ne _ ha, m.inbox_setInbox_of_ne hlink]
          exact hstands

/-! ### Convergence -/

/-- Name servers whose sockets are open keep them open. -/
theorem Mesh.Following.running {i k : I} (h : m.Following m.Informs)
    (hopen : ∀ j, (m.server j).sockOpen = true) (hd : m.Delivers i k m') :
    ∀ j, (m'.server j).sockOpen = true := by
  cases hd with
  | @mk e rest apart smooth plain running flight sender =>
      have hfollows := h.follows k i apart
      rw [flight] at hfollows
      obtain ⟨a, hstands, -⟩ := hfollows.pop
      obtain ⟨-, hreceived⟩ := hstands e _ rfl sender fun heq => apart (h.apart heq)
      refine (Function.forall_update_iff m.server fun _ s => s.sockOpen = true).2
        ⟨?_, fun j _ => hopen j⟩
      exact ((nsStep_frame (h.inv i).nodesOk (h.inv i).ok e).2.2 hreceived).trans (hopen i)

variable {run : Nat → Mesh I T}

/-- What holds along a quiet execution. -/
theorem Mesh.Quiet.invariant (hquiet : Mesh.Quiet run) {informed : I → I → Prop}
    (h : Meshed informed (run 0)) (hopen : ∀ j, ((run 0).server j).sockOpen = true) (n : Nat) :
    (run n).Following (run n).Informs ∧ (∀ j, ((run n).server j).sockOpen = true) ∧
      (run n).own = (run 0).own := by
  induction n with
  | zero => exact ⟨h.following.informs, hopen, rfl⟩
  | succ n ih =>
      obtain ⟨hfollowing, hopen, hown⟩ := ih
      rcases hquiet.step n with hsame | ⟨i, k, hd⟩
      · rw [hsame]
        exact ⟨hfollowing, hopen, hown⟩
      · exact ⟨(hfollowing.delivers hd).1, hfollowing.running hopen hd,
          (hfollowing.own_delivers hd).2.trans hown⟩

/-- In the end every name server holds what every node has. -/
theorem Mesh.Quiet.eventually [Finite I] (hquiet : Mesh.Quiet run) {informed : I → I → Prop}
    (h : Meshed informed (run 0)) (hopen : ∀ j, ((run 0).server j).sockOpen = true) :
    ∀ᶠ n in Filter.atTop, ∀ i j, (run n).view j i = (run 0).own i := by
  have hinv := hquiet.invariant h hopen
  have hpair : ∀ a b, a ≠ b → ∀ᶠ n in Filter.atTop, (run n).view b a = (run 0).own a := by
    intro a b hab
    -- first the HELLO of `b` reaches `a`
    have hasked : ∃ r, Mesh.Asks a b r (run 0) := by
      rcases h.asked a b with hinformed | ⟨p, hp, hhello⟩
      · exact ⟨0, (h.following.follows a b hab).imp fun _ => hinformed⟩
      · obtain ⟨before, after, hinbox⟩ := List.append_of_mem hp
        exact ⟨before.length + 1, before, p, after, hinbox, hhello, rfl⟩
    obtain ⟨r, hr⟩ := hasked
    have hinformed : ∀ᶠ n in Filter.atTop, Mesh.Asks a b 0 (run n) := by
      refine (hquiet.fair a b hab.symm).eventually ?_ ?_ ?_ hr
      · intro n k hk
        rcases hquiet.step n with hsame | ⟨i, k', hd⟩
        · exact ⟨k, le_refl k, hsame ▸ hk⟩
        · obtain ⟨k'', hle, hk''⟩ := (hinv n).1.asks hd hab hk
          exact ⟨k'', hle.trans (by split <;> omega), hk''⟩
      · intro n k hk hd
        obtain ⟨k', hle, hk'⟩ := (hinv n).1.asks hd hab hk
        rw [if_pos ⟨rfl, rfl⟩] at hle
        exact ⟨k', hle, hk'⟩
      · rintro n k ⟨before, p, after, hinbox, -, -⟩
        refine ⟨?_, (hinv n).2.1 a⟩
        rw [hinbox]
        simp
    -- then the datagrams in flight to `b` at that time do
    obtain ⟨n₀, hn₀⟩ := Filter.eventually_atTop.1 hinformed
    have hinforms : (run n₀).Informs a b := hn₀ n₀ (le_refl n₀)
    have hsettled : ∀ᶠ n in Filter.atTop, Mesh.Settled a b 0 (run n) := by
      refine (hquiet.fair b a hab).eventually ?_ ?_ ?_ hinforms.settled
      · intro n k hk
        rcases hquiet.step n with hsame | ⟨i, k', hd⟩
        · exact ⟨k, le_refl k, hsame ▸ hk⟩
        · obtain ⟨k'', hle, hk''⟩ := (hinv n).1.settled hd hab hk
          exact ⟨k'', hle.trans (by split <;> omega), hk''⟩
      · intro n k hk hd
        obtain ⟨k', hle, hk'⟩ := (hinv n).1.settled hd hab hk
        rw [if_pos ⟨rfl, rfl⟩] at hle
        exact ⟨k', hle, hk'⟩
      · rintro n k ⟨actions, hstands, hsettles⟩
        refine ⟨fun hnil => ?_, (hinv n).2.1 b⟩
        rw [hnil] at hstands
        cases hstands
        exact hsettles.ne_nil rfl
    refine hsettled.mono ?_
    rintro n ⟨actions, -, hsettles⟩
    rw [hsettles.eq, (hinv n).2.2]
  refine Filter.eventually_all.2 fun i => Filter.eventually_all.2 fun j => ?_
  by_cases hij : i = j
  · subst hij
    exact Filter.Eventually.of_forall fun n => congrFun (hinv n).2.2 i
  · exact hpair i j hij

/-- With the clients quiet and everything in flight delivered some time, from some time on every name server
    holds what every node has. -/
theorem mesh_converges [Finite I] (hquiet : Mesh.Quiet run) {informed : I → I → Prop}
    (h : Meshed informed (run 0)) (hopen : ∀ j, ((run 0).server j).sockOpen = true) :
    ∃ N, ∀ n, N ≤ n → ∀ i j, (run n).view j i = (run 0).own i :=
  Filter.eventually_atTop.1 (hquiet.eventually h hopen)

end

/-- Two name servers with nothing in flight. -/
def twoResting : Mesh (Fin 2) (Map Server) where
  server i := nsInit .little (UInt32.ofNat (i.val + 1))
  inbox _ _ := []

/-- A client of the first registers a server. -/
def twoJoined : Mesh (Fin 2) (Map Server) :=
  twoResting.handle 0 (Event.ofWords { node := 1, port := 5 } [qrtrTypeNewServer, 7, 1, 1, 5])

/-- The announcement as it arrives at the second. -/
def twoAnnounced : Event := Event.ofWords { node := 1, port := qrtrPortCtrl } [qrtrTypeNewServer, 7, 1, 1, 5]

/-- The announcement is delivered, and nothing more happens. -/
def twoRun : Nat → Mesh (Fin 2) (Map Server)
  | 0 => twoJoined
  | _ + 1 => (twoJoined.setInbox 1 0 []).handle 1 twoAnnounced

theorem meshed_twoJoined : Meshed (fun _ _ => True) twoJoined := by
  have hapart : ∀ i j, twoResting.node i = twoResting.node j → i = j := by decide
  refine .client 0 (.start (fun i => ⟨_, _, rfl⟩) (fun i j => hapart i j) (by decide)
    fun i k p hp => absurd hp List.not_mem_nil) ⟨rfl, rfl⟩ ?_ rfl (by decide)
  exact Ns.plain_of_absent (Ns.Inv.init .little 1).toTablesOk fun srv _ => rfl

theorem sockOpen_twoJoined (j : Fin 2) : (twoJoined.server j).sockOpen = true := by
  revert j
  decide +kernel

theorem quiet_twoRun : Mesh.Quiet twoRun := by
  have hflight : twoJoined.inbox 1 0 = twoAnnounced.datagram :: [] := by decide +kernel
  have hserver : twoJoined.server 1 = nsInit .little 2 := Mesh.server_handle_of_ne _ (by decide) _
  have hdelivers : twoJoined.Delivers 1 0 ((twoJoined.setInbox 1 0 []).handle 1 twoAnnounced) := by
    refine .mk (by decide) ⟨rfl, rfl⟩ ?_ (sockOpen_twoJoined 1) hflight ?_
    · rw [hserver]
      exact Ns.plain_of_absent (Ns.Inv.init .little 2).toTablesOk fun srv _ => rfl
    · decide +kernel
  have hempty : ∀ n i k, (twoRun (n + 1)).inbox i k = [] := by
    intro n
    change ∀ i k, ((twoJoined.setInbox 1 0 []).handle 1 twoAnnounced).inbox i k = []
    decide +kernel
  refine ⟨fun n => ?_, fun i k _ n => ⟨n + 1, by omega, Or.inl fun hwaiting => hwaiting.1 (hempty n i k)⟩⟩
  cases n with
  | zero => exact Or.inr ⟨1, 0, hdelivers⟩
  | succ n => exact Or.inl rfl

/-- The second name server comes to know the server. -/
theorem mesh_converges_two :
    twoJoined.own 0 5 = some { service := 7, inst := 1, node := 1, port := 5 } ∧
      ∃ N, ∀ n, N ≤ n → ∀ i j, (twoRun n).view j i = twoJoined.own i :=
  ⟨by decide +kernel, mesh_converges quiet_twoRun meshed_twoJoined sockOpen_twoJoined⟩

end Qrtr
