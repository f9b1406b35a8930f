/-
Module: Qrtr.Client.Subscriber
Layer: Client
Purpose: What a client learns that looks for services. It receives the notifications of the name server into
  one buffer, decodes each with `qrtr_decode`, and keeps a list of what it has been told. At every time the
  list shows, of its own host, exactly the services that some client has published and not taken back, and
  that the client looks for: the packets, their way through the name server and the decoding do not show.
Imports: Qrtr.Client.Board, Qrtr.NameServer.Observer
Main exports: Notice, Listener, Listener.hear, hear_eq_observe, Publication.Matches, subscriber_view
Open obligations: none
-/
import Qrtr.Client.Board
import Qrtr.NameServer.Observer

namespace Qrtr

open MapOps LawfulMap

/-! ### Listening -/

/-- What a notification says about a service. -/
structure Notice where
  service : UInt32
  version : UInt32
  inst : UInt32
  node : UInt32
  port : UInt32
deriving DecidableEq

def DecodedPacket.notice (pkt : DecodedPacket) : Notice :=
  ⟨pkt.service, pkt.version, pkt.inst, pkt.node, pkt.port⟩

/-- What a notification about a server comes to. -/
def Server.notice (srv : Server) : Notice :=
  ⟨srv.service, srv.inst &&& 0xff, srv.inst >>> 8, srv.node, srv.port⟩

/-- A NEW_SERVER is noted down, unless it is the empty one that ends a reply; a DEL_SERVER is crossed out. -/
def DecodedPacket.note (pkt : DecodedPacket) (view : List Notice) : List Notice :=
  if pkt.type = 4 then if pkt.notice = ⟨0, 0, 0, 0, 0⟩ then view else pkt.notice :: view
  else if pkt.type = 5 then view.filter fun notice => notice ≠ pkt.notice
  else view

/-- A client that listens: the buffer it receives into, the packet it decodes into, and its notes. -/
structure Listener where
  buf : Mem
  pkt : DecodedPacket
  view : List Notice

/-- The socket receives a datagram of the name server, which the client decodes. -/
def Listener.hear (order : HostOrder) (c : Sockaddr) (l : Listener) (m : Msg) : Listener :=
  if m.dest = c then
    let buf := l.buf.write 0 m.payload
    let r := qrtrDecode order l.pkt buf m.payload.length { node := c.node, port := qrtrPortCtrl }
    { buf := buf, pkt := r.2, view := if r.1 = 0 then r.2.note l.view else l.view }
  else l

/-! ### What is heard -/

/-- Notices tell servers apart. -/
theorem Server.notice_injective {srv srv' : Server} (h : srv.notice = srv'.notice) : srv = srv' := by
  obtain ⟨service, inst, node, port⟩ := srv
  obtain ⟨service', inst', node', port'⟩ := srv'
  simp only [Server.notice, Notice.mk.injEq] at h
  obtain ⟨rfl, hversion, hinst, rfl, rfl⟩ := h
  have hword := instance_version inst
  rw [hversion, hinst, instance_version] at hword
  rw [UInt32.toNat_inj.1 hword]

section

variable {l : Listener} {c : Sockaddr}

/-- A datagram for somebody else. -/
theorem Listener.hear_ne (order : HostOrder) {m : Msg} (h : m.dest ≠ c) : l.hear order c m = l := if_neg h

/-- The first word of a datagram that has been received. -/
theorem ctrlWord_write (order : HostOrder) (buf : Mem) (w : UInt32) (rest : List UInt8) :
    ctrlWord order (buf.write 0 (le32 w ++ rest)) 0 = w := by
  have hword := (Mem.has_append.1 (buf.has_write 0 (le32 w ++ rest))).1
  rw [Mem.Has, length_le32] at hword
  rw [ctrlWord_eq, hword, ofLe32_le32]

/-- A decoded BYE or DEL_CLIENT is not noted down. -/
theorem note_qrtrDecode_other {order : HostOrder} {dest : DecodedPacket} {buf : Mem} {len : Nat} {sq : Sockaddr}
    (hsq : sq.port = qrtrPortCtrl)
    (hcmd : ctrlWord order buf 0 = qrtrTypeBye ∨ ctrlWord order buf 0 = qrtrTypeDelClient) (view : List Notice) :
    (if (qrtrDecode order dest buf len sq).1 = 0 then (qrtrDecode order dest buf len sq).2.note view else view) =
      view := by
  rw [qrtrDecode, if_pos hsq]
  by_cases hlen : len < 20
  · rw [if_pos hlen]
    rfl
  · rw [if_neg hlen]
    rcases hcmd with hcmd | hcmd <;> simp only [hcmd] <;> rfl

theorem Listener.hear_other (order : HostOrder) {m : Msg} {cmd : UInt32} {rest : List UInt8}
    (hpayload : m.payload = le32 cmd ++ rest) (hcmd : cmd = qrtrTypeBye ∨ cmd = qrtrTypeDelClient) :
    (l.hear order c m).view = l.view := by
  by_cases hdest : m.dest = c
  · have hword := ctrlWord_write order l.buf cmd rest
    rw [← hpayload] at hword
    rw [← hword] at hcmd
    simp only [Listener.hear, if_pos hdest]
    exact note_qrtrDecode_other rfl hcmd l.view
  · rw [Listener.hear_ne order hdest]

/-- A notification. -/
theorem Listener.hear_words (order : HostOrder) {m : Msg} (hdest : m.dest = c)
    {cmd : UInt32} (hcmd : cmd = qrtrTypeNewServer ∨ cmd = qrtrTypeDelServer) {srv : Server}
    (hpayload : m.payload = (cmd :: srv.words).flatMap le32) :
    (l.hear order c m).view =
      if cmd = qrtrTypeNewServer then if srv.notice = ⟨0, 0, 0, 0, 0⟩ then l.view else srv.notice :: l.view
      else l.view.filter fun notice => notice ≠ srv.notice := by
  have hlen : m.payload.length = 20 := by
    rw [hpayload]
    simp [Server.words]
  have hbytes : (l.buf.write 0 m.payload).bytes 0 20 =
      [cmd, srv.service, srv.inst, srv.node, srv.port].flatMap le32 := by
    rw [← hlen, Mem.bytes_write]
    exact hpayload
  have hdecode : qrtrDecode order l.pkt (l.buf.write 0 m.payload) 20 ⟨c.node, qrtrPortCtrl⟩ = _ :=
    qrtrDecode_eq rfl hcmd hbytes
  simp only [Listener.hear, if_pos hdest, hlen, hdecode]
  rcases hcmd with rfl | rfl <;> rfl

/-- The end of a reply. -/
theorem Listener.hear_end (order : HostOrder) {m : Msg}
    (hpayload : m.payload = [qrtrTypeNewServer, 0, 0, 0, 0].flatMap le32) :
    (l.hear order c m).view = l.view := by
  by_cases hdest : m.dest = c
  · have hwords : m.payload = (qrtrTypeNewServer :: Server.words ⟨0, 0, 0, 0⟩).flatMap le32 := hpayload
    rw [l.hear_words order hdest (Or.inl rfl) hwords]
    rfl
  · rw [Listener.hear_ne order hdest]

end

/-! ### Hearing what is sent -/

section

variable {s : Ns (Map Server)} {e : Event} {services : UInt32 → Map Server} {m : Msg} {c : Sockaddr}

omit s e services m in
/-- A notification about a server is heard as it is meant. -/
theorem hear_notify {srv : Server} (hservice : srv.service ≠ 0) (dest : Sockaddr) (new : Bool) {l : Listener}
    {view : List Server} (hview : l.view = view.map Server.notice) :
    (l.hear .little c (notifyMsg .little dest (some srv) new)).view =
      (observe c view (notifyMsg .little dest (some srv) new)).map Server.notice := by
  by_cases hdest : dest = c
  · subst hdest
    have hto : ∀ new, (notifyMsg .little dest (some srv) new).dest = dest := fun _ => rfl
    have hnonzero : srv.notice ≠ ⟨0, 0, 0, 0, 0⟩ := fun h => hservice (congrArg Notice.service h)
    cases new with
    | true =>
        have hobserve : observe dest view (notifyMsg .little dest (some srv) true) = srv :: view := if_pos rfl
        have hwords : (notifyMsg .little dest (some srv) true).payload =
            (qrtrTypeNewServer :: srv.words).flatMap le32 := notifyPkt_wire (some srv) true
        rw [l.hear_words .little (hto true) (Or.inl rfl) hwords, if_pos rfl, if_neg hnonzero, hview, hobserve,
          List.map_cons]
    | false =>
        have hobserve : observe dest view (notifyMsg .little dest (some srv) false) =
            view.filter fun srv' => srv' ≠ srv := if_pos rfl
        have hwords : (notifyMsg .little dest (some srv) false).payload =
            (qrtrTypeDelServer :: srv.words).flatMap le32 := notifyPkt_wire (some srv) false
        have hdel : qrtrTypeDelServer ≠ qrtrTypeNewServer := by decide
        rw [l.hear_words .little (hto false) (Or.inr rfl) hwords, if_neg hdel, hview, hobserve,
          List.filter_map]
        refine congrArg _ (List.filter_congr fun srv' _ => decide_eq_decide.2 (not_congr ?_))
        exact ⟨Server.notice_injective, congrArg Server.notice⟩
  · have hne : (notifyMsg .little dest (some srv) new).dest ≠ c := hdest
    rw [Listener.hear_ne .little hne, observe, if_neg hne, hview]

/-- The datagrams of a step say to a client what they are about. -/
theorem hear_eq_observe (hs : s.Inv) (hlittle : s.order = .little) (hport : c.port ≠ qrtrPortCtrl)
    (hhello : e.sq = c → s.action e ≠ .hello) (h : Sends s e (s.action e) services m) {l : Listener}
    {view : List Server} (hview : l.view = view.map Server.notice) :
    (l.hear .little c m).view = (observe c view m).map Server.notice := by
  have hstored : ∀ {n srv}, srv ∈ forEach (s.services n) → srv.service ≠ 0 := fun hsrv => by
    obtain ⟨k, hentry⟩ := mem_forEach.1 hsrv
    exact (hs.nonzero hentry).1
  -- a datagram for somebody else
  have hother : m.dest ≠ c → (l.hear .little c m).view = (observe c view m).map Server.notice := by
    intro hne
    rw [Listener.hear_ne .little hne, observe, if_neg hne, hview]
  have hbcast : bcastSq ≠ c := fun h => hport (congrArg Sockaddr.port h).symm
  cases h with
  | echo ha => exact hother fun h => hhello h ha
  | announced ha hsrv => exact hother fun h => hhello h ha
  | added ha hlocal => exact hother hbcast
  | removed hsrv hlocal => exact hother hbcast
  | @notifyNew srv lookup ha hl hobs =>
      have hchecked := s.action_checked e
      rw [ha] at hchecked
      rw [hlittle]
      exact hear_notify hchecked.2.2.1 lookup.sq true hview
  | notifyDel hsrv hl hobs =>
      rw [hlittle]
      exact hear_notify (hstored hsrv) _ false hview
  | reply ha hsrv hobs =>
      rw [hlittle]
      exact hear_notify (hstored hsrv) _ true hview
  | @replyEnd lookup ha =>
      have hobserve : observe c view (notifyMsg s.order lookup.sq none true) = view := by
        rw [observe]
        split <;> rfl
      rw [hlittle] at hobserve ⊢
      have hpayload : (notifyMsg .little lookup.sq none true).payload =
          [qrtrTypeNewServer, 0, 0, 0, 0].flatMap le32 := notifyPkt_wire none true
      rw [l.hear_end .little hpayload, hobserve, hview]
  | @bye srv n ha hsrv =>
      have hobserve : observe c view (byeMsg s.order n srv) = view := by
        rw [observe]
        split <;> rfl
      have hpayload : (byeMsg .little n srv).payload =
          le32 qrtrTypeBye ++ [n, 0, 0, 0].flatMap le32 := byePkt_wire n
      rw [hlittle] at hobserve ⊢
      rw [l.hear_other .little hpayload (Or.inl rfl), hobserve, hview]
  | @delClient srv n p ha hsrv =>
      have hobserve : observe c view (delClientMsg s.order e.stack n p srv) = view := by
        rw [observe]
        split <;> rfl
      have hpayload : (delClientMsg .little e.stack n p srv).payload =
          le32 qrtrTypeDelClient ++ ([n, p].flatMap le32 ++ e.stack.bytes 12 8) := rfl
      rw [hlittle] at hobserve ⊢
      rw [l.hear_other .little hpayload (Or.inr rfl), hobserve, hview]

/-- All datagrams of a step. -/
theorem hear_all (hs : s.Inv) (hlittle : s.order = .little) (hport : c.port ≠ qrtrPortCtrl)
    (hhello : e.sq = c → s.action e ≠ .hello) :
    ∀ {msgs : List Msg}, (∀ m ∈ msgs, Sends s e (s.action e) services m) →
      ∀ {l : Listener} {view : List Server}, l.view = view.map Server.notice →
        (msgs.foldl (Listener.hear .little c) l).view = (msgs.foldl (observe c) view).map Server.notice
  | [], _, _, _, hview => hview
  | m :: msgs, hsends, l, view, hview => by
      obtain ⟨hm, hrest⟩ := List.forall_mem_cons.1 hsends
      exact hear_all hs hlittle hport hhello hrest (hear_eq_observe hs hlittle hport hhello hm hview)

end

/-! ### Publishing and subscribing -/

/-- What a client that looks for a publication looks for: 0 stands for every service, and for every version
    and instance together. -/
def Publication.Matches (y x : Publication) : Prop :=
  (y.service = 0 ∨ y.service = x.service) ∧
    (y.version = 0 ∧ y.inst = 0 ∨ y.version = x.version ∧ y.inst = x.inst)

/-- What is heard of a publication by a port of a node. -/
def Publication.notice (x : Publication) (node port : UInt32) : Notice :=
  ⟨x.service, x.version.toUInt32, x.inst.toUInt32, node, port⟩

/-- Versions are one byte. -/
def LibCall.Fits : LibCall → Prop
  | .publish x | .newLookup x => x.version < 256
  | _ => True

def Input.Fits : Input → Prop
  | .call _ c _ _ => c.Fits
  | .remote _ => True

structure Board.Fits (b : Board) : Prop where
  published : ∀ p x, b.published p = some x → x.version < 256
  wanted : ∀ p, ∀ y ∈ b.wanted p, y.version < 256

theorem Publication.notice_server {x : Publication} (h : x.version < 256) (sq : Sockaddr) :
    (x.server sq).notice = x.notice sq.node sq.port := by
  have hword := Publication.word_of_lt h
  have hbyte : x.version.toNat < 256 := h
  have hversion := toNat_version x.word
  have hboth := instance_version x.word
  have hlow : x.word &&& 0xff = x.version.toUInt32 := by
    apply UInt32.toNat_inj.1
    rw [UInt16.toNat_toUInt32]
    omega
  have hhigh : x.word >>> 8 = x.inst.toUInt32 := by
    apply UInt32.toNat_inj.1
    rw [UInt16.toNat_toUInt32]
    omega
  simp only [Server.notice, Publication.server, Publication.notice, hlow, hhigh]

/-- The words of a lookup are 0 or those of the server. -/
theorem Lookup.observes_iff {l : Lookup} {service inst : UInt32} :
    l.observes service inst = true ↔
      (l.service = 0 ∨ l.service = service) ∧ (l.inst = 0 ∨ l.inst = inst) := by
  rw [Lookup.observes]
  by_cases hservice : l.service ≠ 0 ∧ l.service ≠ service
  · rw [if_pos hservice]
    exact iff_of_false Bool.false_ne_true fun h => h.1.elim hservice.1 hservice.2
  rw [if_neg hservice]
  by_cases hinst : l.inst ≠ 0 ∧ l.inst ≠ inst
  · rw [if_pos hinst]
    exact iff_of_false Bool.false_ne_true fun h => h.2.elim hinst.1 hinst.2
  · rw [if_neg hinst]
    exact iff_of_true rfl ⟨by tauto, by tauto⟩

/-- A lookup observes what the client looks for. -/
theorem Publication.observes_iff {x y : Publication} (hx : x.version < 256) (hy : y.version < 256)
    (client : Sockaddr) : (y.lookup client).observes x.service x.word = true ↔ y.Matches x := by
  have hzero : y.word = 0 ↔ y.version = 0 ∧ y.inst = 0 := by
    constructor
    · intro h
      by_contra hne
      exact Publication.word_ne_zero (by tauto) h
    · rintro ⟨hversion, hinst⟩
      simp [Publication.word, hversion, hinst]
  have hword : y.word = x.word ↔ y.version = x.version ∧ y.inst = x.inst := by
    refine ⟨Publication.word_inj hy hx, ?_⟩
    rintro ⟨hversion, hinst⟩
    rw [Publication.word, Publication.word, hversion, hinst]
  rw [Publication.Matches, ← hzero, ← hword]
  exact Lookup.observes_iff

/-! ### Whole runs -/

theorem Board.Fits.step {b : Board} (h : b.Fits) {i : Input} (hi : i.Fits) : (b.step i).Fits := by
  cases i with
  | remote e => exact h
  | call port c stale stack =>
    have hpublished : ∀ {x? : Option Publication}, (∀ x, x? = some x → x.version < 256) → ∀ p x,
        Function.update b.published port x? p = some x → x.version < 256 := by
      intro x? hx p x hp
      by_cases hport : p = port
      · rw [hport, Function.update_self] at hp
        exact hx x hp
      · rw [Function.update_of_ne hport] at hp
        exact h.published p x hp
    have hwanted : ∀ {ys : List Publication}, (∀ y ∈ ys, y.version < 256) → ∀ p,
        ∀ y ∈ Function.update b.wanted port ys p, y.version < 256 := by
      intro ys hys p y hy
      by_cases hport : p = port
      · rw [hport, Function.update_self] at hy
        exact hys y hy
      · rw [Function.update_of_ne hport] at hy
        exact h.wanted p y hy
    cases c with
    | publish x => exact ⟨hpublished fun x' hx' => Option.some.inj hx' ▸ hi, h.wanted⟩
    | bye x => exact ⟨hpublished nofun, h.wanted⟩
    | newLookup y =>
        refine ⟨h.published, hwanted fun y' hy' => ?_⟩
        rcases List.mem_append.1 hy' with hold | hnew
        · exact h.wanted port y' hold
        · rw [List.mem_singleton.1 hnew]
          exact hi
    | removeLookup y =>
        exact ⟨h.published, hwanted fun y' hy' => h.wanted port y' (List.mem_of_mem_filter hy')⟩
    | close => exact ⟨hpublished nofun, hwanted fun y' hy' => absurd hy' List.not_mem_nil⟩

/-- An input that keeps a client informed: memory suffices and sends succeed, nobody registers over a
    registered port, the client takes no lookup back, and versions are one byte. -/
structure Input.Calm (c : Sockaddr) (s : Ns (Map Server)) (i : Input) : Prop where
  proper : i.Proper c.node
  fits : i.Fits
  quiet : Quiet c s (i.event s.order s.localNode)

/-- A host with a client that listens. -/
structure Informed (c : Sockaddr) (b : Board) (s : Ns (Map Server)) (l : Listener) (servers : List Server) :
    Prop extends ViewInv c s servers where
  hosts : Hosts c.node b s
  little : s.order = .little
  fits : b.Fits
  heard : l.view = servers.map Server.notice

section

variable {c : Sockaddr} {b : Board} {s : Ns (Map Server)} {l : Listener} {servers : List Server}

theorem Informed.step (h : Informed c b s l servers) (hport : c.port ≠ qrtrPortCtrl) {i : Input}
    (hi : i.Calm c s) :
    Informed c (b.step i) (hostStep s i).1 ((hostStep s i).2.foldl (Listener.hear .little c) l)
      ((hostStep s i).2.foldl (observe c) servers) := by
  have hnode : s.localNode = c.node := h.hosts.localNode
  have hproper : i.Proper s.localNode := hnode ▸ hi.proper
  have hplain : s.Plain (s.action (i.event s.order s.localNode)) :=
    Ns.plain_of_absent h.toTablesOk hi.quiet.fresh
  have hhello : (i.event s.order s.localNode).sq = c →
      s.action (i.event s.order s.localNode) ≠ .hello := by
    intro hsq hhello
    rw [Ns.action, if_pos h.hosts.running] at hhello
    cases i with
    | call port call stale stack =>
        rw [action_call s.order s.localNode hproper stale stack] at hhello
        cases call <;> cases hhello
    | remote e => exact hproper.1 ((congrArg Sockaddr.node hsq).trans hnode.symm)
  obtain ⟨⟨rc, hhappens⟩, -⟩ := nsStep_happens h.nodesOk h.ok (i.event s.order s.localNode)
  exact {
    toViewInv := h.toViewInv.step hi.quiet
    hosts := h.hosts.step ⟨hi.proper, hplain⟩
    little := (nsStep_frame h.nodesOk h.ok _).1.trans h.little
    fits := h.fits.step hi.fits
    heard := hear_all h.toInv h.little hport hhello (fun _ hm => hhappens.sends h.ok hm) h.heard }

theorem Informed.run (hport : c.port ≠ qrtrPortCtrl) :
    ∀ {is : List Input} {b : Board} {s : Ns (Map Server)} {l : Listener} {servers : List Server},
      Informed c b s l servers → Run.Guarded (fun s i => i.Calm c s) hostStep s is →
        ∃ servers', Informed c (is.foldl Board.step b) (Run.final hostStep s is)
          ((Run.outputs hostStep s is).flatten.foldl (Listener.hear .little c) l) servers'
  | [], _, _, _, servers, h, _ => ⟨servers, h⟩
  | i :: is, b, s, l, servers, h, ⟨hi, hrest⟩ => by
      obtain ⟨servers', h'⟩ := (h.step hport hi).run hport hrest
      rw [Run.outputs, List.flatten_cons, List.foldl_append]
      exact ⟨servers', h'⟩

/-- The notes about the host itself. -/
theorem Informed.mem_view (h : Informed c b s l servers) (note : Notice) :
    note ∈ l.view ∧ note.node = c.node ↔
      ∃ p x, b.published p = some x ∧ note = x.notice c.node p ∧ ∃ y ∈ b.wanted c.port, y.Matches x := by
  have hsq : ∀ p, (⟨s.localNode, p⟩ : Sockaddr) = ⟨c.node, p⟩ := fun p => by rw [h.hosts.localNode]
  have hpublished : ∀ p, s.server c.node p = (b.published p).map fun x => x.server ⟨c.node, p⟩ := fun p => by
    rw [← h.hosts.localNode]
    exact h.hosts.shows.published p
  have hwanted := h.hosts.shows.wanted c.port
  rw [hsq] at hwanted
  have hwatches : ∀ {x : Publication} {p}, x.version < 256 →
      (Watches s.lookups c (x.server ⟨c.node, p⟩) ↔ ∃ y ∈ b.wanted c.port, y.Matches x) := by
    intro x p hx
    constructor
    · rintro ⟨lookup, hmem, hlookup, hobs⟩
      have hmine : lookup ∈ s.lookups.filter fun l => l.sq = c :=
        List.mem_filter.2 ⟨hmem, decide_eq_true hlookup⟩
      rw [hwanted] at hmine
      obtain ⟨y, hy, rfl⟩ := List.mem_map.1 hmine
      exact ⟨y, hy, (Publication.observes_iff hx (h.fits.wanted c.port y hy) c).1 hobs⟩
    · rintro ⟨y, hy, hmatches⟩
      have hmine : y.lookup c ∈ (b.wanted c.port).map fun y => y.lookup c := List.mem_map_of_mem hy
      rw [← hwanted] at hmine
      exact ⟨y.lookup c, List.mem_of_mem_filter hmine, rfl,
        (Publication.observes_iff hx (h.fits.wanted c.port y hy) c).2 hmatches⟩
  rw [h.heard, List.mem_map]
  constructor
  · rintro ⟨⟨srv, hsrv, rfl⟩, hlocal⟩
    obtain ⟨hserver, hwatch⟩ := (h.view srv).1 hsrv
    have hnode : srv.node = c.node := hlocal
    rw [hnode, hpublished] at hserver
    obtain ⟨x, hx, hsrv⟩ := Option.map_eq_some_iff.1 hserver
    have hbyte := h.fits.published _ x hx
    rw [← hsrv] at hwatch ⊢
    exact ⟨srv.port, x, hx, Publication.notice_server hbyte _, (hwatches hbyte).1 hwatch⟩
  · rintro ⟨p, x, hx, rfl, hmatches⟩
    have hbyte := h.fits.published p x hx
    refine ⟨⟨x.server ⟨c.node, p⟩, (h.view _).2 ⟨?_, (hwatches hbyte).2 hmatches⟩,
      Publication.notice_server hbyte _⟩, rfl⟩
    show s.server c.node p = _
    rw [hpublished, hx]
    rfl

end

/-- A client that looks for services receives into one buffer, with whatever bytes in it, and decodes into
    one packet. At every time what it has noted down about its own host is what clients have published and
    not taken back and it looks for, with their version, instance and port. -/
theorem subscriber_view {c : Sockaddr} (hport : c.port ≠ qrtrPortCtrl) (buf : Mem) (pkt : DecodedPacket)
    {is : List Input} (hcalm : Run.Guarded (fun s i => i.Calm c s) hostStep (nsInit .little c.node) is)
    (note : Notice) :
    note ∈ ((Run.outputs hostStep (nsInit .little c.node) is).flatten.foldl (Listener.hear .little c)
        ⟨buf, pkt, []⟩).view ∧ note.node = c.node ↔
      ∃ p x, (is.foldl Board.step .empty).published p = some x ∧ note = x.notice c.node p ∧
        ∃ y ∈ (is.foldl Board.step .empty).wanted c.port, y.Matches x := by
  have hinit : Informed c .empty (nsInit .little c.node) ⟨buf, pkt, []⟩ [] := {
    toViewInv := .init .little rfl
    hosts := .init .little c.node
    little := rfl
    fits := ⟨nofun, fun _ _ hy => absurd hy List.not_mem_nil⟩
    heard := rfl }
  obtain ⟨servers, h⟩ := hinit.run hport hcalm
  exact h.mem_view note

/-- Looking for a service keeps everybody informed. -/
theorem calm_newLookup {c : Sockaddr} {s : Ns (Map Server)} (running : s.sockOpen = true) {port : UInt32}
    {stale stack : Mem} {y : Publication} (hy : y.version < 256) :
    (Input.call port (.newLookup y) stale stack).Calm c s := by
  have hproper : (LibCall.newLookup y).Proper port := trivial
  have haction := hostAction_call running hproper stale stack
  refine ⟨trivial, hy, rfl, rfl, fun srv h => ?_, fun _ => ⟨fun service inst h => ?_, fun n p h => ?_⟩⟩
  all_goals
    rw [haction] at h
    cases h

/-- So does publishing at a port that publishes nothing. -/
theorem calm_publish {c : Sockaddr} {s : Ns (Map Server)} (running : s.sockOpen = true) {port : UInt32}
    {stale stack : Mem} {x : Publication} (hx : x.service ≠ 0 ∧ port ≠ 0) (hversion : x.version < 256)
    (hfree : s.server s.localNode port = none) : (Input.call port (.publish x) stale stack).Calm c s := by
  have hproper : (LibCall.publish x).Proper port := hx
  have haction := hostAction_call running hproper stale stack
  refine ⟨hx, hversion, rfl, rfl, fun srv h => ?_, fun _ => ⟨fun service inst h => ?_, fun n p h => ?_⟩⟩
  all_goals
    rw [haction] at h
    cases h
  exact hfree

/-- Port 6 looks for service 7 and is told that port 5 publishes version 1 of instance 2. -/
theorem subscriber_view_one :
    (⟨7, 1, 2, 1, 5⟩ : Notice) ∈ ((Run.outputs hostStep (nsInit .little 1)
      [.call 6 (.newLookup ⟨7, 0, 0⟩) (fun _ => 0) fun _ => 0,
        .call 5 (.publish ⟨7, 1, 2⟩) (fun _ => 0) fun _ => 0]).flatten.foldl (Listener.hear .little ⟨1, 6⟩)
          ⟨fun _ => 0, ⟨⟨0, none, 0⟩, 0, 0, 0, 0, 0⟩, []⟩).view := by
  have hport : (⟨1, 6⟩ : Sockaddr).port ≠ qrtrPortCtrl := by decide
  have hcalm : Run.Guarded (fun s i => Input.Calm ⟨1, 6⟩ s i) hostStep (nsInit .little 1)
      [.call 6 (.newLookup ⟨7, 0, 0⟩) (fun _ => 0) fun _ => 0,
        .call 5 (.publish ⟨7, 1, 2⟩) (fun _ => 0) fun _ => 0] := by
    refine ⟨calm_newLookup rfl (by decide), calm_publish ?_ (by decide) (by decide) ?_, trivial⟩
    · decide +kernel
    · decide +kernel
  exact ((subscriber_view hport _ _ hcalm ⟨7, 1, 2, 1, 5⟩).2
    ⟨5, ⟨7, 1, 2⟩, rfl, rfl, ⟨7, 0, 0⟩, List.mem_singleton_self _, Or.inr rfl, Or.inl ⟨rfl, rfl⟩⟩).1

end Qrtr
