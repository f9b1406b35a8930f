/-
Module: Qrtr.NameServer.Publication
Layer: NameServer
Purpose: A service on its way from `qrtr_new_server` of one client over the name server to `qrtr_decode` of
  another. The client library packs instance and version into one word, the name server compares and passes
  on that word, and `qrtr_decode` takes the version from its low byte. A version of more than one byte runs
  into the instance on the way.
Imports: Qrtr.NameServer.Wire
Main exports: Publication, qrtrNewServer, qrtrNewLookup, Found, Distinguished, found_iff
Open obligations: none
-/
import Qrtr.NameServer.Wire

namespace Qrtr

open MapOps LawfulMap

/-! ### The client library -/

/-- The arguments of `qrtr_new_server` and `qrtr_new_lookup`. -/
structure Publication where
  service : UInt32
  version : UInt16
  inst : UInt16
deriving DecidableEq, Repr

/-- `instance << 8 | version`. -/
def Publication.word (x : Publication) : UInt32 := x.inst.toUInt32 <<< 8 ||| x.version.toUInt32

/-- The packet that the client library sends to the name server, by its command. -/
def clientPkt (order : HostOrder) (cmd : UInt32) (x : Publication) : List UInt8 :=
  ctrlPkt order [cpuToLe32 order cmd, cpuToLe32 order x.service, cpuToLe32 order x.word, 0, 0]

/-- The packet of `qrtr_new_server`. -/
def qrtrNewServer (order : HostOrder) (x : Publication) : List UInt8 :=
  clientPkt order qrtrTypeNewServer x

/-- The packet of `qrtr_new_lookup`. -/
def qrtrNewLookup (order : HostOrder) (x : Publication) : List UInt8 :=
  clientPkt order qrtrTypeNewLookup x

/-- The record that the name server keeps of a publication by a socket. -/
def Publication.server (x : Publication) (sq : Sockaddr) : Server where
  service := x.service
  inst := x.word
  node := sq.node
  port := sq.port

/-- The lookup that the name server keeps of a `qrtr_new_lookup` by a client. -/
def Publication.lookup (x : Publication) (client : Sockaddr) : Lookup where
  service := x.service
  inst := x.word
  sq := client

/-! ### What is to come through -/

/-- `qrtr_decode` shows the publication, and the socket it comes from, as they are. -/
structure Publication.Shown (x : Publication) (sq : Sockaddr) (r : Int × DecodedPacket) : Prop where
  rc : r.1 = 0
  type : r.2.type = 4
  service : r.2.service = x.service
  version : r.2.version.toNat = x.version.toNat
  inst : r.2.inst.toNat = x.inst.toNat
  node : r.2.node = sq.node
  port : r.2.port = sq.port

/-- A client of the host is notified of the publication, and `qrtr_decode` shows it in each notification. -/
structure Publication.Notified (x : Publication) (order : HostOrder) (sq client : Sockaddr)
    (msgs : List Msg) : Prop where
  sent : ∃ m ∈ msgs, m.dest = client ∧ m.call = .lookupNotify (some (x.server sq)) true
  shown : ∀ m ∈ msgs, m.dest = client → m.call = .lookupNotify (some (x.server sq)) true →
    ∀ (dest : DecodedPacket) (buf : Mem) (ctrl : Sockaddr), ctrl.port = qrtrPortCtrl →
      buf.bytes 0 20 = m.payload → x.Shown sq (qrtrDecode order dest buf 20 ctrl)

/-- A publication by a local port is found: it is registered, and each client with a matching lookup is
    notified, be the lookup there before or made at any time while the publication is registered. -/
structure Found (s : Ns (Map Server)) (x : Publication) (sq : Sockaddr) (e : Event) : Prop where
  registered : (nsStep s e).1.server sq.node sq.port = some (x.server sq)
  before : ∀ l ∈ s.lookups, l.observes x.service x.word = true →
    x.Notified s.order sq l.sq (nsStep s e).2
  later : ∀ (events : List Event) (s' : Ns (Map Server)),
    s' = Run.final nsStep (nsStep s e).1 events → s'.sockOpen = true →
      s'.server sq.node sq.port = some (x.server sq) →
        ∀ (y : Publication) (e' : Event), e'.datagram = qrtrNewLookup s.order y → e'.allocs = [] →
          e'.sq.node = s.localNode → (y.lookup e'.sq).observes x.service x.word = true →
            x.Notified s.order sq e'.sq (nsStep s' e').2

/-- Two publications of a service are not taken for each other: a lookup for the version and the instance
    of one matches the other only if they have the same. -/
def Distinguished (x y : Publication) : Prop :=
  ∀ client, (x.lookup client).observes y.service y.word = true → (x.version ≠ 0 ∨ x.inst ≠ 0) →
    x.version = y.version ∧ x.inst = y.inst

/-! ### Packing and unpacking -/

theorem Publication.toNat_word (x : Publication) :
    x.word.toNat = x.inst.toNat <<< 8 ||| x.version.toNat := by
  have hlt : x.inst.toNat <<< 8 < 2 ^ 32 := by
    have := x.inst.toNat_lt
    rw [Nat.shiftLeft_eq]
    omega
  rw [Publication.word, UInt32.toNat_or, UInt32.toNat_shiftLeft, UInt16.toNat_toUInt32,
    UInt16.toNat_toUInt32]
  exact congrArg (· ||| x.version.toNat) (Nat.mod_eq_of_lt hlt)

/-- A version of one byte lies beside the instance. -/
theorem Publication.word_of_lt {x : Publication} (h : x.version < 256) :
    x.word.toNat = x.inst.toNat * 256 + x.version.toNat := by
  have hlt : x.version.toNat < 2 ^ 8 := h
  rw [x.toNat_word, ← Nat.shiftLeft_add_eq_or_of_lt hlt, Nat.shiftLeft_eq]

/-- The low byte of the word, as `qrtr_decode` takes it for the version. -/
theorem toNat_version (w : UInt32) : (w &&& 0xff).toNat = w.toNat % 256 := by
  rw [UInt32.toNat_and]
  exact Nat.and_two_pow_sub_one_eq_mod w.toNat 8

/-- Words of one-byte versions are packed without loss. -/
theorem Publication.word_inj {x y : Publication} (hx : x.version < 256) (hy : y.version < 256)
    (h : x.word = y.word) : x.version = y.version ∧ x.inst = y.inst := by
  have hword := congrArg UInt32.toNat h
  have hxlt : x.version.toNat < 256 := hx
  have hylt : y.version.toNat < 256 := hy
  rw [word_of_lt hx, word_of_lt hy] at hword
  exact ⟨UInt16.toNat_inj.1 (by omega), UInt16.toNat_inj.1 (by omega)⟩

/-- Only version and instance 0 are packed to the word for every instance. -/
theorem Publication.word_ne_zero {x : Publication} (h : x.version ≠ 0 ∨ x.inst ≠ 0) : x.word ≠ 0 := by
  intro hzero
  have hword := congrArg UInt32.toNat hzero
  rw [x.toNat_word, UInt32.toNat_zero, Nat.or_eq_zero_iff, Nat.shiftLeft_eq] at hword
  rcases h with hversion | hinst
  · exact hversion (UInt16.toNat_inj.1 hword.2)
  · exact hinst (UInt16.toNat_inj.1 (by simpa using hword.1))

/-! ### The packets of the client library -/

/-- What the name server reads from a packet of the client library. -/
theorem Event.words_client {e : Event} {order : HostOrder} {cmd : UInt32} {x : Publication}
    (h : e.datagram = clientPkt order cmd x) :
    4 ≤ e.received.length ∧ e.word 0 = cmd ∧ e.word 4 = x.service ∧ e.word 8 = x.word := by
  have hzero : wordBytes order 0 = le32 0 := by cases order <;> rfl
  have hdatagram : e.datagram = [cmd, x.service, x.word, 0, 0].flatMap le32 := by
    rw [h]
    simp [clientPkt, ctrlPkt, hzero]
  obtain ⟨hlen, h0, h4, h8, -⟩ := Event.words hdatagram
  exact ⟨by omega, h0, h4, h8⟩

/-! ### The notification -/

/-- The words of a notification, whose command lies in memory as the host stores it. -/
theorem notifyPkt_words (order : HostOrder) (srv : Server) : ∃ cmd : UInt32,
    notifyPkt order (some srv) true = (cmd :: srv.words).flatMap le32 ∧
      (order = .little → cmd = qrtrTypeNewServer) ∧ (order = .big → cmd = 0x04000000) := by
  cases order with
  | little => exact ⟨qrtrTypeNewServer, notifyPkt_wire _ _, fun _ => rfl, nofun⟩
  | big =>
      refine ⟨0x04000000, ?_, nofun, fun _ => rfl⟩
      rw [notifyPkt_some, serverBytes_eq]
      rfl

/-- `qrtr_decode` shows a publication as it is exactly if the host is little-endian and the version is one
    byte. -/
theorem Publication.shown_iff {x : Publication} {sq ctrl : Sockaddr} {order : HostOrder}
    {dest : DecodedPacket} {buf : Mem} (hctrl : ctrl.port = qrtrPortCtrl)
    (hbuf : buf.bytes 0 20 = notifyPkt order (some (x.server sq)) true) :
    x.Shown sq (qrtrDecode order dest buf 20 ctrl) ↔ order = .little ∧ x.version < 256 := by
  obtain ⟨cmd, hwords, hlittle, hbig⟩ := notifyPkt_words order (x.server sq)
  have hbytes := hbuf.trans hwords
  cases order with
  | little =>
      rw [hlittle rfl] at hbytes
      rw [qrtrDecode_eq hctrl (Or.inl rfl) hbytes]
      have hinst := instance_version x.word
      have hversion := toNat_version x.word
      constructor
      · intro h
        have hshown : (x.word &&& 0xff).toNat = x.version.toNat := h.version
        refine ⟨rfl, ?_⟩
        show x.version.toNat < 256
        omega
      · rintro ⟨-, hlt⟩
        have hword := Publication.word_of_lt hlt
        have hbyte : x.version.toNat < 256 := hlt
        have hshown : (x.word &&& 0xff).toNat = x.version.toNat := by omega
        have hinst' : (x.word >>> 8).toNat = x.inst.toNat := by omega
        exact ⟨rfl, rfl, rfl, hshown, hinst', rfl, rfl⟩
  | big =>
      rw [hbig rfl] at hbytes
      obtain ⟨h0, -⟩ := ctrlWord_of_words .big hbytes
      have htype : (qrtrDecode .big dest buf 20 ctrl).2.type = 0 := by
        rw [qrtrDecode, if_pos hctrl]
        simp only [h0]
        rfl
      refine iff_of_false (fun h => ?_) fun h => ?_
      · rw [h.type] at htype
        cases htype
      · cases h.1

/-! ### On the way through the name server -/

section

variable {s : Ns (Map Server)} (hs : s.Reachable) (running : s.sockOpen = true) {x : Publication}
  {e : Event}

/-- The name server passes the notifications on as `lookup_notify` makes them. -/
theorem Publication.notified_of_mem {s : Ns (Map Server)} (hs : s.Reachable)
    (hlittle : s.order = .little) (hversion : x.version < 256) {sq client : Sockaddr}
    (h : ∃ m ∈ (nsStep s e).2, m.dest = client ∧ m.call = .lookupNotify (some (x.server sq)) true) :
    x.Notified s.order sq client (nsStep s e).2 where
  sent := h
  shown m hm _ hcall dest buf ctrl hctrl hbuf := by
    rw [(sends_of_step hs hm).notify_payload hcall] at hbuf
    exact (x.shown_iff hctrl hbuf).2 ⟨hlittle, hversion⟩

/-- Whoever is notified of a publication learns that the host is little-endian and the version one byte. -/
theorem Publication.Notified.fits (hs : s.Reachable) {sq client : Sockaddr}
    (h : x.Notified s.order sq client (nsStep s e).2) : s.order = .little ∧ x.version < 256 := by
  obtain ⟨m, hm, hdest, hcall⟩ := h.sent
  have hpayload := (sends_of_step hs hm).notify_payload hcall
  obtain ⟨cmd, hwords, -⟩ := notifyPkt_words s.order (x.server sq)
  have hlen : m.payload.length = 20 := by
    rw [hpayload, hwords]
    simp [Server.words]
  have hbytes : (Mem.write (fun _ => 0) 0 m.payload).bytes 0 20 = m.payload := by
    rw [← hlen]
    exact Mem.bytes_write _ _ _
  have hshown := h.shown m hm hdest hcall ⟨⟨0, none, 0⟩, 0, 0, 0, 0, 0⟩ _ ⟨0, qrtrPortCtrl⟩ rfl hbytes
  exact (x.shown_iff rfl (hbytes.trans hpayload)).1 hshown

include hs running

/-- The publication by a local port is registered, and its matching lookups are notified. -/
theorem nsStep_newServer {sq : Sockaddr} (hsq : e.sq = sq) (hlocal : sq.node = s.localNode)
    (hdatagram : e.datagram = qrtrNewServer s.order x) (ha : e.allocs = []) (hservice : x.service ≠ 0)
    (hport : sq.port ≠ 0) :
    (nsStep s e).1.server sq.node sq.port = some (x.server sq) ∧
      (nsStep s e).2 = s.newMsgs (x.server sq) := by
  obtain ⟨hlen, h0, h4, h8⟩ := Event.words_client hdatagram
  have haction : s.action e = .register (x.server sq) := by
    rw [Ns.action, if_pos running, e.action_newServer_local _ hlen h0 (by rwa [hsq]) (by rwa [h4])
      (by rwa [hsq]), h4, h8, hsq]
    rfl
  obtain ⟨⟨rc, hhappens⟩, hnodes⟩ := nsStep_happens hs.inv.nodesOk hs.inv.ok e
  rw [server_eq_get hnodes]
  rw [haction] at hhappens
  generalize (nsStep s e).1.services = services at hhappens
  generalize (nsStep s e).1.lookups = lookups at hhappens
  generalize (nsStep s e).2 = msgs at hhappens
  cases hhappens with
  | nothing why => simp [Ns.Idle, ha] at why
  | register hplan hput hrc =>
      refine ⟨?_, rfl⟩
      have hupdate := get_reput (hs.inv.ok sq.node) hput
      rw [← hupdate]
      simp [Publication.server]

/-- The answer to a lookup by a local client notifies it of every registered publication that matches. -/
theorem mem_nsStep_newLookup {y : Publication} (hlocal : e.sq.node = s.localNode)
    (hdatagram : e.datagram = qrtrNewLookup s.order y) (ha : e.allocs = []) {srv : Server}
    (hsrv : s.server srv.node srv.port = some srv)
    (hobs : (y.lookup e.sq).observes srv.service srv.inst = true) :
    notifyMsg s.order e.sq (some srv) true ∈ (nsStep s e).2 := by
  obtain ⟨hlen, h0, h4, h8⟩ := Event.words_client hdatagram
  have haction : s.action e = .watch (y.lookup e.sq) := by
    rw [Ns.action, if_pos running, e.action_newLookup_local _ hlen h0 hlocal, h4, h8]
    rfl
  have hmem : ∃ n, srv ∈ forEach (s.services n) := by
    rw [server_eq_get hs.inv.nodesOk] at hsrv
    exact ⟨_, mem_forEach.2 ⟨_, live_of_get (hs.inv.ok _) hsrv⟩⟩
  obtain ⟨⟨rc, hhappens⟩, -⟩ := nsStep_happens hs.inv.nodesOk hs.inv.ok e
  rw [haction] at hhappens
  generalize (nsStep s e).1.services = services at hhappens
  generalize (nsStep s e).1.lookups = lookups at hhappens
  generalize (nsStep s e).2 = msgs at hhappens
  cases hhappens with
  | nothing why => simp [Ns.Idle, ha] at why
  | watch hreply => exact List.mem_append_left _ (List.mem_map_of_mem ((hreply srv).2 ⟨hmem, hobs⟩))

omit hs running

/-- A state of a run is reachable from where the run begins. -/
theorem Ns.Reachable.run {s : Ns (Map Server)} (hs : s.Reachable) (events : List Event) :
    (Run.final nsStep s events).Reachable := by
  obtain ⟨order, localNode, first, rfl⟩ := hs
  exact ⟨order, localNode, first ++ events, (Run.final_append _ _ _ _).symm⟩

/-- A lookup for a publication matches it. -/
theorem Publication.lookup_observes (x : Publication) (client : Sockaddr) :
    (x.lookup client).observes x.service x.word = true := by
  simp [Publication.lookup, Lookup.observes]

/-- Lookups for one-byte versions match the publications of their version and instance only. -/
theorem distinguished_of_lt {x y : Publication} (hx : x.version < 256) (hy : y.version < 256) :
    Distinguished x y := by
  intro client hobs hspecific
  have hne := Publication.word_ne_zero hspecific
  apply Publication.word_inj hx hy
  by_contra hword
  simp [Lookup.observes, Publication.lookup, hne, hword] at hobs

end

/-- A publication through the name server, whatever else its event meets. -/
def Publication.FoundAsPublished (x : Publication) (s : Ns (Map Server)) (port : UInt32) : Prop :=
  ∀ e : Event, e.sq = { node := s.localNode, port := port } →
    e.datagram = qrtrNewServer s.order x → e.allocs = [] →
      Found s x { node := s.localNode, port := port } e

section

variable {s : Ns (Map Server)} (hs : s.Reachable) (running : s.sockOpen = true) {x : Publication}
  (hservice : x.service ≠ 0) {port : UInt32}

include hs running

include hservice in
theorem Publication.foundAsPublished (hlittle : s.order = .little) (hversion : x.version < 256)
    (hport : port ≠ 0) : x.FoundAsPublished s port := by
  intro e hsq hdatagram ha
  obtain ⟨hregistered, hmsgs⟩ := nsStep_newServer hs running hsq rfl hdatagram ha hservice hport
  refine ⟨hregistered, fun l hl hobs => ?_, ?_⟩
  · apply Publication.notified_of_mem hs hlittle hversion
    refine ⟨notifyMsg s.order l.sq (some _) true, ?_, rfl, rfl⟩
    rw [hmsgs]
    exact List.mem_append_right _ (List.mem_map_of_mem (List.mem_filter.2 ⟨hl, hobs⟩))
  · intro events s' hrun hopen hstill y e' hlookup ha' hlocal hobs
    have hrun' : s' = Run.final nsStep s (e :: events) := hrun
    have hs' : s'.Reachable := hrun' ▸ hs.run (e :: events)
    obtain ⟨horder, hnode⟩ := hs.inv.frame_run (e :: events)
    rw [← hrun'] at horder hnode
    rw [← horder] at hlookup hlittle ⊢
    rw [← hnode] at hlocal
    apply Publication.notified_of_mem hs' hlittle hversion
    refine ⟨notifyMsg s'.order e'.sq (some (x.server { node := s.localNode, port := port })) true,
      ?_, rfl, rfl⟩
    exact mem_nsStep_newLookup hs' hopen hlocal hlookup ha' hstill hobs

/-- What it takes for a publication to be found as it was published. -/
theorem Publication.FoundAsPublished.fits (h : x.FoundAsPublished s port) :
    s.order = .little ∧ x.version < 256 ∧ port ≠ 0 := by
  obtain ⟨e, he⟩ : ∃ e : Event, e =
    ⟨⟨s.localNode, port⟩, qrtrNewServer s.order x, fun _ => 0, fun _ => 0, [], []⟩ := ⟨_, rfl⟩
  obtain ⟨e', he'⟩ : ∃ e' : Event, e' =
    ⟨⟨s.localNode, 1⟩, qrtrNewLookup s.order x, fun _ => 0, fun _ => 0, [], []⟩ := ⟨_, rfl⟩
  have hfound := h e (by rw [he]) (by rw [he]) (by rw [he])
  have hs' : (nsStep s e).1.Reachable := hs.run [e]
  have hreceived : e.received ≠ [] := by
    have hdatagram : e.datagram = clientPkt s.order qrtrTypeNewServer x := by
      rw [he]
      rfl
    have hlen := (Event.words_client hdatagram).1
    exact List.length_pos_iff.1 (by omega)
  have hopen : (nsStep s e).1.sockOpen = true :=
    ((nsStep_frame hs.inv.nodesOk hs.inv.ok e).2.2 hreceived).trans running
  have hnotified := hfound.later [] _ rfl hopen hfound.registered x e' (by rw [he']) (by rw [he'])
    (by rw [he']) (x.lookup_observes _)
  rw [← (nsStep_frame hs.inv.nodesOk hs.inv.ok e).1] at hnotified
  obtain ⟨hlittle, hversion⟩ := hnotified.fits hs'
  rw [(nsStep_frame hs.inv.nodesOk hs.inv.ok e).1] at hlittle
  refine ⟨hlittle, hversion, ?_⟩
  have hregistered := hfound.registered
  rw [server_eq_get hs'.inv.nodesOk] at hregistered
  exact (hs'.inv.nonzero (live_of_get (hs'.inv.ok _) hregistered)).2

end

/-- Two publications are found as they were published and not taken for each other exactly if the host is
    little-endian, both versions are one byte, and neither port is 0. -/
theorem found_iff {s : Ns (Map Server)} (hs : s.Reachable) (running : s.sockOpen = true)
    {x y : Publication} (hx : x.service ≠ 0) (hy : y.service ≠ 0) {p q : UInt32} :
    (x.FoundAsPublished s p ∧ y.FoundAsPublished s q ∧ Distinguished x y ∧ Distinguished y x) ↔
      s.order = .little ∧ (x.version < 256 ∧ y.version < 256) ∧ p ≠ 0 ∧ q ≠ 0 := by
  constructor
  · rintro ⟨hfoundX, hfoundY, -⟩
    obtain ⟨hlittle, hversionX, hp⟩ := hfoundX.fits hs running
    obtain ⟨-, hversionY, hq⟩ := hfoundY.fits hs running
    exact ⟨hlittle, ⟨hversionX, hversionY⟩, hp, hq⟩
  · rintro ⟨hlittle, ⟨hversionX, hversionY⟩, hp, hq⟩
    exact ⟨Publication.foundAsPublished hs running hx hlittle hversionX hp,
      Publication.foundAsPublished hs running hy hlittle hversionY hq,
      distinguished_of_lt hversionX hversionY, distinguished_of_lt hversionY hversionX⟩

/-- Two instances of a service on one node. -/
theorem found_iff_instances :
    (Publication.mk 7 1 2).FoundAsPublished (nsInit .little 1) 5 ∧
      (Publication.mk 7 1 3).FoundAsPublished (nsInit .little 1) 6 ∧
      Distinguished ⟨7, 1, 2⟩ ⟨7, 1, 3⟩ ∧ Distinguished ⟨7, 1, 3⟩ ⟨7, 1, 2⟩ :=
  (found_iff (s := nsInit .little 1) ⟨.little, 1, [], rfl⟩ rfl (by decide) (by decide)).2
    ⟨rfl, ⟨by decide, by decide⟩, by decide, by decide⟩

/-- Version 256 of instance 0 is reported as version 0 of instance 1. -/
theorem not_found : ¬ ∀ s : Ns (Map Server), s.Reachable → s.sockOpen = true → s.order = .little →
    ∀ x : Publication, x.service ≠ 0 → ∀ port, port ≠ 0 → x.FoundAsPublished s port := by
  intro h
  have hinit : (nsInit .little 1 : Ns (Map Server)).Reachable := ⟨.little, 1, [], rfl⟩
  have hfound := h (nsInit .little 1) hinit rfl rfl ⟨7, 256, 0⟩ (by decide) 5 (by decide)
  obtain ⟨-, hversion, -⟩ := hfound.fits hinit rfl
  exact absurd hversion (by decide)

end Qrtr
