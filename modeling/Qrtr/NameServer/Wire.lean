/-
Module: Qrtr.NameServer.Wire
Layer: NameServer
Purpose: The datagrams of the name server as the packets they are meant to be. `SendCall.words` says
  which five words a call of `sendto` is about, and a datagram is proper if it is their little-endian
  encoding, so that `qrtr_decode` recovers them on every host. Announcements always are. The other
  packets are where the host is little-endian, except for DEL_CLIENT, whose last two words nobody sets.
Imports: Qrtr.NameServer.Effects
Main exports: SendCall.words, SendCall.wire, SendCall.Recovered, recovered_of_wire, Proper,
  Conforming, proper_iff_conforming
Open obligations: none
-/
import Qrtr.NameServer.Effects

namespace Qrtr

open MapOps LawfulMap

/-! ### What a datagram is meant to say -/

/-- The words of a server in a packet. -/
def Server.words (srv : Server) : List UInt32 := [srv.service, srv.inst, srv.node, srv.port]

/-- The five words of the control packet that a call is about. -/
def SendCall.words : SendCall → List UInt32
  | .sayHello | .helloEcho => [qrtrTypeHello, 0, 0, 0, 0]
  | .announceNew srv => qrtrTypeNewServer :: srv.words
  | .announceDel srv => qrtrTypeDelServer :: srv.words
  | .lookupNotify srv? new =>
      (if new then qrtrTypeNewServer else qrtrTypeDelServer) ::
        match srv? with
        | none => [0, 0, 0, 0]
        | some srv => srv.words
  | .bye node => [qrtrTypeBye, node, 0, 0, 0]
  | .delClient node port => [qrtrTypeDelClient, node, port, 0, 0]

/-- The packet on the wire: every word in little-endian order, the unused ones zero. -/
def SendCall.wire (call : SendCall) : List UInt8 := call.words.flatMap le32

/-- What a decoded server packet says about the server. -/
structure DecodedPacket.IsServer (pkt : DecodedPacket) (service inst node port : UInt32) : Prop where
  service : pkt.service = service
  inst : pkt.inst.toNat * 256 + pkt.version.toNat = inst.toNat
  node : pkt.node = node
  port : pkt.port = port

/-- The receiver learns what the call is about: the type, and the members that this type has. -/
def SendCall.Recovered (call : SendCall) (r : Int × DecodedPacket) : Prop :=
  match call with
  | .sayHello | .helloEcho => True
  | .announceNew srv =>
      r.1 = 0 ∧ r.2.type = 4 ∧ r.2.IsServer srv.service srv.inst srv.node srv.port
  | .announceDel srv =>
      r.1 = 0 ∧ r.2.type = 5 ∧ r.2.IsServer srv.service srv.inst srv.node srv.port
  | .lookupNotify srv? new =>
      r.1 = 0 ∧ r.2.type = (if new then 4 else 5) ∧
        match srv? with
        | none => r.2.IsServer 0 0 0 0
        | some srv => r.2.IsServer srv.service srv.inst srv.node srv.port
  | .bye node => r.1 = 0 ∧ r.2.type = 3 ∧ r.2.node = node
  | .delClient node port => r.1 = 0 ∧ r.2.type = 6 ∧ r.2.node = node ∧ r.2.port = port

/-! ### Decoding the packet on the wire -/

/-- Version and instance together are the word they were taken from. -/
theorem instance_version (w : UInt32) : (w >>> 8).toNat * 256 + (w &&& 0xff).toNat = w.toNat := by
  have hshift : (w >>> 8).toNat = w.toNat / 256 := by
    simp [UInt32.toNat_shiftRight, Nat.shiftRight_eq_div_pow]
  have hmask : (w &&& 0xff).toNat = w.toNat % 256 := by
    rw [UInt32.toNat_and]
    exact Nat.and_two_pow_sub_one_eq_mod w.toNat 8
  omega

/-- `qrtr_decode` on a packet that names a server. -/
theorem qrtrDecode_eq {order : HostOrder} {dest : DecodedPacket} {buf : Mem} {sq : Sockaddr}
    (hsq : sq.port = qrtrPortCtrl) {cmd service inst node port : UInt32}
    (hcmd : cmd = qrtrTypeNewServer ∨ cmd = qrtrTypeDelServer)
    (h : buf.bytes 0 20 = [cmd, service, inst, node, port].flatMap le32) :
    qrtrDecode order dest buf 20 sq =
      (0,
        { dest with
          type := cmd.toInt32.toInt
          node := node
          port := port
          service := service
          version := inst &&& 0xff
          inst := inst >>> 8 }) := by
  obtain ⟨h0, h4, h8, h12, h16⟩ := ctrlWord_of_words order h
  have hbye : cmd ≠ qrtrTypeBye := by rcases hcmd with rfl | rfl <;> decide
  have hdelClient : cmd ≠ qrtrTypeDelClient := by rcases hcmd with rfl | rfl <;> decide
  simp only [qrtrDecode, if_pos hsq, h0, h4, h8, h12, h16, if_neg hbye, if_neg hdelClient,
    if_pos hcmd]
  rfl

theorem qrtrDecode_server {order : HostOrder} {dest : DecodedPacket} {buf : Mem} {sq : Sockaddr}
    (hsq : sq.port = qrtrPortCtrl) {cmd service inst node port : UInt32}
    (hcmd : cmd = qrtrTypeNewServer ∨ cmd = qrtrTypeDelServer)
    (h : buf.bytes 0 20 = [cmd, service, inst, node, port].flatMap le32) :
    (qrtrDecode order dest buf 20 sq).1 = 0 ∧
      (qrtrDecode order dest buf 20 sq).2.type = cmd.toInt32.toInt ∧
      (qrtrDecode order dest buf 20 sq).2.IsServer service inst node port := by
  rw [qrtrDecode_eq hsq hcmd h]
  exact ⟨rfl, rfl, ⟨rfl, instance_version inst, rfl, rfl⟩⟩

/-- A receiver of either byte order recovers what a packet on the wire is about. -/
theorem recovered_of_wire {call : SendCall} {order : HostOrder} {dest : DecodedPacket} {buf : Mem}
    {sq : Sockaddr} (hsq : sq.port = qrtrPortCtrl) (h : buf.bytes 0 20 = call.wire) :
    call.Recovered (qrtrDecode order dest buf 20 sq) := by
  cases call with
  | sayHello => trivial
  | helloEcho => trivial
  | announceNew srv => exact qrtrDecode_server hsq (Or.inl rfl) h
  | announceDel srv => exact qrtrDecode_server hsq (Or.inr rfl) h
  | lookupNotify srv? new =>
      cases new with
      | true =>
          cases srv? with
          | none => exact qrtrDecode_server hsq (Or.inl rfl) h
          | some srv => exact qrtrDecode_server hsq (Or.inl rfl) h
      | false =>
          cases srv? with
          | none => exact qrtrDecode_server hsq (Or.inr rfl) h
          | some srv => exact qrtrDecode_server hsq (Or.inr rfl) h
  | bye node =>
      obtain ⟨h0, h4, -⟩ := ctrlWord_of_words order h
      simp only [SendCall.Recovered, qrtrDecode, if_pos hsq, h0, h4]
      exact ⟨rfl, rfl, rfl⟩
  | delClient node port =>
      obtain ⟨h0, h4, h8, -⟩ := ctrlWord_of_words order h
      simp only [SendCall.Recovered, qrtrDecode, if_pos hsq, h0, h4, h8]
      exact ⟨rfl, rfl, rfl, rfl⟩

/-! ### The packets that are sent -/

/-- The builders that convert every word, on the host they run on; nothing sets the last words of a
    DEL_CLIENT. -/
def Conforming (order : HostOrder) : SendCall → Prop
  | .sayHello | .helloEcho | .announceNew _ | .announceDel _ => True
  | .lookupNotify _ _ | .bye _ => order = .little
  | .delClient _ _ => False

theorem serverBytes_eq (srv : Server) : serverBytes srv = srv.words.flatMap le32 := by
  simp [serverBytes, Server.words]

theorem announcePkt_wire (order : HostOrder) (cmd : UInt32) (srv : Server) :
    announcePkt order cmd srv = (cmd :: srv.words).flatMap le32 := by
  rw [announcePkt_eq, serverBytes_eq]
  rfl

theorem notifyPkt_wire (srv? : Option Server) (new : Bool) :
    notifyPkt .little srv? new = (SendCall.lookupNotify srv? new).wire := by
  cases srv? with
  | none => cases new <;> rfl
  | some srv =>
      rw [notifyPkt_some, serverBytes_eq]
      rfl

theorem byePkt_wire (node : UInt32) : byePkt .little node = (SendCall.bye node).wire := by
  have hzeros : [0, 0, 0].flatMap le32 = List.replicate 12 (0 : UInt8) := rfl
  show [qrtrTypeBye, node].flatMap le32 ++ List.replicate 12 0 =
    ([qrtrTypeBye, node] ++ [0, 0, 0]).flatMap le32
  rw [List.flatMap_append, hzeros]

/-- On a big-endian host the command of a notification lies in the wrong order. -/
theorem little_of_notifyPkt {order : HostOrder} (srv? : Option Server) (new : Bool)
    (h : notifyPkt order srv? new = (SendCall.lookupNotify srv? new).wire) : order = .little := by
  by_contra hbig
  have horder : order = .big := by
    cases order with
    | little => exact absurd rfl hbig
    | big => rfl
  subst horder
  cases new with
  | true =>
      have hword : wordBytes .big qrtrTypeNewServer ++ [] = le32 qrtrTypeNewServer :=
        (List.append_inj h rfl).1
      revert hword
      decide
  | false =>
      have hword : wordBytes .big qrtrTypeDelServer ++ [] = le32 qrtrTypeDelServer :=
        (List.append_inj h rfl).1
      revert hword
      decide

/-- On a big-endian host the command of a BYE lies in the wrong order. -/
theorem little_of_byePkt {order : HostOrder} {node : UInt32}
    (h : byePkt order node = (SendCall.bye node).wire) : order = .little := by
  by_contra hbig
  have horder : order = .big := by
    cases order with
    | little => exact absurd rfl hbig
    | big => rfl
  subst horder
  rw [byePkt, ctrlPkt, List.flatMap_cons, List.append_assoc] at h
  have hword : wordBytes .big qrtrTypeBye = le32 qrtrTypeBye := (List.append_inj h rfl).1
  revert hword
  decide

section

variable {T : Type} [MapOps T Server] [LawfulMap T Server] {s : Ns T} {e : Event} {a : Action}
  {services : UInt32 → T} {m : Msg}

omit [LawfulMap T Server] in
/-- What a conforming builder sends is the packet on the wire. -/
theorem Sends.payload_eq (h : Sends s e a services m) (hecho : m.call ≠ .helloEcho)
    (hconf : Conforming s.order m.call) : m.payload = m.call.wire := by
  cases h with
  | echo ha => exact absurd rfl hecho
  | announced ha hsrv => exact announcePkt_wire _ _ _
  | added ha hlocal => exact announcePkt_wire _ _ _
  | removed hsrv hlocal => exact announcePkt_wire _ _ _
  | @notifyNew srv l ha hl hobs =>
      have hlittle : s.order = .little := hconf
      show notifyPkt s.order (some srv) true = _
      rw [hlittle]
      exact notifyPkt_wire _ _
  | @notifyDel srv n l hsrv hl hobs =>
      have hlittle : s.order = .little := hconf
      show notifyPkt s.order (some srv) false = _
      rw [hlittle]
      exact notifyPkt_wire _ _
  | @reply srv n l ha hsrv hobs =>
      have hlittle : s.order = .little := hconf
      show notifyPkt s.order (some srv) true = _
      rw [hlittle]
      exact notifyPkt_wire _ _
  | @replyEnd l ha =>
      have hlittle : s.order = .little := hconf
      show notifyPkt s.order none true = _
      rw [hlittle]
      exact notifyPkt_wire _ _
  | @bye srv n ha hsrv =>
      have hlittle : s.order = .little := hconf
      show byePkt s.order n = _
      rw [hlittle]
      exact byePkt_wire _
  | delClient ha hsrv => cases hconf

omit [LawfulMap T Server] in
/-- A packet that is as it should be on the wire comes from a conforming builder, if it is not a
    DEL_CLIENT. -/
theorem Sends.conforming (h : Sends s e a services m) (hwire : m.payload = m.call.wire)
    (hdelClient : ∀ n p, m.call ≠ .delClient n p) : Conforming s.order m.call := by
  cases h with
  | echo ha => trivial
  | announced ha hsrv => trivial
  | added ha hlocal => trivial
  | removed hsrv hlocal => trivial
  | notifyNew ha hl hobs => exact little_of_notifyPkt (some _) true hwire
  | notifyDel hsrv hl hobs => exact little_of_notifyPkt (some _) false hwire
  | reply ha hsrv hobs => exact little_of_notifyPkt (some _) true hwire
  | replyEnd ha => exact little_of_notifyPkt none true hwire
  | bye ha hsrv => exact little_of_byePkt hwire
  | delClient ha hsrv => exact absurd rfl (hdelClient _ _)

omit [LawfulMap T Server] in
/-- A datagram of `ctrl_cmd_del_client` shows the stack of the run that it comes from. -/
theorem Sends.delClient_payload (h : Sends s e a services m) {n p : UInt32}
    (hcall : m.call = .delClient n p) : m.payload = delClientPkt s.order e.stack n p := by
  cases h with
  | delClient ha hsrv =>
      cases hcall
      rfl
  | _ => cases hcall

end

/-- The datagram is the packet that it is meant to be: its exact encoding, which every receiver decodes,
    and which no run of a host of this byte order sends otherwise, whatever is on the stack. -/
structure Proper (order : HostOrder) (m : Msg) : Prop where
  exact : m.payload = m.call.wire
  decoded : ∀ (receiver : HostOrder) (dest : DecodedPacket) (buf : Mem) (sq : Sockaddr),
    sq.port = qrtrPortCtrl → buf.bytes 0 20 = m.payload →
      m.call.Recovered (qrtrDecode receiver dest buf 20 sq)
  determined : ∀ s : Ns (Map Server), s.Reachable → s.order = order →
    ∀ e, ∀ m' ∈ (nsStep s e).2, m'.call = m.call → m'.payload = m.payload

/-- The datagrams of a step in a reachable state, by the call they come from. -/
theorem sends_of_step {s : Ns (Map Server)} (hs : s.Reachable) {e : Event} {m : Msg}
    (hm : m ∈ (nsStep s e).2) : Sends s e (s.action e) (nsStep s e).1.services m := by
  obtain ⟨⟨rc, hhappens⟩, -⟩ := nsStep_happens hs.inv.nodesOk hs.inv.ok e
  exact hhappens.sends hs.inv.ok hm

/-- Some run sends a DEL_CLIENT for any given party, with any given bytes on the stack. -/
theorem exists_delClient (order : HostOrder) (n p : UInt32) (stack : Mem) :
    ∃ s : Ns (Map Server), s.Reachable ∧ s.order = order ∧
      ∃ e : Event, ∃ m ∈ (nsStep s e).2, m.call = .delClient n p ∧
        m.payload = delClientPkt order stack n p := by
  -- a server of another node that is the local one, and the DEL_CLIENT from the party itself
  obtain ⟨localNode, hother⟩ : ∃ localNode, n ≠ localNode := ⟨n + 1, by simp⟩
  have hone : (1 : UInt32) ≠ 0 := by decide
  have hfive : (5 : UInt32) ≠ 0 := by decide
  obtain ⟨srv, hsrv⟩ : ∃ srv : Server, srv =
    { service := 1, inst := 0, node := localNode, port := 5 } := ⟨_, rfl⟩
  obtain ⟨s, hs, hd, horder, hnode, hopen, hserver, -⟩ := afterRegister (T := Map Server) order
    localNode srv (by rw [hsrv]; exact hone) (by rw [hsrv]; exact hfive)
  obtain ⟨e, he⟩ : ∃ e, e = { Event.ofWords { node := n, port := p } [qrtrTypeDelClient, n, p, 0, 0]
    with stack := stack } := ⟨_, rfl⟩
  have hlen : e.received.length = 20 := by
    rw [he]
    exact Event.length_ofWords { node := n, port := p } qrtrTypeDelClient n p 0 0
  have hwords := Event.word_ofWords { node := n, port := p } qrtrTypeDelClient n p 0 0
  have hsame : ∀ o, e.word o =
      (Event.ofWords { node := n, port := p } [qrtrTypeDelClient, n, p, 0, 0]).word o := fun o => by
    rw [he]
    rfl
  simp only [← hsame] at hwords
  obtain ⟨h0, h4, h8, -⟩ := hwords
  have hsq : e.sq = { node := n, port := p } := by rw [he]; rfl
  have hallocs : e.allocs = [] := by rw [he]; rfl
  have haction : s.action e = .closePort n p := by
    rw [Ns.action, if_pos hopen, e.action_delClient_valid s.localNode (by omega) h0
      (by rw [hsq, h4]) (fun _ => by rw [hsq, h8]), h4, h8]
  obtain ⟨⟨rc, hhappens⟩, hnodes⟩ := nsStep_happens hs.inv.nodesOk hs.inv.ok e
  obtain ⟨hd', hserver', -⟩ := nsStep_refines hs.inv.toTablesOk hd
    (by rw [haction]; intro srv h; cases h) hallocs
  have hstays : (nsStep s e).1.server localNode srv.port = some srv := by
    rw [hserver', haction, hserver]
    simp [Action.servers, Ne.symm hother, hsrv]
  rw [haction] at hhappens
  obtain ⟨-, hmsgs⟩ := hhappens.closePort_exact hallocs
  refine ⟨s, hs, horder, e, delClientMsg s.order e.stack n p srv, ?_, rfl, ?_⟩
  · rw [hmsgs, hnode]
    apply List.mem_append_right
    exact List.mem_map_of_mem ((mem_forEach_server (hs.inv.toTablesOk.step e) hd').2 hstays)
  · rw [← horder, he]
    rfl

/-- A datagram that the name server originates is proper exactly if its builder converts and sets every
    word on this host. -/
theorem proper_iff_conforming {s : Ns (Map Server)} (hs : s.Reachable) (e : Event) {m : Msg}
    (hm : m ∈ (nsStep s e).2) (hecho : m.call ≠ .helloEcho) :
    Proper s.order m ↔ Conforming s.order m.call := by
  have hsends := sends_of_step hs hm
  constructor
  · intro h
    refine hsends.conforming h.exact fun n p hcall => ?_
    obtain ⟨s', hs', horder, e', m', hm', hcall', hpayload⟩ :=
      exists_delClient s.order n p fun _ => e.stack 12 + 1
    have hsame := h.determined s' hs' horder e' m' hm' (hcall'.trans hcall.symm)
    rw [hpayload, hsends.delClient_payload hcall] at hsame
    have hbytes : (Mem.bytes (fun _ => e.stack 12 + 1) 12 8)  = e.stack.bytes 12 8 :=
      List.append_cancel_left hsame
    have hbyte : e.stack 12 + 1 = e.stack 12 := (List.cons.inj hbytes).1
    simp at hbyte
  · intro hconf
    have hwire := hsends.payload_eq hecho hconf
    refine ⟨hwire, fun receiver dest buf sq hsq hbuf => ?_, fun s' hs' horder e' m' hm' hcall => ?_⟩
    · exact recovered_of_wire hsq (hbuf.trans hwire)
    · have hconf' : Conforming s'.order m'.call := by rwa [horder, hcall]
      rw [(sends_of_step hs' hm').payload_eq (by rwa [hcall]) hconf', hcall, hwire]

/-- The end of a lookup reply on a little-endian host. -/
theorem proper_iff_conforming_lookup :
    Proper .little (notifyMsg .little { node := 1, port := 5 } none true) :=
  (proper_iff_conforming (s := nsInit .little 1) ⟨.little, 1, [], rfl⟩
    (Event.ofWords { node := 1, port := 5 } [qrtrTypeNewLookup, 7, 0]) (by decide) (by decide)).2 rfl

/-- The end of a lookup reply on a big-endian host. -/
theorem not_proper : ¬ ∀ s : Ns (Map Server), s.Reachable → ∀ e, ∀ m ∈ (nsStep s e).2,
    m.call ≠ .helloEcho → Proper s.order m := by
  intro h
  have hproper := h (nsInit .big 1) ⟨.big, 1, [], rfl⟩
    (Event.ofWords { node := 1, port := 5 } [qrtrTypeNewLookup, 7, 0])
    (notifyMsg .big { node := 1, port := 5 } none true) (by decide) (by decide)
  have hexact := hproper.exact
  revert hexact
  decide

end Qrtr
