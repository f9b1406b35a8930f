/-
Module: Qrtr.NameServer.Packet
Layer: NameServer
Purpose: The control packets of `linux/qrtr.h` as bytes: 32-bit words in the memory of a host of either
  byte order, the conversions of `ns.h`, the packets that `ns.c` builds, and `qrtr_decode` of the client
  library. A word that went through `cpu_to_le32` lies in memory with its least significant byte first
  on every host; a word stored without it does so on a little-endian host only.
Imports: Qrtr.Foundation.ByteMemory, Qrtr.Qmi.Descriptor
Main exports: HostOrder, wordBytes, loadWord, cpuToLe32, le32ToCpu, le32, Sockaddr, Server, announcePkt,
  notifyPkt, byePkt, delClientPkt, qrtrDecode
Open obligations: none
-/
import Qrtr.Foundation.ByteMemory
import Qrtr.Qmi.Descriptor

namespace Qrtr

/-! ### Words in memory -/

/-- The byte order of a host. -/
inductive HostOrder where
  | little
  | big
deriving DecidableEq, Repr

/-- The bytes of a 32-bit word in the memory of a host. -/
def wordBytes (order : HostOrder) (w : UInt32) : List UInt8 :=
  match order with
  | .little => leBytes 4 w.toNat
  | .big => (leBytes 4 w.toNat).reverse

/-- The 32-bit word that a host reads from its bytes. -/
def loadWord (order : HostOrder) (bs : List UInt8) : UInt32 :=
  match order with
  | .little => UInt32.ofNat (leValue bs)
  | .big => UInt32.ofNat (leValue bs.reverse)

/-- The word with its bytes in the opposite order. -/
def swapWord (w : UInt32) : UInt32 := UInt32.ofNat (leValue (leBytes 4 w.toNat).reverse)

/-- `cpu_to_le32`. -/
def cpuToLe32 (order : HostOrder) (w : UInt32) : UInt32 :=
  match order with
  | .little => w
  | .big => swapWord w

/-- `le32_to_cpu`. -/
def le32ToCpu (order : HostOrder) (w : UInt32) : UInt32 :=
  match order with
  | .little => w
  | .big => swapWord w

/-- The little-endian encoding of a word. -/
def le32 (w : UInt32) : List UInt8 := leBytes 4 w.toNat

/-- The word that four bytes encode. -/
def ofLe32 (bs : List UInt8) : UInt32 := UInt32.ofNat (leValue bs)

@[simp] theorem length_wordBytes (order : HostOrder) (w : UInt32) :
    (wordBytes order w).length = 4 := by
  cases order <;> simp [wordBytes]

@[simp] theorem length_le32 (w : UInt32) : (le32 w).length = 4 := length_leBytes 4 w.toNat

/-- Four bytes are a word. -/
theorem leBytes_ofNat_leValue {bs : List UInt8} (h : bs.length = 4) :
    leBytes 4 (UInt32.ofNat (leValue bs)).toNat = bs := by
  have hlt := leValue_lt bs
  rw [h] at hlt
  have hvalue : (UInt32.ofNat (leValue bs)).toNat = leValue bs := UInt32.toNat_ofNat_of_lt hlt
  rw [hvalue, ← h, leBytes_leValue]

theorem le32_ofLe32 {bs : List UInt8} (h : bs.length = 4) : le32 (ofLe32 bs) = bs :=
  leBytes_ofNat_leValue h

@[simp] theorem ofLe32_le32 (w : UInt32) : ofLe32 (le32 w) = w := by
  have hlt : w.toNat < 256 ^ 4 := w.toNat_lt
  rw [ofLe32, le32, leValue_leBytes, Nat.mod_eq_of_lt hlt, UInt32.ofNat_toNat]

/-- A converted word lies in memory in wire order on every host. -/
@[simp] theorem wordBytes_cpuToLe32 (order : HostOrder) (w : UInt32) :
    wordBytes order (cpuToLe32 order w) = le32 w := by
  cases order with
  | little => rfl
  | big =>
      have hlen : (leBytes 4 w.toNat).reverse.length = 4 := by simp
      show (leBytes 4 (swapWord w).toNat).reverse = leBytes 4 w.toNat
      rw [swapWord, leBytes_ofNat_leValue hlen, List.reverse_reverse]

/-- Reading a word and converting it gives the word that its bytes encode on the wire. -/
@[simp] theorem le32ToCpu_loadWord (order : HostOrder) {bs : List UInt8} (h : bs.length = 4) :
    le32ToCpu order (loadWord order bs) = ofLe32 bs := by
  cases order with
  | little => rfl
  | big =>
      have hlen : bs.reverse.length = 4 := by simp [h]
      show swapWord (UInt32.ofNat (leValue bs.reverse)) = UInt32.ofNat (leValue bs)
      rw [swapWord, leBytes_ofNat_leValue hlen, List.reverse_reverse]

/-! ### Addresses, servers and packets -/

/-- `struct sockaddr_qrtr` without the family, which is always the same. -/
@[ext]
structure Sockaddr where
  node : UInt32
  port : UInt32
deriving DecidableEq, Repr

/-- `struct server` without the links that hold it in a map or a list. -/
structure Server where
  service : UInt32
  inst : UInt32
  node : UInt32
  port : UInt32
deriving DecidableEq, Repr

/-- `QRTR_NODE_BCAST`. -/
def qrtrNodeBcast : UInt32 := 0xffffffff

/-- `QRTR_PORT_CTRL`. -/
def qrtrPortCtrl : UInt32 := 0xfffffffe

/-- `QRTR_TYPE_HELLO`. -/
def qrtrTypeHello : UInt32 := 2
/-- `QRTR_TYPE_BYE`. -/
def qrtrTypeBye : UInt32 := 3
/-- `QRTR_TYPE_NEW_SERVER`. -/
def qrtrTypeNewServer : UInt32 := 4
/-- `QRTR_TYPE_DEL_SERVER`. -/
def qrtrTypeDelServer : UInt32 := 5
/-- `QRTR_TYPE_DEL_CLIENT`. -/
def qrtrTypeDelClient : UInt32 := 6
/-- `QRTR_TYPE_NEW_LOOKUP`. -/
def qrtrTypeNewLookup : UInt32 := 10
/-- `QRTR_TYPE_DEL_LOOKUP`. -/
def qrtrTypeDelLookup : UInt32 := 11

/-- The memory of a `struct qrtr_ctrl_pkt` with the given words, as far as they go. -/
def ctrlPkt (order : HostOrder) (words : List UInt32) : List UInt8 :=
  words.flatMap (wordBytes order)

/-- The packet of `service_announce_new` and `service_announce_del`, by its command. -/
def announcePkt (order : HostOrder) (cmd : UInt32) (srv : Server) : List UInt8 :=
  ctrlPkt order
    [cpuToLe32 order cmd, cpuToLe32 order srv.service, cpuToLe32 order srv.inst,
      cpuToLe32 order srv.node, cpuToLe32 order srv.port]

/-- The packet of `lookup_notify`; `none` is the NULL that ends a lookup reply. The command is stored as
    the host stores it. -/
def notifyPkt (order : HostOrder) (srv? : Option Server) (new : Bool) : List UInt8 :=
  ctrlPkt order [if new then qrtrTypeNewServer else qrtrTypeDelServer] ++
    match srv? with
    | none => List.replicate 16 0
    | some srv =>
        ctrlPkt order
          [cpuToLe32 order srv.service, cpuToLe32 order srv.inst, cpuToLe32 order srv.node,
            cpuToLe32 order srv.port]

/-- The packet of `ctrl_cmd_bye`, cleared before two of its words are stored as the host stores them. -/
def byePkt (order : HostOrder) (node : UInt32) : List UInt8 :=
  ctrlPkt order [qrtrTypeBye, node] ++ List.replicate 12 0

/-- The packet of `ctrl_cmd_del_client`, a variable that nothing clears: behind its three words lie the
    bytes that the stack held there. -/
def delClientPkt (order : HostOrder) (stack : Mem) (node port : UInt32) : List UInt8 :=
  ctrlPkt order [qrtrTypeDelClient, node, port] ++ stack.bytes 12 8

/-- The packet of `say_hello`. -/
def helloPkt (order : HostOrder) : List UInt8 :=
  ctrlPkt order [cpuToLe32 order qrtrTypeHello] ++ List.replicate 16 0

/-- The `server` member of a control packet on the wire. -/
def serverBytes (srv : Server) : List UInt8 :=
  le32 srv.service ++ (le32 srv.inst ++ (le32 srv.node ++ le32 srv.port))

theorem announcePkt_eq (order : HostOrder) (cmd : UInt32) (srv : Server) :
    announcePkt order cmd srv = le32 cmd ++ serverBytes srv := by
  simp [announcePkt, ctrlPkt, serverBytes]

theorem notifyPkt_some (order : HostOrder) (srv : Server) (new : Bool) :
    notifyPkt order (some srv) new =
      wordBytes order (if new then qrtrTypeNewServer else qrtrTypeDelServer) ++
        serverBytes srv := by
  simp [notifyPkt, ctrlPkt, serverBytes]

/-- The server that sixteen bytes encode. -/
def serverOfBytes (bs : List UInt8) : Server where
  service := ofLe32 (bs.take 4)
  inst := ofLe32 ((bs.drop 4).take 4)
  node := ofLe32 ((bs.drop 8).take 4)
  port := ofLe32 ((bs.drop 12).take 4)

@[simp] theorem serverOfBytes_serverBytes (srv : Server) :
    serverOfBytes (serverBytes srv) = srv := by
  simp [serverOfBytes, serverBytes, List.drop_append, List.drop_of_length_le, List.take_of_length_le]

/-- The word of a received packet at an offset, as `le32_to_cpu` gives it. -/
def ctrlWord (order : HostOrder) (buf : Mem) (offset : Nat) : UInt32 :=
  le32ToCpu order (loadWord order (buf.bytes offset 4))

theorem ctrlWord_eq (order : HostOrder) (buf : Mem) (offset : Nat) :
    ctrlWord order buf offset = ofLe32 (buf.bytes offset 4) :=
  le32ToCpu_loadWord order (Mem.length_bytes buf offset 4)

/-- The words that a host reads from a buffer that begins with five encoded words. -/
theorem ctrlWord_of_words (order : HostOrder) {buf : Mem} {a b c d f : UInt32}
    (h : buf.bytes 0 20 = [a, b, c, d, f].flatMap le32) :
    ctrlWord order buf 0 = a ∧ ctrlWord order buf 4 = b ∧ ctrlWord order buf 8 = c ∧
      ctrlWord order buf 12 = d ∧ ctrlWord order buf 16 = f := by
  have hsplit : buf.bytes 0 20 = buf.bytes 0 4 ++ (buf.bytes 4 4 ++ (buf.bytes 8 4 ++
      (buf.bytes 12 4 ++ buf.bytes 16 4))) := rfl
  rw [hsplit] at h
  simp only [List.flatMap_cons, List.flatMap_nil, List.append_nil] at h
  have hlen : ∀ o w, (buf.bytes o 4).length = (le32 w).length := fun o w => by simp
  obtain ⟨h0, h⟩ := List.append_inj h (hlen _ _)
  obtain ⟨h4, h⟩ := List.append_inj h (hlen _ _)
  obtain ⟨h8, h⟩ := List.append_inj h (hlen _ _)
  obtain ⟨h12, h16⟩ := List.append_inj h (hlen _ _)
  simp only [ctrlWord_eq, h0, h4, h8, h12, h16, ofLe32_le32, and_self]

/-! ### `qrtr_decode` -/

/-- `struct qrtr_packet` with the members that `qrtr_decode` fills. -/
structure DecodedPacket extends QrtrPacket where
  node : UInt32
  port : UInt32
  service : UInt32
  inst : UInt32
  version : UInt32

/-- `qrtr_decode` on a host: the return code (`-EMSGSIZE` is -90) and the packet. The `int` member `type`
    takes the 32-bit command as a two's complement number; 1 is `QRTR_TYPE_DATA`. -/
def qrtrDecode (order : HostOrder) (dest : DecodedPacket) (buf : Mem) (len : Nat) (sq : Sockaddr) :
    Int × DecodedPacket :=
  if sq.port = qrtrPortCtrl then
    if len < 20 then (-90, dest)
    else
      let cmd := ctrlWord order buf 0
      let dest := { dest with type := cmd.toInt32.toInt }
      if cmd = qrtrTypeBye then
        (0, { dest with node := ctrlWord order buf 4 })
      else if cmd = qrtrTypeDelClient then
        (0, { dest with node := ctrlWord order buf 4, port := ctrlWord order buf 8 })
      else if cmd = qrtrTypeNewServer ∨ cmd = qrtrTypeDelServer then
        (0,
          { dest with
            node := ctrlWord order buf 12
            port := ctrlWord order buf 16
            service := ctrlWord order buf 4
            version := ctrlWord order buf 8 &&& 0xff
            inst := ctrlWord order buf 8 >>> 8 })
      else (0, { dest with type := 0 })
  else
    (0,
      { dest with
        type := 1
        node := sq.node
        port := sq.port
        data := some buf
        dataLen := len })

end Qrtr
