/-
Module: Qrtr.Client.Lookup
Layer: Client
Purpose: The program `qrtr-lookup`, from its request to the lines it prints. It receives every packet into one
  variable, so that a short packet leaves the bytes of an earlier one behind; what is printed is nevertheless
  a function of the datagrams received alone, one line for each whole NEW_SERVER before the end marker, and no
  two servers have the same line.
Imports: NameServer.Receive, NameServer.Wire
Main exports: commonNames, serviceName, Row, rowOf, Row.text, rowOf_injective, text_injective, lookupPkt,
  LookupEnd, lookupLoop, listed, lookupLoop_eq
Open obligations: none
-/
import Qrtr.NameServer.Receive
import Qrtr.NameServer.Wire

namespace Qrtr

/-! ### The lines -/

/-- `DIAG_SERVICE`. -/
def diagService : UInt32 := 4097

/-- `common_names`: service, instance filter and name. -/
def commonNames : List (UInt32 × UInt32 × String) :=
  [(0, 0, "Control service"), (1, 0, "Wireless Data Service"), (2, 0, "Device Management Service"),
    (3, 0, "Network Access Service"), (4, 0, "Quality Of Service service"),
    (5, 0, "Wireless Messaging Service"), (6, 0, "Position Determination Service"),
    (7, 0, "Authentication service"), (8, 0, "AT service"), (9, 0, "Voice service"),
    (10, 0, "Card Application Toolkit service (v2)"), (11, 0, "User Identity Module service"),
    (12, 0, "Phonebook Management service"), (13, 0, "QCHAT service"),
    (14, 0, "Remote file system service"), (15, 0, "Test service"),
    (16, 0, "Location service (~ PDS v2)"), (17, 0, "Specific absorption rate service"),
    (18, 0, "IMS settings service"), (19, 0, "Analog to digital converter driver service"),
    (20, 0, "Core sound driver service"), (21, 0, "Modem embedded file system service"),
    (22, 0, "Time service"), (23, 0, "Thermal sensors service"),
    (24, 0, "Thermal mitigation device service"), (25, 0, "Service access proxy service"),
    (26, 0, "Wireless data administrative service"), (27, 0, "TSYNC control service"),
    (28, 0, "Remote file system access service"),
    (29, 0, "Circuit switched videotelephony service"),
    (30, 0, "Qualcomm mobile access point service"), (31, 0, "IMS presence service"),
    (32, 0, "IMS videotelephony service"), (33, 0, "IMS application service"),
    (34, 0, "Coexistence service"), (36, 0, "Persistent device configuration service"),
    (38, 0, "Simultaneous transmit service"), (39, 0, "Bearer independent transport service"),
    (40, 0, "IMS RTP service"), (41, 0, "RF radiated performance enhancement service"),
    (42, 0, "Data system determination service"), (43, 0, "Subsystem control service"),
    (47, 0, "Data Port Mapper service"), (48, 0, "QMI DFS service"),
    (49, 0, "IPA control service"), (50, 0, "UIMRMT service"),
    (51, 0, "CoreSight remote tracing service"), (52, 0, "Dynamic Heap Memory Sharing"),
    (55, 0, "QMI-SLIM service"), (56, 0, "LOWI (Location) service"), (57, 0, "WLPS service"),
    (64, 0, "Service registry locator service"), (66, 0, "Service registry notification service"),
    (69, 0, "ATH10k WLAN firmware service"), (70, 0, "LTE service"), (71, 0, "UIMHTTP service"),
    (75, 0, "QDMA service"), (76, 0, "SSGCCS service"), (77, 0, "IMS QMI Priv service"),
    (224, 0, "Card Application Toolkit service (v1)"), (225, 0, "Remote Management Service"),
    (226, 0, "Open Mobile Alliance device management service"),
    (231, 0, "Vendor-specific service"), (235, 0, "Modem service"),
    (256, 0, "Sensor Manager service"), (271, 0, "Sensor Registry service"),
    (312, 0, "QBT1000 Ultrasonic Fingerprint Sensor service"),
    (400, 0, "Snapdragon Sensor Core service"), (769, 0, "SLIMbus control service"),
    (770, 0, "IMS data service"), (771, 0, "Peripheral Access Control Manager service"),
    (4096, 0, "TFTP"), (diagService, 0, "DIAG service")]

/-- `diag_instance_base_str`. -/
def diagInstanceBaseStr (instanceBase : UInt32) : String :=
  if instanceBase = 0 then "MODEM"
  else if instanceBase = 1 then "LPASS"
  else if instanceBase = 2 then "WCNSS"
  else if instanceBase = 3 then "SENSORS"
  else if instanceBase = 4 then "CDSP"
  else if instanceBase = 5 then "WDSP"
  else "<unk>"

/-- `diag_instance_str`. -/
def diagInstanceStr (inst : UInt32) : String :=
  if inst = 0 then "CNTL"
  else if inst = 1 then "CMD"
  else if inst = 2 then "DATA"
  else if inst = 3 then "DCI_CMD"
  else if inst = 4 then "DCI"
  else "<unk>"

/-- `get_diag_instance_info`: the text before `snprintf` cuts it to the buffer. -/
def getDiagInstanceInfo (inst : UInt32) : String :=
  diagInstanceBaseStr (inst >>> 6) ++ ":" ++ diagInstanceStr (inst &&& 0x3f)

/-- The loop over `common_names`: the last entry that fits gives the name. -/
def serviceName (service inst : UInt32) : String :=
  (commonNames.foldl
    (fun name entry =>
      if service ≠ entry.1 then name
      else if inst ≠ 0 ∧ inst &&& entry.2.1 ≠ entry.2.1 then name
      else some entry.2.2)
    none).getD "<unknown>"

/-- What one line is about. A server of the DIAG service has no version but a text for its instance. -/
inductive Row where
  | diag (service inst node port : UInt32) (name info : String)
  | plain (service version inst node port : UInt32) (name : String)
deriving DecidableEq, Repr

/-- The line for a server. `snprintf` cuts the text for the instance to a buffer of 24 bytes. -/
def rowOf (srv : Server) : Row :=
  let name := serviceName srv.service (srv.inst >>> 8)
  if srv.service = diagService then
    .diag srv.service srv.inst srv.node srv.port name ((getDiagInstanceInfo srv.inst).take 23).toString
  else .plain srv.service (srv.inst &&& 0xff) (srv.inst >>> 8) srv.node srv.port name

/-- `%u` with a field width. -/
def padded (width : Nat) (w : UInt32) : String := String.leftpad width ' ' (toString w)

/-- The line as `printf` writes it. -/
def Row.text : Row → String
  | .diag service inst node port name info =>
      padded 9 service ++ " N/A " ++ padded 8 inst ++ " " ++ padded 4 node ++ " " ++ padded 5 port ++
        " " ++ name ++ " (" ++ info ++ ")"
  | .plain service version inst node port name =>
      padded 9 service ++ " " ++ padded 7 version ++ " " ++ padded 8 inst ++ " " ++ padded 4 node ++
        " " ++ padded 5 port ++ " " ++ name

/-- Different servers have different lines. -/
theorem rowOf_injective : Function.Injective rowOf := by
  intro a b h
  obtain ⟨service, inst, node, port⟩ := a
  obtain ⟨service', inst', node', port'⟩ := b
  by_cases ha : service = diagService
  · by_cases hb : service' = diagService
    · simp only [rowOf, ha, hb, if_true, Row.diag.injEq] at h
      rw [ha, hb, h.2.1, h.2.2.1, h.2.2.2.1]
    · simp only [rowOf, ha, hb, if_true, if_false, reduceCtorEq] at h
  · by_cases hb : service' = diagService
    · simp only [rowOf, ha, hb, if_true, if_false, reduceCtorEq] at h
    · simp only [rowOf, ha, hb, if_false, Row.plain.injEq] at h
      obtain ⟨hservice, hversion, hinst, hnode, hport, -⟩ := h
      have hword : inst = inst' := by
        rw [← UInt32.toNat_inj, ← instance_version inst, ← instance_version inst', hversion, hinst]
      rw [hservice, hword, hnode, hport]

/-! ### The printed text -/

theorem ne_blank_of_mem_toDigits {n : Nat} {c : Char} (h : c ∈ Nat.toDigits 10 n) : c ≠ ' ' := by
  rintro rfl
  exact absurd (Nat.isDigit_of_mem_toDigits (by decide) (by decide) h) (by decide)

/-- Behind its blanks a padded number shows its digits. -/
theorem dropWhile_padded (width : Nat) (w : UInt32) (rest : List Char) :
    ((padded width w).toList ++ rest).dropWhile (· = ' ') =
      (Nat.toDigits 10 w.toNat ++ rest).dropWhile (· = ' ') := by
  have htext : (padded width w).toList =
      List.replicate (width - (Nat.toDigits 10 w.toNat).length) ' ' ++ Nat.toDigits 10 w.toNat := by
    have hnumber : toString w = w.toNat.repr := rfl
    have hpadded : padded width w = .ofList (List.leftpad width ' ' (toString w).toList) := rfl
    rw [hpadded, hnumber, String.toList_ofList, List.leftpad, Nat.toList_repr]
  rw [htext, List.append_assoc, List.dropWhile_append_of_pos]
  intro c hc
  simp [List.eq_of_mem_replicate hc]

/-- A padded number in front of a blank can be read off, and so can what follows. -/
theorem padded_append_inj {width : Nat} {w w' : UInt32} {rest rest' : List Char}
    (h : (padded width w).toList ++ ' ' :: rest = (padded width w').toList ++ ' ' :: rest') :
    w = w' ∧ rest = rest' := by
  have hblanks : ∀ (n : Nat) (rest : List Char),
      (Nat.toDigits 10 n ++ rest).dropWhile (· = ' ') = Nat.toDigits 10 n ++ rest := by
    intro n rest
    cases hdigits : Nat.toDigits 10 n with
    | nil => exact absurd hdigits Nat.toDigits_ne_nil
    | cons c cs =>
        have hc : c ≠ ' ' := ne_blank_of_mem_toDigits (hdigits ▸ List.mem_cons_self)
        simp [hc]
  have hfront : ∀ (n : Nat) (rest : List Char),
      (Nat.toDigits 10 n ++ ' ' :: rest).takeWhile (· ≠ ' ') = Nat.toDigits 10 n := by
    intro n rest
    rw [List.takeWhile_append_of_pos fun c hc => decide_eq_true (ne_blank_of_mem_toDigits hc)]
    simp
  have hline : Nat.toDigits 10 w.toNat ++ ' ' :: rest = Nat.toDigits 10 w'.toNat ++ ' ' :: rest' := by
    have hdropped := congrArg (List.dropWhile (· = ' ')) h
    rwa [dropWhile_padded, dropWhile_padded, hblanks, hblanks] at hdropped
  have hdigits : Nat.toDigits 10 w.toNat = Nat.toDigits 10 w'.toNat := by
    have htaken := congrArg (List.takeWhile (· ≠ ' ')) hline
    rwa [hfront, hfront] at htaken
  have hw : w = w' := by
    rw [← UInt32.toNat_inj, ← @Nat.ofDigitChars_ten_toDigits w.toNat, hdigits, Nat.ofDigitChars_ten_toDigits]
  subst hw
  exact ⟨rfl, (List.cons.inj (List.append_cancel_left hline)).2⟩

theorem toList_diag (service inst node port : UInt32) (name info : String) :
    (Row.diag service inst node port name info).text.toList =
      (padded 9 service).toList ++ ' ' :: ("N/A ".toList ++ ((padded 8 inst).toList ++ ' ' ::
        ((padded 4 node).toList ++ ' ' :: ((padded 5 port).toList ++ ' ' ::
          (name ++ " (" ++ info ++ ")").toList)))) := by
  simp [Row.text]

theorem toList_plain (service version inst node port : UInt32) (name : String) :
    (Row.plain service version inst node port name).text.toList =
      (padded 9 service).toList ++ ' ' :: ((padded 7 version).toList ++ ' ' ::
        ((padded 8 inst).toList ++ ' ' :: ((padded 4 node).toList ++ ' ' ::
          ((padded 5 port).toList ++ ' ' :: name.toList)))) := by
  simp [Row.text]

/-- What is printed for a server tells which server it is. -/
theorem text_injective : Function.Injective fun srv => (rowOf srv).text := by
  intro a b h
  have hline : (rowOf a).text.toList = (rowOf b).text.toList := congrArg String.toList h
  refine rowOf_injective ?_
  rw [rowOf, rowOf] at hline ⊢
  by_cases ha : a.service = diagService
  · by_cases hb : b.service = diagService
    · rw [if_pos ha, if_pos hb, toList_diag, toList_diag] at hline
      obtain ⟨-, hline⟩ := padded_append_inj hline
      obtain ⟨hinst, hline⟩ := padded_append_inj (List.append_cancel_left hline)
      obtain ⟨hnode, hline⟩ := padded_append_inj hline
      obtain ⟨hport, -⟩ := padded_append_inj hline
      rw [ha, hb, hinst, hnode, hport]
    · rw [if_pos ha, if_neg hb, toList_diag, toList_plain] at hline
      exact absurd ((padded_append_inj hline).1.symm.trans ha) hb
  · by_cases hb : b.service = diagService
    · rw [if_neg ha, if_pos hb, toList_plain, toList_diag] at hline
      exact absurd ((padded_append_inj hline).1.trans hb) ha
    · rw [if_neg ha, if_neg hb, toList_plain, toList_plain] at hline
      obtain ⟨hservice, hline⟩ := padded_append_inj hline
      obtain ⟨hversion, hline⟩ := padded_append_inj hline
      obtain ⟨hinst, hline⟩ := padded_append_inj hline
      obtain ⟨hnode, hline⟩ := padded_append_inj hline
      obtain ⟨hport, -⟩ := padded_append_inj hline
      rw [if_neg ha, if_neg hb, hservice, hversion, hinst, hnode, hport]

/-! ### The program -/

/-- The packet of the request. `service` and `inst` are the numbers of the command line, 0 where there is
    none. -/
def lookupPkt (order : HostOrder) (service inst : UInt32) : List UInt8 :=
  ctrlPkt order
    [cpuToLe32 order qrtrTypeNewLookup, cpuToLe32 order service, cpuToLe32 order inst, 0, 0]

/-- How the loop ends: the program returns 0, `recv` has failed, or it still waits in `recv`. -/
inductive LookupEnd where
  | returned
  | failed
  | waiting
deriving DecidableEq, Repr

/-- The server in the variable `pkt`. -/
def serverOfPkt (order : HostOrder) (pkt : Mem) : Server where
  service := ctrlWord order pkt 4
  inst := ctrlWord order pkt 8
  node := ctrlWord order pkt 12
  port := ctrlWord order pkt 16

/-- No word of the server in the variable `pkt` has a bit set. -/
def endMarker (order : HostOrder) (pkt : Mem) : Bool :=
  loadWord order (pkt.bytes 4 4) = 0 ∧ loadWord order (pkt.bytes 8 4) = 0 ∧
    loadWord order (pkt.bytes 12 4) = 0 ∧ loadWord order (pkt.bytes 16 4) = 0

/-- The loop around `recv`, which hands over an error (`none`) or what fits of a datagram. -/
def lookupLoop (order : HostOrder) : Mem → List (Option (List UInt8)) → List Row × LookupEnd
  | _, [] => ([], .waiting)
  | _, none :: _ => ([], .failed)
  | pkt, some datagram :: rest =>
      let received := datagram.take 20
      let pkt := pkt.write 0 received
      if received.length = 0 then ([], .returned)
      else if received.length < 20 ∨ ctrlWord order pkt 0 ≠ qrtrTypeNewServer then
        lookupLoop order pkt rest
      else if endMarker order pkt then ([], .returned)
      else
        let r := lookupLoop order pkt rest
        (rowOf (serverOfPkt order pkt) :: r.1, r.2)

/-- The servers that a sequence of datagrams lists up to the end marker. -/
def listed : List (Option (List UInt8)) → List Server × LookupEnd
  | [] => ([], .waiting)
  | none :: _ => ([], .failed)
  | some datagram :: rest =>
      if datagram = [] then ([], .returned)
      else if 20 ≤ datagram.length ∧ receivedWord datagram 0 = qrtrTypeNewServer then
        let srv := serverOfBytes (datagram.drop 4)
        if srv = { service := 0, inst := 0, node := 0, port := 0 } then ([], .returned)
        else (srv :: (listed rest).1, (listed rest).2)
      else listed rest

/-! ### What is printed -/

theorem swapWord_swapWord (w : UInt32) : swapWord (swapWord w) = w := by
  have hlen : (leBytes 4 w.toNat).reverse.length = 4 := by simp
  rw [swapWord, swapWord, leBytes_ofNat_leValue hlen, List.reverse_reverse]
  exact ofLe32_le32 w

/-- A word is zero in the memory of a host if it is zero on the wire. -/
theorem loadWord_eq_zero_iff (order : HostOrder) {bs : List UInt8} (h : bs.length = 4) :
    loadWord order bs = 0 ↔ ofLe32 bs = 0 := by
  rw [← le32ToCpu_loadWord order h]
  cases order with
  | little => exact Iff.rfl
  | big =>
      change loadWord .big bs = 0 ↔ swapWord (loadWord .big bs) = 0
      constructor
      · intro hzero
        rw [hzero]
        rfl
      · intro hzero
        rw [← swapWord_swapWord (loadWord .big bs), hzero]
        rfl

/-- A word of a whole packet is the word received. -/
theorem ctrlWord_received (order : HostOrder) (pkt : Mem) {datagram : List UInt8} {offset : Nat}
    (hlen : 20 ≤ datagram.length) (hoffset : offset + 4 ≤ 20) :
    ctrlWord order (pkt.write 0 (datagram.take 20)) offset = ofLe32 ((datagram.drop offset).take 4) := by
  have hword : ctrlWord order (pkt.write 0 (datagram.take 20)) offset =
      bufferWord pkt (datagram.take 20) offset := ctrlWord_eq ..
  rw [hword, bufferWord_of_le (by rw [List.length_take]; omega), receivedWord, List.drop_take,
    List.take_take, Nat.min_eq_left (by omega)]

/-- The variable holds the server of the packet received. -/
theorem serverOfPkt_received (order : HostOrder) (pkt : Mem) {datagram : List UInt8}
    (hlen : 20 ≤ datagram.length) :
    serverOfPkt order (pkt.write 0 (datagram.take 20)) = serverOfBytes (datagram.drop 4) := by
  simp only [serverOfPkt, serverOfBytes, ctrlWord_received order pkt hlen, List.drop_drop, Nat.reduceAdd,
    Nat.reduceLeDiff]

theorem endMarker_iff (order : HostOrder) (pkt : Mem) :
    endMarker order pkt = true ↔
      serverOfPkt order pkt = { service := 0, inst := 0, node := 0, port := 0 } := by
  simp only [endMarker, decide_eq_true_eq, loadWord_eq_zero_iff order (Mem.length_bytes ..), serverOfPkt,
    Server.mk.injEq, ctrlWord_eq]

section

variable {datagram : List UInt8} (rest : List (Option (List UInt8)))

/-- A short packet, or one with another command, lists nothing. -/
theorem listed_skip (hempty : datagram ≠ [])
    (hnot : ¬ (20 ≤ datagram.length ∧ receivedWord datagram 0 = qrtrTypeNewServer)) :
    listed (some datagram :: rest) = listed rest := by
  rw [listed, if_neg hempty, if_neg hnot]

theorem listed_server (hlen : 20 ≤ datagram.length) (hnew : receivedWord datagram 0 = qrtrTypeNewServer)
    (hserver : serverOfBytes (datagram.drop 4) ≠ { service := 0, inst := 0, node := 0, port := 0 }) :
    listed (some datagram :: rest) =
      (serverOfBytes (datagram.drop 4) :: (listed rest).1, (listed rest).2) := by
  have hempty : datagram ≠ [] := fun hnil => by simp [hnil] at hlen
  rw [listed, if_neg hempty, if_pos ⟨hlen, hnew⟩]
  exact if_neg hserver

theorem listed_end (hlen : 20 ≤ datagram.length) (hnew : receivedWord datagram 0 = qrtrTypeNewServer)
    (hserver : serverOfBytes (datagram.drop 4) = { service := 0, inst := 0, node := 0, port := 0 }) :
    listed (some datagram :: rest) = ([], .returned) := by
  have hempty : datagram ≠ [] := fun hnil => by simp [hnil] at hlen
  rw [listed, if_neg hempty, if_pos ⟨hlen, hnew⟩]
  exact if_pos hserver

end

/-- What the program prints, and how it ends, depends on the datagrams received alone: not on the byte order
    of the host, nor on what a short packet leaves in the variable. -/
theorem lookupLoop_eq (order : HostOrder) (pkt : Mem) (inputs : List (Option (List UInt8))) :
    lookupLoop order pkt inputs = ((listed inputs).1.map rowOf, (listed inputs).2) := by
  induction inputs generalizing pkt with
  | nil => rfl
  | cons input rest ih =>
      cases input with
      | none => rfl
      | some datagram =>
          have hlength : (datagram.take 20).length = min 20 datagram.length := List.length_take
          by_cases hempty : datagram = []
          · rw [hempty]
            rfl
          · have hpos : 0 < datagram.length := List.length_pos_iff.2 hempty
            rw [lookupLoop]
            simp only [hlength]
            rw [if_neg (by omega)]
            by_cases hwhole : 20 ≤ datagram.length ∧ receivedWord datagram 0 = qrtrTypeNewServer
            · obtain ⟨hlen, hnew⟩ := hwhole
              have hcmd : ctrlWord order (pkt.write 0 (datagram.take 20)) 0 = qrtrTypeNewServer :=
                (ctrlWord_received order pkt hlen (by omega)).trans hnew
              have hserver := serverOfPkt_received order pkt hlen
              have hread : ¬ (min 20 datagram.length < 20 ∨
                  ctrlWord order (pkt.write 0 (datagram.take 20)) 0 ≠ qrtrTypeNewServer) := by
                rintro (hshort | hother)
                · omega
                · exact hother hcmd
              rw [if_neg hread, hserver, ih]
              by_cases hend : serverOfBytes (datagram.drop 4) =
                  { service := 0, inst := 0, node := 0, port := 0 }
              · rw [listed_end rest hlen hnew hend, if_pos ((endMarker_iff ..).2 (hserver.trans hend))]
                rfl
              · rw [listed_server rest hlen hnew hend,
                  if_neg fun h => hend (hserver.symm.trans ((endMarker_iff ..).1 h))]
                rfl
            · have hskipped : min 20 datagram.length < 20 ∨
                  ctrlWord order (pkt.write 0 (datagram.take 20)) 0 ≠ qrtrTypeNewServer := by
                by_cases hlen : 20 ≤ datagram.length
                · refine Or.inr fun hcmd => hwhole ⟨hlen, ?_⟩
                  exact (ctrlWord_received order pkt hlen (by omega)).symm.trans hcmd
                · exact Or.inl (by omega)
              rw [if_pos hskipped, ih, listed_skip rest hempty hwhole]

end Qrtr
