/-
Module: Qrtr.NameServer.Receive
Layer: NameServer
Purpose: What the receive buffer held before. `ctrl_port_fn` checks that a datagram has the 4 bytes of a
  command and then reads whatever words the handler wants, so that behind a short datagram it reads
  what an earlier one left there. `Covered` says for a sender and the bytes received which datagrams
  are handled by what was received alone; for every other one there are a reachable state and two
  buffers that make a difference.
Imports: Qrtr.NameServer.Effects
Main exports: Agrees, Covered, Event.Settled, nsStep_settled, SameEffect, StaleFree,
  staleFree_iff_covered
Open obligations: none
-/
import Qrtr.NameServer.Effects

namespace Qrtr

open MapOps LawfulMap

/-! ### Words behind the end of a datagram -/

/-- The word of the buffer at an offset, after the bytes have been received. -/
def bufferWord (stale : Mem) (bs : List UInt8) (offset : Nat) : UInt32 :=
  ofLe32 ((stale.write 0 bs).bytes offset 4)

/-- The word at an offset of the bytes received. -/
def receivedWord (bs : List UInt8) (offset : Nat) : UInt32 := ofLe32 ((bs.drop offset).take 4)

/-- The bytes received at an offset agree with a word as far as they go. -/
def Agrees (bs : List UInt8) (offset : Nat) (w : UInt32) : Prop :=
  (bs.drop offset).take 4 <+: le32 w

/-- The bytes of a word of the buffer: those received and, behind them, those left over. -/
theorem bytes_write_zero (stale : Mem) (bs : List UInt8) (offset : Nat) :
    (stale.write 0 bs).bytes offset 4 =
      (bs.drop offset).take 4 ++
        (stale.bytes offset 4).drop ((bs.drop offset).take 4).length := by
  apply List.ext_getElem?
  intro i
  rw [Mem.getElem?_bytes, List.getElem?_append]
  by_cases hi : i < 4
  · rw [if_pos hi]
    by_cases hlen : i < ((bs.drop offset).take 4).length
    · have hb : offset + i < bs.length := by
        simp only [List.length_take, List.length_drop] at hlen
        omega
      rw [if_pos hlen, List.getElem?_take_of_lt hi, List.getElem?_drop, List.getElem?_eq_getElem hb]
      have hget : bs[offset + i]? = some bs[offset + i] := List.getElem?_eq_getElem hb
      simp [Mem.write, hget]
    · have hb : bs.length ≤ offset + i := by
        simp only [List.length_take, List.length_drop] at hlen
        omega
      have hsum : ((bs.drop offset).take 4).length + (i - ((bs.drop offset).take 4).length) = i := by
        omega
      rw [if_neg hlen, List.getElem?_drop, hsum, Mem.getElem?_bytes, if_pos hi,
        Mem.write_of_ge (by omega)]
  · have hlen : ¬ i < ((bs.drop offset).take 4).length := by
      simp only [List.length_take]
      omega
    have hsum : ((bs.drop offset).take 4).length + (i - ((bs.drop offset).take 4).length) = i := by
      omega
    rw [if_neg hi, if_neg hlen, List.getElem?_drop, hsum, Mem.getElem?_bytes, if_neg hi]

/-- A word that was received whole does not depend on what was there before. -/
theorem bufferWord_of_le {stale : Mem} {bs : List UInt8} {offset : Nat}
    (h : offset + 4 ≤ bs.length) : bufferWord stale bs offset = receivedWord bs offset := by
  have hlen : ((bs.drop offset).take 4).length = 4 := by
    simp only [List.length_take, List.length_drop]
    omega
  have hrest : (stale.bytes offset 4).drop 4 = [] :=
    List.drop_of_length_le (Nat.le_of_eq (Mem.length_bytes _ _ _))
  rw [bufferWord, receivedWord, bytes_write_zero, hlen, hrest, List.append_nil]

/-- The received part of a word of the buffer agrees with it. -/
theorem agrees_bufferWord (stale : Mem) (bs : List UInt8) (offset : Nat) :
    Agrees bs offset (bufferWord stale bs offset) := by
  rw [Agrees, bufferWord, le32_ofLe32 (Mem.length_bytes _ _ _), bytes_write_zero]
  exact List.prefix_append _ _

/-- A buffer that holds a word, overwritten by bytes that agree with it, holds the word. -/
theorem bufferWord_of_agrees {stale : Mem} {bs : List UInt8} {offset : Nat} {w : UInt32}
    (h : Agrees bs offset w) (hstale : stale.bytes offset 4 = le32 w) :
    bufferWord stale bs offset = w := by
  obtain ⟨rest, hrest⟩ := h
  rw [bufferWord, bytes_write_zero, hstale, ← hrest, List.drop_left, hrest, ofLe32_le32]

theorem leValue_div_top {bs : List UInt8} {b : UInt8} (hlen : bs.length = 4)
    (htop : bs[3]? = some b) : leValue bs / 2 ^ 24 = b.toNat := by
  match bs, hlen with
  | [b0, b1, b2, b3], _ =>
      have hb : b3 = b := by simpa using htop
      have h0 := b0.toNat_lt
      have h1 := b1.toNat_lt
      have h2 := b2.toNat_lt
      simp only [leValue, hb]
      omega

/-- The top byte of a word that was not received whole is the one that was there before. -/
theorem bufferWord_top {stale : Mem} {bs : List UInt8} {offset : Nat} {w : UInt32}
    (h : bs.length < offset + 4) (hstale : stale.bytes offset 4 = le32 w) :
    (bufferWord stale bs offset).toNat / 2 ^ 24 = w.toNat / 2 ^ 24 := by
  have hbyte : ∀ m : Mem, (m.bytes offset 4)[3]? = some (m (offset + 3)) := fun m => by
    rw [Mem.getElem?_bytes, if_pos (by omega)]
  have hvalue : ∀ m : Mem, (ofLe32 (m.bytes offset 4)).toNat / 2 ^ 24 = (m (offset + 3)).toNat := by
    intro m
    have hlt := leValue_bytes_lt m offset 4
    have hnat : (ofLe32 (m.bytes offset 4)).toNat = leValue (m.bytes offset 4) :=
      UInt32.toNat_ofNat_of_lt hlt
    rw [hnat]
    exact leValue_div_top (Mem.length_bytes _ _ _) (hbyte m)
  have hw : w = ofLe32 (stale.bytes offset 4) := by rw [hstale, ofLe32_le32]
  rw [bufferWord, hw, hvalue, hvalue, Mem.write_of_ge (by omega)]

/-! ### Datagrams that are handled by what was received -/

/-- What the handling of a datagram depends on was received: for each command the words that its handler
    looks at for this sender, unless the part received already settles that nothing happens. -/
def Covered (localNode : UInt32) (sq : Sockaddr) (bs : List UInt8) : Prop :=
  let cmd := receivedWord bs 0
  if cmd = qrtrTypeDelClient then
    12 ≤ bs.length ∨ ¬ Agrees bs 4 sq.node ∨ sq.node = localNode ∧ ¬ Agrees bs 8 sq.port
  else if cmd = qrtrTypeNewServer then
    (8 ≤ bs.length ∧ receivedWord bs 4 = 0) ∨
      (sq.node = localNode ∧ (12 ≤ bs.length ∨ sq.port = 0)) ∨
      (sq.node ≠ localNode ∧ (20 ≤ bs.length ∨ ¬ Agrees bs 12 sq.node))
  else if cmd = qrtrTypeDelServer then
    sq.node = localNode ∨ 20 ≤ bs.length ∨ ¬ Agrees bs 12 sq.node
  else if cmd = qrtrTypeNewLookup ∨ cmd = qrtrTypeDelLookup then
    sq.node ≠ localNode ∨ 12 ≤ bs.length
  else True

section

variable {T : Type} [MapOps T Server]

theorem ctrlCmdDelClient_spoofed (w : Exec T) {sq : Sockaddr} {node port : UInt32}
    (h : sq.node ≠ node ∨ sq.node = w.localNode ∧ sq.port ≠ port) :
    ctrlCmdDelClient w sq node port = (-22, w) := by
  rw [ctrlCmdDelClient]
  rcases h with hnode | hport
  · rw [if_pos hnode]
  · rw [if_pos hport]
    split <;> rfl

theorem ctrlCmdNewServer_spoofed (w : Exec T) {sq : Sockaddr} {service inst node port : UInt32}
    (hremote : sq.node ≠ w.localNode) (h : sq.node ≠ node) :
    ctrlCmdNewServer w sq service inst node port = (-22, w) := by
  simp [ctrlCmdNewServer, hremote, h]

/-- `server_add` refuses a server without a service or a port. -/
theorem ctrlCmdNewServer_zero (w : Exec T) {sq : Sockaddr} {service inst node port : UInt32}
    (h : service = 0 ∨ sq.node = w.localNode ∧ sq.port = 0) :
    ctrlCmdNewServer w sq service inst node port = (-22, w) := by
  by_cases hlocal : sq.node = w.localNode
  · have hrefuse : serverAdd w service inst sq.node sq.port = (none, w) := by
      rw [serverAdd, if_pos (h.imp id And.right)]
    simp only [ctrlCmdNewServer, if_pos hlocal, ne_eq, not_true_eq_false, if_false, hrefuse]
  · have hservice : service = 0 := h.resolve_right fun hport => hlocal hport.1
    have hrefuse : serverAdd w service inst node port = (none, w) := by
      rw [serverAdd, if_pos (Or.inl hservice)]
    simp only [ctrlCmdNewServer, if_neg hlocal, hrefuse]
    split <;> rfl

theorem ctrlCmdDelServer_spoofed (w : Exec T) {sq : Sockaddr} {service inst node port : UInt32}
    (hremote : sq.node ≠ w.localNode) (h : sq.node ≠ node) :
    ctrlCmdDelServer w sq service inst node port = (-22, w) := by
  simp [ctrlCmdDelServer, hremote, h]

/-- A local NEW_SERVER or DEL_SERVER does not look at the node and the port in the message. -/
theorem ctrlCmdNewServer_local (w : Exec T) {sq : Sockaddr} (service inst node port : UInt32)
    (hlocal : sq.node = w.localNode) :
    ctrlCmdNewServer w sq service inst node port =
      ctrlCmdNewServer w sq service inst sq.node sq.port := by
  simp [ctrlCmdNewServer, hlocal]

theorem ctrlCmdDelServer_local (w : Exec T) {sq : Sockaddr} (service inst node port : UInt32)
    (hlocal : sq.node = w.localNode) :
    ctrlCmdDelServer w sq service inst node port = ctrlCmdDelServer w sq 0 0 sq.node sq.port := by
  simp [ctrlCmdDelServer, hlocal]

theorem ctrlCmdNewLookup_remote (w : Exec T) {sq : Sockaddr} (service inst : UInt32)
    (hremote : sq.node ≠ w.localNode) : ctrlCmdNewLookup w sq service inst = (-22, w) := by
  rw [ctrlCmdNewLookup, if_pos hremote]

omit [MapOps T Server] in
/-- A remote DEL_LOOKUP finds no lookup of its sender. -/
theorem ctrlCmdDelLookup_remote {w : Exec T} (hlookups : ∀ l ∈ w.lookups, l.sq.node = w.localNode)
    {sq : Sockaddr} (service inst : UInt32) (hremote : sq.node ≠ w.localNode) :
    ctrlCmdDelLookup w sq service inst = (0, w) := by
  have hkeep : (w.lookups.filter fun lookup =>
      !(lookup.sq.node == sq.node && lookup.sq.port == sq.port && lookup.service == service &&
        (lookup.inst == 0 || lookup.inst == inst))) = w.lookups := by
    apply List.filter_eq_self.2
    intro l hl
    have hne : ¬ w.localNode = sq.node := Ne.symm hremote
    simp [hlookups l hl, hne]
  rw [ctrlCmdDelLookup, hkeep]

variable {s : Ns T} {e : Event} {stale : Mem}

omit [MapOps T Server] in
theorem bufferWord_eq_word {offset : Nat} (h : offset + 4 ≤ e.received.length) :
    bufferWord stale e.received offset = e.word offset :=
  (bufferWord_of_le h).trans (bufferWord_of_le h).symm

omit [MapOps T Server] in
theorem bufferWord_ne {offset : Nat} {w : UInt32} (h : ¬ Agrees e.received offset w) (m : Mem) :
    w ≠ bufferWord m e.received offset := by
  rintro rfl
  exact h (agrees_bufferWord m _ _)

omit [MapOps T Server] in
theorem word_ne {offset : Nat} {w : UInt32} (h : ¬ Agrees e.received offset w) : w ≠ e.word offset :=
  bufferWord_ne h e.stale

/-- A covered NEW_SERVER is handled alike with any two buffers. -/
theorem ctrlCmdNewServer_covered
    (h : (8 ≤ e.received.length ∧ receivedWord e.received 4 = 0) ∨
      (e.sq.node = s.localNode ∧ (12 ≤ e.received.length ∨ e.sq.port = 0)) ∨
      (e.sq.node ≠ s.localNode ∧ (20 ≤ e.received.length ∨ ¬ Agrees e.received 12 e.sq.node))) :
    ctrlCmdNewServer (s.exec e) e.sq (bufferWord stale e.received 4) (bufferWord stale e.received 8)
        (bufferWord stale e.received 12) (bufferWord stale e.received 16) =
      ctrlCmdNewServer (s.exec e) e.sq (e.word 4) (e.word 8) (e.word 12) (e.word 16) := by
  rcases h with ⟨hlen, hzero⟩ | ⟨hlocal, hlen | hport⟩ | ⟨hremote, hlen | hagrees⟩
  · have hservice : e.word 4 = 0 := (bufferWord_of_le hlen).trans hzero
    rw [bufferWord_eq_word hlen, ctrlCmdNewServer_zero _ (Or.inl hservice),
      ctrlCmdNewServer_zero _ (Or.inl hservice)]
  · rw [ctrlCmdNewServer_local _ _ _ _ _ hlocal, ctrlCmdNewServer_local _ _ _ (e.word 12) _ hlocal,
      bufferWord_eq_word (by omega), bufferWord_eq_word (by omega)]
  · rw [ctrlCmdNewServer_zero _ (Or.inr ⟨hlocal, hport⟩),
      ctrlCmdNewServer_zero _ (Or.inr ⟨hlocal, hport⟩)]
  · rw [bufferWord_eq_word (by omega), bufferWord_eq_word (by omega), bufferWord_eq_word (by omega),
      bufferWord_eq_word (by omega)]
  · rw [ctrlCmdNewServer_spoofed (s.exec e) hremote (bufferWord_ne hagrees _),
      ctrlCmdNewServer_spoofed (s.exec e) hremote (word_ne hagrees)]

/-- A covered datagram is handled alike with any two buffers. -/
theorem ctrlPortFn_covered (stale : Mem) (hlookups : ∀ l ∈ s.lookups, l.sq.node = s.localNode)
    (hlen : 4 ≤ e.received.length) (h : Covered s.localNode e.sq e.received) :
    ctrlPortFn (s.exec e) e.sq e.datagram stale =
      ctrlPortFn (s.exec e) e.sq e.datagram e.stale := by
  have hrec : e.datagram.take 4096 = e.received := rfl
  have hbuffer : ∀ m i, ctrlWord (s.exec e).order (m.write 0 e.received) i =
      bufferWord m e.received i := fun m i => ctrlWord_eq _ _ i
  have hword : ∀ i, bufferWord e.stale e.received i = e.word i := fun _ => rfl
  have hcmd : receivedWord e.received 0 = e.word 0 := (bufferWord_of_le hlen).symm
  simp only [Covered, hcmd] at h
  simp only [ctrlPortFn, hrec, hbuffer, hword, bufferWord_eq_word hlen]
  by_cases hempty : e.received.length = 0
  · omega
  rw [if_neg hempty, if_neg hempty, if_neg (Nat.not_lt.2 hlen), if_neg (Nat.not_lt.2 hlen)]
  by_cases hhello : e.word 0 = qrtrTypeHello
  · rw [if_pos hhello, if_pos hhello]
  rw [if_neg hhello, if_neg hhello]
  by_cases hbye : e.word 0 = qrtrTypeBye
  · rw [if_pos hbye, if_pos hbye]
  rw [if_neg hbye, if_neg hbye]
  by_cases hdelClient : e.word 0 = qrtrTypeDelClient
  · rw [if_pos hdelClient, if_pos hdelClient]
    rw [if_pos hdelClient] at h
    rcases h with hall | hagrees | ⟨hlocal, hagrees⟩
    · rw [bufferWord_eq_word (by omega), bufferWord_eq_word (by omega)]
    · rw [ctrlCmdDelClient_spoofed _ (Or.inl (bufferWord_ne hagrees _)),
        ctrlCmdDelClient_spoofed _ (Or.inl (word_ne hagrees))]
    · rw [ctrlCmdDelClient_spoofed _ (Or.inr ⟨hlocal, bufferWord_ne hagrees _⟩),
        ctrlCmdDelClient_spoofed _ (Or.inr ⟨hlocal, word_ne hagrees⟩)]
  rw [if_neg hdelClient, if_neg hdelClient]
  rw [if_neg hdelClient] at h
  by_cases hnewServer : e.word 0 = qrtrTypeNewServer
  · rw [if_pos hnewServer, if_pos hnewServer]
    rw [if_pos hnewServer] at h
    exact ctrlCmdNewServer_covered h
  rw [if_neg hnewServer, if_neg hnewServer]
  rw [if_neg hnewServer] at h
  by_cases hdelServer : e.word 0 = qrtrTypeDelServer
  · rw [if_pos hdelServer, if_pos hdelServer]
    rw [if_pos hdelServer] at h
    by_cases hlocal : e.sq.node = s.localNode
    · rw [ctrlCmdDelServer_local _ _ _ _ _ hlocal,
        ctrlCmdDelServer_local _ (e.word 4) _ _ _ hlocal]
    · rcases h with hlocal' | hall | hagrees
      · exact absurd hlocal' hlocal
      · rw [bufferWord_eq_word (by omega), bufferWord_eq_word (by omega),
          bufferWord_eq_word (by omega), bufferWord_eq_word (by omega)]
      · rw [ctrlCmdDelServer_spoofed (s.exec e) hlocal (bufferWord_ne hagrees _),
          ctrlCmdDelServer_spoofed (s.exec e) hlocal (word_ne hagrees)]
  rw [if_neg hdelServer, if_neg hdelServer]
  rw [if_neg hdelServer] at h
  by_cases hnewLookup : e.word 0 = qrtrTypeNewLookup
  · rw [if_pos hnewLookup, if_pos hnewLookup]
    rw [if_pos (Or.inl hnewLookup)] at h
    rcases h with hremote | hall
    · rw [ctrlCmdNewLookup_remote _ _ _ hremote, ctrlCmdNewLookup_remote _ _ _ hremote]
    · rw [bufferWord_eq_word (by omega), bufferWord_eq_word (by omega)]
  rw [if_neg hnewLookup, if_neg hnewLookup]
  by_cases hdelLookup : e.word 0 = qrtrTypeDelLookup
  · rw [if_pos hdelLookup, if_pos hdelLookup]
    rw [if_pos (Or.inr hdelLookup)] at h
    rcases h with hremote | hall
    · rw [ctrlCmdDelLookup_remote (w := s.exec e) hlookups _ _ hremote,
        ctrlCmdDelLookup_remote (w := s.exec e) hlookups _ _ hremote]
    · rw [bufferWord_eq_word (by omega), bufferWord_eq_word (by omega)]
  rw [if_neg hdelLookup, if_neg hdelLookup]

omit [MapOps T Server] in
/-- A whole control packet is covered. -/
theorem covered_of_length {localNode : UInt32} {sq : Sockaddr} {bs : List UInt8} (h : 20 ≤ bs.length) :
    Covered localNode sq bs := by
  dsimp only [Covered]
  split
  · exact Or.inl (by omega)
  split
  · by_cases hlocal : sq.node = localNode
    · exact Or.inr (Or.inl ⟨hlocal, Or.inl (by omega)⟩)
    · exact Or.inr (Or.inr ⟨hlocal, Or.inl h⟩)
  split
  · exact Or.inr (Or.inl h)
  split
  · exact Or.inr (by omega)
  · trivial

/-- The datagram is too short for a command or covered. -/
def Event.Settled (localNode : UInt32) (e : Event) : Prop :=
  4 ≤ e.received.length → Covered localNode e.sq e.received

/-- The turn of the main loop on such a datagram does not depend on what the buffer held. -/
theorem nsStep_settled (hlookups : ∀ l ∈ s.lookups, l.sq.node = s.localNode)
    (h : e.Settled s.localNode) (stale : Mem) : nsStep s { e with stale := stale } = nsStep s e := by
  have hhandled : ctrlPortFn (s.exec e) e.sq e.datagram stale =
      ctrlPortFn (s.exec e) e.sq e.datagram e.stale := by
    by_cases hlen : 4 ≤ e.received.length
    · exact ctrlPortFn_covered stale hlookups hlen (h hlen)
    · have hshort : (e.datagram.take 4096).length < 4 := Nat.not_le.1 hlen
      simp only [ctrlPortFn, if_pos hshort]
  rw [nsStep, nsStep]
  split
  · exact congrArg (fun r : Int × Exec T => (r.2.toNs, r.2.sent)) hhandled
  · rfl

end

/-! ### Datagrams that are not -/

/-- Two outcomes agree on the servers, the lookups and the datagrams. -/
structure SameEffect {T : Type} [MapOps T Server] (r r' : Ns T × List Msg) : Prop where
  server : ∀ n p, r.1.server n p = r'.1.server n p
  lookups : r.1.lookups = r'.1.lookups
  sent : r.2 = r'.2

/-- In every reachable state of a name server on the node the datagram of the sender is handled alike,
    whatever the receive buffer held before. -/
def StaleFree (localNode : UInt32) (sq : Sockaddr) (datagram : List UInt8) : Prop :=
  ∀ s : Ns (Map Server), s.Reachable → s.localNode = localNode →
    ∀ e : Event, e.sq = sq → e.datagram = datagram →
      ∀ stale, SameEffect (nsStep s e) (nsStep s { e with stale := stale })

/-- A buffer that begins with the given words. -/
def Mem.ofWords (words : List UInt32) : Mem := fun i => (words.flatMap le32).getD i 0

/-- The datagram, received into a buffer that begins with the given words. -/
def Event.into (sq : Sockaddr) (datagram : List UInt8) (words : List UInt32) : Event where
  sq := sq
  datagram := datagram
  stale := Mem.ofWords words
  stack := fun _ => 0
  allocs := []
  sends := []

/-- The words that a datagram received into a buffer shows. -/
theorem Event.word_into (sq : Sockaddr) (datagram : List UInt8) (words : List UInt32)
    (offset : Nat) : (Event.into sq datagram words).word offset =
      bufferWord (Mem.ofWords words) (datagram.take 4096) offset := rfl

theorem bufferWord_congr {stale stale' : Mem} {bs : List UInt8} {offset : Nat} {w : UInt32}
    (h : stale.bytes offset 4 = le32 w) (h' : stale'.bytes offset 4 = le32 w) :
    bufferWord stale bs offset = bufferWord stale' bs offset := by
  rw [bufferWord, bufferWord, bytes_write_zero, bytes_write_zero, h, h']

section

variable {localNode : UInt32} {sq : Sockaddr} {datagram : List UInt8}

/-- Two buffers of a datagram that is handled alike ask for the same change. -/
theorem StaleFree.same (h : StaleFree localNode sq datagram) {s : Ns (Map Server)}
    (hs : s.Reachable) (hd : s.Distinct) (hnode : s.localNode = localNode)
    (hopen : s.sockOpen = true) (words words' : List UInt32)
    (hplain : s.Plain ((Event.into sq datagram words).action localNode))
    (hplain' : s.Plain ((Event.into sq datagram words').action localNode)) :
    ((Event.into sq datagram words).action localNode).servers s.server =
        ((Event.into sq datagram words').action localNode).servers s.server ∧
      ((Event.into sq datagram words).action localNode).lookups s.lookups =
        ((Event.into sq datagram words').action localNode).lookups s.lookups := by
  have haction : ∀ e, s.action e = e.action localNode := fun e => by
    rw [Ns.action, if_pos hopen, hnode]
  have hsame := h s hs hnode (Event.into sq datagram words) rfl rfl (Mem.ofWords words')
  obtain ⟨-, hserver, hlookups⟩ := nsStep_refines hs.inv.toTablesOk hd
    (e := Event.into sq datagram words) (by rwa [haction]) rfl
  obtain ⟨-, hserver', hlookups'⟩ := nsStep_refines hs.inv.toTablesOk hd
    (e := Event.into sq datagram words') (by rwa [haction]) rfl
  rw [haction] at hserver hserver' hlookups hlookups'
  rw [← hserver, ← hserver', ← hlookups, ← hlookups']
  exact ⟨funext fun n => funext fun p => hsame.server n p, hsame.lookups⟩

end

/-- A word that was not received whole can be one of two that are not zero. -/
theorem bufferWord_two (stale stale' : Mem) {bs : List UInt8} {offset : Nat}
    (hshort : bs.length < offset + 4) (h : stale.bytes offset 4 = le32 0x01000000)
    (h' : stale'.bytes offset 4 = le32 0x02000000) :
    bufferWord stale bs offset ≠ 0 ∧ bufferWord stale' bs offset ≠ 0 ∧
      bufferWord stale bs offset ≠ bufferWord stale' bs offset := by
  have htop : (bufferWord stale bs offset).toNat / 2 ^ 24 = 1 := bufferWord_top hshort h
  have htop' : (bufferWord stale' bs offset).toNat / 2 ^ 24 = 2 := bufferWord_top hshort h'
  refine ⟨?_, ?_, ?_⟩
  · intro hzero
    rw [hzero] at htop
    cases htop
  · intro hzero
    rw [hzero] at htop'
    cases htop'
  · intro heq
    rw [heq, htop'] at htop
    cases htop

/-- A word that was not received whole can be another than a given one. -/
theorem exists_other_word (w : UInt32) {bs : List UInt8} {offset : Nat}
    (hshort : bs.length < offset + 4) :
    ∃ w', ∀ stale : Mem, stale.bytes offset 4 = le32 w' → bufferWord stale bs offset ≠ w := by
  by_cases hw : w.toNat / 2 ^ 24 = 1
  · refine ⟨0x02000000, fun stale hstale heq => ?_⟩
    have htop : (bufferWord stale bs offset).toNat / 2 ^ 24 = 2 := bufferWord_top hshort hstale
    rw [heq, hw] at htop
    cases htop
  · refine ⟨0x01000000, fun stale hstale heq => hw ?_⟩
    rw [← heq]
    exact bufferWord_top hshort hstale

/-- The state with one server of a remote sender. -/
theorem afterRemote {localNode : UInt32} (node : UInt32) {p : UInt32} (hp : p ≠ 0) :
    ∃ s : Ns (Map Server), s.Reachable ∧ s.Distinct ∧ s.localNode = localNode ∧
      s.sockOpen = true ∧ (s.server node p).isSome := by
  obtain ⟨s, hs, hd, -, hnode, hopen, hserver, -⟩ := afterRegister (T := Map Server) .little
    localNode { service := 1, inst := 0, node := node, port := p }
    (show (1 : UInt32) ≠ 0 by decide) hp
  exact ⟨s, hs, hd, hnode, hopen, by simp [hserver, Action.servers]⟩

/-- The state with one lookup of a local sender. -/
theorem afterWatch {localNode : UInt32} {sq : Sockaddr} (hlocal : sq.node = localNode)
    (service inst : UInt32) :
    ∃ s : Ns (Map Server), s.Reachable ∧ s.Distinct ∧ s.localNode = localNode ∧
      s.sockOpen = true ∧ s.lookups = [{ service := service, inst := inst, sq := sq }] := by
  obtain ⟨h0, h4, h8, -, -⟩ := Event.word_ofWords sq qrtrTypeNewLookup service inst 0 0
  have hlen := Event.length_ofWords sq qrtrTypeNewLookup service inst 0 0
  obtain ⟨s, hs, hd, -, hnode, hopen, -, hlookups⟩ := afterFirst (T := Map Server) .little localNode
    (e := Event.ofWords sq [qrtrTypeNewLookup, service, inst, 0, 0]) rfl
    (List.length_pos_iff.1 (by omega))
  refine ⟨s, hs, hd, hnode, hopen, ?_⟩
  rw [hlookups, Event.action_newLookup_local localNode (by omega) h0 hlocal, h4, h8]
  rfl

/-- Removing two ports comes to the same only if neither is registered. -/
theorem removals_apart {f : Registry} {n p p' : UInt32} (hne : p ≠ p')
    (h : (Action.unregister n p).servers f = (Action.unregister n p').servers f) : f n p = none := by
  have hat := congrFun (congrFun h n) p
  simpa [Action.servers, hne] using hat.symm

/-- Registering two servers with an empty registry comes to the same only for equal servers. -/
theorem registrations_apart {f : Registry} (hf : ∀ n p, f n p = none) {srv srv' : Server}
    (h : (Action.register srv).servers f = (Action.register srv').servers f) : srv = srv' := by
  have hat := congrFun (congrFun h srv.node) srv.port
  simp only [Action.servers, and_self, if_true, hf] at hat
  split at hat
  · exact Option.some.inj hat
  · cases hat

/-! ### One command after the other -/

namespace StaleFree

variable {localNode : UInt32} {sq : Sockaddr} {datagram : List UInt8}
  (h : StaleFree localNode sq datagram) (hlen : 4 ≤ (datagram.take 4096).length)

include h hlen

theorem delClient (hcmd : receivedWord (datagram.take 4096) 0 = qrtrTypeDelClient) :
    12 ≤ (datagram.take 4096).length ∨ ¬ Agrees (datagram.take 4096) 4 sq.node ∨
      sq.node = localNode ∧ ¬ Agrees (datagram.take 4096) 8 sq.port := by
  by_contra hnot
  obtain ⟨hshort, hnode, hport⟩ := by simpa only [not_or, not_not, not_and] using hnot
  have hcmd' : ∀ words, (Event.into sq datagram words).word 0 = qrtrTypeDelClient := fun _ =>
    (bufferWord_of_le hlen).trans hcmd
  have hnode' : ∀ port, (Event.into sq datagram [0, sq.node, port]).word 4 = sq.node := fun _ =>
    bufferWord_of_agrees hnode rfl
  have hvalid : ∀ port,
      (sq.node = localNode → sq.port = (Event.into sq datagram [0, sq.node, port]).word 8) →
      (Event.into sq datagram [0, sq.node, port]).action localNode =
        .closePort sq.node ((Event.into sq datagram [0, sq.node, port]).word 8) := by
    intro port hspoof
    rw [Event.action_delClient_valid localNode (e := Event.into sq datagram [0, sq.node, port]) hlen
      (hcmd' _) (hnode' port).symm hspoof, hnode']
  by_cases hlocal : sq.node = localNode
  · -- one buffer names the port of the sender, the other another port
    obtain ⟨port, hother⟩ := exists_other_word sq.port
      (show (datagram.take 4096).length < 8 + 4 by omega)
    obtain ⟨s, hs, hd, hlocalNode, hopen, hlookups⟩ := afterWatch hlocal 0 0
    have hport' : (Event.into sq datagram [0, sq.node, sq.port]).word 8 = sq.port :=
      bufferWord_of_agrees (hport hlocal) rfl
    have hclose := hvalid sq.port fun _ => hport'.symm
    have hignore := Event.action_delClient_spoofed localNode
      (e := Event.into sq datagram [0, sq.node, port]) hlen (hcmd' _) hlocal (Ne.symm (hother _ rfl))
    have hsame := (h.same hs hd hlocalNode hopen [0, sq.node, sq.port] [0, sq.node, port]
      (by rw [hclose]; exact fun _ h => nomatch h) (by rw [hignore]; exact fun _ h => nomatch h)).2
    rw [hclose, hignore, hport', hlookups] at hsame
    simp [Action.lookups] at hsame
  · -- the two buffers name two ports, one of them registered
    obtain ⟨hp, -, hne⟩ := bufferWord_two (Mem.ofWords [0, sq.node, 0x01000000])
      (Mem.ofWords [0, sq.node, 0x02000000])
      (show (datagram.take 4096).length < 8 + 4 by omega) rfl rfl
    obtain ⟨s, hs, hd, hlocalNode, hopen, hregistered⟩ := afterRemote sq.node hp
    have hclose := hvalid 0x01000000 fun hbad => absurd hbad hlocal
    have hclose' := hvalid 0x02000000 fun hbad => absurd hbad hlocal
    have hsame := (h.same hs hd hlocalNode hopen [0, sq.node, 0x01000000] [0, sq.node, 0x02000000]
      (by rw [hclose]; exact fun _ h => nomatch h) (by rw [hclose']; exact fun _ h => nomatch h)).1
    rw [hclose, hclose'] at hsame
    rw [removals_apart hne hsame] at hregistered
    cases hregistered

theorem newServer (hcmd : receivedWord (datagram.take 4096) 0 = qrtrTypeNewServer) :
    (8 ≤ (datagram.take 4096).length ∧ receivedWord (datagram.take 4096) 4 = 0) ∨
      (sq.node = localNode ∧ (12 ≤ (datagram.take 4096).length ∨ sq.port = 0)) ∨
      (sq.node ≠ localNode ∧
        (20 ≤ (datagram.take 4096).length ∨ ¬ Agrees (datagram.take 4096) 12 sq.node)) := by
  by_contra hnot
  obtain ⟨hservice, hnot⟩ := not_or.1 hnot
  obtain ⟨hlocalNot, hremoteNot⟩ := not_or.1 hnot
  have hcmd' : ∀ words, (Event.into sq datagram words).word 0 = qrtrTypeNewServer := fun _ =>
    (bufferWord_of_le hlen).trans hcmd
  -- the service is not zero, whether it was received or is left over
  have hservice' : ∀ words, (Mem.ofWords words).bytes 4 4 = le32 0x01000000 →
      (Event.into sq datagram words).word 4 ≠ 0 := by
    intro words hwords
    by_cases hwhole : 8 ≤ (datagram.take 4096).length
    · intro hzero
      exact hservice ⟨hwhole, (bufferWord_of_le hwhole).symm.trans hzero⟩
    · exact (bufferWord_two (Mem.ofWords words) (Mem.ofWords [0, 0x02000000])
        (show (datagram.take 4096).length < 4 + 4 by omega) hwords rfl).1
  obtain ⟨s, hs⟩ : ∃ s : Ns (Map Server), s = nsInit .little localNode := ⟨_, rfl⟩
  have hreach : s.Reachable := ⟨.little, localNode, [], hs⟩
  have hd : s.Distinct := hs ▸ .init .little localNode
  have hnone : ∀ n p, s.server n p = none := fun n p => by
    rw [server_eq_get hreach.inv.nodesOk, hs]
    exact get_create _
  have hplain : ∀ a, s.Plain a := fun a =>
    Ns.plain_of_absent hreach.inv.toTablesOk fun srv _ => hnone srv.node srv.port
  by_cases hlocal : sq.node = localNode
  · -- the two buffers bring two instances
    obtain ⟨hshort, hport⟩ := not_or.1 fun h => hlocalNot ⟨hlocal, h⟩
    obtain ⟨-, -, hne⟩ := bufferWord_two (Mem.ofWords [0, 0x01000000, 0x01000000])
      (Mem.ofWords [0, 0x01000000, 0x02000000])
      (show (datagram.take 4096).length < 8 + 4 by omega) rfl rfl
    have haction := fun w => Event.action_newServer_local localNode
      (e := Event.into sq datagram [0, 0x01000000, w]) hlen (hcmd' _) hlocal (hservice' _ rfl) hport
    have hsame := (h.same hreach hd (by rw [hs]; rfl) (by rw [hs]; rfl) [0, 0x01000000, 0x01000000]
      [0, 0x01000000, 0x02000000] (hplain _) (hplain _)).1
    rw [haction, haction] at hsame
    have hinst := congrArg Server.inst (registrations_apart hnone hsame)
    exact hne hinst
  · -- the two buffers bring two ports
    obtain ⟨hshort, hnode⟩ := not_or.1 fun h => hremoteNot ⟨hlocal, h⟩
    have hnode' : ∀ w, (Event.into sq datagram [0, 0x01000000, 0, sq.node, w]).word 12 = sq.node :=
      fun _ => bufferWord_of_agrees (not_not.1 hnode) rfl
    obtain ⟨hp, hp', hne⟩ := bufferWord_two (Mem.ofWords [0, 0x01000000, 0, sq.node, 0x01000000])
      (Mem.ofWords [0, 0x01000000, 0, sq.node, 0x02000000])
      (show (datagram.take 4096).length < 16 + 4 by omega) rfl rfl
    have haction := fun w hw => Event.action_newServer_remote localNode
      (e := Event.into sq datagram [0, 0x01000000, 0, sq.node, w]) hlen (hcmd' _) hlocal (hnode' w)
      (hservice' _ rfl) hw
    have hsame := (h.same hreach hd (by rw [hs]; rfl) (by rw [hs]; rfl)
      [0, 0x01000000, 0, sq.node, 0x01000000] [0, 0x01000000, 0, sq.node, 0x02000000] (hplain _)
      (hplain _)).1
    rw [haction 0x01000000 hp, haction 0x02000000 hp'] at hsame
    exact hne (congrArg Server.port (registrations_apart hnone hsame))

theorem delServer (hcmd : receivedWord (datagram.take 4096) 0 = qrtrTypeDelServer) :
    sq.node = localNode ∨ 20 ≤ (datagram.take 4096).length ∨
      ¬ Agrees (datagram.take 4096) 12 sq.node := by
  by_contra hnot
  obtain ⟨hremote, hnot⟩ := not_or.1 hnot
  obtain ⟨hshort, hnode⟩ := not_or.1 hnot
  have hcmd' : ∀ words, (Event.into sq datagram words).word 0 = qrtrTypeDelServer := fun _ =>
    (bufferWord_of_le hlen).trans hcmd
  have hnode' : ∀ w, (Event.into sq datagram [0, 0, 0, sq.node, w]).word 12 = sq.node := fun _ =>
    bufferWord_of_agrees (not_not.1 hnode) rfl
  obtain ⟨hp, -, hne⟩ := bufferWord_two (Mem.ofWords [0, 0, 0, sq.node, 0x01000000])
    (Mem.ofWords [0, 0, 0, sq.node, 0x02000000])
    (show (datagram.take 4096).length < 16 + 4 by omega) rfl rfl
  obtain ⟨s, hs, hd, hlocalNode, hopen, hregistered⟩ := afterRemote sq.node hp
  have haction := fun w => Event.action_delServer_remote localNode
    (e := Event.into sq datagram [0, 0, 0, sq.node, w]) hlen (hcmd' _) hremote (hnode' w).symm
  have hsame := (h.same hs hd hlocalNode hopen [0, 0, 0, sq.node, 0x01000000]
    [0, 0, 0, sq.node, 0x02000000] (by rw [haction]; exact fun _ h => nomatch h)
    (by rw [haction]; exact fun _ h => nomatch h)).1
  rw [haction, haction] at hsame
  have hgone : s.server sq.node (bufferWord (Mem.ofWords [0, 0, 0, sq.node, 0x01000000])
      (datagram.take 4096) 16) = none := removals_apart hne hsame
  rw [hgone] at hregistered
  cases hregistered

theorem newLookup (hcmd : receivedWord (datagram.take 4096) 0 = qrtrTypeNewLookup) :
    sq.node ≠ localNode ∨ 12 ≤ (datagram.take 4096).length := by
  by_contra hnot
  obtain ⟨hlocal, hshort⟩ := not_or.1 hnot
  have hcmd' : ∀ words, (Event.into sq datagram words).word 0 = qrtrTypeNewLookup := fun _ =>
    (bufferWord_of_le hlen).trans hcmd
  obtain ⟨-, -, hne⟩ := bufferWord_two (Mem.ofWords [0, 0, 0x01000000])
    (Mem.ofWords [0, 0, 0x02000000]) (show (datagram.take 4096).length < 8 + 4 by omega) rfl rfl
  have haction := fun w => Event.action_newLookup_local localNode
    (e := Event.into sq datagram [0, 0, w]) hlen (hcmd' _) (not_not.1 hlocal)
  have hsame := (h.same (s := nsInit .little localNode) ⟨.little, localNode, [], rfl⟩
    (.init .little localNode) rfl rfl [0, 0, 0x01000000] [0, 0, 0x02000000]
    (by rw [haction]; exact fun _ h => nomatch h) (by rw [haction]; exact fun _ h => nomatch h)).2
  rw [haction, haction] at hsame
  have hlookup := List.head_eq_of_cons_eq hsame
  exact hne (congrArg Lookup.inst hlookup)

theorem delLookup (hcmd : receivedWord (datagram.take 4096) 0 = qrtrTypeDelLookup) :
    sq.node ≠ localNode ∨ 12 ≤ (datagram.take 4096).length := by
  by_contra hnot
  obtain ⟨hlocal, hshort⟩ := not_or.1 hnot
  have hcmd' : ∀ words, (Event.into sq datagram words).word 0 = qrtrTypeDelLookup := fun _ =>
    (bufferWord_of_le hlen).trans hcmd
  obtain ⟨hinst, -, hne⟩ := bufferWord_two (Mem.ofWords [0, 0, 0x01000000])
    (Mem.ofWords [0, 0, 0x02000000]) (show (datagram.take 4096).length < 8 + 4 by omega) rfl rfl
  -- one buffer names the instance of the lookup, the other another one
  have hservice : ∀ w, (Event.into sq datagram [0, 0, w]).word 4 =
      bufferWord (Mem.ofWords [0, 0, 0]) (datagram.take 4096) 4 := fun w => by
    have hzero : ∀ w, (Mem.ofWords [0, 0, w]).bytes 4 4 = le32 0 := fun _ => rfl
    exact bufferWord_congr (hzero w) (hzero 0)
  have haction := fun w => Event.action_delLookup localNode
    (e := Event.into sq datagram [0, 0, w]) hlen (hcmd' _)
  simp only [hservice, Event.word_into] at haction
  generalize bufferWord (Mem.ofWords [0, 0, 0]) (datagram.take 4096) 4 = service at haction
  have hone := haction 0x01000000
  have htwo := haction 0x02000000
  generalize bufferWord (Mem.ofWords [0, 0, 0x01000000]) (datagram.take 4096) 8 = inst
    at hinst hne hone
  generalize bufferWord (Mem.ofWords [0, 0, 0x02000000]) (datagram.take 4096) 8 = inst' at hne htwo
  -- one buffer names the instance of the lookup, the other another one
  obtain ⟨s, hs, hd, hlocalNode, hopen, hlookups⟩ := afterWatch (not_not.1 hlocal) service inst
  have hsame := (h.same hs hd hlocalNode hopen [0, 0, 0x01000000] [0, 0, 0x02000000]
    (by rw [hone]; exact fun _ h => nomatch h) (by rw [htwo]; exact fun _ h => nomatch h)).2
  rw [hone, htwo, hlookups] at hsame
  simp [Action.lookups, Event.into, hinst, hne] at hsame

/-- Whatever is not covered depends on the buffer in some reachable state. -/
theorem covered : Covered localNode sq (datagram.take 4096) := by
  rw [Covered]
  split
  · rename_i hcmd
    exact h.delClient hlen hcmd
  split
  · rename_i hcmd
    exact h.newServer hlen hcmd
  split
  · rename_i hcmd
    exact h.delServer hlen hcmd
  split
  · rename_i hcmd
    rcases hcmd with hcmd | hcmd
    · exact h.newLookup hlen hcmd
    · exact h.delLookup hlen hcmd
  · trivial

end StaleFree

/-- A datagram that is covered is handled by what was received. -/
theorem staleFree_of_covered {localNode : UInt32} {sq : Sockaddr} {datagram : List UInt8}
    (h : Covered localNode sq (datagram.take 4096)) :
    StaleFree localNode sq datagram := by
  intro s hs hnode e hsq hdatagram stale
  have hreceived : e.received = datagram.take 4096 := by rw [Event.received, hdatagram]
  rw [← hnode, ← hsq, ← hreceived] at h
  rw [nsStep_settled hs.inv.lookups_local (fun _ => h) stale]
  exact ⟨fun _ _ => rfl, rfl, rfl⟩

/-- For every node, sender and datagram: the effect of the datagram depends only on what was received, in
    every reachable state, exactly if the datagram is covered. -/
theorem staleFree_iff_covered (localNode : UInt32) (sq : Sockaddr) (datagram : List UInt8)
    (hlen : 4 ≤ datagram.length) :
    StaleFree localNode sq datagram ↔ Covered localNode sq (datagram.take 4096) := by
  have hreceived : 4 ≤ (datagram.take 4096).length := by
    rw [List.length_take]
    omega
  exact ⟨fun h => h.covered hreceived, staleFree_of_covered⟩

/-- A lookup request with a service and an instance. -/
theorem staleFree_iff_covered_newLookup :
    StaleFree 1 { node := 1, port := 5 } ([qrtrTypeNewLookup, 7, 0].flatMap le32) :=
  (staleFree_iff_covered _ _ _ (by decide)).2 (Or.inr (by decide))

/-- A lookup request that ends behind its command. -/
theorem not_staleFree : ¬ ∀ (localNode : UInt32) (sq : Sockaddr) (datagram : List UInt8),
    4 ≤ datagram.length → StaleFree localNode sq datagram := by
  intro h
  have hcovered := (h 1 { node := 1, port := 5 } (le32 qrtrTypeNewLookup) (by decide)).newLookup
    (by decide) (by decide)
  revert hcovered
  decide

end Qrtr
