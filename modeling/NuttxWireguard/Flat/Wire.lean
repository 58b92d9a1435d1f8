/-
What the flat port puts on the wire.

Whatever the port hands to its socket is one of four things: an initiation, a response or a
cookie reply it has made, or a packet it has sealed.  `Emits` is the account of this, one entry
for each datagram and in order; for the sealed ones it names the key and the counter, which are
those of the log.  The account of a function follows from those of the functions it calls, and
the account of a run from those of its steps.

So a packet never leaves but under the key of a session.  What is sealed is an empty keepalive
or what the stack offered, each offer at most once and in the order of the offers, for the peer
that its destination routes to.
-/
import NuttxWireguard.Flat.CookieReply
import NuttxWireguard.Flat.Injected
import NuttxWireguard.Flat.RoundTrip

namespace NuttxWireguard

open Lib

/-- Peer, session, key and counter of an encryption. -/
def Obs.encryptedTo {n : Nat} : Obs n → Option (Fin n × Nat × Key × U64)
  | .encrypted x sid _ key counter _ => some (x, sid, key, counter)
  | _ => none

namespace Flat

variable {cfg : Config} (c : Crypto) (env : Env cfg)

/-- A packet sealed for a peer. -/
structure Sealing (cfg : Config) where
  peer : Fin cfg.maxPeers
  sid : Nat
  receiver : U32
  key : Key
  counter : U64
  packet : List Byte

/-- What a datagram is. -/
inductive Wire (cfg : Config)
  | initiation (msg : MsgInit)
  | response (msg : MsgResponse)
  | cookie (msg : MsgCookie)
  | data (s : Sealing cfg)

/-- The bytes of the datagram. -/
def Wire.bytes : Wire cfg → List Byte
  | .initiation msg => msg.bytes
  | .response msg => msg.bytes
  | .cookie msg => msg.bytes
  | .data s =>
    dataHeader s.receiver s.counter ++ c.aeadEncrypt (padPayload s.packet) [] s.counter s.key

def Wire.sealing : Wire cfg → Option (Sealing cfg)
  | .data s => some s
  | _ => none

/-- What the log says of it. -/
def Sealing.entry (s : Sealing cfg) : Fin cfg.maxPeers × Nat × Key × U64 :=
  (s.peer, s.sid, s.key, s.counter)

/-- The packets in these datagrams, keepalives aside. -/
def packets (ws : List (Wire cfg)) : List (List Byte) :=
  ((ws.filterMap Wire.sealing).map (·.packet)).filter (· ≠ [])

/-- A packet with a header goes to the peer its destination routes to. -/
def Sealing.Routed (d : Device cfg) (s : Sealing cfg) : Prop :=
  ipv4HdrLen ≤ s.packet.length → peerForDest d (ipDest s.packet) = some s.peer

/-- Messages are as the functions of the handshake build them, and `d` routes what is sealed. -/
def Wire.Made (d : Device cfg) : Wire cfg → Prop
  | .initiation msg => ∃ (env : Env cfg) (e e' : Device cfg) (x : Fin cfg.maxPeers),
      wireguardCreateHandshakeInitiation c env e x = some (e', some msg)
  | .response packet => ∃ (env : Env cfg) (e e' : Device cfg) (x : Fin cfg.maxPeers),
      wireguardCreateHandshakeResponse c env e x = some (e', some packet)
  | .cookie msg => ∃ (env : Env cfg) (e : Device cfg) (mac1 : Bytes 16) (index : U32)
      (source : List Byte), (wireguardCreateCookieReply c env e mac1 index source).2 = msg
  | .data s => s.Routed d

/-- The datagrams handed to the socket, oldest first. -/
def Netdev.datagrams (n : Netdev cfg) : List (List Byte) := n.sent.map (·.data)

/-- What was encrypted, oldest first. -/
def Netdev.encryptions (n : Netdev cfg) : List (Fin cfg.maxPeers × Nat × Key × U64) :=
  (n.log.filterMap Obs.encryptedTo).reverse

/-- From `n` to `m` the port hands `ws` to the socket; the packets in them are among `offers`. -/
structure Accounts (d : Device cfg) (offers : List (List Byte)) (n m : Netdev cfg)
    (ws : List (Wire cfg)) : Prop where
  sent : m.datagrams = n.datagrams ++ ws.map (Wire.bytes c)
  encrypted : m.encryptions = n.encryptions ++ (ws.filterMap Wire.sealing).map Sealing.entry
  offered : (packets ws).Sublist offers
  made : ∀ w ∈ ws, w.Made c d

def Emits (d : Device cfg) (offers : List (List Byte)) (n m : Netdev cfg) : Prop :=
  ∃ ws, Accounts c d offers n m ws

/-! ### Composing accounts -/

theorem packets_append (ws ws' : List (Wire cfg)) :
    packets (ws ++ ws') = packets ws ++ packets ws' := by
  unfold packets
  rw [List.filterMap_append, List.map_append, List.filter_append]

namespace Emits

variable {c} {d : Device cfg} {offers offers' : List (List Byte)} {n m k : Netdev cfg}

/-- Nothing is sent. -/
theorem of_eq (hsent : m.sent = n.sent)
    (hlog : m.log.filterMap Obs.encryptedTo = n.log.filterMap Obs.encryptedTo) :
    Emits c d [] n m := by
  refine ⟨[], ?_, ?_, List.Sublist.slnil, fun w hw => by cases hw⟩
  · simp [Netdev.datagrams, hsent]
  · simp [Netdev.encryptions, hlog]

theorem refl (n : Netdev cfg) : Emits c d [] n n := of_eq rfl rfl

/-- One message of a handshake is sent. -/
theorem of_message (w : Wire cfg) (hw : w.sealing = none) (hmade : w.Made c d) {ip : U32} {port : U16}
    (hsent : m.sent = n.sent ++ [⟨w.bytes c, ip, port⟩])
    (hlog : m.log.filterMap Obs.encryptedTo = n.log.filterMap Obs.encryptedTo) :
    Emits c d [] n m := by
  have hnone : [w].filterMap Wire.sealing = [] := by simp [hw]
  refine ⟨[w], ?_, ?_, ?_, ?_⟩
  · simp [Netdev.datagrams, hsent]
  · rw [hnone]
    simp [Netdev.encryptions, hlog]
  · unfold packets
    rw [hnone]
    exact List.Sublist.slnil
  · intro v hv
    rw [List.mem_singleton.mp hv]
    exact hmade

theorem trans (h : Emits c d offers n m) (h' : Emits c d offers' m k) :
    Emits c d (offers ++ offers') n k := by
  obtain ⟨ws, h⟩ := h
  obtain ⟨ws', h'⟩ := h'
  refine ⟨ws ++ ws', ?_, ?_, ?_, ?_⟩
  · rw [h'.sent, h.sent, List.map_append, List.append_assoc]
  · rw [h'.encrypted, h.encrypted, List.filterMap_append, List.map_append, List.append_assoc]
  · rw [packets_append]
    exact h.offered.append h'.offered
  · intro w hw
    rcases List.mem_append.mp hw with hw | hw
    · exact h.made w hw
    · exact h'.made w hw

/-- More may have been offered. -/
theorem weaken (h : Emits c d offers n m) (hoffers : offers.Sublist offers') :
    Emits c d offers' n m := by
  obtain ⟨ws, h⟩ := h
  exact ⟨ws, h.sent, h.encrypted, h.offered.trans hoffers, h.made⟩

/-- Nothing of what is offered is sent. -/
theorem any (h : Emits c d [] n m) : Emits c d offers n m := h.weaken (List.nil_sublist _)

/-- After steps that send nothing. -/
theorem after (h : Emits c d offers m k) (hsent : m.sent = n.sent)
    (hlog : m.log.filterMap Obs.encryptedTo = n.log.filterMap Obs.encryptedTo) :
    Emits c d offers n k :=
  (of_eq hsent hlog).trans h

end Emits

/-- Routing depends on the setup of the peers. -/
theorem peerForDest_of_setup {d e : Device cfg} (h : ∀ x, (e.peers x).setup = (d.peers x).setup)
    (dest : U32) : peerForDest e dest = peerForDest d dest := by
  have hvalid : ∀ x, (e.peers x).valid = (d.peers x).valid := fun x => congrArg Setup.valid (h x)
  have haips : ∀ x, (e.peers x).allowedSourceIps = (d.peers x).allowedSourceIps :=
    fun x => congrArg Setup.allowedSourceIps (h x)
  unfold peerForDest
  simp only [hvalid, haips]

theorem Wire.Made.of_setup {d e : Device cfg} {w : Wire cfg} (hw : w.Made c d)
    (h : ∀ x, (e.peers x).setup = (d.peers x).setup) : w.Made c e := by
  cases w with
  | data s => exact fun hheader => (peerForDest_of_setup h _).trans (hw hheader)
  | initiation msg => exact hw
  | response packet => exact hw
  | cookie msg => exact hw

/-! ### What each function sends -/

section Functions

variable {n n' : Netdev cfg} {d : Device cfg}

/-- A packet is sealed, or nothing is sent. -/
theorem wgEncryptAndSend_emits (n : Netdev cfg) (x : Fin cfg.maxPeers) (packet : List Byte)
    (hrouted : ipv4HdrLen ≤ packet.length → peerForDest d (ipDest packet) = some x) :
    Emits c d ([packet].filter (· ≠ [])) n (wgEncryptAndSend c env n x packet).1 := by
  rcases wgEncryptAndSend_cases c env n x packet with h | ⟨-, -, h⟩ | ⟨-, -, p, lastTx, -, h⟩
  · rw [h]
    exact (Emits.refl n).any
  · rw [h]
    exact Emits.any (.of_eq rfl rfl)
  · rw [h]
    set kp := (n.peer x).keypair (sendingSlot (n.peer x).keypair)
    refine ⟨[.data ⟨x, kp.sid, kp.remoteIndex, kp.sendingKey, kp.sendingCounter, packet⟩], ?_, ?_,
      List.Sublist.refl _, ?_⟩
    · simp [Netdev.datagrams, psockSendto, Netdev.observe, Netdev.setPeer, Wire.bytes]
    · simp [Netdev.encryptions, psockSendto, Netdev.observe, Netdev.setPeer, Obs.encryptedTo,
        Wire.sealing, Sealing.entry]
    · intro w hw
      rw [List.mem_singleton.mp hw]
      exact hrouted

/-- A packet copied to the buffer, and sent to the peer that its destination there routes to. -/
theorem routed_emits (n : Netdev cfg) {x : Fin cfg.maxPeers} {packet : List Byte}
    (hsetup : ∀ y, (n.wg.peers y).setup = (d.peers y).setup)
    (hx : peerForDest n.wg (ipDest (overwrite n.plainbuf packet)) = some x) :
    Emits c d [packet] n (wgEncryptAndSend c env
      { n with plainbuf := overwrite n.plainbuf packet } x packet).1 := by
  have hrouted : ipv4HdrLen ≤ packet.length → peerForDest d (ipDest packet) = some x := by
    intro hheader
    have hdest : ipDest (overwrite n.plainbuf packet) = ipDest packet :=
      (ipHeader_append hheader _).2.2.2
    rw [← peerForDest_of_setup hsetup, ← hdest]
    exact hx
  have hsent := wgEncryptAndSend_emits c env
    { n with plainbuf := overwrite n.plainbuf packet } x packet hrouted
  exact Emits.weaken (hsent.after rfl rfl) List.filter_sublist

theorem wgSendKeepalive_emits (n : Netdev cfg) (x : Fin cfg.maxPeers) :
    Emits c d [] n (wgSendKeepalive c env n x) :=
  wgEncryptAndSend_emits c env n x [] fun h => absurd h (by decide)

theorem wgStartHandshake_emits {x : Fin cfg.maxPeers} (h : wgStartHandshake c env n x = some n') :
    Emits c d [] n n' := by
  unfold wgStartHandshake at h
  split at h
  · cases h
  · cases h
    exact .of_eq rfl rfl
  · rename_i wg msg hcreate
    cases h
    exact .of_message (.initiation msg) rfl ⟨env, n.wg, wg, x, hcreate⟩ rfl rfl

theorem wgSendHandshakeResponse_emits {x : Fin cfg.maxPeers}
    (h : wgSendHandshakeResponse c env n x = some n') : Emits c d [] n n' := by
  unfold wgSendHandshakeResponse at h
  split at h
  · cases h
  · cases h
    exact .of_eq rfl rfl
  · rename_i wg packet hcreate
    cases h
    exact .of_message (.response packet) rfl ⟨env, n.wg, wg, x, hcreate⟩ rfl rfl

theorem wgSendCookieReply_emits (n : Netdev cfg) (mac1 : Bytes 16) (sender addr : U32)
    (port : U16) : Emits c d [] n (wgSendCookieReply c env n mac1 sender addr port) :=
  .of_message (.cookie (wireguardCreateCookieReply c env n.wg mac1 sender
    (sourceBytes addr port)).2) rfl ⟨env, n.wg, mac1, sender, sourceBytes addr port, rfl⟩ rfl rfl

theorem wgProcessInitiation_emits {msg : MsgInit} {addr : U32} {port : U16}
    (h : wgProcessInitiation c env n msg addr port = some n') : Emits c d [] n n' := by
  unfold wgProcessInitiation at h
  split at h
  · cases h
    exact .refl n
  · exact (wgSendHandshakeResponse_emits c env h).after rfl rfl

/-- The stack's reply to a packet it is handed may be sealed. -/
theorem wgInjectPlaintext_emits (n : Netdev cfg) (x : Fin cfg.maxPeers) (packet : List Byte)
    (hsetup : ∀ y, (n.wg.peers y).setup = (d.peers y).setup) :
    Emits c d [] n (wgInjectPlaintext c env n x packet) ∨
      Injected n (wgInjectPlaintext c env n x packet) x packet ∧
        Emits c d [env.ipv4Input packet] n (wgInjectPlaintext c env n x packet) := by
  unfold wgInjectPlaintext
  dsimp only
  split
  · exact Or.inl (.refl n)
  split
  · exact Or.inl (.refl n)
  split
  · exact Or.inl (.refl n)
  refine Or.inr ?_
  split
  · have hbuf : (overwrite n.plainbuf (env.ipv4Input packet)).take (env.ipv4Input packet).length
        = env.ipv4Input packet := List.take_left
    rw [show (n.observe (.injected x packet)).plainbuf = n.plainbuf from rfl]
    split
    · rename_i y hy
      have hlog := wgEncryptAndSend_log c env { n.observe (.injected x packet) with
        plainbuf := overwrite n.plainbuf (env.ipv4Input packet) } y (env.ipv4Input packet)
      rw [hbuf]
      obtain ⟨l, hl, -⟩ := hlog
      refine ⟨⟨l ++ [.injected x packet], ?_, by simp⟩, ?_⟩
      · rw [hl, List.append_assoc]
        rfl
      · exact Emits.after (routed_emits c env (n.observe (.injected x packet)) hsetup hy) rfl rfl
    · exact ⟨⟨[.injected x packet], rfl, by simp⟩, Emits.any (.of_eq rfl rfl)⟩
  · exact ⟨⟨[.injected x packet], rfl, by simp⟩, Emits.any (.of_eq rfl rfl)⟩

theorem wgProcessInner_emits (n : Netdev cfg) (x : Fin cfg.maxPeers) (dataLen : Nat)
    (hsetup : ∀ y, (n.wg.peers y).setup = (d.peers y).setup) :
    Emits c d [] n (wgProcessInner c env n x dataLen) ∨
      ∃ packet, Injected n (wgProcessInner c env n x dataLen) x packet ∧
        Emits c d [env.ipv4Input packet] n (wgProcessInner c env n x dataLen) := by
  unfold wgProcessInner
  dsimp only
  split
  · split
    · split
      · rcases wgInjectPlaintext_emits c env n x (n.plainbuf.take (ipTotalLen n.plainbuf)) hsetup
          with h | h
        · exact Or.inl h
        · exact Or.inr ⟨_, h⟩
      · exact Or.inl (.refl n)
    · exact Or.inl (.refl n)
  · exact Or.inl (.refl n)

theorem acceptedFrom_setup (n : Netdev cfg) (x : Fin cfg.maxPeers) (s : Slot)
    (plain data : List Byte) (addr : U32) (port : U16) (y : Fin cfg.maxPeers) :
    ((acceptedFrom env n x s plain data addr port).wg.peers y).setup = (n.wg.peers y).setup := by
  show ((n.wg.setPeer x (acceptPacket env.now (n.peer x) s _ addr port _)).peers y).setup = _
  by_cases hy : y = x
  · rw [hy, Device.setPeer_peers_self]
    exact (Kept.acceptPacket env.now (n.peer x) s _ addr port _).setup
  · rw [Device.setPeer_peers_of_ne _ _ hy]

/-- A datagram of `x` sends nothing, or brings the stack one packet and sends its reply. -/
theorem wgProcessDataMessage_emits (n : Netdev cfg) (x : Fin cfg.maxPeers) (data : List Byte)
    (addr : U32) (port : U16) (hsetup : ∀ y, (n.wg.peers y).setup = (d.peers y).setup) :
    Emits c d [] n (wgProcessDataMessage c env n x data addr port) ∨
      ∃ packet, Injected n (wgProcessDataMessage c env n x data addr port) x packet ∧
        Emits c d [env.ipv4Input packet] n (wgProcessDataMessage c env n x data addr port) := by
  rcases wgProcessDataMessage_cases c env n x data addr port with
    ⟨b, h⟩ | ⟨s, -, ⟨-, h⟩ | ⟨-, -, plain, -, ⟨-, h⟩ | ⟨-, h⟩⟩⟩
  · rw [h]
    exact Or.inl (.of_eq rfl rfl)
  · rw [h]
    exact Or.inl (.of_eq rfl rfl)
  · rw [h]
    exact Or.inl (.of_eq rfl rfl)
  · replace h : wgProcessDataMessage c env n x data addr port
        = wgProcessInner c env (acceptedFrom env n x s plain data addr port) x
          (data.length - 16) := h
    rw [h]
    rcases wgProcessInner_emits c env (acceptedFrom env n x s plain data addr port) x
        (data.length - 16)
        (fun y => (acceptedFrom_setup env n x s plain data addr port y).trans (hsetup y)) with
      hsent | ⟨packet, ⟨l, hl, hin⟩, hsent⟩
    · exact Or.inl (hsent.after rfl rfl)
    · refine Or.inr ⟨packet, ⟨l ++ [.opened x ((n.peer x).keypair s).sid (dataCounter data) true
        env.time], ?_, List.mem_append_left _ hin⟩, hsent.after rfl rfl⟩
      rw [hl, List.append_assoc]
      rfl

theorem wgUnderLoad_emits (n : Netdev cfg) : Emits c d [] n (wgUnderLoad env n).1 := by
  unfold wgUnderLoad
  dsimp only
  split <;> exact .of_eq rfl rfl

/-- An initiation is answered, or a cookie sent, or nothing. -/
theorem initiation_emits {data : List Byte} {addr : U32} {port : U16}
    (htype : messageType data = messageHandshakeInitiation)
    (h : wgProcessUdpPacket c env n data addr port = some n') : Emits c d [] n n' := by
  have hload : Emits c d [] n (wgUnderLoad env n).1 := wgUnderLoad_emits c env n
  unfold wgProcessUdpPacket at h
  rw [if_pos htype] at h
  dsimp only at h
  split at h
  · cases h
    exact .refl n
  split at h
  · split at h
    · cases h
      exact hload.trans (.after (wgSendCookieReply_emits c env _ _ _ _ _) rfl rfl)
    · exact hload.trans (.after (wgProcessInitiation_emits c env h) rfl rfl)
  · exact hload.trans (wgProcessInitiation_emits c env h)

theorem wgProcessUdpPacket_emits {data : List Byte} {addr : U32} {port : U16}
    (hsetup : ∀ y, (n.wg.peers y).setup = (d.peers y).setup)
    (h : wgProcessUdpPacket c env n data addr port = some n') :
    Emits c d [] n n' ∨ ∃ x packet, Injected n n' x packet ∧
      Emits c d [env.ipv4Input packet] n n' := by
  by_cases htype : messageType data = messageHandshakeInitiation
  · exact Or.inl (initiation_emits c env htype h)
  unfold wgProcessUdpPacket at h
  rw [if_neg htype] at h
  split at h
  · dsimp only at h
    split at h
    · cases h
      exact Or.inl (.refl n)
    split at h
    · cases h
      exact Or.inl (.refl n)
    split at h
    · cases h
      exact Or.inl (.refl n)
    · cases h
      exact Or.inl ((wgSendKeepalive_emits c env _ _).after rfl rfl)
  split at h
  · dsimp only at h
    split at h
    · cases h
      exact Or.inl (.refl n)
    split at h
    · cases h
      exact Or.inl (.refl n)
    · exact Or.inl ((wgStartHandshake_emits c env h).after rfl rfl)
  split at h
  · split at h
    · cases h
      exact Or.inl (.refl n)
    · rename_i x hx
      cases h
      rcases wgProcessDataMessage_emits c env n x data addr port hsetup with hsent | ⟨packet, hsent⟩
      · exact Or.inl hsent
      · exact Or.inr ⟨x, packet, hsent⟩
  · cases h
    exact Or.inl (.refl n)

theorem wgRunTimersPeer_emits {x : Fin cfg.maxPeers} (h : wgRunTimersPeer c env n x = some n') :
    Emits c d [] n n' := by
  unfold wgRunTimersPeer at h
  split at h
  · cases h
    exact .refl n
  · dsimp only at h
    have hexpire : Emits c d [] n (n.setPeer x (wgExpirePeer env.now (n.peer x))) := .of_eq rfl rfl
    generalize n.setPeer x (wgExpirePeer env.now (n.peer x)) = m at h hexpire
    have hkeep : Emits c d [] m
        (if keepaliveDue env.now (m.peer x) then wgSendKeepalive c env m x else m) := by
      split
      · exact wgSendKeepalive_emits c env m x
      · exact .refl m
    generalize (if keepaliveDue env.now (m.peer x) then wgSendKeepalive c env m x else m) = m'
      at h hkeep
    refine (hexpire.trans hkeep).trans ?_
    split at h
    · exact wgStartHandshake_emits c env h
    · cases h
      exact .refl _

theorem wgRunTimers_emits (h : wgRunTimers c env n = some n') : Emits c d [] n n' :=
  foldlM_relates (R := Emits c d []) .refl (fun ha hb => ha.trans hb)
    (fun _ _ _ hs => wgRunTimersPeer_emits c env hs) _ h

theorem wgTxpoll_emits (n : Netdev cfg) (packet : List Byte)
    (hsetup : ∀ y, (n.wg.peers y).setup = (d.peers y).setup) :
    Emits c d [packet] n (wgTxpoll c env n packet) := by
  have hbuf : (overwrite n.plainbuf packet).take packet.length = packet := List.take_left
  unfold wgTxpoll
  dsimp only
  split
  · split
    · rename_i x hx
      rw [hbuf]
      exact routed_emits c env n hsetup hx
    · exact Emits.any (.of_eq rfl rfl)
  · exact (Emits.refl n).any

end Functions

/-! ### Runs -/

/-- What the stack offers in a step: the packet it has queued, or its reply to one the step
hands to it. -/
def offers (k : Taken (Netdev cfg) (Event cfg)) : List (List Byte) :=
  match k.event with
  | .rx env .. =>
    ((k.after.log.take (k.after.log.length - k.before.log.length)).filterMap injectedFrom).map
      fun p => env.ipv4Input p.2
  | .txpoll _ packet => [packet]
  | _ => []

theorem step_emits {n n' : Netdev cfg} {e : Event cfg} {d : Device cfg}
    (hsetup : ∀ y, (n.wg.peers y).setup = (d.peers y).setup) (h : step c n e = some n') :
    Emits c d (offers ⟨n, e, n'⟩) n n' := by
  cases e with
  | rx env data addr port =>
      simp only [step] at h
      split at h
      · cases h
        exact (Emits.refl n).any
      · rcases wgProcessUdpPacket_emits c env hsetup h with hsent | ⟨x, packet, ⟨l, hl, hin⟩, hsent⟩
        · exact hsent.any
        · refine hsent.weaken (List.singleton_sublist.mpr ?_)
          have hnew : n'.log.take (n'.log.length - n.log.length) = l := by
            rw [hl, List.length_append, Nat.add_sub_cancel]
            exact List.take_left
          refine List.mem_map.mpr ⟨(x, packet), ?_, rfl⟩
          rw [hnew]
          exact List.mem_filterMap.mpr ⟨_, hin, rfl⟩
  | timers env => exact wgRunTimers_emits c env h
  | txpoll env packet =>
      cases h
      split
      · exact wgTxpoll_emits c env n packet hsetup
      · exact (Emits.refl n).any
  | ifup =>
      cases h
      exact .of_eq rfl rfl
  | ifdown =>
      cases h
      exact .of_eq rfl rfl

/-- The accounts of the steps make the account of the run. -/
theorem run_emits {n m : Netdev cfg} {ts : List (Taken (Netdev cfg) (Event cfg))}
    (h : Run (step c) n ts m) : Emits c n.wg (ts.flatMap offers) n m ∧
      ∀ x, (m.wg.peers x).setup = (n.wg.peers x).setup := by
  induction h with
  | nil => exact ⟨.refl n, fun _ => rfl⟩
  | snoc h hs ih =>
      obtain ⟨hsent, hsetup⟩ := ih
      refine ⟨?_, fun x => (step_setup (x := x) c hs).1.trans (hsetup x)⟩
      rw [List.flatMap_append, List.flatMap_singleton]
      exact hsent.trans (step_emits c hsetup hs)

theorem Initial.silent {n : Netdev cfg} (h : Initial c n) : n.sent = [] := by
  obtain ⟨env, probe, key, pcs, h⟩ := h
  unfold wgInitialize at h
  split at h
  · cases h
  · split at h
    · cases h
    · cases h
      rfl

/-- **Everything the port has handed to its socket is accounted for**: messages of handshakes, and
packets sealed with the keys and counters of the log, which were offered by the stack, each at most
once and in this order, and went to the peer they are routed to. -/
theorem sent_sealed {n m : Netdev cfg} {ts : List (Taken (Netdev cfg) (Event cfg))}
    (hn : Initial c n) (h : Run (step c) n ts m) : ∃ ws : List (Wire cfg),
      m.datagrams = ws.map (Wire.bytes c) ∧
      m.encryptions = (ws.filterMap Wire.sealing).map Sealing.entry ∧
      (packets ws).Sublist (ts.flatMap offers) ∧ ∀ w ∈ ws, w.Made c m.wg := by
  obtain ⟨⟨ws, hws⟩, hsetup⟩ := run_emits c h
  have hsent := hws.sent
  have hencrypted := hws.encrypted
  unfold Netdev.datagrams at hsent
  unfold Netdev.encryptions at hencrypted
  rw [hn.silent] at hsent
  rw [hn.started c] at hencrypted
  exact ⟨ws, hsent, hencrypted, hws.offered, fun w hw => (hws.made w hw).of_setup c hsetup⟩

/-- A response, and a packet in the session it led to. -/
theorem sent_sealed_sample : ∃ (m : Netdev Sample.config) (ws : List (Wire Sample.config)),
    m.datagrams = ws.map (Wire.bytes Crypto.plain) ∧ m.datagrams.length = 2 ∧
      m.encryptions.length = 1 ∧ (packets ws).Sublist [Sample.packet 1] := by
  have hseen : (Sample.initial.any fun n => (steps (step Crypto.plain) n
      [Sample.rxInitiation 1001, Sample.rxData 1002 0 [], Sample.send 1003]).any fun r =>
        decide (r.2.datagrams.length = 2 ∧ r.2.encryptions.length = 1 ∧
          r.1.flatMap offers = [Sample.packet 1])) = true := by
    decide +kernel
  obtain ⟨n, hn, hseen⟩ := (Option.any_eq_true _ _).mp hseen
  obtain ⟨⟨ts, m⟩, hrun, hseen⟩ := (Option.any_eq_true _ _).mp hseen
  obtain ⟨htwo, hone, hoffers⟩ := of_decide_eq_true hseen
  obtain ⟨ws, hsent, -, hpackets, -⟩ :=
    sent_sealed Crypto.plain ⟨_, _, _, _, hn⟩ (.of_steps hrun)
  rw [hoffers] at hpackets
  exact ⟨m, ws, hsent, htwo, hone, hpackets⟩

end Flat

end NuttxWireguard
