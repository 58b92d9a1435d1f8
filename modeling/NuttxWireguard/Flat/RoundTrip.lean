/-
A packet through the flat port's tunnel.

`wg_txpoll` admits packets of up to `WG_MAX_PACKET` bytes.  `wg_encrypt_and_send` pads them to
a multiple of 16 and refuses what is then longer than `WG_CRYPT_BUFSIZE` with its 32 bytes of
header and tag.  The receive task reads into a buffer of `WG_MAX_PACKET` bytes, which has no
room for these 32.  So a packet of more than 1488 bytes is not sent, one of more than 1456
is sent and cut off, and the others arrive as they were sent.
-/
import NuttxWireguard.Flat.Routing
import NuttxWireguard.Messages

namespace NuttxWireguard.Flat

open Lib

variable {cfg : Config} (c : Crypto)

/-! ### What both ends have -/

/-- The keypair the device would send with to peer `x`. -/
def Netdev.sendingKeypair (n : Netdev cfg) (x : Fin cfg.maxPeers) : Keypair cfg :=
  (n.peer x).keypair (sendingSlot (n.peer x).keypair)

/-- The packet an entry says was handed to the stack, if it does, and the peer it is from. -/
def injectedFrom {n : Nat} : Obs n → Option (Fin n × List Byte)
  | .injected x packet => some (x, packet)
  | _ => none

/-- What was handed to the stack, newest first. -/
def Netdev.injections (n : Netdev cfg) : List (Fin cfg.maxPeers × List Byte) :=
  n.log.filterMap injectedFrom

/-- The device is up and gets a well-formed IPv4 packet from its stack, of a length that
`wg_txpoll` admits, which it routes to peer `x`; the session with `x` can be used. -/
structure Sends (env : Env cfg) (a : Netdev cfg) (packet : List Byte) (x : Fin cfg.maxPeers) :
    Prop where
  up : a.bifup = true
  version : ipVersion packet = 4
  total : ipTotalLen packet = packet.length
  admitted : ipv4HdrLen ≤ packet.length ∧ packet.length ≤ wgMaxPacket
  routed : peerForDest a.wg (ipDest packet) = some x
  usable : sendingUsable (a.sendingKeypair x) = true
  live : sendingExhausted env.now (a.sendingKeypair x) = false

/-- Slot `s` of the other device's peer `y` mirrors the sender's keypair `kp`, the counter of
the next datagram is fresh there, the packet is from one of `y`'s addresses, and the
stack takes it. -/
structure Mirrors (env : Env cfg) (b : Netdev cfg) (packet : List Byte) (y : Fin cfg.maxPeers)
    (s : Slot) (kp : Keypair cfg) : Prop where
  holds : HoldsIndex b.wg y s kp.remoteIndex
  key : ((b.peer y).keypair s).receivingKey = kp.sendingKey
  live : receivingExhausted env.now ((b.peer y).keypair s) = false
  fresh : (wireguardCheckReplay ((b.peer y).keypair s) kp.sendingCounter).1 = true
  allowed : sourceAllowed (b.peer y) (ipSource packet) = true
  up : b.bifup = true
  prepare : env.iobPrepare = true
  copyin : env.iobCopyin = true

/-- **The packet makes its way**: one datagram is handed to the socket, the receiver reads it
whole, and hands this packet to its stack and nothing else. -/
structure Arrives (envA envB : Env cfg) (a b : Netdev cfg) (packet : List Byte)
    (y : Fin cfg.maxPeers) (addr : U32) (port : U16) (out : Outbound) : Prop where
  sent : ∃ a', step c a (.txpoll envA packet) = some a' ∧ a'.sent = a.sent ++ [out]
  whole : out.data.take wgMaxPacket = out.data
  injected : ∃ b', step c b (.rx envB out.data addr port) = some b' ∧
    b'.injections = (y, packet) :: b.injections

/-! ### Sending -/

section Sender

variable {c : Crypto} {env : Env cfg} {a : Netdev cfg} {packet : List Byte}
  {x : Fin cfg.maxPeers}

/-- What the keypair seals. -/
def sealed (c : Crypto) (kp : Keypair cfg) (packet : List Byte) : List Byte :=
  dataHeader kp.remoteIndex kp.sendingCounter ++
    c.aeadEncrypt (padPayload packet) [] kp.sendingCounter kp.sendingKey

theorem sealed_length (c : Crypto) (kp : Keypair cfg) (packet : List Byte) :
    (sealed c kp packet).length = msgDataLen + paddedLen packet.length + authtagLen := by
  unfold sealed
  rw [List.length_append, dataHeader_length, c.aeadEncrypt_length, padPayload_length,
    Nat.add_assoc]

theorem wgEncryptAndSend_sent (a : Netdev cfg) (packet : List Byte)
    (husable : sendingUsable (a.sendingKeypair x) = true)
    (hlive : sendingExhausted env.now (a.sendingKeypair x) = false) :
    (wgEncryptAndSend c env a x packet).1.sent =
      if 16 + paddedLen packet.length + authtagLen > wgCryptBufsize then a.sent
      else a.sent ++
        [⟨sealed c (a.sendingKeypair x) packet, (a.peer x).ip, (a.peer x).port⟩] := by
  unfold Netdev.sendingKeypair at husable hlive ⊢
  unfold wgEncryptAndSend
  dsimp only
  rw [if_neg (by rw [husable]; decide), if_neg (by rw [hlive]; decide)]
  by_cases hlong : 16 + paddedLen packet.length + authtagLen > wgCryptBufsize
  · rw [if_pos hlong, if_pos hlong]
  · rw [if_neg hlong, if_neg hlong]
    rfl

/-- **What the sender hands to its socket**: the padded packet, sealed, if the buffer has
room for it. -/
theorem Sends.sent (h : Sends env a packet x) : ∃ a',
    step c a (.txpoll env packet) = some a' ∧
      a'.sent = if 16 + paddedLen packet.length + authtagLen > wgCryptBufsize then a.sent
        else a.sent ++
          [⟨sealed c (a.sendingKeypair x) packet, (a.peer x).ip, (a.peer x).port⟩] := by
  obtain ⟨hmin, hmax⟩ := h.admitted
  obtain ⟨-, -, -, hdest⟩ := ipHeader_append hmin (a.plainbuf.drop packet.length)
  have hpos : packet.length > 0 := Nat.lt_of_lt_of_le (by decide) hmin
  refine ⟨_, rfl, ?_⟩
  rw [if_pos h.up]
  unfold wgTxpoll overwrite
  rw [if_pos ⟨hpos, hmax⟩]
  dsimp only
  rw [hdest, h.routed, List.take_left]
  exact wgEncryptAndSend_sent { a with plainbuf := packet ++ a.plainbuf.drop packet.length } packet
    h.usable h.live

end Sender

/-! ### Receiving -/

section Receiver

variable {c : Crypto} {env : Env cfg} {b : Netdev cfg} {packet : List Byte}
  {y : Fin cfg.maxPeers} {s : Slot} {kp : Keypair cfg}

/-- The stack takes the packet; what it answers is encrypted. -/
theorem wgInjectPlaintext_injections (hpos : 0 < packet.length)
    (hmax : packet.length ≤ wgMaxPacket) (hup : b.bifup = true) (hprepare : env.iobPrepare = true)
    (hcopyin : env.iobCopyin = true) :
    (wgInjectPlaintext c env b y packet).injections = (y, packet) :: b.injections := by
  have hanswer : ∀ (n : Netdev cfg) (z : Fin cfg.maxPeers) (reply : List Byte),
      (wgEncryptAndSend c env n z reply).1.injections = n.injections := by
    intro n z reply
    obtain ⟨l, hl, hnone⟩ := wgEncryptAndSend_log c env n z reply
    unfold Netdev.injections
    rw [hl, List.filterMap_append]
    have hnil : l.filterMap injectedFrom = [] := by
      rw [List.filterMap_eq_nil_iff]
      intro o ho
      cases o with
      | injected x packet => exact absurd ho (hnone x packet)
      | _ => rfl
    rw [hnil, List.nil_append]
  have htaken : ¬(packet.length = 0 ∨ packet.length > wgMaxPacket ∨ ¬b.bifup = true) := by
    rintro (hc | hc | hc)
    · omega
    · omega
    · exact hc hup
  unfold wgInjectPlaintext
  rw [if_neg htaken, if_neg (by simp [hprepare]), if_neg (by simp [hcopyin])]
  dsimp only
  split
  · split
    · rw [hanswer]
      rfl
    · rfl
  · rfl

/-- An IPv4 packet from an allowed source is handed to the stack without its padding. -/
theorem wgProcessInner_padded {buf : List Byte}
    (hbuf : b.plainbuf = overwrite buf (padPayload packet)) (hheader : ipv4HdrLen ≤ packet.length)
    (hversion : ipVersion packet = 4) (htotal : ipTotalLen packet = packet.length)
    (hallowed : sourceAllowed (b.peer y) (ipSource packet) = true) :
    wgProcessInner c env b y (paddedLen packet.length + authtagLen) =
      wgInjectPlaintext c env b y packet := by
  obtain ⟨hdeliverable, htake⟩ := deliverable_padPayload hheader hversion htotal hallowed
  have hlong := hdeliverable.header.trans hdeliverable.fits
  have hpos : 0 < (padPayload packet).length := Nat.lt_of_lt_of_le (by decide) hlong
  have hsame := ipHeader_append hlong (buf.drop (padPayload packet).length)
  have hplain : b.plainbuf = padPayload packet ++ buf.drop (padPayload packet).length := hbuf
  rw [← hplain] at hsame
  have hinner := wgProcessInner_taken c env hplain ⟨hsame.1, hsame.2.1, hsame.2.2.1⟩
    hdeliverable.version hdeliverable.source hpos hdeliverable.fits
  rwa [padPayload_length, htake] at hinner

/-- **What the mirrored keypair makes of it**: the packet comes out, if it fits. -/
theorem Mirrors.injections (h : Mirrors env b packet y s kp) (haead : c.AeadCorrect)
    (hheader : ipv4HdrLen ≤ packet.length) (hversion : ipVersion packet = 4)
    (htotal : ipTotalLen packet = packet.length) (hfits : paddedLen packet.length ≤ wgMaxPacket)
    (addr : U32) (port : U16) :
    (wgProcessDataMessage c env b y (sealed c kp packet) addr port).injections =
      (y, packet) :: b.injections := by
  have hlen : (sealed c kp packet).length - 16 = paddedLen packet.length + authtagLen := by
    rw [sealed_length]
    unfold msgDataLen
    omega
  have hopen : decryptPacket c ((b.peer y).keypair s) ((sealed c kp packet).drop 16)
      kp.sendingCounter = some (padPayload packet) := by
    unfold decryptPacket sealed
    rw [h.key]
    have hdrop := drop_dataHeader kp.remoteIndex kp.sendingCounter
      (c.aeadEncrypt (padPayload packet) [] kp.sendingCounter kp.sendingKey)
    unfold msgDataLen at hdrop
    rw [hdrop]
    exact haead (padPayload packet) [] _ _
  have hreceiver : dataReceiver (sealed c kp packet) = kp.remoteIndex := by
    unfold sealed
    exact dataReceiver_dataHeader _ _ _
  have hcounter : dataCounter (sealed c kp packet) = kp.sendingCounter := by
    unfold sealed
    exact dataCounter_dataHeader _ _ _
  have hindex : keypairByIndex (b.peer y) kp.remoteIndex = some s := h.holds.keypairByIndex
  have hpad := le_paddedLen packet.length
  unfold wgProcessDataMessage
  dsimp only
  rw [hreceiver, hcounter, hlen, hindex]
  dsimp only
  rw [if_neg (by rw [h.live]; decide), if_neg (by omega), hopen]
  dsimp only
  rw [if_neg (by rw [h.fresh]; decide), wgProcessInner_padded rfl hheader hversion htotal]
  · have hpos : 0 < packet.length := Nat.lt_of_lt_of_le (by decide) hheader
    exact wgInjectPlaintext_injections hpos (by omega) h.up h.prepare h.copyin
  · rw [setPeer_peer_self]
    unfold sourceAllowed
    rw [acceptPacket_allowedSourceIps]
    exact h.allowed

/-- The receive task hands what it reads to `wg_process_data_message`. -/
theorem step_sealed (h : Mirrors env b packet y s kp)
    (hwhole : (sealed c kp packet).take wgMaxPacket = sealed c kp packet) (addr : U32)
    (port : U16) :
    step c b (.rx env (sealed c kp packet) addr port) =
      some (wgProcessDataMessage c env b y (sealed c kp packet) addr port) := by
  have hne : sealed c kp packet ≠ [] := by
    intro hc
    have hlen := sealed_length c kp packet
    rw [hc] at hlen
    simp [msgDataLen] at hlen
    omega
  have htype : messageType (sealed c kp packet) = messageTransportData := by
    refine messageType_dataHeader _ _ _ ?_
    rw [c.aeadEncrypt_length]
    exact Nat.le_add_left _ _
  have hpeer : peerByReceiver b.wg (dataReceiver (sealed c kp packet)) = some y := by
    unfold sealed
    rw [dataReceiver_dataHeader]
    exact h.holds.peerByReceiver
  simp only [step]
  rw [if_neg hne, hwhole]
  unfold wgProcessUdpPacket
  rw [htype, if_neg (by decide), if_neg (by decide), if_neg (by decide), if_pos rfl, hpeer]

end Receiver

/-! ### From one device to the other -/

section Tunnel

variable {c : Crypto} {envA envB : Env cfg} {a b : Netdev cfg} {packet : List Byte}
  {x y : Fin cfg.maxPeers} {s : Slot}

/-- With padding, header and tag the packet fits the receive buffer. -/
theorem whole_iff (n : Nat) :
    msgDataLen + paddedLen n + authtagLen ≤ wgMaxPacket ↔ n ≤ 1456 := by
  unfold msgDataLen paddedLen authtagLen wgMaxPacket
  omega

/-- A packet that arrives had room in the receive buffer. -/
theorem Sends.length_le (hsends : Sends envA a packet x) {addr : U32} {port : U16} {out : Outbound}
    (h : Arrives c envA envB a b packet y addr port out) : packet.length ≤ 1456 := by
  obtain ⟨a', hstep, hsent⟩ := hsends.sent (c := c)
  obtain ⟨a'', hstep', hout⟩ := h.sent
  obtain rfl : a' = a'' := Option.some.inj (hstep.symm.trans hstep')
  rw [hout] at hsent
  split at hsent
  · exact absurd (congrArg List.length hsent) (by simp)
  · have hdata := congrArg Outbound.data (List.singleton_inj.mp (List.append_cancel_left hsent))
    have hwhole := h.whole
    rw [hdata] at hwhole
    rw [← whole_iff, ← sealed_length c (a.sendingKeypair x) packet]
    exact (List.take_eq_self_iff _).mp hwhole

/-- One that has room arrives. -/
theorem Sends.arrives (hsends : Sends envA a packet x)
    (hmirrors : Mirrors envB b packet y s (a.sendingKeypair x)) (haead : c.AeadCorrect)
    (hfits : packet.length ≤ 1456) (addr : U32) (port : U16) :
    ∃ out, Arrives c envA envB a b packet y addr port out := by
  obtain ⟨a', hstep, hsent⟩ := hsends.sent (c := c)
  rw [← whole_iff] at hfits
  have hroom : ¬16 + paddedLen packet.length + authtagLen > wgCryptBufsize := by
    unfold msgDataLen at hfits
    unfold wgCryptBufsize
    omega
  have hwhole : (sealed c (a.sendingKeypair x) packet).take wgMaxPacket =
      sealed c (a.sendingKeypair x) packet := by
    refine List.take_of_length_le ?_
    rwa [sealed_length]
  have hinjected := hmirrors.injections haead hsends.admitted.1 hsends.version hsends.total
    (by omega) addr port
  rw [if_neg hroom] at hsent
  exact ⟨_, ⟨a', hstep, hsent⟩, hwhole, _, step_sealed hmirrors hwhole addr port, hinjected⟩

/-- **A packet arrives as it was sent exactly if it has at most 1456 bytes.** -/
theorem arrives_iff (hsends : Sends envA a packet x)
    (hmirrors : Mirrors envB b packet y s (a.sendingKeypair x)) (haead : c.AeadCorrect)
    (addr : U32) (port : U16) :
    (∃ out, Arrives c envA envB a b packet y addr port out) ↔ packet.length ≤ 1456 :=
  ⟨fun ⟨_, h⟩ => hsends.length_le h, fun hfits => hsends.arrives hmirrors haead hfits addr port⟩

end Tunnel

/-! ### The lengths that are lost -/

namespace Sample

open NuttxWireguard.Sample

/-- The other device: it drew index 7, and its peer sends with index 1. -/
def other : List (Event config) :=
  [.rx { env 1001 with draws := fun _ => [⟨[7, 0, 0, 0], rfl⟩] }
    { initiation with sender := 1 }.bytes (address 9 9 9 9) 1234]

/-- A packet of `len` bytes from `10.0.0.7`, its payload zero. -/
def longPacket (len : Nat) : List Byte :=
  [0x45, 0, BitVec.ofNat 8 (len / 256), BitVec.ofNat 8 len, 0, 0, 0, 0, 64, 17, 0, 0,
    10, 0, 0, 7, 10, 0, 0, 1] ++ List.replicate (len - 20) 0

/-- Two devices share a session, and a packet of `len` bytes is to go from one to the other. -/
theorem tunnel (len : Nat)
    (h : (state [rxInitiation 1001, rxData 1002 0 []]).any (fun a =>
      (state other).any fun b =>
        a.bifup && decide (ipVersion (longPacket len) = 4) &&
        decide (ipTotalLen (longPacket len) = (longPacket len).length) &&
        decide (ipv4HdrLen ≤ (longPacket len).length ∧ (longPacket len).length ≤ wgMaxPacket) &&
        decide (peerForDest a.wg (ipDest (longPacket len)) = some first) &&
        sendingUsable (a.sendingKeypair first) &&
        !sendingExhausted (sysNow 1003) (a.sendingKeypair first) &&
        decide (HoldsIndex b.wg first .next (a.sendingKeypair first).remoteIndex) &&
        decide (((b.peer first).keypair .next).receivingKey
          = (a.sendingKeypair first).sendingKey) &&
        !receivingExhausted (sysNow 1003) ((b.peer first).keypair .next) &&
        (wireguardCheckReplay ((b.peer first).keypair .next)
          (a.sendingKeypair first).sendingCounter).1 &&
        sourceAllowed (b.peer first) (ipSource (longPacket len)) && b.bifup) = true) :
    ∃ a b : Netdev config, ReachableState Crypto.plain a ∧ ReachableState Crypto.plain b ∧
      Sends (Sample.env 1003) a (longPacket len) first ∧
      Mirrors (Sample.env 1003) b (longPacket len) first .next (a.sendingKeypair first) := by
  obtain ⟨a, ha, h⟩ := (Option.any_eq_true _ _).mp h
  obtain ⟨b, hb, h⟩ := (Option.any_eq_true _ _).mp h
  simp only [Bool.and_eq_true, decide_eq_true_eq, Bool.not_eq_true'] at h
  obtain ⟨⟨⟨⟨⟨⟨⟨⟨⟨⟨⟨⟨hup, hversion⟩, htotal⟩, hadmitted⟩, hroute⟩, husable⟩, hlive⟩, hholds⟩, hkey⟩,
    hreceiving⟩, hfresh⟩, hallowed⟩, hupB⟩ := h
  exact ⟨a, b, reachable ha, reachable hb, ⟨hup, hversion, htotal, hadmitted, hroute, husable, hlive⟩,
    ⟨hholds, hkey, hreceiving, hfresh, hallowed, hupB, rfl, rfl⟩⟩

end Sample

/-- A packet of 1456 bytes, the longest to arrive. -/
theorem arrives_iff_sample : ∃ a b : Netdev Sample.config,
    ReachableState Crypto.plain a ∧ ReachableState Crypto.plain b ∧
      ((∃ out, Arrives Crypto.plain (Sample.env 1003) (Sample.env 1003) a b (Sample.longPacket 1456)
        Sample.first (Sample.address 9 9 9 9) 1234 out) ↔
          (Sample.longPacket 1456).length ≤ 1456) := by
  obtain ⟨a, b, ha, hb, hsends, hmirrors⟩ := Sample.tunnel 1456 (by decide +kernel)
  exact ⟨a, b, ha, hb, arrives_iff hsends hmirrors Crypto.plain_aeadCorrect _ _⟩

/-- A packet of the full 1500 bytes is admitted, and not sent. -/
theorem not_arrives : ¬∀ (envA envB : Env Sample.config) (a b : Netdev Sample.config)
    (packet : List Byte) (x y : Fin Sample.config.maxPeers) (s : Slot) (addr : U32) (port : U16),
    ReachableState Crypto.plain a → ReachableState Crypto.plain b → Sends envA a packet x →
    Mirrors envB b packet y s (a.sendingKeypair x) →
    ∃ out, Arrives Crypto.plain envA envB a b packet y addr port out := by
  intro hall
  obtain ⟨a, b, ha, hb, hsends, hmirrors⟩ := Sample.tunnel 1500 (by decide +kernel)
  obtain ⟨out, h⟩ := hall _ _ a b _ _ _ _ 0 0 ha hb hsends hmirrors
  have hlong : ¬(Sample.longPacket 1500).length ≤ 1456 := by decide +kernel
  exact hlong (hsends.length_le h)

end NuttxWireguard.Flat
