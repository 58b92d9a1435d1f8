/-
A packet through the tunnel.

`wg_transmit` admits packets of up to `WG_PKTSIZE` bytes and `wg_send_data` pads them to a
multiple of 16, with room for that in the transmit and in the receive buffer.  The receiver
decrypts into a buffer of `WG_PKTSIZE` bytes and refuses what does not fit, padding
included.  So a packet arrives as it was sent exactly if its padded length is at most
`WG_PKTSIZE`.
-/
import NuttxWireguard.Kernel.Noninterference
import NuttxWireguard.Lookup

namespace NuttxWireguard

open Lib

variable {cfg : Config}

namespace Kernel

variable (c : Crypto) (env : Env cfg)

/-! ### Receiving what was sealed -/

section Sealed

variable {c : Crypto} {env : Env cfg} {n : Netdev cfg} {x : Fin cfg.maxPeers} {s : Slot}
  {receiver : U32}

/-- A datagram sealed for a keypair in use comes open, if it fits. -/
theorem wgProcessData_sealed (haead : c.AeadCorrect)
    (hindex : keypairByIndex (n.peer x) receiver = some s)
    (hlimit : receivingExhausted env.now ((n.peer x).keypair s) = false)
    (counter : U64) (plain : List Byte) (ip : U32) (port : U16)
    (hfresh : (wgCheckReplay ((n.peer x).keypair s) counter).1 = true) :
    wgProcessData c env n x (dataHeader receiver counter ++
        c.aeadEncrypt plain [] counter ((n.peer x).keypair s).receivingKey) ip port =
      if plain.length > cfg.pktsize then n
      else wgProcessInner env
        ((({ n with plainbuf := overwrite n.plainbuf plain } : Netdev cfg).observe
          (.opened x ((n.peer x).keypair s).sid counter true env.time)).setPeer x
          (acceptPacket env.now (n.peer x) s (wgCheckReplay ((n.peer x).keypair s) counter).2
            ip port (plain.length + authtagLen)))
        x (plain.length + authtagLen) := by
  have hlen : (dataHeader receiver counter ++
      c.aeadEncrypt plain [] counter ((n.peer x).keypair s).receivingKey).length - msgDataLen
        = plain.length + authtagLen := by
    rw [List.length_append, dataHeader_length, c.aeadEncrypt_length, Nat.add_sub_cancel_left]
  have hopen : decryptPacket c ((n.peer x).keypair s)
      (c.aeadEncrypt plain [] counter ((n.peer x).keypair s).receivingKey) counter = some plain :=
    haead plain [] counter _
  unfold wgProcessData
  simp only [dataReceiver_dataHeader, dataCounter_dataHeader, drop_dataHeader, hlen, hindex]
  rw [if_neg (by rw [hlimit]; decide)]
  by_cases hsize : plain.length > cfg.pktsize
  · rw [if_pos (Or.inr (by omega)), if_pos hsize]
  · rw [if_neg (by omega), if_neg hsize, hopen]
    dsimp only
    rw [if_neg (by rw [hfresh]; decide), hfresh]

theorem wgProcessDatagram_data {data : List Byte} (htype : messageType data = messageTransportData)
    (hpeer : peerByReceiver n.wg (dataReceiver data) = some x) (ip : U32) (port : U16) :
    wgProcessDatagram c env n data ip port = some (wgProcessData c env n x data ip port) := by
  unfold wgProcessDatagram
  rw [htype, if_neg (by decide), if_neg (by decide), if_neg (by decide), if_pos rfl, hpeer]

/-- An IPv4 packet from an allowed source, with its padding, is handed to the stack without
it. -/
theorem wgProcessInner_padded {packet buf : List Byte}
    (hbuf : n.plainbuf = overwrite buf (padPayload packet)) (hheader : ipv4HdrLen ≤ packet.length)
    (hversion : ipVersion packet = 4) (htotal : ipTotalLen packet = packet.length)
    (hallowed : sourceAllowed (n.peer x) (ipSource packet) = true) :
    wgProcessInner env n x (paddedLen packet.length + authtagLen) = wgDeliver env n x packet := by
  obtain ⟨hdeliverable, htake⟩ := deliverable_padPayload hheader hversion htotal hallowed
  have hinner := wgProcessInner_deliverable env hbuf hdeliverable
  rwa [padPayload_length, htake] at hinner

end Sealed

/-! ### From one device to the other -/

/-- The keypair the device would send with to peer `x`. -/
def Netdev.sendingKeypair (n : Netdev cfg) (x : Fin cfg.maxPeers) : Keypair cfg :=
  (n.peer x).keypair (sendingSlot (n.peer x).keypair)

/-- The device is handed a well-formed IPv4 packet of an admitted length that it routes to
peer `x`, and queues `out` for it. -/
structure Sends (a : Netdev cfg) (packet : List Byte) (x : Fin cfg.maxPeers) (out : Outbound) :
    Prop where
  version : ipVersion packet = 4
  total : ipTotalLen packet = packet.length
  admitted : ipv4HdrLen ≤ packet.length ∧ packet.length ≤ cfg.pktsize
  routed : peerForDest a.wg (ipDest packet) = some x
  queued : ∃ a', wgTransmit c env a packet = some a' ∧ a'.txqueue = a.txqueue ++ [out]

/-- Peer `x` of device `a` and peer `y` of device `b` share a session both can use: what `a`
seals with its keypair for sending, `b` opens with the one in slot `s`. -/
structure SharedSession (envA envB : Env cfg) (a b : Netdev cfg) (x y : Fin cfg.maxPeers)
    (s : Slot) : Prop where
  sending : sendingUsable (a.sendingKeypair x) = true
  sendingLive : sendingExhausted envA.now (a.sendingKeypair x) = false
  receiving : HoldsIndex b.wg y s (a.sendingKeypair x).remoteIndex
  receivingLive : receivingExhausted envB.now ((b.peer y).keypair s) = false
  key : ((b.peer y).keypair s).receivingKey = (a.sendingKeypair x).sendingKey

/-- The device is up, its receive thread reads, and its stack has a buffer to spare. -/
structure Receptive (b : Netdev cfg) : Prop where
  idle : b.idle
  running : b.running = true
  alloc : env.netpktAlloc = true
  copyin : env.netpktCopyin = true
  tryadd : env.netpktTryadd = true

/-- The arrival of `data` puts `packet` into the receiving stack's queue. -/
def Delivers (b : Netdev cfg) (data : List Byte) (ip : U32) (port : U16) (packet : List Byte) :
    Prop :=
  ∃ b', step c b (.datagram env data ip port) = some b' ∧ b'.rxqueue = b.rxqueue ++ [packet]

/-- What is queued is the padded packet, sealed. -/
theorem Sends.data {a : Netdev cfg} {packet : List Byte} {x : Fin cfg.maxPeers} {out : Outbound}
    (h : Sends c env a packet x out) (husable : sendingUsable (a.sendingKeypair x) = true)
    (hlive : sendingExhausted env.now (a.sendingKeypair x) = false) :
    out.data = dataHeader (a.sendingKeypair x).remoteIndex (a.sendingKeypair x).sendingCounter ++
      c.aeadEncrypt (padPayload packet) [] (a.sendingKeypair x).sendingCounter
        (a.sendingKeypair x).sendingKey := by
  obtain ⟨a', htransmit, hqueue⟩ := h.queued
  have hgrown : a'.txqueue ≠ a.txqueue := by
    rw [hqueue]
    intro hc
    have := congrArg List.length hc
    simp at this
  obtain ⟨hversion, -, -, hdest⟩ := ipHeader_append h.admitted.1 (a.plainbuf.drop packet.length)
  unfold wgTransmit at htransmit
  split at htransmit
  · cases htransmit
    exact absurd rfl hgrown
  dsimp only at htransmit
  rw [if_neg (by unfold overwrite; rw [hversion, h.version]; decide)] at htransmit
  unfold overwrite at htransmit
  rw [hdest, h.routed, List.take_left] at htransmit
  dsimp only at htransmit
  generalize hm : ({ a with plainbuf := packet ++ a.plainbuf.drop packet.length } : Netdev cfg) = m
    at htransmit
  have hpeer : m.peer x = a.peer x := by rw [← hm]; rfl
  have hmqueue : m.txqueue = a.txqueue := by rw [← hm]
  have hkp : (m.peer x).keypair (sendingSlot (m.peer x).keypair) = a.sendingKeypair x := by
    rw [hpeer]
    rfl
  rcases wgSendData_cases c env m x packet with
    ⟨hno, -⟩ | ⟨-, hno, -⟩ | ⟨-, -, -, p, lastTx, -, hsend⟩
  · rw [hkp, husable] at hno
    have hfits := paddedLen_mono h.admitted.2
    unfold wgCryptBufsize at hno
    rcases hno with hno | hno
    · cases hno
    · omega
  · rw [hkp, hlive] at hno
    cases hno
  · rw [hkp] at hsend
    generalize hr : wgTxEnqueue env _ _ _ _ = r at hsend
    rw [hsend] at htransmit
    have hcases := wgTxEnqueue_cases env (m.observe (.encrypted x (a.sendingKeypair x).sid
      (a.sendingKeypair x).initiator (a.sendingKeypair x).sendingKey
      (a.sendingKeypair x).sendingCounter env.time))
      (dataHeader (a.sendingKeypair x).remoteIndex (a.sendingKeypair x).sendingCounter ++
        c.aeadEncrypt (padPayload packet) [] (a.sendingKeypair x).sendingCounter
          (a.sendingKeypair x).sendingKey) (m.peer x).ip (m.peer x).port
    rw [hr] at hcases
    dsimp only at htransmit
    rcases hcases with ⟨k, err, hkey, hr⟩ | hr
    · -- the queue was full: nothing was queued
      rw [hr, if_neg fun hc => hkey (Option.some.inj hc)] at htransmit
      cases htransmit
      exact absurd hmqueue hgrown
    · rw [hr, if_neg (by simp)] at htransmit
      cases htransmit
      change m.txqueue ++ [_] = a.txqueue ++ [out] at hqueue
      rw [hmqueue] at hqueue
      rw [← List.singleton_inj.mp (List.append_cancel_left hqueue)]

/-- `b` is about to get `out`, the first datagram of its session with its counter, with a
packet from one of the sender's addresses in it. -/
structure FirstArrival (envA envB : Env cfg) (a b : Netdev cfg) (packet : List Byte)
    (x y : Fin cfg.maxPeers) (s : Slot) (out : Outbound) : Prop where
  sends : Sends c envA a packet x out
  shared : SharedSession envA envB a b x y s
  ready : Receptive envB b
  first : (wgCheckReplay ((b.peer y).keypair s) (a.sendingKeypair x).sendingCounter).1 = true
  allowed : sourceAllowed (b.peer y) (ipSource packet) = true

section Arrival

variable {c : Crypto} {envA envB : Env cfg} {a b : Netdev cfg} {packet : List Byte}
  {x y : Fin cfg.maxPeers} {s : Slot} {out : Outbound}

/-- The arriving datagram is handled by `wg_process_data`. -/
theorem FirstArrival.step_eq (h : FirstArrival c envA envB a b packet x y s out) (ip : U32)
    (port : U16) :
    step c b (.datagram envB out.data ip port)
      = some (wgProcessData c envB b y out.data ip port) := by
  have hdata := h.sends.data c envA h.shared.sending h.shared.sendingLive
  have hlen : out.data.length = msgDataLen + paddedLen packet.length + authtagLen := by
    rw [hdata, List.length_append, dataHeader_length, c.aeadEncrypt_length, padPayload_length,
      Nat.add_assoc]
  have htake : out.data.take (wgCryptBufsize cfg) = out.data := by
    refine List.take_of_length_le ?_
    have hfits := paddedLen_mono h.sends.admitted.2
    rw [hlen]
    unfold wgCryptBufsize
    omega
  have htype : messageType out.data = messageTransportData := by
    rw [hdata]
    refine messageType_dataHeader _ _ _ ?_
    rw [c.aeadEncrypt_length]
    exact Nat.le_add_left _ _
  have hne : out.data ≠ [] := by
    intro hc
    rw [hc] at hlen
    simp [msgDataLen] at hlen
    omega
  simp only [step]
  rw [if_neg (by simpa using h.ready.idle), if_neg (by simp [hne, h.ready.running]), htake]
  refine wgProcessDatagram_data htype ?_ ip port
  rw [hdata, dataReceiver_dataHeader]
  exact h.shared.receiving.peerByReceiver

/-- Which refuses it, or hands the packet to the stack. -/
theorem FirstArrival.rxqueue (h : FirstArrival c envA envB a b packet x y s out)
    (haead : c.AeadCorrect) (ip : U32) (port : U16) :
    (wgProcessData c envB b y out.data ip port).rxqueue =
      if paddedLen packet.length > cfg.pktsize then b.rxqueue else b.rxqueue ++ [packet] := by
  have hdata := h.sends.data c envA h.shared.sending h.shared.sendingLive
  rw [← h.shared.key] at hdata
  rw [hdata, wgProcessData_sealed haead h.shared.receiving.keypairByIndex h.shared.receivingLive
    _ _ ip port h.first, padPayload_length]
  by_cases hlong : paddedLen packet.length > cfg.pktsize
  · rw [if_pos hlong, if_pos hlong]
  · rw [if_neg hlong, if_neg hlong, wgProcessInner_padded rfl h.sends.admitted.1 h.sends.version
      h.sends.total]
    · unfold wgDeliver
      rw [if_neg (by simp [h.ready.alloc]), if_neg (by simp [h.ready.copyin]),
        if_neg (by simp [h.ready.tryadd])]
      rfl
    · rw [setPeer_peer_self]
      unfold sourceAllowed
      rw [acceptPacket_allowedSourceIps]
      exact h.allowed

/-- **A packet arrives as it was sent exactly if it fits with its padding.** -/
theorem delivers_iff (h : FirstArrival c envA envB a b packet x y s out) (haead : c.AeadCorrect)
    (ip : U32) (port : U16) :
    Delivers c envB b out.data ip port packet ↔ paddedLen packet.length ≤ cfg.pktsize := by
  unfold Delivers
  rw [h.step_eq ip port]
  have hqueue := h.rxqueue haead ip port
  by_cases hfits : paddedLen packet.length ≤ cfg.pktsize
  · rw [if_neg (by omega)] at hqueue
    exact ⟨fun _ => hfits, fun _ => ⟨_, rfl, hqueue⟩⟩
  · refine ⟨?_, fun hle => absurd hle hfits⟩
    rintro ⟨b', hb', hgrown⟩
    rw [← Option.some.inj hb', hqueue, if_pos (by omega)] at hgrown
    simpa using congrArg List.length hgrown

end Arrival

/-! ### The lengths that are lost -/

namespace Sample

open NuttxWireguard.Sample

/-- The other device: it drew index 7, and its peer sends with index 1. -/
def other : List (Event config) :=
  bringUp ++ [.datagram { Sample.env 1001 with draws := fun _ => [draw 7] }
    { initiation with sender := 1 }.bytes (address 9 9 9 9) 1234]

/-- A packet of `len` bytes from `10.0.0.5`, its payload zero. -/
def longPacket (len : Nat) : List Byte :=
  [0x45, 0, BitVec.ofNat 8 (len / 256), BitVec.ofNat 8 len, 0, 0, 0, 0, 64, 17, 0, 0,
    10, 0, 0, 5, 10, 0, 0, 1] ++ List.replicate (len - 20) 0

/-- The two devices share a session, and a packet of `len` bytes is on its way. -/
theorem firstArrival (len : Nat)
    (hpacket : ipVersion (longPacket len) = 4 ∧ ipTotalLen (longPacket len) = len ∧
      (longPacket len).length = len ∧ ipv4HdrLen ≤ len ∧ len ≤ config.pktsize)
    (h : (state (bringUp ++ [rxInitiation 1001, rxData 1002 0 []])).any (fun a =>
      (state other).any fun b =>
        decide (peerForDest a.wg (ipDest (longPacket len)) = some first) &&
        ((wgTransmit Crypto.plain (Sample.env 1003) a (longPacket len)).any fun a' =>
          decide (a'.txqueue.dropLast = a.txqueue ∧ a'.txqueue ≠ [])) &&
        sendingUsable (a.sendingKeypair first) &&
        !sendingExhausted (sysNow 1003) (a.sendingKeypair first) &&
        decide (HoldsIndex b.wg first .next (a.sendingKeypair first).remoteIndex) &&
        !receivingExhausted (sysNow 1003) ((b.peer first).keypair .next) &&
        decide (((b.peer first).keypair .next).receivingKey
          = (a.sendingKeypair first).sendingKey) &&
        decide (b.idle ∧ b.running = true) &&
        (wgCheckReplay ((b.peer first).keypair .next) (a.sendingKeypair first).sendingCounter).1 &&
        sourceAllowed (b.peer first) (ipSource (longPacket len))) = true) :
    ∃ a b out, ReachableState Crypto.plain a ∧ ReachableState Crypto.plain b ∧
      FirstArrival Crypto.plain (Sample.env 1003) (Sample.env 1003) a b (longPacket len) first first .next out := by
  obtain ⟨hversion, htotal, hlen, hmin, hmax⟩ := hpacket
  obtain ⟨a, ha, h⟩ := (Option.any_eq_true _ _).mp h
  obtain ⟨b, hb, h⟩ := (Option.any_eq_true _ _).mp h
  simp only [Bool.and_eq_true, decide_eq_true_eq, Bool.not_eq_true'] at h
  obtain ⟨⟨⟨⟨⟨⟨⟨⟨⟨hroute, hqueued⟩, husable⟩, hsending⟩, hindex⟩, hreceiving⟩, hkey⟩, hup⟩, hfirst⟩,
    hallowed⟩ := h
  obtain ⟨a', ha', hqueued⟩ := (Option.any_eq_true _ _).mp hqueued
  obtain ⟨hinit, hne⟩ := of_decide_eq_true hqueued
  refine ⟨a, b, a'.txqueue.getLast hne, reachable ha, reachable hb, ?_⟩
  refine ⟨⟨hversion, by rw [htotal, hlen], by rw [hlen]; exact ⟨hmin, hmax⟩, hroute, a', ha', ?_⟩,
    ⟨husable, hsending, hindex, hreceiving, hkey⟩, ⟨hup.1, hup.2, rfl, rfl, rfl⟩, hfirst, hallowed⟩
  rw [← hinit, List.dropLast_append_getLast hne]

end Sample

/-- A packet of 1408 bytes, the longest to arrive. -/
theorem delivers_iff_sample : ∃ (a b : Netdev Sample.config) (out : Outbound),
    ReachableState Crypto.plain a ∧ ReachableState Crypto.plain b ∧
      (Delivers Crypto.plain (Sample.env 1003) b out.data (Sample.address 9 9 9 9) 1234
        (Sample.longPacket 1408) ↔ paddedLen (Sample.longPacket 1408).length ≤ 1420) := by
  obtain ⟨a, b, out, ha, hb, h⟩ := Sample.firstArrival 1408 (by decide +kernel) (by decide +kernel)
  exact ⟨a, b, out, ha, hb, delivers_iff h Crypto.plain_aeadCorrect _ _⟩

/-- A packet of the full 1420 bytes is encrypted and then refused. -/
theorem not_delivers_full : ¬∀ (envA envB : Env Sample.config) (a b : Netdev Sample.config)
    (packet : List Byte) (x y : Fin Sample.config.maxPeers) (s : Slot) (out : Outbound) (ip : U32)
    (port : U16), ReachableState Crypto.plain a → ReachableState Crypto.plain b →
    FirstArrival Crypto.plain envA envB a b packet x y s out →
    Delivers Crypto.plain envB b out.data ip port packet := by
  intro hall
  obtain ⟨a, b, out, ha, hb, h⟩ := Sample.firstArrival 1420 (by decide +kernel) (by decide +kernel)
  obtain ⟨b', hb', hgrown⟩ := hall _ _ a b _ _ _ _ out 0 0 ha hb h
  have hlong : paddedLen (Sample.longPacket 1420).length > Sample.config.pktsize := by
    decide +kernel
  rw [h.step_eq 0 0] at hb'
  rw [← Option.some.inj hb', h.rxqueue Crypto.plain_aeadCorrect 0 0, if_pos hlong] at hgrown
  simpa using congrArg List.length hgrown

end Kernel

end NuttxWireguard
