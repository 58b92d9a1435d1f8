/-
The protocol core both drivers share.

`wireguard.c` of the flat port and `wg_noise.c` of the driver are two tellings of one
original, and most of their functions differ in layout only.  Those are defined here
once; each docstring names both.  Where the two really differ (what a started session
leaves of the handshake, which peers an index is checked against, which step may fail)
each keeps its own body, in `Flat/Noise.lean` and `Kernel/Noise.lean`.

A function that updates a record through a pointer returns the record.  One that fails
without touching anything returns `none`.  The clock is read once in each step of a
driver and passed down as `now`.
-/
import NuttxWireguard.Replay

namespace NuttxWireguard

open Lib

variable {cfg : Config} (c : Crypto)

/-! ### Keypairs -/

/-- `keypair_destroy`, `wg_keypair_destroy`. -/
def keypairDestroy (p : Peer cfg) (s : Slot) : Peer cfg := p.setKeypair s Keypair.zero

/-- `keypair_update`, `wg_keypair_update`: the first packet on `next` confirms it. -/
def keypairUpdate (p : Peer cfg) (received : Slot) : Peer cfg :=
  if received = .next then
    keypairDestroy { p with prevKeypair := p.currKeypair, currKeypair := p.nextKeypair } .next
  else p

/-- `add_new_keypair`, `wg_add_keypair`. -/
def addKeypair (p : Peer cfg) (kp : Keypair cfg) : Peer cfg :=
  if kp.initiator then
    let p :=
      if p.nextKeypair.valid then
        keypairDestroy { p with prevKeypair := p.nextKeypair } .next
      else { p with prevKeypair := p.currKeypair }
    { p with currKeypair := kp }
  else
    keypairDestroy { p with nextKeypair := kp } .prev

/-- `get_peer_keypair_for_idx`, `wg_keypair_by_index`. -/
def keypairByIndex (p : Peer cfg) (idx : U32) : Option Slot :=
  if p.currKeypair.valid ∧ p.currKeypair.localIndex = idx then some .curr
  else if p.nextKeypair.valid ∧ p.nextKeypair.localIndex = idx then some .next
  else if p.prevKeypair.valid ∧ p.prevKeypair.localIndex = idx then some .prev
  else none

/-- The keypair `wireguard_start_session` and `wg_start_session` derive from a finished
handshake (5.4.5). -/
def sessionKeypair (now : U32) (sid born : Nat) (hs : Handshake) (initiator : Bool) :
    Keypair cfg :=
  let keys := c.kdf2 hs.chainingKey []
  { Keypair.zero with
    initiator := initiator
    localIndex := hs.localIndex
    remoteIndex := hs.remoteIndex
    keypairMillis := now
    sendingValid := true
    receivingValid := true
    sendingKey := if initiator then keys.1 else keys.2
    receivingKey := if initiator then keys.2 else keys.1
    valid := true
    sid := sid
    born := born }

/-- `wireguard_encrypt_packet`, `wg_encrypt_packet`. -/
def encryptPacket (kp : Keypair cfg) (src : List Byte) : Keypair cfg × List Byte :=
  ({ kp with sendingCounter := kp.sendingCounter + 1 },
    c.aeadEncrypt src [] kp.sendingCounter kp.sendingKey)

/-- `wireguard_decrypt_packet`, `wg_decrypt_packet`. -/
def decryptPacket (kp : Keypair cfg) (src : List Byte) (counter : U64) : Option (List Byte) :=
  c.aeadDecrypt src [] counter kp.receivingKey

/-! ### When a session may be used -/

/-- The keypair a driver sends with: the current one, or the previous one while the
current one is not confirmed. -/
def sendingSlot (σ : Slots (Keypair cfg)) : Slot :=
  if (σ .curr).valid ∧ ¬(σ .curr).initiator ∧ (σ .curr).lastRx = 0 then .prev else .curr

/-- The chosen keypair is there, and its session may be sent on. -/
def sendingUsable (kp : Keypair cfg) : Bool :=
  kp.valid && (kp.initiator || decide (kp.lastRx ≠ 0))

/-- Past `REJECT_AFTER_TIME` or `REJECT_AFTER_MESSAGES` for sending. -/
def sendingExhausted (now : U32) (kp : Keypair cfg) : Bool :=
  expired now kp.keypairMillis rejectAfterTime || decide (kp.sendingCounter ≥ rejectAfterMessages)

/-- Past `REJECT_AFTER_TIME` or `REJECT_AFTER_MESSAGES` for receiving. -/
def receivingExhausted (now : U32) (kp : Keypair cfg) : Bool :=
  !kp.receivingValid || expired now kp.keypairMillis rejectAfterTime ||
    decide (kp.replayCounter ≥ rejectAfterMessages)

/-- The peer after a datagram under slot `s` passed the replay window, which left `kp`: the
middle of `wg_process_data_message` and of `wg_process_data`. -/
def acceptPacket (now : U32) (p : Peer cfg) (s : Slot) (kp : Keypair cfg) (addr : U32)
    (port : U16) (dataLen : Nat) : Peer cfg :=
  let p := { p.setKeypair s { kp with lastRx := now } with
    ip := addr
    port := port
    lastRx := now
    rxBytes := p.rxBytes + BitVec.ofNat 64 dataLen }
  let p := keypairUpdate p s
  -- `keypair` still points to the slot, whatever the update left there
  let kp := p.keypair s
  if kp.initiator ∧ expired now kp.keypairMillis
      (rejectAfterTime - p.keepaliveInterval.setWidth 32 - rekeyTimeout) then
    { p with sendHandshake := true }
  else p

/-- The session is near its message or time limit (6.2). -/
def rekeyDue (now : U32) (kp : Keypair cfg) : Bool :=
  decide (kp.sendingCounter ≥ rekeyAfterMessages) ||
    (kp.initiator && expired now kp.keypairMillis rekeyAfterTime)

/-! ### Timers

Both drivers walk over their peers with the same rules.
-/

/-- Three reject periods: forget everything, the learned endpoint included. -/
def wgForgetPeer (p : Peer cfg) : Peer cfg :=
  let p := keypairDestroy (keypairDestroy (keypairDestroy p .next) .curr) .prev
  { p with ip := p.connectIp, port := p.connectPort }

/-- The two expiry rules of `wg_run_timers`. -/
def wgExpirePeer (now : U32) (p : Peer cfg) : Peer cfg :=
  let p :=
    if p.currKeypair.valid ∧ expired now p.currKeypair.keypairMillis (rejectAfterTime * 3) then
      wgForgetPeer p
    else p
  if p.currKeypair.valid ∧
      (expired now p.currKeypair.keypairMillis rejectAfterTime ∨
        p.currKeypair.sendingCounter ≥ rejectAfterMessages) then
    keypairDestroy p .curr
  else p

/-- A keepalive is due. -/
def keepaliveDue (now : U32) (p : Peer cfg) : Bool :=
  decide (p.keepaliveInterval > 0) && (p.currKeypair.valid || p.prevKeypair.valid) &&
    expired now p.lastTx (p.keepaliveInterval.setWidth 32)

/-- A handshake is due and may be tried again. -/
def shouldInitiate (now : U32) (p : Peer cfg) : Bool :=
  (decide (p.lastInitiationTx = 0) || expired now p.lastInitiationTx rekeyTimeout) &&
    (p.sendHandshake ||
      (p.currKeypair.valid && !p.currKeypair.initiator &&
        expired now p.currKeypair.keypairMillis
          (rejectAfterTime - p.keepaliveInterval.setWidth 32)) ||
      (!p.currKeypair.valid && p.active))

/-- What `wg_ifup` does to each peer: start from the configured endpoint. -/
def wgIfupPeer (p : Peer cfg) : Peer cfg :=
  if p.valid ∧ p.connectIp ≠ 0 ∧ p.connectPort > 0 then
    { p with active := true, ip := p.connectIp, port := p.connectPort, sendHandshake := true }
  else p

/-! ### Looking peers up -/

/-- `peer_lookup_by_pubkey`, `wg_peer_by_pubkey`. -/
def peerByPubkey (d : Device cfg) (publicKey : Key) : Option (Fin cfg.maxPeers) :=
  (List.finRange cfg.maxPeers).find? fun x =>
    (d.peers x).valid && decide ((d.peers x).publicKey = publicKey)

/-- `peer_lookup_by_receiver`, `wg_peer_by_receiver`. -/
def peerByReceiver (d : Device cfg) (receiver : U32) : Option (Fin cfg.maxPeers) :=
  (List.finRange cfg.maxPeers).find? fun x =>
    let p := d.peers x
    p.valid &&
      ((p.currKeypair.valid && decide (p.currKeypair.localIndex = receiver)) ||
        (p.nextKeypair.valid && decide (p.nextKeypair.localIndex = receiver)) ||
        (p.prevKeypair.valid && decide (p.prevKeypair.localIndex = receiver)))

/-- `peer_lookup_by_handshake`, `wg_peer_by_handshake`. -/
def peerByHandshake (d : Device cfg) (receiver : U32) : Option (Fin cfg.maxPeers) :=
  (List.finRange cfg.maxPeers).find? fun x =>
    let p := d.peers x
    p.valid && p.handshake.valid && p.handshake.initiator &&
      decide (p.handshake.localIndex = receiver)

/-- `peer_alloc`, `wg_peer_alloc`. -/
def peerAlloc (d : Device cfg) : Option (Fin cfg.maxPeers) :=
  (List.finRange cfg.maxPeers).find? fun x => !(d.peers x).valid

/-! ### Cookies and MACs -/

/-- `generate_peer_cookie`, `wg_peer_cookie`; `secret` is what the random source writes
if the cookie secret is due for renewal. -/
def peerCookie (now : U32) (secret : Key) (d : Device cfg) (source : List Byte) :
    Device cfg × Bytes 16 :=
  let d :=
    if expired now d.cookieSecretMillis cookieSecretMaxAge then
      { d with cookieSecret := secret, cookieSecretMillis := now }
    else d
  (d, c.mac source d.cookieSecret.toList)

/-- `wireguard_check_mac1`, `wg_check_mac1`. -/
def checkMac1 (d : Device cfg) (data : List Byte) (mac1 : Bytes 16) : Bool :=
  decide (c.mac data d.labelMac1Key.toList = mac1)

/-- `wireguard_check_mac2`, `wg_check_mac2`. -/
def checkMac2 (now : U32) (secret : Key) (d : Device cfg) (data source : List Byte)
    (mac2 : Bytes 16) : Device cfg × Bool :=
  let r := peerCookie c now secret d source
  (r.1, decide (c.mac data r.2.toList = mac2))

/-- `wg_source_addr_port`, `wg_source_bytes`: address and port in network byte order. -/
def sourceBytes (addr : U32) (port : U16) : List Byte :=
  (writeLe 4 addr).toList ++ [port.extractLsb' 8 8, port.extractLsb' 0 8]

/-- `wg_sign_message`, and the end of the flat port's two message builders: mac1, and
mac2 under a cookie that is still fresh. -/
def signMessage (now : U32) (p : Peer cfg) (body : List Byte) : Bytes 16 × Bytes 16 :=
  let mac1 := c.mac body p.labelMac1Key.toList
  let mac2 :=
    if p.cookieMillis = 0 ∨ expired now p.cookieMillis cookieSecretMaxAge = true then
      Bytes.zero 16
    else c.mac (body ++ mac1.toList) p.cookie.toList
  (mac1, mac2)

/-- `wireguard_get_message_type`, `wg_message_type`. -/
def messageType (data : List Byte) : Byte :=
  if data.length < 4 ∨ data.getD 1 0 ≠ 0 ∨ data.getD 2 0 ≠ 0 ∨ data.getD 3 0 ≠ 0 then
    messageInvalid
  else if data.getD 0 0 = messageHandshakeInitiation then
    if data.length = msgInitLen then messageHandshakeInitiation else messageInvalid
  else if data.getD 0 0 = messageHandshakeResponse then
    if data.length = msgResponseLen then messageHandshakeResponse else messageInvalid
  else if data.getD 0 0 = messageCookieReply then
    if data.length = msgCookieLen then messageCookieReply else messageInvalid
  else if data.getD 0 0 = messageTransportData then
    if data.length ≥ msgDataLen + authtagLen then messageTransportData else messageInvalid
  else messageInvalid

/-! ### The handshake -/

/-- An initiation that decrypted: who it is from, its timestamp, and the hash and
chaining key the handshake goes on from. -/
structure OpenedInit (cfg : Config) where
  peer : Fin cfg.maxPeers
  timestamp : Bytes 12
  hash : Key
  chainingKey : Key

/-- The responder's half of 5.4.2, up to the decrypted timestamp:
`wireguard_process_initiation_message` and `wg_process_init` before their checks. -/
def openInit (d : Device cfg) (msg : MsgInit) : Option (OpenedInit cfg) := do
  let chainingKey := c.constructionHash
  let hash := c.identifierHash
  let hash := c.mixHash hash d.publicKey.toList
  let chainingKey := c.kdf1 chainingKey msg.ephemeral.toList
  let hash := c.mixHash hash msg.ephemeral.toList
  let dh ← c.dh d.privateKey msg.ephemeral
  let (chainingKey, key) := c.kdf2 chainingKey dh.toList
  let s ← c.decryptField msg.encStatic hash key
  let hash := c.mixHash hash msg.encStatic.toList
  let peer ← peerByPubkey d s
  let (chainingKey, key) := c.kdf2 chainingKey (d.peers peer).publicKeyDh.toList
  let t ← c.decryptField msg.encTimestamp hash key
  let hash := c.mixHash hash msg.encTimestamp.toList
  some ⟨peer, t, hash, chainingKey⟩

/-- `memcmp(t, peer->greatest_timestamp) <= 0`. -/
def timestampReplayed (p : Peer cfg) (t : Bytes 12) : Bool :=
  decide (memcmp t.toList p.greatestTimestamp.toList ≤ 0)

/-- More than `MAX_INITIATIONS_PER_SECOND` accepted initiations. -/
def rateLimited (now : U32) (p : Peer cfg) : Bool :=
  decide (p.lastInitiationRx ≠ 0) &&
    decide (now - p.lastInitiationRx < 1000 / maxInitiationsPerSecond)

/-- The peer record an accepted initiation leaves. -/
def acceptInit (now : U32) (p : Peer cfg) (msg : MsgInit) (o : OpenedInit cfg) : Peer cfg :=
  { p with
    lastInitiationRx := now
    greatestTimestamp := o.timestamp
    handshake := { p.handshake with
      remoteEphemeral := msg.ephemeral
      hash := o.hash
      chainingKey := o.chainingKey
      remoteIndex := msg.sender
      valid := true
      initiator := false } }

/-- 5.4.2, initiator side, once there is an ephemeral key pair: what the handshake record
holds, and the two sealed fields unless X25519 failed. -/
def initiate (d : Device cfg) (p : Peer cfg) (hs : Handshake) (ephemeral : Key)
    (timestamp : Bytes 12) : Handshake × Option (Bytes 48 × Bytes 28) :=
  let hs := { hs with
    chainingKey := c.kdf1 hs.chainingKey ephemeral.toList
    hash := c.mixHash hs.hash ephemeral.toList }
  match c.dh hs.ephemeralPrivate p.publicKey with
  | none => (hs, none)
  | some dh =>
    let (chainingKey, key) := c.kdf2 hs.chainingKey dh.toList
    let encStatic := c.encryptField d.publicKey hs.hash key
    let hash := c.mixHash hs.hash encStatic.toList
    let (chainingKey, key) := c.kdf2 chainingKey p.publicKeyDh.toList
    let encTimestamp := c.encryptField timestamp hash key
    let hash := c.mixHash hash encTimestamp.toList
    ({ hs with chainingKey := chainingKey, hash := hash }, some (encStatic, encTimestamp))

/-- 5.4.3, responder side, once there is an ephemeral key pair: what the handshake record
holds, and the sealed empty field unless X25519 failed. -/
def respond (p : Peer cfg) (hs : Handshake) (ephemeral : Key) :
    Handshake × Option (Bytes 16) :=
  let hs := { hs with
    chainingKey := c.kdf1 hs.chainingKey ephemeral.toList
    hash := c.mixHash hs.hash ephemeral.toList }
  match c.dh hs.ephemeralPrivate hs.remoteEphemeral with
  | none => (hs, none)
  | some dh =>
    let hs := { hs with chainingKey := c.kdf1 hs.chainingKey dh.toList }
    match c.dh hs.ephemeralPrivate p.publicKey with
    | none => (hs, none)
    | some dh =>
      let chainingKey := c.kdf1 hs.chainingKey dh.toList
      let (chainingKey, tau, key) := c.kdf3 chainingKey p.presharedKey.toList
      let hash := c.mixHash hs.hash tau.toList
      let encEmpty := c.encryptField (n := 0) List.Vector.nil hash key
      let hash := c.mixHash hash encEmpty.toList
      ({ hs with chainingKey := chainingKey, hash := hash }, some encEmpty)

/-- The initiation with its MACs. -/
def signInit (now : U32) (p : Peer cfg) (sender : U32) (ephemeral : Key)
    (enc : Bytes 48 × Bytes 28) : MsgInit :=
  let msg : MsgInit := ⟨sender, ephemeral, enc.1, enc.2, Bytes.zero 16, Bytes.zero 16⟩
  let macs := signMessage c now p msg.body
  { msg with mac1 := macs.1, mac2 := macs.2 }

/-- The response with its MACs. -/
def signResponse (now : U32) (p : Peer cfg) (sender receiver : U32) (ephemeral : Key)
    (encEmpty : Bytes 16) : MsgResponse :=
  let msg : MsgResponse :=
    ⟨sender, receiver, ephemeral, encEmpty, Bytes.zero 16, Bytes.zero 16⟩
  let macs := signMessage c now p msg.body
  { msg with mac1 := macs.1, mac2 := macs.2 }

/-- `wireguard_process_handshake_response`, `wg_process_response`: the initiator's half of
5.4.3. -/
def processResponse (d : Device cfg) (p : Peer cfg) (msg : MsgResponse) :
    Option (Peer cfg) := do
  let hs := p.handshake
  if ¬(hs.valid ∧ hs.initiator) then none
  else
    let chainingKey := c.kdf1 hs.chainingKey msg.ephemeral.toList
    let hash := c.mixHash hs.hash msg.ephemeral.toList
    let dh ← c.dh hs.ephemeralPrivate msg.ephemeral
    let chainingKey := c.kdf1 chainingKey dh.toList
    let dh ← c.dh d.privateKey msg.ephemeral
    let chainingKey := c.kdf1 chainingKey dh.toList
    let (chainingKey, tau, key) := c.kdf3 chainingKey p.presharedKey.toList
    let hash := c.mixHash hash tau.toList
    let _empty ← c.decryptField (n := 0) msg.encEmpty hash key
    some { p with handshake := { hs with
      remoteEphemeral := msg.ephemeral
      hash := hash
      chainingKey := chainingKey
      remoteIndex := msg.sender } }

/-- `wireguard_process_cookie_message`, `wg_process_cookie`. -/
def processCookie (now : U32) (p : Peer cfg) (msg : MsgCookie) : Option (Peer cfg) :=
  if ¬p.handshakeMac1Valid then none
  else
    match c.xaeadDecrypt msg.encCookie.toList p.handshakeMac1.toList msg.nonce
        p.labelCookieKey with
    | none => none
    | some cookie => some { p with
        cookie := slice cookie 0 16
        cookieMillis := now
        handshakeMac1Valid := false }

/-! ### Routing -/

/-- An allowed-ip covers an address. -/
def AllowedIp.covers (a : AllowedIp) (addr : U32) : Bool :=
  a.valid && decide (addr &&& a.mask = a.ip &&& a.mask)

/-- `wg_peer_for_dest`: the loop over the peers and, in it, over their allowed-ips, with
the best match so far and its mask in host order. -/
def peerForDest (d : Device cfg) (dest : U32) : Option (Fin cfg.maxPeers) :=
  ((List.finRange cfg.maxPeers).foldl
    (fun (best : Option (Fin cfg.maxPeers) × U32) x =>
      if ¬(d.peers x).valid then best
      else
        (List.finRange cfg.maxAips).foldl
          (fun (best : Option (Fin cfg.maxPeers) × U32) y =>
            let allowed := (d.peers x).allowedSourceIps y
            if ¬allowed.covers dest then best
            else
              let mask := ntohl allowed.mask
              if best.1 = none ∨ mask > best.2 then (some x, mask) else best)
          best)
    (none, 0)).1

/-- `wg_source_allowed`, and the loop of the flat port's `wg_process_data_message`. -/
def sourceAllowed (p : Peer cfg) (src : U32) : Bool :=
  (List.finRange cfg.maxAips).any fun y => (p.allowedSourceIps y).covers src

/-! ### The inner packet -/

/-- `IPv4_HDRLEN`. -/
def ipv4HdrLen : Nat := 20

/-- `(iphdr->vhl >> 4) & 0x0f`. -/
def ipVersion (buf : List Byte) : Byte := (buf.getD 0 0 >>> 4) &&& 0x0f

/-- `(iphdr->len[0] << 8) | iphdr->len[1]`. -/
def ipTotalLen (buf : List Byte) : Nat := (buf.getD 2 0).toNat * 256 + (buf.getD 3 0).toNat

/-- `net_ip4addr_conv32(iphdr->srcipaddr)`. -/
def ipSource (buf : List Byte) : U32 := readLe 32 (slice buf 12 4).toList

/-- `net_ip4addr_conv32(iphdr->destipaddr)`. -/
def ipDest (buf : List Byte) : U32 := readLe 32 (slice buf 16 4).toList

/-- The payload of a data message is padded to 16 bytes. -/
def paddedLen (len : Nat) : Nat := (len + 15) / 16 * 16

/-- `len` bytes of payload and the zeros the buffer was cleared with. -/
def padPayload (payload : List Byte) : List Byte :=
  payload ++ List.replicate (paddedLen payload.length - payload.length) 0

/-- A UDP datagram and where it goes. -/
structure Outbound where
  data : List Byte
  ip : U32
  port : U16
  deriving DecidableEq

end NuttxWireguard
