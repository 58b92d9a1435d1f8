/-
The configuration file (`wg_write_conf`, `wg_file_private_key`, and the parser of
`wg_cmd_setconf`).

The file is read line by line into an interface request and one request for each `[Peer]`
section; nothing is sent to the driver before all of it has parsed.  It is written from what
the driver reports, with the private key the caller knows.
-/
import NuttxWireguard.Cli.Keys
import NuttxWireguard.Kernel.Info

namespace NuttxWireguard.Cli

open Lib Kernel

/-- `WG_LINE_MAX`. -/
def wgLineMax : Nat := 256

/-- `INET_ADDRSTRLEN`. -/
def inetAddrstrlen : Nat := 16

/-! ### Words -/

namespace Word

def interface : Text := ['[', 'I', 'n', 't', 'e', 'r', 'f', 'a', 'c', 'e', ']']
def peer : Text := ['[', 'P', 'e', 'e', 'r', ']']
def privateKey : Text := ['P', 'r', 'i', 'v', 'a', 't', 'e', 'K', 'e', 'y']
def listenPort : Text := ['L', 'i', 's', 't', 'e', 'n', 'P', 'o', 'r', 't']
def address : Text := ['A', 'd', 'd', 'r', 'e', 's', 's']
def publicKey : Text := ['P', 'u', 'b', 'l', 'i', 'c', 'K', 'e', 'y']
def presharedKey : Text := ['P', 'r', 'e', 's', 'h', 'a', 'r', 'e', 'd', 'K', 'e', 'y']
def allowedIps : Text := ['A', 'l', 'l', 'o', 'w', 'e', 'd', 'I', 'P', 's']
def endpoint : Text := ['E', 'n', 'd', 'p', 'o', 'i', 'n', 't']
def persistentKeepalive : Text :=
  ['P', 'e', 'r', 's', 'i', 's', 't', 'e', 'n', 't', 'K', 'e', 'e', 'p', 'a', 'l', 'i', 'v', 'e']
def off : Text := ['o', 'f', 'f']

end Word

/-! ### Values -/

variable (w : LongWidth)

/-- `wg_parse_endpoint`: the port and the address, in network byte order. -/
def wgParseEndpoint (s : Text) : Option (U16 × U32) :=
  match strrchr ':' s with
  | none => none
  | some (host, rest) =>
    if host.length ≥ inetAddrstrlen then none
    else
      let port := strtol w rest
      if port ≤ 0 ∨ port > 65535 then none
      else (inetPton host).map fun addr => (ntohs (BitVec.ofInt 16 port), addr)

/-- `wg_parse_aip`. -/
def wgParseAip (s : Text) : Option Aip :=
  match strchr '/' s with
  | some (host, rest) =>
    if host.length ≥ inetAddrstrlen then none
    else
      let cidr := strtol w rest
      if cidr < 0 ∨ cidr > 32 then none
      else (inetPton host).map fun addr => ⟨addr, BitVec.ofInt 8 cidr⟩
  | none => (inetPton (s.take (inetAddrstrlen - 1))).map fun addr => ⟨addr, 32⟩

/-- The loop of `wg_parse_aips` over the tokens, `n` of them done. -/
def parseAipTokens : (n : Nat) → List Text → Option (List Aip)
  | _, [] => some []
  | n, tok :: toks =>
    if n ≥ wgMaxAips then none
    else do
      let aip ← wgParseAip w (tok.dropWhile (· == ' '))
      let aips ← parseAipTokens (n + 1) toks
      some (aip :: aips)

/-- `wg_parse_aips`. -/
def wgParseAips (list : Text) : Option (List Aip) := parseAipTokens w 0 (strtok ',' list)

/-! ### Reading -/

/-- Why a file is refused, and at which line. -/
inductive ConfError
  | tooManyPeers (lineno : Nat)
  | expectedKeyValue (lineno : Nat)
  | badValue (lineno : Nat) (key : Text)

/-- A cleared request. -/
def IfReq.zero : IfReq := ⟨0, Bytes.zero 32, 0, 0, 0⟩

def PeerReq.zero : PeerReq := ⟨0, 0, Bytes.zero 32, Bytes.zero 32, 0, 0, 0, 0, fun _ => ⟨0, 0⟩⟩

/-- What the parser has read. -/
structure Conf where
  ifr : IfReq
  peers : List PeerReq
  /-- `cur` points to the last peer, and not nowhere. -/
  inPeer : Bool

def Conf.empty : Conf := ⟨IfReq.zero, [], false⟩

/-- A key of the `[Interface]` section; the others are wg-quick's business. -/
def interfaceKey (key val : Text) (ifr : IfReq) : Option IfReq :=
  if strcasecmp key Word.privateKey then
    (wgB64Decode val).map fun k =>
      { ifr with privateKey := k, flags := ifr.flags ||| wgIfHasPrivateKey }
  else if strcasecmp key Word.listenPort then
    some { ifr with
      listenPort := BitVec.ofNat 16 (strtoul w val)
      flags := ifr.flags ||| wgIfHasListenPort }
  else if strcasecmp key Word.address then
    (wgParseAip w val).map fun a =>
      { ifr with addr := a.addr, netmask := prefixMask a.cidr, flags := ifr.flags ||| wgIfHasAddr }
  else some ifr

/-- A key of a `[Peer]` section. -/
def peerKey (key val : Text) (req : PeerReq) : Option PeerReq :=
  if strcasecmp key Word.publicKey then
    (wgB64Decode val).map fun k => { req with publicKey := k }
  else if strcasecmp key Word.presharedKey then
    (wgB64Decode val).map fun k =>
      { req with presharedKey := k, flags := req.flags ||| wgPeerHasPsk }
  else if strcasecmp key Word.allowedIps then
    (wgParseAips w val).map fun aips => { req with
      aips := fun j => aips.getD j (req.aips j)
      naips := BitVec.ofNat 8 aips.length
      flags := req.flags ||| (wgPeerHasAips ||| wgPeerReplaceAips) }
  else if strcasecmp key Word.endpoint then
    (wgParseEndpoint w val).map fun r => { req with
      sinFamily := afInet
      sinPort := r.1
      sinAddr := r.2
      flags := req.flags ||| wgPeerHasEndpoint }
  else if strcasecmp key Word.persistentKeepalive then
    some { req with
      keepalive := if strcasecmp val Word.off then 0 else BitVec.ofNat 16 (strtoul w val)
      flags := req.flags ||| wgPeerHasKeepalive }
  else some req

/-- The body of the loop of `wg_cmd_setconf`; `line` is what `fgets` delivered. -/
def confLine (maxPeers lineno : Nat) (line : Text) (conf : Conf) : Except ConfError Conf :=
  let key := skipBlanks (cutAt ['\r', '\n'] (cString line))
  if key = [] ∨ key.head? = some '#' then .ok conf
  else if strcasecmp key Word.interface then .ok { conf with inPeer := false }
  else if strcasecmp key Word.peer then
    if conf.peers.length ≥ maxPeers then .error (.tooManyPeers lineno)
    else .ok { conf with peers := conf.peers ++ [PeerReq.zero], inPeer := true }
  else
    match strchr '=' key with
    | none => .error (.expectedKeyValue lineno)
    | some (key, val) =>
      let key := cutAt [' ', '\t'] key
      let val := skipBlanks val
      if ¬conf.inPeer then
        match interfaceKey w key val conf.ifr with
        | none => .error (.badValue lineno key)
        | some ifr => .ok { conf with ifr := ifr }
      else
        match peerKey w key val (conf.peers.getLastD PeerReq.zero) with
        | none => .error (.badValue lineno key)
        | some req => .ok { conf with peers := conf.peers.dropLast ++ [req] }

/-- The loop, `done` lines in. -/
def confLines (maxPeers : Nat) : (done : Nat) → List Text → Conf → Except ConfError Conf
  | _, [], conf => .ok conf
  | done, line :: rest, conf =>
    match confLine w maxPeers (done + 1) line conf with
    | .error err => .error err
    | .ok conf => confLines maxPeers (done + 1) rest conf

/-- What `wg_cmd_setconf` reads in a file. -/
def readConf (maxPeers : Nat) (file : Text) : Except ConfError Conf :=
  confLines w maxPeers 0 (lines wgLineMax file) Conf.empty

/-! ### The private key of a file -/

/-- The line gives a private key. -/
def linePrivateKey (line : Text) : Option Text :=
  let p := skipBlanks (cString line)
  if ¬strncasecmp p Word.privateKey then none
  else
    match strchr '=' p with
    | none => none
    | some (_, eq) =>
      let key := cutAt [' ', '\t', '\r', '\n'] (skipBlanks eq)
      if key.length = wgB64Len then some key else none

/-- `wg_file_private_key`, for a file that is there. -/
def wgFilePrivateKey (file : Text) : Option Text := (lines wgLineMax file).findSome? linePrivateKey

/-! ### Writing -/

/-- `"PrivateKey = %s\n"` and its like. -/
def confEntry (key val : Text) : Text := key ++ [' ', '=', ' '] ++ val ++ ['\n']

/-- An address and a prefix length. -/
def confPrefix (addr : U32) (cidr : Nat) : Text := inetNtop addr ++ '/' :: decimal cidr

/-- The `[Interface]` section of `wg_write_conf`. -/
def writeInterface (ifr : IfInfo) (privkey : Text) : Text :=
  Word.interface ++ ['\n'] ++ confEntry Word.privateKey privkey ++
    confEntry Word.listenPort (decimal ifr.listenPort.toNat) ++
    if ifr.has wgIfHasAddr ∧ ifr.addr ≠ 0 then
      confEntry Word.address (confPrefix ifr.addr (maskCidr ifr.netmask))
    else []

/-- Its `[Peer]` section for one peer. -/
def writePeer (peer : PeerInfo) : Text :=
  ['\n'] ++ Word.peer ++ ['\n'] ++ confEntry Word.publicKey (wgB64Encode peer.publicKey) ++
    (if peer.has wgPeerHasAips then
      confEntry Word.allowedIps ([',', ' '].intercalate
        (((List.finRange wgMaxAips).take peer.naips.toNat).map fun j =>
          confPrefix (peer.aips j).addr (peer.aips j).cidr.toNat))
    else []) ++
    (if peer.has wgPeerHasEndpoint then
      confEntry Word.endpoint
        (inetNtop peer.sinAddr ++ ':' :: decimal (ntohs peer.sinPort).toNat)
    else []) ++
    if peer.keepalive > 0 then
      confEntry Word.persistentKeepalive (decimal peer.keepalive.toNat)
    else []

/-- `wg_write_conf`, from what the driver reports and a private key that is known. -/
def wgWriteConf (ifr : IfInfo) (peers : List PeerInfo) (privkey : Text) : Text :=
  writeInterface ifr privkey ++ peers.flatMap writePeer

/-- The peers `wg_write_conf` enumerates: `i` of them done, and `count` left to ask for. -/
def enumeratePeers (get : U16 → Option PeerInfo) : (count i : Nat) → List PeerInfo
  | 0, _ => []
  | count + 1, i =>
    match get (BitVec.ofNat 16 i) with
    | none => []
    | some peer => peer :: enumeratePeers get count (i + 1)

/-! ### Recording a key -/

/-- The loop of `wg_record_private_key`: what it writes, once it has `written` the key. -/
def recordLines (key : Text) : (written : Bool) → List Text → Text
  | written, [] =>
    if written then [] else Word.interface ++ ['\n'] ++ confEntry Word.privateKey key
  | written, line :: rest =>
    let line := cString line
    let p := skipBlanks line
    if strncasecmp p Word.privateKey then
      if ¬written then confEntry Word.privateKey key ++ recordLines key true rest
      else recordLines key written rest
    else if ¬written ∧ strncasecmp p Word.interface then
      line ++ confEntry Word.privateKey key ++ recordLines key true rest
    else line ++ recordLines key written rest

/-- What `wg_record_private_key` stages, for a file or its absence. -/
def wgRecordPrivateKey (key : Text) (file : Option Text) : Text :=
  recordLines key false (lines wgLineMax (file.getD []))

end NuttxWireguard.Cli
