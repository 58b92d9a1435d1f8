/-
Which peer a packet may come from, and which peer it would go to.

A decrypted packet is let in when its source lies in the allowed-ips of the peer that
sent it.  An outgoing packet is routed by the longest prefix over all peers.  The flat
port accepts any table of allowed-ips, nested ones included, so the two can disagree: they
agree on a source exactly when no other peer outranks the sender on it.
-/
import NuttxWireguard.Flat.Nonce
import NuttxWireguard.InnerPacket
import NuttxWireguard.Lookup

namespace NuttxWireguard.Flat

open Lib

variable {cfg : Config} (c : Crypto) (env : Env cfg)

/-! ### What is let in -/

/-- An encryption adds no packet for the stack. -/
theorem wgEncryptAndSend_log (n : Netdev cfg) (x : Fin cfg.maxPeers) (plaintext : List Byte) :
    ∃ l, (wgEncryptAndSend c env n x plaintext).1.log = l ++ n.log ∧
      ∀ y packet, Obs.injected y packet ∉ l := by
  rcases wgEncryptAndSend_cases c env n x plaintext with h | ⟨-, -, h⟩ | ⟨-, -, p, tx, -, h⟩
  · rw [h]; exact ⟨[], rfl, by simp⟩
  · rw [h]; exact ⟨[], rfl, by simp⟩
  · rw [h]; exact ⟨[_], rfl, by simp⟩

/-- A plaintext whose header is its own is handed over as far as the header says. -/
theorem wgProcessInner_taken {n : Netdev cfg} {x : Fin cfg.maxPeers} {plain rest : List Byte}
    (hbuf : n.plainbuf = plain ++ rest)
    (hheader : ipVersion n.plainbuf = ipVersion plain ∧ ipTotalLen n.plainbuf = ipTotalLen plain ∧
      ipSource n.plainbuf = ipSource plain)
    (hversion : ipVersion plain = 4) (hsource : sourceAllowed (n.peer x) (ipSource plain) = true)
    (hpos : 0 < plain.length) (hfits : ipTotalLen plain ≤ plain.length) :
    wgProcessInner c env n x (plain.length + authtagLen)
      = wgInjectPlaintext c env n x (plain.take (ipTotalLen plain)) := by
  obtain ⟨hv, hl, hs⟩ := hheader
  have hcond : sourceAllowed (n.peer x) (ipSource plain) = true ∧
      ipTotalLen plain ≤ plain.length + authtagLen - authtagLen :=
    ⟨hsource, by omega⟩
  unfold wgProcessInner
  rw [if_pos (by omega)]
  dsimp only
  rw [if_pos (hv.trans hversion), hl, hs, if_pos hcond, hbuf, List.take_append_of_le_length hfits]

/-- What reaches the stack had its source checked. -/
theorem wgProcessInner_log (n : Netdev cfg) (x : Fin cfg.maxPeers) (dataLen : Nat) :
    (wgProcessInner c env n x dataLen).log = n.log ∨
    (sourceAllowed (n.peer x) (ipSource n.plainbuf) = true ∧
      ∃ l packet, (wgProcessInner c env n x dataLen).log = l ++ .injected x packet :: n.log ∧
        ∀ y packet, Obs.injected y packet ∉ l) := by
  unfold wgProcessInner
  dsimp only
  split
  · split
    · split
      · rename_i hsrc
        rcases wgInjectPlaintext_cases c env n x (n.plainbuf.take (ipTotalLen n.plainbuf)) with
          h | ⟨b, h | ⟨y, reply, h⟩⟩
        · rw [h]; exact Or.inl rfl
        · rw [h]; exact Or.inr ⟨hsrc.1, [], _, rfl, by simp⟩
        · rw [h]
          obtain ⟨l, hl, hno⟩ := wgEncryptAndSend_log c env
            { n.observe (.injected x (n.plainbuf.take (ipTotalLen n.plainbuf))) with plainbuf := b }
            y reply
          exact Or.inr ⟨hsrc.1, l, _, hl, hno⟩
      · exact Or.inl rfl
    · exact Or.inl rfl
  · exact Or.inl rfl

/-- Peer `x`'s datagram decrypts to `plain`, and a packet from it reaches the stack. -/
def LetsIn (n : Netdev cfg) (x : Fin cfg.maxPeers) (data : List Byte) (addr : U32) (port : U16)
    (plain : List Byte) : Prop :=
  peerByReceiver n.wg (dataReceiver data) = some x ∧
  ∃ s, keypairByIndex (n.peer x) (dataReceiver data) = some s ∧
    decryptPacket c ((n.peer x).keypair s) (data.drop 16) (dataCounter data) = some plain ∧
    ∃ l y packet, (wgProcessDataMessage c env n x data addr port).log = l ++ n.log ∧
      .injected y packet ∈ l

/-- A packet let in came from an address its sender's allowed-ips cover. -/
theorem LetsIn.covers {n : Netdev cfg} {x : Fin cfg.maxPeers} {data : List Byte} {addr : U32}
    {port : U16} {plain : List Byte} (h : LetsIn c env n x data addr port plain) :
    ∃ z, ((n.peer x).allowedSourceIps z).covers (ipSource plain) = true := by
  obtain ⟨-, s, hs, hplain, l, y, packet, hlog, hin⟩ := h
  have hnew : ∀ l', (wgProcessDataMessage c env n x data addr port).log = l' ++ n.log →
      .injected y packet ∈ l' := by
    intro l' hl'
    rw [← List.append_cancel_right (hlog.symm.trans hl')]
    exact hin
  rcases wgProcessDataMessage_cases c env n x data addr port with
    ⟨b, hr⟩ | ⟨s', hs', ⟨-, hr⟩ | ⟨-, -, plain', hplain', ⟨-, hr⟩ | ⟨-, hr⟩⟩⟩
  · exact absurd (hnew [] (by rw [hr]; rfl)) (by simp)
  · exact absurd (hnew [] (by rw [hr]; rfl)) (by simp)
  · exact absurd (hnew [_] (by rw [hr]; rfl)) (by simp)
  · obtain rfl := Option.some.inj (hs.symm.trans hs')
    obtain rfl := Option.some.inj (hplain.symm.trans hplain')
    rw [hr] at hnew
    rcases wgProcessInner_log c env _ x (data.length - 16) with hl | ⟨hsrc, -⟩
    · exact absurd (hnew [_] hl) (by simp)
    · obtain ⟨z, hz⟩ := sourceAllowed_iff.mp hsrc
      rw [setPeer_peer_self, acceptPacket_allowedSourceIps] at hz
      refine ⟨z, ?_⟩
      rw [← (ipHeader_overwrite_zero plain wgMaxPacket).2.2]
      exact hz

/-- **The two directions of cryptokey routing agree exactly when nobody outranks the
sender.**  A packet that peer `x`'s datagram brings in has a source that would be routed
to `x` if and only if no other peer covers it with a longer prefix, or with one as long
from an earlier place. -/
theorem letsIn_route_iff {n : Netdev cfg} {x : Fin cfg.maxPeers} {data : List Byte} {addr : U32}
    {port : U16} {plain : List Byte} (h : LetsIn c env n x data addr port plain) :
    peerForDest n.wg (ipSource plain) = some x ↔
      ∀ x', ¬Outranks n.wg (ipSource plain) x' x :=
  peerForDest_eq_some_iff (peerByReceiver_valid h.1) (h.covers c env)

namespace Sample

open NuttxWireguard.Sample

/-- The first peer brings in a packet from host `host` of `10.0.0.0/24`. -/
theorem letsIn (host : Byte)
    (h : (state [rxInitiation 1001]).any (fun n =>
      let m := wgProcessDataMessage Crypto.plain (Sample.env 1002) n first (datagram 0 (packet host))
        (address 9 9 9 9) 1234
      decide (peerByReceiver n.wg (dataReceiver (datagram 0 (packet host))) = some first) &&
      decide (keypairByIndex (n.peer first) (dataReceiver (datagram 0 (packet host)))
        = some .next) &&
      decide (decryptPacket Crypto.plain ((n.peer first).keypair .next)
        ((datagram 0 (packet host)).drop 16) (dataCounter (datagram 0 (packet host)))
        = some (padPayload (packet host))) &&
      decide (m.log = m.log.take 2 ++ n.log ∧ .injected first (packet host) ∈ m.log.take 2)) = true) :
    ∃ n, ReachableState Crypto.plain n ∧ state [rxInitiation 1001] = some n ∧
      LetsIn Crypto.plain (Sample.env 1002) n first (datagram 0 (packet host)) (address 9 9 9 9) 1234
        (padPayload (packet host)) := by
  obtain ⟨n, hn, h⟩ := (Option.any_eq_true _ _).mp h
  simp only [Bool.and_eq_true, decide_eq_true_eq] at h
  exact ⟨n, reachable hn, hn, h.1.1.1, .next, h.1.1.2, h.1.2, _, _, _, h.2⟩

end Sample

/-- Host 7 is the first peer's alone. -/
theorem letsIn_route_iff_sample :
    ∃ n : Netdev Sample.config,
      peerForDest n.wg (ipSource (padPayload (Sample.packet 7))) = some Sample.first ↔
        ∀ x', ¬Outranks n.wg (ipSource (padPayload (Sample.packet 7))) x' Sample.first := by
  obtain ⟨n, -, -, h⟩ := Sample.letsIn 7 (by decide +kernel)
  exact ⟨n, letsIn_route_iff Crypto.plain (Sample.env 1002) h⟩

/-- Host 5 is the second peer's, inside the first one's network: the first may send from
it, and what is sent to it goes to the second. -/
theorem letsIn_route_nested :
    ¬∀ (cfg : Config) (c : Crypto) (env : Env cfg) (n : Netdev cfg) (x : Fin cfg.maxPeers)
      (data : List Byte) (addr : U32) (port : U16) (plain : List Byte), ReachableState c n →
      LetsIn c env n x data addr port plain → peerForDest n.wg (ipSource plain) = some x := by
  intro hall
  obtain ⟨n, hreach, hn, h⟩ := Sample.letsIn 5 (by decide +kernel)
  have hroute := hall _ _ _ n _ _ _ _ _ hreach h
  have helse : (Sample.state [Sample.rxInitiation 1001]).any (fun n => decide
      (peerForDest n.wg (ipSource (padPayload (Sample.packet 5))) = some Sample.second)) = true := by
    decide +kernel
  rw [hn, Option.any_some, decide_eq_true_eq, hroute] at helse
  exact absurd helse (by decide)

end NuttxWireguard.Flat
