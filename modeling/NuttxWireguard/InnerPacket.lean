/-
The packet inside a datagram.

Both drivers decrypt into a scratch buffer and read the IPv4 header from it, so a header field
past the end of a short plaintext comes from whatever else the buffer holds.  A plaintext that
covers the header does not have that problem: its fields are its own, and so are those of the
packet cut out of it.
-/
import NuttxWireguard.Messages
import NuttxWireguard.Routing

namespace NuttxWireguard

open Lib

variable {cfg : Config}

/-- A plaintext is as long as its datagram less the tag. -/
theorem decryptPacket_length {c : Crypto} {kp : Keypair cfg} {src plain : List Byte}
    {counter : U64} (h : decryptPacket c kp src counter = some plain) :
    plain.length + authtagLen = src.length :=
  c.aeadDecrypt_length _ _ _ _ _ h

/-- A packet that may go to the stack from a datagram of peer `p` whose authenticated plaintext
is `plain`. -/
structure ProperPacket (p : Peer cfg) (plain packet : List Byte) : Prop where
  version : ipVersion packet = 4
  total : ipTotalLen packet = packet.length
  header : ipv4HdrLen ≤ packet.length
  fits : packet.length ≤ plain.length
  source : sourceAllowed p (ipSource packet) = true
  bytes : packet = plain.take packet.length

/-- The header of a packet is that of the plaintext it is the start of. -/
theorem ipHeader_take {plain : List Byte} {len : Nat} (h : ipv4HdrLen ≤ len)
    (hfits : len ≤ plain.length) :
    ipVersion (plain.take len) = ipVersion plain ∧
      ipTotalLen (plain.take len) = ipTotalLen plain ∧
      ipSource (plain.take len) = ipSource plain := by
  have hlength : ipv4HdrLen ≤ (plain.take len).length := by
    rw [List.length_take, Nat.min_eq_left hfits]
    exact h
  obtain ⟨hversion, htotal, hsource, -⟩ := ipHeader_append hlength (plain.drop len)
  rw [List.take_append_drop] at hversion htotal hsource
  exact ⟨hversion.symm, htotal.symm, hsource.symm⟩

/-- The plaintext is an IPv4 packet, with padding or without, that peer `p` may send. -/
structure Deliverable (p : Peer cfg) (plain : List Byte) : Prop where
  version : ipVersion plain = 4
  header : ipv4HdrLen ≤ ipTotalLen plain
  fits : ipTotalLen plain ≤ plain.length
  source : sourceAllowed p (ipSource plain) = true

/-- Only the peer's allowed-ips matter. -/
theorem Deliverable.congr {p q : Peer cfg} {plain : List Byte} (h : Deliverable p plain)
    (haips : q.allowedSourceIps = p.allowedSourceIps) : Deliverable q plain := by
  refine ⟨h.version, h.header, h.fits, ?_⟩
  have hsource := h.source
  unfold sourceAllowed at hsource ⊢
  rw [haips]
  exact hsource

/-- **What its header asks for is a proper packet.** -/
theorem Deliverable.properPacket {p : Peer cfg} {plain : List Byte} (h : Deliverable p plain) :
    ProperPacket p plain (plain.take (ipTotalLen plain)) := by
  obtain ⟨hv, ht, hs⟩ := ipHeader_take h.header h.fits
  have hlength : (plain.take (ipTotalLen plain)).length = ipTotalLen plain := by
    rw [List.length_take, Nat.min_eq_left h.fits]
  refine ⟨hv.trans h.version, ht.trans hlength.symm, ?_, ?_, ?_, ?_⟩
  · rw [hlength]
    exact h.header
  · rw [hlength]
    exact h.fits
  · rw [hs]
    exact h.source
  · rw [hlength]

/-- **A packet is deliverable with its padding behind it**, and comes out without it. -/
theorem deliverable_padPayload {p : Peer cfg} {packet : List Byte}
    (hheader : ipv4HdrLen ≤ packet.length) (hversion : ipVersion packet = 4)
    (htotal : ipTotalLen packet = packet.length)
    (hallowed : sourceAllowed p (ipSource packet) = true) :
    Deliverable p (padPayload packet) ∧
      (padPayload packet).take (ipTotalLen (padPayload packet)) = packet := by
  have hpad : padPayload packet
      = packet ++ List.replicate (paddedLen packet.length - packet.length) 0 := rfl
  obtain ⟨hv, hl, hs, -⟩ := ipHeader_append hheader
    (List.replicate (paddedLen packet.length - packet.length) 0)
  rw [← hpad] at hv hl hs
  have hlength : ipTotalLen (padPayload packet) = packet.length := hl.trans htotal
  refine ⟨⟨hv.trans hversion, ?_, ?_, ?_⟩, ?_⟩
  · rw [hlength]
    exact hheader
  · rw [hlength, padPayload_length]
    exact le_paddedLen packet.length
  · rw [hs]
    exact hallowed
  · rw [hlength, hpad, List.take_left]

/-! ### A buffer cleared before it is filled -/

/-- The zeros behind the plaintext are what a byte past its end reads as. -/
theorem getD_overwrite_zero (plain : List Byte) (len i : Nat) :
    (overwrite (List.replicate len 0) plain).getD i 0 = plain.getD i 0 := by
  unfold overwrite
  by_cases hi : i < plain.length
  · rw [List.getD_append _ _ _ _ hi]
  · have hle := Nat.not_lt.mp hi
    rw [List.getD_append_right _ _ _ _ hle, List.getD_eq_default _ _ hle, List.drop_replicate]
    by_cases hj : i - plain.length < (List.replicate (len - plain.length) (0 : Byte)).length
    · rw [List.getD_eq_getElem _ _ hj, List.getElem_replicate]
    · rw [List.getD_eq_default _ _ (Nat.not_lt.mp hj)]

theorem ipHeader_overwrite_zero (plain : List Byte) (len : Nat) :
    ipVersion (overwrite (List.replicate len 0) plain) = ipVersion plain ∧
      ipTotalLen (overwrite (List.replicate len 0) plain) = ipTotalLen plain ∧
      ipSource (overwrite (List.replicate len 0) plain) = ipSource plain := by
  refine ⟨?_, ?_, ?_⟩
  · unfold ipVersion
    rw [getD_overwrite_zero]
  · unfold ipTotalLen
    rw [getD_overwrite_zero, getD_overwrite_zero]
  · unfold ipSource slice
    simp only [getD_overwrite_zero]

end NuttxWireguard
