/-
What the scratch buffer held before does not matter.

`wg_process_data` decrypts over a buffer it does not clear, and looks at the header of the
packet before it knows that the plaintext covers it.  A plaintext shorter than a header may so
be judged by old bytes, but it is dropped whatever they say: its total length would have to be
at least a header and at most its own.  Where the plaintext covers the header, everything that
is read and everything that is delivered is the plaintext's.
-/
import NuttxWireguard.InnerPacket
import NuttxWireguard.Kernel.Steps

namespace NuttxWireguard.Kernel

open Lib

variable {cfg : Config} (c : Crypto) (env : Env cfg)

/-- The two devices differ in the scratch buffer at most. -/
def SameButPlainbuf (n m : Netdev cfg) : Prop := ∃ buf, m = { n with plainbuf := buf }

theorem SameButPlainbuf.observe {n m : Netdev cfg} (h : SameButPlainbuf n m)
    (o : Obs cfg.maxPeers) : SameButPlainbuf (n.observe o) (m.observe o) := by
  obtain ⟨buf, rfl⟩ := h
  exact ⟨buf, rfl⟩

theorem SameButPlainbuf.setPeer {n m : Netdev cfg} (h : SameButPlainbuf n m)
    (x : Fin cfg.maxPeers) (p : Peer cfg) : SameButPlainbuf (n.setPeer x p) (m.setPeer x p) := by
  obtain ⟨buf, rfl⟩ := h
  exact ⟨buf, rfl⟩

theorem SameButPlainbuf.wgDeliver {n m : Netdev cfg} (h : SameButPlainbuf n m)
    (x : Fin cfg.maxPeers) (packet : List Byte) :
    SameButPlainbuf (wgDeliver env n x packet) (wgDeliver env m x packet) := by
  obtain ⟨buf, rfl⟩ := h
  refine ⟨buf, ?_⟩
  unfold Kernel.wgDeliver
  split
  · rfl
  split
  · rfl
  split
  · rfl
  · rfl

/-! ### The inner packet -/

section Inner

variable {n : Netdev cfg} {x : Fin cfg.maxPeers} {plain rest : List Byte}

/-- A plaintext that does not cover a header is dropped. -/
theorem wgProcessInner_short (hshort : plain.length < ipv4HdrLen) :
    wgProcessInner env n x (plain.length + authtagLen) = n := by
  unfold wgProcessInner
  dsimp only
  split
  · split
    · rfl
    split
    · rfl
    · rename_i hfits
      omega
  · rfl

/-- **What becomes of a plaintext does not depend on what stands behind it.** -/
theorem wgProcessInner_deliverable (hbuf : n.plainbuf = plain ++ rest)
    (h : Deliverable (n.peer x) plain) :
    wgProcessInner env n x (plain.length + authtagLen)
      = wgDeliver env n x (plain.take (ipTotalLen plain)) := by
  have hlong : ipv4HdrLen ≤ plain.length := h.header.trans h.fits
  obtain ⟨hversion, htotal, hsource, -⟩ := ipHeader_append hlong rest
  rw [← hbuf] at hversion htotal hsource
  have htotal' := h.header
  have hfits := h.fits
  have hpos : plain.length + authtagLen > authtagLen := by
    unfold ipv4HdrLen at hlong
    omega
  unfold wgProcessInner
  rw [if_pos hpos]
  dsimp only
  rw [if_neg (not_not.mpr (hversion.trans h.version)), htotal, if_neg (by omega), hsource,
    if_neg (not_not.mpr h.source), hbuf, List.take_append_of_le_length hfits]

theorem wgProcessInner_dropped (hbuf : n.plainbuf = plain ++ rest)
    (h : ¬Deliverable (n.peer x) plain) :
    wgProcessInner env n x (plain.length + authtagLen) = n := by
  by_cases hshort : plain.length < ipv4HdrLen
  · exact wgProcessInner_short env hshort
  · obtain ⟨hversion, htotal, hsource, -⟩ := ipHeader_append (Nat.not_lt.mp hshort) rest
    rw [← hbuf] at hversion htotal hsource
    unfold wgProcessInner
    dsimp only
    rw [hversion, htotal, hsource]
    split
    · split
      · rfl
      · rename_i hfour
        split
        · rfl
        · rename_i hlen
          split
          · rfl
          · rename_i hallowed
            exact absurd ⟨not_not.mp hfour, by omega, by omega, not_not.mp hallowed⟩ h
    · rfl

end Inner

/-! ### The datagram -/

variable {env}

/-- Two devices that hold the plaintext in front go on alike. -/
theorem SameButPlainbuf.wgProcessInner {n m : Netdev cfg} (h : SameButPlainbuf n m)
    {x : Fin cfg.maxPeers} {plain rest rest' : List Byte} (hn : n.plainbuf = plain ++ rest)
    (hm : m.plainbuf = plain ++ rest') :
    SameButPlainbuf (wgProcessInner env n x (plain.length + authtagLen))
      (wgProcessInner env m x (plain.length + authtagLen)) := by
  have hpeer : m.peer x = n.peer x := by
    obtain ⟨buf, rfl⟩ := h
    rfl
  by_cases hd : Deliverable (n.peer x) plain
  · rw [wgProcessInner_deliverable env hn hd, wgProcessInner_deliverable env hm (hpeer ▸ hd)]
    exact h.wgDeliver env x _
  · rw [wgProcessInner_dropped env hn hd, wgProcessInner_dropped env hm (hpeer ▸ hd)]
    exact h

/-- A packet is handed to the stack, or dropped. -/
theorem wgDeliver_rxqueue (env : Env cfg) (n : Netdev cfg) (x : Fin cfg.maxPeers) (packet : List Byte) :
    (wgDeliver env n x packet).rxqueue = n.rxqueue ∨
      (wgDeliver env n x packet).rxqueue = n.rxqueue ++ [packet] := by
  unfold wgDeliver
  split
  · exact Or.inl rfl
  split
  · exact Or.inl rfl
  split
  · exact Or.inl rfl
  · exact Or.inr rfl

variable {c}

/-- **The whole of `wg_process_data`, in two runs.** -/
theorem SameButPlainbuf.wgProcessData {n m : Netdev cfg} (h : SameButPlainbuf n m)
    (x : Fin cfg.maxPeers) (data : List Byte) (ip : U32) (port : U16) :
    SameButPlainbuf (wgProcessData c env n x data ip port)
      (wgProcessData c env m x data ip port) := by
  have hpeer : m.peer x = n.peer x := by
    obtain ⟨buf, rfl⟩ := h
    rfl
  unfold Kernel.wgProcessData
  dsimp only
  rw [hpeer]
  split
  · exact h
  · rename_i s _
    split
    · exact h.setPeer x _
    split
    · exact h
    split
    · exact h
    · rename_i plain hplain
      have hlen := decryptPacket_length hplain
      rw [List.length_drop] at hlen
      have hover : SameButPlainbuf { n with plainbuf := overwrite n.plainbuf plain }
          { m with plainbuf := overwrite m.plainbuf plain } := by
        obtain ⟨buf, rfl⟩ := h
        exact ⟨overwrite buf plain, rfl⟩
      split
      · exact (hover.observe _).setPeer x _
      · rw [← hlen]
        exact SameButPlainbuf.wgProcessInner ((hover.observe _).setPeer x _)
          (show _ = plain ++ n.plainbuf.drop plain.length from rfl) rfl

/-- Peer `x`'s datagram authenticates as `plain`. -/
def Authenticates (c : Crypto) (p : Peer cfg) (data : List Byte) (plain : List Byte) : Prop :=
  ∃ s, keypairByIndex p (dataReceiver data) = some s ∧
    decryptPacket c (p.keypair s) (data.drop msgDataLen) (dataCounter data) = some plain

/-- **Nothing of the old buffer gets out.**  Two devices that differ in the old contents of the
scratch buffer alone differ in nothing else after a datagram, and what is handed to the stack is
the packet at the start of the datagram's own plaintext. -/
theorem plainbuf_noninterference (c : Crypto) (env : Env cfg) (n : Netdev cfg)
    (x : Fin cfg.maxPeers) (data : List Byte) (ip : U32) (port : U16) :
    (∀ buf, SameButPlainbuf (wgProcessData c env n x data ip port)
      (wgProcessData c env { n with plainbuf := buf } x data ip port)) ∧
    ((wgProcessData c env n x data ip port).rxqueue = n.rxqueue ∨
      ∃ plain, Authenticates c (n.peer x) data plain ∧
        (wgProcessData c env n x data ip port).rxqueue
          = n.rxqueue ++ [plain.take (ipTotalLen plain)] ∧
        ProperPacket (n.peer x) plain (plain.take (ipTotalLen plain))) := by
  refine ⟨fun buf => SameButPlainbuf.wgProcessData ⟨buf, rfl⟩ x data ip port, ?_⟩
  rcases wgProcessData_cases c env n x data ip port with
    h | ⟨s, hs, ⟨-, h⟩ | ⟨-, -, plain, hplain, ⟨-, h⟩ | ⟨-, h⟩⟩⟩
  · rw [h]
    exact Or.inl rfl
  · rw [h]
    exact Or.inl rfl
  · rw [h]
    exact Or.inl rfl
  · have hlen := decryptPacket_length hplain
    rw [List.length_drop] at hlen
    rw [← hlen] at h
    generalize hp : acceptPacket env.now (n.peer x) s _ ip port _ = p at h
    have haips : p.allowedSourceIps = (n.peer x).allowedSourceIps := by
      rw [← hp]
      exact acceptPacket_allowedSourceIps _ _ _ _ _ _ _
    have hbuf : overwrite n.plainbuf plain = plain ++ n.plainbuf.drop plain.length := rfl
    by_cases hd : Deliverable (n.peer x) plain
    · rw [wgProcessInner_deliverable env hbuf (by rw [setPeer_peer_self]; exact hd.congr haips)] at h
      rw [h]
      rcases wgDeliver_rxqueue env _ x (plain.take (ipTotalLen plain)) with hq | hq
      · exact Or.inl (hq.trans rfl)
      · exact Or.inr ⟨plain, ⟨s, hs, hplain⟩, hq.trans rfl, hd.properPacket⟩
    · rw [wgProcessInner_dropped env hbuf
        (by rw [setPeer_peer_self]; exact fun hc => hd (hc.congr haips.symm))] at h
      rw [h]
      exact Or.inl rfl

end NuttxWireguard.Kernel
