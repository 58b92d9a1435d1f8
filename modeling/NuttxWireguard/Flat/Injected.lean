/-
What the flat port hands to the stack.

`wg_process_data_message` takes the packet's length from its own header and checks it against
the plaintext only from above.  So a peer that says its packet is shorter than a header gets
that many bytes handed over, judged by a source address that is not among them.  That is the
one way in which a packet is not the proper start of the plaintext it came in.
-/
import NuttxWireguard.Flat.Routing

namespace NuttxWireguard.Flat

open Lib

variable {cfg : Config} (c : Crypto) (env : Env cfg)

/-- Peer `x`'s datagram authenticates as `plain` and is fresh. -/
def Opens (n : Netdev cfg) (x : Fin cfg.maxPeers) (data plain : List Byte) : Prop :=
  ∃ s, keypairByIndex (n.peer x) (dataReceiver data) = some s ∧
    receivingExhausted env.now ((n.peer x).keypair s) = false ∧
    data.length - msgDataLen ≤ wgMaxPacket + authtagLen ∧
    decryptPacket c ((n.peer x).keypair s) (data.drop 16) (dataCounter data) = some plain ∧
    (Kernel.wgCheckReplay ((n.peer x).keypair s) (dataCounter data)).1 = true

/-- What the code asks of the plaintext, and of the interface, before it hands over as many
bytes as the header says. -/
structure Admits (n : Netdev cfg) (p : Peer cfg) (plain : List Byte) : Prop where
  version : ipVersion plain = 4
  source : sourceAllowed p (ipSource plain) = true
  some : 0 < ipTotalLen plain
  fits : ipTotalLen plain ≤ plain.length
  up : n.bifup = true
  prepared : env.iobPrepare = true
  copied : env.iobCopyin = true

/-- The step hands `packet` to the stack, as one of peer `y`'s. -/
def Injected (n m : Netdev cfg) (y : Fin cfg.maxPeers) (packet : List Byte) : Prop :=
  ∃ l, m.log = l ++ n.log ∧ .injected y packet ∈ l

theorem not_injected_of_log {n m : Netdev cfg} {l : List (Obs cfg.maxPeers)}
    (hlog : m.log = l ++ n.log) (hno : ∀ y packet, Obs.injected y packet ∉ l)
    (y : Fin cfg.maxPeers) (packet : List Byte) : ¬Injected n m y packet := by
  rintro ⟨l', hlog', hin⟩
  rw [List.append_cancel_right (hlog'.symm.trans hlog)] at hin
  exact hno y packet hin

/-! ### The inner packet -/

section Inner

variable {n : Netdev cfg} {x : Fin cfg.maxPeers} {plain : List Byte}

theorem wgInjectPlaintext_log (packet : List Byte) (hsome : 0 < packet.length)
    (hfits : packet.length ≤ wgMaxPacket) (hup : n.bifup = true)
    (hprepared : env.iobPrepare = true) (hcopied : env.iobCopyin = true) :
    ∃ l, (wgInjectPlaintext c env n x packet).log = l ++ .injected x packet :: n.log ∧
      ∀ y packet, Obs.injected y packet ∉ l := by
  unfold wgInjectPlaintext
  dsimp only
  rw [if_neg (not_or.mpr ⟨by omega, not_or.mpr ⟨by omega, not_not.mpr hup⟩⟩), if_neg (not_not.mpr hprepared),
    if_neg (not_not.mpr hcopied)]
  split
  · split
    · obtain ⟨l, hl, hno⟩ := wgEncryptAndSend_log c env
        { n.observe (.injected x packet) with
          plainbuf := overwrite n.plainbuf (env.ipv4Input packet) } _ _
      exact ⟨l, hl, hno⟩
    · exact ⟨[], rfl, fun _ _ hc => by cases hc⟩
  · exact ⟨[], rfl, fun _ _ hc => by cases hc⟩

theorem wgInjectPlaintext_refused (packet : List Byte)
    (h : ¬(0 < packet.length ∧ n.bifup = true ∧ env.iobPrepare = true ∧ env.iobCopyin = true)) :
    wgInjectPlaintext c env n x packet = n := by
  unfold wgInjectPlaintext
  dsimp only
  split
  · rfl
  · rename_i hlen
    split
    · rfl
    · rename_i hprepared
      split
      · rfl
      · rename_i hcopied
        obtain ⟨hpos, hlen⟩ := not_or.mp hlen
        obtain ⟨-, hup⟩ := not_or.mp hlen
        exact absurd ⟨Nat.pos_of_ne_zero hpos, not_not.mp hup, not_not.mp hprepared,
          not_not.mp hcopied⟩ h

/-- An admitted plaintext. -/
theorem wgProcessInner_admits (hbuf : n.plainbuf = overwrite (List.replicate wgMaxPacket 0) plain)
    (hsize : plain.length ≤ wgMaxPacket) (h : Admits env n (n.peer x) plain) :
    ∃ l, (wgProcessInner c env n x (plain.length + authtagLen)).log
        = l ++ .injected x (plain.take (ipTotalLen plain)) :: n.log ∧
      ∀ y packet, Obs.injected y packet ∉ l := by
  have hheader := ipHeader_overwrite_zero plain wgMaxPacket
  rw [← hbuf] at hheader
  have hlength : (plain.take (ipTotalLen plain)).length = ipTotalLen plain := by
    rw [List.length_take, Nat.min_eq_left h.fits]
  have hsome := h.some
  have hfits := h.fits
  rw [wgProcessInner_taken c env hbuf hheader h.version h.source (by omega) hfits]
  exact wgInjectPlaintext_log c env _ (by omega) (by omega) h.up h.prepared h.copied

/-- Any other. -/
theorem wgProcessInner_refused (hbuf : n.plainbuf = overwrite (List.replicate wgMaxPacket 0) plain)
    (h : ¬Admits env n (n.peer x) plain) :
    wgProcessInner c env n x (plain.length + authtagLen) = n := by
  obtain ⟨hversion, htotal, hsource⟩ := ipHeader_overwrite_zero plain wgMaxPacket
  rw [← hbuf] at hversion htotal hsource
  unfold wgProcessInner
  dsimp only
  rw [hversion, htotal, hsource]
  split
  · split
    · rename_i hfour
      split
      · rename_i hcond
        obtain ⟨hallowed, hfits⟩ := hcond
        have hle : ipTotalLen plain ≤ plain.length := by omega
        have htake : (n.plainbuf.take (ipTotalLen plain)).length = ipTotalLen plain := by
          rw [hbuf, overwrite, List.take_append_of_le_length hle, List.length_take,
            Nat.min_eq_left hle]
        refine wgInjectPlaintext_refused c env _ fun hc => h ?_
        rw [htake] at hc
        exact ⟨hfour, hallowed, hc.1, hle, hc.2.1, hc.2.2.1, hc.2.2.2⟩
      · rfl
    · rfl
  · rfl

end Inner

/-! ### The datagram -/

/-- The interface and its buffers are all that is read of the device. -/
theorem Admits.congr {n m : Netdev cfg} {p q : Peer cfg} {plain : List Byte}
    (h : Admits env n p plain) (hup : m.bifup = n.bifup)
    (haips : q.allowedSourceIps = p.allowedSourceIps) : Admits env m q plain := by
  refine ⟨h.version, ?_, h.some, h.fits, hup.trans h.up, h.prepared, h.copied⟩
  have hsource := h.source
  unfold sourceAllowed at hsource ⊢
  rw [haips]
  exact hsource

/-- The device with the plaintext of an accepted datagram in its buffer. -/
def acceptedFrom (n : Netdev cfg) (x : Fin cfg.maxPeers) (s : Slot) (plain data : List Byte)
    (addr : U32) (port : U16) : Netdev cfg :=
  (({ n with plainbuf := overwrite (List.replicate wgMaxPacket 0) plain } : Netdev cfg).observe
    (.opened x ((n.peer x).keypair s).sid (dataCounter data) true env.time)).setPeer x
      (acceptPacket env.now (n.peer x) s
        (Kernel.wgCheckReplay ((n.peer x).keypair s) (dataCounter data)).2 addr port
        (data.length - 16))

theorem acceptedFrom_aips (n : Netdev cfg) (x : Fin cfg.maxPeers) (s : Slot)
    (plain data : List Byte) (addr : U32) (port : U16) :
    ((acceptedFrom env n x s plain data addr port).peer x).allowedSourceIps
      = (n.peer x).allowedSourceIps := by
  unfold acceptedFrom
  rw [setPeer_peer_self]
  exact acceptPacket_allowedSourceIps _ _ _ _ _ _ _

section Datagram

variable {n : Netdev cfg} {x : Fin cfg.maxPeers} {data plain : List Byte} (addr : U32) (port : U16)

/-- An admitted plaintext is handed over, after its datagram was opened. -/
theorem wgProcessDataMessage_injects (hopens : Opens c env n x data plain)
    (hadmits : Admits env n (n.peer x) plain) : ∃ opened l,
    (wgProcessDataMessage c env n x data addr port).log
        = (l ++ [.injected x (plain.take (ipTotalLen plain)), opened]) ++ n.log ∧
      (∀ y packet, opened ≠ .injected y packet) ∧ ∀ y packet, Obs.injected y packet ∉ l := by
  obtain ⟨s, hs, hlive, hfits, hplain, hfresh⟩ := hopens
  have hlen : plain.length + authtagLen = data.length - 16 := by
    rw [decryptPacket_length hplain, List.length_drop]
  unfold msgDataLen at hfits
  obtain ⟨l, hl, hno⟩ := wgProcessInner_admits c env
    (n := acceptedFrom env n x s plain data addr port) rfl (by omega)
    (hadmits.congr env rfl (acceptedFrom_aips env n x s plain data addr port))
  rw [hlen] at hl
  refine ⟨.opened x ((n.peer x).keypair s).sid (dataCounter data) true env.time, l, ?_, ?_, hno⟩
  · rw [wgProcessDataMessage_accepted c env addr port hs hlive hfits hplain hfresh,
      List.append_assoc]
    exact hl
  · intro y packet hc
    cases hc

/-- Nothing else is. -/
theorem wgProcessDataMessage_admitted {y : Fin cfg.maxPeers} {packet : List Byte}
    (hin : Injected n (wgProcessDataMessage c env n x data addr port) y packet) :
    ∃ plain, Opens c env n x data plain ∧ Admits env n (n.peer x) plain := by
  have hseen : (wgProcessDataMessage c env n x data addr port).log ≠ n.log := fun hc =>
    not_injected_of_log (l := []) hc (by simp) y packet hin
  rcases wgProcessDataMessage_cases c env n x data addr port with
    ⟨b, h⟩ | ⟨s, hs, ⟨-, h⟩ | ⟨hlive, hfits, plain, hplain, ⟨-, h⟩ | ⟨hfresh, h⟩⟩⟩
  · rw [h] at hseen
    exact absurd rfl hseen
  · rw [h] at hseen
    exact absurd rfl hseen
  · exact absurd hin (not_injected_of_log (l := [_]) (by rw [h]; rfl) (by simp) y packet)
  · refine ⟨plain, ⟨s, hs, hlive, hfits, hplain, hfresh⟩, ?_⟩
    by_contra hadmits
    have hlen : plain.length + authtagLen = data.length - 16 := by
      rw [decryptPacket_length hplain, List.length_drop]
    have hkept := wgProcessInner_refused c env (n := acceptedFrom env n x s plain data addr port) rfl
      fun hc => hadmits (hc.congr env rfl (acceptedFrom_aips env n x s plain data addr port).symm)
    rw [hlen] at hkept
    exact absurd hin
      (not_injected_of_log (l := [_]) (by rw [h.trans hkept]; rfl) (by simp) y packet)

end Datagram

/-- **What is handed to the stack.** -/
theorem injected_iff (n : Netdev cfg) (x : Fin cfg.maxPeers) (data : List Byte) (addr : U32)
    (port : U16) (y : Fin cfg.maxPeers) (packet : List Byte) :
    Injected n (wgProcessDataMessage c env n x data addr port) y packet ↔
      y = x ∧ ∃ plain, Opens c env n x data plain ∧ Admits env n (n.peer x) plain ∧
        packet = plain.take (ipTotalLen plain) := by
  constructor
  · intro hin
    obtain ⟨plain, hopens, hadmits⟩ := wgProcessDataMessage_admitted c env addr port hin
    obtain ⟨opened, l, hlog, hopened, hno⟩ :=
      wgProcessDataMessage_injects c env addr port hopens hadmits
    obtain ⟨l', hlog', hin'⟩ := hin
    rw [List.append_cancel_right (hlog'.symm.trans hlog), List.mem_append] at hin'
    rcases hin' with hin' | hin'
    · exact absurd hin' (hno y packet)
    · rcases List.mem_cons.mp hin' with heq | hin'
      · obtain ⟨rfl, rfl⟩ := Obs.injected.inj heq
        exact ⟨rfl, plain, hopens, hadmits, rfl⟩
      · exact absurd (List.mem_singleton.mp hin').symm (hopened y packet)
  · rintro ⟨rfl, plain, hopens, hadmits, rfl⟩
    obtain ⟨opened, l, hlog, -⟩ :=
      wgProcessDataMessage_injects c env addr port hopens hadmits
    exact ⟨_, hlog, by simp⟩

/-- Every packet the datagram brings to the stack is the start of its own plaintext, and a
packet its peer may send. -/
def PacketsProper (n : Netdev cfg) (x : Fin cfg.maxPeers) (data : List Byte) (addr : U32)
    (port : U16) : Prop :=
  ∀ y packet, Injected n (wgProcessDataMessage c env n x data addr port) y packet →
    ∃ plain, Opens c env n x data plain ∧ ProperPacket (n.peer x) plain packet

/-- **Packets are proper exactly when no admitted one is shorter than a header.** -/
theorem packetsProper_iff (n : Netdev cfg) (x : Fin cfg.maxPeers) (data : List Byte) (addr : U32)
    (port : U16) : PacketsProper c env n x data addr port ↔
      ∀ plain, Opens c env n x data plain → Admits env n (n.peer x) plain →
        ipv4HdrLen ≤ ipTotalLen plain := by
  constructor
  · intro h plain hplain hadmits
    obtain ⟨plain', -, hproper⟩ := h x (plain.take (ipTotalLen plain))
      ((injected_iff c env n x data addr port x _).mpr ⟨rfl, plain, hplain, hadmits, rfl⟩)
    have hheader := hproper.header
    rw [List.length_take, Nat.min_eq_left hadmits.fits] at hheader
    exact hheader
  · intro h y packet hin
    obtain ⟨rfl, plain, hplain, hadmits, rfl⟩ :=
      (injected_iff c env n x data addr port y packet).mp hin
    refine ⟨plain, hplain, Deliverable.properPacket ?_⟩
    exact ⟨hadmits.version, h plain hplain hadmits, hadmits.fits, hadmits.source⟩

/-- A packet of host 7 that says it is sixteen bytes long. -/
def Sample.shortPacket : List Byte :=
  [0x45, 0, 0, 16, 0, 0, 0, 0, 64, 17, 0, 0, 10, 0, 0, 7]

/-- Sixteen bytes reach the stack as a packet. -/
theorem not_packetsProper :
    ¬∀ (cfg : Config) (c : Crypto) (env : Env cfg) (n : Netdev cfg) (x : Fin cfg.maxPeers)
      (data : List Byte) (addr : U32) (port : U16), ReachableState c n →
      PacketsProper c env n x data addr port := by
  intro hall
  obtain ⟨n, hreach, hrun⟩ := Sample.exists_reachable [Sample.rxInitiation 1001]
    (fun n =>
      let m := wgProcessDataMessage Crypto.plain (Sample.env 1002) n Sample.first
        (Sample.datagram 0 Sample.shortPacket) (Sample.address 9 9 9 9) 1234
      decide (m.log = m.log.take 2 ++ n.log ∧
        .injected Sample.first Sample.shortPacket ∈ m.log.take 2))
    (by decide +kernel)
  obtain ⟨hlog, hin⟩ := of_decide_eq_true hrun
  obtain ⟨plain, -, hproper⟩ := hall _ Crypto.plain (Sample.env 1002) n Sample.first
    (Sample.datagram 0 Sample.shortPacket) (Sample.address 9 9 9 9) 1234 hreach Sample.first
    Sample.shortPacket ⟨_, hlog, hin⟩
  exact absurd hproper.header (by decide)

end NuttxWireguard.Flat
