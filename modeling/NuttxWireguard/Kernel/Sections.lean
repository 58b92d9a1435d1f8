/-
What happens to the interface while the device lock is held.

Packets, timers, requests and the interface's own calls each run under the device lock.  Of
the interface's state they have few effects: datagrams are queued, up to the quota; the
interface comes up, or a step of its coming up fails; a shutdown begins, is refused, or has
nothing to wait for.  `Section` lists these, and there is one lemma for each function.  What
else the functions write (sessions, counters, scratch buffers) is not looked at here.
-/
import NuttxWireguard.Kernel.PeerKeys

namespace NuttxWireguard.Kernel

open Lib

variable {cfg : Config} (c : Crypto) (env : Env cfg)

/-- The interface's own state, and its transmit queue. -/
structure Gate where
  psock : Bool
  bifup : Bool
  running : Bool
  reaping : Bool
  rxpid : Nat
  rxdone : Option Nat
  sent : List Outbound
  txqueue : List Outbound
  ntx : U32

def Netdev.gate (n : Netdev cfg) : Gate where
  psock := n.psock
  bifup := n.bifup
  running := n.running
  reaping := n.reaping
  rxpid := n.rxpid
  rxdone := n.rxdone
  sent := n.sent
  txqueue := n.txqueue
  ntx := n.ntx

/-- What was queued by `wg_tx_enqueue`. -/
def Gate.queue (g : Gate) (new : List Outbound) : Gate :=
  { g with txqueue := g.txqueue ++ new, ntx := g.ntx + BitVec.ofNat 32 new.length }

/-- The queue takes all of these. -/
def Gate.Takes (g : Gate) (new : List Outbound) : Prop :=
  new = [] ∨ (g.running = true ∧ g.ntx.toNat + new.length ≤ wgTxQuota.toNat)

/-- What a section under the lock does, and what its call comes to. -/
inductive Section (g : Gate) : Gate → Outcome → Prop
  /-- Datagrams are queued, or nothing happens. -/
  | traffic (new : List Outbound) (err : Option Errno) (h : g.Takes new) :
      Section g (g.queue new) (.returned err)
  /-- The interface comes up. -/
  | up (pid : Nat) (hpid : pid ≠ 0) (hdown : g.bifup = false) (hstopped : g.rxpid = 0) :
      Section g { g with
        psock := true
        running := true
        rxdone := some 0
        rxpid := pid
        bifup := true } (.returned none)
  /-- The socket could not be bound. -/
  | noBind (err : Errno) (hdown : g.bifup = false) (hstopped : g.rxpid = 0) :
      Section g { g with psock := false } (.returned (some err))
  /-- The thread could not be created. -/
  | noThread (err : Errno) (hdown : g.bifup = false) (hstopped : g.rxpid = 0) :
      Section g { g with running := false, rxdone := none, psock := false } (.returned (some err))
  /-- The thread is asked to stop. -/
  | stop (hlive : g.rxpid ≠ 0) (hfree : g.reaping = false) :
      Section g { g with bifup := false, reaping := true, running := false } .waiting
  /-- Somebody waits for the thread already. -/
  | busy (hlive : g.rxpid ≠ 0) (hreaping : g.reaping = true) :
      Section g { g with bifup := false } (.returned (some .ebusy))
  /-- There is no thread to wait for. -/
  | finish (hup : g.bifup = true) (hstopped : g.rxpid = 0) :
      Section g { g with bifup := false, txqueue := [], ntx := 0 } (.returned none)

/-! ### The queue -/

theorem Gate.queue_nil (g : Gate) : g.queue [] = g := by
  unfold Gate.queue
  rw [List.append_nil]
  have hzero : g.ntx + BitVec.ofNat 32 ([] : List Outbound).length = g.ntx := BitVec.add_zero _
  rw [hzero]

/-- Some datagrams were queued between `n` and `m`, and nothing else happened to the interface. -/
def Netdev.Queues (n m : Netdev cfg) : Prop := ∃ new, n.gate.Takes new ∧ m.gate = n.gate.queue new

namespace Netdev.Queues

variable {n m k : Netdev cfg}

theorem of_gate (h : m.gate = n.gate) : n.Queues m :=
  ⟨[], Or.inl rfl, by rw [Gate.queue_nil, h]⟩

theorem refl (n : Netdev cfg) : n.Queues n := .of_gate rfl

theorem trans (h : n.Queues m) (h' : m.Queues k) : n.Queues k := by
  obtain ⟨new, htakes, hm⟩ := h
  obtain ⟨more, htakes', hk⟩ := h'
  refine ⟨new ++ more, ?_, ?_⟩
  · rcases htakes with rfl | ⟨hrunning, hroom⟩
    · rw [hm, Gate.queue_nil] at htakes'
      exact htakes'
    · rcases htakes' with rfl | ⟨-, hroom'⟩
      · rw [List.append_nil]
        exact Or.inr ⟨hrunning, hroom⟩
      · refine Or.inr ⟨hrunning, ?_⟩
        have hntx : m.gate.ntx.toNat = n.gate.ntx.toNat + new.length := by
          rw [hm]
          unfold Gate.queue wgTxQuota at *
          simp only [BitVec.toNat_add, BitVec.toNat_ofNat] at hroom ⊢
          omega
        rw [List.length_append]
        omega
  · rw [hk, hm]
    unfold Gate.queue
    rw [List.append_assoc, List.length_append, BitVec.ofNat_add, BitVec.add_assoc]

/-- What was done before left the interface alone. -/
theorem after (h : m.Queues k) (hgate : m.gate = n.gate) : n.Queues k :=
  trans (of_gate hgate) h

/-- What was done behind it left the interface alone. -/
theorem before (h : n.Queues m) (hgate : k.gate = m.gate) : n.Queues k :=
  trans h (of_gate hgate)

theorem traffic (h : n.Queues m) (err : Option Errno) : Section n.gate m.gate (.returned err) := by
  obtain ⟨new, htakes, hm⟩ := h
  rw [hm]
  exact .traffic new err htakes

end Netdev.Queues

theorem wgTxEnqueue_queues (n : Netdev cfg) (data : List Byte) (ip : U32) (port : U16) :
    n.Queues (wgTxEnqueue env n data ip port).1 := by
  unfold wgTxEnqueue
  dsimp only
  split
  · exact .refl n
  · rename_i hroom
    obtain ⟨hrunning, hquota⟩ := not_or.mp hroom
    split
    · exact .of_gate rfl
    · refine ⟨[⟨data, ip, port⟩], Or.inr ⟨not_not.mp hrunning, ?_⟩, rfl⟩
      have hlt : n.ntx.toNat < wgTxQuota.toNat := by
        rw [← BitVec.lt_def]
        exact BitVec.not_le.mp hquota
      exact hlt

theorem wgSendData_queues (n : Netdev cfg) (x : Fin cfg.maxPeers) (plaintext : List Byte) :
    n.Queues (wgSendData c env n x plaintext).1 := by
  rcases wgSendData_cases c env n x plaintext with ⟨-, err, h⟩ | ⟨-, -, h⟩ | ⟨-, -, -, p, lastTx, -, h⟩
  · rw [h]
    exact .refl n
  · rw [h]
    exact .of_gate rfl
  · rw [h]
    have hqueue := wgTxEnqueue_queues env (n.observe (.encrypted x
      ((n.peer x).keypair (sendingSlot (n.peer x).keypair)).sid
      ((n.peer x).keypair (sendingSlot (n.peer x).keypair)).initiator
      ((n.peer x).keypair (sendingSlot (n.peer x).keypair)).sendingKey
      ((n.peer x).keypair (sendingSlot (n.peer x).keypair)).sendingCounter env.time))
    exact ((hqueue _ _ _).after rfl).before rfl

theorem wgSendInitiation_queues {n n' : Netdev cfg} {x : Fin cfg.maxPeers}
    (h : wgSendInitiation c env n x = some n') : n.Queues n' := by
  unfold wgSendInitiation at h
  dsimp only at h
  split at h
  · cases h
    exact .refl n
  split at h
  · cases h
  · cases h
    exact .of_gate rfl
  · rename_i wg msg hcreate
    have hqueue := wgTxEnqueue_queues env { n with wg := wg } msg.bytes (wg.peers x).ip
      (wg.peers x).port
    cases h
    refine (hqueue.after rfl).trans ?_
    split
    · exact .of_gate rfl
    · exact .of_gate rfl

theorem wgSendResponse_queues {n n' : Netdev cfg} {x : Fin cfg.maxPeers}
    (h : wgSendResponse c env n x = some n') : n.Queues n' := by
  unfold wgSendResponse at h
  split at h
  · cases h
  · cases h
    exact .of_gate rfl
  · cases h
    exact (wgTxEnqueue_queues env _ _ _ _).after rfl

theorem wgSendCookie_queues (n : Netdev cfg) (mac1 : Bytes 16) (sender ip : U32) (port : U16) :
    n.Queues (wgSendCookie c env n mac1 sender ip port) := by
  unfold wgSendCookie
  split
  · exact .of_gate rfl
  · exact (wgTxEnqueue_queues env _ _ _ _).after rfl

theorem wgProcessData_queues (n : Netdev cfg) (x : Fin cfg.maxPeers) (data : List Byte) (ip : U32)
    (port : U16) : n.Queues (wgProcessData c env n x data ip port) := by
  have hinner : ∀ (m : Netdev cfg) (datalen : Nat), m.Queues (wgProcessInner env m x datalen) := by
    intro m datalen
    rcases wgProcessInner_cases env m x datalen with h | ⟨packet, q, h⟩
    · rw [h]
      exact .refl m
    · rw [h]
      exact .of_gate rfl
  rcases wgProcessData_cases c env n x data ip port with
    h | ⟨s, hs, ⟨-, h⟩ | ⟨-, -, plain, -, ⟨-, h⟩ | ⟨-, h⟩⟩⟩
  · rw [h]
    exact .refl n
  · rw [h]
    exact .of_gate rfl
  · rw [h]
    exact .of_gate rfl
  · rw [h]
    exact (hinner _ _).after rfl

theorem wgProcessInitiation_queues {n n' : Netdev cfg} {msg : MsgInit} {ip : U32} {port : U16}
    (h : wgProcessInitiation c env n msg ip port = some n') : n.Queues n' := by
  unfold wgProcessInitiation at h
  split at h
  · cases h
    exact .refl n
  · exact (wgSendResponse_queues c env h).after rfl

theorem wgProcessDatagram_queues {n n' : Netdev cfg} {data : List Byte} {ip : U32} {port : U16}
    (h : wgProcessDatagram c env n data ip port = some n') : n.Queues n' := by
  unfold wgProcessDatagram at h
  dsimp only at h
  split at h
  · split at h
    · cases h
      exact .refl n
    · have hload : n.Queues (wgUnderLoad env n).1 := by
        unfold wgUnderLoad
        dsimp only
        split <;> exact .of_gate rfl
      refine hload.trans ?_
      split at h
      · split at h
        · cases h
          exact (wgSendCookie_queues c env _ _ _ _ _).after rfl
        · exact (wgProcessInitiation_queues c env h).after rfl
      · exact wgProcessInitiation_queues c env h
  split at h
  · split at h
    · cases h
      exact .refl n
    · split at h
      · cases h
        exact .refl n
      · split at h
        · cases h
          exact .refl n
        · cases h
          exact (wgSendData_queues c env _ _ _).after rfl
  split at h
  · split at h
    · cases h
      exact .refl n
    · split at h
      · cases h
        exact .refl n
      · exact (wgSendInitiation_queues c env h).after rfl
  split at h
  · split at h
    · cases h
      exact .refl n
    · cases h
      exact wgProcessData_queues c env n _ data ip port
  · cases h
    exact .refl n

theorem wgRunTimers_queues {n n' : Netdev cfg} (h : wgRunTimers c env n = some n') :
    n.Queues n' := by
  refine foldlM_relates (R := Netdev.Queues) .refl .trans (fun m x m' hs => ?_) _ h
  unfold wgRunTimersPeer at hs
  split at hs
  · cases hs
    exact .refl m
  · dsimp only at hs
    have hkeep : ∀ k : Netdev cfg,
        k.Queues (if keepaliveDue env.now (k.peer x) then (wgSendData c env k x []).1 else k) := by
      intro k
      split
      · exact wgSendData_queues c env k x []
      · exact .refl k
    have hexpired : m.Queues (m.setPeer x (wgExpirePeer env.now (m.peer x))) := .of_gate rfl
    generalize m.setPeer x (wgExpirePeer env.now (m.peer x)) = k at hexpired hs
    refine hexpired.trans ((hkeep k).trans ?_)
    generalize (if keepaliveDue env.now (k.peer x) then (wgSendData c env k x []).1 else k) = k' at hs ⊢
    split at hs
    · exact wgSendInitiation_queues c env hs
    · cases hs
      exact .refl _

theorem wgTransmit_queues {n n' : Netdev cfg} {packet : List Byte}
    (h : wgTransmit c env n packet = some n') : n.Queues n' := by
  unfold wgTransmit at h
  dsimp only at h
  split at h
  · cases h
    exact .refl n
  split at h
  · cases h
    exact .of_gate rfl
  split at h
  · cases h
    exact .of_gate rfl
  · rename_i x hx
    have hsent := wgSendData_queues c env { n with plainbuf := overwrite n.plainbuf packet } x
      ((overwrite n.plainbuf packet).take packet.length)
    refine .trans (.trans (.of_gate rfl) hsent) ?_
    split at h
    · split at h
      · exact (wgSendInitiation_queues c env h).after rfl
      · cases h
        exact .of_gate rfl
    · cases h
      exact .refl _

/-! ### The interface's calls -/

theorem wgIfup_section (n : Netdev cfg) :
    Section n.gate (wgIfup env n).1.gate (.returned (wgIfup env n).2) := by
  have hsame : ∀ err, Section n.gate n.gate (.returned err) := (Netdev.Queues.refl n).traffic
  unfold wgIfup
  dsimp only
  split
  · exact hsame _
  rename_i hdown
  have hdown : n.gate.bifup = false := Bool.not_eq_true _ ▸ hdown
  split
  · exact hsame _
  rename_i hpid
  have hpid : n.gate.rxpid = 0 := Nat.eq_zero_of_not_pos hpid
  split
  · exact hsame _
  split
  · exact hsame _
  split
  · exact .noBind _ hdown hpid
  split
  · exact .noThread _ hdown hpid
  · rename_i pid _
    exact .up pid.1 pid.2 hdown hpid

theorem wgIfdown_section (n : Netdev cfg) : Section n.gate (wgIfdown n).1.gate (wgIfdown n).2 := by
  unfold wgIfdown
  dsimp only
  split
  · exact (Netdev.Queues.refl n).traffic none
  rename_i hup
  split
  · rename_i hpid
    have hbifup : n.gate.bifup = true := by
      by_contra hc
      exact hup ⟨hc, hpid⟩
    exact .finish hbifup hpid
  rename_i hpid
  split
  · rename_i hreaping
    exact .busy hpid hreaping
  · rename_i hreaping
    exact .stop hpid (Bool.not_eq_true _ ▸ hreaping)

theorem setPrivateKey_gate (n : Netdev cfg) (privateKey : Key) :
    (setPrivateKey c env n privateKey).1.gate = n.gate := by
  rcases setPrivateKey_cases c env n privateKey with ⟨-, err, h⟩ | ⟨-, d, err, h, -⟩
  · rw [h]
  · rw [h]
    rfl

theorem wgSetIfRest_section (n : Netdev cfg) (req : IfReq) :
    Section n.gate (wgSetIfRest env n req).1.gate (wgSetIfRest env n req).2 := by
  have hport : (setPortAddr n req).gate = n.gate := by
    obtain ⟨port, addr, mask, h⟩ := setPortAddr_cases n req
    rw [h]
    rfl
  unfold wgSetIfRest
  rw [← hport]
  split
  · exact wgIfup_section env _
  split
  · exact wgIfdown_section _
  · exact (Netdev.Queues.refl _).traffic none

theorem wgSetIf_section (n : Netdev cfg) (req : IfReq) :
    Section n.gate (wgSetIf c env n req).1.gate (wgSetIf c env n req).2 := by
  have hkey := setPrivateKey_gate c env n req.privateKey
  rcases @wgSetIf_outcomes _ c env n req with ⟨-, ⟨err, h⟩ | h⟩ | ⟨-, ⟨err, -, h⟩ | ⟨-, h⟩⟩
  · rw [h]
    exact (Netdev.Queues.refl n).traffic _
  · rw [h]
    exact wgSetIfRest_section env n req
  · rw [h]
    exact (Netdev.Queues.of_gate hkey).traffic _
  · rw [h, ← hkey]
    exact wgSetIfRest_section env _ req

theorem wgSetPeer_gate (n : Netdev cfg) (req : PeerReq) : (wgSetPeer c n req).1.gate = n.gate := by
  rcases wgSetPeer_outcomes c n req with ⟨err, h⟩ | ⟨x, allowed, -, -, ⟨-, h⟩ | ⟨-, -, -, h⟩ |
    ⟨-, -, -, h⟩⟩
  · rw [h]
  · rw [h]
    rfl
  · rw [h]
    rfl
  · rw [h]
    rfl

theorem wgDelPeer_gate (n : Netdev cfg) (publicKey : Key) :
    (wgDelPeer n publicKey).1.gate = n.gate := by
  unfold wgDelPeer
  split
  · rfl
  split <;> rfl

end NuttxWireguard.Kernel
