/-
Bringing the in-kernel driver up and down (`wg_ifup`, `wg_ifdown`, `wg_rx_thread`).

The receive thread uses the socket and the two semaphores without the device lock, and a
`wg_ifdown` gives the lock up while it waits for the thread.  So who may close them is not
decided by the lock: the thread posts `rxdone` when it has left them, `rxpid` says that nobody
has taken the completion yet, and `reaping` that somebody waits for it.

A caller is at one point of the call it makes, and a thread at one step of its loop.  What runs
under the lock is one step; the wait of a `wg_ifdown` is three, and so is each turn of
`wg_flush_tx`: a datagram is taken off the queue, sent, and counted off.  Nothing keeps
callers apart, and a wait may give up at any time.
-/
import NuttxWireguard.Kernel.Sections

namespace NuttxWireguard.Kernel.Lifecycle

open Lib

variable {cfg : Config} (c : Crypto)

/-- `WG_STOP_RETRIES`. -/
def wgStopRetries : Nat := 3

/-- `WG_RX_BUDGET`. -/
def wgRxBudget : Nat := 16

/-! ### The state -/

/-- Where `wg_rx_thread` is. -/
inductive ThreadPc
  /-- `while (wg_running(priv))`. -/
  | check
  /-- Waiting until the socket is readable. -/
  | poll
  /-- Taking back what `wake` was posted too often. -/
  | clear
  /-- `budget < WG_RX_BUDGET && wg_running(priv)`. -/
  | more (budget : Nat)
  /-- `psock_recvfrom`. -/
  | recv (budget : Nat)
  /-- `wg_process_datagram`, if the interface still runs. -/
  | process (budget : Nat) (data : List Byte) (ip : U32) (port : U16)
  /-- `wg_run_timers`, if the interface still runs. -/
  | timers
  /-- `wg_flush_tx`, `i` datagrams in: the next one.  Behind it the thread goes on reading if
  there is a `budget`, and with its loop if there is none. -/
  | take (i : Nat) (budget : Option Nat)
  /-- `psock_sendto` and `kmm_free`. -/
  | send (i : Nat) (budget : Option Nat) (out : Outbound)
  /-- `priv->ntx--`. -/
  | count (i : Nat) (budget : Option Nat)
  /-- `nxsem_post(&priv->rxdone)`. -/
  | post
  /-- `return`. -/
  | posted
  | exited
  deriving DecidableEq

/-- The thread has not posted its completion. -/
def ThreadPc.unposted : ThreadPc → Bool
  | .posted | .exited => false
  | _ => true

/-- The thread exists. -/
def ThreadPc.exists : ThreadPc → Bool
  | .exited => false
  | _ => true

/-- Where a caller is. -/
inductive CallPc
  | idle
  /-- In `net_sem_timedwait2`, without the lock, for the `i`-th time. -/
  | wait (i : Nat)
  /-- The wait is over, and the lock not yet taken again; `took` says that the completion was
  taken. -/
  | woken (i : Nat) (took : Bool)
  deriving DecidableEq

/-- What became of a datagram. -/
inductive Fate
  | sent
  | freed
  deriving DecidableEq

/-- The driver, and who is at work on it. -/
structure Iface (cfg : Config) where
  n : Netdev cfg
  /-- `wake` is initialised. -/
  wake : Bool
  callers : Nat → CallPc
  /-- The threads that were created, the last one first. -/
  threads : List ThreadPc
  /-- What was queued, in order; not in the code. -/
  queued : List Outbound
  /-- What became of it, in order; not in the code. -/
  done : List (Outbound × Fate)
  /-- The threads whose completion was taken, by their number, and whose socket and
  semaphores were released; not in the code. -/
  reaped : List Nat

/-- What `wireguard_initialize` leaves. -/
def boot (i : Nat) : Iface cfg where
  n := wireguardInitialize i
  wake := false
  callers := fun _ => .idle
  threads := []
  queued := []
  done := []
  reaped := []

/-! ### Steps -/

/-- A section under the lock leaves `n`.  `wg_rx_thread` is created when the interface comes
up; `wake` is initialised and destroyed next to `rxdone`. -/
def Iface.put (s : Iface cfg) (n : Netdev cfg) : Iface cfg :=
  let created := !s.n.bifup && n.bifup
  { s with
    n := n
    wake := created || (s.wake && n.rxdone.isSome)
    threads := if created then .check :: s.threads else s.threads
    queued := s.queued ++ n.txqueue.drop s.n.txqueue.length
    done := s.done ++ (s.n.txqueue.drop n.txqueue.length).map (·, .freed) }

/-- `who` goes on at `pc`. -/
def Iface.goto (s : Iface cfg) (who : Nat) (pc : CallPc) : Iface cfg :=
  { s with callers := Function.update s.callers who pc }

/-- A call by `who` that may wait. -/
def Iface.call (s : Iface cfg) (who : Nat) (r : Netdev cfg × Outcome) : Iface cfg :=
  match r.2 with
  | .returned _ => s.put r.1
  | .waiting => (s.put r.1).goto who (.wait 0)

/-- What the thread finds. -/
structure Io (cfg : Config) where
  env : Env cfg
  /-- The next datagram on the socket, if there is one. -/
  datagram : Option (List Byte × U32 × U16)

/-- Where the thread goes on behind `wg_flush_tx`. -/
def flushed : Option Nat → ThreadPc
  | some budget => .more (budget + 1)
  | none => .check

/-- One step of a thread, and where it goes on. -/
def threadStep (io : Io cfg) (s : Iface cfg) : ThreadPc → Option (Iface cfg × ThreadPc)
  | .check => some (s, if s.n.running then .poll else .post)
  | .poll => some (s, .clear)
  | .clear => some (s, .more 0)
  | .more budget => some (s, if budget < wgRxBudget ∧ s.n.running then .recv budget else .timers)
  | .recv budget =>
    match io.datagram with
    | none => some (s, .timers)
    | some (data, ip, port) =>
      if data = [] then some (s, .timers)
      else some (s, .process budget (data.take (wgCryptBufsize cfg)) ip port)
  | .process budget data ip port =>
    if s.n.running then
      (wgProcessDatagram c io.env s.n data ip port).map fun n => (s.put n, .take 0 (some budget))
    else some (s, .take 0 (some budget))
  | .timers =>
    if s.n.running then (wgRunTimers c io.env s.n).map fun n => (s.put n, .take 0 none)
    else some (s, .take 0 none)
  | .take i budget =>
    if i < wgTxQuota.toNat ∧ s.n.running then
      match s.n.txqueue with
      | [] => some (s, flushed budget)
      | out :: rest => some ({ s with n := { s.n with txqueue := rest } }, .send i budget out)
    else some (s, flushed budget)
  | .send i budget out => some ({ s with
      n := { s.n with sent := s.n.sent ++ [out] }
      done := s.done ++ [(out, .sent)] }, .count i budget)
  | .count i budget => some ({ s with n := { s.n with ntx := s.n.ntx - 1 } }, .take (i + 1) budget)
  | .post => some ({ s with n := { s.n with rxdone := s.n.rxdone.map (· + 1) } }, .posted)
  | .posted => some (s, .exited)
  | .exited => none

/-- What happens. -/
inductive Event (cfg : Config)
  /-- `wg_ifup` is called. -/
  | ifup (env : Env cfg)
  /-- `wg_ifdown` is called. -/
  | ifdown (who : Nat)
  /-- `SIOCSWGIF`, which may take the interface up or down. -/
  | setIf (who : Nat) (env : Env cfg) (req : IfReq)
  /-- `SIOCSWGPEER`. -/
  | setPeer (req : PeerReq)
  /-- `SIOCDWGPEER`. -/
  | delPeer (publicKey : Key)
  /-- The stack hands a packet over. -/
  | transmit (env : Env cfg) (packet : List Byte)
  /-- The stack takes a packet. -/
  | receive
  /-- `wg_tx_enqueue` is called. -/
  | txEnqueue (env : Env cfg) (data : List Byte) (ip : U32) (port : U16)
  /-- A wait takes the completion. -/
  | took (who : Nat)
  /-- A wait has lasted `WG_STOP_WAIT_MSECS`. -/
  | expired (who : Nat)
  /-- A caller has the lock again. -/
  | relock (who : Nat)
  /-- A thread goes on. -/
  | thread (i : Nat) (io : Io cfg)

/-- One step.  A caller makes one call at a time. -/
def advance (s : Iface cfg) : Event cfg → Option (Iface cfg)
  | .ifup env => some (s.put (wgIfup env s.n).1)
  | .ifdown who => if s.callers who = .idle then some (s.call who (wgIfdown s.n)) else none
  | .setIf who env req =>
    if s.callers who = .idle then some (s.call who (wgSetIf c env s.n req)) else none
  | .setPeer req => some (s.put (wgSetPeer c s.n req).1)
  | .delPeer publicKey => some (s.put (wgDelPeer s.n publicKey).1)
  | .transmit env packet => (wgTransmit c env s.n packet).map s.put
  | .receive => some (s.put (wgReceive s.n))
  | .txEnqueue env data ip port => some (s.put (wgTxEnqueue env s.n data ip port).1)
  | .took who =>
    match s.callers who, s.n.rxdone with
    | .wait i, some (k + 1) =>
      some ({ s with n := { s.n with rxdone := some k } }.goto who (.woken i true))
    | _, _ => none
  | .expired who =>
    match s.callers who with
    | .wait i => some (s.goto who (.woken i false))
    | _ => none
  | .relock who =>
    match s.callers who with
    | .woken _ true =>
      some { (s.put (wgIfdownDone s.n)).goto who .idle with
        reaped := s.reaped ++ [s.threads.length - 1] }
    | .woken i false =>
      if i + 1 < wgStopRetries then some (s.goto who (.wait (i + 1)))
      else some ((s.put (wgIfdownTimeout s.n)).goto who .idle)
    | _ => none
  | .thread i io =>
    (s.threads[i]?).bind fun pc =>
      (threadStep c io s pc).map fun r => { r.1 with threads := s.threads.set i r.2 }

/-- After boot. -/
def Initial (s : Iface cfg) : Prop := ∃ i, s = boot i

/-! ### What a step does to the threads -/

/-- Which threads have not posted their completion. -/
def Iface.live (s : Iface cfg) : List Bool := s.threads.map ThreadPc.unposted

theorem put_live (s : Iface cfg) (n : Netdev cfg) :
    (s.put n).live = if !s.n.bifup && n.bifup then true :: s.live else s.live := by
  unfold Iface.live Iface.put
  dsimp only
  split <;> rfl

/-- Where the interface does not come up, no thread is created. -/
theorem put_same (s : Iface cfg) {n : Netdev cfg} (h : n.bifup = s.n.bifup) :
    (s.put n).threads = s.threads ∧ (s.put n).wake = (s.wake && n.rxdone.isSome) := by
  have hcreated : (!s.n.bifup && n.bifup) = false := by
    rw [h]
    cases s.n.bifup <;> rfl
  unfold Iface.put
  dsimp only
  rw [hcreated, if_neg Bool.false_ne_true]
  exact ⟨rfl, rfl⟩

/-- The datagram the thread has taken off the queue and not yet sent. -/
def ThreadPc.inHand : ThreadPc → List Outbound
  | .send _ _ out => [out]
  | _ => []

/-- How many datagrams the thread has taken off the queue and not yet counted off. -/
def ThreadPc.holding : ThreadPc → Nat
  | .send .. | .count .. => 1
  | _ => 0

/-- At `pc` the thread has no datagram, and its completion is still due. -/
def ThreadPc.Free (pc : ThreadPc) : Prop :=
  pc.unposted = true ∧ pc.inHand = [] ∧ pc.holding = 0

/-- **What a step of a thread does**: it looks at the interface or runs a section under the
lock, it moves a datagram on, or it takes its leave. -/
inductive Moved (s : Iface cfg) : ThreadPc → Iface cfg → ThreadPc → Prop
  | looks {pc pc' : ThreadPc} (hpc : pc.Free) (hpc' : pc'.Free) : Moved s pc s pc'
  | locked {pc pc' : ThreadPc} (hpc : pc.Free) (hpc' : pc'.Free) {n : Netdev cfg}
      (hqueues : s.n.Queues n) : Moved s pc (s.put n) pc'
  | takes (i : Nat) (budget : Option Nat) {out : Outbound} {rest : List Outbound}
      (hqueue : s.n.txqueue = out :: rest) :
      Moved s (.take i budget) { s with n := { s.n with txqueue := rest } } (.send i budget out)
  | sends (i : Nat) (budget : Option Nat) (out : Outbound) :
      Moved s (.send i budget out) { s with
        n := { s.n with sent := s.n.sent ++ [out] }
        done := s.done ++ [(out, .sent)] } (.count i budget)
  | counts (i : Nat) (budget : Option Nat) :
      Moved s (.count i budget) { s with n := { s.n with ntx := s.n.ntx - 1 } }
        (.take (i + 1) budget)
  | posts : Moved s .post { s with n := { s.n with rxdone := s.n.rxdone.map (· + 1) } } .posted
  | leaves : Moved s .posted s .exited

theorem threadStep_moved {io : Io cfg} {s s' : Iface cfg} {pc pc' : ThreadPc}
    (h : threadStep c io s pc = some (s', pc')) : Moved s pc s' pc' := by
  have hflushed : ∀ budget, (flushed budget).Free := by
    intro budget
    cases budget <;> exact ⟨rfl, rfl, rfl⟩
  cases pc with
  | check =>
      cases h
      refine .looks ⟨rfl, rfl, rfl⟩ ?_
      split <;> exact ⟨rfl, rfl, rfl⟩
  | poll =>
      cases h
      exact .looks ⟨rfl, rfl, rfl⟩ ⟨rfl, rfl, rfl⟩
  | clear =>
      cases h
      exact .looks ⟨rfl, rfl, rfl⟩ ⟨rfl, rfl, rfl⟩
  | more budget =>
      cases h
      refine .looks ⟨rfl, rfl, rfl⟩ ?_
      split <;> exact ⟨rfl, rfl, rfl⟩
  | recv budget =>
      simp only [threadStep] at h
      split at h
      · cases h
        exact .looks ⟨rfl, rfl, rfl⟩ ⟨rfl, rfl, rfl⟩
      · split at h
        · cases h
          exact .looks ⟨rfl, rfl, rfl⟩ ⟨rfl, rfl, rfl⟩
        · cases h
          exact .looks ⟨rfl, rfl, rfl⟩ ⟨rfl, rfl, rfl⟩
  | process budget data ip port =>
      simp only [threadStep] at h
      split at h
      · obtain ⟨n, hn, heq⟩ := Option.map_eq_some_iff.mp h
        cases heq
        exact .locked ⟨rfl, rfl, rfl⟩ ⟨rfl, rfl, rfl⟩ (wgProcessDatagram_queues c io.env hn)
      · cases h
        exact .looks ⟨rfl, rfl, rfl⟩ ⟨rfl, rfl, rfl⟩
  | timers =>
      simp only [threadStep] at h
      split at h
      · obtain ⟨n, hn, heq⟩ := Option.map_eq_some_iff.mp h
        cases heq
        exact .locked ⟨rfl, rfl, rfl⟩ ⟨rfl, rfl, rfl⟩ (wgRunTimers_queues c io.env hn)
      · cases h
        exact .looks ⟨rfl, rfl, rfl⟩ ⟨rfl, rfl, rfl⟩
  | take i budget =>
      simp only [threadStep] at h
      split at h
      · split at h
        · cases h
          exact .looks ⟨rfl, rfl, rfl⟩ (hflushed budget)
        · rename_i hqueue
          cases h
          exact .takes i budget hqueue
      · cases h
        exact .looks ⟨rfl, rfl, rfl⟩ (hflushed budget)
  | send i budget out =>
      cases h
      exact .sends i budget out
  | count i budget =>
      cases h
      exact .counts i budget
  | post =>
      cases h
      exact .posts
  | posted =>
      cases h
      exact .leaves
  | exited => cases h

/-- **What a step does**: it runs a section under the lock, which may be a call that has to wait,
it moves such a call on, or it is one of a thread. -/
inductive Advanced (s : Iface cfg) : Event cfg → Iface cfg → Prop
  | queues {e : Event cfg} {n : Netdev cfg} (hqueues : s.n.Queues n) : Advanced s e (s.put n)
  | put {e : Event cfg} {n : Netdev cfg} {err : Option Errno}
      (hsec : Section s.n.gate n.gate (.returned err)) : Advanced s e (s.put n)
  | call {e : Event cfg} {r : Netdev cfg × Outcome} (hsec : Section s.n.gate r.1.gate r.2)
      {who : Nat} (hidle : s.callers who = .idle) : Advanced s e (s.call who r)
  | takes {e : Event cfg} {who i k : Nat} (hwho : s.callers who = .wait i)
      (hcount : s.n.rxdone = some (k + 1)) :
      Advanced s e ({ s with n := { s.n with rxdone := some k } }.goto who (.woken i true))
  | expires {e : Event cfg} {who i : Nat} (hwho : s.callers who = .wait i) :
      Advanced s e (s.goto who (.woken i false))
  | reaps {who i : Nat} (hwho : s.callers who = .woken i true) :
      Advanced s (.relock who) { (s.put (wgIfdownDone s.n)).goto who .idle with
        reaped := s.reaped ++ [s.threads.length - 1] }
  | waits {e : Event cfg} {who i : Nat} (hwho : s.callers who = .woken i false)
      (hmore : i + 1 < wgStopRetries) : Advanced s e (s.goto who (.wait (i + 1)))
  | givesUp {e : Event cfg} {who i : Nat} (hwho : s.callers who = .woken i false)
      (hlast : ¬i + 1 < wgStopRetries) :
      Advanced s e ((s.put (wgIfdownTimeout s.n)).goto who .idle)
  | thread {e : Event cfg} {i : Nat} {pc pc' : ThreadPc} {r : Iface cfg}
      (hi : s.threads[i]? = some pc) (hmoved : Moved s pc r pc') :
      Advanced s e { r with threads := s.threads.set i pc' }

theorem advance_advanced {e : Event cfg} {s s' : Iface cfg} (h : advance c s e = some s') :
    Advanced s e s' := by
  cases e with
  | ifup env =>
      cases h
      exact .put (wgIfup_section env s.n)
  | ifdown who =>
      simp only [advance] at h
      split at h
      · rename_i hidle
        cases h
        exact .call (wgIfdown_section s.n) hidle
      · cases h
  | setIf who env req =>
      simp only [advance] at h
      split at h
      · rename_i hidle
        cases h
        exact .call (wgSetIf_section c env s.n req) hidle
      · cases h
  | setPeer req =>
      cases h
      exact .queues (.of_gate (wgSetPeer_gate c s.n req))
  | delPeer publicKey =>
      cases h
      exact .queues (.of_gate (wgDelPeer_gate s.n publicKey))
  | transmit env packet =>
      obtain ⟨n, hn, rfl⟩ := Option.map_eq_some_iff.mp h
      exact .queues (wgTransmit_queues c env hn)
  | receive =>
      cases h
      exact .queues (.of_gate (rfl : (wgReceive s.n).gate = s.n.gate))
  | txEnqueue env data ip port =>
      cases h
      exact .queues (wgTxEnqueue_queues env s.n data ip port)
  | took who =>
      simp only [advance] at h
      split at h
      · rename_i i k hwho hcount
        cases h
        exact .takes hwho hcount
      · cases h
  | expired who =>
      simp only [advance] at h
      split at h
      · rename_i i hwho
        cases h
        exact .expires hwho
      · cases h
  | relock who =>
      simp only [advance] at h
      split at h
      · rename_i i hwho
        cases h
        exact .reaps hwho
      · rename_i i hwho
        split at h
        · rename_i hmore
          cases h
          exact .waits hwho hmore
        · rename_i hlast
          cases h
          exact .givesUp hwho hlast
      · cases h
  | thread i io =>
      obtain ⟨pc, hi, hmap⟩ := Option.bind_eq_some_iff.mp h
      obtain ⟨⟨r, pc'⟩, hthread, rfl⟩ := Option.map_eq_some_iff.mp hmap
      exact .thread hi (threadStep_moved c hthread)

/-! ### Who has the socket -/

/-- The completion of the last thread: it is still due, it is posted, or a caller has taken it
and waits for the lock. -/
inductive Completion (rxdone : Option Nat) (callers : Nat → CallPc) (live : List Bool) : Prop
  | due (count : rxdone = some 0) (last : live.head? = some true)
      (nobody : ∀ who i, callers who ≠ .woken i true)
  | posted (count : rxdone = some 1) (gone : ∀ b ∈ live, b = false)
      (nobody : ∀ who i, callers who ≠ .woken i true)
  | taken (count : rxdone = some 0) (gone : ∀ b ∈ live, b = false) (who i : Nat)
      (took : callers who = .woken i true)

/-- What the interface's flags say of its threads, its callers and what it holds. -/
structure Sound (g : Gate) (wake : Bool) (callers : Nat → CallPc) (live : List Bool)
    (reaped : List Nat) : Prop where
  running : g.running = g.bifup
  up : g.bifup = true → g.rxpid ≠ 0
  reaping : g.reaping = true → g.bifup = false ∧ g.rxpid ≠ 0
  waits : g.reaping = true ↔ ∃ who, callers who ≠ .idle
  one : ∀ i j, callers i ≠ .idle → callers j ≠ .idle → i = j
  earlier : ∀ b ∈ live.tail, b = false
  held : g.rxpid ≠ 0 → g.psock = true ∧ wake = true ∧ live ≠ [] ∧ Completion g.rxdone callers live
  released : g.rxpid = 0 → g.psock = false ∧ wake = false ∧ g.rxdone = none ∧ ∀ b ∈ live, b = false
  reaped : reaped = List.range (if g.rxpid = 0 then live.length else live.length - 1)

def Iface.Sound (s : Iface cfg) : Prop :=
  Lifecycle.Sound s.n.gate s.wake s.callers s.live s.reaped

section Sound

variable {g g' : Gate} {wake : Bool} {callers : Nat → CallPc} {live : List Bool}
  {reaped : List Nat}

theorem Completion.rxdone_isSome {rxdone : Option Nat} (h : Completion rxdone callers live) :
    rxdone.isSome = true := by
  cases h with
  | due count | posted count | taken count =>
      rw [count]
      rfl

/-- `wake` is there if `rxdone` is. -/
theorem Sound.wake_eq (h : Sound g wake callers live reaped) :
    (wake && g.rxdone.isSome) = wake := by
  by_cases hpid : g.rxpid = 0
  · rw [(h.released hpid).2.1]
    rfl
  · rw [(h.held hpid).2.2.2.rxdone_isSome, Bool.and_true]

/-- While nobody waits, every caller is idle. -/
theorem Sound.idle (h : Sound g wake callers live reaped) (hreaping : g.reaping = false)
    (who : Nat) : callers who = .idle := by
  by_contra hc
  rw [h.waits.mpr ⟨who, hc⟩] at hreaping
  cases hreaping

/-- **A section under the lock** whose caller does not wait. -/
theorem Sound.section (h : Sound g wake callers live reaped) {err : Option Errno}
    (hsec : Section g g' (.returned err)) :
    Sound g' ((!g.bifup && g'.bifup) || (wake && g'.rxdone.isSome)) callers
      (if !g.bifup && g'.bifup then true :: live else live) reaped := by
  have hsame : ∀ b : Bool, (!b && b) = false := by
    intro b
    cases b <;> rfl
  cases hsec with
  | traffic new _ htakes =>
      have hbifup : (g.queue new).bifup = g.bifup := rfl
      have hrxdone : (g.queue new).rxdone = g.rxdone := rfl
      rw [hbifup, hrxdone, hsame, Bool.false_or, h.wake_eq, if_neg Bool.false_ne_true]
      exact ⟨h.running, h.up, h.reaping, h.waits, h.one, h.earlier, h.held, h.released, h.reaped⟩
  | up pid hpid hdown hstopped =>
      obtain ⟨-, -, -, hgone⟩ := h.released hstopped
      have hreaping : g.reaping = false := by
        by_contra hc
        exact (h.reaping (Bool.not_eq_false _ ▸ hc)).2 hstopped
      rw [hdown]
      refine ⟨rfl, fun _ => hpid, fun hc => ?_, h.waits, h.one, hgone, fun _ => ?_,
        fun hc => absurd hc hpid, ?_⟩
      · rw [hreaping] at hc
        cases hc
      · refine ⟨rfl, rfl, List.cons_ne_nil _ _, .due rfl rfl fun who i hc => ?_⟩
        rw [h.idle hreaping who] at hc
        cases hc
      · rw [if_neg hpid, h.reaped, if_pos hstopped]
        rfl
  | noBind _ hdown hstopped =>
      obtain ⟨hpsock, hwake, hrxdone, hgone⟩ := h.released hstopped
      have hbifup : ({ g with psock := false } : Gate).bifup = g.bifup := rfl
      have hsem : ({ g with psock := false } : Gate).rxdone = g.rxdone := rfl
      rw [hbifup, hsem, hsame, Bool.false_or, h.wake_eq, if_neg Bool.false_ne_true]
      exact ⟨h.running, h.up, h.reaping, h.waits, h.one, h.earlier, fun hc => absurd hstopped hc,
        fun _ => ⟨rfl, hwake, hrxdone, hgone⟩, h.reaped⟩
  | noThread _ hdown hstopped =>
      obtain ⟨hpsock, hwake, hrxdone, hgone⟩ := h.released hstopped
      have hbifup : ({ g with running := false, rxdone := none, psock := false } : Gate).bifup =
          g.bifup := rfl
      rw [hbifup, hsame, Bool.false_or, hwake, Bool.false_and, if_neg Bool.false_ne_true]
      exact ⟨hdown.symm, h.up, h.reaping, h.waits, h.one, h.earlier, fun hc => absurd hstopped hc,
        fun _ => ⟨rfl, rfl, rfl, hgone⟩, h.reaped⟩
  | busy hlive hreaping =>
      obtain ⟨hdown, -⟩ := h.reaping hreaping
      have hrxdone : ({ g with bifup := false } : Gate).rxdone = g.rxdone := rfl
      rw [hdown, hrxdone, Bool.and_false, Bool.false_or, h.wake_eq, if_neg Bool.false_ne_true]
      exact ⟨h.running.trans hdown, fun hc => absurd hc Bool.false_ne_true,
        fun hc => ⟨rfl, hlive⟩, h.waits, h.one, h.earlier, h.held, h.released, h.reaped⟩
  | finish hup hstopped => exact absurd hstopped (h.up hup)

/-- **A shutdown begins**: the thread is asked to stop, and the caller waits. -/
theorem Sound.stop (h : Sound g wake callers live reaped) (hsec : Section g g' .waiting)
    (who : Nat) :
    Sound g' ((!g.bifup && g'.bifup) || (wake && g'.rxdone.isSome))
      (Function.update callers who (.wait 0))
      (if !g.bifup && g'.bifup then true :: live else live) reaped := by
  cases hsec with
  | stop hlive hfree =>
      have hrxdone : ({ g with bifup := false, reaping := true, running := false } : Gate).rxdone =
          g.rxdone := rfl
      have hself : Function.update callers who (.wait 0) who = .wait 0 := Function.update_self _ _ _
      have hother : ∀ i, Function.update callers who (.wait 0) i ≠ .idle → i = who := by
        intro i hi
        by_contra hne
        rw [Function.update_of_ne hne] at hi
        exact hi (h.idle hfree i)
      rw [hrxdone, Bool.and_false, Bool.false_or, h.wake_eq, if_neg Bool.false_ne_true]
      refine ⟨rfl, fun hc => absurd hc Bool.false_ne_true, fun _ => ⟨rfl, hlive⟩,
        ⟨fun _ => ⟨who, by rw [hself]; exact fun hc => by cases hc⟩, fun _ => rfl⟩,
        fun i j hi hj => (hother i hi).trans (hother j hj).symm, h.earlier, fun hpid => ?_,
        fun hc => absurd hc hlive, h.reaped⟩
      obtain ⟨hpsock, hwake, hne, hcompletion⟩ := h.held hpid
      refine ⟨hpsock, hwake, hne, ?_⟩
      have hnobody : ∀ i k, Function.update callers who (.wait 0) i ≠ .woken k true := by
        intro i k hc
        have hi := hother i (by rw [hc]; exact fun hc => by cases hc)
        rw [hi, hself] at hc
        cases hc
      cases hcompletion with
      | due count last nobody => exact .due count last hnobody
      | posted count gone nobody => exact .posted count gone hnobody
      | taken count gone who' i took =>
          rw [h.idle hfree who'] at took
          cases took

/-- A caller that waits goes on, and is not done yet. -/
theorem Sound.waits_goto (h : Sound g wake callers live reaped) {who : Nat} {pc : CallPc}
    (hwho : callers who ≠ .idle) (hpc : pc ≠ .idle) :
    (g.reaping = true ↔ ∃ i, Function.update callers who pc i ≠ .idle) ∧
      ∀ i j, Function.update callers who pc i ≠ .idle → Function.update callers who pc j ≠ .idle →
        i = j := by
  have hother : ∀ i, Function.update callers who pc i ≠ .idle → i = who := by
    intro i hi
    by_contra hne
    rw [Function.update_of_ne hne] at hi
    exact hne (h.one i who hi hwho)
  refine ⟨⟨fun _ => ⟨who, ?_⟩, fun _ => h.waits.mpr ⟨who, hwho⟩⟩,
    fun i j hi hj => (hother i hi).trans (hother j hj).symm⟩
  rwa [Function.update_self]

/-- A caller that waits is done, and nobody waits any more. -/
theorem Sound.idle_goto (h : Sound g wake callers live reaped) {who : Nat}
    (hwho : callers who ≠ .idle) (i : Nat) : Function.update callers who .idle i = .idle := by
  by_cases hi : i = who
  · rw [hi, Function.update_self]
  · rw [Function.update_of_ne hi]
    by_contra hc
    exact hi (h.one i who hc hwho)

/-- While somebody waits there is a thread to wait for. -/
theorem Sound.reaps (h : Sound g wake callers live reaped) {who : Nat}
    (hwho : callers who ≠ .idle) : g.bifup = false ∧ g.rxpid ≠ 0 ∧ Completion g.rxdone callers live := by
  obtain ⟨hdown, hpid⟩ := h.reaping (h.waits.mpr ⟨who, hwho⟩)
  exact ⟨hdown, hpid, (h.held hpid).2.2.2⟩

/-- The wait takes the completion. -/
theorem Sound.took (h : Sound g wake callers live reaped) {who i k : Nat}
    (hwho : callers who = .wait i) (hcount : g.rxdone = some (k + 1)) :
    Sound { g with rxdone := some k } wake (Function.update callers who (.woken i true)) live
      reaped := by
  have hbusy : callers who ≠ .idle := by
    rw [hwho]
    exact fun hc => by cases hc
  have hwoken : CallPc.woken i true ≠ .idle := fun hc => by cases hc
  obtain ⟨hwaits, hone⟩ := h.waits_goto hbusy hwoken
  obtain ⟨-, hlive, hcompletion⟩ := h.reaps hbusy
  refine ⟨h.running, h.up, h.reaping, hwaits, hone, h.earlier, fun hpid => ?_,
    fun hc => absurd hc hlive, h.reaped⟩
  obtain ⟨hpsock, hwake, hne, -⟩ := h.held hpid
  refine ⟨hpsock, hwake, hne, ?_⟩
  cases hcompletion with
  | due count | taken count =>
      rw [count] at hcount
      cases hcount
  | posted count gone nobody =>
      rw [count] at hcount
      have hk : k = 0 := by
        have := Option.some.inj hcount
        omega
      exact .taken (congrArg some hk) gone who i (Function.update_self _ _ _)

/-- The wait gives up, or starts again. -/
theorem Sound.waiting (h : Sound g wake callers live reaped) {who : Nat} {pc : CallPc}
    (hwho : callers who ≠ .idle) (hnot : ∀ i, callers who ≠ .woken i true) (hpc : pc ≠ .idle)
    (hpc' : ∀ i, pc ≠ .woken i true) : Sound g wake (Function.update callers who pc) live reaped := by
  obtain ⟨hwaits, hone⟩ := h.waits_goto hwho hpc
  have hnobody : ∀ i k, Function.update callers who pc i = .woken k true → callers i = .woken k true := by
    intro i k hi
    by_cases hne : i = who
    · rw [hne, Function.update_self] at hi
      exact absurd hi (hpc' k)
    · rwa [Function.update_of_ne hne] at hi
  refine ⟨h.running, h.up, h.reaping, hwaits, hone, h.earlier, fun hpid => ?_, h.released, h.reaped⟩
  obtain ⟨hpsock, hwake, hne, hcompletion⟩ := h.held hpid
  refine ⟨hpsock, hwake, hne, ?_⟩
  cases hcompletion with
  | due count last nobody => exact .due count last fun i k hi => nobody i k (hnobody i k hi)
  | posted count gone nobody => exact .posted count gone fun i k hi => nobody i k (hnobody i k hi)
  | taken count gone who' i took =>
      have heq := h.one who' who (by rw [took]; exact fun hc => by cases hc) hwho
      rw [heq] at took
      exact absurd took (hnot i)

/-- **The caller that gives up** leaves the thread, and all it uses, as they are. -/
theorem Sound.gaveUp (h : Sound g wake callers live reaped) {who i : Nat}
    (hwho : callers who = .woken i false) :
    Sound { g with reaping := false } wake (Function.update callers who .idle) live reaped := by
  have hbusy : callers who ≠ .idle := by
    rw [hwho]
    exact fun hc => by cases hc
  have hidle := h.idle_goto hbusy
  obtain ⟨-, hlive, hcompletion⟩ := h.reaps hbusy
  have hnobody : ∀ i k, Function.update callers who .idle i ≠ .woken k true := by
    intro i k hc
    rw [hidle i] at hc
    cases hc
  refine ⟨h.running, h.up, fun hc => absurd hc Bool.false_ne_true,
    ⟨fun hc => absurd hc Bool.false_ne_true, fun ⟨j, hj⟩ => absurd (hidle j) hj⟩,
    fun j k hj _ => absurd (hidle j) hj, h.earlier, fun hpid => ?_, h.released, h.reaped⟩
  obtain ⟨hpsock, hwake, hne, -⟩ := h.held hpid
  refine ⟨hpsock, hwake, hne, ?_⟩
  cases hcompletion with
  | due count last => exact .due count last hnobody
  | posted count gone => exact .posted count gone hnobody
  | taken count gone who' k took =>
      have heq := h.one who' who (by rw [took]; exact fun hc => by cases hc) hbusy
      rw [heq, hwho] at took
      cases took

/-- Of a caller that has the completion, no thread is left that has not posted it. -/
theorem Sound.gone (h : Sound g wake callers live reaped) {who i : Nat}
    (hwho : callers who = .woken i true) : ∀ b ∈ live, b = false := by
  have hbusy : callers who ≠ .idle := by
    rw [hwho]
    exact fun hc => by cases hc
  obtain ⟨-, -, hcompletion⟩ := h.reaps hbusy
  cases hcompletion with
  | due count last nobody => exact absurd hwho (nobody who i)
  | posted count gone nobody => exact gone
  | taken count gone => exact gone

/-- What `wg_ifdown` leaves once it has the completion. -/
def reapGate (g : Gate) : Gate :=
  { g with reaping := false, rxpid := 0, rxdone := none, psock := false, txqueue := [], ntx := 0 }

/-- **The caller that has the completion** releases the socket and the semaphores. -/
theorem Sound.reap (h : Sound g wake callers live reaped) {who i : Nat}
    (hwho : callers who = .woken i true) :
    Sound (reapGate g) false (Function.update callers who .idle) live
      (reaped ++ [live.length - 1]) := by
  have hbusy : callers who ≠ .idle := by
    rw [hwho]
    exact fun hc => by cases hc
  have hidle := h.idle_goto hbusy
  obtain ⟨hdown, hlive, -⟩ := h.reaps hbusy
  obtain ⟨-, -, hne, -⟩ := h.held hlive
  refine ⟨h.running, fun hc => ?_, fun hc => absurd hc Bool.false_ne_true,
    ⟨fun hc => absurd hc Bool.false_ne_true, fun ⟨j, hj⟩ => absurd (hidle j) hj⟩,
    fun j k hj _ => absurd (hidle j) hj, h.earlier, fun hc => absurd rfl hc,
    fun _ => ⟨rfl, rfl, rfl, h.gone hwho⟩, ?_⟩
  · have hc : g.bifup = true := hc
    rw [hdown] at hc
    cases hc
  · have hpos := List.length_pos_iff.mpr hne
    have hlength : live.length = live.length - 1 + 1 := by omega
    have hzero : (reapGate g).rxpid = 0 := rfl
    rw [h.reaped, if_neg hlive, if_pos hzero]
    rw [hlength, Nat.add_sub_cancel, List.range_succ]

/-- A thread that has not posted its completion is the last one. -/
theorem Sound.last (h : Sound g wake callers live reaped) {i : Nat} (hi : live[i]? = some true) :
    i = 0 ∧ g.rxpid ≠ 0 ∧ ∃ rest, live = true :: rest ∧ ∀ b ∈ rest, b = false := by
  have hmem := List.mem_of_getElem? hi
  have hpid : g.rxpid ≠ 0 := by
    intro hc
    exact Bool.false_ne_true ((h.released hc).2.2.2 true hmem).symm
  have hearlier := h.earlier
  cases live with
  | nil => cases hmem
  | cons b rest =>
      rw [List.tail_cons] at hearlier
      cases i with
      | zero =>
          obtain rfl : b = true := Option.some.inj hi
          exact ⟨rfl, hpid, rest, rfl, hearlier⟩
      | succ i =>
          have hrest := List.mem_of_getElem? (List.getElem?_cons_succ .. ▸ hi)
          exact absurd (hearlier true hrest).symm Bool.false_ne_true

/-- **The thread posts its completion.** -/
theorem Sound.post (h : Sound g wake callers live reaped) {i : Nat} (hi : live[i]? = some true) :
    Sound { g with rxdone := g.rxdone.map (· + 1) } wake callers (live.set i false) reaped := by
  obtain ⟨rfl, hlive, rest, rfl, hrest⟩ := h.last hi
  obtain ⟨-, -, -, hcompletion⟩ := h.held hlive
  refine ⟨h.running, h.up, h.reaping, h.waits, h.one, h.earlier, fun hpid => ?_,
    fun hc => absurd hc hlive, h.reaped⟩
  obtain ⟨hpsock, hwake, -, -⟩ := h.held hpid
  refine ⟨hpsock, hwake, List.cons_ne_nil _ _, ?_⟩
  cases hcompletion with
  | due count last nobody =>
      refine .posted ?_ ?_ nobody
      · show g.rxdone.map (· + 1) = some 1
        rw [count]
        rfl
      · exact List.forall_mem_cons.mpr ⟨rfl, hrest⟩
  | posted count gone | taken count gone =>
      exact absurd (gone true List.mem_cons_self).symm Bool.false_ne_true

end Sound

/-! ### Every run -/

section Runs

variable {c : Crypto} {s s' : Iface cfg}

theorem put_sound {n : Netdev cfg} {err : Option Errno} (h : s.Sound)
    (hsec : Section s.n.gate n.gate (.returned err)) : (s.put n).Sound := by
  have hsound := Sound.section h hsec
  unfold Iface.Sound
  rw [put_live]
  exact hsound

theorem call_sound {r : Netdev cfg × Outcome} (h : s.Sound)
    (hsec : Section s.n.gate r.1.gate r.2) (who : Nat) : (s.call who r).Sound := by
  unfold Iface.call
  split
  · rename_i err hr
    rw [hr] at hsec
    exact put_sound h hsec
  · rename_i hr
    rw [hr] at hsec
    have hsound := Sound.stop h hsec who
    unfold Iface.Sound
    have hlive : ((s.put r.1).goto who (.wait 0)).live = (s.put r.1).live := rfl
    rw [hlive, put_live]
    exact hsound

/-- What a step of a thread leaves as it was, it leaves for all threads. -/
theorem map_set_same {α : Type*} {threads : List ThreadPc} {i : Nat} {pc pc' : ThreadPc}
    (f : ThreadPc → α) (hi : threads[i]? = some pc) (hsame : f pc' = f pc) :
    (threads.set i pc').map f = threads.map f := by
  obtain ⟨hlt, rfl⟩ := List.getElem?_eq_some_iff.mp hi
  have hmap : f threads[i] = (threads.map f).get ⟨i, by simpa using hlt⟩ :=
    (List.getElem_map f).symm
  rw [List.map_set, hsame, hmap]
  exact List.set_getElem_self _

theorem thread_sound {i : Nat} {pc pc' : ThreadPc} (h : s.Sound) (hi : s.threads[i]? = some pc)
    (hmoved : Moved s pc s' pc') : ({ s' with threads := s.threads.set i pc' } : Iface cfg).Sound := by
  have hlive : s.live[i]? = some pc.unposted := by
    unfold Iface.live
    rw [List.getElem?_map, hi]
    rfl
  have hset : ∀ {r : Iface cfg}, pc'.unposted = pc.unposted →
      ({ r with threads := s.threads.set i pc' } : Iface cfg).live = s.live := fun hsame =>
    map_set_same ThreadPc.unposted hi hsame
  unfold Iface.Sound
  cases hmoved with
  | looks hpc hpc' =>
      rw [hset (hpc'.1.trans hpc.1.symm)]
      exact h
  | @locked _ _ hpc hpc' n hqueues =>
      rw [hset (hpc'.1.trans hpc.1.symm)]
      have hsound := put_sound h (hqueues.traffic none)
      obtain ⟨new, -, hgate⟩ := hqueues
      have hbifup : n.bifup = s.n.bifup := congrArg Gate.bifup hgate
      have hlive : (s.put n).live = s.live := congrArg (List.map _) (put_same s hbifup).1
      unfold Iface.Sound at hsound
      rw [hlive] at hsound
      exact hsound
  | takes i budget hqueue =>
      rw [hset rfl]
      exact ⟨h.running, h.up, h.reaping, h.waits, h.one, h.earlier, h.held, h.released, h.reaped⟩
  | sends i budget out =>
      rw [hset rfl]
      exact ⟨h.running, h.up, h.reaping, h.waits, h.one, h.earlier, h.held, h.released, h.reaped⟩
  | counts i budget =>
      rw [hset rfl]
      exact ⟨h.running, h.up, h.reaping, h.waits, h.one, h.earlier, h.held, h.released, h.reaped⟩
  | posts =>
      have hposted : ({ s with
          n := { s.n with rxdone := s.n.rxdone.map (· + 1) }
          threads := s.threads.set i .posted } : Iface cfg).live = s.live.set i false := List.map_set
      rw [hposted]
      exact Sound.post h hlive
  | leaves =>
      rw [hset rfl]
      exact h

theorem advance_sound {e : Event cfg} (hstep : advance c s e = some s') (h : s.Sound) :
    s'.Sound := by
  have hwaiting : ∀ {who : Nat} {pc pc' : CallPc}, s.callers who = pc → pc ≠ .idle →
      (∀ i, pc ≠ .woken i true) → pc' ≠ .idle → (∀ i, pc' ≠ .woken i true) →
      (s.goto who pc').Sound := by
    rintro who pc pc' rfl hbusy hnot hpc hpc'
    exact Sound.waiting h hbusy hnot hpc hpc'
  cases advance_advanced c hstep with
  | queues hqueues => exact put_sound h (hqueues.traffic none)
  | put hsec => exact put_sound h hsec
  | @call _ _ hsec who => exact call_sound h hsec who
  | takes hwho hcount => exact Sound.took h hwho hcount
  | expires hwho => exact hwaiting hwho nofun nofun nofun nofun
  | waits hwho => exact hwaiting hwho nofun nofun nofun nofun
  | reaps hwho =>
      have hreaped := Sound.reap h hwho
      obtain ⟨hthreads, hwake⟩ := put_same s (rfl : (wgIfdownDone s.n).bifup = s.n.bifup)
      have hlive : (s.put (wgIfdownDone s.n)).live = s.live := congrArg (List.map _) hthreads
      have hlength : s.live.length = s.threads.length := List.length_map _
      have hgone : (s.put (wgIfdownDone s.n)).wake = false := by
        rw [hwake]
        exact Bool.and_false _
      rw [hlength, ← hlive, ← hgone] at hreaped
      exact hreaped
  | givesUp hwho =>
      have hgave := Sound.gaveUp h hwho
      obtain ⟨hthreads, hwake⟩ := put_same s (rfl : (wgIfdownTimeout s.n).bifup = s.n.bifup)
      have hlive : (s.put (wgIfdownTimeout s.n)).live = s.live := congrArg (List.map _) hthreads
      have hkept : (s.put (wgIfdownTimeout s.n)).wake = s.wake := hwake.trans (Sound.wake_eq h)
      rw [← hlive, ← hkept] at hgave
      exact hgave
  | thread hi hmoved => exact thread_sound h hi hmoved

theorem boot_sound (i : Nat) : (boot i : Iface cfg).Sound := by
  refine ⟨rfl, fun hc => absurd hc Bool.false_ne_true, fun hc => absurd hc Bool.false_ne_true,
    ⟨fun hc => absurd hc Bool.false_ne_true, fun ⟨who, hwho⟩ => absurd rfl hwho⟩,
    fun i j hi _ => absurd rfl hi, fun b hb => absurd hb List.not_mem_nil, fun hc => absurd rfl hc,
    fun _ => ⟨rfl, rfl, rfl, fun b hb => absurd hb List.not_mem_nil⟩, rfl⟩

/-- The socket is open and the semaphores are initialised. -/
def Iface.Holds (s : Iface cfg) : Prop :=
  s.n.psock = true ∧ s.n.rxdone.isSome = true ∧ s.wake = true

/-- They are closed and destroyed. -/
def Iface.Released (s : Iface cfg) : Prop :=
  s.n.psock = false ∧ s.n.rxdone = none ∧ s.wake = false

/-- Some thread has not posted its completion. -/
def Iface.Working (s : Iface cfg) : Prop := ∃ pc ∈ s.threads, pc.unposted = true

/-- A `wg_ifdown` that has the completion ends. -/
def Completes (k : Taken (Iface cfg) (Event cfg)) : Prop :=
  ∃ who i, k.event = .relock who ∧ k.before.callers who = .woken i true

/-- A `wg_ifdown` ends with `-ETIMEDOUT`. -/
def TimesOut (k : Taken (Iface cfg) (Event cfg)) : Prop :=
  ∃ who i, k.event = .relock who ∧ k.before.callers who = .woken i false ∧ ¬i + 1 < wgStopRetries

/-- `wg_ifup` succeeds if there is a private key and the system does what it is asked. -/
def ComesUp (c : Crypto) (s : Iface cfg) : Prop :=
  ∀ (env : Env cfg) (pid : { pid : Nat // pid ≠ 0 }), s.n.wg.valid = true →
    env.psockSocket = none → env.psockBind = none → env.kthreadCreate = .ok pid →
    ∃ s', advance c s (.ifup env) = some s' ∧ (wgIfup env s.n).2 = none ∧ s'.n.bifup = true ∧
      s'.Holds ∧ s'.threads = .check :: s.threads

theorem sound_holds (h : s.Sound) (hpid : s.n.rxpid ≠ 0) : s.Holds := by
  obtain ⟨hpsock, hwake, -, hcompletion⟩ := Sound.held h hpid
  exact ⟨hpsock, hcompletion.rxdone_isSome, hwake⟩

theorem sound_released (h : s.Sound) (hpid : s.n.rxpid = 0) : s.Released := by
  obtain ⟨hpsock, hwake, hrxdone, -⟩ := Sound.released h hpid
  exact ⟨hpsock, hrxdone, hwake⟩

theorem sound_working (h : s.Sound) (hworking : s.Working) : s.n.rxpid ≠ 0 := by
  obtain ⟨pc, hpc, hunposted⟩ := hworking
  intro hpid
  obtain ⟨-, -, -, hgone⟩ := Sound.released h hpid
  have hposted := hgone pc.unposted (List.mem_map_of_mem hpc)
  rw [hunposted] at hposted
  cases hposted

/-- **At most one thread has not posted its completion.** -/
theorem sound_countP (h : s.Sound) : s.threads.countP ThreadPc.unposted ≤ 1 := by
  have hearlier := Sound.earlier h
  unfold Iface.live at hearlier
  cases hthreads : s.threads with
  | nil => exact Nat.zero_le 1
  | cons pc rest =>
      rw [hthreads, List.map_cons, List.tail_cons] at hearlier
      have hrest : rest.countP ThreadPc.unposted = 0 := by
        rw [List.countP_eq_zero]
        intro pc' hpc'
        rw [hearlier pc'.unposted (List.mem_map_of_mem hpc')]
        exact Bool.false_ne_true
      rw [List.countP_cons, hrest]
      split <;> omega

theorem Section.rxpid {g g' : Gate} {out : Outcome} (h : Section g g' out) (hlive : g.rxpid ≠ 0) :
    g'.rxpid = g.rxpid := by
  cases h with
  | traffic | stop | busy => rfl
  | up _ _ _ hstopped | noBind _ _ hstopped | noThread _ _ hstopped | finish _ hstopped =>
      exact absurd hstopped hlive

/-- **Only a `wg_ifdown` that has the completion takes the thread's number away.** -/
theorem advance_rxpid {e : Event cfg} (hstep : advance c s e = some s')
    (hnot : ¬Completes ⟨s, e, s'⟩) (hlive : s.n.rxpid ≠ 0) :
    s'.n.rxpid = s.n.rxpid ∧ s'.reaped = s.reaped := by
  have hcall : ∀ (r : Netdev cfg × Outcome) (who : Nat), Section s.n.gate r.1.gate r.2 →
      (s.call who r).n.rxpid = s.n.rxpid ∧ (s.call who r).reaped = s.reaped := by
    intro r who hsec
    have hpid : r.1.rxpid = s.n.rxpid := Section.rxpid hsec hlive
    unfold Iface.call
    split
    · exact ⟨hpid, rfl⟩
    · exact ⟨hpid, rfl⟩
  have hqueues : ∀ {n : Netdev cfg}, s.n.Queues n → n.rxpid = s.n.rxpid :=
    fun hn => Section.rxpid (hn.traffic none) hlive
  cases advance_advanced c hstep with
  | queues hn => exact ⟨hqueues hn, rfl⟩
  | put hsec => exact ⟨Section.rxpid hsec hlive, rfl⟩
  | @call _ _ hsec who => exact hcall _ who hsec
  | takes | expires | waits | givesUp => exact ⟨rfl, rfl⟩
  | reaps hwho => exact absurd ⟨_, _, rfl, hwho⟩ hnot
  | thread hi hmoved =>
      cases hmoved with
      | locked _ _ hn => exact ⟨hqueues hn, rfl⟩
      | looks | takes | sends | counts | posts | leaves => exact ⟨rfl, rfl⟩

/-- **What is open stays open**, unless a `wg_ifdown` has the completion. -/
theorem kept {k : Taken (Iface cfg) (Event cfg)} (hstep : advance c k.before k.event = some k.after)
    (hbefore : k.before.Sound) (hafter : k.after.Sound) (hnot : ¬Completes k)
    (hlive : k.before.n.rxpid ≠ 0) : k.after.Holds := by
  obtain ⟨s, e, s'⟩ := k
  refine sound_holds hafter ?_
  rw [(advance_rxpid hstep hnot hlive).1]
  exact hlive

/-- A `wg_ifdown` does not have the completion before the thread has posted it. -/
theorem not_completes {k : Taken (Iface cfg) (Event cfg)} (hbefore : k.before.Sound)
    (hworking : k.before.Working) : ¬Completes k := by
  rintro ⟨who, i, -, hwho⟩
  obtain ⟨pc, hpc, hunposted⟩ := hworking
  have hposted := Sound.gone hbefore hwho pc.unposted (List.mem_map_of_mem hpc)
  rw [hunposted] at hposted
  cases hposted

/-- **A `wg_ifdown` that has the completion** closes and destroys what was open. -/
theorem completes {k : Taken (Iface cfg) (Event cfg)}
    (hstep : advance c k.before k.event = some k.after) (hbefore : k.before.Sound)
    (hafter : k.after.Sound) (hcompletes : Completes k) :
    k.before.Holds ∧ k.after.Released ∧ k.after.n.rxpid = 0 ∧ k.after.n.bifup = false ∧
      k.after.reaped = k.before.reaped ++ [k.before.threads.length - 1] := by
  obtain ⟨s, e, s'⟩ := k
  obtain ⟨who, i, rfl, hwho⟩ := hcompletes
  have hwho : s.callers who = .woken i true := hwho
  obtain ⟨hdown, hlive, -⟩ := Sound.reaps hbefore (by rw [hwho]; exact fun hc => by cases hc)
  simp only [advance, hwho] at hstep
  cases hstep
  exact ⟨sound_holds hbefore hlive, sound_released hafter rfl, rfl, hdown, rfl⟩

/-- Behind it the interface can come up again. -/
theorem comesUp (h : s.Sound) (hdown : s.n.bifup = false) (hpid : s.n.rxpid = 0) : ComesUp c s := by
  intro env pid hvalid hsocket hbind hthread
  have hup : (wgIfup env s.n) = ({ s.n with
      wg := { s.n.wg with peers := fun x => wgIfupPeer (s.n.peer x) }
      psock := true
      running := true
      rxdone := some 0
      rxpid := pid
      worker := true
      bifup := true }, none) := by
    unfold wgIfup
    rw [if_neg (by rw [hdown]; exact Bool.false_ne_true), if_neg (by omega),
      if_neg (by rw [hvalid]; exact not_not.mpr rfl), hsocket, hbind, hthread]
  have hbifup : (wgIfup env s.n).1.bifup = true := by rw [hup]
  have hnew : (s.put (wgIfup env s.n).1).threads = .check :: s.threads := by
    unfold Iface.put
    dsimp only
    rw [hdown, hbifup]
    rfl
  have hsound := put_sound h (wgIfup_section env s.n)
  refine ⟨_, rfl, by rw [hup], hbifup, sound_holds hsound ?_, hnew⟩
  exact Sound.up hsound hbifup

/-- **A completion that was posted can be taken**, by anybody who asks once nobody waits. -/
theorem reapable (h : s.Sound) (hlive : s.n.rxpid ≠ 0) (hfree : s.n.reaping = false)
    (hgone : ¬s.Working) (who : Nat) : ∃ ts s', Run (advance c) s ts s' ∧
      ts.map (·.event) = [.ifdown who, .took who, .relock who] ∧ s'.Released := by
  obtain ⟨-, -, hne, hcompletion⟩ := Sound.held h hlive
  have hcount : s.n.rxdone = some 1 := by
    cases hcompletion with
    | due count last =>
        refine absurd ?_ hgone
        obtain ⟨pc, hpc, hunposted⟩ := List.mem_map.mp (List.mem_of_mem_head? last)
        exact ⟨pc, hpc, hunposted⟩
    | posted count => exact count
    | taken count gone who' i took =>
        rw [Sound.idle h hfree who'] at took
        cases took
  have hidle := Sound.idle h hfree who
  obtain ⟨s₁, h₁, hwho₁, hcount₁⟩ : ∃ s₁, advance c s (.ifdown who) = some s₁ ∧
      s₁.callers who = .wait 0 ∧ s₁.n.rxdone = some 1 := by
    have hdown : wgIfdown s.n = ({ s.n with bifup := false, reaping := true, running := false },
        .waiting) := by
      unfold wgIfdown
      dsimp only
      rw [if_neg (fun hc => hlive hc.2), if_neg hlive,
        if_neg (by rw [hfree]; exact Bool.false_ne_true)]
    refine ⟨_, by simp only [advance]; exact if_pos hidle, ?_, ?_⟩
    · rw [hdown]
      exact Function.update_self _ _ _
    · rw [hdown]
      exact hcount
  have hsound₁ := advance_sound h₁ h
  obtain ⟨s₂, h₂, hwho₂⟩ : ∃ s₂, advance c s₁ (.took who) = some s₂ ∧
      s₂.callers who = .woken 0 true := by
    refine ⟨_, by simp only [advance, hwho₁, hcount₁]; rfl, ?_⟩
    exact Function.update_self _ _ _
  have hsound₂ := advance_sound h₂ hsound₁
  obtain ⟨s₃, h₃⟩ : ∃ s₃, advance c s₂ (.relock who) = some s₃ :=
    ⟨_, by simp only [advance, hwho₂]; rfl⟩
  have hcompletes : Completes (⟨s₂, .relock who, s₃⟩ : Taken (Iface cfg) (Event cfg)) :=
    ⟨who, 0, rfl, hwho₂⟩
  exact ⟨_, s₃, .snoc (.snoc (.snoc .nil h₁) h₂) h₃, rfl,
    (completes h₃ hsound₂ (advance_sound h₃ hsound₂) hcompletes).2.1⟩

/-- A run keeps its threads, its callers and what it holds in order. -/
structure Orderly (c : Crypto) (ts : List (Taken (Iface cfg) (Event cfg))) (s : Iface cfg) :
    Prop where
  /-- At most one thread has not posted its completion. -/
  one : s.threads.countP ThreadPc.unposted ≤ 1
  /-- While there is one, nothing is closed or destroyed. -/
  working : ∀ k ∈ ts, k.before.Working → k.before.Holds ∧ k.after.Holds
  /-- Nor by a `wg_ifdown` that gives up, or by anything but one that has the completion. -/
  timedOut : ∀ k ∈ ts, TimesOut k → k.after.Holds
  otherwise : ∀ k ∈ ts, ¬Completes k → k.before.Holds → k.after.Holds
  /-- That one releases all, for its thread, and the interface can come up again. -/
  completed : ∀ k ∈ ts, Completes k → k.before.Holds ∧ k.after.Released ∧
    k.after.reaped = k.before.reaped ++ [k.before.threads.length - 1] ∧ ComesUp c k.after
  /-- No thread is reaped twice. -/
  once : s.reaped.Nodup
  /-- Once the thread has posted its completion, anybody who asks can take it. -/
  later : s.n.rxpid ≠ 0 → s.n.reaping = false → ¬s.Working → ∀ who, ∃ us s',
    Run (advance c) s us s' ∧ us.map (·.event) = [.ifdown who, .took who, .relock who] ∧
      s'.Released

/-- **However calls, waits and the thread's steps are interleaved**, the run is orderly. -/
theorem lifecycle_orderly {s₀ s : Iface cfg} {ts : List (Taken (Iface cfg) (Event cfg))}
    (h0 : Initial s₀) (h : Run (advance c) s₀ ts s) : Orderly c ts s := by
  obtain ⟨i, rfl⟩ := h0
  obtain ⟨hsound, hall⟩ := h.invariant (I := Iface.Sound) (boot_sound i)
    fun k _ hstep hk => advance_sound hstep hk
  have hnodup : s.reaped.Nodup := by
    rw [Sound.reaped hsound]
    exact List.nodup_range
  refine ⟨sound_countP hsound, fun k hk hworking => ?_, fun k hk htimed => ?_,
    fun k hk hnot hholds => ?_, fun k hk hcompletes => ?_, hnodup,
    fun hlive hfree hgone who => reapable hsound hlive hfree hgone who⟩
  · obtain ⟨hbefore, hafter⟩ := hall k hk
    have hlive := sound_working hbefore hworking
    exact ⟨sound_holds hbefore hlive,
      kept (h.step_of_mem hk) hbefore hafter (not_completes hbefore hworking) hlive⟩
  · obtain ⟨hbefore, hafter⟩ := hall k hk
    obtain ⟨who, i, hevent, hwho, -⟩ := htimed
    have hlive := (Sound.reaps hbefore (by rw [hwho]; exact fun hc => by cases hc)).2.1
    refine kept (h.step_of_mem hk) hbefore hafter ?_ hlive
    rintro ⟨who', j, hevent', hwho'⟩
    rw [hevent] at hevent'
    cases hevent'
    rw [hwho] at hwho'
    cases hwho'
  · obtain ⟨hbefore, hafter⟩ := hall k hk
    refine kept (h.step_of_mem hk) hbefore hafter hnot fun hpid => ?_
    have hpsock := hholds.1
    rw [(sound_released hbefore hpid).1] at hpsock
    cases hpsock
  · obtain ⟨hbefore, hafter⟩ := hall k hk
    obtain ⟨hheld, hreleased, hpid, hdown, hreaped⟩ :=
      completes (h.step_of_mem hk) hbefore hafter hcompletes
    exact ⟨hheld, hreleased, hreaped, comesUp hafter hdown hpid⟩

end Runs

/-! ### A shutdown that times out -/

namespace Sample

open NuttxWireguard.Sample Kernel.Sample

/-- The private key. -/
def keyReq : IfReq where
  flags := wgIfHasPrivateKey
  privateKey := key 8 64
  listenPort := 0
  addr := 0
  netmask := 0

/-- The thread finds no datagram. -/
def io (time : Nat) : Io config := ⟨env time, none⟩

/-- The interface comes up, a `wg_ifdown` gives up before the thread has seen it, another one
has the completion, and the interface comes up again. -/
def downTwice : List (Event config) :=
  [.setIf 0 (env 1000) keyReq, .ifup (env 1000), .ifdown 0,
    .expired 0, .relock 0, .expired 0, .relock 0, .expired 0, .relock 0,
    .thread 0 (io 1001), .thread 0 (io 1001),
    .ifdown 1, .took 1, .relock 1, .ifup (env 1002)]

end Sample

/-- The run with a shutdown that times out. -/
theorem lifecycle_orderly_sample : ∃ ts s, Run (advance Crypto.plain) (boot 0) ts s ∧
    ts.map (·.event) = Sample.downTwice ∧ Orderly Crypto.plain ts s := by
  have hrun : (steps (advance Crypto.plain) (boot 0) Sample.downTwice).isSome = true := by
    decide +kernel
  obtain ⟨⟨ts, s⟩, hsteps⟩ := Option.isSome_iff_exists.mp hrun
  exact ⟨ts, s, .of_steps hsteps, Run.events_of_steps hsteps,
    lifecycle_orderly ⟨0, rfl⟩ (.of_steps hsteps)⟩

/-- The thread that has posted its completion has not returned yet when the next one is
created. -/
theorem not_one_thread : ¬∀ (s₀ s : Iface Sample.config)
    (ts : List (Taken (Iface Sample.config) (Event Sample.config))), Initial s₀ →
    Run (advance Crypto.plain) s₀ ts s → s.threads.countP ThreadPc.exists ≤ 1 := by
  intro hall
  have hrun : (steps (advance Crypto.plain) (boot 0) Sample.downTwice).any
      (fun r => decide (r.2.threads.countP ThreadPc.exists = 2)) = true := by
    decide +kernel
  obtain ⟨⟨ts, s⟩, hsteps, htwo⟩ := (Option.any_eq_true _ _).mp hrun
  have hle := hall _ s ts ⟨0, rfl⟩ (.of_steps hsteps)
  rw [of_decide_eq_true htwo] at hle
  omega

end NuttxWireguard.Kernel.Lifecycle
