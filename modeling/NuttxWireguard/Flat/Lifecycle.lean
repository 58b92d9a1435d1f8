/-
Bringing the flat port up and down (`wg_initialize`, `wg_down`, `wg_rx_task`).

The two calls and the receive task share one structure without a lock of their own.  A call
asks the task to stop through `running` and waits for `rxtask_done`; the task looks at
`running` once in each turn of its loop.  A call that has waited long enough gives up and
takes its request back, without knowing whether the task has already seen it.

A caller is at one step of the call it makes, and a task at one step of its loop; each step
is one access to what they share.  What the device does meanwhile are the steps of the port.
Nothing keeps two callers apart, and a call that clears the structure forgets the socket
that is in it.
-/
import NuttxWireguard.Flat.Demux
import NuttxWireguard.Sample

namespace NuttxWireguard.Flat.Lifecycle

open Lib

variable {cfg : Config} (c : Crypto)

/-! ### The state -/

/-- Where `wg_rx_task` is. -/
inductive TaskPc
  /-- `while (priv->running)`. -/
  | check
  /-- Waiting until the socket is readable. -/
  | poll
  /-- Reading datagrams until there are none. -/
  | drain
  | timers
  /-- Behind the loop. -/
  | leave
  /-- `rxtask_done` is set. -/
  | exited
  deriving DecidableEq

/-- Where a call is, named by what it does next. -/
inductive CallPc
  | idle
  /-- `wg_initialize`: `memset`. -/
  | clear (key : Key)
  /-- `wireguard_device_init`. -/
  | device (key : Key)
  /-- `psock_socket`. -/
  | socket
  /-- `psock_bind`. -/
  | bind
  /-- `wg_configure_peer`. -/
  | peers
  /-- `netdev_register`. -/
  | register
  /-- `priv->running = true`. -/
  | start
  /-- `task_create`. -/
  | create
  /-- `wg_configure_address`. -/
  | address
  /-- `priv->registered = true`. -/
  | publish
  /-- `netdev_unregister`, because a task could not be created. -/
  | undoRegister
  /-- `psock_close`, because a later step failed. -/
  | undoSocket
  /-- `wg_down`: `priv->running = false`. -/
  | stop
  /-- The wait, `i` rounds in. -/
  | wait (i : Nat)
  /-- `if (!priv->rxtask_done)`. -/
  | confirm
  /-- `priv->running = true`, and `-ETIMEDOUT`. -/
  | giveUp
  /-- `netdev_ifdown`. -/
  | ifdown
  /-- `netdev_unregister`. -/
  | unregister
  /-- `psock_close`. -/
  | close
  /-- `crypto_zero`. -/
  | wipe
  /-- `priv->registered = false`. -/
  | retire

/-- `g_wg`, what the operating system holds for it, and who is at work on it. -/
structure Port (cfg : Config) where
  n : Netdev cfg
  running : Bool
  registered : Bool
  rxtaskDone : Bool
  /-- `psock` is an open socket. -/
  psock : Bool
  /-- The sockets that are open. -/
  sockets : Nat
  /-- The netdevs that are registered. -/
  netdevs : Nat
  callers : Nat → CallPc
  /-- The tasks that were created, the last one first. -/
  tasks : List TaskPc

/-- The cleared structure. -/
def cleared (n : Netdev cfg) : Netdev cfg :=
  { n with
    wg := Device.zero
    bifup := false
    plainbuf := List.replicate wgMaxPacket 0
    initWindowStart := 0
    initCount := 0 }

/-- After boot. -/
def boot : Port cfg where
  n := ⟨Device.zero, false, List.replicate wgMaxPacket 0, 0, 0, [], 0, []⟩
  running := false
  registered := false
  rxtaskDone := false
  psock := false
  sockets := 0
  netdevs := 0
  callers := fun _ => .idle
  tasks := []

/-! ### Steps -/

/-- `WG_DOWN_WAIT_MSECS / 10`. -/
def wgDownRounds : Nat := 4 * 400 / 10

/-- What a call finds: whether the operating system does what it is asked, and the staged
configuration. -/
structure Os (cfg : Config) where
  ok : Bool
  env : Env cfg
  peers : List PeerConfig

/-- What the task finds. -/
structure Io (cfg : Config) where
  env : Env cfg
  /-- The next datagram on the socket, if there is one. -/
  datagram : Option (List Byte × U32 × U16)

/-- `who` goes on at `pc`. -/
def Port.goto (s : Port cfg) (who : Nat) (pc : CallPc) : Port cfg :=
  { s with callers := Function.update s.callers who pc }

/-- `psock_close(&priv->psock)`. -/
def Port.closeSocket (s : Port cfg) : Port cfg :=
  if s.psock then { s with psock := false, sockets := s.sockets - 1 } else s

/-- One step of a call, and where it goes on; `none` where there is no call. -/
def callStep (os : Os cfg) (s : Port cfg) : CallPc → Option (Port cfg × CallPc)
  | .idle => none
  | .clear key => some ({ s with
      n := cleared s.n
      running := false
      registered := false
      rxtaskDone := false
      psock := false }, .device key)
  | .device key =>
    match wireguardDeviceInit c os.env key with
    | none => some ({ s with n := { s.n with wg := { s.n.wg with
        valid := false
        privateKey := Bytes.zero 32 } } }, .idle)
    | some d => some ({ s with n := { s.n with wg := { d with peers := s.n.wg.peers } } }, .socket)
  | .socket =>
    if os.ok then some ({ s with psock := true, sockets := s.sockets + 1 }, .bind)
    else some (s, .idle)
  | .bind => some (s, if os.ok then .peers else .undoSocket)
  | .peers => some ({ s with n := { s.n with
      wg := os.peers.foldl (wgAddPeer c) s.n.wg } }, .register)
  | .register =>
    if os.ok then some ({ s with netdevs := s.netdevs + 1 }, .start) else some (s, .undoSocket)
  | .start => some ({ s with running := true }, .create)
  | .create =>
    if os.ok then some ({ s with tasks := .check :: s.tasks }, .address)
    else some (s, .undoRegister)
  | .address => some ({ s with n := wgIfup s.n }, .publish)
  | .publish => some ({ s with registered := true }, .idle)
  | .undoRegister => some ({ s with netdevs := s.netdevs - 1 }, .undoSocket)
  | .undoSocket => some (s.closeSocket, .idle)
  | .stop => some ({ s with running := false }, .wait 0)
  | .wait i => some (s,
      if i ≥ wgDownRounds then .confirm else if s.rxtaskDone then .confirm else .wait (i + 1))
  | .confirm => some (s, if s.rxtaskDone then .ifdown else .giveUp)
  | .giveUp => some ({ s with running := true }, .idle)
  | .ifdown => some ({ s with n := wgIfdown s.n }, .unregister)
  | .unregister => some ({ s with netdevs := s.netdevs - 1 }, .close)
  | .close => some (s.closeSocket, .wipe)
  | .wipe => some ({ s with n := { s.n with wg := Device.zero } }, .retire)
  | .retire => some ({ s with registered := false }, .idle)

/-- One step of a task: the device it leaves, whether it reports that it is done, and where
it goes on. -/
def taskStep (io : Io cfg) (s : Port cfg) : TaskPc → Option (Port cfg × TaskPc)
  | .check => some (s, if s.running then .poll else .leave)
  | .poll => some (s, .drain)
  | .drain =>
    match io.datagram with
    | none => some (s, .timers)
    | some (data, addr, port) =>
      if data = [] then some (s, .timers)
      else (step c s.n (.rx io.env data addr port)).map fun n => ({ s with n := n }, .drain)
  | .timers => (wgRunTimers c io.env s.n).map fun n => ({ s with n := n }, .check)
  | .leave => some ({ s with rxtaskDone := true }, .exited)
  | .exited => none

/-- What happens. -/
inductive Event (cfg : Config)
  /-- `wg_initialize` is called; `key` is the private key, if there is one that decodes and
  the random source works. -/
  | wgInitialize (who : Nat) (key : Option Key)
  /-- `wg_down` is called. -/
  | wgDown (who : Nat)
  /-- A call goes on. -/
  | call (who : Nat) (os : Os cfg)
  /-- A task goes on. -/
  | task (i : Nat) (io : Io cfg)
  /-- The stack takes a registered netdev up or down. -/
  | ifup
  | ifdown
  /-- The work queue polls the stack. -/
  | txpoll (env : Env cfg) (packet : List Byte)

/-- One step.  A call that has nothing to do returns at once. -/
def advance (s : Port cfg) : Event cfg → Option (Port cfg)
  | .wgInitialize who key =>
    match s.callers who, s.registered, key with
    | .idle, false, some key => some (s.goto who (.clear key))
    | .idle, _, _ => some s
    | _, _, _ => none
  | .wgDown who =>
    match s.callers who, s.registered with
    | .idle, true => some (s.goto who .stop)
    | .idle, false => some s
    | _, _ => none
  | .call who os => (callStep c os s (s.callers who)).map fun r => r.1.goto who r.2
  | .task i io =>
    (s.tasks[i]?).bind fun pc =>
      (taskStep c io s pc).map fun r => { r.1 with tasks := s.tasks.set i r.2 }
  | .ifup => if s.netdevs > 0 then some { s with n := wgIfup s.n } else none
  | .ifdown => if s.netdevs > 0 then some { s with n := wgIfdown s.n } else none
  | .txpoll env packet =>
    some { s with n := if s.n.bifup then wgTxpoll c env s.n packet else s.n }

/-! ### Calls one after the other -/

/-- No call is in progress. -/
def Idle (s : Port cfg) : Prop := ∀ who, s.callers who = .idle

/-- A call is made only when no other is in progress. -/
def Sequential (k : Taken (Port cfg) (Event cfg)) : Prop :=
  (∀ who key, k.event = .wgInitialize who key → Idle k.before) ∧
    ∀ who, k.event = .wgDown who → Idle k.before

@[simp] theorem goto_callers_self (s : Port cfg) (who : Nat) (pc : CallPc) :
    (s.goto who pc).callers who = pc := Function.update_self _ _ _

theorem goto_callers_of_ne (s : Port cfg) {who i : Nat} (pc : CallPc) (h : i ≠ who) :
    (s.goto who pc).callers i = s.callers i := Function.update_of_ne h _ _

@[simp] theorem closeSocket_callers (s : Port cfg) : s.closeSocket.callers = s.callers := by
  unfold Port.closeSocket
  split <;> rfl

theorem callStep_callers {os : Os cfg} {s r : Port cfg} {pc pc' : CallPc}
    (h : callStep c os s pc = some (r, pc')) : r.callers = s.callers := by
  cases pc with
  | idle => cases h
  | device key =>
      simp only [callStep] at h
      split at h <;> cases h <;> rfl
  | socket | register | create =>
      simp only [callStep] at h
      split at h <;> cases h <;> rfl
  | undoSocket | close =>
      cases h
      exact closeSocket_callers s
  | clear | bind | peers | start | address | publish | undoRegister | stop | wait | confirm
  | giveUp | ifdown | unregister | wipe | retire =>
      cases h
      rfl

/-- In the loop, where the socket may be used. -/
def TaskPc.inLoop : TaskPc → Bool
  | .check | .poll | .drain | .timers => true
  | .leave | .exited => false

/-- A task stays in its loop as long as it is not asked to stop. -/
theorem taskStep_cases {io : Io cfg} {s r : Port cfg} {pc pc' : TaskPc}
    (hstep : taskStep c io s pc = some (r, pc')) :
    (∃ n, r = { s with n := n } ∧ pc.inLoop = true ∧
      (pc'.inLoop = true ∨ (pc' = .leave ∧ s.running = false))) ∨
    (pc = .leave ∧ r = { s with rxtaskDone := true } ∧ pc' = .exited) := by
  cases pc with
  | check =>
      cases hstep
      refine Or.inl ⟨s.n, rfl, rfl, ?_⟩
      cases hrunning : s.running with
      | true => exact Or.inl rfl
      | false => exact Or.inr ⟨rfl, rfl⟩
  | poll =>
      cases hstep
      exact Or.inl ⟨s.n, rfl, rfl, Or.inl rfl⟩
  | drain =>
      simp only [taskStep] at hstep
      split at hstep
      · cases hstep
        exact Or.inl ⟨s.n, rfl, rfl, Or.inl rfl⟩
      · split at hstep
        · cases hstep
          exact Or.inl ⟨s.n, rfl, rfl, Or.inl rfl⟩
        · obtain ⟨n, -, heq⟩ := Option.map_eq_some_iff.mp hstep
          cases heq
          exact Or.inl ⟨n, rfl, rfl, Or.inl rfl⟩
  | timers =>
      obtain ⟨n, -, heq⟩ := Option.map_eq_some_iff.mp hstep
      cases heq
      exact Or.inl ⟨n, rfl, rfl, Or.inl rfl⟩
  | leave =>
      cases hstep
      exact Or.inr ⟨rfl, rfl, rfl⟩
  | exited => cases hstep

theorem taskStep_callers {io : Io cfg} {s r : Port cfg} {pc pc' : TaskPc}
    (h : taskStep c io s pc = some (r, pc')) : r.callers = s.callers := by
  rcases taskStep_cases c h with ⟨n, rfl, -⟩ | ⟨-, rfl, -⟩ <;> rfl

/-- What the stack does to the device, on its own. -/
inductive StackStep (s : Port cfg) : Netdev cfg → Prop
  | ifup (h : s.netdevs > 0) : StackStep s (wgIfup s.n)
  | ifdown (h : s.netdevs > 0) : StackStep s (wgIfdown s.n)
  | txpoll (env : Env cfg) (packet : List Byte) (h : s.n.bifup = true) :
      StackStep s (wgTxpoll c env s.n packet)

/-- **What a step does**: a call begins, goes on or has nothing to do, a task goes on, or the stack
does something on its own. -/
inductive Advanced (s : Port cfg) : Event cfg → Port cfg → Prop
  | nothing {e : Event cfg} : Advanced s e s
  | initializes {who : Nat} {key : Key} (hdown : s.registered = false) :
      Advanced s (.wgInitialize who (some key)) (s.goto who (.clear key))
  | takesDown {who : Nat} (hup : s.registered = true) :
      Advanced s (.wgDown who) (s.goto who .stop)
  | call {who : Nat} {os : Os cfg} {r : Port cfg} {pc : CallPc}
      (hstep : callStep c os s (s.callers who) = some (r, pc)) :
      Advanced s (.call who os) (r.goto who pc)
  | task {i : Nat} {io : Io cfg} {r : Port cfg} {t t' : TaskPc} (hi : s.tasks[i]? = some t)
      (hstep : taskStep c io s t = some (r, t')) :
      Advanced s (.task i io) { r with tasks := s.tasks.set i t' }
  | stack {e : Event cfg} {n : Netdev cfg} (hstack : StackStep c s n) :
      Advanced s e { s with n := n }

theorem advance_advanced {e : Event cfg} {s s' : Port cfg} (h : advance c s e = some s') :
    Advanced c s e s' := by
  cases e with
  | wgInitialize who key =>
      simp only [advance] at h
      split at h
      · rename_i hdown
        cases h
        exact .initializes hdown
      · cases h
        exact .nothing
      · cases h
  | wgDown who =>
      simp only [advance] at h
      split at h
      · rename_i hup
        cases h
        exact .takesDown hup
      · cases h
        exact .nothing
      · cases h
  | call who os =>
      obtain ⟨⟨r, pc⟩, hcallstep, rfl⟩ := Option.map_eq_some_iff.mp h
      exact .call hcallstep
  | task i io =>
      obtain ⟨t, hi, hmap⟩ := Option.bind_eq_some_iff.mp h
      obtain ⟨⟨r, t'⟩, htaskstep, rfl⟩ := Option.map_eq_some_iff.mp hmap
      exact .task hi htaskstep
  | ifup =>
      simp only [advance] at h
      split at h
      · rename_i hnetdevs
        cases h
        exact .stack (.ifup hnetdevs)
      · cases h
  | ifdown =>
      simp only [advance] at h
      split at h
      · rename_i hnetdevs
        cases h
        exact .stack (.ifdown hnetdevs)
      · cases h
  | txpoll env packet =>
      cases h
      by_cases hup : s.n.bifup = true
      · rw [if_pos hup]
        exact .stack (.txpoll env packet hup)
      · rw [if_neg hup]
        exact .nothing

/-- One caller at most has a call in progress, and `P` holds where it is. -/
def At (P : Port cfg → CallPc → Prop) (s : Port cfg) : Prop :=
  ∃ a, (∀ i, i ≠ a → s.callers i = .idle) ∧ P s (s.callers a)

/-- The call that goes on is the one in progress. -/
theorem callStep_caller {os : Os cfg} {s r : Port cfg} {a who : Nat} {pc : CallPc}
    (hothers : ∀ i, i ≠ a → s.callers i = .idle)
    (h : callStep c os s (s.callers who) = some (r, pc)) : who = a := by
  by_contra hne
  rw [hothers who hne] at h
  cases h

theorem At.idle {P : Port cfg → CallPc → Prop} {s : Port cfg} (h : At P s) (hidle : Idle s) :
    P s .idle := by
  obtain ⟨a, -, hP⟩ := h
  rwa [hidle a] at hP

/-- What a call in progress relies on is left alone by all the others. -/
structure Framed (P : Port cfg → CallPc → Prop) : Prop where
  callers : ∀ (s : Port cfg) (callers : Nat → CallPc) (pc : CallPc), P s pc →
    P { s with callers := callers } pc
  clear : ∀ (s : Port cfg) (key : Key), s.registered = false → P s .idle → P s (.clear key)
  stop : ∀ s : Port cfg, s.registered = true → P s .idle → P s .stop
  task : ∀ (s r : Port cfg) (pc : CallPc) (io : Io cfg) (i : Nat) (t t' : TaskPc),
    s.tasks[i]? = some t → taskStep c io s t = some (r, t') → P s pc →
      P { r with tasks := s.tasks.set i t' } pc
  stack : ∀ (s : Port cfg) (pc : CallPc) (n : Netdev cfg), StackStep c s n → P s pc →
    P { s with n := n } pc

/-- **What is left alone by the others and kept by the calls holds at every step**, if calls do
not overlap. -/
theorem At.next {P : Port cfg → CallPc → Prop} (hP : Framed c P)
    {k : Taken (Port cfg) (Event cfg)} (hseq : Sequential k)
    (hcall : ∀ who os r pc', k.event = .call who os →
      callStep c os k.before (k.before.callers who) = some (r, pc') →
      P k.before (k.before.callers who) → P r pc')
    (hstep : advance c k.before k.event = some k.after) (h : At P k.before) : At P k.after := by
  obtain ⟨s, e, s'⟩ := k
  have hstep : advance c s e = some s' := hstep
  have hstart : ∀ who pc, Idle s → P s pc → At P (s.goto who pc) := by
    intro who pc hidle hpc
    refine ⟨who, fun i hi => (goto_callers_of_ne s pc hi).trans (hidle i), ?_⟩
    rw [goto_callers_self]
    exact hP.callers s _ pc hpc
  cases advance_advanced c hstep with
  | nothing => exact h
  | @initializes who key hdown =>
      have hidle : Idle s := hseq.1 who (some key) rfl
      exact hstart who _ hidle (hP.clear s key hdown (h.idle hidle))
  | @takesDown who hup =>
      have hidle : Idle s := hseq.2 who rfl
      exact hstart who _ hidle (hP.stop s hup (h.idle hidle))
  | @call who os r pc' hcallstep =>
      obtain ⟨a, hothers, hpc⟩ := h
      have hwho : who = a := callStep_caller c hothers hcallstep
      subst hwho
      refine ⟨who, fun i hi => ?_, ?_⟩
      · show (r.goto who pc').callers i = .idle
        rw [goto_callers_of_ne r pc' hi, callStep_callers c hcallstep]
        exact hothers i hi
      · show P (r.goto who pc') ((r.goto who pc').callers who)
        rw [goto_callers_self]
        exact hP.callers r _ pc' (hcall who os r pc' rfl hcallstep hpc)
  | @task i io r t t' hi htaskstep =>
      obtain ⟨a, hothers, hpc⟩ := h
      have hcallers := taskStep_callers c htaskstep
      refine ⟨a, fun j hj => ?_, ?_⟩
      · show r.callers j = .idle
        rw [hcallers]
        exact hothers j hj
      · refine hP.task s r (r.callers a) io i t t' hi htaskstep ?_
        rw [hcallers]
        exact hpc
  | stack hstack =>
      obtain ⟨a, hothers, hpc⟩ := h
      exact ⟨a, hothers, hP.stack s _ _ hstack hpc⟩

/-! ### What there is at each step -/

/-- What the steps of the calls read and write besides the device. -/
structure View where
  running : Bool
  registered : Bool
  rxtaskDone : Bool
  psock : Bool
  sockets : Nat
  netdevs : Nat
  tasks : List TaskPc

def Port.view (s : Port cfg) : View :=
  ⟨s.running, s.registered, s.rxtaskDone, s.psock, s.sockets, s.netdevs, s.tasks⟩

/-- What is there while a call is at some step. -/
structure Stage where
  registered : Bool
  socket : Bool
  netdev : Bool
  task : Bool
  /-- `running` is set. -/
  running : Bool
  /-- `rxtask_done` is known to be clear, or set. -/
  done : Option Bool

/-- The stage of a call; between calls it is told by `registered`. -/
def CallPc.stage (up : Bool) : CallPc → Stage
  | .idle => ⟨up, up, up, up, up, none⟩
  | .clear _ => ⟨false, false, false, false, false, none⟩
  | .device _ | .socket => ⟨false, false, false, false, false, some false⟩
  | .bind | .peers | .register => ⟨false, true, false, false, false, some false⟩
  | .start => ⟨false, true, true, false, false, some false⟩
  | .create => ⟨false, true, true, false, true, some false⟩
  | .address | .publish => ⟨false, true, true, true, true, none⟩
  | .undoRegister => ⟨false, true, true, false, false, none⟩
  | .undoSocket => ⟨false, true, false, false, false, none⟩
  | .stop => ⟨true, true, true, true, true, none⟩
  | .wait _ | .confirm | .giveUp => ⟨true, true, true, true, false, none⟩
  | .ifdown | .unregister => ⟨true, true, true, true, false, some true⟩
  | .close => ⟨true, true, false, true, false, some true⟩
  | .wipe | .retire => ⟨true, false, false, true, false, some true⟩

/-- What a call at this stage can rely on. -/
structure Held (v : View) (st : Stage) : Prop where
  registered : v.registered = st.registered
  psock : v.psock = st.socket
  sockets : v.sockets = st.socket.toNat
  netdevs : v.netdevs = st.netdev.toNat
  running : st.running = true → v.running = true
  done : ∀ b, st.done = some b → v.rxtaskDone = b
  /-- There is no task, or it has reported that it is done. -/
  exited : st.task = false ∨ v.rxtaskDone = true → ∀ t ∈ v.tasks, t = .exited
  /-- The tasks of earlier calls are gone. -/
  earlier : ∀ t ∈ v.tasks.tail, t = .exited

/-- What there is at the step of a call. -/
def HeldAt (s : Port cfg) (pc : CallPc) : Prop := Held s.view (pc.stage s.registered)

namespace Held

variable {v : View} {st : Stage}

/-- A stage that relies on no more. -/
theorem relax (h : Held v st) {running : Bool} {done : Option Bool}
    (hrunning : running = true → st.running = true)
    (hdone : ∀ b, done = some b → st.done = some b) :
    Held v { st with running := running, done := done } :=
  ⟨h.registered, h.psock, h.sockets, h.netdevs, h.running ∘ hrunning,
    fun b hb => h.done b (hdone b hb), h.exited, h.earlier⟩

/-- Between calls, without or with a tunnel. -/
theorem idle {s : Port cfg} {up : Bool} (hup : s.registered = up)
    (h : Held s.view (CallPc.idle.stage up)) : Held s.view (CallPc.idle.stage s.registered) := by
  rw [hup]
  exact h

theorem closeSocket {s : Port cfg} (h : Held s.view st) (hsocket : st.socket = true) :
    Held s.closeSocket.view { st with socket := false } := by
  have hpsock : s.psock = true := h.psock.trans hsocket
  have hsockets : s.sockets = 1 := h.sockets.trans (congrArg Bool.toNat hsocket)
  unfold Port.closeSocket
  rw [if_pos hpsock, hsockets]
  exact ⟨h.registered, rfl, rfl, h.netdevs, h.running, h.done, h.exited, h.earlier⟩

theorem unregister {s : Port cfg} (h : Held s.view st) (hnetdev : st.netdev = true) :
    Held { s with netdevs := s.netdevs - 1 }.view { st with netdev := false } := by
  have hnetdevs : s.netdevs = 1 := h.netdevs.trans (congrArg Bool.toNat hnetdev)
  refine ⟨h.registered, h.psock, h.sockets, ?_, h.running, h.done, h.exited, h.earlier⟩
  show s.netdevs - 1 = 0
  rw [hnetdevs]

theorem setRunning {s : Port cfg} (h : Held s.view st) :
    Held { s with running := true }.view { st with running := true } :=
  ⟨h.registered, h.psock, h.sockets, h.netdevs, fun _ => rfl, h.done, h.exited, h.earlier⟩

theorem clearRunning {s : Port cfg} (h : Held s.view st) :
    Held { s with running := false }.view { st with running := false } :=
  ⟨h.registered, h.psock, h.sockets, h.netdevs, Bool.noConfusion, h.done, h.exited, h.earlier⟩

/-- The flags are set back; there is no task that could set one again. -/
theorem clear {s : Port cfg} {n : Netdev cfg} (h : Held s.view st) (hsocket : st.socket = false)
    (htask : st.task = false) :
    Held { s with
      n := n
      running := false
      registered := false
      rxtaskDone := false
      psock := false }.view
      { st with registered := false, running := false, done := some false } :=
  ⟨rfl, hsocket.symm, h.sockets, h.netdevs, Bool.noConfusion, fun _ hb => Option.some.inj hb,
    fun _ => h.exited (Or.inl htask), h.earlier⟩

theorem openSocket {s : Port cfg} (h : Held s.view st) (hsocket : st.socket = false) :
    Held { s with psock := true, sockets := s.sockets + 1 }.view { st with socket := true } := by
  have hsockets : s.sockets = 0 := h.sockets.trans (congrArg Bool.toNat hsocket)
  refine ⟨h.registered, rfl, ?_, h.netdevs, h.running, h.done, h.exited, h.earlier⟩
  show s.sockets + 1 = 1
  rw [hsockets]

theorem register {s : Port cfg} (h : Held s.view st) (hnetdev : st.netdev = false) :
    Held { s with netdevs := s.netdevs + 1 }.view { st with netdev := true } := by
  have hnetdevs : s.netdevs = 0 := h.netdevs.trans (congrArg Bool.toNat hnetdev)
  refine ⟨h.registered, h.psock, h.sockets, ?_, h.running, h.done, h.exited, h.earlier⟩
  show s.netdevs + 1 = 1
  rw [hnetdevs]

/-- A task is created; those before it are gone. -/
theorem create {s : Port cfg} (h : Held s.view st) (htask : st.task = false)
    (hdone : st.done = some false) :
    Held { s with tasks := .check :: s.tasks }.view { st with task := true, done := none } := by
  have hclear : s.rxtaskDone = false := h.done false hdone
  refine ⟨h.registered, h.psock, h.sockets, h.netdevs, h.running, fun _ hb => (by cases hb), ?_,
    h.exited (Or.inl htask)⟩
  rintro (hc | hc)
  · cases hc
  · exact absurd (hclear.symm.trans hc) Bool.false_ne_true

/-- The task that reported is no task of this tunnel any more. -/
theorem retire {s : Port cfg} (h : Held s.view st) (hdone : st.done = some true) :
    Held { s with registered := false }.view
      { st with registered := false, task := false, running := false, done := none } :=
  ⟨rfl, h.psock, h.sockets, h.netdevs, Bool.noConfusion, fun _ hb => (by cases hb),
    fun _ => h.exited (Or.inr (h.done true hdone)), h.earlier⟩

/-- A stage that does not rely on `rxtask_done`. -/
theorem forget (h : Held v st) : Held v { st with done := none } :=
  h.relax id fun _ hb => (by cases hb)

/-- What is known of `rxtask_done` after it was read. -/
theorem read (h : Held v st) {b : Bool} (hb : v.rxtaskDone = b) :
    Held v { st with done := some b } :=
  ⟨h.registered, h.psock, h.sockets, h.netdevs, h.running,
    fun _ hd => hb.trans (Option.some.inj hd), h.exited, h.earlier⟩

end Held

/-- **A call that goes on has what it relies on at its next step.** -/
theorem callStep_held {os : Os cfg} {s r : Port cfg} {pc pc' : CallPc}
    (h : HeldAt s pc) (hstep : callStep c os s pc = some (r, pc')) : HeldAt r pc' := by
  cases pc with
  | idle => cases hstep
  | clear key =>
      cases hstep
      exact h.clear rfl rfl
  | device key =>
      simp only [callStep] at hstep
      split at hstep
      · cases hstep
        exact .idle h.registered h.forget
      · cases hstep
        exact h
  | socket =>
      simp only [callStep] at hstep
      split at hstep
      · cases hstep
        exact h.openSocket rfl
      · cases hstep
        exact .idle h.registered h.forget
  | bind =>
      cases hstep
      show HeldAt s _
      split
      · exact h
      · exact h.forget
  | register =>
      simp only [callStep] at hstep
      split at hstep
      · cases hstep
        exact h.register rfl
      · cases hstep
        exact h.forget
  | start =>
      cases hstep
      exact h.setRunning
  | create =>
      simp only [callStep] at hstep
      split at hstep
      · cases hstep
        exact h.create rfl rfl
      · cases hstep
        exact h.relax Bool.noConfusion fun _ hb => (by cases hb)
  | publish =>
      cases hstep
      exact ⟨rfl, h.psock, h.sockets, h.netdevs, h.running, h.done, h.exited, h.earlier⟩
  | undoRegister | unregister =>
      cases hstep
      exact h.unregister rfl
  | undoSocket =>
      cases hstep
      have hclosed := h.closeSocket rfl
      exact .idle hclosed.registered hclosed
  | stop =>
      cases hstep
      exact h.clearRunning
  | wait i =>
      cases hstep
      show HeldAt s _
      split
      · exact h
      · split <;> exact h
  | confirm =>
      cases hstep
      show HeldAt s _
      split
      · rename_i hdone
        exact h.read hdone
      · exact h
  | giveUp =>
      cases hstep
      exact .idle h.registered h.setRunning
  | close =>
      cases hstep
      exact h.closeSocket rfl
  | peers | address | ifdown | wipe =>
      -- what such a step changes no stage knows of
      cases hstep
      exact h
  | retire =>
      cases hstep
      exact h.retire rfl

/-- While a call has not started a task there is none, so `rxtask_done` stays clear. -/
theorem CallPc.stage_fresh (pc : CallPc) (up : Bool) (h : (pc.stage up).done = some false) :
    (pc.stage up).task = false := by
  cases pc with
  | idle | clear | address | publish | undoRegister | undoSocket | stop | wait | confirm | giveUp
  | ifdown | unregister | close | wipe | retire => cases h
  | device | socket | bind | peers | register | start | create => rfl

/-- A task that goes on leaves what the call in progress relies on. -/
theorem taskStep_held {io : Io cfg} {s r : Port cfg} {st : Stage} {i : Nat} {pc pc' : TaskPc}
    (hfresh : st.done = some false → st.task = false) (h : Held s.view st)
    (hi : s.tasks[i]? = some pc) (hstep : taskStep c io s pc = some (r, pc')) :
    r.registered = s.registered ∧ Held { r with tasks := s.tasks.set i pc' }.view st := by
  have hcases := taskStep_cases c hstep
  have halive : pc ≠ .exited := by
    rintro rfl
    cases hstep
  have hmem : pc ∈ s.tasks := List.mem_of_getElem? hi
  have hnot : ¬(st.task = false ∨ s.rxtaskDone = true) := fun hc => halive (h.exited hc pc hmem)
  -- only the last task that was created is there
  have htail : (s.tasks.set i pc').tail = s.tasks.tail ∧
      ∀ t ∈ s.tasks.set i pc', t = pc' ∨ t ∈ s.tasks.tail := by
    cases htasks : s.tasks with
    | nil =>
        rw [htasks] at hmem
        cases hmem
    | cons t rest =>
        cases i with
        | zero => exact ⟨rfl, fun u hu => List.mem_cons.mp hu⟩
        | succ i =>
            rw [htasks, List.getElem?_cons_succ] at hi
            refine absurd (h.earlier pc ?_) halive
            show pc ∈ s.tasks.tail
            rw [htasks]
            exact List.mem_of_getElem? hi
  have hearlier : ∀ t ∈ (s.tasks.set i pc').tail, t = .exited := by
    rw [htail.1]
    exact h.earlier
  rcases hcases with ⟨n, rfl, -, -⟩ | ⟨-, rfl, rfl⟩
  · exact ⟨rfl, h.registered, h.psock, h.sockets, h.netdevs, h.running, h.done,
      fun hc => absurd hc hnot, hearlier⟩
  · refine ⟨rfl, h.registered, h.psock, h.sockets, h.netdevs, h.running, ?_, ?_, hearlier⟩
    · intro b hb
      cases b with
      | true => rfl
      | false => exact absurd (Or.inl (hfresh hb)) hnot
    · intro _ t ht
      rcases htail.2 t ht with rfl | ht
      · rfl
      · exact h.earlier t ht

/-- What a call in progress relies on is left alone by the tasks and the stack. -/
theorem heldAt_framed : @Framed cfg c HeldAt where
  callers := fun _ _ _ h => h
  clear := by
    intro s key hup h
    unfold HeldAt at h ⊢
    rw [hup] at h ⊢
    exact h
  stop := by
    intro s hup h
    unfold HeldAt at h ⊢
    rw [hup] at h ⊢
    exact h
  task := by
    intro s r pc io i t t' hi hstep h
    obtain ⟨hregistered, hheld⟩ := taskStep_held c (pc.stage_fresh s.registered) h hi hstep
    rw [← hregistered] at hheld
    exact hheld
  stack := fun _ _ _ _ h => h

/-! ### The task while the port is up -/

/-- A task is in its loop. -/
def TaskRuns (s : Port cfg) : Prop := ∃ t ∈ s.tasks, t.inLoop = true

/-- It is not left unless the task is asked to stop. -/
theorem TaskRuns.task {io : Io cfg} {s r : Port cfg} {i : Nat} {t t' : TaskPc}
    (h : TaskRuns s) (hrunning : s.running = true) (hi : s.tasks[i]? = some t)
    (hstep : taskStep c io s t = some (r, t')) :
    TaskRuns { r with tasks := s.tasks.set i t' } := by
  rcases taskStep_cases c hstep with ⟨n, -, -, hloop | ⟨-, hstopped⟩⟩ | ⟨rfl, -, -⟩
  · obtain ⟨hlt, -⟩ := List.getElem?_eq_some_iff.mp hi
    exact ⟨t', List.mem_set hlt t', hloop⟩
  · exact absurd (hrunning.symm.trans hstopped) Bool.true_eq_false.mp
  · obtain ⟨u, hu, hloop⟩ := h
    obtain ⟨j, hj⟩ := List.mem_iff_getElem?.mp hu
    have hne : i ≠ j := by
      rintro rfl
      cases hi.symm.trans hj
      cases hloop
    refine ⟨u, List.mem_iff_getElem?.mpr ⟨j, ?_⟩, hloop⟩
    rw [List.getElem?_set_ne hne]
    exact hj

/-- A task that was started and not asked to stop is in its loop. -/
def Serves (s : Port cfg) (pc : CallPc) : Prop :=
  (pc.stage s.registered).task = true → (pc.stage s.registered).running = true → TaskRuns s

/-- A call that takes its request back in time leaves the task in its loop. -/
theorem callStep_serves {os : Os cfg} {s r : Port cfg} {pc pc' : CallPc}
    (hlate : pc = .giveUp → TaskRuns s) (h : Serves s pc)
    (hstep : callStep c os s pc = some (r, pc')) (hheld : HeldAt s pc) : Serves r pc' := by
  -- at these steps there is no task, or it is asked to stop
  have hnone : ∀ {q : Port cfg} {pc : CallPc}, (pc.stage q.registered).task = false ∨
      (pc.stage q.registered).running = false → Serves q pc := by
    intro q pc hoff htask hrunning
    rcases hoff with hoff | hoff
    · exact absurd (htask.symm.trans hoff) Bool.true_eq_false.mp
    · exact absurd (hrunning.symm.trans hoff) Bool.true_eq_false.mp
  have hidle : s.registered = false → Serves s .idle := by
    intro hup
    refine hnone (Or.inl ?_)
    rw [hup]
    rfl
  cases pc with
  | idle => cases hstep
  | clear key =>
      cases hstep
      exact hnone (Or.inl rfl)
  | device key =>
      simp only [callStep] at hstep
      split at hstep
      · cases hstep
        exact hidle hheld.registered
      · cases hstep
        exact hnone (Or.inl rfl)
  | socket =>
      simp only [callStep] at hstep
      split at hstep
      · cases hstep
        exact hnone (Or.inl rfl)
      · cases hstep
        exact hidle hheld.registered
  | bind =>
      cases hstep
      split <;> exact hnone (Or.inl rfl)
  | peers =>
      cases hstep
      exact hnone (Or.inl rfl)
  | register =>
      simp only [callStep] at hstep
      split at hstep <;> cases hstep <;> exact hnone (Or.inl rfl)
  | start =>
      cases hstep
      exact hnone (Or.inl rfl)
  | create =>
      simp only [callStep] at hstep
      split at hstep
      · cases hstep
        exact fun _ _ => ⟨.check, List.mem_cons_self, rfl⟩
      · cases hstep
        exact hnone (Or.inl rfl)
  | address =>
      cases hstep
      exact h
  | publish =>
      cases hstep
      exact h
  | undoRegister =>
      cases hstep
      exact hnone (Or.inl rfl)
  | undoSocket =>
      cases hstep
      have hup : s.closeSocket.registered = false := (hheld.closeSocket rfl).registered
      refine hnone (Or.inl ?_)
      rw [hup]
      rfl
  | stop =>
      cases hstep
      exact hnone (Or.inr rfl)
  | wait i =>
      cases hstep
      split
      · exact hnone (Or.inr rfl)
      · split <;> exact hnone (Or.inr rfl)
  | confirm =>
      cases hstep
      split <;> exact hnone (Or.inr rfl)
  | giveUp =>
      cases hstep
      exact fun _ _ => hlate rfl
  | ifdown | unregister | close | wipe =>
      cases hstep
      exact hnone (Or.inr rfl)
  | retire =>
      cases hstep
      exact hnone (Or.inl rfl)

/-- What a call relies on, with the task it has started in its loop. -/
def Steady (s : Port cfg) (pc : CallPc) : Prop := HeldAt s pc ∧ Serves s pc

theorem steady_framed : @Framed cfg c Steady where
  callers := fun _ _ _ h => h
  clear := by
    intro s key hup h
    refine ⟨(heldAt_framed c).clear s key hup h.1, fun htask => ?_⟩
    cases htask
  stop := by
    intro s hup h
    refine ⟨(heldAt_framed c).stop s hup h.1, fun htask hrunning => h.2 ?_ ?_⟩
    · rw [hup]
      rfl
    · rw [hup]
      rfl
  task := by
    intro s r pc io i t t' hi hstep h
    refine ⟨(heldAt_framed c).task s r pc io i t t' hi hstep h.1, ?_⟩
    obtain ⟨hregistered, -⟩ := taskStep_held c (pc.stage_fresh s.registered) h.1 hi hstep
    unfold Serves
    rw [show ({ r with tasks := s.tasks.set i t' } : Port cfg).registered = s.registered
      from hregistered]
    intro htask hrunning
    exact (h.2 htask hrunning).task c (h.1.running hrunning) hi hstep
  stack := fun _ _ _ _ h => h

/-- A port that is up stays up until `wg_down`: while no call is in progress its task is in
the loop, whatever happens. -/
def StaysUp (s : Port cfg) : Prop :=
  Idle s → s.registered = true → ∀ us u, Run (advance c) s us u →
    (∀ k ∈ us, ∀ who, k.event ≠ .wgDown who) → TaskRuns u

/-- A socket is closed only when every task has reported that it is done. -/
def ClosesSafely (k : Taken (Port cfg) (Event cfg)) : Prop :=
  k.after.sockets < k.before.sockets → ∀ t ∈ k.before.tasks, t = .exited

/-- A call takes its request to stop back when the task has already left its loop. -/
def LateGiveUp (k : Taken (Port cfg) (Event cfg)) : Prop :=
  ∃ who os, k.event = .call who os ∧ k.before.callers who = .giveUp ∧ ¬TaskRuns k.before

theorem boot_at : @At cfg Steady boot := by
  refine ⟨0, fun _ _ => rfl, ⟨rfl, rfl, rfl, rfl, ?_, ?_, ?_, ?_⟩, ?_⟩
  · intro hrunning
    cases hrunning
  · intro b hb
    cases hb
  · intro _ t ht
    cases ht
  · intro t ht
    cases ht
  · intro htask
    cases htask

/-- Each step keeps what the calls rely on, unless it takes a request back too late. -/
theorem At.steady {k : Taken (Port cfg) (Event cfg)} (hseq : Sequential k)
    (hlate : ¬LateGiveUp k) (hstep : advance c k.before k.event = some k.after)
    (h : At Steady k.before) : At Steady k.after := by
  refine h.next c (steady_framed c) hseq ?_ hstep
  intro who os r pc' he hcall hpc
  refine ⟨callStep_held c hpc.1 hcall, callStep_serves c (fun hgive => ?_) hpc.2 hcall hpc.1⟩
  by_contra hleft
  exact hlate ⟨who, os, he, hgive, hleft⟩

theorem At.held {k : Taken (Port cfg) (Event cfg)} (hseq : Sequential k)
    (hstep : advance c k.before k.event = some k.after) (h : At HeldAt k.before) :
    At HeldAt k.after :=
  h.next c (heldAt_framed c) hseq (fun _ _ _ _ _ hcall hpc => callStep_held c hpc hcall) hstep

theorem At.mono {P Q : Port cfg → CallPc → Prop} {s : Port cfg} (h : At P s)
    (hPQ : ∀ s pc, P s pc → Q s pc) : At Q s := by
  obtain ⟨a, hothers, hpc⟩ := h
  exact ⟨a, hothers, hPQ _ _ hpc⟩

/-- No call is in progress, the port is up and its task is in the loop. -/
structure Up (s : Port cfg) : Prop where
  idle : Idle s
  registered : s.registered = true
  running : s.running = true
  task : TaskRuns s

theorem At.up {s : Port cfg} (h : At Steady s) (hidle : Idle s) (hup : s.registered = true) :
    Up s := by
  obtain ⟨hheld, hserves⟩ := h.idle hidle
  unfold HeldAt at hheld
  unfold Serves at hserves
  rw [hup] at hheld hserves
  exact ⟨hidle, hup, hheld.running rfl, hserves rfl rfl⟩

/-- Nothing but `wg_down` changes that. -/
theorem Up.next {s s' : Port cfg} {e : Event cfg} (h : Up s)
    (hdown : ∀ who, e ≠ .wgDown who) (hstep : advance c s e = some s') : Up s' := by
  cases advance_advanced c hstep with
  | nothing => exact h
  | initializes hunregistered => exact absurd (h.registered.symm.trans hunregistered) nofun
  | @takesDown who => exact absurd rfl (hdown who)
  | @call who os r pc hcallstep =>
      rw [h.idle who] at hcallstep
      cases hcallstep
  | @task i io r t t' hi htaskstep =>
      have hruns := h.task.task c h.running hi htaskstep
      rcases taskStep_cases c htaskstep with ⟨n, rfl, -⟩ | ⟨-, rfl, -⟩
      · exact ⟨h.idle, h.registered, h.running, hruns⟩
      · exact ⟨h.idle, h.registered, h.running, hruns⟩
  | stack => exact ⟨h.idle, h.registered, h.running, h.task⟩

theorem Up.staysUp {s : Port cfg} (h : Up s) : StaysUp c s := by
  intro _ _ us u hrun hdown
  exact (hrun.invariant h fun k hk hstep hup => hup.next c (hdown k hk) hstep).1.task

/-- Two steps of the calls close the socket. -/
theorem callStep_sockets {os : Os cfg} {s r : Port cfg} {pc pc' : CallPc}
    (hstep : callStep c os s pc = some (r, pc')) (hlt : r.sockets < s.sockets) :
    pc = .close ∨ pc = .undoSocket := by
  cases pc with
  | close => exact Or.inl rfl
  | undoSocket => exact Or.inr rfl
  | idle => cases hstep
  | device key =>
      simp only [callStep] at hstep
      split at hstep <;> cases hstep <;> exact absurd hlt (Nat.lt_irrefl _)
  | socket =>
      simp only [callStep] at hstep
      split at hstep
      · cases hstep
        exact absurd hlt (Nat.not_lt.mpr (Nat.le_succ _))
      · cases hstep
        exact absurd hlt (Nat.lt_irrefl _)
  | register | create =>
      simp only [callStep] at hstep
      split at hstep <;> cases hstep <;> exact absurd hlt (Nat.lt_irrefl _)
  | clear | bind | peers | start | address | publish | undoRegister | stop | wait | confirm
  | giveUp | ifdown | unregister | wipe | retire =>
      cases hstep
      exact absurd hlt (Nat.lt_irrefl _)

/-- The socket is closed when there is no task yet, or when it has reported that it is done. -/
theorem At.closesSafely {k : Taken (Port cfg) (Event cfg)} (h : At HeldAt k.before)
    (hstep : advance c k.before k.event = some k.after) : ClosesSafely k := by
  obtain ⟨s, e, s'⟩ := k
  have hstep : advance c s e = some s' := hstep
  intro hlt
  have hlt : s'.sockets < s.sockets := hlt
  cases advance_advanced c hstep with
  | nothing | initializes | takesDown | stack => exact absurd hlt (Nat.lt_irrefl _)
  | @call who os r pc' hcallstep =>
      obtain ⟨a, hothers, hheld⟩ := h
      have hwho : who = a := callStep_caller c hothers hcallstep
      subst hwho
      have hheld : Held s.view ((s.callers who).stage s.registered) := hheld
      rcases callStep_sockets c hcallstep hlt with hpc | hpc
      · rw [hpc] at hheld
        exact hheld.exited (Or.inr (hheld.done true rfl))
      · rw [hpc] at hheld
        exact hheld.exited (Or.inl rfl)
  | task hi htaskstep =>
      rcases taskStep_cases c htaskstep with ⟨n, rfl, -⟩ | ⟨-, rfl, -⟩ <;>
        exact absurd hlt (Nat.lt_irrefl _)

/-- A call that gives up leaves the port up, and the tasks where they are. -/
theorem giveUp_step {s s' : Port cfg} {who : Nat} {os : Os cfg} (h : At HeldAt s)
    (hstep : advance c s (.call who os) = some s') (hgive : s.callers who = .giveUp) :
    Idle s' ∧ s'.registered = true ∧ s'.tasks = s.tasks := by
  obtain ⟨⟨r, pc'⟩, hcallstep, rfl⟩ := Option.map_eq_some_iff.mp hstep
  obtain ⟨a, hothers, hheld⟩ := h
  have hwho : who = a := by
    by_contra hne
    cases hgive.symm.trans (hothers who hne)
  subst hwho
  rw [hgive] at hcallstep hheld
  cases hcallstep
  refine ⟨fun i => ?_, hheld.registered, rfl⟩
  by_cases hi : i = who
  · rw [hi]
    exact goto_callers_self _ _ _
  · exact (goto_callers_of_ne _ _ hi).trans (hothers i hi)

/-- **The port stays up between calls exactly when no call takes its request to stop back too
late**; the socket is never closed under the task. -/
theorem staysUp_iff {ts : List (Taken (Port cfg) (Event cfg))} {s : Port cfg}
    (hrun : Run (advance c) boot ts s) (hseq : ∀ k ∈ ts, Sequential k) :
    (∀ k ∈ ts, StaysUp c k.after ∧ ClosesSafely k) ↔ ∀ k ∈ ts, ¬LateGiveUp k := by
  have hheld := (hrun.invariant (boot_at.mono fun _ _ h => h.1)
    fun k hk hstep => At.held c (hseq k hk) hstep).2
  constructor
  · rintro h k hk ⟨who, os, he, hgive, hleft⟩
    obtain ⟨hidle, hup, htasks⟩ :=
      giveUp_step c (hheld k hk).1 (he ▸ hrun.step_of_mem hk) hgive
    have hruns := (h k hk).1 hidle hup [] k.after .nil (by intro _ hk; cases hk)
    exact hleft (by unfold TaskRuns at hruns ⊢; rwa [htasks] at hruns)
  · intro hlate k hk
    have hsteady := (hrun.invariant boot_at
      fun k hk hstep => At.steady c (hseq k hk) (hlate k hk) hstep).2 k hk
    refine ⟨fun hidle hup => (hsteady.2.up hidle hup).staysUp c hidle hup, ?_⟩
    exact (hheld k hk).1.closesSafely c (hrun.step_of_mem hk)

/-- Not the start of a call. -/
def Event.goesOn : Event cfg → Bool
  | .wgInitialize _ _ | .wgDown _ => false
  | .call _ _ | .task _ _ | .ifup | .ifdown | .txpoll _ _ => true

theorem sequential_of_goesOn {k : Taken (Port cfg) (Event cfg)} (h : k.event.goesOn = true) :
    Sequential k := by
  refine ⟨fun who key he => ?_, fun who he => ?_⟩
  · rw [he] at h
    cases h
  · rw [he] at h
    cases h

/-- A call that is made alone, up to some step of it. -/
theorem sequential_of_steps {s s' : Port cfg} {e : Event cfg} {es : List (Event cfg)}
    {ts : List (Taken (Port cfg) (Event cfg))} (hidle : Idle s)
    (hes : es.all Event.goesOn = true) (h : steps (advance c) s (e :: es) = some (ts, s')) :
    ∀ k ∈ ts, Sequential k := by
  have hevents := Run.events_of_steps h
  have hrun := Run.of_steps h
  cases ts with
  | nil => cases hevents
  | cons k ts =>
      obtain ⟨he, hrest⟩ := List.cons.inj hevents
      obtain ⟨hbefore, -, -⟩ := hrun.uncons
      intro k' hk'
      rcases List.mem_cons.mp hk' with rfl | hk'
      · rw [← hbefore] at hidle
        exact ⟨fun _ _ _ => hidle, fun _ _ => hidle⟩
      · refine sequential_of_goesOn (List.all_eq_true.mp hes k'.event ?_)
        rw [← hrest]
        exact List.mem_map_of_mem hk'

namespace Sample
open NuttxWireguard.Sample

def env : Env config where
  time := 1000
  timestamp := fun _ => timestamp 1
  ephemeral := fun _ => key 16 64
  draws := fun _ => [draw 1]
  cookieNonce := Bytes.zero 24
  cookieSecret := key 1 1
  sendto := fun _ => true
  iobPrepare := true
  iobCopyin := true
  ipv4Input := fun _ => []

def os : Os config := ⟨true, env, []⟩

def io : Io config := ⟨env, none⟩

/-- The steps of `wg_initialize` where nothing fails. -/
def up : List (Event config) := List.replicate 10 (.call 0 os)

/-- The steps of `wg_down` where the task leaves its loop and does not get to say so in time. -/
def late : List (Event config) :=
  .call 0 os :: .task 0 io :: List.replicate (wgDownRounds + 3) (.call 0 os)

set_option maxRecDepth 20000 in
/-- The port is left up, and its task on the way out. -/
theorem late_run : ∃ (ts : List (Taken (Port config) (Event config))) (s : Port config),
    Run (advance Crypto.plain) boot ts s ∧ (∀ k ∈ ts, Sequential k) ∧
      Idle s ∧ s.registered = true ∧ s.tasks = [.leave] := by
  obtain ⟨ts, m, us, s, hup, hbefore, hlate, hafter, hregistered, htasks⟩ :
      ∃ (ts : List (Taken (Port config) (Event config))) (m : Port config)
        (us : List (Taken (Port config) (Event config))) (s : Port config),
        steps (advance Crypto.plain) boot (.wgInitialize 0 (some (key 8 64)) :: up) =
          some (ts, m) ∧ Idle m ∧
        steps (advance Crypto.plain) m (.wgDown 0 :: late) = some (us, s) ∧ Idle s ∧
          s.registered = true ∧ s.tasks = [.leave] := by
    refine ⟨_, _, _, _, rfl, ?_, rfl, ?_, rfl, rfl⟩
    · intro who
      cases who with
      | zero => rfl
      | succ who => rfl
    · intro who
      cases who with
      | zero => rfl
      | succ who => rfl
  refine ⟨ts ++ us, s, (Run.of_steps hup).append (Run.of_steps hlate), ?_, hafter, hregistered,
    htasks⟩
  intro k hk
  rcases List.mem_append.mp hk with hk | hk
  · exact sequential_of_steps Crypto.plain (fun _ => rfl) rfl hup k hk
  · exact sequential_of_steps Crypto.plain hbefore rfl hlate k hk

end Sample

/-- Nothing in the code keeps a call from giving up when the task has left its loop. -/
theorem not_staysUp :
    ¬∀ (ts : List (Taken (Port NuttxWireguard.Sample.config) (Event NuttxWireguard.Sample.config)))
      (s : Port NuttxWireguard.Sample.config), Run (advance Crypto.plain) boot ts s →
        (∀ k ∈ ts, Sequential k) → ∀ k ∈ ts, StaysUp Crypto.plain k.after ∧ ClosesSafely k := by
  intro hall
  obtain ⟨ts, s, hrun, hseq, hidle, hup, htasks⟩ := Sample.late_run
  have hstays : StaysUp Crypto.plain s := by
    rcases hrun.last with rfl | ⟨k, hk, rfl⟩
    · cases hup
    · exact (hall ts _ hrun hseq k hk).1
  obtain ⟨t, ht, hloop⟩ := hstays hidle hup [] s .nil (by intro _ hk; cases hk)
  rw [htasks, List.mem_singleton] at ht
  rw [ht] at hloop
  cases hloop

theorem staysUp_iff_sample :
    ∃ (ts : List (Taken (Port NuttxWireguard.Sample.config) (Event NuttxWireguard.Sample.config)))
      (s : Port NuttxWireguard.Sample.config), Run (advance Crypto.plain) boot ts s ∧
        s.registered = true ∧ ¬∀ k ∈ ts, ¬LateGiveUp k := by
  obtain ⟨ts, s, hrun, hseq, hidle, hup, htasks⟩ := Sample.late_run
  refine ⟨ts, s, hrun, hup, fun hlate => ?_⟩
  have hall := (staysUp_iff Crypto.plain hrun hseq).mpr hlate
  have hstays : StaysUp Crypto.plain s := by
    rcases hrun.last with rfl | ⟨k, hk, rfl⟩
    · cases hup
    · exact (hall k hk).1
  obtain ⟨t, ht, hloop⟩ := hstays hidle hup [] s .nil (by intro _ hk; cases hk)
  rw [htasks, List.mem_singleton] at ht
  rw [ht] at hloop
  cases hloop

end NuttxWireguard.Flat.Lifecycle
