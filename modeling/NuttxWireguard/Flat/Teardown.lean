/-
What is left when the flat port is down.

`wg_down` clears the device last.  `wg_initialize` stores the private key first and has an exit
of its own behind each call to the operating system: the exits close the socket and take the
netdev back, and none of them clears the device.  So between calls a port that is down holds
nothing exactly as long as the operating system has not failed one of these calls.
-/
import NuttxWireguard.Flat.ConfFile
import NuttxWireguard.Flat.Lifecycle

namespace NuttxWireguard.Flat.Lifecycle

open Lib

variable {cfg : Config} (c : Crypto)

/-! ### What a device holds -/

/-- No private key, no static-static result and no session key. -/
structure NoKeys (d : Device cfg) : Prop where
  privateKey : d.privateKey = Bytes.zero 32
  publicKeyDh : ∀ x, (d.peers x).publicKeyDh = Bytes.zero 32
  session : ∀ x s, ((d.peers x).keypair s).sendingKey = Bytes.zero 32 ∧
    ((d.peers x).keypair s).receivingKey = Bytes.zero 32

theorem noKeys_zero : NoKeys (Device.zero : Device cfg) where
  privateKey := rfl
  publicKeyDh := fun _ => rfl
  session := by
    intro x s
    cases s with
    | curr | prev | next => exact ⟨rfl, rfl⟩

/-- A clamped key is never the cleared one. -/
theorem clamp_ne_zero (key : Key) : Crypto.clamp key ≠ Bytes.zero 32 := by
  intro h
  have hclamp : (Crypto.clamp key).get 31 = (key.get 31 &&& 127) ||| 64 := by
    unfold Crypto.clamp
    rw [List.Vector.get_ofFn, if_neg (by decide), if_pos rfl]
  rw [h] at hclamp
  have hbit : (0 : Byte).getLsbD 6 = ((key.get 31 &&& 127) ||| 64).getLsbD 6 :=
    congrArg (fun b : Byte => b.getLsbD 6) hclamp
  simp at hbit

theorem wgEncryptAndSend_key (env : Env cfg) (n : Netdev cfg) (x : Fin cfg.maxPeers)
    (plaintext : List Byte) :
    (wgEncryptAndSend c env n x plaintext).1.wg.privateKey = n.wg.privateKey := by
  rcases wgEncryptAndSend_cases c env n x plaintext with h | ⟨-, -, h⟩ | ⟨-, -, p, tx, -, h⟩
  · exact congrArg (fun r => r.1.wg.privateKey) h
  · exact congrArg (fun r => r.1.wg.privateKey) h
  · exact congrArg (fun r => r.1.wg.privateKey) h

/-- The stack does not touch the private key. -/
theorem StackStep.key {s : Port cfg} {n : Netdev cfg} (h : StackStep c s n) :
    n.wg.privateKey = s.n.wg.privateKey := by
  cases h with
  | ifup | ifdown => rfl
  | txpoll env packet =>
      unfold wgTxpoll
      split
      · dsimp only
        split
        · exact wgEncryptAndSend_key c env _ _ _
        · rfl
      · rfl

/-- To a cleared device without a netdev it does nothing. -/
theorem StackStep.zero {s : Port cfg} {n : Netdev cfg} (h : StackStep c s n)
    (hnone : s.netdevs = 0) (hzero : s.n.wg = Device.zero) : n.wg = Device.zero := by
  cases h with
  | ifup h | ifdown h =>
      rw [hnone] at h
      cases h
  | txpoll env packet =>
      unfold wgTxpoll
      split
      · dsimp only
        split
        · rename_i x hx
          have hvalid := (peerForDest_some hx).1
          rw [hzero] at hvalid
          cases hvalid
        · exact hzero
      · exact hzero

/-! ### The device at the steps of a call -/

/-- At these steps of a call every task has reported that it is done. -/
def Still (up : Bool) (pc : CallPc) : Prop :=
  (pc.stage up).task = false ∨ (pc.stage up).done = some true

/-- **What is known of the device while no task runs**, the tasks leave alone; the stack has to
leave it alone too. -/
theorem still_framed {Q : Bool → Device cfg → CallPc → Prop}
    (hbusy : ∀ up d pc, ¬Still up pc → Q up d pc)
    (hclear : ∀ d key, Q false d .idle → Q false d (.clear key))
    (hstack : ∀ (s : Port cfg) (n : Netdev cfg) pc, HeldAt s pc → StackStep c s n →
      Q s.registered s.n.wg pc → Q s.registered n.wg pc) :
    Framed c fun s pc => HeldAt s pc ∧ Q s.registered s.n.wg pc where
  callers := fun _ _ _ h => h
  clear := by
    intro s key hup h
    refine ⟨(heldAt_framed c).clear s key hup h.1, ?_⟩
    rw [hup]
    exact hclear _ key (by rw [← hup]; exact h.2)
  stop := by
    intro s hup h
    refine ⟨(heldAt_framed c).stop s hup h.1, hbusy _ _ _ ?_⟩
    rintro (htask | hdone)
    · cases htask
    · cases hdone
  task := by
    intro s r pc io i t t' hi hstep h
    have hheld := (heldAt_framed c).task s r pc io i t t' hi hstep h.1
    have hregistered := (taskStep_held c (pc.stage_fresh s.registered) h.1 hi hstep).1
    refine ⟨hheld, ?_⟩
    show Q r.registered r.n.wg pc
    rw [hregistered]
    refine hbusy _ _ _ fun hstill => ?_
    have hexited : t = .exited :=
      h.1.exited (hstill.imp_right (h.1.done true)) t (List.mem_of_getElem? hi)
    rw [hexited] at hstep
    cases hstep
  stack := by
    intro s pc n hn h
    exact ⟨(heldAt_framed c).stack s pc n hn h.1, hstack s n pc h.1 hn h.2⟩

/-- Where the device is cleared: between calls and while it is still or again cleared.  A call
does not get to an exit behind the socket. -/
def Cleared (up : Bool) (d : Device cfg) : CallPc → Prop
  | .idle => up = false → d = Device.zero
  | .device _ | .retire => d = Device.zero
  | .undoRegister | .undoSocket => False
  | .clear _ | .socket | .bind | .peers | .register | .start | .create | .address | .publish
  | .stop | .wait _ | .confirm | .giveUp | .ifdown | .unregister | .close | .wipe => True

/-- Where the private key is stored and no task is created yet. -/
def Keyed (_up : Bool) (d : Device cfg) : CallPc → Prop
  | .socket | .bind | .peers | .register | .start | .create | .undoRegister | .undoSocket =>
    d.privateKey ≠ Bytes.zero 32
  | .idle | .clear _ | .device _ | .address | .publish | .stop | .wait _ | .confirm | .giveUp
  | .ifdown | .unregister | .close | .wipe | .retire => True

/-- A call at its step, with what it relies on and with a device it leaves cleared. -/
def ClearedAt (s : Port cfg) (pc : CallPc) : Prop := HeldAt s pc ∧ Cleared s.registered s.n.wg pc

def KeyedAt (s : Port cfg) (pc : CallPc) : Prop := HeldAt s pc ∧ Keyed s.registered s.n.wg pc

theorem cleared_framed : @Framed cfg c ClearedAt := by
  refine still_framed c ?_ (fun _ _ _ => trivial) ?_
  · intro up d pc hbusy
    cases pc with
    | idle => exact fun hup => absurd (Or.inl hup) hbusy
    | device | undoRegister | undoSocket => exact absurd (Or.inl rfl) hbusy
    | retire => exact absurd (Or.inr rfl) hbusy
    | clear | socket | bind | peers | register | start | create | address | publish | stop | wait
    | confirm | giveUp | ifdown | unregister | close | wipe => trivial
  · intro s n pc hheld hn h
    cases pc with
    | idle =>
        intro hup
        unfold HeldAt at hheld
        rw [hup] at hheld
        exact hn.zero c hheld.netdevs (h hup)
    | device | retire => exact hn.zero c hheld.netdevs h
    | undoRegister | undoSocket => exact h
    | clear | socket | bind | peers | register | start | create | address | publish | stop | wait
    | confirm | giveUp | ifdown | unregister | close | wipe => trivial

theorem keyed_framed : @Framed cfg c KeyedAt := by
  refine still_framed c ?_ (fun _ _ _ => trivial) ?_
  · intro up d pc hbusy
    cases pc with
    | socket | bind | peers | register | start | create | undoRegister | undoSocket =>
        exact absurd (Or.inl rfl) hbusy
    | idle | clear | device | address | publish | stop | wait | confirm | giveUp | ifdown
    | unregister | close | wipe | retire => trivial
  · intro s n pc hheld hn h
    cases pc with
    | socket | bind | peers | register | start | create | undoRegister | undoSocket =>
        unfold Keyed at h ⊢
        rw [hn.key c]
        exact h
    | idle | clear | device | address | publish | stop | wait | confirm | giveUp | ifdown
    | unregister | close | wipe | retire => trivial

/-! ### Calls that fail -/

/-- These steps ask the operating system for something once the private key is stored. -/
def CallPc.asks : CallPc → Bool
  | .socket | .bind | .register | .create => true
  | .idle | .clear _ | .device _ | .peers | .start | .address | .publish | .undoRegister
  | .undoSocket | .stop | .wait _ | .confirm | .giveUp | .ifdown | .unregister | .close | .wipe
  | .retire => false

/-- The operating system fails `psock_socket`, `psock_bind`, `netdev_register` or
`task_create`. -/
def OsFails (k : Taken (Port cfg) (Event cfg)) : Prop :=
  ∃ who os, k.event = .call who os ∧ (k.before.callers who).asks = true ∧ os.ok = false

/-- As long as none of that happens, a call clears the device before it is over. -/
theorem callStep_cleared {os : Os cfg} {s r : Port cfg} {pc pc' : CallPc}
    (hok : pc.asks = true → os.ok = true) (hheld : HeldAt s pc)
    (h : Cleared s.registered s.n.wg pc) (hstep : callStep c os s pc = some (r, pc')) :
    Cleared r.registered r.n.wg pc' := by
  cases pc with
  | idle => cases hstep
  | clear key =>
      cases hstep
      rfl
  | device key =>
      have hzero : s.n.wg = Device.zero := h
      simp only [callStep] at hstep
      split at hstep
      · cases hstep
        intro _
        dsimp only
        rw [hzero]
        rfl
      · cases hstep
        trivial
  | socket | register | create =>
      simp only [callStep, hok rfl, if_true] at hstep
      cases hstep
      trivial
  | bind =>
      simp only [callStep, hok rfl, if_true] at hstep
      cases hstep
      trivial
  | publish =>
      cases hstep
      intro hup
      cases hup
  | undoRegister | undoSocket => exact h.elim
  | wait i =>
      cases hstep
      split
      · trivial
      · split <;> trivial
  | confirm =>
      cases hstep
      split <;> trivial
  | giveUp =>
      cases hstep
      intro hup
      exact absurd (hup.symm.trans hheld.registered) Bool.false_ne_true
  | wipe =>
      cases hstep
      rfl
  | retire =>
      cases hstep
      exact fun _ => h
  | peers | start | address | stop | ifdown | unregister | close =>
      cases hstep
      trivial

theorem closeSocket_n (s : Port cfg) : s.closeSocket.n = s.n := by
  unfold Port.closeSocket
  split <;> rfl

/-- From the step behind `wireguard_device_init` on the private key is stored. -/
theorem callStep_keyed {os : Os cfg} {s r : Port cfg} {pc pc' : CallPc}
    (h : Keyed s.registered s.n.wg pc) (hstep : callStep c os s pc = some (r, pc')) :
    Keyed r.registered r.n.wg pc' := by
  cases pc with
  | idle => cases hstep
  | device key =>
      simp only [callStep] at hstep
      split at hstep
      · cases hstep
        trivial
      · rename_i d hd
        cases hstep
        show d.privateKey ≠ Bytes.zero 32
        rw [(wireguardDeviceInit_key c hd).2.1]
        exact clamp_ne_zero key
  | socket | register | create =>
      simp only [callStep] at hstep
      split at hstep
      · cases hstep
        first | exact h | trivial
      · cases hstep
        first | exact h | trivial
  | bind =>
      cases hstep
      split <;> exact h
  | peers =>
      cases hstep
      obtain ⟨peers, hpeers⟩ := wgAddPeers_device c os.peers s.n.wg
      show (os.peers.foldl (wgAddPeer c) s.n.wg).privateKey ≠ Bytes.zero 32
      rw [hpeers]
      exact h
  | start | undoRegister =>
      cases hstep
      exact h
  | wait i =>
      cases hstep
      split
      · trivial
      · split <;> trivial
  | confirm =>
      cases hstep
      split <;> trivial
  | clear | address | publish | undoSocket | stop | giveUp | ifdown | unregister | close | wipe
  | retire =>
      cases hstep
      trivial

/-- A call that the operating system fails takes one of the exits, and these end it with the
private key stored. -/
theorem callStep_fails {os : Os cfg} {s r : Port cfg} {pc pc' : CallPc}
    (hheld : HeldAt s pc) (h : Keyed s.registered s.n.wg pc)
    (hfails : (pc.asks = true ∧ os.ok = false) ∨ pc = .undoRegister ∨ pc = .undoSocket)
    (hstep : callStep c os s pc = some (r, pc')) :
    pc' = .undoRegister ∨ pc' = .undoSocket ∨
      (pc' = .idle ∧ r.registered = false ∧ r.n.wg.privateKey ≠ Bytes.zero 32) := by
  rcases hfails with ⟨hasks, hfailed⟩ | rfl | rfl
  · cases pc with
    | socket =>
        simp only [callStep, hfailed] at hstep
        cases hstep
        exact Or.inr (Or.inr ⟨rfl, hheld.registered, h⟩)
    | bind | register =>
        simp only [callStep, hfailed] at hstep
        cases hstep
        exact Or.inr (Or.inl rfl)
    | create =>
        simp only [callStep, hfailed] at hstep
        cases hstep
        exact Or.inl rfl
    | idle | clear | device | peers | start | address | publish | undoRegister | undoSocket
    | stop | wait | confirm | giveUp | ifdown | unregister | close | wipe | retire => cases hasks
  · cases hstep
    exact Or.inr (Or.inl rfl)
  · cases hstep
    refine Or.inr (Or.inr ⟨rfl, (hheld.closeSocket rfl).registered, ?_⟩)
    rw [closeSocket_n]
    exact h

/-! ### Runs -/

/-- No call is in progress and `wg_is_up()` is false. -/
def Down (s : Port cfg) : Prop := Idle s ∧ s.registered = false

/-- Nothing is left: the state a later `wg_initialize` starts from is clean. -/
structure Wiped (s : Port cfg) : Prop where
  keys : NoKeys s.n.wg
  sockets : s.sockets = 0
  netdevs : s.netdevs = 0
  /-- Every task has reported that it is done. -/
  tasks : ∀ t ∈ s.tasks, t = .exited

theorem At.wiped {s : Port cfg} (h : At ClearedAt s) (hdown : Down s) : Wiped s := by
  obtain ⟨hidle, hup⟩ := hdown
  obtain ⟨hheld, hcleared⟩ := h.idle hidle
  unfold HeldAt at hheld
  rw [hup] at hheld
  have hzero : s.n.wg = Device.zero := hcleared hup
  refine ⟨?_, hheld.sockets, hheld.netdevs, hheld.exited (Or.inl rfl)⟩
  rw [hzero]
  exact noKeys_zero

theorem boot_cleared : @At cfg ClearedAt boot := by
  obtain ⟨a, hothers, hsteady⟩ := @boot_at cfg
  exact ⟨a, hothers, hsteady.1, fun _ => rfl⟩

theorem boot_keyed : @At cfg KeyedAt boot := by
  obtain ⟨a, hothers, hsteady⟩ := @boot_at cfg
  exact ⟨a, hothers, hsteady.1, trivial⟩

/-- A call is on its way out behind a failure. -/
def Undoing (s : Port cfg) : Prop :=
  ∃ who, s.callers who = .undoRegister ∨ s.callers who = .undoSocket

theorem Undoing.not_idle {s : Port cfg} (h : Undoing s) : ¬Idle s := by
  rintro hidle
  obtain ⟨who, hwho | hwho⟩ := h
  · cases (hidle who).symm.trans hwho
  · cases (hidle who).symm.trans hwho

/-- **A failure leads to a state that is down and not wiped**: while a call is on its way out
nothing else starts, and its last step leaves the private key. -/
theorem undoing_next {k : Taken (Port cfg) (Event cfg)} (hseq : Sequential k)
    (hstep : advance c k.before k.event = some k.after) (hkeyed : At KeyedAt k.before)
    (hwiped : Down k.after → Wiped k.after) (h : Undoing k.before ∨ OsFails k) :
    Undoing k.after := by
  obtain ⟨s, e, s'⟩ := k
  have hstep : advance c s e = some s' := hstep
  obtain ⟨a, hothers, hheld, hkey⟩ := hkeyed
  have hcall : ∀ who os r pc', who = a → callStep c os s (s.callers who) = some (r, pc') →
      s' = r.goto who pc' → ((s.callers who).asks = true ∧ os.ok = false) ∨
        s.callers who = .undoRegister ∨ s.callers who = .undoSocket → Undoing s' := by
    rintro who os r pc' rfl hcallstep rfl hfails
    rcases callStep_fails c hheld hkey hfails hcallstep with hpc | hpc | ⟨hpc, hdown, hleft⟩
    · exact ⟨who, Or.inl ((goto_callers_self r who pc').trans hpc)⟩
    · exact ⟨who, Or.inr ((goto_callers_self r who pc').trans hpc)⟩
    · refine absurd (hwiped ⟨fun i => ?_, hdown⟩).keys.privateKey hleft
      by_cases hi : i = who
      · rw [hi]
        exact (goto_callers_self r who pc').trans hpc
      · refine (goto_callers_of_ne r pc' hi).trans ?_
        rw [callStep_callers c hcallstep]
        exact hothers i hi
  rcases h with ⟨who, hundo⟩ | ⟨who, os, he, hasks, hfailed⟩
  · have hundo : s.callers who = .undoRegister ∨ s.callers who = .undoSocket := hundo
    have hnot : ¬Idle s := Undoing.not_idle ⟨who, hundo⟩
    cases advance_advanced c hstep with
    | nothing | stack => exact ⟨who, hundo⟩
    | @initializes w key => exact absurd (hseq.1 w (some key) rfl) hnot
    | @takesDown w => exact absurd (hseq.2 w rfl) hnot
    | @call w os r pc' hcallstep =>
        have hw : w = a := callStep_caller c hothers hcallstep
        have hwho : who = a := by
          by_contra hne
          rw [hothers who hne] at hundo
          rcases hundo with hc | hc <;> cases hc
        exact hcall w os r pc' hw hcallstep rfl (Or.inr (hw.trans hwho.symm ▸ hundo))
    | task hi htaskstep =>
        refine ⟨who, ?_⟩
        show _ ∨ _
        rw [taskStep_callers c htaskstep]
        exact hundo
  · have he : e = .call who os := he
    subst he
    have hasks : (s.callers who).asks = true := hasks
    obtain ⟨⟨r, pc'⟩, hcallstep, heq⟩ := Option.map_eq_some_iff.mp hstep
    exact hcall who os r pc' (callStep_caller c hothers hcallstep) hcallstep heq.symm
      (Or.inl ⟨hasks, hfailed⟩)

/-- Where every state that is down is wiped, no failure is behind the calls. -/
theorem failed_undoing {ts : List (Taken (Port cfg) (Event cfg))} {s : Port cfg}
    (hrun : Run (advance c) boot ts s) (hseq : ∀ k ∈ ts, Sequential k)
    (hwiped : ∀ k ∈ ts, Down k.after → Wiped k.after) :
    (∀ k ∈ ts, ¬OsFails k) ∨ Undoing s := by
  have hkeyed := (hrun.invariant boot_keyed fun k hk hstep h =>
    h.next c (keyed_framed c) (hseq k hk) (fun _ _ _ _ _ hcall hpc =>
      ⟨callStep_held c hpc.1 hcall, callStep_keyed c hpc.2 hcall⟩) hstep).2
  induction hrun with
  | nil => exact Or.inl fun k hk => absurd hk List.not_mem_nil
  | @snoc ts t u e hrun hstep ih =>
      have hlast : (⟨t, e, u⟩ : Taken (Port cfg) (Event cfg)) ∈ ts ++ [⟨t, e, u⟩] :=
        List.mem_append_right _ List.mem_cons_self
      have hnext := undoing_next c (hseq _ hlast) hstep (hkeyed _ hlast).1 (hwiped _ hlast)
      rcases ih (fun k hk => hseq k (List.mem_append_left _ hk))
          (fun k hk => hwiped k (List.mem_append_left _ hk))
          (fun k hk => hkeyed k (List.mem_append_left _ hk)) with hnone | hundo
      · by_cases hfails : OsFails (⟨t, e, u⟩ : Taken (Port cfg) (Event cfg))
        · exact Or.inr (hnext (Or.inr hfails))
        · refine Or.inl fun k hk => ?_
          rcases List.mem_append.mp hk with hk | hk
          · exact hnone k hk
          · rw [List.mem_singleton.mp hk]
            exact hfails
      · exact Or.inr (hnext (Or.inl hundo))

/-- **A port that is down is wiped between calls as long as the operating system has failed none
of the calls behind the private key**, and only as long as it has not. -/
theorem wiped_exactly {ts : List (Taken (Port cfg) (Event cfg))} {s : Port cfg}
    (hrun : Run (advance c) boot ts s) (hseq : ∀ k ∈ ts, Sequential k) :
    ((∀ k ∈ ts, ¬OsFails k) → ∀ k ∈ ts, Down k.after → Wiped k.after) ∧
      (Idle s → (∀ k ∈ ts, Down k.after → Wiped k.after) → ∀ k ∈ ts, ¬OsFails k) := by
  constructor
  · intro hnone k hk hdown
    have hcleared := (hrun.invariant boot_cleared fun k hk hstep h =>
      h.next c (cleared_framed c) (hseq k hk) (fun who os _ _ he hcall hpc =>
        ⟨callStep_held c hpc.1 hcall, callStep_cleared c (fun hasks => ?_) hpc.1 hpc.2 hcall⟩)
        hstep).2 k hk
    · exact hcleared.2.wiped hdown
    · by_contra hfailed
      exact hnone k hk ⟨who, os, he, hasks, by simpa using hfailed⟩
  · intro hidle hwiped
    rcases failed_undoing c hrun hseq hwiped with hnone | hundo
    · exact hnone
    · exact absurd hidle hundo.not_idle

/-- The operating system does what a call asks for. -/
def Event.osOk : Event cfg → Bool
  | .call _ os => os.ok
  | .wgInitialize _ _ | .wgDown _ | .task _ _ | .ifup | .ifdown | .txpoll _ _ => true

theorem not_osFails_of_steps {s s' : Port cfg} {es : List (Event cfg)}
    {ts : List (Taken (Port cfg) (Event cfg))} (hok : es.all Event.osOk = true)
    (h : steps (advance c) s es = some (ts, s')) : ∀ k ∈ ts, ¬OsFails k := by
  rintro k hk ⟨who, os, he, -, hfailed⟩
  have hmem : k.event ∈ es := by
    rw [← Run.events_of_steps h]
    exact List.mem_map_of_mem hk
  have htrue := List.all_eq_true.mp hok k.event hmem
  rw [he] at htrue
  exact absurd (hfailed.symm.trans htrue) Bool.false_ne_true

namespace Sample
open NuttxWireguard.Sample

/-- The steps of `wg_down` where the task leaves its loop at once. -/
def shut : List (Event config) :=
  .call 0 os :: .task 0 io :: .task 0 io :: List.replicate 7 (.call 0 os)

/-- The steps of `wg_initialize` where there is no socket. -/
def noSocket : List (Event config) :=
  List.replicate 2 (.call 0 os) ++ [.call 0 { os with ok := false }]

end Sample

/-- The port comes up and goes down again. -/
theorem wiped_exactly_sample :
    ∃ (ts : List (Taken (Port NuttxWireguard.Sample.config) (Event NuttxWireguard.Sample.config)))
      (s : Port NuttxWireguard.Sample.config), Run (advance Crypto.plain) boot ts s ∧
        Down s ∧ s.tasks = [.exited] ∧ ∀ k ∈ ts, Down k.after → Wiped k.after := by
  obtain ⟨ts, m, us, s, hup, hbefore, hdown, hafter, hregistered, htasks⟩ :
      ∃ (ts : List (Taken (Port NuttxWireguard.Sample.config)
          (Event NuttxWireguard.Sample.config)))
        (m : Port NuttxWireguard.Sample.config)
        (us : List (Taken (Port NuttxWireguard.Sample.config)
          (Event NuttxWireguard.Sample.config)))
        (s : Port NuttxWireguard.Sample.config),
        steps (advance Crypto.plain) boot
            (.wgInitialize 0 (some (NuttxWireguard.Sample.key 8 64)) :: Sample.up) =
          some (ts, m) ∧ Idle m ∧
        steps (advance Crypto.plain) m (.wgDown 0 :: Sample.shut) = some (us, s) ∧ Idle s ∧
          s.registered = false ∧ s.tasks = [.exited] := by
    refine ⟨_, _, _, _, rfl, ?_, rfl, ?_, rfl, rfl⟩
    · intro who
      cases who with
      | zero => rfl
      | succ who => rfl
    · intro who
      cases who with
      | zero => rfl
      | succ who => rfl
  have hrun := (Run.of_steps hup).append (Run.of_steps hdown)
  refine ⟨ts ++ us, s, hrun, ⟨hafter, hregistered⟩, htasks,
    (wiped_exactly Crypto.plain hrun fun k hk => ?_).1 fun k hk => ?_⟩
  · rcases List.mem_append.mp hk with hk | hk
    · exact sequential_of_steps Crypto.plain (fun _ => rfl) rfl hup k hk
    · exact sequential_of_steps Crypto.plain hbefore rfl hdown k hk
  · rcases List.mem_append.mp hk with hk | hk
    · exact not_osFails_of_steps Crypto.plain rfl hup k hk
    · exact not_osFails_of_steps Crypto.plain rfl hdown k hk

/-- The exit behind `psock_socket` leaves the private key where it is. -/
theorem not_wiped :
    ¬∀ (ts : List (Taken (Port NuttxWireguard.Sample.config) (Event NuttxWireguard.Sample.config)))
      (s : Port NuttxWireguard.Sample.config), Run (advance Crypto.plain) boot ts s →
        (∀ k ∈ ts, Sequential k) → ∀ k ∈ ts, Down k.after → Wiped k.after := by
  intro hall
  obtain ⟨ts, s, hsteps, hidle, hregistered, hkey⟩ :
      ∃ (ts : List (Taken (Port NuttxWireguard.Sample.config)
          (Event NuttxWireguard.Sample.config)))
        (s : Port NuttxWireguard.Sample.config),
        steps (advance Crypto.plain) boot
            (.wgInitialize 0 (some (NuttxWireguard.Sample.key 8 64)) :: Sample.noSocket) =
          some (ts, s) ∧ Idle s ∧ s.registered = false ∧
          s.n.wg.privateKey = Crypto.clamp (NuttxWireguard.Sample.key 8 64) := by
    refine ⟨_, _, rfl, ?_, rfl, rfl⟩
    intro who
    cases who with
    | zero => rfl
    | succ who => rfl
  have hseq := sequential_of_steps Crypto.plain (fun _ => rfl) rfl hsteps
  rcases (Run.of_steps hsteps).last with rfl | ⟨k, hk, rfl⟩
  · exact clamp_ne_zero _ hkey.symm
  · have hwiped := hall ts _ (Run.of_steps hsteps) hseq k hk ⟨hidle, hregistered⟩
    exact clamp_ne_zero _ (hkey.symm.trans hwiped.keys.privateKey)

end NuttxWireguard.Flat.Lifecycle
