/-
How long a session lasts.

A keypair is refused from `REJECT_AFTER_TIME` on, by the difference of two readings of a
32-bit clock.  The clock comes round after 49 days, so the difference is the keypair's age
only if something forgets the keypair before.  The timers do for the current one: within a
second of the limit it is gone.  They look at neither of the other two.

So a run accepts and sends nothing too old as long as no datagram reaches a keypair in
`prev` or `next` that the clock has come round to take for young (`used_within_life`).  The
clock also reads one instead of zero, which makes a session that starts in that
millisecond last one longer.
-/
import NuttxWireguard.Flat.Timers
import NuttxWireguard.Flat.Logged

namespace NuttxWireguard.Flat

open Lib

variable {cfg : Config} (c : Crypto) (env : Env cfg)

/-! ### What the log says of a session's age -/

/-- **Nothing is sent or accepted under a session that has reached `REJECT_AFTER_TIME`.** -/
structure UsedWithinLife {n : Nat} (log : List (Obs n)) : Prop where
  sent : ∀ {x sid initiator key counter time}, .encrypted x sid initiator key counter time ∈ log →
    ∃ born, .started x sid initiator key born ∈ log ∧ time < born + rejectMillis
  accepted : ∀ {x sid counter time}, .opened x sid counter true time ∈ log →
    ∃ initiator key born, .started x sid initiator key born ∈ log ∧ time < born + rejectMillis
  /-- A session starts once. -/
  once : ∀ {x y sid i j key key' born born'}, .started x sid i key born ∈ log →
    .started y sid j key' born' ∈ log → born = born'

/-- The second part, as a bound on every start. -/
def AcceptedYoung {n : Nat} (log : List (Obs n)) : Prop :=
  ∀ x sid counter time, .opened x sid counter true time ∈ log →
    ∀ y initiator key born, .started y sid initiator key born ∈ log → time < born + rejectMillis

/-- The sessions are with the peers in `valid`, and nothing old was accepted under them. -/
structure Honest {n : Nat} (valid : Fin n → Bool) (log : List (Obs n)) : Prop where
  young : AcceptedYoung log
  peers : ∀ x sid initiator key born, .started x sid initiator key born ∈ log → valid x = true

theorem Honest.tail {n : Nat} {valid : Fin n → Bool} {o : Obs n} {log : List (Obs n)}
    (h : Honest valid (o :: log)) : Honest valid log where
  young := fun x sid counter time ho y initiator key born hs =>
    h.young x sid counter time (List.mem_cons_of_mem _ ho) y initiator key born
      (List.mem_cons_of_mem _ hs)
  peers := fun x sid initiator key born hs =>
    h.peers x sid initiator key born (List.mem_cons_of_mem _ hs)

/-! ### Keypairs -/

/-- Started in the millisecond in which the clock wraps, and now at its limit. -/
def AtWrap (time born : Nat) : Prop := born % 2 ^ 32 = 0 ∧ time = born + rejectMillis

instance (time born : Nat) : Decidable (AtWrap time born) := inferInstanceAs (Decidable (_ ∧ _))

/-- With the last pass of the timers at `pass`: a keypair bears its start, and if it is the
current one it was not past one reject period then, unless the port had accepted something
under an older one. -/
structure Aged (valid : Fin cfg.maxPeers → Bool) (pass time : Nat) (log : List (Obs cfg.maxPeers))
    (x : Fin cfg.maxPeers) (s : Slot) (kp : Keypair cfg) : Prop where
  millis : kp.keypairMillis = sysNow kp.born
  born : kp.born ≤ time
  started : .started x kp.sid kp.initiator kp.sendingKey kp.born ∈ log
  exact : Honest valid log → s = .curr → ¬AtWrap time kp.born
  curr : Honest valid log → s = .curr → pass ≤ kp.born + rejectMillis

theorem aged_invariant {valid : Fin cfg.maxPeers → Bool} {pass time : Nat} (hle : pass ≤ time) :
    KeypairInvariant time (Aged valid pass time) where
  frame := by
    intro log x s kp o h _
    exact ⟨h.millis, h.born, List.mem_cons_of_mem _ h.started,
      fun ho => h.exact ho.tail, fun ho => h.curr ho.tail⟩
  demote := fun h => ⟨h.millis, h.born, h.started, (by intro _ hs; cases hs), fun _ hs => by cases hs⟩
  encrypt := by
    intro log x s kp lastTx h _ _ _
    exact ⟨h.millis, h.born, List.mem_cons_of_mem _ h.started,
      fun ho => h.exact ho.tail, fun ho => h.curr ho.tail⟩
  refuse := by
    intro log x s kp counter h _
    exact ⟨h.millis, h.born, List.mem_cons_of_mem _ h.started,
      fun ho => h.exact ho.tail, fun ho => h.curr ho.tail⟩
  accept := by
    intro log x s kp counter h _ _
    obtain ⟨_, _, hkp⟩ := receivedKeypair_cases (sysNow time) kp counter
    rw [hkp]
    -- what was accepted just now bounds its keypair's age
    have hyoung : Honest valid (.opened x kp.sid counter true time :: log) →
        time < kp.born + rejectMillis := by
      intro ho
      exact ho.young x kp.sid counter time List.mem_cons_self x kp.initiator kp.sendingKey
        kp.born (List.mem_cons_of_mem _ h.started)
    refine ⟨h.millis, h.born, List.mem_cons_of_mem _ h.started, fun ho _ hwrap => ?_,
      fun ho _ => hle.trans (hyoung ho).le⟩
    exact absurd hwrap.2 (Nat.ne_of_lt (hyoung ho))
  start := by
    intro log x sid kp hnew _
    refine ⟨by rw [hnew.millis, hnew.born], by rw [hnew.born], ?_, fun _ _ hwrap => ?_, fun _ _ => ?_⟩
    · rw [hnew.born, hnew.sid]
      exact List.mem_cons_self
    · have := hwrap.2
      rw [hnew.born] at this
      unfold rejectMillis at this
      omega
    · rw [hnew.born]
      omega

/-- A keypair the clock does not take for old is young, if the clock has not come round. -/
theorem lt_of_not_expired_reject {time born : Nat} (hlt : time - born < 2 ^ 31)
    (hexact : ¬AtWrap time born) (h : expired (sysNow time) (sysNow born) rejectAfterTime = false) :
    time < born + rejectMillis := by
  unfold expired at h
  have hdiff : ¬(rejectAfterTime * 1000).toNat ≤ (sysNow time - sysNow born).toNat :=
    of_decide_eq_false h
  rw [rejectAfterTime_millis, BitVec.toNat_sub, sysNow_toNat, sysNow_toNat] at hdiff
  unfold AtWrap rejectMillis at *
  split at hdiff <;> split at hdiff <;> omega

/-! ### Along a step -/

/-- What was sent was sent young. -/
def SentYoung {n : Nat} (log : List (Obs n)) : Prop :=
  ∀ x sid initiator key counter time, .encrypted x sid initiator key counter time ∈ log →
    ∃ born, .started x sid initiator key born ∈ log ∧ time < born + rejectMillis

theorem SentYoung.cons {n : Nat} {o : Obs n} {log : List (Obs n)} (h : SentYoung log)
    (ho : ∀ x sid initiator key counter time, o = .encrypted x sid initiator key counter time →
      ∃ born, .started x sid initiator key born ∈ log ∧ time < born + rejectMillis) :
    SentYoung (o :: log) := by
  intro x sid initiator key counter time hmem
  have hborn : ∃ born, .started x sid initiator key born ∈ log ∧ time < born + rejectMillis := by
    rcases List.mem_cons.mp hmem with heq | hmem
    · exact ho x sid initiator key counter time heq.symm
    · exact h x sid initiator key counter time hmem
  obtain ⟨born, hstart, hlt⟩ := hborn
  exact ⟨born, List.mem_cons_of_mem _ hstart, hlt⟩

/-- Two starts of one session are one. -/
def StartedOnce {n : Nat} (log : List (Obs n)) : Prop :=
  ∀ x y sid i j key key' born born', .started x sid i key born ∈ log →
    .started y sid j key' born' ∈ log → born = born'

theorem StartedOnce.cons {n : Nat} {o : Obs n} {log : List (Obs n)} (h : StartedOnce log)
    (ho : ∀ x sid i key born, o = .started x sid i key born → ∀ o' ∈ log, sid ∉ o'.session) :
    StartedOnce (o :: log) := by
  intro x y sid i j key key' born born' hx hy
  rcases List.mem_cons.mp hx with hx | hx <;> rcases List.mem_cons.mp hy with hy | hy
  · have := hx.trans hy.symm
    simp only [Obs.started.injEq] at this
    exact this.2.2.2.2
  · exact absurd rfl (ho x sid i key born hx.symm _ hy)
  · exact absurd rfl (ho y sid j key' born' hy.symm _ hx)
  · exact h x y sid i j key key' born born' hx hy

/-- A datagram opens under a session that has started. -/
def OpenedStarted {n : Nat} (log : List (Obs n)) : Prop :=
  ∀ x sid counter fresh time, .opened x sid counter fresh time ∈ log →
    ∃ initiator key born, .started x sid initiator key born ∈ log

theorem OpenedStarted.cons {n : Nat} {o : Obs n} {log : List (Obs n)} (h : OpenedStarted log)
    (ho : ∀ x sid counter fresh time, o = .opened x sid counter fresh time →
      ∃ initiator key born, .started x sid initiator key born ∈ log) :
    OpenedStarted (o :: log) := by
  intro x sid counter fresh time hmem
  have hstart : ∃ initiator key born, .started x sid initiator key born ∈ log := by
    rcases List.mem_cons.mp hmem with heq | hmem
    · exact ho x sid counter fresh time heq.symm
    · exact h x sid counter fresh time hmem
  obtain ⟨initiator, key, born, hstart⟩ := hstart
  exact ⟨initiator, key, born, List.mem_cons_of_mem _ hstart⟩

/-- What a run keeps of a driver whose timers pass at least once a second. -/
structure Dated (valid : Fin cfg.maxPeers → Bool) (pass time : Nat) (v : View cfg) : Prop where
  numbered : v.Numbered
  roles : v.Each Role
  aged : v.Each (Aged valid pass time)
  once : StartedOnce v.log
  opened : OpenedStarted v.log
  sent : Honest valid v.log → SentYoung v.log

namespace Dated

variable {valid : Fin cfg.maxPeers → Bool} {pass time : Nat} {v w : View cfg}

theorem fresh (h : v.Fresh) : Dated valid pass time v where
  numbered := .fresh h
  roles := h.each
  aged := h.each
  once := by
    rw [h.log]
    intro x y sid i j key key' born born' hx
    cases hx
  opened := by
    rw [h.log]
    intro x sid counter fresh time hmem
    cases hmem
  sent := by
    rw [h.log]
    intro _ x sid initiator key counter time hmem
    cases hmem

/-- The current keypair is young while the clock does not take it for old. -/
theorem curr_young (hle : pass ≤ time) (hlt : time ≤ pass + 1000) (hv : Dated valid pass time v)
    (hhonest : Honest valid v.log) {x : Fin cfg.maxPeers}
    (hfull : ((v.peers x).slots .curr).valid = true)
    (h : expired (sysNow time) ((v.peers x).slots .curr).keypairMillis rejectAfterTime = false) :
    time < ((v.peers x).slots .curr).born + rejectMillis := by
  have ha := hv.aged x .curr hfull
  have hpass := ha.curr hhonest rfl
  rw [ha.millis] at h
  refine lt_of_not_expired_reject ?_ (ha.exact hhonest rfl) h
  unfold rejectMillis at hpass
  omega

/-- A packet is sent on a young keypair. -/
theorem encrypts_young (hle : pass ≤ time) (hlt : time ≤ pass + 1000)
    (hv : Dated valid pass time v) (hhonest : Honest valid v.log) {x : Fin cfg.maxPeers}
    {kp : Keypair cfg} (hkp : kp = (v.peers x).slots (sendingSlot (v.peers x).slots))
    (husable : sendingUsable kp = true) (hlimit : sendingExhausted (sysNow time) kp = false) :
    .started x kp.sid kp.initiator kp.sendingKey kp.born ∈ v.log ∧
      time < kp.born + rejectMillis := by
  have hslot : sendingSlot (v.peers x).slots = .curr :=
    sendingSlot_eq_curr fun hvalid => (hv.roles x .curr hvalid).curr rfl
  rw [hslot] at hkp
  have hfull : ((v.peers x).slots .curr).valid = true := hkp ▸ sendingUsable_valid husable
  unfold sendingExhausted at hlimit
  simp only [Bool.or_eq_false_iff] at hlimit
  have hstarted := (hv.aged x .curr hfull).started
  have hyoung := hv.curr_young hle hlt hhonest hfull (hkp ▸ hlimit.1)
  rw [← hkp] at hstarted hyoung
  exact ⟨hstarted, hyoung⟩

/-- Every single step keeps it. -/
theorem micro (hle : pass ≤ time) (hlt : time ≤ pass + 1000) (h : Micro time v w)
    (hv : Dated valid pass time v) : Dated valid pass time w := by
  have hstarted : ∀ {x s} {kp : Keypair cfg}, kp = (v.peers x).slots s → kp.valid = true →
      ∃ initiator key born, .started x kp.sid initiator key born ∈ v.log := by
    intro x s kp hkp hvalid
    rw [hkp] at hvalid ⊢
    exact ⟨_, _, _, (hv.aged x s hvalid).started⟩
  have hlog : StartedOnce w.log ∧ OpenedStarted w.log ∧ (Honest valid w.log → SentYoung w.log) := by
    cases h with
    | drop => exact ⟨hv.once, hv.opened, hv.sent⟩
    | resetEndpoint => exact ⟨hv.once, hv.opened, hv.sent⟩
    | encrypt x kp lastTx hkp husable hlimit =>
        refine ⟨hv.once.cons (by intro _ _ _ _ _ h; cases h),
          hv.opened.cons (by intro _ _ _ _ _ h; cases h), fun hhonest => ?_⟩
        refine (hv.sent hhonest.tail).cons fun _ _ _ _ _ _ heq => ?_
        cases heq
        exact ⟨kp.born, hv.encrypts_young hle hlt hhonest.tail hkp husable hlimit⟩
    | start x kp hnew =>
        refine ⟨hv.once.cons fun _ _ _ _ _ heq o ho hsid => ?_,
          hv.opened.cons (by intro _ _ _ _ _ h; cases h), fun hhonest => ?_⟩
        · cases heq
          exact absurd (hv.numbered.log_lt o ho _ hsid) (Nat.lt_irrefl _)
        · exact (hv.sent hhonest.tail).cons (by intro _ _ _ _ _ _ h; cases h)
    | refuse x s kp counter hkp hvalid =>
        refine ⟨hv.once.cons (by intro _ _ _ _ _ h; cases h), hv.opened.cons fun _ _ _ _ _ heq => ?_,
          fun hhonest => (hv.sent hhonest.tail).cons (by intro _ _ _ _ _ _ h; cases h)⟩
        cases heq
        exact hstarted hkp hvalid
    | accept x s kp counter ip port hkp hvalid =>
        refine ⟨hv.once.cons (by intro _ _ _ _ _ h; cases h), hv.opened.cons fun _ _ _ _ _ heq => ?_,
          fun hhonest => (hv.sent hhonest.tail).cons (by intro _ _ _ _ _ _ h; cases h)⟩
        cases heq
        exact hstarted hkp hvalid
    | _ =>
        exact ⟨hv.once.cons (by intro _ _ _ _ _ h; cases h),
          hv.opened.cons (by intro _ _ _ _ _ h; cases h), fun hhonest =>
          (hv.sent hhonest.tail).cons (by intro _ _ _ _ _ _ h; cases h)⟩
  exact {
    numbered := h.numbered hv.numbered
    roles := h.each_keypair (role_invariant time) hv.numbered hv.roles
    aged := h.each_keypair (aged_invariant hle) hv.numbered hv.aged
    once := hlog.1
    opened := hlog.2.1
    sent := hlog.2.2 }

theorem path (hle : pass ≤ time) (hlt : time ≤ pass + 1000) (h : Path time v w)
    (hv : Dated valid pass time v) : Dated valid pass time w :=
  h.invariant (I := Dated valid pass time) (fun _ _ => micro hle hlt) hv

/-- A later clock, at which no session is just at its limit. -/
theorem later (hv : Dated valid pass time v) {time' : Nat} (hle : time ≤ time')
    (hexact : Honest valid v.log → ∀ x, ((v.peers x).slots .curr).valid = true →
      ¬AtWrap time' ((v.peers x).slots .curr).born) : Dated valid pass time' v :=
  { hv with aged := fun x s hfull =>
      have ha := hv.aged x s hfull
      ⟨ha.millis, ha.born.trans hle, ha.started,
        (fun ho hs => by subst hs; exact hexact ho x hfull), ha.curr⟩ }

end Dated

/-! ### The timers -/

/-- The current keypairs were there before, as old. -/
def CurrFrom (v w : View cfg) : Prop :=
  ∀ x, ((w.peers x).slots .curr).valid = true → ((v.peers x).slots .curr).valid = true ∧
    ((w.peers x).slots .curr).keypairMillis = ((v.peers x).slots .curr).keypairMillis

namespace CurrFrom

variable {u v w : View cfg}

theorem of_peers_eq (h : w.peers = v.peers) : CurrFrom v w := by
  intro x hvalid
  rw [h] at hvalid ⊢
  exact ⟨hvalid, rfl⟩

theorem refl (v : View cfg) : CurrFrom v v := of_peers_eq rfl

theorem trans (h : CurrFrom u v) (h' : CurrFrom v w) : CurrFrom u w := by
  intro x hvalid
  obtain ⟨hv, hm⟩ := h' x hvalid
  exact ⟨(h x hv).1, hm.trans (h x hv).2⟩

theorem setPeer (v : View cfg) (x : Fin cfg.maxPeers) {p : PeerView cfg}
    (h : (p.slots .curr).valid = true → ((v.peers x).slots .curr).valid = true ∧
      (p.slots .curr).keypairMillis = ((v.peers x).slots .curr).keypairMillis) :
    CurrFrom v (v.setPeer x p) := by
  intro y hvalid
  rw [View.setPeer_peers] at hvalid ⊢
  split at hvalid
  · rename_i hy
    rw [hy, if_pos rfl]
    exact h hvalid
  · rename_i hy
    rw [if_neg hy]
    exact ⟨hvalid, rfl⟩

/-- A slot is written over by a keypair as old, or cleared. -/
theorem put (v : View cfg) (x : Fin cfg.maxPeers) (s : Slot) {kp : Keypair cfg} {p : PeerView cfg}
    (hp : p.slots = (v.peers x).slots.put s kp)
    (hkp : kp.valid = true → ((v.peers x).slots s).valid = true ∧
      kp.keypairMillis = ((v.peers x).slots s).keypairMillis) : CurrFrom v (v.setPeer x p) := by
  refine setPeer v x fun hvalid => ?_
  rw [hp] at hvalid ⊢
  rcases Slots.put_cases (v.peers x).slots s .curr kp with ⟨hs, he⟩ | ⟨-, he⟩
  · rw [he] at hvalid ⊢
    rw [hs]
    exact hkp hvalid
  · rw [he] at hvalid ⊢
    exact ⟨hvalid, rfl⟩

end CurrFrom

theorem wgSendKeepalive_currFrom (n : Netdev cfg) (x : Fin cfg.maxPeers) :
    CurrFrom n.view (wgSendKeepalive c env n x).view := by
  unfold wgSendKeepalive
  rcases wgEncryptAndSend_cases c env n x [] with hr | ⟨-, -, hr⟩ | ⟨husable, -, p, tx, hp, hr⟩
  · rw [hr]
    exact .refl _
  · rw [hr, view_setPeer]
    exact .put n.view x _ (congrArg PeerView.slots (keypairDestroy_view _ _)) fun h => by cases h
  · rw [hr, view_setPeer, psockSendto_view, view_observe]
    have hobserve : ∀ o, CurrFrom n.view (n.view.observe o) := fun o => .of_peers_eq rfl
    refine (hobserve _).trans (.put _ x (sendingSlot (n.peer x).keypair) (congrArg PeerView.slots hp)
      fun _ => ?_)
    exact ⟨sendingUsable_valid husable, rfl⟩

theorem wgStartHandshake_currFrom {n n' : Netdev cfg} {x : Fin cfg.maxPeers}
    (h : wgStartHandshake c env n x = some n') : CurrFrom n.view n'.view := by
  rcases wgStartHandshake_view c env h with hv | hv
  · rw [hv]
    exact .refl _
  · rw [hv]
    exact .of_peers_eq rfl

/-- The two expiry rules leave no current keypair the clock takes for old. -/
theorem wgExpirePeer_fresh (now : U32) (p : Peer cfg)
    (hvalid : (wgExpirePeer now p).currKeypair.valid = true) :
    expired now (wgExpirePeer now p).currKeypair.keypairMillis rejectAfterTime = false := by
  unfold wgExpirePeer at hvalid ⊢
  dsimp only at hvalid ⊢
  generalize (if p.currKeypair.valid = true ∧
    expired now p.currKeypair.keypairMillis (rejectAfterTime * 3) = true then wgForgetPeer p
    else p) = q at hvalid ⊢
  split at hvalid
  · cases hvalid
  · rename_i hkeep
    rw [if_neg hkeep]
    by_contra hexp
    exact hkeep ⟨hvalid, Or.inl (by simpa using hexp)⟩

theorem wgExpirePeer_currFrom (n : Netdev cfg) (x : Fin cfg.maxPeers) (now : U32) :
    CurrFrom n.view (n.setPeer x (wgExpirePeer now (n.peer x))).view := by
  rw [view_setPeer]
  refine .setPeer _ x fun hvalid => ?_
  have hvalid : (wgExpirePeer now (n.peer x)).currKeypair.valid = true := hvalid
  show (n.peer x).currKeypair.valid = true ∧
    (wgExpirePeer now (n.peer x)).currKeypair.keypairMillis = (n.peer x).currKeypair.keypairMillis
  unfold wgExpirePeer at hvalid ⊢
  dsimp only at hvalid ⊢
  by_cases hdead : (n.peer x).currKeypair.valid = true ∧
      expired now (n.peer x).currKeypair.keypairMillis (rejectAfterTime * 3) = true
  · rw [if_pos hdead] at hvalid
    split at hvalid <;> cases hvalid
  · rw [if_neg hdead] at hvalid ⊢
    split at hvalid
    · cases hvalid
    · rename_i hkeep
      rw [if_neg hkeep]
      exact ⟨hvalid, rfl⟩

/-- What the clock says of a current keypair. -/
def CurrFresh (now : U32) (v : View cfg) (x : Fin cfg.maxPeers) : Prop :=
  ((v.peers x).slots .curr).valid = true →
    expired now ((v.peers x).slots .curr).keypairMillis rejectAfterTime = false

theorem CurrFresh.of_from {now : U32} {v w : View cfg} {x : Fin cfg.maxPeers}
    (h : CurrFresh now v x) (hfrom : CurrFrom v w) : CurrFresh now w x := by
  intro hvalid
  obtain ⟨hv, hm⟩ := hfrom x hvalid
  rw [hm]
  exact h hv

/-- One turn of the loop checks its own peer and makes none older. -/
theorem wgRunTimersPeer_fresh {n n' : Netdev cfg} {x : Fin cfg.maxPeers}
    (h : wgRunTimersPeer c env n x = some n') : CurrFrom n.view n'.view ∧
      ((n.peer x).valid = true → CurrFresh env.now n'.view x) := by
  unfold wgRunTimersPeer at h
  split at h
  · rename_i hx
    cases h
    exact ⟨.refl _, fun hc => absurd hc hx⟩
  · dsimp only at h
    have hexpire := wgExpirePeer_currFrom n x env.now
    have hfresh : CurrFresh env.now (n.setPeer x (wgExpirePeer env.now (n.peer x))).view x := by
      unfold CurrFresh
      rw [view_setPeer, View.setPeer_peers_self]
      exact wgExpirePeer_fresh env.now (n.peer x)
    generalize n.setPeer x (wgExpirePeer env.now (n.peer x)) = m at h hexpire hfresh
    have hkeep : CurrFrom m.view
        (if keepaliveDue env.now (m.peer x) then wgSendKeepalive c env m x else m).view := by
      split
      · exact wgSendKeepalive_currFrom c env m x
      · exact .refl _
    generalize (if keepaliveDue env.now (m.peer x) then wgSendKeepalive c env m x else m) = m'
      at h hkeep
    have hrest : CurrFrom m.view n'.view := by
      refine hkeep.trans ?_
      split at h
      · exact wgStartHandshake_currFrom c env h
      · cases h
        exact .refl _
    exact ⟨hexpire.trans hrest, fun _ => hfresh.of_from hrest⟩

/-- **A pass leaves no current keypair the clock takes for old.** -/
theorem wgRunTimers_fresh {n n' : Netdev cfg} {valid : Fin cfg.maxPeers → Bool}
    (hvalid : ∀ x, (n.peer x).valid = valid x) (h : wgRunTimers c env n = some n')
    {x : Fin cfg.maxPeers} (hx : valid x = true) : CurrFresh env.now n'.view x := by
  have hconfigured : ∀ (y : Fin cfg.maxPeers) (a b : Netdev cfg),
      wgRunTimersPeer c env a y = some b → (∀ x, (a.peer x).valid = valid x) →
      ∀ x, (b.peer x).valid = valid x := by
    intro y a b hs ha
    exact (wgRunTimersPeer_path c env hs).invariant
      (I := fun v => ∀ x, (v.peers x).valid = valid x)
      (fun v w hm hv x => (hm.configured x).1.trans (hv x)) ha
  have hsettled := foldlM_settles
    (Q := fun _ (m : Netdev cfg) => ∀ x, (m.peer x).valid = valid x)
    (P := fun x (m : Netdev cfg) => (∀ x, (m.peer x).valid = valid x) ∧
      (valid x = true → CurrFresh env.now m.view x))
    (fun x a b hs ha => ⟨hconfigured x a b hs ha, fun hx =>
      (wgRunTimersPeer_fresh c env hs).2 ((ha x).trans hx)⟩)
    (fun x y a b _ hs ha => ⟨hconfigured y a b hs ha.1, fun hx =>
      (ha.2 hx).of_from (wgRunTimersPeer_fresh c env hs).1⟩)
    (fun x y a b _ hs ha => hconfigured y a b hs ha)
    (List.finRange cfg.maxPeers) (List.nodup_finRange _) h (fun _ _ => hvalid)
  exact (hsettled x (List.mem_finRange x)).2 hx

/-! ### Runs -/

/-- The datagram is for the keypair in slot `s` of peer `x`. -/
structure AddressedTo (n : Netdev cfg) (data : List Byte) (x : Fin cfg.maxPeers) (s : Slot) :
    Prop where
  type : messageType data = messageTransportData
  peer : peerByReceiver n.wg (dataReceiver data) = some x
  slot : keypairByIndex (n.peer x) (dataReceiver data) = some s

/-- The keypair has reached `REJECT_AFTER_TIME`, and the clock takes it for young. -/
def TakenForYoung (time : Nat) (kp : Keypair cfg) : Prop :=
  kp.born + rejectMillis ≤ time ∧
    expired (sysNow time) kp.keypairMillis rejectAfterTime = false

/-- **The clock misjudges nothing a step depends on.** -/
structure Judged (k : Taken (Netdev cfg) (Event cfg)) : Prop where
  /-- No datagram reaches a keypair in `prev` or `next` that the clock takes for young. -/
  reaches : ∀ env data addr port, k.event.received = some (env, data, addr, port) →
    ∀ x s, AddressedTo k.before data x s → s ≠ .curr →
      ¬TakenForYoung env.time ((k.before.peer x).keypair s)
  /-- No current session that started when the clock wrapped is just at its limit. -/
  wraps : ∀ time ∈ k.event.time, ∀ x, ((k.before.peer x).keypair .curr).valid = true →
    ¬AtWrap time ((k.before.peer x).keypair .curr).born

/-- A state in which all is well, and what it takes for it to stay so. -/
structure Lively (valid : Fin cfg.maxPeers → Bool) (pass clock : Nat) (n : Netdev cfg) : Prop where
  dated : Dated valid pass clock n.view
  honest : Honest valid n.log
  peers : ∀ x, (n.peer x).valid = valid x

/-- What a step may add without doing harm. -/
def Harmless (valid : Fin cfg.maxPeers → Bool) (time : Nat) (n : Netdev cfg)
    (o : Obs cfg.maxPeers) : Prop :=
  (∀ x sid initiator key born, o = .started x sid initiator key born → valid x = true) ∧
  ∀ x sid counter t, o = .opened x sid counter true t → ∃ s, t = time ∧
    ((n.peer x).keypair s).valid = true ∧ ((n.peer x).keypair s).sid = sid ∧
    time < ((n.peer x).keypair s).born + rejectMillis

theorem harmless_allows (valid : Fin cfg.maxPeers → Bool) (time : Nat) (n : Netdev cfg) :
    Allows (Harmless valid time n) valid time where
  packet := by
    intro _ _ _ _ _
    exact ⟨(by intro _ _ _ _ _ h; cases h), (by intro _ _ _ _ h; cases h)⟩
  inject := by
    intro _ _
    exact ⟨(by intro _ _ _ _ _ h; cases h), (by intro _ _ _ _ h; cases h)⟩
  initAccepted := by
    intro _ _
    exact ⟨(by intro _ _ _ _ _ h; cases h), (by intro _ _ _ _ h; cases h)⟩
  responseAccepted := by
    intro _
    exact ⟨(by intro _ _ _ _ _ h; cases h), (by intro _ _ _ _ h; cases h)⟩
  started := by
    intro x hx _ _ _
    exact ⟨(by intro _ _ _ _ _ h; cases h; exact hx), (by intro _ _ _ _ h; cases h)⟩

theorem harmless_initiation (valid : Fin cfg.maxPeers → Bool) (time : Nat) (n : Netdev cfg)
    (x : Fin cfg.maxPeers) (ip : U32) (port : U16) :
    Harmless valid time n (.initiation x ip port time) :=
  ⟨(by intro _ _ _ _ _ h; cases h), (by intro _ _ _ _ h; cases h)⟩

namespace Lively

variable {valid : Fin cfg.maxPeers → Bool} {pass clock : Nat} {n n' : Netdev cfg}

/-- Harmless entries keep the log honest. -/
theorem honest_of_adds {time time' : Nat} (hn : Lively valid pass clock n)
    (hd : Dated valid pass time' n'.view) (hadds : Adds (Harmless valid time n) n n') :
    Honest valid n'.log := by
  have hsuffix : n.log <:+ n'.log := by
    obtain ⟨new, hnew, -⟩ := hadds
    exact ⟨new, hnew.symm⟩
  refine ⟨fun x sid counter t ho y initiator key born hs => ?_,
    fun x sid initiator key born hs => ?_⟩
  · rcases hadds.mem_or ho with hQ | ho
    · obtain ⟨s, rfl, hvalid, rfl, hlt⟩ := hQ.2 x sid counter t rfl
      have hstarted := hsuffix.subset (hn.dated.aged x s hvalid).started
      rw [hd.once _ _ _ _ _ _ _ _ _ hs hstarted]
      exact hlt
    · obtain ⟨i, key', born', hstarted⟩ := hn.dated.opened x sid counter true t ho
      rw [hd.once _ _ _ _ _ _ _ _ _ hs (hsuffix.subset hstarted)]
      exact hn.honest.young x sid counter t ho x i key' born' hstarted
  · rcases hadds.mem_or hs with hQ | hs
    · exact hQ.1 x sid initiator key born rfl
    · exact hn.honest.peers x sid initiator key born hs

/-- What a datagram adds is harmless if the clock does not misjudge its keypair. -/
theorem rx_adds (hle : pass ≤ env.time) (hlt : env.time ≤ pass + 1000)
    (hn : Lively valid pass env.time n) {data : List Byte} {addr : U32} {port : U16}
    (hjudged : ∀ x s, AddressedTo n data x s → s ≠ .curr →
      ¬TakenForYoung env.time ((n.peer x).keypair s))
    (h : wgProcessUdpPacket c env n data addr port = some n') :
    Adds (Harmless valid env.time n) n n' := by
  refine wgProcessUdpPacket_adds c env (harmless_allows valid env.time n) hn.peers ?_ ?_ h
  · intro x s htype hx hs hlimit fresh
    refine ⟨(by intro _ _ _ _ _ h; cases h), fun x' sid counter t heq => ?_⟩
    cases heq
    have hvalid := (keypairByIndex_some hs).1
    refine ⟨s, rfl, hvalid, rfl, ?_⟩
    unfold receivingExhausted at hlimit
    simp only [Bool.or_eq_false_iff] at hlimit
    by_cases hcurr : s = .curr
    · subst hcurr
      exact hn.dated.curr_young hle hlt hn.honest hvalid hlimit.1.2
    · by_contra hold
      exact hjudged x s ⟨htype, hx, hs⟩ hcurr ⟨Nat.not_lt.mp hold, hlimit.1.2⟩
  · intro x p _ _ _
    exact ⟨⟨(by intro _ _ _ _ _ h; cases h), (by intro _ _ _ _ h; cases h)⟩,
      harmless_initiation valid env.time n x⟩

/-- **One step keeps it.** -/
theorem of_step {e : Event cfg} (hle : pass ≤ clock) (hlt : clock ≤ pass + 1000)
    (hn : Lively valid pass clock n) (ht : ∀ t ∈ e.time, clock ≤ t ∧ t ≤ pass + 1000)
    (hjudged : Judged (⟨n, e, n'⟩ : Taken (Netdev cfg) (Event cfg)))
    (h : step c n e = some n') :
    Lively valid pass (e.time.getD clock) n' ∧ pass ≤ e.time.getD clock ∧
      e.time.getD clock ≤ pass + 1000 := by
  have hnow : clock ≤ e.time.getD clock ∧ e.time.getD clock ≤ pass + 1000 := by
    cases he : e.time with
    | none => exact ⟨Nat.le_refl _, hlt⟩
    | some t => exact ht t he
  have hlater : Lively valid pass (e.time.getD clock) n := by
    refine { hn with dated := hn.dated.later hnow.1 fun hhonest x hvalid => ?_ }
    cases he : e.time with
    | none => exact (hn.dated.aged x .curr hvalid).exact hhonest rfl
    | some t => exact hjudged.wraps t he x hvalid
  have hpath : Path (e.time.getD clock) n.view n'.view :=
    step_path c (fun t ht => by rw [Option.mem_def.mp ht]; rfl) h
  have hdated := hlater.dated.path (hle.trans hnow.1) hnow.2 hpath
  have hadds : Adds (Harmless valid (e.time.getD clock) n) n n' := by
    have hallows := harmless_allows valid (e.time.getD clock) n
    cases e with
    | rx env data addr port =>
        simp only [step] at h
        split at h
        · cases h
          exact .refl n
        · exact hlater.rx_adds c env (hle.trans hnow.1) hnow.2
            (hjudged.reaches env _ addr port rfl) h
    | timers env =>
        exact foldlM_relates (R := Adds (Harmless valid env.time n)) .refl .trans
          (fun a x b hs => wgRunTimersPeer_adds c env hallows.packet
            (fun _ => harmless_initiation valid env.time n x) hs) _ h
    | txpoll env packet =>
        cases h
        split
        · exact wgTxpoll_adds c env hallows.packet n packet
        · exact .refl n
    | ifup => cases h; exact .of_log_eq rfl
    | ifdown => cases h; exact .of_log_eq rfl
  refine ⟨⟨hdated, hlater.honest_of_adds hdated hadds, fun x => ?_⟩, hle.trans hnow.1, hnow.2⟩
  have hvalid := hpath.invariant (I := fun v => (v.peers x).valid = valid x)
    (fun v w hm hv => (hm.configured x).1.trans hv) (hn.peers x)
  exact hvalid

/-- A pass of the timers starts the next second. -/
theorem of_pass (hle : pass ≤ env.time) (hlt : env.time ≤ pass + 1000)
    (hn : Lively valid pass env.time n')
    (hfresh : ∀ x, valid x = true → CurrFresh env.now n'.view x) :
    Lively valid env.time env.time n' := by
  refine { hn with dated := { hn.dated with aged := fun x s hfull => ?_ } }
  have ha := hn.dated.aged x s hfull
  refine ⟨ha.millis, ha.born, ha.started, ha.exact, fun hhonest hs => ?_⟩
  subst hs
  have hx := hhonest.peers x _ _ _ _ ha.started
  exact (hn.dated.curr_young hle hlt hhonest hfull (hfresh x hx hfull)).le

end Lively

/-- **In every run whose timers pass at least once a second, nothing is sent or accepted under
a session past its life, as long as the clock misjudges nothing a step depends on.** -/
theorem Lively.of_run {valid : Fin cfg.maxPeers → Bool} {pass clock : Nat} {n m : Netdev cfg}
    {ts : List (Taken (Netdev cfg) (Event cfg))} (hle : pass ≤ clock) (hlt : clock ≤ pass + 1000)
    (hn : Lively valid pass clock n) (hrun : Run (step c) n ts m)
    (hpasses : OncePerSecond pass clock (ts.map (·.event))) (hjudged : ∀ k ∈ ts, Judged k) :
    ∃ pass clock, Lively valid pass clock m := by
  induction ts generalizing pass clock n with
  | nil =>
      rw [hrun.eq_of_nil]
      exact ⟨pass, clock, hn⟩
  | cons k ts ih =>
      obtain ⟨rfl, hstep, hrest⟩ := hrun.uncons
      obtain ⟨n, e, n'⟩ := k
      have hk := hjudged _ List.mem_cons_self
      have hrestjudged : ∀ k ∈ ts, Judged k := fun j hj => hjudged j (List.mem_cons_of_mem _ hj)
      by_cases htimers : ∃ env, e = .timers env
      · obtain ⟨env, rfl⟩ := htimers
        obtain ⟨hclock, hsecond, hpasses⟩ := hpasses
        have htime : ∀ t ∈ (Event.timers env : Event cfg).time, clock ≤ t ∧ t ≤ pass + 1000 := by
          rintro t ⟨⟩
          exact ⟨hclock, hsecond⟩
        obtain ⟨hn', hle', hlt'⟩ := hn.of_step c hle hlt htime hk hstep
        have hpass := hn'.of_pass env hle' hlt'
          fun x hx => wgRunTimers_fresh c env hn.peers hstep hx
        exact ih (Nat.le_refl _) (Nat.le_add_right _ _) hpass hrest hpasses hrestjudged
      · have hpasses' : (∀ t ∈ e.time, clock ≤ t ∧ t ≤ pass + 1000) ∧
            OncePerSecond pass (e.time.getD clock) (ts.map (·.event)) := by
          cases e with
          | timers env => exact absurd ⟨env, rfl⟩ htimers
          | _ => exact hpasses
        obtain ⟨hn', hle', hlt'⟩ := hn.of_step c hle hlt hpasses'.1 hk hstep
        exact ih hle' hlt' hn' hrest hpasses'.2 hrestjudged

/-- **Nothing is sent or accepted under a session past its life** in a run whose timers pass
at least once a second and in which the clock misjudges nothing a step depends on. -/
theorem used_within_life {start : Nat} {n m : Netdev cfg}
    {ts : List (Taken (Netdev cfg) (Event cfg))} (hinit : InitialAt c start n)
    (hrun : Run (step c) n ts m) (hpasses : OncePerSecond start start (ts.map (·.event)))
    (hjudged : ∀ k ∈ ts, Judged k) : UsedWithinLife m.log := by
  obtain ⟨env, probe, key, peers, rfl, hinit⟩ := hinit
  have hfresh : n.view.Fresh := Initial.fresh c ⟨env, probe, key, peers, hinit⟩
  have hlog : n.log = [] := hfresh.log
  have hn : Lively (fun x => (n.peer x).valid) env.time env.time n := by
    refine ⟨.fresh hfresh, ⟨?_, ?_⟩, fun _ => rfl⟩
    · rw [hlog]
      intro x sid counter time hmem
      cases hmem
    · rw [hlog]
      intro x sid initiator key born hmem
      cases hmem
  obtain ⟨pass, clock, hm⟩ :=
    hn.of_run c (Nat.le_refl _) (Nat.le_add_right _ _) hrun hpasses hjudged
  refine ⟨fun ho => hm.dated.sent hm.honest _ _ _ _ _ _ ho, fun {x sid counter time} ho => ?_,
    fun hx hy => hm.dated.once _ _ _ _ _ _ _ _ _ hx hy⟩
  obtain ⟨initiator, key, born, hstart⟩ := hm.dated.opened _ _ _ _ _ ho
  exact ⟨initiator, key, born, hstart, hm.honest.young _ _ _ _ ho _ _ _ _ hstart⟩

namespace Sample

open NuttxWireguard.Sample

/-- The clock has come round to the moment the first peer's session started. -/
def round : Nat := 1001 + 2 ^ 32

/-- The session that was never used opens a datagram when the clock has come round. -/
theorem late : ∃ (n₀ n m : Netdev config), InitialAt Crypto.plain 1000 n₀ ∧
    step Crypto.plain n₀ (rxInitiation 1001) = some n ∧ (∀ x, idle (n.peer x) = true) ∧
    step Crypto.plain n (rxData round 0 (packet 5)) = some m ∧
    .opened first 0 0 true round ∈ m.log ∧ ∀ born ∈ sessionTimes first m.log, born = 1001 := by
  have hrun : (initial.bind fun n₀ => (step Crypto.plain n₀ (rxInitiation 1001))).any
      (fun n => (List.finRange config.maxPeers).all (fun x => idle (n.peer x)) &&
        (step Crypto.plain n (rxData round 0 (packet 5))).any fun (m : Netdev config) =>
          decide (.opened first 0 0 true round ∈ m.log) &&
            decide (∀ born ∈ sessionTimes first m.log, born = 1001)) = true := by decide +kernel
  obtain ⟨n, hn, h⟩ := (Option.any_eq_true _ _).mp hrun
  obtain ⟨n₀, h₀, hstep⟩ := Option.bind_eq_some_iff.mp hn
  simp only [Bool.and_eq_true, List.all_eq_true] at h
  obtain ⟨m, hm, hlog⟩ := (Option.any_eq_true _ _).mp h.2
  simp only [Bool.and_eq_true, decide_eq_true_eq] at hlog
  exact ⟨n₀, n, m, ⟨_, _, _, _, rfl, h₀⟩, hstep, fun x => h.1 x (List.mem_finRange x), hm, hlog⟩

/-- What follows the passes has the last of them behind it. -/
theorem oncePerSecond_passes_append (n : Netdev config) {pass clock time : Nat} (count : Nat)
    {events : List (Event config)} (hclock : clock ≤ time) (hpass : time ≤ pass + 1000)
    (h : OncePerSecond (time + 1000 * count) (time + 1000 * count) events) :
    OncePerSecond pass clock ((passes n time (count + 1)).map (·.event) ++ events) := by
  induction count generalizing pass clock time with
  | zero => exact ⟨hclock, hpass, h⟩
  | succ count ih =>
      refine ⟨hclock, hpass, ih (Nat.le_add_right _ _) (Nat.le_refl _) ?_⟩
      rwa [Nat.add_assoc, show 1000 + 1000 * count = 1000 * (count + 1) from by omega]

/-- Passes of the timers for as long as the clock takes to come round, then the datagram. -/
theorem run_late : ∃ (n₀ m : Netdev config) (ts : List (Taken _ (Event config))),
    InitialAt Crypto.plain 1000 n₀ ∧ Run (step Crypto.plain) n₀ ts m ∧
    OncePerSecond 1000 1000 (ts.map (·.event)) ∧
    .opened first 0 0 true round ∈ m.log ∧ ∀ born ∈ sessionTimes first m.log, born = 1001 := by
  obtain ⟨n₀, n, m, hinit, hstep, hidle, hlate, hlog⟩ := late
  refine ⟨n₀, m, _, hinit,
    .cons hstep ((run_passes hidle 2000 4294967).append (.cons hlate .nil)), ⟨?_, ?_⟩, hlog⟩
  · rintro t ⟨⟩
    show 1000 ≤ 1001 ∧ 1001 ≤ 1000 + 1000
    decide
  · rw [List.map_append]
    refine oncePerSecond_passes_append n 4294966 (show 1001 ≤ 2000 by decide) (by decide) ⟨?_, trivial⟩
    rintro t ⟨⟩
    show 2000 + 1000 * 4294966 ≤ round ∧ round ≤ 2000 + 1000 * 4294966 + 1000
    decide

/-- The clock misjudges nothing within its first three minutes. -/
theorem judged_early {k : Taken (Netdev config) (Event config)}
    (h : ∀ time ∈ k.event.time, time < rejectMillis) : Judged k where
  reaches := by
    intro env data addr port hrx x s haddressed hs hyoung
    have htime : k.event.time = some env.time := by
      revert hrx
      cases k.event with
      | rx env' => intro hrx; cases hrx; rfl
      | _ => intro hrx; cases hrx
    have := h env.time htime
    have := hyoung.1
    omega
  wraps := by
    intro time htime x _ hwrap
    have := h time htime
    have := hwrap.2
    omega

/-- A session starts and a datagram is accepted under it. -/
theorem run_early : ∃ (n₀ m : Netdev config) (ts : List (Taken _ (Event config))),
    InitialAt Crypto.plain 1000 n₀ ∧ Run (step Crypto.plain) n₀ ts m ∧
    ts.map (·.event) = [rxInitiation 1001, rxData 1500 0 (packet 5)] ∧
    .opened first 0 0 true 1500 ∈ m.log := by
  have hrun : (initial.bind fun n₀ =>
      steps (step Crypto.plain) n₀ [rxInitiation 1001, rxData 1500 0 (packet 5)]).any
      (fun r => decide (.opened first 0 0 true 1500 ∈ r.2.log)) = true := by decide +kernel
  obtain ⟨⟨ts, m⟩, hm, h⟩ := (Option.any_eq_true _ _).mp hrun
  obtain ⟨n₀, h₀, hsteps⟩ := Option.bind_eq_some_iff.mp hm
  exact ⟨n₀, m, ts, ⟨_, _, _, _, rfl, h₀⟩, .of_steps hsteps, Run.events_of_steps hsteps,
    of_decide_eq_true h⟩

end Sample

theorem used_within_life_sample :
    ∃ m : Netdev Sample.config, UsedWithinLife m.log ∧
      .opened NuttxWireguard.Sample.first 0 0 true 1500 ∈ m.log := by
  obtain ⟨n₀, m, ts, hinit, hrun, hevents, hopened⟩ := Sample.run_early
  refine ⟨m, used_within_life Crypto.plain hinit hrun ?_ fun k hk => ?_, hopened⟩
  · rw [hevents]
    refine ⟨?_, ?_, trivial⟩
    · rintro t ⟨⟩
      show 1000 ≤ 1001 ∧ 1001 ≤ 2000
      decide
    · rintro t ⟨⟩
      show 1001 ≤ 1500 ∧ 1500 ≤ 2000
      decide
  · have hmem : k.event ∈ [Sample.rxInitiation 1001, Sample.rxData 1500 0 (NuttxWireguard.Sample.packet 5)] :=
      hevents ▸ List.mem_map_of_mem hk
    simp only [List.mem_cons, List.not_mem_nil, or_false] at hmem
    refine Sample.judged_early fun time htime => ?_
    rcases hmem with he | he <;> rw [he] at htime <;> cases htime <;> decide

/-- When the clock has come round, a datagram is accepted under a session 49 days old. -/
theorem not_used_within_life :
    ¬∀ (cfg : Config) (c : Crypto) (start : Nat) (n m : Netdev cfg)
      (ts : List (Taken (Netdev cfg) (Event cfg))), InitialAt c start n → Run (step c) n ts m →
      OncePerSecond start start (ts.map (·.event)) → UsedWithinLife m.log := by
  intro hall
  obtain ⟨n₀, m, ts, hinit, hrun, hpasses, hopened, hborn⟩ := Sample.run_late
  obtain ⟨initiator, key, born, hstart, hlt⟩ :=
    (hall _ _ _ _ _ _ hinit hrun hpasses).accepted hopened
  rw [hborn born (mem_sessionTimes hstart)] at hlt
  exact absurd hlt (by decide)

end NuttxWireguard.Flat
