/-
What the timers forget.

`wg_run_timers` has two rules for an old session.  Past three reject periods everything is
to be forgotten, the learned endpoint included; past one the current keypair is destroyed.
Both look at `curr_keypair` only, and the second comes first in time: with a pass each
second no current keypair is ever old enough for the first.

So a pass neither looks at the two other slots nor moves an endpoint.  It leaves what it
should exactly when it finds it: no old session in the other slots, and the endpoint of
a peer with only old sessions already back (`forgotten_iff_settled`).  A run of an idle
network shows that it need not.
-/
import NuttxWireguard.Flat.Steps
import NuttxWireguard.Roles
import NuttxWireguard.Ages

namespace NuttxWireguard.Flat

open Lib

variable {cfg : Config} (c : Crypto) (env : Env cfg)

/-! ### When sessions started -/

/-- The start of one of peer `x`'s sessions. -/
def startedAt {n : Nat} (x : Fin n) : Obs n → Option Nat
  | .started y _ _ _ time => if y = x then some time else none
  | _ => none

/-- The starts of all of them, newest first. -/
def sessionTimes {n : Nat} (x : Fin n) (log : List (Obs n)) : List Nat :=
  log.filterMap (startedAt x)

theorem sessionTimes_cons_of_none {n : Nat} {x : Fin n} {o : Obs n} {log : List (Obs n)}
    (h : startedAt x o = none) : sessionTimes x (o :: log) = sessionTimes x log :=
  List.filterMap_cons_none h

theorem mem_sessionTimes {n : Nat} {x : Fin n} {sid : Nat} {initiator : Bool} {key : Key}
    {time : Nat} {log : List (Obs n)} (h : .started x sid initiator key time ∈ log) :
    time ∈ sessionTimes x log :=
  List.mem_filterMap.mpr ⟨_, h, if_pos rfl⟩

/-- Peer `x` has had sessions and the newest of them is three reject periods old. -/
def Stale (time : Nat) (log : List (Obs cfg.maxPeers)) (x : Fin cfg.maxPeers) : Prop :=
  sessionTimes x log ≠ [] ∧ ∀ start ∈ sessionTimes x log, start + forgetMillis ≤ time

/-! ### What a pass should leave -/

/-- The endpoint in use is the configured one. -/
def AtConnect (p : Peer cfg) : Prop := p.ip = p.connectIp ∧ p.port = p.connectPort

/-- **What a pass at `time` should leave of a peer.** -/
structure Forgotten (time : Nat) (n : Netdev cfg) (x : Fin cfg.maxPeers) : Prop where
  /-- No session is three reject periods old. -/
  young : ∀ s, ((n.peer x).keypair s).valid = true →
    time < ((n.peer x).keypair s).born + forgetMillis
  /-- If the newest one would be, nothing of them is left and the endpoint is back. -/
  stale : Stale time n.log x →
    (n.peer x).keypair = (fun _ => Keypair.zero) ∧ AtConnect (n.peer x)

/-- **When it does**: what it does not look at is in order already. -/
structure Settled (time : Nat) (n : Netdev cfg) (x : Fin cfg.maxPeers) : Prop where
  young : ∀ s, s ≠ .curr → ((n.peer x).keypair s).valid = true →
    time < ((n.peer x).keypair s).born + forgetMillis
  stale : Stale time n.log x → AtConnect (n.peer x)

/-! ### One turn of the loop -/

/-- A turn for peer `x` may replace its current keypair, by one as old, and nothing else. -/
structure Turn (x : Fin cfg.maxPeers) (v w : View cfg) : Prop where
  others : ∀ y, y ≠ x → w.peers y = v.peers y
  own : ∃ kp, w.peers x = { v.peers x with slots := (v.peers x).slots.put .curr kp } ∧
    (kp.valid = true → ((v.peers x).slots .curr).valid = true ∧
      kp.keypairMillis = ((v.peers x).slots .curr).keypairMillis)
  times : ∀ y, sessionTimes y w.log = sessionTimes y v.log

namespace Turn

variable {x : Fin cfg.maxPeers} {u v w : View cfg}

theorem refl (v : View cfg) : Turn x v v :=
  ⟨fun _ _ => rfl, ⟨_, by rw [Slots.put_slot], fun h => ⟨h, rfl⟩⟩, fun _ => rfl⟩

theorem trans (h : Turn x u v) (h' : Turn x v w) : Turn x u w := by
  obtain ⟨kp, hv, hkp⟩ := h.own
  obtain ⟨kp', hw, hkp'⟩ := h'.own
  have hcurr : (v.peers x).slots .curr = kp := by
    rw [hv]
    exact Slots.put_self (u.peers x).slots .curr kp
  refine ⟨fun y hy => (h'.others y hy).trans (h.others y hy), ⟨kp', ?_, fun hvalid => ?_⟩,
    fun y => (h'.times y).trans (h.times y)⟩
  · rw [hw, hv]
    simp only [Slots.put_put]
  · obtain ⟨hc, hm⟩ := hkp' hvalid
    rw [hcurr] at hc hm
    exact ⟨(hkp hc).1, hm.trans (hkp hc).2⟩

theorem setPeer (v : View cfg) {kp : Keypair cfg} (h : kp.valid = true →
    ((v.peers x).slots .curr).valid = true ∧
      kp.keypairMillis = ((v.peers x).slots .curr).keypairMillis) :
    Turn x v (v.setPeer x { v.peers x with slots := (v.peers x).slots.put .curr kp }) :=
  ⟨fun _ hy => View.setPeer_peers_of_ne _ _ hy, ⟨kp, View.setPeer_peers_self _ _ _, h⟩,
    fun _ => rfl⟩

theorem drop (v : View cfg) : Turn x v
    (v.setPeer x { v.peers x with slots := (v.peers x).slots.put .curr Keypair.zero }) :=
  setPeer v fun h => nomatch h

theorem observe (v : View cfg) {o : Obs cfg.maxPeers} (h : ∀ y, startedAt y o = none) :
    Turn x v (v.observe o) :=
  ⟨fun _ _ => rfl, (refl v).own, fun y => sessionTimes_cons_of_none (h y)⟩

end Turn

/-! ### The loop -/

/-- What a run keeps of a driver whose timers pass at least once a second: `pass` is the
last pass and `clock` the latest step. -/
structure Healthy (valid : Fin cfg.maxPeers → Bool) (pass clock : Nat) (v : View cfg) : Prop where
  numbered : v.Numbered
  clean : v.Clean
  roles : v.Each Role
  young : v.Each (Young valid pass clock)
  peers : ∀ x, (v.peers x).valid = valid x

namespace Healthy

variable {valid : Fin cfg.maxPeers → Bool} {pass clock : Nat} {v w : View cfg}

/-- Nothing that happens within a second of a pass hurts. -/
theorem micro (hle : pass ≤ clock) (hlt : clock ≤ pass + 1000) (h : Micro clock v w)
    (hv : Healthy valid pass clock v) : Healthy valid pass clock w where
  numbered := h.numbered hv.numbered
  clean := h.clean hv.clean
  roles := h.each_keypair (role_invariant clock) hv.numbered hv.roles
  young := h.each_keypair (young_invariant hle hlt) hv.numbered hv.young
  peers := fun x => (h.configured x).1.trans (hv.peers x)

theorem path (hle : pass ≤ clock) (hlt : clock ≤ pass + 1000) (h : Path clock v w)
    (hv : Healthy valid pass clock v) : Healthy valid pass clock w :=
  h.invariant (I := Healthy valid pass clock) (fun _ _ => micro hle hlt) hv

theorem later (hv : Healthy valid pass clock v) {clock' : Nat} (hle : clock ≤ clock') :
    Healthy valid pass clock' v :=
  { hv with young := fun x s hfull => (hv.young x s hfull).later hle }

/-- A driver sends on `curr` or not at all. -/
theorem sendingSlot_curr (hv : Healthy valid pass clock v) (x : Fin cfg.maxPeers) :
    sendingSlot (v.peers x).slots = .curr :=
  sendingSlot_eq_curr fun hvalid => (hv.roles x .curr hvalid).curr rfl

/-- **The rule for three reject periods never applies.** -/
theorem not_expired (hle : pass ≤ clock) (hlt : clock ≤ pass + 1000)
    (hv : Healthy valid pass clock v) {x : Fin cfg.maxPeers} (hx : valid x = true)
    (hcurr : ((v.peers x).slots .curr).valid = true) :
    expired (sysNow clock) ((v.peers x).slots .curr).keypairMillis (rejectAfterTime * 3)
      = false := by
  have hy := hv.young x .curr hcurr
  have hold := hy.curr hx rfl
  have hborn := hy.born
  unfold rejectMillis at hold
  by_contra hexp
  rw [Bool.not_eq_false, hy.millis] at hexp
  have hage := le_of_expired hborn (by omega) hexp
  rw [forgetAfterTime_millis] at hage
  unfold forgetMillis at hage
  omega

/-- A keypair that is not past one reject period is not. -/
theorem le_reject (hle : pass ≤ clock) (hlt : clock ≤ pass + 1000)
    (hv : Healthy valid pass clock v) {x : Fin cfg.maxPeers} (hx : valid x = true)
    (hcurr : ((v.peers x).slots .curr).valid = true)
    (hexp : expired (sysNow clock) ((v.peers x).slots .curr).keypairMillis rejectAfterTime
      = false) : clock ≤ ((v.peers x).slots .curr).born + rejectMillis := by
  have hy := hv.young x .curr hcurr
  have hold := hy.curr hx rfl
  have hborn := hy.born
  unfold rejectMillis at hold
  rw [hy.millis] at hexp
  have hage := le_of_not_expired hborn (by omega) hexp
  rw [rejectAfterTime_millis] at hage
  omega

end Healthy

/-- The two rules where the first does not apply. -/
theorem wgExpirePeer_turn {n : Netdev cfg} {x : Fin cfg.maxPeers}
    (h : (n.peer x).currKeypair.valid = true →
      expired env.now (n.peer x).currKeypair.keypairMillis (rejectAfterTime * 3) = false) :
    Turn x n.view (n.setPeer x (wgExpirePeer env.now (n.peer x))).view ∧
      ((wgExpirePeer env.now (n.peer x)).currKeypair.valid = true →
        expired env.now (wgExpirePeer env.now (n.peer x)).currKeypair.keypairMillis rejectAfterTime
          = false) := by
  have hdead : ¬((n.peer x).currKeypair.valid = true ∧
      expired env.now (n.peer x).currKeypair.keypairMillis (rejectAfterTime * 3) = true) := by
    rintro ⟨hvalid, hexp⟩
    rw [h hvalid] at hexp
    cases hexp
  unfold wgExpirePeer
  dsimp only
  rw [if_neg hdead]
  split
  · rw [view_setPeer, keypairDestroy_view]
    exact ⟨Turn.drop n.view, fun h => nomatch h⟩
  · rename_i hkeep
    rw [setPeer_self]
    refine ⟨.refl _, fun hvalid => ?_⟩
    by_contra hexp
    exact hkeep ⟨hvalid, Or.inl (by simpa using hexp)⟩

theorem wgSendKeepalive_turn {n : Netdev cfg} {x : Fin cfg.maxPeers}
    (h : sendingSlot (n.peer x).keypair = .curr) :
    Turn x n.view (wgSendKeepalive c env n x).view := by
  unfold wgSendKeepalive
  rcases wgEncryptAndSend_cases c env n x [] with hr | ⟨-, -, hr⟩ | ⟨husable, -, p, tx, hp, hr⟩
  · rw [hr]
    exact .refl _
  · rw [hr, view_setPeer, keypairDestroy_view, h]
    exact Turn.drop n.view
  · rw [hr, view_setPeer, hp, psockSendto_view, view_observe]
    rw [h] at husable ⊢
    generalize hseen : n.view.observe _ = v
    have hobserve : Turn x n.view v := hseen ▸ Turn.observe n.view fun _ => rfl
    have hpeer : (n.peer x).view = v.peers x := by rw [← hseen]; rfl
    have hslots : (n.peer x).keypair = (v.peers x).slots := congrArg PeerView.slots hpeer
    refine hobserve.trans ?_
    rw [hpeer, hslots]
    exact Turn.setPeer v fun hvalid => ⟨hvalid, rfl⟩

theorem wgStartHandshake_turn {n n' : Netdev cfg} {x : Fin cfg.maxPeers}
    (h : wgStartHandshake c env n x = some n') : Turn x n.view n'.view := by
  rcases wgStartHandshake_view c env h with hv | hv
  · rw [hv]
    exact .refl _
  · rw [hv]
    exact .observe _ fun _ => rfl

/-- **What one turn does**: it replaces the current keypair, and what it leaves there is
within its reject period. -/
theorem wgRunTimersPeer_turn {valid : Fin cfg.maxPeers → Bool} {pass : Nat} {n n' : Netdev cfg}
    {x : Fin cfg.maxPeers} (hle : pass ≤ env.time) (hlt : env.time ≤ pass + 1000)
    (hn : Healthy valid pass env.time n.view) (h : wgRunTimersPeer c env n x = some n') :
    Turn x n.view n'.view ∧ (valid x = true → (n'.peer x).currKeypair.valid = true →
      expired env.now (n'.peer x).currKeypair.keypairMillis rejectAfterTime = false) := by
  unfold wgRunTimersPeer at h
  have hvalid : (n.peer x).valid = valid x := hn.peers x
  split at h
  · rename_i hx
    cases h
    exact ⟨.refl _, fun hc => absurd (hvalid.trans hc) hx⟩
  · rename_i hx
    dsimp only at h
    rw [hvalid, not_not] at hx
    obtain ⟨hexpire, hfresh⟩ := wgExpirePeer_turn env (n := n) (x := x)
      (hn.not_expired hle hlt hx)
    have hm := hn.path hle hlt (wgExpirePeer_path env n x)
    rw [← setPeer_peer_self n x (wgExpirePeer env.now (n.peer x))] at hfresh
    generalize n.setPeer x (wgExpirePeer env.now (n.peer x)) = m at h hexpire hfresh hm
    -- the keepalive and the handshake keep the keypair, or destroy it
    have hrest : Turn x m.view n'.view := by
      have hkeep : Turn x m.view
          (if keepaliveDue env.now (m.peer x) then wgSendKeepalive c env m x else m).view := by
        split
        · exact wgSendKeepalive_turn c env (hm.sendingSlot_curr x)
        · exact .refl _
      refine hkeep.trans ?_
      generalize (if keepaliveDue env.now (m.peer x) then wgSendKeepalive c env m x else m) = m'
        at h ⊢
      split at h
      · exact wgStartHandshake_turn c env h
      · cases h
        exact .refl _
    refine ⟨hexpire.trans hrest, fun _ hcurr => ?_⟩
    obtain ⟨kp, hown, hkp⟩ := hrest.own
    have hslot : (n'.peer x).currKeypair = kp := by
      show (n'.view.peers x).slots .curr = kp
      rw [hown]
      exact Slots.put_self (m.view.peers x).slots .curr kp
    rw [hslot] at hcurr ⊢
    obtain ⟨hc, hmillis⟩ := hkp hcurr
    rw [hmillis]
    exact hfresh hc

/-- What a pass of the timers does to the device. -/
structure Passed (valid : Fin cfg.maxPeers → Bool) (n n' : Netdev cfg) : Prop where
  own : ∀ x, ∃ kp, (n'.peer x).view
    = { (n.peer x).view with slots := (n.peer x).keypair.put .curr kp }
  times : ∀ x, sessionTimes x n'.log = sessionTimes x n.log
  fresh : ∀ x, valid x = true → (n'.peer x).currKeypair.valid = true →
    expired env.now (n'.peer x).currKeypair.keypairMillis rejectAfterTime = false

theorem wgRunTimers_passed {valid : Fin cfg.maxPeers → Bool} {pass : Nat} {n n' : Netdev cfg}
    (hle : pass ≤ env.time) (hlt : env.time ≤ pass + 1000)
    (hn : Healthy valid pass env.time n.view) (h : wgRunTimers c env n = some n') :
    Passed env valid n n' := by
  have hturn : ∀ x (a b : Netdev cfg), wgRunTimersPeer c env a x = some b →
      Healthy valid pass env.time a.view → Healthy valid pass env.time b.view :=
    fun x a b hs ha => ha.path hle hlt (wgRunTimersPeer_path c env hs)
  have hkept := foldlM_invariant (I := fun m : Netdev cfg => Healthy valid pass env.time m.view ∧
    (∀ x, ∃ kp, (m.peer x).view = { (n.peer x).view with slots := (n.peer x).keypair.put .curr kp }) ∧
    ∀ x, sessionTimes x m.log = sessionTimes x n.log) _ h (fun x _ a b hs ha => ?_)
    ⟨hn, fun x => ⟨(n.peer x).currKeypair, ?_⟩, fun _ => rfl⟩
  · have hsettled := foldlM_settles
      (Q := fun _ (m : Netdev cfg) => Healthy valid pass env.time m.view)
      (P := fun x (m : Netdev cfg) => Healthy valid pass env.time m.view ∧
        (valid x = true → (m.peer x).currKeypair.valid = true →
          expired env.now (m.peer x).currKeypair.keypairMillis rejectAfterTime = false))
      (fun x a b hs ha => ⟨hturn x a b hs ha, (wgRunTimersPeer_turn c env hle hlt ha hs).2⟩)
      (fun x y a b hxy hs ha => ?_)
      (fun _ y a b _ hs ha => hturn y a b hs ha)
      (List.finRange cfg.maxPeers) (List.nodup_finRange _) h (fun _ _ => hn)
    · exact ⟨hkept.2.1, hkept.2.2, fun x => (hsettled x (List.mem_finRange x)).2⟩
    · -- another peer's turn leaves this one's keypair
      have hother := (wgRunTimersPeer_turn c env hle hlt ha.1 hs).1.others x hxy
      have hcurr : (b.peer x).currKeypair = (a.peer x).currKeypair :=
        congrFun (congrArg PeerView.slots hother) .curr
      exact ⟨hturn y a b hs ha.1, by rw [hcurr]; exact ha.2⟩
  · obtain ⟨ha, hown, htimes⟩ := ha
    have ht := (wgRunTimersPeer_turn c env hle hlt ha hs).1
    refine ⟨hturn x a b hs ha, fun y => ?_, fun y => (ht.times y).trans (htimes y)⟩
    obtain ⟨kp, hy⟩ := hown y
    by_cases hxy : y = x
    · subst hxy
      obtain ⟨kp', hown', -⟩ := ht.own
      refine ⟨kp', ?_⟩
      show b.view.peers y = _
      rw [hown']
      show { (a.peer y).view with slots := (a.peer y).view.slots.put .curr kp' } = _
      rw [hy]
      simp only [Slots.put_put]
    · exact ⟨kp, (ht.others y hxy).trans hy⟩
  · exact (congrArg (fun σ => ({ (n.peer x).view with slots := σ } : PeerView cfg))
      (Slots.put_slot (n.peer x).view.slots .curr)).symm

/-! ### Runs -/

/-- **A pass leaves what it should exactly if it finds it.** -/
theorem Passed.forgotten_iff {valid : Fin cfg.maxPeers → Bool} {pass : Nat} {n n' : Netdev cfg}
    (hle : pass ≤ env.time) (hlt : env.time ≤ pass + 1000) (h : Passed env valid n n')
    (hn' : Healthy valid pass env.time n'.view) {x : Fin cfg.maxPeers} (hx : valid x = true) :
    Forgotten env.time n' x ↔ Settled env.time n x := by
  obtain ⟨kp, hown⟩ := h.own x
  have hslot : ∀ s, s ≠ .curr → (n'.peer x).keypair s = (n.peer x).keypair s := by
    intro s hs
    have hslots := congrFun (congrArg PeerView.slots hown) s
    exact hslots.trans (Slots.put_of_ne hs)
  have hstale : Stale env.time n'.log x ↔ Stale env.time n.log x := by
    unfold Stale
    rw [h.times x]
  have hat : AtConnect (n'.peer x) ↔ AtConnect (n.peer x) := by
    have hip : (n'.peer x).ip = (n.peer x).ip := congrArg PeerView.ip hown
    have hport : (n'.peer x).port = (n.peer x).port := congrArg PeerView.port hown
    have hcip : (n'.peer x).connectIp = (n.peer x).connectIp := congrArg PeerView.connectIp hown
    have hcport : (n'.peer x).connectPort = (n.peer x).connectPort :=
      congrArg PeerView.connectPort hown
    unfold AtConnect
    rw [hip, hport, hcip, hcport]
  constructor
  · intro hf
    refine ⟨fun s hs hvalid => ?_, fun hs => hat.mp (hf.stale (hstale.mpr hs)).2⟩
    rw [← hslot s hs] at hvalid ⊢
    exact hf.young s hvalid
  · intro hset
    have hyoung : ∀ s, ((n'.peer x).keypair s).valid = true →
        env.time < ((n'.peer x).keypair s).born + forgetMillis := by
      intro s hvalid
      by_cases hs : s = .curr
      · subst hs
        have hold := hn'.le_reject hle hlt hx hvalid (h.fresh x hx hvalid)
        have hreject : rejectMillis < forgetMillis := by decide
        exact Nat.lt_of_le_of_lt hold (Nat.add_lt_add_left hreject _)
      · rw [hslot s hs] at hvalid ⊢
        exact hset.young s hs hvalid
    refine ⟨hyoung, fun hs => ⟨?_, hat.mpr (hset.stale (hstale.mp hs))⟩⟩
    -- a keypair that is left would be the newest session or an older one
    funext s
    refine hn'.clean x s (Bool.eq_false_iff.mpr fun hvalid => ?_)
    have hstart := hs.2 _ (mem_sessionTimes (hn'.young x s hvalid).started)
    exact absurd (hyoung s hvalid) (Nat.not_lt.mpr hstart)

/-- The timers pass at least once a second and the clock does not go back; `pass` is the
last pass and `clock` the latest event. -/
def OncePerSecond : (pass clock : Nat) → List (Event cfg) → Prop
  | _, _, [] => True
  | pass, clock, .timers env :: events =>
    clock ≤ env.time ∧ env.time ≤ pass + 1000 ∧ OncePerSecond env.time env.time events
  | pass, clock, e :: events =>
    (∀ t ∈ e.time, clock ≤ t ∧ t ≤ pass + 1000) ∧
      OncePerSecond pass (e.time.getD clock) events

/-- `P` holds of every peer at every pass of the timers. -/
def AtPasses (P : Nat → Taken (Netdev cfg) (Event cfg) → Fin cfg.maxPeers → Prop)
    (ts : List (Taken (Netdev cfg) (Event cfg))) : Prop :=
  ∀ k ∈ ts, ∀ env, k.event = .timers env → ∀ x, (k.before.peer x).valid = true → P env.time k x

theorem atPasses_cons {P : Nat → Taken (Netdev cfg) (Event cfg) → Fin cfg.maxPeers → Prop}
    {k : Taken (Netdev cfg) (Event cfg)} {ts : List (Taken (Netdev cfg) (Event cfg))} :
    AtPasses P (k :: ts) ↔ AtPasses P [k] ∧ AtPasses P ts := by
  simp [AtPasses]

/-- One step that is not a pass. -/
theorem Healthy.of_step {valid : Fin cfg.maxPeers → Bool} {pass clock : Nat} {n n' : Netdev cfg}
    {e : Event cfg} (hle : pass ≤ clock) (hlt : clock ≤ pass + 1000)
    (hn : Healthy valid pass clock n.view) (ht : ∀ t ∈ e.time, clock ≤ t ∧ t ≤ pass + 1000)
    (h : step c n e = some n') :
    Healthy valid pass (e.time.getD clock) n'.view ∧ pass ≤ e.time.getD clock ∧
      e.time.getD clock ≤ pass + 1000 := by
  have hnow : clock ≤ e.time.getD clock ∧ e.time.getD clock ≤ pass + 1000 := by
    cases he : e.time with
    | none => exact ⟨Nat.le_refl _, hlt⟩
    | some t => exact ht t he
  have hpath : Path (e.time.getD clock) n.view n'.view :=
    step_path c (fun t ht => by rw [Option.mem_def.mp ht]; rfl) h
  exact ⟨(hn.later hnow.1).path (hle.trans hnow.1) hnow.2 hpath, hle.trans hnow.1, hnow.2⟩

theorem Healthy.atPasses_iff {valid : Fin cfg.maxPeers → Bool} {pass clock : Nat}
    {n m : Netdev cfg} {ts : List (Taken (Netdev cfg) (Event cfg))} (hle : pass ≤ clock)
    (hlt : clock ≤ pass + 1000) (hn : Healthy valid pass clock n.view)
    (hrun : Run (step c) n ts m) (hpasses : OncePerSecond pass clock (ts.map (·.event))) :
    AtPasses (fun time k => Forgotten time k.after) ts ↔
      AtPasses (fun time k => Settled time k.before) ts := by
  induction ts generalizing pass clock n with
  | nil => simp [AtPasses]
  | cons k ts ih =>
      obtain ⟨rfl, hstep, hrest⟩ := hrun.uncons
      obtain ⟨n, e, n'⟩ := k
      rw [atPasses_cons, @atPasses_cons _ _ _ ts]
      by_cases htimers : ∃ env, e = .timers env
      · obtain ⟨env, rfl⟩ := htimers
        obtain ⟨hclock, hsecond, hpasses⟩ := hpasses
        have hpass : pass ≤ env.time := hle.trans hclock
        have hn := hn.later hclock
        have hpassed := wgRunTimers_passed c env hpass hsecond hn hstep
        have hn' := hn.path hpass hsecond (wgRunTimers_path c env hstep)
        have hpeer : ∀ x, (n.peer x).valid = valid x := hn.peers
        have hiff : AtPasses (fun time k => Forgotten time k.after) [⟨n, .timers env, n'⟩] ↔
            AtPasses (fun time k => Settled time k.before) [⟨n, .timers env, n'⟩] := by
          simp only [AtPasses, List.mem_singleton, forall_eq, Event.timers.injEq, forall_eq', hpeer]
          exact forall₂_congr fun x hx => hpassed.forgotten_iff env hpass hsecond hn' hx
        -- a pass that leaves what it should starts the next second
        rw [← hiff]
        refine and_congr_right fun hforgotten => ?_
        refine ih (Nat.le_refl _) (Nat.le_add_right _ _) ?_ hrest hpasses
        have hf : ∀ x, valid x = true → Forgotten env.time n' x := fun x hx =>
          hforgotten _ List.mem_cons_self env rfl x ((hpeer x).trans hx)
        have hyoung : n'.view.Each (Young valid env.time env.time) := by
          intro x s hfull
          refine (hn'.young x s hfull).pass (fun hx => (hf x hx).young s hfull) fun hx hs => ?_
          subst hs
          exact hn'.le_reject hpass hsecond hx hfull (hpassed.fresh x hx hfull)
        exact { hn' with young := hyoung }
      · have hpasses' : (∀ t ∈ e.time, clock ≤ t ∧ t ≤ pass + 1000) ∧
            OncePerSecond pass (e.time.getD clock) (ts.map (·.event)) := by
          cases e with
          | timers env => exact absurd ⟨env, rfl⟩ htimers
          | _ => exact hpasses
        obtain ⟨hn', hle', hlt'⟩ := hn.of_step c hle hlt hpasses'.1 hstep
        have hnone : ∀ P : Nat → Taken (Netdev cfg) (Event cfg) → Fin cfg.maxPeers → Prop,
            AtPasses P [⟨n, e, n'⟩] := by
          intro P k hk env he
          rw [List.mem_singleton.mp hk] at he
          exact absurd ⟨env, he⟩ htimers
        rw [and_iff_right (hnone _), and_iff_right (hnone _)]
        exact ih hle' hlt' hn' hrest hpasses'.2

/-- `wg_initialize` at time `start`. -/
def InitialAt (start : Nat) (n : Netdev cfg) : Prop :=
  ∃ env probe privateKey peers, env.time = start ∧
    wgInitialize c env probe privateKey peers = some n

/-- **The timers forget what they should exactly in the runs that leave them nothing to
forget but the current keypair.** -/
theorem forgotten_iff_settled {start : Nat} {n m : Netdev cfg}
    {ts : List (Taken (Netdev cfg) (Event cfg))} (hinit : InitialAt c start n)
    (hrun : Run (step c) n ts m) (hpasses : OncePerSecond start start (ts.map (·.event))) :
    AtPasses (fun time k => Forgotten time k.after) ts ↔
      AtPasses (fun time k => Settled time k.before) ts := by
  obtain ⟨env, probe, key, peers, rfl, hinit⟩ := hinit
  have hfresh : n.view.Fresh := Initial.fresh c ⟨env, probe, key, peers, hinit⟩
  have hn : Healthy (fun x => (n.peer x).valid) env.time env.time n.view :=
    ⟨.fresh hfresh, hfresh.clean, hfresh.each, hfresh.each, fun _ => rfl⟩
  exact hn.atPasses_iff c (Nat.le_refl _) (Nat.le_add_right _ _) hrun hpasses

/-! ### An idle network -/

/-- Nothing is due for a peer. -/
def idle (p : Peer cfg) : Bool :=
  !p.currKeypair.valid && !p.active && !p.sendHandshake && decide (p.keepaliveInterval = 0)

/-- A pass over idle peers does nothing. -/
theorem wgRunTimers_idle {n : Netdev cfg} (h : ∀ x, idle (n.peer x) = true) :
    wgRunTimers c env n = some n := by
  have hturn : ∀ x, wgRunTimersPeer c env n x = some n := by
    intro x
    have hidle := h x
    unfold idle at hidle
    simp only [Bool.and_eq_true, Bool.not_eq_true', decide_eq_true_eq] at hidle
    obtain ⟨⟨⟨hcurr, hactive⟩, hsend⟩, hkeep⟩ := hidle
    have hexpire : wgExpirePeer env.now (n.peer x) = n.peer x := by
      simp [wgExpirePeer, hcurr]
    have hdue : keepaliveDue env.now (n.peer x) = false := by
      simp [keepaliveDue, hkeep]
    have hinitiate : shouldInitiate env.now (n.peer x) = false := by
      simp [shouldInitiate, hcurr, hactive, hsend]
    unfold wgRunTimersPeer
    dsimp only
    rw [hexpire, setPeer_self]
    simp [hdue, hinitiate]
  unfold wgRunTimers
  induction List.finRange cfg.maxPeers with
  | nil => rfl
  | cons x l ih => rw [List.foldlM_cons, hturn x]; exact ih

namespace Sample

open NuttxWireguard.Sample

/-- `count` passes of the timers over the same state, a second apart. -/
def passes (n : Netdev config) : (time count : Nat) → List (Taken (Netdev config) (Event config))
  | _, 0 => []
  | time, count + 1 => ⟨n, .timers (Sample.env time), n⟩ :: passes n (time + 1000) count

theorem run_passes {n : Netdev config} (h : ∀ x, idle (n.peer x) = true) (time count : Nat) :
    Run (step Crypto.plain) n (passes n time count) n := by
  induction count generalizing time with
  | zero => exact .nil
  | succ count ih => exact .cons (wgRunTimers_idle Crypto.plain _ h) (ih (time + 1000))

theorem oncePerSecond_passes (n : Netdev config) {pass clock time : Nat} (count : Nat)
    (hclock : clock ≤ time) (hpass : time ≤ pass + 1000) :
    OncePerSecond pass clock ((passes n time count).map (·.event)) := by
  induction count generalizing pass clock time with
  | zero => trivial
  | succ count ih => exact ⟨hclock, hpass, ih (Nat.le_add_right _ _) (Nat.le_refl _)⟩

theorem mem_passes (n : Netdev config) {i count : Nat} (h : i < count) (time : Nat) :
    ⟨n, .timers (Sample.env (time + 1000 * i)), n⟩ ∈ passes n time count := by
  induction count generalizing i time with
  | zero => omega
  | succ count ih =>
      cases i with
      | zero => exact List.mem_cons_self
      | succ i =>
          refine List.mem_cons_of_mem _ ?_
          have hmem := ih (Nat.lt_of_succ_lt_succ h) (time + 1000)
          rwa [Nat.add_assoc, show 1000 + 1000 * i = 1000 * (i + 1) from by omega] at hmem

/-- The first peer's handshake ends in a session it never uses; every peer stays idle. -/
theorem waiting : ∃ (n₀ n : Netdev config), InitialAt Crypto.plain 1000 n₀ ∧
    step Crypto.plain n₀ (rxInitiation 1001) = some n ∧ (∀ x, idle (n.peer x) = true) ∧
    (n.peer first).valid = true ∧ (n.peer first).nextKeypair.valid = true ∧
    (n.peer first).nextKeypair.born = 1001 := by
  have hrun : (initial.bind fun n₀ => (step Crypto.plain n₀ (rxInitiation 1001))).any
      (fun n => (List.finRange config.maxPeers).all (fun x => idle (n.peer x)) &&
        (n.peer first).valid && (n.peer first).nextKeypair.valid &&
        decide ((n.peer first).nextKeypair.born = 1001)) = true := by decide +kernel
  obtain ⟨n, hn, h⟩ := (Option.any_eq_true _ _).mp hrun
  obtain ⟨n₀, h₀, hstep⟩ := Option.bind_eq_some_iff.mp hn
  simp only [Bool.and_eq_true, List.all_eq_true, decide_eq_true_eq] at h
  exact ⟨n₀, n, ⟨_, _, _, _, rfl, h₀⟩, hstep, fun x => h.1.1.1 x (List.mem_finRange x), h.1.1.2,
    h.1.2, h.2⟩

/-- The idle network, after `count` passes of its timers. -/
theorem run_waiting (count : Nat) : ∃ (n₀ n : Netdev config) (ts : List (Taken _ (Event config))),
    InitialAt Crypto.plain 1000 n₀ ∧ Run (step Crypto.plain) n₀ ts n ∧
      OncePerSecond 1000 1000 (ts.map (·.event)) ∧ (∀ k ∈ passes n 2000 count, k ∈ ts) ∧
      (n.peer first).valid = true ∧ (n.peer first).nextKeypair.valid = true ∧
      (n.peer first).nextKeypair.born = 1001 := by
  obtain ⟨n₀, n, hinit, hstep, hidle, hfirst⟩ := waiting
  refine ⟨n₀, n, _, hinit, .cons hstep (run_passes hidle 2000 count), ⟨?_, ?_⟩,
    fun _ hk => List.mem_cons_of_mem _ hk, hfirst⟩
  · rintro t ⟨⟩
    show 1000 ≤ 1001 ∧ 1001 ≤ 1000 + 1000
    decide
  · exact oncePerSecond_passes n count (show 1001 ≤ 2000 by decide) (by decide)

end Sample

theorem forgotten_iff_settled_sample :
    ∃ ts : List (Taken (Netdev Sample.config) (Event Sample.config)), ts ≠ [] ∧
      (AtPasses (fun time k => Forgotten time k.after) ts ↔
        AtPasses (fun time k => Settled time k.before) ts) := by
  obtain ⟨n₀, n, ts, hinit, hrun, hpasses, hmem, -⟩ := Sample.run_waiting 1
  refine ⟨ts, ?_, forgotten_iff_settled Crypto.plain hinit hrun hpasses⟩
  exact List.ne_nil_of_mem (hmem _ List.mem_cons_self)

/-- Nine minutes later the session is still in `next`. -/
theorem not_forgotten_waiting :
    ¬∀ (cfg : Config) (c : Crypto) (start : Nat) (n m : Netdev cfg)
      (ts : List (Taken (Netdev cfg) (Event cfg))), InitialAt c start n → Run (step c) n ts m →
      OncePerSecond start start (ts.map (·.event)) →
      AtPasses (fun time k => Forgotten time k.after) ts := by
  intro hall
  obtain ⟨n₀, n, ts, hinit, hrun, hpasses, hmem, hvalid, hnext, hborn⟩ := Sample.run_waiting 541
  have hlast := hmem _ (Sample.mem_passes n (i := 540) (by decide) 2000)
  have hyoung := (hall _ _ _ _ _ _ hinit hrun hpasses _ hlast _ rfl Sample.first hvalid).young
    .next hnext
  have hage : (Sample.env (2000 + 1000 * 540)).time < 1001 + forgetMillis := hborn ▸ hyoung
  exact absurd hage (by decide)

end NuttxWireguard.Flat
