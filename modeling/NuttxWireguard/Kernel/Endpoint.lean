/-
Pointing a peer somewhere else.

A peer has two endpoints, the configured one and the live one messages go to.  The live
one follows the source of authenticated datagrams and falls back to the configured one when
the interface comes up or goes down, when a private key is set, and in the timer once a
current session is 540 s old.

A request for a peer with a current session changes the configured endpoint only.  The
timer destroys that session at 180 s, after which its own rule for 540 s has nothing to
look at, so the live endpoint stays where it was.
-/
import NuttxWireguard.Kernel.Steps
import NuttxWireguard.Lookup

namespace NuttxWireguard

open Lib

variable {cfg : Config}

/-! ### Endpoints -/

/-- The endpoint messages go to. -/
def PeerView.live (p : PeerView cfg) : U32 × U16 := (p.ip, p.port)

/-- The endpoint it was configured with. -/
def PeerView.configured (p : PeerView cfg) : U32 × U16 := (p.connectIp, p.connectPort)

/-- What a step may do to the live endpoint of a peer it accepts nothing from: leave it or
reset it.  An initiation goes to the one the step found. -/
theorem Micro.live {time : Nat} {v w : View cfg} (h : Micro time v w) (x : Fin cfg.maxPeers) :
    ∃ new, w.log = new ++ v.log ∧
      ((∀ o ∈ new, o.authenticatedFrom ≠ some x) →
        (w.peers x).live = (v.peers x).live ∨ (w.peers x).live = (v.peers x).configured) ∧
      ∀ ip port t, .initiation x ip port t ∈ new → (ip, port) = (v.peers x).live := by
  have hset : ∀ {u : View cfg} {y : Fin cfg.maxPeers} {p : PeerView cfg},
      (y = x → p.live = (u.peers y).live) → ((u.setPeer y p).peers x).live = (u.peers x).live := by
    intro u y p hp
    rw [View.setPeer_peers]
    split
    · rename_i hy
      rw [hy]
      exact hp hy.symm
    · rfl
  cases h with
  | drop y s => exact ⟨[], rfl, fun _ => Or.inl (hset fun _ => rfl), by simp⟩
  | encrypt y kp lastTx => exact ⟨[_], rfl, fun _ => Or.inl (hset fun _ => rfl), by simp⟩
  | refuse y s kp counter => exact ⟨[_], rfl, fun _ => Or.inl rfl, by simp⟩
  | accept y s kp counter ip port =>
      exact ⟨[_], rfl, fun hquiet => Or.inl (hset fun hy =>
        absurd (congrArg some hy) (hquiet _ (List.mem_singleton_self _))), by simp⟩
  | start y kp hnew => exact ⟨[_], rfl, fun _ => Or.inl (hset fun _ => rfl), by simp⟩
  | initiation y =>
      refine ⟨[_], rfl, fun _ => Or.inl rfl, fun ip port t hmem => ?_⟩
      cases List.mem_singleton.mp hmem
      rfl
  | acceptInit y timestamp ip port =>
      exact ⟨[_], rfl, fun hquiet => Or.inl (hset fun hy =>
        absurd (congrArg some hy) (hquiet _ (List.mem_singleton_self _))), by simp⟩
  | acceptResponse y ip port =>
      exact ⟨[_], rfl, fun hquiet => Or.inl (hset fun hy =>
        absurd (congrArg some hy) (hquiet _ (List.mem_singleton_self _))), by simp⟩
  | acceptCookie y => exact ⟨[_], rfl, fun _ => Or.inl rfl, by simp⟩
  | resetEndpoint y =>
      refine ⟨[], rfl, fun _ => ?_, by simp⟩
      by_cases hy : x = y
      · subst hy
        rw [View.setPeer_peers_self]
        exact Or.inr rfl
      · rw [View.setPeer_peers_of_ne _ _ hy]
        exact Or.inl rfl
  | inject y packet => exact ⟨[_], rfl, fun _ => Or.inl rfl, by simp⟩

/-- Peer `x` is there, configured at `E`.  If nothing authenticated from it was accepted since
the log was `base`, it is live at `E` too, and no initiation to it went elsewhere. -/
structure Steered (x : Fin cfg.maxPeers) (E : U32 × U16) (base : List (Obs cfg.maxPeers))
    (v : View cfg) : Prop where
  valid : (v.peers x).valid = true
  configured : (v.peers x).configured = E
  log : ∃ l, v.log = l ++ base ∧ ((∀ o ∈ l, o.authenticatedFrom ≠ some x) →
    (v.peers x).live = E ∧ ∀ ip port time, .initiation x ip port time ∈ l → (ip, port) = E)

namespace Steered

variable {x : Fin cfg.maxPeers} {E : U32 × U16} {base : List (Obs cfg.maxPeers)}
  {v w : View cfg}

theorem later (h : Steered x E base v) {new : List (Obs cfg.maxPeers)}
    (hlog : w.log = new ++ v.log) (hvalid : (w.peers x).valid = true)
    (hconfigured : (w.peers x).configured = (v.peers x).configured)
    (hlive : (∀ o ∈ new, o.authenticatedFrom ≠ some x) →
      (w.peers x).live = (v.peers x).live ∨ (w.peers x).live = (v.peers x).configured)
    (hinit : ∀ ip port t, .initiation x ip port t ∈ new → (ip, port) = (v.peers x).live) :
    Steered x E base w := by
  obtain ⟨l, hl, hquiet⟩ := h.log
  refine ⟨hvalid, hconfigured.trans h.configured, new ++ l,
    by rw [hlog, hl, List.append_assoc], fun hall => ?_⟩
  obtain ⟨hE, hinits⟩ := hquiet fun o ho => hall o (List.mem_append_right _ ho)
  refine ⟨?_, fun ip port t hmem => ?_⟩
  · rcases hlive fun o ho => hall o (List.mem_append_left _ ho) with hw | hw
    · exact hw.trans hE
    · exact hw.trans h.configured
  · rcases List.mem_append.mp hmem with hmem | hmem
    · exact (hinit ip port t hmem).trans hE
    · exact hinits ip port t hmem

/-- Another peer changed. -/
theorem setPeer_of_ne (h : Steered x E base v) {y : Fin cfg.maxPeers} (p : PeerView cfg)
    (hy : x ≠ y) : Steered x E base (v.setPeer y p) := by
  have hx : (v.setPeer y p).peers x = v.peers x := View.setPeer_peers_of_ne v p hy
  refine h.later (List.nil_append _).symm ?_ ?_ (fun _ => Or.inl ?_) (by simp)
  · rw [hx]
    exact h.valid
  · rw [hx]
  · rw [hx]

end Steered

theorem Path.configured {time : Nat} {v w : View cfg} (h : Path time v w) (x : Fin cfg.maxPeers) :
    (w.peers x).valid = (v.peers x).valid ∧
      (w.peers x).configured = (v.peers x).configured := by
  refine h.relates (R := fun v w => (w.peers x).valid = (v.peers x).valid ∧
    (w.peers x).configured = (v.peers x).configured) (fun _ => ⟨rfl, rfl⟩) ?_ fun v w hs => ?_
  · intro a b d h h'
    exact ⟨h'.1.trans h.1, h'.2.trans h.2⟩
  · obtain ⟨hvalid, hip, hport⟩ := hs.configured x
    exact ⟨hvalid, Prod.ext hip hport⟩

/-- Outside configuration a steered peer stays steered. -/
theorem Path.steered {time : Nat} {v w : View cfg} (h : Path time v w) {x : Fin cfg.maxPeers}
    {E : U32 × U16} {base : List (Obs cfg.maxPeers)} (hv : Steered x E base v) :
    Steered x E base w := by
  refine h.invariant (I := Steered x E base) (fun v w hs hv => ?_) hv
  obtain ⟨new, hlog, hlive, hinit⟩ := hs.live x
  obtain ⟨hvalid, hconfigured⟩ := Path.configured (.single hs) x
  exact hv.later hlog (hvalid.trans hv.valid) hconfigured hlive hinit

namespace Kernel

variable (c : Crypto)

/-! ### Requests -/

/-- The endpoint of a request. -/
def PeerReq.endpoint (req : PeerReq) : U32 × U16 := (req.sinAddr, ntohs req.sinPort)

/-- The peer a request is for: the one with its key or, if there is none, the record it will
be given. -/
def PeerReq.target (n : Netdev cfg) (req : PeerReq) : Option (Fin cfg.maxPeers) :=
  (peerByPubkey n.wg req.publicKey).or (peerAlloc n.wg)

/-- The peer has no current session to keep talking to, or talks to the new endpoint
already. -/
def PeerReq.applies (n : Netdev cfg) (req : PeerReq) (x : Fin cfg.maxPeers) : Prop :=
  peerByPubkey n.wg req.publicKey = none ∨ (n.peer x).currKeypair.valid = false ∨
    (n.peer x).view.live = req.endpoint

/-- A request that succeeds in giving an endpoint to a peer leaves it steered there. -/
theorem wgSetPeer_steered {n : Netdev cfg} {req : PeerReq} {x : Fin cfg.maxPeers}
    (hok : (wgSetPeer c n req).2 = none) (hendpoint : req.has wgPeerHasEndpoint = true)
    (htarget : req.target n = some x) (happlies : req.applies n x) :
    Steered x req.endpoint n.log (wgSetPeer c n req).1.view := by
  unfold PeerReq.target at htarget
  rcases wgSetPeer_cases c n req with
    ⟨err, h⟩ | ⟨y, p, allowed, hself, hp, h⟩ | ⟨y, p, err, hself, halloc, h, -, hnew⟩
  · rw [h] at hok
    cases hok
  · rw [hself, Option.some_or] at htarget
    obtain rfl := Option.some.inj htarget
    have hcurr : p.currKeypair = (n.peer y).currKeypair :=
      congrFun (congrArg PeerView.slots hp) .curr
    have hy : ((wgSetPeer c n req).1.peer y).view = { p.view with
        connectIp := req.sinAddr
        connectPort := ntohs req.sinPort
        ip := if false ∨ ¬p.currKeypair.valid then req.sinAddr else p.ip
        port := if false ∨ ¬p.currKeypair.valid then ntohs req.sinPort else p.port } := by
      rw [h, setPeer_peer_self, applyPeerReq_view, if_pos hendpoint]
    refine ⟨?_, ?_, [], ?_, fun _ => ⟨?_, by simp⟩⟩
    · rw [view_peers, hy]
      exact (congrArg PeerView.valid hp).trans (valid_of_peerByPubkey hself)
    · rw [view_peers, hy]
      rfl
    · rw [h]
      rfl
    · rw [view_peers, hy, hcurr]
      rcases happlies with hnone | hinvalid | hlive
      · rw [hself] at hnone
        cases hnone
      · rw [hinvalid]
        rfl
      · have hlive' : p.view.live = req.endpoint := (congrArg PeerView.live hp).trans hlive
        by_cases hkeep : false ∨ ¬(n.peer y).currKeypair.valid
        · simp only [if_pos hkeep]
          rfl
        · simp only [if_neg hkeep]
          exact hlive'
  · rw [hself, Option.none_or, halloc] at htarget
    obtain rfl := Option.some.inj htarget
    rw [h] at hok
    obtain ⟨hvalid, hends⟩ := hnew hok
    obtain ⟨hconnectIp, hconnectPort, hip, hport⟩ := hends hendpoint
    have hy : ((wgSetPeer c n req).1.peer y) = p := by
      rw [h, setPeer_peer_self]
    refine ⟨?_, ?_, [], ?_, fun _ => ⟨?_, by simp⟩⟩
    · rw [view_peers, hy]
      exact hvalid
    · rw [view_peers, hy]
      exact Prod.ext hconnectIp hconnectPort
    · rw [h]
      rfl
    · rw [view_peers, hy]
      exact Prod.ext hip hport

/-! ### The run after it -/

/-- Setting a private key puts every peer that stays at its configured endpoint. -/
theorem wgSetIf_steered {env : Env cfg} {n : Netdev cfg} {req : IfReq} {x : Fin cfg.maxPeers}
    {E : U32 × U16} {base : List (Obs cfg.maxPeers)} (hn : Steered x E base n.view)
    (hafter : ((wgSetIf c env n req).1.peer x).valid = true) :
    Steered x E base (wgSetIf c env n req).1.view := by
  obtain ⟨m, hpath, -, hm⟩ := wgSetIf_cases c env n req
  refine (hpath 0).steered ?_
  have hvalid : (m.view.peers x).valid = true :=
    (((hpath 0).configured x).1).symm.trans hafter
  rcases hm with ⟨-, hm⟩ | ⟨-, hm⟩
  · rw [hm]
    exact hn
  rw [hm] at hvalid ⊢
  rcases setPrivateKey_cases c env n req.privateKey with ⟨-, err, h⟩ | ⟨-, d, err, h, hd⟩
  · rw [h]
    exact hn
  rw [h] at hvalid ⊢
  change (d.peers x).valid = true at hvalid
  rcases hd with hd | ⟨d', hd⟩
  · rw [hd] at hvalid
    cases hvalid
  · rw [hd] at hvalid
    obtain ⟨hconnectIp, hconnectPort, hip, hport⟩ := restorePeer_endpoint c hvalid
    have hx : ({ n with wg := d }.view.peers x) = (restorePeer c d' (n.peer x)).view := by
      show (d.peers x).view = _
      rw [hd]
    refine hn.later (List.nil_append _).symm ?_ ?_ (fun _ => Or.inr ?_) (by simp)
    · rw [hx]
      exact hvalid
    · rw [hx]
      exact Prod.ext hconnectIp hconnectPort
    · rw [hx]
      exact Prod.ext hip hport

/-- A step that leaves the peer configured at `E` leaves it steered there. -/
theorem step_steered {n n' : Netdev cfg} {e : Event cfg} {x : Fin cfg.maxPeers} {E : U32 × U16}
    {base : List (Obs cfg.maxPeers)} (h : step c n e = some n') (hn : Steered x E base n.view)
    (hvalid : (n'.peer x).valid = true) (hconfigured : (n'.peer x).view.configured = E) :
    Steered x E base n'.view := by
  cases he : e.configures with
  | false =>
      obtain ⟨time, hpath⟩ := exists_path c he h
      exact hpath.steered hn
  | true =>
      cases e with
      | setIf env req =>
          cases h
          exact wgSetIf_steered c hn hvalid
      | setPeer req =>
          cases h
          rcases wgSetPeer_cases c n req with
            ⟨err, h⟩ | ⟨y, p, allowed, -, hp, h⟩ | ⟨y, p, err, -, halloc, h, -⟩
          · rw [h]
            exact hn
          · rw [h] at hconfigured ⊢
            rw [view_setPeer]
            by_cases hy : x = y
            · subst hy
              rw [setPeer_peer_self] at hconfigured
              rw [applyPeerReq_view, hp] at hconfigured ⊢
              refine hn.later (List.nil_append _).symm ?_ ?_ (fun _ => ?_) (by simp)
              · rw [View.setPeer_peers_self]
                split <;> exact hn.valid
              · rw [View.setPeer_peers_self]
                exact hconfigured.trans hn.configured.symm
              · rw [View.setPeer_peers_self, hn.configured]
                split
                · rename_i hendpoint
                  rw [if_pos hendpoint] at hconfigured
                  have hlive : (p.ip, p.port) = (n.peer x).view.live := congrArg PeerView.live hp
                  by_cases hkeep : false ∨ ¬p.currKeypair.valid
                  · simp only [if_pos hkeep]
                    exact Or.inr hconfigured
                  · simp only [if_neg hkeep]
                    exact Or.inl hlive
                · exact Or.inl rfl
            · exact hn.setPeer_of_ne _ hy
          · -- a new peer goes where there is none
            rw [h, view_setPeer]
            refine hn.setPeer_of_ne _ fun hy => ?_
            subst hy
            have hfree := List.find?_some halloc
            rw [show (n.wg.peers x).valid = true from hn.valid] at hfree
            cases hfree
      | delPeer publicKey =>
          cases h
          unfold wgDelPeer at hvalid ⊢
          split
          · exact hn
          · rename_i hdown
            rw [if_neg hdown] at hvalid
            split
            · exact hn
            · rename_i y hy
              rw [hy] at hvalid
              rw [view_setPeer]
              refine hn.setPeer_of_ne _ fun hxy => ?_
              subst hxy
              rw [setPeer_peer_self] at hvalid
              cases hvalid
      | _ => cases he

/-- What was seen since the state `n`. -/
def Netdev.since (n m : Netdev cfg) : List (Obs cfg.maxPeers) :=
  m.log.take (m.log.length - n.log.length)

theorem since_eq {n m : Netdev cfg} {l : List (Obs cfg.maxPeers)} (h : m.log = l ++ n.log) :
    n.since m = l := by
  unfold Netdev.since
  rw [h, List.length_append, Nat.add_sub_cancel, List.take_left]

/-- **What a request for an endpoint promises.**  However the run goes on from the request, as
long as the peer stays configured so and nothing authenticated from it is accepted: once the
session that was current at the request is gone, initiations go to the endpoint of the
request. -/
def Repoints (n : Netdev cfg) (req : PeerReq) (x : Fin cfg.maxPeers) : Prop :=
  ∀ (n₁ m : Netdev cfg) (ts₁ ts₂ : List (Taken (Netdev cfg) (Event cfg))),
    Run (step c) (wgSetPeer c n req).1 ts₁ n₁ → Run (step c) n₁ ts₂ m →
    (∀ k ∈ ts₁ ++ ts₂,
      (k.after.peer x).valid = true ∧ (k.after.peer x).view.configured = req.endpoint) →
    (∀ o ∈ n.since m, o.authenticatedFrom ≠ some x) →
    (∀ s, ((n₁.peer x).keypair s).valid = true → (n.peer x).currKeypair.valid = true →
      ((n₁.peer x).keypair s).sid ≠ (n.peer x).currKeypair.sid) →
    ∀ ip port time, .initiation x ip port time ∈ n₁.since m → (ip, port) = req.endpoint

/-- **Where the request applies at once, it keeps its promise.** -/
theorem repoints_of_applies {n : Netdev cfg} {req : PeerReq} {x : Fin cfg.maxPeers}
    (hok : (wgSetPeer c n req).2 = none) (hendpoint : req.has wgPeerHasEndpoint = true)
    (htarget : req.target n = some x) (happlies : req.applies n x) : Repoints c n req x := by
  intro n₁ m ts₁ ts₂ hrun₁ hrun₂ hkept hquiet _ ip port time hmem
  have hn := wgSetPeer_steered c hok hendpoint htarget happlies
  have hstep : ∀ {a b : Netdev cfg} {ts : List (Taken (Netdev cfg) (Event cfg))},
      Run (step c) a ts b → (∀ k ∈ ts, k ∈ ts₁ ++ ts₂) →
      Steered x req.endpoint n.log a.view → Steered x req.endpoint n.log b.view := by
    intro a b ts hrun hsub ha
    exact (hrun.invariant (I := fun k : Netdev cfg => Steered x req.endpoint n.log k.view) ha
      fun k hk hs hb => step_steered c hs hb (hkept k (hsub k hk)).1 (hkept k (hsub k hk)).2).1
  have hn₁ := hstep hrun₁ (fun k hk => List.mem_append_left _ hk) hn
  have hm := hstep hrun₂ (fun k hk => List.mem_append_right _ hk) hn₁
  obtain ⟨l, hlog, hall⟩ := hm.log
  rw [since_eq hlog] at hquiet
  refine (hall hquiet).2 ip port time ?_
  -- what was seen since `n₁` was seen since the request
  obtain ⟨l₁, hlog₁, -⟩ := hn₁.log
  have hle : n.log.length ≤ n₁.log.length := by
    rw [show n₁.log = l₁ ++ n.log from hlog₁, List.length_append]
    exact Nat.le_add_left _ _
  rw [← since_eq hlog]
  exact (List.take_sublist_take_left (Nat.sub_le_sub_left hle _)).subset hmem

namespace Sample

open NuttxWireguard.Sample

/-- The peer is at `10.9.9.8` from now on. -/
def moved : PeerReq := firstReq (some (address 10 9 9 8, 5000))

end Sample

/-- A request to a peer without a session. -/
theorem repoints_of_applies_sample : ∃ n : Netdev Sample.config, n.bifup = true ∧
    Repoints Crypto.plain n Sample.moved Sample.first := by
  obtain ⟨n, -, h⟩ := Sample.exists_reachable Sample.bringUp
    (fun n => n.bifup && decide ((wgSetPeer Crypto.plain n Sample.moved).2 = none) &&
      decide (Sample.moved.target n = some Sample.first) &&
      decide ((n.peer Sample.first).currKeypair.valid = false)) (by decide +kernel)
  simp only [Bool.and_eq_true, decide_eq_true_eq] at h
  exact ⟨n, h.1.1.1, repoints_of_applies Crypto.plain h.1.1.2 (by decide) h.1.2
    (Or.inr (Or.inl h.2))⟩

/-- A request to a peer with a session: the timers drop the session at 180 s, and both
initiations they send then go to `9.9.9.9`. -/
theorem not_repoints_current : ¬∀ (n : Netdev Sample.config) (req : PeerReq)
    (x : Fin Sample.config.maxPeers), ReachableState Crypto.plain n → n.bifup = true →
    (wgSetPeer Crypto.plain n req).2 = none → req.has wgPeerHasEndpoint = true →
    req.target n = some x → Repoints Crypto.plain n req x := by
  intro hall
  obtain ⟨n, hn, h⟩ := Sample.exists_reachable
    (Sample.bringUp ++ [Sample.rxInitiation 1001, Sample.rxData 1002 0 []])
    (fun n => n.bifup && decide ((wgSetPeer Crypto.plain n Sample.moved).2 = none) &&
      decide (Sample.moved.target n = some Sample.first) &&
      (step Crypto.plain (wgSetPeer Crypto.plain n Sample.moved).1
          (.timers (Sample.env 182000))).any fun n₁ =>
        (step Crypto.plain n₁ (.timers (Sample.env 188000))).any fun m =>
          [n₁, m].all (fun k => (k.peer Sample.first).valid &&
            decide ((k.peer Sample.first).view.configured = Sample.moved.endpoint)) &&
          (n.since m).all (fun o => decide (o.authenticatedFrom ≠ some Sample.first)) &&
          [Slot.curr, .prev, .next].all
            (fun s => !((n₁.peer Sample.first).keypair s).valid) &&
          decide (.initiation Sample.first (Sample.address 9 9 9 9) 1234 188000 ∈ n₁.since m))
    (by decide +kernel)
  simp only [Bool.and_eq_true, decide_eq_true_eq] at h
  obtain ⟨⟨⟨hup, hok⟩, htarget⟩, h⟩ := h
  obtain ⟨n₁, hn₁, h⟩ := (Option.any_eq_true _ _).mp h
  obtain ⟨m, hm, h⟩ := (Option.any_eq_true _ _).mp h
  simp only [Bool.and_eq_true, List.all_eq_true, decide_eq_true_eq, Bool.not_eq_true'] at h
  obtain ⟨⟨⟨hkept, hquiet⟩, hgone⟩, hinit⟩ := h
  have hE := hall n Sample.moved Sample.first hn hup hok (by decide) htarget n₁ m _ _
    (.cons hn₁ .nil) (.cons hm .nil) ?_ hquiet ?_ _ _ _ hinit
  · exact absurd hE (by decide)
  · intro k hk
    rcases List.mem_cons.mp hk with rfl | hk
    · exact hkept n₁ (by simp)
    · rw [List.mem_singleton.mp hk]
      exact hkept m (by simp)
  · intro s hs
    rw [hgone s (by cases s <;> simp)] at hs
    cases hs

end Kernel

end NuttxWireguard
