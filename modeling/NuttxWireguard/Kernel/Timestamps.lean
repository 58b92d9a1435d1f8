/-
Replayed initiations.

The driver keeps the greatest timestamp of each peer so that an initiation is accepted
once.  Along a run the timestamps it accepts from a peer increase and the stored one never
falls, unless a private key is set: `SIOCSWGIF` then initialises every peer anew, from what
was configured, and the timestamp is not among what it restores.  That the key is the same
as before makes no difference to it.
-/
import NuttxWireguard.Kernel.Steps

namespace NuttxWireguard

open Lib

variable {cfg : Config}

/-! ### Timestamps of a peer -/

/-- The timestamp of an initiation accepted from peer `x`, as a number. -/
def Obs.timestampFrom {n : Nat} (x : Fin n) : Obs n → Option Nat
  | .initAccepted y t => if y = x then some (beNat t.toList) else none
  | _ => none

/-- The timestamps accepted from peer `x`, newest first. -/
def timestampsAccepted {n : Nat} (x : Fin n) (log : List (Obs n)) : List Nat :=
  log.filterMap (Obs.timestampFrom x)

/-- The greatest timestamp as a number. -/
def PeerView.greatest (p : PeerView cfg) : Nat := beNat p.greatestTimestamp.toList

/-- From `v` to `w` the timestamps accepted from peer `x` went up, from above the stored one
at the start to the stored one at the end. -/
structure Advances (x : Fin cfg.maxPeers) (v w : View cfg) : Prop where
  le : (v.peers x).greatest ≤ (w.peers x).greatest
  log : ∃ l, w.log = l ++ v.log ∧ (timestampsAccepted x l).Pairwise (· > ·) ∧
    ∀ t ∈ timestampsAccepted x l, (v.peers x).greatest < t ∧ t ≤ (w.peers x).greatest

namespace Advances

variable {x : Fin cfg.maxPeers} {u v w : View cfg}

/-- Nothing was accepted from the peer, and nothing forgotten. -/
theorem of_quiet (hle : (v.peers x).greatest ≤ (w.peers x).greatest) {l : List (Obs cfg.maxPeers)}
    (hlog : w.log = l ++ v.log) (hquiet : timestampsAccepted x l = []) : Advances x v w := by
  refine ⟨hle, l, hlog, ?_, ?_⟩
  · rw [hquiet]
    exact List.Pairwise.nil
  · rw [hquiet]
    simp

theorem refl (v : View cfg) : Advances x v v :=
  .of_quiet (Nat.le_refl _) (List.nil_append _).symm rfl

theorem trans (h : Advances x u v) (h' : Advances x v w) : Advances x u w := by
  obtain ⟨hle, l, hlog, hl, hbounds⟩ := h
  obtain ⟨hle', l', hlog', hl', hbounds'⟩ := h'
  refine ⟨hle.trans hle', l' ++ l, by rw [hlog', hlog, List.append_assoc], ?_, ?_⟩
  · unfold timestampsAccepted
    rw [List.filterMap_append]
    refine List.pairwise_append.mpr ⟨hl', hl, fun t' ht' t ht => ?_⟩
    exact Nat.lt_of_le_of_lt (hbounds t ht).2 (hbounds' t' ht').1
  · intro t ht
    unfold timestampsAccepted at ht
    rw [List.filterMap_append] at ht
    rcases List.mem_append.mp ht with ht | ht
    · exact ⟨Nat.lt_of_le_of_lt hle (hbounds' t ht).1, (hbounds' t ht).2⟩
    · exact ⟨(hbounds t ht).1, (hbounds t ht).2.trans hle'⟩

/-- One entry about something else. -/
theorem of_observe (hgreatest : (w.peers x).greatest = (v.peers x).greatest)
    {o : Obs cfg.maxPeers} (hlog : w.log = o :: v.log) (ho : o.timestampFrom x = none) :
    Advances x v w :=
  .of_quiet hgreatest.ge (l := [o]) hlog (List.filterMap_cons_none ho)

/-- A change to peers that leaves the stored timestamp. -/
theorem of_setPeer (v : View cfg) {y : Fin cfg.maxPeers} {p : PeerView cfg}
    (hp : y = x → (v.peers x).greatest ≤ p.greatest) : Advances x v (v.setPeer y p) := by
  refine .of_quiet ?_ (List.nil_append _).symm rfl
  rw [View.setPeer_peers]
  split
  · rename_i hxy
    exact hp hxy.symm
  · exact Nat.le_refl _

end Advances

/-- Outside configuration timestamps advance. -/
theorem Micro.advances {time : Nat} {v w : View cfg} (h : Micro time v w)
    (x : Fin cfg.maxPeers) : Advances x v w := by
  have hsame : ∀ {y : Fin cfg.maxPeers} {p : PeerView cfg},
      p.greatestTimestamp = (v.peers y).greatestTimestamp →
      ((v.setPeer y p).peers x).greatest = (v.peers x).greatest :=
    fun hp => congrArg (fun t : Bytes 12 => beNat t.toList) (setPeer_greatestTimestamp hp x)
  cases h with
  | drop y s => exact .of_setPeer v fun hy => by rw [hy]; exact Nat.le_refl _
  | encrypt y kp lastTx => exact .of_observe (hsame rfl) rfl rfl
  | refuse y s kp counter => exact .of_observe rfl rfl rfl
  | accept y s kp counter ip port => exact .of_observe (hsame rfl) rfl rfl
  | start y kp hnew => exact .of_observe (hsame rfl) rfl rfl
  | initiation y => exact .of_observe rfl rfl rfl
  | acceptInit y timestamp ip port hnew =>
      by_cases hy : y = x
      · subst hy
        have hstored : (((v.setPeer y { v.peers y with
            ip := ip
            port := port
            greatestTimestamp := timestamp }).observe (.initAccepted y timestamp)).peers y).greatest
              = beNat timestamp.toList := by
          rw [View.observe_peers, View.setPeer_peers_self]
          rfl
        have hone : timestampsAccepted y [.initAccepted y timestamp] = [beNat timestamp.toList] :=
          List.filterMap_cons_some (if_pos rfl)
        refine ⟨by rw [hstored]; exact hnew.le, [.initAccepted y timestamp], rfl, ?_, ?_⟩
        · rw [hone]
          exact List.pairwise_singleton _ _
        · rw [hone, hstored]
          rintro t ht
          rw [List.mem_singleton.mp ht]
          exact ⟨hnew, Nat.le_refl _⟩
      · refine .of_observe ?_ rfl (if_neg hy)
        rw [View.observe_peers, View.setPeer_peers_of_ne _ _ fun hx => hy hx.symm]
  | acceptResponse y ip port => exact .of_observe (hsame rfl) rfl rfl
  | acceptCookie y => exact .of_observe rfl rfl rfl
  | resetEndpoint y => exact .of_setPeer v fun hy => by rw [hy]; exact Nat.le_refl _
  | inject y packet => exact .of_observe rfl rfl rfl

theorem Path.advances {time : Nat} {v w : View cfg} (h : Path time v w) (x : Fin cfg.maxPeers) :
    Advances x v w :=
  h.relates (R := Advances x) .refl .trans fun _ _ hs => hs.advances x

namespace Kernel

variable (c : Crypto)

/-! ### Setting a private key -/

/-- The event is a request that gets to set a private key. -/
def Event.setsKey (n : Netdev cfg) : Event cfg → Bool
  | .setIf env req => req.has wgIfHasPrivateKey && !n.bifup && decide (n.rxpid = 0) &&
      decide (req.privateKey ≠ Bytes.zero 32) && env.savedMalloc
  | _ => false

/-- The stored timestamp of peer `x`. -/
def Netdev.greatest (n : Netdev cfg) (x : Fin cfg.maxPeers) : Nat := (n.peer x).view.greatest

theorem setsKey_setIf_iff (env : Env cfg) (n : Netdev cfg) (req : IfReq) :
    (Event.setIf env req).setsKey n = true ↔
      (req.has wgIfHasPrivateKey = true ∧ n.bifup = false ∧ n.rxpid = 0) ∧
        req.privateKey ≠ Bytes.zero 32 ∧ env.savedMalloc = true := by
  unfold Event.setsKey
  simp only [Bool.and_eq_true, Bool.not_eq_true', decide_eq_true_eq, and_assoc]

/-- A private key forgets every timestamp. -/
theorem wgSetIf_forgets {env : Env cfg} {n : Netdev cfg} {req : IfReq}
    (h : (Event.setIf env req).setsKey n = true) (x : Fin cfg.maxPeers) :
    (wgSetIf c env n req).1.greatest x = 0 := by
  obtain ⟨hdown, hkey⟩ := (setsKey_setIf_iff env n req).mp h
  obtain ⟨m, -, hgreatest, ⟨hno, -⟩ | ⟨-, hm⟩⟩ := wgSetIf_cases c env n req
  · exact absurd hdown hno
  rcases setPrivateKey_cases c env n req.privateKey with ⟨hno, -⟩ | ⟨-, d, err, hset, hd⟩
  · exact absurd hkey hno
  have hzero : (m.peer x).greatestTimestamp = Bytes.zero 12 := by
    rw [hset] at hm
    have hx : (m.peer x).view = (d.peers x).view := congrFun (congrArg View.peers hm) x
    exact (congrArg PeerView.greatestTimestamp hx).trans (setPrivateKey_unused c hd x).2
  show beNat ((wgSetIf c env n req).1.peer x).greatestTimestamp.toList = 0
  rw [hgreatest x, hzero, beNat_zero]

/-- Setting a key loses nothing where there is nothing to lose; any other request leaves the
timestamps. -/
theorem wgSetIf_advances {env : Env cfg} {n : Netdev cfg} {req : IfReq} {x : Fin cfg.maxPeers}
    (h : ¬((Event.setIf env req).setsKey n = true ∧ n.greatest x ≠ 0)) :
    Advances x n.view (wgSetIf c env n req).1.view := by
  obtain ⟨m, hpath, -, hm⟩ := wgSetIf_cases c env n req
  refine Advances.trans ?_ ((hpath 0).advances x)
  rcases hm with ⟨-, hm⟩ | ⟨hdown, hm⟩
  · rw [hm]
    exact .refl _
  · rw [hm]
    rcases setPrivateKey_cases c env n req.privateKey with ⟨-, err, hset⟩ | ⟨hkey, d, err, hset, -⟩
    · rw [hset]
      exact .refl _
    · rw [hset]
      have hnone : n.greatest x = 0 := by
        by_contra hne
        exact h ⟨(setsKey_setIf_iff env n req).mpr ⟨hdown, hkey⟩, hne⟩
      refine .of_quiet ?_ (List.nil_append _).symm rfl
      show n.greatest x ≤ _
      rw [hnone]
      exact Nat.zero_le _

/-! ### Steps and runs -/

/-- The step a peer is there before and after: its timestamps advance, unless the step sets
a private key over one that is stored. -/
theorem step_advances {n n' : Netdev cfg} {e : Event cfg} {x : Fin cfg.maxPeers}
    (h : step c n e = some n') (hbefore : (n.peer x).valid = true)
    (hafter : (n'.peer x).valid = true) (hkey : ¬(e.setsKey n = true ∧ n.greatest x ≠ 0)) :
    Advances x n.view n'.view := by
  cases he : e.configures with
  | false =>
      obtain ⟨time, hpath⟩ := exists_path c he h
      exact hpath.advances x
  | true =>
      cases e with
      | setIf env req =>
          cases h
          exact wgSetIf_advances c hkey
      | setPeer req =>
          cases h
          rcases wgSetPeer_cases c n req with
            ⟨err, h⟩ | ⟨y, p, allowed, -, hp, h⟩ | ⟨y, p, err, -, halloc, h, -⟩
          · rw [h]
            exact .refl _
          · rw [h, view_setPeer, applyPeerReq_view]
            have hstored : p.view.greatest = (n.peer y).view.greatest :=
              congrArg PeerView.greatest hp
            refine .of_setPeer _ fun hy => ?_
            subst hy
            refine Nat.le_of_eq (hstored.symm.trans ?_)
            split <;> rfl
          · -- a new peer goes where there is none
            rw [h, view_setPeer]
            refine .of_setPeer _ fun hy => ?_
            subst hy
            have hfree := List.find?_some halloc
            rw [show (n.wg.peers y).valid = true from hbefore] at hfree
            cases hfree
      | delPeer publicKey =>
          cases h
          unfold wgDelPeer at hafter ⊢
          split
          · exact .refl _
          · rename_i hdown
            rw [if_neg hdown] at hafter
            split
            · exact .refl _
            · rename_i y hy
              rw [hy] at hafter
              rw [view_setPeer]
              refine .of_setPeer _ fun hxy => ?_
              subst hxy
              rw [setPeer_peer_self] at hafter
              cases hafter
      | _ => cases he

/-- Along the run `ts` from `n` to `m` no initiation of peer `x` is accepted twice: the stored
timestamp never falls, and every timestamp accepted is above all accepted before it. -/
structure NoInitReplayed (x : Fin cfg.maxPeers) (n : Netdev cfg)
    (ts : List (Taken (Netdev cfg) (Event cfg))) (m : Netdev cfg) : Prop where
  le : ∀ k ∈ ts, k.before.greatest x ≤ k.after.greatest x
  log : ∃ l, m.log = l ++ n.log ∧ (timestampsAccepted x l).Pairwise (· > ·)

/-- **Initiations are not replayed exactly along the runs that set no private key over a
stored timestamp.**  The peer is there in every state of the run. -/
theorem noInitReplayed_iff {n m : Netdev cfg} {ts : List (Taken (Netdev cfg) (Event cfg))}
    {x : Fin cfg.maxPeers} (h : Run (step c) n ts m)
    (hpeer : ∀ k ∈ ts, (k.before.peer x).valid = true ∧ (k.after.peer x).valid = true) :
    NoInitReplayed x n ts m ↔
      ∀ k ∈ ts, ¬(k.event.setsKey k.before = true ∧ k.before.greatest x ≠ 0) := by
  constructor
  · rintro hno k hk ⟨hsets, hstored⟩
    have hstep := h.step_of_mem hk
    have hle := hno.le k hk
    obtain ⟨before, event, after⟩ := k
    cases event with
    | setIf env req =>
        have hafter : (wgSetIf c env before req).1 = after := Option.some.inj hstep
        dsimp only at hsets hstored hle
        rw [← hafter, wgSetIf_forgets c hsets x] at hle
        exact hstored (Nat.le_zero.mp hle)
    | _ => cases hsets
  · intro hkey
    have hstep : ∀ k ∈ ts, step c k.before k.event = some k.after →
        Advances x k.before.view k.after.view :=
      fun k hk hs => step_advances c hs (hpeer k hk).1 (hpeer k hk).2 (hkey k hk)
    have hrun : Advances x n.view m.view :=
      h.relates (R := fun a b : Netdev cfg => Advances x a.view b.view) (fun _ => .refl _) .trans
        hstep
    obtain ⟨l, hlog, hincreasing, -⟩ := hrun.log
    exact ⟨fun k hk => (hstep k hk (h.step_of_mem hk)).le, l, hlog, hincreasing⟩

/-- Down and up again, and the initiation that was accepted once is refused. -/
theorem noInitReplayed_iff_sample :
    ∃ (n m : Netdev Sample.config) (ts : List (Taken (Netdev Sample.config) _)), ts.length = 6 ∧
      m.greatest Sample.first ≠ 0 ∧ NoInitReplayed Sample.first n ts m := by
  obtain ⟨n, ts, m, -, hrun, hp⟩ := Sample.exists_run Sample.bringUp
    [Sample.rxInitiation 1001, .ifdown, .rxExit, .ifdownDone, .ifup (Sample.env 2000),
      Sample.rxInitiation 3000]
    (fun _ ts m => (decide (ts.length = 6) && decide (m.greatest Sample.first ≠ 0)) &&
      ts.all fun k => ((k.before.peer Sample.first).valid && (k.after.peer Sample.first).valid) &&
        decide (¬(k.event.setsKey k.before = true ∧ k.before.greatest Sample.first ≠ 0)))
    (by decide +kernel)
  simp only [Bool.and_eq_true, decide_eq_true_eq, List.all_eq_true] at hp
  exact ⟨n, m, ts, hp.1.1, hp.1.2, (noInitReplayed_iff Crypto.plain hrun fun k hk =>
    (hp.2 k hk).1).mpr fun k hk => (hp.2 k hk).2⟩

/-- Down, the same private key, up again: the recorded initiation is accepted once more. -/
theorem initReplayed_sameKey : ¬∀ (n m : Netdev Sample.config)
    (ts : List (Taken (Netdev Sample.config) _)) (x : Fin Sample.config.maxPeers),
    ReachableState Crypto.plain n → Run (step Crypto.plain) n ts m →
    (∀ k ∈ ts, (k.before.peer x).valid = true ∧ (k.after.peer x).valid = true) →
    (∀ k ∈ ts, k.after.wg.privateKey = k.before.wg.privateKey) →
    NoInitReplayed x n ts m := by
  intro hall
  obtain ⟨n, ts, m, hn, hrun, hp⟩ := Sample.exists_run Sample.bringUp
    [Sample.rxInitiation 1001, .ifdown, .rxExit, .ifdownDone, Sample.setKey 2000,
      .ifup (Sample.env 2000), Sample.rxInitiation 3000]
    (fun n ts m => (ts.all fun k =>
        (k.before.peer Sample.first).valid && (k.after.peer Sample.first).valid &&
        decide (k.after.wg.privateKey = k.before.wg.privateKey)) &&
      decide (timestampsAccepted Sample.first (m.log.take (m.log.length - n.log.length)) = [1, 1]))
    (by decide +kernel)
  simp only [Bool.and_eq_true, decide_eq_true_eq, List.all_eq_true] at hp
  obtain ⟨l, hlog, hincreasing⟩ := (hall n m ts Sample.first hn hrun (fun k hk => (hp.1 k hk).1)
    fun k hk => (hp.1 k hk).2).log
  have htwice := hp.2
  rw [hlog, List.length_append, Nat.add_sub_cancel, List.take_left] at htwice
  rw [htwice] at hincreasing
  exact absurd hincreasing (by decide)

end Kernel

end NuttxWireguard
