/-
Sessions over a run.

Every session is numbered when it starts, and its number stays with its keypair.  Two
facts about the numbers carry everything else: no number is ever given out twice, and no
two slots, of one peer or of two, hold the same one (`View.Numbered`).

From there one rule suffices.  `Micro.each_keypair` says what has to be checked of a
property of keypairs, the slot they sit in and the log, for every step to keep it: one
condition for each way a keypair is used or moved.
-/
import NuttxWireguard.Session

namespace NuttxWireguard

open Lib

variable {cfg : Config}

/-! ### Numbers -/

/-- The session an entry is about. -/
def Obs.session {n : Nat} : Obs n → Option Nat
  | .started _ sid _ _ _ => some sid
  | .encrypted _ sid _ _ _ _ => some sid
  | .opened _ sid _ _ _ => some sid
  | _ => none

/-- Sessions are numbered apart. -/
structure View.Numbered (v : View cfg) : Prop where
  /-- The sessions in the slots have been started. -/
  lt : ∀ x s, full ((v.peers x).slots s) = true → ((v.peers x).slots s).sid < v.nextSid
  /-- A session sits in one slot. -/
  apart : ∀ x y s t, full ((v.peers x).slots s) = true → full ((v.peers y).slots t) = true →
    ((v.peers x).slots s).sid = ((v.peers y).slots t).sid → x = y ∧ s = t
  /-- The log speaks of started sessions. -/
  log_lt : ∀ o ∈ v.log, ∀ sid ∈ o.session, sid < v.nextSid

namespace View.Numbered

theorem fresh {v : View cfg} (h : v.Fresh) : v.Numbered where
  lt := by
    intro x s hfull
    rw [h.slots x] at hfull
    cases hfull
  apart := by
    intro x y s t hfull
    rw [h.slots x] at hfull
    cases hfull
  log_lt := by
    rw [h.log]
    simp

/-- The sessions of one peer are apart. -/
theorem separate {v : View cfg} (h : v.Numbered) (x : Fin cfg.maxPeers) :
    Slots.Separate full Keypair.sid (v.peers x).slots :=
  fun s t hs ht hsid => (h.apart x x s t hs ht hsid).2

/-- A peer whose slots hold only sessions it held before. -/
theorem setPeer {v : View cfg} (h : v.Numbered) (x : Fin cfg.maxPeers) (p : PeerView cfg)
    (hfrom : ∀ s, full (p.slots s) = true →
      ∃ t, full ((v.peers x).slots t) = true ∧ (p.slots s).sid = ((v.peers x).slots t).sid)
    (hsep : Slots.Separate full Keypair.sid p.slots) : (v.setPeer x p).Numbered where
  lt := by
    intro y s hfull
    rw [View.setPeer_peers] at hfull ⊢
    by_cases hy : y = x
    · rw [if_pos hy] at hfull ⊢
      obtain ⟨t, ht, hsid⟩ := hfrom s hfull
      rw [hsid]
      exact h.lt x t ht
    · rw [if_neg hy] at hfull ⊢
      exact h.lt y s hfull
  apart := by
    intro y z s t hs ht hsid
    rw [View.setPeer_peers] at hs ht hsid
    rw [View.setPeer_peers] at hsid
    by_cases hy : y = x <;> by_cases hz : z = x
    · rw [if_pos hy] at hs hsid
      rw [if_pos hz] at ht hsid
      exact ⟨hy.trans hz.symm, hsep s t hs ht hsid⟩
    · rw [if_pos hy] at hs hsid
      rw [if_neg hz] at ht hsid
      obtain ⟨u, hu, hsu⟩ := hfrom s hs
      exact absurd (h.apart x z u t hu ht (hsu.symm.trans hsid)).1.symm hz
    · rw [if_neg hy] at hs hsid
      rw [if_pos hz] at ht hsid
      obtain ⟨u, hu, htu⟩ := hfrom t ht
      exact absurd (h.apart y x s u hs hu (hsid.trans htu)).1 hy
    · rw [if_neg hy] at hs hsid
      rw [if_neg hz] at ht hsid
      exact h.apart y z s t hs ht hsid
  log_lt := h.log_lt

/-- An entry about nothing new. -/
theorem observe {v : View cfg} (h : v.Numbered) (o : Obs cfg.maxPeers)
    (ho : ∀ sid ∈ o.session, sid < v.nextSid) : (v.observe o).Numbered where
  lt := h.lt
  apart := h.apart
  log_lt := by
    intro o' ho'
    rcases List.mem_cons.mp ho' with rfl | ho'
    · exact ho
    · exact h.log_lt o' ho'

/-- A peer changed beside its slots. -/
theorem setPeer_of_slots_eq {v : View cfg} (h : v.Numbered) (x : Fin cfg.maxPeers)
    {p : PeerView cfg} (hslots : p.slots = (v.peers x).slots) : (v.setPeer x p).Numbered :=
  h.setPeer x p (fun s hs => ⟨s, by rw [← hslots]; exact hs, by rw [hslots]⟩)
    (by rw [hslots]; exact h.separate x)

/-- A peer that lost its keypairs. -/
theorem clear {v : View cfg} (h : v.Numbered) (x : Fin cfg.maxPeers) {p : PeerView cfg}
    (hslots : p.slots = fun _ => Keypair.zero) : (v.setPeer x p).Numbered :=
  h.setPeer x p (fun s hs => by rw [hslots] at hs; cases hs)
    (by rw [hslots]; exact Slots.separate_empty rfl)

/-- One keypair replaced by one of the same session, in its slot or promoted from it. -/
theorem replace {v : View cfg} (h : v.Numbered) (x : Fin cfg.maxPeers) {s : Slot}
    {kp : Keypair cfg} (hfull : full ((v.peers x).slots s) = true)
    (hsid : kp.sid = ((v.peers x).slots s).sid) :
    (∀ t, full ((v.peers x).slots.put s kp t) = true →
      ∃ u, full ((v.peers x).slots u) = true ∧
        ((v.peers x).slots.put s kp t).sid = ((v.peers x).slots u).sid) ∧
    Slots.Separate full Keypair.sid ((v.peers x).slots.put s kp) := by
  refine ⟨fun t ht => ?_, (h.separate x).put hfull hsid⟩
  rcases Slots.put_cases (v.peers x).slots s t kp with ⟨-, e⟩ | ⟨-, e⟩
  · exact ⟨s, hfull, by rw [e, hsid]⟩
  · exact ⟨t, by rw [← e]; exact ht, by rw [e]⟩

/-- A new session. -/
theorem start {v : View cfg} (h : v.Numbered) (x : Fin cfg.maxPeers) (p : PeerView cfg)
    {kp : Keypair cfg} (hsid : kp.sid = v.nextSid)
    (hfrom : ∀ s, full (p.slots s) = true → p.slots s = kp ∨
      ∃ t, full ((v.peers x).slots t) = true ∧ p.slots s = (v.peers x).slots t)
    (hsep : Slots.Separate full Keypair.sid p.slots) :
    ({ v with nextSid := v.nextSid + 1 }.setPeer x p).Numbered := by
  have hold : ∀ y t, full ((v.peers y).slots t) = true →
      ((v.peers y).slots t).sid < v.nextSid := h.lt
  have hcross : ∀ (y : Fin cfg.maxPeers) (s t : Slot), y ≠ x → full (p.slots s) = true →
      full ((v.peers y).slots t) = true → (p.slots s).sid ≠ ((v.peers y).slots t).sid := by
    intro y s t hy hs ht hc
    rcases hfrom s hs with e | ⟨u, hu, e⟩
    · rw [e, hsid] at hc
      exact absurd (hold y t ht) (by omega)
    · rw [e] at hc
      exact hy (h.apart x y u t hu ht hc).1.symm
  refine ⟨?_, ?_, fun o ho sid hs => Nat.lt_succ_of_lt (h.log_lt o ho sid hs)⟩
  · intro y s hfull
    rw [View.setPeer_peers] at hfull ⊢
    show _ < v.nextSid + 1
    by_cases hy : y = x
    · rw [if_pos hy] at hfull ⊢
      rcases hfrom s hfull with e | ⟨t, ht, e⟩
      · rw [e, hsid]; omega
      · rw [e]; exact Nat.lt_succ_of_lt (hold x t ht)
    · rw [if_neg hy] at hfull ⊢
      exact Nat.lt_succ_of_lt (hold y s hfull)
  · intro y z s t hs ht hc
    rw [View.setPeer_peers] at hs ht hc
    rw [View.setPeer_peers] at hc
    by_cases hy : y = x <;> by_cases hz : z = x
    · rw [if_pos hy] at hs hc
      rw [if_pos hz] at ht hc
      exact ⟨hy.trans hz.symm, hsep s t hs ht hc⟩
    · rw [if_pos hy] at hs hc
      rw [if_neg hz] at ht hc
      exact absurd hc (hcross z s t hz hs ht)
    · rw [if_neg hy] at hs hc
      rw [if_pos hz] at ht hc
      exact absurd hc.symm (hcross y t s hy ht hs)
    · rw [if_neg hy] at hs hc
      rw [if_neg hz] at ht hc
      exact h.apart y z s t hs ht hc

end View.Numbered

/-- A full keypair behind the slots an accepted datagram leaves: the receiving one, moved
on, or one that was there. -/
theorem full_accept {σ : Slots (Keypair cfg)} {s t : Slot} {kp : Keypair cfg}
    (h : full ((if s = .next then (σ.put s kp).promote Keypair.zero else σ.put s kp) t) = true) :
    (t = (if s = .next then .curr else s) ∧
      (if s = .next then (σ.put s kp).promote Keypair.zero else σ.put s kp) t = kp) ∨
    ∃ u, u ≠ s ∧ (t = u ∨ t = .prev) ∧
      (if s = .next then (σ.put s kp).promote Keypair.zero else σ.put s kp) t = σ u := by
  by_cases hs : s = .next
  · subst hs
    simp only [if_true] at h ⊢
    cases t with
    | curr => exact Or.inl ⟨rfl, Slots.put_self σ _ kp⟩
    | prev => exact Or.inr ⟨.curr, by decide, Or.inr rfl, Slots.put_of_ne (by decide)⟩
    | next => cases h
  · simp only [if_neg hs] at h ⊢
    rcases Slots.put_cases σ s t kp with ⟨ht, e⟩ | ⟨ht, e⟩
    · exact Or.inl ⟨ht, e⟩
    · exact Or.inr ⟨t, ht, Or.inl rfl, e⟩

/-- And behind those a new session leaves. -/
theorem full_start {σ : Slots (Keypair cfg)} {t : Slot} {kp : Keypair cfg}
    (h : full ((if kp.initiator then σ.installCurr Keypair.zero full kp
      else σ.installNext Keypair.zero kp) t) = true) :
    (t = (if kp.initiator then .curr else .next) ∧
      (if kp.initiator then σ.installCurr Keypair.zero full kp
        else σ.installNext Keypair.zero kp) t = kp) ∨
    ∃ u, (t = u ∨ t = .prev) ∧
      (if kp.initiator then σ.installCurr Keypair.zero full kp
        else σ.installNext Keypair.zero kp) t = σ u := by
  by_cases hi : kp.initiator = true
  · simp only [if_pos hi] at h ⊢
    rcases Slots.full_installCurr rfl h with ⟨ht, e⟩ | ⟨ht, u, e⟩
    · exact Or.inl ⟨ht, e⟩
    · exact Or.inr ⟨u, Or.inr ht, e⟩
  · simp only [if_neg hi] at h ⊢
    rcases Slots.full_installNext rfl h with ⟨ht, e⟩ | ⟨ht, e⟩
    · exact Or.inl ⟨ht, e⟩
    · exact Or.inr ⟨.curr, Or.inl ht, e⟩

/-- **Numbers stay apart.** -/
theorem Micro.numbered {time : Nat} {v w : View cfg} (h : Micro time v w) (hv : v.Numbered) :
    w.Numbered := by
  cases h with
  | drop x s =>
      refine hv.setPeer x _ (fun t ht => ?_) ((hv.separate x).drop rfl s)
      obtain ⟨-, e⟩ := Slots.full_drop rfl ht
      exact ⟨t, by rw [← e]; exact ht, congrArg Keypair.sid e⟩
  | encrypt x kp lastTx hkp husable =>
      have hfull : full ((v.peers x).slots (sendingSlot (v.peers x).slots)) = true :=
        hkp ▸ sendingUsable_valid husable
      have hsid : ({ kp with sendingCounter := kp.sendingCounter + 1, lastTx := lastTx } :
          Keypair cfg).sid = ((v.peers x).slots (sendingSlot (v.peers x).slots)).sid := by
        rw [← hkp]
      obtain ⟨hfrom, hsep⟩ := hv.replace x hfull hsid
      refine (hv.setPeer x _ hfrom hsep).observe _ fun sid hsid => ?_
      cases hsid
      rw [hkp]
      exact hv.lt x _ hfull
  | refuse x s kp counter hkp hvalid =>
      refine hv.observe _ fun sid hsid => ?_
      cases hsid
      rw [hkp]
      exact hv.lt x s (by rw [← hkp]; exact hvalid)
  | accept x s kp counter ip port hkp hvalid hlimit hfresh =>
      have hfull : full ((v.peers x).slots s) = true := by rw [← hkp]; exact hvalid
      have hsid : (receivedKeypair (sysNow time) kp counter).sid = ((v.peers x).slots s).sid := by
        rw [← hkp]
        exact receivedKeypair_sid _ kp counter
      obtain ⟨hfrom, hsep⟩ := hv.replace x hfull hsid
      refine View.Numbered.observe (hv.setPeer x _ (fun t ht => ?_) ?_) _ fun sid hs => ?_
      · rcases full_accept ht with ⟨-, e⟩ | ⟨u, hu, -, e⟩
        · exact ⟨s, hfull, by rw [← hsid]; exact congrArg Keypair.sid e⟩
        · exact ⟨u, by rw [← e]; exact ht, congrArg Keypair.sid e⟩
      · show Slots.Separate full Keypair.sid (if s = .next then _ else _)
        split
        · exact hsep.promote rfl
        · exact hsep
      · cases hs
        rw [hkp]
        exact hv.lt x s hfull
  | start x kp hnew =>
      have hother : ∀ s, full ((v.peers x).slots s) = true →
          ((v.peers x).slots s).sid ≠ kp.sid := by
        intro s hs hc
        have := hv.lt x s hs
        rw [hc, hnew.sid] at this
        omega
      refine View.Numbered.observe (hv.start x _ hnew.sid (fun s hs => ?_) ?_) _ fun sid hs => ?_
      · rcases full_start hs with ⟨-, e⟩ | ⟨u, -, e⟩
        · exact Or.inl e
        · exact Or.inr ⟨u, by rw [← e]; exact hs, e⟩
      · show Slots.Separate full Keypair.sid (if kp.initiator then _ else _)
        split
        · exact Slots.separate_installCurr rfl hother
        · exact Slots.separate_installNext rfl hother
      · cases hs
        exact Nat.lt_succ_self _
  | initiation x => exact hv.observe _ fun _ h => nomatch h
  | acceptInit x timestamp ip port hnew =>
      refine View.Numbered.observe (hv.setPeer_of_slots_eq x ?_) _ fun _ h => nomatch h
      rfl
  | acceptResponse x ip port =>
      refine View.Numbered.observe (hv.setPeer_of_slots_eq x ?_) _ fun _ h => nomatch h
      rfl
  | acceptCookie x => exact hv.observe _ fun _ h => nomatch h
  | resetEndpoint x => exact hv.setPeer_of_slots_eq x rfl
  | inject x packet => exact hv.observe _ fun _ h => nomatch h

/-! ### The rule -/

/-- A property of a keypair, the slot it sits in and the log. -/
abbrev KeypairProperty (cfg : Config) :=
  List (Obs cfg.maxPeers) → Fin cfg.maxPeers → Slot → Keypair cfg → Prop

/-- Every keypair in use has it. -/
def View.Each (P : KeypairProperty cfg) (v : View cfg) : Prop :=
  ∀ x s, full ((v.peers x).slots s) = true → P v.log x s ((v.peers x).slots s)

/-- What has to be checked of a property for every step at `time` to keep it. -/
structure KeypairInvariant (time : Nat) (P : KeypairProperty cfg) : Prop where
  /-- Entries about other sessions do not matter. -/
  frame : ∀ {log x s kp} (o : Obs cfg.maxPeers), P log x s kp → kp.sid ∉ o.session →
    P (o :: log) x s kp
  /-- Nor does being demoted. -/
  demote : ∀ {log x s kp}, P log x s kp → P log x .prev kp
  encrypt : ∀ {log x s kp} (lastTx : U32), P log x s kp → s ≠ .next → sendingUsable kp = true →
    sendingExhausted (sysNow time) kp = false →
    P (.encrypted x kp.sid kp.initiator kp.sendingKey kp.sendingCounter time :: log) x s
      { kp with sendingCounter := kp.sendingCounter + 1, lastTx := lastTx }
  refuse : ∀ {log x s kp} (counter : U64), P log x s kp →
    (Kernel.wgCheckReplay kp counter).1 = false →
    P (.opened x kp.sid counter false time :: log) x s kp
  accept : ∀ {log x s kp} (counter : U64), P log x s kp →
    receivingExhausted (sysNow time) kp = false → (Kernel.wgCheckReplay kp counter).1 = true →
    P (.opened x kp.sid counter true time :: log) x (if s = .next then .curr else s)
      (receivedKeypair (sysNow time) kp counter)
  start : ∀ {log x sid kp}, NewSession sid time kp → (∀ o ∈ log, sid ∉ o.session) →
    P (.started x sid kp.initiator kp.sendingKey time :: log) x
      (if kp.initiator then .curr else .next) kp

theorem View.Fresh.each {P : KeypairProperty cfg} {v : View cfg} (h : v.Fresh) : v.Each P := by
  intro x s hfull
  rw [h.slots x] at hfull
  cases hfull

theorem sendingSlot_ne_next (σ : Slots (Keypair cfg)) : sendingSlot σ ≠ .next := by
  unfold sendingSlot
  split <;> decide

/-- A peer changed, an entry added: the other peers' keypairs only see the entry. -/
theorem View.Each.update {P : KeypairProperty cfg} {v : View cfg} (he : v.Each P)
    {log : List (Obs cfg.maxPeers)} (x : Fin cfg.maxPeers) {p : PeerView cfg}
    (σ : Slots (Keypair cfg)) (hslots : p.slots = σ)
    (hothers : ∀ y t, y ≠ x → full ((v.peers y).slots t) = true →
      P v.log y t ((v.peers y).slots t) → P log y t ((v.peers y).slots t))
    (hself : ∀ t, full (σ t) = true → P log x t (σ t)) :
    View.Each P { v.setPeer x p with log := log } := by
  subst hslots
  intro y t hfull
  change full (((v.setPeer x p).peers y).slots t) = true at hfull
  show P log y t (((v.setPeer x p).peers y).slots t)
  rw [View.setPeer_peers] at hfull ⊢
  by_cases hy : y = x
  · rw [if_pos hy] at hfull ⊢
    rw [hy]
    exact hself t hfull
  · rw [if_neg hy] at hfull ⊢
    exact hothers y t hy hfull (he y t hfull)

/-- An entry about no session in the slots. -/
theorem View.Each.observe {time : Nat} {P : KeypairProperty cfg} (hP : KeypairInvariant time P)
    {v : View cfg} (he : v.Each P) (o : Obs cfg.maxPeers) (ho : o.session = none) :
    (v.observe o).Each P := by
  intro x s hfull
  refine hP.frame o (he x s hfull) ?_
  rw [ho]
  exact fun h => nomatch h

/-- A peer changed beside its slots. -/
theorem View.Each.setPeer_of_slots_eq {P : KeypairProperty cfg} {v : View cfg} (he : v.Each P)
    (x : Fin cfg.maxPeers) {p : PeerView cfg} (hslots : p.slots = (v.peers x).slots) :
    (v.setPeer x p).Each P := by
  exact View.Each.update he x _ hslots (fun _ _ _ _ h => h) (he x)

/-- A peer that lost its keypairs. -/
theorem View.Each.clear {P : KeypairProperty cfg} {v : View cfg} (he : v.Each P)
    (x : Fin cfg.maxPeers) {p : PeerView cfg} (hslots : p.slots = fun _ => Keypair.zero) :
    (v.setPeer x p).Each P := by
  refine View.Each.update he x _ hslots (fun _ _ _ _ h => h) fun t ht => ?_
  cases ht

/-- A peer whose keypair was destroyed. -/
theorem View.Each.drop {P : KeypairProperty cfg} {v : View cfg} (he : v.Each P)
    (x : Fin cfg.maxPeers) (s : Slot) :
    View.Each P (v.setPeer x
      { v.peers x with slots := (v.peers x).slots.put s Keypair.zero }) := by
  refine View.Each.update he x _ rfl (fun _ _ _ _ h => h) fun t ht => ?_
  dsimp only at ht ⊢
  obtain ⟨-, e⟩ := Slots.full_drop rfl ht
  rw [e] at ht ⊢
  exact he x t ht

/-- An entry about a session in the slots is about no keypair in another place. -/
theorem View.Numbered.not_mem_session {v : View cfg} (hv : v.Numbered) {x : Fin cfg.maxPeers}
    {s : Slot} {kp : Keypair cfg} {o : Obs cfg.maxPeers} (hkp : kp = (v.peers x).slots s)
    (hfull : full ((v.peers x).slots s) = true) (ho : o.session = some kp.sid)
    (y : Fin cfg.maxPeers) (t : Slot) (ht : full ((v.peers y).slots t) = true)
    (hne : ¬(y = x ∧ t = s)) : ((v.peers y).slots t).sid ∉ o.session := by
  intro hmem
  rw [ho, Option.mem_some_iff] at hmem
  exact hne (hv.apart y x t s ht hfull (by rw [← hkp, hmem]))

/-- Nor is the entry about a new session about any. -/
theorem View.Numbered.not_mem_started {v : View cfg} (hv : v.Numbered)
    {o : Obs cfg.maxPeers} (ho : o.session = some v.nextSid) (y : Fin cfg.maxPeers) (t : Slot)
    (ht : full ((v.peers y).slots t) = true) : ((v.peers y).slots t).sid ∉ o.session := by
  intro hmem
  have hlt := hv.lt y t ht
  rw [ho, Option.mem_some_iff] at hmem
  rw [← hmem] at hlt
  exact Nat.lt_irrefl _ hlt

section Steps

variable {time : Nat} {P : KeypairProperty cfg} {v : View cfg} {x : Fin cfg.maxPeers}
  {kp : Keypair cfg}

/-- A packet is encrypted. -/
theorem View.Each.encrypted (he : v.Each P) (hP : KeypairInvariant time P) (hv : v.Numbered)
    (lastTx : U32) (hkp : kp = (v.peers x).slots (sendingSlot (v.peers x).slots))
    (husable : sendingUsable kp = true) (hlimit : sendingExhausted (sysNow time) kp = false) :
    View.Each P ((v.setPeer x { v.peers x with
      slots := (v.peers x).slots.put (sendingSlot (v.peers x).slots)
        { kp with sendingCounter := kp.sendingCounter + 1, lastTx := lastTx } }).observe
      (.encrypted x kp.sid kp.initiator kp.sendingKey kp.sendingCounter time)) := by
  have hfull : full ((v.peers x).slots (sendingSlot (v.peers x).slots)) = true :=
    hkp ▸ sendingUsable_valid husable
  have hframe := hv.not_mem_session hkp hfull
    (o := .encrypted x kp.sid kp.initiator kp.sendingKey kp.sendingCounter time) rfl
  refine View.Each.update he x _ rfl
    (fun y t hy ht hp => hP.frame _ hp (hframe y t ht fun hc => hy hc.1)) fun t ht => ?_
  dsimp only at ht ⊢
  rcases Slots.put_cases (v.peers x).slots (sendingSlot (v.peers x).slots) t { kp with
    sendingCounter := kp.sendingCounter + 1, lastTx := lastTx } with ⟨rfl, e⟩ | ⟨hne, e⟩
  · rw [e]
    refine hP.encrypt lastTx ?_ (sendingSlot_ne_next _) husable hlimit
    rw [hkp]
    exact he x _ hfull
  · rw [e] at ht ⊢
    exact hP.frame _ (he x t ht) (hframe x t ht fun hc => hne hc.2)

/-- A datagram is refused by the replay window. -/
theorem View.Each.refused (he : v.Each P) (hP : KeypairInvariant time P) (hv : v.Numbered)
    {s : Slot} {counter : U64} (hkp : kp = (v.peers x).slots s) (hvalid : kp.valid = true)
    (hstale : (Kernel.wgCheckReplay kp counter).1 = false) :
    (v.observe (.opened x kp.sid counter false time)).Each P := by
  have hfull : full ((v.peers x).slots s) = true := by rw [← hkp]; exact hvalid
  have hframe := hv.not_mem_session hkp hfull (o := .opened x kp.sid counter false time) rfl
  intro y t ht
  by_cases hc : y = x ∧ t = s
  · obtain ⟨rfl, rfl⟩ := hc
    have hp := he y t ht
    show P _ y t ((v.peers y).slots t)
    rw [← hkp] at hp ⊢
    exact hP.refuse counter hp hstale
  · exact hP.frame _ (he y t ht) (hframe y t ht hc)

/-- What was in the slots has the property there, or as the previous keypair. -/
theorem KeypairInvariant.moved (hP : KeypairInvariant time P) {log : List (Obs cfg.maxPeers)}
    {t u : Slot} (htu : t = u ∨ t = .prev) (hp : P log x u kp) : P log x t kp := by
  rcases htu with rfl | rfl
  · exact hp
  · exact hP.demote hp

/-- A datagram is accepted. -/
theorem View.Each.accepted (he : v.Each P) (hP : KeypairInvariant time P) (hv : v.Numbered)
    {s : Slot} {counter : U64} (ip : U32) (port : U16) (hkp : kp = (v.peers x).slots s)
    (hvalid : kp.valid = true) (hlimit : receivingExhausted (sysNow time) kp = false)
    (hfresh : (Kernel.wgCheckReplay kp counter).1 = true) :
    View.Each P ((v.setPeer x { v.peers x with
      ip := ip
      port := port
      slots :=
        let σ := (v.peers x).slots.put s (receivedKeypair (sysNow time) kp counter)
        if s = .next then σ.promote Keypair.zero else σ }).observe
      (.opened x kp.sid counter true time)) := by
  have hfull : full ((v.peers x).slots s) = true := by rw [← hkp]; exact hvalid
  have hp : P v.log x s kp := by rw [hkp]; exact he x s hfull
  have hframe := hv.not_mem_session hkp hfull (o := .opened x kp.sid counter true time) rfl
  refine View.Each.update he x _ rfl
    (fun y t hy ht hp => hP.frame _ hp (hframe y t ht fun hc => hy hc.1)) fun t ht => ?_
  dsimp only at ht ⊢
  rcases full_accept ht with ⟨rfl, e⟩ | ⟨u, hu, htu, e⟩
  · rw [e]
    exact hP.accept counter hp hlimit hfresh
  · rw [e] at ht ⊢
    exact hP.moved htu (hP.frame _ (he x u ht) (hframe x u ht fun hc => hu hc.2))

/-- A session starts. -/
theorem View.Each.start (he : v.Each P) (hP : KeypairInvariant time P) (hv : v.Numbered)
    (hnew : NewSession v.nextSid time kp) :
    View.Each P (({ v with nextSid := v.nextSid + 1 }.setPeer x { v.peers x with
      slots :=
        if kp.initiator then (v.peers x).slots.installCurr Keypair.zero full kp
        else (v.peers x).slots.installNext Keypair.zero kp }).observe
      (.started x v.nextSid kp.initiator kp.sendingKey time)) := by
  have hframe := hv.not_mem_started
    (o := .started x v.nextSid kp.initiator kp.sendingKey time) rfl
  refine View.Each.update (v := { v with nextSid := v.nextSid + 1 }) he x _ rfl
    (fun y t hy ht hp => hP.frame _ hp (hframe y t ht)) fun t ht => ?_
  dsimp only at ht ⊢
  rcases full_start ht with ⟨rfl, e⟩ | ⟨u, htu, e⟩
  · rw [e]
    exact hP.start hnew fun o ho hc => Nat.lt_irrefl _ (hv.log_lt o ho _ hc)
  · rw [e] at ht ⊢
    exact hP.moved htu (hP.frame _ (he x u ht) (hframe x u ht))

end Steps

/-- **Each keypair keeps its property.** -/
theorem Micro.each_keypair {time : Nat} {P : KeypairProperty cfg} (hP : KeypairInvariant time P)
    {v w : View cfg} (h : Micro time v w) (hv : v.Numbered) (he : v.Each P) : w.Each P := by
  cases h with
  | drop x s => exact he.drop x s
  | encrypt x kp lastTx hkp husable hlimit => exact he.encrypted hP hv lastTx hkp husable hlimit
  | refuse x s kp counter hkp hvalid hstale => exact he.refused hP hv hkp hvalid hstale
  | accept x s kp counter ip port hkp hvalid hlimit hfresh =>
      exact he.accepted hP hv ip port hkp hvalid hlimit hfresh
  | start x kp hnew => exact he.start hP hv hnew
  | initiation x => exact he.observe hP _ rfl
  | acceptInit x timestamp ip port hnew =>
      refine View.Each.observe hP (he.setPeer_of_slots_eq x ?_) _ rfl
      rfl
  | acceptResponse x ip port =>
      refine View.Each.observe hP (he.setPeer_of_slots_eq x ?_) _ rfl
      rfl
  | acceptCookie x => exact he.observe hP _ rfl
  | resetEndpoint x => exact he.setPeer_of_slots_eq x rfl
  | inject x packet => exact he.observe hP _ rfl

/-! ### The log and the timestamps -/

/-- What was seen stays seen. -/
theorem Micro.log_suffix {time : Nat} {v w : View cfg} (h : Micro time v w) : v.log <:+ w.log := by
  cases h with
  | drop x s => exact List.suffix_refl _
  | resetEndpoint x => exact List.suffix_refl _
  | _ => exact List.suffix_cons _ _

theorem Path.log_suffix {time : Nat} {v w : View cfg} (h : Path time v w) : v.log <:+ w.log :=
  h.relates (R := fun v w => v.log <:+ w.log) (fun _ => List.suffix_refl _) .trans
    fun _ _ => Micro.log_suffix

/-- Each peer's greatest timestamp is at least every one accepted from it. -/
def View.Greatest (v : View cfg) : Prop :=
  ∀ x t, .initAccepted x t ∈ v.log →
    beNat t.toList ≤ beNat (v.peers x).greatestTimestamp.toList

theorem View.Fresh.greatest {v : View cfg} (h : v.Fresh) : v.Greatest := by
  intro x t ht
  rw [h.log] at ht
  cases ht

/-- An entry about no initiation, and no timestamp touched. -/
theorem View.Greatest.of_eq {v w : View cfg} (h : v.Greatest)
    (hpeers : ∀ x, (w.peers x).greatestTimestamp = (v.peers x).greatestTimestamp)
    (hlog : ∀ x t, .initAccepted x t ∈ w.log → .initAccepted x t ∈ v.log) : w.Greatest := by
  intro x t ht
  rw [hpeers x]
  exact h x t (hlog x t ht)

theorem setPeer_greatestTimestamp {v : View cfg} {x : Fin cfg.maxPeers} {p : PeerView cfg}
    (hp : p.greatestTimestamp = (v.peers x).greatestTimestamp) (y : Fin cfg.maxPeers) :
    ((v.setPeer x p).peers y).greatestTimestamp = (v.peers y).greatestTimestamp := by
  rw [View.setPeer_peers]
  split
  · rename_i hy
    rw [hp, hy]
  · rfl

/-- **The greatest timestamp is the greatest.** -/
theorem Micro.greatest {time : Nat} {v w : View cfg} (h : Micro time v w) (hv : v.Greatest) :
    w.Greatest := by
  cases h with
  | drop x s => exact hv.of_eq (setPeer_greatestTimestamp rfl) fun _ _ h => h
  | encrypt x kp lastTx => exact hv.of_eq (setPeer_greatestTimestamp rfl) fun _ _ h => by simpa using h
  | refuse x s kp counter => exact hv.of_eq (fun _ => rfl) fun _ _ h => by simpa using h
  | accept x s kp counter ip port =>
      exact hv.of_eq (setPeer_greatestTimestamp rfl) fun _ _ h => by simpa using h
  | start x kp hnew => exact hv.of_eq (setPeer_greatestTimestamp rfl) fun _ _ h => by simpa using h
  | initiation x => exact hv.of_eq (fun _ => rfl) fun _ _ h => by simpa using h
  | acceptInit x timestamp ip port hnew =>
      intro y t ht
      show beNat t.toList ≤ beNat ((v.setPeer x _).peers y).greatestTimestamp.toList
      rw [View.setPeer_peers]
      rcases List.mem_cons.mp ht with heq | ht
      · cases heq
        rw [if_pos rfl]
      · have hle := hv y t ht
        split
        · rename_i hy
          rw [hy] at hle
          exact hle.trans hnew.le
        · exact hle
  | acceptResponse x ip port =>
      exact hv.of_eq (setPeer_greatestTimestamp rfl) fun _ _ h => by simpa using h
  | acceptCookie x => exact hv.of_eq (fun _ => rfl) fun _ _ h => by simpa using h
  | resetEndpoint x => exact hv.of_eq (setPeer_greatestTimestamp rfl) fun _ _ h => h
  | inject x packet => exact hv.of_eq (fun _ => rfl) fun _ _ h => by simpa using h

/-! ### The configuration -/

/-- Nothing outside configuration adds a peer, removes one or moves its configured
endpoint. -/
theorem Micro.configured {time : Nat} {v w : View cfg} (h : Micro time v w)
    (x : Fin cfg.maxPeers) :
    (w.peers x).valid = (v.peers x).valid ∧ (w.peers x).connectIp = (v.peers x).connectIp ∧
      (w.peers x).connectPort = (v.peers x).connectPort := by
  have hset : ∀ (u : View cfg) (y : Fin cfg.maxPeers) (p : PeerView cfg),
      p.valid = (u.peers y).valid → p.connectIp = (u.peers y).connectIp →
      p.connectPort = (u.peers y).connectPort →
      ((u.setPeer y p).peers x).valid = (u.peers x).valid ∧
        ((u.setPeer y p).peers x).connectIp = (u.peers x).connectIp ∧
        ((u.setPeer y p).peers x).connectPort = (u.peers x).connectPort := by
    intro u y p hvalid hip hport
    rw [View.setPeer_peers]
    split
    · rename_i hy
      rw [hy]
      exact ⟨hvalid, hip, hport⟩
    · exact ⟨rfl, rfl, rfl⟩
  cases h with
  | refuse | initiation | acceptCookie | inject => exact ⟨rfl, rfl, rfl⟩
  | _ => exact hset _ _ _ rfl rfl rfl

/-! ### Valid keypairs receive -/

theorem receivingValid_invariant (time : Nat) :
    KeypairInvariant time fun _ _ _ (kp : Keypair cfg) => kp.receivingValid = true where
  frame := fun _ h _ => h
  demote := fun h => h
  encrypt := fun _ h _ _ _ => h
  refuse := fun _ h _ => h
  accept := by
    intro log x s kp counter h _ _
    obtain ⟨_, _, hkp⟩ := receivedKeypair_cases (sysNow time) kp counter
    rw [hkp]
    exact h
  start := fun hnew _ => hnew.receivingValid

end NuttxWireguard
