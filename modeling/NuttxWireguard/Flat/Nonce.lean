/-
The flat port never uses a nonce twice.

The nonce of a transport packet is its counter, so the pair to look at is the sending key
and the counter.  `SentOnce` has the counters of one session strictly increasing; what is
left is that two sessions do not share a key.  That is an assumption on the handshake: a
session consumes the handshake it was derived from, and distinct handshakes derive
distinct keys.
-/
import NuttxWireguard.Flat.Steps
import NuttxWireguard.Counters

namespace NuttxWireguard

open Lib

variable {cfg : Config}

/-- The sending key and the counter of an encryption. -/
def Obs.nonce {n : Nat} (o : Obs n) : Option (Key × U64) := o.encryption.map (·.2)

/-- Sessions were derived with distinct sending keys. -/
def DistinctKeys {n : Nat} (log : List (Obs n)) : Prop :=
  ∀ x y sid sid' i i' key time time', .started x sid i key time ∈ log →
    .started y sid' i' key time' ∈ log → sid = sid'

/-- With distinct keys, increasing counters make distinct nonces. -/
theorem SentOnce.nonce_nodup {n : Nat} {log : List (Obs n)} (h : SentOnce log)
    (hkeys : DistinctKeys log) : (log.filterMap Obs.nonce).Nodup := by
  refine List.pairwise_filterMap.mpr (h.increasing.imp_of_mem ?_)
  intro newer older hn ho hlt a ha b hb hab
  subst hab
  obtain ⟨⟨sid, key, counter⟩, he, rfl⟩ := Option.map_eq_some_iff.mp ha
  obtain ⟨⟨sid', key', counter'⟩, he', hk⟩ := Option.map_eq_some_iff.mp hb
  cases hk
  obtain ⟨x, i, t, hs⟩ := h.started newer hn sid key counter he
  obtain ⟨y, i', t', hs'⟩ := h.started older ho sid' key counter he'
  obtain rfl := hkeys _ _ _ _ _ _ _ _ _ hs hs'
  exact BitVec.lt_irrefl counter (hlt _ _ _ _ _ he he')

namespace Flat

variable (c : Crypto)

theorem ReachableState.sound {n : Netdev cfg} (h : ReachableState c n) : n.view.Sound :=
  h.view_invariant c (fun _ => View.Fresh.sound) (fun _ _ _ => Micro.sound)

/-- **No nonce is used twice.**  In every run the pairs of sending key and counter are all
distinct, no counter reaches the limit, the counters of each session go up, and the
keypair of a session, in whichever slot it is, has counted them all. -/
theorem nonce_unique {n : Netdev cfg} (h : ReachableState c n) (hkeys : DistinctKeys n.log) :
    (n.log.filterMap Obs.nonce).Nodup ∧
    (∀ o ∈ n.log, ∀ key counter, o.nonce = some (key, counter) →
      counter < rejectAfterMessages) ∧
    (n.log.Pairwise fun newer older => ∀ sid key key' counter counter',
      newer.encryption = some (sid, key, counter) →
      older.encryption = some (sid, key', counter') → counter' < counter) ∧
    ∀ x s, ((n.peer x).keypair s).valid = true →
      ((n.peer x).keypair s).sendingCounter.toNat
        = (countersSent ((n.peer x).keypair s).sid n.log).length ∧
      ∀ counter ∈ countersSent ((n.peer x).keypair s).sid n.log,
        counter < ((n.peer x).keypair s).sendingCounter := by
  have hsound := h.sound
  refine ⟨hsound.sentOnce.nonce_nodup hkeys, ?_, hsound.sentOnce.increasing, fun x s hvalid => ?_⟩
  · intro o ho key counter he
    obtain ⟨⟨sid, key', counter'⟩, he', hk⟩ := Option.map_eq_some_iff.mp he
    cases hk
    exact hsound.sentOnce.limit o ho sid key counter he'
  · have hsending := hsound.sending x s hvalid
    exact ⟨hsending.count, hsending.below⟩

/-- A run with three encryptions in it, of which one does not get out. -/
theorem nonce_unique_sample :
    ∃ n : Netdev Sample.config, (n.log.filterMap Obs.nonce).length = 3 ∧
      (n.log.filterMap Obs.nonce).Nodup := by
  obtain ⟨n, hn, hrun⟩ := Sample.exists_reachable [Sample.rxInitiation 1001,
      Sample.rxData 1002 0 (Sample.packet 5), Sample.send 1003,
      .txpoll { Sample.env 1004 with sendto := fun _ => false } (Sample.packet 1), Sample.send 1005]
    (fun n => n.log.all (fun o => o.session = none ∨ o.session = some 0) &&
      decide ((n.log.filterMap Obs.nonce).length = 3)) (by decide +kernel)
  simp only [Bool.and_eq_true, List.all_eq_true, decide_eq_true_eq] at hrun
  refine ⟨n, hrun.2, (nonce_unique Crypto.plain hn ?_).1⟩
  intro x y sid sid' i i' key time time' hs hs'
  have h0 : some sid = some 0 := (hrun.1 _ hs).resolve_left (by simp [Obs.session])
  have h0' : some sid' = some 0 := (hrun.1 _ hs').resolve_left (by simp [Obs.session])
  exact Option.some.inj (h0.trans h0'.symm)

end Flat

end NuttxWireguard
