/-
The transmit queue of the in-kernel driver (`wg_tx_enqueue`, `wg_flush_tx`, `wg_down_finish`).

Datagrams are queued under the device lock; the receive thread takes them off, sends them
without the lock and counts them off later; and a shutdown that has the thread's completion
frees what is left and sets the count to zero.  The thread's completion is what makes this
exact: the thread holds no datagram any more when the count is reset, and it is alone.

A datagram that was queued is done with, in the thread's hand, or in the queue, in this order.
-/
import NuttxWireguard.Kernel.Lifecycle

namespace NuttxWireguard.Kernel.Lifecycle

open Lib

variable {cfg : Config} {c : Crypto} {s s' : Iface cfg}

/-- How many datagrams are off the queue and not yet counted off. -/
def Iface.holding (s : Iface cfg) : Nat := (s.threads.map ThreadPc.holding).sum

/-- What is off the queue and not yet sent. -/
def Iface.inHand (s : Iface cfg) : List Outbound := s.threads.flatMap ThreadPc.inHand

/-- **Every datagram is accounted for.** -/
structure Accounted (s : Iface cfg) : Prop where
  count : s.n.ntx.toNat = s.n.txqueue.length + s.holding
  quota : s.n.ntx.toNat ≤ wgTxQuota.toNat
  ledger : s.queued = s.done.map (·.1) ++ s.inHand ++ s.n.txqueue
  sent : s.n.sent = (s.done.filter (·.2 = .sent)).map (·.1)

/-! ### What the threads hold -/

/-- Threads that have posted their completion hold nothing. -/
theorem holding_posted {threads : List ThreadPc} (h : ∀ pc ∈ threads, pc.unposted = false) :
    (threads.map ThreadPc.holding).sum = 0 ∧ threads.flatMap ThreadPc.inHand = [] := by
  induction threads with
  | nil => exact ⟨rfl, rfl⟩
  | cons pc rest ih =>
      obtain ⟨hpc, hrest⟩ := List.forall_mem_cons.mp h
      obtain ⟨hsum, hflat⟩ := ih hrest
      have hnone : pc.holding = 0 ∧ pc.inHand = [] := by
        cases pc with
        | posted | exited => exact ⟨rfl, rfl⟩
        | _ => cases hpc
      rw [List.map_cons, List.sum_cons, List.flatMap_cons, hsum, hflat, hnone.1, hnone.2]
      exact ⟨rfl, rfl⟩

/-- A thread that has not posted its completion is the only one that may hold something. -/
theorem Iface.Sound.alone (h : s.Sound) {i : Nat} {pc : ThreadPc} (hi : s.threads[i]? = some pc)
    (hpc : pc.unposted = true) :
    i = 0 ∧ s.holding = pc.holding ∧ s.inHand = pc.inHand ∧ ∃ rest, s.threads = pc :: rest ∧
      ∀ pc' ∈ rest, pc'.unposted = false := by
  have hlive : s.live[i]? = some true := by
    unfold Iface.live
    rw [List.getElem?_map, hi, ← hpc]
    rfl
  obtain ⟨rfl, -, live, hcons, hrest⟩ := Sound.last h hlive
  cases hthreads : s.threads with
  | nil =>
      rw [hthreads] at hi
      cases hi
  | cons pc' rest =>
      rw [hthreads] at hi
      obtain rfl : pc' = pc := Option.some.inj hi
      unfold Iface.live at hcons
      rw [hthreads, List.map_cons] at hcons
      have hposted : ∀ t ∈ rest, t.unposted = false := by
        intro t ht
        refine hrest t.unposted ?_
        rw [← (List.cons.inj hcons).2]
        exact List.mem_map_of_mem ht
      obtain ⟨hsum, hflat⟩ := holding_posted hposted
      refine ⟨rfl, ?_, ?_, rest, rfl, hposted⟩
      · unfold Iface.holding
        rw [hthreads, List.map_cons, List.sum_cons, hsum, Nat.add_zero]
      · unfold Iface.inHand
        rw [hthreads, List.flatMap_cons, hflat, List.append_nil]

/-- **The thread holds one datagram at most.** -/
theorem holding_le (h : s.Sound) : s.holding ≤ 1 := by
  by_cases hworking : s.Working
  · obtain ⟨pc, hpc, hunposted⟩ := hworking
    obtain ⟨i, hi⟩ := List.getElem?_of_mem hpc
    rw [(h.alone hi hunposted).2.1]
    cases pc <;> simp [ThreadPc.holding]
  · have hposted : ∀ pc ∈ s.threads, pc.unposted = false := by
      intro pc hpc
      by_contra hc
      exact hworking ⟨pc, hpc, Bool.not_eq_false _ ▸ hc⟩
    unfold Iface.holding
    rw [(holding_posted hposted).1]
    exact Nat.zero_le 1

/-! ### Sections under the lock -/

/-- Where the queue stays as it is, so do the accounts. -/
theorem put_accounts {n : Netdev cfg} (h : n.txqueue = s.n.txqueue) :
    (s.put n).queued = s.queued ∧ (s.put n).done = s.done ∧ (s.put n).holding = s.holding ∧
      (s.put n).inHand = s.inHand := by
  unfold Iface.holding Iface.inHand Iface.put
  dsimp only
  rw [h, List.drop_length, List.append_nil, List.map_nil, List.append_nil]
  refine ⟨rfl, rfl, ?_, ?_⟩
  · split
    · exact Nat.zero_add _
    · rfl
  · split
    · rfl
    · rfl

theorem Accounted.put_same {n : Netdev cfg} (h : Accounted s) (hqueue : n.txqueue = s.n.txqueue)
    (hntx : n.ntx = s.n.ntx) (hsent : n.sent = s.n.sent) : Accounted (s.put n) := by
  obtain ⟨hqueued, hdone, hholding, hinHand⟩ := put_accounts hqueue
  refine ⟨?_, ?_, ?_, ?_⟩
  · rw [hholding]
    show n.ntx.toNat = n.txqueue.length + _
    rw [hqueue, hntx]
    exact h.count
  · show n.ntx.toNat ≤ _
    rw [hntx]
    exact h.quota
  · rw [hqueued, hdone, hinHand]
    show _ = _ ++ n.txqueue
    rw [hqueue]
    exact h.ledger
  · rw [hdone]
    exact hsent.trans h.sent

/-- **What is queued is added at the end**, and counted. -/
theorem Accounted.queues {n : Netdev cfg} (h : Accounted s) (hqueues : s.n.Queues n) :
    Accounted (s.put n) ∧ ∃ new, n.txqueue = s.n.txqueue ++ new ∧
      (s.put n).queued = s.queued ++ new ∧ (s.put n).done = s.done ∧
      (s.put n).threads = s.threads := by
  obtain ⟨new, htakes, hgate⟩ := hqueues
  have hqueue : n.txqueue = s.n.txqueue ++ new := congrArg Gate.txqueue hgate
  have hntx : n.ntx = s.n.ntx + BitVec.ofNat 32 new.length := congrArg Gate.ntx hgate
  have hsent : n.sent = s.n.sent := congrArg Gate.sent hgate
  have hthreads := (Lifecycle.put_same s (congrArg Gate.bifup hgate : n.bifup = s.n.bifup)).1
  have hqueued : (s.put n).queued = s.queued ++ new := by
    show s.queued ++ n.txqueue.drop s.n.txqueue.length = _
    rw [hqueue, List.drop_left]
  have hdone : (s.put n).done = s.done := by
    show s.done ++ (s.n.txqueue.drop n.txqueue.length).map _ = _
    rw [hqueue, List.length_append, List.drop_eq_nil_of_le (Nat.le_add_right _ _), List.map_nil,
      List.append_nil]
  have hholding : (s.put n).holding = s.holding := by
    unfold Iface.holding
    rw [hthreads]
  have hinHand : (s.put n).inHand = s.inHand := by
    unfold Iface.inHand
    rw [hthreads]
  have hcount : n.ntx.toNat = s.n.ntx.toNat + new.length ∧ n.ntx.toNat ≤ wgTxQuota.toNat := by
    rw [hntx]
    rcases htakes with rfl | ⟨-, hroom⟩
    · have hzero : s.n.ntx + BitVec.ofNat 32 ([] : List Outbound).length = s.n.ntx := BitVec.add_zero _
      rw [hzero]
      exact ⟨rfl, h.quota⟩
    · have hroom : s.n.ntx.toNat + new.length ≤ 4 := hroom
      rw [BitVec.toNat_add, BitVec.toNat_ofNat]
      have hquota : wgTxQuota.toNat = 4 := rfl
      omega
  have hbefore := h.count
  refine ⟨⟨?_, hcount.2, ?_, ?_⟩, new, hqueue, hqueued, hdone, hthreads⟩
  · rw [hholding]
    show n.ntx.toNat = n.txqueue.length + _
    rw [hqueue, List.length_append]
    omega
  · rw [hqueued, hdone, hinHand, h.ledger]
    show _ = _ ++ n.txqueue
    rw [hqueue, List.append_assoc]
  · rw [hdone]
    exact hsent.trans h.sent

theorem Accounted.section {n : Netdev cfg} {out : Outcome} (h : Accounted s) (hsound : s.Sound)
    (hsec : Section s.n.gate n.gate out) : Accounted (s.put n) := by
  generalize hgate : n.gate = g at hsec
  cases hsec with
  | traffic new err htakes => exact (h.queues ⟨new, htakes, hgate⟩).1
  | up | noBind | noThread | stop | busy =>
      exact h.put_same (congrArg Gate.txqueue hgate) (congrArg Gate.ntx hgate)
        (congrArg Gate.sent hgate)
  | finish hup hstopped => exact absurd hstopped (Sound.up hsound hup)

/-- **A shutdown frees what is in the queue**, and nobody holds a datagram any more. -/
theorem Accounted.reap (h : Accounted s) (hsound : s.Sound) {who i : Nat}
    (hwho : s.callers who = .woken i true) :
    Accounted (s.put (wgIfdownDone s.n)) ∧
      (s.put (wgIfdownDone s.n)).queued = (s.put (wgIfdownDone s.n)).done.map (·.1) ∧
      (s.put (wgIfdownDone s.n)).done = s.done ++ s.n.txqueue.map (·, .freed) := by
  have hposted : ∀ pc ∈ s.threads, pc.unposted = false := fun pc hpc =>
    Sound.gone hsound hwho pc.unposted (List.mem_map_of_mem hpc)
  obtain ⟨hsum, hflat⟩ := holding_posted hposted
  have hthreads := (Lifecycle.put_same s (rfl : (wgIfdownDone s.n).bifup = s.n.bifup)).1
  have hqueued : (s.put (wgIfdownDone s.n)).queued = s.queued := by
    show s.queued ++ ([] : List Outbound).drop s.n.txqueue.length = _
    rw [List.drop_nil, List.append_nil]
  have hdone : (s.put (wgIfdownDone s.n)).done = s.done ++ s.n.txqueue.map (·, .freed) := rfl
  have hholding : (s.put (wgIfdownDone s.n)).holding = 0 := by
    unfold Iface.holding
    rw [hthreads]
    exact hsum
  have hinHand : s.inHand = [] ∧ (s.put (wgIfdownDone s.n)).inHand = [] := by
    unfold Iface.inHand
    rw [hthreads]
    exact ⟨hflat, hflat⟩
  have hall : (s.put (wgIfdownDone s.n)).queued = (s.put (wgIfdownDone s.n)).done.map (·.1) := by
    have hmap : (s.n.txqueue.map fun out => (out, Fate.freed)).map (·.1) = s.n.txqueue := by
      rw [List.map_map]
      exact List.map_id _
    rw [hqueued, hdone, List.map_append, hmap, h.ledger, hinHand.1, List.append_nil]
  refine ⟨⟨?_, Nat.zero_le _, ?_, ?_⟩, hall, hdone⟩
  · rw [hholding]
    rfl
  · rw [hinHand.2, List.append_nil]
    exact hall.trans (List.append_nil _).symm
  · have hnone : (s.n.txqueue.map fun out => (out, Fate.freed)).filter (·.2 = .sent) = [] := by
      rw [List.filter_eq_nil_iff]
      intro o ho
      obtain ⟨out, -, rfl⟩ := List.mem_map.mp ho
      exact fun hc => by cases hc
    rw [hdone, List.filter_append, hnone, List.append_nil]
    exact h.sent

/-! ### The thread's steps -/

/-- A step at which the thread holds what it held before. -/
theorem held_same {i : Nat} {pc pc' : ThreadPc} (hi : s.threads[i]? = some pc)
    (hholding : pc'.holding = pc.holding) (hinHand : pc'.inHand = pc.inHand) :
    ((s.threads.set i pc').map ThreadPc.holding).sum = s.holding ∧
      (s.threads.set i pc').flatMap ThreadPc.inHand = s.inHand := by
  unfold Iface.holding Iface.inHand
  rw [map_set_same ThreadPc.holding hi hholding, List.flatMap_def,
    map_set_same ThreadPc.inHand hi hinHand]
  exact ⟨rfl, rfl⟩

/-- One at which the thread that has not posted its completion comes to hold something else. -/
theorem Iface.Sound.moves (h : s.Sound) {i : Nat} {pc : ThreadPc} (hi : s.threads[i]? = some pc)
    (hpc : pc.unposted = true) (pc' : ThreadPc) :
    s.holding = pc.holding ∧ s.inHand = pc.inHand ∧
      ((s.threads.set i pc').map ThreadPc.holding).sum = pc'.holding ∧
      (s.threads.set i pc').flatMap ThreadPc.inHand = pc'.inHand := by
  obtain ⟨rfl, hholding, hinHand, rest, hthreads, hposted⟩ := h.alone hi hpc
  obtain ⟨hsum, hflat⟩ := holding_posted hposted
  refine ⟨hholding, hinHand, ?_, ?_⟩
  · rw [hthreads, List.set_cons_zero, List.map_cons, List.sum_cons, hsum, Nat.add_zero]
  · rw [hthreads, List.set_cons_zero, List.flatMap_cons, hflat, List.append_nil]

theorem thread_accounted {i : Nat} {pc pc' : ThreadPc} (h : Accounted s) (hsound : s.Sound)
    (hi : s.threads[i]? = some pc) (hmoved : Moved s pc s' pc') :
    Accounted { s' with threads := s.threads.set i pc' } := by
  cases hmoved with
  | looks hpc hpc' =>
      obtain ⟨hsum, hflat⟩ := held_same hi (hpc'.2.2.trans hpc.2.2.symm) (hpc'.2.1.trans hpc.2.1.symm)
      refine ⟨h.count.trans (congrArg _ hsum.symm), h.quota, h.ledger.trans ?_, h.sent⟩
      exact congrArg (s.done.map (·.1) ++ · ++ s.n.txqueue) hflat.symm
  | @locked _ _ hpc hpc' n hqueues =>
      obtain ⟨hsum, hflat⟩ := held_same hi (hpc'.2.2.trans hpc.2.2.symm) (hpc'.2.1.trans hpc.2.1.symm)
      obtain ⟨haccounted, new, -, -, -, hthreads⟩ := h.queues hqueues
      have hholding : (s.put n).holding = s.holding := by
        unfold Iface.holding
        rw [hthreads]
      have hinHand : (s.put n).inHand = s.inHand := by
        unfold Iface.inHand
        rw [hthreads]
      refine ⟨haccounted.count.trans (congrArg _ (hholding.trans hsum.symm)), haccounted.quota,
        haccounted.ledger.trans ?_, haccounted.sent⟩
      exact congrArg ((s.put n).done.map (·.1) ++ · ++ n.txqueue) (hinHand.trans hflat.symm)
  | @takes j budget out rest hqueue =>
      obtain ⟨hholding, hinHand, hsum, hflat⟩ := hsound.moves hi rfl (.send j budget out)
      have hcount := h.count
      have hledger := h.ledger
      rw [hholding, hqueue] at hcount
      rw [hinHand, hqueue] at hledger
      refine ⟨hcount.trans ?_, h.quota, hledger.trans ?_, h.sent⟩
      · exact congrArg (rest.length + ·) hsum.symm
      · show _ = _ ++ List.flatMap _ _ ++ rest
        rw [hflat]
        simp [ThreadPc.inHand]
  | sends j budget out =>
      obtain ⟨hholding, hinHand, hsum, hflat⟩ := hsound.moves hi rfl (.count j budget)
      have hcount := h.count
      have hledger := h.ledger
      rw [hholding] at hcount
      rw [hinHand] at hledger
      refine ⟨hcount.trans (congrArg _ hsum.symm), h.quota, hledger.trans ?_, ?_⟩
      · show _ = (s.done ++ [(out, Fate.sent)]).map (·.1) ++ List.flatMap _ _ ++ s.n.txqueue
        rw [hflat]
        simp [ThreadPc.inHand]
      · show s.n.sent ++ [out] = _
        rw [h.sent, List.filter_append, List.map_append]
        rfl
  | counts j budget =>
      obtain ⟨hholding, hinHand, hsum, hflat⟩ := hsound.moves hi rfl (.take (j + 1) budget)
      have hcount := h.count
      have hledger := h.ledger
      have hquota := h.quota
      rw [hholding] at hcount
      rw [hinHand] at hledger
      -- the datagram was counted, so the count is not zero
      have hone : (ThreadPc.count j budget).holding = 1 := rfl
      have hless : (s.n.ntx - 1).toNat = s.n.ntx.toNat - 1 := by
        rw [BitVec.toNat_sub]
        have hlt := s.n.ntx.isLt
        rw [hone] at hcount
        have h1 : (1 : U32).toNat = 1 := rfl
        rw [h1]
        omega
      refine ⟨?_, ?_, hledger.trans ?_, h.sent⟩
      · show (s.n.ntx - 1).toNat = s.n.txqueue.length + List.sum _
        rw [hsum, hless, hcount, hone]
        exact Nat.add_sub_cancel _ _
      · show (s.n.ntx - 1).toNat ≤ _
        omega
      · exact congrArg (s.done.map (·.1) ++ · ++ s.n.txqueue) hflat.symm
  | posts =>
      obtain ⟨hsum, hflat⟩ := @held_same _ s i .post .posted hi rfl rfl
      refine ⟨h.count.trans (congrArg _ hsum.symm), h.quota, h.ledger.trans ?_, h.sent⟩
      exact congrArg (s.done.map (·.1) ++ · ++ s.n.txqueue) hflat.symm
  | leaves =>
      obtain ⟨hsum, hflat⟩ := @held_same _ s i .posted .exited hi rfl rfl
      refine ⟨h.count.trans (congrArg _ hsum.symm), h.quota, h.ledger.trans ?_, h.sent⟩
      exact congrArg (s.done.map (·.1) ++ · ++ s.n.txqueue) hflat.symm

/-! ### Every run -/

theorem call_accounted {r : Netdev cfg × Outcome} (h : Accounted s) (hsound : s.Sound)
    (hsec : Section s.n.gate r.1.gate r.2) (who : Nat) : Accounted (s.call who r) := by
  have hput := h.section hsound hsec
  unfold Iface.call
  split
  · exact hput
  · exact ⟨hput.count, hput.quota, hput.ledger, hput.sent⟩

theorem advance_accounted {e : Event cfg} (hstep : advance c s e = some s') (hsound : s.Sound)
    (h : Accounted s) : Accounted s' := by
  cases advance_advanced c hstep with
  | queues hqueues => exact (h.queues hqueues).1
  | put hsec => exact h.section hsound hsec
  | @call _ _ hsec who => exact call_accounted h hsound hsec who
  | takes | expires | waits => exact ⟨h.count, h.quota, h.ledger, h.sent⟩
  | reaps hwho =>
      have hreap := (h.reap hsound hwho).1
      exact ⟨hreap.count, hreap.quota, hreap.ledger, hreap.sent⟩
  | givesUp =>
      have hput : Accounted (s.put (wgIfdownTimeout s.n)) := h.put_same rfl rfl rfl
      exact ⟨hput.count, hput.quota, hput.ledger, hput.sent⟩
  | thread hi hmoved => exact thread_accounted h hsound hi hmoved

theorem boot_accounted (i : Nat) : Accounted (boot i : Iface cfg) :=
  ⟨rfl, Nat.zero_le _, rfl, rfl⟩

/-- A section under the lock ends no datagram's way. -/
theorem put_done {n : Netdev cfg} {out : Outcome} (hsound : s.Sound)
    (hsec : Section s.n.gate n.gate out) : (s.put n).done = s.done := by
  generalize hgate : n.gate = g at hsec
  cases hsec with
  | traffic new err htakes =>
      have hqueue : n.txqueue = s.n.txqueue ++ new := congrArg Gate.txqueue hgate
      show s.done ++ (s.n.txqueue.drop n.txqueue.length).map _ = _
      rw [hqueue, List.length_append, List.drop_eq_nil_of_le (Nat.le_add_right _ _), List.map_nil,
        List.append_nil]
  | up | noBind | noThread | stop | busy => exact (put_accounts (congrArg Gate.txqueue hgate)).2.1
  | finish hup hstopped => exact absurd hstopped (Sound.up hsound hup)

/-- What a step does to the datagrams that are done with. -/
inductive Settles (k : Taken (Iface cfg) (Event cfg)) : Prop
  | none (hdone : k.after.done = k.before.done)
  /-- The thread sends the one it holds. -/
  | sends (out : Outbound) (hdone : k.after.done = k.before.done ++ [(out, .sent)])
  /-- A `wg_ifdown` that has the completion frees all that are left. -/
  | frees (hcompletes : Completes k)
      (hdone : k.after.done = k.before.done ++ k.before.n.txqueue.map (·, .freed))
      (hall : k.after.queued = k.after.done.map (·.1))

theorem advance_settles {e : Event cfg} (hstep : advance c s e = some s') (hsound : s.Sound)
    (h : Accounted s) : Settles ⟨s, e, s'⟩ := by
  have hqueues : ∀ {n : Netdev cfg}, s.n.Queues n → (s.put n).done = s.done :=
    fun hn => put_done hsound (hn.traffic none)
  have hcall : ∀ {r : Netdev cfg × Outcome} {who : Nat}, Section s.n.gate r.1.gate r.2 →
      (s.call who r).done = s.done := by
    intro r who hsec
    have hput := put_done hsound hsec
    unfold Iface.call
    split
    · exact hput
    · exact hput
  cases advance_advanced c hstep with
  | queues hn => exact .none (hqueues hn)
  | put hsec => exact .none (put_done hsound hsec)
  | call hsec => exact .none (hcall hsec)
  | takes | expires | waits => exact .none rfl
  | reaps hwho =>
      obtain ⟨-, hall, hdone⟩ := h.reap hsound hwho
      exact .frees ⟨_, _, rfl, hwho⟩ hdone hall
  | givesUp =>
      exact .none (put_accounts (rfl : (wgIfdownTimeout s.n).txqueue = s.n.txqueue)).2.1
  | thread hi hmoved =>
      cases hmoved with
      | locked _ _ hn => exact .none (hqueues hn)
      | sends j budget out => exact .sends out rfl
      | looks | takes | counts | posts | leaves => exact .none rfl

/-- `wg_tx_enqueue` puts the datagram behind the others, or reports an error. -/
theorem txEnqueue_queued (env : Env cfg) (data : List Byte) (ip : U32) (port : U16) :
    (s.put (wgTxEnqueue env s.n data ip port).1).queued =
      if (wgTxEnqueue env s.n data ip port).2 = none then s.queued ++ [⟨data, ip, port⟩]
      else s.queued := by
  rcases wgTxEnqueue_cases env s.n data ip port with ⟨k, err, -, h⟩ | h
  · rw [h, if_neg (by simp)]
    exact (put_accounts (rfl : ({ s.n with mallocs := k } : Netdev cfg).txqueue = s.n.txqueue)).1
  · rw [h, if_pos rfl]
    show s.queued ++ (s.n.txqueue ++ [_]).drop s.n.txqueue.length = _
    rw [List.drop_left]

/-- A run accounts for every datagram that was queued. -/
structure Exact (ts : List (Taken (Iface cfg) (Event cfg))) (s : Iface cfg) : Prop where
  /-- The count is that of the queue and of what the thread holds, one at most. -/
  count : s.n.ntx.toNat = s.n.txqueue.length + s.holding
  one : s.holding ≤ 1
  quota : s.n.ntx.toNat ≤ wgTxQuota.toNat
  /-- What was queued is done with, held, or in the queue, in this order. -/
  ledger : s.queued = s.done.map (·.1) ++ s.inHand ++ s.n.txqueue
  /-- What was handed to the socket is what is done with by being sent. -/
  sent : s.n.sent = (s.done.filter (·.2 = .sent)).map (·.1)
  /-- The rest of what is done with was freed by a `wg_ifdown` that had the completion. -/
  settles : ∀ k ∈ ts, Settles k
  /-- Queued is what `wg_tx_enqueue` returned success for. -/
  enqueues : ∀ k ∈ ts, ∀ env data ip port, k.event = .txEnqueue env data ip port →
    k.after.queued = if (wgTxEnqueue env k.before.n data ip port).2 = none then
      k.before.queued ++ [⟨data, ip, port⟩] else k.before.queued

/-- **However the queue's users are interleaved**, every datagram is accounted for. -/
theorem txqueue_exact {s₀ s : Iface cfg} {ts : List (Taken (Iface cfg) (Event cfg))}
    (h0 : Initial s₀) (h : Run (advance c) s₀ ts s) : Exact ts s := by
  obtain ⟨i, rfl⟩ := h0
  obtain ⟨⟨hsound, haccounted⟩, hall⟩ := h.invariant (I := fun s => s.Sound ∧ Accounted s)
    ⟨boot_sound i, boot_accounted i⟩
    fun k _ hstep hk => ⟨advance_sound hstep hk.1, advance_accounted hstep hk.1 hk.2⟩
  refine ⟨haccounted.count, holding_le hsound, haccounted.quota, haccounted.ledger,
    haccounted.sent, fun k hk => ?_, fun k hk env data ip port hevent => ?_⟩
  · obtain ⟨⟨hbefore, hbooks⟩, -⟩ := hall k hk
    exact advance_settles (h.step_of_mem hk) hbefore hbooks
  · have hstep := h.step_of_mem hk
    rw [hevent] at hstep
    rw [← Option.some.inj hstep]
    exact txEnqueue_queued env data ip port

/-! ### A shutdown while a datagram is being sent -/

namespace Sample

open NuttxWireguard.Sample Kernel.Sample

/-- Two datagrams are queued; the thread sends the first one while the interface goes down, and
the second one is freed. -/
def sendsOne : List (Event config) :=
  [.setIf 0 (env 1000) keyReq, .ifup (env 1000),
    .txEnqueue (env 1001) [1, 2, 3] (address 9 9 9 9) 1234,
    .txEnqueue (env 1001) [4, 5] (address 9 9 9 9) 1234] ++
  -- the thread looks for datagrams and runs the timers, and takes the first one
  List.replicate 7 (.thread 0 (io 1001)) ++
  [.ifdown 0] ++
  -- it sends and counts it off, leaves its loop and posts its completion
  List.replicate 5 (.thread 0 (io 1001)) ++
  [.took 0, .relock 0]

end Sample

/-- The run in which one datagram is sent and one freed. -/
theorem txqueue_exact_sample : ∃ ts s,
    Run (advance Crypto.plain) (boot 0 : Iface Sample.config) ts s ∧
    s.n.sent.map (·.data) = [[1, 2, 3]] ∧ s.done.map (·.2) = [.sent, .freed] ∧ Exact ts s := by
  have hrun : (steps (advance Crypto.plain) (boot 0) Sample.sendsOne).any (fun r =>
      decide (r.2.n.sent.map (·.data) = [[1, 2, 3]] ∧ r.2.done.map (·.2) = [.sent, .freed])) =
        true := by
    decide +kernel
  obtain ⟨⟨ts, s⟩, hsteps, hends⟩ := (Option.any_eq_true _ _).mp hrun
  obtain ⟨hsent, hdone⟩ := of_decide_eq_true hends
  exact ⟨ts, s, .of_steps hsteps, hsent, hdone, txqueue_exact ⟨0, rfl⟩ (.of_steps hsteps)⟩

end NuttxWireguard.Kernel.Lifecycle
