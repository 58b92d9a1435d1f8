/-
What the port builds a handshake message from.

`wireguard_random_bytes` tells nobody when `/dev/urandom` does not deliver: it fills the rest
with zeros.  An ephemeral key is used as it comes out, and since it is clamped before it is
looked at, it is never taken for a missing one.  An index made of zeros is drawn again, so on
a device that delivers nothing the drawing does not end.

The bytes a message is built from are then the device's own exactly if the first call, for the
key, is filled, and so is the call whose value ends the drawing.
-/
import NuttxWireguard.Flat.Indices
import NuttxWireguard.Flat.System
import NuttxWireguard.Transcript
import NuttxWireguard.Lib.ShortRead

namespace NuttxWireguard.Flat

open Lib

variable {cfg : Config} (c : Crypto)

/-! ### The random source -/

/-- `/dev/urandom` during one call: whether it opens, and what each read delivers.  A read that
fails delivers nothing. -/
structure Urandom where
  opens : Bool
  reads : ℕ → List Byte

/-- The bytes the device delivers to one call. -/
def Urandom.delivered (u : Urandom) (size : ℕ) : List Byte :=
  if u.opens then readFull u.reads size size 0 [] else []

theorem Urandom.delivered_length_le (u : Urandom) (size : ℕ) :
    (u.delivered size).length ≤ size := by
  unfold Urandom.delivered
  split
  · exact readFull_length_le size 0 (Nat.zero_le size)
  · exact Nat.zero_le size

/-- `wireguard_random_bytes`: what is missing is zero. -/
def wireguardRandomBytes (u : Urandom) (size : ℕ) : Bytes size :=
  ⟨u.delivered size ++ List.replicate (size - (u.delivered size).length) 0, by
    have h := u.delivered_length_le size
    rw [List.length_append, List.length_replicate]
    omega⟩

/-- Nothing is missing. -/
def Urandom.Fills (u : Urandom) (size : ℕ) : Prop := (u.delivered size).length = size

instance (u : Urandom) (size : ℕ) : Decidable (u.Fills size) :=
  inferInstanceAs (Decidable (_ = _))

theorem Urandom.Fills.toList_eq {u : Urandom} {size : ℕ} (h : u.Fills size) :
    (wireguardRandomBytes u size).toList = u.delivered size := by
  unfold Urandom.Fills at h
  show u.delivered size ++ List.replicate (size - (u.delivered size).length) 0 = u.delivered size
  rw [h, Nat.sub_self, List.replicate_zero, List.append_nil]

/-! ### Drawing from it

A message takes one call for its key, and one for each index drawn.
-/

/-- The ephemeral key the first call makes. -/
def ephemeralKey (pattern : ℕ → Urandom) : Key :=
  Crypto.clamp (wireguardRandomBytes (pattern 0) 32)

/-- The value of the `k`-th draw. -/
def drawnIndex (pattern : ℕ → Urandom) (k : ℕ) : U32 :=
  readLe 32 (wireguardRandomBytes (pattern (k + 1)) 4).toList

/-- The environment after `n` draws. -/
def Env.fromUrandom (env : Env cfg) (pattern : ℕ → Urandom) (n : ℕ) : Env cfg :=
  { env with
    ephemeral := fun _ => wireguardRandomBytes (pattern 0) 32
    draws := fun _ => (List.range n).map fun k => wireguardRandomBytes (pattern (k + 1)) 4 }

section Drawing

variable {d : Device cfg} {pattern : ℕ → Urandom} {index : U32}

open Classical in
theorem generateUniqueIndex_eq_find (d : Device cfg) (draws : List (Bytes 4)) :
    wireguardGenerateUniqueIndex d draws =
      (draws.map fun buf => readLe 32 buf.toList).find? fun index => decide (¬Redrawn d index) := by
  induction draws with
  | nil => rfl
  | cons buf draws ih =>
      by_cases h : Redrawn d (readLe 32 buf.toList)
      · rw [generateUniqueIndex_redrawn h, ih, List.map_cons,
          List.find?_cons_of_neg (by simpa using h)]
      · rw [generateUniqueIndex_taken h, List.map_cons, List.find?_cons_of_pos (by simpa using h)]

variable (d pattern) in
/-- What `n` draws come to. -/
def indexAfter (n : ℕ) : Option U32 :=
  wireguardGenerateUniqueIndex d
    ((List.range n).map fun k => wireguardRandomBytes (pattern (k + 1)) 4)

open Classical in
theorem indexAfter_eq_find (n : ℕ) : indexAfter d pattern n =
    ((List.range n).find? fun k => decide (¬Redrawn d (drawnIndex pattern k))).map
      (drawnIndex pattern) := by
  unfold indexAfter
  rw [generateUniqueIndex_eq_find, List.map_map, List.find?_map]
  rfl

/-- The drawing goes on while every value is refused. -/
theorem indexAfter_eq_none_iff {n : ℕ} : indexAfter d pattern n = none ↔
    ∀ k < n, Redrawn d (drawnIndex pattern k) := by
  rw [indexAfter_eq_find, Option.map_eq_none_iff, List.find?_range_eq_none]
  simp

/-- It ends with the first one that is not. -/
theorem indexAfter_eq_some_iff {n : ℕ} : indexAfter d pattern n = some index ↔
    ∃ k < n, (∀ j < k, Redrawn d (drawnIndex pattern j)) ∧
      ¬Redrawn d (drawnIndex pattern k) ∧ drawnIndex pattern k = index := by
  rw [indexAfter_eq_find, Option.map_eq_some_iff]
  refine exists_congr fun k => ?_
  simp only [List.find?_range_eq_some, List.mem_range, decide_eq_true_eq]
  constructor
  · rintro ⟨⟨hproper, hk, hrefused⟩, hindex⟩
    exact ⟨hk, fun j hj => by simpa using hrefused j hj, hproper, hindex⟩
  · rintro ⟨hk, hrefused, hproper, hindex⟩
    exact ⟨⟨hproper, hk, fun j hj => by simpa using hrefused j hj⟩, hindex⟩

/-! ### What a message is built from -/

/-- What is known of a message's random values: the call for the key was filled, and so was the
`k`-th draw, and both are used as delivered. -/
structure BuiltFrom (pattern : ℕ → Urandom) (k : ℕ) (ephemeralPrivate ephemeral : Key)
    (sender : U32) : Prop where
  ephemeral : ∃ key : Key, key.toList = (pattern 0).delivered 32 ∧
    ephemeralPrivate = Crypto.clamp key ∧ c.generatePublicKey (Crypto.clamp key) = some ephemeral
  sender : ∃ buf : Bytes 4, buf.toList = (pattern (k + 1)).delivered 4 ∧
    readLe 32 buf.toList = sender

variable {Msg : Type}

/-- The function returns, and a message it returns is built from what the device delivered.
`run n` is what it returns if `n` draws are enough; `values` are a message's own random
values. -/
def EntropySound (x : Fin cfg.maxPeers) (pattern : ℕ → Urandom) (values : Msg → Key × U32)
    (run : ℕ → Option (Device cfg × Option Msg)) : Prop :=
  (∃ n, (run n).isSome) ∧
    ∀ n d' msg, run n = some (d', some msg) → ∃ k < n, run k = none ∧ run (k + 1) = run n ∧
      BuiltFrom c pattern k (d'.peers x).handshake.ephemeralPrivate (values msg).1 (values msg).2

/-- The key is filled, and so is the first value that is not refused. -/
def EntropySuffices (d : Device cfg) (pattern : ℕ → Urandom) : Prop :=
  (pattern 0).Fills 32 ∧ ∃ k, (pattern (k + 1)).Fills 4 ∧
    ¬Redrawn d (drawnIndex pattern k) ∧ ∀ j < k, Redrawn d (drawnIndex pattern j)

/-- A function that draws an index and then has a message, under the key of the first call. -/
structure DrawsIndex (d : Device cfg) (x : Fin cfg.maxPeers) (pattern : ℕ → Urandom)
    (values : Msg → Key × U32) (run : ℕ → Option (Device cfg × Option Msg)) where
  sent : U32 → Device cfg × Msg
  run_eq : ∀ n, run n = (indexAfter d pattern n).map fun index =>
    ((sent index).1, some (sent index).2)
  ephemeralPrivate : ∀ index, ((sent index).1.peers x).handshake.ephemeralPrivate =
    Crypto.clamp (wireguardRandomBytes (pattern 0) 32)
  ephemeral : ∀ index, c.generatePublicKey (Crypto.clamp (wireguardRandomBytes (pattern 0) 32)) =
    some (values (sent index).2).1
  sender : ∀ index, (values (sent index).2).2 = index

variable {x : Fin cfg.maxPeers} {values : Msg → Key × U32}
  {run : ℕ → Option (Device cfg × Option Msg)}

variable {c}

/-- What is used as delivered was filled. -/
theorem Urandom.Fills.of_toList {u : Urandom} {size : ℕ} {buf : Bytes size}
    (h : buf.toList = u.delivered size) : u.Fills size := by
  unfold Urandom.Fills
  rw [← h, List.Vector.toList_length]

/-- Where the draws end is where an index is not refused. -/
theorem DrawsIndex.ends_at (h : DrawsIndex c d x pattern values run) {k : ℕ} (hnone : run k = none)
    (hsome : run (k + 1) ≠ none) : ¬Redrawn d (drawnIndex pattern k) ∧
      ∀ j < k, Redrawn d (drawnIndex pattern j) := by
  rw [h.run_eq, Option.map_eq_none_iff, indexAfter_eq_none_iff] at hnone
  refine ⟨fun hk => hsome ?_, hnone⟩
  rw [h.run_eq, Option.map_eq_none_iff, indexAfter_eq_none_iff]
  intro j hj
  rcases Nat.lt_succ_iff_lt_or_eq.mp hj with hlt | rfl
  · exact hnone j hlt
  · exact hk

theorem DrawsIndex.run_at (h : DrawsIndex c d x pattern values run) {k n : ℕ} (hkn : k < n)
    (hproper : ¬Redrawn d (drawnIndex pattern k))
    (hrefused : ∀ j < k, Redrawn d (drawnIndex pattern j)) :
    run n = some ((h.sent (drawnIndex pattern k)).1, some (h.sent (drawnIndex pattern k)).2) := by
  rw [h.run_eq, indexAfter_eq_some_iff.mpr ⟨k, hkn, hrefused, hproper, rfl⟩]
  rfl

/-- **A function that draws is sound exactly if the device delivers.** -/
theorem DrawsIndex.sound_iff (h : DrawsIndex c d x pattern values run) :
    EntropySound c x pattern values run ↔ EntropySuffices d pattern := by
  constructor
  · rintro ⟨⟨n, hn⟩, hbuilt⟩
    obtain ⟨r, hr⟩ := Option.isSome_iff_exists.mp hn
    obtain ⟨index, -, rfl⟩ := Option.map_eq_some_iff.mp ((h.run_eq n).symm.trans hr)
    obtain ⟨k, -, hnone, hlast, hfrom⟩ := hbuilt n _ _ hr
    obtain ⟨key, hkey, -, -⟩ := hfrom.ephemeral
    obtain ⟨buf, hbuf, -⟩ := hfrom.sender
    have hsome : run (k + 1) ≠ none := by simp [hlast, hr]
    exact ⟨Urandom.Fills.of_toList hkey, k, Urandom.Fills.of_toList hbuf, h.ends_at hnone hsome⟩
  · rintro ⟨hkey, k, hindex, hproper, hrefused⟩
    have hnone : run k = none := by
      rw [h.run_eq, indexAfter_eq_none_iff.mpr hrefused]
      rfl
    have hend := h.run_at k.lt_succ_self hproper hrefused
    refine ⟨⟨k + 1, by simp [hend]⟩, ?_⟩
    intro n d' msg hrun
    have hkn : k < n := by
      by_contra hle
      rw [h.run_eq, indexAfter_eq_none_iff.mpr fun j hj => hrefused j (by omega)] at hrun
      exact absurd hrun.symm (Option.some_ne_none _)
    have hn := h.run_at hkn hproper hrefused
    obtain ⟨rfl, rfl⟩ : d' = (h.sent (drawnIndex pattern k)).1 ∧
        msg = (h.sent (drawnIndex pattern k)).2 := by
      rw [hn] at hrun
      simpa [eq_comm] using hrun
    refine ⟨k, hkn, hnone, hend.trans hn.symm, ?_, ?_⟩
    · exact ⟨_, hkey.toList_eq, h.ephemeralPrivate _, h.ephemeral _⟩
    · exact ⟨_, hindex.toList_eq, (h.sender _).symm⟩

/-- A message under the key of the first call, with the index drawn in the record. -/
theorem sound_iff_of_drawn {ephemeral : Key} (hs : Handshake) (sign : U32 → Msg)
    (hkey : hs.ephemeralPrivate = ephemeralKey pattern)
    (hpublic : c.generatePublicKey (ephemeralKey pattern) = some ephemeral)
    (hsign : ∀ sender, values (sign sender) = (ephemeral, sender))
    (hrun : ∀ n, run n = (indexAfter d pattern n).map fun sender =>
      (d.setPeer x { d.peers x with handshake := { hs with localIndex := sender } },
        some (sign sender))) :
    EntropySound c x pattern values run ↔ EntropySuffices d pattern := by
  let sent (sender : U32) : Device cfg × Msg :=
    (d.setPeer x { d.peers x with handshake := { hs with localIndex := sender } }, sign sender)
  have hstored : ∀ sender, ((sent sender).1.peers x).handshake.ephemeralPrivate =
      ephemeralKey pattern := by
    intro sender
    dsimp only [sent]
    rw [Device.setPeer_peers_self]
    exact hkey
  have hephemeral : ∀ sender, c.generatePublicKey (ephemeralKey pattern) =
      some (values (sent sender).2).1 := by
    intro sender
    rw [hpublic, hsign]
  have hsender : ∀ sender, (values (sent sender).2).2 = sender := by
    intro sender
    rw [hsign]
  exact DrawsIndex.sound_iff
    { sent := sent, run_eq := hrun, ephemeralPrivate := hstored, ephemeral := hephemeral
      sender := hsender }

/-- One that returns without a message is sound. -/
theorem entropySound_of_failed {d' : Device cfg} (h : ∀ n, run n = some (d', none)) :
    EntropySound c x pattern values run := by
  refine ⟨⟨0, by rw [h]; rfl⟩, ?_⟩
  intro n e msg hrun
  rw [h] at hrun
  cases hrun

end Drawing

/-! ### The two messages -/

variable (env : Env cfg) (d : Device cfg) (x : Fin cfg.maxPeers) (pattern : ℕ → Urandom)

/-- `wireguard_create_handshake_initiation`, if `n` draws are enough. -/
def initiationRun (n : ℕ) : Option (Device cfg × Option MsgInit) :=
  wireguardCreateHandshakeInitiation c (env.fromUrandom pattern n) d x

/-- `wireguard_create_handshake_response`, if `n` draws are enough. -/
def responseRun (n : ℕ) : Option (Device cfg × Option MsgResponse) :=
  wireguardCreateHandshakeResponse c (env.fromUrandom pattern n) d x

/-- No step before the index of an initiation fails. -/
def InitiationKeyed : Prop :=
  (c.generatePublicKey (ephemeralKey pattern)).isSome ∧
    (c.dh (ephemeralKey pattern) (d.peers x).publicKey).isSome

/-- No step before the index of a response fails. -/
def ResponseKeyed : Prop :=
  ((d.peers x).handshake.valid ∧ ¬(d.peers x).handshake.initiator) ∧
    (c.generatePublicKey (ephemeralKey pattern)).isSome ∧
    (c.dh (ephemeralKey pattern) (d.peers x).handshake.remoteEphemeral).isSome ∧
    (c.dh (ephemeralKey pattern) (d.peers x).publicKey).isSome

/-! An initiation whose keys cannot be made is given up before an index is drawn. -/

theorem initiation_failed (h : ¬InitiationKeyed c d x pattern) :
    ∃ d', ∀ n, initiationRun c env d x pattern n = some (d', none) := by
  unfold InitiationKeyed ephemeralKey at h
  unfold initiationRun wireguardCreateHandshakeInitiation Env.fromUrandom
  dsimp only
  cases hpublic : c.generatePublicKey (Crypto.clamp (wireguardRandomBytes (pattern 0) 32)) with
  | none => exact ⟨_, fun n => rfl⟩
  | some ephemeral =>
      have hdh : c.dh (Crypto.clamp (wireguardRandomBytes (pattern 0) 32))
          (d.peers x).publicKey = none := by simpa [hpublic] using h
      dsimp only
      unfold initiate
      dsimp only
      rw [hdh]
      exact ⟨_, fun n => rfl⟩

theorem initiation_drawn (h : InitiationKeyed c d x pattern) :
    EntropySound c x pattern (fun msg => (msg.ephemeral, msg.sender))
      (initiationRun c env d x pattern) ↔ EntropySuffices d pattern := by
  obtain ⟨hpublic, hdh⟩ := h
  obtain ⟨ephemeral, hpublic⟩ := Option.isSome_iff_exists.mp hpublic
  obtain ⟨es, hdh⟩ := Option.isSome_iff_exists.mp hdh
  unfold ephemeralKey at hpublic hdh
  let m := sealedInit c (d.peers x).publicKey ephemeral d.publicKey es (d.peers x).publicKeyDh
    (env.timestamp x)
  refine sound_iff_of_drawn
    { (d.peers x).handshake with
      ephemeralPrivate := ephemeralKey pattern
      chainingKey := m.chainingKey
      hash := m.hash
      valid := true
      initiator := true }
    (fun sender => signInit c env.now (d.peers x) sender ephemeral (m.encStatic, m.encTimestamp))
    rfl hpublic (fun _ => rfl) fun n => ?_
  unfold initiationRun wireguardCreateHandshakeInitiation Env.fromUrandom
  dsimp only
  rw [hpublic]
  dsimp only
  rw [initiate_eq rfl rfl hdh rfl]
  dsimp only
  unfold indexAfter
  cases wireguardGenerateUniqueIndex d
    ((List.range n).map fun k => wireguardRandomBytes (pattern (k + 1)) 4) <;> rfl

theorem response_failed (h : ¬ResponseKeyed c d x pattern) :
    ∃ d', ∀ n, responseRun c env d x pattern n = some (d', none) := by
  unfold ResponseKeyed ephemeralKey at h
  unfold responseRun wireguardCreateHandshakeResponse Env.fromUrandom
  dsimp only
  by_cases hready : (d.peers x).handshake.valid ∧ ¬(d.peers x).handshake.initiator
  · cases hpublic : c.generatePublicKey (Crypto.clamp (wireguardRandomBytes (pattern 0) 32)) with
    | none => exact ⟨_, fun n => (if_neg (not_not_intro hready)).trans rfl⟩
    | some ephemeral =>
        dsimp only
        unfold respond
        dsimp only
        cases hee : c.dh (Crypto.clamp (wireguardRandomBytes (pattern 0) 32))
            (d.peers x).handshake.remoteEphemeral with
        | none => exact ⟨_, fun n => (if_neg (not_not_intro hready)).trans rfl⟩
        | some ee =>
            have hse : c.dh (Crypto.clamp (wireguardRandomBytes (pattern 0) 32))
                (d.peers x).publicKey = none := by simpa [hready, hpublic, hee] using h
            dsimp only
            rw [hse]
            exact ⟨_, fun n => (if_neg (not_not_intro hready)).trans rfl⟩
  · exact ⟨_, fun n => if_pos hready⟩

theorem response_drawn (h : ResponseKeyed c d x pattern) :
    EntropySound c x pattern (fun msg => (msg.ephemeral, msg.sender))
      (responseRun c env d x pattern) ↔ EntropySuffices d pattern := by
  obtain ⟨hready, hpublic, hee, hse⟩ := h
  obtain ⟨ephemeral, hpublic⟩ := Option.isSome_iff_exists.mp hpublic
  obtain ⟨ee, hee⟩ := Option.isSome_iff_exists.mp hee
  obtain ⟨se, hse⟩ := Option.isSome_iff_exists.mp hse
  unfold ephemeralKey at hpublic hee hse
  let m := sealedResponse c (d.peers x).handshake.hash (d.peers x).handshake.chainingKey ephemeral
    ee se (d.peers x).presharedKey
  refine sound_iff_of_drawn
    { (d.peers x).handshake with
      ephemeralPrivate := ephemeralKey pattern
      chainingKey := m.chainingKey
      hash := c.mixHash m.hash m.encEmpty.toList }
    (fun sender => signResponse c env.now (d.peers x) sender (d.peers x).handshake.remoteIndex
      ephemeral m.encEmpty)
    rfl hpublic (fun _ => rfl) fun n => ?_
  unfold responseRun wireguardCreateHandshakeResponse Env.fromUrandom
  dsimp only
  rw [if_neg (not_not_intro hready), hpublic]
  dsimp only
  rw [respond_eq hee hse]
  dsimp only
  unfold indexAfter
  cases wireguardGenerateUniqueIndex d
    ((List.range n).map fun k => wireguardRandomBytes (pattern (k + 1)) 4) <;> rfl

/-- **Both functions return, and build messages from the device's own bytes, exactly if the
device delivers whenever an index is to be drawn.** -/
theorem entropySound_iff :
    (EntropySound c x pattern (fun msg => (msg.ephemeral, msg.sender))
        (initiationRun c env d x pattern) ↔
      (InitiationKeyed c d x pattern → EntropySuffices d pattern)) ∧
    (EntropySound c x pattern (fun msg => (msg.ephemeral, msg.sender))
        (responseRun c env d x pattern) ↔
      (ResponseKeyed c d x pattern → EntropySuffices d pattern)) := by
  constructor
  · by_cases h : InitiationKeyed c d x pattern
    · rw [initiation_drawn c env d x pattern h]
      exact ⟨fun hs _ => hs, fun hs => hs h⟩
    · obtain ⟨d', hfailed⟩ := initiation_failed c env d x pattern h
      exact iff_of_true (entropySound_of_failed hfailed) fun hc => absurd hc h
  · by_cases h : ResponseKeyed c d x pattern
    · rw [response_drawn c env d x pattern h]
      exact ⟨fun hs _ => hs, fun hs => hs h⟩
    · obtain ⟨d', hfailed⟩ := response_failed c env d x pattern h
      exact iff_of_true (entropySound_of_failed hfailed) fun hc => absurd hc h

/-- A device that cannot be opened. -/
def Sample.closed : Urandom := ⟨false, fun _ => []⟩

/-- On a port whose device cannot be opened an initiation is never finished. -/
theorem not_entropySound :
    ¬∀ (cfg : Config) (c : Crypto) (env : Env cfg) (n : Netdev cfg) (x : Fin cfg.maxPeers)
      (pattern : ℕ → Urandom), ReachableState c n →
      EntropySound c x pattern (fun msg => (msg.ephemeral, msg.sender))
          (initiationRun c env n.wg x pattern) ∧
        EntropySound c x pattern (fun msg => (msg.ephemeral, msg.sender))
          (responseRun c env n.wg x pattern) := by
  intro hall
  obtain ⟨n, hreach, hkeyed⟩ := Sample.exists_reachable []
    (fun n =>
      (Crypto.plain.generatePublicKey (ephemeralKey fun _ => Sample.closed)).isSome &&
        (Crypto.plain.dh (ephemeralKey fun _ => Sample.closed)
          (n.peer Sample.first).publicKey).isSome)
    (by decide +kernel)
  have hkeyed : InitiationKeyed Crypto.plain n.wg Sample.first fun _ => Sample.closed :=
    (Bool.and_eq_true _ _).mp hkeyed
  have hsound := (hall _ Crypto.plain (Sample.env 1001) n Sample.first (fun _ => Sample.closed)
    hreach).1
  have hfills := ((initiation_drawn _ _ _ _ _ hkeyed).mp hsound).1
  exact absurd hfills (by decide)

end NuttxWireguard.Flat
