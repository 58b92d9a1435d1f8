/-
The staged peers as a map (`wg_set_peer`, `wg_remove_peer`).

The table stands for a map from public keys to what was said of each peer, in the order the
peers were first named in.  A set updates the fields it gives of a peer that is there, and
puts a new one behind the others; a remove takes a peer out.

The code looks a peer up by the text of its key, and a key of 32 bytes has four texts: the
last character in front of the padding carries two bits that nothing reads.  The table is
the map's as long as no request spells the key of a staged peer in another way.
-/
import NuttxWireguard.Flat.Staged
import NuttxWireguard.Lib.Registry

namespace NuttxWireguard.Flat

open Lib

/-! ### The map -/

/-- What is known of a peer besides its key. -/
structure Settings where
  /-- Address and port. -/
  endpoint : Option (U32 × U16)
  /-- Address and mask, as far as they can be read. -/
  allowed : Option U32 × Option U32
  keepalive : Option (BitVec 32)

/-- What a request gives. -/
structure Given where
  endpoint : Option (U32 × U16)
  allowed : Option (U32 × U32)
  keepalive : Option (BitVec 32)

/-- The fields that are given, and the others as they were. -/
def Settings.update (s : Settings) (g : Given) : Settings where
  endpoint := g.endpoint.or s.endpoint
  allowed := (g.allowed.map fun net => (some net.1, some net.2)).getD s.allowed
  keepalive := g.keepalive.or s.keepalive

/-- Peers by their keys, in the order they came in. -/
abbrev PeerMap := Registry Key Settings

/-- A set: a peer that is there is updated; a new one needs room. -/
def PeerMap.set (maxPeers : Nat) (initial : Settings) (m : PeerMap) (key : Key) (g : Given) :
    Option PeerMap :=
  if h : key ∈ m then (m.lookup key).map fun s => m.replace key (s.update g)
  else if m.entries.length ≥ maxPeers then none
  else some (m.push key (initial.update g) h)

/-- A remove. -/
def PeerMap.remove (m : PeerMap) (key : Key) : Option PeerMap :=
  if key ∈ m then some (m.erase key) else none

/-! ### Requests -/

/-- A call and its arguments; `registered` says that the device is up. -/
inductive StageCall
  | set (registered : Bool) (pubkey endpoint allowed : Option Text) (keepalive : BitVec 32)
  | remove (registered : Bool) (pubkey : Text)

/-- The text of an endpoint. -/
def endpointOf (w : LongWidth) (endpoint : Text) : Option (U32 × U16) :=
  match strrchr ':' (strlcpy (inetAddrstrlen + 8) endpoint) with
  | none => none
  | some (host, sep) =>
    let port := atoi w sep
    if port ≤ 0 ∨ port > 65535 then none
    else (inetPton host).map fun ip => (ip, BitVec.ofInt 16 port)

/-- The text of allowed-ips. -/
def allowedOf (w : LongWidth) (allowed : Text) : Option (U32 × U32) :=
  let net := splitPrefix w (strlcpy (inetAddrstrlen + 8) allowed)
  if net.2 < 0 ∨ net.2 > 32 then none
  else (inetPton net.1).map fun ip => (ip, maskOfPrefix net.2)

/-- What an optional text says, if it says something that can be read. -/
def readOptional {α : Type} (read : Text → Option α) : Option Text → Option (Option α)
  | none => some none
  | some text => (read text).map some

/-- What the arguments of a set give, if they can be read. -/
def givenOf (w : LongWidth) (endpoint allowed : Option Text) (keepalive : BitVec 32) : Option Given :=
  (readOptional (endpointOf w) endpoint).bind fun ep =>
    (readOptional (allowedOf w) allowed).map fun net =>
      ⟨ep, net, if keepalive.toInt ≥ 0 then some keepalive else none⟩

/-- What a call does to the map; `none` is a refusal. -/
def StageCall.apply (w : LongWidth) (maxPeers : Nat) (initial : Settings) (m : PeerMap) :
    StageCall → Option PeerMap
  | .set registered pubkey endpoint allowed keepalive =>
    if registered then none
    else
      (pubkey.bind wgDecodeKey).bind fun key =>
        (givenOf w endpoint allowed keepalive).bind fun g => m.set maxPeers initial key g
  | .remove registered pubkey =>
    if registered then none else (wgDecodeKey pubkey).bind m.remove

/-- What a call does to the table. -/
def StageCall.perform (kc : Kconfig) (maxPeers : Nat) (st : Staged) : StageCall → Except Errno Staged
  | .set registered pubkey endpoint allowed keepalive =>
    wgSetPeer kc maxPeers registered st pubkey endpoint allowed keepalive
  | .remove registered pubkey => wgRemovePeer registered st pubkey

/-- A call that is refused leaves the table. -/
def stage (kc : Kconfig) (maxPeers : Nat) (st : Staged) (call : StageCall) : Option Staged :=
  match call.perform kc maxPeers st with
  | .ok st' => some st'
  | .error _ => some st

/-! ### What an entry says -/

/-- What an entry says of its peer. -/
def StagedPeer.settings (p : StagedPeer) : Settings where
  endpoint := if p.endpointIp = [] then none else (inetPton p.endpointIp).map (·, p.endpointPort)
  allowed := (inetPton p.allowedIp, inetPton p.allowedMask)
  keepalive := if p.keepalive.toInt ≥ 0 then some p.keepalive else none

/-- The map entry a staged peer stands for. -/
def StagedPeer.entry (p : StagedPeer) : Option (Σ _ : Key, Settings) :=
  (wgDecodeKey p.publicKey).map (⟨·, p.settings⟩)

/-- What a new peer starts from: the allowed-ips of the build. -/
def Kconfig.initial (kc : Kconfig) : Settings where
  endpoint := none
  allowed := (inetPton (strlcpy inetAddrstrlen kc.peerAllowedIp),
    inetPton (strlcpy inetAddrstrlen kc.peerAllowedMask))
  keepalive := none

/-- The table does what the map does: the call is accepted by both, or refused by both and
nothing changes; and no two entries of the table have the same key. -/
def StepRefines (kc : Kconfig) (maxPeers : Nat) (k : Taken Staged StageCall) : Prop :=
  (∃ m m' : PeerMap, Represents StagedPeer.entry k.before.peers m ∧
    Represents StagedPeer.entry k.after.peers m' ∧
    ((k.event.perform kc maxPeers k.before = .ok k.after ∧
        k.event.apply kc.long maxPeers kc.initial m = some m') ∨
      ((∃ errno, k.event.perform kc maxPeers k.before = .error errno) ∧
        k.after = k.before ∧ k.event.apply kc.long maxPeers kc.initial m = none ∧ m' = m))) ∧
    ∀ (i j : Nat) (p q : StagedPeer) (key : Key), k.after.peers[i]? = some p →
      k.after.peers[j]? = some q → wgDecodeKey p.publicKey = some key →
      wgDecodeKey q.publicKey = some key → i = j

/-- The text is one for the key of a staged peer, and not the one it was staged with. -/
def SpelledOtherwise (peers : List StagedPeer) (text : Text) : Prop :=
  ∃ key, wgDecodeKey text = some key ∧
    ∃ p ∈ peers, wgDecodeKey p.publicKey = some key ∧ p.publicKey ≠ text

/-- A call with nothing else wrong with it names a staged peer by another text. -/
def StageCall.Respelled (w : LongWidth) (peers : List StagedPeer) : StageCall → Prop
  | .set registered pubkey endpoint allowed keepalive =>
    registered = false ∧ (givenOf w endpoint allowed keepalive).isSome = true ∧
      ∃ text, pubkey = some text ∧ SpelledOtherwise peers text
  | .remove registered pubkey => registered = false ∧ SpelledOtherwise peers pubkey

/-! ### What a set writes -/

section Edit

variable {w : LongWidth} (tmp : StagedPeer)

/-- The text of the key, and what the entry says. -/
def StagedPeer.view (p : StagedPeer) : Text × Settings := (p.publicKey, p.settings)

theorem StagedPeer.setEndpoint_view (text : Text) : (tmp.setEndpoint w text).map StagedPeer.view
    = (endpointOf w text).map fun ep =>
        (tmp.publicKey, { tmp.settings with endpoint := some ep }) := by
  unfold StagedPeer.setEndpoint endpointOf
  cases strrchr ':' (strlcpy (inetAddrstrlen + 8) text) with
  | none => rfl
  | some r =>
      obtain ⟨host, sep⟩ := r
      dsimp only
      by_cases hport : atoi w sep ≤ 0 ∨ atoi w sep > 65535
      · rw [if_pos hport, if_pos hport]
        rfl
      · rw [if_neg hport, if_neg hport]
        cases hip : inetPton host with
        | none => rfl
        | some ip =>
            have hcopy : strlcpy inetAddrstrlen host = host := strlcpy_inetPton hip
            have hne : host ≠ [] := by
              rintro rfl
              cases hip
            simp only [Option.map_some, StagedPeer.view, StagedPeer.settings, hcopy, hip,
              if_neg hne]

theorem StagedPeer.setAllowed_view (text : Text) : (tmp.setAllowed w text).map StagedPeer.view
    = (allowedOf w text).map fun net =>
        (tmp.publicKey, { tmp.settings with allowed := (some net.1, some net.2) }) := by
  rw [tmp.setAllowed_eq]
  unfold allowedOf
  generalize splitPrefix w (strlcpy (inetAddrstrlen + 8) text) = net
  obtain ⟨addr, len⟩ := net
  dsimp only
  by_cases hlen : len < 0 ∨ len > 32
  · rw [if_pos hlen, if_pos hlen]
    rfl
  · rw [if_neg hlen, if_neg hlen]
    cases hip : inetPton addr with
    | none => rfl
    | some ip =>
        have hcopy : strlcpy inetAddrstrlen addr = addr := strlcpy_inetPton hip
        simp only [Option.map_some, StagedPeer.view, StagedPeer.settings, hcopy, hip,
          inetPton_inetNtop]

/-- A field that may be given. -/
theorem StagedPeer.optional_view {α : Type} {set : Text → Option StagedPeer} {read : Text → Option α}
    (put : Settings → α → Settings)
    (h : ∀ text, (set text).map StagedPeer.view
      = (read text).map fun a => (tmp.publicKey, put tmp.settings a)) (arg : Option Text) :
    (arg.elim (some tmp) set).map StagedPeer.view
      = (readOptional read arg).map fun o =>
          (tmp.publicKey, o.elim tmp.settings (put tmp.settings)) := by
  cases arg with
  | none => rfl
  | some text =>
      rw [Option.elim_some, h text, readOptional, Option.map_map]
      rfl

theorem StagedPeer.setKeepalive_settings (keepalive : BitVec 32) :
    (if keepalive.toInt ≥ 0 then { tmp with keepalive := keepalive } else tmp).settings
      = { tmp.settings with
          keepalive := (if keepalive.toInt ≥ 0 then some keepalive else none).or
            tmp.settings.keepalive } := by
  split
  · rename_i hge
    simp only [StagedPeer.settings, if_pos hge, Option.some_or]
  · rfl

/-- **A set writes the fields that are given**, and no other. -/
theorem StagedPeer.edit_view (endpoint allowed : Option Text) (keepalive : BitVec 32) :
    (tmp.edit w endpoint allowed keepalive).map StagedPeer.view
      = (givenOf w endpoint allowed keepalive).map fun g =>
          (tmp.publicKey, tmp.settings.update g) := by
  rw [tmp.edit_eq]
  unfold givenOf
  have hendpoint := tmp.optional_view (fun s ep => { s with endpoint := some ep })
    (tmp.setEndpoint_view (w := w)) endpoint
  cases hep : readOptional (endpointOf w) endpoint with
  | none =>
      rw [hep] at hendpoint
      rw [Option.map_eq_none_iff.mp hendpoint]
      rfl
  | some ep =>
      rw [hep] at hendpoint
      obtain ⟨tmp₁, htmp₁, hview₁⟩ := Option.map_eq_some_iff.mp hendpoint
      obtain ⟨hkey₁, hsettings₁⟩ := Prod.mk.inj hview₁
      rw [htmp₁, Option.bind_some, Option.bind_some]
      have hallowed := tmp₁.optional_view
        (fun s (net : U32 × U32) => { s with allowed := (some net.1, some net.2) })
        (tmp₁.setAllowed_view (w := w)) allowed
      cases hnet : readOptional (allowedOf w) allowed with
      | none =>
          rw [hnet] at hallowed
          rw [Option.map_eq_none_iff.mp hallowed]
          rfl
      | some net =>
          rw [hnet] at hallowed
          obtain ⟨tmp₂, htmp₂, hview₂⟩ := Option.map_eq_some_iff.mp hallowed
          obtain ⟨hkey₂, hsettings₂⟩ := Prod.mk.inj hview₂
          rw [htmp₂, Option.bind_some, Option.map_some, Option.map_some, Option.map_some]
          have hkey₃ : (if keepalive.toInt ≥ 0 then { tmp₂ with keepalive := keepalive }
              else tmp₂).publicKey = tmp.publicKey := by
            rw [← hkey₁, ← hkey₂]
            split <;> rfl
          unfold StagedPeer.view
          rw [hkey₃, tmp₂.setKeepalive_settings, hsettings₂, hsettings₁]
          cases ep <;> cases net <;> rfl

/-- A set whose arguments can be read makes the entry of the map out of the staged one. -/
theorem StagedPeer.edit_some {endpoint allowed : Option Text} {keepalive : BitVec 32} {g : Given}
    (hg : givenOf w endpoint allowed keepalive = some g) : ∃ tmp' : StagedPeer,
      tmp.edit w endpoint allowed keepalive = some tmp' ∧ tmp'.publicKey = tmp.publicKey ∧
        tmp'.settings = tmp.settings.update g := by
  have hview := tmp.edit_view (w := w) endpoint allowed keepalive
  rw [hg] at hview
  obtain ⟨tmp', htmp', heq⟩ := Option.map_eq_some_iff.mp hview
  obtain ⟨hkey, hsettings⟩ := Prod.mk.inj heq
  exact ⟨tmp', htmp', hkey, hsettings⟩

theorem StagedPeer.edit_none {endpoint allowed : Option Text} {keepalive : BitVec 32}
    (hg : givenOf w endpoint allowed keepalive = none) :
    tmp.edit w endpoint allowed keepalive = none := by
  have hview := tmp.edit_view (w := w) endpoint allowed keepalive
  rw [hg] at hview
  exact Option.map_eq_none_iff.mp hview

end Edit

theorem StagedPeer.fresh_settings (kc : Kconfig) (pubkey : Text) :
    (StagedPeer.fresh kc pubkey).settings = kc.initial := by
  have hkeepalive : ¬(-1 : BitVec 32).toInt ≥ 0 := by decide
  unfold StagedPeer.settings StagedPeer.fresh Kconfig.initial
  rw [if_pos rfl, if_neg hkeepalive]

/-! ### Where a key stands -/

section Table

variable {peers : List StagedPeer} {m : PeerMap} {p : StagedPeer} {key : Key} {text : Text}

theorem StagedPeer.entry_eq (h : wgDecodeKey p.publicKey = some key) :
    p.entry = some ⟨key, p.settings⟩ := by
  unfold StagedPeer.entry
  rw [h]
  rfl

theorem StagedPeer.key_of_entry {s : Settings} (h : p.entry = some ⟨key, s⟩) :
    wgDecodeKey p.publicKey = some key := by
  obtain ⟨key', hkey', heq⟩ := Option.map_eq_some_iff.mp h
  cases heq
  exact hkey'

/-- A key of the map is that of a staged peer, and the other way round. -/
theorem mem_iff_staged (h : Represents StagedPeer.entry peers m) :
    key ∈ m ↔ ∃ p ∈ peers, wgDecodeKey p.publicKey = some key := by
  constructor
  · intro hmem
    obtain ⟨i, p, s, hi, hp⟩ := h.record hmem
    exact ⟨p, List.mem_of_getElem? hi, StagedPeer.key_of_entry hp⟩
  · rintro ⟨p, hp, hkey⟩
    obtain ⟨i, hi⟩ := List.getElem?_of_mem hp
    exact h.mem hi (StagedPeer.entry_eq hkey)

/-- **No two staged peers have the same key.** -/
theorem keys_apart (h : Represents StagedPeer.entry peers m) {i j : Nat} {p q : StagedPeer}
    (hi : peers[i]? = some p) (hj : peers[j]? = some q) (hp : wgDecodeKey p.publicKey = some key)
    (hq : wgDecodeKey q.publicKey = some key) : i = j :=
  h.unique hi (StagedPeer.entry_eq hp) hj (StagedPeer.entry_eq hq)

/-- A key that is staged under another text is not found. -/
theorem findPeer_of_otherwise (h : Represents StagedPeer.entry peers m)
    (hother : SpelledOtherwise peers text) : findPeer peers text = none := by
  obtain ⟨key, hkey, p, hp, hpkey, hne⟩ := hother
  cases hfind : findPeer peers text with
  | none => rfl
  | some i =>
      obtain ⟨q, hq, hqtext⟩ := findPeer_some hfind
      obtain ⟨j, hj⟩ := List.getElem?_of_mem hp
      have hqkey : wgDecodeKey q.publicKey = some key := hqtext ▸ hkey
      have hij := keys_apart h hq hj hqkey hpkey
      rw [hij, hj] at hq
      exact absurd (Option.some.inj hq ▸ hqtext) hne

/-- A text that is not found is that of a new key, unless the key is staged under another. -/
theorem not_mem_of_findPeer (h : Represents StagedPeer.entry peers m)
    (hkey : wgDecodeKey text = some key) (hfind : findPeer peers text = none)
    (hother : ¬SpelledOtherwise peers text) : key ∉ m := by
  intro hmem
  obtain ⟨p, hp, hpkey⟩ := (mem_iff_staged h).mp hmem
  exact hother ⟨key, hkey, p, hp, hpkey, findPeer_none hfind p hp⟩

end Table

/-! ### One call -/

section Step

variable {kc : Kconfig} {maxPeers : Nat} {st : Staged} {m : PeerMap}

/-- Accepted by the table and by the map, or refused by both. -/
def Agrees (kc : Kconfig) (maxPeers : Nat) (st : Staged) (m : PeerMap) (call : StageCall) : Prop :=
  (∃ st' m', call.perform kc maxPeers st = .ok st' ∧
    call.apply kc.long maxPeers kc.initial m = some m' ∧ Represents StagedPeer.entry st'.peers m') ∨
  ((∃ errno, call.perform kc maxPeers st = .error errno) ∧
    call.apply kc.long maxPeers kc.initial m = none)

variable {endpoint allowed : Option Text} {keepalive : BitVec 32} {text : Text} {key : Key}

/-- Arguments that cannot be read are refused, whether the peer is there or not. -/
theorem wgSetPeer_unread (hkey : wgDecodeKey text = some key)
    (hg : givenOf kc.long endpoint allowed keepalive = none) : ∃ errno,
      wgSetPeer kc maxPeers false st (some text) endpoint allowed keepalive = .error errno := by
  unfold wgSetPeer
  rw [if_neg Bool.false_ne_true]
  simp only [hkey]
  cases findPeer st.peers text with
  | some i => exact ⟨.einval, by simp only [StagedPeer.edit_none _ hg]⟩
  | none =>
      by_cases hfull : st.peers.length ≥ maxPeers
      · exact ⟨.enospc, if_pos hfull⟩
      · exact ⟨.einval, by simp only [if_neg hfull, StagedPeer.edit_none _ hg]⟩

/-- **A peer that is found is updated.** -/
theorem wgSetPeer_found (hkey : wgDecodeKey text = some key) {g : Given}
    (hg : givenOf kc.long endpoint allowed keepalive = some g) {i : Nat}
    (hfind : findPeer st.peers text = some i) : ∃ p tmp : StagedPeer, st.peers[i]? = some p ∧
      p.publicKey = text ∧ tmp.publicKey = text ∧ tmp.settings = p.settings.update g ∧
      wgSetPeer kc maxPeers false st (some text) endpoint allowed keepalive
        = .ok { st with peers := st.peers.set i tmp } := by
  obtain ⟨p, hp, htext⟩ := findPeer_some hfind
  obtain ⟨tmp, hedit, htmpkey, hsettings⟩ := p.edit_some hg
  have hget : st.peers.getD i (.fresh kc text) = p := by
    rw [List.getD_eq_getElem?_getD, hp, Option.getD_some]
  refine ⟨p, tmp, hp, htext, htmpkey.trans htext, hsettings, ?_⟩
  unfold wgSetPeer
  rw [if_neg Bool.false_ne_true]
  simp only [hkey, hfind, hget, hedit]

variable (kc) in
/-- **A peer that is not found is added**, if there is room. -/
theorem wgSetPeer_new (hkey : wgDecodeKey text = some key) {g : Given}
    (hg : givenOf kc.long endpoint allowed keepalive = some g)
    (hfind : findPeer st.peers text = none)
    (hroom : ¬st.peers.length ≥ maxPeers) : ∃ tmp : StagedPeer,
      tmp.publicKey = text ∧ tmp.settings = kc.initial.update g ∧
      wgSetPeer kc maxPeers false st (some text) endpoint allowed keepalive
        = .ok { st with peers := st.peers ++ [tmp] } := by
  obtain ⟨tmp, hedit, htmpkey, hsettings⟩ := (StagedPeer.fresh kc text).edit_some hg
  rw [StagedPeer.fresh_settings] at hsettings
  refine ⟨tmp, htmpkey.trans (strlcpy_key hkey), hsettings, ?_⟩
  unfold wgSetPeer
  rw [if_neg Bool.false_ne_true]
  simp only [hkey, hfind, if_neg hroom, hedit]

theorem wgSetPeer_full (hkey : wgDecodeKey text = some key)
    (hfind : findPeer st.peers text = none) (hfull : st.peers.length ≥ maxPeers) :
    wgSetPeer kc maxPeers false st (some text) endpoint allowed keepalive = .error .enospc := by
  unfold wgSetPeer
  rw [if_neg Bool.false_ne_true]
  simp only [hkey, hfind, if_pos hfull]

/-- A set the device's state and the arguments allow. -/
theorem StageCall.apply_set (hkey : wgDecodeKey text = some key) {g : Given}
    (hg : givenOf kc.long endpoint allowed keepalive = some g) :
    (StageCall.set false (some text) endpoint allowed keepalive).apply kc.long maxPeers kc.initial m
      = m.set maxPeers kc.initial key g := by
  simp only [StageCall.apply, if_neg Bool.false_ne_true, Option.bind_some, hkey, hg]

theorem set_agrees (h : Represents StagedPeer.entry st.peers m)
    (hkey : wgDecodeKey text = some key) {g : Given}
    (hg : givenOf kc.long endpoint allowed keepalive = some g)
    (hother : ¬SpelledOtherwise st.peers text) :
    Agrees kc maxPeers st m (.set false (some text) endpoint allowed keepalive) := by
  cases hfind : findPeer st.peers text with
  | some i =>
      obtain ⟨p, tmp, hp, htext, htmpkey, hsettings, hset⟩ := wgSetPeer_found hkey hg hfind
      have hentry : p.entry = some ⟨key, p.settings⟩ := StagedPeer.entry_eq (htext ▸ hkey)
      have hentry' : tmp.entry = some ⟨key, p.settings.update g⟩ := by
        rw [StagedPeer.entry_eq (htmpkey ▸ hkey), hsettings]
      refine Or.inl ⟨_, _, hset, ?_, h.replace hp hentry hentry'⟩
      rw [StageCall.apply_set hkey hg, PeerMap.set, dif_pos (h.mem hp hentry), h.lookup hp hentry]
      rfl
  | none =>
      have hnew : key ∉ m := not_mem_of_findPeer h hkey hfind hother
      by_cases hfull : st.peers.length ≥ maxPeers
      · refine Or.inr ⟨⟨_, wgSetPeer_full hkey hfind hfull⟩, ?_⟩
        rw [StageCall.apply_set hkey hg, PeerMap.set, dif_neg hnew, ← h.length, if_pos hfull]
      · obtain ⟨tmp, htmpkey, hsettings, hset⟩ := wgSetPeer_new kc hkey hg hfind hfull
        have hentry : tmp.entry = some ⟨key, kc.initial.update g⟩ := by
          rw [StagedPeer.entry_eq (htmpkey ▸ hkey), hsettings]
        refine Or.inl ⟨_, _, hset, ?_, h.push hentry hnew⟩
        rw [StageCall.apply_set hkey hg, PeerMap.set, dif_neg hnew, ← h.length, if_neg hfull]

theorem remove_agrees (h : Represents StagedPeer.entry st.peers m)
    (hother : ¬SpelledOtherwise st.peers text) : Agrees kc maxPeers st m (.remove false text) := by
  have hperform : (StageCall.remove false text).perform kc maxPeers st = wgRemovePeer false st text := rfl
  have happly : (StageCall.remove false text).apply kc.long maxPeers kc.initial m
      = (wgDecodeKey text).bind m.remove := rfl
  unfold Agrees
  rw [hperform, happly]
  unfold wgRemovePeer
  rw [if_neg Bool.false_ne_true]
  cases hfind : findPeer st.peers text with
  | some i =>
      obtain ⟨p, hp, htext⟩ := findPeer_some hfind
      obtain ⟨⟨key, s⟩, hentry⟩ :=
        Option.isSome_iff_exists.mp (h.entry_isSome (List.mem_of_getElem? hp))
      have hkey : wgDecodeKey text = some key := htext ▸ StagedPeer.key_of_entry hentry
      refine Or.inl ⟨_, _, rfl, ?_, h.erase hp hentry⟩
      rw [hkey, Option.bind_some, PeerMap.remove, if_pos (h.mem hp hentry)]
  | none =>
      refine Or.inr ⟨⟨_, rfl⟩, ?_⟩
      cases hkey : wgDecodeKey text with
      | none => rfl
      | some key =>
          rw [Option.bind_some, PeerMap.remove, if_neg (not_mem_of_findPeer h hkey hfind hother)]

/-- **One call, if it does not spell the key of a staged peer in another way.** -/
theorem call_agrees (h : Represents StagedPeer.entry st.peers m) {call : StageCall}
    (hno : ¬call.Respelled kc.long st.peers) : Agrees kc maxPeers st m call := by
  cases call with
  | set registered pubkey endpoint allowed keepalive =>
      cases registered with
      | true => exact Or.inr ⟨⟨.ebusy, rfl⟩, rfl⟩
      | false =>
          cases pubkey with
          | none => exact Or.inr ⟨⟨.einval, rfl⟩, rfl⟩
          | some text =>
              cases hkey : wgDecodeKey text with
              | none =>
                  refine Or.inr ⟨⟨.einval, ?_⟩, ?_⟩
                  · simp only [StageCall.perform, wgSetPeer, hkey, if_neg Bool.false_ne_true]
                  · simp [StageCall.apply, hkey]
              | some key =>
                  cases hg : givenOf kc.long endpoint allowed keepalive with
                  | none =>
                      refine Or.inr ⟨wgSetPeer_unread hkey hg, ?_⟩
                      simp [StageCall.apply, hkey, hg]
                  | some g =>
                      refine set_agrees h hkey hg fun hother => hno ⟨rfl, ?_, text, rfl, hother⟩
                      rw [hg]
                      rfl
  | remove registered pubkey =>
      cases registered with
      | true => exact Or.inr ⟨⟨.ebusy, rfl⟩, rfl⟩
      | false => exact remove_agrees h fun hother => hno ⟨rfl, hother⟩

end Step

/-! ### Every sequence of calls -/

section Runs

variable {kc : Kconfig} {maxPeers : Nat}

theorem stepRefines_of_agrees {st st' : Staged} {m : PeerMap} {call : StageCall}
    (h : Represents StagedPeer.entry st.peers m) (hstep : stage kc maxPeers st call = some st')
    (hagrees : Agrees kc maxPeers st m call) :
    StepRefines kc maxPeers ⟨st, call, st'⟩ ∧ ∃ m', Represents StagedPeer.entry st'.peers m' := by
  unfold stage at hstep
  rcases hagrees with ⟨st'', m', hperform, happly, h'⟩ | ⟨⟨errno, hperform⟩, happly⟩
  · rw [hperform] at hstep
    obtain rfl : st'' = st' := Option.some.inj hstep
    exact ⟨⟨⟨m, m', h, h', Or.inl ⟨hperform, happly⟩⟩,
      fun i j p q key => keys_apart h'⟩, m', h'⟩
  · rw [hperform] at hstep
    obtain rfl : st = st' := Option.some.inj hstep
    exact ⟨⟨⟨m, m, h, h, Or.inr ⟨⟨errno, hperform⟩, rfl, happly, rfl⟩⟩,
      fun i j p q key => keys_apart h⟩, m, h⟩

/-- Calls that spell every key in one way keep the table a map. -/
theorem run_refines {st₀ st : Staged} {ts : List (Taken Staged StageCall)}
    (h : Run (stage kc maxPeers) st₀ ts st) (hempty : st₀.peers = [])
    (hno : ∀ k ∈ ts, ¬k.event.Respelled kc.long k.before.peers) :
    (∃ m, Represents StagedPeer.entry st.peers m) ∧ ∀ k ∈ ts, StepRefines kc maxPeers k := by
  induction h with
  | nil =>
      refine ⟨⟨∅, ?_⟩, fun k hk => by cases hk⟩
      rw [hempty]
      exact Represents.nil
  | snoc h hstep ih =>
      rename_i ts st call st'
      obtain ⟨⟨m, hm⟩, hsteps⟩ := ih fun k hk => hno k (List.mem_append_left _ hk)
      have hlast := hno _ (List.mem_append_right _ (List.mem_singleton.mpr rfl))
      obtain ⟨hrefines, hm'⟩ := stepRefines_of_agrees hm hstep (call_agrees hm hlast)
      refine ⟨hm', fun k hk => ?_⟩
      rcases List.mem_append.mp hk with hk | hk
      · exact hsteps k hk
      · rw [List.mem_singleton.mp hk]
        exact hrefines

/-- A call that spells the key of a staged peer in another way breaks the map: a set stages
the peer a second time, or finds the table full, and a remove finds nothing. -/
theorem not_stepRefines {k : Taken Staged StageCall}
    (hspelled : k.event.Respelled kc.long k.before.peers) :
    ¬StepRefines kc maxPeers k := by
  rintro ⟨⟨m, m', hm, hm', hstep⟩, -⟩
  obtain ⟨st, call, st'⟩ := k
  cases call with
  | set registered pubkey endpoint allowed keepalive =>
      obtain ⟨rfl, hread, text, rfl, hother⟩ := hspelled
      have hfind := findPeer_of_otherwise hm hother
      obtain ⟨key, hkey, p, hp, hpkey, -⟩ := hother
      obtain ⟨g, hg⟩ := Option.isSome_iff_exists.mp hread
      have hmem : key ∈ m := (mem_iff_staged hm).mpr ⟨p, hp, hpkey⟩
      obtain ⟨s, hs⟩ := Option.isSome_iff_exists.mp (AList.lookup_isSome.mpr hmem)
      have happly : (StageCall.set false (some text) endpoint allowed keepalive).apply kc.long maxPeers
          kc.initial m = some (m.replace key (s.update g)) := by
        rw [StageCall.apply_set hkey hg, PeerMap.set, dif_pos hmem, hs]
        rfl
      rcases hstep with ⟨hperform, hmap⟩ | ⟨-, -, hmap, -⟩
      · obtain rfl : m.replace key (s.update g) = m' := Option.some.inj (happly.symm.trans hmap)
        have hperform : wgSetPeer kc maxPeers false st (some text) endpoint allowed keepalive
            = .ok st' := hperform
        by_cases hfull : st.peers.length ≥ maxPeers
        · rw [wgSetPeer_full hkey hfind hfull] at hperform
          cases hperform
        · obtain ⟨tmp, -, -, hset⟩ := wgSetPeer_new kc hkey hg hfind hfull
          have hst' : st' = { st with peers := st.peers ++ [tmp] } :=
            Except.ok.inj (hperform.symm.trans hset)
          -- the map has as many entries as before, the table one more
          have hlength : (st.peers ++ [tmp]).length = st.peers.length := by
            have hafter : st'.peers.length = (m.replace key (s.update g)).keys.length := by
              rw [hm'.length, AList.keys, List.keys, List.length_map]
            rw [AList.keys_replace, AList.keys, List.keys, List.length_map, ← hm.length,
              hst'] at hafter
            exact hafter
          rw [List.length_append, List.length_singleton] at hlength
          omega
      · exact absurd (happly.symm.trans hmap) (Option.some_ne_none _)
  | remove registered pubkey =>
      obtain ⟨rfl, hother⟩ := hspelled
      have hfind := findPeer_of_otherwise hm hother
      obtain ⟨key, hkey, p, hp, hpkey, -⟩ := hother
      have hmem : key ∈ m := (mem_iff_staged hm).mpr ⟨p, hp, hpkey⟩
      have hrefused : wgRemovePeer false st pubkey = .error .enoent := by
        unfold wgRemovePeer
        rw [if_neg Bool.false_ne_true, hfind]
      rcases hstep with ⟨hperform, -⟩ | ⟨-, -, hmap, -⟩
      · exact absurd (hrefused.symm.trans hperform) (by intro hc; cases hc)
      · have happly : (StageCall.remove false pubkey).apply kc.long maxPeers kc.initial m
            = some (m.erase key) := by
          simp only [StageCall.apply, if_neg Bool.false_ne_true, hkey, Option.bind_some,
            PeerMap.remove, if_pos hmem]
        exact absurd (happly.symm.trans hmap) (Option.some_ne_none _)

/-- **The table is a map from keys to peers**, in every sequence of calls of which none
spells the key of a staged peer in another way, and in no other. -/
theorem peerTable_refines_iff {privateKey : Text} {st : Staged} {ts : List (Taken Staged StageCall)}
    (h : Run (stage kc maxPeers) ⟨privateKey, []⟩ ts st) :
    (∀ k ∈ ts, StepRefines kc maxPeers k) ↔ ∀ k ∈ ts, ¬k.event.Respelled kc.long k.before.peers := by
  constructor
  · intro hrefines k hk hspelled
    exact not_stepRefines hspelled (hrefines k hk)
  · intro hno
    exact (run_refines h rfl hno).2

end Runs

/-! ### The four texts of a key -/

namespace Sample

/-- Names the peer. -/
def name (ch : Char) (keepalive : BitVec 32) : StageCall :=
  .set false (some (zeroText ch)) none none keepalive

/-- The entry of a peer that was only named. -/
def named (ch : Char) (keepalive : BitVec 32) : StagedPeer :=
  { StagedPeer.fresh (build []) (zeroText ch) with keepalive := keepalive }

theorem not_otherwise {peers : List StagedPeer} {text : Text}
    (h : ∀ p ∈ peers, p.publicKey = text) : ¬SpelledOtherwise peers text := by
  rintro ⟨key, -, p, hp, -, hne⟩
  exact hne (h p hp)

end Sample

/-- A peer is named, named again with a keepalive, and removed. -/
theorem peerTable_refines_iff_sample : ∃ (ts : List (Taken Staged StageCall)) (st : Staged),
    Run (stage (Sample.build []) 1) Staged.empty ts st ∧ ts.length = 3 ∧
      ∀ k ∈ ts, StepRefines (Sample.build []) 1 k := by
  have hname : stage (Sample.build []) 1 Staged.empty (Sample.name 'A' (-1))
      = some ⟨[], [Sample.named 'A' (-1)]⟩ := by decide +kernel
  have hagain : stage (Sample.build []) 1 ⟨[], [Sample.named 'A' (-1)]⟩ (Sample.name 'A' 25)
      = some ⟨[], [Sample.named 'A' 25]⟩ := by decide +kernel
  have hremove : stage (Sample.build []) 1 ⟨[], [Sample.named 'A' 25]⟩
      (.remove false (Sample.zeroText 'A')) = some Staged.empty := by decide +kernel
  have hrun := Run.cons hname (.cons hagain (.cons hremove .nil))
  refine ⟨_, _, hrun, rfl, (peerTable_refines_iff hrun).mpr ?_⟩
  have hsame : ∀ keepalive, ∀ p ∈ [Sample.named 'A' keepalive],
      p.publicKey = Sample.zeroText 'A' := by
    intro keepalive p hp
    rw [List.mem_singleton.mp hp]
    rfl
  intro k hk
  simp only [List.mem_cons, List.not_mem_nil, or_false] at hk
  rcases hk with rfl | rfl | rfl
  · rintro ⟨-, -, text, htext, hother⟩
    cases htext
    exact Sample.not_otherwise (by intro p hp; cases hp) hother
  · rintro ⟨-, -, text, htext, hother⟩
    cases htext
    exact Sample.not_otherwise (hsame _) hother
  · rintro ⟨-, hother⟩
    exact Sample.not_otherwise (hsame _) hother

/-- Two texts of one key stage two peers. -/
theorem not_peerTable_refines :
    ¬∀ (kc : Kconfig) (maxPeers : Nat) (privateKey : Text) (ts : List (Taken Staged StageCall))
      (st : Staged), Run (stage kc maxPeers) ⟨privateKey, []⟩ ts st →
        ∀ k ∈ ts, StepRefines kc maxPeers k := by
  intro hall
  have hname : stage (Sample.build []) 2 ⟨[], []⟩ (Sample.name 'A' (-1))
      = some ⟨[], [Sample.named 'A' (-1)]⟩ := by decide +kernel
  have hother : stage (Sample.build []) 2 ⟨[], [Sample.named 'A' (-1)]⟩ (Sample.name 'B' (-1))
      = some ⟨[], [Sample.named 'A' (-1), Sample.named 'B' (-1)]⟩ := by decide +kernel
  have hsteps := hall _ 2 [] _ _ (.cons hname (.cons hother .nil))
  obtain ⟨-, hapart⟩ := hsteps _ (List.mem_cons_of_mem _ List.mem_cons_self)
  exact absurd (hapart 0 1 _ _ (Bytes.zero 32) rfl rfl Sample.decode_zeroText.1
    Sample.decode_zeroText.2) (by decide)

end NuttxWireguard.Flat
