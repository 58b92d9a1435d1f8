/-
A table as a map that keeps its order.

A map whose entries stand in the order they were added in is an association list without
duplicate keys; an entry is added at its end, replaced where it stands and taken out without
moving the others.

A program keeps such a map as a list of records, each of which stands for an entry, or for
none if it is malformed.  Appending a record, writing over one and taking one out are the
three operations on the map, as long as the record is found under its entry's key.
-/
import Mathlib.Data.List.AList
import Mathlib.Data.List.InsertIdx

namespace Lib

variable {κ α ρ : Type*}

/-- A map from `κ` to `α` that keeps the order of its entries. -/
abbrev Registry (κ α : Type*) := AList fun _ : κ => α

namespace Registry

/-- A new entry, behind the others. -/
def push (m : Registry κ α) (a : κ) (b : α) (h : a ∉ m) : Registry κ α where
  entries := m.entries ++ [⟨a, b⟩]
  nodupKeys := by
    have hkeys : a ∉ m.entries.map Sigma.fst := h
    show ((m.entries ++ ([⟨a, b⟩] : List (Σ _ : κ, α))).map Sigma.fst).Nodup
    rw [List.map_append, List.nodup_append]
    refine ⟨m.nodupKeys, List.nodup_singleton _, fun x hx y hy hc => ?_⟩
    rw [List.map_singleton, List.mem_singleton] at hy
    have hxa : x = a := hc.trans hy
    exact hkeys (hxa ▸ hx)

end Registry

/-! ### Entries by their place -/

section Places

variable {l : List (Σ _ : κ, α)} {a : κ} {b : α} {i : Nat}

theorem kreplace_eq_set [DecidableEq κ] (hl : l.NodupKeys) (hi : l[i]? = some ⟨a, b⟩) (b' : α) :
    l.kreplace a b' = l.set i ⟨a, b'⟩ := by
  induction l generalizing i with
  | nil => cases hi
  | cons s l ih =>
      obtain ⟨hs, hl⟩ := List.nodupKeys_cons.mp hl
      cases i with
      | zero =>
          cases hi
          exact List.lookmap_cons_some _ l (if_pos rfl)
      | succ i =>
          have hmem : (⟨a, b⟩ : Σ _ : κ, α) ∈ l := List.mem_of_getElem? hi
          have hne : a ≠ s.1 := fun hc => hs (hc ▸ List.mem_keys_of_mem hmem)
          rw [List.set_cons_succ, ← ih hl hi]
          exact List.lookmap_cons_none _ l (if_neg hne)

theorem kerase_eq_eraseIdx [DecidableEq κ] (hl : l.NodupKeys) (hi : l[i]? = some ⟨a, b⟩) :
    l.kerase a = l.eraseIdx i := by
  induction l generalizing i with
  | nil => cases hi
  | cons s l ih =>
      obtain ⟨hs, hl⟩ := List.nodupKeys_cons.mp hl
      cases i with
      | zero =>
          cases hi
          exact List.kerase_cons_eq rfl
      | succ i =>
          have hmem : (⟨a, b⟩ : Σ _ : κ, α) ∈ l := List.mem_of_getElem? hi
          have hne : a ≠ s.1 := fun hc => hs (hc ▸ List.mem_keys_of_mem hmem)
          rw [List.kerase_cons_ne hne, ih hl hi, List.eraseIdx_cons_succ]

/-- A key stands in one place. -/
theorem place_unique (hl : l.NodupKeys) {b' : α} {j : Nat} (hi : l[i]? = some ⟨a, b⟩)
    (hj : l[j]? = some ⟨a, b'⟩) : i = j := by
  have hkeys : ∀ {k : Nat} {b : α}, l[k]? = some ⟨a, b⟩ → (l.map Sigma.fst)[k]? = some a := by
    intro k b hk
    rw [List.getElem?_map, hk]
    rfl
  have hlt : i < (l.map Sigma.fst).length := by
    rw [List.length_map]
    exact (List.getElem?_eq_some_iff.mp hi).1
  exact (List.getElem?_inj hlt hl).mp ((hkeys hi).trans (hkeys hj).symm)

end Places

/-! ### Records -/

/-- The records are the entries of the map, in its order. -/
def Represents (entry : ρ → Option (Σ _ : κ, α)) (l : List ρ) (m : Registry κ α) : Prop :=
  l.map entry = m.entries.map some

namespace Represents

variable {entry : ρ → Option (Σ _ : κ, α)} {l : List ρ} {m : Registry κ α} {r r' : ρ} {a : κ}
  {b b' : α} {i j : Nat}

theorem nil : Represents entry [] (∅ : Registry κ α) := rfl

theorem length (h : Represents entry l m) : l.length = m.entries.length := by
  have hlength := congrArg List.length h
  rwa [List.length_map, List.length_map] at hlength

/-- A record is the entry in its place. -/
theorem place (h : Represents entry l m) (hi : l[i]? = some r) (hr : entry r = some ⟨a, b⟩) :
    m.entries[i]? = some ⟨a, b⟩ := by
  have hget := congrArg (·[i]?) h
  simp only [List.getElem?_map, hi, Option.map_some, hr] at hget
  cases he : m.entries[i]? with
  | none =>
      rw [he] at hget
      cases hget
  | some s =>
      rw [he] at hget
      exact Option.some.inj hget.symm

/-- An entry is the record in its place. -/
theorem record (h : Represents entry l m) (ha : a ∈ m) :
    ∃ (i : Nat) (r : ρ) (b : α), l[i]? = some r ∧ entry r = some ⟨a, b⟩ := by
  obtain ⟨⟨a', b⟩, hmem, heq⟩ := List.mem_map.mp (AList.mem_keys.mp ha)
  have heq : a' = a := heq
  subst heq
  obtain ⟨i, hi⟩ := List.getElem?_of_mem hmem
  have hget := congrArg (·[i]?) h
  simp only [List.getElem?_map, hi, Option.map_some] at hget
  obtain ⟨r, hr, hentry⟩ := Option.map_eq_some_iff.mp hget
  exact ⟨i, r, b, hr, hentry⟩

theorem mem (h : Represents entry l m) (hi : l[i]? = some r) (hr : entry r = some ⟨a, b⟩) :
    a ∈ m := List.mem_keys_of_mem (List.mem_of_getElem? (h.place hi hr))

theorem lookup [DecidableEq κ] (h : Represents entry l m) (hi : l[i]? = some r)
    (hr : entry r = some ⟨a, b⟩) :
    m.lookup a = some b :=
  List.mem_dlookup m.nodupKeys (List.mem_of_getElem? (h.place hi hr))

/-- **No two records have the same key.** -/
theorem unique (h : Represents entry l m) (hi : l[i]? = some r) (hr : entry r = some ⟨a, b⟩)
    (hj : l[j]? = some r') (hr' : entry r' = some ⟨a, b'⟩) : i = j :=
  place_unique m.nodupKeys (h.place hi hr) (h.place hj hr')

/-- Every record stands for an entry. -/
theorem entry_isSome (h : Represents entry l m) (hr : r ∈ l) : (entry r).isSome = true := by
  have hmem : entry r ∈ m.entries.map some := h ▸ List.mem_map_of_mem hr
  obtain ⟨s, -, hs⟩ := List.mem_map.mp hmem
  rw [← hs]
  rfl

/-- **A record behind the others is a new entry.** -/
theorem push (h : Represents entry l m) (hr : entry r = some ⟨a, b⟩) (ha : a ∉ m) :
    Represents entry (l ++ [r]) (m.push a b ha) := by
  have h : l.map entry = m.entries.map some := h
  have hentries : (m.push a b ha).entries = m.entries ++ [⟨a, b⟩] := rfl
  show (l ++ [r]).map entry = (m.push a b ha).entries.map some
  rw [hentries]
  rw [List.map_append, List.map_append, h, List.map_singleton, hr, List.map_singleton]

/-- **A record written over replaces its entry.** -/
theorem replace [DecidableEq κ] (h : Represents entry l m) (hi : l[i]? = some r)
    (hr : entry r = some ⟨a, b⟩) (hr' : entry r' = some ⟨a, b'⟩) :
    Represents entry (l.set i r') (m.replace a b') := by
  have hset : (m.replace a b').entries = m.entries.set i ⟨a, b'⟩ :=
    kreplace_eq_set m.nodupKeys (h.place hi hr) b'
  have h : l.map entry = m.entries.map some := h
  show (l.set i r').map entry = (m.replace a b').entries.map some
  rw [hset, List.map_set, h, hr', List.map_set]

/-- **A record taken out is an entry taken out.** -/
theorem erase [DecidableEq κ] (h : Represents entry l m) (hi : l[i]? = some r)
    (hr : entry r = some ⟨a, b⟩) :
    Represents entry (l.eraseIdx i) (m.erase a) := by
  have herase : (m.erase a).entries = m.entries.eraseIdx i :=
    kerase_eq_eraseIdx m.nodupKeys (h.place hi hr)
  have h : l.map entry = m.entries.map some := h
  show (l.eraseIdx i).map entry = (m.erase a).entries.map some
  rw [herase, ← List.eraseIdx_map, h, List.eraseIdx_map]

end Represents

end Lib
