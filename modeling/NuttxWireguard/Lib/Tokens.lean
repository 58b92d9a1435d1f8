/-
Tokens that move between places.

Each place of a table holds a token or is blank, and some places are in use.  Tokens are
moved and forgotten, and a new one is issued only if no place holds it.  So no token ever
sits in two places, and whoever looks for the place in use with a given token finds one at
most.

A family of tables is one table over pairs, and what happens to one member happens to the
family.
-/
import Mathlib.Logic.Function.Basic
import Mathlib.Tactic.Choose

namespace Lib

/-- What each place holds, and which places are in use. -/
structure Tokens (P V : Type*) where
  token : P → V
  live : P → Prop

namespace Tokens

variable {P V ι : Type*} (blank : V)

/-- No token sits in two places, and a place in use holds one. -/
structure Apart (t : Tokens P V) : Prop where
  only : ∀ p q, t.token p = t.token q → t.token p ≠ blank → p = q
  held : ∀ p, t.live p → t.token p ≠ blank

/-- Tokens were moved and forgotten: `src` says where a place has its token from, and no two
places have theirs from one.  A place comes into use with a token only. -/
structure MovedBy (src : P → Option P) (t u : Tokens P V) : Prop where
  inj : ∀ p q r, src p = some r → src q = some r → p = q
  token : ∀ p, u.token p ≠ blank → ∃ r, src p = some r ∧ u.token p = t.token r
  live : ∀ p, u.live p → u.token p ≠ blank ∨ ∃ r, t.live r ∧ u.token p = t.token r

def Moved (t u : Tokens P V) : Prop := ∃ src, MovedBy blank src t u

/-- `v` was put in one place, over what it held. -/
def Issued (v : V) (t u : Tokens P V) : Prop :=
  ∃ p, u.token p = v ∧ ∀ q, q ≠ p → u.token q = t.token q ∧ (u.live q → t.live q)

/-- The tables of a family as one. -/
def family (t : ι → Tokens P V) : Tokens (ι × P) V where
  token := fun a => (t a.1).token a.2
  live := fun a => (t a.1).live a.2

variable {blank} {t u w : Tokens P V}

/-! ### A place in use is found -/

theorem Apart.eq_of_live (h : t.Apart blank) {p q : P} (hp : t.live p)
    (heq : t.token p = t.token q) : p = q :=
  h.only p q heq (h.held p hp)

/-! ### What keeps tokens apart -/

/-- Nothing moved, and no place came into use. -/
theorem Moved.of_eq (htoken : u.token = t.token) (hlive : ∀ p, u.live p → t.live p) :
    Moved blank t u := by
  refine ⟨some, ⟨?_, ?_, ?_⟩⟩
  · intro p q r hp hq
    rw [Option.some.inj hp, Option.some.inj hq]
  · intro p _
    exact ⟨p, rfl, congrFun htoken p⟩
  · intro p hp
    exact Or.inr ⟨p, hlive p hp, congrFun htoken p⟩

theorem Moved.refl (t : Tokens P V) : Moved blank t t := Moved.of_eq rfl fun _ => id

theorem Moved.trans (h : Moved blank t u) (h' : Moved blank u w) : Moved blank t w := by
  obtain ⟨src, hsrc⟩ := h
  obtain ⟨src', hsrc'⟩ := h'
  refine ⟨fun p => (src' p).bind src, ⟨?_, ?_, ?_⟩⟩
  · intro p q r hp hq
    obtain ⟨p', hp', hp⟩ := Option.bind_eq_some_iff.mp hp
    obtain ⟨q', hq', hq⟩ := Option.bind_eq_some_iff.mp hq
    rw [hsrc.inj p' q' r hp hq] at hp'
    exact hsrc'.inj p q q' hp' hq'
  · intro p hp
    obtain ⟨r, hr, heq⟩ := hsrc'.token p hp
    rw [heq] at hp
    obtain ⟨r', hr', heq'⟩ := hsrc.token r hp
    exact ⟨r', Option.bind_eq_some_iff.mpr ⟨r, hr, hr'⟩, heq.trans heq'⟩
  · intro p hp
    rcases hsrc'.live p hp with hne | ⟨r, hr, heq⟩
    · exact Or.inl hne
    · rcases hsrc.live r hr with hne | ⟨r', hr', heq'⟩
      · exact Or.inl (heq ▸ hne)
      · exact Or.inr ⟨r', hr', heq.trans heq'⟩

/-- **Moving and forgetting keeps tokens apart.** -/
theorem Apart.moved (h : t.Apart blank) (hm : Moved blank t u) : u.Apart blank := by
  obtain ⟨src, hsrc⟩ := hm
  constructor
  · intro p q heq hne
    obtain ⟨r, hr, hp⟩ := hsrc.token p hne
    obtain ⟨r', hr', hq⟩ := hsrc.token q (heq ▸ hne)
    rw [hp] at hne
    have hrr : r = r' := h.only r r' (by rw [← hp, ← hq, heq]) hne
    rw [← hrr] at hr'
    exact hsrc.inj p q r hr hr'
  · intro p hp
    rcases hsrc.live p hp with hne | ⟨r, hr, heq⟩
    · exact hne
    · rw [heq]
      exact h.held r hr

/-- **So does issuing a token no place holds.** -/
theorem Apart.issued {v : V} (h : t.Apart blank) (hi : Issued v t u) (hfresh : ∀ p, t.token p ≠ v)
    (hv : v ≠ blank) : u.Apart blank := by
  obtain ⟨p₀, hp₀, hrest⟩ := hi
  constructor
  · intro p q heq hne
    by_cases hp : p = p₀
    · by_cases hq : q = p₀
      · rw [hp, hq]
      · rw [hp, hp₀, (hrest q hq).1] at heq
        exact absurd heq.symm (hfresh q)
    · rw [(hrest p hp).1] at heq hne
      by_cases hq : q = p₀
      · rw [hq, hp₀] at heq
        exact absurd heq (hfresh p)
      · rw [(hrest q hq).1] at heq
        exact h.only p q heq hne
  · intro p hlive
    by_cases hp : p = p₀
    · rw [hp, hp₀]
      exact hv
    · rw [(hrest p hp).1]
      exact h.held p ((hrest p hp).2 hlive)

/-! ### Families -/

section Family

variable {f g : ι → Tokens P V} {i : ι}

/-- Moving within every member. -/
theorem Moved.family (h : ∀ i, Moved blank (f i) (g i)) : Moved blank (family f) (family g) := by
  choose src hsrc using h
  refine ⟨fun a => (src a.1 a.2).map fun r => (a.1, r), ⟨?_, ?_, ?_⟩⟩
  · rintro ⟨i, p⟩ ⟨j, q⟩ r hp hq
    obtain ⟨p', hp', rfl⟩ := Option.map_eq_some_iff.mp hp
    obtain ⟨q', hq', heq⟩ := Option.map_eq_some_iff.mp hq
    obtain ⟨hij, hpq⟩ := Prod.mk.inj heq
    dsimp only at hij hpq hp' hq'
    subst hij
    rw [hpq] at hq'
    rw [(hsrc j).inj p q p' hp' hq']
  · rintro ⟨i, p⟩ hne
    obtain ⟨r, hr, heq⟩ := (hsrc i).token p hne
    exact ⟨(i, r), Option.map_eq_some_iff.mpr ⟨r, hr, rfl⟩, heq⟩
  · rintro ⟨i, p⟩ hlive
    rcases (hsrc i).live p hlive with hne | ⟨r, hr, heq⟩
    · exact Or.inl hne
    · exact Or.inr ⟨(i, r), hr, heq⟩

variable [DecidableEq ι]

/-- Moving within one member. -/
theorem Moved.family_update (h : Moved blank (f i) u) :
    Moved blank (Tokens.family f) (Tokens.family (Function.update f i u)) := by
  refine Moved.family fun j => ?_
  by_cases hj : j = i
  · subst hj
    rw [Function.update_self]
    exact h
  · rw [Function.update_of_ne hj]
    exact .refl _

/-- Issuing to one member. -/
theorem Issued.family_update {v : V} (h : Issued v (f i) u) :
    Issued v (family f) (family (Function.update f i u)) := by
  obtain ⟨p₀, hp₀, hrest⟩ := h
  refine ⟨(i, p₀), ?_, ?_⟩
  · show (Function.update f i u i).token p₀ = v
    rw [Function.update_self]
    exact hp₀
  · rintro ⟨j, p⟩ hne
    show (Function.update f i u j).token p = (f j).token p ∧
      ((Function.update f i u j).live p → (f j).live p)
    by_cases hj : j = i
    · subst hj
      rw [Function.update_self]
      exact hrest p fun hc => hne (by rw [hc])
    · rw [Function.update_of_ne hj]
      exact ⟨rfl, id⟩

end Family

end Tokens

end Lib
