/-
Three slots that hand an item on.

A new item arrives in one of two ways: one that its owner may use at once becomes
current, and one that still has to be confirmed waits in `next` until `promote`.
Every operation only moves, copies out or forgets what the slots hold, so an item
that sits in one slot never comes to sit in two.

A slot always holds a value; `full` says which values are items, and `empty` is the
one that a forgotten slot holds.
-/
import Mathlib.Logic.Function.Basic

namespace Lib

/-- The three places an item can sit in. -/
inductive Slot
  | curr
  | prev
  | next
  deriving DecidableEq, Repr

/-- What each slot holds. -/
abbrev Slots (α : Type*) := Slot → α

namespace Slots

variable {α κ : Type*} (empty : α) (full : α → Bool)

/-- The three by name. -/
def of (curr prev next : α) : Slots α
  | .curr => curr
  | .prev => prev
  | .next => next

/-- Overwrite what slot `s` holds. -/
def put (σ : Slots α) (s : Slot) (a : α) : Slots α := Function.update σ s a

/-- The waiting item becomes current, the current one previous. -/
def promote (σ : Slots α) : Slots α
  | .curr => σ .next
  | .prev => σ .curr
  | .next => empty

/-- A new item that is current at once.  A waiting one is demoted past it. -/
def installCurr (σ : Slots α) (a : α) : Slots α
  | .curr => a
  | .prev => if full (σ .next) then σ .next else σ .curr
  | .next => if full (σ .next) then empty else σ .next

/-- A new item that has to wait. -/
def installNext (σ : Slots α) (a : α) : Slots α
  | .curr => σ .curr
  | .prev => empty
  | .next => a

/-- A slot without an item is cleared. -/
def Clean (σ : Slots α) : Prop := ∀ s, full (σ s) = false → σ s = empty

/-- Two slots never hold items with one key. -/
def Separate (key : α → κ) (σ : Slots α) : Prop :=
  ∀ s t, full (σ s) = true → full (σ t) = true → key (σ s) = key (σ t) → s = t

@[simp] theorem put_self (σ : Slots α) (s : Slot) (a : α) : σ.put s a s = a :=
  Function.update_self ..

theorem put_of_ne {σ : Slots α} {s t : Slot} {a : α} (h : t ≠ s) : σ.put s a t = σ t :=
  Function.update_of_ne h ..

@[simp] theorem put_slot (σ : Slots α) (s : Slot) : σ.put s (σ s) = σ :=
  Function.update_eq_self ..

@[simp] theorem put_put (σ : Slots α) (s : Slot) (a b : α) : (σ.put s a).put s b = σ.put s b :=
  Function.update_idem ..

/-- Where a promoted item came from. -/
def promoteFrom : Slot → Slot
  | .curr => .next
  | .prev => .curr
  | .next => .next

variable {empty full}

theorem put_cases (σ : Slots α) (s t : Slot) (a : α) :
    (t = s ∧ σ.put s a t = a) ∨ (t ≠ s ∧ σ.put s a t = σ t) := by
  by_cases h : t = s
  · exact Or.inl ⟨h, by rw [h, put_self]⟩
  · exact Or.inr ⟨h, put_of_ne h⟩

/-- An item found after something was forgotten was there before, in the same slot. -/
theorem full_drop (hempty : full empty = false) {σ : Slots α} {s t : Slot}
    (h : full (σ.put s empty t) = true) : t ≠ s ∧ σ.put s empty t = σ t := by
  rcases put_cases σ s t empty with ⟨-, ht⟩ | ht
  · rw [ht, hempty] at h; cases h
  · exact ht

theorem full_promote (hempty : full empty = false) {σ : Slots α} {s : Slot}
    (h : full (σ.promote empty s) = true) :
    s ≠ .next ∧ σ.promote empty s = σ (promoteFrom s) := by
  cases s with
  | curr => exact ⟨by decide, rfl⟩
  | prev => exact ⟨by decide, rfl⟩
  | next =>
      rw [show σ.promote empty .next = empty from rfl, hempty] at h
      cases h

/-- An item found after an installation is the new one, in `curr`, or an old one, in
`prev`. -/
theorem full_installCurr (hempty : full empty = false) {σ : Slots α} {a : α} {s : Slot}
    (h : full (σ.installCurr empty full a s) = true) :
    (s = .curr ∧ σ.installCurr empty full a s = a) ∨
      (s = .prev ∧ ∃ t, σ.installCurr empty full a s = σ t) := by
  cases s with
  | curr => exact Or.inl ⟨rfl, rfl⟩
  | prev =>
      refine Or.inr ⟨rfl, ?_⟩
      by_cases hn : full (σ .next) = true
      · exact ⟨.next, if_pos hn⟩
      · exact ⟨.curr, if_neg hn⟩
  | next =>
      exfalso
      simp only [installCurr] at h
      split at h
      · rw [hempty] at h; cases h
      · rename_i hn; exact hn h

/-- An item found after one was made to wait is that one, in `next`, or the current one. -/
theorem full_installNext (hempty : full empty = false) {σ : Slots α} {a : α} {s : Slot}
    (h : full (σ.installNext empty a s) = true) :
    (s = .next ∧ σ.installNext empty a s = a) ∨
      (s = .curr ∧ σ.installNext empty a s = σ .curr) := by
  cases s with
  | curr => exact Or.inr ⟨rfl, rfl⟩
  | prev =>
      rw [show σ.installNext empty a .prev = empty from rfl, hempty] at h
      cases h
  | next => exact Or.inl ⟨rfl, rfl⟩

/-! ### Slots stay clean -/

section Clean

variable {σ : Slots α} {a : α}

theorem clean_empty : Clean empty full (fun _ => empty) := fun _ _ => rfl

theorem Clean.drop (h : Clean empty full σ) (s : Slot) : Clean empty full (σ.put s empty) := by
  intro t ht
  rcases put_cases σ s t empty with ⟨-, e⟩ | ⟨-, e⟩
  · exact e
  · rw [e] at ht ⊢
    exact h t ht

theorem Clean.put (h : Clean empty full σ) (s : Slot) (ha : full a = true) :
    Clean empty full (σ.put s a) := by
  intro t ht
  rcases put_cases σ s t a with ⟨-, e⟩ | ⟨-, e⟩
  · rw [e, ha] at ht; cases ht
  · rw [e] at ht ⊢
    exact h t ht

theorem Clean.promote (h : Clean empty full σ) : Clean empty full (σ.promote empty) := by
  intro s hs
  cases s with
  | curr => exact h .next hs
  | prev => exact h .curr hs
  | next => rfl

theorem Clean.installCurr (h : Clean empty full σ) (ha : full a = true) :
    Clean empty full (σ.installCurr empty full a) := by
  intro s hs
  cases s with
  | curr =>
      rw [show σ.installCurr empty full a .curr = a from rfl, ha] at hs
      cases hs
  | prev =>
      by_cases hn : full (σ .next) = true
      · simp only [Slots.installCurr, if_pos hn] at hs ⊢
        exact h .next hs
      · simp only [Slots.installCurr, if_neg hn] at hs ⊢
        exact h .curr hs
  | next =>
      by_cases hn : full (σ .next) = true
      · simp only [Slots.installCurr, if_pos hn]
      · simp only [Slots.installCurr, if_neg hn] at hs ⊢
        exact h .next hs

theorem Clean.installNext (h : Clean empty full σ) (ha : full a = true) :
    Clean empty full (σ.installNext empty a) := by
  intro s hs
  cases s with
  | curr => exact h .curr hs
  | prev => rfl
  | next =>
      rw [show σ.installNext empty a .next = a from rfl, ha] at hs
      cases hs

end Clean

/-! ### Slots stay separate -/

variable {key : α → κ} {σ : Slots α}

theorem separate_empty (hempty : full empty = false) :
    Separate full key (fun _ => empty) := by
  intro s t h
  rw [hempty] at h
  cases h

theorem Separate.drop (hempty : full empty = false) (h : Separate full key σ) (s : Slot) :
    Separate full key (σ.put s empty) := by
  intro t u ht hu hk
  obtain ⟨-, et⟩ := full_drop hempty ht
  obtain ⟨-, eu⟩ := full_drop hempty hu
  rw [et] at ht hk
  rw [eu] at hu hk
  exact h t u ht hu hk

/-- An item replaced by one with its key keeps its place. -/
theorem Separate.put (h : Separate full key σ) {s : Slot} {a : α} (hs : full (σ s) = true)
    (hkey : key a = key (σ s)) : Separate full key (σ.put s a) := by
  intro t u ht hu hk
  rcases put_cases σ s t a with ⟨hts, et⟩ | ⟨-, et⟩ <;>
    rcases put_cases σ s u a with ⟨hus, eu⟩ | ⟨-, eu⟩
  · rw [hts, hus]
  · rw [et, eu, hkey] at hk
    rw [eu] at hu
    exact hts.trans (h _ _ hs hu hk)
  · rw [et, eu, hkey] at hk
    rw [et] at ht
    exact (h _ _ ht hs hk).trans hus.symm
  · rw [et, eu] at hk
    rw [et] at ht
    rw [eu] at hu
    exact h _ _ ht hu hk

theorem Separate.promote (hempty : full empty = false) (h : Separate full key σ) :
    Separate full key (σ.promote empty) := by
  intro s t hs ht hk
  obtain ⟨hsn, es⟩ := full_promote hempty hs
  obtain ⟨htn, et⟩ := full_promote hempty ht
  rw [es] at hs hk
  rw [et] at ht hk
  have heq := h _ _ hs ht hk
  cases s <;> cases t <;> simp_all [promoteFrom]

theorem separate_installCurr (hempty : full empty = false) {a : α}
    (hnew : ∀ s, full (σ s) = true → key (σ s) ≠ key a) :
    Separate full key (σ.installCurr empty full a) := by
  intro s t hs ht hk
  rcases full_installCurr hempty hs with ⟨rfl, es⟩ | ⟨rfl, u, es⟩ <;>
    rcases full_installCurr hempty ht with ⟨rfl, et⟩ | ⟨rfl, w, et⟩
  · rfl
  · rw [es, et] at hk
    rw [et] at ht
    exact absurd hk.symm (hnew w ht)
  · rw [es, et] at hk
    rw [es] at hs
    exact absurd hk (hnew u hs)
  · rfl

theorem separate_installNext (hempty : full empty = false) {a : α}
    (hnew : ∀ s, full (σ s) = true → key (σ s) ≠ key a) :
    Separate full key (σ.installNext empty a) := by
  intro s t hs ht hk
  rcases full_installNext hempty hs with ⟨rfl, es⟩ | ⟨rfl, es⟩ <;>
    rcases full_installNext hempty ht with ⟨rfl, et⟩ | ⟨rfl, et⟩
  · rfl
  · rw [es, et] at hk
    rw [et] at ht
    exact absurd hk.symm (hnew _ ht)
  · rw [es, et] at hk
    rw [es] at hs
    exact absurd hk (hnew _ hs)
  · rfl

end Slots

end Lib
