/-
Runs of a machine, and loops over its parts.

A machine takes one step for each event; an event that cannot happen in a state has
no step there.  A run remembers every step it took, so that a property of the steps
(what each one found, what each one left) can be stated next to one of the states.

A loop over an index set is a fold that may fail.  Two rules are needed of it: what
every iteration keeps, the loop keeps; and what one iteration establishes and the
others keep, the loop establishes.
-/
import Mathlib.Data.List.FinRange
import Mathlib.Logic.Relation

namespace Lib

variable {σ ε : Type*}

/-- One step of a run: the state it found, its event and the state it left. -/
structure Taken (σ ε : Type*) where
  before : σ
  event : ε
  after : σ

/-- The runs of `step` from `s`, with the steps they took, oldest first. -/
inductive Run (step : σ → ε → Option σ) (s : σ) : List (Taken σ ε) → σ → Prop
  | nil : Run step s [] s
  | snoc {ts : List (Taken σ ε)} {t u : σ} {e : ε} (h : Run step s ts t)
      (hstep : step t e = some u) : Run step s (ts ++ [⟨t, e, u⟩]) u

/-- Reachable from an initial state. -/
def Reachable (init : σ → Prop) (step : σ → ε → Option σ) (s : σ) : Prop :=
  ∃ s₀ ts, init s₀ ∧ Run step s₀ ts s

/-- The steps `step` takes on a list of events, if it can take them all. -/
def steps (step : σ → ε → Option σ) : σ → List ε → Option (List (Taken σ ε) × σ)
  | s, [] => some ([], s)
  | s, e :: es =>
    match step s e with
    | none => none
    | some t =>
      match steps step t es with
      | none => none
      | some (ts, u) => some (⟨s, e, t⟩ :: ts, u)

namespace Run

variable {step : σ → ε → Option σ} {s t : σ} {ts : List (Taken σ ε)}

theorem cons {e : ε} {r : σ} (hstep : step r e = some s) (h : Run step s ts t) :
    Run step r (⟨r, e, s⟩ :: ts) t := by
  induction h with
  | nil => exact Run.snoc .nil hstep
  | snoc h hs ih => exact .snoc ih hs

theorem append {us : List (Taken σ ε)} {u : σ} (h : Run step s ts t) (h' : Run step t us u) :
    Run step s (ts ++ us) u := by
  induction h' with
  | nil => rw [List.append_nil]; exact h
  | snoc h' hs ih => rw [← List.append_assoc]; exact .snoc ih hs

/-- What `steps` computes is a run. -/
theorem of_steps {es : List ε} : ∀ {s : σ} {ts : List (Taken σ ε)},
    steps step s es = some (ts, t) → Run step s ts t := by
  induction es with
  | nil =>
      intro s ts h
      simp only [steps, Option.some.injEq, Prod.mk.injEq] at h
      obtain ⟨rfl, rfl⟩ := h
      exact .nil
  | cons e es ih =>
      intro s ts h
      unfold steps at h
      split at h
      · cases h
      · rename_i r hr
        split at h
        · cases h
        · rename_i ts' u hts
          simp only [Option.some.injEq, Prod.mk.injEq] at h
          obtain ⟨rfl, rfl⟩ := h
          exact .cons hr (ih hts)

/-- The steps `steps` takes are those of its events. -/
theorem events_of_steps {es : List ε} : ∀ {s : σ} {ts : List (Taken σ ε)},
    steps step s es = some (ts, t) → ts.map (·.event) = es := by
  induction es with
  | nil =>
      intro s ts h
      simp only [steps, Option.some.injEq, Prod.mk.injEq] at h
      obtain ⟨rfl, -⟩ := h
      rfl
  | cons e es ih =>
      intro s ts h
      unfold steps at h
      split at h
      · cases h
      · split at h
        · cases h
        · rename_i ts' u hts
          simp only [Option.some.injEq, Prod.mk.injEq] at h
          obtain ⟨rfl, rfl⟩ := h
          exact congrArg (e :: ·) (ih hts)

theorem eq_of_nil (h : Run step s [] t) : t = s := by
  generalize hts : [] = ts at h
  cases h with
  | nil => rfl
  | snoc h hs => simp at hts

/-- The first step of a run, and the rest. -/
theorem uncons {k : Taken σ ε} (h : Run step s (k :: ts) t) :
    k.before = s ∧ step k.before k.event = some k.after ∧ Run step k.after ts t := by
  generalize hus : k :: ts = us at h
  induction h generalizing ts with
  | nil => cases hus
  | @snoc us r u e h hs ih =>
      rcases List.cons_eq_append_iff.mp hus with ⟨rfl, hk⟩ | ⟨us', rfl, hts⟩
      · cases h.eq_of_nil
        cases hk
        exact ⟨rfl, hs, .nil⟩
      · obtain ⟨hk, hfirst, hrest⟩ := ih rfl
        rw [hts]
        exact ⟨hk, hfirst, .snoc hrest hs⟩

/-- A run ends where it started or where one of its steps did. -/
theorem last (h : Run step s ts t) : t = s ∨ ∃ k ∈ ts, k.after = t := by
  cases h with
  | nil => exact Or.inl rfl
  | snoc h hs => exact Or.inr ⟨_, List.mem_append_right _ List.mem_cons_self, rfl⟩

/-- Every step of a run is a step of the machine. -/
theorem step_of_mem (h : Run step s ts t) {k : Taken σ ε} (hk : k ∈ ts) :
    step k.before k.event = some k.after := by
  induction h with
  | nil => cases hk
  | snoc h hs ih =>
      rcases List.mem_append.mp hk with hk | hk
      · exact ih hk
      · rw [List.mem_singleton] at hk; subst hk; exact hs

/-- **Invariant rule.**  What the run starts with and every step it takes keeps, it
ends with, and every step found and left it. -/
theorem invariant {I : σ → Prop} (h : Run step s ts t) (h0 : I s)
    (hkeep : ∀ k ∈ ts, step k.before k.event = some k.after → I k.before → I k.after) :
    I t ∧ ∀ k ∈ ts, I k.before ∧ I k.after := by
  induction h with
  | nil => exact ⟨h0, by simp⟩
  | @snoc ts t u e h hs ih =>
      obtain ⟨ht, hall⟩ := ih fun k hk => hkeep k (List.mem_append_left _ hk)
      have hu : I u := hkeep ⟨t, e, u⟩ (by simp) hs ht
      refine ⟨hu, fun k hk => ?_⟩
      rcases List.mem_append.mp hk with hk | hk
      · exact hall k hk
      · rw [List.mem_singleton] at hk; subst hk; exact ⟨ht, hu⟩

/-- A transitive relation every step respects relates the ends of the run. -/
theorem relates {R : σ → σ → Prop} (hrefl : ∀ s, R s s)
    (htrans : ∀ {a b c}, R a b → R b c → R a c) (h : Run step s ts t)
    (hstep : ∀ k ∈ ts, step k.before k.event = some k.after → R k.before k.after) : R s t := by
  induction h with
  | nil => exact hrefl _
  | @snoc ts t u e h hs ih =>
      exact htrans (ih fun k hk => hstep k (List.mem_append_left _ hk))
        (hstep ⟨t, e, u⟩ (by simp) hs)

end Run

/-- What initial states have and steps keep, reachable states have. -/
theorem Reachable.invariant {init : σ → Prop} {step : σ → ε → Option σ} {I : σ → Prop} {s : σ}
    (h : Reachable init step s) (h0 : ∀ s, init s → I s)
    (hkeep : ∀ s e t, step s e = some t → I s → I t) : I s := by
  obtain ⟨s₀, ts, hinit, hrun⟩ := h
  exact (hrun.invariant (h0 s₀ hinit) fun k _ => hkeep k.before k.event k.after).1

theorem Reachable.step {init : σ → Prop} {step : σ → ε → Option σ} {s t : σ} {e : ε}
    (h : Reachable init step s) (hs : step s e = some t) : Reachable init step t := by
  obtain ⟨s₀, ts, hinit, hrun⟩ := h
  exact ⟨s₀, _, hinit, .snoc hrun hs⟩

/-! ### Loops that may fail -/

variable {ι : Type*} {f : σ → ι → Option σ}

/-- What every iteration keeps, the loop keeps. -/
theorem foldlM_invariant {I : σ → Prop} :
    ∀ (l : List ι) {s t : σ}, l.foldlM f s = some t →
      (∀ i ∈ l, ∀ s t, f s i = some t → I s → I t) → I s → I t := by
  intro l
  induction l with
  | nil =>
      intro s t h _ hs
      simp only [List.foldlM_nil, Option.pure_def, Option.some.injEq] at h
      exact h ▸ hs
  | cons i l ih =>
      intro s t h hkeep hs
      rw [List.foldlM_cons] at h
      obtain ⟨r, hr, h⟩ := Option.bind_eq_some_iff.mp h
      exact ih h (fun j hj => hkeep j (List.mem_cons_of_mem _ hj)) (hkeep i (by simp) s r hr hs)

/-- The same, where an iteration may depend on the ones before it. -/
theorem foldlM_invariant_at {I : σ → Prop} {s t : σ} :
    ∀ (l seen : List ι) {r : σ}, seen.foldlM f s = some r → l.foldlM f r = some t →
      (∀ before i after a b, seen ++ l = before ++ i :: after → before.foldlM f s = some a →
        f a i = some b → I a → I b) → I r → I t := by
  intro l
  induction l with
  | nil =>
      intro seen r _ h _ hr
      simp only [List.foldlM_nil, Option.pure_def, Option.some.injEq] at h
      exact h ▸ hr
  | cons i l ih =>
      intro seen r hseen h hkeep hr
      rw [List.foldlM_cons] at h
      obtain ⟨q, hq, h⟩ := Option.bind_eq_some_iff.mp h
      have hnext : (seen ++ [i]).foldlM f s = some q := by
        rw [List.foldlM_append, hseen]
        simp [hq]
      refine ih (seen ++ [i]) hnext h ?_ (hkeep seen i l r q rfl hseen hq hr)
      intro before j after a b hsplit
      rw [List.append_assoc] at hsplit
      exact hkeep before j after a b hsplit

/-- A reflexive and transitive relation every iteration respects, the loop respects. -/
theorem foldlM_relates {R : σ → σ → Prop} (hrefl : ∀ s, R s s)
    (htrans : ∀ {a b c}, R a b → R b c → R a c) (hstep : ∀ s i t, f s i = some t → R s t)
    (l : List ι) {s t : σ} (h : l.foldlM f s = some t) : R s t :=
  foldlM_invariant (I := R s) l h (fun i _ a b hab hs => htrans hs (hstep a i b hab)) (hrefl s)

/-- **Each index is settled by its own iteration.**  `Q` holds of an index before its
iteration, its iteration turns that into `P`, and no other iteration touches either. -/
theorem foldlM_settles {P Q : ι → σ → Prop}
    (hown : ∀ i s t, f s i = some t → Q i s → P i t)
    (hP : ∀ i j s t, i ≠ j → f s j = some t → P i s → P i t)
    (hQ : ∀ i j s t, i ≠ j → f s j = some t → Q i s → Q i t) :
    ∀ (l : List ι) {s t : σ}, l.Nodup → l.foldlM f s = some t →
      (∀ i ∈ l, Q i s) → ∀ i ∈ l, P i t := by
  intro l
  induction l with
  | nil => intro s t _ _ _ i hi; cases hi
  | cons j l ih =>
      intro s t hnd h hall i hi
      rw [List.foldlM_cons] at h
      obtain ⟨r, hr, hrest⟩ := Option.bind_eq_some_iff.mp h
      obtain ⟨hj, hl⟩ := List.nodup_cons.mp hnd
      rcases List.mem_cons.mp hi with rfl | hi
      · have hne : ∀ k ∈ l, i ≠ k := fun k hk hc => hj (hc ▸ hk)
        exact foldlM_invariant (I := P i) l hrest (fun k hk a b => hP i k a b (hne k hk))
          (hown i s r hr (hall i (by simp)))
      · exact ih hl hrest (fun k hk => hQ k j s r (fun hc => hj (hc ▸ hk)) hr
          (hall k (List.mem_cons_of_mem _ hk))) i hi

/-! ### Loops that forget -/

/-- A loop that writes its flag anew each time round ends with the answer for the last
index. -/
theorem foldl_finRange_overwrite (n : Nat) (f : Fin n → Bool) :
    (List.finRange n).foldl (fun _ i => f i) false = true ↔
      ∃ i : Fin n, (i : Nat) + 1 = n ∧ f i = true := by
  cases n with
  | zero => exact ⟨fun h => absurd h Bool.false_ne_true, fun ⟨i, _⟩ => i.elim0⟩
  | succ n =>
      rw [List.finRange_succ_last, List.foldl_append]
      refine ⟨fun h => ⟨Fin.last n, rfl, h⟩, ?_⟩
      rintro ⟨i, hlast, hi⟩
      have hi' : i = Fin.last n := Fin.ext (Nat.succ_injective hlast)
      rw [hi'] at hi
      exact hi

end Lib
