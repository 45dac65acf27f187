/-
**Postconditions of computations that can fail.**

A computation `x : Except ε α` ends with a value or with a failure. `Outcome.Ends E Q x` says that a
value satisfies `Q` and a failure satisfies `E`: with `E` false it says that `x` does not fail, with
`E` true it is partial correctness. The rules below take a computation apart along its binds, its
tests and its loops.

A computation `x : StateT σ (Except ε) α` starts in a state and ends with a value and a new state,
or it stops. `Stateful.Triple P x E Q` says that from a state with `P` a value comes with `Q` and a
stop with `E`.

A job under polling makes `n` transfers, one in each round that finds its device ready, and ends
with one round more. The answers of the device are arbitrary.

Main results:

* `Outcome.ends_bind` — the rule for sequencing;
* `Outcome.ends_foldlM_range'` — the rule for a loop over consecutive indices, with an invariant
  that mentions how many rounds are done;
* `Outcome.ends_forM` — the rule for a loop of checks;
* `Stateful.Triple.bind`, `Stateful.Triple.ite` — the rules for sequencing and for a test;
* `Polling.ends_polled` — the job never fails, and it is done when the device was ready `n` times
  before the last round.
-/

import Mathlib.Algebra.Group.Int.Defs
import Mathlib.Algebra.Group.Nat.Defs
import Mathlib.Tactic.Common

set_option relaxedAutoImplicit false
set_option autoImplicit false

namespace Outcome

variable {ε α β : Type}

/-- **A postcondition**: a value satisfies `Q`, a failure satisfies `E`. -/
def Ends (E : ε → Prop) (Q : α → Prop) : Except ε α → Prop
  | Except.error e => E e
  | Except.ok a => Q a

@[simp] theorem ends_ok {E : ε → Prop} {Q : α → Prop} {a : α} :
    Ends E Q (Except.ok a) ↔ Q a := Iff.rfl

@[simp] theorem ends_error {E : ε → Prop} {Q : α → Prop} {e : ε} :
    Ends E Q (Except.error e : Except ε α) ↔ E e := Iff.rfl

@[simp] theorem ends_pure {E : ε → Prop} {Q : α → Prop} {a : α} :
    Ends E Q (pure a : Except ε α) ↔ Q a := Iff.rfl

@[simp] theorem ends_throw {E : ε → Prop} {Q : α → Prop} {e : ε} :
    Ends E Q (throw e : Except ε α) ↔ E e := Iff.rfl

/-- **Sequencing.** -/
@[simp] theorem ends_bind {E : ε → Prop} {Q : β → Prop} {x : Except ε α} {f : α → Except ε β} :
    Ends E Q (x >>= f) ↔ Ends E (fun a => Ends E Q (f a)) x := by
  cases x <;> rfl

theorem Ends.mono {E E' : ε → Prop} {Q Q' : α → Prop} {x : Except ε α} (h : Ends E Q x)
    (hE : ∀ e, E e → E' e) (hQ : ∀ a, Q a → Q' a) : Ends E' Q' x := by
  cases x with
  | error e => exact hE e h
  | ok a => exact hQ a h

theorem Ends.post {E : ε → Prop} {Q Q' : α → Prop} {x : Except ε α} (h : Ends E Q x)
    (hQ : ∀ a, Q a → Q' a) : Ends E Q' x :=
  h.mono (fun _ he => he) hQ

/-- The state that a computation leaves, without its result. -/
theorem snd_eq_ok {x : Except ε (α × β)} {b : β} :
    Prod.snd <$> x = Except.ok b ↔ ∃ a, x = Except.ok (a, b) := by
  cases x with
  | error e =>
      constructor
      · intro h
        cases h
      · rintro ⟨a, h⟩
        cases h
  | ok r =>
      obtain ⟨a, c⟩ := r
      constructor
      · intro h
        obtain rfl : c = b := Except.ok.inj h
        exact ⟨a, rfl⟩
      · rintro ⟨a', h⟩
        obtain ⟨-, rfl⟩ := Prod.mk.inj (Except.ok.inj h)
        rfl

/-- Two postconditions of one computation hold together. -/
theorem Ends.and {E E' : ε → Prop} {Q Q' : α → Prop} {x : Except ε α} (h : Ends E Q x)
    (h' : Ends E' Q' x) : Ends (fun e => E e ∧ E' e) (fun a => Q a ∧ Q' a) x := by
  cases x with
  | error e => exact ⟨h, h'⟩
  | ok a => exact ⟨h, h'⟩

/-- A value that is returned satisfies the postcondition. -/
theorem Ends.of_ok {E : ε → Prop} {Q : α → Prop} {x : Except ε α} {a : α} (h : Ends E Q x)
    (hx : x = Except.ok a) : Q a := by
  subst hx
  exact h

/-- A failure is one of those allowed. -/
theorem Ends.of_error {E : ε → Prop} {Q : α → Prop} {x : Except ε α} {e : ε} (h : Ends E Q x)
    (hx : x = Except.error e) : E e := by
  subst hx
  exact h

/-- Without a failure that is allowed there is a value. -/
theorem Ends.exists_ok {E : ε → Prop} {Q : α → Prop} {x : Except ε α} (h : Ends E Q x)
    (hE : ∀ e, ¬ E e) :
    ∃ a, x = Except.ok a ∧ Q a := by
  cases x with
  | error e => exact (hE e h).elim
  | ok a => exact ⟨a, rfl, h⟩

/-- What every value satisfies. -/
theorem Ends.of_forall {Q : α → Prop} (h : ∀ a, Q a) (x : Except ε α) :
    Ends (fun _ => True) Q x := by
  cases x with
  | error e => exact True.intro
  | ok a => exact h a

/-- A test picks one of two computations. -/
theorem ends_ite {E : ε → Prop} {Q : α → Prop} {c : Prop} [Decidable c] {x y : Except ε α}
    (hx : c → Ends E Q x) (hy : ¬ c → Ends E Q y) : Ends E Q (if c then x else y) := by
  by_cases h : c
  · rw [if_pos h]; exact hx h
  · rw [if_neg h]; exact hy h

/-- A test picks one of two computations, and both go on in the same way. -/
theorem Ends.ite_bind {E : ε → Prop} {Q : β → Prop} {c : Prop} [Decidable c] {x y : Except ε α}
    {f : α → Except ε β} (h : Ends E (fun a => Ends E Q (f a)) (if c then x else y)) :
    Ends E Q (if c then x >>= f else y >>= f) := by
  refine ends_ite (fun hc => ?_) fun hc => ?_
  · rw [if_pos hc] at h
    exact ends_bind.2 h
  · rw [if_neg hc] at h
    exact ends_bind.2 h

/-- A step that is also given as a function. -/
theorem ok_of_toOption {x : Except ε α} {a : α} (h : x.toOption = some a) : x = Except.ok a := by
  cases x with
  | error e => exact nomatch h
  | ok b => exact congrArg Except.ok (Option.some_inj.1 h)

/-! ### Loops -/

/-- **A loop over consecutive indices**: `P k` holds after `k` rounds. -/
theorem ends_foldlM_range' {E : ε → Prop} {f : β → ℕ → Except ε β} {a : ℕ} {P : ℕ → β → Prop} :
    ∀ {n : ℕ} {b : β}, P 0 b →
      (∀ k < n, ∀ b, P k b → Ends E (P (k + 1)) (f b (a + k))) →
      Ends E (P n) ((List.range' a n).foldlM f b) := by
  intro n
  induction n with
  | zero => intro b h0 _; exact h0
  | succ n ih =>
      intro b h0 hstep
      rw [List.range'_concat, List.foldlM_append, ends_bind]
      refine (ih h0 fun k hk => hstep k (by omega)).post ?_
      intro b' hb'
      have hround := hstep n (by omega) b' hb'
      rw [Nat.one_mul, List.foldlM_cons, ends_bind]
      exact hround.post fun _ h => h

/-- A loop of checks passes when every check does. -/
theorem ends_forM {E : ε → Prop} {f : α → Except ε Unit} {l : List α}
    (h : ∀ a ∈ l, Ends E (fun _ => True) (f a)) : Ends E (fun _ => True) (l.forM f) := by
  induction l with
  | nil => exact True.intro
  | cons a l ih =>
      change Ends E _ (f a >>= fun _ => l.forM f)
      rw [ends_bind]
      refine (h a (by simp)).post ?_
      intro _ _
      exact ih fun b hb => h b (by simp [hb])

end Outcome

/-! ### Triples for computations with a state -/

namespace Stateful

open Outcome

variable {σ ε α β : Type}

/-- **A triple**: from a state with `P`, a value comes with `Q` and a stop with `E`. -/
def Triple (P : σ → Prop) (x : StateT σ (Except ε) α) (E : ε → Prop) (Q : α → σ → Prop) : Prop :=
  ∀ s, P s → Ends E (fun r => Q r.1 r.2) (x s)

namespace Triple

variable {P P' : σ → Prop} {E : ε → Prop} {Q Q' : α → σ → Prop} {R : β → σ → Prop}
    {x y : StateT σ (Except ε) α}
  {f : α → StateT σ (Except ε) β}

theorem mono (h : Triple P x E Q) (hP : ∀ s, P' s → P s) (hQ : ∀ a s, Q a s → Q' a s) :
    Triple P' x E Q' :=
  fun s hs => (h s (hP s hs)).post fun r hr => hQ r.1 r.2 hr

theorem post (h : Triple P x E Q) (hQ : ∀ a s, Q a s → Q' a s) : Triple P x E Q' :=
  h.mono (fun _ hs => hs) hQ

/-- **Sequencing.** -/
theorem bind (hx : Triple P x E Q) (hf : ∀ a, Triple (Q a) (f a) E R) : Triple P (x >>= f) E R := by
  intro s hs
  change Ends E _ (x s >>= fun r => f r.1 r.2)
  rw [ends_bind]
  exact (hx s hs).post fun r hr => hf r.1 r.2 hr

/-- What follows a computation that does not return is not reached. -/
theorem stops (hx : Triple P x E fun _ _ => False) : Triple P (x >>= f) E R :=
  hx.bind fun _ _ hs => hs.elim

theorem pure {a : α} (h : ∀ s, P s → Q a s) : Triple P (Pure.pure a : StateT σ (Except ε) α) E Q :=
  fun s hs => h s hs

theorem throw {e : ε} (h : E e) : Triple P (MonadExcept.throw e : StateT σ (Except ε) α) E Q :=
  fun _ _ => h

theorem get {Q : σ → σ → Prop} (h : ∀ s, P s → Q s s) :
    Triple P (MonadState.get : StateT σ (Except ε) σ) E Q :=
  fun s hs => h s hs

/-- **A test.** -/
theorem ite {c : Prop} [Decidable c] (hx : c → Triple P x E Q) (hy : ¬ c → Triple P y E Q) :
    Triple P (if c then x else y) E Q := by
  split
  · exact hx ‹_›
  · exact hy ‹_›

end Triple

end Stateful

/-! ### Polling -/

namespace Polling

open Outcome

variable {ε σ : Type} {E : ε → Prop} {step : σ → Bool → Except ε σ} {P : ℕ → σ → Prop}
    {Q : σ → Prop} {n : ℕ}

/-- One transfer more if the device is ready. -/
def advance (c : ℕ) (ready : Bool) : ℕ := if ready then c + 1 else c

/-- A job that is done stays so. -/
theorem ends_finished (hrest : ∀ s ready, Q s → Ends E Q (step s ready)) :
    ∀ {answers : List Bool} {s : σ}, Q s → Ends E Q (answers.foldlM step s) := by
  intro answers
  induction answers with
  | nil => exact fun hs => hs
  | cons ready answers ih =>
      intro s hs
      rw [List.foldlM_cons, ends_bind]
      exact (hrest s ready hs).post fun _ => ih

/-- **A job under polling**, `c` transfers of which are made: it ends if the device is ready often
enough before the last round, and otherwise it is somewhere in between. -/
theorem ends_polled_from
    (hround : ∀ c s ready, c < n → P c s → Ends E (P (advance c ready)) (step s ready))
    (hlast : ∀ s ready, P n s → Ends E Q (step s ready))
    (hrest : ∀ s ready, Q s → Ends E Q (step s ready)) :
    ∀ {answers : List Bool} {c : ℕ} {s : σ}, c ≤ n → P c s →
      Ends E (fun s' => if answers ≠ [] ∧ n ≤ c + answers.dropLast.count true then Q s'
        else ∃ d ≤ n, P d s')
        (answers.foldlM step s) := by
  intro answers
  induction answers with
  | nil =>
      intro c s hc hs
      rw [List.foldlM_nil, ends_pure, if_neg (fun h => h.1 rfl)]
      exact ⟨c, hc, hs⟩
  | cons ready answers ih =>
      intro c s hc hs
      rw [List.foldlM_cons, ends_bind]
      rcases Nat.lt_or_eq_of_le hc with hlt | rfl
      · refine (hround c s ready hlt hs).post fun s' hs' => ?_
        have hadvance : advance c ready ≤ n := by
          unfold advance
          split <;> omega
        refine (ih hadvance hs').post fun s'' hs'' => ?_
        cases answers with
        | nil =>
            rw [if_neg (fun h => h.1 rfl)] at hs''
            rw [if_neg]
            · exact hs''
            · rintro ⟨-, hcount⟩
              exact absurd hcount (by simpa using hlt)
        | cons next answers =>
            have hcount : c + (ready :: next :: answers).dropLast.count true =
                advance c ready + (next :: answers).dropLast.count true := by
              rw [List.dropLast_cons_of_ne_nil (List.cons_ne_nil _ _)]
              unfold advance
              cases ready with
              | true => rw [List.count_cons_self, if_pos rfl]; omega
              | false => rw [List.count_cons_of_ne (by decide), if_neg (by decide)]
            simpa only [ne_eq, List.cons_ne_nil, not_false_eq_true, true_and, hcount] using hs''
      · refine (hlast s ready hs).post fun s' hs' => (ends_finished hrest hs').post fun s'' hs'' =>
          ?_
        rw [if_pos ⟨List.cons_ne_nil _ _, Nat.le_add_right _ _⟩]
        exact hs''

/-- A job under polling, from its beginning. -/
theorem ends_polled
    (hround : ∀ c s ready, c < n → P c s → Ends E (P (advance c ready)) (step s ready))
    (hlast : ∀ s ready, P n s → Ends E Q (step s ready))
    (hrest : ∀ s ready, Q s → Ends E Q (step s ready)) (hn : 0 < n) {answers : List Bool} {s : σ}
    (hs : P 0 s) :
    Ends E (fun s' => if n ≤ answers.dropLast.count true then Q s' else ∃ d ≤ n, P d s')
      (answers.foldlM step s) := by
  refine (ends_polled_from hround hlast hrest (Nat.zero_le n) hs).post fun s' hs' => ?_
  have hiff : (answers ≠ [] ∧ n ≤ 0 + answers.dropLast.count true) ↔
      n ≤ answers.dropLast.count true := by
    rw [Nat.zero_add]
    refine ⟨fun h => h.2, fun h => ⟨?_, h⟩⟩
    rintro rfl
    rw [List.dropLast_nil, List.count_nil] at h
    omega
  simpa only [hiff] using hs'

end Polling
