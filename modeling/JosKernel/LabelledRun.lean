/-
**Runs of a labelled transition system.**

A run is a sequence of labelled steps; what is kept of it is the state before each step and the
label of the step, so that a condition on the steps of a run (`Run.Meets`) can speak about the state
a step was taken in.

Main definitions:

* `LabelledRun.Run` — the runs of a step relation, with their trace;
* `LabelledRun.Meets` — every step of a trace meets a condition;
* `LabelledRun.execAll` — the run of a partial step function along a list of labels.

Main results:

* `LabelledRun.Run.invariant` — a property of the initial state that every step meeting a
  condition preserves holds at the end of every run whose steps all meet the condition;
* `LabelledRun.Run.invariant_trace` — it also holds in every state the run passes through;
* `LabelledRun.Run.simulates` — a relation to an abstract machine, in the same way;
* `LabelledRun.run_of_execAll`, `LabelledRun.run_of_guarded` — the states computed along a list of
  labels are reached by a run.
-/

import Mathlib.Tactic.Common

set_option relaxedAutoImplicit false
set_option autoImplicit false

namespace LabelledRun

variable {σ α : Type*}

/-- **A run** from one state to another, with its trace: the state before each step and the label
of the step, in order. -/
inductive Run (step : σ → α → σ → Prop) : σ → List (σ × α) → σ → Prop
  | nil (s : σ) : Run step s [] s
  | snoc {s t u : σ} {tr : List (σ × α)} {a : α} :
      Run step s tr t → step t a u → Run step s (tr ++ [(t, a)]) u

/-- Every step of a trace meets the condition `G` in the state it is taken in. -/
def Meets (G : σ → α → Prop) (tr : List (σ × α)) : Prop := ∀ p ∈ tr, G p.1 p.2

theorem Meets.of_snoc {G : σ → α → Prop} {tr : List (σ × α)} {s : σ} {a : α}
    (h : Meets G (tr ++ [(s, a)])) : Meets G tr ∧ G s a :=
  ⟨fun p hp => h p (by simp [hp]), h (s, a) (by simp)⟩

theorem Meets.nil (G : σ → α → Prop) : Meets G [] := fun p hp => absurd hp (by simp)

theorem Meets.snoc {G : σ → α → Prop} {tr : List (σ × α)} {s : σ} {a : α} (h : Meets G tr)
    (ha : G s a) : Meets G (tr ++ [(s, a)]) := by
  intro p hp
  rcases List.mem_append.1 hp with hp | hp
  · exact h p hp
  · rw [List.mem_singleton] at hp
    subst hp
    exact ha

theorem Meets.trivial (tr : List (σ × α)) : Meets (fun _ _ => True) tr := fun _ _ => True.intro

/-- **Invariance along a run.**  What holds initially and is preserved by every step that meets
the condition holds at the end of a run whose steps all meet it. -/
theorem Run.invariant {step : σ → α → σ → Prop} {G : σ → α → Prop} {Inv : σ → Prop}
    (hstep : ∀ s a t, Inv s → G s a → step s a t → Inv t) {s t : σ} {tr : List (σ × α)}
    (hr : Run step s tr t) (hs : Inv s) (hG : Meets G tr) : Inv t := by
  induction hr with
  | nil => exact hs
  | snoc _ hst ih => exact hstep _ _ _ (ih hG.of_snoc.1) hG.of_snoc.2 hst

/-- An invariant also holds before every step of the run. -/
theorem Run.invariant_trace {step : σ → α → σ → Prop} {G : σ → α → Prop} {Inv : σ → Prop}
    (hstep : ∀ s a t, Inv s → G s a → step s a t → Inv t) {s t : σ} {tr : List (σ × α)}
    (hr : Run step s tr t) (hs : Inv s) (hG : Meets G tr) : ∀ p ∈ tr, Inv p.1 := by
  induction hr with
  | nil => intro p hp; simp at hp
  | snoc hrun _ ih =>
      intro p hp
      rcases List.mem_append.1 hp with hp | hp
      · exact ih hG.of_snoc.1 p hp
      · rw [List.mem_singleton] at hp
        subst hp
        exact hrun.invariant hstep hs hG.of_snoc.1

/-- **Simulation along a run.** A relation to the states of an abstract machine that runs by the
labels alone, which every step that meets the condition preserves, holds at the end of a run whose
steps all meet it. -/
theorem Run.simulates {β : Type*} {step : σ → α → σ → Prop} {G : σ → α → Prop} {abs : β → α → β}
    {R : σ → β → Prop} (hstep : ∀ s a t b, R s b → G s a → step s a t → R t (abs b a)) {s t : σ}
    {b : β} {tr : List (σ × α)} (hr : Run step s tr t) (hs : R s b) (hG : Meets G tr) :
    R t ((tr.map Prod.snd).foldl abs b) := by
  induction hr with
  | nil => exact hs
  | snoc _ hst ih =>
      rw [List.map_append, List.foldl_append]
      exact hstep _ _ _ _ (ih hG.of_snoc.1) hG.of_snoc.2 hst

/-! ### Runs of a step function -/

/-- The run of a partial step function along a list of labels. -/
def execAll (exec : σ → α → Option σ) : σ → List α → Option σ
  | s, [] => some s
  | s, a :: as => (exec s a).bind fun t => execAll exec t as

/-- Two runs one after the other are a run. -/
theorem Run.trans {step : σ → α → σ → Prop} {s t u : σ} {tr tr' : List (σ × α)}
    (h : Run step s tr t) (h' : Run step t tr' u) : Run step s (tr ++ tr') u := by
  induction h' with
  | nil => simpa using h
  | snoc _ hst ih =>
      rw [← List.append_assoc]
      exact ih.snoc hst

theorem Run.mono {step step' : σ → α → σ → Prop} (hle : ∀ s a t, step s a t → step' s a t)
    {s t : σ} {tr : List (σ × α)} (h : Run step s tr t) : Run step' s tr t := by
  induction h with
  | nil => exact Run.nil _
  | snoc _ hst ih => exact ih.snoc (hle _ _ _ hst)

/-- A run of guarded steps is a run whose steps all meet the guard. -/
theorem Run.meets {step : σ → α → σ → Prop} {G : σ → α → Prop} {s t : σ} {tr : List (σ × α)}
    (h : Run (fun s a t => G s a ∧ step s a t) s tr t) : Meets G tr := by
  induction h with
  | nil => exact Meets.nil G
  | snoc _ hst ih => exact ih.snoc hst.1

/-- **What a step function computes along a list of labels is reached by a run.** -/
theorem run_of_execAll {exec : σ → α → Option σ} : ∀ {as : List α} {s t : σ},
    execAll exec s as = some t →
      ∃ tr, Run (fun s a t => exec s a = some t) s tr t ∧ tr.map Prod.snd = as := by
  intro as
  induction as with
  | nil =>
      intro s t h
      rw [execAll, Option.some_inj] at h
      subst h
      exact ⟨[], Run.nil s, rfl⟩
  | cons a as ih =>
      intro s t h
      rw [execAll, Option.bind_eq_some_iff] at h
      obtain ⟨u, hu, ht⟩ := h
      obtain ⟨tr, hrun, htr⟩ := ih ht
      refine ⟨[(s, a)] ++ tr, Run.trans ((Run.nil s).snoc hu) hrun, ?_⟩
      simp [htr]

/-- The same for a function that stops at a step which does not meet a condition: the run it
computes meets the condition. -/
theorem run_of_guarded {exec : σ → α → Option σ} {step : σ → α → σ → Prop} {G : σ → α → Prop}
    [∀ s a, Decidable (G s a)] (hstep : ∀ s a t, exec s a = some t → step s a t) {as : List α}
    {s t : σ} (h : execAll (fun s a => if G s a then exec s a else none) s as = some t) :
    ∃ tr, Run step s tr t ∧ Meets G tr ∧ tr.map Prod.snd = as := by
  obtain ⟨tr, hrun, htr⟩ := run_of_execAll h
  have hguard : Run (fun s a t => G s a ∧ step s a t) s tr t := by
    refine hrun.mono fun s a t hst => ?_
    split at hst
    · rename_i hg
      exact ⟨hg, hstep s a t hst⟩
    · exact absurd hst (by simp)
  exact ⟨tr, hguard.mono fun _ _ _ hst => hst.2, hguard.meets, htr⟩

end LabelledRun
