/-
**What a critical section does to the table.**

Who sleeps and who can be woken depends on a small part of the state: statuses, ids, `wait_id`, the
free slots, `drc_map`, the tasklets and every processor's `curenv`.  This module says once how a
critical section changes it: `Jos.Entry` lists what happens up to the call of the scheduler, and
`Jos.SchedStable` what a property has to survive so that it survives `sched_yield`.

Main definitions:

* `Jos.SameTable` — the two states agree on that part;
* `Jos.Entry` — the changes up to the call of the scheduler;
* `Jos.SchedStable` — the changes that the scheduler makes.

Main results:

* `Jos.enter_entry` — every critical section is one of those changes;
* `Jos.SchedStable.schedYield`, `Jos.SchedStable.proceed` — the rule for the scheduler.
-/

import JosKernel.SchedStep

set_option relaxedAutoImplicit false
set_option autoImplicit false

namespace Jos

open Outcome

/-! ### The part of the state that matters -/

/-- Nothing that decides about sleeping and waking has changed. -/
structure SameTable (s t : Kernel) : Prop where
  status : ∀ x, t.status x = s.status x
  envId : ∀ x, (t.envs x).envId = (s.envs x).envId
  waitId : ∀ x, (t.envs x).waitId = (s.envs x).waitId
  curenv : ∀ d, t.curenv d = s.curenv d
  freeList : t.envFreeList = s.envFreeList
  drcMap : t.drcMap = s.drcMap
  tList : t.tList = s.tList
  freed : t.freed = s.freed

theorem SameTable.refl (s : Kernel) : SameTable s s :=
  ⟨fun _ => rfl, fun _ => rfl, fun _ => rfl, fun _ => rfl, rfl, rfl, rfl, rfl⟩

theorem SameTable.symm {s t : Kernel} (h : SameTable s t) : SameTable t s :=
  ⟨fun x => (h.status x).symm, fun x => (h.envId x).symm, fun x => (h.waitId x).symm,
    fun d => (h.curenv d).symm, h.freeList.symm, h.drcMap.symm, h.tList.symm, h.freed.symm⟩

/-- A change of one environment that is about its time slice or its processor. -/
theorem SameTable.modEnv (s : Kernel) (y : ℕ) {f : Env → Env}
    (hf : ∀ e, (f e).status = e.status ∧ (f e).envId = e.envId ∧ (f e).waitId = e.waitId) :
    SameTable s (s.modEnv y f) := by
  have hsame : ∀ x, ((s.modEnv y f).envs x).status = (s.envs x).status ∧
      ((s.modEnv y f).envs x).envId = (s.envs x).envId ∧
      ((s.modEnv y f).envs x).waitId = (s.envs x).waitId := by
    intro x
    by_cases hx : x = y
    · subst hx
      simpa [Kernel.modEnv] using hf (s.envs x)
    · simp [Kernel.modEnv, hx]
  exact ⟨fun x => (hsame x).1, fun x => (hsame x).2.1, fun x => (hsame x).2.2, fun _ => rfl, rfl,
    rfl, rfl, rfl⟩

theorem SameTable.setPc (s : Kernel) (c : ℕ) (pc : Pc) : SameTable s (s.setPc c pc) :=
  ⟨fun _ => rfl, fun _ => rfl, fun _ => rfl, fun d => Kernel.curenv_setPc s c d pc, rfl, rfl, rfl,
    rfl⟩

theorem SameTable.invalidateEnvTs (s : Kernel) (x : ℕ) : SameTable s (invalidateEnvTs s x) :=
  SameTable.modEnv s x (f := fun e => { e with timeSlice := tsDefault * 2 }) fun _ =>
    ⟨rfl, rfl, rfl⟩

theorem SameTable.chargeSlice (s : Kernel) (x : ℕ) (tick : BitVec 64) :
    SameTable s (chargeSlice s x tick) := by
  have h := SameTable.modEnv s x
    (f := fun e => { e with timeSlice := e.timeSlice - calculateDelta tick s.lastTick })
    fun _ => ⟨rfl, rfl, rfl⟩
  exact ⟨h.status, h.envId, h.waitId, h.curenv, h.freeList, h.drcMap, h.tList, h.freed⟩

/-! ### Up to the call of the scheduler -/

/-- The environment goes to sleep on `drc_map`. -/
def sleepsOnDrc (s : Kernel) : Act → Bool
  | .dispatch (.pageFault .beingSwapped) => true
  | .dispatch (.pageFault .swapped) => ¬ s.tList.length < nTasklets
  | _ => false

/-- **What a critical section of processor `c` does to the table** before it calls the scheduler.
The state `s₁` differs from `s` in the history at most. -/
inductive Entry (c : ℕ) (s : Kernel) : Act → Kernel → Prop
  | quiet {a : Act} {t : Kernel} (ht : SameTable s t) : Entry c s a t
  | kill {a : Act} {s₁ : Kernel} {x : ℕ} (hs : SameTable s s₁) (hx : s.status x = .running)
      (hc : s.curenv c ≠ some x) : Entry c s a (s₁.setStatus x .dying)
  | free {a : Act} {s₁ : Kernel} {x : ℕ} (hs : SameTable s s₁) (hx : freeTarget s c a = some x)
      (hc : s.curenv c ≠ some x) : Entry c s a (envFree s₁ c x)
  | freeOwn {a : Act} {s₁ : Kernel} {x : ℕ} (hs : SameTable s s₁) (hx : freeTarget s c a = some x)
      (hc : s.curenv c = some x) : Entry c s a ((envFree s₁ c x).setCurenv c none)
  | sleepOnDrc {a : Act} {x : ℕ} (hc : s.curenv c = some x) (ha : sleepsOnDrc s a = true) :
      Entry c s a (sleepOnDrc s x)
  | swapIn {x : ℕ} (hc : s.curenv c = some x) :
      Entry c s (.dispatch (.pageFault .swapped))
        { s.setStatus x .sleeping with tList := s.tList ++ [taskFor s .pageIn x] }
  | wait {x y : ℕ} {envid : BitVec 32} (hc : s.curenv c = some x)
      (hy : envid2env s c envid false = some y) :
      Entry c s (.dispatch (.syscall (.wait envid)))
        (s.modEnv x fun e => { e with waitId := envid, status := .sleeping })
  | fork {o : ForkOutcome} {parentId : BitVec 32} {type : EnvType} {y : ℕ} {s₁ t : Kernel}
      (ho : o ≠ .noMem) (halloc : envAlloc s parentId type = some (y, s₁)) (ht : SameTable s₁ t) :
      Entry c s (.dispatch (.syscall (.fork o))) t
  | round {ready pteFound : Bool} {τ : Tasklet} {rest : List Tasklet} (n : ℕ)
      (hτ : s.tList = τ :: rest) :
      Entry c s (.ktask ready pteFound) { s with tList := { τ with count := n } :: rest }
  | pageOut {ready pteFound : Bool} {τ : Tasklet} {rest : List Tasklet} (hτ : s.tList = τ :: rest)
      (hf : τ.fptr = .pageOut) : Entry c s (.ktask ready pteFound) { s with tList := rest }
  | pageIn {ready pteFound : Bool} {τ : Tasklet} {rest : List Tasklet} (hτ : s.tList = τ :: rest)
      (hf : τ.fptr = .pageIn) (hn : nSectors ≤ τ.count) (hx : s.status τ.requestorEnv ≠ .free) :
      Entry c s (.ktask ready pteFound)
        { s.setStatus τ.requestorEnv .runnable with tList := rest }

theorem envDestroy_entry {s : Kernel} {c e : ℕ} {a : Act}
    (htarget : ¬ (s.status e = .running ∧ s.curenv c ≠ some e) → freeTarget s c a = some e) :
    Entry c s a (envDestroy s c e).1 := by
  have hs : SameTable s { s with killed := Function.update s.killed e true } :=
    ⟨fun _ => rfl, fun _ => rfl, fun _ => rfl, fun _ => rfl, rfl, rfl, rfl, rfl⟩
  unfold envDestroy
  dsimp only
  split
  · rename_i hrun
    exact Entry.kill hs hrun.1 hrun.2
  · rename_i hnrun
    have htarget := htarget hnrun
    split
    · rename_i hc
      exact Entry.freeOwn hs htarget hc
    · rename_i hc
      exact Entry.free hs htarget hc

/-- An environment that runs into its own end is freed. -/
theorem envDestroy_own_entry {s : Kernel} {c x : ℕ} {a : Act} (hc : s.curenv c = some x)
    (htarget : freeTarget s c a = s.curenv c) : Entry c s a (envDestroy s c x).1 :=
  envDestroy_entry fun _ => htarget.trans hc

theorem syscall_entry {s : Kernel} {c x : ℕ} {sc : Sys} (hc : s.curenv c = some x) :
    Entry c s (.dispatch (.syscall sc)) (syscall s c x sc).1 := by
  cases sc with
  | other => exact Entry.quiet (SameTable.refl s)
  | cputsBad => exact envDestroy_own_entry hc rfl
  | yield => exact Entry.quiet (SameTable.invalidateEnvTs s x)
  | envDestroy envid =>
      simp only [syscall, sysEnvDestroy]
      cases he : envid2env s c envid true with
      | none => exact Entry.quiet (SameTable.refl s)
      | some e =>
          refine envDestroy_entry fun hnrun => ?_
          simp only [freeTarget, he, Option.filter_some]
          rw [if_pos (decide_eq_true hnrun)]
  | wait envid =>
      simp only [syscall, sysWait]
      cases he : envid2env s c envid false with
      | none => exact Entry.quiet (SameTable.refl s)
      | some y => exact Entry.wait hc he
  | fork o =>
      change Entry c s _ (sysFork s x o).1
      cases hfork : sysFork s x o with
      | mk s' next =>
          have ho : s' ≠ s → o ≠ .noMem := by
            rintro hne rfl
            exact hne (Prod.mk.inj hfork).1.symm
          rcases sysFork_cases hfork with ⟨rfl, -⟩ | ⟨y, s₁, halloc, hs'⟩
          · exact Entry.quiet (SameTable.refl s')
          · by_cases hsame : s' = s
            · subst hsame
              exact Entry.quiet (SameTable.refl s')
            · rcases hs' with ⟨rfl, -⟩ | ⟨rfl, -⟩
              · exact Entry.fork (ho hsame) halloc (SameTable.refl s')
              · exact Entry.fork (ho hsame) halloc (SameTable.invalidateEnvTs s₁ x)

theorem trapDispatch_entry {s : Kernel} {c x : ℕ} {tp : Trap} (hc : s.curenv c = some x) :
    Entry c s (.dispatch tp) (trapDispatch s c x tp).1 := by
  cases tp with
  | spurious => exact Entry.quiet (SameTable.refl s)
  | breakpoint => exact Entry.quiet (SameTable.refl s)
  | timer => exact Entry.quiet (SameTable.refl s)
  | unexpected => exact envDestroy_own_entry hc rfl
  | syscall sc => exact syscall_entry hc
  | pageFault f =>
      cases f with
      | handled => exact Entry.quiet (SameTable.refl s)
      | kill => exact envDestroy_own_entry hc rfl
      | beingSwapped => exact Entry.sleepOnDrc hc rfl
      | swapped =>
          simp only [trapDispatch, pageFaultHandler, swapIn]
          split
          · have hid : taskFor (s.setStatus x .sleeping) .pageIn x = taskFor s .pageIn x := by
              simp [taskFor, Kernel.setStatus, Kernel.modEnv]
            rw [hid]
            exact Entry.swapIn hc
          · rename_i hfull
            exact Entry.sleepOnDrc hc (by simpa [sleepsOnDrc] using hfull)

theorem ktaskRound_entry {s s' : Kernel} {c : ℕ} {ready pteFound : Bool}
    (hr : ktaskRound s ready pteFound = Except.ok s') : Entry c s (.ktask ready pteFound) s' := by
  obtain ⟨-, rfl⟩ | ⟨τ, rest, hτ, ⟨-, rfl⟩ | ⟨-, hf, rfl⟩ | ⟨hn, hf, s₁, hdone, rfl⟩⟩ :=
    ktaskRound_cases hr
  · exact Entry.quiet (SameTable.refl _)
  · exact Entry.round _ hτ
  · exact Entry.pageOut hτ hf
  · obtain ⟨hlive, -, rfl⟩ := pageInDone_ok hdone
    exact Entry.pageIn hτ hf hn hlive

/-- **Every critical section up to its call of the scheduler.** -/
theorem enter_entry {s s' : Kernel} {c : ℕ} {a : Act} {next : Next}
    (hr : enter s c a = Except.ok (s', next)) : Entry c s a s' := by
  by_cases hact : a = .sched
  · subst hact
    obtain ⟨rfl, -⟩ := Prod.mk.inj (Except.ok.inj hr)
    exact Entry.quiet (SameTable.refl s)
  obtain ⟨x, hc⟩ := curenv_of_enter hr hact
  cases a with
  | sched => exact absurd rfl hact
  | pop =>
      simp only [enter, hc] at hr
      obtain ⟨rfl, -⟩ := Prod.mk.inj (Except.ok.inj hr)
      exact Entry.quiet (SameTable.modEnv s x fun _ => ⟨rfl, rfl, rfl⟩)
  | trap =>
      simp only [enter, hc] at hr
      have hs' : (trapEntry s c x).1 = s' := congrArg Prod.fst (Except.ok.inj hr)
      unfold trapEntry at hs'
      split at hs'
      · rename_i hdying
        rw [← hs']
        refine Entry.freeOwn (SameTable.refl s) ?_ hc
        simp [freeTarget, hc, hdying]
      · rw [← hs']
        exact Entry.quiet (SameTable.refl s)
  | dispatch tp =>
      simp only [enter, hc] at hr
      have hs' : (trapDispatch s c x tp).1 = s' := congrArg Prod.fst (Except.ok.inj hr)
      rw [← hs']
      exact trapDispatch_entry hc
  | tail =>
      simp only [enter, hc] at hr
      obtain ⟨rfl, -⟩ := Prod.mk.inj (Except.ok.inj hr)
      exact Entry.quiet (SameTable.refl s)
  | ktask ready pteFound =>
      simp only [enter, hc] at hr
      obtain ⟨s₁, hround, hr⟩ := bind_eq_ok.1 hr
      obtain ⟨rfl, -⟩ := Prod.mk.inj (Except.ok.inj hr)
      exact ktaskRound_entry hround

/-- A critical section that ends in `env_run` returns to its own environment. -/
theorem enter_run {s s' : Kernel} {c e : ℕ} {a : Act}
    (hr : enter s c a = Except.ok (s', .run e)) : s'.curenv c = some e := by
  by_cases hact : a = .sched
  · subst hact
    exact absurd (Prod.mk.inj (Except.ok.inj hr)).2 (by simp)
  obtain ⟨x, hc⟩ := curenv_of_enter hr hact
  cases a with
  | sched => exact absurd rfl hact
  | pop =>
      simp only [enter, hc] at hr
      exact absurd (Prod.mk.inj (Except.ok.inj hr)).2 (by simp)
  | trap =>
      simp only [enter, hc] at hr
      have hnext := congrArg Prod.snd (Except.ok.inj hr)
      unfold trapEntry at hnext
      split at hnext <;> exact absurd hnext (by simp)
  | dispatch tp =>
      simp only [enter, hc] at hr
      have hnext : (trapDispatch s c x tp).2 = .run e := congrArg Prod.snd (Except.ok.inj hr)
      rcases trapDispatch_next s c x tp with hn | hn <;> rw [hn] at hnext <;> simp at hnext
  | tail =>
      simp only [enter, hc] at hr
      obtain ⟨rfl, hnext⟩ := Prod.mk.inj (Except.ok.inj hr)
      unfold trapTail at hnext
      split at hnext
      · rw [hc, Next.run.inj hnext]
      · exact absurd hnext (by simp)
  | ktask ready pteFound =>
      simp only [enter, hc] at hr
      obtain ⟨s₁, -, hr⟩ := bind_eq_ok.1 hr
      exact absurd (Prod.mk.inj (Except.ok.inj hr)).2 (by simp)

/-! ### The scheduler -/

/-- What a property has to survive while the scheduler of processor `c` makes its choice. -/
structure PickStable (P : Kernel → Prop) : Prop where
  quiet : ∀ s t, SameTable s t → P s → P t
  resume : ∀ s, P s → P (resumeEnv s)
  reclaim : ∀ s requestors, P s → P (reclaimPgs s requestors)

/-- An environment that the scheduler looks for. -/
def Ready (s : Kernel) (e : ℕ) : Prop := s.status e = .runnable ∨ s.status e = .running

theorem Ready.congr {s t : Kernel} {e : ℕ} (h : Ready s e) (ht : SameTable s t) : Ready t e := by
  unfold Ready
  rw [ht.status]
  exact h

theorem Ready.ne_free {s : Kernel} {e : ℕ} (h : Ready s e) : s.status e ≠ .free := by
  rcases h with h | h <;> simp [h]

theorem Ready.ne_sleeping {s : Kernel} {e : ℕ} (h : Ready s e) : s.status e ≠ .sleeping := by
  rcases h with h | h <;> simp [h]

section Pick

variable {P : Kernel → Prop} (hP : PickStable P) {s s' : Kernel} {c : ℕ} {o : Option ℕ}

include hP

theorem PickStable.checkWork {w : Work} (h : P s) (hr : checkWork s c w = (s', o)) :
    P s' ∧ ∀ e, o = some e → Ready s' e := by
  have hrel : P (relieve s w) := by
    cases w with
    | resume => exact hP.resume s h
    | reclaim requestors => exact hP.reclaim s requestors h
  obtain ⟨rfl, rfl⟩ | ⟨k, rfl, hk, rfl⟩ := checkWork_cases hr
  · exact ⟨hrel, fun e he => absurd he (by simp)⟩
  · have hsame :=
      SameTable.modEnv (relieve s w) k (f := fun e => { e with timeSlice := tsDefault * 2 })
      fun _ => ⟨rfl, rfl, rfl⟩
    refine ⟨hP.quiet _ _ hsame hrel, fun e he => ?_⟩
    obtain rfl := Option.some_inj.1 he
    refine Ready.congr ?_ hsame
    rcases (kthreadFor_spec hk).2 with hst | ⟨hst, -⟩
    · exact Or.inl hst
    · exact Or.inr hst

theorem PickStable.lookupPick {i : ℕ} {inp : SchedInput} (h : P s)
    (hr : lookupPick s c i inp = Except.ok (s', o)) : P s' ∧ ∀ e, o = some e → Ready s' e := by
  unfold Jos.lookupPick at hr
  obtain ⟨found, hfound, hr⟩ := bind_eq_ok.1 hr
  cases found with
  | some e =>
      obtain ⟨rfl, rfl⟩ := Prod.mk.inj (Except.ok.inj hr)
      have hsame := SameTable.modEnv s e (f := fun env => { env with timeSlice := tsDefault })
        fun _ => ⟨rfl, rfl, rfl⟩
      refine ⟨hP.quiet _ _ hsame h, fun e' he' => ?_⟩
      obtain rfl := Option.some_inj.1 he'
      refine Ready.congr ?_ hsame
      rcases lookupLoop_spec hfound with hst | ⟨⟨hst, -⟩, -⟩
      · exact Or.inl hst
      · exact Or.inr hst
  | none =>
      dsimp only at hr
      unfold schedHaltPick at hr
      cases hwork : Jos.checkWork s c inp.workHalt with
      | mk s₁ o₁ =>
          have hspec := hP.checkWork h hwork
          simp only [hwork] at hr
          cases o₁ with
          | some k =>
              obtain ⟨rfl, rfl⟩ := Prod.mk.inj (Except.ok.inj hr)
              exact hspec
          | none =>
              dsimp only at hr
              split at hr
              · obtain ⟨rfl, rfl⟩ := Prod.mk.inj (Except.ok.inj hr)
                exact hspec
              · exact absurd hr (by simp [throw, throwThe, MonadExceptOf.throw])

/-- **The choice of the scheduler.** -/
theorem PickStable.schedPick {inp : SchedInput} (h : P s)
    (hr : schedPick s c inp = Except.ok (s', o)) :
    P s' ∧ ∀ e, o = some e → Ready s' e ∨ s'.curenv c = some e := by
  have hready : (P s' ∧ ∀ e, o = some e → Ready s' e) →
      P s' ∧ ∀ e, o = some e → Ready s' e ∨ s'.curenv c = some e :=
    fun h => ⟨h.1, fun e he => Or.inl (h.2 e he)⟩
  unfold Jos.schedPick at hr
  cases hc : s.curenv c with
  | none =>
      rw [hc] at hr
      refine hready (hP.lookupPick (hP.quiet _ _ ?_ h) hr)
      exact ⟨fun _ => rfl, fun _ => rfl, fun _ => rfl, fun _ => rfl, rfl, rfl, rfl, rfl⟩
  | some x =>
      rw [hc] at hr
      dsimp only at hr
      split at hr
      · exact hready (hP.lookupPick h hr)
      · have hsame := SameTable.chargeSlice s x inp.tick
        have h₁ := hP.quiet _ _ hsame h
        generalize chargeSlice s x inp.tick = s₁ at hsame h₁ hr
        split at hr
        · obtain ⟨rfl, rfl⟩ := Prod.mk.inj (Except.ok.inj hr)
          refine ⟨h₁, fun e he => ?_⟩
          obtain rfl := Option.some_inj.1 he
          exact Or.inr ((hsame.curenv c).trans hc)
        · split at hr
          · exact hready (hP.lookupPick h₁ hr)
          · cases hwork : Jos.checkWork s₁ c inp.work with
            | mk s₂ o₂ =>
                have hspec := hP.checkWork h₁ hwork
                simp only [hwork] at hr
                cases o₂ with
                | some k =>
                    obtain ⟨rfl, rfl⟩ := Prod.mk.inj (Except.ok.inj hr)
                    exact hready hspec
                | none => exact hready (hP.lookupPick hspec.1 hr)

end Pick

/-- **What a property has to survive in the scheduler** of processor `c`. -/
structure SchedStable (c : ℕ) (P : Kernel → Prop) : Prop extends PickStable P where
  release : ∀ s x, P s → s.curenv c = some x → P (s.setStatus x .runnable)
  collect : ∀ s x, P s → s.curenv c = some x → s.status x = .dying → P (envFree s c x)
  take : ∀ s e, P s → s.status e ≠ .free → s.status e ≠ .sleeping →
    P ((s.setCurenv c (some e)).setStatus e .running)
  drop : ∀ s, P s → P (s.setCurenv c none)

section Yield

variable {c : ℕ} {P : Kernel → Prop} (hP : SchedStable c P) {s t : Kernel}

include hP

theorem SchedStable.schedHalt (h : P s) : P (schedHalt s c) := by
  unfold Jos.schedHalt
  refine hP.quiet _ _ (SameTable.setPc _ c .halted) (hP.drop _ ?_)
  cases hc : s.curenv c with
  | none => exact h
  | some x => exact hP.release s x h hc

theorem SchedStable.envRun {e : ℕ} (h : P s) (he : Ready s e ∨ s.curenv c = some e)
    (hr : envRun s c e = Except.ok t) : P t := by
  obtain ⟨-, rfl⟩ | ⟨hne, s₁, rfl, hleft⟩ := envRun_cases hr
  · exact hP.quiet _ _ (SameTable.setPc s c .entering) h
  · have he : Ready s e := he.resolve_right hne
    have henter : ∀ u : Kernel, P u → Ready u e →
        P (((u.setCurenv c (some e)).setStatus e .running).setPc c .entering) := fun u hu hst =>
      hP.quiet _ _ (SameTable.setPc _ c .entering) (hP.take u e hu hst.ne_free hst.ne_sleeping)
    rcases hleft with ⟨-, rfl⟩ | ⟨old, hc, hleave⟩
    · exact henter s₁ h he
    · have hold : e ≠ old := by
        rintro rfl
        exact hne hc
      suffices hs₁ : P s₁ ∧ Ready s₁ e from henter s₁ hs₁.1 hs₁.2
      obtain ⟨-, rfl⟩ | ⟨hdying, rfl⟩ | ⟨-, rfl⟩ := envLeave_cases hleave
      · refine ⟨hP.release s old h hc, ?_⟩
        unfold Ready
        rwa [Kernel.status_setStatus, if_neg hold]
      · refine ⟨hP.collect s old h hc hdying, ?_⟩
        unfold Ready
        rw [status_envFree, if_neg hold]
        rcases status_notify s (s.envs old).envId e with hsame | ⟨-, -, hrun⟩
        · rwa [hsame]
        · exact Or.inl hrun
      · exact ⟨h, he⟩

/-- **The rule for `sched_yield`.** -/
theorem SchedStable.schedYield {inp : SchedInput} (h : P s)
    (hr : schedYield s c inp = Except.ok t) : P t := by
  unfold Jos.schedYield at hr
  obtain ⟨⟨s₁, o⟩, hpick, hr⟩ := bind_eq_ok.1 hr
  obtain ⟨h₁, hchosen⟩ := hP.schedPick h hpick
  cases o with
  | some e => exact hP.envRun h₁ (hchosen e rfl) hr
  | none =>
      obtain rfl := Except.ok.inj hr
      exact hP.schedHalt h₁

/-- The rest of a critical section. -/
theorem SchedStable.proceed {inp : SchedInput} {next : Next} (h : P s)
    (hrun : ∀ e, next = .run e → s.curenv c = some e)
    (hr : proceed s c inp next = Except.ok t) : P t := by
  cases next with
  | yield => exact hP.schedYield h hr
  | run e => exact hP.envRun h (Or.inr (hrun e rfl)) hr
  | unlock pc =>
      obtain rfl := Except.ok.inj hr
      exact hP.quiet _ _ (SameTable.setPc s c pc) h

end Yield

/-- **The rule for a step**: a property that the critical section establishes and that the scheduler
keeps holds after the step. -/
theorem SchedStable.step {P : Kernel → Prop} {s t : Kernel} {a : Label}
    (hP : SchedStable a.cpu P) (hentry : ∀ s', Entry a.cpu s a.act s' → P s')
    (hstep : kernelStep s a t) : P t := by
  obtain ⟨-, hexec⟩ := hstep
  unfold kernelExec at hexec
  obtain ⟨⟨s', next⟩, henter, hproceed⟩ := bind_eq_ok.1 hexec
  refine hP.proceed (hentry s' (enter_entry henter)) ?_ hproceed
  rintro e rfl
  exact enter_run henter

end Jos
