/-
**Careful steps of the kernel.**

The invariant of the scheduler is not kept by every step the kernel can take.  `Jos.Careful` names
the steps that keep it: a sleeping environment is only woken when no processor holds it, an
environment is only judged by `env_cpunum` when that field is up to date, and an environment that
another processor holds is only destroyed while its status is `ENV_RUNNING`.

Main definitions:

* `Jos.Careful` — the condition on a step;
* `Jos.RunInv` — the invariant of runs of such steps.

Main results:

* `Jos.ReadyToYield.schedYield` — the scheduler restores the invariant;
* `Jos.RunInv.enter` — every critical section up to its call of the scheduler;
* `Jos.RunInv.step_spec` — one careful step.
-/

import JosKernel.SchedInv

set_option relaxedAutoImplicit false
set_option autoImplicit false

namespace Jos

/-! ### The conditions on a step -/

/-- The environment that a critical section frees before it calls the scheduler, if any. -/
def freeTarget (s : Kernel) (c : ℕ) : Act → Option ℕ
  | .trap => (s.curenv c).filter fun x => s.status x = .dying
  | .dispatch (.pageFault .kill) => s.curenv c
  | .dispatch .unexpected => s.curenv c
  | .dispatch (.syscall .cputsBad) => s.curenv c
  | .dispatch (.syscall (.envDestroy envid)) =>
      (envid2env s c envid true).filter fun y => ¬ (s.status y = .running ∧ s.curenv c ≠ some y)
  | _ => none

/-- **A step that keeps the invariant of the scheduler.** -/
structure Careful (s : Kernel) (a : Label) : Prop where
  /-- A `page_in` that ends wakes an environment that no processor holds. -/
  pageIn : ∀ ready pteFound t rest, a.act = .ktask ready pteFound → s.tList = t :: rest →
    t.fptr = .pageIn → nSectors ≤ t.count → ∀ d, s.curenv d ≠ some t.requestorEnv
  /-- A system call destroys an environment that another processor holds only while it is
  running. -/
  destroy : ∀ envid y, a.act = .dispatch (.syscall (.envDestroy envid)) →
    envid2env s a.cpu envid true = some y → s.status y ≠ .running →
    ∀ d ≠ a.cpu, s.curenv d ≠ some y
  /-- An environment that is freed wakes nobody whom a processor holds. -/
  waits : ∀ y, freeTarget s a.cpu a.act = some y → FreeQuiet s y
  /-- The scheduler is called in a state that suits it. -/
  yield : ∀ s', enter s a.cpu a.act = Except.ok (s', .yield) → YieldOk s' a.cpu a.inp

/-! ### The invariant between critical sections -/

/-- A processor in user mode or in a trap holds no kernel thread. -/
def Placed (s : Kernel) : Prop :=
  ∀ c x, s.curenv c = some x → (s.cpus c).pc = .user ∨ (s.cpus c).pc = .dispatch ∨
    (s.cpus c).pc = .tail → nKThreads ≤ x

/-- The invariant of a run of careful steps. -/
structure RunInv (s : Kernel) : Prop where
  sched : SchedInv s
  placed : Placed s

/-- What a critical section has established when it calls the scheduler. -/
structure ReadyToYield (c : ℕ) (s : Kernel) : Prop where
  lax : LaxInv c s
  own : ∀ x, s.curenv c = some x → s.status x ≠ .runnable

theorem SchedInv.readyToYield {s : Kernel} (h : SchedInv s) (c : ℕ) : ReadyToYield c s :=
  ⟨h.lax c, h.strict c⟩

/-- An environment that a processor is about to enter is running. -/
def Arrived (t : Kernel) (c : ℕ) : Prop :=
  ∀ x, t.curenv c = some x → t.status x = .running

/-- **`sched_yield`** restores the invariant. -/
theorem ReadyToYield.schedYield {c : ℕ} {s t : Kernel} {inp : SchedInput} (h : ReadyToYield c s)
    (hok : YieldOk s c inp) (hr : schedYield s c inp = Except.ok t) : SchedInv t ∧ Arrived t c := by
  unfold Jos.schedYield at hr
  obtain ⟨⟨s₁, o⟩, hpick, hr⟩ := bind_eq_ok.1 hr
  obtain ⟨hlax, hset, htarget⟩ := h.lax.schedPick hok h.own hpick
  cases o with
  | none =>
      obtain rfl := (Except.ok.inj hr).symm
      refine ⟨hlax.schedHalt, fun x hx => ?_⟩
      simp [Jos.schedHalt, Kernel.curenv_setCurenv] at hx
  | some e =>
      have hquiet : ∀ old, s₁.curenv c = some old → s₁.status old = .dying → FreeQuiet s₁ old := by
        intro old hold hst
        rw [hset.curenv] at hold
        have hdying : s.status old = .dying := by
          rcases hset.status old with he | ⟨-, hrun⟩
          · rw [← he]
            exact hst
          · rw [hrun] at hst
            exact absurd hst (by simp)
        exact hset.freeQuiet (hok.quiet old hold hdying)
      obtain ⟨hinv, hcur, hrun⟩ := hlax.envRun (htarget e rfl) hquiet hr
      refine ⟨hinv, fun x hx => ?_⟩
      rw [hcur, Option.some_inj] at hx
      rw [← hx]
      exact hrun

/-! ### Parts of a critical section -/

theorem newEnvId_ne_zero (old : BitVec 32) (x : ℕ) : newEnvId old x ≠ 0 := by
  unfold newEnvId
  dsimp only
  intro h
  have hgen := (BitVec.or_eq_zero_iff.1 h).1
  split at hgen
  · exact absurd hgen (by decide)
  · rename_i hpos
    rw [hgen] at hpos
    exact hpos (by decide)

/-- What `env_alloc` does not touch.  A slot that is used again counts as not destroyed. -/
theorem envAlloc_frame {s s' : Kernel} {parentId : BitVec 32} {type : EnvType} {x : ℕ}
    (hr : envAlloc s parentId type = some (x, s')) :
    s'.cpus = s.cpus ∧ s'.killed = Function.update s.killed x false ∧
      ∀ y ≠ x, s'.envs y = s.envs y := by
  unfold envAlloc at hr
  cases hl : s.envFreeList with
  | nil => rw [hl] at hr; exact absurd hr (by simp)
  | cons z rest =>
      rw [hl] at hr
      obtain ⟨rfl, rfl⟩ := Prod.mk.inj (Option.some_inj.1 hr)
      exact ⟨rfl, rfl, fun y hy => Function.update_of_ne hy ..⟩

/-- A new environment takes a slot that nobody holds. -/
theorem SchedInv.envAlloc {s s' : Kernel} {parentId : BitVec 32} {type : EnvType} {x : ℕ}
    (h : SchedInv s) (hr : envAlloc s parentId type = some (x, s')) : SchedInv s' := by
  unfold Jos.envAlloc at hr
  cases hl : s.envFreeList with
  | nil => rw [hl] at hr; exact absurd hr (by simp)
  | cons y rest =>
      rw [hl] at hr
      obtain ⟨rfl, rfl⟩ := Prod.mk.inj (Option.some_inj.1 hr)
      have hlax := h.lax 0
      have hfree : s.status y = .free := hlax.unused y (by rw [hl]; simp)
      have hheld : ∀ d, s.curenv d ≠ some y := fun d hd => (hlax.busy d y hd).1 hfree
      have hnodup : y ∉ rest ∧ rest.Nodup := by
        have hnd := hlax.nodup
        rw [hl] at hnd
        exact List.nodup_cons.1 hnd
      have hk : nKThreads ≤ y := hlax.kthreads.unlisted y (by rw [hl]; simp)
      set f : Env → Env := fun e =>
        { e with envId := newEnvId e.envId y, parentId := parentId, type := type,
                 status := .runnable } with hf
      have hst : ∀ x, (s.modEnv y f).status x = if x = y then .runnable else s.status x :=
        fun x => s.status_modEnv x y f
      have henv : ∀ x ≠ y, (s.modEnv y f).envs x = s.envs x :=
        fun x hx => Function.update_of_ne hx ..
      refine LaxInv.toSchedInv (c := 0) ?_ ?_
      · refine
          { inj := hlax.inj, busy := ?_, live := ?_, nodup := hnodup.2, unused := ?_,
            safe := hlax.safe, kthreads := ?_ }
        · intro d x hd
          have hxy : x ≠ y := by
            rintro rfl
            exact hheld d hd
          change (s.modEnv y f).status x ≠ .free ∧ (d ≠ 0 → (s.modEnv y f).status x ≠ .runnable)
          rw [hst, if_neg hxy]
          exact hlax.busy d x hd
        · intro x hx
          change (s.modEnv y f).status x = .running ∨ (s.modEnv y f).status x = .dying at hx
          rw [hst] at hx
          by_cases hxy : x = y
          · simp [hxy] at hx
          · rw [if_neg hxy] at hx
            exact hlax.live x hx
        · intro x hx
          have hxy : x ≠ y := by
            rintro rfl
            exact hnodup.1 hx
          change (s.modEnv y f).status x = .free
          rw [hst, if_neg hxy]
          exact hlax.unused x (by rw [hl]; exact List.mem_cons_of_mem _ hx)
        · refine
            { type := ?_, parent := ?_, status := ?_, unlisted := ?_, ids := ?_ }
          · intro x hx
            change ((s.modEnv y f).envs x).type = .kernel
            rw [henv x (by omega)]
            exact hlax.kthreads.type x hx
          · intro x hx
            change ((s.modEnv y f).envs x).parentId = 0
            rw [henv x (by omega)]
            exact hlax.kthreads.parent x hx
          · intro x hx
            change (s.modEnv y f).status x = .runnable ∨ (s.modEnv y f).status x = .running
            rw [hst, if_neg (by omega)]
            exact hlax.kthreads.status x hx
          · intro x hx
            exact hlax.kthreads.unlisted x (by rw [hl]; exact List.mem_cons_of_mem _ hx)
          · intro x hx
            change ((s.modEnv y f).envs x).envId ≠ 0
            by_cases hxy : x = y
            · have hself : (s.modEnv y f).envs y = f (s.envs y) := Function.update_self ..
              rw [hxy, hself]
              exact newEnvId_ne_zero _ _
            · rw [henv x hxy]
              refine hlax.kthreads.ids x ?_
              change (s.modEnv y f).status x ≠ .free at hx
              rwa [hst, if_neg hxy] at hx
      · intro x hx
        have hxy : x ≠ y := by
          rintro rfl
          exact hheld 0 hx
        change (s.modEnv y f).status x ≠ .runnable
        rw [hst, if_neg hxy]
        exact h.strict 0 x hx

/-- The environment of a processor in a trap goes to sleep. -/
theorem SchedInv.sleep {s : Kernel} (h : SchedInv s) {c x : ℕ} (hc : s.curenv c = some x)
    (hk : nKThreads ≤ x) : SchedInv (s.setStatus x .sleeping) := by
  refine LaxInv.toSchedInv (c := c) ?_ ?_
  · exact (h.lax c).setStatus ((h.lax c).busy c x hc).1 (by simp) (by simp) (by simp)
      fun hlt => by omega
  · intro y hy
    rw [Kernel.curenv_setStatus, hc, Option.some_inj] at hy
    simp [Kernel.status_setStatus, hy]

/-- The environment of a processor goes to sleep until another one is gone. -/
theorem SchedInv.sleepWaiting {s : Kernel} (h : SchedInv s) {c x : ℕ} (hc : s.curenv c = some x)
    (hk : nKThreads ≤ x) (envid : BitVec 32) :
    SchedInv (s.modEnv x fun e => { e with waitId := envid, status := .sleeping }) := by
  have hwait : SameView s (s.modEnv x fun e => { e with waitId := envid }) :=
    SameView.modEnv s x rfl fun _ => ⟨rfl, rfl, rfl⟩
  have hsleep := (h.congr hwait).sleep hc hk
  simpa [Kernel.setStatus, Kernel.modEnv] using hsleep

/-- What `sys_fork` does to the table. -/
theorem sysFork_cases {s s' : Kernel} {x : ℕ} {o : ForkOutcome} {next : Next}
    (hr : sysFork s x o = (s', next)) :
    (s' = s ∧ next = .unlock .tail) ∨
      ∃ y s₁, envAlloc s (s.envs x).envId (s.envs x).type = some (y, s₁) ∧
        ((s' = s₁ ∧ next = .unlock .tail) ∨ (s' = invalidateEnvTs s₁ x ∧ next = .yield)) := by
  unfold sysFork at hr
  cases halloc : envAlloc s (s.envs x).envId (s.envs x).type with
  | none =>
      rw [halloc] at hr
      cases o <;> exact Or.inl ⟨(Prod.mk.inj hr).1.symm, (Prod.mk.inj hr).2.symm⟩
  | some p =>
      rw [halloc] at hr
      cases o with
      | noMem => exact Or.inl ⟨(Prod.mk.inj hr).1.symm, (Prod.mk.inj hr).2.symm⟩
      | copyFails =>
          exact Or.inr ⟨p.1, p.2, rfl, Or.inl ⟨(Prod.mk.inj hr).1.symm, (Prod.mk.inj hr).2.symm⟩⟩
      | ok =>
          exact Or.inr ⟨p.1, p.2, rfl, Or.inr ⟨(Prod.mk.inj hr).1.symm, (Prod.mk.inj hr).2.symm⟩⟩

/-- What `env_destroy` leaves behind. -/
theorem SchedInv.envDestroy {s s' : Kernel} {c e : ℕ} {next : Next} (h : SchedInv s)
    (hfree : s.status e ≠ .free) (hk : nKThreads ≤ e)
    (hother : s.status e ≠ .running → ∀ d ≠ c, s.curenv d ≠ some e)
    (hquiet : ¬ (s.status e = .running ∧ s.curenv c ≠ some e) → FreeQuiet s e)
    (hr : envDestroy s c e = (s', next)) :
    (next = .yield ∧ ReadyToYield c s') ∨
      (next = .unlock .tail ∧ SchedInv s' ∧ s'.cpus = s.cpus) := by
  unfold Jos.envDestroy at hr
  dsimp only at hr
  have hview : SameView s { s with killed := Function.update s.killed e true } :=
    ⟨fun _ => rfl, fun _ => rfl, rfl, rfl, fun _ => ⟨rfl, rfl, rfl⟩⟩
  have h₁ := h.congr hview
  generalize hs₁ : ({ s with killed := Function.update s.killed e true } : Kernel) = s₁
    at hview h₁ hr
  have hcpus : s₁.cpus = s.cpus := by rw [← hs₁]
  have hst₁ : s₁.status e = s.status e := hview.status e
  have hquiet₁ : FreeQuiet s e → FreeQuiet s₁ e := by
    rw [← hs₁]
    exact id
  split at hr
  · -- the zombie is left to the processor that runs it
    rename_i hrun
    obtain ⟨rfl, rfl⟩ := Prod.mk.inj hr
    refine Or.inr ⟨rfl, ?_, hcpus⟩
    have hlive := (h₁.lax c).live e (Or.inl hrun.1)
    refine LaxInv.toSchedInv (c := c) ?_ ?_
    · exact (h₁.lax c).setStatus (by simp [hrun.1]) (by simp) (by simp) (fun _ => hlive)
        fun hlt => by omega
    · intro x hx
      rw [Kernel.curenv_setStatus] at hx
      rw [Kernel.status_setStatus]
      split
      · simp
      · exact h₁.strict c x hx
  · rename_i hnrun
    have hnrun' : ¬ (s.status e = .running ∧ s.curenv c ≠ some e) := by
      rwa [hst₁, hview.curenv] at hnrun
    have hfree₁ : s₁.status e ≠ .free := by rwa [hst₁]
    have hother₁ : ∀ d ≠ c, s₁.curenv d ≠ some e := by
      intro d hdc hd
      by_cases hrun : s.status e = .running
      · have hce : s.curenv c = some e := by
          by_contra hne
          exact hnrun' ⟨hrun, hne⟩
        rw [hview.curenv] at hd
        exact hdc ((h.lax c).inj d c e hd hce)
      · rw [hview.curenv] at hd
        exact hother hrun d hdc hd
    have hq := hquiet₁ (hquiet hnrun')
    split at hr
    · rename_i hce
      rw [curenv_envFree] at hce
      obtain ⟨rfl, rfl⟩ := Prod.mk.inj hr
      have hcur : ((envFree s₁ c e).setCurenv c none).curenv c = none := by
        rw [Kernel.curenv_setCurenv, if_pos rfl]
      refine Or.inl ⟨rfl, ?_, ?_⟩
      · exact (h₁.lax c).envFree hfree₁ hk hother₁ hq (Or.inl ⟨rfl, hce⟩)
      · intro x hx
        rw [hcur] at hx
        exact absurd hx (by simp)
    · rename_i hce
      rw [curenv_envFree] at hce
      obtain ⟨rfl, rfl⟩ := Prod.mk.inj hr
      refine Or.inr ⟨rfl, ?_, hcpus⟩
      have hlax := (h₁.lax c).envFree hfree₁ hk hother₁ hq (Or.inr ⟨rfl, hce⟩)
      have hself : (envFree s₁ c e).setCurenv c (s₁.curenv c) = envFree s₁ c e := by
        simp [Kernel.setCurenv, Kernel.curenv, envFree, Kernel.setStatus, Kernel.modEnv]
      rw [hself] at hlax
      refine hlax.toSchedInv ?_
      intro x hx
      rw [curenv_envFree] at hx
      have hxe : x ≠ e := by
        rintro rfl
        exact hce hx
      rw [status_envFree, if_neg hxe]
      rcases status_notify s₁ (s₁.envs e).envId x with hsame | ⟨hsl, hw, -⟩
      · rw [hsame]
        exact h₁.strict c x hx
      · exact absurd hw (hq c x hx hsl)

/-! ### A critical section as a whole -/

/-- What a critical section has established when it calls the scheduler, when it runs an
environment, and when it releases the lock. -/
def Entered (s : Kernel) (c : ℕ) (s' : Kernel) : Next → Prop
  | .yield => ReadyToYield c s'
  | .run e => s' = s ∧ s.curenv c = some e ∧ s.status e = .running
  | .unlock pc => SchedInv s' ∧ s'.cpus = s.cpus ∧
      ∀ x, s.curenv c = some x → pc = .user ∨ pc = .dispatch ∨ pc = .tail → nKThreads ≤ x

/-- An environment found by its id exists. -/
theorem SchedInv.envid2env_ne_free {s : Kernel} (h : SchedInv s) {c y : ℕ} {envid : BitVec 32}
    {checkperm : Bool} (hy : envid2env s c envid checkperm = some y) : s.status y ≠ .free := by
  unfold envid2env at hy
  split at hy
  · exact ((h.lax c).busy c y hy).1
  · dsimp only at hy
    split at hy
    · exact absurd hy (by simp)
    · rename_i hok
      have hne : s.status (envx envid) ≠ .free := fun hf => hok (Or.inl hf)
      split at hy
      · split at hy
        · exact absurd hy (by simp)
        · rwa [← Option.some_inj.1 hy]
      · split at hy
        · exact absurd hy (by simp)
        · rwa [← Option.some_inj.1 hy]

/-- No environment may destroy a kernel thread. -/
theorem SchedInv.envid2env_ge {s : Kernel} (h : SchedInv s) {c x y : ℕ} {envid : BitVec 32}
    (hc : s.curenv c = some x) (hx : nKThreads ≤ x) (hy : envid2env s c envid true = some y) :
    nKThreads ≤ y := by
  have hkt := (h.lax c).kthreads
  unfold envid2env at hy
  split at hy
  · rw [hc, Option.some_inj] at hy
    omega
  · dsimp only at hy
    rw [hc] at hy
    split at hy
    · exact absurd hy (by simp)
    · dsimp only at hy
      split at hy
      · exact absurd hy (by simp)
      · rename_i hperm
        obtain rfl := Option.some_inj.1 hy
        by_contra hlt
        have hpar := hkt.parent (envx envid) (by omega)
        have hid := hkt.ids x ((h.lax c).busy c x hc).1
        refine hperm ⟨rfl, by omega, ?_⟩
        rw [hpar]
        exact hid.symm

theorem RunInv.trapDispatch {s s' : Kernel} {c x : ℕ} {t : Trap} {next : Next} {inp : SchedInput}
    (h : RunInv s) (hg : Careful s ⟨c, .dispatch t, inp⟩) (hc : s.curenv c = some x)
    (hx : nKThreads ≤ x) (hr : trapDispatch s c x t = (s', next)) : Entered s c s' next := by
  have hstay : Entered s c s (.unlock .tail) := by
    refine ⟨h.sched, rfl, fun y hy _ => ?_⟩
    rw [hc, Option.some_inj] at hy
    omega
  have hsame : ∀ {u : Kernel}, SchedInv u → u.cpus = s.cpus → Entered s c u (.unlock .tail) := by
    intro u hu hcpus
    exact ⟨hu, hcpus, hstay.2.2⟩
  have hyield : ∀ {u : Kernel}, SchedInv u → Entered s c u .yield := fun hu => hu.readyToYield c
  have hslice : SchedInv (invalidateEnvTs s x) :=
    h.sched.congr (sameView_timeSlice s x fun _ => tsDefault * 2)
  have hsleep : SchedInv (s.setStatus x .sleeping) := h.sched.sleep hc hx
  have hdrc : SchedInv (sleepOnDrc s x) :=
    hsleep.congr ⟨fun _ => rfl, fun _ => rfl, rfl, rfl, fun _ => ⟨rfl, rfl, rfl⟩⟩
  -- the environment of the processor is destroyed
  have hkill : freeTarget s c (.dispatch t) = s.curenv c → envDestroy s c x = (s', next) →
      Entered s c s' next := by
    intro hft hr
    have hq : FreeQuiet s x := hg.waits x (by rw [hft]; exact hc)
    have hother : ∀ d ≠ c, s.curenv d ≠ some x := by
      intro d hdc hd
      exact hdc ((h.sched.lax c).inj d c x hd hc)
    rcases h.sched.envDestroy ((h.sched.lax c).busy c x hc).1 hx (fun _ => hother) (fun _ => hq) hr
      with ⟨rfl, hready⟩ | ⟨rfl, hinv, hcpus⟩
    · exact hready
    · exact hsame hinv hcpus
  cases t with
  | spurious =>
      obtain ⟨rfl, rfl⟩ := Prod.mk.inj hr
      exact hstay
  | breakpoint =>
      obtain ⟨rfl, rfl⟩ := Prod.mk.inj hr
      exact hstay
  | timer =>
      obtain ⟨rfl, rfl⟩ := Prod.mk.inj hr
      exact hyield h.sched
  | unexpected => exact hkill rfl hr
  | pageFault f =>
      cases f with
      | handled =>
          obtain ⟨rfl, rfl⟩ := Prod.mk.inj hr
          exact hstay
      | swapped =>
          simp only [Jos.trapDispatch, pageFaultHandler, swapIn] at hr
          split at hr
          · obtain ⟨rfl, rfl⟩ := Prod.mk.inj hr
            exact hsame (hsleep.congr ⟨fun _ => rfl, fun _ => rfl, rfl, rfl,
              fun _ => ⟨rfl, rfl, rfl⟩⟩) rfl
          · obtain ⟨rfl, rfl⟩ := Prod.mk.inj hr
            exact hyield hdrc
      | beingSwapped =>
          obtain ⟨rfl, rfl⟩ := Prod.mk.inj hr
          exact hsame hdrc rfl
      | kill => exact hkill rfl hr
  | syscall sc =>
      cases sc with
      | other =>
          obtain ⟨rfl, rfl⟩ := Prod.mk.inj hr
          exact hstay
      | cputsBad => exact hkill rfl hr
      | yield =>
          obtain ⟨rfl, rfl⟩ := Prod.mk.inj hr
          exact hyield hslice
      | wait envid =>
          simp only [Jos.trapDispatch, syscall, sysWait] at hr
          cases hid : envid2env s c envid false with
          | none =>
              rw [hid] at hr
              obtain ⟨rfl, rfl⟩ := Prod.mk.inj hr
              exact hstay
          | some y =>
              rw [hid] at hr
              obtain ⟨rfl, rfl⟩ := Prod.mk.inj hr
              exact hyield (h.sched.sleepWaiting hc hx envid)
      | fork o =>
          obtain ⟨rfl, rfl⟩ | ⟨y, s₁, halloc, hs₁⟩ := sysFork_cases hr
          · exact hstay
          · have hinv := h.sched.envAlloc halloc
            rcases hs₁ with ⟨rfl, rfl⟩ | ⟨rfl, rfl⟩
            · exact hsame hinv (envAlloc_frame halloc).1
            · exact hyield (hinv.congr (sameView_timeSlice s₁ x fun _ => tsDefault * 2))
      | envDestroy envid =>
          simp only [Jos.trapDispatch, syscall, sysEnvDestroy] at hr
          cases hid : envid2env s c envid true with
          | none =>
              rw [hid] at hr
              obtain ⟨rfl, rfl⟩ := Prod.mk.inj hr
              exact hstay
          | some y =>
              rw [hid] at hr
              have hq : ¬ (s.status y = .running ∧ s.curenv c ≠ some y) → FreeQuiet s y := by
                intro hnot
                refine hg.waits y ?_
                simp only [freeTarget, hid, Option.filter_some]
                simp [hnot]
              rcases h.sched.envDestroy (h.sched.envid2env_ne_free hid)
                (h.sched.envid2env_ge hc hx hid) (hg.destroy envid y rfl hid) hq hr
                with ⟨rfl, hready⟩ | ⟨rfl, hinv, hcpus⟩
              · exact hready
              · exact hsame hinv hcpus

/-- The first critical section of a trap. -/
theorem RunInv.trapEntry {s s' : Kernel} {c x : ℕ} {next : Next} {inp : SchedInput}
    (h : RunInv s) (hg : Careful s ⟨c, .trap, inp⟩) (hc : s.curenv c = some x)
    (hx : nKThreads ≤ x) (hr : trapEntry s c x = (s', next)) : Entered s c s' next := by
  unfold Jos.trapEntry at hr
  split at hr
  · rename_i hdying
    obtain ⟨rfl, rfl⟩ := Prod.mk.inj hr
    have hq : FreeQuiet s x := by
      refine hg.waits x ?_
      simp [freeTarget, hc, hdying]
    have hother : ∀ d ≠ c, s.curenv d ≠ some x := by
      intro d hdc hd
      exact hdc ((h.sched.lax c).inj d c x hd hc)
    have hfree := (h.sched.lax c).envFree (by simp [hdying]) hx hother hq (Or.inl ⟨rfl, hc⟩)
    refine ⟨hfree, fun y hy => ?_⟩
    rw [Kernel.curenv_setCurenv, if_pos rfl] at hy
    exact absurd hy (by simp)
  · obtain ⟨rfl, rfl⟩ := Prod.mk.inj hr
    refine ⟨h.sched, rfl, fun y hy _ => ?_⟩
    rw [hc, Option.some_inj] at hy
    omega

/-- The last round of `page_in`, when it returns. -/
theorem pageInDone_ok {s s' : Kernel} {x : ℕ} {pteFound : Bool}
    (hr : pageInDone s x pteFound = Except.ok s') :
    s.status x ≠ .free ∧ pteFound = true ∧ s' = s.setStatus x .runnable := by
  unfold pageInDone at hr
  split at hr
  · exact absurd hr (by simp [throw, throwThe, MonadExceptOf.throw])
  · rename_i hok
    refine ⟨fun hf => hok (Or.inl hf), ?_, (Except.ok.inj hr).symm⟩
    by_contra hp
    exact hok (Or.inr (by simpa using hp))

/-- What a round of `ktask` does: nothing, a count, or the end of the tasklet. -/
theorem ktaskRound_cases {s s' : Kernel} {ready pteFound : Bool}
    (hr : ktaskRound s ready pteFound = Except.ok s') :
    (s.tList = [] ∧ s' = s) ∨ ∃ t rest, s.tList = t :: rest ∧
      ((t.count < nSectors ∧ s' =
        { s with tList := { t with count := if ready then t.count + 1 else t.count } :: rest }) ∨
        (nSectors ≤ t.count ∧ t.fptr = .pageOut ∧ s' = { s with tList := rest }) ∨
        (nSectors ≤ t.count ∧ t.fptr = .pageIn ∧ ∃ s₁, pageInDone s t.requestorEnv pteFound =
          Except.ok s₁ ∧
          s' = { s₁ with tList := rest })) := by
  unfold ktaskRound at hr
  cases ht : s.tList with
  | nil =>
      rw [ht] at hr
      exact Or.inl ⟨rfl, (Except.ok.inj hr).symm⟩
  | cons t rest =>
      rw [ht] at hr
      dsimp only at hr
      refine Or.inr ⟨t, rest, rfl, ?_⟩
      split at hr
      · rename_i hcount
        exact Or.inl ⟨hcount, (Except.ok.inj hr).symm⟩
      · rename_i hcount
        refine Or.inr ?_
        cases hf : t.fptr with
        | pageOut =>
            rw [hf] at hr
            dsimp only at hr
            split at hr
            · exact Or.inl ⟨by omega, rfl, (Except.ok.inj hr).symm⟩
            · exact absurd hr (by simp [throw, throwThe, MonadExceptOf.throw])
        | pageIn =>
            rw [hf] at hr
            obtain ⟨s₁, hdone, hr⟩ := bind_eq_ok.1 hr
            exact Or.inr ⟨by omega, rfl, s₁, hdone, (Except.ok.inj hr).symm⟩

/-- A `page_in` that ends wakes an environment that nobody holds. -/
theorem SchedInv.pageInDone {s s' : Kernel} {x : ℕ} {pteFound : Bool} (h : SchedInv s)
    (hheld : ∀ d, s.curenv d ≠ some x) (hr : pageInDone s x pteFound = Except.ok s') :
    SchedInv s' := by
  obtain ⟨hfree, -, rfl⟩ := pageInDone_ok hr
  refine LaxInv.toSchedInv (c := 0) ?_ ?_
  · exact (h.lax 0).setStatus hfree (by simp) (fun _ d _ => hheld d) (by simp) fun _ => Or.inl rfl
  · intro y hy
    rw [Kernel.curenv_setStatus] at hy
    have hyx : y ≠ x := by
      rintro rfl
      exact hheld 0 hy
    rw [Kernel.status_setStatus, if_neg hyx]
    exact h.strict 0 y hy

/-- A round of a kernel thread. -/
theorem RunInv.ktaskRound {s s' : Kernel} {c : ℕ} {ready pteFound : Bool} {inp : SchedInput}
    (h : RunInv s) (hg : Careful s ⟨c, .ktask ready pteFound, inp⟩)
    (hr : ktaskRound s ready pteFound = Except.ok s') : SchedInv s' := by
  have hlist : ∀ (u : Kernel) (l : List Tasklet), SchedInv u → SchedInv { u with tList := l } :=
    fun u l hu => hu.congr ⟨fun _ => rfl, fun _ => rfl, rfl, rfl, fun _ => ⟨rfl, rfl, rfl⟩⟩
  obtain ⟨-, rfl⟩ | ⟨t, rest, ht, ⟨-, rfl⟩ | ⟨-, -, rfl⟩ | ⟨hcount, hf, s₁, hdone, rfl⟩⟩ :=
    ktaskRound_cases hr
  · exact h.sched
  · exact hlist _ _ h.sched
  · exact hlist _ _ h.sched
  · have hheld := hg.pageIn ready pteFound t rest rfl ht hf hcount
    exact hlist _ _ (h.sched.pageInDone hheld hdone)

/-- All critical sections but the first of a processor need a `curenv`. -/
theorem curenv_of_enter {s : Kernel} {c : ℕ} {a : Act} {r : Kernel × Next}
    (hr : enter s c a = Except.ok r) (ha : a ≠ .sched) : ∃ x, s.curenv c = some x := by
  cases hc : s.curenv c with
  | some x => exact ⟨x, rfl⟩
  | none =>
      cases a with
      | sched => exact absurd rfl ha
      | _ =>
          simp only [enter, hc] at hr
          exact absurd hr (by simp [throw, throwThe, MonadExceptOf.throw])

/-- **Every critical section** up to its call of the scheduler. -/
theorem RunInv.enter {s s' : Kernel} {a : Label} {next : Next} (h : RunInv s) (hg : Careful s a)
    (hen : Enabled s a.cpu a.act) (hr : enter s a.cpu a.act = Except.ok (s', next)) :
    Entered s a.cpu s' next := by
  obtain ⟨c, act, inp⟩ := a
  dsimp only at hen hr ⊢
  by_cases hact : act = .sched
  · subst hact
    obtain ⟨rfl, rfl⟩ := Prod.mk.inj (Except.ok.inj hr)
    exact h.sched.readyToYield c
  · obtain ⟨x, hc⟩ := curenv_of_enter hr hact
    have hplace : (s.cpus c).pc = .user ∨ (s.cpus c).pc = .dispatch ∨ (s.cpus c).pc = .tail →
        nKThreads ≤ x := h.placed c x hc
    have hown : ∀ y, s.curenv c = some y → y = x := by
      intro y hy
      rw [hc, Option.some_inj] at hy
      exact hy.symm
    cases act with
    | sched => exact absurd rfl hact
    | pop =>
        simp only [Jos.enter, hc] at hr
        obtain ⟨rfl, rfl⟩ := Prod.mk.inj (Except.ok.inj hr)
        refine ⟨h.sched.congr (SameView.modEnv s x rfl fun _ => ⟨rfl, rfl, rfl⟩), rfl, ?_⟩
        intro y hy hpc
        rw [hown y hy]
        by_contra hlt
        rw [if_pos ((h.sched.lax c).kthreads.type x (by omega))] at hpc
        simp at hpc
    | trap =>
        simp only [Jos.enter, hc] at hr
        exact h.trapEntry hg hc (hplace (Or.inl hen)) (Except.ok.inj hr)
    | dispatch t =>
        simp only [Jos.enter, hc] at hr
        exact h.trapDispatch hg hc (hplace (Or.inr (Or.inl hen))) (Except.ok.inj hr)
    | tail =>
        simp only [Jos.enter, hc] at hr
        obtain ⟨rfl, hnext⟩ := Prod.mk.inj (Except.ok.inj hr)
        unfold trapTail at hnext
        split at hnext
        · rename_i hrun
          rw [← hnext]
          exact ⟨rfl, hc, hrun⟩
        · rw [← hnext]
          exact h.sched.readyToYield c
    | ktask ready pteFound =>
        simp only [Jos.enter, hc] at hr
        obtain ⟨s₁, hround, hr⟩ := bind_eq_ok.1 hr
        obtain ⟨rfl, rfl⟩ := Prod.mk.inj (Except.ok.inj hr)
        exact (h.ktaskRound hg hround).readyToYield c

/-- A trap is answered by a call of the scheduler, or the processor goes on to the tail of
`trap`. -/
theorem trapDispatch_next (s : Kernel) (c x : ℕ) (t : Trap) :
    (trapDispatch s c x t).2 = .yield ∨ (trapDispatch s c x t).2 = .unlock .tail := by
  have hdestroy : ∀ e, (envDestroy s c e).2 = .yield ∨ (envDestroy s c e).2 = .unlock .tail := by
    intro e
    unfold envDestroy
    dsimp only
    split
    · exact Or.inr rfl
    · split
      · exact Or.inl rfl
      · exact Or.inr rfl
  cases t with
  | spurious => exact Or.inr rfl
  | breakpoint => exact Or.inr rfl
  | timer => exact Or.inl rfl
  | unexpected => exact hdestroy x
  | pageFault f =>
      cases f with
      | handled => exact Or.inr rfl
      | beingSwapped => exact Or.inr rfl
      | kill => exact hdestroy x
      | swapped =>
          simp only [trapDispatch, pageFaultHandler, swapIn]
          split
          · exact Or.inr rfl
          · exact Or.inl rfl
  | syscall sc =>
      cases sc with
      | other => exact Or.inr rfl
      | cputsBad => exact hdestroy x
      | yield => exact Or.inl rfl
      | wait envid =>
          simp only [trapDispatch, syscall, sysWait]
          split
          · exact Or.inr rfl
          · exact Or.inl rfl
      | envDestroy envid =>
          simp only [trapDispatch, syscall, sysEnvDestroy]
          split
          · exact Or.inr rfl
          · exact hdestroy _
      | fork o =>
          change (sysFork s x o).2 = .yield ∨ (sysFork s x o).2 = .unlock .tail
          cases hfork : sysFork s x o with
          | mk s' next =>
              obtain ⟨-, rfl⟩ | ⟨y, s₁, -, ⟨-, rfl⟩ | ⟨-, rfl⟩⟩ := sysFork_cases hfork
              · exact Or.inr rfl
              · exact Or.inr rfl
              · exact Or.inl rfl

/-- Only `env_pop_tf` leads to user mode, and a critical section that just releases the lock does
not end in `env_run`. -/
theorem enter_unlock {s s' : Kernel} {c : ℕ} {a : Act} {pc : Pc}
    (hr : enter s c a = Except.ok (s', .unlock pc)) : pc ≠ .entering ∧ (pc = .user → a = .pop) := by
  by_cases hact : a = .sched
  · subst hact
    exact absurd (Prod.mk.inj (Except.ok.inj hr)).2 (by simp)
  obtain ⟨x, hc⟩ := curenv_of_enter hr hact
  cases a with
  | sched => exact absurd rfl hact
  | pop =>
      simp only [enter, hc] at hr
      obtain ⟨-, hpc⟩ := Prod.mk.inj (Except.ok.inj hr)
      refine ⟨?_, fun _ => rfl⟩
      rw [← Next.unlock.inj hpc]
      split <;> simp
  | trap =>
      simp only [enter, hc] at hr
      have hnext := congrArg Prod.snd (Except.ok.inj hr)
      unfold trapEntry at hnext
      split at hnext
      · exact absurd hnext (by simp)
      · simp [← Next.unlock.inj hnext]
  | dispatch t =>
      simp only [enter, hc] at hr
      have hnext : (trapDispatch s c x t).2 = .unlock pc := congrArg Prod.snd (Except.ok.inj hr)
      rcases trapDispatch_next s c x t with hy | hu
      · rw [hy] at hnext
        exact absurd hnext (by simp)
      · rw [hu] at hnext
        simp [← Next.unlock.inj hnext]
  | tail =>
      simp only [enter, hc] at hr
      have hnext := congrArg Prod.snd (Except.ok.inj hr)
      dsimp only [trapTail] at hnext
      split at hnext <;> exact absurd hnext (by simp)
  | ktask ready pteFound =>
      simp only [enter, hc] at hr
      obtain ⟨s₁, -, hr⟩ := bind_eq_ok.1 hr
      exact absurd (Prod.mk.inj (Except.ok.inj hr)).2 (by simp)

/-! ### Where the processors are -/

theorem cpus_envDestroy (s : Kernel) (c e : ℕ) {d : ℕ} (hd : d ≠ c) :
    (envDestroy s c e).1.cpus d = s.cpus d := by
  unfold envDestroy
  dsimp only
  split
  · rfl
  · split
    · exact Function.update_of_ne hd ..
    · rfl

theorem cpus_trapDispatch (s : Kernel) (c x : ℕ) (t : Trap) {d : ℕ} (hd : d ≠ c) :
    (trapDispatch s c x t).1.cpus d = s.cpus d := by
  cases t with
  | spurious => rfl
  | breakpoint => rfl
  | timer => rfl
  | unexpected => exact cpus_envDestroy s c x hd
  | pageFault f =>
      cases f with
      | handled => rfl
      | beingSwapped => rfl
      | kill => exact cpus_envDestroy s c x hd
      | swapped =>
          simp only [trapDispatch, pageFaultHandler, swapIn]
          split <;> rfl
  | syscall sc =>
      cases sc with
      | other => rfl
      | cputsBad => exact cpus_envDestroy s c x hd
      | yield => rfl
      | wait envid =>
          simp only [trapDispatch, syscall, sysWait]
          split <;> rfl
      | envDestroy envid =>
          simp only [trapDispatch, syscall, sysEnvDestroy]
          split
          · rfl
          · exact cpus_envDestroy s c _ hd
      | fork o =>
          change (sysFork s x o).1.cpus d = s.cpus d
          cases hfork : sysFork s x o with
          | mk s' next =>
              obtain ⟨rfl, -⟩ | ⟨y, s₁, halloc, ⟨rfl, -⟩ | ⟨rfl, -⟩⟩ := sysFork_cases hfork
              · rfl
              · exact congrFun (envAlloc_frame halloc).1 d
              · exact congrFun (envAlloc_frame halloc).1 d

theorem cpus_ktaskRound {s s' : Kernel} {ready pteFound : Bool}
    (hr : ktaskRound s ready pteFound = Except.ok s') : s'.cpus = s.cpus := by
  obtain ⟨-, rfl⟩ | ⟨t, rest, -, ⟨-, rfl⟩ | ⟨-, -, rfl⟩ | ⟨-, -, s₁, hdone, rfl⟩⟩ :=
    ktaskRound_cases hr
  · rfl
  · rfl
  · rfl
  · obtain ⟨-, -, rfl⟩ := pageInDone_ok hdone
    rfl

/-- A critical section leaves the other processors where they are. -/
theorem enter_cpus {s s' : Kernel} {c : ℕ} {a : Act} {next : Next}
    (hr : enter s c a = Except.ok (s', next)) {d : ℕ} (hd : d ≠ c) : s'.cpus d = s.cpus d := by
  by_cases hact : a = .sched
  · subst hact
    rw [← (Prod.mk.inj (Except.ok.inj hr)).1]
  obtain ⟨x, hc⟩ := curenv_of_enter hr hact
  cases a with
  | sched => exact absurd rfl hact
  | pop =>
      simp only [enter, hc] at hr
      rw [← (Prod.mk.inj (Except.ok.inj hr)).1]
      rfl
  | trap =>
      simp only [enter, hc] at hr
      have hs : (trapEntry s c x).1 = s' := congrArg Prod.fst (Except.ok.inj hr)
      rw [← hs]
      unfold trapEntry
      split
      · exact Function.update_of_ne hd ..
      · rfl
  | dispatch t =>
      simp only [enter, hc] at hr
      have hs : (trapDispatch s c x t).1 = s' := congrArg Prod.fst (Except.ok.inj hr)
      rw [← hs]
      exact cpus_trapDispatch s c x t hd
  | tail =>
      simp only [enter, hc] at hr
      rw [← (Prod.mk.inj (Except.ok.inj hr)).1]
  | ktask ready pteFound =>
      simp only [enter, hc] at hr
      obtain ⟨s₁, hround, hr⟩ := bind_eq_ok.1 hr
      rw [← (Prod.mk.inj (Except.ok.inj hr)).1, cpus_ktaskRound hround]

/-- Only one processor has moved, and it is on its way to an environment or halted. -/
def Moved (s t : Kernel) (c : ℕ) : Prop :=
  (∀ d ≠ c, t.cpus d = s.cpus d) ∧ ((t.cpus c).pc = .entering ∨ (t.cpus c).pc = .halted)

theorem cpus_envLeave {s s₁ : Kernel} {c old : ℕ} (hl : envLeave s c old = Except.ok s₁) :
    s₁.cpus = s.cpus := by
  obtain ⟨-, rfl⟩ | ⟨-, rfl⟩ | ⟨-, rfl⟩ := envLeave_cases hl <;> rfl

theorem moved_envRun {s t : Kernel} {c e : ℕ} (hr : envRun s c e = Except.ok t) : Moved s t c := by
  obtain ⟨-, rfl⟩ | ⟨-, s₁, rfl, hleft⟩ := envRun_cases hr
  · exact ⟨fun d hdc => Function.update_of_ne hdc .., Or.inl (by simp [Kernel.setPc])⟩
  · have hfinal : ∀ u : Kernel, u.cpus = s.cpus →
        Moved s (((u.setCurenv c (some e)).setStatus e .running).setPc c .entering) c := by
      intro u hu
      refine ⟨fun d hdc => ?_, Or.inl (by simp [Kernel.setPc])⟩
      simp [Kernel.setPc, Kernel.setStatus, Kernel.modEnv, Kernel.setCurenv,
        Function.update_of_ne hdc, hu]
    rcases hleft with ⟨-, rfl⟩ | ⟨old, -, hleave⟩
    · exact hfinal s₁ rfl
    · exact hfinal s₁ (cpus_envLeave hleave)

theorem moved_schedHalt (s : Kernel) (c : ℕ) : Moved s (schedHalt s c) c := by
  unfold schedHalt
  refine ⟨fun d hdc => ?_, Or.inr (by simp [Kernel.setPc])⟩
  cases s.curenv c with
  | none => simp [Kernel.setPc, Kernel.setCurenv, Function.update_of_ne hdc]
  | some x =>
      simp [Kernel.setPc, Kernel.setCurenv, Kernel.setStatus, Kernel.modEnv,
        Function.update_of_ne hdc]

/-- The scheduler leaves the other processors alone. -/
theorem ReadyToYield.moved {c : ℕ} {s t : Kernel} {inp : SchedInput} (h : ReadyToYield c s)
    (hok : YieldOk s c inp) (hr : Jos.schedYield s c inp = Except.ok t) : Moved s t c := by
  unfold Jos.schedYield at hr
  obtain ⟨⟨s₁, o⟩, hpick, hr⟩ := bind_eq_ok.1 hr
  have hset := (h.lax.schedPick hok h.own hpick).2.1
  have hmoved : Moved s₁ t c := by
    cases o with
    | none =>
        obtain rfl := Except.ok.inj hr
        exact moved_schedHalt s₁ c
    | some e => exact moved_envRun hr
  exact ⟨fun d hdc => (hmoved.1 d hdc).trans (by rw [hset.cpus]), hmoved.2⟩

/-- The kernel threads stay out of user mode when one processor has moved. -/
theorem Placed.moved {s t : Kernel} {c : ℕ} (h : Placed s) (hm : Moved s t c) : Placed t := by
  intro d x hd hpc
  by_cases hdc : d = c
  · subst hdc
    rcases hm.2 with hpc' | hpc' <;> simp [hpc'] at hpc
  · rw [Kernel.curenv, hm.1 d hdc] at hd
    rw [hm.1 d hdc] at hpc
    exact h d x hd hpc

/-- **One careful step**: the invariant is kept, the other processors stay where they are, and a
processor that leaves the kernel does so for an environment that is running. -/
theorem RunInv.step_spec {s t : Kernel} {a : Label} (h : RunInv s) (hg : Careful s a)
    (hstep : kernelStep s a t) :
    RunInv t ∧ (∀ d ≠ a.cpu, t.cpus d = s.cpus d) ∧
      ((t.cpus a.cpu).pc = .entering → Arrived t a.cpu) := by
  obtain ⟨hen, hexec⟩ := hstep
  unfold kernelExec at hexec
  obtain ⟨⟨s', next⟩, henter, hproceed⟩ := bind_eq_ok.1 hexec
  have hentered := h.enter hg hen henter
  cases next with
  | yield =>
      have hready : ReadyToYield a.cpu s' := hentered
      have hok := hg.yield s' henter
      obtain ⟨hinv, harr⟩ := hready.schedYield hok hproceed
      have hmoved := hready.moved hok hproceed
      have hrest : ∀ d ≠ a.cpu, t.cpus d = s.cpus d :=
        fun d hdc => (hmoved.1 d hdc).trans (enter_cpus henter hdc)
      exact ⟨⟨hinv, h.placed.moved ⟨hrest, hmoved.2⟩⟩, hrest, fun _ => harr⟩
  | run e =>
      obtain ⟨rfl, hc, hrun⟩ := hentered
      have htarget : Target s' a.cpu e :=
        ⟨Or.inr hrun, fun d hdc hd => hdc ((h.sched.lax 0).inj d a.cpu e hd hc), fun _ => hrun⟩
      have hquiet : ∀ old, s'.curenv a.cpu = some old → s'.status old = .dying →
          FreeQuiet s' old := by
        intro old hold hdying
        rw [hc, Option.some_inj] at hold
        rw [← hold, hrun] at hdying
        exact absurd hdying (by simp)
      obtain ⟨hinv, hcur, hst⟩ := (h.sched.lax a.cpu).envRun htarget hquiet hproceed
      have hmoved := moved_envRun hproceed
      refine ⟨⟨hinv, h.placed.moved hmoved⟩, hmoved.1, fun _ x hx => ?_⟩
      rw [hcur, Option.some_inj] at hx
      rw [← hx]
      exact hst
  | unlock pc =>
      obtain ⟨hinv, hcpus, hpc⟩ := hentered
      obtain rfl := Except.ok.inj hproceed
      have hown : ((s'.setPc a.cpu pc).cpus a.cpu).pc = pc := by simp [Kernel.setPc]
      have hrest : ∀ d ≠ a.cpu, (s'.setPc a.cpu pc).cpus d = s.cpus d := by
        intro d hdc
        simp [Kernel.setPc, Function.update_of_ne hdc, hcpus]
      refine ⟨⟨hinv.congr (SameView.setPc s' a.cpu pc), fun d x hd hpc' => ?_⟩, hrest, fun hent =>
        ?_⟩
      · by_cases hdc : d = a.cpu
        · subst hdc
          rw [Kernel.curenv_setPc, Kernel.curenv, hcpus] at hd
          rw [hown] at hpc'
          exact hpc x hd hpc'
        · rw [Kernel.curenv, hrest d hdc] at hd
          rw [hrest d hdc] at hpc'
          exact h.placed d x hd hpc'
      · rw [hown] at hent
        exact absurd hent (enter_unlock henter).1

theorem RunInv.step {s t : Kernel} {a : Label} (h : RunInv s) (hg : Careful s a)
    (hstep : kernelStep s a t) : RunInv t :=
  (h.step_spec hg hstep).1

end Jos
