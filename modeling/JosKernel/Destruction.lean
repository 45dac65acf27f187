/-
**Destroyed environments stay destroyed.**

`env_destroy` frees an environment at once or marks it as dying, to be collected when the processor
that runs it traps. Between the two the code can still write its status: `sched_halt` makes any
environment it gives up runnable, and a fault or a `sys_wait` puts it to sleep. `Jos.Final` says
that a step does none of this to a zombie. Along runs of careful and final steps a destroyed
environment is dying or free, and a processor that is not executing it never does so again.

Main definitions:

* `Jos.Final` — the condition on a step;
* `Jos.KillInv` — every destroyed environment is dying or free;
* `Jos.Executes` — a processor is in an environment or about to enter it.

Main results:

* `Jos.KillInv.step` — one step;
* `Jos.Executes.step_back` — how a processor comes to execute a destroyed environment;
* `Jos.destruction_final` — whole runs.
-/

import JosKernel.SchedRun

set_option relaxedAutoImplicit false
set_option autoImplicit false

namespace Jos

open LabelledRun

/-! ### The condition on a step -/

/-- The traps that put the environment to sleep. -/
def putsToSleep (s : Kernel) (c : ℕ) : Trap → Bool
  | .pageFault .swapped => true
  | .pageFault .beingSwapped => true
  | .syscall (.wait envid) => (envid2env s c envid false).isSome
  | _ => false

/-- **A step that leaves zombies alone.** -/
structure Final (s : Kernel) (a : Label) : Prop where
  /-- No zombie goes to sleep. -/
  sleep : ∀ t x, a.act = .dispatch t → putsToSleep s a.cpu t = true → s.curenv a.cpu = some x →
    s.status x ≠ .dying
  /-- No zombie is given up by `sched_halt`. -/
  halt : ∀ s' s'', enter s a.cpu a.act = Except.ok (s', .yield) →
    schedPick s' a.cpu a.inp = Except.ok (s'', none) →
    ∀ x, s'.curenv a.cpu = some x → s'.status x ≠ .dying

/-! ### The invariant -/

/-- Every destroyed environment is dying or free. -/
def KillInv (s : Kernel) : Prop :=
  ∀ x, s.killed x = true → s.status x = .dying ∨ s.status x = .free

theorem KillInv.ready {s : Kernel} (h : KillInv s) {x : ℕ}
    (hx : s.status x = .runnable ∨ s.status x = .running) : s.killed x = false := by
  cases hk : s.killed x with
  | false => rfl
  | true =>
      have hst := h x hk
      rcases hx with hx | hx <;> simp [hx] at hst

theorem KillInv.congr {s t : Kernel} (h : KillInv s) (hkilled : t.killed = s.killed)
    (hst : ∀ x, t.status x = s.status x) : KillInv t := by
  intro x hx
  rw [hkilled] at hx
  rw [hst]
  exact h x hx

/-- A status changes, of an environment that was not destroyed or to one of the two allowed. -/
theorem KillInv.setStatus {s : Kernel} (h : KillInv s) {y : ℕ} {st : EnvStatus}
    (hy : s.killed y = true → st = .dying ∨ st = .free) : KillInv (s.setStatus y st) := by
  intro x hx
  rw [Kernel.status_setStatus]
  split
  · rename_i hxy
    rw [hxy] at hx
    exact hy hx
  · exact h x hx

theorem KillInv.envFree {s : Kernel} (h : KillInv s) (c y : ℕ) : KillInv (envFree s c y) := by
  intro x hx
  rw [status_envFree]
  split
  · exact Or.inr rfl
  · rcases status_notify s (s.envs y).envId x with hsame | ⟨hsl, -, -⟩
    · rw [hsame]
      exact h x hx
    · have hst := h x hx
      rw [hsl] at hst
      simp at hst

theorem KillInv.settled {s t : Kernel} (h : KillInv s) (hset : Settled s t) : KillInv t := by
  intro x hx
  rw [hset.killed] at hx
  have hst := h x hx
  rw [hset.status_eq (by rcases hst with hst | hst <;> simp [hst])]
  exact hst

theorem KillInv.envAlloc {s s' : Kernel} (h : KillInv s) {parentId : BitVec 32} {type : EnvType}
    {y : ℕ} (hr : envAlloc s parentId type = some (y, s')) : KillInv s' := by
  obtain ⟨-, hkilled, henvs⟩ := envAlloc_frame hr
  intro x hx
  rw [hkilled] at hx
  have hxy : x ≠ y := by
    rintro rfl
    simp at hx
  rw [Function.update_of_ne hxy] at hx
  rw [Kernel.status, henvs x hxy]
  exact h x hx

/-- Destroying an environment is the step that makes it dying or free. -/
theorem KillInv.envDestroy {s : Kernel} (h : KillInv s) (c e : ℕ) :
    KillInv (envDestroy s c e).1 := by
  -- `e` itself becomes dying or free, the others are as before
  have hothers : ∀ x ≠ e, Function.update s.killed e true x = true →
      s.status x = .dying ∨ s.status x = .free := by
    intro x hx hk
    rw [Function.update_of_ne hx] at hk
    exact h x hk
  have hfree : KillInv (Jos.envFree { s with killed := Function.update s.killed e true } c e) := by
    intro x hx
    rw [status_envFree]
    split
    · exact Or.inr rfl
    · rename_i hxe
      have hst := hothers x hxe hx
      rcases status_notify s (s.envs e).envId x with hsame | ⟨hsl, -, -⟩
      · exact hsame ▸ hst
      · rw [hsl] at hst
        simp at hst
  unfold Jos.envDestroy
  dsimp only
  split
  · intro x hx
    rw [Kernel.status_setStatus]
    split
    · exact Or.inl rfl
    · rename_i hxe
      exact hothers x hxe hx
  · split
    · exact hfree.congr rfl fun _ => rfl
    · exact hfree

/-! ### Switching -/

theorem KillInv.leave {s s₁ : Kernel} (h : KillInv s) {c old : ℕ}
    (hl : envLeave s c old = Except.ok s₁) : KillInv s₁ ∧ s₁.killed = s.killed := by
  obtain ⟨hst, rfl⟩ | ⟨-, rfl⟩ | ⟨-, rfl⟩ := envLeave_cases hl
  · refine ⟨h.setStatus fun hk => ?_, rfl⟩
    rw [h.ready (Or.inr hst)] at hk
    exact absurd hk (by simp)
  · exact ⟨h.envFree c old, rfl⟩
  · exact ⟨h, rfl⟩

/-- `env_run` on an environment that is ready. -/
theorem KillInv.envRun {s t : Kernel} (h : KillInv s) {c e : ℕ}
    (hready : s.status e = .runnable ∨ s.status e = .running) (hr : envRun s c e = Except.ok t) :
    KillInv t := by
  have hfinal : ∀ u : Kernel, KillInv u → u.killed = s.killed →
      KillInv (((u.setCurenv c (some e)).setStatus e .running).setPc c .entering) := by
    intro u hu hkilled
    refine KillInv.congr (KillInv.setStatus (hu.congr rfl fun _ => rfl) fun hk => ?_) rfl fun _ =>
      rfl
    change u.killed e = true at hk
    rw [hkilled, h.ready hready] at hk
    exact absurd hk (by simp)
  obtain ⟨-, rfl⟩ | ⟨-, s₁, rfl, ⟨-, rfl⟩ | ⟨old, -, hl⟩⟩ := envRun_cases hr
  · exact h.congr rfl fun _ => rfl
  · exact hfinal s₁ h rfl
  · obtain ⟨hkill, hkilled⟩ := h.leave hl
    exact hfinal s₁ hkill hkilled

/-- `sched_halt` gives up an environment that is not a zombie. -/
theorem KillInv.schedHalt {s : Kernel} (h : KillInv s) {c : ℕ}
    (hown : ∀ x, s.curenv c = some x → s.status x ≠ .dying ∧ s.status x ≠ .free) :
    KillInv (schedHalt s c) := by
  unfold Jos.schedHalt
  cases hc : s.curenv c with
  | none => exact h.congr rfl fun _ => rfl
  | some x =>
      refine KillInv.congr (KillInv.setStatus h fun hk => ?_) rfl fun _ => rfl
      rcases h x hk with hst | hst
      · exact absurd hst (hown x hc).1
      · exact absurd hst (hown x hc).2

/-- The scheduler keeps destroyed environments destroyed. -/
theorem KillInv.schedYield {s t : Kernel} {c : ℕ} {inp : SchedInput} (h : KillInv s)
    (hready : ReadyToYield c s) (hok : YieldOk s c inp)
    (hhalt : ∀ s'', schedPick s c inp = Except.ok (s'', none) →
      ∀ x, s.curenv c = some x → s.status x ≠ .dying)
    (hr : schedYield s c inp = Except.ok t) : KillInv t := by
  unfold Jos.schedYield at hr
  obtain ⟨⟨s₁, o⟩, hpick, hr⟩ := bind_eq_ok.1 hr
  obtain ⟨hlax, hset, htarget⟩ := hready.lax.schedPick hok hready.own hpick
  have hkill := h.settled hset
  cases o with
  | some e => exact hkill.envRun (htarget e rfl).ready hr
  | none =>
      obtain rfl := Except.ok.inj hr
      refine hkill.schedHalt fun x hx => ⟨?_, (hlax.busy c x hx).1⟩
      rw [hset.curenv] at hx
      have hne := hhalt s₁ hpick x hx
      rcases hset.status x with he | ⟨-, hrun⟩
      · rwa [he]
      · simp [hrun]

/-! ### A critical section as a whole -/

/-- An environment that is neither dying nor free may change in any way. -/
theorem KillInv.modEnv {s : Kernel} (h : KillInv s) {x : ℕ} (hx : s.status x ≠ .dying)
    (hfree : s.status x ≠ .free) (f : Env → Env) : KillInv (s.modEnv x f) := by
  intro y hy
  rw [Kernel.status_modEnv]
  split
  · rename_i hyx
    rw [hyx] at hy
    rcases h x hy with hst | hst
    · exact absurd hst hx
    · exact absurd hst hfree
  · exact h y hy

theorem KillInv.trapDispatch {s : Kernel} (h : KillInv s) {c x : ℕ} {t : Trap}
    (hfree : s.status x ≠ .free) (hsleep : putsToSleep s c t = true → s.status x ≠ .dying) :
    KillInv (trapDispatch s c x t).1 := by
  cases t with
  | spurious => exact h
  | breakpoint => exact h
  | timer => exact h
  | unexpected => exact h.envDestroy c x
  | pageFault f =>
      cases f with
      | handled => exact h
      | kill => exact h.envDestroy c x
      | beingSwapped =>
          have hs := h.modEnv (hsleep rfl) hfree fun e => { e with status := .sleeping }
          exact hs.congr rfl fun _ => rfl
      | swapped =>
          have hs := h.modEnv (hsleep rfl) hfree fun e => { e with status := .sleeping }
          simp only [Jos.trapDispatch, pageFaultHandler, swapIn]
          split
          · exact hs.congr rfl fun _ => rfl
          · exact hs.congr rfl fun _ => rfl
  | syscall sc =>
      cases sc with
      | other => exact h
      | cputsBad => exact h.envDestroy c x
      | yield =>
          exact h.congr rfl fun y => (sameView_timeSlice s x fun _ => tsDefault * 2).status y
      | envDestroy envid =>
          simp only [Jos.trapDispatch, syscall, sysEnvDestroy]
          split
          · exact h
          · exact h.envDestroy c _
      | wait envid =>
          simp only [Jos.trapDispatch, syscall, sysWait]
          split
          · exact h
          · rename_i hid
            have hs := h.modEnv (hsleep (by simp [putsToSleep, hid])) hfree
              fun e => { e with waitId := envid, status := .sleeping }
            exact hs
      | fork o =>
          change KillInv (sysFork s x o).1
          cases hfork : sysFork s x o with
          | mk s' next =>
              obtain ⟨rfl, -⟩ | ⟨y, s₁, halloc, ⟨rfl, -⟩ | ⟨rfl, -⟩⟩ := sysFork_cases hfork
              · exact h
              · exact h.envAlloc halloc
              · exact (h.envAlloc halloc).congr rfl fun z =>
                  (sameView_timeSlice s₁ x fun _ => tsDefault * 2).status z

theorem KillInv.ktaskRound {s s' : Kernel} {ready pteFound : Bool} (h : KillInv s)
    (hheld : ∀ t rest, s.tList = t :: rest → t.fptr = .pageIn → nSectors ≤ t.count →
      s.status t.requestorEnv ≠ .dying)
    (hr : ktaskRound s ready pteFound = Except.ok s') : KillInv s' := by
  obtain ⟨-, rfl⟩ | ⟨t, rest, ht, ⟨-, rfl⟩ | ⟨-, -, rfl⟩ | ⟨hcount, hf, s₁, hdone, rfl⟩⟩ :=
    ktaskRound_cases hr
  · exact h
  · exact h.congr rfl fun _ => rfl
  · exact h.congr rfl fun _ => rfl
  · obtain ⟨hlive, -, rfl⟩ := pageInDone_ok hdone
    refine KillInv.congr (h.setStatus fun hk => ?_) rfl fun _ => rfl
    -- a destroyed requestor would be free, and then `page_in` has no page directory
    rcases h t.requestorEnv hk with hst | hst
    · exact absurd hst (hheld t rest ht hf hcount)
    · exact absurd hst hlive

/-- Every critical section up to its call of the scheduler. -/
theorem KillInv.enter {s s' : Kernel} {a : Label} {next : Next} (h : KillInv s) (hinv : RunInv s)
    (hg : Careful s a) (hfin : Final s a) (hr : enter s a.cpu a.act = Except.ok (s', next)) :
    KillInv s' := by
  obtain ⟨c, act, inp⟩ := a
  dsimp only at hr
  by_cases hact : act = .sched
  · subst hact
    obtain ⟨rfl, rfl⟩ := Prod.mk.inj (Except.ok.inj hr)
    exact h
  obtain ⟨x, hc⟩ := curenv_of_enter hr hact
  have hfree : s.status x ≠ .free := ((hinv.sched.lax c).busy c x hc).1
  cases act with
  | sched => exact absurd rfl hact
  | pop =>
      simp only [Jos.enter, hc] at hr
      obtain ⟨rfl, -⟩ := Prod.mk.inj (Except.ok.inj hr)
      refine h.congr rfl fun y => ?_
      exact (SameView.modEnv s x (f := fun e => { e with cpunum := c }) rfl
        fun _ => ⟨rfl, rfl, rfl⟩).status y
  | trap =>
      simp only [Jos.enter, hc] at hr
      have hs : (trapEntry s c x).1 = s' := congrArg Prod.fst (Except.ok.inj hr)
      rw [← hs]
      unfold trapEntry
      split
      · exact (h.envFree c x).congr rfl fun _ => rfl
      · exact h
  | dispatch t =>
      simp only [Jos.enter, hc] at hr
      have hs : (Jos.trapDispatch s c x t).1 = s' := congrArg Prod.fst (Except.ok.inj hr)
      rw [← hs]
      exact h.trapDispatch hfree fun hsl => hfin.sleep t x rfl hsl hc
  | tail =>
      simp only [Jos.enter, hc] at hr
      obtain ⟨rfl, -⟩ := Prod.mk.inj (Except.ok.inj hr)
      exact h
  | ktask ready pteFound =>
      simp only [Jos.enter, hc] at hr
      obtain ⟨s₁, hround, hr⟩ := bind_eq_ok.1 hr
      obtain ⟨rfl, -⟩ := Prod.mk.inj (Except.ok.inj hr)
      refine h.ktaskRound (fun t rest ht hf hcount hst => ?_) hround
      -- a zombie is held by somebody, and a `page_in` that ends does not wake it
      obtain ⟨d, hd⟩ := (hinv.sched.lax c).live _ (Or.inr hst)
      exact hg.pageIn ready pteFound t rest rfl ht hf hcount d hd

/-- **One careful and final step** keeps destroyed environments destroyed. -/
theorem KillInv.step {s t : Kernel} {a : Label} (h : KillInv s) (hinv : RunInv s)
    (hg : Careful s a) (hfin : Final s a) (hstep : kernelStep s a t) : KillInv t := by
  obtain ⟨hen, hexec⟩ := hstep
  unfold kernelExec at hexec
  obtain ⟨⟨s', next⟩, henter, hproceed⟩ := bind_eq_ok.1 hexec
  have hentered := hinv.enter hg hen henter
  have hkill := h.enter hinv hg hfin henter
  cases next with
  | yield =>
      exact hkill.schedYield hentered (hg.yield s' henter)
        (fun s'' hpick => hfin.halt s' s'' henter hpick) hproceed
  | run e =>
      obtain ⟨rfl, -, hrun⟩ := hentered
      exact hkill.envRun (Or.inr hrun) hproceed
  | unlock pc =>
      obtain rfl := Except.ok.inj hproceed
      exact hkill.congr rfl fun _ => rfl

/-! ### Executing a destroyed environment -/

/-- Processor `c` is in the environment `x` or has left the kernel for it. -/
def Executes (s : Kernel) (c x : ℕ) : Prop :=
  s.curenv c = some x ∧ ((s.cpus c).pc = .entering ∨ (s.cpus c).pc = .user)

/-- A processor that executes a destroyed environment did so before the step and has not trapped. -/
theorem Executes.step_back {s t : Kernel} {a : Label} (hinv : RunInv s) (h : KillInv s)
    (hg : Careful s a) (hfin : Final s a) (hstep : kernelStep s a t) {c x : ℕ}
    (hex : Executes t c x) (hk : t.killed x = true) :
    Executes s c x ∧ ¬ (a.cpu = c ∧ a.act = .trap) := by
  obtain ⟨-, hcpus, harr⟩ := hinv.step_spec hg hstep
  have hkill := h.step hinv hg hfin hstep
  by_cases hac : c = a.cpu
  · subst hac
    -- the processor cannot have left the kernel for `x` just now
    have hnot : (t.cpus a.cpu).pc ≠ .entering := by
      intro hpc
      rw [hkill.ready (Or.inr (harr hpc x hex.1))] at hk
      exact absurd hk (by simp)
    have huser : (t.cpus a.cpu).pc = .user := hex.2.resolve_left hnot
    obtain ⟨hen, hexec⟩ := hstep
    unfold kernelExec at hexec
    obtain ⟨⟨s', next⟩, henter, hproceed⟩ := bind_eq_ok.1 hexec
    have hentered := hinv.enter hg hen henter
    cases next with
    | yield =>
        have hmoved := ReadyToYield.moved hentered (hg.yield s' henter) hproceed
        rcases hmoved.2 with hpc | hpc <;> simp [hpc] at huser
    | run e =>
        rcases (moved_envRun hproceed).2 with hpc | hpc <;> simp [hpc] at huser
    | unlock pc =>
        obtain rfl := Except.ok.inj hproceed
        have hpc : pc = .user := by simpa [Kernel.setPc] using huser
        have hpop := (enter_unlock henter).2 hpc
        rw [hpop] at hen
        refine ⟨⟨?_, Or.inl hen⟩, fun htrap => ?_⟩
        · have hcur := hex.1
          rw [Kernel.curenv_setPc, Kernel.curenv, hentered.2.1] at hcur
          exact hcur
        · rw [hpop] at htrap
          exact absurd htrap.2 (by simp)
  · refine ⟨?_, fun htrap => hac htrap.1.symm⟩
    unfold Executes Kernel.curenv at hex ⊢
    rwa [hcpus c hac] at hex

/-! ### A processor without a zombie -/

/-- The environment of a processor, if it has one, is no zombie. -/
def ownAlive (s : Kernel) (c : ℕ) : Bool :=
  match s.curenv c with
  | none => true
  | some x => s.status x ≠ .dying

theorem ownAlive_iff {s : Kernel} {c : ℕ} :
    ownAlive s c = true ↔ ∀ x, s.curenv c = some x → s.status x ≠ .dying := by
  unfold ownAlive
  cases s.curenv c with
  | none => simp
  | some x => simp

/-- The environment of the processor is no zombie while a trap of it is handled, nor when the
scheduler is called. -/
def alive (s : Kernel) (a : Label) : Bool :=
  (match a.act with
    | .dispatch _ => ownAlive s a.cpu
    | _ => true) &&
    match enter s a.cpu a.act with
    | Except.ok (s', .yield) => ownAlive s' a.cpu
    | _ => true

/-- A processor whose environment is no zombie leaves zombies alone. -/
theorem final_of_alive {s : Kernel} {a : Label} (halive : alive s a = true) : Final s a := by
  simp only [alive, Bool.and_eq_true] at halive
  obtain ⟨htrap, hyield⟩ := halive
  refine ⟨fun t x hact _ hx => ?_, fun s' s'' henter _ x hx => ?_⟩
  · rw [hact] at htrap
    exact ownAlive_iff.1 htrap x hx
  · rw [henter] at hyield
    exact ownAlive_iff.1 hyield x hx

/-! ### Whole runs -/

/-- A step that is careful and leaves zombies alone. -/
def CarefulFinal (s : Kernel) (a : Label) : Prop := Careful s a ∧ Final s a

theorem carefulFinal_step (s : Kernel) (a : Label) (t : Kernel) (h : RunInv s ∧ KillInv s)
    (hg : CarefulFinal s a) (hstep : kernelStep s a t) : RunInv t ∧ KillInv t :=
  ⟨h.1.step hg.1 hstep, h.2.step h.1 hg.1 hg.2 hstep⟩

/-- Along a run in which `x` stays destroyed, a processor executes it only when it did so all the
time and has not trapped. -/
theorem Executes.run_back {s t : Kernel} {tr : List (Kernel × Label)} (hinv : RunInv s)
    (h : KillInv s) (hrun : Run kernelStep s tr t) (hmeets : Meets CarefulFinal tr) {c x : ℕ}
    (hsame : ∀ p ∈ tr, p.1.killed x = true) (hk : t.killed x = true) (hex : Executes t c x) :
    Executes s c x ∧ ∀ p ∈ tr, ¬ (p.2.cpu = c ∧ p.2.act = .trap) := by
  induction hrun with
  | nil => exact ⟨hex, fun p hp => absurd hp (by simp)⟩
  | snoc hbefore hst ih =>
      rename_i t u tr a
      obtain ⟨hmeets, hlast⟩ := hmeets.of_snoc
      have hboth : RunInv t ∧ KillInv t := hbefore.invariant carefulFinal_step ⟨hinv, h⟩ hmeets
      obtain ⟨hext, hnot⟩ := hex.step_back hboth.1 hboth.2 hlast.1 hlast.2 hst hk
      obtain ⟨hexs, hnots⟩ := ih hmeets (fun p hp => hsame p (by simp [hp]))
        (hsame (t, a) (by simp)) hext
      refine ⟨hexs, fun p hp => ?_⟩
      rcases List.mem_append.1 hp with hp | hp
      · exact hnots p hp
      · rw [List.mem_singleton.1 hp]
        exact hnot

theorem killInv_of_run {types : List EnvType} {s₀ s : Kernel} {tr : List (Kernel × Label)}
    (hboot : Kernel.boot types = Except.ok s₀) (hrun : Run kernelStep s₀ tr s)
    (hmeets : Meets CarefulFinal tr) : RunInv s ∧ KillInv s := by
  obtain ⟨hinv, -, hkilled⟩ := boot_spec hboot
  refine hrun.invariant carefulFinal_step ⟨hinv, ?_⟩ hmeets
  intro x hx
  rw [hkilled x] at hx
  exact absurd hx (by simp)

/-- **Destruction is final** along runs of careful and final steps: a destroyed environment is
neither runnable nor running, and while its slot is not used again a processor that does not execute
it, or has trapped since, never executes it. -/
theorem destruction_final {types : List EnvType} {s₀ s : Kernel} {tr : List (Kernel × Label)}
    (hboot : Kernel.boot types = Except.ok s₀) (hrun : Run kernelStep s₀ tr s)
    (hmeets : Meets CarefulFinal tr) {x : ℕ} (hk : s.killed x = true) :
    (s.status x ≠ .runnable ∧ s.status x ≠ .running) ∧
      ∀ (tr' : List (Kernel × Label)) (t : Kernel) (c : ℕ), Run kernelStep s tr' t →
        Meets CarefulFinal tr' → (∀ p ∈ tr', p.1.killed x = true) → t.killed x = true →
        (¬ Executes s c x ∨ ∃ p ∈ tr', p.2.cpu = c ∧ p.2.act = .trap) → ¬ Executes t c x := by
  obtain ⟨hinv, hkill⟩ := killInv_of_run hboot hrun hmeets
  refine ⟨?_, ?_⟩
  · rcases hkill x hk with hst | hst <;> simp [hst]
  · intro tr' t c hrun' hmeets' hsame hkt hleft hex
    obtain ⟨hexs, hnot⟩ := hex.run_back hinv hkill hrun' hmeets' hsame hkt
    rcases hleft with hnex | ⟨p, hp, htrap⟩
    · exact hnex hexs
    · exact hnot p hp htrap

/-- A parent destroys its child while the first processor executes it, and once that processor has
trapped it does not execute the child any more. -/
theorem destruction_final_first : ∃ s₀ s t tr tr', Kernel.boot [.user] = Except.ok s₀ ∧
    Run kernelStep s₀ tr s ∧ Meets CarefulFinal tr ∧ s.killed 3 = true ∧ Executes s 0 3 ∧
      (s.status 3 ≠ .runnable ∧ s.status 3 ≠ .running) ∧ Run kernelStep s tr' t ∧
      tr'.map Prod.snd = [.at 0 .trap 4] ∧ ¬ Executes t 0 3 := by
  have hview : guardedRun (fun s a => paired s a = true ∧ alive s a = true) [.user] childDies
      (fun s => decide (s.killed 3 = true ∧ s.curenv 0 = some 3 ∧ (s.cpus 0).pc = .user ∧
        paired s (.at 0 .trap 4) = true ∧ alive s (.at 0 .trap 4) = true ∧
        (kernelNext s (.at 0 .trap 4)).any (fun t => t.killed 3) = true)) = some true := by
    decide +kernel
  obtain ⟨s₀, s, tr, hboot, hrun, hguard, hs⟩ := run_of_guardedRun hview
  obtain ⟨hk, hcur, hpc, hpaired, halive, hnext⟩ := of_decide_eq_true hs
  obtain ⟨t, hnext, hkt⟩ := (Option.any_eq_true _ _).1 hnext
  obtain ⟨hpair, hcareful⟩ := (Pair.of_boot hboot).run hrun fun p hp => (hguard p hp).1
  have hmeets : Meets CarefulFinal tr :=
    fun p hp => ⟨hcareful p hp, final_of_alive (hguard p hp).2⟩
  have hex : Executes s 0 3 := ⟨hcur, Or.inr hpc⟩
  have hrun' : Run kernelStep s [(s, .at 0 .trap 4)] t :=
    (Run.nil s).snoc (kernelStep_of_next hnext)
  have hmeets' : Meets CarefulFinal [(s, Label.at 0 .trap 4)] :=
    (Meets.nil _).snoc ⟨hpair.careful hpaired, final_of_alive halive⟩
  have hstays : ∀ p ∈ [(s, Label.at 0 .trap 4)], p.1.killed 3 = true := by
    intro p hp
    rw [List.mem_singleton.1 hp]
    exact hk
  have hfinal := destruction_final hboot hrun hmeets hk
  exact ⟨s₀, s, t, tr, _, hboot, hrun, hmeets, hk, hex, hfinal.1, hrun', rfl,
    hfinal.2 _ t 0 hrun' hmeets' hstays hkt
      (Or.inr ⟨_, List.mem_singleton.2 rfl, rfl, rfl⟩)⟩

/-- A processor is in a trap of the child when the parent destroys it, and then finds nothing to
run. -/
def zombieHalts : List Label :=
  [.at 0 .sched 1, .at 0 .pop 1, .at 0 .trap 1, .at 0 (.dispatch (.syscall (.fork .ok))) 2,
   .at 1 .sched 3, .at 1 .pop 3, .at 0 .pop 3, .at 0 .trap 3, .at 1 .trap 3,
   .at 1 (.dispatch (.syscall (.envDestroy 0x1003))) 3, .at 0 (.dispatch .timer) 5000000]

theorem destruction_not_final : ¬ ∀ (types : List EnvType) (s₀ s : Kernel)
    (tr : List (Kernel × Label)), Kernel.boot types = Except.ok s₀ → Run kernelStep s₀ tr s →
      ∀ x, s.killed x = true → s.status x ≠ .runnable ∧ s.status x ≠ .running := by
  intro h
  have hview : bootRun [.user] zombieHalts (fun s => (s.killed 3, s.status 3)) =
      some (true, .runnable) := by decide +kernel
  obtain ⟨s₀, s, tr, hboot, hrun, -, hs⟩ := run_of_bootRun hview
  exact (h _ s₀ s tr hboot hrun 3 (Prod.mk.inj hs).1).1 (Prod.mk.inj hs).2

end Jos
