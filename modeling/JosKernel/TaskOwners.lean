/-
**The environments of the tasklets.**

A tasklet keeps a pointer to an environment over many rounds of the kernel threads, while that
environment can be destroyed and its slot used again; `env_free` does not look at the tasklets.
`Jos.Spares` says that a step frees no environment that a tasklet points to, and `Jos.SparesTasks`
adds that tasklets are queued for addresses below `UTOP`, where every environment has its own
entries. Along runs of such steps a tasklet that is done finds the environment for which it was
queued, rewrites an entry of this environment, and wakes it if it went to sleep for the tasklet.

Main definitions:

* `Jos.Spares`, `Jos.SparesTasks` — the condition on a step;
* `Jos.OwnInv` — every tasklet points to the environment for which it was queued;
* `Jos.jobStep` — the steps of the kernel with the addresses of the tasklets;
* `Jos.SleptFor` — the step in which an environment went to sleep for a tasklet;
* `Jos.TouchesOwners` — what the tasklets touch.

Main results:

* `Jos.OwnInv.step`, `Jos.kernelStep_queue`, `Jos.jobStep_jobs` — one step;
* `Jos.exists_jobRun` — every run of the kernel is a run with addresses;
* `Jos.tasklet_owner_kept` — whole runs;
* `Jos.tasklet_owner_lost` — a parent destroys a child that waits for a page.
-/

import JosKernel.TaskEntries
import JosKernel.Wakeups

set_option relaxedAutoImplicit false
set_option autoImplicit false

namespace Jos

open LabelledRun Outcome

/-! ### The condition on a step -/

/-- The environments that a step may free: the one its critical section frees, and a zombie that its
processor leaves. -/
def mayFree (s : Kernel) (a : Label) : List ℕ :=
  (freeTarget s a.cpu a.act).toList ++
    ((s.curenv a.cpu).filter fun x => s.status x = .dying).toList

/-- **A step that spares the environments of the tasklets**: it frees none of them, and a new
environment gets a free slot. -/
def Spares (s : Kernel) (a : Label) : Prop :=
  AllocOk s a ∧ ∀ x ∈ mayFree s a, ∀ τ ∈ s.tList, τ.requestorEnv ≠ x

instance (s : Kernel) (a : Label) : Decidable (Spares s a) :=
  inferInstanceAs (Decidable (_ ∧ _))

/-- A zombie of the processor has no tasklet. -/
def ZombieDone (c : ℕ) (s : Kernel) : Prop :=
  ∀ x, s.curenv c = some x → s.status x = .dying → ∀ τ ∈ s.tList, τ.requestorEnv ≠ x

theorem Spares.target {s : Kernel} {a : Label} (h : Spares s a) {x : ℕ}
    (hx : freeTarget s a.cpu a.act = some x) : ∀ τ ∈ s.tList, τ.requestorEnv ≠ x :=
  h.2 x (List.mem_append_left _ (by simp [hx]))

theorem Spares.zombie {s : Kernel} {a : Label} (h : Spares s a) : ZombieDone a.cpu s := by
  intro x hx hst
  refine h.2 x (List.mem_append_right _ ?_)
  simp [hx, hst]

/-! ### The invariant -/

/-- **Every tasklet points to the environment for which it was queued.** -/
def OwnInv (s : Kernel) : Prop :=
  ∀ τ ∈ s.tList, s.status τ.requestorEnv ≠ .free ∧ (s.envs τ.requestorEnv).envId = τ.queuedId

/-- What holds while the scheduler of processor `c` runs. -/
structure Owned (c : ℕ) (s : Kernel) : Prop where
  own : OwnInv s
  zombie : ZombieDone c s

theorem OwnInv.congr {s t : Kernel} (h : OwnInv s)
    (htask : ∀ τ ∈ t.tList, ∃ σ ∈ s.tList, τ.requestorEnv = σ.requestorEnv ∧
      τ.queuedId = σ.queuedId)
    (hlive : ∀ τ ∈ s.tList, s.status τ.requestorEnv ≠ .free →
      t.status τ.requestorEnv ≠ .free ∧
        (t.envs τ.requestorEnv).envId = (s.envs τ.requestorEnv).envId) : OwnInv t := by
  intro τ hτ
  obtain ⟨σ, hσ, hx, hid⟩ := htask τ hτ
  obtain ⟨hfree, hown⟩ := h σ hσ
  obtain ⟨hfree', hsame⟩ := hlive σ hσ hfree
  rw [hx, hid]
  exact ⟨hfree', hsame.trans hown⟩

/-- The same when the tasklets do not change. -/
theorem OwnInv.table {s t : Kernel} (h : OwnInv s) (htask : t.tList = s.tList)
    (hlive : ∀ τ ∈ s.tList, s.status τ.requestorEnv ≠ .free →
      t.status τ.requestorEnv ≠ .free ∧
        (t.envs τ.requestorEnv).envId = (s.envs τ.requestorEnv).envId) : OwnInv t := by
  refine h.congr (fun τ hτ => ⟨τ, ?_, rfl, rfl⟩) hlive
  rwa [htask] at hτ

theorem OwnInv.setStatus {s : Kernel} (h : OwnInv s) (x : ℕ) {st : EnvStatus} (hst : st ≠ .free) :
    OwnInv (s.setStatus x st) := by
  refine h.table rfl fun τ _ hlive => ⟨?_, (WakeInv.envId_setStatus s x st _).1⟩
  rw [Kernel.status_setStatus]
  split
  · exact hst
  · exact hlive

/-- An environment without tasklets is freed. -/
theorem OwnInv.envFree {s : Kernel} (h : OwnInv s) {x : ℕ} (hx : ∀ τ ∈ s.tList, τ.requestorEnv ≠ x)
    (c : ℕ) : OwnInv (envFree s c x) := by
  obtain ⟨-, hid, hfree⟩ := envFree_slots s c x
  refine h.table rfl fun τ hτ hlive => ⟨fun hf => ?_, hid _⟩
  rcases (hfree _).1 hf with hτx | hf
  · exact hx τ hτ hτx
  · exact hlive hf

/-- A zombie was one before somebody else was freed. -/
theorem dying_of_envFree {s : Kernel} {c x z : ℕ} (h : (envFree s c x).status z = .dying) :
    s.status z = .dying := by
  rw [status_envFree] at h
  split at h
  · exact absurd h (by simp)
  · rcases status_notify s (s.envs x).envId z with hsame | ⟨-, -, hrun⟩
    · rwa [hsame] at h
    · rw [hrun] at h
      exact absurd h (by simp)

/-- `find_pte_all` finds environments that are not free and not zombies. -/
theorem searched_spec {s : Kernel} {x : ℕ} (h : searched s x = true) :
    s.status x ≠ .free ∧ s.status x ≠ .dying := by
  have hst := (of_decide_eq_true h).2.2
  rcases hst with hst | hst | hst <;> simp [hst]

namespace Owned

variable {c : ℕ} {s t : Kernel}

theorem quiet (h : Owned c s) (ht : SameTable s t) : Owned c t where
  own := by
    refine h.own.table ht.tList fun τ _ hlive => ⟨?_, ht.envId _⟩
    rw [ht.status]
    exact hlive
  zombie x hx hst := by
    rw [ht.curenv] at hx
    rw [ht.status] at hst
    rw [ht.tList]
    exact h.zombie x hx hst

theorem reclaimPgs (h : Owned c s) (requestors : List ℕ) : Owned c (reclaimPgs s requestors) := by
  have hnew : ∀ τ ∈ (Jos.reclaimPgs s requestors).tList, τ ∈ s.tList ∨
      ∃ x, searched s x = true ∧ τ = taskFor s .pageOut x := by
    intro τ hτ
    rcases List.mem_append.1 hτ with hτ | hτ
    · exact Or.inl hτ
    · obtain ⟨x, hx, rfl⟩ := List.mem_map.1 hτ
      exact Or.inr ⟨x, (List.mem_filter.1 (List.mem_of_mem_take hx)).2, rfl⟩
  refine ⟨fun τ hτ => ?_, fun x hx hst τ hτ => ?_⟩
  · rcases hnew τ hτ with hold | ⟨x, hx, rfl⟩
    · exact h.own τ hold
    · exact ⟨(searched_spec hx).1, rfl⟩
  · rcases hnew τ hτ with hold | ⟨z, hz, rfl⟩
    · exact h.zombie x hx hst τ hold
    · rintro rfl
      exact (searched_spec hz).2 hst

/-- The processor's own environment is no zombie. -/
theorem ofOwn (hown : OwnInv s) (hz : ∀ x, s.curenv c = some x → s.status x ≠ .dying) : Owned c s :=
  ⟨hown, fun x hx hst => absurd hst (hz x hx)⟩

theorem resumeEnv (h : Owned c s) : Owned c (resumeEnv s) := by
  have hset := Settled.resumeEnv s
  refine ⟨h.own.table rfl fun τ _ hlive => ⟨?_, (hset.ids _).2.2⟩, fun x hx hst => ?_⟩
  · rcases hset.status τ.requestorEnv with he | ⟨-, hr⟩
    · rwa [he]
    · simp [hr]
  · rcases hset.status x with he | ⟨-, hr⟩
    · rw [he] at hst
      exact h.zombie x hx hst
    · rw [hr] at hst
      exact absurd hst (by simp)

theorem schedStable (c : ℕ) : SchedStable c (Owned c) where
  quiet _ _ ht h := h.quiet ht
  resume _ h := h.resumeEnv
  reclaim _ requestors h := h.reclaimPgs requestors
  release s x h hx := by
    refine Owned.ofOwn (h.own.setStatus x (by simp)) fun z hz => ?_
    rw [Kernel.curenv_setStatus, hx, Option.some_inj] at hz
    rw [Kernel.status_setStatus, if_pos hz.symm]
    simp
  collect s x h hx hst := by
    refine Owned.ofOwn (h.own.envFree (h.zombie x hx hst) c) fun z hz => ?_
    rw [curenv_envFree, hx, Option.some_inj] at hz
    rw [status_envFree, if_pos hz.symm]
    simp
  take s e h _ _ := by
    have hown : OwnInv (s.setCurenv c (some e)) := h.own
    refine Owned.ofOwn (hown.setStatus e (by simp)) fun z hz => ?_
    rw [Kernel.curenv_setStatus, Kernel.curenv_setCurenv, if_pos rfl, Option.some_inj] at hz
    rw [Kernel.status_setStatus, if_pos hz.symm]
    simp
  drop s h := by
    refine Owned.ofOwn h.own fun z hz => ?_
    rw [Kernel.curenv_setCurenv, if_pos rfl] at hz
    exact absurd hz (by simp)

end Owned

/-! ### A critical section -/

theorem OwnInv.swapIn {s : Kernel} (h : OwnInv s) (x : ℕ) :
    OwnInv { s.setStatus x .sleeping with tList := s.tList ++ [taskFor s .pageIn x] } := by
  intro τ hτ
  rcases List.mem_append.1 hτ with hτ | hτ
  · exact h.setStatus x (by simp) τ hτ
  · rw [List.mem_singleton.1 hτ]
    refine ⟨?_, (WakeInv.envId_setStatus s x .sleeping x).1⟩
    change (s.setStatus x .sleeping).status x ≠ .free
    rw [Kernel.status_setStatus, if_pos rfl]
    simp

theorem OwnInv.wait {s : Kernel} (h : OwnInv s) (x : ℕ) (envid : BitVec 32) :
    OwnInv (s.modEnv x fun e => { e with waitId := envid, status := .sleeping }) := by
  refine h.table rfl fun τ _ hlive => ⟨?_, ?_⟩
  · rw [Kernel.status_modEnv]
    split
    · simp
    · exact hlive
  · by_cases hx : τ.requestorEnv = x
    · rw [hx]
      simp [Kernel.modEnv]
    · simp [Kernel.modEnv, hx]

namespace Owned

variable {c : ℕ} {s : Kernel}

/-- The processor's environment goes to sleep. -/
theorem sleeps {x : ℕ} (h : OwnInv s) (hx : s.curenv c = some x) (hst : s.status x = .sleeping) :
    Owned c s := by
  refine Owned.ofOwn h fun z hz => ?_
  rw [hx, Option.some_inj] at hz
  rw [← hz, hst]
  simp

/-- Another processor's environment becomes a zombie. -/
theorem kill (h : Owned c s) {x : ℕ} (hx : s.curenv c ≠ some x) :
    Owned c (s.setStatus x .dying) := by
  refine ⟨h.own.setStatus x (by simp), fun z hz hst => ?_⟩
  have hzx : z ≠ x := by
    rintro rfl
    exact hx hz
  rw [Kernel.status_setStatus, if_neg hzx] at hst
  exact h.zombie z hz hst

theorem free (h : Owned c s) {x : ℕ} (hx : ∀ τ ∈ s.tList, τ.requestorEnv ≠ x) :
    Owned c (Jos.envFree s c x) :=
  ⟨h.own.envFree hx c, fun z hz hst => h.zombie z hz (dying_of_envFree hst)⟩

theorem freeOwn (h : Owned c s) {x : ℕ} (hx : ∀ τ ∈ s.tList, τ.requestorEnv ≠ x) :
    Owned c ((Jos.envFree s c x).setCurenv c none) := by
  have hfree : OwnInv (Jos.envFree s c x) := h.own.envFree hx c
  refine Owned.ofOwn hfree fun z hz => ?_
  rw [Kernel.curenv_setCurenv, if_pos rfl] at hz
  exact absurd hz (by simp)

/-- A new environment gets a free slot, which no tasklet points to. -/
theorem fork (h : Owned c s) {parentId : BitVec 32} {type : EnvType} {y : ℕ} {t : Kernel}
    (halloc : envAlloc s parentId type = some (y, t)) (hfree : s.status y = .free) : Owned c t := by
  obtain ⟨-, -, hnew, hother⟩ := envAlloc_some halloc
  obtain ⟨-, htask, -⟩ := envAlloc_rest halloc
  refine ⟨h.own.table htask fun τ _ hlive => ?_, fun z hz hst => ?_⟩
  · have hτy : τ.requestorEnv ≠ y := by
      intro hτy
      rw [hτy] at hlive
      exact hlive hfree
    rw [Kernel.status, hother _ hτy]
    exact ⟨hlive, rfl⟩
  · have hzy : z ≠ y := by
      rintro rfl
      rw [hnew] at hst
      exact absurd hst (by simp)
    rw [Kernel.curenv, (envAlloc_frame halloc).1] at hz
    rw [Kernel.status, hother z hzy] at hst
    rw [htask]
    exact h.zombie z hz hst

/-- The tasklets of `t` were there, up to their counts. -/
theorem tasks (h : Owned c s) {l : List Tasklet}
    (hl : ∀ τ ∈ l, ∃ σ ∈ s.tList, τ.requestorEnv = σ.requestorEnv ∧ τ.queuedId = σ.queuedId) :
    Owned c { s with tList := l } := by
  refine ⟨h.own.congr hl fun _ _ hlive => ⟨hlive, rfl⟩, fun z hz hst τ hτ => ?_⟩
  obtain ⟨σ, hσ, hx, -⟩ := hl τ hτ
  rw [hx]
  exact h.zombie z hz hst σ hσ

/-- A tasklet is done, and its environment can go on. -/
theorem wake (h : Owned c s) (x : ℕ) : Owned c (s.setStatus x .runnable) := by
  refine ⟨h.own.setStatus x (by simp), fun z hz hst => ?_⟩
  rw [Kernel.status_setStatus] at hst
  split at hst
  · exact absurd hst (by simp)
  · exact h.zombie z hz hst

end Owned

/-- The tasklets behind the first one. -/
theorem behind_first {s : Kernel} {τ : Tasklet} {rest : List Tasklet} (hτ : s.tList = τ :: rest) :
    ∀ σ ∈ rest, ∃ ρ ∈ s.tList, σ.requestorEnv = ρ.requestorEnv ∧ σ.queuedId = ρ.queuedId := by
  intro σ hσ
  rw [hτ]
  exact ⟨σ, List.mem_cons_of_mem _ hσ, rfl, rfl⟩

theorem OwnInv.entry {s s' : Kernel} {a : Label} (h : OwnInv s) (hsp : Spares s a)
    (he : Entry a.cpu s a.act s') : Owned a.cpu s' := by
  obtain ⟨c, act, inp⟩ := a
  have htarget : ∀ {x}, freeTarget s c act = some x → ∀ τ ∈ s.tList, τ.requestorEnv ≠ x :=
    fun hx => hsp.target hx
  have halloc := hsp.1
  have hnow : Owned c s := ⟨h, hsp.zombie⟩
  dsimp only at he ⊢
  cases he with
  | quiet ht => exact hnow.quiet ht
  | kill hs hx hc => exact (hnow.quiet hs).kill fun hz => hc ((hs.curenv c).symm.trans hz)
  | free hs hx hc =>
      refine (hnow.quiet hs).free ?_
      rw [hs.tList]
      exact htarget hx
  | freeOwn hs hx hc =>
      refine (hnow.quiet hs).freeOwn ?_
      rw [hs.tList]
      exact htarget hx
  | sleepOnDrc hc ha =>
      rename_i x
      exact Owned.sleeps (h.setStatus x (by simp)) hc
        ((Kernel.status_setStatus s x x .sleeping).trans (if_pos rfl))
  | swapIn hc =>
      rename_i x
      exact Owned.sleeps (h.swapIn x) hc
        ((Kernel.status_setStatus s x x .sleeping).trans (if_pos rfl))
  | wait hc hy =>
      rename_i x y envid
      exact Owned.sleeps (h.wait x envid) hc ((Kernel.status_modEnv s x x _).trans (if_pos rfl))
  | fork ho hr ht => exact (hnow.fork hr (halloc.slot ho hr).2).quiet ht
  | round n hτ =>
      rename_i τ rest
      refine hnow.tasks fun σ hσ => ?_
      rcases List.mem_cons.1 hσ with rfl | hσ
      · exact ⟨τ, by rw [hτ]; exact List.mem_cons_self, rfl, rfl⟩
      · exact behind_first hτ σ hσ
  | pageOut hτ hf => exact hnow.tasks (behind_first hτ)
  | pageIn hτ hf hn hx => exact (hnow.wake _).tasks (behind_first hτ)

/-- **One step.** -/
theorem OwnInv.step {s t : Kernel} {a : Label} (h : OwnInv s) (hsp : Spares s a)
    (hstep : kernelStep s a t) : OwnInv t :=
  ((Owned.schedStable a.cpu).step (fun _ he => h.entry hsp he) hstep).own

/-- A round finds the page directory that it needs. -/
theorem OwnInv.round {s : Kernel} (h : OwnInv s) (ready : Bool) :
    ∃ t, ktaskRound s ready true = Except.ok t := by
  unfold ktaskRound
  cases hτ : s.tList with
  | nil => exact ⟨s, rfl⟩
  | cons τ rest =>
      dsimp only
      split
      · exact ⟨_, rfl⟩
      · cases hf : τ.fptr with
        | pageOut => exact ⟨_, rfl⟩
        | pageIn =>
            have hlive := (h τ (by rw [hτ]; exact List.mem_cons_self)).1
            refine ⟨_, bind_eq_ok.2 ⟨s.setStatus τ.requestorEnv .runnable, ?_, rfl⟩⟩
            simp [pageInDone, hlive]
            rfl

/-! ### Tasklets with their addresses -/

/-- What else belongs to a tasklet: `fault_addr`, and the step that queued it. -/
structure Job where
  faultAddr : BitVec 32
  queuedBy : Kernel × Label

/-- The kernel with the addresses of its tasklets. -/
structure TaskKernel where
  kern : Kernel
  jobs : List Job

/-- A step, with the addresses of the tasklets that it queues. -/
structure TaskLabel where
  base : Label
  faultAddrs : List (BitVec 32)
  deriving DecidableEq, Repr

/-- The number of tasklets that a critical section completes. -/
def finished (s : Kernel) : Act → ℕ
  | .ktask _ _ => if ∃ τ ∈ s.tList.head?, nSectors ≤ τ.count then 1 else 0
  | _ => 0

/-- The addresses after a step. -/
def TaskKernel.queue (s : TaskKernel) (a : TaskLabel) : List Job :=
  s.jobs.drop (finished s.kern a.base.act) ++ a.faultAddrs.map fun va => ⟨va, s.kern, a.base⟩

/-- **A step of the kernel with the addresses of its tasklets.** -/
def jobStep (s : TaskKernel) (a : TaskLabel) (t : TaskKernel) : Prop :=
  kernelStep s.kern a.base t.kern ∧ t.jobs = s.queue a ∧ t.jobs.length = t.kern.tList.length

/-- **A step that keeps tasklets and environments together**: it spares the environments of the
tasklets, and the tasklets that it queues are for addresses below `UTOP`. -/
def SparesTasks (s : TaskKernel) (a : TaskLabel) : Prop :=
  Spares s.kern a.base ∧ ∀ va ∈ a.faultAddrs, va < uTop

/-- **The environment of `τ` went to sleep in the step `p`**, which queued `τ`. -/
def SleptFor (p : Kernel × Label) (τ : Tasklet) : Prop :=
  p.2.act = .dispatch (.pageFault .swapped) ∧ p.1.curenv p.2.cpu = some τ.requestorEnv ∧
    (p.1.envs τ.requestorEnv).envId = τ.queuedId ∧
      ∃ s next, enter p.1 p.2.cpu p.2.act = Except.ok (s, next) ∧
        s.status τ.requestorEnv = .sleeping ∧
          s.tList = p.1.tList ++ [⟨.pageIn, 0, τ.requestorEnv, τ.queuedId⟩]

/-- What a tasklet and its address have to do with the steps that have been taken. -/
structure JobOf (steps : List (Kernel × Label)) (τ : Tasklet) (j : Job) : Prop where
  addr : j.faultAddr < uTop
  step : j.queuedBy ∈ steps
  slept : τ.fptr = .pageIn → SleptFor j.queuedBy τ

/-! ### What a step does to the queue -/

/-- The same tasklet, up to its count. -/
structure SameTask (τ σ : Tasklet) : Prop where
  fptr : σ.fptr = τ.fptr
  env : σ.requestorEnv = τ.requestorEnv
  id : σ.queuedId = τ.queuedId

theorem SameTask.refl (τ : Tasklet) : SameTask τ τ := ⟨rfl, rfl, rfl⟩

theorem forall₂_sameTask (l : List Tasklet) : List.Forall₂ SameTask l l :=
  List.forall₂_same.2 fun τ _ => SameTask.refl τ

theorem SleptFor.congr {p : Kernel × Label} {τ σ : Tasklet} (h : SleptFor p τ) (hs : SameTask τ σ) :
    SleptFor p σ := by
  unfold SleptFor
  rw [hs.env, hs.id]
  exact h

theorem JobOf.congr {steps : List (Kernel × Label)} {τ σ : Tasklet} {j : Job} (h : JobOf steps τ j)
    (hs : SameTask τ σ) : JobOf steps σ j where
  addr := h.addr
  step := h.step
  slept hf := (h.slept (hs.fptr.symm.trans hf)).congr hs

theorem JobOf.mono {steps steps' : List (Kernel × Label)} {τ : Tasklet} {j : Job}
    (h : JobOf steps τ j) (hsub : steps ⊆ steps') : JobOf steps' τ j where
  addr := h.addr
  step := hsub h.step
  slept := h.slept

/-- Only `page_out` tasklets have been queued since `s`. -/
def OutsQueued (s t : Kernel) : Prop :=
  ∃ outs, t.tList = s.tList ++ outs ∧ ∀ τ ∈ outs, τ.fptr = .pageOut

/-- The scheduler queues tasklets in `reclaim_pgs` only. -/
theorem OutsQueued.schedStable (c : ℕ) (s : Kernel) : SchedStable c (OutsQueued s) where
  quiet t u ht h := by
    unfold OutsQueued
    rw [ht.tList]
    exact h
  resume _ h := h
  reclaim t requestors h := by
    obtain ⟨outs, ht, houts⟩ := h
    refine ⟨outs ++ ((requestors.filter (searched t)).take (nTasklets - t.tList.length)).map
      (taskFor t .pageOut), ?_, fun τ hτ => ?_⟩
    · rw [← List.append_assoc, ← ht]
      rfl
    · rcases List.mem_append.1 hτ with hτ | hτ
      · exact houts τ hτ
      · obtain ⟨x, -, rfl⟩ := List.mem_map.1 hτ
        rfl
  release _ _ h _ := h
  collect _ _ h _ _ := h
  take _ _ h _ _ := h
  drop _ h := h

/-- What is queued before the scheduler is called. -/
theorem Entry.queue {c : ℕ} {s s' : Kernel} {a : Act} (he : Entry c s a s')
    (ha : ∀ ready pteFound, a ≠ .ktask ready pteFound) :
    s'.tList = s.tList ∨ ∃ x, a = .dispatch (.pageFault .swapped) ∧ s.curenv c = some x ∧
      s'.status x = .sleeping ∧ s'.tList = s.tList ++ [taskFor s .pageIn x] := by
  cases he with
  | quiet ht => exact Or.inl ht.tList
  | kill hs _ _ => exact Or.inl hs.tList
  | free hs _ _ => exact Or.inl hs.tList
  | freeOwn hs _ _ => exact Or.inl hs.tList
  | sleepOnDrc _ _ => exact Or.inl rfl
  | swapIn hc =>
      rename_i x
      exact Or.inr ⟨x, rfl, hc, (Kernel.status_setStatus s x x .sleeping).trans (if_pos rfl), rfl⟩
  | wait _ _ => exact Or.inl rfl
  | fork _ hr ht => exact Or.inl (ht.tList.trans (envAlloc_rest hr).2.1)
  | round _ _ => exact absurd rfl (ha _ _)
  | pageOut _ _ => exact absurd rfl (ha _ _)
  | pageIn _ _ _ _ => exact absurd rfl (ha _ _)

/-- The queue after a critical section, before the scheduler is called. -/
theorem enter_queue {s s' : Kernel} {a : Label} {next : Next}
    (hr : enter s a.cpu a.act = Except.ok (s', next)) :
    ∃ kept new, s'.tList = kept ++ new ∧
      List.Forall₂ SameTask (s.tList.drop (finished s a.act)) kept ∧
        ∀ τ ∈ new, SleptFor (s, a) τ := by
  by_cases hact : ∃ ready pteFound, a.act = .ktask ready pteFound
  · obtain ⟨ready, pteFound, hact⟩ := hact
    obtain ⟨c, act, inp⟩ := a
    dsimp only at hact hr ⊢
    subst hact
    obtain ⟨x, hc⟩ := curenv_of_enter hr (by simp)
    simp only [enter, hc] at hr
    obtain ⟨s₁, hround, hr⟩ := bind_eq_ok.1 hr
    obtain ⟨rfl, -⟩ := Prod.mk.inj (Except.ok.inj hr)
    refine ⟨s₁.tList, [], (List.append_nil _).symm, ?_, fun τ hτ => absurd hτ (by simp)⟩
    obtain ⟨hnil, rfl⟩ | ⟨τ, rest, hτ, ⟨hlt, rfl⟩ | ⟨hn, -, rfl⟩ | ⟨hn, -, s₂, -, rfl⟩⟩ :=
      ktaskRound_cases hround
    · rw [hnil, List.drop_nil]
      exact List.Forall₂.nil
    · have hfin : finished s (.ktask ready pteFound) = 0 := by
        simp [finished, hτ, hlt]
      rw [hfin, hτ]
      exact List.Forall₂.cons ⟨rfl, rfl, rfl⟩ (forall₂_sameTask rest)
    · have hfin : finished s (.ktask ready pteFound) = 1 := by
        simp [finished, hτ, hn]
      rw [hfin, hτ]
      exact forall₂_sameTask rest
    · have hfin : finished s (.ktask ready pteFound) = 1 := by
        simp [finished, hτ, hn]
      rw [hfin, hτ]
      exact forall₂_sameTask rest
  · have hact : ∀ ready pteFound, a.act ≠ .ktask ready pteFound :=
      fun ready pteFound h => hact ⟨ready, pteFound, h⟩
    have hfin : finished s a.act = 0 := by
      unfold finished
      split
      · rename_i h
        exact absurd h (hact _ _)
      · rfl
    rw [hfin, List.drop_zero]
    obtain hsame | ⟨x, ha, hc, hst, hqueue⟩ := (enter_entry hr).queue hact
    · exact ⟨s.tList, [], by rw [hsame, List.append_nil], forall₂_sameTask _,
        fun τ hτ => absurd hτ (by simp)⟩
    · refine ⟨s.tList, [taskFor s .pageIn x], hqueue, forall₂_sameTask _, fun τ hτ => ?_⟩
      rw [List.mem_singleton.1 hτ]
      exact ⟨ha, hc, rfl, s', next, hr, hst, hqueue⟩

/-- **The queue after a step**: the tasklets that are not completed, and then new ones; a new
`page_in` is one for which the environment of the processor went to sleep. -/
theorem kernelStep_queue {s t : Kernel} {a : Label} (h : kernelStep s a t) :
    ∃ kept new, t.tList = kept ++ new ∧
      List.Forall₂ SameTask (s.tList.drop (finished s a.act)) kept ∧
        ∀ τ ∈ new, τ.fptr = .pageIn → SleptFor (s, a) τ := by
  obtain ⟨-, hexec⟩ := h
  unfold kernelExec at hexec
  obtain ⟨⟨s', next⟩, henter, hproceed⟩ := bind_eq_ok.1 hexec
  obtain ⟨kept, new, hs', hkept, hnew⟩ := enter_queue henter
  have houts : OutsQueued s' t := by
    refine (OutsQueued.schedStable a.cpu s').proceed ⟨[], (List.append_nil _).symm, ?_⟩ ?_ hproceed
    · intro τ hτ
      exact absurd hτ (by simp)
    · rintro e rfl
      exact enter_run henter
  obtain ⟨outs, ht, houts⟩ := houts
  refine ⟨kept, new ++ outs, ?_, hkept, fun τ hτ hf => ?_⟩
  · rw [ht, hs', List.append_assoc]
  · rcases List.mem_append.1 hτ with hτ | hτ
    · exact hnew τ hτ
    · exact absurd ((houts τ hτ).symm.trans hf) (by simp)

/-- The tasklets that are not completed keep their addresses. -/
theorem forall₂_kept {steps : List (Kernel × Label)} {old kept : List Tasklet} {jobs : List Job}
    (hkept : List.Forall₂ SameTask old kept) (hjobs : List.Forall₂ (JobOf steps) old jobs) :
    List.Forall₂ (JobOf steps) kept jobs := by
  induction hkept generalizing jobs with
  | nil => exact hjobs
  | cons hs _ ih =>
      cases hjobs with
      | cons hj hjobs => exact List.Forall₂.cons (hj.congr hs) (ih hjobs)

/-- The new tasklets get the addresses of the step. -/
theorem forall₂_new {steps : List (Kernel × Label)} {p : Kernel × Label} (hp : p ∈ steps)
    {new : List Tasklet} (hnew : ∀ τ ∈ new, τ.fptr = .pageIn → SleptFor p τ) :
    ∀ {vas : List (BitVec 32)}, new.length = vas.length → (∀ va ∈ vas, va < uTop) →
      List.Forall₂ (JobOf steps) new (vas.map fun va => ⟨va, p⟩) := by
  induction new with
  | nil =>
      intro vas hlen _
      obtain rfl := List.length_eq_zero_iff.1 hlen.symm
      exact List.Forall₂.nil
  | cons τ new ih =>
      intro vas hlen hvas
      cases vas with
      | nil => exact absurd hlen (by simp)
      | cons va vas =>
          refine List.Forall₂.cons ⟨hvas va List.mem_cons_self, hp, hnew τ List.mem_cons_self⟩ ?_
          exact ih (fun σ hσ => hnew σ (List.mem_cons_of_mem _ hσ)) (Nat.succ.inj hlen)
            fun w hw => hvas w (List.mem_cons_of_mem _ hw)

/-- **One step** keeps tasklets and addresses together. -/
theorem jobStep_jobs {steps : List (Kernel × Label)} {s t : TaskKernel} {a : TaskLabel}
    (h : List.Forall₂ (JobOf steps) s.kern.tList s.jobs) (hsp : SparesTasks s a)
    (hstep : jobStep s a t) :
    List.Forall₂ (JobOf (steps ++ [(s.kern, a.base)])) t.kern.tList t.jobs := by
  obtain ⟨hkern, hqueue, hlen⟩ := hstep
  obtain ⟨kept, new, htask, hkept, hnew⟩ := kernelStep_queue hkern
  have hold : List.Forall₂ (JobOf steps) kept (s.jobs.drop (finished s.kern a.base.act)) :=
    forall₂_kept hkept (List.forall₂_drop _ h)
  have hcount : new.length = a.faultAddrs.length := by
    rw [hqueue, htask] at hlen
    simp only [TaskKernel.queue, List.length_append, List.length_map] at hlen
    have := hold.length_eq
    omega
  rw [htask, hqueue]
  refine List.rel_append ?_ ?_
  · exact hold.imp fun τ j hj => hj.mono (List.subset_append_left _ _)
  · exact forall₂_new (List.mem_append_right _ List.mem_cons_self) hnew hcount hsp.2

/-! ### Whole runs -/

/-- The steps of the kernel in a run. -/
def kernelSteps (tr : List (TaskKernel × TaskLabel)) : List (Kernel × Label) :=
  tr.map fun p => (p.1.kern, p.2.base)

/-- **The tasklets touch only the environments that queued them** after the steps `tr`. -/
structure TouchesOwners (tr : List (TaskKernel × TaskLabel)) (s : TaskKernel) : Prop where
  /-- `requestor_env` is not free and has the id it had when the tasklet was queued. -/
  owner : ∀ τ ∈ s.kern.tList, s.kern.status τ.requestorEnv ≠ .free ∧
    (s.kern.envs τ.requestorEnv).envId = τ.queuedId
  /-- A round finds the environment that it makes runnable. -/
  returns : ∀ ready, ∃ t, ktaskRound s.kern ready true = Except.ok t
  /-- No page directory is missing. -/
  directory : ∀ τ ∈ s.kern.tList, ∀ m va, ∃ k, walkEntry s.kern m τ.requestorEnv va = Except.ok k
  /-- A round rewrites an entry of the environment of the tasklet that it completes, and entries
  that record the same sectors. -/
  entries : ∀ j js, s.jobs = j :: js → ∀ m slot pi found ptes,
    ktaskEntries s.kern m j.faultAddr slot pi found = Except.ok ptes → ∀ k, ptes k ≠ m.ptes k →
      ∃ τ rest k₀, s.kern.tList = τ :: rest ∧ nSectors ≤ τ.count ∧
        k₀.env = some τ.requestorEnv ∧ (k = k₀ ∨ SharesSlot m k₀ k)
  /-- A round changes the status of the environment that went to sleep for the tasklet. -/
  status : ∀ ready pteFound t, ktaskRound s.kern ready pteFound = Except.ok t →
    ∀ x, t.status x ≠ s.kern.status x → ∃ τ rest j js, s.kern.tList = τ :: rest ∧ s.jobs = j :: js ∧
      nSectors ≤ τ.count ∧ x = τ.requestorEnv ∧ j.queuedBy ∈ kernelSteps tr ∧ SleptFor j.queuedBy τ

/-- A round that completes `page_out` or goes on with a tasklet changes no status. -/
theorem status_ktaskRound {s t : Kernel} {ready pteFound : Bool}
    (h : ktaskRound s ready pteFound = Except.ok t) {x : ℕ} (hx : t.status x ≠ s.status x) :
    ∃ τ rest, s.tList = τ :: rest ∧ nSectors ≤ τ.count ∧ τ.fptr = .pageIn ∧ x = τ.requestorEnv := by
  obtain ⟨-, rfl⟩ | ⟨τ, rest, hτ, ⟨-, rfl⟩ | ⟨-, -, rfl⟩ | ⟨hn, hf, s₁, hdone, rfl⟩⟩ :=
    ktaskRound_cases h
  · exact absurd rfl hx
  · exact absurd rfl hx
  · exact absurd rfl hx
  · obtain ⟨-, -, rfl⟩ := pageInDone_ok hdone
    refine ⟨τ, rest, hτ, hn, hf, by_contra fun hne => hx ?_⟩
    exact (Kernel.status_setStatus s x τ.requestorEnv .runnable).trans (if_neg hne)

theorem TouchesOwners.of_jobs {tr : List (TaskKernel × TaskLabel)} {s : TaskKernel}
    (hown : OwnInv s.kern) (hjobs : List.Forall₂ (JobOf (kernelSteps tr)) s.kern.tList s.jobs) :
    TouchesOwners tr s where
  owner := hown
  returns := hown.round
  directory τ hτ m va := walkEntry_ok (hown τ hτ).1 m va
  entries j js hj m slot pi found ptes h k hk := by
    obtain ⟨τ, rest, k₀, hτ, hn, hwalk, hkk⟩ := ktaskEntries_changed h hk
    rw [hτ, hj] at hjobs
    cases hjobs with
    | cons hjob _ => exact ⟨τ, rest, k₀, hτ, hn, walkEntry_env hjob.addr hwalk, hkk⟩
  status ready pteFound t h x hx := by
    obtain ⟨τ, rest, hτ, hn, hf, rfl⟩ := status_ktaskRound h hx
    rw [hτ] at hjobs
    cases hj : s.jobs with
    | nil =>
        rw [hj] at hjobs
        exact absurd hjobs.length_eq (by simp)
    | cons j js =>
        rw [hj] at hjobs
        cases hjobs with
        | cons hjob _ => exact ⟨τ, rest, j, js, hτ, rfl, hn, rfl, hjob.step, hjob.slept hf⟩

/-- The tasklets and their addresses along a run. -/
theorem run_jobs {s₀ : Kernel} {s : TaskKernel} {tr : List (TaskKernel × TaskLabel)}
    (hnil : s₀.tList = []) (hrun : Run jobStep ⟨s₀, []⟩ tr s) (hsp : Meets SparesTasks tr) :
    List.Forall₂ (JobOf (kernelSteps tr)) s.kern.tList s.jobs := by
  induction hrun with
  | nil =>
      dsimp only
      rw [hnil]
      exact List.Forall₂.nil
  | snoc _ hst ih =>
      obtain ⟨hsp, hlast⟩ := hsp.of_snoc
      have hjobs := jobStep_jobs (ih hsp) hlast hst
      rwa [kernelSteps, List.map_append]

/-- Any step can be taken with any address. -/
theorem exists_jobStep {s t : Kernel} {jobs : List Job} {a : Label} (va : BitVec 32)
    (hlen : jobs.length = s.tList.length) (h : kernelStep s a t) :
    ∃ n jobs', jobStep ⟨s, jobs⟩ ⟨a, List.replicate n va⟩ ⟨t, jobs'⟩ := by
  obtain ⟨kept, new, htask, hkept, -⟩ := kernelStep_queue h
  refine ⟨new.length, _, h, rfl, ?_⟩
  have hcount := hkept.length_eq
  rw [List.length_drop] at hcount
  simp only [List.length_append, List.length_drop, List.length_map, List.length_replicate, htask]
  omega

/-- **Every run of the kernel** is a run with addresses, for any choice of an address. -/
theorem exists_jobRun {s₀ s : Kernel} {tr : List (Kernel × Label)} (va : BitVec 32)
    (hnil : s₀.tList = []) (hrun : Run kernelStep s₀ tr s) :
    ∃ tr' jobs, Run jobStep ⟨s₀, []⟩ tr' ⟨s, jobs⟩ ∧ jobs.length = s.tList.length ∧
      kernelSteps tr' = tr ∧ ∀ p ∈ tr', ∀ w ∈ p.2.faultAddrs, w = va := by
  induction hrun with
  | nil => exact ⟨[], [], Run.nil _, by rw [hnil]; rfl, rfl, fun p hp => absurd hp (by simp)⟩
  | snoc _ hst ih =>
      obtain ⟨tr', jobs, hrun, hlen, htr, hva⟩ := ih
      obtain ⟨n, jobs', hstep⟩ := exists_jobStep va hlen hst
      refine ⟨_, jobs', hrun.snoc hstep, hstep.2.2, ?_, fun p hp w hw => ?_⟩
      · rw [kernelSteps, List.map_append, ← htr]
        rfl
      · rcases List.mem_append.1 hp with hp | hp
        · exact hva p hp w hw
        · rw [List.mem_singleton.1 hp] at hw
          exact List.eq_of_mem_replicate hw

/-- A run that spares the environments of the tasklets, with an address below `UTOP`. -/
theorem exists_sparedRun {s₀ s : Kernel} {tr : List (Kernel × Label)} {va : BitVec 32}
    (hva : va < uTop) (hnil : s₀.tList = []) (hrun : Run kernelStep s₀ tr s)
    (hsp : Meets Spares tr) :
    ∃ tr' jobs, Run jobStep ⟨s₀, []⟩ tr' ⟨s, jobs⟩ ∧ Meets SparesTasks tr' := by
  obtain ⟨tr', jobs, hrun', -, htr, hall⟩ := exists_jobRun va hnil hrun
  refine ⟨tr', jobs, hrun', fun p hp => ⟨hsp (p.1.kern, p.2.base) ?_, fun w hw => ?_⟩⟩
  · rw [← htr]
    exact List.mem_map.2 ⟨p, hp, rfl⟩
  · rw [hall p hp w hw]
    exact hva

/-- **A tasklet touches only the environment that queued it**, in runs of steps that spare the
environments of the tasklets. -/
theorem tasklet_owner_kept {types : List EnvType} {s₀ : Kernel} {s : TaskKernel}
    {tr : List (TaskKernel × TaskLabel)} (hboot : Kernel.boot types = Except.ok s₀)
    (hrun : Run jobStep ⟨s₀, []⟩ tr s) (hsp : Meets SparesTasks tr) : TouchesOwners tr s := by
  have h₀ : OwnInv s₀ := by
    intro τ hτ
    rw [boot_tList hboot] at hτ
    exact absurd hτ (by simp)
  have hstep : ∀ (s : TaskKernel) (a : TaskLabel) (t : TaskKernel), OwnInv s.kern →
      SparesTasks s a → jobStep s a t → OwnInv t.kern :=
    fun _ _ _ h hsp hst => h.step hsp.1 hst.1
  have hown : OwnInv s.kern := hrun.invariant hstep h₀ hsp
  exact TouchesOwners.of_jobs hown (run_jobs (boot_tList hboot) hrun hsp)

/-- The first environment touches a page that is on the disk, the second one is destroyed, and the
kernel threads read the page. -/
def firstReads : List Label :=
  [.at 0 .sched 1, .at 0 .pop 1, .at 0 .trap 1, .at 0 (.dispatch (.pageFault .swapped)) 1,
   .at 0 .tail 1, .at 0 .pop 1, .at 0 .trap 1, .at 0 (.dispatch (.syscall (.envDestroy 0))) 1,
   .at 0 .pop 1, .at 0 .trap 1, .at 0 (.dispatch .timer) 5000000] ++
  (List.replicate nSectors [.at 0 .pop 5000000, .at 0 (.ktask true true) 7000000]).flatten

theorem tasklet_owner_kept_first : ∃ s₀ s tr, Kernel.boot [.user, .user, .user] = Except.ok s₀ ∧
    Run jobStep ⟨s₀, []⟩ tr s ∧ Meets SparesTasks tr ∧
      s.kern.tList = [⟨.pageIn, nSectors, 2, 0x1002⟩] ∧ s.kern.status 3 = .free ∧
        TouchesOwners tr s := by
  have hview : guardedRun Spares [.user, .user, .user] firstReads (fun s => (s.tList, s.status 3)) =
      some ([⟨.pageIn, nSectors, 2, 0x1002⟩], .free) := by decide +kernel
  obtain ⟨s₀, s, tr, hboot, hrun, hsp, hs⟩ := run_of_guardedRun hview
  obtain ⟨htask, hst⟩ := Prod.mk.inj hs
  have hva : 0x00800000#32 < uTop := by decide
  obtain ⟨tr', jobs, hrun', hsp'⟩ := exists_sparedRun hva (boot_tList hboot) hrun hsp
  exact ⟨s₀, _, tr', hboot, hrun', hsp', htask, hst, tasklet_owner_kept hboot hrun' hsp'⟩

/-- A child touches a page that is on the disk, its parent destroys it, and a kernel thread reads
the page. -/
def childDestroyed : List Label :=
  [.at 0 .sched 1, .at 0 .pop 1, .at 0 .trap 1, .at 0 (.dispatch (.syscall (.fork .ok))) 2,
   .at 0 .pop 2, .at 0 .trap 2, .at 0 (.dispatch (.pageFault .swapped)) 2, .at 0 .tail 2,
   .at 0 .pop 2, .at 0 .trap 2, .at 0 (.dispatch (.syscall (.envDestroy 0x1003))) 2, .at 0 .tail 2,
   .at 0 .pop 2, .at 0 .trap 2, .at 0 (.dispatch .timer) 5000000] ++
  (List.replicate nSectors [.at 0 .pop 5000000, .at 0 (.ktask true true) 7000000]).flatten

/-- **The environment of a tasklet is lost**: the page of the child has been read, and the child is
gone. -/
theorem tasklet_owner_lost :
    ¬ ∀ (types : List EnvType) (s₀ s : Kernel) (tr : List (Kernel × Label)),
    Kernel.boot types = Except.ok s₀ → Run kernelStep s₀ tr s →
      ∀ τ rest, s.tList = τ :: rest → nSectors ≤ τ.count →
        s.status τ.requestorEnv ≠ .free ∧ (s.envs τ.requestorEnv).envId = τ.queuedId := by
  intro h
  have hview : bootRun [.user] childDestroyed (fun s => (s.tList, s.status 3)) =
      some ([⟨.pageIn, 8, 3, 0x1003⟩], .free) := by decide +kernel
  obtain ⟨s₀, s, tr, hboot, hrun, -, hs⟩ := run_of_bootRun hview
  obtain ⟨htask, hst⟩ := Prod.mk.inj hs
  exact (h _ s₀ s tr hboot hrun _ _ htask (by decide)).1 hst

end Jos
