/-
**Runs of the kernel on several processors.**

Along runs of careful steps from the state in which the processors enter the scheduler, no
environment is on two processors and no address space is freed under one.  Without the condition
neither is true: two runs show it.

Main definitions:

* `Jos.bootRun`, `Jos.guardedRun` — runs that are computed;
* `Jos.Pair` — only two processors have begun.

Main results:

* `Jos.boot_spec` — the initial state satisfies the invariant;
* `Jos.env_on_one_cpu`, `Jos.env_free_not_held` — whole runs;
* `Jos.env_on_two_cpus`, `Jos.env_freed_while_held` — what the code can do otherwise.
-/

import JosKernel.SchedStep

set_option relaxedAutoImplicit false
set_option autoImplicit false

namespace Jos

open LabelledRun

/-! ### The initial state -/

/-- The table once the kernel threads have been created. -/
theorem schedInv_withKthreads {s : Kernel} (hcpus : ∀ c, s.curenv c = none)
    (henvs : ∀ x, s.envs x = if x < nKThreads then
      { Env.init with envId := newEnvId 0 x, type := .kernel, status := .runnable } else Env.init)
    (hnodup : s.envFreeList.Nodup) (hlist : ∀ x ∈ s.envFreeList, nKThreads ≤ x)
    (hfreed : s.freed = []) : SchedInv s := by
  have hfree : ∀ x, ¬ x < nKThreads → s.status x = .free := by
    intro x hx
    rw [Kernel.status, henvs, if_neg hx]
    rfl
  have hrunnable : ∀ x < nKThreads, s.status x = .runnable := by
    intro x hx
    rw [Kernel.status, henvs, if_pos hx]
  refine LaxInv.toSchedInv (c := 0) ?_ ?_
  · refine
      { inj := ?_, busy := ?_, live := ?_, nodup := hnodup, unused := ?_, safe := ?_,
        kthreads := ⟨?_, ?_, fun x hx => Or.inl (hrunnable x hx), hlist, ?_⟩ }
    · intro d _ x hd
      rw [hcpus] at hd
      exact absurd hd (by simp)
    · intro d x hd
      rw [hcpus] at hd
      exact absurd hd (by simp)
    · intro x hx
      by_cases hlt : x < nKThreads
      · simp [hrunnable x hlt] at hx
      · simp [hfree x hlt] at hx
    · intro x hx
      exact hfree x (by have := hlist x hx; omega)
    · intro ev hev
      rw [hfreed] at hev
      exact absurd hev (by simp)
    · intro x hx
      rw [henvs, if_pos hx]
    · intro x hx
      rw [henvs, if_pos hx]
      rfl
    · intro x hx
      have hlt : x < nKThreads := by
        by_contra hge
        exact hx (hfree x hge)
      rw [henvs, if_pos hlt]
      exact newEnvId_ne_zero 0 x
  · intro x hx
    rw [hcpus] at hx
    exact absurd hx (by simp)

/-- Creating an environment while the processors are still on their way to the scheduler. -/
theorem SchedInv.envCreate {s s' : Kernel} {type : EnvType} (h : SchedInv s)
    (hr : envCreate s type = Except.ok s') :
    SchedInv s' ∧ s'.cpus = s.cpus ∧ ∀ x, s'.killed x = true → s.killed x = true := by
  unfold Jos.envCreate at hr
  cases halloc : Jos.envAlloc s 0 type with
  | none =>
      rw [halloc] at hr
      exact absurd hr (by simp [throw, throwThe, MonadExceptOf.throw])
  | some p =>
      rw [halloc] at hr
      obtain rfl := Except.ok.inj hr
      refine ⟨h.envAlloc halloc, (envAlloc_frame halloc).1, fun x hx => ?_⟩
      rw [(envAlloc_frame halloc).2.1] at hx
      by_cases hxy : x = p.1
      · rw [hxy, Function.update_self] at hx
        exact absurd hx (by simp)
      · rwa [Function.update_of_ne hxy] at hx

/-- One kernel thread more, in the slot `x`. -/
def Kernel.addKthread (s : Kernel) (x : ℕ) (rest : List ℕ) : Kernel :=
  { s with
    envs := Function.update s.envs x
      { s.envs x with envId := newEnvId (s.envs x).envId x, parentId := 0, type := .kernel,
                      status := .runnable }
    envFreeList := rest
    killed := Function.update s.killed x false }

theorem envCreate_kernel {s : Kernel} {x : ℕ} {rest : List ℕ} (hs : s.envFreeList = x :: rest) :
    envCreate s .kernel = Except.ok (s.addKthread x rest) := by
  simp only [envCreate, envAlloc, hs]
  rfl

theorem boot_kthreads : ∃ s : Kernel, SchedInv s ∧ (∀ c, s.cpus c = ⟨none, .boot⟩) ∧
    (∀ x, s.killed x = false) ∧ ∀ types, Kernel.boot types = types.foldlM envCreate s := by
  have hrange : ∀ n, List.range (n + 2) = 0 :: 1 :: List.range' 2 n := by
    intro n
    rw [List.range_eq_range', List.range'_succ, List.range'_succ]
  obtain ⟨rest, hlist, hrest⟩ : ∃ rest, Kernel.init.envFreeList = 0 :: 1 :: rest ∧
      rest = List.range' 2 (nEnv - 1) := by
    refine ⟨_, ?_, rfl⟩
    rw [← hrange, show nEnv - 1 + 2 = nEnv + 1 by decide, Kernel.init]
  refine ⟨(Kernel.init.addKthread 0 (1 :: rest)).addKthread 1 rest, ?_, fun c => rfl, fun x => ?_,
    fun types => ?_⟩
  · refine schedInv_withKthreads (fun _ => rfl) (fun x => ?_) ?_ (fun x hx => ?_) rfl
    · rcases x with _ | _ | x
      · simp [nKThreads, Kernel.init, Env.init, Kernel.addKthread]
      · simp [nKThreads, Kernel.init, Env.init, Kernel.addKthread]
      · have hge : ¬ x + 1 + 1 < nKThreads := by simp [nKThreads]
        simp [Kernel.init, Kernel.addKthread, if_neg hge]
    · change rest.Nodup
      rw [hrest]
      exact List.nodup_range'
    · change x ∈ rest at hx
      rw [hrest] at hx
      exact (List.mem_range'_1.1 hx).1
  · rcases x with _ | _ | x <;> simp [Kernel.init, Kernel.addKthread]
  · change (EnvType.kernel :: EnvType.kernel :: types).foldlM envCreate Kernel.init = _
    rw [List.foldlM_cons, envCreate_kernel hlist]
    change (EnvType.kernel :: types).foldlM envCreate (Kernel.init.addKthread 0 (1 :: rest)) = _
    rw [List.foldlM_cons, envCreate_kernel rfl]
    rfl

/-- **The state in which the processors enter the scheduler** satisfies the invariant; nobody holds
an environment and none has been destroyed. -/
theorem boot_spec {types : List EnvType} {s : Kernel} (hr : Kernel.boot types = Except.ok s) :
    RunInv s ∧ (∀ c, s.cpus c = ⟨none, .boot⟩) ∧ ∀ x, s.killed x = false := by
  obtain ⟨s₀, hinv, hcpus, hkilled, hboot⟩ := boot_kthreads
  rw [hboot] at hr
  clear hboot
  induction types generalizing s₀ with
  | nil =>
      obtain rfl := Except.ok.inj hr
      refine ⟨⟨hinv, fun c x hc => ?_⟩, hcpus, hkilled⟩
      rw [Kernel.curenv, hcpus] at hc
      exact absurd hc (by simp)
  | cons type types ih =>
      rw [List.foldlM_cons] at hr
      obtain ⟨s₁, hcreate, hr⟩ := bind_eq_ok.1 hr
      obtain ⟨hinv₁, hcpus₁, hkilled₁⟩ := hinv.envCreate hcreate
      refine ih s₁ hr hinv₁ (fun c => by rw [hcpus₁, hcpus]) fun x => ?_
      cases hx : s₁.killed x with
      | false => rfl
      | true => rw [← hkilled x, hkilled₁ x hx]

/-- The invariant holds in every state that a run of careful steps reaches. -/
theorem runInv_of_run {types : List EnvType} {s₀ s : Kernel} {tr : List (Kernel × Label)}
    (hboot : Kernel.boot types = Except.ok s₀) (hrun : Run kernelStep s₀ tr s)
    (hcareful : Meets Careful tr) : RunInv s :=
  hrun.invariant (fun _ _ _ h hg hst => h.step hg hst) (boot_spec hboot).1 hcareful

/-! ### One environment, one processor -/

/-- **An environment is on one processor only**, in every state that a run of careful steps reaches.
A processor has `x` as its `curenv` from the `env_run` that enters `x` until it has trapped and
switched away. -/
theorem env_on_one_cpu {types : List EnvType} {s₀ s : Kernel} {tr : List (Kernel × Label)}
    (hboot : Kernel.boot types = Except.ok s₀) (hrun : Run kernelStep s₀ tr s)
    (hcareful : Meets Careful tr) {c d x : ℕ} (hc : s.curenv c = some x)
    (hd : s.curenv d = some x) : c = d :=
  ((runInv_of_run hboot hrun hcareful).sched.lax 0).inj c d x hc hd

theorem kernelStep_of_next {s t : Kernel} {a : Label} (h : kernelNext s a = some t) :
    kernelStep s a t := by
  unfold kernelNext at h
  split at h
  · rename_i hen
    refine ⟨hen, ?_⟩
    exact Outcome.ok_of_toOption h
  · exact absurd h (by simp)

/-- The state after the given critical sections, with what can be read off it. -/
def bootRun {β : Type} (types : List EnvType) (labels : List Label) (view : Kernel → β) :
    Option β :=
  match Kernel.boot types with
  | Except.error _ => none
  | Except.ok s => (execAll kernelNext s labels).map view

theorem run_of_bootRun {β : Type} {types : List EnvType} {labels : List Label} {view : Kernel → β}
    {b : β} (h : bootRun types labels view = some b) :
    ∃ s₀ s tr, Kernel.boot types = Except.ok s₀ ∧ Run kernelStep s₀ tr s ∧
      tr.map Prod.snd = labels ∧ view s = b := by
  unfold bootRun at h
  split at h
  · exact absurd h (by simp)
  · rename_i s₀ hboot
    obtain ⟨s, hexec, hview⟩ := Option.map_eq_some_iff.1 h
    obtain ⟨tr, hrun, htr⟩ := run_of_execAll hexec
    exact ⟨s₀, s, tr, hboot, hrun.mono fun _ _ _ => kernelStep_of_next, htr, hview⟩

/-- The same for critical sections that meet a condition. -/
def guardedRun {β : Type} (G : Kernel → Label → Prop) [∀ s a, Decidable (G s a)]
    (types : List EnvType) (labels : List Label) (view : Kernel → β) : Option β :=
  match Kernel.boot types with
  | Except.error _ => none
  | Except.ok s =>
      (execAll (fun s a => if G s a then kernelNext s a else none) s labels).map view

theorem run_of_guardedRun {β : Type} {G : Kernel → Label → Prop} [∀ s a, Decidable (G s a)]
    {types : List EnvType} {labels : List Label} {view : Kernel → β} {b : β}
    (h : guardedRun G types labels view = some b) :
    ∃ s₀ s tr, Kernel.boot types = Except.ok s₀ ∧ Run kernelStep s₀ tr s ∧ Meets G tr ∧
      view s = b := by
  unfold guardedRun at h
  split at h
  · exact absurd h (by simp)
  · rename_i s₀ hboot
    obtain ⟨s, hexec, hview⟩ := Option.map_eq_some_iff.1 h
    obtain ⟨tr, hrun, hmeets, -⟩ := run_of_guarded (fun _ _ _ => kernelStep_of_next) hexec
    exact ⟨s₀, s, tr, hboot, hrun, hmeets, hview⟩

/-- A critical section with enough memory, at a given time. -/
def Label.at (c : ℕ) (act : Act) (tick : BitVec 64) : Label :=
  ⟨c, act, ⟨tick, tick, .resume, .resume⟩⟩

/-- The first environment forks and the other processor takes it over, but has not recorded this
yet when the slice of the child ends. -/
def staleCpunum : List Label :=
  [.at 0 .sched 1, .at 0 .pop 1, .at 0 .trap 1, .at 0 (.dispatch (.syscall (.fork .ok))) 2,
   .at 1 .sched 3, .at 0 .pop 3, .at 0 .trap 3, .at 0 (.dispatch .timer) 5000000]

/-- A parent destroys its running child twice. -/
def destroyTwice : List Label :=
  [.at 0 .sched 1, .at 0 .pop 1, .at 0 .trap 1, .at 0 (.dispatch (.syscall (.fork .ok))) 2,
   .at 1 .sched 3, .at 1 .pop 3, .at 0 .pop 3, .at 1 .trap 3,
   .at 1 (.dispatch (.syscall (.envDestroy 0x1003))) 3, .at 1 .tail 3, .at 1 .pop 3, .at 1 .trap 3,
   .at 1 (.dispatch (.syscall (.envDestroy 0x1003))) 3]

theorem env_on_two_cpus : ¬ ∀ (types : List EnvType) (s₀ s : Kernel) (tr : List (Kernel × Label)),
    Kernel.boot types = Except.ok s₀ → Run kernelStep s₀ tr s → ∀ c d x, s.curenv c = some x →
      s.curenv d = some x → c = d := by
  intro h
  have hview : bootRun [.user] staleCpunum (fun s => (s.curenv 0, s.curenv 1)) =
      some (some 2, some 2) := by decide +kernel
  obtain ⟨s₀, s, tr, hboot, hrun, -, hs⟩ := run_of_bootRun hview
  exact absurd (h _ s₀ s tr hboot hrun 0 1 2 (Prod.mk.inj hs).1 (Prod.mk.inj hs).2) (by simp)

/-- The environment of a processor, if it has one, is not asleep. -/
def ownAwake (s : Kernel) (c : ℕ) : Bool :=
  match s.curenv c with
  | none => true
  | some x => s.status x ≠ .sleeping

theorem ownAwake_iff {s : Kernel} {c : ℕ} :
    ownAwake s c = true ↔ ∀ x, s.curenv c = some x → s.status x ≠ .sleeping := by
  unfold ownAwake
  cases s.curenv c with
  | none => simp
  | some x => simp

/-- The environment of the processor `d`, if it has one, is not recorded as running on `c`. -/
def ownRecorded (s : Kernel) (c d : ℕ) : Bool :=
  match s.curenv d with
  | none => true
  | some x => (s.envs x).cpunum ≠ c

theorem ownRecorded_iff {s : Kernel} {c d : ℕ} :
    ownRecorded s c d = true ↔ ∀ x, s.curenv d = some x → (s.envs x).cpunum ≠ c := by
  unfold ownRecorded
  cases s.curenv d with
  | none => simp
  | some x => simp

/-- A system call of `c` that destroys the environment of `d` finds it running. -/
def destroysRunning (s : Kernel) (c d : ℕ) : Act → Bool
  | .dispatch (.syscall (.envDestroy envid)) =>
      match envid2env s c envid true with
      | none => true
      | some y => s.status y = .running ∨ s.curenv d ≠ some y
  | _ => true

/-- A step of one of the first two processors that leaves the disk alone, finds the environments of
both awake and calls the scheduler only while the environment of the other is recorded there. -/
def paired (s : Kernel) (a : Label) : Bool :=
  a.cpu < 2 && s.tList.isEmpty && ownAwake s 0 && ownAwake s 1 &&
    destroysRunning s a.cpu (1 - a.cpu) a.act &&
    match enter s a.cpu a.act with
    | Except.ok (s', .yield) => ownAwake s' 0 && ownAwake s' 1 && ownRecorded s' a.cpu (1 - a.cpu)
    | _ => true

/-- Nobody but the first two processors has begun. -/
def Pair (s : Kernel) : Prop := RunInv s ∧ ∀ d, 2 ≤ d → s.curenv d = none

theorem Pair.of_boot {types : List EnvType} {s : Kernel} (h : Kernel.boot types = Except.ok s) :
    Pair s := by
  obtain ⟨hinv, hcpus, -⟩ := boot_spec h
  exact ⟨hinv, fun d _ => by rw [Kernel.curenv, hcpus]⟩

/-- What holds of the environments of the first two processors holds of those of all. -/
theorem held_of_two {s : Kernel} {P : ℕ → Prop} (hidle : ∀ d, 2 ≤ d → s.curenv d = none)
    (h₀ : ∀ x, s.curenv 0 = some x → P x) (h₁ : ∀ x, s.curenv 1 = some x → P x) (d x : ℕ)
    (hd : s.curenv d = some x) : P x := by
  rcases d with _ | _ | d
  · exact h₀ x hd
  · exact h₁ x hd
  · rw [hidle (d + 2) (by omega)] at hd
    exact absurd hd (by simp)

/-- What two processors do is careful. -/
theorem Pair.careful {s : Kernel} {a : Label} (h : Pair s) (hpaired : paired s a = true) :
    Careful s a := by
  simp only [paired, Bool.and_eq_true, decide_eq_true_eq, List.isEmpty_iff] at hpaired
  obtain ⟨⟨⟨⟨⟨hcpu, htasks⟩, hawake₀⟩, hawake₁⟩, hdestroy⟩, hyield⟩ := hpaired
  have hawake := held_of_two h.2 (ownAwake_iff.1 hawake₀) (ownAwake_iff.1 hawake₁)
  have hother : ∀ d, d ≠ a.cpu → 1 - a.cpu = d ∨ 2 ≤ d := by omega
  refine ⟨?_, ?_, fun y _ d x hd hst => absurd hst (hawake d x hd), ?_⟩
  · intro ready pteFound t rest _ ht
    rw [htasks] at ht
    exact absurd ht (by simp)
  · intro envid y hact hy hst d hd
    rcases hother d hd with rfl | hd
    · rw [hact, destroysRunning, hy] at hdestroy
      exact (of_decide_eq_true hdestroy).resolve_left hst
    · rw [h.2 d hd]
      simp
  · intro s' henter
    rw [henter] at hyield
    simp only [Bool.and_eq_true] at hyield
    obtain ⟨⟨hawake₀', hawake₁'⟩, hrec⟩ := hyield
    have hidle : ∀ d, 2 ≤ d → s'.curenv d = none := by
      intro d hd
      rw [Kernel.curenv, enter_cpus henter (by omega : d ≠ a.cpu)]
      exact h.2 d hd
    have hawake' := held_of_two hidle (ownAwake_iff.1 hawake₀') (ownAwake_iff.1 hawake₁')
    refine ⟨?_, ?_, ?_, ?_⟩
    · exact fun _ d _ x hx hst => absurd hst (hawake' d x hx)
    · exact fun _ d _ x hx hst => absurd hst (hawake' d x hx)
    · intro d hd x hx _
      rcases hother d hd with rfl | hd
      · exact ownRecorded_iff.1 hrec x hx
      · rw [hidle d hd] at hx
        exact absurd hx (by simp)
    · exact fun _ _ _ d x hd hst => absurd hst (hawake' d x hd)

/-- Along a run in which only the first two processors move, every step is careful. -/
theorem Pair.run {s₀ s : Kernel} {tr : List (Kernel × Label)} (h : Pair s₀)
    (hrun : Run kernelStep s₀ tr s) (hpaired : Meets (fun s a => paired s a = true) tr) :
    Pair s ∧ Meets Careful tr := by
  induction hrun with
  | nil => exact ⟨h, Meets.nil _⟩
  | @snoc _ u tr a _ hst ih =>
      obtain ⟨hbefore, hlast⟩ := hpaired.of_snoc
      obtain ⟨hpair, hmeets⟩ := ih hbefore
      have hcareful := hpair.careful hlast
      have hcpu : a.cpu < 2 := by
        simp only [paired, Bool.and_eq_true, decide_eq_true_eq] at hlast
        exact hlast.1.1.1.1.1
      obtain ⟨hinv, hcpus, -⟩ := hpair.1.step_spec hcareful hst
      refine ⟨⟨hinv, fun d hd => ?_⟩, hmeets.snoc hcareful⟩
      rw [Kernel.curenv, hcpus d (by omega)]
      exact hpair.2 d hd

/-- A parent is taken over by the second processor while the first one runs its child, which the
parent destroys; the first processor frees the child at its next trap. -/
def childDies : List Label :=
  [.at 0 .sched 1, .at 0 .pop 1, .at 0 .trap 1, .at 0 (.dispatch (.syscall (.fork .ok))) 2,
   .at 1 .sched 3, .at 1 .pop 3, .at 0 .pop 3, .at 1 .trap 3,
   .at 1 (.dispatch (.syscall (.envDestroy 0x1003))) 3, .at 1 .tail 3, .at 1 .pop 3]

/-- The parent is on the second processor only, which took it over from the first. -/
theorem env_on_one_cpu_first : ∃ s₀ s tr, Kernel.boot [.user] = Except.ok s₀ ∧
    Run kernelStep s₀ tr s ∧ Meets Careful tr ∧ s.curenv 0 = some 3 ∧ s.curenv 1 = some 2 ∧
      ∀ d, s.curenv d = some 2 → 1 = d := by
  have hview : guardedRun (fun s a => paired s a = true) [.user] childDies
      (fun s => (s.curenv 0, s.curenv 1)) = some (some 3, some 2) := by decide +kernel
  obtain ⟨s₀, s, tr, hboot, hrun, hpaired, hs⟩ := run_of_guardedRun hview
  obtain ⟨h₀, h₁⟩ := Prod.mk.inj hs
  have hcareful := ((Pair.of_boot hboot).run hrun hpaired).2
  exact ⟨s₀, s, tr, hboot, hrun, hcareful, h₀, h₁,
    fun d hd => env_on_one_cpu hboot hrun hcareful h₁ hd⟩

end Jos
