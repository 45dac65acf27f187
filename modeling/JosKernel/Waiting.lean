/-
**`sys_wait` waits.**

An environment that has called `sys_wait` is asleep and remembers the id it waits for; nothing else
says that it waits.  Whether it runs again too early depends on every other place that writes a
status.  One of them does not ask: a processor that finds nothing to run makes the environment it
gives up runnable, also when this has just gone to sleep.  Stale bits of `drc_map` and a stale
`page_in` wake it as well.  `Jos.Parks` says that the call meets none of them; then the environment
stays off the processors until one of the two is freed.

Main definitions:

* `Jos.Kernel.frees` — how often `env_free` was run on a slot;
* `Jos.Parks` — the condition on the call;
* `Jos.Waits` — the environment waits.

Main results:

* `Jos.WaitsUntil.step` — one step;
* `Jos.sys_wait_waits` — whole runs;
* `Jos.sys_wait_returns_early` — a processor that has nothing else to run.
-/

import JosKernel.Wakeups
import JosKernel.Destruction

set_option relaxedAutoImplicit false
set_option autoImplicit false

namespace Jos

open LabelledRun Outcome

/-! ### Counting the calls of `env_free` -/

/-- How often `env_free` was run on a slot. -/
def Kernel.frees (s : Kernel) (x : ℕ) : ℕ := s.freed.countP fun ev => ev.slot = x

theorem frees_envFree (s : Kernel) (c x z : ℕ) :
    (envFree s c x).frees z = s.frees z + if x = z then 1 else 0 := by
  have hfreed : (envFree s c x).freed = ⟨c, x, s.curenv⟩ :: s.freed := rfl
  rw [Kernel.frees, hfreed, List.countP_cons]
  simp [Kernel.frees]

theorem frees_congr {s t : Kernel} (h : t.freed = s.freed) (z : ℕ) : t.frees z = s.frees z := by
  rw [Kernel.frees, h, Kernel.frees]

/-! ### Waiting -/

/-- **The environment `w` waits for `y`**: it sleeps, it has the id of `y`, and no bit and no
`page_in` is pending for it. -/
structure Asleep (w y : ℕ) (s : Kernel) : Prop extends IdsInv s where
  sleeping : s.status w = .sleeping
  target : s.status y ≠ .free ∧ (s.envs w).waitId = (s.envs y).envId
  bit : getBit s.drcMap w = false
  task : ∀ τ ∈ s.tList, τ.fptr = .pageIn → τ.requestorEnv ≠ w

/-- It waits and no processor has it. -/
structure Waits (w y : ℕ) (s : Kernel) : Prop extends Asleep w y s where
  away : ∀ d, s.curenv d ≠ some w

/-- **It waits until one of the two is freed**, whose counts were `m` and `n`. -/
structure WaitsUntil (w y m n : ℕ) (s : Kernel) : Prop where
  waiter : m ≤ s.frees w
  awaited : n ≤ s.frees y
  waits : s.frees w = m → s.frees y = n → Waits w y s

namespace Asleep

variable {w y : ℕ} {s t : Kernel}

/-- What is kept when the entries of the two environments are. -/
theorem congr (h : Asleep w y s) (hids : IdsInv t) (hsleep : t.status w = .sleeping)
    (hlive : t.status y ≠ .free) (hwait : (t.envs w).waitId = (s.envs w).waitId)
    (hid : (t.envs y).envId = (s.envs y).envId) (hbit : getBit t.drcMap w = getBit s.drcMap w)
    (htask : ∀ τ ∈ t.tList, τ.fptr = .pageIn → τ.requestorEnv ≠ w) : Asleep w y t where
  toIdsInv := hids
  sleeping := hsleep
  target := ⟨hlive, by rw [hwait, hid]; exact h.target.2⟩
  bit := hbit.trans h.bit
  task := htask

theorem quiet (h : Asleep w y s) (ht : SameTable s t) : Asleep w y t := by
  refine h.congr (h.toIdsInv.quiet ht) ?_ ?_ (ht.waitId w) (ht.envId y) (by rw [ht.drcMap]) ?_
  · rw [ht.status]
    exact h.sleeping
  · rw [ht.status]
    exact h.target.1
  · rw [ht.tList]
    exact h.task

/-- Another environment changes its status. -/
theorem setStatus (h : Asleep w y s) {x : ℕ} (hx : (s.envs x).envId ≠ 0) (hxw : x ≠ w)
    {st : EnvStatus} (hst : st ≠ .free) : Asleep w y (s.setStatus x st) := by
  refine h.congr (h.toIdsInv.setStatus hx st) ?_ ?_ (WakeInv.envId_setStatus s x st w).2
    (WakeInv.envId_setStatus s x st y).1 rfl h.task
  · rw [Kernel.status_setStatus, if_neg (Ne.symm hxw)]
    exact h.sleeping
  · rw [Kernel.status_setStatus]
    split
    · exact hst
    · exact h.target.1

theorem setCurenv (h : Asleep w y s) (c : ℕ) {o : Option ℕ}
    (ho : ∀ x, o = some x → (s.envs x).envId ≠ 0) : Asleep w y (s.setCurenv c o) :=
  h.congr (h.toIdsInv.setCurenv c ho) h.sleeping h.target.1 rfl rfl rfl h.task

/-- `resume_env` leaves it asleep, since its bit is clear. -/
theorem resumeEnv (h : Asleep w y s) : Asleep w y (resumeEnv s) := by
  have hset := Settled.resumeEnv s
  refine h.congr h.toIdsInv.resumeEnv ?_ ?_ (hset.waitId w) (hset.ids y).2.2 ?_ h.task
  · rcases status_resumeEnv s w with he | ⟨-, hb, -⟩
    · rw [he]
      exact h.sleeping
    · rw [h.bit] at hb
      exact absurd hb (by simp)
  · rcases hset.status y with he | ⟨-, hr⟩
    · rw [he]
      exact h.target.1
    · simp [hr]
  · simp only [Jos.resumeEnv]
    rw [getBit_clearBits, h.bit, Bool.and_false]

theorem reclaimPgs (h : Asleep w y s) (requestors : List ℕ) :
    Asleep w y (reclaimPgs s requestors) := by
  refine h.congr ⟨h.named, h.live, h.held⟩ h.sleeping h.target.1 rfl rfl rfl fun τ hτ hf => ?_
  rcases List.mem_append.1 hτ with hτ | hτ
  · exact h.task τ hτ hf
  · obtain ⟨x, -, rfl⟩ := List.mem_map.1 hτ
    exact absurd hf (by simp [taskFor])

/-- Another environment than the two is freed: ids are different, so it is not the one `w` waits
for. -/
theorem envFree (h : Asleep w y s) {x : ℕ} (hx : (s.envs x).envId ≠ 0) (hxw : x ≠ w) (hxy : x ≠ y)
    (c : ℕ) : Asleep w y (envFree s c x) := by
  obtain ⟨-, hid, hfree⟩ := envFree_slots s c x
  have hne : (s.envs w).waitId ≠ (s.envs x).envId := by
    rw [h.target.2]
    intro heq
    have hy := (h.named y (h.live y h.target.1)).2
    rw [heq, (h.named x hx).2] at hy
    exact hxy hy
  have hkeep : notifyWaiter (s.envs x).envId w (s.envs w) = s.envs w := by
    unfold notifyWaiter
    rw [if_neg fun hcond => hne hcond.2.2]
  refine h.congr (h.toIdsInv.envFree c x) ?_ ?_ ?_ (hid y) rfl h.task
  · rw [status_envFree, if_neg (Ne.symm hxw), hkeep]
    exact h.sleeping
  · intro hf
    rcases (hfree y).1 hf with hyx | hf
    · exact hxy hyx.symm
    · exact h.target.1 hf
  · simp [Jos.envFree, Kernel.setStatus, Kernel.modEnv, Ne.symm hxw, hkeep]

theorem envAlloc (h : Asleep w y s) {parentId : BitVec 32} {type : EnvType} {x : ℕ}
    (hr : envAlloc s parentId type = some (x, t)) (hx : x < nEnv) (hfree : s.status x = .free) :
    Asleep w y t := by
  obtain ⟨-, -, -, hother⟩ := envAlloc_some hr
  obtain ⟨hdrc, htask, -⟩ := envAlloc_rest hr
  have hw : w ≠ x := by
    rintro rfl
    rw [h.sleeping] at hfree
    exact absurd hfree (by simp)
  have hy : y ≠ x := by
    rintro rfl
    exact h.target.1 hfree
  refine h.congr (h.toIdsInv.envAlloc hr hx) ?_ ?_ ?_ ?_ (by rw [hdrc]) ?_
  · rw [Kernel.status, hother w hw]
    exact h.sleeping
  · rw [Kernel.status, hother y hy]
    exact h.target.1
  · rw [hother w hw]
  · rw [hother y hy]
  · rw [htask]
    exact h.task

/-- Somebody else goes to sleep on `drc_map`. -/
theorem sleepOnDrc (h : Asleep w y s) {x : ℕ} (hx : (s.envs x).envId ≠ 0) (hxw : x ≠ w) :
    Asleep w y (sleepOnDrc s x) := by
  have hs : Asleep w y (s.setStatus x .sleeping) := h.setStatus hx hxw (by simp)
  have hslot : envx ((s.setStatus x .sleeping).envs x).envId = x := by
    rw [(WakeInv.envId_setStatus s x .sleeping x).1]
    exact (h.named x hx).2
  refine hs.congr ⟨hs.named, hs.live, hs.held⟩ hs.sleeping hs.target.1 rfl rfl ?_ hs.task
  unfold Jos.sleepOnDrc
  dsimp only
  rw [hslot, getBit_toggleBit_of_ne _ (Ne.symm hxw)]

/-- Somebody else calls `sys_wait`. -/
theorem wait (h : Asleep w y s) {x : ℕ} (hx : (s.envs x).envId ≠ 0) (hxw : x ≠ w)
    (envid : BitVec 32) :
    Asleep w y (s.modEnv x fun e => { e with waitId := envid, status := .sleeping }) := by
  have hst : ∀ z, (s.modEnv x fun e => { e with waitId := envid, status := .sleeping }).status z =
      if z = x then .sleeping else s.status z := fun z => Kernel.status_modEnv s z x _
  have hid :=
    envId_modEnv s x (f := fun e => { e with waitId := envid, status := .sleeping }) fun _ => rfl
  refine h.congr (h.toIdsInv.wait hx envid) ?_ ?_ ?_ (hid y) rfl h.task
  · rw [hst, if_neg (Ne.symm hxw)]
    exact h.sleeping
  · rw [hst]
    split
    · simp
    · exact h.target.1
  · simp [Kernel.modEnv, Ne.symm hxw]

/-- The tasklets change, but none is a `page_in` for it. -/
theorem tasks (h : Asleep w y s) {l : List Tasklet}
    (hl : ∀ τ ∈ l, τ.fptr = .pageIn → τ.requestorEnv ≠ w) : Asleep w y { s with tList := l } :=
  h.congr ⟨h.named, h.live, h.held⟩ h.sleeping h.target.1 rfl rfl rfl hl

end Asleep

/-! ### Waiting while others run -/

namespace WaitsUntil

variable {w y m n : ℕ} {s t : Kernel}

/-- A change that frees nobody. -/
theorem mono (h : WaitsUntil w y m n s) (hfreed : t.freed = s.freed)
    (hwaits : Waits w y s → Waits w y t) : WaitsUntil w y m n t := by
  have hw := frees_congr hfreed w
  have hy := frees_congr hfreed y
  refine ⟨?_, ?_, fun hm hn => hwaits (h.waits (hw.symm.trans hm) (hy.symm.trans hn))⟩
  · rw [hw]
    exact h.waiter
  · rw [hy]
    exact h.awaited

/-- `env_free` on one of the two ends the wait, on another environment it does not. -/
theorem envFree (h : WaitsUntil w y m n s) {x : ℕ} (hx : Waits w y s → (s.envs x).envId ≠ 0)
    (c : ℕ) : WaitsUntil w y m n (envFree s c x) := by
  have hw := frees_envFree s c x w
  have hy := frees_envFree s c x y
  have hm := h.waiter
  have hn := h.awaited
  refine ⟨by omega, by omega, fun hm' hn' => ?_⟩
  have hxw : x ≠ w := by
    intro hxw
    rw [if_pos hxw] at hw
    omega
  have hxy : x ≠ y := by
    intro hxy
    rw [if_pos hxy] at hy
    omega
  rw [if_neg hxw] at hw
  rw [if_neg hxy] at hy
  have hwaits := h.waits (by omega) (by omega)
  exact ⟨hwaits.toAsleep.envFree (hx hwaits) hxw hxy c, hwaits.away⟩

theorem setCurenv (h : WaitsUntil w y m n s) (c : ℕ) {o : Option ℕ}
    (ho : Waits w y s → ∀ x, o = some x → (s.envs x).envId ≠ 0 ∧ x ≠ w) :
    WaitsUntil w y m n (s.setCurenv c o) := by
  refine h.mono rfl fun hw => ⟨hw.toAsleep.setCurenv c fun x hx => (ho hw x hx).1, fun d hd => ?_⟩
  rw [Kernel.curenv_setCurenv] at hd
  split at hd
  · exact (ho hw w hd).2 rfl
  · exact hw.away d hd

theorem quiet (h : WaitsUntil w y m n s) (ht : SameTable s t) : WaitsUntil w y m n t := by
  refine h.mono ht.freed fun hw => ⟨hw.toAsleep.quiet ht, fun d => ?_⟩
  rw [ht.curenv]
  exact hw.away d

/-- An environment on a processor is not the one that waits. -/
theorem ne_of_held {c x : ℕ} (hw : Waits w y s) (hx : s.curenv c = some x) : x ≠ w := by
  rintro rfl
  exact hw.away c hx

theorem schedStable (w y m n c : ℕ) : SchedStable c (WaitsUntil w y m n) where
  quiet _ _ ht h := h.quiet ht
  resume _ h := h.mono rfl fun hw => ⟨hw.toAsleep.resumeEnv, hw.away⟩
  reclaim _ requestors h := h.mono rfl fun hw => ⟨hw.toAsleep.reclaimPgs requestors, hw.away⟩
  release _ x h hx := h.mono rfl fun hw =>
    ⟨hw.toAsleep.setStatus (hw.held c x hx) (ne_of_held hw hx) (by simp), hw.away⟩
  collect _ x h hx _ := h.envFree (fun hw => hw.held c x hx) c
  take s e h he hsleep := by
    have hne : Waits w y s → e ≠ w := by
      rintro hw rfl
      exact hsleep hw.sleeping
    have hcur : WaitsUntil w y m n (s.setCurenv c (some e)) := by
      refine h.setCurenv c fun hw x hx => ?_
      obtain rfl := Option.some_inj.1 hx
      exact ⟨hw.live e he, hne hw⟩
    refine hcur.mono rfl fun hw => ⟨hw.toAsleep.setStatus (hw.live e he) ?_ (by simp), hw.away⟩
    rintro rfl
    exact hsleep hw.sleeping
  drop _ h := h.setCurenv c fun _ x hx => absurd hx (by simp)

theorem entry {s' : Kernel} {a : Label} (h : WaitsUntil w y m n s) (hok : AllocOk s a)
    (he : Entry a.cpu s a.act s') : WaitsUntil w y m n s' := by
  obtain ⟨c, act, inp⟩ := a
  dsimp only at he
  cases he with
  | quiet ht => exact h.quiet ht
  | kill hs hx hc =>
      rename_i s₁ x
      refine (h.quiet hs).mono rfl fun hw => ⟨hw.toAsleep.setStatus ?_ ?_ (by simp), hw.away⟩
      · exact hw.live x (by rw [hs.status, hx]; simp)
      · rintro rfl
        have hsleep := hw.sleeping
        rw [hs.status, hx] at hsleep
        exact absurd hsleep (by simp)
  | free hs hx hc =>
      rename_i s₁ x
      refine (h.quiet hs).envFree (fun hw => ?_) c
      rw [hs.envId]
      exact (hw.toIdsInv.quiet hs.symm).freeTarget hx
  | freeOwn hs hx hc =>
      rename_i s₁ x
      refine ((h.quiet hs).envFree (fun hw => ?_) c).setCurenv c fun _ z hz => absurd hz (by simp)
      exact hw.held c x ((hs.curenv c).trans hc)
  | sleepOnDrc hc ha =>
      exact h.mono rfl
        fun hw => ⟨hw.toAsleep.sleepOnDrc (hw.held c _ hc) (ne_of_held hw hc), hw.away⟩
  | swapIn hc =>
      rename_i x
      refine h.mono rfl fun hw => ?_
      have hs : Asleep w y (s.setStatus x .sleeping) :=
        hw.toAsleep.setStatus (hw.held c x hc) (ne_of_held hw hc) (by simp)
      refine ⟨hs.tasks fun τ hτ hf => ?_, hw.away⟩
      rcases List.mem_append.1 hτ with hτ | hτ
      · exact hw.task τ hτ hf
      · rw [List.mem_singleton.1 hτ]
        exact ne_of_held hw hc
  | wait hc hy =>
      exact h.mono rfl fun hw => ⟨hw.toAsleep.wait (hw.held c _ hc) (ne_of_held hw hc) _, hw.away⟩
  | fork ho hr ht =>
      obtain ⟨hlt, hfree⟩ := hok.slot ho hr
      obtain ⟨-, -, hfreed⟩ := envAlloc_rest hr
      refine (h.mono hfreed fun hw => ⟨hw.toAsleep.envAlloc hr hlt hfree, fun d => ?_⟩).quiet ht
      rw [Kernel.curenv, (envAlloc_frame hr).1]
      exact hw.away d
  | round k hτ =>
      rename_i τ rest
      refine h.mono rfl fun hw => ⟨hw.toAsleep.tasks fun σ hσ hf => ?_, hw.away⟩
      have hin : ∀ ρ ∈ τ :: rest, ρ.fptr = .pageIn → ρ.requestorEnv ≠ w := by
        rw [← hτ]
        exact hw.task
      rcases List.mem_cons.1 hσ with rfl | hσ
      · exact hin τ List.mem_cons_self hf
      · exact hin σ (List.mem_cons_of_mem _ hσ) hf
  | pageOut hτ hf =>
      refine h.mono rfl fun hw => ⟨hw.toAsleep.tasks fun σ hσ => hw.task σ ?_, hw.away⟩
      rw [hτ]
      exact List.mem_cons_of_mem _ hσ
  | pageIn hτ hf hk hx =>
      rename_i τ rest
      refine h.mono rfl fun hw => ?_
      have hne : τ.requestorEnv ≠ w := hw.task τ (by rw [hτ]; exact List.mem_cons_self) hf
      have hs : Asleep w y (s.setStatus τ.requestorEnv .runnable) :=
        hw.toAsleep.setStatus (hw.live _ hx) hne (by simp)
      refine ⟨hs.tasks fun σ hσ => hw.task σ ?_, hw.away⟩
      rw [hτ]
      exact List.mem_cons_of_mem _ hσ

/-- **One step**: nobody but `env_free` ends the wait. -/
theorem step {a : Label} (h : WaitsUntil w y m n s) (hok : AllocOk s a)
    (hstep : kernelStep s a t) : WaitsUntil w y m n t :=
  (WaitsUntil.schedStable w y m n a.cpu).step (fun _ he => h.entry hok he) hstep

end WaitsUntil

/-! ### The call -/

/-- The scheduler finds something to run. -/
def findsWork (s : Kernel) (a : Label) : Bool :=
  match enter s a.cpu a.act with
  | Except.ok (s', .yield) =>
      match schedPick s' a.cpu a.inp with
      | Except.ok (_, none) => false
      | _ => true
  | _ => true

/-- **The call of `sys_wait` in `w` meets nothing that wakes it**: no other processor has it, its
bit of `drc_map` is clear, no `page_in` is queued for it, and its processor finds something to
run. -/
structure Parks (s : Kernel) (a : Label) (w : ℕ) : Prop where
  alone : ∀ d ≠ a.cpu, s.curenv d ≠ some w
  bit : getBit s.drcMap w = false
  task : ∀ τ ∈ s.tList, τ.fptr = .pageIn → τ.requestorEnv ≠ w
  work : findsWork s a = true

/-- An id leads to the environment that has it. -/
theorem IdsInv.envid2env {s : Kernel} (h : IdsInv s) {c w y : ℕ} (hc : s.curenv c = some w)
    (hy : s.status y ≠ .free) : envid2env s c (s.envs y).envId false = some y := by
  have hname := (h.named y (h.live y hy)).2
  unfold Jos.envid2env
  rw [if_neg (h.live y hy), hname]
  dsimp only
  rw [if_neg (by simp [hy]), hc]
  simp

theorem Asleep.call {s : Kernel} (h : IdsInv s) {c w y : ℕ} (hc : s.curenv c = some w)
    (hy : s.status y ≠ .free) (hyw : y ≠ w) (hbit : getBit s.drcMap w = false)
    (htask : ∀ τ ∈ s.tList, τ.fptr = .pageIn → τ.requestorEnv ≠ w) :
    Asleep w y
      (s.modEnv w fun e => { e with waitId := (s.envs y).envId, status := .sleeping }) := by
  have hids : IdsInv
      (s.modEnv w fun e => { e with waitId := (s.envs y).envId, status := .sleeping }) :=
    IdsInv.entry (a := ⟨c, .dispatch (.syscall (.wait (s.envs y).envId)), ⟨0, 0, .resume, .resume⟩⟩)
      h (fun hact => absurd hact (by simp [allocates])) (Entry.wait hc (h.envid2env hc hy))
  refine ⟨hids, ?_, ⟨?_, ?_⟩, hbit, htask⟩
  · rw [Kernel.status_modEnv, if_pos rfl]
  · rw [Kernel.status_modEnv, if_neg hyw]
    exact hy
  · simp [Kernel.modEnv, hyw]

/-- **The call parks the environment.** -/
theorem Waits.call {s t : Kernel} {a : Label} {w y : ℕ} (h : IdsInv s)
    (hact : a.act = .dispatch (.syscall (.wait (s.envs y).envId))) (hc : s.curenv a.cpu = some w)
    (hy : s.status y ≠ .free) (hyw : y ≠ w) (hpark : Parks s a w) (hstep : kernelStep s a t) :
    Waits w y t ∧ t.freed = s.freed := by
  have hasleep := Asleep.call h hc hy hyw hpark.bit hpark.task
  have henter : enter s a.cpu a.act = Except.ok
      (s.modEnv w fun e => { e with waitId := (s.envs y).envId, status := .sleeping }, .yield) := by
    rw [hact]
    simp only [enter, hc, trapDispatch, syscall, sysWait, h.envid2env hc hy]
    rfl
  have hwork := hpark.work
  unfold findsWork at hwork
  rw [henter] at hwork
  dsimp only at hwork
  obtain ⟨-, hexec⟩ := hstep
  unfold kernelExec at hexec
  rw [henter] at hexec
  change schedYield _ a.cpu a.inp = Except.ok t at hexec
  have hcur : ∀ d, (s.modEnv w fun e =>
      { e with waitId := (s.envs y).envId, status := .sleeping }).curenv d = s.curenv d :=
        fun _ => rfl
  have hfreed : (s.modEnv w fun e =>
      { e with waitId := (s.envs y).envId, status := .sleeping }).freed = s.freed := rfl
  generalize (s.modEnv w fun e => { e with waitId := (s.envs y).envId, status := .sleeping }) = s'
    at hasleep hwork hexec hcur hfreed
  unfold schedYield at hexec
  obtain ⟨⟨s'', o⟩, hpick, hexec⟩ := bind_eq_ok.1 hexec
  rw [hpick] at hwork
  -- the choice leaves the processors alone and wakes others only
  have hstable : PickStable fun u => Asleep w y u ∧ (∀ d, u.curenv d = s.curenv d) ∧
      u.freed = s.freed := by
    refine ⟨fun u v hv hu => ⟨hu.1.quiet hv, fun d => (hv.curenv d).trans (hu.2.1 d),
      hv.freed.trans hu.2.2⟩, fun u hu => ⟨hu.1.resumeEnv, hu.2⟩,
      fun u requestors hu => ⟨hu.1.reclaimPgs requestors, hu.2⟩⟩
  unfold schedPick at hpick
  rw [(hcur a.cpu).trans hc] at hpick
  dsimp only at hpick
  rw [if_pos hasleep.sleeping] at hpick
  obtain ⟨⟨hasleep'', hcur'', hfreed''⟩, hready⟩ :=
    hstable.lookupPick ⟨hasleep, hcur, hfreed⟩ hpick
  cases o with
  | none => exact absurd hwork (by simp)
  | some e =>
      have he := hready e rfl
      have hew : e ≠ w := by
        rintro rfl
        exact he.ne_sleeping hasleep''.sleeping
      have hw'' : s''.curenv a.cpu = some w := (hcur'' a.cpu).trans hc
      dsimp only at hexec
      obtain ⟨hcur₂, -⟩ | ⟨-, s₃, rfl, ⟨hnone, -⟩ | ⟨old, hold, hleave⟩⟩ := envRun_cases hexec
      · exact absurd (Option.some_inj.1 (hcur₂.symm.trans hw'')) hew
      · exact absurd (hnone.symm.trans hw'') (by simp)
      obtain rfl := Option.some_inj.1 (hw''.symm.trans hold)
      obtain ⟨hst, -⟩ | ⟨hst, -⟩ | ⟨-, hs₃⟩ := envLeave_cases hleave
      · exact absurd (hst.symm.trans hasleep''.sleeping) (by simp)
      · exact absurd (hst.symm.trans hasleep''.sleeping) (by simp)
      obtain rfl := hs₃.symm
      have hcurenv : Asleep w y (s''.setCurenv a.cpu (some e)) := by
        refine hasleep''.setCurenv a.cpu fun x hx => ?_
        obtain rfl := Option.some_inj.1 hx
        exact hasleep''.live _ he.ne_free
      refine ⟨⟨(hcurenv.setStatus (hcurenv.live e he.ne_free) hew (by simp)).quiet
        (SameTable.setPc _ a.cpu .entering), fun d hd => ?_⟩, hfreed''⟩
      rw [Kernel.curenv_setPc, Kernel.curenv_setStatus, Kernel.curenv_setCurenv] at hd
      split at hd
      · exact hew (Option.some_inj.1 hd)
      · rename_i hdc
        rw [hcur''] at hd
        exact hpark.alone d hdc hd

/-! ### Whole runs -/

/-- **`sys_wait` waits**: in every run, an environment `w` that calls `sys_wait` with the id of
another live environment `y`, and meets nothing that wakes it, executes no instruction before one of
the two is freed. -/
theorem sys_wait_waits {types : List EnvType} {s₀ s₁ s₂ s : Kernel}
    {tr₁ tr₂ : List (Kernel × Label)} {a : Label} {w y : ℕ}
    (hlen : nKThreads + types.length ≤ nEnv) (hboot : Kernel.boot types = Except.ok s₀)
    (hrun₁ : Run kernelStep s₀ tr₁ s₁) (hok₁ : Meets AllocOk tr₁)
    (hact : a.act = .dispatch (.syscall (.wait (s₁.envs y).envId)))
    (hc : s₁.curenv a.cpu = some w) (hy : s₁.status y ≠ .free) (hyw : y ≠ w)
    (hpark : Parks s₁ a w) (hstep : kernelStep s₁ a s₂) (hrun₂ : Run kernelStep s₂ tr₂ s)
    (hok₂ : Meets AllocOk tr₂) (hyfree : s.frees y = s₁.frees y) (hwfree : s.frees w = s₁.frees w)
    (c : ℕ) : ¬ Executes s c w := by
  have hids := idsInv_of_run hlen hboot hrun₁ hok₁
  obtain ⟨hwaits, hfreed⟩ := Waits.call hids hact hc hy hyw hpark hstep
  have h₂ : WaitsUntil w y (s₁.frees w) (s₁.frees y) s₂ := by
    refine ⟨?_, ?_, fun _ _ => hwaits⟩
    · rw [frees_congr hfreed]
    · rw [frees_congr hfreed]
  have h := hrun₂.invariant (fun _ _ _ h hok hstep => h.step hok hstep) h₂ hok₂
  exact fun hex => (h.waits hwfree hyfree).away c hex.1

/-- The first environment runs up to a system call. -/
def firstCalls : List Label := [.at 0 .sched 1, .at 0 .pop 1, .at 0 .trap 1]

/-- The first environment waits for the second one. -/
def firstWaits : Label := .at 0 (.dispatch (.syscall (.wait 0x1003))) 2

/-- While the second environment is runnable, the first one waits and is not executed. -/
theorem sys_wait_waits_first : ∃ s₀ s₁ s₂ tr, Kernel.boot [.user, .user] = Except.ok s₀ ∧
    Run kernelStep s₀ tr s₁ ∧ s₁.curenv 0 = some 2 ∧ s₁.status 3 = .runnable ∧
      kernelStep s₁ firstWaits s₂ ∧ ∀ c, ¬ Executes s₂ c 2 := by
  have hview : guardedRun (fun s a => paired s a = true ∧ AllocOk s a) [.user, .user] firstCalls
      (fun s => decide (s.curenv 0 = some 2 ∧ s.curenv 1 = none ∧ (s.envs 3).envId = 0x1003 ∧
        s.status 3 = .runnable ∧
        getBit s.drcMap 2 = false ∧ s.tList = [] ∧ findsWork s firstWaits = true ∧
        (kernelNext s firstWaits).isSome = true)) = some true := by
    decide +kernel
  obtain ⟨s₀, s₁, tr, hboot, hrun, hmeets, hs⟩ := run_of_guardedRun hview
  obtain ⟨hcur, hidle, hid, hst, hbit, htask, hwork, hnext⟩ := of_decide_eq_true hs
  obtain ⟨s₂, hnext⟩ := Option.isSome_iff_exists.1 hnext
  have hstep := kernelStep_of_next hnext
  have hpair := ((Pair.of_boot hboot).run hrun fun p hp => (hmeets p hp).1).1
  have hpark : Parks s₁ firstWaits 2 := by
    refine ⟨fun d hd hc => hd ?_, hbit, fun τ hτ => ?_, hwork⟩
    · rcases d with _ | _ | d
      · rfl
      · rw [hidle] at hc
        exact absurd hc (by simp)
      · rw [hpair.2 (d + 2) (by omega)] at hc
        exact absurd hc (by simp)
    · rw [htask] at hτ
      exact absurd hτ (by simp)
  have hok : Meets AllocOk tr := fun p hp => (hmeets p hp).2
  have hact : firstWaits.act = .dispatch (.syscall (.wait (s₁.envs 3).envId)) := by
    rw [hid]
    rfl
  have hids := idsInv_of_run (by decide) hboot hrun hok
  have hfreed := (Waits.call hids hact hcur (by rw [hst]; simp) (by decide) hpark hstep).2
  refine ⟨s₀, s₁, s₂, tr, hboot, hrun, hcur, hst, hstep, fun c => ?_⟩
  exact sys_wait_waits (by decide) hboot hrun hok hact hcur (by rw [hst]; simp) (by decide) hpark
    hstep (Run.nil s₂) (fun p hp => absurd hp (by simp)) (frees_congr hfreed 3)
    (frees_congr hfreed 2) c

/-- Each of two processors has an environment, and the first one is about to make a system call. -/
def bothRun : List Label :=
  [.at 0 .sched 1, .at 0 .pop 1, .at 1 .sched 1, .at 1 .pop 1, .at 0 .trap 1]

/-- **`sys_wait` returns early**: the processor finds nothing else to run, halts, and takes the
waiting environment up again at the next timer interrupt. -/
theorem sys_wait_returns_early : ¬ ∀ (types : List EnvType) (s₀ s₁ s₂ s : Kernel)
    (tr₁ tr₂ : List (Kernel × Label)) (a : Label) (w y : ℕ), Kernel.boot types = Except.ok s₀ →
      Run kernelStep s₀ tr₁ s₁ → a.act = .dispatch (.syscall (.wait (s₁.envs y).envId)) →
      s₁.curenv a.cpu = some w → s₁.status y ≠ .free → y ≠ w → kernelStep s₁ a s₂ →
      Run kernelStep s₂ tr₂ s → s.frees y = s₁.frees y → s.frees w = s₁.frees w →
      ∀ c, ¬ Executes s c w := by
  intro h
  have hview : bootRun [.user, .user] bothRun (fun s => decide (s.curenv 0 = some 2 ∧
      (s.envs 3).envId = 0x1003 ∧ s.status 3 = .running ∧ s.freed.length = 0 ∧
      ((execAll kernelNext s [firstWaits, .at 0 .sched 3]).any fun t => decide (t.freed.length = 0 ∧
        t.curenv 0 = some 2 ∧ (t.cpus 0).pc = .entering)) = true)) = some true := by
    decide +kernel
  obtain ⟨s₀, s₁, tr, hboot, hrun, -, hs⟩ := run_of_bootRun hview
  obtain ⟨hcur, hid, hst, hnone, hmore⟩ := of_decide_eq_true hs
  obtain ⟨s, hexec, hs⟩ := (Option.any_eq_true _ _).1 hmore
  obtain ⟨hnone', hcur', hpc⟩ := of_decide_eq_true hs
  rw [execAll, Option.bind_eq_some_iff] at hexec
  obtain ⟨s₂, hnext, hexec⟩ := hexec
  obtain ⟨tr₂, hrun₂, -⟩ := run_of_execAll hexec
  have hfreed : s.freed = s₁.freed :=
    (List.eq_nil_of_length_eq_zero hnone').trans (List.eq_nil_of_length_eq_zero hnone).symm
  exact h _ s₀ s₁ s₂ s tr tr₂ firstWaits 2 3 hboot hrun (by rw [hid]; rfl) hcur (by rw [hst]; simp)
    (by decide) (kernelStep_of_next hnext) (hrun₂.mono fun _ _ _ => kernelStep_of_next)
    (frees_congr hfreed 3) (frees_congr hfreed 2) 0 ⟨hcur', Or.inl hpc⟩

end Jos
