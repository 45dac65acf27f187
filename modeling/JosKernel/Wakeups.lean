/-
**Wake-ups.**

A sleeping environment is woken through its bit of `drc_map`, by the `page_in` that it waits for, or
when the environment it waits for is freed.  The bit is only ever toggled, so that going to sleep on
`drc_map` a second time before the map was cleared leaves nothing that would wake the environment;
`sys_wait(0)` waits for an id that nobody has; and a slot that is handed out while its environment
lives takes away the id others wait for.  In runs without such steps no wake-up is lost.

Main definitions:

* `Jos.IdsInv` — ids name their slots;
* `Jos.HasWaker` — something is pending that wakes the environment;
* `Jos.Wakeful` — the condition on a step.

Main results:

* `Jos.IdsInv.step`, `Jos.WakeInv.step` — one step;
* `Jos.no_lost_wakeup` — whole runs;
* `Jos.wakeup_lost` — a fault on a page that is being swapped, taken twice.
-/

import JosKernel.EnvIds
import JosKernel.Effects
import JosKernel.SchedRun

set_option relaxedAutoImplicit false
set_option autoImplicit false

namespace Jos

open LabelledRun Outcome

/-! ### Ids name their slots -/

/-- **Ids name their slots**: an id that is not zero leads back to its slot, which is in the table,
and whoever is not free or is on a processor has such an id. -/
structure IdsInv (s : Kernel) : Prop where
  named : ∀ x, (s.envs x).envId ≠ 0 → x < nEnv ∧ envx (s.envs x).envId = x
  live : ∀ x, s.status x ≠ .free → (s.envs x).envId ≠ 0
  held : ∀ d x, s.curenv d = some x → (s.envs x).envId ≠ 0

theorem envx_or {g : BitVec 32} (hg : g &&& 1023#32 = 0) {x : ℕ} (hx : x < nEnv) :
    envx (g ||| BitVec.ofNat 32 x) = x := by
  have hx' : x < 1024 := hx
  have hmask : (g ||| BitVec.ofNat 32 x) &&& 1023#32 = BitVec.ofNat 32 x &&& 1023#32 := by
    ext i hi
    have hbit := congrArg (fun v => v.getLsbD i) hg
    simp at hbit ⊢
    grind
  change ((g ||| BitVec.ofNat 32 x) &&& 1023#32).toNat = x
  rw [hmask]
  change envx (BitVec.ofNat 32 x) = x
  rw [envx_eq, BitVec.toNat_ofNat]
  omega

/-- The id that `env_alloc` gives to a slot leads back to it. -/
theorem envx_newEnvId (old : BitVec 32) {x : ℕ} (hx : x < nEnv) : envx (newEnvId old x) = x := by
  unfold newEnvId
  dsimp only
  refine envx_or ?_ hx
  split
  · decide
  · change (old + 1#32 <<< envGenShift) &&& ~~~1023#32 &&& 1023#32 = 0
    rw [BitVec.and_assoc, BitVec.not_and_self]
    exact BitVec.and_zero

/-- A new environment is not asleep and has no tasklet. -/
theorem envAlloc_rest {s t : Kernel} {parentId : BitVec 32} {type : EnvType} {y : ℕ}
    (hr : envAlloc s parentId type = some (y, t)) :
    t.drcMap = s.drcMap ∧ t.tList = s.tList ∧ t.freed = s.freed := by
  unfold envAlloc at hr
  split at hr
  · exact absurd hr (by simp)
  · obtain ⟨-, rfl⟩ := Prod.mk.inj (Option.some_inj.1 hr)
    exact ⟨rfl, rfl, rfl⟩

namespace IdsInv

variable {s t : Kernel}

theorem lt (h : IdsInv s) {x : ℕ} (hx : s.status x ≠ .free) : x < nEnv :=
  (h.named x (h.live x hx)).1

theorem congr (h : IdsInv s) (hid : ∀ x, (t.envs x).envId = (s.envs x).envId)
    (hlive : ∀ x, t.status x ≠ .free → (s.envs x).envId ≠ 0)
    (hheld : ∀ d x, t.curenv d = some x → (s.envs x).envId ≠ 0) : IdsInv t where
  named x hx := by
    rw [hid] at hx ⊢
    exact h.named x hx
  live x hx := by
    rw [hid]
    exact hlive x hx
  held d x hx := by
    rw [hid]
    exact hheld d x hx

theorem quiet (h : IdsInv s) (ht : SameTable s t) : IdsInv t := by
  refine h.congr ht.envId (fun x hx => h.live x ?_) fun d x hx => h.held d x ?_
  · rwa [ht.status] at hx
  · rwa [ht.curenv] at hx

/-- A status is written for an environment that has an id. -/
theorem setStatus (h : IdsInv s) {x : ℕ} (hx : (s.envs x).envId ≠ 0) (st : EnvStatus) :
    IdsInv (s.setStatus x st) := by
  refine h.congr (fun y => ?_) (fun y hy => ?_) h.held
  · by_cases hyx : y = x
    · subst hyx
      simp [Kernel.setStatus, Kernel.modEnv]
    · simp [Kernel.setStatus, Kernel.modEnv, hyx]
  · rw [Kernel.status_setStatus] at hy
    split at hy
    · rename_i hyx
      rwa [hyx]
    · exact h.live y hy

theorem setCurenv (h : IdsInv s) (c : ℕ) {o : Option ℕ}
    (ho : ∀ x, o = some x → (s.envs x).envId ≠ 0) : IdsInv (s.setCurenv c o) := by
  refine h.congr (fun _ => rfl) h.live fun d x hx => ?_
  rw [Kernel.curenv_setCurenv] at hx
  split at hx
  · exact ho x hx
  · exact h.held d x hx

theorem envFree (h : IdsInv s) (c x : ℕ) : IdsInv (envFree s c x) := by
  obtain ⟨-, hid, hfree⟩ := envFree_slots s c x
  refine h.congr hid (fun y hy => h.live y fun hf => hy ((hfree y).2 (Or.inr hf))) h.held

theorem resumeEnv (h : IdsInv s) : IdsInv (resumeEnv s) := by
  have hset := Settled.resumeEnv s
  refine h.congr (fun x => (hset.ids x).2.2) (fun x hx => h.live x fun hf => hx ?_) h.held
  rw [hset.status_eq (by simp [hf])]
  exact hf

theorem envAlloc (h : IdsInv s) {parentId : BitVec 32} {type : EnvType} {y : ℕ}
    (hr : envAlloc s parentId type = some (y, t)) (hy : y < nEnv) : IdsInv t := by
  obtain ⟨-, hid, -, hother⟩ := envAlloc_some hr
  have hcpus := (envAlloc_frame hr).1
  have hnew : (t.envs y).envId ≠ 0 ∧ envx (t.envs y).envId = y := by
    rw [hid]
    exact ⟨newEnvId_ne_zero _ y, envx_newEnvId _ hy⟩
  refine ⟨fun x hx => ?_, fun x hx => ?_, fun d x hx => ?_⟩
  · by_cases hxy : x = y
    · subst hxy
      exact ⟨hy, hnew.2⟩
    · rw [hother x hxy] at hx ⊢
      exact h.named x hx
  · by_cases hxy : x = y
    · subst hxy
      exact hnew.1
    · rw [Kernel.status, hother x hxy] at hx
      rw [hother x hxy]
      exact h.live x hx
  · by_cases hxy : x = y
    · subst hxy
      exact hnew.1
    · rw [Kernel.curenv, hcpus] at hx
      rw [hother x hxy]
      exact h.held d x hx

theorem schedStable (c : ℕ) : SchedStable c IdsInv where
  quiet _ _ ht h := h.quiet ht
  resume _ h := h.resumeEnv
  reclaim _ _ h := ⟨h.named, h.live, h.held⟩
  release _ x h hx := h.setStatus (h.held c x hx) .runnable
  collect _ x h _ _ := h.envFree c x
  take s e h he _ := by
    refine IdsInv.setStatus (h.setCurenv c ?_) (h.live e he) .running
    intro x hx
    obtain rfl := Option.some_inj.1 hx
    exact h.live _ he
  drop _ h := h.setCurenv c fun x hx => absurd hx (by simp)

end IdsInv

/-- The critical section takes a slot. -/
def allocates : Act → Bool
  | .dispatch (.syscall (.fork o)) => o ≠ .noMem
  | _ => false

/-- **A new environment gets a slot of the table that is free.** -/
def AllocOk (s : Kernel) (a : Label) : Prop :=
  allocates a.act = true → ∀ y ∈ s.envFreeList.head?, y < nEnv ∧ s.status y = .free

instance (s : Kernel) (a : Label) : Decidable (AllocOk s a) :=
  inferInstanceAs (Decidable (_ → _))

theorem AllocOk.slot {s s₁ : Kernel} {c : ℕ} {o : ForkOutcome} {inp : SchedInput}
    (h : AllocOk s ⟨c, .dispatch (.syscall (.fork o)), inp⟩) (ho : o ≠ .noMem)
    {parentId : BitVec 32} {type : EnvType} {y : ℕ}
    (halloc : envAlloc s parentId type = some (y, s₁)) : y < nEnv ∧ s.status y = .free := by
  refine h (by simpa [allocates] using ho) y ?_
  rw [(envAlloc_some halloc).1]
  rfl

/-- The environment that a critical section frees exists. -/
theorem IdsInv.freeTarget {s : Kernel} (h : IdsInv s) {c x : ℕ} {a : Act}
    (hx : freeTarget s c a = some x) : (s.envs x).envId ≠ 0 := by
  unfold Jos.freeTarget at hx
  split at hx
  · exact h.held c x (Option.filter_eq_some_iff.1 hx).1
  · exact h.held c x hx
  · exact h.held c x hx
  · exact h.held c x hx
  · rename_i envid
    have hid := (Option.filter_eq_some_iff.1 hx).1
    unfold envid2env at hid
    split at hid
    · exact h.held c x hid
    · dsimp only at hid
      split at hid
      · exact absurd hid (by simp)
      · rename_i hlive
        have hlive := (not_or.1 hlive).1
        have hname : envx envid = x := by
          split at hid
          · exact absurd hid (by simp)
          · split at hid
            · exact absurd hid (by simp)
            · exact Option.some_inj.1 hid
        rw [← hname]
        exact h.live _ hlive
  · exact absurd hx (by simp)

theorem IdsInv.entry {s s' : Kernel} {a : Label} (h : IdsInv s) (hok : AllocOk s a)
    (he : Entry a.cpu s a.act s') : IdsInv s' := by
  obtain ⟨c, act, inp⟩ := a
  dsimp only at he
  cases he with
  | quiet ht => exact h.quiet ht
  | kill hs hx hc =>
      rename_i s₁ x
      refine (h.quiet hs).setStatus ?_ .dying
      rw [hs.envId]
      exact h.live x (by simp [hx])
  | free hs hx hc => exact (h.quiet hs).envFree c _
  | freeOwn hs hx hc => exact ((h.quiet hs).envFree c _).setCurenv c fun y hy => absurd hy (by simp)
  | sleepOnDrc hc ha =>
      have hs := h.setStatus (h.held c _ hc) .sleeping
      exact ⟨hs.named, hs.live, hs.held⟩
  | swapIn hc =>
      have hs := h.setStatus (h.held c _ hc) .sleeping
      exact ⟨hs.named, hs.live, hs.held⟩
  | wait hc hy =>
      rename_i x y envid
      have hs := h.setStatus (h.held c x hc) .sleeping
      refine hs.congr (fun z => ?_) (fun z hz => hs.live z ?_) hs.held
      · by_cases hzx : z = x
        · subst hzx
          simp [Kernel.setStatus, Kernel.modEnv]
        · simp [Kernel.setStatus, Kernel.modEnv, hzx]
      · rw [Kernel.status_setStatus]
        rwa [Kernel.status_modEnv] at hz
  | fork ho halloc ht => exact (h.envAlloc halloc (hok.slot ho halloc).1).quiet ht
  | round n hτ => exact ⟨h.named, h.live, h.held⟩
  | pageOut hτ hf => exact ⟨h.named, h.live, h.held⟩
  | pageIn hτ hf hn hx =>
      have hs := h.setStatus (h.live _ hx) .runnable
      exact ⟨hs.named, hs.live, hs.held⟩

/-- **Ids keep naming their slots** as long as new environments get free slots of the table. -/
theorem IdsInv.step {s t : Kernel} {a : Label} (h : IdsInv s) (hok : AllocOk s a)
    (hstep : kernelStep s a t) : IdsInv t :=
  (IdsInv.schedStable a.cpu).step (fun _ he => h.entry hok he) hstep

/-! ### Wakers -/

/-- **Something is pending that wakes the environment `x`**: its bit of `drc_map`, a `page_in`, or
an environment that is not free and has the id it waits for. -/
def HasWaker (s : Kernel) (x : ℕ) : Prop :=
  getBit s.drcMap x = true ∨ (∃ τ ∈ s.tList, τ.fptr = .pageIn ∧ τ.requestorEnv = x) ∨
    ∃ y, s.status y ≠ .free ∧ (s.envs y).envId = (s.envs x).waitId

/-- Every sleeper has a waker. -/
structure WakeInv (s : Kernel) : Prop extends IdsInv s where
  waker : ∀ x, s.status x = .sleeping → HasWaker s x

/-- The wakers stay where they are. -/
theorem HasWaker.mono {s t : Kernel} {x : ℕ} (h : HasWaker s x)
    (hbit : getBit s.drcMap x = true → getBit t.drcMap x = true)
    (htask : ∀ τ ∈ s.tList, τ.fptr = .pageIn → τ.requestorEnv = x →
      ∃ τ' ∈ t.tList, τ'.fptr = .pageIn ∧ τ'.requestorEnv = x)
    (hlive : ∀ y, s.status y ≠ .free → (s.envs y).envId = (s.envs x).waitId →
      t.status y ≠ .free ∧ (t.envs y).envId = (t.envs x).waitId) : HasWaker t x := by
  rcases h with hb | ⟨τ, hτ, hf, hx⟩ | ⟨y, hy, hid⟩
  · exact Or.inl (hbit hb)
  · exact Or.inr (Or.inl (htask τ hτ hf hx))
  · exact Or.inr (Or.inr ⟨y, hlive y hy hid⟩)

/-- The same when neither the bit nor the tasklets change. -/
theorem HasWaker.table {s t : Kernel} {x : ℕ} (h : HasWaker s x) (hdrc : t.drcMap = s.drcMap)
    (htask : t.tList = s.tList)
    (hlive : ∀ y, s.status y ≠ .free → (s.envs y).envId = (s.envs x).waitId →
      t.status y ≠ .free ∧ (t.envs y).envId = (t.envs x).waitId) : HasWaker t x := by
  refine h.mono (by rw [hdrc]; exact id) (fun τ hτ hf hx => ⟨τ, ?_, hf, hx⟩) hlive
  rw [htask]
  exact hτ

namespace WakeInv

variable {s t : Kernel}

theorem quiet (h : WakeInv s) (ht : SameTable s t) : WakeInv t where
  toIdsInv := h.toIdsInv.quiet ht
  waker x hx := by
    rw [ht.status] at hx
    refine (h.waker x hx).table ht.drcMap ht.tList fun y hy hid => ?_
    rw [ht.status, ht.envId, ht.waitId]
    exact ⟨hy, hid⟩

theorem envId_setStatus (s : Kernel) (x : ℕ) (st : EnvStatus) (y : ℕ) :
    ((s.setStatus x st).envs y).envId = (s.envs y).envId ∧
      ((s.setStatus x st).envs y).waitId = (s.envs y).waitId := by
  by_cases hyx : y = x
  · subst hyx
    simp [Kernel.setStatus, Kernel.modEnv]
  · simp [Kernel.setStatus, Kernel.modEnv, hyx]

/-- An environment that is not freed stays a waker. -/
theorem hasWaker_setStatus {x z : ℕ} {st : EnvStatus} (hst : st ≠ .free) (hz : HasWaker s z) :
    HasWaker (s.setStatus x st) z := by
  refine hz.table rfl rfl fun y hy hid => ?_
  rw [(envId_setStatus s x st y).1, (envId_setStatus s x st z).2, Kernel.status_setStatus]
  refine ⟨?_, hid⟩
  split
  · exact hst
  · exact hy

/-- An environment is woken or moved on. -/
theorem setStatus (h : WakeInv s) {x : ℕ} (hx : (s.envs x).envId ≠ 0) {st : EnvStatus}
    (hfree : st ≠ .free) (hsleep : st ≠ .sleeping) : WakeInv (s.setStatus x st) where
  toIdsInv := h.toIdsInv.setStatus hx st
  waker z hz := by
    rw [Kernel.status_setStatus] at hz
    split at hz
    · exact absurd hz hsleep
    · exact hasWaker_setStatus hfree (h.waker z hz)

theorem setCurenv (h : WakeInv s) (c : ℕ) {o : Option ℕ}
    (ho : ∀ x, o = some x → (s.envs x).envId ≠ 0) : WakeInv (s.setCurenv c o) where
  toIdsInv := h.toIdsInv.setCurenv c ho
  waker := h.waker

/-- Those who wait for an environment that is freed are woken. -/
theorem envFree (h : WakeInv s) (c x : ℕ) : WakeInv (envFree s c x) where
  toIdsInv := h.toIdsInv.envFree c x
  waker z hz := by
    obtain ⟨-, hid, hfree⟩ := envFree_slots s c x
    rw [status_envFree] at hz
    split at hz
    · exact absurd hz (by simp)
    · rename_i hzx
      have hnot : notifyWaiter (s.envs x).envId z (s.envs z) = s.envs z ∧
          s.status z = .sleeping ∧ (s.envs z).waitId ≠ (s.envs x).envId := by
        unfold notifyWaiter at hz ⊢
        split at hz
        · exact absurd hz (by simp)
        · rename_i hnot
          rw [if_neg hnot]
          have hlt : z < nEnv := h.lt (x := z) (by rw [Kernel.status, hz]; simp)
          exact ⟨rfl, hz, fun hw => hnot ⟨hlt, hz, hw⟩⟩
      refine (h.waker z hnot.2.1).table rfl rfl fun y hy hyid => ?_
      have hwait : ((Jos.envFree s c x).envs z).waitId = (s.envs z).waitId := by
        simp [Jos.envFree, Kernel.setStatus, Kernel.modEnv, hzx, hnot.1]
      rw [hid, hwait]
      refine ⟨fun hf => ?_, hyid⟩
      rcases (hfree y).1 hf with rfl | hf
      · exact hnot.2.2 hyid.symm
      · exact hy hf

/-- `resume_env` clears the bits of those whom it wakes. -/
theorem resumeEnv (h : WakeInv s) : WakeInv (resumeEnv s) where
  toIdsInv := h.toIdsInv.resumeEnv
  waker z hz := by
    have hset := Settled.resumeEnv s
    rcases status_resumeEnv s z with hsame | ⟨-, -, hrun⟩
    · have hsleep : s.status z = .sleeping := by rw [← hsame, hz]
      have hlt : z < nEnv := h.lt (by simp [hsleep])
      have hbit : getBit s.drcMap z = false := by
        cases hb : getBit s.drcMap z with
        | false => rfl
        | true =>
            have hcond : (s.envs z).status = .sleeping ∧ z < nEnv ∧ getBit s.drcMap z = true :=
              ⟨hsleep, hlt, hb⟩
            simp [Kernel.status, Jos.resumeEnv, resumeOne, if_pos hcond] at hz
      refine (h.waker z hsleep).mono (fun hb => ?_) (fun τ hτ hf hx => ⟨τ, hτ, hf, hx⟩)
        fun y hy hid => ?_
      · rw [hbit] at hb
        exact absurd hb (by simp)
      · rw [(hset.ids y).2.2, hset.waitId]
        refine ⟨?_, hid⟩
        rcases hset.status y with he | ⟨-, hr⟩
        · rwa [he]
        · simp [hr]
    · rw [hrun] at hz
      exact absurd hz (by simp)

theorem reclaimPgs (h : WakeInv s) (requestors : List ℕ) : WakeInv (reclaimPgs s requestors) where
  toIdsInv := ⟨h.named, h.live, h.held⟩
  waker z hz := by
    refine (h.waker z hz).mono id (fun τ hτ hf hx => ⟨τ, ?_, hf, hx⟩) fun y hy hid => ⟨hy, hid⟩
    exact List.mem_append_left _ hτ

theorem schedStable (c : ℕ) : SchedStable c WakeInv where
  quiet _ _ ht h := h.quiet ht
  resume _ h := h.resumeEnv
  reclaim _ requestors h := h.reclaimPgs requestors
  release _ x h hx := h.setStatus (h.held c x hx) (by simp) (by simp)
  collect _ x h _ _ := h.envFree c x
  take _ e h he _ := by
    refine WakeInv.setStatus (h.setCurenv c ?_) (h.live e he) (by simp) (by simp)
    intro x hx
    obtain rfl := Option.some_inj.1 hx
    exact h.live _ he
  drop _ h := h.setCurenv c fun x hx => absurd hx (by simp)

end WakeInv

/-! ### Going to sleep -/

/-- An environment goes to sleep on `drc_map` only while its bit is clear. -/
def DrcClear (s : Kernel) (a : Label) : Prop :=
  sleepsOnDrc s a.act = true → ∀ x ∈ s.curenv a.cpu, getBit s.drcMap x = false

instance (s : Kernel) (a : Label) : Decidable (DrcClear s a) :=
  inferInstanceAs (Decidable (_ → _))

/-- **A step that loses no wake-up.** -/
def Wakeful (s : Kernel) (a : Label) : Prop :=
  AllocOk s a ∧ DrcClear s a ∧ a.act ≠ .dispatch (.syscall (.wait 0))

instance (s : Kernel) (a : Label) : Decidable (Wakeful s a) :=
  inferInstanceAs (Decidable (_ ∧ _ ∧ _))

/-- What `envid2env` finds under an id that is not zero has that id. -/
theorem envid2env_spec {s : Kernel} {c y : ℕ} {envid : BitVec 32} {checkperm : Bool}
    (hid : envid ≠ 0) (hr : envid2env s c envid checkperm = some y) :
    s.status y ≠ .free ∧ (s.envs y).envId = envid := by
  unfold envid2env at hr
  rw [if_neg hid] at hr
  dsimp only at hr
  split at hr
  · exact absurd hr (by simp)
  · rename_i hlive
    have hname : envx envid = y := by
      split at hr
      · split at hr
        · exact absurd hr (by simp)
        · exact Option.some_inj.1 hr
      · split at hr
        · exact absurd hr (by simp)
        · exact Option.some_inj.1 hr
    rw [← hname]
    exact ⟨fun hf => hlive (Or.inl hf), not_not.1 fun hne => hlive (Or.inr hne)⟩

theorem envId_modEnv (s : Kernel) (x : ℕ) {f : Env → Env}
    (hf : ∀ e, (f e).envId = e.envId) (z : ℕ) :
    ((s.modEnv x f).envs z).envId = (s.envs z).envId := by
  by_cases hzx : z = x
  · subst hzx
    simp [Kernel.modEnv, hf]
  · simp [Kernel.modEnv, hzx]

/-- `sys_wait` changes no id. -/
theorem IdsInv.wait {s : Kernel} (h : IdsInv s) {x : ℕ} (hx : (s.envs x).envId ≠ 0)
    (envid : BitVec 32) :
    IdsInv (s.modEnv x fun e => { e with waitId := envid, status := .sleeping }) := by
  refine h.congr (envId_modEnv s x fun _ => rfl) (fun z hz => ?_) h.held
  rw [Kernel.status_modEnv] at hz
  split at hz
  · rename_i hzx
    rwa [hzx]
  · exact h.live z hz

namespace WakeInv

variable {s : Kernel}

/-- Another sleeper keeps its waker when `x` falls asleep. -/
theorem other (h : WakeInv s) {x z : ℕ} (hzx : z ≠ x)
    (hz : (s.setStatus x .sleeping).status z = .sleeping) :
    HasWaker (s.setStatus x .sleeping) z := by
  refine hasWaker_setStatus (by simp) (h.waker z ?_)
  rw [← hz]
  exact ((Kernel.status_setStatus s z x .sleeping).trans (if_neg hzx)).symm

theorem sleepOnDrc (h : WakeInv s) {x : ℕ} (hx : (s.envs x).envId ≠ 0)
    (hbit : getBit s.drcMap x = false) : WakeInv (sleepOnDrc s x) where
  toIdsInv := by
    have hs := h.toIdsInv.setStatus hx .sleeping
    exact ⟨hs.named, hs.live, hs.held⟩
  waker z hz := by
    have hslot : envx ((s.setStatus x .sleeping).envs x).envId = x := by
      rw [(envId_setStatus s x .sleeping x).1]
      exact (h.named x hx).2
    have hdrc : (Jos.sleepOnDrc s x).drcMap = toggleBit s.drcMap x := by
      unfold Jos.sleepOnDrc
      dsimp only
      rw [hslot]
      rfl
    by_cases hzx : z = x
    · subst hzx
      left
      rw [hdrc, getBit_toggleBit_self, hbit]
      rfl
    · refine (h.other hzx hz).mono (fun hb => ?_) (fun τ hτ hf hr => ⟨τ, hτ, hf, hr⟩)
        fun y hy hid => ⟨hy, hid⟩
      rw [hdrc, getBit_toggleBit_of_ne _ hzx]
      exact hb

theorem swapIn (h : WakeInv s) {x : ℕ} (hx : (s.envs x).envId ≠ 0) :
    WakeInv { s.setStatus x .sleeping with tList := s.tList ++ [taskFor s .pageIn x] } where
  toIdsInv := by
    have hs := h.toIdsInv.setStatus hx .sleeping
    exact ⟨hs.named, hs.live, hs.held⟩
  waker z hz := by
    by_cases hzx : z = x
    · subst hzx
      exact Or.inr (Or.inl ⟨taskFor s .pageIn z, by simp, rfl, rfl⟩)
    · exact (h.other hzx hz).mono id (fun τ hτ hf hr => ⟨τ, List.mem_append_left _ hτ, hf, hr⟩)
        fun y hy hid => ⟨hy, hid⟩

theorem wait (h : WakeInv s) {x y : ℕ} {envid : BitVec 32} (hx : (s.envs x).envId ≠ 0)
    (hy : s.status y ≠ .free) (hyid : (s.envs y).envId = envid) :
    WakeInv (s.modEnv x fun e => { e with waitId := envid, status := .sleeping }) := by
  have hst : ∀ z, (s.modEnv x fun e => { e with waitId := envid, status := .sleeping }).status z =
      if z = x then .sleeping else s.status z := fun z => Kernel.status_modEnv s z x _
  have hid : ∀ z,
      ((s.modEnv x fun e => { e with waitId := envid, status := .sleeping }).envs z).envId
      = (s.envs z).envId := envId_modEnv s x fun _ => rfl
  have hlive : ∀ z, s.status z ≠ .free →
      (s.modEnv x fun e => { e with waitId := envid, status := .sleeping }).status z ≠ .free := by
    intro z hz
    rw [hst]
    split
    · simp
    · exact hz
  refine ⟨h.toIdsInv.wait hx envid, fun z hz => ?_⟩
  by_cases hzx : z = x
  · subst hzx
    refine Or.inr (Or.inr ⟨y, hlive y hy, ?_⟩)
    rw [hid, hyid]
    simp [Kernel.modEnv]
  · rw [hst, if_neg hzx] at hz
    refine (h.waker z hz).table rfl rfl fun w hw hwid => ⟨hlive w hw, ?_⟩
    rw [hid, hwid]
    simp [Kernel.modEnv, hzx]

theorem envAlloc (h : WakeInv s) {t : Kernel} {parentId : BitVec 32} {type : EnvType} {y : ℕ}
    (hr : envAlloc s parentId type = some (y, t)) (hy : y < nEnv) (hfree : s.status y = .free) :
    WakeInv t where
  toIdsInv := h.toIdsInv.envAlloc hr hy
  waker z hz := by
    obtain ⟨-, -, hnew, hother⟩ := envAlloc_some hr
    have hzy : z ≠ y := by
      rintro rfl
      rw [hnew] at hz
      exact absurd hz (by simp)
    rw [Kernel.status, hother z hzy] at hz
    obtain ⟨hdrc, htask, -⟩ := envAlloc_rest hr
    refine (h.waker z hz).table hdrc htask fun w hw hwid => ?_
    -- the slot was free, so nobody waited for it
    have hwy : w ≠ y := by
      rintro rfl
      exact hw hfree
    rw [Kernel.status, hother w hwy, hother z hzy]
    exact ⟨hw, hwid⟩

/-- One round of a tasklet. -/
theorem round (h : WakeInv s) {τ τ' : Tasklet} {rest : List Tasklet} (hτ : s.tList = τ :: rest)
    (hf : τ'.fptr = τ.fptr) (hx : τ'.requestorEnv = τ.requestorEnv) :
    WakeInv { s with tList := τ' :: rest } where
  toIdsInv := ⟨h.named, h.live, h.held⟩
  waker z hz := by
    refine (h.waker z hz).mono id (fun σ hσ hσf hσx => ?_) fun y hy hid => ⟨hy, hid⟩
    rw [hτ] at hσ
    rcases List.mem_cons.1 hσ with rfl | hσ
    · exact ⟨τ', List.mem_cons_self, hf.trans hσf, hx.trans hσx⟩
    · exact ⟨σ, List.mem_cons_of_mem _ hσ, hσf, hσx⟩

/-- A tasklet is done, and it wakes nobody who still sleeps. -/
theorem pop (h : WakeInv s) {τ : Tasklet} {rest : List Tasklet} (hτ : s.tList = τ :: rest)
    (hdone : τ.fptr = .pageIn → s.status τ.requestorEnv ≠ .sleeping) :
    WakeInv { s with tList := rest } where
  toIdsInv := ⟨h.named, h.live, h.held⟩
  waker z hz := by
    have hz' : s.status z = .sleeping := hz
    refine (h.waker z hz).mono id (fun σ hσ hσf hσx => ?_) fun y hy hid => ⟨hy, hid⟩
    rw [hτ] at hσ
    rcases List.mem_cons.1 hσ with rfl | hσ
    · rw [← hσx] at hz'
      exact absurd hz' (hdone hσf)
    · exact ⟨σ, hσ, hσf, hσx⟩

theorem entry {s' : Kernel} {a : Label} (h : WakeInv s) (hw : Wakeful s a)
    (he : Entry a.cpu s a.act s') : WakeInv s' := by
  obtain ⟨c, act, inp⟩ := a
  obtain ⟨halloc, hdrc, hzero⟩ := hw
  dsimp only at he hzero
  cases he with
  | quiet ht => exact h.quiet ht
  | kill hs hx hc =>
      rename_i s₁ x
      refine (h.quiet hs).setStatus ?_ (by simp) (by simp)
      rw [hs.envId]
      exact h.live x (by simp [hx])
  | free hs hx hc => exact (h.quiet hs).envFree c _
  | freeOwn hs hx hc => exact ((h.quiet hs).envFree c _).setCurenv c fun y hy => absurd hy (by simp)
  | sleepOnDrc hc ha => exact h.sleepOnDrc (h.held c _ hc) (hdrc ha _ hc)
  | swapIn hc => exact h.swapIn (h.held c _ hc)
  | wait hc hy =>
      rename_i x y envid
      have hid : envid ≠ 0 := by
        rintro rfl
        exact hzero rfl
      obtain ⟨hlive, hyid⟩ := envid2env_spec hid hy
      exact h.wait (h.held c x hc) hlive hyid
  | fork ho hr ht =>
      obtain ⟨hlt, hfree⟩ := halloc.slot ho hr
      exact (h.envAlloc hr hlt hfree).quiet ht
  | round n hτ => exact h.round hτ rfl rfl
  | pageOut hτ hf => exact h.pop hτ fun hin => absurd (hf.symm.trans hin) (by simp)
  | pageIn hτ hf hn hx =>
      rename_i τ rest
      have hs : WakeInv (s.setStatus τ.requestorEnv .runnable) :=
        h.setStatus (h.live _ hx) (by simp) (by simp)
      refine hs.pop (τ := τ) hτ fun _ => ?_
      rw [Kernel.status_setStatus, if_pos rfl]
      simp

/-- **One step loses no wake-up.** -/
theorem step {t : Kernel} {a : Label} (h : WakeInv s) (hw : Wakeful s a)
    (hstep : kernelStep s a t) : WakeInv t :=
  (WakeInv.schedStable a.cpu).step (fun _ he => h.entry hw he) hstep

end WakeInv

/-! ### Whole runs -/

theorem envCreate_alloc {s t : Kernel} {type : EnvType} (hr : envCreate s type = Except.ok t) :
    ∃ y, envAlloc s 0 type = some (y, t) := by
  unfold envCreate at hr
  cases halloc : envAlloc s 0 type with
  | none =>
      rw [halloc] at hr
      exact absurd hr (by simp [throw, throwThe, MonadExceptOf.throw])
  | some p =>
      rw [halloc] at hr
      obtain rfl := Except.ok.inj hr
      exact ⟨p.1, rfl⟩

/-- While the kernel starts up, the next free slot is the next one of the table. -/
theorem foldlM_envCreate {types : List EnvType} : ∀ {k n : ℕ} {s t : Kernel}, IdsInv s →
    (∀ x, s.status x ≠ .sleeping) → s.envFreeList = List.range' k n → k + types.length ≤ nEnv →
    types.foldlM envCreate s = Except.ok t → IdsInv t ∧ ∀ x, t.status x ≠ .sleeping := by
  induction types with
  | nil =>
      intro k n s t h hst _ _ hr
      obtain rfl := Except.ok.inj hr
      exact ⟨h, hst⟩
  | cons type types ih =>
      intro k n s t h hst hlist hlen hr
      rw [List.foldlM_cons] at hr
      obtain ⟨s₁, hcreate, hr⟩ := bind_eq_ok.1 hr
      obtain ⟨y, halloc⟩ := envCreate_alloc hcreate
      obtain ⟨hhead, -, hnew, hother⟩ := envAlloc_some halloc
      rw [List.length_cons] at hlen
      cases n with
      | zero => rw [hlist] at hhead; simp at hhead
      | succ n =>
          rw [hlist, List.range'_succ, List.cons.injEq] at hhead
          obtain ⟨rfl, hrest⟩ := hhead
          refine ih (h.envAlloc halloc (by omega)) (fun x => ?_) hrest.symm (by omega) hr
          by_cases hx : x = k
          · rw [hx, hnew]
            simp
          · rw [Kernel.status, hother x hx]
            exact hst x

theorem foldlM_envCreate_tList {types : List EnvType} : ∀ {s t : Kernel},
    types.foldlM envCreate s = Except.ok t → t.tList = s.tList := by
  induction types with
  | nil =>
      intro s t hr
      obtain rfl := Except.ok.inj hr
      rfl
  | cons type types ih =>
      intro s t hr
      rw [List.foldlM_cons] at hr
      obtain ⟨s₁, hcreate, hr⟩ := bind_eq_ok.1 hr
      obtain ⟨y, halloc⟩ := envCreate_alloc hcreate
      exact (ih hr).trans (envAlloc_rest halloc).2.1

/-- The processors enter the scheduler without any tasklet. -/
theorem boot_tList {types : List EnvType} {s : Kernel} (hboot : Kernel.boot types = Except.ok s) :
    s.tList = [] :=
  foldlM_envCreate_tList hboot

/-- **The state in which the processors enter the scheduler**: every environment that the kernel
starts is in the table, and nobody sleeps. -/
theorem boot_table {types : List EnvType} {s : Kernel} (hlen : nKThreads + types.length ≤ nEnv)
    (hboot : Kernel.boot types = Except.ok s) : IdsInv s ∧ ∀ x, s.status x ≠ .sleeping := by
  have hids : IdsInv Kernel.init := by
    refine ⟨fun x hx => absurd rfl hx, fun x hx => absurd rfl hx, fun d x hx => ?_⟩
    exact absurd hx (by simp [Kernel.init, Kernel.curenv])
  have hawake : ∀ x, Kernel.init.status x ≠ .sleeping := by
    intro x
    simp [Kernel.init, Kernel.status, Env.init]
  refine foldlM_envCreate hids hawake (Kernel.init_envFreeList.trans List.range_eq_range') ?_ hboot
  rw [List.length_append, List.length_replicate]
  omega

theorem idsInv_of_run {types : List EnvType} {s₀ s : Kernel} {tr : List (Kernel × Label)}
    (hlen : nKThreads + types.length ≤ nEnv) (hboot : Kernel.boot types = Except.ok s₀)
    (hrun : Run kernelStep s₀ tr s) (hok : Meets AllocOk tr) : IdsInv s :=
  hrun.invariant (fun _ _ _ h hok hstep => h.step hok hstep) (boot_table hlen hboot).1 hok

/-- **No wake-up is lost** in runs of wakeful steps: every sleeper has a waker. -/
theorem no_lost_wakeup {types : List EnvType} {s₀ s : Kernel} {tr : List (Kernel × Label)}
    (hlen : nKThreads + types.length ≤ nEnv) (hboot : Kernel.boot types = Except.ok s₀)
    (hrun : Run kernelStep s₀ tr s) (hwake : Meets Wakeful tr) {x : ℕ}
    (hx : s.status x = .sleeping) : HasWaker s x := by
  obtain ⟨hids, hst⟩ := boot_table hlen hboot
  have h₀ : WakeInv s₀ := ⟨hids, fun x hx => absurd hx (hst x)⟩
  exact (hrun.invariant (fun _ _ _ h hw hstep => h.step hw hstep) h₀ hwake).waker x hx

/-- The first environment touches a page that is being swapped. -/
def faultOnce : List Label :=
  [.at 0 .sched 1, .at 0 .pop 1, .at 0 .trap 1, .at 0 (.dispatch (.pageFault .beingSwapped)) 1]

/-- It then sleeps, and its bit of `drc_map` is set. -/
theorem no_lost_wakeup_first : ∃ s₀ s tr, Kernel.boot [.user] = Except.ok s₀ ∧
    Run kernelStep s₀ tr s ∧ Meets Wakeful tr ∧ s.status 2 = .sleeping ∧ HasWaker s 2 := by
  have hview : guardedRun Wakeful [.user] faultOnce (fun s => s.status 2) = some .sleeping := by
    decide +kernel
  obtain ⟨s₀, s, tr, hboot, hrun, hwake, hs⟩ := run_of_guardedRun hview
  exact ⟨s₀, s, tr, hboot, hrun, hwake, hs, no_lost_wakeup (by decide) hboot hrun hwake hs⟩

/-- Memory is short when the processor then halts: `sched_halt` makes the environment runnable
without clearing `drc_map`, and the environment runs into the same page again. -/
def faultTwice : List Label :=
  faultOnce ++ [⟨0, .tail, ⟨2, 2, .resume, .reclaim [2]⟩⟩, .at 0 .sched 3, .at 0 .pop 3,
    .at 0 .trap 3, .at 0 (.dispatch (.pageFault .beingSwapped)) 3]

/-- **A wake-up is lost**: the bit is toggled twice, and nothing will wake the environment. -/
theorem wakeup_lost : ¬ ∀ (types : List EnvType) (s₀ s : Kernel) (tr : List (Kernel × Label)),
    Kernel.boot types = Except.ok s₀ → Run kernelStep s₀ tr s →
      ∀ x, s.status x = .sleeping → HasWaker s x := by
  intro h
  have hview : bootRun [.user] faultTwice (fun s => (s.status 2, getBit s.drcMap 2,
      s.tList.map (·.fptr), (s.envs 2).waitId, s.status 1023)) =
      some (.sleeping, false, [.pageOut], -1, .free) := by decide +kernel
  obtain ⟨s₀, s, tr, hboot, hrun, htr, hs⟩ := run_of_bootRun hview
  simp only [Prod.mk.injEq] at hs
  obtain ⟨hst, hbit, htask, hwait, hlast⟩ := hs
  have halloc : Meets AllocOk tr := by
    intro p hp hact
    have hmem : p.2 ∈ faultTwice := by
      rw [← htr]
      exact List.mem_map_of_mem hp
    have hnone : ∀ a ∈ faultTwice, allocates a.act = false := by decide
    rw [hnone p.2 hmem] at hact
    exact absurd hact (by simp)
  have hids := idsInv_of_run (by decide) hboot hrun halloc
  rcases h _ s₀ s tr hboot hrun 2 hst with hb | ⟨τ, hτ, hf, -⟩ | ⟨y, hy, hid⟩
  · rw [hbit] at hb
    exact absurd hb (by simp)
  · have hmem : TaskletFn.pageIn ∈ s.tList.map (·.fptr) := by
      rw [← hf]
      exact List.mem_map_of_mem hτ
    rw [htask] at hmem
    exact absurd hmem (by simp)
  · -- the id that the environment waits for would belong to the last slot
    have hslot := (hids.named y (hids.live y hy)).2
    rw [hid, hwait] at hslot
    have hy' : y = 1023 := hslot.symm.trans (by decide)
    rw [hy'] at hy
    exact hy hlast

end Jos
