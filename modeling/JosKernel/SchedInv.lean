/-
**The invariant of the scheduler.**

Who runs where is decided by `env_status` and each processor's `curenv`, and the two have to agree:
no two processors share a `curenv`, an environment that a processor holds is neither runnable nor
free, and one that is running or dying is held by somebody.  While a processor is inside a critical
section its own environment may be out of step; `Jos.LaxInv` is the invariant with that one
exception, `Jos.SchedInv` is what holds between critical sections.

The code does not keep the invariant by itself.  `Jos.FreeQuiet`, `Jos.Calm` and `Jos.Fresh` say
what has to be true before an environment is freed, before the sleepers are resumed and before the
scheduler looks at `env_cpunum`.

Main definitions:

* `Jos.LaxInv`, `Jos.SchedInv` — the invariant;
* `Jos.Target` — what makes an environment safe to run on a processor.

Main results:

* `Jos.LaxInv.envFree`, `Jos.LaxInv.leave`, `Jos.LaxInv.attach` — the steps of a switch;
* `Jos.LaxInv.envRun` — `env_run` on a safe target;
* `Jos.LaxInv.schedPick` — the scheduler picks a safe target.
-/

import JosKernel.Outcome
import JosKernel.Sched

set_option relaxedAutoImplicit false
set_option autoImplicit false

namespace Jos

open Outcome

/-! ### Reading a changed state -/

namespace Kernel

variable (s : Kernel) (c d x y : ℕ)

@[simp] theorem curenv_modEnv (f : Env → Env) : (s.modEnv x f).curenv d = s.curenv d := rfl

@[simp] theorem curenv_setStatus (st : EnvStatus) : (s.setStatus x st).curenv d = s.curenv d := rfl

@[simp] theorem curenv_setPc (pc : Pc) : (s.setPc c pc).curenv d = s.curenv d := by
  by_cases h : d = c
  · subst h
    simp [curenv, setPc]
  · simp [curenv, setPc, Function.update_of_ne h]

theorem curenv_setCurenv (e : Option ℕ) :
    (s.setCurenv c e).curenv d = if d = c then e else s.curenv d := by
  by_cases h : d = c
  · subst h
    simp [curenv, setCurenv]
  · simp [curenv, setCurenv, h]

@[simp] theorem status_setCurenv (e : Option ℕ) : (s.setCurenv c e).status x = s.status x := rfl

@[simp] theorem status_setPc (pc : Pc) : (s.setPc c pc).status x = s.status x := rfl

theorem status_modEnv (f : Env → Env) :
    (s.modEnv y f).status x = if x = y then (f (s.envs y)).status else s.status x := by
  by_cases h : x = y
  · subst h
    simp [status, modEnv]
  · simp [status, modEnv, h]

theorem status_setStatus (st : EnvStatus) :
    (s.setStatus y st).status x = if x = y then st else s.status x := by
  rw [setStatus, status_modEnv]

theorem setCurenv_setCurenv (e e' : Option ℕ) :
    (s.setCurenv c e).setCurenv c e' = s.setCurenv c e' := by
  simp [setCurenv]

end Kernel

/-! ### The invariant -/

/-- The kernel threads stay in their slots: they are never freed, killed or put to sleep. -/
structure Kthreads (s : Kernel) : Prop where
  type : ∀ x < nKThreads, (s.envs x).type = .kernel
  parent : ∀ x < nKThreads, (s.envs x).parentId = 0
  status : ∀ x < nKThreads, s.status x = .runnable ∨ s.status x = .running
  unlisted : ∀ x ∈ s.envFreeList, nKThreads ≤ x
  ids : ∀ x, s.status x ≠ .free → (s.envs x).envId ≠ 0

/-- The table keeps the identity of every environment. -/
def SameIds (s t : Kernel) : Prop :=
  ∀ x, (t.envs x).type = (s.envs x).type ∧ (t.envs x).parentId = (s.envs x).parentId ∧
    (t.envs x).envId = (s.envs x).envId

theorem Kthreads.congr {s t : Kernel} (h : Kthreads s) (hids : SameIds s t)
    (hst : ∀ x < nKThreads, t.status x = .runnable ∨ t.status x = .running)
    (hfree : ∀ x, t.status x ≠ .free → s.status x ≠ .free)
    (hlist : ∀ x ∈ t.envFreeList, nKThreads ≤ x) : Kthreads t where
  type x hx := by rw [(hids x).1]; exact h.type x hx
  parent x hx := by rw [(hids x).2.1]; exact h.parent x hx
  status := hst
  unlisted := hlist
  ids x hx := by rw [(hids x).2.2]; exact h.ids x (hfree x hx)

/-- **The invariant inside a critical section** of processor `c`, whose own environment may be
runnable. -/
structure LaxInv (c : ℕ) (s : Kernel) : Prop where
  inj : ∀ d d' x, s.curenv d = some x → s.curenv d' = some x → d = d'
  busy : ∀ d x, s.curenv d = some x → s.status x ≠ .free ∧ (d ≠ c → s.status x ≠ .runnable)
  live : ∀ x, s.status x = .running ∨ s.status x = .dying → ∃ d, s.curenv d = some x
  nodup : s.envFreeList.Nodup
  unused : ∀ x ∈ s.envFreeList, s.status x = .free
  safe : ∀ ev ∈ s.freed, ∀ d ≠ ev.cpu, ev.curenvs d ≠ some ev.slot
  kthreads : Kthreads s

/-- **The invariant between critical sections.** -/
structure SchedInv (s : Kernel) : Prop where
  lax : ∀ c, LaxInv c s
  strict : ∀ d x, s.curenv d = some x → s.status x ≠ .runnable

theorem LaxInv.toSchedInv {c : ℕ} {s : Kernel} (h : LaxInv c s)
    (hown : ∀ x, s.curenv c = some x → s.status x ≠ .runnable) : SchedInv s := by
  have hstrict : ∀ d x, s.curenv d = some x → s.status x ≠ .runnable := by
    intro d x hd
    by_cases hdc : d = c
    · rw [hdc] at hd
      exact hown x hd
    · exact (h.busy d x hd).2 hdc
  refine ⟨fun c' => ?_, hstrict⟩
  exact ⟨h.inj, fun d x hd => ⟨(h.busy d x hd).1, fun _ => hstrict d x hd⟩, h.live, h.nodup,
    h.unused, h.safe, h.kthreads⟩

/-- `t` looks like `s` to the invariant. -/
structure SameView (s t : Kernel) : Prop where
  curenv : ∀ d, t.curenv d = s.curenv d
  status : ∀ x, t.status x = s.status x
  freeList : t.envFreeList = s.envFreeList
  freed : t.freed = s.freed
  ids : SameIds s t

theorem LaxInv.congr {c : ℕ} {s t : Kernel} (h : LaxInv c s) (hv : SameView s t) : LaxInv c t where
  inj d d' x hd hd' := by
    rw [hv.curenv] at hd hd'
    exact h.inj d d' x hd hd'
  busy d x hd := by
    rw [hv.curenv] at hd
    rw [hv.status]
    exact h.busy d x hd
  live x hx := by
    rw [hv.status] at hx
    simp only [hv.curenv]
    exact h.live x hx
  nodup := by rw [hv.freeList]; exact h.nodup
  unused x hx := by
    rw [hv.freeList] at hx
    rw [hv.status]
    exact h.unused x hx
  safe := by rw [hv.freed]; exact h.safe
  kthreads := by
    refine h.kthreads.congr hv.ids ?_ ?_ ?_
    · intro x hx
      rw [hv.status]
      exact h.kthreads.status x hx
    · intro x hx
      rwa [hv.status] at hx
    · rw [hv.freeList]
      exact h.kthreads.unlisted

theorem SchedInv.congr {s t : Kernel} (h : SchedInv s) (hv : SameView s t) : SchedInv t := by
  refine ⟨fun c => (h.lax c).congr hv, fun d x hd => ?_⟩
  rw [hv.curenv] at hd
  rw [hv.status]
  exact h.strict d x hd

/-- The identity of the environments survives a change of one of them that keeps its identity. -/
theorem SameIds.modEnv (s : Kernel) (y : ℕ) {f : Env → Env}
    (hf : ∀ e, (f e).type = e.type ∧ (f e).parentId = e.parentId ∧ (f e).envId = e.envId) :
    SameIds s (s.modEnv y f) := by
  intro x
  by_cases h : x = y
  · subst h
    simp only [Kernel.modEnv, Function.update_self]
    exact hf _
  · simp [Kernel.modEnv, Function.update_of_ne h]

/-- A change of the scheduling data of an environment is invisible. -/
theorem SameView.modEnv (s : Kernel) (y : ℕ) {f : Env → Env}
    (hf : (f (s.envs y)).status = s.status y)
    (hids : ∀ e, (f e).type = e.type ∧ (f e).parentId = e.parentId ∧ (f e).envId = e.envId) :
    SameView s (s.modEnv y f) where
  curenv _ := rfl
  status x := by
    rw [Kernel.status_modEnv]
    by_cases h : x = y
    · rw [if_pos h, hf, h]
    · rw [if_neg h]
  freeList := rfl
  freed := rfl
  ids := SameIds.modEnv s y hids

theorem SameView.setPc (s : Kernel) (c : ℕ) (pc : Pc) : SameView s (s.setPc c pc) :=
  ⟨fun d => s.curenv_setPc c d pc, fun _ => rfl, rfl, rfl, fun _ => ⟨rfl, rfl, rfl⟩⟩

/-! ### Changing one status -/

/-- The status of an environment becomes one that nobody minds: it is not free, and when it becomes
runnable no other processor holds it, when it becomes running or dying somebody does. -/
theorem LaxInv.setStatus {c : ℕ} {s : Kernel} (h : LaxInv c s) {y : ℕ} {st : EnvStatus}
    (hy : s.status y ≠ .free) (hst : st ≠ .free)
    (hrun : st = .runnable → ∀ d ≠ c, s.curenv d ≠ some y)
    (hlive : st = .running ∨ st = .dying → ∃ d, s.curenv d = some y)
    (hk : y < nKThreads → st = .runnable ∨ st = .running) :
    LaxInv c (s.setStatus y st) where
  inj := h.inj
  busy d x hd := by
    rw [Kernel.curenv_setStatus] at hd
    rw [Kernel.status_setStatus]
    by_cases hxy : x = y
    · subst hxy
      rw [if_pos rfl]
      exact ⟨hst, fun hdc heq => hrun heq d hdc hd⟩
    · rw [if_neg hxy]
      exact h.busy d x hd
  live x hx := by
    rw [Kernel.status_setStatus] at hx
    by_cases hxy : x = y
    · rw [if_pos hxy] at hx
      rw [hxy]
      exact hlive hx
    · rw [if_neg hxy] at hx
      exact h.live x hx
  nodup := h.nodup
  unused x hx := by
    rw [Kernel.status_setStatus]
    by_cases hxy : x = y
    · rw [hxy] at hx
      exact absurd (h.unused y hx) hy
    · rw [if_neg hxy]
      exact h.unused x hx
  safe := h.safe
  kthreads := by
    refine h.kthreads.congr (SameIds.modEnv s y fun _ => ⟨rfl, rfl, rfl⟩) ?_ ?_ h.kthreads.unlisted
    · intro x hx
      rw [Kernel.status_setStatus]
      by_cases hxy : x = y
      · rw [if_pos hxy]
        rw [hxy] at hx
        exact hk hx
      · rw [if_neg hxy]
        exact h.kthreads.status x hx
    · intro x hx
      by_cases hxy : x = y
      · rw [hxy]
        exact hy
      · rwa [Kernel.status_setStatus, if_neg hxy] at hx

/-! ### Freeing an environment -/

/-- Freeing `y` wakes no environment that a processor holds. -/
def FreeQuiet (s : Kernel) (y : ℕ) : Prop :=
  ∀ d x, s.curenv d = some x → s.status x = .sleeping → (s.envs x).waitId ≠ (s.envs y).envId

theorem status_notify (s : Kernel) (id : BitVec 32) (x : ℕ) :
    (notifyWaiter id x (s.envs x)).status = s.status x ∨
      (s.status x = .sleeping ∧ (s.envs x).waitId = id ∧
        (notifyWaiter id x (s.envs x)).status = .runnable) := by
  unfold notifyWaiter
  split
  · rename_i h
    exact Or.inr ⟨h.2.1, h.2.2, rfl⟩
  · exact Or.inl rfl

/-- The status of a slot after `env_free(y)`. -/
theorem status_envFree (s : Kernel) (c y x : ℕ) :
    (envFree s c y).status x = if x = y then .free
      else (notifyWaiter (s.envs y).envId x (s.envs x)).status := by
  unfold envFree
  exact Kernel.status_setStatus _ x y .free

theorem sameIds_envFree (s : Kernel) (c y : ℕ) : SameIds s (envFree s c y) := by
  intro x
  have hnotify : ∀ e : Env, (notifyWaiter (s.envs y).envId x e).type = e.type ∧
      (notifyWaiter (s.envs y).envId x e).parentId = e.parentId ∧
      (notifyWaiter (s.envs y).envId x e).envId = e.envId := by
    intro e
    unfold notifyWaiter
    split <;> exact ⟨rfl, rfl, rfl⟩
  unfold envFree
  by_cases hxy : x = y
  · subst hxy
    simp only [Kernel.setStatus, Kernel.modEnv, Function.update_self]
    exact hnotify _
  · simp only [Kernel.setStatus, Kernel.modEnv, Function.update_of_ne hxy]
    exact hnotify _

@[simp] theorem curenv_envFree (s : Kernel) (c y d : ℕ) :
    (envFree s c y).curenv d = s.curenv d := rfl

/-- **`env_free(y)`** when no other processor holds `y`: once the processor itself does not hold it
any more, the invariant is back. -/
theorem LaxInv.envFree {c : ℕ} {s : Kernel} (h : LaxInv c s) {y : ℕ} {o : Option ℕ}
    (hy : s.status y ≠ .free) (hky : nKThreads ≤ y) (hother : ∀ d ≠ c, s.curenv d ≠ some y)
    (hquiet : FreeQuiet s y)
    (ho : (o = none ∧ s.curenv c = some y) ∨ (o = s.curenv c ∧ s.curenv c ≠ some y)) :
    LaxInv c ((envFree s c y).setCurenv c o) := by
  -- the environments that a processor still holds keep their status
  have hcur : ∀ d x, ((Jos.envFree s c y).setCurenv c o).curenv d = some x →
      s.curenv d = some x ∧ x ≠ y ∧ (Jos.envFree s c y).status x = s.status x := by
    intro d x hd
    rw [Kernel.curenv_setCurenv, curenv_envFree] at hd
    have hdx : s.curenv d = some x ∧ x ≠ y := by
      by_cases hdc : d = c
      · rw [if_pos hdc] at hd
        rcases ho with ⟨ho, -⟩ | ⟨ho, hne⟩
        · rw [ho] at hd
          exact absurd hd (by simp)
        · rw [ho] at hd
          rw [hdc]
          refine ⟨hd, ?_⟩
          rintro rfl
          exact hne hd
      · rw [if_neg hdc] at hd
        refine ⟨hd, ?_⟩
        rintro rfl
        exact hother d hdc hd
    refine ⟨hdx.1, hdx.2, ?_⟩
    rw [status_envFree, if_neg hdx.2]
    rcases status_notify s (s.envs y).envId x with hsame | ⟨hsl, hw, -⟩
    · exact hsame
    · exact absurd hw (hquiet d x hdx.1 hsl)
  refine
    { inj := ?_, busy := ?_, live := ?_, nodup := ?_, unused := ?_, safe := ?_, kthreads := ?_ }
  · intro d d' x hd hd'
    exact h.inj d d' x (hcur d x hd).1 (hcur d' x hd').1
  · intro d x hd
    obtain ⟨hd', -, hst⟩ := hcur d x hd
    rw [Kernel.status_setCurenv, hst]
    exact h.busy d x hd'
  · intro x hx
    rw [Kernel.status_setCurenv, status_envFree] at hx
    by_cases hxy : x = y
    · simp [hxy] at hx
    · rw [if_neg hxy] at hx
      have hsame : (notifyWaiter (s.envs y).envId x (s.envs x)).status = s.status x := by
        rcases status_notify s (s.envs y).envId x with hsame | ⟨-, -, hrun⟩
        · exact hsame
        · rw [hrun] at hx
          simp at hx
      rw [hsame] at hx
      obtain ⟨d, hd⟩ := h.live x hx
      refine ⟨d, ?_⟩
      rw [Kernel.curenv_setCurenv, curenv_envFree]
      by_cases hdc : d = c
      · rw [if_pos hdc]
        rw [hdc] at hd
        rcases ho with ⟨-, hc⟩ | ⟨ho, -⟩
        · rw [hc, Option.some_inj] at hd
          exact absurd hd.symm hxy
        · rw [ho, hd]
      · rw [if_neg hdc]
        exact hd
  · refine List.nodup_cons.2 ⟨?_, h.nodup⟩
    intro hmem
    exact hy (h.unused y hmem)
  · intro x hx
    rw [Kernel.status_setCurenv, status_envFree]
    by_cases hxy : x = y
    · rw [if_pos hxy]
    · rw [if_neg hxy]
      have hmem : x ∈ s.envFreeList := (List.mem_cons.1 hx).resolve_left hxy
      rcases status_notify s (s.envs y).envId x with hsame | ⟨hsl, -, -⟩
      · rw [hsame]
        exact h.unused x hmem
      · rw [h.unused x hmem] at hsl
        exact absurd hsl (by simp)
  · intro ev hev
    rcases List.mem_cons.1 hev with rfl | hev
    · exact hother
    · exact h.safe ev hev
  · refine h.kthreads.congr (sameIds_envFree s c y) ?_ ?_ ?_
    · intro x hx
      rw [Kernel.status_setCurenv, status_envFree, if_neg (by omega)]
      have hst := h.kthreads.status x hx
      rcases status_notify s (s.envs y).envId x with hsame | ⟨hsl, -, -⟩
      · rw [hsame]
        exact hst
      · rw [hsl] at hst
        simp at hst
    · intro x hx
      rw [Kernel.status_setCurenv, status_envFree] at hx
      by_cases hxy : x = y
      · rw [hxy]
        exact hy
      · rw [if_neg hxy] at hx
        rcases status_notify s (s.envs y).envId x with hsame | ⟨hsl, -, -⟩
        · rwa [hsame] at hx
        · rw [hsl]
          simp
    · intro x hx
      rcases List.mem_cons.1 hx with rfl | hx
      · exact hky
      · exact h.kthreads.unlisted x hx

/-! ### Switching -/

/-- An environment that processor `c` can run: it is runnable or running, no other processor holds
it, and the processor itself does so only while it is running. -/
structure Target (s : Kernel) (c e : ℕ) : Prop where
  ready : s.status e = .runnable ∨ s.status e = .running
  alone : ∀ d ≠ c, s.curenv d ≠ some e
  own : s.curenv c = some e → s.status e = .running

theorem Target.congr {s t : Kernel} {c e : ℕ} (h : Target s c e) (hv : SameView s t) :
    Target t c e where
  ready := by rw [hv.status]; exact h.ready
  alone d hd := by rw [hv.curenv]; exact h.alone d hd
  own hc := by
    rw [hv.curenv] at hc
    rw [hv.status]
    exact h.own hc

/-- A processor that holds nothing takes an environment that nobody holds. -/
theorem LaxInv.attach {c : ℕ} {s : Kernel} (h : LaxInv c s) (hc : s.curenv c = none) {e : ℕ}
    (he : s.status e ≠ .free) (halone : ∀ d, s.curenv d ≠ some e) :
    SchedInv (((s.setCurenv c (some e)).setStatus e .running).setPc c .entering) := by
  refine SchedInv.congr ?_ (SameView.setPc _ c .entering)
  have hlax : LaxInv c ((s.setCurenv c (some e)).setStatus e .running) := by
    refine
      { inj := ?_, busy := ?_, live := ?_, nodup := h.nodup, unused := ?_, safe := h.safe,
        kthreads := ?_ }
    · intro d d' x hd hd'
      rw [Kernel.curenv_setStatus, Kernel.curenv_setCurenv] at hd hd'
      by_cases h₁ : d = c <;> by_cases h₂ : d' = c
      · rw [h₁, h₂]
      · rw [if_pos h₁, Option.some_inj] at hd
        rw [if_neg h₂] at hd'
        subst hd
        exact absurd hd' (halone d')
      · rw [if_neg h₁] at hd
        rw [if_pos h₂, Option.some_inj] at hd'
        subst hd'
        exact absurd hd (halone d)
      · rw [if_neg h₁] at hd
        rw [if_neg h₂] at hd'
        exact h.inj d d' x hd hd'
    · intro d x hd
      rw [Kernel.curenv_setStatus, Kernel.curenv_setCurenv] at hd
      rw [Kernel.status_setStatus, Kernel.status_setCurenv]
      by_cases hxe : x = e
      · simp [hxe]
      · rw [if_neg hxe]
        by_cases hdc : d = c
        · rw [if_pos hdc, Option.some_inj] at hd
          exact absurd hd.symm hxe
        · rw [if_neg hdc] at hd
          exact h.busy d x hd
    · intro x hx
      rw [Kernel.status_setStatus, Kernel.status_setCurenv] at hx
      by_cases hxe : x = e
      · exact ⟨c, by rw [Kernel.curenv_setStatus, Kernel.curenv_setCurenv, if_pos rfl, hxe]⟩
      · rw [if_neg hxe] at hx
        obtain ⟨d, hd⟩ := h.live x hx
        refine ⟨d, ?_⟩
        have hdc : d ≠ c := by
          rintro rfl
          rw [hc] at hd
          exact absurd hd (by simp)
        rw [Kernel.curenv_setStatus, Kernel.curenv_setCurenv, if_neg hdc]
        exact hd
    · intro x hx
      rw [Kernel.status_setStatus, Kernel.status_setCurenv]
      by_cases hxe : x = e
      · rw [hxe] at hx
        exact absurd (h.unused e hx) he
      · rw [if_neg hxe]
        exact h.unused x hx
    · have hids : SameIds s ((s.setCurenv c (some e)).setStatus e .running) :=
        SameIds.modEnv s e (f := fun env => { env with status := .running }) fun _ =>
          ⟨rfl, rfl, rfl⟩
      refine h.kthreads.congr hids ?_ ?_ h.kthreads.unlisted
      · intro x hx
        rw [Kernel.status_setStatus, Kernel.status_setCurenv]
        by_cases hxe : x = e
        · simp [hxe]
        · rw [if_neg hxe]
          exact h.kthreads.status x hx
      · intro x hx
        by_cases hxe : x = e
        · rw [hxe]
          exact he
        · rwa [Kernel.status_setStatus, Kernel.status_setCurenv, if_neg hxe] at hx
  refine hlax.toSchedInv fun x hx => ?_
  rw [Kernel.curenv_setStatus, Kernel.curenv_setCurenv, if_pos rfl, Option.some_inj] at hx
  rw [Kernel.status_setStatus, if_pos hx.symm]
  simp

/-- A processor lets go of an environment that is neither running nor dying. -/
theorem LaxInv.drop {c : ℕ} {s : Kernel} (h : LaxInv c s)
    (hst : ∀ x, s.curenv c = some x → s.status x ≠ .running ∧ s.status x ≠ .dying) :
    LaxInv c (s.setCurenv c none) := by
  refine
    { inj := ?_, busy := ?_, live := ?_, nodup := h.nodup, unused := h.unused, safe := h.safe,
      kthreads := h.kthreads.congr (fun _ => ⟨rfl, rfl, rfl⟩) h.kthreads.status
        (fun _ hx => hx) h.kthreads.unlisted }
  · intro d d' x hd hd'
    rw [Kernel.curenv_setCurenv] at hd hd'
    split at hd
    · exact absurd hd (by simp)
    · split at hd'
      · exact absurd hd' (by simp)
      · exact h.inj d d' x hd hd'
  · intro d x hd
    rw [Kernel.curenv_setCurenv] at hd
    split at hd
    · exact absurd hd (by simp)
    · exact h.busy d x hd
  · intro x hx
    rw [Kernel.status_setCurenv] at hx
    obtain ⟨d, hd⟩ := h.live x hx
    refine ⟨d, ?_⟩
    have hdc : d ≠ c := by
      rintro rfl
      rcases hx with hx | hx
      · exact (hst x hd).1 hx
      · exact (hst x hd).2 hx
    rw [Kernel.curenv_setCurenv, if_neg hdc]
    exact hd

/-- What `env_run` does with the environment that it leaves. -/
theorem envLeave_cases {s s₁ : Kernel} {c old : ℕ} (hl : envLeave s c old = Except.ok s₁) :
    (s.status old = .running ∧ s₁ = s.setStatus old .runnable) ∨
    (s.status old = .dying ∧ s₁ = envFree s c old) ∨
      (s.status old = .sleeping ∧ s₁ = s) := by
  unfold envLeave at hl
  cases hst : s.status old with
  | running =>
      rw [hst] at hl
      exact Or.inl ⟨rfl, (Except.ok.inj hl).symm⟩
  | dying =>
      rw [hst] at hl
      exact Or.inr (Or.inl ⟨rfl, (Except.ok.inj hl).symm⟩)
  | sleeping =>
      rw [hst] at hl
      exact Or.inr (Or.inr ⟨rfl, (Except.ok.inj hl).symm⟩)
  | _ =>
      rw [hst] at hl
      exact absurd hl (by simp [throw, throwThe, MonadExceptOf.throw])

/-- What `env_run` does: it goes on with the environment it has, or leaves it and takes the new
one. -/
theorem envRun_cases {s t : Kernel} {c e : ℕ} (hr : envRun s c e = Except.ok t) :
    (s.curenv c = some e ∧ t = s.setPc c .entering) ∨ (s.curenv c ≠ some e ∧ ∃ s₁,
      t = ((s₁.setCurenv c (some e)).setStatus e .running).setPc c .entering ∧
        ((s.curenv c = none ∧ s₁ = s) ∨ ∃ old, s.curenv c = some old ∧
          envLeave s c old = Except.ok s₁)) := by
  unfold envRun at hr
  by_cases hc : s.curenv c = some e
  · rw [if_pos hc] at hr
    exact Or.inl ⟨hc, (Except.ok.inj hr).symm⟩
  · rw [if_neg hc] at hr
    refine Or.inr ⟨hc, ?_⟩
    cases hcur : s.curenv c with
    | none =>
        rw [hcur] at hr
        exact ⟨s, (Except.ok.inj hr).symm, Or.inl ⟨rfl, rfl⟩⟩
    | some old =>
        rw [hcur] at hr
        obtain ⟨s₁, hl, hr⟩ := bind_eq_ok.1 hr
        exact ⟨s₁, (Except.ok.inj hr).symm, Or.inr ⟨old, rfl, hl⟩⟩

/-- The environment that a processor leaves is put back, and the processor holds nothing. -/
theorem LaxInv.leave {c : ℕ} {s s₁ : Kernel} (h : LaxInv c s) {old : ℕ}
    (hold : s.curenv c = some old) (hquiet : s.status old = .dying → FreeQuiet s old)
    (hl : envLeave s c old = Except.ok s₁) :
    LaxInv c (s₁.setCurenv c none) ∧ (∀ d, s₁.curenv d = s.curenv d) ∧
      ∀ x, s.status x = .runnable ∨ s.status x = .running → x ≠ old →
        s₁.status x = s.status x := by
  have hother : ∀ d ≠ c, s.curenv d ≠ some old := by
    intro d hdc hd
    exact hdc (h.inj d c old hd hold)
  obtain ⟨hst, rfl⟩ | ⟨hst, rfl⟩ | ⟨hst, rfl⟩ := envLeave_cases hl
  · refine ⟨LaxInv.drop ?_ ?_, fun _ => rfl, ?_⟩
    · exact h.setStatus (by simp [hst]) (by simp) (fun _ => hother) (by simp) fun _ => Or.inl rfl
    · intro x hx
      rw [Kernel.curenv_setStatus, hold, Option.some_inj] at hx
      simp [Kernel.status_setStatus, hx]
    · intro x _ hx
      rw [Kernel.status_setStatus, if_neg hx]
  · refine ⟨?_, fun _ => rfl, ?_⟩
    · have hky : nKThreads ≤ old := by
        by_contra hlt
        have hk := h.kthreads.status old (by omega)
        rw [hst] at hk
        simp at hk
      exact h.envFree (by simp [hst]) hky hother (hquiet hst) (Or.inl ⟨rfl, hold⟩)
    · intro x hx hne
      rw [status_envFree, if_neg hne]
      rcases status_notify s (s.envs old).envId x with hsame | ⟨hsl, -, -⟩
      · exact hsame
      · rw [hsl] at hx
        simp at hx
  · refine ⟨h.drop fun x hx => ?_, fun _ => rfl, fun _ _ _ => rfl⟩
    rw [hold, Option.some_inj] at hx
    simp [← hx, hst]

/-- **`env_run` on a safe target** restores the invariant. -/
theorem LaxInv.envRun {c : ℕ} {s t : Kernel} (h : LaxInv c s) {e : ℕ} (he : Target s c e)
    (hquiet : ∀ old, s.curenv c = some old → s.status old = .dying → FreeQuiet s old)
    (hr : envRun s c e = Except.ok t) :
    SchedInv t ∧ t.curenv c = some e ∧ t.status e = .running := by
  obtain ⟨hc, rfl⟩ | ⟨hc, s₁, rfl, hleft⟩ := envRun_cases hr
  · refine ⟨(h.toSchedInv ?_).congr (SameView.setPc s c .entering), ?_, he.own hc⟩
    · intro x hx
      rw [hc, Option.some_inj] at hx
      rw [← hx, he.own hc]
      simp
    · rw [Kernel.curenv_setPc]
      exact hc
  · have halone : ∀ d, s.curenv d ≠ some e := by
      intro d hd
      by_cases hdc : d = c
      · rw [hdc] at hd
        exact hc hd
      · exact he.alone d hdc hd
    have hready : s.status e ≠ .free := by
      rcases he.ready with hst | hst <;> simp [hst]
    have hfinal : ∀ u : Kernel, LaxInv c (u.setCurenv c none) → (∀ d, u.curenv d = s.curenv d) →
        u.status e ≠ .free →
        SchedInv (((u.setCurenv c (some e)).setStatus e .running).setPc c .entering) := by
      intro u hu hcur hst
      have hatt := hu.attach (e := e) (by rw [Kernel.curenv_setCurenv, if_pos rfl]) hst (by
        intro d hd
        rw [Kernel.curenv_setCurenv] at hd
        split at hd
        · exact absurd hd (by simp)
        · rw [hcur] at hd
          exact halone d hd)
      rwa [Kernel.setCurenv_setCurenv] at hatt
    have hview : ∀ u : Kernel,
        (((u.setCurenv c (some e)).setStatus e .running).setPc c .entering).curenv c = some e ∧
        (((u.setCurenv c (some e)).setStatus e .running).setPc c .entering).status e =
          .running := by
      intro u
      rw [Kernel.curenv_setPc, Kernel.curenv_setStatus, Kernel.curenv_setCurenv,
        Kernel.status_setPc, Kernel.status_setStatus]
      simp
    rcases hleft with ⟨hcur, rfl⟩ | ⟨old, hcur, hl⟩
    · refine ⟨hfinal s₁ ?_ (fun _ => rfl) hready, hview s₁⟩
      refine h.congr ⟨fun d => ?_, fun _ => rfl, rfl, rfl, fun _ => ⟨rfl, rfl, rfl⟩⟩
      rw [Kernel.curenv_setCurenv]
      split
      · rename_i hdc
        rw [hdc, hcur]
      · rfl
    · obtain ⟨hlax, hcur₁, hst₁⟩ := h.leave hcur (hquiet old hcur) hl
      refine ⟨hfinal s₁ hlax hcur₁ ?_, hview s₁⟩
      have hne : e ≠ old := by
        rintro rfl
        exact hc hcur
      rw [hst₁ e he.ready hne]
      exact hready

/-- **The end of `sched_halt`** restores the invariant: the environment that is given up becomes
runnable, and nobody else holds it. -/
theorem LaxInv.schedHalt {c : ℕ} {s : Kernel} (h : LaxInv c s) : SchedInv (schedHalt s c) := by
  have hnone : ∀ t : Kernel, LaxInv c (t.setCurenv c none) →
      SchedInv ((t.setCurenv c none).setPc c .halted) := by
    intro t ht
    refine (ht.toSchedInv fun x hx => ?_).congr (SameView.setPc _ c .halted)
    rw [Kernel.curenv_setCurenv, if_pos rfl] at hx
    exact absurd hx (by simp)
  unfold Jos.schedHalt
  cases hc : s.curenv c with
  | none =>
      refine hnone s (h.drop fun x hx => ?_)
      rw [hc] at hx
      exact absurd hx (by simp)
  | some x =>
      refine hnone _ (LaxInv.drop ?_ fun y hy => ?_)
      · refine h.setStatus (h.busy c x hc).1 (by simp) (fun _ d hdc hd => ?_) (by simp)
          fun _ => Or.inl rfl
        exact hdc (h.inj d c x hd hc)
      · rw [Kernel.curenv_setStatus, hc, Option.some_inj] at hy
        simp [Kernel.status_setStatus, hy]

/-! ### What the scheduler changes before it has chosen -/

/-- The sleepers that a processor holds are not due to be resumed. -/
def Calm (s : Kernel) (c : ℕ) (w : Work) : Prop :=
  w = .resume → ∀ d ≠ c, ∀ x, s.curenv d = some x → s.status x = .sleeping →
    getBit s.drcMap x = false

/-- An environment that another processor runs is not recorded as running on this one. -/
def Fresh (s : Kernel) (c : ℕ) : Prop :=
  ∀ d ≠ c, ∀ x, s.curenv d = some x → s.status x = .running → (s.envs x).cpunum ≠ c

/-- Time slices, `drc_map` and the tasklets may have changed, and sleepers may have been woken. -/
structure Settled (s t : Kernel) : Prop where
  cpus : t.cpus = s.cpus
  status : ∀ x, t.status x = s.status x ∨ (s.status x = .sleeping ∧ t.status x = .runnable)
  cpunum : ∀ x, (t.envs x).cpunum = (s.envs x).cpunum
  waitId : ∀ x, (t.envs x).waitId = (s.envs x).waitId
  ids : SameIds s t
  killed : t.killed = s.killed

theorem Settled.refl (s : Kernel) : Settled s s :=
  ⟨rfl, fun _ => Or.inl rfl, fun _ => rfl, fun _ => rfl, fun _ => ⟨rfl, rfl, rfl⟩, rfl⟩

theorem Settled.trans {s t u : Kernel} (h : Settled s t) (h' : Settled t u) : Settled s u where
  cpus := h'.cpus.trans h.cpus
  status x := by
    rcases h'.status x with he | ⟨hs, hr⟩
    · rw [he]
      exact h.status x
    · rcases h.status x with he' | ⟨-, hr'⟩
      · rw [he'] at hs
        exact Or.inr ⟨hs, hr⟩
      · rw [hr'] at hs
        exact absurd hs (by simp)
  cpunum x := (h'.cpunum x).trans (h.cpunum x)
  waitId x := (h'.waitId x).trans (h.waitId x)
  ids x := ⟨(h'.ids x).1.trans (h.ids x).1, (h'.ids x).2.1.trans (h.ids x).2.1,
    (h'.ids x).2.2.trans (h.ids x).2.2⟩
  killed := h'.killed.trans h.killed

theorem Settled.curenv {s t : Kernel} (h : Settled s t) (d : ℕ) : t.curenv d = s.curenv d := by
  rw [Kernel.curenv, h.cpus]
  rfl

/-- A status other than sleeping is not touched. -/
theorem Settled.status_eq {s t : Kernel} (h : Settled s t) {x : ℕ} (hx : s.status x ≠ .sleeping) :
    t.status x = s.status x := by
  rcases h.status x with he | ⟨hs, -⟩
  · exact he
  · exact absurd hs hx

theorem Settled.freeQuiet {s t : Kernel} (h : Settled s t) {y : ℕ} (hq : FreeQuiet s y) :
    FreeQuiet t y := by
  intro d x hd hst
  rw [h.curenv] at hd
  rw [h.waitId, (h.ids y).2.2]
  refine hq d x hd ?_
  rcases h.status x with he | ⟨hs, -⟩
  · rwa [he] at hst
  · exact hs

theorem Settled.fresh {s t : Kernel} (h : Settled s t) {c : ℕ} (hf : Fresh s c) : Fresh t c := by
  intro d hdc x hd hst
  rw [h.curenv] at hd
  rw [h.cpunum]
  refine hf d hdc x hd ?_
  rcases h.status x with he | ⟨-, hr⟩
  · rwa [he] at hst
  · rw [hr] at hst
    exact absurd hst (by simp)

/-- A new time slice. -/
theorem Settled.timeSlice (s : Kernel) (x : ℕ) (f : Env → BitVec 64) :
    Settled s (s.modEnv x fun e => { e with timeSlice := f e }) where
  cpus := rfl
  status y := Or.inl ((SameView.modEnv s x (f := fun e => { e with timeSlice := f e }) rfl
    fun _ => ⟨rfl, rfl, rfl⟩).status y)
  cpunum y := by
    by_cases hy : y = x
    · subst hy
      simp [Kernel.modEnv]
    · simp [Kernel.modEnv, Function.update_of_ne hy]
  waitId y := by
    by_cases hy : y = x
    · subst hy
      simp [Kernel.modEnv]
    · simp [Kernel.modEnv, Function.update_of_ne hy]
  ids := SameIds.modEnv s x fun _ => ⟨rfl, rfl, rfl⟩
  killed := rfl

theorem sameView_timeSlice (s : Kernel) (x : ℕ) (f : Env → BitVec 64) :
    SameView s (s.modEnv x fun e => { e with timeSlice := f e }) :=
  SameView.modEnv s x rfl fun _ => ⟨rfl, rfl, rfl⟩

theorem Settled.chargeSlice (s : Kernel) (x : ℕ) (tick : BitVec 64) :
    Settled s (chargeSlice s x tick) := by
  have h := Settled.timeSlice s x fun e => e.timeSlice - calculateDelta tick s.lastTick
  exact ⟨h.cpus, h.status, h.cpunum, h.waitId, h.ids, h.killed⟩

theorem sameView_chargeSlice (s : Kernel) (x : ℕ) (tick : BitVec 64) :
    SameView s (chargeSlice s x tick) := by
  have h := sameView_timeSlice s x fun e => e.timeSlice - calculateDelta tick s.lastTick
  exact ⟨h.curenv, h.status, h.freeList, h.freed, h.ids⟩

/-! ### Kernel work -/

theorem status_resumeEnv (s : Kernel) (x : ℕ) :
    (resumeEnv s).status x = s.status x ∨
      (s.status x = .sleeping ∧ getBit s.drcMap x = true ∧ (resumeEnv s).status x = .runnable) := by
  by_cases h : s.status x = .sleeping ∧ x < nEnv ∧ getBit s.drcMap x = true
  · refine Or.inr ⟨h.1, h.2.2, ?_⟩
    have hcond : (s.envs x).status = .sleeping ∧ x < nEnv ∧ getBit s.drcMap x = true := h
    simp only [Kernel.status, resumeEnv, resumeOne, if_pos hcond]
  · refine Or.inl ?_
    have hcond : ¬ ((s.envs x).status = .sleeping ∧ x < nEnv ∧ getBit s.drcMap x = true) := h
    simp only [Kernel.status, resumeEnv, resumeOne, if_neg hcond]

theorem Settled.resumeEnv (s : Kernel) : Settled s (resumeEnv s) := by
  have hone : ∀ x, (resumeOne s.drcMap x (s.envs x)).cpunum = (s.envs x).cpunum ∧
      (resumeOne s.drcMap x (s.envs x)).waitId = (s.envs x).waitId ∧
      (resumeOne s.drcMap x (s.envs x)).type = (s.envs x).type ∧
      (resumeOne s.drcMap x (s.envs x)).parentId = (s.envs x).parentId ∧
      (resumeOne s.drcMap x (s.envs x)).envId = (s.envs x).envId := by
    intro x
    unfold resumeOne
    split <;> exact ⟨rfl, rfl, rfl, rfl, rfl⟩
  refine ⟨rfl, fun x => ?_, fun x => (hone x).1, fun x => (hone x).2.1, fun x => (hone x).2.2, rfl⟩
  rcases status_resumeEnv s x with he | ⟨hs, -, hr⟩
  · exact Or.inl he
  · exact Or.inr ⟨hs, hr⟩

/-- `resume_env` keeps the invariant when the sleepers that other processors hold are not due. -/
theorem LaxInv.resumeEnv {c : ℕ} {s : Kernel} (h : LaxInv c s) (hcalm : Calm s c .resume) :
    LaxInv c (resumeEnv s) := by
  have hset := Settled.resumeEnv s
  refine
    { inj := h.inj, busy := ?_, live := ?_, nodup := h.nodup, unused := ?_, safe := h.safe,
      kthreads := ?_ }
  · intro d x hd
    have hd' : s.curenv d = some x := hd
    rcases status_resumeEnv s x with he | ⟨hs, hbit, hr⟩
    · rw [he]
      exact h.busy d x hd'
    · rw [hr]
      refine ⟨by simp, fun hdc => ?_⟩
      rw [hcalm rfl d hdc x hd' hs] at hbit
      exact absurd hbit (by simp)
  · intro x hx
    rcases hset.status x with he | ⟨-, hr⟩
    · rw [he] at hx
      exact h.live x hx
    · rw [hr] at hx
      simp at hx
  · intro x hx
    have hfree := h.unused x hx
    rw [hset.status_eq (by simp [hfree])]
    exact hfree
  · refine h.kthreads.congr hset.ids ?_ ?_ h.kthreads.unlisted
    · intro x hx
      have hst := h.kthreads.status x hx
      rw [hset.status_eq (by rcases hst with hst | hst <;> simp [hst])]
      exact hst
    · intro x hx
      rcases hset.status x with he | ⟨hs, -⟩
      · rwa [he] at hx
      · simp [hs]

/-- The first half of `check_work`. -/
theorem LaxInv.relieve {c : ℕ} {s : Kernel} (h : LaxInv c s) {w : Work} (hcalm : Calm s c w) :
    LaxInv c (Jos.relieve s w) ∧ Settled s (Jos.relieve s w) := by
  cases w with
  | resume => exact ⟨h.resumeEnv hcalm, Settled.resumeEnv s⟩
  | reclaim requestors =>
      refine ⟨h.congr ⟨fun _ => rfl, fun _ => rfl, rfl, rfl, fun _ => ⟨rfl, rfl, rfl⟩⟩, ?_⟩
      exact ⟨rfl, fun _ => Or.inl rfl, fun _ => rfl, fun _ => rfl, fun _ => ⟨rfl, rfl, rfl⟩, rfl⟩

/-- A kernel thread that `check_work` finds. -/
theorem kthreadFor_spec {s : Kernel} {c k : ℕ} (hk : kthreadFor s c = some k) :
    k < nKThreads ∧ (s.status k = .runnable ∨ (s.status k = .running ∧ (s.envs k).cpunum = c)) := by
  have hmem := List.mem_of_find?_eq_some hk
  have hsat := List.find?_some hk
  exact ⟨List.mem_range.1 hmem, by simpa using hsat⟩

/-- What `check_work` does: the first half, and a new time slice for the kernel thread that it
runs. -/
theorem checkWork_cases {s s' : Kernel} {c : ℕ} {w : Work} {o : Option ℕ}
    (hr : checkWork s c w = (s', o)) :
    (o = none ∧ s' = relieve s w) ∨ ∃ k, o = some k ∧ kthreadFor (relieve s w) c = some k ∧
      s' = (relieve s w).modEnv k fun e => { e with timeSlice := tsDefault * 2 } := by
  unfold checkWork at hr
  dsimp only at hr
  split at hr
  · obtain ⟨rfl, rfl⟩ := Prod.mk.inj hr
    exact Or.inl ⟨rfl, rfl⟩
  · cases hk : kthreadFor (relieve s w) c with
    | none =>
        rw [hk] at hr
        obtain ⟨rfl, rfl⟩ := Prod.mk.inj hr
        exact Or.inl ⟨rfl, rfl⟩
    | some k =>
        rw [hk] at hr
        obtain ⟨rfl, rfl⟩ := Prod.mk.inj hr
        exact Or.inr ⟨k, rfl, rfl, rfl⟩

/-- **`check_work`** keeps the invariant, and a kernel thread that it runs is a safe target. -/
theorem LaxInv.checkWork {c : ℕ} {s s' : Kernel} {w : Work} {o : Option ℕ} (h : LaxInv c s)
    (hcalm : Calm s c w) (hfresh : Fresh s c)
    (hown : ∀ x, s.curenv c = some x → s.status x ≠ .runnable)
    (hr : checkWork s c w = (s', o)) :
    LaxInv c s' ∧ Settled s s' ∧ ∀ k, o = some k → Target s' c k := by
  obtain ⟨hlax, hset⟩ := h.relieve hcalm
  obtain ⟨rfl, rfl⟩ | ⟨k, rfl, hk, rfl⟩ := checkWork_cases hr
  · exact ⟨hlax, hset, fun k hk => absurd hk (by simp)⟩
  · generalize Jos.relieve s w = s₁ at hlax hset hk
    have hview := sameView_timeSlice s₁ k fun _ => tsDefault * 2
    refine ⟨hlax.congr hview, hset.trans (Settled.timeSlice s₁ k _), ?_⟩
    intro k' hk'
    obtain rfl := Option.some_inj.1 hk'
    obtain ⟨hlt, hst⟩ := kthreadFor_spec hk
    refine Target.congr ⟨?_, ?_, ?_⟩ hview
    · rcases hst with hst | ⟨hst, -⟩
      · exact Or.inl hst
      · exact Or.inr hst
    · intro d hdc hd
      rcases hst with hst | ⟨hst, hcpu⟩
      · exact (hlax.busy d k hd).2 hdc hst
      · exact hset.fresh hfresh d hdc k hd hst hcpu
    · intro hc
      rw [hset.curenv] at hc
      -- a kernel thread that the processor holds was running all the time
      have hrun : s.status k = .running :=
        (h.kthreads.status k hlt).resolve_left (hown k hc)
      rw [hset.status_eq (by simp [hrun])]
      exact hrun

/-! ### The choice -/

/-- What the loop of `runnable_env_lookup` finds. -/
theorem lookupLoop_spec {s : Kernel} {c lastIdx e : ℕ} : ∀ {fuel i : ℕ},
    lookupLoop s c lastIdx fuel i = Except.ok (some e) →
      s.status e = .runnable ∨
        (s.status e = .running ∧ (s.envs e).cpunum = c) ∧
          (s.envs e).envId = (s.envs lastIdx).envId := by
  intro fuel
  induction fuel with
  | zero => intro i h; exact absurd h (by simp [lookupLoop, throw, throwThe, MonadExceptOf.throw])
  | succ fuel ih =>
      intro i h
      simp only [lookupLoop] at h
      generalize (if i = nEnv then nKThreads else i) = j at h
      split at h
      · rename_i hcond
        obtain rfl := Option.some_inj.1 (Except.ok.inj h)
        exact Or.inl hcond.1
      · split at h
        · rename_i hid
          split at h
          · rename_i hcond
            obtain rfl := Option.some_inj.1 (Except.ok.inj h)
            exact Or.inr ⟨hcond, hid.1⟩
          · exact absurd (Except.ok.inj h) (by simp)
        · exact ih h

/-- An environment that `runnable_env_lookup` returns is a safe target. -/
theorem LaxInv.lookup_target {c i e : ℕ} {s : Kernel} (h : LaxInv c s) (hfresh : Fresh s c)
    (hown : ∀ x, s.curenv c = some x → s.status x ≠ .runnable)
    (hr : runnableEnvLookup s c i = Except.ok (some e)) : Target s c e := by
  have hst := lookupLoop_spec hr
  refine ⟨?_, ?_, ?_⟩
  · rcases hst with hst | ⟨⟨hst, -⟩, -⟩
    · exact Or.inl hst
    · exact Or.inr hst
  · intro d hdc hd
    rcases hst with hst | ⟨⟨hst, hcpu⟩, -⟩
    · exact (h.busy d e hd).2 hdc hst
    · exact hfresh d hdc e hd hst hcpu
  · intro hc
    rcases hst with hst | ⟨⟨hst, -⟩, -⟩
    · exact absurd hst (hown e hc)
    · exact hst

/-- What `sched_yield` needs of the state it is called in: no sleeper that another processor holds
is due to be resumed, no environment that another processor runs is recorded as running on this one,
and a zombie that is left behind wakes nobody who is held. -/
structure YieldOk (s : Kernel) (c : ℕ) (inp : SchedInput) : Prop where
  calm : Calm s c inp.work
  calmHalt : Calm s c inp.workHalt
  fresh : Fresh s c
  quiet : ∀ old, s.curenv c = some old → s.status old = .dying → FreeQuiet s old

/-- The sleepers that were not due are still not due after `check_work`. -/
theorem Calm.relieve {s : Kernel} {c : ℕ} {w w' : Work} (hw : Calm s c w) (hw' : Calm s c w') :
    Calm (Jos.relieve s w) c w' := by
  intro hres d hdc x hd hst
  cases w with
  | reclaim requestors => exact hw' hres d hdc x hd hst
  | resume =>
      have hsl : s.status x = .sleeping := by
        rcases (Settled.resumeEnv s).status x with he | ⟨hs, -⟩
        · exact he.symm.trans hst
        · exact hs
      have hbit := hw rfl d hdc x hd hsl
      simp only [Jos.relieve, Jos.resumeEnv]
      rw [getBit_clearBits, hbit, Bool.and_false]

theorem Calm.checkWork {s s' : Kernel} {c : ℕ} {w w' : Work} {o : Option ℕ} (hw : Calm s c w)
    (hw' : Calm s c w') (hr : checkWork s c w = (s', o)) : Calm s' c w' := by
  have hcalm := hw.relieve hw'
  obtain ⟨-, rfl⟩ | ⟨k, -, -, rfl⟩ := checkWork_cases hr
  · exact hcalm
  · intro hres d hdc x hd hst
    rw [(sameView_timeSlice (Jos.relieve s w) k fun _ => tsDefault * 2).status] at hst
    exact hcalm hres d hdc x hd hst

theorem LaxInv.schedHaltPick {c : ℕ} {s s' : Kernel} {inp : SchedInput} {o : Option ℕ}
    (h : LaxInv c s) (hcalm : Calm s c inp.workHalt) (hfresh : Fresh s c)
    (hown : ∀ x, s.curenv c = some x → s.status x ≠ .runnable)
    (hr : schedHaltPick s c inp = Except.ok (s', o)) :
    LaxInv c s' ∧ Settled s s' ∧ ∀ e, o = some e → Target s' c e := by
  unfold Jos.schedHaltPick at hr
  cases hwork : Jos.checkWork s c inp.workHalt with
  | mk s₁ o₁ =>
      have hspec := h.checkWork hcalm hfresh hown hwork
      simp only [hwork] at hr
      cases o₁ with
      | some k =>
          obtain ⟨rfl, rfl⟩ := Prod.mk.inj (Except.ok.inj hr)
          exact hspec
      | none =>
          dsimp only at hr
          split at hr
          · obtain ⟨rfl, rfl⟩ := Prod.mk.inj (Except.ok.inj hr)
            exact hspec
          · exact absurd hr (by simp [throw, throwThe, MonadExceptOf.throw])

theorem LaxInv.lookupPick {c i : ℕ} {s s' : Kernel} {inp : SchedInput} {o : Option ℕ}
    (h : LaxInv c s) (hcalm : Calm s c inp.workHalt) (hfresh : Fresh s c)
    (hown : ∀ x, s.curenv c = some x → s.status x ≠ .runnable)
    (hr : lookupPick s c i inp = Except.ok (s', o)) :
    LaxInv c s' ∧ Settled s s' ∧ ∀ e, o = some e → Target s' c e := by
  unfold Jos.lookupPick at hr
  obtain ⟨found, hfound, hr⟩ := bind_eq_ok.1 hr
  cases found with
  | none => exact h.schedHaltPick hcalm hfresh hown hr
  | some e =>
      obtain ⟨rfl, rfl⟩ := Prod.mk.inj (Except.ok.inj hr)
      have hview := sameView_timeSlice s e fun _ => tsDefault
      refine ⟨h.congr hview, Settled.timeSlice s e _, ?_⟩
      intro e' he'
      obtain rfl := Option.some_inj.1 he'
      exact (h.lookup_target hfresh hown hfound).congr hview

/-- **The scheduler picks a safe target**, and before it does so it disturbs nobody. -/
theorem LaxInv.schedPick {c : ℕ} {s s' : Kernel} {inp : SchedInput} {o : Option ℕ}
    (h : LaxInv c s) (hok : YieldOk s c inp)
    (hown : ∀ x, s.curenv c = some x → s.status x ≠ .runnable)
    (hr : schedPick s c inp = Except.ok (s', o)) :
    LaxInv c s' ∧ Settled s s' ∧ ∀ e, o = some e → Target s' c e := by
  unfold Jos.schedPick at hr
  cases hc : s.curenv c with
  | none =>
      rw [hc] at hr
      dsimp only at hr
      have hset : Settled s { s with lastTick := inp.tickAgain } :=
        ⟨rfl, fun _ => Or.inl rfl, fun _ => rfl, fun _ => rfl, fun _ => ⟨rfl, rfl, rfl⟩, rfl⟩
      have hlax : LaxInv c { s with lastTick := inp.tickAgain } :=
        h.congr ⟨fun _ => rfl, fun _ => rfl, rfl, rfl, fun _ => ⟨rfl, rfl, rfl⟩⟩
      obtain ⟨h₁, h₂, h₃⟩ := hlax.lookupPick hok.calmHalt hok.fresh hown hr
      exact ⟨h₁, hset.trans h₂, h₃⟩
  | some x =>
      rw [hc] at hr
      dsimp only at hr
      split at hr
      · exact h.lookupPick hok.calmHalt hok.fresh hown hr
      · rename_i hnsl
        have hset₂ := Settled.chargeSlice s x inp.tick
        have hview₂ := sameView_chargeSlice s x inp.tick
        have hdrc : (chargeSlice s x inp.tick).drcMap = s.drcMap := rfl
        generalize chargeSlice s x inp.tick = s₂ at hset₂ hview₂ hdrc hr
        have hlax := h.congr hview₂
        have hcalm : ∀ w, Calm s c w → Calm s₂ c w := by
          intro w hw hres d hdc y hd hst
          rw [hset₂.curenv] at hd
          rw [hview₂.status] at hst
          rw [hdrc]
          exact hw hres d hdc y hd hst
        have hfresh := hset₂.fresh hok.fresh
        have hown₂ : ∀ y, s₂.curenv c = some y → s₂.status y ≠ .runnable := by
          intro y hy
          rw [hset₂.curenv] at hy
          rw [hview₂.status]
          exact hown y hy
        split at hr
        · -- the slice is not used up
          rename_i hslice
          obtain ⟨rfl, rfl⟩ := Prod.mk.inj (Except.ok.inj hr)
          refine ⟨hlax, hset₂, ?_⟩
          intro e he
          obtain rfl := Option.some_inj.1 he
          have hrun : s₂.status x = .running := by
            simp only [checkTimeSlice, decide_eq_true_eq] at hslice
            exact hslice.1
          refine ⟨Or.inr hrun, ?_, fun _ => hrun⟩
          intro d hdc hd
          rw [hset₂.curenv] at hd
          exact hdc (h.inj d c x hd hc)
        · split at hr
          · obtain ⟨h₁, h₂, h₃⟩ := hlax.lookupPick (hcalm _ hok.calmHalt) hfresh hown₂ hr
            exact ⟨h₁, hset₂.trans h₂, h₃⟩
          · cases hwork : Jos.checkWork s₂ c inp.work with
            | mk s₃ o₃ =>
                obtain ⟨h₁, h₂, h₃⟩ := hlax.checkWork (hcalm _ hok.calm) hfresh hown₂ hwork
                simp only [hwork] at hr
                cases o₃ with
                | some k =>
                    obtain ⟨rfl, rfl⟩ := Prod.mk.inj (Except.ok.inj hr)
                    exact ⟨h₁, hset₂.trans h₂, h₃⟩
                | none =>
                    have hcalm₃ := (hcalm _ hok.calm).checkWork (hcalm _ hok.calmHalt) hwork
                    have hown₃ : ∀ y, s₃.curenv c = some y → s₃.status y ≠ .runnable := by
                      intro y hy
                      rw [h₂.curenv] at hy
                      have hyx : y = x := by
                        rw [hset₂.curenv, hc, Option.some_inj] at hy
                        exact hy.symm
                      rw [h₂.status_eq (by rw [hview₂.status, hyx]; exact hnsl)]
                      exact hown₂ y hy
                    obtain ⟨h₄, h₅, h₆⟩ := h₁.lookupPick hcalm₃ (h₂.fresh hfresh) hown₃ hr
                    exact ⟨h₄, (hset₂.trans h₂).trans h₅, h₆⟩

end Jos
