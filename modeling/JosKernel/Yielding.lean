/-
**Giving up the processor.**

`invalidate_env_ts` marks a time slice as used up with the value `2 * TS_DEFAULT`, and
`check_time_slice` takes any value below `TS_DEFAULT` for time that is left. The time since the last
tick is taken off the mark first. After more than `TS_DEFAULT` and at most `2 * TS_DEFAULT` cycles
it has become a time slice.

Main definitions:

* `Jos.Invalidated` — an environment that runs, with its time slice marked as used up;
* `Jos.GivesUp` — the next `sched_yield` does not choose the environment that was running.

Main results:

* `Jos.runnableEnvLookup_found` — what the search for another environment finds;
* `Jos.gives_up_iff` — **when the processor is given up**.
-/

import JosKernel.SchedInv

set_option relaxedAutoImplicit false
set_option autoImplicit false

namespace Jos

/-! ### Time -/

/-- **An environment that runs on the processor `c`**, with a time slice that `invalidate_env_ts`
has marked as used up. -/
structure Invalidated (s : Kernel) (c x : ℕ) : Prop where
  cur : s.curenv c = some x
  user : (s.envs x).type = .user
  slot : nKThreads ≤ x ∧ x < nEnv
  running : s.status x = .running
  named : envx (s.envs x).envId = x
  own : ∀ y, (s.envs y).envId = (s.envs x).envId → y = x
  slice : (s.envs x).timeSlice = tsDefault * 2

/-- What is left of the mark is less than a time slice, if the subtraction does not wrap round. -/
theorem mark_lt_iff (delta : BitVec 64) :
    tsDefault * 2 - delta < tsDefault ↔ tsDefault < delta ∧ delta ≤ tsDefault * 2 := by
  have hts : tsDefault = 1000000#64 := rfl
  rw [hts]
  constructor
  · intro h
    constructor <;> bv_omega
  · rintro ⟨h₁, h₂⟩
    bv_omega

section

variable {s : Kernel} {c x : ℕ}

/-- **`check_time_slice`** after the time since the last tick has been taken off the mark. -/
theorem Invalidated.checkTimeSlice_iff (h : Invalidated s c x) (tick : BitVec 64) :
    checkTimeSlice (chargeSlice s x tick) x = true ↔
      tsDefault < calculateDelta tick s.lastTick ∧ calculateDelta tick s.lastTick ≤
        tsDefault * 2 := by
  have hst : (chargeSlice s x tick).status x = .running :=
    ((sameView_chargeSlice s x tick).status x).trans h.running
  have hslice : ((chargeSlice s x tick).envs x).timeSlice =
      tsDefault * 2 - calculateDelta tick s.lastTick := by
    rw [← h.slice]
    simp [chargeSlice, Kernel.modEnv]
  rw [checkTimeSlice, hst, hslice, ← mark_lt_iff]
  simp

end

/-! ### What else there is to run -/

section

variable {s s' : Kernel} {c i x y : ℕ}

/-- **The search from an environment that runs** does not find this environment. -/
theorem runnableEnvLookup_found (hrun : s.status x = .running) (hlow : nKThreads ≤ x)
    (hlt : x < nEnv) (hown : ∀ y, (s.envs y).envId = (s.envs x).envId → y = x) :
    runnableEnvLookup s c x ≠ Except.ok (some x) := by
  intro h
  unfold runnableEnvLookup at h
  dsimp only at h
  rw [if_neg (Nat.not_lt.2 hlow)] at h
  rcases lookupLoop_spec h with hr | ⟨-, hid⟩
  · rw [hrun] at hr
    exact nomatch hr
  · have hbefore := hown _ hid.symm
    have hk : nKThreads = 2 := rfl
    have hn : nEnv = 1024 := rfl
    split at hbefore <;> omega

/-- `check_work` gives sleepers another status at most, and runs kernel threads. -/
theorem checkWork_settled {w : Work} {o : Option ℕ} (hr : checkWork s c w = (s', o)) :
    Settled s s' ∧ ∀ k, o = some k → k < nKThreads := by
  have hrelieve : Settled s (relieve s w) := by
    cases w with
    | resume => exact Settled.resumeEnv s
    | reclaim requestors =>
        exact ⟨rfl, fun _ => Or.inl rfl, fun _ => rfl, fun _ => rfl, fun _ => ⟨rfl, rfl, rfl⟩, rfl⟩
  obtain ⟨rfl, rfl⟩ | ⟨k, rfl, hk, rfl⟩ := checkWork_cases hr
  · exact ⟨hrelieve, fun k hk => nomatch hk⟩
  · refine ⟨hrelieve.trans (Settled.timeSlice _ k _), fun k' hk' => ?_⟩
    obtain rfl := Option.some.inj hk'
    exact (kthreadFor_spec hk).1

/-- **The end of `sched_yield`** does not choose the environment that runs. -/
theorem lookupPick_other {inp : SchedInput} (hrun : s.status x = .running) (hlow : nKThreads ≤ x)
    (hlt : x < nEnv) (hown : ∀ y, (s.envs y).envId = (s.envs x).envId → y = x) :
    lookupPick s c x inp ≠ Except.ok (s', some x) := by
  intro h
  rw [lookupPick] at h
  cases hfind : runnableEnvLookup s c x with
  | error e =>
      rw [hfind] at h
      exact nomatch h
  | ok r =>
      rw [hfind] at h
      cases r with
      | some y =>
          obtain ⟨-, hy⟩ := Prod.mk.inj (Except.ok.inj h)
          obtain rfl := Option.some.inj hy
          exact runnableEnvLookup_found hrun hlow hlt hown hfind
      | none =>
          change schedHaltPick s c inp = _ at h
          unfold schedHaltPick at h
          dsimp only at h
          obtain ⟨⟨s₁, o⟩, hwork⟩ : ∃ r, checkWork s c inp.workHalt = r := ⟨_, rfl⟩
          rw [hwork] at h
          cases o with
          | some k =>
              obtain ⟨-, hk⟩ := Prod.mk.inj (Except.ok.inj h)
              obtain rfl := Option.some.inj hk
              exact absurd ((checkWork_settled hwork).2 k rfl) (Nat.not_lt.2 hlow)
          | none =>
              dsimp only at h
              split at h
              · exact nomatch (Prod.mk.inj (Except.ok.inj h)).2
              · exact nomatch h

end

/-! ### Giving up the processor -/

/-- **The environment does not go on**: `check_time_slice` returns 0, and `sched_yield` does not
choose it in another way. -/
def GivesUp (s : Kernel) (c x : ℕ) (inp : SchedInput) : Prop :=
  checkTimeSlice (chargeSlice s x inp.tick) x = false ∧ ∀ s', schedPick s c inp ≠
    Except.ok (s', some x)

/-- **When the processor is given up**: unless more than one and at most two time slices have gone
by since the last tick. -/
theorem gives_up_iff {s : Kernel} {c x : ℕ} (h : Invalidated s c x) (inp : SchedInput) :
    GivesUp s c x inp ↔
      ¬ (tsDefault < calculateDelta inp.tick s.lastTick ∧
        calculateDelta inp.tick s.lastTick ≤ tsDefault * 2) := by
  rw [← h.checkTimeSlice_iff inp.tick, Bool.not_eq_true, GivesUp]
  refine and_iff_left_of_imp fun hslice s' hpick => ?_
  have hview := sameView_chargeSlice s x inp.tick
  have hst : (chargeSlice s x inp.tick).status x = .running := (hview.status x).trans h.running
  have hid : ∀ y, ((chargeSlice s x inp.tick).envs y).envId = (s.envs y).envId :=
    fun y => (hview.ids y).2.2
  have hown : ∀ y, ((chargeSlice s x inp.tick).envs y).envId =
      ((chargeSlice s x inp.tick).envs x).envId → y = x := by
    intro y hy
    rw [hid, hid] at hy
    exact h.own y hy
  have htype : ((chargeSlice s x inp.tick).envs x).type = .user := (hview.ids x).1.trans h.user
  unfold schedPick at hpick
  rw [h.cur] at hpick
  dsimp only at hpick
  rw [if_neg (by rw [h.running]; decide), hslice, if_neg Bool.false_ne_true,
    if_neg (by rw [htype]; decide), h.named] at hpick
  obtain ⟨⟨s₁, o⟩, hwork⟩ : ∃ r, checkWork (chargeSlice s x inp.tick) c inp.work = r := ⟨_, rfl⟩
  rw [hwork] at hpick
  obtain ⟨hset, hkernel⟩ := checkWork_settled hwork
  cases o with
  | some k =>
      obtain ⟨-, hk⟩ := Prod.mk.inj (Except.ok.inj hpick)
      obtain rfl := Option.some.inj hk
      exact absurd (hkernel k rfl) (Nat.not_lt.2 h.slot.1)
  | none =>
      have hst₁ : s₁.status x = .running := by
        rw [hset.status_eq (by rw [hst]; decide)]
        exact hst
      refine lookupPick_other hst₁ h.slot.1 h.slot.2 (fun y hy => hown y ?_) hpick
      rw [(hset.ids y).2.2, (hset.ids x).2.2] at hy
      exact hy

/-- Two environments: the one in slot 2 runs and has given up its time slice, the one in slot 3
waits for the processor. -/
def twoEnvs : Kernel :=
  { Kernel.init with
    envs := fun i =>
      if i = 2 then ⟨0x1002, 0, .user, .running, 0, tsDefault * 2, -1⟩
      else if i = 3 then ⟨0x1003, 0, .user, .runnable, 0, tsDefault, -1⟩
      else Env.init
    cpus := fun _ => ⟨some 2, .user⟩ }

theorem twoEnvs_invalidated : Invalidated twoEnvs 0 2 where
  cur := rfl
  user := rfl
  slot := by decide
  running := rfl
  named := by decide
  own y hy := by
    by_contra hne
    by_cases hthree : y = 3
    · subst hthree
      exact absurd hy (by decide)
    · have hinit : twoEnvs.envs y = Env.init := by simp [twoEnvs, hne, hthree]
      rw [hinit] at hy
      exact absurd hy (by decide)
  slice := rfl

/-- Half a time slice after the last tick. -/
theorem gives_up_soon : GivesUp twoEnvs 0 2 ⟨500000, 500000, .resume, .resume⟩ :=
  (gives_up_iff twoEnvs_invalidated _).2 (by decide)

/-- **One and a half time slices after the last tick** the environment that has given up its time
slice goes on, although another one waits. -/
theorem yield_resumes_yielder :
    ¬ ∀ (s : Kernel) (c x y : ℕ) (inp : SchedInput), Invalidated s c x → y ≠ x → nKThreads ≤ y →
      y < nEnv → s.status y = .runnable →
      GivesUp s c x inp := by
  intro hall
  have hgives := hall twoEnvs 0 2 3 ⟨1500000, 1500000, .resume, .resume⟩
    twoEnvs_invalidated (by decide) (by decide) (by decide) rfl
  exact absurd hgives.1 (by decide)

end Jos
