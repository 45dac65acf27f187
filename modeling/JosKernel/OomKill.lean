/-
**The choice of a process to kill.**

`oom_kill` scores every slot of the table, and looks for the worst one with
`bad[theworst] > bad[i]`: it keeps the slot with the *least* score. The score is an integer
percentage whose division comes before the multiplication, so it is 0 for an environment with fewer
pages than the machine has, and a slot that is not of type `ENV_TYPE_USER` scores 0.

Main definitions:

* `Jos.oomKill` — the scores, the loop and the choice;
* `Jos.score`, `Jos.LeastScore` — the score of a slot, and the first slot with the least one;
* `Jos.KillsLargest` — **what an out-of-memory killer is for**.

Main results:

* `Jos.oomFold_eq` — the loop finds the first slot with the least score;
* `Jos.oomKill_eq` — what the call does;
* `Jos.oomKill_kthread` — with a kernel thread in slot 0 it never kills;
* `Jos.kills_largest_iff` — when it kills a largest process.
-/

import JosKernel.SchedInv

set_option relaxedAutoImplicit false
set_option autoImplicit false

namespace Jos

/-! ### The call -/

/-- The table of environments with `env_alloc_pages`, and the number of pages of the machine. -/
structure OomTable where
  kern : Kernel
  allocPages : ℕ → BitVec 32
  npages : BitVec 32

/-- The score of slot `i`. A division by zero is a trap in the kernel, and `trap` panics at once
where `env_lock` is held. -/
def badness (s : OomTable) (i : ℕ) : Except Crash (BitVec 32) :=
  if (s.kern.envs i).type ≠ .user then pure 0
  else if s.npages = 0 then throw (.panic "OMG")
  else pure (s.allocPages i / s.npages * 100)

/-- One round of the loop: the array of scores and the index of the worst one so far. -/
def oomRound (s : OomTable) (st : (ℕ → BitVec 32) × ℕ) (i : ℕ) :
    Except Crash ((ℕ → BitVec 32) × ℕ) := do
  let b ← badness s i
  let bad := Function.update st.1 i b
  pure (bad, if (bad i).slt (bad st.2) then i else st.2)

/-- `env_destroy(kill)` on processor `c`; `env_free` sets the number of pages to 0. -/
def oomDestroy (s : OomTable) (c x : ℕ) : OomTable × Next :=
  let (kern, next) := envDestroy s.kern c x
  let allocPages := if s.kern.status x = .running ∧ s.kern.curenv c ≠ some x then s.allocPages
    else Function.update s.allocPages x 0
  ({ s with kern := kern, allocPages := allocPages }, next)

/-- How the call ends: it returns a number, or it goes on to `sched_yield` because the environment
of the processor is gone. -/
inductive OomEnd
  | returned (killed : Bool)
  | yielded
  deriving DecidableEq, Repr

/-- **`oom_kill(e, pgs_r)`** on processor `c`, with `none` for `NULL`. -/
def oomKill (s : OomTable) (c : ℕ) (e : Option ℕ) (pgsR : BitVec 32) :
    Except Crash (OomEnd × OomTable) := do
  let (bad, theworst) ← (List.range nEnv).foldlM (oomRound s) (fun _ => 0, 0)
  let kill :=
    if bad theworst ≠ 0 ∧ (0#32).slt pgsR ∧ pgsR.sle (bad theworst) then some theworst else none
  match kill with
  | none => pure (.returned false, s)
  | some x =>
      if kill = e then pure (.returned false, s)
      else
        let (s, next) := oomDestroy s c x
        pure (if next = .yield then .yielded else .returned true, s)

/-! ### The scores -/

/-- The score of a slot, as an expression in the table. -/
def score (s : OomTable) (i : ℕ) : BitVec 32 :=
  if (s.kern.envs i).type = .user then s.allocPages i / s.npages * 100 else 0

/-- No slot is divided by zero pages. -/
def Divides (s : OomTable) : Prop := s.npages ≠ 0 ∨ ∀ i < nEnv, (s.kern.envs i).type ≠ .user

/-- **The first of the slots below `n` with the least score.** -/
structure LeastScore (s : OomTable) (n m : ℕ) : Prop where
  lt : m < n
  least : ∀ i < n, (score s m).toInt ≤ (score s i).toInt
  first : ∀ i < m, (score s m).toInt < (score s i).toInt

section

variable {s : OomTable} {m n : ℕ}

theorem badness_eq (h : Divides s) {i : ℕ} (hi : i < nEnv) : badness s i = .ok (score s i) := by
  unfold badness score
  by_cases hu : (s.kern.envs i).type = .user
  · have hnp : s.npages ≠ 0 := h.resolve_right fun hc => hc i hi hu
    rw [if_neg (not_not_intro hu), if_neg hnp, if_pos hu]
    rfl
  · rw [if_pos hu, if_neg hu]
    rfl

theorem LeastScore.unique {m' : ℕ} (h : LeastScore s n m) (h' : LeastScore s n m') : m = m' := by
  rcases Nat.lt_trichotomy m m' with hlt | heq | hlt
  · exact absurd (h'.first m hlt) (Int.not_lt.2 (h.least m' h'.lt))
  · exact heq
  · exact absurd (h.first m' hlt) (Int.not_lt.2 (h'.least m h.lt))

/-- One more slot. -/
theorem LeastScore.succ (h : LeastScore s n m) :
    LeastScore s (n + 1) (if (score s n).slt (score s m) then n else m) := by
  by_cases hlt : (score s n).toInt < (score s m).toInt
  · rw [if_pos (BitVec.slt_iff_toInt_lt.2 hlt)]
    refine ⟨Nat.lt_succ_self n, fun i hi => ?_, fun i hi => Int.lt_of_lt_of_le hlt (h.least i hi)⟩
    rcases Nat.lt_succ_iff_lt_or_eq.1 hi with hi | rfl
    · exact Int.le_of_lt (Int.lt_of_lt_of_le hlt (h.least i hi))
    · exact Int.le_refl _
  · rw [if_neg (fun hc => hlt (BitVec.slt_iff_toInt_lt.1 hc))]
    refine ⟨Nat.lt_succ_of_lt h.lt, fun i hi => ?_, h.first⟩
    rcases Nat.lt_succ_iff_lt_or_eq.1 hi with hi | rfl
    · exact h.least i hi
    · exact Int.not_lt.1 hlt

/-- **The loop** over the first `n` slots. -/
theorem oomFold_eq (h : Divides s) :
    ∀ n ≤ nEnv, ∃ bad m, (List.range n).foldlM (oomRound s) (fun _ => 0, 0) = .ok (bad, m) ∧
    (∀ i < n, bad i = score s i) ∧ (n = 0 ∧ m = 0 ∨ LeastScore s n m) := by
  intro n
  induction n with
  | zero => exact fun _ => ⟨_, 0, rfl, fun i hi => absurd hi (Nat.not_lt_zero i), Or.inl ⟨rfl, rfl⟩⟩
  | succ n ih =>
      intro hn
      obtain ⟨bad, m, hfold, hbad, hm⟩ := ih (Nat.le_of_succ_le hn)
      rw [List.range_succ, List.foldlM_append, hfold]
      change ∃ bad' m', ([n].foldlM (oomRound s) (bad, m)) = _ ∧ _
      have hround : oomRound s (bad, m) n = .ok (Function.update bad n (score s n),
          if (Function.update bad n (score s n) n).slt (Function.update bad n (score s n) m) then n
            else m) := by
        rw [oomRound, badness_eq h (Nat.lt_of_succ_le hn)]
        rfl
      refine ⟨_, _, by rw [List.foldlM_cons, hround]; rfl, fun i hi => ?_, Or.inr ?_⟩
      · by_cases hin : i = n
        · subst hin
          rw [Function.update_self]
        · rw [Function.update_of_ne hin]
          exact hbad i (by omega)
      · rw [Function.update_self]
        rcases hm with ⟨rfl, rfl⟩ | hm
        · -- the first slot is compared with itself
          rw [Function.update_self, ite_self]
          exact ⟨Nat.zero_lt_one, fun i hi => Int.le_of_eq (by rw [Nat.lt_one_iff.1 hi]),
            fun i hi => absurd hi (Nat.not_lt_zero i)⟩
        · rw [Function.update_of_ne (Nat.ne_of_lt hm.lt), hbad m hm.lt]
          exact hm.succ

end

/-! ### What the call does -/

/-- The slot that the loop finds scores enough to be killed. -/
def Chosen (s : OomTable) (pgsR : BitVec 32) (m : ℕ) : Prop :=
  LeastScore s nEnv m ∧ pgsR.toInt ≤ (score s m).toInt

/-- A live user environment other than `e`. -/
structure Victim (s : OomTable) (e : Option ℕ) (x : ℕ) : Prop where
  lt : x < nEnv
  live : s.kern.status x ≠ .free
  user : (s.kern.envs x).type = .user
  other : e ≠ some x

/-- A victim with the most pages. -/
def Largest (s : OomTable) (e : Option ℕ) (x : ℕ) : Prop :=
  Victim s e x ∧ ∀ y, Victim s e y → s.allocPages y ≤ s.allocPages x

/-- A victim has the pages that are missing. -/
def CanKill (s : OomTable) (e : Option ℕ) (pgsR : BitVec 32) : Prop :=
  ∃ x, Victim s e x ∧ pgsR ≤ s.allocPages x

/-- **What an out-of-memory killer is for**: it kills a largest victim if a victim has the pages
that are missing, and nobody otherwise. -/
def KillsLargest (s : OomTable) (c : ℕ) (e : Option ℕ) (pgsR : BitVec 32) : Prop :=
  (CanKill s e pgsR → ∃ x, Largest s e x ∧ oomKill s c e
    pgsR = .ok (.returned true, (oomDestroy s c x).1)) ∧
    (¬ CanKill s e pgsR → oomKill s c e pgsR = .ok (.returned false, s))

section

variable {s : OomTable} {c m : ℕ} {e : Option ℕ} {pgsR : BitVec 32}

/-- There is always a slot with the least score. -/
theorem exists_leastScore (h : Divides s) : ∃ m, LeastScore s nEnv m := by
  obtain ⟨-, m, -, -, hm⟩ := oomFold_eq h nEnv (Nat.le_refl _)
  exact ⟨m, hm.resolve_left fun hc => absurd hc.1 (by decide)⟩

/-- The end of the call when `x` is killed. -/
def afterKill (s : OomTable) (c x : ℕ) : OomEnd × OomTable :=
  (if (oomDestroy s c x).2 = .yield then .yielded else .returned true, (oomDestroy s c x).1)

/-- **The call**, in a table without a division by zero. -/
theorem oomKill_eq (h : Divides s) (hm : LeastScore s nEnv m) (hpos : 0 < pgsR.toInt) :
    oomKill s c e pgsR = .ok (if pgsR.toInt ≤ (score s m).toInt ∧ e ≠ some m then afterKill s c m
      else (.returned false, s)) := by
  obtain ⟨bad, m', hfold, hbad, hm'⟩ := oomFold_eq h nEnv (Nat.le_refl _)
  obtain rfl := hm.unique (hm'.resolve_left fun hc => absurd hc.1 (by decide))
  have hcond : (score s m ≠ 0 ∧ (0#32).slt pgsR = true ∧ pgsR.sle (score s m) = true) ↔
      pgsR.toInt ≤ (score s m).toInt := by
    rw [BitVec.slt_iff_toInt_lt, BitVec.sle_iff_toInt_le]
    constructor
    · exact fun hc => hc.2.2
    · intro hle
      refine ⟨fun hz => ?_, by simpa using hpos, hle⟩
      rw [hz] at hle
      exact absurd (Int.lt_of_lt_of_le hpos hle) (by decide)
  rw [oomKill, hfold]
  change (match if bad m ≠ 0 ∧ (0#32).slt pgsR ∧ pgsR.sle (bad m) then some m else none with
    | none => _
    | some x => _) = _
  rw [hbad m hm.lt, if_congr hcond rfl rfl]
  by_cases hle : pgsR.toInt ≤ (score s m).toInt
  · rw [if_pos hle]
    dsimp only
    by_cases he : e = some m
    · rw [if_pos he.symm, if_neg fun hc => hc.2 he]
      rfl
    · rw [if_neg (Ne.symm he)]
      change Except.ok (afterKill s c m) = _
      rw [if_pos ⟨hle, he⟩]
  · rw [if_neg hle, if_neg fun hc => hle hc.1]
    rfl

/-- The loop only ends when every slot has a score. -/
theorem badness_of_fold :
    ∀ (n : ℕ) {st r : (ℕ → BitVec 32) × ℕ}, (List.range n).foldlM (oomRound s) st = .ok r →
    ∀ i < n, ∃ b, badness s i = .ok b := by
  intro n
  induction n with
  | zero => exact fun _ i hi => absurd hi (Nat.not_lt_zero i)
  | succ n ih =>
      intro st r hfold i hi
      rw [List.range_succ, List.foldlM_append] at hfold
      obtain ⟨st', hfold, hround⟩ := bind_eq_ok.1 hfold
      rcases Nat.lt_succ_iff_lt_or_eq.1 hi with hi | rfl
      · exact ih hfold i hi
      · rw [List.foldlM_cons] at hround
        obtain ⟨st'', hround, -⟩ := bind_eq_ok.1 hround
        obtain ⟨b, hb, -⟩ := bind_eq_ok.1 hround
        exact ⟨b, hb⟩

/-- A division by zero is a trap in the kernel. -/
theorem divides_of_ok {r : OomEnd × OomTable} (h : oomKill s c e pgsR = .ok r) : Divides s := by
  obtain ⟨⟨bad, m⟩, hfold, -⟩ := bind_eq_ok.1 h
  by_contra hdiv
  rw [Divides, not_or, not_not] at hdiv
  obtain ⟨hzero, hall⟩ := hdiv
  refine hall fun i hi hu => ?_
  obtain ⟨b, hb⟩ := badness_of_fold nEnv hfold i hi
  rw [badness, if_neg (not_not_intro hu), if_pos hzero] at hb
  exact nomatch hb

/-- `sched_yield` is called when the environment of the processor is killed. -/
theorem oomDestroy_yields_iff {x : ℕ} :
    (oomDestroy s c x).2 = .yield ↔ s.kern.curenv c = some x := by
  change (envDestroy s.kern c x).2 = .yield ↔ _
  unfold envDestroy
  dsimp only
  split
  · rename_i hcond
    exact iff_of_false (fun hc => nomatch hc) hcond.2
  · change (if s.kern.curenv c = some x then _ else _ : Kernel × Next).2 = .yield ↔ _
    by_cases hcur : s.kern.curenv c = some x
    · rw [if_pos hcur]
      exact iff_of_true rfl hcur
    · rw [if_neg hcur]
      exact iff_of_false (fun hc => nomatch hc) hcur

/-- What `env_destroy` does to the status of an environment: the one that is destroyed is free or
dying, and sleepers may be woken. -/
theorem status_oomDestroy (x y : ℕ) :
    (y = x ∧ ((oomDestroy s c x).1.kern.status y = .free ∨ s.kern.status y = .running ∧
      (oomDestroy s c x).1.kern.status y = .dying)) ∨
      y ≠ x ∧ ((oomDestroy s c x).1.kern.status y = s.kern.status y ∨
        (oomDestroy s c x).1.kern.status y = .runnable) := by
  have hfree : ∀ (k : Kernel), k.envs = s.kern.envs → (y = x ∧ (envFree k c x).status y = .free) ∨
      y ≠ x ∧ ((envFree k c x).status y = s.kern.status y ∨
        (envFree k c x).status y = .runnable) := by
    intro k hk
    rw [status_envFree]
    by_cases hyx : y = x
    · rw [if_pos hyx]
      exact Or.inl ⟨hyx, rfl⟩
    · rw [if_neg hyx, notifyWaiter, hk]
      refine Or.inr ⟨hyx, ?_⟩
      split
      · exact Or.inr rfl
      · exact Or.inl rfl
  change (_ ∧ ((envDestroy s.kern c x).1.status y = _ ∨ _ ∧
    (envDestroy s.kern c x).1.status y = _)) ∨
    _ ∧ ((envDestroy s.kern c x).1.status y = _ ∨ (envDestroy s.kern c x).1.status y = _)
  unfold envDestroy
  dsimp only
  split
  · rename_i hcond
    rw [Kernel.status_setStatus]
    by_cases hyx : y = x
    · subst hyx
      exact Or.inl ⟨rfl, Or.inr ⟨hcond.1, if_pos rfl⟩⟩
    · rw [if_neg hyx]
      exact Or.inr ⟨hyx, Or.inl rfl⟩
  · have hst : ∀ k : Kernel, (if k.curenv c = some x then (k.setCurenv c none, Next.yield)
        else (k, Next.unlock .tail)).1.status y =
        k.status y := by
      intro k
      split <;> rfl
    rw [hst]
    exact (hfree _ rfl).imp (fun hc => ⟨hc.1, Or.inl hc.2⟩) id

/-- The status shows who was destroyed. -/
theorem oomDestroy_inj {x : ℕ} (hx : s.kern.status x ≠ .free)
    (h : (oomDestroy s c x).1 = (oomDestroy s c m).1) : x = m := by
  by_contra hne
  have hself := (@status_oomDestroy s c x x).resolve_right fun hc => hc.1 rfl
  have hother := (@status_oomDestroy s c m x).resolve_left fun hc => hne hc.1
  rw [h] at hself
  obtain ⟨-, hself⟩ := hself
  obtain ⟨-, hother⟩ := hother
  rcases hself with hfree | ⟨hrun, hdying⟩
  · rw [hfree] at hother
    exact hother.elim (fun hc => hx hc.symm) fun hc => nomatch hc
  · rw [hdying, hrun] at hother
    exact hother.elim (fun hc => nomatch hc) fun hc => nomatch hc

/-- **With a kernel thread in slot 0** the call never kills. -/
theorem oomKill_kthread (h : Divides s) (hk : (s.kern.envs 0).type = .kernel)
    (hpos : 0 < pgsR.toInt) :
    oomKill s c e pgsR = .ok (.returned false, s) := by
  obtain ⟨m, hm⟩ := exists_leastScore h
  have hzero : score s 0 = 0 := by
    rw [score, hk]
    rfl
  have hle : (score s m).toInt ≤ 0 := by
    have hle := hm.least 0 (by decide)
    rwa [hzero] at hle
  rw [oomKill_eq h hm hpos, if_neg fun hc => ?_]
  exact absurd (Int.lt_of_lt_of_le hpos (Int.le_trans hc.1 hle)) (by decide)

/-- **When a largest process is killed.** -/
theorem kills_largest_iff (hpos : 0 < pgsR.toInt) :
    KillsLargest s c e pgsR ↔ Divides s ∧
      (¬ CanKill s e pgsR ∧ (∀ m, Chosen s pgsR m → e = some m) ∨
        ∃ m, Chosen s pgsR m ∧ Largest s e m ∧ pgsR ≤ s.allocPages m ∧
          s.kern.curenv c ≠ some m) := by
  by_cases hdiv : Divides s
  · rw [and_iff_right hdiv]
    obtain ⟨m, hm⟩ := exists_leastScore hdiv
    have hcall := @oomKill_eq s c m e pgsR hdiv hm hpos
    have hchosen : ∀ m', Chosen s pgsR m' → m' = m := fun m' h' => h'.1.unique hm
    by_cases hcan : CanKill s e pgsR
    · constructor
      · rintro ⟨hkills, -⟩
        obtain ⟨x, hx, hrun⟩ := hkills hcan
        rw [hcall] at hrun
        by_cases hkill : pgsR.toInt ≤ (score s m).toInt ∧ e ≠ some m
        · rw [if_pos hkill] at hrun
          obtain ⟨hend, hstate⟩ := Prod.mk.inj (Except.ok.inj hrun)
          obtain rfl := oomDestroy_inj hx.1.live hstate.symm
          refine Or.inr ⟨x, ⟨hm, hkill.1⟩, hx, ?_, fun hcur => ?_⟩
          · obtain ⟨y, hy, hle⟩ := hcan
            exact BitVec.le_trans hle (hx.2 y hy)
          · rw [if_pos (oomDestroy_yields_iff.2 hcur)] at hend
            exact nomatch hend
        · rw [if_neg hkill] at hrun
          exact nomatch (Prod.mk.inj (Except.ok.inj hrun)).1
      · rintro (⟨hno, -⟩ | ⟨m', hm', hlargest, -, hcur⟩)
        · exact absurd hcan hno
        · obtain rfl := hchosen m' hm'
          refine ⟨fun _ => ⟨m', hlargest, ?_⟩, fun hno => absurd hcan hno⟩
          rw [hcall, if_pos ⟨hm'.2, hlargest.1.other⟩, afterKill,
            if_neg (fun hc => hcur (oomDestroy_yields_iff.1 hc))]
    · constructor
      · rintro ⟨-, hnone⟩
        refine Or.inl ⟨hcan, fun m' hm' => ?_⟩
        obtain rfl := hchosen m' hm'
        by_contra he
        have hrun := hnone hcan
        rw [hcall, if_pos ⟨hm'.2, he⟩, afterKill] at hrun
        have hend := (Prod.mk.inj (Except.ok.inj hrun)).1
        split at hend
        · exact nomatch hend
        · exact nomatch hend
      · rintro (⟨-, he⟩ | ⟨m', -, hlargest, hle, -⟩)
        · refine ⟨fun hc => absurd hc hcan, fun _ => ?_⟩
          rw [hcall, if_neg fun hc => hc.2 (he m ⟨hm, hc.1⟩)]
        · exact absurd ⟨m', hlargest.1, hle⟩ hcan
  · refine iff_of_false (fun hkills => hdiv ?_) fun hc => hdiv hc.1
    by_cases hcan : CanKill s e pgsR
    · obtain ⟨x, -, hrun⟩ := hkills.1 hcan
      exact divides_of_ok hrun
    · exact divides_of_ok (hkills.2 hcan)

end

/-- Two kernel threads, and an environment in slot 2 with 500 of the 1000 pages of the machine. -/
def halfTaken : OomTable where
  kern :=
    { Kernel.init with
      envs := fun i =>
        if i < 2 then ⟨BitVec.ofNat 32 (0x1000 + i), 0, .kernel, .runnable, 0, 0, -1⟩
        else if i = 2 then ⟨0x1002, 0, .user, .runnable, 0, 0, -1⟩
        else Env.init }
  allocPages := fun i => if i = 2 then 500 else 0
  npages := 1000

/-- Nobody is killed for 501 pages. -/
theorem kills_largest_half : KillsLargest halfTaken 0 none 501 := by
  refine (kills_largest_iff (by decide)).2 ⟨Or.inl (by decide), Or.inl ⟨?_, fun m hm => ?_⟩⟩
  · rintro ⟨x, -, hle⟩
    by_cases hx : x = 2
    · subst hx
      exact absurd hle (by decide)
    · have hzero : halfTaken.allocPages x = 0 := if_neg hx
      rw [hzero] at hle
      exact absurd hle (by decide)
  · have hle := Int.le_trans hm.2 (hm.1.least 0 (by decide))
    exact absurd hle (by decide)

/-- **Nobody is killed although an environment has half of the memory.** -/
theorem largest_not_killed :
    ¬ ∀ (s : OomTable) (c : ℕ) (e : Option ℕ) (pgsR : BitVec 32), 0 < pgsR.toInt →
      KillsLargest s c e pgsR := by
  intro hall
  have hcan : CanKill halfTaken none 1 :=
    ⟨2, ⟨by decide, by decide, rfl, fun hc => nomatch hc⟩, by decide⟩
  obtain ⟨x, -, hrun⟩ := (hall halfTaken 0 none 1 (by decide)).1 hcan
  rw [oomKill_kthread (Or.inl (by decide)) rfl (by decide)] at hrun
  exact nomatch (Prod.mk.inj (Except.ok.inj hrun)).1

end Jos
