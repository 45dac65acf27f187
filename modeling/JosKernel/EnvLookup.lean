/-
**The search for an environment to run.**

`runnable_env_lookup` goes round the table until it comes to the slot before its start, which it
recognises by the `env_id` there. Slots that have never been used all have the id 0, so the search
may end at the first of them. It misses nothing, because `env_init` lists the slots in order and
`env_free` puts a slot in front of the list: the slots that have never been used are the last ones
of the table.

Main definitions:

* `Jos.tableStep` — allocation and release of environments, and changes of their status;
* `Jos.TableInv` — **the never-used slots are the end of the table, and the end of the free list**;
* `Jos.circle`, `Jos.slotBefore` — the order of the search.

Main results:

* `Jos.lookupLoop_range` — the loop over a part of the table;
* `Jos.runnableEnvLookup_eq` — the search is for the first slot in order that halts it;
* `Jos.TableInv.step` — the invariant;
* `Jos.lookup_finds_runnable` — **a runnable environment is found whenever there is one**, and it is
  the first one.
-/

import JosKernel.EnvIds
import JosKernel.SchedStep

set_option relaxedAutoImplicit false
set_option autoImplicit false

namespace Jos

open LabelledRun

/-! ### The order of the search -/

/-- The slots of the table for user environments from the slot `i` on, round the end of the
table. -/
def circle (i : ℕ) : List ℕ := List.range' i (nEnv - i) ++ List.range' nKThreads (i - nKThreads)

/-- The slot before `i`, round the end of the table. -/
def slotBefore (i : ℕ) : ℕ := if i - 1 = nKThreads - 1 then nEnv - 1 else i - 1

/-- The search ends at the slot `x`: an environment that can be run, or the id of the slot
`last`. -/
def halts (s : Kernel) (last x : ℕ) : Bool :=
  (s.status x = .runnable ∨ (s.envs x).envId = (s.envs last).envId) ∧ (s.envs x).type ≠ .kernel

/-- What the search answers at the slot where it ends. -/
def answerAt (s : Kernel) (c x : ℕ) : Option ℕ :=
  if s.status x = .runnable ∨ s.status x = .running ∧ (s.envs x).cpunum = c then some x else none

section Loop

variable {s : Kernel} {c last : ℕ}

/-- One round of the loop, at a slot of the table. -/
theorem lookupLoop_succ {i : ℕ} (hi : i < nEnv) (fuel : ℕ) :
    lookupLoop s c last (fuel + 1) i = if halts s last i then Except.ok (answerAt s c i)
      else lookupLoop s c last fuel (i + 1) := by
  rw [lookupLoop]
  rw [if_neg (Nat.ne_of_lt hi)]
  by_cases hk : (s.envs i).type = .kernel
  · simp [halts, hk]
  · by_cases hr : (s.envs i).status = .runnable
    · simp [halts, answerAt, Kernel.status, hk, hr, pure, Except.pure]
    · by_cases hid : (s.envs i).envId = (s.envs last).envId
      · by_cases hrun : (s.envs i).status = .running ∧ (s.envs i).cpunum = c
        · simp [halts, answerAt, Kernel.status, hk, hid, hrun, pure, Except.pure]
        · simp [halts, answerAt, Kernel.status, hk, hr, hid, hrun, pure, Except.pure]
      · simp [halts, Kernel.status, hk, hr, hid]

/-- **The loop over the slots of a part of the table.** -/
theorem lookupLoop_range : ∀ (n i fuel : ℕ), i + n ≤ nEnv →
    lookupLoop s c last (n + fuel) i =
      match (List.range' i n).find? (halts s last) with
      | some x => Except.ok (answerAt s c x)
      | none => lookupLoop s c last fuel (i + n) := by
  intro n
  induction n with
  | zero =>
      intro i fuel _
      rw [Nat.zero_add]
      rfl
  | succ n ih =>
      intro i fuel hn
      rw [Nat.succ_add, lookupLoop_succ (by omega), List.range'_succ, List.find?_cons]
      cases hh : halts s last i with
      | true => rfl
      | false =>
          rw [if_neg Bool.false_ne_true, ih (i + 1) fuel (by omega)]
          simp only [show i + 1 + n = i + (n + 1) by omega]

/-- At the end of the table the loop goes on with the first slot of a user environment. -/
theorem lookupLoop_wrap (fuel : ℕ) :
    lookupLoop s c last fuel nEnv = lookupLoop s c last fuel nKThreads := by
  cases fuel with
  | zero => rfl
  | succ fuel => rfl

/-- **The search goes once round the table**, to the first slot that halts it. -/
theorem runnableEnvLookup_eq {i x : ℕ} (hlow : nKThreads ≤ i) (hi : i ≤ nEnv)
    (hx : (circle i).find? (halts s (slotBefore i)) = some x) :
    runnableEnvLookup s c i = Except.ok (answerAt s c x) := by
  have hfuel : nEnv = nEnv - i + (i - nKThreads + nKThreads) := by omega
  rw [circle, List.find?_append] at hx
  unfold runnableEnvLookup
  dsimp only
  rw [if_neg (Nat.not_lt.2 hlow)]
  change lookupLoop s c (slotBefore i) nEnv i = _
  have hturn :=
    @lookupLoop_range s c (slotBefore i) (nEnv - i) i (i - nKThreads + nKThreads) (by omega)
  rw [← hfuel] at hturn
  rw [hturn]
  cases hfirst : (List.range' i (nEnv - i)).find? (halts s (slotBefore i)) with
  | some y =>
      rw [hfirst] at hx
      obtain rfl := Option.some.inj hx
      rfl
  | none =>
      rw [hfirst, Option.none_or] at hx
      dsimp only
      rw [show i + (nEnv - i) = nEnv by omega, lookupLoop_wrap,
        lookupLoop_range _ _ _ (by omega), hx]

end Loop

/-! ### The table -/

/-- What happens to the table of environments: `env_alloc`, `env_free`, and anything that gives a
live environment another status. -/
inductive TableOp
  | ids (op : IdOp)
  | change (x : ℕ) (st : EnvStatus) (cpunum : ℕ)

/-- **A step of the table.** -/
def tableStep (s : Kernel) : TableOp → Kernel → Prop
  | .ids op, t => idStep s op t
  | .change x st cpunum, t =>
      s.status x ≠ .free ∧ st ≠ .free ∧ t = s.modEnv x fun e =>
        { e with status := st, cpunum := cpunum }

/-- Kernel environments are only made in the slots of the kernel threads. -/
def KthreadsLow (_ : Kernel) : TableOp → Prop
  | .ids (.alloc _ type x _) => type = .kernel → x < nKThreads
  | _ => True

/-- The operation allocates the slot `i`. -/
def TableOp.Allocates (i : ℕ) : TableOp → Prop
  | .ids (.alloc _ _ x _) => x = i
  | _ => False

/-- **The invariant.** A slot that has been used has an id. The slots without one are free, and are
the end of the table and of the free list. -/
structure TableInv (s : Kernel) : Prop where
  suffix : ∃ m l, m ≤ nEnv + 1 ∧ s.envFreeList = l ++ List.range' m (nEnv + 1 - m) ∧
    (∀ x ∈ l, x < m) ∧
    ∀ x, x < m ↔ (s.envs x).envId ≠ 0
  free : ∀ x, (s.envs x).envId = 0 → s.status x = .free
  ids : ∀ x < nEnv, ∃ n, (s.envs x).envId = idAfter x n
  user : ∀ x, nKThreads ≤ x → (s.envs x).type ≠ .kernel

theorem tableInv_init : TableInv Kernel.init where
  suffix := by
    refine ⟨0, [], Nat.zero_le _, ?_, by simp, fun x => ?_⟩
    · rw [Kernel.init_envFreeList, List.range_eq_range']
      rfl
    · simp [Kernel.init, Env.init]
  free _ _ := rfl
  ids _ _ := ⟨0, rfl⟩
  user _ _ := by simp [Kernel.init, Env.init]

theorem envAlloc_type {s t : Kernel} {parentId : BitVec 32} {type : EnvType} {x : ℕ}
    (h : envAlloc s parentId type = some (x, t)) :
    (t.envs x).type = type := by
  unfold envAlloc at h
  cases hl : s.envFreeList with
  | nil =>
      rw [hl] at h
      exact nomatch h
  | cons y rest =>
      rw [hl] at h
      obtain ⟨rfl, rfl⟩ := Prod.mk.inj (Option.some.inj h)
      simp [Kernel.modEnv]

namespace TableInv

variable {s t : Kernel}

/-- `env_alloc` takes a slot that has been used, or the first one that has not. -/
theorem alloc (h : TableInv s) {parentId : BitVec 32} {type : EnvType} {x : ℕ}
    (ha : envAlloc s parentId type = some (x, t)) (hlow : type = .kernel → x < nKThreads) :
    TableInv t := by
  obtain ⟨hlist, hid, -, hrest⟩ := envAlloc_some ha
  obtain ⟨m, l, hm, hfree, hused, hiff⟩ := h.suffix
  have hne : (t.envs x).envId ≠ 0 := by
    rw [hid]
    exact newEnvId_ne_zero _ x
  have hother : ∀ y ≠ x, ((t.envs y).envId ≠ 0 ↔ (s.envs y).envId ≠ 0) := fun y hy => by
    rw [hrest y hy]
  have htype : (t.envs x).type = type := envAlloc_type ha
  refine ⟨?_, fun y hy => ?_, fun y hy => ?_, fun y hy => ?_⟩
  · cases l with
    | nil =>
        rw [List.nil_append] at hfree
        have hmlt : m < nEnv + 1 := by
          by_contra hge
          rw [show nEnv + 1 - m = 0 by omega, hlist] at hfree
          simp at hfree
        obtain ⟨k, hk⟩ : ∃ k, nEnv + 1 - m = k + 1 := ⟨nEnv - m, by omega⟩
        rw [hk, List.range'_succ, hlist] at hfree
        obtain ⟨rfl, hrest'⟩ := List.cons.inj hfree
        refine ⟨x + 1, [], hmlt, ?_, by simp, fun y => ?_⟩
        · rw [hrest', List.nil_append]
          congr 1
          omega
        · by_cases hyx : y = x
          · subst hyx
            exact iff_of_true (Nat.lt_succ_self y) hne
          · rw [hother y hyx, ← hiff y]
            omega
    | cons z l =>
        rw [hlist] at hfree
        obtain ⟨rfl, hrest'⟩ := List.cons.inj hfree
        have hxm := hused x (by simp)
        refine ⟨m, l, hm, hrest', fun y hy => hused y (by simp [hy]), fun y => ?_⟩
        by_cases hyx : y = x
        · subst hyx
          exact iff_of_true hxm hne
        · rw [hother y hyx, hiff y]
  · by_cases hyx : y = x
    · subst hyx
      exact absurd hy hne
    · rw [Kernel.status, hrest y hyx] at *
      exact h.free y hy
  · by_cases hyx : y = x
    · subst hyx
      obtain ⟨n, hn⟩ := h.ids y hy
      exact ⟨n + 1, by rw [hid, hn, newEnvId_idAfter hy]⟩
    · rw [hrest y hyx]
      exact h.ids y hy
  · by_cases hyx : y = x
    · subst hyx
      rw [htype]
      exact fun hc => absurd (hlow hc) (Nat.not_lt.2 hy)
    · rw [hrest y hyx]
      exact h.user y hy

/-- `env_free` puts a slot that has been used in front of the list. -/
theorem release (h : TableInv s) {x : ℕ} (hx : s.status x ≠ .free) (c : ℕ) :
    TableInv (envFree s c x) := by
  obtain ⟨hlist, hid, hst⟩ := envFree_slots s c x
  obtain ⟨m, l, hm, hfree, hused, hiff⟩ := h.suffix
  have hxid : (s.envs x).envId ≠ 0 := fun hc => hx (h.free x hc)
  have htype : ∀ y, ((envFree s c x).envs y).type = (s.envs y).type :=
    fun y => (sameIds_envFree s c x y).1
  refine ⟨⟨m, x :: l, hm, by rw [hlist, hfree, List.cons_append], ?_, fun y => by rw [hid, hiff]⟩,
    fun y hy => ?_, fun y hy => ?_,
    fun y hy => ?_⟩
  · intro y hy
    rcases List.mem_cons.1 hy with rfl | hy
    · exact (hiff y).2 hxid
    · exact hused y hy
  · rw [hid] at hy
    exact (hst y).2 (Or.inr (h.free y hy))
  · rw [hid]
    exact h.ids y hy
  · rw [htype]
    exact h.user y hy

/-- Another status does not touch the ids. -/
theorem change (h : TableInv s) {x : ℕ} (hx : s.status x ≠ .free) (st : EnvStatus) (cpunum : ℕ) :
    TableInv (s.modEnv x fun e => { e with status := st, cpunum := cpunum }) := by
  have hsame : ∀ y, ((s.modEnv x fun e => { e with status := st, cpunum := cpunum }).envs y).envId =
      (s.envs y).envId ∧
      ((s.modEnv x fun e => { e with status := st, cpunum := cpunum }).envs y).type =
        (s.envs y).type := by
    intro y
    by_cases hyx : y = x
    · subst hyx
      simp [Kernel.modEnv]
    · simp [Kernel.modEnv, Function.update_of_ne hyx]
  obtain ⟨m, l, hm, hfree, hused, hiff⟩ := h.suffix
  refine ⟨⟨m, l, hm, hfree, hused, fun y => by rw [(hsame y).1, hiff]⟩, fun y hy => ?_, fun y hy =>
    ?_, fun y hy => ?_⟩
  · rw [(hsame y).1] at hy
    have hyx : y ≠ x := by
      rintro rfl
      exact hx (h.free y hy)
    rw [Kernel.status, Kernel.modEnv]
    dsimp only
    rw [Function.update_of_ne hyx]
    exact h.free y hy
  · rw [(hsame y).1]
    exact h.ids y hy
  · rw [(hsame y).2]
    exact h.user y hy

/-- **Every step keeps the invariant.** -/
theorem step (h : TableInv s) {op : TableOp} (hlow : KthreadsLow s op) (hst : tableStep s op t) :
    TableInv t := by
  cases op with
  | ids op =>
      cases op with
      | alloc parentId type x id => exact h.alloc hst.1 hlow
      | free c x =>
          obtain ⟨hlive, rfl⟩ := hst
          exact h.release hlive c
  | change x st cpunum =>
      obtain ⟨hlive, -, rfl⟩ := hst
      exact h.change hlive st cpunum

/-- Different slots of the table with the same id have never been used. -/
theorem ids_inj (h : TableInv s) {x y : ℕ} (hx : x < nEnv) (hy : y < nEnv)
    (heq : (s.envs x).envId = (s.envs y).envId) (hne : (s.envs x).envId ≠ 0) : x = y := by
  obtain ⟨n, hn⟩ := h.ids x hx
  obtain ⟨n', hn'⟩ := h.ids y hy
  have hpos : ∀ (z k : ℕ), idAfter z k ≠ 0 → ∃ g ≤ nGens, idAfter z k = idOf g z := by
    intro z k hk
    cases k with
    | zero => exact absurd rfl hk
    | succ k => exact ⟨genAt k, (genAt_le k).2, rfl⟩
  obtain ⟨g, hg, hgx⟩ := hpos x n (hn ▸ hne)
  obtain ⟨g', hg', hgy⟩ := hpos y n' (by rw [← hn', ← heq]; exact hne)
  refine (idOf_inj hg hg' hx hy ?_).2
  rw [← hgx, ← hgy, ← hn, ← hn', heq]

/-- An id is never taken away. -/
theorem keeps_id {op : TableOp} {x : ℕ} (hst : tableStep s op t) (hx : (s.envs x).envId ≠ 0) :
    (t.envs x).envId ≠ 0 := by
  cases op with
  | ids op =>
      cases op with
      | alloc parentId type y id =>
          obtain ⟨-, hid, -, hrest⟩ := envAlloc_some hst.1
          by_cases hxy : x = y
          · subst hxy
            rw [hid]
            exact newEnvId_ne_zero _ x
          · rw [hrest x hxy]
            exact hx
      | free c y =>
          obtain ⟨-, rfl⟩ := hst
          rw [(envFree_slots s c y).2.1]
          exact hx
  | change y st cpunum =>
      obtain ⟨-, -, rfl⟩ := hst
      by_cases hxy : x = y
      · subst hxy
        simpa [Kernel.modEnv] using hx
      · simpa [Kernel.modEnv, Function.update_of_ne hxy] using hx

end TableInv

/-- A slot that has been allocated in a run has an id at its end. -/
theorem id_of_allocated {s : Kernel} {tr : List (Kernel × TableOp)}
    (hr : Run tableStep Kernel.init tr s) {i : ℕ} (hi : ∃ p ∈ tr, p.2.Allocates i) :
    (s.envs i).envId ≠ 0 := by
  induction hr with
  | nil => simp at hi
  | @snoc t u tr op hrun hst ih =>
      obtain ⟨p, hp, hal⟩ := hi
      rcases List.mem_append.1 hp with hp | hp
      · exact TableInv.keeps_id hst (ih ⟨p, hp, hal⟩)
      · obtain rfl := List.mem_singleton.1 hp
        cases op with
        | change x st cpunum => exact absurd hal (by simp [TableOp.Allocates])
        | ids op =>
            cases op with
            | free c x => exact absurd hal (by simp [TableOp.Allocates])
            | alloc parentId type x id =>
                obtain rfl : x = i := hal
                obtain ⟨-, hid, -, -⟩ := envAlloc_some hst.1
                rw [hid]
                exact newEnvId_ne_zero _ x

/-! ### The result of the search -/

section Result

variable {s : Kernel} {i : ℕ}

/-- The slots of the search. -/
theorem mem_circle {x : ℕ} (hi : nKThreads ≤ i) (hle : i ≤ nEnv) :
    x ∈ circle i ↔ nKThreads ≤ x ∧ x < nEnv := by
  rw [circle, List.mem_append, List.mem_range'_1, List.mem_range'_1]
  omega

/-- The search comes to the slot before its start last. -/
theorem circle_eq (hi : nKThreads ≤ i) (hle : i ≤ nEnv) :
    ∃ l, circle i = l ++ [slotBefore i] ∧ slotBefore i ∉ l := by
  have hk : nKThreads = 2 := rfl
  have hn : nEnv = 1024 := rfl
  unfold circle slotBefore
  by_cases hfirst : i = nKThreads
  · subst hfirst
    refine ⟨List.range' nKThreads (nEnv - nKThreads - 1), ?_, ?_⟩
    · rw [Nat.sub_self, List.range'_zero, List.append_nil, if_pos rfl,
        show nEnv - nKThreads = nEnv - nKThreads - 1 + 1 by omega, List.range'_concat]
      congr 1
    · rw [if_pos rfl, List.mem_range'_1]
      omega
  · refine ⟨List.range' i (nEnv - i) ++ List.range' nKThreads (i - nKThreads - 1), ?_, ?_⟩
    · rw [if_neg (by omega), List.append_assoc, show i - nKThreads = i - nKThreads - 1 + 1 by omega,
        List.range'_concat]
      congr 3
      omega
    · rw [if_neg (by omega), List.mem_append, List.mem_range'_1, List.mem_range'_1]
      omega

/-- **What the search has to answer**: the first slot in order that is runnable, and without one
nothing, or the slot before the start if its environment runs on this processor. -/
def SearchedWell (s : Kernel) (c i : ℕ) (r : Option ℕ) : Prop :=
  match (circle i).find? fun x => s.status x = .runnable with
  | some x => r = some x
  | none =>
      r = none ∨ r = some (slotBefore i) ∧ s.status (slotBefore i) = .running ∧
        (s.envs (slotBefore i)).cpunum = c

theorem searchedWell_of_find {c x : ℕ}
    (h : (circle i).find? (fun x => s.status x = .runnable) = some x) :
    SearchedWell s c i (some x) := by
  rw [SearchedWell, h]

theorem searchedWell_of_none {c : ℕ} {r : Option ℕ} (h : ∀ x ∈ circle i, s.status x ≠ .runnable)
    (hr : r = none ∨ r = some (slotBefore i) ∧ s.status (slotBefore i) = .running ∧
      (s.envs (slotBefore i)).cpunum = c) :
    SearchedWell s c i r := by
  have hnone : (circle i).find? (fun x => s.status x = .runnable) = none := by simpa using h
  rw [SearchedWell, hnone]
  exact hr

namespace TableInv

/-- A slot of a user environment halts the search if it is runnable, or has the id of the last
slot. -/
theorem halts_iff (h : TableInv s) {last x : ℕ} (hx : nKThreads ≤ x) :
    halts s last x = true ↔ s.status x = .runnable ∨ (s.envs x).envId = (s.envs last).envId := by
  simp [halts, h.user x hx]

/-- A slot in front of one that has been used has been used. -/
theorem id_of_le (h : TableInv s) {x y : ℕ} (hy : (s.envs y).envId ≠ 0) (hxy : x ≤ y) :
    (s.envs x).envId ≠ 0 := by
  obtain ⟨m, l, -, -, -, hiff⟩ := h.suffix
  exact (hiff x).1 (Nat.lt_of_le_of_lt hxy ((hiff y).2 hy))

/-- The search has an end before the slot `last` only at a slot that is runnable, or, from the first
slot on, where nothing has been used any more. -/
theorem nothing_behind (h : TableInv s) (hi : nKThreads ≤ i) (hle : i ≤ nEnv)
    (hstart : i = nKThreads ∨ (s.envs i).envId ≠ 0) {y : ℕ} {pre post : List ℕ}
    (hl : circle i = pre ++ y :: post ++ [slotBefore i]) (hy : y ≠ slotBefore i)
    (hid : (s.envs y).envId = (s.envs (slotBefore i)).envId) :
    ∀ x ∈ y :: post ++ [slotBefore i], s.status x = .free := by
  have hmem : ∀ x ∈ circle i, nKThreads ≤ x ∧ x < nEnv := fun x hx => (mem_circle hi hle).1 hx
  have hylt : y < nEnv := (hmem y (by rw [hl]; simp)).2
  have hblt : slotBefore i < nEnv := (hmem (slotBefore i) (by rw [hl]; simp)).2
  have hzero : (s.envs y).envId = 0 := by
    by_contra hne
    exact hy (h.ids_inj hylt hblt hid hne)
  have hfirst : i = nKThreads := by
    by_contra hf
    have hk : nKThreads = 2 := rfl
    have hbefore : slotBefore i ≤ i := by
      rw [slotBefore, if_neg (by omega)]
      exact Nat.sub_le i 1
    exact h.id_of_le (hstart.resolve_left hf) hbefore (hid ▸ hzero)
  have hsorted : (pre ++ (y :: post ++ [slotBefore i])).Pairwise (· < ·) := by
    rw [← List.append_assoc, ← hl, hfirst, circle, Nat.sub_self, List.range'_zero, List.append_nil]
    exact List.pairwise_lt_range'
  have hbehind : ∀ x ∈ y :: post ++ [slotBefore i], y ≤ x := by
    have hp := (List.pairwise_append.1 hsorted).2.1
    rw [List.cons_append] at hp ⊢
    intro x hx
    rcases List.mem_cons.1 hx with rfl | hx
    · exact Nat.le_refl x
    · exact Nat.le_of_lt (List.rel_of_pairwise_cons hp hx)
  intro x hx
  refine h.free x ?_
  by_contra hne
  exact h.id_of_le hne (hbehind x hx) hzero

end TableInv

/-- **The search in a table that keeps the invariant.** -/
theorem TableInv.lookup (h : TableInv s) (c : ℕ) (hi : nKThreads ≤ i) (hle : i ≤ nEnv)
    (hstart : i = nKThreads ∨ (s.envs i).envId ≠ 0) :
    ∃ r, runnableEnvLookup s c i = Except.ok r ∧ SearchedWell s c i r := by
  obtain ⟨l, hl, hlast⟩ := circle_eq hi hle
  have hmem : ∀ x ∈ circle i, nKThreads ≤ x := fun x hx => ((mem_circle hi hle).1 hx).1
  have hpass : ∀ x ∈ l, halts s (slotBefore i) x = false → s.status x ≠ .runnable := by
    intro x hx hh hr
    rw [(h.halts_iff (hmem x (by rw [hl]; simp [hx]))).2 (Or.inl hr)] at hh
    exact nomatch hh
  have hend : halts s (slotBefore i) (slotBefore i) = true :=
    (h.halts_iff (hmem _ (by rw [hl]; simp))).2 (Or.inr rfl)
  cases hfind : l.find? (halts s (slotBefore i)) with
  | none =>
      -- the search comes to the slot before its start
      have hnone : ∀ x ∈ l, s.status x ≠ .runnable :=
        fun x hx => hpass x hx (by simpa using List.find?_eq_none.1 hfind x hx)
      have hfound : (circle i).find? (halts s (slotBefore i)) = some (slotBefore i) := by
        rw [hl, List.find?_append, hfind, Option.none_or, List.find?_cons, hend]
      refine ⟨_, runnableEnvLookup_eq hi hle hfound, ?_⟩
      by_cases hr : s.status (slotBefore i) = .runnable
      · rw [answerAt, if_pos (Or.inl hr)]
        refine searchedWell_of_find ?_
        have hl' : l.find? (fun x => s.status x = .runnable) = none := by simpa using hnone
        rw [hl, List.find?_append, hl', Option.none_or, List.find?_cons, decide_eq_true hr]
      · refine searchedWell_of_none (fun x hx => ?_) ?_
        · rw [hl, List.mem_append, List.mem_singleton] at hx
          rcases hx with hx | rfl
          · exact hnone x hx
          · exact hr
        · unfold answerAt
          by_cases hrun : s.status (slotBefore i) = .running ∧ (s.envs (slotBefore i)).cpunum = c
          · rw [if_pos (Or.inr hrun)]
            exact Or.inr ⟨rfl, hrun⟩
          · rw [if_neg fun hc => hc.elim hr hrun]
            exact Or.inl rfl
  | some y =>
      have hfound : (circle i).find? (halts s (slotBefore i)) = some y := by
        rw [hl, List.find?_append, hfind, Option.some_or]
      refine ⟨_, runnableEnvLookup_eq hi hle hfound, ?_⟩
      obtain ⟨hy, pre, post, rfl, hpre⟩ := List.find?_eq_some_iff_append.1 hfind
      have hnone : ∀ x ∈ pre, s.status x ≠ .runnable :=
        fun x hx => hpass x (by simp [hx]) (by simpa using hpre x hx)
      have hyl : y ∈ circle i := by
        rw [hl]
        simp
      by_cases hr : s.status y = .runnable
      · rw [answerAt, if_pos (Or.inl hr)]
        refine searchedWell_of_find ?_
        have hl' : pre.find? (fun x => s.status x = .runnable) = none := by simpa using hnone
        rw [hl, List.find?_append, List.find?_append, hl', Option.none_or, List.find?_cons,
          decide_eq_true hr]
        rfl
      · -- nothing has been used from here on
        have hid := ((h.halts_iff (hmem y hyl)).1 hy).resolve_left hr
        have hne : y ≠ slotBefore i := by
          rintro rfl
          exact hlast (by simp)
        have hfree := h.nothing_behind hi hle hstart hl hne hid
        refine searchedWell_of_none (fun x hx => ?_) ?_
        · rw [hl, List.append_assoc, List.mem_append] at hx
          rcases hx with hx | hx
          · exact hnone x hx
          · rw [hfree x hx]
            decide
        · left
          have hyfree := hfree y (by simp)
          rw [answerAt, hyfree]
          simp

end Result

/-- **The scheduler finds a runnable environment whenever there is one**, in every table that
`env_alloc`, `env_free` and changes of status make of the one of `env_init`. -/
theorem lookup_finds_runnable {s : Kernel} {tr : List (Kernel × TableOp)}
    (hr : Run tableStep Kernel.init tr s) (hlow : Meets KthreadsLow tr) (c i : ℕ)
    (hi : i = nKThreads ∨ ∃ p ∈ tr, p.2.Allocates i) :
    ∃ r, runnableEnvLookup s c i = Except.ok r ∧ SearchedWell s c (max i nKThreads) r := by
  have h : TableInv s := hr.invariant (fun _ _ _ h hG hst => h.step hG hst) tableInv_init hlow
  have hused : i = nKThreads ∨ (s.envs i).envId ≠ 0 := hi.imp_right (id_of_allocated hr)
  have hle : i ≤ nEnv := by
    rcases hused with rfl | hne
    · decide
    · obtain ⟨m, l, hm, -, -, hiff⟩ := h.suffix
      have hlt := (hiff i).2 hne
      omega
  rcases Nat.lt_or_ge i nKThreads with hlt | hge
  · -- the slot of a kernel thread
    rw [Nat.max_eq_right (Nat.le_of_lt hlt)]
    have heq : runnableEnvLookup s c i = runnableEnvLookup s c nKThreads := by
      unfold runnableEnvLookup
      dsimp only
      rw [if_pos hlt, if_neg (Nat.lt_irrefl _)]
    rw [heq]
    exact h.lookup c (Nat.le_refl _) (by decide) (Or.inl rfl)
  · rw [Nat.max_eq_left hge]
    exact h.lookup c hge hle hused

/-- Two kernel threads and one environment, which is found from its own slot. -/
theorem lookup_finds_runnable_third :
    ∃ tr s, Run tableStep Kernel.init tr s ∧ Meets KthreadsLow tr ∧ (∃ p ∈ tr, p.2.Allocates 2) ∧
      runnableEnvLookup s 0 2 = Except.ok (some 2) := by
  have halloc : ∀ (s : Kernel) (type : EnvType) (x n : ℕ), s.envFreeList = List.range' x (n + 1) →
      ∃ t, envAlloc s 0 type = some (x, t) ∧ t.envFreeList = List.range' (x + 1) n := by
    intro s type x n hlist
    rw [envAlloc, hlist, List.range'_succ]
    exact ⟨_, rfl, rfl⟩
  obtain ⟨s₁, h₁, hl₁⟩ := envAlloc_init 0 .kernel
  obtain ⟨s₂, h₂, hl₂⟩ := halloc s₁ .kernel 1 1023 hl₁
  obtain ⟨s₃, h₃, -⟩ := halloc s₂ .user 2 1022 hl₂
  have hstep : ∀ (s t : Kernel) (type : EnvType) (x : ℕ), envAlloc s 0 type = some (x, t) →
      tableStep s (.ids (.alloc 0 type x (t.envs x).envId)) t := fun s t type x h => ⟨h, rfl⟩
  have hrun := (((Run.nil Kernel.init).snoc (hstep _ _ _ _ h₁)).snoc (hstep _ _ _ _ h₂)).snoc
    (hstep _ _ _ _ h₃)
  have hmeets : Meets KthreadsLow ([] ++ [(Kernel.init,
      TableOp.ids (.alloc 0 .kernel 0 (s₁.envs 0).envId))] ++
      [(s₁, TableOp.ids (.alloc 0 .kernel 1 (s₂.envs 1).envId))] ++
        [(s₂, TableOp.ids (.alloc 0 .user 2 (s₃.envs 2).envId))]) := by
    simp [Meets, KthreadsLow, nKThreads]
  have hthird : ∃ p ∈ [] ++ [(Kernel.init, TableOp.ids (.alloc 0 .kernel 0 (s₁.envs 0).envId))] ++
      [(s₁, TableOp.ids (.alloc 0 .kernel 1 (s₂.envs 1).envId))] ++
        [(s₂, TableOp.ids (.alloc 0 .user 2 (s₃.envs 2).envId))],
      p.2.Allocates 2 := ⟨_, List.mem_append_right _ (List.mem_singleton_self _), rfl⟩
  have hst := (envAlloc_some h₃).2.2.1
  obtain ⟨r, hres, hwell⟩ := lookup_finds_runnable hrun hmeets 0 2 (Or.inr hthird)
  have hfirst : (circle 2).find? (fun x => s₃.status x = .runnable) = some 2 := by
    rw [circle, show nEnv - 2 = 1021 + 1 from rfl, List.range'_succ, List.cons_append,
      List.find?_cons, decide_eq_true hst]
  rw [SearchedWell, show max 2 nKThreads = 2 from rfl, hfirst] at hwell
  obtain rfl : r = some 2 := hwell
  exact ⟨_, s₃, hrun, hmeets, hthird, hres⟩

end Jos
