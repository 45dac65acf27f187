/-
**What a tasklet writes to the page tables.**

The last rounds of `page_out` and `page_in` in `kern/mm_pres.c`: `pgdir_walk` leads from the page
directory of `requestor_env` and from `fault_addr` to an entry, and the entry is rewritten.
`page_in` goes on to the entries that record the same sectors. Nothing is assumed of the page
tables; they are those at the time of the round.

Main definitions:

* `Jos.walkEntry` — the entry of an address in the directory of an environment;
* `Jos.pageOutEntries`, `Jos.pageInEntries`, `Jos.ktaskEntries` — the entries after a round;
* `Jos.SharesSlot` — an entry that records the same sectors as another one.

Main results:

* `Jos.pageOutEntries_eq`, `Jos.pageInEntries_eq` — the rounds of the swap subsystem write the same;
* `Jos.ktaskEntries_changed` — which entries a round can change.
-/

import JosKernel.Sched
import JosKernel.Swap

set_option relaxedAutoImplicit false
set_option autoImplicit false

namespace Jos

open Outcome

/-! ### The entry of an address -/

/-- `pgdir_walk(envs[e].env_pgdir, va, 0)` for an address below `UTOP` or from `KERNBASE` on. A free
slot has no directory, and all directories share the tables at `KERNBASE`. -/
def walkEntry (s : Kernel) (m : Swap) (e : ℕ) (va : BitVec 32) : Except Crash (Option PteId) :=
  if s.status e = .free then throw (.panic "pgdir_walk: PAGE TABLE DIRECTORY NULL")
  else if kernBase ≤ va then pure (some (.kern (pgnum (va - kernBase))))
  else if m.tables e (pdx va) then pure (some (.user e (pgnum va)))
  else if isPresent (m.ptes (.big e (pdx va))) then pure (some (.big e (pdx va)))
  else pure none

/-- An environment that is not free has a directory. -/
theorem walkEntry_ok {s : Kernel} {e : ℕ} (h : s.status e ≠ .free) (m : Swap) (va : BitVec 32) :
    ∃ k, walkEntry s m e va = Except.ok k := by
  rw [walkEntry, if_neg h]
  split
  · exact ⟨_, rfl⟩
  · split
    · exact ⟨_, rfl⟩
    · split <;> exact ⟨_, rfl⟩

/-- **Below `UTOP` an entry belongs to the environment.** -/
theorem walkEntry_env {s : Kernel} {m : Swap} {e : ℕ} {va : BitVec 32} {k : PteId} (hva : va < uTop)
    (h : walkEntry s m e va = Except.ok (some k)) : k.env = some e := by
  have hkern : ¬ kernBase ≤ va := by
    rw [BitVec.lt_def] at hva
    rw [BitVec.le_def]
    have htop : uTop.toNat < kernBase.toNat := by decide
    omega
  rw [walkEntry, if_neg hkern] at h
  split at h
  · exact absurd h (by simp [throw, throwThe, MonadExceptOf.throw])
  split at h
  · obtain rfl := Option.some_inj.1 (Except.ok.inj h)
    rfl
  · split at h
    · obtain rfl := Option.some_inj.1 (Except.ok.inj h)
      rfl
    · exact absurd (Except.ok.inj h) (by simp)

/-! ### The last rounds -/

/-- The last round of `page_out(t)` for the page `pi` that is written from the sector `slot` on. -/
def pageOutEntries (s : Kernel) (m : Swap) (e : ℕ) (va : BitVec 32) (slot pi : ℕ) :
    Except Crash (PteId → BitVec 32) :=
  let page := m.pages pi
  if page.ref = 0 then
    if page.alloc then throw (.panic "page out finished but page with ref") else pure m.ptes
  else do
    match ← walkEntry s m e va with
    -- `pre = *p` comes before the test of `p`
    | none => throw .nullDeref
    | some k =>
        -- the loop over the other entries of a shared page ends at a `NULL` one
        if 1 < page.ref then throw .nullDeref
        else if page.alloc = false then
          throw (.panic "page free: PAGE TO FREE MARKED AS NOT ALLOC")
        else pure (Function.update m.ptes k (swappedPte (m.ptes k) slot))

/-- An entry as it was before `swap_in` marked it, if the marks are complete. -/
def unmarked (w : BitVec 32) : BitVec 32 := if w &&& pteAvail ≠ 0 then w ^^^ pteAvail else w

/-- `*found = *p` at an entry `k` with the word `pre`. -/
def shareEntry (pre p : BitVec 32) (ptes : PteId → BitVec 32) (k : PteId) : PteId → BitVec 32 :=
  if ptes k = pre then Function.update ptes k p else ptes

/-- The last round of `page_in(t)`, with the page `pi`.  Which entries `seek_pte` finds in the other
environments is left open: it stops at words that are equal to `pre`. -/
def pageInEntries (s : Kernel) (m : Swap) (e : ℕ) (va : BitVec 32) (pi : ℕ) (found : List PteId) :
    Except Crash (PteId → BitVec 32) := do
  match ← walkEntry s m e va with
  | none => throw .nullDeref
  | some k =>
      let pre := unmarked (m.ptes k)
      let p := broughtPte (m.ptes k) pi
      let ptes := Function.update m.ptes k p
      pure (if pre &&& pteAvail ≠ 0 then found.foldl (shareEntry pre p) ptes else ptes)

/-- **The entries after a round of `ktask()`** over a tasklet with the fault address `va`, the
sector `slot` and the page `pi`. -/
def ktaskEntries (s : Kernel) (m : Swap) (va : BitVec 32) (slot pi : ℕ) (found : List PteId) :
    Except Crash (PteId → BitVec 32) :=
  match s.tList with
  | [] => pure m.ptes
  | t :: _ =>
      if t.count < nSectors then pure m.ptes
      else
        match t.fptr with
        | .pageOut => pageOutEntries s m t.requestorEnv va slot pi
        | .pageIn => pageInEntries s m t.requestorEnv va pi found

/-! ### The swap subsystem writes the same -/

/-- The last round of `page_out` in the swap subsystem. -/
theorem pageOutEntries_eq {s : Kernel} {m : Swap} {t : SwapTask} {e : ℕ} {va : BitVec 32}
    (hwalk : walkEntry s m e va = Except.ok (some t.entry)) :
    pageOutEntries s m e va t.sectorStart t.pi = (pageOutFinish m t).map Swap.ptes := by
  unfold pageOutEntries pageOutFinish
  rw [hwalk]
  dsimp only
  split
  · split <;> rfl
  · change (if 1 < (m.pages t.pi).ref then _ else _) = _
    split
    · rfl
    · split <;> rfl

/-- The last round of `page_in` in the swap subsystem, which finds the marks complete. -/
theorem pageInEntries_eq {s : Kernel} {m : Swap} {t : SwapTask} {e : ℕ} {va : BitVec 32}
    (hwalk : walkEntry s m e va = Except.ok (some t.entry))
    (hmark : unmarked (m.ptes t.entry) &&& pteAvail = 0) (found : List PteId) :
    pageInEntries s m e va t.pi found = Except.ok (pageInFinish m t).ptes := by
  unfold pageInEntries
  rw [hwalk]
  change Except.ok (if unmarked (m.ptes t.entry) &&& pteAvail ≠ 0 then _ else _) = _
  rw [if_neg (not_not.2 hmark)]
  rfl

/-! ### What a round changes -/

/-- **The entry `k` records the same sectors** as the entry `k₀`, whose marks are not complete. -/
def SharesSlot (m : Swap) (k₀ k : PteId) : Prop :=
  m.ptes k = unmarked (m.ptes k₀) ∧ unmarked (m.ptes k₀) &&& pteAvail ≠ 0

/-- The loop over the other environments changes entries with the word `pre` only. -/
theorem foldl_shareEntry {pre p : BitVec 32} {k : PteId} (found : List PteId) :
    ∀ ptes : PteId → BitVec 32, found.foldl (shareEntry pre p) ptes k ≠ ptes k → ptes k = pre := by
  induction found with
  | nil =>
      intro ptes h
      exact absurd rfl h
  | cons k' found ih =>
      intro ptes h
      rw [List.foldl_cons] at h
      by_cases hsame : shareEntry pre p ptes k' k = ptes k
      · rw [← hsame] at h ⊢
        exact ih _ h
      · unfold shareEntry at hsame
        split at hsame
        · rename_i hpre
          by_cases hk : k = k'
          · rwa [hk]
          · exact absurd (Function.update_of_ne hk _ _) hsame
        · exact absurd rfl hsame

theorem pageOutEntries_changed {s : Kernel} {m : Swap} {e slot pi : ℕ} {va : BitVec 32}
    {ptes : PteId → BitVec 32} (h : pageOutEntries s m e va slot pi = Except.ok ptes) {k : PteId}
    (hk : ptes k ≠ m.ptes k) : walkEntry s m e va = Except.ok (some k) := by
  unfold pageOutEntries at h
  dsimp only at h
  split at h
  · split at h
    · exact absurd h (by simp [throw, throwThe, MonadExceptOf.throw])
    · obtain rfl := Except.ok.inj h
      exact absurd rfl hk
  · obtain ⟨o, hwalk, h⟩ := bind_eq_ok.1 h
    cases o with
    | none => exact absurd h (by simp [throw, throwThe, MonadExceptOf.throw])
    | some k₀ =>
        dsimp only at h
        split at h
        · exact absurd h (by simp [throw, throwThe, MonadExceptOf.throw])
        · split at h
          · exact absurd h (by simp [throw, throwThe, MonadExceptOf.throw])
          · obtain rfl := Except.ok.inj h
            by_cases hkk : k = k₀
            · rwa [hkk]
            · exact absurd (Function.update_of_ne hkk _ _) hk

theorem pageInEntries_changed {s : Kernel} {m : Swap} {e pi : ℕ} {va : BitVec 32}
    {found : List PteId} {ptes : PteId → BitVec 32}
    (h : pageInEntries s m e va pi found = Except.ok ptes) {k : PteId} (hk : ptes k ≠ m.ptes k) :
    ∃ k₀, walkEntry s m e va = Except.ok (some k₀) ∧ (k = k₀ ∨ SharesSlot m k₀ k) := by
  unfold pageInEntries at h
  obtain ⟨o, hwalk, h⟩ := bind_eq_ok.1 h
  cases o with
  | none => exact absurd h (by simp [throw, throwThe, MonadExceptOf.throw])
  | some k₀ =>
      refine ⟨k₀, hwalk, ?_⟩
      by_cases hkk : k = k₀
      · exact Or.inl hkk
      have hold : ∀ w, Function.update m.ptes k₀ w k = m.ptes k := fun w =>
        Function.update_of_ne hkk _ _
      obtain rfl := Except.ok.inj h
      split at hk
      · rename_i hav
        rw [← hold (broughtPte (m.ptes k₀) pi)] at hk
        exact Or.inr ⟨(hold _).symm.trans (foldl_shareEntry found _ hk), hav⟩
      · exact absurd (hold _) hk

/-- **A round changes the entry of the tasklet that it completes**, and with it the entries that
record the same sectors. -/
theorem ktaskEntries_changed {s : Kernel} {m : Swap} {va : BitVec 32} {slot pi : ℕ}
    {found : List PteId} {ptes : PteId → BitVec 32}
    (h : ktaskEntries s m va slot pi found = Except.ok ptes) {k : PteId} (hk : ptes k ≠ m.ptes k) :
    ∃ t rest k₀, s.tList = t :: rest ∧ nSectors ≤ t.count ∧
      walkEntry s m t.requestorEnv va = Except.ok (some k₀) ∧ (k = k₀ ∨ SharesSlot m k₀ k) := by
  unfold ktaskEntries at h
  cases hτ : s.tList with
  | nil =>
      rw [hτ] at h
      obtain rfl := Except.ok.inj h
      exact absurd rfl hk
  | cons t rest =>
      rw [hτ] at h
      dsimp only at h
      split at h
      · obtain rfl := Except.ok.inj h
        exact absurd rfl hk
      · rename_i hcount
        cases hf : t.fptr with
        | pageOut =>
            rw [hf] at h
            exact ⟨t, rest, k, rfl, by omega, pageOutEntries_changed h hk, Or.inl rfl⟩
        | pageIn =>
            rw [hf] at h
            obtain ⟨k₀, hwalk, hkk⟩ := pageInEntries_changed h hk
            exact ⟨t, rest, k₀, rfl, by omega, hwalk, hkk⟩

end Jos
