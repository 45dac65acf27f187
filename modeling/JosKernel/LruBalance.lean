/-
**Balancing the lists of pages in use.**

`lru_manager` moves pages from the end of the active list to the end of the inactive list until the
active list is not the longer one any more. A page that was used later comes behind one that was
used earlier.

Main definitions:

* `Jos.lruManager` — the loop;
* `Jos.balanced` — the two lists afterwards.

Main results:

* `Jos.LruInv.moveTail` — one round;
* `Jos.lruManager_balances` — **exactly the oldest active pages are moved**, as few as possible.
-/

import JosKernel.LruLists
import Mathlib.Order.Bounds.Defs

set_option relaxedAutoImplicit false
set_option autoImplicit false

namespace Jos

/-! ### The loop -/

-- `MIN_ALRU_SZ` and `BL_LRU_RATIO`.
def minAlruSz : BitVec 32 := 0
def blLruRatio : BitVec 32 := 1

/-- One round of `lru_manager`. `lru_insert_tail` does nothing with `NULL`, and the page is counted
all the same. -/
def lruMove (s : Mm) : Except Crash Mm := do
  let (p, s) ← lruTaRemove s
  match p with
  | some p => lruTiInsert s p
  | none => pure (s.addLruCount 1 .inactive)

/-- The loop of `lru_manager`, for at most `n` rounds. -/
def lruManagerFrom : ℕ → Mm → Except Crash Mm
  | 0, s =>
      if s.lruCount .active - minAlruSz > s.lruCount .inactive / blLruRatio then
        throw .diverges else pure s
  | n + 1, s =>
      if s.lruCount .active - minAlruSz > s.lruCount .inactive / blLruRatio then do
        let s ← lruMove s
        lruManagerFrom n s
      else pure s

/-- **`lru_manager()`**.  The active counter goes down by one in every round. -/
def lruManager (s : Mm) : Except Crash Mm :=
  if s.lruCount .active ≥ minAlruSz then lruManagerFrom (s.lruCount .active).toNat s else pure s

/-! ### What it does to the lists -/

/-- The lists after the last `k` active pages have been moved. -/
def balanced (L : LruSide → List ℕ) (k : ℕ) : LruSide → List ℕ
  | .active => (L .active).take ((L .active).length - k)
  | .inactive => L .inactive ++ ((L .active).drop ((L .active).length - k)).reverse

theorem balanced_zero (L : LruSide → List ℕ) : balanced L 0 = L := by
  funext q
  cases q with
  | active => simp [balanced]
  | inactive => simp [balanced]

/-- One page is moved, and then `k` others. -/
theorem balanced_succ {L L' : LruSide → List ℕ} {a : List ℕ} {p k : ℕ}
    (hactive : L .active = a ++ [p]) (hactive' : L' .active = a)
    (hinactive' : L' .inactive = L .inactive ++ [p]) : balanced L' k = balanced L (k + 1) := by
  have hlen : (a ++ [p]).length - (k + 1) = a.length - k := by simp
  have hle : a.length - k ≤ a.length := Nat.sub_le ..
  funext q
  cases q with
  | active =>
      rw [balanced, balanced, hactive, hactive', hlen, List.take_append_of_le_length hle]
  | inactive =>
      rw [balanced, balanced, hactive, hactive', hinactive', hlen,
        List.drop_append_of_le_length hle, List.reverse_append,
        List.reverse_singleton, List.append_assoc]

/-- Removing the tail of a list does not touch the number of pages. -/
theorem lruTailRemove_npages {s t : Mm} {q : LruSide} {p : Option ℕ}
    (h : lruTailRemove s q = .ok (p, t)) : t.npages = s.npages := by
  rw [lruTailRemove, lruRemoveTail] at h
  generalize hs₁ : (if (s.addLruCount (-1) q).lruHead q = (s.addLruCount (-1) q).lruTail
    q then (s.addLruCount (-1) q).setLruHead q none
    else s.addLruCount (-1) q) = s₁ at h
  have hnp : s₁.npages = s.npages := by
    rw [← hs₁]
    split <;> simp
  split at h
  · cases h
  · rw [← (Prod.mk.inj (Except.ok.inj h)).2]
    simpa using hnp
  · rw [← (Prod.mk.inj (Except.ok.inj h)).2]
    simpa using hnp

namespace LruInv

variable {s : Mm} {L : LruSide → List ℕ}

/-- The condition of the loop. -/
theorem unbalanced_iff (h : LruInv s L) :
    s.lruCount .active - minAlruSz > s.lruCount .inactive / blLruRatio ↔
      (L .inactive).length < (L .active).length := by
  have hsub : s.lruCount .active - minAlruSz = s.lruCount .active := BitVec.sub_zero _
  have hdiv : s.lruCount .inactive / blLruRatio = s.lruCount .inactive := BitVec.udiv_one
  rw [hsub, hdiv, gt_iff_lt, BitVec.lt_def, h.count_toNat, h.count_toNat]

/-- **One round**: the last active page becomes the last inactive page. -/
theorem moveTail (h : LruInv s L) {a : List ℕ} {p : ℕ} (hactive : L .active = a ++ [p]) :
    ∃ t L', lruMove s = .ok t ∧ LruInv t L' ∧ L' .active = a ∧ L' .inactive =
      L .inactive ++ [p] := by
  have hp : p ∈ L .active := by
    rw [hactive]
    simp
  have hnd := h.nodup .active
  rw [hactive] at hnd
  obtain ⟨t, hremove, ht⟩ := h.removeTail hactive
  have hnp := lruTailRemove_npages hremove
  have hno : ∀ q, p ∉ Function.update L .active a q := by
    intro q
    cases q with
    | active =>
        rw [Function.update_self]
        exact fun hmem => (List.nodup_append.1 hnd).2.2 p hmem p (by simp) rfl
    | inactive =>
        rw [Function.update_of_ne (by decide)]
        exact fun hmem => nomatch h.apart _ _ _ hp hmem
  obtain ⟨t', hinsert, -, ht'⟩ :=
    ht.insertTail (by rw [hnp]; exact h.bound .active p hp) hno .inactive
  refine ⟨_, _, ?_, ht', ?_, ?_⟩
  · rw [lruMove, lruTaRemove, hremove]
    change lruTiInsert t p = _
    rw [lruTiInsert, hinsert]
    rfl
  · rw [Function.update_of_ne (by decide), Function.update_self]
  · rw [Function.update_self, Function.update_of_ne (by decide)]

end LruInv

/-- **The loop**, from lists of any length. -/
theorem lruManagerFrom_balances :
    ∀ (n : ℕ) {s : Mm} {L : LruSide → List ℕ}, LruInv s L → (L .active).length ≤ n →
    ∃ t k, lruManagerFrom n s = .ok t ∧ IsLeast {k | (L .active).length - k ≤ (L .inactive).length +
      k} k ∧ LruInv t (balanced L k) := by
  intro n
  induction n with
  | zero =>
      intro s L h hn
      have hzero := Nat.le_zero.1 hn
      refine ⟨s, 0, ?_, ⟨?_, fun k _ => Nat.zero_le k⟩, by rw [balanced_zero]; exact h⟩
      · rw [lruManagerFrom, if_neg (by rw [h.unbalanced_iff]; omega)]
        rfl
      · change (L .active).length - 0 ≤ (L .inactive).length + 0
        omega
  | succ n ih =>
      intro s L h hn
      rw [lruManagerFrom]
      by_cases hlt : (L .inactive).length < (L .active).length
      · rw [if_pos (h.unbalanced_iff.2 hlt)]
        obtain ⟨a, p, hactive⟩ : ∃ a p, L .active = a ++ [p] := by
          rcases List.eq_nil_or_concat (L .active) with hnil | ⟨a, p, hap⟩
          · rw [hnil] at hlt
            exact absurd hlt (Nat.not_lt_zero _)
          · exact ⟨a, p, by rw [hap, List.concat_eq_append]⟩
        obtain ⟨t, L', hmove, ht, hactive', hinactive'⟩ := h.moveTail hactive
        have hlen : (L .active).length = a.length + 1 := by simp [hactive]
        have hlen' : (L' .active).length = a.length := by rw [hactive']
        have hinlen' : (L' .inactive).length = (L .inactive).length + 1 := by simp [hinactive']
        obtain ⟨t', k, hloop, ⟨hk, hleast⟩, ht'⟩ := ih ht (by omega)
        refine ⟨t', k + 1, by rw [hmove]; exact hloop, ⟨?_, fun m hm => ?_⟩, ?_⟩
        · have hk' : (L' .active).length - k ≤ (L' .inactive).length + k := hk
          change (L .active).length - (k + 1) ≤ (L .inactive).length + (k + 1)
          omega
        · have hm' : (L .active).length - m ≤ (L .inactive).length + m := hm
          have hpos : 0 < m := by omega
          have hle : k ≤ m - 1 := hleast (by
            change (L' .active).length - (m - 1) ≤ (L' .inactive).length + (m - 1)
            omega)
          omega
        · rw [← balanced_succ hactive hactive' hinactive']
          exact ht'
      · rw [if_neg (fun hc => hlt (h.unbalanced_iff.1 hc))]
        refine ⟨s, 0, rfl, ⟨?_, fun k _ => Nat.zero_le k⟩, by rw [balanced_zero]; exact h⟩
        change (L .active).length - 0 ≤ (L .inactive).length + 0
        omega

/-- **`lru_manager` moves exactly the oldest active pages**: the last `k` of them, in reverse order,
for the least `k` with which the active list is not longer than the inactive one. It ends, and none
of its checks fails. -/
theorem lruManager_balances {s : Mm} {L : LruSide → List ℕ} (h : LruInv s L) :
    ∃ t k, lruManager s = .ok t ∧ IsLeast {k | (L .active).length - k ≤ (L .inactive).length + k}
      k ∧ LruInv t (balanced L k) := by
  have hmin : s.lruCount .active ≥ minAlruSz := by
    rw [ge_iff_le, BitVec.le_def]
    exact Nat.zero_le _
  rw [lruManager, if_pos hmin]
  exact lruManagerFrom_balances _ h (Nat.le_of_eq (h.count_toNat .active).symm)

/-- Of two active pages the older one is moved. -/
theorem lruManager_balances_two :
    ∃ t, lruManager (lruHaInsert (lruHaInsert lruEight 6) 7) = .ok t ∧ t.lruHead .active = some 7 ∧
      t.lruHead .inactive = some 6 := by
  have hinv := lruInv_start (Mm.boot 8 frames_eight false fun _ _ => 0)
  have hinv₁ := hinv.insertHead (show 6 < _ from by decide) (by simp) .active
  have hinv₂ := hinv₁.insertHead (show 7 < _ from by decide) (fun q => by cases q <;> simp) .active
  obtain ⟨t, k, hrun, ⟨hk, hleast⟩, ht⟩ := lruManager_balances hinv₂
  have hk : 2 - k ≤ 0 + k := hk
  have hone : k ≤ 1 := hleast (show 2 - 1 ≤ 0 + 1 by decide)
  obtain rfl : k = 1 := by omega
  have hactive := (ht.rep .active).chain
  have hinactive := (ht.rep .inactive).chain
  simp only [balanced, Function.update_self] at hactive hinactive
  exact ⟨t, hrun, hactive.1, hinactive.1⟩

end Jos
