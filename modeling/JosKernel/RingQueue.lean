/-
**A queue in a ring of cells.**

A ring has `n` cells, a place where the next element is read and one where the next is written, and
both go round. It does not know whether it is full: when the place of writing comes to the place of
reading, the ring is empty, and all elements in it are lost.

Main definitions:

* `RingQueue.next` — the cell after a cell;
* `RingQueue.Holds` — the queue that a ring stands for;
* `RingQueue.push` — what a write makes of the queue;
* `RingQueue.Loses` — a list of which some blocks of `n` elements in a row are lost.

Main results:

* `RingQueue.Holds.push`, `RingQueue.Holds.pop`, `RingQueue.Holds.empty_iff` — the operations of a
  ring are those of its queue;
* `RingQueue.Loses.sublist`, `RingQueue.Loses.length`, `RingQueue.Loses.eq_iff` — how much is lost;
* `RingQueue.Delivers.push`, `RingQueue.Delivers.pop` — what has been read and what is waiting,
  after each operation;
* `RingQueue.Delivers.push_all` — several writes, which lose nothing exactly when there is room for
  all of them.
-/

import Mathlib.Data.Nat.ModEq
import Mathlib.Tactic.Common

set_option relaxedAutoImplicit false
set_option autoImplicit false

namespace RingQueue

variable {α : Type*} {n : ℕ}

/-- The cell after a cell. -/
def next (n i : ℕ) : ℕ := if i + 1 = n then 0 else i + 1

theorem next_eq_mod {i : ℕ} (h : i < n) : next n i = (i + 1) % n := by
  unfold next
  split
  · next hn => rw [hn, Nat.mod_self]
  · next hn => rw [Nat.mod_eq_of_lt (by omega)]

theorem next_lt {i : ℕ} (h : i < n) : next n i < n := by
  rw [next_eq_mod h]
  exact Nat.mod_lt _ (by omega)

theorem next_add_mod {r : ℕ} (h : r < n) (i : ℕ) : (next n r + i) % n = (r + (i + 1)) % n := by
  rw [next_eq_mod h, Nat.mod_add_mod, Nat.add_assoc, Nat.add_comm 1 i]

/-- Cells that are less than a round apart are different. -/
theorem cell_ne {r i j : ℕ} (hi : i < j) (hj : j < n) : (r + i) % n ≠ (r + j) % n := by
  intro h
  have hmod : i ≡ j [MOD n] := Nat.ModEq.add_left_cancel' r h
  rw [Nat.ModEq, Nat.mod_eq_of_lt (hi.trans hj), Nat.mod_eq_of_lt hj] at hmod
  omega

/-! ### The queue of a ring -/

/-- **The queue that a ring stands for**: the cells from the place of reading up to the place of
writing. -/
structure Holds (n : ℕ) (buf : ℕ → α) (r w : ℕ) (q : List α) : Prop where
  read : r < n
  room : q.length < n
  write : w = (r + q.length) % n
  cells : ∀ i (h : i < q.length), buf ((r + i) % n) = q[i]

/-- What a write makes of the queue. -/
def push (n : ℕ) (q : List α) (x : α) : List α := if q.length + 1 = n then [] else q ++ [x]

theorem push_length_lt {q : List α} (h : q.length < n) (x : α) : (push n q x).length < n := by
  unfold push
  split
  · exact Nat.zero_lt_of_lt h
  · rw [List.length_append, List.length_singleton]
    omega

namespace Holds

variable {buf : ℕ → α} {r w : ℕ} {q : List α}

theorem nil (h : r < n) (buf : ℕ → α) : Holds n buf r r [] :=
  ⟨h, by simpa using Nat.zero_lt_of_lt h, by simp [Nat.mod_eq_of_lt h], by simp⟩

theorem write_lt (h : Holds n buf r w q) : w < n := by
  rw [h.write]
  exact Nat.mod_lt _ (Nat.zero_lt_of_lt h.read)

/-- **The places are the same** exactly when nothing is waiting. -/
theorem empty_iff (h : Holds n buf r w q) : r = w ↔ q = [] := by
  constructor
  · intro hrw
    by_contra hne
    refine cell_ne (r := r) (List.length_pos_iff.2 hne) h.room ?_
    rw [Nat.add_zero, Nat.mod_eq_of_lt h.read, ← h.write]
    exact hrw
  · intro hq
    rw [h.write, hq, List.length_nil, Nat.add_zero, Nat.mod_eq_of_lt h.read]

/-- **A write**: the queue has an element more, unless it was the last free cell. -/
theorem push (h : Holds n buf r w q) (x : α) :
    Holds n (Function.update buf w x) r (next n w) (RingQueue.push n q x) := by
  have hnext : next n w = (r + (q.length + 1)) % n := by
    rw [next_eq_mod h.write_lt, h.write, Nat.mod_add_mod, Nat.add_assoc]
  unfold RingQueue.push
  by_cases hfull : q.length + 1 = n
  · rw [if_pos hfull, hnext, hfull, Nat.add_mod_right, Nat.mod_eq_of_lt h.read]
    exact nil h.read _
  · rw [if_neg hfull]
    have hroom := h.room
    refine ⟨h.read, by rw [List.length_append, List.length_singleton]; omega, by simpa using hnext,
      fun i hi => ?_⟩
    rw [List.length_append, List.length_singleton] at hi
    rcases Nat.lt_or_eq_of_le (Nat.le_of_lt_succ hi) with hi | rfl
    · have hne : (r + i) % n ≠ w := h.write ▸ cell_ne hi hroom
      rw [Function.update_of_ne hne, h.cells i hi, List.getElem_append_left hi]
    · simp [h.write]

/-- **A read** takes the element that waits longest. -/
theorem pop {x : α} (h : Holds n buf r w (x :: q)) : buf r = x ∧ Holds n buf (next n r) w q := by
  have hfirst := h.cells 0 (Nat.zero_lt_succ _)
  rw [Nat.add_zero, Nat.mod_eq_of_lt h.read] at hfirst
  refine ⟨hfirst, next_lt h.read, Nat.lt_of_succ_lt h.room, ?_, fun i hi => ?_⟩
  · rw [h.write, next_add_mod h.read, List.length_cons]
  · rw [next_add_mod h.read]
    exact h.cells (i + 1) (Nat.succ_lt_succ hi)

end Holds

/-! ### What is lost -/

/-- **A list of which `k` blocks** of `n` elements in a row are lost. -/
inductive Loses (n : ℕ) : ℕ → List α → List α → Prop
  | nil : Loses n 0 [] []
  | keep {k : ℕ} {l m : List α} (x : α) : Loses n k l m → Loses n k (l ++ [x]) (m ++ [x])
  | lose {k : ℕ} {l m : List α} (block : List α) : block.length = n → Loses n k l m →
    Loses n (k + 1) (l ++ block) m

namespace Loses

variable {k : ℕ} {l m : List α}

theorem sublist (h : Loses n k l m) : m.Sublist l := by
  induction h with
  | nil => exact List.Sublist.refl []
  | keep x _ ih => exact ih.append (List.Sublist.refl [x])
  | lose block _ _ ih => exact ih.trans (List.sublist_append_left ..)

theorem length (h : Loses n k l m) : l.length = m.length + n * k := by
  induction h with
  | nil => simp
  | keep x _ ih => simp [ih]; omega
  | lose block hblock _ ih => rw [List.length_append, ih, hblock, Nat.mul_succ, Nat.add_assoc]

/-- **Nothing is lost** exactly when no block is. -/
theorem eq_iff (h : Loses n k l m) (hn : 0 < n) : m = l ↔ k = 0 := by
  have hlen := h.length
  constructor
  · intro hml
    rw [hml] at hlen
    have hzero : n * k = 0 := by omega
    exact (Nat.mul_eq_zero.1 hzero).resolve_left (by omega)
  · intro hk
    rw [hk, Nat.mul_zero, Nat.add_zero] at hlen
    exact h.sublist.eq_of_length hlen.symm

end Loses

/-- **What becomes of the elements written**: those that were read, after `k` losses, and the last
ones, which are waiting. -/
def Delivers (n k : ℕ) (written read q : List α) : Prop :=
  ∃ old, written = old ++ q ∧ Loses n k old read

namespace Delivers

variable {k : ℕ} {written read q : List α}

theorem nil (n : ℕ) : Delivers n 0 ([] : List α) [] [] := ⟨[], rfl, .nil⟩

/-- A write. -/
theorem push (h : Delivers n k written read q) (x : α) :
    Delivers n (if q.length + 1 = n then k + 1 else k) (written ++ [x]) read
      (RingQueue.push n q x) := by
  obtain ⟨old, rfl, hold⟩ := h
  unfold RingQueue.push
  by_cases hfull : q.length + 1 = n
  · rw [if_pos hfull, if_pos hfull]
    refine ⟨old ++ (q ++ [x]), by simp, hold.lose _ ?_⟩
    rw [List.length_append, List.length_singleton, hfull]
  · rw [if_neg hfull, if_neg hfull]
    exact ⟨old, List.append_assoc .., hold⟩

/-- **Several writes** lose nothing exactly when there is room for all of them. -/
theorem push_all (h : Delivers n k written read q) (hroom : q.length < n) (xs : List α) :
    ∃ k', k ≤ k' ∧ Delivers n k' (written ++ xs) read (xs.foldl (RingQueue.push n) q) ∧
      (k' = k ↔ q.length + xs.length < n) := by
  induction xs generalizing k written q with
  | nil => exact ⟨k, Nat.le_refl k, by simpa using h, by simpa using hroom⟩
  | cons x xs ih =>
      obtain ⟨k', hle, hrest, hiff⟩ := ih (h.push x) (push_length_lt hroom x)
      refine ⟨k', ?_, by simpa using hrest, ?_⟩
      · split at hle
        · exact Nat.le_of_succ_le hle
        · exact hle
      · unfold RingQueue.push at hiff
        split at hle
        · next hfull =>
            rw [List.length_cons]
            omega
        · next hfull =>
            rw [if_neg hfull, if_neg hfull, List.length_append, List.length_singleton] at hiff
            rw [hiff, List.length_cons, Nat.add_assoc, Nat.add_comm 1]

/-- A read. -/
theorem pop {x : α} (h : Delivers n k written read (x :: q)) :
    Delivers n k written (read ++ [x]) q := by
  obtain ⟨old, rfl, hold⟩ := h
  exact ⟨old ++ [x], by simp, hold.keep x⟩

/-- What is waiting was written last. -/
theorem suffix (h : Delivers n k written read q) : q <:+ written := by
  obtain ⟨old, rfl, -⟩ := h
  exact List.suffix_append old q

theorem length (h : Delivers n k written read q) :
    written.length = read.length + q.length + n * k := by
  obtain ⟨old, rfl, hold⟩ := h
  rw [List.length_append, hold.length]
  omega

/-- **Everything arrives in order** exactly when nothing is lost. -/
theorem eq_iff (h : Delivers n k written read q) (hn : 0 < n) : read ++ q = written ↔ k = 0 := by
  obtain ⟨old, rfl, hold⟩ := h
  rw [List.append_left_inj]
  exact hold.eq_iff hn

end Delivers

end RingQueue
