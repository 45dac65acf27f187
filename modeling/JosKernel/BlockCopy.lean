/-
**Copying a block of memory unit by unit.**

A block is copied in units of one or more places, each of which is read as a whole before it is
written, from the low end upwards or from the high end downwards. Where the two blocks overlap, a
unit may have been written to before it is read. The order protects what has still to be read:
upwards if the destination begins below the source, or behind its end, and downwards if it begins
above the source. Then the result is the same as if the block had been read at once, whatever the
size of the units.

Main definitions:

* `BlockCopy.blit` — the block is read and written at once;
* `BlockCopy.copyUp`, `BlockCopy.copyDown` — the loops over its units.

Main results:

* `BlockCopy.blit_inside`, `BlockCopy.blit_outside` — what a block that is written at once leaves
  behind;
* `BlockCopy.blit_above`, `BlockCopy.blit_below` — a unit, and then the block above or below it;
* `BlockCopy.copyUp_eq`, `BlockCopy.copyDown_eq` — **the loops copy the block**, in the direction
  that fits.
-/

import Mathlib.Algebra.Group.Int.Defs
import Mathlib.Algebra.Group.Nat.Defs
import Mathlib.Tactic.Common

set_option relaxedAutoImplicit false
set_option autoImplicit false

namespace BlockCopy

variable {w : ℕ} {α : Type*}

/-- **The `n` places from `s` on are read, and written to the places from `d` on**, at once. -/
def blit (m : BitVec w → α) (d s : BitVec w) (n : ℕ) : BitVec w → α :=
  fun a => if (a - d).toNat < n then m (s + (a - d)) else m a

/-- The `n` units of `u` places from `s` on, from the low end upwards. -/
def copyUp (u : ℕ) : ℕ → (BitVec w → α) → BitVec w → BitVec w → BitVec w → α
  | 0, m, _, _ => m
  | n + 1, m, d, s => copyUp u n (blit m d s u) (d + BitVec.ofNat w u) (s + BitVec.ofNat w u)

/-- The `n` units of `u` places that end before `s`, from the high end downwards. -/
def copyDown (u : ℕ) : ℕ → (BitVec w → α) → BitVec w → BitVec w → BitVec w → α
  | 0, m, _, _ => m
  | n + 1, m, d, s =>
      copyDown u n (blit m (d - BitVec.ofNat w u) (s - BitVec.ofNat w u) u) (d - BitVec.ofNat w u)
        (s - BitVec.ofNat w u)

/-! ### Places -/

/-- Every place is at some distance above a given one. -/
theorem exists_place (d a : BitVec w) : ∃ i < 2 ^ w, a = d + BitVec.ofNat w i := by
  refine ⟨(a - d).toNat, (a - d).isLt, ?_⟩
  rw [BitVec.ofNat_toNat, BitVec.setWidth_eq, BitVec.add_comm, BitVec.sub_add_cancel]

theorem place_sub (d : BitVec w) (i : ℕ) : d + BitVec.ofNat w i - d = BitVec.ofNat w i := by
  rw [BitVec.add_comm, BitVec.add_sub_cancel]

/-- The distance from the place `u` above to the place `i` above. -/
theorem toNat_place_sub (d : BitVec w) {i u : ℕ} (hi : i < 2 ^ w) (hu : u ≤ 2 ^ w) :
    (d + BitVec.ofNat w i - (d + BitVec.ofNat w u)).toNat = if u ≤ i then i - u
      else 2 ^ w + i - u := by
  have hshift : d + BitVec.ofNat w i - (d + BitVec.ofNat w u) =
      BitVec.ofNat w i - BitVec.ofNat w u := by
    rw [← BitVec.sub_sub, place_sub]
  rw [hshift, BitVec.toNat_sub, BitVec.toNat_ofNat, BitVec.toNat_ofNat, Nat.mod_eq_of_lt hi]
  rcases Nat.lt_or_eq_of_le hu with hlt | rfl
  · rw [Nat.mod_eq_of_lt hlt]
    by_cases hle : u ≤ i
    · rw [if_pos hle, show 2 ^ w - u + i = i - u + 2 ^ w by omega, Nat.add_mod_right,
        Nat.mod_eq_of_lt (by omega)]
    · rw [if_neg hle, Nat.mod_eq_of_lt (by omega)]
      omega
  · rw [Nat.mod_self, Nat.sub_zero, Nat.add_mod_left, Nat.mod_eq_of_lt hi, if_neg (Nat.not_le.2 hi),
      Nat.add_sub_cancel_left]

theorem place_add (d : BitVec w) (i j : ℕ) :
    d + BitVec.ofNat w i + BitVec.ofNat w j = d + BitVec.ofNat w (i + j) := by
  rw [BitVec.ofNat_add, BitVec.add_assoc]

/-- A place that is not behind the last one. -/
theorem toNat_place {d : BitVec w} {i : ℕ} (h : d.toNat + i < 2 ^ w) :
    (d + BitVec.ofNat w i).toNat = d.toNat + i := by
  rw [BitVec.toNat_add, BitVec.toNat_ofNat, Nat.add_mod_mod, Nat.mod_eq_of_lt h]

/-! ### A block at once -/

section

variable {m : BitVec w → α} {d s : BitVec w} {n : ℕ}

/-- The block at the distance `i`. -/
theorem blit_place {i : ℕ} (hi : i < 2 ^ w) :
    blit m d s n (d + BitVec.ofNat w i) = if i < n then m (s + BitVec.ofNat w i)
      else m (d + BitVec.ofNat w i) := by
  rw [blit, place_sub, BitVec.toNat_ofNat, Nat.mod_eq_of_lt hi]

/-- **The block is at its destination.** -/
theorem blit_inside (hn : n ≤ 2 ^ w) {i : ℕ} (hi : i < n) :
    blit m d s n (d + BitVec.ofNat w i) = m (s + BitVec.ofNat w i) := by
  rw [blit_place (Nat.lt_of_lt_of_le hi hn), if_pos hi]

/-- **The other places are as before.** -/
theorem blit_outside {a : BitVec w} (ha : ∀ i < n, a ≠ d + BitVec.ofNat w i) :
    blit m d s n a = m a := by
  obtain ⟨i, hi, rfl⟩ := exists_place d a
  rw [blit_place hi, if_neg fun hlt => ha i hlt rfl]

theorem blit_zero : blit m d s 0 = m := by
  funext a
  exact if_neg (Nat.not_lt_zero _)

/-- **A unit, and then the block above it**, if the unit is not written where the block has still to
be read. -/
theorem blit_above {u : ℕ} (hn : u + n ≤ 2 ^ w)
    (hclear : ∀ i, u ≤ i → i < u + n → ∀ j < u, s + BitVec.ofNat w i ≠ d + BitVec.ofNat w j) :
    blit (blit m d s u) (d + BitVec.ofNat w u) (s + BitVec.ofNat w u) n = blit m d s (u + n) := by
  funext a
  obtain ⟨i, hi, rfl⟩ := exists_place d a
  rw [blit_place hi, blit, toNat_place_sub d hi (by omega)]
  by_cases hu : u ≤ i
  · have hplace : s + BitVec.ofNat w u + (d + BitVec.ofNat w i - (d + BitVec.ofNat w u)) =
        s + BitVec.ofNat w i := by
      have hdist : d + BitVec.ofNat w i - (d + BitVec.ofNat w u) = BitVec.ofNat w (i - u) := by
        rw [← place_sub (d + BitVec.ofNat w u) (i - u), place_add, Nat.add_sub_cancel' hu]
      rw [hdist, place_add, Nat.add_sub_cancel' hu]
    rw [if_pos hu, hplace, blit_place hi, if_neg (Nat.not_lt.2 hu)]
    by_cases hin : i < u + n
    · rw [if_pos (by omega), if_pos hin, blit_outside (hclear i hu hin)]
    · rw [if_neg (by omega), if_neg hin]
  · rw [if_neg hu, if_neg (by omega), blit_place hi, if_pos (Nat.not_le.1 hu), if_pos (by omega)]

/-- **A unit, and then the block below it**, if the unit is not written where the block has still to
be read. -/
theorem blit_below {u : ℕ}
    (hclear : ∀ i < n, ∀ j < u, s + BitVec.ofNat w i ≠ d + BitVec.ofNat w (n + j)) :
    blit (blit m (d + BitVec.ofNat w n) (s + BitVec.ofNat w n) u) d s n = blit m d s (n + u) := by
  funext a
  obtain ⟨i, hi, rfl⟩ := exists_place d a
  rw [blit_place hi, blit_place hi]
  by_cases hin : i < n
  · rw [if_pos hin, if_pos (by omega)]
    refine blit_outside fun j hj => ?_
    rw [place_add]
    exact hclear i hin j hj
  · rw [if_neg hin]
    obtain ⟨j, rfl⟩ : ∃ j, i = n + j := ⟨i - n, by omega⟩
    rw [← place_add, blit_place (by omega), place_add, place_add]
    by_cases hj : j < u
    · rw [if_pos hj, if_pos (by omega)]
    · rw [if_neg hj, if_neg (by omega)]

end

/-! ### The loops -/

section

variable {u : ℕ} {d s : BitVec w}

/-- **Upwards**: the destination begins at or below the source, or behind its end. The loop has come
to the distance `k`. -/
theorem copyUp_from :
    ∀ (n k : ℕ) (m : BitVec w → α), d.toNat + (k + n * u) ≤ 2 ^ w → s.toNat + (k + n * u) ≤ 2 ^ w →
    (d.toNat ≤ s.toNat ∨ s.toNat + (k + n * u) ≤ d.toNat) →
    copyUp u n m (d + BitVec.ofNat w k) (s + BitVec.ofNat w k) = blit m (d + BitVec.ofNat w k)
      (s + BitVec.ofNat w k) (n * u) := by
  intro n
  induction n with
  | zero =>
      intro k m _ _ _
      rw [Nat.zero_mul, blit_zero]
      rfl
  | succ n ih =>
      intro k m hd hs hdir
      have hsucc : (n + 1) * u = u + n * u := by rw [Nat.succ_mul, Nat.add_comm]
      rw [hsucc] at hd hs hdir ⊢
      have hclear : ∀ i, u ≤ i → i < u + n * u → ∀ j < u,
          s + BitVec.ofNat w k + BitVec.ofNat w i ≠ d + BitVec.ofNat w k + BitVec.ofNat w j := by
        intro i hu hi j hj heq
        have hnat := congrArg BitVec.toNat heq
        rw [place_add, place_add, toNat_place (by omega), toNat_place (by omega)] at hnat
        omega
      have hrest := ih (k + u) (blit m (d + BitVec.ofNat w k) (s + BitVec.ofNat w k)
        u) (by omega) (by omega) (by omega)
      rw [← place_add, ← place_add] at hrest
      rw [copyUp, hrest, blit_above (by omega) hclear]

theorem copyUp_eq (n : ℕ) (m : BitVec w → α) (hd : d.toNat + n * u ≤ 2 ^ w)
    (hs : s.toNat + n * u ≤ 2 ^ w) (hdir : d.toNat ≤ s.toNat ∨ s.toNat + n * u ≤ d.toNat) :
    copyUp u n m d s = blit m d s (n * u) := by
  have hfrom := copyUp_from (u := u) (d := d) (s := s) n 0 m (by omega) (by omega) (by omega)
  rwa [BitVec.add_zero, BitVec.add_zero] at hfrom

/-- **Downwards**: the destination begins at or above the source. -/
theorem copyDown_eq (hdir : s.toNat ≤ d.toNat) :
    ∀ (n : ℕ) (m : BitVec w → α), d.toNat + n * u ≤ 2 ^ w →
    copyDown u n m (d + BitVec.ofNat w (n * u)) (s + BitVec.ofNat w (n * u)) =
      blit m d s (n * u) := by
  intro n
  induction n with
  | zero =>
      intro m _
      rw [Nat.zero_mul, blit_zero]
      rfl
  | succ n ih =>
      intro m hd
      have hback : ∀ p : BitVec w, p + BitVec.ofNat w ((n + 1) * u) - BitVec.ofNat w
          u = p + BitVec.ofNat w (n * u) := by
        intro p
        rw [Nat.succ_mul, ← place_add, BitVec.add_sub_cancel]
      have hclear : ∀ i < n * u, ∀ j < u, s + BitVec.ofNat w i ≠
        d + BitVec.ofNat w (n * u + j) := by
        rw [Nat.succ_mul] at hd
        intro i hi j hj heq
        have hnat := congrArg BitVec.toNat heq
        rw [toNat_place (by omega), toNat_place (by omega)] at hnat
        omega
      rw [copyDown, hback, hback]
      rw [Nat.succ_mul] at hd ⊢
      rw [ih _ (by omega), blit_below hclear]

end

end BlockCopy
