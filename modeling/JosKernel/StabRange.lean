/-
**The search in any table.**

Where `stab_binsearch` of `kern/kdebug.c` may read, and which indices it may leave in its two
variables, when nothing is known about the table: the entries may be in any order.

Main definitions:

* `Jos.AddrInv` — the address has been moved over indices that have been passed.

Main results:

* `Jos.stabBinsearch_range` — **the region that is found begins at most one entry before the one
  that is searched**;
* `Jos.stabBinsearch_source` — an address far enough from the end of the address space: where the
  region begins there is an entry of the type, or it is the beginning, or the entry before it.
-/

import JosKernel.Stabs

set_option relaxedAutoImplicit false
set_option autoImplicit false

namespace Jos

/-! ### The address -/

/-- **The address has been moved** at most once for every index that has been passed, and once more
for the one at `l`. -/
structure AddrInv (stabs : ℤ → Stab) (type : BitVec 32) (L : ℤ) (a : ℕ) (b : Search) : Prop where
  reach : (b.addr.toNat : ℤ) ≤ a + (b.l - L) ∨ ((b.addr.toNat : ℤ) ≤ a + (b.l - L) + 1 ∧
    (stabs b.l).nValue.toNat < b.addr.toNat)
  left : b.regionLeft = L ∨ ((stabs b.regionLeft).HasType type ∧ b.regionLeft ≤ b.r ∧
    (b.regionLeft < b.l ∨ (b.regionLeft = b.l ∧ (stabs b.l).nValue.toNat < b.addr.toNat)))

section Places

variable {stabs : ℤ → Stab} {type : BitVec 32} {L R : ℤ} {a : ℕ} {b b' : Search} {addr : BitVec 32}

theorem addrInv_start : AddrInv stabs type L addr.toNat ⟨L, R, L, R, false, addr⟩ where
  reach := Or.inl (by dsimp only; omega)
  left := Or.inl rfl

theorem AddrInv.round (hwrap : (a : ℤ) + (R - L) + 1 < 2 ^ 32) (hp : PlaceInv stabs type L R b)
    (h : AddrInv stabs type L a b) (hgo : Go stabs type b b') : AddrInv stabs type L a b' := by
  obtain ⟨hle, hround⟩ := hgo
  obtain ⟨hlo, hhi⟩ := tdiv_mid hle
  have hlow := hp.low
  have hhigh := hp.high
  have hreach := h.reach
  cases hround with
  | skip hno =>
      refine ⟨Or.inl (by dsimp only; omega), h.left.imp_right fun ⟨hhas, hr, hl⟩ =>
        ⟨hhas, hr, Or.inl ?_⟩⟩
      dsimp only
      omega
  | @below m hm hlt =>
      have hmhigh := hm.2.1
      exact ⟨Or.inl (by dsimp only; omega), Or.inr
        ⟨hm.2.2.1, by dsimp only; omega, Or.inl (by dsimp only; omega)⟩⟩
  | @above m hm hlt =>
      have hmlow := hm.1
      have hlt : b.addr.toNat < (stabs m).nValue.toNat := hlt
      refine ⟨hreach, h.left.imp_right fun ⟨hhas, hr, hl⟩ => ⟨hhas, ?_, hl⟩⟩
      -- the entry at the left end is not the one that is above the address
      have hne : b.regionLeft ≠ m := by
        rintro rfl
        rcases hl with hl | ⟨hl, hval⟩
        · omega
        · rw [← hl] at hval
          omega
      dsimp only
      omega
  | @hit m hm hval =>
      have hmlow := hm.1
      have hmhigh := hm.2.1
      have hval : (stabs m).nValue.toNat = b.addr.toNat := congrArg BitVec.toNat hval
      -- an address that has been moved for the entry at `l` does not meet it again
      have hmove : (b.addr.toNat : ℤ) ≤ a + (m - L) := by
        rcases hreach with hreach | ⟨hreach, hbelow⟩
        · omega
        · have hne : m ≠ b.l := by
            rintro rfl
            omega
          omega
      have haddr : (b.addr + 1).toNat = b.addr.toNat + 1 := by
        have hone : (1 : BitVec 32).toNat = 1 := rfl
        rw [BitVec.toNat_add, hone, Nat.mod_eq_of_lt (by omega)]
      have hlt : (stabs m).nValue.toNat < (b.addr + 1).toNat := by omega
      exact ⟨Or.inr ⟨by dsimp only; omega, hlt⟩, Or.inr
        ⟨hm.2.2.1, by dsimp only; omega, Or.inr ⟨rfl, hlt⟩⟩⟩

theorem go_addr (hwrap : (a : ℤ) + (R - L) + 1 < 2 ^ 32)
    (hgo : Relation.ReflTransGen (Go stabs type) b b') (hp : PlaceInv stabs type L R b)
    (h : AddrInv stabs type L a b) : AddrInv stabs type L a b' := by
  induction hgo with
  | refl => exact h
  | tail hrest hstep ih => exact ih.round hwrap (go_place hrest hp) hstep

end Places

/-! ### What is found -/

section Found

variable {ε : Type} {load : ℤ → Except ε Stab} {stabs : ℤ → Stab} {type : BitVec 32} {L R : ℤ}
    {addr : BitVec 32}

/-- **What the search leaves in its variables**, for any table. -/
theorem stabBinsearch_range (hload : ∀ i, L ≤ i → i ≤ R → load i = .ok (stabs i)) :
    ∃ k right, stabBinsearch load type L R addr = .ok (some (k, right)) ∧
      stabBinsearch (fun i => (.ok (stabs i) : Except ε Stab)) type L R addr =
        .ok (some (k, right)) ∧
      L - 1 ≤ k ∧ (right ≤ R ∨ right = L - 1) ∧ (¬ (stabs L).HasType type → L ≤ k) := by
  obtain ⟨b, k, right, hrun, hrun', hgo, -, hcase⟩ :=
    @stabBinsearch_ends ε load stabs type L R addr hload
  have hplace := go_place hgo placeInv_start
  have hleft := hplace.left
  refine ⟨k, right, hrun, hrun', ?_⟩
  rcases hcase with ⟨-, rfl, rfl⟩ | ⟨hany, rfl, hkr, hempty, hregion, -⟩
  · exact ⟨by omega, Or.inr rfl, fun _ => Int.le_refl _⟩
  · obtain ⟨hlow, hfirst⟩ := hplace.found hany
    by_cases hle : b.regionLeft ≤ b.r
    · obtain ⟨hk, -⟩ := hregion hle
      exact ⟨by omega, Or.inl hplace.high, fun _ => by omega⟩
    · obtain rfl := hempty (Int.not_le.1 hle)
      exact ⟨hlow, Or.inl hplace.high, hfirst⟩

/-- **Where the region begins**, when the address cannot pass `2 ^ 32`. -/
theorem stabBinsearch_source (hload : ∀ i, L ≤ i → i ≤ R → load i = .ok (stabs i))
    (hwrap : (addr.toNat : ℤ) + (R - L) + 1 < 2 ^ 32) :
    ∃ k right, stabBinsearch load type L R addr = .ok (some (k, right)) ∧
      stabBinsearch (fun i => (.ok (stabs i) : Except ε Stab)) type L R addr =
        .ok (some (k, right)) ∧
      ((k = L - 1 ∧ right = L - 1 ∧ L ≤ R) ∨ k = L ∨
        (L < k ∧ k ≤ right ∧ right ≤ R ∧ (stabs k).HasType type)) := by
  obtain ⟨b, k, right, hrun, hrun', hgo, -, hcase⟩ :=
    @stabBinsearch_ends ε load stabs type L R addr hload
  have hplace := go_place hgo placeInv_start
  have haddr := go_addr hwrap hgo placeInv_start addrInv_start
  have hleft := hplace.left
  refine ⟨k, right, hrun, hrun', ?_⟩
  rcases hcase with ⟨-, rfl, -⟩ | ⟨hany, rfl, hkr, hempty, hregion, -⟩
  · exact Or.inr (Or.inl rfl)
  · obtain ⟨hlow, -⟩ := hplace.found hany
    by_cases hle : b.regionLeft ≤ b.r
    · obtain ⟨hk, hhas⟩ := hregion hle
      by_cases hkL : k = L
      · exact Or.inr (Or.inl hkL)
      · refine Or.inr (Or.inr ⟨by omega, hkr, hplace.high, ?_⟩)
        rcases hhas with rfl | hhas
        · exact (haddr.left.resolve_left hkL).1
        · exact hhas
    · -- only the region that has not been moved can be empty
      have hstart : b.regionLeft = L := by
        rcases haddr.left with hl | ⟨-, hr, -⟩
        · exact hl
        · exact absurd hr hle
      have hk := hempty (Int.not_le.1 hle)
      have hne := hplace.nonempty hany
      exact Or.inl ⟨by omega, by omega, hne⟩

/-- The first index that is read is the one in the middle. -/
theorem stabBinsearch_error {why : ε} (hle : L ≤ R) (h : load ((L + R).tdiv 2) = .error why) :
    stabBinsearch load type L R addr = .error why := by
  obtain ⟨hlo, -⟩ := tdiv_mid hle
  obtain ⟨n, hn⟩ : ∃ n : ℕ, ((L + R).tdiv 2 - L + 1).toNat = n + 1 :=
    ⟨((L + R).tdiv 2 - L).toNat, by omega⟩
  have hround : binRound load type ⟨L, R, L, R, false, addr⟩ = .error why := by
    unfold binRound
    dsimp only
    rw [hn, seekBack, h]
    rfl
  rw [stabBinsearch, binLoop, if_pos hle, hround]
  rfl

end Found

end Jos
