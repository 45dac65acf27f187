/-
**The contract of the search in the stabs.**

The comment above `stab_binsearch` of `kern/kdebug.c` says what the search leaves in its two
variables, for a table in which the values of the entries of the type increase. When the search
meets the address itself it goes on with the next one, to find the end of the region as well; so it
can be misled by an entry with that address, and by entries that are all behind the address.

Main definitions:

* `Jos.SearchInv`, `Jos.WrapInv` — the invariant, and what is left of it when the address has passed
  `2 ^ 32`;
* `Jos.Brackets` — **the contract** in the comment above the function;
* `Jos.NextFirst` — the bisection meets the entry behind the one it looks for before it meets that
  one.

Main results:

* `Jos.Round.inv` — one round keeps the invariant, with a lemma for each kind of round;
* `Jos.nextFirst_iff` — the address is passed only once if and only if the next entry is met first;
* `Jos.stabBinsearch_brackets_iff` — **the search reads the region only, and when it meets its
  contract**.
-/

import JosKernel.Stabs
import Mathlib.Data.Int.LeastGreatest

set_option relaxedAutoImplicit false
set_option autoImplicit false

namespace Jos

/-! ### The invariant -/

/-- The values of the entries of the type are strictly increasing. -/
def Increasing (stabs : ℤ → Stab) (type : BitVec 32) (L R : ℤ) : Prop :=
  ∀ i j, L ≤ i → i < j → j ≤ R → (stabs i).HasType type → (stabs j).HasType type →
    (stabs i).nValue.toNat < (stabs j).nValue.toNat

theorem Increasing.lt_of_val {stabs : ℤ → Stab} {type : BitVec 32} {L R i j : ℤ}
    (hinc : Increasing stabs type L R) (hi : i ≤ R) (hj : L ≤ j) (hihas : (stabs i).HasType type)
    (hjhas : (stabs j).HasType type) (h : (stabs i).nValue.toNat < (stabs j).nValue.toNat) :
    i < j := by
  rcases Int.lt_trichotomy i j with hlt | rfl | hlt
  · exact hlt
  · exact absurd h (Nat.lt_irrefl _)
  · have := hinc j i hj hlt hi hjhas hihas
    omega

theorem Increasing.eq_of_val {stabs : ℤ → Stab} {type : BitVec 32} {L R i j : ℤ}
    (hinc : Increasing stabs type L R) (hi : L ≤ i) (hi' : i ≤ R) (hj : L ≤ j) (hj' : j ≤ R)
    (hihas : (stabs i).HasType type) (hjhas : (stabs j).HasType type)
    (h : (stabs i).nValue.toNat = (stabs j).nValue.toNat) : i = j := by
  rcases Int.lt_trichotomy i j with hlt | rfl | hlt
  · have := hinc i j hi hlt hj' hihas hjhas
    omega
  · rfl
  · have := hinc j i hj hlt hi' hjhas hihas
    omega

/-- Every number from `a` on and below `top` is the value of an entry. -/
def AllHit (stabs : ℤ → Stab) (type : BitVec 32) (L R : ℤ) (a top : ℕ) : Prop :=
  ∀ v, a ≤ v → v < top → ∃ i, L ≤ i ∧ i ≤ R ∧ (stabs i).HasType type ∧ (stabs i).nValue.toNat = v

/-- **The invariant of the loop**, for a search in the region from `L` to `R` that began with the
address `a`: what has been passed on the left is below the address, what has been passed on the
right is not, and the address has been moved over values of entries only. -/
structure SearchInv (stabs : ℤ → Stab) (type : BitVec 32) (L R : ℤ) (a : ℕ) (b : Search) :
    Prop where
  low : L ≤ b.l
  high : b.r ≤ R
  right : b.regionRight = b.r
  bound : b.r = R ∨ (b.r < R ∧ (stabs (b.r + 1)).HasType type)
  below : ∀ i, L ≤ i → i < b.l → (stabs i).HasType type → (stabs i).nValue.toNat < b.addr.toNat
  above : ∀ i, b.r < i → i ≤ R → (stabs i).HasType type → b.addr.toNat ≤ (stabs i).nValue.toNat ∧
    a < (stabs i).nValue.toNat
  left : (b.regionLeft = L ∧ b.addr.toNat = a ∧ ∀ i, L ≤ i → i < b.l → ¬ (stabs i).HasType type) ∨
    (L ≤ b.regionLeft ∧ b.regionLeft ≤ b.l ∧ b.regionLeft ≤ b.r ∧
      (stabs b.regionLeft).HasType type ∧
      (stabs b.regionLeft).nValue.toNat < b.addr.toNat)
  start : a ≤ b.addr.toNat
  hits : AllHit stabs type L R a b.addr.toNat
  found : b.anyMatches = true → ∃ i, L ≤ i ∧ i ≤ R ∧ (stabs i).HasType type
  missing : b.anyMatches = false → b.regionLeft = L ∧ b.r = R ∧ ∀ i, L ≤ i → i < b.l →
    ¬ (stabs i).HasType type

/-- **The address has passed `2 ^ 32`**: the last entry of the region has been met, and nothing is
at or behind it but itself. -/
structure WrapInv (stabs : ℤ → Stab) (type : BitVec 32) (L R : ℤ) (a : ℕ) (b : Search) : Prop where
  low : L ≤ b.regionLeft
  high : b.regionLeft ≤ R
  start : b.l = b.regionLeft
  near : b.regionLeft ≤ b.r + 1
  le : b.r ≤ R
  right : b.regionRight = b.r
  has : (stabs b.regionLeft).HasType type
  last : (stabs b.regionLeft).nValue.toNat = 2 ^ 32 - 1
  addr : b.addr = 0
  hits : AllHit stabs type L R a (2 ^ 32)
  found : b.anyMatches = true

section Invariant

variable {stabs : ℤ → Stab} {type : BitVec 32} {L R : ℤ} {a : ℕ} {b b' : Search}

theorem searchInv_start {addr : BitVec 32} :
    SearchInv stabs type L R addr.toNat ⟨L, R, L, R, false, addr⟩ where
  low := Int.le_refl _
  high := Int.le_refl _
  right := rfl
  bound := Or.inl rfl
  below _ hi hi' := absurd hi' (Int.not_lt.2 hi)
  above _ hi hi' := absurd hi (Int.not_lt.2 hi')
  left := Or.inl ⟨rfl, rfl, fun _ hi hi' => absurd hi' (Int.not_lt.2 hi)⟩
  start := Nat.le_refl _
  hits _ hv hv' := absurd hv' (Nat.not_lt.2 hv)
  found h := nomatch h
  missing _ := ⟨rfl, rfl, fun _ hi hi' => absurd hi' (Int.not_lt.2 hi)⟩

/-- Entries from `l` to the middle are at or before the last of them. -/
theorem Increasing.le_last (hinc : Increasing stabs type L R) {l k m : ℤ}
    (hm : LastIn (fun i => (stabs i).HasType type) l k m) (hk : m ≤ R) {i : ℤ} (hi : L ≤ i)
    (hik : i ≤ k) (hhas : (stabs i).HasType type) :
    (stabs i).nValue.toNat ≤ (stabs m).nValue.toNat := by
  obtain ⟨-, -, hmhas, hlast⟩ := hm
  rcases Int.lt_trichotomy i m with hlt | rfl | hlt
  · exact Nat.le_of_lt (hinc i m hi hlt hk hhas hmhas)
  · exact Nat.le_refl _
  · exact absurd hhas (hlast i hlt hik)

namespace SearchInv

/-- Nothing of the type is in the first half. -/
theorem skip (h : SearchInv stabs type L R a b) (hle : b.l ≤ b.r)
    (hno : ∀ i, b.l ≤ i → i ≤ (b.l + b.r).tdiv 2 → ¬ (stabs i).HasType type) :
    SearchInv stabs type L R a { b with l := (b.l + b.r).tdiv 2 + 1 } := by
  obtain ⟨hlo, hhi⟩ := tdiv_mid hle
  have hlow := h.low
  refine { h with low := ?_, below := ?_, left := ?_, missing := ?_ }
  · dsimp only
    omega
  · intro i hi hi' hhas
    by_cases hil : i < b.l
    · exact h.below i hi hil hhas
    · exact absurd hhas (hno i (Int.not_lt.1 hil) (by dsimp only at hi'; omega))
  · rcases h.left with ⟨hleft, haddr, hnone⟩ | ⟨hL, hl, hr, hhas, hval⟩
    · refine Or.inl ⟨hleft, haddr, fun i hi hi' => ?_⟩
      by_cases hil : i < b.l
      · exact hnone i hi hil
      · exact hno i (Int.not_lt.1 hil) (by dsimp only at hi'; omega)
    · exact Or.inr ⟨hL, by dsimp only; omega, hr, hhas, hval⟩
  · intro hany
    obtain ⟨hleft, hr, hnone⟩ := h.missing hany
    refine ⟨hleft, hr, fun i hi hi' => ?_⟩
    by_cases hil : i < b.l
    · exact hnone i hi hil
    · exact hno i (Int.not_lt.1 hil) (by dsimp only at hi'; omega)

/-- The last entry of the first half is below the address. -/
theorem below_round (hinc : Increasing stabs type L R) (h : SearchInv stabs type L R a b)
    (hle : b.l ≤ b.r) {m : ℤ}
    (hm : LastIn (fun i => (stabs i).HasType type) b.l ((b.l + b.r).tdiv 2) m)
    (hlt : (stabs m).nValue < b.addr) :
    SearchInv stabs type L R a
      { b with anyMatches := true, regionLeft := m, l := (b.l + b.r).tdiv 2 + 1 } := by
  obtain ⟨hlo, hhi⟩ := tdiv_mid hle
  have hlow := h.low
  have hhigh := h.high
  have hmlow := hm.1
  have hmhigh := hm.2.1
  refine
    { h with
      low := ?_
      below := ?_
      left := Or.inr ⟨?_, ?_, ?_, hm.2.2.1, hlt⟩
      found := ?_
      missing := fun hc => nomatch hc }
  · dsimp only
    omega
  · intro i hi hi' hhas
    exact Nat.lt_of_le_of_lt (hinc.le_last hm (by omega) hi (by dsimp only at hi'; omega) hhas) hlt
  · dsimp only
    omega
  · dsimp only
    omega
  · dsimp only
    omega
  · exact fun _ => ⟨m, by omega, by omega, hm.2.2.1⟩

/-- The last entry of the first half is behind the address. -/
theorem above_round (hinc : Increasing stabs type L R) (h : SearchInv stabs type L R a b)
    (hle : b.l ≤ b.r) {m : ℤ}
    (hm : LastIn (fun i => (stabs i).HasType type) b.l ((b.l + b.r).tdiv 2) m)
    (hlt : b.addr < (stabs m).nValue) :
    SearchInv stabs type L R a { b with anyMatches := true, regionRight := m - 1, r := m - 1 } := by
  obtain ⟨hlo, hhi⟩ := tdiv_mid hle
  have hlow := h.low
  have hhigh := h.high
  have hmlow := hm.1
  have hmhigh := hm.2.1
  have hstart := h.start
  have hlt : b.addr.toNat < (stabs m).nValue.toNat := hlt
  refine
    { h with
      high := ?_
      right := rfl
      bound := Or.inr ⟨?_, ?_⟩
      above := ?_
      left := ?_
      found := ?_
      missing := fun hc => nomatch hc }
  · dsimp only
    omega
  · dsimp only
    omega
  · dsimp only
    rw [Int.sub_add_cancel]
    exact hm.2.2.1
  · intro i hi hi' hhas
    dsimp only at hi ⊢
    rcases Int.lt_trichotomy i m with hc | rfl | hc
    · omega
    · exact ⟨Nat.le_of_lt hlt, by omega⟩
    · have := hinc m i (by omega) hc hi' hm.2.2.1 hhas
      omega
  · rcases h.left with hnone | ⟨hL, hl, hr, hhas, hval⟩
    · exact Or.inl hnone
    · refine Or.inr ⟨hL, hl, ?_, hhas, hval⟩
      -- the left end is not the entry that has been met: its value is below the address
      have hne : b.regionLeft ≠ m := by
        rintro hc
        rw [hc] at hval
        omega
      dsimp only
      omega
  · exact fun _ => ⟨m, by omega, by omega, hm.2.2.1⟩

/-- An entry has the value of the address, which can be moved over it. -/
theorem hits_met (h : SearchInv stabs type L R a b) {m : ℤ} (hL : L ≤ m) (hR : m ≤ R)
    (hhas : (stabs m).HasType type) (hval : (stabs m).nValue.toNat = b.addr.toNat) :
    AllHit stabs type L R a (b.addr.toNat + 1) := by
  intro v hv hv'
  by_cases hva : v < b.addr.toNat
  · exact h.hits v hv hva
  · exact ⟨m, hL, hR, hhas, by omega⟩

/-- The last entry of the first half is at the address, and there is a next address. -/
theorem hit_round (hinc : Increasing stabs type L R) (h : SearchInv stabs type L R a b)
    (hle : b.l ≤ b.r) {m : ℤ}
    (hm : LastIn (fun i => (stabs i).HasType type) b.l ((b.l + b.r).tdiv 2) m)
    (hval : (stabs m).nValue.toNat = b.addr.toNat) (hwrap : b.addr.toNat + 1 < 2 ^ 32) :
    SearchInv stabs type L R a
      { b with anyMatches := true, regionLeft := m, l := m, addr := b.addr + 1 } := by
  obtain ⟨hlo, hhi⟩ := tdiv_mid hle
  have hlow := h.low
  have hhigh := h.high
  have hmlow := hm.1
  have hmhigh := hm.2.1
  have hstart := h.start
  have hone : (1 : BitVec 32).toNat = 1 := rfl
  have haddr : (b.addr + 1).toNat = b.addr.toNat + 1 := by
    rw [BitVec.toNat_add, hone, Nat.mod_eq_of_lt hwrap]
  refine
    { h with
      low := ?_
      below := ?_
      above := ?_
      left := Or.inr ⟨?_, ?_, ?_, hm.2.2.1, ?_⟩
      start := ?_
      hits := ?_
      found := ?_
      missing := fun hc => nomatch hc }
  · dsimp only
    omega
  · intro i hi hi' hhas
    dsimp only at hi' ⊢
    have := hinc i m hi hi' (by omega) hhas hm.2.2.1
    omega
  · intro i hi hi' hhas
    dsimp only at hi ⊢
    have := hinc m i (by omega) (by omega) hi' hm.2.2.1 hhas
    omega
  · dsimp only
    omega
  · exact Int.le_refl _
  · dsimp only
    omega
  · dsimp only
    omega
  · dsimp only
    omega
  · dsimp only
    rw [haddr]
    exact h.hits_met (by omega) (by omega) hm.2.2.1 hval
  · exact fun _ => ⟨m, by omega, by omega, hm.2.2.1⟩

/-- It is at the last address. -/
theorem hit_last (h : SearchInv stabs type L R a b) (hle : b.l ≤ b.r) {m : ℤ}
    (hm : LastIn (fun i => (stabs i).HasType type) b.l ((b.l + b.r).tdiv 2) m)
    (hval : (stabs m).nValue.toNat = b.addr.toNat) (haddr : b.addr.toNat = 2 ^ 32 - 1) :
    WrapInv stabs type L R a
      { b with anyMatches := true, regionLeft := m, l := m, addr := b.addr + 1 } := by
  obtain ⟨hlo, hhi⟩ := tdiv_mid hle
  have hlow := h.low
  have hhigh := h.high
  have hmlow := hm.1
  have hmhigh := hm.2.1
  have hhits := h.hits_met (by omega) (by omega) hm.2.2.1 hval
  rw [haddr] at hhits
  refine ⟨by dsimp only; omega, by dsimp only; omega, rfl, by dsimp only; omega, hhigh, h.right,
    hm.2.2.1, hval.trans haddr, ?_, hhits, rfl⟩
  refine BitVec.eq_of_toNat_eq ?_
  rw [BitVec.toNat_add, haddr]
  rfl

end SearchInv

/-- **One round keeps the invariant**, until the address passes `2 ^ 32`. -/
theorem Round.inv (hinc : Increasing stabs type L R) (h : SearchInv stabs type L R a b)
    (hgo : Go stabs type b b') :
    SearchInv stabs type L R a b' ∨ (b.addr.toNat = 2 ^ 32 - 1 ∧ WrapInv stabs type L R a b') := by
  obtain ⟨hle, hround⟩ := hgo
  cases hround with
  | skip hno => exact Or.inl (h.skip hle hno)
  | below hm hlt => exact Or.inl (h.below_round hinc hle hm hlt)
  | above hm hlt => exact Or.inl (h.above_round hinc hle hm hlt)
  | @hit m hm hval =>
      have hval : (stabs m).nValue.toNat = b.addr.toNat := congrArg BitVec.toNat hval
      by_cases hwrap : b.addr.toNat + 1 < 2 ^ 32
      · exact Or.inl (h.hit_round hinc hle hm hval hwrap)
      · have haddr : b.addr.toNat = 2 ^ 32 - 1 := by omega
        exact Or.inr ⟨haddr, h.hit_last hle hm hval haddr⟩

/-- After that, the loop leaves the entry behind. -/
theorem WrapInv.round (hinc : Increasing stabs type L R) (h : WrapInv stabs type L R a b)
    (hgo : Go stabs type b b') : WrapInv stabs type L R a b' := by
  obtain ⟨hle, hround⟩ := hgo
  obtain ⟨hlo, hhi⟩ := tdiv_mid hle
  have hstart := h.start
  have hhigh := h.high
  have hle' := h.le
  -- nothing has a greater value than the entry that has been met
  have honly : ∀ {m : ℤ}, LastIn (fun i => (stabs i).HasType type) b.l ((b.l + b.r).tdiv 2) m →
      m = b.regionLeft := by
    rintro m ⟨hm, hm', hhas, -⟩
    by_contra hc
    have := hinc b.regionLeft m h.low (by omega) (by omega) h.has hhas
    have hlast := h.last
    have hbits := (stabs m).nValue.isLt
    omega
  have hzero : b.addr.toNat = 0 := by
    rw [h.addr]
    rfl
  have hlast := h.last
  cases hround with
  | skip hno => exact absurd h.has (hno _ (by omega) (by omega))
  | @below m hm hlt =>
      have hlt : (stabs m).nValue.toNat < b.addr.toNat := hlt
      omega
  | @above m hm hlt =>
      obtain rfl := honly hm
      exact { h with
        near := by dsimp only; omega, le := by dsimp only; omega, right := rfl, found := rfl }
  | @hit m hm hval =>
      obtain rfl := honly hm
      have hval := congrArg BitVec.toNat hval
      omega

/-- **The invariant at the end of the loop.** -/
theorem go_inv (hinc : Increasing stabs type L R) (hgo : Relation.ReflTransGen (Go stabs type) b b')
    (h : SearchInv stabs type L R a b) :
    SearchInv stabs type L R a b' ∨ WrapInv stabs type L R a b' := by
  induction hgo with
  | refl => exact Or.inl h
  | tail _ hstep ih =>
      rcases ih with h | h
      · exact (Round.inv hinc h hstep).imp_right fun hwrap => hwrap.2
      · exact Or.inr (h.round hinc hstep)

end Invariant

/-! ### Which of two entries is met first -/

/-- **The bisection of the indices from `l` to `r` meets the entry `n` before the entry `e`**, of
two entries of the type with none in between, when it looks for `e`. Only the types of the entries
matter. -/
inductive NextFirst (has : ℤ → Prop) (e n : ℤ) : ℤ → ℤ → Prop
  | met {l r : ℤ} : LastIn has l ((l + r).tdiv 2) n → NextFirst has e n l r
  | skip {l r : ℤ} : (∀ i, l ≤ i → i ≤ (l + r).tdiv 2 → ¬ has i) →
    NextFirst has e n ((l + r).tdiv 2 + 1) r → NextFirst has e n l r
  | less {l r m : ℤ} : LastIn has l ((l + r).tdiv 2) m → m < e →
    NextFirst has e n ((l + r).tdiv 2 + 1) r → NextFirst has e n l r
  | more {l r m : ℤ} : LastIn has l ((l + r).tdiv 2) m → n < m → NextFirst has e n l (m - 1) →
    NextFirst has e n l r

section First

variable {stabs : ℤ → Stab} {type : BitVec 32} {L R : ℤ} {a : ℕ} {b b' : Search} {e n : ℤ}

/-- Without an entry at the middle or before it, the bisection goes on behind it. -/
theorem nextFirst_skip {has : ℤ → Prop} {l r : ℤ} (h : ∀ i, l ≤ i → i ≤ (l + r).tdiv 2 → ¬ has i) :
    NextFirst has e n l r ↔ NextFirst has e n ((l + r).tdiv 2 + 1) r := by
  refine ⟨fun hfirst => ?_, .skip h⟩
  cases hfirst with
  | met hm => exact absurd hm.2.2.1 (h _ hm.1 hm.2.1)
  | skip _ hrest => exact hrest
  | less hm => exact absurd hm.2.2.1 (h _ hm.1 hm.2.1)
  | more hm => exact absurd hm.2.2.1 (h _ hm.1 hm.2.1)

theorem nextFirst_last {has : ℤ → Prop} {l r m : ℤ} (hm : LastIn has l ((l + r).tdiv 2) m)
    (hen : e < n) :
    NextFirst has e n l r ↔ m = n ∨ (m < e ∧ NextFirst has e n ((l + r).tdiv 2 + 1) r) ∨
      (n < m ∧ NextFirst has e n l (m - 1)) := by
  constructor
  · intro hfirst
    cases hfirst with
    | met hm' => exact Or.inl (hm.unique hm')
    | skip h => exact absurd hm.2.2.1 (h _ hm.1 hm.2.1)
    | less hm' hlt hrest =>
        obtain rfl := hm.unique hm'
        exact Or.inr (Or.inl ⟨hlt, hrest⟩)
    | more hm' hlt hrest =>
        obtain rfl := hm.unique hm'
        exact Or.inr (Or.inr ⟨hlt, hrest⟩)
  · rintro (rfl | ⟨hlt, hrest⟩ | ⟨hlt, hrest⟩)
    · exact .met hm
    · exact .less hm hlt hrest
    · exact .more hm hlt hrest

/-- An entry with the address as its value is met, if it has not been passed. -/
theorem SearchInv.met (h : SearchInv stabs type L R a b) (hend : b.r < b.l) {i : ℤ} (hi : L ≤ i)
    (hi' : i ≤ R) (hhas : (stabs i).HasType type) (hval : (stabs i).nValue.toNat ≤ a) :
    i ≤ b.r ∧ (stabs i).nValue.toNat < b.addr.toNat := by
  have hle : i ≤ b.r := by
    by_contra hc
    have := (h.above i (Int.not_le.1 hc) hi' hhas).2
    omega
  exact ⟨hle, h.below i hi (by omega) hhas⟩

/-- A search that ends before the entry `n` passes the address once, at the entry `e`. -/
theorem addr_of_cut (hinc : Increasing stabs type L R)
    (hgo : Relation.ReflTransGen (Go stabs type) b b') (hend : b'.r < b'.l)
    (h : SearchInv stabs type L (n - 1) a b) (haddr : b.addr.toNat = a) (hbits : a + 1 < 2 ^ 32)
    (he : L ≤ e) (hen : e < n) (hn : n ≤ R) (hehas : (stabs e).HasType type)
    (hnhas : (stabs n).HasType type) (heval : (stabs e).nValue.toNat = a)
    (hnval : (stabs n).nValue.toNat = a + 1) : b'.addr.toNat = a + 1 := by
  have hinc' : Increasing stabs type L (n - 1) := fun i j hi hij hj => hinc i j hi hij (by omega)
  have hless : ∀ i, L ≤ i → i ≤ n - 1 → (stabs i).HasType type →
    (stabs i).nValue.toNat < a + 1 := by
    intro i hi hi' hhas
    rw [← hnval]
    exact hinc i n hi (by omega) hn hhas hnhas
  rcases go_inv hinc' hgo h with hfin | hfin
  · have hmet := (hfin.met hend he (show e ≤ n - 1 by omega) hehas (by omega)).2
    by_contra hne
    obtain ⟨i, hi, hi', hhas, hval⟩ := hfin.hits (a + 1) (by omega) (by omega)
    have := hless i hi hi' hhas
    omega
  · have := hless _ hfin.low hfin.high hfin.has
    have hlast := hfin.last
    omega

/-- A search whose address is the value of an entry passes it. -/
theorem addr_of_met (hinc : Increasing stabs type L R)
    (hgo : Relation.ReflTransGen (Go stabs type) b b') (hend : b'.r < b'.l)
    (h : SearchInv stabs type L R (a + 1) b) (hn : L ≤ n) (hn' : n ≤ R)
    (hnhas : (stabs n).HasType type) (hnval : (stabs n).nValue.toNat = a + 1) :
    b'.addr.toNat ≠ a + 1 := by
  rcases go_inv hinc hgo h with hfin | hfin
  · have := (hfin.met hend hn hn' hnhas (by omega)).2
    omega
  · rw [hfin.addr]
    exact fun hc => nomatch hc

/-- **Which entry is met first decides how often the address is passed**: when it is met at `e`, and
the next entry has the value behind it, the address is moved by one if and only if the next entry is
met first. -/
theorem nextFirst_iff (hinc : Increasing stabs type L R)
    (hgo : Relation.ReflTransGen (Go stabs type) b b') (hend : b'.r < b'.l)
    (h : SearchInv stabs type L R a b) (haddr : b.addr.toNat = a) (hbits : a + 1 < 2 ^ 32)
    (he : b.l ≤ e) (hen : e < n) (hn : n ≤ b.r) (hehas : (stabs e).HasType type)
    (hnhas : (stabs n).HasType type) (heval : (stabs e).nValue.toNat = a)
    (hnval : (stabs n).nValue.toNat = a + 1) :
    NextFirst (fun i => (stabs i).HasType type) e n b.l b.r ↔ b'.addr.toNat = a + 1 := by
  induction hgo using Relation.ReflTransGen.head_induction_on with
  | refl => omega
  | @head b b₁ hstep hrest ih =>
      have h₁ : SearchInv stabs type L R a b₁ := (Round.inv hinc h hstep).resolve_right fun hc => by
        omega
      obtain ⟨hle, hround⟩ := hstep
      obtain ⟨hlo, hhi⟩ := tdiv_mid hle
      have hlow := h.low
      have hhigh := h.high
      cases hround with
      | skip hno =>
          have hmid : (b.l + b.r).tdiv 2 < e := by
            by_contra hc
            exact hno e he (Int.not_lt.1 hc) hehas
          rw [nextFirst_skip hno]
          exact ih h₁ haddr hmid hn
      | @below m hm hlt =>
          have hlt : (stabs m).nValue.toNat < b.addr.toNat := hlt
          have hm' := hm.2.1
          have hme : m < e := hinc.lt_of_val (by omega) (by omega) hm.2.2.1 hehas (by omega)
          have hmid : (b.l + b.r).tdiv 2 < e := by
            by_contra hc
            exact hm.2.2.2 e hme (Int.not_lt.1 hc) hehas
          rw [nextFirst_last hm hen]
          refine Iff.trans ⟨fun hcase => ?_, fun hrest => Or.inr (Or.inl ⟨hme, hrest⟩)⟩
            (ih h₁ haddr hmid hn)
          rcases hcase with rfl | ⟨-, hrest⟩ | ⟨hc, -⟩
          · omega
          · exact hrest
          · omega
      | @above m hm hlt =>
          have hlt : b.addr.toNat < (stabs m).nValue.toNat := hlt
          have hm' := hm.2.1
          rw [nextFirst_last hm hen]
          by_cases heq : m = n
          · subst heq
            refine iff_of_true (Or.inl rfl) ?_
            have hcut : SearchInv stabs type L (m - 1) a
                { b with anyMatches := true, regionRight := m - 1, r := m - 1 } :=
              { h₁ with
                high := Int.le_refl _, bound := Or.inl rfl,
                above := fun i hi hi' => absurd hi (Int.not_lt.2 hi'),
                hits := fun v hv hv' => absurd hv' (by dsimp only; omega),
                found := fun _ => ⟨e, by omega, by omega, hehas⟩,
                missing := fun hc => nomatch hc }
            exact addr_of_cut hinc hrest hend hcut haddr hbits (by omega) hen (by omega) hehas
              hnhas heval hnval
          · have hmn : n < m := by
              have hne : (stabs m).nValue.toNat ≠ a + 1 := fun hc =>
                heq (hinc.eq_of_val (by have := hm.1; omega) (by omega) (by omega) (by omega)
                  hm.2.2.1 hnhas (hc.trans hnval.symm))
              exact hinc.lt_of_val (by omega) (by have := hm.1; omega) hnhas hm.2.2.1 (by omega)
            refine Iff.trans ⟨fun hor => ?_, fun hrest => Or.inr (Or.inr ⟨hmn, hrest⟩)⟩
              (ih h₁ haddr he (by dsimp only; omega))
            rcases hor with hc | ⟨hc, -⟩ | ⟨-, hrest⟩
            · exact absurd hc heq
            · omega
            · exact hrest
      | @hit m hm hval =>
          have hval : (stabs m).nValue.toNat = b.addr.toNat := congrArg BitVec.toNat hval
          have hm' := hm.2.1
          obtain rfl : m = e :=
            hinc.eq_of_val (by have := hm.1; omega) (by omega) (by omega) (by omega) hm.2.2.1
            hehas (by omega)
          have hone : (1 : BitVec 32).toNat = 1 := rfl
          have haddr₁ : (b.addr + 1).toNat = a + 1 := by
            rw [BitVec.toNat_add, hone, haddr, Nat.mod_eq_of_lt hbits]
          rw [nextFirst_last hm hen]
          refine iff_of_false ?_ ?_
          · rintro (hc | ⟨hc, -⟩ | ⟨hc, -⟩)
            · omega
            · omega
            · omega
          · -- the next entry is still there, and has the new address as its value
            have hagain : SearchInv stabs type L R (a + 1)
                { b with anyMatches := true, regionLeft := m, l := m, addr := b.addr + 1 } :=
              { h₁ with
                above := fun i hi hi' hhas => ⟨(h₁.above i hi hi' hhas).1, by
                  have := hinc n i (by omega) (by dsimp only at hi; omega) hi' hnhas hhas
                  omega⟩
                left := Or.inr (h₁.left.resolve_left fun hc => by
                  have := hc.2.1
                  dsimp only at this
                  omega)
                start := by dsimp only; omega
                hits := fun v hv hv' => absurd hv' (by dsimp only; omega) }
            exact addr_of_met hinc hrest hend hagain (by omega) (by omega) hnhas hnval

end First

/-! ### The contract -/

/-- `e` is the last entry of the type in the region whose value is at most the address. -/
def LastAtMost (stabs : ℤ → Stab) (type : BitVec 32) (L R : ℤ) (addr : BitVec 32) (e : ℤ) : Prop :=
  L ≤ e ∧ e ≤ R ∧ (stabs e).HasType type ∧ (stabs e).nValue.toNat ≤ addr.toNat ∧
    ∀ i, e < i → i ≤ R → (stabs i).HasType type → addr.toNat < (stabs i).nValue.toNat

/-- `n` is the next entry of the type behind `e`. -/
def NextEntry (stabs : ℤ → Stab) (type : BitVec 32) (R e n : ℤ) : Prop :=
  e < n ∧ n ≤ R ∧ (stabs n).HasType type ∧ ∀ i, e < i → i < n → ¬ (stabs i).HasType type

/-- **The contract of the search**: `region_left` is the last entry with a value of at most the
address, and `region_right` is just before the next entry, or the end of the region; if there is no
such entry, `region_left` is greater than `region_right`. -/
def Brackets (stabs : ℤ → Stab) (type : BitVec 32) (L R : ℤ) (addr : BitVec 32) (res : ℤ × ℤ) :
    Prop :=
  (∀ e, LastAtMost stabs type L R addr e → res.1 = e ∧
    (∀ n, NextEntry stabs type R e n → res.2 = n - 1) ∧
    ((∀ n, ¬ NextEntry stabs type R e n) → res.2 = R)) ∧
  ((∀ i, L ≤ i → i ≤ R → (stabs i).HasType type → addr.toNat < (stabs i).nValue.toNat) →
    res.2 < res.1)

/-- **When the search meets its contract**: there is no entry of the type at all, or there is one
with a value of at most the address, and if its value is the address and the next entry has the
value behind it, then the bisection meets that one first. (At the end of the address space the next
entry may also be next to it.) -/
def MeetsContract (stabs : ℤ → Stab) (type : BitVec 32) (L R : ℤ) (addr : BitVec 32) : Prop :=
  (∀ i, L ≤ i → i ≤ R → ¬ (stabs i).HasType type) ∨
    ∃ e, LastAtMost stabs type L R addr e ∧ ∀ n, NextEntry stabs type R e n →
      (stabs e).nValue.toNat = addr.toNat →
      (stabs n).nValue.toNat = addr.toNat + 1 →
        NextFirst (fun i => (stabs i).HasType type) e n L R ∨ (addr = 0xfffffffe ∧ n = e + 1)

section Contract

variable {ε : Type} {load : ℤ → Except ε Stab} {stabs : ℤ → Stab} {type : BitVec 32} {L R : ℤ}
    {addr : BitVec 32} {b : Search} {e n k : ℤ}

theorem LastAtMost.unique {e' : ℤ} (h : LastAtMost stabs type L R addr e)
    (h' : LastAtMost stabs type L R addr e') : e = e' := by
  obtain ⟨-, he, hhas, hle, hlast⟩ := h
  obtain ⟨-, he', hhas', hle', hlast'⟩ := h'
  rcases Int.lt_trichotomy e e' with hlt | heq | hlt
  · have := hlast e' hlt he' hhas'
    omega
  · exact heq
  · have := hlast' e hlt he hhas
    omega

/-- If an entry has a value of at most the address, there is a last one. -/
theorem exists_lastAtMost {i : ℤ} (hi : L ≤ i) (hi' : i ≤ R) (hhas : (stabs i).HasType type)
    (hle : (stabs i).nValue.toNat ≤ addr.toNat) :
    ∃ e, LastAtMost stabs type L R addr e := by
  obtain ⟨e, ⟨he, he', hehas, hele⟩, hgreatest⟩ := Int.exists_greatest_of_bdd
    (P := fun i => L ≤ i ∧ i ≤ R ∧ (stabs i).HasType type ∧ (stabs i).nValue.toNat ≤ addr.toNat)
    ⟨R, fun _ h => h.2.1⟩ ⟨i, hi, hi', hhas, hle⟩
  refine ⟨e, he, he', hehas, hele, fun j hj hj' hjhas => ?_⟩
  by_contra hc
  have := hgreatest j ⟨by omega, hj', hjhas, Nat.not_lt.1 hc⟩
  omega

/-- Where the entry that is looked for is, when the loop has ended. -/
theorem SearchInv.entry (h : SearchInv stabs type L R addr.toNat b) (hend : b.r < b.l)
    (he : LastAtMost stabs type L R addr e) :
    e ≤ b.r ∧ (stabs e).nValue.toNat < b.addr.toNat ∧ b.regionLeft ≤ b.r ∧
      (stabs b.regionLeft).HasType type := by
  obtain ⟨hL, hR, hhas, hle, -⟩ := he
  obtain ⟨her, hval⟩ := h.met hend hL hR hhas hle
  rcases h.left with ⟨-, -, hnone⟩ | ⟨-, -, hr, hleft, -⟩
  · exact absurd hhas (hnone e hL (by omega))
  · exact ⟨her, hval, hr, hleft⟩

/-- **The contract in terms of the address at the end**: it has been moved at most once. -/
theorem SearchInv.brackets_iff (hinc : Increasing stabs type L R)
    (h : SearchInv stabs type L R addr.toNat b) (hend : b.r < b.l)
    (he : LastAtMost stabs type L R addr e)
    (hk : LastIn (fun i => (stabs i).HasType type) L b.r k) :
    Brackets stabs type L R addr (k, b.regionRight) ↔ b.addr.toNat ≤ addr.toNat + 1 := by
  obtain ⟨her, hval, -, -⟩ := h.entry hend he
  obtain ⟨hkL, hkr, hkhas, hkno⟩ := hk
  have hhigh := h.high
  have hek : e ≤ k := by
    by_contra hc
    exact hkno e (Int.not_le.1 hc) her he.2.2.1
  have hkval := h.below k hkL (by omega) hkhas
  constructor
  · intro hbr
    by_contra hc
    obtain ⟨i, hi, hi', hhas, hival⟩ := h.hits (addr.toNat + 1) (by omega) (by omega)
    obtain rfl : k = e := (hbr.1 e he).1
    have hle := he.2.2.2.1
    -- an entry that the address has been moved over is between the one that is looked for and the
    -- end
    have hki : k < i := hinc.lt_of_val (by omega) hi hkhas hhas (by omega)
    have hir : i ≤ b.r := by
      by_contra hc'
      have := (h.above i (Int.not_le.1 hc') hi' hhas).1
      omega
    exact hkno i hki hir hhas
  · intro hle
    have heq : k = e := by
      by_contra hc
      have := he.2.2.2.2 k (by omega) (by omega) hkhas
      omega
    subst heq
    refine ⟨fun e' he' => ?_, fun hnone => ?_⟩
    · obtain rfl := he.unique he'
      rw [h.right]
      refine ⟨rfl, fun n ⟨hkn, hnR, hnhas, hno⟩ => ?_, fun hno => ?_⟩
      · have hrn : b.r < n := by
          by_contra hc
          exact hkno n hkn (Int.not_lt.1 hc) hnhas
        rcases h.bound with hb | ⟨hb, hbhas⟩
        · omega
        · by_contra hc
          exact hno (b.r + 1) (by omega) (by dsimp only at hc; omega) hbhas
      · rcases h.bound with hb | ⟨hb, hbhas⟩
        · exact hb
        · exact absurd ⟨by omega, by omega, hbhas, fun i hi hi' => hkno i hi (by omega)⟩
            (hno (b.r + 1))
    · have := hnone k he.1 he.2.1 he.2.2.1
      have := he.2.2.2.1
      omega

/-- When the address has been moved twice, two entries next to each other have the address and the
one behind it as their values. -/
theorem AllHit.two (hinc : Increasing stabs type L R) {top : ℕ}
    (h : AllHit stabs type L R addr.toNat top) (htop : addr.toNat + 2 ≤ top) :
    ∃ e n, LastAtMost stabs type L R addr e ∧ NextEntry stabs type R e n ∧
      (stabs e).nValue.toNat = addr.toNat ∧
      (stabs n).nValue.toNat = addr.toNat + 1 := by
  obtain ⟨e, heL, heR, hehas, heval⟩ := h addr.toNat (Nat.le_refl _) (by omega)
  obtain ⟨n, hnL, hnR, hnhas, hnval⟩ := h (addr.toNat + 1) (by omega) (by omega)
  refine ⟨e, n, ⟨heL, heR, hehas, Nat.le_of_eq heval, fun i hi hi' hhas => ?_⟩,
    ⟨hinc.lt_of_val heR hnL hehas hnhas (by omega), hnR, hnhas, fun i hi hi' hhas => ?_⟩, heval,
    hnval⟩
  · have := hinc e i heL hi hi' hehas hhas
    omega
  · have := hinc e i heL hi (by omega) hehas hhas
    have := hinc i n (by omega) hi' hnR hhas hnhas
    omega

/-- **The condition in terms of the address at the end.** -/
theorem SearchInv.meets_iff (hinc : Increasing stabs type L R) (haddr : addr.toNat < 2 ^ 32 - 1)
    (hgo : Relation.ReflTransGen (Go stabs type) ⟨L, R, L, R, false, addr⟩ b)
    (h : SearchInv stabs type L R addr.toNat b) (hend : b.r < b.l)
    (he : LastAtMost stabs type L R addr e) :
    MeetsContract stabs type L R addr ↔ b.addr.toNat ≤ addr.toNat + 1 := by
  have hval := (h.entry hend he).2.1
  have hfirst : ∀ {n}, NextEntry stabs type R e n → (stabs e).nValue.toNat = addr.toNat →
      (stabs n).nValue.toNat = addr.toNat + 1 →
      (NextFirst (fun i => (stabs i).HasType type) e n L R ↔ b.addr.toNat = addr.toNat + 1) :=
        fun hn heval hnval =>
    nextFirst_iff hinc hgo hend searchInv_start rfl (by omega) he.1 hn.1 hn.2.1 he.2.2.1
      hn.2.2.1 heval hnval
  constructor
  · rintro (hnone | ⟨e', he', hcond⟩)
    · exact absurd he.2.2.1 (hnone e he.1 he.2.1)
    · by_contra hc
      obtain ⟨e₀, n, he₀, hn, heval, hnval⟩ := h.hits.two hinc (by omega)
      obtain rfl := he.unique he₀
      obtain rfl := he.unique he'
      rcases hcond n hn heval hnval with hf | ⟨htop, -⟩
      · have := (hfirst hn heval hnval).1 hf
        omega
      · have htop : addr.toNat = 4294967294 := congrArg BitVec.toNat htop
        have hbits := b.addr.isLt
        omega
  · exact fun hle => Or.inr ⟨e, he, fun n hn heval hnval =>
      Or.inl ((hfirst hn heval hnval).2 (by omega))⟩

/-- When the address has passed `2 ^ 32`, the result is right only by chance. -/
theorem WrapInv.brackets_iff (hinc : Increasing stabs type L R) (haddr : addr.toNat < 2 ^ 32 - 1)
    (hgo : Relation.ReflTransGen (Go stabs type) ⟨L, R, L, R, false, addr⟩ b)
    (h : WrapInv stabs type L R addr.toNat b) (hend : b.r < b.l) :
    Brackets stabs type L R addr (b.regionRight, b.regionRight) ↔
      MeetsContract stabs type L R addr := by
  obtain ⟨e, n, he, hn, heval, hnval⟩ := h.hits.two hinc (by omega)
  have hright : b.regionRight = b.regionLeft - 1 := by
    have := h.near
    have := h.start
    have := h.right
    omega
  have hsame : ∀ {m}, NextEntry stabs type R e m → m = n := by
    intro m hm
    rcases Int.lt_trichotomy m n with hlt | heq | hlt
    · exact absurd hm.2.2.1 (hn.2.2.2 m hm.1 hlt)
    · exact heq
    · exact absurd hn.2.2.1 (hm.2.2.2 n hn.1 hlt)
  have hlast := h.last
  rw [hright]
  constructor
  · intro hbr
    obtain ⟨hleft, hbefore, -⟩ := hbr.1 e he
    have hx : b.regionLeft - 1 = n - 1 := hbefore n hn
    have hx : b.regionLeft = n := by omega
    have hleft : b.regionLeft - 1 = e := hleft
    rw [hx, hnval] at hlast
    refine Or.inr ⟨e, he, fun m hm _ _ => Or.inr ⟨BitVec.eq_of_toNat_eq ?_, ?_⟩⟩
    · change addr.toNat = 4294967294
      omega
    · rw [hsame hm]
      omega
  · rintro (hnone | ⟨e', he', hcond⟩)
    · exact absurd he.2.2.1 (hnone e he.1 he.2.1)
    · obtain rfl := he.unique he'
      rcases hcond n hn heval hnval with hf | ⟨htop, hne⟩
      · -- the address at the end is 0
        have hiff := nextFirst_iff hinc hgo hend searchInv_start rfl (by omega) he.1 hn.1 hn.2.1
          he.2.2.1 hn.2.2.1 heval hnval
        have hzero := hiff.1 hf
        rw [h.addr] at hzero
        exact nomatch hzero
      · have htop : addr.toNat = 4294967294 := congrArg BitVec.toNat htop
        have hx : b.regionLeft = n := hinc.eq_of_val h.low
          h.high (by have := he.1; have := hn.1; omega) hn.2.1 h.has hn.2.2.1 (by omega)
        refine ⟨fun e' he' => ?_, fun hnone => ?_⟩
        · obtain rfl := he.unique he'
          refine ⟨by dsimp only; omega, fun m hm => ?_, fun hno => absurd hn (hno n)⟩
          rw [hsame hm, hx]
        · have := hnone e he.1 he.2.1 he.2.2.1
          omega

end Contract

/-- **The search in the stabs.** It ends and reads only indices of the region, and it meets its
contract exactly if there is no entry of the type, or if there is one with a value of at most the
address and the one behind it does not get in the way. -/
theorem stabBinsearch_brackets_iff {ε : Type} {load : ℤ → Except ε Stab} {stabs : ℤ → Stab}
    {type : BitVec 32} {L R : ℤ} {addr : BitVec 32}
    (hload : ∀ i, L ≤ i → i ≤ R → load i = .ok (stabs i)) (hinc : Increasing stabs type L R)
    (haddr : addr.toNat < 2 ^ 32 - 1) :
    ∃ res, stabBinsearch load type L R addr = .ok (some res) ∧ (Brackets stabs type L R addr res ↔
      MeetsContract stabs type L R addr) := by
  obtain ⟨b, k, right, hrun, -, hgo, hend, hcase⟩ :=
    @stabBinsearch_ends ε load stabs type L R addr hload
  refine ⟨(k, right), hrun, ?_⟩
  rcases go_inv hinc hgo searchInv_start with h | h
  · rcases hcase with ⟨hany, rfl, rfl⟩ | ⟨hany, rfl, hkr, -, -, hlast⟩
    · -- no entry has been met, so there is none
      obtain ⟨-, hr, hnone⟩ := h.missing hany
      have hno : ∀ i, k ≤ i → i ≤ R → ¬ (stabs i).HasType type :=
        fun i hi hi' => hnone i hi (by omega)
      refine iff_of_true ⟨fun e he => absurd he.2.2.1 (hno e he.1 he.2.1), fun _ => ?_⟩ (Or.inl hno)
      dsimp only
      omega
    · obtain ⟨i, hi, hi', hhas⟩ := h.found hany
      by_cases he : ∃ e, LastAtMost stabs type L R addr e
      · obtain ⟨e, he⟩ := he
        obtain ⟨-, -, hle, hleft⟩ := h.entry hend he
        have hbrackets := h.brackets_iff hinc hend he (hlast hle hleft)
        rw [h.right] at hbrackets
        rw [h.meets_iff hinc haddr hgo hend he, hbrackets]
      · -- all entries have greater values, and the left bound stays at or before the right one
        have hgreat : ∀ i, L ≤ i → i ≤ R → (stabs i).HasType type →
            addr.toNat < (stabs i).nValue.toNat := by
          intro i hi hi' hhas
          by_contra hc
          exact he (exists_lastAtMost hi hi' hhas (Nat.not_lt.1 hc))
        refine iff_of_false (fun hbr => ?_) ?_
        · have hlt : b.r < k := hbr.2 hgreat
          omega
        · rintro (hno | ⟨e, hlast, -⟩)
          · exact hno i hi hi' hhas
          · exact he ⟨e, hlast⟩
  · rcases hcase with ⟨hany, -⟩ | ⟨-, rfl, -, hempty, -⟩
    · rw [h.found] at hany
      exact nomatch hany
    · have hlt : b.r < b.regionLeft := by
        have := h.start
        omega
      obtain rfl := hempty hlt
      have hbrackets := h.brackets_iff hinc haddr hgo hend
      rwa [h.right] at hbrackets

/-- The source files of the example in the comment above the function. -/
def soTable (i : ℤ) : Stab :=
  if i = 0 then ⟨0, 0x64, 0, 0, 0xf0100000⟩ else if i = 13 then ⟨0, 0x64, 0, 0, 0xf0100040⟩
  else if i = 117 then ⟨0, 0x64, 0, 0, 0xf0100176⟩ else if i = 118 then ⟨0, 0x64, 0, 0, 0xf0100178⟩
  else if i = 555 then ⟨0, 0x64, 0, 0, 0xf0100652⟩ else if i = 556 then ⟨0, 0x64, 0, 0, 0xf0100654⟩
  else if i = 657 then ⟨0, 0x64, 0, 0, 0xf0100849⟩ else ⟨0, 0x24, 0, 0, 0⟩

example : stabBinsearch (fun i => (.ok (soTable i) : Except Unit Stab)) 0x64 0 657
    0xf0100184 = .ok (some (118, 554)) := by decide +kernel

/-! ### Two line numbers -/

/-- The entries 0 and 1 of a table with line numbers. -/
def lineTable (v w : BitVec 32) (i : ℤ) : Stab :=
  if i ≤ 0 then ⟨0, 0x44, 0, 0, v⟩ else ⟨0, 0x44, 0, 0, w⟩

theorem lineTable_increasing {v w : BitVec 32} (h : v.toNat < w.toNat) :
    Increasing (lineTable v w) 0x44 0 1 := by
  intro i j hi hij hj _ _
  rw [lineTable, lineTable, if_pos (by omega), if_neg (by omega)]
  exact h

theorem lineTable_has (v w : BitVec 32) (i : ℤ) : (lineTable v w i).HasType 0x44 := by
  unfold lineTable
  split <;> rfl

/-- An address between the two. -/
theorem stabBinsearch_brackets_iff_between :
    Increasing (lineTable 5 9) 0x44 0 1 ∧ (7#32).toNat < 2 ^ 32 - 1 ∧
    ∃ res, stabBinsearch (fun i => (.ok (lineTable 5 9 i) : Except Unit Stab)) 0x44 0 1 7 =
      .ok (some res) ∧
      (Brackets (lineTable 5 9) 0x44 0 1 7 res ↔ MeetsContract (lineTable 5 9) 0x44 0 1 7) :=
  ⟨lineTable_increasing (by decide), by decide,
    stabBinsearch_brackets_iff (fun _ _ _ => rfl) (lineTable_increasing (by decide)) (by decide)⟩

/-- **The address of the first of two entries that are one byte apart** finds the second one, and an
address below both finds a region from −1 to −1. -/
theorem stabBinsearch_misses : Increasing (lineTable 5 6) 0x44 0 1 ∧
    (stabBinsearch (fun i => (.ok (lineTable 5 6 i) : Except Unit Stab)) 0x44 0 1 5 =
      .ok (some (1, 1)) ∧
      ¬ Brackets (lineTable 5 6) 0x44 0 1 5 (1, 1)) ∧
    (stabBinsearch (fun i => (.ok (lineTable 5 6 i) : Except Unit Stab)) 0x44 0 1 3 =
      .ok (some (-1, -1)) ∧
      ¬ Brackets (lineTable 5 6) 0x44 0 1 3 (-1, -1)) := by
  refine ⟨lineTable_increasing (by decide), ⟨rfl, fun h => ?_⟩, rfl, fun h => ?_⟩
  · have hlast : LastAtMost (lineTable 5 6) 0x44 0 1 5 0 := by
      refine ⟨by decide, by decide, lineTable_has .., by decide, fun i hi _ _ => ?_⟩
      rw [lineTable, if_neg (by omega)]
      decide
    exact absurd (h.1 0 hlast).1 (by decide)
  · refine absurd (h.2 fun i hi hi' _ => ?_) (by decide)
    unfold lineTable
    split <;> decide

end Jos
