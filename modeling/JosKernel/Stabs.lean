/-
**The search in the stabs.**

`stab_binsearch` of `kern/kdebug.c` looks for the last entry of a type whose address is at most the
one given, in a part of the table where entries of other types stand in between. It is a bisection
that walks back from the middle to an entry of the type. When it meets the address itself it goes on
with the next one, to find the end of the region as well.

The table is read through a function that may fail, so that a proof that nothing fails says which
indices are read.

Main definitions:

* `Jos.stabBinsearch` — the search;
* `Jos.Round` — what one round of the loop can do;
* `Jos.PlaceInv` — where the search is, in any table.

Main results:

* `Jos.binLoop_ends` — the loop ends;
* `Jos.stabBinsearch_ends` — **the search ends, reads the region only, and depends on nothing
  else**.
-/

import Mathlib.Algebra.Group.Int.Defs
import Mathlib.Algebra.Group.Nat.Defs
import Mathlib.Data.Int.Notation
import Mathlib.Logic.Relation
import Mathlib.Tactic.Common

set_option relaxedAutoImplicit false
set_option autoImplicit false

namespace Jos

/-! ### The table -/

/-- `struct stab`. -/
structure Stab where
  nStrx : BitVec 32
  nType : BitVec 8
  nOther : BitVec 8
  nDesc : BitVec 16
  nValue : BitVec 32
  deriving DecidableEq, Repr

/-- `stab.n_type == type`. -/
def Stab.HasType (s : Stab) (type : BitVec 32) : Prop := s.nType.setWidth 32 = type

instance (s : Stab) (type : BitVec 32) : Decidable (s.HasType type) := instDecidableEqBitVec ..

/-! ### `stab_binsearch` -/

section Code

variable {ε : Type} (load : ℤ → Except ε Stab) (type : BitVec 32)

/-- `while (m >= l && stabs[m].n_type != type) m--;`, with the number of indices from `l` to `m`. -/
def seekBack : ℕ → ℤ → Except ε ℤ
  | 0, m => pure m
  | n + 1, m => do
      let s ← load m
      if s.HasType type then pure m else seekBack n (m - 1)

/-- The variables of the loop. -/
structure Search where
  l : ℤ
  r : ℤ
  regionLeft : ℤ
  regionRight : ℤ
  anyMatches : Bool
  addr : BitVec 32
  deriving DecidableEq, Repr

/-- One round of the bisection. -/
def binRound (b : Search) : Except ε Search := do
  let trueM := (b.l + b.r).tdiv 2
  let m ← seekBack load type (trueM - b.l + 1).toNat trueM
  if m < b.l then pure { b with l := trueM + 1 }
  else do
    let s ← load m
    if s.nValue < b.addr then pure { b with anyMatches := true, regionLeft := m, l := trueM + 1 }
    else if b.addr < s.nValue then
      pure { b with anyMatches := true, regionRight := m - 1, r := m - 1 }
    else pure { b with anyMatches := true, regionLeft := m, l := m, addr := b.addr + 1 }

/-- `while (l <= r)`, for a number of rounds: `none` if they were not enough. -/
def binLoop : ℕ → Search → Except ε (Option Search)
  | 0, b => pure (if b.l ≤ b.r then none else some b)
  | n + 1, b =>
      if b.l ≤ b.r then do
        let b ← binRound load type b
        binLoop n b
      else pure (some b)

/-- **`stab_binsearch(stabs, &left, &right, type, addr)`**, with the new values of the two
variables. -/
def stabBinsearch (left right : ℤ) (addr : BitVec 32) : Except ε (Option (ℤ × ℤ)) := do
  let b ← binLoop load type (2 * (right - left + 1).toNat + 1)
      ⟨left, right, left, right, false, addr⟩
  match b with
  | none => pure none
  | some b =>
      if ¬ b.anyMatches then pure (some (b.regionLeft, b.regionLeft - 1))
      else do
        -- the loop that repairs the left bound stops at the bound itself
        let l ← seekBack load type (b.regionRight - b.regionLeft).toNat b.regionRight
        pure (some (l, b.regionRight))

end Code

/-! ### What is read -/

/-- `m` is the last entry of the type from `l` to `k`. -/
def LastIn (has : ℤ → Prop) (l k m : ℤ) : Prop :=
  l ≤ m ∧ m ≤ k ∧ has m ∧ ∀ i, m < i → i ≤ k → ¬ has i

theorem LastIn.unique {has : ℤ → Prop} {l l' k m m' : ℤ} (h : LastIn has l k m)
    (h' : LastIn has l' k m') : m = m' := by
  obtain ⟨-, hle, hm, hlast⟩ := h
  obtain ⟨-, hle', hm', hlast'⟩ := h'
  rcases Int.lt_trichotomy m m' with hlt | heq | hlt
  · exact absurd hm' (hlast m' hlt hle')
  · exact heq
  · exact absurd hm (hlast' m hlt hle)

section Reads

variable {ε : Type} {load : ℤ → Except ε Stab} {stabs : ℤ → Stab} {type : BitVec 32} {L R : ℤ}

/-- The walk back reads only the indices that it has a number for. -/
theorem seekBack_ends (hload : ∀ i, L ≤ i → i ≤ R → load i = .ok (stabs i)) :
    ∀ {n : ℕ} {m : ℤ}, m ≤ R → L ≤ m - n + 1 → ∃ k, seekBack load type n m = .ok k ∧
      ((k = m - n ∧ ∀ i, m - n < i → i ≤ m → ¬ (stabs i).HasType type) ∨
        LastIn (fun i => (stabs i).HasType type) (m - n + 1) m k) := by
  intro n
  induction n with
  | zero =>
      intro m _ _
      exact ⟨m, rfl, Or.inl ⟨by simp, fun i hi hi' => absurd hi' (by simpa using hi)⟩⟩
  | succ n ih =>
      intro m hm hL
      rw [seekBack, hload m (by omega) hm]
      by_cases hhas : (stabs m).HasType type
      · refine ⟨m, if_pos hhas, Or.inr ⟨by omega, Int.le_refl m, hhas, fun i hi hi' => ?_⟩⟩
        omega
      · obtain ⟨k, hk, hcase⟩ := @ih (m - 1) (by omega) (by push_cast at hL ⊢; omega)
        refine ⟨k, (if_neg hhas).trans hk, ?_⟩
        -- what holds up to `m - 1` holds up to `m`
        have hlast : ∀ i, m - 1 < i → i ≤ m → ¬ (stabs i).HasType type := by
          intro i hi hi'
          obtain rfl : i = m := by omega
          exact hhas
        rcases hcase with ⟨hk, hno⟩ | ⟨hlo, hhi, hk, hno⟩
        · refine Or.inl ⟨by push_cast; omega, fun i hi hi' => ?_⟩
          by_cases him : m - 1 < i
          · exact hlast i him hi'
          · exact hno i (by push_cast at hi; omega) (by omega)
        · refine Or.inr ⟨by push_cast; omega, by omega, hk, fun i hi hi' => ?_⟩
          by_cases him : m - 1 < i
          · exact hlast i him hi'
          · exact hno i hi (by omega)

/-- **What one round can do.** -/
inductive Round (stabs : ℤ → Stab) (type : BitVec 32) (b : Search) : Search → Prop
  | skip : (∀ i, b.l ≤ i → i ≤ (b.l + b.r).tdiv 2 → ¬ (stabs i).HasType type) →
    Round stabs type b { b with l := (b.l + b.r).tdiv 2 + 1 }
  | below {m : ℤ} : LastIn (fun i => (stabs i).HasType type) b.l ((b.l + b.r).tdiv 2) m →
    (stabs m).nValue < b.addr →
      Round stabs type b { b with anyMatches := true, regionLeft := m, l := (b.l + b.r).tdiv 2 + 1 }
  | above {m : ℤ} : LastIn (fun i => (stabs i).HasType type) b.l ((b.l + b.r).tdiv 2) m →
    b.addr < (stabs m).nValue →
      Round stabs type b { b with anyMatches := true, regionRight := m - 1, r := m - 1 }
  | hit {m : ℤ} : LastIn (fun i => (stabs i).HasType type) b.l ((b.l + b.r).tdiv 2) m →
    (stabs m).nValue = b.addr →
      Round stabs type b { b with anyMatches := true, regionLeft := m, l := m, addr := b.addr + 1 }

theorem tdiv_mid {l r : ℤ} (h : l ≤ r) : l ≤ (l + r).tdiv 2 ∧ (l + r).tdiv 2 ≤ r := by
  rcases Int.le_total 0 (l + r) with hpos | hneg
  · rw [Int.tdiv_eq_ediv_of_nonneg hpos]
    omega
  · have hflip : (l + r).tdiv 2 = -((-(l + r)).tdiv 2) := by rw [Int.neg_tdiv, Int.neg_neg]
    rw [hflip, Int.tdiv_eq_ediv_of_nonneg (by omega)]
    omega

/-- One round reads indices from `l` to `r`. -/
theorem binRound_ends {b : Search} (hload : ∀ i, L ≤ i → i ≤ R → load i = .ok (stabs i))
    (hl : L ≤ b.l) (hr : b.r ≤ R) (h : b.l ≤ b.r) :
    ∃ b', binRound load type b = .ok b' ∧ Round stabs type b b' := by
  obtain ⟨hlo, hhi⟩ := tdiv_mid h
  have hcount : (((b.l + b.r).tdiv 2 - b.l + 1).toNat : ℤ) = (b.l + b.r).tdiv 2 - b.l + 1 :=
    Int.toNat_of_nonneg (by omega)
  obtain ⟨m, hm, hcase⟩ := @seekBack_ends ε load stabs type L R hload
    ((b.l + b.r).tdiv 2 - b.l + 1).toNat ((b.l + b.r).tdiv 2)
    (by omega) (by rw [hcount]; omega)
  have hfirst : (b.l + b.r).tdiv 2 - ((b.l + b.r).tdiv 2 - b.l + 1) + 1 = b.l := by omega
  have hend : (b.l + b.r).tdiv 2 - ((b.l + b.r).tdiv 2 - b.l + 1) = b.l - 1 := by omega
  rw [hcount, hfirst, hend] at hcase
  unfold binRound
  dsimp only
  rw [hm]
  rcases hcase with ⟨rfl, hno⟩ | hlast
  · exact ⟨_, if_pos (by omega), .skip fun i hi hi' => hno i (by omega) hi'⟩
  · have hge : ¬ m < b.l := Int.not_lt.2 hlast.1
    have hread : load m = .ok (stabs m) :=
      hload m (Int.le_trans hl hlast.1) (Int.le_trans hlast.2.1 (by omega))
    change ∃ b', (if m < b.l then _ else load m >>= _) = Except.ok b' ∧ _
    rw [if_neg hge, hread]
    change ∃ b', (if (stabs m).nValue < b.addr then _ else _) = Except.ok b' ∧ _
    by_cases hbelow : (stabs m).nValue < b.addr
    · exact ⟨_, if_pos hbelow, .below hlast hbelow⟩
    · rw [if_neg hbelow]
      by_cases habove : b.addr < (stabs m).nValue
      · exact ⟨_, if_pos habove, .above hlast habove⟩
      · exact ⟨_, if_neg habove, .hit hlast
          (BitVec.le_antisymm (BitVec.not_lt.1 habove) (BitVec.not_lt.1 hbelow))⟩

/-! ### The loop ends -/

/-- **The measure of the loop**: a round that leaves the region as it is has met the address at `l`,
and the next one does not. -/
def Search.todo (stabs : ℤ → Stab) (b : Search) : ℕ :=
  2 * (b.r - b.l + 1).toNat + if (stabs b.l).nValue = b.addr then 1 else 0

theorem Round.todo_lt {b b' : Search} (hround : Round stabs type b b') (h : b.l ≤ b.r) :
    b'.todo stabs < b.todo stabs := by
  obtain ⟨hlo, hhi⟩ := tdiv_mid h
  have hle : ∀ b : Search, b.todo stabs ≤ 2 * (b.r - b.l + 1).toNat + 1 := by
    intro b
    unfold Search.todo
    split <;> omega
  have hge : 2 * (b.r - b.l + 1).toNat ≤ b.todo stabs := Nat.le_add_right _ _
  cases hround with
  | skip =>
      refine Nat.lt_of_le_of_lt (hle _) (Nat.lt_of_lt_of_le ?_ hge)
      dsimp only
      omega
  | below hlast =>
      refine Nat.lt_of_le_of_lt (hle _) (Nat.lt_of_lt_of_le ?_ hge)
      dsimp only
      omega
  | above hlast =>
      have hlast := hlast.2.1
      refine Nat.lt_of_le_of_lt (hle _) (Nat.lt_of_lt_of_le ?_ hge)
      dsimp only
      omega
  | @hit m hlast hval =>
      have hlow := hlast.1
      -- the entry is now below the address
      have hne : ¬ (stabs m).nValue = b.addr + 1 := by
        rw [hval]
        intro hc
        have := congrArg BitVec.toNat hc
        rw [BitVec.toNat_add] at this
        have hone : (1 : BitVec 32).toNat = 1 := rfl
        rw [hone] at this
        omega
      unfold Search.todo
      dsimp only
      rw [if_neg hne]
      by_cases hm : m = b.l
      · rw [← hm, if_pos hval]
        omega
      · have hmid := hlast.2.1
        omega

/-- A round of the loop. -/
def Go (stabs : ℤ → Stab) (type : BitVec 32) (b b' : Search) : Prop :=
  b.l ≤ b.r ∧ Round stabs type b b'

theorem Round.mono {b b' : Search} (hround : Round stabs type b b') (h : b.l ≤ b.r) :
    b.l ≤ b'.l ∧ b'.r ≤ b.r := by
  obtain ⟨hlo, hhi⟩ := tdiv_mid h
  cases hround with
  | skip => exact ⟨by dsimp only; omega, Int.le_refl _⟩
  | below => exact ⟨by dsimp only; omega, Int.le_refl _⟩
  | above hlast =>
      have hmid := hlast.2.1
      exact ⟨Int.le_refl _, by dsimp only; omega⟩
  | hit hlast => exact ⟨hlast.1, Int.le_refl _⟩

/-- **The loop ends**, and reads indices from `l` to `r`. -/
theorem binLoop_ends (hload : ∀ i, L ≤ i → i ≤ R → load i = .ok (stabs i)) :
    ∀ {n : ℕ} {b : Search}, L ≤ b.l → b.r ≤ R → b.todo stabs ≤ n →
      ∃ b', binLoop load type n b = .ok (some b') ∧ Relation.ReflTransGen (Go stabs type) b b' ∧
        b'.r < b'.l := by
  intro n
  induction n with
  | zero =>
      intro b _ _ htodo
      have hdone : ¬ b.l ≤ b.r := by
        intro hle
        have hge : 2 * (b.r - b.l + 1).toNat ≤ b.todo stabs := Nat.le_add_right _ _
        omega
      exact ⟨b, by rw [binLoop, if_neg hdone]; rfl, .refl, Int.not_le.1 hdone⟩
  | succ n ih =>
      intro b hl hr htodo
      rw [binLoop]
      by_cases hle : b.l ≤ b.r
      · obtain ⟨b₁, hrun, hround⟩ := @binRound_ends ε load stabs type L R b hload hl hr hle
        obtain ⟨hl₁, hr₁⟩ := hround.mono hle
        have hlt := hround.todo_lt hle
        obtain ⟨b', hrest, hgo, hend⟩ :=
          @ih b₁ (Int.le_trans hl hl₁) (Int.le_trans hr₁ hr) (by omega)
        refine ⟨b', ?_, .head ⟨hle, hround⟩ hgo, hend⟩
        rw [if_pos hle, hrun]
        exact hrest
      · exact ⟨b, if_neg hle, .refl, Int.not_le.1 hle⟩

/-- The loop that repairs the left bound. -/
theorem repair_ends (hload : ∀ i, L ≤ i → i ≤ R → load i = .ok (stabs i)) {left right : ℤ}
    (hL : L ≤ left) (hR : right ≤ R) :
    ∃ k, seekBack load type (right - left).toNat right = .ok k ∧ k ≤ right ∧
      (right < left → k = right) ∧
      (left ≤ right → left ≤ k ∧ (k = left ∨ (stabs k).HasType type)) ∧
      (left ≤ right → (stabs left).HasType type →
        LastIn (fun i => (stabs i).HasType type) L right k) := by
  by_cases hle : left ≤ right
  · have hcount : ((right - left).toNat : ℤ) = right - left := Int.toNat_of_nonneg (by omega)
    obtain ⟨k, hk, hcase⟩ := @seekBack_ends ε load stabs type L R hload (right - left).toNat right
      hR (by rw [hcount]; omega)
    rw [hcount, Int.sub_sub_self] at hcase
    refine ⟨k, hk, ?_, fun hc => absurd hle (Int.not_le.2 hc), fun _ => ?_, fun _ hleft => ?_⟩
    · rcases hcase with ⟨rfl, -⟩ | hlast
      · exact hle
      · exact hlast.2.1
    · rcases hcase with ⟨rfl, -⟩ | hlast
      · exact ⟨Int.le_refl _, Or.inl rfl⟩
      · exact ⟨Int.le_trans (Int.le_add_one (Int.le_refl left)) hlast.1, Or.inr hlast.2.2.1⟩
    · rcases hcase with ⟨rfl, hno⟩ | ⟨hlo, hhi, hhas, hno⟩
      · exact ⟨hL, hle, hleft, hno⟩
      · exact ⟨by omega, hhi, hhas, hno⟩
  · have hzero : (right - left).toNat = 0 := by omega
    rw [hzero]
    exact ⟨right, rfl, Int.le_refl _, fun _ => rfl, fun hc => absurd hc hle, fun hc =>
      absurd hc hle⟩

end Reads

/-! ### What the search depends on -/

section Congr

variable {ε : Type} {load load' : ℤ → Except ε Stab} {stabs : ℤ → Stab} {type : BitVec 32} {L R : ℤ}

theorem seekBack_congr (h : ∀ i, L ≤ i → i ≤ R → load i = load' i) :
    ∀ {n : ℕ} {m : ℤ}, m ≤ R → L ≤ m - n + 1 →
      seekBack load type n m = seekBack load' type n m := by
  intro n
  induction n with
  | zero => exact fun _ _ => rfl
  | succ n ih =>
      intro m hm hL
      have hrest : seekBack load type n (m - 1) = seekBack load' type n (m - 1) :=
        ih (by omega) (by push_cast at hL ⊢; omega)
      rw [seekBack, seekBack, h m (by omega) hm, hrest]

theorem binRound_congr (hload : ∀ i, L ≤ i → i ≤ R → load i = .ok (stabs i)) {b : Search}
    (hl : L ≤ b.l) (hr : b.r ≤ R) (h : b.l ≤ b.r) :
    binRound load type b = binRound (fun i => (.ok (stabs i) : Except ε Stab)) type b := by
  obtain ⟨hlo, hhi⟩ := tdiv_mid h
  have hcount : (((b.l + b.r).tdiv 2 - b.l + 1).toNat : ℤ) = (b.l + b.r).tdiv 2 - b.l + 1 :=
    Int.toNat_of_nonneg (by omega)
  have hseek := @seekBack_congr ε load (fun i => .ok (stabs i)) type L R hload
    ((b.l + b.r).tdiv 2 - b.l + 1).toNat ((b.l + b.r).tdiv 2)
    (by omega) (by rw [hcount]; omega)
  obtain ⟨m, hm, hcase⟩ := @seekBack_ends ε load stabs type L R hload
    ((b.l + b.r).tdiv 2 - b.l + 1).toNat ((b.l + b.r).tdiv 2)
    (by omega) (by rw [hcount]; omega)
  have hle : m ≤ (b.l + b.r).tdiv 2 := by
    rcases hcase with ⟨rfl, -⟩ | hlast
    · omega
    · exact hlast.2.1
  unfold binRound
  dsimp only
  rw [← hseek, hm]
  change (if m < b.l then _ else load m >>= _) = if m < b.l then _
    else (Except.ok (stabs m) : Except ε Stab) >>= _
  by_cases hlt : m < b.l
  · rw [if_pos hlt, if_pos hlt]
  · rw [if_neg hlt, if_neg hlt, hload m (by omega) (by omega)]

theorem binLoop_congr (hload : ∀ i, L ≤ i → i ≤ R → load i = .ok (stabs i)) :
    ∀ {n : ℕ} {b : Search}, L ≤ b.l → b.r ≤ R → binLoop load type n b = binLoop
      (fun i => (.ok (stabs i) : Except ε Stab)) type n b := by
  intro n
  induction n with
  | zero => exact fun _ _ => rfl
  | succ n ih =>
      intro b hl hr
      rw [binLoop, binLoop]
      by_cases hle : b.l ≤ b.r
      · rw [if_pos hle, if_pos hle, ← binRound_congr hload hl hr hle]
        obtain ⟨b', hrun, hround⟩ := @binRound_ends ε load stabs type L R b hload hl hr hle
        obtain ⟨hl', hr'⟩ := hround.mono hle
        rw [hrun]
        exact ih (Int.le_trans hl hl') (Int.le_trans hr' hr)
      · rw [if_neg hle, if_neg hle]

end Congr

/-! ### Where the search is -/

/-- **Where the search is**, for a search from `L` to `R`. -/
structure PlaceInv (stabs : ℤ → Stab) (type : BitVec 32) (L R : ℤ) (b : Search) : Prop where
  low : L ≤ b.l
  left : L ≤ b.regionLeft
  high : b.r ≤ R
  right : b.regionRight = b.r
  found : b.anyMatches = true → L - 1 ≤ b.r ∧ (¬ (stabs L).HasType type → L ≤ b.r)
  nonempty : b.anyMatches = true → L ≤ R
  missing : b.anyMatches = false → b.regionLeft = L

section Places

variable {stabs : ℤ → Stab} {type : BitVec 32} {L R : ℤ} {b b' : Search} {addr : BitVec 32}

theorem placeInv_start : PlaceInv stabs type L R ⟨L, R, L, R, false, addr⟩ where
  low := Int.le_refl _
  left := Int.le_refl _
  high := Int.le_refl _
  right := rfl
  found h := nomatch h
  nonempty h := nomatch h
  missing _ := rfl

/-- A match that is not the first index lies behind it. -/
theorem LastIn.found {l k m : ℤ} (hm : LastIn (fun i => (stabs i).HasType type) l k m)
    (hl : L ≤ l) : ¬ (stabs L).HasType type → L < m := by
  intro hno
  have hlow := hm.1
  have hne : m ≠ L := by
    rintro rfl
    exact hno hm.2.2.1
  omega

theorem PlaceInv.round (h : PlaceInv stabs type L R b) (hgo : Go stabs type b b') :
    PlaceInv stabs type L R b' := by
  obtain ⟨hle, hround⟩ := hgo
  obtain ⟨hlo, hhi⟩ := tdiv_mid hle
  have hlow := h.low
  have hhigh := h.high
  cases hround with
  | skip hno => exact { h with low := by dsimp only; omega }
  | @below m hm hlt =>
      have hmlow := hm.1
      exact ⟨by dsimp only; omega, by dsimp only; omega, hhigh, h.right,
        fun _ => by dsimp only; omega, fun _ => by omega, fun hc => nomatch hc⟩
  | @above m hm hlt =>
      have hmlow := hm.1
      have hmhigh := hm.2.1
      have hbehind := hm.found hlow
      exact ⟨hlow, h.left, by dsimp only; omega, rfl,
        fun _ => ⟨by dsimp only; omega, fun hno => Int.le_sub_one_of_lt (hbehind hno)⟩,
        fun _ => by omega, fun hc => nomatch hc⟩
  | @hit m hm hval =>
      have hmlow := hm.1
      have hmhigh := hm.2.1
      exact ⟨by dsimp only; omega, by dsimp only; omega, hhigh, h.right,
        fun _ => by dsimp only; omega, fun _ => by omega, fun hc => nomatch hc⟩

theorem go_place (hgo : Relation.ReflTransGen (Go stabs type) b b')
    (h : PlaceInv stabs type L R b) : PlaceInv stabs type L R b' := by
  induction hgo with
  | refl => exact h
  | tail _ hstep ih => exact ih.round hstep

end Places

/-! ### The search ends -/

section Found

variable {ε : Type} {load : ℤ → Except ε Stab} {stabs : ℤ → Stab} {type : BitVec 32} {L R : ℤ}
    {addr : BitVec 32}

/-- **The search ends**: with an empty region if there has been no match, and else with the one that
the loop has left, repaired. -/
theorem stabBinsearch_ends (hload : ∀ i, L ≤ i → i ≤ R → load i = .ok (stabs i)) :
    ∃ b k right, stabBinsearch load type L R addr = .ok (some (k, right)) ∧
      stabBinsearch (fun i => (.ok (stabs i) : Except ε Stab)) type L R addr =
        .ok (some (k, right)) ∧
      Relation.ReflTransGen (Go stabs type) ⟨L, R, L, R, false, addr⟩ b ∧ b.r < b.l ∧
      ((b.anyMatches = false ∧ k = L ∧ right = L - 1) ∨
        (b.anyMatches = true ∧ right = b.r ∧ k ≤ right ∧ (right < b.regionLeft → k = right) ∧
          (b.regionLeft ≤ right → b.regionLeft ≤ k ∧ (k = b.regionLeft ∨ (stabs k).HasType type)) ∧
          (b.regionLeft ≤ right → (stabs b.regionLeft).HasType type →
            LastIn (fun i => (stabs i).HasType type) L right k))) := by
  have htodo : Search.todo stabs ⟨L, R, L, R, false, addr⟩ ≤ 2 * (R - L + 1).toNat + 1 := by
    unfold Search.todo
    dsimp only
    split <;> omega
  obtain ⟨b, hloop, hgo, hend⟩ :=
    @binLoop_ends ε load stabs type L R hload _ _ (Int.le_refl L) (Int.le_refl R) htodo
  have hplace := go_place hgo placeInv_start
  have hloop' := @binLoop_congr ε load stabs type L R hload (2 * (R - L + 1).toNat + 1)
    ⟨L, R, L, R, false, addr⟩ (Int.le_refl L) (Int.le_refl R)
  have hrun : ∀ load' : ℤ → Except ε Stab, binLoop load' type (2 * (R - L + 1).toNat + 1)
      ⟨L, R, L, R, false, addr⟩ = .ok (some b) →
      stabBinsearch load' type L R addr = if ¬ b.anyMatches = true then
        pure (some (b.regionLeft, b.regionLeft - 1))
        else seekBack load' type (b.regionRight - b.regionLeft).toNat b.regionRight >>= fun l =>
          pure (some (l, b.regionRight)) := by
    intro load' h
    rw [stabBinsearch, h]
    rfl
  cases hany : b.anyMatches with
  | false =>
      have hleft := hplace.missing hany
      refine ⟨b, L, L - 1, ?_, ?_, hgo, hend, Or.inl ⟨hany, rfl, rfl⟩⟩
      · rw [hrun load hloop, hany, if_pos Bool.false_ne_true, hleft]
        rfl
      · rw [hrun _ (hloop'.symm.trans hloop), hany, if_pos Bool.false_ne_true, hleft]
        rfl
  | true =>
      have hright : b.regionRight ≤ R := Int.le_trans (Int.le_of_eq hplace.right) hplace.high
      obtain ⟨k, hk, hkr, hempty, hregion⟩ :=
        @repair_ends ε load stabs type L R hload _ _ hplace.left hright
      have hk' : seekBack (fun i => (.ok (stabs i) : Except ε Stab)) type
          (b.regionRight - b.regionLeft).toNat b.regionRight = .ok k := by
        by_cases hle : b.regionLeft ≤ b.regionRight
        · have hcount : ((b.regionRight - b.regionLeft).toNat : ℤ) = b.regionRight - b.regionLeft :=
            Int.toNat_of_nonneg (by omega)
          have hlow := hplace.left
          rw [← seekBack_congr hload hright (by rw [hcount]; omega)]
          exact hk
        · have hzero : (b.regionRight - b.regionLeft).toNat = 0 := by omega
          rw [hzero] at hk ⊢
          exact hk
      refine ⟨b, k, b.regionRight, ?_, ?_, hgo, hend,
        Or.inr ⟨hany, hplace.right, hkr, hempty, hregion⟩⟩
      · rw [hrun load hloop, hany, if_neg (not_not_intro rfl), hk]
        rfl
      · rw [hrun _ (hloop'.symm.trans hloop), hany, if_neg (not_not_intro rfl), hk']
        rfl

end Found

end Jos
