/-
**The check of user pointers.**

`user_mem_check` of `kern/pmap.c` rounds the range out to pages in 32-bit arithmetic, looks at the
entry of each page, and compares the end of the *first* page with `ULIM` in every round. The
comparison is therefore made for one page only, in arithmetic that wraps at the last page of the
address space, and the number of pages wraps for the longest ranges.

Main definitions:

* `Jos.userMemCheck` — the function, with the address it leaves in `user_mem_check_addr`;
* `Jos.UserMay`, `Jos.ExactCheck` — what the check is for: every byte of the range, in arithmetic
  that does not wrap, lies in a page below `ULIM` whose entry has the permissions;
* `Jos.CheckFits` — the ranges and page tables for which the function is that check.

Main results:

* `Jos.userMemFrom_spec` — the loop finds the first page that is refused;
* `Jos.userMemCheck_exact_iff` — **the function is the check exactly for those**.
-/

import JosKernel.PageTree
import JosKernel.Vma

set_option relaxedAutoImplicit false
set_option autoImplicit false

namespace Jos

/-! ### The function -/

/-- `ULIM`. -/
def uLim : BitVec 32 := 0xef800000#32

/-- One round of `user_mem_check`: the entry of the page `i` exists, is present and has the
permissions, and `low + PGSIZE * 1` is not above `ULIM`. -/
def userMemPage (s : Vm) (pgdir : Option ℕ) (low perm : BitVec 32) (i : ℕ) : Except Crash Bool := do
  let p ← pgdirFind s pgdir (pageAt low i)
  match p with
  | none => pure false
  | some p =>
      pure (isPresent (s.pte p) && s.pte p &&& perm == perm && !decide
        (uLim < low + BitVec.ofNat 32 pgSize))

/-- The loop of `user_mem_check`, from the page `i` on: the page that is refused. -/
def userMemFrom (s : Vm) (pgdir : Option ℕ) (low perm : BitVec 32) : ℕ → ℕ → Except Crash (Option ℕ)
  | 0, _ => pure none
  | n + 1, i => do
      let ok ← userMemPage s pgdir low perm i
      if ok then userMemFrom s pgdir low perm n (i + 1) else pure (some i)

/-- The address reported for the page `i`. -/
def userMemCheckAddr (va low : BitVec 32) (i : ℕ) : BitVec 32 :=
  if pageAt low i < va then pageAt va i else pageAt low i

/-- The number of pages that are looked at, `pnum / PGSIZE`. -/
def userMemPages (va len : BitVec 32) : ℕ :=
  (roundUp (len + (va - roundDown va (BitVec.ofNat 32 pgSize))) (BitVec.ofNat 32 pgSize)).toNat /
    pgSize

/-- **`user_mem_check(env, va, len, perm)`**: `none` is the result 0, and `some a` the result
`-E_FAULT` with `a` in `user_mem_check_addr`. -/
def userMemCheck (s : Vm) (e : ℕ) (va len perm : BitVec 32) :
    Except Crash (Option (BitVec 32)) := do
  let low := roundDown va (BitVec.ofNat 32 pgSize)
  let r ← userMemFrom s (s.pgdir e) low perm (userMemPages va len) 0
  pure (r.map (userMemCheckAddr va low))

/-! ### What the check is for -/

/-- The entry of a virtual page is present and has all the permissions. -/
def PteAllows (s : Vm) (d : ℕ) (perm : BitVec 32) (p : ℕ) : Prop :=
  isPresent (s.mm.entry d p) = true ∧ s.mm.entry d p &&& perm = perm

instance (s : Vm) (d : ℕ) (perm : BitVec 32) (p : ℕ) : Decidable (PteAllows s d perm p) :=
  inferInstanceAs (Decidable (_ ∧ _))

/-- **An address that the program may use**: its page ends at or below `ULIM`, and its entry allows
it. -/
def UserMay (s : Vm) (d : ℕ) (perm : BitVec 32) (a : ℕ) : Prop :=
  (a / 4096 + 1) * 4096 ≤ uLim.toNat ∧ PteAllows s d perm (a / 4096)

/-- **The result of an exact check** of `[va, va + len)`: 0 if and only if the program may use all
of it, else the first address it may not use; and the entry of some page is looked at, unless the
range is empty. -/
structure ExactCheck (s : Vm) (d : ℕ) (va len perm : BitVec 32) (r : Option (BitVec 32)) :
    Prop where
  accepts : r = none ↔ ∀ a, va.toNat ≤ a → a < va.toNat + len.toNat → UserMay s d perm a
  reports : ∀ b, r = some b → (va.toNat ≤ b.toNat ∧ b.toNat < va.toNat + len.toNat) ∧
    ¬ UserMay s d perm b.toNat ∧
    ∀ a, va.toNat ≤ a → a < b.toNat → UserMay s d perm a
  looks : 0 < len.toNat → 0 < userMemPages va len

/-- A directory with no huge pages, whose page tables lie in memory. -/
def SmallPages (s : Vm) (d : ℕ) : Prop :=
  ∀ i < 1024, isPresent (s.mm.word d i) = true →
    isHuge (s.mm.word d i) = false ∧ pgnum (s.mm.word d i) < s.mm.npages

/-- The page `i` behind the one of `va` is refused: its entry does not allow it, or the first page
ends above `ULIM`, in arithmetic that wraps. -/
def Refused (s : Vm) (d : ℕ) (va perm : BitVec 32) (i : ℕ) : Prop :=
  ¬ PteAllows s d perm ((vpn va + i) % 2 ^ 20) ∨ uLim.toNat < (vpn va + 1) * 4096 % 2 ^ 32

/-- **When the function is exact**. An empty range has to be one for which no page is looked at, or
one that is not refused. Any other range has to end at or below `ULIM`, or be refused for its first
page or for one that does not lie above the page at `ULIM`. -/
def CheckFits (s : Vm) (d : ℕ) (va len perm : BitVec 32) : Prop :=
  (len.toNat = 0 → va.toNat % 4096 = 0 ∨ ¬ Refused s d va perm 0) ∧
  (0 < len.toNat → va.toNat + len.toNat ≤ uLim.toNat ∨
    ∃ i < userMemPages va len, (i = 0 ∨ (vpn va + i) * 4096 ≤ uLim.toNat) ∧ Refused s d va perm i)

/-! ### The arithmetic -/

theorem pageSize_toNat : (BitVec.ofNat 32 pgSize).toNat = 4096 := rfl

theorem uLim_toNat : uLim.toNat = 4018143232 := rfl

theorem roundDown_page (va : BitVec 32) :
    (roundDown va (BitVec.ofNat 32 pgSize)).toNat = vpn va * 4096 := by
  have hlt := va.isLt
  have hle : va % BitVec.ofNat 32 pgSize ≤ va := by
    rw [BitVec.le_def, BitVec.toNat_umod]
    exact Nat.mod_le ..
  rw [roundDown, BitVec.toNat_sub_of_le hle, BitVec.toNat_umod, pageSize_toNat, vpn]
  omega

/-- The number of pages, in arithmetic that wraps once. -/
theorem userMemPages_eq (va len : BitVec 32) :
    userMemPages va len = (va.toNat % 4096 + len.toNat + 4095) % 2 ^ 32 / 4096 := by
  have hva := va.isLt
  have hoff : (va - roundDown va (BitVec.ofNat 32 pgSize)).toNat = va.toNat % 4096 := by
    have hlow := roundDown_page va
    have hle : roundDown va (BitVec.ofNat 32 pgSize) ≤ va := by
      rw [BitVec.le_def, hlow, vpn]
      omega
    rw [BitVec.toNat_sub_of_le hle, hlow, vpn]
    omega
  have hsum : (len + (va - roundDown va (BitVec.ofNat 32 pgSize)) +
      BitVec.ofNat 32 pgSize - 1).toNat
      = (va.toNat % 4096 + len.toNat + 4095) % 2 ^ 32 := by
    have hone : (1 : BitVec 32).toNat = 1 := rfl
    rw [BitVec.toNat_sub, BitVec.toNat_add, BitVec.toNat_add, hoff, pageSize_toNat, hone]
    omega
  rw [userMemPages, roundUp, roundDown_page, vpn, hsum, pgSize]
  omega

theorem userMemPages_le (va len : BitVec 32) : userMemPages va len ≤ 2 ^ 20 := by
  rw [userMemPages_eq]
  omega

/-- The address of the page `i`, for an address `a`. -/
theorem pageAt_mod (a : BitVec 32) (i : ℕ) :
    (pageAt a i).toNat = (a.toNat + i * 4096) % 2 ^ 32 := by
  rw [pageAt, pgSize, BitVec.toNat_add, BitVec.toNat_ofNat]
  omega

theorem vpn_pageAt_low (va : BitVec 32) (i : ℕ) :
    vpn (pageAt (roundDown va (BitVec.ofNat 32 pgSize)) i) = (vpn va + i) % 2 ^ 20 := by
  rw [vpn, pageAt_mod, roundDown_page]
  omega

/-- The address that is reported, for a page whose address does not wrap. -/
theorem checkAddr_toNat {va : BitVec 32} {i : ℕ} (h : (vpn va + i) * 4096 < 2 ^ 32) :
    (userMemCheckAddr va (roundDown va (BitVec.ofNat 32 pgSize)) i).toNat =
      if i = 0 then va.toNat else (vpn va + i) * 4096 := by
  have hlow := pageAt_mod (roundDown va (BitVec.ofNat 32 pgSize)) i
  have hva := pageAt_mod va i
  have hlt := va.isLt
  have hvpn : vpn va = va.toNat / 4096 := rfl
  rw [roundDown_page] at hlow
  rw [userMemCheckAddr]
  split
  · rename_i hless
    rw [BitVec.lt_def] at hless
    have hi : i = 0 := by omega
    rw [if_pos hi]
    omega
  · rename_i hless
    rw [BitVec.lt_def] at hless
    split
    · omega
    · omega

/-- For a page whose address wraps, an address below the range is reported. -/
theorem checkAddr_wraps {va : BitVec 32} {i : ℕ} (h : 2 ^ 32 ≤ (vpn va + i) * 4096)
    (hi : i < 2 ^ 20) :
    (userMemCheckAddr va (roundDown va (BitVec.ofNat 32 pgSize)) i).toNat < va.toNat := by
  have hlow := pageAt_mod (roundDown va (BitVec.ofNat 32 pgSize)) i
  have hva := pageAt_mod va i
  have hlt := va.isLt
  have hvpn : vpn va = va.toNat / 4096 := rfl
  rw [roundDown_page] at hlow
  rw [userMemCheckAddr, if_pos]
  · omega
  · rw [BitVec.lt_def]
    omega

/-! ### The loop -/

section Loop

variable {s : Vm} {d : ℕ} {va perm : BitVec 32}

/-- The entry that `pgdir_walk` finds is the one of the page. -/
theorem pgdirFind_small (h : SmallPages s d) (a : BitVec 32) :
    ∃ p, pgdirFind s (some d) a = .ok p ∧
      ((p = none ∧ s.mm.entry d (vpn a) = 0) ∨ ∃ q, p = some q ∧
        s.pte q = s.mm.entry d (vpn a)) := by
  have hidx : pdx a < 1024 := by
    have := vpn_lt a
    rw [pdx_eq]
    omega
  rw [pgdirFind]
  by_cases hP : isPresent (s.pte ⟨d, pdx a⟩) = true
  · obtain ⟨hsmall, htable⟩ := h _ hidx hP
    have hsmall' : isHuge (s.pte ⟨d, pdx a⟩) = false := hsmall
    refine ⟨some ⟨pgnum (pteAddr (s.pte ⟨d, pdx a⟩)), ptx a⟩, ?_, Or.inr ⟨_, rfl, ?_⟩⟩
    · have hk : ¬ s.mm.npages ≤ pgnum (pteAddr (s.pte ⟨d, pdx a⟩)) := by
        rw [pgnum_pteAddr]
        exact Nat.not_le.2 htable
      rw [if_pos hP, walkEnd, hsmall', Bool.or_false, if_neg Bool.false_ne_true, kaddr, if_neg hk]
      rfl
    · rw [pgnum_pteAddr, Mm.entry, ← pdx_eq, ← ptx_eq]
      change s.mm.word (pgnum (s.mm.word d (pdx a))) (ptx a) = _
      rw [if_pos (show isPresent (s.mm.word d (pdx a)) = true from hP), if_neg]
      rw [hsmall]
      exact Bool.false_ne_true
  · refine ⟨none, ?_, Or.inl ⟨rfl, ?_⟩⟩
    · rw [if_neg hP]
      rfl
    · refine Mm.entry_of_absent ?_
      rw [← pdx_eq]
      exact Bool.eq_false_of_not_eq_true hP

theorem first_ends_above (va : BitVec 32) :
    uLim < roundDown va (BitVec.ofNat 32 pgSize) + BitVec.ofNat 32 pgSize ↔
      uLim.toNat < (vpn va + 1) * 4096 % 2 ^ 32 := by
  have hnat : (roundDown va (BitVec.ofNat 32 pgSize) + BitVec.ofNat 32 pgSize).toNat =
      (vpn va + 1) * 4096 % 2 ^ 32 := by
    rw [BitVec.toNat_add, roundDown_page, pageSize_toNat]
    omega
  rw [BitVec.lt_def, hnat]

/-- One round. -/
theorem userMemPage_spec (h : SmallPages s d) (va perm : BitVec 32) (i : ℕ) :
    ∃ ok, userMemPage s (some d) (roundDown va (BitVec.ofNat 32 pgSize)) perm i = .ok ok ∧
      (ok = true ↔ ¬ Refused s d va perm i) := by
  obtain ⟨p, hp, hcase⟩ := pgdirFind_small h (pageAt (roundDown va (BitVec.ofNat 32 pgSize)) i)
  rw [vpn_pageAt_low] at hcase
  rw [userMemPage, hp]
  rcases hcase with ⟨rfl, hz⟩ | ⟨q, rfl, hq⟩
  · refine ⟨false, rfl, ?_⟩
    have habs : Refused s d va perm i := by
      refine Or.inl fun hall => ?_
      have hpres := hall.1
      rw [hz] at hpres
      exact absurd hpres (by decide)
    simp [habs]
  · refine ⟨_, rfl, ?_⟩
    rw [hq, Bool.and_eq_true, Bool.and_eq_true, beq_iff_eq, Bool.not_eq_true',
      decide_eq_false_iff_not,
      first_ends_above, Refused, not_or, not_not, PteAllows]

/-- **The loop finds the first page that is refused.** -/
theorem userMemFrom_spec (h : SmallPages s d) (va perm : BitVec 32) : ∀ n i : ℕ,
    ∃ r, userMemFrom s (some d) (roundDown va (BitVec.ofNat 32 pgSize)) perm n i = .ok r ∧
      (r = none → ∀ j, i ≤ j → j < i + n → ¬ Refused s d va perm j) ∧
      ∀ k, r = some k → (i ≤ k ∧ k < i + n) ∧ Refused s d va perm k ∧ ∀ j, i ≤ j → j < k →
        ¬ Refused s d va perm j := by
  intro n
  induction n with
  | zero =>
      intro i
      exact ⟨none, rfl, fun _ j h₁ h₂ => by omega, fun k hk => nomatch hk⟩
  | succ n ih =>
      intro i
      obtain ⟨ok, hok, hiff⟩ := userMemPage_spec h va perm i
      rw [userMemFrom, hok]
      cases ok with
      | false =>
          have href : Refused s d va perm i := by
            by_contra hn
            exact Bool.false_ne_true (hiff.2 hn)
          refine ⟨some i, rfl, (nomatch ·), fun k hk => ?_⟩
          obtain rfl : i = k := Option.some.inj hk
          exact ⟨⟨le_refl _, by omega⟩, href, fun j h₁ h₂ => by omega⟩
      | true =>
          have hpass : ¬ Refused s d va perm i := hiff.1 rfl
          obtain ⟨r, hr, hnone, hsome⟩ := ih (i + 1)
          refine ⟨r, hr, fun hn j h₁ h₂ => ?_, fun k hk => ?_⟩
          · by_cases hj : j = i
            · exact hj ▸ hpass
            · exact hnone hn j (by omega) (by omega)
          · obtain ⟨⟨h₁, h₂⟩, href, hall⟩ := hsome k hk
            refine ⟨⟨by omega, by omega⟩, href, fun j h₃ h₄ => ?_⟩
            by_cases hj : j = i
            · exact hj ▸ hpass
            · exact hall j (by omega) h₄

end Loop

/-! ### When the check is exact -/

section Exact

variable {s : Vm} {d : ℕ} {va len perm : BitVec 32}

/-- An address of the range, for a page that the loop looks at. -/
theorem page_in_range {i : ℕ} (hi : i < userMemPages va len) :
    (vpn va + i) * 4096 < va.toNat + len.toNat ∨ len.toNat = 0 := by
  rw [userMemPages_eq] at hi
  have hvpn : vpn va = va.toNat / 4096 := rfl
  omega

/-- A range that does not end above `ULIM` has as many pages as are looked at. -/
theorem pages_of_low (hlow : va.toNat + len.toNat ≤ uLim.toNat) {a : ℕ} (h₁ : va.toNat ≤ a)
    (h₂ : a < va.toNat + len.toNat) : a / 4096 - vpn va < userMemPages va len := by
  rw [uLim_toNat] at hlow
  rw [userMemPages_eq]
  have hvpn : vpn va = va.toNat / 4096 := rfl
  omega

/-- Below `ULIM` a page is refused because of its entry. -/
theorem refused_iff_of_low {i : ℕ} (hfirst : (vpn va + 1) * 4096 ≤ uLim.toNat)
    (hi : vpn va + i < 2 ^ 20) :
    Refused s d va perm i ↔ ¬ PteAllows s d perm (vpn va + i) := by
  rw [uLim_toNat] at hfirst
  have hno : ¬ uLim.toNat < (vpn va + 1) * 4096 % 2 ^ 32 := by
    rw [uLim_toNat]
    omega
  rw [Refused, Nat.mod_eq_of_lt hi]
  exact or_iff_left hno

theorem userMay_of_pass {a : ℕ} (hfirst : (vpn va + 1) * 4096 ≤ uLim.toNat) (h₁ : va.toNat ≤ a)
    (hlow : (a / 4096 + 1) * 4096 ≤ uLim.toNat)
    (hpass : ¬ Refused s d va perm (a / 4096 - vpn va)) :
    UserMay s d perm a := by
  have hvpn : vpn va = va.toNat / 4096 := rfl
  have hsum : vpn va + (a / 4096 - vpn va) = a / 4096 := by omega
  have hlt : vpn va + (a / 4096 - vpn va) < 2 ^ 20 := by
    rw [uLim_toNat] at hlow
    omega
  rw [refused_iff_of_low hfirst hlt, not_not, hsum] at hpass
  exact ⟨hlow, hpass⟩

/-- A page that is refused starts with an address the program may not use. -/
theorem not_userMay_of_refused {i : ℕ} (h : Refused s d va perm i) :
    ¬ UserMay s d perm (if i = 0 then va.toNat else (vpn va + i) * 4096) := by
  have hvpn : vpn va = va.toNat / 4096 := rfl
  have hpage : (if i = 0 then va.toNat else (vpn va + i) * 4096) / 4096 = vpn va + i := by
    split <;> omega
  rintro ⟨hend, hall⟩
  rw [hpage] at hend hall
  rw [uLim_toNat] at hend
  rcases h with h | h
  · rw [Nat.mod_eq_of_lt (by omega)] at h
    exact h hall
  · rw [uLim_toNat] at h
    omega

/-- A range that ends at or below `ULIM` and of which no page is refused. -/
theorem exact_of_pass (hpos : 0 < len.toNat) (hlow : va.toNat + len.toNat ≤ uLim.toNat)
    (hall : ∀ j < userMemPages va len, ¬ Refused s d va perm j) :
    ExactCheck s d va len perm none := by
  have hvpn : vpn va = va.toNat / 4096 := rfl
  have hlim := uLim_toNat
  have hlook := pages_of_low hlow (le_refl _) (by omega)
  refine ⟨⟨fun _ a h₁ h₂ => ?_, fun _ => rfl⟩, fun b hb => (nomatch hb), fun _ => by omega⟩
  exact userMay_of_pass (by omega) h₁ (by omega) (hall _ (pages_of_low hlow h₁ h₂))

/-- A range of which a page is refused, the first one or one that does not lie above `ULIM`. -/
theorem exact_of_refused {k : ℕ} (hpos : 0 < len.toNat) (hk : k < userMemPages va len)
    (hlow : k = 0 ∨ (vpn va + k) * 4096 ≤ uLim.toNat) (href : Refused s d va perm k)
    (hall : ∀ j < k, ¬ Refused s d va perm j) :
    ExactCheck s d va len perm
      (some (userMemCheckAddr va (roundDown va (BitVec.ofNat 32 pgSize)) k)) := by
  have hvpn : vpn va = va.toNat / 4096 := rfl
  have hlt := va.isLt
  have hlim := uLim_toNat
  have hin : (vpn va + k) * 4096 < va.toNat + len.toNat :=
    (page_in_range hk).resolve_right (by omega)
  have haddr := checkAddr_toNat (show (vpn va + k) * 4096 < 2 ^ 32 by omega)
  have hbad := not_userMay_of_refused href
  rw [← haddr] at hbad
  have hge : va.toNat ≤ (userMemCheckAddr va (roundDown va (BitVec.ofNat 32 pgSize)) k).toNat := by
    rw [haddr]
    split <;> omega
  have hend : (userMemCheckAddr va (roundDown va (BitVec.ofNat 32 pgSize)) k).toNat <
      va.toNat + len.toNat := by
    rw [haddr]
    split <;> omega
  refine ⟨⟨fun hn => (nomatch hn), fun hmay => absurd (hmay _ hge hend) hbad⟩, fun b hb => ?_,
    fun _ => by omega⟩
  obtain rfl := Option.some.inj hb
  refine ⟨⟨hge, hend⟩, hbad, fun a h₁ h₂ => ?_⟩
  rw [haddr] at h₂
  split at h₂
  · omega
  · exact userMay_of_pass (by omega) h₁ (by omega) (hall _ (by omega))

/-- **An exact check refuses the first page, or one that does not lie above `ULIM`.** -/
theorem low_of_exact {k : ℕ} (hk : k < userMemPages va len)
    (h : ExactCheck s d va len perm (some (userMemCheckAddr va
      (roundDown va (BitVec.ofNat 32 pgSize)) k))) :
    k = 0 ∨ (vpn va + k) * 4096 ≤ uLim.toNat := by
  have hvpn : vpn va = va.toNat / 4096 := rfl
  have hlim := uLim_toNat
  have hpages := userMemPages_le va len
  obtain ⟨⟨hge, -⟩, -, hmay⟩ := h.reports _ rfl
  by_contra hc
  rw [not_or] at hc
  by_cases hwrap : 2 ^ 32 ≤ (vpn va + k) * 4096
  · have := checkAddr_wraps hwrap (by omega)
    omega
  · have haddr := checkAddr_toNat (show (vpn va + k) * 4096 < 2 ^ 32 by omega)
    rw [if_neg hc.1] at haddr
    rw [haddr] at hmay
    -- the larger of `va` and `ULIM` is before the address that is reported
    have hbad := (hmay (max va.toNat uLim.toNat) (le_max_left ..) (by omega)).1
    omega

end Exact

/-- **When `user_mem_check` is exact.** -/
theorem userMemCheck_exact_iff (s : Vm) (e d : ℕ) (va len perm : BitVec 32)
    (hdir : s.pgdir e = some d) (hsmall : SmallPages s d) :
    ∃ r, userMemCheck s e va len perm = .ok r ∧
      (ExactCheck s d va len perm r ↔ CheckFits s d va len perm) := by
  obtain ⟨r, hr, hnone, hsome⟩ := userMemFrom_spec hsmall va perm (userMemPages va len) 0
  refine ⟨r.map (userMemCheckAddr va (roundDown va (BitVec.ofNat 32 pgSize))), ?_, ?_⟩
  · rw [userMemCheck, hdir, hr]
    rfl
  rw [Nat.zero_add] at hnone hsome
  rcases Nat.eq_zero_or_pos len.toNat with hlen | hlen
  · -- an empty range: it is accepted exactly if no page is refused
    have hpages : userMemPages va len = if va.toNat % 4096 = 0 then 0 else 1 := by
      rw [userMemPages_eq, hlen]
      split <;> omega
    constructor
    · intro hex
      refine ⟨fun _ => ?_, fun hpos => by omega⟩
      by_cases hpage : va.toNat % 4096 = 0
      · exact Or.inl hpage
      · rw [if_neg hpage] at hpages
        have hrn : r = none := by
          refine Option.map_eq_none_iff.1 (hex.accepts.2 fun a h₁ h₂ => ?_)
          omega
        exact Or.inr (hnone hrn 0 (le_refl _) (by omega))
    · intro hfits
      have hrn : r = none := by
        cases r with
        | none => rfl
        | some k =>
            obtain ⟨⟨-, hk⟩, href, -⟩ := hsome k rfl
            rcases hfits.1 hlen with hpage | hpass
            · rw [if_pos hpage] at hpages
              omega
            · have hk₀ : k = 0 := by
                split at hpages <;> omega
              exact absurd (hk₀ ▸ href) hpass
      subst hrn
      exact ⟨⟨fun _ a h₁ h₂ => by omega, fun _ => rfl⟩, fun b hb => (nomatch hb),
        fun hpos => by omega⟩
  · constructor
    · intro hex
      refine ⟨fun hzero => by omega, fun _ => ?_⟩
      by_cases hlow : va.toNat + len.toNat ≤ uLim.toNat
      · exact Or.inl hlow
      cases r with
      | none =>
          -- the last byte of the range, or the one at `ULIM`, may not be used
          have hbad := (hex.accepts.1 rfl (max va.toNat uLim.toNat) (le_max_left ..) (by omega)).1
          have := uLim_toNat
          omega
      | some k =>
          obtain ⟨⟨-, hk⟩, href, -⟩ := hsome k rfl
          exact Or.inr ⟨k, hk, low_of_exact hk hex, href⟩
    · intro hfits
      cases r with
      | none =>
          have hall : ∀ j < userMemPages va len, ¬ Refused s d va perm j :=
            fun j hj => hnone rfl j (Nat.zero_le _) hj
          rcases hfits.2 hlen with hlow | ⟨i, hi, -, href⟩
          · exact exact_of_pass hlen hlow hall
          · exact absurd href (hall i hi)
      | some k =>
          obtain ⟨⟨-, hk⟩, href, hall⟩ := hsome k rfl
          refine exact_of_refused hlen hk ?_ href fun j hj => hall j (Nat.zero_le _) hj
          rcases hfits.2 hlen with hlow | ⟨i, -, hi, hrefi⟩
          · have := (page_in_range hk).resolve_right (by omega)
            omega
          · have hki : k ≤ i := by
              by_contra hlt
              exact hall i (Nat.zero_le _) (by omega) hrefi
            omega

/-- A machine whose environment 0 has an empty page directory. -/
def bareVm : Vm := .ofWords 4 frames_four (fun _ _ => 0) fun _ => .ofDir 1

theorem bareVm_word (f i : ℕ) : bareVm.mm.word f i = 0 :=
  Mm.word_bytesOf (w := fun _ _ => 0) rfl i

theorem bareVm_smallPages : SmallPages bareVm 1 := by
  intro i _ hP
  rw [bareVm_word] at hP
  exact absurd hP (by decide)

/-- A page table in the frame 2, which maps the page at 0x1000 for the program. -/
def pageWord (f i : ℕ) : BitVec 32 :=
  if f = 1 ∧ i = 0 then 0x2007 else if f = 2 ∧ i = 1 then 0x3007 else 0

/-- A machine whose environment 0 has this page. -/
def pageVm : Vm := .ofWords 4 frames_four pageWord fun _ => .ofDir 1

theorem pageVm_word (f i : ℕ) : pageVm.mm.word f i = pageWord f i :=
  Mm.word_bytesOf (w := pageWord) rfl i

theorem pageVm_smallPages : SmallPages pageVm 1 := by
  intro i _ hP
  rw [pageVm_word] at hP ⊢
  by_cases hi : i = 0
  · subst hi
    decide
  · rw [pageWord, if_neg (by simp [hi]), if_neg (by simp)] at hP
    exact absurd hP (by decide)

/-- The second half of the page is accepted, and with a byte more the first one behind it is
reported. -/
theorem userMemCheck_exact_iff_page :
    (pageVm.pgdir 0 = some 1 ∧ SmallPages pageVm 1) ∧
      (userMemCheck pageVm 0 0x1800 0x800 pteU = .ok none ∧
        ExactCheck pageVm 1 0x1800 0x800 pteU none) ∧
      userMemCheck pageVm 0 0x1800 0x801 pteU = .ok (some 0x2000) ∧
        ExactCheck pageVm 1 0x1800 0x801 pteU (some 0x2000) := by
  have hfits : ∀ len : BitVec 32, len.toNat ≤ 0x1000 → 0 < len.toNat →
      CheckFits pageVm 1 0x1800 len pteU := by
    intro len hle hpos
    refine ⟨fun hzero => absurd hzero (by omega), fun _ => Or.inl ?_⟩
    change 0x1800 + len.toNat ≤ 4018143232
    omega
  have hpass : userMemCheck pageVm 0 0x1800 0x800 pteU = .ok none := by decide +kernel
  have hrefuse : userMemCheck pageVm 0 0x1800 0x801 pteU = .ok (some 0x2000) := by decide +kernel
  obtain ⟨r₁, hr₁, hiff₁⟩ :=
    userMemCheck_exact_iff pageVm 0 1 0x1800 0x800 pteU rfl pageVm_smallPages
  obtain ⟨r₂, hr₂, hiff₂⟩ :=
    userMemCheck_exact_iff pageVm 0 1 0x1800 0x801 pteU rfl pageVm_smallPages
  obtain rfl := Except.ok.inj (hr₁.symm.trans hpass)
  obtain rfl := Except.ok.inj (hr₂.symm.trans hrefuse)
  exact ⟨⟨rfl, pageVm_smallPages⟩, ⟨hpass, hiff₁.2 (hfits _ (by decide) (by decide))⟩, hrefuse,
    hiff₂.2 (hfits _ (by decide) (by decide))⟩

/-- Nothing is mapped, and the whole address space but its last byte is accepted: its number of
pages, rounded up, wraps to 0. -/
theorem userMemCheck_accepts_unmapped :
    ¬ ∀ (s : Vm) (e d : ℕ) (va len perm : BitVec 32), s.pgdir e = some d → SmallPages s d →
      ∃ r, userMemCheck s e va len perm = .ok r ∧ ExactCheck s d va len perm r := by
  intro h
  obtain ⟨r, hr, hex⟩ := h bareVm 0 1 0 0xFFFFFFFF#32 pteU rfl bareVm_smallPages
  obtain rfl : none = r := Except.ok.inj hr
  have hmay := hex.accepts.1 rfl 0 (le_refl _) (by decide)
  have hentry : bareVm.mm.entry 1 0 = 0 := Mm.entry_of_absent (by rw [bareVm_word]; decide)
  have hP := hmay.2.1
  rw [Nat.zero_div, hentry] at hP
  exact absurd hP (by decide)

end Jos
