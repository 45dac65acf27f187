/-
**Debug information about an address.**

`debuginfo_eip` of `kern/kdebug.c` finds the file, the line and the function of an instruction. For
an address below `ULIM` it reads the tables that the program has left at `USTABDATA`: four pointers,
a table of stabs and a table of strings, in memory that `user_mem_check` has accepted. The third
check is made for the address of the stabs again, with the length of the strings, so that nothing
has been checked where the strings are.

The reads of the model stop where the code would follow a pointer that no check has accepted, or
would use an index that is not in the table.

Main definitions:

* `Jos.debuginfoEip` — the function;
* `Jos.Trusts` — nothing else than what has been checked is read;
* `Jos.EipTrusts` — what the strings and the first search have to be like for that.

Main results:

* `Jos.loads_in_range` — a range that has been accepted can be read;
* `Jos.loadStab_eq` — the stabs can be read;
* `Jos.eipLookup_trusts_iff` — the lookup in a table that can be read;
* `Jos.debuginfoEip_trusts_iff` — **the function reads only what has been checked exactly under that
  condition**.
-/

import JosKernel.Outcome
import JosKernel.Printfmt
import JosKernel.StabRange

set_option relaxedAutoImplicit false
set_option autoImplicit false

namespace Jos

open Outcome

/-! ### Reading the tables -/

/-- `USTABDATA`. -/
def uStabData : BitVec 32 := 0x00200000#32

/-- The types of stabs that are looked for. -/
def nFun : BitVec 32 := 0x24#32
def nSline : BitVec 32 := 0x44#32
def nSo : BitVec 32 := 0x64#32
def nSol : BitVec 32 := 0x84#32
def nPsym : BitVec 32 := 0xa0#32

/-- How the lookup stops. -/
inductive DebugStop
  /-- `user_mem_check` does. -/
  | crash (c : Crash)
  /-- The access to the address faults. -/
  | fault (va : BitVec 32)
  /-- **No check has accepted the address.** -/
  | unchecked (va : BitVec 32)
  /-- **The index is not in the table.** -/
  | badIndex (i : ℤ)
  /-- The string has no end. -/
  | endless
  deriving DecidableEq, Repr

/-- `struct user_stab_data`. -/
structure UserStabData where
  stabs : BitVec 32
  stabEnd : BitVec 32
  stabstr : BitVec 32
  stabstrEnd : BitVec 32
  deriving DecidableEq, Repr

/-- The sizes of the two tables in bytes. -/
def UserStabData.stabLen (t : UserStabData) : BitVec 32 := t.stabEnd - t.stabs
def UserStabData.strLen (t : UserStabData) : BitVec 32 := t.stabstrEnd - t.stabstr

/-- `stab_end - stabs`, a division by 12 that is taken to leave no remainder: a shift, and a
multiplication by the inverse of 3. -/
def UserStabData.count (t : UserStabData) : ℤ := (t.stabLen.sshiftRight 2 * 0xaaaaaaab#32).toInt

/-- The address is in one of the ranges, given by their first addresses and lengths. -/
def InRanges (ranges : List (BitVec 32 × BitVec 32)) (va : BitVec 32) : Prop :=
  ∃ r ∈ ranges, va - r.1 < r.2

instance (ranges : List (BitVec 32 × BitVec 32)) (va : BitVec 32) :
    Decidable (InRanges ranges va) :=
  inferInstanceAs (Decidable (∃ r ∈ ranges, _))

section Code

variable (s : Vm) (e : ℕ) (ranges : List (BitVec 32 × BitVec 32))

/-- `user_mem_check(curenv, va, len, PTE_U)`: whether it returns 0. -/
def eipCheck (va len : BitVec 32) : Except DebugStop Bool :=
  match userMemCheck s e va len pteU with
  | .ok r => pure r.isNone
  | .error c => throw (.crash c)

/-- A byte is read. -/
def loadByte (va : BitVec 32) : Except DebugStop (BitVec 8) :=
  if InRanges ranges va then
    match kernelLoad s e va with
    | .ok b => pure b
    | .error _ => throw (.fault va)
  else throw (.unchecked va)

/-- A word is read. -/
def loadWord (va : BitVec 32) : Except DebugStop (BitVec 32) := do
  let b₀ ← loadByte s e ranges va
  let b₁ ← loadByte s e ranges (va + 1)
  let b₂ ← loadByte s e ranges (va + 2)
  let b₃ ← loadByte s e ranges (va + 3)
  pure (b₃ ++ b₂ ++ b₁ ++ b₀)

/-- `stabs[i]`: the whole entry is read, which lies in the table. -/
def loadStab (t : UserStabData) (i : ℤ) : Except DebugStop Stab :=
  if 0 ≤ i ∧ 12 * (i + 1) ≤ t.stabLen.toInt then do
    let p := t.stabs + BitVec.ofInt 32 (12 * i)
    let nStrx ← loadWord s e ranges p
    let nType ← loadByte s e ranges (p + 4)
    let nOther ← loadByte s e ranges (p + 5)
    let low ← loadByte s e ranges (p + 6)
    let high ← loadByte s e ranges (p + 7)
    let nValue ← loadWord s e ranges (p + 8)
    pure ⟨nStrx, nType, nOther, high ++ low, nValue⟩
  else throw (.badIndex i)

end Code

/-! ### `debuginfo_eip` -/

/-- `struct eip_debuginfo`, with `none` for the text `"<unknown>"` of the kernel. -/
structure EipDebuginfo where
  eipFile : Option (BitVec 32)
  eipLine : BitVec 32
  eipFnName : Option (BitVec 32)
  eipFnNamelen : BitVec 32
  eipFnAddr : BitVec 32
  eipFnNarg : ℕ
  deriving DecidableEq, Repr

/-- The values that are set first. -/
def EipDebuginfo.start (addr : BitVec 32) : EipDebuginfo := ⟨none, 0, none, 9, addr, 0⟩

section Lookup

variable (load : ℤ → Except DebugStop Stab) (byte : BitVec 32 → Except DebugStop (BitVec 8))

/-- `strfind(s, c)`. -/
def strfind (c : BitVec 8) : ℕ → BitVec 32 → Except DebugStop (BitVec 32)
  | 0, _ => throw .endless
  | n + 1, s => do
      let ch ← byte s
      if ch = 0 ∨ ch = c then pure s else strfind c n (s + 1)

/-- A call of `stab_binsearch`. -/
def eipSearch (type : BitVec 32) (left right : ℤ) (addr : BitVec 32) :
    Except DebugStop (ℤ × ℤ) := do
  match ← stabBinsearch load type left right addr with
  | some res => pure res
  | none => throw .endless

/-- The loop that goes back to the name of a file, with the number of indices from `lfile` to
`lline`. -/
def seekFile : ℕ → ℤ → Except DebugStop ℤ
  | 0, lline => pure lline
  | n + 1, lline => do
      let s ← load lline
      if s.HasType nSol ∨ (s.HasType nSo ∧ s.nValue ≠ 0) then pure lline else seekFile n (lline - 1)

/-- The loop that counts the arguments, with the number of indices from `lline` to before `rfun`. -/
def countArgs : ℕ → ℤ → Except DebugStop ℕ
  | 0, _ => pure 0
  | n + 1, lline => do
      let s ← load lline
      if s.HasType nPsym then do
        let narg ← countArgs n (lline + 1)
        pure (narg + 1)
      else pure 0

/-- The end of the name, and what is found for a line: from the third search on. -/
def eipLine (t : UserStabData) (info : EipDebuginfo) (addr : BitVec 32)
    (lfile lfun rfun lline rline : ℤ) :
    Except DebugStop (BitVec 32 × EipDebuginfo) := do
  let (lline, rline) ← eipSearch load nSline lline rline addr
  if rline < lline then pure (-1, info)
  else do
    let line ← load rline
    let info := { info with eipLine := line.nDesc.setWidth 32 }
    let lline ← seekFile load (lline - lfile + 1).toNat lline
    let info ←
      if lfile ≤ lline then do
        let file ← load lline
        pure (if file.nStrx < t.strLen then { info with eipFile := some (t.stabstr + file.nStrx) }
          else info)
      else pure info
    let narg ← if lfun < rfun then countArgs load (rfun - (lfun + 1)).toNat (lfun + 1) else pure 0
    pure (0, { info with eipFnNarg := narg })

/-- The number of characters of the name: `strfind(info->eip_fn_name, ':') - info->eip_fn_name`. -/
def eipNamelen : Option (BitVec 32) → Except DebugStop (BitVec 32)
  | none => pure 9
  | some name => do
      let colon ← strfind byte 0x3a (2 ^ 32) name
      pure (colon - name)

/-- The function within the file: from the second search on. -/
def eipFunction (t : UserStabData) (info : EipDebuginfo) (addr : BitVec 32) (lfile rfile : ℤ) :
    Except DebugStop (BitVec 32 × EipDebuginfo) := do
  let (lfun, rfun) ← eipSearch load nFun lfile rfile addr
  if lfun ≤ rfun then do
    let f ← load lfun
    let name := if f.nStrx < t.strLen then some (t.stabstr + f.nStrx) else info.eipFnName
    let namelen ← eipNamelen byte name
    let info := { info with eipFnName := name, eipFnAddr := f.nValue, eipFnNamelen := namelen }
    eipLine load t info (addr - f.nValue) lfile lfun rfun lfun rfun
  else do
    let namelen ← eipNamelen byte info.eipFnName
    let info := { info with eipFnAddr := addr, eipFnNamelen := namelen }
    eipLine load t info addr lfile lfun rfun lfile rfile

/-- The lookup in tables that have been found. -/
def eipLookup (t : UserStabData) (addr : BitVec 32) :
    Except DebugStop (BitVec 32 × EipDebuginfo) := do
  let info := EipDebuginfo.start addr
  if t.stabstrEnd ≤ t.stabstr then pure (-1, info)
  else do
    let last ← byte (t.stabstrEnd - 1)
    if last ≠ 0 then pure (-1, info)
    else do
      let (lfile, rfile) ← eipSearch load nSo 0 (t.count - 1) addr
      if lfile = 0 then pure (-1, info) else eipFunction load byte t info addr lfile rfile

end Lookup

/-- The tables of the program, with the ranges that have been accepted. -/
def userStabs (s : Vm) (e : ℕ) :
    Except DebugStop (Option (UserStabData × List (BitVec 32 × BitVec 32))) := do
  if ¬ (← eipCheck s e uStabData 16) then pure none
  else do
    let usd := [(uStabData, 16)]
    let stabs ← loadWord s e usd uStabData
    let stabEnd ← loadWord s e usd (uStabData + 4)
    let stabstr ← loadWord s e usd (uStabData + 8)
    let stabstrEnd ← loadWord s e usd (uStabData + 12)
    let t : UserStabData := ⟨stabs, stabEnd, stabstr, stabstrEnd⟩
    if ¬ (← eipCheck s e t.stabs t.stabLen) then pure none
    -- the address is `stabs` again
    else if ¬ (← eipCheck s e t.stabs t.strLen) then pure none
    else pure (some (t, (t.stabs, t.strLen) :: (t.stabs, t.stabLen) :: usd))

/-- **`debuginfo_eip(addr, info)`** for the environment `e`, with the tables of the kernel. -/
def debuginfoEip (s : Vm) (e : ℕ) (kern : UserStabData) (addr : BitVec 32) :
    Except DebugStop (BitVec 32 × EipDebuginfo) := do
  if uLim ≤ addr then
    let ranges := [(kern.stabs, kern.stabLen), (kern.stabstr, kern.strLen)]
    eipLookup (loadStab s e ranges kern) (loadByte s e ranges) kern addr
  else
    match ← userStabs s e with
    | none => pure (-1, .start addr)
    | some (t, ranges) => eipLookup (loadStab s e ranges t) (loadByte s e ranges) t addr

/-! ### What is trusted -/

/-- A stop for another reason than a read of something that has not been checked. -/
def DebugStop.Trusting : DebugStop → Prop
  | .unchecked _ => False
  | .badIndex _ => False
  | _ => True

/-- **Only what has been checked is read.** -/
def Trusts {α : Type} (x : Except DebugStop α) : Prop := Ends DebugStop.Trusting (fun _ => True) x

section Tables

variable (s : Vm) (e : ℕ)

/-- What is in memory: bytes, words, the structure at `USTABDATA`, and the stabs of a table. -/
def eipByte (va : BitVec 32) : BitVec 8 := byteAt s e va.toNat
def eipWord (va : BitVec 32) : BitVec 32 :=
  eipByte s e (va + 3) ++ eipByte s e (va + 2) ++ eipByte s e (va + 1) ++ eipByte s e va
def userStabData : UserStabData :=
  ⟨eipWord s e uStabData, eipWord s e (uStabData + 4), eipWord s e (uStabData + 8),
    eipWord s e (uStabData + 12)⟩
def stabAt (p : BitVec 32) : Stab :=
  ⟨eipWord s e p, eipByte s e (p + 4), eipByte s e (p + 5),
    eipByte s e (p + 7) ++ eipByte s e (p + 6), eipWord s e (p + 8)⟩
def tableStab (t : UserStabData) (i : ℤ) : Stab := stabAt s e (t.stabs + BitVec.ofInt 32 (12 * i))

/-- The three checks pass. -/
def EipAccepts (t : UserStabData) : Prop :=
  userMemCheck s e uStabData 16 pteU = .ok none ∧
    userMemCheck s e t.stabs t.stabLen pteU = .ok none ∧
    userMemCheck s e t.stabs t.strLen pteU = .ok none

/-- The ranges of the three checks. -/
def eipRanges (t : UserStabData) : List (BitVec 32 × BitVec 32) :=
  [(t.stabs, t.strLen), (t.stabs, t.stabLen), (uStabData, 16)]

/-- The bytes of a name, up to a zero byte or a colon or to one that cannot be read, are in the
ranges. -/
def NameChecked (ranges : List (BitVec 32 × BitVec 32)) (name : BitVec 32) : Prop :=
  ∀ k < 2 ^ 32, (∀ j < k, ∃ b, kernelLoad s e (name + BitVec.ofNat 32 j) = .ok b ∧ b ≠ 0 ∧
    b ≠ 0x3a) → InRanges ranges (name + BitVec.ofNat 32 k)

/-- The searches stay in the table, and the name of the function is in the ranges, if there is one:
there are not more stabs than the range has room for, and the search for the file does not find a
region that begins before the table. -/
def SearchesTrust (t : UserStabData) (addr : BitVec 32) : Prop :=
  let stabs := fun i => (.ok (tableStab s e t i) : Except DebugStop Stab)
  (t.count ≤ 0 ∨ 12 * t.count ≤ t.stabLen.toInt) ∧
    ∀ lfile rfile, eipSearch stabs nSo 0 (t.count - 1) addr = .ok (lfile, rfile) → lfile ≠ 0 →
      lfile ≠ -1 ∧
        ∀ lfun rfun, eipSearch stabs nFun lfile rfile addr = .ok (lfun, rfun) → lfun ≤ rfun →
          (tableStab s e t lfun).nStrx < t.strLen →
          NameChecked s e (eipRanges t) (t.stabstr + (tableStab s e t lfun).nStrx)

/-- **When the lookup trusts only what has been checked**: if the three checks pass and there are
strings, their last byte has to be in one of the ranges; and the searches go on if it is zero. -/
def EipTrusts (addr : BitVec 32) : Prop :=
  let t := userStabData s e
  EipAccepts s e t → t.stabstr < t.stabstrEnd →
    InRanges (eipRanges t) (t.stabstrEnd - 1) ∧
      (kernelLoad s e (t.stabstrEnd - 1) = .ok 0 → SearchesTrust s e t addr)

end Tables

/-! ### Reading what has been checked -/

section Reads

variable {s : Vm} {e : ℕ} {ranges : List (BitVec 32 × BitVec 32)} {a len perm va : BitVec 32}

/-- **A range that has been accepted can be read**, also across the end of the address space. -/
theorem loads_in_range (h : userMemCheck s e a len perm = .ok none) (hlen : len.toNat < 2 ^ 31)
    (hva : va - a < len) :
    ∃ b, kernelLoad s e va = .ok b := by
  have hsub : (va - a).toNat < len.toNat := hva
  have hlt := a.isLt
  have hltva := va.isLt
  have hvpn : vpn a = a.toNat / 4096 := rfl
  rw [BitVec.toNat_sub] at hsub
  refine kernelLoad_of_checked h
    (i := (a.toNat % 4096 + (va.toNat + 2 ^ 32 - a.toNat) % 2 ^ 32) / 4096) ?_ ?_
  · rw [userMemPages_eq]
    omega
  · rw [vpn, hvpn]
    omega

theorem kernelLoad_byte (h : ∃ b, kernelLoad s e va = .ok b) :
    kernelLoad s e va = .ok (eipByte s e va) := by
  obtain ⟨b, hb⟩ := h
  rw [eipByte, byteAt, BitVec.ofNat_toNat, BitVec.setWidth_eq, hb]

theorem loadByte_checked (h : userMemCheck s e a len perm = .ok none) (hlen : len.toNat < 2 ^ 31)
    (hmem : (a, len) ∈ ranges) (hva : va - a < len) :
    loadByte s e ranges va = .ok (eipByte s e va) := by
  have hin : InRanges ranges va := ⟨(a, len), hmem, hva⟩
  rw [loadByte, if_pos hin, kernelLoad_byte (loads_in_range h hlen hva)]
  rfl

/-- A byte behind an address, when as many bytes are left. -/
theorem sub_lt_of_room {k n : ℕ} (hk : k < n) (hroom : (va - a).toNat + n ≤ len.toNat) :
    va + BitVec.ofNat 32 k - a < len := by
  have hlen := len.isLt
  have hassoc : va + BitVec.ofNat 32 k - a = va - a + BitVec.ofNat 32 k := by bv_omega
  rw [hassoc, BitVec.lt_def, BitVec.toNat_add, BitVec.toNat_ofNat]
  omega

theorem loadWord_checked (h : userMemCheck s e a len perm = .ok none) (hlen : len.toNat < 2 ^ 31)
    (hmem : (a, len) ∈ ranges) (hroom : (va - a).toNat + 4 ≤ len.toNat) :
    loadWord s e ranges va = .ok (eipWord s e va) := by
  have hbyte : ∀ k < 4, loadByte s e ranges (va + BitVec.ofNat 32 k) =
      .ok (eipByte s e (va + BitVec.ofNat 32 k)) :=
    fun k hk => loadByte_checked h hlen hmem (sub_lt_of_room hk hroom)
  have h₀ := hbyte 0 (by decide)
  have hzero : va + BitVec.ofNat 32 0 = va := BitVec.add_zero va
  rw [hzero] at h₀
  have h₁ : loadByte s e ranges (va + 1) = _ := hbyte 1 (by decide)
  have h₂ : loadByte s e ranges (va + 2) = _ := hbyte 2 (by decide)
  have h₃ : loadByte s e ranges (va + 3) = _ := hbyte 3 (by decide)
  rw [loadWord, h₀, h₁, h₂, h₃]
  rfl

/-- **The stabs of the table can be read.** -/
theorem loadStab_eq {t : UserStabData} (h : userMemCheck s e t.stabs t.stabLen perm = .ok none)
    (hmem : (t.stabs, t.stabLen) ∈ ranges) {i : ℤ} (hi : 0 ≤ i)
    (hend : 12 * (i + 1) ≤ t.stabLen.toInt) :
    loadStab s e ranges t i = .ok (tableStab s e t i) := by
  have hlen : t.stabLen.toNat < 2 ^ 31 := by
    rw [BitVec.toInt_eq_toNat_cond] at hend
    split at hend <;> omega
  have hint : t.stabLen.toInt = t.stabLen.toNat := by
    rw [BitVec.toInt_eq_toNat_cond, if_pos (by omega)]
  have hoff : (t.stabs + BitVec.ofInt 32 (12 * i) - t.stabs).toNat = (12 * i).toNat := by
    have hsub : t.stabs + BitVec.ofInt 32 (12 * i) - t.stabs = BitVec.ofInt 32 (12 * i) := by
      bv_omega
    rw [hsub, BitVec.toNat_ofInt, Int.emod_eq_of_lt (by omega) (by omega)]
  have hword : ∀ k, k + 4 ≤ 12 → loadWord s e ranges
      (t.stabs + BitVec.ofInt 32 (12 * i) + BitVec.ofNat 32 k) =
      .ok (eipWord s e (t.stabs + BitVec.ofInt 32 (12 * i) + BitVec.ofNat 32 k)) := by
    intro k hk
    refine loadWord_checked h hlen hmem ?_
    have hassoc : t.stabs + BitVec.ofInt 32 (12 * i) + BitVec.ofNat 32 k - t.stabs =
        t.stabs + BitVec.ofInt 32 (12 * i) - t.stabs + BitVec.ofNat 32 k := by bv_omega
    rw [hassoc, BitVec.toNat_add, hoff, BitVec.toNat_ofNat]
    omega
  have hbyte : ∀ k < 12, loadByte s e ranges
      (t.stabs + BitVec.ofInt 32 (12 * i) + BitVec.ofNat 32 k) =
      .ok (eipByte s e (t.stabs + BitVec.ofInt 32 (12 * i) + BitVec.ofNat 32 k)) :=
    fun k hk => loadByte_checked h hlen hmem (sub_lt_of_room hk (by rw [hoff]; omega))
  have h₀ := hword 0 (by decide)
  have hzero : t.stabs + BitVec.ofInt 32 (12 * i) + BitVec.ofNat 32 0 =
      t.stabs + BitVec.ofInt 32 (12 * i) := BitVec.add_zero _
  rw [hzero] at h₀
  have h₄ : loadByte s e ranges (t.stabs + BitVec.ofInt 32 (12 * i) + 4) = _ := hbyte 4 (by decide)
  have h₅ : loadByte s e ranges (t.stabs + BitVec.ofInt 32 (12 * i) + 5) = _ := hbyte 5 (by decide)
  have h₆ : loadByte s e ranges (t.stabs + BitVec.ofInt 32 (12 * i) + 6) = _ := hbyte 6 (by decide)
  have h₇ : loadByte s e ranges (t.stabs + BitVec.ofInt 32 (12 * i) + 7) = _ := hbyte 7 (by decide)
  have h₈ : loadWord s e ranges (t.stabs + BitVec.ofInt 32 (12 * i) + 8) = _ := hword 8 (by decide)
  rw [loadStab, if_pos ⟨hi, hend⟩]
  dsimp only
  rw [h₀, h₄, h₅, h₆, h₇, h₈]
  rfl

end Reads

/-! ### The loops -/

section Loops

variable {s : Vm} {e : ℕ} {ranges : List (BitVec 32 × BitVec 32)} {load : ℤ → Except DebugStop Stab}
    {stabs : ℤ → Stab} {R : ℤ}

/-- **The end of a name**: every byte up to there has to be in the ranges. -/
theorem strfind_trusts_iff {c : BitVec 8} :
    ∀ (n : ℕ) (a : BitVec 32), Trusts (strfind (loadByte s e ranges) c n a) ↔
    ∀ k < n, (∀ j < k, ∃ b, kernelLoad s e (a + BitVec.ofNat 32 j) = .ok b ∧ b ≠ 0 ∧ b ≠ c) →
      InRanges ranges (a + BitVec.ofNat 32 k) := by
  intro n
  induction n with
  | zero => exact fun a => iff_of_true True.intro fun k hk => absurd hk (Nat.not_lt_zero k)
  | succ n ih =>
      intro a
      have hzero : a + BitVec.ofNat 32 0 = a := BitVec.add_zero a
      have hnext : ∀ j, a + BitVec.ofNat 32 (j + 1) = a + 1 + BitVec.ofNat 32 j := by
        intro j
        rw [BitVec.ofNat_add, BitVec.add_comm (BitVec.ofNat 32 j), ← BitVec.add_assoc]
        rfl
      rw [strfind, loadByte]
      by_cases hin : InRanges ranges a
      · rw [if_pos hin]
        cases hload : kernelLoad s e a with
        | error why =>
            refine iff_of_true True.intro fun k _ hbefore => ?_
            cases k with
            | zero => rwa [hzero]
            | succ k =>
                obtain ⟨b, hb, -⟩ := hbefore 0 (Nat.succ_pos k)
                rw [hzero, hload] at hb
                exact nomatch hb
        | ok ch =>
            change Trusts (if ch = 0 ∨ ch = c then pure a
              else strfind (loadByte s e ranges) c n (a + 1)) ↔ _
            by_cases hch : ch = 0 ∨ ch = c
            · rw [if_pos hch]
              refine iff_of_true True.intro fun k _ hbefore => ?_
              cases k with
              | zero => rwa [hzero]
              | succ k =>
                  obtain ⟨b, hb, hb0, hbc⟩ := hbefore 0 (Nat.succ_pos k)
                  rw [hzero, hload] at hb
                  obtain rfl := Except.ok.inj hb
                  exact absurd hch (not_or.2 ⟨hb0, hbc⟩)
            · rw [if_neg hch, ih]
              constructor
              · intro h k hk hbefore
                cases k with
                | zero => rwa [hzero]
                | succ k =>
                    rw [hnext]
                    exact h k (Nat.lt_of_succ_lt_succ hk) fun j hj => hnext j ▸ hbefore (j + 1)
                      (Nat.succ_lt_succ hj)
              · intro h k hk hbefore
                rw [← hnext]
                refine h (k + 1) (Nat.succ_lt_succ hk) fun j hj => ?_
                cases j with
                | zero => exact ⟨ch, by rw [hzero, hload], not_or.1 hch⟩
                | succ j =>
                    rw [hnext]
                    exact hbefore j (Nat.lt_of_succ_lt_succ hj)
      · rw [if_neg hin]
        refine iff_of_false (fun h => h) fun h => hin ?_
        have := h 0 (Nat.succ_pos n) fun j hj => absurd hj (Nat.not_lt_zero j)
        rwa [hzero] at this

/-- The loop for the name of a file reads the indices from its start down to `lfile`. -/
theorem seekFile_ends (hload : ∀ i, 0 ≤ i → i ≤ R → load i = .ok (stabs i)) :
    ∀ {n : ℕ} {i : ℤ}, i ≤ R → 0 ≤ i - n + 1 → ∃ m, seekFile load n i = .ok m ∧ m ≤ i := by
  intro n
  induction n with
  | zero => exact fun {i} _ _ => ⟨i, rfl, Int.le_refl i⟩
  | succ n ih =>
      intro i hi hlow
      rw [seekFile, hload i (by omega) hi]
      change ∃ m, (if (stabs i).HasType nSol ∨ _ then pure i else seekFile load n (i - 1)) =
        Except.ok m ∧ _
      by_cases hstop : (stabs i).HasType nSol ∨ ((stabs i).HasType nSo ∧ (stabs i).nValue ≠ 0)
      · exact ⟨i, if_pos hstop, Int.le_refl i⟩
      · obtain ⟨m, hm, hle⟩ := ih (i := i - 1) (by omega) (by push_cast at hlow ⊢; omega)
        exact ⟨m, (if_neg hstop).trans hm, by omega⟩

/-- The loop for the arguments reads as many indices as it has a number for. -/
theorem countArgs_ends (hload : ∀ i, 0 ≤ i → i ≤ R → load i = .ok (stabs i)) :
    ∀ {n : ℕ} {i : ℤ}, 0 ≤ i → i + n ≤ R + 1 → ∃ narg, countArgs load n i = .ok narg := by
  intro n
  induction n with
  | zero => exact fun _ _ => ⟨0, rfl⟩
  | succ n ih =>
      intro i hi hend
      rw [countArgs, hload i hi (by push_cast at hend; omega)]
      change ∃ narg, (if (stabs i).HasType nPsym then countArgs load n (i + 1) >>= fun narg =>
        pure (narg + 1) else pure 0) = Except.ok narg
      by_cases harg : (stabs i).HasType nPsym
      · obtain ⟨narg, hn⟩ := ih (i := i + 1) (by omega) (by push_cast at hend ⊢; omega)
        rw [if_pos harg, hn]
        exact ⟨_, rfl⟩
      · exact ⟨0, if_neg harg⟩

end Loops

/-! ### The lookup -/

section Lookups

variable {load : ℤ → Except DebugStop Stab} {byte : BitVec 32 → Except DebugStop (BitVec 8)}
    {stabs : ℤ → Stab} {t : UserStabData}
  {info : EipDebuginfo} {addr : BitVec 32} {R lfile rfile lfun rfun lline rline : ℤ}

theorem eipSearch_eq {type : BitVec 32} {left right : ℤ} {res : ℤ × ℤ}
    (h : stabBinsearch load type left right addr = .ok (some res)) :
    eipSearch load type left right addr = .ok res := by
  rw [eipSearch, h]
  rfl

/-- **The search for the line** reads only stabs of the table, when the file does not begin with the
first one. -/
theorem eipLine_trusts (hload : ∀ i, 0 ≤ i → i ≤ R → load i = .ok (stabs i)) (hfile : 1 ≤ lfile)
    (hfun : lfun < rfun → 0 ≤ lfun ∧ rfun ≤ R) (hline : 1 ≤ lline) (hle : lline ≤ rline)
    (hR : rline ≤ R) :
    Trusts (eipLine load t info addr lfile lfun rfun lline rline) := by
  obtain ⟨k, right, hrun, -, hk, hright, -⟩ :=
    @stabBinsearch_range DebugStop load stabs nSline lline rline addr
    fun i hi hi' => hload i (by omega) (by omega)
  rw [eipLine, eipSearch_eq hrun]
  change Trusts (if right < k then _ else _)
  by_cases hnone : right < k
  · rw [if_pos hnone]
    exact True.intro
  · have hread : ∀ i, 0 ≤ i → i ≤ right → load i = .ok (stabs i) :=
      fun i hi hi' => hload i hi (by omega)
    rw [if_neg hnone, hread right (by omega) (Int.le_refl _)]
    obtain ⟨m, hm, hmk⟩ :=
      seekFile_ends hread (n := (k - lfile + 1).toNat) (i := k) (by omega) (by omega)
    change Trusts (seekFile load (k - lfile + 1).toNat k >>= _)
    rw [hm]
    have hend : ∀ info : EipDebuginfo, Trusts (if lfun < rfun then countArgs load
        (rfun - (lfun + 1)).toNat (lfun + 1) >>=
        fun narg => pure (0, { info with eipFnNarg := narg })
          else pure ((0 : BitVec 32), { info with eipFnNarg := 0 })) := by
      intro info
      by_cases hlt : lfun < rfun
      · obtain ⟨hlow, hhigh⟩ := hfun hlt
        obtain ⟨narg, hn⟩ := countArgs_ends hload (n := (rfun - (lfun + 1)).toNat)
          (i := lfun + 1) (by omega) (by omega)
        rw [if_pos hlt, hn]
        exact True.intro
      · rw [if_neg hlt]
        exact True.intro
    change Trusts (if lfile ≤ m then _ else _)
    by_cases hfound : lfile ≤ m
    · rw [if_pos hfound, hread m (by omega) (by omega)]
      exact hend _
    · rw [if_neg hfound]
      exact hend _

theorem trusts_bind_eq {α β : Type} {x : Except DebugStop α} {f : α → Except DebugStop β}
    (hf : ∀ a, Trusts (f a)) : Trusts (x >>= f) ↔ Trusts x := by
  cases x with
  | error why => exact Iff.rfl
  | ok a => exact iff_of_true (hf a) True.intro

/-- **The search for the function**: only its name can be somewhere else. -/
theorem eipFunction_trusts_iff (hload : ∀ i, 0 ≤ i → i ≤ R → load i = .ok (stabs i))
    (hfile : 1 ≤ lfile) (hle : lfile ≤ rfile) (hR : rfile ≤ R) (hso : (stabs lfile).HasType nSo)
    (hname : info.eipFnName = none) :
    Trusts (eipFunction load byte t info addr lfile rfile) ↔
      ∀ lfun rfun, eipSearch (fun i => .ok (stabs i)) nFun lfile rfile addr = .ok (lfun, rfun) →
        lfun ≤ rfun →
        (stabs lfun).nStrx < t.strLen → Trusts (strfind byte 0x3a (2 ^ 32)
          (t.stabstr + (stabs lfun).nStrx)) := by
  have hread : ∀ i, lfile ≤ i → i ≤ rfile → load i = .ok (stabs i) :=
    fun i hi hi' => hload i (by omega) (by omega)
  obtain ⟨lfun, rfun, hrun, hrun', -, hright, hfirst⟩ :=
    @stabBinsearch_range DebugStop load stabs nFun lfile rfile addr hread
  have hnot : ¬ (stabs lfile).HasType nFun := by
    intro hc
    exact absurd (hso.symm.trans hc) (by decide)
  have hlow := hfirst hnot
  have hcall' := eipSearch_eq hrun'
  have huniq : (∀ l r, eipSearch (fun i => .ok (stabs i)) nFun lfile rfile addr = .ok (l, r) →
      l ≤ r → (stabs l).nStrx < t.strLen →
      Trusts (strfind byte 0x3a (2 ^ 32) (t.stabstr + (stabs l).nStrx))) ↔
      (lfun ≤ rfun → (stabs lfun).nStrx < t.strLen →
        Trusts (strfind byte 0x3a (2 ^ 32) (t.stabstr + (stabs lfun).nStrx))) := by
    constructor
    · exact fun h => h lfun rfun hcall'
    · intro h l r hlr
      rw [hcall'] at hlr
      cases hlr
      exact h
  rw [huniq, eipFunction, eipSearch_eq hrun]
  change Trusts (if lfun ≤ rfun then _ else _) ↔ _
  by_cases hfun : lfun ≤ rfun
  · have hline : ∀ info addr, Trusts (eipLine load t info addr lfile lfun rfun lfun rfun) :=
      fun _ _ =>
      eipLine_trusts hload hfile (fun _ => ⟨by omega, by omega⟩) (by omega) hfun (by omega)
    rw [if_pos hfun, hread lfun hlow (by omega)]
    change Trusts (eipNamelen byte (if (stabs lfun).nStrx < t.strLen then
      some (t.stabstr + (stabs lfun).nStrx) else info.eipFnName) >>= _) ↔ _
    rw [trusts_bind_eq fun _ => hline _ _]
    by_cases hstrx : (stabs lfun).nStrx < t.strLen
    · have hcolon : Trusts (eipNamelen byte (some (t.stabstr + (stabs lfun).nStrx))) ↔
          Trusts (strfind byte 0x3a (2 ^ 32) (t.stabstr + (stabs lfun).nStrx)) :=
        trusts_bind_eq fun _ => True.intro
      rw [if_pos hstrx, hcolon]
      exact ⟨fun h _ _ => h, fun h => h hfun hstrx⟩
    · rw [if_neg hstrx, hname]
      exact iff_of_true True.intro fun _ hc => absurd hc hstrx
  · rw [if_neg hfun, hname]
    refine iff_of_true ?_ fun hc => absurd hc hfun
    exact eipLine_trusts hload hfile (fun hlt => absurd (Int.le_of_lt hlt) hfun) hfile hle hR

/-- The first index in the search for the function is the one before the table. -/
theorem eipFunction_before {why : DebugStop} (h : load (-1) = .error why) (hwhy : ¬ why.Trusting) :
    ¬ Trusts (eipFunction load byte t info addr (-1) (-1)) := by
  have hrun : stabBinsearch load nFun (-1) (-1) addr = .error why :=
    stabBinsearch_error (Int.le_refl _) h
  rw [eipFunction, eipSearch, hrun]
  exact hwhy

end Lookups

/-! ### The number of stabs -/

/-- **The number of stabs** is the one that the range has room for, or so much greater that the
entry in the middle is not in the range. -/
theorem UserStabData.count_cases (t : UserStabData) :
    t.count ≤ 0 ∨ 12 * t.count ≤ t.stabLen.toInt ∨
      (0 < t.count ∧ t.stabLen.toInt < 12 * ((0 + (t.count - 1)).tdiv 2 + 1)) := by
  have hlow := t.stabLen.le_two_mul_toInt
  have hhigh := t.stabLen.two_mul_toInt_lt
  have hquarter : (t.stabLen.sshiftRight 2).toInt = t.stabLen.toInt / 4 := by
    rw [BitVec.toInt_sshiftRight, Int.shiftRight_eq_div_pow]
    rfl
  have hinverse : 3#32 * (t.stabLen.sshiftRight 2 * 0xaaaaaaab#32) = t.stabLen.sshiftRight 2 := by
    rw [BitVec.mul_comm, BitVec.mul_assoc]
    exact BitVec.mul_one _
  have hthree : (3 * t.count).bmod (2 ^ 32) = t.stabLen.toInt / 4 := by
    rw [← hquarter, ← hinverse, BitVec.toInt_mul]
    rfl
  have hcount := (t.stabLen.sshiftRight 2 * 0xaaaaaaab#32).two_mul_toInt_lt
  change 2 * t.count < 2 ^ 32 at hcount
  rw [Int.bmod_def] at hthree
  by_cases hpos : t.count ≤ 0
  · exact Or.inl hpos
  · have hmid : (0 + (t.count - 1)).tdiv 2 = (t.count - 1) / 2 := by
      rw [Int.zero_add, Int.tdiv_eq_ediv_of_nonneg (by omega)]
    rw [hmid]
    omega

/-! ### What is read -/

section Main

variable {s : Vm} {e : ℕ} {t : UserStabData} {addr : BitVec 32}

theorem nameChecked_iff {ranges : List (BitVec 32 × BitVec 32)} {name : BitVec 32} :
    Trusts (strfind (loadByte s e ranges) 0x3a (2 ^ 32) name) ↔ NameChecked s e ranges name :=
      strfind_trusts_iff (2 ^ 32) name

/-- **The searches in the tables of a program.** -/
theorem searches_trust_iff (hacc : EipAccepts s e t) (haddr : addr < uLim) :
    Trusts (eipSearch (loadStab s e (eipRanges t) t) nSo 0 (t.count - 1) addr >>= fun file =>
        if file.1 = 0 then pure (-1, .start addr)
        else eipFunction (loadStab s e (eipRanges t) t) (loadByte s e (eipRanges t)) t
          (.start addr) addr file.1 file.2) ↔
      SearchesTrust s e t addr := by
  have hmem : (t.stabs, t.stabLen) ∈ eipRanges t := List.mem_cons_of_mem _ List.mem_cons_self
  have hoff : ∀ i, ¬ (0 ≤ i ∧ 12 * (i + 1) ≤ t.stabLen.toInt) →
      loadStab s e (eipRanges t) t i = .error (.badIndex i) := fun i h => if_neg h
  by_cases hroom : t.count ≤ 0 ∨ 12 * t.count ≤ t.stabLen.toInt
  · have hload : ∀ i, 0 ≤ i → i ≤ t.count - 1 → loadStab s e (eipRanges t) t i =
        .ok (tableStab s e t i) :=
      fun i hi hi' => loadStab_eq hacc.2.1 hmem hi (by omega)
    have hwrap : (addr.toNat : ℤ) + (t.count - 1 - 0) + 1 < 2 ^ 32 := by
      have hlt : addr.toNat < uLim.toNat := haddr
      have hlim := uLim_toNat
      have hlen := t.stabLen.two_mul_toInt_lt
      omega
    obtain ⟨k, right, hrun, hrun', hcase⟩ :=
      @stabBinsearch_source DebugStop _ _ nSo 0 (t.count - 1) addr hload hwrap
    have hcall' := eipSearch_eq hrun'
    have huniq : SearchesTrust s e t addr ↔ (k ≠ 0 → k ≠ -1 ∧
        ∀ lfun rfun, eipSearch (fun i => (.ok (tableStab s e t i) : Except DebugStop Stab)) nFun k
          right addr = .ok (lfun, rfun) → lfun ≤ rfun →
          (tableStab s e t lfun).nStrx < t.strLen →
          NameChecked s e (eipRanges t) (t.stabstr + (tableStab s e t lfun).nStrx)) := by
      constructor
      · exact fun h => h.2 k right hcall'
      · refine fun h => ⟨hroom, fun l r hlr => ?_⟩
        rw [hcall'] at hlr
        cases hlr
        exact h
    rw [eipSearch_eq hrun, huniq]
    change Trusts (if k = 0 then _ else _) ↔ _
    by_cases hk : k = 0
    · rw [if_pos hk]
      exact iff_of_true True.intro fun hc => absurd hk hc
    · rw [if_neg hk]
      rcases hcase with ⟨rfl, rfl, -⟩ | hzero | ⟨hpos, hle, hR, hso⟩
      · exact iff_of_false (eipFunction_before (hoff (-1) (by omega)) fun h => h) fun h =>
          (h hk).1 rfl
      · exact absurd hzero hk
      · rw [eipFunction_trusts_iff hload (by omega) hle hR hso rfl]
        simp only [nameChecked_iff]
        exact ⟨fun h _ => ⟨by omega, h⟩, fun h => (h hk).2⟩
  · have hmid : loadStab s e (eipRanges t) t ((0 + (t.count - 1)).tdiv 2) =
        .error (.badIndex ((0 + (t.count - 1)).tdiv 2)) := by
      refine hoff _ ?_
      rcases t.count_cases with hc | hc | hc
      · exact absurd (Or.inl hc) hroom
      · exact absurd (Or.inr hc) hroom
      · omega
    have hrun := @stabBinsearch_error DebugStop _ nSo 0 (t.count - 1) addr _ (by omega) hmid
    rw [eipSearch, hrun]
    exact iff_of_false (fun h => h) fun h => hroom h.1

/-- **The lookup in the tables of a program.** -/
theorem eipLookup_trusts_iff (hacc : EipAccepts s e t) (haddr : addr < uLim) :
    Trusts (eipLookup (loadStab s e (eipRanges t) t) (loadByte s e (eipRanges t)) t addr) ↔
      (t.stabstr < t.stabstrEnd →
      InRanges (eipRanges t) (t.stabstrEnd - 1) ∧ (kernelLoad s e (t.stabstrEnd - 1) = .ok 0 →
        SearchesTrust s e t addr)) := by
  unfold eipLookup
  dsimp only
  by_cases hstr : t.stabstrEnd ≤ t.stabstr
  · rw [if_pos hstr]
    exact iff_of_true True.intro fun hlt => absurd hlt (BitVec.not_lt.2 hstr)
  · have hlt : t.stabstr < t.stabstrEnd := BitVec.not_le.1 hstr
    rw [if_neg hstr, loadByte]
    by_cases hin : InRanges (eipRanges t) (t.stabstrEnd - 1)
    · rw [if_pos hin]
      cases hlast : kernelLoad s e (t.stabstrEnd - 1) with
      | error why => exact iff_of_true True.intro fun _ => ⟨hin, fun hc => nomatch hc⟩
      | ok last =>
          change Trusts (if last ≠ 0 then _ else _) ↔ _
          by_cases hzero : last = 0
          · subst hzero
            rw [if_neg (not_not_intro rfl)]
            exact (searches_trust_iff hacc haddr).trans ⟨fun h _ => ⟨hin, fun _ => h⟩, fun h =>
              (h hlt).2 rfl⟩
          · rw [if_pos hzero]
            exact iff_of_true True.intro fun _ => ⟨hin, fun hc => absurd (Except.ok.inj hc) hzero⟩
    · rw [if_neg hin]
      exact iff_of_false (fun h => h) fun h => hin (h hlt).1

/-- A check that does not stop. -/
theorem eipCheck_cases (s : Vm) (e : ℕ) (va len : BitVec 32) :
    (userMemCheck s e va len pteU = .ok none ∧ eipCheck s e va len = .ok true) ∨
      (userMemCheck s e va len pteU ≠ .ok none ∧ (eipCheck s e va len = .ok false ∨
        ∃ c, eipCheck s e va len = .error (.crash c))) := by
  rw [eipCheck]
  cases userMemCheck s e va len pteU with
  | error c => exact Or.inr ⟨fun h => (nomatch h), Or.inr ⟨c, rfl⟩⟩
  | ok r =>
      cases r with
      | none => exact Or.inl ⟨rfl, rfl⟩
      | some a => exact Or.inr ⟨fun h => (nomatch h), Or.inl rfl⟩

/-- The structure at `USTABDATA` can be read once it has been checked. -/
theorem userStabs_eq (hfirst : userMemCheck s e uStabData 16 pteU = .ok none)
    (hok : eipCheck s e uStabData 16 = .ok true) :
    userStabs s e = eipCheck s e (userStabData s e).stabs (userStabData s e).stabLen >>= fun ok =>
      if ¬ ok = true then pure none
      else eipCheck s e (userStabData s e).stabs (userStabData s e).strLen >>= fun ok =>
        if ¬ ok = true then pure none
        else pure (some (userStabData s e, eipRanges (userStabData s e))) := by
  have hword : ∀ k, k + 4 ≤ 16 → loadWord s e [(uStabData, 16)] (uStabData + BitVec.ofNat 32 k) =
      .ok (eipWord s e (uStabData + BitVec.ofNat 32 k)) := by
    intro k hk
    refine loadWord_checked hfirst (by decide) List.mem_cons_self ?_
    have hsub : uStabData + BitVec.ofNat 32 k - uStabData = BitVec.ofNat 32 k := by bv_omega
    have hlen : (16 : BitVec 32).toNat = 16 := rfl
    rw [hsub, BitVec.toNat_ofNat, hlen]
    omega
  have h₀ : loadWord s e [(uStabData, 16)] uStabData = .ok (eipWord s e uStabData) :=
    hword 0 (by decide)
  have h₄ : loadWord s e [(uStabData, 16)] (uStabData + 4) = _ := hword 4 (by decide)
  have h₈ : loadWord s e [(uStabData, 16)] (uStabData + 8) = _ := hword 8 (by decide)
  have h₁₂ : loadWord s e [(uStabData, 16)] (uStabData + 12) = _ := hword 12 (by decide)
  rw [userStabs, hok]
  change (loadWord s e [(uStabData, 16)] uStabData >>= _) = _
  rw [h₀]
  change (loadWord s e [(uStabData, 16)] (uStabData + 4) >>= _) = _
  rw [h₄]
  change (loadWord s e [(uStabData, 16)] (uStabData + 8) >>= _) = _
  rw [h₈]
  change (loadWord s e [(uStabData, 16)] (uStabData + 12) >>= _) = _
  rw [h₁₂]
  rfl

/-- **The tables of the program** are what is in memory, if the three checks pass. -/
theorem userStabs_cases (s : Vm) (e : ℕ) :
    (EipAccepts s e (userStabData s e) ∧ userStabs s
      e = .ok (some (userStabData s e, eipRanges (userStabData s e)))) ∨
      (¬ EipAccepts s e (userStabData s e) ∧ (userStabs s e = .ok none ∨
        ∃ c, userStabs s e = .error (.crash c))) := by
  rcases eipCheck_cases s e uStabData 16 with ⟨hfirst, hok⟩ | ⟨hfirst, hno⟩
  · rw [userStabs_eq hfirst hok]
    rcases eipCheck_cases s e (userStabData s e).stabs (userStabData s e).stabLen
      with ⟨hstabs, hok⟩ | ⟨hstabs, hno⟩
    · rcases eipCheck_cases s e (userStabData s e).stabs (userStabData s e).strLen
        with ⟨hstr, hok'⟩ | ⟨hstr, hno⟩
      · refine Or.inl ⟨⟨hfirst, hstabs, hstr⟩, ?_⟩
        rw [hok, hok']
        rfl
      · refine Or.inr ⟨fun hacc => hstr hacc.2.2, ?_⟩
        rcases hno with hno | ⟨c, hc⟩
        · exact Or.inl (by rw [hok, hno]; rfl)
        · exact Or.inr ⟨c, by rw [hok, hc]; rfl⟩
    · refine Or.inr ⟨fun hacc => hstabs hacc.2.1, ?_⟩
      rcases hno with hno | ⟨c, hc⟩
      · exact Or.inl (by rw [hno]; rfl)
      · exact Or.inr ⟨c, by rw [hc]; rfl⟩
  · refine Or.inr ⟨fun hacc => hfirst hacc.1, ?_⟩
    rcases hno with hno | ⟨c, hc⟩
    · exact Or.inl (by rw [userStabs, hno]; rfl)
    · exact Or.inr ⟨c, by rw [userStabs, hc]; rfl⟩

end Main

/-- With tables that the three checks accept, the lookup goes on in them. -/
theorem debuginfoEip_accepted {s : Vm} {e : ℕ} {kern : UserStabData} {addr : BitVec 32}
    (haddr : addr < uLim) (hacc : EipAccepts s e (userStabData s e)) :
    Trusts (debuginfoEip s e kern addr) ↔ ((userStabData s e).stabstr <
      (userStabData s e).stabstrEnd →
      InRanges (eipRanges (userStabData s e)) ((userStabData s e).stabstrEnd - 1) ∧
        (kernelLoad s e ((userStabData s e).stabstrEnd - 1) = .ok 0 →
          SearchesTrust s e (userStabData s e) addr)) := by
  have hlow : ¬ uLim ≤ addr := BitVec.not_le.2 haddr
  rw [debuginfoEip, if_neg hlow]
  rcases userStabs_cases s e with ⟨-, hrun⟩ | ⟨hno, -⟩
  · rw [hrun]
    exact eipLookup_trusts_iff hacc haddr
  · exact absurd hacc hno

/-- **The lookup reads only what has been checked**, for an address of a program, exactly if the
last byte of the strings and the name of the function are in the ranges that the checks have
accepted and the searches stay in the table. -/
theorem debuginfoEip_trusts_iff (s : Vm) (e : ℕ) (kern : UserStabData) (addr : BitVec 32)
    (haddr : addr < uLim) :
    Trusts (debuginfoEip s e kern addr) ↔ EipTrusts s e addr := by
  rcases userStabs_cases s e with ⟨hacc, -⟩ | ⟨hno, hrun⟩
  · exact (debuginfoEip_accepted haddr hacc).trans ⟨fun h _ => h, fun h => h hacc⟩
  · have hlow : ¬ uLim ≤ addr := BitVec.not_le.2 haddr
    refine iff_of_true ?_ fun hc => absurd hc hno
    rw [debuginfoEip, if_neg hlow]
    rcases hrun with hrun | ⟨c, hrun⟩
    · rw [hrun]
      exact True.intro
    · rw [hrun]
      exact True.intro

/-! ### Three programs -/

section Programs

variable (c : ℕ → BitVec 8) {stop : ℕ}

theorem eipByte_buffer (hstop : stop * 4096 ≤ uLim.toNat) {va : BitVec 32} (h : vpn va < stop) :
    eipByte (bufferVm c stop) 0 va = c va.toNat := by
  rw [eipByte, byteAt, BitVec.ofNat_toNat, BitVec.setWidth_eq, bufferVm_load c hstop, if_pos h]
  rfl

theorem eipWord_buffer (hstop : stop * 4096 ≤ uLim.toNat) {va : BitVec 32}
    (h : va.toNat + 3 < stop * 4096) :
    eipWord (bufferVm c stop) 0 va = c (va.toNat + 3) ++ c (va.toNat + 2) ++ c (va.toNat + 1) ++
      c va.toNat := by
  have hlim := uLim_toNat
  have hbyte : ∀ k < 4, eipByte (bufferVm c stop) 0 (va + BitVec.ofNat 32 k) =
    c (va.toNat + k) := by
    intro k hk
    have haddr : (va + BitVec.ofNat 32 k).toNat = va.toNat + k := by
      rw [BitVec.toNat_add, BitVec.toNat_ofNat]
      omega
    rw [eipByte_buffer c hstop (by rw [vpn, haddr]; omega), haddr]
  have h₀ := hbyte 0 (by decide)
  have hzero : va + BitVec.ofNat 32 0 = va := BitVec.add_zero va
  rw [hzero] at h₀
  have h₁ : eipByte (bufferVm c stop) 0 (va + 1) = _ := hbyte 1 (by decide)
  have h₂ : eipByte (bufferVm c stop) 0 (va + 2) = _ := hbyte 2 (by decide)
  have h₃ : eipByte (bufferVm c stop) 0 (va + 3) = _ := hbyte 3 (by decide)
  rw [eipWord, h₀, h₁, h₂, h₃]
  rfl

/-- The words at `USTABDATA` and behind it, in the page `0x200`. -/
def tableBytes (w : ℕ → BitVec 32) (a : ℕ) : BitVec 8 :=
  (w ((a - 0x200000) / 4)).extractLsb' (8 * (a % 4)) 8

theorem eipWord_table (w : ℕ → BitVec 32) (k : ℕ) (hk : k < 1024) {va : BitVec 32}
    (hva : va = uStabData + BitVec.ofNat 32 (4 * k)) :
    eipWord (bufferVm (tableBytes w) 0x201) 0 va = w k := by
  subst hva
  have haddr : (uStabData + BitVec.ofNat 32 (4 * k)).toNat = 0x200000 + 4 * k := by
    have hbase : uStabData.toNat = 0x200000 := rfl
    rw [BitVec.toNat_add, BitVec.toNat_ofNat, hbase]
    omega
  have hbyte : ∀ j < 4, tableBytes w (0x200000 + 4 * k + j) = (w k).extractLsb' (8 * j) 8 := by
    intro j hj
    have hword : (0x200000 + 4 * k + j - 0x200000) / 4 = k := by omega
    have hrest : (0x200000 + 4 * k + j) % 4 = j := by omega
    rw [tableBytes, hword, hrest]
  rw [eipWord_buffer _ (by decide) (by rw [haddr]; omega), haddr, hbyte 3 (by decide),
    hbyte 2 (by decide), hbyte 1 (by decide)]
  have h₀ := hbyte 0 (by decide)
  rw [Nat.add_zero] at h₀
  rw [h₀]
  exact extract_bytes (w k)

theorem userStabData_table (w : ℕ → BitVec 32) :
    userStabData (bufferVm (tableBytes w) 0x201) 0 = ⟨w 0, w 1, w 2, w 3⟩ := by
  rw [userStabData, eipWord_table w 0 (by decide) (by decide),
    eipWord_table w 1 (by decide) (by decide),
    eipWord_table w 2 (by decide) (by decide), eipWord_table w 3 (by decide) (by decide)]

/-- The checks pass for ranges that end with the page. -/
theorem eipAccepts_table (w : ℕ → BitVec 32) {t : UserStabData}
    (h : t.stabs.toNat + t.stabLen.toNat ≤ 0x201 * 4096)
    (h' : t.stabs.toNat + t.strLen.toNat ≤ 0x201 * 4096) :
    EipAccepts (bufferVm (tableBytes w) 0x201) 0 t := by
  have hcheck : ∀ {a len : BitVec 32}, a.toNat + len.toNat ≤ 0x201 * 4096 →
      userMemCheck (bufferVm (tableBytes w) 0x201) 0 a len pteU = .ok none := by
    intro a len hend
    have hcheck := bufferVm_check (tableBytes w) (by decide) 0 hend
    have hperm : pteU ||| pteU = pteU := by decide
    rwa [hperm] at hcheck
  exact ⟨hcheck (by decide), hcheck h, hcheck h'⟩

/-- A table with one stab, the name of a file behind the address. -/
theorem eipSearch_behind {stabs : ℤ → Stab} {addr : BitVec 32} (hso : (stabs 0).HasType nSo)
    (hlt : addr < (stabs 0).nValue) :
    eipSearch (fun i => (.ok (stabs i) : Except DebugStop Stab)) nSo 0 0 addr = .ok (-1, -1) := by
  have hseek : seekBack (fun i => (.ok (stabs i) : Except DebugStop Stab)) nSo 1 0 = .ok 0 :=
    if_pos hso
  have hround : binRound (fun i => (.ok (stabs i) : Except DebugStop Stab)) nSo
      ⟨0, 0, 0, 0, false, addr⟩ = .ok ⟨0, -1, 0, -1, true, addr⟩ := by
    have hnot : ¬ (stabs 0).nValue < addr := BitVec.not_lt.2 (BitVec.le_of_lt hlt)
    unfold binRound
    change (seekBack (fun i => (.ok (stabs i) : Except DebugStop Stab)) nSo 1 0 >>= _) = _
    rw [hseek]
    change (if (stabs 0).nValue < addr then _ else _) = _
    rw [if_neg hnot]
    exact if_pos hlt
  rw [eipSearch, stabBinsearch]
  change ((binRound (fun i => (.ok (stabs i) : Except DebugStop Stab)) nSo
    ⟨0, 0, 0, 0, false, addr⟩ >>= _) >>= _) >>= _ = _
  rw [hround]
  rfl

end Programs

/-- The words of a program whose strings `"f"` and `"c"` lie in its table: the stabs of a file, of a
function in it and of a line. -/
def sourceLine (k : ℕ) : BitVec 32 :=
  [0x200010, 0x200040, 0x200018, 0x20001c, 0, 0, 0x630066, 2, 0x64, 0x700000, 0, 0x24, 0x7fff00, 0,
    0x70044, 0x100].getD k 0

/-- The line of the program is found, and only what has been checked is read. -/
theorem debuginfoEip_trusts_iff_line :
    (debuginfoEip (bufferVm (tableBytes sourceLine) 0x201) 0 ⟨0, 0, 0, 0⟩ 0x800000).toOption =
      some (0, ⟨some 0x20001a, 7, some 0x200018, 1, 0x7fff00, 0⟩) ∧
    EipTrusts (bufferVm (tableBytes sourceLine) 0x201) 0 0x800000 := by
  have hfound : (debuginfoEip (bufferVm (tableBytes sourceLine) 0x201) 0 ⟨0, 0, 0, 0⟩
      0x800000).toOption = some (0, ⟨some 0x20001a, 7, some 0x200018, 1, 0x7fff00, 0⟩) := by
    decide +kernel
  have htrusts :
      Trusts (debuginfoEip (bufferVm (tableBytes sourceLine) 0x201) 0 ⟨0, 0, 0, 0⟩ 0x800000) := by
    rw [Trusts, ok_of_toOption hfound]
    exact True.intro
  exact ⟨hfound, (debuginfoEip_trusts_iff _ 0 ⟨0, 0, 0, 0⟩ 0x800000 (by decide)).1 htrusts⟩

/-- The words of a program with a string at an address that nothing is mapped at. -/
def unmappedString (k : ℕ) : BitVec 32 := [0x1000, 0x1000, 0x300000, 0x300001].getD k 0

/-- The words of a program with one stab, the name of a file at `0x900000`. -/
def lateFile (k : ℕ) : BitVec 32 :=
  [0x200010, 0x20001c, 0x200010, 0x200011, 0, 0x64, 0x900000].getD k 0

/-- **The last byte of the strings is read without a check**, and an address below the first file
makes the search for the function begin before the table. -/
theorem debuginfoEip_reads_unchecked :
    ¬ Trusts (debuginfoEip (bufferVm (tableBytes unmappedString) 0x201) 0 ⟨0, 0, 0, 0⟩ 0x800000) ∧
    ¬ Trusts (debuginfoEip (bufferVm (tableBytes lateFile) 0x201) 0 ⟨0, 0, 0, 0⟩ 0x800000) := by
  constructor
  · have hdata : userStabData (bufferVm (tableBytes unmappedString) 0x201)
        0 = ⟨0x1000, 0x1000, 0x300000, 0x300001⟩ := userStabData_table _
    have hacc := eipAccepts_table unmappedString (t :=
      ⟨0x1000, 0x1000, 0x300000, 0x300001⟩) (by decide) (by decide)
    rw [debuginfoEip_accepted (by decide) (hdata ▸ hacc), hdata]
    exact fun h => absurd (h (by decide)).1 (by decide)
  · have hdata : userStabData (bufferVm (tableBytes lateFile) 0x201)
        0 = ⟨0x200010, 0x20001c, 0x200010, 0x200011⟩ := userStabData_table _
    have hacc := eipAccepts_table lateFile (t := ⟨0x200010, 0x20001c, 0x200010,
      0x200011⟩) (by decide) (by decide)
    rw [debuginfoEip_accepted (by decide) (hdata ▸ hacc), hdata]
    intro h
    have hlast : kernelLoad (bufferVm (tableBytes lateFile) 0x201) 0 0x200010 = .ok 0 :=
      (bufferVm_load (tableBytes lateFile) (by decide) 0 _).trans (if_pos (by decide))
    have hso : (tableStab (bufferVm (tableBytes lateFile) 0x201) 0
        ⟨0x200010, 0x20001c, 0x200010, 0x200011⟩ 0).HasType nSo := by
      rw [tableStab, stabAt, Stab.HasType]
      dsimp only
      rw [eipByte_buffer _ (by decide) (by decide)]
      decide
    have hvalue : (0x800000 : BitVec 32) < (tableStab (bufferVm (tableBytes lateFile) 0x201) 0
        ⟨0x200010, 0x20001c, 0x200010, 0x200011⟩ 0).nValue := by
      rw [tableStab, stabAt]
      dsimp only
      rw [eipWord_table lateFile 6 (by decide) (by decide)]
      decide
    exact (((h (by decide)).2 hlast).2 (-1) (-1) (eipSearch_behind hso hvalue) (by decide)).1 rfl

end Jos
