/-
**Printing numbers.**

`printnum` in `lib/printfmt.c` calls itself for the number without its last digit, with a width that
is smaller by one, and the innermost call prints the pad characters. What is printed is the numeral,
behind as many pad characters as make it as wide as it was asked for. The numeral of a number in a
base has its digits, the most significant one first: there is at least one, and none of them but a
single one is a zero at the front.

Main definitions:

* `Numerals.Numeral` — a list of digits is the numeral of a number;
* `Jos.padCount` — how many pad characters are printed;
* `Jos.digitChar`, `Jos.digitValue` — the characters of digits;
* `Jos.NumberText` — the numeral of a number behind its pad characters.

Main results:

* `Numerals.Numeral.eq_digits` — a number has one numeral, the digits of `Nat.digits` from the back;
* `Jos.printnum_text` — what the recursion prints, with as many levels as the number has bits;
* `Jos.printnum_prints` — **`printnum` prints the number**, for every number, base and width;
* `Jos.fmtConversion_unsigned`, `Jos.fmtConversion_signed`, `Jos.fmtConversion_pointer` — the
  numeric cases of `vprintfmt`.
-/

import Mathlib.Data.Nat.Digits.Lemmas
import JosKernel.Printfmt

set_option relaxedAutoImplicit false
set_option autoImplicit false

/-! ### Numerals -/

namespace Numerals

/-- **The digits `ds`, the most significant one first, are the numeral of `n` in base `b`.** -/
structure Numeral (b n : ℕ) (ds : List ℕ) : Prop where
  ne_nil : ds ≠ []
  digit : ∀ d ∈ ds, d < b
  leading : ds.head? = some 0 → ds = [0]
  value : Nat.ofDigits b ds.reverse = n

namespace Numeral

variable {b n : ℕ} {ds : List ℕ}

/-- A number below the base is its own digit. -/
theorem single (h : n < b) : Numeral b n [n] where
  ne_nil := List.cons_ne_nil n []
  digit := by
    intro d hd
    rw [List.mem_singleton.1 hd]
    exact h
  leading := by
    intro hzero
    rw [Option.some_inj.1 hzero]
  value := Nat.ofDigits_singleton

/-- **One digit more.** -/
theorem snoc (h : Numeral b (n / b) ds) (hb : 0 < b) (hn : b ≤ n) :
    Numeral b n (ds ++ [n % b]) where
  ne_nil := List.append_ne_nil_of_right_ne_nil ds (List.cons_ne_nil _ _)
  digit := by
    intro d hd
    rcases List.mem_append.1 hd with hd | hd
    · exact h.digit d hd
    · rw [List.mem_singleton.1 hd]
      exact Nat.mod_lt n hb
  leading := by
    intro hzero
    obtain ⟨d, l, rfl⟩ := List.exists_cons_of_ne_nil h.ne_nil
    -- only zero begins with a zero, and the rest of the number is positive
    have hquot := h.value
    rw [h.leading hzero, List.reverse_singleton, Nat.ofDigits_singleton] at hquot
    exact absurd hquot.symm (Nat.ne_of_gt (Nat.div_pos hn hb))
  value := by
    rw [List.reverse_concat, Nat.ofDigits_cons, h.value]
    exact Nat.mod_add_div n b

/-- **There is one numeral.** -/
theorem eq_digits (h : Numeral b n ds) (hb : 1 < b) :
    ds = if n = 0 then [0] else (Nat.digits b n).reverse := by
  by_cases hzero : ds.head? = some 0
  · have hds := h.leading hzero
    have hn := h.value
    rw [hds, List.reverse_singleton, Nat.ofDigits_singleton] at hn
    rw [if_pos hn.symm, hds]
  · have hlast : ∀ hne : ds.reverse ≠ [], ds.reverse.getLast hne ≠ 0 := by
      intro hne hlast
      refine hzero ?_
      rw [List.getLast_reverse] at hlast
      rw [List.head?_eq_some_head h.ne_nil, hlast]
    have hdigits :=
      Nat.digits_ofDigits b hb ds.reverse (fun d hd => h.digit d (List.mem_reverse.1 hd)) hlast
    rw [h.value] at hdigits
    have hn : n ≠ 0 := by
      rintro rfl
      rw [Nat.digits_zero] at hdigits
      exact h.ne_nil (List.reverse_eq_nil_iff.1 hdigits.symm)
    rw [if_neg hn, hdigits, List.reverse_reverse]

/-- Zero has one digit. -/
theorem length_zero (h : Numeral b 0 ds) (hb : 1 < b) : ds.length = 1 := by
  rw [h.eq_digits hb, if_pos rfl]
  rfl

/-- A number below `b ^ k` has at most `k` digits. -/
theorem length_le (h : Numeral b n ds) (hb : 1 < b) {k : ℕ} (hk : 0 < k) (hn : n < b ^ k) :
    ds.length ≤ k := by
  rw [h.eq_digits hb]
  split
  · exact hk
  · rw [List.length_reverse]
    exact (Nat.digits_length_le_iff hb n).2 hn

end Numeral

end Numerals

namespace Jos

open Numerals

/-! ### Digits -/

/-- `"0123456789abcdef"[d]`. -/
def digitChar (d : ℕ) : BitVec 32 := chr ("0123456789abcdef".toList.getD d '0')

/-- The value of the character of a digit. -/
def digitValue (c : BitVec 32) : ℕ :=
  if c.toNat ≤ (chr '9').toNat then c.toNat - (chr '0').toNat
  else c.toNat - (chr 'a').toNat + 10

theorem digitValue_digitChar {d : ℕ} (h : d < 16) : digitValue (digitChar d) = d := by
  revert d
  decide

/-- A numeral is read back from its characters. -/
theorem map_digitValue {base n : ℕ} {ds : List ℕ} (h : Numeral base n ds) (hbase : base ≤ 16) :
    (ds.map digitChar).map digitValue = ds := by
  rw [List.map_map]
  refine (List.map_congr_left fun d hd => ?_).trans (List.map_id ds)
  exact digitValue_digitChar (Nat.lt_of_lt_of_le (h.digit d hd) hbase)

/-- How many pad characters make a numeral `width` wide; a width that falls below what an `int`
holds wraps around. -/
def padCount (width : BitVec 32) (digits : ℕ) : ℕ := (width - BitVec.ofNat 32 digits).toInt.toNat

/-- **The text is the number `n` in a base**, behind the pad characters that make it `width`
wide. -/
def NumberText (base n : ℕ) (padc : Char) (width : BitVec 32) (out : List (BitVec 32)) : Prop :=
  ∃ ds, Numeral base n ds ∧
    out = List.replicate (padCount width ds.length) (chr padc) ++ ds.map digitChar

/-! ### The recursion -/

section

variable {base : ℕ} {padc : Char} {width : BitVec 32}

/-- The pad characters of a width that an `int` holds. -/
theorem padCount_eq {digits : ℕ} (h : -2 ^ 31 + (digits : ℤ) ≤ width.toInt)
    (hdigits : digits < 2 ^ 31) :
    padCount width digits = (width.toInt - digits).toNat := by
  have hlt := width.toInt_lt
  have hval : (BitVec.ofNat 32 digits).toInt = digits := by
    rw [BitVec.toInt_ofNat']
    exact Int.bmod_eq_of_le (by omega) (by omega)
  rw [padCount, BitVec.toInt_sub, hval]
  exact congrArg Int.toNat (Int.bmod_eq_of_le (by omega) (by omega))

/-- `while (--width > 0) putch(padc)`. -/
theorem putPad_eq (width : BitVec 32) (padc : Char) :
    putPad width padc = List.replicate width.toInt.toNat (chr padc) := by
  have hpads : (0#32).slt width = true ↔ 0 < width.toInt := by
    rw [BitVec.slt_eq_decide, decide_eq_true_eq, BitVec.toInt_zero]
  rw [putPad]
  by_cases hpos : 0 < width.toInt
  · have hmsb : width.msb = false := by
      rw [← BitVec.slt_zero_eq_msb, BitVec.slt_eq_decide, decide_eq_false_iff_not,
        BitVec.toInt_zero]
      omega
    rw [if_pos (hpads.2 hpos), BitVec.toInt_eq_toNat_of_msb hmsb, Int.toNat_natCast]
  · rw [if_neg fun hc => hpos (hpads.1 hc), Int.toNat_of_nonpos (by omega), List.replicate_zero]

/-- **What the recursion prints**, for a number of at most as many digits as there are levels. -/
theorem printnum_text (hbase : 2 ≤ base) :
    ∀ (digits n : ℕ) (width : BitVec 32), n < 2 ^ (digits + 1) →
    NumberText base n padc width (printnum base padc (digits + 1) n width) := by
  intro digits
  induction digits with
  | zero =>
      intro n width hn
      have hlt : n < base := Nat.lt_of_lt_of_le hn hbase
      refine ⟨[n], Numeral.single hlt, ?_⟩
      rw [printnum, if_neg (Nat.not_le.2 hlt), Nat.mod_eq_of_lt hlt, putPad_eq]
      rfl
  | succ digits ih =>
      intro n width hn
      rw [printnum]
      by_cases hle : base ≤ n
      · have hquot : n / base < 2 ^ (digits + 1) := by
          refine Nat.lt_of_le_of_lt (Nat.div_le_div_left hbase (by decide)) ?_
          rw [Nat.pow_succ] at hn
          omega
        obtain ⟨ds, hds, hout⟩ := ih (n / base) (width - 1) hquot
        refine ⟨ds ++ [n % base], hds.snoc (by omega) hle, ?_⟩
        have hpads : padCount (width - 1) ds.length = padCount width (ds ++ [n % base]).length := by
          rw [padCount, padCount, List.length_append, BitVec.ofNat_add,
            BitVec.add_comm, ← BitVec.sub_sub]
          rfl
        rw [if_pos hle, hout, hpads, List.map_append, List.append_assoc]
        rfl
      · have hlt := Nat.not_le.1 hle
        refine ⟨[n], Numeral.single hlt, ?_⟩
        rw [if_neg hle, Nat.mod_eq_of_lt hlt, putPad_eq]
        rfl

end

/-- **`printnum` prints the number.** -/
theorem printnum_prints (num : BitVec 64) (base : ℕ) (width : BitVec 32) (padc : Char)
    (hbase : 2 ≤ base) (hbase' : base ≤ 16) (hwidth : -1 ≤ width.toInt) :
    ∃ ds, Numeral base num.toNat ds ∧ (num = 0 → ds.length = 1) ∧
      (ds.map digitChar).map digitValue = ds ∧
      printnum base padc 64 num.toNat width = List.replicate (width.toInt - ds.length).toNat
        (chr padc) ++ ds.map digitChar := by
  obtain ⟨ds, hds, hout⟩ := @printnum_text base padc hbase 63 num.toNat width num.isLt
  have hlen : ds.length ≤ 64 := hds.length_le hbase (by decide)
    (Nat.lt_of_lt_of_le num.isLt (Nat.pow_le_pow_left hbase 64))
  refine ⟨ds, hds, ?_, map_digitValue hds hbase', ?_⟩
  · rintro rfl
    exact hds.length_zero hbase
  · rw [hout, padCount_eq (by omega) (by omega)]

/-- A hexadecimal number of four digits in eight columns. -/
theorem printnum_prints_padded :
    ∃ ds, Numeral 16 (0xdead#64).toNat ds ∧ (0xdead#64 = 0 → ds.length = 1) ∧
      (ds.map digitChar).map digitValue = ds ∧
      printnum 16 '0' 64 (0xdead#64).toNat 8 = List.replicate
        ((8 : BitVec 32).toInt - ds.length).toNat (chr '0') ++ ds.map digitChar :=
  printnum_prints 0xdead#64 16 8 '0' (by decide) (by decide) (by decide)

example : printnum 16 '0' 64 0xdead 8 = "0000dead".toList.map chr := by decide

/-! ### The conversions -/

section

variable {load : BitVec 32 → Except PrintStop (BitVec 8)} {f : FmtFlags} {ap : List (BitVec 32)}

theorem NumberText.of_printnum {base : ℕ} {padc : Char} {width : BitVec 32} (hbase : 2 ≤ base)
    {n : ℕ} (hn : n < 2 ^ 64) : NumberText base n padc width (printnum base padc 64 n width) :=
  printnum_text hbase 63 n width hn

/-- **`%u`, `%o` and `%x`** print the number that is taken from the arguments. -/
theorem fmtConversion_unsigned {c : Char} {base : ℕ}
    (hc : (c, base) ∈ [('u', 10), ('o', 8), ('x', 16)]) :
    ∃ out, fmtConversion load f ap c = some (.ok (out, (getuint f.lflag ap).2)) ∧
      NumberText base (getuint f.lflag ap).1.toNat f.padc f.width out := by
  have hprints : ∀ base, 2 ≤ base → NumberText base (getuint f.lflag ap).1.toNat f.padc f.width
      (printnum base f.padc 64 (getuint f.lflag ap).1.toNat f.width) :=
    fun base hbase => NumberText.of_printnum hbase (getuint f.lflag ap).1.isLt
  simp only [List.mem_cons, Prod.mk.injEq, List.not_mem_nil, or_false] at hc
  obtain ⟨rfl, rfl⟩ | ⟨rfl, rfl⟩ | ⟨rfl, rfl⟩ := hc
  · exact ⟨_, rfl, hprints 10 (by decide)⟩
  · exact ⟨_, rfl, hprints 8 (by decide)⟩
  · exact ⟨_, rfl, hprints 16 (by decide)⟩

/-- The number without its sign; the one without an opposite is its own. -/
theorem toNat_of_toInt (num : BitVec 64) :
    (if num.toInt < 0 then -num else num).toNat = num.toInt.natAbs := by
  have hcond := num.toInt_eq_toNat_cond
  have hlt := num.isLt
  by_cases hneg : num.toInt < 0
  · have hlarge := BitVec.toInt_neg_iff.1 hneg
    rw [if_neg (Nat.not_lt.2 hlarge)] at hcond
    rw [if_pos hneg, BitVec.toNat_neg, Nat.mod_eq_of_lt (by omega)]
    omega
  · have hsmall := mt BitVec.toInt_neg_iff.2 hneg
    rw [if_pos (Nat.not_le.1 hsmall)] at hcond
    rw [if_neg hneg, hcond, Int.natAbs_natCast]

/-- **`%d`** prints a sign, and the number without it. -/
theorem fmtConversion_signed :
    ∃ out, fmtConversion load f ap 'd' = some (.ok ((if (getint f.lflag ap).1.toInt < 0 then chr
      '-' :: out else out),
        (getint f.lflag ap).2)) ∧
      NumberText 10 (getint f.lflag ap).1.toInt.natAbs f.padc f.width out := by
  obtain ⟨num, hnum⟩ : ∃ num, (getint f.lflag ap).1 = num := ⟨_, rfl⟩
  have hneg : num.slt 0 = true ↔ num.toInt < 0 := by
    rw [BitVec.slt_eq_decide, decide_eq_true_eq]
    rfl
  have habs := toNat_of_toInt num
  have hconv : fmtConversion load f ap 'd' = some (.ok (if (getint f.lflag ap).1.slt 0 then
        chr '-' :: printnum 10 f.padc 64 (-(getint f.lflag ap).1).toNat f.width
      else printnum 10 f.padc 64 (getint f.lflag ap).1.toNat f.width, (getint f.lflag ap).2)) := rfl
  rw [hconv, hnum]
  by_cases hlt : num.toInt < 0
  · refine ⟨_, by rw [if_pos (hneg.2 hlt), if_pos hlt], ?_⟩
    rw [if_pos hlt] at habs
    rw [← habs]
    exact NumberText.of_printnum (by decide) (-num).isLt
  · refine ⟨_, by rw [if_neg fun hc => hlt (hneg.1 hc), if_neg hlt], ?_⟩
    rw [if_neg hlt] at habs
    rw [← habs]
    exact NumberText.of_printnum (by decide) num.isLt

/-- **`%p`** prints the address behind `0x`. -/
theorem fmtConversion_pointer :
    ∃ out, fmtConversion load f ap 'p' = some (.ok (chr '0' :: chr 'x' :: out, ap.tail)) ∧
      NumberText 16 (ap.headD 0).toNat f.padc f.width out := by
  have hlt := (ap.headD 0).isLt
  exact ⟨_, rfl, NumberText.of_printnum (by decide) (by omega)⟩

end

end Jos
