/-
**Printing a user's string.**

`sys_cputs` of `kern/syscall.c` checks the range of the string and prints it with
`cprintf("%.*s", len, s)`. The loop for `%s` in `lib/printfmt.c` reads a byte before it looks at the
precision, so a string without a zero byte makes it read the byte behind the range. That byte is on
another page when the range ends at the end of a page.

Main definitions:

* `Jos.vprintfmt` — the interpreter of formats;
* `Jos.sysCputs` — the system call;
* `Jos.PrintsWhatItChecked` — what is printed depends on the range alone, and nothing faults;
* `Jos.bufferVm` — an address space with given bytes, mapped up to some page.

Main results:

* `Jos.putStr_eq` — the loop for `%s` with a precision;
* `Jos.sysCputs_prints_checked_iff` — **exactly the strings with a zero byte, and those that do not
  end at the end of a page, are printed from the range alone**.
-/

import JosKernel.Fault
import JosKernel.UserMem

set_option relaxedAutoImplicit false
set_option autoImplicit false

namespace Jos

/-! ### Formats -/

/-- How `vprintfmt` stops before the end of the format. -/
inductive PrintStop
  /-- The access to the address faults. -/
  | fault (va : BitVec 32)
  /-- The string has no end. -/
  | endless
  deriving DecidableEq, Repr

/-- The variables of `vprintfmt` that a `%`-escape sets. -/
structure FmtFlags where
  padc : Char
  width : BitVec 32
  precision : BitVec 32
  lflag : ℕ
  altflag : Bool
  deriving DecidableEq, Repr

/-- Their values at the beginning of a `%`-escape. -/
def FmtFlags.start : FmtFlags := ⟨' ', -1, -1, 0, false⟩

/-- `process_precision`, after `precision = n`. -/
def FmtFlags.processPrecision (f : FmtFlags) (n : BitVec 32) : FmtFlags :=
  if f.width.slt 0 then { f with width := n, precision := -1 } else { f with precision := n }

/-- The value of a character as an `int`. -/
def chr (c : Char) : BitVec 32 := BitVec.ofNat 32 c.toNat

/-- The digits of a number in the format. -/
def fmtNumber (n : BitVec 32) : List Char → BitVec 32 × List Char
  | [] => (n, [])
  | c :: fmt => if c.isDigit then fmtNumber (n * 10 + chr c - chr '0') fmt else (n, c :: fmt)

/-- The switch over the characters after `%`, up to the one that says what is printed. The end of
the format is one of those that are not recognized. -/
def fmtSwitch : ℕ → FmtFlags → List (BitVec 32) → List Char →
    FmtFlags × List (BitVec 32) × Option Char × List Char
  | 0, f, ap, fmt => (f, ap, none, fmt)
  | _ + 1, f, ap, [] => (f, ap, none, [])
  | n + 1, f, ap, c :: fmt =>
      if c = '-' then fmtSwitch n { f with padc := '-' } ap fmt
      else if c = '0' then fmtSwitch n { f with padc := '0' } ap fmt
      else if c.isDigit then
        let (p, fmt) := fmtNumber (chr c - chr '0') fmt
        fmtSwitch n (f.processPrecision p) ap fmt
      else if c = '*' then fmtSwitch n (f.processPrecision (ap.headD 0)) ap.tail fmt
      else if c = '.' then fmtSwitch n (if f.width.slt 0 then { f with width := 0 } else f) ap fmt
      else if c = '#' then fmtSwitch n { f with altflag := true } ap fmt
      else if c = 'l' then fmtSwitch n { f with lflag := f.lflag + 1 } ap fmt
      else (f, ap, some c, fmt)

/-! ### Numbers -/

/-- `for (; n > 0; n--) putch(c)`. -/
def putPad (n : BitVec 32) (c : Char) : List (BitVec 32) :=
  if (0#32).slt n then List.replicate n.toNat (chr c) else []

/-- `printnum(putch, putdat, num, base, width, padc)`; a number of 64 bits has at most 64 digits. -/
def printnum (base : ℕ) (padc : Char) : ℕ → ℕ → BitVec 32 → List (BitVec 32)
  | 0, _, _ => []
  | digits + 1, num, width =>
      (if base ≤ num then printnum base padc digits (num / base) (width - 1)
        else putPad (width - 1) padc) ++
        [chr ("0123456789abcdef".toList.getD (num % base) '0')]

/-- `getuint(&ap, lflag)`: one word, or two with the lower one first. -/
def getuint (lflag : ℕ) (ap : List (BitVec 32)) : BitVec 64 × List (BitVec 32) :=
  if 2 ≤ lflag then ((ap.tail.headD 0 ++ ap.headD 0 : BitVec 64), ap.tail.tail)
  else ((ap.headD 0).setWidth 64, ap.tail)

/-- `getint(&ap, lflag)`. -/
def getint (lflag : ℕ) (ap : List (BitVec 32)) : BitVec 64 × List (BitVec 32) :=
  if 2 ≤ lflag then ((ap.tail.headD 0 ++ ap.headD 0 : BitVec 64), ap.tail.tail)
  else ((ap.headD 0).signExtend 64, ap.tail)

/-- `error_string`. -/
def errorString : ℕ → Option String
  | 1 => some "unspecified error"
  | 2 => some "bad environment"
  | 3 => some "invalid parameter"
  | 4 => some "out of memory"
  | 5 => some "out of environments"
  | 6 => some "segmentation fault"
  | 8 => some "env is not recving"
  | 9 => some "unexpected end of file"
  | _ => none

/-- The text for `%e`: `MAXERROR` is 10. The number without an opposite stays negative, and what is
read for it is the entry 0, since the offset in bytes wraps. -/
def putError (err : BitVec 32) : List (BitVec 32) :=
  let err := if err.slt 0 then -err else err
  match if (10#32).sle err then none else errorString ((err * 4).toNat / 4) with
  | none =>
      let num := err.signExtend 64
      "error ".toList.map chr ++
        (if num.slt 0 then chr '-' :: printnum 10 ' ' 64 (-num).toNat (-1)
          else printnum 10 ' ' 64 num.toNat (-1))
  | some p => p.toList.map chr

/-! ### Strings -/

/-- `strnlen(p, size)`, for the bytes from `k` on. -/
def strnlen (read : ℕ → Except PrintStop (BitVec 8)) : ℕ → ℕ → Except PrintStop ℕ
  | 0, _ => pure 0
  | size + 1, k => do
      let c ← read k
      if c = 0 then pure 0
      else do
        let n ← strnlen read size (k + 1)
        pure (n + 1)

/-- What is printed for a byte of a string. -/
def putByte (altflag : Bool) (c : BitVec 8) : BitVec 32 :=
  let ch := c.signExtend 32
  if altflag ∧ (ch.slt (chr ' ') ∨ (chr '~').slt ch) then chr '?' else ch

/-- **The loop for `%s`**, from the byte `k` on, with the width that is left: a byte is read before
`precision` is looked at. -/
def putStr (read : ℕ → Except PrintStop (BitVec 8)) (altflag : Bool) :
    ℕ → ℕ → BitVec 32 → BitVec 32 → Except PrintStop (List (BitVec 32) × BitVec 32)
  | 0, _, _, _ => throw .endless
  | fuel + 1, k, precision, width => do
      let ch ← read k
      if ch = 0 then pure ([], width)
      else if precision.slt 0 then do
        let (out, width) ← putStr read altflag fuel (k + 1) precision (width - 1)
        pure (putByte altflag ch :: out, width)
      else if (precision - 1).slt 0 then pure ([], width)
      else do
        let (out, width) ← putStr read altflag fuel (k + 1) (precision - 1) (width - 1)
        pure (putByte altflag ch :: out, width)

/-- The bytes of a string of the kernel. -/
def litBytes (p : String) (k : ℕ) : Except PrintStop (BitVec 8) :=
  pure ((chr (p.toList.getD k '\x00')).setWidth 8)

/-- `case 's'`.  A loop that has read as many bytes as there are addresses goes on for ever. -/
def putString (read : ℕ → Except PrintStop (BitVec 8)) (f : FmtFlags) :
    Except PrintStop (List (BitVec 32)) := do
  let (pre, width) ←
    if (0#32).slt f.width ∧ f.padc ≠ '-' then do
      let n ← strnlen read f.precision.toNat 0
      let width := f.width - BitVec.ofNat 32 n
      pure (putPad width f.padc, if (0#32).slt width then 0 else width)
    else pure ([], f.width)
  let (out, width) ← putStr read f.altflag (2 ^ 32) 0 f.precision width
  pure (pre ++ out ++ putPad width ' ')

/-! ### The interpreter -/

/-- What a conversion prints, and the arguments that are left; `none` for one that is not
recognized. -/
def fmtConversion (load : BitVec 32 → Except PrintStop (BitVec 8)) (f : FmtFlags)
    (ap : List (BitVec 32)) :
    Char → Option (Except PrintStop (List (BitVec 32) × List (BitVec 32)))
  | 'c' => some (pure ([ap.headD 0], ap.tail))
  | 'e' => some (pure (putError (ap.headD 0), ap.tail))
  | 's' => some do
      let p := ap.headD 0
      let out ← putString (if p = 0 then litBytes "(null)"
          else fun k => load (p + BitVec.ofNat 32 k)) f
      pure (out, ap.tail)
  | 'd' =>
      let (num, ap) := getint f.lflag ap
      some (pure (if num.slt 0 then chr '-' :: printnum 10 f.padc 64 (-num).toNat f.width
        else printnum 10 f.padc 64 num.toNat f.width, ap))
  | 'u' =>
      let (num, ap) := getuint f.lflag ap
      some (pure (printnum 10 f.padc 64 num.toNat f.width, ap))
  | 'o' =>
      let (num, ap) := getuint f.lflag ap
      some (pure (printnum 8 f.padc 64 num.toNat f.width, ap))
  | 'p' =>
      some (pure (chr '0' :: chr 'x' :: printnum 16 f.padc 64 (ap.headD 0).toNat f.width, ap.tail))
  | 'x' =>
      let (num, ap) := getuint f.lflag ap
      some (pure (printnum 16 f.padc 64 num.toNat f.width, ap))
  | '%' => some (pure ([chr '%'], ap))
  | _ => none

/-- The rounds of `vprintfmt`. After an escape that is not recognized the characters behind its `%`
are printed. -/
def vprintfmtFrom (load : BitVec 32 → Except PrintStop (BitVec 8)) :
    ℕ → List Char → List (BitVec 32) → Except PrintStop (List (BitVec 32))
  | 0, _, _ => pure []
  | _ + 1, [], _ => pure []
  | n + 1, c :: fmt, ap =>
      if c ≠ '%' then do
        let out ← vprintfmtFrom load n fmt ap
        pure (chr c :: out)
      else
        let (f, ap, conv, rest) := fmtSwitch (fmt.length + 1) .start ap fmt
        match conv.bind (fmtConversion load f ap) with
        | some x => do
            let (out, ap) ← x
            let out' ← vprintfmtFrom load n rest ap
            pure (out ++ out')
        | none => do
            let out ← vprintfmtFrom load n fmt ap
            pure (chr '%' :: out)

/-- **`vprintfmt(putch, putdat, fmt, ap)`**: the characters given to `putch`. -/
def vprintfmt (load : BitVec 32 → Except PrintStop (BitVec 8)) (fmt : String)
    (ap : List (BitVec 32)) :
    Except PrintStop (List (BitVec 32)) :=
  vprintfmtFrom load (fmt.toList.length + 1) fmt.toList ap

/-! ### The system call -/

/-- The kernel reads a byte at an address of the environment. -/
def kernelLoad (s : Vm) (e : ℕ) (va : BitVec 32) : Except PrintStop (BitVec 8) :=
  match mmu s e va false false with
  | .frame f => pure (s.byte f (pgoff va))
  | _ => throw (.fault va)

/-- How `sys_cputs` ends. -/
inductive CputsEnd
  | printed (out : List (BitVec 32))
  /-- `user_mem_assert` has destroyed the environment, because of the address. -/
  | destroyed (a : BitVec 32)
  | stopped (why : PrintStop)
  deriving DecidableEq, Repr

/-- `cprintf(fmt, ...)`. -/
def cprintf (s : Vm) (e : ℕ) (fmt : String) (ap : List (BitVec 32)) : CputsEnd :=
  match vprintfmt (kernelLoad s e) fmt ap with
  | .ok out => .printed out
  | .error why => .stopped why

/-- **`sys_cputs(s, len)`**, with `user_mem_assert(curenv, s, len, PTE_U)`. -/
def sysCputs (s : Vm) (e : ℕ) (str len : BitVec 32) : Except Crash CputsEnd := do
  match ← userMemCheck s e str len (pteU ||| pteU) with
  | some a => pure (.destroyed a)
  | none => pure (cprintf s e "%.*s" [len, str])

/-! ### The loop for `%s` -/

/-- The bytes of a string, up to a zero byte and at most `n`. -/
def strBytes (c : ℕ → BitVec 8) : ℕ → ℕ → List (BitVec 8)
  | 0, _ => []
  | n + 1, k => if c k = 0 then [] else c k :: strBytes c n (k + 1)

theorem strBytes_length_le (c : ℕ → BitVec 8) : ∀ n k : ℕ, (strBytes c n k).length ≤ n := by
  intro n
  induction n with
  | zero => exact fun _ => Nat.le_refl 0
  | succ n ih =>
      intro k
      rw [strBytes]
      split
      · exact Nat.zero_le _
      · exact Nat.succ_le_succ (ih (k + 1))

theorem slt_zero_ofNat {n : ℕ} (h : n < 2 ^ 31) : (BitVec.ofNat 32 n).slt 0 = false := by
  change (BitVec.ofNat 32 n).slt 0#32 = false
  rw [BitVec.slt_zero_eq_msb, BitVec.msb_eq_false_iff_two_mul_lt, BitVec.toNat_ofNat]
  omega

theorem ofNat_succ_sub_one (n : ℕ) : BitVec.ofNat 32 (n + 1) - 1 = BitVec.ofNat 32 n := by
  rw [BitVec.ofNat_add]
  exact BitVec.add_sub_cancel ..

theorem width_step (width : BitVec 32) (n : ℕ) :
    width - 1 - BitVec.ofNat 32 n = width - BitVec.ofNat 32 (n + 1) := by
  rw [BitVec.ofNat_add]
  bv_omega

/-- **The loop for `%s` with a precision `n`**, for bytes that can be read up to there: it ends at a
zero byte, or it reads one byte more. -/
theorem putStr_eq {read : ℕ → Except PrintStop (BitVec 8)} {altflag : Bool} {c : ℕ → BitVec 8} :
    ∀ (n k fuel : ℕ) (width : BitVec 32), n < 2 ^ 31 → n < fuel →
      (∀ i < n, read (k + i) = .ok (c (k + i))) →
      putStr read altflag fuel k (BitVec.ofNat 32 n) width =
        (if ∃ i < n, c (k + i) = 0 then pure 0 else read (k + n)) >>= fun _ =>
          pure ((strBytes c n k).map (putByte altflag),
            width - BitVec.ofNat 32 (strBytes c n k).length) := by
  intro n
  induction n with
  | zero =>
      intro k fuel width _ hfuel _
      obtain ⟨fuel, rfl⟩ : ∃ m, fuel = m + 1 := ⟨fuel - 1, by omega⟩
      have hnone : ¬ ∃ i < 0, c (k + i) = 0 := fun ⟨i, hi, _⟩ => absurd hi (Nat.not_lt_zero i)
      rw [if_neg hnone, putStr, Nat.add_zero]
      cases hread : read k with
      | error why => rfl
      | ok ch =>
          change (if ch = 0 then pure ([], width) else _) = pure ([], width - 0)
          have hw : width - 0 = width := BitVec.sub_zero ..
          have hneg : (BitVec.ofNat 32 0 - 1).slt 0 = true := by decide
          rw [hw, if_neg (by decide : ¬ (BitVec.ofNat 32 0).slt 0 = true), if_pos hneg, ite_self]
  | succ n ih =>
      intro k fuel width hn hfuel hread
      obtain ⟨fuel, rfl⟩ : ∃ m, fuel = m + 1 := ⟨fuel - 1, by omega⟩
      have hk : read k = .ok (c k) := hread 0 (Nat.succ_pos n)
      rw [putStr, hk]
      change (if c k = 0 then pure ([], width) else _) = _
      by_cases hz : c k = 0
      · have hex : ∃ i < n + 1, c (k + i) = 0 := ⟨0, Nat.succ_pos n, hz⟩
        rw [if_pos hz, if_pos hex, strBytes, if_pos hz]
        change _ = pure ([], width - 0)
        have hw : width - 0 = width := BitVec.sub_zero ..
        rw [hw]
      · have hneg : ¬ (BitVec.ofNat 32 (n + 1)).slt 0 = true := by
          rw [slt_zero_ofNat hn]
          exact Bool.false_ne_true
        have hneg' : ¬ (BitVec.ofNat 32 n).slt 0 = true := by
          rw [slt_zero_ofNat (by omega)]
          exact Bool.false_ne_true
        have hshift : (∃ i < n + 1, c (k + i) = 0) ↔ ∃ i < n, c (k + 1 + i) = 0 := by
          constructor
          · rintro ⟨i, hi, hc⟩
            cases i with
            | zero => exact absurd hc hz
            | succ i => exact ⟨i, by omega, by rw [Nat.add_right_comm]; exact hc⟩
          · rintro ⟨i, hi, hc⟩
            exact ⟨i + 1, by omega, by rw [← hc, Nat.add_right_comm]; rfl⟩
        rw [if_neg hz, if_neg hneg, ofNat_succ_sub_one, if_neg hneg']
        rw [ih (k + 1) fuel (width - 1) (by omega) (by omega) fun i hi => ?_]
        · rw [strBytes, if_neg hz, List.length_cons, List.map_cons, ← width_step,
            Nat.add_right_comm k 1 n]
          simp only [hshift]
          cases (if ∃ i < n, c (k + 1 + i) = 0 then pure 0 else read (k + n + 1)) with
          | error why => rfl
          | ok b => rfl
        · rw [Nat.add_right_comm]
          exact hread (i + 1) (by omega)

/-! ### The format of `sys_cputs` -/

theorem putPad_neg {n : ℕ} (h : n < 2 ^ 31) (c : Char) : putPad (0 - BitVec.ofNat 32 n) c = [] := by
  have hnot : (0#32).slt (0 - BitVec.ofNat 32 n) = false := by
    rw [BitVec.slt_eq_decide, decide_eq_false_iff_not, BitVec.toInt_zero, Int.not_lt]
    have hint : (0 - BitVec.ofNat 32 n).toInt = -(n : ℤ) := by
      rw [BitVec.toInt_sub, BitVec.toInt_ofNat', BitVec.ofNat_eq_ofNat, BitVec.toInt_zero]
      simp only [Int.bmod_def]
      omega
    omega
  rw [putPad, hnot]
  rfl

/-- `%.*s` is the loop for `%s`, with the argument as its precision. -/
theorem vprintfmt_putStr (load : BitVec 32 → Except PrintStop (BitVec 8)) (str len : BitVec 32) :
    vprintfmt load "%.*s" [len, str] =
      (putStr (if str = 0 then litBytes "(null)" else fun k => load (str + BitVec.ofNat 32 k)) false
          (2 ^ 32) 0 len 0 >>= fun r => pure ([] ++ r.1 ++ putPad r.2 ' ' ++ [])) := by
  obtain ⟨read, hdef⟩ : ∃ read,
      (if str = 0 then litBytes "(null)" else fun k => load (str + BitVec.ofNat 32 k)) = read :=
        ⟨_, rfl⟩
  have hfmt : "%.*s".toList = ['%', '.', '*', 's'] := by decide
  have hflags : fmtSwitch 4 .start [len, str] ['.', '*', 's'] =
      (⟨' ', 0, len, 0, false⟩, [str], some 's', []) :=
    rfl
  have hwidth : ¬ ((0#32).slt (0 : BitVec 32) = true ∧ ' ' ≠ '-') := by decide
  rw [vprintfmt, hfmt]
  change vprintfmtFrom load 5 ['%', '.', '*', 's'] [len, str] = _
  rw [vprintfmtFrom, if_neg (by decide)]
  change (match fmtSwitch 4 .start [len, str] ['.', '*', 's'] with | (f, ap, conv, rest) => _) = _
  rw [hflags]
  change (putString (if str = 0 then litBytes "(null)" else fun k => load (str + BitVec.ofNat 32 k))
    ⟨' ', 0, len, 0, false⟩ >>= fun out => pure (out, [])) >>= (fun r => pure (r.1 ++ [])) = _
  rw [hdef, putString, if_neg hwidth]
  simp only [pure_bind, bind_assoc]

/-- `%.*s` prints the bytes up to a zero byte or the precision, once the one behind them could be
read. -/
theorem vprintfmt_prec {load : BitVec 32 → Except PrintStop (BitVec 8)} {str len : BitVec 32}
    {c : ℕ → BitVec 8}
    (hlen : len.toNat < 2 ^ 31)
    (hread : ∀ i < len.toNat, (if str = 0 then litBytes "(null)"
      else fun k => load (str + BitVec.ofNat 32 k)) i = .ok (c i)) :
    vprintfmt load "%.*s" [len, str] =
      (if ∃ i < len.toNat, c i = 0 then pure 0
        else (if str = 0 then litBytes "(null)" else fun k => load (str + BitVec.ofNat 32 k))
          len.toNat) >>= fun _ =>
        pure ((strBytes c len.toNat 0).map (putByte false)) := by
  have hstr := vprintfmt_putStr load str len
  obtain ⟨read, hdef⟩ : ∃ read, (if str = 0 then litBytes "(null)"
      else fun k => load (str + BitVec.ofNat 32 k)) = read :=
    ⟨_, rfl⟩
  rw [hdef] at hread hstr ⊢
  have hloop := @putStr_eq read false c len.toNat 0 (2 ^ 32) 0 hlen (by omega) (by
    intro i hi
    rw [Nat.zero_add]
    exact hread i hi)
  rw [BitVec.ofNat_toNat, BitVec.setWidth_eq] at hloop
  have hle := strBytes_length_le c len.toNat 0
  rw [hstr, hloop, Nat.zero_add]
  simp only [Nat.zero_add, bind_assoc, pure_bind, putPad_neg
    (show (strBytes c len.toNat 0).length < 2 ^ 31 by omega),
    List.nil_append, List.append_nil]

/-! ### A string that is not mapped -/

/-- **The string faults** behind the byte `k`: a byte cannot be read, there is no zero byte before
it, and the precision does not end the loop. -/
def FaultsFrom (read : ℕ → Except PrintStop (BitVec 8)) (va : BitVec 32) (fuel k : ℕ)
    (precision : BitVec 32) :
    Prop :=
  ∃ i < fuel, (∀ j < i, ∃ b, read (k + j) = .ok b ∧ b ≠ 0) ∧ read (k + i) = .error (.fault va) ∧
    (precision.slt 0 = true ∨ i ≤ precision.toNat)

section Faults

variable {read : ℕ → Except PrintStop (BitVec 8)} {va : BitVec 32} {fuel k : ℕ}
    {precision : BitVec 32}

theorem faultsFrom_of_error {why : PrintStop} (hread : read k = .error why) :
    FaultsFrom read va (fuel + 1) k precision ↔ why = .fault va := by
  constructor
  · rintro ⟨i, -, hbefore, hi, -⟩
    cases i with
    | zero => exact Except.error.inj (hread.symm.trans hi)
    | succ i =>
        obtain ⟨b, hb, -⟩ := hbefore 0 (Nat.succ_pos i)
        exact absurd (hread.symm.trans hb) (by simp)
  · rintro rfl
    exact ⟨0, Nat.succ_pos fuel, fun j hj => absurd hj (Nat.not_lt_zero j), hread,
      Or.inr (Nat.zero_le _)⟩

/-- A byte that is read, and is zero or the last one that the precision allows. -/
theorem not_faultsFrom {ch : BitVec 8} (hread : read k = .ok ch)
    (hend : ch = 0 ∨ precision.slt 0 = false ∧ precision.toNat = 0) :
    ¬ FaultsFrom read va fuel k precision := by
  rintro ⟨i, -, hbefore, hi, hprec⟩
  cases i with
  | zero => exact absurd (hread.symm.trans hi) (by simp)
  | succ i =>
      rcases hend with hz | ⟨hneg, hzero⟩
      · obtain ⟨b, hb, hne⟩ := hbefore 0 (Nat.succ_pos i)
        exact hne ((Except.ok.inj (hb.symm.trans hread)).trans hz)
      · have hle := hprec.resolve_left (by rw [hneg]; exact Bool.false_ne_true)
        omega

/-- The loop goes on behind a byte. -/
theorem faultsFrom_succ {ch : BitVec 8} {next : BitVec 32} (hread : read k = .ok ch) (hz : ch ≠ 0)
    (hnext : precision.slt 0 = true ∧ next.slt 0 = true ∨
      precision.slt 0 = false ∧ next.slt 0 = false ∧ next.toNat + 1 = precision.toNat) :
    FaultsFrom read va (fuel + 1) k precision ↔ FaultsFrom read va fuel (k + 1) next := by
  have hshift : ∀ i, k + 1 + i = k + (i + 1) := fun i => Nat.add_right_comm k 1 i
  constructor
  · rintro ⟨i, hi, hbefore, hfault, hprec⟩
    cases i with
    | zero => exact absurd (hread.symm.trans hfault) (by simp)
    | succ i =>
        refine ⟨i, by omega, fun j hj => ?_, by rw [hshift]; exact hfault, ?_⟩
        · rw [hshift]
          exact hbefore (j + 1) (by omega)
        · rcases hnext with ⟨-, hneg⟩ | ⟨hpos, -, hnat⟩
          · exact Or.inl hneg
          · have hle := hprec.resolve_left (by rw [hpos]; exact Bool.false_ne_true)
            exact Or.inr (by omega)
  · rintro ⟨i, hi, hbefore, hfault, hprec⟩
    refine ⟨i + 1, by omega, fun j hj => ?_, by rw [← hshift]; exact hfault, ?_⟩
    · cases j with
      | zero => exact ⟨ch, hread, hz⟩
      | succ j =>
          rw [← hshift]
          exact hbefore j (by omega)
    · rcases hnext with ⟨hneg, -⟩ | ⟨-, hpos, hnat⟩
      · exact Or.inl hneg
      · have hle := hprec.resolve_left (by rw [hpos]; exact Bool.false_ne_true)
        exact Or.inr (by omega)

end Faults

/-- **When the loop for `%s` faults.** -/
theorem putStr_fault_iff {read : ℕ → Except PrintStop (BitVec 8)} {altflag : Bool}
    {va : BitVec 32} :
    ∀ (fuel k : ℕ) (precision width : BitVec 32),
      putStr read altflag fuel k precision width = .error (.fault va) ↔
        FaultsFrom read va fuel k precision := by
  intro fuel
  induction fuel with
  | zero =>
      intro k precision width
      refine iff_of_false (fun h => ?_) ?_
      · exact absurd (Except.error.inj h) (by simp)
      · rintro ⟨i, hi, -⟩
        exact absurd hi (Nat.not_lt_zero i)
  | succ fuel ih =>
      intro k precision width
      -- what is printed for a byte comes before the rest
      have hrest : ∀ (next w : BitVec 32) (ch : BitVec 8),
          (putStr read altflag fuel (k + 1) next w >>= fun r =>
            pure (putByte altflag ch :: r.1, r.2)) =
              .error (.fault va) ↔ FaultsFrom read va fuel (k + 1) next := by
        intro next w ch
        rw [← ih (k + 1) next w]
        cases putStr read altflag fuel (k + 1) next w with
        | error why => exact Iff.rfl
        | ok r => exact iff_of_false (by simp [bind, Except.bind, pure, Except.pure]) (by simp)
      rw [putStr]
      cases hread : read k with
      | error why =>
          rw [faultsFrom_of_error hread]
          exact ⟨fun h => Except.error.inj h, fun h => congrArg Except.error h⟩
      | ok ch =>
          change (if ch = 0 then pure ([], width) else _) = _ ↔ _
          by_cases hz : ch = 0
          · rw [if_pos hz]
            exact iff_of_false (by simp [pure, Except.pure]) (not_faultsFrom hread (Or.inl hz))
          rw [if_neg hz]
          by_cases hneg : precision.slt 0 = true
          · rw [if_pos hneg, faultsFrom_succ hread hz (Or.inl ⟨hneg, hneg⟩)]
            exact hrest precision _ ch
          rw [if_neg hneg]
          rw [Bool.not_eq_true] at hneg
          have hsmall : 2 * precision.toNat < 2 ^ 32 := by
            rw [← BitVec.msb_eq_false_iff_two_mul_lt, ← BitVec.slt_zero_eq_msb]
            exact hneg
          by_cases hlast : (precision - 1).slt 0 = true
          · have hzero : precision.toNat = 0 := by
              change (precision - 1).slt 0#32 = true at hlast
              rw [BitVec.slt_zero_eq_msb, BitVec.msb_eq_true_iff_two_mul_ge] at hlast
              bv_omega
            rw [if_pos hlast]
            exact iff_of_false (by simp [pure, Except.pure])
              (not_faultsFrom hread (Or.inr ⟨hneg, hzero⟩))
          · rw [if_neg hlast]
            rw [Bool.not_eq_true] at hlast
            have hnat : (precision - 1).toNat + 1 = precision.toNat := by
              change (precision - 1).slt 0#32 = false at hlast
              rw [BitVec.slt_zero_eq_msb, BitVec.msb_eq_false_iff_two_mul_lt] at hlast
              bv_omega
            rw [faultsFrom_succ hread hz (Or.inr ⟨hneg, hlast, hnat⟩)]
            exact hrest (precision - 1) _ ch

/-- **The string at `str` is not mapped** where `%.*s` reads it first: up to a zero byte, or up to
the byte behind its length. -/
structure StringFaults (s : Vm) (e : ℕ) (str len : BitVec 32) (k : ℕ) : Prop where
  null : str ≠ 0
  before : ∀ j < k, ∃ b, kernelLoad s e (str + BitVec.ofNat 32 j) = .ok b ∧ b ≠ 0
  fault : kernelLoad s e (str + BitVec.ofNat 32 k) = .error (.fault (str + BitVec.ofNat 32 k))
  within : len.slt 0 = true ∨ k ≤ len.toNat

/-- **When `%.*s` faults.** -/
theorem vprintfmt_fault_iff (s : Vm) (e : ℕ) (str len va : BitVec 32) :
    vprintfmt (kernelLoad s e) "%.*s" [len, str] = .error (.fault va) ↔
      ∃ k, StringFaults s e str len k ∧ va = str + BitVec.ofNat 32 k := by
  rw [vprintfmt_putStr]
  have hbind : ∀ x : Except PrintStop (List (BitVec 32) × BitVec 32),
      (x >>= fun r => pure ([] ++ r.1 ++ putPad r.2 ' ' ++ [])) = .error (.fault va) ↔
        x = .error (.fault va) := by
    intro x
    cases x with
    | error why =>
        exact ⟨fun h => congrArg _ (Except.error.inj h), fun h => congrArg _ (Except.error.inj h)⟩
    | ok r => exact iff_of_false (by simp [bind, Except.bind, pure, Except.pure]) (by simp)
  rw [hbind, putStr_fault_iff]
  by_cases hstr : str = 0
  · refine iff_of_false ?_ fun ⟨k, h, _⟩ => h.null hstr
    rintro ⟨i, -, -, hi, -⟩
    rw [if_pos hstr] at hi
    exact absurd hi (by simp [litBytes, pure, Except.pure])
  rw [if_neg hstr]
  constructor
  · rintro ⟨i, -, hbefore, hi, hprec⟩
    simp only [Nat.zero_add] at hbefore hi
    have hva : va = str + BitVec.ofNat 32 i := by
      unfold kernelLoad at hi
      split at hi
      · exact absurd hi (by simp [pure, Except.pure])
      · exact (PrintStop.fault.inj (Except.error.inj hi)).symm
    exact ⟨i, ⟨hstr, hbefore, by rw [hi, hva], hprec⟩, hva⟩
  · rintro ⟨k, h, rfl⟩
    -- the addresses repeat after `2 ^ 32` bytes
    have hk : k < 2 ^ 32 := by
      by_contra hge
      obtain ⟨b, hb, -⟩ := h.before (k - 2 ^ 32) (by omega)
      have hsame : BitVec.ofNat 32 (k - 2 ^ 32) = BitVec.ofNat 32 k := by
        apply BitVec.eq_of_toNat_eq
        rw [BitVec.toNat_ofNat, BitVec.toNat_ofNat]
        omega
      rw [hsame, h.fault] at hb
      exact absurd hb (by simp)
    refine ⟨k, hk, fun j hj => ?_, ?_, h.within⟩
    · rw [Nat.zero_add]
      exact h.before j hj
    · rw [Nat.zero_add]
      exact h.fault

/-! ### What the check has seen -/

section Checked

variable {s : Vm} {e : ℕ} {va str len perm : BitVec 32}

/-- The translation of an address depends on its page only. -/
theorem mmu_page {va' : BitVec 32} (h : vpn va = vpn va') (user write : Bool) :
    mmu s e va user write = mmu s e va' user write := by
  rw [mmu, mmu, pdx_eq, pdx_eq, ptx_eq, ptx_eq, h]

/-- The kernel may read where `pgdir_walk` finds an entry that is present. -/
theorem mmu_of_found {p : PtePtr} (h : pgdirFind s (s.pgdir e) va = .ok (some p))
    (hP : isPresent (s.pte p) = true) :
    ∃ f, mmu s e va false false = .frame f := by
  have hall : ∀ w, allows w false false = true := fun _ => rfl
  cases hdir : s.pgdir e with
  | none =>
      rw [hdir] at h
      cases h
  | some d =>
      rw [hdir, pgdirFind] at h
      by_cases hpde : isPresent (s.pte ⟨d, pdx va⟩) = true
      · rw [if_pos hpde, walkEnd] at h
        rw [mmu, hdir]
        dsimp only
        rw [if_neg (not_not_intro hpde)]
        by_cases hhuge : isHuge (s.pte ⟨d, pdx va⟩) = true
        · rw [if_pos hhuge, if_pos (hall _)]
          exact ⟨_, rfl⟩
        · rw [if_neg (by simpa using hhuge), bind_eq_ok] at h
          obtain ⟨a, ha, hsome⟩ := h
          rw [bind_eq_ok] at ha
          obtain ⟨_, -, hb⟩ := ha
          have hp : (⟨pgnum (pteAddr (s.pte ⟨d, pdx va⟩)), ptx va⟩ : PtePtr) = p :=
            (Except.ok.inj hb).trans (Option.some.inj (Except.ok.inj hsome))
          rw [← hp, pgnum_pteAddr] at hP
          rw [if_neg hhuge, if_neg (not_not_intro hP), hall, hall]
          exact ⟨_, rfl⟩
      · rw [if_neg hpde] at h
        cases h

/-- A loop that refuses no page has looked at all of them. -/
theorem userMemFrom_none {pgdir : Option ℕ} {low : BitVec 32} : ∀ n i : ℕ,
    userMemFrom s pgdir low perm n i = .ok none → ∀ j, i ≤ j → j < i + n →
      userMemPage s pgdir low perm j = .ok true := by
  intro n
  induction n with
  | zero => exact fun i _ j h₁ h₂ => by omega
  | succ n ih =>
      intro i h j h₁ h₂
      rw [userMemFrom, bind_eq_ok] at h
      obtain ⟨ok, hok, hrest⟩ := h
      cases ok with
      | false => cases hrest
      | true =>
          by_cases hj : j = i
          · exact hj ▸ hok
          · exact ih (i + 1) hrest j (by omega) (by omega)

/-- **A byte of a page that was checked can be read.** -/
theorem kernelLoad_of_checked (h : userMemCheck s e str len perm = .ok none) {a : BitVec 32} {i : ℕ}
    (hi : i < userMemPages str len) (ha : vpn a = (vpn str + i) % 2 ^ 20) :
    ∃ b, kernelLoad s e a = .ok b := by
  rw [userMemCheck, bind_eq_ok] at h
  obtain ⟨r, hr, hnone⟩ := h
  obtain rfl : r = none := Option.map_eq_none_iff.1 (Except.ok.inj hnone)
  have hpage := userMemFrom_none _ _ hr i (Nat.zero_le _) (by omega)
  rw [userMemPage, bind_eq_ok] at hpage
  obtain ⟨p, hp, hok⟩ := hpage
  cases p with
  | none => cases hok
  | some p =>
      have hand := Except.ok.inj hok
      rw [Bool.and_eq_true, Bool.and_eq_true] at hand
      obtain ⟨f, hf⟩ := mmu_of_found hp hand.1.1
      rw [mmu_page (show _ = vpn a by rw [vpn_pageAt_low, ha])] at hf
      rw [kernelLoad, hf]
      exact ⟨_, rfl⟩

/-- The pages of a range below `ULIM`, and the page behind it when the range does not end with a
page. -/
theorem loads_of_checked (h : userMemCheck s e str len perm = .ok none)
    (hend : str.toNat + len.toNat ≤ uLim.toNat) {k : ℕ}
    (hk : k < len.toNat ∨ k = len.toNat ∧ (str.toNat + len.toNat) % 4096 ≠ 0) :
    ∃ b, kernelLoad s e (str + BitVec.ofNat 32 k) = .ok b := by
  have hlim := uLim_toNat
  have hvpn : vpn str = str.toNat / 4096 := rfl
  have hnat : (str + BitVec.ofNat 32 k).toNat = str.toNat + k := by
    rw [BitVec.toNat_add, BitVec.toNat_ofNat]
    omega
  refine kernelLoad_of_checked h (i := (str.toNat + k) / 4096 - vpn str) ?_ ?_
  · rw [userMemPages_eq]
    omega
  · rw [vpn, hnat]
    omega

end Checked

/-! ### An address space with given bytes -/

/-- The words of the directory, which is the last frame, and of the page tables before it: the page
`p` is the frame `p`, for `p` below `stop`. -/
def bufferWord (stop f i : ℕ) : BitVec 32 :=
  if f = 2 ^ 20 - 1 then page2pa (2 ^ 20 - 2 - i) ||| 7#32
  else if (2 ^ 20 - 2 - f) * 1024 + i < stop then page2pa ((2 ^ 20 - 2 - f) * 1024 + i) ||| 7#32
  else 0

/-- **An address space with the bytes `c`**, of which the pages below `stop` are mapped. -/
def bufferVm (c : ℕ → BitVec 8) (stop : ℕ) : Vm :=
  let s := Vm.ofWords (2 ^ 20) (Nat.le_refl _) (bufferWord stop) fun _ => .ofDir (2 ^ 20 - 1)
  { s with
    mm := { s.mm with
      mem := fun f o => if f * 4096 < uLim.toNat then c (f * 4096 + o) else s.mm.mem f o } }

section Buffer

variable (c : ℕ → BitVec 8) {stop : ℕ}

theorem bufferVm_word (stop : ℕ) {f : ℕ} (hf : uLim.toNat ≤ f * 4096) (i : ℕ) :
    (bufferVm c stop).mm.word f i = bufferWord stop f i := by
  refine Mm.word_bytesOf ?_ i
  funext o
  exact if_neg (Nat.not_lt.2 hf)

theorem bufferVm_pde (stop : ℕ) (i : ℕ) :
    (bufferVm c stop).mm.word (2 ^ 20 - 1) i = page2pa (2 ^ 20 - 2 - i) ||| 7#32 :=
  (bufferVm_word c stop (by decide) i).trans (if_pos rfl)

theorem bufferVm_pte (stop : ℕ) {i : ℕ} (hi : i < 1024) (j : ℕ) :
    (bufferVm c stop).mm.word (2 ^ 20 - 2 - i) j = if i * 1024 + j < stop then page2pa
    (i * 1024 + j) ||| 7#32 else 0 := by
  have hne : ¬ 2 ^ 20 - 2 - i = 2 ^ 20 - 1 := by omega
  have hsub : 2 ^ 20 - 2 - (2 ^ 20 - 2 - i) = i := by omega
  rw [bufferVm_word c stop (by rw [uLim_toNat]; omega), bufferWord, if_neg hne, hsub]

theorem flags_page2pa (p : ℕ) :
    isPresent (page2pa p ||| 7#32) = true ∧ isHuge (page2pa p ||| 7#32) = false ∧
    (page2pa p ||| 7#32) &&& pteU = pteU := by
  refine ⟨?_, ?_, ?_⟩
  · rw [isPresent, page2pa_or_and _ _ (by decide)]
    decide
  · rw [isHuge, page2pa_or_and _ _ (by decide)]
    decide
  · rw [page2pa_or_and _ _ (by decide)]
    decide

theorem bufferVm_entry (stop : ℕ) {p : ℕ} (hp : p < 2 ^ 20) :
    (bufferVm c stop).mm.entry (2 ^ 20 - 1) p = if p < stop then page2pa p ||| 7#32 else 0 := by
  have hflags := flags_page2pa (2 ^ 20 - 2 - p / 1024)
  have hsum : p / 1024 * 1024 + p % 1024 = p := by omega
  rw [Mm.entry, bufferVm_pde, if_pos hflags.1,
    if_neg (by rw [hflags.2.1]; exact Bool.false_ne_true),
    pgnum_page2pa_or (by omega) (by decide), bufferVm_pte c stop (by omega), hsum]

theorem bufferVm_smallPages (stop : ℕ) : SmallPages (bufferVm c stop) (2 ^ 20 - 1) := by
  intro i _ _
  rw [bufferVm_pde]
  refine ⟨(flags_page2pa _).2.1, ?_⟩
  rw [pgnum_page2pa_or (by omega) (by decide)]
  change 2 ^ 20 - 2 - i < 2 ^ 20
  omega

theorem bufferVm_mmu (e : ℕ) (va : BitVec 32) :
    mmu (bufferVm c stop) e va false false = if vpn va < stop then .frame (vpn va)
      else .notPresent := by
  have hvpn := vpn_lt va
  have hflags := flags_page2pa (2 ^ 20 - 2 - pdx va)
  have hdir : (bufferVm c stop).pgdir e = some (2 ^ 20 - 1) := rfl
  have hpde : (bufferVm c stop).pte ⟨2 ^ 20 - 1, pdx va⟩ = page2pa (2 ^ 20 - 2 - pdx va) ||| 7#32 :=
    bufferVm_pde c stop _
  have hsum : pdx va * 1024 + ptx va = vpn va := by
    rw [pdx_eq, ptx_eq]
    omega
  have hpte : (bufferVm c stop).pte ⟨2 ^ 20 - 2 - pdx va, ptx va⟩ = if vpn va < stop then
      page2pa (vpn va) ||| 7#32 else 0 := by
    refine (bufferVm_pte c stop ?_ _).trans ?_
    · rw [pdx_eq]
      omega
    · rw [hsum]
  have hall : ∀ w, allows w false false = true := fun _ => rfl
  rw [mmu, hdir]
  dsimp only
  rw [hpde, if_neg (not_not_intro hflags.1), if_neg (by rw [hflags.2.1]; exact Bool.false_ne_true),
    pgnum_page2pa_or (by omega) (by decide), hpte]
  by_cases hlt : vpn va < stop
  · rw [if_pos hlt, if_pos hlt, if_neg (not_not_intro (flags_page2pa _).1), hall, hall,
      pgnum_page2pa_or hvpn (by decide)]
    rfl
  · rw [if_neg hlt, if_neg hlt]
    rfl

/-- Every byte of a page that is mapped, and a fault elsewhere. -/
theorem bufferVm_load (hstop : stop * 4096 ≤ uLim.toNat) (e : ℕ) (va : BitVec 32) :
    kernelLoad (bufferVm c stop) e va = if vpn va < stop then pure (c va.toNat)
      else throw (.fault va) := by
  rw [kernelLoad, bufferVm_mmu]
  by_cases hlt : vpn va < stop
  · have hoff : vpn va * 4096 + pgoff va = va.toNat := by
      have hmask : ∀ n : ℕ, n &&& 4095 = n % 4096 := fun n => Nat.and_two_pow_sub_one_eq_mod n 12
      have : pgoff va = va.toNat % 4096 := by
        rw [pgoff, BitVec.toNat_and]
        exact hmask _
      rw [vpn]
      omega
    have hbyte : (bufferVm c stop).byte (vpn va) (pgoff va) = c va.toNat := by
      rw [← hoff]
      exact if_pos (by omega)
    rw [if_pos hlt, if_pos hlt]
    dsimp only
    rw [hbyte]
  · rw [if_neg hlt, if_neg hlt]

/-- The check accepts a range of mapped pages. -/
theorem bufferVm_check (hstop : stop * 4096 ≤ uLim.toNat) (e : ℕ) {str len : BitVec 32}
    (hend : str.toNat + len.toNat ≤ stop * 4096) :
    userMemCheck (bufferVm c stop) e str len (pteU ||| pteU) = .ok none := by
  have hlim := uLim_toNat
  have hvpn : vpn str = str.toNat / 4096 := rfl
  obtain ⟨r, hr, -, hsome⟩ :=
    userMemFrom_spec (bufferVm_smallPages c stop) str (pteU ||| pteU) (userMemPages str len) 0
  have hrn : r = none := by
    cases r with
    | none => rfl
    | some k =>
        obtain ⟨⟨-, hk⟩, href, -⟩ := hsome k rfl
        rw [Nat.zero_add] at hk
        have hpage : vpn str + k < stop := by
          rw [userMemPages_eq] at hk
          omega
        exfalso
        rcases href with hno | hhigh
        · refine hno ?_
          rw [Nat.mod_eq_of_lt (by omega), PteAllows, bufferVm_entry c stop (by omega),
            if_pos hpage]
          exact ⟨(flags_page2pa _).1, (flags_page2pa _).2.2⟩
        · omega
  subst hrn
  have hdir : (bufferVm c stop).pgdir e = some (2 ^ 20 - 1) := rfl
  rw [userMemCheck, hdir, hr]
  rfl

end Buffer

/-! ### What is printed -/

/-- **What is printed depends on the range alone**: the same is printed in every address space in
which the check passes and the range has the same bytes, and nothing faults. -/
def PrintsWhatItChecked (s : Vm) (e : ℕ) (str len : BitVec 32) : Prop :=
  ∀ s' : Vm, userMemCheck s' e str len (pteU ||| pteU) = .ok none →
    (∀ k < len.toNat, kernelLoad s' e (str + BitVec.ofNat 32 k) =
      kernelLoad s e (str + BitVec.ofNat 32 k)) →
    ∃ out, sysCputs s e str len = .ok (.printed out) ∧ sysCputs s' e str len = .ok (.printed out)

/-- The bytes `sys_cputs` prints: a null pointer is printed as a text of the kernel's. -/
def stringAt (s : Vm) (e : ℕ) (str : BitVec 32) : ℕ → Except PrintStop (BitVec 8) :=
  if str = 0 then litBytes "(null)" else fun k => kernelLoad s e (str + BitVec.ofNat 32 k)

section Prints

variable {s : Vm} {e : ℕ} {str len : BitVec 32} {c : ℕ → BitVec 8}

theorem sysCputs_eq (hcheck : userMemCheck s e str len (pteU ||| pteU) = .ok none) :
    sysCputs s e str len = .ok (cprintf s e "%.*s" [len, str]) := by
  rw [sysCputs, hcheck]
  rfl

/-- A string is printed when it has a zero byte, or when the byte behind it can be read. -/
theorem sysCputs_printed (hcheck : userMemCheck s e str len (pteU ||| pteU) = .ok none)
    (hlen : len.toNat < 2 ^ 31) (hread : ∀ i < len.toNat, stringAt s e str i = .ok (c i))
    (hlast : (∃ i < len.toNat, c i = 0) ∨ ∃ b, stringAt s e str len.toNat = .ok b) :
    sysCputs s e str len = .ok (.printed ((strBytes c len.toNat 0).map (putByte false))) := by
  rw [sysCputs_eq hcheck, cprintf, vprintfmt_prec hlen hread]
  by_cases hz : ∃ i < len.toNat, c i = 0
  · rw [if_pos hz]
    rfl
  · obtain ⟨b, hb⟩ := hlast.resolve_left hz
    rw [stringAt] at hb
    rw [if_neg hz, hb]
    rfl

/-- Without a zero byte, the byte behind the range is read. -/
theorem sysCputs_stopped (hcheck : userMemCheck s e str len (pteU ||| pteU) = .ok none)
    (hlen : len.toNat < 2 ^ 31) (hread : ∀ i < len.toNat, stringAt s e str i = .ok (c i))
    (hz : ¬ ∃ i < len.toNat, c i = 0) {why : PrintStop}
    (hlast : stringAt s e str len.toNat = .error why) :
    sysCputs s e str len = .ok (.stopped why) := by
  rw [sysCputs_eq hcheck, cprintf, vprintfmt_prec hlen hread, if_neg hz]
  rw [stringAt] at hlast
  rw [hlast]
  rfl

end Prints

/-- The byte at an address, where there is one. -/
def byteAt (s : Vm) (e : ℕ) (a : ℕ) : BitVec 8 :=
  match kernelLoad s e (BitVec.ofNat 32 a) with
  | .ok b => b
  | .error _ => 0

/-- **When `sys_cputs` prints what it has checked.** -/
theorem sysCputs_prints_checked_iff (s : Vm) (e : ℕ) (str len : BitVec 32)
    (hlen : len.toNat < 2 ^ 31) (hend : str.toNat + len.toNat ≤ uLim.toNat)
    (hcheck : userMemCheck s e str len (pteU ||| pteU) = .ok none) :
    PrintsWhatItChecked s e str len ↔
      str = 0 ∨ (∃ k < len.toNat, kernelLoad s e (str + BitVec.ofNat 32 k) = .ok 0) ∨
        (str.toNat + len.toNat) % 4096 ≠ 0 := by
  have hlim := uLim_toNat
  have haddr : ∀ k, k ≤ len.toNat → (str + BitVec.ofNat 32 k).toNat = str.toNat + k := by
    intro k hk
    rw [BitVec.toNat_add, BitVec.toNat_ofNat]
    omega
  have hbyte : ∀ k < len.toNat, kernelLoad s e (str + BitVec.ofNat 32 k) =
      .ok (byteAt s e (str.toNat + k)) := by
    intro k hk
    obtain ⟨b, hb⟩ := loads_of_checked hcheck hend (Or.inl hk)
    have hof : BitVec.ofNat 32 (str.toNat + k) = str + BitVec.ofNat 32 k := by
      rw [← haddr k (by omega), BitVec.ofNat_toNat, BitVec.setWidth_eq]
    rw [byteAt, hof, hb]
  constructor
  · intro hprints
    by_contra hc
    rw [not_or, not_or, not_not] at hc
    obtain ⟨hstr, hzero, hpage⟩ := hc
    -- the same bytes, with nothing mapped behind them
    have hstop : (str.toNat + len.toNat) / 4096 * 4096 ≤ uLim.toNat := by omega
    have hcheck' := bufferVm_check (byteAt s e) hstop e
      (show str.toNat + len.toNat ≤ (str.toNat + len.toNat) / 4096 * 4096 by omega)
    have hload' : ∀ k < len.toNat, kernelLoad (bufferVm (byteAt s e)
        ((str.toNat + len.toNat) / 4096)) e
        (str + BitVec.ofNat 32 k) = .ok (byteAt s e (str.toNat + k)) := by
      intro k hk
      have hlt : vpn (str + BitVec.ofNat 32 k) < (str.toNat + len.toNat) / 4096 := by
        rw [vpn, haddr k (by omega)]
        omega
      rw [bufferVm_load _ hstop, if_pos hlt, haddr k (by omega)]
      rfl
    obtain ⟨out, -, hout⟩ := hprints _ hcheck' fun k hk => by rw [hload' k hk, hbyte k hk]
    have hlast : kernelLoad (bufferVm (byteAt s e) ((str.toNat + len.toNat) / 4096)) e
        (str + BitVec.ofNat 32 len.toNat) = .error (.fault (str + BitVec.ofNat 32 len.toNat)) := by
      have hnlt : ¬ vpn (str + BitVec.ofNat 32 len.toNat) < (str.toNat + len.toNat) / 4096 := by
        rw [vpn, haddr _ (le_refl _)]
        omega
      rw [bufferVm_load _ hstop, if_neg hnlt]
      rfl
    have hnonzero : ¬ ∃ i < len.toNat, byteAt s e (str.toNat + i) = 0 := by
      rintro ⟨i, hi, hz⟩
      exact hzero ⟨i, hi, by rw [hbyte i hi, hz]⟩
    have hstopped := sysCputs_stopped (c := fun k => byteAt s e (str.toNat + k)) hcheck' hlen
      (fun i hi => by rw [stringAt, if_neg hstr]; exact hload' i hi) hnonzero
      (by rw [stringAt, if_neg hstr]; exact hlast)
    rw [hstopped] at hout
    cases hout
  · intro hcond s' hcheck' hsame
    by_cases hstr : str = 0
    · -- the text for a null pointer
      have hlit : ∀ t k, stringAt t e str k = .ok ((chr ("(null)".toList.getD k '\x00')).setWidth
          8) := by
        intro t k
        rw [stringAt, if_pos hstr]
        rfl
      exact ⟨_, sysCputs_printed hcheck hlen (fun i _ => hlit s i) (Or.inr ⟨_, hlit s _⟩),
        sysCputs_printed hcheck' hlen (fun i _ => hlit s' i) (Or.inr ⟨_, hlit s' _⟩)⟩
    · have hzero : ∀ k < len.toNat, kernelLoad s e (str + BitVec.ofNat 32 k) = .ok 0 →
          ∃ i < len.toNat, byteAt s e (str.toNat + i) = 0 := by
        intro k hk hz
        rw [hbyte k hk] at hz
        exact ⟨k, hk, Except.ok.inj hz⟩
      refine ⟨_, sysCputs_printed (c := fun k => byteAt s e (str.toNat + k)) hcheck hlen
        (fun i hi => ?_) ?_,
        sysCputs_printed hcheck' hlen (fun i hi => ?_) ?_⟩
      · rw [stringAt, if_neg hstr]
        exact hbyte i hi
      · rcases hcond.resolve_left hstr with ⟨k, hk, hz⟩ | hpage
        · exact Or.inl (hzero k hk hz)
        · rw [stringAt, if_neg hstr]
          exact Or.inr (loads_of_checked hcheck hend (Or.inr ⟨rfl, hpage⟩))
      · rw [stringAt, if_neg hstr]
        exact (hsame i hi).trans (hbyte i hi)
      · rcases hcond.resolve_left hstr with ⟨k, hk, hz⟩ | hpage
        · exact Or.inl (hzero k hk hz)
        · rw [stringAt, if_neg hstr]
          exact Or.inr (loads_of_checked hcheck' hend (Or.inr ⟨rfl, hpage⟩))

/-- A string that fills a page. -/
theorem sysCputs_prints_checked_iff_page :
    ((0x1000#32).toNat < 2 ^ 31 ∧ (0x1000#32).toNat + (0x1000#32).toNat ≤ uLim.toNat ∧
      userMemCheck (bufferVm (fun _ => 0x41) 2) 0 0x1000 0x1000 (pteU ||| pteU) = .ok none) ∧
    (PrintsWhatItChecked (bufferVm (fun _ => 0x41) 2) 0 0x1000 0x1000 ↔
      (0x1000 : BitVec 32) = 0 ∨ (∃ k < (0x1000#32).toNat, kernelLoad (bufferVm (fun _ => 0x41) 2) 0
        (0x1000 + BitVec.ofNat 32 k) = .ok 0) ∨
          ((0x1000#32).toNat + (0x1000#32).toNat) % 4096 ≠ 0) :=
  have hcheck := bufferVm_check (fun _ => 0x41) (show 2 * 4096 ≤ uLim.toNat by decide) 0
    (show (0x1000#32).toNat + (0x1000#32).toNat ≤ 2 * 4096 by decide)
  ⟨⟨by decide, by decide, hcheck⟩,
    sysCputs_prints_checked_iff (bufferVm (fun _ => 0x41) 2) 0 0x1000
      0x1000 (by decide) (by decide) hcheck⟩

/-- The last byte of a page with nothing mapped behind it: the page behind it is read. -/
theorem sysCputs_reads_behind :
    ¬ ∀ (s : Vm) (e : ℕ) (str len : BitVec 32), len.toNat < 2 ^ 31 →
      str.toNat + len.toNat ≤ uLim.toNat →
      userMemCheck s e str len (pteU ||| pteU) = .ok none → PrintsWhatItChecked s e str len := by
  intro h
  have hstop : 2 * 4096 ≤ uLim.toNat := by decide
  have hcheck := bufferVm_check (fun _ => 0x41) hstop 0
    (show (0x1FFF : BitVec 32).toNat + (1 : BitVec 32).toNat ≤ 2 * 4096 by decide)
  obtain ⟨out, hout, -⟩ :=
    h (bufferVm (fun _ => 0x41) 2) 0 0x1FFF 1 (by decide) (by decide) hcheck _ hcheck fun _ _ => rfl
  have hread : ∀ i < (1 : BitVec 32).toNat, stringAt (bufferVm (fun _ => 0x41) 2) 0 0x1FFF i =
      .ok 0x41 := by
    intro i hi
    obtain rfl : i = 0 := by
      have : (1 : BitVec 32).toNat = 1 := rfl
      omega
    rw [stringAt, if_neg (by decide)]
    exact (bufferVm_load _ hstop 0 _).trans (if_pos (by decide))
  have hlast : stringAt (bufferVm (fun _ => 0x41) 2) 0 0x1FFF (1 : BitVec 32).toNat =
      .error (.fault 0x2000) := by
    rw [stringAt, if_neg (by decide)]
    exact (bufferVm_load _ hstop 0 _).trans (if_neg (by decide))
  have hstopped := sysCputs_stopped (c := fun _ => 0x41) hcheck (by decide) hread
    (fun ⟨_, _, hz⟩ => absurd hz (by decide)) hlast
  rw [hstopped] at hout
  exact nomatch hout

end Jos
