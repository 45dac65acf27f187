/-
**How a format is read.**

`vprintfmt` of `lib/printfmt.c` walks over the format with a pointer. For an escape that is not
recognized it prints `%` and moves the pointer back to the character behind the `%`, so that the
characters of the escape are read once more, as ordinary ones; the end of the format goes through
that case as well. Here the pointer is an index, and a read before the format or behind its zero
byte stops the run.

Main definitions:

* `Jos.scanFormat` — `vprintfmt` with the pointer into the format;
* `Jos.pieces` — the format cut into ordinary characters, directives and escapes that are not
  recognized;
* `Jos.printPieces` — what is printed for each piece.

Main results:

* `Jos.pieces_text`, `Jos.pieces_formed` — the pieces make up the format;
* `Jos.scanSwitch_eq`, `Jos.scanBack_eq` — the pointer after the flags of an escape, and after it
  has been moved back;
* `Jos.scanFrom_eq` — the run from any place in the format prints the pieces from there on;
* `Jos.scanFormat_pieces` — **the run comes to the end of the format, prints the pieces in their
  order, and an escape that is not recognized as it is written**.
-/

import Mathlib.Algebra.GroupWithZero.Nat
import JosKernel.Printfmt

set_option relaxedAutoImplicit false
set_option autoImplicit false

namespace Jos

/-! ### The pointer -/

/-- How the run stops before the end of the format. -/
inductive ScanStop
  /-- **A read behind the zero byte**, or before the format. -/
  | outside (i : ℤ)
  /-- `va_arg` when no argument is left. -/
  | noArg
  /-- A loop has not ended. -/
  | endless
  /-- The conversion of an argument. -/
  | print (why : PrintStop)
  deriving DecidableEq, Repr

section Code

variable (fmt : List Char)

/-- The character at an index of the format, which a zero byte follows. -/
def readFmt (i : ℕ) : Except ScanStop Char :=
  match fmt[i]? with
  | some c => pure c
  | none => if i = fmt.length then pure '\x00' else throw (.outside i)

/-- The loop over the digits of a number; `fmt` is at `i`. -/
def scanNumber : ℕ → BitVec 32 → Char → ℕ → Except ScanStop (BitVec 32 × ℕ)
  | 0, _, _, _ => throw .endless
  | n + 1, precision, ch, i => do
      let precision := precision * 10 + chr ch - chr '0'
      let ch ← readFmt fmt i
      if ch.isDigit then scanNumber n precision ch (i + 1) else pure (precision, i)

/-- `reswitch:` and the flags of an escape, up to the character that is none. -/
def scanSwitch : ℕ → FmtFlags → List (BitVec 32) → ℕ →
    Except ScanStop (FmtFlags × List (BitVec 32) × Char × ℕ)
  | 0, _, _, _ => throw .endless
  | n + 1, f, ap, i => do
      let ch ← readFmt fmt i
      let i := i + 1
      if ch = '-' then scanSwitch n { f with padc := '-' } ap i
      else if ch = '0' then scanSwitch n { f with padc := '0' } ap i
      else if ch.isDigit then do
        let (precision, i) ← scanNumber fmt n 0 ch i
        scanSwitch n (f.processPrecision precision) ap i
      else if ch = '*' then
        match ap with
        | [] => throw .noArg
        | precision :: ap => scanSwitch n (f.processPrecision precision) ap i
      else if ch = '.' then scanSwitch n (if f.width.slt 0 then { f with width := 0 } else f) ap i
      else if ch = '#' then scanSwitch n { f with altflag := true } ap i
      else if ch = 'l' then scanSwitch n { f with lflag := f.lflag + 1 } ap i
      else pure (f, ap, ch, i)

/-- `for (fmt--; fmt[-1] != '%'; fmt--)`, after the first `fmt--`. -/
def scanBack : ℕ → ℕ → Except ScanStop ℕ
  | 0, _ => throw .endless
  | _ + 1, 0 => throw (.outside (-1))
  | n + 1, i + 1 => do
      let ch ← readFmt fmt i
      if ch ≠ '%' then scanBack n i else pure (i + 1)

/-- The words that a conversion takes from the arguments. -/
def convArgs (lflag : ℕ) (c : Char) : ℕ :=
  if c ∈ ['d', 'u', 'o', 'x'] then (if 2 ≤ lflag then 2 else 1)
    else if c ∈ ['c', 'e', 's', 'p'] then 1 else 0

/-- The rounds of the two outer loops, with `fmt` at `i`. -/
def scanFrom (load : BitVec 32 → Except PrintStop (BitVec 8)) :
    ℕ → ℕ → List (BitVec 32) → Except ScanStop (List (BitVec 32))
  | 0, _, _ => throw .endless
  | n + 1, i, ap => do
      let ch ← readFmt fmt i
      if ch ≠ '%' then
        if ch = '\x00' then pure []
        else do
          let out ← scanFrom load n (i + 1) ap
          pure (chr ch :: out)
      else do
        let (f, ap, ch, i) ← scanSwitch fmt (fmt.length + 1) .start ap (i + 1)
        match fmtConversion load f ap ch with
        | some x =>
            if ap.length < convArgs f.lflag ch then throw .noArg
            else do
              let (out, ap) ← x.mapError .print
              let out' ← scanFrom load n i ap
              pure (out ++ out')
        | none => do
            let i ← scanBack fmt (fmt.length + 1) (i - 1)
            let out ← scanFrom load n i ap
            pure (chr '%' :: out)

end Code

/-- **`vprintfmt(putch, putdat, fmt, ap)`**, for a number of rounds. -/
def scanFormat (load : BitVec 32 → Except PrintStop (BitVec 8)) (fuel : ℕ) (fmt : List Char)
    (ap : List (BitVec 32)) :
    Except ScanStop (List (BitVec 32)) :=
  scanFrom fmt load fuel 0 ap

/-! ### The pieces of a format -/

/-- A character between `%` and the one that says what is printed. -/
def isFlag (c : Char) : Bool := c.isDigit || c ∈ ['-', '*', '.', '#', 'l']

/-- A character that says what is printed. -/
def isConversion (c : Char) : Bool := c ∈ ['c', 'e', 's', 'd', 'u', 'o', 'p', 'x', '%']

/-- A piece of a format. -/
inductive Piece
  /-- An ordinary character. -/
  | plain (c : Char)
  /-- A directive: the flags and the conversion. -/
  | directive (flags : List Char) (c : Char)
  /-- **An escape that is not recognized**: what stands behind the `%`, up to and including the
  offending character, or up to the end. -/
  | unrecognized (text : List Char)
  deriving DecidableEq, Repr

/-- How a piece is written. -/
def Piece.text : Piece → List Char
  | plain c => [c]
  | directive flags c => '%' :: (flags ++ [c])
  | unrecognized text => '%' :: text

/-- The piece that a `%` begins, and what is left. -/
def escape (fmt : List Char) : Piece × List Char :=
  match fmt.dropWhile isFlag with
  | [] => (.unrecognized (fmt.takeWhile isFlag), [])
  | c :: rest =>
      (if isConversion c then .directive (fmt.takeWhile isFlag) c
        else .unrecognized (fmt.takeWhile isFlag ++ [c]), rest)

theorem escape_text (fmt : List Char) : (escape fmt).1.text ++ (escape fmt).2 = '%' :: fmt := by
  have hsplit := List.takeWhile_append_dropWhile (p := isFlag) (l := fmt)
  unfold escape
  cases hrest : fmt.dropWhile isFlag with
  | nil =>
      rw [hrest, List.append_nil] at hsplit
      exact congrArg (List.cons '%') ((List.append_nil _).trans hsplit)
  | cons c rest =>
      rw [hrest] at hsplit
      dsimp only
      split
      · simpa [Piece.text] using hsplit
      · simpa [Piece.text] using hsplit

theorem escape_length (fmt : List Char) : (escape fmt).2.length ≤ fmt.length := by
  have h := congrArg List.length (escape_text fmt)
  have hpos : 0 < (escape fmt).1.text.length := by
    cases (escape fmt).1 with
    | plain c => exact Nat.one_pos
    | directive flags c => exact Nat.succ_pos _
    | unrecognized text => exact Nat.succ_pos _
  rw [List.length_append, List.length_cons] at h
  omega

/-- **The pieces of a format.** -/
def pieces : List Char → List Piece
  | [] => []
  | c :: fmt => if c ≠ '%' then .plain c :: pieces fmt else (escape fmt).1 :: pieces (escape fmt).2
termination_by fmt => fmt.length
decreasing_by
  · exact Nat.lt_succ_self _
  · exact Nat.lt_succ_of_le (escape_length fmt)

/-- **The pieces make up the format.** -/
theorem pieces_text (fmt : List Char) : (pieces fmt).flatMap Piece.text = fmt := by
  induction fmt using pieces.induct with
  | case1 => rw [pieces, List.flatMap_nil]
  | case2 c fmt hc ih =>
      rw [pieces, if_pos hc, List.flatMap_cons, ih, Piece.text, List.singleton_append]
  | case3 c fmt hc ih =>
      rw [pieces, if_neg hc, List.flatMap_cons, ih, escape_text, not_not.1 hc]

/-! ### What is printed for a piece -/

/-- The words that a piece takes from the arguments. -/
def Piece.words : Piece → ℕ
  | plain _ => 0
  | directive flags c => flags.count '*' + convArgs (flags.count 'l') c
  | unrecognized text => text.count '*'

/-- The string that a piece takes from the arguments. -/
def Piece.strings (ap : List (BitVec 32)) : Piece → List (BitVec 32)
  | directive flags c => if c = 's' then [(ap.drop (flags.count '*')).headD 0] else []
  | _ => []

/-- **What a piece prints**, and the arguments that are left. -/
def Piece.print (load : BitVec 32 → Except PrintStop (BitVec 8)) (ap : List (BitVec 32)) :
    Piece → Except PrintStop (List (BitVec 32) × List (BitVec 32))
  | plain c => pure ([chr c], ap)
  | directive flags c =>
      let (f, ap, _) := fmtSwitch (flags.length + 1) .start ap flags
      (fmtConversion load f ap c).getD (pure ([], ap))
  | unrecognized text => pure (('%' :: text).map chr, ap.drop (text.count '*'))

/-- **What the pieces print**, one after the other. -/
def printPieces (load : BitVec 32 → Except PrintStop (BitVec 8)) :
    List Piece → List (BitVec 32) → Except PrintStop (List (List (BitVec 32)))
  | [], _ => pure []
  | p :: ps, ap => do
      let (out, ap) ← p.print load ap
      let outs ← printPieces load ps ap
      pure (out :: outs)

/-- The strings among the arguments. -/
def stringArgs : List Piece → List (BitVec 32) → List (BitVec 32)
  | [], _ => []
  | p :: ps, ap => p.strings ap ++ stringArgs ps (ap.drop p.words)

/-- A string with a zero byte, up to which it can be read. -/
def Terminated (read : ℕ → Except PrintStop (BitVec 8)) : Prop :=
  ∃ k < 2 ^ 32, (∀ j < k, ∃ b, read j = .ok b ∧ b ≠ 0) ∧ read k = .ok 0

/-- **The arguments fit the format**: there are enough of them, and the strings are null pointers or
end with a zero byte. -/
structure ArgsFit (load : BitVec 32 → Except PrintStop (BitVec 8)) (ps : List Piece)
    (ap : List (BitVec 32)) : Prop where
  enough : (ps.map Piece.words).sum ≤ ap.length
  strings : ∀ p ∈ stringArgs ps ap, p = 0 ∨ Terminated fun k => load (p + BitVec.ofNat 32 k)

/-- A piece that is printed as it is written. -/
def Piece.Literal : Piece → Prop
  | plain _ => True
  | directive _ _ => False
  | unrecognized _ => True

/-! ### Strings -/

section Strings

variable {read : ℕ → Except PrintStop (BitVec 8)}

/-- `strnlen` stops at the zero byte, or before it. -/
theorem strnlen_ends {d : ℕ} :
    ∀ (size k : ℕ), (∀ j < d, ∃ b, read (k + j) = .ok b) → read (k + d) = .ok 0 →
      ∃ n, strnlen read size k = .ok n := by
  induction d with
  | zero =>
      intro size k _ hzero
      cases size with
      | zero => exact ⟨0, rfl⟩
      | succ size =>
          rw [strnlen, show read k = .ok 0 from hzero]
          exact ⟨0, rfl⟩
  | succ d ih =>
      intro size k hbytes hzero
      cases size with
      | zero => exact ⟨0, rfl⟩
      | succ size =>
          obtain ⟨b, hb⟩ : ∃ b, read k = .ok b := hbytes 0 (Nat.succ_pos d)
          have hshift : ∀ j, k + 1 + j = k + (j + 1) := fun j => by omega
          obtain ⟨n, hn⟩ :=
            ih size (k + 1) (fun j hj => by rw [hshift]; exact hbytes (j + 1) (Nat.succ_lt_succ hj))
            (by rw [hshift]; exact hzero)
          rw [strnlen, hb]
          change ∃ m, (if b = 0 then pure 0 else strnlen read size (k + 1) >>= fun n =>
            pure (n + 1)) = Except.ok m
          by_cases hb0 : b = 0
          · exact ⟨0, if_pos hb0⟩
          · rw [if_neg hb0, hn]
            exact ⟨n + 1, rfl⟩

/-- The loop for `%s` stops at the zero byte, or before it. -/
theorem putStr_ends {altflag : Bool} {d : ℕ} :
    ∀ (fuel k : ℕ) (precision width : BitVec 32), d < fuel → (∀ j < d, ∃ b, read (k + j) = .ok b) →
    read (k + d) = .ok 0 → ∃ r, putStr read altflag fuel k precision width = .ok r := by
  induction d with
  | zero =>
      intro fuel k precision width hfuel _ hzero
      obtain ⟨fuel, rfl⟩ : ∃ m, fuel = m + 1 := ⟨fuel - 1, by omega⟩
      rw [putStr, show read k = .ok 0 from hzero]
      exact ⟨_, rfl⟩
  | succ d ih =>
      intro fuel k precision width hfuel hbytes hzero
      obtain ⟨fuel, rfl⟩ : ∃ m, fuel = m + 1 := ⟨fuel - 1, by omega⟩
      obtain ⟨b, hb⟩ : ∃ b, read k = .ok b := hbytes 0 (Nat.succ_pos d)
      have hshift : ∀ j, k + 1 + j = k + (j + 1) := fun j => by omega
      have hrest : ∀ precision width, ∃ r, putStr read altflag fuel (k + 1) precision
          width = .ok r := fun precision width =>
        ih fuel (k + 1) precision width (by omega)
          (fun j hj => by rw [hshift]; exact hbytes (j + 1) (Nat.succ_lt_succ hj))
          (by rw [hshift]; exact hzero)
      rw [putStr, hb]
      change ∃ r, (if b = 0 then pure ([], width) else _) = Except.ok r
      by_cases hb0 : b = 0
      · exact ⟨_, if_pos hb0⟩
      · rw [if_neg hb0]
        by_cases hneg : precision.slt 0
        · obtain ⟨r, hr⟩ := hrest precision (width - 1)
          rw [if_pos hneg, hr]
          exact ⟨_, rfl⟩
        · rw [if_neg hneg]
          by_cases hlast : (precision - 1).slt 0
          · exact ⟨_, if_pos hlast⟩
          · obtain ⟨r, hr⟩ := hrest (precision - 1) (width - 1)
            rw [if_neg hlast, hr]
            exact ⟨_, rfl⟩

theorem putString_ends (h : Terminated read) (f : FmtFlags) :
    ∃ out, putString read f = .ok out := by
  obtain ⟨d, hd, hbytes, hzero⟩ := h
  have hread : ∀ j < d, ∃ b, read (0 + j) = .ok b := by
    intro j hj
    obtain ⟨b, hb, -⟩ := hbytes j hj
    exact ⟨b, by rw [Nat.zero_add, hb]⟩
  have hend : read (0 + d) = .ok 0 := by rw [Nat.zero_add, hzero]
  obtain ⟨n, hn⟩ := strnlen_ends f.precision.toNat 0 hread hend
  have hloop : ∀ width, ∃ r, putStr read f.altflag (2 ^ 32) 0 f.precision width = .ok r :=
    fun width =>
    putStr_ends (2 ^ 32) 0 f.precision width hd hread hend
  unfold putString
  by_cases hpad : (0#32).slt f.width ∧ f.padc ≠ '-'
  · obtain ⟨r, hr⟩ :=
      hloop (if (0#32).slt (f.width - BitVec.ofNat 32 n) then 0 else f.width - BitVec.ofNat 32 n)
    rw [if_pos hpad, hn]
    change ∃ out, (putStr read f.altflag (2 ^ 32) 0 f.precision _ >>= _) = Except.ok out
    rw [hr]
    exact ⟨_, rfl⟩
  · obtain ⟨r, hr⟩ := hloop f.width
    rw [if_neg hpad]
    change ∃ out, (putStr read f.altflag (2 ^ 32) 0 f.precision f.width >>= _) = Except.ok out
    rw [hr]
    exact ⟨_, rfl⟩

theorem litBytes_terminated : Terminated (litBytes "(null)") := by
  refine ⟨6, by decide, fun j hj => ⟨_, rfl, ?_⟩, rfl⟩
  revert j
  decide

end Strings

/-! ### Conversions -/

section Conversions

variable {load : BitVec 32 → Except PrintStop (BitVec 8)} {f : FmtFlags}
    {ap : List (BitVec 32)} {c : Char}

theorem fmtConversion_none (h : isConversion c = false) : fmtConversion load f ap c = none := by
  unfold fmtConversion
  split <;> first | rfl | exact absurd h (by decide)

theorem fmtConversion_head {l : List Char}
    (h : fmtConversion load f ap (l.head?.getD '\x00') = none) :
    l.head?.bind (fmtConversion load f ap) = none := by
  cases l with
  | nil => rfl
  | cons c l => exact h

/-- **A conversion prints something**, and takes its words from the arguments. -/
theorem fmtConversion_ends (h : isConversion c = true)
    (hstr : c = 's' → ap.headD 0 = 0 ∨ Terminated fun k => load (ap.headD 0 + BitVec.ofNat 32 k)) :
    ∃ out, fmtConversion load f ap c = some (.ok (out, ap.drop (convArgs f.lflag c))) := by
  have hone : ∀ c ∈ ['c', 'e', 's', 'p'], ap.drop (convArgs f.lflag c) = ap.tail := by
    intro c hc
    have hnum : c ∉ ['d', 'u', 'o', 'x'] := by
      simp only [List.mem_cons, List.not_mem_nil, or_false] at hc
      obtain rfl | rfl | rfl | rfl := hc <;> decide
    rw [convArgs, if_neg hnum, if_pos hc, List.drop_one]
  have htwo : ap.drop 2 = ap.tail.tail := by rw [← List.drop_one, ← List.drop_one, List.drop_drop]
  have hwords : ∀ c ∈ ['d', 'u', 'o', 'x'], ap.drop (convArgs f.lflag c) = if 2 ≤ f.lflag then
      ap.tail.tail else ap.tail := by
    intro c hc
    rw [convArgs, if_pos hc]
    split
    · exact htwo
    · exact List.drop_one
  have huint : ∀ c ∈ ['d', 'u', 'o', 'x'], (getuint f.lflag ap).2 =
    ap.drop (convArgs f.lflag c) := by
    intro c hc
    rw [hwords c hc, getuint]
    split <;> rfl
  have hint : (getint f.lflag ap).2 = ap.drop (convArgs f.lflag 'd') := by
    rw [hwords 'd' (by decide), getint]
    split <;> rfl
  have hcases : c = 'c' ∨ c = 'e' ∨ c = 's' ∨ c = 'd' ∨ c = 'u' ∨ c = 'o' ∨ c = 'p' ∨ c = 'x' ∨
      c = '%' := by
    simpa [isConversion] using h
  rcases hcases with rfl | rfl | rfl | rfl | rfl | rfl | rfl | rfl | rfl
  · exact ⟨_, by rw [hone 'c' (by decide)]; rfl⟩
  · exact ⟨_, by rw [hone 'e' (by decide)]; rfl⟩
  · have hread : Terminated (if ap.headD 0 = 0 then litBytes "(null)"
        else fun k => load (ap.headD 0 + BitVec.ofNat 32 k)) := by
      by_cases hnull : ap.headD 0 = 0
      · rw [if_pos hnull]
        exact litBytes_terminated
      · rw [if_neg hnull]
        exact (hstr rfl).resolve_left hnull
    obtain ⟨out, hout⟩ := putString_ends hread f
    refine ⟨out, ?_⟩
    rw [hone 's' (by decide)]
    change some (putString (if ap.headD 0 = 0 then litBytes "(null)"
      else fun k => load (ap.headD 0 + BitVec.ofNat 32 k)) f >>= _) = _
    rw [hout]
    rfl
  · exact ⟨_, by rw [← hint]; rfl⟩
  · exact ⟨_, by rw [← huint 'u' (by decide)]; rfl⟩
  · exact ⟨_, by rw [← huint 'o' (by decide)]; rfl⟩
  · exact ⟨_, by rw [hone 'p' (by decide)]; rfl⟩
  · exact ⟨_, by rw [← huint 'x' (by decide)]; rfl⟩
  · exact ⟨_, rfl⟩

end Conversions

/-! ### The flags -/

/-- What is left of the format at an index. -/
def Rest (fmt : List Char) (i : ℕ) (l : List Char) : Prop := i ≤ fmt.length ∧ fmt.drop i = l

section Pointer

variable {fmt l rest : List Char} {c : Char} {i : ℕ}

theorem Rest.char (h : Rest fmt i (c :: l)) : readFmt fmt i = .ok c := by
  have hget : fmt[i]? = some c := by
    rw [← List.head?_drop, h.2]
    rfl
  rw [readFmt, hget]
  rfl

theorem Rest.next (h : Rest fmt i (c :: l)) : Rest fmt (i + 1) l := by
  have hlen := congrArg List.length h.2
  rw [List.length_drop, List.length_cons] at hlen
  refine ⟨by omega, ?_⟩
  rw [← List.drop_drop, h.2]
  rfl

theorem Rest.nul (h : Rest fmt i []) : readFmt fmt i = .ok '\x00' := by
  have hlen := congrArg List.length h.2
  rw [List.length_drop, List.length_nil] at hlen
  have heq : i = fmt.length := by
    have := h.1
    omega
  have hget : fmt[i]? = none := by
    rw [List.getElem?_eq_none]
    omega
  rw [readFmt, hget]
  exact if_pos heq

/-- The character that is read, which is the zero byte at the end. -/
theorem Rest.read (h : Rest fmt i l) : readFmt fmt i = .ok (l.head?.getD '\x00') := by
  cases l with
  | nil => exact h.nul
  | cons c l => exact h.char

theorem Rest.append (h : Rest fmt i (l ++ rest)) : Rest fmt (i + l.length) rest := by
  induction l generalizing i with
  | nil => exact h
  | cons c l ih =>
      have hlen : i + (c :: l).length = i + 1 + l.length := by
        rw [List.length_cons]
        omega
      rw [hlen]
      exact ih h.next

end Pointer

/-- The next character is no flag. -/
def Stops (rest : List Char) : Prop := isFlag (rest.head?.getD '\x00') = false

theorem Stops.not_digit {rest : List Char} (h : Stops rest) :
    ¬ (rest.head?.getD '\x00').isDigit = true := by
  rw [Stops, isFlag, Bool.or_eq_false_iff] at h
  exact Bool.eq_false_iff.1 h.1

/-- **A number in the format**: its digits are passed, and no other flags. -/
theorem scanNumber_eq {fmt rest : List Char} (hstop : Stops rest) :
    ∀ (l : List Char) (v : BitVec 32), ∃ V ds l', l = ds ++ l' ∧
    ds.count '*' = 0 ∧ ds.count 'l' = 0 ∧ fmtNumber v (l ++ rest) = (V, l' ++ rest) ∧
    fmtNumber v l = (V, l') ∧
      ∀ n i (precision : BitVec 32) (ch : Char), precision * 10 + chr ch - chr '0' = v →
        l.length < n → Rest fmt i (l ++ rest) →
        scanNumber fmt n precision ch i = .ok (V, i + ds.length) := by
  intro l
  induction l with
  | nil =>
      intro v
      have hnumber : fmtNumber v rest = (v, rest) := by
        cases rest with
        | nil => rfl
        | cons c rest => exact if_neg hstop.not_digit
      refine ⟨v, [], [], rfl, rfl, rfl, hnumber, rfl, fun n i precision ch hv hn hrest => ?_⟩
      obtain ⟨n, rfl⟩ : ∃ m, n = m + 1 := ⟨n - 1, by omega⟩
      rw [scanNumber, hrest.read, hv]
      exact if_neg hstop.not_digit
  | cons c l ih =>
      intro v
      by_cases hc : c.isDigit = true
      · obtain ⟨V, ds, l', hl, hstar, hlong, hnumber, hnumber', hscan⟩ :=
          ih (v * 10 + chr c - chr '0')
        have hne : c ≠ '*' ∧ c ≠ 'l' := by
          refine ⟨?_, ?_⟩
          · rintro rfl
            exact absurd hc (by decide)
          · rintro rfl
            exact absurd hc (by decide)
        refine ⟨V, c :: ds, l', congrArg (List.cons c) hl, ?_, ?_, (if_pos hc).trans hnumber,
          (if_pos hc).trans hnumber', ?_⟩
        · rw [List.count_cons_of_ne hne.1, hstar]
        · rw [List.count_cons_of_ne hne.2, hlong]
        · intro n i precision ch hv hn hrest
          obtain ⟨n, rfl⟩ : ∃ m, n = m + 1 := ⟨n - 1, by omega⟩
          have hrest : Rest fmt i (c :: (l ++ rest)) := hrest
          have hlen : i + (c :: ds).length = i + 1 + ds.length := by
            rw [List.length_cons]
            omega
          rw [scanNumber, hrest.char, hlen, hv, ← hscan n (i + 1) v c rfl
            (Nat.lt_of_succ_lt_succ hn) hrest.next]
          exact if_pos hc
      · refine ⟨v, [], c :: l, rfl, rfl, rfl, if_neg hc, if_neg hc,
          fun n i precision ch hv hn hrest => ?_⟩
        obtain ⟨n, rfl⟩ : ∃ m, n = m + 1 := ⟨n - 1, by omega⟩
        have hrest : Rest fmt i (c :: (l ++ rest)) := hrest
        rw [scanNumber, hrest.char, hv]
        exact if_neg hc

/-- What a flag can be. -/
theorem isFlag_cases {c : Char} (h : isFlag c = true) :
    c = '-' ∨ c = '0' ∨ (c.isDigit = true ∧ c ≠ '-' ∧ c ≠ '0') ∨ c = '*' ∨ c = '.' ∨ c = '#' ∨
      c = 'l' := by
  rw [isFlag, Bool.or_eq_true] at h
  rcases h with hdigit | hother
  · by_cases hzero : c = '0'
    · exact Or.inr (Or.inl hzero)
    · refine Or.inr (Or.inr (Or.inl ⟨hdigit, ?_, hzero⟩))
      rintro rfl
      exact absurd hdigit (by decide)
  · have hmem : c = '-' ∨ c = '*' ∨ c = '.' ∨ c = '#' ∨ c = 'l' := by simpa using hother
    rcases hmem with h | h | h | h | h
    · exact Or.inl h
    · exact Or.inr (Or.inr (Or.inr (Or.inl h)))
    · exact Or.inr (Or.inr (Or.inr (Or.inr (Or.inl h))))
    · exact Or.inr (Or.inr (Or.inr (Or.inr (Or.inr (Or.inl h)))))
    · exact Or.inr (Or.inr (Or.inr (Or.inr (Or.inr (Or.inr h)))))

theorem not_flag {c : Char} (h : isFlag c = false) :
    c ≠ '-' ∧ c ≠ '0' ∧ ¬ c.isDigit = true ∧ c ≠ '*' ∧ c ≠ '.' ∧ c ≠ '#' ∧ c ≠ 'l' := by
  have hne : ∀ d, isFlag d = true → c ≠ d := by
    rintro d hd rfl
    exact Bool.false_ne_true (h.symm.trans hd)
  rw [isFlag, Bool.or_eq_false_iff] at h
  exact ⟨hne '-' (by decide), hne '0' (by decide), Bool.eq_false_iff.1 h.1, hne '*' (by decide),
    hne '.' (by decide), hne '#' (by decide),
    hne 'l' (by decide)⟩

theorem fmtSwitch_stop {f : FmtFlags} {ap : List (BitVec 32)} {rest : List Char}
    (h : Stops rest) (n : ℕ) :
    fmtSwitch (n + 1) f ap rest = (f, ap, rest.head?, rest.tail) := by
  cases rest with
  | nil => rfl
  | cons c rest =>
      have hc : isFlag c = false := h
      obtain ⟨h₁, h₂, h₃, h₄, h₅, h₆, h₇⟩ := not_flag hc
      rw [fmtSwitch, if_neg h₁, if_neg h₂, if_neg h₃, if_neg h₄, if_neg h₅, if_neg h₆, if_neg h₇]
      rfl

theorem scanSwitch_stop {fmt : List Char} {f : FmtFlags} {ap : List (BitVec 32)} {rest : List Char}
    {i : ℕ} (h : Stops rest) (hrest : Rest fmt i rest) (n : ℕ) :
    scanSwitch fmt (n + 1) f ap i = .ok (f, ap, rest.head?.getD '\x00', i + 1) := by
  obtain ⟨h₁, h₂, h₃, h₄, h₅, h₆, h₇⟩ := not_flag h
  rw [scanSwitch, hrest.read]
  change (if rest.head?.getD '\x00' = '-' then _ else _) = _
  rw [if_neg h₁, if_neg h₂, if_neg h₃, if_neg h₄, if_neg h₅, if_neg h₆, if_neg h₇]
  rfl

theorem processPrecision_lflag (f : FmtFlags) (n : BitVec 32) :
    (f.processPrecision n).lflag = f.lflag := by
  unfold FmtFlags.processPrecision
  split <;> rfl

/-- **What the flags of an escape do**: what they set, the arguments that are left, and the pointer
behind the character that is none. -/
def FlagsRead (fmt rest l : List Char) (f : FmtFlags) (ap : List (BitVec 32)) : Prop :=
  ∃ F : FmtFlags, F.lflag = f.lflag + l.count 'l' ∧
    (∀ n, l.length < n → fmtSwitch n f ap (l ++ rest) =
      (F, ap.drop (l.count '*'), rest.head?, rest.tail)) ∧
    (∀ n, l.length < n → fmtSwitch n f ap l = (F, ap.drop (l.count '*'), none, [])) ∧
    ∀ n i, l.length < n → Rest fmt i (l ++ rest) →
      scanSwitch fmt n f ap i = .ok (F, ap.drop (l.count '*'), rest.head?.getD '\x00',
        i + l.length + 1)

section Flags

variable {fmt rest l : List Char} {c : Char} {f f' : FmtFlags} {ap ap' : List (BitVec 32)}

theorem FlagsRead.nil (hstop : Stops rest) : FlagsRead fmt rest [] f ap := by
  refine ⟨f, rfl, fun n hn => ?_, fun n hn => ?_, fun n i hn hrest => ?_⟩
  · obtain ⟨n, rfl⟩ : ∃ m, n = m + 1 := ⟨n - 1, by omega⟩
    exact fmtSwitch_stop hstop n
  · obtain ⟨n, rfl⟩ : ∃ m, n = m + 1 := ⟨n - 1, by omega⟩
    rfl
  · obtain ⟨n, rfl⟩ : ∃ m, n = m + 1 := ⟨n - 1, by omega⟩
    exact scanSwitch_stop hstop hrest n

/-- A flag of one character. -/
theorem FlagsRead.single (h : FlagsRead fmt rest l f' ap')
    (hlong : f'.lflag + l.count 'l' = f.lflag + (c :: l).count 'l')
    (hdrop : ap'.drop (l.count '*') = ap.drop ((c :: l).count '*'))
    (hstep : ∀ n r, fmtSwitch (n + 1) f ap (c :: r) = fmtSwitch n f' ap' r)
    (hscan : ∀ n i, readFmt fmt i = .ok c → scanSwitch fmt (n + 1) f ap i =
      scanSwitch fmt n f' ap' (i + 1)) :
    FlagsRead fmt rest (c :: l) f ap := by
  obtain ⟨F, hF, hswitch, hswitch', hptr⟩ := h
  rw [hdrop] at hswitch hswitch' hptr
  refine ⟨F, hF.trans hlong, fun n hn => ?_, fun n hn => ?_, fun n i hn hrest => ?_⟩
  · obtain ⟨n, rfl⟩ : ∃ m, n = m + 1 := ⟨n - 1, by omega⟩
    exact (hstep n (l ++ rest)).trans (hswitch n (Nat.lt_of_succ_lt_succ hn))
  · obtain ⟨n, rfl⟩ : ∃ m, n = m + 1 := ⟨n - 1, by omega⟩
    exact (hstep n l).trans (hswitch' n (Nat.lt_of_succ_lt_succ hn))
  · obtain ⟨n, rfl⟩ : ∃ m, n = m + 1 := ⟨n - 1, by omega⟩
    have hrest : Rest fmt i (c :: (l ++ rest)) := hrest
    have hplace : i + (c :: l).length + 1 = i + 1 + l.length + 1 := by
      rw [List.length_cons]
      omega
    rw [hscan n i hrest.char, hptr n (i + 1) (Nat.lt_of_succ_lt_succ hn) hrest.next, hplace]

/-- A number. -/
theorem FlagsRead.number (hstop : Stops rest) (hdigit : c.isDigit = true) (hminus : c ≠ '-')
    (hzero : c ≠ '0')
    (h : ∀ V ds l', l = ds ++ l' → l'.count '*' = (c :: l).count '*' →
      FlagsRead fmt rest l' (f.processPrecision V) ap) :
    FlagsRead fmt rest (c :: l) f ap := by
  obtain ⟨V, ds, l', rfl, hstar, hlong, hnumber, hnumber', hscan⟩ :=
    @scanNumber_eq fmt rest hstop l (chr c - chr '0')
  have hne : ∀ d, d.isDigit = false → c ≠ d := by
    rintro d hd rfl
    exact Bool.false_ne_true (hd.symm.trans hdigit)
  have hcount : (c :: (ds ++ l')).count '*' = l'.count '*' := by
    rw [List.count_cons_of_ne (hne '*' (by decide)), List.count_append, hstar, Nat.zero_add]
  have hcount' : (c :: (ds ++ l')).count 'l' = l'.count 'l' := by
    rw [List.count_cons_of_ne (hne 'l' (by decide)), List.count_append, hlong, Nat.zero_add]
  have hlength : (c :: (ds ++ l')).length = l'.length + ds.length + 1 := by
    rw [List.length_cons, List.length_append, Nat.add_comm l'.length]
  obtain ⟨F, hF, hswitch, hswitch', hptr⟩ := h V ds l' rfl hcount.symm
  rw [processPrecision_lflag] at hF
  unfold FlagsRead
  rw [hcount, hcount', hlength]
  refine ⟨F, hF, fun n hn => ?_, fun n hn => ?_, fun n i hn hrest => ?_⟩
  · obtain ⟨n, rfl⟩ : ∃ m, n = m + 1 := ⟨n - 1, by omega⟩
    have hrun := hswitch n (by omega)
    rw [List.cons_append, fmtSwitch, if_neg hminus, if_neg hzero, if_pos hdigit, hnumber]
    exact hrun
  · obtain ⟨n, rfl⟩ : ∃ m, n = m + 1 := ⟨n - 1, by omega⟩
    have hrun := hswitch' n (by omega)
    rw [fmtSwitch, if_neg hminus, if_neg hzero, if_pos hdigit, hnumber']
    exact hrun
  · obtain ⟨n, rfl⟩ : ∃ m, n = m + 1 := ⟨n - 1, by omega⟩
    have hrest : Rest fmt i (c :: (ds ++ l' ++ rest)) := hrest
    have hfirst : (0 : BitVec 32) * 10 + chr c - chr '0' = chr c - chr '0' := by bv_omega
    have hnum := hscan n (i + 1) 0 c hfirst (by rw [List.length_append]; omega) hrest.next
    have hplace : i + (l'.length + ds.length + 1) + 1 = i + 1 + ds.length + l'.length + 1 := by
      omega
    have hnext : Rest fmt (i + 1 + ds.length) (l' ++ rest) := by
      refine Rest.append (l := ds) ?_
      rw [← List.append_assoc]
      exact hrest.next
    rw [scanSwitch, hrest.char]
    change (if c = '-' then _ else _) = _
    rw [if_neg hminus, if_neg hzero, if_pos hdigit, hnum, hplace]
    exact hptr n (i + 1 + ds.length) (by omega) hnext

end Flags

/-- **The flags of an escape**, one after the other: the induction is on their number, since a
number is passed as a whole. -/
theorem scanSwitch_eq {fmt rest : List Char} (hstop : Stops rest) :
    ∀ (N : ℕ) (l : List Char), l.length ≤ N → (∀ c ∈ l, isFlag c = true) →
    ∀ (f : FmtFlags) (ap : List (BitVec 32)), l.count '*' ≤ ap.length →
    FlagsRead fmt rest l f ap := by
  intro N
  induction N with
  | zero =>
      intro l hl _ f ap _
      obtain rfl : l = [] := List.eq_nil_of_length_eq_zero (Nat.le_zero.1 hl)
      exact .nil hstop
  | succ N ih =>
      intro l hl hflags f ap hstars
      cases l with
      | nil => exact .nil hstop
      | cons c l =>
          have hlen : l.length ≤ N := Nat.le_of_succ_le_succ hl
          have hrestflags : ∀ d ∈ l, isFlag d = true :=
            fun d hd => hflags d (List.mem_cons_of_mem c hd)
          rcases isFlag_cases (hflags c List.mem_cons_self)
            with rfl | rfl | ⟨hdigit, hminus, hzero⟩ | rfl | rfl | rfl | rfl
          · refine (ih l hlen hrestflags { f with padc := '-' } ap hstars).single rfl rfl
              (fun _ _ => rfl) fun n i h => ?_
            rw [scanSwitch, h]
            rfl
          · refine (ih l hlen hrestflags { f with padc := '0' } ap hstars).single rfl rfl
              (fun _ _ => rfl) fun n i h => ?_
            rw [scanSwitch, h]
            rfl
          · refine .number hstop hdigit hminus hzero fun V ds l' hl hcount => ?_
            subst hl
            rw [List.length_append] at hlen
            exact ih l' (by omega) (fun d hd => hrestflags d (List.mem_append_right ds hd))
              (f.processPrecision V) ap (hcount ▸ hstars)
          · have hstars' : l.count '*' + 1 ≤ ap.length := by rwa [List.count_cons_self] at hstars
            cases ap with
            | nil => exact absurd hstars' (Nat.not_succ_le_zero _)
            | cons precision ap =>
                refine (ih l hlen hrestflags (f.processPrecision precision) ap
                  (Nat.le_of_succ_le_succ hstars')).single ?_ ?_ (fun _ _ => rfl)
                  fun n i h => ?_
                · rw [processPrecision_lflag]
                  rfl
                · rw [List.count_cons_self]
                  rfl
                · rw [scanSwitch, h]
                  rfl
          · refine (ih l hlen hrestflags (if f.width.slt 0 then { f with width := 0 } else f) ap
              hstars).single ?_ rfl (fun _ _ => rfl)
              fun n i h => ?_
            · split <;> rfl
            · rw [scanSwitch, h]
              rfl
          · refine (ih l hlen hrestflags { f with altflag := true } ap hstars).single rfl rfl
              (fun _ _ => rfl) fun n i h => ?_
            rw [scanSwitch, h]
            rfl
          · refine (ih l hlen hrestflags { f with lflag := f.lflag + 1 } ap hstars).single ?_ rfl
              (fun _ _ => rfl) fun n i h => ?_
            · rw [List.count_cons_self]
              dsimp only
              omega
            · rw [scanSwitch, h]
              rfl

/-- **The pointer is moved back** over what stands behind a `%`, and stops there. -/
theorem scanBack_eq {fmt l rest : List Char} {i : ℕ} (h : Rest fmt i ('%' :: (l ++ rest)))
    (hl : '%' ∉ l) :
    ∀ k n : ℕ, k ≤ l.length → k < n → scanBack fmt n (i + 1 + k) = .ok (i + 1) := by
  intro k
  induction k with
  | zero =>
      intro n _ hn
      obtain ⟨n, rfl⟩ : ∃ m, n = m + 1 := ⟨n - 1, by omega⟩
      rw [Nat.add_zero, scanBack, h.char]
      rfl
  | succ k ih =>
      intro n hk hn
      obtain ⟨n, rfl⟩ : ∃ m, n = m + 1 := ⟨n - 1, by omega⟩
      have hchar : readFmt fmt (i + 1 + k) = .ok l[k] := by
        have hget : fmt[i + 1 + k]? = some l[k] := by
          rw [← List.getElem?_drop, h.next.2, List.getElem?_append_left (by omega),
            List.getElem?_eq_getElem (by omega)]
        rw [readFmt, hget]
        rfl
      have hne : l[k] ≠ '%' := fun hc => hl (hc ▸ List.getElem_mem _)
      rw [← Nat.add_assoc, scanBack, hchar]
      exact (if_pos hne).trans (ih n (by omega) (by omega))

/-! ### Escapes -/

theorem dropWhile_stops (fmt : List Char) : Stops (fmt.dropWhile isFlag) := by
  have h := List.head?_dropWhile_not isFlag fmt
  unfold Stops
  cases hhead : (fmt.dropWhile isFlag).head? with
  | none => decide
  | some c =>
      rw [hhead] at h
      exact h

/-- **What a `%` begins**: flags and a conversion, or an escape that is not recognized. -/
theorem escape_cases (fmt : List Char) :
    ∃ flags tail, fmt = flags ++ tail ∧ (∀ c ∈ flags, isFlag c = true) ∧ Stops tail ∧
    ((∃ c rest, tail = c :: rest ∧ isConversion c = true ∧
      escape fmt = (.directive flags c, rest)) ∨
      (isConversion (tail.head?.getD '\x00') = false ∧
        escape fmt = (.unrecognized (flags ++ tail.take 1), tail.tail))) := by
  refine ⟨fmt.takeWhile isFlag, fmt.dropWhile isFlag, List.takeWhile_append_dropWhile.symm,
    fun c hc => (List.all_eq_true.1 List.all_takeWhile) c hc,
    dropWhile_stops fmt, ?_⟩
  unfold escape
  cases fmt.dropWhile isFlag with
  | nil => exact Or.inr ⟨by decide, by rw [List.take_nil, List.append_nil]; rfl⟩
  | cons c rest =>
      dsimp only
      cases hc : isConversion c with
      | true => exact Or.inl ⟨c, rest, rfl, hc, rfl⟩
      | false => exact Or.inr ⟨hc, rfl⟩

/-- What is printed again has no `%`, and no `*` behind the flags. -/
theorem unrecognized_text {flags tail : List Char} (hflags : ∀ c ∈ flags, isFlag c = true)
    (hstop : Stops tail) (hconv : isConversion (tail.head?.getD '\x00') = false) :
    '%' ∉ flags ++ tail.take 1 ∧ (flags ++ tail.take 1).count '*' = flags.count '*' := by
  have hpercent : '%' ∉ flags := fun hc => absurd (hflags '%' hc) (by decide)
  cases tail with
  | nil =>
      rw [List.take_nil, List.append_nil]
      exact ⟨hpercent, rfl⟩
  | cons c rest =>
      have hconv : isConversion c = false := hconv
      have hstop : isFlag c = false := hstop
      have hc : c ≠ '%' := by
        rintro rfl
        exact absurd hconv (by decide)
      have hstar : c ≠ '*' := by
        rintro rfl
        exact absurd hstop (by decide)
      refine ⟨fun hmem => ?_, ?_⟩
      · rcases List.mem_append.1 hmem with hmem | hmem
        · exact hpercent hmem
        · exact hc (List.mem_singleton.1 hmem).symm
      · rw [List.count_append, List.take_succ_cons, List.take_zero, List.count_cons_of_ne hstar,
          List.count_nil, Nat.add_zero]

/-- How a piece is made up, with the pieces behind it: an escape that is not recognized ends with
the first character that is neither a flag nor a conversion, or it is the last piece. -/
def Piece.Formed (ps : List Piece) : Piece → Prop
  | plain c => c ≠ '%'
  | directive flags c => (∀ d ∈ flags, isFlag d = true) ∧ isConversion c = true
  | unrecognized text => ((∀ d ∈ text, isFlag d = true) ∧ ps = []) ∨
      ∃ flags c, text = flags ++ [c] ∧ (∀ d ∈ flags, isFlag d = true) ∧ isFlag c = false ∧
        isConversion c = false

/-- How a format is made up. -/
def Formed : List Piece → Prop
  | [] => True
  | p :: ps => p.Formed ps ∧ Formed ps

theorem escape_formed (fmt : List Char) : (escape fmt).1.Formed (pieces (escape fmt).2) := by
  obtain ⟨flags, tail, -, hflags, hstop, ⟨c, rest, -, hconv, hesc⟩ | ⟨hconv, hesc⟩⟩ :=
    escape_cases fmt
  · rw [hesc]
    exact ⟨hflags, hconv⟩
  · rw [hesc]
    cases tail with
    | nil =>
        left
        rw [List.take_nil, List.append_nil]
        exact ⟨hflags, by rw [List.tail_nil, pieces]⟩
    | cons c rest => exact Or.inr ⟨flags, c, rfl, hflags, hstop, hconv⟩

theorem pieces_formed (fmt : List Char) : Formed (pieces fmt) := by
  induction fmt using pieces.induct with
  | case1 =>
      rw [pieces]
      exact True.intro
  | case2 c fmt hc ih =>
      rw [pieces, if_pos hc]
      exact ⟨hc, ih⟩
  | case3 c fmt hc ih =>
      rw [pieces, if_neg hc]
      exact ⟨escape_formed fmt, ih⟩

/-! ### The run -/

section Run

variable {load : BitVec 32 → Except PrintStop (BitVec 8)}

theorem pieces_plain {l : List Char} (h : '%' ∉ l) (rest : List Char) :
    pieces (l ++ rest) = l.map .plain ++ pieces rest := by
  induction l with
  | nil => rfl
  | cons c l ih =>
      rw [List.mem_cons, not_or] at h
      rw [List.cons_append, pieces, if_pos (Ne.symm h.1), ih h.2]
      rfl

theorem printPieces_plain (l : List Char) (ps : List Piece) (ap : List (BitVec 32)) :
    printPieces load (l.map .plain ++ ps) ap = printPieces load ps ap >>= fun outs =>
      pure (l.map (fun c => [chr c]) ++ outs) := by
  induction l with
  | nil => exact (bind_pure _).symm
  | cons c l ih =>
      rw [List.map_cons, List.cons_append, printPieces, Piece.print, pure_bind]
      dsimp only
      rw [ih]
      cases printPieces load ps ap <;> rfl

theorem words_plain (l : List Char) (ps : List Piece) :
    ((l.map Piece.plain ++ ps).map Piece.words).sum = (ps.map Piece.words).sum := by
  induction l with
  | nil => rfl
  | cons c l ih => simpa [Piece.words] using ih

theorem stringArgs_plain (l : List Char) (ps : List Piece) (ap : List (BitVec 32)) :
    stringArgs (l.map Piece.plain ++ ps) ap = stringArgs ps ap := by
  induction l with
  | nil => rfl
  | cons c l ih => exact ih

theorem flatten_plain (l : List Char) (outs : List (List (BitVec 32))) :
    (l.map (fun c => [chr c]) ++ outs).flatten = l.map chr ++ outs.flatten := by
  induction l with
  | nil => rfl
  | cons c l ih => exact congrArg (List.cons (chr c)) ih

theorem ArgsFit.plain {l : List Char} {ps : List Piece} {ap : List (BitVec 32)}
    (h : ArgsFit load ps ap) :
    ArgsFit load (l.map Piece.plain ++ ps) ap :=
  ⟨by rw [words_plain]; exact h.enough, by rw [stringArgs_plain]; exact h.strings⟩

/-- The arguments that a piece leaves fit the others. -/
theorem ArgsFit.tail {p : Piece} {ps : List Piece} {ap : List (BitVec 32)}
    (h : ArgsFit load (p :: ps) ap) :
    p.words ≤ ap.length ∧ (∀ a ∈ p.strings ap, a = 0 ∨ Terminated fun k =>
      load (a + BitVec.ofNat 32 k)) ∧ ArgsFit load ps (ap.drop p.words) := by
  have henough := h.enough
  rw [List.map_cons, List.sum_cons] at henough
  refine ⟨by omega, fun a ha => h.strings a (List.mem_append_left _ ha),
    ⟨?_, fun a ha => h.strings a (List.mem_append_right _ ha)⟩⟩
  rw [List.length_drop]
  omega

section Rounds

variable {fmt rest r : List Char} {n i j k : ℕ} {ap ap' ap'' out out' : List (BitVec 32)}
    {F : FmtFlags} {c : Char} {conv : Option Char}

theorem scanFrom_plain (h : readFmt fmt i = .ok c) (hc : c ≠ '%') (hzero : c ≠ '\x00')
    (hrest : scanFrom fmt load n (i + 1) ap = .ok out) :
    scanFrom fmt load (n + 1) i ap = .ok (chr c :: out) := by
  rw [scanFrom, h]
  change (if c ≠ '%' then (if c = '\x00' then _ else scanFrom fmt load n (i + 1) ap >>= _) else _) =
    _
  rw [if_pos hc, if_neg hzero, hrest]
  rfl

theorem scanFrom_directive (h : readFmt fmt i = .ok '%')
    (hswitch : scanSwitch fmt (fmt.length + 1) .start ap (i + 1) = .ok (F, ap', c, j))
    (hconv : fmtConversion load F ap' c = some (.ok (out, ap'')))
    (hroom : convArgs F.lflag c ≤ ap'.length) (hrest : scanFrom fmt load n j ap'' = .ok out') :
    scanFrom fmt load (n + 1) i ap = .ok (out ++ out') := by
  rw [scanFrom, h]
  change scanSwitch fmt (fmt.length + 1) .start ap (i + 1) >>= _ = _
  rw [hswitch]
  change (match fmtConversion load F ap' c with | some x => _ | none => _) = _
  rw [hconv]
  dsimp only
  rw [if_neg (Nat.not_lt.2 hroom)]
  change scanFrom fmt load n j ap'' >>= _ = _
  rw [hrest]
  rfl

theorem scanFrom_unrecognized (h : readFmt fmt i = .ok '%')
    (hswitch : scanSwitch fmt (fmt.length + 1) .start ap (i + 1) = .ok (F, ap', c, j))
    (hconv : fmtConversion load F ap' c = none)
    (hback : scanBack fmt (fmt.length + 1) (j - 1) = .ok k)
    (hrest : scanFrom fmt load n k ap' = .ok out) :
    scanFrom fmt load (n + 1) i ap = .ok (chr '%' :: out) := by
  rw [scanFrom, h]
  change scanSwitch fmt (fmt.length + 1) .start ap (i + 1) >>= _ = _
  rw [hswitch]
  change (match fmtConversion load F ap' c with | some x => _ | none => _) = _
  rw [hconv]
  change scanBack fmt (fmt.length + 1) (j - 1) >>= _ = _
  rw [hback]
  change scanFrom fmt load n k ap' >>= _ = _
  rw [hrest]
  rfl

theorem vprintfmtFrom_directive
    (hswitch : fmtSwitch (rest.length + 1) .start ap rest = (F, ap', some c, r))
    (hconv : fmtConversion load F ap' c = some (.ok (out, ap'')))
    (hrest : vprintfmtFrom load n r ap'' = .ok out') :
    vprintfmtFrom load (n + 1) ('%' :: rest) ap = .ok (out ++ out') := by
  rw [vprintfmtFrom, if_neg (not_not_intro rfl), hswitch]
  change (match fmtConversion load F ap' c with | some x => _ | none => _) = _
  rw [hconv]
  change vprintfmtFrom load n r ap'' >>= _ = _
  rw [hrest]
  rfl

theorem vprintfmtFrom_unrecognized
    (hswitch : fmtSwitch (rest.length + 1) .start ap rest = (F, ap', conv, r))
    (hconv : conv.bind (fmtConversion load F ap') = none)
    (hrest : vprintfmtFrom load n rest ap' = .ok out) :
    vprintfmtFrom load (n + 1) ('%' :: rest) ap = .ok (chr '%' :: out) := by
  rw [vprintfmtFrom, if_neg (not_not_intro rfl), hswitch]
  change (match conv.bind (fmtConversion load F ap') with | some x => _ | none => _) = _
  rw [hconv]
  change vprintfmtFrom load n rest ap' >>= _ = _
  rw [hrest]
  rfl

end Rounds

/-- **The run prints the pieces**, from a place in the format on: it ends, and so does the one of
the model with lists. -/
def PrintsFrom (load : BitVec 32 → Except PrintStop (BitVec 8)) (fmt : List Char) (n i : ℕ)
    (rest : List Char) (ap : List (BitVec 32)) : Prop :=
  ∃ outs, printPieces load (pieces rest) ap = .ok outs ∧
    scanFrom fmt load n i ap = .ok outs.flatten ∧
    vprintfmtFrom load n rest ap = .ok outs.flatten

section Steps

variable {fmt rest flags tail : List Char} {n i : ℕ} {ap : List (BitVec 32)} {c : Char}

/-- An ordinary character. -/
theorem PrintsFrom.plain (hrest : Rest fmt i (c :: rest)) (hc : c ≠ '%') (hzero : c ≠ '\x00')
    (h : PrintsFrom load fmt n (i + 1) rest ap) :
    PrintsFrom load fmt (n + 1) i (c :: rest) ap := by
  obtain ⟨outs, hprint, hscan, hlist⟩ := h
  refine ⟨[chr c] :: outs, ?_, scanFrom_plain hrest.char hc hzero hscan, ?_⟩
  · rw [pieces, if_pos hc, printPieces, Piece.print, pure_bind]
    dsimp only
    rw [hprint]
    rfl
  · rw [vprintfmtFrom, if_pos hc, hlist]
    rfl

/-- The flags of an escape are fewer than the characters of the format. -/
theorem Rest.flags_lt (hrest : Rest fmt i ('%' :: (flags ++ tail))) :
    flags.length < fmt.length + 1 := by
  have hdrop := congrArg List.length hrest.2
  rw [List.length_drop, List.length_cons, List.length_append] at hdrop
  omega

/-- A directive. -/
theorem PrintsFrom.directive (hrest : Rest fmt i ('%' :: (flags ++ c :: rest)))
    (hesc : escape (flags ++ c :: rest) = (.directive flags c, rest))
    (hflags : ∀ c ∈ flags, isFlag c = true) (hstop : Stops (c :: rest))
    (hconv : isConversion c = true)
    (hfit : ArgsFit load (.directive flags c :: pieces rest) ap)
    (h : PrintsFrom load fmt n (i + 1 + flags.length + 1) rest
      (ap.drop (Piece.directive flags c).words)) :
    PrintsFrom load fmt (n + 1) i ('%' :: (flags ++ c :: rest)) ap := by
  obtain ⟨hwords, hstrings, -⟩ := hfit.tail
  have hwords : flags.count '*' + convArgs (flags.count 'l') c ≤ ap.length := hwords
  obtain ⟨F, hF, hswitch, hswitch', hptr⟩ :=
    scanSwitch_eq hstop flags.length flags (Nat.le_refl _) hflags .start ap (by omega)
  have hF : F.lflag = flags.count 'l' := hF.trans (Nat.zero_add _)
  have hstr : c = 's' → (ap.drop (flags.count '*')).headD 0 = 0 ∨ Terminated fun k =>
      load ((ap.drop (flags.count '*')).headD 0 + BitVec.ofNat 32 k) :=
    fun hs => hstrings _ (by rw [Piece.strings, if_pos hs]; exact List.mem_singleton_self _)
  obtain ⟨out, hout⟩ := @fmtConversion_ends load F _ c hconv hstr
  have hleft : (ap.drop (flags.count '*')).drop (convArgs F.lflag c) = ap.drop
      (Piece.directive flags c).words := by
    rw [List.drop_drop, hF]
    rfl
  have hroom : convArgs F.lflag c ≤ (ap.drop (flags.count '*')).length := by
    rw [List.length_drop, hF]
    omega
  have hfuel : flags.length < (flags ++ c :: rest).length + 1 := by
    rw [List.length_append]
    omega
  rw [hleft] at hout
  obtain ⟨outs, hprint, hscan, hlist⟩ := h
  refine ⟨out :: outs, ?_, scanFrom_directive hrest.char (hptr _ (i + 1) hrest.flags_lt hrest.next)
    hout hroom hscan,
    vprintfmtFrom_directive (hswitch _ hfuel) hout hlist⟩
  rw [pieces, if_neg (not_not_intro rfl), hesc, printPieces, Piece.print,
    hswitch' _ (Nat.lt_succ_self _)]
  dsimp only
  rw [hout]
  change printPieces load (pieces rest) _ >>= _ = _
  rw [hprint]
  rfl

/-- An escape that is not recognized: what stands behind the `%` is read again. -/
theorem PrintsFrom.unrecognized (hrest : Rest fmt i ('%' :: (flags ++ tail)))
    (hesc : escape (flags ++ tail) = (.unrecognized (flags ++ tail.take 1), tail.tail))
    (hflags : ∀ c ∈ flags, isFlag c = true) (hstop : Stops tail)
    (hconv : isConversion (tail.head?.getD '\x00') = false) (hstars : flags.count '*' ≤ ap.length)
    (h : PrintsFrom load fmt n (i + 1) (flags ++ tail) (ap.drop (flags.count '*'))) :
    PrintsFrom load fmt (n + 1) i ('%' :: (flags ++ tail)) ap := by
  obtain ⟨hpercent, hcount⟩ := unrecognized_text hflags hstop hconv
  obtain ⟨F, -, hswitch, -, hptr⟩ :=
    scanSwitch_eq hstop flags.length flags (Nat.le_refl _) hflags .start ap hstars
  have hnone : fmtConversion load F (ap.drop (flags.count '*')) (tail.head?.getD '\x00') = none :=
    fmtConversion_none hconv
  have hback : scanBack fmt (fmt.length + 1) (i + 1 + flags.length + 1 - 1) = .ok (i + 1) :=
    scanBack_eq hrest (fun hmem => hpercent (List.mem_append_left _ hmem)) flags.length
      (fmt.length + 1) (Nat.le_refl _) hrest.flags_lt
  have hbind : tail.head?.bind (fmtConversion load F (ap.drop (flags.count '*'))) = none :=
    fmtConversion_head hnone
  have hfuel : flags.length < (flags ++ tail).length + 1 := by
    rw [List.length_append]
    omega
  have hsplit : flags ++ tail = flags ++ tail.take 1 ++ tail.tail := by
    rw [List.append_assoc, ← List.drop_one, List.take_append_drop]
  obtain ⟨outs, hprint, hscan, hlist⟩ := h
  -- the characters of the escape are ordinary ones now
  rw [hsplit, pieces_plain hpercent, printPieces_plain] at hprint
  obtain ⟨outs', hprint', houts⟩ := bind_eq_ok.1 hprint
  obtain rfl := Except.ok.inj houts
  rw [flatten_plain] at hscan hlist
  refine ⟨('%' :: (flags ++ tail.take 1)).map chr :: outs', ?_,
    scanFrom_unrecognized hrest.char (hptr _ (i + 1) hrest.flags_lt hrest.next) hnone hback hscan,
    vprintfmtFrom_unrecognized (hswitch _ hfuel) hbind hlist⟩
  rw [pieces, if_neg (not_not_intro rfl), hesc, printPieces, Piece.print, pure_bind, hcount]
  dsimp only
  rw [hprint']
  rfl

end Steps

/-- **The run from any place in the format** prints the pieces from there on: by induction on the
rounds, one case for each kind of piece. -/
theorem scanFrom_eq {fmt : List Char} (hnul : '\x00' ∉ fmt) :
    ∀ (n i : ℕ) (rest : List Char) (ap : List (BitVec 32)), Rest fmt i rest →
    rest.length < n → ArgsFit load (pieces rest) ap → PrintsFrom load fmt n i rest ap := by
  intro n
  induction n with
  | zero => exact fun i rest ap _ hn => absurd hn (Nat.not_lt_zero _)
  | succ n ih =>
      intro i rest ap hrest hn hfit
      cases rest with
      | nil =>
          refine ⟨[], by rw [pieces]; rfl, ?_, rfl⟩
          rw [scanFrom, hrest.nul]
          rfl
      | cons c rest =>
          have hlen : rest.length < n := Nat.lt_of_succ_lt_succ hn
          by_cases hc : c ≠ '%'
          · rw [pieces, if_pos hc] at hfit
            have hzero : c ≠ '\x00' := by
              rintro rfl
              refine hnul ?_
              rw [← List.take_append_drop i fmt, hrest.2]
              exact List.mem_append_right _ List.mem_cons_self
            exact .plain hrest hc hzero (ih (i + 1) rest ap hrest.next hlen hfit.tail.2.2)
          · obtain rfl := not_not.1 hc
            rw [pieces, if_neg hc] at hfit
            obtain ⟨flags, tail, rfl, hflags, hstop, hcase⟩ := escape_cases rest
            rw [List.length_append] at hlen
            rcases hcase with ⟨c, rest, rfl, hconv, hesc⟩ | ⟨hconv, hesc⟩
            · rw [hesc] at hfit
              refine .directive hrest hesc hflags hstop hconv hfit
                (ih _ rest _ hrest.next.append.next ?_ hfit.tail.2.2)
              rw [List.length_cons] at hlen
              omega
            · rw [hesc] at hfit
              obtain ⟨hpercent, hcount⟩ := unrecognized_text hflags hstop hconv
              obtain ⟨hstars, -, hfit⟩ := hfit.tail
              have hstars : (flags ++ tail.take 1).count '*' ≤ ap.length := hstars
              have hfit : ArgsFit load (pieces tail.tail)
                  (ap.drop ((flags ++ tail.take 1).count '*')) := hfit
              rw [hcount] at hstars hfit
              have hsplit : flags ++ tail = flags ++ tail.take 1 ++ tail.tail := by
                rw [List.append_assoc, ← List.drop_one, List.take_append_drop]
              refine .unrecognized hrest hesc hflags hstop hconv hstars
                (ih (i + 1) (flags ++ tail) _ hrest.next ?_ ?_)
              · rw [List.length_append]
                exact hlen
              · rw [hsplit, pieces_plain hpercent]
                exact hfit.plain

theorem printPieces_literal :
    ∀ {ps : List Piece} {ap : List (BitVec 32)} {outs : List (List (BitVec 32))},
      printPieces load ps ap = .ok outs →
    List.Forall₂ (fun p out => p.Literal → out = p.text.map chr) ps outs := by
  intro ps
  induction ps with
  | nil =>
      intro ap outs h
      obtain rfl := Except.ok.inj h
      exact .nil
  | cons p ps ih =>
      intro ap outs h
      rw [printPieces] at h
      obtain ⟨⟨out, ap'⟩, hout, h⟩ := bind_eq_ok.1 h
      obtain ⟨outs', houts, h⟩ := bind_eq_ok.1 h
      obtain rfl := Except.ok.inj h
      refine .cons (fun hlit => ?_) (ih houts)
      cases p with
      | plain c =>
          cases hout
          rfl
      | directive flags c => exact hlit.elim
      | unrecognized text =>
          cases hout
          rfl

end Run

/-- **The model with lists** prints the same. -/
theorem scanFormat_eq_vprintfmt {load : BitVec 32 → Except PrintStop (BitVec 8)} {fmt : String}
    {ap : List (BitVec 32)} (hnul : '\x00' ∉ fmt.toList)
    (hfit : ArgsFit load (pieces fmt.toList) ap) :
    ∃ out, scanFormat load (fmt.toList.length + 1) fmt.toList ap = .ok out ∧
      vprintfmt load fmt ap = .ok out := by
  obtain ⟨outs, -, hscan, hlist⟩ := scanFrom_eq hnul (fmt.toList.length + 1) 0 fmt.toList ap
    ⟨Nat.zero_le _, rfl⟩ (Nat.lt_succ_self _) hfit
  exact ⟨_, hscan, hlist⟩

/-- **Formats are read to their end**, in as many rounds as they have characters, and one more:
nothing behind the zero byte is read, and the output is that of the pieces in their order, where
ordinary characters and the escapes that are not recognized stand as they are written. -/
theorem scanFormat_pieces {load : BitVec 32 → Except PrintStop (BitVec 8)} {fmt : List Char}
    {ap : List (BitVec 32)} {fuel : ℕ} (hnul : '\x00' ∉ fmt) (hfit : ArgsFit load (pieces fmt) ap)
    (hfuel : fmt.length < fuel) :
    (pieces fmt).flatMap Piece.text = fmt ∧ Formed (pieces fmt) ∧ ∃ outs,
      scanFormat load fuel fmt ap = .ok outs.flatten ∧
      List.Forall₂ (fun p out => p.Literal → out = p.text.map chr) (pieces fmt) outs := by
  obtain ⟨outs, hprint, hscan, -⟩ := scanFrom_eq hnul fuel 0 fmt ap ⟨Nat.zero_le _, rfl⟩ hfuel hfit
  exact ⟨pieces_text fmt, pieces_formed fmt, outs, hscan, printPieces_literal hprint⟩

/-- An escape that is not recognized, a number, and an escape that the end cuts off. -/
theorem scanFormat_pieces_mixed :
    '\x00' ∉ "%-5q%d%l".toList ∧ ArgsFit (fun _ => .error .endless) (pieces "%-5q%d%l".toList) [7] ∧
    "%-5q%d%l".toList.length < 9 ∧ (pieces "%-5q%d%l".toList).flatMap
      Piece.text = "%-5q%d%l".toList ∧ Formed (pieces "%-5q%d%l".toList) ∧
    ∃ outs, scanFormat (fun _ => .error .endless) 9 "%-5q%d%l".toList [7] = .ok outs.flatten ∧
      List.Forall₂ (fun p out => p.Literal → out = p.text.map chr) (pieces "%-5q%d%l".toList)
        outs :=
  have hpieces : pieces "%-5q%d%l".toList = [.unrecognized ['-', '5', 'q'], .directive [] 'd',
      .unrecognized ['l']] := by
    simp [pieces, escape, isFlag, isConversion]
  have hfit : ArgsFit (fun _ => .error .endless) (pieces "%-5q%d%l".toList) [7] := by
    rw [hpieces]
    exact ⟨by decide, fun p hp => absurd hp (List.not_mem_nil)⟩
  ⟨by decide, hfit, by decide, scanFormat_pieces (by decide) hfit (by decide)⟩

example : scanFormat (fun _ => .error .endless) 9 "%-5q%d%l".toList
    [7] = .ok ("%-5q7%l".toList.map chr) := by decide

end Jos
