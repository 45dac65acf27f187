/-
**Numbers read from text.**

`strtol` of `lib/string.c` skips blanks, takes a sign and the prefix of a base, and reads digits as
long as they are digits of the base. On a string it is a function of the text, and it reads back
what the conversions of `vprintfmt` print: modulo `2 ^ 32`, and up to the last digit. The padding
can be in the way: blanks come behind a sign and behind `0x`, and there they end the number.

Main definitions:

* `Jos.strtol` — the function;
* `Jos.readNumber` — what it makes of a text;
* `Jos.DigitText` — the digits of a number, which may have zeros in front.

Main results:

* `Jos.strtol_str` — `strtol` on a string, whatever is in it;
* `Jos.number_reads` — the conversions of numbers print what can be read back;
* `Jos.snprintf_strtol` — **the round trip**: a number that is printed into a buffer is read back
  from it.
-/

import JosKernel.PrintBuffers
import JosKernel.PrintNum

set_option relaxedAutoImplicit false
set_option autoImplicit false

namespace Jos

open CString Numerals

/-! ### The function -/

/-- The byte of a character. -/
def byteOf (c : Char) : BitVec 8 := charByte (chr c)

/-- `*s == ' ' || *s == '\\t'`. -/
def isBlank (c : BitVec 8) : Bool := c = byteOf ' ' ∨ c = byteOf '\t'

/-- `dig`, if the byte is a digit of some base; a byte from 128 on, which is negative as a `char`,
is none either way. -/
def strtolDigit (c : BitVec 8) : Option ℕ :=
  if byteOf '0' ≤ c ∧ c ≤ byteOf '9' then some (c.toNat - (byteOf '0').toNat)
  else if byteOf 'a' ≤ c ∧ c ≤ byteOf 'z' then some (c.toNat - (byteOf 'a').toNat + 10)
  else if byteOf 'A' ≤ c ∧ c ≤ byteOf 'Z' then some (c.toNat - (byteOf 'A').toNat + 10)
  else none

/-- The loop that gobbles initial white space. -/
def skipBlanks (m : BitVec 32 → BitVec 8) : ℕ → BitVec 32 → Option (BitVec 32)
  | 0, _ => none
  | fuel + 1, s => if isBlank (m s) then skipBlanks m fuel (s + 1) else some s

/-- The sign, and the place behind it. -/
def strtolSign (m : BitVec 32 → BitVec 8) (s : BitVec 32) : Bool × BitVec 32 :=
  if m s = byteOf '+' then (false, s + 1) else if m s = byteOf '-' then (true, s + 1)
    else (false, s)

/-- The base, and the place behind its prefix. -/
def strtolBase (m : BitVec 32 → BitVec 8) (s : BitVec 32) (base : ℕ) : ℕ × BitVec 32 :=
  if (base = 0 ∨ base = 16) ∧ m s = byteOf '0' ∧ m (s + 1) = byteOf 'x' then (16, s + 1 + 1)
  else if base = 0 ∧ m s = byteOf '0' then (8, s + 1)
  else if base = 0 then (10, s)
  else (base, s)

/-- The loop over the digits. -/
def strtolDigits (m : BitVec 32 → BitVec 8) (base : ℕ) :
    ℕ → BitVec 32 → BitVec 32 → Option (BitVec 32 × BitVec 32)
  | 0, _, _ => none
  | fuel + 1, s, val =>
      match strtolDigit (m s) with
      | none => some (val, s)
      | some dig =>
          if base ≤ dig then some (val, s) else strtolDigits m base fuel (s + 1)
            (val * BitVec.ofNat 32 base + BitVec.ofNat 32 dig)

/-- **`strtol(s, &end, base)`**: the number and `end`. -/
def strtol (m : BitVec 32 → BitVec 8) (s : BitVec 32) (base : ℕ) :
    Option (BitVec 32 × BitVec 32) := do
  let s ← skipBlanks m (2 ^ 32) s
  let (neg, s) := strtolSign m s
  let (base, s) := strtolBase m s base
  let (val, s) ← strtolDigits m base (2 ^ 32) s 0
  pure (if neg then -val else val, s)

/-! ### On a text -/

/-- The sign of a text. -/
def readSign : List (BitVec 8) → Bool × List (BitVec 8)
  | [] => (false, [])
  | c :: l =>
      if c = byteOf '+' then (false, l) else if c = byteOf '-' then (true, l) else (false, c :: l)

/-- The base of a number, and what is behind its prefix. -/
def readBase (base : ℕ) : List (BitVec 8) → ℕ × List (BitVec 8)
  | c :: d :: l =>
      if (base = 0 ∨ base = 16) ∧ c = byteOf '0' ∧ d = byteOf 'x' then (16, l)
      else if base = 0 ∧ c = byteOf '0' then (8, d :: l)
      else if base = 0 then (10, c :: d :: l)
      else (base, c :: d :: l)
  | [c] =>
      if base = 0 ∧ c = byteOf '0' then (8, []) else if base = 0 then (10, [c]) else (base, [c])
  | [] => if base = 0 then (10, []) else (base, [])

/-- A digit of the base. -/
def isDigitOf (base : ℕ) (c : BitVec 8) : Bool := (strtolDigit c).any fun d => d < base

/-- The number of some digits, behind others. -/
def digitsFrom (base : ℕ) (val : BitVec 32) (l : List (BitVec 8)) : BitVec 32 :=
  l.foldl (fun val c => val * BitVec.ofNat 32 base + BitVec.ofNat 32 ((strtolDigit c).getD 0)) val

/-- **The number at the beginning of a text**, and what is behind it. -/
def readNumber (base : ℕ) (l : List (BitVec 8)) : BitVec 32 × List (BitVec 8) :=
  let (neg, l) := readSign (l.dropWhile isBlank)
  let (base, l) := readBase base l
  let val := digitsFrom base 0 (l.takeWhile (isDigitOf base))
  (if neg then -val else val, l.dropWhile (isDigitOf base))

section

variable {m : BitVec 32 → BitVec 8} {p q : BitVec 32} {l rest : List (BitVec 8)} {base : ℕ}

/-- **A place behind a part of a string**, with the rest of it. -/
def Reaches (p : BitVec 32) (l : List (BitVec 8)) (q : BitVec 32) (rest : List (BitVec 8)) : Prop :=
  ∃ pre, l = pre ++ rest ∧ q = p + BitVec.ofNat 32 pre.length

theorem Reaches.refl (p : BitVec 32) (l : List (BitVec 8)) : Reaches p l p l := ⟨[], rfl, by simp⟩

theorem Reaches.trans {r : BitVec 32} {rest' : List (BitVec 8)} (h : Reaches p l q rest)
    (h' : Reaches q rest r rest') : Reaches p l r rest' := by
  obtain ⟨pre, rfl, rfl⟩ := h
  obtain ⟨pre', rfl, rfl⟩ := h'
  exact ⟨pre ++ pre',
    (List.append_assoc ..).symm, by rw [List.length_append, BitVec.ofNat_add, BitVec.add_assoc]⟩

theorem Reaches.succ (p : BitVec 32) (c : BitVec 8) (l : List (BitVec 8)) :
    Reaches p (c :: l) (p + 1) l := ⟨[c], rfl, rfl⟩

theorem Reaches.str (h : Reaches p l q rest) (hstr : Str m p l) : Str m q rest := by
  obtain ⟨pre, rfl, rfl⟩ := h
  exact hstr.suffix

theorem Reaches.length_le (h : Reaches p l q rest) : rest.length ≤ l.length := by
  obtain ⟨pre, rfl, rfl⟩ := h
  rw [List.length_append]
  omega

theorem Reaches.place (h : Reaches p l q rest) :
    q = p + BitVec.ofNat 32 (l.length - rest.length) := by
  obtain ⟨pre, rfl, rfl⟩ := h
  rw [List.length_append, Nat.add_sub_cancel]

/-- The white space. -/
theorem skipBlanks_str (h : Str m p l) : ∀ {fuel : ℕ}, l.length < fuel →
    ∃ q, skipBlanks m fuel p = some q ∧ Reaches p l q (l.dropWhile isBlank) := by
  induction l generalizing p with
  | nil =>
      intro fuel hfuel
      cases fuel with
      | zero => simp at hfuel
      | succ fuel =>
          refine ⟨p, ?_, Reaches.refl p []⟩
          rw [skipBlanks, str_nil.1 h]
          rfl
  | cons c l ih =>
      intro fuel hfuel
      cases fuel with
      | zero => simp at hfuel
      | succ fuel =>
          obtain ⟨hc, -, hrest⟩ := h
          rw [skipBlanks, hc]
          cases hblank : isBlank c with
          | true =>
              obtain ⟨q, hq, hreach⟩ := ih hrest (Nat.lt_of_succ_lt_succ hfuel)
              rw [List.dropWhile_cons_of_pos hblank]
              exact ⟨q, hq, (Reaches.succ p c l).trans hreach⟩
          | false =>
              rw [List.dropWhile_cons_of_neg (by simp [hblank])]
              exact ⟨p, rfl, Reaches.refl p _⟩

/-- The sign. -/
theorem strtolSign_str (h : Str m p l) :
    ∃ q, strtolSign m p = ((readSign l).1, q) ∧ Reaches p l q (readSign l).2 := by
  cases l with
  | nil =>
      refine ⟨p, ?_, Reaches.refl p []⟩
      rw [strtolSign, str_nil.1 h]
      rfl
  | cons c l =>
      rw [strtolSign, h.1, readSign]
      split
      · exact ⟨p + 1, rfl, Reaches.succ p c l⟩
      · split
        · exact ⟨p + 1, rfl, Reaches.succ p c l⟩
        · exact ⟨p, rfl, Reaches.refl p _⟩

/-- The base. -/
theorem strtolBase_str (h : Str m p l) (base : ℕ) :
    ∃ q, strtolBase m p base = ((readBase base l).1, q) ∧ Reaches p l q (readBase base l).2 := by
  have hzero : (0 : BitVec 8) ≠ byteOf '0' ∧ (0 : BitVec 8) ≠ byteOf 'x' := by decide
  cases l with
  | nil =>
      rw [strtolBase, str_nil.1 h, if_neg fun hc => hzero.1 hc.2.1,
        if_neg fun hc => hzero.1 hc.2, readBase]
      split
      · exact ⟨p, rfl, Reaches.refl p []⟩
      · exact ⟨p, rfl, Reaches.refl p []⟩
  | cons c l =>
      obtain ⟨hc, -, hrest⟩ := h
      cases l with
      | nil =>
          rw [strtolBase, hc, str_nil.1 hrest, if_neg fun hx => hzero.2 hx.2.2, readBase]
          split
          · exact ⟨p + 1, rfl, Reaches.succ p c []⟩
          · split
            · exact ⟨p, rfl, Reaches.refl p _⟩
            · exact ⟨p, rfl, Reaches.refl p _⟩
      | cons d l =>
          rw [strtolBase, hc, hrest.1, readBase]
          split
          · exact ⟨p + 1 + 1, rfl, (Reaches.succ p c _).trans (Reaches.succ _ d l)⟩
          · split
            · exact ⟨p + 1, rfl, Reaches.succ p c _⟩
            · split
              · exact ⟨p, rfl, Reaches.refl p _⟩
              · exact ⟨p, rfl, Reaches.refl p _⟩

/-- The digits. -/
theorem strtolDigits_str (base : ℕ) (h : Str m p l) :
    ∀ {fuel : ℕ} (val : BitVec 32), l.length < fuel →
    ∃ q, strtolDigits m base fuel p val =
      some (digitsFrom base val (l.takeWhile (isDigitOf base)), q) ∧
      Reaches p l q (l.dropWhile (isDigitOf base)) := by
  induction l generalizing p with
  | nil =>
      intro fuel val hfuel
      cases fuel with
      | zero => simp at hfuel
      | succ fuel =>
          refine ⟨p, ?_, Reaches.refl p []⟩
          rw [strtolDigits, str_nil.1 h]
          rfl
  | cons c l ih =>
      intro fuel val hfuel
      cases fuel with
      | zero => simp at hfuel
      | succ fuel =>
          obtain ⟨hc, -, hrest⟩ := h
          rw [strtolDigits, hc]
          cases hdigit : isDigitOf base c with
          | true =>
              obtain ⟨d, hd, hlt⟩ := (Option.any_eq_true _ _).1 hdigit
              obtain ⟨q, hq, hreach⟩ := ih hrest (val * BitVec.ofNat 32 base + BitVec.ofNat 32 d)
                (Nat.lt_of_succ_lt_succ hfuel)
              rw [List.takeWhile_cons_of_pos hdigit, List.dropWhile_cons_of_pos hdigit]
              refine ⟨q, ?_, (Reaches.succ p c l).trans hreach⟩
              rw [hd]
              dsimp only
              rw [if_neg (by simpa using hlt), hq, digitsFrom, digitsFrom, List.foldl_cons, hd]
              rfl
          | false =>
              rw [List.takeWhile_cons_of_neg (by simp [hdigit]),
                List.dropWhile_cons_of_neg (by simp [hdigit])]
              refine ⟨p, ?_, Reaches.refl p _⟩
              cases hd : strtolDigit c with
              | none => rfl
              | some d =>
                  have hle : base ≤ d := by simpa [isDigitOf, hd] using hdigit
                  exact if_pos hle

/-- **`strtol` on a string**: the number at its beginning, and the place behind it. -/
theorem strtol_str (h : Str m p l) (hlen : l.length < 2 ^ 32) (base : ℕ) :
    strtol m p base = some ((readNumber base l).1, p + BitVec.ofNat 32
      (l.length - (readNumber base l).2.length)) := by
  obtain ⟨p₁, hblanks, h₁⟩ := skipBlanks_str h hlen
  obtain ⟨p₂, hsign, h₂⟩ := strtolSign_str (h₁.str h)
  obtain ⟨p₃, hbase, h₃⟩ := strtolBase_str (h₂.str (h₁.str h)) base
  have hreach := (h₁.trans h₂).trans h₃
  obtain ⟨p₄, hdigits, h₄⟩ :=
    strtolDigits_str (readBase base (readSign (l.dropWhile isBlank)).2).1 (hreach.str h) 0
    (Nat.lt_of_le_of_lt hreach.length_le hlen)
  rw [strtol, hblanks, Option.bind_eq_bind, Option.bind_some, hsign]
  dsimp only
  rw [hbase]
  dsimp only
  rw [hdigits, Option.bind_eq_bind, Option.bind_some, (hreach.trans h₄).place]
  rfl

end

/-! ### The digits of a number -/

/-- The byte of a digit. -/
def digitByte (d : ℕ) : BitVec 8 := charByte (digitChar d)

/-- **Digits of the number `n`**, perhaps with zeros in front. -/
structure DigitText (base n : ℕ) (ds : List ℕ) : Prop where
  ne_nil : ds ≠ []
  digit : ∀ d ∈ ds, d < base
  value : Nat.ofDigits base ds.reverse = n

theorem DigitText.of_numeral {base n : ℕ} {ds : List ℕ} (h : Numeral base n ds) :
    DigitText base n ds := ⟨h.ne_nil, h.digit, h.value⟩

/-- Zeros in front. -/
theorem DigitText.zeros {base n : ℕ} {ds : List ℕ} (h : DigitText base n ds)
    (hbase : 0 < base) (k : ℕ) :
    DigitText base n (List.replicate k 0 ++ ds) where
  ne_nil := List.append_ne_nil_of_right_ne_nil _ h.ne_nil
  digit := by
    intro d hd
    rcases List.mem_append.1 hd with hd | hd
    · rw [List.eq_of_mem_replicate hd]
      exact hbase
    · exact h.digit d hd
  value := by
    rw [List.reverse_append, List.reverse_replicate, Nat.ofDigits_append,
      Nat.ofDigits_replicate_zero, Nat.mul_zero, Nat.add_zero, h.value]

/-- What the byte of a digit is for `strtol`. -/
theorem strtolDigit_digitByte {d : ℕ} (h : d < 16) : strtolDigit (digitByte d) = some d := by
  revert d
  decide

/-- What the byte of a digit is not. -/
theorem digitByte_ne {d : ℕ} (h : d < 16) :
    isBlank (digitByte d) = false ∧ digitByte d ≠ byteOf '+' ∧ digitByte d ≠ byteOf '-' ∧
    digitByte d ≠ byteOf 'x' ∧ digitByte d ≠ 0 := by
  revert d
  decide

theorem digitsFrom_digitByte {base : ℕ} (hbase : base ≤ 16) {ds : List ℕ}
    (h : ∀ d ∈ ds, d < base) (v : ℕ) :
    digitsFrom base (BitVec.ofNat 32 v) (ds.map digitByte) = BitVec.ofNat 32
      (ds.foldl (fun v d => d + base * v) v) := by
  induction ds generalizing v with
  | nil => rfl
  | cons d ds ih =>
      have hd : d < 16 := Nat.lt_of_lt_of_le (h d (by simp)) hbase
      rw [List.map_cons, digitsFrom, List.foldl_cons, strtolDigit_digitByte hd,
        Option.getD_some, ← BitVec.ofNat_mul, ← BitVec.ofNat_add,
        List.foldl_cons, Nat.mul_comm v, Nat.add_comm]
      exact ih (fun x hx => h x (by simp [hx])) _

/-- **The value of the digits of a number.** -/
theorem DigitText.digitsFrom {base n : ℕ} {ds : List ℕ} (h : DigitText base n ds)
    (hbase : base ≤ 16) :
    digitsFrom base 0 (ds.map digitByte) = BitVec.ofNat 32 n := by
  refine (digitsFrom_digitByte hbase h.digit 0).trans (congrArg _ ?_)
  rw [← h.value, Nat.ofDigits_eq_foldr, List.foldr_reverse]
  rfl

/-- The text behind a number does not go on with it. -/
def NumberEnds (base : ℕ) (rest : List (BitVec 8)) : Prop :=
  ∀ c ∈ rest.head?, isDigitOf base c = false ∧ c ≠ byteOf 'x'

theorem DigitText.run {base n : ℕ} {ds : List ℕ} (h : DigitText base n ds) (hbase : base ≤ 16)
    {rest : List (BitVec 8)} (hrest : NumberEnds base rest) :
    (ds.map digitByte ++ rest).takeWhile (isDigitOf base) = ds.map digitByte ∧
      (ds.map digitByte ++ rest).dropWhile (isDigitOf base) = rest := by
  have hdigit : ∀ c ∈ ds.map digitByte, isDigitOf base c = true := by
    intro c hc
    obtain ⟨d, hd, rfl⟩ := List.mem_map.1 hc
    have hlt := h.digit d hd
    rw [isDigitOf, strtolDigit_digitByte (Nat.lt_of_lt_of_le hlt hbase)]
    exact decide_eq_true hlt
  have hstop : rest.takeWhile (isDigitOf base) = [] ∧ rest.dropWhile (isDigitOf base) = rest := by
    cases rest with
    | nil => exact ⟨rfl, rfl⟩
    | cons c rest =>
        have hc := (hrest c rfl).1
        exact ⟨List.takeWhile_cons_of_neg (by simp [hc]), List.dropWhile_cons_of_neg (by simp [hc])⟩
  rw [List.takeWhile_append_of_pos hdigit, List.dropWhile_append_of_pos hdigit, hstop.1, hstop.2,
    List.append_nil]
  exact ⟨rfl, rfl⟩

section

variable {base n : ℕ} {ds : List ℕ} {rest : List (BitVec 8)}

/-- The first digit. -/
theorem DigitText.head (h : DigitText base n ds) (hbase : base ≤ 16) :
    ∃ d ds', ds = d :: ds' ∧ d < 16 := by
  obtain ⟨d, ds', rfl⟩ := List.exists_cons_of_ne_nil h.ne_nil
  exact ⟨d, ds', rfl, Nat.lt_of_lt_of_le (h.digit d (by simp)) hbase⟩

/-- Nothing of the digits is taken for the prefix of a base. -/
theorem DigitText.readBase (h : DigitText base n ds) (hbase : base ≤ 16) (hpos : base ≠ 0)
    (hrest : NumberEnds base rest) :
    readBase base (ds.map digitByte ++ rest) = (base, ds.map digitByte ++ rest) := by
  obtain ⟨d, ds', rfl, -⟩ := h.head hbase
  -- what stands behind the first digit is a digit, or the end of the number
  have hx : ∀ c ∈ (ds'.map digitByte ++ rest).head?, c ≠ byteOf 'x' := by
    intro c hc
    cases ds' with
    | nil => exact (hrest c hc).2
    | cons d' ds' =>
        obtain rfl : digitByte d' = c := Option.some_inj.1 hc
        exact (digitByte_ne (Nat.lt_of_lt_of_le (h.digit d' (by simp)) hbase)).2.2.2.1
  rw [List.map_cons, List.cons_append]
  cases htail : ds'.map digitByte ++ rest with
  | nil => rw [Jos.readBase, if_neg fun hc => hpos hc.1, if_neg hpos]
  | cons c l =>
      rw [htail] at hx
      rw [Jos.readBase, if_neg fun hc => hx c rfl hc.2.2, if_neg fun hc => hpos hc.1, if_neg hpos]

theorem dropWhile_blanks (k : ℕ) {l : List (BitVec 8)} (hl : ∀ c ∈ l.head?, isBlank c = false) :
    (List.replicate k (byteOf ' ') ++ l).dropWhile isBlank = l := by
  rw [List.dropWhile_append_of_pos fun c hc => by rw [List.eq_of_mem_replicate hc]; decide]
  cases l with
  | nil => rfl
  | cons c l => exact List.dropWhile_cons_of_neg (by simp [hl c rfl])

theorem readNumber_eq {l l₁ l₂ : List (BitVec 8)} {neg : Bool} {b : ℕ}
    (hsign : readSign (l.dropWhile isBlank) = (neg, l₁)) (hread : readBase base l₁ = (b, l₂)) :
    readNumber base l =
      (if neg then -digitsFrom b 0 (l₂.takeWhile (isDigitOf b))
        else digitsFrom b 0 (l₂.takeWhile (isDigitOf b)), l₂.dropWhile (isDigitOf b)) := by
  rw [readNumber, hsign]
  dsimp only
  rw [hread]

/-- **A number behind blanks**, with or without a minus. -/
theorem DigitText.readNumber (h : DigitText base n ds) (hbase : base ≤ 16) (hpos : base ≠ 0)
    (hrest : NumberEnds base rest) (k : ℕ) (neg : Bool) :
    readNumber base (List.replicate k (byteOf ' ') ++
      ((if neg then [byteOf '-'] else []) ++ (ds.map digitByte ++ rest))) =
      (if neg then -BitVec.ofNat 32 n else BitVec.ofNat 32 n, rest) := by
  obtain ⟨d, ds', hds, hd⟩ := h.head hbase
  obtain ⟨hblank, hplus, hminus, -, -⟩ := digitByte_ne hd
  have hsign : readSign ((List.replicate k (byteOf ' ') ++
      ((if neg then [byteOf '-'] else []) ++ (ds.map digitByte ++ rest))).dropWhile isBlank) =
      (neg, ds.map digitByte ++ rest) := by
    cases neg with
    | true =>
        rw [dropWhile_blanks k (by simp; decide)]
        rfl
    | false =>
        rw [dropWhile_blanks k (by simp [hds, hblank]), hds]
        exact (if_neg hplus).trans (if_neg hminus)
  rw [readNumber_eq hsign (h.readBase hbase hpos hrest), (h.run hbase hrest).1,
    (h.run hbase hrest).2, h.digitsFrom hbase]

/-- **A number behind `0x`.** -/
theorem DigitText.readNumber_hex (h : DigitText 16 n ds) (hrest : NumberEnds 16 rest) :
    Jos.readNumber 16 (byteOf '0' :: byteOf 'x' :: (ds.map digitByte ++ rest)) =
      (BitVec.ofNat 32 n, rest) := by
  have hsign : readSign
      ((byteOf '0' :: byteOf 'x' :: (ds.map digitByte ++ rest)).dropWhile isBlank) =
      (false, byteOf '0' :: byteOf 'x' :: (ds.map digitByte ++ rest)) := rfl
  have hread : Jos.readBase 16 (byteOf '0' :: byteOf 'x' :: (ds.map digitByte ++ rest)) =
      (16, ds.map digitByte ++ rest) := by
    rw [Jos.readBase, if_pos (by decide)]
  rw [readNumber_eq hsign hread, (h.run (Nat.le_refl 16) hrest).1, (h.run (Nat.le_refl 16) hrest).2,
    h.digitsFrom (Nat.le_refl 16)]
  rfl

end

/-! ### The round trip -/

/-- The digits of the numeral of a number. -/
def digitCount (base n : ℕ) : ℕ := if n = 0 then 1 else (Nat.digits base n).length

theorem digitCount_eq {base n : ℕ} {ds : List ℕ} (h : Numeral base n ds) (hbase : 1 < base) :
    ds.length = digitCount base n := by
  rw [h.eq_digits hbase, digitCount]
  split
  · rfl
  · exact List.length_reverse

/-- What pads a number with zeros, or not at all, can stand behind a sign; blanks can stand in
front. -/
theorem NumberText.bytes {base n : ℕ} {padc : Char} {width : BitVec 32} {out : List (BitVec 32)}
    (h : NumberText base n padc width out) (hbase : 1 < base)
    (hpad : 0 < padCount width (digitCount base n) → padc = '0' ∨ padc = ' ') :
    ∃ k ds, DigitText base n ds ∧
      out.map charByte = List.replicate k (byteOf ' ') ++ ds.map digitByte ∧
      (0 < k → padc = ' ' ∧ 0 < padCount width (digitCount base n)) := by
  obtain ⟨ds, hds, rfl⟩ := h
  have hdigits : (ds.map digitChar).map charByte = ds.map digitByte := by
    rw [List.map_map]
    rfl
  have htext := DigitText.of_numeral hds
  rw [digitCount_eq hds hbase]
  obtain ⟨k, hk⟩ : ∃ k, padCount width (digitCount base n) = k := ⟨_, rfl⟩
  rw [hk] at hpad ⊢
  cases k with
  | zero => exact ⟨0, ds, htext, hdigits, fun hc => absurd hc (Nat.lt_irrefl 0)⟩
  | succ k =>
      rcases hpad (Nat.succ_pos k) with rfl | rfl
      · refine ⟨0, List.replicate (k + 1) 0 ++ ds, htext.zeros (by omega) _, ?_,
          fun hc => absurd hc (Nat.lt_irrefl 0)⟩
        rw [List.map_append, hdigits, List.map_append, List.map_replicate, List.map_replicate]
        rfl
      · refine ⟨k + 1, ds, htext, ?_, fun _ => ⟨rfl, Nat.succ_pos k⟩⟩
        rw [List.map_append, hdigits, List.map_replicate]
        rfl

/-- The number of a conversion, as far as a `long` holds it. -/
def numberArg (f : FmtFlags) (ap : List (BitVec 32)) : Char → BitVec 32
  | 'd' => (getint f.lflag ap).1.setWidth 32
  | 'p' => ap.headD 0
  | _ => (getuint f.lflag ap).1.setWidth 32

/-- The number whose digits a conversion prints. -/
def printedNumber (f : FmtFlags) (ap : List (BitVec 32)) : Char → ℕ
  | 'd' => (getint f.lflag ap).1.toInt.natAbs
  | 'p' => (ap.headD 0).toNat
  | _ => (getuint f.lflag ap).1.toNat

/-- How many pad characters a conversion prints. -/
def padsPrinted (f : FmtFlags) (ap : List (BitVec 32)) (base : ℕ) (c : Char) : ℕ :=
  padCount f.width (digitCount base (printedNumber f ap c))

/-- A conversion prints a sign or `0x`. -/
def printsLead (f : FmtFlags) (ap : List (BitVec 32)) (c : Char) : Bool :=
  c = 'p' ∨ c = 'd' ∧ (getint f.lflag ap).1.toInt < 0

/-- **Pad characters that are in the way**: a `-`, or a blank behind a sign or `0x`. -/
def PadsInside (f : FmtFlags) (ap : List (BitVec 32)) (base : ℕ) (c : Char) : Prop :=
  0 < padsPrinted f ap base c ∧ (f.padc = '-' ∨ f.padc = ' ' ∧ printsLead f ap c = true)

instance (f : FmtFlags) (ap : List (BitVec 32)) (base : ℕ) (c : Char) :
    Decidable (PadsInside f ap base c) := inferInstanceAs (Decidable (_ ∧ _))

/-- The pad character of a format. -/
theorem fmtSwitch_padc : ∀ (n : ℕ) (f : FmtFlags) (ap : List (BitVec 32)) (fmt : List Char),
    f.padc = ' ' ∨ f.padc = '0' ∨ f.padc = '-' →
    (fmtSwitch n f ap fmt).1.padc = ' ' ∨ (fmtSwitch n f ap fmt).1.padc = '0' ∨
      (fmtSwitch n f ap fmt).1.padc = '-' := by
  intro n
  induction n with
  | zero => exact fun _ _ _ h => h
  | succ n ih =>
      intro f ap fmt h
      have hprec : ∀ p, (f.processPrecision p).padc = f.padc := by
        intro p
        unfold FmtFlags.processPrecision
        split <;> rfl
      cases fmt with
      | nil => exact h
      | cons c fmt =>
          rw [fmtSwitch]
          split
          · exact ih _ _ _ (Or.inr (Or.inr rfl))
          split
          · exact ih _ _ _ (Or.inr (Or.inl rfl))
          split
          · exact ih _ _ _ (by rw [hprec]; exact h)
          split
          · exact ih _ _ _ (by rw [hprec]; exact h)
          split
          · refine ih _ _ _ ?_
            split <;> exact h
          split
          · exact ih _ _ _ h
          split
          · exact ih _ _ _ h
          · exact h

/-- **A text is read back** in a base, wherever it stands and whatever comes behind it. -/
structure ReadsAs (base : ℕ) (v : BitVec 32) (out : List (BitVec 32)) : Prop where
  ne_zero : ∀ c ∈ out.map charByte, c ≠ 0
  read : ∀ rest, NumberEnds base rest → readNumber base (out.map charByte ++ rest) = (v, rest)

theorem ReadsAs.strtol {base : ℕ} {v : BitVec 32} {out : List (BitVec 32)} (h : ReadsAs base v out)
    {m : BitVec 32 → BitVec 8} {s : BitVec 32} {rest : List (BitVec 8)}
    (hstr : Str m s (out.map charByte ++ rest)) (hlen : out.length + rest.length < 2 ^ 32)
    (hrest : NumberEnds base rest) :
    strtol m s base = some (v, s + BitVec.ofNat 32 out.length) := by
  rw [strtol_str hstr (by simpa using hlen) base, h.read rest hrest]
  simp

theorem DigitText.bytes_ne_zero {base n : ℕ} {ds : List ℕ} (h : DigitText base n ds)
    (hbase : base ≤ 16) (k : ℕ) :
    ∀ c ∈ List.replicate k (byteOf ' ') ++ ds.map digitByte, c ≠ 0 := by
  intro c hc
  rcases List.mem_append.1 hc with hc | hc
  · rw [List.eq_of_mem_replicate hc]
    decide
  · obtain ⟨d, hd, rfl⟩ := List.mem_map.1 hc
    exact (digitByte_ne (Nat.lt_of_lt_of_le (h.digit d hd) hbase)).2.2.2.2

section

variable {load : BitVec 32 → Except PrintStop (BitVec 8)} {f : FmtFlags} {ap : List (BitVec 32)}

/-- `%u`, `%o` and `%x`. -/
theorem reads_unsigned {c : Char} {base : ℕ} (hc : (c, base) ∈ [('u', 10), ('o', 8), ('x', 16)])
    (hpad : 0 < padsPrinted f ap base c → f.padc = '0' ∨ f.padc = ' ') :
    ∃ out ap', fmtConversion load f ap c = some (.ok (out, ap')) ∧
      ReadsAs base (numberArg f ap c) out := by
  obtain ⟨out, hconv, htext⟩ := @fmtConversion_unsigned load f ap c base hc
  have hbase : base ≤ 16 ∧ 1 < base ∧ numberArg f ap c = (getuint f.lflag ap).1.setWidth 32 ∧
      printedNumber f ap c = (getuint f.lflag ap).1.toNat := by
    simp only [List.mem_cons, Prod.mk.injEq, List.not_mem_nil, or_false] at hc
    obtain ⟨rfl, rfl⟩ | ⟨rfl, rfl⟩ | ⟨rfl, rfl⟩ := hc
    all_goals exact ⟨by decide, by decide, rfl, rfl⟩
  obtain ⟨hle, hlt, harg, hprinted⟩ := hbase
  rw [padsPrinted, hprinted] at hpad
  obtain ⟨k, ds, hds, hbytes, -⟩ := htext.bytes hlt hpad
  refine ⟨out, _, hconv, by rw [hbytes]; exact hds.bytes_ne_zero hle k, fun rest hrest => ?_⟩
  have hread := hds.readNumber hle (by omega) hrest k false
  rw [hbytes, harg, ← BitVec.ofNat_toNat, List.append_assoc]
  exact hread

/-- `%d`. -/
theorem reads_signed
    (hpad : 0 < padsPrinted f ap 10 'd' → f.padc = '0' ∨ f.padc = ' ' ∧
      printsLead f ap 'd' = false) :
    ∃ out ap', fmtConversion load f ap 'd' = some (.ok (out, ap')) ∧
      ReadsAs 10 (numberArg f ap 'd') out := by
  obtain ⟨out, hconv, htext⟩ := @fmtConversion_signed load f ap
  obtain ⟨k, ds, hds, hbytes, hk⟩ :=
    htext.bytes (by decide) fun hpos => (hpad hpos).imp_right And.left
  have hvalue : numberArg f ap 'd' = BitVec.ofInt 32 (getint f.lflag ap).1.toInt :=
    (BitVec.signExtend_eq_setWidth_of_le _ (by decide)).symm
  have hne := hds.bytes_ne_zero (by decide) k
  rw [← hbytes] at hne
  refine ⟨_, _, hconv, ?_⟩
  rw [hvalue]
  by_cases hneg : (getint f.lflag ap).1.toInt < 0
  · rw [if_pos hneg]
    refine ⟨List.forall_mem_cons.2 ⟨by decide, hne⟩, fun rest hrest => ?_⟩
    have hlead : printsLead f ap 'd' = true := by simp [printsLead, hneg]
    -- blanks would stand behind the minus
    obtain rfl : k = 0 := by
      by_contra hpos
      obtain ⟨hblank, hpads⟩ := hk (Nat.pos_of_ne_zero hpos)
      rcases hpad hpads with hzero | ⟨-, hno⟩
      · rw [hblank] at hzero
        exact absurd hzero (by decide)
      · rw [hlead] at hno
        cases hno
    have hread := hds.readNumber (by decide) (by decide) hrest 0 true
    rw [List.map_cons, hbytes]
    refine hread.trans (congrArg (·, rest) ?_)
    rw [if_pos rfl, ← BitVec.ofInt_natCast, ← BitVec.ofInt_neg, Int.natCast_natAbs, abs_of_neg hneg,
      Int.neg_neg]
  · rw [if_neg hneg]
    refine ⟨hne, fun rest hrest => ?_⟩
    have hread := hds.readNumber (by decide) (by decide) hrest k false
    rw [hbytes, List.append_assoc]
    refine hread.trans (congrArg (·, rest) ?_)
    rw [if_neg Bool.false_ne_true, ← BitVec.ofInt_natCast, Int.natCast_natAbs,
      abs_of_nonneg (Int.not_lt.1 hneg)]

/-- `%p`. -/
theorem reads_pointer (hpad : 0 < padsPrinted f ap 16 'p' → f.padc = '0') :
    ∃ out ap', fmtConversion load f ap 'p' = some (.ok (out, ap')) ∧
      ReadsAs 16 (numberArg f ap 'p') out := by
  obtain ⟨out, hconv, htext⟩ := @fmtConversion_pointer load f ap
  obtain ⟨k, ds, hds, hbytes, hk⟩ := htext.bytes (by decide) fun hpos => Or.inl (hpad hpos)
  obtain rfl : k = 0 := by
    by_contra hpos
    obtain ⟨hblank, hpads⟩ := hk (Nat.pos_of_ne_zero hpos)
    rw [hpad hpads] at hblank
    exact absurd hblank (by decide)
  have hne := hds.bytes_ne_zero (by decide) 0
  rw [← hbytes] at hne
  refine ⟨_, _, hconv, List.forall_mem_cons.2 ⟨by decide, List.forall_mem_cons.2 ⟨by decide, hne⟩⟩,
    fun rest hrest => ?_⟩
  rw [List.map_cons, List.map_cons, hbytes]
  refine (hds.readNumber_hex hrest).trans (congrArg (·, rest) ?_)
  rw [BitVec.ofNat_toNat, BitVec.setWidth_eq]
  rfl

end

/-- **The conversions of numbers**, with any width, and with zeros or blanks for padding where they
are not in the way. -/
theorem number_reads {load : BitVec 32 → Except PrintStop (BitVec 8)} {f : FmtFlags}
    {ap : List (BitVec 32)} {c : Char} {base : ℕ}
    (hc : (c, base) ∈ [('d', 10), ('u', 10), ('o', 8), ('x', 16), ('p', 16)])
    (hpad : 0 < padsPrinted f ap base c → f.padc = '0' ∨ f.padc = ' ' ∧ printsLead f ap c = false) :
    ∃ out ap', fmtConversion load f ap c = some (.ok (out, ap')) ∧
      ReadsAs base (numberArg f ap c) out := by
  simp only [List.mem_cons, Prod.mk.injEq, List.not_mem_nil, or_false] at hc
  obtain ⟨rfl, rfl⟩ | ⟨rfl, rfl⟩ | ⟨rfl, rfl⟩ | ⟨rfl, rfl⟩ | ⟨rfl, rfl⟩ := hc
  · exact reads_signed hpad
  · exact reads_unsigned (by decide) fun hpos => (hpad hpos).imp_right And.left
  · exact reads_unsigned (by decide) fun hpos => (hpad hpos).imp_right And.left
  · exact reads_unsigned (by decide) fun hpos => (hpad hpos).imp_right And.left
  · exact reads_pointer fun hpos => (hpad hpos).resolve_right fun hc =>
      absurd hc.2 (by simp [printsLead])

/-- A format that is one conversion. -/
theorem vprintfmt_single {load : BitVec 32 → Except PrintStop (BitVec 8)} {fmt : String}
    {l : List Char} {f : FmtFlags} {ap ap' ap'' out : List (BitVec 32)} {c : Char}
    (hfmt : fmt.toList = '%' :: l)
    (hflags : fmtSwitch (l.length + 1) .start ap l = (f, ap', some c, []))
    (hconv : fmtConversion load f ap' c = some (.ok (out, ap''))) :
    vprintfmt load fmt ap = .ok out := by
  rw [vprintfmt, hfmt, List.length_cons, vprintfmtFrom, if_neg (by decide), hflags]
  dsimp only
  rw [Option.bind_some, hconv]
  cases l with
  | nil => simp [fmtSwitch] at hflags
  | cons d l => exact congrArg Except.ok (List.append_nil out)

/-- **Printed numbers are read back.** What `%d`, `%u`, `%o`, `%x` or `%p`, with any flags and any
width, leaves in a buffer that has room for it, `strtol` reads in the base of the conversion: it
returns the number, or its lower 32 bits, and the place of the zero byte. Only conversions that do
put blanks behind a minus or behind `0x`, or do pad with `-`, are excluded. -/
theorem snprintf_strtol {m : BitVec 32 → BitVec 8} {load : BitVec 32 → Except PrintStop (BitVec 8)}
    {buf n : BitVec 32} {fmt : String} {l : List Char} {f : FmtFlags} {ap ap' : List (BitVec 32)}
    {c : Char} {base : ℕ} (hfmt : fmt.toList = '%' :: l)
    (hflags : fmtSwitch (l.length + 1) .start ap l = (f, ap', some c, []))
    (hc : (c, base) ∈ [('d', 10), ('u', 10), ('o', 8), ('x', 16), ('p', 16)])
    (hpad : ¬ PadsInside f ap' base c) (hbuf : buf ≠ 0#32) (hn : 1 ≤ n.toInt)
    (hfit : buf.toNat + n.toNat ≤ 2 ^ 32) :
    ∃ len m', vsnprintf m load buf n fmt ap = .ok (BitVec.ofNat 32 len, m') ∧
      (len < n.toNat → strtol m' buf base =
        some (numberArg f ap' c, buf + BitVec.ofNat 32 len)) := by
  have hpadc := fmtSwitch_padc (l.length + 1) .start ap l (Or.inl rfl)
  rw [hflags] at hpadc
  have hplace : 0 < padsPrinted f ap' base c → f.padc = '0' ∨ f.padc = ' ' ∧
      printsLead f ap' c = false := by
    intro hpos
    rcases hpadc with hblank | hzero | hminus
    · refine Or.inr ⟨hblank, ?_⟩
      by_contra hlead
      exact hpad ⟨hpos, Or.inr ⟨hblank, by simpa using hlead⟩⟩
    · exact Or.inl hzero
    · exact absurd ⟨hpos, Or.inl hminus⟩ hpad
  obtain ⟨out, ap'', hconv, hreads⟩ := @number_reads load f ap' c base hc hplace
  obtain ⟨-, b, hhas, hprint⟩ :=
    vsnprintf_ok (m := m) hbuf hn hfit (vprintfmt_single hfmt hflags hconv)
  refine ⟨out.length, _, hprint, fun hlen => ?_⟩
  have hbytes := hhas.terminated (by omega)
  rw [List.take_of_length_le (by omega)] at hbytes
  obtain ⟨htext, hzero, -⟩ := Bytes.append.1 hbytes
  have hstr : Str (Function.update b.mem b.buf 0) buf (out.map charByte ++ []) := by
    rw [List.append_nil]
    exact Str.of_bytes htext hreads.ne_zero hzero
  exact hreads.strtol hstr (by have := n.isLt; simpa using by omega) fun c hc => by simp at hc

/-- A negative number that fills its columns with zeros, one that fills them itself, and one that is
narrower than nothing. -/
theorem snprintf_strtol_padded :
    (∃ len m', vsnprintf (fun _ => 0xCC) (fun va => .error (.fault va)) 0x1000 16 "%08d" [-42] =
        .ok (BitVec.ofNat 32 len, m') ∧
      (len < (16 : BitVec 32).toNat → strtol m' 0x1000 10 =
        some (numberArg ⟨'0', 8, -1, 0, false⟩ [-42] 'd', 0x1000 + BitVec.ofNat 32 len))) ∧
    (∃ len m', vsnprintf (fun _ => 0xCC) (fun va => .error (.fault va)) 0x1000 16 "%3d" [-123] =
        .ok (BitVec.ofNat 32 len, m') ∧
      (len < (16 : BitVec 32).toNat → strtol m' 0x1000 10 =
        some (numberArg ⟨' ', 3, -1, 0, false⟩ [-123] 'd', 0x1000 + BitVec.ofNat 32 len))) ∧
    ∃ len m', vsnprintf (fun _ => 0xCC) (fun va => .error (.fault va)) 0x1000 16 "%*p"
      [-5, 0xf0100000] =
        .ok (BitVec.ofNat 32 len, m') ∧
      (len < (16 : BitVec 32).toNat → strtol m' 0x1000 16 =
        some (numberArg ⟨' ', -5, -1, 0, false⟩ [0xf0100000] 'p', 0x1000 + BitVec.ofNat 32 len)) :=
  ⟨snprintf_strtol
    (l := ['0', '8', 'd']) (by decide) (by decide) (by decide) (by decide) (by decide) (by decide)
      (by decide),
    snprintf_strtol
      (l := ['3', 'd']) (by decide) (by decide) (by decide) (by decide) (by decide) (by decide)
      (by decide),
    snprintf_strtol
      (l := ['*', 'p']) (by decide) (by decide) (by decide) (by decide) (by decide) (by decide)
      (by decide)⟩

end Jos
