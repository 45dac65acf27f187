/-
**Strings.**

The functions of `lib/string.c` that compare strings and search in them. A comparison gives the
difference of the first bytes that are not the same, and its sign is the order of the strings as
lists of unsigned bytes, since the zero byte behind a string is less than any byte of one.

Main definitions:

* `Jos.strcmp`, `Jos.strncmp`, `Jos.memcmp` — the comparisons;
* `Jos.strlen`, `Jos.strchr` — the length, and the first place of a character;
* `Jos.Compares` — a number has the sign of the order of two lists.

Main results:

* `Jos.strlen_str`, `Jos.strchr_str` — what they find;
* `Jos.comparisons_order` — **each comparison returns, and its sign is the lexicographic order**: of
  the strings, of their first `n` bytes, and of two blocks.
-/

import JosKernel.CString

set_option relaxedAutoImplicit false
set_option autoImplicit false

namespace Jos

open CString

/-! ### The functions -/

/-- The loop of `strlen`, for a string of less than `fuel` bytes. -/
def strlenFrom (m : BitVec 32 → BitVec 8) : ℕ → BitVec 32 → ℕ → Option ℕ
  | 0, _, _ => none
  | fuel + 1, s, n => if m s ≠ 0 then strlenFrom m fuel (s + 1) (n + 1) else some n

/-- **`strlen(s)`.**  It does not return for memory without a zero byte. -/
def strlen (m : BitVec 32 → BitVec 8) (s : BitVec 32) : Option ℕ := strlenFrom m (2 ^ 32) s 0

/-- The loop of `strchr`. -/
def strchrFrom (m : BitVec 32 → BitVec 8) (c : BitVec 8) : ℕ → BitVec 32 → Option (BitVec 32)
  | 0, _ => none
  | fuel + 1, s =>
      if m s ≠ 0 then if m s = c then some s else strchrFrom m c fuel (s + 1) else some 0

/-- **`strchr(s, c)`.** -/
def strchr (m : BitVec 32 → BitVec 8) (s : BitVec 32) (c : BitVec 8) : Option (BitVec 32) :=
  strchrFrom m c (2 ^ 32) s

/-- The loop of `strcmp`, for strings that may stand in different memories. -/
def strcmpFrom (m m' : BitVec 32 → BitVec 8) : ℕ → BitVec 32 → BitVec 32 → Option ℤ
  | 0, _, _ => none
  | fuel + 1, p, q =>
      if m p ≠ 0 ∧ m p = m' q then strcmpFrom m m' fuel (p + 1) (q + 1)
        else some ((m p).toNat - (m' q).toNat)

/-- **`strcmp(p, q)`.** -/
def strcmp (m : BitVec 32 → BitVec 8) (p : BitVec 32) (m' : BitVec 32 → BitVec 8) (q : BitVec 32) :
    Option ℤ := strcmpFrom m m' (2 ^ 32) p q

/-- **`strncmp(p, q, n)`.** -/
def strncmp (m m' : BitVec 32 → BitVec 8) : BitVec 32 → BitVec 32 → ℕ → ℤ
  | _, _, 0 => 0
  | p, q, n + 1 =>
      if m p ≠ 0 ∧ m p = m' q then strncmp m m' (p + 1) (q + 1) n else (m p).toNat - (m' q).toNat

/-- **`memcmp(v1, v2, n)`.** -/
def memcmp (m m' : BitVec 32 → BitVec 8) : BitVec 32 → BitVec 32 → ℕ → ℤ
  | _, _, 0 => 0
  | s₁, s₂, n + 1 =>
      if m s₁ ≠ m' s₂ then (m s₁).toNat - (m' s₂).toNat else memcmp m m' (s₁ + 1) (s₂ + 1) n

/-! ### Searching -/

section

variable {m m' : BitVec 32 → BitVec 8} {p q : BitVec 32} {l l' : List (BitVec 8)}

theorem strlenFrom_str (h : Str m p l) :
    ∀ {fuel : ℕ} (n : ℕ), l.length < fuel → strlenFrom m fuel p n = some (n + l.length) := by
  induction l generalizing p with
  | nil =>
      intro fuel n hfuel
      cases fuel with
      | zero => simp at hfuel
      | succ fuel => rw [strlenFrom, if_neg (not_not_intro (str_nil.1 h))]; rfl
  | cons c l ih =>
      intro fuel n hfuel
      cases fuel with
      | zero => simp at hfuel
      | succ fuel =>
          rw [strlenFrom, if_pos (h.1 ▸ h.2.1), ih h.2.2 _ (Nat.lt_of_succ_lt_succ hfuel),
            List.length_cons, Nat.add_assoc, Nat.add_comm 1]

/-- **The length of a string.** -/
theorem strlen_str (h : Str m p l) (hlen : l.length < 2 ^ 32) : strlen m p = some l.length := by
  rw [strlen, strlenFrom_str h 0 hlen, Nat.zero_add]

theorem strchrFrom_str (h : Str m p l) (c : BitVec 8) : ∀ {fuel : ℕ}, l.length < fuel →
    strchrFrom m c fuel p = some (if c ∈ l then p + BitVec.ofNat 32 (l.idxOf c) else 0) := by
  induction l generalizing p with
  | nil =>
      intro fuel hfuel
      cases fuel with
      | zero => simp at hfuel
      | succ fuel => rw [strchrFrom, if_neg (not_not_intro (str_nil.1 h))]; rfl
  | cons b l ih =>
      intro fuel hfuel
      cases fuel with
      | zero => simp at hfuel
      | succ fuel =>
          obtain ⟨hb, hne, hrest⟩ := h
          rw [strchrFrom, if_pos (hb ▸ hne), hb]
          by_cases hc : b = c
          · subst hc
            simp
          · rw [if_neg hc, ih hrest (Nat.lt_of_succ_lt_succ hfuel),
              List.idxOf_cons_ne _ hc, ← add_length_succ]
            simp [Ne.symm hc]

/-- **The first place of a character**, or `NULL`. -/
theorem strchr_str (h : Str m p l) (hlen : l.length < 2 ^ 32) (c : BitVec 8) :
    strchr m p c = some (if c ∈ l then p + BitVec.ofNat 32 (l.idxOf c) else 0) :=
      strchrFrom_str h c hlen

/-! ### Order -/

/-- **The sign of a number** is the order of two lists. -/
structure Compares (d : ℤ) (l l' : List (BitVec 8)) : Prop where
  lt : d < 0 ↔ l < l'
  eq : d = 0 ↔ l = l'
  gt : 0 < d ↔ l' < l

theorem Compares.refl (l : List (BitVec 8)) : Compares 0 l l := by
  have hirr : ¬ l < l := List.lt_irrefl l
  exact ⟨by simp [hirr], by simp, by simp [hirr]⟩

/-- The difference of the first bytes that are not the same. -/
theorem Compares.head {c c' : BitVec 8} (hne : c ≠ c') (l l' : List (BitVec 8)) :
    Compares (c.toNat - c'.toNat) (c :: l) (c' :: l') := by
  have hne' : c.toNat ≠ c'.toNat := fun hc => hne (BitVec.eq_of_toNat_eq hc)
  refine ⟨?_, ?_, ?_⟩
  · simp [List.cons_lt_cons_iff, hne, BitVec.lt_def]
  · simp [hne]
    omega
  · simp [List.cons_lt_cons_iff, Ne.symm hne, BitVec.lt_def]

theorem Compares.cons {d : ℤ} (h : Compares d l l') (c : BitVec 8) :
    Compares d (c :: l) (c :: l') := by
  refine ⟨?_, ?_, ?_⟩
  · simpa [List.cons_lt_cons_iff] using h.lt
  · simpa using h.eq
  · simpa [List.cons_lt_cons_iff] using h.gt

/-- The shorter string is less, since its zero byte is less than the byte of the other one. -/
theorem Compares.nil_left {c : BitVec 8} (hc : c ≠ 0) (l : List (BitVec 8)) :
    Compares ((0#8).toNat - c.toNat) [] (c :: l) := by
  have hpos : c.toNat ≠ 0 := fun hz => hc (BitVec.eq_of_toNat_eq hz)
  refine ⟨?_, ?_, ?_⟩
  · simp
    omega
  · simp
    omega
  · simp

theorem Compares.nil_right {c : BitVec 8} (hc : c ≠ 0) (l : List (BitVec 8)) :
    Compares (c.toNat - (0#8).toNat) (c :: l) [] := by
  have hpos : c.toNat ≠ 0 := fun hz => hc (BitVec.eq_of_toNat_eq hz)
  refine ⟨?_, ?_, ?_⟩
  · simp
  · simp
    omega
  · simp
    omega

/-- The loops stop at the first bytes that are not the same, or at the end of both strings. -/
theorem Compares.stop_take (h : Str m p l) (h' : Str m' q l')
    (hstop : ¬ (m p ≠ 0 ∧ m p = m' q)) (n : ℕ) :
    Compares ((m p).toNat - (m' q).toNat) (l.take (n + 1)) (l'.take (n + 1)) := by
  cases l with
  | nil =>
      rw [str_nil.1 h]
      cases l' with
      | nil =>
          rw [str_nil.1 h']
          exact Compares.refl []
      | cons c' l' =>
          rw [h'.1]
          exact Compares.nil_left h'.2.1 _
  | cons c l =>
      obtain ⟨hc, hne, -⟩ := h
      rw [hc] at hstop ⊢
      cases l' with
      | nil =>
          rw [str_nil.1 h']
          exact Compares.nil_right hne _
      | cons c' l' =>
          rw [h'.1] at hstop ⊢
          exact Compares.head (fun heq => hstop ⟨hne, heq⟩) _ _

theorem Compares.stop (h : Str m p l) (h' : Str m' q l') (hstop : ¬ (m p ≠ 0 ∧ m p = m' q)) :
    Compares ((m p).toNat - (m' q).toNat) l l' := by
  have htake := Compares.stop_take h h' hstop (l.length + l'.length)
  rwa [List.take_of_length_le (by omega), List.take_of_length_le (by omega)] at htake

/-- The loops go on where both strings have the same byte. -/
theorem Str.both (h : Str m p l) (h' : Str m' q l') (hgo : m p ≠ 0 ∧ m p = m' q) :
    ∃ c k k', l = c :: k ∧ l' = c :: k' ∧ Str m (p + 1) k ∧ Str m' (q + 1) k' := by
  cases l with
  | nil => exact absurd (str_nil.1 h) hgo.1
  | cons c k =>
      cases l' with
      | nil => exact absurd (hgo.2.trans (str_nil.1 h')) hgo.1
      | cons c' k' =>
          obtain rfl : c = c' := h.1.symm.trans (hgo.2.trans h'.1)
          exact ⟨c, k, k', rfl, rfl, h.2.2, h'.2.2⟩

theorem strcmpFrom_compares :
    ∀ {fuel : ℕ} {p q : BitVec 32} {l l' : List (BitVec 8)}, Str m p l → Str m' q l' →
      l.length < fuel →
    ∃ d, strcmpFrom m m' fuel p q = some d ∧ Compares d l l' := by
  intro fuel
  induction fuel with
  | zero => intro p q l l' _ _ hlen; simp at hlen
  | succ fuel ih =>
      intro p q l l' h h' hlen
      rw [strcmpFrom]
      by_cases hgo : m p ≠ 0 ∧ m p = m' q
      · obtain ⟨c, k, k', rfl, rfl, hk, hk'⟩ := Str.both h h' hgo
        obtain ⟨d, hd, hcmp⟩ := ih hk hk' (Nat.lt_of_succ_lt_succ hlen)
        exact ⟨d, by rw [if_pos hgo, hd], hcmp.cons c⟩
      · exact ⟨_, by rw [if_neg hgo], Compares.stop h h' hgo⟩

theorem strncmp_compares :
    ∀ {n : ℕ} {p q : BitVec 32} {l l' : List (BitVec 8)}, Str m p l → Str m' q l' →
    Compares (strncmp m m' p q n) (l.take n) (l'.take n) := by
  intro n
  induction n with
  | zero => intro p q l l' _ _; exact Compares.refl []
  | succ n ih =>
      intro p q l l' h h'
      rw [strncmp]
      by_cases hgo : m p ≠ 0 ∧ m p = m' q
      · obtain ⟨c, k, k', rfl, rfl, hk, hk'⟩ := Str.both h h' hgo
        rw [if_pos hgo]
        exact (ih hk hk').cons c
      · rw [if_neg hgo]
        exact Compares.stop_take h h' hgo n

theorem memcmp_compares :
    ∀ {n : ℕ} {p q : BitVec 32} {l l' : List (BitVec 8)}, Bytes m p l → Bytes m' q l' →
      l.length = n → l'.length = n →
    Compares (memcmp m m' p q n) l l' := by
  intro n
  induction n with
  | zero =>
      intro p q l l' _ _ hl hl'
      rw [List.length_eq_zero_iff.1 hl, List.length_eq_zero_iff.1 hl']
      exact Compares.refl []
  | succ n ih =>
      intro p q l l' h h' hl hl'
      obtain ⟨c, k, rfl⟩ := List.exists_cons_of_length_eq_add_one hl
      obtain ⟨c', k', rfl⟩ := List.exists_cons_of_length_eq_add_one hl'
      rw [memcmp, h.1, h'.1]
      by_cases hc : c = c'
      · subst hc
        rw [if_neg (not_not_intro rfl)]
        exact (ih h.2 h'.2 (Nat.succ.inj hl) (Nat.succ.inj hl')).cons c
      · rw [if_pos hc]
        exact Compares.head hc k k'

end

/-- **The comparisons**: `strcmp` returns for strings of any length, and its sign is their order;
that of `strncmp` is the order of their first `n` bytes, and that of `memcmp` the order of the
blocks. -/
theorem comparisons_order (m m' : BitVec 32 → BitVec 8) (p q : BitVec 32) (l l' : List (BitVec 8)) :
    (Str m p l → Str m' q l' → l.length < 2 ^ 32 →
      (∃ d, strcmp m p m' q = some d ∧ Compares d l l') ∧
      ∀ n, Compares (strncmp m m' p q n) (l.take n) (l'.take n)) ∧
    (Bytes m p l → Bytes m' q l' → l'.length = l.length →
      Compares (memcmp m m' p q l.length) l l') :=
  ⟨fun h h' hlen => ⟨strcmpFrom_compares h h' hlen, fun _ => strncmp_compares h h'⟩,
    fun h h' hlen => memcmp_compares h h' rfl hlen⟩

/-- A memory with `"ab"` at 0 and `"\xe1"` at 4. -/
def twoStrings (a : BitVec 32) : BitVec 8 :=
  if a = 0 then 0x61 else if a = 1 then 0x62 else if a = 4 then 0xE1 else 0

/-- A byte above 127 is not less than a letter. -/
theorem comparisons_order_unsigned :
    (∃ d, strcmp twoStrings 0 twoStrings 4 = some d ∧ Compares d [0x61, 0x62] [0xE1]) ∧
    ∀ n, Compares (strncmp twoStrings twoStrings 0 4 n) ([0x61, 0x62].take n) ([0xE1].take n) :=
  (comparisons_order twoStrings twoStrings 0 4 [0x61, 0x62]
    [0xE1]).1 (by simp [twoStrings]) (by simp [twoStrings]) (by decide)

end Jos
