/-
**Strings in memory.**

A string is a list of bytes that are not zero, with a zero byte behind it. An address has one string
at most, and the order in which two strings differ is that of the lists.

Main definitions:

* `CString.Str` — the string at an address;
* `CString.Bytes` — some bytes at an address.

Main results:

* `CString.Bytes.append`, `CString.Bytes.snoc` — more bytes;
* `CString.Str.unique` — an address has one string;
* `CString.Str.congr`, `CString.Str.suffix` — the string of another memory, and the end of a string.
-/

import Mathlib.Data.BitVec
import Mathlib.Data.List.Basic
import Mathlib.Logic.Function.Basic
import Mathlib.Tactic.Common

set_option relaxedAutoImplicit false
set_option autoImplicit false

namespace CString

variable {w : ℕ}

/-- **The bytes `l` are at the address.** -/
def Bytes (m : BitVec w → BitVec 8) : BitVec w → List (BitVec 8) → Prop
  | _, [] => True
  | p, c :: l => m p = c ∧ Bytes m (p + 1) l

/-- **The string `l` is at the address**: its bytes are not zero, and a zero byte is behind them. -/
def Str (m : BitVec w → BitVec 8) : BitVec w → List (BitVec 8) → Prop
  | p, [] => m p = 0
  | p, c :: l => m p = c ∧ c ≠ 0 ∧ Str m (p + 1) l

variable {m m' : BitVec w → BitVec 8} {p : BitVec w} {l l' : List (BitVec 8)} {c : BitVec 8}

@[simp] theorem str_nil : Str m p [] ↔ m p = 0 := Iff.rfl

@[simp] theorem str_cons : Str m p (c :: l) ↔ m p = c ∧ c ≠ 0 ∧ Str m (p + 1) l := Iff.rfl

@[simp] theorem bytes_nil : Bytes m p [] := True.intro

@[simp] theorem bytes_cons : Bytes m p (c :: l) ↔ m p = c ∧ Bytes m (p + 1) l := Iff.rfl

/-- The address behind some bytes. -/
theorem add_length_succ (p : BitVec w) (n : ℕ) :
    p + 1 + BitVec.ofNat w n = p + BitVec.ofNat w (n + 1) := by
  rw [BitVec.ofNat_add, BitVec.add_assoc]
  exact congrArg (p + ·) (BitVec.add_comm _ _)

namespace Bytes

theorem append : Bytes m p (l ++ l') ↔ Bytes m p l ∧ Bytes m (p + BitVec.ofNat w l.length) l' := by
  induction l generalizing p with
  | nil => simp
  | cons c l ih =>
      rw [List.cons_append, bytes_cons, bytes_cons, ih, List.length_cons, ← add_length_succ,
        and_assoc]

/-- The bytes of another memory, which has the same there. -/
theorem congr (h : Bytes m p l)
    (heq : ∀ i < l.length, m' (p + BitVec.ofNat w i) = m (p + BitVec.ofNat w i)) :
    Bytes m' p l := by
  induction l generalizing p with
  | nil => exact bytes_nil
  | cons c l ih =>
      have hfirst := heq 0 (Nat.zero_lt_succ _)
      simp only [BitVec.add_zero] at hfirst
      refine ⟨hfirst.trans h.1, ih h.2 fun i hi => ?_⟩
      rw [add_length_succ]
      exact heq (i + 1) (Nat.succ_lt_succ hi)

theorem of_getElem (h : ∀ i (hi : i < l.length), m (p + BitVec.ofNat w i) = l[i]) :
    Bytes m p l := by
  induction l generalizing p with
  | nil => exact bytes_nil
  | cons c l ih =>
      have hfirst := h 0 (Nat.zero_lt_succ _)
      simp only [BitVec.add_zero] at hfirst
      refine ⟨hfirst, ih fun i hi => ?_⟩
      rw [add_length_succ]
      exact h (i + 1) (Nat.succ_lt_succ hi)

/-- **A byte more.** -/
theorem snoc (h : Bytes m p l) (hlen : l.length < 2 ^ w) (c : BitVec 8) :
    Bytes (Function.update m (p + BitVec.ofNat w l.length) c) p (l ++ [c]) := by
  refine append.2 ⟨h.congr fun i hi => Function.update_of_ne (fun heq => ?_) .., ?_⟩
  · have hnat := congrArg BitVec.toNat ((BitVec.add_right_inj p).1 heq)
    rw [BitVec.toNat_ofNat, BitVec.toNat_ofNat, Nat.mod_eq_of_lt (hi.trans hlen),
      Nat.mod_eq_of_lt hlen] at hnat
    omega
  · rw [bytes_cons, Function.update_self]
    exact ⟨rfl, bytes_nil⟩

end Bytes

namespace Str

/-- The first byte. -/
theorem head (h : Str m p l) : m p = l.headD 0 := by
  cases l with
  | nil => exact h
  | cons c l => exact h.1

theorem ne_zero (h : Str m p l) : ∀ c ∈ l, c ≠ 0 := by
  induction l generalizing p with
  | nil => simp
  | cons c l ih =>
      intro b hb
      rcases List.mem_cons.1 hb with rfl | hb
      · exact h.2.1
      · exact ih h.2.2 b hb

/-- **An address has one string.** -/
theorem unique (h : Str m p l) (h' : Str m p l') : l = l' := by
  induction l generalizing p l' with
  | nil =>
      cases l' with
      | nil => rfl
      | cons c l' => exact absurd (h'.1.symm.trans h) h'.2.1
  | cons c l ih =>
      cases l' with
      | nil => exact absurd (h.1.symm.trans h') h.2.1
      | cons c' l' => rw [← h.1, ← h'.1, ih h.2.2 h'.2.2]

/-- **The end of a string.** -/
theorem suffix (h : Str m p (l ++ l')) : Str m (p + BitVec.ofNat w l.length) l' := by
  induction l generalizing p with
  | nil => simpa using h
  | cons c l ih =>
      have hrest := ih h.2.2
      rwa [add_length_succ] at hrest

/-- **The string of another memory** with the same bytes. -/
theorem congr (h : Str m p l)
    (heq : ∀ i ≤ l.length, m' (p + BitVec.ofNat w i) = m (p + BitVec.ofNat w i)) : Str m' p l := by
  induction l generalizing p with
  | nil => simpa using (heq 0 (Nat.le_refl 0)).trans (by simpa using h)
  | cons c l ih =>
      have hfirst := heq 0 (Nat.zero_le _)
      simp only [BitVec.add_zero] at hfirst
      refine ⟨hfirst.trans h.1, h.2.1, ih h.2.2 fun i hi => ?_⟩
      rw [add_length_succ]
      exact heq (i + 1) (Nat.succ_le_succ hi)

theorem of_bytes (h : Bytes m p l) (hne : ∀ c ∈ l, c ≠ 0)
    (hend : m (p + BitVec.ofNat w l.length) = 0) : Str m p l := by
  induction l generalizing p with
  | nil => simpa using hend
  | cons c l ih =>
      refine ⟨h.1, hne c List.mem_cons_self,
        ih h.2 (fun b hb => hne b (List.mem_cons_of_mem _ hb)) ?_⟩
      rw [add_length_succ]
      exact hend

theorem bytes (h : Str m p l) : Bytes m p l := by
  induction l generalizing p with
  | nil => exact bytes_nil
  | cons c l ih => exact ⟨h.1, ih h.2.2⟩

end Str

end CString
