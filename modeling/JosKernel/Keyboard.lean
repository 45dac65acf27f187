/-
**The keyboard.**

`kbd_proc_data` gets the bytes of the keyboard one at a time and keeps what it must know of them in
one word: an escape that is not finished, the modifiers that are held, and the locks. What it
returns is determined by the keys that were pressed and released before: a modifier is held when the
last event of one of its keys was a press, and a lock is on when its key was pressed an odd number
of times.

Main definitions:

* `Jos.normalmap`, `Jos.shiftmap`, `Jos.ctlmap`, `Jos.shiftcode`, `Jos.togglecode` — the tables;
* `Jos.kbdProcData` — one byte;
* `Jos.KeyEvent`, `Jos.keyEvents` — the keys that a sequence of bytes stands for;
* `Jos.Held`, `Jos.Locked`, `Jos.keyChar` — what the events so far say of a modifier and a lock, and
  the character of a key.

Main results:

* `Jos.KbdState.step` — the word after a byte;
* `Jos.kbd_types_keys` — **for every sequence of bytes the characters are those of the keys**;
* `Jos.keyChar_letter` — a letter is a capital exactly when one of shift and caps lock is on;
* `Jos.kbd_reboots_iff` — **the machine is rebooted exactly by Ctrl-Alt-Del**.
-/

import Mathlib.Data.BitVec
import Mathlib.Data.List.Basic
import Mathlib.Tactic.Common

set_option relaxedAutoImplicit false
set_option autoImplicit false

namespace Jos

/-! ### The tables -/

/-- `SHIFT`, `CTL`, `ALT`, `CAPSLOCK`, `NUMLOCK`, `SCROLLLOCK` and `E0ESC`. -/
def kbdShift : BitVec 32 := 1 <<< 0
def kbdCtl : BitVec 32 := 1 <<< 1
def kbdAlt : BitVec 32 := 1 <<< 2
def kbdCapslock : BitVec 32 := 1 <<< 3
def kbdNumlock : BitVec 32 := 1 <<< 4
def kbdScrolllock : BitVec 32 := 1 <<< 5
def kbdE0esc : BitVec 32 := 1 <<< 6

def keyHome : BitVec 8 := 0xE0
def keyEnd : BitVec 8 := 0xE1
def keyUp : BitVec 8 := 0xE2
def keyDn : BitVec 8 := 0xE3
def keyLf : BitVec 8 := 0xE4
def keyRt : BitVec 8 := 0xE5
def keyPgup : BitVec 8 := 0xE6
def keyPgdn : BitVec 8 := 0xE7
def keyIns : BitVec 8 := 0xE8
def keyDel : BitVec 8 := 0xE9

/-- The modifier of a key. -/
def shiftcode (data : BitVec 8) : BitVec 32 :=
  match data.toNat with
  | 0x1D | 0x9D => kbdCtl
  | 0x2A | 0x36 => kbdShift
  | 0x38 | 0xB8 => kbdAlt
  | _ => 0

/-- The lock of a key. -/
def togglecode (data : BitVec 8) : BitVec 32 :=
  match data.toNat with
  | 0x3A => kbdCapslock
  | 0x45 => kbdNumlock
  | 0x46 => kbdScrolllock
  | _ => 0

/-- A row of characters in a table. -/
def keyRow (cs : List Char) : List (BitVec 8) := cs.map fun c => BitVec.ofNat 8 c.toNat

/-- The keys from `0x37` on, which are the same in `normalmap` and `shiftmap`. -/
def keypadRows : List (BitVec 8) :=
  keyRow ['*'] ++ [0] ++ keyRow [' '] ++ List.replicate 13 0 ++ keyRow
    ['7', '8', '9', '-', '4', '5', '6', '+', '1', '2', '3', '0', '.']

/-- The keys of the cursor pad, which are the same in all tables. -/
def cursorPad (data : BitVec 8) : BitVec 8 :=
  match data.toNat with
  | 0xC8 => keyUp
  | 0xC9 => keyPgup
  | 0xCB => keyLf
  | 0xCD => keyRt
  | 0xCF => keyEnd
  | 0xD0 => keyDn
  | 0xD1 => keyPgdn
  | 0xD2 => keyIns
  | 0xD3 => keyDel
  | _ => 0

/-- `[0xC7]`, `[0x9C]`, `[0xB5]` and the cursor pad in `normalmap` and `shiftmap`. -/
def extendedKey (data : BitVec 8) : BitVec 8 :=
  match data.toNat with
  | 0xC7 => keyHome
  | 0x9C => 0x0A
  | 0xB5 => 0x2F
  | _ => cursorPad data

def normalRows : List (BitVec 8) :=
  [0, 0x1B] ++ keyRow ['1', '2', '3', '4', '5', '6', '7', '8', '9', '0', '-', '='] ++
    [0x08, 0x09] ++
    keyRow ['q', 'w', 'e', 'r', 't', 'y', 'u', 'i', 'o', 'p', '[', ']'] ++ [0x0A, 0] ++
    keyRow ['a', 's', 'd', 'f', 'g', 'h', 'j', 'k', 'l', ';'] ++ [0x27, 0x60, 0, 0x5C] ++
    keyRow ['z', 'x', 'c', 'v', 'b', 'n', 'm', ',', '.', '/'] ++ [0] ++ keypadRows

def normalmap (data : BitVec 8) : BitVec 8 :=
  if data.toNat < 0x80 then normalRows.getD data.toNat 0 else extendedKey data

def shiftRows : List (BitVec 8) :=
  [0, 0x1B] ++ keyRow ['!', '@', '#', '$', '%', '^', '&', '*', '(', ')', '_', '+'] ++
    [0x08, 0x09] ++
    keyRow ['Q', 'W', 'E', 'R', 'T', 'Y', 'U', 'I', 'O', 'P'] ++ [0x7B, 0x7D, 0x0A, 0] ++
    keyRow ['A', 'S', 'D', 'F', 'G', 'H', 'J', 'K', 'L', ':'] ++ [0x22, 0x7E, 0, 0x7C] ++
    keyRow ['Z', 'X', 'C', 'V', 'B', 'N', 'M', '<', '>', '?'] ++ [0] ++ keypadRows

def shiftmap (data : BitVec 8) : BitVec 8 :=
  if data.toNat < 0x80 then shiftRows.getD data.toNat 0 else extendedKey data

/-- `C(x)` of the characters of a row. -/
def ctlRow (cs : List Char) : List (BitVec 8) := (keyRow cs).map fun c => c - 0x40

def ctlRows : List (BitVec 8) :=
  List.replicate 16 0 ++ ctlRow ['Q', 'W', 'E', 'R', 'T', 'Y', 'U', 'I', 'O', 'P'] ++
    [0, 0, 0x0D, 0] ++
    ctlRow ['A', 'S', 'D', 'F', 'G', 'H', 'J', 'K', 'L'] ++ [0, 0, 0, 0] ++
    ctlRow ['\\', 'Z', 'X', 'C', 'V', 'B', 'N', 'M'] ++ [0, 0] ++ ctlRow ['/']

/-- `KEY_HOME` stands at `0x97` here, and not at `0xC7`. -/
def ctlmap (data : BitVec 8) : BitVec 8 :=
  if data.toNat < 0x80 then ctlRows.getD data.toNat 0
  else
    match data.toNat with
    | 0x97 => keyHome
    | 0xB5 => 0x2F - 0x40
    | _ => cursorPad data

/-- `charcode[i]`. -/
def charcode (i : BitVec 32) : BitVec 8 → BitVec 8 :=
  match i.toNat with
  | 0 => normalmap
  | 1 => shiftmap
  | _ => ctlmap

/-! ### A byte -/

/-- The letters change case under `CAPSLOCK`. -/
def capslocked (c : BitVec 8) : BitVec 8 :=
  if 0x61 ≤ c ∧ c ≤ 0x7A then c + (0x41 - 0x61)
  else if 0x41 ≤ c ∧ c ≤ 0x5A then c + (0x61 - 0x41)
  else c

/-- What `kbd_proc_data` does with a byte: the character that it returns, the word `shift`, and
whether it reboots the machine. -/
structure KbdRead where
  c : BitVec 8
  shift : BitVec 32
  reboot : Bool
  deriving DecidableEq, Repr

/-- The end of `kbd_proc_data`, for a key that is pressed. -/
def kbdPressed (shift : BitVec 32) (data : BitVec 8) : KbdRead :=
  let shift := shift ||| shiftcode data
  let shift := shift ^^^ togglecode data
  let c := charcode (shift &&& (kbdCtl ||| kbdShift)) data
  let c := if shift &&& kbdCapslock ≠ 0 then capslocked c else c
  ⟨c, shift, ~~~shift &&& (kbdCtl ||| kbdAlt) = 0 && c = keyDel⟩

/-- **`kbd_proc_data()`**, for the byte that the controller has. The line that is printed before the
reboot is left out; `Kern.kbdIntr` has it, with the lock that printing takes. -/
def kbdProcData (shift : BitVec 32) (data : BitVec 8) : KbdRead :=
  if data = 0xE0#8 then ⟨0, shift ||| kbdE0esc, false⟩
  else if data &&& 0x80#8 ≠ 0#8 then
    let data := if shift &&& kbdE0esc ≠ 0 then data else data &&& 0x7F#8
    ⟨0, shift &&& ~~~(shiftcode data ||| kbdE0esc), false⟩
  else if shift &&& kbdE0esc ≠ 0 then kbdPressed (shift &&& ~~~kbdE0esc) (data ||| 0x80#8)
  else kbdPressed shift data

/-! ### Keys -/

/-- The modifiers. -/
inductive Modifier
  | shift | ctl | alt
  deriving DecidableEq, Repr

/-- The locks. -/
inductive KeyLock
  | caps | num | scroll
  deriving DecidableEq, Repr

/-- The place of the modifier in the word. -/
def Modifier.bit : Modifier → ℕ
  | shift => 0
  | ctl => 1
  | alt => 2

/-- The place of the lock in the word. -/
def KeyLock.bit : KeyLock → ℕ
  | caps => 3
  | num => 4
  | scroll => 5

/-- The modifier that a key is for: there are two keys for each. -/
def modifierOf (key : BitVec 8) : Option Modifier :=
  match key.toNat with
  | 0x1D | 0x9D => some .ctl
  | 0x2A | 0x36 => some .shift
  | 0x38 | 0xB8 => some .alt
  | _ => none

/-- The lock that a key is for. -/
def lockOf (key : BitVec 8) : Option KeyLock :=
  match key.toNat with
  | 0x3A => some .caps
  | 0x45 => some .num
  | 0x46 => some .scroll
  | _ => none

/-- **A key is pressed or released.**  The high bit of `key` tells the extended keys. -/
structure KeyEvent where
  key : BitVec 8
  pressed : Bool
  deriving DecidableEq, Repr

/-- The key of a byte, after an escape or not. -/
def keyOf (esc : Bool) (data : BitVec 8) : BitVec 8 :=
  if esc then data ||| 0x80#8 else data &&& 0x7F#8

/-- **The keys that a sequence of bytes stands for**, after an escape or not. -/
def keyEvents : Bool → List (BitVec 8) → List KeyEvent
  | _, [] => []
  | esc, data :: ds =>
      if data = 0xE0#8 then keyEvents true ds else ⟨keyOf esc data, data &&& 0x80#8 = 0#8⟩ ::
        keyEvents false ds

/-- There is an escape that is not finished after the bytes. -/
def escaped (esc : Bool) (ds : List (BitVec 8)) : Bool := ds.foldl (fun _ data => data = 0xE0#8) esc

/-- **The modifier is held**: the last event of its keys was a press. Where both keys of a modifier
are down, the release of one of them ends it. -/
def Held (m : Modifier) (es : List KeyEvent) : Bool :=
  (es.reverse.find? fun e => modifierOf e.key = some m).any KeyEvent.pressed

/-- **The lock is on**: its key was pressed an odd number of times. -/
def Locked (l : KeyLock) (es : List KeyEvent) : Bool :=
  (es.countP fun e => e.pressed && lockOf e.key = some l) % 2 = 1

/-- The character of a key. -/
def keyChar (shift ctl caps : Bool) (key : BitVec 8) : BitVec 8 :=
  let c := (if ctl then ctlmap else if shift then shiftmap else normalmap) key
  if caps then capslocked c else c

/-- **The character of an event** after others, or 0. -/
def charOf (es : List KeyEvent) (e : KeyEvent) : BitVec 8 :=
  if e.pressed then keyChar (Held .shift (es ++ [e])) (Held .ctl (es ++ [e]))
    (Locked .caps (es ++ [e])) e.key else 0

/-- **The characters of the events** `es'` after `es`. -/
def typedAfter : List KeyEvent → List KeyEvent → List (BitVec 8)
  | _, [] => []
  | es, e :: es' =>
      if charOf es e = 0#8 then typedAfter (es ++ [e]) es'
        else charOf es e :: typedAfter (es ++ [e]) es'

/-- The events that reboot the machine: the key `Del` of the cursor pad, while the modifiers are
held. -/
def rebootsAt (es : List KeyEvent) (e : KeyEvent) : Bool :=
  e.pressed && e.key = 0xD3#8 && Held .ctl (es ++ [e]) && Held .alt (es ++ [e])

/-! ### The word -/

/-- A test of one bit. -/
theorem and_bit_ne_zero {k : ℕ} (hk : k < 32) (x : BitVec 32) :
    x &&& BitVec.twoPow 32 k ≠ 0 ↔ x.getLsbD k = true := by
  rw [BitVec.and_twoPow]
  cases hx : x.getLsbD k with
  | false => simp
  | true =>
      have hbit : (BitVec.twoPow 32 k).getLsbD k = true := by simp [hk]
      refine ⟨fun _ => rfl, fun _ h => ?_⟩
      rw [if_pos rfl] at h
      rw [h] at hbit
      simp at hbit

theorem Modifier.bit_lt (m : Modifier) : m.bit < 3 := by cases m <;> decide

theorem KeyLock.bit_mem (l : KeyLock) : 3 ≤ l.bit ∧ l.bit < 6 := by cases l <;> decide

@[simp] theorem shiftcode_bit (data : BitVec 8) (m : Modifier) :
    (shiftcode data).getLsbD m.bit = decide (modifierOf data = some m) := by
  unfold shiftcode modifierOf
  split <;> cases m <;> rfl

@[simp] theorem togglecode_bit (data : BitVec 8) (l : KeyLock) :
    (togglecode data).getLsbD l.bit = decide (lockOf data = some l) := by
  unfold togglecode lockOf
  split <;> cases l <;> rfl

@[simp] theorem shiftcode_lock (data : BitVec 8) (l : KeyLock) :
    (shiftcode data).getLsbD l.bit = false := by
  unfold shiftcode
  split <;> cases l <;> rfl

@[simp] theorem shiftcode_esc (data : BitVec 8) : (shiftcode data).getLsbD 6 = false := by
  unfold shiftcode
  split <;> rfl

@[simp] theorem togglecode_modifier (data : BitVec 8) (m : Modifier) :
    (togglecode data).getLsbD m.bit = false := by
  unfold togglecode
  split <;> cases m <;> rfl

@[simp] theorem togglecode_esc (data : BitVec 8) : (togglecode data).getLsbD 6 = false := by
  unfold togglecode
  split <;> rfl

/-! ### Histories -/

theorem held_snoc (m : Modifier) (es : List KeyEvent) (e : KeyEvent) :
    Held m (es ++ [e]) = if modifierOf e.key = some m then e.pressed else Held m es := by
  rw [Held, List.reverse_append, List.reverse_singleton, List.singleton_append, List.find?_cons]
  by_cases h : modifierOf e.key = some m
  · simp [h]
  · simp [h, Held]

theorem locked_snoc (l : KeyLock) (es : List KeyEvent) (e : KeyEvent) :
    Locked l (es ++ [e]) = (Locked l es ^^ (e.pressed && decide (lockOf e.key = some l))) := by
  rw [Locked, Locked, List.countP_append, List.countP_singleton]
  cases e.pressed && decide (lockOf e.key = some l) with
  | false => simp
  | true =>
      rcases Nat.mod_two_eq_zero_or_one (es.countP fun e => e.pressed &&
        decide (lockOf e.key = some l)) with h | h
      · simp [Nat.add_mod, h]
      · simp [Nat.add_mod, h]

/-- **The word `shift` after the events** `es`, and an escape that is not finished or not. -/
structure KbdState (shift : BitVec 32) (esc : Bool) (es : List KeyEvent) : Prop where
  held : ∀ m : Modifier, shift.getLsbD m.bit = Held m es
  locked : ∀ l : KeyLock, shift.getLsbD l.bit = Locked l es
  escape : shift.getLsbD 6 = esc

@[simp] theorem kbdE0esc_bit (k : ℕ) : kbdE0esc.getLsbD k = decide (k = 6) := by
  rw [show kbdE0esc = BitVec.twoPow 32 6 by decide, BitVec.getLsbD_twoPow]
  by_cases hk : k = 6
  · simp [hk]
  · simp [hk, Ne.symm hk]

theorem Modifier.bit_ne (m : Modifier) : m.bit ≠ 6 := by cases m <;> decide

theorem KeyLock.bit_ne (l : KeyLock) : l.bit ≠ 6 := by cases l <;> decide

namespace KbdState

variable {shift : BitVec 32} {esc : Bool} {es : List KeyEvent}

theorem esc_iff (h : KbdState shift esc es) : shift &&& kbdE0esc ≠ 0 ↔ esc = true := by
  rw [show kbdE0esc = BitVec.twoPow 32 6 by decide, and_bit_ne_zero (by decide), h.escape]

theorem boot : KbdState 0 false [] where
  held m := by simp [Held]
  locked l := by simp [Locked]
  escape := by simp

/-- **An escape.** -/
theorem escape_byte (h : KbdState shift esc es) : KbdState (shift ||| kbdE0esc) true es where
  held m := by simp [h.held, m.bit_ne]
  locked l := by simp [h.locked, l.bit_ne]
  escape := by simp

/-- The end of an escape. -/
theorem unescape (h : KbdState shift esc es) : KbdState (shift &&& ~~~kbdE0esc) false es where
  held m := by
    have hm := m.bit_lt
    simp [h.held, m.bit_ne]
    omega
  locked l := by
    have hl := l.bit_mem
    simp [h.locked, l.bit_ne]
    omega
  escape := by simp

/-- **A key is released.** -/
theorem release (h : KbdState shift esc es) (key : BitVec 8) :
    KbdState (shift &&& ~~~(shiftcode key ||| kbdE0esc)) false (es ++ [⟨key, false⟩]) where
  held m := by
    have hm := m.bit_lt
    rw [held_snoc]
    by_cases hkey : modifierOf key = some m
    · simp [hkey]
    · simp [hkey, h.held, m.bit_ne]
      omega
  locked l := by
    have hl := l.bit_mem
    rw [locked_snoc]
    simp [h.locked, l.bit_ne]
    omega
  escape := by simp

/-- **A key is pressed**: the word. -/
theorem press (h : KbdState shift false es) (key : BitVec 8) :
    KbdState ((shift ||| shiftcode key) ^^^ togglecode key) false (es ++ [⟨key, true⟩]) where
  held m := by
    rw [held_snoc]
    by_cases hkey : modifierOf key = some m
    · simp [hkey]
    · simp [hkey, h.held]
  locked l := by
    rw [locked_snoc]
    simp [h.locked]
  escape := by
    rw [BitVec.getLsbD_xor, BitVec.getLsbD_or, h.escape, shiftcode_esc, togglecode_esc]
    rfl

end KbdState

/-- The map that the modifiers choose. -/
theorem charcode_bits (w : BitVec 32) :
    charcode (w &&& (kbdCtl ||| kbdShift)) = if w.getLsbD 1 then ctlmap
      else if w.getLsbD 0 then shiftmap else normalmap := by
  have hlow : (w &&& (kbdCtl ||| kbdShift)).toNat = w.toNat % 4 :=
    Nat.and_two_pow_sub_one_eq_mod w.toNat 2
  have hcases : w.toNat % 4 = 0 ∨ w.toNat % 4 = 1 ∨ w.toNat % 4 = 2 ∨ w.toNat % 4 = 3 := by omega
  have hbit₀ : w.getLsbD 0 = decide (w.toNat % 4 % 2 = 1) := by
    rw [← BitVec.testBit_toNat, Nat.testBit_zero, Nat.mod_mod_of_dvd _ (by decide)]
  have hbit₁ : w.getLsbD 1 = decide (w.toNat % 4 / 2 = 1) := by
    rw [← BitVec.testBit_toNat, Nat.testBit_succ, Nat.testBit_zero]
    exact decide_eq_decide.2 (by omega)
  rw [charcode, hlow, hbit₀, hbit₁]
  rcases hcases with h | h | h | h
  · simp [h]
  · simp [h]
  · simp [h]
  · simp [h]

/-- What `kbd_proc_data` looks at in the word of the events. -/
theorem KbdState.maps {w : BitVec 32} {esc : Bool} {es : List KeyEvent} (h : KbdState w esc es) :
    charcode (w &&& (kbdCtl ||| kbdShift)) = (if Held .ctl es then ctlmap
      else if Held .shift es then shiftmap else normalmap) ∧
      (w &&& kbdCapslock ≠ 0 ↔ Locked .caps es = true) ∧
      (~~~w &&& (kbdCtl ||| kbdAlt) = 0 ↔ Held .ctl es = true ∧ Held .alt es = true) := by
  have hctl : w.getLsbD 1 = Held .ctl es := h.held .ctl
  have hshift : w.getLsbD 0 = Held .shift es := h.held .shift
  have halt : w.getLsbD 2 = Held .alt es := h.held .alt
  have hcaps : w.getLsbD 3 = Locked .caps es := h.locked .caps
  refine ⟨?_, ?_, ?_⟩
  · rw [charcode_bits, hctl, hshift]
  · rw [show kbdCapslock = BitVec.twoPow 32 3 by decide, and_bit_ne_zero (by decide), hcaps]
  · have hnot : ∀ k < 32, ~~~w &&& BitVec.twoPow 32 k = 0 ↔ w.getLsbD k = true := by
      intro k hk
      rw [← not_iff_not, ← ne_eq, and_bit_ne_zero hk, BitVec.getLsbD_not]
      simp [hk]
    rw [show kbdCtl ||| kbdAlt = BitVec.twoPow 32 1 ||| BitVec.twoPow 32 2 by decide,
      BitVec.and_or_distrib_left]
    change _ = 0#32 ↔ _
    rw [BitVec.or_eq_zero_iff, ← hctl, ← halt]
    exact and_congr (hnot 1 (by decide)) (hnot 2 (by decide))

/-- The letters are not `KEY_DEL`. -/
theorem capslocked_del (c : BitVec 8) : capslocked c = keyDel ↔ c = keyDel := by
  rw [capslocked, keyDel]
  split_ifs with hlow hup
  · exact ⟨fun h => by bv_omega, fun h => by bv_omega⟩
  · exact ⟨fun h => by bv_omega, fun h => by bv_omega⟩
  · exact Iff.rfl

theorem cursorPad_del (key : BitVec 8) : cursorPad key = keyDel ↔ key.toNat = 0xD3 := by
  rw [cursorPad]
  split <;> simp_all [keyUp, keyPgup, keyLf, keyRt, keyEnd, keyDn, keyPgdn, keyIns, keyDel]

/-- `KEY_DEL` stands in one place of the map. -/
theorem ctlmap_del (key : BitVec 8) : ctlmap key = keyDel ↔ key = 0xD3#8 := by
  have hkey : key = 0xD3#8 ↔ key.toNat = 0xD3 := BitVec.toNat_inj.symm
  rw [hkey, ctlmap]
  split
  · next hlow =>
      have hrows : ∀ c ∈ ctlRows, c ≠ keyDel := by decide
      have hrow : ctlRows.getD key.toNat 0 ≠ keyDel := by
        rw [List.getD_eq_getElem?_getD]
        cases hc : ctlRows[key.toNat]? with
        | none => decide
        | some c => exact hrows c (List.mem_of_getElem? hc)
      exact ⟨fun h => absurd h hrow, fun h => by omega⟩
  · split
    · next h => simp [h, keyHome, keyDel]
    · next h => simp [h, keyDel]
    · exact cursorPad_del key

/-- `KEY_DEL` is the character of one key, where `CTL` is held. -/
theorem keyChar_del (shift caps : Bool) (key : BitVec 8) :
    keyChar shift true caps key = keyDel ↔ key = 0xD3#8 := by
  rw [keyChar, if_pos rfl]
  cases caps with
  | false => exact ctlmap_del key
  | true => exact (capslocked_del _).trans (ctlmap_del key)

/-- **A key is pressed.** -/
theorem KbdState.pressed {w : BitVec 32} {es : List KeyEvent} (h : KbdState w false es)
    (key : BitVec 8) :
    KbdState (kbdPressed w key).shift false (es ++ [⟨key, true⟩]) ∧ (kbdPressed w key).c =
      charOf es ⟨key, true⟩ ∧
      (kbdPressed w key).reboot = rebootsAt es ⟨key, true⟩ := by
  have hpress := h.press key
  obtain ⟨hmap, hcaps, hboth⟩ := hpress.maps
  have hchar : (kbdPressed w key).c = charOf es ⟨key, true⟩ := by
    simp only [kbdPressed, charOf, keyChar, hmap, hcaps, if_true]
  refine ⟨hpress, hchar, ?_⟩
  have hreboot : (kbdPressed w key).reboot =
      (decide (Held .ctl (es ++ [⟨key, true⟩]) = true ∧ Held .alt (es ++ [⟨key, true⟩]) = true) &&
        decide ((kbdPressed w key).c = keyDel)) := by
    rw [← decide_eq_decide.2 hboth]
    rfl
  rw [hreboot, hchar, rebootsAt, charOf, if_pos rfl]
  cases hctl : Held .ctl (es ++ [⟨key, true⟩]) with
  | false => simp
  | true => simp [keyChar_del, Bool.and_comm]

/-- The high bit of a byte. -/
theorem and_high (data : BitVec 8) : data &&& 0x80#8 = if data.getLsbD 7 then 0x80#8 else 0#8 :=
  BitVec.and_twoPow data 7

theorem and_low {data : BitVec 8} (h : data &&& 0x80#8 = 0#8) : data &&& 0x7F#8 = data := by
  calc data &&& 0x7F#8 = (data &&& 0x7F#8) ||| (data &&& 0x80#8) := by rw [h, BitVec.or_zero]
    _ = data &&& BitVec.allOnes 8 := (BitVec.and_or_distrib_left ..).symm
    _ = data := BitVec.and_allOnes

theorem or_high {data : BitVec 8} (h : data &&& 0x80#8 ≠ 0#8) : data ||| 0x80#8 = data := by
  have hbit : data.getLsbD 7 = true := by
    by_contra hno
    rw [and_high, if_neg hno] at h
    exact h rfl
  have hand := and_high data
  rw [if_pos hbit] at hand
  calc data ||| 0x80#8 = data ||| (data &&& 0x80#8) := by rw [hand]
    _ = data := BitVec.eq_of_getLsbD_eq fun i _ => by
        rw [BitVec.getLsbD_or, BitVec.getLsbD_and]
        cases data.getLsbD i <;> rfl

/-- **One byte**, which ends an event unless it is an escape. -/
theorem KbdState.step {w : BitVec 32} {esc : Bool} {es : List KeyEvent} (h : KbdState w esc es)
    (data : BitVec 8) :
    KbdState (kbdProcData w data).shift (data = 0xE0#8) (es ++ keyEvents esc [data]) ∧
      (kbdProcData w data).c = ((keyEvents esc [data]).map (charOf es)).headD 0 ∧
      (kbdProcData w data).reboot = (keyEvents esc [data]).any (rebootsAt es) := by
  by_cases hE0 : data = 0xE0#8
  · subst hE0
    refine ⟨?_, rfl, rfl⟩
    rw [show keyEvents esc [0xE0#8] = [] from rfl, List.append_nil]
    exact h.escape_byte
  · have hev : keyEvents esc [data] = [⟨keyOf esc data, data &&& 0x80#8 = 0#8⟩] := by
      rw [keyEvents, if_neg hE0, keyEvents]
    rw [hev, decide_eq_false hE0]
    by_cases hup : data &&& 0x80#8 = 0#8
    · have hpressed : kbdProcData w data = kbdPressed (if esc then w &&& ~~~kbdE0esc else w)
          (keyOf esc data) := by
        rw [kbdProcData, if_neg hE0, if_neg (not_not_intro hup)]
        cases esc with
        | false =>
            have hlow := and_low hup
            rw [if_neg fun hc => Bool.false_ne_true (h.esc_iff.1 hc), keyOf,
              if_neg Bool.false_ne_true, if_neg Bool.false_ne_true, hlow]
        | true => rw [if_pos (h.esc_iff.2 rfl), keyOf, if_pos rfl, if_pos rfl]
      have hword : KbdState (if esc then w &&& ~~~kbdE0esc else w) false es := by
        cases esc with
        | false => exact h
        | true => exact h.unescape
      rw [hpressed, decide_eq_true hup]
      simpa using hword.pressed (keyOf esc data)
    · have hreleased : kbdProcData w data =
          ⟨0, w &&& ~~~(shiftcode (keyOf esc data) ||| kbdE0esc), false⟩ := by
        rw [kbdProcData, if_neg hE0, if_pos hup]
        cases esc with
        | false => rw [if_neg fun hc => Bool.false_ne_true (h.esc_iff.1 hc)]; rfl
        | true =>
            have hhigh := or_high hup
            rw [if_pos (h.esc_iff.2 rfl), keyOf, if_pos rfl, hhigh]
      rw [hreleased, decide_eq_false hup]
      refine ⟨h.release _, ?_, ?_⟩
      · simp [charOf]
      · simp [rebootsAt]

/-! ### Bytes -/

/-- **The characters that `kbd_proc_data` returns** for some bytes, without the zeros. -/
def kbdTyped : BitVec 32 → List (BitVec 8) → List (BitVec 8)
  | _, [] => []
  | shift, data :: ds =>
      let r := kbdProcData shift data
      if r.c = 0#8 then kbdTyped r.shift ds else r.c :: kbdTyped r.shift ds

/-- The word after some bytes. -/
def kbdWord (shift : BitVec 32) (ds : List (BitVec 8)) : BitVec 32 :=
  ds.foldl (fun shift data => (kbdProcData shift data).shift) shift

theorem keyEvents_cons (esc : Bool) (data : BitVec 8) (ds : List (BitVec 8)) :
    keyEvents esc (data :: ds) = keyEvents esc [data] ++ keyEvents (data = 0xE0#8) ds := by
  rw [keyEvents, keyEvents]
  by_cases hE0 : data = 0xE0#8
  · simp [hE0, keyEvents]
  · rw [if_neg hE0, if_neg hE0, decide_eq_false hE0]
    rfl

theorem keyEvents_length_one (esc : Bool) (data : BitVec 8) :
    keyEvents esc [data] = [] ∨ ∃ e, keyEvents esc [data] = [e] := by
  rw [keyEvents]
  split
  · exact Or.inl rfl
  · exact Or.inr ⟨_, rfl⟩

/-- **Some bytes**, after others. -/
theorem KbdState.run {w : BitVec 32} {esc : Bool} {es : List KeyEvent} (h : KbdState w esc es)
    (ds : List (BitVec 8)) :
    kbdTyped w ds = typedAfter es (keyEvents esc ds) ∧
      KbdState (kbdWord w ds) (escaped esc ds) (es ++ keyEvents esc ds) := by
  induction ds generalizing w esc es with
  | nil => exact ⟨rfl, by simpa [kbdWord, escaped, keyEvents] using h⟩
  | cons data ds ih =>
      obtain ⟨hword, hchar, -⟩ := h.step data
      obtain ⟨htyped, hrest⟩ := ih hword
      rw [keyEvents_cons, ← List.append_assoc]
      refine ⟨?_, hrest⟩
      rw [kbdTyped]
      rcases keyEvents_length_one esc data with hev | ⟨e, hev⟩
      · simp [hev, hchar, htyped]
      · simp [hev, hchar, htyped, typedAfter]

/-- **What is typed**: for every sequence of bytes after the start, the characters are those of the
keys, and the word tells which modifiers are held and which locks are on. -/
theorem kbd_types_keys (ds : List (BitVec 8)) :
    kbdTyped 0 ds = typedAfter [] (keyEvents false ds) ∧
      (∀ m : Modifier, (kbdWord 0 ds).getLsbD m.bit = Held m (keyEvents false ds)) ∧
      ∀ l : KeyLock, (kbdWord 0 ds).getLsbD l.bit = Locked l (keyEvents false ds) := by
  obtain ⟨htyped, hstate⟩ := KbdState.boot.run ds
  rw [List.nil_append] at hstate
  exact ⟨htyped, hstate.held, hstate.locked⟩

/-- The letters of the rows. -/
theorem letter_rows : ∀ k < 0x54, 0x61 ≤ normalRows.getD k 0 ∧ normalRows.getD k 0 ≤ 0x7A →
    shiftRows.getD k 0 = normalRows.getD k 0 - 0x20 ∧ ctlRows.getD k 0 =
      normalRows.getD k 0 - 0x60 := by
  decide

/-- The keys of the cursor pad are not letters. -/
theorem extendedKey_letter (key : BitVec 8) :
    ¬ (0x61 ≤ extendedKey key ∧ extendedKey key ≤ 0x7A) := by
  rw [extendedKey]
  split
  · decide
  · decide
  · decide
  · rw [cursorPad]
    split <;> decide

/-- **A letter** is a capital exactly when one of shift and caps lock is on, and a control character
while `CTL` is held. -/
theorem keyChar_letter (shift ctl caps : Bool) (key : BitVec 8)
    (h : 0x61 ≤ normalmap key ∧ normalmap key ≤ 0x7A) :
    keyChar shift ctl caps key = if ctl then normalmap key - 0x60
      else if shift != caps then normalmap key - 0x20 else normalmap key := by
  obtain ⟨hshift, hctl⟩ : shiftmap key = normalmap key - 0x20 ∧
    ctlmap key = normalmap key - 0x60 := by
    rw [normalmap] at h ⊢
    rw [shiftmap, ctlmap]
    split at h
    · next hlow =>
        have hkey : key.toNat < 0x54 := by
          by_contra hno
          rw [List.getD_eq_getElem?_getD, List.getElem?_eq_none (Nat.not_lt.1 hno)] at h
          simp at h
        simpa [hlow] using letter_rows key.toNat hkey h
    · exact absurd h (extendedKey_letter key)
  have hsmall : capslocked (normalmap key) = normalmap key - 0x20#8 := by
    rw [capslocked, if_pos h]
    bv_omega
  have hcapital : capslocked (normalmap key - 0x20#8) = normalmap key := by
    rw [capslocked, if_neg (by bv_omega), if_pos (by bv_omega)]
    bv_omega
  have hcontrol : capslocked (normalmap key - 0x60#8) = normalmap key - 0x60#8 := by
    rw [capslocked, if_neg (by bv_omega), if_neg (by bv_omega)]
  cases ctl <;> cases shift <;> cases caps <;>
    simp [keyChar, hshift, hctl, hsmall, hcapital, hcontrol]

theorem keyOf_del (esc : Bool) (data : BitVec 8) :
    (data &&& 0x80#8 = 0#8 ∧ keyOf esc data = 0xD3#8) ↔ data = 0x53#8 ∧ esc = true := by
  cases esc with
  | false =>
      have hlow : data &&& 0x7F#8 ≠ 0xD3#8 := by
        intro h
        have hbit := congrArg (BitVec.getLsbD · 7) h
        simp at hbit
      simp [keyOf, hlow]
  | true =>
      rw [keyOf, if_pos rfl]
      constructor
      · rintro ⟨hlow, hkey⟩
        refine ⟨?_, rfl⟩
        calc data = data &&& 0x7F#8 := (and_low hlow).symm
          _ = (data ||| 0x80#8) &&& 0x7F#8 := by
            rw [BitVec.and_or_distrib_right]
            exact BitVec.or_zero.symm
          _ = 0x53#8 := by rw [hkey]; rfl
      · rintro ⟨rfl, -⟩
        exact ⟨rfl, rfl⟩

/-- The key `Del` is not a modifier. -/
theorem rebootsAt_iff (es : List KeyEvent) (e : KeyEvent) :
    rebootsAt es e = true ↔ (e.pressed = true ∧ e.key = 0xD3#8) ∧ Held .ctl es = true ∧
      Held .alt es = true := by
  by_cases hkey : e.key = 0xD3#8
  · have hnone : modifierOf 0xD3#8 = none := rfl
    simp [rebootsAt, held_snoc, hnone, hkey, and_assoc]
  · simp [rebootsAt, hkey]

/-- **The machine is rebooted** exactly by the key `Del` of the cursor pad, while both `CTL` and
`ALT` are held. -/
theorem kbd_reboots_iff (ds : List (BitVec 8)) (data : BitVec 8) :
    (kbdProcData (kbdWord 0 ds) data).reboot = true ↔
      data = 0x53#8 ∧ escaped false ds = true ∧ Held .ctl (keyEvents false ds) = true ∧
        Held .alt (keyEvents false ds) = true := by
  obtain ⟨-, hstate⟩ := KbdState.boot.run ds
  rw [List.nil_append] at hstate
  obtain ⟨-, -, hreboot⟩ := hstate.step data
  rw [hreboot, ← and_assoc, ← keyOf_del]
  by_cases hE0 : data = 0xE0#8
  · subst hE0
    simp [keyEvents]
  · rw [keyEvents, if_neg hE0, keyEvents, List.any_cons, List.any_nil, Bool.or_false, rebootsAt_iff]
    simp

end Jos
