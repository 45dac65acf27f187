/-
**A line of input.**

`readline` edits a line while it is typed, and echoes every change. What stands in the buffer is the
line as edited, and what stands on the screen before the cursor is what stands in the buffer.

Main definitions:

* `Jos.readChar`, `Jos.readline` — one character, and the loop;
* `Jos.editKey` — what a character does to a line;
* `Jos.Edited` — the buffer has the line;
* `Jos.OnPaper` — the line stands on the paper before the cursor.

Main results:

* `Jos.Edited.step` — one character;
* `Jos.readline_edits` — **the line as edited is in the buffer, and on the screen**;
* `Jos.readline_returns` — **the first newline ends the line**, whatever was typed before.
-/

import JosKernel.CString
import JosKernel.Printfmt
import JosKernel.Screen

set_option relaxedAutoImplicit false
set_option autoImplicit false

namespace Jos

open CString

/-! ### The loop -/

def bufLen : ℕ := 1024

/-- The variable `i` of `readline`, the memory with `buf`, and the console. -/
structure LineState where
  i : ℕ
  mem : BitVec 32 → BitVec 8
  out : ConsOut

/-- What a character leads to: the next round, or a return with `NULL` or with `buf`. -/
inductive LineStep
  | more (s : LineState)
  | null (s : LineState)
  | line (s : LineState)

/-- **A round of the loop**, for the character `c`. -/
def readChar (buf : BitVec 32) (echoing : Bool) (s : LineState) (c : BitVec 32) : LineStep :=
  if c.slt 0 then .null
    { s with out := s.out.puts ("read error: ".toList.map chr ++ putError c ++ [chr '\n']) }
  else if (c = 0x08#32 ∨ c = 0x7F#32) ∧ s.i > 0 then .more
    { s with i := s.i - 1, out := if echoing then s.out.consPutc 0x08#32 else s.out }
  else if (0x20#32).sle c ∧ s.i < bufLen - 1 then
    .more
      { i := s.i + 1
        mem := Function.update s.mem (buf + BitVec.ofNat 32 s.i) (c.setWidth 8)
        out := if echoing then s.out.consPutc c else s.out }
  else if c = 0x0A#32 ∨ c = 0x0D#32 then
    .line
      { s with
        mem := Function.update s.mem (buf + BitVec.ofNat 32 s.i) 0
        out := if echoing then s.out.consPutc 0x0A#32 else s.out }
  else .more s

/-- How far `readline` comes with some characters: it waits for more, or it has returned, and some
are left. -/
inductive ReadEnd
  | waiting (s : LineState)
  | null (s : LineState) (rest : List (BitVec 32))
  | line (s : LineState) (rest : List (BitVec 32))

/-- The loop of `readline`, for the characters of `getchar`. -/
def readlineFrom (buf : BitVec 32) (echoing : Bool) : LineState → List (BitVec 32) → ReadEnd
  | s, [] => .waiting s
  | s, c :: cs =>
      match readChar buf echoing s c with
      | .more s => readlineFrom buf echoing s cs
      | .null s => .null s cs
      | .line s => .line s cs

/-- **`readline(prompt)`**, with the text of the prompt. -/
def readline (buf : BitVec 32) (echoing : Bool) (prompt : List (BitVec 32))
    (mem : BitVec 32 → BitVec 8) (out : ConsOut) (cs : List (BitVec 32)) : ReadEnd :=
  readlineFrom buf echoing ⟨0, mem, out.puts prompt⟩ cs

/-! ### Editing -/

/-- **What a character does to a line.** The last character is erased, or one is added if it is not
a control character and there is room. -/
def editKey (l : List (BitVec 8)) (c : BitVec 32) : List (BitVec 8) :=
  if (c = 0x08#32 ∨ c = 0x7F#32) ∧ l ≠ [] then l.dropLast
  else if 0x20 ≤ c.toNat ∧ l.length < bufLen - 1 then l ++ [c.setWidth 8]
  else l

/-- **The echo** of what a character does to a line. -/
def echoKey {α : Type} (putc : α → BitVec 32 → α) (out : α) (l : List (BitVec 8)) (c : BitVec 32) :
    α :=
  if (c = 0x08#32 ∨ c = 0x7F#32) ∧ l ≠ [] then putc out 0x08#32
  else if 0x20 ≤ c.toNat ∧ l.length < bufLen - 1 then putc out c
  else out

/-- A character as `getchar` of the kernel returns it. -/
def IsChar (c : BitVec 32) : Prop := c.toNat < 256

/-- The end of a line. -/
def IsNewline (c : BitVec 32) : Prop := c = 0x0A#32 ∨ c = 0x0D#32

/-- **The buffer has the line**, and the memory outside of it is as before. -/
structure Edited (buf : BitVec 32) (mem : BitVec 32 → BitVec 8) (s : LineState)
    (l : List (BitVec 8)) : Prop where
  len : s.i = l.length
  room : l.length < bufLen
  block : Bytes s.mem buf l
  char : ∀ c ∈ l, 0x20 ≤ c.toNat
  same : ∀ a, bufLen ≤ (a - buf).toNat → s.mem a = mem a

/-- **The line stands on the paper** from `start` on, and the cursor is behind it. -/
structure OnPaper (start : ℕ) (p : Paper) (l : List (BitVec 8)) : Prop where
  pos : p.pos = start + l.length
  top : p.top * crtCols ≤ start
  cells : ∀ j (h : j < l.length), p.cells (start + j) = 0x0700#16 ||| (l[j]).setWidth 16

/-! ### The buffer -/

theorem slt_zero_of_char {c : BitVec 32} (h : IsChar c) : c.slt 0 = false := by
  have hlt : c.toNat < 256 := h
  change c.slt 0#32 = false
  rw [BitVec.slt_zero_eq_msb, BitVec.msb_eq_false_iff_two_mul_lt]
  omega

theorem space_sle_iff {c : BitVec 32} (h : IsChar c) : (0x20#32).sle c = true ↔ 0x20 ≤ c.toNat := by
  have hlt : c.toNat < 256 := h
  rw [BitVec.sle_iff_toInt_le, BitVec.toInt_eq_toNat_of_lt (x := c) (by omega)]
  exact Int.ofNat_le (m := 32)

namespace Edited

variable {buf c : BitVec 32} {mem : BitVec 32 → BitVec 8} {s : LineState} {l : List (BitVec 8)}

theorem start (buf : BitVec 32) (mem : BitVec 32 → BitVec 8) (out : ConsOut) :
    Edited buf mem ⟨0, mem, out⟩ [] where
  len := rfl
  room := by decide
  block := bytes_nil
  char := by simp
  same := fun _ _ => rfl

/-- A byte behind the line is written. -/
theorem write (h : Edited buf mem s l) (b : BitVec 8) :
    Bytes (Function.update s.mem (buf + BitVec.ofNat 32 s.i) b) buf (l ++ [b]) ∧
      ∀ a, bufLen ≤ (a - buf).toNat →
        Function.update s.mem (buf + BitVec.ofNat 32 s.i) b a = mem a := by
  have hroom := h.room
  have hbuf : bufLen = 1024 := rfl
  rw [h.len]
  refine ⟨h.block.snoc (by omega) b, fun a ha => ?_⟩
  rw [Function.update_of_ne (fun heq => ?_), h.same a ha]
  subst heq
  rw [BitVec.add_comm, BitVec.add_sub_cancel, BitVec.toNat_ofNat] at ha
  omega

/-- The last character is erased. -/
theorem erase (h : Edited buf mem s l) (out : ConsOut) :
    Edited buf mem { s with i := s.i - 1, out := out } l.dropLast where
  len := by simp [h.len]
  room := by
    have hroom := h.room
    rw [List.length_dropLast]
    omega
  block := by
    have hsplit : l.dropLast ++ l.drop (l.length - 1) = l := by
      rw [List.dropLast_eq_take, List.take_append_drop]
    exact (Bytes.append.1 (hsplit.symm ▸ h.block)).1
  char b hb := h.char b (List.mem_of_mem_dropLast hb)
  same := h.same

/-- A character is added. -/
theorem add (h : Edited buf mem s l) (hroom : l.length < bufLen - 1) {b : BitVec 8}
    (hb : 0x20 ≤ b.toNat) (out : ConsOut) :
    Edited buf mem ⟨s.i + 1, Function.update s.mem (buf + BitVec.ofNat 32 s.i) b, out⟩
      (l ++ [b]) where
  len := by simp [h.len]
  room := by
    rw [List.length_append, List.length_singleton]
    omega
  block := (h.write b).1
  char a ha := by
    rcases List.mem_append.1 ha with ha | ha
    · exact h.char a ha
    · rw [List.mem_singleton.1 ha]
      exact hb
  same := (h.write b).2

/-- **A character that does not end the line.** -/
theorem step (h : Edited buf mem s l) (hc : IsChar c) (hnl : ¬ IsNewline c) (echoing : Bool) :
    ∃ s', readChar buf echoing s c = .more s' ∧ Edited buf mem s' (editKey l c) ∧
      s'.out = if echoing then echoKey ConsOut.consPutc s.out l c else s.out := by
  have hback : (c = 0x08#32 ∨ c = 0x7F#32) ∧ s.i > 0 ↔ (c = 0x08#32 ∨ c = 0x7F#32) ∧ l ≠ [] := by
    rw [h.len, gt_iff_lt, List.length_pos_iff]
  have hadd : (0x20#32).sle c = true ∧ s.i < bufLen - 1 ↔
    0x20 ≤ c.toNat ∧ l.length < bufLen - 1 := by
    rw [h.len, space_sle_iff hc]
  have hneg : ¬ c.slt 0 = true := Bool.eq_false_iff.1 (slt_zero_of_char hc)
  rw [readChar, editKey, echoKey, if_neg hneg]
  by_cases h₁ : (c = 0x08#32 ∨ c = 0x7F#32) ∧ l ≠ []
  · rw [if_pos (hback.2 h₁), if_pos h₁, if_pos h₁]
    exact ⟨_, rfl, h.erase _, rfl⟩
  rw [if_neg (mt hback.1 h₁), if_neg h₁, if_neg h₁]
  by_cases h₂ : 0x20 ≤ c.toNat ∧ l.length < bufLen - 1
  · have hlow : 0x20 ≤ (c.setWidth 8).toNat := by
      have hlt : c.toNat < 256 := hc
      rw [BitVec.toNat_setWidth, Nat.mod_eq_of_lt hlt]
      exact h₂.1
    rw [if_pos (hadd.2 h₂), if_pos h₂, if_pos h₂]
    exact ⟨_, rfl, h.add h₂.2 hlow _, rfl⟩
  · rw [IsNewline] at hnl
    rw [if_neg (mt hadd.1 h₂), if_neg h₂, if_neg h₂, if_neg hnl]
    exact ⟨s, rfl, h, (ite_self _).symm⟩

/-- **The end of a line.** -/
theorem newline (h : Edited buf mem s l) (hnl : IsNewline c) (echoing : Bool) :
    ∃ s', readChar buf echoing s c = .line s' ∧ Str s'.mem buf l ∧
      (∀ a, bufLen ≤ (a - buf).toNat → s'.mem a = mem a) ∧
      s'.out = if echoing then s.out.consPutc 0x0A#32 else s.out := by
  have hneg : ¬ c.slt 0 = true ∧ ¬ ((c = 0x08#32 ∨ c = 0x7F#32) ∧ s.i > 0) ∧
      ¬ ((0x20#32).sle c = true ∧ s.i < bufLen - 1) := by
    rcases hnl with rfl | rfl
    · exact ⟨by decide, fun hc => absurd hc.1 (by decide), fun hc => absurd hc.1 (by decide)⟩
    · exact ⟨by decide, fun hc => absurd hc.1 (by decide), fun hc => absurd hc.1 (by decide)⟩
  obtain ⟨hblock, hsame⟩ := h.write 0
  rw [IsNewline] at hnl
  refine ⟨_, by rw [readChar, if_neg hneg.1, if_neg hneg.2.1, if_neg hneg.2.2, if_pos hnl],
    ?_, hsame, rfl⟩
  obtain ⟨hline, hend⟩ := Bytes.append.1 hblock
  refine Str.of_bytes hline (fun b hb hzero => ?_) hend.1
  have hchar := h.char b hb
  rw [hzero] at hchar
  exact absurd hchar (by decide)

end Edited

/-! ### The screen -/

/-- The cell of a character. -/
theorem IsChar.cell {c : BitVec 32} (h : IsChar c) :
    crtAttr c = c ||| 0x0700#32 ∧ (c ||| 0x0700#32) &&& 0xFF#32 = c ∧
    (c ||| 0x0700#32).setWidth 16 = 0x0700#16 ||| (c.setWidth 8).setWidth 16 := by
  have hall : ∀ b : BitVec 8, crtAttr (b.setWidth 32) = b.setWidth 32 ||| 0x0700#32 ∧
      (b.setWidth 32 ||| 0x0700#32) &&& 0xFF#32 = b.setWidth 32 ∧
      (b.setWidth 32 ||| 0x0700#32).setWidth 16 = 0x0700#16 |||
        ((b.setWidth 32).setWidth 8 : BitVec 8).setWidth 16 := by
    decide +kernel
  have hlt : c.toNat < 256 := h
  have hc : (c.setWidth 8).setWidth 32 = c := by
    refine BitVec.eq_of_toNat_eq ?_
    rw [BitVec.toNat_setWidth, BitVec.toNat_setWidth, Nat.mod_eq_of_lt hlt, Nat.mod_eq_of_lt c.isLt]
  rw [← hc]
  exact hall (c.setWidth 8)

namespace OnPaper

variable {start : ℕ} {p : Paper} {l : List (BitVec 8)} {c : BitVec 32}

/-- The end of `cga_putc` moves nothing on the paper, and the line stays on the screen. -/
theorem finish (h : OnPaper start p l) (hlen : l.length ≤ bufLen) : OnPaper start p.finish l := by
  have hbuf : bufLen = 1024 := rfl
  have hcols : crtCols = 80 := rfl
  have hrows : crtRows = 25 := rfl
  have hpos := h.pos
  unfold Paper.finish
  split
  · next hend =>
      refine ⟨hpos, ?_, h.cells⟩
      change (p.top + 1) * crtCols ≤ start
      rw [hcols, hrows] at *
      omega
  · exact h

/-- **The echo of a character.** -/
theorem echo (h : OnPaper start p l) (hlen : l.length < bufLen) (hc : IsChar c)
    (hspace : 0x20 ≤ c.toNat) :
    OnPaper start (p.putc c) (l ++ [c.setWidth 8]) := by
  have hlt : c.toNat < 256 := hc
  obtain ⟨hattr, hlow, hcell⟩ := hc.cell
  have hne : ∀ k : ℕ, k < 0x20 → c ≠ BitVec.ofNat 32 k := by
    intro k hk hck
    rw [hck, BitVec.toNat_ofNat] at hspace
    omega
  have hswitch :
      p.putc c =
      ({ p with
        cells := Function.update p.cells p.pos (0x0700#16 ||| (c.setWidth 8).setWidth 16)
        pos := p.pos + 1 } : Paper).finish := by
    rw [Paper.putc, hattr, hlow, if_neg (hne 9 (by decide)), Paper.switch, hlow,
      if_neg (hne 8 (by decide)), if_neg (hne 10 (by decide)),
      if_neg (hne 13 (by decide)), hcell]
  rw [hswitch]
  refine OnPaper.finish
    ⟨?_, h.top, fun j hj => ?_⟩ (by rw [List.length_append, List.length_singleton]; omega)
  · change p.pos + 1 = _
    rw [h.pos, List.length_append, List.length_singleton, Nat.add_assoc]
  · rw [List.length_append, List.length_singleton] at hj
    change Function.update p.cells p.pos _ (start + j) = _
    rcases Nat.lt_or_eq_of_le (Nat.le_of_lt_succ hj) with hj | rfl
    · rw [Function.update_of_ne (by rw [h.pos]; omega), h.cells j hj, List.getElem_append_left hj]
    · simp [h.pos]

/-- **The echo of an erased character.** -/
theorem erase (h : OnPaper start p l) (hlen : l.length < bufLen) (hne : l ≠ []) :
    OnPaper start (p.putc 0x08#32) l.dropLast := by
  have hpos := h.pos
  have htop := h.top
  have hline := List.length_pos_iff.2 hne
  have hswitch :
      p.putc 0x08#32 =
      ({ p with cells := Function.update p.cells (p.pos - 1) crtBlank, pos := p.pos - 1 } :
      Paper).finish := by
    rw [Paper.putc, show crtAttr 0x08#32 = 0x0708#32 by decide, if_neg (by decide), Paper.switch,
      if_pos (by decide), if_pos (by omega)]
    rfl
  rw [hswitch]
  refine OnPaper.finish ⟨?_, htop, fun j hj => ?_⟩ (by rw [List.length_dropLast]; omega)
  · change p.pos - 1 = _
    rw [List.length_dropLast]
    omega
  · rw [List.length_dropLast] at hj
    change Function.update p.cells (p.pos - 1) crtBlank (start + j) = _
    rw [Function.update_of_ne (by omega), h.cells j (by omega), List.getElem_dropLast]

/-- **A character that is typed.** -/
theorem step (h : OnPaper start p l) (hlen : l.length < bufLen) (hc : IsChar c) :
    OnPaper start (echoKey Paper.putc p l c) (editKey l c) := by
  unfold editKey echoKey
  by_cases h₁ : (c = 0x08#32 ∨ c = 0x7F#32) ∧ l ≠ []
  · rw [if_pos h₁, if_pos h₁]
    exact h.erase hlen h₁.2
  rw [if_neg h₁, if_neg h₁]
  by_cases h₂ : 0x20 ≤ c.toNat ∧ l.length < bufLen - 1
  · rw [if_pos h₂, if_pos h₂]
    exact h.echo hlen hc h₂.1
  · rw [if_neg h₂, if_neg h₂]
    exact h

end OnPaper

/-- **The line stands on the screen**, and the cursor is behind it. -/
def OnScreen (s : Crt) (l : List (BitVec 8)) : Prop :=
  ∃ k, s.pos = k + l.length ∧ ∀ j (h : j < l.length), s.buf (k + j) =
    0x0700#16 ||| (l[j]).setWidth 16

/-- What stands on the paper stands on the screen. -/
theorem OnPaper.screen {start : ℕ} {s : Crt} {p : Paper} {l : List (BitVec 8)}
    (h : OnPaper start p l) (hshow : Shows crtSize s p) :
    OnScreen s l := by
  have hpos := h.pos
  have htop := h.top
  have hspos := hshow.pos
  have hlt := hshow.lt
  refine ⟨start - p.top * crtCols, by omega, fun j hj => ?_⟩
  rw [hshow.cell _ (by omega), ← h.cells j hj]
  congr 1
  omega

/-- **The state while a line is typed**, with the echo. -/
structure Typing (buf : BitVec 32) (mem : BitVec 32 → BitVec 8) (s : LineState)
    (l : List (BitVec 8)) : Prop extends Edited buf mem s l where
  shown : ∃ start p, Shows crtSize s.out.crt p ∧ OnPaper start p l

namespace Typing

variable {buf c : BitVec 32} {mem : BitVec 32 → BitVec 8} {s : LineState} {l : List (BitVec 8)}

theorem start {out : ConsOut} (h : out.crt.pos < crtSize) (buf : BitVec 32)
    (mem : BitVec 32 → BitVec 8) : Typing buf mem ⟨0, mem, out⟩ [] where
  toEdited := Edited.start buf mem out
  shown := ⟨_, _, Crt.shows_paper h, ⟨rfl, by simp [Crt.paper], by simp⟩⟩

/-- **A character that does not end the line.** -/
theorem step (h : Typing buf mem s l) (hc : IsChar c) (hnl : ¬ IsNewline c) :
    ∃ s', readChar buf true s c = .more s' ∧ Typing buf mem s' (editKey l c) := by
  obtain ⟨s', hread, hedit, hout⟩ := h.toEdited.step hc hnl true
  obtain ⟨start, p, hshow, hpaper⟩ := h.shown
  refine ⟨s', hread, hedit, start, _, ?_, hpaper.step h.room hc⟩
  rw [hout, if_pos rfl]
  unfold echoKey
  split
  · exact (ConsOut.consPutc_shows hshow _).1
  split
  · exact (ConsOut.consPutc_shows hshow _).1
  · exact hshow

end Typing

/-! ### Lines -/

section

variable (buf : BitVec 32) (mem : BitVec 32 → BitVec 8) (prompt : List (BitVec 32)) {out : ConsOut}

theorem readlineFrom_typing {s : LineState} {l : List (BitVec 8)} (h : Typing buf mem s l)
    {cs : List (BitVec 32)} (hcs : ∀ c ∈ cs, IsChar c ∧ ¬ IsNewline c) (rest : List (BitVec 32)) :
    ∃ s', Typing buf mem s' (cs.foldl editKey l) ∧
      readlineFrom buf true s (cs ++ rest) = readlineFrom buf true s' rest := by
  induction cs generalizing s l with
  | nil => exact ⟨s, h, rfl⟩
  | cons c cs ih =>
      obtain ⟨hc, hnl⟩ := hcs c List.mem_cons_self
      obtain ⟨s₁, hread, h₁⟩ := h.step hc hnl
      obtain ⟨s', h', hrest⟩ := ih h₁ fun b hb => hcs b (List.mem_cons_of_mem _ hb)
      refine ⟨s', h', ?_⟩
      rw [List.cons_append, readlineFrom, hread]
      exact hrest

/-- **While a line is typed** the line as edited is in the buffer, and nothing outside of the buffer
is written; on the screen it stands before the cursor. -/
theorem readline_edits (hpos : out.crt.pos < crtSize) {cs : List (BitVec 32)}
    (hcs : ∀ c ∈ cs, IsChar c ∧ ¬ IsNewline c) :
    ∃ s, readline buf true prompt mem out cs = .waiting s ∧ Edited buf mem s (cs.foldl editKey []) ∧
      OnScreen s.out.crt (cs.foldl editKey []) := by
  have hprompt : (out.puts prompt).crt.pos < crtSize :=
    (ConsOut.puts_shows (Crt.shows_paper hpos) prompt).1.lt
  obtain ⟨s, h, hread⟩ := readlineFrom_typing buf mem (Typing.start hprompt buf mem) hcs []
  obtain ⟨start, p, hshow, hpaper⟩ := h.shown
  rw [List.append_nil] at hread
  exact ⟨s, hread, h.toEdited, hpaper.screen hshow⟩

/-- **The first newline ends the line**: the buffer has the line as edited, with a zero byte behind
it, and the characters behind the newline are left. -/
theorem readline_returns (hpos : out.crt.pos < crtSize) {cs : List (BitVec 32)}
    (hcs : ∀ c ∈ cs, IsChar c ∧ ¬ IsNewline c) {nl : BitVec 32} (hnl : IsNewline nl)
    (rest : List (BitVec 32)) :
    ∃ s, readline buf true prompt mem out (cs ++ nl :: rest) = .line s rest ∧
      Str s.mem buf (cs.foldl editKey []) ∧
      (∀ a, bufLen ≤ (a - buf).toNat → s.mem a = mem a) ∧ s.out.crt.pos < crtSize := by
  have hprompt : (out.puts prompt).crt.pos < crtSize :=
    (ConsOut.puts_shows (Crt.shows_paper hpos) prompt).1.lt
  obtain ⟨s, h, hread⟩ :=
    readlineFrom_typing buf mem (Typing.start hprompt buf mem) hcs (nl :: rest)
  obtain ⟨s', hline, hstr, hsame, hout⟩ := h.toEdited.newline hnl true
  obtain ⟨start, p, hshow, -⟩ := h.shown
  refine ⟨s', hread.trans ?_, hstr, hsame, ?_⟩
  · rw [readlineFrom, hline]
  · rw [hout]
    exact (ConsOut.consPutc_shows hshow _).1.lt

end

/-- A console whose screen is empty. -/
def emptyOut : ConsOut := ⟨[], [], ⟨fun _ => crtBlank, 0, 0⟩⟩

/-- A character is typed and erased, and then another one. -/
theorem readline_edits_erased :
    ∃ s, readline 0x1000 true ("K> ".toList.map chr) (fun _ => 0) emptyOut [0x61, 0x08, 0x62] =
      .waiting s ∧
    Edited 0x1000 (fun _ => 0) s [0x62] ∧ OnScreen s.out.crt [0x62] :=
  readline_edits _ _ _ (by decide) (by simp [IsChar, IsNewline])

end Jos
