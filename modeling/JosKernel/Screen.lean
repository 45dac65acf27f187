/-
**The screen.**

`cga_putc` writes into a buffer of 25 lines with 80 cells, and moves all of it up by a line where
the cursor leaves it. A program that writes does not see that: it writes on a paper without end, of
which the screen shows 25 lines.

Main definitions:

* `Jos.Crt`, `Jos.Crt.switch`, `Jos.Crt.finish` — the buffer and the cursor, and the two parts of
  `cga_putc`;
* `Jos.ConsOut`, `Jos.ConsOut.cgaPutc`, `Jos.ConsOut.consPutc` — the three devices;
* `Jos.Paper`, `Jos.Paper.putc` — the paper;
* `Jos.Shows` — the screen shows the paper.

Main results:

* `Jos.Shows.switch`, `Jos.Shows.finish` — the two parts;
* `Jos.ConsOut.consPutc_shows`, `Jos.ConsOut.consPutc_cursor` — one character;
* `Jos.screen_shows_paper` — **for every sequence of characters the screen shows the last lines of
  the paper**, and nothing outside of the buffer is written.
-/

import Mathlib.Data.BitVec
import Mathlib.Logic.Function.Basic
import Mathlib.Tactic.Common

set_option relaxedAutoImplicit false
set_option autoImplicit false

namespace Jos

/-! ### Output -/

def crtRows : ℕ := 25

def crtCols : ℕ := 80

def crtSize : ℕ := crtRows * crtCols

/-- A blank cell: `0x0700 | ' '`. -/
def crtBlank : BitVec 16 := 0x0720

/-- `crt_buf`, `crt_pos`, and the cursor in the registers of the controller. -/
structure Crt where
  buf : ℕ → BitVec 16
  pos : ℕ
  cursor : BitVec 16

/-- If no attribute is given, black on white. -/
def crtAttr (c : BitVec 32) : BitVec 32 := if c &&& ~~~0xFF#32 = 0#32 then c ||| 0x0700#32 else c

namespace Crt

/-- The cases of `cga_putc` but `'\t'`, for a character with its attribute. -/
def switch (s : Crt) (c : BitVec 32) : Crt :=
  if c &&& 0xFF#32 = 0x08#32 then
    if s.pos > 0 then
      { s with
        buf := Function.update s.buf (s.pos - 1) ((c &&& ~~~0xFF#32 ||| 0x20#32).setWidth 16)
        pos := s.pos - 1 }
    else s
  else if c &&& 0xFF#32 = 0x0A#32 then
    { s with pos := s.pos + crtCols - (s.pos + crtCols) % crtCols }
  else if c &&& 0xFF#32 = 0x0D#32 then { s with pos := s.pos - s.pos % crtCols }
  else { s with buf := Function.update s.buf s.pos (c.setWidth 16), pos := s.pos + 1 }

/-- The lines move up by one if the cursor has left the buffer. -/
def scroll (s : Crt) : Crt :=
  if s.pos ≥ crtSize then
    { s with
      buf := fun i => if i < crtSize - crtCols then s.buf (i + crtCols)
        else if i < crtSize then crtBlank else s.buf i
      pos := s.pos - crtCols }
  else s

/-- **The end of `cga_putc`**: the lines move up, and the cursor is shown where it is. -/
def finish (s : Crt) : Crt := { s.scroll with cursor := BitVec.ofNat 16 s.scroll.pos }

end Crt

/-- What was sent to the serial port and to the printer, and the screen. -/
structure ConsOut where
  serial : List (BitVec 8)
  lpt : List (BitVec 8)
  crt : Crt

namespace ConsOut

/-- `serial_putc(c)` and `lpt_putc(c)`. -/
def outb (s : ConsOut) (c : BitVec 32) : ConsOut :=
  { s with serial := s.serial ++ [c.setWidth 8], lpt := s.lpt ++ [c.setWidth 8] }

/-- `cons_putc(' ')`, as `cga_putc` calls it for `'\t'`. -/
def consSpace (s : ConsOut) : ConsOut :=
  { s.outb 0x20 with crt := (s.crt.switch (crtAttr 0x20)).finish }

/-- **`cga_putc(c)`.** -/
def cgaPutc (s : ConsOut) (c : BitVec 32) : ConsOut :=
  let c := crtAttr c
  if c &&& 0xFF#32 = 0x09#32 then
    let s := s.consSpace.consSpace.consSpace.consSpace.consSpace
    { s with crt := s.crt.finish }
  else { s with crt := (s.crt.switch c).finish }

/-- **`cons_putc(c)`.** -/
def consPutc (s : ConsOut) (c : BitVec 32) : ConsOut := (s.outb c).cgaPutc c

end ConsOut

/-! ### The paper -/

/-- **A paper without end**: its cells, the first line that is shown, and the place where the next
character goes. -/
structure Paper where
  cells : ℕ → BitVec 16
  top : ℕ
  pos : ℕ

namespace Paper

/-- A character, with its attribute.  Nothing is erased above the line that is shown first. -/
def switch (p : Paper) (c : BitVec 32) : Paper :=
  if c &&& 0xFF#32 = 0x08#32 then
    if p.top * crtCols < p.pos then
      { p with
        cells := Function.update p.cells (p.pos - 1) ((c &&& ~~~0xFF#32 ||| 0x20#32).setWidth 16)
        pos := p.pos - 1 }
    else p
  else if c &&& 0xFF#32 = 0x0A#32 then
    { p with pos := p.pos + crtCols - (p.pos + crtCols) % crtCols }
  else if c &&& 0xFF#32 = 0x0D#32 then { p with pos := p.pos - p.pos % crtCols }
  else { p with cells := Function.update p.cells p.pos (c.setWidth 16), pos := p.pos + 1 }

/-- The next line is shown too when it is reached. -/
def finish (p : Paper) : Paper :=
  if (p.top + crtRows) * crtCols ≤ p.pos then { p with top := p.top + 1 } else p

def space (p : Paper) : Paper := (p.switch (crtAttr 0x20)).finish

/-- **A character on the paper.** -/
def putc (p : Paper) (c : BitVec 32) : Paper :=
  if crtAttr c &&& 0xFF#32 = 0x09#32 then p.space.space.space.space.space.finish
    else (p.switch (crtAttr c)).finish

end Paper

/-- **The screen shows the paper** from its first line on, and what comes below is blank. The cursor
is before `bound`. -/
structure Shows (bound : ℕ) (s : Crt) (p : Paper) : Prop where
  cell : ∀ i < crtSize, s.buf i = p.cells (p.top * crtCols + i)
  blank : ∀ i, crtSize ≤ i → p.cells (p.top * crtCols + i) = crtBlank
  pos : p.pos = p.top * crtCols + s.pos
  lt : s.pos < bound

namespace Shows

variable {bound : ℕ} {s : Crt} {p : Paper}

/-- A cell of the screen is written. -/
theorem write (h : Shows bound s p) {i : ℕ} (hi : i < crtSize) (b : BitVec 16) {k bound' : ℕ}
    (hk : k < bound') :
    Shows bound' { s with buf := Function.update s.buf i b, pos := k }
      { p with cells := Function.update p.cells (p.top * crtCols + i) b, pos := p.top * crtCols + k
        } where
  cell j hj := by
    by_cases hji : j = i
    · simp [hji]
    · have hne : p.top * crtCols + j ≠ p.top * crtCols + i := by omega
      exact (Function.update_of_ne hji ..).trans ((h.cell j hj).trans
        (Function.update_of_ne hne ..).symm)
  blank j hj := by
    have hne : p.top * crtCols + j ≠ p.top * crtCols + i := by omega
    exact (Function.update_of_ne hne ..).trans (h.blank j hj)
  pos := rfl
  lt := hk

/-- The cursor moves. -/
theorem move (h : Shows bound s p) {k bound' : ℕ} (hk : k < bound') :
    Shows bound' { s with pos := k } { p with pos := p.top * crtCols + k } :=
      ⟨h.cell, h.blank, rfl, hk⟩

theorem mono (h : Shows bound s p) {bound' : ℕ} (hle : bound ≤ bound') : Shows bound' s p :=
  ⟨h.cell, h.blank, h.pos, h.lt.trans_le hle⟩

/-- A column of the paper is one of the screen. -/
theorem column (h : Shows bound s p) (k : ℕ) : (p.pos + k) % crtCols = (s.pos + k) % crtCols := by
  rw [h.pos, Nat.add_assoc, Nat.mul_comm, Nat.mul_add_mod]

/-- **A character**, which may move the cursor into the line below the screen. -/
theorem switch (h : Shows crtSize s p) (c : BitVec 32) :
    Shows (crtSize + crtCols) (s.switch c) (p.switch c) := by
  have hcols : crtCols = 80 := rfl
  have hsize : crtSize = 2000 := rfl
  have hpos := h.pos
  have hlt := h.lt
  unfold Crt.switch Paper.switch
  by_cases hback : c &&& 0xFF#32 = 0x08#32
  · rw [if_pos hback, if_pos hback]
    by_cases hzero : s.pos > 0
    · rw [if_pos hzero, if_pos (by omega), show p.pos - 1 = p.top * crtCols + (s.pos - 1) by omega]
      exact h.write (by omega) _ (by omega)
    · rw [if_neg hzero, if_neg (by omega)]
      exact h.mono (Nat.le_add_right ..)
  rw [if_neg hback, if_neg hback]
  by_cases hnl : c &&& 0xFF#32 = 0x0A#32
  · have hmod := Nat.mod_le (s.pos + crtCols) crtCols
    rw [if_pos hnl, if_pos hnl, h.column crtCols,
      show p.pos + crtCols - (s.pos + crtCols) % crtCols = p.top *
          crtCols + (s.pos + crtCols - (s.pos + crtCols) % crtCols) by omega]
    exact h.move (by omega)
  rw [if_neg hnl, if_neg hnl]
  by_cases hcr : c &&& 0xFF#32 = 0x0D#32
  · have hmod := Nat.mod_le s.pos crtCols
    have hcol : p.pos % crtCols = s.pos % crtCols := h.column 0
    rw [if_pos hcr, if_pos hcr, hcol, show p.pos - s.pos % crtCols = p.top *
      crtCols + (s.pos - s.pos % crtCols) by omega]
    exact h.move (by omega)
  · rw [if_neg hcr, if_neg hcr, hpos, Nat.add_assoc]
    exact h.write hlt _ (by omega)

/-- **The end of `cga_putc`**: the screen moves down the paper by a line. -/
theorem finish (h : Shows (crtSize + crtCols) s p) : Shows crtSize s.finish p.finish := by
  have hcols : crtCols = 80 := rfl
  have hrows : crtRows * crtCols = crtSize := rfl
  have hsize : crtSize = 2000 := rfl
  have hpos := h.pos
  have hlt := h.lt
  unfold Crt.finish Crt.scroll Paper.finish
  by_cases hend : s.pos ≥ crtSize
  · have hnext : ∀ i, (p.top + 1) * crtCols + i = p.top * crtCols + (i + crtCols) := fun i => by
      rw [Nat.add_mul]
      omega
    rw [if_pos hend, if_pos (by rw [Nat.add_mul]; omega)]
    refine ⟨fun i hi => ?_, fun i hi => ?_, ?_, ?_⟩
    · change (if i < crtSize - crtCols then s.buf (i + crtCols) else if i < crtSize then crtBlank
        else s.buf i) =
        p.cells ((p.top + 1) * crtCols + i)
      rw [hnext]
      by_cases hlow : i < crtSize - crtCols
      · rw [if_pos hlow]
        exact h.cell _ (by omega)
      · rw [if_neg hlow, if_pos hi]
        exact (h.blank _ (by omega)).symm
    · change p.cells ((p.top + 1) * crtCols + i) = crtBlank
      rw [hnext]
      exact h.blank _ (by omega)
    · change p.pos = (p.top + 1) * crtCols + (s.pos - crtCols)
      rw [hnext]
      omega
    · change s.pos - crtCols < crtSize
      omega
  · rw [if_neg hend, if_neg (by rw [Nat.add_mul]; omega)]
    exact ⟨h.cell, h.blank, hpos, Nat.lt_of_not_le hend⟩

end Shows

namespace Crt

/-- **Nothing outside of the buffer** is written. -/
def SameOutside (s s' : Crt) : Prop := ∀ i, crtSize ≤ i → s'.buf i = s.buf i

theorem SameOutside.trans {s s' s'' : Crt} (h : SameOutside s s') (h' : SameOutside s' s'') :
    SameOutside s s'' :=
  fun i hi => (h' i hi).trans (h i hi)

theorem switch_outside {s : Crt} (h : s.pos < crtSize) (c : BitVec 32) :
    SameOutside s (s.switch c) := by
  intro i hi
  unfold switch
  split
  · split
    · exact Function.update_of_ne (by omega) ..
    · rfl
  split
  · rfl
  split
  · rfl
  · exact Function.update_of_ne (by omega) ..

theorem finish_outside (s : Crt) : SameOutside s s.finish := by
  intro i hi
  have hcols : crtCols = 80 := rfl
  unfold finish scroll
  split
  · change (if i < crtSize - crtCols then s.buf (i + crtCols) else if i < crtSize then crtBlank
      else s.buf i) = s.buf i
    rw [if_neg (by omega), if_neg (by omega)]
  · rfl

end Crt

/-! ### Strings -/

/-- A character with its attribute, but `'\t'`, or the end of `cga_putc`. -/
theorem Shows.char {s : Crt} {p : Paper} (h : Shows crtSize s p) (c : BitVec 32) :
    Shows crtSize (s.switch c).finish (p.switch c).finish ∧ Crt.SameOutside s (s.switch c).finish :=
  ⟨(h.switch c).finish, (Crt.switch_outside h.lt c).trans (Crt.finish_outside _)⟩

namespace ConsOut

variable {s : ConsOut} {p : Paper}

theorem consSpace_shows (h : Shows crtSize s.crt p) :
    Shows crtSize s.consSpace.crt p.space ∧ Crt.SameOutside s.crt s.consSpace.crt :=
  h.char (crtAttr 0x20)

/-- **One character.** -/
theorem consPutc_shows (h : Shows crtSize s.crt p) (c : BitVec 32) :
    Shows crtSize (s.consPutc c).crt (p.putc c) ∧ Crt.SameOutside s.crt (s.consPutc c).crt := by
  unfold consPutc cgaPutc Paper.putc
  by_cases htab : crtAttr c &&& 0xFF#32 = 0x09#32
  · rw [if_pos htab]
    dsimp only
    rw [if_pos htab]
    have h₀ : Shows crtSize (s.outb c).crt p := h
    obtain ⟨h₁, ho₁⟩ := consSpace_shows h₀
    obtain ⟨h₂, ho₂⟩ := consSpace_shows h₁
    obtain ⟨h₃, ho₃⟩ := consSpace_shows h₂
    obtain ⟨h₄, ho₄⟩ := consSpace_shows h₃
    obtain ⟨h₅, ho₅⟩ := consSpace_shows h₄
    exact ⟨(h₅.mono (Nat.le_add_right ..)).finish,
      ((((ho₁.trans ho₂).trans ho₃).trans ho₄).trans ho₅).trans (Crt.finish_outside _)⟩
  · rw [if_neg htab]
    dsimp only
    rw [if_neg htab]
    exact h.char (crtAttr c)

/-- A string is written. -/
def puts (s : ConsOut) (cs : List (BitVec 32)) : ConsOut := cs.foldl consPutc s

theorem puts_shows (h : Shows crtSize s.crt p) (cs : List (BitVec 32)) :
    Shows crtSize (s.puts cs).crt (cs.foldl Paper.putc p) ∧
      Crt.SameOutside s.crt (s.puts cs).crt := by
  induction cs generalizing s p with
  | nil => exact ⟨h, fun i _ => rfl⟩
  | cons c cs ih =>
      obtain ⟨hc, hout⟩ := consPutc_shows h c
      obtain ⟨hrest, hout'⟩ := ih hc
      exact ⟨hrest, hout.trans hout'⟩

/-- The controller shows the cursor where the next character goes. -/
theorem consPutc_cursor (s : ConsOut) (c : BitVec 32) :
    (s.consPutc c).crt.cursor = BitVec.ofNat 16 (s.consPutc c).crt.pos := by
  have hfinish : ∀ t : Crt, t.finish.cursor = BitVec.ofNat 16 t.finish.pos := fun _ => rfl
  unfold consPutc cgaPutc
  dsimp only
  split
  · exact hfinish _
  · exact hfinish _

theorem puts_cursor (s : ConsOut) {cs : List (BitVec 32)} (hne : cs ≠ []) :
    (s.puts cs).crt.cursor = BitVec.ofNat 16 (s.puts cs).crt.pos := by
  obtain ⟨cs, c, rfl⟩ := (List.eq_nil_or_concat cs).resolve_left hne
  rw [puts, List.concat_eq_append, List.foldl_append]
  exact consPutc_cursor _ c

end ConsOut

/-- **The paper at first**: the screen, with nothing below. -/
def Crt.paper (s : Crt) : Paper := ⟨fun i => if i < crtSize then s.buf i else crtBlank, 0, s.pos⟩

theorem Crt.shows_paper {s : Crt} (h : s.pos < crtSize) : Shows crtSize s s.paper where
  cell i hi := by simp [Crt.paper, hi]
  blank i hi := by simp [Crt.paper, Nat.not_lt.2 hi]
  pos := by simp [Crt.paper]
  lt := h

/-- **What is kept of the paper**: what stands above the first line shown, which never moves up. -/
structure Paper.Kept (p p' : Paper) : Prop where
  top : p.top ≤ p'.top
  pos : p'.top * crtCols ≤ p'.pos
  cells : ∀ i < p.top * crtCols, p'.cells i = p.cells i

namespace Paper

variable {p p' p'' : Paper}

theorem Kept.refl (h : p.top * crtCols ≤ p.pos) : Kept p p := ⟨Nat.le_refl _, h, fun _ _ => rfl⟩

theorem Kept.trans (h : Kept p p') (h' : Kept p' p'') : Kept p p'' where
  top := h.top.trans h'.top
  pos := h'.pos
  cells i hi := (h'.cells i (hi.trans_le (Nat.mul_le_mul_right _ h.top))).trans (h.cells i hi)

theorem switch_kept (h : p.top * crtCols ≤ p.pos) (c : BitVec 32) : Kept p (p.switch c) := by
  have hcols : crtCols = 80 := rfl
  unfold switch
  split
  · split
    · refine ⟨Nat.le_refl _, ?_, fun i hi => Function.update_of_ne (by omega) ..⟩
      change p.top * crtCols ≤ p.pos - 1
      omega
    · exact Kept.refl h
  split
  · refine ⟨Nat.le_refl _, ?_, fun _ _ => rfl⟩
    change p.top * crtCols ≤ p.pos + crtCols - (p.pos + crtCols) % crtCols
    rw [hcols] at h ⊢
    omega
  split
  · refine ⟨Nat.le_refl _, ?_, fun _ _ => rfl⟩
    change p.top * crtCols ≤ p.pos - p.pos % crtCols
    rw [hcols] at h ⊢
    omega
  · refine ⟨Nat.le_refl _, ?_, fun i hi => Function.update_of_ne (by omega) ..⟩
    change p.top * crtCols ≤ p.pos + 1
    omega

theorem finish_kept (h : p.top * crtCols ≤ p.pos) : Kept p p.finish := by
  unfold finish
  split
  · next hend =>
      have hle : p.top + 1 ≤ p.top + crtRows := Nat.add_le_add_left (by decide) _
      exact ⟨Nat.le_succ _, (Nat.mul_le_mul_right _ hle).trans hend, fun _ _ => rfl⟩
  · exact Kept.refl h

theorem char_kept (h : p.top * crtCols ≤ p.pos) (c : BitVec 32) : Kept p (p.switch c).finish :=
  (switch_kept h c).trans (finish_kept (switch_kept h c).pos)

theorem putc_kept (h : p.top * crtCols ≤ p.pos) (c : BitVec 32) : Kept p (p.putc c) := by
  unfold putc
  split
  · have h₁ := char_kept h (crtAttr 0x20)
    have h₂ := char_kept h₁.pos (crtAttr 0x20)
    have h₃ := char_kept h₂.pos (crtAttr 0x20)
    have h₄ := char_kept h₃.pos (crtAttr 0x20)
    have h₅ := char_kept h₄.pos (crtAttr 0x20)
    exact ((((h₁.trans h₂).trans h₃).trans h₄).trans h₅).trans (finish_kept h₅.pos)
  · exact char_kept h (crtAttr c)

theorem puts_kept (h : p.top * crtCols ≤ p.pos) (cs : List (BitVec 32)) :
    Kept p (cs.foldl putc p) := by
  induction cs generalizing p with
  | nil => exact Kept.refl h
  | cons c cs ih =>
      have hc := putc_kept h c
      exact hc.trans (ih hc.pos)

end Paper

/-- **The screen shows the paper**: for every sequence of characters, the 25 lines of the screen are
those of the paper from the first one that is shown on, the cursor is where the next character goes,
the controller shows it there, and no cell outside of the buffer is written. What has left the
screen stays on the paper, whatever comes after. -/
theorem screen_shows_paper {s : ConsOut} (h : s.crt.pos < crtSize) (cs : List (BitVec 32)) :
    Shows crtSize (s.puts cs).crt (cs.foldl Paper.putc s.crt.paper) ∧
      Crt.SameOutside s.crt (s.puts cs).crt ∧
      (cs ≠ [] → (s.puts cs).crt.cursor = BitVec.ofNat 16 (s.puts cs).crt.pos) ∧
      ∀ cs', Paper.Kept (cs.foldl Paper.putc s.crt.paper)
        ((cs ++ cs').foldl Paper.putc s.crt.paper) := by
  obtain ⟨hshows, hout⟩ := ConsOut.puts_shows (Crt.shows_paper h) cs
  refine ⟨hshows, hout, s.puts_cursor, fun cs' => ?_⟩
  rw [List.foldl_append]
  exact Paper.puts_kept (hshows.pos.symm ▸ Nat.le_add_right ..) cs'

/-- The cursor is in the last cell. -/
def lastCell : ConsOut := ⟨[], [], ⟨fun _ => crtBlank, 1999, 1999⟩⟩

/-- The last cell is written. -/
theorem screen_shows_paper_last :
    Shows crtSize (lastCell.puts [0x41]).crt ([0x41].foldl Paper.putc lastCell.crt.paper) ∧
      Crt.SameOutside lastCell.crt (lastCell.puts [0x41]).crt ∧
      ([(0x41 : BitVec 32)] ≠ [] → (lastCell.puts [0x41]).crt.cursor = BitVec.ofNat 16
        (lastCell.puts [0x41]).crt.pos) ∧
      ∀ cs', Paper.Kept ([0x41].foldl Paper.putc lastCell.crt.paper)
        (([0x41] ++ cs').foldl Paper.putc lastCell.crt.paper) :=
  screen_shows_paper (s := lastCell) (by decide) [0x41]

end Jos
