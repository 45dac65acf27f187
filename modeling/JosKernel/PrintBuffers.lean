/-
**Where printed text goes.**

`vprintfmt` hands its characters one by one to a function of its caller. `vsnprintf` of
`lib/printfmt.c` puts them into memory as long as there is room and counts them all; `vcprintf` of
`lib/printf.c` collects them in an array on its stack and prints the array with a system call each
time it is full.

Main definitions:

* `Jos.sprintputch`, `Jos.vsnprintf` — text in memory;
* `Jos.User.putch`, `Jos.User.vcprintf` — text in system calls.

Main results:

* `Jos.vsnprintf_text` — **what does not fit is left out, the rest is a string, and nothing else is
  written**;
* `Jos.User.vcprintf_calls` — **the system calls print the text**, and no character is written
  behind the array.
-/

import JosKernel.BlockCopy
import JosKernel.CString
import JosKernel.Printfmt

set_option relaxedAutoImplicit false
set_option autoImplicit false

namespace Jos

open BlockCopy CString

/-- A character as a byte of memory. -/
def charByte (ch : BitVec 32) : BitVec 8 := ch.setWidth 8

/-! ### Text in memory -/

/-- `struct sprintbuf`, with the memory that it points into. -/
structure SprintBuf where
  mem : BitVec 32 → BitVec 8
  buf : BitVec 32
  ebuf : BitVec 32
  cnt : BitVec 32

/-- **`sprintputch(ch, b)`.** -/
def sprintputch (b : SprintBuf) (ch : BitVec 32) : SprintBuf :=
  let b := { b with cnt := b.cnt + 1 }
  if b.buf < b.ebuf then
    { b with mem := Function.update b.mem b.buf (charByte ch), buf := b.buf + 1 }
  else b

/-- `-E_INVAL`. -/
def negEInval : BitVec 32 := -3

/-- **`vsnprintf(buf, n, fmt, ap)`**, which returns a number and leaves the memory behind. The
strings among the arguments are read by `load`: they lie outside the buffer, so that no character
written changes them. -/
def vsnprintf (m : BitVec 32 → BitVec 8) (load : BitVec 32 → Except PrintStop (BitVec 8))
    (buf n : BitVec 32) (fmt : String) (ap : List (BitVec 32)) :
    Except PrintStop (BitVec 32 × (BitVec 32 → BitVec 8)) := do
  if buf = 0#32 ∨ n.slt 1#32 then pure (negEInval, m)
  else
    let out ← vprintfmt load fmt ap
    let b := out.foldl sprintputch ⟨m, buf, buf + n - 1, 0⟩
    pure (b.cnt, Function.update b.mem b.buf 0)

/-- The text that stands in the memory, after some characters. -/
structure SprintBuf.Has (m : BitVec 32 → BitVec 8) (buf : BitVec 32) (room : ℕ)
    (out : List (BitVec 32)) (b : SprintBuf) : Prop where
  cnt : b.cnt = BitVec.ofNat 32 out.length
  place : b.buf = buf + BitVec.ofNat 32 (out.take room).length
  ebuf : b.ebuf = buf + BitVec.ofNat 32 room
  text : Bytes b.mem buf ((out.take room).map charByte)
  rest : ∀ a : BitVec 32, a.toNat < buf.toNat ∨ buf.toNat + (out.take room).length ≤ a.toNat →
    b.mem a = m a

/-- **One character more.** -/
theorem SprintBuf.Has.put {m : BitVec 32 → BitVec 8} {buf : BitVec 32} {room : ℕ}
    {out : List (BitVec 32)} {b : SprintBuf} (h : b.Has m buf room out)
    (hfit : buf.toNat + room < 2 ^ 32) (ch : BitVec 32) :
    (sprintputch b ch).Has m buf room (out ++ [ch]) := by
  have hcnt : b.cnt + 1 = BitVec.ofNat 32 (out ++ [ch]).length := by
    rw [h.cnt, List.length_append, List.length_singleton, BitVec.ofNat_add]
    rfl
  have hlen : (out.take room).length ≤ room := List.length_take_le _ _
  have hlt : b.buf < b.ebuf ↔ (out.take room).length < room := by
    rw [h.place, h.ebuf, BitVec.lt_def, toNat_place (by omega), toNat_place hfit]
    omega
  rw [sprintputch]
  split
  · next hroom =>
      have hshort := hlt.1 hroom
      have htake : out.take room = out :=
        List.take_of_length_le (by rw [List.length_take] at hshort; omega)
      have htake' : (out ++ [ch]).take room = out ++ [ch] :=
        List.take_of_length_le (by rw [htake] at hshort; simpa using Nat.succ_le_of_lt hshort)
      rw [htake] at hshort
      refine ⟨hcnt, ?_, h.ebuf, ?_, fun a ha => ?_⟩
      · change b.buf + 1 = _
        rw [h.place, htake', htake, List.length_append, List.length_singleton, BitVec.ofNat_add,
          BitVec.add_assoc]
        rfl
      · have hsnoc := h.text.snoc (by rw [htake, List.length_map]; omega) (charByte ch)
        rw [List.length_map] at hsnoc
        change Bytes (Function.update b.mem b.buf (charByte ch)) buf _
        rw [h.place, htake', List.map_append, List.map_singleton]
        rwa [htake] at hsnoc ⊢
      · rw [htake', List.length_append, List.length_singleton] at ha
        refine (Function.update_of_ne (fun hab => ?_) _ _).trans (h.rest a (by rw [htake]; omega))
        have hnat := congrArg BitVec.toNat hab
        change a.toNat = b.buf.toNat at hnat
        rw [h.place, htake, toNat_place (by omega)] at hnat
        omega
  · next hroom =>
      have hfull : room ≤ out.length := by
        have hnot := mt hlt.2 hroom
        rw [List.length_take] at hnot
        omega
      have htake : (out ++ [ch]).take room = out.take room := List.take_append_of_le_length hfull
      exact ⟨hcnt, htake ▸ h.place, h.ebuf, htake ▸ h.text, htake ▸ h.rest⟩

/-- **All characters.** -/
theorem SprintBuf.Has.puts {m : BitVec 32 → BitVec 8} {buf : BitVec 32} {room : ℕ}
    (hfit : buf.toNat + room < 2 ^ 32) (out : List (BitVec 32)) :
    (out.foldl sprintputch ⟨m, buf, buf + BitVec.ofNat 32 room, 0⟩).Has m buf room out := by
  induction out using List.reverseRecOn with
  | nil => exact ⟨rfl, by simp, rfl, by simp, fun _ _ => rfl⟩
  | append_singleton out ch ih =>
      rw [List.foldl_append]
      exact ih.put hfit ch

/-- The text with its zero byte. -/
theorem SprintBuf.Has.terminated {m : BitVec 32 → BitVec 8} {buf : BitVec 32} {room : ℕ}
    {out : List (BitVec 32)} {b : SprintBuf} (h : b.Has m buf room out) (hroom : room < 2 ^ 32) :
    Bytes (Function.update b.mem b.buf 0) buf ((out.take room).map charByte ++ [0]) := by
  have hlen : ((out.take room).map charByte).length < 2 ^ 32 := by
    rw [List.length_map, List.length_take]
    omega
  have hsnoc := h.text.snoc hlen 0
  rwa [List.length_map, ← h.place] at hsnoc

/-- How `vsnprintf` ends. -/
theorem vsnprintf_ok {m : BitVec 32 → BitVec 8} {load : BitVec 32 → Except PrintStop (BitVec 8)}
    {buf n : BitVec 32} {fmt : String} {ap out : List (BitVec 32)} (hbuf : buf ≠ 0#32)
    (hn : 1 ≤ n.toInt) (hfit : buf.toNat + n.toNat ≤ 2 ^ 32)
    (hout : vprintfmt load fmt ap = .ok out) :
    0 < n.toNat ∧ ∃ b : SprintBuf, b.Has m buf (n.toNat - 1) out ∧
      vsnprintf m load buf n fmt ap =
        .ok (BitVec.ofNat 32 out.length, Function.update b.mem b.buf 0) := by
  have hslt : n.slt 1#32 = false := by
    rw [BitVec.slt_eq_decide, decide_eq_false_iff_not]
    exact Int.not_lt.2 hn
  have hpos : 0 < n.toNat := by
    rcases Nat.eq_zero_or_pos n.toNat with hz | hpos
    · rw [BitVec.toInt_eq_toNat_cond, hz] at hn
      simp at hn
    · exact hpos
  have hroom : buf.toNat + (n.toNat - 1) < 2 ^ 32 := by omega
  have hebuf : buf + n - 1 = buf + BitVec.ofNat 32 (n.toNat - 1) := by
    refine BitVec.eq_of_toNat_eq ?_
    rw [toNat_place hroom]
    bv_omega
  have hhas := SprintBuf.Has.puts (m := m) hroom out
  rw [← hebuf] at hhas
  refine ⟨hpos, _, hhas, ?_⟩
  rw [vsnprintf, if_neg (by rw [hslt]; simp [hbuf]), hout]
  exact congrArg (fun c => Except.ok (c, _)) hhas.cnt

/-- **`vsnprintf` cuts the text off.** In a buffer of `n` bytes it leaves the first `n - 1`
characters of the text, or all of them, and a zero byte; it returns the length of the whole text,
and changes nothing outside of what it writes. -/
theorem vsnprintf_text {m : BitVec 32 → BitVec 8} {load : BitVec 32 → Except PrintStop (BitVec 8)}
    {buf n : BitVec 32} {fmt : String} {ap out : List (BitVec 32)} (hbuf : buf ≠ 0#32)
    (hn : 1 ≤ n.toInt) (hfit : buf.toNat + n.toNat ≤ 2 ^ 32)
    (hout : vprintfmt load fmt ap = .ok out) :
    ∃ m', vsnprintf m load buf n fmt ap = .ok (BitVec.ofNat 32 out.length, m') ∧
      Bytes m' buf ((out.take (n.toNat - 1)).map charByte ++ [0]) ∧
      ∀ a : BitVec 32, a.toNat < buf.toNat ∨ buf.toNat + (out.take (n.toNat - 1)).length < a.toNat →
        m' a = m a := by
  obtain ⟨hpos, b, hhas, hprint⟩ := vsnprintf_ok (m := m) hbuf hn hfit hout
  refine ⟨_, hprint, hhas.terminated (by omega), fun a ha => ?_⟩
  refine (Function.update_of_ne (fun hab => ?_) _ _).trans (hhas.rest a (by omega))
  have hnat := congrArg BitVec.toNat hab
  have hlen : (out.take (n.toNat - 1)).length ≤ n.toNat - 1 := List.length_take_le _ _
  rw [hhas.place, toNat_place (by omega)] at hnat
  omega

/-- Eight bytes are room for the first seven digits. -/
theorem vsnprintf_text_cut :
    ∃ m', vsnprintf (fun _ => 0xCC) (fun va => .error (.fault va)) 0x1000 8 "%u!"
      [123456789] = .ok (10, m') ∧
    Bytes m' 0x1000 ("1234567".toList.map (charByte ∘ chr) ++ [0]) ∧
    ∀ a : BitVec 32, a.toNat < 0x1000 ∨ 0x1000 + 7 < a.toNat → m' a = 0xCC :=
  @vsnprintf_text (fun _ => 0xCC) (fun va => .error (.fault va)) 0x1000 8 "%u!" [123456789]
    ("123456789!".toList.map chr) (by decide)
    (by decide) (by decide) (by decide)

/-! ### Text in system calls -/

namespace User

/-- `struct printbuf`, with the system calls that were made. -/
structure PrintBuf where
  idx : ℕ
  cnt : BitVec 32
  buf : Vector (BitVec 8) 256
  calls : List (List (BitVec 8))

/-- `sys_cputs(b->buf, b->idx)`. -/
def PrintBuf.cputs (b : PrintBuf) : PrintBuf :=
  { b with calls := b.calls ++ [b.buf.toList.take b.idx] }

/-- **`putch(ch, b)`**, if it does not write behind the array. -/
def putch (b : PrintBuf) (ch : BitVec 32) : Option PrintBuf :=
  if h : b.idx < 256 then
    let b := { b with buf := b.buf.set b.idx (charByte ch) h, idx := b.idx + 1 }
    let b := if b.idx = 256 - 1 then { b.cputs with idx := 0 } else b
    some { b with cnt := b.cnt + 1 }
  else none

/-- **`vcprintf(fmt, ap)`**, with an array that holds anything at first: what it returns and the
system calls. -/
def vcprintf (load : BitVec 32 → Except PrintStop (BitVec 8)) (stack : Vector (BitVec 8) 256)
    (fmt : String) (ap : List (BitVec 32)) :
    Except PrintStop (Option (BitVec 32 × List (List (BitVec 8)))) := do
  let out ← vprintfmt load fmt ap
  pure ((out.foldlM putch ⟨0, 0, stack, []⟩).map fun b => (b.cnt, b.cputs.calls))

/-- What has been printed and what still waits in the array. -/
structure PrintBuf.Has (out : List (BitVec 32)) (b : PrintBuf) : Prop where
  cnt : b.cnt = BitVec.ofNat 32 out.length
  idx : b.idx < 255
  text : b.calls.flatten ++ b.buf.toList.take b.idx = out.map charByte
  full : ∀ c ∈ b.calls, c.length = 255

/-- The array after a write behind what waits there. -/
theorem take_set {v : Vector (BitVec 8) 256} {i : ℕ} (h : i < 256) (x : BitVec 8) :
    ((v.set i x h).toList).take (i + 1) = v.toList.take i ++ [x] := by
  rw [Vector.toList_set, List.take_set, List.take_succ_eq_append_getElem (by simpa using h),
    List.set_append_right _ _ (by simp)]
  simp [Nat.min_eq_left (Nat.le_of_lt h)]

/-- **One character more.** -/
theorem PrintBuf.Has.put {b : PrintBuf} {out : List (BitVec 32)} (h : b.Has out) (ch : BitVec 32) :
    ∃ b', putch b ch = some b' ∧ b'.Has (out ++ [ch]) := by
  have hidx := h.idx
  have hlt : b.idx < 256 := by omega
  have hcnt : b.cnt + 1 = BitVec.ofNat 32 (out ++ [ch]).length := by
    rw [h.cnt, List.length_append, List.length_singleton, BitVec.ofNat_add]
    rfl
  have htext : b.calls.flatten ++ (b.buf.set b.idx (charByte ch) hlt).toList.take
      (b.idx + 1) = (out ++ [ch]).map charByte := by
    rw [take_set, ← List.append_assoc, h.text, List.map_append, List.map_singleton]
  rw [putch, dif_pos hlt]
  refine ⟨_, rfl, ?_⟩
  dsimp only
  split
  · next hfull =>
      refine ⟨hcnt, Nat.zero_lt_succ _, ?_, ?_⟩
      · simpa [PrintBuf.cputs] using htext
      · intro c hc
        rcases List.mem_append.1 hc with hc | hc
        · exact h.full c hc
        · rw [List.mem_singleton.1 hc, List.length_take, Vector.length_toList]
          exact Nat.min_eq_left (Nat.le_of_eq hfull |>.trans (by decide)) |>.trans hfull
  · next hfull =>
      refine ⟨hcnt, ?_, htext, h.full⟩
      change b.idx + 1 < 255
      exact Nat.lt_of_le_of_ne hidx hfull

/-- **All characters.** -/
theorem PrintBuf.Has.puts (stack : Vector (BitVec 8) 256) (out : List (BitVec 32)) :
    ∃ b, out.foldlM putch ⟨0, 0, stack, []⟩ = some b ∧ b.Has out := by
  induction out using List.reverseRecOn with
  | nil => exact ⟨_, rfl, rfl, Nat.zero_lt_succ _, by simp, by simp⟩
  | append_singleton out ch ih =>
      obtain ⟨b, hb, hhas⟩ := ih
      obtain ⟨b', hb', hhas'⟩ := hhas.put ch
      refine ⟨b', ?_, hhas'⟩
      rw [List.foldlM_append, hb]
      change (putch b ch).bind some = some b'
      rw [hb', Option.bind_some]

/-- **`vcprintf` of a program prints the text**, in system calls of 255 characters each but the last
one, which are one after the other the characters of the text; it returns its length. Nothing is
written behind the array. -/
theorem vcprintf_calls {load : BitVec 32 → Except PrintStop (BitVec 8)} {fmt : String}
    {ap out : List (BitVec 32)} (stack : Vector (BitVec 8) 256)
    (hout : vprintfmt load fmt ap = .ok out) :
    ∃ full last, vcprintf load stack fmt ap =
      .ok (some (BitVec.ofNat 32 out.length, full ++ [last])) ∧
      (full ++ [last]).flatten = out.map charByte ∧ (∀ c ∈ full, c.length = 255) ∧
      last.length < 255 := by
  obtain ⟨b, hb, h⟩ := PrintBuf.Has.puts stack out
  have hidx := h.idx
  refine ⟨b.calls, b.buf.toList.take b.idx, ?_, ?_, h.full, ?_⟩
  · rw [vcprintf, hout]
    change Except.ok ((out.foldlM putch ⟨0, 0, stack, []⟩).map _) = _
    rw [hb, Option.map_some, h.cnt]
    rfl
  · rw [List.flatten_append, List.flatten_singleton, h.text]
  · rw [List.length_take, Vector.length_toList]
    omega

/-- A number in 300 columns. -/
def wideSeven : List (BitVec 32) := List.replicate 299 (chr ' ') ++ [chr '7']

theorem vcprintf_calls_wide :
    ∃ full last, vcprintf (fun va => .error (.fault va)) (Vector.replicate 256 0xCC) "%300d" [7] =
      .ok (some (BitVec.ofNat 32 wideSeven.length, full ++ [last])) ∧
    (full ++ [last]).flatten = wideSeven.map charByte ∧ (∀ c ∈ full, c.length = 255) ∧
      last.length < 255 :=
  vcprintf_calls (Vector.replicate 256 0xCC) (by decide +kernel)

end User

end Jos
