/-
**The kernel monitor.**

`runcmd` cuts a line into words in place: it overwrites the white space with zero bytes and keeps
pointers to the words. The monitor reads lines and runs the commands that they name, for ever, since
no command tells it to stop.

Main definitions:

* `Jos.gobble`, `Jos.scanArg`, `Jos.parseArgs`, `Jos.runcmd` — the command interpreter;
* `Jos.monitorFrom` — the monitor;
* `Jos.words`, `Jos.Action`, `Jos.action` — the words of a line, and what they ask for;
* `Jos.typedLines` — the lines in what is typed.

Main results:

* `Jos.parseArgs_words` — the strings at the pointers are the words;
* `Jos.runcmd_acts` — **a line does what its words ask for**;
* `Jos.monitor_lines` — **the monitor runs the lines that are typed**, in order;
* `Jos.keys_run_commands` — from the keys that are pressed to the commands that run.
-/

import JosKernel.ConsoleInput
import JosKernel.Readline
import JosKernel.Strings
import Mathlib.Data.List.GetD

set_option relaxedAutoImplicit false
set_option autoImplicit false

namespace Jos

open CString LabelledRun

/-! ### The command interpreter -/

def maxArgs : ℕ := 16

/-- The bytes of a constant. -/
def ascii (s : String) : List (BitVec 8) := s.toList.map fun c => BitVec.ofNat 8 c.toNat

/-- The memory of a constant, which stands at the address 1. -/
def literal (l : List (BitVec 8)) : BitVec 32 → BitVec 8 := fun a => l.getD (a - 1).toNat 0

/-- `WHITESPACE`. -/
def whitespace : List (BitVec 8) := [0x09, 0x0D, 0x0A, 0x20]

/-- `strchr(WHITESPACE, c)` is not `NULL`. -/
def isWhite (c : BitVec 8) : Bool := (strchr (literal whitespace) 1 c).any (· ≠ 0)

/-- The commands of the monitor. -/
inductive MonFunc
  | help | kerninfo | backtrace
  deriving DecidableEq, Repr

/-- An entry of `commands`. -/
structure Command where
  name : List (BitVec 8)
  desc : List (BitVec 8)
  func : MonFunc
  deriving DecidableEq, Repr

def commands : List Command :=
  [⟨ascii "help", ascii "Display this list of commands", .help⟩,
    ⟨ascii "kerninfo", ascii "Display information about the kernel", .kerninfo⟩,
    ⟨ascii "backtrace", ascii "Display stack backtrace", .backtrace⟩]

/-- The loop that gobbles white space: the memory, and the place behind it. -/
def gobble : ℕ → (BitVec 32 → BitVec 8) → BitVec 32 → Option ((BitVec 32 → BitVec 8) × BitVec 32)
  | 0, _, _ => none
  | fuel + 1, m, p =>
      if m p ≠ 0 ∧ isWhite (m p) then gobble fuel (Function.update m p 0) (p + 1) else some (m, p)

/-- The loop that scans past an argument. -/
def scanArg : ℕ → (BitVec 32 → BitVec 8) → BitVec 32 → Option (BitVec 32)
  | 0, _, _ => none
  | fuel + 1, m, p => if m p ≠ 0 ∧ ¬ isWhite (m p) then scanArg fuel m (p + 1) else some p

/-- What the first loop of `runcmd` leads to. -/
inductive Parsed
  | tooMany (m : BitVec 32 → BitVec 8)
  | args (m : BitVec 32 → BitVec 8) (argv : List (BitVec 32))

/-- **The first loop of `runcmd`.** -/
def parseArgs : ℕ → (BitVec 32 → BitVec 8) → BitVec 32 → List (BitVec 32) → Option Parsed
  | 0, _, _, _ => none
  | fuel + 1, m, p, argv => do
      let (m, p) ← gobble (2 ^ 32) m p
      if m p = 0 then some (.args m argv)
      else if argv.length = maxArgs - 1 then some (.tooMany m)
      else do
        let q ← scanArg (2 ^ 32) m p
        parseArgs fuel m q (argv ++ [p])

/-- What `runcmd` does: it may print `"Too many arguments (max %d)\n"` or
`"Unknown command '%s'\n"`, or call a function with its arguments in memory. -/
inductive RunEnd
  | empty (m : BitVec 32 → BitVec 8)
  | tooMany (m : BitVec 32 → BitVec 8)
  | ran (func : MonFunc) (m : BitVec 32 → BitVec 8) (argv : List (BitVec 32))
  | unknown (m : BitVec 32 → BitVec 8) (name : BitVec 32)

/-- The loop over `commands`. -/
def lookupCommand (m : BitVec 32 → BitVec 8) (name : BitVec 32) :
    List Command → Option (Option Command)
  | [] => some none
  | c :: cs => do
      let d ← strcmp m name (literal c.name) 1
      if d = 0 then some (some c) else lookupCommand m name cs

/-- **`runcmd(buf)`.** -/
def runcmd (m : BitVec 32 → BitVec 8) (buf : BitVec 32) : Option RunEnd := do
  match ← parseArgs (maxArgs + 1) m buf [] with
  | .tooMany m => some (.tooMany m)
  | .args m [] => some (.empty m)
  | .args m (name :: argv) => do
      match ← lookupCommand m name commands with
      | some c => some (.ran c.func m (name :: argv))
      | none => some (.unknown m name)

/-! ### Words -/

/-- The words of a line behind the word `w`, which may go on. -/
def wordsFrom : List (BitVec 8) → List (BitVec 8) → List (List (BitVec 8))
  | w, [] => if w = [] then [] else [w]
  | w, c :: l =>
      if isWhite c then (if w = [] then [] else [w]) ++ wordsFrom [] l else wordsFrom (w ++ [c]) l

/-- **The words of a line.** -/
def words (l : List (BitVec 8)) : List (List (BitVec 8)) := wordsFrom [] l

/-- What a line asks for. -/
inductive Action
  | nothing
  | tooMany
  | run (func : MonFunc) (args : List (List (BitVec 8)))
  | unknown (name : List (BitVec 8))
  deriving DecidableEq, Repr

/-- **What the words of a line ask for.** -/
def action : List (List (BitVec 8)) → Action
  | [] => .nothing
  | name :: args =>
      if maxArgs ≤ args.length + 1 then .tooMany
      else
        match commands.find? fun c => c.name = name with
        | some c => .run c.func (name :: args)
        | none => .unknown name

/-- The interpreter has done what was asked for: the arguments of a function are the words. -/
def Acts : RunEnd → Action → Prop
  | .empty _, .nothing => True
  | .tooMany _, .tooMany => True
  | .ran func m argv, .run func' args => func = func' ∧ List.Forall₂ (Str m) argv args
  | .unknown m name, .unknown name' => Str m name name'
  | _, _ => False

/-! ### Constants -/

/-- **A constant** is a string. -/
theorem literal_str {l : List (BitVec 8)} (hne : ∀ c ∈ l, c ≠ 0) (hlen : l.length < 2 ^ 32) :
    Str (literal l) 1 l := by
  have hoff : ∀ i < 2 ^ 32, (1#32 + BitVec.ofNat 32 i - 1#32).toNat = i := by
    intro i hi
    rw [BitVec.add_comm, BitVec.add_sub_cancel, BitVec.toNat_ofNat, Nat.mod_eq_of_lt hi]
  refine Str.of_bytes (Bytes.of_getElem fun i hi => ?_) hne ?_
  · change l.getD (1#32 + BitVec.ofNat 32 i - 1#32).toNat 0 = l[i]
    rw [hoff i (hi.trans hlen), List.getD_eq_getElem _ _ hi]
  · change l.getD (1#32 + BitVec.ofNat 32 l.length - 1#32).toNat 0 = 0
    rw [hoff _ hlen, List.getD_eq_default _ _ (Nat.le_refl _)]

/-! ### The loops -/

section

variable {m : BitVec 32 → BitVec 8} {p a : BitVec 32} {l : List (BitVec 8)}

/-- An address before a place is far behind it. -/
theorem toNat_sub_before {i n r : ℕ} (hi : i < n) (hr : n + r < 2 ^ 32) :
    r ≤ (p + BitVec.ofNat 32 i - (p + BitVec.ofNat 32 n)).toNat := by
  rw [BitVec.toNat_sub, BitVec.toNat_add, BitVec.toNat_add, BitVec.toNat_ofNat, BitVec.toNat_ofNat]
  omega

/-- An address behind a place is behind every place before. -/
theorem toNat_sub_behind {n r : ℕ} (h : n + r ≤ (a - p).toNat) :
    r ≤ (a - (p + BitVec.ofNat 32 n)).toNat := by
  rw [BitVec.toNat_sub] at h ⊢
  rw [BitVec.toNat_add, BitVec.toNat_ofNat]
  omega

/-- **White space**: what is behind it, and the memory without it. -/
theorem gobble_str :
    ∀ {l : List (BitVec 8)} {m : BitVec 32 → BitVec 8} {p : BitVec 32} (fuel : ℕ), Str m p l →
      l.length < fuel →
    l.length < 2 ^ 32 →
    ∃ m' k, gobble fuel m p = some (m', p + BitVec.ofNat 32 k) ∧ k ≤ l.length ∧
      Str m' (p + BitVec.ofNat 32 k) (l.drop k) ∧
      words l = words (l.drop k) ∧ (∀ c ∈ (l.drop k).head?, isWhite c = false) ∧
      (∀ a, k ≤ (a - p).toNat → m' a = m a) ∧ (0 < k → m' p = 0) := by
  intro l
  induction l with
  | nil =>
      intro m p fuel h hfuel hlen
      cases fuel with
      | zero => simp at hfuel
      | succ fuel =>
          refine ⟨m, 0, ?_, Nat.le_refl 0, by simpa using h, rfl, by simp, fun _ _ => rfl, fun hk =>
            absurd hk (Nat.lt_irrefl 0)⟩
          rw [gobble, if_neg fun hc => hc.1 (str_nil.1 h), BitVec.add_zero]
  | cons c l ih =>
      intro m p fuel h hfuel hlen
      cases fuel with
      | zero => simp at hfuel
      | succ fuel =>
          obtain ⟨hc, hne, hrest⟩ := h
          rw [List.length_cons] at hfuel hlen
          cases hw : isWhite c with
          | false =>
              refine ⟨m, 0, ?_, Nat.zero_le _, by simpa using ⟨hc, hne, hrest⟩,
                rfl, by simpa using hw, fun _ _ => rfl,
                fun hk => absurd hk (Nat.lt_irrefl 0)⟩
              rw [gobble, hc, hw, if_neg fun hcond => Bool.false_ne_true hcond.2, BitVec.add_zero]
          | true =>
              have hrest' : Str (Function.update m p 0) (p + 1) l := by
                refine hrest.congr fun i hi => Function.update_of_ne (fun heq => ?_) ..
                have hnat := congrArg BitVec.toNat heq
                rw [BitVec.toNat_add, BitVec.toNat_add, BitVec.toNat_ofNat] at hnat
                change (((p.toNat + 1) % 2 ^ 32) + i % 2 ^ 32) % 2 ^ 32 = p.toNat at hnat
                omega
              obtain ⟨m', k, hgob, hk, hstr, hwords, hhead, hsame, hzero⟩ :=
                ih fuel hrest' (Nat.lt_of_succ_lt_succ hfuel) (by omega)
              refine ⟨m', k + 1, ?_, Nat.succ_le_succ hk, ?_, ?_, hhead, fun a ha => ?_, fun _ =>
                ?_⟩
              · rw [gobble, hc, hw, if_pos ⟨hne, rfl⟩, hgob, add_length_succ]
              · rw [← add_length_succ]
                exact hstr
              · rw [words, wordsFrom, hw, if_pos rfl, if_pos rfl, List.nil_append]
                exact hwords
              · have hne : a ≠ p := by
                  rintro rfl
                  rw [BitVec.sub_self] at ha
                  exact absurd ha (Nat.not_succ_le_zero k)
                rw [hsame a (toNat_sub_behind (n := 1) (by omega)), Function.update_of_ne hne]
              · have hfar : k ≤ (p - (p + 1)).toNat := by
                  have hbefore :=
                    toNat_sub_before (p := p) (i := 0) (n := 1) (r := k) (by omega) (by omega)
                  rwa [BitVec.add_zero] at hbefore
                rw [hsame p hfar, Function.update_self]

/-- **A word**: the place behind it. -/
theorem scanArg_str :
    ∀ {l : List (BitVec 8)} {p : BitVec 32} (fuel : ℕ), Str m p l → l.length < fuel →
    ∃ k, scanArg fuel m p = some (p + BitVec.ofNat 32 k) ∧ k ≤ l.length ∧
      Str m (p + BitVec.ofNat 32 k) (l.drop k) ∧
      (∀ w, wordsFrom w l = wordsFrom (w ++ l.take k) (l.drop k)) ∧
      (∀ c ∈ (l.drop k).head?, isWhite c = true) ∧
      (∀ c ∈ l.head?, isWhite c = false → 0 < k) := by
  intro l
  induction l with
  | nil =>
      intro p fuel h hfuel
      cases fuel with
      | zero => simp at hfuel
      | succ fuel =>
          refine ⟨0, ?_, Nat.le_refl 0, by simpa using h, by simp, by simp, by simp⟩
          rw [scanArg, if_neg fun hc => hc.1 (str_nil.1 h), BitVec.add_zero]
  | cons c l ih =>
      intro p fuel h hfuel
      cases fuel with
      | zero => simp at hfuel
      | succ fuel =>
          obtain ⟨hc, hne, hrest⟩ := h
          cases hw : isWhite c with
          | true =>
              refine ⟨0, ?_,
                Nat.zero_le
                _, by simpa using ⟨hc, hne, hrest⟩, by simp, by simpa using hw, by simp [hw]⟩
              rw [scanArg, hc, hw, if_neg fun hcond => hcond.2 rfl, BitVec.add_zero]
          | false =>
              obtain ⟨k, hscan, hk, hstr, hwords, hhead, -⟩ :=
                ih fuel hrest (Nat.lt_of_succ_lt_succ hfuel)
              refine ⟨k + 1, ?_, Nat.succ_le_succ hk, ?_, fun w => ?_, hhead, fun _ _ _ =>
                Nat.succ_pos k⟩
              · rw [scanArg, hc, hw, if_pos ⟨hne, Bool.false_ne_true⟩, hscan, add_length_succ]
              · rw [← add_length_succ]
                exact hstr
              · rw [wordsFrom, hw, if_neg Bool.false_ne_true, hwords, List.take_succ_cons,
                  List.drop_succ_cons, List.append_assoc]
                rfl

/-- The end of a word. -/
theorem wordsFrom_close {w : List (BitVec 8)} (hw : w ≠ [])
    (hhead : ∀ c ∈ l.head?, isWhite c = true) : wordsFrom w l = w :: words l := by
  cases l with
  | nil => rw [wordsFrom, if_neg hw, words, wordsFrom, if_pos rfl]
  | cons c l =>
      have hc := hhead c rfl
      rw [wordsFrom, hc, if_pos rfl, if_neg hw, words, wordsFrom, hc, if_pos rfl, if_pos rfl]
      rfl

/-- **The first loop of `runcmd`**: the strings at the pointers are the words, or there are too many
of them. -/
theorem parseArgs_words :
    ∀ (fuel : ℕ) {m : BitVec 32 → BitVec 8} {p : BitVec 32} {l : List (BitVec 8)}
      (argv : List (BitVec 32)),
    Str m p l → l.length < 2 ^ 32 → argv.length < maxArgs → maxArgs < fuel + argv.length →
    ∃ r, parseArgs fuel m p argv = some r ∧
      (argv.length + (words l).length < maxArgs → ∃ m' ptrs, r = .args m' (argv ++ ptrs) ∧
        List.Forall₂ (Str m') ptrs (words l) ∧
        (∀ a, l.length ≤ (a - p).toNat → m' a = m a) ∧
        ((∀ c ∈ l.head?, isWhite c = true) → m' p = 0)) ∧
      (maxArgs ≤ argv.length + (words l).length → ∃ m', r = .tooMany m') := by
  intro fuel
  induction fuel with
  | zero => intro m p l argv _ _ hargv hfuel; omega
  | succ fuel ih =>
      intro m p l argv h hlen hargv hfuel
      obtain ⟨m₁, k, hgob, hk, hstr, hwords, hhead, hsame, hzero⟩ := gobble_str (2 ^ 32) h hlen hlen
      obtain ⟨l₁, hl₁⟩ : ∃ l₁, l.drop k = l₁ := ⟨_, rfl⟩
      obtain ⟨p₁, hp₁⟩ : ∃ p₁, p + BitVec.ofNat 32 k = p₁ := ⟨_, rfl⟩
      have hlen₁ : l₁.length + k = l.length := by
        rw [← hl₁, List.length_drop]
        omega
      rw [hl₁, hp₁] at hstr
      rw [hl₁] at hhead hwords
      rw [hp₁] at hgob
      have hfirst : (∀ c ∈ l.head?, isWhite c = true) → m₁ p = 0 := by
        intro hwhite
        rcases Nat.eq_zero_or_pos k with rfl | hpos
        · rw [BitVec.add_zero] at hp₁
          rw [List.drop_zero] at hl₁
          subst hp₁ hl₁
          cases l with
          | nil => exact str_nil.1 hstr
          | cons c l => exact absurd ((hhead c rfl).symm.trans (hwhite c rfl)) Bool.false_ne_true
        · exact hzero hpos
      rw [parseArgs, hgob, hwords]
      change ∃ r, (if m₁ p₁ = 0 then some (Parsed.args m₁ argv) else if argv.length =
        maxArgs - 1 then some (.tooMany m₁)
        else (scanArg (2 ^ 32) m₁ p₁).bind fun q => parseArgs fuel m₁ q (argv ++ [p₁])) = some r ∧ _
      cases l₁ with
      | nil =>
          refine ⟨_, if_pos (str_nil.1 hstr), fun _ =>
            ⟨m₁, [], by rw [List.append_nil], List.Forall₂.nil, fun a ha => ?_, fun _ => ?_⟩,
            fun hmany => ?_⟩
          · exact hsame a (hk.trans ha)
          · next hwhite => exact hfirst hwhite
          · exact absurd hargv (Nat.not_lt.2 (by simpa [words, wordsFrom] using hmany))
      | cons c l₁ =>
          have hne : ¬ m₁ p₁ = 0 := by
            rw [hstr.1]
            exact hstr.2.1
          obtain ⟨k', hscan, hk', hstr', hcut, hstop, hpos⟩ := scanArg_str (2 ^ 32) hstr (by omega)
          have hpos := hpos c rfl (hhead c rfl)
          obtain ⟨w, hw⟩ : ∃ w, (c :: l₁).take k' = w := ⟨_, rfl⟩
          obtain ⟨l₂, hl₂⟩ : ∃ l₂, (c :: l₁).drop k' = l₂ := ⟨_, rfl⟩
          have hsplit : w ++ l₂ = c :: l₁ := by rw [← hw, ← hl₂, List.take_append_drop]
          have hwlen : w.length = k' := by rw [← hw, List.length_take, Nat.min_eq_left hk']
          have hwne : w ≠ [] := List.length_pos_iff.1 (hwlen ▸ hpos)
          have hwlen₂ : k' + l₂.length = (c :: l₁).length := by
            rw [← hsplit, List.length_append, hwlen]
          rw [hl₂] at hstr' hstop
          have hword : words (c :: l₁) = w :: words l₂ := by
            rw [words, hcut, List.nil_append, hw, hl₂]
            exact wordsFrom_close hwne hstop
          rw [if_neg hne, hword, List.length_cons]
          by_cases hfull : argv.length = maxArgs - 1
          · rw [if_pos hfull]
            exact ⟨_, rfl, fun hfew => by omega, fun _ => ⟨_, rfl⟩⟩
          rw [if_neg hfull, hscan]
          obtain ⟨r, hr, hfew, hmany⟩ := ih (argv ++ [p₁])
            hstr' (by omega) (by rw [List.length_append, List.length_singleton]; omega)
            (by rw [List.length_append, List.length_singleton]; omega)
          rw [List.length_append, List.length_singleton] at hfew hmany
          refine ⟨r, hr, fun hcount => ?_, fun hcount => hmany (by omega)⟩
          obtain ⟨m', ptrs, rfl, hptrs, hsame', hzero'⟩ := hfew (by omega)
          have hq : p₁ + BitVec.ofNat 32 k' = p + BitVec.ofNat 32 (k + k') := by
            rw [← hp₁, BitVec.add_assoc, ← BitVec.ofNat_add]
          have hstrw : Str m' p₁ w := by
            refine Str.of_bytes ((Bytes.append.1 (hsplit ▸ hstr.bytes)).1.congr fun i hi => ?_)
              (fun b hb => ?_) ?_
            · exact hsame' _ (toNat_sub_before (hwlen ▸ hi) (by omega))
            · exact hstr.ne_zero b (hsplit ▸ List.mem_append_left _ hb)
            · rw [hwlen]
              exact hzero' hstop
          refine ⟨m', p₁ :: ptrs, by rw [List.append_assoc]; rfl, List.Forall₂.cons hstrw hptrs,
            fun a ha => ?_, fun hwhite => ?_⟩
          · rw [hsame' a (by rw [hq]; exact toNat_sub_behind (by omega)), hsame a (by omega)]
          · have hfar : l₂.length ≤ (p - (p₁ + BitVec.ofNat 32 k')).toNat := by
              have hbefore := toNat_sub_before (p := p) (i := 0) (n := k + k')
                (r := l₂.length) (by omega) (by omega)
              rwa [BitVec.add_zero, ← hq] at hbefore
            rw [hsame' p hfar, hfirst hwhite]

theorem length_le_of_mem_wordsFrom {v w : List (BitVec 8)} (h : w ∈ wordsFrom v l) :
    w.length ≤ v.length + l.length := by
  induction l generalizing v with
  | nil =>
      rw [wordsFrom] at h
      split at h
      · simp at h
      · rw [List.mem_singleton.1 h]
        exact Nat.le_add_right ..
  | cons c l ih =>
      rw [wordsFrom] at h
      split at h
      · rcases List.mem_append.1 h with h | h
        · split at h
          · simp at h
          · rw [List.mem_singleton.1 h]
            exact Nat.le_add_right ..
        · have hle := ih h
          rw [List.length_nil] at hle
          rw [List.length_cons]
          omega
      · have hle := ih h
        rw [List.length_append, List.length_singleton] at hle
        rw [List.length_cons]
        omega

/-- **The loop over `commands`** finds the command of a name. -/
theorem lookupCommand_str {w : List (BitVec 8)} (h : Str m a w) (hlen : w.length < 2 ^ 32)
    {cs : List Command} (hcs : ∀ c ∈ cs, (∀ b ∈ c.name, b ≠ 0) ∧ c.name.length < 2 ^ 32) :
    lookupCommand m a cs = some (cs.find? fun c => c.name = w) := by
  induction cs with
  | nil => rfl
  | cons c cs ih =>
      obtain ⟨hne, hname⟩ := hcs c List.mem_cons_self
      obtain ⟨d, hd, hcmp⟩ := strcmpFrom_compares h (literal_str hne hname) hlen
      rw [lookupCommand, strcmp, hd, List.find?_cons]
      change (if d = 0 then some (some c) else lookupCommand m a cs) = _
      by_cases hw : c.name = w
      · rw [if_pos (hcmp.eq.2 hw.symm), decide_eq_true hw]
      · rw [if_neg fun hc => hw (hcmp.eq.1 hc).symm, decide_eq_false hw]
        exact ih fun b hb => hcs b (List.mem_cons_of_mem _ hb)

end

theorem commands_names : ∀ c ∈ commands, (∀ b ∈ c.name, b ≠ 0) ∧ c.name.length < 2 ^ 32 := by decide

/-- **A line does what its words ask for**, whatever it is. -/
theorem runcmd_acts {m : BitVec 32 → BitVec 8} {buf : BitVec 32} {l : List (BitVec 8)}
    (h : Str m buf l) (hlen : l.length < 2 ^ 32) :
    ∃ r, runcmd m buf = some r ∧ Acts r (action (words l)) := by
  obtain ⟨r, hr, hfew, hmany⟩ := parseArgs_words (maxArgs + 1) [] h hlen (by decide) (by decide)
  rw [List.length_nil, Nat.zero_add] at hfew hmany
  rw [runcmd, hr]
  rcases Nat.lt_or_ge (words l).length maxArgs with hcount | hcount
  · obtain ⟨m', ptrs, rfl, hptrs, -, -⟩ := hfew hcount
    rw [List.nil_append]
    have hwords : ∀ w ∈ words l, w.length ≤ l.length := fun w hw => by
      simpa using length_le_of_mem_wordsFrom hw
    revert hptrs hcount hwords
    generalize words l = ws
    intro hcount hptrs hwords
    cases hptrs with
    | nil => exact ⟨_, rfl, True.intro⟩
    | @cons name w ptrs ws hname hrest =>
        have hlook :=
          lookupCommand_str hname ((hwords w List.mem_cons_self).trans_lt hlen) commands_names
        rw [action, if_neg (show ¬ maxArgs ≤ ws.length + 1 from Nat.not_le.2 hcount)]
        simp only [Option.bind_eq_bind, Option.bind_some, hlook]
        cases hfind : commands.find? fun c => c.name = w with
        | some c => exact ⟨_, rfl, rfl, List.Forall₂.cons hname hrest⟩
        | none => exact ⟨_, rfl, hname⟩
  · obtain ⟨m', rfl⟩ := hmany hcount
    refine ⟨_, rfl, ?_⟩
    cases hws : words l with
    | nil =>
        rw [hws] at hcount
        exact absurd hcount (by decide)
    | cons w ws =>
        rw [hws] at hcount
        rw [action, if_pos (show maxArgs ≤ ws.length + 1 from hcount)]
        exact True.intro

/-! ### The monitor -/

/-- The memory after `runcmd`. -/
def RunEnd.mem : RunEnd → BitVec 32 → BitVec 8
  | .empty m => m
  | .tooMany m => m
  | .ran _ m _ => m
  | .unknown m _ => m

/-- **The loop of `monitor`**, for the characters of `getchar` and with what each call of `runcmd`
prints. `runcmd` never returns a negative number, since no command does. -/
def monitorFrom (buf : BitVec 32) (prints : RunEnd → List (BitVec 32)) :
    ℕ → (BitVec 32 → BitVec 8) → ConsOut → List (BitVec 32) → List RunEnd
  | 0, _, _, _ => []
  | fuel + 1, mem, out, cs =>
      match readline buf true ("K> ".toList.map chr) mem out cs with
      | .waiting _ => []
      | .null s rest => monitorFrom buf prints fuel s.mem s.out rest
      | .line s rest =>
          match runcmd s.mem buf with
          | none => []
          | some r => r :: monitorFrom buf prints fuel r.mem (s.out.puts (prints r)) rest

/-- **The lines in what is typed**, behind what is typed already of the first one. -/
def typedLines : List (BitVec 8) → List (BitVec 32) → List (List (BitVec 8))
  | _, [] => []
  | l, c :: cs =>
      if c = 0x0A#32 ∨ c = 0x0D#32 then l :: typedLines [] cs else typedLines (editKey l c) cs

theorem typedLines_append {l : List (BitVec 8)} {cs : List (BitVec 32)}
    (hcs : ∀ c ∈ cs, ¬ IsNewline c) (rest : List (BitVec 32)) :
    typedLines l (cs ++ rest) = typedLines (cs.foldl editKey l) rest := by
  induction cs generalizing l with
  | nil => rfl
  | cons c cs ih =>
      have hc := hcs c List.mem_cons_self
      rw [IsNewline] at hc
      rw [List.cons_append, typedLines, if_neg hc, ih fun b hb => hcs b (List.mem_cons_of_mem _ hb)]
      rfl

/-- The first newline. -/
theorem newline_split (cs : List (BitVec 32)) :
    (∀ c ∈ cs, ¬ IsNewline c) ∨ ∃ pre nl rest, cs = pre ++ nl :: rest ∧ IsNewline nl ∧ ∀ c ∈ pre,
      ¬ IsNewline c := by
  induction cs with
  | nil => exact Or.inl (by simp)
  | cons c cs ih =>
      by_cases hc : IsNewline c
      · exact Or.inr ⟨[], c, cs, rfl, hc, by simp⟩
      · rcases ih with hnone | ⟨pre, nl, rest, rfl, hnl, hpre⟩
        · exact Or.inl (List.forall_mem_cons.2 ⟨hc, hnone⟩)
        · exact Or.inr ⟨c :: pre, nl, rest, rfl, hnl, List.forall_mem_cons.2 ⟨hc, hpre⟩⟩

/-- **The monitor runs the lines that are typed**, in order: each does what its words ask for, as it
is edited. -/
theorem monitor_lines {buf : BitVec 32} {prints : RunEnd → List (BitVec 32)} {cs : List (BitVec 32)}
    (hcs : ∀ c ∈ cs, IsChar c) (mem : BitVec 32 → BitVec 8) {out : ConsOut}
    (hpos : out.crt.pos < crtSize) {fuel : ℕ} (hfuel : cs.length < fuel) :
    List.Forall₂ (fun r l => Acts r (action (words l))) (monitorFrom buf prints fuel mem out cs)
      (typedLines [] cs) := by
  induction fuel generalizing cs mem out with
  | zero => simp at hfuel
  | succ fuel ih =>
      rw [monitorFrom]
      rcases newline_split cs with hnone | ⟨pre, nl, rest, rfl, hnl, hpre⟩
      · obtain ⟨s, hread, -, -⟩ := readline_edits buf mem ("K> ".toList.map chr) hpos
          fun c hc => ⟨hcs c hc, hnone c hc⟩
        have hlines := typedLines_append (l := []) hnone []
        rw [List.append_nil] at hlines
        rw [hread, hlines]
        exact List.Forall₂.nil
      · have hchars : ∀ c ∈ pre, IsChar c ∧ ¬ IsNewline c :=
          fun c hc => ⟨hcs c (List.mem_append_left _ hc), hpre c hc⟩
        obtain ⟨_, -, hedit, -⟩ := readline_edits buf mem ("K> ".toList.map chr) hpos hchars
        obtain ⟨s, hread, hstr, -, hpos'⟩ :=
          readline_returns buf mem ("K> ".toList.map chr) hpos hchars hnl rest
        have hroom := hedit.room
        have hbuf : bufLen = 1024 := rfl
        obtain ⟨r, hr, hacts⟩ := runcmd_acts hstr (by omega)
        rw [IsNewline] at hnl
        rw [hread, typedLines_append hpre, typedLines, if_pos hnl]
        simp only [hr]
        refine List.Forall₂.cons hacts (ih (fun c hc => hcs c ?_) _ ?_ ?_)
        · exact List.mem_append_right _ (List.mem_cons_of_mem _ hc)
        · exact (ConsOut.puts_shows (Crt.shows_paper hpos') _).1.lt
        · rw [List.length_append, List.length_cons] at hfuel
          omega

/-- **From the keys to the commands**: without a serial port, as long as no more than 511 characters
are waiting, and with none waiting in the end, the monitor that reads what `cons_getc` returns runs
the lines of the keys that were pressed. -/
theorem keys_run_commands {buf : BitVec 32} {prints : RunEnd → List (BitVec 32)} {x : ConsoleRun}
    {tr : List (ConsoleRun × ConsoleOp)}
    (hrun : Run (fun x c y => ConsoleOp.Step x c y) (ConsoleRun.boot false) tr x)
    (hfits : Meets (fun x c => c.Fits x) tr) (hempty : x.console.cons.Waiting [])
    (mem : BitVec 32 → BitVec 8) {out : ConsOut} (hpos : out.crt.pos < crtSize) :
    List.Forall₂ (fun r l => Acts r (action (words l)))
      (monitorFrom buf prints (x.got.length + 1) mem out (x.got.map (BitVec.setWidth 32)))
      (typedLines [] ((typedAfter [] (keyEvents false x.kbd)).map (BitVec.setWidth 32))) := by
  obtain ⟨k, q, h, hiff⟩ := ConsoleInv.run hrun
  obtain rfl := hiff.2 hfits
  obtain rfl : q = [] := h.waiting.empty_iff.1 (hempty.empty_iff.2 rfl)
  have hall := (h.delivers.eq_iff (Nat.succ_pos 511)).2 rfl
  rw [List.append_nil] at hall
  rw [← (typed_keys hrun).1, ← hall]
  refine monitor_lines (fun c hc => ?_) mem hpos (by rw [List.length_map]; exact Nat.lt_succ_self _)
  obtain ⟨b, -, rfl⟩ := List.mem_map.1 hc
  have hlt := b.isLt
  rw [IsChar, BitVec.toNat_setWidth]
  omega

/-- `help` is typed. -/
theorem keys_run_commands_help :
    ∃ tr x, Run (fun x c y => ConsoleOp.Step x c y) (ConsoleRun.boot false) tr x ∧
    x.kbd = [0x23, 0x12, 0x26, 0x19, 0x1C] ∧
    typedLines [] ((typedAfter [] (keyEvents false x.kbd)).map (BitVec.setWidth 32)) =
      [ascii "help"] ∧
    List.Forall₂ (fun r l => Acts r (action (words l)))
      (monitorFrom 0x1000 (fun _ => []) (x.got.length + 1) (fun _ => 0) emptyOut
        (x.got.map (BitVec.setWidth 32)))
      (typedLines [] ((typedAfter [] (keyEvents false x.kbd)).map (BitVec.setWidth 32))) := by
  have hrun : ∃ tr x, Run (fun x c y => ConsoleOp.Step x c y) (ConsoleRun.boot false) tr x ∧
      x.kbd = [0x23, 0x12, 0x26, 0x19, 0x1C] ∧
      Meets (fun x c => c.Fits x) tr ∧ x.console.cons.rpos = 5 ∧ x.console.cons.wpos = 5 := by
    refine ⟨_, _, ((((((Run.nil _).snoc (a := .kbdIntr [0x23, 0x12, 0x26, 0x19, 0x1C]) rfl).snoc
      (a := .consGetc [] []) rfl).snoc
      (a := .consGetc [] []) rfl).snoc (a := .consGetc [] []) rfl).snoc (a :=
        .consGetc [] []) rfl).snoc (a := .consGetc [] []) rfl, ?_, ?_, ?_, ?_⟩
    · decide +kernel
    · unfold Meets
      decide +kernel
    · decide +kernel
    · decide +kernel
  obtain ⟨tr, x, hrun, hkbd, hfits, hr, hw⟩ := hrun
  have hempty : x.console.cons.Waiting [] :=
    ⟨by rw [hr]; decide, by decide, by rw [hr, hw]; decide, by simp⟩
  refine ⟨tr, x, hrun, hkbd, ?_, keys_run_commands hrun hfits hempty _ (by decide)⟩
  rw [hkbd]
  decide +kernel

end Jos
