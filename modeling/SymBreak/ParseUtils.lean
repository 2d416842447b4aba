import Mathlib.Algebra.Group.Nat.Defs
import Mathlib.Data.List.Basic
import Mathlib.Tactic.Common

/-!
# Reading characters

Model of `utils/ParseUtils.h`: `skipWhitespace`, `skipLine`, `parseInt` and `eagerMatch` over the
characters still to come. `Numeral` and `Numerals` are the spellings of one number and of several,
and an `int` wraps at `2^32`.

Results:
* **`parseInt_numeral`**: in front of anything but a digit, `parseInt` reads a numeral whole.
* `Numerals.reads`: several numerals are read one after another.
* `skipLine_line`, `eagerMatch_append`, `skipWhitespace_blank`: the same for the other readers.
-/

namespace SymBreak

/-- The characters of the `StreamBuffer` still to come; where there is none, `*in` is `EOF`. -/
abbrev Input := List Char

/-- `exit(3)` after `"PARSE ERROR! Unexpected char: %c\n"`, and what has no defined behaviour. -/
inductive ParseError where
  | unexpectedChar (c : Option Char)
  | nullPointer
  | outOfRange
  deriving DecidableEq, Repr

/-! ## The readers -/

/-- The value of an `int`. -/
def toInt (x : Int) : Int := x.bmod (2 ^ 32)

/-- `(c >= 9 && c <= 13) || c == 32` -/
def isWhitespace (c : Char) : Bool := (9 ≤ c.toNat && c.toNat ≤ 13) || c.toNat == 32

/-- `skipWhitespace` (`ParseUtils.h:67-70`). -/
def skipWhitespace (inp : Input) : Input := inp.dropWhile isWhitespace

/-- `skipLine` (`ParseUtils.h:73-78`). -/
def skipLine : Input → Input
  | [] => []
  | c :: inp => if c = '\n' then inp else skipLine inp

/-- `*in - '0'` -/
def digit (c : Char) : Int := c.toNat - '0'.toNat

/-- The digit loop of `parseInt` (`ParseUtils.h:119-121`). -/
def parseDigits (val : Int) : Input → Int × Input
  | [] => (val, [])
  | c :: inp =>
    if c.isDigit then parseDigits (toInt (val * 10 + digit c)) inp else (val, c :: inp)

/-- The optional sign (`ParseUtils.h:116-117`). -/
def parseSign : Input → Bool × Input
  | [] => (false, [])
  | c :: inp => if c = '-' then (true, inp) else if c = '+' then (false, inp) else (false, c :: inp)

/-- `parseInt` (`ParseUtils.h:111-122`). -/
def parseInt (inp : Input) : Except ParseError (Int × Input) :=
  match parseSign (skipWhitespace inp) with
  | (_, []) => .error (.unexpectedChar none)
  | (neg, c :: inp) =>
    if c.isDigit then
      let (val, inp) := parseDigits 0 (c :: inp)
      .ok (if neg then toInt (-val) else val, inp)
    else .error (.unexpectedChar (some c))

/-- `eagerMatch` (`ParseUtils.h:142-146`): what matched is consumed also where the match fails. -/
def eagerMatch : List Char → Input → Bool × Input
  | [], inp => (true, inp)
  | _ :: _, [] => (false, [])
  | s :: str, c :: inp => if s = c then eagerMatch str inp else (false, c :: inp)

/-! ## Spellings -/

/-- Whitespace. -/
def Blank (s : List Char) : Prop := ∀ c ∈ s, isWhitespace c = true

/-- Decimal digits, at least one. -/
def Digits (s : List Char) : Prop := s ≠ [] ∧ ∀ c ∈ s, c.isDigit = true

/-- What the digits spell. -/
def decimal (s : List Char) : Int := s.foldl (fun val c => val * 10 + digit c) 0

/-- An `int`, spelled with or without a sign. -/
inductive Numeral : List Char → Int → Prop
  | plain {s : List Char} : Digits s → Numeral s (toInt (decimal s))
  | plus {s : List Char} : Digits s → Numeral ('+' :: s) (toInt (decimal s))
  | minus {s : List Char} : Digits s → Numeral ('-' :: s) (toInt (-decimal s))

/-- Some numbers, each after whitespace. -/
inductive Numerals : List Char → List Int → Prop
  | nil : Numerals [] []
  | cons {ws s t : List Char} {v : Int} {vs : List Int} :
      Blank ws → ws ≠ [] → Numeral s v → Numerals t vs → Numerals (ws ++ (s ++ t)) (v :: vs)

/-- No further digit follows. -/
def Stops (rest : Input) : Prop := ∀ c ∈ rest.head?, c.isDigit = false

/-! ## What the readers read -/

section Readers

variable {ws s t rest : List Char} {v : Int} {vs : List Int} {c : Char}

theorem isDigit_of_isWhitespace (h : isWhitespace c = true) : c.isDigit = false := by
  simp only [isWhitespace, Bool.or_eq_true, Bool.and_eq_true, decide_eq_true_eq, beq_iff_eq] at h
  simp only [Char.isDigit, Bool.and_eq_false_iff, decide_eq_false_iff_not, ge_iff_le,
    UInt32.le_iff_toNat_le]
  change ¬ 48 ≤ c.toNat ∨ ¬ c.toNat ≤ 57
  omega

theorem isWhitespace_of_isDigit (h : c.isDigit = true) : isWhitespace c = false := by
  by_contra hws
  rw [isDigit_of_isWhitespace (Bool.not_eq_false _ ▸ hws)] at h
  exact Bool.false_ne_true h

theorem blank_nil : Blank [] := fun _ h => by simp at h

theorem Blank.stops_append (hws : Blank ws) (h : ws ≠ []) : Stops (ws ++ rest) := by
  cases ws with
  | nil => exact absurd rfl h
  | cons c ws =>
    intro d hd
    obtain rfl : c = d := by simpa using hd
    exact isDigit_of_isWhitespace (hws c List.mem_cons_self)

theorem Numerals.stops (h : Numerals t vs) (hrest : Stops rest) : Stops (t ++ rest) := by
  cases h with
  | nil => exact hrest
  | cons hws hne _ _ =>
    rw [List.append_assoc]
    exact hws.stops_append hne

theorem skipWhitespace_blank (h : Blank ws) : skipWhitespace (ws ++ rest) = skipWhitespace rest :=
  List.dropWhile_append_of_pos h

theorem skipWhitespace_cons (h : isWhitespace c = false) :
    skipWhitespace (c :: rest) = c :: rest :=
  List.dropWhile_cons_of_neg (by rw [h]; exact Bool.false_ne_true)

/-- A line is skipped with its end. -/
theorem skipLine_line (h : '\n' ∉ s) : skipLine (s ++ '\n' :: rest) = rest := by
  induction s with
  | nil => rfl
  | cons c s ih =>
    obtain ⟨hc, hs⟩ : '\n' ≠ c ∧ '\n' ∉ s := by simpa using h
    rw [List.cons_append, skipLine, if_neg hc.symm, ih hs]

theorem skipLine_last (h : '\n' ∉ s) : skipLine s = [] := by
  induction s with
  | nil => rfl
  | cons c s ih =>
    obtain ⟨hc, hs⟩ : '\n' ≠ c ∧ '\n' ∉ s := by simpa using h
    rw [skipLine, if_neg hc.symm, ih hs]

theorem eagerMatch_append : eagerMatch s (s ++ rest) = (true, rest) := by
  induction s with
  | nil => rfl
  | cons c s ih => rw [List.cons_append, eagerMatch, if_pos rfl, ih]

/-- The digit loop works modulo `2^32`. -/
theorem toInt_step (x d : Int) : toInt (toInt x * 10 + d) = toInt (x * 10 + d) := by
  unfold toInt
  rw [← Int.bmod_add_bmod, Int.bmod_mul_bmod, Int.bmod_add_bmod]

theorem toInt_neg (x : Int) : toInt (-toInt x) = toInt (-x) := Int.bmod_neg_bmod

theorem parseDigits_append (hs : ∀ c ∈ s, c.isDigit = true) (hrest : Stops rest) (x : Int) :
    parseDigits (toInt x) (s ++ rest) =
      (toInt (s.foldl (fun val c => val * 10 + digit c) x), rest) := by
  induction s generalizing x with
  | nil =>
    cases rest with
    | nil => rfl
    | cons c rest =>
      have hc : c.isDigit = false := hrest c rfl
      simp only [List.nil_append, parseDigits, hc, Bool.false_eq_true, if_false, List.foldl_nil]
  | cons c s ih =>
    obtain ⟨hc, hs⟩ := List.forall_mem_cons.mp hs
    rw [List.cons_append, parseDigits, if_pos hc, toInt_step, ih hs, List.foldl_cons]

/-- The digits after the sign. -/
theorem parseDigits_decimal (hs : Digits s) (hrest : Stops rest) :
    parseDigits 0 (s ++ rest) = (toInt (decimal s), rest) :=
  parseDigits_append hs.2 hrest 0

theorem Digits.head (hs : Digits s) : ∃ c t, s = c :: t ∧ c.isDigit = true := by
  obtain ⟨hne, hall⟩ := hs
  cases s with
  | nil => exact absurd rfl hne
  | cons c t => exact ⟨c, t, rfl, hall c List.mem_cons_self⟩

/-- **A numeral is read whole.** -/
theorem parseInt_numeral (hws : Blank ws) (hs : Numeral s v) (hrest : Stops rest) :
    parseInt (ws ++ (s ++ rest)) = .ok (v, rest) := by
  unfold parseInt
  rw [skipWhitespace_blank hws]
  cases hs with
  | plain hd =>
    obtain ⟨c, t, rfl, hc⟩ := hd.head
    have hminus : c ≠ '-' := by rintro rfl; exact absurd hc (by decide)
    have hplus : c ≠ '+' := by rintro rfl; exact absurd hc (by decide)
    rw [List.cons_append, skipWhitespace_cons (isWhitespace_of_isDigit hc), parseSign,
      if_neg hminus, if_neg hplus]
    simp only [hc, if_true]
    rw [← List.cons_append, parseDigits_decimal hd hrest]
    rfl
  | plus hd =>
    obtain ⟨c, t, rfl, hc⟩ := hd.head
    rw [List.cons_append, skipWhitespace_cons (by decide), parseSign, if_neg (by decide),
      if_pos rfl, List.cons_append]
    simp only [hc, if_true]
    rw [← List.cons_append, parseDigits_decimal hd hrest]
    rfl
  | minus hd =>
    obtain ⟨c, t, rfl, hc⟩ := hd.head
    rw [List.cons_append, skipWhitespace_cons (by decide), parseSign, if_pos rfl,
      List.cons_append]
    simp only [hc, if_true]
    rw [← List.cons_append, parseDigits_decimal hd hrest]
    simp only [toInt_neg]

/-- Calls of `parseInt`, one after another. -/
def ReadsInts : Input → List Int → Input → Prop
  | inp, [], rest => inp = rest
  | inp, v :: vs, rest => ∃ inp', parseInt inp = .ok (v, inp') ∧ ReadsInts inp' vs rest

/-- Numbers after whitespace are read one after another. -/
theorem Numerals.reads (h : Numerals t vs) (hrest : Stops rest) :
    ReadsInts (t ++ rest) vs rest := by
  induction h with
  | nil => rfl
  | cons hws _ hs ht ih =>
    rw [List.append_assoc, List.append_assoc]
    exact ⟨_, parseInt_numeral hws hs (ht.stops hrest), ih⟩

end Readers

end SymBreak
