import GnuOS.Lib.Memory

/-!
# Formatted output

A model of `kernel/lib/printk.c`.  The output is the list of the characters handed to
`serial_write_char`.  An access to the digit buffer outside of its 32 bytes, or to a byte of it that
was not written, and an argument of another type than `va_arg` asks for are `outside`.

`Numeral` is what the digits of a number have to be; `printUnsigned_spec` and `printSigned_spec` say
that they are.
-/

namespace GnuOS.Console

open GnuOS.Lib Function List BitVec

/-! ## The functions -/

def ascii (c : Char) : BitVec 8 := BitVec.ofNat 8 c.toNat

def digitsLo : List (BitVec 8) :=
  ['0', '1', '2', '3', '4', '5', '6', '7', '8', '9', 'a', 'b', 'c', 'd', 'e', 'f'].map ascii

def digitsHi : List (BitVec 8) :=
  ['0', '1', '2', '3', '4', '5', '6', '7', '8', '9', 'A', 'B', 'C', 'D', 'E', 'F'].map ascii

/-- The local array `buffer`, which is not initialised. -/
abbrev DigitBuffer := ℕ → Option (BitVec 8)

/-- The first loop of `print_unsigned`. -/
def fillDigits (digits : List (BitVec 8)) (base : BitVec 32) :
    ℕ → BitVec 64 → ℕ → DigitBuffer → Outcome (ℕ × DigitBuffer)
  | 0, _, _, _ => .unfinished
  | fuel + 1, value, index, buffer =>
    if value = 0#64 then .value (index, buffer)
    else match digits[(value % base.setWidth 64).toNat]? with
      | none => .outside
      | some c =>
        if index < 32 then
          fillDigits digits base fuel (value / base.setWidth 64) (index + 1)
            (update buffer index (some c))
        else .outside

/-- The second loop of `print_unsigned`. -/
def emitDigits (buffer : DigitBuffer) :
    ℕ → BitVec 32 → List (BitVec 8) → Outcome (BitVec 32 × List (BitVec 8))
  | 0, count, out => .value (count, out)
  | index + 1, count, out =>
    match buffer index with
    | none => .outside
    | some c => emitDigits buffer index (count + 1#32) (out ++ [c])

def printUnsigned (fuel : ℕ) (value : BitVec 64) (base : BitVec 32) (uppercase : Bool)
    (out : List (BitVec 8)) : Outcome (BitVec 32 × List (BitVec 8)) :=
  let digits := if uppercase then digitsHi else digitsLo
  if base < 2#32 ∨ 16#32 < base then .value (0#32, out)
  else if value = 0#64 then .value (1#32, out ++ [ascii '0'])
  else do
    let (index, buffer) ← fillDigits digits base fuel value 0 (fun _ => none)
    emitDigits buffer index 0#32 out

def printSigned (fuel : ℕ) (value : BitVec 64) (out : List (BitVec 8)) :
    Outcome (BitVec 32 × List (BitVec 8)) :=
  if value.slt 0#64 then do
    let (count, out) ←
      printUnsigned fuel (-(value + 1#64) + 1#64) 10#32 false (out ++ [ascii '-'])
    .value (1#32 + count, out)
  else printUnsigned fuel value 10#32 false out

/-- An argument with its type; a string is given by its bytes, and the null pointer is `none`. -/
inductive Arg
  | int (value : BitVec 32)
  | string (bytes : Option (List (BitVec 8)))
  | word (value : BitVec 64)
  | pointer (value : BitVec 64)

namespace Arg

def int? : Arg → Option (BitVec 32)
  | int value => some value
  | _ => none

def string? : Arg → Option (Option (List (BitVec 8)))
  | string bytes => some bytes
  | _ => none

/-- An `int64_t` or a `uint64_t`. -/
def word? : Arg → Option (BitVec 64)
  | word value => some value
  | _ => none

def pointer? : Arg → Option (BitVec 64)
  | pointer value => some value
  | _ => none

end Arg

/-- The arguments that are left, `total`, and the output. -/
structure Printing where
  args : List Arg
  total : BitVec 32
  out : List (BitVec 8)

namespace Printing

variable (s : Printing)

/-- `serial_write_char(c); total++` -/
def char (c : BitVec 8) : Printing := { s with total := s.total + 1#32, out := s.out ++ [c] }

/-- Two characters are written, and `total += 2`. -/
def pair (c c' : BitVec 8) : Printing :=
  { s with total := s.total + 2#32, out := s.out ++ [c, c'] }

/-- `total += print(…)` -/
def add (print : List (BitVec 8) → Outcome (BitVec 32 × List (BitVec 8))) : Outcome Printing := do
  let (count, out) ← print s.out
  .value { s with total := s.total + count, out := out }

def vaArg {α : Type} (read : Arg → Option α) : Outcome (α × Printing) :=
  match s.args with
  | [] => .outside
  | arg :: args =>
    match read arg with
    | none => .outside
    | some value => .value (value, { s with args := args })

end Printing

/-- `"(null)"` -/
def nullText : List (BitVec 8) := ['(', 'n', 'u', 'l', 'l', ')'].map ascii

/-- The `switch` of `kvprintf`, but for the end of the format. -/
def kvprintfSwitch (fuel : ℕ) (c : BitVec 8) (s : Printing) : Outcome Printing :=
  if c = ascii '%' then .value (s.char (ascii '%'))
  else if c = ascii 'c' then do
    let (ch, s) ← s.vaArg Arg.int?
    .value (s.char (ch.setWidth 8))
  else if c = ascii 's' then do
    let (str, s) ← s.vaArg Arg.string?
    .value ((str.getD nullText).foldl Printing.char s)
  else if c = ascii 'u' then do
    let (value, s) ← s.vaArg Arg.word?
    s.add (printUnsigned fuel value 10#32 false)
  else if c = ascii 'd' ∨ c = ascii 'i' then do
    let (value, s) ← s.vaArg Arg.word?
    s.add (printSigned fuel value)
  else if c = ascii 'x' then do
    let (value, s) ← s.vaArg Arg.word?
    s.add (printUnsigned fuel value 16#32 false)
  else if c = ascii 'X' then do
    let (value, s) ← s.vaArg Arg.word?
    s.add (printUnsigned fuel value 16#32 true)
  else if c = ascii 'p' then do
    let (ptr, s) ← s.vaArg Arg.pointer?
    (s.pair (ascii '0') (ascii 'x')).add (printUnsigned fuel ptr 16#32 false)
  else .value (s.pair (ascii '%') c)

/-- The loop of `kvprintf` over the bytes of the format. -/
def kvprintfLoop (fuel : ℕ) : List (BitVec 8) → Printing → Outcome Printing
  | [], s => .value s
  | c :: fmt, s =>
    if c = ascii '%' then
      match fmt with
      | [] => .value s
      | conversion :: fmt => do
        let s ← kvprintfSwitch fuel conversion s
        kvprintfLoop fuel fmt s
    else kvprintfLoop fuel fmt (s.char c)

/-- The count that is returned, and the output. -/
def kvprintf (fuel : ℕ) (fmt : Option (List (BitVec 8))) (args : List Arg) :
    Outcome (BitVec 32 × List (BitVec 8)) :=
  match fmt with
  | none => .value (0#32, [])
  | some fmt => do
    let s ← kvprintfLoop fuel fmt ⟨args, 0#32, []⟩
    .value (s.total, s.out)

/-! ## Numerals -/

def digitValue (digits : List (BitVec 8)) (base : ℕ) (c : BitVec 8) : Option ℕ :=
  (digits.take base).idxOf? c

/-- The number that the text is read as. -/
def readDigits (digits : List (BitVec 8)) (base : ℕ) (text : List (BitVec 8)) : Option ℕ :=
  text.foldlM (fun n c => (digitValue digits base c).map (fun d => base * n + d)) 0

/-- The text is the number `n`, and there is no zero in front of it. -/
structure Numeral (digits : List (BitVec 8)) (base n : ℕ) (text : List (BitVec 8)) : Prop where
  reads : readDigits digits base text = some n
  leading : text.head? = some (ascii '0') → text = [ascii '0']
  nonempty : text ≠ []

inductive SignedNumeral : ℤ → List (BitVec 8) → Prop
  | nonneg {n : ℕ} {text : List (BitVec 8)} (h : Numeral digitsLo 10 n text) : SignedNumeral n text
  | negative {n : ℕ} {text : List (BitVec 8)} (hn : n ≠ 0) (h : Numeral digitsLo 10 n text) :
    SignedNumeral (-n) (ascii '-' :: text)

/-- Each digit is read back. -/
structure Alphabet (digits : List (BitVec 8)) (base : ℕ) : Prop where
  large : 10 ≤ base
  small : base ≤ 16
  digit : ∀ d < base, digits[d]?.bind (digitValue digits base) = some d
  zero : digitValue digits base (ascii '0') = some 0

theorem decimal : Alphabet digitsLo 10 := ⟨by decide, by decide, by decide, by decide⟩

theorem hex : Alphabet digitsLo 16 := ⟨by decide, by decide, by decide, by decide⟩

theorem hexUpper : Alphabet digitsHi 16 := ⟨by decide, by decide, by decide, by decide⟩

section

variable {digits : List (BitVec 8)} {base : BitVec 32}

theorem readDigits_concat {b n d : ℕ} {text : List (BitVec 8)} {c : BitVec 8}
    (h : readDigits digits b text = some n) (hc : digitValue digits b c = some d) :
    readDigits digits b (text ++ [c]) = some (b * n + d) := by
  unfold readDigits at h ⊢
  rw [foldlM_append, h]
  simp [hc]

/-- The buffer holds the list. -/
theorem update_buffer (written : List (BitVec 8)) (c : BitVec 8) :
    update (fun i => written[i]?) written.length (some c) =
      fun i => (written ++ [c])[i]? := by
  funext i
  by_cases hi : i = written.length
  · rw [hi, update_self, getElem?_concat_length]
  · rw [update_of_ne hi, getElem?_append]
    split
    · rfl
    · rw [List.getElem?_eq_none (by omega), List.getElem?_eq_none (by simp; omega)]

theorem fillDigits_zero {fuel index : ℕ} {buffer : DigitBuffer} (hfuel : 0 < fuel) :
    fillDigits digits base fuel 0#64 index buffer = .value (index, buffer) := by
  obtain ⟨fuel, rfl⟩ := Nat.exists_eq_succ_of_ne_zero (Nat.ne_zero_of_lt hfuel)
  exact if_pos rfl

/-- The digits of a value below `base ^ k` are written from the last one on. -/
theorem fillDigits_spec (halphabet : Alphabet digits base.toNat) (k : ℕ) (value : BitVec 64)
    (written : List (BitVec 8)) (hvalue : value.toNat < base.toNat ^ k)
    (hroom : written.length + k ≤ 32) :
    ∃ more, (∀ fuel, k < fuel →
        fillDigits digits base fuel value written.length (fun i => written[i]?) =
          .value ((written ++ more).length, fun i => (written ++ more)[i]?)) ∧
      readDigits digits base.toNat more.reverse = some value.toNat ∧
      more.getLast? ≠ some (ascii '0') := by
  induction k generalizing value written with
  | zero =>
    have hzero : value = 0#64 := eq_of_toNat_eq (Nat.lt_one_iff.mp hvalue)
    refine ⟨[], ?_, by rw [hzero]; rfl, nofun⟩
    intro fuel hfuel
    rw [hzero, append_nil, fillDigits_zero hfuel]
  | succ k ih =>
    by_cases hzero : value = 0#64
    · refine ⟨[], ?_, by rw [hzero]; rfl, nofun⟩
      intro fuel hfuel
      rw [hzero, append_nil, fillDigits_zero (by omega)]
    have hpos : value.toNat ≠ 0 := fun h => hzero (eq_of_toNat_eq h)
    have hbase : (base.setWidth 64).toNat = base.toNat :=
      toNat_setWidth_of_le (by decide)
    have hlarge := halphabet.large
    obtain ⟨c, hc, hdigit⟩ := Option.bind_eq_some_iff.mp
      (halphabet.digit (value.toNat % base.toNat) (Nat.mod_lt _ (by omega)))
    have hquot : (value / base.setWidth 64).toNat = value.toNat / base.toNat := by
      rw [toNat_udiv, hbase]
    obtain ⟨more, hfill, hreads, hlast⟩ := ih (value / base.setWidth 64) (written ++ [c])
      (by rw [hquot, Nat.div_lt_iff_lt_mul (by omega), ← Nat.pow_succ]; exact hvalue)
      (by rw [length_append, length_singleton]; omega)
    rw [hquot] at hreads
    refine ⟨c :: more, ?_, ?_, ?_⟩
    · intro fuel hfuel
      obtain ⟨fuel, rfl⟩ := Nat.exists_eq_succ_of_ne_zero (Nat.ne_zero_of_lt hfuel)
      unfold fillDigits
      rw [if_neg hzero, toNat_umod, hbase, hc, append_cons,
        ← hfill fuel (Nat.lt_of_succ_lt_succ hfuel), length_append, length_singleton,
        ← update_buffer]
      exact if_pos (by omega)
    · rw [reverse_cons, readDigits_concat hreads hdigit, Nat.div_add_mod]
    · -- the first digit of the text is not the zero: it is that of the rest, or of the whole value
      cases more with
      | cons c' more =>
        rw [getLast?_cons_cons]
        exact hlast
      | nil =>
        intro hzero'
        have hc0 : c = ascii '0' := Option.some.inj hzero'
        have hquot0 : 0 = value.toNat / base.toNat := Option.some.inj hreads
        have hmod0 := halphabet.zero
        rw [← hc0, hdigit] at hmod0
        have hsplit := Nat.div_add_mod value.toNat base.toNat
        rw [← hquot0, Option.some.inj hmod0] at hsplit
        omega

theorem emitDigits_spec (written : List (BitVec 8)) (n : ℕ) (count : BitVec 32)
    (out : List (BitVec 8)) (hn : n ≤ written.length) :
    emitDigits (fun i => written[i]?) n count out =
      .value (count + BitVec.ofNat 32 n, out ++ (written.take n).reverse) := by
  induction n generalizing count out with
  | zero => simp [emitDigits]
  | succ n ih =>
    unfold emitDigits
    rw [List.getElem?_eq_getElem hn]
    show emitDigits _ n _ _ = _
    rw [ih _ _ (by omega), take_succ_eq_append_getElem hn, List.reverse_append,
      BitVec.add_assoc, ← ofNat_add, Nat.add_comm 1 n, List.append_assoc]
    rfl

/-- With 21 rounds or more, the text is printed and counted. -/
def Prints (print : ℕ → List (BitVec 8) → Outcome (BitVec 32 × List (BitVec 8)))
    (out text : List (BitVec 8)) : Prop :=
  ∀ fuel, 20 < fuel → print fuel out = .value (BitVec.ofNat 32 text.length, out ++ text)

theorem printUnsigned_spec (base : BitVec 32) (uppercase : Bool)
    (halphabet : Alphabet (if uppercase then digitsHi else digitsLo) base.toNat)
    (value : BitVec 64) (out : List (BitVec 8)) :
    ∃ text, Numeral (if uppercase then digitsHi else digitsLo) base.toNat value.toNat text ∧
      Prints (fun fuel => printUnsigned fuel value base uppercase) out text := by
  have hlarge := halphabet.large
  have hsmall := halphabet.small
  have hok : ¬(base < 2#32 ∨ 16#32 < base) := by
    rw [lt_def, lt_def]
    show ¬(base.toNat < 2 ∨ 16 < base.toNat)
    omega
  by_cases hzero : value = 0#64
  · refine ⟨[ascii '0'], ⟨?_, fun _ => rfl, nofun⟩, fun fuel hfuel => ?_⟩
    · rw [hzero]
      have hnil : readDigits (if uppercase then digitsHi else digitsLo) base.toNat [] = some 0 :=
        rfl
      exact readDigits_concat hnil halphabet.zero
    · exact (if_neg hok).trans (if_pos hzero)
  · have hbound : value.toNat < base.toNat ^ 20 :=
      calc value.toNat < 2 ^ 64 := value.isLt
        _ ≤ 10 ^ 20 := by decide
        _ ≤ base.toNat ^ 20 := Nat.pow_le_pow_left hlarge 20
    obtain ⟨more, hfill, hreads, hlast⟩ :=
      fillDigits_spec halphabet 20 value [] hbound (by decide)
    refine ⟨more.reverse, ⟨hreads, ?_, ?_⟩, fun fuel hfuel => ?_⟩
    · intro hhead
      rw [head?_reverse] at hhead
      exact absurd hhead hlast
    · intro hnil
      rw [hnil] at hreads
      exact hzero (eq_of_toNat_eq (Option.some.inj hreads).symm)
    · have hfill' : fillDigits _ base fuel value 0 (fun _ => none) =
        .value (more.length, fun i => more[i]?) := hfill fuel hfuel
      show printUnsigned fuel value base uppercase out = _
      unfold printUnsigned
      rw [if_neg hok, if_neg hzero, hfill', Outcome.value_bind]
      show emitDigits _ _ _ _ = _
      rw [emitDigits_spec more more.length _ _ le_rfl, BitVec.zero_add, take_length,
        length_reverse]

end

theorem printSigned_spec (value : BitVec 64) (out : List (BitVec 8)) :
    ∃ text, SignedNumeral value.toInt text ∧
      Prints (fun fuel => printSigned fuel value) out text := by
  have hint := toInt_eq_toNat_cond value
  have hlt := value.isLt
  have hsign : value.slt 0#64 = true ↔ value.toInt < 0 := slt_iff_toInt_lt
  by_cases hneg : value.slt 0#64
  · -- the magnitude of the least value is a `uint64_t`, too
    have hmagnitude : -(value + 1#64) + 1#64 = -value := by
      rw [neg_add, sub_add_cancel]
    have hvalue : value.toInt = -((-value).toNat : ℤ) ∧ (-value).toNat ≠ 0 := by
      rw [toNat_neg]
      rw [hsign] at hneg
      split at hint <;> omega
    obtain ⟨text, htext, hprint⟩ :=
      printUnsigned_spec 10#32 false decimal (-value) (out ++ [ascii '-'])
    refine ⟨ascii '-' :: text, ?_, fun fuel hfuel => ?_⟩
    · rw [hvalue.1]
      exact .negative hvalue.2 htext
    · have hdigits : printUnsigned fuel (-value) 10#32 false (out ++ [ascii '-']) = _ :=
        hprint fuel hfuel
      show printSigned fuel value out = _
      unfold printSigned
      rw [if_pos hneg, hmagnitude, hdigits, Outcome.value_bind, List.append_assoc,
        length_cons, Nat.add_comm, ofNat_add]
      rfl
  · have hvalue : value.toInt = (value.toNat : ℤ) := by
      rw [hsign] at hneg
      split at hint <;> omega
    obtain ⟨text, htext, hprint⟩ := printUnsigned_spec 10#32 false decimal value out
    rw [hvalue]
    exact ⟨text, .nonneg htext, fun fuel hfuel => (if_neg hneg).trans (hprint fuel hfuel)⟩

end GnuOS.Console
