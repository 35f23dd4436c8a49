import GnuOS.Console.Printk

/-!
# What a format prints

A format is cut into pieces.  `Matches` says that the arguments have the types that the conversions
ask for, and `Renders` what they are printed as.
-/

namespace GnuOS.Console

open GnuOS.Lib

inductive Piece
  | literal (c : BitVec 8)
  | conversion (c : BitVec 8)

/-- A `%` at the end of the format is dropped. -/
def pieces : List (BitVec 8) → List Piece
  | [] => []
  | c :: fmt =>
    if c = ascii '%' then
      match fmt with
      | [] => []
      | c' :: fmt => .conversion c' :: pieces fmt
    else .literal c :: pieces fmt

/-- The conversions that take an argument of 64 bits. -/
def wordConversions : List (BitVec 8) := ['u', 'd', 'i', 'x', 'X'].map ascii

/-- The conversions that take an argument. -/
def argConversions : List (BitVec 8) := ['c', 's', 'p'].map ascii ++ wordConversions

/-- The conversion takes its argument, if it has one, from the arguments. -/
inductive Takes : BitVec 8 → List Arg → List Arg → Prop
  | int (value : BitVec 32) (args : List Arg) : Takes (ascii 'c') (.int value :: args) args
  | string (bytes : Option (List (BitVec 8))) (args : List Arg) :
    Takes (ascii 's') (.string bytes :: args) args
  | word {c : BitVec 8} (hc : c ∈ wordConversions) (value : BitVec 64) (args : List Arg) :
    Takes c (.word value :: args) args
  | pointer (value : BitVec 64) (args : List Arg) : Takes (ascii 'p') (.pointer value :: args) args
  | none {c : BitVec 8} (hc : c ∉ argConversions) (args : List Arg) : Takes c args args

/-- The arguments match the format; there may be more of them. -/
inductive Matches : List Piece → List Arg → Prop
  | nil (args : List Arg) : Matches [] args
  | literal (c : BitVec 8) {ps : List Piece} {args : List Arg} (h : Matches ps args) :
    Matches (.literal c :: ps) args
  | conversion {c : BitVec 8} {ps : List Piece} {args rest : List Arg} (hc : Takes c args rest)
    (h : Matches ps rest) : Matches (.conversion c :: ps) args

/-- What a conversion prints; the list of the arguments starts with its own. -/
inductive Converts (args : List Arg) : BitVec 8 → List Arg → List (BitVec 8) → Prop
  | percent : Converts args (ascii '%') args [ascii '%']
  | char (value : BitVec 32) : Converts args (ascii 'c') (.int value :: args) [value.setWidth 8]
  | string (bytes : List (BitVec 8)) :
    Converts args (ascii 's') (.string (some bytes) :: args) bytes
  | null : Converts args (ascii 's') (.string none :: args) nullText
  | unsigned {value : BitVec 64} {text : List (BitVec 8)}
    (h : Numeral digitsLo 10 value.toNat text) :
    Converts args (ascii 'u') (.word value :: args) text
  | signed {c : BitVec 8} {value : BitVec 64} {text : List (BitVec 8)}
    (hc : c = ascii 'd' ∨ c = ascii 'i') (h : SignedNumeral value.toInt text) :
    Converts args c (.word value :: args) text
  | hex {value : BitVec 64} {text : List (BitVec 8)} (h : Numeral digitsLo 16 value.toNat text) :
    Converts args (ascii 'x') (.word value :: args) text
  | hexUpper {value : BitVec 64} {text : List (BitVec 8)}
    (h : Numeral digitsHi 16 value.toNat text) :
    Converts args (ascii 'X') (.word value :: args) text
  | pointer {value : BitVec 64} {text : List (BitVec 8)}
    (h : Numeral digitsLo 16 value.toNat text) :
    Converts args (ascii 'p') (.pointer value :: args) (ascii '0' :: ascii 'x' :: text)
  | unknown {c : BitVec 8} (hc : c ∉ argConversions) (hpercent : c ≠ ascii '%') :
    Converts args c args [ascii '%', c]

/-- What the format prints. -/
inductive Renders : List Piece → List Arg → List (BitVec 8) → Prop
  | nil (args : List Arg) : Renders [] args []
  | literal (c : BitVec 8) {ps : List Piece} {args : List Arg} {text : List (BitVec 8)}
    (h : Renders ps args text) : Renders (.literal c :: ps) args (c :: text)
  | conversion {c : BitVec 8} {ps : List Piece} {args rest : List Arg}
    {part text : List (BitVec 8)} (hc : Converts rest c args part) (h : Renders ps rest text) :
    Renders (.conversion c :: ps) args (part ++ text)

/-! ## The functions print it -/

namespace Printing

/-- The state after `part` was printed, with `rest` left of the arguments. -/
def after (s : Printing) (rest : List Arg) (part : List (BitVec 8)) : Printing :=
  ⟨rest, s.total + BitVec.ofNat 32 part.length, s.out ++ part⟩

variable (s : Printing)

theorem after_after (rest rest' : List Arg) (part part' : List (BitVec 8)) :
    (s.after rest part).after rest' part' = s.after rest' (part ++ part') := by
  unfold after
  rw [List.length_append, BitVec.ofNat_add, BitVec.add_assoc, List.append_assoc]

theorem after_nil : s.after s.args [] = s := by
  unfold after
  rw [List.append_nil]
  exact congrArg (fun total => Printing.mk s.args total s.out) (BitVec.add_zero s.total)

theorem char_eq (c : BitVec 8) : s.char c = s.after s.args [c] := rfl

theorem foldl_char (text : List (BitVec 8)) : text.foldl char s = s.after s.args text := by
  induction text generalizing s with
  | nil => exact s.after_nil.symm
  | cons c text ih =>
    rw [List.foldl_cons, ih, char_eq, after_after]
    rfl

theorem add_eq {print : ℕ → List (BitVec 8) → Outcome (BitVec 32 × List (BitVec 8))}
    {text : List (BitVec 8)} (h : Prints print s.out text) {fuel : ℕ} (hfuel : 20 < fuel) :
    s.add (print fuel) = .value (s.after s.args text) := by
  unfold add
  rw [h fuel hfuel]
  rfl

end Printing

/-- With 21 rounds or more, the conversion prints `part` and leaves the arguments `rest`. -/
def Switches (c : BitVec 8) (s : Printing) (rest : List Arg) (part : List (BitVec 8)) : Prop :=
  ∀ fuel, 20 < fuel → kvprintfSwitch fuel c s = .value (s.after rest part)

variable {c : BitVec 8}

theorem switches_word (hc : c ∈ wordConversions) (value : BitVec 64) (rest : List Arg)
    (total : BitVec 32) (out : List (BitVec 8)) :
    ∃ part, Converts rest c (.word value :: rest) part ∧
      Switches c ⟨.word value :: rest, total, out⟩ rest part := by
  have hcases : c = ascii 'u' ∨ (c = ascii 'd' ∨ c = ascii 'i') ∨ c = ascii 'x' ∨
      c = ascii 'X' := by
    simpa [wordConversions, or_assoc] using hc
  let s : Printing := ⟨rest, total, out⟩
  obtain rfl | hsigned | rfl | rfl := hcases
  · obtain ⟨text, htext, hprint⟩ := printUnsigned_spec 10#32 false decimal value out
    exact ⟨text, .unsigned htext, fun _ => s.add_eq hprint⟩
  · obtain ⟨text, htext, hprint⟩ := printSigned_spec value out
    refine ⟨text, .signed hsigned htext, ?_⟩
    obtain rfl | rfl := hsigned
    · exact fun _ => s.add_eq hprint
    · exact fun _ => s.add_eq hprint
  · obtain ⟨text, htext, hprint⟩ := printUnsigned_spec 16#32 false hex value out
    exact ⟨text, .hex htext, fun _ => s.add_eq hprint⟩
  · obtain ⟨text, htext, hprint⟩ := printUnsigned_spec 16#32 true hexUpper value out
    exact ⟨text, .hexUpper htext, fun _ => s.add_eq hprint⟩

theorem switches_pointer (value : BitVec 64) (rest : List Arg) (total : BitVec 32)
    (out : List (BitVec 8)) :
    ∃ part, Converts rest (ascii 'p') (.pointer value :: rest) part ∧
      Switches (ascii 'p') ⟨.pointer value :: rest, total, out⟩ rest part := by
  obtain ⟨text, htext, hprint⟩ :=
    printUnsigned_spec 16#32 false hex value (out ++ [ascii '0', ascii 'x'])
  let s : Printing := ⟨rest, total, out⟩
  refine ⟨ascii '0' :: ascii 'x' :: text, .pointer htext, fun fuel hfuel => ?_⟩
  calc kvprintfSwitch fuel (ascii 'p') ⟨.pointer value :: rest, total, out⟩
    _ = (s.pair (ascii '0') (ascii 'x')).add (printUnsigned fuel value 16#32 false) := rfl
    _ = .value ((s.after rest [ascii '0', ascii 'x']).after rest text) :=
      (s.pair (ascii '0') (ascii 'x')).add_eq hprint hfuel
    _ = .value (s.after rest (ascii '0' :: ascii 'x' :: text)) :=
      congrArg Outcome.value (s.after_after rest rest _ text)

/-- A conversion that takes no argument. -/
theorem switches_none (hc : c ∉ argConversions) (s : Printing) :
    ∃ part, Converts s.args c s.args part ∧ Switches c s s.args part := by
  by_cases hpercent : c = ascii '%'
  · rw [hpercent]
    exact ⟨[ascii '%'], .percent, fun _ _ => rfl⟩
  · refine ⟨[ascii '%', c], .unknown hc hpercent, fun fuel _ => ?_⟩
    have hall : c ≠ ascii 'c' ∧ c ≠ ascii 's' ∧ c ≠ ascii 'p' ∧ c ≠ ascii 'u' ∧
        c ≠ ascii 'd' ∧ c ≠ ascii 'i' ∧ c ≠ ascii 'x' ∧ c ≠ ascii 'X' := by
      simpa [argConversions, wordConversions] using hc
    obtain ⟨hc, hs, hp, hu, hd, hi, hx, hX⟩ := hall
    unfold kvprintfSwitch
    rw [if_neg hpercent, if_neg hc, if_neg hs, if_neg hu, if_neg (not_or.mpr ⟨hd, hi⟩), if_neg hx,
      if_neg hX, if_neg hp]
    rfl

theorem switches {s : Printing} {rest : List Arg} (h : Takes c s.args rest) :
    ∃ part, Converts rest c s.args part ∧ Switches c s rest part := by
  obtain ⟨args, total, out⟩ := s
  cases h with
  | int value => exact ⟨[value.setWidth 8], .char value, fun _ _ => rfl⟩
  | string bytes =>
    have hchars (text) := congrArg Outcome.value (Printing.foldl_char ⟨rest, total, out⟩ text)
    cases bytes with
    | none => exact ⟨nullText, .null, fun _ _ => hchars nullText⟩
    | some bytes => exact ⟨bytes, .string bytes, fun _ _ => hchars bytes⟩
  | word hc value => exact switches_word hc value rest total out
  | pointer value => exact switches_pointer value rest total out
  | none hc => exact switches_none hc ⟨args, total, out⟩

/-- A character that is not a `%`. -/
theorem pieces_literal (hc : c ≠ ascii '%') (fmt : List (BitVec 8)) :
    pieces (c :: fmt) = .literal c :: pieces fmt := by
  cases fmt with
  | nil => exact if_neg hc
  | cons => exact if_neg hc

theorem kvprintfLoop_literal (hc : c ≠ ascii '%') (fuel : ℕ) (fmt : List (BitVec 8))
    (s : Printing) :
    kvprintfLoop fuel (c :: fmt) s = kvprintfLoop fuel fmt (s.char c) := by
  cases fmt with
  | nil => exact if_neg hc
  | cons => exact if_neg hc

theorem kvprintfLoop_spec (fmt : List (BitVec 8)) (s : Printing)
    (h : Matches (pieces fmt) s.args) :
    ∃ text rest, Renders (pieces fmt) s.args text ∧
      ∀ fuel, 20 < fuel → kvprintfLoop fuel fmt s = .value (s.after rest text) := by
  induction fmt using pieces.induct generalizing s with
  | case1 =>
    exact ⟨[], s.args, .nil s.args, fun _ _ => congrArg Outcome.value s.after_nil.symm⟩
  | case2 =>
    exact ⟨[], s.args, .nil s.args, fun _ _ => congrArg Outcome.value s.after_nil.symm⟩
  | case3 c fmt ih =>
    rw [pieces, if_pos rfl] at h ⊢
    cases h with
    | @conversion _ _ _ rest hc h =>
      obtain ⟨part, hpart, hswitch⟩ := switches hc
      obtain ⟨text, rest', htext, hloop⟩ := ih (s.after rest part) h
      refine ⟨part ++ text, rest', .conversion hpart htext, fun fuel hfuel => ?_⟩
      rw [kvprintfLoop, if_pos rfl, ← s.after_after rest, ← hloop fuel hfuel]
      show kvprintfSwitch fuel c s >>= _ = _
      rw [hswitch fuel hfuel]
      rfl
  | case4 c fmt hc ih =>
    rw [pieces_literal hc] at h ⊢
    cases h with
    | literal _ h =>
      obtain ⟨text, rest, htext, hloop⟩ := ih (s.char c) h
      refine ⟨c :: text, rest, .literal c htext, fun fuel hfuel => ?_⟩
      rw [kvprintfLoop_literal hc, hloop fuel hfuel, s.char_eq, s.after_after]
      rfl

/-- For arguments that match the format, `kvprintf` returns: it prints what the format says, and
returns the number of characters. -/
theorem kvprintf_renders (fmt : List (BitVec 8)) (args : List Arg)
    (h : Matches (pieces fmt) args) :
    ∃ total text, Outcome.Returns (fun fuel => kvprintf fuel (some fmt) args) (total, text) ∧
      Renders (pieces fmt) args text ∧ (text.length < 2 ^ 31 → total.toInt = text.length) := by
  obtain ⟨text, rest, htext, hloop⟩ := kvprintfLoop_spec fmt ⟨args, 0#32, []⟩ h
  refine ⟨0#32 + BitVec.ofNat 32 text.length, text, ⟨21, fun fuel hfuel => ?_⟩, htext, ?_⟩
  · show kvprintfLoop fuel fmt _ >>= _ = _
    rw [hloop fuel hfuel]
    rfl
  · intro hlength
    rw [BitVec.zero_add, BitVec.toInt_eq_toNat_cond, BitVec.toNat_ofNat]
    split <;> omega

/-- `"%d."` with the least `int64_t`. -/
theorem kvprintf_renders_least :
    Matches (pieces (['%', 'd', '.'].map ascii)) [.word 0x8000000000000000#64] ∧
      ∃ total text, Outcome.Returns
        (fun fuel => kvprintf fuel (some (['%', 'd', '.'].map ascii))
          [.word 0x8000000000000000#64]) (total, text) ∧
        Renders (pieces (['%', 'd', '.'].map ascii)) [.word 0x8000000000000000#64] text ∧
        (text.length < 2 ^ 31 → total.toInt = text.length) := by
  have hmatch : Matches (pieces (['%', 'd', '.'].map ascii)) [.word 0x8000000000000000#64] :=
    .conversion (.word (by decide) _ _) (.literal _ (.nil _))
  exact ⟨hmatch, kvprintf_renders _ _ hmatch⟩

end GnuOS.Console
