import GnuOS.Lib.Memory
import Mathlib.Data.List.TakeWhile

/-!
# Strings in memory and their tokens

A string in memory is a list of bytes followed by a zero.  A loop that advances a cursor over the
bytes with a property stops behind the longest such beginning.

The tokens of a list are its maximal runs of elements that are not delimiters.  They are found from
the front: drop delimiters, take the run, and go on behind it.
-/

namespace GnuOS.Lib

open List BitVec

/-! ## Tokens -/

section Tokens

variable {α : Type*} (p : α → Bool)

/-- The maximal runs of elements without `p`, in order. -/
def tokens (l : List α) : List (List α) := (l.splitOnP p).filter fun run => !run.isEmpty

theorem tokens_nil : tokens p [] = [] := rfl

variable {p}

theorem tokens_cons_delimiter {a : α} (l : List α) (ha : p a = true) :
    tokens p (a :: l) = tokens p l := by
  unfold tokens
  rw [splitOnP_cons_eq_if_modifyHead, if_pos ha, filter_cons_of_neg (by simp)]

/-- Delimiters at the front are skipped. -/
theorem tokens_dropWhile (l : List α) : tokens p (l.dropWhile p) = tokens p l := by
  induction l with
  | nil => rfl
  | cons a l ih =>
    cases ha : p a with
    | true => rw [dropWhile_cons_of_pos ha, ih, tokens_cons_delimiter l ha]
    | false => rw [dropWhile_cons_of_neg (by rw [ha]; decide)]

/-- The first token is the longest run at the front. -/
theorem tokens_cons {a : α} {l : List α} (ha : p a = false) :
    tokens p (a :: l) = (a :: l).takeWhile (fun b => !p b) ::
      tokens p ((a :: l).dropWhile fun b => !p b) := by
  have hfirst : (a :: l).takeWhile (fun b => !p b) ≠ [] := by simp [ha]
  have hrun : ∀ b ∈ (a :: l).takeWhile (fun b => !p b), p b = false := by
    intro b hb
    simpa using mem_takeWhile_imp hb
  have hsplit := (takeWhile_append_dropWhile (p := fun b => !p b) (l := a :: l)).symm
  generalize (a :: l).takeWhile (fun b => !p b) = run at *
  rcases hrest : (a :: l).dropWhile (fun b => !p b) with _ | ⟨b, rest⟩
  · rw [hrest, append_nil] at hsplit
    rw [hsplit, tokens_nil, tokens, splitOnP_eq_singleton hrun]
    simp [hfirst]
  · -- the run is followed by a delimiter
    have hb : p b = true := by
      have hhead := head?_dropWhile_not (fun b => !p b) (a :: l)
      rw [hrest] at hhead
      simpa using hhead
    rw [hsplit, hrest, tokens_cons_delimiter rest hb, tokens,
      splitOnP_append_cons_of_forall_mem hrun b hb rest,
      filter_cons_of_pos (by simp [hfirst]), tokens]

/-- Every token has a character of its own. -/
theorem length_tokens_le (p : α → Bool) (l : List α) : (tokens p l).length ≤ l.length := by
  induction hn : l.length using Nat.strong_induction_on generalizing l with
  | h n ih =>
    rcases l with _ | ⟨a, l⟩
    · exact Nat.zero_le _
    rw [length_cons] at hn
    cases ha : p a with
    | true =>
      rw [tokens_cons_delimiter l ha]
      have hrest := ih l.length (by omega) l rfl
      omega
    | false =>
      have hshort : ((a :: l).dropWhile fun b => !p b).length ≤ l.length := by
        rw [dropWhile_cons_of_pos (by simp [ha])]
        exact length_dropWhile_le _ _
      have hrest := ih _ (by omega) ((a :: l).dropWhile fun b => !p b) rfl
      rw [tokens_cons ha, length_cons]
      omega

/-- A token has only elements of the list. -/
theorem mem_of_mem_tokens {l run : List α} {a : α} (hrun : run ∈ tokens p l) (ha : a ∈ run) :
    a ∈ l := by
  induction hn : l.length using Nat.strong_induction_on generalizing l with
  | h n ih =>
    rcases l with _ | ⟨b, l⟩
    · cases hrun
    rw [length_cons] at hn
    cases hb : p b with
    | true =>
      rw [tokens_cons_delimiter l hb] at hrun
      exact mem_cons_of_mem b (ih l.length (by omega) hrun rfl)
    | false =>
      rw [tokens_cons hb, mem_cons] at hrun
      rcases hrun with rfl | hrun
      · exact (takeWhile_sublist _).subset ha
      · have hshort : ((b :: l).dropWhile fun b => !p b).length ≤ l.length := by
          rw [dropWhile_cons_of_pos (by simp [hb])]
          exact length_dropWhile_le _ _
        exact (dropWhile_sublist _).subset (ih _ (by omega) hrun rfl)

end Tokens

/-! ## Strings -/

/-- The bytes of the string are in memory from `a` on, followed by a zero. -/
structure StringAt (mem : Memory) (a : BitVec 64) (s : List (BitVec 8)) : Prop where
  nonzero : 0#8 ∉ s
  byte : ∀ i c, s[i]? = some c → mem (a + BitVec.ofNat 64 i) = c
  stop : mem (a + BitVec.ofNat 64 s.length) = 0#8

section Strings

variable {mem : Memory} {a : BitVec 64} {s : List (BitVec 8)} {c : BitVec 8} {fuel : ℕ}

theorem StringAt.nil (h : StringAt mem a []) : mem a = 0#8 := by
  simpa using h.stop

theorem StringAt.head (h : StringAt mem a (c :: s)) : mem a = c ∧ c ≠ 0#8 := by
  refine ⟨by simpa using h.byte 0 c rfl, ?_⟩
  rintro rfl
  exact h.nonzero mem_cons_self

theorem StringAt.tail (h : StringAt mem a (c :: s)) : StringAt mem (a + 1#64) s where
  nonzero := fun hzero => h.nonzero (mem_cons_of_mem c hzero)
  byte i d hd := by
    rw [show a + 1#64 = a + BitVec.ofNat 64 1 from rfl, Memory.addr_add, Nat.add_comm]
    exact h.byte (i + 1) d hd
  stop := by
    rw [show a + 1#64 = a + BitVec.ofNat 64 1 from rfl, Memory.addr_add, Nat.add_comm]
    exact h.stop

/-- A string is shorter than the address space: it would meet its own end. -/
theorem StringAt.length_lt (h : StringAt mem a s) : s.length < 2 ^ 64 := by
  by_contra hge
  have hlt : s.length - 2 ^ 64 < s.length := by omega
  have hbyte := h.byte _ _ (getElem?_eq_getElem hlt)
  have haddr : BitVec.ofNat 64 (s.length - 2 ^ 64) = BitVec.ofNat 64 s.length := by
    apply eq_of_toNat_eq
    rw [toNat_ofNat, toNat_ofNat]
    omega
  rw [haddr, h.stop] at hbyte
  exact h.nonzero (hbyte ▸ getElem_mem hlt)

theorem StringAt.drop (h : StringAt mem a s) (n : ℕ) (hn : n ≤ s.length) :
    StringAt mem (a + BitVec.ofNat 64 n) (s.drop n) := by
  induction n generalizing a s with
  | zero => simpa using h
  | succ n ih =>
    cases s with
    | nil => exact absurd hn (by simp)
    | cons c s =>
      have hrest := ih h.tail (Nat.le_of_succ_le_succ hn)
      rwa [show a + 1#64 = a + BitVec.ofNat 64 1 from rfl, Memory.addr_add, Nat.add_comm] at hrest

/-- From every address on there is a string, if there is a zero anywhere in memory. -/
theorem exists_stringAt {b : BitVec 64} (hb : mem b = 0#8) (a : BitVec 64) :
    ∃ s, StringAt mem a s := by
  have hzero : ∃ i, mem (a + BitVec.ofNat 64 i) = 0#8 := by
    refine ⟨(b - a).toNat, ?_⟩
    rw [ofNat_toNat, setWidth_eq, add_comm, sub_add_cancel, hb]
  classical
  -- the string ends at the first zero
  refine ⟨(List.range (Nat.find hzero)).map fun i => mem (a + BitVec.ofNat 64 i), ?_, ?_, ?_⟩
  · intro hmem
    obtain ⟨i, hi, hbyte⟩ := mem_map.mp hmem
    exact Nat.find_min hzero (mem_range.mp hi) hbyte
  · intro i c hc
    rw [getElem?_map, Option.map_eq_some_iff] at hc
    obtain ⟨j, hj, hbyte⟩ := hc
    obtain ⟨hlt, rfl⟩ := List.getElem?_eq_some_iff.mp hj
    rw [getElem_range] at hbyte
    exact hbyte
  · rw [length_map, length_range]
    exact Nat.find_spec hzero

/-- `while (*cursor && p(*cursor)) cursor++`. -/
def scanWhile (mem : Memory) (p : BitVec 8 → Bool) : ℕ → BitVec 64 → Outcome (BitVec 64)
  | 0, _ => .unfinished
  | fuel + 1, cursor =>
    if mem cursor ≠ 0#8 ∧ p (mem cursor) = true then scanWhile mem p fuel (cursor + 1#64)
    else .value cursor

/-- The loop stops behind the longest beginning with the property, where the rest begins. -/
theorem StringAt.scanWhile {p : BitVec 8 → Bool} (h : StringAt mem a s)
    (hfuel : s.length < fuel) :
    ∃ a', GnuOS.Lib.scanWhile mem p fuel a = .value a' ∧ StringAt mem a' (s.dropWhile p) := by
  induction s generalizing a fuel with
  | nil =>
    obtain ⟨fuel, rfl⟩ := Nat.exists_eq_add_of_lt hfuel
    refine ⟨a, ?_, h⟩
    rw [Lib.scanWhile, if_neg (by simp [h.nil])]
  | cons c s ih =>
    obtain ⟨fuel, rfl⟩ : ∃ n, fuel = n + 1 := ⟨fuel - 1, by omega⟩
    have hhead := h.head
    rw [Lib.scanWhile, hhead.1]
    cases hc : p c with
    | true =>
      rw [if_pos ⟨hhead.2, rfl⟩, dropWhile_cons_of_pos hc]
      exact ih h.tail (Nat.lt_of_succ_lt_succ hfuel)
    | false =>
      rw [if_neg (by simp), dropWhile_cons_of_neg (by rw [hc]; decide)]
      exact ⟨a, rfl, h⟩

end Strings

end GnuOS.Lib
