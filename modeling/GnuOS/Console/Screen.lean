import GnuOS.Console.Vga

/-!
# What is on the screen

`Text` is the text that has been written, on rows without end.  The screen shows its last 25 rows:
`Shows` is kept by each character, whether the rows are moved up or not.

A cell is a character with a colour (`MadeFrom`).  The colour of a character from 0x80 on is lost,
as `vga_entry` widens it with its sign.
-/

namespace GnuOS.Console

open List BitVec Function

/-- The low byte of a cell. -/
def characterByte (entry : BitVec 16) : BitVec 8 := entry.setWidth 8

/-- The high byte of a cell. -/
def attributeByte (entry : BitVec 16) : BitVec 8 := (entry >>> 8).setWidth 8

theorem characterByte_vgaEntry (c color : BitVec 8) : characterByte (vgaEntry c color) = c := by
  unfold characterByte vgaEntry
  ext i hi
  rw [getElem_setWidth, getLsbD_or, getLsbD_signExtend,
    getLsbD_shiftLeft]
  simp [hi, Nat.lt_trans hi (by decide : 8 < 16)]

/-- The sign of a character from 0x80 on fills the high byte. -/
theorem attributeByte_vgaEntry (c color : BitVec 8) :
    attributeByte (vgaEntry c color) = if c.msb then allOnes 8 else color := by
  unfold attributeByte vgaEntry
  ext i hi
  have hhigh : 8 + i < 16 := by omega
  have hnot : ¬8 + i < 8 := by omega
  have hi' : i < 16 := by omega
  rw [getElem_setWidth, getLsbD_ushiftRight, getLsbD_or,
    getLsbD_signExtend, getLsbD_shiftLeft, getLsbD_setWidth]
  cases c.msb <;> simp [-reduceAllOnes, hhigh, hnot, hi, hi']

/-! ## The text -/

/-- A text on rows without end, and the place of its next character. -/
structure Text where
  cell : ℕ → ℕ → BitVec 8
  row : ℕ
  col : ℕ

namespace Text

def empty : Text := ⟨fun _ _ => 0x20#8, 0, 0⟩

def nextRow (t : Text) : Text := { t with row := t.row + 1, col := 0 }

def place (t : Text) (c : BitVec 8) : Text :=
  { t with cell := fun y x => if y = t.row ∧ x = t.col then c else t.cell y x }

/-- A carriage return is ignored. -/
def put (t : Text) (c : BitVec 8) : Text :=
  if c = 0x0D#8 then t
  else if c = 0x0A#8 then t.nextRow
  else if t.col = 79 then (t.place c).nextRow
  else { t.place c with col := t.col + 1 }

/-- The text that the calls write. -/
def written (calls : List ConsoleCall) : Text :=
  (calls.flatMap ConsoleCall.chars).foldl put empty

end Text

/-! ## The screen shows the text -/

/-- The screen shows the rows of the text down to the one of the cursor, or the first 25. -/
structure Shows (v : Vga) (t : Text) : Prop where
  row : v.row.toNat = min t.row 24
  col : v.col.toNat = t.col
  inside : t.col < 80
  cell : ∀ y x, y < 25 → x < 80 →
    characterByte (v.memory (y * 80 + x)) = t.cell (t.row - 24 + y) x
  blank : ∀ y x, t.row < y → t.cell y x = 0x20#8

section

variable {v : Vga} {t : Text} (c color : BitVec 8)

theorem scrolled_of_lt (memory : ℕ → BitVec 16) {i : ℕ} (hi : i < 1920) :
    scrolled memory color i = memory (i + 80) := by
  unfold scrolled filled copiedUp
  rw [if_neg (by omega), if_pos hi]
  rfl

theorem scrolled_of_le (memory : ℕ → BitVec 16) {i : ℕ} (hi : 1920 ≤ i) (hi' : i < 2000) :
    scrolled memory color i = vgaEntry 0x20#8 color := by
  unfold scrolled filled
  rw [if_pos (by omega)]

theorem cleared_of_lt (v : Vga) {i : ℕ} (hi : i < 2000) :
    (cleared v color).memory i = vgaEntry 0x20#8 color := by
  unfold cleared filled
  exact if_pos (by omega)

namespace Shows

/-- The rows are moved up exactly if the text goes on below the screen. -/
theorem nextRow (h : Shows v t) : Shows (v.nextRow color) t.nextRow := by
  have hrow := h.row
  unfold Vga.nextRow
  by_cases hlast : v.row.toNat = 24
  · have htop : t.nextRow.row - 24 = t.row - 24 + 1 := by
      show t.row + 1 - 24 = _
      omega
    rw [if_pos hlast]
    refine ⟨?_, rfl, Nat.zero_lt_succ 79, ?_, ?_⟩
    · show v.row.toNat = min (t.row + 1) 24
      omega
    · intro y x hy hx
      show characterByte (scrolled v.memory color (y * 80 + x)) = t.cell (t.nextRow.row - 24 + y) x
      rw [htop]
      by_cases hy' : y < 24
      · rw [scrolled_of_lt color _ (by omega), Nat.add_right_comm (y * 80), ← Nat.succ_mul,
          h.cell (y + 1) x (by omega) hx, Nat.add_assoc, Nat.add_comm 1 y]
      · rw [scrolled_of_le color _ (by omega) (by omega), characterByte_vgaEntry,
          h.blank _ _ (by omega)]
    · intro y x hy
      exact h.blank y x (Nat.lt_of_succ_lt hy)
  · have htop : t.nextRow.row - 24 = t.row - 24 := by
      show t.row + 1 - 24 = _
      omega
    rw [if_neg hlast]
    refine ⟨?_, rfl, Nat.zero_lt_succ 79, ?_, ?_⟩
    · show (v.row + 1#8).toNat = min (t.row + 1) 24
      rw [Vga.toNat_succ (by omega)]
      omega
    · intro y x hy hx
      rw [htop]
      exact h.cell y x hy hx
    · intro y x hy
      exact h.blank y x (Nat.lt_of_succ_lt hy)

theorem place (h : Shows v t) : Shows (v.place c color) (t.place c) := by
  have hrow := h.row
  have hcol := h.col
  have hinside := h.inside
  refine ⟨h.row, h.col, h.inside, ?_, ?_⟩
  · intro y x hy hx
    simp only [Vga.place, Text.place]
    by_cases hat : y * 80 + x = v.row.toNat * 80 + v.col.toNat
    · rw [hat, update_self, characterByte_vgaEntry, if_pos (by omega)]
    · rw [update_of_ne hat, if_neg (by omega)]
      exact h.cell y x hy hx
  · intro y x hy
    refine (if_neg ?_).trans (h.blank y x hy)
    exact fun hat => Nat.ne_of_gt hy hat.1

theorem put (h : Shows v t) : Shows (v.put c color) (t.put c) := by
  have hcol := h.col
  have hplace := h.place c color
  unfold Vga.put Text.put
  rw [hcol]
  split_ifs with hreturn hline hlast
  · exact h
  · exact h.nextRow color
  · exact hplace.nextRow color
  · have hinside := h.inside
    refine ⟨hplace.row, ?_, ?_, hplace.cell, hplace.blank⟩
    · show (v.col + 1#8).toNat = t.col + 1
      rw [Vga.toNat_succ (by omega), hcol]
    · show t.col + 1 < 80
      omega

theorem puts (h : Shows v t) (ps : List (BitVec 8 × BitVec 8)) :
    Shows (ps.foldl (fun v p => v.put p.1 p.2) v) ((ps.map Prod.fst).foldl Text.put t) := by
  induction ps generalizing v t with
  | nil => exact h
  | cons p ps ih => exact ih (h.put p.1 p.2)

end Shows

end

theorem puts_chars (calls : List ConsoleCall) :
    (Vga.puts calls).map Prod.fst = calls.flatMap ConsoleCall.chars := by
  unfold Vga.puts
  rw [map_flatMap]
  simp only [map_map, comp_def, map_id']

/-- For every run after a clear, no store is outside of the buffer, the cursor is inside of it, and
the screen shows the rows of the text that end with the one of the cursor, or the first 25. -/
theorem console_shows_last_rows (color : BitVec 8) (calls : List ConsoleCall) (v : Vga) :
    ∃ s, runConsole color calls v = some s ∧ s.row.toNat < vgaHeight ∧ s.col.toNat < vgaWidth ∧
      ∀ y x, y < vgaHeight → x < vgaWidth → characterByte (s.memory (y * vgaWidth + x)) =
        (Text.written calls).cell ((Text.written calls).row - 24 + y) x := by
  obtain ⟨s, hinside, hrun, hputs⟩ := runConsole_eq color calls v
  have hclear : Shows (cleared v color) Text.empty := by
    refine ⟨rfl, rfl, Nat.zero_lt_succ 79, ?_, fun _ _ _ => rfl⟩
    intro y x hy hx
    rw [cleared_of_lt color v (by omega), characterByte_vgaEntry]
    rfl
  have hshows := hclear.puts (Vga.puts calls)
  rw [hputs, puts_chars] at hshows
  exact ⟨s, hrun, hinside.row, hinside.col, hshows.cell⟩

/-! ## Characters and colours -/

/-- The cell was made from one of the characters, or a blank, and one of the colours. -/
def MadeFrom (chars colours : List (BitVec 8)) (entry : BitVec 16) : Prop :=
  ∃ c color, entry = vgaEntry c color ∧ (c ∈ chars ∨ c = 0x20#8) ∧ color ∈ colours

section

variable {chars colours : List (BitVec 8)}

/-- A cell is a new one, or one that was there. -/
theorem nextRow_cell (v : Vga) (color : BitVec 8) {i : ℕ} (hi : i < 2000) :
    (v.nextRow color).memory i = vgaEntry 0x20#8 color ∨
      ∃ j < 2000, (v.nextRow color).memory i = v.memory j := by
  unfold Vga.nextRow
  split
  · by_cases hi' : i < 1920
    · exact .inr ⟨i + 80, by omega, scrolled_of_lt color v.memory hi'⟩
    · exact .inl (scrolled_of_le color v.memory (by omega) hi)
  · exact .inr ⟨i, hi, rfl⟩

variable {v : Vga} {c color : BitVec 8} (hcolor : color ∈ colours)
  (h : ∀ i < 2000, MadeFrom chars colours (v.memory i))

include hcolor h

theorem madeFrom_nextRow (i : ℕ) (hi : i < 2000) :
    MadeFrom chars colours ((v.nextRow color).memory i) := by
  obtain hnew | ⟨j, hj, hold⟩ := nextRow_cell v color hi
  · exact ⟨0x20#8, color, hnew, .inr rfl, hcolor⟩
  · rw [hold]
    exact h j hj

theorem madeFrom_place (hc : c ∈ chars) (i : ℕ) (hi : i < 2000) :
    MadeFrom chars colours ((v.place c color).memory i) := by
  simp only [Vga.place]
  by_cases hat : i = v.row.toNat * 80 + v.col.toNat
  · rw [hat, update_self]
    exact ⟨c, color, rfl, .inl hc, hcolor⟩
  · rw [update_of_ne hat]
    exact h i hi

theorem madeFrom_put (hc : c ∈ chars) :
    ∀ i < 2000, MadeFrom chars colours ((v.put c color).memory i) := by
  have hplace := madeFrom_place hcolor h hc
  unfold Vga.put
  split
  · exact h
  split
  · exact madeFrom_nextRow hcolor h
  split
  · exact madeFrom_nextRow hcolor hplace
  · exact hplace

omit hcolor

theorem madeFrom_puts (ps : List (BitVec 8 × BitVec 8))
    (hps : ∀ p ∈ ps, p.1 ∈ chars ∧ p.2 ∈ colours) :
    ∀ i < 2000, MadeFrom chars colours ((ps.foldl (fun v p => v.put p.1 p.2) v).memory i) := by
  induction ps generalizing v with
  | nil => exact h
  | cons p ps ih =>
    obtain ⟨hchar, hcolour⟩ := hps p mem_cons_self
    exact ih (madeFrom_put hcolour h hchar) (fun q hq => hps q (mem_cons_of_mem p hq))

omit h

theorem puts_mem {calls : List ConsoleCall} {p : BitVec 8 × BitVec 8} (hp : p ∈ Vga.puts calls) :
    p.1 ∈ calls.flatMap ConsoleCall.chars ∧ p.2 ∈ calls.map ConsoleCall.color := by
  obtain ⟨call, hcall, hmem⟩ := mem_flatMap.mp hp
  obtain ⟨c, hc, rfl⟩ := mem_map.mp hmem
  exact ⟨mem_flatMap.mpr ⟨call, hcall, hc⟩, mem_map.mpr ⟨call, hcall, rfl⟩⟩

/-- What the bytes of a cell say about the colours. -/
theorem MadeFrom.bytes {entry : BitVec 16} (h : MadeFrom chars colours entry) :
    (characterByte entry ∈ chars ∨ characterByte entry = 0x20#8) ∧
      (characterByte entry < 0x80#8 → attributeByte entry ∈ colours) ∧
      (¬characterByte entry < 0x80#8 → attributeByte entry = 0xFF#8) := by
  obtain ⟨c, color, rfl, hc, hcolor⟩ := h
  have hmsb : c.msb = decide ((0x80#8).toNat ≤ c.toNat) := msb_eq_decide c
  rw [characterByte_vgaEntry, attributeByte_vgaEntry, hmsb, lt_def]
  refine ⟨hc, fun hlt => ?_, fun hge => ?_⟩
  · rw [decide_eq_false (Nat.not_le.mpr hlt)]
    exact hcolor
  · rw [decide_eq_true (Nat.not_lt.mp hge)]
    rfl

end

/-! ## The moments of a run -/

/-- The call up to its first `n` characters. -/
def ConsoleCall.begun (call : ConsoleCall) (n : ℕ) : ConsoleCall :=
  .write (call.chars.take n) call.color

/-- What has been called at some moment of the calls: nothing, or the calls before one of them and
this one up to some character. -/
def Moment (calls made : List ConsoleCall) : Prop :=
  made = [] ∨ ∃ pre call post n, calls = pre ++ call :: post ∧ made = pre ++ [call.begun n]

/-- A character of a moment comes from a call, and the colours up to that call have been passed. -/
theorem Moment.call {calls made : List ConsoleCall} {c : BitVec 8} (h : Moment calls made)
    (hc : c ∈ made.flatMap ConsoleCall.chars) :
    ∃ pre call post, calls = pre ++ call :: post ∧ c ∈ call.chars ∧
      (pre ++ [call]).map ConsoleCall.color ⊆ made.map ConsoleCall.color := by
  obtain rfl | ⟨pre, call, post, n, rfl, rfl⟩ := h
  · simp at hc
  rw [flatMap_append, mem_append] at hc
  obtain hbefore | hlast := hc
  · obtain ⟨call', hcall', hc⟩ := mem_flatMap.mp hbefore
    obtain ⟨a, b, rfl⟩ := append_of_mem hcall'
    refine ⟨a, call', b ++ call :: post, by simp, hc, ?_⟩
    exact map_subset _ (fun x hx => by simp at hx ⊢; tauto)
  · rw [flatMap_singleton] at hlast
    refine ⟨pre, call, post, rfl, mem_of_mem_take hlast, ?_⟩
    rw [map_append, map_append]
    exact fun _ hx => hx

/-- A character from 0x80 on is on the screen after it has been put. -/
theorem put_high_cell {v : Vga} (h : v.Inside) {c : BitVec 8} (hc : 0x80#8 ≤ c)
    (color : BitVec 8) : ∃ i < 2000, (v.put c color).memory i = vgaEntry c color := by
  have hrow := h.row
  have hcol := h.col
  have hne : c ≠ 0x0D#8 ∧ c ≠ 0x0A#8 := by
    constructor <;> rintro rfl <;> exact absurd hc (by decide)
  have hplaced : (v.place c color).memory (v.row.toNat * 80 + v.col.toNat) = vgaEntry c color :=
    update_self ..
  unfold Vga.put
  rw [if_neg hne.1, if_neg hne.2]
  split
  · unfold Vga.nextRow
    split
    · -- the row has been moved up
      rename_i hlast
      have hlast : v.row.toNat = 24 := hlast
      refine ⟨23 * 80 + v.col.toNat, by omega, ?_⟩
      show scrolled _ color _ = _
      rw [scrolled_of_lt color _ (by omega), ← hplaced, hlast]
      congr 1
      omega
    · exact ⟨_, by omega, hplaced⟩
  · exact ⟨_, by omega, hplaced⟩

/-- At every moment after a clear, the character of a cell is one that was written or a blank.  The
high bytes of all cells are colours that were passed so far, at every moment, exactly if 0xFF is
among these colours whenever a character from 0x80 on is put. -/
theorem console_cell_bytes (clear : BitVec 8) (calls : List ConsoleCall) (v : Vga) :
    (∀ made, Moment calls made → ∃ s, runConsole clear made v = some s ∧
      ∀ i < 2000, characterByte (s.memory i) ∈ made.flatMap ConsoleCall.chars ∨
        characterByte (s.memory i) = 0x20#8) ∧
    ((∀ made, Moment calls made → ∀ s, runConsole clear made v = some s →
        ∀ i < 2000, attributeByte (s.memory i) ∈ clear :: made.map ConsoleCall.color) ↔
      ∀ pre call post, calls = pre ++ call :: post → (∃ c ∈ call.chars, 0x80#8 ≤ c) →
        0xFF#8 ∈ clear :: (pre ++ [call]).map ConsoleCall.color) := by
  have hmade (made : List ConsoleCall) : ∃ s, s.Inside ∧ runConsole clear made v = some s ∧
      (Vga.puts made).foldl (fun v p => v.put p.1 p.2) (cleared v clear) = s ∧
      ∀ i < 2000, MadeFrom (made.flatMap ConsoleCall.chars)
        (clear :: made.map ConsoleCall.color) (s.memory i) := by
    obtain ⟨s, hinside, hrun, rfl⟩ := runConsole_eq clear made v
    refine ⟨_, hinside, hrun, rfl, madeFrom_puts ?_ (Vga.puts made) (fun p hp =>
      ⟨(puts_mem hp).1, mem_cons_of_mem clear (puts_mem hp).2⟩)⟩
    intro i hi
    rw [cleared_of_lt clear v hi]
    exact ⟨0x20#8, clear, rfl, .inr rfl, mem_cons_self⟩
  refine ⟨?_, ?_, ?_⟩
  · intro made _
    obtain ⟨s, _, hrun, _, hcells⟩ := hmade made
    exact ⟨s, hrun, fun i hi => (hcells i hi).bytes.1⟩
  · -- right after the character has been put, its cell has the high byte 0xFF
    rintro hall pre call post rfl ⟨c, hc, hhigh⟩
    obtain ⟨n, hn, rfl⟩ := getElem_of_mem hc
    obtain ⟨u, hinside, _, hputs, _⟩ := hmade (pre ++ [call.begun n])
    obtain ⟨s, _, hrun, hputs', hcells⟩ := hmade (pre ++ [call.begun (n + 1)])
    have hconcat : Vga.puts (pre ++ [call.begun (n + 1)]) =
        Vga.puts (pre ++ [call.begun n]) ++ [(call.chars[n], call.color)] := by
      simp [Vga.puts, ConsoleCall.begun, ConsoleCall.chars, ConsoleCall.color, take_add_one]
    rw [hconcat, foldl_append, hputs, foldl_cons, foldl_nil] at hputs'
    obtain ⟨i, hi, hcell⟩ := put_high_cell hinside hhigh call.color
    rw [hputs'] at hcell
    have hcolour := hall _ (.inr ⟨pre, call, post, n + 1, rfl, rfl⟩) s hrun i hi
    rw [(hcells i hi).bytes.2.2 (by
      rw [hcell, characterByte_vgaEntry]
      exact BitVec.not_lt.mpr hhigh), map_append] at hcolour
    rw [map_append]
    exact hcolour
  · intro hcond made hmoment s hrun i hi
    obtain ⟨s', _, hrun', _, hcells⟩ := hmade made
    obtain rfl : s' = s := Option.some.inj (hrun'.symm.trans hrun)
    by_cases hlt : characterByte (s'.memory i) < 0x80#8
    · exact (hcells i hi).bytes.2.1 hlt
    · rw [(hcells i hi).bytes.2.2 hlt]
      obtain hchar | hblank := (hcells i hi).bytes.1
      · obtain ⟨pre, call, post, hcalls, hc, hcolours⟩ := hmoment.call hchar
        exact cons_subset_cons clear hcolours
          (hcond pre call post hcalls ⟨_, hc, BitVec.not_lt.mp hlt⟩)
      · exact absurd (by rw [hblank]; decide) hlt

/-- The byte 0x80 is written in the colour 7 to a screen that was cleared in the same colour. -/
theorem high_character_colour :
    (runConsole 0x07#8 [.write [0x80#8] 0x07#8] ⟨fun _ => 0#16, 0#8, 0#8⟩).map
      (fun s => attributeByte (s.memory 0)) = some 0xFF#8 ∧
    0xFF#8 ∉ [0x07#8, 0x07#8] := by
  decide +kernel

end GnuOS.Console
