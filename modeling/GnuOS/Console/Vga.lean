import GnuOS.Lib.Loops
import Mathlib.Data.BitVec

/-!
# The VGA console

A model of the functions of `kernel/init/kmain.c` that write to the text buffer.  `char` is signed
on this target.  A store outside of the 80 x 25 cells of the buffer is `none`.

The loops work in place; `vgaScrollOneLine_eq` and `vgaClear_eq` say what they leave.  While the
cursor is inside the buffer, `vga_putc` is the total function `Vga.put` (`vgaPutc_eq`).
-/

namespace GnuOS.Console

open GnuOS.Lib Function

/-! ## The functions -/

def vgaWidth : ℕ := 80
def vgaHeight : ℕ := 25
def vgaLogColor : BitVec 8 := 0x07#8

/-- `VGA_MEMORY`, `g_vga_row` and `g_vga_col`. -/
structure Vga where
  memory : ℕ → BitVec 16
  row : BitVec 8
  col : BitVec 8

/-- The conversion of a `char` to 16 bits keeps its sign. -/
def vgaEntry (c color : BitVec 8) : BitVec 16 := c.signExtend 16 ||| (color.setWidth 16 <<< 8)

/-- `VGA_MEMORY[index] = entry` -/
def Vga.store (v : Vga) (index : ℕ) (entry : BitVec 16) : Option Vga :=
  if index < vgaWidth * vgaHeight then
    some { v with memory := update v.memory index entry }
  else none

def vgaScrollOneLine (color : BitVec 8) (v : Vga) : Option Vga := do
  let v ← countingLoop 1 vgaHeight (fun v y => countingLoop 0 vgaWidth (fun v x =>
    v.store ((y - 1) * vgaWidth + x) (v.memory (y * vgaWidth + x))) v) v
  countingLoop 0 vgaWidth (fun v x =>
    v.store ((vgaHeight - 1) * vgaWidth + x) (vgaEntry 0x20#8 color)) v

def vgaClear (color : BitVec 8) (v : Vga) : Option Vga := do
  let v ← countingLoop 0 vgaHeight (fun v y => countingLoop 0 vgaWidth (fun v x =>
    v.store (y * vgaWidth + x) (vgaEntry 0x20#8 color)) v) v
  some { v with row := 0#8, col := 0#8 }

/-- `if (g_vga_row >= VGA_HEIGHT)`, which `vga_putc` has three times. -/
def vgaScrollBelow (color : BitVec 8) (v : Vga) : Option Vga :=
  if vgaHeight ≤ v.row.toNat then do
    let v ← vgaScrollOneLine color v
    some { v with row := BitVec.ofNat 8 (vgaHeight - 1) }
  else some v

def vgaPutc (c color : BitVec 8) (v : Vga) : Option Vga :=
  if c = 0x0D#8 then some v
  else if c = 0x0A#8 then vgaScrollBelow color { v with col := 0#8, row := v.row + 1#8 }
  else do
    let v ← vgaScrollBelow color v
    let v ← v.store (v.row.toNat * vgaWidth + v.col.toNat) (vgaEntry c color)
    let v := { v with col := v.col + 1#8 }
    if vgaWidth ≤ v.col.toNat then
      vgaScrollBelow color { v with col := 0#8, row := v.row + 1#8 }
    else some v

/-- The message is given by its bytes, without the zero at its end. -/
def vgaWrite (message : List (BitVec 8)) (color : BitVec 8) (v : Vga) : Option Vga :=
  message.foldlM (fun v c => vgaPutc c color v) v

def vgaLogMirrorChar (c : BitVec 8) (v : Vga) : Option Vga := vgaPutc c vgaLogColor v

/-! ## Runs -/

/-- A call that writes to the console. -/
inductive ConsoleCall
  | write (message : List (BitVec 8)) (color : BitVec 8)
  | putc (c color : BitVec 8)
  | mirror (c : BitVec 8)

namespace ConsoleCall

def exec (v : Vga) : ConsoleCall → Option Vga
  | write message color => vgaWrite message color v
  | putc c color => vgaPutc c color v
  | mirror c => vgaLogMirrorChar c v

def color : ConsoleCall → BitVec 8
  | write _ color => color
  | putc _ color => color
  | mirror _ => vgaLogColor

/-- The characters that the call hands to `vga_putc`. -/
def chars : ConsoleCall → List (BitVec 8)
  | write message _ => message
  | putc c _ => [c]
  | mirror c => [c]

theorem exec_eq (v : Vga) (call : ConsoleCall) :
    call.exec v = call.chars.foldlM (fun v c => vgaPutc c call.color v) v := by
  cases call with
  | write message color => rfl
  | putc c color => exact (bind_pure (vgaPutc c color v)).symm
  | mirror c => exact (bind_pure (vgaPutc c vgaLogColor v)).symm

end ConsoleCall

/-- The console is cleared, then written to. -/
def runConsole (color : BitVec 8) (calls : List ConsoleCall) (v : Vga) : Option Vga := do
  let v ← vgaClear color v
  calls.foldlM ConsoleCall.exec v

/-! ## What the loops leave -/

section

variable (v : Vga) (memory : ℕ → BitVec 16) (e : BitVec 16) (lo k : ℕ)

/-- The first `k` cells have the contents of the cells one row below them. -/
def copiedUp : ℕ → BitVec 16 := fun i => if i < k then memory (i + vgaWidth) else memory i

/-- `k` cells from `lo` on have the contents `e`. -/
def filled : ℕ → BitVec 16 := fun i => if lo ≤ i ∧ i < lo + k then e else memory i

theorem copiedUp_zero : copiedUp memory 0 = memory := by
  funext i
  exact if_neg (Nat.not_lt_zero i)

theorem filled_zero : filled memory e lo 0 = memory := by
  funext i
  apply if_neg
  omega

/-- The cell that is read has not been written to yet. -/
theorem copiedUp_succ :
    update (copiedUp memory k) k (copiedUp memory k (k + vgaWidth)) =
      copiedUp memory (k + 1) := by
  funext i
  unfold copiedUp
  by_cases hi : i = k
  · rw [hi, update_self, if_neg (by omega), if_pos (by omega)]
  · rw [update_of_ne hi]
    by_cases hlt : i < k
    · rw [if_pos hlt, if_pos (by omega)]
    · rw [if_neg hlt, if_neg (by omega)]

theorem filled_succ :
    update (filled memory e lo k) (lo + k) e = filled memory e lo (k + 1) := by
  funext i
  unfold filled
  by_cases hi : i = lo + k
  · rw [hi, update_self, if_pos (by omega)]
  · rw [update_of_ne hi]
    by_cases hin : lo ≤ i ∧ i < lo + k
    · rw [if_pos hin, if_pos (by omega)]
    · rw [if_neg hin, if_neg (by omega)]

theorem store_of_lt {i : ℕ} (hi : i < 2000) :
    v.store i e = some { v with memory := update v.memory i e } := if_pos hi

/-- Filling one row, from its first cell `lo` on. -/
theorem fillRow_eq (hlo : lo + 80 ≤ 2000) :
    countingLoop 0 vgaWidth (fun v x => v.store (lo + x) e) { v with memory := memory } =
      some { v with memory := filled memory e lo 80 } := by
  have hloop := countingLoop_eq 0 vgaWidth (fun v x => Vga.store v (lo + x) e)
    (fun x => { v with memory := filled memory e lo x }) (Nat.zero_le _) ?_
  · rw [filled_zero] at hloop
    exact hloop
  · intro x _ hx
    unfold vgaWidth at hx
    rw [store_of_lt _ _ (by omega), filled_succ]

/-- Copying row `y` one row up. -/
theorem copyRow_eq {y : ℕ} (hy : 1 ≤ y) (hy' : y < 25) :
    countingLoop 0 vgaWidth (fun v x =>
        v.store ((y - 1) * vgaWidth + x) (v.memory (y * vgaWidth + x)))
        { v with memory := copiedUp memory ((y - 1) * 80) } =
      some { v with memory := copiedUp memory ((y - 1) * 80 + 80) } := by
  refine countingLoop_eq 0 vgaWidth (fun v x =>
      Vga.store v ((y - 1) * vgaWidth + x) (v.memory (y * vgaWidth + x)))
    (fun x => { v with memory := copiedUp memory ((y - 1) * 80 + x) }) (Nat.zero_le _) ?_
  intro x _ hx
  have hbelow : y * vgaWidth + x = (y - 1) * vgaWidth + x + vgaWidth := by
    unfold vgaWidth
    omega
  unfold vgaWidth at hx
  rw [hbelow, store_of_lt _ _ (show (y - 1) * vgaWidth + x < 2000 by unfold vgaWidth; omega)]
  exact congrArg (fun m => some { v with memory := m }) (copiedUp_succ memory _)

variable (color : BitVec 8)

/-- The rows have moved up, and the last one is blank. -/
def scrolled : ℕ → BitVec 16 := filled (copiedUp memory 1920) (vgaEntry 0x20#8 color) 1920 80

theorem copyRows_eq :
    countingLoop 1 vgaHeight (fun v y => countingLoop 0 vgaWidth (fun v x =>
      v.store ((y - 1) * vgaWidth + x) (v.memory (y * vgaWidth + x))) v) v =
        some { v with memory := copiedUp v.memory 1920 } := by
  have hcopy := countingLoop_eq 1 vgaHeight
    (fun v y => countingLoop 0 vgaWidth (fun v x =>
      Vga.store v ((y - 1) * vgaWidth + x) (v.memory (y * vgaWidth + x))) v)
    (fun y => { v with memory := copiedUp v.memory ((y - 1) * 80) }) (by decide) ?_
  · rw [Nat.sub_self, Nat.zero_mul, copiedUp_zero] at hcopy
    exact hcopy
  · intro y hy hy'
    have hnext : (y + 1 - 1) * 80 = (y - 1) * 80 + 80 := by omega
    rw [hnext]
    exact copyRow_eq v v.memory hy hy'

theorem vgaScrollOneLine_eq :
    vgaScrollOneLine color v = some { v with memory := scrolled v.memory color } := by
  have hlast : (vgaHeight - 1) * vgaWidth = 1920 := by decide
  unfold vgaScrollOneLine scrolled
  rw [copyRows_eq, Option.bind_eq_bind, Option.bind_some, hlast]
  exact fillRow_eq v (copiedUp v.memory 1920) _ 1920 (by decide)

/-- One more row is filled. -/
theorem filled_row (y : ℕ) :
    filled (filled memory e 0 (y * 80)) e (y * 80) 80 = filled memory e 0 ((y + 1) * 80) := by
  funext i
  unfold filled
  by_cases hlast : y * 80 ≤ i ∧ i < y * 80 + 80
  · rw [if_pos hlast, if_pos (by omega)]
  · rw [if_neg hlast]
    by_cases hbefore : 0 ≤ i ∧ i < 0 + y * 80
    · rw [if_pos hbefore, if_pos (by omega)]
    · rw [if_neg hbefore, if_neg (by omega)]

/-- Every cell is blank. -/
def cleared : Vga := ⟨filled v.memory (vgaEntry 0x20#8 color) 0 2000, 0#8, 0#8⟩

theorem vgaClear_eq : vgaClear color v = some (cleared v color) := by
  have hfill := countingLoop_eq 0 vgaHeight
    (fun v y => countingLoop 0 vgaWidth (fun v x =>
      Vga.store v (y * vgaWidth + x) (vgaEntry 0x20#8 color)) v)
    (fun y => { v with memory := filled v.memory (vgaEntry 0x20#8 color) 0 (y * 80) })
    (Nat.zero_le _) ?_
  · rw [Nat.zero_mul, filled_zero] at hfill
    unfold vgaClear
    rw [hfill]
    rfl
  · intro y _ hy
    unfold vgaHeight at hy
    rw [← filled_row]
    exact fillRow_eq v _ _ (y * 80) (by omega)

end

/-! ## One character -/

namespace Vga

/-- The cursor is inside the buffer. -/
structure Inside (v : Vga) : Prop where
  row : v.row.toNat < 25
  col : v.col.toNat < 80

variable (v : Vga) (c color : BitVec 8)

/-- The cursor goes to the next row; in the last one, the rows are moved up instead. -/
def nextRow : Vga :=
  if v.row.toNat = 24 then ⟨scrolled v.memory color, v.row, 0#8⟩
  else { v with row := v.row + 1#8, col := 0#8 }

/-- The character is stored at the cursor. -/
def place : Vga :=
  { v with memory := update v.memory (v.row.toNat * 80 + v.col.toNat) (vgaEntry c color) }

def put : Vga :=
  if c = 0x0D#8 then v
  else if c = 0x0A#8 then v.nextRow color
  else if v.col.toNat = 79 then (v.place c color).nextRow color
  else { v.place c color with col := v.col + 1#8 }

variable {v}

theorem scrollBelow_of_lt (h : v.row.toNat < 25) : vgaScrollBelow color v = some v :=
  if_neg (Nat.not_le.mpr h)

theorem toNat_succ {b : BitVec 8} (h : b.toNat < 80) : (b + 1#8).toNat = b.toNat + 1 := by
  rw [BitVec.toNat_add, BitVec.toNat_ofNat]
  omega

theorem scrollBelow_succ (h : v.row.toNat < 25) :
    vgaScrollBelow color { v with col := 0#8, row := v.row + 1#8 } = some (v.nextRow color) := by
  have hsucc := toNat_succ (b := v.row) (by omega)
  unfold nextRow
  by_cases hlast : v.row.toNat = 24
  · have hrow : BitVec.ofNat 8 (vgaHeight - 1) = v.row := BitVec.eq_of_toNat_eq hlast.symm
    rw [if_pos hlast]
    unfold vgaScrollBelow
    rw [if_pos (by rw [hsucc, hlast]; decide), vgaScrollOneLine_eq, hrow]
    rfl
  · rw [if_neg hlast]
    exact scrollBelow_of_lt color (by rw [hsucc]; omega)

/-- While the cursor is inside the buffer, so is every store. -/
theorem vgaPutc_eq (h : v.Inside) : vgaPutc c color v = some (v.put c color) := by
  have hrow := h.row
  have hcol := h.col
  unfold vgaPutc put
  by_cases hreturn : c = 0x0D#8
  · rw [if_pos hreturn, if_pos hreturn]
  rw [if_neg hreturn, if_neg hreturn]
  by_cases hline : c = 0x0A#8
  · rw [if_pos hline, if_pos hline]
    exact scrollBelow_succ color hrow
  rw [if_neg hline, if_neg hline, scrollBelow_of_lt color hrow]
  have hstore : v.store (v.row.toNat * vgaWidth + v.col.toNat) (vgaEntry c color) =
      some (v.place c color) := store_of_lt v _ (by unfold vgaWidth; omega)
  simp only [Option.bind_eq_bind, Option.bind_some, hstore]
  have hsucc : ((v.place c color).col + 1#8).toNat = v.col.toNat + 1 := toNat_succ hcol
  by_cases hlast : v.col.toNat = 79
  · rw [if_pos (by rw [hsucc, hlast]; decide), if_pos hlast]
    exact scrollBelow_succ (v := v.place c color) color hrow
  · rw [if_neg (by rw [hsucc]; unfold vgaWidth; omega), if_neg hlast]
    rfl

theorem Inside.nextRow (h : v.Inside) : (v.nextRow color).Inside := by
  have hrow := h.row
  unfold Vga.nextRow
  split
  · exact ⟨hrow, Nat.zero_lt_succ 79⟩
  · refine ⟨?_, Nat.zero_lt_succ 79⟩
    rw [show ((v.row + 1#8).toNat) = _ from toNat_succ (by omega)]
    omega

theorem Inside.put (h : v.Inside) : (v.put c color).Inside := by
  have hplace : (v.place c color).Inside := ⟨h.row, h.col⟩
  have hcol := h.col
  unfold Vga.put
  split
  · exact h
  split
  · exact h.nextRow color
  split
  · exact hplace.nextRow color
  · refine ⟨h.row, ?_⟩
    rw [show ((v.col + 1#8).toNat) = _ from toNat_succ hcol]
    omega

/-- What the characters of a call do. -/
theorem Inside.foldlM (h : v.Inside) (chars : List (BitVec 8)) :
    ∃ s : Vga, s.Inside ∧ chars.foldlM (fun v c => vgaPutc c color v) v = some s ∧
      chars.foldl (fun v c => v.put c color) v = s := by
  induction chars generalizing v with
  | nil => exact ⟨v, h, rfl, rfl⟩
  | cons c chars ih =>
    rw [List.foldlM_cons, vgaPutc_eq c color h]
    exact ih (h.put c color)

/-- The characters of the calls, each with its colour. -/
def puts (calls : List ConsoleCall) : List (BitVec 8 × BitVec 8) :=
  calls.flatMap (fun call => call.chars.map (fun c => (c, call.color)))

theorem Inside.calls (h : v.Inside) (calls : List ConsoleCall) :
    ∃ s : Vga, s.Inside ∧ calls.foldlM ConsoleCall.exec v = some s ∧
      (puts calls).foldl (fun v p => v.put p.1 p.2) v = s := by
  induction calls generalizing v with
  | nil => exact ⟨v, h, rfl, rfl⟩
  | cons call calls ih =>
    obtain ⟨u, hu, hcall, hputs⟩ := h.foldlM call.color call.chars
    rw [List.foldlM_cons, ConsoleCall.exec_eq, hcall, puts, List.flatMap_cons, List.foldl_append,
      List.foldl_map, hputs]
    exact ih hu

end Vga

/-- No store of a run is outside of the buffer. -/
theorem runConsole_eq (color : BitVec 8) (calls : List ConsoleCall) (v : Vga) :
    ∃ s : Vga, s.Inside ∧ runConsole color calls v = some s ∧
      (Vga.puts calls).foldl (fun v p => v.put p.1 p.2) (cleared v color) = s := by
  have hclear : (cleared v color).Inside := ⟨Nat.zero_lt_succ 24, Nat.zero_lt_succ 79⟩
  unfold runConsole
  rw [vgaClear_eq]
  exact hclear.calls calls

end GnuOS.Console
