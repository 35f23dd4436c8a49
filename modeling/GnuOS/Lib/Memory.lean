import Mathlib.Data.BitVec

/-!
# Byte memory

A memory with one byte at each 64-bit address, and little-endian words in it.  Words are natural
numbers; the position of a word is given by an offset from a base address, and two words whose
offsets do not overlap do not affect each other.

Code that may only read a region of the memory and may not terminate has an `Outcome`.
-/

namespace GnuOS.Lib

open List BitVec

abbrev Memory := BitVec 64 → BitVec 8

namespace Memory

/-- The `n` bytes at `a`, least significant first. -/
def load (mem : Memory) (a : BitVec 64) : ℕ → ℕ
  | 0 => 0
  | n + 1 => (mem a).toNat + 256 * load mem (a + 1#64) n

/-- Store the `n` low bytes of `v` at `a`. -/
def store (mem : Memory) (a : BitVec 64) : ℕ → ℕ → Memory
  | 0, _ => mem
  | n + 1, v => store (Function.update mem a (BitVec.ofNat 8 v)) (a + 1#64) n (v / 256)

variable {mem mem' : Memory} {base : BitVec 64} {n n' o o' v x : ℕ}

/-! ## Addresses -/

theorem addr_add (base : BitVec 64) (o k : ℕ) :
    base + BitVec.ofNat 64 o + BitVec.ofNat 64 k = base + BitVec.ofNat 64 (o + k) := by
  rw [add_assoc, ofNat_add]

theorem addr_inj (ho : o < 2 ^ 64) (ho' : o' < 2 ^ 64) :
    base + BitVec.ofNat 64 o = base + BitVec.ofNat 64 o' ↔ o = o' := by
  rw [add_right_inj, ← toNat_inj, toNat_ofNat, toNat_ofNat,
    Nat.mod_eq_of_lt ho, Nat.mod_eq_of_lt ho']

/-- An offset that stays inside the address space. -/
theorem toNat_addr (h : base.toNat + o < 2 ^ 64) :
    (base + BitVec.ofNat 64 o).toNat = base.toNat + o := by
  rw [toNat_add, toNat_ofNat, Nat.add_mod_mod, Nat.mod_eq_of_lt h]

/-! ## Words -/

theorem load_lt (mem : Memory) (a : BitVec 64) (n : ℕ) : mem.load a n < 256 ^ n := by
  induction n generalizing a with
  | zero => simp [load]
  | succ n ih =>
    have hbyte : (mem a).toNat < 256 := (mem a).isLt
    have hrest := ih (a + 1#64)
    rw [load, Nat.pow_succ]
    omega

/-- A word depends on its own bytes only. -/
theorem load_congr
    (h : ∀ i, i < n → mem (base + BitVec.ofNat 64 (o + i)) =
      mem' (base + BitVec.ofNat 64 (o + i))) :
    mem.load (base + BitVec.ofNat 64 o) n = mem'.load (base + BitVec.ofNat 64 o) n := by
  induction n generalizing o with
  | zero => rfl
  | succ n ih =>
    rw [load, load, show base + BitVec.ofNat 64 o + 1#64 = base + BitVec.ofNat 64 (o + 1) from
      addr_add base o 1]
    have hfirst : mem (base + BitVec.ofNat 64 o) = mem' (base + BitVec.ofNat 64 o) :=
      h 0 (by omega)
    rw [hfirst, ih]
    intro i hi
    have hbyte := h (i + 1) (by omega)
    rwa [show o + (i + 1) = o + 1 + i by omega] at hbyte

/-- The memories have the same `n` bytes at `base`. -/
def SameBytes (mem mem' : Memory) (base : BitVec 64) (n : ℕ) : Prop :=
  ∀ i, i < n → mem' (base + BitVec.ofNat 64 i) = mem (base + BitVec.ofNat 64 i)

theorem SameBytes.load (h : mem.SameBytes mem' base n) (ho : o + n' ≤ n) :
    mem'.load (base + BitVec.ofNat 64 o) n' = mem.load (base + BitVec.ofNat 64 o) n' :=
  load_congr fun i hi => h (o + i) (by omega)

/-- The bytes after a store: `v` from offset `o` on, and everything else as before. -/
theorem store_apply (ho : o + n ≤ 2 ^ 64) (hx : x < 2 ^ 64) :
    mem.store (base + BitVec.ofNat 64 o) n v (base + BitVec.ofNat 64 x) =
      if o ≤ x ∧ x < o + n then BitVec.ofNat 8 (v / 256 ^ (x - o))
      else mem (base + BitVec.ofNat 64 x) := by
  induction n generalizing mem o v with
  | zero => rw [if_neg (by omega), store]
  | succ n ih =>
    rw [store, show base + BitVec.ofNat 64 o + 1#64 = base + BitVec.ofNat 64 (o + 1) from
      addr_add base o 1, ih (by omega)]
    by_cases hxo : x = o
    · rw [if_neg (by omega), if_pos (by omega), hxo, Function.update_self, Nat.sub_self,
        Nat.pow_zero, Nat.div_one]
    · have hne : base + BitVec.ofNat 64 x ≠ base + BitVec.ofNat 64 o := by
        rw [Ne, addr_inj hx (by omega)]
        exact hxo
      rw [Function.update_of_ne hne]
      by_cases hin : o + 1 ≤ x ∧ x < o + 1 + n
      · rw [if_pos hin, if_pos (by omega), Nat.div_div_eq_div_mul, ← Nat.pow_succ',
          show (x - (o + 1)).succ = x - o by omega]
      · rw [if_neg hin, if_neg (by omega)]

/-- A word that was stored is read back. -/
theorem load_store_same (ho : o + n ≤ 2 ^ 64) :
    (mem.store (base + BitVec.ofNat 64 o) n v).load (base + BitVec.ofNat 64 o) n =
      v % 256 ^ n := by
  induction n generalizing mem o v with
  | zero => simp [load, Nat.mod_one]
  | succ n ih =>
    have hfirst : mem.store (base + BitVec.ofNat 64 o) (n + 1) v (base + BitVec.ofNat 64 o) =
        BitVec.ofNat 8 v := by
      rw [store_apply ho (by omega), if_pos (by omega), Nat.sub_self, Nat.pow_zero, Nat.div_one]
    have hsplit : v % 256 ^ (n + 1) = v % 256 + 256 * (v / 256 % 256 ^ n) := by
      rw [Nat.pow_succ', Nat.mod_mul]
    rw [load, hfirst, store, show base + BitVec.ofNat 64 o + 1#64 =
      base + BitVec.ofNat 64 (o + 1) from addr_add base o 1, ih (by omega), toNat_ofNat,
      hsplit]

/-- A store leaves the words beside it alone. -/
theorem load_store_other (ho : o + n ≤ 2 ^ 64) (ho' : o' + n' ≤ 2 ^ 64)
    (h : o' + n' ≤ o ∨ o + n ≤ o') :
    (mem.store (base + BitVec.ofNat 64 o) n v).load (base + BitVec.ofNat 64 o') n' =
      mem.load (base + BitVec.ofNat 64 o') n' := by
  apply load_congr
  intro i hi
  rw [store_apply ho (by omega), if_neg (by omega)]

/-! ## Records -/

/-- A word of a record: its offset, its width in bytes, and a value for it. -/
structure Field where
  offset : ℕ
  width : ℕ
  value : ℕ

def storeFields (mem : Memory) (base : BitVec 64) (fields : List Field) : Memory :=
  fields.foldl (fun mem f => mem.store (base + BitVec.ofNat 64 f.offset) f.width f.value) mem

@[simp] theorem storeFields_nil : mem.storeFields base [] = mem := rfl

/-- Fields that follow one another between two offsets. -/
def Ascends : ℕ → List Field → ℕ → Prop
  | lo, [], hi => lo ≤ hi
  | lo, f :: fields, hi => lo ≤ f.offset ∧ Ascends (f.offset + f.width) fields hi

variable {lo hi mid : ℕ} {fields fields' : List Field} {f : Field}

theorem Ascends.le (h : Ascends lo fields hi) : lo ≤ hi := by
  induction fields generalizing lo with
  | nil => exact h
  | cons f fields ih =>
    have hrest := ih h.2
    have hf := h.1
    omega

theorem Ascends.bounds (h : Ascends lo fields hi) (hf : f ∈ fields) :
    lo ≤ f.offset ∧ f.offset + f.width ≤ hi := by
  induction fields generalizing lo with
  | nil => simp at hf
  | cons g fields ih =>
    rcases mem_cons.mp hf with rfl | hf
    · exact ⟨h.1, h.2.le⟩
    · have hrest := ih h.2 hf
      have hg := h.1
      omega

theorem Ascends.append (h : Ascends lo fields mid) (h' : Ascends mid fields' hi) :
    Ascends lo (fields ++ fields') hi := by
  induction fields generalizing lo with
  | nil =>
    cases fields' with
    | nil => exact le_trans h h'
    | cons f fields' => exact ⟨le_trans h h'.1, h'.2⟩
  | cons f fields ih => exact ⟨h.1, ih h.2⟩

/-- Records of one size that follow one another. -/
theorem Ascends.flatMap_range {record : ℕ → List Field} {size : ℕ}
    (h : ∀ i, i < n → Ascends (lo + size * i) (record i) (lo + size * (i + 1))) :
    Ascends lo ((range n).flatMap record) (lo + size * n) := by
  induction n with
  | zero => simp [Ascends]
  | succ n ih =>
    rw [range_succ, flatMap_append, flatMap_singleton]
    exact (ih fun i hi => h i (by omega)).append (h n (by omega))

theorem storeFields_flatMap {ι : Type} (l : List ι) (record : ι → List Field) :
    mem.storeFields base (l.flatMap record) =
      l.foldl (fun mem i => mem.storeFields base (record i)) mem := by
  unfold storeFields
  exact foldl_flatMap

/-- Words beside a record are not affected by it. -/
theorem load_storeFields_other (h : Ascends lo fields hi) (hhi : hi ≤ 2 ^ 64)
    (ho : o + n ≤ 2 ^ 64) (hdisj : o + n ≤ lo ∨ hi ≤ o) :
    (mem.storeFields base fields).load (base + BitVec.ofNat 64 o) n =
      mem.load (base + BitVec.ofNat 64 o) n := by
  induction fields generalizing mem lo with
  | nil => rfl
  | cons f fields ih =>
    have hf := h.1
    have hrest := h.2.le
    rw [storeFields, foldl_cons]
    change (storeFields _ base fields).load _ n = _
    rw [ih h.2 (by omega), load_store_other (by omega) ho (by omega)]

/-- The fields of a record are read back. -/
theorem load_storeFields (h : Ascends lo fields hi) (hhi : hi ≤ 2 ^ 64) (hf : f ∈ fields) :
    (mem.storeFields base fields).load (base + BitVec.ofNat 64 f.offset) f.width =
      f.value % 256 ^ f.width := by
  induction fields generalizing mem lo with
  | nil => simp at hf
  | cons g fields ih =>
    have hrest := h.2.le
    rw [storeFields, foldl_cons]
    change (storeFields _ base fields).load _ _ = _
    rcases mem_cons.mp hf with rfl | hf
    · rw [load_storeFields_other h.2 hhi (by omega) (Or.inl (le_refl _)),
        load_store_same (by omega)]
    · exact ih h.2 hf

end Memory

/-! ## Code that reads a region -/

/-- How code that may read a region ends: with a value, with a read outside of the region, or not
within the rounds that its loops are given. -/
inductive Outcome (α : Type)
  | value (a : α)
  | outside
  | unfinished
  deriving DecidableEq

namespace Outcome

instance : Monad Outcome where
  pure := value
  bind x f :=
    match x with
    | value a => f a
    | outside => outside
    | unfinished => unfinished

variable {α β : Type}

@[simp] theorem pure_eq (a : α) : (pure a : Outcome α) = value a := rfl

@[simp] theorem value_bind (a : α) (f : α → Outcome β) : value a >>= f = f a := rfl

@[simp] theorem outside_bind (f : α → Outcome β) : outside >>= f = outside := rfl

instance : LawfulMonad Outcome :=
  LawfulMonad.mk' Outcome (fun x => by cases x <;> rfl) (fun _ _ => rfl)
    fun x _ _ => by cases x <;> rfl

theorem bind_eq_value {x : Outcome α} {f : α → Outcome β} {b : β} :
    x >>= f = value b ↔ ∃ a, x = value a ∧ f a = value b := by
  cases x with
  | value a => simp
  | outside => simp
  | unfinished => simp

/-- Code whose loops are given `fuel` rounds returns `a` if they are given enough. -/
def Returns (x : ℕ → Outcome α) (a : α) : Prop :=
  ∃ bound, ∀ fuel, bound ≤ fuel → x fuel = value a

theorem Returns.value (a : α) : Returns (fun _ => value a) a :=
  ⟨0, fun _ _ => rfl⟩

theorem Returns.unique {x : ℕ → Outcome α} {a a' : α} (h : Returns x a) (h' : Returns x a') :
    a = a' := by
  obtain ⟨bound, h⟩ := h
  obtain ⟨bound', h'⟩ := h'
  have hvalue := h (bound + bound') (by omega)
  rw [h' (bound + bound') (by omega)] at hvalue
  exact (value.inj hvalue).symm

theorem Returns.bind {x : ℕ → Outcome α} {f : ℕ → α → Outcome β} {a : α} {b : β}
    (hx : Returns x a) (hf : Returns (fun fuel => f fuel a) b) :
    Returns (fun fuel => x fuel >>= f fuel) b := by
  obtain ⟨bound, hbound⟩ := hx
  obtain ⟨bound', hbound'⟩ := hf
  refine ⟨max bound bound', ?_⟩
  intro fuel hfuel
  show x fuel >>= f fuel = _
  rw [hbound fuel (le_trans (Nat.le_max_left _ _) hfuel), value_bind]
  exact hbound' fuel (le_trans (Nat.le_max_right _ _) hfuel)

end Outcome

/-- The addresses from `base` to `base + size`. -/
structure Region where
  base : BitVec 64
  size : ℕ

namespace Region

/-- The word of `n` bytes at `a`, if all of them are in the region. -/
def read (r : Region) (mem : Memory) (a : BitVec 64) (n : ℕ) : Outcome ℕ :=
  if r.base.toNat ≤ a.toNat ∧ a.toNat + n ≤ r.base.toNat + r.size then .value (mem.load a n)
  else .outside

variable {r : Region} {mem : Memory} {n o : ℕ}

theorem read_of_inside (hr : r.base.toNat + r.size ≤ 2 ^ 64) (hn : 0 < n) (ho : o + n ≤ r.size) :
    r.read mem (r.base + BitVec.ofNat 64 o) n =
      .value (mem.load (r.base + BitVec.ofNat 64 o) n) := by
  have haddr : (r.base + BitVec.ofNat 64 o).toNat = r.base.toNat + o :=
    Memory.toNat_addr (by omega)
  rw [read, haddr, if_pos (by omega)]

theorem read_of_outside {a : BitVec 64}
    (h : ¬(r.base.toNat ≤ a.toNat ∧ a.toNat + n ≤ r.base.toNat + r.size)) :
    r.read mem a n = .outside := if_neg h

/-- An offset in 64 bits cannot lead back into the region from behind. -/
theorem read_offset (hr : r.base.toNat + r.size ≤ 2 ^ 64) (hn : 0 < n) (offset : BitVec 64) :
    r.read mem (r.base + offset) n =
      if offset.toNat + n ≤ r.size then .value (mem.load (r.base + offset) n) else .outside := by
  have haddr : (r.base + offset).toNat = (r.base.toNat + offset.toNat) % 2 ^ 64 :=
    toNat_add _ _
  have hbase := r.base.isLt
  have hoffset := offset.isLt
  unfold read
  by_cases h : offset.toNat + n ≤ r.size
  · rw [if_pos h, if_pos (by omega)]
  · rw [if_neg h, if_neg (by omega)]

end Region

end GnuOS.Lib
