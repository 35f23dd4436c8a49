import GnuOS.Lib.Bytes

/-!
# Tables of entries

The entries of a table stand one after the other.  Each begins with a byte for its type and a byte
for its length, which counts these two bytes as well.  Nothing else says how many entries there are:
they end where the bytes that are left do not begin with an entry.

`entryLoop` is the loop that goes over them with a cursor of 64 bits.  If no sum of an address of
the table and a length wraps around, it does with the entries what `forIn` does with their list.
-/

namespace GnuOS.Lib

open List

variable {bytes rest table e : List (BitVec 8)} {entries : List (List (BitVec 8))}

/-- An entry with all of its bytes is at the start. -/
def StartsEntry (bytes : List (BitVec 8)) : Prop :=
  2 ≤ bytes.length ∧ 2 ≤ fieldOf bytes 1 1 ∧ fieldOf bytes 1 1 ≤ bytes.length

/-- The bytes are these entries, up to the first that is shorter than its header or runs past the
end. -/
structure Entries (bytes : List (BitVec 8)) (entries : List (List (BitVec 8)))
    (rest : List (BitVec 8)) : Prop where
  split : bytes = entries.flatten ++ rest
  whole : ∀ e ∈ entries, 2 ≤ e.length ∧ fieldOf e 1 1 = e.length
  stops : ¬StartsEntry rest

/-! ## Fields of an entry -/

theorem fieldOf_drop (bytes : List (BitVec 8)) (o k n : ℕ) :
    fieldOf (bytes.drop o) k n = fieldOf bytes (o + k) n := by
  rw [fieldOf, fieldOf, drop_drop]

theorem fieldOf_append {k n : ℕ} (h : k + n ≤ e.length) :
    fieldOf (e ++ rest) k n = fieldOf e k n := by
  rw [fieldOf, fieldOf, drop_append_of_le_length (by omega),
    take_append_of_le_length (by rw [length_drop]; omega)]

/-- The entry `e` is in the table at an offset. -/
def EntryAt (table : List (BitVec 8)) (o : ℕ) (e : List (BitVec 8)) : Prop :=
  ∃ after, table.drop o = e ++ after

theorem EntryAt.field {o k n : ℕ} (h : EntryAt table o e) (hk : k + n ≤ e.length) :
    fieldOf table (o + k) n = fieldOf e k n := by
  obtain ⟨after, hdrop⟩ := h
  rw [← fieldOf_drop, hdrop, fieldOf_append hk]

theorem EntryAt.le {o : ℕ} (h : EntryAt table o e) (he : 0 < e.length) :
    o + e.length ≤ table.length := by
  obtain ⟨after, hdrop⟩ := h
  have hlength := congrArg length hdrop
  rw [length_drop, length_append] at hlength
  omega

/-! ## Lists of entries -/

namespace Entries

theorem tail (h : Entries bytes (e :: entries) rest) :
    Entries (bytes.drop e.length) entries rest where
  split := by rw [h.split, flatten_cons, append_assoc, drop_left]
  whole e' he' := h.whole e' (mem_cons_of_mem _ he')
  stops := h.stops

theorem head {o : ℕ} (h : Entries (table.drop o) (e :: entries) rest) : EntryAt table o e :=
  ⟨entries.flatten ++ rest, by rw [h.split, flatten_cons, append_assoc]⟩

/-- Each entry takes two bytes at least. -/
theorem length_le (h : Entries bytes entries rest) : 2 * entries.length ≤ bytes.length := by
  induction entries generalizing bytes with
  | nil => exact Nat.zero_le _
  | cons e entries ih =>
    have htail := ih h.tail
    have hwhole := (h.whole e mem_cons_self).1
    have hle := (show EntryAt bytes 0 e from head (by rwa [drop_zero])).le (by omega)
    rw [length_drop] at htail
    rw [length_cons]
    omega

/-- Every list of bytes begins with entries, possibly none. -/
theorem exists_of_bytes (bytes : List (BitVec 8)) :
    ∃ entries rest, Entries bytes entries rest := by
  induction hlength : bytes.length using Nat.strong_induction_on generalizing bytes with
  | _ n ih =>
    by_cases hstarts : StartsEntry bytes
    · obtain ⟨hheader, hlow, hhigh⟩ := hstarts
      set length := fieldOf bytes 1 1
      have htake : (bytes.take length).length = length := length_take_of_le hhigh
      have hkept : fieldOf (bytes.take length ++ bytes.drop length) 1 1 =
          fieldOf (bytes.take length) 1 1 := fieldOf_append (by omega)
      rw [take_append_drop] at hkept
      obtain ⟨entries, rest, htail⟩ := ih (bytes.length - length) (by omega)
        (bytes.drop length) (length_drop ..)
      refine ⟨bytes.take length :: entries, rest, ?_, ?_, htail.stops⟩
      · rw [flatten_cons, append_assoc, ← htail.split, take_append_drop]
      · intro e he
        rcases mem_cons.mp he with rfl | he
        · rw [htake]
          exact ⟨hlow, hkept.symm⟩
        · exact htail.whole e he
    · exact ⟨[], bytes, rfl, fun e he => absurd he not_mem_nil, hstarts⟩

end Entries

/-! ## The loop -/

/-- The loop over the entries from `cursor` to `tableEnd`.  The body is given the address and the
length of an entry, and says whether the loop goes on. -/
def entryLoop {σ : Type} (r : Region) (mem : Memory) (tableEnd : BitVec 64)
    (body : BitVec 64 → ℕ → σ → Outcome (ForInStep σ)) : ℕ → BitVec 64 → σ → Outcome σ
  | 0, _, _ => .unfinished
  | fuel + 1, cursor, s =>
    if cursor + 2#64 ≤ tableEnd then do
      let length ← r.read mem (cursor + 1#64) 1
      if length < 2 then .value s
      else if tableEnd < cursor + BitVec.ofNat 64 length then .value s
      else do
        let step ← body cursor length s
        match step with
        | .done s => .value s
        | .yield s => entryLoop r mem tableEnd body fuel (cursor + BitVec.ofNat 64 length) s
    else .value s

/-- The bytes of the region, with room for one more entry behind them. -/
structure Region.Holds (r : Region) (mem : Memory) (table : List (BitVec 8)) : Prop where
  size : r.size = table.length
  below : r.base.toNat + r.size + 256 ≤ 2 ^ 64
  bytes : mem.BytesAt r.base table

section

variable {r : Region} {mem : Memory} {k n o : ℕ}

theorem Region.Holds.read (h : r.Holds mem table) (hn : 0 < n) (hk : k + n ≤ table.length) :
    r.read mem (r.base + BitVec.ofNat 64 k) n = .value (fieldOf table k n) := by
  have hbelow := h.below
  rw [Region.read_of_inside (by omega) hn (by rw [h.size]; exact hk), h.bytes.load hk]

/-- A field of an entry. -/
theorem Region.Holds.read_entry (h : r.Holds mem table) (hat : EntryAt table o e) (hn : 0 < n)
    (hk : k + n ≤ e.length) :
    r.read mem (r.base + BitVec.ofNat 64 o + BitVec.ofNat 64 k) n = .value (fieldOf e k n) := by
  have hle := hat.le (by omega)
  rw [Memory.addr_add, h.read hn (by omega), hat.field hk]

theorem Region.Holds.addr_le (h : r.Holds mem table) (hk : k ≤ table.length + 255) :
    r.base + BitVec.ofNat 64 k ≤ r.base + BitVec.ofNat 64 table.length ↔ k ≤ table.length := by
  have hbelow := h.below
  have hsize := h.size
  rw [BitVec.le_def, Memory.toNat_addr (by omega), Memory.toNat_addr (by omega)]
  omega

variable {σ : Type} {body : BitVec 64 → ℕ → σ → Outcome (ForInStep σ)}

/-- One round of the loop, with the cursor in the table. -/
theorem entryLoop_succ (h : r.Holds mem table) (ho : o ≤ table.length) (fuel : ℕ) (s : σ) :
    entryLoop r mem (r.base + BitVec.ofNat 64 table.length) body (fuel + 1)
        (r.base + BitVec.ofNat 64 o) s =
      if o + 2 ≤ table.length then
        if fieldOf table (o + 1) 1 < 2 then .value s
        else if table.length < o + fieldOf table (o + 1) 1 then .value s
        else body (r.base + BitVec.ofNat 64 o) (fieldOf table (o + 1) 1) s >>= fun
          | .done s => .value s
          | .yield s =>
            entryLoop r mem (r.base + BitVec.ofNat 64 table.length) body fuel
              (r.base + BitVec.ofNat 64 (o + fieldOf table (o + 1) 1)) s
      else .value s := by
  rw [entryLoop, show (2#64 : BitVec 64) = BitVec.ofNat 64 2 from rfl,
    show (1#64 : BitVec 64) = BitVec.ofNat 64 1 from rfl, Memory.addr_add, Memory.addr_add]
  by_cases hheader : o + 2 ≤ table.length
  · have hfield := fieldOf_lt table (o + 1) 1
    rw [if_pos ((h.addr_le (by omega)).mpr hheader), if_pos hheader, h.read Nat.one_pos (by omega),
      Outcome.value_bind, Memory.addr_add]
    by_cases hshort : fieldOf table (o + 1) 1 < 2
    · rw [if_pos hshort, if_pos hshort]
    · rw [if_neg hshort, if_neg hshort]
      by_cases hpast : table.length < o + fieldOf table (o + 1) 1
      · rw [if_pos hpast, if_pos]
        rw [← BitVec.not_le, h.addr_le (by omega)]
        omega
      · rw [if_neg hpast, if_neg]
        rw [BitVec.not_lt, h.addr_le (by omega)]
        omega
  · rw [if_neg hheader, if_neg]
    rw [h.addr_le (by omega)]
    exact hheader

/-- The loop visits the entries of the table, if it is given a round for each and one more. -/
theorem entryLoop_eq_forIn (h : r.Holds mem table) (hentries : Entries (table.drop o) entries rest)
    (ho : o ≤ table.length) {visit : List (BitVec 8) → σ → Outcome (ForInStep σ)}
    (hbody : ∀ o e s, EntryAt table o e → 2 ≤ e.length → fieldOf e 1 1 = e.length →
      body (r.base + BitVec.ofNat 64 o) e.length s = visit e s)
    {fuel : ℕ} (hfuel : entries.length < fuel) (s : σ) :
    entryLoop r mem (r.base + BitVec.ofNat 64 table.length) body fuel
      (r.base + BitVec.ofNat 64 o) s = forIn entries s visit := by
  induction entries generalizing o fuel s with
  | nil =>
    obtain ⟨fuel, rfl⟩ := Nat.exists_eq_succ_of_ne_zero (Nat.ne_of_gt hfuel)
    have hstops := hentries.stops
    rw [show rest = table.drop o from hentries.split.symm, StartsEntry, length_drop,
      fieldOf_drop] at hstops
    rw [entryLoop_succ h ho, forIn_nil]
    split_ifs
    · rfl
    · rfl
    · omega
    · rfl
  | cons e entries ih =>
    obtain ⟨fuel, rfl⟩ := Nat.exists_eq_succ_of_ne_zero (Nat.ne_of_gt (Nat.zero_lt_of_lt hfuel))
    obtain ⟨hlow, hlength⟩ := hentries.whole e mem_cons_self
    have hat := hentries.head
    have hle := hat.le (by omega)
    have htail : Entries (table.drop (o + e.length)) entries rest := by
      rw [← drop_drop]
      exact hentries.tail
    rw [entryLoop_succ h ho, hat.field (by omega), hlength, if_pos (by omega), if_neg (by omega),
      if_neg (by omega), hbody o e s hat hlow hlength, forIn_cons]
    congr 1
    funext step
    cases step with
    | done s => rfl
    | yield s => exact ih htail hle (Nat.lt_of_succ_lt_succ hfuel) s

end

end GnuOS.Lib
