import Mathlib.Data.List.Basic

/-!
# First in, first out

What went into a buffer, what came out of it and what it still holds.  The buffer is a queue when
the elements that went in are those that came out followed by those it holds: nothing is lost,
duplicated or reordered.
-/

namespace GnuOS.Lib

variable {α : Type*}

/-- What went in is what came out and then what is held, in this order. -/
def Fifo (ins outs held : List α) : Prop := ins = outs ++ held

namespace Fifo

variable {ins outs held held' : List α} {a : α} {n : ℕ}

theorem empty : Fifo ([] : List α) [] [] := rfl

section

variable (h : Fifo ins outs held)

include h

theorem put (a : α) : Fifo (ins ++ [a]) outs (held ++ [a]) := by
  rw [Fifo, show ins = outs ++ held from h, List.append_assoc]

theorem take (hheld : held = a :: held') :
    Fifo ins (outs ++ [a]) held' := by
  rw [Fifo, show ins = outs ++ held from h, hheld, List.append_assoc, List.singleton_append]

theorem length_eq : ins.length = outs.length + held.length := by
  rw [show ins = outs ++ held from h, List.length_append]

/-- The element that comes out next is the first one that has not come out. -/
theorem next (hheld : held = a :: held') :
    ins[outs.length]? = some a := by
  rw [show ins = outs ++ held from h, hheld]
  simp

/-- What came out at a position is what went in there. -/
theorem getElem?_outs (hn : n < outs.length) : outs[n]? = ins[n]? := by
  rw [show ins = outs ++ held from h, List.getElem?_append_left hn]

end

end Fifo

end GnuOS.Lib
