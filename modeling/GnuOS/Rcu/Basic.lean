import GnuOS.Lib.Pool

/-!
# Read-copy-update

A model of `kernel/lib/rcu.c`, and the system of its calls.  A call is a sequence of atomic steps:
the atomic operations on the reader counter, the critical sections under `g_rcu_lock`, and the call
of a callback.  `sched_yield` inside the loops changes nothing here.

The two fields of the `rcu_head_t` objects are functions of their address; distinct objects do not
overlap.
-/

namespace GnuOS.Rcu

open GnuOS.Lib

/-! ## The functions -/

structure RcuState where
  readers : BitVec 64
  callbacksHead : BitVec 64
  callbacksTail : BitVec 64
  callbacksQueuedCount : BitVec 64
  callbacksCompletedCount : BitVec 64
  next : BitVec 64 → BitVec 64
  func : BitVec 64 → BitVec 64

def rcuInit (s : RcuState) : RcuState :=
  { s with
    readers := 0#64
    callbacksHead := 0#64
    callbacksTail := 0#64
    callbacksQueuedCount := 0#64
    callbacksCompletedCount := 0#64 }

def rcuReadLock (s : RcuState) : RcuState := { s with readers := s.readers + 1#64 }

/-- The decrement of `rcu_read_unlock`, after it has read a nonzero counter. -/
def rcuReadUnlockSub (s : RcuState) : RcuState := { s with readers := s.readers - 1#64 }

/-- The stores of `call_rcu` before it takes the lock. -/
def callRcuPrepare (s : RcuState) (head func : BitVec 64) : RcuState :=
  { s with func := Function.update s.func head func, next := Function.update s.next head 0#64 }

/-- The critical section of `call_rcu`. -/
def callRcuLocked (s : RcuState) (head : BitVec 64) : RcuState :=
  let linked :=
    if s.callbacksHead = 0#64 then { s with callbacksHead := head, callbacksTail := head }
    else
      { s with next := Function.update s.next s.callbacksTail head, callbacksTail := head }
  { linked with callbacksQueuedCount := linked.callbacksQueuedCount + 1#64 }

/-- The first critical section of `rcu_process_callbacks`; `none` is a null `callback`. -/
def rcuDequeueLocked (s : RcuState) : Option (BitVec 64 × RcuState) :=
  if s.callbacksHead = 0#64 then none
  else
    let callback := s.callbacksHead
    let head := s.next callback
    some (callback, { s with
      callbacksHead := head
      callbacksTail := if head = 0#64 then 0#64 else s.callbacksTail
      next := Function.update s.next callback 0#64 })

/-- The last critical section of `rcu_process_callbacks`. -/
def rcuCompleteLocked (s : RcuState) : RcuState :=
  { s with callbacksCompletedCount := s.callbacksCompletedCount + 1#64 }

def rcuCallbacksQueued (s : RcuState) : BitVec 64 := s.callbacksQueuedCount

def rcuCallbacksCompleted (s : RcuState) : BitVec 64 := s.callbacksCompletedCount

/-! ## Calls -/

/-- How far a read-side section or a call has got.  The number of a callback is its position in
the order in which `call_rcu` linked the heads. -/
inductive Call
  /-- Between `rcu_read_lock` and `rcu_read_unlock`. -/
  | reading
  /-- `rcu_read_unlock` has read a nonzero counter. -/
  | unlocking
  | closed
  /-- `call_rcu` has stored to the head; it is still to be linked. -/
  | linking (head func : BitVec 64)
  /-- At the top of the loop of `rcu_process_callbacks`. -/
  | dequeuing (blockIfEmpty : Bool)
  /-- In the loop of `synchronize_rcu`, with the callback that waits for it when the caller is
  `rcu_process_callbacks`. -/
  | synchronizing (callback : Option (ℕ × BitVec 64))
  /-- `synchronize_rcu` has returned; the callback is still to be invoked. -/
  | invoking (n : ℕ) (head : BitVec 64)
  /-- The callback was invoked; it is still to be counted. -/
  | invoked (n : ℕ) (head : BitVec 64)
  | returned (result : Bool)
  deriving DecidableEq, Repr

namespace Call

/-- Where `synchronize_rcu` returns to. -/
def synchronized : Option (ℕ × BitVec 64) → Call
  | none => .returned true
  | some (n, head) => .invoking n head

/-- A read-side section that has not ended. -/
def isOpen : Call → Bool
  | .reading => true
  | .unlocking => true
  | _ => false

/-- The callback that was dequeued and has not been completed. -/
def held : Call → Option (ℕ × BitVec 64)
  | .synchronizing callback => callback
  | .invoking n head => some (n, head)
  | .invoked n head => some (n, head)
  | _ => none

def isHolding (c : Call) : Bool := c.held.isSome

/-- The callback that has been invoked and not counted. -/
def runs : Call → Option ℕ
  | .invoked n _ => some n
  | _ => none

end Call

/-- The positions of the open read-side sections. -/
def openSections (calls : List Call) : List ℕ :=
  (List.range calls.length).filter fun k => (calls[k]?).any Call.isOpen

/-! ## The system -/

/-- A head linked by `call_rcu`, with the sections open at that moment. -/
structure Link where
  head : BitVec 64
  func : BitVec 64
  openAt : List ℕ
  deriving DecidableEq, Repr

/-- The function invoked for a callback with its argument, and the sections open at that moment. -/
structure Invocation where
  n : ℕ
  head : BitVec 64
  func : BitVec 64
  openAt : List ℕ
  deriving DecidableEq, Repr

/-- The state with its calls, and what happened so far: the heads linked and dequeued in this order,
the callbacks invoked and completed, and the heads that were given to `call_rcu` and whose callback
has not been invoked. -/
structure RcuSystem where
  rcu : RcuState
  calls : List Call
  pending : List (BitVec 64)
  links : List Link
  dequeued : List (BitVec 64)
  invocations : List Invocation
  completed : List ℕ

inductive RcuOp
  | readLock
  | callRcu (head func : BitVec 64)
  | processCallbacks (blockIfEmpty : Bool)
  | synchronizeRcu
  /-- The next step of call `k`; a section that is being read takes the first one of
  `rcu_read_unlock`. -/
  | resume (k : ℕ)

namespace RcuSystem

/-- After `rcu_init`. -/
def start (s : RcuState) : RcuSystem where
  rcu := rcuInit s
  calls := []
  pending := []
  links := []
  dequeued := []
  invocations := []
  completed := []

def resumeCall (y : RcuSystem) (k : ℕ) : Call → Option RcuSystem
  | .reading =>
    let next := if y.rcu.readers = 0#64 then .closed else .unlocking
    some { y with calls := y.calls.set k next }
  | .unlocking => some { y with rcu := rcuReadUnlockSub y.rcu, calls := y.calls.set k .closed }
  | .closed => none
  | .linking head func =>
    some { y with
      rcu := callRcuLocked y.rcu head
      calls := y.calls.set k (.returned true)
      links := y.links ++ [⟨head, func, openSections y.calls⟩] }
  | .dequeuing blockIfEmpty =>
    match rcuDequeueLocked y.rcu with
    | none =>
      let next := if blockIfEmpty then .dequeuing blockIfEmpty else .returned false
      some { y with calls := y.calls.set k next }
    | some (callback, rcu) =>
      some { y with
        rcu := rcu
        calls := y.calls.set k (.synchronizing (some (y.dequeued.length, callback)))
        dequeued := y.dequeued ++ [callback] }
  | .synchronizing callback =>
    if y.rcu.readers = 0#64 then
      some { y with calls := y.calls.set k (.synchronized callback) }
    else some y
  | .invoking n head =>
    some { y with
      calls := y.calls.set k (.invoked n head)
      pending := y.pending.filter (· ≠ head)
      invocations := y.invocations ++ [⟨n, head, y.rcu.func head, openSections y.calls⟩] }
  | .invoked n _ =>
    some { y with
      rcu := rcuCompleteLocked y.rcu
      calls := y.calls.set k (.returned true)
      completed := y.completed ++ [n] }
  | .returned _ => none

/-- `call_rcu` is not called for a pending head. -/
def step (y : RcuSystem) : RcuOp → Option RcuSystem
  | .readLock => some { y with rcu := rcuReadLock y.rcu, calls := y.calls ++ [.reading] }
  | .callRcu head func =>
    if head = 0#64 ∨ func = 0#64 then some { y with calls := y.calls ++ [.returned false] }
    else if head ∈ y.pending then none
    else
      some { y with
        rcu := callRcuPrepare y.rcu head func
        calls := y.calls ++ [.linking head func]
        pending := head :: y.pending }
  | .processCallbacks blockIfEmpty =>
    some { y with calls := y.calls ++ [.dequeuing blockIfEmpty] }
  | .synchronizeRcu => some { y with calls := y.calls ++ [.synchronizing none] }
  | .resume k => (y.calls[k]?).bind (y.resumeCall k)

end RcuSystem

end GnuOS.Rcu
