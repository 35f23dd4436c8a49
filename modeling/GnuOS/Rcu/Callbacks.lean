import GnuOS.Lib.Fifo
import GnuOS.Lib.Handout
import GnuOS.Lib.Runs
import GnuOS.Rcu.Transitions

/-!
# Every callback is invoked once, with its own head

The callbacks are handed out to the calls of `rcu_process_callbacks` in the order in which their
heads were linked.  A pending head is at one place at a time: with the `call_rcu` that is to link
it, in the list, or with the call that is to invoke its callback.  So no other call writes to it,
and the function found at the invocation is the one that was registered.
-/

namespace GnuOS.Rcu

open GnuOS.Lib Function List

namespace Call

/-- The head and the function that `call_rcu` has stored and is to link. -/
def prepared : Call → Option (BitVec 64 × BitVec 64)
  | .linking head func => some (head, func)
  | _ => none

/-- The pending head that is with the call. -/
def pendingHead : Call → Option (BitVec 64)
  | .linking head _ => some head
  | .synchronizing callback => callback.map Prod.snd
  | .invoking _ head => some head
  | _ => none

def hasHead (a : BitVec 64) (c : Call) : Bool := c.pendingHead = some a

theorem held_of_runs (c : Call) (n : ℕ) (h : c.runs = some n) : ∃ b, c.held = some (n, b) := by
  cases c <;> simp [Call.runs] at h
  rename_i head
  exact ⟨head, by rw [Call.held, h]⟩

theorem pendingHead_of_prepared {c : Call} {a f : BitVec 64} (h : c.prepared = some (a, f)) :
    c.pendingHead = some a := by
  cases c <;> simp [Call.prepared] at h
  rw [Call.pendingHead, h.1]

/-- A callback that was dequeued and not invoked keeps its head pending. -/
theorem pendingHead_of_held {c : Call} {n : ℕ} {b : BitVec 64} (h : c.held = some (n, b))
    (hruns : c.runs ≠ some n) : c.pendingHead = some b := by
  cases c <;> simp [Call.held] at h
  case synchronizing => rw [Call.pendingHead, h, Option.map_some]
  case invoking => rw [Call.pendingHead, h.2]
  case invoked =>
    rw [h.1] at hruns
    exact absurd rfl hruns

theorem held_synchronized (callback : Option (ℕ × BitVec 64)) :
    (synchronized callback).held = callback := by
  cases callback <;> rfl

theorem runs_synchronized (callback : Option (ℕ × BitVec 64)) :
    (synchronized callback).runs = none := by
  cases callback <;> rfl

theorem prepared_synchronized (callback : Option (ℕ × BitVec 64)) :
    (synchronized callback).prepared = none := by
  cases callback <;> rfl

theorem pendingHead_synchronized (callback : Option (ℕ × BitVec 64)) :
    (synchronized callback).pendingHead = callback.map Prod.snd := by
  cases callback <;> rfl

/-- A step of one call changes the number of calls that have a head by what it changes for it. -/
theorem countP_hasHead_set {calls : List Call} {k : ℕ} {c : Call} (e : Call) (a : BitVec 64)
    (hk : calls[k]? = some c) :
    (calls.set k e).countP (hasHead a) + (if c.pendingHead = some a then 1 else 0) =
      calls.countP (hasHead a) + if e.pendingHead = some a then 1 else 0 := by
  simpa [hasHead] using countP_set_add (e := e) (hasHead a) hk

end Call

/-- The number of the callback and the head it was invoked with. -/
def Invocation.entry (r : Invocation) : ℕ × BitVec 64 := (r.n, r.head)

theorem map_fst_entry (l : List Invocation) :
    (l.map Invocation.entry).map Prod.fst = l.map Invocation.n := by
  rw [map_map]
  rfl

/-! ## The invariant -/

/-- The list holds `list`, and the calls and the logs agree with `place`. -/
structure Tracked (y : RcuSystem) (list : List (BitVec 64)) (place : ℕ → ItemPlace) : Prop where
  callbacks : CallbackList y.rcu list
  fifo : Fifo (y.links.map Link.head) y.dequeued list
  handout : Handout Call.held Call.runs y.calls y.dequeued (y.invocations.map Invocation.entry)
    y.completed place
  once : ∀ a, list.count a + y.calls.countP (Call.hasHead a) = if a ∈ y.pending then 1 else 0
  prepared : ∀ k a f, Shows Call.prepared y.calls k (a, f) →
    a ≠ 0#64 ∧ y.rcu.next a = 0#64 ∧ y.rcu.func a = f
  func : ∀ n link, y.links[n]? = some link → n ∉ y.invocations.map Invocation.n →
    y.rcu.func link.head = link.func
  own : ∀ r ∈ y.invocations, ∃ link, y.links[r.n]? = some link ∧ r.head = link.head ∧
    r.func = link.func
  queued : y.rcu.callbacksQueuedCount = BitVec.ofNat 64 y.links.length
  completed : y.rcu.callbacksCompletedCount = BitVec.ofNat 64 y.completed.length

namespace Tracked

variable {y y' : RcuSystem} {list : List (BitVec 64)} {place : ℕ → ItemPlace} {k n : ℕ}
  {c e : Call} {a head func : BitVec 64} {s : RcuState} {blockIfEmpty : Bool}

/-! ### Where the pending heads are -/

section

variable (h : Tracked y list place)

include h

theorem not_mem_list (ha : a ∉ y.pending) : a ∉ list := by
  have honce := h.once a
  rw [if_neg ha] at honce
  exact count_eq_zero.mp (by omega)

/-- A head that is with a call is pending and not in the list. -/
theorem head_of_call (hk : y.calls[k]? = some c) (hc : c.pendingHead = some a) :
    a ∈ y.pending ∧ a ∉ list := by
  have hpos : 0 < y.calls.countP (Call.hasHead a) :=
    countP_pos_iff.mpr ⟨c, mem_of_getElem? hk, by simp [Call.hasHead, hc]⟩
  have honce := h.once a
  have hpending : a ∈ y.pending := by
    by_contra ha
    rw [if_neg ha] at honce
    omega
  rw [if_pos hpending] at honce
  exact ⟨hpending, count_eq_zero.mp (by omega)⟩

theorem head_of_prepared {f : BitVec 64} (hk : Shows Call.prepared y.calls k (a, f)) :
    a ∈ y.pending ∧ a ∉ list := by
  rcases hk.exists with ⟨c, hc, hprepared⟩
  exact h.head_of_call hc (Call.pendingHead_of_prepared hprepared)

/-- The link of a callback that was dequeued. -/
theorem link_of_dequeued (hn : y.dequeued[n]? = some a) :
    ∃ link, y.links[n]? = some link ∧ link.head = a := by
  have hlinks : (y.links.map Link.head)[n]? = some a := by
    rw [← h.fifo.getElem?_outs (List.getElem?_eq_some_iff.mp hn).1]
    exact hn
  rw [getElem?_map, Option.map_eq_some_iff] at hlinks
  exact hlinks

/-- The head of a callback that has not been invoked is pending. -/
theorem head_pending {link : Link} (hn : y.links[n]? = some link)
    (hnot : n ∉ y.invocations.map Invocation.n) : link.head ∈ y.pending := by
  have hhead : (y.links.map Link.head)[n]? = some link.head := by
    rw [getElem?_map, hn, Option.map_some]
  rw [← map_fst_entry, h.handout.mem_ran] at hnot
  by_cases hlt : n < y.dequeued.length
  · cases hplace : place n with
    | pending => exact absurd ((h.handout.place_pending n).mp hplace) (by omega)
    | finished => exact absurd (.inl hplace) hnot
    | held k =>
      rcases (h.handout.place_held n k).mp hplace with ⟨b, hb⟩
      rcases hb.exists with ⟨c, hc, hheld⟩
      have hruns : c.runs ≠ some n := fun hr => hnot (.inr ⟨k, (shows_iff hc).mpr hr⟩)
      have hown := h.handout.own k n b hb
      rw [h.fifo.getElem?_outs hlt, hhead, Option.some.injEq] at hown
      rw [hown]
      exact (h.head_of_call hc (Call.pendingHead_of_held hheld hruns)).1
  · have hmem : link.head ∈ list := by
      rw [show y.links.map Link.head = y.dequeued ++ list from h.fifo,
        getElem?_append_right (by omega)] at hhead
      exact mem_of_getElem? hhead
    by_contra hpending
    exact h.not_mem_list hpending hmem

end

/-! ### The steps -/

section

variable (h : Tracked y list place)

include h

/-- A step that leaves the heads where they are. -/
theorem congr {r : BitVec 64} {calls : List Call}
    (hhandout : Handout Call.held Call.runs calls y.dequeued (y.invocations.map Invocation.entry)
      y.completed place)
    (honce : ∀ a, calls.countP (Call.hasHead a) = y.calls.countP (Call.hasHead a))
    (hprepared : ∀ k b, Shows Call.prepared calls k b → Shows Call.prepared y.calls k b) :
    Tracked { y with rcu := { y.rcu with readers := r }, calls := calls } list place where
  callbacks := h.callbacks
  fifo := h.fifo
  handout := hhandout
  once a := by
    rw [honce]
    exact h.once a
  prepared k a f hk := h.prepared k a f (hprepared k _ hk)
  func := h.func
  own := h.own
  queued := h.queued
  completed := h.completed

/-- A call begins. -/
theorem begin (r : BitVec 64) (hheld : c.held = none) (hruns : c.runs = none)
    (hhead : c.pendingHead = none) (hprepared : c.prepared = none) :
    Tracked { y with rcu := { y.rcu with readers := r }, calls := y.calls ++ [c] } list place := by
  refine h.congr (h.handout.begin hheld hruns) ?_ fun k b => (shows_concat_none hprepared).mp
  intro a
  rw [countP_concat, Call.hasHead, hhead]
  simp

/-- A step of a call that keeps its head and its callback. -/
theorem move (r : BitVec 64) (hk : y.calls[k]? = some c) (hheld : e.held = c.held)
    (hruns : e.runs = c.runs) (hhead : e.pendingHead = c.pendingHead)
    (hprepared : e.prepared = c.prepared) :
    Tracked { y with rcu := { y.rcu with readers := r }, calls := y.calls.set k e } list place := by
  refine h.congr (h.handout.move hk hheld hruns) ?_ fun k b => (shows_set_same hk hprepared).mp
  intro a
  apply countP_set_same hk
  rw [Call.hasHead, Call.hasHead, hhead]

/-- `call_rcu` stores to a head that is not pending. -/
theorem prepare (hhead : head ≠ 0#64) (hpending : head ∉ y.pending) :
    Tracked { y with
      rcu := callRcuPrepare y.rcu head func
      calls := y.calls ++ [.linking head func]
      pending := head :: y.pending } list place where
  callbacks := callRcuPrepare_list h.callbacks (h.not_mem_list hpending)
  fifo := h.fifo
  handout := h.handout.begin rfl rfl
  once a := by
    have honce := h.once a
    rw [countP_concat]
    by_cases ha : a = head
    · subst ha
      rw [if_neg hpending] at honce
      simp [Call.hasHead, Call.pendingHead]
      omega
    · simpa [Call.hasHead, Call.pendingHead, ha, Ne.symm ha] using honce
  prepared k a f hk := by
    rcases shows_concat_iff.mp hk with hj | ⟨_, heq⟩
    · have hne : a ≠ head := by
        rintro rfl
        exact hpending (h.head_of_prepared hj).1
      simp only [callRcuPrepare, update_of_ne hne]
      exact h.prepared k a f hj
    · simp only [Call.prepared, Option.some.injEq, Prod.mk.injEq] at heq
      rw [← heq.1, ← heq.2]
      simpa [callRcuPrepare] using hhead
  func n link hn hnot := by
    have hne : link.head ≠ head := by
      intro heq
      exact hpending (heq ▸ h.head_pending hn hnot)
    simp only [callRcuPrepare, update_of_ne hne]
    exact h.func n link hn hnot
  own := h.own
  queued := h.queued
  completed := h.completed

/-- `call_rcu` links its head. -/
theorem link (hk : y.calls[k]? = some (.linking head func)) (openAt : List ℕ) :
    Tracked { y with
      rcu := callRcuLocked y.rcu head
      calls := y.calls.set k (.returned true)
      links := y.links ++ [⟨head, func, openAt⟩] } (list ++ [head]) place := by
  have hshows : Shows Call.prepared y.calls k (head, func) := (shows_iff hk).mpr rfl
  obtain ⟨hne, hnext, hfunc⟩ := h.prepared k head func hshows
  have happended : Appended y.rcu list head (callRcuLocked y.rcu head) :=
    callRcuLocked_spec h.callbacks hne hnext (h.head_of_prepared hshows).2
  exact {
    callbacks := happended.callbacks
    fifo := by
      rw [map_append]
      exact h.fifo.put head
    handout := h.handout.move hk rfl rfl
    once := by
      intro a
      have hcount := Call.countP_hasHead_set (.returned true) a hk
      have honce := h.once a
      rw [count_append, count_singleton]
      simp only [Call.pendingHead, Option.some.injEq, reduceCtorEq, ↓reduceIte, beq_iff_eq]
        at hcount ⊢
      omega
    prepared := by
      intro j b f hj
      have hj' := ((shows_set_leave hk rfl).mp hj).2
      rw [happended.func, happended.next b (h.head_of_prepared hj').2]
      exact h.prepared j b f hj'
    func := by
      intro n link hn hnot
      rw [happended.func]
      rcases getElem?_concat_iff.mp hn with hn | ⟨_, rfl⟩
      · exact h.func n link hn hnot
      · exact hfunc
    own := by
      intro r hr
      rcases h.own r hr with ⟨link, hlink, hown⟩
      exact ⟨link, getElem?_concat_iff.mpr (.inl hlink), hown⟩
    queued := by
      rw [happended.queued, h.queued, length_append, length_singleton,
        BitVec.ofNat_add]
    completed := by
      rw [happended.completed]
      exact h.completed }

/-- Call `k` takes the first head of the list. -/
theorem dequeue (hk : y.calls[k]? = some (.dequeuing blockIfEmpty))
    (hdequeue : rcuDequeueLocked y.rcu = some (head, s)) :
    ∃ list' place', Tracked { y with
      rcu := s
      calls := y.calls.set k (.synchronizing (some (y.dequeued.length, head)))
      dequeued := y.dequeued ++ [head] } list' place' := by
  have hremoved := rcuDequeueLocked_spec h.callbacks hdequeue
  obtain ⟨list', hlist, hcallbacks⟩ := hremoved.callbacks
  refine ⟨list', update place y.dequeued.length (.held k), ?_⟩
  exact {
    callbacks := hcallbacks
    fifo := h.fifo.take hlist
    handout := h.handout.take hk rfl rfl rfl
    once := by
      intro a
      have hcount := Call.countP_hasHead_set (.synchronizing (some (y.dequeued.length, head))) a hk
      have honce := h.once a
      rw [hlist, count_cons] at honce
      simp only [Call.pendingHead, Option.map_some, Option.some.injEq, reduceCtorEq, ↓reduceIte,
        beq_iff_eq] at hcount honce ⊢
      omega
    prepared := by
      intro j b f hj
      have hj' : Shows Call.prepared y.calls j (b, f) :=
        (shows_set_same (e := .synchronizing (some (y.dequeued.length, head))) hk rfl).mp hj
      have hne : b ≠ head := by
        rintro rfl
        exact (h.head_of_prepared hj').2 (hlist ▸ mem_cons_self)
      rw [hremoved.func, hremoved.next b hne]
      exact h.prepared j b f hj'
    func := by
      rw [hremoved.func]
      exact h.func
    own := h.own
    queued := by
      rw [hremoved.queued]
      exact h.queued
    completed := by
      rw [hremoved.completed]
      exact h.completed }

/-- What call `k` finds when it invokes its callback. -/
theorem own_of_invoking (hk : y.calls[k]? = some (.invoking n head)) :
    ∃ link, y.links[n]? = some link ∧ head = link.head ∧ y.rcu.func head = link.func := by
  have hnot := h.handout.not_ran Call.held_of_runs hk rfl rfl
  rw [map_fst_entry] at hnot
  rcases h.link_of_dequeued (h.handout.own k n head ((shows_iff hk).mpr rfl)) with
    ⟨link, hlink, hhead⟩
  refine ⟨link, hlink, hhead.symm, ?_⟩
  rw [← hhead]
  exact h.func n link hlink hnot

/-- Call `k` invokes its callback. -/
theorem invoke (hk : y.calls[k]? = some (.invoking n head)) (openAt : List ℕ) :
    Tracked { y with
      calls := y.calls.set k (.invoked n head)
      pending := y.pending.filter (· ≠ head)
      invocations := y.invocations ++ [⟨n, head, y.rcu.func head, openAt⟩] } list place where
  callbacks := h.callbacks
  fifo := h.fifo
  handout := by
    rw [map_append]
    exact h.handout.run Call.held_of_runs hk rfl rfl rfl rfl
  once a := by
    have hcount := Call.countP_hasHead_set (.invoked n head) a hk
    have honce := h.once a
    simp only [Call.pendingHead, Option.some.injEq, reduceCtorEq, ↓reduceIte, mem_filter,
      decide_eq_true_eq] at hcount ⊢
    by_cases ha : head = a
    · subst ha
      rw [if_pos (h.head_of_call hk rfl).1] at honce
      simp only [↓reduceIte, ne_eq, not_true_eq_false, and_false] at hcount ⊢
      omega
    · simp only [ha, ↓reduceIte, ne_eq, Ne.symm ha, not_false_eq_true, and_true] at hcount ⊢
      omega
  prepared j b f hj := h.prepared j b f ((shows_set_same (e := .invoked n head) hk rfl).mp hj)
  func m link hm hnot := by
    apply h.func m link hm
    intro hmem
    exact hnot (by rw [map_append]; exact mem_append_left _ hmem)
  own r hr := by
    rcases mem_append.mp hr with hr | hr
    · exact h.own r hr
    · rw [mem_singleton] at hr
      rw [hr]
      exact h.own_of_invoking hk
  queued := h.queued
  completed := h.completed

/-- Call `k` counts its callback as completed. -/
theorem complete (hk : y.calls[k]? = some (.invoked n head)) :
    Tracked { y with
      rcu := rcuCompleteLocked y.rcu
      calls := y.calls.set k (.returned true)
      completed := y.completed ++ [n] } list (update place n .finished) where
  callbacks := h.callbacks
  fifo := h.fifo
  handout := h.handout.finish hk rfl rfl rfl rfl
  once a := by
    rw [countP_set_same (e := .returned true) hk rfl]
    exact h.once a
  prepared j b f hj := h.prepared j b f ((shows_set_same (e := .returned true) hk rfl).mp hj)
  func := h.func
  own := h.own
  queued := h.queued
  completed := by
    rw [rcuCompleteLocked, h.completed, length_append, length_singleton,
      BitVec.ofNat_add]

end

theorem start (s : RcuState) : Tracked (RcuSystem.start s) [] (fun _ => .pending) where
  callbacks := rcuInit_list
  fifo := Fifo.empty
  handout := Handout.empty
  once := by simp [RcuSystem.start]
  prepared := by simp [RcuSystem.start, Shows]
  func := by simp [RcuSystem.start]
  own := by simp [RcuSystem.start]
  queued := rfl
  completed := rfl

theorem step (h : Tracked y list place) {op : RcuOp} (hstep : Transition y op y') :
    ∃ list' place', Tracked y' list' place' := by
  cases hstep with
  | opens => exact ⟨list, place, h.begin _ rfl rfl rfl rfl⟩
  | refuses _ => exact ⟨list, place, h.begin y.rcu.readers rfl rfl rfl rfl⟩
  | prepares hhead hpending => exact ⟨list, place, h.prepare hhead hpending⟩
  | processes => exact ⟨list, place, h.begin y.rcu.readers rfl rfl rfl rfl⟩
  | synchronizes => exact ⟨list, place, h.begin y.rcu.readers rfl rfl rfl rfl⟩
  | abandons hk _ => exact ⟨list, place, h.move y.rcu.readers hk rfl rfl rfl rfl⟩
  | unlocks hk _ => exact ⟨list, place, h.move y.rcu.readers hk rfl rfl rfl rfl⟩
  | closes hk => exact ⟨list, place, h.move _ hk rfl rfl rfl rfl⟩
  | links hk => exact ⟨_, place, h.link hk _⟩
  | @empty k blockIfEmpty hk _ =>
    refine ⟨list, place, h.move y.rcu.readers hk ?_ ?_ ?_ ?_⟩ <;> cases blockIfEmpty <;> rfl
  | dequeues hk hdequeue => exact h.dequeue hk hdequeue
  | waits _ _ => exact ⟨list, place, h⟩
  | passes hk _ =>
    exact ⟨list, place, h.move y.rcu.readers hk (Call.held_synchronized _)
      (Call.runs_synchronized _) (Call.pendingHead_synchronized _) (Call.prepared_synchronized _)⟩
  | invokes hk => exact ⟨list, place, h.invoke hk _⟩
  | completes hk => exact ⟨list, _, h.complete hk⟩

end Tracked

/-! ## The callbacks in every state -/

/-- What holds of the callbacks in every state. -/
structure CallbacksInOrder (y : RcuSystem) (l : List (BitVec 64)) : Prop where
  /-- `call_rcu` links the head that it is called with, and registers the function for it. -/
  begun : ∀ head func y', head ≠ 0#64 → func ≠ 0#64 → y.step (.callRcu head func) = some y' →
    y'.calls = y.calls ++ [.linking head func]
  linked : ∀ k head func y', y.calls[k]? = some (.linking head func) →
    y.step (.resume k) = some y' → y'.links = y.links ++ [⟨head, func, openSections y.calls⟩]
  /-- The tail is the last node of the list from the head. -/
  callbacks : CallbackList y.rcu l
  /-- The heads are dequeued in the order in which they were linked. -/
  order : y.links.map Link.head = y.dequeued ++ l
  /-- A callback is invoked at most once, after it was dequeued, ... -/
  once : (y.invocations.map Invocation.n).Nodup
  dequeued : ∀ r ∈ y.invocations, y.dequeued[r.n]? = some r.head
  /-- ... with its own head, and by the function registered for it. -/
  own : ∀ r ∈ y.invocations, ∃ link, y.links[r.n]? = some link ∧ r.head = link.head ∧
    r.func = link.func
  accounting : rcuCallbacksQueued y.rcu = rcuCallbacksCompleted y.rcu + BitVec.ofNat 64 l.length +
    BitVec.ofNat 64 (y.calls.countP Call.isHolding)

theorem Tracked.inOrder {y : RcuSystem} {list : List (BitVec 64)} {place : ℕ → ItemPlace}
    (h : Tracked y list place) : CallbacksInOrder y list where
  begun head func y' hhead hfunc hstep := by
    rw [RcuSystem.step, if_neg (not_or.mpr ⟨hhead, hfunc⟩)] at hstep
    split at hstep
    · cases hstep
    · cases hstep
      rfl
  linked k head func y' hk hstep := by
    rw [RcuSystem.step, hk] at hstep
    cases hstep
    rfl
  callbacks := h.callbacks
  order := h.fifo
  once := by
    rw [← map_fst_entry]
    exact h.handout.ranNodup
  dequeued r hr := h.handout.ranOwn r.n r.head (mem_map_of_mem hr)
  own := h.own
  accounting := by
    have hcount : y.dequeued.length = y.completed.length + y.calls.countP Call.isHolding :=
      h.handout.count
    have hlength := h.fifo.length_eq
    rw [length_map] at hlength
    have hlinks : y.links.length =
        y.completed.length + list.length + y.calls.countP Call.isHolding := by omega
    rw [rcuCallbacksQueued, rcuCallbacksCompleted, h.queued, h.completed, hlinks, BitVec.ofNat_add,
      BitVec.ofNat_add]

theorem tracked_run {s : RcuState} {ops : List RcuOp} {y : RcuSystem}
    (hrun : ops.foldlM RcuSystem.step (RcuSystem.start s) = some y) :
    ∃ list place, Tracked y list place := by
  refine run_invariant (P := fun y => ∃ list place, Tracked y list place) ?_
    ⟨_, _, .start s⟩ hrun
  intro y₁ op y₂ hy₁ hstep
  rcases hy₁ with ⟨list, place, h⟩
  exact h.step (.of_step hstep)

end GnuOS.Rcu
