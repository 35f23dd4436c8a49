import GnuOS.Libc.Descriptors

/-!
# Semaphores of the libc stub

A model of the semaphore functions in `userspace/libc/ldso/x86_64/libc_stub.c`; `ldso_bootstrap.c`
holds the same text.  A semaphore is a 32-bit counter, and no call blocks: a wait on a counter at
zero fails with `EAGAIN`.

`sem_post` refuses to count past the largest value by comparing the counter with it for equality,
while `sem_init` stores any value.  A semaphore that starts above the largest value is therefore
counted on by every post, up to a wrap to zero.  The semaphore counts what has been posted and
waited for exactly when it started at or below that value.
-/

namespace GnuOS.Libc

open List BitVec Function

/-! ## The functions -/

def gnuosSemEagain : BitVec 32 := 11#32
def gnuosSemEoverflow : BitVec 32 := 75#32
def gnuosSemValueMax : BitVec 32 := 0x7FFFFFFF#32

/-- The semaphores of the program by their place in memory, and `g_errno_value`. -/
structure SemState where
  value : ℕ → BitVec 32
  errnoValue : BitVec 32

namespace SemState

/-- `gnuos_fail_int`. -/
def fail (s : SemState) (error : BitVec 32) : BitVec 32 × SemState :=
  (-1#32, { s with errnoValue := error })

/-- `sem->__value = value`. -/
def set (s : SemState) (sem : ℕ) (value : BitVec 32) : SemState :=
  { s with value := update s.value sem value }

theorem fail_ret (s : SemState) (error : BitVec 32) : (s.fail error).1 ≠ 0#32 := by
  show -1#32 ≠ 0#32
  decide

@[simp] theorem set_value (s : SemState) (sem : ℕ) (value : BitVec 32) :
    (s.set sem value).value = update s.value sem value := rfl

end SemState

/-- A null pointer is `none`. -/
def semInit (s : SemState) (sem : Option ℕ) (pshared value : BitVec 32) : BitVec 32 × SemState :=
  match sem with
  | none => s.fail gnuosPthreadEinval
  | some sem =>
    if pshared ≠ 0#32 then s.fail gnuosPthreadEnosys
    else (0#32, s.set sem value)

def semWait (s : SemState) (sem : Option ℕ) : BitVec 32 × SemState :=
  match sem with
  | none => s.fail gnuosPthreadEinval
  | some sem =>
    if s.value sem = 0#32 then s.fail gnuosSemEagain
    else (0#32, s.set sem (s.value sem - 1#32))

def semTrywait (s : SemState) (sem : Option ℕ) : BitVec 32 × SemState := semWait s sem

def semPost (s : SemState) (sem : Option ℕ) : BitVec 32 × SemState :=
  match sem with
  | none => s.fail gnuosPthreadEinval
  | some sem =>
    if s.value sem = gnuosSemValueMax then s.fail gnuosSemEoverflow
    else (0#32, s.set sem (s.value sem + 1#32))

/-- With what is stored in `*sval`, if anything; `sval` says whether that pointer is not null. -/
def semGetvalue (s : SemState) (sem : Option ℕ) (sval : Bool) :
    BitVec 32 × Option (BitVec 32) × SemState :=
  match sem, sval with
  | some sem, true => (0#32, some (s.value sem), s)
  | _, _ => let (ret, s) := s.fail gnuosPthreadEinval; (ret, none, s)

/-! ## Runs -/

inductive SemCall
  | wait (sem : Option ℕ)
  | trywait (sem : Option ℕ)
  | post (sem : Option ℕ)
  | getvalue (sem : Option ℕ) (sval : Bool)
  deriving DecidableEq, Repr

/-- A call with what it returned and what it stored. -/
structure SemEvent where
  call : SemCall
  ret : BitVec 32
  sval : Option (BitVec 32)
  deriving DecidableEq, Repr

def semStep (s : SemState) (call : SemCall) : SemEvent × SemState :=
  match call with
  | .wait sem => let (ret, s) := semWait s sem; (⟨call, ret, none⟩, s)
  | .trywait sem => let (ret, s) := semTrywait s sem; (⟨call, ret, none⟩, s)
  | .post sem => let (ret, s) := semPost s sem; (⟨call, ret, none⟩, s)
  | .getvalue sem sval => let (ret, v, s) := semGetvalue s sem sval; (⟨call, ret, v⟩, s)

/-- The semaphores, and the calls that were made, oldest first. -/
structure SemRun where
  state : SemState
  events : List SemEvent

def SemRun.step (r : SemRun) (call : SemCall) : SemRun :=
  let (event, state) := semStep r.state call
  ⟨state, r.events ++ [event]⟩

def semRun (s : SemState) (calls : List SemCall) : SemRun := calls.foldl SemRun.step ⟨s, []⟩

theorem semRun_concat (s : SemState) (calls : List SemCall) (call : SemCall) :
    semRun s (calls ++ [call]) = (semRun s calls).step call := by
  simp only [semRun, foldl_append, foldl_cons, foldl_nil]

/-! ## The counting law -/

/-- The event is a successful post on the semaphore. -/
def SemEvent.posts (sem : ℕ) (e : SemEvent) : Bool := e.call = .post (some sem) ∧ e.ret = 0#32

/-- The event is a successful wait on the semaphore, blocking or not. -/
def SemEvent.waits (sem : ℕ) (e : SemEvent) : Bool :=
  (e.call = .wait (some sem) ∨ e.call = .trywait (some sem)) ∧ e.ret = 0#32

/-- What the history says about a semaphore that started at `v`. -/
structure CountingLaw (sem : ℕ) (v : BitVec 32) (r : SemRun) : Prop where
  bounded : r.state.value sem ≤ gnuosSemValueMax
  conserved : (r.state.value sem).toNat + r.events.countP (SemEvent.waits sem) =
    v.toNat + r.events.countP (SemEvent.posts sem)
  noExcess : r.events.countP (SemEvent.waits sem) ≤
    v.toNat + r.events.countP (SemEvent.posts sem)
  reported : ∀ e ∈ r.events, ∀ sval, e.call = .getvalue (some sem) sval → ∀ x, e.sval = some x →
    0 ≤ x.toInt

/-! ## One call -/

/-- What a call can do to the semaphore `sem`, and what its event counts for. -/
inductive SemEffect (s : SemState) (sem : ℕ) (e : SemEvent) : BitVec 32 → Prop
  | kept (hpost : e.posts sem = false) (hwait : e.waits sem = false)
    (hsval : ∀ sval, e.call = .getvalue (some sem) sval → ∀ x, e.sval = some x → x = s.value sem) :
    SemEffect s sem e (s.value sem)
  | waited (hpost : e.posts sem = false) (hwait : e.waits sem = true) (hsval : e.sval = none)
    (hvalue : s.value sem ≠ 0#32) : SemEffect s sem e (s.value sem - 1#32)
  | posted (hpost : e.posts sem = true) (hwait : e.waits sem = false) (hsval : e.sval = none)
    (hvalue : s.value sem ≠ gnuosSemValueMax) : SemEffect s sem e (s.value sem + 1#32)

theorem semWait_effect (s : SemState) (target : Option ℕ) (sem : ℕ) (call : SemCall)
    (hcall : call = .wait target ∨ call = .trywait target) :
    SemEffect s sem ⟨call, (semWait s target).1, none⟩ ((semWait s target).2.value sem) := by
  have hposts (ret : BitVec 32) : SemEvent.posts sem ⟨call, ret, none⟩ = false := by
    rcases hcall with rfl | rfl <;> simp [SemEvent.posts]
  -- a call that fails, or is about another semaphore, is not counted
  have hother (ret : BitVec 32) (h : target ≠ some sem ∨ ret ≠ 0#32) :
      SemEvent.waits sem ⟨call, ret, none⟩ = false := by
    rcases hcall with rfl | rfl <;> simp [SemEvent.waits] <;> tauto
  rcases target with _ | i
  · exact .kept (hposts _) (hother _ (.inr (s.fail_ret _))) (by simp)
  · unfold semWait
    by_cases hzero : s.value i = 0#32
    · simp only [hzero, if_true]
      exact .kept (hposts _) (hother _ (.inr (s.fail_ret _))) (by simp)
    · simp only [hzero, if_false, SemState.set_value]
      by_cases hi : i = sem
      · subst hi
        rw [update_self]
        refine .waited (hposts _) ?_ rfl hzero
        rcases hcall with rfl | rfl <;> simp [SemEvent.waits]
      · rw [update_of_ne (Ne.symm hi)]
        exact .kept (hposts _) (hother _ (.inl (by simpa using hi))) (by simp)

theorem semPost_effect (s : SemState) (target : Option ℕ) (sem : ℕ) :
    SemEffect s sem ⟨.post target, (semPost s target).1, none⟩
      ((semPost s target).2.value sem) := by
  have hwaits (ret : BitVec 32) : SemEvent.waits sem ⟨.post target, ret, none⟩ = false := by
    simp [SemEvent.waits]
  have hother (ret : BitVec 32) (h : target ≠ some sem ∨ ret ≠ 0#32) :
      SemEvent.posts sem ⟨.post target, ret, none⟩ = false := by
    simp [SemEvent.posts]
    tauto
  rcases target with _ | i
  · exact .kept (hother _ (.inr (s.fail_ret _))) (hwaits _) (by simp)
  · unfold semPost
    by_cases hmax : s.value i = gnuosSemValueMax
    · simp only [hmax, if_true]
      exact .kept (hother _ (.inr (s.fail_ret _))) (hwaits _) (by simp)
    · simp only [hmax, if_false, SemState.set_value]
      by_cases hi : i = sem
      · subst hi
        rw [update_self]
        exact .posted (by simp [SemEvent.posts]) (hwaits _) rfl hmax
      · rw [update_of_ne (Ne.symm hi)]
        exact .kept (hother _ (.inl (by simpa using hi))) (hwaits _) (by simp)

theorem semGetvalue_effect (s : SemState) (target : Option ℕ) (sval : Bool) (sem : ℕ) :
    SemEffect s sem ⟨.getvalue target sval, (semGetvalue s target sval).1,
      (semGetvalue s target sval).2.1⟩ ((semGetvalue s target sval).2.2.value sem) := by
  have hvalue : (semGetvalue s target sval).2.2.value sem = s.value sem := by
    rcases target with _ | i <;> cases sval <;> rfl
  rw [hvalue]
  refine .kept (by simp [SemEvent.posts]) (by simp [SemEvent.waits]) ?_
  intro sval' hcall x hx
  obtain ⟨rfl, rfl⟩ : target = some sem ∧ sval = sval' := by simpa using hcall
  cases sval with
  | false => cases hx
  | true => exact (Option.some.inj hx).symm

theorem semStep_effect (s : SemState) (sem : ℕ) (call : SemCall) :
    SemEffect s sem (semStep s call).1 ((semStep s call).2.value sem) := by
  cases call with
  | wait target => exact semWait_effect s target sem _ (.inl rfl)
  | trywait target => exact semWait_effect s target sem _ (.inr rfl)
  | post target => exact semPost_effect s target sem
  | getvalue target sval => exact semGetvalue_effect s target sval sem

/-! ## Whole runs -/

/-- A counter at or below the largest value reads as a number that is not negative. -/
theorem toInt_nonneg_of_le_max {x : BitVec 32} (h : x ≤ gnuosSemValueMax) : 0 ≤ x.toInt := by
  have hle : x.toNat ≤ 0x7FFFFFFF := le_def.mp h
  rw [toInt_eq_toNat_of_lt (by omega)]
  omega

/-- One call keeps the law.  The bound is what makes the test for equality in `sem_post` enough. -/
theorem CountingLaw.step {sem : ℕ} {v : BitVec 32} {r : SemRun} (h : CountingLaw sem v r)
    (call : SemCall) : CountingLaw sem v (r.step call) := by
  have heffect := semStep_effect r.state sem call
  have hle : (r.state.value sem).toNat ≤ 0x7FFFFFFF := le_def.mp h.bounded
  have hmax : gnuosSemValueMax.toNat = 0x7FFFFFFF := rfl
  have hconserved := h.conserved
  have hreported (e : SemEvent) (he : ∀ sval, e.call = .getvalue (some sem) sval → ∀ x,
      e.sval = some x → 0 ≤ x.toInt) : ∀ e' ∈ r.events ++ [e], ∀ sval,
      e'.call = .getvalue (some sem) sval → ∀ x, e'.sval = some x → 0 ≤ x.toInt := by
    intro e' hmem
    rcases mem_append.mp hmem with hmem | hmem
    · exact h.reported e' hmem
    · rw [mem_singleton.mp hmem]
      exact he
  unfold SemRun.step
  generalize semStep r.state call = out at heffect
  obtain ⟨e, s'⟩ := out
  dsimp only at heffect ⊢
  generalize hnew : s'.value sem = new at heffect
  -- the four parts of the law are arithmetic on the counter and on what the event counts for
  cases heffect with
  | kept hpost hwait hsval =>
    refine ⟨hnew ▸ h.bounded, ?_, ?_, hreported e ?_⟩
    · simp only [countP_append, countP_singleton, hpost, hwait, hnew]
      simpa using hconserved
    · simpa [countP_append, countP_singleton, hpost, hwait] using h.noExcess
    · intro sval hcall x hx
      rw [hsval sval hcall x hx]
      exact toInt_nonneg_of_le_max h.bounded
  | waited hpost hwait hsval hvalue =>
    have hpos : (r.state.value sem).toNat ≠ 0 := fun hzero =>
      hvalue (eq_of_toNat_eq hzero)
    have hsub : (r.state.value sem - 1#32).toNat = (r.state.value sem).toNat - 1 := by
      have hone : 1#32 ≤ r.state.value sem := le_def.mpr (Nat.one_le_iff_ne_zero.mpr hpos)
      exact toNat_sub_of_le hone
    have hpost' : countP (SemEvent.posts sem) [e] = 0 := by simp [hpost]
    have hwait' : countP (SemEvent.waits sem) [e] = 1 := by simp [hwait]
    refine ⟨?_, ?_, ?_, hreported e (by simp [hsval])⟩
    · rw [le_def, hnew, hsub]
      omega
    · simp only [countP_append, hpost', hwait', hnew, hsub]
      omega
    · simp only [countP_append, hpost', hwait']
      omega
  | posted hpost hwait hsval hvalue =>
    have hne : (r.state.value sem).toNat ≠ 0x7FFFFFFF := fun heq =>
      hvalue (eq_of_toNat_eq heq)
    have hadd : (r.state.value sem + 1#32).toNat = (r.state.value sem).toNat + 1 := by
      rw [toNat_add]
      show ((r.state.value sem).toNat + 1) % 2 ^ 32 = _
      omega
    have hpost' : countP (SemEvent.posts sem) [e] = 1 := by simp [hpost]
    have hwait' : countP (SemEvent.waits sem) [e] = 0 := by simp [hwait]
    refine ⟨?_, ?_, ?_, hreported e (by simp [hsval])⟩
    · rw [le_def, hnew, hadd]
      omega
    · simp only [countP_append, hpost', hwait', hnew, hadd]
      omega
    · simp only [countP_append, hpost', hwait']
      omega

theorem CountingLaw.run {s : SemState} {sem : ℕ} {v : BitVec 32}
    (h : CountingLaw sem v ⟨s, []⟩) (calls : List SemCall) :
    CountingLaw sem v (semRun s calls) := by
  induction calls using reverseRecOn with
  | nil => exact h
  | append_singleton calls call ih =>
    rw [semRun_concat]
    exact ih.step call

theorem semInit_accepted {s : SemState} {sem : ℕ} {pshared v : BitVec 32}
    (h : (semInit s (some sem) pshared v).1 = 0#32) :
    (semInit s (some sem) pshared v).2 = s.set sem v := by
  unfold semInit at h ⊢
  by_cases hshared : pshared ≠ 0#32
  · simp only [if_pos hshared] at h
    exact absurd h (s.fail_ret _)
  · simp only [if_neg hshared]

/-- A semaphore obeys the counting law in every run exactly when its initial value is at most the
largest value that `sem_post` knows. -/
theorem semaphore_counting_iff (s : SemState) (sem : ℕ) (pshared v : BitVec 32)
    (h : (semInit s (some sem) pshared v).1 = 0#32) :
    (∀ calls, CountingLaw sem v (semRun (semInit s (some sem) pshared v).2 calls)) ↔
      v ≤ gnuosSemValueMax := by
  rw [semInit_accepted h]
  have hvalue : (s.set sem v).value sem = v := by simp
  constructor
  · intro hlaw
    have hstart := (hlaw []).bounded
    rwa [show (semRun (s.set sem v) []).state = s.set sem v from rfl, hvalue] at hstart
  · intro hle
    refine CountingLaw.run ⟨?_, ?_, ?_, ?_⟩
    · show (s.set sem v).value sem ≤ gnuosSemValueMax
      rwa [hvalue]
    · show ((s.set sem v).value sem).toNat + 0 = v.toNat + 0
      rw [hvalue]
    · exact Nat.zero_le _
    · intro e he
      cases he

/-- All semaphores at zero. -/
def SemState.zero : SemState := ⟨fun _ => 0#32, 0#32⟩

theorem semaphore_counting_one :
    (semInit SemState.zero (some 0) 0#32 1#32).1 = 0#32 ∧
      ∀ calls, CountingLaw 0 1#32 (semRun (semInit SemState.zero (some 0) 0#32 1#32).2 calls) :=
  ⟨rfl, (semaphore_counting_iff SemState.zero 0 0#32 1#32 rfl).mpr (by decide)⟩

/-- A semaphore at the largest unsigned value, and three calls on it. -/
def topSemaphore : BitVec 32 × SemState := semInit SemState.zero (some 0) 0#32 0xFFFFFFFF#32

def wrapRun : SemRun :=
  semRun topSemaphore.2 [.getvalue (some 0) true, .post (some 0), .wait (some 0)]

/-- `sem_init` accepts `0xFFFFFFFF`.  `sem_getvalue` then reports -1, a post succeeds and leaves the
counter at zero, and the next wait fails. -/
theorem semaphore_wraps_to_zero :
    topSemaphore.1 = 0#32 ∧
      wrapRun.events = [⟨.getvalue (some 0) true, 0#32, some (-1#32)⟩, ⟨.post (some 0), 0#32, none⟩,
        ⟨.wait (some 0), -1#32, none⟩] ∧
      wrapRun.state.value 0 = 0#32 ∧ ¬ CountingLaw 0 0xFFFFFFFF#32 wrapRun := by
  refine ⟨by decide, by decide, by decide, ?_⟩
  intro h
  exact absurd h.conserved (by decide)

end GnuOS.Libc
