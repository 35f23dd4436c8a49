import GnuOS.Ldso.Balance

/-!
# The error protocol of the loader

`dlopen`, `dlsym` and `dlclose` set a message when they fail and clear it when they succeed, and
`dlerror` returns the message once.  A call fails if it returns a null pointer or -1, and a lookup
fails if its arguments are rejected or no object that it asks defines the symbol.

There are two kinds of lookup.  One by handle goes by whether the symbol was found.  The global one
only has the address, and takes address 0 for a failure: a symbol that is found there leaves a
message.  The protocol holds in a run exactly when no global lookup finds its symbol at address 0.
-/

namespace GnuOS.Ldso

open GnuOS.Lib List

/-! ## The protocol -/

/-- An object in use defines the symbol. -/
def DefinedGlobally (mem : Memory) (s : Dlfcn) (name : CString) : Prop :=
  ∃ i < ldsoDlfcnMaxObjects, (s.objects i).inUse = true ∧
    ∃ address, DefinesAt mem (s.objects i) name address

/-- The arguments of the lookup are valid, and an object that it asks defines the symbol. -/
def FindsSymbol (mem : Memory) (s : Dlfcn) : Handle → Option CString → Prop
  | .rtldDefault, some name => DefinedGlobally mem s name
  | .object i, some name => i < ldsoDlfcnMaxObjects ∧ (s.objects i).inUse = true ∧
      ∃ address, DefinesAt mem (s.objects i) name address
  | _, _ => False

def CallFails (s : Dlfcn) : DlfcnOp → Prop
  | .dlopen file => (ldsoDlopen s file).2 = none
  | .dlsym mem handle symbolName => ¬ FindsSymbol mem s handle symbolName
  | .dlclose handle => (ldsoDlclose s handle).2 = false
  | .dlerror => False
  | .register _ _ _ => False

def DlfcnOp.isRegister : DlfcnOp → Bool
  | .register _ _ _ => true
  | _ => false

/-- One of the three calls was made since the last `dlerror`, and the last of them failed. -/
def FailurePending (s : Dlfcn) (calls : List DlfcnOp) : Prop :=
  ∃ pre call post, calls = pre ++ call :: post ∧ CallFails (dlfcnRun s pre) call ∧
    ∀ later ∈ post, later.isRegister = true

/-- At every moment of the run, `dlerror` returns a message exactly if a failure is pending. -/
def ErrorProtocol (s : Dlfcn) (calls : List DlfcnOp) : Prop :=
  ∀ pre, pre <+: calls → ((ldsoDlerror (dlfcnRun s pre)).2.isSome ↔ FailurePending s pre)

/-- The lookup is global, and the first object that defines its symbol has it at address 0: as load
bias plus value, or as the address of a builtin symbol. -/
def FindsNull (s : Dlfcn) : DlfcnOp → Prop
  | .dlsym mem .rtldDefault (some name) => FirstDefinesAt mem s name 0#64
  | _ => False

/-- No call of the run finds its symbol there. -/
def NoNullSymbol (s : Dlfcn) (calls : List DlfcnOp) : Prop :=
  ∀ pre call post, calls = pre ++ call :: post → ¬ FindsNull (dlfcnRun s pre) call

/-! ## One call -/

section Step

variable {s : Dlfcn} {mem : Memory} {name : CString} {call : DlfcnOp}

theorem dlerror_isSome_iff : (ldsoDlerror s).2.isSome ↔ s.errorReady = true := by
  unfold ldsoDlerror
  cases s.errorReady <;> simp

theorem FindsNull.not_callFails (h : FindsNull s call) : ¬ CallFails s call := by
  unfold FindsNull at h
  split at h
  · obtain ⟨i, hi, huse, hdefines, _⟩ := h
    exact fun hfails => hfails ⟨i, hi, huse, _, hdefines⟩
  · exact absurd h id

theorem register_keeps (s : Dlfcn) (name : Option CString) (symbols : Option (ℕ → BuiltinSymbol))
    (count : BitVec 64) :
    (ldsoDlfcnRegisterBuiltinObject s name symbols count).1.initialized = s.initialized ∧
      (ldsoDlfcnRegisterBuiltinObject s name symbols count).1.errorReady = s.errorReady := by
  unfold ldsoDlfcnRegisterBuiltinObject
  split
  · exact ⟨rfl, rfl⟩
  split
  · exact ⟨rfl, rfl⟩
  split <;> exact ⟨rfl, rfl⟩

variable (hinit : s.initialized = true)

include hinit

/-- A global lookup ends at address 0 if no object defines the symbol, or if the first one that does
has it there. -/
theorem resolveGlobal_eq_zero_iff :
    ldsoDlfcnResolveGlobal mem s (some name) = 0#64 ↔
      ¬ DefinedGlobally mem s name ∨ FirstDefinesAt mem s name 0#64 := by
  have hnone : firstObject mem s name = none ↔ ¬ DefinedGlobally mem s name := by
    simp only [firstObject_eq_none_iff, DefinedGlobally, not_exists, not_and]
  rw [resolveGlobal_eq hinit, ← hnone, ← firstObject_eq_some_iff]
  cases firstObject mem s name <;> simp

/-- A lookup leaves a message if it fails, or if it is global and its symbol is at address 0. -/
theorem dlsym_errorReady (handle : Handle) (symbolName : Option CString) :
    (ldsoDlsym mem s handle symbolName).1.errorReady = true ↔
      ¬ FindsSymbol mem s handle symbolName ∨
        FindsNull s (.dlsym mem handle symbolName) := by
  cases symbolName with
  | none =>
    have hready : (ldsoDlsym mem s handle none).1.errorReady = true := rfl
    simp [hready, FindsSymbol]
  | some name =>
    unfold ldsoDlsym
    rw [hinit]
    cases handle with
    | rtldNext =>
      exact iff_of_true rfl (.inl fun h => h)
    | elsewhere =>
      exact iff_of_true rfl (.inl fun h => h)
    | rtldDefault =>
      simp only [Bool.not_true, Bool.false_eq_true, if_false, FindsSymbol, FindsNull,
        ← resolveGlobal_eq_zero_iff hinit]
      by_cases hzero : ldsoDlfcnResolveGlobal mem s (some name) = 0#64
      · rw [if_pos hzero]
        exact iff_of_true rfl hzero
      · rw [if_neg hzero]
        exact iff_of_false (by simp [ldsoErrorClear]) hzero
    | object i =>
      simp only [Bool.not_true, Bool.false_eq_true, if_false, FindsSymbol, FindsNull, or_false]
      by_cases hvalid : ldsoObjectHandleValid s (.object i) = true
      · rw [if_neg (by rw [hvalid]; decide)]
        simp only [ldsoObjectHandleValid, Bool.and_eq_true, decide_eq_true_eq] at hvalid
        simp only [hvalid.1, hvalid.2, true_and, ← resolveSymbol_eq_some_iff]
        cases ldsoObjectResolveSymbol mem (s.objects i) name <;>
          simp [ldsoErrorSet, ldsoErrorClear]
      · rw [if_pos (by simpa using hvalid)]
        refine iff_of_true rfl ?_
        rintro ⟨hi, huse, _⟩
        apply hvalid
        simp only [ldsoObjectHandleValid, hi, huse, decide_true, Bool.and_self]

/-- Every call but a registration decides anew whether a message is left. -/
theorem dlfcnStep_errorReady (hcall : call.isRegister = false) :
    (dlfcnStep s call).errorReady = true ↔ CallFails s call ∨ FindsNull s call := by
  cases call with
  | dlopen file =>
    simp only [dlfcnStep, CallFails, FindsNull, or_false]
    rcases dlopen_cases s file with ⟨message, h⟩ | ⟨i, _, _, h⟩
    · simp [h, ldsoErrorSet]
    · simp [h, openObject, ldsoErrorClear]
  | dlsym mem handle symbolName =>
    exact dlsym_errorReady hinit handle symbolName
  | dlclose handle =>
    simp only [dlfcnStep, CallFails, FindsNull, or_false]
    rcases dlclose_cases s handle with ⟨message, h⟩ | ⟨i, _, _, _, _, h⟩
    · simp [h, ldsoErrorSet]
    · simp [h, closeObject, ldsoErrorClear]
  | dlerror =>
    simp only [dlfcnStep, CallFails, FindsNull, or_false, ldsoDlerror]
    cases hready : s.errorReady <;> simp [hready]
  | register name symbols count => cases hcall

theorem dlfcnStep_initialized (call : DlfcnOp) :
    (dlfcnStep s call).initialized = true := by
  cases call with
  | dlopen file => exact (sameNames_dlopen file).initialized.trans hinit
  | dlsym mem handle symbolName => exact (dlsym_keeps mem s handle symbolName).2.trans hinit
  | dlclose handle => exact (sameNames_dlclose handle).initialized.trans hinit
  | dlerror => exact (dlerror_keeps s).2.trans hinit
  | register name symbols count => exact (register_keeps s name symbols count).1.trans hinit

end Step

/-! ## Whole runs -/

section Run

variable {s : Dlfcn} {calls : List DlfcnOp}

theorem dlfcnRun_initialized (hinit : s.initialized = true) (calls : List DlfcnOp) :
    (dlfcnRun s calls).initialized = true := by
  induction calls using reverseRecOn with
  | nil => exact hinit
  | append_singleton calls call ih =>
    rw [dlfcnRun_concat]
    exact dlfcnStep_initialized ih call

theorem not_failurePending_nil : ¬ FailurePending s [] := by
  rintro ⟨pre, call, post, h, _⟩
  simp at h

/-- A call of a run is the last one or one of those before it. -/
theorem concat_eq_cases {calls pre post : List DlfcnOp} {call c : DlfcnOp}
    (h : calls ++ [call] = pre ++ c :: post) :
    (post = [] ∧ calls = pre ∧ call = c) ∨
      ∃ post', post = post' ++ [call] ∧ calls = pre ++ c :: post' := by
  rcases eq_nil_or_concat post with rfl | ⟨post', last, rfl⟩
  · exact .inl ⟨rfl, by simpa using h⟩
  · rw [concat_eq_append, ← cons_append, ← append_assoc] at h
    obtain ⟨hcalls, hcall⟩ := append_inj' h rfl
    rw [concat_eq_append, singleton_inj.mp hcall]
    exact .inr ⟨post', rfl, hcalls⟩

/-- A registration changes nothing about a failure that is pending. -/
theorem failurePending_register {call : DlfcnOp} (hcall : call.isRegister = true) :
    FailurePending s (calls ++ [call]) ↔ FailurePending s calls := by
  constructor
  · rintro ⟨pre, c, post, hcalls, hfails, hpost⟩
    rcases concat_eq_cases hcalls with ⟨rfl, rfl, rfl⟩ | ⟨post', rfl, rfl⟩
    · -- the registration itself cannot have failed
      cases call <;> simp_all [DlfcnOp.isRegister, CallFails]
    · exact ⟨pre, c, post', rfl, hfails, fun later hlater =>
        hpost later (mem_append_left _ hlater)⟩
  · rintro ⟨pre, c, post, rfl, hfails, hpost⟩
    refine ⟨pre, c, post ++ [call], by simp, hfails, ?_⟩
    intro later hlater
    rcases mem_append.mp hlater with hlater | hlater
    · exact hpost later hlater
    · rw [mem_singleton.mp hlater]
      exact hcall

/-- After any other call it is that call which counts. -/
theorem failurePending_call {call : DlfcnOp} (hcall : call.isRegister = false) :
    FailurePending s (calls ++ [call]) ↔ CallFails (dlfcnRun s calls) call := by
  constructor
  · rintro ⟨pre, c, post, hcalls, hfails, hpost⟩
    rcases concat_eq_cases hcalls with ⟨rfl, rfl, rfl⟩ | ⟨post', rfl, rfl⟩
    · exact hfails
    · rw [hpost call (by simp)] at hcall
      cases hcall
  · intro hfails
    exact ⟨calls, call, [], rfl, hfails, by simp⟩

/-- Without a symbol at address 0, the message of the state is the failure that is pending. -/
theorem errorReady_iff_pending (hinit : s.initialized = true) (hready : s.errorReady = false)
    (hnull : NoNullSymbol s calls) :
    (dlfcnRun s calls).errorReady = true ↔ FailurePending s calls := by
  induction calls using reverseRecOn with
  | nil => exact iff_of_false (by simp [dlfcnRun, hready]) not_failurePending_nil
  | append_singleton calls call ih =>
    have hbefore : NoNullSymbol s calls := by
      rintro pre c post rfl
      exact hnull pre c (post ++ [call]) (by simp)
    rw [dlfcnRun_concat]
    cases hcall : call.isRegister with
    | true =>
      rw [failurePending_register hcall, ← ih hbefore]
      cases call with
      | register name symbols count => rw [dlfcnStep, (register_keeps _ _ _ _).2]
      | _ => cases hcall
    | false =>
      rw [failurePending_call hcall, dlfcnStep_errorReady (dlfcnRun_initialized hinit calls) hcall]
      exact or_iff_left (hnull calls call [] rfl)

theorem ErrorProtocol.noNullSymbol (hinit : s.initialized = true) (h : ErrorProtocol s calls) :
    NoNullSymbol s calls := by
  rintro pre call post rfl hnull
  have hcall : call.isRegister = false := by
    cases call <;> first | rfl | exact absurd hnull id
  have hprotocol := h (pre ++ [call]) ⟨post, by simp⟩
  rw [dlerror_isSome_iff, failurePending_call hcall, dlfcnRun_concat,
    dlfcnStep_errorReady (dlfcnRun_initialized hinit pre) hcall] at hprotocol
  exact hnull.not_callFails (hprotocol.mp (.inr hnull))

end Run

theorem dlfcnInit_ready (start : Dlfcn) (mainObject : Option DynamicInfo) (loadBias : BitVec 64) :
    (ldsoDlfcnInit start mainObject loadBias).initialized = true ∧
      (ldsoDlfcnInit start mainObject loadBias).errorReady = false := by
  unfold ldsoDlfcnInit
  cases mainObject with
  | none => exact ⟨rfl, rfl⟩
  | some info =>
    simp only
    split <;> exact ⟨rfl, rfl⟩

/-- The protocol holds in a run exactly when no global lookup finds its symbol at address 0. -/
theorem dlerror_protocol_iff (start : Dlfcn) (mainObject : Option DynamicInfo)
    (loadBias : BitVec 64) (calls : List DlfcnOp) :
    ErrorProtocol (ldsoDlfcnInit start mainObject loadBias) calls ↔
      NoNullSymbol (ldsoDlfcnInit start mainObject loadBias) calls := by
  obtain ⟨hinit, hready⟩ := dlfcnInit_ready start mainObject loadBias
  constructor
  · exact ErrorProtocol.noNullSymbol hinit
  · rintro h pre ⟨rest, rfl⟩
    rw [dlerror_isSome_iff]
    apply errorReady_iff_pending hinit hready
    rintro before call post rfl
    exact h before call (post ++ rest) (by simp)

/-- A program that is loaded at 0 defines `c` at address 0.  The lookup by handle finds it and
leaves no message; the global lookup finds it too, and leaves `symbol not found`. -/
theorem null_symbol_leaves_error :
    let s := ldsoDlfcnInit uninitialized (some oneSymbolInfo) 0#64
    FindsSymbol oneSymbolMemory s (.object 0) (some counterName) ∧
      FindsSymbol oneSymbolMemory s .rtldDefault (some counterName) ∧
      (ldsoDlerror (dlfcnRun s [.dlsym oneSymbolMemory (.object 0) (some counterName)])).2 = none ∧
      (ldsoDlerror (dlfcnRun s [.dlsym oneSymbolMemory .rtldDefault (some counterName)])).2 =
        some "symbol not found" := by
  intro s
  have hdefines : DefinesAt oneSymbolMemory (s.objects 0) counterName 0#64 :=
    resolveSymbol_eq_some_iff.mp (by decide)
  exact ⟨⟨by decide, rfl, _, hdefines⟩, ⟨0, by decide, rfl, _, hdefines⟩, by decide, by decide⟩

end GnuOS.Ldso
