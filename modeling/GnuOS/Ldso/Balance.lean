import GnuOS.Ldso.Registry

/-!
# References to shared objects

An object is created with a reference count of 1, by `ldso_dlfcn_init` and by a registration alike,
and `dlclose` refuses only a count of 0.  The reference of the registration can be closed like one
that came from `dlopen`: the successful closes of an object are bounded by its successful opens plus
one.  Opens and closes are balanced in a run exactly when nobody closes an object whose opens are
used up.
-/

namespace GnuOS.Ldso

open List BitVec Function

/-! ## Accounts -/

/-- The registry, with the successful opens and closes of every slot. -/
structure Account where
  state : Dlfcn
  opens : ℕ → ℕ
  closes : ℕ → ℕ

namespace Account

def start (s : Dlfcn) : Account := ⟨s, fun _ => 0, fun _ => 0⟩

def step (a : Account) (op : DlfcnOp) : Account :=
  match op with
  | .register _ _ _ | .dlsym _ _ _ | .dlerror => { a with state := dlfcnStep a.state op }
  | .dlopen file =>
    match ldsoDlopen a.state file with
    | (s, some i) => { a with state := s, opens := update a.opens i (a.opens i + 1) }
    | (s, none) => { a with state := s }
  | .dlclose handle =>
    match handle, ldsoDlclose a.state handle with
    | .object i, (s, true) =>
      { a with state := s, closes := update a.closes i (a.closes i + 1) }
    | _, (s, _) => { a with state := s }

def run (a : Account) (ops : List DlfcnOp) : Account := ops.foldl step a

theorem run_concat (a : Account) (ops : List DlfcnOp) (op : DlfcnOp) :
    a.run (ops ++ [op]) = (a.run ops).step op := by
  simp only [run, foldl_append, foldl_cons, foldl_nil]

end Account

/-! ## The law -/

/-- What the law asks of one call: no object has been closed more often than opened, and closing an
object whose opens are used up fails and leaves all objects as they are. -/
structure BalancedStep (a : Account) (op : DlfcnOp) : Prop where
  closes_le : ∀ i, (a.step op).closes i ≤ (a.step op).opens i
  refused : ∀ i, op = .dlclose (.object i) → a.opens i ≤ a.closes i →
    (ldsoDlclose a.state (.object i)).2 = false ∧
      (ldsoDlclose a.state (.object i)).1.objects = a.state.objects

def Balanced (a : Account) (ops : List DlfcnOp) : Prop :=
  ∀ pre op post, ops = pre ++ op :: post → BalancedStep (a.run pre) op

/-- Whenever an object of the registry is closed, it has been opened more often than closed. -/
def ClosesCovered (a : Account) (ops : List DlfcnOp) : Prop :=
  ∀ pre i post, ops = pre ++ .dlclose (.object i) :: post →
    ldsoObjectHandleValid (a.run pre).state (.object i) = true →
      (a.run pre).closes i < (a.run pre).opens i

/-- The call does not register a name that is there already. -/
def RegistersNew (names : List CString) : DlfcnOp → Prop
  | .register (some name) (some _) count => count = 0#64 ∨ name ∉ names
  | _ => True

/-- Each object is registered once. -/
def RegistersOnce (names : List CString) : List DlfcnOp → Prop
  | [] => True
  | op :: ops => RegistersNew names op ∧ RegistersOnce (registerName names op) ops

theorem RegistersOnce.append {names : List CString} {pre post : List DlfcnOp}
    (h : RegistersOnce names (pre ++ post)) :
    RegistersOnce names pre ∧ RegistersOnce (pre.foldl registerName names) post := by
  induction pre generalizing names with
  | nil => exact ⟨trivial, h⟩
  | cons op pre ih =>
    obtain ⟨hpre, hpost⟩ := ih h.2
    exact ⟨⟨h.1, hpre⟩, hpost⟩

/-! ## One call -/

section Step

variable {a a' : Account} {names names' : List CString} {op : DlfcnOp} {i : ℕ}

/-- The call does nothing to the references, creates an object, opens one or closes one. -/
inductive Referenced (a : Account) (names : List CString) (op : DlfcnOp) :
    Account → List CString → Prop
  | kept {s : Dlfcn} (hobjects : s.objects = a.state.objects) :
    Referenced a names op { a with state := s } names
  | created {name : CString} {object : Object} (hcount : object.refcount = 1#64) :
    Referenced a names op { a with state := a.state.setObject names.length object }
      (names ++ [name])
  | opened {i : ℕ} (hi : i < names.length) :
    Referenced a names op { a with
      state := openObject a.state i, opens := update a.opens i (a.opens i + 1) } names
  | closed {i : ℕ} (hop : op = .dlclose (.object i)) (hi : i < names.length)
    (hcount : (a.state.objects i).refcount ≠ 0#64) :
    Referenced a names op { a with
      state := closeObject a.state i, closes := update a.closes i (a.closes i + 1) } names

theorem Account.step_referenced (h : Registry a.state names) (hnew : RegistersNew names op) :
    Referenced a names op (a.step op) (registerName names op) := by
  cases op with
  | register name symbols count =>
    have hregistered := h.registered name symbols count
    unfold Account.step
    simp only [dlfcnStep]
    generalize (ldsoDlfcnRegisterBuiltinObject a.state name symbols count).1 = s' at hregistered ⊢
    generalize registerName names (.register name symbols count) = names' at hregistered ⊢
    cases hregistered with
    | refused => exact .kept rfl
    | replaced hname hsymbols hcount hget =>
      -- the name would be registered twice
      subst hname hsymbols
      exact absurd (mem_of_getElem? hget) (hnew.resolve_left hcount)
    | appended _ _ _ => exact .created rfl
  | dlsym mem handle symbolName => exact .kept (dlsym_keeps mem a.state handle symbolName).1
  | dlerror => exact .kept (dlerror_keeps a.state).1
  | dlopen file =>
    rcases dlopen_cases a.state file with ⟨message, hopen⟩ | ⟨i, hi, huse, hopen⟩
    · simp only [Account.step, hopen]
      exact .kept rfl
    · simp only [Account.step, hopen]
      exact .opened ((h.inUse_iff hi).mp huse)
  | dlclose handle =>
    rcases dlclose_cases a.state handle with ⟨message, hclose⟩ | ⟨i, hi, rfl, huse, hcount, hclose⟩
    · simp only [Account.step, hclose]
      exact .kept rfl
    · simp only [Account.step, hclose]
      exact .closed rfl ((h.inUse_iff hi).mp huse) hcount

theorem Account.step_state (a : Account) (op : DlfcnOp) :
    (a.step op).state = dlfcnStep a.state op := by
  cases op with
  | register _ _ _ | dlsym _ _ _ | dlerror => rfl
  | dlopen file =>
    rcases dlopen_cases a.state file with ⟨message, hopen⟩ | ⟨i, _, _, hopen⟩ <;>
      simp only [Account.step, dlfcnStep, hopen]
  | dlclose handle =>
    rcases dlclose_cases a.state handle with ⟨message, hclose⟩ | ⟨i, _, rfl, _, _, hclose⟩ <;>
      simp only [Account.step, dlfcnStep, hclose]

/-- The reference count of an object is one plus its opens minus its closes, in 64 bits, and the
closes never get more than one ahead. -/
structure Accounted (a : Account) (names : List CString) : Prop where
  registry : Registry a.state names
  count : ∀ i < names.length,
    ((a.state.objects i).refcount.toNat + a.closes i) % 2 ^ 64 = (1 + a.opens i) % 2 ^ 64
  closes_le : ∀ i, a.closes i ≤ a.opens i + 1
  unused : ∀ i, names.length ≤ i → a.opens i = 0 ∧ a.closes i = 0

/-- The counts of one object may change together. -/
theorem Accounted.of_slot (h : Accounted a names) (hregistry : Registry a'.state names)
    (hi : i < names.length)
    (hothers : ∀ j, j ≠ i → a'.state.objects j = a.state.objects j ∧
      a'.opens j = a.opens j ∧ a'.closes j = a.closes j)
    (hcount : ((a'.state.objects i).refcount.toNat + a'.closes i) % 2 ^ 64 =
      (1 + a'.opens i) % 2 ^ 64)
    (hle : a'.closes i ≤ a'.opens i + 1) : Accounted a' names where
  registry := hregistry
  count j hj := by
    by_cases hij : j = i
    · subst hij
      exact hcount
    · obtain ⟨hobject, hopens, hcloses⟩ := hothers j hij
      rw [hobject, hopens, hcloses]
      exact h.count j hj
  closes_le j := by
    by_cases hij : j = i
    · subst hij
      exact hle
    · obtain ⟨_, hopens, hcloses⟩ := hothers j hij
      rw [hopens, hcloses]
      exact h.closes_le j
  unused j hj := by
    obtain ⟨_, hopens, hcloses⟩ := hothers j (by omega)
    rw [hopens, hcloses]
    exact h.unused j hj

theorem Accounted.step (h : Accounted a names) (hnew : RegistersNew names op) :
    Accounted (a.step op) (registerName names op) := by
  have hregistry : Registry (a.step op).state (registerName names op) := by
    rw [Account.step_state]
    exact h.registry.step op
  have heffect := Account.step_referenced h.registry hnew
  generalize a.step op = a' at hregistry heffect ⊢
  generalize registerName names op = names' at hregistry heffect ⊢
  cases heffect with
  | @kept s hobjects =>
    refine ⟨hregistry, ?_, h.closes_le, h.unused⟩
    intro i hi
    show ((s.objects i).refcount.toNat + a.closes i) % 2 ^ 64 = _
    rw [hobjects]
    exact h.count i hi
  | @created name object hcount =>
    have hlength : (names ++ [name]).length = names.length + 1 := length_append
    refine ⟨hregistry, ?_, h.closes_le, ?_⟩
    · intro i hi
      by_cases hlast : i = names.length
      · subst hlast
        show (((a.state.setObject _ _).objects _).refcount.toNat + a.closes _) % 2 ^ 64 = _
        rw [setObject_self, hcount, (h.unused _ (Nat.le_refl _)).1, (h.unused _ (Nat.le_refl _)).2]
        rfl
      · show (((a.state.setObject _ _).objects i).refcount.toNat + a.closes i) % 2 ^ 64 = _
        rw [setObject_of_ne hlast]
        exact h.count i (by omega)
    · intro i hi
      exact h.unused i (by omega)
  | @opened j hj =>
    have hcount := h.count j hj
    have hle := h.closes_le j
    have hrefcount : ((openObject a.state j).objects j).refcount =
        (a.state.objects j).refcount + 1#64 :=
      congrArg Object.refcount (setObject_self a.state j _)
    apply h.of_slot hregistry hj
    · intro i hij
      exact ⟨setObject_of_ne hij _ _, update_of_ne hij _ _, rfl⟩
    · show (((openObject a.state j).objects j).refcount.toNat + a.closes j) % 2 ^ 64 =
        (1 + update a.opens j _ j) % 2 ^ 64
      rw [hrefcount, update_self, toNat_add, toNat_ofNat]
      omega
    · show a.closes j ≤ update a.opens j _ j + 1
      rw [update_self]
      omega
  | @closed j _ hj hne =>
    have hcount := h.count j hj
    have hle := h.closes_le j
    have hpos : (a.state.objects j).refcount.toNat ≠ 0 := fun hzero =>
      hne (eq_of_toNat_eq hzero)
    have hlt := (a.state.objects j).refcount.isLt
    have hrefcount : ((closeObject a.state j).objects j).refcount =
        (a.state.objects j).refcount - 1#64 :=
      congrArg Object.refcount (setObject_self a.state j _)
    have hone : 1#64 ≤ (a.state.objects j).refcount :=
      le_def.mpr (Nat.one_le_iff_ne_zero.mpr hpos)
    have hsub : ((a.state.objects j).refcount - 1#64).toNat =
        (a.state.objects j).refcount.toNat - 1 := toNat_sub_of_le hone
    apply h.of_slot hregistry hj
    · intro i hij
      exact ⟨setObject_of_ne hij _ _, rfl, update_of_ne hij _ _⟩
    · show (((closeObject a.state j).objects j).refcount.toNat +
        update a.closes j _ j) % 2 ^ 64 = (1 + a.opens j) % 2 ^ 64
      rw [hrefcount, update_self, hsub]
      omega
    · show update a.closes j _ j ≤ a.opens j + 1
      rw [update_self]
      -- one ahead already means a reference count of zero
      omega

end Step

/-! ## Whole runs -/

section Run

variable {a : Account} {names : List CString} {ops : List DlfcnOp}

theorem Accounted.run (h : Accounted a names) (honce : RegistersOnce names ops) :
    Accounted (a.run ops) (ops.foldl registerName names) := by
  induction ops generalizing a names with
  | nil => exact h
  | cons op ops ih => exact ih (h.step honce.1) honce.2

/-- An object that is one ahead has no reference left. -/
theorem Accounted.refcount_eq_zero {i : ℕ} (h : Accounted a names) (hi : i < names.length)
    (hahead : a.closes i = a.opens i + 1) : (a.state.objects i).refcount = 0#64 := by
  have hcount := h.count i hi
  have hlt := (a.state.objects i).refcount.isLt
  apply eq_of_toNat_eq
  show _ = 0
  omega

theorem Accounted.refcount_ne_zero {i : ℕ} (h : Accounted a names) (hi : i < names.length)
    (heven : a.closes i = a.opens i) : (a.state.objects i).refcount ≠ 0#64 := by
  have hcount := h.count i hi
  intro hzero
  rw [hzero, heven] at hcount
  have hzero' : (0#64).toNat = 0 := rfl
  omega

theorem objects_of_dlclose_failed {s : Dlfcn} {handle : Handle}
    (h : (ldsoDlclose s handle).2 = false) : (ldsoDlclose s handle).1.objects = s.objects := by
  rcases dlclose_cases s handle with ⟨message, hclose⟩ | ⟨i, _, _, _, _, hclose⟩
  · rw [hclose]
    rfl
  · rw [hclose] at h
    cases h

/-- An object that is one ahead cannot be closed again. -/
theorem Accounted.dlclose_refused {i : ℕ} (h : Accounted a names)
    (hahead : a.closes i = a.opens i + 1) :
    (ldsoDlclose a.state (.object i)).2 = false ∧
      (ldsoDlclose a.state (.object i)).1.objects = a.state.objects := by
  have hfails : (ldsoDlclose a.state (.object i)).2 = false := by
    rcases dlclose_cases a.state (.object i) with ⟨message, hclose⟩ | ⟨j, hj, hij, huse, hne, _⟩
    · rw [hclose]
    · cases hij
      have hused : i < names.length := (h.registry.inUse_iff hj).mp huse
      exact absurd (h.refcount_eq_zero hused hahead) hne
  exact ⟨hfails, objects_of_dlclose_failed hfails⟩

/-- In a balanced run the law holds at every moment, not only behind a call. -/
theorem Balanced.closes_le {s : Dlfcn} (h : Balanced (Account.start s) ops) {pre : List DlfcnOp}
    (hpre : pre <+: ops) (i : ℕ) :
    ((Account.start s).run pre).closes i ≤ ((Account.start s).run pre).opens i := by
  obtain ⟨post, rfl⟩ := hpre
  rcases eq_nil_or_concat pre with rfl | ⟨before, op, rfl⟩
  · exact Nat.le_refl 0
  · rw [concat_eq_append] at h ⊢
    rw [Account.run_concat]
    exact (h before op post (by simp)).closes_le i

theorem Balanced.covered {s : Dlfcn} (h : Balanced (Account.start s) ops)
    (haccount : ∀ pre, pre <+: ops →
      ∃ names, Accounted ((Account.start s).run pre) names) :
    ClosesCovered (Account.start s) ops := by
  intro pre i post hops hvalid
  have hpre : pre <+: ops := ⟨_, hops.symm⟩
  have hle := h.closes_le hpre i
  obtain ⟨names, haccounted⟩ := haccount pre hpre
  by_contra hnot
  have heven : ((Account.start s).run pre).closes i = ((Account.start s).run pre).opens i := by
    omega
  have hrefused := (h pre _ post hops).refused i rfl (by omega)
  simp only [ldsoObjectHandleValid, Bool.and_eq_true, decide_eq_true_eq] at hvalid
  have hused := (haccounted.registry.inUse_iff hvalid.1).mp hvalid.2
  -- the registration's own reference is still there, so the close succeeds
  unfold ldsoDlclose at hrefused
  simp only [haccounted.registry.initialized, ldsoObjectHandleValid, hvalid.1, hvalid.2,
    haccounted.refcount_ne_zero hused heven, decide_true, Bool.not_true, Bool.and_self,
    Bool.or_self, Bool.false_eq_true, if_false] at hrefused
  cases hrefused.1

/-- A call of a run in which the closes are covered keeps the closes below the opens. -/
theorem closes_le_step {op : DlfcnOp} {i : ℕ} (hle : ∀ i, a.closes i ≤ a.opens i)
    (hcovered : ∀ i, op = .dlclose (.object i) →
      ldsoObjectHandleValid a.state (.object i) = true → a.closes i < a.opens i) :
    (a.step op).closes i ≤ (a.step op).opens i := by
  have hi := hle i
  cases op with
  | register _ _ _ | dlsym _ _ _ | dlerror => exact hi
  | dlopen file =>
    rcases dlopen_cases a.state file with ⟨message, hopen⟩ | ⟨j, _, _, hopen⟩
    · simp only [Account.step, hopen]
      exact hi
    · simp only [Account.step, hopen]
      by_cases hij : i = j
      · subst hij
        rw [update_self]
        omega
      · rw [update_of_ne hij]
        exact hi
  | dlclose handle =>
    rcases dlclose_cases a.state handle with ⟨message, hclose⟩ | ⟨j, hj, rfl, huse, _, hclose⟩
    · simp only [Account.step, hclose]
      exact hi
    · have hvalid : ldsoObjectHandleValid a.state (.object j) = true := by
        simp only [ldsoObjectHandleValid, hj, huse, decide_true, Bool.and_self]
      have hlt := hcovered j rfl hvalid
      simp only [Account.step, hclose]
      by_cases hij : i = j
      · subst hij
        rw [update_self]
        omega
      · rw [update_of_ne hij]
        exact hi

theorem ClosesCovered.closes_le {s : Dlfcn} (h : ClosesCovered (Account.start s) ops)
    {pre : List DlfcnOp} (hpre : pre <+: ops) (i : ℕ) :
    ((Account.start s).run pre).closes i ≤ ((Account.start s).run pre).opens i := by
  induction pre using reverseRecOn generalizing i with
  | nil => exact Nat.le_refl 0
  | append_singleton pre op ih =>
    obtain ⟨post, hops⟩ := hpre
    have hops' : ops = pre ++ op :: post := by
      rw [← hops, List.append_assoc]
      rfl
    rw [Account.run_concat]
    apply closes_le_step (ih ⟨_, hops'.symm⟩)
    intro j hop hvalid
    subst hop
    exact h pre j post hops' hvalid

theorem ClosesCovered.balanced {s : Dlfcn} (h : ClosesCovered (Account.start s) ops) :
    Balanced (Account.start s) ops := by
  intro pre op post hops
  have hpre : pre <+: ops := ⟨_, hops.symm⟩
  refine ⟨?_, ?_⟩
  · intro i
    have hpre' : pre ++ [op] <+: ops := ⟨post, by rw [hops, List.append_assoc]; rfl⟩
    have hle := h.closes_le hpre' i
    rwa [Account.run_concat] at hle
  · intro i hop hle
    subst hop
    have hfails : (ldsoDlclose ((Account.start s).run pre).state (.object i)).2 = false := by
      rcases dlclose_cases ((Account.start s).run pre).state (.object i) with
        ⟨message, hclose⟩ | ⟨j, hj, hij, huse, _, _⟩
      · rw [hclose]
      · cases hij
        have hvalid : ldsoObjectHandleValid ((Account.start s).run pre).state (.object i) = true :=
          by simp only [ldsoObjectHandleValid, hj, huse, decide_true, Bool.and_self]
        have hlt := h pre i post hops hvalid
        omega
    exact ⟨hfails, objects_of_dlclose_failed hfails⟩

/-- A new object has the reference of its registration, and has not been opened. -/
theorem accounted_start (s : Dlfcn) (mainObject : Option DynamicInfo) (loadBias : BitVec 64) :
    Accounted (Account.start (ldsoDlfcnInit s mainObject loadBias))
      (if mainObject.isSome then [mainName] else []) := by
  refine ⟨registry_init s mainObject loadBias, ?_, fun i => Nat.zero_le _, fun i _ => ⟨rfl, rfl⟩⟩
  intro i hi
  cases mainObject with
  | none => exact absurd hi (Nat.not_lt_zero i)
  | some info =>
    obtain rfl : i = 0 := by simpa using hi
    rfl

end Run

/-- For every run in which each object is registered once: opens and closes are balanced exactly
when every close of an object is covered by an open; and in any case an object is closed at most
once more often than it is opened, after which `dlclose` refuses it and leaves all objects as they
are. -/
theorem dlfcn_balance_iff (start : Dlfcn) (mainObject : Option DynamicInfo) (loadBias : BitVec 64)
    (ops : List DlfcnOp)
    (honce : RegistersOnce (if mainObject.isSome then [mainName] else []) ops) :
    let a := Account.start (ldsoDlfcnInit start mainObject loadBias)
    (Balanced a ops ↔ ClosesCovered a ops) ∧
      ∀ i, (a.run ops).closes i ≤ (a.run ops).opens i + 1 ∧
        ((a.run ops).closes i = (a.run ops).opens i + 1 →
          (ldsoDlclose (a.run ops).state (.object i)).2 = false ∧
            (ldsoDlclose (a.run ops).state (.object i)).1.objects =
              (a.run ops).state.objects) := by
  intro a
  have hstart := accounted_start start mainObject loadBias
  have haccounted := hstart.run honce
  refine ⟨⟨fun h => h.covered ?_, ClosesCovered.balanced⟩, ?_⟩
  · rintro pre ⟨post, rfl⟩
    exact ⟨_, hstart.run honce.append.1⟩
  · intro i
    exact ⟨haccounted.closes_le i, haccounted.dlclose_refused⟩

theorem dlfcn_balance_open_close :
    let a := Account.start (ldsoDlfcnInit uninitialized (some emptyDynamicInfo) 0#64)
    RegistersOnce [mainName] [.dlopen none, .dlclose (.object 0)] ∧
      Balanced a [.dlopen none, .dlclose (.object 0)] := by
  have honce : RegistersOnce [mainName] [.dlopen none, .dlclose (.object 0)] :=
    ⟨trivial, trivial, trivial⟩
  refine ⟨honce, (dlfcn_balance_iff uninitialized (some emptyDynamicInfo) 0#64 _ honce).1.mpr ?_⟩
  intro pre i post hops hvalid
  rcases pre with _ | ⟨op, _ | ⟨op', pre⟩⟩
  · cases hops
  · cases hops
    decide
  · simp at hops

/-- The program is opened once, and closed twice with success. -/
theorem dlfcn_closed_more_than_opened :
    let a := Account.start (ldsoDlfcnInit uninitialized (some emptyDynamicInfo) 0#64)
    let b := a.run [.dlopen none, .dlclose (.object 0)]
    (ldsoDlclose b.state (.object 0)).2 = true ∧ (b.step (.dlclose (.object 0))).opens 0 = 1 ∧
      (b.step (.dlclose (.object 0))).closes 0 = 2 := by
  decide

end GnuOS.Ldso
