import GnuOS.Ldso.Bootstrap

/-!
# Tokens of `LD_PRELOAD`

The value of `LD_PRELOAD` is read from the first environment string that starts with `LD_PRELOAD=`,
and every maximal run of characters other than space and colon is given to `ldso_dlopen`, cut off
after 127 characters.

The stack and the strings are as the kernel leaves them: the words follow one another from the
number of arguments on, and nothing wraps around the end of the address space.
-/

namespace GnuOS.Ldso

open GnuOS.Lib Function List
open BitVec hiding not_or

/-! ## The initial stack -/

/-- The words are in memory from `a` on. -/
def WordsAt (mem : Memory) (a : BitVec 64) (words : List (BitVec 64)) : Prop :=
  ∀ i w, words[i]? = some w → word64 mem (entryAddr a 8 i) = w

/-- The words of the stack up to the end of the environment. -/
def startWords (args env : List (BitVec 64)) : List (BitVec 64) :=
  BitVec.ofNat 64 args.length :: (args ++ 0#64 :: (env ++ [0#64]))

/-- The stack holds the number of arguments, the arguments and the environment, each of the two
ended by a null pointer. -/
structure StartStack (mem : Memory) (stack : BitVec 64) (args env : List (BitVec 64)) : Prop where
  nonnull : stack ≠ 0#64
  inSpace : stack.toNat + 8 * (args.length + env.length + 3) ≤ 2 ^ 64
  args_ne : 0#64 ∉ args
  env_ne : 0#64 ∉ env
  words : WordsAt mem stack (startWords args env)

section Words

variable {mem : Memory} {a : BitVec 64} {w : BitVec 64} {words : List (BitVec 64)}

theorem entryAddr_zero (a : BitVec 64) (size : ℕ) : entryAddr a size 0 = a := by
  simp [entryAddr]

theorem entryAddr_add (a : BitVec 64) (size i j : ℕ) :
    entryAddr (entryAddr a size i) size j = entryAddr a size (i + j) := by
  unfold entryAddr
  rw [Memory.addr_add, Nat.mul_add]

theorem entryAddr_succ (a : BitVec 64) (i : ℕ) :
    entryAddr a 8 i + 8#64 = entryAddr a 8 (i + 1) :=
  entryAddr_add a 8 i 1

theorem WordsAt.head (h : WordsAt mem a (w :: words)) : word64 mem a = w := by
  have hfirst := h 0 w rfl
  rwa [entryAddr_zero] at hfirst

theorem WordsAt.tail (h : WordsAt mem a (w :: words)) : WordsAt mem (a + 8#64) words := by
  intro i v hv
  rw [show a + 8#64 = entryAddr a 8 1 from rfl, entryAddr_add, Nat.add_comm]
  exact h (i + 1) v hv

theorem WordsAt.append {words' : List (BitVec 64)} (h : WordsAt mem a (words ++ words')) :
    WordsAt mem (entryAddr a 8 words.length) words' := by
  intro i v hv
  rw [entryAddr_add]
  apply h
  rw [getElem?_append_right (Nat.le_add_right _ _), Nat.add_sub_cancel_left, hv]

theorem WordsAt.left {words' : List (BitVec 64)} (h : WordsAt mem a (words ++ words')) :
    WordsAt mem a words := by
  intro i v hv
  apply h
  rw [getElem?_append_left (List.getElem?_eq_some_iff.mp hv).1, hv]

/-- The loop over the arguments ends behind them. -/
theorem skipArgvLoop_eq (h : WordsAt mem a words) (hne : 0#64 ∉ words) :
    skipArgvLoop mem words.length a = some (entryAddr a 8 words.length) := by
  induction words generalizing a with
  | nil => rw [length_nil, entryAddr_zero, skipArgvLoop]
  | cons v words ih =>
    have hv : v ≠ 0#64 := fun hzero => hne (hzero ▸ mem_cons_self)
    rw [length_cons, skipArgvLoop, h.head, if_neg hv,
      ih h.tail fun hzero => hne (mem_cons_of_mem v hzero), Nat.add_comm,
      ← entryAddr_add, ← entryAddr_succ, entryAddr_zero]

end Words

section Stack

variable {mem : Memory} {stack : BitVec 64} {args env : List (BitVec 64)}

/-- The address of the environment. -/
def envpOf (stack : BitVec 64) (args : List (BitVec 64)) : BitVec 64 :=
  entryAddr stack 8 (args.length + 2)

section

variable (h : StartStack mem stack args env)

include h

theorem StartStack.toNat_entryAddr {i : ℕ} (hi : i < args.length + env.length + 3) :
    (entryAddr stack 8 i).toNat = stack.toNat + 8 * i := by
  have hspace := h.inSpace
  exact Memory.toNat_addr (by omega)

theorem StartStack.entryAddr_ne {i : ℕ} (hi : i < args.length + env.length + 3) :
    entryAddr stack 8 i ≠ 0#64 := by
  intro hzero
  have hnat := h.toNat_entryAddr hi
  have hstack : stack.toNat ≠ 0 := fun hnull => h.nonnull (eq_of_toNat_eq hnull)
  rw [hzero, toNat_ofNat] at hnat
  omega

theorem StartStack.env_words :
    WordsAt mem (envpOf stack args) (env ++ [0#64]) := by
  have hwords := h.words
  rw [startWords, show BitVec.ofNat 64 args.length :: (args ++ 0#64 :: (env ++ [0#64])) =
    (BitVec.ofNat 64 args.length :: (args ++ [0#64])) ++ (env ++ [0#64]) by simp] at hwords
  have happend := hwords.append
  rwa [show (BitVec.ofNat 64 args.length :: (args ++ [0#64])).length = args.length + 2 by
    simp] at happend

theorem StartStack.skipArgv :
    ldsoStackSkipArgv mem (stack + 8#64) (word64 mem stack) = envpOf stack args := by
  have hspace := h.inSpace
  have hfirst : stack + 8#64 = entryAddr stack 8 1 := by
    rw [← entryAddr_succ, entryAddr_zero]
  have hargc : (word64 mem stack).toNat = args.length := by
    rw [h.words.head, toNat_ofNat]
    exact Nat.mod_eq_of_lt (by omega)
  have hargs : WordsAt mem (entryAddr stack 8 1) (args ++ 0#64 :: (env ++ [0#64])) :=
    h.words.tail
  have hend : word64 mem (entryAddr (entryAddr stack 8 1) 8 args.length) = 0#64 :=
    hargs.append.head
  unfold ldsoStackSkipArgv
  rw [hfirst, if_neg (h.entryAddr_ne (by omega)), hargc,
    skipArgvLoop_eq hargs.left h.args_ne]
  simp only [hend, ne_eq, not_true_eq_false, if_false]
  rw [entryAddr_add, entryAddr_succ, envpOf,
    show 1 + args.length + 1 = args.length + 2 by omega]

theorem StartStack.findEnvp :
    ldsoFindEnvp mem stack = envpOf stack args := by
  rw [ldsoFindEnvp, if_neg h.nonnull, h.skipArgv]

theorem StartStack.envp_ne : envpOf stack args ≠ 0#64 :=
  h.entryAddr_ne (by omega)

end

end Stack

/-! ## The value -/

section Value

variable {mem : Memory} {stack a : BitVec 64} {args env : List (BitVec 64)} {s : List (BitVec 8)}
  {strings : List (List (BitVec 8))}

theorem startsWithLoop_iff (h : StringAt mem a s) {key : List (BitVec 8)} (hkey : 0#8 ∉ key) :
    startsWithLoop mem a key = true ↔ key <+: s := by
  induction key generalizing a s with
  | nil => simp [startsWithLoop]
  | cons c key ih =>
    rw [mem_cons, not_or] at hkey
    cases s with
    | nil =>
      -- the terminating zero is not in the key
      rw [startsWithLoop, h.nil, if_pos hkey.1]
      simp
    | cons d s =>
      rw [startsWithLoop, h.head.1, cons_prefix_cons]
      by_cases hcd : c = d
      · rw [if_neg (not_not.mpr hcd.symm), ih h.tail hkey.2]
        simp [hcd]
      · rw [if_pos (Ne.symm hcd)]
        simp [hcd]

/-- The strings of the environment are in memory, none of them across the end of the address
space. -/
def EnvironmentAt (mem : Memory) (env : List (BitVec 64)) (strings : List (List (BitVec 8))) :
    Prop :=
  List.Forall₂ (fun a s => StringAt mem a s ∧ a.toNat + s.length < 2 ^ 64) env strings

/-- What follows the key in the first string that starts with it. -/
def environmentValue (key : List (BitVec 8)) (strings : List (List (BitVec 8))) :
    Option (List (BitVec 8)) :=
  (strings.find? fun s => key.isPrefixOf s).map (drop key.length)

/-- What the search of the environment finds: the address behind the key, or a null pointer. -/
def envValue (mem : Memory) (key : List (BitVec 8)) (env : List (BitVec 64)) : BitVec 64 :=
  (env.find? fun a => startsWithLoop mem a key).elim 0#64 (· + BitVec.ofNat 64 key.length)

variable {key : List (BitVec 8)} {fuel : ℕ}

theorem envValue_cons (mem : Memory) (key : List (BitVec 8)) (a : BitVec 64)
    (env : List (BitVec 64)) :
    envValue mem key (a :: env) = if startsWithLoop mem a key then a + BitVec.ofNat 64 key.length
      else envValue mem key env := by
  unfold envValue
  rw [find?_cons]
  cases startsWithLoop mem a key <;> rfl

theorem findEnvLoop_eq {envp : BitVec 64} {index : ℕ} (hne : 0#64 ∉ env)
    (hwords : WordsAt mem (entryAddr envp 8 index) (env ++ [0#64])) (hfuel : env.length < fuel) :
    findEnvLoop mem envp key fuel index = .value (envValue mem key env) := by
  induction env generalizing index fuel with
  | nil =>
    obtain ⟨fuel, rfl⟩ := Nat.exists_eq_add_of_lt hfuel
    rw [findEnvLoop, show word64 mem (entryAddr envp 8 index) = 0#64 from hwords.head]
    rfl
  | cons a env ih =>
    obtain ⟨fuel, rfl⟩ : ∃ n, fuel = n + 1 := ⟨fuel - 1, by omega⟩
    rw [mem_cons, not_or] at hne
    have hword : word64 mem (entryAddr envp 8 index) = a := hwords.head
    have hrest : WordsAt mem (entryAddr envp 8 (index + 1)) (env ++ [0#64]) := by
      rw [← entryAddr_succ]
      exact hwords.tail
    rw [findEnvLoop, hword, if_neg (Ne.symm hne.1), ldsoStrStartsWith, if_neg (Ne.symm hne.1),
      envValue_cons, ih hne.2 hrest (Nat.lt_of_succ_lt_succ hfuel)]
    split <;> rfl

theorem StartStack.findEnvValue (h : StartStack mem stack args env) (hkey : key ≠ [])
    (hfuel : env.length < fuel) :
    ldsoFindEnvValue fuel mem stack key = .value (envValue mem key env) := by
  have hwords : WordsAt mem (entryAddr (envpOf stack args) 8 0) (env ++ [0#64]) := by
    rw [entryAddr_zero]
    exact h.env_words
  unfold ldsoFindEnvValue
  simp only [h.findEnvp]
  rw [if_neg (not_or.mpr ⟨h.envp_ne, by simpa using hkey⟩)]
  exact findEnvLoop_eq h.env_ne hwords hfuel

/-- The search ends at the value of the key, or with a null pointer if there is none. -/
theorem envValue_spec (hkey : 0#8 ∉ key) (hne : key ≠ []) (henv : EnvironmentAt mem env strings) :
    match environmentValue key strings with
    | none => envValue mem key env = 0#64
    | some value => StringAt mem (envValue mem key env) value ∧ envValue mem key env ≠ 0#64 := by
  have hstarts (s : List (BitVec 8)) : key.isPrefixOf s = true ↔ key <+: s := isPrefixOf_iff_prefix
  induction henv with
  | nil => rfl
  | @cons a s env strings ha henv ih =>
    rw [envValue_cons]
    cases hfound : startsWithLoop mem a key with
    | true =>
      have hprefix : key <+: s := (startsWithLoop_iff ha.1 hkey).mp hfound
      have hlength := hprefix.length_le
      have hvalue : environmentValue key (s :: strings) = some (s.drop key.length) := by
        rw [environmentValue, find?_cons_of_pos ((hstarts s).mpr hprefix)]
        rfl
      rw [hvalue, if_pos rfl]
      refine ⟨ha.1.drop _ hlength, ?_⟩
      intro hzero
      have hpos := length_pos_of_ne_nil hne
      have hnat : (a + BitVec.ofNat 64 key.length).toNat = a.toNat + key.length :=
        Memory.toNat_addr (by omega)
      rw [hzero, toNat_ofNat] at hnat
      omega
    | false =>
      have hvalue : environmentValue key (s :: strings) = environmentValue key strings := by
        rw [environmentValue, find?_cons_of_neg, environmentValue]
        rw [hstarts, ← startsWithLoop_iff ha.1 hkey, hfound]
        decide
      rw [hvalue, if_neg (by decide)]
      exact ih

end Value

/-! ## The token buffer -/

/-- The buffer holds the bytes of the list and nothing else so far. -/
structure TokenBuffer.Holds (token : TokenBuffer) (l : List (BitVec 8)) : Prop where
  len : token.len = l.length
  bytes : ∀ i c, l[i]? = some c → token.bytes i = c

section Buffer

variable {mem : Memory} {a : BitVec 64} {s l : List (BitVec 8)} {token : TokenBuffer} {fuel : ℕ}

theorem TokenBuffer.Holds.write (h : token.Holds l) (hl : l.length < ldsoPreloadTokenMax)
    (c : BitVec 8) :
    ∃ token', token.write token.len c = .value token' ∧ token'.len = token.len ∧
      ({ token' with len := token'.len + 1 } : TokenBuffer).Holds (l ++ [c]) := by
  refine ⟨_, if_pos (by rw [h.len]; exact hl), rfl, ?_, ?_⟩
  · rw [length_append, length_singleton, ← h.len]
  · intro i d hd
    show update token.bytes token.len c i = d
    by_cases hi : i = token.len
    · subst hi
      rw [h.len, getElem?_append_right (Nat.le_refl _), Nat.sub_self] at hd
      rw [update_self]
      exact Option.some_inj.mp hd
    · have hlt := (List.getElem?_eq_some_iff.mp hd).1
      rw [length_append, length_singleton, ← h.len] at hlt
      have hlt' : i < l.length := by
        rw [← h.len]
        omega
      rw [getElem?_append_left hlt'] at hd
      rw [update_of_ne hi]
      exact h.bytes i d hd

/-- The bytes before the terminating zero are the string. -/
theorem TokenBuffer.Holds.string_bytes (h : token.Holds (l ++ [0#8])) (hzero : 0#8 ∉ l)
    (hl : l.length < ldsoPreloadTokenMax) : token.string.bytes = l := by
  have hbytes : (range (l.length + 1)).map token.bytes = l ++ [0#8] := by
    apply ext_getElem?
    intro i
    by_cases hi : i < l.length + 1
    · have hlt : i < (l ++ [0#8]).length := by
        rw [length_append, length_singleton]
        exact hi
      have hget := List.getElem?_eq_getElem hlt
      rw [getElem?_map, getElem?_range hi, hget, Option.map_some, h.bytes i _ hget]
    · rw [List.getElem?_eq_none (by simp; omega), List.getElem?_eq_none (by simp; omega)]
  have hsplit : ldsoPreloadTokenMax =
      l.length + 1 + (ldsoPreloadTokenMax - (l.length + 1)) := by omega
  unfold TokenBuffer.string
  simp only
  rw [hsplit, range_add, map_append, hbytes, List.append_assoc,
    takeWhile_append_of_pos]
  · simp
  · intro c hc
    simp only [ne_eq, decide_eq_true_eq]
    rintro rfl
    exact hzero hc

/-- The loop copies a run of characters, as far as there is room for it. -/
theorem collectToken_returns (h : StringAt mem a s) (htoken : token.Holds l)
    (hl : l.length < ldsoPreloadTokenMax) (hfuel : s.length < fuel) :
    ∃ a' token', collectToken mem fuel a token = .value (a', token') ∧
      StringAt mem a' (s.dropWhile fun c => !ldsoIsPreloadDelimiter c) ∧
      token'.Holds ((l ++ s.takeWhile fun c => !ldsoIsPreloadDelimiter c).take
        (ldsoPreloadTokenMax - 1)) := by
  have hfull : l.take (ldsoPreloadTokenMax - 1) = l := take_of_length_le (by omega)
  induction s generalizing a fuel token l with
  | nil =>
    obtain ⟨fuel, rfl⟩ := Nat.exists_eq_add_of_lt hfuel
    refine ⟨a, token, ?_, h, ?_⟩
    · rw [collectToken, if_neg (by simp [h.nil])]
    · rw [takeWhile_nil, append_nil, hfull]
      exact htoken
  | cons c s ih =>
    obtain ⟨fuel, rfl⟩ : ∃ n, fuel = n + 1 := ⟨fuel - 1, by omega⟩
    have hfuel' : s.length < fuel := Nat.lt_of_succ_lt_succ hfuel
    rw [collectToken, h.head.1]
    cases hc : ldsoIsPreloadDelimiter c with
    | true =>
      refine ⟨a, token, if_neg (by simp), ?_, ?_⟩
      · rw [dropWhile_cons_of_neg (by simp [hc])]
        exact h
      · rw [takeWhile_cons_of_neg (by simp [hc]), append_nil, hfull]
        exact htoken
    | false =>
      rw [if_pos ⟨h.head.2, rfl⟩, dropWhile_cons_of_pos (by simp [hc]),
        takeWhile_cons_of_pos (by simp [hc])]
      by_cases hroom : token.len < ldsoPreloadTokenMax - 1
      · obtain ⟨token', hwrite, hlen, hholds⟩ := htoken.write hl c
        have hlength : (l ++ [c]).length < ldsoPreloadTokenMax := by
          rw [length_append, length_singleton, ← htoken.len]
          omega
        rw [if_pos hroom, hwrite]
        simp only [Outcome.value_bind, Outcome.pure_eq]
        obtain ⟨a', token'', hcollect, hrest⟩ :=
          ih h.tail hholds hlength hfuel' (take_of_length_le (by omega))
        rw [List.append_assoc] at hrest
        exact ⟨a', token'', hcollect, hrest⟩
      · -- the buffer is full: the character is passed over
        rw [if_neg hroom]
        simp only [Outcome.value_bind, Outcome.pure_eq]
        obtain ⟨a', token', hcollect, hstring, hholds⟩ := ih h.tail htoken hl hfuel' hfull
        refine ⟨a', token', hcollect, hstring, ?_⟩
        have hlength : ldsoPreloadTokenMax - 1 ≤ l.length := by
          rw [← htoken.len]
          omega
        rw [take_append_of_le_length hlength] at hholds ⊢
        exact hholds

end Buffer

/-! ## The loop -/

/-- The string that is opened for a run of characters. -/
def tokenString (run : List (BitVec 8)) : CString :=
  ⟨(run.take (ldsoPreloadTokenMax - 1)).takeWhile fun c => c ≠ 0#8, fun hzero => by
    simpa using mem_takeWhile_imp hzero⟩

theorem tokenString_bytes {run : List (BitVec 8)} (h : 0#8 ∉ run) :
    (tokenString run).bytes = run.take (ldsoPreloadTokenMax - 1) := by
  unfold tokenString
  simp only
  rw [takeWhile_eq_self_iff]
  intro c hc
  simp only [ne_eq, decide_eq_true_eq]
  rintro rfl
  exact h (mem_of_mem_take hc)

/-- The runs of characters that are not delimiters. -/
def preloadRuns (value : List (BitVec 8)) : List (List (BitVec 8)) :=
  tokens ldsoIsPreloadDelimiter value

/-- Open a run of characters. -/
def Stage0.attemptRun (st : Stage0) (run : List (BitVec 8)) : Stage0 := st.attempt (tokenString run)

section Loop

variable {mem : Memory} {garbage : ℕ → BitVec 8} {a : BitVec 64} {s : List (BitVec 8)} {fuel : ℕ}

/-- A token of the value is copied to the buffer and opened. -/
theorem token_returns {c : BitVec 8} (garbage : ℕ → BitVec 8) (h : StringAt mem a (c :: s))
    (hc : ldsoIsPreloadDelimiter c = false) (hfuel : s.length + 1 < fuel) :
    ∃ a' token token', collectToken mem fuel a ⟨garbage, 0⟩ = .value (a', token) ∧
      token.write token.len 0#8 = .value token' ∧ token'.len ≠ 0 ∧
      token'.string = tokenString ((c :: s).takeWhile fun c => !ldsoIsPreloadDelimiter c) ∧
      StringAt mem a' ((c :: s).dropWhile fun c => !ldsoIsPreloadDelimiter c) := by
  have hempty : TokenBuffer.Holds ⟨garbage, 0⟩ [] := ⟨rfl, fun i d hd => by simp at hd⟩
  obtain ⟨a', token, hcollect, hrest, hholds⟩ := collectToken_returns h hempty (by decide) hfuel
  rw [nil_append] at hholds
  have hzero : 0#8 ∉ (c :: s).takeWhile fun c => !ldsoIsPreloadDelimiter c := fun hmem =>
    h.nonzero ((takeWhile_sublist _).subset hmem)
  have hpos : 0 < ((c :: s).takeWhile fun c => !ldsoIsPreloadDelimiter c).length := by
    rw [takeWhile_cons_of_pos (by simp [hc])]
    simp
  generalize ((c :: s).takeWhile fun c => !ldsoIsPreloadDelimiter c) = run at *
  have hlength : (run.take (ldsoPreloadTokenMax - 1)).length < ldsoPreloadTokenMax := by
    rw [length_take]
    exact lt_of_le_of_lt (Nat.min_le_left _ _) (by decide)
  have hlen : token.len = min (ldsoPreloadTokenMax - 1) run.length := by
    rw [hholds.len, length_take]
  obtain ⟨token', hwrite, hsame, hholds'⟩ := hholds.write hlength 0#8
  have hbytes := hholds'.string_bytes (fun hmem => hzero (mem_of_mem_take hmem)) hlength
  refine ⟨a', token, token', hcollect, hwrite, ?_, ?_, hrest⟩
  · rw [hsame, hlen, Nat.min_def]
    split
    · decide
    · omega
  · apply CString.eq_of_bytes
    rw [tokenString_bytes hzero]
    exact hbytes

/-- The loop opens every run, one after the other. -/
theorem preloadLoop_returns (h : StringAt mem a s) (hfuel : s.length + 1 < fuel) (st : Stage0) :
    preloadLoop mem garbage fuel a st =
      .value ((preloadRuns s).foldl Stage0.attemptRun st) := by
  induction fuel generalizing a s st with
  | zero => exact absurd hfuel (Nat.not_lt_zero _)
  | succ fuel ih =>
    rw [preloadLoop]
    rcases s with _ | ⟨c, s⟩
    · rw [h.nil, if_pos rfl]
      rfl
    have hlt : s.length + 1 < fuel := by simpa using hfuel
    rw [h.head.1, if_neg h.head.2]
    obtain ⟨a', hscan, hrest⟩ := h.scanWhile (p := ldsoIsPreloadDelimiter) hlt
    have hruns : preloadRuns ((c :: s).dropWhile ldsoIsPreloadDelimiter) = preloadRuns (c :: s) :=
      tokens_dropWhile _
    have hshort : ((c :: s).dropWhile ldsoIsPreloadDelimiter).length ≤ s.length + 1 :=
      length_dropWhile_le _ _
    have hfirst := head?_dropWhile_not ldsoIsPreloadDelimiter (c :: s)
    rw [hscan, Outcome.value_bind, ← hruns]
    generalize (c :: s).dropWhile ldsoIsPreloadDelimiter = rest at *
    rcases rest with _ | ⟨d, rest⟩
    · rw [hrest.nil, if_pos rfl]
      rfl
    have hd : ldsoIsPreloadDelimiter d = false := hfirst
    have hlt' : rest.length + 1 < fuel := lt_of_le_of_lt hshort hlt
    obtain ⟨a'', token, token', hcollect, hwrite, hlen, hstring, hrest'⟩ :=
      token_returns garbage hrest hd hlt'
    rw [hrest.head.1, if_neg hrest.head.2, hcollect]
    simp only [Outcome.value_bind, hwrite, if_neg hlen, hstring]
    -- at least one character has been passed, so there are rounds left for the rest
    have hless : ((d :: rest).dropWhile fun c => !ldsoIsPreloadDelimiter c).length + 1 < fuel := by
      rw [dropWhile_cons_of_pos (by simp [hd])]
      have := length_dropWhile_le (fun c => !ldsoIsPreloadDelimiter c) rest
      omega
    rw [ih hrest' hless]
    conv_rhs => rw [preloadRuns, tokens_cons hd, foldl_cons]
    rfl

end Loop

/-! ## The call -/

/-- The state after `loaded` tokens were opened and `failed` were not. -/
def Stage0State.preloaded (s : Stage0State) (loaded failed : ℕ) : Stage0State :=
  { s with
    ldPreloadAttempted := s.ldPreloadAttempted + BitVec.ofNat 64 (loaded + failed)
    ldPreloadLoaded := s.ldPreloadLoaded + BitVec.ofNat 64 loaded
    ldPreloadFailed := s.ldPreloadFailed + BitVec.ofNat 64 failed }

/-- The registry after the names have been opened. -/
def openAll (s : Dlfcn) (names : List CString) : Dlfcn :=
  names.foldl (fun s name => (ldsoDlopen s (some name)).1) s

theorem Stage0.attempt_eq (st : Stage0) (token : CString) :
    ∃ loaded failed, loaded + failed = 1 ∧ st.attempt token =
      ⟨st.state.preloaded loaded failed, openAll st.dlfcn [token], st.opened ++ [token]⟩ := by
  unfold Stage0.attempt openAll
  rcases hopen : ldsoDlopen st.dlfcn (some token) with ⟨dlfcn, _ | i⟩
  · refine ⟨0, 1, rfl, ?_⟩
    simp [Stage0State.preloaded, hopen]
  · refine ⟨1, 0, rfl, ?_⟩
    simp [Stage0State.preloaded, hopen]

/-- Every run is opened once, and counted as loaded or as failed. -/
theorem foldl_attemptRun (runs : List (List (BitVec 8))) (st : Stage0) :
    ∃ loaded failed, loaded + failed = runs.length ∧ runs.foldl Stage0.attemptRun st =
      ⟨st.state.preloaded loaded failed, openAll st.dlfcn (runs.map tokenString),
        st.opened ++ runs.map tokenString⟩ := by
  induction runs generalizing st with
  | nil =>
    refine ⟨0, 0, rfl, ?_⟩
    simp [Stage0State.preloaded, openAll]
  | cons run runs ih =>
    obtain ⟨loaded, failed, hone, hattempt⟩ := st.attempt_eq (tokenString run)
    obtain ⟨loaded', failed', hsum, hfold⟩ := ih (st.attempt (tokenString run))
    refine ⟨loaded + loaded', failed + failed', ?_, ?_⟩
    · rw [length_cons]
      omega
    · rw [foldl_cons, Stage0.attemptRun, hfold, hattempt]
      simp only [Stage0State.preloaded, openAll, map_cons, foldl_cons, foldl_nil,
        List.append_assoc, singleton_append, BitVec.add_assoc, ← ofNat_add,
        show loaded + failed + (loaded' + failed') = loaded + loaded' + (failed + failed') by omega]

/-- The runs of the value of `LD_PRELOAD`; none without a value. -/
def environmentRuns (strings : List (List (BitVec 8))) : List (List (BitVec 8)) :=
  match environmentValue ldsoLdPreloadKey strings with
  | none => []
  | some value => preloadRuns value

section Call

variable {mem : Memory} {stack : BitVec 64} {args env : List (BitVec 64)}
  {strings : List (List (BitVec 8))}

/-- The value is a string in memory. -/
theorem stringAt_environmentValue {value : List (BitVec 8)} (h : EnvironmentAt mem env strings)
    (hvalue : environmentValue ldsoLdPreloadKey strings = some value) :
    ∃ a, StringAt mem a value := by
  have hspec := envValue_spec (show 0#8 ∉ ldsoLdPreloadKey by decide) (by decide) h
  rw [hvalue] at hspec
  exact ⟨_, hspec.1⟩

/-- If a string is found, the function opens its runs. -/
theorem StartStack.applyLdPreload_returns (h : StartStack mem stack args env) {s : List (BitVec 8)}
    (hstring : envValue mem ldsoLdPreloadKey env ≠ 0#64 →
      StringAt mem (envValue mem ldsoLdPreloadKey env) s) (garbage : ℕ → BitVec 8) (st : Stage0) :
    Outcome.Returns (fun fuel => ldsoStage0ApplyLdPreload fuel mem garbage stack st)
      (if envValue mem ldsoLdPreloadKey env = 0#64 ∨
          mem (envValue mem ldsoLdPreloadKey env) = 0#8 then st
        else (preloadRuns s).foldl Stage0.attemptRun
          { st with state := { st.state with ldPreloadSeen := 1#64 } }) := by
  refine ⟨env.length + s.length + 2, ?_⟩
  intro fuel hfuel
  show ldsoStage0ApplyLdPreload fuel mem garbage stack st = _
  unfold ldsoStage0ApplyLdPreload
  rw [h.findEnvValue (by decide) (by omega), Outcome.value_bind]
  split
  · rfl
  · rename_i hfound
    rw [not_or] at hfound
    exact preloadLoop_returns (hstring hfound.1) (by omega) _

/-- The function opens the runs of the value, if there are any. -/
theorem applyLdPreload_runs (hstack : StartStack mem stack args env)
    (henv : EnvironmentAt mem env strings) (garbage : ℕ → BitVec 8) (st : Stage0) :
    ∃ seen, Outcome.Returns (fun fuel => ldsoStage0ApplyLdPreload fuel mem garbage stack st)
      ((environmentRuns strings).foldl Stage0.attemptRun
        { st with state := { st.state with ldPreloadSeen := seen } }) := by
  have hspec := envValue_spec (show 0#8 ∉ ldsoLdPreloadKey by decide) (by decide) henv
  unfold environmentRuns
  cases hvalue : environmentValue ldsoLdPreloadKey strings with
  | none =>
    rw [hvalue] at hspec
    have hreturns := hstack.applyLdPreload_returns (s := []) (absurd hspec) garbage st
    rw [if_pos (.inl hspec)] at hreturns
    exact ⟨st.state.ldPreloadSeen, hreturns⟩
  | some value =>
    rw [hvalue] at hspec
    obtain ⟨hstring, hne⟩ := hspec
    have hreturns := hstack.applyLdPreload_returns (fun _ => hstring) garbage st
    cases value with
    | nil =>
      rw [if_pos (.inr hstring.nil)] at hreturns
      exact ⟨st.state.ldPreloadSeen, hreturns⟩
    | cons c value =>
      rw [hstring.head.1, if_neg (not_or.mpr ⟨hne, hstring.head.2⟩)] at hreturns
      exact ⟨1#64, hreturns⟩

/-- For every stack and environment: the function returns; it gives to `ldso_dlopen` the runs of
the value of the first `LD_PRELOAD=`, in order, each cut off after 127 characters; and it counts
the runs, each as loaded or as failed. -/
theorem ld_preload_tokens (hstack : StartStack mem stack args env)
    (henv : EnvironmentAt mem env strings) (garbage : ℕ → BitVec 8) (dlfcn : Dlfcn)
    (state : Stage0State) (hstate : state.ldPreloadAttempted = 0#64 ∧
      state.ldPreloadLoaded = 0#64 ∧ state.ldPreloadFailed = 0#64) :
    ∃ st, Outcome.Returns
        (fun fuel => ldsoStage0ApplyLdPreload fuel mem garbage stack ⟨state, dlfcn, []⟩) st ∧
      st.opened.map CString.bytes = (environmentRuns strings).map (take 127) ∧
      st.dlfcn = openAll dlfcn st.opened ∧
      st.state.ldPreloadAttempted.toNat = (environmentRuns strings).length ∧
      st.state.ldPreloadLoaded.toNat + st.state.ldPreloadFailed.toNat =
        (environmentRuns strings).length := by
  obtain ⟨seen, hreturns⟩ := applyLdPreload_runs hstack henv garbage ⟨state, dlfcn, []⟩
  obtain ⟨loaded, failed, hsum, hfold⟩ := foldl_attemptRun (environmentRuns strings)
    ⟨{ state with ldPreloadSeen := seen }, dlfcn, []⟩
  -- the runs are pieces of a string in memory
  have hruns : (environmentRuns strings).length < 2 ^ 64 ∧
      ∀ run ∈ environmentRuns strings, 0#8 ∉ run := by
    unfold environmentRuns
    cases hvalue : environmentValue ldsoLdPreloadKey strings with
    | none => exact ⟨by decide, fun run hrun => by cases hrun⟩
    | some value =>
      obtain ⟨a, hstring⟩ := stringAt_environmentValue henv hvalue
      refine ⟨lt_of_le_of_lt (length_tokens_le _ _) hstring.length_lt, ?_⟩
      intro run hrun hzero
      exact hstring.nonzero (mem_of_mem_tokens hrun hzero)
  have hloaded : loaded < 2 ^ 64 ∧ failed < 2 ^ 64 ∧ loaded + failed < 2 ^ 64 := by omega
  refine ⟨_, hreturns, ?_⟩
  rw [hfold]
  simp only [Stage0State.preloaded, hstate, nil_append, BitVec.zero_add,
    toNat_ofNat, Nat.mod_eq_of_lt hloaded.1, Nat.mod_eq_of_lt hloaded.2.1,
    Nat.mod_eq_of_lt hloaded.2.2]
  refine ⟨?_, trivial, hsum, hsum⟩
  rw [map_map]
  apply map_congr_left
  intro run hrun
  exact tokenString_bytes (hruns.2 run hrun)

end Call

/-! ## An example -/

/-- The string `LD_PRELOAD= libc.so.6::x`. -/
def preloadString : List (BitVec 8) :=
  ldsoLdPreloadKey ++ 0x20#8 :: (libcName.bytes ++ [0x3A#8, 0x3A#8, 0x78#8])

/-- No arguments, and one environment string at `0x2000`; the stack is at `0x1000`. -/
def preloadMemory : Memory := fun a =>
  if a = 0x1011#64 then 0x20#8 else preloadString.getD (a - 0x2000#64).toNat 0#8

theorem startStack_preloadMemory : StartStack preloadMemory 0x1000#64 [] [0x2000#64] where
  nonnull := by decide
  inSpace := by decide
  args_ne := by decide
  env_ne := by decide
  words i w hw := by
    have hi : i < 4 := (List.getElem?_eq_some_iff.mp hw).1
    have hread : ∀ i < 4, some (word64 preloadMemory (entryAddr 0x1000#64 8 i)) =
        (startWords [] [0x2000#64])[i]? := by decide +kernel
    exact Option.some_inj.mp ((hread i hi).trans hw)

theorem environmentAt_preloadMemory :
    EnvironmentAt preloadMemory [0x2000#64] [preloadString] := by
  refine .cons ⟨⟨by decide, ?_, by decide +kernel⟩, by decide⟩ .nil
  intro i c hc
  have hi : i < 24 := (List.getElem?_eq_some_iff.mp hc).1
  have hread : ∀ i < 24, some (preloadMemory (0x2000#64 + BitVec.ofNat 64 i)) =
      preloadString[i]? := by decide +kernel
  exact Option.some_inj.mp ((hread i hi).trans hc)

/-- Two tokens are opened: `libc.so.6` and `x`. -/
theorem ld_preload_two_tokens :
    StartStack preloadMemory 0x1000#64 [] [0x2000#64] ∧
      EnvironmentAt preloadMemory [0x2000#64] [preloadString] ∧
      ∃ st, Outcome.Returns (fun fuel => ldsoStage0ApplyLdPreload fuel preloadMemory
          (fun _ => 0xFF#8) 0x1000#64
          ⟨ldsoStage0StateReset, ⟨fun _ => freeObject, true, false, ""⟩, []⟩) st ∧
        st.opened.map CString.bytes = [libcName.bytes, [0x78#8]] ∧
        st.state.ldPreloadAttempted.toNat = 2 := by
  obtain ⟨st, hreturns, hopened, _, hcount, _⟩ := ld_preload_tokens startStack_preloadMemory
    environmentAt_preloadMemory (fun _ => 0xFF#8) ⟨fun _ => freeObject, true, false, ""⟩
    ldsoStage0StateReset ⟨rfl, rfl, rfl⟩
  have hruns : environmentRuns [preloadString] = [libcName.bytes, [0x78#8]] := by decide +kernel
  rw [hruns] at hopened hcount
  exact ⟨startStack_preloadMemory, environmentAt_preloadMemory, st, hreturns, hopened, hcount⟩

end GnuOS.Ldso
