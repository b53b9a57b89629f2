import Yotta.Lib.Region
import Yotta.Process.ListenFds

/-!
# The accesses of the listening sockets' environment

`create_listen_fds_env` prints into `buf_size` bytes and `parse_listen_fds_env` stores
into `fd_count` integers (`yta_process.c`, lines 29–79). Neither looks at these sizes
while it works.

Results:
* `createListenFdsEnvIn_eq`: the text fits when the descriptors have five digits on
  average, and a write passes the end of the allocation otherwise.
* `parseRun_eq`: the parser ends on every string.
* `parseLoop_indices`: it stores one descriptor for each blank and one for what stands
  behind the last one, at the indices from 0 on.
* `parse_create_inBounds_iff`: what one binary has printed, the next one stores in bounds
  exactly when it has no fewer workers.
-/

namespace Yotta.Process

open Yotta.Bytes Yotta.Numeral Yotta.Region Yotta.Time

/-! ## Printing into the allocation -/

/-- `cur += sprintf(cur, …)` into a region of `size` bytes. -/
def EnvBuf.sprintfIn (size : ℕ) (b : EnvBuf) (s : List UInt8) : Option EnvBuf := do
  let mem ← copyTo size b.mem b.cur (s ++ [0])
  return { mem, cur := b.cur + s.length }

/-- The loop of `create_listen_fds_env` (lines 40–43). -/
def printFdsIn (size : ℕ) (b : EnvBuf) (fds : List ℤ) : Option EnvBuf :=
  fds.foldlM (fun b fd => b.sprintfIn size (signedDecimal fd ++ [space])) b

/-- `create_listen_fds_env` behind the allocation of `buf_size` bytes. -/
def createListenFdsEnvIn (listenFds : List ℤ) (workerCount : ℕ) : Option (List UInt8) := do
  let bufSize := bufSize workerCount
  let b : EnvBuf := { mem := List.replicate bufSize 0, cur := 0 }
  let b ← b.sprintfIn bufSize (ascii "listen_fds=")
  let b ← printFdsIn bufSize b (listenFds.take (workerCount - 1))
  let b ← b.sprintfIn bufSize (signedDecimal (listenFds.getD (workerCount - 1) 0))
  return b.mem

/-- The text goes up to `cur`, and NUL stands there. -/
theorem sprintfIn_eq (size : ℕ) (b : EnvBuf) (s : List UInt8) :
    b.sprintfIn size s = if b.cur + s.length < size then some (b.sprintf s) else none := by
  have hlen : (s ++ [0]).length = s.length + 1 := List.length_append
  unfold EnvBuf.sprintfIn
  split_ifs with h
  · rw [copyTo_of_le (by omega)]
    rfl
  · rw [copyTo_of_lt (by omega)]
    rfl

theorem cur_printFds (b : EnvBuf) (fds : List ℤ) :
    (printFds b fds).cur =
      b.cur + (fds.map fun fd => (signedDecimal fd ++ [space]).length).sum := by
  induction fds generalizing b with
  | nil => rfl
  | cons fd fds ih =>
    have hstep : printFds b (fd :: fds) =
        printFds (b.sprintf (signedDecimal fd ++ [space])) fds := rfl
    rw [hstep, ih, List.map_cons, List.sum_cons]
    exact Nat.add_assoc _ _ _

/-- What is printed later goes further, so that the end decides. -/
theorem printFdsIn_eq {size : ℕ} {b : EnvBuf} (hb : b.cur < size) (fds : List ℤ) :
    printFdsIn size b fds =
      if (printFds b fds).cur < size then some (printFds b fds) else none := by
  induction fds generalizing b with
  | nil => exact (if_pos hb).symm
  | cons fd fds ih =>
    have hstep : printFds b (fd :: fds) =
        printFds (b.sprintf (signedDecimal fd ++ [space])) fds := rfl
    unfold printFdsIn at ih ⊢
    rw [List.foldlM_cons, sprintfIn_eq, hstep]
    by_cases h : b.cur + (signedDecimal fd ++ [space]).length < size
    · rw [if_pos h]
      exact ih h
    · rw [if_neg h, if_neg]
      · rfl
      · rw [cur_printFds]
        show ¬ b.cur + _ + _ < size
        omega

/-- The digits of the descriptors, with the signs of negative ones. -/
def digitCount (fds : List ℤ) : ℕ := (fds.map fun fd => (signedDecimal fd).length).sum

theorem sum_length_blank (fds : List ℤ) :
    (fds.map fun fd => (signedDecimal fd ++ [space]).length).sum =
      digitCount fds + fds.length := by
  induction fds with
  | nil => rfl
  | cons fd fds ih =>
    unfold digitCount at ih ⊢
    simp only [List.map_cons, List.sum_cons, List.length_append, List.length_cons,
      List.length_nil] at ih ⊢
    omega

/-- The budget of the allocation is five digits a descriptor. -/
theorem createListenFdsEnvIn_eq {fds : List ℤ} (hne : fds ≠ []) :
    createListenFdsEnvIn fds fds.length =
      if digitCount fds ≤ 5 * fds.length then some (createListenFdsEnv fds fds.length)
      else none := by
  obtain ⟨init, last, rfl⟩ : ∃ init last, fds = init ++ [last] :=
    ⟨_, _, (List.dropLast_append_getLast hne).symm⟩
  have hlen : (init ++ [last]).length = init.length + 1 := by simp
  have hname : (ascii "listen_fds=").length = 11 := by decide
  have hdigits : digitCount (init ++ [last]) = digitCount init + (signedDecimal last).length := by
    simp [digitCount]
  have hsize : bufSize (init.length + 1) = 17 + 6 * init.length := by
    unfold bufSize
    omega
  have hget : (init ++ [last]).getD init.length 0 = last := by simp
  have hstart : ∀ mem : List UInt8,
      (EnvBuf.sprintf ⟨mem, 0⟩ (ascii "listen_fds=")).cur = 11 := by
    intro mem
    show 0 + (ascii "listen_fds=").length = 11
    omega
  unfold createListenFdsEnvIn createListenFdsEnv
  dsimp only
  rw [hlen, Nat.add_sub_cancel, List.take_left, hget, sprintfIn_eq, if_pos (by dsimp only; omega),
    Option.bind_eq_bind, Option.bind_some]
  have hcur := hstart (List.replicate (bufSize (init.length + 1)) 0)
  generalize EnvBuf.sprintf ⟨List.replicate (bufSize (init.length + 1)) 0, 0⟩
    (ascii "listen_fds=") = b at hcur ⊢
  have hend := cur_printFds b init
  rw [hcur, sum_length_blank] at hend
  rw [printFdsIn_eq (by omega)]
  by_cases hfit : digitCount (init ++ [last]) ≤ 5 * (init.length + 1)
  · rw [if_pos hfit, if_pos (by omega), Option.bind_some, sprintfIn_eq, if_pos (by omega)]
    rfl
  · rw [if_neg hfit]
    by_cases hloop : (printFds b init).cur < bufSize (init.length + 1)
    · rw [if_pos hloop, Option.bind_some, sprintfIn_eq, if_neg (by omega)]
      rfl
    · rw [if_neg hloop]
      rfl

/-- **The text fits its allocation** exactly when the descriptors have no more than five
digits on average. -/
theorem createListenFdsEnv_fits_iff {fds : List ℤ} (hne : fds ≠ []) :
    (createListenFdsEnvIn fds fds.length).isSome ↔ digitCount fds ≤ 5 * fds.length := by
  rw [createListenFdsEnvIn_eq hne]
  split_ifs with h <;> simp [h]

/-- Six digits fit next to one. -/
theorem createListenFdsEnv_fits_six : (createListenFdsEnvIn [100000, 3] 2).isSome :=
  (createListenFdsEnv_fits_iff (List.cons_ne_nil 100000 [3])).mpr (by decide)

/-- The NUL behind six digits lies behind the allocation. -/
theorem createListenFdsEnv_overrun :
    ¬ ∀ fds : List ℤ, fds ≠ [] → (∀ fd ∈ fds, 0 ≤ fd ∧ fd < 2 ^ 31) →
      (createListenFdsEnvIn fds fds.length).isSome := by
  intro h
  have := h [100000] (List.cons_ne_nil _ _) (by decide)
  exact absurd this (by decide)

/-! ## Storing into the array -/

/-- The loop of `parse_listen_fds_env` (lines 59–76), or `none` where it has not ended
after the given number of rounds. -/
def parseRun : ℕ → List UInt8 → ℕ → Option (List (ℕ × ℤ))
  | 0, iter, _ => if iter.headD 0 = 0 then some [] else none
  | rounds + 1, iter, fdIter =>
    if iter.headD 0 = 0 then some []
    else
      let cur := skipField iter
      if cur.headD 0 = 0 then some [(fdIter, atoi iter)]
      else do
        let stores ← parseRun rounds (cur.drop 1) (fdIter + 1)
        return (fdIter, atoi iter) :: stores

/-- What the loop skips, and where it then stands: at the end or at a blank. -/
theorem skipField_spec (iter : List UInt8) :
    ∃ field, iter = field ++ skipField iter ∧ (∀ c ∈ field, c ≠ 0 ∧ c ≠ space) ∧
      ((skipField iter).headD 0 = 0 ∨ ∃ rest, skipField iter = space :: rest) := by
  induction iter with
  | nil => exact ⟨[], rfl, by simp, Or.inl rfl⟩
  | cons c iter ih =>
    rw [skipField]
    split_ifs with h
    · obtain ⟨field, heq, hfield, hstop⟩ := ih
      refine ⟨c :: field, congrArg (c :: ·) heq, ?_, hstop⟩
      intro d hd
      rcases List.mem_cons.mp hd with rfl | hd
      · exact h
      · exact hfield d hd
    · refine ⟨[], rfl, by simp, ?_⟩
      by_cases h0 : c = 0
      · exact Or.inl h0
      · obtain rfl : c = space := by
          by_contra hsp
          exact h ⟨h0, hsp⟩
        exact Or.inr ⟨iter, rfl⟩

/-- Every round takes a byte of the string. -/
theorem length_skipField_drop_lt {iter : List UInt8} (h : (skipField iter).headD 0 ≠ 0) :
    ((skipField iter).drop 1).length < iter.length := by
  obtain ⟨field, heq, -, hstop⟩ := skipField_spec iter
  rcases hstop with h0 | ⟨rest, hrest⟩
  · exact absurd h0 h
  · rw [hrest] at heq ⊢
    rw [heq, List.length_append, List.length_cons, List.drop_one, List.tail_cons]
    omega

/-- The loop ends, whatever the string. -/
theorem parseRun_eq (rounds : ℕ) (iter : List UInt8) (k : ℕ) (h : iter.length ≤ rounds) :
    parseRun rounds iter k = some (parseLoop rounds iter k) := by
  induction rounds generalizing iter k with
  | zero =>
    obtain rfl : iter = [] := List.eq_nil_of_length_eq_zero (Nat.le_zero.mp h)
    rfl
  | succ rounds ih =>
    rw [parseRun, parseLoop]
    split_ifs with h0
    · rfl
    · dsimp only
      by_cases hend : (skipField iter).headD 0 = 0
      · rw [if_pos hend, if_pos hend]
      · have hlt := length_skipField_drop_lt hend
        rw [if_neg hend, if_neg hend, ih _ _ (by omega)]
        rfl

/-- The fields of a string that the loop stores: one for each blank, and one behind the
last blank if anything stands there. -/
def fieldCount (s : List UInt8) : ℕ :=
  s.count space + if s.getLast?.getD space = space then 0 else 1

theorem fieldCount_field {field : List UInt8} (hne : field ≠ [])
    (hfield : ∀ c ∈ field, c ≠ 0 ∧ c ≠ space) : fieldCount field = 1 := by
  have hcount : field.count space = 0 :=
    List.count_eq_zero.mpr fun hmem => (hfield space hmem).2 rfl
  rw [fieldCount, hcount, List.getLast?_eq_some_getLast hne, Option.getD_some,
    if_neg (hfield _ (List.getLast_mem hne)).2]

theorem fieldCount_append {field : List UInt8} (hfield : ∀ c ∈ field, c ≠ 0 ∧ c ≠ space)
    (rest : List UInt8) : fieldCount (field ++ space :: rest) = fieldCount rest + 1 := by
  have hcount : field.count space = 0 :=
    List.count_eq_zero.mpr fun hmem => (hfield space hmem).2 rfl
  have hlast : (field ++ space :: rest).getLast?.getD space = rest.getLast?.getD space := by
    rw [List.getLast?_append_of_ne_nil _ (List.cons_ne_nil _ _), List.getLast?_cons]
    rfl
  rw [fieldCount, fieldCount, hlast, List.count_append, hcount, List.count_cons_self]
  omega

theorem cstr_eq_nil {mem : List UInt8} (h : mem.headD 0 = 0) : cstr mem = [] := by
  cases mem with
  | nil => rfl
  | cons c mem =>
    obtain rfl : c = 0 := h
    rfl

/-- The loop stores at consecutive indices, one for each field of the C string. -/
theorem parseLoop_indices (rounds : ℕ) (iter : List UInt8) (k : ℕ) (h : iter.length ≤ rounds) :
    (parseLoop rounds iter k).map Prod.fst = List.range' k (fieldCount (cstr iter)) := by
  induction rounds generalizing iter k with
  | zero =>
    obtain rfl : iter = [] := List.eq_nil_of_length_eq_zero (Nat.le_zero.mp h)
    rfl
  | succ rounds ih =>
    obtain ⟨field, heq, hfield, hstop⟩ := skipField_spec iter
    have hzero : (0 : UInt8) ∉ field := fun hmem => (hfield 0 hmem).1 rfl
    have hcstr : cstr iter = field ++ cstr (skipField iter) := by
      conv_lhs => rw [heq]
      exact cstr_append hzero _
    rw [parseLoop]
    split_ifs with h0
    · rw [cstr_eq_nil h0]
      rfl
    dsimp only
    by_cases hend : (skipField iter).headD 0 = 0
    · -- the last field
      have hne : field ≠ [] := by
        rintro rfl
        rw [List.nil_append] at heq
        exact h0 (heq ▸ hend)
      rw [if_pos hend, hcstr, cstr_eq_nil hend, List.append_nil, fieldCount_field hne hfield]
      rfl
    · obtain ⟨rest, hrest⟩ := hstop.resolve_left hend
      have hlt := length_skipField_drop_lt hend
      have hcut : cstr (space :: rest) = space :: cstr rest := rfl
      rw [if_neg hend, List.map_cons, ih _ _ (by omega), hcstr, hrest, hcut,
        fieldCount_append hfield, List.range'_succ]
      rfl

theorem stores_inBounds_iff (env : List UInt8) (fdCount : ℕ) :
    (∀ e ∈ listenFdsStores env, e.1 < fdCount) ↔ fieldCount (cstr env) ≤ fdCount := by
  have hindices : (listenFdsStores env).map Prod.fst = List.range' 0 (fieldCount (cstr env)) :=
    parseLoop_indices _ env 0 (Nat.le_refl _)
  have hmem : ∀ i, (∃ e ∈ listenFdsStores env, e.1 = i) ↔ i < fieldCount (cstr env) := by
    intro i
    rw [← List.mem_map, hindices, List.mem_range'_1]
    omega
  constructor
  · intro h
    by_contra hlt
    obtain ⟨e, he, hi⟩ := (hmem fdCount).mpr (by omega)
    have := h e he
    omega
  · intro h e he
    have := (hmem e.1).mp ⟨e, he, rfl⟩
    omega

/-- **The stores stay in the array** exactly when the string has no more fields than the
array has elements. The parser ends on every string. -/
theorem parseListenFdsEnv_inBounds_iff (env : List UInt8) (fdCount : ℕ) :
    parseRun env.length env 0 = some (listenFdsStores env) ∧
      ((∀ e ∈ listenFdsStores env, e.1 < fdCount) ↔ fieldCount (cstr env) ≤ fdCount) :=
  ⟨parseRun_eq _ env 0 (Nat.le_refl _), stores_inBounds_iff env fdCount⟩

/-- Two descriptors for one worker. -/
theorem parseListenFdsEnv_overrun :
    ¬ ∀ (env : List UInt8) (fdCount : ℕ), 0 ∉ env → 1 ≤ fdCount →
      ∀ e ∈ listenFdsStores env, e.1 < fdCount := by
  intro h
  have := h (ascii "3 4") 1 (by decide) (Nat.le_refl 1)
  exact absurd this (by decide)

/-! ## From one binary to the next -/

theorem fieldCount_fdsText {fds : List ℤ} (h : ∀ fd ∈ fds, 0 ≤ fd) :
    fieldCount (fdsText fds) = fds.length := by
  have hdigits : ∀ fd : ℤ, 0 ≤ fd → ∀ c ∈ signedDecimal fd, c ≠ 0 ∧ c ≠ space := by
    intro fd h0 c hc
    rw [signedDecimal_of_nonneg h0] at hc
    exact ne_of_isDigit (decimal_digits _ c hc)
  induction fds with
  | nil => rfl
  | cons fd fds ih =>
    have hfd := hdigits fd (h fd List.mem_cons_self)
    cases fds with
    | nil => exact fieldCount_field (signedDecimal_ne_nil fd) hfd
    | cons fd' fds =>
      rw [fdsText, fieldCount_append hfd, ih fun d hd => h d (List.mem_cons_of_mem _ hd)]
      rfl

/-- **An upgrade in bounds.** What one binary has printed inside its allocation, the next
one stores inside its array exactly when it has no fewer workers. -/
theorem parse_create_inBounds_iff {fds : List ℤ} (hne : fds ≠ []) (h : ∀ fd ∈ fds, 0 ≤ fd)
    {mem : List UInt8} (hmem : createListenFdsEnvIn fds fds.length = some mem) (fdCount : ℕ) :
    (∀ e ∈ listenFdsStores (getenv mem), e.1 < fdCount) ↔ fds.length ≤ fdCount := by
  have hprinted : mem = createListenFdsEnv fds fds.length := by
    rw [createListenFdsEnvIn_eq hne] at hmem
    split_ifs at hmem
    exact (Option.some.inj hmem).symm
  have hcstr : cstr (fdsText fds) = fdsText fds := by
    have hcut := cstr_append (mem_fdsText h) []
    have hnil : cstr [] = [] := rfl
    rwa [hnil, List.append_nil] at hcut
  rw [stores_inBounds_iff, hprinted, getenv_createListenFdsEnv hne h, hcstr,
    fieldCount_fdsText h]

end Yotta.Process
