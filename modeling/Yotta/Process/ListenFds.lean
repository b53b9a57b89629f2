import Yotta.Lib.Time

/-!
# The listening sockets in the environment

Model of `create_listen_fds_env` and `parse_listen_fds_env` (`yta_process.c`, lines
29–79).

The memory from `buf` on is a list that is at first as long as the allocation; a `sprintf`
that passes its end makes it longer. A C string is the list of its bytes, and reading at
its end gives the NUL.
-/

namespace Yotta.Process

open Yotta.Bytes Yotta.Numeral Yotta.Time

/-! ## Model of the code -/

/-- The memory from `buf` on, and `cur - buf`. -/
structure EnvBuf where
  mem : List UInt8
  cur : ℕ

/-- `cur += sprintf(cur, …)`, for what is printed. -/
def EnvBuf.sprintf (b : EnvBuf) (s : List UInt8) : EnvBuf :=
  { mem := blit b.mem b.cur (s ++ [0]), cur := b.cur + s.length }

/-- The loop of `create_listen_fds_env` (lines 40–43). -/
def printFds (b : EnvBuf) (fds : List ℤ) : EnvBuf :=
  fds.foldl (fun b fd => b.sprintf (signedDecimal fd ++ [space])) b

/-- `buf_size`; `sizeof` counts the NUL of the literal. -/
def bufSize (workerCount : ℕ) : ℕ :=
  (ascii "listen_fds=").length + 1 + workerCount * 5 + workerCount - 1

/-- `create_listen_fds_env` behind the allocation, for `worker_count` entries of
`listen_fds`: the memory from `buf` on. -/
def createListenFdsEnv (listenFds : List ℤ) (workerCount : ℕ) : List UInt8 :=
  let b : EnvBuf := { mem := List.replicate (bufSize workerCount) 0, cur := 0 }
  let b := b.sprintf (ascii "listen_fds=")
  let b := printFds b (listenFds.take (workerCount - 1))
  (b.sprintf (signedDecimal (listenFds.getD (workerCount - 1) 0))).mem

/-- `getenv("listen_fds")` in a process that has the string in its environment. -/
def getenv (string : List UInt8) : List UInt8 := (cstr string).drop (ascii "listen_fds=").length

/-- `strtol(s, NULL, 10)` -/
def strtol (s : List UInt8) : ℤ := max (-2 ^ 63) (min ((leadingInt s).getD 0) (2 ^ 63 - 1))

/-- `atoi(s)` -/
def atoi (s : List UInt8) : ℤ := toInt (strtol s)

/-- `while (*cur != '\0' && *cur != ' ') ++cur;` -/
def skipField : List UInt8 → List UInt8
  | [] => []
  | c :: cur => if c ≠ 0 ∧ c ≠ space then skipField cur else c :: cur

/-- The loop of `parse_listen_fds_env` (lines 59–76), for at most the given number of
rounds: what is stored, index by index. At its head `iter` is `cur`. -/
def parseLoop : ℕ → List UInt8 → ℕ → List (ℕ × ℤ)
  | 0, _, _ => []
  | rounds + 1, iter, fdIter =>
    if iter.headD 0 = 0 then []
    else
      let cur := skipField iter
      (fdIter, atoi iter) ::
        if cur.headD 0 = 0 then [] else parseLoop rounds (cur.drop 1) (fdIter + 1)

/-- The stores of `parse_listen_fds_env`. Each round takes a byte of the string, so that
its length is rounds enough. -/
def listenFdsStores (env : List UInt8) : List (ℕ × ℤ) := parseLoop env.length env 0

/-- `parse_listen_fds_env(listen_fds_env, fd_count)` -/
def parseListenFdsEnv (env : List UInt8) (fdCount : ℕ) : List ℤ :=
  (listenFdsStores env).foldl (fun fds e => fds.set e.1 e.2) (List.replicate fdCount 0)

/-! ## Printing -/

/-- The string at `buf` is `text`, and `cur` stands at its end. -/
def Holds (b : EnvBuf) (text : List UInt8) : Prop :=
  (∃ rest, b.mem = text ++ 0 :: rest) ∧ b.cur = text.length

theorem Holds.sprintf {b : EnvBuf} {text : List UInt8} (h : Holds b text) (s : List UInt8) :
    Holds (b.sprintf s) (text ++ s) := by
  obtain ⟨⟨rest, hmem⟩, hcur⟩ := h
  unfold EnvBuf.sprintf
  refine ⟨⟨b.mem.drop (b.cur + (s ++ [0]).length), ?_⟩, ?_⟩
  · show blit b.mem b.cur (s ++ [0]) = _
    rw [blit, hcur]
    nth_rewrite 1 [hmem]
    rw [List.take_left]
    simp
  · show b.cur + s.length = (text ++ s).length
    rw [List.length_append, hcur]

theorem Holds.printFds {b : EnvBuf} {text : List UInt8} (h : Holds b text) (fds : List ℤ) :
    Holds (printFds b fds) (text ++ fds.flatMap fun fd => signedDecimal fd ++ [space]) := by
  unfold Process.printFds
  induction fds generalizing b text with
  | nil => simpa using h
  | cons fd fds ih =>
    rw [List.foldl_cons, List.flatMap_cons, ← List.append_assoc]
    exact ih (h.sprintf _)

theorem holds_calloc {n : ℕ} (hn : 0 < n) : Holds { mem := List.replicate n 0, cur := 0 } [] := by
  obtain ⟨m, rfl⟩ := Nat.exists_eq_succ_of_ne_zero (Nat.pos_iff_ne_zero.mp hn)
  exact ⟨⟨List.replicate m 0, List.replicate_succ⟩, rfl⟩

/-- The text of a list of descriptors, one blank between two of them. -/
def fdsText : List ℤ → List UInt8
  | [] => []
  | [fd] => signedDecimal fd
  | fd :: fd' :: fds => signedDecimal fd ++ space :: fdsText (fd' :: fds)

theorem fdsText_concat (fds : List ℤ) (fd : ℤ) :
    fdsText (fds ++ [fd]) =
      (fds.flatMap fun fd => signedDecimal fd ++ [space]) ++ signedDecimal fd := by
  induction fds with
  | nil => rfl
  | cons fd' fds ih =>
    obtain ⟨fd'', tl, htl⟩ := List.exists_cons_of_ne_nil (List.concat_ne_nil fd fds)
    rw [List.cons_append, List.flatMap_cons, List.append_assoc, ← ih, htl, fdsText]
    simp

/-- The string is `listen_fds=` and the text of the descriptors. -/
theorem createListenFdsEnv_eq {fds : List ℤ} (hne : fds ≠ []) :
    ∃ rest, createListenFdsEnv fds fds.length =
      ascii "listen_fds=" ++ fdsText fds ++ 0 :: rest := by
  obtain ⟨init, last, rfl⟩ : ∃ init last, fds = init ++ [last] :=
    ⟨_, _, (List.dropLast_append_getLast hne).symm⟩
  have hlen : (init ++ [last]).length - 1 = init.length := by simp
  have hsize : 0 < bufSize (init ++ [last]).length := by
    unfold bufSize
    rw [List.length_append, List.length_singleton]
    omega
  have h := (((holds_calloc hsize).sprintf (ascii "listen_fds=")).printFds init).sprintf
    (signedDecimal last)
  obtain ⟨rest, hrest⟩ := h.1
  refine ⟨rest, ?_⟩
  unfold createListenFdsEnv
  dsimp only
  rw [hlen, List.take_left, List.getD_append_right _ _ _ _ (Nat.le_refl _), Nat.sub_self,
    List.getD_cons_zero, hrest, fdsText_concat]
  simp only [List.nil_append, List.append_assoc]

/-! ## Reading -/

/-- A descriptor, read from where its text begins. -/
theorem atoi_signedDecimal {fd : ℤ} (h : 0 ≤ fd ∧ fd < 2 ^ 31) {rest : List UInt8}
    (hrest : ∀ c ∈ rest.head?, ¬ isDigit c) : atoi (signedDecimal fd ++ rest) = fd := by
  rw [signedDecimal_of_nonneg h.1, atoi, strtol, leadingInt_decimal _ hrest, Option.getD_some,
    Int.natAbs_of_nonneg h.1, toInt_eq (by omega)]
  omega

theorem skipField_append {s : List UInt8} (hs : ∀ c ∈ s, c ≠ 0 ∧ c ≠ space)
    {rest : List UInt8} (hrest : ∀ c ∈ rest.head?, c = space) :
    skipField (s ++ rest) = rest := by
  induction s with
  | nil =>
    cases rest with
    | nil => rfl
    | cons c rest =>
      obtain rfl : c = space := hrest c rfl
      rfl
  | cons c s ih =>
    rw [List.cons_append, skipField, if_pos (hs c List.mem_cons_self)]
    exact ih fun d hd => hs d (List.mem_cons_of_mem _ hd)

theorem ne_of_isDigit {c : UInt8} (hc : isDigit c) : c ≠ 0 ∧ c ≠ space := by
  constructor <;> rintro rfl <;> exact absurd hc (by decide)

/-- One round of the loop reads one descriptor. -/
theorem parseLoop_signedDecimal {fd : ℤ} (h : 0 ≤ fd ∧ fd < 2 ^ 31) {rest : List UInt8}
    (hrest : ∀ c ∈ rest.head?, c = space) (rounds k : ℕ) :
    parseLoop (rounds + 1) (signedDecimal fd ++ rest) k =
      (k, fd) :: if rest = [] then [] else parseLoop rounds (rest.drop 1) (k + 1) := by
  have hdigits : ∀ c ∈ signedDecimal fd, isDigit c := by
    rw [signedDecimal_of_nonneg h.1]
    exact decimal_digits _
  have hfirst : (signedDecimal fd ++ rest).headD 0 ≠ 0 := by
    obtain ⟨c, s, hs⟩ := List.exists_cons_of_ne_nil (decimal_ne_nil fd.natAbs)
    rw [← signedDecimal_of_nonneg h.1] at hs
    rw [hs]
    exact (ne_of_isDigit (hdigits c (by simp [hs]))).1
  have hnot : ∀ c ∈ rest.head?, ¬ isDigit c := by
    intro c hc
    obtain rfl := hrest c hc
    decide
  have hskip : skipField (signedDecimal fd ++ rest) = rest :=
    skipField_append (fun c hc => ne_of_isDigit (hdigits c hc)) hrest
  have hend : rest.headD 0 = 0 ↔ rest = [] := by
    cases rest with
    | nil => simp
    | cons c rest =>
      obtain rfl := hrest c rfl
      simp [space]
  rw [parseLoop, if_neg hfirst, atoi_signedDecimal h hnot, hskip]
  simp only [hend]

/-- The loop stores the descriptors of a text in order, from index `k` on. -/
theorem parseLoop_fdsText {fds : List ℤ} (h : ∀ fd ∈ fds, 0 ≤ fd ∧ fd < 2 ^ 31) (k rounds : ℕ)
    (hrounds : fds.length ≤ rounds) :
    parseLoop rounds (fdsText fds) k = (fds.zipIdx k).map Prod.swap := by
  induction fds generalizing k rounds with
  | nil => cases rounds <;> rfl
  | cons fd fds ih =>
    obtain ⟨m, rfl⟩ : ∃ m, rounds = m + 1 := ⟨rounds - 1, by simp at hrounds; omega⟩
    have hfd := h fd List.mem_cons_self
    cases fds with
    | nil =>
      have hend : ∀ c ∈ ([] : List UInt8).head?, c = space := by simp
      have hread := parseLoop_signedDecimal hfd hend m k
      rw [List.append_nil] at hread
      rw [fdsText, hread, if_pos rfl]
      rfl
    | cons fd' fds =>
      rw [fdsText, parseLoop_signedDecimal hfd (by simp) m k, if_neg (List.cons_ne_nil _ _),
        List.drop_one, List.tail_cons,
        ih (fun d hd => h d (List.mem_cons_of_mem _ hd)) (k + 1) m (by simpa using hrounds)]
      rfl

theorem length_le_fdsText (fds : List ℤ) : fds.length ≤ (fdsText fds).length := by
  induction fds with
  | nil => exact Nat.le_refl 0
  | cons fd fds ih =>
    have hpos := List.length_pos_of_ne_nil (signedDecimal_ne_nil fd)
    cases fds with
    | nil => exact hpos
    | cons fd' fds =>
      simp only [fdsText, List.length_append, List.length_cons] at ih ⊢
      omega

/-- Storing a list index by index over an array as long gives the list. -/
theorem foldl_set_zipIdx (pre fds : List ℤ) :
    ((fds.zipIdx pre.length).map Prod.swap).foldl (fun fds e => fds.set e.1 e.2)
      (pre ++ List.replicate fds.length 0) = pre ++ fds := by
  induction fds generalizing pre with
  | nil => simp
  | cons fd fds ih =>
    have hset : (pre ++ List.replicate (fd :: fds).length 0).set pre.length fd =
        (pre ++ [fd]) ++ List.replicate fds.length 0 := by
      rw [List.length_cons, List.replicate_succ, List.set_append_right _ _ (Nat.le_refl _),
        Nat.sub_self, List.set_cons_zero, List.append_assoc, List.singleton_append]
    have := ih (pre ++ [fd])
    rw [List.length_append, List.length_singleton, List.append_assoc pre [fd] fds] at this
    rw [List.zipIdx_cons, List.map_cons, List.foldl_cons]
    show List.foldl _ ((pre ++ List.replicate (fd :: fds).length 0).set pre.length fd) _ = _
    rw [hset]
    exact this

/-! ## The round trip -/

theorem mem_fdsText {fds : List ℤ} (h : ∀ fd ∈ fds, 0 ≤ fd) : (0 : UInt8) ∉ fdsText fds := by
  have hfd : ∀ fd : ℤ, 0 ≤ fd → (0 : UInt8) ∉ signedDecimal fd := by
    intro fd h0 hmem
    rw [signedDecimal_of_nonneg h0] at hmem
    exact (ne_of_isDigit (decimal_digits _ 0 hmem)).1 rfl
  induction fds with
  | nil => simp [fdsText]
  | cons fd fds ih =>
    cases fds with
    | nil => exact hfd fd (h fd List.mem_cons_self)
    | cons fd' fds =>
      rw [fdsText, List.mem_append, List.mem_cons]
      rintro (hmem | hmem | hmem)
      · exact hfd fd (h fd List.mem_cons_self) hmem
      · exact absurd hmem (by decide)
      · exact ih (fun d hd => h d (List.mem_cons_of_mem _ hd)) hmem

/-- What the new binary finds in its environment. -/
theorem getenv_createListenFdsEnv {fds : List ℤ} (hne : fds ≠ []) (h : ∀ fd ∈ fds, 0 ≤ fd) :
    getenv (createListenFdsEnv fds fds.length) = fdsText fds := by
  obtain ⟨rest, hrest⟩ := createListenFdsEnv_eq hne
  have hzero : (0 : UInt8) ∉ ascii "listen_fds=" ++ fdsText fds := by
    rw [List.mem_append]
    rintro (hmem | hmem)
    · exact absurd hmem (by decide)
    · exact mem_fdsText h hmem
  rw [getenv, hrest, cstr_append_zero hzero, List.drop_left]

/-- **The listening sockets survive an upgrade.** What `parse_listen_fds_env` stores from
the string of `create_listen_fds_env` are the descriptors, in order, at the indices of the
array. -/
theorem parse_create {fds : List ℤ} (hne : fds ≠ []) (h : ∀ fd ∈ fds, 0 ≤ fd ∧ fd < 2 ^ 31) :
    parseListenFdsEnv (getenv (createListenFdsEnv fds fds.length)) fds.length = fds ∧
    listenFdsStores (getenv (createListenFdsEnv fds fds.length)) =
      (fds.zipIdx).map Prod.swap := by
  have hstores : listenFdsStores (getenv (createListenFdsEnv fds fds.length)) =
      (fds.zipIdx).map Prod.swap := by
    rw [getenv_createListenFdsEnv hne fun fd hfd => (h fd hfd).1, listenFdsStores]
    exact parseLoop_fdsText h 0 _ (length_le_fdsText fds)
  refine ⟨?_, hstores⟩
  rw [parseListenFdsEnv, hstores]
  exact foldl_set_zipIdx [] fds

/-- Descriptors of one, two and four digits. -/
theorem parse_create_three :
    parseListenFdsEnv (getenv (createListenFdsEnv [3, 12, 1024] 3)) 3 = [3, 12, 1024] ∧
    listenFdsStores (getenv (createListenFdsEnv [3, 12, 1024] 3)) = [(0, 3), (1, 12), (2, 1024)] :=
  parse_create (List.cons_ne_nil 3 [12, 1024]) (by decide)

end Yotta.Process
