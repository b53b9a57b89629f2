import Yotta.Http.CleanPath
import Yotta.Lib.Region

/-!
# The accesses of `clean_path`

`clean_path` (`http/yta_http.cpp`, lines 94–152) once more, with every access to `path`
and to `normalized_path` checked: `readable` bytes of `path` may be read and `writable`
bytes of `normalized_path` read or written, and `output` may not be moved below its
start. Tests are made in the order of the source, and a test is not made behind one that
has settled its condition. A loop that has not ended when its rounds are used up fails as
well.

Results:
* `Paid`: the invariant of the loop. What the output has grown by is paid for by bytes
  already read, and a `/` in front of an element by the one that has ended the element
  before.
* `cleanPathIn_eq`: with `length` readable bytes and `max length 1` writable ones no
  access fails, and the result is that of `cleanPath`.
-/

namespace Yotta.Http

open Yotta.Bytes Yotta.Region

/-! ## Model of the code -/

section Model

variable (readable writable : ℕ)

/-- `*output++ = c` -/
def emitIn (st : CleanState) (c : UInt8) : Option CleanState := do
  let buf ← store writable st.buf st.output c
  return { st with buf, output := st.output + 1 }

/-- `while (output > dotdot && *output != '/') --output;` (lines 127–129). -/
def backtrackIn (buf : List UInt8) (dotdot output : ℕ) : Option ℕ := do
  if output > dotdot then
    if ← loadsTo writable buf output slash then return output
    else
      match output with
      | 0 => none
      | output + 1 => backtrackIn buf dotdot output
  else return output

/-- `for (; r < length && path[r] != '/'; ++r) *output++ = path[r];` (lines 142–144),
for at most the given number of rounds. -/
def copyElementIn (path : List UInt8) (length : ℕ) : ℕ → CleanState → Option CleanState
  | 0, st => if st.r < length then none else some st
  | n + 1, st => do
    if st.r < length then
      if ← loadsTo readable path st.r slash then return st
      else
        let c ← load readable path st.r
        let st ← emitIn writable st c
        copyElementIn path length n { st with r := st.r + 1 }
    else return st

/-- One more leading `..` (lines 131–136). -/
def emitUpIn (st : CleanState) : Option CleanState := do
  let st ← if st.output > 0 then emitIn writable st slash else pure st
  let st ← emitIn writable st dot
  let st ← emitIn writable st dot
  return { st with dotdot := st.output }

/-- The body of the `while` loop (lines 115–145). -/
def cleanStepIn (path : List UInt8) (length : ℕ) (rooted : Bool) (st : CleanState) :
    Option CleanState := do
  if ← loadsTo readable path st.r slash then return { st with r := st.r + 1 }
  else if ← loadsTo readable path st.r dot <&&>
      (pure (st.r + 1 == length) <||> loadsTo readable path (st.r + 1) slash) then
    return { st with r := st.r + 1 }
  else if ← loadsTo readable path st.r dot <&&> loadsTo readable path (st.r + 1) dot <&&>
      (pure (st.r + 2 == length) <||> loadsTo readable path (st.r + 2) slash) then
    let st := { st with r := st.r + 2 }
    if st.output > st.dotdot then
      let output ← backtrackIn writable st.buf st.dotdot (← decrement st.output)
      return { st with output }
    else if !rooted then emitUpIn writable st
    else return st
  else
    let st ← if rooted && st.output != 1 || !rooted && st.output != 0 then
      emitIn writable st slash else pure st
    copyElementIn readable writable path length (length - st.r) st

/-- The `while` loop (lines 114–146), for at most the given number of rounds. -/
def cleanLoopIn (path : List UInt8) (length : ℕ) (rooted : Bool) :
    ℕ → CleanState → Option CleanState
  | 0, st => if st.r < length then none else some st
  | n + 1, st => do
    if st.r < length then
      let st ← cleanStepIn readable writable path length rooted st
      cleanLoopIn path length rooted n st
    else return st

/-- `clean_path path length normalized_path` (lines 94–152). -/
def cleanPathIn (path : List UInt8) (length : ℕ) (normalizedPath : List UInt8) :
    Option (ℕ × List UInt8) := do
  if length = 0 then
    let buf ← store writable normalizedPath 0 dot
    return (1, buf)
  else
    let rooted ← loadsTo readable path 0 slash
    let st : CleanState := { buf := normalizedPath, output := 0, r := 0, dotdot := 0 }
    let st ← if rooted then
        let st ← emitIn writable st slash
        pure { st with r := 1, dotdot := 1 }
      else pure st
    let st ← cleanLoopIn readable writable path length rooted length st
    let st ← if st.output = 0 then emitIn writable st dot else pure st
    return (st.output, st.buf)

end Model

/-! ## The accesses -/

section Accesses

variable {writable : ℕ} {path : List UInt8} {length : ℕ} {rooted : Bool}

theorem emitIn_eq (st : CleanState) (c : UInt8) (h : st.output < writable) :
    emitIn writable st c = some (st.emit c) := by
  unfold emitIn
  rw [store_of_lt h]
  rfl

/-- The scan reads at `output` and below. -/
theorem backtrackIn_eq (buf : List UInt8) (dotdot : ℕ) :
    ∀ output, output < writable →
      backtrackIn writable buf dotdot output = some (backtrack buf dotdot output) := by
  intro output
  induction output with
  | zero =>
    intro _
    rw [backtrackIn, if_neg (Nat.not_lt_zero dotdot), backtrack]
    rfl
  | succ output ih =>
    intro h
    rw [backtrackIn, backtrack, loadsTo_of_lt h, ih (by omega)]
    simp only [Option.bind_eq_bind, Option.bind_some, beq_iff_eq]
    by_cases hd : output + 1 > dotdot
    · rw [if_pos hd]
      by_cases hs : buf.getD (output + 1) 0 = slash
      · rw [if_pos hs, if_neg fun hand => hand.2 hs]
        rfl
      · rw [if_neg hs, if_pos ⟨hd, hs⟩]
    · rw [if_neg hd, if_neg fun hand => hd hand.1]
      rfl

theorem backtrack_le (buf : List UInt8) (dotdot output : ℕ) :
    backtrack buf dotdot output ≤ output := by
  induction output with
  | zero => exact Nat.le_refl 0
  | succ output ih =>
    rw [backtrack]
    split_ifs
    · exact Nat.le_succ_of_le ih
    · exact Nat.le_refl _

/-- An element is copied to where it stands or in front of that. -/
theorem copyElementIn_eq (hw : length ≤ writable) :
    ∀ n (st : CleanState), st.output ≤ st.r → length - st.r ≤ n →
      copyElementIn length writable path length n st = some (copyElement path length n st) := by
  intro n
  induction n with
  | zero =>
    intro st _ hn
    rw [copyElementIn, if_neg (by omega)]
    rfl
  | succ n ih =>
    intro st hle hn
    rw [copyElementIn, copyElement]
    by_cases hr : st.r < length
    · have hleft : length - (st.r + 1) ≤ n := by omega
      have hemit := emitIn_eq st (path.getD st.r 0) (by omega : st.output < writable)
      have hnext := ih { st.emit (path.getD st.r 0) with r := st.r + 1 }
        (Nat.succ_le_succ hle) hleft
      rw [if_pos hr, loadsTo_of_lt hr, load_of_lt hr]
      simp only [Option.bind_eq_bind, Option.bind_some, beq_iff_eq, hemit]
      by_cases hs : path.getD st.r 0 = slash
      · rw [if_pos hs, if_neg fun hand => hand.2 hs]
        rfl
      · rw [if_neg hs, if_pos ⟨hr, hs⟩]
        exact hnext
    · rw [if_neg hr, if_neg fun hand => hr hand.1]
      rfl

/-- Where the room for the next element comes from: at the start of the output an element
needs no `/` in front of it, and elsewhere the input is ahead or its next byte is the `/`
itself. -/
structure Paid (path : List UInt8) (length : ℕ) (rooted : Bool) (st : CleanState) : Prop where
  output_le : st.output ≤ st.r
  r_le : st.r ≤ length
  ahead : st.output = (if rooted then 1 else 0) ∨ st.output < st.r ∨ st.r = length ∨
    path.getD st.r 0 = slash

/-- Behind an element stands its `/`, or the end. -/
theorem copyElement_paid :
    ∀ n (st : CleanState), st.output ≤ st.r → st.r ≤ length → length - st.r ≤ n →
      Paid path length rooted (copyElement path length n st) := by
  intro n
  induction n with
  | zero =>
    intro st hle hr hn
    exact ⟨hle, hr, Or.inr (Or.inr (Or.inl (show st.r = length by omega)))⟩
  | succ n ih =>
    intro st hle hr hn
    rw [copyElement]
    split_ifs with h
    · apply ih
      · exact Nat.succ_le_succ hle
      · exact h.1
      · show length - (st.r + 1) ≤ n
        omega
    · refine ⟨hle, hr, Or.inr (Or.inr ?_)⟩
      by_cases hs : path.getD st.r 0 = slash
      · exact Or.inr hs
      · have : ¬ st.r < length := fun hlt => h ⟨hlt, hs⟩
        exact Or.inl (by omega)

theorem output_emitUp (st : CleanState) :
    (emitUp st).output = st.output + if st.output > 0 then 3 else 2 := by
  unfold emitUp
  split_ifs <;> rfl

theorem emitUpIn_eq {st : CleanState} (h : (emitUp st).output ≤ writable) :
    emitUpIn writable st = some (emitUp st) := by
  rw [output_emitUp] at h
  unfold emitUpIn emitUp
  by_cases h0 : st.output > 0
  · rw [if_pos h0] at h
    have h1 := emitIn_eq st slash (by omega : st.output < writable)
    have h2 := emitIn_eq (st.emit slash) dot (by omega : st.output + 1 < writable)
    have h3 := emitIn_eq ((st.emit slash).emit dot) dot (by omega : st.output + 2 < writable)
    simp only [if_pos h0, Option.bind_eq_bind, Option.bind_some, h1, h2, h3]
    rfl
  · rw [if_neg h0] at h
    have h2 := emitIn_eq st dot (by omega : st.output < writable)
    have h3 := emitIn_eq (st.emit dot) dot (by omega : st.output + 1 < writable)
    simp only [if_neg h0, Option.pure_def, Option.bind_eq_bind, Option.bind_some, h2, h3]

/-! ## The tests of the loop -/

/-- The second test reads at `r + 1` only where the path goes on. -/
theorem here_eq {r : ℕ} (hr : r < length) :
    (loadsTo length path r dot <&&>
      (pure (r + 1 == length) <||> loadsTo length path (r + 1) slash)) =
    some (decide (path.getD r 0 = dot ∧ (r + 1 = length ∨ path.getD (r + 1) 0 = slash))) := by
  rw [loadsTo_of_lt hr, andM_some, Option.pure_def, orM_some]
  generalize path.getD r 0 = c
  by_cases hc : c = dot
  · by_cases h1 : r + 1 = length
    · simp [hc, h1]
    · rw [loadsTo_of_lt (by omega : r + 1 < length)]
      generalize path.getD (r + 1) 0 = d
      by_cases hd : d = slash <;> simp [hc, h1, hd]
  · simp [hc]

/-- The third test reads at `r + 1` behind a dot that the second has not taken, and at
`r + 2` behind a second dot. -/
theorem up_eq {r : ℕ} (hr : r < length)
    (hhere : ¬ (path.getD r 0 = dot ∧ (r + 1 = length ∨ path.getD (r + 1) 0 = slash))) :
    (loadsTo length path r dot <&&> loadsTo length path (r + 1) dot <&&>
      (pure (r + 2 == length) <||> loadsTo length path (r + 2) slash)) =
    some (decide (path.getD r 0 = dot ∧ path.getD (r + 1) 0 = dot ∧
      (r + 2 = length ∨ path.getD (r + 2) 0 = slash))) := by
  rw [loadsTo_of_lt hr, andM_some]
  generalize path.getD r 0 = c at hhere ⊢
  by_cases hc : c = dot
  · have h1 : r + 1 < length := by
      have : r + 1 ≠ length := fun heq => hhere ⟨hc, Or.inl heq⟩
      omega
    rw [loadsTo_of_lt h1, andM_some, Option.pure_def, orM_some]
    generalize path.getD (r + 1) 0 = d
    by_cases hd : d = dot
    · by_cases h2 : r + 2 = length
      · simp [hc, hd, h2]
      · rw [loadsTo_of_lt (by omega : r + 2 < length)]
        generalize path.getD (r + 2) 0 = e
        by_cases he : e = slash <;> simp [hc, hd, h2, he]
    · simp [hc, hd]
  · simp [hc]

/-! ## The loop -/

/-- An element that does not begin the output has room for a `/` in front of it. -/
theorem Paid.room {st : CleanState} (h : Paid path length rooted st) (hr : st.r < length)
    (hs : path.getD st.r 0 ≠ slash) (hbase : st.output ≠ if rooted then 1 else 0) :
    st.output < st.r := by
  rcases h.ahead with heq | hlt | heq | heq
  · exact absurd heq hbase
  · exact hlt
  · omega
  · exact absurd heq hs

/-- Input that is skipped pays for what comes. -/
theorem Paid.skip {st : CleanState} (h : Paid path length rooted st) {k output dotdot : ℕ}
    (hk : 0 < k) (hle : st.r + k ≤ length) (hout : output ≤ st.output) :
    Paid path length rooted { st with output, r := st.r + k, dotdot } := by
  have := h.output_le
  refine ⟨?_, hle, Or.inr (Or.inl ?_)⟩
  · show output ≤ st.r + k
    omega
  · show output < st.r + k
    omega

/-- One more leading `..` is paid for by the two dots just read, and the `/` in front of it
by the one that has ended the element before. -/
theorem Paid.emitUp {st : CleanState} (h : Paid path length false st) (hr : st.r < length)
    (hs : path.getD st.r 0 ≠ slash) (hr2 : st.r + 2 ≤ length)
    (hend : st.r + 2 = length ∨ path.getD (st.r + 2) 0 = slash) :
    (emitUp { st with r := st.r + 2 }).output ≤ st.r + 2 ∧
      Paid path length false (emitUp { st with r := st.r + 2 }) := by
  have hroom : (Http.emitUp { st with r := st.r + 2 }).output ≤ st.r + 2 := by
    rw [output_emitUp]
    dsimp only
    have hle := h.output_le
    split_ifs with h0
    · have := h.room hr hs (Nat.ne_of_gt h0)
      omega
    · omega
  refine ⟨hroom, ?_, ?_, Or.inr (Or.inr ?_)⟩
  · rwa [emitUp_r]
  · rwa [emitUp_r]
  · rwa [emitUp_r]

/-- The condition for a `/` in front of an element (lines 138–139). -/
theorem needsSlash_iff (output : ℕ) :
    (rooted && output != 1 || !rooted && output != 0) = true ↔
      output ≠ if rooted then 1 else 0 := by
  cases rooted <;> simp

theorem cleanStepIn_eq {st : CleanState} (h : Paid path length rooted st) (hr : st.r < length)
    (hw : length ≤ writable) :
    cleanStepIn length writable path length rooted st =
        some (cleanStep path length rooted st) ∧
      Paid path length rooted (cleanStep path length rooted st) := by
  have hle := h.output_le
  unfold cleanStepIn cleanStep
  rw [loadsTo_of_lt hr, here_eq hr]
  simp only [Option.bind_eq_bind, Option.bind_some, beq_iff_eq, decide_eq_true_eq]
  by_cases hs : path.getD st.r 0 = slash
  · rw [if_pos hs, if_pos hs]
    exact ⟨rfl, h.skip Nat.one_pos hr (Nat.le_refl _)⟩
  rw [if_neg hs, if_neg hs]
  by_cases hhere : path.getD st.r 0 = dot ∧
      (st.r + 1 = length ∨ path.getD (st.r + 1) 0 = slash)
  · rw [if_pos hhere, if_pos hhere]
    exact ⟨rfl, h.skip Nat.one_pos hr (Nat.le_refl _)⟩
  rw [if_neg hhere, if_neg hhere, up_eq hr hhere]
  simp only [Option.bind_some, decide_eq_true_eq]
  by_cases hup : path.getD st.r 0 = dot ∧ path.getD (st.r + 1) 0 = dot ∧
      (st.r + 2 = length ∨ path.getD (st.r + 2) 0 = slash)
  · rw [if_pos hup, if_pos hup]
    have hr2 : st.r + 2 ≤ length := by
      have : st.r + 1 ≠ length := fun heq => hhere ⟨hup.1, Or.inl heq⟩
      omega
    by_cases hback : st.output > st.dotdot
    · -- `..` behind an element: the scan stays below `output`
      have hscan := backtrack_le st.buf st.dotdot (st.output - 1)
      have hread := backtrackIn_eq st.buf st.dotdot (st.output - 1)
        (by omega : st.output - 1 < writable)
      rw [if_pos hback, if_pos hback, decrement_of_pos (by omega : 0 < st.output)]
      simp only [Option.bind_some, hread]
      exact ⟨rfl, h.skip Nat.two_pos hr2 (by omega)⟩
    · rw [if_neg hback, if_neg hback]
      cases rooted with
      | true => exact ⟨rfl, h.skip Nat.two_pos hr2 (Nat.le_refl _)⟩
      | false =>
        obtain ⟨hroom, hpaid⟩ := h.emitUp hr hs hr2 hup.2.2
        rw [if_pos (by rfl), if_pos (by rfl), emitUpIn_eq (by omega)]
        exact ⟨rfl, hpaid⟩
  · rw [if_neg hup, if_neg hup]
    simp only [needsSlash_iff]
    by_cases hbase : st.output ≠ if rooted then 1 else 0
    · have hlt := h.room hr hs hbase
      have hemit := emitIn_eq st slash (by omega : st.output < writable)
      rw [if_pos hbase, if_pos hbase, hemit, Option.bind_some]
      exact ⟨copyElementIn_eq hw _ _ hlt (Nat.le_refl _),
        copyElement_paid _ _ hlt h.r_le (Nat.le_refl _)⟩
    · rw [if_neg hbase, if_neg hbase, Option.pure_def, Option.bind_some]
      exact ⟨copyElementIn_eq hw _ _ hle (Nat.le_refl _),
        copyElement_paid _ _ hle h.r_le (Nat.le_refl _)⟩

theorem r_le_copyElement (path : List UInt8) (length : ℕ) :
    ∀ n (st : CleanState), st.r ≤ (copyElement path length n st).r := by
  intro n
  induction n with
  | zero => intro st; exact Nat.le_refl _
  | succ n ih =>
    intro st
    rw [copyElement]
    split_ifs
    · have hrest := ih { st.emit (path.getD st.r 0) with r := st.r + 1 }
      exact (Nat.le_succ st.r).trans hrest
    · exact Nat.le_refl _

/-- An element has a first byte. -/
theorem r_lt_copyElement (st : CleanState) (hr : st.r < length)
    (hs : path.getD st.r 0 ≠ slash) :
    st.r < (copyElement path length (length - st.r) st).r := by
  obtain ⟨n, hn⟩ : ∃ n, length - st.r = n + 1 := ⟨length - st.r - 1, by omega⟩
  rw [hn, copyElement, if_pos ⟨hr, hs⟩]
  exact r_le_copyElement path length n { st.emit (path.getD st.r 0) with r := st.r + 1 }

/-- Every round reads on. -/
theorem r_lt_cleanStep (path : List UInt8) (rooted : Bool) {st : CleanState}
    (hr : st.r < length) : st.r < (cleanStep path length rooted st).r := by
  unfold cleanStep
  dsimp only
  split_ifs with hs
  · exact Nat.lt_succ_self _
  · exact Nat.lt_succ_self _
  · exact Nat.lt_add_of_pos_right Nat.two_pos
  · rw [emitUp_r]
    exact Nat.lt_add_of_pos_right Nat.two_pos
  · exact Nat.lt_add_of_pos_right Nat.two_pos
  · exact r_lt_copyElement (st.emit slash) hr hs
  · exact r_lt_copyElement st hr hs

theorem cleanLoopIn_eq (hw : length ≤ writable) :
    ∀ n (st : CleanState), Paid path length rooted st → length - st.r ≤ n →
      cleanLoopIn length writable path length rooted n st =
          some (cleanLoop path length rooted n st) ∧
        Paid path length rooted (cleanLoop path length rooted n st) := by
  intro n
  induction n with
  | zero =>
    intro st h hn
    rw [cleanLoopIn, if_neg (by omega)]
    exact ⟨rfl, h⟩
  | succ n ih =>
    intro st h hn
    rw [cleanLoopIn, cleanLoop]
    by_cases hr : st.r < length
    · obtain ⟨heq, hpaid⟩ := cleanStepIn_eq h hr hw
      have hlt := r_lt_cleanStep path rooted hr
      rw [if_pos hr, if_pos hr, heq]
      exact ih _ hpaid (by omega)
    · rw [if_neg hr, if_neg hr]
      exact ⟨rfl, h⟩

/-- The loop, and the dot for an empty output (lines 114–151). -/
theorem finish_eq (hw : length ≤ writable) (hpos : 0 < length) {st : CleanState}
    (h : Paid path length rooted st) :
    (do
      let st ← cleanLoopIn length writable path length rooted length st
      let st ← if st.output = 0 then emitIn writable st dot else pure st
      return (st.output, st.buf)) =
    (let st := cleanLoop path length rooted length st
     let st := if st.output = 0 then st.emit dot else st
     some (st.output, st.buf)) := by
  rw [(cleanLoopIn_eq hw length st h (Nat.sub_le _ _)).1]
  generalize cleanLoop path length rooted length st = st'
  show (if st'.output = 0 then _ else _) = _
  dsimp only
  by_cases h0 : st'.output = 0
  · rw [if_pos h0, if_pos h0, emitIn_eq st' dot (by omega)]
    rfl
  · rw [if_neg h0, if_neg h0]
    rfl

end Accesses

/-- **`clean_path` stays inside its buffers.** It reads `length` bytes of the path and
writes `max length 1` bytes of the output. -/
theorem cleanPathIn_eq {writable length : ℕ} (hw : max length 1 ≤ writable)
    (path out : List UInt8) :
    cleanPathIn length writable path length out = some (cleanPath path length out) := by
  unfold cleanPathIn cleanPath
  by_cases h0 : length = 0
  · rw [if_pos h0, if_pos h0, store_of_lt (by omega : 0 < writable)]
    rfl
  have hpos : 0 < length := Nat.pos_of_ne_zero h0
  rw [if_neg h0, if_neg h0, loadsTo_of_lt hpos, Option.bind_eq_bind, Option.bind_some]
  cases path.getD 0 0 == slash with
  | true =>
    rw [if_pos rfl, emitIn_eq _ slash (by omega : 0 < writable)]
    exact finish_eq (by omega) hpos ⟨Nat.le_refl 1, hpos, Or.inl rfl⟩
  | false =>
    rw [if_neg Bool.false_ne_true]
    exact finish_eq (by omega) hpos ⟨Nat.le_refl 0, Nat.zero_le length, Or.inl rfl⟩

-- a byte less to read, or to write, would not do
example : cleanPathIn 4 5 (ascii "/a/..") 5 (List.replicate 5 0) = none := by decide

example : cleanPathIn 5 4 (ascii "../..") 5 (List.replicate 5 0) = none := by decide

end Yotta.Http
