import Mathlib.Data.List.DropRight
import Yotta.Lib.Calendar

/-!
# Reading a date that may go on

What can be said of `strptime` when only the front of its text is known, and white space
follows this front.

Results:
* `strptime_append`: how far the front decides. Either what follows it makes no difference,
  or the front ends where the format skips white space, and what follows decides.
* `mem_opens_of_reading`: the places of a format where a front may end so.
* `reading_ne_opened`: a byte that no field begins with, behind white space, excludes that.
* `isSome_strptime`: whether a text is read does not depend on the members of `tm`.
* `strptime_append_zone`: a zone at the end of a format reads anything.
-/

namespace Yotta.Time

open Yotta.Bytes Yotta.Numeral

/-! ## Definitions -/

/-- The conversions that are numbers. -/
def isNumber (conversion : UInt8) : Bool := [100, 89, 72, 77, 83].contains conversion

/-- What is known of `strptime` on a text of which only the front has been read. -/
inductive Reading
  | read (tm : Tm)
  | failed
  /-- White space is skipped, and then the text goes on with this format. -/
  | opened (format : List UInt8) (tm : Tm)
deriving DecidableEq

/-- `strptime` on a text that begins with `s` and goes on with white space. -/
def reading : List UInt8 → List UInt8 → Tm → Reading
  | [], _, tm => .read tm
  | c :: format, s, tm =>
    if c = 37 then
      match format with
      | [] => .failed
      | d :: format =>
        if isNumber d && s.all isSpace then .opened (37 :: d :: format) tm
        else
          match readField d s tm with
          | some (tm, s) => reading format s tm
          | none => .failed
    else if isSpace c then
      if s.all isSpace then .opened format tm else reading format (s.dropWhile isSpace) tm
    else
      match s with
      | [] => .failed
      | x :: s => if x = c then reading format s tm else .failed

/-- Every `%` begins a conversion, and none is a zone. -/
def zoneFree : List UInt8 → Bool
  | [] => true
  | c :: format =>
    if c = 37 then
      match format with
      | [] => false
      | d :: format => d != 90 && zoneFree format
    else zoneFree format

/-- Where a format may be left open. -/
def opens : List UInt8 → List (List UInt8)
  | [] => []
  | c :: format =>
    if c = 37 then
      match format with
      | [] => []
      | d :: format => if isNumber d then (37 :: d :: format) :: opens format else opens format
    else if isSpace c then format :: opens format
    else opens format

/-! ## Fields in front of white space -/

theorem dropWhile_append_isSpace {s : List UInt8} (hs : s.all isSpace = false) (t : List UInt8) :
    (s ++ t).dropWhile isSpace = s.dropWhile isSpace ++ t := by
  induction s with
  | nil => cases hs
  | cons c s ih =>
    rw [List.cons_append, List.dropWhile_cons, List.dropWhile_cons]
    split_ifs with hc
    · rw [List.all_cons, hc, Bool.true_and] at hs
      exact ih hs
    · rfl

theorem dropWhile_append_of_all {s : List UInt8} (hs : s.all isSpace = true) (t : List UInt8) :
    (s ++ t).dropWhile isSpace = t.dropWhile isSpace := by
  rw [List.dropWhile_append_of_pos]
  simpa using hs

/-- A number ends in front of white space. -/
theorem readDigits_space {c : UInt8} (hc : isSpace c = true) (hi : ℕ) (s rest : List UInt8) :
    ∀ n v, readDigits hi n v (s ++ c :: rest) =
      ((readDigits hi n v s).1, (readDigits hi n v s).2 ++ c :: rest) := by
  have hdigit : ¬ isDigit c := fun h => not_isSpace_of_digit h hc
  induction s with
  | nil =>
    intro n v
    cases n with
    | zero => rfl
    | succ n =>
      show readDigits hi (n + 1) v (c :: rest) = (v, c :: rest)
      rw [readDigits, if_neg fun h => hdigit h.1]
  | cons x s ih =>
    intro n v
    cases n with
    | zero => rfl
    | succ n =>
      rw [List.cons_append, readDigits, readDigits]
      split_ifs
      · exact ih n _
      · rfl

theorem readNumber_space {c : UInt8} (hc : isSpace c = true) {lo hi n : ℕ} {s : List UInt8}
    (hs : s.all isSpace = false) (rest : List UInt8) :
    readNumber lo hi n (s ++ c :: rest) =
      (readNumber lo hi n s).map fun (v, s) => (v, s ++ c :: rest) := by
  have hhead : ((s.dropWhile isSpace ++ c :: rest).head?.any isDigit) =
      ((s.dropWhile isSpace).head?.any isDigit) := by
    cases s.dropWhile isSpace with
    | nil =>
      have hdigit : isDigit c = false := by
        simpa using fun h => not_isSpace_of_digit h hc
      simpa using hdigit
    | cons x t => rfl
  unfold readNumber
  simp only [dropWhile_append_isSpace hs, hhead, readDigits_space hc]
  split_ifs <;> rfl

/-- White space is in no name. -/
theorem toLower_ne_of_isSpace {c : UInt8} (hc : isSpace c = true) :
    (∀ name ∈ weekdayNames, ∀ d ∈ name, toLower c ≠ toLower d) ∧
      ∀ name ∈ monthNames, ∀ d ∈ name, toLower c ≠ toLower d := by
  have hlower : toLower c = c := by
    rw [isSpace_iff] at hc
    unfold toLower
    rw [if_neg]
    simp only [Bool.and_eq_true, decide_eq_true_eq, UInt8.le_iff_toNat_le]
    intro h
    have h65 : (65 : UInt8).toNat = 65 := rfl
    omega
  have hnames : ∀ name ∈ weekdayNames ++ monthNames, ∀ d ∈ name, isSpace (toLower d) = false := by
    decide +kernel
  have hne : ∀ name ∈ weekdayNames ++ monthNames, ∀ d ∈ name, toLower c ≠ toLower d := by
    intro name hname d hd h
    have hspace := hnames name hname d hd
    rw [← h, hlower, hc] at hspace
    cases hspace
  exact ⟨fun name hname => hne name (List.mem_append_left _ hname),
    fun name hname => hne name (List.mem_append_right _ hname)⟩

/-- The conversion that a letter stands for. -/
theorem eq_of_char {conversion : UInt8} {letter : Char}
    (h : Char.ofNat conversion.toNat = letter) : conversion = UInt8.ofNat letter.toNat := by
  have hlt := conversion.toNat_lt
  have hvalid : conversion.toNat.isValidChar := Or.inl (by omega)
  have hchar : (Char.ofNat conversion.toNat).toNat = conversion.toNat := by
    rw [Char.ofNat, dif_pos hvalid]
    rfl
  rw [← h, hchar, UInt8.ofNat_toNat]

theorem isNumber_of_char {conversion : UInt8} {letter : Char}
    (h : Char.ofNat conversion.toNat = letter)
    (hletter : isNumber (UInt8.ofNat letter.toNat) = true) : isNumber conversion = true := by
  rw [eq_of_char h]
  exact hletter

/-- A field other than a zone ends in front of white space. -/
theorem readField_space {c : UInt8} (hc : isSpace c = true) {conversion : UInt8}
    (hzone : conversion ≠ 90) {s : List UInt8}
    (hs : isNumber conversion = true → s.all isSpace = false) (rest : List UInt8) (tm : Tm) :
    readField conversion (s ++ c :: rest) tm =
      (readField conversion s tm).map fun (tm, s) => (tm, s ++ c :: rest) := by
  obtain ⟨hweekday, hmonth⟩ := toLower_ne_of_isSpace hc
  have hnumber : ∀ lo hi n, isNumber conversion = true →
      readNumber lo hi n (s ++ c :: rest) =
        (readNumber lo hi n s).map fun (v, s) => (v, s ++ c :: rest) :=
    fun lo hi n h => readNumber_space hc (hs h) rest
  unfold readField
  split <;> rename_i hchar
  · rw [readNames_append _ _ _ _ hweekday, Option.map_map, Option.map_map]
    rfl
  · rw [readNames_append _ _ _ _ hmonth, Option.map_map, Option.map_map]
    rfl
  · rw [hnumber _ _ _ (isNumber_of_char hchar (by decide)), Option.map_map, Option.map_map]
    rfl
  · rw [hnumber _ _ _ (isNumber_of_char hchar (by decide)), Option.map_map, Option.map_map]
    rfl
  · rw [hnumber _ _ _ (isNumber_of_char hchar (by decide)), Option.map_map, Option.map_map]
    rfl
  · rw [hnumber _ _ _ (isNumber_of_char hchar (by decide)), Option.map_map, Option.map_map]
    rfl
  · rw [hnumber _ _ _ (isNumber_of_char hchar (by decide)), Option.map_map, Option.map_map]
    rfl
  · exact absurd (eq_of_char hchar) hzone
  · rfl

theorem readNumber_dropWhile (lo hi n : ℕ) (s : List UInt8) :
    readNumber lo hi n (s.dropWhile isSpace) = readNumber lo hi n s := by
  unfold readNumber
  rw [List.dropWhile_idempotent]

/-- In front of a number, white space is skipped. -/
theorem readField_dropWhile {conversion : UInt8} (h : isNumber conversion = true)
    (s : List UInt8) (tm : Tm) :
    readField conversion (s.dropWhile isSpace) tm = readField conversion s tm := by
  have hd : conversion = 100 ∨ conversion = 89 ∨ conversion = 72 ∨ conversion = 77 ∨
      conversion = 83 := by simpa [isNumber] using h
  obtain rfl | rfl | rfl | rfl | rfl := hd <;>
    exact congrArg (Option.map _) (readNumber_dropWhile _ _ _ s)

theorem strptime_number {d : UInt8} (h : isNumber d = true) (format s : List UInt8) (tm : Tm) :
    strptime (37 :: d :: format) s tm = strptime (37 :: d :: format) (s.dropWhile isSpace) tm := by
  have hread := readField_dropWhile h s tm
  cases hfield : readField d s tm with
  | none => rw [strptime_field_none hfield, strptime_field_none (hread.trans hfield)]
  | some x =>
    obtain ⟨tm', s'⟩ := x
    rw [strptime_field hfield, strptime_field (hread.trans hfield)]

/-! ## How far the front decides -/

theorem zoneFree_field {d : UInt8} {format : List UInt8} (h : zoneFree (37 :: d :: format) = true) :
    d ≠ 90 ∧ zoneFree format = true := by
  have hsplit : (d != 90 && zoneFree format) = true := h
  rw [Bool.and_eq_true, bne_iff_ne] at hsplit
  exact hsplit

theorem zoneFree_other {c : UInt8} {format : List UInt8} (hc : c ≠ 37)
    (h : zoneFree (c :: format) = true) : zoneFree format = true := by
  rw [zoneFree.eq_def] at h
  dsimp only at h
  rwa [if_neg hc] at h

/-- What a reading of the front says of the text, whose other white space is followed by
`rest`. -/
def Reading.result (rest : List UInt8) : Reading → Option Tm
  | .read tm => some tm
  | .failed => none
  | .opened format tm => strptime format rest tm

/-- **The front decides**, or what stands behind the white space that follows it. -/
theorem strptime_append {format : List UInt8} (hformat : zoneFree format = true) {c : UInt8}
    (hc : isSpace c = true) (s rest : List UInt8) (tm : Tm) :
    strptime format (s ++ c :: rest) tm =
      (reading format s tm).result (rest.dropWhile isSpace) := by
  fun_induction reading format s tm with
  | case1 s tm => rfl
  | case2 s tm => rfl
  | case3 s tm d format hopen =>
    rw [Bool.and_eq_true] at hopen
    show _ = strptime (37 :: d :: format) (rest.dropWhile isSpace) tm
    rw [strptime_number hopen.1, dropWhile_append_of_all hopen.2,
      List.dropWhile_cons_of_pos hc]
  | case4 s tm d format hopen tm' s' hfield ih =>
    obtain ⟨hzone, hformat⟩ := zoneFree_field hformat
    have hs : isNumber d = true → s.all isSpace = false := by simpa using hopen
    have hread := readField_space hc hzone hs rest tm
    rw [hfield] at hread
    rw [strptime_field hread]
    exact ih hformat
  | case5 s tm d format hopen hfield =>
    obtain ⟨hzone, -⟩ := zoneFree_field hformat
    have hs : isNumber d = true → s.all isSpace = false := by simpa using hopen
    have hread := readField_space hc hzone hs rest tm
    rw [hfield] at hread
    exact strptime_field_none hread format
  | case6 x format s tm hx hblank hopen =>
    show _ = strptime format (rest.dropWhile isSpace) tm
    rw [strptime_blank hblank, dropWhile_append_of_all hopen, List.dropWhile_cons_of_pos hc]
  | case7 x format s tm hx hblank hopen ih =>
    have hs : s.all isSpace = false := by simpa using hopen
    rw [strptime_blank hblank, dropWhile_append_isSpace hs]
    exact ih (zoneFree_other hx hformat)
  | case8 x format tm hx hblank =>
    have hblank : isSpace x = false := by simpa using hblank
    refine strptime_literal_none hx hblank ?_ format tm
    rintro ⟨rfl⟩
    rw [hc] at hblank
    cases hblank
  | case9 format tm x s hx hblank ih =>
    have hblank : isSpace x = false := by simpa using hblank
    rw [List.cons_append, strptime_literal hx hblank]
    exact ih (zoneFree_other hx hformat)
  | case10 x format tm hx hblank y s hy =>
    have hblank : isSpace x = false := by simpa using hblank
    refine strptime_literal_none hx hblank ?_ format tm
    rintro ⟨rfl⟩
    exact hy rfl

/-! ## Where a reading stops -/

theorem mem_opens_of_reading {format s f : List UInt8} {tm tm' : Tm}
    (h : reading format s tm = .opened f tm') : f ∈ opens format := by
  fun_induction reading format s tm with
  | case1 s tm => cases h
  | case2 s tm => cases h
  | case3 s tm d format hopen =>
    rw [Bool.and_eq_true] at hopen
    cases h
    show _ ∈ if isNumber d then (37 :: d :: format) :: opens format else opens format
    rw [if_pos hopen.1]
    exact List.mem_cons_self
  | case4 s tm d format hopen tm' s' hfield ih =>
    show f ∈ if isNumber d then (37 :: d :: format) :: opens format else opens format
    split_ifs
    · exact List.mem_cons_of_mem _ (ih h)
    · exact ih h
  | case5 s tm d format hopen hfield => cases h
  | case6 x format s tm hx hblank hopen =>
    cases h
    rw [opens.eq_def]
    dsimp only
    rw [if_neg hx, if_pos hblank]
    exact List.mem_cons_self
  | case7 x format s tm hx hblank hopen ih =>
    rw [opens.eq_def]
    dsimp only
    rw [if_neg hx, if_pos hblank]
    exact List.mem_cons_of_mem _ (ih h)
  | case8 x format tm hx hblank => cases h
  | case9 format tm x s hx hblank ih =>
    rw [opens.eq_def]
    dsimp only
    rw [if_neg hx, if_neg hblank]
    exact ih h
  | case10 x format tm hx hblank y s hy => cases h

/-! ## Bytes that nothing reads -/

/-- The byte is no white space, and no conversion but a zone begins with it. -/
structure Blocks (d : UInt8) : Prop where
  not_isSpace : isSpace d = false
  readField_eq : ∀ conversion ≠ 90, ∀ s tm, readField conversion (d :: s) tm = none

/-- The byte stands at the front of a text, or behind white space in it. -/
def Ahead (d : UInt8) (s : List UInt8) : Prop :=
  (∃ t, s = d :: t) ∨ ∃ a c t, isSpace c = true ∧ s = a ++ c :: d :: t

section

variable {d : UInt8} {s : List UInt8}

theorem readName_eq_none {name : List UInt8} (h : ∃ n ∈ name.head?, toLower d ≠ toLower n) :
    readName name (d :: s) = none := by
  obtain ⟨n, hn, hne⟩ := h
  obtain ⟨more, rfl⟩ := List.head?_eq_some_iff.mp hn
  rw [readName, if_neg]
  intro heq
  rw [List.length_cons, List.take_succ_cons, List.map_cons, List.map_cons] at heq
  exact hne (List.cons.inj heq).1

theorem readNames_eq_none {names : List (List UInt8)}
    (h : ∀ name ∈ names, ∃ n ∈ name.head?, toLower d ≠ toLower n) (i : ℕ) :
    readNames (d :: s) i names = none := by
  induction names generalizing i with
  | nil => rfl
  | cons name names ih =>
    obtain ⟨hname, hnames⟩ := List.forall_mem_cons.mp h
    have hshort : ∃ n ∈ (name.take 3).head?, toLower d ≠ toLower n := by
      obtain ⟨n, hn, hne⟩ := hname
      obtain ⟨more, rfl⟩ := List.head?_eq_some_iff.mp hn
      exact ⟨n, rfl, hne⟩
    rw [readNames, readName_eq_none hname, readName_eq_none hshort]
    exact ih hnames (i + 1)

theorem readNumber_eq_none (hspace : isSpace d = false) (hdigit : isDigit d = false)
    (lo hi n : ℕ) : readNumber lo hi n (d :: s) = none := by
  rw [readNumber, List.dropWhile_cons_of_neg (by simp [hspace])]
  simp [hdigit]

/-- A byte that is no digit and begins no name. -/
theorem blocks_of_names (hspace : isSpace d = false) (hdigit : isDigit d = false)
    (hweekday : ∀ name ∈ weekdayNames, ∃ n ∈ name.head?, toLower d ≠ toLower n)
    (hmonth : ∀ name ∈ monthNames, ∃ n ∈ name.head?, toLower d ≠ toLower n) : Blocks d where
  not_isSpace := hspace
  readField_eq conversion hzone s tm := by
    unfold readField
    split <;> rename_i hchar
    · rw [readNames_eq_none hweekday]
      rfl
    · rw [readNames_eq_none hmonth]
      rfl
    · rw [readNumber_eq_none hspace hdigit]
      rfl
    · rw [readNumber_eq_none hspace hdigit]
      rfl
    · rw [readNumber_eq_none hspace hdigit]
      rfl
    · rw [readNumber_eq_none hspace hdigit]
      rfl
    · rw [readNumber_eq_none hspace hdigit]
      rfl
    · exact absurd (eq_of_char hchar) hzone
    · rfl

theorem Ahead.all_isSpace (h : Ahead d s) (hd : Blocks d) : s.all isSpace = false := by
  rcases h with ⟨t, rfl⟩ | ⟨a, c, t, -, rfl⟩ <;> simp [hd.not_isSpace]

/-- White space in front of it can be skipped. -/
theorem Ahead.dropWhile (h : Ahead d s) (hd : Blocks d) : Ahead d (s.dropWhile isSpace) := by
  rcases h with ⟨t, rfl⟩ | ⟨a, c, t, hc, rfl⟩
  · rw [List.dropWhile_cons_of_neg (by simp [hd.not_isSpace])]
    exact Or.inl ⟨t, rfl⟩
  · cases ha : a.all isSpace with
    | true =>
      rw [dropWhile_append_of_all ha, List.dropWhile_cons_of_pos hc,
        List.dropWhile_cons_of_neg (by simp [hd.not_isSpace])]
      exact Or.inl ⟨t, rfl⟩
    | false =>
      rw [dropWhile_append_isSpace ha]
      exact Or.inr ⟨_, c, t, hc, rfl⟩

/-- Another byte in front of it can be left out. -/
theorem Ahead.tail {x : UInt8} (h : Ahead d (x :: s)) (hx : x ≠ d) : Ahead d s := by
  rcases h with ⟨t, ht⟩ | ⟨a, c, t, hc, ht⟩
  · exact absurd (List.cons.inj ht).1 hx
  · cases a with
    | nil => exact Or.inl ⟨t, (List.cons.inj ht).2⟩
    | cons y a => exact Or.inr ⟨a, c, t, hc, (List.cons.inj ht).2⟩

/-- What a field leaves has it ahead too. -/
theorem Ahead.readField {conversion : UInt8} (hzone : conversion ≠ 90) {s' : List UInt8}
    {tm tm' : Tm} (h : Ahead d s) (hd : Blocks d)
    (hread : readField conversion s tm = some (tm', s')) : Ahead d s' := by
  rcases h with ⟨t, rfl⟩ | ⟨a, c, t, hc, rfl⟩
  · rw [hd.readField_eq conversion hzone] at hread
    cases hread
  · by_cases hspaces : isNumber conversion = true ∧ a.all isSpace = true
    · rw [← readField_dropWhile hspaces.1, dropWhile_append_of_all hspaces.2,
        List.dropWhile_cons_of_pos hc, List.dropWhile_cons_of_neg (by simp [hd.not_isSpace]),
        hd.readField_eq conversion hzone] at hread
      cases hread
    · have ha : isNumber conversion = true → a.all isSpace = false := fun hnumber =>
        Bool.eq_false_of_not_eq_true fun hall => hspaces ⟨hnumber, hall⟩
      rw [readField_space hc hzone ha] at hread
      obtain ⟨⟨_, rest⟩, -, heq⟩ := Option.map_eq_some_iff.mp hread
      obtain ⟨-, rfl⟩ := Prod.mk.inj heq
      exact Or.inr ⟨rest, c, t, hc, rfl⟩

/-- **A byte that nothing reads**, behind white space, is never passed, so that the text does not
end where the format is open. -/
theorem reading_ne_opened {format : List UInt8} (hformat : zoneFree format = true)
    (hd : Blocks d) (hmem : d ∉ format) {tm : Tm} (h : Ahead d s) (f : List UInt8) (tm' : Tm) :
    reading format s tm ≠ .opened f tm' := by
  intro hread
  fun_induction reading format s tm with
  | case1 s tm => cases hread
  | case2 s tm => cases hread
  | case3 s tm x format hopen =>
    rw [h.all_isSpace hd, Bool.and_false] at hopen
    cases hopen
  | case4 s tm x format hopen tm₁ s₁ hfield ih =>
    obtain ⟨hzone, hformat⟩ := zoneFree_field hformat
    exact ih hformat (fun hx => hmem (by simp [hx])) (h.readField hzone hd hfield) hread
  | case5 s tm x format hopen hfield => cases hread
  | case6 x format s tm hx hblank hopen =>
    rw [h.all_isSpace hd] at hopen
    cases hopen
  | case7 x format s tm hx hblank hopen ih =>
    exact ih (zoneFree_other hx hformat) (fun hx => hmem (List.mem_cons_of_mem _ hx))
      (h.dropWhile hd) hread
  | case8 x format tm hx hblank => cases hread
  | case9 format tm x s hx hblank ih =>
    refine ih (zoneFree_other hx hformat) (fun hx => hmem (List.mem_cons_of_mem _ hx))
      (h.tail ?_) hread
    rintro rfl
    exact hmem List.mem_cons_self
  | case10 x format tm hx hblank y s hy => cases hread

end

/-! ## The members of `tm` -/

theorem readField_snd (d : UInt8) (s : List UInt8) (tm tm' : Tm) :
    (readField d s tm).map Prod.snd = (readField d s tm').map Prod.snd := by
  unfold readField
  split <;> first | rfl | (rw [Option.map_map, Option.map_map]; rfl)

/-- Whether a text is read does not depend on what `tm` held. -/
theorem isSome_strptime (format s : List UInt8) (tm tm' : Tm) :
    (strptime format s tm).isSome = (strptime format s tm').isSome := by
  fun_induction strptime format s tm generalizing tm' with
  | case1 s tm => rfl
  | case2 s tm => rfl
  | case3 s tm d format tm₁ s₁ hfield ih =>
    have hsnd := readField_snd d s tm tm'
    rw [hfield] at hsnd
    obtain ⟨⟨tm₂, s₂⟩, hfield', hs⟩ := Option.map_eq_some_iff.mp hsnd.symm
    obtain rfl : s₂ = s₁ := hs
    rw [strptime_field hfield']
    exact ih tm₂
  | case4 s tm d format hfield =>
    have hsnd := readField_snd d s tm tm'
    rw [hfield] at hsnd
    rw [strptime_field_none (Option.map_eq_none_iff.mp hsnd.symm)]
  | case5 x format s tm hx hblank ih =>
    rw [strptime_blank hblank]
    exact ih tm'
  | case6 x format tm hx hblank =>
    rw [strptime_literal_none hx (by simpa using hblank) (by simp)]
  | case7 format tm x s hx hblank ih =>
    rw [strptime_literal hx (by simpa using hblank)]
    exact ih tm'
  | case8 x format tm hx hblank y s hy =>
    rw [strptime_literal_none hx (by simpa using hblank)]
    rintro ⟨rfl⟩
    exact hy rfl

/-! ## A zone at the end -/

/-- A zone at the end of a format reads anything. -/
theorem strptime_append_zone {format : List UInt8} (hformat : zoneFree format = true)
    (s : List UInt8) (tm : Tm) :
    strptime (format ++ [space, 37, 90]) s tm = strptime format s tm := by
  fun_induction strptime format s tm with
  | case1 s tm =>
    rw [List.nil_append, strptime_blank rfl]
    exact strptime_zone _ tm
  | case2 s tm => cases hformat
  | case3 s tm d format tm₁ s₁ hfield ih =>
    rw [List.cons_append, List.cons_append, strptime_field hfield]
    exact ih (zoneFree_field hformat).2
  | case4 s tm d format hfield =>
    exact strptime_field_none hfield _
  | case5 x format s tm hx hblank ih =>
    rw [List.cons_append, strptime_blank hblank]
    exact ih (zoneFree_other hx hformat)
  | case6 x format tm hx hblank =>
    exact strptime_literal_none hx (by simpa using hblank) (by simp) _ tm
  | case7 format tm x s hx hblank ih =>
    rw [List.cons_append, strptime_literal hx (by simpa using hblank)]
    exact ih (zoneFree_other hx hformat)
  | case8 x format tm hx hblank y s hy =>
    refine strptime_literal_none hx (by simpa using hblank) ?_ _ tm
    rintro ⟨rfl⟩
    exact hy rfl

end Yotta.Time
