import Mathlib.Data.List.DropRight
import Yotta.Lib.Time

/-!
# Heads of HTTP/1.1 responses

A head is a status line and header fields, one on a line, and an empty line; every line ends
with a CRLF.

Result:
* `parseHead_text`: a well-formed head is parsed back from its text, and the parser stops
  exactly where the text ends.
-/

namespace Yotta.MessageHead

open Yotta.Bytes Yotta.Numeral Yotta.Time

/-! ## Lines -/

def crlf : List UInt8 := [cr, lf]

/-- Lines with their ends, and an empty line. -/
def unlines (lines : List (List UInt8)) : List UInt8 := lines.flatMap (· ++ crlf) ++ crlf

/-- The lines in front of the first empty one, and what follows it. `line` has been read of
the first line. -/
def readLines : List UInt8 → List UInt8 → Option (List (List UInt8) × List UInt8)
  | _, [] => none
  | _, [_] => none
  | line, c :: d :: s =>
    if c = cr then
      if d = lf then
        if line = [] then some ([], s)
        else (readLines [] s).map fun (lines, rest) => (line :: lines, rest)
      else none
    else if c = lf then none
    else readLines (line ++ [c]) (d :: s)

/-- A text without the bytes that end a line. -/
def IsLine (s : List UInt8) : Prop := cr ∉ s ∧ lf ∉ s

instance (s : List UInt8) : Decidable (IsLine s) := inferInstanceAs (Decidable (_ ∧ _))

theorem isLine_append {s t : List UInt8} : IsLine (s ++ t) ↔ IsLine s ∧ IsLine t := by
  simp only [IsLine, List.mem_append, not_or]
  tauto

theorem isLine_cons {c : UInt8} {s : List UInt8} (h1 : c ≠ cr) (h2 : c ≠ lf) (hs : IsLine s) :
    IsLine (c :: s) := by
  refine ⟨?_, ?_⟩ <;> rw [List.mem_cons, not_or]
  · exact ⟨h1.symm, hs.1⟩
  · exact ⟨h2.symm, hs.2⟩

theorem isLine_digits {s : List UInt8} (h : ∀ c ∈ s, isDigit c = true) : IsLine s := by
  constructor <;> intro hmem <;> have := h _ hmem <;> revert this <;> decide

theorem readLines_append {text : List UInt8} (h : IsLine text) (line s : List UInt8) :
    readLines line (text ++ cr :: lf :: s) = readLines (line ++ text) (cr :: lf :: s) := by
  induction text generalizing line with
  | nil => rw [List.nil_append, List.append_nil]
  | cons c text ih =>
    have hc : c ≠ cr ∧ c ≠ lf :=
      ⟨fun hc => h.1 (hc ▸ List.mem_cons_self), fun hc => h.2 (hc ▸ List.mem_cons_self)⟩
    have htext : IsLine text :=
      ⟨fun hmem => h.1 (List.mem_cons_of_mem _ hmem),
        fun hmem => h.2 (List.mem_cons_of_mem _ hmem)⟩
    have hnext := ih htext (line ++ [c])
    rw [List.append_assoc, List.singleton_append] at hnext
    obtain ⟨d, t, hd⟩ : ∃ d t, text ++ cr :: lf :: s = d :: t := by
      cases text with
      | nil => exact ⟨cr, lf :: s, rfl⟩
      | cons d t => exact ⟨d, t ++ cr :: lf :: s, rfl⟩
    rw [← hnext, List.cons_append, hd, readLines, if_neg hc.1, if_neg hc.2]

theorem readLines_unlines {lines : List (List UInt8)} (h : ∀ line ∈ lines, line ≠ [] ∧ IsLine line)
    (rest : List UInt8) : readLines [] (unlines lines ++ rest) = some (lines, rest) := by
  induction lines with
  | nil => rfl
  | cons line lines ih =>
    obtain ⟨hne, hline⟩ := h line List.mem_cons_self
    have hmore := ih fun l hl => h l (List.mem_cons_of_mem _ hl)
    have hsplit : unlines (line :: lines) ++ rest =
        line ++ cr :: lf :: (unlines lines ++ rest) := by
      simp [unlines, crlf]
    rw [hsplit, readLines_append hline, List.nil_append, readLines, if_pos rfl, if_pos rfl,
      if_neg hne, hmore]
    rfl

/-! ## Parts of a line -/

/-- The text before the first `c` and the text behind it. -/
def cut (c : UInt8) (s : List UInt8) : Option (List UInt8 × List UInt8) :=
  match s.dropWhile (· ≠ c) with
  | [] => none
  | _ :: after => some (s.takeWhile (· ≠ c), after)

theorem cut_append {c : UInt8} {before : List UInt8} (h : c ∉ before) (after : List UInt8) :
    cut c (before ++ c :: after) = some (before, after) := by
  have hall : ∀ x ∈ before, decide (x ≠ c) := by
    intro x hx
    have : x ≠ c := fun hxc => h (hxc ▸ hx)
    simpa using this
  unfold cut
  rw [dropWhile_append_of_head hall (by simp), takeWhile_append_of_head hall (by simp)]

/-- The number that a text of digits stands for. -/
def decodeDecimal (s : List UInt8) : Option ℕ :=
  if s ≠ [] ∧ s.all isDigit then some (value s) else none

theorem decodeDecimal_decimal (n : ℕ) : decodeDecimal (decimal n) = some n := by
  have hdigits : (decimal n).all isDigit = true := by simpa using decimal_digits n
  unfold decodeDecimal
  rw [if_pos ⟨decimal_ne_nil n, hdigits⟩, value_decimal]

def isBlank (c : UInt8) : Bool := c == space || c == ht

/-- The text without the blanks around it. -/
def trim (s : List UInt8) : List UInt8 := (s.dropWhile isBlank).rdropWhile isBlank

theorem not_isBlank_of_digit {c : UInt8} (h : isDigit c = true) : isBlank c = false := by
  have hne : c ≠ space ∧ c ≠ ht := by
    constructor <;> rintro rfl <;> revert h <;> decide
  simp [isBlank, hne.1, hne.2]

theorem trim_eq {s : List UInt8} (hhead : ∀ c ∈ s.head?, isBlank c = false)
    (hlast : ∀ c ∈ s.getLast?, isBlank c = false) : trim s = s := by
  have hdrop : s.dropWhile isBlank = s := by
    cases s with
    | nil => rfl
    | cons c s => exact List.dropWhile_cons_of_neg (by simp [hhead c rfl])
  unfold trim
  rw [hdrop, List.rdropWhile_eq_self_iff]
  intro hne
  simp [hlast _ (List.getLast?_eq_some_getLast hne)]

theorem trim_between {a m b : List UInt8} (ha : a ≠ []) (hb : b ≠ [])
    (hhead : ∀ c ∈ a.head?, isBlank c = false) (hlast : ∀ c ∈ b.getLast?, isBlank c = false) :
    trim (a ++ (m ++ b)) = a ++ (m ++ b) := by
  apply trim_eq
  · rwa [List.head?_append_of_ne_nil _ ha]
  · rwa [← List.append_assoc, List.getLast?_append_of_ne_nil _ hb]

theorem trim_digits {s : List UInt8} (h : ∀ c ∈ s, isDigit c = true) : trim s = s :=
  trim_eq (fun c hc => not_isBlank_of_digit (h c (List.mem_of_mem_head? hc)))
    fun c hc => not_isBlank_of_digit (h c (List.mem_of_getLast? hc))

/-- A value of a field: one line, without blanks around it. -/
def IsValue (s : List UInt8) : Prop := IsLine s ∧ trim s = s

instance (s : List UInt8) : Decidable (IsValue s) := inferInstanceAs (Decidable (_ ∧ _))

theorem isValue_decimal (n : ℕ) : IsValue (decimal n) :=
  ⟨isLine_digits (decimal_digits n), trim_digits (decimal_digits n)⟩

/-- The characters of a token. -/
def isTchar (c : UInt8) : Bool :=
  isDigit c || 65 ≤ c && c ≤ 90 || 97 ≤ c && c ≤ 122 || (ascii "!#$%&'*+-.^_|~").contains c ||
    c == 96

/-! ## Heads -/

structure Head where
  status : ℕ
  reason : List UInt8
  fields : List (List UInt8 × List UInt8)
deriving DecidableEq

namespace Head

structure WellFormed (head : Head) : Prop where
  status : 100 ≤ head.status ∧ head.status < 1000
  reason : IsLine head.reason
  name : ∀ name ∈ head.fields.map Prod.fst, name ≠ [] ∧ name.all isTchar = true
  value : ∀ value ∈ head.fields.map Prod.snd, IsValue value

def statusLine (head : Head) : List UInt8 :=
  ascii "HTTP/1.1" ++ space :: (decimal head.status ++ space :: head.reason)

end Head

def fieldLine (field : List UInt8 × List UInt8) : List UInt8 :=
  field.1 ++ 58 :: space :: field.2

/-- The text of a head. -/
def Head.text (head : Head) : List UInt8 := unlines (head.statusLine :: head.fields.map fieldLine)

def parseStatusLine (line : List UInt8) : Option (ℕ × List UInt8) := do
  let (version, s) ← cut space line
  let (code, reason) ← cut space s
  if version = ascii "HTTP/1.1" ∧ code.length = 3 then
    (decodeDecimal code).map fun status => (status, reason)
  else none

def parseField (line : List UInt8) : Option (List UInt8 × List UInt8) := do
  let (name, value) ← cut 58 line
  if name ≠ [] ∧ name.all isTchar then some (name, trim value) else none

/-- A head, and what follows it. -/
def parseHead (s : List UInt8) : Option (Head × List UInt8) := do
  let (lines, rest) ← readLines [] s
  match lines with
  | [] => none
  | line :: lines =>
    let (status, reason) ← parseStatusLine line
    let fields ← lines.mapM parseField
    some ({ status, reason, fields }, rest)

/-- The values of the fields of a name, in any case. -/
def Head.valuesOf (head : Head) (name : String) : List (List UInt8) :=
  (head.fields.filter fun field => field.1.map toLower = (ascii name).map toLower).map Prod.snd

/-! ## Texts are parsed back -/

theorem parseField_fieldLine {field : List UInt8 × List UInt8}
    (hname : field.1 ≠ [] ∧ field.1.all isTchar = true) (hvalue : trim field.2 = field.2) :
    parseField (fieldLine field) = some field := by
  have hcolon : (58 : UInt8) ∉ field.1 := by
    intro hmem
    have := List.all_eq_true.mp hname.2 58 hmem
    revert this
    decide
  have htrim : trim (space :: field.2) = trim field.2 := by
    unfold trim
    rw [List.dropWhile_cons_of_pos (by decide)]
  unfold parseField fieldLine
  rw [cut_append hcolon]
  show (if _ then _ else _) = _
  rw [if_pos hname, htrim, hvalue]

theorem parseStatusLine_statusLine {head : Head} (h : head.WellFormed) :
    parseStatusLine head.statusLine = some (head.status, head.reason) := by
  obtain ⟨hlo, hhi⟩ := h.status
  have hlen : (decimal head.status).length = 3 := by
    rw [length_decimal_of_le (by omega), length_decimal_of_le (by omega),
      length_decimal_of_lt (by omega)]
  have hdigits : space ∉ decimal head.status := by
    intro hmem
    have := decimal_digits head.status space hmem
    revert this
    decide
  unfold parseStatusLine Head.statusLine
  rw [cut_append (by decide)]
  show (cut space _ >>= fun x => _) = _
  rw [cut_append hdigits]
  show (if _ then _ else _) = _
  rw [if_pos ⟨rfl, hlen⟩, decodeDecimal_decimal]
  rfl

theorem isLine_token {name : List UInt8} (h : name.all isTchar = true) : IsLine name := by
  constructor <;> intro hmem <;> have := List.all_eq_true.mp h _ hmem <;> revert this <;>
    decide

theorem isLine_statusLine {head : Head} (h : head.WellFormed) : IsLine head.statusLine := by
  refine isLine_append.mpr ⟨by decide, isLine_cons (by decide) (by decide) ?_⟩
  exact isLine_append.mpr
    ⟨isLine_digits (decimal_digits _), isLine_cons (by decide) (by decide) h.reason⟩

theorem isLine_fieldLine {field : List UInt8 × List UInt8} (hname : field.1.all isTchar = true)
    (hvalue : IsLine field.2) : IsLine (fieldLine field) :=
  isLine_append.mpr ⟨isLine_token hname,
    isLine_cons (by decide) (by decide) (isLine_cons (by decide) (by decide) hvalue)⟩

theorem mapM_parseField {fields : List (List UInt8 × List UInt8)}
    (h : ∀ field ∈ fields, parseField (fieldLine field) = some field) :
    (fields.map fieldLine).mapM parseField = some fields := by
  induction fields with
  | nil => rfl
  | cons field fields ih =>
    rw [List.map_cons, List.mapM_cons, h field List.mem_cons_self,
      ih fun f hf => h f (List.mem_cons_of_mem _ hf)]
    rfl

/-- **Heads.** A well-formed head is parsed back, whatever follows it. -/
theorem parseHead_text {head : Head} (h : head.WellFormed) (rest : List UInt8) :
    parseHead (head.text ++ rest) = some (head, rest) := by
  have hlines : ∀ line ∈ head.statusLine :: head.fields.map fieldLine,
      line ≠ [] ∧ IsLine line := by
    intro line hmem
    rcases List.mem_cons.mp hmem with rfl | hmem
    · exact ⟨by simp [Head.statusLine], isLine_statusLine h⟩
    · obtain ⟨field, hfield, rfl⟩ := List.mem_map.mp hmem
      exact ⟨by simp [fieldLine], isLine_fieldLine (h.name _ (List.mem_map_of_mem hfield)).2
        (h.value _ (List.mem_map_of_mem hfield)).1⟩
  have hfields : (head.fields.map fieldLine).mapM parseField = some head.fields :=
    mapM_parseField fun field hfield =>
      parseField_fieldLine (h.name _ (List.mem_map_of_mem hfield))
        (h.value _ (List.mem_map_of_mem hfield)).2
  unfold parseHead Head.text
  rw [readLines_unlines hlines]
  show (parseStatusLine _).bind _ = _
  rw [parseStatusLine_statusLine h]
  show ((head.fields.map fieldLine).mapM parseField).bind _ = _
  rw [hfields]
  rfl

end Yotta.MessageHead
