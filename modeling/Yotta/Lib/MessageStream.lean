import Yotta.Lib.MessageHead

/-!
# Streams of HTTP/1.1 messages

On a persistent connection, a client reads a head and as many bytes behind it as its
`Content-Length` says, and then the next head.

Results:
* `parseHead_append`: more input does not change a head that has been read.
* `readMessages_flatMap`: messages that are framed, and behind them something that is not a
  whole message, are read as they were written.
-/

namespace Yotta.MessageHead

open Yotta.Bytes Yotta.Numeral

/-- The number of bytes behind a head, which has to be given once. -/
def Head.contentLength (head : Head) : Option ℕ :=
  match head.valuesOf "Content-Length" with
  | [value] => decodeDecimal value
  | _ => none

structure Message where
  head : Head
  body : List UInt8
deriving DecidableEq

namespace Message

def text (m : Message) : List UInt8 := m.head.text ++ m.body

/-- The head can be read, and says how long the body is. -/
structure Framed (m : Message) : Prop where
  wellFormed : m.head.WellFormed
  contentLength : m.head.contentLength = some m.body.length

end Message

/-- A message, and what follows it. -/
def readMessage (s : List UInt8) : Option (Message × List UInt8) :=
  (parseHead s).bind fun (head, rest) =>
    head.contentLength.bind fun n =>
      if n ≤ rest.length then some ({ head, body := rest.take n }, rest.drop n) else none

/-- At most `n` messages, and what follows them. -/
def readMessages : ℕ → List UInt8 → List Message × List UInt8
  | 0, s => ([], s)
  | n + 1, s =>
    match readMessage s with
    | none => ([], s)
    | some (m, rest) => (m :: (readMessages n rest).1, (readMessages n rest).2)

/-! ## More input -/

theorem readLines_more {line s rest : List UInt8} {lines : List (List UInt8)}
    (h : readLines line s = some (lines, rest)) (t : List UInt8) :
    readLines line (s ++ t) = some (lines, rest ++ t) := by
  induction line, s using readLines.induct generalizing lines with
  | case1 line => cases h
  | case2 line c => cases h
  | case3 s =>
    rw [readLines, if_pos rfl, if_pos rfl, if_pos rfl] at h
    cases h
    rfl
  | case4 line s hne ih =>
    rw [readLines, if_pos rfl, if_pos rfl, if_neg hne] at h
    obtain ⟨⟨lines', rest'⟩, hread, heq⟩ := Option.map_eq_some_iff.mp h
    cases heq
    rw [List.cons_append, List.cons_append, readLines, if_pos rfl, if_pos rfl, if_neg hne, ih hread,
      Option.map_some]
  | case5 line d s hd =>
    rw [readLines, if_pos rfl, if_neg hd] at h
    cases h
  | case6 line d s hne =>
    rw [readLines, if_neg hne, if_pos rfl] at h
    cases h
  | case7 line c d s h1 h2 ih =>
    rw [readLines, if_neg h1, if_neg h2] at h
    rw [List.cons_append, List.cons_append, readLines, if_neg h1, if_neg h2, ← List.cons_append]
    exact ih h

theorem parseHead_append {s rest : List UInt8} {head : Head} (h : parseHead s = some (head, rest))
    (t : List UInt8) : parseHead (s ++ t) = some (head, rest ++ t) := by
  unfold parseHead at h ⊢
  obtain ⟨⟨lines, rest'⟩, hlines, h⟩ := Option.bind_eq_some_iff.mp h
  rw [readLines_more hlines]
  cases lines with
  | nil => cases h
  | cons line lines =>
    obtain ⟨⟨status, reason⟩, hstatus, h⟩ := Option.bind_eq_some_iff.mp h
    obtain ⟨fields, hfields, h⟩ := Option.bind_eq_some_iff.mp h
    cases h
    show (parseStatusLine line).bind _ = _
    rw [hstatus]
    show (lines.mapM parseField).bind _ = _
    rw [hfields]
    rfl

/-- A head that is not all there is not read. -/
theorem parseHead_front {head : Head} (h : head.WellFormed) {k : ℕ} (hk : k < head.text.length) :
    parseHead (head.text.take k) = none := by
  by_contra hne
  obtain ⟨⟨head', rest⟩, hread⟩ := Option.ne_none_iff_exists'.mp hne
  have hwhole := parseHead_text h []
  have hmore := parseHead_append hread (head.text.drop k)
  rw [List.take_append_drop] at hmore
  rw [List.append_nil, hmore] at hwhole
  obtain ⟨-, hrest⟩ := Prod.mk.inj (Option.some.inj hwhole)
  have hnil := (List.append_eq_nil_iff.mp hrest).2
  have hlen : (head.text.drop k).length = head.text.length - k := List.length_drop
  rw [hnil, List.length_nil] at hlen
  omega

/-! ## Messages -/

theorem readMessage_text {m : Message} (h : m.Framed) (rest : List UInt8) :
    readMessage (m.text ++ rest) = some (m, rest) := by
  rw [Message.text, List.append_assoc, readMessage, parseHead_text h.wellFormed, Option.bind_some]
  dsimp only
  rw [h.contentLength, Option.bind_some, if_pos (by rw [List.length_append]; omega),
    List.take_left, List.drop_left]

/-- A head without its whole body is no message. -/
theorem readMessage_part {head : Head} (h : head.WellFormed) {n : ℕ}
    (hn : head.contentLength = some n) {part : List UInt8} (hlt : part.length < n) :
    readMessage (head.text ++ part) = none := by
  rw [readMessage, parseHead_text h, Option.bind_some]
  dsimp only
  rw [hn, Option.bind_some, if_neg (by omega)]

theorem readMessage_front {head : Head} (h : head.WellFormed) {k : ℕ} (hk : k < head.text.length) :
    readMessage (head.text.take k) = none := by
  rw [readMessage, parseHead_front h hk, Option.bind_none]

/-- A front of a head and its body is no message, unless it is all of both. -/
theorem readMessage_prefix {head : Head} (h : head.WellFormed) {n : ℕ}
    (hn : head.contentLength = some n) {body front : List UInt8} (hbody : body.length ≤ n)
    (hfront : front <+: head.text ++ body) :
    readMessage front = none ∨ front = head.text ++ body ∧ body.length = n := by
  rcases lt_or_ge front.length head.text.length with hlt | hge
  · left
    rw [List.prefix_iff_eq_take.mp hfront, List.take_append_of_le_length hlt.le]
    exact readMessage_front h hlt
  · obtain ⟨part, rfl⟩ := List.prefix_of_prefix_length_le (List.prefix_append _ body) hfront hge
    have hpart := (List.prefix_append_right_inj _).mp hfront
    have hle := hpart.length_le
    rcases lt_or_ge part.length n with hlt | hge
    · exact Or.inl (readMessage_part h hn hlt)
    · obtain rfl := hpart.eq_of_length (by omega)
      exact Or.inr ⟨rfl, by omega⟩

theorem Message.text_ne_nil (m : Message) : m.text ≠ [] := by
  unfold Message.text Head.text unlines
  simp [crlf]

/-- **Streams.** Messages that are framed are read as they were written, up to something that
is not a whole message. -/
theorem readMessages_flatMap {messages : List Message} (h : ∀ m ∈ messages, m.Framed)
    {front : List UInt8} (hfront : readMessage front = none) {n : ℕ} (hn : messages.length ≤ n) :
    readMessages n (messages.flatMap Message.text ++ front) = (messages, front) := by
  induction messages generalizing n with
  | nil =>
    rw [List.flatMap_nil, List.nil_append]
    cases n with
    | zero => rfl
    | succ n => rw [readMessages, hfront]
  | cons m messages ih =>
    rw [List.length_cons] at hn
    obtain ⟨n, rfl⟩ := Nat.exists_eq_succ_of_ne_zero (Nat.ne_of_gt (Nat.zero_lt_of_lt hn))
    rw [List.flatMap_cons, List.append_assoc, readMessages,
      readMessage_text (h m List.mem_cons_self)]
    dsimp only
    rw [ih (fun m' hm' => h m' (List.mem_cons_of_mem _ hm')) (by omega)]

/-- There are no more messages than bytes. -/
theorem length_le_flatMap (messages : List Message) :
    messages.length ≤ (messages.flatMap Message.text).length := by
  induction messages with
  | nil => exact le_rfl
  | cons m messages ih =>
    have hpos := List.length_pos_of_ne_nil m.text_ne_nil
    rw [List.flatMap_cons, List.length_append, List.length_cons]
    omega

end Yotta.MessageHead
