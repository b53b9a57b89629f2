import Yotta.Server.Wire

/-!
# What a client reads

A client splits what is on its socket into messages by their `Content-Length`.

Result:
* `client_reads`: it reads the replies of the session, one message for each of them, and
  nothing of a reply that is not complete.
-/

namespace Yotta.Server

open Yotta.Bytes Yotta.Core Yotta.Http Yotta.MessageHead Yotta.Numeral Yotta.Time

/-- The years of all files have four digits. -/
def FourDigitYears (fs : FileSystem) : Prop :=
  ∀ name file st, fs name = some file → file.fstat = some st →
    0 ≤ st.stMtime ∧ st.stMtime < 253402300800

/-- The message that a client reads for a reply. -/
structure Reads (m : Message) (r : Reply) : Prop where
  framed : m.Framed
  head : m.head.text = r.response.head
  body : m.body = r.content

section

variable {fs : FileSystem}

/-! ## Heads -/

/-- The heads that the server writes, and the lengths of the bodies behind them. -/
inductive ServerHead : Head → ℕ → Prop
  | notModified : ServerHead head304 0
  | badRequest : ServerHead head400 0
  | notFound : ServerHead head404 0
  | full {lastModified : ℤ} {contentType : List UInt8}
      (ht : 0 ≤ lastModified ∧ lastModified < 253402300800)
      (hx : contentType ∈ mimeTypes.map Prod.snd) (contentLength : ℕ) :
      ServerHead (head200 contentLength lastModified contentType) contentLength
  | partialContent {lastModified : ℤ} (ht : 0 ≤ lastModified ∧ lastModified < 253402300800)
      (contentLength rangeStart rangeEnd fileSize : ℕ) :
      ServerHead (head206 contentLength lastModified rangeStart rangeEnd fileSize) contentLength

theorem ServerHead.wellFormed {head : Head} {n : ℕ} (h : ServerHead head n) :
    head.WellFormed := by
  cases h with
  | notModified => exact wellFormed_head304
  | badRequest => exact wellFormed_head400
  | notFound => exact wellFormed_head404
  | full ht hx => exact wellFormed_head200 ht (mimeTypes_value _ hx).2 _
  | partialContent ht => exact wellFormed_head206 ht _ _ _ _

theorem ServerHead.announces {head : Head} {n : ℕ} (h : ServerHead head n) :
    head.contentLength = some n := by
  cases h with
  | notModified => exact contentLength_emptyHead _ _ _
  | badRequest => exact contentLength_emptyHead _ _ _
  | notFound => exact contentLength_emptyHead _ _ _
  | full => exact contentLength_head200 _ _ _
  | partialContent => exact contentLength_head206 _ _ _ _ _

theorem contentType_mem (pathView : List UInt8) :
    contentType pathView ∈ mimeTypes.map Prod.snd := by
  have hplain : ascii "text/plain" ∈ mimeTypes.map Prod.snd := by decide +kernel
  unfold contentType
  dsimp only
  split_ifs
  · split
    · next t hlookup =>
      obtain ⟨l, l', heq, -⟩ := List.lookup_eq_some_iff.mp hlookup
      rw [heq]
      simp
    · exact hplain
  · exact hplain

theorem foundFile_eq_some {pathView : List UInt8} {file : File} {found : Found}
    (h : foundFile pathView file = some found) :
    found.file = file ∧ found.extension = contentType pathView := by
  unfold foundFile at h
  split at h
  · cases h
  · split_ifs at h
    cases h
    exact ⟨rfl, rfl⟩

theorem findFile_eq_some {target : List UInt8} {found : Found}
    (h : findFile fs target = some found) :
    ∃ name, fs name = some found.file ∧ found.extension ∈ mimeTypes.map Prod.snd := by
  unfold findFile at h
  split_ifs at h
  obtain ⟨file, hfile, h⟩ := Option.bind_eq_some_iff.mp h
  obtain ⟨rfl, hextension⟩ := foundFile_eq_some h
  exact ⟨_, hfile, hextension ▸ contentType_mem _⟩

theorem requestAnswer_eq_ok {memory : List UInt8} {request : Picohttp.Request} {found : Found}
    {verdict : Verdict} (h : requestAnswer fs memory request = .ok (.file found verdict)) :
    findFile fs (request.path.getD []) = some found := by
  unfold requestAnswer at h
  cases hfind : findFile fs (request.path.getD []) with
  | none => rw [hfind] at h; cases h
  | some found' =>
    rw [hfind] at h
    dsimp only at h
    cases hverdict : headerVerdict found'.fileStat memory request.headers with
    | error e => rw [hverdict] at h; cases h
    | ok verdict' =>
      rw [hverdict] at h
      cases h
      rfl

/-- Every reply has a head of the server, which announces its body. -/
theorem Answers.serverHead (hfs : FourDigitYears fs) {r : Reply} (h : Answers fs r) :
    ∃ head : Head, ServerHead head r.response.announced ∧ head.text = r.response.head := by
  cases h with
  | refused => exact ⟨head400, .badRequest, serve400_eq.symm⟩
  | @answered memory request answer offset hanswer =>
    cases answer with
    | notFound => exact ⟨head404, .notFound, serve404_eq.symm⟩
    | file found verdict =>
      obtain ⟨name, hname, hvalue⟩ := findFile_eq_some (requestAnswer_eq_ok hanswer)
      have htime := hfs name found.file found.fileStat hname found.fstat_eq
      cases verdict with
      | badRequest => exact ⟨head400, .badRequest, serve400_eq.symm⟩
      | notModified => exact ⟨head304, .notModified, serve304_eq.symm⟩
      | partialContent first last =>
        exact ⟨_, .partialContent htime _ _ _ _, (text206_eq _ _ _ _ _).symm⟩
      | full => exact ⟨_, .full htime hvalue _, (text200_eq _ _ _).symm⟩

/-- A complete reply is a message. -/
theorem Answers.reads (hfs : FourDigitYears fs) {r : Reply} (h : Answers fs r)
    (hcomplete : r.Complete) : ∃ m, Reads m r := by
  obtain ⟨head, hhead, htext⟩ := h.serverHead hfs
  exact ⟨{ head, body := r.content }, ⟨hhead.wellFormed, hcomplete ▸ hhead.announces⟩, htext,
    rfl⟩

theorem Reads.text_eq {m : Message} {r : Reply} (h : Reads m r) : m.text = r.wire := by
  rw [Message.text, h.head, h.body, Reply.wire]

/-! ## Streams -/

theorem Reads.flatMap_eq {messages : List Message} {replies : List Reply}
    (h : List.Forall₂ Reads messages replies) :
    messages.flatMap Message.text = replies.flatMap Reply.wire := by
  induction h with
  | nil => rfl
  | cons hread _ ih => rw [List.flatMap_cons, List.flatMap_cons, hread.text_eq, ih]

theorem Reads.framed_of_mem {messages : List Message} {replies : List Reply}
    (h : List.Forall₂ Reads messages replies) : ∀ m ∈ messages, m.Framed := by
  induction h with
  | nil => exact nofun
  | cons hread _ ih =>
    intro m hm
    rcases List.mem_cons.mp hm with rfl | hm
    · exact hread.framed
    · exact ih m hm

theorem exists_reads (hfs : FourDigitYears fs) {replies : List Reply}
    (h : ∀ r ∈ replies, Answers fs r ∧ r.Complete) :
    ∃ messages, List.Forall₂ Reads messages replies := by
  induction replies with
  | nil => exact ⟨[], .nil⟩
  | cons r replies ih =>
    obtain ⟨hanswer, hcomplete⟩ := h r List.mem_cons_self
    obtain ⟨m, hm⟩ := hanswer.reads hfs hcomplete
    obtain ⟨messages, hmessages⟩ := ih fun r' hr' => h r' (List.mem_cons_of_mem _ hr')
    exact ⟨m :: messages, .cons hm hmessages⟩

/-- No more bytes than are announced stand behind a head. -/
theorem Reply.length_content_le (r : Reply) : r.content.length ≤ r.response.announced := by
  rw [Reply.content, Response.content, Response.announced]
  cases r.response.body with
  | none => exact le_rfl
  | some body =>
    rw [List.length_take]
    exact min_le_left _ _

/-- A front of a reply is no message, or it is all of the reply. -/
theorem Answers.readMessage_front (hfs : FourDigitYears fs) {r : Reply} (h : Answers fs r)
    {front : List UInt8} (hfront : front <+: r.wire) :
    readMessage front = none ∨ front = r.wire ∧ r.Complete := by
  obtain ⟨head, hhead, htext⟩ := h.serverHead hfs
  rw [Reply.wire, ← htext] at hfront ⊢
  exact readMessage_prefix hhead.wellFormed hhead.announces r.length_content_le hfront

/-- The replies that are on the socket as a whole, and a front that is no message. -/
theorem OnWire.whole (hfs : FourDigitYears fs) {mem : UserData} {total : List UInt8} {c : HttpConn}
    {arrivals : List Arrival} {s : HttpCtx} {done pending : List Reply} {front : List UInt8}
    (h : OnWire fs mem total c arrivals s done pending front) :
    ∃ whole rest front, done ++ pending = whole ++ rest ∧ rest.length ≤ 1 ∧
      (∀ r ∈ whole, Answers fs r ∧ r.Complete) ∧
      c.sent = whole.flatMap Reply.wire ++ front ∧ front <+: rest.flatMap Reply.wire ∧
      readMessage front = none := by
  cases pending with
  | nil =>
    obtain rfl := List.prefix_nil.mp h.front_prefix
    exact ⟨done, [], [], rfl, Nat.zero_le 1, h.complete, h.sent, List.prefix_rfl, rfl⟩
  | cons r pending =>
    have hle := h.length_le
    rw [List.length_cons] at hle
    obtain rfl := List.length_eq_zero_iff.mp (by omega : pending.length = 0)
    have hfront := h.front_prefix
    rw [List.flatMap_singleton] at hfront
    have hanswer := h.answers r List.mem_cons_self
    rcases hanswer.readMessage_front hfs hfront with hnone | ⟨rfl, hcomplete⟩
    · exact ⟨done, [r], front, rfl, le_rfl, h.complete, h.sent, h.front_prefix, hnone⟩
    · refine ⟨done ++ [r], [], [], (List.append_nil _).symm, Nat.zero_le 1, ?_, ?_,
        List.prefix_rfl, rfl⟩
      · intro r' hr'
        rcases List.mem_append.mp hr' with hr' | hr'
        · exact h.complete r' hr'
        · obtain rfl := List.mem_singleton.mp hr'
          exact ⟨hanswer, hcomplete⟩
      · rw [h.sent, List.flatMap_append, List.flatMap_singleton, List.append_nil]

end

/-- **Framing.** At any time of any run, a client that reads what is on its socket gets the
replies of the session, in order and each with its own bytes; of at most one reply it gets
nothing yet, and what is there of it is a front of it. -/
theorem client_reads {fs : FileSystem} (hfs : FourDigitYears fs) {mem : UserData}
    {recvQueue : List UInt8} {eof : Bool} {labels : List Label} {c : HttpConn}
    (h : exec (Conn.step (app fs)) (accepted mem recvQueue eof) labels = some c) :
    ∃ arrivals s whole rest messages front,
      exec (sessionStep fs) (acceptCallbackHttp mem, []) arrivals = some (s, whole ++ rest) ∧
      arrivals.flatMap Arrival.bytes <+: recvQueue ++ labels.flatMap Label.bytes ∧
      readMessages c.sent.length c.sent = (messages, front) ∧
      List.Forall₂ Reads messages whole ∧ rest.length ≤ 1 ∧
      front <+: rest.flatMap Reply.wire := by
  obtain ⟨arrivals, s, done, pending, _, hwire⟩ := (onWire_accepted mem recvQueue eof).exec h
  obtain ⟨whole, rest, front, hreplies, hrest, hwhole, hsent, hfront, hnone⟩ := hwire.whole hfs
  obtain ⟨messages, hmessages⟩ := exists_reads hfs hwhole
  refine ⟨arrivals, s, whole, rest, messages, front, hreplies ▸ hwire.session, hwire.read_prefix,
    ?_, hmessages, hrest, hfront⟩
  rw [← Reads.flatMap_eq hmessages] at hsent
  have hlength := length_le_flatMap messages
  have hle : messages.length ≤ c.sent.length := by
    rw [hsent, List.length_append]
    omega
  rw [hsent] at hle ⊢
  exact readMessages_flatMap (Reads.framed_of_mem hmessages) hnone hle

theorem fourDigitYears_threeBytes : FourDigitYears threeBytes := by
  rintro name file st hfile hst
  obtain rfl := Option.some.inj hfile
  obtain rfl := Option.some.inj hst
  exact ⟨le_rfl, by decide⟩

/-- The client reads nothing while a byte of the file is missing. -/
theorem client_reads_threeBytes :
    ∃ (c : HttpConn) (arrivals : List Arrival) (s : HttpCtx) (whole rest : List Reply)
        (messages : List Message) (front : List UInt8),
      exec (sessionStep threeBytes) (acceptCallbackHttp .zero, []) arrivals =
        some (s, whole ++ rest) ∧
      arrivals.flatMap Arrival.bytes <+: plainRequest ∧
      readMessages c.sent.length c.sent = (messages, front) ∧
      List.Forall₂ Reads messages whole ∧ rest.length ≤ 1 ∧
      front <+: rest.flatMap Reply.wire := by
  obtain ⟨c, hc⟩ := exec_twoBytesSent
  exact ⟨c, client_reads fourDigitYears_threeBytes hc⟩

end Yotta.Server
