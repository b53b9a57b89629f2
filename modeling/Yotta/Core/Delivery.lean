import Yotta.Core.Connection

/-!
# Delivery

What `write_loop` (lines 372–383) puts on the socket for an armed write, whatever the
application does in its callbacks. A schedule is the list of what the system calls
return; a call of `write_loop` that ended with `EAGAIN` is followed by another one.

Results:
* `Ctx.Armed.delivered`: any schedule sends a front of the armed bytes, and the callback
  runs when the last of them is sent.
* `exact_delivery`: the same for `yta_async_write` and `yta_async_sendfile`, and for a
  write that is armed by the callback.
* `Conn.sent_of_step`: what a step of a connection puts on its socket.
-/

namespace Yotta.Core

open Yotta.Numeral

variable {κ υ υ' ε : Type}

/-! ## Model -/

/-- The context with other user data. -/
def Ctx.withData (ctx : Ctx κ υ) (userData : υ') : Ctx κ υ' where
  userData := userData
  readCallback := ctx.readCallback
  readBuf := ctx.readBuf
  toRead := ctx.toRead
  writeCallback := ctx.writeCallback
  wdata := ctx.wdata
  alreadyWritten := ctx.alreadyWritten
  toWrite := ctx.toWrite
  sys := ctx.sys

/-- The application, with a log of the callbacks that ran. -/
def App.logged (app : App κ υ ε) : App κ (υ × List κ) ε where
  io callback ctx buf n :=
    (app.io callback (ctx.withData ctx.userData.1) buf n).map fun (ctx', status) =>
      (ctx'.withData (ctx'.userData, ctx.userData.2 ++ [callback]), status)
  close ctx :=
    let ctx' := app.close (ctx.withData ctx.userData.1)
    ctx'.withData (ctx'.userData, ctx.userData.2)
  store u pos xs := (app.store u.1 pos xs, u.2)

/-- How the last handler of `write_loop` ended, and everything sent so far. -/
structure Delivery (κ υ ε : Type) where
  handled : Handled κ υ ε
  sent : List UInt8

/-- The bytes that a system call puts on the socket. -/
def Ctx.put (ctx : Ctx κ υ) : SysResult → List UInt8
  | .count n => ctx.transferred n
  | _ => []

/-- One round of `write_loop`: the system call transfers something or fails with
`EAGAIN`. -/
def writeStep (app : App κ υ ε) (d : Delivery κ υ ε) (r : SysResult) : Option (Delivery κ υ ε) :=
  match d.handled with
  | .status ctx status =>
    if status ≠ .error ∧ ctx.writeCallback.isSome ∧ r ≠ .error ∧ Allowed ctx.available r then
      some { handled := writeHandle app ctx r, sent := d.sent ++ ctx.put r }
    else none
  | _ => none

/-- What is armed: `yta_async_write` of the first `n` bytes of `buf`, or
`yta_async_sendfile` of `n` bytes of a file from `offset` on. -/
inductive Arming (κ : Type)
  | write (callback : κ) (buf : List UInt8) (n : ℕ)
  | sendfile (callback : κ) (fd n offset : ℕ)

namespace Arming

def arm : Arming κ → Ctx κ υ → Ctx κ υ
  | write callback buf n, ctx => ctx.asyncWrite callback buf n
  | sendfile callback fd n offset, ctx => ctx.asyncSendfile callback fd n offset

def callback : Arming κ → κ
  | write callback _ _ => callback
  | sendfile callback _ _ _ => callback

/-- The bytes to be sent. -/
def bytes (s : Sys) : Arming κ → List UInt8
  | write _ buf n => buf.take n
  | sendfile _ fd n offset =>
    match s.file fd with
    | some file => (file.data.drop offset).take n
    | none => []

/-- There is something to send, and it is there: in the buffer, or in the open file. -/
def Valid (s : Sys) : Arming κ → Prop
  | write _ buf n => 0 < n ∧ n ≤ buf.length ∧ n < 2 ^ 64
  | sendfile _ fd n offset => 0 < n ∧ ∃ file, s.file fd = some file ∧
    offset + n ≤ file.data.length ∧ file.data.length < 2 ^ 63

end Arming

/-! ## One system call -/

/-- The memory or the file that the pending write reads from. -/
def Ctx.source (ctx : Ctx κ υ) : Option (List UInt8) :=
  match ctx.wdata with
  | .basic buf => some buf
  | .sendfile fd => (ctx.sys.file fd).map File.data

/-- The pending write has `bytes` left to send, and calls `callback` then. -/
structure Ctx.Armed (ctx : Ctx κ υ) (callback : κ) (bytes : List UInt8) : Prop where
  writeCallback : ctx.writeCallback = some callback
  ne_nil : bytes ≠ []
  toWrite : ctx.toWrite = ctx.alreadyWritten + bytes.length
  toWrite_lt : ctx.toWrite < 2 ^ 64
  source : ∃ data, ctx.source = some data ∧ ctx.toWrite ≤ data.length ∧
    (data.drop ctx.alreadyWritten).take bytes.length = bytes

/-- The armed bytes of a call that is valid. -/
theorem Arming.Valid.armed {a : Arming κ} {ctx : Ctx κ υ} (h : a.Valid ctx.sys) :
    (a.arm ctx).Armed a.callback (a.bytes ctx.sys) := by
  cases a with
  | write callback buf n =>
    obtain ⟨hpos, hle, hlt⟩ := h
    have hlen : (buf.take n).length = n := List.length_take_of_le hle
    refine ⟨rfl, List.ne_nil_of_length_pos ?_, ?_, hlt, buf, rfl, hle, ?_⟩
    · change 0 < (buf.take n).length
      omega
    · change n = 0 + (buf.take n).length
      omega
    · change (buf.drop 0).take (buf.take n).length = buf.take n
      rw [hlen, List.drop_zero]
  | sendfile callback fd n offset =>
    obtain ⟨hpos, file, hfile, hle, hlt⟩ := h
    have hbytes : Arming.bytes ctx.sys (.sendfile callback fd n offset) =
        (file.data.drop offset).take n := by
      rw [Arming.bytes, hfile]
    have hlen : ((file.data.drop offset).take n).length = n := by
      rw [List.length_take_of_le]
      rw [List.length_drop]
      omega
    have hsum := toSize_eq (x := (n : ℤ) + offset) (by omega)
    have htotal : (Ctx.asyncSendfile ctx callback fd n offset).toWrite = offset + n := by
      change toSize ((n : ℤ) + offset) = offset + n
      omega
    rw [hbytes]
    refine ⟨rfl, List.ne_nil_of_length_pos (by omega), ?_, ?_, file.data, ?_, ?_, ?_⟩
    · rw [hlen]
      exact htotal
    · change (Ctx.asyncSendfile ctx callback fd n offset).toWrite < 2 ^ 64
      omega
    · change (ctx.sys.file fd).map File.data = some file.data
      rw [hfile]
      rfl
    · change (Ctx.asyncSendfile ctx callback fd n offset).toWrite ≤ file.data.length
      omega
    · rw [hlen]
      rfl

namespace Ctx.Armed

variable {ctx : Ctx κ υ} {callback : κ} {bytes : List UInt8}

/-- All that is left can be transferred. -/
theorem available (h : ctx.Armed callback bytes) : ctx.available = some bytes.length := by
  have hwrite := h.toWrite
  have hreq : ctx.requested = ctx.toWrite - ctx.alreadyWritten :=
    Ctx.requested_eq (by omega) h.toWrite_lt
  obtain ⟨data, hsource, hle, -⟩ := h.source
  rw [Ctx.source] at hsource
  rw [Ctx.available]
  cases hwdata : ctx.wdata with
  | basic buf =>
    dsimp only
    congr 1
    omega
  | sendfile fd =>
    rw [hwdata] at hsource
    obtain ⟨file, hfile, rfl⟩ := Option.map_eq_some_iff.mp hsource
    dsimp only
    rw [hfile, Option.map_some]
    congr 1
    omega

theorem transferred (h : ctx.Armed callback bytes) {k : ℕ} (hk : k ≤ bytes.length) :
    ctx.transferred k = bytes.take k := by
  obtain ⟨data, hsource, -, hbytes⟩ := h.source
  have hdata : (data.drop ctx.alreadyWritten).take k = bytes.take k := by
    rw [← hbytes, List.take_take, min_eq_left hk]
  rw [Ctx.source] at hsource
  rw [Ctx.transferred]
  cases hwdata : ctx.wdata with
  | basic buf =>
    rw [hwdata] at hsource
    obtain rfl := Option.some.inj hsource
    exact hdata
  | sendfile fd =>
    rw [hwdata] at hsource
    obtain ⟨file, hfile, rfl⟩ := Option.map_eq_some_iff.mp hsource
    dsimp only
    rw [hfile]
    exact hdata

/-- What is left behind a part. -/
theorem advance (h : ctx.Armed callback bytes) {k : ℕ} (hk : k < bytes.length) :
    ({ ctx with alreadyWritten := ctx.alreadyWritten + k } : Ctx κ υ).Armed callback
      (bytes.drop k) := by
  have hwrite := h.toWrite
  have hlen : (bytes.drop k).length = bytes.length - k := List.length_drop
  obtain ⟨data, hsource, hle, hbytes⟩ := h.source
  refine ⟨h.writeCallback, List.ne_nil_of_length_pos (by omega), ?_, h.toWrite_lt, data, hsource,
    hle, ?_⟩
  · change ctx.toWrite = ctx.alreadyWritten + k + (bytes.drop k).length
    omega
  · change (data.drop (ctx.alreadyWritten + k)).take (bytes.drop k).length = bytes.drop k
    rw [hlen, ← List.drop_drop, ← List.drop_take, hbytes]

end Ctx.Armed

/-- A round of `write_loop` with `bytes` left to send, rule by rule. -/
inductive WriteStepped (app : App κ υ ε) (ctx : Ctx κ υ) (callback : κ) (bytes sent : List UInt8) :
    SysResult → Delivery κ υ ε → Prop
  | again : WriteStepped app ctx callback bytes sent .again ⟨.status ctx .again, sent⟩
  | part {k : ℕ} : 0 < k → k < bytes.length →
    WriteStepped app ctx callback bytes sent (.count k)
      ⟨.status { ctx with alreadyWritten := ctx.alreadyWritten + k } .continue,
        sent ++ bytes.take k⟩
  | complete :
    WriteStepped app ctx callback bytes sent (.count bytes.length)
      ⟨afterCallback (app.io callback ctx.completed 0 ctx.toWrite), sent ++ bytes⟩

theorem writeStep_eq_some {app : App κ υ ε} {d d' : Delivery κ υ ε} {r : SysResult}
    (h : writeStep app d r = some d') :
    ∃ ctx status, d.handled = .status ctx status ∧ r ≠ .error ∧ Allowed ctx.available r ∧
      d' = { handled := writeHandle app ctx r, sent := d.sent ++ ctx.put r } := by
  rw [writeStep] at h
  cases hd : d.handled with
  | status ctx status =>
    rw [hd] at h
    dsimp only at h
    split_ifs at h with hguard
    cases h
    exact ⟨ctx, status, rfl, hguard.2.2.1, hguard.2.2.2, rfl⟩
  | abort => rw [hd] at h; cases h
  | raise e => rw [hd] at h; cases h

/-- Nothing is taken back. -/
theorem prefix_sent_of_exec {app : App κ υ ε} {d d' : Delivery κ υ ε} {rs : List SysResult}
    (h : exec (writeStep app) d rs = some d') : d.sent <+: d'.sent := by
  induction rs generalizing d with
  | nil =>
    obtain rfl : d = d' := Option.some.inj h
    exact List.prefix_rfl
  | cons r rs ih =>
    obtain ⟨d₁, hstep, h⟩ := Option.bind_eq_some_iff.mp h
    obtain ⟨ctx, status, -, -, -, rfl⟩ := writeStep_eq_some hstep
    exact (List.prefix_append _ _).trans (ih h)

section

variable {app : App κ υ ε} {ctx : Ctx κ υ} {callback : κ} {bytes sent : List UInt8}
variable {status : LoopStatus} {d : Delivery κ υ ε}

/-- **Every round** is one of the rules. -/
theorem Ctx.Armed.writeStepped (h : ctx.Armed callback bytes) {r : SysResult}
    (hs : writeStep app ⟨.status ctx status, sent⟩ r = some d) :
    WriteStepped app ctx callback bytes sent r d := by
  obtain ⟨_, _, hctx, hne, hallowed, rfl⟩ := writeStep_eq_some hs
  cases hctx
  rw [h.available] at hallowed
  have hrule := writeHandled app h.writeCallback r
  have htotal := h.toWrite
  generalize writeHandle app ctx r = handled at hrule
  cases hrule with
  | again =>
    have hput : sent ++ ctx.put .again = sent := List.append_nil sent
    rw [hput]
    exact .again
  | error => exact absurd rfl hne
  | zero =>
    have hzero := available_of_allowed_zero hallowed
    exact absurd (List.length_eq_zero_iff.mp (Option.some.inj hzero)) h.ne_nil
  | @part n hpart =>
    have hle := le_of_allowed hallowed
    have hput : ctx.put (.count (n + 1)) = bytes.take (n + 1) := h.transferred hle
    rw [hput]
    exact .part (Nat.succ_pos n) (by omega)
  | @complete n hdone =>
    have hn : n + 1 = bytes.length := by omega
    have hput : ctx.put (.count (n + 1)) = bytes.take (n + 1) := h.transferred hn.le
    rw [hput, hn, List.take_length]
    exact .complete

/-- **Delivery.** A schedule sends a proper front of the armed bytes and leaves the rest
armed, or a part of it sends all of them and ends with the callback. -/
theorem Ctx.Armed.delivered (h : ctx.Armed callback bytes) {rs : List SysResult}
    (hs : exec (writeStep app) ⟨.status ctx status, sent⟩ rs = some d) :
    (∃ k status', k < bytes.length ∧ d.sent = sent ++ bytes.take k ∧
      d.handled = .status { ctx with alreadyWritten := ctx.alreadyWritten + k } status') ∨
    ∃ front back, rs = front ++ back ∧
      exec (writeStep app) ⟨.status ctx status, sent⟩ front =
        some ⟨afterCallback (app.io callback ctx.completed 0 ctx.toWrite), sent ++ bytes⟩ ∧
      exec (writeStep app)
        ⟨afterCallback (app.io callback ctx.completed 0 ctx.toWrite), sent ++ bytes⟩ back =
        some d := by
  induction rs generalizing ctx bytes sent status with
  | nil =>
    obtain rfl := Option.some.inj hs
    have hpos := List.length_pos_of_ne_nil h.ne_nil
    exact Or.inl ⟨0, status, hpos, (List.append_nil sent).symm, rfl⟩
  | cons r rs ih =>
    obtain ⟨d₁, hstep, hs⟩ := Option.bind_eq_some_iff.mp hs
    cases h.writeStepped hstep with
    | again =>
      refine (ih h hs).imp id ?_
      rintro ⟨front, back, rfl, hfront, hback⟩
      exact ⟨_ :: front, back, rfl, by rw [exec, hstep]; exact hfront, hback⟩
    | @part k hpos hlt =>
      have hdrop : (bytes.drop k).length = bytes.length - k := List.length_drop
      rcases ih (h.advance hlt) hs with ⟨j, status', hj, hsent, hhandled⟩ |
        ⟨front, back, rfl, hfront, hback⟩
      · refine Or.inl ⟨k + j, status', by omega, ?_, ?_⟩
        · rw [hsent, List.append_assoc, List.take_add]
        · rw [hhandled]
          dsimp only
          rw [Nat.add_assoc]
      · rw [List.append_assoc, List.take_append_drop] at hfront hback
        exact Or.inr ⟨_ :: front, back, rfl, by rw [exec, hstep]; exact hfront, hback⟩
    | complete => exact Or.inr ⟨[_], rs, rfl, by rw [exec, hstep]; rfl, hs⟩

end

/-! ## Connections -/

/-- What the client sends. -/
def Label.bytes : Label → List UInt8
  | .send xs => xs
  | _ => []

namespace Conn

/-- What a step puts on the socket. -/
def put (c : Conn κ υ) : Label → List UInt8
  | .write r _ => c.ctx.put r
  | _ => []

variable {app : App κ υ ε} {c c' : Conn κ υ} {l : Label}

@[simp] theorem sent_cleanup : (c.cleanup app).sent = c.sent := rfl

@[simp] theorem sent_leaveReadLoop (out : Bool) : (c.leaveReadLoop out).sent = c.sent := rfl

@[simp] theorem sent_handled (phase : Phase) (h : Handled κ υ ε) :
    (c.handled app phase h).sent = c.sent := by
  rcases h with ⟨ctx, _ | _ | _⟩ | _ | _ <;> rfl

@[simp] theorem recvQueue_handled (phase : Phase) (h : Handled κ υ ε) :
    (c.handled app phase h).recvQueue = c.recvQueue := by
  rcases h with ⟨ctx, _ | _ | _⟩ | _ | _ <;> rfl

theorem sent_of_outside (h : c.outside l = some c') : c'.sent = c.sent ∧ c.put l = [] := by
  unfold outside at h
  split at h
  · split_ifs at h
    cases h
    exact ⟨rfl, rfl⟩
  · split_ifs at h
    cases h
    exact ⟨rfl, rfl⟩
  · split_ifs at h
    cases h
    exact ⟨rfl, rfl⟩
  · cases h

theorem sent_of_advance (h : c.advance app = some c') : c'.sent = c.sent := by
  rw [advance] at h
  split at h
  · cases h
    split_ifs <;> rfl
  · split_ifs at h <;> cases h <;> rfl
  · split_ifs at h
    cases h
    rfl
  · cases h

theorem sent_of_inside (h : c.inside app l = some c') : c'.sent = c.sent ++ c.put l := by
  have hnil {xs : List UInt8} (hxs : xs = c.sent) : xs = c.sent ++ [] := by
    rw [hxs, List.append_nil]
  cases l with
  | wait =>
    rw [inside] at h
    split_ifs at h
    cases h
    exact hnil rfl
  | expire =>
    rw [inside] at h
    split_ifs at h
    cases h
    exact hnil rfl
  | advance => exact hnil (sent_of_advance h)
  | read n fd =>
    rw [inside] at h
    split at h
    · split_ifs at h
      cases h
      exact hnil (sent_handled _ _)
    · cases h
  | readError =>
    rw [inside] at h
    split at h
    · split_ifs at h
      cases h
      exact hnil rfl
    · cases h
  | write r full =>
    rw [inside.eq_def] at h
    dsimp only at h
    split_ifs at h
    cases h
    rw [sent_handled]
    cases r with
    | count n => rfl
    | again | error => exact hnil rfl
  | _ => cases h

/-- **The socket** gets what a step transfers, and nothing else. -/
theorem sent_of_step (h : c.step app l = some c') : c'.sent = c.sent ++ c.put l := by
  rw [step] at h
  split_ifs at h
  cases hout : c.outside l with
  | some d =>
    rw [hout] at h
    cases h
    obtain ⟨hsent, hput⟩ := sent_of_outside hout
    rw [hsent, hput, List.append_nil]
  | none =>
    rw [hout] at h
    exact sent_of_inside h

end Conn

/-! ## Whole writes -/

/-- A callback that returns has been logged. -/
theorem log_of_afterCallback {app : App κ υ ε} {callback : κ} {ctx ctx' : Ctx κ (υ × List κ)}
    {buf n : ℕ} {status : LoopStatus}
    (h : afterCallback (app.logged.io callback ctx buf n) = .status ctx' status) :
    ctx'.userData.2 = ctx.userData.2 ++ [callback] := by
  rw [App.logged] at h
  dsimp only at h
  rcases hio : app.io callback (ctx.withData ctx.userData.1) buf n with e | ⟨ctx₁, _ | _⟩
  · rw [hio] at h
    cases h
  · rw [hio] at h
    cases h
    rfl
  · rw [hio] at h
    cases h
    rfl

/-- **Exact delivery.** Whatever the system calls return, what is on the socket is a proper
front of the armed bytes, and no callback has run; or, after a part of the schedule,
exactly the armed bytes, and the callback has run once. A write that the callback arms
is sent behind them. -/
theorem exact_delivery (app : App κ υ ε) {ctx : Ctx κ (υ × List κ)} {a : Arming κ}
    (ha : a.Valid ctx.sys) {sent : List UInt8} {rs : List SysResult}
    {d : Delivery κ (υ × List κ) ε}
    (h : exec (writeStep app.logged) ⟨.status (a.arm ctx) .continue, sent⟩ rs = some d) :
    (∃ k ctx' status, k < (a.bytes ctx.sys).length ∧ d.sent = sent ++ (a.bytes ctx.sys).take k ∧
      d.handled = .status ctx' status ∧ ctx'.userData = ctx.userData) ∨
    ∃ front back handled, rs = front ++ back ∧
      exec (writeStep app.logged) ⟨.status (a.arm ctx) .continue, sent⟩ front =
        some ⟨handled, sent ++ a.bytes ctx.sys⟩ ∧
      exec (writeStep app.logged) ⟨handled, sent ++ a.bytes ctx.sys⟩ back = some d ∧
      (∀ ctx' status, handled = .status ctx' status →
        ctx'.userData.2 = ctx.userData.2 ++ [a.callback]) ∧
      ∀ (ctx' : Ctx κ (υ × List κ)) (b : Arming κ), handled = .status (b.arm ctx') .continue →
        b.Valid ctx'.sys →
        (∃ k < (b.bytes ctx'.sys).length,
          d.sent = sent ++ a.bytes ctx.sys ++ (b.bytes ctx'.sys).take k) ∨
        sent ++ a.bytes ctx.sys ++ b.bytes ctx'.sys <+: d.sent := by
  have hdata : (a.arm ctx).userData = ctx.userData := by cases a <;> rfl
  rcases ha.armed.delivered h with ⟨k, status, hk, hsent, hhandled⟩ |
    ⟨front, back, hsplit, hfront, hback⟩
  · exact Or.inl ⟨k, _, status, hk, hsent, hhandled, hdata⟩
  · refine Or.inr ⟨front, back, _, hsplit, hfront, hback, fun ctx' status hctx' => ?_,
      fun ctx' b hctx' hb => ?_⟩
    · rw [log_of_afterCallback hctx', ← hdata]
      rfl
    · rw [hctx'] at hback
      rcases hb.armed.delivered hback with ⟨k, status, hk, hsent, -⟩ | ⟨front', back', -, -, hback'⟩
      · exact Or.inl ⟨k, hk, hsent⟩
      · exact Or.inr (prefix_sent_of_exec hback')

/-- Callback `true` arms a write of one more byte, callback `false` nothing. -/
def chained : App Bool Unit Empty where
  io callback ctx _ _ :=
    .ok (if callback then ctx.asyncWrite false [0x42] 1 else ctx, .ok)
  close := id
  store u _ _ := u

/-- A context that waits for nothing. -/
def Ctx.idle {υ : Type} (userData : υ) : Ctx Bool υ where
  userData := userData
  readCallback := none
  readBuf := 0
  toRead := 0
  writeCallback := none
  wdata := .basic []
  alreadyWritten := 0
  toWrite := 0
  sys := { cork := false, nextFd := 3, files := [], badClose := false }

/-- Two bytes and one behind them, by three system calls and one that fails with
`EAGAIN`. -/
theorem exact_delivery_chained :
    ∃ front back handled, [.count 1, .again, .count 1, .count 1] = front ++ back ∧
      exec (writeStep chained.logged)
        ⟨.status ((Ctx.idle ((), [])).asyncWrite true [0x48, 0x41] 2) .continue, []⟩ front =
        some ⟨handled, [0x48, 0x41]⟩ ∧
      exec (writeStep chained.logged) ⟨handled, [0x48, 0x41]⟩ back =
        some ⟨.status ((Ctx.idle ((), [true, false])).asyncWrite false [0x42] 1).completed
          .continue, [0x48, 0x41, 0x42]⟩ := by
  have hvalid : Arming.Valid (Ctx.idle ((), ([] : List Bool))).sys
      (.write true [0x48, 0x41] 2) := ⟨by decide, by decide, by decide⟩
  have hrun : exec (writeStep chained.logged)
      ⟨.status ((Ctx.idle ((), [])).asyncWrite true [0x48, 0x41] 2) .continue, []⟩
      [.count 1, .again, .count 1, .count 1] =
        some ⟨.status ((Ctx.idle ((), [true, false])).asyncWrite false [0x42] 1).completed
          .continue, [0x48, 0x41, 0x42]⟩ := rfl
  rcases exact_delivery chained hvalid hrun with
    ⟨k, ctx', status, -, -, hctx', hdata⟩ | ⟨front, back, handled, hsplit, hfront, hback, -⟩
  · cases hctx'
    cases hdata
  · exact ⟨front, back, handled, hsplit, hfront, hback⟩

end Yotta.Core
