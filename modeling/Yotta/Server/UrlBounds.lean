import Yotta.Http.CleanPathBounds
import Yotta.Server.Url

/-!
# The accesses of `parse_url`

`parse_url` (`yotta.cpp`, lines 97–173) with every access to the path and to
`normalized_path` checked: the path has the bytes of the request target in front of the
`?`, `normalized_path` has `MAX_URL_SIXE`, and `open` is given a string that has to end
inside it.

Results:
* `normalizeUrlIn_eq`: no access fails where the length is accepted.
* `parseUrlIn_eq`: `parse_url` never leaves its buffers.
-/

namespace Yotta.Server

open Yotta.Bytes Yotta.Core Yotta.Http Yotta.Lexical Yotta.Region

/-! ## Model of the code -/

/-- The path is cleaned behind a `.` (lines 113–119). -/
def cleanUrlIn (path : List UInt8) : Option (List UInt8 × ℕ) := do
  let normalizedPath ← store maxUrlSize (List.replicate maxUrlSize 0) 0 dot
  let (cleanLength, cleaned) ←
    cleanPathIn path.length (maxUrlSize - 1) path path.length (normalizedPath.drop 1)
  return (normalizedPath.take 1 ++ cleaned, 1 + cleanLength)

/-- The trailing `/` is put back (lines 121–126). -/
def restoreSlashIn (path : List UInt8) (s : List UInt8 × ℕ) : Option (List UInt8 × ℕ) := do
  let (normalizedPath, newLength) := s
  if ← loadsTo path.length path (← decrement path.length) slash <&&> pure (newLength != 2) then
    let normalizedPath ← store maxUrlSize normalizedPath newLength slash
    return (normalizedPath, newLength + 1)
  else return s

/-- `index.html` is appended behind a trailing `/` (lines 128–134). -/
def appendIndexHtmlIn (s : List UInt8 × ℕ) : Option (List UInt8 × ℕ) := do
  let (normalizedPath, newLength) := s
  if ← loadsTo maxUrlSize normalizedPath (← decrement newLength) slash then
    let normalizedPath ← copyTo maxUrlSize normalizedPath newLength (ascii "index.html" ++ [0])
    return (normalizedPath, newLength + 10)
  else return s

/-- Lines 113–134. -/
def normalizeUrlIn (path : List UInt8) : Option (List UInt8 × ℕ) := do
  let s ← cleanUrlIn path
  let s ← restoreSlashIn path s
  appendIndexHtmlIn s

/-- `parse_url` (lines 97–173). -/
def parseUrlIn (fs : FileSystem) (ctx : HttpCtx) (target : List UInt8) : Option HttpCtx := do
  let u := ctx.userData
  let path := queryCut target
  if !lengthOk path then return { ctx with userData := u.return404 }
  else
    let (normalizedPath, newLength) ← normalizeUrlIn path
    match fs (← string maxUrlSize normalizedPath) with
    | none => return { ctx with userData := u.return404 }
    | some file =>
      let ffd := ctx.sys.nextFd
      let ctx := { ctx with sys := ctx.sys.openFile file }
      match file.fstat with
      | none => return { ctx with userData := u.return404, sys := ctx.sys.close ffd }
      | some fileStat =>
        if !fileStat.isReg then
          return { ctx with userData := u.return404, sys := ctx.sys.close ffd }
        else
          let pathView ← view maxUrlSize normalizedPath newLength
          return { ctx with
            userData := { u with
              extension := contentType pathView
              fileFd := ffd
              fileSize := fileStat.stSize
              fileStat } }

/-! ## The buffer -/

/-- `new_length` is at most `bound`, and the last byte of the buffer is still the NUL it
is initialized with. -/
structure Roomy (s : List UInt8 × ℕ) (bound : ℕ) : Prop where
  pos : 0 < s.2
  le : s.2 ≤ bound
  last : s.1[1023]? = some 0

theorem cleanUrlIn_eq {path : List UInt8} (hlen : path.length ≤ 1004) (hne : path ≠ []) :
    cleanUrlIn path = some (cleanUrl path) ∧ Roomy (cleanUrl path) 1005 := by
  have hpos := List.length_pos_of_ne_nil hne
  have hrlen := length_residue_le path
  have hnlen := length_normalForm_le path
  constructor
  · unfold cleanUrlIn cleanUrl
    rw [store_of_lt (by decide), Option.bind_eq_bind, Option.bind_some,
      cleanPathIn_eq (by rw [show maxUrlSize = 1024 from rfl]; omega)]
    rfl
  · rw [cleanUrl_eq hlen hne]
    refine ⟨by omega, by dsimp only; omega, ?_⟩
    have hfront : (dot :: residue slash dot path).length ≤ 1023 := by
      rw [List.length_cons]
      omega
    dsimp only
    rw [List.getElem?_append_right hfront, List.getElem?_replicate, if_pos]
    rw [List.length_cons]
    omega

theorem restoreSlashIn_eq {path : List UInt8} (hne : path ≠ []) {s : List UInt8 × ℕ}
    (h : Roomy s 1005) :
    restoreSlashIn path s = some (restoreSlash path s) ∧ Roomy (restoreSlash path s) 1006 := by
  obtain ⟨mem, len⟩ := s
  obtain ⟨hpos, hle, hlast⟩ := h
  have hlen := List.length_pos_of_ne_nil hne
  dsimp only at hpos hle hlast
  have htest : (some (path.getD (path.length - 1) 0 == slash) <&&> pure (len != 2)) =
      some (decide (path.getD (path.length - 1) 0 = slash ∧ len ≠ 2)) := by
    rw [andM_some]
    generalize path.getD (path.length - 1) 0 = c
    by_cases hc : c = slash <;> simp [hc, bne, Bool.beq_eq_decide_eq]
  unfold restoreSlashIn restoreSlash
  dsimp only
  rw [decrement_of_pos hlen, Option.bind_eq_bind, Option.bind_some,
    loadsTo_of_lt (by omega : path.length - 1 < path.length), htest]
  simp only [Option.bind_eq_bind, Option.bind_some, decide_eq_true_eq]
  by_cases hput : path.getD (path.length - 1) 0 = slash ∧ len ≠ 2
  · rw [if_pos hput, if_pos hput, store_of_lt (lt_of_le_of_lt hle (by decide))]
    refine ⟨rfl, Nat.succ_pos len, Nat.succ_le_succ hle, ?_⟩
    dsimp only
    rw [List.getElem?_set_ne (by omega : len ≠ 1023)]
    exact hlast
  · rw [if_neg hput, if_neg hput]
    exact ⟨rfl, hpos, hle.trans (by decide), hlast⟩

/-- A write that ends in front of an index leaves it alone. -/
theorem getElem?_blit_of_le {mem xs : List UInt8} {i j : ℕ} (hi : i ≤ mem.length)
    (h : i + xs.length ≤ j) : (blit mem i xs)[j]? = mem[j]? := by
  have hfront : (mem.take i ++ xs).length = i + xs.length := by
    rw [List.length_append, List.length_take, Nat.min_eq_left hi]
  rw [blit, List.getElem?_append_right (by rwa [hfront]), hfront, List.getElem?_drop,
    Nat.add_sub_cancel' h]

theorem appendIndexHtmlIn_eq {s : List UInt8 × ℕ} (h : Roomy s 1006) :
    appendIndexHtmlIn s = some (appendIndexHtml s) ∧ Roomy (appendIndexHtml s) 1016 := by
  obtain ⟨mem, len⟩ := s
  obtain ⟨hpos, hle, hlast⟩ := h
  dsimp only at hpos hle hlast
  have hlen : 1023 < mem.length := (List.getElem?_eq_some_iff.mp hlast).1
  have hindex : (ascii "index.html" ++ [0]).length = 11 := by decide
  unfold appendIndexHtmlIn appendIndexHtml
  dsimp only
  rw [decrement_of_pos hpos, Option.bind_eq_bind, Option.bind_some,
    loadsTo_of_lt (lt_of_le_of_lt (Nat.sub_le len 1) (lt_of_le_of_lt hle (by decide)))]
  simp only [Option.bind_eq_bind, Option.bind_some, beq_iff_eq]
  by_cases hs : mem.getD (len - 1) 0 = slash
  · rw [if_pos hs, if_pos hs, copyTo_of_le (by rw [hindex, show maxUrlSize = 1024 from rfl]; omega)]
    refine ⟨rfl, Nat.succ_pos _, Nat.add_le_add_right hle 10, ?_⟩
    dsimp only
    rw [getElem?_blit_of_le (by omega) (by omega)]
    exact hlast
  · rw [if_neg hs, if_neg hs]
    exact ⟨rfl, hpos, hle.trans (by decide), hlast⟩

/-- No access fails, and the string in the buffer ends there. -/
theorem normalizeUrlIn_eq {path : List UInt8} (hok : lengthOk path) :
    normalizeUrlIn path = some (normalizeUrl path) ∧ Roomy (normalizeUrl path) 1016 := by
  obtain ⟨hlen, hne⟩ : path.length ≤ 1004 ∧ path ≠ [] := by
    obtain ⟨hle, hne⟩ := Bool.and_eq_true_iff.mp hok
    exact ⟨of_decide_eq_true hle, by rintro rfl; exact of_decide_eq_true hne rfl⟩
  obtain ⟨hclean, h1⟩ := cleanUrlIn_eq hlen hne
  obtain ⟨hrestore, h2⟩ := restoreSlashIn_eq hne h1
  obtain ⟨happend, h3⟩ := appendIndexHtmlIn_eq h2
  refine ⟨?_, h3⟩
  unfold normalizeUrlIn
  rw [hclean, Option.bind_eq_bind, Option.bind_some, hrestore, Option.bind_some, happend]
  rfl

/-- No access of `parse_url` fails. -/
theorem parseUrlIn_eq (fs : FileSystem) (ctx : HttpCtx) (target : List UInt8) :
    parseUrlIn fs ctx target = some (parseUrl fs ctx target) := by
  unfold parseUrlIn parseUrl
  dsimp only
  by_cases hok : lengthOk (queryCut target)
  · obtain ⟨heq, hroomy⟩ := normalizeUrlIn_eq hok
    rw [if_neg (by simp [hok]), if_neg (by simp [hok]), heq]
    generalize normalizeUrl (queryCut target) = s at hroomy ⊢
    obtain ⟨mem, len⟩ := s
    obtain ⟨-, hle, hlast⟩ := hroomy
    simp only [Option.bind_eq_bind, Option.bind_some,
      string_of_getElem? (by decide : 1023 < maxUrlSize) hlast]
    cases fs (cstr mem) with
    | none => rfl
    | some file =>
      dsimp only
      cases file.fstat with
      | none => rfl
      | some fileStat =>
        dsimp only
        by_cases hreg : fileStat.isReg
        · rw [if_neg (by simp [hreg]), if_neg (by simp [hreg]),
            view_of_le (hle.trans (by decide))]
          rfl
        · rw [if_pos (by simp [hreg]), if_pos (by simp [hreg])]
          rfl
  · rw [if_pos (by simp [hok]), if_pos (by simp [hok])]
    rfl

/-- **The path buffers are never overrun.** `clean_path` reads the path up to its length and
writes as many bytes, and one for the empty path; `parse_url` stays inside
`normalized_path`, where the name given to `open` has its NUL. -/
theorem pathBuffers_inBounds :
    (∀ (path : List UInt8) (length : ℕ) (out : List UInt8),
      cleanPathIn length (max length 1) path length out = some (cleanPath path length out)) ∧
    (∀ fs ctx target, parseUrlIn fs ctx target = some (parseUrl fs ctx target)) ∧
    ∀ target, lengthOk (queryCut target) → (openName target).length < 1024 := by
  refine ⟨fun path length out => cleanPathIn_eq (Nat.le_refl _) path out, parseUrlIn_eq, ?_⟩
  intro target hok
  obtain ⟨-, -, -, hlast⟩ := normalizeUrlIn_eq hok
  exact Nat.lt_succ_of_le (length_cstr_le hlast)

end Yotta.Server
