import Yotta.Http.CleanPath
import Yotta.Server.UserData

/-!
# `parse_url`

Model of `parse_url` (`yotta.cpp`, lines 71–173).

Results:
* `normalizeUrl_spec`: the name passed to `open` and the one in `path_view`, in
  terms of the normal form of the path and of what `clean_path` has left behind
  it.
* `parseUrl_eq`: the effect of `parse_url` on the connection, by what it finds.
-/

namespace Yotta.Server

open Yotta.Bytes Yotta.Core Yotta.Http Yotta.Lexical

/-! ## Model of the code -/

/-- `mime_types` (lines 71–95). -/
def mimeTypes : List (List UInt8 × List UInt8) :=
  [(".html", "text/html"), (".css", "text/css"), (".png", "image/png"), (".jpg", "image/jpeg"),
    (".jpeg", "image/jpeg"), (".svg", "image/svg+xml"), (".gif", "image/gif"),
    (".ico", "image/x-icon"), (".txt", "text/plain"), (".doc", "application/msword"),
    (".docx", "application/vnd.openxmlformats-officedocument.wordprocessingml.document"),
    (".csv", "text/csv"), (".js", "application/x-javascript"), (".json", "application/json"),
    (".pdf", "application/pdf"), (".zip", "application/zip"), (".gz", "application/gzip"),
    (".woff", "application/font-woff"), (".woff2", "application/font-woff2"),
    (".opus", "audio/opus"), (".mp4", "video/mp4"), (".mpeg", "video/mpeg"),
    (".mpg", "video/mpeg"), (".mp3", "audio/mpeg")].map fun (k, v) => (ascii k, ascii v)

/-- The part of a request target before the first `?` (lines 100–104). -/
def queryCut (target : List UInt8) : List UInt8 := target.takeWhile (· ≠ 63)

/-- `string_view::rfind`, with `npos` as the largest `size_t`. -/
def rfind (s : List UInt8) (c : UInt8) : ℕ :=
  match s.reverse.findIdx? (· = c) with
  | some i => s.length - 1 - i
  | none => 2 ^ 64 - 1

/-- The content type of the file that `path_view` names (lines 152–166). -/
def contentType (pathView : List UInt8) : List UInt8 :=
  let filetypeBegin := rfind pathView dot
  let fileBegin := rfind pathView slash
  if fileBegin < filetypeBegin then
    match mimeTypes.lookup (pathView.drop filetypeBegin) with
    | some contentType => contentType
    | none => ascii "text/plain"
  else ascii "text/plain"

/-- `normalized_path` and `new_length` once the path is cleaned (lines 113–119). -/
def cleanUrl (path : List UInt8) : List UInt8 × ℕ :=
  let normalizedPath := (List.replicate maxUrlSize 0).set 0 dot
  let (cleanLength, cleaned) := cleanPath path path.length (normalizedPath.drop 1)
  (normalizedPath.take 1 ++ cleaned, 1 + cleanLength)

/-- The trailing `/` is put back (lines 121–126). -/
def restoreSlash (path : List UInt8) (s : List UInt8 × ℕ) : List UInt8 × ℕ :=
  let (normalizedPath, newLength) := s
  if path.getD (path.length - 1) 0 = slash ∧ newLength ≠ 2 then
    (normalizedPath.set newLength slash, newLength + 1)
  else s

/-- `index.html` is appended behind a trailing `/` (lines 128–134). -/
def appendIndexHtml (s : List UInt8 × ℕ) : List UInt8 × ℕ :=
  let (normalizedPath, newLength) := s
  if normalizedPath.getD (newLength - 1) 0 = slash then
    (blit normalizedPath newLength (ascii "index.html" ++ [0]), newLength + 10)
  else s

/-- `normalized_path` and `new_length` for a path whose length is accepted (lines
113–134). -/
def normalizeUrl (path : List UInt8) : List UInt8 × ℕ :=
  appendIndexHtml (restoreSlash path (cleanUrl path))

/-- The length test of `parse_url` (lines 108–111). -/
def lengthOk (path : List UInt8) : Bool := path.length ≤ maxUrlSize - 20 && path.length ≠ 0

/-- `parse_url` (lines 97–173). -/
def parseUrl (fs : FileSystem) (ctx : HttpCtx) (target : List UInt8) : HttpCtx :=
  let u := ctx.userData
  let path := queryCut target
  if !lengthOk path then { ctx with userData := u.return404 }
  else
    let (normalizedPath, newLength) := normalizeUrl path
    match fs (cstr normalizedPath) with
    | none => { ctx with userData := u.return404 }
    | some file =>
      let ffd := ctx.sys.nextFd
      let ctx := { ctx with sys := ctx.sys.openFile file }
      match file.fstat with
      | none => { ctx with userData := u.return404, sys := ctx.sys.close ffd }
      | some fileStat =>
        if !fileStat.isReg then { ctx with userData := u.return404, sys := ctx.sys.close ffd }
        else
          { ctx with
            userData := { u with
              extension := contentType (normalizedPath.take newLength)
              fileFd := ffd
              fileSize := fileStat.stSize
              fileStat } }

/-! ## The name of the file -/

/-- The C string passed to `open`. -/
def openName (target : List UInt8) : List UInt8 := cstr (normalizeUrl (queryCut target)).1

/-- `path_view` -/
def pathView (target : List UInt8) : List UInt8 :=
  (normalizeUrl (queryCut target)).1.take (normalizeUrl (queryCut target)).2

/-- The name made of a cleaned path: `body` behind `.`, or the name of an index
file. The restored `/` depends on the normal form, and so does the index file
of the root. -/
def urlName (path body : List UInt8) : List UInt8 :=
  if path.getLast? = some slash ∧ (normalForm slash dot path).length ≠ 1 then
    dot :: normalForm slash dot path ++ slash :: ascii "index.html"
  else if normalForm slash dot path = [slash] then ascii "./index.html"
  else dot :: body

/-- The buffer handed to `clean_path` is zero. -/
theorem normalizedPath_drop :
    ((List.replicate maxUrlSize (0 : UInt8)).set 0 dot).drop 1 = List.replicate 1023 0 := by
  rw [show maxUrlSize = 1023 + 1 from rfl, List.replicate_succ, List.set_cons_zero, List.drop_one,
    List.tail_cons]

theorem cleanUrl_eq {path : List UInt8} (hlen : path.length ≤ 1004) (hne : path ≠ []) :
    cleanUrl path =
      (dot :: residue slash dot path ++
          List.replicate (1023 - (residue slash dot path).length) 0,
        1 + (normalForm slash dot path).length) := by
  have hpos := List.length_pos_of_ne_nil hne
  have htake : ((List.replicate maxUrlSize (0 : UInt8)).set 0 dot).take 1 = [dot] := by
    rw [show maxUrlSize = 1023 + 1 from rfl, List.replicate_succ, List.set_cons_zero,
      List.take_succ_cons, List.take_zero]
  rw [cleanUrl, normalizedPath_drop, htake,
    cleanPath_eq _ le_rfl (by rw [List.length_replicate]; omega), List.take_length, overlay,
    List.drop_replicate]
  rfl

theorem zero_notMem_residue {path : List UInt8} (h0 : 0 ∉ path) :
    (0 : UInt8) ∉ residue slash dot path := by
  intro h
  rcases mem_residue h with h | h | h
  · exact absurd h (by decide)
  · exact absurd h (by decide)
  · exact h0 h

theorem zero_notMem_normalForm {path : List UInt8} (h0 : 0 ∉ path) :
    (0 : UInt8) ∉ normalForm slash dot path := by
  obtain ⟨s, hs, -⟩ := residue_eq path
  intro h
  exact zero_notMem_residue h0 (by rw [hs]; exact List.mem_append_left s h)

/-- `front`, which does not contain NUL, fills the buffer up to `new_length`. -/
structure Filled (s : List UInt8 × ℕ) (front : List UInt8) : Prop where
  length_eq : s.2 = front.length
  take_eq : s.1.take front.length = front
  length_lt : front.length < s.1.length
  zero_notMem : (0 : UInt8) ∉ front

theorem Filled.restoreSlash {path front : List UInt8} {s : List UInt8 × ℕ} (h : Filled s front)
    (hlast : path.getLast? = some slash) (h2 : front.length ≠ 2)
    (hroom : front.length + 1 < s.1.length) :
    Filled (restoreSlash path s) (front ++ [slash]) := by
  obtain ⟨mem, len⟩ := s
  obtain ⟨rfl, htake, hlt, h0⟩ := h
  have hget : path.getD (path.length - 1) 0 = slash := by
    rw [List.getLast?_eq_getElem?] at hlast
    rw [List.getD_eq_getElem?_getD, hlast, Option.getD_some]
  dsimp only at htake hlt hroom
  rw [Server.restoreSlash, if_pos ⟨hget, h2⟩]
  refine ⟨by simp, ?_, by simpa using hroom, ?_⟩
  · dsimp only
    rw [set_eq_blit hlt, blit, htake, List.take_left' rfl]
  · rw [List.mem_append, not_or]
    exact ⟨h0, by decide⟩

theorem restoreSlash_eq_self {path : List UInt8} {s : List UInt8 × ℕ} (hne : path ≠ [])
    (h : ¬ (path.getLast? = some slash ∧ s.2 ≠ 2)) : restoreSlash path s = s := by
  have hpos := List.length_pos_of_ne_nil hne
  rw [restoreSlash, if_neg]
  rintro ⟨h1, h2⟩
  refine h ⟨?_, h2⟩
  rw [List.getLast?_eq_getElem?, List.getElem?_eq_getElem (by omega)]
  rw [List.getD_eq_getElem _ _ (by omega)] at h1
  rw [h1]

theorem Filled.getD {front : List UInt8} {s : List UInt8 × ℕ} (h : Filled s front) {c : UInt8}
    (hc : front.getLast? = some c) : s.1.getD (s.2 - 1) 0 = c := by
  have hne : front ≠ [] := by rintro rfl; simp at hc
  have hpos := List.length_pos_of_ne_nil hne
  rw [List.getLast?_eq_getElem?, ← h.take_eq, List.getElem?_take_of_lt] at hc
  · rw [h.take_eq] at hc
    rw [List.getD_eq_getElem?_getD, h.length_eq, hc, Option.getD_some]
  · rw [h.take_eq]
    omega

/-- An index file is appended, and NUL behind it. -/
theorem Filled.appendIndexHtml {front : List UInt8} {s : List UInt8 × ℕ} (h : Filled s front)
    (hlast : front.getLast? = some slash) :
    cstr (appendIndexHtml s).1 = front ++ ascii "index.html" ∧
      (appendIndexHtml s).1.take (appendIndexHtml s).2 = front ++ ascii "index.html" := by
  have hget := h.getD hlast
  obtain ⟨mem, len⟩ := s
  obtain ⟨rfl, htake, hlt, h0⟩ := h
  have hb : blit mem front.length (ascii "index.html" ++ [0]) =
      (front ++ ascii "index.html") ++ 0 :: mem.drop (front.length + 11) := by
    rw [blit, htake]
    simp [ascii]
  rw [Server.appendIndexHtml, if_pos hget]
  dsimp only
  rw [hb]
  refine ⟨cstr_append_zero ?_ _, List.take_left' (by simp [ascii])⟩
  rw [List.mem_append, not_or]
  exact ⟨h0, by decide⟩

theorem Filled.appendIndexHtml_eq_self {front : List UInt8} {s : List UInt8 × ℕ}
    (h : Filled s front) {c : UInt8} (hlast : front.getLast? = some c) (hc : c ≠ slash) :
    Server.appendIndexHtml s = s := by
  rw [Server.appendIndexHtml, if_neg (by rw [h.getD hlast]; exact hc)]

/-- The cleaned path in the buffer. -/
theorem filled_cleanUrl {path : List UInt8} (hlen : path.length ≤ 1004) (hne : path ≠ [])
    (h0 : 0 ∉ path) :
    Filled (cleanUrl path) (dot :: normalForm slash dot path) ∧
      1024 ≤ (cleanUrl path).1.length ∧ (normalForm slash dot path).length ≤ 1004 := by
  obtain ⟨s, hs, -⟩ := residue_eq path
  have hrlen := length_residue_le path
  have hnlen : (normalForm slash dot path).length + s.length = (residue slash dot path).length := by
    rw [hs, List.length_append]
  have hpos := List.length_pos_of_ne_nil hne
  rw [cleanUrl_eq hlen hne, hs]
  refine ⟨⟨by simp [Nat.add_comm], ?_, ?_, ?_⟩, ?_, by omega⟩
  · simp
  · simp only [List.length_append, List.length_cons, List.length_replicate]
    omega
  · rw [List.mem_cons, not_or]
    exact ⟨by decide, zero_notMem_normalForm h0⟩
  · simp only [List.length_append, List.length_cons, List.length_replicate]
    omega

/-- **The name of the file.** The C string passed to `open` is `.` and the
residue of the path, `path_view` is `.` and its normal form, and both are the
same index file where one is appended. -/
theorem normalizeUrl_spec {path : List UInt8} (hlen : path.length ≤ 1004) (hne : path ≠ [])
    (h0 : 0 ∉ path) :
    cstr (normalizeUrl path).1 = urlName path (residue slash dot path) ∧
      (normalizeUrl path).1.take (normalizeUrl path).2 =
        urlName path (normalForm slash dot path) := by
  obtain ⟨hfilled, hroom, hnlen⟩ := filled_cleanUrl hlen hne h0
  have hn2 : (cleanUrl path).2 ≠ 2 ↔ (normalForm slash dot path).length ≠ 1 := by
    rw [hfilled.length_eq, List.length_cons]
    omega
  unfold urlName
  split_ifs with h1 h2
  · have hfilled' := hfilled.restoreSlash h1.1
      (by rw [← hfilled.length_eq]; exact hn2.mpr h1.2)
      (by rw [List.length_cons]; omega)
    have hindex := hfilled'.appendIndexHtml List.getLast?_concat
    rwa [List.append_assoc] at hindex
  · rw [normalizeUrl, restoreSlash_eq_self hne (by rwa [hn2])]
    rw [h2] at hfilled
    exact hfilled.appendIndexHtml rfl
  · obtain ⟨c, hc, hcs⟩ := getLast?_normalForm h2
    have hlast : (dot :: normalForm slash dot path).getLast? = some c := by
      rw [List.getLast?_cons, hc]
      rfl
    rw [normalizeUrl, restoreSlash_eq_self hne (by rwa [hn2]),
      hfilled.appendIndexHtml_eq_self hlast hcs]
    refine ⟨?_, by rw [hfilled.length_eq]; exact hfilled.take_eq⟩
    have hrlen := length_residue_le path
    have hpos := List.length_pos_of_ne_nil hne
    rw [cleanUrl_eq hlen hne, show 1023 - (residue slash dot path).length =
      (1022 - (residue slash dot path).length) + 1 by omega, List.replicate_succ]
    refine cstr_append_zero ?_ _
    rw [List.mem_cons, not_or]
    exact ⟨by decide, zero_notMem_residue h0⟩

/-! ## What is found -/

/-- A regular file, and the content type of its name. -/
structure Found where
  file : File
  fileStat : FileStat
  extension : List UInt8
  fstat_eq : file.fstat = some fileStat
  isReg : fileStat.isReg
  length_extension : extension.length ≤ 71

theorem length_contentType (pathView : List UInt8) : (contentType pathView).length ≤ 71 := by
  have htypes : ∀ t ∈ mimeTypes, t.2.length ≤ 71 := by decide
  have hplain : (ascii "text/plain").length ≤ 71 := by decide
  unfold contentType
  dsimp only
  split_ifs
  · split
    · rename_i t hlookup
      obtain ⟨l, l', heq, -⟩ := List.lookup_eq_some_iff.mp hlookup
      exact htypes (pathView.drop (rfind pathView dot), t) (by rw [heq]; simp)
    · exact hplain
  · exact hplain

/-- What an open file is found to be. -/
def foundFile (pathView : List UInt8) (file : File) : Option Found :=
  match h : file.fstat with
  | none => none
  | some fileStat =>
    if hreg : fileStat.isReg then
      some
        { file, fileStat, extension := contentType pathView, fstat_eq := h, isReg := hreg
          length_extension := length_contentType _ }
    else none

/-- The file that a request target leads to. -/
def findFile (fs : FileSystem) (target : List UInt8) : Option Found :=
  if lengthOk (queryCut target) then (fs (openName target)).bind (foundFile (pathView target))
  else none

/-- The connection with a found file open. -/
def openFound (ctx : HttpCtx) (found : Found) : HttpCtx :=
  { ctx with
    sys := ctx.sys.openFile found.file
    userData := { ctx.userData with
      extension := found.extension
      fileFd := ctx.sys.nextFd
      fileSize := found.fileStat.stSize
      fileStat := found.fileStat } }

/-- **`parse_url`** opens the file it finds and answers 404 when there is none. -/
theorem parseUrl_eq (fs : FileSystem) (ctx : HttpCtx) (target : List UInt8) :
    parseUrl fs ctx target =
      match findFile fs target with
      | none => { ctx with userData := ctx.userData.return404 }
      | some found => openFound ctx found := by
  unfold parseUrl findFile openName pathView
  by_cases hok : lengthOk (queryCut target)
  · rw [if_neg (by simp [hok]), if_pos hok]
    generalize normalizeUrl (queryCut target) = normalized
    obtain ⟨normalizedPath, newLength⟩ := normalized
    dsimp only
    cases fs (cstr normalizedPath) with
    | none => rfl
    | some file =>
      dsimp only
      rw [Sys.close_openFile, Option.bind_some]
      obtain ⟨data, fstat, hsize⟩ := file
      cases fstat with
      | none => rfl
      | some fileStat =>
        simp only [foundFile]
        by_cases hreg : fileStat.isReg
        · rw [if_neg (by simp [hreg]), dif_pos hreg]
          rfl
        · rw [if_pos (by simp [hreg]), dif_neg hreg]
  · rw [if_pos (by simp [hok]), if_neg hok]

end Yotta.Server
