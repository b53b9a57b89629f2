import Yotta.Lib.Numeral

/-!
# Files and descriptors

What the server asks of the operating system on behalf of one connection:
`open`, `fstat` and `close` of the served file, and the `TCP_CORK` option of the
socket. The file system does not change.
-/

namespace Yotta.Core

/-- `struct stat`, as far as the server reads it. The size fits `off_t` and the
time fits `time_t`. -/
structure FileStat where
  /-- `S_ISREG(st_mode)` -/
  isReg : Bool
  stSize : ℕ
  stMtime : ℤ
  size_lt : stSize < 2 ^ 63
  mtime_bounds : -2 ^ 63 ≤ stMtime ∧ stMtime < 2 ^ 63
deriving DecidableEq

/-- The epoch is a `time_t`. -/
theorem FileStat.epoch_bounds : -2 ^ 63 ≤ (0 : ℤ) ∧ (0 : ℤ) < 2 ^ 63 := by decide

/-- A file. The size of a regular file is the number of its bytes. -/
structure File where
  data : List UInt8
  /-- The outcome of `fstat`, `none` where it fails. -/
  fstat : Option FileStat
  size_eq : ∀ st ∈ fstat, st.isReg → st.stSize = data.length

/-- A regular file that holds `data`, last modified at the epoch. -/
def File.regular (data : List UInt8) (h : data.length < 2 ^ 63) : File where
  data := data
  fstat := some
    { isReg := true, stSize := data.length, stMtime := 0, size_lt := h
      mtime_bounds := FileStat.epoch_bounds }
  size_eq := by
    rintro st hst -
    obtain rfl := Option.some.inj hst
    rfl

/-- What `open(name, O_RDONLY)` finds under a name. -/
abbrev FileSystem := List UInt8 → Option File

/-- The part of the operating system that belongs to a connection. -/
structure Sys where
  /-- `TCP_CORK` of the socket -/
  cork : Bool
  /-- The descriptor that `open` returns next. -/
  nextFd : ℕ
  /-- The open descriptors. -/
  files : List (ℕ × File)
  /-- A descriptor that was not open has been closed. -/
  badClose : Bool

namespace Sys

/-- `open(name, O_RDONLY)` of a file that is there. -/
def openFile (s : Sys) (f : File) : Sys := { s with files := (s.nextFd, f) :: s.files }

/-- The file behind a descriptor. -/
def file (s : Sys) (fd : ℕ) : Option File := s.files.lookup fd

/-- `close(fd)`. -/
def close (s : Sys) (fd : ℕ) : Sys :=
  { s with files := s.files.eraseP (·.1 == fd), badClose := s.badClose || (s.file fd).isNone }

@[simp] theorem file_openFile (s : Sys) (f : File) : (s.openFile f).file s.nextFd = some f := by
  simp [openFile, file]

/-- The file that was opened last is closed. -/
@[simp] theorem close_openFile (s : Sys) (f : File) : (s.openFile f).close s.nextFd = s := by
  simp [openFile, close, file]

end Sys

end Yotta.Core
