import Mathlib.Logic.Function.Basic
import Lacuna.Model.Terminal

/-!
# The host and the world a command runs in

A command reads and changes a *world*: the file system, standard output and standard error.
What it cannot change is its *host*: what standard input delivers, which paths can be opened,
how much the device behind each path takes and when it reports that it is full, the terminal
and the clock.

A file system maps a path to the contents of the regular file there. Two different paths are
different files, a file just opened can be removed again, and a directory has no contents.
-/

set_option autoImplicit false

namespace Lacuna.Model

/-- The name `-`, which stands for the standard streams. -/
def dash : Bytes := text "-"

/-- A map from paths to contents. -/
abbrev FileSystem := Bytes → Option Bytes

/-- What the system says about a path. It can resolve it, so that a file there can be opened, or
cannot be, for reading and for writing; or it cannot, because of too many links or a directory
that may not be searched, and then says so by a `filesystem_error`. -/
inductive Access where
  | resolved (readable writable : Bool)
  | unresolved (what : Bytes)

/-- A file at the path can be opened for reading. -/
def Access.readable : Access → Bool
  | .resolved readable _ => readable
  | .unresolved _ => false

/-- A file at the path can be opened for writing. -/
def Access.writable : Access → Bool
  | .resolved _ writable => writable
  | .unresolved _ => false

/-- What a command finds and does not change. The device behind standard output goes by the
name `-`. -/
structure Host where
  target : Target
  console : Console
  numbers : Numbers
  elapsed : Float
  stdin : Bytes
  access : Bytes → Access
  room : Bytes → Option ℕ
  report : Bytes → Report
  /-- What a stream that has this much of its file to come still delivers when the file is
  truncated and written over under it: whatever was buffered, and whatever is then found. -/
  residue : Bytes → Bytes

/-- A file at the path can be opened for reading. -/
def Host.readable (host : Host) (path : Bytes) : Bool := (host.access path).readable

/-- A file at the path can be opened for writing. -/
def Host.writable (host : Host) (path : Bytes) : Bool := (host.access path).writable

/-- A fresh stream on the device behind a name. -/
def Host.device (host : Host) (name : Bytes) : OStream :=
  OStream.fresh (host.room name) (host.report name)

/-- What a command changes. -/
structure World where
  files : FileSystem
  stdout : OStream
  stderr : Bytes

/-- The line `get_file_size` prints when it has caught a `filesystem_error`. -/
def fileSystemError (what : Bytes) : Bytes := text "File system error: " ++ what ++ text "\n"

namespace World

/-- The world of a program that has just been started over a file system. -/
def start (host : Host) (files : FileSystem) : World :=
  { files := files, stdout := host.device dash, stderr := [] }

/-- `get_file_size(path)`: the size of the file, or, where `std::nullopt` is returned, what was
written to standard error before. -/
def getFileSize (host : Host) (w : World) (path : Bytes) : Except Bytes ℕ :=
  match host.access path with
  | .unresolved what => .error (fileSystemError what)
  | .resolved _ _ =>
    match w.files path with
    | none => .error []
    | some contents => .ok contents.length

/-- An `std::ifstream` opened on a path; `none` is a stream that failed to open. -/
def openFile (host : Host) (w : World) (path : Bytes) : Option IStream :=
  if host.readable path then (w.files path).map IStream.ofBytes else none

/-- The contents of a path after something was written there. -/
def store (w : World) (path contents : Bytes) : World :=
  { w with files := Function.update w.files path (some contents) }

/-- `std::filesystem::remove(path, ec)`. -/
def remove (w : World) (path : Bytes) : World :=
  { w with files := Function.update w.files path none }

/-- `std::cout << message`. -/
def print (w : World) (message : Bytes) : World := { w with stdout := w.stdout.write message }

/-- `std::cerr << message`. -/
def complain (w : World) (message : Bytes) : World := { w with stderr := w.stderr ++ message }

end World

end Lacuna.Model
