import Mathlib.Algebra.Group.Nat.Defs
import Lacuna.Model.HuffmanTree
import Lacuna.Model.Compressor

/-!
# Terminal text

`utils/terminal.cpp`: whether escape codes are written, the styled texts the commands print,
and the suggestion for a misspelt word, which is the candidate of least edit distance.

How the standard library spells a floating-point number is a parameter (`Numbers`), and so are
the environment variables that decide about colour (`Console`).
-/

set_option autoImplicit false

namespace Lacuna.Model

/-! ## Styled text -/

/-- What `is_color_enabled` asks for: three environment variables and whether standard output
is a terminal. -/
structure Console where
  noColor : Option Bytes
  clicolorForce : Option Bytes
  term : Option Bytes
  stdoutIsTty : Bool

namespace Console

/-- `is_color_enabled(os)` for the default stream, `std::cout`, which every caller but the progress
line of the benchmark leaves it at. -/
def isColorEnabled (console : Console) : Bool :=
  if console.noColor.any (fun value => !value.isEmpty) then false
  else if console.clicolorForce.any (fun value => value.head? ≠ some 48) then true
  else if console.term = some (text "dumb") then false
  else console.stdoutIsTty

/-- `wrap_ansi(code, text, enabled)`; the escape byte of the codes is added here. -/
def wrapAnsi (code : String) (content : Bytes) (enabled : Bool) : Bytes :=
  if !enabled || content.isEmpty then content
  else 27 :: text code ++ content ++ 27 :: text "[0m"

/-- `bold(text)`. -/
def bold (console : Console) (content : Bytes) : Bytes :=
  wrapAnsi "[1m" content console.isColorEnabled

/-- `dim(text)`. -/
def dim (console : Console) (content : Bytes) : Bytes :=
  wrapAnsi "[2m" content console.isColorEnabled

/-- `red(text)`. -/
def red (console : Console) (content : Bytes) : Bytes :=
  wrapAnsi "[31m" content console.isColorEnabled

/-- `green(text)`. -/
def green (console : Console) (content : Bytes) : Bytes :=
  wrapAnsi "[32m" content console.isColorEnabled

/-- `yellow(text)`. -/
def yellow (console : Console) (content : Bytes) : Bytes :=
  wrapAnsi "[33m" content console.isColorEnabled

/-- `magenta(text)`. -/
def magenta (console : Console) (content : Bytes) : Bytes :=
  wrapAnsi "[35m" content console.isColorEnabled

/-- `cyan(text)`. -/
def cyan (console : Console) (content : Bytes) : Bytes :=
  wrapAnsi "[36m" content console.isColorEnabled

/-- `icon_success()`. -/
def iconSuccess (console : Console) : Bytes :=
  if console.isColorEnabled then console.green (text "✔") else text "[ok]"

/-- `icon_error()`. -/
def iconError (console : Console) : Bytes :=
  if console.isColorEnabled then console.red (text "✖") else text "[x]"

/-- `icon_info()`. -/
def iconInfo (console : Console) : Bytes :=
  if console.isColorEnabled then console.cyan (text "ℹ") else text "[i]"

end Console

/-! ## Numbers -/

/-- How a `double` is spelt: by `operator<<` after `std::fixed << std::setprecision(2)`, by
`operator<<` on a fresh stream, and by `std::to_string`. -/
structure Numbers where
  fixed : Float → Bytes
  general : Float → Bytes
  toString : Float → Bytes

/-- `format_bytes(bytes)`. -/
def formatBytes (numbers : Numbers) (bytes : UInt64) : Bytes :=
  if bytes < 1024 then decimal bytes.toNat ++ text " B"
  else
    let kb := bytes.toFloat / 1024.0
    if kb < 1024.0 then numbers.fixed kb ++ text " KB"
    else
      let mb := kb / 1024.0
      if mb < 1024.0 then numbers.fixed mb ++ text " MB"
      else
        let gb := mb / 1024.0
        numbers.fixed gb ++ text " GB"

/-! ## Edit distance -/

/-- `std::vector<std::vector<size_t>>`. -/
abbrev DistanceTable := List (List ℕ)

/-- A checked element access: what the sources do behind the end of a sequence is undefined. -/
def element {α : Type} (l : List α) (i : ℕ) : Except Fault α :=
  match l[i]? with
  | none => .error .outOfRange
  | some a => .ok a

namespace DistanceTable

/-- The value of `d[i][j]`. -/
def cell (d : DistanceTable) (i j : ℕ) : Except Fault ℕ := do
  let row ← element d i
  element row j

/-- The assignment `d[i][j] = value`. -/
def assign (d : DistanceTable) (i j value : ℕ) : Except Fault DistanceTable := do
  let row ← element d i
  let _ ← element row j
  return d.set i (row.set j value)

end DistanceTable

/-- The body of the inner loop of `levenshtein_distance`. -/
def levenshteinCell (s1 s2 : Bytes) (i : ℕ) (d : DistanceTable) (j : ℕ) :
    Except Fault DistanceTable := do
  let c1 ← element s1 (i - 1)
  let c2 ← element s2 (j - 1)
  let cost := if c1 = c2 then 0 else 1
  let deletion ← d.cell (i - 1) j
  let insertion ← d.cell i (j - 1)
  let substitution ← d.cell (i - 1) (j - 1)
  d.assign i j (min (min (deletion + 1) (insertion + 1)) (substitution + cost))

/-- `levenshtein_distance(s1, s2)`. -/
def levenshteinDistance (s1 s2 : Bytes) : Except Fault ℕ := do
  let len1 := s1.length
  let len2 := s2.length
  let d : DistanceTable := List.replicate (len1 + 1) (List.replicate (len2 + 1) 0)
  let d ← (List.range (len1 + 1)).foldlM (fun d i => d.assign i 0 i) d
  let d ← (List.range (len2 + 1)).foldlM (fun d j => d.assign 0 j j) d
  let d ← (List.range' 1 len1).foldlM
    (fun d i => (List.range' 1 len2).foldlM (levenshteinCell s1 s2 i) d) d
  d.cell len1 len2

/-- `find_suggestion(input, candidates)`; `min_dist` starts at `static_cast<size_t>(-1)`. -/
def findSuggestion (T : Target) (input : Bytes) (candidates : List Bytes) :
    Except Fault Bytes := do
  if input.isEmpty || candidates.isEmpty then return []
  let (minDist, bestCandidate) ← candidates.foldlM
    (fun (minDist, bestCandidate) candidate => do
      let dist ← levenshteinDistance input candidate
      return if dist < minDist then (dist, candidate) else (minDist, bestCandidate))
    (2 ^ T.sizeBits - 1, [])
  let threshold := max 2 (input.length / 2)
  return if minDist ≤ threshold then bestCandidate else []

end Lacuna.Model
