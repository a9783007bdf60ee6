import Marotte.Library.Runes
import Mathlib.Algebra.Ring.Nat
import Mathlib.Data.Nat.Digits.Defs

/-! # Reading a status

`parsePorcelainV2` over the bytes of a status: records between NUL bytes, their fields between
spaces, and the rows each pair of letters gives.
-/
namespace Marotte.Git

open Runes

/-- One row of the panel. -/
structure File where
  path : Bytes
  display : Bytes
  status : Bytes
  origPath : Bytes
  staged : Bool
  deriving DecidableEq

structure PorcelainStatus where
  branch : Bytes
  files : List File
  ahead : ℕ
  behind : ℕ
  stashes : ℕ
  conflicted : Bool
  deriving DecidableEq

/-! ## Texts -/

def space : UInt8 := 32

/-- `strings.Cut`: what is before and behind the first separator. -/
def cut (sep : UInt8) (s : Bytes) : Option (Bytes × Bytes) :=
  match s.dropWhile (· ≠ sep) with
  | [] => none
  | _ :: after => some (s.takeWhile (· ≠ sep), after)

/-- `strings.SplitN`: what is behind the last cut is not split. -/
def splitN (sep : UInt8) : ℕ → Bytes → List Bytes
  | 0, _ => []
  | 1, s => [s]
  | n + 2, s =>
    match cut sep s with
    | none => [s]
    | some (before, after) => before :: splitN sep (n + 1) after

def trimPrefix (front s : Bytes) : Bytes :=
  if front.isPrefixOf s then s.drop front.length else s

def isAsciiSpace (b : UInt8) : Bool :=
  b ∈ [9, 10, 11, 12, 13, 32]

/-- `strings.Fields`. -/
def fields (s : Bytes) : List Bytes :=
  if s.all (· < 128) then
    (s.splitOnP isAsciiSpace).filter (· ≠ [])
  else
    (((pieces s).splitOnP fun p => isSpace p.char).filter (· ≠ [])).map (·.flatMap Piece.units)

def isDigit (b : UInt8) : Bool :=
  48 ≤ b && b ≤ 57

def number (digits : Bytes) : ℕ :=
  digits.foldl (fun n b => 10 * n + (b.toNat - 48)) 0

/-- `strconv.Atoi`, of a number that fits 64 bits. -/
def atoi (s : Bytes) : Option ℤ :=
  let negative := s.head? = some 45
  let digits := if s.head? = some 43 ∨ negative then s.tail else s
  if digits = [] ∨ digits.all isDigit = false then none
  else if negative then
    if number digits ≤ 2 ^ 63 then some (-(number digits : ℤ)) else none
  else if number digits < 2 ^ 63 then some (number digits : ℤ)
  else none

/-! ## Rows -/

def statusLabel (c : UInt8) : Bytes :=
  if c = 77 then ascii "Modified"
  else if c = 84 then ascii "Typechange"
  else if c = 65 then ascii "Added"
  else if c = 68 then ascii "Deleted"
  else if c = 82 then ascii "Renamed"
  else if c = 67 then ascii "Copied"
  else if c = 85 then ascii "Unmerged"
  else if c = 63 then ascii "Untracked"
  else ascii "Unknown"

/-- `string` of a byte: the character of its value. -/
def charText (c : UInt8) : Bytes :=
  String.utf8EncodeChar (Char.ofNat c.toNat)

/-- The origin rides the row whose letter is a rename's or a copy's. -/
def origOf (c : UInt8) (orig : Bytes) : Bytes :=
  if c = 82 ∨ c = 67 then orig else []

/-- The row of one side. -/
def sideFile (path orig : Bytes) (c : UInt8) (staged : Bool) : File where
  path := path
  display := statusLabel c
  status := charText c
  origPath := origOf c orig
  staged := staged

def untrackedFile (path : Bytes) : File where
  path := path
  display := ascii "Untracked"
  status := ascii "?"
  origPath := []
  staged := false

def appendStatusEntries (files : List File) (x y : UInt8) (path orig : Bytes) : List File :=
  let first :=
    if x = 63 ∧ y = 63 then untrackedFile path
    else if x ≠ space ∧ x ≠ 63 then sideFile path orig x true
    else sideFile path orig y false
  if x ≠ space ∧ x ≠ 63 ∧ y ≠ space ∧ y ≠ 63 then files ++ [first, sideFile path orig y false]
  else files ++ [first]

/-! ## Records -/

def changedFields : ℕ := 9

def renamedFields : ℕ := 10

def unmergedFields : ℕ := 11

/-- A count that does not parse or is negative is none. -/
def countOf (n : Option ℤ) : ℕ :=
  (n.getD 0).toNat

def parseAheadBehind (val : Bytes) : ℕ × ℕ :=
  match fields val with
  | [ahead, behind] =>
    (countOf (atoi ( trimPrefix [43] ahead)), countOf (atoi ( trimPrefix [45] behind)))
  | _ => (0, 0)

def unchangedToSpace (c : UInt8) : UInt8 :=
  if c = 46 then space else c

namespace PorcelainStatus

def applyHeader (st : PorcelainStatus) (record : Bytes) : PorcelainStatus :=
  match cut space ( trimPrefix (ascii "# ") record) with
  | none => st
  | some (key, val) =>
    if key = ascii "branch.head" then
      if val ≠ ascii "(detached)" then { st with branch := val } else st
    else if key = ascii "branch.ab" then
      { st with ahead := (parseAheadBehind val).1, behind := (parseAheadBehind val).2 }
    else if key = ascii "stash" then
      if 0 < countOf (atoi val) then { st with stashes := countOf (atoi val) } else st
    else st

/-- A path that ends in a slash is a collapsed tree. -/
def appendPath (st : PorcelainStatus) (x y : UInt8) (path orig : Bytes) : PorcelainStatus :=
  if path = [] ∨ path.getLast? = some 47 then st
  else { st with files := appendStatusEntries st.files x y path orig }

def appendEntry (st : PorcelainStatus) (record : Bytes) (count : ℕ) (orig : Bytes) :
    PorcelainStatus :=
  let parts := splitN space count record
  if parts.length < count then st
  else
    match parts.getD 1 [] with
    | [x, y] =>
      st.appendPath (unchangedToSpace x) (unchangedToSpace y) (parts.getD (count - 1) []) orig
    | _ => st

end PorcelainStatus

/-- The records in order. The one behind a rename is its origin, whether or not the rename
parses. -/
def parseRecords : List Bytes → PorcelainStatus → PorcelainStatus
  | [], st => st
  | record :: records, st =>
    match record with
    | c :: _ :: path =>
      if c = 35 then parseRecords records (st.applyHeader record)
      else if c = 49 then parseRecords records (st.appendEntry record changedFields [])
      else if c = 50 then
        match records with
        | [] => st.appendEntry record renamedFields []
        | orig :: records => parseRecords records (st.appendEntry record renamedFields orig)
      else if c = 117 then
        parseRecords records
          ({ st with conflicted := true }.appendEntry record unmergedFields [])
      else if c = 63 then parseRecords records (st.appendPath 63 63 path [])
      else parseRecords records st
    | _ => parseRecords records st

def parsePorcelainV2 (raw : Bytes) : PorcelainStatus :=
  parseRecords (raw.splitOn 0)
    { branch := [], files := [], ahead := 0, behind := 0, stashes := 0, conflicted := false }

/-! ## The records of a status

The records of the porcelain format, how they are printed, and the status they say: reading a
printed status gives it back.
-/

/-! ## Records -/

/-- A field of a record: no space and no NUL. -/
structure Word where
  text : Bytes
  space_notMem : space ∉ text
  nul_notMem : 0 ∉ text

/-- A text without NUL. -/
structure Text where
  text : Bytes
  nul_notMem : 0 ∉ text

/-- A path: not empty, without NUL and without a slash at its end. -/
structure Path extends Text where
  nonempty : text ≠ []
  noSlash : text.getLast? ≠ some 47

/-- What a letter says of one side. -/
inductive Side where
  | unchanged | modified | typechange | added | deleted | renamed | copied | unmerged
  deriving DecidableEq

def Side.letter : Side → UInt8
  | .unchanged => 46
  | .modified => 77
  | .typechange => 84
  | .added => 65
  | .deleted => 68
  | .renamed => 82
  | .copied => 67
  | .unmerged => 85

/-- The sides that have an origin path. -/
def Side.moved (s : Side) : Bool :=
  s = .renamed ∨ s = .copied

/-- The records of the format. A changed record has an unmoved change, a renamed one a moved side,
an unmerged one two changes. -/
inductive Record where
  | head (branch : Text)
  | ab (ahead behind : ℕ)
  | stash (n : ℕ) (hpos : 0 < n)
  | other (key : Word) (val : Text)
      (hkey : key.text ≠ ascii "branch.head" ∧ key.text ≠ ascii "branch.ab" ∧ key.text ≠ ascii "stash")
  | changed (x y : Side) (hsides : (x ≠ .unchanged ∨ y ≠ .unchanged) ∧ x.moved = false ∧ y.moved = false)
      (sub mH mI mW hH hI : Word) (path : Path)
  | renamed (x y : Side) (hsides : x.moved = true ∨ y.moved = true)
      (sub mH mI mW hH hI score : Word) (path : Path) (orig : Text)
  | unmerged (x y : Side) (hsides : x ≠ .unchanged ∧ y ≠ .unchanged ∧ x.moved = false ∧ y.moved = false)
      (sub m1 m2 m3 mW h1 h2 h3 : Word) (path : Path)
  | untracked (path : Path)

/-! ## Printing -/

/-- Fields, each with a space behind it, and the last one. -/
def spaced (words : List Bytes) (last : Bytes) : Bytes :=
  words.flatMap (· ++ [space]) ++ last

def digits (n : ℕ) : Bytes :=
  (Nat.toDigits 10 n).map fun c => UInt8.ofNat c.toNat

def header (key val : Bytes) : Bytes :=
  spaced [ascii "#", key] val

/-- The NUL-terminated parts of a record. -/
def Record.parts : Record → List Bytes
  | .head branch => [header (ascii "branch.head") branch.text]
  | .ab ahead behind =>
    [header (ascii "branch.ab") (spaced [ascii "+" ++ digits ahead] (ascii "-" ++ digits behind))]
  | .stash n _ => [header (ascii "stash") (digits n)]
  | .other key val _ => [header key.text val.text]
  | .changed x y _ sub mH mI mW hH hI path =>
    [spaced [ascii "1", [x.letter, y.letter], sub.text, mH.text, mI.text, mW.text, hH.text, hI.text]
      path.text]
  | .renamed x y _ sub mH mI mW hH hI score path orig =>
    [spaced [ascii "2", [x.letter, y.letter], sub.text, mH.text, mI.text, mW.text, hH.text, hI.text,
      score.text] path.text, orig.text]
  | .unmerged x y _ sub m1 m2 m3 mW h1 h2 h3 path =>
    [spaced [ascii "u", [x.letter, y.letter], sub.text, m1.text, m2.text, m3.text, mW.text, h1.text,
      h2.text, h3.text] path.text]
  | .untracked path => [spaced [ascii "?"] path.text]

def printRecords (records : List Record) : Bytes :=
  (records.flatMap Record.parts).flatMap (· ++ [0])

/-! ## What the records say -/

/-- The row of a changed side. -/
def Side.row (staged : Bool) (path orig : Bytes) (s : Side) : List File :=
  if s = .unchanged then []
  else
    [{ path := path
       display := statusLabel s.letter
       status := [s.letter]
       origPath := if s.moved then orig else []
       staged := staged }]

def Record.rows : Record → List File
  | .changed x y _ _ _ _ _ _ _ path => x.row true path.text [] ++ y.row false path.text []
  | .renamed x y _ _ _ _ _ _ _ _ path orig =>
    x.row true path.text orig.text ++ y.row false path.text orig.text
  | .unmerged x y _ _ _ _ _ _ _ _ _ path => x.row true path.text [] ++ y.row false path.text []
  | .untracked path =>
    [{ path := path.text, status := ascii "?", display := ascii "Untracked", origPath := [],
       staged := false }]
  | _ => []

def Record.isUnmerged : Record → Bool
  | .unmerged .. => true
  | _ => false

/-- The branch a header names: a detached head names none. -/
def Record.branch : Record → Option Bytes
  | .head branch => if branch.text = ascii "(detached)" then none else some branch.text
  | _ => none

def Record.counts : Record → Option (ℕ × ℕ)
  | .ab ahead behind => some (ahead, behind)
  | _ => none

def Record.stashes : Record → Option ℕ
  | .stash n _ => some n
  | _ => none

/-- The status the records say, by the last header of each kind. -/
def statusOf (records : List Record) : PorcelainStatus where
  branch := (records.filterMap Record.branch).getLastD []
  files := records.flatMap Record.rows
  ahead := ((records.filterMap Record.counts).getLastD (0, 0)).1
  behind := ((records.filterMap Record.counts).getLastD (0, 0)).2
  stashes := (records.filterMap Record.stashes).getLastD 0
  conflicted := records.any Record.isUnmerged

/-- The counts of a header are those of 64 bits. -/
def Record.Fits : Record → Prop
  | .ab ahead behind => ahead < 2 ^ 63 ∧ behind < 2 ^ 63
  | .stash n _ => n < 2 ^ 63
  | _ => True

end Marotte.Git
