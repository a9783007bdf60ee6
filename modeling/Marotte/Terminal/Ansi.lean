import Marotte.Library.RuneBounds
import Mathlib.Algebra.Ring.Nat
import Mathlib.Data.Int.Notation
import Mathlib.Data.List.TakeWhile

/-! # Escape sequences and the text they style

The parser that separates the escape sequences of a command's output from its text: the text, and
spans that style ranges of it by UTF-16 offsets.
-/
namespace Marotte.Terminal

open Runes

def ESC : UInt8 := 0x1b

def maxPendingBytes : ℕ := 4096

/-! ## Styles -/

def colorDefault : ℤ := -1

def rgbFlag : ℕ := 0x1000000

structure Style where
  fg : ℤ
  bg : ℤ
  attrs : BitVec 16
  deriving DecidableEq

def Style.default : Style := ⟨colorDefault, colorDefault, 0⟩

/-- A range of the text, its end excluded. -/
structure Span where
  start : ℕ
  stop : ℕ
  style : Style
  deriving DecidableEq

def attrBold : BitVec 16 := 1
def attrItalic : BitVec 16 := 2
def attrUnderline : BitVec 16 := 4
def attrInverse : BitVec 16 := 8
def attrStrike : BitVec 16 := 16
def attrDim : BitVec 16 := 32
def attrHidden : BitVec 16 := 64
def attrBlink : BitVec 16 := 128
def attrOverline : BitVec 16 := 256
def attrDoubleUnderline : BitVec 16 := 512

/-- `RGB` packs three components. -/
def rgb (r g b : ℕ) : ℕ :=
  rgbFlag ||| r <<< 16 ||| g <<< 8 ||| b

def sgrAttrSet : ℕ → Option (BitVec 16)
  | 1 => some attrBold
  | 2 => some attrDim
  | 3 => some attrItalic
  | 4 => some attrUnderline
  | 5 => some attrBlink
  | 6 => some attrBlink
  | 7 => some attrInverse
  | 8 => some attrHidden
  | 9 => some attrStrike
  | 21 => some attrDoubleUnderline
  | 53 => some attrOverline
  | _ => none

def sgrAttrClear : ℕ → Option (BitVec 16)
  | 22 => some (attrBold ||| attrDim)
  | 23 => some attrItalic
  | 24 => some (attrUnderline ||| attrDoubleUnderline)
  | 25 => some attrBlink
  | 27 => some attrInverse
  | 28 => some attrHidden
  | 29 => some attrStrike
  | 55 => some attrOverline
  | _ => none

def sgrDigits : ℕ → Bytes → Option ℕ
  | n, [] => some n
  | n, b :: field =>
    if b < 0x30 ∨ 0x39 < b then none
    else
      let n := n * 10 + (b.toNat - 0x30)
      if 0xffff < n then none else sgrDigits n field

/-- A parameter is read up to its first colon, and as 0 when it is empty. -/
def sgrParam (field : Bytes) : Option ℕ :=
  sgrDigits 0 (field.takeWhile fun b => b ≠ 0x3a)

def component (field : Bytes) : Option ℕ :=
  (sgrParam field).filter fun n => n ≤ 255

/-- The colour of `5;<idx>`, and how many parameters it takes. -/
def palette256 : List Bytes → Option ℕ × ℕ
  | _ :: idx :: _ => (component idx, 2)
  | _ => (none, 1)

/-- The colour of `2;<r>;<g>;<b>`, and how many parameters it takes. -/
def trueColor : List Bytes → Option ℕ × ℕ
  | _ :: r :: g :: b :: _ =>
    (do return rgb (← component r) (← component g) (← component b), 4)
  | rest => (none, rest.length)

def extendedColor : List Bytes → Option ℕ × ℕ
  | [] => (none, 0)
  | mode :: rest =>
    match sgrParam mode with
    | some 5 => palette256 (mode :: rest)
    | some 2 => trueColor (mode :: rest)
    | _ => (none, 1)

/-- A colour that is not valid leaves the style as it is. -/
def applyExtendedColor (cur : Style) (selector : ℕ) (c : Option ℕ) : Style :=
  match c with
  | none => cur
  | some c => if selector = 38 then { cur with fg := c } else { cur with bg := c }

def applySGRParam (cur : Style) (n : ℕ) : Style :=
  match sgrAttrSet n with
  | some set => { cur with attrs := cur.attrs ||| set }
  | none =>
    match sgrAttrClear n with
    | some off => { cur with attrs := cur.attrs &&& ~~~off }
    | none =>
      if n = 0 then .default
      else if n = 39 then { cur with fg := colorDefault }
      else if n = 49 then { cur with bg := colorDefault }
      else if 30 ≤ n ∧ n ≤ 37 then { cur with fg := n - 30 }
      else if 40 ≤ n ∧ n ≤ 47 then { cur with bg := n - 40 }
      else if 90 ≤ n ∧ n ≤ 97 then { cur with fg := n - 90 + 8 }
      else if 100 ≤ n ∧ n ≤ 107 then { cur with bg := n - 100 + 8 }
      else cur

/-- The loop over the fields. A field that is no parameter is skipped. -/
def applyFields (cur : Style) : List Bytes → Style
  | [] => cur
  | field :: rest =>
    match sgrParam field with
    | none => applyFields cur rest
    | some n =>
      if n = 38 ∨ n = 48 then
        applyFields (applyExtendedColor cur n (extendedColor rest).1)
          (rest.drop (extendedColor rest).2)
      else applyFields (applySGRParam cur n) rest
termination_by fields => fields.length
decreasing_by
  · simp
  · simp only [List.length_drop, List.length_cons]
    omega
  · simp

def isPrivateParams (params : Bytes) : Bool :=
  params.head?.any fun b => 0x3c ≤ b && b ≤ 0x3f

def applySGR (cur : Style) (params : Bytes) : Style :=
  if params = [] then .default
  else if isPrivateParams params then cur
  else applyFields cur (params.splitOn 0x3b)

/-! ## Sequences -/

/-- Parameter and intermediate bytes. -/
def isParam (c : UInt8) : Bool :=
  0x20 ≤ c && c ≤ 0x3f

/-- The length of a sequence and the style after it, or none for one that is not terminated. -/
def scanCSI (cur : Style) (b : Bytes) : Option (ℕ × Style) :=
  let params := (b.drop 2).takeWhile isParam
  match (b.drop 2).dropWhile isParam with
  | [] => none
  | c :: _ =>
    if 0x40 ≤ c ∧ c ≤ 0x7e then
      if c ≠ 0x6d then some (2 + params.length + 1, cur)
      else some (2 + params.length + 1, applySGR cur params)
    else some (2 + params.length, cur)

/-- How much of a string a terminator ends, BEL or ST. -/
def terminated : Bytes → Option ℕ
  | [] => none
  | c :: b =>
    if c = 0x07 then some 1
    else if c = ESC ∧ b.head? = some 0x5c then some 2
    else (terminated b).map (· + 1)

def scanStringTerminated (cur : Style) (b : Bytes) : Option (ℕ × Style) :=
  (terminated (b.drop 2)).map fun n => (n + 2, cur)

/-- The families of sequences by the byte behind ESC. -/
def scanEscape (cur : Style) (b : Bytes) : Option (ℕ × Style) :=
  match b with
  | _ :: c :: rest =>
    if c = 0x5b then scanCSI cur b
    else if c = 0x5d then scanStringTerminated cur b
    else if c ∈ ascii "()*+-./#%" then if rest = [] then none else some (3, cur)
    else if c ∈ ascii "PX^_" then scanStringTerminated cur b
    else some (2, cur)
  | _ => none

theorem scanEscape_pos {cur : Style} {b : Bytes} {n : ℕ} {st : Style}
    (h : scanEscape cur b = some (n, st)) : 0 < n := by
  have hcsi : ∀ b, scanCSI cur b = some (n, st) → 0 < n := fun b h => by
    rw [scanCSI] at h
    split at h
    · contradiction
    · split at h
      · split at h <;> obtain ⟨rfl, -⟩ := Prod.mk.inj (Option.some.inj h) <;> omega
      · obtain ⟨rfl, -⟩ := Prod.mk.inj (Option.some.inj h)
        omega
  have hstring : ∀ b, scanStringTerminated cur b = some (n, st) → 0 < n := fun b h => by
    obtain ⟨m, -, hm⟩ := Option.map_eq_some_iff.1 h
    obtain ⟨rfl, -⟩ := Prod.mk.inj hm
    omega
  rw [scanEscape.eq_def] at h
  split at h
  · split at h
    · exact hcsi _ h
    · split at h
      · exact hstring _ h
      · split at h
        · split at h
          · contradiction
          · obtain ⟨rfl, -⟩ := Prod.mk.inj (Option.some.inj h)
            omega
        · split at h
          · exact hstring _ h
          · obtain ⟨rfl, -⟩ := Prod.mk.inj (Option.some.inj h)
            omega
  · contradiction

/-! ## Texts -/

/-- The UTF-16 code units of a character. -/
def units (c : Char) : ℕ :=
  if 0xffff < c.toNat then 2 else 1

def utf16Len (s : Bytes) : ℕ :=
  ((pieces s).map fun p => units p.char).sum

/-- Every ESC replaced by U+FFFD. -/
def neutralizeESC (s : Bytes) : Bytes :=
  s.flatMap fun b => if b = ESC then String.utf8EncodeChar replacement else [b]

/-- Every invalid byte replaced by U+FFFD by itself. -/
def validUTF8PerByte (s : Bytes) : Bytes :=
  (pieces s).flatMap fun p => String.utf8EncodeChar p.char

/-- How many trailing bytes begin a character whose other bytes have not arrived. -/
def incompleteRuneTail (b : Bytes) : ℕ :=
  match [1, 2, 3].find? fun back =>
    back ≤ b.length ∧ (b.drop (b.length - back)).head?.any runeStart with
  | none => 0
  | some back => if fullRune (b.drop (b.length - back)) then 0 else back

/-! ## The parser -/

structure Parser where
  pending : Bytes
  cur : Style
  offset : ℕ

def newParser : Parser := ⟨[], .default, 0⟩

/-- What one call of `Write` has made so far. -/
structure Writer where
  p : Parser
  spans : List Span
  sb : Bytes
  emitted : ℕ
  openStart : ℕ
  openStyle : Style

namespace Writer

def write (w : Writer) (s : Bytes) : Writer :=
  let valid := validUTF8PerByte s
  { w with sb := w.sb ++ valid, emitted := w.emitted + utf16Len valid }

def closeRun (w : Writer) (absEnd : ℕ) : Writer :=
  if w.openStart < absEnd ∧ w.openStyle ≠ .default then
    { w with spans := w.spans ++ [⟨w.openStart, absEnd, w.openStyle⟩] }
  else w

def restyle (w : Writer) (s : Style) : Writer :=
  let absEnd := w.p.offset + w.emitted
  let w := w.closeRun absEnd
  { w with openStart := absEnd, openStyle := s, p := { w.p with cur := s } }

/-- An incomplete character at the end waits for the next call. -/
def writeTail (w : Writer) (tail : Bytes) : Writer :=
  let hold := incompleteRuneTail tail
  let w :=
    if 0 < hold then { w with p := { w.p with pending := tail.drop (tail.length - hold) } } else w
  w.write (tail.take (tail.length - hold))

/-- A sequence that is not terminated waits for the next call, unless it has grown too long. -/
def hold (w : Writer) (rest : Bytes) : Writer :=
  if maxPendingBytes < rest.length then w.write (neutralizeESC rest)
  else { w with p := { w.p with pending := rest } }

/-- Text is written up to the next ESC, and a sequence is dropped. -/
def scan (w : Writer) (buf : Bytes) : Writer :=
  if buf = [] then w
  else
    let before := buf.takeWhile fun b => b ≠ ESC
    let rest := buf.dropWhile fun b => b ≠ ESC
    if rest = [] then w.writeTail buf
    else
      let w := if before = [] then w else w.write before
      match _h : scanEscape w.p.cur rest with
      | none => w.hold rest
      | some (consumed, st) =>
        let w := if st ≠ w.p.cur then w.restyle st else w
        w.scan (rest.drop consumed)
termination_by buf.length
decreasing_by
  have hpos := scanEscape_pos _h
  have hle : (buf.dropWhile fun b => b ≠ ESC).length ≤ buf.length :=
    (List.dropWhile_suffix _).length_le
  have hrest := List.length_pos_iff.2 ‹¬ buf.dropWhile _ = []›
  rw [List.length_drop]
  omega

end Writer

namespace Parser

/-- The text and the spans of one chunk. -/
def write (p : Parser) (chunk : Bytes) : (Bytes × List Span) × Parser :=
  let w : Writer := ⟨{ p with pending := [] }, [], [], 0, p.offset, p.cur⟩
  let w := w.scan (p.pending ++ chunk)
  let offset := w.p.offset + w.emitted
  ((w.sb, (w.closeRun offset).spans), { w.p with offset := offset })

/-- What is held is released as text at the end. -/
def flush (p : Parser) : (Bytes × List Span) × Parser :=
  if p.pending = [] then (([], []), p)
  else
    let text := validUTF8PerByte (neutralizeESC p.pending)
    let offset := p.offset + utf16Len text
    let spans := if p.cur ≠ .default then [⟨p.offset, offset, p.cur⟩] else []
    ((text, spans), { p with pending := [], offset := offset })

end Parser

def parse (s : Bytes) : Bytes × List Span :=
  let (out, p) := newParser.write s
  let (tail, _) := p.flush
  if tail.1 ≠ [] then (out.1 ++ tail.1, out.2 ++ tail.2) else out

end Marotte.Terminal
