import Mathlib.Data.List.Basic
import Mathlib.Data.Nat.Init
import Mathlib.Data.Nat.Notation

/-! # Bytes read as runes

A string of bytes that need not be UTF-8, as a loop over it reads it: character by character, and
byte by byte where no character begins.
-/
namespace Marotte.Runes

abbrev Bytes := List UInt8

scoped instance : LawfulBEq Bytes :=
  inferInstance

/-- A text of ASCII characters as its bytes. -/
def ascii (s : String) : Bytes :=
  s.toList.map fun c => UInt8.ofNat c.toNat

/-- What one step of a loop over a string reads: a character, or a byte that begins none. -/
inductive Piece where
  | rune (c : Char)
  | stray (b : UInt8)
  deriving DecidableEq

def replacement : Char := '\uFFFD'

def Piece.units : Piece → Bytes
  | .rune c => String.utf8EncodeChar c
  | .stray b => [b]

/-- The rune a step reads: a stray byte is read as U+FFFD. -/
def Piece.char : Piece → Char
  | .rune c => c
  | .stray _ => replacement

/-- `unicode.IsSpace`. -/
def isSpace (c : Char) : Bool :=
  c.toNat ∈ [9, 10, 11, 12, 13, 32, 0x85, 0xA0, 0x1680, 0x2028, 0x2029, 0x202F, 0x205F, 0x3000]
    || (0x2000 ≤ c.toNat && c.toNat ≤ 0x200A)

/-- The character a string begins with, or none for an empty string and an invalid byte. -/
def decodeRune (s : Bytes) : Option Char :=
  s.toByteArray.utf8DecodeChar? 0

/-- `DecodeRuneInString`: the rune and its width, U+FFFD of width one for an invalid byte and of
width zero at the end. -/
def decodeRuneInString (s : Bytes) : Char × ℕ :=
  match s, decodeRune s with
  | [], _ => (replacement, 0)
  | _ :: _, some c => (c, c.utf8Size)
  | _ :: _, none => (replacement, 1)

/-- The steps of a loop over a string. -/
def pieces : Bytes → List Piece
  | [] => []
  | b :: s =>
    match decodeRune (b :: s) with
    | some c => .rune c :: pieces (s.drop (c.utf8Size - 1))
    | none => .stray b :: pieces s
termination_by s => s.length
decreasing_by
  · simp only [List.length_drop, List.length_cons]
    omega
  · simp

/-- `ToValidUTF8` with nothing in the place of invalid bytes. -/
def dropInvalid (s : Bytes) : Bytes :=
  (pieces s).flatMap fun
    | .rune c => String.utf8EncodeChar c
    | .stray _ => []

def runeCountInString (s : Bytes) : ℕ :=
  (pieces s).length

variable {s rest : Bytes} {c d : Char} {p : Piece} {ps : List Piece}

/-! ## The pieces of a string -/

theorem decodeRune_encode (c : Char) (rest : Bytes) :
    decodeRune (String.utf8EncodeChar c ++ rest) = some c := by
  rw [decodeRune, List.toByteArray_append]
  exact ByteArray.utf8DecodeChar?_utf8EncodeChar_append

theorem exists_of_decodeRune (h : decodeRune s = some c) :
    ∃ rest, s = String.utf8EncodeChar c ++ rest := by
  obtain ⟨l, hl⟩ := ByteArray.exists_of_utf8DecodeChar?_eq_some h
  refine ⟨l.data.toList, ?_⟩
  rw [← List.toByteArray_inj, hl, List.toByteArray_append]
  congr 1
  ext1
  simp

@[simp] theorem pieces_nil : pieces [] = [] := by
  rw [pieces]

theorem pieces_encode (c : Char) (rest : Bytes) :
    pieces (String.utf8EncodeChar c ++ rest) = .rune c :: pieces rest := by
  obtain ⟨b, s, hs⟩ := List.exists_cons_of_ne_nil (String.utf8EncodeChar_ne_nil (c := c))
  have hdecode := decodeRune_encode c rest
  have hsize : s.length = c.utf8Size - 1 := by
    have hlength := String.length_utf8EncodeChar c
    rw [hs, List.length_cons] at hlength
    omega
  rw [hs, List.cons_append] at hdecode ⊢
  rw [pieces, hdecode]
  simp only
  rw [← hsize, List.drop_left]

theorem pieces_encodes (cs : List Char) (rest : Bytes) :
    pieces (cs.flatMap String.utf8EncodeChar ++ rest) = cs.map .rune ++ pieces rest := by
  induction cs with
  | nil => rfl
  | cons c cs ih =>
    rw [List.flatMap_cons, List.append_assoc, pieces_encode, ih, List.map_cons, List.cons_append]

/-- Characters may be told from their bytes. -/
theorem encodes_injective {cs ds : List Char}
    (h : cs.flatMap String.utf8EncodeChar = ds.flatMap String.utf8EncodeChar) : cs = ds := by
  have hcs := pieces_encodes cs []
  rw [h, pieces_encodes ds [], List.append_cancel_right_eq] at hcs
  exact (List.map_inj_right fun _ _ => Piece.rune.inj).1 hcs.symm

theorem pieces_stray {b : UInt8} (h : decodeRune (b :: s) = none) :
    pieces (b :: s) = .stray b :: pieces s := by
  rw [pieces, h]

/-- A string begins with the piece read there. -/
theorem pieces_cases (s : Bytes) :
    s = [] ∨ ∃ p rest, s = p.units ++ rest ∧ pieces s = p :: pieces rest := by
  cases s with
  | nil => exact .inl rfl
  | cons b s =>
    right
    cases h : decodeRune (b :: s) with
    | none => exact ⟨.stray b, s, rfl, pieces_stray h⟩
    | some c =>
      obtain ⟨rest, hrest⟩ := exists_of_decodeRune h
      refine ⟨.rune c, rest, hrest, ?_⟩
      rw [hrest, pieces_encode]

theorem Piece.units_ne_nil (p : Piece) : p.units ≠ [] := by
  cases p with
  | rune c => exact String.utf8EncodeChar_ne_nil
  | stray b => exact List.cons_ne_nil b []

theorem Piece.length_units (p : Piece) : 0 < p.units.length :=
  List.length_pos_iff.2 p.units_ne_nil

theorem flatMap_pieces (s : Bytes) : (pieces s).flatMap Piece.units = s := by
  induction hlen : s.length using Nat.strong_induction_on generalizing s with
  | _ n ih =>
    rcases pieces_cases s with rfl | ⟨p, rest, rfl, hpieces⟩
    · simp
    · have hpos := p.length_units
      rw [List.length_append] at hlen
      rw [hpieces, List.flatMap_cons, ih rest.length (by omega) rest rfl]

/-- The first byte of a character stands nowhere else within one. -/
theorem utf8_aligned {u : UInt8} (hu : u ∈ (String.utf8EncodeChar c).head?) (p : Piece) :
    u ∉ p.units.tail := by
  cases p with
  | stray b => simp [Piece.units]
  | rune d =>
    intro htail
    obtain ⟨i, hi, rfl⟩ := List.mem_iff_getElem.1 htail
    obtain ⟨b, bs, hb⟩ := List.exists_cons_of_ne_nil (String.utf8EncodeChar_ne_nil (c := c))
    have hfirst := UInt8.isUTF8FirstByte_getElem_zero_utf8EncodeChar (c := c)
    simp only [Piece.units, List.getElem_tail] at hu hi
    simp only [hb, List.head?_cons, Option.mem_some_iff] at hu
    simp only [hb, List.getElem_cons_zero, hu] at hfirst
    have hzero := UInt8.isUTF8FirstByte_getElem_utf8EncodeChar.1 hfirst
    omega

theorem decodeRune_of_stray {b : UInt8} (h : pieces (b :: s) = .stray b :: ps) :
    decodeRune (b :: s) = none := by
  rw [pieces] at h
  split at h
  · cases (List.cons.inj h).1
  · assumption

/-- A byte that begins no character begins none before another one either. -/
theorem decodeRune_append_encode {b : UInt8} (h : decodeRune (b :: s) = none) (c : Char)
    (rest : Bytes) : decodeRune (b :: s ++ (String.utf8EncodeChar c ++ rest)) = none := by
  cases hd : decodeRune (b :: s ++ (String.utf8EncodeChar c ++ rest)) with
  | none => rfl
  | some d =>
    obtain ⟨rest', hrest⟩ := exists_of_decodeRune hd
    obtain ⟨u, us, hc⟩ := List.exists_cons_of_ne_nil (String.utf8EncodeChar_ne_nil (c := c))
    rcases List.append_eq_append_iff.1 hrest with ⟨more, hmore, heq⟩ | ⟨more, hmore, -⟩
    · cases more with
      | nil =>
        rw [List.append_nil] at hmore
        rw [← hmore, ← List.append_nil (String.utf8EncodeChar d), decodeRune_encode] at h
        contradiction
      | cons v more =>
        -- the character would reach over the first byte of the next
        rw [hc, List.cons_append, List.cons_append] at heq
        obtain rfl := (List.cons.inj heq).1
        have hu : u ∈ (String.utf8EncodeChar c).head? := by simp [hc]
        refine absurd ?_ (utf8_aligned hu (.rune d))
        simp [Piece.units, hmore]
    · rw [hmore, decodeRune_encode] at h
      contradiction

/-- A character is read where it stands, whatever is before it. -/
theorem pieces_append_encode (s : Bytes) (c : Char) (rest : Bytes) :
    pieces (s ++ (String.utf8EncodeChar c ++ rest)) = pieces s ++ .rune c :: pieces rest := by
  induction hlen : s.length using Nat.strong_induction_on generalizing s with
  | _ n ih =>
    rcases pieces_cases s with rfl | ⟨p, s', rfl, hpieces⟩
    · rw [List.nil_append, pieces_nil, List.nil_append, pieces_encode]
    · have hpos := p.length_units
      rw [List.length_append] at hlen
      have hrest := ih s'.length (by omega) s' rfl
      rw [hpieces, List.cons_append, ← hrest, List.append_assoc]
      cases p with
      | rune d => exact pieces_encode d _
      | stray b =>
        exact pieces_stray (decodeRune_append_encode (decodeRune_of_stray hpieces) c rest)

theorem dropInvalid_append_encode (s : Bytes) (c : Char) (rest : Bytes) :
    dropInvalid (s ++ (String.utf8EncodeChar c ++ rest))
      = dropInvalid s ++ (String.utf8EncodeChar c ++ dropInvalid rest) := by
  rw [dropInvalid, pieces_append_encode, List.flatMap_append, List.flatMap_cons, dropInvalid,
    dropInvalid]

def Piece.valid : Piece → Option Char
  | .rune c => some c
  | .stray _ => none

/-- The characters read in a string. -/
def chars (s : Bytes) : List Char :=
  (pieces s).filterMap Piece.valid

theorem dropInvalid_eq (s : Bytes) : dropInvalid s = (chars s).flatMap String.utf8EncodeChar := by
  rw [dropInvalid, chars]
  induction pieces s with
  | nil => rfl
  | cons p ps ih =>
    cases p with
    | rune c =>
      have hc : Piece.valid (.rune c) = some c := rfl
      rw [List.flatMap_cons, List.filterMap_cons_some hc, List.flatMap_cons, ih]
    | stray b =>
      have hb : Piece.valid (.stray b) = none := rfl
      rw [List.flatMap_cons, List.filterMap_cons_none hb, ih, List.nil_append]

end Marotte.Runes
