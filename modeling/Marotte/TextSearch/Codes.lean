import Marotte.Library.Occurrences
import Marotte.Library.Runes
import Mathlib.Data.Nat.Notation

/-! # Searching a text

The search of the server over the bytes of a text, which need not be UTF-8, and the search of the
client over the UTF-16 code units of one. The lowercase tables of the two languages are parameters.
-/
namespace Marotte.TextSearch

open Runes

/-! ## The server's search -/

/-- A string with every run of invalid bytes replaced by one U+FFFD. `invalid` holds behind an
invalid byte. -/
def toValid (invalid : Bool) : List Piece → Bytes
  | [] => []
  | .rune c :: ps => String.utf8EncodeChar c ++ toValid false ps
  | .stray _ :: ps =>
    if invalid then toValid true ps
    else String.utf8EncodeChar replacement ++ toValid true ps

def toValidUTF8 (s : Bytes) : Bytes :=
  toValid false (pieces s)

/-- `fold` lowercases rune by rune. -/
def fold (toLower : Char → Char) (s : Bytes) : Bytes :=
  (pieces s).flatMap fun p => String.utf8EncodeChar (toLower p.char)

/-- A query prepared once per search. -/
structure Needle where
  text : Bytes
  runes : ℕ
  caseSensitive : Bool

def newNeedle (toLower : Char → Char) (query : Bytes) (caseSensitive : Bool) : Needle :=
  let query := toValidUTF8 query
  let query := if caseSensitive then query else fold toLower query
  { text := query, runes := runeCountInString query, caseSensitive := caseSensitive }

/-- One occurrence, addressed into the original text. -/
structure Hit where
  rune : ℕ
  byte : ℕ
  deriving DecidableEq

/-- The byte offset `n` runes past `start`. -/
def advanceRunes (s : Bytes) (start : ℕ) : ℕ → ℕ
  | 0 => start
  | n + 1 => advanceRunes s (start + (decodeRuneInString (s.drop start)).2) n

/-- The loop over the folded text `hay` and the original text side by side. -/
def Needle.scan (n : Needle) (hn : n.text ≠ []) (hay text : Bytes) (hp : ℕ) (hit : Hit) :
    List Hit :=
  match _found : indexOf n.text (hay.drop hp) with
  | none => []
  | some pos =>
    let gap := runeCountInString ((hay.drop hp).take pos)
    let hit : Hit := { byte := advanceRunes text hit.byte gap, rune := hit.rune + gap }
    hit :: n.scan hn hay text (hp + (pos + n.text.length))
      { byte := advanceRunes text hit.byte n.runes, rune := hit.rune + n.runes }
termination_by hay.length - hp
decreasing_by
  have hfit := indexOf_le hn _found
  have hpos := List.length_pos_iff.2 hn
  rw [List.length_drop] at hfit
  omega

/-- The text a needle is compared with. -/
def Needle.hay (toLower : Char → Char) (n : Needle) (text : Bytes) : Bytes :=
  if n.caseSensitive then text else fold toLower text

/-- The hits in text order. An empty needle yields nothing. -/
def Needle.occurrences (toLower : Char → Char) (n : Needle) (text : Bytes) : List Hit :=
  if hn : n.text = [] then []
  else n.scan hn (n.hay toLower text) text 0 { rune := 0, byte := 0 }

/-! ## The client's search -/

/-- UTF-16 code units. -/
abbrev Units := List ℕ

def utf16 (c : Char) : Units :=
  let v := c.val.toNat
  if v < 0x10000 then [v]
  else [0xD800 + (v - 0x10000) / 0x400, 0xDC00 + (v - 0x10000) % 0x400]

def isHigh (u : ℕ) : Prop :=
  0xD800 ≤ u ∧ u < 0xDC00

def isLow (u : ℕ) : Prop :=
  0xDC00 ≤ u ∧ u < 0xE000

instance (u : ℕ) : Decidable (isHigh u) :=
  inferInstanceAs (Decidable (_ ∧ _))

instance (u : ℕ) : Decidable (isLow u) :=
  inferInstanceAs (Decidable (_ ∧ _))

/-- The steps of a loop over a string: a surrogate pair, or one code unit. -/
def codePoints : Units → List Units
  | [] => []
  | [u] => [[u]]
  | u :: v :: s =>
    if isHigh u ∧ isLow v then [u, v] :: codePoints s
    else [u] :: codePoints (v :: s)

/-- `fold` lowercases every code point on its own, and U+0130 to `i`. -/
def foldUnits (toLowerCase : Units → Units) (s : Units) : Units :=
  (codePoints s).flatMap fun cp => if cp = [0x130] then utf16 'i' else toLowerCase cp

/-- A prepared query of the client. -/
structure Prepared where
  text : Units
  caseSensitive : Bool

def prepare (toLowerCase : Units → Units) (query : Units) (caseSensitive : Bool) : Prepared :=
  { text := if caseSensitive then query else foldUnits toLowerCase query
    caseSensitive := caseSensitive }

/-- Every place of the needle in text order, the search going on behind each. -/
def occurrences (toLowerCase : Units → Units) (text : Units) (n : Prepared) : List ℕ :=
  let hay := if n.caseSensitive then text else foldUnits toLowerCase text
  if hn : n.text = [] then []
  else leftmostFrom n.text hay hn 0

/-! ## Runes and code points

Both encodings are self-synchronising: what a search over the bytes or the code units finds begins
at a rune of the text.
-/

variable {c d : Char}

/-! ## UTF-8 -/

/-- The bytes of a string, read as the runes of a loop over it. -/
def runeCode : SyncCode Piece UInt8 where
  units := Piece.units
  split := pieces
  Whole p := ∃ c, p = .rune c
  flatMap_split := flatMap_pieces
  split_cons := by
    intro us p ps h
    rcases pieces_cases us with rfl | ⟨q, rest, rfl, hpieces⟩
    · simp at h
    · rw [hpieces, List.cons.injEq] at h
      exact ⟨p.units_ne_nil, rest, h.2.symm⟩
  split_whole := by
    rintro _ ⟨c, rfl⟩ rest
    exact pieces_encode c rest
  aligned := by
    rintro _ us t ts ⟨c, rfl⟩ _ u hu
    exact utf8_aligned hu t

/-! ## UTF-16 -/

theorem utf16_cases (c : Char) :
    (∃ u, utf16 c = [u] ∧ ¬ isHigh u ∧ ¬ isLow u)
      ∨ ∃ u v, utf16 c = [u, v] ∧ isHigh u ∧ isLow v := by
  have hvalid := c.valid
  simp only [UInt32.isValidChar, Nat.isValidChar] at hvalid
  change c.val.toNat < 0xD800 ∨ _ at hvalid
  simp only [utf16, isHigh, isLow]
  split
  · exact .inl ⟨_, rfl, by omega, by omega⟩
  · exact .inr ⟨_, _, rfl, by omega, by omega⟩

theorem utf16_ne_nil (c : Char) : utf16 c ≠ [] := by
  rcases utf16_cases c with ⟨u, h, _⟩ | ⟨u, v, h, _⟩ <;> simp [h]

theorem utf16_injective : Function.Injective utf16 := by
  intro c d h
  ext1
  apply UInt32.toNat_inj.1
  simp only [utf16] at h
  split at h <;> split at h <;>
    simp only [List.cons.injEq, and_true, reduceCtorEq, and_false] at h <;> omega

theorem codePoints_pair {u v : ℕ} (hu : isHigh u) (hv : isLow v) (s : Units) :
    codePoints (u :: v :: s) = [u, v] :: codePoints s := by
  rw [codePoints, if_pos ⟨hu, hv⟩]

theorem codePoints_single {u : ℕ} {s : Units} (h : isHigh u → ∀ v ∈ s.head?, ¬ isLow v) :
    codePoints (u :: s) = [u] :: codePoints s := by
  cases s with
  | nil => simp [codePoints]
  | cons v s =>
    rw [codePoints, if_neg]
    rintro ⟨hu, hv⟩
    exact h hu v rfl hv

/-- A string begins with the code point read there: a pair of surrogates or one code unit. -/
theorem codePoints_cases (s : Units) :
    s = []
      ∨ (∃ u v rest, isHigh u ∧ isLow v ∧ s = u :: v :: rest
          ∧ codePoints s = [u, v] :: codePoints rest)
      ∨ ∃ u rest, s = u :: rest ∧ codePoints s = [u] :: codePoints rest := by
  cases s with
  | nil => exact .inl rfl
  | cons u s =>
    right
    by_cases h : isHigh u → ∀ v ∈ s.head?, ¬ isLow v
    · exact .inr ⟨u, s, rfl, codePoints_single h⟩
    · left
      push Not at h
      obtain ⟨hu, v, hv, hlow⟩ := h
      cases s with
      | nil => simp at hv
      | cons w s =>
        simp only [List.head?_cons, Option.mem_some_iff] at hv
        subst hv
        exact ⟨u, w, s, hu, hlow, rfl, codePoints_pair hu hlow s⟩

theorem codePoints_utf16 (c : Char) (rest : Units) :
    codePoints (utf16 c ++ rest) = utf16 c :: codePoints rest := by
  rcases utf16_cases c with ⟨u, h, hhigh, _⟩ | ⟨u, v, h, hu, hv⟩
  · rw [h, List.singleton_append]
    exact codePoints_single (fun hu => absurd hu hhigh)
  · rw [h]
    exact codePoints_pair hu hv rest

theorem flatMap_codePoints (s : Units) : (codePoints s).flatMap id = s := by
  induction s using codePoints.induct with
  | case1 => rfl
  | case2 u => simp [codePoints]
  | case3 u v s h ih => rw [codePoints_pair h.1 h.2, List.flatMap_cons, ih]; rfl
  | case4 u v s h ih =>
    rw [codePoints, if_neg h, List.flatMap_cons, ih]
    rfl

/-- The code units of a string, read as the code points of a loop over it. -/
def unitCode : SyncCode Units ℕ where
  units := id
  split := codePoints
  Whole cp := ∃ c, cp = utf16 c
  flatMap_split := flatMap_codePoints
  split_cons := by
    intro us cp cps h
    rcases codePoints_cases us with rfl | ⟨u, v, rest, _, _, rfl, hread⟩ | ⟨u, rest, rfl, hread⟩
    · simp [codePoints] at h
    · rw [hread, List.cons.injEq] at h
      obtain ⟨rfl, rfl⟩ := h
      exact ⟨by simp, rest, rfl⟩
    · rw [hread, List.cons.injEq] at h
      obtain ⟨rfl, rfl⟩ := h
      exact ⟨by simp, rest, rfl⟩
  split_whole := by
    rintro _ ⟨c, rfl⟩ rest
    exact codePoints_utf16 c rest
  aligned := by
    rintro _ us t ts ⟨c, rfl⟩ hread w hw htail
    have hlow : ¬ isLow w := by
      rcases utf16_cases c with ⟨u, h, _, hno⟩ | ⟨u, v, h, hu, hv⟩
      · simp only [h, id_eq, List.head?_cons, Option.mem_some_iff] at hw
        rwa [← hw]
      · simp only [h, id_eq, List.head?_cons, Option.mem_some_iff] at hw
        rw [← hw]
        simp only [isHigh, isLow] at hu ⊢
        omega
    apply hlow
    rcases codePoints_cases us with rfl | ⟨u, v, rest, _, hv, rfl, h⟩ | ⟨u, rest, rfl, h⟩
    · simp [codePoints] at hread
    · rw [h, List.cons.injEq] at hread
      obtain ⟨rfl, _⟩ := hread
      simp only [id_eq, List.tail_cons, List.mem_singleton] at htail
      rwa [htail]
    · rw [h, List.cons.injEq] at hread
      obtain ⟨rfl, _⟩ := hread
      simp at htail

end Marotte.TextSearch
