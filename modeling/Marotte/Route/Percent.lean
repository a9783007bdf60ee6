import Mathlib.Data.List.Basic
import Mathlib.Data.Nat.Notation

/-! # Percent encoding

A text as a URL component and back, over texts of Unicode characters. The escaped octets of a
character are read together, and a malformed escape refuses the whole text.
-/
namespace Marotte.Route

abbrev Text := List Char

/-! ## Encoding -/

/-- A character that stands for itself in a component. -/
def isUnreserved (c : Char) : Bool :=
  c.isAlphanum || c ∈ ['-', '_', '.', '!', '~', '*', '\'', '(', ')']

def hexDigits : List Char :=
  ['0', '1', '2', '3', '4', '5', '6', '7', '8', '9', 'A', 'B', 'C', 'D', 'E', 'F']

def hexChar (n : ℕ) : Char :=
  hexDigits.getD n '0'

def escapeOctet (b : UInt8) : Text :=
  ['%', hexChar (b.toNat / 16), hexChar (b.toNat % 16)]

def encodeChar (c : Char) : Text :=
  if isUnreserved c then [c] else (String.utf8EncodeChar c).flatMap escapeOctet

def encodeURIComponent (s : Text) : Text :=
  s.flatMap encodeChar

/-! ## Decoding -/

def hexValue (c : Char) : Option ℕ :=
  if '0' ≤ c ∧ c ≤ '9' then some (c.toNat - 48)
  else if 'A' ≤ c ∧ c ≤ 'F' then some (c.toNat - 55)
  else if 'a' ≤ c ∧ c ≤ 'f' then some (c.toNat - 87)
  else none

/-- The next `n` escaped octets and the text behind them. -/
def readOctets : ℕ → Text → Option (List UInt8 × Text)
  | 0, s => some ([], s)
  | n + 1, '%' :: a :: b :: s =>
    match hexValue a, hexValue b, readOctets n s with
    | some x, some y, some (bs, rest) => some (UInt8.ofNat (16 * x + y) :: bs, rest)
    | _, _, _ => none
  | _ + 1, _ => none

/-- How many octets a character takes whose first octet is `b`. -/
def octetCount (b : UInt8) : Option ℕ :=
  if h : b.IsUTF8FirstByte then some (b.utf8ByteSize h) else none

/-- The character behind a percent sign, from all its octets. -/
def readEscaped (s : Text) : Option (Char × Text) :=
  match readOctets 1 s with
  | some ([b], _) =>
    match octetCount b with
    | some n =>
      match readOctets n s with
      | some (bs, rest) =>
        match bs.toByteArray.utf8DecodeChar? 0 with
        | some c => some (c, rest)
        | none => none
      | none => none
    | none => none
  | _ => none

theorem length_readOctets {n : ℕ} {s rest : Text} {bs : List UInt8}
    (h : readOctets n s = some (bs, rest)) : rest.length + 3 * n = s.length := by
  induction n generalizing s bs with
  | zero =>
    simp only [readOctets, Option.some.injEq, Prod.mk.injEq] at h
    rw [h.2]
    rfl
  | succ n ih =>
    cases s with
    | nil => simp [readOctets] at h
    | cons p s =>
      by_cases hp : p = '%'
      · subst hp
        rcases s with _ | ⟨a, _ | ⟨b, t⟩⟩
        · simp [readOctets] at h
        · simp [readOctets] at h
        · rw [readOctets] at h
          split at h
          · next hread =>
            simp only [Option.some.injEq, Prod.mk.injEq] at h
            have hlength := ih (h.2 ▸ hread)
            simp only [List.length_cons]
            omega
          · simp at h
      · simp [readOctets, hp] at h

theorem octetCount_pos {b : UInt8} {n : ℕ} (h : octetCount b = some n) : 0 < n := by
  rw [octetCount] at h
  split at h
  · next hb =>
    injection h with h
    rw [← h]
    exact UInt8.utf8ByteSize_pos b hb
  · simp at h

theorem length_readEscaped {s rest : Text} {c : Char} (h : readEscaped s = some (c, rest)) :
    rest.length < s.length := by
  simp only [readEscaped] at h
  split at h
  · next b _ _ =>
    split at h
    · next n hn =>
      split at h
      · next bs t hread =>
        split at h
        · simp only [Option.some.injEq, Prod.mk.injEq] at h
          have hpos := octetCount_pos hn
          have hlength := length_readOctets hread
          rw [← h.2]
          omega
        · simp at h
      · simp at h
    · simp at h
  · simp at h

/-- `decodeURIComponent`, which throws on a malformed escape. -/
def decodeURIComponent (s : Text) : Option Text :=
  match s with
  | [] => some []
  | c :: t =>
    if c ≠ '%' then (decodeURIComponent t).map (c :: ·)
    else
      match _h : readEscaped (c :: t) with
      | some (d, rest) => (decodeURIComponent rest).map (d :: ·)
      | none => none
termination_by s.length
decreasing_by
  · simp
  · exact length_readEscaped _h

/-! ## Round trip -/

variable {c : Char} {s : Text}

theorem hexValue_hexChar : ∀ n < 16, hexValue (hexChar n) = some n := by
  decide

theorem readOctets_escape (bs : List UInt8) (s : Text) :
    readOctets bs.length (bs.flatMap escapeOctet ++ s) = some (bs, s) := by
  induction bs with
  | nil => rfl
  | cons b bs ih =>
    have hlt := b.toNat_lt
    have hhigh := hexValue_hexChar (b.toNat / 16) (by omega)
    have hlow := hexValue_hexChar (b.toNat % 16) (by omega)
    have hoctet : UInt8.ofNat (16 * (b.toNat / 16) + b.toNat % 16) = b := by
      rw [Nat.div_add_mod, UInt8.ofNat_toNat]
    simp only [List.flatMap_cons, escapeOctet, List.cons_append, List.nil_append, List.length_cons,
      readOctets, hhigh, hlow, ih, hoctet]

theorem readOctets_one (b : UInt8) (bs : List UInt8) (s : Text) :
    readOctets 1 ((b :: bs).flatMap escapeOctet ++ s)
      = some ([b], bs.flatMap escapeOctet ++ s) := by
  have hread := readOctets_escape [b] (bs.flatMap escapeOctet ++ s)
  simpa using hread

theorem decodeChar_encode (c : Char) :
    (String.utf8EncodeChar c).toByteArray.utf8DecodeChar? 0 = some c := by
  have happend := ByteArray.utf8DecodeChar?_utf8EncodeChar_append (b := ByteArray.empty) (c := c)
  rwa [ByteArray.append_empty] at happend

/-- The first octet of a character tells how many there are. -/
theorem octetCount_encode {b : UInt8} {bs : List UInt8} (hb : String.utf8EncodeChar c = b :: bs) :
    octetCount b = some (String.utf8EncodeChar c).length := by
  have hfirst := UInt8.isUTF8FirstByte_getElem_zero_utf8EncodeChar (c := c)
  simp only [hb, List.getElem_cons_zero] at hfirst
  have hread := decodeChar_encode c
  have hsome : ((String.utf8EncodeChar c).toByteArray.utf8DecodeChar? 0).isSome := by
    rw [hread]
    rfl
  have hsize := ByteArray.utf8Size_utf8DecodeChar (h := hsome)
  have hchar : ByteArray.utf8DecodeChar _ 0 hsome = c := by
    rw [ByteArray.utf8DecodeChar]
    simp only [hread, Option.get_some]
  rw [hchar] at hsize
  simp only [List.getElem_toByteArray, hb, List.getElem_cons_zero] at hsize
  rw [octetCount, dif_pos hfirst, ← hsize, String.length_utf8EncodeChar]

/-- An escaped character is read back. -/
theorem readEscaped_encode (c : Char) (s : Text) :
    readEscaped ((String.utf8EncodeChar c).flatMap escapeOctet ++ s) = some (c, s) := by
  obtain ⟨b, bs, hb⟩ := List.exists_cons_of_ne_nil (String.utf8EncodeChar_ne_nil (c := c))
  have hone := readOctets_one b bs s
  have hall := readOctets_escape (String.utf8EncodeChar c) s
  rw [readEscaped]
  rw [← hb] at hone
  simp only [hone, octetCount_encode hb, hall, decodeChar_encode]

theorem decode_plain (h : c ≠ '%') :
    decodeURIComponent (c :: s) = (decodeURIComponent s).map (c :: ·) := by
  rw [decodeURIComponent, if_pos h]

theorem decode_encodeChar (c : Char) (s : Text) :
    decodeURIComponent (encodeChar c ++ s) = (decodeURIComponent s).map (c :: ·) := by
  rw [encodeChar]
  split
  · next h =>
    apply decode_plain
    rintro rfl
    exact absurd h (by decide)
  · obtain ⟨b, bs, hb⟩ := List.exists_cons_of_ne_nil (String.utf8EncodeChar_ne_nil (c := c))
    have hread := readEscaped_encode c s
    rw [hb] at hread ⊢
    simp only [List.flatMap_cons, escapeOctet, List.cons_append, List.nil_append] at hread ⊢
    rw [decodeURIComponent, if_neg (by simp)]
    split
    · simp_all
    · simp_all

/-- What is encoded decodes to itself. -/
theorem decode_encode (s : Text) : decodeURIComponent (encodeURIComponent s) = some s := by
  induction s with
  | nil => rw [encodeURIComponent, List.flatMap_nil, decodeURIComponent]
  | cons c s ih =>
    rw [encodeURIComponent, List.flatMap_cons, decode_encodeChar]
    rw [encodeURIComponent] at ih
    rw [ih, Option.map_some]

/-! ## What an encoded text is made of -/

theorem hexChar_mem (n : ℕ) : hexChar n ∈ hexDigits := by
  rw [hexChar, List.getD_eq_getElem?_getD]
  cases h : hexDigits[n]? with
  | none => decide
  | some c => exact List.mem_of_getElem? h

/-- An encoded character is made of unreserved characters and percent signs. -/
theorem mem_encodeChar {d : Char} (h : d ∈ encodeChar c) : d = '%' ∨ isUnreserved d = true := by
  rw [encodeChar] at h
  split at h
  · next hc =>
    rw [List.mem_singleton] at h
    exact .inr (h ▸ hc)
  · obtain ⟨b, _, hd⟩ := List.mem_flatMap.1 h
    have hall : ∀ x ∈ hexDigits, isUnreserved x = true := List.all_eq_true.1 rfl
    simp only [escapeOctet, List.mem_cons, List.not_mem_nil, or_false] at hd
    rcases hd with rfl | rfl | rfl
    · exact .inl rfl
    · exact .inr (hall _ (hexChar_mem _))
    · exact .inr (hall _ (hexChar_mem _))

theorem encodeChar_ne_nil (c : Char) : encodeChar c ≠ [] := by
  rw [encodeChar]
  split
  · simp
  · obtain ⟨b, bs, hb⟩ := List.exists_cons_of_ne_nil (String.utf8EncodeChar_ne_nil (c := c))
    simp [hb, escapeOctet]

theorem encode_eq_nil : encodeURIComponent s = [] ↔ s = [] := by
  cases s with
  | nil => simp [encodeURIComponent]
  | cons c s => simp [encodeURIComponent, encodeChar_ne_nil]

/-- A reserved character is in no encoded text. -/
theorem notMem_encode {d : Char} (hd : d ≠ '%' ∧ isUnreserved d = false) (s : Text) :
    d ∉ encodeURIComponent s := by
  intro h
  obtain ⟨c, _, hc⟩ := List.mem_flatMap.1 h
  rcases mem_encodeChar hc with heq | hunreserved
  · exact hd.1 heq
  · rw [hd.2] at hunreserved
    contradiction

end Marotte.Route
