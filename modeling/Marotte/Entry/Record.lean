import Marotte.Entry.Parse

/-! # Records as JSON objects

How a value becomes a document and comes back. A record is a list of named fields; a
field left out reads back as the value it was left out for.
-/
namespace Marotte

/-- A value's document, and the value read back from one. -/
structure JsonCodec (α : Type) where
  encode : α → Json
  decode : Json → Option α
  decode_encode : ∀ a, decode (encode a) = some a

namespace JsonCodec

def string : JsonCodec String where
  encode := .str
  decode
    | .str s => some s
    | .null => some ""
    | _ => none
  decode_encode _ := rfl

def bool : JsonCodec Bool where
  encode := .bool
  decode
    | .bool b => some b
    | .null => some false
    | _ => none
  decode_encode _ := rfl

/-- An amount, kept as its literal. -/
def number : JsonCodec NumLit where
  encode := .num
  decode
    | .num n => some n
    | .null => some .zero
    | _ => none
  decode_encode _ := rfl

/-- Digits alone, at least one of them. -/
def readDigits (cs : List Char) : Option ℕ :=
  if cs ≠ [] ∧ cs.all Char.isDigit then some (Nat.ofDigitChars 10 cs 0) else none

/-- An integer's literal; a fraction or an exponent is refused. -/
def readInt : List Char → Option ℤ
  | '-' :: cs => (readDigits cs).map (fun n : ℕ => -(n : ℤ))
  | cs => (readDigits cs).map Int.ofNat

theorem readDigits_toDigits (n : ℕ) : readDigits (Nat.toDigits 10 n) = some n := by
  have hall : (Nat.toDigits 10 n).all Char.isDigit := List.all_eq_true.mpr
    (fun c hc => Nat.isDigit_of_mem_toDigits (by decide) (by decide) hc)
  rw [readDigits, if_pos ⟨Nat.toDigits_ne_nil, hall⟩, Nat.ofDigitChars_ten_toDigits]

theorem readInt_ofInt (i : ℤ) : readInt (NumLit.ofInt i).chars = some i := by
  cases i with
  | ofNat n =>
    change readInt (Nat.toDigits 10 n) = some (n : ℤ)
    unfold readInt
    split
    · rename_i cs heq
      have hminus : '-' ∈ Nat.toDigits 10 n := by rw [heq]; simp
      exact absurd (Nat.isDigit_of_mem_toDigits (by decide) (by decide) hminus) (by decide)
    · rw [readDigits_toDigits, Option.map_some]
      rfl
  | negSucc n =>
    change (readDigits (Nat.toDigits 10 (n + 1))).map (fun n : ℕ => -(n : ℤ)) = _
    rw [readDigits_toDigits, Option.map_some]
    rfl

def int : JsonCodec ℤ where
  encode i := .num (.ofInt i)
  decode
    | .num n => readInt n.chars
    | .null => some 0
    | _ => none
  decode_encode := readInt_ofInt

def nat : JsonCodec ℕ where
  encode n := int.encode n
  decode v :=
    match int.decode v with
    | some (.ofNat n) => some n
    | _ => none
  decode_encode n := by simp only [int.decode_encode]

/-- A raw message: whatever document it holds. -/
def raw : JsonCodec Json where
  encode := id
  decode := some
  decode_encode _ := rfl

def decodeList {α : Type} (c : JsonCodec α) : List Json → Option (List α)
  | [] => some []
  | v :: vs =>
    match c.decode v, decodeList c vs with
    | some a, some as => some (a :: as)
    | _, _ => none

theorem decodeList_map {α : Type} (c : JsonCodec α) (as : List α) :
    decodeList c (as.map c.encode) = some as := by
  induction as with
  | nil => rfl
  | cons a as ih => simp [decodeList, c.decode_encode, ih]

def list {α : Type} (c : JsonCodec α) : JsonCodec (List α) where
  encode as := .arr (as.map c.encode)
  decode
    | .arr vs => decodeList c vs
    | .null => some []
    | _ => none
  decode_encode := decodeList_map c

/-- A closed enumeration, each member under its own name. -/
def named {α : Type} (name : α → String) (all : List α)
    (h : ∀ a, all.find? (fun b => name b = name a) = some a) : JsonCodec α where
  encode a := .str (name a)
  decode
    | .str s => all.find? (fun b => name b = s)
    | _ => none
  decode_encode := h

def decodeMembers {α : Type} (c : JsonCodec α) :
    List (String × Json) → Option (List (String × α))
  | [] => some []
  | (k, v) :: ms =>
    match c.decode v, decodeMembers c ms with
    | some a, some as => some ((k, a) :: as)
    | _, _ => none

theorem decodeMembers_map {α : Type} (c : JsonCodec α) (as : List (String × α)) :
    decodeMembers c (as.map (fun p => (p.1, c.encode p.2))) = some as := by
  induction as with
  | nil => rfl
  | cons a as ih => simp [decodeMembers, c.decode_encode, ih]

/-- A map from names, its members in the order the encoder sorts them. -/
def map {α : Type} (c : JsonCodec α) : JsonCodec (List (String × α)) where
  encode as := .obj (as.map (fun p => (p.1, c.encode p.2)))
  decode
    | .obj ms => decodeMembers c ms
    | .null => some []
    | _ => none
  decode_encode := decodeMembers_map c

/-- A value through the type its document is built from. -/
def via {α β : Type} (c : JsonCodec β) (enter : α → β) (leave : β → α)
    (h : ∀ a, leave (enter a) = a) : JsonCodec α where
  encode a := c.encode (enter a)
  decode v := (c.decode v).map leave
  decode_encode a := by rw [c.decode_encode, Option.map_some, h]

end JsonCodec

/-- A field of a record: its document, or nothing where it is left out. -/
structure Field (α : Type) where
  encode : α → Option Json
  decode : Option Json → Option α
  decode_encode : ∀ a, decode (encode a) = some a

namespace Field

/-- A field always written. -/
def always {α : Type} (c : JsonCodec α) (absent : Option α) : Field α where
  encode a := some (c.encode a)
  decode
    | some v => c.decode v
    | none => absent
  decode_encode := c.decode_encode

/-- A field left out at its zero. -/
def omitZero {α : Type} [DecidableEq α] (c : JsonCodec α) (zero : α) : Field α where
  encode a := if a = zero then none else some (c.encode a)
  decode
    | some v => c.decode v
    | none => some zero
  decode_encode a := by
    by_cases h : a = zero
    · simp [h]
    · simp [h, c.decode_encode]

/-- A pointer, left out where there is nothing to point at. -/
def pointer {α : Type} (c : JsonCodec α) : Field (Option α) where
  encode a := a.map c.encode
  decode
    | some v => (c.decode v).map some
    | none => some none
  decode_encode a := by cases a <;> simp [c.decode_encode]

end Field

/-- The fields of a record, in the order they are written. -/
structure Record (α : Type) where
  names : List String
  encode : α → List (String × Option Json)
  decode : (String → Option Json) → Option α
  encode_names : ∀ a, (encode a).map Prod.fst = names
  decode_encode : ∀ a look, (∀ p ∈ encode a, look p.1 = p.2) → decode look = some a

namespace Record

def done : Record Unit where
  names := []
  encode _ := []
  decode _ := some ()
  encode_names _ := rfl
  decode_encode _ _ _ := rfl

def field {α β : Type} (name : String) (f : Field α) (r : Record β) : Record (α × β) where
  names := name :: r.names
  encode p := (name, f.encode p.1) :: r.encode p.2
  decode look :=
    match f.decode (look name), r.decode look with
    | some a, some b => some (a, b)
    | _, _ => none
  encode_names p := by rw [List.map_cons, r.encode_names]
  decode_encode p look h := by
    have hhead : look name = f.encode p.1 := h (name, f.encode p.1) (by simp)
    have htail := r.decode_encode p.2 look (fun q hq => h q (List.mem_cons_of_mem _ hq))
    simp [hhead, f.decode_encode, htail]

/-- The members an object holds of a record's fields. -/
def members : List (String × Option Json) → List (String × Json)
  | [] => []
  | (name, some v) :: fs => (name, v) :: members fs
  | (_, none) :: fs => members fs

/-- The last member of a name, as a decoded object holds it. -/
def lookup : List (String × Json) → String → Option Json
  | [], _ => none
  | (k, v) :: ms, name =>
    match lookup ms name with
    | some w => some w
    | none => if k = name then some v else none

theorem lookup_members_of_notMem {fs : List (String × Option Json)} {name : String}
    (h : name ∉ fs.map Prod.fst) : lookup (members fs) name = none := by
  induction fs with
  | nil => rfl
  | cons f fs ih =>
    obtain ⟨k, o⟩ := f
    obtain ⟨hk, hfs⟩ : name ≠ k ∧ name ∉ fs.map Prod.fst := by simpa using h
    cases o with
    | none => exact ih hfs
    | some v => simp [members, lookup, ih hfs, hk.symm]

theorem lookup_members {fs : List (String × Option Json)} (hn : (fs.map Prod.fst).Nodup)
    {p : String × Option Json} (hp : p ∈ fs) : lookup (members fs) p.1 = p.2 := by
  induction fs with
  | nil => cases hp
  | cons f fs ih =>
    obtain ⟨k, o⟩ := f
    rw [List.map_cons, List.nodup_cons] at hn
    rcases List.mem_cons.mp hp with rfl | hp
    · have hnone := lookup_members_of_notMem hn.1
      cases o with
      | none => exact hnone
      | some v => simp [members, lookup, hnone]
    · have htail := ih hn.2 hp
      have hne : k ≠ p.1 := by
        intro heq
        exact hn.1 (List.mem_map.mpr ⟨p, hp, heq.symm⟩)
      cases o with
      | none => exact htail
      | some v =>
        rw [members, lookup, htail]
        cases p.2 <;> simp [hne]

/-- A record as one object; its names differ. -/
def codec {α : Type} (r : Record α) (h : r.names.Nodup) : JsonCodec α where
  encode a := .obj (members (r.encode a))
  decode
    | .obj ms => r.decode (lookup ms)
    | _ => none
  decode_encode a := by
    apply r.decode_encode
    intro p hp
    exact lookup_members (by rw [r.encode_names]; exact h) hp

end Record

end Marotte
