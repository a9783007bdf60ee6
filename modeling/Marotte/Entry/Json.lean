import Mathlib.Algebra.Ring.Nat
import Mathlib.Data.Int.Notation
import Mathlib.Data.List.Basic

/-! # JSON documents as the encoder writes them

A raw message is the document it holds. Its cost on the wire is the length of the
compact, HTML-escaped text that Go's encoder prints for it.
-/
namespace Marotte

/-- Whether a character may stand in a number literal. -/
def numChar (c : Char) : Bool := c.isDigit || c = '-' || c = '+' || c = '.' || c = 'e' || c = 'E'

/-- A number as its literal, which is all that is ever done with one here. -/
structure NumLit where
  chars : List Char
  nonempty : chars ≠ []
  numeric : chars.all numChar
  deriving DecidableEq, Repr

namespace NumLit

instance : Inhabited NumLit := ⟨⟨['0'], by decide, by decide⟩⟩

def zero : NumLit := ⟨['0'], by decide, by decide⟩

theorem numChar_of_mem_toDigits {n : ℕ} {c : Char} (h : c ∈ Nat.toDigits 10 n) :
    numChar c = true := by
  simp [numChar, Nat.isDigit_of_mem_toDigits (by decide) (by decide) h]

/-- An integer as the encoder writes it. -/
def ofInt : ℤ → NumLit
  | .ofNat n => ⟨Nat.toDigits 10 n, Nat.toDigits_ne_nil,
      List.all_eq_true.mpr (fun _ h => numChar_of_mem_toDigits h)⟩
  | .negSucc n => ⟨'-' :: Nat.toDigits 10 (n + 1), by simp, by
      rw [List.all_cons, Bool.and_eq_true, List.all_eq_true]
      exact ⟨by decide, fun _ h => numChar_of_mem_toDigits h⟩⟩

end NumLit

/-- A JSON document. A number keeps its literal, an object its members in written order. -/
inductive Json where
  | null
  | bool (b : Bool)
  | num (literal : NumLit)
  | str (s : String)
  | arr (items : List Json)
  | obj (members : List (String × Json))
  deriving Inhabited, Repr

namespace Json

mutual

def decEq : (a b : Json) → Decidable (a = b)
  | null, null => isTrue rfl
  | bool a, bool b => decidable_of_iff (a = b) (by simp)
  | num a, num b => decidable_of_iff (a = b) (by simp)
  | str a, str b => decidable_of_iff (a = b) (by simp)
  | arr a, arr b => @decidable_of_iff _ (a = b) (by simp) (decEqItems a b)
  | obj a, obj b => @decidable_of_iff _ (a = b) (by simp) (decEqMembers a b)
  | null, bool _ | null, num _ | null, str _ | null, arr _ | null, obj _
  | bool _, null | bool _, num _ | bool _, str _ | bool _, arr _ | bool _, obj _
  | num _, null | num _, bool _ | num _, str _ | num _, arr _ | num _, obj _
  | str _, null | str _, bool _ | str _, num _ | str _, arr _ | str _, obj _
  | arr _, null | arr _, bool _ | arr _, num _ | arr _, str _ | arr _, obj _
  | obj _, null | obj _, bool _ | obj _, num _ | obj _, str _ | obj _, arr _ =>
      isFalse (by simp)

def decEqItems : (a b : List Json) → Decidable (a = b)
  | [], [] => isTrue rfl
  | [], _ :: _ | _ :: _, [] => isFalse (by simp)
  | v :: vs, w :: ws =>
    match decEq v w, decEqItems vs ws with
    | isTrue h, isTrue hs => isTrue (by rw [h, hs])
    | isFalse h, _ => isFalse (fun he => h (List.cons.inj he).1)
    | _, isFalse hs => isFalse (fun he => hs (List.cons.inj he).2)

def decEqMembers : (a b : List (String × Json)) → Decidable (a = b)
  | [], [] => isTrue rfl
  | [], _ :: _ | _ :: _, [] => isFalse (by simp)
  | (k, v) :: ms, (l, w) :: ns =>
    match decEq v w, decEqMembers ms ns with
    | isTrue h, isTrue hs =>
      if hk : k = l then isTrue (by rw [hk, h, hs])
      else isFalse (fun he => hk (Prod.mk.inj (List.cons.inj he).1).1)
    | isFalse h, _ => isFalse (fun he => h (Prod.mk.inj (List.cons.inj he).1).2)
    | _, isFalse hs => isFalse (fun he => hs (List.cons.inj he).2)

end

instance : DecidableEq Json := decEq

def hexDigit (n : ℕ) : Char := if n < 10 then Char.ofNat (48 + n) else Char.ofNat (87 + n)

/-- The six-character escape `\u00xx` of a code point below 256. -/
def escapeByte (n : ℕ) : List Char := ['\\', 'u', '0', '0', hexDigit (n / 16), hexDigit (n % 16)]

/-- One character of a string as the HTML-escaping encoder writes it. -/
def escapeChar (c : Char) : List Char :=
  if c = '"' then ['\\', '"']
  else if c = '\\' then ['\\', '\\']
  else if c = '\n' then ['\\', 'n']
  else if c = '\r' then ['\\', 'r']
  else if c = '\t' then ['\\', 't']
  else if c.toNat = 8 then ['\\', 'b']
  else if c.toNat = 12 then ['\\', 'f']
  else if c.toNat < 32 || c = '<' || c = '>' || c = '&' then escapeByte c.toNat
  else if c.toNat = 0x2028 then ['\\', 'u', '2', '0', '2', '8']
  else if c.toNat = 0x2029 then ['\\', 'u', '2', '0', '2', '9']
  else [c]

/-- A string as JSON. -/
def quote (s : String) : List Char := '"' :: (s.toList.flatMap escapeChar ++ ['"'])

mutual

/-- The compact text of a document. -/
def print : Json → List Char
  | null => ['n', 'u', 'l', 'l']
  | bool true => ['t', 'r', 'u', 'e']
  | bool false => ['f', 'a', 'l', 's', 'e']
  | num literal => literal.chars
  | str s => quote s
  | arr items => '[' :: (printItems items ++ [']'])
  | obj members => '{' :: (printMembers members ++ ['}'])

def printItems : List Json → List Char
  | [] => []
  | [v] => print v
  | v :: w :: vs => print v ++ ',' :: printItems (w :: vs)

def printMembers : List (String × Json) → List Char
  | [] => []
  | [(k, v)] => quote k ++ ':' :: print v
  | (k, v) :: m :: ms => quote k ++ ':' :: (print v ++ ',' :: printMembers (m :: ms))

end

/-- The byte length of a text in UTF-8. -/
def utf8Len (cs : List Char) : ℕ := (cs.map Char.utf8Size).sum

/-- What a document costs in the marshalled object. -/
def wireBytes (v : Json) : ℕ := utf8Len (print v)

end Json

end Marotte
