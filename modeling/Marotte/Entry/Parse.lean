import Marotte.Entry.Json

/-! # Reading a JSON document back

The decoder's grammar, on the characters of one text. What the encoder prints reads back
as the document it was printed from.
-/
namespace Marotte
namespace Json

/-- The value of a hexadecimal digit, of either case. -/
def hexVal (c : Char) : Option ℕ :=
  if '0' ≤ c ∧ c ≤ '9' then some (c.toNat - 48)
  else if 'a' ≤ c ∧ c ≤ 'f' then some (c.toNat - 87)
  else if 'A' ≤ c ∧ c ≤ 'F' then some (c.toNat - 55)
  else none

def hex4 (a b c d : Char) : Option ℕ :=
  match hexVal a, hexVal b, hexVal c, hexVal d with
  | some a, some b, some c, some d => some (((a * 16 + b) * 16 + c) * 16 + d)
  | _, _, _, _ => none

/-- One unit of a quoted string: a character as it stands, or a `\u` code unit. -/
inductive Unit16 where
  | char (c : Char)
  | code (n : ℕ)

def isHighSurrogate (n : ℕ) : Bool := 0xD800 ≤ n && n < 0xDC00

def isLowSurrogate (n : ℕ) : Bool := 0xDC00 ≤ n && n < 0xE000

/-- The character of a code unit alone; a surrogate half is replaced. -/
def unitChar (n : ℕ) : Char :=
  if isHighSurrogate n || isLowSurrogate n then Char.ofNat 0xFFFD else Char.ofNat n

/-- The characters of a run of units, a surrogate pair taken together. -/
def joinUnits : List Unit16 → List Char
  | [] => []
  | .char c :: us => c :: joinUnits us
  | .code h :: .code l :: us =>
    if isHighSurrogate h && isLowSurrogate l then
      Char.ofNat (0x10000 + (h - 0xD800) * 0x400 + (l - 0xDC00)) :: joinUnits us
    else unitChar h :: joinUnits (.code l :: us)
  | .code h :: us => unitChar h :: joinUnits us

/-- The character a one-letter escape stands for. -/
def escaped : Char → Option Char
  | '"' => some '"'
  | '\\' => some '\\'
  | '/' => some '/'
  | 'b' => some (Char.ofNat 8)
  | 'f' => some (Char.ofNat 12)
  | 'n' => some '\n'
  | 'r' => some '\r'
  | 't' => some '\t'
  | _ => none

/-- The units of a string up to its closing quote, and what follows it. -/
def parseUnits : List Char → Option (List Unit16 × List Char)
  | [] => none
  | '"' :: cs => some ([], cs)
  | '\\' :: 'u' :: a :: b :: c :: d :: cs =>
    match hex4 a b c d with
    | none => none
    | some n => (parseUnits cs).map (fun p => (.code n :: p.1, p.2))
  | '\\' :: x :: cs =>
    match escaped x with
    | none => none
    | some c => (parseUnits cs).map (fun p => (.char c :: p.1, p.2))
  | c :: cs =>
    if c.toNat < 32 || c = '\\' then none
    else (parseUnits cs).map (fun p => (.char c :: p.1, p.2))

def parseString (cs : List Char) : Option (String × List Char) :=
  (parseUnits cs).map (fun p => (String.ofList (joinUnits p.1), p.2))

/-- A number: the longest run of number characters. -/
def parseNumber (cs : List Char) : Option (NumLit × List Char) :=
  if h : cs.takeWhile numChar = [] then none
  else some (⟨cs.takeWhile numChar, h, List.all_takeWhile⟩, cs.dropWhile numChar)

def isBlank (c : Char) : Bool := c = ' ' || c = '\t' || c = '\n' || c = '\r'

def skipBlanks (cs : List Char) : List Char := cs.dropWhile isBlank

mutual

/-- One value and what follows it, within a bound on the values nested and listed. -/
def parseValue : ℕ → List Char → Option (Json × List Char)
  | 0, _ => none
  | fuel + 1, cs =>
    match skipBlanks cs with
    | 'n' :: 'u' :: 'l' :: 'l' :: cs => some (.null, cs)
    | 't' :: 'r' :: 'u' :: 'e' :: cs => some (.bool true, cs)
    | 'f' :: 'a' :: 'l' :: 's' :: 'e' :: cs => some (.bool false, cs)
    | '"' :: cs => (parseString cs).map (fun p => (.str p.1, p.2))
    | '[' :: cs =>
      match skipBlanks cs with
      | ']' :: cs => some (.arr [], cs)
      | _ => (parseItems fuel cs).map (fun p => (.arr p.1, p.2))
    | '{' :: cs =>
      match skipBlanks cs with
      | '}' :: cs => some (.obj [], cs)
      | _ => (parseMembers fuel cs).map (fun p => (.obj p.1, p.2))
    | cs => (parseNumber cs).map (fun p => (.num p.1, p.2))

/-- The items of an array up to its closing bracket. -/
def parseItems : ℕ → List Char → Option (List Json × List Char)
  | 0, _ => none
  | fuel + 1, cs =>
    match parseValue fuel cs with
    | none => none
    | some (v, cs) =>
      match skipBlanks cs with
      | ',' :: cs => (parseItems fuel cs).map (fun p => (v :: p.1, p.2))
      | ']' :: cs => some ([v], cs)
      | _ => none

/-- One member of an object: its key, a colon, its value. -/
def parseMember : ℕ → List Char → Option ((String × Json) × List Char)
  | 0, _ => none
  | fuel + 1, cs =>
    match skipBlanks cs with
    | '"' :: cs =>
      match parseString cs with
      | none => none
      | some (k, cs) =>
        match skipBlanks cs with
        | ':' :: cs => (parseValue fuel cs).map (fun p => ((k, p.1), p.2))
        | _ => none
    | _ => none

/-- The members of an object up to its closing brace. -/
def parseMembers : ℕ → List Char → Option (List (String × Json) × List Char)
  | 0, _ => none
  | fuel + 1, cs =>
    match parseMember fuel cs with
    | none => none
    | some (m, cs) =>
      match skipBlanks cs with
      | ',' :: cs => (parseMembers fuel cs).map (fun p => (m :: p.1, p.2))
      | '}' :: cs => some ([m], cs)
      | _ => none

end

/-- A whole text as one document. Every value takes a character, so its length bounds them. -/
def parse (cs : List Char) : Option Json :=
  match parseValue cs.length cs with
  | some (v, rest) => if skipBlanks rest = [] then some v else none
  | none => none

/-! ## Strings -/

theorem hexVal_hexDigit {n : ℕ} (h : n < 16) : hexVal (hexDigit n) = some n := by
  revert h
  revert n
  decide

theorem hex4_escapeByte {n : ℕ} (h : n < 256) :
    hex4 '0' '0' (hexDigit (n / 16)) (hexDigit (n % 16)) = some n := by
  have h0 : hexVal '0' = some 0 := by decide
  rw [hex4, h0, hexVal_hexDigit (by omega), hexVal_hexDigit (by omega)]
  simp only [Option.some.injEq]
  omega

/-- A unit that stands for a character: the character itself, or its code. -/
def Unit16.Means (c : Char) (u : Unit16) : Prop := u = .char c ∨ u = .code c.toNat

theorem not_surrogate (c : Char) :
    isHighSurrogate c.toNat = false ∧ isLowSurrogate c.toNat = false := by
  have h : c.toNat < 0xD800 ∨ 0xDFFF < c.toNat ∧ c.toNat < 0x110000 := c.valid
  constructor
  · simp only [isHighSurrogate, Bool.and_eq_false_iff, decide_eq_false_iff_not]
    omega
  · simp only [isLowSurrogate, Bool.and_eq_false_iff, decide_eq_false_iff_not]
    omega

theorem unitChar_toNat (c : Char) : unitChar c.toNat = c := by
  obtain ⟨hh, hl⟩ := not_surrogate c
  simp [unitChar, hh, hl]

theorem joinUnits_eq {us : List Unit16} {cs : List Char}
    (h : List.Forall₂ Unit16.Means cs us) : joinUnits us = cs := by
  induction h with
  | nil => rfl
  | @cons c u cs us hu hrest ih =>
    rcases hu with rfl | rfl
    · rw [joinUnits, ih]
    · cases us with
      | nil => rw [joinUnits, ih, unitChar_toNat]; simp
      | cons u us =>
        cases u with
        | char d => rw [joinUnits, ih, unitChar_toNat]; simp
        | code l => simp [joinUnits, (not_surrogate c).1, unitChar_toNat, ih]

/-- An escaped character reads back as one unit that stands for it. -/
theorem parseUnits_escapeChar (c : Char) (cs : List Char) :
    ∃ u, Unit16.Means c u ∧
      parseUnits (escapeChar c ++ cs) = (parseUnits cs).map (fun p => (u :: p.1, p.2)) := by
  have hcode : c.toNat < 256 → parseUnits (escapeByte c.toNat ++ cs) =
      (parseUnits cs).map (fun p => (.code c.toNat :: p.1, p.2)) := by
    intro h
    simp only [escapeByte, List.cons_append, List.nil_append, parseUnits, hex4_escapeByte h]
  unfold escapeChar
  split
  · rename_i h
    subst h
    exact ⟨_, .inl rfl, rfl⟩
  split
  · rename_i h
    subst h
    exact ⟨_, .inl rfl, rfl⟩
  split
  · rename_i h
    subst h
    exact ⟨_, .inl rfl, rfl⟩
  split
  · rename_i h
    subst h
    exact ⟨_, .inl rfl, rfl⟩
  split
  · rename_i h
    subst h
    exact ⟨_, .inl rfl, rfl⟩
  split
  · rename_i h
    refine ⟨.char c, .inl rfl, ?_⟩
    have hc : c = Char.ofNat 8 := by rw [← h, Char.ofNat_toNat]
    rw [hc]
    rfl
  split
  · rename_i h
    refine ⟨.char c, .inl rfl, ?_⟩
    have hc : c = Char.ofNat 12 := by rw [← h, Char.ofNat_toNat]
    rw [hc]
    rfl
  split
  · rename_i h
    refine ⟨.code c.toNat, .inr rfl, hcode ?_⟩
    simp only [Bool.or_eq_true, decide_eq_true_eq] at h
    rcases h with ((h | rfl) | rfl) | rfl
    · omega
    all_goals decide
  split
  · rename_i h
    refine ⟨.code c.toNat, .inr rfl, ?_⟩
    rw [h]
    rfl
  split
  · rename_i h
    refine ⟨.code c.toNat, .inr rfl, ?_⟩
    rw [h]
    rfl
  · rename_i hquote hback _ _ _ _ _ hlow _ _
    refine ⟨.char c, .inl rfl, ?_⟩
    have hlow' : ¬c.toNat < 32 := by simp_all
    rw [List.singleton_append, parseUnits]
    · simp [hlow', hback]
    all_goals simp_all

/-- A quoted string reads back as itself. -/
theorem parseString_quote (s : String) (rest : List Char) :
    parseString (s.toList.flatMap escapeChar ++ '"' :: rest) = some (s, rest) := by
  have h : ∀ cs : List Char, ∃ us, List.Forall₂ Unit16.Means cs us ∧
      parseUnits (cs.flatMap escapeChar ++ '"' :: rest) = some (us, rest) := by
    intro cs
    induction cs with
    | nil => exact ⟨[], .nil, rfl⟩
    | cons c cs ih =>
      obtain ⟨us, hus, hp⟩ := ih
      obtain ⟨u, hu, hc⟩ := parseUnits_escapeChar c (cs.flatMap escapeChar ++ '"' :: rest)
      refine ⟨u :: us, .cons hu hus, ?_⟩
      rw [List.flatMap_cons, List.append_assoc, hc, hp]
      rfl
  obtain ⟨us, hus, hp⟩ := h s.toList
  rw [parseString, hp, Option.map_some, joinUnits_eq hus, String.ofList_toList]

/-! ## Documents -/

theorem skipBlanks_cons {c : Char} (h : isBlank c = false) (cs : List Char) :
    skipBlanks (c :: cs) = c :: cs := by
  simp [skipBlanks, h]

/-- No number goes on into the text. -/
def EndsNumber (rest : List Char) : Prop := rest.takeWhile numChar = []

theorem endsNumber_nil : EndsNumber [] := rfl

theorem endsNumber_cons {c : Char} (h : numChar c = false) (cs : List Char) :
    EndsNumber (c :: cs) := by
  simp [EndsNumber, h]

theorem parseNumber_chars (n : NumLit) {rest : List Char} (h : EndsNumber rest) :
    parseNumber (n.chars ++ rest) = some (n, rest) := by
  have hall : ∀ c ∈ n.chars, numChar c = true := List.all_eq_true.mp n.numeric
  have htake : (n.chars ++ rest).takeWhile numChar = n.chars := by
    rw [List.takeWhile_append_of_pos hall, h, List.append_nil]
  have hdrop : (n.chars ++ rest).dropWhile numChar = rest := by
    rw [List.dropWhile_append_of_pos hall]
    cases rest with
    | nil => rfl
    | cons c cs =>
      rw [List.dropWhile_cons_of_neg]
      intro hc
      rw [EndsNumber, List.takeWhile_cons_of_pos hc] at h
      cases h
  have hne : (n.chars ++ rest).takeWhile numChar ≠ [] := by rw [htake]; exact n.nonempty
  rw [parseNumber, dif_neg hne]
  simp only [htake, hdrop]

/-- What a printed value can begin with. -/
theorem print_head (v : Json) :
    ∃ c cs, print v = c :: cs ∧ isBlank c = false ∧ c ≠ ']' ∧ c ≠ '}' := by
  cases v with
  | num n =>
    obtain ⟨c, cs, hcs⟩ := List.exists_cons_of_ne_nil n.nonempty
    have hc : numChar c = true := List.all_eq_true.mp n.numeric c (by simp [hcs])
    refine ⟨c, cs, by rw [print, hcs], ?_, ?_, ?_⟩
    · by_contra hb
      have hb : isBlank c = true := by simpa using hb
      simp only [isBlank, Bool.or_eq_true, decide_eq_true_eq] at hb
      rcases hb with ((rfl | rfl) | rfl) | rfl <;> exact absurd hc (by decide)
    · rintro rfl
      exact absurd hc (by decide)
    · rintro rfl
      exact absurd hc (by decide)
  | bool b => cases b <;> exact ⟨_, _, rfl, by decide, by decide, by decide⟩
  | _ => exact ⟨_, _, rfl, by decide, by decide, by decide⟩

theorem skipBlanks_print (v : Json) (rest : List Char) :
    skipBlanks (print v ++ rest) = print v ++ rest := by
  obtain ⟨c, cs, hcs, hb, -, -⟩ := print_head v
  rw [hcs, List.cons_append, skipBlanks_cons hb]

theorem parseValue_num (n : NumLit) (fuel : ℕ) {rest : List Char} (h : EndsNumber rest) :
    parseValue (fuel + 1) (n.chars ++ rest) = some (.num n, rest) := by
  have hskip := skipBlanks_print (.num n) rest
  rw [print] at hskip
  obtain ⟨c, cs, hcs⟩ := List.exists_cons_of_ne_nil n.nonempty
  have hc : numChar c = true := List.all_eq_true.mp n.numeric c (by simp [hcs])
  have hnot : ∀ d, numChar d = false → c ≠ d := by
    rintro d hd rfl
    rw [hd] at hc
    cases hc
  have hparse := parseNumber_chars n h
  rw [parseValue, hskip]
  rw [hcs, List.cons_append] at hparse ⊢
  split
  case h_1 heq => exact absurd (List.cons.inj heq).1 (hnot _ (by decide))
  case h_2 heq => exact absurd (List.cons.inj heq).1 (hnot _ (by decide))
  case h_3 heq => exact absurd (List.cons.inj heq).1 (hnot _ (by decide))
  case h_4 heq => exact absurd (List.cons.inj heq).1 (hnot _ (by decide))
  case h_5 heq => exact absurd (List.cons.inj heq).1 (hnot _ (by decide))
  case h_6 heq => exact absurd (List.cons.inj heq).1 (hnot _ (by decide))
  case h_7 => rw [hparse, Option.map_some]

theorem parseItems_last {fuel : ℕ} {cs rest : List Char} {v : Json}
    (h : parseValue fuel cs = some (v, ']' :: rest)) :
    parseItems (fuel + 1) cs = some ([v], rest) := by
  rw [parseItems, h]
  rfl

theorem parseItems_more {fuel : ℕ} {cs cs' rest : List Char} {v : Json} {vs : List Json}
    (h : parseValue fuel cs = some (v, ',' :: cs')) (hs : parseItems fuel cs' = some (vs, rest)) :
    parseItems (fuel + 1) cs = some (v :: vs, rest) := by
  rw [parseItems, h]
  simp only [skipBlanks_cons (show isBlank ',' = false by decide), hs, Option.map_some]

theorem parseMember_quote {fuel : ℕ} {k : String} {cs cs' : List Char} {v : Json}
    (h : parseValue fuel cs = some (v, cs')) :
    parseMember (fuel + 1) (quote k ++ ':' :: cs) = some ((k, v), cs') := by
  have hq := parseString_quote k (':' :: cs)
  rw [parseMember, quote, List.cons_append, skipBlanks_cons (by decide)]
  simp only [List.append_assoc, List.singleton_append, hq,
    skipBlanks_cons (show isBlank ':' = false by decide), h, Option.map_some]

theorem parseMembers_last {fuel : ℕ} {cs rest : List Char} {m : String × Json}
    (h : parseMember fuel cs = some (m, '}' :: rest)) :
    parseMembers (fuel + 1) cs = some ([m], rest) := by
  rw [parseMembers, h]
  rfl

theorem parseMembers_more {fuel : ℕ} {cs cs' rest : List Char} {m : String × Json}
    {ms : List (String × Json)} (h : parseMember fuel cs = some (m, ',' :: cs'))
    (hs : parseMembers fuel cs' = some (ms, rest)) :
    parseMembers (fuel + 1) cs = some (m :: ms, rest) := by
  rw [parseMembers, h]
  simp only [skipBlanks_cons (show isBlank ',' = false by decide), hs, Option.map_some]

theorem printItems_head (v : Json) (vs : List Json) :
    ∃ c cs, printItems (v :: vs) = c :: cs ∧ isBlank c = false ∧ c ≠ ']' := by
  obtain ⟨c, cs, hcs, hb, hne, -⟩ := print_head v
  cases vs with
  | nil => exact ⟨c, cs, by rw [printItems, hcs], hb, hne⟩
  | cons w vs => exact ⟨c, _, by rw [printItems, hcs, List.cons_append], hb, hne⟩

theorem printMembers_head (m : String × Json) (ms : List (String × Json)) :
    ∃ cs, printMembers (m :: ms) = '"' :: cs := by
  obtain ⟨k, v⟩ := m
  cases ms with
  | nil => exact ⟨_, by rw [printMembers, quote, List.cons_append]⟩
  | cons n ms => exact ⟨_, by rw [printMembers, quote, List.cons_append]⟩

mutual

/-- What the encoder prints reads back, whatever follows it that does not go on a number. -/
theorem parseValue_print : ∀ (v : Json) (fuel : ℕ) (rest : List Char),
    (print v).length ≤ fuel → EndsNumber rest → parseValue fuel (print v ++ rest) = some (v, rest)
  | .null, 0, _, hf, _ => by simp [print] at hf
  | .null, fuel + 1, rest, _, _ => by
    rw [parseValue, skipBlanks_print]
    rfl
  | .bool true, 0, _, hf, _ => by simp [print] at hf
  | .bool true, fuel + 1, rest, _, _ => by
    rw [parseValue, skipBlanks_print]
    rfl
  | .bool false, 0, _, hf, _ => by simp [print] at hf
  | .bool false, fuel + 1, rest, _, _ => by
    rw [parseValue, skipBlanks_print]
    rfl
  | .num n, 0, _, hf, _ => absurd (List.length_eq_zero_iff.mp (Nat.le_zero.mp hf)) n.nonempty
  | .num n, fuel + 1, rest, _, hrest => parseValue_num n fuel hrest
  | .str s, 0, _, hf, _ => by simp [print, quote] at hf
  | .str s, fuel + 1, rest, _, _ => by
    have hq := parseString_quote s rest
    rw [parseValue, skipBlanks_print]
    simp only [print, quote, List.cons_append, List.append_assoc, List.nil_append, hq,
      Option.map_some]
  | .arr items, 0, _, hf, _ => by simp [print] at hf
  | .arr [], fuel + 1, rest, _, _ => by
    rw [parseValue, skipBlanks_print]
    rfl
  | .arr (v :: vs), fuel + 1, rest, hf, _ => by
    have hitems := parseItems_print v vs fuel rest (by simp [print] at hf; omega)
    obtain ⟨c, cs, hcs, hb, hne⟩ := printItems_head v vs
    rw [parseValue, skipBlanks_print, print]
    rw [hcs] at hitems ⊢
    simp only [List.cons_append, List.append_assoc, List.nil_append, skipBlanks_cons hb] at hitems ⊢
    split
    · rename_i heq
      exact absurd (List.cons.inj heq).1 hne
    · rw [hitems, Option.map_some]
  | .obj members, 0, _, hf, _ => by simp [print] at hf
  | .obj [], fuel + 1, rest, _, _ => by
    rw [parseValue, skipBlanks_print]
    rfl
  | .obj (m :: ms), fuel + 1, rest, hf, _ => by
    have hitems := parseMembers_print m ms fuel rest (by simp [print] at hf; omega)
    obtain ⟨cs, hcs⟩ := printMembers_head m ms
    rw [parseValue, skipBlanks_print, print]
    rw [hcs] at hitems ⊢
    simp only [List.cons_append, List.append_assoc, List.nil_append,
      skipBlanks_cons (show isBlank '"' = false by decide)] at hitems ⊢
    rw [hitems, Option.map_some]
    rfl

theorem parseItems_print : ∀ (v : Json) (vs : List Json) (fuel : ℕ) (rest : List Char),
    (printItems (v :: vs)).length < fuel →
      parseItems fuel (printItems (v :: vs) ++ ']' :: rest) = some (v :: vs, rest)
  | _, _, 0, _, hf => by omega
  | v, [], fuel + 1, rest, hf => by
    have hv := parseValue_print v fuel (']' :: rest) (by simp [printItems] at hf; omega)
      (endsNumber_cons (by decide) rest)
    exact parseItems_last hv
  | v, w :: vs, fuel + 1, rest, hf => by
    have hv := parseValue_print v fuel (',' :: (printItems (w :: vs) ++ ']' :: rest))
      (by simp [printItems] at hf; omega) (endsNumber_cons (by decide) _)
    have hvs := parseItems_print w vs fuel rest (by simp [printItems] at hf ⊢; omega)
    rw [printItems, List.append_assoc, List.cons_append]
    exact parseItems_more hv hvs

theorem parseMembers_print : ∀ (m : String × Json) (ms : List (String × Json)) (fuel : ℕ)
    (rest : List Char), (printMembers (m :: ms)).length < fuel →
      parseMembers fuel (printMembers (m :: ms) ++ '}' :: rest) = some (m :: ms, rest)
  | _, _, 0, _, hf => by omega
  | _, _, 1, _, hf => by
    rename_i m ms _
    obtain ⟨cs, hcs⟩ := printMembers_head m ms
    simp [hcs] at hf
  | (k, v), [], fuel + 2, rest, hf => by
    have hv := parseValue_print v fuel ('}' :: rest)
      (by simp [printMembers, quote] at hf; omega) (endsNumber_cons (by decide) rest)
    rw [printMembers, List.append_assoc, List.cons_append]
    exact parseMembers_last (parseMember_quote hv)
  | (k, v), n :: ms, fuel + 2, rest, hf => by
    have hv := parseValue_print v fuel (',' :: (printMembers (n :: ms) ++ '}' :: rest))
      (by simp [printMembers, quote] at hf; omega) (endsNumber_cons (by decide) _)
    have hms := parseMembers_print n ms (fuel + 1) rest
      (by simp [printMembers, quote] at hf ⊢; omega)
    rw [printMembers]
    simp only [List.append_assoc, List.cons_append]
    exact parseMembers_more (parseMember_quote hv) hms

end

/-- The decoder reads the encoder's text back. -/
theorem parse_print (v : Json) : parse (print v) = some v := by
  have h := parseValue_print v (print v).length [] (Nat.le_refl _) endsNumber_nil
  rw [List.append_nil] at h
  rw [parse, h]
  rfl

/-! ## Bytes -/

theorem newline_notMem_escapeChar (c : Char) : '\n' ∉ escapeChar c := by
  have hhex : ∀ n < 16, hexDigit n ≠ '\n' := by decide
  have hbyte : c.toNat < 256 → '\n' ∉ escapeByte c.toNat := by
    intro h
    have h1 := hhex (c.toNat / 16) (by omega)
    have h2 := hhex (c.toNat % 16) (by omega)
    simp [escapeByte, h1.symm, h2.symm]
  unfold escapeChar
  split
  · decide
  split
  · decide
  split
  · decide
  split
  · decide
  split
  · decide
  split
  · decide
  split
  · decide
  split
  · rename_i h
    apply hbyte
    simp only [Bool.or_eq_true, decide_eq_true_eq] at h
    rcases h with ((h | rfl) | rfl) | rfl
    · omega
    all_goals decide
  split
  · decide
  split
  · decide
  · rename_i hne _ _ _ _ _ _ _
    simpa using fun h => hne h.symm

theorem newline_notMem_quote (s : String) : '\n' ∉ quote s := by
  simp only [quote, List.mem_cons, List.mem_append, List.mem_flatMap, List.not_mem_nil, or_false,
    not_or, not_exists, not_and]
  exact ⟨by decide, fun c _ => newline_notMem_escapeChar c, by decide⟩

mutual

theorem newline_notMem_print : ∀ v : Json, '\n' ∉ print v
  | .null => by decide
  | .bool true => by decide
  | .bool false => by decide
  | .num n => by
    intro h
    have hc : numChar '\n' = true := List.all_eq_true.mp n.numeric _ h
    exact absurd hc (by decide)
  | .str s => newline_notMem_quote s
  | .arr items => by
    have h := newline_notMem_printItems items
    simp only [print, List.mem_cons, List.mem_append, List.not_mem_nil, or_false, not_or]
    exact ⟨by decide, h, by decide⟩
  | .obj members => by
    have h := newline_notMem_printMembers members
    simp only [print, List.mem_cons, List.mem_append, List.not_mem_nil, or_false, not_or]
    exact ⟨by decide, h, by decide⟩

theorem newline_notMem_printItems : ∀ vs : List Json, '\n' ∉ printItems vs
  | [] => by simp [printItems]
  | [v] => newline_notMem_print v
  | v :: w :: vs => by
    have hv := newline_notMem_print v
    have hvs := newline_notMem_printItems (w :: vs)
    simp only [printItems, List.mem_cons, List.mem_append, not_or]
    exact ⟨hv, by decide, hvs⟩

theorem newline_notMem_printMembers : ∀ ms : List (String × Json), '\n' ∉ printMembers ms
  | [] => by simp [printMembers]
  | [(k, v)] => by
    have hk := newline_notMem_quote k
    have hv := newline_notMem_print v
    simp only [printMembers, List.mem_cons, List.mem_append, not_or]
    exact ⟨hk, by decide, hv⟩
  | (k, v) :: m :: ms => by
    have hk := newline_notMem_quote k
    have hv := newline_notMem_print v
    have hms := newline_notMem_printMembers (m :: ms)
    simp only [printMembers, List.mem_cons, List.mem_append, not_or]
    exact ⟨hk, by decide, hv, by decide, hms⟩

end

/-- The bytes of a text. -/
def utf8 (cs : List Char) : List UInt8 := cs.flatMap String.utf8EncodeChar

/-- How many bytes a sequence takes, told from its first. -/
def sequenceLength (b : UInt8) : ℕ :=
  if b.toNat < 0x80 then 1 else if b.toNat < 0xE0 then 2 else if b.toNat < 0xF0 then 3 else 4

/-- The code point the payload bits of a sequence spell. -/
def codePoint : List UInt8 → ℕ
  | [a] => a.toNat
  | [a, b] => a.toNat % 32 * 64 + b.toNat % 64
  | [a, b, c] => (a.toNat % 16 * 64 + b.toNat % 64) * 64 + c.toNat % 64
  | [a, b, c, d] => ((a.toNat % 8 * 64 + b.toNat % 64) * 64 + c.toNat % 64) * 64 + d.toNat % 64
  | _ => 0

/-- The text of some bytes, one sequence at a time: none at a sequence that is not the shortest
one of its character. -/
def decodeUtf8 : ℕ → List UInt8 → Option (List Char)
  | _, [] => some []
  | 0, _ :: _ => none
  | n + 1, b :: bs =>
    let k := sequenceLength b
    let c := Char.ofNat (codePoint ((b :: bs).take k))
    if String.utf8EncodeChar c = (b :: bs).take k then
      (decodeUtf8 n ((b :: bs).drop k)).map (c :: ·)
    else none

def ofUtf8 (bytes : List UInt8) : Option (List Char) := decodeUtf8 bytes.length bytes

theorem utf8EncodeChar_spec (c : Char) : ∃ b bs, String.utf8EncodeChar c = b :: bs ∧
    sequenceLength b = (b :: bs).length ∧ codePoint (b :: bs) = c.toNat := by
  have hlt : c.toNat < 0x110000 := by
    have h : c.toNat < 0xD800 ∨ 0xDFFF < c.toNat ∧ c.toNat < 0x110000 := c.valid
    omega
  have hbyte : ∀ n : ℕ, n < 256 → (UInt8.ofNat n).toNat = n := by
    intro n hn
    simpa using hn
  unfold String.utf8EncodeChar
  change c.val.toNat < 0x110000 at hlt
  change ∃ b bs, _ ∧ _ ∧ _ = c.val.toNat
  generalize c.val.toNat = v at hlt
  simp only
  split
  · refine ⟨_, _, rfl, ?_, ?_⟩
    · rw [sequenceLength, hbyte v (by omega), if_pos (by omega)]
      rfl
    · rw [codePoint, hbyte v (by omega)]
  split
  · refine ⟨_, _, rfl, ?_, ?_⟩
    · rw [sequenceLength, hbyte _ (by omega), if_neg (by omega), if_pos (by omega)]
      rfl
    · rw [codePoint, hbyte _ (by omega), hbyte _ (by omega)]
      omega
  split
  · refine ⟨_, _, rfl, ?_, ?_⟩
    · rw [sequenceLength, hbyte _ (by omega), if_neg (by omega), if_neg (by omega),
        if_pos (by omega)]
      rfl
    · rw [codePoint, hbyte _ (by omega), hbyte _ (by omega), hbyte _ (by omega)]
      omega
  · refine ⟨_, _, rfl, ?_, ?_⟩
    · rw [sequenceLength, hbyte _ (by omega), if_neg (by omega), if_neg (by omega),
        if_neg (by omega)]
      rfl
    · rw [codePoint, hbyte _ (by omega), hbyte _ (by omega), hbyte _ (by omega),
        hbyte _ (by omega)]
      omega

theorem decodeUtf8_utf8 (cs : List Char) (n : ℕ) (h : (utf8 cs).length ≤ n) :
    decodeUtf8 n (utf8 cs) = some cs := by
  induction cs generalizing n with
  | nil => cases n <;> rfl
  | cons c cs ih =>
    obtain ⟨b, bs, hc, hlen, hcode⟩ := utf8EncodeChar_spec c
    have hcons : utf8 (c :: cs) = b :: (bs ++ utf8 cs) := by
      rw [utf8, List.flatMap_cons, hc, List.cons_append, utf8]
    rw [hcons] at h ⊢
    cases n with
    | zero => simp at h
    | succ n =>
      have htake : (b :: (bs ++ utf8 cs)).take (sequenceLength b) = b :: bs := by
        rw [hlen, ← List.cons_append]
        exact List.take_left
      have hdrop : (b :: (bs ++ utf8 cs)).drop (sequenceLength b) = utf8 cs := by
        rw [hlen, ← List.cons_append]
        exact List.drop_left
      have hn : (utf8 cs).length ≤ n := by
        simp only [List.length_cons, List.length_append] at h
        omega
      simp only [decodeUtf8, htake, hdrop, hcode, Char.ofNat_toNat, hc, if_true, ih n hn,
        Option.map_some]

theorem ofUtf8_utf8 (cs : List Char) : ofUtf8 (utf8 cs) = some cs :=
  decodeUtf8_utf8 cs _ (Nat.le_refl _)

theorem ten_notMem_utf8EncodeChar {c : Char} (h : c ≠ '\n') :
    (10 : UInt8) ∉ String.utf8EncodeChar c := by
  have hv : c.val.toNat ≠ 10 := by
    intro hv
    apply h
    rw [← Char.ofNat_toNat c]
    exact congrArg Char.ofNat hv
  have hbyte : ∀ n : ℕ, (10 : UInt8) = UInt8.ofNat n → n % 256 = 10 := by
    intro n hn
    have := congrArg UInt8.toNat hn
    simpa using this.symm
  unfold String.utf8EncodeChar
  generalize c.val.toNat = v at hv
  simp only
  split
  · intro hm
    have := hbyte v (List.mem_singleton.mp hm)
    omega
  intro hm
  split at hm
  · rcases List.mem_cons.mp hm with hm | hm
    · have := hbyte _ hm
      omega
    · have := hbyte _ (List.mem_singleton.mp hm)
      omega
  split at hm
  · simp only [List.mem_cons, List.not_mem_nil, or_false] at hm
    rcases hm with hm | hm | hm <;> have := hbyte _ hm <;> omega
  · simp only [List.mem_cons, List.not_mem_nil, or_false] at hm
    rcases hm with hm | hm | hm | hm <;> have := hbyte _ hm <;> omega

theorem newline_notMem_utf8 {cs : List Char} (h : '\n' ∉ cs) : (10 : UInt8) ∉ utf8 cs := by
  intro hm
  obtain ⟨c, hc, hb⟩ := List.mem_flatMap.mp hm
  exact ten_notMem_utf8EncodeChar (fun heq => h (heq ▸ hc)) hb

end Json
end Marotte
