import Marotte.TextSearch.Codes

/-! # Search positions are true

The hits of the server address the runes of the original text that fold to the needle, and the
client finds the same runes at their UTF-16 index.
-/
namespace Marotte.TextSearch

open Runes

variable {toLower : Char → Char} {toLowerCase : Units → Units} {s text : Bytes} {c : Char}

/-! ## The folded text -/

@[simp] theorem flat_runeCode (ps : List Piece) : runeCode.flat ps = ps.flatMap Piece.units := rfl

theorem pieces_runes (cs : List Char) :
    pieces (cs.flatMap String.utf8EncodeChar) = cs.map .rune := by
  have h := pieces_encodes cs []
  rw [List.append_nil, pieces_nil, List.append_nil] at h
  exact h

/-- Folding keeps the runes apart: each is lowercased where it stands. -/
theorem pieces_fold (toLower : Char → Char) (s : Bytes) :
    pieces (fold toLower s) = (pieces s).map fun p => .rune (toLower p.char) := by
  have hflat : fold toLower s
      = ((pieces s).map fun p => toLower p.char).flatMap String.utf8EncodeChar := by
    rw [fold, List.flatMap_map]
  rw [hflat, pieces_runes, List.map_map]
  rfl

/-- How a needle compares a rune of the text: lowercased, or as it stands. -/
def Needle.read (toLower : Char → Char) (n : Needle) (p : Piece) : Piece :=
  if n.caseSensitive then p else .rune (toLower p.char)

theorem pieces_hay (n : Needle) (text : Bytes) :
    pieces (n.hay toLower text) = (pieces text).map (n.read toLower) := by
  rw [Needle.hay]
  split
  · next h =>
    have hread : n.read toLower = id := by
      funext p
      simp [Needle.read, h]
    rw [hread, List.map_id]
  · next h =>
    rw [pieces_fold]
    congr 1
    funext p
    simp [Needle.read, h]

/-- A query made valid holds whole runes only. -/
theorem pieces_toValid (invalid : Bool) (ps : List Piece) :
    ∃ cs : List Char, toValid invalid ps = cs.flatMap String.utf8EncodeChar := by
  induction ps generalizing invalid with
  | nil => exact ⟨[], rfl⟩
  | cons p ps ih =>
    cases p with
    | rune c =>
      obtain ⟨cs, hcs⟩ := ih false
      exact ⟨c :: cs, by rw [toValid, hcs, List.flatMap_cons]⟩
    | stray b =>
      obtain ⟨cs, hcs⟩ := ih true
      rw [toValid]
      split
      · exact ⟨cs, hcs⟩
      · exact ⟨replacement :: cs, by rw [hcs, List.flatMap_cons]⟩

theorem toValid_runes (cs : List Char) :
    toValid false (cs.map Piece.rune) = cs.flatMap String.utf8EncodeChar := by
  induction cs with
  | nil => rfl
  | cons c cs ih => rw [List.map_cons, toValid, ih, List.flatMap_cons]

theorem newNeedle_whole (toLower : Char → Char) (query : Bytes) (caseSensitive : Bool) :
    ∀ p ∈ pieces (newNeedle toLower query caseSensitive).text, runeCode.Whole p := by
  intro p hp
  obtain ⟨cs, hcs⟩ := pieces_toValid false (pieces query)
  simp only [newNeedle, toValidUTF8] at hp
  split at hp
  · rw [hcs, pieces_runes, List.mem_map] at hp
    obtain ⟨c, _, rfl⟩ := hp
    exact ⟨c, rfl⟩
  · rw [pieces_fold, List.mem_map] at hp
    obtain ⟨q, _, rfl⟩ := hp
    exact ⟨_, rfl⟩

theorem newNeedle_runes (toLower : Char → Char) (query : Bytes) (caseSensitive : Bool) :
    (newNeedle toLower query caseSensitive).runes
      = (pieces (newNeedle toLower query caseSensitive).text).length :=
  rfl

/-! ## The scan -/

/-- The byte a rune of a string begins at. -/
def runeOffset (s : Bytes) (r : ℕ) : ℕ :=
  (((pieces s).take r).flatMap Piece.units).length

theorem runeOffset_eq (s : Bytes) (r : ℕ) : runeOffset s r = runeCode.offset (pieces s) r := rfl

theorem width_decodeRune (s : Bytes) : (decodeRuneInString s).2 = runeOffset s 1 := by
  cases s with
  | nil => simp [decodeRuneInString, runeOffset]
  | cons b s =>
    cases h : decodeRune (b :: s) with
    | none => simp [decodeRuneInString, runeOffset, h, pieces_stray h, Piece.units]
    | some c =>
      obtain ⟨rest, hrest⟩ := exists_of_decodeRune h
      have hpieces : pieces (b :: s) = .rune c :: pieces rest := by rw [hrest, pieces_encode]
      simp [decodeRuneInString, runeOffset, h, hpieces, Piece.units]

theorem split_pieces (s : Bytes) : runeCode.split (runeCode.flat (pieces s)) = pieces s := by
  rw [flat_runeCode, flatMap_pieces]
  rfl

/-- Behind the first runes of a string stand the runes behind them. -/
theorem pieces_drop (s : Bytes) (r : ℕ) :
    pieces (s.drop (runeOffset s r)) = (pieces s).drop r := by
  have hflat : runeCode.flat (pieces s) = s := flatMap_pieces s
  have hdrop := runeCode.drop_offset (pieces s) r
  rw [hflat, ← runeOffset_eq] at hdrop
  rw [hdrop]
  exact runeCode.split_drop (split_pieces s) r

theorem runeOffset_add (s : Bytes) (r n : ℕ) :
    runeOffset s (r + n) = runeOffset s r + runeOffset (s.drop (runeOffset s r)) n := by
  rw [runeOffset_eq, runeCode.offset_add, ← runeOffset_eq, ← pieces_drop, ← runeOffset_eq]

theorem advanceRunes_eq (s : Bytes) (r n : ℕ) :
    advanceRunes s (runeOffset s r) n = runeOffset s (r + n) := by
  induction n generalizing r with
  | zero => rfl
  | succ n ih =>
    rw [advanceRunes, width_decodeRune, ← runeOffset_add, ih]
    congr 1
    omega

theorem flatMap_take_drop (s : Bytes) (r : ℕ) :
    ((pieces s).take r).flatMap Piece.units ++ ((pieces s).drop r).flatMap Piece.units = s := by
  rw [← List.flatMap_append, List.take_append_drop, flatMap_pieces]

/-- A string cut where a rune begins is read as the runes before the cut. -/
theorem pieces_take (s : Bytes) (r : ℕ) :
    pieces (((pieces s).take r).flatMap Piece.units) = (pieces s).take r := by
  induction r generalizing s with
  | zero => simp
  | succ r ih =>
    cases s with
    | nil => simp
    | cons b s =>
      cases h : decodeRune (b :: s) with
      | some c =>
        obtain ⟨rest, hrest⟩ := exists_of_decodeRune h
        rw [hrest, pieces_encode, List.take_succ_cons, List.flatMap_cons]
        rw [Piece.units, pieces_encode, ih]
      | none =>
        rw [pieces_stray h, List.take_succ_cons, List.flatMap_cons]
        rw [Piece.units, List.singleton_append, pieces_stray, ih]
        by_contra hread
        obtain ⟨c, hc⟩ := Option.ne_none_iff_exists'.1 hread
        obtain ⟨rest, hrest⟩ := exists_of_decodeRune hc
        rw [← flatMap_take_drop s r, ← List.cons_append, hrest, List.append_assoc,
          decodeRune_encode] at h
        simp at h

/-- The gap the scan counts before a hit: the runes of the text up to it. -/
theorem runeCount_take (s : Bytes) {r : ℕ} (hr : r ≤ (pieces s).length) :
    runeCountInString (s.take (runeOffset s r)) = r := by
  have hcut : s.take (runeOffset s r) = ((pieces s).take r).flatMap Piece.units := by
    have hparts := flatMap_take_drop s r
    generalize hfront : ((pieces s).take r).flatMap Piece.units = front at hparts
    rw [runeOffset, hfront, ← hparts, List.take_left]
  rw [runeCountInString, hcut, pieces_take, List.length_take_of_le hr]

variable {n : Needle} {hay : Bytes}

theorem scan_none {hn : n.text ≠ []} {hp : ℕ} {hit : Hit}
    (h : indexOf n.text (hay.drop hp) = none) : n.scan hn hay text hp hit = [] := by
  rw [Needle.scan]
  split
  · rfl
  · simp_all

theorem scan_some {hn : n.text ≠ []} {hp pos : ℕ} {hit : Hit}
    (h : indexOf n.text (hay.drop hp) = some pos) :
    n.scan hn hay text hp hit =
      let gap := runeCountInString ((hay.drop hp).take pos)
      let hit : Hit := { byte := advanceRunes text hit.byte gap, rune := hit.rune + gap }
      hit :: n.scan hn hay text (hp + (pos + n.text.length))
        { byte := advanceRunes text hit.byte n.runes, rune := hit.rune + n.runes } := by
  rw [Needle.scan]
  split
  · simp_all
  · simp_all

/-- A hit at a rune of the text. -/
def hitAt (text : Bytes) (r : ℕ) : Hit :=
  { rune := r, byte := runeOffset text r }

/-- The scan, from a rune on, finds the runes that a search over the runes of the folded text
finds, each with its byte in the original text. -/
theorem scan_eq (hn : n.text ≠ []) (hruns : n.runes = (pieces n.text).length)
    (hwhole : ∀ p ∈ pieces n.text, runeCode.Whole p) (hne : pieces n.text ≠ []) (r : ℕ) :
    n.scan hn hay text (runeOffset hay r) (hitAt text r)
      = (leftmostFrom (pieces n.text) (pieces hay) hne r).map (hitAt text) := by
  have hfind : ∀ k, indexOf n.text (hay.drop (runeOffset hay k))
      = (indexOf (pieces n.text) ((pieces hay).drop k)).map
          (runeOffset (hay.drop (runeOffset hay k))) := by
    intro k
    have hindex := runeCode.indexOf_flat hne hwhole (runeCode.split_drop (split_pieces hay) k)
    rw [← pieces_drop, flat_runeCode, flat_runeCode, flatMap_pieces, flatMap_pieces] at hindex
    rw [hindex, ← pieces_drop]
    rfl
  induction r using leftmostFrom.induct (pieces n.text) (pieces hay) hne with
  | case1 r hnone =>
    rw [leftmostFrom_none hnone, List.map_nil, scan_none]
    rw [hfind, hnone, Option.map_none]
  | case2 r i hsome ih =>
    have hat := hfind r
    rw [hsome, Option.map_some] at hat
    have hle := indexOf_le hne hsome
    rw [leftmostFrom_some hsome, List.map_cons, scan_some hat, ← ih]
    have hgap : runeCountInString ((hay.drop (runeOffset hay r)).take
        (runeOffset (hay.drop (runeOffset hay r)) i)) = i := by
      apply runeCount_take
      rw [pieces_drop]
      omega
    have hmatch : pieces n.text <+: (pieces hay).drop (r + i) := by
      rw [← List.drop_drop]
      exact (indexOf_some hsome).1
    have hlength : runeOffset (hay.drop (runeOffset hay (r + i))) (pieces n.text).length
        = n.text.length := by
      rw [runeOffset, pieces_drop, ← List.prefix_iff_eq_take.1 hmatch, flatMap_pieces]
    have hbehind : runeOffset hay r + (runeOffset (hay.drop (runeOffset hay r)) i + n.text.length)
        = runeOffset hay (r + i + (pieces n.text).length) := by
      rw [runeOffset_add hay (r + i), hlength, runeOffset_add hay r i]
      omega
    simp only [hgap, hitAt, advanceRunes_eq, hruns, hbehind]

/-! ## Both searches -/

variable {caseSensitive : Bool}

theorem pieces_ne_nil (h : s ≠ []) : pieces s ≠ [] := by
  intro hnil
  have hflat := flatMap_pieces s
  rw [hnil, List.flatMap_nil] at hflat
  exact h hflat.symm

theorem occurrences_eq (query text : Bytes)
    (hn : (newNeedle toLower query caseSensitive).text ≠ []) :
    (newNeedle toLower query caseSensitive).occurrences toLower text
      = (leftmostFrom (pieces (newNeedle toLower query caseSensitive).text)
          (pieces ((newNeedle toLower query caseSensitive).hay toLower text))
          (pieces_ne_nil hn) 0).map (hitAt text) := by
  rw [Needle.occurrences, dif_neg hn]
  exact scan_eq hn (newNeedle_runes toLower query caseSensitive)
    (newNeedle_whole toLower query caseSensitive) (pieces_ne_nil hn) 0

/-- The hits of a needle are true: their runes are those the greedy leftmost matches of the folded
needle in the folded text begin at, their bytes are those of the same runes in the original text,
and the runes of the original from there on fold to the needle. -/
structure TruePositions (toLower : Char → Char) (n : Needle) (text : Bytes) (hits : List Hit) :
    Prop where
  none_of_empty : n.text = [] → hits = []
  greedy : n.text ≠ [] → Greedy n.text (n.hay toLower text)
    (hits.map fun h => runeOffset (n.hay toLower text) h.rune)
  byte : ∀ h ∈ hits, h.byte = runeOffset text h.rune
  folds : ∀ h ∈ hits,
    (((pieces text).drop h.rune).take n.runes).map (n.read toLower) = pieces n.text

theorem truePositions (toLower : Char → Char) (query text : Bytes) (caseSensitive : Bool) :
    TruePositions toLower (newNeedle toLower query caseSensitive) text
      ((newNeedle toLower query caseSensitive).occurrences toLower text) := by
  by_cases hn : (newNeedle toLower query caseSensitive).text = []
  · have hnone : (newNeedle toLower query caseSensitive).occurrences toLower text = [] := by
      rw [Needle.occurrences, dif_pos hn]
    rw [hnone]
    exact ⟨fun _ => rfl, fun h => absurd hn h, by simp, by simp⟩
  have hwhole := newNeedle_whole toLower query caseSensitive
  have hruns := newNeedle_runes toLower query caseSensitive
  have hhits := occurrences_eq query text hn
  generalize newNeedle toLower query caseSensitive = n at *
  rw [hhits]
  constructor
  · exact fun h => absurd h hn
  · intro _
    have hflat := runeCode.leftmostFrom_flat (pieces_ne_nil hn)
      (runeCode.flat_ne_nil (pieces_ne_nil hn) hwhole) hwhole
      (split_pieces (n.hay toLower text)) 0
    have hgreedy := leftmostFrom_greedy (runeCode.flat (pieces (n.hay toLower text)))
      (runeCode.flat_ne_nil (pieces_ne_nil hn) hwhole)
    rw [← runeCode.offset_zero, hflat] at hgreedy
    simp only [flat_runeCode, flatMap_pieces] at hgreedy
    rw [List.map_map]
    exact hgreedy
  · intro h hh
    obtain ⟨r, _, rfl⟩ := List.mem_map.1 hh
    rfl
  · intro h hh
    obtain ⟨r, hr, rfl⟩ := List.mem_map.1 hh
    have hmatch := (leftmostFrom_greedy _ (pieces_ne_nil hn)).matched r hr
    rw [hitAt, List.map_take, List.map_drop, ← pieces_hay, hruns]
    exact (List.prefix_iff_eq_take.1 hmatch).symm

/-- The two lowercase tables agree: a character other than U+0130, which both map to `i`, is
lowercased to the same character, and one unit stays one unit. -/
structure TablesAgree (toLower : Char → Char) (toLowerCase : Units → Units) : Prop where
  same : ∀ c, c ≠ '\u0130' → toLowerCase (utf16 c) = utf16 (toLower c)
  dotted : toLower '\u0130' = 'i'
  length : ∀ c, (utf16 (toLower c)).length = (utf16 c).length

def utf8Text (cs : List Char) : Bytes :=
  cs.flatMap String.utf8EncodeChar

def utf16Text (cs : List Char) : Units :=
  cs.flatMap utf16

/-- The characters a valid text is compared by. -/
def folded (toLower : Char → Char) (caseSensitive : Bool) (cs : List Char) : List Char :=
  if caseSensitive then cs else cs.map toLower

theorem codePoints_utf16Text (cs : List Char) : codePoints (utf16Text cs) = cs.map utf16 := by
  induction cs with
  | nil => simp [utf16Text, codePoints]
  | cons c cs ih =>
    rw [utf16Text, List.flatMap_cons, codePoints_utf16, List.map_cons]
    rw [← ih, utf16Text]

theorem foldUnits_utf16Text (h : TablesAgree toLower toLowerCase) (cs : List Char) :
    foldUnits toLowerCase (utf16Text cs) = utf16Text (cs.map toLower) := by
  rw [foldUnits, codePoints_utf16Text, utf16Text, List.flatMap_map, List.flatMap_map]
  congr 1
  funext c
  by_cases hc : c = '\u0130'
  · subst hc
    rw [if_pos (by decide), h.dotted]
  · rw [if_neg, h.same c hc]
    intro heq
    exact hc (utf16_injective (heq.trans (by decide)))

theorem fold_utf8Text (cs : List Char) :
    fold toLower (utf8Text cs) = utf8Text (cs.map toLower) := by
  rw [fold, utf8Text, pieces_runes, List.flatMap_map, utf8Text, List.flatMap_map]
  rfl

theorem hay_utf8Text (n : Needle) (cs : List Char) :
    n.hay toLower (utf8Text cs) = utf8Text (folded toLower n.caseSensitive cs) := by
  rw [Needle.hay, folded]
  split
  · rfl
  · rw [fold_utf8Text]

theorem newNeedle_utf8Text (toLower : Char → Char) (caseSensitive : Bool) (query : List Char) :
    (newNeedle toLower (utf8Text query) caseSensitive).text
      = utf8Text (folded toLower caseSensitive query) := by
  have hvalid : toValidUTF8 (utf8Text query) = utf8Text query := by
    rw [toValidUTF8, utf8Text, pieces_runes, toValid_runes]
  simp only [newNeedle, hvalid, folded]
  split
  · rfl
  · rw [fold_utf8Text]

theorem prepare_utf16Text (h : TablesAgree toLower toLowerCase) (caseSensitive : Bool)
    (query : List Char) :
    (prepare toLowerCase (utf16Text query) caseSensitive).text
      = utf16Text (folded toLower caseSensitive query) := by
  simp only [prepare, folded]
  split
  · rfl
  · rw [foldUnits_utf16Text h]

theorem utf8Text_eq_nil {cs : List Char} : utf8Text cs = [] ↔ cs = [] := by
  cases cs <;> simp [utf8Text, String.utf8EncodeChar_ne_nil]

theorem utf16Text_eq_nil {cs : List Char} : utf16Text cs = [] ↔ cs = [] := by
  cases cs <;> simp [utf16Text, utf16_ne_nil]

theorem length_utf16Text_map (h : TablesAgree toLower toLowerCase) (cs : List Char) :
    (utf16Text (cs.map toLower)).length = (utf16Text cs).length := by
  induction cs with
  | nil => rfl
  | cons c cs ih =>
    simp only [utf16Text, List.map_cons, List.flatMap_cons, List.length_append, h.length] at ih ⊢
    rw [ih]

theorem length_take_folded (h : TablesAgree toLower toLowerCase) (cs : List Char) (r : ℕ) :
    (utf16Text ((folded toLower caseSensitive cs).take r)).length
      = (utf16Text (cs.take r)).length := by
  rw [folded]
  split
  · rfl
  · rw [← List.map_take, length_utf16Text_map h]

/-- A search over the code units of a valid text finds the characters that a search over its
characters finds. -/
theorem leftmostFrom_utf16Text {needle hay : List Char} (hn : needle ≠ [])
    (hunits : utf16Text needle ≠ []) :
    leftmostFrom (utf16Text needle) (utf16Text hay) hunits 0
      = (leftmostFrom needle hay hn 0).map fun r => (utf16Text (hay.take r)).length := by
  have hflat : ∀ cs : List Char, unitCode.flat (cs.map utf16) = utf16Text cs := by
    intro cs
    exact List.flatMap_map ..
  have hwhole : ∀ cp ∈ needle.map utf16, unitCode.Whole cp := by
    intro cp hcp
    obtain ⟨c, _, rfl⟩ := List.mem_map.1 hcp
    exact ⟨c, rfl⟩
  have hmap : needle.map utf16 ≠ [] := by simpa using hn
  have hread : unitCode.split (unitCode.flat (hay.map utf16)) = hay.map utf16 := by
    rw [hflat]
    exact codePoints_utf16Text hay
  have hfound := unitCode.leftmostFrom_flat hmap (unitCode.flat_ne_nil hmap hwhole) hwhole hread 0
  rw [leftmostFrom_map utf16_injective hn hmap] at hfound
  simp only [hflat, SyncCode.offset_zero] at hfound
  rw [hfound]
  congr 1
  funext r
  rw [SyncCode.offset, ← List.map_take, hflat]

theorem rune_injective : Function.Injective Piece.rune := by
  intro c d h
  injection h

/-- On valid text the client finds the server's hits, each at the UTF-16 index of its rune. -/
theorem occurrences_utf16Text (h : TablesAgree toLower toLowerCase) (query text : List Char)
    (caseSensitive : Bool) :
    occurrences toLowerCase (utf16Text text)
        (prepare toLowerCase (utf16Text query) caseSensitive)
      = ((newNeedle toLower (utf8Text query) caseSensitive).occurrences toLower
          (utf8Text text)).map fun hit => (utf16Text (text.take hit.rune)).length := by
  have hneedle := newNeedle_utf8Text toLower caseSensitive query
  have hprepared := prepare_utf16Text h caseSensitive query
  have hhay : (if (prepare toLowerCase (utf16Text query) caseSensitive).caseSensitive
      then utf16Text text else foldUnits toLowerCase (utf16Text text))
      = utf16Text (folded toLower caseSensitive text) := by
    rw [foldUnits_utf16Text h, folded]
    split <;> simp_all [prepare]
  by_cases hempty : folded toLower caseSensitive query = []
  · have hserver := hneedle.trans (utf8Text_eq_nil.2 hempty)
    have hclient := hprepared.trans (utf16Text_eq_nil.2 hempty)
    rw [occurrences, Needle.occurrences, dif_pos hserver, dif_pos hclient, List.map_nil]
  · have hserver : (newNeedle toLower (utf8Text query) caseSensitive).text ≠ [] := by
      rw [hneedle]
      exact mt utf8Text_eq_nil.1 hempty
    have hclient : (prepare toLowerCase (utf16Text query) caseSensitive).text ≠ [] := by
      rw [hprepared]
      exact mt utf16Text_eq_nil.1 hempty
    rw [occurrences, dif_neg hclient, occurrences_eq _ _ hserver]
    simp only [hhay, hprepared, hneedle, hay_utf8Text]
    rw [leftmostFrom_utf16Text hempty]
    have hmap : (folded toLower caseSensitive query).map Piece.rune ≠ [] := by simpa using hempty
    have hcase : (newNeedle toLower (utf8Text query) caseSensitive).caseSensitive
      = caseSensitive := rfl
    have hrunes : ∀ cs : List Char, pieces (utf8Text cs) = cs.map Piece.rune := pieces_runes
    simp only [hrunes, hcase]
    rw [leftmostFrom_map rune_injective hempty hmap, List.map_map]
    congr 1
    funext r
    exact length_take_folded h text r

/-- Search positions are true: every hit of the server addresses a greedy leftmost match of the
folded needle in the folded text, at the byte of the same rune of the original text, and where the
lowercase tables agree the client finds the same matches of a valid text. -/
theorem occurrences_true (toLower : Char → Char) (toLowerCase : Units → Units) :
    (∀ (query text : Bytes) (caseSensitive : Bool),
      TruePositions toLower (newNeedle toLower query caseSensitive) text
        ((newNeedle toLower query caseSensitive).occurrences toLower text))
    ∧ (TablesAgree toLower toLowerCase → ∀ (query text : List Char) (caseSensitive : Bool),
      occurrences toLowerCase (utf16Text text)
          (prepare toLowerCase (utf16Text query) caseSensitive)
        = ((newNeedle toLower (utf8Text query) caseSensitive).occurrences toLower
            (utf8Text text)).map fun hit => (utf16Text (text.take hit.rune)).length) := by
  constructor
  · intro query text caseSensitive
    exact truePositions toLower query text caseSensitive
  · intro h query text caseSensitive
    exact occurrences_utf16Text h query text caseSensitive

/-- Tables that lowercase the letters of ASCII and U+0130. -/
def lowerAscii (c : Char) : Char :=
  if c = '\u0130' then 'i' else c.toLower

def lowerAsciiUnits (s : Units) : Units :=
  s.map fun u => if 65 ≤ u ∧ u ≤ 90 then u + 32 else u

theorem utf16_toLower (c : Char) : lowerAsciiUnits (utf16 c) = utf16 c.toLower := by
  by_cases h : 'A'.val ≤ c.val ∧ c.val ≤ 'Z'.val
  · have hlow : 65 ≤ c.val.toNat := UInt32.le_iff_toNat_le.1 h.1
    have hhigh : c.val.toNat ≤ 90 := UInt32.le_iff_toNat_le.1 h.2
    have hlower : c.toLower.val = c.val + 32 := congrArg Char.val (dif_pos h)
    have hval : c.toLower.val.toNat = c.val.toNat + 32 := by
      rw [hlower, UInt32.toNat_add]
      exact Nat.mod_eq_of_lt (by change c.val.toNat + 32 < 4294967296; omega)
    simp only [utf16, hval]
    rw [if_pos (by omega), if_pos (by omega), lowerAsciiUnits, List.map_singleton,
      if_pos ⟨hlow, hhigh⟩]
  · have hsame : c.toLower = c := dif_neg h
    have hno : ¬ (65 ≤ c.val.toNat ∧ c.val.toNat ≤ 90) := by
      intro hyes
      exact h ⟨UInt32.le_iff_toNat_le.2 hyes.1, UInt32.le_iff_toNat_le.2 hyes.2⟩
    rw [hsame, utf16]
    split
    · rw [lowerAsciiUnits, List.map_singleton, if_neg hno]
    · rw [lowerAsciiUnits, List.map_cons, List.map_singleton, if_neg (by omega), if_neg (by omega)]

theorem lowerAscii_agree : TablesAgree lowerAscii lowerAsciiUnits where
  same := by
    intro c hc
    rw [lowerAscii, if_neg hc, utf16_toLower]
  dotted := by decide
  length := by
    intro c
    rw [lowerAscii]
    split
    · next h => rw [h]; decide
    · rw [← utf16_toLower, lowerAsciiUnits, List.length_map]

/-- U+0130 takes two bytes and its lowercase one, and U+1D11E two code units. -/
def clefText : List Char :=
  [Char.ofNat 0x1D11E, '\u0130', 'A', 'I']

theorem occurrences_true_clef :
    TruePositions lowerAscii (newNeedle lowerAscii (utf8Text ['a', 'i']) false)
        (utf8Text clefText)
        ((newNeedle lowerAscii (utf8Text ['a', 'i']) false).occurrences lowerAscii
          (utf8Text clefText))
      ∧ occurrences lowerAsciiUnits (utf16Text clefText)
          (prepare lowerAsciiUnits (utf16Text ['a', 'i']) false) = [3] := by
  refine ⟨(occurrences_true lowerAscii lowerAsciiUnits).1 _ _ _, ?_⟩
  rw [(occurrences_true lowerAscii lowerAsciiUnits).2 lowerAscii_agree]
  decide +kernel

end Marotte.TextSearch
