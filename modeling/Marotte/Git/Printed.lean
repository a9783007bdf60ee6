import Marotte.Git.Porcelain

/-! # A printed status is read back

What each part of a record is cut into, and the status read from the records in order.
-/
namespace Marotte.Git

open Runes

variable {sep : UInt8} {s w rest : Bytes} {n : ℕ} {st : PorcelainStatus} {records : List Record}

/-! ## Cutting -/

theorem cut_append (h : sep ∉ w) (rest : Bytes) : cut sep (w ++ sep :: rest) = some (w, rest) := by
  have hall : ∀ b ∈ w, decide (b ≠ sep) = true := by
    intro b hb
    rw [decide_eq_true_eq]
    exact fun heq => h (heq ▸ hb)
  rw [cut, List.dropWhile_append_of_pos hall, List.takeWhile_append_of_pos hall]
  simp

theorem spaced_cons (w : Bytes) (words : List Bytes) (last : Bytes) :
    spaced (w :: words) last = w ++ space :: spaced words last := by
  simp [spaced]

theorem splitN_spaced {words : List Bytes} (h : ∀ w ∈ words, space ∉ w) (last : Bytes) :
    splitN space (words.length + 1) (spaced words last) = words ++ [last] := by
  induction words with
  | nil => rfl
  | cons w words ih =>
    rw [List.length_cons, splitN, spaced_cons, cut_append (h w List.mem_cons_self)]
    simp only [List.cons_append]
    rw [ih fun v hv => h v (List.mem_cons_of_mem w hv)]

theorem splitOn_parts {parts : List Bytes} (h : ∀ p ∈ parts, 0 ∉ p) :
    (parts.flatMap (· ++ [0])).splitOn 0 = parts ++ [[]] := by
  induction parts with
  | nil => rfl
  | cons p parts ih =>
    rw [List.flatMap_cons, List.append_assoc, List.singleton_append,
      List.splitOn_append_cons_self_of_not_mem (h p List.mem_cons_self),
      ih fun q hq => h q (List.mem_cons_of_mem p hq), List.cons_append]

/-! ## Counts -/

theorem digits_digit {b : UInt8} (h : b ∈ digits n) : 48 ≤ b.toNat ∧ b.toNat ≤ 57 := by
  rw [digits, List.mem_map] at h
  obtain ⟨c, hc, rfl⟩ := h
  have hdigit := Nat.isDigit_of_mem_toDigits (by decide) (by decide) hc
  simp only [Char.isDigit, Bool.and_eq_true, decide_eq_true_eq] at hdigit
  have hlow : 48 ≤ c.toNat := by simpa [UInt32.le_iff_toNat_le] using hdigit.1
  have hhigh : c.toNat ≤ 57 := by simpa [UInt32.le_iff_toNat_le] using hdigit.2
  rw [UInt8.toNat_ofNat', Nat.mod_eq_of_lt (by omega)]
  exact ⟨hlow, hhigh⟩

theorem digits_ne_nil (n : ℕ) : digits n ≠ [] := by
  simp [digits]

theorem toNat_byte {c : Char} (h : c.isDigit = true) : (UInt8.ofNat c.toNat).toNat = c.toNat := by
  simp only [Char.isDigit, Bool.and_eq_true, decide_eq_true_eq] at h
  have hhigh : c.toNat ≤ 57 := by simpa [UInt32.le_iff_toNat_le] using h.2
  rw [UInt8.toNat_ofNat', Nat.mod_eq_of_lt (by omega)]

theorem number_digits (n : ℕ) : number (digits n) = n := by
  have hfold : ∀ (cs : List Char) (m : ℕ), (∀ c ∈ cs, c.isDigit = true) →
      (cs.map fun c => UInt8.ofNat c.toNat).foldl (fun m b => 10 * m + (b.toNat - 48)) m
        = Nat.ofDigitChars 10 cs m := by
    intro cs
    induction cs with
    | nil =>
      intro m _
      rfl
    | cons c cs ih =>
      intro m h
      rw [List.map_cons, List.foldl_cons, toNat_byte (h c List.mem_cons_self),
        ih _ fun d hd => h d (List.mem_cons_of_mem c hd)]
      rfl
  rw [number, digits, hfold _ 0 fun c hc => Nat.isDigit_of_mem_toDigits (by decide) (by decide) hc,
    Nat.ofDigitChars_ten_toDigits]

theorem atoi_digits (h : n < 2 ^ 63) : atoi (digits n) = some (n : ℤ) := by
  have hsign : ∀ b, (digits n).head? = some b → b ≠ 43 ∧ b ≠ 45 := by
    intro b hb
    have hdigit := (digits_digit (List.mem_of_head? hb)).1
    constructor <;> rintro rfl <;> simp at hdigit
  have hplus : (digits n).head? ≠ some 43 := fun hb => (hsign _ hb).1 rfl
  have hminus : (digits n).head? ≠ some 45 := fun hb => (hsign _ hb).2 rfl
  have hall : (digits n).all isDigit = true := by
    rw [List.all_eq_true]
    intro b hb
    obtain ⟨hlow, hhigh⟩ := digits_digit hb
    simp [isDigit, UInt8.le_iff_toNat_le, hlow, hhigh]
  simp [atoi, hplus, hminus, digits_ne_nil, hall, number_digits]
  omega

theorem countOf_digits (h : n < 2 ^ 63) : countOf (atoi (digits n)) = n := by
  rw [atoi_digits h]
  simp [countOf]

theorem parseAheadBehind_spaced {ahead behind : ℕ} (ha : ahead < 2 ^ 63) (hb : behind < 2 ^ 63) :
    parseAheadBehind (spaced [ascii "+" ++ digits ahead] (ascii "-" ++ digits behind))
      = (ahead, behind) := by
  have hnone : ∀ (sign : UInt8) (n : ℕ), isAsciiSpace sign = false →
      ∀ b ∈ sign :: digits n, isAsciiSpace b = false := by
    intro sign n hsign b hmem
    rcases List.mem_cons.1 hmem with rfl | hmem
    · exact hsign
    · have hlow := (digits_digit hmem).1
      rw [isAsciiSpace, decide_eq_false_iff_not]
      intro hspace
      simp only [List.mem_cons, List.not_mem_nil, or_false] at hspace
      rcases hspace with rfl | rfl | rfl | rfl | rfl | rfl <;> simp at hlow
  have hahead := hnone 43 ahead (by decide)
  have hbehind := hnone 45 behind (by decide)
  have hascii : (43 :: digits ahead ++ space :: 45 :: digits behind).all (· < 128) = true := by
    have hdigits : ∀ n, ∀ b ∈ digits n, decide (b < 128) = true := by
      intro n b hb
      have hhigh := (digits_digit hb).2
      rw [decide_eq_true_eq, UInt8.lt_iff_toNat_lt]
      simp only [UInt8.reduceToNat]
      omega
    simp only [List.all_append, List.all_cons, List.all_eq_true.2 (hdigits _)]
    decide
  have hfields : fields (43 :: digits ahead ++ space :: 45 :: digits behind)
      = [43 :: digits ahead, 45 :: digits behind] := by
    rw [fields, if_pos hascii, List.splitOnP_append_cons_of_forall_mem hahead space (by decide),
      List.splitOnP_eq_singleton hbehind]
    simp
  have htext : spaced [ascii "+" ++ digits ahead] (ascii "-" ++ digits behind)
      = 43 :: digits ahead ++ space :: 45 :: digits behind := spaced_cons _ [] _
  rw [htext, parseAheadBehind, hfields]
  simp [trimPrefix, countOf_digits ha, countOf_digits hb]

/-! ## Rows -/

theorem letter_ne {x : Side} (h : x ≠ .unchanged) :
    x.letter ≠ 46 ∧ x.letter ≠ space ∧ x.letter ≠ 63 := by
  cases x
  · exact absurd rfl h
  all_goals exact ⟨by decide, by decide, by decide⟩

theorem charText_letter (x : Side) : charText x.letter = [x.letter] := by
  cases x <;> decide

theorem origOf_letter (x : Side) (orig : Bytes) :
    origOf x.letter orig = if x.moved then orig else [] := by
  cases x <;> rfl

theorem row_of_ne {x : Side} (h : x ≠ .unchanged) (staged : Bool) (path orig : Bytes) :
    x.row staged path orig = [sideFile path orig x.letter staged] := by
  rw [Side.row, if_neg h, sideFile, charText_letter, origOf_letter]

/-- One row for each changed side. -/
theorem appendStatusEntries_sides {x y : Side} (h : x ≠ .unchanged ∨ y ≠ .unchanged)
    (files : List File) (path orig : Bytes) :
    appendStatusEntries files (unchangedToSpace x.letter) (unchangedToSpace y.letter) path orig
      = files ++ (x.row true path orig ++ y.row false path orig) := by
  have hcode : ∀ {s : Side}, s ≠ .unchanged → unchangedToSpace s.letter = s.letter := by
    intro s hs
    rw [unchangedToSpace, if_neg (letter_ne hs).1]
  have hspace : unchangedToSpace Side.unchanged.letter = space := rfl
  by_cases hx : x = .unchanged
  · subst hx
    have hy : y ≠ .unchanged := h.resolve_left (fun hno => hno rfl)
    rw [hspace, hcode hy, row_of_ne hy]
    simp [appendStatusEntries, Side.row, space]
  · obtain ⟨_, hxs, hxq⟩ := letter_ne hx
    rw [hcode hx, row_of_ne hx]
    by_cases hy : y = .unchanged
    · subst hy
      rw [hspace]
      simp [appendStatusEntries, Side.row, hxs, hxq]
    · obtain ⟨_, hys, hyq⟩ := letter_ne hy
      rw [hcode hy, row_of_ne hy]
      simp [appendStatusEntries, hxs, hxq, hys, hyq]

theorem appendPath_sides {x y : Side} (h : x ≠ .unchanged ∨ y ≠ .unchanged) (path : Path)
    (orig : Bytes) (st : PorcelainStatus) :
    st.appendPath (unchangedToSpace x.letter) (unchangedToSpace y.letter) path.text orig
      = { st with files := st.files ++ (x.row true path.text orig ++ y.row false path.text orig) } := by
  have hpath : ¬ (path.text = [] ∨ path.text.getLast? = some 47) :=
    not_or.2 ⟨path.nonempty, path.noSlash⟩
  rw [PorcelainStatus.appendPath, if_neg hpath, appendStatusEntries_sides h]

/-- A record of fields, the letters first, and a path. -/
theorem appendEntry_spaced {x y : Side} (h : x ≠ .unchanged ∨ y ≠ .unchanged) (kind : Bytes)
    (hkind : space ∉ kind) (words : List Word) (path : Path) (orig : Bytes) (st : PorcelainStatus) :
    st.appendEntry (spaced (kind :: [x.letter, y.letter] :: words.map Word.text) path.text)
        (words.length + 3) orig
      = { st with files := st.files ++ (x.row true path.text orig ++ y.row false path.text orig) } := by
  have hletters : ∀ s : Side, space ≠ s.letter := by
    intro s
    cases s <;> decide
  have hwords : ∀ w ∈ kind :: [x.letter, y.letter] :: words.map Word.text, space ∉ w := by
    intro w hw
    simp only [List.mem_cons, List.mem_map] at hw
    rcases hw with rfl | rfl | ⟨v, _, rfl⟩
    · exact hkind
    · simp [hletters]
    · exact v.space_notMem
  have hsplit := splitN_spaced hwords path.text
  simp only [List.length_cons, List.length_map] at hsplit
  rw [PorcelainStatus.appendEntry, hsplit]
  simp only [List.length_append, List.length_cons, List.length_map, List.length_nil]
  rw [if_neg (by omega), ← appendPath_sides h]
  have hlast : ((kind :: [x.letter, y.letter] :: words.map Word.text) ++ [path.text]).getD
      (words.length + 3 - 1) [] = path.text := by
    rw [List.getD_eq_getElem?_getD, List.getElem?_append_right (by simp)]
    simp
  rw [hlast]
  rfl

/-! ## Records in order -/

/-- The status with what a record says. -/
def Record.apply (st : PorcelainStatus) (r : Record) : PorcelainStatus where
  branch := r.branch.getD st.branch
  files := st.files ++ r.rows
  ahead := (r.counts.getD (st.ahead, st.behind)).1
  behind := (r.counts.getD (st.ahead, st.behind)).2
  stashes := r.stashes.getD st.stashes
  conflicted := st.conflicted || r.isUnmerged

theorem applyHeader_header {key : Bytes} (hkey : space ∉ key) (val : Bytes) (st : PorcelainStatus) :
    st.applyHeader (header key val) =
      if key = ascii "branch.head" then
        if val ≠ ascii "(detached)" then { st with branch := val } else st
      else if key = ascii "branch.ab" then
        { st with ahead := (parseAheadBehind val).1, behind := (parseAheadBehind val).2 }
      else if key = ascii "stash" then
        if 0 < countOf (atoi val) then { st with stashes := countOf (atoi val) } else st
      else st := by
  have htrim : trimPrefix (ascii "# ") (header key val) = key ++ space :: val := by
    rw [header, spaced_cons, spaced_cons, trimPrefix]
    rfl
  rw [PorcelainStatus.applyHeader, htrim, cut_append hkey]

theorem parseRecords_cons (c a : UInt8) (path : Bytes) (parts : List Bytes) (st : PorcelainStatus) :
    parseRecords ((c :: a :: path) :: parts) st =
      if c = 35 then parseRecords parts (st.applyHeader (c :: a :: path))
      else if c = 49 then parseRecords parts (st.appendEntry (c :: a :: path) changedFields [])
      else if c = 50 then
        match parts with
        | [] => st.appendEntry (c :: a :: path) renamedFields []
        | orig :: parts => parseRecords parts (st.appendEntry (c :: a :: path) renamedFields orig)
      else if c = 117 then
        parseRecords parts
          ({ st with conflicted := true }.appendEntry (c :: a :: path) unmergedFields [])
      else if c = 63 then parseRecords parts (st.appendPath 63 63 path [])
      else parseRecords parts st := by
  refine (parseRecords.eq_def _ _).trans ?_
  rfl

theorem parseRecords_header (key val : Bytes) (parts : List Bytes) (st : PorcelainStatus) :
    parseRecords (header key val :: parts) st
      = parseRecords parts (st.applyHeader (header key val)) := by
  have hparts : header key val = 35 :: space :: spaced [key] val := by
    rw [header, spaced_cons]
    rfl
  rw [hparts, parseRecords_cons, if_pos rfl]

/-- A record is read as what it says, and its origin is no record. -/
theorem parseRecords_parts {r : Record} (h : r.Fits) (parts : List Bytes) (st : PorcelainStatus) :
    parseRecords (r.parts ++ parts) st = parseRecords parts (r.apply st) := by
  cases r with
  | head branch =>
    rw [Record.parts, List.singleton_append, parseRecords_header, applyHeader_header (by decide),
      if_pos rfl]
    by_cases hdetached : branch.text = ascii "(detached)"
    · simp [Record.apply, Record.branch, Record.rows, Record.counts, Record.stashes,
        Record.isUnmerged, hdetached]
    · simp [Record.apply, Record.branch, Record.rows, Record.counts, Record.stashes,
        Record.isUnmerged, hdetached]
  | ab ahead behind =>
    rw [Record.parts, List.singleton_append, parseRecords_header, applyHeader_header (by decide),
      if_neg (by decide), if_pos rfl, parseAheadBehind_spaced h.1 h.2]
    simp [Record.apply, Record.branch, Record.rows, Record.counts, Record.stashes,
      Record.isUnmerged]
  | stash n hpos =>
    rw [Record.parts, List.singleton_append, parseRecords_header, applyHeader_header (by decide),
      if_neg (by decide), if_neg (by decide), if_pos rfl, countOf_digits h, if_pos hpos]
    simp [Record.apply, Record.branch, Record.rows, Record.counts, Record.stashes,
      Record.isUnmerged]
  | other key val hkey =>
    rw [Record.parts, List.singleton_append, parseRecords_header,
      applyHeader_header key.space_notMem, if_neg hkey.1, if_neg hkey.2.1, if_neg hkey.2.2]
    simp [Record.apply, Record.branch, Record.rows, Record.counts, Record.stashes,
      Record.isUnmerged]
  | changed x y hsides sub mH mI mW hH hI path =>
    have hentry := appendEntry_spaced hsides.1 (ascii "1") (by decide) [sub, mH, mI, mW, hH, hI] path
      [] st
    rw [List.length_cons] at hentry
    have hkind : ∀ words, spaced (ascii "1" :: words) path.text
        = 49 :: space :: spaced words path.text := fun words => spaced_cons _ words _
    rw [Record.parts, List.singleton_append, hkind, parseRecords_cons, if_neg (by decide),
      if_pos rfl, ← hkind]
    apply congrArg (parseRecords parts)
    apply hentry.trans
    simp [Record.apply, Record.branch, Record.rows, Record.counts, Record.stashes,
      Record.isUnmerged]
  | renamed x y hsides sub mH mI mW hH hI score path orig =>
    have hchanged : x ≠ .unchanged ∨ y ≠ .unchanged := by
      apply hsides.imp <;> rintro hmoved rfl <;> simp [Side.moved] at hmoved
    have hentry := appendEntry_spaced hchanged (ascii "2") (by decide)
      [sub, mH, mI, mW, hH, hI, score] path orig.text st
    have hkind : ∀ words, spaced (ascii "2" :: words) path.text
        = 50 :: space :: spaced words path.text := fun words => spaced_cons _ words _
    rw [Record.parts, List.cons_append, List.singleton_append, hkind, parseRecords_cons,
      if_neg (by decide), if_neg (by decide), if_pos rfl, ← hkind]
    apply congrArg (parseRecords parts)
    apply hentry.trans
    simp [Record.apply, Record.branch, Record.rows, Record.counts, Record.stashes,
      Record.isUnmerged]
  | unmerged x y hsides sub m1 m2 m3 mW h1 h2 h3 path =>
    have hchanged : x ≠ .unchanged ∨ y ≠ .unchanged := .inl hsides.1
    have hentry := appendEntry_spaced hchanged (ascii "u") (by decide)
      [sub, m1, m2, m3, mW, h1, h2, h3] path [] { st with conflicted := true }
    have hkind : ∀ words, spaced (ascii "u" :: words) path.text
        = 117 :: space :: spaced words path.text := fun words => spaced_cons _ words _
    rw [Record.parts, List.singleton_append, hkind, parseRecords_cons, if_neg (by decide),
      if_neg (by decide), if_neg (by decide), if_pos rfl, ← hkind]
    apply congrArg (parseRecords parts)
    apply hentry.trans
    simp [Record.apply, Record.branch, Record.rows, Record.counts, Record.stashes,
      Record.isUnmerged]
  | untracked path =>
    have hkind : spaced [ascii "?"] path.text = 63 :: space :: path.text := spaced_cons _ [] _
    have hpath : ¬ (path.text = [] ∨ path.text.getLast? = some 47) :=
      not_or.2 ⟨path.nonempty, path.noSlash⟩
    rw [Record.parts, List.singleton_append, hkind, parseRecords_cons, if_neg (by decide),
      if_neg (by decide), if_neg (by decide), if_neg (by decide), if_pos rfl,
      PorcelainStatus.appendPath, if_neg hpath]
    simp [Record.apply, Record.branch, Record.rows, Record.counts, Record.stashes,
      Record.isUnmerged, appendStatusEntries, untrackedFile]

theorem foldl_apply (records : List Record) (st : PorcelainStatus) :
    records.foldl Record.apply st =
      { branch := (records.filterMap Record.branch).getLastD st.branch
        files := st.files ++ records.flatMap Record.rows
        ahead := ((records.filterMap Record.counts).getLastD (st.ahead, st.behind)).1
        behind := ((records.filterMap Record.counts).getLastD (st.ahead, st.behind)).2
        stashes := (records.filterMap Record.stashes).getLastD st.stashes
        conflicted := st.conflicted || records.any Record.isUnmerged } := by
  induction records generalizing st with
  | nil => simp
  | cons r records ih =>
    rw [List.foldl_cons, ih]
    simp only [Record.apply, List.filterMap_cons, List.flatMap_cons, List.any_cons,
      List.append_assoc, Bool.or_assoc]
    cases r.branch <;> cases r.counts <;> cases r.stashes <;>
      simp only [List.getLastD_cons, Option.getD_some, Option.getD_none]

theorem parseRecords_records {records : List Record} (h : ∀ r ∈ records, r.Fits)
    (st : PorcelainStatus) :
    parseRecords (records.flatMap Record.parts ++ [[]]) st = records.foldl Record.apply st := by
  induction records generalizing st with
  | nil => rfl
  | cons r records ih =>
    rw [List.flatMap_cons, List.append_assoc, parseRecords_parts (h r List.mem_cons_self),
      ih fun q hq => h q (List.mem_cons_of_mem r hq), List.foldl_cons]

theorem nul_notMem_spaced {words : List Bytes} {last : Bytes} (h : ∀ w ∈ words, 0 ∉ w)
    (hlast : 0 ∉ last) : 0 ∉ spaced words last := by
  have hspace : (0 : UInt8) ≠ space := by decide
  induction words with
  | nil => exact hlast
  | cons w words ih =>
    rw [spaced_cons, List.mem_append, List.mem_cons, not_or, not_or]
    exact ⟨h w List.mem_cons_self, hspace, ih fun v hv => h v (List.mem_cons_of_mem w hv)⟩

theorem nul_notMem_digits (n : ℕ) : 0 ∉ digits n := by
  intro h
  have hlow := (digits_digit h).1
  simp at hlow

theorem nul_notMem_letters (x y : Side) : (0 : UInt8) ∉ [x.letter, y.letter] := by
  cases x <;> cases y <;> decide

theorem nul_notMem_parts (r : Record) : ∀ p ∈ r.parts, 0 ∉ p := by
  intro p hp
  have hsign : ∀ sign : Bytes, 0 ∉ sign → ∀ n, 0 ∉ sign ++ digits n := by
    intro sign h n
    simp [h, nul_notMem_digits]
  have hheader : ∀ key val : Bytes, 0 ∉ key → 0 ∉ val → 0 ∉ header key val := by
    intro key val hkey hval
    apply nul_notMem_spaced _ hval
    simp only [List.mem_cons, List.not_mem_nil, or_false, forall_eq_or_imp, forall_eq]
    exact ⟨by decide, hkey⟩
  have hentry : ∀ (kind : Bytes) (x y : Side) (words : List Word) (path : Path), 0 ∉ kind →
      0 ∉ spaced (kind :: [x.letter, y.letter] :: words.map Word.text) path.text := by
    intro kind x y words path hkind
    apply nul_notMem_spaced _ path.nul_notMem
    intro w hw
    simp only [List.mem_cons, List.mem_map] at hw
    rcases hw with rfl | rfl | ⟨v, _, rfl⟩
    · exact hkind
    · exact nul_notMem_letters x y
    · exact v.nul_notMem
  cases r with
  | head branch =>
    obtain rfl := List.mem_singleton.1 hp
    exact hheader _ _ (by decide) branch.nul_notMem
  | ab ahead behind =>
    obtain rfl := List.mem_singleton.1 hp
    apply hheader _ _ (by decide)
    apply nul_notMem_spaced _ (hsign _ (by decide) behind)
    simp only [List.mem_singleton, forall_eq]
    exact hsign _ (by decide) ahead
  | stash n hpos =>
    obtain rfl := List.mem_singleton.1 hp
    exact hheader _ _ (by decide) (nul_notMem_digits n)
  | other key val hkey =>
    obtain rfl := List.mem_singleton.1 hp
    exact hheader _ _ key.nul_notMem val.nul_notMem
  | changed x y hsides sub mH mI mW hH hI path =>
    obtain rfl := List.mem_singleton.1 hp
    exact hentry _ x y [sub, mH, mI, mW, hH, hI] path (by decide)
  | renamed x y hsides sub mH mI mW hH hI score path orig =>
    rcases List.mem_cons.1 hp with rfl | hp
    · exact hentry _ x y [sub, mH, mI, mW, hH, hI, score] path (by decide)
    · obtain rfl := List.mem_singleton.1 hp
      exact orig.nul_notMem
  | unmerged x y hsides sub m1 m2 m3 mW h1 h2 h3 path =>
    obtain rfl := List.mem_singleton.1 hp
    exact hentry _ x y [sub, m1, m2, m3, mW, h1, h2, h3] path (by decide)
  | untracked path =>
    obtain rfl := List.mem_singleton.1 hp
    apply nul_notMem_spaced _ path.nul_notMem
    simp only [List.mem_singleton, forall_eq]
    decide

/-- Reading a printed status gives the status its records say. -/
theorem parsePorcelainV2_print {records : List Record} (h : ∀ r ∈ records, r.Fits) :
    parsePorcelainV2 (printRecords records) = statusOf records := by
  have hnul : ∀ p ∈ records.flatMap Record.parts, 0 ∉ p := by
    intro p hp
    obtain ⟨r, _, hr⟩ := List.mem_flatMap.1 hp
    exact nul_notMem_parts r p hr
  rw [parsePorcelainV2, printRecords, splitOn_parts hnul, parseRecords_records h, foldl_apply,
    statusOf]
  simp

/-- A path with a space in it. -/
def spacedPath : Path where
  text := ascii "1 M."
  nul_notMem := by decide
  nonempty := by decide
  noSlash := by decide

theorem parsePorcelainV2_print_three :
    parsePorcelainV2 (printRecords [.ab 1 2, .stash 3 (by decide), .untracked spacedPath])
      = statusOf [.ab 1 2, .stash 3 (by decide), .untracked spacedPath] :=
  parsePorcelainV2_print (by simp [Record.Fits])

/-- A count beyond 64 bits is read as none. -/
theorem ab_overflow : ¬ ∀ records : List Record,
    parsePorcelainV2 (printRecords records) = statusOf records := by
  intro h
  have hread : (parsePorcelainV2 (printRecords [.ab (2 ^ 63) 0])).ahead = 0 := by
    decide +kernel
  rw [h [.ab (2 ^ 63) 0]] at hread
  simp [statusOf, Record.counts] at hread

end Marotte.Git
