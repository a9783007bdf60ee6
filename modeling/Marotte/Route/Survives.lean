import Marotte.Route.Reload

/-! # The routes that survive

A location is read again as the route it was read as exactly when its path does not end in an
encoded slash and its line is below the numbers that are written with an exponent.
-/
namespace Marotte.Route

/-! ## The lines of a file -/

theorem parseHashLine_cons (s : Text) :
    parseHashLine ('#' :: 'L' :: s) =
      match s.takeWhile Char.isDigit with
      | [] => none
      | digits =>
        match parseInt digits with
        | some n => if 0 < n.val then some n else none
        | none => none := by
  have hlit : "#L".toList = ['#', 'L'] := by simp
  rw [parseHashLine, hlit]
  rfl

theorem pos_of_parseHashLine {hash : Text} {n : WholeNumber} (h : parseHashLine hash = some n) :
    0 < n.val := by
  rw [parseHashLine] at h
  split at h
  · contradiction
  · split at h
    · contradiction
    · split at h
      · split at h
        · next hpos =>
          injection h with h
          rwa [← h]
        · contradiction
      · contradiction

theorem parseInt_digit {d : Char} {x : WholeNumber} (hd : d.isDigit = true)
    (h : parseInt [d] = some x) : x.val < 10 := by
  rw [parseInt_val h, Nat.ofDigitChars_cons, Nat.ofDigitChars_nil]
  simp only [Char.isDigit, Bool.and_eq_true, decide_eq_true_eq] at hd
  have hhigh : d.toNat ≤ 57 := hd.2
  have hlow : '0'.toNat = 48 := rfl
  rw [toDouble_of_lt (by omega)]
  omega

/-- A line is read again from its fragment where it is written without an exponent. -/
theorem parseHashLine_lineHash {n : WholeNumber} (hpos : 0 < n.val) :
    parseHashLine (lineHash (some n)) = some n ↔ n.val < 10 ^ 21 := by
  rw [lineHash, if_pos hpos, parseHashLine_cons]
  constructor
  · intro h
    by_contra hlong
    obtain ⟨d, c, rest, htext, hd, hc⟩ := toString_exponent (x := n) (by omega)
    rw [htext, List.takeWhile_cons_of_pos hd, List.takeWhile_cons_of_neg (by simp [hc])] at h
    simp only at h
    split at h
    · next m hparse =>
      have hsmall := parseInt_digit hd hparse
      split at h
      · injection h with h
        rw [h] at hsmall
        omega
      · contradiction
    · contradiction
  · intro hshort
    have hdigits := isDigit_toString hpos hshort
    have hself : n.toString.takeWhile Char.isDigit = n.toString :=
      List.takeWhile_eq_self_iff.2 hdigits
    have hparse := parseInt_toString hpos hshort
    rw [hself]
    cases htext : n.toString with
    | nil =>
      rw [htext] at hparse
      have hzero := parseInt_val hparse
      rw [Nat.ofDigitChars_nil, toDouble_of_lt (by omega)] at hzero
      omega
    | cons c s =>
      rw [htext] at hparse
      simp only [hparse, if_pos hpos]

/-! ## Routes in the form they are read in -/

/-- Every identifier of a route says something. -/
def Identified : Route → Prop
  | .chat id => id ≠ []
  | .git _ pr => pr ≠ some []
  | .run id node => id ≠ [] ∧ node ≠ some []
  | .subagent chat id => chat ≠ [] ∧ id ≠ []
  | .spec dir => dir ≠ []
  | _ => True

/-- The path of a route is in the form it is read in. -/
def InForm : Route → Prop
  | .files path => path = ['/']
      ∨ ∃ raw, path = '/' :: raw ∧ raw ≠ [] ∧ raw.head? ≠ some '/' ∧ raw ≠ ['.']
  | .web path => ∃ raw, path = '/' :: raw ∧ raw ≠ [] ∧ raw.head? ≠ some '/'
  | .file path _ => path ≠ []
  | _ => True

/-- Every optional field of a route is one its location carries. -/
def Spelled : Route → Prop
  | .git tab pr => tab = .prs ∨ pr = none
  | .history tab => tab ≠ some .chats
  | .file _ line => ∀ n ∈ line, 0 < n.val
  | _ => True

/-- The path of a route ends in a slash that is not all of it. -/
def EndsInSlash : Route → Prop
  | .files path => path ≠ ['/'] ∧ path.getLast? = some '/'
  | .web path => path.getLast? = some '/'
  | .file path _ => path.getLast? = some '/'
  | _ => False

/-- The line of a route is written with an exponent. -/
def LongLine : Route → Prop
  | .file _ line => ∃ n ∈ line, 10 ^ 21 ≤ n.val
  | _ => False

theorem nonempty_eq_self {v : Option Text} (h : v ≠ some []) : nonempty v = v := by
  rcases v with _ | _ | ⟨c, s⟩
  · rfl
  · exact absurd rfl h
  · rfl

theorem lineHash_none {line : Option WholeNumber} (h : ∀ n ∈ line, ¬ 0 < n.val) :
    lineHash line = [] := by
  cases line with
  | none => rfl
  | some n => rw [lineHash, if_neg (h n rfl)]

theorem parseHashLine_eq_self (line : Option WholeNumber) :
    parseHashLine (lineHash line) = line
      ↔ (∀ n ∈ line, 0 < n.val) ∧ ¬ ∃ n ∈ line, 10 ^ 21 ≤ n.val := by
  have hempty : parseHashLine [] = none := by rfl
  cases line with
  | none => simp [lineHash, hempty]
  | some n =>
    simp only [Option.mem_some_iff, forall_eq', exists_eq_left', not_le]
    by_cases hpos : 0 < n.val
    · rw [parseHashLine_lineHash hpos]
      simp [hpos]
    · rw [lineHash, if_neg hpos, hempty]
      simp [hpos]

/-- A route in the form it is read in survives exactly when its path does not end in a slash and its
optional fields are ones its location carries. -/
theorem reload_eq_iff {r : Route} (hid : Identified r) (hform : InForm r) :
    reload r = r ↔ ¬ EndsInSlash r ∧ ¬ LongLine r ∧ Spelled r := by
  cases r with
  | chat id => simp [reload_chat, EndsInSlash, LongLine, Spelled]
  | git tab pr =>
    rw [reload_git, nonempty_eq_self hid]
    by_cases htab : tab = .prs
    · simp [htab, EndsInSlash, LongLine, Spelled]
    · cases pr <;> simp [htab, EndsInSlash, LongLine, Spelled]
  | files path =>
    rcases hform with rfl | ⟨raw, rfl, hne, hhead, hdot⟩
    · have hroot : reload (.files ['/']) = .files ['/'] :=
        reload_plain _ (by simp [plainRoutes])
      simp [hroot, EndsInSlash, LongLine, Spelled]
    · rw [reload_files hne hhead]
      have hlast : ('/' :: raw).getLast? = raw.getLast? := List.getLast?_cons_of_ne_nil hne
      simp only [EndsInSlash, LongLine, Spelled, hlast, not_false_eq_true, true_and, and_true]
      have hiff : raw.getLast? = some '/' ↔ dropLast raw ≠ raw := by
        rw [ne_eq, dropLast_eq_self, not_not]
      rw [hiff]
      split
      · next h =>
        have hne' : dropLast raw ≠ raw := by
          rw [h]
          exact hdot.symm
        simp [hne, hne', hne.symm]
      · simp [hne]
  | file path line =>
    rw [reload_file]
    have hiff := dropLast_eq_self (s := path)
    simp only [EndsInSlash, LongLine, Spelled]
    split
    · next h =>
      have hne : dropLast path ≠ path := by
        rw [h]
        exact fun heq => hform heq.symm
      have hlast : path.getLast? = some '/' := by
        by_contra hno
        exact hne (hiff.2 hno)
      simp [noChat, hlast]
    · rw [Route.file.injEq, hiff, parseHashLine_eq_self]
      tauto
  | history tab =>
    rw [reload_history]
    rcases tab with _ | _ | _ <;> simp [EndsInSlash, LongLine, Spelled]
  | docs tab => simp [reload_docs, EndsInSlash, LongLine, Spelled]
  | run id node =>
    rw [reload_run hid.1, nonempty_eq_self hid.2]
    simp [EndsInSlash, LongLine, Spelled]
  | subagent chat id => simp [reload_subagent hid.1 hid.2, EndsInSlash, LongLine, Spelled]
  | spec dir => simp [reload_spec hid, EndsInSlash, LongLine, Spelled]
  | settings tab => simp [reload_settings, EndsInSlash, LongLine, Spelled]
  | web path =>
    obtain ⟨raw, rfl, hne, hhead⟩ := hform
    rw [reload_web hne hhead]
    have hlast : ('/' :: raw).getLast? = raw.getLast? := List.getLast?_cons_of_ne_nil hne
    simp only [EndsInSlash, LongLine, Spelled, hlast, not_false_eq_true, and_true,
      Route.web.injEq, List.cons.injEq, true_and]
    exact dropLast_eq_self

/-! ## The routes locations are read as -/

variable {pathname hash : Text}

theorem parseHashValue_ne {front v : Text} (h : parseHashValue front hash = some v) : v ≠ [] := by
  rw [parseHashValue] at h
  split at h
  · contradiction
  · split at h
    · contradiction
    · split at h
      · contradiction
      · next hne =>
        injection h with h
        rwa [← h]

theorem head_dropSlashes (s : Text) : (dropSlashes s).head? ≠ some '/' := by
  intro h
  have hfirst := List.head?_dropWhile_not (fun c : Char => decide (c = '/')) s
  rw [← dropSlashes, h] at hfirst
  simp at hfirst

/-- The default, or a route in the form routes are read in. -/
def Formed (r : Route) : Prop :=
  r = noChat ∨ Identified r ∧ InForm r ∧ Spelled r

theorem formed_noChat : Formed noChat :=
  .inl rfl

theorem ite_holds {P : Route → Prop} {p : Prop} [Decidable p] {a b : Route} (ha : p → P a)
    (hb : ¬ p → P b) : P (if p then a else b) := by
  split
  · next h => exact ha h
  · next h => exact hb h

theorem formed_parse (pathname hash : Text) : Formed (parseRoute pathname hash) := by
  have hpr : parseHashPR hash ≠ some [] := fun h => parseHashValue_ne h rfl
  have hnode : parseHashNode hash ≠ some [] := fun h => parseHashValue_ne h rfl
  rw [parseRoute]
  apply ite_holds
  · intro _
    right
    simp only [Identified, InForm, Spelled]
    split
    · next htab => exact ⟨hpr, trivial, .inl htab⟩
    · exact ⟨by simp, trivial, .inr rfl⟩
  intro _
  apply ite_holds
  · intro _
    right
    simp only [Identified, InForm, Spelled]
    split
    · simp
    · next htab => simpa using htab
  intro _
  apply ite_holds
  · exact fun _ => .inr ⟨trivial, trivial, trivial⟩
  intro _
  apply ite_holds
  · intro _
    apply ite_holds
    · exact fun hid => .inr ⟨⟨hid, hnode⟩, trivial, trivial⟩
    · exact fun _ => formed_noChat
  intro _
  apply ite_holds
  · intro _
    apply ite_holds
    · intro _
      apply ite_holds
      · exact fun hdir => .inr ⟨hdir, trivial, trivial⟩
      · exact fun _ => formed_noChat
    · exact fun _ => formed_noChat
  intro _
  apply ite_holds
  · exact fun _ => .inr ⟨trivial, trivial, trivial⟩
  intro _
  apply ite_holds
  · intro _
    apply ite_holds
    · exact fun _ => formed_noChat
    intro hid
    apply ite_holds
    · intro _
      apply ite_holds
      · exact fun hsubtask => .inr ⟨⟨hid, hsubtask⟩, trivial, trivial⟩
      · exact fun _ => .inr ⟨hid, trivial, trivial⟩
    · exact fun _ => .inr ⟨hid, trivial, trivial⟩
  intro _
  apply ite_holds
  · intro _
    apply ite_holds
    · exact fun _ => .inr ⟨trivial, .inl rfl, trivial⟩
    intro _
    right
    simp only [Identified, InForm, Spelled, true_and, and_true]
    split
    · exact .inl rfl
    · next hraw =>
      push Not at hraw
      exact .inr ⟨_, rfl, hraw.1, head_dropSlashes _, hraw.2⟩
  intro _
  apply ite_holds
  · intro _
    apply ite_holds
    · exact fun hraw => .inr ⟨trivial, ⟨_, rfl, hraw, head_dropSlashes _⟩, trivial⟩
    · exact fun _ => formed_noChat
  intro _
  apply ite_holds
  · intro _
    apply ite_holds
    · exact fun _ => formed_noChat
    intro _
    apply ite_holds
    · exact fun _ => formed_noChat
    · exact fun hne => .inr ⟨trivial, hne, fun n hn => pos_of_parseHashLine hn⟩
  · exact fun _ => formed_noChat

/-- The head of a location, and what is behind its first segment, decoded. -/
def headOf (pathname : Text) : Text :=
  (segmentsOf pathname).headD []

def restOf (pathname : Text) : Text :=
  safeDecode (joinSlash ((segmentsOf pathname).drop 1))

/-- The location is one of a file, a folder or a page whose path ends, once decoded, in a slash. -/
def EncodedSlash (pathname : Text) : Prop :=
  headOf pathname = "file".toList ∧ (restOf pathname).getLast? = some '/'
    ∨ (headOf pathname = "files".toList ∨ headOf pathname = "web".toList)
      ∧ (dropSlashes (restOf pathname)).getLast? = some '/'

/-- The location is one of a file, at a line that is written with an exponent. -/
def ExponentLine (pathname hash : Text) : Prop :=
  headOf pathname = "file".toList ∧ restOf pathname ≠ []
    ∧ ∃ n ∈ parseHashLine hash, 10 ^ 21 ≤ n.val

theorem restOf_short (h : (segmentsOf pathname).length ≤ 1) : restOf pathname = [] := by
  have hdrop : (segmentsOf pathname).drop 1 = [] := List.drop_eq_nil_of_le h
  rw [restOf, hdrop]
  exact safeDecode_encode []

theorem segmentsOf_cons (h : headOf pathname = head) :
    segmentsOf pathname = head :: (segmentsOf pathname).drop 1 := by
  obtain ⟨seg, segs, hsegs⟩ := List.exists_cons_of_ne_nil
    (List.splitOn_ne_nil '/' (trimSlashes pathname))
  rw [← segmentsOf] at hsegs
  rw [headOf, hsegs, List.headD_cons] at h
  rw [hsegs, h]
  rfl

theorem parse_headFile (h : headOf pathname = "file".toList) :
    parseRoute pathname hash =
      if restOf pathname = [] then noChat else .file (restOf pathname) (parseHashLine hash) := by
  have hsegments := segmentsOf_cons h
  by_cases hrest : (segmentsOf pathname).drop 1 = []
  · rw [hrest] at hsegments
    rw [parse_file_one hsegments, restOf_short (by rw [hsegments]; simp), if_pos rfl]
  · rw [parse_file hsegments hrest]
    rfl

theorem parse_headFiles (h : headOf pathname = "files".toList) :
    parseRoute pathname hash =
      .files (if dropSlashes (restOf pathname) = [] ∨ dropSlashes (restOf pathname) = ['.']
        then ['/'] else '/' :: dropSlashes (restOf pathname)) := by
  have hsegments := segmentsOf_cons h
  by_cases hrest : (segmentsOf pathname).drop 1 = []
  · rw [hrest] at hsegments
    rw [parse_files_one hsegments, restOf_short (by rw [hsegments]; simp), if_pos (.inl rfl)]
  · rw [parse_files hsegments hrest]
    rfl

theorem parse_headWeb (h : headOf pathname = "web".toList) :
    parseRoute pathname hash =
      if dropSlashes (restOf pathname) ≠ [] then .web ('/' :: dropSlashes (restOf pathname))
      else noChat := by
  rw [parse_web (segmentsOf_cons h)]
  rfl

/-- Neither the path nor the line of a route keeps it from surviving. -/
def Plain (r : Route) : Prop :=
  ¬ EndsInSlash r ∧ ¬ LongLine r

/-- Only the locations of files, folders and pages have a path that can end in a slash. -/
theorem plain_parse (hfile : headOf pathname ≠ "file".toList)
    (hfiles : headOf pathname ≠ "files".toList) (hweb : headOf pathname ≠ "web".toList) :
    Plain (parseRoute pathname hash) := by
  have hnone : Plain noChat := ⟨id, id⟩
  rw [parseRoute]
  apply ite_holds
  · exact fun _ => ⟨id, id⟩
  intro _
  apply ite_holds
  · exact fun _ => ⟨id, id⟩
  intro _
  apply ite_holds
  · exact fun _ => ⟨id, id⟩
  intro _
  apply ite_holds
  · exact fun _ => ite_holds (fun _ => ⟨id, id⟩) (fun _ => hnone)
  intro _
  apply ite_holds
  · exact fun _ => ite_holds (fun _ => ite_holds (fun _ => ⟨id, id⟩) (fun _ => hnone))
      (fun _ => hnone)
  intro _
  apply ite_holds
  · exact fun _ => ⟨id, id⟩
  intro _
  apply ite_holds
  · exact fun _ => ite_holds (fun _ => hnone)
      (fun _ => ite_holds (fun _ => ite_holds (fun _ => ⟨id, id⟩) (fun _ => ⟨id, id⟩))
        (fun _ => ⟨id, id⟩))
  intro _
  apply ite_holds
  · exact fun h => absurd h hfiles
  intro _
  apply ite_holds
  · exact fun h => absurd h hweb
  intro _
  apply ite_holds
  · exact fun h => absurd h hfile
  · exact fun _ => hnone

theorem endsInSlash_parse : EndsInSlash (parseRoute pathname hash) ↔ EncodedSlash pathname := by
  have hdistinct : "file".toList ≠ "files".toList ∧ "file".toList ≠ "web".toList
      ∧ "files".toList ≠ "web".toList := by simp
  rw [EncodedSlash]
  by_cases hfile : headOf pathname = "file".toList
  · rw [parse_headFile hfile, hfile]
    simp only [hdistinct, true_and, or_self, false_and, or_false]
    split
    · next h => simp [h, noChat, EndsInSlash]
    · rfl
  by_cases hfiles : headOf pathname = "files".toList
  · rw [parse_headFiles hfiles, hfiles]
    simp only [hdistinct.1.symm, true_and, true_or, false_and, false_or]
    split
    · next h =>
      rcases h with h | h
      · simp [h, EndsInSlash]
      · simp [h, EndsInSlash]
    · next h =>
      push Not at h
      rw [EndsInSlash, List.getLast?_cons_of_ne_nil h.1]
      simp [h.1]
  by_cases hweb : headOf pathname = "web".toList
  · rw [parse_headWeb hweb, hweb]
    simp only [hdistinct.2.1.symm, true_and, or_true, false_and, false_or]
    split
    · next h => rw [EndsInSlash, List.getLast?_cons_of_ne_nil h]
    · next h =>
      rw [not_not] at h
      simp [h, noChat, EndsInSlash]
  · simp only [(plain_parse hfile hfiles hweb).1, hfile, hfiles, hweb, false_and, or_self]

theorem longLine_parse :
    LongLine (parseRoute pathname hash) ↔ ExponentLine pathname hash := by
  have hdistinct : "file".toList ≠ "files".toList ∧ "file".toList ≠ "web".toList := by
    simp
  rw [ExponentLine]
  by_cases hfile : headOf pathname = "file".toList
  · rw [parse_headFile hfile]
    split
    · next h => simp [h, noChat, LongLine]
    · next h => simp [h, hfile, LongLine]
  by_cases hfiles : headOf pathname = "files".toList
  · rw [parse_headFiles hfiles]
    simp only [LongLine, hfile, false_and]
  by_cases hweb : headOf pathname = "web".toList
  · rw [parse_headWeb hweb]
    split
    · simp only [LongLine, hfile, false_and]
    · simp only [noChat, LongLine, hfile, false_and]
  · simp only [(plain_parse hfile hfiles hweb).2, hfile, false_and]

/-- A location survives a reload exactly when its path does not end in an encoded slash and its line
is written without an exponent. -/
theorem reload_parse (pathname hash : Text) :
    reload (parseRoute pathname hash) = parseRoute pathname hash
      ↔ ¬ EncodedSlash pathname ∧ ¬ ExponentLine pathname hash := by
  rw [← endsInSlash_parse, ← longLine_parse]
  rcases formed_parse pathname hash with hnone | ⟨hid, hform, hspelled⟩
  · rw [hnone, reload_noChat]
    simp [noChat, EndsInSlash, LongLine]
  · rw [reload_eq_iff hid hform]
    simp only [hspelled, and_true]

/-- Every location that ends in no encoded slash and has no line written with an exponent survives
a reload, and no other does; and a route in the form it is read in is read from the location it is
written as exactly when its path does not end in a slash and its optional fields are ones its
location carries. -/
theorem survives_iff (pathname hash : Text) :
    (reload (parseRoute pathname hash) = parseRoute pathname hash
      ↔ ¬ EncodedSlash pathname ∧ ¬ ExponentLine pathname hash)
    ∧ ∀ r : Route, Identified r → InForm r →
      (reload r = r ↔ ¬ EndsInSlash r ∧ ¬ LongLine r ∧ Spelled r) :=
  ⟨reload_parse pathname hash, fun _ => reload_eq_iff⟩

/-- A file whose name ends in an encoded slash. -/
theorem encodedSlash_lost :
    ¬ ((∀ pathname hash : Text, reload (parseRoute pathname hash) = parseRoute pathname hash)
      ∧ ∀ r : Route, Identified r → InForm r → reload r = r) := by
  intro h
  have hlost : reload (parseRoute "/file/a%2F".toList []) ≠ parseRoute "/file/a%2F".toList [] := by
    decide +kernel
  exact hlost (h.1 _ _)

theorem survives_iff_chat :
    reload (.chat ['a', '/', 'b']) = .chat ['a', '/', 'b'] :=
  ((survives_iff [] []).2 (.chat ['a', '/', 'b']) (by simp [Identified]) trivial).2 ⟨id, id, trivial⟩

end Marotte.Route
