import Marotte.Route.Path

/-! # Locations survive a reload

What the location of a route is read as, and the routes it is read as themselves: all but the paths
that end in a slash and the lines written with an exponent.
-/
namespace Marotte.Route

variable {s t head : Text} {c : Char}

/-! ## Encoded paths -/

/-- A character of a path: a separator stands for itself. -/
def encodePathChar (c : Char) : Text :=
  if c = '/' then ['/'] else encodeChar c

theorem joinSlash_cons (seg : Text) {segs : List Text} (h : segs ≠ []) :
    joinSlash (seg :: segs) = seg ++ '/' :: joinSlash segs := by
  rw [joinSlash, joinSlash, List.intercalate_cons_of_ne_nil h]
  simp

/-- A path is encoded character by character. -/
theorem encodePath_eq (path : Text) : encodePath path = path.flatMap encodePathChar := by
  induction path with
  | nil => simp [encodePath, joinSlash, encodeURIComponent]
  | cons c path ih =>
    obtain ⟨seg, segs, hsegs⟩ := List.exists_cons_of_ne_nil (List.splitOn_ne_nil '/' path)
    rw [encodePath, hsegs, List.map_cons] at ih
    rw [encodePath, List.splitOn_cons_eq_if_modifyHead, List.flatMap_cons, ← ih, encodePathChar]
    by_cases hc : c = '/'
    · rw [if_pos (by simpa using hc), if_pos hc, List.map_cons, hsegs, List.map_cons,
        joinSlash_cons _ (List.cons_ne_nil _ _)]
      rfl
    · rw [if_neg (by simpa using hc), if_neg hc, hsegs, List.modifyHead_cons, List.map_cons]
      have hcons : encodeURIComponent (c :: seg) = encodeChar c ++ encodeURIComponent seg :=
        List.flatMap_cons ..
      rw [hcons]
      cases segs with
      | nil => simp [joinSlash]
      | cons seg' segs =>
        rw [List.map_cons, joinSlash_cons (encodeURIComponent seg) (List.cons_ne_nil _ _),
          joinSlash_cons (encodeChar c ++ encodeURIComponent seg) (List.cons_ne_nil _ _),
          List.append_assoc]

theorem decode_encodePathChar (c : Char) (s : Text) :
    decodeURIComponent (encodePathChar c ++ s) = (decodeURIComponent s).map (c :: ·) := by
  rw [encodePathChar]
  split
  · next h =>
    rw [h]
    exact decode_plain (by decide)
  · exact decode_encodeChar c s

theorem safeDecode_encodePath (path : Text) : safeDecode (encodePath path) = path := by
  have hdecode : decodeURIComponent (path.flatMap encodePathChar) = some path := by
    induction path with
    | nil => rw [List.flatMap_nil, decodeURIComponent]
    | cons c path ih => rw [List.flatMap_cons, decode_encodePathChar, ih, Option.map_some]
  rw [encodePath_eq, safeDecode, hdecode, Option.getD_some]

@[simp] theorem safeDecode_encode (s : Text) : safeDecode (encodeURIComponent s) = s := by
  rw [safeDecode, decode_encode, Option.getD_some]

theorem encodePath_eq_nil : encodePath s = [] ↔ s = [] := by
  rw [encodePath_eq]
  cases s with
  | nil => simp
  | cons c s =>
    have hne : encodePathChar c ≠ [] := by
      rw [encodePathChar]
      split
      · simp
      · exact encodeChar_ne_nil c
    simp [hne]

theorem notMem_encodePath (path : Text) : '#' ∉ encodePath path := by
  rw [encodePath_eq]
  intro h
  obtain ⟨c, _, hc⟩ := List.mem_flatMap.1 h
  rw [encodePathChar] at hc
  split at hc
  · simp at hc
  · rcases mem_encodeChar hc with heq | hunreserved
    · exact absurd heq (by decide)
    · exact absurd hunreserved (by decide)

/-- Without the slashes at its end. -/
def dropLast (s : Text) : Text :=
  s.rdropWhile (· = '/')

theorem dropLast_append_slash (s : Text) : dropLast (s ++ ['/']) = dropLast s := by
  simp [dropLast]

theorem dropLast_of_ne (h : c ≠ '/') (s : Text) : dropLast (s ++ [c]) = s ++ [c] := by
  simp [dropLast, List.rdropWhile_concat, h]

theorem dropLast_append (h : dropLast t ≠ []) : dropLast (s ++ t) = s ++ dropLast t := by
  induction t using List.reverseRecOn with
  | nil => simp [dropLast] at h
  | append_singleton t c ih =>
    by_cases hc : c = '/'
    · subst hc
      rw [dropLast_append_slash] at h ⊢
      rw [← List.append_assoc, dropLast_append_slash, ih h]
    · rw [← List.append_assoc, dropLast_of_ne hc, dropLast_of_ne hc, List.append_assoc]

theorem dropLast_append_nil (h : dropLast t = []) : dropLast (s ++ t) = dropLast s := by
  induction t using List.reverseRecOn with
  | nil => rw [List.append_nil]
  | append_singleton t c ih =>
    by_cases hc : c = '/'
    · subst hc
      rw [dropLast_append_slash] at h
      rw [← List.append_assoc, dropLast_append_slash, ih h]
    · rw [dropLast_of_ne hc] at h
      simp at h

theorem dropLast_eq_self : dropLast s = s ↔ s.getLast? ≠ some '/' := by
  induction s using List.reverseRecOn with
  | nil => simp [dropLast]
  | append_singleton s c _ =>
    by_cases hc : c = '/'
    · subst hc
      simp only [dropLast_append_slash, List.getLast?_concat, ne_eq, not_true_eq_false, iff_false]
      intro heq
      have hfront : dropLast s <+: s := List.rdropWhile_prefix _ s
      have hle := hfront.length_le
      have hlength := congrArg List.length heq
      rw [List.length_append, List.length_singleton] at hlength
      omega
    · simp [dropLast_of_ne hc, hc]

/-- The slashes at the end of a path are those at the end of its encoded form. -/
theorem dropLast_encodePath (path : Text) :
    dropLast (encodePath path) = encodePath (dropLast path) := by
  rw [encodePath_eq, encodePath_eq]
  induction path using List.reverseRecOn with
  | nil => rfl
  | append_singleton path c ih =>
    rw [List.flatMap_append, List.flatMap_singleton]
    by_cases hc : c = '/'
    · subst hc
      rw [encodePathChar, if_pos rfl, dropLast_append_slash, dropLast_append_slash, ih]
    · rw [dropLast_of_ne hc, List.flatMap_append, List.flatMap_singleton]
      have hself : dropLast (encodePathChar c) = encodePathChar c := by
        rw [dropLast_eq_self, encodePathChar, if_neg hc]
        intro hlast
        rcases mem_encodeChar (List.mem_of_getLast? hlast) with heq | hunreserved
        · exact absurd heq (by decide)
        · exact absurd hunreserved (by decide)
      have hne : dropLast (encodePathChar c) ≠ [] := by
        rw [hself, encodePathChar, if_neg hc]
        exact encodeChar_ne_nil c
      rw [dropLast_append hne, hself]

/-! ## Reading a URL -/

theorem pathOf_append (h : '#' ∉ s) (t : Text) : pathOf (s ++ '#' :: t) = s := by
  rw [pathOf, List.takeWhile_append_of_pos]
  · simp
  · intro c hc
    simpa using fun heq : c = '#' => h (heq ▸ hc)

theorem fragmentOf_append (h : '#' ∉ s) (t : Text) : fragmentOf (s ++ '#' :: t) = '#' :: t := by
  rw [fragmentOf, List.dropWhile_append_of_pos]
  · simp
  · intro c hc
    simpa using fun heq : c = '#' => h (heq ▸ hc)

theorem pathOf_eq (h : '#' ∉ s) : pathOf s = s := by
  rw [pathOf, List.takeWhile_eq_self_iff]
  intro c hc
  simpa using fun heq : c = '#' => h (heq ▸ hc)

theorem fragmentOf_eq (h : '#' ∉ s) : fragmentOf s = [] := by
  rw [fragmentOf, List.dropWhile_eq_nil_iff]
  intro c hc
  simpa using fun heq : c = '#' => h (heq ▸ hc)

theorem trimSlashes_cons (h : s.head? ≠ some '/') : trimSlashes ('/' :: s) = dropLast s := by
  rw [trimSlashes, dropLast, List.dropWhile_cons_of_pos (by simp)]
  congr 1
  cases s with
  | nil => rfl
  | cons c s =>
    rw [List.dropWhile_cons_of_neg]
    simpa using h

/-- A location of a segment and a tail. -/
def located (head tail : Text) : Text :=
  '/' :: head ++ '/' :: tail

theorem notMem_located (head : Text) (hhead : '#' ∉ head) (ht : '#' ∉ t) :
    '#' ∉ located head t := by
  intro h
  rcases List.mem_append.1 h with h | h
  · rcases List.mem_cons.1 h with heq | h
    · exact absurd heq (by decide)
    · exact hhead h
  · rcases List.mem_cons.1 h with heq | h
    · exact absurd heq (by decide)
    · exact ht h

theorem located_lit {lit : Text} (h : lit = '/' :: head ++ ['/']) (tail : Text) :
    lit ++ tail = located head tail := by
  rw [h, List.append_assoc, located, List.singleton_append]

/-- A location with a tail behind its first segment: the slashes at its end are trimmed, and the
one behind the first segment with them where nothing else is left. -/
theorem segmentsOf_tail (head : Text) (hne : head ≠ []) (hslash : '/' ∉ head) (tail : Text) :
    segmentsOf (located head tail)
      = if dropLast tail = [] then [head] else head :: (dropLast tail).splitOn '/' := by
  have hself : dropLast head = head := by
    rw [dropLast_eq_self]
    exact fun hlast => hslash (List.mem_of_getLast? hlast)
  have hhead : (head ++ '/' :: tail).head? ≠ some '/' := by
    rw [List.head?_append_of_ne_nil _ hne]
    exact fun hfirst => hslash (List.mem_of_head? hfirst)
  rw [segmentsOf, located, List.cons_append, trimSlashes_cons hhead]
  split
  · next h =>
    have hslashes : dropLast ('/' :: tail) = [] := by
      rw [← List.singleton_append, dropLast_append_nil h]
      exact dropLast_append_slash []
    rw [dropLast_append_nil hslashes, hself, List.splitOn_eq_singleton hslash]
  · next h =>
    have htail : dropLast ('/' :: tail) = '/' :: dropLast tail := dropLast_append (s := ['/']) h
    rw [dropLast_append (by rw [htail]; exact List.cons_ne_nil _ _), htail,
      List.splitOn_append_cons_self_of_not_mem hslash]

theorem notMem_slash_encode (s : Text) : '/' ∉ encodeURIComponent s :=
  notMem_encode (by decide) s

theorem notMem_hash_encode (s : Text) : '#' ∉ encodeURIComponent s :=
  notMem_encode (by decide) s

theorem dropLast_encode (s : Text) : dropLast (encodeURIComponent s) = encodeURIComponent s := by
  rw [dropLast_eq_self]
  exact fun hlast => notMem_slash_encode s (List.mem_of_getLast? hlast)

/-- A location of a segment and an encoded value. -/
theorem segmentsOf_value (head : Text) (hne : head ≠ []) (hslash : '/' ∉ head) {id : Text}
    (hid : id ≠ []) :
    segmentsOf (located head (encodeURIComponent id)) = [head, encodeURIComponent id] := by
  rw [segmentsOf_tail head hne hslash, dropLast_encode, if_neg (mt encode_eq_nil.1 hid),
    List.splitOn_eq_singleton (notMem_slash_encode id)]

/-- A location of a segment and an encoded path, without the slashes the path ends in. -/
theorem segmentsOf_path (head : Text) (hne : head ≠ []) (hslash : '/' ∉ head) (path : Text) :
    segmentsOf (located head (encodePath path))
      = if dropLast path = [] then [head]
        else head :: (encodePath (dropLast path)).splitOn '/' := by
  rw [segmentsOf_tail head hne hslash, dropLast_encodePath]
  simp only [encodePath_eq_nil]

@[simp] theorem joinSlash_splitOn (s : Text) : joinSlash (s.splitOn '/') = s :=
  List.intercalate_splitOn '/'

theorem parseHashValue_encode (front : Text) {v : Text} (hv : v ≠ []) :
    parseHashValue front (front ++ encodeURIComponent v) = some v := by
  have hline : (encodeURIComponent v).any isLineEnd = false := by
    rw [List.any_eq_false]
    intro c hc hend
    have hends : ∀ d, isLineEnd d = true → d ≠ '%' ∧ isUnreserved d = false := by
      intro d hd
      simp only [isLineEnd, List.mem_cons, List.not_mem_nil, or_false, decide_eq_true_eq] at hd
      rcases hd with rfl | rfl | rfl | rfl <;> exact ⟨by decide, rfl⟩
    exact notMem_encode (hends c hend) v hc
  have hbehind : behind front (front ++ encodeURIComponent v) = some (encodeURIComponent v) := by
    rw [behind, if_pos (List.isPrefixOf_iff_prefix.2 (List.prefix_append _ _)), List.drop_left]
  simp only [parseHashValue, hbehind, hline, safeDecode_encode]
  simp [hv]

/-! ## Routes by their first segment -/

section Heads

variable {p hash : Text} {segs : List Text}

theorem parse_git (h : segmentsOf p = "git".toList :: segs) :
    parseRoute p hash =
      .git (parseGitTab segs[0]?)
        (if parseGitTab segs[0]? = .prs then parseHashPR hash else none) := by
  rw [parseRoute, h]
  rfl

theorem parse_run (h : segmentsOf p = "run".toList :: segs) :
    parseRoute p hash =
      let id := safeDecode (segs.getD 0 [])
      if id ≠ [] then .run id (parseHashNode hash) else noChat := by
  rw [parseRoute, h]
  rfl

theorem parse_spec (h : segmentsOf p = ["spec".toList, s]) :
    parseRoute p hash = if safeDecode s ≠ [] then .spec (safeDecode s) else noChat := by
  rw [parseRoute, h]
  rfl

theorem parse_chat (h : segmentsOf p = "chat".toList :: segs) :
    parseRoute p hash =
      let id := safeDecode (segs.getD 0 [])
      if id = [] then noChat
      else if segs[1]? = some "subagent".toList then
        let subtask := safeDecode (joinSlash (segs.drop 2))
        if subtask ≠ [] then .subagent id subtask else .chat id
      else .chat id := by
  rw [parseRoute, h]
  rfl

theorem parse_files (h : segmentsOf p = "files".toList :: segs) (hsegs : segs ≠ []) :
    parseRoute p hash =
      let raw := dropSlashes (safeDecode (joinSlash segs))
      .files (if raw = [] ∨ raw = ['.'] then ['/'] else '/' :: raw) := by
  cases segs with
  | nil => exact absurd rfl hsegs
  | cons seg segs =>
    rw [parseRoute, h]
    rfl

theorem parse_files_one (h : segmentsOf p = ["files".toList]) :
    parseRoute p hash = .files ['/'] := by
  rw [parseRoute, h]
  rfl

theorem parse_web (h : segmentsOf p = "web".toList :: segs) :
    parseRoute p hash =
      let raw := dropSlashes (safeDecode (joinSlash segs))
      if raw ≠ [] then .web ('/' :: raw) else noChat := by
  rw [parseRoute, h]
  rfl

theorem parse_file (h : segmentsOf p = "file".toList :: segs) (hsegs : segs ≠ []) :
    parseRoute p hash =
      let path := safeDecode (joinSlash segs)
      if path = [] then noChat else .file path (parseHashLine hash) := by
  cases segs with
  | nil => exact absurd rfl hsegs
  | cons seg segs =>
    rw [parseRoute, h]
    rfl

theorem parse_file_one (h : segmentsOf p = ["file".toList]) : parseRoute p hash = noChat := by
  rw [parseRoute, h]
  rfl

end Heads

/-! ## Reloads -/

/-- The routes without a value, each with its location. -/
def plainRoutes : List Route :=
  [noChat, .settings .general, .settings .tools, .settings .permissions, .settings .instructions,
    .docs .steering, .docs .skills, .docs .agents, .docs .specs, .docs .hooks, .docs .workflows,
    .history none, .history (some .runs), .git .changes none, .git .prs none, .git .sources none,
    .files ['/']]

theorem reload_plain : ∀ r ∈ plainRoutes, reload r = r := by
  decide +kernel

theorem reload_noChat : reload noChat = noChat :=
  reload_plain noChat List.mem_cons_self

theorem reload_settings (tab : SettingsTab) : reload (.settings tab) = .settings tab := by
  apply reload_plain
  cases tab <;> simp [plainRoutes]

theorem reload_docs (tab : DocsTab) : reload (.docs tab) = .docs tab := by
  apply reload_plain
  cases tab <;> simp [plainRoutes]

theorem reload_history (tab : Option HistoryTab) :
    reload (.history tab) = .history (if tab = some .runs then tab else none) := by
  have hnone : reload (.history none) = .history none :=
    reload_plain _ (by simp [plainRoutes])
  rcases tab with _ | _ | _
  · exact hnone
  · exact hnone
  · exact reload_plain _ (by simp [plainRoutes])

theorem reload_plainGit (tab : GitTab) : reload (.git tab none) = .git tab none := by
  apply reload_plain
  cases tab <;> simp [plainRoutes]

/-- A URL with a fragment is read as its path and its fragment. -/
theorem parse_url (h : '#' ∉ s) (t : Text) :
    parseRoute (pathOf (s ++ '#' :: t)) (fragmentOf (s ++ '#' :: t)) = parseRoute s ('#' :: t) := by
  rw [pathOf_append h, fragmentOf_append h]

theorem parse_plain (h : '#' ∉ s) : parseRoute (pathOf s) (fragmentOf s) = parseRoute s [] := by
  rw [pathOf_eq h, fragmentOf_eq h]

/-- An empty value in an optional field says no more than its absence. -/
def nonempty (v : Option Text) : Option Text :=
  if v.getD [] = [] then none else v

theorem nonempty_none {v : Option Text} (h : v.getD [] = []) : nonempty v = none :=
  if_pos h

theorem nonempty_some {v : Option Text} (h : v.getD [] ≠ []) : nonempty v = some (v.getD []) := by
  rw [nonempty, if_neg h]
  cases v with
  | none => exact absurd rfl h
  | some v => rfl

/-- The pull request of a page survives on the tab that shows pull requests. -/
theorem reload_git (tab : GitTab) (pr : Option Text) :
    reload (.git tab pr) = .git tab (if tab = .prs then nonempty pr else none) := by
  by_cases hpr : tab = .prs ∧ pr.getD [] ≠ []
  · obtain ⟨rfl, h⟩ := hpr
    have hlit : "/git/prs#pr=".toList = "/git/prs".toList ++ '#' :: "pr=".toList := by
      simp
    have hsegments : segmentsOf "/git/prs".toList = ["git".toList, "prs".toList] := by
      rfl
    have hvalue := parseHashValue_encode "#pr=".toList h
    have hfront : "#pr=".toList = '#' :: "pr=".toList := by simp
    rw [hfront, List.cons_append, ← hfront] at hvalue
    rw [reload, buildPath, gitPath, if_pos ⟨rfl, h⟩, hlit, List.append_assoc, List.cons_append,
      parse_url (by decide), parse_git hsegments, parseHashPR, hvalue, nonempty_some h]
    rfl
  · have hurl : gitPath tab pr = gitPath tab none := by
      have hnone : ¬ (tab = .prs ∧ (none : Option Text).getD [] ≠ []) := by simp
      rw [gitPath, gitPath, if_neg hpr, if_neg hnone]
    have hplain := reload_plainGit tab
    rw [reload, buildPath] at hplain ⊢
    rw [hurl, hplain]
    split
    · next htab =>
      have hempty : pr.getD [] = [] := by
        by_contra hne
        exact hpr ⟨htab, hne⟩
      rw [nonempty_none hempty]
    · rfl

theorem lit_chat : "/chat/".toList = '/' :: "chat".toList ++ ['/'] := by
  simp

theorem lit_run : "/run/".toList = '/' :: "run".toList ++ ['/'] := by
  simp

theorem lit_subagent : "/subagent/".toList = '/' :: "subagent".toList ++ ['/'] := by
  simp

theorem lit_spec : "/spec/".toList = '/' :: "spec".toList ++ ['/'] := by
  simp

theorem lit_files : "/files/".toList = '/' :: "files".toList ++ ['/'] := by
  simp

theorem lit_file : "/file/".toList = '/' :: "file".toList ++ ['/'] := by
  simp

theorem lit_web : "/web/".toList = '/' :: "web".toList ++ ['/'] := by
  simp

theorem reload_chat (id : Text) : reload (.chat id) = .chat id := by
  by_cases hid : id = []
  · subst hid
    exact reload_noChat
  · have hsegments := segmentsOf_value "chat".toList (by decide) (by decide) hid
    have hhash : '#' ∉ located "chat".toList (encodeURIComponent id) :=
      notMem_located _ (by decide) (notMem_hash_encode id)
    rw [reload, buildPath, chatPath, if_neg hid,
      located_lit lit_chat, parse_plain hhash,
      parse_chat hsegments]
    simp [hid]

theorem reload_run {id : Text} (hid : id ≠ []) (node : Option Text) :
    reload (.run id node) = .run id (nonempty node) := by
  have hsegments := segmentsOf_value "run".toList (by decide) (by decide) hid
  have hhash : '#' ∉ located "run".toList (encodeURIComponent id) :=
    notMem_located _ (by decide) (notMem_hash_encode id)
  by_cases hnode : node.getD [] = []
  · have hempty : parseHashNode [] = none := by rfl
    rw [reload, buildPath, runPath, if_neg (by simp [hnode]),
      located_lit lit_run, parse_plain hhash,
      parse_run hsegments, hempty, nonempty_none hnode]
    simp [hid]
  · have hvalue := parseHashValue_encode "#node=".toList hnode
    have hfront : "#node=".toList = '#' :: "node=".toList := by simp
    rw [hfront, List.cons_append, ← hfront] at hvalue
    rw [reload, buildPath, runPath, if_pos hnode, located_lit lit_run, hfront, List.append_assoc,
      List.cons_append, parse_url hhash,
      parse_run hsegments, parseHashNode, hvalue, nonempty_some hnode]
    simp [hid]

theorem specPath_eq (dir : Text) : specPath dir = "/spec/".toList ++ encodeURIComponent dir := rfl

theorem webPath_eq (path : Text) : webPath path = "/web/".toList ++ encodePath (dropSlashes path) :=
  rfl

theorem filePath_none (path : Text) : filePath path none = "/file/".toList ++ encodePath path := rfl

theorem filePath_some (path : Text) (n : WholeNumber) :
    filePath path (some n)
      = if 0 < n.val then "/file/".toList ++ encodePath path ++ "#L".toList ++ n.toString
        else "/file/".toList ++ encodePath path := rfl

theorem reload_spec {dir : Text} (hdir : dir ≠ []) : reload (.spec dir) = .spec dir := by
  have hsegments := segmentsOf_value "spec".toList (by decide) (by decide) hdir
  have hhash : '#' ∉ located "spec".toList (encodeURIComponent dir) :=
    notMem_located _ (by decide) (notMem_hash_encode dir)
  rw [reload, buildPath, specPath_eq, located_lit lit_spec,
    parse_plain hhash, parse_spec hsegments]
  simp [hdir]

/-- A value, a segment and a value behind a segment. -/
theorem segmentsOf_pair (head inner : Text) (hne : head ≠ []) (hslash : '/' ∉ head)
    (hinner : '/' ∉ inner) (outer : Text) {id : Text} (hid : id ≠ []) :
    segmentsOf (located head (encodeURIComponent outer ++ located inner (encodeURIComponent id)))
      = [head, encodeURIComponent outer, inner, encodeURIComponent id] := by
  have hend : dropLast (encodeURIComponent id) ≠ [] := by
    rw [dropLast_encode]
    exact mt encode_eq_nil.1 hid
  have hparts : encodeURIComponent outer ++ located inner (encodeURIComponent id)
      = (encodeURIComponent outer ++ '/' :: inner ++ ['/']) ++ encodeURIComponent id := by
    rw [located, List.append_assoc _ ['/'], List.singleton_append, List.append_assoc]
  have hself : dropLast (encodeURIComponent outer ++ located inner (encodeURIComponent id))
      = encodeURIComponent outer ++ located inner (encodeURIComponent id) := by
    rw [hparts, dropLast_append hend, dropLast_encode]
  have hsome : encodeURIComponent outer ++ located inner (encodeURIComponent id) ≠ [] := by
    rw [located, List.cons_append]
    exact List.append_ne_nil_of_right_ne_nil _ (List.cons_ne_nil _ _)
  rw [segmentsOf_tail head hne hslash, hself, if_neg hsome, located, List.cons_append,
    List.splitOn_append_cons_self_of_not_mem (notMem_slash_encode outer),
    List.splitOn_append_cons_self_of_not_mem hinner,
    List.splitOn_eq_singleton (notMem_slash_encode id)]

theorem append_append_append (a b u v : Text) : a ++ b ++ u ++ v = a ++ (b ++ (u ++ v)) := by
  rw [List.append_assoc, List.append_assoc]

theorem reload_subagent {chat id : Text} (hchat : chat ≠ []) (hid : id ≠ []) :
    reload (.subagent chat id) = .subagent chat id := by
  have htail :
      '#' ∉ encodeURIComponent chat ++ located "subagent".toList (encodeURIComponent id) := by
    intro h
    rcases List.mem_append.1 h with h | h
    · exact notMem_hash_encode chat h
    · exact notMem_located _ (by decide) (notMem_hash_encode id) h
  have hhash := notMem_located "chat".toList (by decide) htail
  have hsegments := segmentsOf_pair "chat".toList "subagent".toList (by decide) (by decide)
    (by decide) chat hid
  have hurl : subagentPath chat id = located "chat".toList
      (encodeURIComponent chat ++ located "subagent".toList (encodeURIComponent id)) := by
    have hinner := located_lit lit_subagent (encodeURIComponent id)
    have houter := located_lit lit_chat
      (encodeURIComponent chat ++ located "subagent".toList (encodeURIComponent id))
    have hparts : subagentPath chat id = "/chat/".toList
        ++ (encodeURIComponent chat ++ ("/subagent/".toList ++ encodeURIComponent id)) :=
      append_append_append _ _ _ _
    have htails :=
      congrArg (fun tail => "/chat/".toList ++ (encodeURIComponent chat ++ tail)) hinner
    exact hparts.trans (htails.trans houter)
  have hvalue : ∀ s : Text, joinSlash [s] = s := by
    intro s
    simp [joinSlash]
  rw [reload, buildPath, hurl, parse_plain hhash, parse_chat hsegments]
  simp only [List.getD_cons_zero, safeDecode_encode, List.getElem?_cons_succ,
    List.getElem?_cons_zero, List.drop_succ_cons, List.drop_zero, hvalue]
  rw [if_neg hchat, if_pos trivial, if_pos hid]

/-! ## Reloads of paths -/

theorem notMem_path (head : Text) (hhead : '#' ∉ head) (path : Text) :
    '#' ∉ located head (encodePath path) :=
  notMem_located head hhead (notMem_encodePath path)

theorem dropSlashes_of_head (h : s.head? ≠ some '/') : dropSlashes s = s := by
  cases s with
  | nil => rfl
  | cons c s =>
    rw [dropSlashes, List.dropWhile_cons_of_neg]
    simpa using h

theorem dropSlashes_cons (s : Text) : dropSlashes ('/' :: s) = dropSlashes s := by
  rw [dropSlashes, dropSlashes, List.dropWhile_cons_of_pos (by simp)]

/-- A path that does not begin with a slash keeps its first character when the slashes at its end
go. -/
theorem dropLast_ne_nil (hne : s ≠ []) (h : s.head? ≠ some '/') :
    dropLast s ≠ [] ∧ (dropLast s).head? ≠ some '/' := by
  have hfront : dropLast s <+: s := List.rdropWhile_prefix _ s
  have hnil : dropLast s ≠ [] := by
    intro hnil
    rw [dropLast, List.rdropWhile_eq_nil_iff] at hnil
    cases s with
    | nil => exact hne rfl
    | cons c s =>
      have hc := hnil c List.mem_cons_self
      simp at hc h
      exact h hc
  constructor
  · exact hnil
  · obtain ⟨rest, hrest⟩ := hfront
    rw [← hrest, List.head?_append_of_ne_nil _ hnil] at h
    exact h

/-- A folder is read without the slashes its path ends in. -/
theorem reload_files {raw : Text} (hne : raw ≠ []) (hhead : raw.head? ≠ some '/') :
    reload (.files ('/' :: raw))
      = .files (if dropLast raw = ['.'] then ['/'] else '/' :: dropLast raw) := by
  obtain ⟨hlast, hfirst⟩ := dropLast_ne_nil hne hhead
  have hsegments := segmentsOf_path "files".toList (by decide) (by decide) raw
  rw [if_neg hlast] at hsegments
  have hurl : filesPath ('/' :: raw) = located "files".toList (encodePath raw) := by
    rw [filesPath, if_neg (by simp [hne]), dropSlashes_cons, dropSlashes_of_head hhead,
      located_lit lit_files]
  rw [reload, buildPath, hurl, parse_plain (notMem_path _ (by decide) raw),
    parse_files hsegments (List.splitOn_ne_nil _ _)]
  simp only [joinSlash_splitOn, safeDecode_encodePath, dropSlashes_of_head hfirst, hlast, false_or]

theorem reload_web {raw : Text} (hne : raw ≠ []) (hhead : raw.head? ≠ some '/') :
    reload (.web ('/' :: raw)) = .web ('/' :: dropLast raw) := by
  obtain ⟨hlast, hfirst⟩ := dropLast_ne_nil hne hhead
  have hsegments := segmentsOf_path "web".toList (by decide) (by decide) raw
  rw [if_neg hlast] at hsegments
  have hurl : webPath ('/' :: raw) = located "web".toList (encodePath raw) := by
    rw [webPath_eq, dropSlashes_cons, dropSlashes_of_head hhead,
      located_lit lit_web]
  rw [reload, buildPath, hurl, parse_plain (notMem_path _ (by decide) raw), parse_web hsegments]
  simp only [joinSlash_splitOn, safeDecode_encodePath, dropSlashes_of_head hfirst]
  rw [if_pos hlast]

/-- The fragment a line is written as. -/
def lineHash (line : Option WholeNumber) : Text :=
  match line with
  | some n => if 0 < n.val then '#' :: 'L' :: n.toString else []
  | none => []

/-- A file is read without the slashes its path ends in. -/
theorem reload_file (path : Text) (line : Option WholeNumber) :
    reload (.file path line)
      = if dropLast path = [] then noChat
        else .file (dropLast path) (parseHashLine (lineHash line)) := by
  have hsegments := segmentsOf_path "file".toList (by decide) (by decide) path
  have hhash := notMem_path "file".toList (by decide) path
  have hparse : reload (.file path line)
      = parseRoute (located "file".toList (encodePath path)) (lineHash line) := by
    have hplain : "/file/".toList ++ encodePath path = located "file".toList (encodePath path) :=
      located_lit lit_file _
    have hfront : "#L".toList = '#' :: ['L'] := by simp
    rw [reload, buildPath]
    cases line with
    | none =>
      rw [filePath_none, hplain, lineHash]
      exact parse_plain hhash
    | some n =>
      simp only [filePath_some, lineHash]
      split
      · rw [hplain, hfront, List.append_assoc, List.cons_append, List.singleton_append]
        exact parse_url hhash _
      · rw [hplain]
        exact parse_plain hhash
  rw [hparse]
  by_cases hlast : dropLast path = []
  · rw [if_pos hlast] at hsegments ⊢
    exact parse_file_one hsegments
  · rw [if_neg hlast] at hsegments ⊢
    rw [parse_file hsegments (List.splitOn_ne_nil _ _)]
    simp only [joinSlash_splitOn, safeDecode_encodePath]
    rw [if_neg hlast]

end Marotte.Route
