import Marotte.EntryLog.Files
import Marotte.EntryLog.Views
import Mathlib.Data.List.Duplicate
import Mathlib.Data.List.TakeWhile

/-! # What a rewrite keeps

The rescan that ends a rewrite cuts the new file at the first line over the per-entry cap, and a
turn that opens twice in it is read back from its second opening on.
-/
namespace Marotte

open History

namespace EntryLog

variable (c : LineCodec)

def fits (e : Entry) : Bool := (c.marshal e).length + 1 ≤ maxEntryLineBytes

/-- The entries of a rewrite up to the first whose line is over the cap. -/
def kept (entries : List Entry) : List Entry := (rewritten entries).takeWhile (fits c)

variable {c}

/-! ## How long a line is -/

theorem le_print_obj {members : List (String × Json)} {k : String} {v : Json}
    (h : (k, v) ∈ members) : v.print.length ≤ (Json.obj members).print.length := by
  have hmem : v.print.length ≤ (Json.printMembers members).length := by
    induction members with
    | nil => cases h
    | cons m ms ih =>
      rcases List.mem_cons.mp h with rfl | h
      · cases ms <;> simp only [Json.printMembers, List.length_append, List.length_cons] <;> omega
      · cases ms with
        | nil => cases h
        | cons n ms =>
          have hle := ih h
          simp only [Json.printMembers, List.length_append, List.length_cons] at hle ⊢
          omega
  simp only [Json.print, List.length_cons, List.length_append]
  omega

theorem le_flatMap_length {α β : Type*} {g : α → List β} (h : ∀ a, 1 ≤ (g a).length)
    (l : List α) : l.length ≤ (l.flatMap g).length := by
  induction l with
  | nil => exact Nat.le_refl 0
  | cons a l ih =>
    have hone := h a
    rw [List.length_cons, List.flatMap_cons, List.length_append]
    omega

theorem le_quote (s : String) : s.toList.length ≤ (Json.print (.str s)).length := by
  have hchars : s.toList.length ≤ (s.toList.flatMap Json.escapeChar).length := by
    apply le_flatMap_length
    intro a
    simp only [Json.escapeChar, Json.escapeByte]
    repeat' split
    all_goals simp
  rw [Json.print, Json.quote, List.length_cons, List.length_append]
  omega

theorem le_utf8 (cs : List Char) : cs.length ≤ (Json.utf8 cs).length := by
  apply le_flatMap_length
  intro a
  rw [String.length_utf8EncodeChar]
  exact a.utf8Size_pos

def opening : Entry where
  id := "t-a"
  turn := "t-a"
  payload := .turnOpen { source := .prompt, n := 0 }

def spoken (text : String) : Entry where
  id := "s1"
  turn := "t-a"
  payload := .text { text := text }
  seq := 1

/-- A text is no longer than the line that carries it. -/
theorem le_marshal_spoken (text : String) :
    text.toList.length ≤ (jsonLines.marshal (spoken text)).length := by
  obtain ⟨members, hobj, hpayload⟩ : ∃ members,
      EntryCodec.encodeEntry (spoken text) = .obj members ∧
        ("payload", Json.obj [("text", .str text)]) ∈ members := by
    refine ⟨_, rfl, ?_⟩
    right; right; right; left
  calc
    text.toList.length ≤ (Json.print (.str text)).length := le_quote text
    _ ≤ (Json.obj [("text", .str text)]).print.length := le_print_obj (List.mem_singleton_self _)
    _ ≤ (Json.obj members).print.length := le_print_obj hpayload
    _ ≤ (jsonLines.marshal (spoken text)).length := by
      rw [← hobj]
      exact le_utf8 _

/-! ## The scan of the new file -/

/-- Every entry of a rewrite stands behind the turn_open of its turn, or is one. -/
theorem opens_before {entries : List Entry} {groups : List (List Entry)}
    (hok : groupByTurn entries = .ok groups) (pre : List Entry) (e : Entry) (post : List Entry)
    (heq : rewritten entries = pre ++ e :: post) :
    e.kind = .turnOpen ∨ ∃ f ∈ pre, f.kind = .turnOpen ∧ f.turn = e.turn := by
  have hmem : e ∈ rewritten entries := by simp [heq]
  have hturn : e.turn ∈ Grouping.keys Entry.turn entries := by
    rw [← keys_rewritten]
    exact (Grouping.mem_keys Entry.turn).mpr ⟨e, hmem, rfl⟩
  obtain ⟨n, hn⟩ := (groupByTurn_eq_ok hok).2 e.turn hturn
  obtain ⟨lead, rest, p, hgroup, hp, -⟩ := turnOrdinal_eq_ok hn (turnGroup_ne_nil hturn)
  have hown : own (rewritten entries) e.turn =
      persistBoundEntry { lead with seq := 0 } ::
        rest.mapIdx (fun i e => persistBoundEntry { e with seq := i + 1 }) := by
    rw [own_rewritten, hgroup, renumberGroup, List.mapIdx_cons]
  have hlead : (persistBoundEntry { lead with seq := 0 }).kind = .turnOpen := by
    rw [persistBoundEntry_kind]
    exact Entry.kind_of_payload hp
  have hsplit : own (rewritten entries) e.turn =
      own pre e.turn ++ (e :: own post e.turn) := by
    rw [heq, own_append]
    simp [own]
  rw [hown] at hsplit
  cases hpre : own pre e.turn with
  | nil =>
    rw [hpre, List.nil_append] at hsplit
    apply Or.inl
    rw [← (List.cons.inj hsplit).1]
    exact hlead
  | cons f fs =>
    rw [hpre, List.cons_append] at hsplit
    have hf : f ∈ own pre e.turn := by simp [hpre]
    rw [own, List.mem_filter] at hf
    refine .inr ⟨f, hf.1, ?_, by simpa using hf.2⟩
    rw [← (List.cons.inj hsplit).1]
    exact hlead

theorem rewriteBytes_concat (es : List Entry) (e : Entry) :
    rewriteBytes c (es ++ [e]) = rewriteBytes c es ++ (c.marshal e ++ [newline]) := by
  simp [rewriteBytes]

/-- What of a rewrite fits the cap is scanned whole. -/
theorem intact_initial {entries : List Entry} {groups : List (List Entry)}
    (hok : groupByTurn entries = .ok groups) {es : List Entry} (hpre : es <+: rewritten entries)
    (hfits : ∀ e ∈ es, fits c e = true) : ∃ b, c.Intact (rewriteBytes c es) b := by
  induction es using List.reverseRecOn with
  | nil => exact ⟨_, LineCodec.intact_nil⟩
  | append_singleton es e ih =>
    obtain ⟨rest, hrest⟩ := hpre
    obtain ⟨b, hb⟩ := ih ⟨[e] ++ rest, by rw [← List.append_assoc, hrest]⟩
      (fun f hf => hfits f (List.mem_append_left _ hf))
    have hplace := opens_before hok es e rest
      (by rw [← hrest, List.append_assoc, List.singleton_append])
    have hheld : b.turns e.turn ≠ none ∨ e.kind = .turnOpen := by
      rcases hplace with ho | ⟨f, hf, hk, hturn⟩
      · exact .inr ho
      · apply Or.inl
        have hmem : f.turn ∈ b.order := by
          rw [hb.follows.order, entriesOf_rewriteBytes]
          exact mem_opened.mpr ⟨f, hf, hk, rfl⟩
        rw [hturn, hb.folded.mem_order] at hmem
        exact Option.isSome_iff_ne_none.mp hmem
    obtain ⟨b', hb'⟩ : ∃ b', b.observeLine e ((c.marshal e).length + 1) = some b' :=
      observes_of_held hheld
    have hfit : (c.marshal e).length + 1 ≤ maxEntryLineBytes := by
      simpa [fits] using hfits e (by simp)
    exact ⟨b', rewriteBytes_concat es e ▸ hb.append hfit hb'⟩

theorem kept_isPrefix (entries : List Entry) : kept c entries <+: rewritten entries :=
  List.takeWhile_prefix _

theorem fits_of_mem_kept (entries : List Entry) {e : Entry} (he : e ∈ kept c entries) :
    fits c e = true := List.mem_takeWhile_imp he

/-- The rescan of the new file stops where the first line over the cap stands. -/
theorem scan_rewritten {entries : List Entry} {groups : List (List Entry)}
    (hok : groupByTurn entries = .ok groups) : ∃ b, c.Intact (rewriteBytes c (kept c entries)) b ∧
      c.scanFile (rewriteBytes c (rewritten entries)) = b := by
  obtain ⟨b, hb⟩ := intact_initial (c := c) hok (kept_isPrefix entries) fun e he => fits_of_mem_kept _ he
  refine ⟨b, hb, ?_⟩
  have hsplit : rewritten entries = kept c entries ++ (rewritten entries).dropWhile (fits c) :=
    (List.takeWhile_append_dropWhile).symm
  have hacc : Replay.Accepts c.observeLine Index.empty ((kept c entries).map c.marshal) b := by
    obtain ⟨lines, hl, hjoin, ha⟩ := hb
    have hlines := Lines.split_join newline (marshal_notMem (c := c) (kept c entries))
    rw [show Lines.join newline ((kept c entries).map c.marshal) = Lines.join newline lines from hjoin,
      Lines.split_join newline hl] at hlines
    rw [← (Prod.mk.inj hlines).1]
    exact ha
  have hlines : (Lines.split newline (rewriteBytes c (rewritten entries))).1 =
      (kept c entries).map c.marshal ++
        ((rewritten entries).dropWhile (fits c)).map c.marshal := by
    rw [rewriteBytes, Lines.split_join newline (marshal_notMem _), ← List.map_append, ← hsplit]
  rw [LineCodec.scanFile, hlines, Replay.replay_append hacc]
  cases hrest : (rewritten entries).dropWhile (fits c) with
  | nil => rfl
  | cons e es =>
    have hnot : fits c e = false := by
      have hhead := List.head?_dropWhile_not (fits c) (rewritten entries)
      rw [hrest] at hhead
      simpa using hhead
    have hlong : (c.marshal e).length + 1 > maxEntryLineBytes := by
      simpa [fits] using hnot
    have hstop : c.observeLine b (c.marshal e) = none := if_pos hlong
    rw [List.map_cons, Replay.replay, hstop]

/-! ## A turn that opens twice -/

theorem nodup_of_contiguous {es : List Entry}
    (h : ∀ turn, (own es turn).map Entry.seq = List.range (own es turn).length) : es.Nodup := by
  by_contra hdup
  obtain ⟨e, he⟩ := List.exists_duplicate_iff_not_nodup.mpr hdup
  have hsub : [e, e].Sublist (own es e.turn) := by
    have hfilter := (List.duplicate_iff_sublist.mp he).filter (fun f => decide (f.turn = e.turn))
    simpa [own] using hfilter
  have hseq := hsub.map Entry.seq
  rw [h e.turn] at hseq
  have hnodup := List.nodup_range.sublist hseq
  simp at hnodup

theorem duplicate_flatMap {α β : Type*} {l : List α} {g : α → List β} {a : α} {x : β}
    (ha : List.Duplicate a l) (hx : x ∈ g a) : List.Duplicate x (l.flatMap g) := by
  rw [List.duplicate_iff_sublist] at ha ⊢
  have hone : [x].Sublist (g a) := List.singleton_sublist.mpr hx
  have htwo : [x, x].Sublist ([a, a].flatMap g) := by
    simpa using hone.append hone
  exact htwo.trans (ha.flatMap g)

/-- A range of a turn that starts with one of the turn's own lines. -/
def Led (c : LineCodec) (file : List UInt8) (turn : String) (r : ByteRange) : Prop :=
  ∃ line e, IsLine c line e ∧ e.turn = turn ∧ r.start + (line.length + 1) ≤ r.stop ∧
    (file.drop r.start).take (line.length + 1) = line ++ [newline]

theorem Led.append {file : List UInt8} {turn : String} {r : ByteRange} (h : Led c file turn r)
    (tail : List UInt8) : Led c (file ++ tail) turn r := by
  obtain ⟨line, e, hline, hturn, hstop, hbytes⟩ := h
  have hlen := congrArg List.length hbytes
  simp only [List.length_take, List.length_drop, List.length_append, List.length_singleton] at hlen
  refine ⟨line, e, hline, hturn, hstop, ?_⟩
  rw [List.drop_append_of_le_length (by omega), List.take_append_of_le_length
    (by rw [List.length_drop]; omega), hbytes]

theorem extendRanges_keeps {rs : List ByteRange} {r : ByteRange} (hr : r ∈ rs) {start stop : ℕ}
    (hle : start ≤ stop) :
    ∃ r' ∈ extendRanges rs start stop, r'.start = r.start ∧ r.stop ≤ r'.stop := by
  induction rs with
  | nil => cases hr
  | cons last rs ih =>
    cases rs with
    | nil =>
      rw [List.mem_singleton] at hr
      subst hr
      by_cases hstop : r.stop = start
      · refine ⟨{ r with stop := stop }, ?_, rfl, ?_⟩
        · simp [extendRanges, hstop]
        · simp only
          omega
      · refine ⟨r, ?_, rfl, Nat.le_refl _⟩
        simp [extendRanges, hstop]
    | cons next rs =>
      rcases List.mem_cons.mp hr with rfl | hr
      · exact ⟨r, by simp [extendRanges], rfl, Nat.le_refl _⟩
      · obtain ⟨r', hr', hsame⟩ := ih hr
        exact ⟨r', List.mem_cons_of_mem _ hr', hsame⟩

/-- Every turn of an intact file has a range that starts with one of its lines. -/
theorem led_of_intact {file : List UInt8} {b : Index} (h : c.Intact file b) {turn : String}
    {st : TurnState} (hst : b.turns turn = some st) : ∃ r ∈ st.ranges, Led c file turn r := by
  obtain ⟨lines, hl, rfl, ha⟩ := h
  induction lines using List.reverseRecOn generalizing b st with
  | nil =>
    rw [← Replay.accepts_nil.mp ha] at hst
    cases hst
  | append_singleton lines line ih =>
    obtain ⟨b₀, hb₀, hstep⟩ := Replay.accepts_concat.mp ha
    obtain ⟨hfits, e, he, hobs⟩ := LineCodec.observeLine_eq_some.mp hstep
    have hlines : ∀ l ∈ lines, newline ∉ l := fun l hm => hl l (List.mem_append_left _ hm)
    have hintact : c.Intact (Lines.join newline lines) b₀ := ⟨lines, hlines, rfl, hb₀⟩
    have hjoin : Lines.join newline (lines ++ [line]) =
        Lines.join newline lines ++ (line ++ [newline]) := by simp
    have hsize : b₀.size = (Lines.join newline lines).length := hintact.size_eq
    obtain ⟨i, hi, rfl⟩ := Index.observeLine_iff_observe.mp hobs
    have hturns := Index.observe_turns hi turn
    rw [hjoin]
    by_cases hself : turn = e.turn
    · by_cases ho : e.kind = .turnOpen
      · obtain ⟨p, hp⟩ := Entry.kind_eq_turnOpen.mp ho
        simp only [hself, if_true, hp] at hturns
        rw [hself] at hst
        have heq : st = newTurnState e p b₀.size (b₀.size + (line.length + 1)) :=
          Option.some.inj (hst.symm.trans hturns)
        subst heq
        refine ⟨⟨b₀.size, b₀.size + (line.length + 1)⟩, by simp [newTurnState], line, e,
          ⟨hl line (by simp), hfits, he⟩, hself.symm, Nat.le_refl _, ?_⟩
        rw [hsize, List.drop_left, ← List.length_singleton (a := newline), ← List.length_append,
          List.take_length]
      · have hrow := Index.observe_turns_of_ne_turnOpen ho hi turn
        rw [if_pos hself] at hrow
        have hst' : (b₀.turns turn).map (fun st =>
            (st.extend e b₀.size (b₀.size + (line.length + 1))).fold e) = some st :=
          hrow.symm.trans hst
        obtain ⟨st₀, hst₀, rfl⟩ := Option.map_eq_some_iff.mp hst'
        obtain ⟨r, hr, line', e', hline', hturn', hstop', hbytes'⟩ := ih hst₀ hlines hb₀
        obtain ⟨r', hr', hstart, hstop⟩ := extendRanges_keeps hr
          (Nat.le_add_right b₀.size (line.length + 1))
        refine ⟨r', ?_, Led.append ⟨line', e', hline', hturn', ?_, ?_⟩ _⟩
        · rw [TurnState.fold_ranges]
          exact hr'
        · omega
        · rw [hstart, hbytes']
    · rw [if_neg hself] at hturns
      obtain ⟨r, hr, hled⟩ := ih (hturns.symm.trans hst) hlines hb₀
      exact ⟨r, hr, hled.append _⟩

/-- A range that starts with a wanted line holds its entry, if it can be read. -/
theorem Led.decoded {file : List UInt8} {turn : String} {r : ByteRange} (h : Led c file turn r)
    (want : List String) (hwant : turn ∈ want) :
    ∃ e, ∀ es, c.decodeEntryRange ((file.drop r.start).take (r.stop - r.start)) want = .ok es →
      e ∈ es := by
  obtain ⟨line, e, hline, hturn, hstop, hbytes⟩ := h
  refine ⟨e, fun es hes => ?_⟩
  have hslice : (file.drop r.start).take (r.stop - r.start) = line ++ newline ::
      ((file.drop r.start).take (r.stop - r.start)).drop (line.length + 1) := by
    have hcut : ((file.drop r.start).take (r.stop - r.start)).take (line.length + 1) =
        line ++ [newline] := by
      rw [List.take_take, Nat.min_eq_left (by omega), hbytes]
    conv_lhs => rw [← List.take_append_drop (line.length + 1)
      ((file.drop r.start).take (r.stop - r.start)), hcut]
    simp
  rw [hslice, LineCodec.decodeEntryRange, Lines.split_append_sep newline hline.whole] at hes
  have hone : c.decodeLine line (line.length + 1) = .ok e := by
    rw [LineCodec.decodeLine, if_neg (Nat.not_lt.mpr hline.fits), hline.reads]
  simp only [LineCodec.decodeLines, hone] at hes
  split at hes
  · cases hes
  · rename_i xs hxs
    split at hxs
    · cases hxs
    · cases hxs
      split at hes
      · cases hes
        simp [hturn, hwant]
      · split at hes
        · cases hes
        · cases hes
          simp [hturn, hwant]

theorem readRanges_eq_ok {file : List UInt8} {want : List String} {rs : List ByteRange}
    {es : List Entry} (h : c.readRanges file want rs = .ok es) :
    ∃ read : ByteRange → List Entry, es = rs.flatMap read ∧ ∀ r ∈ rs,
      c.decodeEntryRange ((file.drop r.start).take (r.stop - r.start)) want = .ok (read r) := by
  let read : ByteRange → List Entry := fun r =>
    (c.decodeEntryRange ((file.drop r.start).take (r.stop - r.start)) want).toOption.getD []
  refine ⟨read, ?_⟩
  induction rs generalizing es with
  | nil =>
    cases h
    simp
  | cons r rs ih =>
    rw [LineCodec.readRanges] at h
    cases hr : c.decodeEntryRange ((file.drop r.start).take (r.stop - r.start)) want with
    | error err =>
      simp only [hr] at h
      cases h
    | ok xs =>
      simp only [hr] at h
      cases hrest : c.readRanges file want rs with
      | error err =>
        simp only [hrest] at h
        cases h
      | ok ys =>
        simp only [hrest, Except.ok.injEq] at h
        obtain ⟨hys, hall⟩ := ih hrest
        have hread : read r = xs := by simp [read, hr, Except.toOption]
        refine ⟨?_, ?_⟩
        · rw [List.flatMap_cons, hread, ← hys, h]
        · intro r' hr'
          rcases List.mem_cons.mp hr' with rfl | hr'
          · rw [hr, hread]
          · exact hall r' hr'

/-- A log that opens a turn twice reads some entry twice, if it reads at all. -/
theorem read_twice {l : EntryLog} {file tail : List UInt8} {b : Index} (hb : c.Intact file b)
    (hfile : l.file = file ++ tail) (hindex : l.index = b.live b.hidden)
    (hdup : ¬ b.order.Nodup) {es : List Entry} (hes : l.readSet c l.index.order = .ok es) :
    ¬ es.Nodup := by
  obtain ⟨turn, hturn⟩ := List.exists_duplicate_iff_not_nodup.mpr hdup
  have hmem : turn ∈ b.order := hturn.mem
  have hsome := (hb.folded.mem_order turn).mp hmem
  obtain ⟨st, hst⟩ := Option.isSome_iff_exists.mp hsome
  obtain ⟨r, hr, hled⟩ := led_of_intact hb hst
  have hnil : l.index.order ≠ [] := by
    rw [hindex, Index.live_order]
    exact List.ne_nil_of_mem hmem
  rw [readSet, if_neg hnil] at hes
  obtain ⟨read, rfl, hread⟩ := readRanges_eq_ok hes
  have hranges : List.Duplicate r (l.index.order.flatMap
      (fun id => ((l.index.turns id).map TurnState.ranges).getD [])) := by
    rw [hindex, Index.live_order]
    apply duplicate_flatMap hturn
    rw [Index.live_turns, hst]
    exact hr
  have hsorted : List.Duplicate r ((l.index.order.flatMap
      (fun id => ((l.index.turns id).map TurnState.ranges).getD [])).insertionSort
        (fun r s => r.start ≤ s.start)) := by
    rw [List.duplicate_iff_two_le_count] at hranges ⊢
    rw [(List.perm_insertionSort _ _).count_eq]
    exact hranges
  obtain ⟨e, he⟩ := (hled.append tail).decoded l.index.order
    (by rw [hindex, Index.live_order]; exact hmem)
  have hone := hread r hsorted.mem
  rw [hfile] at hone
  apply List.exists_duplicate_iff_not_nodup.mp
  exact ⟨e, duplicate_flatMap hsorted (he _ hone)⟩

/-! ## What a rewrite answers -/

/-- Whether a rewrite gets as far as its rename. -/
def Commits (w : RewriteWorld) (l : EntryLog) (entries : List Entry) : Prop :=
  l.removed = false ∧ (∃ groups, groupByTurn entries = .ok groups) ∧
    w.closes = true ∧ w.commits = true

/-- Whether what follows the rename goes through: the tail is cut, if there is one, and the header
takes the counters. -/
def Settles (c : LineCodec) (w : RewriteWorld) (l : EntryLog) (entries : List Entry) : Prop :=
  (kept c entries = rewritten entries ∨ w.truncates = true) ∧
    ∃ header, l.header.cacheCounters w.caches
      (c.rescan (rewriteBytes c (kept c entries))).counters = .ok header

/-- An error leaves the log reading as it did; a success leaves it reading as the entries given. -/
def LosslessOrRefused (c : LineCodec) (w : RewriteWorld) (l : EntryLog) (entries : List Entry) :
    Prop :=
  (∀ err, (l.rewrite c w entries).2 = .error err →
    (l.rewrite c w entries).1.allWithReverted c = l.allWithReverted c) ∧
  ((l.rewrite c w entries).2 = .ok () →
    ∃ hidden, (l.rewrite c w entries).1.allWithReverted c = .ok (rewritten entries, hidden))

/-- The turns the new file hides. -/
def hiddenAfter (c : LineCodec) (entries : List Entry) : List String :=
  revertedTurns { new noHeader 0 with index := c.rescan (rewriteBytes c (kept c entries)) }

/-- The rewrites that keep what they are given: those refused before the rename, those whose lines
all fit and whose turns open once, and those that fail behind the rename but change nothing. -/
def RewriteKeeps (c : LineCodec) (w : RewriteWorld) (l : EntryLog) (entries : List Entry) : Prop :=
  ¬ Commits w l entries ∨
  (Settles c w l entries ∧ (∀ e ∈ rewritten entries, fits c e = true) ∧
    (opened (rewritten entries)).Nodup) ∨
  (¬ Settles c w l entries ∧ (opened (kept c entries)).Nodup ∧
    l.recorded c = kept c entries ∧ l.revertedTurns = hiddenAfter c entries)

variable {l l' : EntryLog} {w : RewriteWorld} {entries : List Entry}

theorem rewrite_refused (h : ¬ Commits w l entries) : ∃ err, l.rewrite c w entries = (l, .error err) := by
  rw [rewrite]
  split
  · exact ⟨_, rfl⟩
  · rename_i hremoved
    split
    · exact ⟨_, rfl⟩
    · rename_i groups hok
      split
      · exact ⟨_, rfl⟩
      · rename_i hcloses
        split
        · exact ⟨_, rfl⟩
        · rename_i hcommits
          exact absurd ⟨by simpa using hremoved, ⟨groups, hok⟩, by simpa using hcloses,
            by simpa using hcommits⟩ h

theorem rewriteBytes_kept (entries : List Entry) : rewriteBytes c (rewritten entries) =
    rewriteBytes c (kept c entries) ++
      rewriteBytes c ((rewritten entries).dropWhile (fits c)) := by
  rw [rewriteBytes, rewriteBytes, rewriteBytes, ← Lines.join_append, ← List.map_append, kept,
    List.takeWhile_append_dropWhile]

theorem kept_eq_iff : kept c entries = rewritten entries ↔
    (rewriteBytes c ((rewritten entries).dropWhile (fits c))).length = 0 := by
  have hsplit : kept c entries ++ (rewritten entries).dropWhile (fits c) = rewritten entries :=
    List.takeWhile_append_dropWhile
  cases hrest : (rewritten entries).dropWhile (fits c) with
  | nil =>
    rw [hrest, List.append_nil] at hsplit
    simp [hsplit, rewriteBytes]
  | cons e es =>
    have hne : kept c entries ≠ rewritten entries := by
      intro heq
      have hlen := congrArg List.length hsplit
      rw [heq, hrest] at hlen
      simp at hlen
    simp [hne, rewriteBytes]

/-- The log behind the rename: it holds what the scan keeps, and maybe a tail left uncut. -/
theorem rewrite_committed (h : Commits w l entries) :
    ∃ b, c.Intact (rewriteBytes c (kept c entries)) b ∧
      c.rescan (rewriteBytes c (kept c entries)) = b.live b.hidden ∧
      ((Settles c w l entries ∧ ∃ header, l.rewrite c w entries =
          ({ l with
              file := rewriteBytes c (kept c entries)
              index := b.live b.hidden
              header := header }, .ok ())) ∨
        (¬ Settles c w l entries ∧ ∃ tail err, l.rewrite c w entries =
          ({ l with
              file := rewriteBytes c (kept c entries) ++ tail
              index := b.live b.hidden }, .error err))) := by
  obtain ⟨hremoved, ⟨groups, hok⟩, hcloses, hcommits⟩ := h
  obtain ⟨b, hb, hscan⟩ := scan_rewritten (c := c) hok
  have hindex : c.rescan (rewriteBytes c (rewritten entries)) = b.live b.hidden := by
    rw [LineCodec.rescan, hscan, Index.resolve_eq_live hb.folded]
  have hsize : (b.live b.hidden).size = (rewriteBytes c (kept c entries)).length := hb.size_eq
  refine ⟨b, hb, hb.rescan_eq, ?_⟩
  have hbytes := rewriteBytes_kept (c := c) entries
  have hless : (b.live b.hidden).size < (rewriteBytes c (rewritten entries)).length ↔
      kept c entries ≠ rewritten entries := by
    rw [hsize, hbytes, List.length_append, Ne, kept_eq_iff]
    omega
  have htake : (rewriteBytes c (rewritten entries)).take (b.live b.hidden).size =
      rewriteBytes c (kept c entries) := by
    rw [hsize, hbytes, List.take_left]
  have hgroups := (groupByTurn_eq_ok hok).1
  rw [Settles, hb.rescan_eq]
  simp only [rewrite, hremoved, Bool.false_eq_true, if_false, hok, hcloses, hcommits, hgroups,
    hindex, hless, htake, Bool.true_eq_false]
  by_cases hcut : kept c entries ≠ rewritten entries ∧ w.truncates = false
  · apply Or.inr
    refine ⟨?_, rewriteBytes c ((rewritten entries).dropWhile (fits c)), .truncateTail, ?_⟩
    · rintro ⟨hkept | htruncates, -⟩
      · exact hcut.1 hkept
      · rw [hcut.2] at htruncates
        cases htruncates
    · rw [if_pos hcut, hbytes]
  · have hpass : kept c entries = rewritten entries ∨ w.truncates = true := by
      by_cases hkept : kept c entries = rewritten entries
      · exact .inl hkept
      · apply Or.inr
        by_contra htruncates
        exact hcut ⟨hkept, by simpa using htruncates⟩
    rw [if_neg hcut, writeCounters]
    simp only [hpass, true_and]
    cases hcache : l.header.cacheCounters w.caches (b.live b.hidden).counters with
    | error err =>
      apply Or.inr
      refine ⟨?_, [], err, ?_⟩
      · rintro ⟨header, hheader⟩
        cases hheader
      · rw [List.append_nil]
    | ok header => exact .inl ⟨⟨header, rfl⟩, header, rfl⟩

theorem contiguous_rewritten (entries : List Entry) (turn : String) :
    (own (rewritten entries) turn).map Entry.seq =
      List.range (own (rewritten entries) turn).length := by
  rw [own_rewritten]
  exact renumberGroup_seq _

/-- Reading the new file: what the scan kept, when every turn of it opens once. -/
theorem read_kept (l' : EntryLog) {b : Index} {tail : List UInt8}
    (hb : c.Intact (rewriteBytes c (kept c entries)) b)
    (hfile : l'.file = rewriteBytes c (kept c entries) ++ tail)
    (hindex : l'.index = b.live b.hidden) (hnodup : (opened (kept c entries)).Nodup) :
    l'.allWithReverted c = .ok (kept c entries, l'.revertedTurns) := by
  have hcoherent : CoherentUnder c { l' with failed := true } b b.hidden := by
    refine ⟨?_, hindex, by simp⟩
    rw [hfile, hb.size_eq, List.take_left]
    exact hb
  have hrec : ({ l' with failed := true } : EntryLog).recorded c = kept c entries := by
    rw [hcoherent.recorded_eq, hfile, hb.size_eq, List.take_left, entriesOf_rewriteBytes]
  have horder : l'.index.order = opened (kept c entries) := by
    rw [hindex, Index.live_order, hb.follows.order, entriesOf_rewriteBytes]
  have hset : l'.index.order.Nodup := by
    rw [horder]
    exact hnodup
  have hread := hcoherent.readSet_eq (by rw [hrec]; exact hnodup) hset
  rw [hrec] at hread
  have hall : (kept c entries).filter (fun e => e.turn ∈ l'.index.order) = kept c entries := by
    rw [List.filter_eq_self]
    intro e he
    have hmem := hb.follows.turn_mem e (by rw [entriesOf_rewriteBytes]; exact he)
    rw [hindex, Index.live_order]
    simpa using hmem
  rw [hall] at hread
  have hsame : l'.readSet c l'.index.order = .ok (kept c entries) := hread
  simp only [allWithReverted, hsame]

/-- And it reads no list whose entries are all different, when some turn of it opens twice. -/
theorem read_reopened {b : Index} {tail : List UInt8}
    (hb : c.Intact (rewriteBytes c (kept c entries)) b)
    (hfile : l'.file = rewriteBytes c (kept c entries) ++ tail)
    (hindex : l'.index = b.live b.hidden) (hdup : ¬ (opened (kept c entries)).Nodup)
    {es : List Entry} {hidden : List String} (hes : l'.allWithReverted c = .ok (es, hidden)) :
    ¬ es.Nodup := by
  have horder : ¬ b.order.Nodup := by
    rw [hb.follows.order, entriesOf_rewriteBytes]
    exact hdup
  apply read_twice hb hfile hindex horder
  rw [allWithReverted] at hes
  split at hes
  · cases hes
  · rename_i xs hxs
    cases hes
    exact hxs

theorem Sound.allWithReverted_eq (h : Sound c l) :
    l.allWithReverted c = .ok (l.recorded c, l.revertedTurns) := by
  have hnodup : l.index.order.Nodup := by
    rw [h.order_eq]
    exact h.wellFormed.opensOnce
  have hall : (l.recorded c).filter (fun e => e.turn ∈ l.index.order) = l.recorded c := by
    rw [List.filter_eq_self]
    intro e he
    simpa using h.turn_mem he
  simp only [allWithReverted, h.readSet_eq hnodup, hall]

theorem kept_of_fits (h : ∀ e ∈ rewritten entries, fits c e = true) :
    kept c entries = rewritten entries := List.takeWhile_eq_self_iff.mpr h

/-- A rewrite that goes through is lossless exactly when its lines fit and its turns open once. -/
theorem lossless_iff_of_settles (hcommit : Commits w l entries) (hsettle : Settles c w l entries) :
    LosslessOrRefused c w l entries ↔ (∀ e ∈ rewritten entries, fits c e = true) ∧
      (opened (rewritten entries)).Nodup := by
  obtain ⟨b, hb, -, ⟨-, header, heq⟩ | ⟨hno, -⟩⟩ := rewrite_committed (c := c) hcommit
  · rw [LosslessOrRefused, heq]
    constructor
    · rintro ⟨-, hok⟩
      obtain ⟨hidden, hread⟩ := hok rfl
      by_cases hnodup : (opened (kept c entries)).Nodup
      · rw [read_kept _ hb (List.append_nil _).symm rfl hnodup] at hread
        have hkept : kept c entries = rewritten entries := (Prod.mk.inj (Except.ok.inj hread)).1
        refine ⟨fun e he => fits_of_mem_kept entries (by rwa [hkept]), ?_⟩
        rwa [← hkept]
      · exact absurd (nodup_of_contiguous (contiguous_rewritten entries))
          (read_reopened hb (List.append_nil _).symm rfl hnodup hread)
    · rintro ⟨hfits, hnodup⟩
      have hkept := kept_of_fits hfits
      have hread := read_kept { l with
        file := rewriteBytes c (kept c entries)
        index := b.live b.hidden
        header := header } hb (List.append_nil _).symm rfl (by rwa [hkept])
      exact ⟨by simp, fun _ => ⟨_, hread.trans (congrArg (fun es => Except.ok (es, _)) hkept)⟩⟩
  · exact absurd hsettle hno

/-- A rewrite that fails behind its rename is refused exactly when it changed nothing. -/
theorem refused_iff_of_not_settles (h : Sound c l) (hcommit : Commits w l entries)
    (hsettle : ¬ Settles c w l entries) :
    LosslessOrRefused c w l entries ↔ (opened (kept c entries)).Nodup ∧
      l.recorded c = kept c entries ∧ l.revertedTurns = hiddenAfter c entries := by
  obtain ⟨b, hb, hrescan, ⟨hyes, -⟩ | ⟨-, tail, err, heq⟩⟩ := rewrite_committed (c := c) hcommit
  · exact absurd hyes hsettle
  · have hhidden : ({ l with
        file := rewriteBytes c (kept c entries) ++ tail
        index := b.live b.hidden } : EntryLog).revertedTurns = hiddenAfter c entries := by
      rw [hiddenAfter, hrescan]
      rfl
    rw [LosslessOrRefused, heq]
    constructor
    · rintro ⟨hsame, -⟩
      have hread := hsame err rfl
      rw [h.allWithReverted_eq] at hread
      by_cases hnodup : (opened (kept c entries)).Nodup
      · rw [read_kept _ hb rfl rfl hnodup, hhidden] at hread
        obtain ⟨hrec, hturns⟩ := Prod.mk.inj (Except.ok.inj hread)
        exact ⟨hnodup, hrec.symm, hturns.symm⟩
      · exact absurd (nodup_of_contiguous h.wellFormed.contiguous)
          (read_reopened hb rfl rfl hnodup hread)
    · rintro ⟨hnodup, hrec, hturns⟩
      refine ⟨fun _ _ => ?_, by simp⟩
      rw [read_kept _ hb rfl rfl hnodup, hhidden, h.allWithReverted_eq, hrec, hturns]

/-- Of a log that opens and operations leave: a rewrite is lossless or refused exactly when it is
refused before the rename, or goes through with lines that all fit and turns that open once, or
fails behind the rename having changed nothing. -/
theorem rewrite_lossless_iff {file : List UInt8} (hf : LogFile c file) {wo : OpenWorld}
    {header : LogHeader} {cap : ℕ} {l₀ : EntryLog}
    (hopen : openEntryLog c wo file header cap = (l₀, .ok ())) {ss : List LogStep}
    (hss : l₀.StepsOpenOnce c ss) (w : RewriteWorld) (entries : List Entry) :
    LosslessOrRefused c w (l₀.steps c ss) entries ↔ RewriteKeeps c w (l₀.steps c ss) entries := by
  have h : Sound c (l₀.steps c ss) :=
    ((sound_scanned hf.sound header cap).grows (grows_openEntryLog hopen)).steps hss
  rw [RewriteKeeps]
  by_cases hcommit : Commits w (l₀.steps c ss) entries
  · by_cases hsettle : Settles c w (l₀.steps c ss) entries
    · rw [lossless_iff_of_settles hcommit hsettle]
      simp [hcommit, hsettle]
    · rw [refused_iff_of_not_settles h hcommit hsettle]
      simp [hcommit, hsettle]
  · obtain ⟨err, heq⟩ := rewrite_refused (c := c) hcommit
    simp only [hcommit, not_false_eq_true, true_or, iff_true]
    rw [LosslessOrRefused, heq]
    exact ⟨fun _ _ => rfl, by simp⟩

/-- A turn whose one text is as long as the cap comes back without it, as a success. -/
theorem long_line_lost : ¬ LosslessOrRefused jsonLines {} (new noHeader 0)
    [opening, spoken (String.ofList (List.replicate maxEntryLineBytes 'a'))] := by
  rw [lossless_iff_of_settles ⟨rfl, ⟨_, rfl⟩, rfl, rfl⟩ ⟨.inr rfl, _, rfl⟩]
  rintro ⟨hfits, -⟩
  have hfit := hfits (spoken (String.ofList (List.replicate maxEntryLineBytes 'a')))
    (List.mem_cons_of_mem _ (List.mem_singleton_self _))
  have hlong := le_marshal_spoken (String.ofList (List.replicate maxEntryLineBytes 'a'))
  rw [String.toList_ofList, List.length_replicate] at hlong
  have hshort : (jsonLines.marshal (spoken (String.ofList
      (List.replicate maxEntryLineBytes 'a')))).length + 1 ≤ maxEntryLineBytes := by
    simpa only [fits, decide_eq_true_eq] using hfit
  omega

/-- A small turn goes through, and comes back as it was given. -/
theorem rewrite_lossless_small : LosslessOrRefused jsonLines {}
    ((new noHeader 0).steps jsonLines [.call (.openTurn {} "a" { source := .prompt })])
    [opening, spoken "hello"] := by
  have hopen : openEntryLog jsonLines {} [] noHeader 0 = (new noHeader 0, .ok ()) := rfl
  have hopens : (new noHeader 0).StepsOpenOnce jsonLines
      [.call (.openTurn {} "a" { source := .prompt })] := by
    change (new noHeader 0).NewTurn "a" ∧ True
    exact ⟨by decide +kernel, trivial⟩
  rw [rewrite_lossless_iff .absent hopen hopens]
  refine .inr (.inl ⟨⟨.inr rfl, _, rfl⟩, ?_, ?_⟩)
  · decide +kernel
  · decide +kernel

end EntryLog

end Marotte
