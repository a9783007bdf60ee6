import Marotte.EntryLog.Reads
import Marotte.EntryLog.Soundness
import Marotte.Library.Grouping

/-! # What the byte ranges of an index hold

The ranges of all turns tile the file, each over one turn's lines on end. A set of turns
reads back as the entries of the file that are theirs, in file order.
-/
namespace Marotte

open History

/-- One turn's lines on end. -/
structure Run where
  turn : String
  lines : List (List UInt8)

namespace Run

def bytes (r : Run) : List UInt8 := Lines.join newline r.lines

/-- Runs laid end to end from an offset, each with the range it takes up. -/
def layout : ℕ → List Run → List (Run × ByteRange)
  | _, [] => []
  | start, r :: rs =>
    (r, ⟨start, start + r.bytes.length⟩) :: layout (start + r.bytes.length) rs

/-- The ranges of one turn's runs. -/
def rangesOf (rs : List Run) (turn : String) : List ByteRange :=
  (Grouping.group (fun x => x.1.turn) (layout 0 rs) turn).map Prod.snd

theorem layout_append (start : ℕ) (rs ts : List Run) :
    layout start (rs ++ ts) =
      layout start rs ++ layout (start + (rs.flatMap bytes).length) ts := by
  induction rs generalizing start with
  | nil => simp [layout]
  | cons r rs ih => simp [layout, ih, Nat.add_assoc]

theorem mem_layout {start : ℕ} {rs : List Run} {x : Run × ByteRange} (h : x ∈ layout start rs) :
    x.1 ∈ rs ∧ start ≤ x.2.start ∧ x.2.stop = x.2.start + x.1.bytes.length ∧
      x.2.stop ≤ start + (rs.flatMap bytes).length := by
  induction rs generalizing start with
  | nil => simp [layout] at h
  | cons r rs ih =>
    rcases List.mem_cons.mp h with rfl | h
    · simp
    · obtain ⟨hmem, hstart, hlen, hstop⟩ := ih h
      refine ⟨List.mem_cons_of_mem _ hmem, ?_, hlen, ?_⟩
      · omega
      · simp only [List.flatMap_cons, List.length_append]
        omega

/-- Runs that take up room start one after the other. -/
theorem layout_pairwise {rs : List Run} (h : ∀ r ∈ rs, r.bytes ≠ []) (start : ℕ) :
    (layout start rs).Pairwise (fun x y => x.2.start < y.2.start) := by
  induction rs generalizing start with
  | nil => exact List.Pairwise.nil
  | cons r rs ih =>
    apply List.Pairwise.cons
    · intro y hy
      have hlen := List.length_pos_of_ne_nil (h r (by simp))
      have hstart := (mem_layout hy).2.1
      change start < y.2.start
      omega
    · exact ih (fun r' hr => h r' (List.mem_cons_of_mem _ hr)) _

/-- A range is the slice of the file that its run wrote. -/
theorem layout_slice {start : ℕ} {rs : List Run} {x : Run × ByteRange} (h : x ∈ layout start rs)
    {pre : List UInt8} (hpre : pre.length = start) (tail : List UInt8) :
    ((pre ++ (rs.flatMap bytes ++ tail)).drop x.2.start).take (x.2.stop - x.2.start) =
      x.1.bytes := by
  induction rs generalizing start pre with
  | nil => simp [layout] at h
  | cons r rs ih =>
    rcases List.mem_cons.mp h with rfl | h
    · rw [← hpre]
      simp
    · have hmore : pre ++ ((r :: rs).flatMap bytes ++ tail) =
          (pre ++ r.bytes) ++ (rs.flatMap bytes ++ tail) := by simp
      rw [hmore]
      exact ih h (by simp [hpre])

theorem layout_map_fst (start : ℕ) (rs : List Run) : (layout start rs).map Prod.fst = rs := by
  induction rs generalizing start with
  | nil => rfl
  | cons r rs ih => simp [layout, ih]

theorem join_lines (rs : List Run) :
    Lines.join newline (rs.flatMap lines) = rs.flatMap bytes := by
  induction rs with
  | nil => rfl
  | cons r rs ih => simp [ih, bytes]

theorem rangesOf_concat (rs : List Run) (r : Run) (turn : String) :
    rangesOf (rs ++ [r]) turn = rangesOf rs turn ++
      if r.turn = turn then
        [⟨(rs.flatMap bytes).length, (rs.flatMap bytes).length + r.bytes.length⟩]
      else [] := by
  rw [rangesOf, layout_append, Grouping.group_append, List.map_append, rangesOf, layout, layout]
  by_cases h : r.turn = turn <;> simp [Grouping.group, h]

end Run

theorem extendRanges_concat (rs : List ByteRange) (last : ByteRange) (start stop : ℕ) :
    extendRanges (rs ++ [last]) start stop =
      if last.stop = start then rs ++ [{ last with stop }] else rs ++ [last, ⟨start, stop⟩] := by
  induction rs with
  | nil => rfl
  | cons r rs ih =>
    obtain ⟨r', rs', heq⟩ := List.exists_cons_of_ne_nil (show rs ++ [last] ≠ [] by simp)
    rw [List.cons_append, heq, extendRanges, ← heq, ih]
    · split <;> rfl
    · simp

/-- A line starts a range of its own unless the last one stops at it. -/
theorem extendRanges_new {rs : List ByteRange} {start : ℕ} (h : ∀ r ∈ rs, r.stop ≠ start)
    (stop : ℕ) : extendRanges rs start stop = rs ++ [⟨start, stop⟩] := by
  rcases List.eq_nil_or_concat rs with rfl | ⟨rs, last, rfl⟩
  · rfl
  · rw [List.concat_eq_append] at h ⊢
    rw [extendRanges_concat, if_neg (h last (by simp)), List.append_assoc]
    rfl

theorem TurnState.fold_ranges (st : TurnState) (e : Entry) : (st.fold e).ranges = st.ranges := by
  unfold TurnState.fold
  split <;> rfl

/-- A line as the file holds it: it fits, and read back it is the entry. -/
structure IsLine (c : LineCodec) (line : List UInt8) (e : Entry) : Prop where
  whole : newline ∉ line
  fits : line.length + 1 ≤ maxEntryLineBytes
  reads : c.unmarshal line = some e

/-- The index's ranges are those of runs that the file is made of. -/
structure Tiled (c : LineCodec) (b : Index) (rs : List Run) : Prop where
  usable : ∀ r ∈ rs, ∀ line ∈ r.lines, ∃ e, IsLine c line e ∧ e.turn = r.turn
  full : ∀ r ∈ rs, r.lines ≠ []
  held : ∀ r ∈ rs, b.turns r.turn ≠ none
  ranges : ∀ turn st, b.turns turn = some st → st.ranges = Run.rangesOf rs turn
  size : b.size = (rs.flatMap Run.bytes).length

namespace Tiled

variable {c : LineCodec} {b b' : Index} {rs : List Run} {e : Entry} {line : List UInt8}

theorem bytes_ne_nil (h : Tiled c b rs) : ∀ r ∈ rs, r.bytes ≠ [] := by
  intro r hr hnil
  obtain ⟨l, ls, hl⟩ := List.exists_cons_of_ne_nil (h.full r hr)
  simp [Run.bytes, hl] at hnil

theorem rangesOf_eq_nil (h : Tiled c b rs) {turn : String} (hturn : b.turns turn = none) :
    Run.rangesOf rs turn = [] := by
  rw [Run.rangesOf, List.map_eq_nil_iff, Grouping.group, List.filter_eq_nil_iff]
  intro x hx hkey
  exact h.held x.1 (Run.mem_layout hx).1 (of_decide_eq_true hkey ▸ hturn)

/-- A turn's ranges after one line: its own take the line up, every other's stay. -/
theorem row (h : Tiled c b rs) {len : ℕ} (hopen : e.kind = .turnOpen → b.turns e.turn = none)
    (hobs : b.observeLine e len = some b') {turn : String} {st : TurnState}
    (hst : b'.turns turn = some st) :
    st.ranges = if turn = e.turn then extendRanges (Run.rangesOf rs turn) b.size (b.size + len)
      else Run.rangesOf rs turn := by
  obtain ⟨i, hi, rfl⟩ := Index.observeLine_iff_observe.mp hobs
  change i.turns turn = some st at hst
  by_cases ho : e.kind = .turnOpen
  · obtain ⟨p, hp⟩ := Entry.kind_eq_turnOpen.mp ho
    rw [Index.observe_turns hi] at hst
    by_cases hturn : turn = e.turn
    · subst hturn
      simp only [hp, if_true, Option.some.injEq] at hst
      rw [if_pos rfl, h.rangesOf_eq_nil (hopen ho), ← hst]
      rfl
    · rw [if_neg hturn] at hst ⊢
      exact h.ranges turn st hst
  · rw [Index.observe_turns_of_ne_turnOpen ho hi] at hst
    by_cases hturn : turn = e.turn
    · rw [if_pos hturn, Option.map_eq_some_iff] at hst
      obtain ⟨st₀, hst₀, rfl⟩ := hst
      rw [if_pos hturn, TurnState.fold_ranges, ← h.ranges turn st₀ hst₀]
      rfl
    · rw [if_neg hturn] at hst ⊢
      exact h.ranges turn st hst

theorem held_line {len : ℕ} (hobs : b.observeLine e len = some b') {turn : String}
    (hturn : turn = e.turn ∨ b.turns turn ≠ none) : b'.turns turn ≠ none := by
  obtain ⟨i, hi, rfl⟩ := Index.observeLine_iff_observe.mp hobs
  change i.turns turn ≠ none
  by_cases ho : e.kind = .turnOpen
  · obtain ⟨p, hp⟩ := Entry.kind_eq_turnOpen.mp ho
    rw [Index.observe_turns hi, hp]
    split
    · simp
    · rename_i hne
      exact hturn.resolve_left hne
  · rw [Index.observe_turns_of_ne_turnOpen ho hi]
    split
    · rename_i heq
      subst heq
      have hrow : b.turns e.turn ≠ none := by
        intro hnone
        have hn : b.observeLine e len = none := Index.observeLine_eq_none.mpr ⟨hnone, ho⟩
        rw [hobs] at hn
        cases hn
      simpa using hrow
    · rename_i hne
      exact hturn.resolve_left hne

/-- The runs after one line, whose own run is the last one. -/
theorem lengthen (h : Tiled c b rs) (hl : IsLine c line e)
    (hobs : b.observeLine e (line.length + 1) = some b') {rs₀ : List Run}
    {old : List (List UInt8)} (hsub : ∀ r ∈ rs₀, r ∈ rs)
    (hold : ∀ l ∈ old, ∃ e', IsLine c l e' ∧ e'.turn = e.turn)
    (hsize : b.size = (rs₀.flatMap Run.bytes).length + (Lines.join newline old).length)
    (hranges : ∀ turn st, b'.turns turn = some st →
      st.ranges = Run.rangesOf (rs₀ ++ [⟨e.turn, old ++ [line]⟩]) turn) :
    Tiled c b' (rs₀ ++ [⟨e.turn, old ++ [line]⟩]) := by
  constructor
  · intro r hr l hmem
    rcases List.mem_append.mp hr with hr | hr
    · exact h.usable r (hsub r hr) l hmem
    · rw [List.mem_singleton.mp hr] at hmem ⊢
      rcases List.mem_append.mp hmem with hmem | hmem
      · exact hold l hmem
      · rw [List.mem_singleton.mp hmem]
        exact ⟨e, hl, rfl⟩
  · intro r hr
    rcases List.mem_append.mp hr with hr | hr
    · exact h.full r (hsub r hr)
    · rw [List.mem_singleton.mp hr]
      simp
  · intro r hr
    rcases List.mem_append.mp hr with hr | hr
    · exact held_line hobs (.inr (h.held r (hsub r hr)))
    · rw [List.mem_singleton.mp hr]
      exact held_line hobs (.inl rfl)
  · exact hranges
  · rw [Index.observeLine_size hobs, hsize]
    simp [Run.bytes, Nat.add_assoc]

/-- A range of a turn that the last run is not of stops before the end. -/
theorem stop_ne_size (h : Tiled c b rs) {turn : String}
    (hlast : ¬ ∃ rs₀ r, rs = rs₀ ++ [r] ∧ r.turn = turn) :
    ∀ r ∈ Run.rangesOf rs turn, r.stop ≠ b.size := by
  intro r hr
  obtain ⟨x, hx, rfl⟩ := List.mem_map.mp hr
  obtain ⟨hx, hkey⟩ := (Grouping.mem_group _).mp hx
  rcases List.eq_nil_or_concat rs with rfl | ⟨rs₀, last, rfl⟩
  · simp [Run.layout] at hx
  · rw [List.concat_eq_append] at hx hlast h
    have hlen := List.length_pos_of_ne_nil (h.bytes_ne_nil last (by simp))
    rw [Run.layout_append] at hx
    rcases List.mem_append.mp hx with hx | hx
    · have hstop := (Run.mem_layout hx).2.2.2
      rw [h.size]
      simp only [List.flatMap_append, List.flatMap_cons, List.flatMap_nil, List.append_nil,
        List.length_append]
      omega
    · simp only [Run.layout, List.mem_singleton] at hx
      rw [hx] at hkey
      exact absurd ⟨rs₀, last, rfl, hkey⟩ hlast

/-- One more line lengthens the last run, or starts one of its own. -/
theorem observe (h : Tiled c b rs) (hl : IsLine c line e)
    (hopen : e.kind = .turnOpen → b.turns e.turn = none)
    (hobs : b.observeLine e (line.length + 1) = some b') :
    ∃ rs', Tiled c b' rs' ∧ rs'.flatMap Run.lines = rs.flatMap Run.lines ++ [line] := by
  by_cases hlast : ∃ rs₀ r, rs = rs₀ ++ [r] ∧ r.turn = e.turn
  · obtain ⟨rs₀, ⟨turn, old⟩, rfl, rfl⟩ := hlast
    refine ⟨rs₀ ++ [⟨e.turn, old ++ [line]⟩], ?_, by simp⟩
    have hsize := h.size
    rw [List.flatMap_append, List.length_append] at hsize
    apply h.lengthen hl hobs (fun r hr => List.mem_append_left _ hr) (h.usable ⟨e.turn, old⟩ (by simp))
    · simpa [Run.bytes] using hsize
    · intro turn st hst
      rw [h.row hopen hobs hst, Run.rangesOf_concat, Run.rangesOf_concat]
      by_cases hturn : turn = e.turn
      · subst hturn
        simp only [if_true]
        rw [extendRanges_concat, if_pos (by simpa using hsize.symm), hsize]
        simp [Run.bytes, Nat.add_assoc]
      · simp [hturn, Ne.symm hturn]
  · refine ⟨rs ++ [⟨e.turn, [] ++ [line]⟩], ?_, by simp⟩
    apply h.lengthen hl hobs (fun r hr => hr) (by simp)
    · simpa using h.size
    · intro turn st hst
      rw [h.row hopen hobs hst, Run.rangesOf_concat, ← h.size]
      by_cases hturn : turn = e.turn
      · subst hturn
        rw [if_pos rfl, extendRanges_new (h.stop_ne_size hlast)]
        simp [Run.bytes]
      · simp [hturn, Ne.symm hturn]

theorem whole (h : Tiled c b rs) : ∀ line ∈ rs.flatMap Run.lines, newline ∉ line := by
  intro line hline
  obtain ⟨r, hr, hline⟩ := List.mem_flatMap.mp hline
  obtain ⟨e, he, -⟩ := h.usable r hr line hline
  exact he.whole

/-- The entries of some turns' runs are those of the file that are theirs. -/
theorem filter_entries (h : Tiled c b rs) (set : List String) :
    ((rs.flatMap Run.lines).filterMap c.unmarshal).filter (fun e => e.turn ∈ set) =
      (((Run.layout 0 rs).filter (fun x => x.1.turn ∈ set)).flatMap
        (fun x => x.1.lines)).filterMap c.unmarshal := by
  have hlayout : ((Run.layout 0 rs).filter (fun x => x.1.turn ∈ set)).map Prod.fst =
      rs.filter (fun r => r.turn ∈ set) := by
    conv_rhs => rw [← Run.layout_map_fst 0 rs]
    rw [List.filter_map]
    rfl
  have hfst : ((Run.layout 0 rs).filter (fun x => x.1.turn ∈ set)).flatMap (fun x => x.1.lines) =
      (rs.filter (fun r => r.turn ∈ set)).flatMap Run.lines := by
    rw [← hlayout, List.flatMap_map]
  rw [hfst]
  have husable := h.usable
  clear h hlayout hfst
  induction rs with
  | nil => rfl
  | cons r rs ih =>
    have hown : ∀ e ∈ r.lines.filterMap c.unmarshal, e.turn = r.turn := by
      intro e he
      obtain ⟨line, hline, hread⟩ := List.mem_filterMap.mp he
      obtain ⟨e', he', hturn⟩ := husable r (by simp) line hline
      rw [he'.reads, Option.some.injEq] at hread
      rw [← hread, hturn]
    rw [List.flatMap_cons, List.filterMap_append, List.filter_append,
      ih (fun r' hr => husable r' (List.mem_cons_of_mem _ hr))]
    by_cases hr : r.turn ∈ set
    · rw [List.filter_cons_of_pos (by simpa using hr), List.flatMap_cons, List.filterMap_append,
        List.filter_eq_self.mpr (fun e he => by simpa [hown e he] using hr)]
    · rw [List.filter_cons_of_neg (by simpa using hr),
        List.filter_eq_nil_iff.mpr (fun e he => by simpa [hown e he] using hr), List.nil_append]

end Tiled

namespace LineCodec

variable {c : LineCodec}

/-- A file whose turns open once is tiled by the ranges of its fold. -/
theorem Intact.tiled {file : List UInt8} {b : Index} (h : c.Intact file b)
    (hn : (opened (c.entriesOf file)).Nodup) :
    ∃ rs, Tiled c b rs ∧ Lines.join newline (rs.flatMap Run.lines) = file := by
  obtain ⟨lines, hl, rfl, ha⟩ := h
  rw [entriesOf, Lines.split_join newline hl] at hn
  suffices hrs : ∃ rs, Tiled c b rs ∧ rs.flatMap Run.lines = lines by
    obtain ⟨rs, ht, rfl⟩ := hrs
    exact ⟨rs, ht, rfl⟩
  induction lines using List.reverseRecOn generalizing b with
  | nil =>
    rw [← Replay.accepts_nil.mp ha]
    exact ⟨[], ⟨by simp, by simp, by simp, fun _ _ hst => (by cases hst), rfl⟩, rfl⟩
  | append_singleton lines line ih =>
    obtain ⟨b₀, hb₀, hstep⟩ := Replay.accepts_concat.mp ha
    obtain ⟨hfits, e, he, hobs⟩ := observeLine_eq_some.mp hstep
    have hlines : ∀ l ∈ lines, newline ∉ l := fun l hm => hl l (List.mem_append_left _ hm)
    have hone : [line].filterMap c.unmarshal = [e] := by simp [he]
    rw [List.filterMap_append, hone, opened_append] at hn
    obtain ⟨rs, ht, hrs⟩ := ih hlines hb₀ (List.nodup_append.mp hn).1
    have hb : c.Intact (Lines.join newline lines) b₀ := ⟨lines, hlines, rfl, hb₀⟩
    have hfresh : e.kind = .turnOpen → b₀.turns e.turn = none := by
      intro hk
      have hnot : e.turn ∉ b₀.order := by
        rw [hb.follows.order, entriesOf, Lines.split_join newline hlines]
        intro hm
        exact (List.nodup_append.mp hn).2.2 e.turn hm e.turn (by simp [opened, hk]) rfl
      rw [hb.folded.mem_order] at hnot
      simpa using hnot
    rw [← hrs]
    exact ht.observe ⟨hl line (by simp), hfits, he⟩ hfresh hobs

theorem decodeLines_usable {lines : List (List UInt8)}
    (h : ∀ line ∈ lines, ∃ e, IsLine c line e) :
    c.decodeLines lines = .ok (lines.filterMap c.unmarshal) := by
  induction lines with
  | nil => rfl
  | cons line lines ih =>
    obtain ⟨e, he⟩ := h line (by simp)
    have hone : c.decodeLine line (line.length + 1) = .ok e := by
      rw [decodeLine, if_neg (Nat.not_lt.mpr he.fits), he.reads]
    rw [decodeLines, hone, ih (fun l hl => h l (List.mem_cons_of_mem _ hl))]
    simp [he.reads]

/-- A run that is wanted reads back whole. -/
theorem decodeEntryRange_run {r : Run} {want : List String} (hwant : r.turn ∈ want)
    (h : ∀ line ∈ r.lines, ∃ e, IsLine c line e ∧ e.turn = r.turn) :
    c.decodeEntryRange r.bytes want = .ok (r.lines.filterMap c.unmarshal) := by
  have hwhole : ∀ line ∈ r.lines, newline ∉ line := by
    intro line hline
    obtain ⟨e, he, -⟩ := h line hline
    exact he.whole
  rw [decodeEntryRange, Run.bytes, Lines.split_join newline hwhole]
  simp only
  rw [decodeLines_usable (fun line hline => (h line hline).imp fun e he => he.1)]
  simp only [if_true]
  congr 1
  rw [List.filter_eq_self]
  intro e he
  obtain ⟨line, hline, hread⟩ := List.mem_filterMap.mp he
  obtain ⟨e', he', hturn⟩ := h line hline
  rw [he'.reads, Option.some.injEq] at hread
  rw [← hread, hturn]
  simpa using hwant

theorem readRanges_runs {file : List UInt8} {want : List String} {xs : List (Run × ByteRange)}
    (hslice : ∀ x ∈ xs, (file.drop x.2.start).take (x.2.stop - x.2.start) = x.1.bytes)
    (hread : ∀ x ∈ xs, c.decodeEntryRange x.1.bytes want = .ok (x.1.lines.filterMap c.unmarshal)) :
    c.readRanges file want (xs.map Prod.snd) =
      .ok ((xs.flatMap (fun x => x.1.lines)).filterMap c.unmarshal) := by
  induction xs with
  | nil => rfl
  | cons x xs ih =>
    rw [List.map_cons, readRanges, hslice x (by simp), hread x (by simp)]
    simp only
    rw [ih (fun y hy => hslice y (List.mem_cons_of_mem _ hy))
      (fun y hy => hread y (List.mem_cons_of_mem _ hy))]
    simp

end LineCodec

namespace EntryLog

variable {c : LineCodec} {l : EntryLog}

/-- The ranges of a set of turns, sorted, are those of the set's runs in file order. -/
theorem sorted_ranges {b : Index} {rs : List Run} (h : Tiled c b rs) {set : List String}
    (hset : set.Nodup) :
    (set.flatMap (Run.rangesOf rs)).insertionSort (fun r s => r.start ≤ s.start) =
      ((Run.layout 0 rs).filter (fun x => x.1.turn ∈ set)).map Prod.snd := by
  have hpair := Run.layout_pairwise h.bytes_ne_nil 0
  have hkept := hpair.filter (fun x => x.1.turn ∈ set)
  have hperm := ((Grouping.flatMap_group_perm_filter (fun x : Run × ByteRange => x.1.turn) hset
    (Run.layout 0 rs)).map Prod.snd)
  rw [List.map_flatMap] at hperm
  have hinj : ∀ r ∈ ((Run.layout 0 rs).filter (fun x => x.1.turn ∈ set)).map Prod.snd,
      ∀ s ∈ ((Run.layout 0 rs).filter (fun x => x.1.turn ∈ set)).map Prod.snd,
      r.start ≤ s.start → s.start ≤ r.start → r = s := by
    have hnodup : (((Run.layout 0 rs).filter (fun x => x.1.turn ∈ set)).map
        (fun x => x.2.start)).Nodup :=
      List.pairwise_map.mpr (hkept.imp Nat.ne_of_lt)
    intro r hr s hs hrs hsr
    obtain ⟨x, hx, rfl⟩ := List.mem_map.mp hr
    obtain ⟨y, hy, rfl⟩ := List.mem_map.mp hs
    rw [List.inj_on_of_nodup_map hnodup hx hy (Nat.le_antisymm hrs hsr)]
  have hsort := (List.perm_insertionSort (fun r s : ByteRange => r.start ≤ s.start)
    (set.flatMap (Run.rangesOf rs))).trans hperm
  refine List.Perm.eq_of_pairwise (fun r s hr hs => hinj r (hsort.subset hr) s hs)
    (List.pairwise_insertionSort _ _) ?_ hsort
  exact List.pairwise_map.mpr (hkept.imp Nat.le_of_lt)

/-- A set of turns reads back as the entries of the log that are theirs, in file order. -/
theorem CoherentUnder.readSet_eq {b : Index} {r : String → Bool} (hb : CoherentUnder c l b r)
    (hn : (opened (l.recorded c)).Nodup) {set : List String} (hset : set.Nodup) :
    l.readSet c set = .ok ((l.recorded c).filter (fun e => e.turn ∈ set)) := by
  rw [hb.recorded_eq] at hn ⊢
  obtain ⟨rs, ht, hrs⟩ := hb.intact.tiled hn
  unfold readSet
  split
  · rename_i hnil
    simp [hnil]
  have hranges : set.flatMap (fun id => ((l.index.turns id).map TurnState.ranges).getD []) =
      set.flatMap (Run.rangesOf rs) := by
    rw [List.flatMap_def, List.flatMap_def]
    congr 1
    apply List.map_congr_left
    intro id _
    rw [hb.index_eq, Index.live_turns]
    cases hst : b.turns id with
    | none => simp [ht.rangesOf_eq_nil hst]
    | some st => simpa [TurnState.setReverted] using ht.ranges id st hst
  simp only [hranges]
  rw [sorted_ranges ht hset]
  have hfile : l.file = [] ++ (rs.flatMap Run.bytes ++ l.file.drop b.size) := by
    rw [← Run.join_lines, hrs, List.nil_append, List.take_append_drop]
  have hmem : ∀ x ∈ (Run.layout 0 rs).filter (fun x => x.1.turn ∈ set),
      x ∈ Run.layout 0 rs ∧ x.1.turn ∈ set := by
    intro x hx
    simpa using hx
  rw [LineCodec.readRanges_runs]
  · rw [← ht.filter_entries, ← hrs, LineCodec.entriesOf, Lines.split_join newline ht.whole]
  · intro x hx
    rw [hfile]
    exact Run.layout_slice (hmem x hx).1 rfl _
  · intro x hx
    have hrun := (Run.mem_layout (hmem x hx).1).1
    exact LineCodec.decodeEntryRange_run (hmem x hx).2 (ht.usable x.1 hrun)

theorem Sound.readSet_eq (h : Sound c l) {set : List String} (hset : set.Nodup) :
    l.readSet c set = .ok ((l.recorded c).filter (fun e => e.turn ∈ set)) := by
  obtain ⟨b, r, hb⟩ := h.coherent
  exact hb.readSet_eq h.wellFormed.opensOnce hset

end EntryLog

end Marotte
