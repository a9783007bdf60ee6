import Marotte.EntryLog.Soundness
import Marotte.Library.Grouping
import Mathlib.Data.List.Sort

/-! # Rewriting an entry log

A rewrite groups the entries by turn, counts each group from zero, and renames the new
file into place. The rescan it ends with reads that file as any other.
-/
namespace Marotte

open History

/-- What one rewrite meets: its descriptor, the staged file, the tail cut, and the header. -/
structure RewriteWorld where
  closes : Bool := true
  commits : Bool := true
  truncates : Bool := true
  caches : Bool := true

namespace EntryLog

variable (c : LineCodec)

/-- A group's stored n, read off the turn_open that leads it. No group is empty. -/
def turnOrdinal : List Entry → Except LogError ℕ
  | [] => .ok 0
  | lead :: _ =>
    match lead.payload with
    | .turnOpen p => .ok p.n
    | _ => .error (.rewriteLead lead.turn lead.kind)

/-- One turn's entries in seq order, those of equal seq as the list has them: any stable sort
gives this list. -/
def turnGroup (entries : List Entry) (turn : String) : List Entry :=
  (Grouping.group Entry.turn entries turn).insertionSort (fun x y => x.seq ≤ y.seq)

/-- The groups of the turns given, or the first that its turn_open does not lead. -/
def orderGroups (entries : List Entry) : List String → Except LogError (List (List Entry))
  | [] => .ok []
  | turn :: turns =>
    match turnOrdinal (turnGroup entries turn) with
    | .error err => .error err
    | .ok _ =>
      match orderGroups entries turns with
      | .error err => .error err
      | .ok groups => .ok (turnGroup entries turn :: groups)

/-- One group per turn, in the order the entries first name them. -/
def groupByTurn (entries : List Entry) : Except LogError (List (List Entry)) :=
  orderGroups entries (Grouping.keys Entry.turn entries)

/-- A group as the rewrite writes it: seq from zero, every envelope bounded again. -/
def renumberGroup (group : List Entry) : List Entry :=
  group.mapIdx (fun seq e => persistBoundEntry { e with seq := seq })

/-- The bytes the staged file takes. -/
def rewriteBytes (entries : List Entry) : List UInt8 :=
  Lines.join newline (entries.map c.marshal)

/-- Replaces the log with the entries given. -/
def rewrite (w : RewriteWorld) (l : EntryLog) (entries : List Entry) :
    EntryLog × Except LogError Unit :=
  if l.removed then (l, .error .tombstoned)
  else match groupByTurn entries with
    | .error err => (l, .error err)
    | .ok groups =>
      if w.closes = false then (l, .error .closeDescriptor)
      else if w.commits = false then (l, .error .stageRewrite)
      else
        let file := rewriteBytes c (groups.flatMap renumberGroup)
        let index := c.rescan file
        if index.size < file.length ∧ w.truncates = false then
          ({ l with file := file, index := index }, .error .truncateTail)
        else
          writeCounters w.caches { l with file := file.take index.size, index := index }

/-- The entries of a rewrite, as it writes them. -/
def rewritten (entries : List Entry) : List Entry :=
  (Grouping.keys Entry.turn entries).flatMap (fun turn => renumberGroup (turnGroup entries turn))

variable {c}

theorem orderGroups_eq_ok {entries : List Entry} {turns : List String}
    {groups : List (List Entry)} (h : orderGroups entries turns = .ok groups) :
    groups = turns.map (turnGroup entries) ∧
      ∀ turn ∈ turns, ∃ n, turnOrdinal (turnGroup entries turn) = .ok n := by
  induction turns generalizing groups with
  | nil =>
    cases h
    simp
  | cons turn turns ih =>
    unfold orderGroups at h
    split at h
    · cases h
    · rename_i n hn
      split at h
      · cases h
      · rename_i rest hrest
        cases h
        obtain ⟨rfl, hlead⟩ := ih hrest
        refine ⟨rfl, ?_⟩
        intro t ht
        rcases List.mem_cons.mp ht with rfl | ht
        · exact ⟨n, hn⟩
        · exact hlead t ht

theorem groupByTurn_eq_ok {entries : List Entry} {groups : List (List Entry)}
    (h : groupByTurn entries = .ok groups) :
    groups.flatMap renumberGroup = rewritten entries ∧
      ∀ turn ∈ Grouping.keys Entry.turn entries,
        ∃ n, turnOrdinal (turnGroup entries turn) = .ok n := by
  obtain ⟨rfl, hlead⟩ := orderGroups_eq_ok h
  rw [rewritten, List.flatMap_map]
  exact ⟨rfl, hlead⟩

theorem turnOrdinal_eq_ok {group : List Entry} {n : ℕ} (h : turnOrdinal group = .ok n)
    (hne : group ≠ []) :
    ∃ lead rest p, group = lead :: rest ∧ lead.payload = .turnOpen p ∧ n = p.n := by
  obtain ⟨lead, rest, rfl⟩ := List.exists_cons_of_ne_nil hne
  cases hp : lead.payload <;> simp only [turnOrdinal, hp] at h <;> cases h
  exact ⟨lead, rest, _, rfl, hp, rfl⟩

/-! ## What a rewrite writes -/

@[simp] theorem mem_turnGroup {entries : List Entry} {turn : String} {e : Entry} :
    e ∈ turnGroup entries turn ↔ e ∈ entries ∧ e.turn = turn := by
  simp [turnGroup]

theorem turnGroup_ne_nil {entries : List Entry} {turn : String}
    (h : turn ∈ Grouping.keys Entry.turn entries) : turnGroup entries turn ≠ [] := by
  obtain ⟨e, he, hturn⟩ := (Grouping.mem_keys Entry.turn).mp h
  exact List.ne_nil_of_mem (mem_turnGroup.mpr ⟨he, hturn⟩)

theorem renumberGroup_eq_nil {group : List Entry} : renumberGroup group = [] ↔ group = [] := by
  simp [renumberGroup]

theorem renumberGroup_turn {group : List Entry} {turn : String} (h : ∀ e ∈ group, e.turn = turn) :
    ∀ e ∈ renumberGroup group, e.turn = turn := by
  intro e he
  obtain ⟨i, hi, rfl⟩ := List.mem_mapIdx.mp he
  exact h group[i] (List.getElem_mem hi)

theorem renumberGroup_seq (group : List Entry) :
    (renumberGroup group).map Entry.seq = List.range (renumberGroup group).length := by
  apply List.ext_getElem
  · simp
  · intro i _ _
    simp [renumberGroup]

/-- A rewrite keeps what the append bound and the renumbering do not touch. -/
theorem renumberGroup_map {β : Type*} (group : List Entry) (f : Entry → β)
    (hf : ∀ e seq, f (persistBoundEntry { e with seq := seq }) = f e) :
    (renumberGroup group).map f = group.map f := by
  apply List.ext_getElem
  · simp [renumberGroup]
  · intro i _ _
    simp [renumberGroup, hf]

theorem own_rewritten (entries : List Entry) (turn : String) :
    own (rewritten entries) turn = renumberGroup (turnGroup entries turn) := by
  have hkey : ∀ k ∈ Grouping.keys Entry.turn entries,
      ∀ e ∈ renumberGroup (turnGroup entries k), e.turn = k :=
    fun k _ => renumberGroup_turn (fun e he => (mem_turnGroup.mp he).2)
  have h := Grouping.group_flatMap Entry.turn (Grouping.nodup_keys Entry.turn entries) hkey turn
  rw [rewritten, own]
  unfold Grouping.group at h
  rw [h]
  split
  · rfl
  · rename_i hno
    have hnil : turnGroup entries turn = [] := by
      rw [List.eq_nil_iff_forall_not_mem]
      intro e he
      obtain ⟨hmem, hturn⟩ := mem_turnGroup.mp he
      exact hno ((Grouping.mem_keys Entry.turn).mpr ⟨e, hmem, hturn⟩)
    rw [renumberGroup_eq_nil.mpr hnil]

theorem keys_rewritten (entries : List Entry) :
    Grouping.keys Entry.turn (rewritten entries) = Grouping.keys Entry.turn entries := by
  apply Grouping.keys_flatMap Entry.turn (Grouping.nodup_keys Entry.turn entries)
  · intro turn hturn
    rw [Ne, renumberGroup_eq_nil]
    exact turnGroup_ne_nil hturn
  · exact fun turn _ => renumberGroup_turn (fun e he => (mem_turnGroup.mp he).2)

theorem opened_congr {es fs : List Entry}
    (h : es.map (fun e => (e.kind, e.turn)) = fs.map (fun e => (e.kind, e.turn))) :
    opened es = opened fs := by
  have hof : ∀ es : List Entry, opened es = (es.map (fun e => (e.kind, e.turn))).filterMap
      (fun p => if p.1 = EntryKind.turnOpen then some p.2 else none) := by
    intro es
    rw [List.filterMap_map]
    rfl
  rw [hof, hof, h]

theorem opened_renumberGroup (group : List Entry) :
    opened (renumberGroup group) = opened group :=
  by
  apply opened_congr
  apply renumberGroup_map
  intro e seq
  rw [persistBoundEntry_kind, persistBoundEntry_turn]
  rfl

theorem nodup_opened_turnGroup {entries : List Entry} (h : (opened entries).Nodup)
    (turn : String) : (opened (turnGroup entries turn)).Nodup := by
  have hperm : (opened (turnGroup entries turn)).Perm
      (opened (Grouping.group Entry.turn entries turn)) :=
    (List.perm_insertionSort _ _).filterMap _
  have hsub : (opened (Grouping.group Entry.turn entries turn)).Sublist (opened entries) :=
    List.filter_sublist.filterMap _
  exact hperm.nodup_iff.mpr (h.sublist hsub)

/-- A group that its only turn_open leads opens its turn. -/
theorem opened_turnGroup {entries : List Entry} {turn : String} {n : ℕ}
    (h : (opened entries).Nodup) (hturn : turn ∈ Grouping.keys Entry.turn entries)
    (hlead : turnOrdinal (turnGroup entries turn) = .ok n) :
    opened (turnGroup entries turn) = [turn] := by
  obtain ⟨lead, rest, p, hgroup, hp, -⟩ := turnOrdinal_eq_ok hlead (turnGroup_ne_nil hturn)
  have hmem : ∀ e ∈ turnGroup entries turn, e.turn = turn := fun e he => (mem_turnGroup.mp he).2
  have hnodup := nodup_opened_turnGroup h turn
  have hcons : opened (turnGroup entries turn) = turn :: opened rest := by
    rw [hgroup, ← hmem lead (by simp [hgroup])]
    simp [opened, Entry.kind_of_payload hp, Payload.kind]
  have hrest : opened rest = [] := by
    rw [List.eq_nil_iff_forall_not_mem]
    intro t ht
    obtain ⟨e, he, -, rfl⟩ := mem_opened.mp ht
    rw [hcons, List.nodup_cons] at hnodup
    exact hnodup.1 (hmem e (by simp [hgroup, he]) ▸ ht)
  rw [hcons, hrest]

theorem opened_rewritten {entries : List Entry} {groups : List (List Entry)}
    (h : (opened entries).Nodup) (hok : groupByTurn entries = .ok groups) :
    opened (rewritten entries) = Grouping.keys Entry.turn entries := by
  obtain ⟨-, hlead⟩ := groupByTurn_eq_ok hok
  have hone : ∀ turn ∈ Grouping.keys Entry.turn entries,
      opened (renumberGroup (turnGroup entries turn)) = [turn] := by
    intro turn hturn
    obtain ⟨n, hn⟩ := hlead turn hturn
    rw [opened_renumberGroup, opened_turnGroup h hturn hn]
  rw [rewritten]
  generalize Grouping.keys Entry.turn entries = turns at hone ⊢
  induction turns with
  | nil => rfl
  | cons turn turns ih =>
    rw [List.flatMap_cons, opened_append, hone turn (by simp),
      ih (fun t ht => hone t (List.mem_cons_of_mem _ ht)), List.singleton_append]

/-- What a rewrite is handed decides what it writes: every turn opened once, counted from
zero. -/
theorem wellFormed_rewritten {entries : List Entry} {groups : List (List Entry)}
    (h : (opened entries).Nodup) (hok : groupByTurn entries = .ok groups) :
    WellFormed (rewritten entries) := by
  constructor
  · rw [opened_rewritten h hok]
    exact Grouping.nodup_keys Entry.turn entries
  · intro turn
    rw [own_rewritten]
    exact renumberGroup_seq _

/-! ## The log after a rewrite -/

theorem marshal_notMem (es : List Entry) : ∀ line ∈ es.map c.marshal, newline ∉ line := by
  intro line hline
  obtain ⟨e, -, rfl⟩ := List.mem_map.mp hline
  exact c.newline_notMem e

theorem entriesOf_rewriteBytes (es : List Entry) : c.entriesOf (rewriteBytes c es) = es := by
  rw [rewriteBytes, LineCodec.entriesOf, Lines.split_join newline (marshal_notMem es),
    List.filterMap_map]
  simp [c.unmarshal_marshal]

theorem entriesOf_rewriteBytes_take (es : List Entry) (k : ℕ) :
    c.entriesOf ((rewriteBytes c es).take k) <+: es := by
  obtain ⟨rest, hrest⟩ := Lines.split_take newline (marshal_notMem (c := c) es) k
  refine ⟨rest.filterMap c.unmarshal, ?_⟩
  rw [LineCodec.entriesOf, rewriteBytes, ← List.filterMap_append, hrest, List.filterMap_map]
  simp [c.unmarshal_marshal]

/-- A rewrite leaves the log as it was, or as the scan of the new file has it. -/
theorem rewrite_cases (c : LineCodec) (w : RewriteWorld) (hw : w.truncates = true) (l : EntryLog)
    (entries : List Entry) :
    (l.rewrite c w entries).1 = l ∨
      ∃ groups header, groupByTurn entries = .ok groups ∧
        (l.rewrite c w entries).1 =
          { l with
            file := (rewriteBytes c (rewritten entries)).take
              (c.rescan (rewriteBytes c (rewritten entries))).size
            index := c.rescan (rewriteBytes c (rewritten entries))
            header := header } := by
  unfold rewrite
  split
  · exact .inl rfl
  cases hok : groupByTurn entries with
  | error err => exact .inl rfl
  | ok groups =>
    simp only
    split
    · exact .inl rfl
    split
    · exact .inl rfl
    rw [(groupByTurn_eq_ok hok).1]
    simp only [hw, Bool.true_eq_false, and_false, if_false]
    unfold writeCounters
    split
    · exact .inr ⟨groups, l.header, rfl, rfl⟩
    · exact .inr ⟨groups, _, rfl, rfl⟩

theorem Sound.rewrite {l : EntryLog} (h : Sound c l) {w : RewriteWorld} (hw : w.truncates = true)
    {entries : List Entry} (hentries : (opened entries).Nodup) :
    Sound c (l.rewrite c w entries).1 := by
  rcases rewrite_cases c w hw l entries with heq | ⟨groups, header, hok, heq⟩
  · rwa [heq]
  · rw [heq]
    have hs := coherentUnder_scanned c (rewriteBytes c (rewritten entries)) header l.cap
    have hwf := (wellFormed_rewritten hentries hok).of_initial
      (entriesOf_rewriteBytes_take (c := c) (rewritten entries)
        (c.rescan (rewriteBytes c (rewritten entries))).size)
    refine ⟨⟨_, _, hs.intact, hs.index_eq, fun _ => hs.whole rfl⟩, ?_, ?_⟩
    · have hrec := hs.recorded_of_running rfl
      rw [show c.entriesOf (scanned c (rewriteBytes c (rewritten entries)) header l.cap).file =
        c.entriesOf ((rewriteBytes c (rewritten entries)).take
          (c.rescan (rewriteBytes c (rewritten entries))).size) from rfl] at hrec
      rw [← hrec] at hwf
      exact hwf
    · exact ⟨_, _, hs.intact_of_running rfl, hwf, List.prefix_refl _⟩

end EntryLog

end Marotte
