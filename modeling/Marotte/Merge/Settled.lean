import Marotte.Merge.Keeps

/-! # What a merge reports

The numbers that a merged log carries, the words that a say gains, and when a merge reports that
nothing moved: exactly when the merged log is the record.
-/
namespace Marotte.Merge

open Projection (ProjectedTurn)

/-! ## Numbers -/

/-- A turn is numbered as the log numbers it: seq from zero, and a surviving turn's open with its
ordinal among the survivors. -/
structure Numbered (n : ℕ) (m : MergedTurn) : Prop where
  seqs : m.entries.map Entry.seq = List.range m.entries.length
  ordinal : m.reverted = false → ∀ e ∈ m.entries, ∀ p, e.payload = .turnOpen p → p.n = n

theorem numbered_renumberTurn (n : ℕ) (t : MergedTurn) : Numbered n (renumberTurn n t) := by
  constructor
  · apply List.ext_getElem
    · simp
    · intro i _ _
      simp [renumberTurn, renumberEntry]
  · intro hseen e he p hp
    obtain ⟨i, hi, rfl⟩ := List.mem_mapIdx.1 he
    have hseen : t.reverted = false := hseen
    cases hpayload : t.entries[i].payload <;>
      simp [renumberEntry, hseen, hpayload, renumberOpen] at hp
    rw [← hp]

/-- The ordinals of the survivors count up from one. -/
theorem numbered_renumber (s : ℕ) (ts : List MergedTurn) :
    List.Forall₂ (fun m n => Numbered n m) ((renumber s ts).filter fun m => !m.reverted)
      (List.range' (s + 1) ((renumber s ts).filter fun m => !m.reverted).length) := by
  induction ts generalizing s with
  | nil => exact .nil
  | cons t ts ih =>
    rw [renumber]
    cases ht : t.reverted with
    | true =>
      rw [List.filter_cons_of_neg (by simp [renumberTurn, ht])]
      exact ih s
    | false =>
      rw [List.filter_cons_of_pos (by simp [renumberTurn, ht]), List.length_cons, List.range'_succ]
      exact .cons (numbered_renumberTurn (s + 1) t) (ih (s + 1))

theorem renumberTurn_again (n : ℕ) (t : MergedTurn) :
    renumberTurn n (renumberTurn n t) = renumberTurn n t := by
  simp only [renumberTurn, List.mapIdx_mapIdx, MergedTurn.mk.injEq, and_true]
  congr 1
  funext seq e
  cases hseen : t.reverted with
  | true => rfl
  | false => cases hp : e.payload <;> simp [renumberEntry, hp, renumberOpen]

theorem renumber_again (s : ℕ) (ts : List MergedTurn) :
    renumber s (renumber s ts) = renumber s ts := by
  induction ts generalizing s with
  | nil => rfl
  | cons t ts ih =>
    have hreverted : ∀ n, (renumberTurn n t).reverted = t.reverted := fun _ => rfl
    rw [renumber, renumber, hreverted, ih, renumberTurn_again]

/-- A merged log is numbered: every turn's seq from zero, the survivors' opens from one, and a
second numbering moves nothing. -/
theorem merge_numbers (record : List RecordTurn) (projected : List ProjectedTurn) (sid : String) :
    (∀ m ∈ (mergeEntries record projected sid).1,
      m.entries.map Entry.seq = List.range m.entries.length) ∧
    List.Forall₂ (fun m n => Numbered n m)
      ((mergeEntries record projected sid).1.filter fun m => !m.reverted)
      (List.range' 1 ((mergeEntries record projected sid).1.filter fun m => !m.reverted).length) ∧
    renumberMoved (mergeEntries record projected sid).1 = false := by
  refine ⟨fun m hm => ?_, numbered_renumber 0 _, ?_⟩
  · obtain ⟨t, -, n, rfl⟩ := mem_of_forall₂_right (forall₂_renumber 0 _) hm
    exact (numbered_renumberTurn n t).seqs
  · rw [renumberMoved, mergeEntries, renumber_again]
    simp

/-! ## Whether anything moved -/

theorem renumberOpen_of_ne {p : Payload} (h : p.kind ≠ .turnOpen) (n : ℕ) :
    renumberOpen n p = p := by
  cases p <;> first | rfl | exact absurd rfl h

/-- A union that the numbering takes back to the entry had not moved it. -/
theorem emitted_of_renumbered {rec : RecordTurn} {proj : ProjectedTurn} {e : Entry} {i : ℕ}
    (n seq : ℕ) (h : renumberEntry rec.reverted n seq (emittedEntry rec proj e i) = e) :
    emittedEntry rec proj e i = e := by
  unfold emittedEntry at h ⊢
  split at h
  · rfl
  · next twin _ =>
    have hseq : seq = e.seq := congrArg Entry.seq h
    have hlane := congrArg Entry.lane h
    have hts := congrArg Entry.ts h
    have hpayload : (if rec.reverted then (unionEntry e twin (sayExcess rec.entries i twin)).payload
        else renumberOpen n (unionEntry e twin (sayExcess rec.entries i twin)).payload) =
          e.payload :=
      congrArg Entry.payload h
    have hsame : (unionEntry e twin (sayExcess rec.entries i twin)).payload = e.payload := by
      by_cases hopen : e.payload.kind = .turnOpen
      · cases hp : e.payload <;> simp only [hp, Payload.kind] at hopen <;>
          first | contradiction | simp [unionEntry, hp, unionPayload, unionSay]
      · have hkind : (unionEntry e twin (sayExcess rec.entries i twin)).payload.kind =
            e.payload.kind := (keepsPayload_union ..).kind
        split at hpayload
        · exact hpayload
        · rwa [renumberOpen_of_ne (by rw [hkind]; exact hopen)] at hpayload
    cases e
    simp_all [unionEntry, renumberEntry]

theorem mergeMoved_eq_false {rec : RecordTurn} {proj : ProjectedTurn} :
    mergeMoved rec proj = false ↔
      (∀ p ∈ rec.entries.zipIdx, emittedEntry rec proj p.1 p.2 = p.1 ∧
        Weave.bucket (hungEntries rec proj) p.2 = []) ∧
      closing (turnOf rec.entries) (mergedEntries rec proj) = [] := by
  simp [mergeMoved, not_or]

/-- A merged turn that its numbering takes to the record turn has not moved. -/
theorem mergeMoved_of_renumbered {rec : RecordTurn} {proj : ProjectedTurn} {n : ℕ}
    (h : renumberTurn n (mergeTurn rec proj) = keptTurn rec) : mergeMoved rec proj = false := by
  have hentries : (mergeTurn rec proj).entries.mapIdx
      (fun seq e => renumberEntry rec.reverted n seq e) = rec.entries :=
    congrArg MergedTurn.entries h
  have hlen := congrArg List.length hentries
  rw [List.length_mapIdx] at hlen
  have hwoven := woven_mergeTurn rec proj
  obtain ⟨hadded, hall⟩ := hwoven.eq_of_length_le (by simp [hlen])
  obtain ⟨hfiled, hclosing⟩ := List.append_eq_nil_iff.1 hadded
  rw [List.map_eq_nil_iff, filedEntries, List.flatMap_eq_nil_iff] at hfiled
  rw [mergeMoved_eq_false]
  refine ⟨fun p hp => ⟨?_, hfiled p.2 (List.mem_map_of_mem hp)⟩, hclosing⟩
  have hget := List.mem_zipIdx_iff_getElem?.1 hp
  obtain ⟨hi, hget'⟩ := List.getElem?_eq_some_iff.1 hget
  apply emitted_of_renumbered n p.2
  have heq := congrArg (·[p.2]?) hentries
  simp only [List.getElem?_mapIdx, hall, List.getElem?_map, List.getElem?_zipIdx, hget,
    Option.map_some, Nat.zero_add] at heq
  exact Option.some.inj heq

theorem mergeTurn_of_unmoved {rec : RecordTurn} {proj : ProjectedTurn}
    (h : mergeMoved rec proj = false) : mergeTurn rec proj = keptTurn rec := by
  obtain ⟨hall, hclosing⟩ := mergeMoved_eq_false.1 h
  have hmerged : mergedEntries rec proj = rec.entries := by
    have hmap : mergedEntries rec proj = rec.entries.zipIdx.map Prod.fst := by
      rw [mergedEntries, Weave.weave, List.map_eq_flatMap]
      apply List.flatMap_congr
      intro p hp
      rw [(hall p hp).1, (hall p hp).2]
      rfl
    rw [hmap, List.zipIdx_map_fst]
  rw [mergeTurn, closed, hclosing, hmerged, List.append_nil]
  rfl

variable {record : List RecordTurn} {projected : List ProjectedTurn} {sid : String}

theorem emittedTurn_of_unmoved {p : RecordTurn × ℕ}
    (h : turnMoved record projected sid p.1 p.2 = false) :
    emittedTurn record projected sid p.1 p.2 = keptTurn p.1 := by
  unfold turnMoved at h
  unfold emittedTurn
  split at h
  · rfl
  · exact mergeTurn_of_unmoved h

theorem merge_moved_eq_false : (mergeEntries record projected sid).2 = false ↔
    renumber 0 (wovenTurns record projected sid) = wovenTurns record projected sid ∧
      insertedTurns record projected sid none = [] ∧
      ∀ p ∈ record.zipIdx, turnMoved record projected sid p.1 p.2 = false ∧
        insertedTurns record projected sid (some p.2) = [] := by
  simp [mergeEntries, renumberMoved, and_assoc]

theorem wovenTurns_of_unmoved (hnone : insertedTurns record projected sid none = [])
    (h : ∀ p ∈ record.zipIdx, emittedTurn record projected sid p.1 p.2 = keptTurn p.1 ∧
      insertedTurns record projected sid (some p.2) = []) :
    wovenTurns record projected sid = record.map keptTurn := by
  have hmap : Weave.weave (fun p => some p.2)
      (fun p => emittedTurn record projected sid p.1 p.2) (fun q => insertedTurn q.1)
      (hungTurns record projected sid) record.zipIdx =
      record.zipIdx.map fun p => keptTurn p.1 := by
    rw [Weave.weave, List.map_eq_flatMap]
    apply List.flatMap_congr
    intro p hp
    rw [(h p hp).1]
    exact congrArg (keptTurn p.1 :: ·) (h p hp).2
  have hfst : record.zipIdx.map (fun p => keptTurn p.1) =
      (record.zipIdx.map Prod.fst).map keptTurn := by
    rw [List.map_map]
    rfl
  rw [wovenTurns, hnone, hmap, List.nil_append, hfst, List.zipIdx_map_fst]

/-- A merge reports no change exactly when the merged log is the record. -/
theorem merge_unchanged_iff (record : List RecordTurn) (projected : List ProjectedTurn)
    (sid : String) :
    (mergeEntries record projected sid).2 = false ↔
      (mergeEntries record projected sid).1 = record.map keptTurn := by
  rw [merge_moved_eq_false]
  constructor
  · rintro ⟨hnumbered, hnone, hall⟩
    rw [mergeEntries, hnumbered]
    exact wovenTurns_of_unmoved hnone fun p hp =>
      ⟨emittedTurn_of_unmoved (hall p hp).1, (hall p hp).2⟩
  · intro h
    have hrenumber : renumber 0 (wovenTurns record projected sid) = record.map keptTurn := h
    have hlen := (forall₂_renumber 0 (wovenTurns record projected sid)).length_eq
    rw [hrenumber, List.length_map] at hlen
    obtain ⟨hplaced, hwoven⟩ := (woven_wovenTurns record projected sid).eq_of_length_le
      (by simp [hlen])
    rw [List.map_eq_nil_iff, placedTurns, List.flatMap_cons, List.append_eq_nil_iff,
      List.flatMap_eq_nil_iff] at hplaced
    have hnone : insertedTurns record projected sid none = [] := by
      rw [insertedTurns, hplaced.1]
      rfl
    have hsame : ∀ p ∈ record.zipIdx, ∃ n,
        keptTurn p.1 = renumberTurn n (emittedTurn record projected sid p.1 p.2) := by
      have hzip := forall₂_renumber 0 (wovenTurns record projected sid)
      rw [hrenumber, hwoven, List.forall₂_map_left_iff, List.forall₂_map_right_iff] at hzip
      have hself : List.Forall₂ (fun p rec => ∃ n,
          keptTurn rec = renumberTurn n (emittedTurn record projected sid p.1 p.2))
          record.zipIdx (record.zipIdx.map Prod.fst) := by
        rw [List.zipIdx_map_fst]
        exact hzip
      rwa [List.forall₂_map_right_iff, List.forall₂_same] at hself
    have hall : ∀ p ∈ record.zipIdx, turnMoved record projected sid p.1 p.2 = false ∧
        insertedTurns record projected sid (some p.2) = [] := by
      intro p hp
      constructor
      · unfold turnMoved
        split
        · rfl
        · next proj hpartner =>
          obtain ⟨n, hn⟩ := hsame p hp
          rw [emittedTurn, hpartner] at hn
          exact mergeMoved_of_renumbered hn.symm
      · rw [insertedTurns, hplaced.2 _ (List.mem_map.2 ⟨p, hp, rfl⟩)]
        rfl
    have hkept := wovenTurns_of_unmoved hnone fun p hp =>
      ⟨emittedTurn_of_unmoved (hall p hp).1, (hall p hp).2⟩
    refine ⟨?_, hnone, hall⟩
    rw [hrenumber, hkept]

/-! ## The words of a say -/

section Says
variable {rec proj : List Entry} {e : Entry} {i j : ℕ} {group : List ℕ}

theorem pairEntries_whole (rec proj : List Entry) : List.Forall₂ (fun group e =>
    group = [] ∨ ∃ resultTwin, group = twins rec resultTwin e) (pairEntries rec proj) proj := by
  have hfold : ∀ (es : List Entry) (c : EntryClaims), ∃ groups,
      (es.foldl (pairEntry rec) c).pairing = c.pairing ++ groups ∧
        List.Forall₂ (fun group e => group = [] ∨ ∃ resultTwin, group = twins rec resultTwin e)
          groups es := by
    intro es
    induction es with
    | nil => exact fun c => ⟨[], (List.append_nil _).symm, .nil⟩
    | cons e es ih =>
      intro c
      obtain ⟨groups, hgroups, hall⟩ := ih (pairEntry rec c e)
      refine ⟨(if (twins rec c.resultTwin e).any c.claimed then [] else twins rec c.resultTwin e) ::
        groups, ?_, .cons ?_ hall⟩
      · rw [List.foldl_cons, hgroups]
        simp [pairEntry, EntryClaims.claim]
      · split
        · exact .inl rfl
        · exact .inr ⟨_, rfl⟩
  obtain ⟨groups, hgroups, hall⟩ := hfold proj {}
  rw [pairEntries, hgroups]
  exact hall

theorem twins_say (h : e.kind = .text ∨ e.kind = .thinking) (rec : List Entry)
    (resultTwin : List (String × List ℕ)) : twins rec resultTwin e = bySay rec (sayIDOf e.id) := by
  unfold twins
  cases hp : e.payload <;> simp [Entry.kind, hp, Payload.kind] at h ⊢

/-- A record entry of a group has the group's projected entry as its claimant. -/
theorem claimant_of_mem {rec : RecordTurn} {proj : ProjectedTurn}
    (hgroup : (pairEntries rec.entries proj.entries)[j]? = some group) (hi : i ∈ group) :
    claimant rec proj i = proj.entries[j]? := by
  have hdisjoint := (List.nodup_flatten.1 (pairEntries_sound rec.entries proj.entries).1).2
  obtain ⟨hj, hget⟩ := List.getElem?_eq_some_iff.1 hgroup
  have hfind : (pairEntries rec.entries proj.entries).findIdx? (fun group => group.contains i) =
      some j := by
    rw [List.findIdx?_eq_some_iff_getElem]
    refine ⟨hj, by simpa [hget] using hi, fun k hk => ?_⟩
    have hne := List.pairwise_iff_getElem.1 hdisjoint k j (hk.trans hj) hj hk
    simp only [Bool.not_eq_true, List.contains_eq_mem, decide_eq_false_iff_not]
    intro hmem
    exact hne hmem (hget ▸ hi)
  rw [claimant, hfind]
  rfl

theorem sayTextOf_union (h : e.kind = .text ∨ e.kind = .thinking) (twin : Entry)
    (excess : List Char) :
    (sayTextOf (unionEntry e twin excess)).toList = (sayTextOf e).toList ++ excess := by
  cases hp : e.payload <;> simp [Entry.kind, hp, Payload.kind] at h <;>
    simp [sayTextOf, unionEntry, hp, unionPayload, unionSay]

theorem unionEntry_nil_payload (h : e.kind = .text ∨ e.kind = .thinking) (twin : Entry) :
    (unionEntry e twin []).payload = e.payload := by
  cases hp : e.payload <;> simp [Entry.kind, hp, Payload.kind] at h <;>
    simp [unionEntry, hp, unionPayload, unionSay]

/-- The characters of some segments of a turn. -/
def segmentText (text : ℕ → Entry → String) (rec : List Entry) (group : List ℕ) : List Char :=
  group.flatMap fun i => ((rec[i]?.map (text i)).getD "").toList

/-- A projected say that is paired claims every segment of the record's. Only the last of them
grows, and together they say the projected text where the record's begins it. -/
structure ExtendsSay (rec : RecordTurn) (proj : ProjectedTurn) (group : List ℕ) (e : Entry) :
    Prop where
  whole : group = bySay rec.entries (sayIDOf e.id)
  kept : ∀ i ∈ group.dropLast, ∀ w, rec.entries[i]? = some w →
    (emittedEntry rec proj w i).payload = w.payload
  said : segmentText (fun i w => sayTextOf (emittedEntry rec proj w i)) rec.entries group =
    if (segmentText (fun _ => sayTextOf) rec.entries group).isPrefixOf (sayTextOf e).toList
    then (sayTextOf e).toList else segmentText (fun _ => sayTextOf) rec.entries group

theorem sayExcess_eq (hsay : e.kind = .text ∨ e.kind = .thinking) (i : ℕ) :
    sayExcess rec i e =
      if (bySay rec (sayIDOf e.id)).getLast? = some i ∧
        (segmentText (fun _ => sayTextOf) rec (bySay rec (sayIDOf e.id))).isPrefixOf
          (sayTextOf e).toList
      then (sayTextOf e).toList.drop
        (segmentText (fun _ => sayTextOf) rec (bySay rec (sayIDOf e.id))).length
      else [] := by
  unfold sayExcess
  rw [if_neg (by tauto)]
  by_cases hlast : (bySay rec (sayIDOf e.id)).getLast? = some i
  · simp only [hlast, ne_eq, not_true_eq_false, if_false, true_and]
    rfl
  · simp only [hlast, ne_eq, not_false_eq_true, if_true, false_and, if_false]

theorem extendsSay {rec : RecordTurn} {proj : ProjectedTurn}
    (hsay : e.kind = .text ∨ e.kind = .thinking) (hget : proj.entries[j]? = some e)
    (hgroup : (pairEntries rec.entries proj.entries)[j]? = some group) (hne : group ≠ [])
    (hwhole : group = bySay rec.entries (sayIDOf e.id)) : ExtendsSay rec proj group e := by
  have hemitted : ∀ i ∈ group, ∀ w, emittedEntry rec proj w i =
      unionEntry w e (sayExcess rec.entries i e) := by
    intro i hi w
    rw [emittedEntry, claimant_of_mem hgroup hi, hget]
  have hsegment : ∀ i ∈ group, ∃ w, rec.entries[i]? = some w ∧
      (w.kind = .text ∨ w.kind = .thinking) := by
    intro i hi
    rw [hwhole] at hi
    obtain ⟨w, hw, hkind, -⟩ := mem_bySay hi
    exact ⟨w, hw, hkind⟩
  have hnodup : group.Nodup := by
    rw [hwhole]
    exact nodup_bySay ..
  obtain ⟨before, last, rfl⟩ := (List.eq_nil_or_concat' group).resolve_left hne
  have hbefore : ∀ i ∈ before, sayExcess rec.entries i e = [] := by
    intro i hi
    rw [sayExcess_eq hsay, ← hwhole, if_neg]
    rintro ⟨hlast, -⟩
    rw [List.getLast?_concat] at hlast
    rw [Option.some.inj hlast] at hnodup
    exact (List.nodup_append.1 hnodup).2.2 i hi i (List.mem_singleton_self i) rfl
  have hmem : ∀ i ∈ before, i ∈ before ++ [last] := fun i hi => List.mem_append_left _ hi
  have hkept : ∀ i ∈ before, ∀ w, rec.entries[i]? = some w →
      (emittedEntry rec proj w i).payload = w.payload := by
    intro i hi w hw
    obtain ⟨w', hw', hkind⟩ := hsegment i (hmem i hi)
    rw [hw] at hw'
    cases hw'
    rw [hemitted i (hmem i hi), hbefore i hi, unionEntry_nil_payload hkind]
  refine ⟨hwhole, ?_, ?_⟩
  · rw [List.dropLast_concat]
    exact hkept
  · obtain ⟨w, hw, hkind⟩ := hsegment last (by simp)
    have hfront :
        segmentText (fun i w => sayTextOf (emittedEntry rec proj w i)) rec.entries before =
          segmentText (fun _ => sayTextOf) rec.entries before := by
      apply List.flatMap_congr
      intro i hi
      cases hv : rec.entries[i]? with
      | none => rfl
      | some v =>
        have hpayload := hkept i hi v hv
        simp only [Option.map_some, Option.getD_some, sayTextOf, hpayload]
    have hlast : segmentText (fun i w => sayTextOf (emittedEntry rec proj w i)) rec.entries [last] =
        segmentText (fun _ => sayTextOf) rec.entries [last] ++ sayExcess rec.entries last e := by
      simp only [segmentText, List.flatMap_cons, List.flatMap_nil, List.append_nil, hw,
        Option.map_some, Option.getD_some]
      rw [hemitted last (by simp), sayTextOf_union hkind]
    have hsplit : ∀ text, segmentText text rec.entries (before ++ [last]) =
        segmentText text rec.entries before ++ segmentText text rec.entries [last] :=
      fun text => List.flatMap_append
    rw [hsplit, hfront, hlast, ← List.append_assoc, ← hsplit, sayExcess_eq hsay, ← hwhole,
      List.getLast?_concat]
    split
    · next hprefix =>
      obtain ⟨rest, hrest⟩ := List.isPrefixOf_iff_prefix.1 hprefix.2
      rw [if_pos hprefix.2, ← hrest, List.drop_left]
    · next hprefix =>
      rw [if_neg fun h => hprefix ⟨rfl, h⟩, List.append_nil]

end Says

/-- In every merged turn, each say of the replay that is paired extends the record's segments by
what the record lacks at their end, and moves nothing else of them. -/
theorem merge_extends_says (rec : RecordTurn) (proj : ProjectedTurn) :
    List.Forall₂ (fun group e => e.kind = .text ∨ e.kind = .thinking → group ≠ [] →
      ExtendsSay rec proj group e) (pairEntries rec.entries proj.entries) proj.entries := by
  have hall := pairEntries_whole rec.entries proj.entries
  rw [List.forall₂_iff_get] at hall ⊢
  refine ⟨hall.1, fun j hj hj' hsay hne => ?_⟩
  apply extendsSay hsay (List.getElem?_eq_getElem hj') (List.getElem?_eq_getElem hj) hne
  rcases hall.2 j hj hj' with hnil | ⟨resultTwin, htwins⟩
  · exact absurd hnil hne
  · exact htwins.trans (twins_say hsay _ _)

end Marotte.Merge
