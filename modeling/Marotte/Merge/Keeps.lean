import Marotte.Merge.Entries
import Mathlib.Data.List.Forall2

/-! # What a merge keeps

A merged log is woven from the record's turns and the projected turns that no record turn is paired
with, and a merged turn from the record's entries and the projected entries with no twin. An entry
of the record keeps what it states.
-/
namespace Marotte.Merge

open Projection (ProjectedTurn)

/-! ## Entries -/

/-- The settled value of a call: what the record states stands, unless it is a close's guess. -/
structure KeepsResult (r r' : EntryToolResult) : Prop where
  rest : r' = { r with
    status := r'.status, output := r'.output, workflowID := r'.workflowID, diffs := r'.diffs
    checkpoint := r'.checkpoint, disclosed := r'.disclosed }
  status : r'.status = r.status ∨ (r.status = .aborted ∧ r'.status.terminal = true)
  output : r.output ≠ "" → r'.output = r.output
  workflowID : r.workflowID ≠ "" → r'.workflowID = r.workflowID
  diffs : r.diffs ≠ [] → r'.diffs = r.diffs
  checkpoint : r.checkpoint ≠ none → r'.checkpoint = r.checkpoint
  disclosed : r.disclosed ≠ none → r'.disclosed = r.disclosed

structure KeepsSteer (r r' : EntrySteer) : Prop where
  rest : r' = { r with text := r'.text, severity := r'.severity }
  text : r.text ≠ "" → r'.text = r.text
  severity : r.severity ≠ "" → r'.severity = r.severity

/-- A closer that a process wrote stands; the placeholder's conclusion may be replaced. -/
structure KeepsClose (r r' : EntryTurnClose) : Prop where
  rest : r' = { r with
    outcome := r'.outcome, stopReasonRaw := r'.stopReasonRaw, failureReason := r'.failureReason
    truncated := r'.truncated, credits := r'.credits, elapsedMs := r'.elapsedMs }
  written : r.stopReasonRaw ≠ stopReasonUnterminated → r' = r

/-- What a payload of the record becomes. -/
inductive KeepsPayload : Payload → Payload → Prop
  | same (p : Payload) : KeepsPayload p p
  | turnOpen (p : EntryTurnOpen) (n : ℕ) : KeepsPayload (.turnOpen p) (.turnOpen { p with n })
  | text {p q : EntryText} (h : p.text.toList <+: q.text.toList) :
      KeepsPayload (.text p) (.text q)
  | thinking {p q : EntryThinking} (h : p.text.toList <+: q.text.toList) :
      KeepsPayload (.thinking p) (.thinking q)
  | toolResult {r r' : EntryToolResult} (h : KeepsResult r r') :
      KeepsPayload (.toolResult r) (.toolResult r')
  | steer {r r' : EntrySteer} (h : KeepsSteer r r') : KeepsPayload (.steer r) (.steer r')
  | compaction {r r' : EntryCompaction} (h : r.summary ≠ "" → r' = r) :
      KeepsPayload (.compaction r) (.compaction r')
  | turnClose {r r' : EntryTurnClose} (h : KeepsClose r r') :
      KeepsPayload (.turnClose r) (.turnClose r')

theorem KeepsPayload.kind {p q : Payload} (h : KeepsPayload p q) : q.kind = p.kind := by
  cases h <;> rfl

/-- An entry of the record in the merged log. -/
structure KeepsEntry (e e' : Entry) : Prop where
  id : e'.id = e.id
  turn : e'.turn = e.turn
  lane : e.lane ≠ "" → e'.lane = e.lane
  ts : e.ts ≠ 0 → e'.ts = e.ts
  payload : KeepsPayload e.payload e'.payload

theorem KeepsEntry.kind {e e' : Entry} (h : KeepsEntry e e') : e'.kind = e.kind := h.payload.kind

theorem KeepsEntry.refl (e : Entry) : KeepsEntry e e :=
  ⟨rfl, rfl, fun _ => rfl, fun _ => rfl, .same _⟩

theorem orElse_of_ne {a b : String} (h : a ≠ "") : orElse a b = a := if_neg h

theorem keepsResult_union (r p : EntryToolResult) : KeepsResult r (unionToolResult r p) where
  rest := rfl
  status := by
    simp only [unionToolResult]
    split
    · next h => exact .inr h
    · exact .inl rfl
  output h := orElse_of_ne h
  workflowID h := orElse_of_ne h
  diffs h := if_neg h
  checkpoint h := by
    obtain ⟨c, hc⟩ := Option.ne_none_iff_exists'.1 h
    simp [unionToolResult, hc]
  disclosed h := by
    obtain ⟨c, hc⟩ := Option.ne_none_iff_exists'.1 h
    simp [unionToolResult, hc]

theorem keepsSteer_union (r p : EntrySteer) : KeepsSteer r (unionSteer r p) where
  rest := rfl
  text h := orElse_of_ne h
  severity h := orElse_of_ne h

theorem keepsClose_union (r p : EntryTurnClose) : KeepsClose r (unionTurnClose r p) where
  rest := by
    rw [unionTurnClose]
    split <;> rfl
  written h := if_pos h

theorem keepsPayload_unionSay (excess : List Char) (r : Payload) :
    KeepsPayload r (unionSay excess r) := by
  cases r with
  | text p =>
    apply KeepsPayload.text
    rw [String.toList_append]
    exact List.prefix_append ..
  | thinking p =>
    apply KeepsPayload.thinking
    rw [String.toList_append]
    exact List.prefix_append ..
  | _ => exact .same _

theorem keepsPayload_union (excess : List Char) (r p : Payload) :
    KeepsPayload r (unionPayload excess r p) := by
  unfold unionPayload
  split
  · exact .toolResult (keepsResult_union _ _)
  · exact .steer (keepsSteer_union _ _)
  · exact .compaction fun h => congrArg EntryCompaction.mk (orElse_of_ne h)
  · exact .turnClose (keepsClose_union _ _)
  · exact keepsPayload_unionSay excess _

theorem keepsEntry_union (e twin : Entry) (excess : List Char) :
    KeepsEntry e (unionEntry e twin excess) where
  id := rfl
  turn := rfl
  lane h := orElse_of_ne h
  ts h := if_neg h
  payload := keepsPayload_union excess _ _

theorem keepsEntry_emitted (rec : RecordTurn) (proj : ProjectedTurn) (e : Entry) (i : ℕ) :
    KeepsEntry e (emittedEntry rec proj e i) := by
  unfold emittedEntry
  split
  · exact KeepsEntry.refl e
  · exact keepsEntry_union ..

/-- The numbering, which moves an entry's seq and a turn's ordinal only. -/
def Renumbers (e e' : Entry) : Prop := ∃ reverted n seq, e' = renumberEntry reverted n seq e

theorem KeepsEntry.renumbers {e e' e'' : Entry} (h : KeepsEntry e e') (hr : Renumbers e' e'') :
    KeepsEntry e e'' := by
  obtain ⟨reverted, n, seq, rfl⟩ := hr
  refine ⟨h.id, h.turn, h.lane, h.ts, ?_⟩
  have hpayload := h.payload
  simp only [renumberEntry]
  split
  · exact hpayload
  · generalize e.payload = p at hpayload
    generalize e'.payload = q at hpayload
    cases hpayload with
    | same =>
      cases p with
      | turnOpen p => exact .turnOpen p n
      | _ => exact .same _
    | turnOpen p => exact .turnOpen p n
    | text h => exact .text h
    | thinking h => exact .thinking h
    | toolResult h => exact .toolResult h
    | steer h => exact .steer h
    | compaction h => exact .compaction h
    | turnClose h => exact .turnClose h

/-! ## Numbering -/

theorem renumbers_renumberTurn (n : ℕ) (t : MergedTurn) :
    List.Forall₂ Renumbers t.entries (renumberTurn n t).entries :=
  forall₂_mapIdx (fun seq _ => ⟨t.reverted, n, seq, rfl⟩) _

theorem forall₂_renumber (s : ℕ) (ts : List MergedTurn) :
    List.Forall₂ (fun t t' => ∃ n, t' = renumberTurn n t) ts (renumber s ts) := by
  induction ts generalizing s with
  | nil => exact .nil
  | cons t ts ih => exact .cons ⟨_, rfl⟩ (ih _)

/-! ## Twins -/

section Twins
variable {rec proj : List Entry} {c : EntryClaims} {e : Entry} {i : ℕ}

theorem findIdx?_toList {p : Entry → Bool} (h : i ∈ (rec.findIdx? p).toList) :
    ∃ w, rec[i]? = some w ∧ p w = true := by
  rw [Option.mem_toList, List.findIdx?_eq_some_iff_getElem] at h
  obtain ⟨hi, hp, -⟩ := h
  exact ⟨rec[i], List.getElem?_eq_getElem hi, hp⟩

theorem nodup_toList (o : Option ℕ) : o.toList.Nodup := by
  cases o <;> simp

theorem mem_bySay {say : String} (h : i ∈ bySay rec say) :
    ∃ w, rec[i]? = some w ∧ (w.kind = .text ∨ w.kind = .thinking) ∧ sayIDOf w.id = say := by
  have hp := (List.mem_filter.1 h).2
  cases hw : rec[i]? with
  | none => simp [hw] at hp
  | some w => exact ⟨w, rfl, by simpa [hw] using hp⟩

theorem nodup_bySay (rec : List Entry) (say : String) : (bySay rec say).Nodup :=
  List.nodup_range.filter _

/-- How a record entry and a projected one pair: by kind, as segments of one say, by id, as
invocations of one delegate, or as the results of such invocations. -/
inductive Twin (rec proj : List Entry) (w e : Entry) : Prop
  | kind (hkind : w.kind = e.kind) (hends : e.kind = .turnOpen ∨ e.kind = .turnClose)
  | say (hw : w.kind = .text ∨ w.kind = .thinking) (he : e.kind = .text ∨ e.kind = .thinking)
      (hsay : sayIDOf w.id = sayIDOf e.id)
  | id (hid : w.id = e.id)
  | invocation (hkey : invocationKey w = invocationKey e) (hne : invocationKey e ≠ "")
  | result {call call' : Entry} (hcall : call ∈ rec) (hcall' : call' ∈ proj)
      (hkey : invocationKey call = invocationKey call') (hne : invocationKey call' ≠ "")
      (hw : w.id = toolResultID call.id) (he : e.id = toolResultID call'.id)

/-- What the pairing keeps: no entry is claimed twice, and a carried twin is a result's. -/
structure EntryClaims.Sound (rec proj : List Entry) (c : EntryClaims) : Prop where
  nodup : c.pairing.flatten.Nodup
  carried : ∀ p ∈ c.resultTwin, p.2.Nodup ∧ ∃ call ∈ rec, ∃ call' ∈ proj,
    invocationKey call = invocationKey call' ∧ invocationKey call' ≠ "" ∧
      p.1 = toolResultID call'.id ∧
      ∀ i ∈ p.2, ∃ w, rec[i]? = some w ∧ w.id = toolResultID call.id

theorem twins_sound (hc : c.Sound rec proj) (e : Entry) :
    (twins rec c.resultTwin e).Nodup ∧
      ∀ i ∈ twins rec c.resultTwin e, ∃ w, rec[i]? = some w ∧ Twin rec proj w e := by
  have hid : ∀ i ∈ (byID rec e.id).toList, ∃ w, rec[i]? = some w ∧ Twin rec proj w e := by
    intro i hi
    obtain ⟨w, hw, hp⟩ := findIdx?_toList hi
    exact ⟨w, hw, .id (by simpa using hp)⟩
  have hkind : ∀ k, e.kind = k → (k = .turnOpen ∨ k = .turnClose) →
      ∀ i ∈ (firstOfKind rec k).toList, ∃ w, rec[i]? = some w ∧ Twin rec proj w e := by
    rintro k rfl hends i hi
    obtain ⟨w, hw, hp⟩ := findIdx?_toList hi
    exact ⟨w, hw, .kind (by simpa using hp) hends⟩
  have hsay : (e.kind = .text ∨ e.kind = .thinking) →
      ∀ i ∈ bySay rec (sayIDOf e.id), ∃ w, rec[i]? = some w ∧ Twin rec proj w e := by
    intro he i hi
    obtain ⟨w, hw, hkind, hsay⟩ := mem_bySay hi
    exact ⟨w, hw, .say hkind he hsay⟩
  unfold twins
  split
  · next hp => exact ⟨nodup_toList _, hkind _ (Entry.kind_of_payload hp) (.inl rfl)⟩
  · next hp => exact ⟨nodup_toList _, hkind _ (Entry.kind_of_payload hp) (.inr rfl)⟩
  · next hp => exact ⟨nodup_bySay .., hsay (.inl (Entry.kind_of_payload hp))⟩
  · next hp => exact ⟨nodup_bySay .., hsay (.inr (Entry.kind_of_payload hp))⟩
  · split
    · exact ⟨nodup_toList _, hid⟩
    · next hne =>
      refine ⟨nodup_toList _, fun i hi => ?_⟩
      obtain ⟨w, hw, hp⟩ := findIdx?_toList hi
      exact ⟨w, hw, .invocation (by simpa using hp) hne⟩
  · cases hlookup : c.resultTwin.lookup e.id with
    | none => exact ⟨nodup_toList _, hid⟩
    | some group =>
      obtain ⟨before, after, hsplit, -⟩ := List.lookup_eq_some_iff.1 hlookup
      obtain ⟨hnodup, call, hcall, call', hcall', hkey, hne, he, hgroup⟩ :=
        hc.carried (e.id, group) (by rw [hsplit]; simp)
      refine ⟨hnodup, fun i hi => ?_⟩
      obtain ⟨w, hw, hwid⟩ := hgroup i hi
      exact ⟨w, hw, .result hcall hcall' hkey hne hwid he⟩
  · exact ⟨nodup_toList _, hid⟩

theorem carried_sound (he : e ∈ proj) : ∀ p ∈ carried rec e, p.2.Nodup ∧
    ∃ call ∈ rec, ∃ call' ∈ proj, invocationKey call = invocationKey call' ∧
      invocationKey call' ≠ "" ∧ p.1 = toolResultID call'.id ∧
      ∀ i ∈ p.2, ∃ w, rec[i]? = some w ∧ w.id = toolResultID call.id := by
  unfold carried
  split
  · exact fun p hp => absurd hp List.not_mem_nil
  · next hne =>
    split
    · exact fun p hp => absurd hp List.not_mem_nil
    · next call hcall =>
      obtain ⟨k, hk, hget⟩ := Option.bind_eq_some_iff.1 hcall
      obtain ⟨w, hw, hkey⟩ := findIdx?_toList (Option.mem_toList.2 hk)
      rw [hget] at hw
      cases hw
      intro p hp
      rw [List.mem_singleton.1 hp]
      refine ⟨nodup_toList _, call, List.mem_of_getElem? hget, e, he, by simpa using hkey, hne, rfl,
        fun i hi => ?_⟩
      obtain ⟨v, hv, hid⟩ := findIdx?_toList hi
      exact ⟨v, hv, by simpa using hid⟩

/-- One projected entry claims twins of its own that nothing has claimed. -/
theorem pairEntry_sound (hc : c.Sound rec proj) (he : e ∈ proj) :
    (pairEntry rec c e).Sound rec proj ∧
      ∃ group, (pairEntry rec c e).pairing = c.pairing ++ [group] ∧
        ∀ i ∈ group, ∃ w, rec[i]? = some w ∧ Twin rec proj w e := by
  obtain ⟨hnodup, htwin⟩ := twins_sound hc e
  have hcarried : ∀ p ∈ carried rec e ++ c.resultTwin, p.2.Nodup ∧
      ∃ call ∈ rec, ∃ call' ∈ proj, invocationKey call = invocationKey call' ∧
        invocationKey call' ≠ "" ∧ p.1 = toolResultID call'.id ∧
        ∀ i ∈ p.2, ∃ w, rec[i]? = some w ∧ w.id = toolResultID call.id := by
    intro p hp
    rcases List.mem_append.1 hp with hp | hp
    · exact carried_sound he p hp
    · exact hc.carried p hp
  by_cases htaken : (twins rec c.resultTwin e).any c.claimed = true
  · have hpairing : (pairEntry rec c e).pairing = c.pairing ++ [[]] := by
      simp [pairEntry, EntryClaims.claim, htaken]
    refine ⟨⟨?_, hcarried⟩, [], hpairing, fun i hi => absurd hi List.not_mem_nil⟩
    rw [hpairing, List.flatten_append]
    simpa using hc.nodup
  · have hpairing : (pairEntry rec c e).pairing = c.pairing ++ [twins rec c.resultTwin e] := by
      simp [pairEntry, EntryClaims.claim, htaken]
    refine ⟨⟨?_, hcarried⟩, _, hpairing, htwin⟩
    rw [hpairing, List.flatten_append, List.flatten_singleton, List.nodup_append]
    refine ⟨hc.nodup, hnodup, fun i hi k hk heq => htaken ?_⟩
    rw [List.any_eq_true]
    refine ⟨k, hk, ?_⟩
    obtain ⟨group, hgroup, hmem⟩ := List.mem_flatten.1 hi
    rw [EntryClaims.claimed, List.any_eq_true]
    exact ⟨group, hgroup, by simpa [← heq] using hmem⟩

theorem pairEntries_fold {es : List Entry} (hes : ∀ e ∈ es, e ∈ proj) (hc : c.Sound rec proj) :
    (es.foldl (pairEntry rec) c).Sound rec proj ∧
      ∃ groups, (es.foldl (pairEntry rec) c).pairing = c.pairing ++ groups ∧
        List.Forall₂ (fun group e => ∀ i ∈ group, ∃ w, rec[i]? = some w ∧ Twin rec proj w e)
          groups es := by
  induction es generalizing c with
  | nil => exact ⟨hc, [], (List.append_nil _).symm, .nil⟩
  | cons e es ih =>
    obtain ⟨hsound, group, hgroup, htwin⟩ := pairEntry_sound hc (hes e List.mem_cons_self)
    obtain ⟨hall, groups, hgroups, htwins⟩ :=
      ih (fun e he => hes e (List.mem_cons_of_mem _ he)) hsound
    refine ⟨hall, group :: groups, ?_, .cons htwin htwins⟩
    rw [List.foldl_cons, hgroups, hgroup, List.append_assoc]
    rfl

/-- Each projected entry is paired with twins of its own, and no record entry twice. -/
theorem pairEntries_sound (rec proj : List Entry) :
    (pairEntries rec proj).flatten.Nodup ∧
      List.Forall₂ (fun group e => ∀ i ∈ group, ∃ w, rec[i]? = some w ∧ Twin rec proj w e)
        (pairEntries rec proj) proj := by
  have hstart : EntryClaims.Sound rec proj {} :=
    ⟨List.nodup_nil, fun p hp => absurd hp List.not_mem_nil⟩
  obtain ⟨hsound, groups, hgroups, htwins⟩ := pairEntries_fold (fun e he => he) hstart
  refine ⟨hsound.nodup, ?_⟩
  rw [pairEntries, hgroups]
  exact htwins

end Twins

/-! ## Turns -/

section Turn
variable (rec : RecordTurn) (proj : ProjectedTurn)

/-- What hangs off the entries of a record turn. -/
def filedEntries : List (Entry × ℕ) :=
  (rec.entries.zipIdx.map Prod.snd).flatMap (Weave.bucket (hungEntries rec proj))

/-- The projected entries with no twin. -/
def unpairedEntries : List Entry :=
  (proj.entries.zipIdx.filter fun p => (entryPlace rec proj p).isNone).map Prod.fst

theorem woven_mergedEntries :
    Woven (rec.entries.zipIdx.map fun p => emittedEntry rec proj p.1 p.2)
      ((filedEntries rec proj).map fun q => insertedEntry (turnOf rec.entries) q.1)
      (mergedEntries rec proj) :=
  Weave.woven_weave ..

theorem woven_mergeTurn :
    Woven (rec.entries.zipIdx.map fun p => emittedEntry rec proj p.1 p.2)
      ((filedEntries rec proj).map (fun q => insertedEntry (turnOf rec.entries) q.1) ++
        closing (turnOf rec.entries) (mergedEntries rec proj))
      (mergeTurn rec proj).entries := by
  have hwoven := (woven_mergedEntries rec proj).append
    (Woven.rights (closing (turnOf rec.entries) (mergedEntries rec proj)))
  rw [List.append_nil] at hwoven
  exact hwoven

variable {rec proj}

theorem entryPlace_lt {p : Entry × ℕ} {i : ℕ} (h : entryPlace rec proj p = some i) :
    i < rec.entries.length := by
  have hmem := List.mem_of_getLast? h
  cases hgroup : (pairEntries rec.entries proj.entries)[p.2]? with
  | none => simp [hgroup] at hmem
  | some group =>
    rw [hgroup, Option.getD_some] at hmem
    have hlen := (pairEntries_sound rec.entries proj.entries).2.length_eq
    obtain ⟨hj, hget⟩ := List.getElem?_eq_some_iff.1 hgroup
    have htwin := List.forall₂_iff_get.1 (pairEntries_sound rec.entries proj.entries).2
    obtain ⟨w, hw, -⟩ := htwin.2 p.2 hj (hlen ▸ hj) i (by simpa [hget] using hmem)
    exact (List.getElem?_eq_some_iff.1 hw).1

/-- Every projected entry without a twin is filed, once. -/
theorem filedEntries_perm (hne : rec.entries ≠ []) :
    ((filedEntries rec proj).map Prod.fst).Perm (unpairedEntries rec proj) := by
  have hplaces : rec.entries.zipIdx.map Prod.snd = List.range rec.entries.length := by
    rw [List.zipIdx_map_snd, List.range_eq_range']
  have hhung : ∀ p ∈ hungEntries rec proj, p.1 ∈ rec.entries.zipIdx.map Prod.snd := by
    intro p hp
    rw [hplaces, List.mem_range]
    rcases Weave.hang_fst hp with hanchor | ⟨q, -, hplace⟩
    · rw [hanchor]
      cases hfirst : firstOfKind rec.entries .turnOpen with
      | none => exact List.length_pos_iff.2 hne
      | some i =>
        obtain ⟨w, hw, -⟩ := findIdx?_toList (Option.mem_toList.2 hfirst)
        exact (List.getElem?_eq_some_iff.1 hw).1
    · exact entryPlace_lt hplace
  have hperm := Weave.buckets_perm (by rw [hplaces]; exact List.nodup_range) hhung
  rw [hungEntries, Weave.hang_snd] at hperm
  exact hperm.map Prod.fst

end Turn

/-- A turn of the record in the merged log: its entries among what was filed into it. A reverted
turn is left as it is. -/
structure KeepsTurn (rec : RecordTurn) (m : MergedTurn) : Prop where
  reverted : m.reverted = rec.reverted
  entries : ∃ kept added, Woven kept added m.entries ∧ List.Forall₂ KeepsEntry rec.entries kept
  hidden : rec.reverted = true → m.entries = rec.entries.mapIdx fun seq e => { e with seq }

/-- A projected turn folded into a record turn: every entry without a twin is filed, once, and a
turn that neither side closed is closed. -/
structure FoldsTurn (rec : RecordTurn) (proj : ProjectedTurn) (m : MergedTurn) : Prop where
  entries : ∃ kept added closers, ∃ filed : List Entry, Woven kept (added ++ closers) m.entries ∧
    List.Forall₂ KeepsEntry rec.entries kept ∧ filed.Perm (unpairedEntries rec proj) ∧
    List.Forall₂ Renumbers (filed.map (insertedEntry (turnOf rec.entries))) added ∧
    closers.length ≤ 1 ∧ (closers ≠ [] → ∀ e ∈ rec.entries ++ filed, e.kind ≠ .turnClose)
  closed : ∃ e ∈ m.entries, e.kind = .turnClose

theorem kind_renumberEntry (reverted : Bool) (n seq : ℕ) (e : Entry) :
    (renumberEntry reverted n seq e).kind = e.kind := by
  cases reverted with
  | true => rfl
  | false =>
    cases hp : e.payload <;>
      simp [renumberEntry, Entry.kind, hp, renumberOpen, Payload.kind]

theorem kind_insertedEntry (turn : String) (e : Entry) : (insertedEntry turn e).kind = e.kind := by
  cases hp : e.payload <;> simp [insertedEntry, Entry.kind, hp, Payload.kind]

theorem closing_length (turn : String) (es : List Entry) : (closing turn es).length ≤ 1 := by
  unfold closing
  split <;> simp

theorem closing_ne_nil (turn : String) (es : List Entry) (h : closing turn es ≠ []) :
    ∀ e ∈ es, e.kind ≠ .turnClose := by
  unfold closing at h
  split at h
  · exact absurd rfl h
  · next hnone => simpa using hnone

theorem exists_close (turn : String) (es : List Entry) :
    ∃ e ∈ closed turn es, e.kind = .turnClose := by
  unfold closed closing
  split
  · next hany =>
    obtain ⟨e, he, hkind⟩ := List.any_eq_true.1 hany
    exact ⟨e, List.mem_append_left _ he, by simpa using hkind⟩
  · exact ⟨synthesizedCloser turn, by simp, rfl⟩

theorem keepsTurn_kept (rec : RecordTurn) (n : ℕ) :
    KeepsTurn rec (renumberTurn n (keptTurn rec)) := by
  refine ⟨rfl, ⟨_, [], Woven.lefts _, ?_⟩, fun hidden => ?_⟩
  · refine (renumbers_renumberTurn n (keptTurn rec)).imp fun e e' h => ?_
    exact (KeepsEntry.refl e).renumbers h
  · simp [renumberTurn, keptTurn, renumberEntry, hidden]

theorem forall₂_emitted (rec : RecordTurn) (proj : ProjectedTurn) :
    List.Forall₂ KeepsEntry rec.entries
      (rec.entries.zipIdx.map fun p => emittedEntry rec proj p.1 p.2) :=
  forall₂_zipIdx fun p _ => keepsEntry_emitted rec proj p.1 p.2

theorem keepsTurn_merge (rec : RecordTurn) (proj : ProjectedTurn) (n : ℕ)
    (hseen : rec.reverted = false) : KeepsTurn rec (renumberTurn n (mergeTurn rec proj)) := by
  refine ⟨rfl, ?_, fun hidden => ?_⟩
  · obtain ⟨kept, added, hwoven, hkept, -⟩ :=
      (woven_mergeTurn rec proj).forall₂ (renumbers_renumberTurn n (mergeTurn rec proj))
    exact ⟨kept, added, hwoven, forall₂_trans (fun _ _ _ h h' => h.renumbers h')
      (forall₂_emitted rec proj) hkept⟩
  · rw [hseen] at hidden
    contradiction

theorem foldsTurn_merge {rec : RecordTurn} (hne : rec.entries ≠ []) (proj : ProjectedTurn) (n : ℕ) :
    FoldsTurn rec proj (renumberTurn n (mergeTurn rec proj)) := by
  obtain ⟨kept, added, hwoven, hkept, hadded⟩ :=
    (woven_mergeTurn rec proj).forall₂ (renumbers_renumberTurn n (mergeTurn rec proj))
  obtain ⟨filed, closers, rfl, hfiled, hclosers⟩ := forall₂_append_split hadded
  constructor
  · refine ⟨kept, filed, closers, (filedEntries rec proj).map Prod.fst, hwoven,
      forall₂_trans (fun _ _ _ h h' => h.renumbers h') (forall₂_emitted rec proj) hkept,
      filedEntries_perm hne, ?_, ?_, fun hclosing e he => ?_⟩
    · rw [List.map_map]
      exact hfiled
    · rw [← hclosers.length_eq]
      exact closing_length _ _
    · have hnone := closing_ne_nil (turnOf rec.entries) (mergedEntries rec proj) (by
        intro hnil
        rw [hnil] at hclosers
        cases hclosers
        exact hclosing rfl)
      have hperm := (woven_mergedEntries rec proj).perm
      rcases List.mem_append.1 he with he | he
      · obtain ⟨e', he', hkeeps⟩ := mem_of_forall₂ (forall₂_emitted rec proj) he
        rw [← hkeeps.kind]
        exact hnone e' (hperm.mem_iff.2 (List.mem_append_left _ he'))
      · obtain ⟨q, hq, rfl⟩ := List.mem_map.1 he
        rw [← kind_insertedEntry (turnOf rec.entries)]
        refine hnone _ (hperm.mem_iff.2 (List.mem_append_right _ ?_))
        exact List.mem_map.2 ⟨q, hq, rfl⟩
  · obtain ⟨e, he, hkind⟩ := exists_close (turnOf rec.entries) (mergedEntries rec proj)
    obtain ⟨e', he', reverted, m, seq, rfl⟩ :=
      mem_of_forall₂ (renumbers_renumberTurn n (mergeTurn rec proj)) he
    exact ⟨_, he', by rw [kind_renumberEntry, hkind]⟩

/-! ## Pairs of turns -/

section Pairs
variable {record : List RecordTurn} {projected : List ProjectedTurn} {sid : String} {pairs : Pairs}

/-- What the pairing of turns keeps: no turn has two partners, and partners share a key. -/
structure Matched (record : List RecordTurn) (projected : List ProjectedTurn) (sid : String)
    (pairs : Pairs) : Prop where
  left : (pairs.map Prod.fst).Nodup
  right : (pairs.map Prod.snd).Nodup
  keyed : ∀ p ∈ pairs, ∃ rec proj, record[p.1]? = some rec ∧ projected[p.2]? = some proj ∧
    rec.reverted = false ∧
    ((recordTurnKeys sid rec).prompt = (projectedTurnKeys proj).prompt ∧
        (projectedTurnKeys proj).prompt ≠ "" ∨
      (recordTurnKeys sid rec).content = (projectedTurnKeys proj).content ∧
        (projectedTurnKeys proj).content ≠ "")

theorem recPartner_none {i : ℕ} : recPartner pairs i = none ↔ i ∉ pairs.map Prod.fst := by
  rw [recPartner, Option.map_eq_none_iff, Keyed.find_eq_none]

theorem projPartner_none {j : ℕ} : projPartner pairs j = none ↔ j ∉ pairs.map Prod.snd := by
  rw [projPartner, Option.map_eq_none_iff, Keyed.find_eq_none]

theorem mem_of_recPartner {i j : ℕ} (h : recPartner pairs i = some j) : (i, j) ∈ pairs := by
  obtain ⟨p, hfind, rfl⟩ := Option.map_eq_some_iff.1 h
  rw [← Keyed.key_of_find hfind]
  exact Keyed.mem_of_find hfind

theorem mem_of_projPartner {i j : ℕ} (h : projPartner pairs j = some i) : (i, j) ∈ pairs := by
  obtain ⟨p, hfind, rfl⟩ := Option.map_eq_some_iff.1 h
  rw [← Keyed.key_of_find hfind]
  exact Keyed.mem_of_find hfind

theorem recPartner_of_mem (h : (pairs.map Prod.fst).Nodup) {p : ℕ × ℕ} (hp : p ∈ pairs) :
    recPartner pairs p.1 = some p.2 := by
  rw [recPartner, Keyed.find_of_mem h hp, Option.map_some]

theorem key_of_reverted {rec : RecordTurn} (h : rec.reverted = true) :
    recordTurnKeys sid rec = {} := if_pos h

/-- One record turn takes a partner of its own key. -/
theorem matched_pairOne {key : TurnKeys → String} (hkey : key {} = "")
    (hrule : ∀ k k' : TurnKeys, key k = key k' → key k' ≠ "" →
      k.prompt = k'.prompt ∧ k'.prompt ≠ "" ∨ k.content = k'.content ∧ k'.content ≠ "")
    (h : Matched record projected sid pairs) {rec : RecordTurn} {i : ℕ}
    (hrec : record[i]? = some rec) :
    Matched record projected sid
      (pairOne (projected.map projectedTurnKeys) key pairs (recordTurnKeys sid rec, i)) := by
  unfold pairOne
  split
  · exact h
  · next hfree =>
    rw [not_or] at hfree
    split
    · exact h
    · next j hj =>
      split
      · exact h
      · next htaken =>
        have hi : i ∉ pairs.map Prod.fst := recPartner_none.1 (by simpa using hfree.2)
        have hj' : j ∉ pairs.map Prod.snd := projPartner_none.1 (by simpa using htaken)
        obtain ⟨hlt, heq, -⟩ := List.findIdx?_eq_some_iff_getElem.1 hj
        rw [List.length_map] at hlt
        rw [List.getElem_map] at heq
        have heq : key (recordTurnKeys sid rec) = key (projectedTurnKeys projected[j]) := by
          simpa using Eq.symm (of_decide_eq_true heq)
        have hne := hfree.1
        have hseen : rec.reverted = false := by
          by_contra hreverted
          rw [key_of_reverted (by simpa using hreverted)] at hne
          exact hne hkey
        refine ⟨?_, ?_, fun p hp => ?_⟩
        · rw [List.map_append, List.nodup_append]
          refine ⟨h.left, List.nodup_singleton _, fun a ha b hb hab => hi ?_⟩
          rw [List.mem_singleton.1 hb] at hab
          rw [hab] at ha
          exact ha
        · rw [List.map_append, List.nodup_append]
          refine ⟨h.right, List.nodup_singleton _, fun a ha b hb hab => hj' ?_⟩
          rw [List.mem_singleton.1 hb] at hab
          rw [hab] at ha
          exact ha
        · rcases List.mem_append.1 hp with hp | hp
          · exact h.keyed p hp
          · rw [List.mem_singleton.1 hp]
            exact ⟨rec, projected[j], hrec, List.getElem?_eq_getElem hlt, hseen,
              hrule _ _ heq (heq ▸ hne)⟩

theorem matched_pairOnKey (key : TurnKeys → String) (hkey : key {} = "")
    (hrule : ∀ k k' : TurnKeys, key k = key k' → key k' ≠ "" →
      k.prompt = k'.prompt ∧ k'.prompt ≠ "" ∨ k.content = k'.content ∧ k'.content ≠ "")
    (h : Matched record projected sid pairs) :
    Matched record projected sid (pairOnKey (record.map (recordTurnKeys sid))
      (projected.map projectedTurnKeys) key pairs) := by
  apply List.foldlRecOn _ _ h
  intro pairs h k hk
  have hget := List.mem_zipIdx_iff_getElem?.1 hk
  rw [List.getElem?_map] at hget
  obtain ⟨rec, hrec, hk'⟩ := Option.map_eq_some_iff.1 hget
  have hpair : k = (recordTurnKeys sid rec, k.2) := by rw [hk']
  rw [hpair]
  exact matched_pairOne hkey hrule h hrec

theorem matched_pairTurns : Matched record projected sid (pairTurns record projected sid) := by
  have hstart : Matched record projected sid [] :=
    ⟨List.nodup_nil, List.nodup_nil, fun p hp => absurd hp List.not_mem_nil⟩
  have hprompt := matched_pairOnKey TurnKeys.prompt rfl
    (fun _ _ heq hne => .inl ⟨heq, hne⟩) hstart
  exact matched_pairOnKey TurnKeys.content rfl (fun _ _ heq hne => .inr ⟨heq, hne⟩) hprompt

theorem partner_eq {i : ℕ} {proj : ProjectedTurn} (h : partner record projected sid i = some proj) :
    ∃ j, (i, j) ∈ pairTurns record projected sid ∧ projected[j]? = some proj := by
  obtain ⟨j, hj, hget⟩ := Option.bind_eq_some_iff.1 h
  exact ⟨j, mem_of_recPartner hj, hget⟩

/-- A reverted turn has no partner. -/
theorem partner_reverted {i : ℕ} {rec : RecordTurn} (hrec : record[i]? = some rec)
    (h : rec.reverted = true) : partner record projected sid i = none := by
  cases hp : partner record projected sid i with
  | none => rfl
  | some proj =>
    obtain ⟨j, hmem, -⟩ := partner_eq hp
    obtain ⟨rec', -, hrec', -, hseen, -⟩ := matched_pairTurns.keyed _ hmem
    rw [hrec] at hrec'
    cases hrec'
    rw [h] at hseen
    contradiction

theorem mem_partners (h : Matched record projected sid pairs) {j : ℕ} :
    j ∈ (List.range record.length).filterMap (recPartner pairs) ↔ j ∈ pairs.map Prod.snd := by
  rw [List.mem_filterMap, List.mem_map]
  constructor
  · rintro ⟨i, -, hi⟩
    exact ⟨(i, j), mem_of_recPartner hi, rfl⟩
  · rintro ⟨p, hp, rfl⟩
    obtain ⟨rec, -, hrec, -⟩ := h.keyed p hp
    refine ⟨p.1, List.mem_range.2 ?_, recPartner_of_mem h.left hp⟩
    exact (List.getElem?_eq_some_iff.1 hrec).1

/-- Every projected place is a partner's or has none. -/
theorem partnerIndices_perm (h : Matched record projected sid pairs) :
    ((List.range record.length).filterMap (recPartner pairs) ++
      (List.range projected.length).filter fun j => (projPartner pairs j).isNone).Perm
      (List.range projected.length) := by
  have hpartners : ((List.range record.length).filterMap (recPartner pairs)).Nodup := by
    apply List.nodup_range.filterMap
    intro i i' j hi hi'
    have heq := List.inj_on_of_nodup_map h.right (mem_of_recPartner hi) (mem_of_recPartner hi') rfl
    exact congrArg Prod.fst heq
  have hfree : ∀ {j}, (projPartner pairs j).isNone = true ↔ j ∉ pairs.map Prod.snd := by
    intro j
    rw [Option.isNone_iff_eq_none, projPartner_none]
  rw [List.perm_ext_iff_of_nodup _ List.nodup_range]
  · intro j
    rw [List.mem_append, mem_partners h, List.mem_filter, hfree]
    constructor
    · rintro (hj | hj)
      · obtain ⟨p, hp, rfl⟩ := List.mem_map.1 hj
        obtain ⟨-, proj, -, hproj, -⟩ := h.keyed p hp
        exact List.mem_range.2 (List.getElem?_eq_some_iff.1 hproj).1
      · exact hj.1
    · intro hj
      by_cases hmem : j ∈ pairs.map Prod.snd
      · exact .inl hmem
      · exact .inr ⟨hj, hmem⟩
  · rw [List.nodup_append]
    refine ⟨hpartners, List.nodup_range.filter _, fun j hj k hk heq => ?_⟩
    rw [← heq] at hk
    exact hfree.1 (List.mem_filter.1 hk).2 ((mem_partners h).1 hj)

/-! ## The merged log -/

variable (record projected sid)

/-- The projected turns that are inserted, with the places they hang off. -/
def placedTurns : List (ProjectedTurn × ℕ) :=
  (none :: record.zipIdx.map fun p => some p.2).flatMap
    (Weave.bucket (hungTurns record projected sid))

theorem woven_wovenTurns :
    Woven (record.zipIdx.map fun p => emittedTurn record projected sid p.1 p.2)
      ((placedTurns record projected sid).map fun q => insertedTurn q.1)
      (wovenTurns record projected sid) := by
  rw [placedTurns, List.flatMap_cons, List.map_append]
  exact (Woven.rights _).append (Weave.woven_weave ..)

/-- The projected turns that no record turn is paired with are inserted, each once. -/
theorem placedTurns_perm : ((placedTurns record projected sid).map Prod.fst).Perm
    ((projected.zipIdx.filter fun p =>
      (projPartner (pairTurns record projected sid) p.2).isNone).map Prod.fst) := by
  have hplaces : (none :: record.zipIdx.map fun p => some p.2).Nodup := by
    have hrange : record.zipIdx.map (fun p => some p.2) =
        (List.range record.length).map some := by
      rw [List.range_eq_range', ← List.zipIdx_map_snd 0 record, List.map_map]
      rfl
    rw [hrange, List.nodup_cons]
    exact ⟨by simp, List.nodup_range.map (Option.some_injective _)⟩
  have hhung : ∀ p ∈ hungTurns record projected sid,
      p.1 ∈ (none :: record.zipIdx.map fun p => some p.2 : List (Option ℕ)) := by
    intro p hp
    rcases Weave.hang_fst hp with hanchor | ⟨q, -, hplace⟩
    · rw [hanchor]
      exact List.mem_cons_self
    · obtain ⟨i, hi, hsome⟩ := Option.map_eq_some_iff.1 hplace
      obtain ⟨rec, -, hrec, -⟩ := matched_pairTurns.keyed _ (mem_of_projPartner hi)
      rw [← hsome]
      apply List.mem_cons_of_mem
      exact List.mem_map.2 ⟨(rec, i), List.mem_zipIdx_iff_getElem?.2 hrec, rfl⟩
  have hperm := Weave.buckets_perm hplaces hhung
  rw [hungTurns, Weave.hang_snd] at hperm
  have hfilter : (projected.zipIdx.filter fun p =>
      ((projPartner (pairTurns record projected sid) p.2).map some).isNone) =
      projected.zipIdx.filter fun p =>
        (projPartner (pairTurns record projected sid) p.2).isNone := by
    apply List.filter_congr
    intro p _
    rw [Option.isNone_map]
  rw [hfilter] at hperm
  exact hperm.map Prod.fst

/-- The partners of the record's turns, with the turns inserted, are the projected turns. -/
theorem partners_perm :
    ((List.range record.length).filterMap (partner record projected sid) ++
      (placedTurns record projected sid).map Prod.fst).Perm projected := by
  have hmatched : Matched record projected sid (pairTurns record projected sid) :=
    matched_pairTurns
  generalize hpairs : pairTurns record projected sid = pairs at hmatched
  have hplaced := placedTurns_perm record projected sid
  rw [hpairs, zipIdx_filter_fst fun j => (projPartner pairs j).isNone] at hplaced
  have hpartners : (List.range record.length).filterMap (partner record projected sid) =
      ((List.range record.length).filterMap (recPartner pairs)).filterMap (projected[·]?) := by
    rw [List.filterMap_filterMap]
    apply List.filterMap_congr
    intro i _
    rw [partner, hpairs]
  have hall : (List.range projected.length).filterMap (projected[·]?) = projected := by
    have hkeep := zipIdx_filter_fst (fun _ => true) projected
    rw [List.filter_true, List.filter_true, List.zipIdx_map_fst] at hkeep
    exact hkeep.symm
  have hindices : ((List.range record.length).filterMap (recPartner pairs) ++
      (List.range projected.length).filter fun j => (projPartner pairs j).isNone).Perm
      (List.range projected.length) := partnerIndices_perm hmatched
  have hmap := hindices.filterMap (projected[·]?)
  rw [List.filterMap_append, hall, ← hpartners] at hmap
  exact (hplaced.append_left _).trans hmap

end Pairs

/-! ## What a merge keeps of the record and of the replay -/

/-- A projected turn inserted whole, and closed if its replay did not close it. -/
structure InsertsTurn (proj : ProjectedTurn) (m : MergedTurn) : Prop where
  reverted : m.reverted = false
  entries : ∃ added closers, m.entries = added ++ closers ∧ List.Forall₂ Renumbers
    (proj.entries.map (insertedEntry (turnOf proj.entries))) added ∧ closers.length ≤ 1 ∧
    (closers ≠ [] → ∀ e ∈ proj.entries, e.kind ≠ .turnClose)
  closed : ∃ e ∈ m.entries, e.kind = .turnClose

theorem insertsTurn_renumber (proj : ProjectedTurn) (n : ℕ) :
    InsertsTurn proj (renumberTurn n (insertedTurn proj)) := by
  have hrenumbers := renumbers_renumberTurn n (insertedTurn proj)
  refine ⟨rfl, ?_, ?_⟩
  · obtain ⟨added, closers, heq, hadded, hclosers⟩ := forall₂_append_split hrenumbers
    refine ⟨added, closers, heq, hadded, ?_, fun hclosing e he => ?_⟩
    · rw [← hclosers.length_eq]
      exact closing_length _ _
    · rw [← kind_insertedEntry (turnOf proj.entries)]
      apply closing_ne_nil (turnOf proj.entries) _ _ _ (List.mem_map_of_mem he)
      intro hnil
      rw [hnil] at hclosers
      cases hclosers
      exact hclosing rfl
  · obtain ⟨e, he, hkind⟩ := exists_close (turnOf proj.entries)
      (proj.entries.map (insertedEntry (turnOf proj.entries)))
    obtain ⟨_, he', reverted, m, seq, rfl⟩ := mem_of_forall₂ hrenumbers he
    exact ⟨_, he', by rw [kind_renumberEntry, hkind]⟩

theorem recordTurnsOf_ne_nil {entries : List Entry} {reverted : List String} {rec : RecordTurn}
    (h : rec ∈ recordTurnsOf entries reverted) : rec.entries ≠ [] := by
  obtain ⟨turn, hturn, rfl⟩ := List.mem_map.1 h
  exact EntryLog.turnGroup_ne_nil (List.mem_filter.1 hturn).1

end Marotte.Merge
