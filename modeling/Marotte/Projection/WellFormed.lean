import Mathlib.Data.List.Dedup
import Marotte.Projection.Settled

/-! # Well-formed turns

Whatever the frames of a replay are, each turn it projects has its brackets, its says and its
results, and a second `Turns` answers the same.
-/
namespace Marotte.Projection

/-! ## What the frames name -/

/-- The ids that a frame names. -/
def Frame.Names (env : Env) : Frame → String → Prop
  | .userText c, id => id = c.messageID
  | .agentText _ c, id => c.messageID ≠ "" ∧ id = c.messageID
  | .toolCall c, id => id = c.toolCallID ∨ id = toolResultID c.toolCallID
  | .summary (some content), id => ∃ k, id = compactionEntryID env content k
  | _, _ => False

def Named (env : Env) (frames : List Frame) (id : String) : Prop :=
  ∃ frame ∈ frames, frame.Names env id

/-! ## Turns -/

/-- No two frames named one id, but for the deltas of one say. -/
def ProjectedTurn.DistinctNames (t : ProjectedTurn) : Prop :=
  (namesOf t.landed ++ (saysOf t.landed).dedup).Nodup

instance : DecidablePred ProjectedTurn.DistinctNames :=
  fun t => inferInstanceAs (Decidable (namesOf t.landed ++ (saysOf t.landed).dedup).Nodup)

/-- What holds of a settled turn. -/
structure ProjectedTurn.WellFormed (t : ProjectedTurn) : Prop where
  opens : ∃ o rest, t.entries = o :: rest ∧ o.kind = .turnOpen ∧ ∀ e ∈ rest, e.kind ≠ .turnOpen
  closes : (t.entries.filter (·.kind = .turnClose)).length ≤ 1
  single : ∀ id, (t.entries.filter fun e => isSay e.kind ∧ e.id = id).length ≤ 1
  /-- A say of one lane has its deltas but for the markers that are struck out. -/
  text : ∀ e ∈ t.entries, ∀ s, sayText? e = some s → OneLane e.id t.landed →
    Struck (deltasOf e.id t.landed) s.toList
  thinking : ∀ e ∈ t.entries, ∀ s, sayText? e = some s → Thought e.id t.landed →
    s.toList = deltasOf e.id t.landed
  results : ∀ e, (t.entries.filter fun r => r.kind = .toolCall ∧ r.id = e.id) = [e] →
    ∃ r, (t.entries.filter fun r => r.kind = .toolResult ∧ r.id = toolResultID e.id) = [r] ∧
      r.lane = e.lane

theorem length_filter_le_one {α : Type*} {P : α → Bool} {i : ℕ} {l : List α}
    (h : ∀ (j : ℕ) a, l[j]? = some a → P a = true → j = i) : (l.filter P).length ≤ 1 := by
  induction l generalizing i with
  | nil => exact Nat.zero_le _
  | cons a l ih =>
    by_cases ha : P a = true
    · have hi := h 0 a rfl ha
      have hnone : l.filter P = [] := by
        rw [List.filter_eq_nil_iff]
        intro b hb hpb
        obtain ⟨j, hj⟩ := List.getElem?_of_mem hb
        have hj' := h (j + 1) b hj hpb
        omega
      rw [List.filter_cons_of_pos ha, hnone, List.length_singleton]
    · rw [List.filter_cons_of_neg ha]
      apply ih (i := i - 1)
      intro j b hj hpb
      have hj' := h (j + 1) b hj hpb
      omega

/-- What a filter of rows finds is what the same filter of entries finds. -/
theorem filter_rows {P : Row → Bool} (entries : List Entry) :
    (entries.map row).filter P = (entries.filter (P ∘ row)).map row :=
  List.filter_map

namespace NewestTurn

variable {env : Env} {named : String → Prop} {p q : NewestTurn}

def projected (p : NewestTurn) : ProjectedTurn := { entries := p.cur, landed := p.landed }

/-- One entry of a kind of says has a given id. -/
theorem length_says (h : p.Indexed) (id : String) :
    (p.cur.filter fun e => isSay e.kind ∧ e.id = id).length ≤ 1 := by
  apply length_filter_le_one (i := (p.sayAt id).getD 0)
  intro j e hj he
  simp only [Bool.decide_and, Bool.decide_eq_true, Bool.and_eq_true, decide_eq_true_eq] at he
  obtain ⟨hsay, rfl⟩ := he
  rw [h.listed j e hj hsay]
  rfl

namespace Sound

theorem wellFormed (h : p.Sound env named) (hs : p.Settled) : p.projected.WellFormed where
  opens := by
    obtain ⟨o, rest, hrows, ho, _, hrest⟩ := h.bracketed.opens
    cases hcur : p.cur with
    | nil => exact absurd hcur h.cur_ne_nil
    | cons e entries =>
      rw [rows, hcur] at hrows
      obtain ⟨rfl, rfl⟩ := List.cons.inj hrows
      exact ⟨e, entries, hcur, ho, fun e' he' => hrest _ (List.mem_map_of_mem he')⟩
  closes := by
    have hcloses := h.bracketed.closes
    rw [rows, filter_rows, List.length_map] at hcloses
    change (p.cur.filter _).length ≤ 1
    rw [show (p.cur.filter (·.kind = .turnClose)).length = if p.closed then 1 else 0 from hcloses]
    split <;> omega
  single := length_says h.indexed
  text := by
    intro e he s hs' hone
    obtain ⟨w, hw, halt⟩ := h.heard e.id hone
    obtain ⟨i, hi⟩ := List.getElem?_of_mem he
    have hsay : isSay e.kind = true := by rw [← sayText?_isSome, hs']; rfl
    obtain ⟨e', he', _, htext⟩ := h.indexed.points _ _ (h.indexed.listed i e hi hsay)
    obtain rfl := Option.some_inj.mp (hi.symm.trans he')
    obtain rfl := Option.some_inj.mp (hs'.symm.trans htext)
    rcases halt with ⟨c, hc, _⟩ | ⟨_, hd⟩
    · rw [hs.1] at hc
      cases hc
    · change Struck (deltasOf e.id p.landed) _
      rw [hd, String.toList_ofList]
      exact hw
  thinking := by
    intro e he s hs' hthought
    obtain ⟨i, hi⟩ := List.getElem?_of_mem he
    have hsay : isSay e.kind = true := by rw [← sayText?_isSome, hs']; rfl
    obtain ⟨e', he', _, htext⟩ := h.indexed.points _ _ (h.indexed.listed i e hi hsay)
    obtain rfl := Option.some_inj.mp (hi.symm.trans he')
    obtain rfl := Option.some_inj.mp (hs'.symm.trans htext)
    rw [String.toList_ofList]
    exact h.unfiltered e.id hthought
  results := by
    intro e he
    have hcall : p.callsOf e.id = [row e] := by
      rw [callsOf, rows, filter_rows]
      exact congrArg (List.map row) he
    rcases h.tracked.once e.id (row e) hcall with ⟨hcalls, _⟩ | ⟨_, r, hr, hlane⟩
    · rw [hs.2] at hcalls
      cases hcalls
    · rw [resultsOf, rows, filter_rows, List.map_eq_singleton_iff] at hr
      obtain ⟨r', hr', rfl⟩ := hr
      exact ⟨r', hr', hlane⟩

/-- Ids are unique where the frames named none twice. -/
theorem nodup_ids (h : p.Sound env named) (hf : Fresh env named)
    (hd : p.projected.DistinctNames) : (p.cur.map Entry.id).Nodup := by
  have hi := h.identified hf
  have hids : p.cur.map Entry.id = p.rows.map Row.id := by
    rw [rows, List.map_map]
    rfl
  rw [hids, List.nodup_iff_count_le_one]
  intro id
  rw [count_ids]
  have hplaced := hi.placed id
  have hbracket := hi.brackets id
  have hnames := List.nodup_iff_count_le_one.mp hd id
  rw [List.count_append] at hnames
  change (namesOf p.landed).count id + (saysOf p.landed).dedup.count id ≤ 1 at hnames
  have hsaid : p.tally isSay id ≤ 1 := by
    have hcount : p.tally isSay id = (p.cur.filter fun e => isSay e.kind ∧ e.id = id).length := by
      rw [tally, rows, List.countP_map, List.countP_eq_length_filter]
      congr 1
      apply List.filter_congr
      intro e _
      simp only [Bool.decide_and, Bool.decide_eq_true]
      rfl
    exact hcount ▸ length_says h.indexed id
  rcases Nat.eq_zero_or_pos (p.tally isBracket id) with hb | hb
  · rcases Nat.eq_zero_or_pos (p.tally isSay id) with hs | hs
    · omega
    · have hmem : 0 < (saysOf p.landed).dedup.count id :=
        List.count_pos_iff.mpr (List.mem_dedup.mpr (hi.said id hs))
      omega
  · obtain ⟨⟨k, _, hk⟩, hnot⟩ := hi.bracket id hb
    have hs : p.tally isSay id = 0 := by
      by_contra hne
      exact hnot (hi.said id (Nat.pos_of_ne_zero hne))
    have hn : (namesOf p.landed).count id = 0 := by
      rw [List.count_eq_zero]
      intro hmem
      exact hf.named id (hi.names id hmem) k hk.symm
    omega

end Sound
end NewestTurn

/-! ## Runs -/

namespace EntryProjection

open NewestTurn (Fresh)

variable {env : Env} {named : String → Prop} {p : EntryProjection}

/-- What holds after every frame: a newest turn with entries is sound, and without one nothing
points into it. -/
structure Valid (env : Env) (named : String → Prop) (p : EntryProjection) : Prop where
  newest : p.cur ≠ [] → p.toNewestTurn.Sound env named
  idle : p.cur = [] → p.compactAt = none ∧ (∀ id, p.calls id = none) ∧ ∀ say, p.sayAt say = none
  user : ∀ row, p.user = some row → named row.id
  turns : ∀ t ∈ p.turns, t.WellFormed ∧
    (Fresh env named → t.DistinctNames → (t.entries.map Entry.id).Nodup)

namespace Valid

theorem onTurn (h : p.Valid env named) {q : NewestTurn} (hcur : p.cur ≠ [])
    (hsteps : Relation.ReflTransGen (NewestTurn.Step env named) p.toNewestTurn q) :
    ({ p with toNewestTurn := q }).Valid env named where
  newest := fun _ => (h.newest hcur).steps hsteps
  idle := fun hnil => absurd hnil ((h.newest hcur).steps hsteps).cur_ne_nil
  user := h.user
  turns := h.turns

/-- A turn's facts change, an idle projection's too. -/
theorem withFacts (h : p.Valid env named) (facts : ProjectedFacts) :
    ({ p with facts }).Valid env named where
  newest := by
    intro hcur
    have hsound := h.newest hcur
    exact hsound.step (.aside _ p.lane facts p.compactAt hsound.bracketed.compact)
  idle := h.idle
  user := h.user
  turns := h.turns

theorem closeTurn (h : p.Valid env named) :
    (p.onTurn (·.closeTurn env)).Valid env named := by
  by_cases hcur : p.cur = []
  · have hsame : p.toNewestTurn.closeTurn env = p.toNewestTurn := if_pos hcur
    simp only [EntryProjection.onTurn, hsame]
    exact h
  · exact h.onTurn hcur (h.newest hcur).steps_closeTurn

/-- The closed turn joins the settled ones. -/
theorem turns_close (h : p.Valid env named) :
    ∀ t ∈ ((p.onTurn (·.closeTurn env)).sealCur).turns, t.WellFormed ∧
      (Fresh env named → t.DistinctNames → (t.entries.map Entry.id).Nodup) := by
  have hclosed := h.closeTurn
  by_cases hcur : p.cur = []
  · have hsame : (p.onTurn (·.closeTurn env)).cur = [] := by
      rw [EntryProjection.onTurn, NewestTurn.closeTurn, if_pos hcur]
      exact hcur
    rw [sealCur, if_pos hsame]
    exact hclosed.turns
  · have hsound := (h.newest hcur).steps (h.newest hcur).steps_closeTurn
    have hne : (p.onTurn (·.closeTurn env)).cur ≠ [] := hsound.cur_ne_nil
    rw [sealCur, if_neg hne]
    intro t ht
    rcases List.mem_append.mp ht with ht | ht
    · exact hclosed.turns t ht
    · rw [List.mem_singleton.mp ht]
      exact ⟨hsound.wellFormed (NewestTurn.settled_closeTurn hcur), hsound.nodup_ids⟩

/-- A turn just started, over a projection whose other fields are valid. -/
theorem startTurn (source : TurnOpenSourceName) (prompt : Option EntryPrompt) (ts : ℤ)
    (huser : ∀ row, p.user = some row → named row.id)
    (hturns : ∀ t ∈ p.turns, t.WellFormed ∧
      (Fresh env named → t.DistinctNames → (t.entries.map Entry.id).Nodup)) :
    (p.onTurn (·.startTurn env source prompt ts)).Valid env named where
  newest := fun _ => NewestTurn.sound_startTurn source prompt ts
  idle := fun hnil => absurd hnil (@NewestTurn.sound_startTurn env named p.toNewestTurn
    source prompt ts).cur_ne_nil
  user := huser
  turns := hturns

theorem user_sealCur (h : p.Valid env named) :
    ∀ row, p.sealCur.user = some row → named row.id := by
  unfold sealCur
  split <;> exact h.user

theorem openTurn (h : p.Valid env named) : (p.openTurn env).Valid env named :=
  startTurn (p := { (p.onTurn (·.closeTurn env)).sealCur with prompt := none, promptTs := 0 }) _ _ _
    h.closeTurn.user_sealCur h.turns_close

theorem cur_openTurn (p : EntryProjection) : (p.openTurn env).cur ≠ [] := by
  unfold EntryProjection.openTurn
  exact (@NewestTurn.sound_startTurn env (fun _ => False) _ _ _ _).cur_ne_nil

theorem ensureTurn (h : p.Valid env named) (source : TurnOpenSourceName) :
    (p.ensureTurn env source).Valid env named ∧ (p.ensureTurn env source).cur ≠ [] := by
  unfold EntryProjection.ensureTurn
  split
  · exact ⟨h.openTurn, cur_openTurn p⟩
  · split
    · next hcur => exact ⟨h, hcur⟩
    · exact ⟨startTurn source none 0 h.user h.turns,
        (@NewestTurn.sound_startTurn env named _ _ _ _).cur_ne_nil⟩

/-- The newest turn after `ensureTurn` takes whatever its steps allow. -/
theorem ensured (h : p.Valid env named) (source : TurnOpenSourceName) {f : NewestTurn → NewestTurn}
    (hsteps : ∀ q : NewestTurn, q.Sound env named →
      Relation.ReflTransGen (NewestTurn.Step env named) q (f q)) :
    ((p.ensureTurn env source).onTurn f).Valid env named := by
  obtain ⟨hvalid, hcur⟩ := h.ensureTurn source
  exact hvalid.onTurn hcur (hsteps _ (hvalid.newest hcur))

theorem flushUser (h : p.Valid env named) : (p.flushUser env).Valid env named := by
  unfold EntryProjection.flushUser
  split
  · exact h
  · next row hrow =>
    have hnone : ({ p with user := none }).Valid env named :=
      ⟨h.newest, h.idle, nofun, h.turns⟩
    dsimp only
    split
    · exact hnone
    · split
      · apply hnone.ensured
        intro q _
        exact q.steps_sealLanes.tail (.steer _ row.id row.ts _ (h.user row hrow))
      · exact ⟨h.newest, h.idle, nofun, h.turns⟩

theorem userText (h : p.Valid env named) (c : ChunkFrame) (hn : named c.messageID) :
    (p.ingestUserText env c).Valid env named := by
  have hrow : ∀ q : EntryProjection, q.Valid env named →
      ({ q with user := some { (q.user.getD {
        id := c.messageID
        ts := c.timestamp
        steer := c.source = replaySteerSource
        severity := c.notificationStatus }) with
          text := (q.user.getD {
            id := c.messageID
            ts := c.timestamp
            steer := c.source = replaySteerSource
            severity := c.notificationStatus }).text ++ c.text } }).Valid env named := by
    intro q hq
    refine ⟨hq.newest, hq.idle, ?_, hq.turns⟩
    intro row hr
    obtain rfl := Option.some_inj.mp hr
    cases hu : q.user with
    | none => exact hn
    | some row => exact hq.user row hu
  unfold ingestUserText
  split
  · exact h
  · dsimp only
    split
    · split
      · exact hrow _ h.flushUser
      · exact hrow _ h
    · exact hrow _ h

theorem agentText (h : p.Valid env named) (kind : SayKind) (c : ChunkFrame)
    (hn : c.messageID ≠ "" → named c.messageID) :
    (p.ingestAgentText env kind c).Valid env named := by
  unfold ingestAgentText
  split
  · exact h
  · apply h.flushUser.ensured
    intro q hq
    have haside : NewestTurn.Step env named q { q with lane := c.agentSubtaskID } :=
      .aside q c.agentSubtaskID q.facts q.compactAt hq.bracketed.compact
    exact .head haside ((hq.step haside).steps_hear kind c.agentSubtaskID c.messageID c.timestamp
      c.text.toList hn)

theorem toolCall (h : p.Valid env named) (c : CallFrame) (hn : named c.toolCallID)
    (hr : named (toolResultID c.toolCallID)) : (p.ingestToolCall env c).Valid env named := by
  unfold ingestToolCall
  split
  · exact h
  · apply h.flushUser.ensured
    intro q _
    exact .head (.sealed q _) (.single (.call _ c.toolCallID _ _ _ hn hr))

theorem toolUpdate (h : p.Valid env named) (u : UpdateFrame) :
    (p.ingestToolUpdate u).Valid env named := by
  unfold ingestToolUpdate
  split
  · exact h
  · split
    · exact h
    · next lane hlane =>
      have hcur : p.cur ≠ [] := by
        intro hnil
        rw [(h.idle hnil).2.1] at hlane
        cases hlane
      apply h.onTurn hcur
      apply Relation.ReflTransGen.head (.sealed p.toNewestTurn lane)
      apply Relation.ReflTransGen.single
      apply NewestTurn.Step.result
      rw [(p.toNewestTurn.calls_sealLane lane).1]
      exact hlane

theorem separator (h : p.Valid env named) :
    (((p.flushUser env).ensureTurn env .event).onTurn fun p =>
      { p.sealLanes with compactAt := some p.sealLanes.cur.length }).Valid env named := by
  apply h.flushUser.ensured
  intro q hq
  have hsealed := hq.steps q.steps_sealLanes
  apply q.steps_sealLanes.tail
  apply NewestTurn.Step.aside
  rintro _ ⟨⟩
  exact List.length_pos_of_ne_nil hsealed.cur_ne_nil

theorem summary (h : p.Valid env named) (content : Option String)
    (hn : ∀ summary k, content = some summary → named (compactionEntryID env summary k)) :
    (p.applySummary env content).Valid env named := by
  unfold applySummary
  split
  · next summary compactAt hc =>
    have hcur : p.cur ≠ [] := by
      intro hnil
      rw [(h.idle hnil).1] at hc
      cases hc
    have hsound := h.newest hcur
    have hcounted : ({ p with emptySummaries := if summary = "" then p.emptySummaries + 1
        else p.emptySummaries }).Valid env named := ⟨h.newest, h.idle, h.user, h.turns⟩
    apply hcounted.onTurn hcur
    apply Relation.ReflTransGen.head (.aside p.toNewestTurn p.lane p.facts none nofun)
    apply Relation.ReflTransGen.single
    apply NewestTurn.Step.compaction
    · exact hn summary _ rfl
    · have hpos := hsound.bracketed.compact compactAt hc
      have hlen := List.length_pos_of_ne_nil hcur
      change 0 < min compactAt p.cur.length
      omega
    · exact Nat.min_le_right _ _
  · exact h

/-- One frame keeps the projection valid, whatever it is. -/
theorem ingest (h : p.Valid env named) (frame : Frame)
    (hn : ∀ id, frame.Names env id → named id) : (p.ingest env frame).Valid env named := by
  cases frame with
  | userText c => exact h.userText c (hn _ rfl)
  | agentText kind c => exact h.agentText kind c fun hne => hn _ ⟨hne, rfl⟩
  | toolCall c => exact h.toolCall c (hn _ (.inl rfl)) (hn _ (.inr rfl))
  | toolUpdate u => exact h.toolUpdate u
  | turnStart => exact h.closeTurn.flushUser.openTurn
  | turnCompletion summaries elapsedMs => exact h.withFacts _
  | turnEnd e => exact (h.withFacts _).closeTurn
  | separator => exact h.separator
  | summary content =>
    apply h.summary
    rintro summary k rfl
    exact hn _ ⟨k, rfl⟩
  | ignored => exact h

end Valid

theorem valid_start (env : Env) (named : String → Prop) : ({} : EntryProjection).Valid env named where
  newest := fun hcur => absurd rfl hcur
  idle := fun _ => ⟨rfl, fun _ => rfl, fun _ => rfl⟩
  user := nofun
  turns := nofun

theorem valid_replay (env : Env) (frames : List Frame) :
    (replay env frames).Valid env (Named env frames) := by
  have hfold : ∀ (rest : List Frame) (p : EntryProjection), p.Valid env (Named env frames) →
      (∀ frame ∈ rest, frame ∈ frames) →
        (rest.foldl (·.ingest env) p).Valid env (Named env frames) := by
    intro rest
    induction rest with
    | nil => exact fun p h _ => h
    | cons frame rest ih =>
      intro p h hmem
      apply ih
      · exact h.ingest frame fun id hid => ⟨frame, hmem frame List.mem_cons_self, hid⟩
      · exact fun frame' h' => hmem frame' (List.mem_cons_of_mem _ h')
  exact hfold frames {} (valid_start env _) fun _ h => h

theorem Valid.finish (h : p.Valid env named) : ∀ t ∈ (p.finish env).turns, t.WellFormed ∧
    (Fresh env named → t.DistinctNames → (t.entries.map Entry.id).Nodup) := by
  unfold EntryProjection.finish
  dsimp only
  split
  · exact h.flushUser.openTurn.turns_close
  · exact h.flushUser.turns_close

theorem sealCur_pending (p : EntryProjection) :
    p.sealCur.user = p.user ∧ p.sealCur.prompt = p.prompt ∧ p.sealCur.cur = [] := by
  unfold sealCur
  split
  · next hcur => exact ⟨rfl, rfl, hcur⟩
  · exact ⟨rfl, rfl, rfl⟩

theorem openTurn_pending (p : EntryProjection) :
    (p.openTurn env).user = p.user ∧ (p.openTurn env).prompt = none :=
  ⟨(sealCur_pending (p.onTurn (·.closeTurn env))).1, rfl⟩

theorem user_ensureTurn (p : EntryProjection) (source : TurnOpenSourceName) :
    (p.ensureTurn env source).user = p.user := by
  unfold ensureTurn
  split
  · exact p.openTurn_pending.1
  · split <;> rfl

theorem user_flushUser (p : EntryProjection) : (p.flushUser env).user = none := by
  unfold flushUser
  split
  · next huser => exact huser
  · dsimp only
    split
    · rfl
    · split
      · exact user_ensureTurn _ _
      · rfl

/-- After `Turns` nothing is pending. -/
theorem finish_pending (p : EntryProjection) :
    (p.finish env).user = none ∧ (p.finish env).prompt = none ∧ (p.finish env).cur = [] := by
  have huser := @user_flushUser env p
  unfold finish
  dsimp only
  split
  · obtain ⟨hu, hp, hc⟩ :=
      sealCur_pending (((p.flushUser env).openTurn env).onTurn (·.closeTurn env))
    obtain ⟨hu', hp'⟩ := @openTurn_pending env (p.flushUser env)
    exact ⟨hu.trans (hu'.trans huser), hp.trans hp', hc⟩
  · next hprompt =>
    obtain ⟨hu, hp, hc⟩ := sealCur_pending ((p.flushUser env).onTurn (·.closeTurn env))
    have hnone : (p.flushUser env).prompt = none := by simpa using hprompt
    exact ⟨hu.trans huser, hp.trans hnone, hc⟩

theorem finish_finish (p : EntryProjection) : (p.finish env).finish env = p.finish env := by
  obtain ⟨huser, hprompt, hcur⟩ := @finish_pending env p
  generalize p.finish env = q at *
  have hflush : q.flushUser env = q := by
    rw [flushUser, huser]
  have hclose : q.onTurn (·.closeTurn env) = q := by
    rw [onTurn, NewestTurn.closeTurn, if_pos hcur]
  unfold finish
  simp only [hflush, hprompt, Option.isSome_none, Bool.false_eq_true, if_false, hclose]
  rw [sealCur, if_pos hcur]

def sampleEnv : Env where
  newID k := String.ofList (List.replicate (k + 1) 'n')
  addUsage credits _ := credits
  summaryDigest summary := summary

def sampleFrames : List Frame :=
  [.agentText .text { text := "ok", messageID := "s" }, .toolCall { toolCallID := "c" }]

theorem fresh_sample : Fresh sampleEnv (Named sampleEnv sampleFrames) where
  mints := by
    intro k k' h
    have hlen := congrArg String.length h
    simpa [sampleEnv] using hlen
  named := by
    rintro id ⟨frame, hframe, hid⟩ k he
    have hchars : ∀ c ∈ id.toList, c = 'n' := by
      intro c hc
      rw [← he] at hc
      simpa [sampleEnv] using hc
    simp only [sampleFrames, List.mem_cons, List.not_mem_nil, or_false] at hframe
    rcases hframe with rfl | rfl
    · rw [hid.2] at hchars
      exact absurd (hchars 's' (by decide)) (by decide)
    · rcases hid with hid | hid
      · rw [hid] at hchars
        exact absurd (hchars 'c' (by decide)) (by decide)
      · rw [hid] at hchars
        exact absurd (hchars 'c' (by decide +kernel)) (by decide)

end EntryProjection
end Marotte.Projection
