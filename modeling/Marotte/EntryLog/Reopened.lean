import Marotte.EntryLog.Recovery
import Marotte.EntryLog.Views

/-! # Logs that open again as they were

An open closes every survivor left open. A revert leaves none, its carrier closed or hidden; what
a rewrite brings and what is minted between turns may stay open, and then the next open writes.
-/
namespace Marotte

open History

theorem Index.mem_openTurns_iff {idx : Index} {turn : String} :
    turn ∈ idx.openTurns ↔ turn ∈ idx.order ∧
      ∃ st, idx.turns turn = some st ∧ st.reverted = false ∧ st.closed = false := by
  rw [openTurns, survivingOrder, List.mem_filter, List.mem_filter]
  cases idx.turns turn <;> simp [and_assoc]

theorem Index.openTurns_marked (b : Index) (p : String → Bool) :
    (b.marked p).openTurns ⊆ b.openTurns := by
  intro turn hturn
  rw [mem_openTurns_iff, marked_turns] at hturn
  obtain ⟨hmem, st, hst, hrev, hclosed⟩ := hturn
  obtain ⟨st₀, hst₀, rfl⟩ := Option.map_eq_some_iff.mp hst
  have hkeeps : st₀.reverted = false := (Bool.or_eq_false_iff.mp hrev).1
  exact mem_openTurns_iff.mpr ⟨hmem, st₀, hst₀, hkeeps, hclosed⟩

/-- A line opens its own turn, and no other; any line but a turn_open opens none. -/
theorem Index.openTurns_observeLine {b b' : Index} {e : Entry} {len : ℕ}
    (h : b.observeLine e len = some b') {turn : String} (hturn : turn ∈ b'.openTurns) :
    turn ∈ b.openTurns ∨ turn = e.turn ∧ e.kind = .turnOpen := by
  obtain ⟨i, hi, rfl⟩ := observeLine_iff_observe.mp h
  have hturns := observe_turns hi turn
  have horder := observe_order hi
  rw [mem_openTurns_iff] at hturn ⊢
  obtain ⟨hmem, st, hst, hrev, hclosed⟩ := hturn
  change i.turns turn = some st at hst
  change turn ∈ i.order at hmem
  by_cases ho : e.kind = .turnOpen
  · by_cases hself : turn = e.turn
    · exact .inr ⟨hself, ho⟩
    · rw [if_neg hself] at hturns
      rw [horder, if_pos ho, List.mem_append, List.mem_singleton] at hmem
      exact .inl ⟨hmem.resolve_right hself, st, hturns ▸ hst, hrev, hclosed⟩
  · rw [horder, if_neg ho] at hmem
    have hrow := observe_turns_of_ne_turnOpen ho hi turn
    apply Or.inl
    refine ⟨hmem, ?_⟩
    by_cases hself : turn = e.turn
    · rw [if_pos hself] at hrow
      obtain ⟨st₀, hst₀, rfl⟩ := Option.map_eq_some_iff.mp (hrow.symm.trans hst)
      refine ⟨st₀, hst₀, ?_, ?_⟩
      · rw [TurnState.fold_reverted] at hrev
        exact hrev
      · cases hp : e.payload <;>
          simp [TurnState.fold, hp, TurnState.extend, foldTurnClose, foldSteer] at hclosed <;>
          exact hclosed
    · rw [if_neg hself] at hrow
      exact ⟨st, hrow ▸ hst, hrev, hclosed⟩

/-- A turn_close leaves its turn closed. -/
theorem Index.closed_observeLine {b b' : Index} {e : Entry} {len : ℕ}
    (h : b.observeLine e len = some b') (hk : e.kind = .turnClose) : e.turn ∉ b'.openTurns := by
  obtain ⟨i, hi, rfl⟩ := observeLine_iff_observe.mp h
  intro hturn
  obtain ⟨-, st, hst, -, hclosed⟩ := mem_openTurns_iff.mp hturn
  have hrow := observe_turns_of_ne_turnOpen (by simp [hk]) hi e.turn
  rw [if_pos rfl] at hrow
  obtain ⟨st₀, -, rfl⟩ := Option.map_eq_some_iff.mp (hrow.symm.trans hst)
  cases hp : e.payload <;> simp [Entry.kind, hp, Payload.kind] at hk
  simp [TurnState.fold, hp, foldTurnClose] at hclosed

namespace EntryLog

variable {c : LineCodec}

/-! ## The turns an operation leaves open -/

theorem append_index_error {l l' : EntryLog} {t : Tick} {e : Entry} {err : LogError}
    (h : l.append c t e = (l', .error err)) : l'.index = l.index := by
  rcases append_cases l t e with ⟨idx, -, -, heq⟩ | ⟨l₁, err₁, heq, rfl | ⟨-, -, -, written, rfl⟩⟩
  · rw [h] at heq
    cases heq
  · rw [h] at heq
    rw [(Prod.mk.inj heq).1]
  · rw [h] at heq
    rw [(Prod.mk.inj heq).1]

/-- An append that goes through leaves open what was, and the turn it opens. -/
theorem append_openTurns {l l' : EntryLog} {t : Tick} {e stamped : Entry}
    (h : l.append c t e = (l', .ok stamped)) :
    stamped.turn = e.turn ∧
      (∀ turn ∈ l'.index.openTurns, turn ∈ l.index.openTurns ∨ turn = e.turn ∧ e.kind = .turnOpen) ∧
      (e.kind = .turnClose → e.turn ∉ l'.index.openTurns) := by
  rcases append_cases l t e with ⟨idx, -, hobs, heq⟩ | ⟨l₁, err, heq, -⟩
  · rw [h] at heq
    obtain ⟨rfl, hs⟩ := Prod.mk.inj heq
    have hmarked : ∀ turn ∈ idx.applyReverts.openTurns, turn ∈ idx.openTurns := by
      rw [Index.applyReverts_eq_marked]
      exact fun turn hturn => Index.openTurns_marked idx _ hturn
    refine ⟨by rw [Except.ok.inj hs, stamp_turn], fun turn hturn => ?_, fun hk hturn => ?_⟩
    · have := Index.openTurns_observeLine hobs (hmarked turn hturn)
      rwa [stamp_turn, stamp_kind] at this
    · have hclosed := Index.closed_observeLine hobs (by rwa [stamp_kind])
      rw [stamp_turn] at hclosed
      exact hclosed (hmarked _ hturn)
  · rw [h] at heq
    cases heq

/-- Whether it goes through or not, an entry that opens no turn leaves none open of its own. -/
theorem append_opens_none {l : EntryLog} {e : Entry} (he : e.kind ≠ .turnOpen) (t : Tick) :
    (l.append c t e).1.index.openTurns ⊆ l.index.openTurns := by
  rcases h : l.append c t e with ⟨l', err | stamped⟩
  · rw [append_index_error h]
    exact fun _ hturn => hturn
  · exact fun turn hturn => ((append_openTurns h).2.1 turn hturn).resolve_right fun hno => he hno.2

theorem openTurn_openTurns {l l' : EntryLog} {t : Tick} {mint : String} {spec : TurnSpec}
    {ordinal : ℕ} {opening : Entry}
    (h : l.openTurnWithOrdinal c t mint spec ordinal = (l', .ok opening)) :
    l'.index.openTurns ⊆ opening.turn :: l.index.openTurns := by
  obtain ⟨hturn, hopen, -⟩ := append_openTurns h
  intro turn hmem
  rcases hopen turn hmem with hold | ⟨hself, -⟩
  · exact List.mem_cons_of_mem _ hold
  · rw [hturn, ← hself]
    exact List.mem_cons_self ..

theorem hideCarrier_openTurns (l : EntryLog) (turn : String) :
    turn ∉ (l.hideCarrier turn).index.openTurns ∧
      (l.hideCarrier turn).index.openTurns ⊆ l.index.openTurns := by
  have hindex : (l.hideCarrier turn).index = l.index.marked (· == turn) :=
    Index.revert_eq_marked l.index turn
  rw [hindex]
  refine ⟨fun hmem => ?_, Index.openTurns_marked l.index _⟩
  obtain ⟨-, st, hst, hrev, -⟩ := Index.mem_openTurns_iff.mp hmem
  rw [Index.marked_turns] at hst
  obtain ⟨st₀, -, rfl⟩ := Option.map_eq_some_iff.mp hst
  simp [TurnState.setReverted] at hrev

theorem subset_of_cons {xs ys : List String} {x : String} (h : xs ⊆ x :: ys) (hx : x ∉ xs) :
    xs ⊆ ys :=
  fun _ hy => (List.mem_cons.mp (h hy)).resolve_left fun heq => hx (heq ▸ hy)

/-- A revert leaves no turn open: the carrier it mints is closed, or hidden again. -/
theorem revert_opens_none (l : EntryLog) (ticks : ℕ → Tick) (mint fromTurn : String)
    (cause : TurnRevertCause) (kasMessageID : String) :
    (l.revert c ticks mint fromTurn cause kasMessageID).1.index.openTurns ⊆ l.index.openTurns := by
  unfold EntryLog.revert
  cases l.index.turns fromTurn with
  | none => exact fun _ h => h
  | some st =>
    simp only
    split
    · exact fun _ h => h
    rcases l.index.revertWindow fromTurn with ⟨window, through⟩
    simp only
    cases l.index.newestSurviving window with
    | some carrier => exact append_opens_none (by simp) _
    | none =>
      simp only
      rcases hopen : l.openTurnWithOrdinal c (ticks 0) mint { source := .revert }
        (l.index.survivingHighWater window + 1) with ⟨l₁, err | opening⟩
      · simp only
        rw [append_index_error hopen]
        exact fun _ h => h
      have h₁ := openTurn_openTurns hopen
      simp only
      rcases hclose : l₁.closeCarrier c (ticks 1) opening.turn with ⟨l₂, err | closing⟩
      · have h₂ : l₂.index = l₁.index := append_index_error hclose
        obtain ⟨hout, hsub⟩ := hideCarrier_openTurns l₂ opening.turn
        rw [h₂] at hsub
        exact subset_of_cons (List.Subset.trans hsub h₁) hout
      obtain ⟨-, hopens, hclosed⟩ := append_openTurns hclose
      have h₂ : l₂.index.openTurns ⊆ l₁.index.openTurns :=
        fun turn hturn => (hopens turn hturn).resolve_right fun hno => by simp at hno
      have hsub : l₂.index.openTurns ⊆ l.index.openTurns :=
        subset_of_cons (List.Subset.trans h₂ h₁) (hclosed rfl)
      simp only
      have hrecord := append_opens_none (c := c) (l := l₂)
        (e := revertRecord fromTurn st.n through cause kasMessageID opening.turn) (by simp) (ticks 2)
      rcases hreq : l₂.append c (ticks 2)
        (revertRecord fromTurn st.n through cause kasMessageID opening.turn) with ⟨l₃, err | record⟩
      · rw [hreq] at hrecord
        exact List.Subset.trans (hideCarrier_openTurns l₃ opening.turn).2 (List.Subset.trans hrecord hsub)
      · rw [hreq] at hrecord
        exact List.Subset.trans hrecord hsub

/-! ## The turns of a run -/

variable (c)

/-- The turn a step opens because its caller asked for one. -/
def asked (l : EntryLog) : LogStep → List String
  | .call (.openTurn t mint spec) => ((l.openTurn c t mint spec).2.toOption.map Entry.turn).toList
  | _ => []

/-- The turns a step brings unasked: one minted for an entry between turns, and a rewrite's. -/
def brought (l : EntryLog) : LogStep → List String
  | .call (.appendBetweenTurns ticks mint e) =>
    ((l.appendBetweenTurns c ticks mint e).2.1.map Entry.turn).toList
  | .call (.appendReconciled ticks mint rec) =>
    ((l.appendReconciled c ticks mint rec).2.1.map Entry.turn).toList
  | .rewrite _ entries => Grouping.keys Entry.turn entries
  | _ => []

/-- What the steps of a run name, each where it is made. -/
def gathered (f : EntryLog → LogStep → List String) (l : EntryLog) : List LogStep → List String
  | [] => []
  | s :: ss => f l s ++ gathered f (l.step c s) ss

/-- What the callers keep to: a call is admissible and opens new turns only, a rewrite is handed
at most one turn_open a turn, and cuts the tail its rescan drops. -/
def Orderly (l : EntryLog) : LogStep → Prop
  | .call op => l.Admissible c op ∧ l.OpensOnlyNew op
  | .remove => True
  | .rewrite w entries => w.truncates = true ∧ (opened entries).Nodup

def OrderlyRun (l : EntryLog) : List LogStep → Prop
  | [] => True
  | s :: ss => l.Orderly c s ∧ (l.step c s).OrderlyRun ss

variable {c}

theorem Orderly.opensOnce {l : EntryLog} {s : LogStep} (h : l.Orderly c s) : l.OpensOnce s := by
  cases s with
  | call op => exact h.2
  | remove => exact h
  | rewrite w entries => exact h

theorem OrderlyRun.stepsOpenOnce {l : EntryLog} {ss : List LogStep} (h : l.OrderlyRun c ss) :
    l.StepsOpenOnce c ss := by
  induction ss generalizing l with
  | nil => exact h
  | cons s ss ih => exact ⟨h.1.opensOnce, ih h.2⟩

theorem Coherent.step {l : EntryLog} {s : LogStep} (h : Coherent c l) (hs : l.Orderly c s) :
    Coherent c (l.step c s) := by
  cases s with
  | call op => exact h.perform hs.1
  | remove =>
    obtain ⟨b, hb, -⟩ := h
    exact ⟨b, ⟨hb.intact, hb.index_eq, hb.whole⟩, trivial⟩
  | rewrite w entries =>
    change Coherent c (l.rewrite c w entries).1
    rcases rewrite_cases c w hs.1 l entries with heq | ⟨groups, header, hok, heq⟩
    · rwa [heq]
    · have hs := coherentUnder_scanned c (rewriteBytes c (rewritten entries)) header l.cap
      rw [heq]
      exact ⟨_, ⟨hs.intact, hs.index_eq, fun _ => hs.whole rfl⟩, trivial⟩

theorem Coherent.steps {l : EntryLog} {ss : List LogStep} (h : Coherent c l)
    (hss : l.OrderlyRun c ss) : Coherent c (l.steps c ss) := by
  induction ss generalizing l with
  | nil => exact h
  | cons s ss ih => exact ih (h.step hss.1) hss.2

/-- Opening an event turn, whatever is then appended to it. -/
theorem openTurn_then {l l₁ l₂ : EntryLog} {t : Tick} {mint : String} {spec : TurnSpec}
    {opening : Entry} (hopen : l.openTurn c t mint spec = (l₁, .ok opening))
    (h₂ : l₂.index.openTurns ⊆ l₁.index.openTurns) :
    l₂.index.openTurns ⊆ [opening.turn] ++ l.index.openTurns :=
  List.Subset.trans h₂ (openTurn_openTurns hopen)

theorem appendBetweenTurns_openTurns {l : EntryLog} {mint : String} {e : Entry}
    (he : e.kind ≠ .turnOpen) (ticks : ℕ → Tick) :
    (l.appendBetweenTurns c ticks mint e).1.index.openTurns ⊆
      ((l.appendBetweenTurns c ticks mint e).2.1.map Entry.turn).toList ++ l.index.openTurns := by
  unfold EntryLog.appendBetweenTurns
  cases l.index.newestSurviving [] with
  | some turn => exact append_opens_none (e := { e with turn := turn }) he (ticks 0)
  | none =>
    simp only
    rcases hopen : l.openTurn c (ticks 0) mint { source := .event } with ⟨l₁, err | opening⟩
    · simp only
      rw [append_index_error hopen]
      exact fun _ h => h
    · exact openTurn_then hopen (append_opens_none (e := { e with turn := opening.turn }) he _)

theorem appendReconciled_openTurns (l : EntryLog) (ticks : ℕ → Tick) (mint : String)
    (rec : EntryReconciled) :
    (l.appendReconciled c ticks mint rec).1.index.openTurns ⊆
      ((l.appendReconciled c ticks mint rec).2.1.map Entry.turn).toList ++ l.index.openTurns := by
  have hfiled : ∀ (l : EntryLog) (t : Tick) (turn : String),
      (l.appendReconciledTo c t rec turn).1.index.openTurns ⊆ l.index.openTurns :=
    fun l t turn => append_opens_none (by simp) t
  unfold EntryLog.appendReconciled
  split
  · exact fun _ h => h
  split
  · exact hfiled l (ticks 0) rec.turn
  cases l.index.newestSurviving [] with
  | some turn => exact hfiled l (ticks 0) turn
  | none =>
    simp only
    rcases hopen : l.openTurn c (ticks 0) mint { source := .event } with ⟨l₁, err | opening⟩
    · simp only
      rw [append_index_error hopen]
      exact fun _ h => h
    simp only
    have hclose : (l₁.closeCarrier c (ticks 1) opening.turn).1.index.openTurns ⊆
        l₁.index.openTurns := append_opens_none (by simp) _
    rcases hceq : l₁.closeCarrier c (ticks 1) opening.turn with ⟨l₂, err | closing⟩
    · rw [hceq] at hclose
      exact openTurn_then hopen hclose
    · rw [hceq] at hclose
      exact openTurn_then hopen (List.Subset.trans (hfiled l₂ (ticks 2) opening.turn) hclose)

/-- Every turn a rewrite leaves in the log is one it was handed. -/
theorem rewrite_order {l : EntryLog} {w : RewriteWorld} (hw : w.truncates = true)
    {entries : List Entry} {turn : String}
    (h : turn ∈ (l.rewrite c w entries).1.index.openTurns) :
    turn ∈ Grouping.keys Entry.turn entries ∨ turn ∈ l.index.openTurns := by
  rcases rewrite_cases c w hw l entries with heq | ⟨groups, header, hok, heq⟩
  · rw [heq] at h
    exact .inr h
  · rw [heq] at h
    apply Or.inl
    have hscan := coherentUnder_scanned c (rewriteBytes c (rewritten entries)) header l.cap
    have hmem : turn ∈ (scanned c (rewriteBytes c (rewritten entries)) header l.cap).index.order :=
      (Index.mem_openTurns_iff.mp h).1
    rw [hscan.index_eq, Index.live_order, hscan.recorded.1.order, mem_opened] at hmem
    obtain ⟨e, he, -, rfl⟩ := hmem
    have hrec := hscan.recorded_of_running rfl
    rw [hrec] at he
    have hpre := (entriesOf_rewriteBytes_take (c := c) (rewritten entries)
      (c.rescan (rewriteBytes c (rewritten entries))).size).subset he
    rw [← keys_rewritten]
    exact (Grouping.mem_keys Entry.turn).mpr ⟨e, hpre, rfl⟩

/-- A step leaves open what was open, what it was asked to open, and what it brought. -/
theorem step_openTurns {l : EntryLog} {s : LogStep} (hs : l.Orderly c s) :
    ∀ turn ∈ (l.step c s).index.openTurns,
      turn ∈ l.index.openTurns ∨ turn ∈ l.asked c s ∨ turn ∈ l.brought c s := by
  intro turn hturn
  cases s with
  | call op =>
    cases op with
    | openTurn t mint spec =>
      change turn ∈ (l.openTurn c t mint spec).1.index.openTurns at hturn
      rcases hopen : l.openTurn c t mint spec with ⟨l₁, err | opening⟩
      · rw [hopen, append_index_error hopen] at hturn
        exact .inl hturn
      · rw [hopen] at hturn
        rcases List.mem_cons.mp (openTurn_openTurns hopen hturn) with rfl | hold
        · exact .inr (.inl (by simp [asked, hopen, Except.toOption]))
        · exact .inl hold
    | append t e => exact .inl (append_opens_none hs.2 t hturn)
    | appendBetweenTurns ticks mint e =>
      have hmem := appendBetweenTurns_openTurns hs.2.2 ticks hturn
      rcases List.mem_append.mp hmem with hnew | hold
      · exact .inr (.inr hnew)
      · exact .inl hold
    | appendReconciled ticks mint rec =>
      have hmem := appendReconciled_openTurns l ticks mint rec hturn
      rcases List.mem_append.mp hmem with hnew | hold
      · exact .inr (.inr hnew)
      · exact .inl hold
    | revert ticks mint fromTurn cause kasMessageID =>
      exact .inl (revert_opens_none l ticks mint fromTurn cause kasMessageID hturn)
  | remove => exact .inl hturn
  | rewrite w entries =>
    rcases rewrite_order hs.1 hturn with hnew | hold
    · exact .inr (.inr hnew)
    · exact .inl hold

/-- Over a run, a turn left open was open before it, asked for, or brought. -/
theorem steps_openTurns {l : EntryLog} {ss : List LogStep} (hss : l.OrderlyRun c ss) :
    ∀ turn ∈ (l.steps c ss).index.openTurns, turn ∈ l.index.openTurns ∨
      turn ∈ gathered c (asked c) l ss ∨ turn ∈ gathered c (brought c) l ss := by
  induction ss generalizing l with
  | nil => exact fun turn hturn => .inl hturn
  | cons s ss ih =>
    intro turn hturn
    simp only [gathered, List.mem_append]
    rcases ih hss.2 turn hturn with hopen | hasked | hbrought
    · rcases step_openTurns hss.1 turn hopen with hold | hnew | hnew
      · exact .inl hold
      · exact .inr (.inl (.inl hnew))
      · exact .inr (.inr (.inl hnew))
    · exact .inr (.inl (.inr hasked))
    · exact .inr (.inr (.inr hbrought))

/-! ## What a reopen does -/

/-- Every reopen that can cut a torn tail and write the header goes through, appends nothing, and
finds the signals as they were. -/
def ReopensClean (c : LineCodec) (l : EntryLog) : Prop :=
  ∀ w : OpenWorld, w.truncates = true → w.caches = true → ∃ l',
    openEntryLog c w l.file l.header l.cap = (l', .ok ()) ∧ l'.file <+: l.file ∧
      l'.needsReconcile = l.needsReconcile

variable {l : EntryLog}

/-- What a refused write left behind the lines is no line, so a scan reads what the index holds. -/
theorem Coherent.rescan_eq (h : Coherent c l) (hline : newline ∉ l.file.drop l.index.size) :
    c.rescan l.file = l.index := by
  obtain ⟨b, hb, -⟩ := h
  rw [hb.index_eq, Index.live_size] at hline
  have hscan := hb.intact.scanFile_append hline
  rw [List.take_append_drop] at hscan
  rw [LineCodec.rescan, hscan, Index.resolve_eq_live hb.intact.folded, hb.index_eq]

theorem reopensClean_of_closed (hscan : c.rescan l.file = l.index)
    (hnil : l.index.openTurns = []) : ReopensClean c l := by
  intro w htruncates hcaches
  have hindex : (scanned c l.file l.header l.cap).index = l.index := hscan
  have hfile : (scanned c l.file l.header l.cap).file <+: l.file := List.take_prefix _ _
  have hheader : (scanned c l.file l.header l.cap).header = l.header := rfl
  unfold openEntryLog
  simp only [htruncates, Bool.true_eq_false, and_false, if_false, hindex, hnil, closeUnterminated]
  by_cases horder : l.index.order = []
  · rw [if_pos horder]
    exact ⟨_, rfl, hfile, needsReconcile_congr hindex rfl rfl⟩
  · rw [if_neg horder, writeCounters, hindex, hheader, hcaches]
    obtain ⟨header, hcache⟩ := cacheCounters_ok l.header l.index.counters
    obtain ⟨hrec, hsession, -⟩ := cacheCounters_policy hcache
    rw [hcache]
    exact ⟨_, rfl, hfile, needsReconcile_congr rfl hrec hsession⟩

/-- A reopen that finds a survivor open writes its closer. -/
theorem closed_of_reopensClean (h : Sound c l) (hscan : c.rescan l.file = l.index)
    (hline : newline ∉ l.file.drop l.index.size) (hclean : ReopensClean c l) :
    l.index.openTurns = [] := by
  by_contra hne
  obtain ⟨turn, hturn⟩ := List.exists_mem_of_ne_nil _ hne
  obtain ⟨l', hopen, hpre, -⟩ := hclean {} rfl rfl
  obtain ⟨l₁, hclose, hend⟩ := openEntryLog_eq_ok hopen
  obtain ⟨header, rfl, -⟩ := openEntryLog_header hend
  have hsound := sound_scanned h.file l.header l.cap
  have hbase := Extends.refl (coherentUnder_scanned c l.file l.header l.cap)
  have hindex : (scanned c l.file l.header l.cap).index = l.index := hscan
  have hsub : (scanned c l.file l.header l.cap).index.openTurns.Sublist
      (opened ((scanned c l.file l.header l.cap).recorded c)) := by
    rw [← hsound.order_eq]
    exact List.filter_sublist.trans List.filter_sublist
  obtain ⟨more, hmore, hclosed, -⟩ := hbase.closeUnterminated hsound.wellFormed
    (hsound.wellFormed.opensOnce.sublist hsub) (fun t ht => ⟨hsub.subset ht, rfl⟩) hclose
  obtain ⟨results, closer, hown, -⟩ := (hclosed turn (hindex ▸ hturn)).closer
  have hcloser : closer ∈ more := by
    have hmem : closer ∈ own more turn := by simp [hown]
    exact (List.mem_filter.mp hmem).1
  have hfile : l₁.file = l.file.take l.index.size ++ Lines.join newline (more.map c.marshal) := by
    rw [hmore.eq, ← hscan, List.nil_append]
    rfl
  have hwritten : newline ∈ Lines.join newline (more.map c.marshal) := by
    rw [Lines.join, List.mem_flatMap]
    exact ⟨c.marshal closer, List.mem_map_of_mem hcloser, by simp⟩
  have htail : Lines.join newline (more.map c.marshal) <+: l.file.drop l.index.size := by
    change l₁.file <+: l.file at hpre
    rw [hfile] at hpre
    conv_rhs at hpre => rw [← List.take_append_drop l.index.size l.file]
    exact (List.prefix_append_right_inj _).mp hpre
  exact hline (htail.subset hwritten)

theorem Sound.mem_openTurns_iff (h : Sound c l) {turn : String} :
    turn ∈ l.index.openTurns ↔
      turn ∈ l.index.survivingOrder ∧ holds (l.recorded c) turn .turnClose = false := by
  constructor
  · intro hturn
    have hsurvives := (List.mem_filter.mp hturn).1
    obtain ⟨st, hst, -, hclosed⟩ := h.row (List.mem_filter.mp hsurvives).1
    refine ⟨hsurvives, ?_⟩
    rw [holds_eq_any_own, ← hclosed]
    exact ((mem_openTurns hst).mp hturn).2
  · rintro ⟨hsurvives, hopen⟩
    obtain ⟨st, hst, -, hclosed⟩ := h.row (List.mem_filter.mp hsurvives).1
    rw [holds_eq_any_own, ← hclosed] at hopen
    exact (mem_openTurns hst).mpr ⟨hsurvives, hopen⟩

/-- Over every run of a fresh log whose callers close the turns they open, with no whole line of a
refused write left on the file: a reopen is clean exactly when every survivor that was minted
between turns or brought by a rewrite holds a turn_close. -/
theorem reopens_clean_iff (header : LogHeader) (cap : ℕ) {ss : List LogStep}
    (hss : (new header cap).OrderlyRun c ss)
    (hasked : ∀ turn ∈ gathered c (asked c) (new header cap) ss,
      turn ∈ ((new header cap).steps c ss).index.survivingOrder →
        holds (((new header cap).steps c ss).recorded c) turn .turnClose = true)
    (hline : newline ∉ ((new header cap).steps c ss).file.drop
      ((new header cap).steps c ss).index.size) :
    ReopensClean c ((new header cap).steps c ss) ↔
      ∀ turn ∈ gathered c (brought c) (new header cap) ss,
        turn ∈ ((new header cap).steps c ss).index.survivingOrder →
          holds (((new header cap).steps c ss).recorded c) turn .turnClose = true := by
  have hcoherent : Coherent c ((new header cap).steps c ss) :=
    Coherent.steps ⟨.empty, ⟨LineCodec.intact_nil, rfl, fun _ => rfl⟩, trivial⟩ hss
  have hsound : Sound c ((new header cap).steps c ss) := by
    have hfresh : Sound c (new header cap) := sound_scanned soundFile_nil header cap
    exact hfresh.steps hss.stepsOpenOnce
  have hscan := hcoherent.rescan_eq hline
  have hopen := steps_openTurns hss
  constructor
  · intro hclean turn _ hsurvives
    by_contra hno
    have hmem := hsound.mem_openTurns_iff.mpr ⟨hsurvives, by simpa using hno⟩
    rw [closed_of_reopensClean hsound hscan hline hclean] at hmem
    cases hmem
  · intro hbrought
    apply reopensClean_of_closed hscan
    rw [List.eq_nil_iff_forall_not_mem]
    intro turn hturn
    obtain ⟨hsurvives, hno⟩ := hsound.mem_openTurns_iff.mp hturn
    rcases hopen turn hturn with hold | hmem | hmem
    · cases hold
    · rw [hasked turn hmem hsurvives] at hno
      cases hno
    · rw [hbrought turn hmem hsurvives] at hno
      cases hno

/-- A session recorded in a carrier of the log's own, and a turn closed and then reverted. -/
theorem reopens_clean_of_carriers :
    ReopensClean jsonLines ((new { noHeader with reconcilable := true } 0).steps jsonLines
      [.call (.appendReconciled (fun _ => {}) "e" { session := "s" }),
        .call (.openTurn {} "a" { source := .prompt }),
        .call (.append {} { id := "t-a:close", turn := "t-a", payload := .turnClose { outcome := .completed } }),
        .call (.revert (fun _ => {}) "b" "t-e" .rewind "")]) := by
  refine (reopens_clean_iff { noHeader with reconcilable := true } 0 ?_ ?_ ?_).mpr ?_
  · change (Unnamed jsonLines _ ("t-" ++ "e") ∧ NewTurn _ "e") ∧
      ((Unnamed jsonLines _ ("t-" ++ "a") ∧ _) ∧ NewTurn _ "a") ∧
      ((_ ∧ (EntryKind.turnClose = _ → _)) ∧ _) ∧
      (Unnamed jsonLines _ ("t-" ++ "b") ∧ NewTurn _ "b") ∧ True
    exact ⟨⟨by decide +kernel, by decide +kernel⟩,
      ⟨⟨by decide +kernel, by simp⟩, by decide +kernel⟩,
      ⟨⟨by decide, by simp⟩, by change Entry.kind _ ≠ .turnOpen; decide⟩,
      ⟨by decide +kernel, by decide +kernel⟩, trivial⟩
  · decide +kernel
  · decide +kernel
  · decide +kernel

/-- A model switched before the first prompt lands in a turn nothing closes: no turn was asked for,
and the reopen closes it and finds a signal that was not there. -/
theorem event_turn_left_open :
    let ss : List LogStep := [.call (.appendBetweenTurns (fun _ => {}) "e"
      { id := "m"
        turn := ""
        payload := .modelSwitched { fromModel := "sonnet", toModel := "opus" } })]
    let l := (new { noHeader with reconcilable := true } 0).steps jsonLines ss
    gathered jsonLines (asked jsonLines) (new { noHeader with reconcilable := true } 0) ss = [] ∧
      l.needsReconcile = false ∧ ¬ ReopensClean jsonLines l := by
  intro ss l
  refine ⟨by decide +kernel, by decide +kernel, fun hclean => ?_⟩
  obtain ⟨l', hopen, -, hsignal⟩ := hclean {} rfl rfl
  have hl' : l' = (openEntryLog jsonLines {} l.file l.header l.cap).1 := by rw [hopen]
  rw [hl'] at hsignal
  revert hsignal
  decide +kernel

end EntryLog

end Marotte
