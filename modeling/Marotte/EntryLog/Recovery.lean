import Marotte.EntryLog.Closers

/-! # Crash recovery

An open of a log file keeps the entries of its complete lines, and closes each survivor
the cut left open: its unsettled calls aborted first, then one closer.
-/
namespace Marotte

open History

/-- What an open of a torn file leaves, and what it added to get there. -/
structure Recovery (c : LineCodec) (torn : List UInt8) (l : EntryLog) (added : List Entry) :
    Prop where
  complete : (Lines.split newline torn).1.map c.unmarshal = (c.entriesOf torn).map some
  file : l.file = Lines.join newline (Lines.split newline torn).1 ++
    Lines.join newline (added.map c.marshal)
  recorded : l.recorded c = c.entriesOf torn ++ added
  closed : ∀ turn ∈ l.index.survivingOrder, holds (l.recorded c) turn .turnClose = true
  closers : ∀ turn ∈ l.index.survivingOrder, holds (c.entriesOf torn) turn .turnClose = false →
    ClosedBy turn l.header.closerModel (unsettled (own (c.entriesOf torn) turn)) (own added turn)
  untouched : ∀ turn, own added turn ≠ [] →
    turn ∈ l.index.survivingOrder ∧ holds (c.entriesOf torn) turn .turnClose = false
  contiguous : ∀ turn, (own (l.recorded c) turn).map Entry.seq =
    List.range (own (l.recorded c) turn).length
  reconcile : l.header.reconcilable = true → ∀ turn, own added turn ≠ [] →
    (c.entriesOf torn).any (clearsTurn turn) = false → l.needsReconcile = true
  again : ∀ w : OpenWorld, w.caches = true →
    openEntryLog c w l.file l.header l.cap = (l, .ok ())

namespace EntryLog

variable {c : LineCodec}

theorem cacheCounters_idem {h h' : LogHeader} {caches : Bool} {counters : ℕ × TurnOutcome}
    (heq : h.cacheCounters caches counters = .ok h') :
    h'.cacheCounters true counters = .ok h' := by
  unfold LogHeader.cacheCounters at heq ⊢
  split at heq
  · cases heq
    simp_all
  split at heq
  · cases heq
  split at heq
  · rename_i hrec _ hsame
    cases heq
    simp [hsame]
  · rename_i hrec _ _
    cases heq
    simp

/-- A log an open served holds its scan's policy, under the counters it cached. -/
theorem openEntryLog_header {w : OpenWorld} {l₁ l : EntryLog}
    (h : l₁.index.order = [] ∧ l = l₁ ∨ l₁.writeCounters w.caches = (l, .ok ())) :
    ∃ header : LogHeader, l = { l₁ with header := header } ∧
      header.reconcilable = l₁.header.reconcilable ∧ header.sessionID = l₁.header.sessionID ∧
      header.closerModel = l₁.header.closerModel ∧
      (l₁.index.order = [] ∨ header.cacheCounters true l₁.index.counters = .ok header) := by
  rcases h with ⟨hnil, rfl⟩ | hwrite
  · exact ⟨_, rfl, rfl, rfl, rfl, .inl hnil⟩
  · unfold writeCounters at hwrite
    split at hwrite
    · cases hwrite
    · rename_i header hcache
      cases hwrite
      obtain ⟨hr, hs, hm⟩ := cacheCounters_policy hcache
      exact ⟨header, rfl, hr, hs, hm, .inr (cacheCounters_idem hcache)⟩

/-- A log whose survivors are closed and whose counters are cached opens as it is. -/
theorem Coherent.reopen_eq {l : EntryLog} (h : Coherent c l) (hf : l.failed = false)
    (hr : l.removed = false)
    (hclosed : ∀ id st, l.index.turns id = some st → st.reverted = false → st.closed = true)
    (hcache : l.index.order = [] ∨ l.header.cacheCounters true l.index.counters = .ok l.header)
    {w : OpenWorld} (hw : w.caches = true) :
    openEntryLog c w l.file l.header l.cap = (l, .ok ()) := by
  obtain ⟨hindex, hsize⟩ := h.index_eq_rescan hf
  have hscan : scanned c l.file l.header l.cap = l := by
    rw [scanned, ← hindex, hsize, List.take_length]
    cases l
    simp_all
  unfold openEntryLog
  simp only [hscan, hsize, Nat.lt_irrefl, false_and, if_false, openTurns_eq_nil hclosed,
    closeUnterminated, hw]
  rcases hcache with hnil | hcache
  · rw [if_pos hnil]
  · split
    · rfl
    · rw [writeCounters, hcache]

/-- A turn an open closed is signalled, unless a record of the file already names it. -/
theorem Extends.signalled {l₀ l : EntryLog} {r : String → Bool} {added : List Entry}
    {turn model : String} {calls : List EntryCall} (h : Extends c l₀ r l added)
    (hwf : WellFormed (l₀.recorded c)) (hturn : turn ∈ opened (l₀.recorded c))
    (hvisible : r turn = false) (hclosed : ClosedBy turn model calls (own added turn))
    (hclear : (l₀.recorded c).any (clearsTurn turn) = false) : l.signalled turn = true := by
  obtain ⟨b, hb⟩ := h.coherent
  obtain ⟨st, hst, hrev, hrow⟩ := h.row hwf hturn
  obtain ⟨results, closer, hown, hk, hun⟩ := hclosed.closer
  have hunterminated : st.unterminated = true := by
    rw [hrow.unterminated, hown, List.filter_append, List.filter_append]
    simp [hk, hun]
  have hnone : turn ∉ l.index.reconciledTurns := by
    have hclears := hb.intact.clears
    rw [← hb.recorded_eq] at hclears
    have hsame : l.index.reconciledTurns = b.reconciledTurns := by rw [hb.index_eq]; rfl
    rw [hsame, hclears.turns, h.recorded, List.any_append, hclear, Bool.false_or]
    rintro ⟨-, hany⟩
    obtain ⟨e, he, hc⟩ := List.any_eq_true.mp hany
    unfold clearsTurn at hc
    split at hc
    · rename_i p hp
      have hkind := Entry.kind_of_payload hp
      rcases h.kinds e he with hk | hk <;> rw [hk] at hkind <;> cases hkind
    · cases hc
  rw [EntryLog.signalled, hst]
  simp [hrev, hvisible, hunterminated, hnone]

theorem needsReconcile_of_signalled {l : EntryLog} {turn : String} (hturn : turn ∈ l.index.order)
    (hrec : l.header.reconcilable = true) (h : l.signalled turn = true) :
    l.needsReconcile = true := by
  have hmem : turn ∈ l.index.order.filter l.signalled := List.mem_filter.mpr ⟨hturn, h⟩
  rw [needsReconcile, reconcileTargets, if_pos hrec]
  simp [List.ne_nil_of_mem hmem]

/-- The survivors of a torn file that its complete lines leave open. -/
def unclosed (c : LineCodec) (torn : List UInt8) (r : String → Bool) (turn : String) : Prop :=
  turn ∈ opened (c.entriesOf torn) ∧ r turn = false ∧
    holds (c.entriesOf torn) turn .turnClose = false

/-- The log once every turn left open has its closers. -/
structure Closing (c : LineCodec) (torn : List UInt8) (r : String → Bool) (l₀ l : EntryLog)
    (added : List Entry) : Prop where
  kept : l₀.recorded c = c.entriesOf torn
  wellFormed : WellFormed (l₀.recorded c)
  reached : Extends c l₀ r l added
  closers : ∀ turn, unclosed c torn r turn →
    ClosedBy turn l₀.header.closerModel (unsettled (own (c.entriesOf torn) turn)) (own added turn)
  others : ∀ turn, ¬unclosed c torn r turn → own added turn = []

theorem Extends.unclosed_iff {l₀ : EntryLog} {torn : List UInt8} {r : String → Bool}
    (h : Extends c l₀ r l₀ []) (hkept : l₀.recorded c = c.entriesOf torn)
    (hwf : WellFormed (l₀.recorded c)) (turn : String) :
    turn ∈ l₀.index.openTurns ↔ unclosed c torn r turn := by
  by_cases hturn : turn ∈ opened (c.entriesOf torn)
  · obtain ⟨st, hst, -, hrow⟩ := h.row hwf (hkept ▸ hturn)
    have hcl : st.closed = holds (c.entriesOf torn) turn .turnClose := by
      rw [hrow.closed, hkept, holds_eq_any_own]
      simp [own]
    rw [mem_openTurns hst, h.survivingOrder, hkept, hcl, List.mem_filter, unclosed]
    simp [and_assoc]
  · have hno : turn ∉ l₀.index.openTurns := by
      intro hmem
      have hm := (List.mem_filter.mp hmem).1
      rw [h.survivingOrder, hkept] at hm
      exact hturn (List.mem_filter.mp hm).1
    simp [hno, unclosed, hturn]

theorem closing_of_close {torn : List UInt8} {header : LogHeader} {cap : ℕ} {l : EntryLog}
    {ticks : ℕ → ℕ → Tick} (hf : SoundFile c torn)
    (hclose : (scanned c torn header cap).closeUnterminated c ticks header.closerModel
      (scanned c torn header cap).index.openTurns = (l, .ok ())) :
    ∃ r added, Closing c torn r (scanned c torn header cap) l added := by
  obtain ⟨-, hentries, -, -⟩ := hf.scan
  have hs := coherentUnder_scanned c torn header cap
  have hwf := (sound_scanned hf header cap).wellFormed
  have hbase := Extends.refl hs
  have hkept : (scanned c torn header cap).recorded c = c.entriesOf torn := by
    rw [hs.recorded_of_running rfl, ← hentries, ← rescan_size]
    rfl
  have hiff := hbase.unclosed_iff hkept hwf
  have hnodup : (scanned c torn header cap).index.openTurns.Nodup := by
    rw [Index.openTurns, hbase.survivingOrder]
    exact (hwf.opensOnce.filter _).filter _
  have hturns : ∀ turn ∈ (scanned c torn header cap).index.openTurns,
      turn ∈ opened ((scanned c torn header cap).recorded c) ∧ own [] turn = [] := by
    intro turn hturn
    rw [hkept]
    exact ⟨((hiff turn).mp hturn).1, rfl⟩
  obtain ⟨added, hext, hclosers, hothers⟩ := hbase.closeUnterminated hwf hnodup hturns hclose
  refine ⟨_, added, hkept, hwf, hext, ?_, ?_⟩
  · intro turn hturn
    rw [← hkept]
    exact hclosers turn ((hiff turn).mpr hturn)
  · intro turn hturn
    exact hothers turn (fun hm => hturn ((hiff turn).mp hm))

theorem Closing.mem_survivors {torn : List UInt8} {r : String → Bool} {l₀ l : EntryLog}
    {added : List Entry} (h : Closing c torn r l₀ l added) (turn : String) :
    turn ∈ l.index.survivingOrder ↔ turn ∈ opened (c.entriesOf torn) ∧ r turn = false := by
  rw [h.reached.survivingOrder, h.kept, List.mem_filter]
  simp

theorem Closing.recorded {torn : List UInt8} {r : String → Bool} {l₀ l : EntryLog}
    {added : List Entry} (h : Closing c torn r l₀ l added) :
    l.recorded c = c.entriesOf torn ++ added := by rw [h.reached.recorded, h.kept]

/-- Every survivor holds a turn_close: its own, or the closer it was given. -/
theorem Closing.closed {torn : List UInt8} {r : String → Bool} {l₀ l : EntryLog}
    {added : List Entry} (h : Closing c torn r l₀ l added) {turn : String}
    (hturn : turn ∈ l.index.survivingOrder) : holds (l.recorded c) turn .turnClose = true := by
  obtain ⟨hopened, hvisible⟩ := (h.mem_survivors turn).mp hturn
  rw [h.recorded, holds_append]
  cases hkept : holds (c.entriesOf torn) turn .turnClose with
  | true => rfl
  | false =>
    obtain ⟨results, closer, hown, hk, -⟩ := (h.closers turn ⟨hopened, hvisible, hkept⟩).closer
    rw [holds_eq_any_own, hown]
    simp [hk]

theorem Closing.row_closed {torn : List UInt8} {r : String → Bool} {l₀ l : EntryLog}
    {added : List Entry} (h : Closing c torn r l₀ l added) {turn : String} {st : TurnState}
    (hst : l.index.turns turn = some st) (hrev : st.reverted = false) : st.closed = true := by
  obtain ⟨b, hb⟩ := h.reached.coherent
  have hturn : turn ∈ opened (l₀.recorded c) := by
    rw [← h.reached.opened_eq, ← hb.recorded.1.order, hb.intact.folded.mem_order]
    rw [hb.index_eq, Index.live_turns, Option.map_eq_some_iff] at hst
    obtain ⟨st', hst', -⟩ := hst
    simp [hst']
  obtain ⟨st', hst', hr, hrow⟩ := h.reached.row h.wellFormed hturn
  cases hst.symm.trans hst'
  have hsurvives := (h.mem_survivors turn).mpr ⟨h.kept ▸ hturn, hr ▸ hrev⟩
  have hclosed := h.closed hsurvives
  rwa [holds_eq_any_own, h.reached.recorded, own_append, ← hrow.closed] at hclosed

/-- What an open of a torn log file leaves. -/
theorem recovery_of_open {torn : List UInt8} {w : OpenWorld} {header : LogHeader} {cap : ℕ}
    {l : EntryLog} (hf : SoundFile c torn)
    (hopen : openEntryLog c w torn header cap = (l, .ok ())) :
    ∃ added, Recovery c torn l added := by
  obtain ⟨l₁, hclose, hend⟩ := openEntryLog_eq_ok hopen
  obtain ⟨r, added, h⟩ := closing_of_close hf hclose
  obtain ⟨hcut, -, hcomplete, -⟩ := hf.scan
  have hsound := (sound_scanned hf header cap).grows (grows_openEntryLog hopen)
  have hcoherent : Coherent c l := CoherentWith.openEntryLog Index.kept_true trivial hopen
  obtain ⟨h', rfl, hrec, -, hmodel, hcache⟩ := openEntryLog_header hend
  have heq := h.reached.eq
  have hpolicy : l₁.header = header := by rw [heq]; rfl
  refine ⟨added, hcomplete, ?_, h.recorded, ?_, ?_, ?_, hsound.wellFormed.contiguous, ?_, ?_⟩
  · change l₁.file = _
    rw [heq, ← hcut, ← rescan_size]
    rfl
  · intro turn hturn
    exact h.closed hturn
  · intro turn hturn hopen
    obtain ⟨hopened, hvisible⟩ := (h.mem_survivors turn).mp hturn
    have hclosed := h.closers turn ⟨hopened, hvisible, hopen⟩
    change ClosedBy turn h'.closerModel _ _
    rw [hmodel, hpolicy]
    exact hclosed
  · intro turn hadded
    by_contra hno
    refine hadded (h.others turn ?_)
    rintro ⟨hopened, hvisible, hopen⟩
    exact hno ⟨(h.mem_survivors turn).mpr ⟨hopened, hvisible⟩, hopen⟩
  · intro hreconcilable turn hadded hclear
    have hun : unclosed c torn r turn := by
      by_contra hno
      exact hadded (h.others turn hno)
    have hsig := h.reached.signalled h.wellFormed (h.kept ▸ hun.1) hun.2.1 (h.closers turn hun)
      (h.kept ▸ hclear)
    have hmem : turn ∈ l₁.index.order :=
      (List.mem_filter.mp ((h.mem_survivors turn).mpr ⟨hun.1, hun.2.1⟩)).1
    exact needsReconcile_of_signalled hmem hreconcilable hsig
  · intro w' hw'
    have hf : l₁.failed = false := by rw [heq]; rfl
    have hr : l₁.removed = false := by rw [heq]; rfl
    exact hcoherent.reopen_eq hf hr (fun _ _ => h.row_closed) hcache hw'

/-! ## When an open serves a log -/

end EntryLog

/-- The refusals of the line bound and of the file's cap. -/
def LogError.isBound : LogError → Bool
  | .entryLineTooLong _ | .fileTooLarge _ _ => true
  | _ => false

namespace EntryLog

variable {c : LineCodec}

/-- What a step answers once nothing but a size bound can refuse it. -/
def Answers {α : Type} (res : EntryLog × Except LogError α) : Prop :=
  (∃ l a, res = (l, .ok a)) ∨ ∃ l err, res = (l, .error err) ∧ err.isBound = true

theorem Extends.append_answers {l₀ l : EntryLog} {r : String → Bool} {added : List Entry}
    {t : Tick} {e : Entry} (h : Extends c l₀ r l added) (hwf : WellFormed (l₀.recorded c))
    (hl₀ : l₀.failed = false ∧ l₀.removed = false) (hturn : e.turn ∈ opened (l₀.recorded c))
    (ht : t.cancelled = false ∧ t.write = .done) : Answers (l.append c t e) := by
  obtain ⟨st, hst, -⟩ := h.row hwf hturn
  have hf : l.failed = false := by rw [h.eq]; exact hl₀.1
  have hr : l.removed = false := by rw [h.eq]; exact hl₀.2
  have hheld : ¬(l.index.turns e.turn = none ∧ e.kind ≠ .turnOpen) := by simp [hst]
  unfold EntryLog.append
  simp only [hr, hf, ht.1, if_neg hheld, Bool.false_eq_true, if_false]
  cases hb : l.checkBounds (c.marshal (l.stamp t e) ++ [newline]).length with
  | some err =>
    refine .inr ⟨l, err, rfl, ?_⟩
    unfold checkBounds at hb
    split at hb
    · cases hb
      rfl
    split at hb
    · cases hb
    split at hb
    · cases hb
      rfl
    · cases hb
  | none =>
    simp only [ht.2]
    obtain ⟨idx, hidx⟩ : ∃ idx, l.index.observeLine (l.stamp t e)
        (c.marshal (l.stamp t e) ++ [newline]).length = some idx :=
      observes_of_held (.inl (by simp [hst]))
    rw [hidx]
    exact .inl ⟨_, _, rfl⟩

theorem Extends.appendAll_answers {l₀ l : EntryLog} {r : String → Bool} {added es : List Entry}
    {ticks : ℕ → Tick} (h : Extends c l₀ r l added) (hwf : WellFormed (l₀.recorded c))
    (hl₀ : l₀.failed = false ∧ l₀.removed = false)
    (hes : ∀ e ∈ es, e.turn ∈ opened (l₀.recorded c) ∧ e.kind = .toolResult)
    (ht : ∀ i, (ticks i).cancelled = false ∧ (ticks i).write = .done) :
    Answers (l.appendAll c ticks es) := by
  induction es generalizing l added ticks with
  | nil => exact .inl ⟨l, (), rfl⟩
  | cons e es ih =>
    obtain ⟨hturn, hk⟩ := hes e (by simp)
    unfold EntryLog.appendAll
    rcases h.append_answers hwf hl₀ hturn (ht 0) with ⟨l', s, heq⟩ | ⟨l', err, heq, hb⟩
    · rw [heq]
      exact ih (h.append (.inl hk) heq).2 (fun e he => hes e (List.mem_cons_of_mem _ he))
        (fun i => ht (i + 1))
    · rw [heq]
      exact .inr ⟨l', err, rfl, hb⟩

theorem Extends.synthesizeClose_answers {l₀ l : EntryLog} {r : String → Bool}
    {added : List Entry} {ticks : ℕ → Tick} {turn : String} (h : Extends c l₀ r l added)
    (hwf : WellFormed (l₀.recorded c)) (hl₀ : l₀.failed = false ∧ l₀.removed = false)
    (hturn : turn ∈ opened (l₀.recorded c))
    (ht : ∀ i, (ticks i).cancelled = false ∧ (ticks i).write = .done) (model : String) :
    Answers (l.synthesizeClose c ticks turn model) := by
  unfold EntryLog.synthesizeClose
  simp only
  generalize ((l.index.turns turn).map TurnState.unsettled).getD [] = calls
  have hes : ∀ e ∈ calls.map (abortedResult turn),
      e.turn ∈ opened (l₀.recorded c) ∧ e.kind = .toolResult := by
    intro e he
    obtain ⟨call, -, rfl⟩ := List.mem_map.mp he
    exact ⟨hturn, rfl⟩
  have hshape : ∀ e ∈ calls.map (abortedResult turn), e.kind = .toolResult ∧ e.id ≠ "" ∧
      e.unstamped = e ∧ persistBoundPayload e.payload = e.payload := by
    intro e he
    obtain ⟨call, -, rfl⟩ := List.mem_map.mp he
    exact ⟨rfl, by simp [abortedResult, toolResultID], rfl, rfl⟩
  rcases h.appendAll_answers hwf hl₀ hes ht with ⟨l₁, ⟨⟩, heq⟩ | ⟨l₁, err, heq, hb⟩
  · rw [heq]
    simp only
    obtain ⟨more, -, h₁⟩ := h.appendAll hshape heq
    generalize ((l₁.index.turns turn).map (fun st => st.lastTs - st.openTs)).getD 0 = elapsed
    have hclose : Answers (l₁.append c (ticks calls.length) (unterminatedClose turn model elapsed)) :=
      h₁.append_answers hwf hl₀ hturn (ht _)
    rcases hclose with ⟨l₂, s, heq₂⟩ | ⟨l₂, err, heq₂, hb⟩
    · rw [heq₂]
      exact .inl ⟨l₂, (), rfl⟩
    · rw [heq₂]
      exact .inr ⟨l₂, err, rfl, hb⟩
  · rw [heq]
    exact .inr ⟨l₁, err, rfl, hb⟩

theorem Extends.closeUnterminated_answers {l₀ l : EntryLog} {r : String → Bool}
    {added : List Entry} {ticks : ℕ → ℕ → Tick} {turns : List String}
    (h : Extends c l₀ r l added) (hwf : WellFormed (l₀.recorded c))
    (hl₀ : l₀.failed = false ∧ l₀.removed = false)
    (hturns : ∀ turn ∈ turns, turn ∈ opened (l₀.recorded c))
    (ht : ∀ i j, (ticks i j).cancelled = false ∧ (ticks i j).write = .done) (model : String) :
    Answers (l.closeUnterminated c ticks model turns) := by
  induction turns generalizing l added ticks with
  | nil => exact .inl ⟨l, (), rfl⟩
  | cons turn turns ih =>
    unfold EntryLog.closeUnterminated
    have hturn := hturns turn (by simp)
    obtain ⟨st, hst, -⟩ := h.row hwf hturn
    rcases h.synthesizeClose_answers hwf hl₀ hturn (ht 0) model with
      ⟨l₁, ⟨⟩, heq⟩ | ⟨l₁, err, heq, hb⟩
    · rw [heq]
      obtain ⟨more, -, h₁⟩ := h.synthesizeClose hst heq
      exact ih h₁ (fun t ht => hturns t (List.mem_cons_of_mem _ ht)) (fun i j => ht (i + 1) j)
    · rw [heq]
      exact .inr ⟨l₁, err, rfl, hb⟩

/-- An open that can cut, append and cache serves a log, unless a size bound refuses a closer. -/
theorem openEntryLog_answers {torn : List UInt8} {w : OpenWorld} (hf : SoundFile c torn)
    (hcut : w.truncates = true) (hcache : w.caches = true)
    (ht : ∀ i j, (w.ticks i j).cancelled = false ∧ (w.ticks i j).write = .done)
    (header : LogHeader) (cap : ℕ) : Answers (openEntryLog c w torn header cap) := by
  have hbase := Extends.refl (coherentUnder_scanned c torn header cap)
  have hwf := (sound_scanned hf header cap).wellFormed
  have hturns : ∀ turn ∈ (scanned c torn header cap).index.openTurns,
      turn ∈ opened ((scanned c torn header cap).recorded c) := by
    intro turn hturn
    have hm := (List.mem_filter.mp hturn).1
    rw [hbase.survivingOrder] at hm
    exact (List.mem_filter.mp hm).1
  unfold openEntryLog
  simp only [hcut, Bool.true_eq_false, and_false, if_false]
  rcases hbase.closeUnterminated_answers hwf ⟨rfl, rfl⟩ hturns ht
      (scanned c torn header cap).header.closerModel with ⟨l, ⟨⟩, heq⟩ | ⟨l, err, heq, hb⟩
  · rw [heq]
    simp only
    split
    · exact .inl ⟨l, (), rfl⟩
    · obtain ⟨h', hh'⟩ := cacheCounters_ok l.header l.index.counters
      rw [writeCounters, hcache, hh']
      exact .inl ⟨_, (), rfl⟩
  · rw [heq]
    exact .inr ⟨l, err, rfl, hb⟩

/-- Any file operations left, cut anywhere: an open that serves a log keeps its complete lines
and closes what they leave open, and one that nothing outside refuses serves it. -/
theorem crash_recovery {file : List UInt8} (hf : LogFile c file) (k : ℕ) (w : OpenWorld)
    (header : LogHeader) (cap : ℕ) :
    (∀ l, openEntryLog c w (file.take k) header cap = (l, .ok ()) →
      ∃ added, Recovery c (file.take k) l added) ∧
    (w.truncates = true → w.caches = true →
      (∀ i j, (w.ticks i j).cancelled = false ∧ (w.ticks i j).write = .done) →
      Answers (openEntryLog c w (file.take k) header cap)) := by
  have htorn := (hf.cut k).sound
  exact ⟨fun l hopen => recovery_of_open htorn hopen,
    fun hcut hcache ht => openEntryLog_answers htorn hcut hcache ht header cap⟩

/-- A file cut in the middle of its third line, the result of the one call it holds. -/
theorem crash_recovery_of_torn_result :
    let file := ((openEntryLog jsonLines {} [] noHeader 0).1.steps jsonLines
      [.call (.openTurn {} "a" { source := .prompt }),
        .call (.append {} { id := "c1", turn := "t-a", payload := .toolCall { id := "c1" } }),
        .call (.append {}
          { id := "c1:result", turn := "t-a", payload := .toolResult { status := .completed } })]).file
    (∀ l, openEntryLog jsonLines {} (file.take 220) noHeader 0 = (l, .ok ()) →
      ∃ added, Recovery jsonLines (file.take 220) l added) ∧
    ((({} : OpenWorld).truncates = true → ({} : OpenWorld).caches = true →
      (∀ i j, ((({} : OpenWorld).ticks i j).cancelled = false ∧
        (({} : OpenWorld).ticks i j).write = .done)) →
      Answers (openEntryLog jsonLines {} (file.take 220) noHeader 0))) := by
  intro file
  have hfile : LogFile jsonLines file := by
    refine .served .absent {} noHeader 0 rfl _ ⟨?_, ?_, ?_, trivial⟩
    · change NewTurn _ "a"
      decide +kernel
    · change Entry.kind _ ≠ .turnOpen
      decide
    · change Entry.kind _ ≠ .turnOpen
      decide
  exact crash_recovery hfile 220 {} noHeader 0

/-- What the law leaves out: a record already naming the turn an open closes keeps its signal
down, and a second turn_open, appended or rewritten, loses the calls before it. -/
theorem irregular_file_breaks_recovery :
    (let header := { noHeader with reconcilable := true }
     let file := ((new header 0).performAll jsonLines
        [.openTurn {} "a" { source := .prompt },
          .appendReconciled (fun _ => {}) "b" { turn := "t-a" }]).file
     let opened := openEntryLog jsonLines {} file header 0
     opened.2 = .ok () ∧ (jsonLines.entriesOf file).any (fun e => e.kind = .turnClose) = false ∧
      (jsonLines.entriesOf opened.1.file).any (fun e => e.kind = .turnClose) = true ∧
      opened.1.needsReconcile = false) ∧
    (let file := ((new noHeader 0).performAll jsonLines
        [.openTurn {} "a" { source := .prompt },
          .append {} { id := "c1", turn := "t-a", payload := .toolCall { id := "c1" } },
          .append {}
            { id := "t-a", turn := "t-a", payload := .turnOpen { source := .prompt, n := 1 } }]).file
     let opened := openEntryLog jsonLines {} file noHeader 0
     opened.2 = .ok () ∧ opened.1.index.survivingOrder = ["t-a", "t-a"] ∧
      (jsonLines.entriesOf opened.1.file).any (fun e => e.id = "c1:result") = false) ∧
    (let file := ((new noHeader 0).rewrite jsonLines {}
        [{ id := "t-a", turn := "t-a", payload := .turnOpen { source := .prompt, n := 1 } },
          { id := "c1", turn := "t-a", payload := .toolCall { id := "c1" }, seq := 1 },
          { id := "t-a"
            turn := "t-a"
            payload := .turnOpen { source := .prompt, n := 1 }
            seq := 2 }]).1.file
     let opened := openEntryLog jsonLines {} file noHeader 0
     opened.2 = .ok () ∧ opened.1.index.survivingOrder = ["t-a", "t-a"] ∧
      (jsonLines.entriesOf opened.1.file).any (fun e => e.id = "c1:result") = false) := by
  refine ⟨?_, ?_, ?_⟩ <;> decide +kernel

end EntryLog

end Marotte
