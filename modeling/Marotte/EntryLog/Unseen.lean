import Marotte.EntryLog.Beside
import Marotte.EntryLog.Reopened

/-! # A revert that fails

A revert writes up to three lines and may stop behind any of them. What it leaves is a turn that no
reader sees, in the running process and behind a reopen.
-/
namespace Marotte.EntryLog

open History

variable {c : LineCodec} {l l' : EntryLog}

/-! ## The other rows -/

/-- An append that reverts nothing leaves every other row. -/
theorem Sound.append_others (h : Sound c l) {t : Tick} {e : Entry} (hr : e.kind ≠ .turnRevert)
    {res : Except LogError Entry} (heq : l.append c t e = (l', res)) :
    l'.index.newestRevert = l.index.newestRevert ∧
      ∀ turn, turn ≠ e.turn → l'.index.turns turn = l.index.turns turn := by
  cases res with
  | error err =>
    rw [append_index_error heq]
    exact ⟨rfl, fun _ _ => rfl⟩
  | ok stamped =>
    obtain ⟨hs, hnewest, start, stop, i, hi, hturns⟩ := h.append_index hr heq
    refine ⟨hnewest, fun turn hne => ?_⟩
    rw [hturns, Index.observe_turns hi, if_neg]
    rwa [hs, stamp_turn]

theorem hideCarrier_others {turn carrier : String} (hne : turn ≠ carrier) :
    (l.hideCarrier carrier).index.turns turn = l.index.turns turn := by
  rw [hideCarrier, Index.revert]
  exact Function.update_of_ne hne _ _

/-- A revert that fails touches the row of no turn of the log. -/
theorem Sound.revert_error_rows (h : Sound c l) {ticks : ℕ → Tick} {mint : String}
    (hnew : l.NewTurn mint) {fromTurn : String} {cause : TurnRevertCause} {kasMessageID : String}
    {announced : Option Entry} {err : LogError}
    (heq : l.revert c ticks mint fromTurn cause kasMessageID = (l', announced, .error err)) :
    l'.index.newestRevert = l.index.newestRevert ∧
      ∀ turn ∈ l.index.order, l'.index.turns turn = l.index.turns turn := by
  rw [EntryLog.revert] at heq
  cases hst : l.index.turns fromTurn with
  | none =>
    simp only [hst] at heq
    cases heq
    exact ⟨rfl, fun _ _ => rfl⟩
  | some st =>
    simp only [hst] at heq
    split at heq
    · cases heq
      exact ⟨rfl, fun _ _ => rfl⟩
    generalize l.index.revertWindow fromTurn = window at heq
    cases hs : l.index.newestSurviving window.1 with
    | some carrier =>
      simp only [hs] at heq
      rcases hreq : l.append c (ticks 0)
          (revertRecord fromTurn st.n window.2 cause kasMessageID carrier) with ⟨l₁, err₁ | record⟩
      · rw [hreq] at heq
        cases heq
        rw [append_index_error hreq]
        exact ⟨rfl, fun _ _ => rfl⟩
      · rw [hreq] at heq
        cases heq
    | none =>
      simp only [hs] at heq
      rcases hoeq : l.openTurnWithOrdinal c (ticks 0) mint { source := .revert }
          (l.index.survivingHighWater window.1 + 1) with ⟨l₁, err₁ | opening⟩
      · rw [hoeq] at heq
        cases heq
        rw [append_index_error hoeq]
        exact ⟨rfl, fun _ _ => rfl⟩
      obtain ⟨hturn, hopen⟩ := h.opens hnew hoeq
      rw [← hturn] at hopen
      have hfirst := h.append_others (by simp) hoeq
      simp only [hoeq] at heq
      rcases hceq : l₁.closeCarrier c (ticks 1) opening.turn with ⟨l₂, err₂ | closed⟩
      all_goals
        have hsecond := hopen.sound.append_others (e := carrierClose opening.turn) (by simp) hceq
        have hboth : l₂.index.newestRevert = l.index.newestRevert ∧
            ∀ turn, turn ≠ opening.turn → l₂.index.turns turn = l.index.turns turn := by
          refine ⟨hsecond.1.trans hfirst.1, fun turn hne => ?_⟩
          rw [hsecond.2 turn hne, hfirst.2 turn]
          change turn ≠ "t-" ++ mint
          rwa [← hturn]
        have hhidden : (l₂.hideCarrier opening.turn).index.newestRevert = l.index.newestRevert ∧
            ∀ turn ∈ l.index.order,
              (l₂.hideCarrier opening.turn).index.turns turn = l.index.turns turn := by
          refine ⟨hboth.1, fun turn hmem => ?_⟩
          have hne : turn ≠ opening.turn := fun heq => hopen.new (heq ▸ hmem)
          rw [hideCarrier_others hne, hboth.2 turn hne]
        simp only [hceq] at heq
      · cases heq
        exact hhidden
      · rcases hreq : l₂.append c (ticks 2)
            (revertRecord fromTurn st.n window.2 cause kasMessageID opening.turn) with
          ⟨l₃, err₃ | stamped⟩
        · simp only [hreq] at heq
          cases heq
          rw [hideCarrier, append_index_error hreq]
          exact hhidden
        · simp only [hreq] at heq
          cases heq

/-- A revert that fails leaves a log that shows the same. -/
theorem Sound.revert_beside (h : Sound c l) {ticks : ℕ → Tick} {mint : String}
    (hnew : l.NewTurn mint) {fromTurn : String} {cause : TurnRevertCause} {kasMessageID : String}
    {announced : Option Entry} {err : LogError}
    (heq : l.revert c ticks mint fromTurn cause kasMessageID = (l', announced, .error err)) :
    Beside c l l' ∧ l'.header = l.header := by
  obtain ⟨es, hext, hes⟩ := h.revert_error hnew heq
  obtain ⟨hnewest, hrows⟩ := h.revert_error_rows hnew heq
  refine ⟨⟨h, hext.sound, hext.survivors, ?_, ?_, hnewest⟩, hext.header⟩
  · intro turn hturn
    rw [hrows turn (List.mem_of_mem_filter hturn)]
  · have hnil : es.filter (fun e => e.turn ∈ l.index.survivingOrder) = [] := by
      rw [List.filter_eq_nil_iff]
      intro e he hmem
      exact hes e he (List.mem_of_mem_filter (of_decide_eq_true hmem))
    rw [hext.recorded, List.filter_append, hnil, List.append_nil]

/-! ## The latch -/

theorem append_latches {t : Tick} {e : Entry} {res : Except LogError Entry}
    (heq : l.append c t e = (l', res)) :
    l'.failed = l.failed ∨ res = .error .entryLogFailed := by
  unfold append at heq
  simp only at heq
  repeat' split at heq
  all_goals
    cases heq
    first
      | exact .inl rfl
      | exact .inr rfl

@[simp] theorem hideCarrier_failed (l : EntryLog) (turn : String) :
    (l.hideCarrier turn).failed = l.failed := rfl

/-- A revert that fails for any reason but a refused write leaves the log running. -/
theorem revert_latches {ticks : ℕ → Tick} {mint fromTurn : String} {cause : TurnRevertCause}
    {kasMessageID : String} {announced : Option Entry} {res : Except LogError Entry}
    (heq : l.revert c ticks mint fromTurn cause kasMessageID = (l', announced, res)) :
    l'.failed = l.failed ∨ res = .error .entryLogFailed := by
  rw [EntryLog.revert] at heq
  cases hst : l.index.turns fromTurn with
  | none =>
    simp only [hst] at heq
    cases heq
    exact .inl rfl
  | some st =>
    simp only [hst] at heq
    split at heq
    · cases heq
      exact .inl rfl
    generalize l.index.revertWindow fromTurn = window at heq
    cases hs : l.index.newestSurviving window.1 with
    | some carrier =>
      simp only [hs] at heq
      cases heq
      exact append_latches rfl
    | none =>
      simp only [hs] at heq
      rcases hoeq : l.openTurnWithOrdinal c (ticks 0) mint { source := .revert }
          (l.index.survivingHighWater window.1 + 1) with ⟨l₁, err₁ | opening⟩
      · simp only [hoeq] at heq
        cases heq
        simpa using append_latches hoeq
      have hfirst := (append_latches hoeq).resolve_right (by simp)
      simp only [hoeq] at heq
      rcases hceq : l₁.closeCarrier c (ticks 1) opening.turn with ⟨l₂, err₂ | closed⟩
      · simp only [hceq] at heq
        cases heq
        rw [← hfirst]
        simpa using append_latches hceq
      have hsecond := (append_latches hceq).resolve_right (by simp)
      simp only [hceq] at heq
      rcases hreq : l₂.append c (ticks 2)
          (revertRecord fromTurn st.n window.2 cause kasMessageID opening.turn) with
        ⟨l₃, err₃ | stamped⟩
      all_goals
        simp only [hreq] at heq
        cases heq
        rw [← hfirst, ← hsecond]
        simpa using append_latches hreq

theorem append_of_failed (hf : l.failed = true) (t : Tick) (e : Entry) :
    ∃ err, l.append c t e = (l, .error err) := by
  unfold append
  split
  · exact ⟨_, rfl⟩
  · exact ⟨_, rfl⟩

/-- A log that is latched keeps its file through every revert. -/
theorem revert_of_failed (hf : l.failed = true) {ticks : ℕ → Tick} {mint fromTurn : String}
    {cause : TurnRevertCause} {kasMessageID : String} {announced : Option Entry}
    {res : Except LogError Entry}
    (heq : l.revert c ticks mint fromTurn cause kasMessageID = (l', announced, res)) : l' = l := by
  rw [EntryLog.revert] at heq
  cases hst : l.index.turns fromTurn with
  | none =>
    simp only [hst] at heq
    cases heq
    rfl
  | some st =>
    simp only [hst] at heq
    split at heq
    · cases heq
      rfl
    generalize l.index.revertWindow fromTurn = window at heq
    cases hs : l.index.newestSurviving window.1 with
    | some carrier =>
      obtain ⟨err, happend⟩ := append_of_failed (c := c) hf (ticks 0)
        (revertRecord fromTurn st.n window.2 cause kasMessageID carrier)
      simp only [hs, happend] at heq
      cases heq
      rfl
    | none =>
      obtain ⟨err, happend⟩ := append_of_failed (c := c) hf (ticks 0)
        (turnOpenEntry mint { source := .revert } (l.index.survivingHighWater window.1 + 1))
      simp only [hs, openTurnWithOrdinal, happend] at heq
      cases heq
      rfl

/-! ## A reopen -/

/-- A log of the same index over the same lines, whatever its header, shows the same. -/
theorem Beside.of_eq {m m' : EntryLog} (h : Beside c l l') (hindex : m.index = l.index)
    (hfile : m.file.take m.index.size = l.file.take l.index.size) (hm : Sound c m)
    (hindex' : m'.index = l'.index)
    (hfile' : m'.file.take m'.index.size = l'.file.take l'.index.size) (hm' : Sound c m') :
    Beside c m m' := by
  have hrec : m.recorded c = l.recorded c := by rw [recorded, recorded, hfile]
  have hrec' : m'.recorded c = l'.recorded c := by rw [recorded, recorded, hfile']
  refine ⟨hm, hm', ?_, ?_, ?_, ?_⟩
  · rw [hindex, hindex', h.survivors]
  · rw [hindex, hindex']
    exact h.rows
  · rw [hindex, hrec, hrec', h.entries]
  · rw [hindex, hindex', h.newestRevert]

theorem Sound.setHeader (h : Sound c l) (header : LogHeader) :
    Sound c { l with header := header } := by
  obtain ⟨⟨b, r, hb⟩, hwf, hfile⟩ := h
  exact ⟨⟨b, r, hb.intact, hb.index_eq, hb.whole⟩, hwf, hfile⟩

/-- The scan of a running log's file is the log. -/
theorem Coherent.scanned_eq (h : Coherent c l) (hf : l.failed = false) (header : LogHeader)
    (cap : ℕ) : (scanned c l.file header cap).index = l.index ∧
      (scanned c l.file header cap).file = l.file := by
  obtain ⟨hindex, hsize⟩ := h.index_eq_rescan hf
  refine ⟨hindex.symm, ?_⟩
  change l.file.take (c.rescan l.file).size = l.file
  rw [← hindex, hsize, List.take_length]

theorem Beside.openTurns (h : Beside c l l') : l'.index.openTurns = l.index.openTurns := by
  rw [Index.openTurns, Index.openTurns, h.survivors]
  apply List.filter_congr
  intro turn hturn
  rw [h.map_row TurnState.closed (fun _ => rfl) hturn]

/-- Reopens of two logs that show the same, where both go through, show the same. -/
theorem Beside.reopen (h : Beside c l l') (hcoherent : Coherent c l) (hcoherent' : Coherent c l')
    (hf : l.failed = false) (hf' : l'.failed = false) {w : OpenWorld} {header : LogHeader} {cap : ℕ}
    {m m' : EntryLog} (hopen : openEntryLog c w l.file header cap = (m, .ok ()))
    (hopen' : openEntryLog c w l'.file header cap = (m', .ok ())) : Beside c m m' := by
  obtain ⟨hindex, hfile⟩ := hcoherent.scanned_eq hf header cap
  obtain ⟨hindex', hfile'⟩ := hcoherent'.scanned_eq hf' header cap
  have hscan : Beside c (scanned c l.file header cap) (scanned c l'.file header cap) := by
    apply h.of_eq hindex _ (sound_scanned h.sound.file header cap) hindex' _
      (sound_scanned h.sound'.file header cap)
    · rw [hfile, hindex]
    · rw [hfile', hindex']
  obtain ⟨l₁, hclose, hend⟩ := openEntryLog_eq_ok hopen
  obtain ⟨l₁', hclose', hend'⟩ := openEntryLog_eq_ok hopen'
  rw [hscan.openTurns] at hclose'
  have hclosed := hscan.closeUnterminated (fun t ht => List.mem_of_mem_filter ht) hclose hclose'
  obtain ⟨header₁, rfl, -⟩ := openEntryLog_header hend
  obtain ⟨header₁', rfl, -⟩ := openEntryLog_header hend'
  exact hclosed.of_eq rfl rfl (hclosed.sound.setHeader header₁) rfl rfl
    (hclosed.sound'.setHeader header₁')

/-- Every survivor holds a turn_close. -/
def AllClosed (l : EntryLog) : Prop :=
  ∀ id st, l.index.turns id = some st → st.reverted = false → st.closed = true

/-- A log behind one whose survivors are closed opens again and shows the same. -/
theorem Beside.reopen_closed (h : Beside c l l') (hcoherent' : Coherent c l')
    (hf' : l'.failed = false) (hclosed : l.AllClosed) {w : OpenWorld} (hw : w.caches = true) :
    ∃ m', openEntryLog c w l'.file l'.header l'.cap = (m', .ok ()) ∧ Beside c l m' := by
  have hclosed' : l'.AllClosed := by
    intro id st hst hrev
    have hmem : id ∈ l.index.survivingOrder := by
      rw [← h.survivors, Index.survivingOrder, List.mem_filter]
      refine ⟨?_, by simp [hst, hrev]⟩
      obtain ⟨b, r, hb⟩ := h.sound'.coherent
      rw [hb.index_eq, Index.live_order, hb.intact.folded.mem_order]
      rw [hb.index_eq, Index.live_turns, Option.map_eq_some_iff] at hst
      obtain ⟨st₀, hst₀, -⟩ := hst
      rw [hst₀]
      rfl
    have hflags := h.map_row (fun st => (st.reverted, st.closed)) (fun _ => rfl) hmem
    rw [hst, Option.map_some, eq_comm, Option.map_eq_some_iff] at hflags
    obtain ⟨st₁, hst₁, heq⟩ := hflags
    rw [Prod.mk.injEq] at heq
    rw [← heq.2]
    exact hclosed id st₁ hst₁ (heq.1.trans hrev)
  obtain ⟨m', hopen, hfile, hindex, -⟩ := hcoherent'.reopen hf' hclosed' w hw
  refine ⟨m', hopen, h.of_eq rfl rfl h.sound hindex (by rw [hfile, hindex]) ?_⟩
  exact (sound_scanned h.sound'.file _ _).grows (grows_openEntryLog hopen)

/-! ## What no reader sees -/

/-- What a revert that failed with an error changes for a reader: nothing in the running process;
where no write was refused, nothing behind a reopen that the log without the call would not show;
and nothing behind a reopen at all, where every survivor is closed. -/
structure Unseen (c : LineCodec) (l l' : EntryLog) (err : LogError) : Prop where
  running : SeenAlike c l l'
  reopened : err ≠ .entryLogFailed → ∀ w header cap m m',
    openEntryLog c w l.file header cap = (m, .ok ()) →
    openEntryLog c w l'.file header cap = (m', .ok ()) → SeenAlike c m m'
  closed : err ≠ .entryLogFailed → l.failed = false → l.AllClosed → ∀ w : OpenWorld,
    w.caches = true →
    ∃ m', openEntryLog c w l'.file l'.header l'.cap = (m', .ok ()) ∧ SeenAlike c l m'

/-- Of a log that opens and operations leave, a revert that fails changes nothing that a reader
sees. -/
theorem revert_failure_unseen {file : List UInt8} (hfile : LogFile c file) {w : OpenWorld}
    {header : LogHeader} {cap : ℕ} {l₀ : EntryLog}
    (hopen : openEntryLog c w file header cap = (l₀, .ok ())) {ss : List LogStep}
    (hss : l₀.OrderlyRun c ss) {ticks : ℕ → Tick} {mint fromTurn : String}
    {cause : TurnRevertCause} {kasMessageID : String}
    (hrevert : (l₀.steps c ss).Orderly c (.call (.revert ticks mint fromTurn cause kasMessageID)))
    {announced : Option Entry} {err : LogError}
    (heq : (l₀.steps c ss).revert c ticks mint fromTurn cause kasMessageID =
      (l', announced, .error err)) : Unseen c (l₀.steps c ss) l' err := by
  have hsound : Sound c (l₀.steps c ss) :=
    ((sound_scanned hfile.sound header cap).grows (grows_openEntryLog hopen)).steps
      hss.stepsOpenOnce
  have hcoherent : Coherent c (l₀.steps c ss) :=
    Coherent.steps (CoherentWith.openEntryLog Index.kept_true trivial hopen) hss
  have hcoherent' : Coherent c l' := by
    have hstep := hcoherent.step hrevert
    change Coherent c ((l₀.steps c ss).revert c ticks mint fromTurn cause kasMessageID).1 at hstep
    rwa [heq] at hstep
  have hbeside := (hsound.revert_beside hrevert.2 heq).1
  have hrunning : err ≠ .entryLogFailed → (l₀.steps c ss).failed = false → l'.failed = false := by
    intro herr hf
    rcases revert_latches heq with hsame | hlatch
    · rw [hsame, hf]
    · exact absurd (Except.error.inj hlatch) herr
  constructor
  · exact hbeside.seenAlike
  · intro herr w header cap m m' hm hm'
    cases hf : (l₀.steps c ss).failed with
    | false => exact (hbeside.reopen hcoherent hcoherent' hf (hrunning herr hf) hm hm').seenAlike
    | true =>
      rw [revert_of_failed hf heq, hm] at hm'
      cases hm'
      exact ((sound_scanned hsound.file header cap).grows
        (grows_openEntryLog hm)).beside_self.seenAlike
  · intro herr hf hclosed w hw
    obtain ⟨m', hm', hafter⟩ := hbeside.reopen_closed hcoherent' (hrunning herr hf) hclosed hw
    exact ⟨m', hm', hafter.seenAlike⟩

def settled : List LogStep :=
  [.call (.openTurn {} "a" { source := .prompt }), .call (.append {} (carrierClose "t-a"))]

/-- A turn that is closed and then reverted, where the call is cancelled before its record: the
carrier stays behind, closed and hidden. -/
theorem revert_failure_unseen_at_record :
    Unseen jsonLines ((new noHeader 0).steps jsonLines settled)
      (((new noHeader 0).steps jsonLines settled).revert jsonLines
        (fun i => { cancelled := i == 2 }) "b" "t-a" .rewind "").1 .cancelled := by
  have hopen : openEntryLog jsonLines {} [] noHeader 0 = (new noHeader 0, .ok ()) := rfl
  have herror : (((new noHeader 0).steps jsonLines settled).revert jsonLines
      (fun i => { cancelled := i == 2 }) "b" "t-a" .rewind "").2.2 = .error .cancelled := by
    decide +kernel
  have hrun : (new noHeader 0).OrderlyRun jsonLines settled := by
    change ((Unnamed jsonLines _ ("t-" ++ "a") ∧ _) ∧ NewTurn _ "a") ∧
      ((_ ∧ (EntryKind.turnClose = _ → _)) ∧ _) ∧ True
    exact ⟨⟨⟨by decide +kernel, by simp⟩, by decide +kernel⟩,
      ⟨⟨by decide, by simp⟩, by change Entry.kind _ ≠ .turnOpen; decide⟩, trivial⟩
  have hmint : ((new noHeader 0).steps jsonLines settled).Orderly jsonLines
      (.call (.revert (fun i => { cancelled := i == 2 }) "b" "t-a" .rewind "")) := by
    change Unnamed jsonLines _ ("t-" ++ "b") ∧ NewTurn _ "b"
    exact ⟨by decide +kernel, by decide +kernel⟩
  exact revert_failure_unseen .absent hopen hrun hmint
    (by rw [← herror])

/-- A revert of a turn the log does not hold fails, and a reopen shows something else. -/
def ReopensOtherwise (c : LineCodec) (l : EntryLog) : Prop := ∃ m',
  l.revert c (fun _ => {}) "b" "t-x" .rewind "" = (l, none, .error (.turnNotInLog "t-x")) ∧
    openEntryLog c {} l.file l.header l.cap = (m', .ok ()) ∧ ¬SeenAlike c l m'

def running : EntryLog :=
  (new noHeader 0).steps jsonLines [.call (.openTurn {} "a" { source := .prompt })]

def ownCarrier : EntryLog := (new noHeader 0).steps jsonLines
  [.call (.openTurn {} "a" { source := .revert }), .call (.append {} (carrierClose "t-a"))]

/-- A turn still running is closed by the reopen, and a `source: revert` turn that a caller opened
is hidden by it, as they would be without the call. -/
theorem reopen_shows_otherwise :
    ReopensOtherwise jsonLines running ∧ ReopensOtherwise jsonLines ownCarrier := by
  have hopen : (openEntryLog jsonLines {} running.file running.header running.cap).2 = .ok () := by
    decide +kernel
  have hopen' : (openEntryLog jsonLines {} ownCarrier.file ownCarrier.header
      ownCarrier.cap).2 = .ok () := by decide +kernel
  have hnone : running.index.turns "t-x" = none := by decide +kernel
  have hnone' : ownCarrier.index.turns "t-x" = none := by decide +kernel
  constructor
  · refine ⟨_, by simp only [revert, hnone], by rw [← hopen], fun hsame => ?_⟩
    have hrows := hsame.railRows
    revert hrows
    decide +kernel
  · refine ⟨_, by simp only [revert, hnone'], by rw [← hopen'], fun hsame => ?_⟩
    have hcounters := hsame.counters
    revert hcounters
    decide +kernel

end Marotte.EntryLog
