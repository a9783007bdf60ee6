import Marotte.Entry.Codec
import Marotte.EntryLog.Reads

/-! # Runs of an entry log

A run is any list of calls, each meeting contexts, clocks and writes of its own. Along
every run the index is the one a rescan of the file would build.
-/
namespace Marotte

/-- One call on a log, with what its appends meet and the id it would mint. -/
inductive LogOp where
  | openTurn (t : Tick) (mint : String) (spec : TurnSpec)
  | append (t : Tick) (e : Entry)
  | appendBetweenTurns (ticks : ℕ → Tick) (mint : String) (e : Entry)
  | appendReconciled (ticks : ℕ → Tick) (mint : String) (rec : EntryReconciled)
  | revert (ticks : ℕ → Tick) (mint : String) (fromTurn : String) (cause : TurnRevertCause)
      (kasMessageID : String)

namespace EntryLog

/-- The log of a root that holds no file yet. -/
def new (header : LogHeader) (cap : ℕ) : EntryLog where
  file := []
  index := .empty
  header := header
  cap := cap
  failed := false
  removed := false

variable (c : LineCodec)

def perform (l : EntryLog) : LogOp → EntryLog
  | .openTurn t mint spec => (l.openTurn c t mint spec).1
  | .append t e => (l.append c t e).1
  | .appendBetweenTurns ticks mint e => (l.appendBetweenTurns c ticks mint e).1
  | .appendReconciled ticks mint rec => (l.appendReconciled c ticks mint rec).1
  | .revert ticks mint fromTurn cause kasMessageID =>
    (l.revert c ticks mint fromTurn cause kasMessageID).1

def performAll (l : EntryLog) (ops : List LogOp) : EntryLog := ops.foldl (perform c) l

/-- The file names an id nowhere: as a turn, or as the end of a revert window. -/
def Unnamed (l : EntryLog) (id : String) : Prop := (c.scanFile l.file).Fresh id

instance (l : EntryLog) (id : String) : Decidable (l.Unnamed c id) :=
  inferInstanceAs (Decidable ((c.scanFile l.file).Fresh id))

/-- Not a turn_open, and a turn_revert only where it completes nothing: not in a carrier
left without its record. -/
def Fileable (l : EntryLog) (e : Entry) : Prop :=
  e.kind ≠ .turnOpen ∧ (e.kind = .turnRevert →
    ∀ st, l.index.turns e.turn = some st → st.incompleteCarrier = false)

/-- What a call must meet for the index to keep to the scan's: minted ids are unnamed so far,
no caller opens a `source: revert` turn, and a turn_revert is appended to no such turn that
still lacks its record. -/
def Admissible (l : EntryLog) : LogOp → Prop
  | .openTurn _ mint spec => l.Unnamed c ("t-" ++ mint) ∧ spec.source ≠ .revert
  | .append _ e => l.Fileable e
  | .appendBetweenTurns _ mint e =>
    l.Unnamed c ("t-" ++ mint) ∧ ∀ p, e.payload = .turnOpen p → p.source ≠ .revert
  | .appendReconciled _ mint _ => l.Unnamed c ("t-" ++ mint)
  | .revert _ mint _ _ _ => l.Unnamed c ("t-" ++ mint)

/-- Every call of a run is admissible where it is made. -/
def AdmissibleRun (l : EntryLog) : List LogOp → Prop
  | [] => True
  | op :: ops => l.Admissible c op ∧ (l.perform c op).AdmissibleRun ops

variable {c}

theorem Unnamed.fresh {l : EntryLog} {id : String} (h : l.Unnamed c id) {b : Index}
    {r : String → Bool} (hb : CoherentUnder c l b r) (hf : l.failed = false) : b.Fresh id :=
  hb.scanFile_eq hf ▸ h

theorem Unnamed.mints {P : Index → Prop} {l : EntryLog} {id : String} (h : l.Unnamed c id) :
    l.Mints P c id := fun _ hb _ hf => h.fresh hb hf

/-- The flags of a coherent log are those the record gives. -/
def Coherent (c : LineCodec) (l : EntryLog) : Prop := CoherentWith (fun _ => True) c l

theorem CoherentUnder.incomplete_eq {l : EntryLog} {b : Index} {r : String → Bool}
    (h : CoherentUnder c l b r) {id : String}
    (hc : ∀ st, l.index.turns id = some st → st.incompleteCarrier = false) :
    b.incomplete id = false := by
  unfold Index.incomplete
  cases hst : b.turns id with
  | none => rfl
  | some st =>
    have := hc (st.setReverted (r id)) (by simp [h.index_eq, Index.live_turns, hst])
    simpa using this

/-- An append of any entry but a turn_open, a stated turn_revert included. -/
theorem Coherent.append {l : EntryLog} {e : Entry} (h : Coherent c l) (hfile : l.Fileable e)
    (t : Tick) : Coherent c (l.append c t e).1 := by
  obtain ⟨b, hb, -⟩ := h
  rcases hb.append t e with ⟨l', err, heq, hl'⟩ | ⟨l', b', heq, -, hobs, hl'⟩
  · rw [heq]
    exact ⟨b, hl', trivial⟩
  · rw [heq]
    have hr : (l.stamp t e).kind = .turnRevert → b.incomplete (l.stamp t e).turn = false := by
      intro hk
      exact hb.incomplete_eq (hfile.2 (by simpa using hk))
    have hflags := Index.flagsAfter_hidden (by simpa using hfile.1) hr hobs
    exact ⟨b', hflags ▸ hl', trivial⟩

/-- An entry filed in a turn the record does not hide, unless it makes that turn a carrier. -/
theorem CoherentUnder.append_visible {l : EntryLog} {b : Index}
    (h : CoherentUnder c l b b.hidden) (e : Entry) (hm : e.turn ∈ b.order)
    (hv : b.hidden e.turn = false) (ho : ∀ p, e.payload = .turnOpen p → p.source ≠ .revert)
    (t : Tick) : Coherent c (l.append c t e).1 := by
  rw [Index.hidden, Bool.or_eq_false_iff] at hv
  rcases h.append t e with ⟨l', err, heq, hl'⟩ | ⟨l', b', heq, -, hobs, hl'⟩
  · rw [heq]
    exact ⟨b, hl', trivial⟩
  rw [heq]
  by_cases hk : e.kind = .turnOpen
  · obtain ⟨p, hp⟩ := Entry.kind_eq_turnOpen.mp hk
    have hps : (l.stamp t e).payload = .turnOpen p := by rw [stamp_payload, hp]; rfl
    have hh := (Index.hidden_turnOpen hps ⟨hv.1, .inl hm⟩ hobs).1
    have hsrc : (p.source == .revert) = false := by simpa using ho p hp
    have hflags : b.flagsAfter b.hidden (l.stamp t e) = b'.hidden := by
      rw [hh, hsrc]
      simp only [Index.flagsAfter, hps]
    exact ⟨b', hflags ▸ hl', trivial⟩
  · have hflags := Index.flagsAfter_hidden (by simpa using hk) (fun _ => by simpa using hv.2) hobs
    exact ⟨b', hflags ▸ hl', trivial⟩

theorem Coherent.appendBetweenTurns {l : EntryLog} {mint : String} {e : Entry}
    (h : Coherent c l) (hid : l.Unnamed c ("t-" ++ mint))
    (ho : ∀ p, e.payload = .turnOpen p → p.source ≠ .revert) (ticks : ℕ → Tick) :
    Coherent c (l.appendBetweenTurns c ticks mint e).1 := by
  obtain ⟨b, hb, -⟩ := h
  unfold EntryLog.appendBetweenTurns
  cases hs : l.index.newestSurviving [] with
  | some turn =>
    obtain ⟨hm, -, hv⟩ := hb.newestSurviving hs
    exact hb.append_visible { e with turn := turn } hm hv ho (ticks 0)
  | none =>
    unfold EntryLog.openTurn
    rcases hb.openTurn (hid.fresh hb) (ticks 0) { source := .event } (l.index.turnCount + 1) with
      ⟨l', err, heq, hl'⟩ | ⟨l', b', opened, heq, hopened, -, hobs, hh, hl'⟩
    · simp only [heq]
      exact ⟨b, hl', trivial⟩
    · have hturn : opened.turn = "t-" ++ mint := by rw [hopened]; rfl
      have hk : opened.kind = .turnOpen := by rw [hopened]; simp
      have hflags : CoherentUnder c l' b' b'.hidden := by rw [hh]; exact hl'
      have hv : b'.hidden opened.turn = false := by rw [hh, hturn, Function.update_self]; rfl
      have hm : opened.turn ∈ b'.order := by
        rw [Index.observeLine_order_turnOpen hk hobs]
        simp
      simp only [heq]
      exact hflags.append_visible { e with turn := opened.turn } hm hv ho (ticks 1)

theorem Coherent.perform {l : EntryLog} {op : LogOp} (h : Coherent c l)
    (hop : l.Admissible c op) : Coherent c (l.perform c op) := by
  cases op with
  | openTurn t mint spec => exact CoherentWith.openTurn Index.kept_true h hop.1.mints spec hop.2 t
  | append t e => exact h.append hop t
  | appendBetweenTurns ticks mint e => exact h.appendBetweenTurns hop.1 hop.2 ticks
  | appendReconciled ticks mint rec =>
    exact CoherentWith.appendReconciled Index.kept_true h (Unnamed.mints hop) ticks rec
  | revert ticks mint fromTurn cause kasMessageID =>
    exact CoherentWith.revert Index.kept_true h (Unnamed.mints hop) ticks fromTurn cause kasMessageID

theorem Coherent.performAll {l : EntryLog} {ops : List LogOp} (h : Coherent c l)
    (hops : l.AdmissibleRun c ops) : Coherent c (l.performAll c ops) := by
  induction ops generalizing l with
  | nil => exact h
  | cons op ops ih => exact ih (h.perform hops.1) hops.2

theorem Coherent.index_eq_rescan {l : EntryLog} (h : Coherent c l) (hf : l.failed = false) :
    l.index = c.rescan l.file ∧ l.index.size = l.file.length := by
  obtain ⟨b, hb, -⟩ := h
  have hi := hb.intact
  rw [hb.whole hf, List.take_length] at hi
  rw [hi.rescan_eq, hb.index_eq]
  exact ⟨rfl, hb.whole hf⟩

/-- Two logs answer every read alike. -/
structure AnswersAlike (c : LineCodec) (l l' : EntryLog) : Prop where
  all : l.all c = l'.all c
  allWithReverted : l.allWithReverted c = l'.allWithReverted c
  window : ∀ turns before, l.window c turns before = l'.window c turns before
  turnRange : ∀ turn fromSeq, l.turnRange c turn fromSeq = l'.turnRange c turn fromSeq
  turnPage : ∀ turn fromSeq, l.turnPage c turn fromSeq = l'.turnPage c turn fromSeq
  newestSeq : ∀ turn, l.newestSeq turn = l'.newestSeq turn
  railRows : l.railRows = l'.railRows
  counters : l.index.counters = l'.index.counters
  newestRevert : l.newestRevert = l'.newestRevert
  reconcileTargets : l.reconcileTargets = l'.reconcileTargets
  needsReconcile : l.needsReconcile = l'.needsReconcile

/-- The signals are read off the index and the header's policy. -/
theorem reconcileTargets_congr {l l' : EntryLog} (hindex : l.index = l'.index)
    (hrec : l.header.reconcilable = l'.header.reconcilable)
    (hsession : l.header.sessionID = l'.header.sessionID) :
    l.reconcileTargets = l'.reconcileTargets := by
  have hsig : l.signalled = l'.signalled := by
    funext id
    rw [signalled, signalled, hindex]
  rw [EntryLog.reconcileTargets, EntryLog.reconcileTargets, hsig, hindex, hrec,
    unadoptedSession, unadoptedSession, hindex, hsession]

theorem needsReconcile_congr {l l' : EntryLog} (hindex : l.index = l'.index)
    (hrec : l.header.reconcilable = l'.header.reconcilable)
    (hsession : l.header.sessionID = l'.header.sessionID) :
    l.needsReconcile = l'.needsReconcile := by
  rw [EntryLog.needsReconcile, EntryLog.needsReconcile, reconcileTargets_congr hindex hrec hsession]

theorem answersAlike_of_eq {l l' : EntryLog} (hfile : l.file = l'.file) (hindex : l.index = l'.index)
    (hrec : l.header.reconcilable = l'.header.reconcilable)
    (hsession : l.header.sessionID = l'.header.sessionID) : AnswersAlike c l l' := by
  have hset : ∀ set, l.readSet c set = l'.readSet c set := by
    intro set
    rw [readSet, readSet, hfile, hindex]
  have hrange : ∀ turn fromSeq, l.turnRange c turn fromSeq = l'.turnRange c turn fromSeq := by
    intro turn fromSeq
    rw [EntryLog.turnRange, EntryLog.turnRange, hindex, hset]
  constructor
  · rw [EntryLog.all, EntryLog.all, hset, hindex]
  · rw [EntryLog.allWithReverted, EntryLog.allWithReverted, hset, revertedTurns, revertedTurns, hindex]
  · intro turns before
    simp only [EntryLog.window, hset, hindex]
  · exact hrange
  · intro turn fromSeq
    rw [EntryLog.turnPage, EntryLog.turnPage, hrange]
  · intro turn
    rw [EntryLog.newestSeq, EntryLog.newestSeq, hindex]
  · rw [EntryLog.railRows, EntryLog.railRows, hindex]
  · rw [hindex]
  · rw [EntryLog.newestRevert, EntryLog.newestRevert, hindex]
  · exact reconcileTargets_congr hindex hrec hsession
  · exact needsReconcile_congr hindex hrec hsession

theorem openTurns_eq_nil {idx : Index}
    (h : ∀ id st, idx.turns id = some st → st.reverted = false → st.closed = true) :
    idx.openTurns = [] := by
  rw [Index.openTurns, List.filter_eq_nil_iff]
  intro id hid
  have hrev := (List.mem_filter.mp hid).2
  cases hst : idx.turns id with
  | none => simp
  | some st => simp [h id st hst (by simpa [hst] using hrev)]

theorem cacheCounters_policy {h h' : LogHeader} {caches : Bool} {counters : ℕ × TurnOutcome}
    (heq : h.cacheCounters caches counters = .ok h') :
    h'.reconcilable = h.reconcilable ∧ h'.sessionID = h.sessionID ∧
      h'.closerModel = h.closerModel := by
  unfold LogHeader.cacheCounters at heq
  split at heq
  · cases heq
    simp
  split at heq
  · cases heq
  split at heq <;> · cases heq; simp

theorem cacheCounters_ok (h : LogHeader) (counters : ℕ × TurnOutcome) :
    ∃ h', h.cacheCounters true counters = .ok h' := by
  unfold LogHeader.cacheCounters
  split
  · exact ⟨_, rfl⟩
  · simp only [Bool.not_true, Bool.false_eq_true, if_false]
    split <;> exact ⟨_, rfl⟩

/-- A log whose survivors are all closed opens again as it was: nothing is cut or written. -/
theorem Coherent.reopen {l : EntryLog} (h : Coherent c l) (hf : l.failed = false)
    (hclosed : ∀ id st, l.index.turns id = some st → st.reverted = false → st.closed = true)
    (w : OpenWorld) (hw : w.caches = true) :
    ∃ l', openEntryLog c w l.file l.header l.cap = (l', .ok ()) ∧
      l'.file = l.file ∧ l'.index = l.index ∧ AnswersAlike c l l' := by
  obtain ⟨hindex, hsize⟩ := h.index_eq_rescan hf
  have hscan : (scanned c l.file l.header l.cap).index = l.index := hindex.symm
  have hfile : (scanned c l.file l.header l.cap).file = l.file := by
    rw [scanned, ← hindex, hsize, List.take_length]
  have hopen := openTurns_eq_nil hclosed
  have hheader : (scanned c l.file l.header l.cap).header = l.header := rfl
  unfold openEntryLog
  simp only [hscan, hsize, Nat.lt_irrefl, false_and, if_false, hopen, closeUnterminated]
  split
  · exact ⟨_, rfl, hfile, hscan, answersAlike_of_eq hfile.symm hscan.symm rfl rfl⟩
  · obtain ⟨h', hh'⟩ := cacheCounters_ok l.header l.index.counters
    obtain ⟨hr, hs, -⟩ := cacheCounters_policy hh'
    have hwrite : (scanned c l.file l.header l.cap).writeCounters w.caches =
        ({ scanned c l.file l.header l.cap with header := h' }, .ok ()) := by
      have hcache : (scanned c l.file l.header l.cap).header.cacheCounters w.caches
          (scanned c l.file l.header l.cap).index.counters = .ok h' := by
        rw [hscan, hheader, hw]
        exact hh'
      simp only [writeCounters, hcache]
    exact ⟨_, hwrite, hfile, hscan, answersAlike_of_eq hfile.symm hscan.symm hr.symm hs.symm⟩

/-- From any log an open served, over any run that does not latch it: the index is the one a
rescan builds from the file, and once every survivor is closed a reopen answers alike. -/
theorem incremental_index {w : OpenWorld} {file : List UInt8} {header : LogHeader} {cap : ℕ}
    {l : EntryLog} {ops : List LogOp} (hopen : openEntryLog c w file header cap = (l, .ok ()))
    (hops : l.AdmissibleRun c ops) (hf : (l.performAll c ops).failed = false) :
    (l.performAll c ops).index = c.rescan (l.performAll c ops).file ∧
      ((∀ id st, (l.performAll c ops).index.turns id = some st → st.reverted = false →
          st.closed = true) →
        ∀ w' : OpenWorld, w'.caches = true → ∃ l',
          openEntryLog c w' (l.performAll c ops).file (l.performAll c ops).header
            (l.performAll c ops).cap = (l', .ok ()) ∧
          AnswersAlike c (l.performAll c ops) l') := by
  have h : Coherent c (l.performAll c ops) :=
    Coherent.performAll (CoherentWith.openEntryLog Index.kept_true trivial hopen) hops
  refine ⟨(h.index_eq_rescan hf).1, fun hclosed w' hw' => ?_⟩
  obtain ⟨l', hl', -, -, halike⟩ := h.reopen hf hclosed w' hw'
  exact ⟨l', hl', halike⟩

/-- A run that opens a turn, writes in it, and reverts it through a carrier it mints. -/
theorem incremental_index_of_revert :
    let l := (new noHeader 0).performAll jsonLines
      [.openTurn {} "a" { source := .prompt },
        .append {} { id := "s1", turn := "t-a", payload := .text { text := "hello" } },
        .revert (fun _ => {}) "b" "t-a" .rewind "k1"]
    l.index = jsonLines.rescan l.file ∧
      ((∀ id st, l.index.turns id = some st → st.reverted = false → st.closed = true) →
        ∀ w' : OpenWorld, w'.caches = true → ∃ l',
          openEntryLog jsonLines w' l.file l.header l.cap = (l', .ok ()) ∧
          AnswersAlike jsonLines l l') := by
  have hopen : openEntryLog jsonLines {} [] noHeader 0 = (new noHeader 0, .ok ()) := rfl
  refine incremental_index hopen
    ⟨⟨by decide +kernel, by decide⟩, ⟨by decide, fun h => by cases h⟩, ?_, trivial⟩
    (by decide +kernel)
  change Unnamed jsonLines _ ("t-" ++ "b")
  decide +kernel

/-- The runs the law leaves out: a caller's own `source: revert` turn, a turn_revert filed in the
carrier a failed revert left, and such a turn_open filed between turns. None latches the log. -/
theorem irregular_run_leaves_rescan :
    (let l := (new noHeader 0).performAll jsonLines [.openTurn {} "a" { source := .revert }]
     l.failed = false ∧ l.index ≠ jsonLines.rescan l.file) ∧
    (let l := (new noHeader 0).performAll jsonLines
        [.openTurn {} "a" { source := .prompt },
          .revert (fun i => { cancelled := i == 2 }) "b" "t-a" .rewind "",
          .append {}
            { id := "r"
              turn := "t-b"
              payload := .turnRevert { fromTurn := "t-x", through := "t-x" } }]
     l.failed = false ∧ l.index ≠ jsonLines.rescan l.file) ∧
    (let l := (new noHeader 0).performAll jsonLines
        [.openTurn {} "a" { source := .prompt },
          .appendBetweenTurns (fun _ => {}) "b"
            { id := "x", turn := "", payload := .turnOpen { source := .revert, n := 1 } }]
     l.failed = false ∧ l.index ≠ jsonLines.rescan l.file) := by
  refine ⟨⟨by decide +kernel, fun h => ?_⟩, ⟨by decide +kernel, fun h => ?_⟩,
    by decide +kernel, fun h => ?_⟩
  · have hflag := congrArg (fun i : Index => (i.turns "t-a").map TurnState.reverted) h
    revert hflag
    decide +kernel
  · have hflag := congrArg (fun i : Index => (i.turns "t-b").map TurnState.reverted) h
    revert hflag
    decide +kernel
  · have hflag := congrArg (fun i : Index => (i.turns "t-a").map TurnState.reverted) h
    revert hflag
    decide +kernel

end EntryLog

end Marotte
