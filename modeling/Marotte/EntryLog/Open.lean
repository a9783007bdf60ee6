import Marotte.EntryLog.Operations

/-! # Opening an entry log

The scan drops a tail it cannot read; every survivor left open is then closed, its
unsettled calls aborted first, and the header is handed the log's counters.
-/
namespace Marotte

/-- What one open meets beside its appends: the truncation of a tail, and the header. The
ticks are those of each closed turn's appends, in order. -/
structure OpenWorld where
  truncates : Bool := true
  caches : Bool := true
  ticks : ℕ → ℕ → Tick := fun _ _ => {}

/-- Caches the counters, writing only when the header disagrees; a root without a header
holds none. -/
def LogHeader.cacheCounters (h : LogHeader) (caches : Bool) (counters : ℕ × TurnOutcome) :
    Except LogError LogHeader :=
  if !h.reconcilable then .ok h
  else if !caches then .error .cacheCounters
  else if h.turnCount = counters.1 ∧ h.lastTurnOutcome = counters.2 then .ok h
  else .ok { h with turnCount := counters.1, lastTurnOutcome := counters.2 }

def abortedResult (turn : String) (call : EntryCall) : Entry where
  id := toolResultID call.id
  turn := turn
  lane := call.lane
  payload := .toolResult { status := .aborted }

def unterminatedClose (turn model : String) (elapsed : ℤ) : Entry where
  id := turn ++ ":unterminated"
  turn := turn
  payload := .turnClose
    { outcome := .interrupted
      stopReasonRaw := stopReasonUnterminated
      model := model
      elapsedMs := .ofInt elapsed }

@[simp] theorem abortedResult_kind (turn : String) (call : EntryCall) :
    (abortedResult turn call).kind = .toolResult := rfl

@[simp] theorem unterminatedClose_kind (turn model : String) (elapsed : ℤ) :
    (unterminatedClose turn model elapsed).kind = .turnClose := rfl

namespace EntryLog

variable (c : LineCodec)

/-- Appends one entry after the other until the first that is refused. -/
def appendAll (ticks : ℕ → Tick) (l : EntryLog) : List Entry → EntryLog × Except LogError Unit
  | [] => (l, .ok ())
  | e :: es =>
    match l.append c (ticks 0) e with
    | (l, .error err) => (l, .error err)
    | (l, .ok _) => l.appendAll (fun i => ticks (i + 1)) es

/-- One unterminated turn's aborted results and its closer. The elapsed time runs to the row's
newest entry, which by then is the last aborted result. -/
def synthesizeClose (ticks : ℕ → Tick) (l : EntryLog) (turn model : String) :
    EntryLog × Except LogError Unit :=
  let calls := ((l.index.turns turn).map TurnState.unsettled).getD []
  match l.appendAll c ticks (calls.map (abortedResult turn)) with
  | (l, .error err) => (l, .error err)
  | (l, .ok ()) =>
    let elapsed := ((l.index.turns turn).map (fun st => st.lastTs - st.openTs)).getD 0
    match l.append c (ticks calls.length) (unterminatedClose turn model elapsed) with
    | (l, .error err) => (l, .error err)
    | (l, .ok _) => (l, .ok ())

def closeUnterminated (ticks : ℕ → ℕ → Tick) (l : EntryLog) (model : String) :
    List String → EntryLog × Except LogError Unit
  | [] => (l, .ok ())
  | turn :: turns =>
    match l.synthesizeClose c (ticks 0) turn model with
    | (l, .error err) => (l, .error err)
    | (l, .ok ()) => l.closeUnterminated (fun i => ticks (i + 1)) model turns

def writeCounters (caches : Bool) (l : EntryLog) : EntryLog × Except LogError Unit :=
  match l.header.cacheCounters caches l.index.counters with
  | .error err => (l, .error err)
  | .ok header => ({ l with header := header }, .ok ())

/-- The log as the scan leaves it: its index, and the file cut where the scan stopped. -/
def scanned (file : List UInt8) (header : LogHeader) (cap : ℕ) : EntryLog where
  file := file.take (c.rescan file).size
  index := c.rescan file
  header := header
  cap := cap
  failed := false
  removed := false

end EntryLog

/-- Opens the log of a file: the scan, the closers, the counters. On an error no log is
served, and the file is what was left of it by then. -/
def openEntryLog (c : LineCodec) (w : OpenWorld) (file : List UInt8) (header : LogHeader)
    (cap : ℕ) : EntryLog × Except LogError Unit :=
  let l := EntryLog.scanned c file header cap
  if l.index.size < file.length ∧ w.truncates = false then
    ({ l with file := file }, .error .truncateTail)
  else
    match l.closeUnterminated c w.ticks l.header.closerModel l.index.openTurns with
    | (l, .error err) => (l, .error err)
    | (l, .ok ()) => if l.index.order = [] then (l, .ok ()) else l.writeCounters w.caches

namespace EntryLog

variable {c : LineCodec}

theorem rescan_size (file : List UInt8) : (c.rescan file).size = (c.scanFile file).size := by
  rw [LineCodec.rescan, Index.markIncompleteCarriers_eq_marked, Index.applyReverts_eq_marked]
  rfl

theorem coherentUnder_scanned (c : LineCodec) (file : List UInt8) (header : LogHeader) (cap : ℕ) :
    CoherentUnder c (scanned c file header cap) (c.scanFile file) (c.scanFile file).hidden := by
  have hi : c.Intact (file.take (c.scanFile file).size) (c.scanFile file) :=
    LineCodec.intact_scanFile file
  refine ⟨?_, ?_, ?_⟩
  · simpa [scanned, rescan_size, List.take_take] using hi
  · exact Index.resolve_eq_live hi.folded
  · intro _
    rw [scanned, rescan_size]
    exact hi.size_eq

variable {P : Index → Prop}

theorem CoherentWith.appendAll (hP : Index.Kept P) {l : EntryLog} {es : List Entry}
    (h : CoherentWith P c l) (hes : ∀ e ∈ es, e.kind ≠ .turnOpen ∧ e.kind ≠ .turnRevert)
    (ticks : ℕ → Tick) : CoherentWith P c (l.appendAll c ticks es).1 := by
  induction es generalizing l ticks with
  | nil => exact h
  | cons e es ih =>
    have he := hes e (by simp)
    have happ := h.append hP he.1 he.2 (ticks 0)
    unfold EntryLog.appendAll
    rcases heq : l.append c (ticks 0) e with ⟨l', err | stamped⟩
    · simpa [heq] using happ
    · rw [heq] at happ
      exact ih happ (fun e he => hes e (List.mem_cons_of_mem _ he)) _

theorem CoherentWith.synthesizeClose (hP : Index.Kept P) {l : EntryLog} (h : CoherentWith P c l)
    (ticks : ℕ → Tick) (turn model : String) :
    CoherentWith P c (l.synthesizeClose c ticks turn model).1 := by
  unfold EntryLog.synthesizeClose
  simp only
  generalize ((l.index.turns turn).map TurnState.unsettled).getD [] = calls
  have hkinds : ∀ e ∈ calls.map (abortedResult turn), e.kind ≠ .turnOpen ∧ e.kind ≠ .turnRevert := by
    intro e he
    obtain ⟨call, -, rfl⟩ := List.mem_map.mp he
    simp
  have hres := h.appendAll hP hkinds ticks
  rcases heq : l.appendAll c ticks (calls.map (abortedResult turn)) with ⟨l₁, err | ⟨⟩⟩
  · rwa [heq] at hres
  rw [heq] at hres
  simp only
  generalize ((l₁.index.turns turn).map (fun st => st.lastTs - st.openTs)).getD 0 = elapsed
  have hclose := hres.append hP (e := unterminatedClose turn model elapsed) (by simp) (by simp)
    (ticks calls.length)
  rcases hceq : l₁.append c (ticks calls.length) (unterminatedClose turn model elapsed) with
    ⟨l₂, err | stamped⟩ <;> rwa [hceq] at hclose

theorem CoherentWith.closeUnterminated (hP : Index.Kept P) {l : EntryLog}
    (h : CoherentWith P c l) (ticks : ℕ → ℕ → Tick) (model : String) (turns : List String) :
    CoherentWith P c (l.closeUnterminated c ticks model turns).1 := by
  induction turns generalizing l ticks with
  | nil => exact h
  | cons turn turns ih =>
    have hclose := h.synthesizeClose hP (ticks 0) turn model
    unfold EntryLog.closeUnterminated
    rcases heq : l.synthesizeClose c (ticks 0) turn model with ⟨l', err | ⟨⟩⟩
    · rwa [heq] at hclose
    · rw [heq] at hclose
      exact ih hclose _

theorem CoherentWith.writeCounters {l : EntryLog} (h : CoherentWith P c l) (caches : Bool) :
    CoherentWith P c (l.writeCounters caches).1 := by
  obtain ⟨b, hb, hPb⟩ := h
  unfold EntryLog.writeCounters
  split
  · exact ⟨b, hb, hPb⟩
  · exact ⟨b, ⟨hb.intact, hb.index_eq, hb.whole⟩, hPb⟩

/-- An open that serves a log closed every turn it had to, and cached the counters. -/
theorem openEntryLog_eq_ok {w : OpenWorld} {file : List UInt8} {header : LogHeader} {cap : ℕ}
    {l : EntryLog} (h : openEntryLog c w file header cap = (l, .ok ())) :
    ∃ l₁, (scanned c file header cap).closeUnterminated c w.ticks header.closerModel
        (scanned c file header cap).index.openTurns = (l₁, .ok ()) ∧
      (l₁.index.order = [] ∧ l = l₁ ∨ l₁.writeCounters w.caches = (l, .ok ())) := by
  unfold Marotte.openEntryLog at h
  simp only at h
  split at h
  · cases h
  split at h
  · cases h
  · rename_i l₁ heq
    refine ⟨l₁, heq, ?_⟩
    split at h
    · rename_i hnil
      cases h
      exact .inl ⟨hnil, rfl⟩
    · exact .inr h

/-- An open that serves a log keeps what its scan answers. -/
theorem CoherentWith.openEntryLog (hP : Index.Kept P) {w : OpenWorld} {file : List UInt8}
    {header : LogHeader} {cap : ℕ} {l : EntryLog} (hfile : P (c.scanFile file))
    (h : openEntryLog c w file header cap = (l, .ok ())) : CoherentWith P c l := by
  have hscan : CoherentWith P c (scanned c file header cap) :=
    ⟨_, coherentUnder_scanned c file header cap, hfile⟩
  have hclose := hscan.closeUnterminated hP w.ticks header.closerModel
    (scanned c file header cap).index.openTurns
  obtain ⟨l₁, heq, ⟨-, rfl⟩ | hcache⟩ := openEntryLog_eq_ok h
  · rwa [heq] at hclose
  · rw [heq] at hclose
    have hwrite := hclose.writeCounters w.caches
    rwa [hcache] at hwrite

end EntryLog

end Marotte
