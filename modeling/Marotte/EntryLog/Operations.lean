import Marotte.EntryLog.Coherence

/-! # Operations on a coherent log

Every operation is a chain of appends. What each appends is one of four shapes, and a
property of the fold that the four keep is kept by every operation, a failed one included.
-/
namespace Marotte

namespace Index

/-- The ordinal the next turn draws while the flags are those the record gives. -/
def nextOrdinal (b : Index) : ℕ := (b.live b.hidden).turnCount + 1

/-- The record a revert appends: into a survivor outside the window it states, or into the
carrier just minted behind a window that leaves no other survivor. -/
inductive Records (b : Index) (turn : String) (p : EntryTurnRevert) : Prop
  | survivor (hfrom : p.fromTurn ∈ b.order) (hlast : b.order.getLast? = some p.through)
      (hmem : turn ∈ b.order) (hout : turn ∉ b.order.drop (b.order.idxOf p.fromTurn))
      (hvisible : b.hidden turn = false)
  | minted (older : List String) (horder : b.order = older ++ [turn]) (hnew : turn ∉ older)
      (hfrom : p.fromTurn ∈ older) (hlast : older.getLast? = some p.through)
      (hnone : ∀ id ∈ older, b.hidden id = true ∨ id ∈ older.drop (older.idxOf p.fromTurn))
      (hhidden : b.hidden turn = true) (hfree : b.taken turn = false)
      (hordinal : b.ordinal turn = 1)

/-- A property of the fold that every line an operation appends keeps. -/
structure Kept (P : Index → Prop) : Prop where
  entry : ∀ {b b' : Index} {e : Entry} {len : ℕ}, b.Folded → P b → e.kind ≠ .turnOpen →
    e.kind ≠ .turnRevert → b.observeLine e len = some b' → P b'
  opens : ∀ {b b' : Index} {e : Entry} {p : EntryTurnOpen} {len : ℕ}, b.Folded → P b →
    e.payload = .turnOpen p → b.Fresh e.turn →
    (if p.source = .revert then p.n = 1 else p.n = b.nextOrdinal) →
    b.observeLine e len = some b' → P b'
  record : ∀ {b b' : Index} {e : Entry} {p : EntryTurnRevert} {len : ℕ}, b.Folded → P b →
    e.payload = .turnRevert p → b.Records e.turn p → b.observeLine e len = some b' → P b'

/-- With no survivor outside the turns named, the high-water they leave is zero. -/
theorem survivingHighWater_eq_zero {b : Index} {excluding : List String}
    (h : b.newestSurviving excluding = none) : b.survivingHighWater excluding = 0 := by
  have hnil : b.survivingOrder.filter (fun id => !excluding.contains id) = [] := by
    rw [List.filter_eq_nil_iff]
    intro id hid hout
    obtain ⟨hm, hv⟩ := List.mem_filter.mp hid
    have hgone := List.find?_eq_none.mp h id (by simpa using hm)
    simp_all
  rw [survivingHighWater, hnil, List.foldl_nil]

theorem kept_true : Kept (fun _ => True) := ⟨fun _ _ _ _ _ => trivial, fun _ _ _ _ _ _ => trivial,
  fun _ _ _ _ _ => trivial⟩

end Index

namespace EntryLog

/-- A log whose flags are those its record gives, with a property of its fold. -/
def CoherentWith (P : Index → Prop) (c : LineCodec) (l : EntryLog) : Prop :=
  ∃ b, CoherentUnder c l b b.hidden ∧ P b

/-- A minted id is one the fold has not met, while the log still takes appends. -/
def Mints (P : Index → Prop) (c : LineCodec) (l : EntryLog) (id : String) : Prop :=
  ∀ b, CoherentUnder c l b b.hidden → P b → l.failed = false → b.Fresh id

variable {c : LineCodec} {P : Index → Prop}

theorem CoherentUnder.turnCount_eq {l : EntryLog} {b : Index} (h : CoherentUnder c l b b.hidden) :
    l.index.turnCount + 1 = b.nextOrdinal := by
  rw [Index.nextOrdinal, h.index_eq]

/-- An append of an entry that is neither a turn_open nor a turn_revert. -/
theorem CoherentWith.append (hP : Index.Kept P) {l : EntryLog} {e : Entry}
    (h : CoherentWith P c l) (ho : e.kind ≠ .turnOpen) (hr : e.kind ≠ .turnRevert) (t : Tick) :
    CoherentWith P c (l.append c t e).1 := by
  obtain ⟨b, hb, hPb⟩ := h
  rcases hb.append t e with ⟨l', err, heq, hl'⟩ | ⟨l', b', heq, -, hobs, hl'⟩
  · rw [heq]
    exact ⟨b, hl', hPb⟩
  · have ho' : (l.stamp t e).kind ≠ .turnOpen := by simpa using ho
    have hr' : (l.stamp t e).kind ≠ .turnRevert := by simpa using hr
    have hflags := Index.flagsAfter_hidden ho' (fun hk => absurd hk hr') hobs
    rw [heq]
    exact ⟨b', hflags ▸ hl', hP.entry hb.intact.folded hPb ho' hr' hobs⟩

theorem CoherentWith.openTurn (hP : Index.Kept P) {l : EntryLog} {mint : String}
    (h : CoherentWith P c l) (hid : l.Mints P c ("t-" ++ mint)) (spec : TurnSpec)
    (hs : spec.source ≠ .revert) (t : Tick) : CoherentWith P c (l.openTurn c t mint spec).1 := by
  obtain ⟨b, hb, hPb⟩ := h
  unfold EntryLog.openTurn
  rcases hb.openTurn (hid b hb hPb) t spec (l.index.turnCount + 1) with
    ⟨l', err, heq, hl'⟩ | ⟨l', b', opened, heq, rfl, hf, hobs, hh, hl'⟩
  · rw [heq]
    exact ⟨b, hl', hPb⟩
  · have hsrc : (spec.source == .revert) = false := by simpa using hs
    rw [hsrc] at hh
    rw [heq]
    refine ⟨b', hh ▸ hl', hP.opens hb.intact.folded hPb (by rfl) hf ?_ hobs⟩
    simp [hs, hb.turnCount_eq]

/-- An entry filed between turns, neither a turn_open nor a turn_revert. -/
theorem CoherentWith.appendBetweenTurns (hP : Index.Kept P) {l : EntryLog} {mint : String}
    {e : Entry} (h : CoherentWith P c l) (hid : l.Mints P c ("t-" ++ mint))
    (ho : e.kind ≠ .turnOpen) (hr : e.kind ≠ .turnRevert) (ticks : ℕ → Tick) :
    CoherentWith P c (l.appendBetweenTurns c ticks mint e).1 := by
  unfold EntryLog.appendBetweenTurns
  cases l.index.newestSurviving [] with
  | some turn => exact h.append hP (e := { e with turn := turn }) ho hr (ticks 0)
  | none =>
    have hopen := h.openTurn hP hid { source := .event } (by simp) (ticks 0)
    rcases heq : l.openTurn c (ticks 0) mint { source := .event } with ⟨l₁, err | opened⟩
    · simpa [heq] using hopen
    · rw [heq] at hopen
      simpa [heq] using hopen.append hP (e := { e with turn := opened.turn }) ho hr (ticks 1)

theorem CoherentWith.closeCarrier (hP : Index.Kept P) {l : EntryLog} (h : CoherentWith P c l)
    (t : Tick) (turn : String) : CoherentWith P c (l.closeCarrier c t turn).1 :=
  h.append hP (by simp) (by simp) t

theorem CoherentWith.appendReconciledTo (hP : Index.Kept P) {l : EntryLog}
    (h : CoherentWith P c l) (t : Tick) (rec : EntryReconciled) (turn : String) :
    CoherentWith P c (l.appendReconciledTo c t rec turn).1 :=
  h.append hP (by simp) (by simp) t

theorem CoherentWith.appendReconciled (hP : Index.Kept P) {l : EntryLog} {mint : String}
    (h : CoherentWith P c l) (hid : l.Mints P c ("t-" ++ mint)) (ticks : ℕ → Tick)
    (rec : EntryReconciled) : CoherentWith P c (l.appendReconciled c ticks mint rec).1 := by
  unfold EntryLog.appendReconciled
  split
  · exact h
  split
  · exact h.appendReconciledTo hP (ticks 0) rec rec.turn
  cases l.index.newestSurviving [] with
  | some turn => exact h.appendReconciledTo hP (ticks 0) rec turn
  | none =>
    have hopen := h.openTurn hP hid { source := .event } (by simp) (ticks 0)
    rcases heq : l.openTurn c (ticks 0) mint { source := .event } with ⟨l₁, err | opened⟩
    · simpa [heq] using hopen
    rw [heq] at hopen
    have hclose := hopen.closeCarrier hP (ticks 1) opened.turn
    rcases hceq : l₁.closeCarrier c (ticks 1) opened.turn with ⟨l₂, err | closed⟩
    · simpa [heq, hceq] using hclose
    rw [hceq] at hclose
    simpa [heq, hceq] using hclose.appendReconciledTo hP (ticks 2) rec opened.turn

/-- A carrier minted behind `older` with its flag down, every other turn hidden or in the
window; the record will complete it. -/
structure CarrierUnder (P : Index → Prop) (c : LineCodec) (l : EntryLog) (b : Index)
    (older window : List String) (carrier : String) : Prop where
  coherent : CoherentUnder c l b (Function.update b.hidden carrier false)
  property : P b
  order : b.order = older ++ [carrier]
  new : carrier ∉ older
  none : ∀ id ∈ older, b.hidden id = true ∨ id ∈ window
  hidden : b.hidden carrier = true
  free : b.taken carrier = false
  ordinal : b.ordinal carrier = 1

theorem CarrierUnder.hideCarrier {l : EntryLog} {b : Index} {older window : List String}
    {carrier : String} (h : CarrierUnder P c l b older window carrier) :
    CoherentWith P c (l.hideCarrier carrier) := by
  refine ⟨b, ⟨h.coherent.intact, ?_, h.coherent.whole⟩, h.property⟩
  rw [EntryLog.hideCarrier, h.coherent.index_eq, Index.revert_eq_marked]
  ext1
  case turns =>
    funext id
    by_cases hid : id = carrier
    · simp [Index.marked_turns, Index.live_turns, hid, h.hidden, Function.comp_def]
    · have hne : (id == carrier) = false := by simpa using hid
      simp [Index.marked_turns, Index.live_turns, hid, hne, Function.comp_def]
  all_goals rfl

theorem CarrierUnder.append_error {l l' : EntryLog} {b : Index} {older window : List String}
    {carrier : String} {t : Tick} {e : Entry} {err : LogError}
    (h : CarrierUnder P c l b older window carrier) (heq : l.append c t e = (l', .error err)) :
    CarrierUnder P c l' b older window carrier := by
  rcases h.coherent.append t e with ⟨l₁, err₁, heq₁, hl₁⟩ | ⟨l₁, b', heq₁, -⟩
  · rw [heq] at heq₁
    obtain ⟨rfl, -⟩ := Prod.mk.inj heq₁
    exact ⟨hl₁, h.property, h.order, h.new, h.none, h.hidden, h.free, h.ordinal⟩
  · rw [heq] at heq₁
    cases heq₁

/-- The carrier's own turn_close. -/
theorem CarrierUnder.closeCarrier (hP : Index.Kept P) {l : EntryLog} {b : Index}
    {older window : List String} {carrier : String}
    (h : CarrierUnder P c l b older window carrier) (t : Tick) :
    ∃ b', CarrierUnder P c (l.closeCarrier c t carrier).1 b' older window carrier := by
  unfold EntryLog.closeCarrier
  rcases h.coherent.append t (carrierClose carrier) with
    ⟨l', err, heq, hl'⟩ | ⟨l', b', heq, -, hobs, hl'⟩
  · rw [heq]
    exact ⟨b, h.append_error heq⟩
  · have ho : (l.stamp t (carrierClose carrier)).kind ≠ .turnOpen := by simp
    have hr : (l.stamp t (carrierClose carrier)).kind ≠ .turnRevert := by simp
    obtain ⟨hh, ht⟩ := Index.hidden_observeLine ho hr hobs
    rw [Index.flagsAfter_of_ne ho hr, ← hh] at hl'
    rw [heq]
    refine ⟨b', hl', hP.entry h.coherent.intact.folded h.property ho hr hobs, ?_, h.new, ?_, ?_, ?_, ?_⟩
    · rw [Index.observeLine_order ho hobs, h.order]
    · rw [hh]
      exact h.none
    · rw [hh, h.hidden]
    · rw [ht, h.free]
    · rw [Index.ordinal_observeLine ho hobs, h.ordinal]

/-- The record completes its carrier: what it hides then is what the flags say. -/
theorem CarrierUnder.record (hP : Index.Kept P) {l l' : EntryLog} {b : Index}
    {older : List String} {e stamped : Entry} {p : EntryTurnRevert} {t : Tick}
    (h : CarrierUnder P c l b older (older.drop (older.idxOf p.fromTurn)) e.turn)
    (he : e.payload = .turnRevert p) (hfrom : p.fromTurn ∈ older)
    (hlast : older.getLast? = some p.through) (heq : l.append c t e = (l', .ok stamped)) :
    CoherentWith P c l' := by
  rcases h.coherent.append t e with ⟨l₁, err, heq₁, -⟩ | ⟨l₁, b', heq₁, -, hobs, hl'⟩
  · rw [heq] at heq₁
    cases heq₁
  · rw [heq] at heq₁
    obtain ⟨rfl, -⟩ := Prod.mk.inj heq₁
    have hs : (l.stamp t e).payload = .turnRevert p := by rw [stamp_payload, he]; rfl
    have hflags := Index.flagsAfter_carrier (Entry.kind_of_payload hs) (by simpa using h.free) hobs
    rw [stamp_turn] at hflags
    refine ⟨b', hflags ▸ hl', hP.record h.coherent.intact.folded h.property hs ?_ hobs⟩
    exact .minted older h.order h.new hfrom hlast h.none h.hidden h.free h.ordinal

/-- A record filed in a survivor outside the window it states. -/
theorem CoherentUnder.record (hP : Index.Kept P) {l : EntryLog} {b : Index} {e : Entry}
    {p : EntryTurnRevert} (h : CoherentUnder c l b b.hidden) (hPb : P b)
    (he : e.payload = .turnRevert p) (hrec : b.Records e.turn p) (hv : b.hidden e.turn = false)
    (t : Tick) : CoherentWith P c (l.append c t e).1 := by
  rcases h.append t e with ⟨l', err, heq, hl'⟩ | ⟨l', b', heq, -, hobs, hl'⟩
  · rw [heq]
    exact ⟨b, hl', hPb⟩
  · have hs : (l.stamp t e).payload = .turnRevert p := by rw [stamp_payload, he]; rfl
    have ho : (l.stamp t e).kind ≠ .turnOpen := by simp [Entry.kind_of_payload hs, Payload.kind]
    rw [Index.hidden, Bool.or_eq_false_iff] at hv
    have hflags := Index.flagsAfter_hidden ho (fun _ => by simpa using hv.2) hobs
    rw [heq]
    exact ⟨b', hflags ▸ hl', hP.record h.intact.folded hPb hs hrec hobs⟩

theorem CoherentWith.revert (hP : Index.Kept P) {l : EntryLog} {mint : String}
    (h : CoherentWith P c l) (hid : l.Mints P c ("t-" ++ mint)) (ticks : ℕ → Tick)
    (fromTurn : String) (cause : TurnRevertCause) (kasMessageID : String) :
    CoherentWith P c (l.revert c ticks mint fromTurn cause kasMessageID).1 := by
  unfold EntryLog.revert
  cases hst : l.index.turns fromTurn with
  | none => exact h
  | some st =>
    simp only
    split
    · exact h
    obtain ⟨b, hb, hPb⟩ := h
    have horder : l.index.order = b.order := by rw [hb.index_eq, Index.live_order]
    have hfrom : fromTurn ∈ b.order := by
      rw [hb.intact.folded.mem_order]
      rw [hb.index_eq, Index.live_turns, Option.map_eq_some_iff] at hst
      obtain ⟨st₀, hst₀, -⟩ := hst
      simp [hst₀]
    obtain ⟨through, hlast⟩ : ∃ through, b.order.getLast? = some through :=
      ⟨_, List.getLast?_eq_some_getLast (List.ne_nil_of_mem hfrom)⟩
    have hwindow : l.index.revertWindow fromTurn =
        (b.order.drop (b.order.idxOf fromTurn), through) := by
      rw [Index.revertWindow, horder, hlast]
      rfl
    rw [hwindow]
    simp only
    cases hs : l.index.newestSurviving (b.order.drop (b.order.idxOf fromTurn)) with
    | some carrier =>
      obtain ⟨hm, hout, hv⟩ := hb.newestSurviving hs
      exact hb.record hP hPb rfl (.survivor hfrom hlast hm hout hv) hv (ticks 0)
    | none =>
      simp only [Index.survivingHighWater_eq_zero hs, Nat.zero_add]
      rcases hb.openTurn (hid b hb hPb) (ticks 0) { source := .revert } 1 with
        ⟨l₁, err, heq, hl₁⟩ | ⟨l₁, b₁, opened, heq, hopened, hf, hobs, hh, hl₁⟩
      · rw [heq]
        exact ⟨b, hl₁, hPb⟩
      have hturn : opened.turn = "t-" ++ mint := by rw [hopened]; rfl
      have hp : opened.payload = .turnOpen { source := .revert, n := 1 } := by rw [hopened]; rfl
      have hcarrier : CarrierUnder P c l₁ b₁ b.order
          (b.order.drop (b.order.idxOf fromTurn)) opened.turn := by
        rw [← hturn] at hf hh hl₁
        have hh' := Index.hidden_turnOpen hp hf.opens hobs
        refine ⟨?_, hP.opens hb.intact.folded hPb hp hf (by simp) hobs, ?_, hf.notMem, ?_, ?_,
          hh'.2, ?_⟩
        · rw [hh, Function.update_idem]
          exact hl₁
        · exact Index.observeLine_order_turnOpen (Entry.kind_of_payload hp) hobs
        · intro id hm
          have hne : id ≠ opened.turn := fun he => hf.notMem (he ▸ hm)
          rw [hh, Function.update_of_ne hne]
          exact hb.newestSurviving_none hs hm
        · rw [hh, Function.update_self]
          rfl
        · rw [Index.ordinal_turnOpen hp hobs, Function.update_self]
      obtain ⟨b₂, hb₂⟩ := hcarrier.closeCarrier hP (ticks 1)
      rw [heq]
      rcases hceq : l₁.closeCarrier c (ticks 1) opened.turn with ⟨l₂, err | closed⟩
      · rw [hceq] at hb₂
        simpa [hceq] using hb₂.hideCarrier
      rw [hceq] at hb₂
      generalize hrec : revertRecord fromTurn st.n through cause kasMessageID opened.turn = record
      rcases hreq : l₂.append c (ticks 2) record with ⟨l₃, err | stamped⟩
      · simpa [hceq, hrec, hreq] using (hb₂.append_error hreq).hideCarrier
      · have hturn' : record.turn = opened.turn := by rw [← hrec]; rfl
        have hpay : record.payload =
            .turnRevert { fromTurn, through, kasMessageID, cause, fromN := st.n } := by
          rw [← hrec]; rfl
        rw [← hturn'] at hb₂
        simpa [hceq, hrec, hreq] using hb₂.record hP hpay hfrom hlast hreq

end EntryLog

end Marotte
