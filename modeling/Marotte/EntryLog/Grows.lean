import Marotte.EntryLog.Refinement

/-! # What every operation is made of

Whatever the flags say, an operation only appends lines, lowers no reverted flag of a turn
the log already held, and opens a turn under an id it did not hold.
-/
namespace Marotte
namespace EntryLog

/-- What the append path may be handed: a turn_open only as the first line of a new turn. -/
def OpensNew (l : EntryLog) (e : Entry) : Prop :=
  e.kind = .turnOpen → l.failed = false → e.turn ∉ l.index.order ∧ e.id = e.turn ∧ e.seq = 0

/-- One log reached from another by appends, by hiding a carrier, and by caching counters. -/
inductive Grows (c : LineCodec) : EntryLog → EntryLog → Prop
  | refl (l : EntryLog) : Grows c l l
  | append {l l₁ : EntryLog} (h : Grows c l l₁) (t : Tick) (e : Entry) (he : l₁.OpensNew e) :
      Grows c l (l₁.append c t e).1
  | hide {l l₁ : EntryLog} (h : Grows c l l₁) (turn : String) : Grows c l (l₁.hideCarrier turn)
  | cache {l l₁ : EntryLog} (h : Grows c l l₁) (header : LogHeader) :
      Grows c l { l₁ with header := header }

variable {c : LineCodec}

theorem Grows.trans {l l₁ l₂ : EntryLog} (h : Grows c l l₁) (h' : Grows c l₁ l₂) : Grows c l l₂ := by
  induction h' with
  | refl => exact h
  | append _ t e he ih => exact ih.append t e he
  | hide _ turn ih => exact ih.hide turn
  | cache _ header ih => exact ih.cache header

theorem opensNew_of_ne {l : EntryLog} {e : Entry} (h : e.kind ≠ .turnOpen) : l.OpensNew e :=
  fun hk => absurd hk h

/-- A turn id the log does not hold, while it still takes appends. -/
def NewTurn (l : EntryLog) (mint : String) : Prop := l.failed = false → "t-" ++ mint ∉ l.index.order

instance (l : EntryLog) (mint : String) : Decidable (l.NewTurn mint) :=
  inferInstanceAs (Decidable (l.failed = false → _))

theorem opensNew_turnOpenEntry {l : EntryLog} {mint : String} (h : l.NewTurn mint)
    (spec : TurnSpec) (ordinal : ℕ) : l.OpensNew (turnOpenEntry mint spec ordinal) :=
  fun _ hf => ⟨h hf, rfl, rfl⟩

theorem Grows.append_one {l : EntryLog} {e : Entry} (he : l.OpensNew e) (t : Tick) :
    Grows c l (l.append c t e).1 := (Grows.refl l).append t e he

theorem grows_openTurn {l : EntryLog} {mint : String} (h : l.NewTurn mint) (t : Tick)
    (spec : TurnSpec) (ordinal : ℕ) :
    Grows c l (l.openTurnWithOrdinal c t mint spec ordinal).1 :=
  Grows.append_one (opensNew_turnOpenEntry h spec ordinal) t

theorem grows_appendBetweenTurns {l : EntryLog} {mint : String} {e : Entry} (h : l.NewTurn mint)
    (he : e.kind ≠ .turnOpen) (ticks : ℕ → Tick) :
    Grows c l (l.appendBetweenTurns c ticks mint e).1 := by
  unfold appendBetweenTurns
  have hne : ∀ (l : EntryLog) (turn : String), l.OpensNew { e with turn := turn } :=
    fun _ _ => opensNew_of_ne he
  cases l.index.newestSurviving [] with
  | some turn => exact Grows.append_one (hne l turn) (ticks 0)
  | none =>
    have hopen := grows_openTurn (c := c) h (ticks 0) { source := .event } (l.index.turnCount + 1)
    rcases heq : l.openTurn c (ticks 0) mint { source := .event } with ⟨l₁, err | opened⟩
    · rw [← openTurn, heq] at hopen
      simpa [heq] using hopen
    · rw [← openTurn, heq] at hopen
      simpa [heq] using hopen.append (ticks 1) _ (hne l₁ opened.turn)

theorem grows_appendReconciled {l : EntryLog} {mint : String} (h : l.NewTurn mint)
    (ticks : ℕ → Tick) (rec : EntryReconciled) :
    Grows c l (l.appendReconciled c ticks mint rec).1 := by
  unfold appendReconciled
  have hrec : ∀ (l : EntryLog) (turn : String), l.OpensNew (reconciledEntry rec turn) :=
    fun _ _ => opensNew_of_ne (by simp)
  split
  · exact Grows.refl l
  split
  · exact Grows.append_one (hrec l rec.turn) (ticks 0)
  cases l.index.newestSurviving [] with
  | some turn => exact Grows.append_one (hrec l turn) (ticks 0)
  | none =>
    have hopen := grows_openTurn (c := c) h (ticks 0) { source := .event } (l.index.turnCount + 1)
    rcases heq : l.openTurn c (ticks 0) mint { source := .event } with ⟨l₁, err | opened⟩
    · rw [← openTurn, heq] at hopen
      simpa [heq] using hopen
    rw [← openTurn, heq] at hopen
    have hclose : Grows c l (l₁.closeCarrier c (ticks 1) opened.turn).1 :=
      hopen.append (ticks 1) _ (opensNew_of_ne (by simp))
    rcases hceq : l₁.closeCarrier c (ticks 1) opened.turn with ⟨l₂, err | closed⟩
    · rw [hceq] at hclose
      simpa [heq, hceq] using hclose
    rw [hceq] at hclose
    simpa [heq, hceq, appendReconciledTo] using hclose.append (ticks 2) _ (hrec l₂ opened.turn)

theorem grows_revert {l : EntryLog} {mint : String} (h : l.NewTurn mint) (ticks : ℕ → Tick)
    (fromTurn : String) (cause : TurnRevertCause) (kasMessageID : String) :
    Grows c l (l.revert c ticks mint fromTurn cause kasMessageID).1 := by
  unfold EntryLog.revert
  cases l.index.turns fromTurn with
  | none => exact Grows.refl l
  | some st =>
    simp only
    split
    · exact Grows.refl l
    have hrec : ∀ (l₁ : EntryLog) (carrier : String), l₁.OpensNew
        (revertRecord fromTurn st.n (l.index.revertWindow fromTurn).2 cause kasMessageID carrier) :=
      fun _ _ => opensNew_of_ne (by simp)
    cases l.index.newestSurviving (l.index.revertWindow fromTurn).1 with
    | some carrier => exact Grows.append_one (hrec l carrier) (ticks 0)
    | none =>
      simp only
      generalize l.index.survivingHighWater (l.index.revertWindow fromTurn).1 + 1 = ordinal
      have hopen := grows_openTurn (c := c) h (ticks 0) { source := .revert } ordinal
      rcases heq : l.openTurnWithOrdinal c (ticks 0) mint { source := .revert } ordinal with
        ⟨l₁, err | opened⟩
      · rw [heq] at hopen
        simpa using hopen
      rw [heq] at hopen
      have hclose : Grows c l (l₁.closeCarrier c (ticks 1) opened.turn).1 :=
        hopen.append (ticks 1) _ (opensNew_of_ne (by simp))
      simp only
      rcases hceq : l₁.closeCarrier c (ticks 1) opened.turn with ⟨l₂, err | closed⟩
      · rw [hceq] at hclose
        simpa using hclose.hide opened.turn
      rw [hceq] at hclose
      have hrecord := hclose.append (ticks 2) _ (hrec l₂ opened.turn)
      simp only
      generalize revertRecord fromTurn st.n (l.index.revertWindow fromTurn).2 cause kasMessageID
        opened.turn = record at hrecord ⊢
      rcases hreq : l₂.append c (ticks 2) record with ⟨l₃, err | stamped⟩
      · rw [hreq] at hrecord
        simpa using hrecord.hide opened.turn
      · rw [hreq] at hrecord
        simpa using hrecord

/-- What a caller meets: a turn_open comes from the log alone, under an id it does not hold. -/
def OpensOnlyNew (l : EntryLog) : LogOp → Prop
  | .openTurn _ mint _ => l.NewTurn mint
  | .append _ e => e.kind ≠ .turnOpen
  | .appendBetweenTurns _ mint e => l.NewTurn mint ∧ e.kind ≠ .turnOpen
  | .appendReconciled _ mint _ => l.NewTurn mint
  | .revert _ mint _ _ _ => l.NewTurn mint

theorem grows_perform {l : EntryLog} {op : LogOp} (h : l.OpensOnlyNew op) :
    Grows c l (l.perform c op) := by
  cases op with
  | openTurn t mint spec => exact grows_openTurn h t spec _
  | append t e => exact Grows.append_one (opensNew_of_ne h) t
  | appendBetweenTurns ticks mint e => exact grows_appendBetweenTurns h.1 h.2 ticks
  | appendReconciled ticks mint rec => exact grows_appendReconciled h ticks rec
  | revert ticks mint fromTurn cause kasMessageID =>
    exact grows_revert h ticks fromTurn cause kasMessageID

/-- A log that grows keeps a live view of its file's fold, its turns, and what they hide. -/
theorem Grows.coherentUnder {l l' : EntryLog} {b : Index} {r : String → Bool}
    (hg : Grows c l l') (h : CoherentUnder c l b r) :
    ∃ b' r', CoherentUnder c l' b' r' ∧ b.order <+: b'.order ∧
      ∀ id ∈ b.order, r id = true → r' id = true := by
  induction hg with
  | refl => exact ⟨b, r, h, List.prefix_refl _, fun _ _ hr => hr⟩
  | @append l₁ _ t e he ih =>
    obtain ⟨b₁, r₁, h₁, hord, hr⟩ := ih
    rcases h₁.append t e with ⟨l₂, err, heq, h₂⟩ | ⟨l₂, b₂, heq, hf, hobs, h₂⟩
    · rw [heq]
      exact ⟨b₁, r₁, h₂, hord, hr⟩
    · rw [heq]
      refine ⟨b₂, _, h₂, ?_, ?_⟩
      · by_cases hk : (l₁.stamp t e).kind = .turnOpen
        · rw [Index.observeLine_order_turnOpen hk hobs]
          exact hord.trans (List.prefix_append _ _)
        · rw [Index.observeLine_order hk hobs]
          exact hord
      · intro id hid hrid
        have hr₁ := hr id hid hrid
        cases hp : (l₁.stamp t e).payload <;> simp only [Index.flagsAfter, hp] <;>
          first | exact hr₁ | skip
        · have hk : e.kind = .turnOpen :=
            (stamp_kind l₁ t e).symm.trans (Entry.kind_of_payload hp)
          have hnew := (he hk hf).1
          rw [h₁.index_eq, Index.live_order] at hnew
          have hne : id ≠ e.turn := fun heq => hnew (heq ▸ hord.subset hid)
          rw [stamp_turn, Function.update_of_ne hne]
          exact hr₁
        · simp [hr₁]
  | @hide l₁ _ turn ih =>
    obtain ⟨b₁, r₁, h₁, hord, hr⟩ := ih
    refine ⟨b₁, fun id => r₁ id || id == turn, ⟨h₁.intact, ?_, h₁.whole⟩, hord, ?_⟩
    · rw [hideCarrier, h₁.index_eq, Index.revert_eq_marked]
      ext1
      case turns =>
        funext id
        simp [Index.marked_turns, Index.live_turns, Function.comp_def]
      all_goals rfl
    · intro id hid hrid
      simp [hr id hid hrid]
  | @cache l₁ _ header ih =>
    obtain ⟨b₁, r₁, h₁, hord, hr⟩ := ih
    exact ⟨b₁, r₁, ⟨h₁.intact, h₁.index_eq, h₁.whole⟩, hord, hr⟩

end EntryLog

end Marotte
