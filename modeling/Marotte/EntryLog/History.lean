import Marotte.EntryLog.Grows

/-! # The history a log file holds

What the fold keeps of a file, stated over the file's entries alone: the turns it opens,
the windows it records, and for each turn the facts its own entries give.
-/
namespace Marotte

namespace History

/-- The turns the entries open, in order. -/
def opened (es : List Entry) : List String :=
  es.filterMap (fun e => if e.kind = .turnOpen then some e.turn else none)

def windowOf (e : Entry) : Option RevertWindow :=
  match e.payload with
  | .turnRevert p => some ⟨e.turn, p.fromTurn, p.through⟩
  | _ => none

/-- The windows the entries record, in order. -/
def windows (es : List Entry) : List RevertWindow := es.filterMap windowOf

/-- Whether some entry of a turn is of the kind given. -/
def holds (es : List Entry) (turn : String) (k : EntryKind) : Bool :=
  es.any (fun e => e.turn = turn && e.kind = k)

/-- A turn's own entries. -/
def own (es : List Entry) (turn : String) : List Entry := es.filter (fun e => e.turn = turn)

@[simp] theorem opened_append (es fs : List Entry) :
    opened (es ++ fs) = opened es ++ opened fs := List.filterMap_append

@[simp] theorem windows_append (es fs : List Entry) :
    windows (es ++ fs) = windows es ++ windows fs := List.filterMap_append

@[simp] theorem holds_append (es fs : List Entry) (turn : String) (k : EntryKind) :
    holds (es ++ fs) turn k = (holds es turn k || holds fs turn k) := List.any_append

@[simp] theorem own_append (es fs : List Entry) (turn : String) :
    own (es ++ fs) turn = own es turn ++ own fs turn := List.filter_append ..

theorem mem_opened {es : List Entry} {turn : String} :
    turn ∈ opened es ↔ ∃ e ∈ es, e.kind = .turnOpen ∧ e.turn = turn := by
  simp [opened, List.mem_filterMap]

end History

namespace LineCodec

variable (c : LineCodec)

/-- The entries of a file's complete lines. -/
def entriesOf (file : List UInt8) : List Entry :=
  (Lines.split newline file).1.filterMap c.unmarshal

variable {c}

/-- What holds of no entry and survives one more line holds of an intact file and its fold. -/
theorem Intact.induction {P : List Entry → Index → Prop} (nil : P [] Index.empty)
    (concat : ∀ es b e len b', P es b → b.observeLine e len = some b' → P (es ++ [e]) b')
    {file : List UInt8} {b : Index} (h : c.Intact file b) : P (c.entriesOf file) b := by
  obtain ⟨lines, hl, rfl, ha⟩ := h
  rw [entriesOf, Lines.split_join newline hl]
  clear hl
  induction lines using List.reverseRecOn generalizing b with
  | nil => rw [← Replay.accepts_nil.mp ha]; exact nil
  | append_singleton lines line ih =>
    obtain ⟨b₀, hb₀, hstep⟩ := Replay.accepts_concat.mp ha
    obtain ⟨-, e, he, hobs⟩ := observeLine_eq_some.mp hstep
    have hlast : [line].filterMap c.unmarshal = [e] := by simp [he]
    rw [List.filterMap_append, hlast]
    exact concat _ _ _ _ _ (ih hb₀) hobs

theorem entriesOf_append {file : List UInt8} {b : Index} (h : c.Intact file b) (e : Entry) :
    c.entriesOf (file ++ (c.marshal e ++ [newline])) = c.entriesOf file ++ [e] := by
  obtain ⟨lines, hl, rfl, -⟩ := h
  have hl' : ∀ line ∈ lines ++ [c.marshal e], newline ∉ line := by
    intro line hline
    rcases List.mem_append.mp hline with hm | hm
    · exact hl line hm
    · rw [List.mem_singleton.mp hm]
      exact c.newline_notMem e
  have hjoin : Lines.join newline lines ++ (c.marshal e ++ [newline]) =
      Lines.join newline (lines ++ [c.marshal e]) := by simp
  rw [hjoin, entriesOf, entriesOf, Lines.split_join newline hl', Lines.split_join newline hl,
    List.filterMap_append]
  simp [c.unmarshal_marshal]

end LineCodec

/-- The fold agrees with the history on what needs no turn to open only once. -/
structure Index.Follows (es : List Entry) (b : Index) : Prop where
  order : b.order = History.opened es
  windows : b.unappliedReverts = History.windows es
  turn_mem : ∀ e ∈ es, e.turn ∈ b.order

theorem Index.follows_concat {es : List Entry} {b b' : Index} {e : Entry} {len : ℕ}
    (hb : b.Folded) (h : b.Follows es) (hobs : b.observeLine e len = some b') :
    b'.Follows (es ++ [e]) := by
  obtain ⟨i, hi, rfl⟩ := Index.observeLine_iff_observe.mp hobs
  have hord := observe_order hi
  have hwin := observe_unapplied hi
  refine ⟨?_, ?_, ?_⟩
  · by_cases ho : e.kind = .turnOpen
    · simpa [ho, h.order, History.opened] using hord
    · simpa [ho, h.order, History.opened] using hord
  · rw [hwin, h.windows, History.windows_append]
    cases hp : e.payload <;> simp [History.windows, History.windowOf, hp]
  · intro f hf
    change f.turn ∈ i.order
    rw [hord]
    rcases List.mem_append.mp hf with hm | hm
    · split
      · exact List.mem_append_left _ (h.turn_mem f hm)
      · exact h.turn_mem f hm
    · rw [List.mem_singleton.mp hm]
      split
      · simp
      · rename_i ho
        rw [observe_of_ne_turnOpen ho, Option.map_eq_some_iff] at hi
        obtain ⟨st, hst, -⟩ := hi
        exact (hb.mem_order e.turn).mpr (by simp [hst])

theorem LineCodec.Intact.follows {c : LineCodec} {file : List UInt8} {b : Index}
    (h : c.Intact file b) : b.Follows (c.entriesOf file) := by
  have hboth : b.Folded ∧ b.Follows (c.entriesOf file) := by
    refine h.induction (P := fun es b => b.Folded ∧ b.Follows es)
      ⟨Index.folded_empty, ⟨rfl, rfl, by simp⟩⟩ ?_
    rintro es b e len b' ⟨hf, hb⟩ hobs
    exact ⟨hf.observeLine hobs, Index.follows_concat hf hb hobs⟩
  exact hboth.2

/-! ## A turn's row and its own entries -/

namespace History

def call (e : Entry) : EntryCall := ⟨e.id, e.lane⟩

/-- A turn_close carrying the stop reason of a closer no process wrote. -/
def isUnterminated (e : Entry) : Bool :=
  match e.payload with
  | .turnClose p => p.stopReasonRaw == stopReasonUnterminated
  | _ => false

/-- A steer with no text. -/
def isEmptySteer (e : Entry) : Bool :=
  match e.payload with
  | .steer p => p.text == ""
  | _ => false

/-- What a turn's row says about the entries of a turn opened by the first of them. -/
structure RowOf (own : List Entry) (st : TurnState) : Prop where
  opening : ∃ o p body, own = o :: body ∧ o.payload = .turnOpen p ∧ st.source = p.source ∧
    st.n = p.n ∧ ∀ e ∈ body, e.kind ≠ .turnOpen
  hasRevert : st.hasRevert = own.any (fun e => e.kind = .turnRevert)
  closed : st.closed = own.any (fun e => e.kind = .turnClose)
  calls : st.calls = (own.filter (fun e => e.kind = .toolCall)).map call
  results : ∀ id, id ∈ st.results ↔ ∃ e ∈ own, e.kind = .toolResult ∧ e.id = id
  unterminated : st.unterminated =
    (((own.filter (fun e => e.kind = .turnClose)).getLast?).map isUnterminated).getD false
  emptySteer : st.emptySteer = own.any isEmptySteer

theorem rowOf_open {e : Entry} {p : EntryTurnOpen} (he : e.payload = .turnOpen p)
    (start stop : ℕ) : RowOf [e] (newTurnState e p start stop) where
  opening := ⟨e, p, [], rfl, he, rfl, rfl, by simp⟩
  hasRevert := by simp [newTurnState, Entry.kind_of_payload he, Payload.kind]
  closed := by simp [newTurnState, Entry.kind_of_payload he, Payload.kind]
  calls := by simp [newTurnState, Entry.kind_of_payload he, Payload.kind]
  results := by simp [newTurnState, Entry.kind_of_payload he, Payload.kind]
  unterminated := by simp [newTurnState, Entry.kind_of_payload he, Payload.kind]
  emptySteer := by simp [newTurnState, isEmptySteer, he]

/-- One more entry of the turn, of any kind but turn_open. -/
theorem RowOf.concat {own : List Entry} {st : TurnState} {e : Entry} (h : RowOf own st)
    (he : e.kind ≠ .turnOpen) (start stop : ℕ) :
    RowOf (own ++ [e]) ((st.extend e start stop).fold e) := by
  obtain ⟨o, p, body, hown, hp, hsrc, hn, hbody⟩ := h.opening
  constructor
  · refine ⟨o, p, body ++ [e], by simp [hown], hp, by simpa [TurnState.extend] using hsrc, ?_, ?_⟩
    · cases hpay : e.payload <;>
        simp [TurnState.fold, hpay, TurnState.extend, foldTurnClose, foldSteer, hn]
    · intro f hf
      rcases List.mem_append.mp hf with hm | hm
      · exact hbody f hm
      · rwa [List.mem_singleton.mp hm]
  · rw [TurnState.fold_hasRevert]
    simp [TurnState.extend, h.hasRevert, beq_eq_decide]
  · cases hpay : e.payload <;>
      simp [TurnState.fold, hpay, TurnState.extend, foldTurnClose, foldSteer, h.closed,
        Entry.kind_of_payload hpay, Payload.kind]
  · cases hpay : e.payload <;>
      simp [TurnState.fold, hpay, TurnState.extend, foldTurnClose, foldSteer, h.calls,
        Entry.kind_of_payload hpay, Payload.kind, call]
  · intro id
    have hsplit : (∃ f ∈ own ++ [e], f.kind = .toolResult ∧ f.id = id) ↔
        (∃ f ∈ own, f.kind = .toolResult ∧ f.id = id) ∨ (e.kind = .toolResult ∧ e.id = id) := by
      simp [or_and_right, exists_or]
    rw [hsplit, ← h.results]
    cases hpay : e.payload <;>
      simp [TurnState.fold, hpay, TurnState.extend, foldTurnClose, foldSteer,
        Entry.kind_of_payload hpay, Payload.kind]
    rw [or_comm, eq_comm]
  · cases hpay : e.payload <;>
      simp [TurnState.fold, hpay, TurnState.extend, foldTurnClose, foldSteer, h.unterminated,
        Entry.kind_of_payload hpay, Payload.kind, isUnterminated]
  · cases hpay : e.payload <;>
      simp [TurnState.fold, hpay, TurnState.extend, foldTurnClose, foldSteer, h.emptySteer,
        isEmptySteer]

end History

/-- Every row tells its turn's own entries, once no turn opens twice. -/
def Index.RowsFollow (es : List Entry) (b : Index) : Prop :=
  (History.opened es).Nodup →
    ∀ turn st, b.turns turn = some st → History.RowOf (History.own es turn) st

theorem Index.Follows.own_eq_nil {es : List Entry} {b : Index} (h : b.Follows es) {turn : String}
    (hm : turn ∉ b.order) : History.own es turn = [] := by
  rw [History.own, List.filter_eq_nil_iff]
  intro e he ht
  exact hm (by simpa using (of_decide_eq_true ht) ▸ h.turn_mem e he)

theorem Index.rowsFollow_concat {es : List Entry} {b b' : Index} {e : Entry} {len : ℕ}
    (hb : b.Follows es) (h : b.RowsFollow es) (hobs : b.observeLine e len = some b') :
    b'.RowsFollow (es ++ [e]) := by
  intro hnodup turn st hst
  obtain ⟨i, hi, rfl⟩ := Index.observeLine_iff_observe.mp hobs
  change i.turns turn = some st at hst
  rw [History.opened_append] at hnodup
  have hes := (List.nodup_append.mp hnodup).1
  by_cases hturn : turn = e.turn
  · subst hturn
    by_cases ho : e.kind = .turnOpen
    · obtain ⟨p, hp⟩ := Entry.kind_eq_turnOpen.mp ho
      have hfresh : e.turn ∉ b.order := by
        intro hm
        rw [hb.order] at hm
        exact (List.nodup_append.mp hnodup).2.2 _ hm e.turn (by simp [History.opened, ho]) rfl
      rw [observe_turns hi] at hst
      simp only [hp, if_true, Option.some.injEq] at hst
      rw [History.own_append, hb.own_eq_nil hfresh, ← hst]
      simpa [History.own] using History.rowOf_open hp b.size (b.size + len)
    · rw [observe_turns_of_ne_turnOpen ho hi, if_pos rfl, Option.map_eq_some_iff] at hst
      obtain ⟨st₀, hst₀, rfl⟩ := hst
      have hrow := (h hes e.turn st₀ hst₀).concat ho b.size (b.size + len)
      rw [History.own_append]
      simpa [History.own] using hrow
  · rw [observe_turns hi, if_neg hturn] at hst
    have hown : History.own [e] turn = [] := by simp [History.own, Ne.symm hturn]
    rw [History.own_append, hown, List.append_nil]
    exact h hes turn st hst

theorem LineCodec.Intact.rowsFollow {c : LineCodec} {file : List UInt8} {b : Index}
    (h : c.Intact file b) : b.RowsFollow (c.entriesOf file) := by
  have hall : b.Folded ∧ b.Follows (c.entriesOf file) ∧ b.RowsFollow (c.entriesOf file) := by
    refine h.induction (P := fun es b => b.Folded ∧ b.Follows es ∧ b.RowsFollow es)
      ⟨Index.folded_empty, ⟨rfl, rfl, by simp⟩, fun _ _ _ hst => by cases hst⟩ ?_
    rintro es b e len b' ⟨hf, hb, hr⟩ hobs
    exact ⟨hf.observeLine hobs, Index.follows_concat hf hb hobs,
      Index.rowsFollow_concat hb hr hobs⟩
  exact hall.2.2

/-! ## What clears a reconcile signal -/

namespace History

/-- A reconciled record naming a turn. -/
def clearsTurn (turn : String) (e : Entry) : Bool :=
  match e.payload with
  | .reconciled p => p.turn == turn
  | _ => false

/-- A reconciled record naming a session. -/
def clearsSession (session : String) (e : Entry) : Bool :=
  match e.payload with
  | .reconciled p => p.session == session
  | _ => false

/-- A turn_bind naming a session. -/
def bindsSession (session : String) (e : Entry) : Bool :=
  match e.payload with
  | .turnBind p => p.sessionID == session
  | _ => false

end History

/-- The three sets hold the names the history gives them, the empty name left out. -/
structure Index.Clears (es : List Entry) (b : Index) : Prop where
  turns : ∀ s, s ∈ b.reconciledTurns ↔ s ≠ "" ∧ es.any (History.clearsTurn s)
  sessions : ∀ s, s ∈ b.reconciledSessions ↔ s ≠ "" ∧ es.any (History.clearsSession s)
  bound : ∀ s, s ∈ b.boundSessions ↔ s ≠ "" ∧ es.any (History.bindsSession s)

theorem Index.mem_note {s t : String} {set : Finset String} :
    t ∈ Index.note s set ↔ (t ≠ "" ∧ s = t) ∨ t ∈ set := by
  unfold Index.note
  split
  · rename_i h
    subst h
    grind
  · rename_i h
    rw [Finset.mem_insert]
    grind

theorem Index.clears_concat {es : List Entry} {b b' : Index} {e : Entry} {len : ℕ}
    (h : b.Clears es) (hobs : b.observeLine e len = some b') : b'.Clears (es ++ [e]) := by
  obtain ⟨i, hi, rfl⟩ := Index.observeLine_iff_observe.mp hobs
  have hsets : i.reconciledTurns = (b.fold e).reconciledTurns ∧
      i.reconciledSessions = (b.fold e).reconciledSessions ∧
      i.boundSessions = (b.fold e).boundSessions := by
    by_cases ho : e.kind = .turnOpen
    · obtain ⟨p, hp⟩ := Entry.kind_eq_turnOpen.mp ho
      rw [observe_turnOpen hp, Option.some.injEq] at hi
      rw [← hi]
      simp [Index.fold, hp, Index.setTurn]
    · rw [observe_of_ne_turnOpen ho, Option.map_eq_some_iff] at hi
      obtain ⟨st, -, rfl⟩ := hi
      cases hp : e.payload <;> simp [Index.fold, hp, Index.setTurn]
  obtain ⟨ht, hs, hb⟩ := hsets
  constructor
  · intro s
    change s ∈ i.reconciledTurns ↔ _
    rw [ht, List.any_append]
    cases hp : e.payload <;>
      simp [Index.fold, hp, History.clearsTurn, Index.mem_note, h.turns]
    grind
  · intro s
    change s ∈ i.reconciledSessions ↔ _
    rw [hs, List.any_append]
    cases hp : e.payload <;>
      simp [Index.fold, hp, History.clearsSession, Index.mem_note, h.sessions]
    grind
  · intro s
    change s ∈ i.boundSessions ↔ _
    rw [hb, List.any_append]
    cases hp : e.payload <;>
      simp [Index.fold, hp, History.bindsSession, Index.mem_note, h.bound]
    grind

theorem LineCodec.Intact.clears {c : LineCodec} {file : List UInt8} {b : Index}
    (h : c.Intact file b) : b.Clears (c.entriesOf file) := by
  refine h.induction (P := fun es b => b.Clears es) ⟨?_, ?_, ?_⟩ ?_
  · simp [Index.empty]
  · simp [Index.empty]
  · simp [Index.empty]
  · exact fun _ _ _ _ _ hb hobs => Index.clears_concat hb hobs

namespace EntryLog

/-- The entries the index was folded from, in file order. -/
def recorded (c : LineCodec) (l : EntryLog) : List Entry := c.entriesOf (l.file.take l.index.size)

variable {c : LineCodec}

/-- The entries a coherent log's index was folded from. -/
theorem CoherentUnder.recorded {l : EntryLog} {b : Index} {r : String → Bool}
    (h : CoherentUnder c l b r) :
    b.Follows (l.recorded c) ∧ b.RowsFollow (l.recorded c) := by
  have hsize : l.index.size = b.size := by rw [h.index_eq, Index.live_size]
  rw [EntryLog.recorded, hsize]
  exact ⟨h.intact.follows, h.intact.rowsFollow⟩

end EntryLog

end Marotte
