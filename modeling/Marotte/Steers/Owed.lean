import Marotte.Steers.Records

/-! # A step owes what it shows

A step that changes what a chat's record lists owes a frame, a note or the changed flag, so that
the counter is bumped in its section.
-/
namespace Marotte.Steers
open SteerM

/-- What a row shows: its words, the id that holds it, and whether it is unsent. -/
def DockRow.shown (w : DockRow) : Option (String × String × String × Bool) :=
  if w.live then some (w.key, w.kasID, w.text, w.state = .unsent) else none

/-- What a record shows. -/
def SteerRecord.shown (r : SteerRecord) :
    List (String × String × String × Bool) × List SteerQueued :=
  (r.rows.filterMap DockRow.shown, r.others)

/-- A step between two states under the lock leaves what is owed owed, and owes what it shows. -/
structure Owed (s t : Locked) : Prop where
  gone : t.record.gone = s.record.gone
  owed : s.fx.owed = true → t.fx.owed = true
  shows : t.fx.owed = true ∨ t.record.shown = s.record.shown

theorem owed_composes : Composes Owed where
  refl _ := ⟨rfl, id, .inr rfl⟩
  trans {s t u} h h' := by
    refine ⟨h'.gone.trans h.gone, fun hs => h'.owed (h.owed hs), ?_⟩
    rcases h'.shows with hu | hu
    · exact .inl hu
    · rcases h.shows with ht | ht
      · exact .inl (h'.owed ht)
      · exact .inr (hu.trans ht)

/-- A state under the lock that owes more than it found. -/
theorem Owed.of_owing {s t : Locked} (hgone : t.record.gone = s.record.gone)
    (h : t.fx.owed = true) : Owed s t := ⟨hgone, fun _ => h, .inl h⟩

abbrev Owes {α : Type} (m : SteerM α) : Prop := Keeps Owed m

/-! ## The small steps -/

theorem owes_pure {α : Type} (a : α) : Owes (pure a : SteerM α) := owed_composes.keeps_pure a

theorem Owes.bind {α β : Type} {m : SteerM α} {f : α → SteerM β} (hm : Owes m)
    (hf : ∀ a, Owes (f a)) : Owes (m >>= f) := owed_composes.keeps_bind hm hf

theorem owes_record : Owes record := fun s => owed_composes.refl s

theorem owes_ignore {α : Type} {m : SteerM α} (hm : Owes m) : Owes (ignore m) :=
  hm.bind fun _ => owes_pure _

theorem owes_guarded {c : Prop} [Decidable c] {m : SteerM Unit} (hm : Owes m) :
    Owes (guarded c m) := keeps_ite (fun _ => hm) fun _ => owes_pure _

/-- An update of what a record does not show. -/
theorem owes_update {f : SteerRecord → SteerRecord} (hgone : ∀ r, (f r).gone = r.gone)
    (hshown : ∀ r, (f r).shown = r.shown) : Owes (update f) :=
  fun s => ⟨hgone s.record, id, .inr (hshown s.record)⟩

theorem SteerFx.owed_frames (fx : SteerFx) (frame : SteerQueued) :
    ({ fx with frames := fx.frames ++ [frame] } : SteerFx).owed = true := by
  simp [SteerFx.owed]

theorem SteerFx.owed_notes (fx : SteerFx) (n : SteerNote) :
    ({ fx with notes := fx.notes ++ [n] } : SteerFx).owed = true := by
  simp [SteerFx.owed]

theorem owes_emit (frame : SteerQueued) : Owes (emit frame) :=
  fun s => .of_owing rfl (s.fx.owed_frames frame)

theorem owes_note (id : String) (steer : EntrySteer) : Owes (note id steer) :=
  fun s => .of_owing rfl (s.fx.owed_notes _)

theorem owes_changed : Owes changed := fun _ => .of_owing rfl rfl

theorem owes_job (j : SteerJob) : Owes (job j) := fun _ => ⟨rfl, id, .inr rfl⟩

/-- A step that owes whatever it did, on a record whose teardown is as it was. -/
def Owing {α : Type} (m : SteerM α) : Prop :=
  ∀ s, (m s).2.record.gone = s.record.gone ∧ (m s).2.fx.owed = true

theorem Owing.owes {α : Type} {m : SteerM α} (h : Owing m) : Owes m :=
  fun s => .of_owing (h s).1 (h s).2

theorem owing_changed : Owing changed := fun _ => ⟨rfl, rfl⟩

theorem owing_emit (frame : SteerQueued) : Owing (emit frame) :=
  fun s => ⟨rfl, s.fx.owed_frames frame⟩

/-- What is owed stays owed. -/
theorem Owing.bind {α β : Type} {m : SteerM α} {f : α → SteerM β} (hm : Owing m)
    (hf : ∀ a, Owes (f a)) : Owing (m >>= f) := by
  intro s
  have hrest := hf (m s).1 (m s).2
  exact ⟨hrest.gone.trans (hm s).1, hrest.owed (hm s).2⟩

/-- Two states of a record that is torn down in both, or in neither. -/
def SameGone (s t : Locked) : Prop := t.record.gone = s.record.gone

theorem sameGone_composes : Composes SameGone := ⟨fun _ => rfl, fun h h' => h'.trans h⟩

/-- Whatever a step changed, it owes once a later part of it owes. -/
theorem Owing.after {α β : Type} {m : SteerM α} {f : α → SteerM β} (hm : Keeps SameGone m)
    (hf : ∀ a, Owing (f a)) : Owing (m >>= f) := by
  intro s
  have hrest := hf (m s).1 (m s).2
  exact ⟨hrest.1.trans (hm s), hrest.2⟩

/-! ## Rows -/

/-- A rewrite of a row, and what the record is beside its rows. -/
structure RowOwed (w : DockRow) (s : Locked) (w' : DockRow) (t : Locked) : Prop where
  beside : t.record.rows = s.record.rows ∧ t.record.others = s.record.others ∧
    t.record.gone = s.record.gone
  owed : s.fx.owed = true → t.fx.owed = true
  shows : t.fx.owed = true ∨ w'.shown = w.shown

/-- A computation that rewrites a row. -/
def RowOwes {α : Type} (w : DockRow) (row : α → DockRow) (m : SteerM α) : Prop :=
  ∀ s, RowOwed w s (row (m s).1) (m s).2

theorem filterMap_cons_shown (w : DockRow) (l : List DockRow) :
    (w :: l).filterMap DockRow.shown = w.shown.toList ++ l.filterMap DockRow.shown :=
  Keyed.filterMap_cons_toList ..

/-- The rows are rewritten one by one; the invariant speaks of the rows rewritten so far. -/
theorem mapM_rowOwes {α : Type} {g : DockRow → SteerM (DockRow × α)}
    (hg : ∀ w, RowOwes w Prod.fst (g w)) (l : List DockRow) (s : Locked) :
    let out := l.mapM g s
    (out.2.record.others = s.record.others ∧ out.2.record.gone = s.record.gone) ∧
      (s.fx.owed = true → out.2.fx.owed = true) ∧
      (out.2.fx.owed = true ∨
        (out.1.map Prod.fst).filterMap DockRow.shown = l.filterMap DockRow.shown) := by
  induction l generalizing s with
  | nil => exact ⟨⟨rfl, rfl⟩, id, .inr rfl⟩
  | cons w l ih =>
    have hw := hg w s
    have hl := ih (g w s).2
    rw [List.mapM_cons]
    refine ⟨⟨hl.1.1.trans hw.beside.2.1, hl.1.2.trans hw.beside.2.2⟩,
      fun h => hl.2.1 (hw.owed h), ?_⟩
    rcases hl.2.2 with hrest | hrest
    · exact .inl hrest
    · rcases hw.shows with hrow | hrow
      · exact .inl (hl.2.1 hrow)
      · apply Or.inr
        change ((g w s).1.1 :: (l.mapM g (g w s).2).1.map Prod.fst).filterMap _ = _
        rw [filterMap_cons_shown, filterMap_cons_shown, hrow, hrest]

theorem owes_forRows {α : Type} {p : DockRow → Bool} {f : DockRow → SteerM (DockRow × α)}
    (hf : ∀ w, RowOwes w Prod.fst (f w)) : Owes (forRows p f) := by
  have hg : ∀ w, RowOwes w Prod.fst (if p w then (f w >>= fun x => pure (x.1, some x.2))
    else return (w, none) : SteerM (DockRow × Option α)) := by
    intro w s
    by_cases hp : p w = true
    · simp only [hp, if_true]
      exact hf w s
    · simp only [hp, Bool.false_eq_true, if_false]
      exact ⟨⟨rfl, rfl, rfl⟩, id, .inr rfl⟩
  intro s
  obtain ⟨hbeside, howed, hshows⟩ := mapM_rowOwes hg s.record.rows s
  refine ⟨hbeside.2, howed, ?_⟩
  rcases hshows with h | h
  · exact .inl h
  · exact .inr (Prod.ext h hbeside.1)

theorem owes_eachRow {p : DockRow → Bool} {f : DockRow → SteerM DockRow}
    (hf : ∀ w, RowOwes w id (f w)) : Owes (eachRow p f) :=
  owes_ignore (owes_forRows hf)

/-- A row that is rewritten where it does not show. -/
theorem rowOwes_pure {α : Type} {w : DockRow} {row : α → DockRow} {a : α}
    (h : (row a).shown = w.shown) : RowOwes w row (pure a) :=
  fun _ => ⟨⟨rfl, rfl, rfl⟩, id, .inr h⟩

theorem rowOwes_ite {α : Type} {w : DockRow} {row : α → DockRow} {c : Prop} [Decidable c]
    {m m' : SteerM α} (hm : c → RowOwes w row m) (hm' : ¬ c → RowOwes w row m') :
    RowOwes w row (if c then m else m') := by
  split
  · next h => exact hm h
  · next h => exact hm' h

theorem RowOwed.of_owing {w w' : DockRow} {s t : Locked} (hrecord : t.record = s.record)
    (h : t.fx.owed = true) : RowOwed w s w' t :=
  ⟨⟨by rw [hrecord], by rw [hrecord], by rw [hrecord]⟩, fun _ => h, .inl h⟩

/-- A row's state is written with the changed flag. -/
theorem rowOwes_setState (w w₀ : DockRow) (st : RowState) : RowOwes w₀ id (setState w st) := by
  intro s
  apply RowOwed.of_owing
  · change ((guarded _ _ s).2).record = s.record
    unfold guarded
    split <;> rfl
  · rfl

theorem rowOwes_retire (w w₀ : DockRow) (steer : Option EntrySteer) :
    RowOwes w₀ id (retire w steer) := by
  intro s
  cases steer with
  | none => exact .of_owing rfl rfl
  | some entry =>
    simp only [retire]
    by_cases h : w.noted = true
    · simp only [h, if_true]
      exact .of_owing rfl rfl
    · simp only [h, Bool.false_eq_true, if_false]
      exact .of_owing rfl rfl

/-- A rewrite of a row is followed by an answer. -/
theorem RowOwes.map {α β : Type} {w : DockRow} {row : α → DockRow} {row' : β → DockRow}
    {m : SteerM α} {f : α → β} (hm : RowOwes w row m) (hf : ∀ a, row' (f a) = row a) :
    RowOwes w row' (m >>= fun a => pure (f a)) := by
  intro s
  have hrow := hm s
  rw [← hf] at hrow
  exact hrow

theorem shown_owner (w : DockRow) (owner : String) :
    ({ w with owner := owner } : DockRow).shown = w.shown := rfl

theorem owes_ownRows {p : DockRow → Bool} {owner : DockRow → String} :
    Owes (eachRow p fun w => return { w with owner := owner w }) :=
  owes_eachRow fun w => rowOwes_pure (shown_owner w _)

/-! ## The frames of KAS -/

theorem statePure_apply {α : Type} (a : α) (s : Locked) : (StateT.pure a : SteerM α) s = (a, s) :=
  rfl

/-- An agent row is taken, or nothing happens. -/
theorem takeOther_cases (id : String) (s : Locked) :
    takeOther id s = (none, s) ∨ ∃ p r, r.gone = s.record.gone ∧
      takeOther id s = (some p, { s with record := r }) := by
  cases h : s.record.others.find? (·.steerID = id) with
  | none =>
    apply Or.inl
    simp only [takeOther, record, bind, StateT.bind, get, getThe, MonadStateOf.get, StateT.get, pure,
      statePure_apply, h]
  | some p =>
    refine .inr ⟨p, { s.record with others := s.record.others.eraseP (·.steerID = id) }, rfl, ?_⟩
    simp only [takeOther, record, bind, StateT.bind, get, getThe, MonadStateOf.get, StateT.get, pure,
      statePure_apply, h]
    rfl

/-- A taken agent row is owed by what follows. -/
theorem owes_takeOther {α : Type} {id : String} {f : Option SteerQueued → SteerM α}
    (hnone : Owes (f none)) (hsome : ∀ p, Owing (f (some p))) : Owes (takeOther id >>= f) := by
  intro s
  change Owed s (f (takeOther id s).1 (takeOther id s).2).2
  rcases takeOther_cases id s with h | ⟨p, r, hgone, h⟩
  · rw [h]
    exact hnone s
  · rw [h]
    obtain ⟨hsame, howed⟩ := hsome p { s with record := r }
    exact .of_owing (hsame.trans hgone) howed

theorem owes_takeOther_changed (id : String) :
    Owes (takeOther id >>= fun other => guarded other.isSome changed) :=
  owes_takeOther (owes_pure _) fun _ => owing_changed

theorem sameGone_pureRows {p : DockRow → Bool} {g : DockRow → DockRow} :
    Keeps SameGone (eachRow p fun w => return (g w)) := by
  have hrow : ∀ w, Keeps SameGone (if p w then do
      let (w', a) ← (do return (← (return (g w) : SteerM DockRow), ()) : SteerM (DockRow × Unit))
      return (w', some a)
    else return (w, none) : SteerM (DockRow × Option Unit)) := by
    intro w
    apply keeps_ite
    · exact fun _ => sameGone_composes.refl
    · exact fun _ => sameGone_composes.refl
  intro s
  exact sameGone_composes.keeps_mapM hrow s.record.rows s

theorem owes_steerWaiting (p : SteerQueued) : Owes (steerWaiting p) := by
  apply owes_record.bind
  intro r
  split
  · apply Owing.owes
    apply Owing.after
    · exact fun _ => rfl
    · exact fun _ => owing_changed.bind fun _ => owes_pure _
  · exact (owes_emit _).bind fun _ => owes_pure _
  · exact (owes_emit _).bind fun _ => owes_pure _

theorem owes_oweProbe : Owes oweProbe := by
  apply Owes.bind
  · exact owes_update (fun _ => rfl) fun _ => rfl
  · intro _
    apply owes_record.bind
    intro r
    apply keeps_ite
    · exact fun _ => owes_update (fun _ => rfl) fun _ => rfl
    · intro _
      apply Owes.bind
      · exact owes_update (fun _ => rfl) fun _ => rfl
      · exact fun _ => owes_job _

theorem owes_probeReadLocked (ev : SteerEvent) : Owes (probeReadLocked ev) := by
  apply owes_record.bind
  intro r
  split
  · apply Owes.bind
    · exact owes_update (fun _ => rfl) fun _ => rfl
    · exact fun _ => owes_guarded (owes_job _)
  · exact owes_oweProbe
  · exact owes_pure _

theorem owes_readLocked (id : String) (byAck : Bool) : Owes (readLocked id byAck) := by
  apply Owes.bind
  · exact owes_guarded (owes_takeOther_changed id)
  · intro _
    apply owes_record.bind
    intro r
    apply keeps_ite
    · exact fun _ => owes_pure _
    · intro _
      -- the rows that were read stop showing, and the flag follows
      apply Owing.owes
      apply Owing.after sameGone_pureRows
      intro _
      apply owing_changed.bind
      intro _
      apply Owes.bind
      · exact owes_guarded (owes_probeReadLocked _)
      · exact fun _ => owes_pure _

theorem owes_steerForgotten (ids : List String) : Owes (steerForgotten ids) := by
  apply Owes.bind
  · apply owed_composes.keeps_mapM
    intro id
    apply owes_takeOther
    · exact owes_readLocked id true
    · exact fun _ => owing_changed.bind fun _ => owes_pure _
  · exact fun _ => owes_pure _

theorem owes_clearUnderLocked (id : String) (promptHeld : Bool) :
    Owes (clearUnderLocked id promptHeld) := by
  apply owes_record.bind
  intro r
  apply Owes.bind
  · apply owes_eachRow
    intro w
    exact rowOwes_ite (fun _ => rowOwes_setState _ _ _) fun _ => rowOwes_pure rfl
  · intro _
    apply Owes.bind
    · exact owes_guarded (owes_update (fun _ => rfl) fun _ => rfl)
    · exact fun _ => owes_pure _

theorem owes_steerCleared (ids : List String) (promptHeld : Bool) :
    Owes (steerCleared ids promptHeld) := by
  apply Owes.bind
  · apply owed_composes.keeps_mapM
    intro id
    have hrest : ∀ other : Option SteerQueued, Owes (do
        let named ← clearUnderLocked id promptHeld
        return (other, named)) :=
      fun _ => (owes_clearUnderLocked id promptHeld).bind fun _ => owes_pure _
    apply owes_takeOther
    · exact hrest none
    · exact fun p => Owing.bind owing_changed fun _ => hrest (some p)
  · intro out
    apply owes_record.bind
    intro r
    apply Owes.bind
    · exact owes_guarded owes_oweProbe
    · exact fun _ => owes_pure _

/-! ## The turn's ends -/

/-- The record beside its rows, and what is owed. -/
structure Beside (s t : Locked) : Prop where
  rows : t.record.rows = s.record.rows
  others : t.record.others = s.record.others
  gone : t.record.gone = s.record.gone
  fx : t.fx = s.fx

theorem beside_composes : Composes Beside where
  refl _ := ⟨rfl, rfl, rfl, rfl⟩
  trans h h' := ⟨h'.rows.trans h.rows, h'.others.trans h.others, h'.gone.trans h.gone,
    h'.fx.trans h.fx⟩

theorem beside_guarded {c : Prop} [Decidable c] {m : SteerM Unit} (hm : Keeps Beside m) :
    Keeps Beside (guarded c m) := keeps_ite (fun _ => hm) fun _ => beside_composes.refl

theorem Beside.rowOwed {w w' : DockRow} {s t u : Locked} (h : Beside s t)
    (hrow : RowOwed w t w' u) : RowOwed w s w' u :=
  ⟨⟨hrow.beside.1.trans h.rows, hrow.beside.2.1.trans h.others, hrow.beside.2.2.trans h.gone⟩,
    fun hs => hrow.owed (h.fx ▸ hs), hrow.shows⟩

theorem RowOwes.after {α β : Type} {w : DockRow} {row : β → DockRow} {m : SteerM α}
    {f : α → SteerM β} (hm : Keeps Beside m) (hf : ∀ a, RowOwes w row (f a)) :
    RowOwes w row (m >>= f) :=
  fun s => (hm s).rowOwed (hf (m s).1 (m s).2)

theorem beside_noteOpEnd (w : DockRow) (en : SteerTurnEnd) : Keeps Beside (noteOpEnd w en) := by
  apply beside_composes.keeps_bind
  · exact fun s => beside_composes.refl s
  · exact fun r => beside_guarded fun _ => ⟨rfl, rfl, rfl, rfl⟩

theorem owes_collectEnded (en : SteerTurnEnd) (own unbound : Bool) (ev : SteerEvent) :
    Owes (collectEnded en own unbound ev) := by
  apply owes_record.bind
  intro r
  apply Owes.bind
  · apply owes_forRows
    intro w
    apply RowOwes.after
    · exact beside_guarded fun _ => ⟨rfl, rfl, rfl, rfl⟩
    · intro _
      apply rowOwes_ite
      · intro _
        apply RowOwes.after (beside_noteOpEnd _ en)
        exact fun _ => rowOwes_pure (shown_owner w _)
      · exact fun _ => rowOwes_pure (shown_owner w _)
  · exact fun _ => owes_pure _

theorem owes_handToJob (seqs : List ℕ) (en : SteerTurnEnd) : Owes (handToJob seqs en) := by
  apply Owes.bind
  · exact fun _ => ⟨rfl, id, .inr rfl⟩
  · intro _
    apply Owes.bind
    · exact owed_composes.refl
    · intro s
      apply owes_ownRows.bind
      intro _
      exact owes_changed.bind fun _ => owes_job _

theorem owes_endLocked (en : SteerTurnEnd) : Owes (endLocked en) := by
  apply owes_record.bind
  intro r
  apply Owes.bind
  · exact owes_guarded (owes_update (fun _ => rfl) fun _ => rfl)
  · intro _
    apply (owes_collectEnded _ _ _ _).bind
    intro collected
    apply Owes.bind
    · exact owes_guarded (owes_update (fun _ => rfl) fun _ => rfl)
    · intro _
      apply owes_record.bind
      intro r'
      apply Owes.bind
      · exact owes_update (fun _ => rfl) fun _ => rfl
      · exact fun _ => owes_guarded (owes_handToJob _ _)

theorem owes_turnBound (turnID : String) : Owes (turnBound turnID) := by
  apply owes_record.bind
  intro r
  apply Owes.bind
  · exact owes_guarded (owes_endLocked _)
  · exact fun _ => owes_update (fun _ => rfl) fun _ => rfl

theorem owes_turnRevised (turnID : String) : Owes (turnRevised turnID) := by
  apply owes_record.bind
  exact fun r => owes_guarded (owes_update (fun _ => rfl) fun _ => rfl)

theorem owes_bridgeGone : Owes bridgeGone := by
  apply owes_record.bind
  intro r
  apply owes_guarded
  apply owes_eachRow
  intro w
  apply RowOwes.after
  · exact fun _ => ⟨rfl, rfl, rfl, rfl⟩
  · exact fun _ => rowOwes_setState _ _ _

/-! ## Routing and sends -/

section Sends
variable (mint : ℕ → String)

theorem rowOwes_sendSelf (w : DockRow) : RowOwes w Prod.fst (sendSelf mint w) := by
  apply rowOwes_ite
  · exact fun _ => (rowOwes_setState _ w _).map fun _ => rfl
  · exact fun _ => (rowOwes_setState _ w _).map fun _ => rfl

theorem owes_combine (id : String) (rows : List DockRow) (st : RowState) :
    Owes (combine id rows st) :=
  (owes_eachRow fun w => rowOwes_setState _ w _).bind fun _ => owes_pure _

theorem owes_probeOf (rows : List DockRow) : Owes (probeOf mint rows) := by
  apply owes_record.bind
  intro r
  apply Owes.bind
  · exact owes_update (fun _ => rfl) fun _ => rfl
  · exact fun _ => owes_combine _ _ _

theorem owes_routeLocked (w : DockRow) : Owes (routeLocked mint w) := by
  apply owes_record.bind
  intro r
  cases r.channel with
  | none => exact owes_forRows (rowOwes_sendSelf mint)
  | opened =>
    apply (owes_forRows (rowOwes_sendSelf mint)).bind
    intro ahead
    exact (owes_forRows (rowOwes_sendSelf mint)).bind fun _ => owes_pure _
  | unconfirmed => exact (owes_probeOf mint [w]).bind fun _ => owes_pure _
  | probing => exact (owes_eachRow fun o => rowOwes_setState _ o _).bind fun _ => owes_pure _

theorem owes_routeRow (w : DockRow) (h : SteerHolder) : Owes (routeRow mint w h) := by
  apply owes_record.bind
  intro r
  apply keeps_ite
  · exact fun _ => (owes_eachRow fun o => rowOwes_setState _ o _).bind fun _ => owes_pure _
  · intro _
    apply keeps_ite
    · exact fun _ => (owes_eachRow fun o => rowOwes_setState _ o _).bind fun _ => owes_pure _
    · intro _
      apply keeps_ite
      · exact fun _ => (owes_routeLocked mint w).bind fun _ => owes_pure _
      · exact fun _ => owes_pure _

/-- A new row shows, and its frame is owed. -/
theorem owes_routeSteer (key text : String) (h : SteerHolder) :
    Owes (routeSteer mint key text h) := by
  apply owes_record.bind
  intro r
  split
  · exact owes_routeRow mint _ h
  · apply keeps_ite
    · exact fun _ => owes_pure _
    · intro _
      apply keeps_ite
      · exact fun _ => owes_pure _
      · intro _
        apply Owing.owes
        apply Owing.after
        · exact fun _ => rfl
        · exact fun _ => (owing_emit _).bind fun _ => owes_routeRow mint _ h

theorem owes_planFlush : Owes (planFlush mint) := by
  apply owes_record.bind
  intro r
  apply keeps_ite
  · exact fun _ => owes_pure _
  · intro _
    apply keeps_ite
    · exact fun _ => owes_forRows (rowOwes_sendSelf mint)
    · intro _
      apply keeps_ite
      · exact fun _ => (owes_probeOf mint _).bind fun _ => owes_pure _
      · exact fun _ => owes_pure _

end Sends

theorem owes_refusedLocked (id : String) : Owes (refusedLocked id) := by
  apply owes_record.bind
  intro r
  apply Owes.bind
  · apply owes_eachRow
    exact fun w => rowOwes_ite (fun _ => rowOwes_setState _ _ _) fun _ => rowOwes_pure rfl
  · intro _
    apply owes_guarded
    apply Owes.bind
    · exact owes_eachRow fun w => rowOwes_setState _ _ _
    · exact fun _ => owes_update (fun _ => rfl) fun _ => rfl

theorem owes_postLoadCleared (cleared : List String) : Owes (postLoadCleared cleared) := by
  apply Owes.bind
  · exact owes_update (fun _ => rfl) fun _ => rfl
  · intro _
    apply owes_eachRow
    exact fun w => rowOwes_ite (fun _ => rowOwes_setState _ _ _) fun _ => rowOwes_pure rfl

/-! ## The ops -/

theorem owes_mark (opID target : String) : Owes (mark opID target) := by
  apply Owes.bind
  · exact owes_update (fun _ => rfl) fun _ => rfl
  · exact fun _ => owes_ownRows

theorem owes_beginRemove (key opID : String) : Owes (beginRemove key opID) := by
  apply owes_record.bind
  intro r
  apply keeps_ite
  · exact fun _ => owes_pure _
  · intro _
    split
    · exact owes_pure _
    · apply keeps_ite
      · exact fun _ => owes_pure _
      · intro _
        apply owes_ownRows.bind
        intro _
        split
        · apply Owes.bind
          · exact owes_eachRow fun o => rowOwes_retire _ _ _
          · intro _
            apply owes_record.bind
            intro r'
            apply Owes.bind
            · exact owes_guarded (owes_update (fun _ => rfl) fun _ => rfl)
            · exact fun _ => owes_pure _
        · exact keeps_ite (fun _ => owes_pure _) fun _ =>
            keeps_ite (fun _ => owes_pure _) fun _ => (owes_mark opID key).bind fun _ => owes_pure _
        · exact owes_pure _

theorem owes_keepOwnedLocked (opID : String) (cleared : List String) :
    Owes (keepOwnedLocked opID cleared) := by
  apply Owes.bind
  · apply owes_eachRow
    exact fun w => rowOwes_ite (fun _ => rowOwes_setState _ _ _) fun _ => rowOwes_pure rfl
  · intro _
    apply owes_record.bind
    intro r
    apply Owes.bind
    · apply owes_forRows
      intro w
      apply rowOwes_ite
      · exact fun _ => rowOwes_pure (shown_owner w _)
      · intro _
        apply rowOwes_ite
        · exact fun _ => (rowOwes_retire _ w _).map fun _ => rfl
        · intro _
          apply rowOwes_ite
          · exact fun _ => rowOwes_pure (shown_owner w _)
          · exact fun _ => rowOwes_pure rfl
    · exact fun _ => owes_pure _

theorem owes_resubmitLocked (mint : ℕ → String) (kept : List DockRow) :
    Owes (resubmitLocked mint kept) := by
  apply owes_record.bind
  intro r
  apply keeps_ite
  · intro _
    apply Owes.bind
    · exact owes_guarded (owes_update (fun _ => rfl) fun _ => rfl)
    · exact fun _ => owes_pure _
  · intro _
    apply keeps_ite
    · exact fun _ => (owes_probeOf mint kept).bind fun _ => owes_pure _
    · exact fun _ => (owes_combine _ _ _).bind fun _ => owes_pure _

theorem owes_removeCleared (mint : ℕ → String) (opID : String) (cleared : List String)
    (landed : Bool) : Owes (removeCleared mint opID cleared landed) := by
  apply owes_record.bind
  intro r
  apply keeps_ite
  · exact fun _ => owes_pure _
  · intro _
    apply keeps_ite
    · exact fun _ => owes_pure _
    · intro _
      apply (owes_keepOwnedLocked opID cleared).bind
      rintro ⟨kept, consumed⟩
      apply keeps_ite
      · exact fun _ => (owes_resubmitLocked mint kept).bind fun _ => owes_pure _
      · exact fun _ => owes_pure _

theorem owes_opSent (opID id : String) (queued failed : Bool) :
    Owes (opSent opID id queued failed) := by
  apply owes_record.bind
  exact fun r => owes_guarded (owes_refusedLocked id)

theorem owes_releaseOp (opID : String) : Owes (releaseOp opID) := by
  apply owes_ownRows.bind
  intro _
  apply owes_update
  · intro r
    split <;> rfl
  · intro r
    split <;> rfl

theorem owes_endOp (opID : String) : Owes (endOp opID) := by
  apply owes_record.bind
  intro r
  apply keeps_ite
  · exact fun _ => owes_pure _
  · intro _
    apply keeps_ite
    · intro _
      apply Owes.bind
      · exact owes_update (fun _ => rfl) fun _ => rfl
      · exact fun _ => owes_pure _
    · intro _
      apply (owes_releaseOp opID).bind
      intro _
      apply owes_record.bind
      intro r'
      apply Owes.bind
      · exact owes_guarded (owes_job _)
      · exact fun _ => owes_pure _

theorem owes_discardLocked (opID : String) : Owes (discardLocked opID) := by
  apply Owes.bind
  · apply owes_eachRow
    intro w
    apply rowOwes_ite
    · exact fun _ => rowOwes_pure (shown_owner w _)
    · intro _
      exact rowOwes_ite (fun _ => rowOwes_retire _ _ _) fun _ => rowOwes_pure rfl
  · exact fun _ => owes_releaseOp opID

theorem owes_beginDiscard (opID : String) : Owes (beginDiscard opID) := by
  apply owes_record.bind
  intro r
  apply keeps_ite
  · exact fun _ => owes_pure _
  · intro _
    apply Owes.bind
    · exact owes_update (fun _ => rfl) fun _ => rfl
    · intro _
      apply owes_ownRows.bind
      intro _
      apply Owes.bind
      · exact owes_guarded (owes_discardLocked opID)
      · exact fun _ => owes_pure _

theorem owes_discardCleared (opID : String) (landed : Bool) :
    Owes (discardCleared opID landed) := by
  apply owes_record.bind
  intro r
  apply keeps_ite
  · exact fun _ => owes_pure _
  · intro _
    apply keeps_ite
    · exact fun _ => owes_pure _
    · intro _
      apply Owes.bind
      · exact owes_guarded (owes_update (fun _ => rfl) fun _ => rfl)
      · exact fun _ => (owes_discardLocked opID).bind fun _ => owes_pure _

/-! ## The job's verbs -/

theorem owes_jobRows (owner lead : String) : Owes (jobRows owner lead) := by
  apply owes_ownRows.bind
  intro _
  exact owes_record.bind fun _ => owes_pure _

theorem owes_straysCleared (owner : String) (cleared : List String) (all : Bool) :
    Owes (straysCleared owner cleared all) := owes_eachRow fun _ => rowOwes_setState _ _ _

theorem owes_release (owner : String) (inKASOnly : Bool) : Owes (release owner inKASOnly) :=
  owes_ownRows

theorem owes_unsent (owner : String) : Owes (unsent owner) := by
  apply owes_eachRow
  intro w
  apply rowOwes_ite
  · exact fun _ => rowOwes_pure (shown_owner w _)
  · exact fun _ => rowOwes_setState _ _ _

theorem owes_resent (owner : String) (rows : List SteerRow) : Owes (resent owner rows) := by
  apply Owes.bind
  · apply owed_composes.keeps_mapM
    intro row
    apply owes_record.bind
    intro r
    split
    · exact owes_pure _
    · apply keeps_ite
      · exact fun _ => owes_pure _
      · intro _
        apply Owes.bind
        · apply owes_guarded
          apply Owes.bind
          · exact owes_eachRow fun o => rowOwes_pure rfl
          · exact fun _ => owes_note _ _
        · exact fun _ => owes_pure _
  · exact fun _ => owes_pure _

theorem owes_delivered (owner : String) : Owes (delivered owner) :=
  owes_eachRow fun _ => rowOwes_retire _ _ _

theorem owes_nextParked : Owes nextParked := by
  apply owes_record.bind
  intro r
  apply Owes.bind
  · exact owes_eachRow fun w => rowOwes_setState _ _ _
  · intro _
    exact owes_record.bind fun _ => owes_pure _

/-- Every call's step owes what it shows. -/
theorem SteerCall.fn_owes (mint : ℕ → String) (op : SteerCall) : Owes (op.fn mint) := by
  cases op with
  | waiting p => exact owes_ignore (owes_steerWaiting p)
  | read id => exact owes_ignore (owes_readLocked id false)
  | forgotten ids => exact owes_ignore (owes_steerForgotten ids)
  | cleared ids promptHeld => exact owes_ignore (owes_steerCleared ids promptHeld)
  | turnBound turnID => exact owes_turnBound turnID
  | turnRevised turnID => exact owes_turnRevised turnID
  | turnEnded en => exact owes_endLocked en
  | bridgeGone => exact owes_bridgeGone
  | postLoadCleared ids _ => exact owes_postLoadCleared ids
  | agentRowsWaiting => exact owes_pure _
  | route key text h => exact owes_ignore (owes_routeSteer mint key text h)
  | sent id _ _ => exact owes_refusedLocked id
  | beginRemove key opID => exact owes_ignore (owes_beginRemove key opID)
  | removeCleared opID ids landed => exact owes_ignore (owes_removeCleared mint opID ids landed)
  | opSent opID id queued failed => exact owes_opSent opID id queued failed
  | endOp opID => exact owes_ignore (owes_endOp opID)
  | beginDiscard opID => exact owes_ignore (owes_beginDiscard opID)
  | discardCleared opID landed => exact owes_ignore (owes_discardCleared opID landed)
  | jobRows owner lead => exact owes_ignore (owes_jobRows owner lead)
  | straysCleared owner ids all => exact owes_straysCleared owner ids all
  | release owner inKASOnly => exact owes_release owner inKASOnly
  | unsent owner => exact owes_unsent owner
  | resent owner rows => exact owes_ignore (owes_resent owner rows)
  | delivered owner => exact owes_delivered owner
  | planFlush => exact owes_ignore (owes_planFlush mint)
  | nextParked => exact owes_ignore owes_nextParked

end Marotte.Steers
