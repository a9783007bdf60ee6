import Marotte.Transcript.Effects

/-! # The window is true of the log

At every state of a run, whatever frames are lost or come twice and whenever a read is answered,
each held turn is what the log has of it, if no open tail is seated under an id that the turn
already holds sealed.
-/
namespace Marotte.Transcript

variable {as bs : List Action} {turn : String} {c c' : Client} {st : TurnState} {e : Entry}
  {o : OpenEntry} {entries : List Entry} {tails : List OpenEntry} {s : Session}

/-- An answer's open tails: each is one that a lane had, and is not sealed in the answer. -/
structure Answered (as : List Action) (entries : List Entry) (tails : List OpenEntry) : Prop where
  spoken : ∀ o ∈ tails, Spoken as o
  unsealed : ∀ o ∈ tails, ∀ e ∈ entries, e.turn = o.turn → e.id ≠ o.id

structure Paged (as : List Action) (entries : List Entry) (tails : List OpenEntry) : Prop
    extends Answered as entries tails, Listed as entries tails

/-- A range's answer is of one turn. -/
structure Ranged (as : List Action) (turn : String) (entries : List Entry)
    (tails : List OpenEntry) : Prop extends Answered as entries tails where
  places : ∀ e ∈ entries, (Log.after as).Places e
  own : ∀ e ∈ entries, e.turn = turn

theorem Answered.mono (h : Answered as entries tails) : Answered (as ++ bs) entries tails :=
  ⟨fun o ho => (h.spoken o ho).mono, h.unsealed⟩

theorem Paged.mono (h : Paged as entries tails) : Paged (as ++ bs) entries tails :=
  ⟨h.toAnswered.mono, h.toListed.mono⟩

theorem Ranged.mono (h : Ranged as turn entries tails) : Ranged (as ++ bs) turn entries tails :=
  ⟨h.toAnswered.mono, fun e he => (h.places e he).mono, h.own⟩

theorem History.page (h : History as) {size : ℕ} {before : Option String}
    (ha : (Log.after as).page size before = some (entries, tails)) : Paged as entries tails := by
  obtain ⟨hlisted, hentries, htails⟩ := h.sound.page ha
  refine ⟨⟨fun o ho => spoken_of_mem (htails o ho), ?_⟩, hlisted⟩
  intro o ho e he ht
  exact h.unsealed o (htails o ho) e (ht ▸ (hentries e he).2)

theorem History.turnRange (h : History as) {after : Option ℕ}
    (ha : (Log.after as).turnRange turn after = some (entries, tails)) :
    Ranged as turn entries tails := by
  obtain ⟨-, hentries, htails⟩ := Log.turnRange_some ha
  refine ⟨⟨fun o ho => spoken_of_mem (htails o ho), ?_⟩, ?_, ?_⟩
  · intro o ho e he ht
    have hown := hentries e he
    rw [← Log.mem_own hown, ht] at hown
    exact h.unsealed o (htails o ho) e hown
  · exact fun e he => h.sound.places_of_mem (hentries e he)
  · exact fun e he => Log.mem_own (hentries e he)

/-- The held turns are true of the log, and so are the answers in flight. -/
structure Client.Fits (as : List Action) (c : Client) : Prop where
  held : ∀ turn st, c.turns turn = some st → Held as turn st
  page : ∀ load entries tails, c.load = some load → load.answer = some (some (entries, tails)) →
    Paged as entries tails
  ranges : ∀ r ∈ c.repairs, ∀ entries tails, r.answer = some (some (entries, tails)) →
    Ranged as r.turn entries tails

namespace Client.Fits

theorem mono (h : c.Fits as) : c.Fits (as ++ bs) where
  held turn st hst := (h.held turn st hst).mono
  page load entries tails hload ha := (h.page load entries tails hload ha).mono
  ranges r hr entries tails ha := (h.ranges r hr entries tails ha).mono

/-- Turns dropped, and reads dropped. -/
theorem of_less (h : c.Fits as) (ht : ∀ turn st, c'.turns turn = some st → c.turns turn = some st)
    (hl : c'.load = c.load ∨ c'.load = none) (hr : ∀ r ∈ c'.repairs, r ∈ c.repairs) :
    c'.Fits as where
  held turn st hst := h.held turn st (ht turn st hst)
  page load entries tails hload ha := by
    rcases hl with hl | hl
    · exact h.page load entries tails (hl ▸ hload) ha
    · rw [hl] at hload
      cases hload
  ranges r hmem := h.ranges r (hr r hmem)

theorem setTurn (h : c.Fits as) (hst : Held as turn st) : (c.setTurn turn st).Fits as where
  held turn' st' hget := by
    by_cases ht : turn' = turn
    · rw [ht, Client.turns_setTurn_self] at hget
      obtain rfl := Option.some_inj.mp hget
      rw [ht]
      exact hst
    · rw [Client.turns_setTurn_of_ne c st ht] at hget
      exact h.held turn' st' hget
  page := h.page
  ranges := h.ranges

theorem markWindowStale (h : c.Fits as) : c.markWindowStale.Fits as := by
  rw [Client.markWindowStale]
  split
  · exact ⟨h.held, h.page, h.ranges⟩
  · exact h

theorem noteResidentMutation (h : c.Fits as) : c.noteResidentMutation.Fits as := by
  rw [Client.noteResidentMutation]
  split
  · exact ⟨h.held, h.page, h.ranges⟩
  · exact h

theorem requestTurnRange (h : c.Fits as) (turn : String) (after : Option ℕ) :
    (c.requestTurnRange turn after).Fits as := by
  rw [Client.requestTurnRange]
  split
  · exact h
  · refine ⟨h.held, h.page, ?_⟩
    intro r hr entries tails ha
    rcases List.mem_append.mp hr with hr | hr
    · exact h.ranges r hr entries tails ha
    · rw [List.mem_singleton.mp hr] at ha
      cases ha

theorem markHole (h : c.Fits as) (turn : String) (after : Option ℕ) :
    (c.markHole turn after).Fits as := h.markWindowStale.requestTurnRange turn after

theorem loadMessages (h : c.Fits as) (before : Option String) : (c.loadMessages before).Fits as where
  held := h.held
  page load entries tails hload ha := by
    obtain rfl := Option.some_inj.mp hload
    cases ha
  ranges := h.ranges

theorem abortReadsForRevert (h : c.Fits as) (turns : List String) :
    (c.abortReadsForRevert turns).Fits as := by
  have hcut : ∀ {c' : Client}, c'.Fits as →
      ({ c' with repairs := c'.repairs.filter (·.turn ∉ turns) } : Client).Fits as := fun h' =>
    h'.of_less (fun _ _ hst => hst) (.inl rfl) fun r hr => List.mem_of_mem_filter hr
  rw [Client.abortReadsForRevert]
  apply hcut
  cases hload : c.load with
  | none => exact h
  | some load =>
    by_cases hbefore : load.before.isNone = true
    · simp only [hbefore, if_true]
      exact h.loadMessages none
    · simp only [hbefore, Bool.false_eq_true, if_false]
      exact h.of_less (fun _ _ hst => hst) (.inr rfl) fun _ hr => hr

/-! ## Frames -/

theorem openTurn (h : c.Fits as) (hl : (Log.after as).Sound)
    (he : ((Log.after as).own e.turn)[0]? = some e) : (c.openTurn e).Fits as := by
  rw [Client.openTurn]
  split
  · exact h
  · have hseq := hl.seqs e.turn 0 e he
    have hk : e.kind = .turnOpen := (hl.heads e.turn 0 e he).mpr rfl
    have hfirst : Prefixed (Log.after as) e.turn { entries := [e] } := by
      apply ((Prefixed.empty (Log.after as) e.turn).push (e := e) _ rfl hseq).of_entries
      · rfl
      · simp [TurnState.push, hk]
      · rw [Log.Places, hseq]
        exact he
    have hset := h.noteResidentMutation.setTurn ⟨hfirst, Tailed.of_untailed rfl⟩
    exact ⟨hset.held, hset.page, hset.ranges⟩

theorem applyRevert (h : c.Fits as) (e : Entry) : (c.applyRevert e).Fits as := by
  rw [Client.applyRevert]
  split
  · apply abortReadsForRevert
    refine h.of_less ?_ (.inl rfl) fun _ hr => hr
    intro turn st hst
    simp only at hst
    split at hst
    · cases hst
    · exact hst
  · exact h

/-- An entry that none of its turn's open tails has become. -/
theorem appendEntry (h : c.Fits as) (he : (Log.after as).Places e)
    (hid : ∀ st, c.turns e.turn = some st → ∀ o ∈ st.openEntries, e.id ≠ o.id) :
    (c.appendEntry e).Fits as := by
  simp only [Client.appendEntry]
  split
  · split
    · exact h.applyRevert e
    · exact h.markHole _ _
  · next st hst =>
    obtain ⟨hp, ht⟩ := h.held _ _ hst
    split
    · split
      · exact h
      · exact h.markHole _ _
    · next hseq =>
      have hpush : Held as e.turn (st.push e) := by
        refine ⟨hp.push he rfl (not_not.mp hseq), ht.of_entries rfl ?_⟩
        intro e' he'
        rcases List.mem_append.mp he' with he' | he'
        · exact .inl he'
        · rw [List.mem_singleton.mp he']
          exact .inr (hid st hst)
      have hset := h.noteResidentMutation.setTurn hpush
      split
      · exact hset.applyRevert e
      · exact hset

theorem openEntry (h : c.Fits as) (ho : Spoken as o)
    (hid : ∀ st, c.turns o.turn = some st → ∀ e ∈ st.entries, e.id ≠ o.id) :
    (c.openEntry o).Fits as := by
  rw [Client.openEntry]
  split
  · exact h.markHole _ _
  · next st hst =>
    obtain ⟨hp, ht⟩ := h.held _ _ hst
    exact h.setTurn ⟨hp.of_entries rfl rfl, ht.setOpen rfl ho (hid st hst)⟩

/-- The open entry that a window has in a lane, where a frame tells of one with its id and count. -/
theorem openIn_eq (hh : History as) (ht : Tailed as turn st) {lane : String} {g : OpenEntry}
    (hg : st.openIn lane = some g) (ho : Spoken as o) (hturn : o.turn = turn) (hid : g.id = o.id)
    (hn : g.n = o.n) : g = o := by
  have hmem := Keyed.mem_of_find hg
  obtain ⟨hgt, hgs⟩ := ht.spoken g hmem
  obtain ⟨hl, hk, htext⟩ := hh.same g o hgs ho (hgt.trans hturn.symm) hid
  cases g
  cases o
  simp_all

theorem applyDelta (h : c.Fits as) (hh : History as) {id lane delta : String} {n : ℕ}
    (htold : Told as (.entryDelta turn id lane n delta)) :
    (c.applyDelta turn id lane n delta).Fits as := by
  obtain ⟨o, ho, hot, hoi, -, hn, hnext⟩ := htold
  simp only [Client.applyDelta]
  split
  · exact h.markHole _ _
  · next st hst =>
    obtain ⟨hp, ht⟩ := h.held _ _ hst
    split
    · next g hg =>
      split
      · next hguard =>
        have hgo : g = o := by
          apply openIn_eq hh ht hg ho hot (hguard.1.trans hoi.symm)
          omega
        apply h.setTurn
        rw [hgo] at hg ⊢
        constructor
        · exact hp.of_entries rfl rfl
        · exact ht.extend (Keyed.mem_of_find hg) rfl rfl hnext
      · exact h.markHole _ _
    · exact h.markHole _ _

theorem sealEntry (h : c.Fits as) (hh : History as) {id lane : String} {seq n : ℕ} {ts : ℤ}
    (htold : Told as (.entrySealed turn id lane seq ts n)) :
    (c.sealEntry turn id lane seq ts n).Fits as := by
  obtain ⟨o, ho, hot, hoi, hol, hn, hown⟩ := htold
  simp only [Client.sealEntry]
  split
  · exact h.markHole _ _
  · next st hst =>
    obtain ⟨hp, ht⟩ := h.held _ _ hst
    split
    · next g hg =>
      split
      · next hguard =>
        have hgo : g = o := openIn_eq hh ht hg ho hot (hguard.1.trans hoi.symm) (by omega)
        have herased : Held as turn { st with
            openEntries := Keyed.erase OpenEntry.lane st.openEntries lane } := by
          refine ⟨hp.of_entries rfl rfl, Keyed.nodup_erase ht.lanes, ?_, ?_⟩
          · exact fun o' ho' => ht.spoken o' (Keyed.mem_erase.mp ho').1
          · exact fun o' ho' => ht.unsealed o' (Keyed.mem_erase.mp ho').1
        have hentry : o.sealed seq ts =
            { id := g.id, turn, lane, payload := .say g.kind g.text, seq, ts } := by
          rw [hgo, OpenEntry.sealed, hot, hol]
        rw [← hentry]
        apply (h.setTurn herased).appendEntry
        · change ((Log.after as).own o.turn)[seq]? = _
          rw [hot]
          exact hown
        · intro st' hst' o' ho' hids
          change (c.setTurn turn _).turns o.turn = some st' at hst'
          rw [hot, Client.turns_setTurn_self] at hst'
          obtain rfl := Option.some_inj.mp hst'
          -- a tail of the same id would stand in the lane that was erased
          obtain ⟨hmem, hne⟩ := Keyed.mem_erase.mp ho'
          obtain ⟨hturn', hs'⟩ := ht.spoken o' hmem
          exact hne ((hh.same o o' ho hs' (hot.trans hturn'.symm) hids).1.symm.trans hol)
      · exact h.markHole _ _
    · exact h.markHole _ _

/-- A frame that is told of the log; an opened entry is not sealed in its turn. -/
theorem receive (h : c.Fits as) (hh : History as) {f : Frame} (hf : .announced f ∈ as)
    (hid : ∀ o, f = .entryOpened o →
      ∀ st, c.turns o.turn = some st → ∀ e ∈ st.entries, e.id ≠ o.id) :
    (c.receive f).Fits as := by
  have htold := hh.told f hf
  cases f with
  | turnOpened e => exact h.openTurn hh.sound htold
  | entryOpened o => exact h.openEntry htold (hid o rfl)
  | entryDelta turn id lane n delta => exact h.applyDelta hh htold
  | entrySealed turn id lane seq ts n => exact h.sealEntry hh htold
  | entryAppended e =>
    apply h.appendEntry htold
    intro st hst o ho
    obtain ⟨ht, hs⟩ := (h.held _ _ hst).tailed.spoken o ho
    exact (hh.appended e hf o hs ht).symm

/-! ## Answers -/

theorem applyPage (h : c.Fits as) (hl : (Log.after as).Sound) (hp : Paged as entries tails)
    (hid : ∀ o ∈ tails, ∀ st, c.turns o.turn = some st → ∀ e ∈ st.entries, e.id ≠ o.id)
    (older : Bool) (heldAtRequest : List String) :
    (c.applyPage (buildPageTurns entries tails) older heldAtRequest).Fits as := by
  have hpage : ∀ turn st, (buildPageTurns entries tails).turns turn = some st →
      Held as turn st ∧ ∀ o ∈ st.openEntries, o ∈ tails ∧ o.turn = turn := by
    intro turn st hst
    rw [buildPageTurns_turns hp.lined hp.tailed] at hst
    split at hst
    · cases hst
    · obtain rfl := Option.some_inj.mp hst
      have hmem : ∀ o ∈ tails.filter (·.turn = turn), o ∈ tails ∧ o.turn = turn := by
        intro o ho
        simpa using ho
      refine ⟨⟨?_, ?_⟩, ?_⟩
      · apply (Prefixed.ofEntries hl _).of_entries
        · rw [TurnState.entries_withTails]
        · rw [TurnState.closeAt_withTails]
        · exact hp.own_prefix turn
      · apply (Tailed.of_untailed (TurnState.openEntries_ofEntries _)).withTails
        · exact fun o ho => ⟨(hmem o ho).2, hp.spoken o (hmem o ho).1⟩
        · intro o ho e he
          rw [TurnState.entries_ofEntries, List.mem_filter, decide_eq_true_eq] at he
          exact hp.unsealed o (hmem o ho).1 e he.1 (he.2.trans (hmem o ho).2.symm)
      · intro o ho
        rcases TurnState.mem_withTails ho with ho | ho
        · rw [TurnState.openEntries_ofEntries] at ho
          cases ho
        · exact hmem o ho
  have hturns : ∀ turn st,
      (c.applyPage (buildPageTurns entries tails) older heldAtRequest).turns turn = some st →
      Held as turn st := by
    intro turn st hst
    rcases turns_applyPage hst with hst | ⟨page, hget, rfl⟩
    · exact h.held turn st hst
    · obtain ⟨hheld, hmem⟩ := hpage turn page hget
      cases hc : c.turns turn with
      | none => exact hheld
      | some held =>
        apply Held.mergeTurn hl hheld (h.held turn held hc)
        intro o ho
        obtain ⟨hot, hturn⟩ := hmem o ho
        exact hid o hot held (hturn ▸ hc)
  constructor
  · exact hturns
  · rw [(reads_applyPage ..).1]
    exact h.page
  · rw [(reads_applyPage ..).2]
    exact h.ranges

theorem loadFails (h : c.Fits as) : c.loadFails.Fits as := by
  rw [Client.loadFails]
  split
  · exact h
  · exact h.of_less (fun _ _ hst => hst) (.inr rfl) fun _ hr => hr

theorem endRepair (h : c.Fits as) (turn : String) : (c.endRepair turn).Fits as :=
  h.of_less (fun _ _ hst => hst) (.inl rfl) fun _ hr => (Keyed.mem_erase.mp hr).1

theorem insertTurnByOrdinal (h : c.Fits as) (hst : Held as turn st) :
    (c.insertTurnByOrdinal turn st).Fits as :=
  (h.setTurn hst).of_less (fun _ _ hst => hst) (.inl rfl) fun _ hr => hr

theorem applyTurnRange (h : c.Fits as) (ha : Ranged as turn entries tails)
    (hid : ∀ o ∈ tails, ∀ st, c.turns o.turn = some st → ∀ e ∈ st.entries, e.id ≠ o.id) :
    (c.applyTurnRange turn entries tails).Fits as := by
  simp only [Client.applyTurnRange]
  split
  · exact h
  · generalize hheld : (c.turns turn).getD { entries := [] } = held
    have hprefixed : Prefixed (Log.after as) turn held ∧
        ∀ o ∈ tails, o.turn = turn → ∀ e ∈ held.entries, e.id ≠ o.id := by
      rw [← hheld]
      cases hc : c.turns turn with
      | none => exact ⟨Prefixed.empty _ _, by simp⟩
      | some st =>
        refine ⟨(h.held turn st hc).prefixed, ?_⟩
        intro o ho ht
        exact hid o ho st (ht ▸ hc)
    have hrun : Prefixed (Log.after as) turn (held.seatRun entries) :=
      hprefixed.1.seatRun fun e he => ⟨ha.places e he, ha.own e he⟩
    have hst : Held as turn ((held.seatRun entries).seatTails turn tails) := by
      apply Held.seatTails hrun ha.spoken
      intro o ho ht e he
      rcases TurnState.mem_seatRun he with he | he
      · exact hprefixed.2 o ho ht e he
      · exact ha.unsealed o ho e he ((ha.own e he).trans ht.symm)
    have hset : (if (c.turns turn).isNone = true
        then c.insertTurnByOrdinal turn ((held.seatRun entries).seatTails turn tails)
        else c.setTurn turn ((held.seatRun entries).seatTails turn tails)).Fits as := by
      split
      · exact h.insertTurnByOrdinal hst
      · exact h.setTurn hst
    generalize (if (c.turns turn).isNone = true
      then c.insertTurnByOrdinal turn ((held.seatRun entries).seatTails turn tails)
      else c.setTurn turn ((held.seatRun entries).seatTails turn tails)) = c' at hset ⊢
    split
    · exact h
    · split
      · split
        · exact hset.requestTurnRange _ _
        · exact hset
      · split
        · exact ⟨hset.held, hset.page, hset.ranges⟩
        · exact hset

theorem pageArrives (h : c.Fits as) (hl : (Log.after as).Sound)
    (hid : ∀ load entries tails, c.load = some load → load.answer = some (some (entries, tails)) →
      ∀ o ∈ tails, ∀ st, c.turns o.turn = some st → ∀ e ∈ st.entries, e.id ≠ o.id) :
    c.pageArrives.Fits as := by
  simp only [Client.pageArrives]
  split
  · exact h
  · next load hload =>
    split
    · exact h
    · exact h.loadFails
    · next entries tails ha =>
      have hpage := h.page load entries tails hload ha
      have happlied : ({ c.applyPage (buildPageTurns entries tails) load.before.isSome
          load.heldAtRequest with load := none } : Client).Fits as :=
        (h.applyPage hl hpage (hid load entries tails hload ha) _ _).of_less
          (fun _ _ hst => hst) (.inr rfl) fun _ hr => hr
      rw [buildPageTurns_holes hpage.lined hpage.tailed, if_pos rfl]
      split
      · exact ⟨happlied.held, happlied.page, happlied.ranges⟩
      · exact happlied

theorem rangeArrives (h : c.Fits as)
    (hid : ∀ r entries tails, Keyed.find Repair.turn c.repairs turn = some r →
      r.answer = some (some (entries, tails)) →
      ∀ o ∈ tails, ∀ st, c.turns o.turn = some st → ∀ e ∈ st.entries, e.id ≠ o.id) :
    (c.rangeArrives turn).Fits as := by
  simp only [Client.rangeArrives]
  split
  · exact h
  · next r hr =>
    split
    · exact h
    · exact h.endRepair turn
    · next entries tails ha =>
      have hrange := h.ranges r (Keyed.mem_of_find hr) entries tails ha
      rw [Keyed.key_of_find hr] at hrange
      exact (h.endRepair turn).applyTurnRange hrange (hid r entries tails hr ha)

end Client.Fits

/-! ## Runs -/

namespace Session

/-- The ids that the server gives are new to their turns. -/
def Minted (s : Session) : Event → Prop
  | .server op => s.log.Through Log.Names (s.log.perform op)
  | _ => True

instance (s : Session) (event : Event) : Decidable (s.Minted event) :=
  match event with
  | .server op => inferInstanceAs (Decidable (s.log.Through Log.Names (s.log.perform op)))
  | .deliver _ | .load _ | .ask .. | .answerLoad _ | .answerRange _ | .pageArrives
  | .rangeArrives _ | .loadLost | .rangeLost _ | .loadCancelled | .evict => isTrue trivial

/-- The open tails that a step seats as a frame or an answer has them. -/
def seats (s : Session) : Event → List OpenEntry
  | .deliver i =>
    match s.actions[i]? with
    | some (.announced (.entryOpened o)) => [o]
    | _ => []
  | .pageArrives => tailsOf (s.client.load.bind Load.answer)
  | .rangeArrives turn =>
    tailsOf ((Keyed.find Repair.turn s.client.repairs turn).bind Repair.answer)
  | _ => []
where
  tailsOf : Option Answer → List OpenEntry
    | some (some (_, tails)) => tails
    | _ => []

/-- No open tail is seated that its turn holds sealed. -/
def Unsealed (s : Session) (event : Event) : Prop :=
  ∀ o ∈ s.seats event, ∀ st ∈ s.client.turns o.turn, ∀ e ∈ st.entries, e.id ≠ o.id

instance (s : Session) (event : Event) : Decidable (s.Unsealed event) :=
  inferInstanceAs (Decidable (∀ o ∈ s.seats event, ∀ st ∈ s.client.turns o.turn,
    ∀ e ∈ st.entries, e.id ≠ o.id))

structure Invariant (s : Session) : Prop where
  history : History s.actions
  fits : s.client.Fits s.actions

theorem invariant_empty : Invariant {} where
  history := History.empty
  fits := ⟨nofun, nofun, nofun⟩

namespace Invariant

theorem receive (h : s.Invariant) {i : ℕ} {f : Frame} (hi : s.actions[i]? = some (.announced f))
    (hid : ∀ o, f = .entryOpened o →
      ∀ st, s.client.turns o.turn = some st → ∀ e ∈ st.entries, e.id ≠ o.id) :
    (s.receive i f).Invariant := by
  have hfits := h.fits.receive h.history (List.mem_of_getElem? hi) hid
  simp only [Session.receive]
  split
  · split
    · split
      · exact ⟨h.history, hfits⟩
      · exact ⟨h.history, hfits⟩
    · exact ⟨h.history, hfits⟩
  · exact ⟨h.history, hfits⟩

theorem step (h : s.Invariant) {event : Event} (hm : s.Minted event) (hu : s.Unsealed event) :
    (s.step event).Invariant := by
  have hc := h.fits
  cases event with
  | server op => exact ⟨h.history.concatAll (h.history.sound.performs op) hm, hc.mono⟩
  | deliver i =>
    simp only [Session.step]
    split
    · next f hi =>
      apply h.receive hi
      rintro o rfl
      apply hu
      simp [seats, hi]
    · exact h
  | load before => exact ⟨h.history, hc.loadMessages before⟩
  | ask turn whole =>
    refine ⟨h.history, ?_⟩
    simp only [Session.step, onClient]
    split
    · exact hc.requestTurnRange turn none
    · split
      · exact hc.requestTurnRange turn _
      · exact hc
  | answerLoad size =>
    refine ⟨h.history, hc.held, ?_, hc.ranges⟩
    intro load entries tails hload ha
    obtain ⟨load', hload', rfl⟩ := Option.map_eq_some_iff.mp hload
    cases hans : load'.answer with
    | none =>
      simp only [hans, Option.none_or, Option.some_inj] at ha
      exact h.history.page ha
    | some answer =>
      simp only [hans, Option.some_or, Option.some_inj] at ha
      exact hc.page load' entries tails hload' (hans.trans (congrArg some ha))
  | answerRange turn =>
    refine ⟨h.history, hc.held, hc.page, ?_⟩
    intro r hr entries tails ha
    obtain ⟨r', hr', rfl⟩ := List.mem_map.mp hr
    by_cases ht : r'.turn = turn
    · subst ht
      rw [if_pos rfl] at ha ⊢
      cases hans : r'.answer with
      | none =>
        simp only [hans, Option.none_or, Option.some_inj] at ha
        exact h.history.turnRange ha
      | some answer =>
        simp only [hans, Option.some_or, Option.some_inj] at ha
        exact hc.ranges r' hr' entries tails (hans.trans (congrArg some ha))
    · rw [if_neg ht] at ha ⊢
      exact hc.ranges r' hr' entries tails ha
  | pageArrives =>
    refine ⟨h.history, hc.pageArrives h.history.sound ?_⟩
    intro load entries tails hload ha o ho
    apply hu
    simp only [seats, hload, Option.bind_some, ha, seats.tailsOf]
    exact ho
  | rangeArrives turn =>
    refine ⟨h.history, hc.rangeArrives ?_⟩
    intro r entries tails hr ha o ho
    apply hu
    simp only [seats, hr, Option.bind_some, ha, seats.tailsOf]
    exact ho
  | loadLost => exact ⟨h.history, hc.loadFails⟩
  | rangeLost turn => exact ⟨h.history, hc.endRepair turn⟩
  | loadCancelled =>
    exact ⟨h.history, hc.of_less (fun _ _ hst => hst) (.inr rfl) fun _ hr => hr⟩
  | evict => exact ⟨h.history, hc.of_less (by intros; contradiction) (.inl rfl) fun _ hr => hr⟩

end Invariant

theorem invariant_run {events : List Event}
    (h : Along (fun s event => s.Minted event ∧ s.Unsealed event) {} events) :
    (run events).Invariant :=
  run_along invariant_empty (fun _ _ hs hp => hs.step hp.1 hp.2) h

end Session

/-- What a window may hold of a turn: a prefix of the log's entries, closed where that prefix has
the turn_close, and one open tail for each lane, under no id that the entries have. -/
structure TurnState.TrueOf (l : Log) (turn : String) (st : TurnState) : Prop where
  entries : st.entries <+: l.own turn
  seqs : ∀ (i : ℕ) e, st.entries[i]? = some e → e.seq = i
  closed : st.closeAt.isSome ↔ ∃ e ∈ st.entries, e.kind = .turnClose
  closeAt : ∀ i ∈ st.closeAt, ∃ e, st.entries[i]? = some e ∧ e.kind = .turnClose
  lanes : (st.openEntries.map OpenEntry.lane).Nodup
  unsealed : ∀ o ∈ st.openEntries, ∀ e ∈ st.entries, e.id ≠ o.id

theorem Held.trueOf (h : Held as turn st) (hl : (Log.after as).Sound) :
    st.TrueOf (Log.after as) turn where
  entries := h.prefixed.entries
  seqs i e he := h.prefixed.seq_eq hl he
  closed := by
    constructor
    · intro hsome
      obtain ⟨i, hi⟩ := Option.isSome_iff_exists.mp hsome
      obtain ⟨e, he, hk⟩ := h.prefixed.closed i hi
      exact ⟨e, List.mem_of_getElem? he, hk⟩
    · rintro ⟨e, he, hk⟩
      by_contra hnone
      exact h.prefixed.unclosed (Option.not_isSome_iff_eq_none.mp hnone) e he hk
  closeAt := h.prefixed.closed
  lanes := h.tailed.lanes
  unsealed := h.tailed.unsealed

/-- At every state of every run whose ids are new to their turns, a held turn is true of the log,
where no open tail is seated from a frame or an answer that its turn holds sealed. -/
theorem held_turn_true {events : List Event}
    (h : Session.Along (fun s event => s.Minted event ∧ s.Unsealed event) {} events)
    (hst : (Session.run events).client.turns turn = some st) :
    st.TrueOf (Session.run events).log turn :=
  have hinv := Session.invariant_run h
  (hinv.fits.held turn st hst).trueOf hinv.history.sound

/-- A say goes on while the newest page is read, and is sealed once the page has arrived. -/
def followed : List Event :=
  [.server (.openTurn "t" 0), .deliver 0, .server (.openEntry "t" "" "s" .text "a"), .deliver 1,
    .load none, .server (.extend "t" "" "b"), .deliver 2, .answerLoad 20, .pageArrives,
    .server (.seal "t" "" 1), .deliver 3, .server (.openEntry "t" "" "s'" .text "c"), .deliver 4]

theorem held_turn_true_of_followed : TurnState.TrueOf (Session.run followed).log "t" {
    entries := [
      { id := "t", turn := "t", payload := .turnOpen 1, seq := 0 },
      { id := "s", turn := "t", payload := .say .text "ab", seq := 1, ts := 1 }]
    openEntries := [{ turn := "t", id := "s'", lane := "", kind := .text, text := "c", n := 1 }] } := by
  apply @held_turn_true "t" _ followed
  · decide +kernel
  · rfl

/-- A page is answered while a say is open, and arrives after the say is sealed: the turn keeps the
page's open tail beside the sealed entry. -/
def overtakenPage : List Event :=
  [.server (.openTurn "t" 0), .deliver 0, .server (.openEntry "t" "" "s" .text "hi"), .deliver 1,
    .load none, .answerLoad 20, .server (.seal "t" "" 1), .deliver 2, .pageArrives]

theorem page_outlives_seal : Session.Along Session.Minted {} overtakenPage ∧
    ∃ st, (Session.run overtakenPage).client.turns "t" = some st ∧
      ¬ st.TrueOf (Session.run overtakenPage).log "t" := by
  constructor
  · decide +kernel
  · have hsome : ((Session.run overtakenPage).client.turns "t").any (fun st =>
        st.openEntries.any fun o => st.entries.any fun e => e.id = o.id) = true := by
      decide +kernel
    obtain ⟨st, hst, hany⟩ := (Option.any_eq_true ..).mp hsome
    refine ⟨st, hst, ?_⟩
    intro htrue
    obtain ⟨o, ho, he⟩ := List.any_eq_true.mp hany
    obtain ⟨e, hmem, hid⟩ := List.any_eq_true.mp he
    exact htrue.unsealed o ho e hmem (by simpa using hid)

end Marotte.Transcript
