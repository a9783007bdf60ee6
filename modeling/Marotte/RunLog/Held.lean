import Marotte.RunLog.Store
import Marotte.Transcript.Faithful

/-! # The moments of a run's log

The log behind the first actions of a list, for each of its lengths. What a frame leaves of the
turns and lanes that it is not about stays from one moment to the next.
-/
namespace Marotte.Transcript.RunLog

variable {as bs : List Action} {turn lane : String} {i k k' : ℕ} {f : Frame} {o g : OpenEntry}

/-- Each action fits the log it is taken on, and takes ids that are new there. -/
structure Lawful (as : List Action) : Prop where
  admits : ({} : Log).Through Log.Admits as
  names : ({} : Log).Through Log.Names as

theorem Lawful.append (h : Lawful as) (ha : (Log.after as).Through Log.Admits bs)
    (hn : (Log.after as).Through Log.Names bs) : Lawful (as ++ bs) :=
  ⟨Log.through_append.mpr ⟨h.admits, ha⟩, Log.through_append.mpr ⟨h.names, hn⟩⟩

theorem Lawful.take (h : Lawful as) (k : ℕ) : Lawful (as.take k) := by
  have hsplit := List.take_append_drop k as
  constructor
  · apply (Log.through_append.mp (_ : ({} : Log).Through Log.Admits (as.take k ++ as.drop k))).1
    rw [hsplit]
    exact h.admits
  · apply (Log.through_append.mp (_ : ({} : Log).Through Log.Names (as.take k ++ as.drop k))).1
    rw [hsplit]
    exact h.names

theorem Lawful.history (h : Lawful as) : History as := by
  have hall : History ([] ++ as) := History.empty.concatAll h.admits h.names
  rwa [List.nil_append] at hall

/-- The log behind the first `k` actions. -/
def logAt (as : List Action) (k : ℕ) : Log := Log.after (as.take k)

theorem Lawful.historyAt (h : Lawful as) (k : ℕ) : History (as.take k) := (h.take k).history

theorem logAt_length (as : List Action) : logAt as as.length = Log.after as := by
  rw [logAt, List.take_length]

theorem logAt_append (h : k ≤ as.length) : logAt (as ++ bs) k = logAt as k := by
  rw [logAt, logAt, List.take_append_of_le_length h]

theorem logAt_succ {a : Action} (h : as[i]? = some a) : logAt as (i + 1) = (logAt as i).act a := by
  rw [logAt, List.take_add_one, h, Option.toList_some, after_concat, logAt]

theorem Lawful.admitsAt (h : Lawful as) {a : Action} (ha : as[i]? = some a) :
    (logAt as i).Admits a := by
  obtain ⟨hlt, hget⟩ := List.getElem?_eq_some_iff.mp ha
  have hthrough := h.admits
  rw [← List.take_append_drop i as, Log.through_append, List.drop_eq_getElem_cons hlt, hget]
    at hthrough
  exact hthrough.2.1

theorem take_split (h : k ≤ k') : as.take k' = as.take k ++ (as.take k').drop k := by
  conv_lhs => rw [← List.take_append_drop k (as.take k')]
  rw [List.take_take, Nat.min_eq_left h]

theorem own_logAt (h : k ≤ k') (turn : String) :
    (logAt as k).own turn <+: (logAt as k').own turn := by
  rw [logAt, logAt, take_split h]
  exact Log.own_after _ _ turn

theorem order_logAt (h : k ≤ k') : (logAt as k).order <+: (logAt as k').order := by
  rw [logAt, logAt, take_split h]
  exact Log.order_after _ _

/-- How many entries a turn has at a moment. -/
def count (as : List Action) (k : ℕ) (turn : String) : ℕ := ((logAt as k).own turn).length

theorem count_le (h : k ≤ k') (turn : String) : count as k turn ≤ count as k' turn :=
  (own_logAt h turn).length_le

theorem own_after_logAt (as : List Action) (k : ℕ) (turn : String) :
    (logAt as k).own turn <+: (Log.after as).own turn := by
  rw [logAt]
  conv_rhs => rw [← List.take_append_drop k as]
  exact Log.own_after _ _ turn

/-- An open entry of a moment was spoken. -/
theorem spoken_of_tail (h : (logAt as k).tail turn lane = some o) : Spoken as o :=
  ⟨as.take k, List.take_prefix k as, Log.mem_of_tail h⟩

theorem spokenAt_of_tail (h : (logAt as k).tail turn lane = some o) (hk : k ≤ k') :
    Spoken (as.take k') o := by
  refine ⟨as.take k, ?_, Log.mem_of_tail h⟩
  rw [take_split hk]
  exact List.prefix_append _ _

/-! ## What a frame leaves as it is -/

def frameLane : Frame → Option String
  | .entryOpened o => some o.lane
  | .entryDelta _ _ lane _ _ | .entrySealed _ _ lane _ _ _ => some lane
  | .turnOpened _ | .entryAppended _ => none

theorem own_announce_of_ne (l : Log) (h : turn ≠ frameTurn f) :
    (l.announce f).own turn = l.own turn := by
  cases f with
  | turnOpened e =>
    have hne : e.turn ≠ turn := Ne.symm h
    change (l.place e).own turn = l.own turn
    rw [Log.own_place, if_neg hne, List.append_nil]
  | entryAppended e =>
    have hne : e.turn ≠ turn := Ne.symm h
    change (l.place e).own turn = l.own turn
    rw [Log.own_place, if_neg hne, List.append_nil]
  | entryOpened o => rfl
  | entryDelta turn' id lane n delta =>
    simp only [Log.announce]
    split
    · rfl
    · rfl
  | entrySealed turn' id lane seq ts n =>
    simp only [Log.announce]
    split
    · next o ho =>
      have hne : o.turn ≠ turn := fun heq => h (heq.symm.trans (Log.place_of_tail ho).1)
      rw [Log.own_eraseTail, Log.own_place]
      change l.own turn ++ (if o.turn = turn then _ else _) = _
      rw [if_neg hne, List.append_nil]
    · rfl

/-- A lane is changed by the frames that name it. -/
theorem tail_announce_of_ne (l : Log) (h : frameTurn f = turn → frameLane f ≠ some lane) :
    (l.announce f).tail turn lane = l.tail turn lane := by
  cases f with
  | turnOpened e => rfl
  | entryAppended e => rfl
  | entryOpened o =>
    apply Log.tail_setTail_of_ne
    intro heq
    obtain ⟨hturn, hlane⟩ := Prod.mk.inj heq
    exact h hturn.symm (congrArg some hlane.symm)
  | entryDelta turn' id lane' n delta =>
    simp only [Log.announce]
    split
    · next o ho =>
      obtain ⟨hturn, hlane⟩ := Log.place_of_tail ho
      apply Log.tail_setTail_of_ne
      intro heq
      obtain ⟨hturn', hlane'⟩ := Prod.mk.inj heq
      exact h (hturn.symm.trans hturn'.symm) (congrArg some (hlane.symm.trans hlane'.symm))
    · rfl
  | entrySealed turn' id lane' seq ts n =>
    simp only [Log.announce]
    split
    · apply Log.tail_eraseTail_of_ne
      intro heq
      obtain ⟨hturn, hlane⟩ := Prod.mk.inj heq
      exact h hturn.symm (congrArg some hlane.symm)
    · rfl

end Marotte.Transcript.RunLog

/-! ## What the browser holds of a run's turn

Every frame and every answer leaves a held turn true of the log: its entries are the log's first,
and its open tails are such as the lanes had and sealed in none of the entries.
-/
namespace Marotte.Transcript.RunLog



variable {as bs : List Action} {turn lane : String} {t : RunTurn} {st : TurnState} {f : Frame}
  {e : Entry} {o : OpenEntry} {entries : List Entry} {tails : List OpenEntry}

/-- The reply to a read is its turn's range of the log as it was. -/
structure AnswerFits (as : List Action) (turn : String) (read : RangeRead) (answer : RangeAnswer) :
    Prop where
  le : answer.taken ≤ as.length
  reply : ∀ reply, answer.reply = some reply →
    (logAt as answer.taken).turnRange turn read.afterSeq = some reply

/-- A turn at the browser that is true of the log, with a read that asks past what is held. -/
structure RunTurn.Fits (as : List Action) (turn : String) (t : RunTurn) : Prop where
  held : ∀ st, t.state = some st → Held as turn st ∧ st.entries ≠ []
  asked : ∀ read, t.inFlight = some read → ∀ after, read.afterSeq = some after →
    ∃ st, t.state = some st ∧ after < st.entries.length
  answered : ∀ read, t.inFlight = some read → ∀ answer, read.answer = some answer →
    AnswerFits as turn read answer

theorem AnswerFits.mono {read : RangeRead} {answer : RangeAnswer}
    (h : AnswerFits as turn read answer) : AnswerFits (as ++ bs) turn read answer where
  le := by
    rw [List.length_append]
    exact Nat.le_add_right_of_le h.le
  reply reply hreply := by
    rw [logAt_append h.le]
    exact h.reply reply hreply

/-- The reply is of the turn's entries and open tails. -/
theorem AnswerFits.ranged {read : RangeRead} {answer : RangeAnswer}
    (h : AnswerFits as turn read answer) (hlawful : Lawful as)
    (hreply : answer.reply = some (entries, tails)) : Ranged as turn entries tails := by
  have hranged := (hlawful.historyAt answer.taken).turnRange (h.reply _ hreply)
  have hmono := @Ranged.mono _ (as.drop answer.taken) _ _ _ hranged
  rwa [List.take_append_drop] at hmono

namespace RunTurn.Fits

theorem empty (as : List Action) (turn : String) : ({} : RunTurn).Fits as turn :=
  ⟨by simp, by simp, by simp⟩

theorem mono (h : t.Fits as turn) : t.Fits (as ++ bs) turn where
  held st hst := ⟨(h.held st hst).1.mono, (h.held st hst).2⟩
  asked := h.asked
  answered read hread answer hanswer := (h.answered read hread answer hanswer).mono

theorem requestRange (h : t.Fits as turn) : (t.requestRange t.heldSeq).Fits as turn := by
  rw [RunTurn.requestRange]
  split
  · exact h
  · refine ⟨h.held, ?_, ?_⟩
    · intro read hread after hafter
      cases hread
      obtain ⟨st, hst, hsome⟩ := Option.bind_eq_some_iff.mp hafter
      refine ⟨st, hst, ?_⟩
      have hpos := List.length_pos_iff.mpr (h.held st hst).2
      rw [if_neg (h.held st hst).2, Option.some_inj] at hsome
      omega
    · intro read hread answer hanswer
      cases hread
      cases hanswer

theorem markRunHole (h : t.Fits as turn) : t.markRunHole.Fits as turn := by
  have hmarked : ({ t with hole := true }).Fits as turn := ⟨h.held, h.asked, h.answered⟩
  exact hmarked.requestRange

/-- The turn with more of its entries, or with other tails. -/
theorem withState (h : t.Fits as turn) {st' : TurnState} (hheld : Held as turn st')
    (hmore : ∀ st, t.state = some st → st.entries.length ≤ st'.entries.length)
    (hne : st'.entries ≠ []) : ({ t with state := some st' }).Fits as turn where
  held st hst := by
    cases hst
    exact ⟨hheld, hne⟩
  asked read hread after hafter := by
    obtain ⟨st, hst, hlt⟩ := h.asked read hread after hafter
    exact ⟨st', rfl, Nat.lt_of_lt_of_le hlt (hmore st hst)⟩
  answered := h.answered

/-- The turn with other tails. -/
theorem withOpen (h : t.Fits as turn) (hst : t.state = some st) {st' : TurnState}
    (hheld : Held as turn st') (hsame : st'.entries = st.entries) :
    ({ t with state := some st' }).Fits as turn := by
  apply h.withState hheld
  · intro st'' hst''
    rw [hst, Option.some_inj] at hst''
    rw [hsame, hst'']
  · rw [hsame]
    exact (h.held st hst).2

/-! ## Frames -/

theorem openRunTurn (h : t.Fits as turn) (hlawful : Lawful as)
    (he : ((Log.after as).own turn)[0]? = some e) : (t.openRunTurn e).Fits as turn := by
  rw [RunTurn.openRunTurn]
  split
  · exact h
  · next hnone =>
    have hl := hlawful.history.sound
    have hseq := hl.seqs turn 0 e he
    have hk : e.kind = .turnOpen := (hl.heads turn 0 e he).mpr rfl
    have hplace : (Log.after as).Places e ∧ e.turn = turn := by
      have hmem := List.mem_of_getElem? he
      exact ⟨hl.places_of_mem hmem, Log.mem_own hmem⟩
    have hfirst : Prefixed (Log.after as) turn { entries := [e] } := by
      apply ((Prefixed.empty (Log.after as) turn).push hplace.1 hplace.2 hseq).of_entries
      · rfl
      · simp [TurnState.push, hk]
    apply h.withState ⟨hfirst, Tailed.of_untailed rfl⟩
    · intro st hst
      rw [hst] at hnone
      exact absurd rfl hnone
    · simp

/-- An entry that none of its turn's open tails has become. -/
theorem appendRunEntry (h : t.Fits as turn) (he : (Log.after as).Places e) (hturn : e.turn = turn)
    (hid : ∀ st, t.state = some st → ∀ o ∈ st.openEntries, e.id ≠ o.id) :
    (t.appendRunEntry e).Fits as turn := by
  rw [RunTurn.appendRunEntry]
  split
  · exact h.markRunHole
  · next st hst =>
    obtain ⟨⟨hp, ht⟩, hne⟩ := h.held st hst
    split
    · split
      · exact h
      · exact h.markRunHole
    · next hseq =>
      rw [not_not] at hseq
      apply h.withState
      · refine ⟨hp.push he hturn hseq, ht.of_entries rfl ?_⟩
        intro e' he'
        rcases List.mem_append.mp he' with he' | he'
        · exact .inl he'
        · rw [List.mem_singleton.mp he']
          exact .inr (hid st hst)
      · intro st' hst'
        rw [hst, Option.some_inj] at hst'
        rw [← hst', TurnState.entries_push, List.length_append]
        exact Nat.le_add_right _ _
      · rw [TurnState.entries_push]
        exact List.concat_ne_nil _ _

theorem openRunEntry (h : t.Fits as turn) (hturn : o.turn = turn) (ho : Spoken as o)
    (hid : ∀ st, t.state = some st → ∀ e ∈ st.entries, e.id ≠ o.id) :
    (t.openRunEntry o).Fits as turn := by
  rw [RunTurn.openRunEntry]
  split
  · exact h.markRunHole
  · next st hst =>
    obtain ⟨⟨hp, ht⟩, hne⟩ := h.held st hst
    apply h.withOpen hst
    · exact ⟨hp.of_entries rfl rfl, ht.setOpen hturn ho (hid st hst)⟩
    · rfl

theorem applyRunDelta (h : t.Fits as turn) (hlawful : Lawful as) {id delta : String} {n : ℕ}
    (htold : Told as (.entryDelta turn id lane n delta)) :
    (t.applyRunDelta id lane n delta).Fits as turn := by
  obtain ⟨o, ho, hot, hoi, -, hn, hnext⟩ := htold
  rw [RunTurn.applyRunDelta]
  split
  · exact h.markRunHole
  · next st hst =>
    obtain ⟨⟨hp, ht⟩, hne⟩ := h.held st hst
    split
    · next g hg =>
      split
      · next hguard =>
        have hgo : g = o := Client.Fits.openIn_eq hlawful.history ht hg ho hot
          (hguard.1.trans hoi.symm) (by omega)
        rw [hgo] at hg ⊢
        apply h.withOpen hst
        · exact ⟨hp.of_entries rfl rfl, ht.extend (Keyed.mem_of_find hg) rfl rfl hnext⟩
        · rfl
      · exact h.markRunHole
    · exact h.markRunHole

theorem sealRunEntry (h : t.Fits as turn) (hlawful : Lawful as) {id : String} {seq n : ℕ} {ts : ℤ}
    (htold : Told as (.entrySealed turn id lane seq ts n)) :
    (t.sealRunEntry turn id lane seq ts n).Fits as turn := by
  obtain ⟨o, ho, hot, hoi, hol, hn, hown⟩ := htold
  rw [RunTurn.sealRunEntry]
  split
  · exact h.markRunHole
  · next st hst =>
    obtain ⟨⟨hp, ht⟩, hne⟩ := h.held st hst
    split
    · next g hg =>
      split
      · next hguard =>
        have hh := hlawful.history
        have hgo : g = o := Client.Fits.openIn_eq hh ht hg ho hot (hguard.1.trans hoi.symm)
          (by omega)
        have herased : Held as turn { st with
            openEntries := Keyed.erase OpenEntry.lane st.openEntries lane } := by
          refine ⟨hp.of_entries rfl rfl, Keyed.nodup_erase ht.lanes, ?_, ?_⟩
          · exact fun o' ho' => ht.spoken o' (Keyed.mem_erase.mp ho').1
          · exact fun o' ho' => ht.unsealed o' (Keyed.mem_erase.mp ho').1
        have hentry : o.sealed seq ts =
            { id := g.id, turn, lane, payload := .say g.kind g.text, seq, ts } := by
          rw [hgo, OpenEntry.sealed, hot, hol]
        rw [← hentry]
        apply (h.withOpen hst herased rfl).appendRunEntry _ hot
        · intro st' hst' o' ho' hids
          cases hst'
          -- a tail of the same id would stand in the lane that was erased
          obtain ⟨hmem, hlane⟩ := Keyed.mem_erase.mp ho'
          obtain ⟨hturn', hs'⟩ := ht.spoken o' hmem
          exact hlane ((hh.same o o' ho hs' (hot.trans hturn'.symm) hids).1.symm.trans hol)
        · change ((Log.after as).own o.turn)[seq]? = _
          rw [hot]
          exact hown
      · exact h.markRunHole
    · exact h.markRunHole

/-- A frame of the log; an opened entry is not sealed in its turn. -/
theorem receive (hlawful : Lawful as) (hf : .announced f ∈ as) (h : t.Fits as (frameTurn f))
    (hid : ∀ o, f = .entryOpened o → ∀ st, t.state = some st → ∀ e ∈ st.entries, e.id ≠ o.id) :
    (t.receive f).Fits as (frameTurn f) := by
  have htold := hlawful.history.told f hf
  cases f with
  | turnOpened e => exact h.openRunTurn hlawful htold
  | entryOpened o => exact h.openRunEntry rfl htold (hid o rfl)
  | entryDelta turn id lane n delta => exact h.applyRunDelta hlawful htold
  | entrySealed turn id lane seq ts n => exact h.sealRunEntry hlawful htold
  | entryAppended e =>
    apply h.appendRunEntry htold rfl
    intro st hst o ho
    obtain ⟨ht, hs⟩ := (h.held st hst).1.tailed.spoken o ho
    exact (hlawful.history.appended e hf o hs ht).symm

end RunTurn.Fits
end Marotte.Transcript.RunLog
