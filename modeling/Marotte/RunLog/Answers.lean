import Marotte.RunLog.Held

/-! # What an answer makes of a run's turn

An answer's entries go on from what was held as it was asked for, so that each is seated or known;
the turn then has the answer's open tails, and its marker is gone.
-/
namespace Marotte.Transcript

/-! ## Open tails in place of the held ones -/

theorem TurnState.mem_withTails_of_mem {st : TurnState} {tails : List OpenEntry} {o : OpenEntry}
    (hlanes : (tails.map OpenEntry.lane).Nodup) (ho : o ∈ tails) :
    o ∈ (st.withTails tails).openEntries := by
  induction tails using List.reverseRecOn with
  | nil => cases ho
  | append_singleton tails o' ih =>
    rw [List.map_append, List.nodup_append] at hlanes
    rw [withTails_concat]
    rcases List.mem_append.mp ho with ho | ho
    · apply Keyed.mem_set_of_ne (ih hlanes.1 ho)
      exact hlanes.2.2 o.lane (List.mem_map_of_mem ho) o'.lane (by simp)
    · rw [List.mem_singleton.mp ho]
      exact Keyed.self_mem_set

/-- The lanes of a turn whose tails are seated are those of the log. -/
theorem TurnState.openIn_seatTails {l : Log} (hl : (l.tails.map OpenEntry.place).Nodup)
    (st : TurnState) (turn lane : String) :
    (st.seatTails turn (l.tails.filter (·.turn = turn))).openIn lane = l.tail turn lane := by
  have hown : ∀ o, o ∈ (l.tails.filter (·.turn = turn)).filter (·.turn = turn) ↔
      o ∈ l.tails ∧ o.turn = turn := by
    intro o
    simp
  generalize hfiltered : (l.tails.filter (·.turn = turn)).filter (·.turn = turn) = tails at hown
  have hlanes : (tails.map OpenEntry.lane).Nodup := by
    rw [List.nodup_map_iff_inj_on]
    · intro o ho o' ho' hlane
      obtain ⟨hmem, hturn⟩ := (hown o).mp ho
      obtain ⟨hmem', hturn'⟩ := (hown o').mp ho'
      apply List.inj_on_of_nodup_map hl hmem hmem'
      rw [OpenEntry.place, OpenEntry.place, hturn, hturn', hlane]
    · rw [← hfiltered]
      exact ((List.Nodup.of_map _ hl).filter _).filter _
  rw [seatTails_eq, hfiltered]
  generalize hseated : ({ st with openEntries := [] } : TurnState).withTails tails = seated
  have hnodup : (seated.openEntries.map OpenEntry.lane).Nodup := by
    rw [← hseated]
    exact nodup_withTails (by simp) tails
  have hmem : ∀ o, o ∈ seated.openEntries ↔ o ∈ tails := by
    intro o
    rw [← hseated]
    constructor
    · intro ho
      rcases mem_withTails ho with ho | ho
      · cases ho
      · exact ho
    · exact mem_withTails_of_mem hlanes
  ext o
  rw [openIn, Log.tail]
  constructor
  · intro ho
    obtain ⟨hin, hturn⟩ := (hown o).mp ((hmem o).mp (Keyed.mem_of_find ho))
    have hplace : o.place = (turn, lane) := by
      rw [OpenEntry.place, hturn, Keyed.key_of_find ho]
    rw [← hplace]
    exact Keyed.find_of_mem hl hin
  · intro ho
    obtain ⟨hturn, hlane⟩ := Log.place_of_tail ho
    rw [← hlane]
    exact Keyed.find_of_mem hnodup ((hmem o).mpr ((hown o).mpr ⟨Log.mem_of_tail ho, hturn⟩))

namespace RunLog

variable {as : List Action} {turn : String} {t t' : RunTurn} {st : TurnState} {e : Entry}
  {entries : List Entry} {tails : List OpenEntry} {i : ℕ}

/-! ## Entries seated one after the other -/

def RunTurn.heldLength (t : RunTurn) : ℕ := (t.state.map fun st => st.entries.length).getD 0

theorem heldLength_of_state (hst : t.state = some st) : t.heldLength = st.entries.length := by
  rw [RunTurn.heldLength, hst]
  rfl

/-- A turn with the log's first entries, whatever its tails. -/
def RunTurn.Seats (as : List Action) (turn : String) (t : RunTurn) : Prop :=
  ∀ st, t.state = some st → Prefixed (Log.after as) turn st ∧ st.entries ≠ []

/-- A turn after entries were seated: at least `n` are held, and nothing was marked or asked. -/
structure Seated (as : List Action) (turn : String) (n : ℕ) (t t' : RunTurn) : Prop where
  hole : t'.hole = t.hole
  inFlight : t'.inFlight = t.inFlight
  seats : t'.Seats as turn
  length : n ≤ t'.heldLength
  more : t.heldLength ≤ t'.heldLength

theorem Seated.same {n : ℕ} (h : t.Seats as turn) (hn : n ≤ t.heldLength) :
    Seated as turn n t t := ⟨rfl, rfl, h, hn, Nat.le_refl _⟩

theorem Seated.trans {n n' : ℕ} {t'' : RunTurn} (h : Seated as turn n t t')
    (h' : Seated as turn n' t' t'') : Seated as turn n' t t'' :=
  ⟨h'.hole.trans h.hole, h'.inFlight.trans h.inFlight, h'.seats, h'.length, Nat.le_trans h.more h'.more⟩

theorem Seated.push {n : ℕ} (hst : t.state = some st) {st' : TurnState}
    (hst' : Prefixed (Log.after as) turn st') (hn : n ≤ st'.entries.length)
    (hmore : st.entries.length ≤ st'.entries.length) (hne : st'.entries ≠ []) :
    Seated as turn n t { t with state := some st' } where
  hole := rfl
  inFlight := rfl
  seats st'' hst'' := by
    cases hst''
    exact ⟨hst', hne⟩
  length := hn
  more := by
    rw [heldLength_of_state hst]
    exact hmore

/-- The entry at a position that is held or next. -/
theorem seated_append (h : t.Seats as turn) (hlawful : Lawful as)
    (he : ((Log.after as).own turn)[i]? = some e) (hst : t.state = some st)
    (hi : i ≤ st.entries.length) : Seated as turn (i + 1) t (t.appendRunEntry e) := by
  obtain ⟨hp, hne⟩ := h st hst
  have hl := hlawful.history.sound
  have hmem := List.mem_of_getElem? he
  have hseq : e.seq = i := hl.seqs turn i e he
  rw [RunTurn.appendRunEntry, hst]
  dsimp only
  split
  · next hother =>
    rw [hseq] at hother
    have hlt : i < st.entries.length := by omega
    have hheld : st.entries[e.seq]? = some e := by
      obtain ⟨rest, hrest⟩ := hp.entries
      rw [← hrest, List.getElem?_append_left hlt] at he
      rw [hseq, he]
    rw [hheld, Option.map_some, if_pos rfl]
    apply Seated.same h
    rw [heldLength_of_state hst]
    omega
  · next hnext =>
    rw [not_not] at hnext
    apply Seated.push hst (hp.push (hl.places_of_mem hmem) (Log.mem_own hmem) hnext)
    · rw [TurnState.entries_push, List.length_append, List.length_singleton]
      omega
    · rw [TurnState.entries_push, List.length_append]
      exact Nat.le_add_right _ _
    · rw [TurnState.entries_push]
      exact List.concat_ne_nil _ _

theorem seated_open (h : t.Seats as turn) (hlawful : Lawful as)
    (he : ((Log.after as).own turn)[0]? = some e) : Seated as turn 1 t (t.openRunTurn e) := by
  rw [RunTurn.openRunTurn]
  split
  · next hsome =>
    obtain ⟨st, hst⟩ := Option.isSome_iff_exists.mp hsome
    apply Seated.same h
    rw [heldLength_of_state hst]
    exact List.length_pos_iff.mpr (h st hst).2
  · next hnone =>
    have hl := hlawful.history.sound
    have hmem := List.mem_of_getElem? he
    have hk : e.kind = .turnOpen := (hl.heads turn 0 e he).mpr rfl
    refine ⟨rfl, rfl, ?_, Nat.le_refl 1, ?_⟩
    · intro st hst
      cases hst
      refine ⟨?_, by simp⟩
      apply ((Prefixed.empty (Log.after as) turn).push (hl.places_of_mem hmem) (Log.mem_own hmem)
        (hl.seqs turn 0 e he)).of_entries
      · rfl
      · simp [TurnState.push, hk]
    · have hzero : t.state = none := Option.not_isSome_iff_eq_none.mp hnone
      rw [RunTurn.heldLength, hzero]
      exact Nat.zero_le _

theorem seated_seat (h : t.Seats as turn) (hlawful : Lawful as)
    (he : ((Log.after as).own turn)[i]? = some e) (hi : i ≤ t.heldLength) :
    Seated as turn (i + 1) t (t.seat turn e) := by
  have hl := hlawful.history.sound
  rw [RunTurn.seat, if_neg (not_not.mpr (Log.mem_own (List.mem_of_getElem? he)))]
  split
  · next hk =>
    rw [hl.heads turn i e he] at hk
    subst hk
    exact seated_open h hlawful he
  · next hk =>
    rw [hl.heads turn i e he] at hk
    cases hst : t.state with
    | none =>
      rw [RunTurn.heldLength, hst] at hi
      exact absurd (Nat.le_zero.mp hi) hk
    | some st =>
      rw [heldLength_of_state hst] at hi
      exact seated_append h hlawful he hst hi

/-- Entries that go on from what is held. -/
theorem seated_foldl (h : t.Seats as turn) (hlawful : Lawful as)
    (hes : entries <+: ((Log.after as).own turn).drop i) (hi : i ≤ t.heldLength) :
    Seated as turn (i + entries.length) t (entries.foldl (RunTurn.seat turn) t) := by
  induction entries generalizing t i with
  | nil => exact Seated.same h hi
  | cons e entries ih =>
    obtain ⟨rest, hrest⟩ := hes
    have he : ((Log.after as).own turn)[i]? = some e := by
      have hfirst : (((Log.after as).own turn).drop i)[0]? = some e := by
        rw [← hrest]
        rfl
      rwa [List.getElem?_drop, Nat.add_zero] at hfirst
    have hnext := seated_seat h hlawful he hi
    have hes : entries <+: ((Log.after as).own turn).drop (i + 1) := by
      refine ⟨rest, ?_⟩
      rw [← List.drop_drop, ← hrest]
      rfl
    have hall := hnext.trans (ih hnext.seats hes hnext.length)
    rw [List.length_cons, ← Nat.add_assoc, Nat.add_right_comm]
    exact hall

@[simp] theorem state_markRunHole (t : RunTurn) : t.markRunHole.state = t.state := by
  rw [RunTurn.markRunHole, RunTurn.requestRange]
  split
  · rfl
  · rfl

/-- What seating adds is what is seated. -/
theorem mem_seat {x : Entry} (hst : (t.seat turn x).state = some st) (he : e ∈ st.entries) :
    (∃ st, t.state = some st ∧ e ∈ st.entries) ∨ e = x := by
  rw [RunTurn.seat] at hst
  split at hst
  · exact .inl ⟨st, hst, he⟩
  split at hst
  · rw [RunTurn.openRunTurn] at hst
    split at hst
    · exact .inl ⟨st, hst, he⟩
    · cases hst
      exact .inr (List.mem_singleton.mp he)
  rw [RunTurn.appendRunEntry] at hst
  split at hst
  · rw [state_markRunHole] at hst
    exact .inl ⟨st, hst, he⟩
  · next held hheld =>
    split at hst
    · split at hst
      · exact .inl ⟨st, hst, he⟩
      · rw [state_markRunHole] at hst
        exact .inl ⟨st, hst, he⟩
    · cases hst
      rcases List.mem_append.mp he with he | he
      · exact .inl ⟨held, hheld, he⟩
      · exact .inr (List.mem_singleton.mp he)

theorem mem_foldl_seat (hst : (entries.foldl (RunTurn.seat turn) t).state = some st)
    (he : e ∈ st.entries) : (∃ st, t.state = some st ∧ e ∈ st.entries) ∨ e ∈ entries := by
  induction entries generalizing t with
  | nil => exact .inl ⟨st, hst, he⟩
  | cons x entries ih =>
    rcases ih hst with ⟨st', hst', he'⟩ | hmem
    · rcases mem_seat hst' he' with hold | rfl
      · exact .inl hold
      · exact .inr List.mem_cons_self
    · exact .inr (List.mem_cons_of_mem _ hmem)

/-! ## The answer -/

/-- How many of a turn's entries a read leaves out. -/
def RangeRead.skipped (read : RangeRead) : ℕ := (read.afterSeq.map (· + 1)).getD 0

theorem Log.filter_after {l : Log} (hl : l.Sound) (turn : String) (after : ℕ) :
    (l.own turn).filter (fun e => after < e.seq) = (l.own turn).drop (after + 1) := by
  conv_lhs => rw [← List.take_append_drop (after + 1) (l.own turn)]
  have hfirst : ((l.own turn).take (after + 1)).filter (fun e => after < e.seq) = [] := by
    rw [List.filter_eq_nil_iff]
    intro e he
    obtain ⟨i, hi⟩ := List.mem_iff_getElem?.mp he
    obtain ⟨hlt, -⟩ := List.getElem?_eq_some_iff.mp hi
    rw [List.length_take] at hlt
    rw [List.getElem?_take_of_lt (by omega)] at hi
    rw [hl.seqs turn i e hi]
    simp
    omega
  have hrest : ((l.own turn).drop (after + 1)).filter (fun e => after < e.seq) =
      (l.own turn).drop (after + 1) := by
    rw [List.filter_eq_self]
    intro e he
    obtain ⟨i, hi⟩ := List.mem_iff_getElem?.mp he
    rw [List.getElem?_drop] at hi
    rw [hl.seqs turn _ e hi]
    simp
    omega
  rw [List.filter_append, hfirst, hrest, List.nil_append]

/-- The reply is the rest of a turn that the log has, with its open tails. -/
theorem AnswerFits.range {read : RangeRead} {answer : RangeAnswer}
    (h : AnswerFits as turn read answer) (hlawful : Lawful as)
    (hreply : answer.reply = some (entries, tails)) :
    entries = ((logAt as answer.taken).own turn).drop read.skipped ∧
      tails = (logAt as answer.taken).tails.filter (·.turn = turn) ∧
      0 < count as answer.taken turn := by
  have hl := (hlawful.historyAt answer.taken).sound
  have hrange := h.reply _ hreply
  rw [Log.turnRange] at hrange
  split at hrange
  · next hturn =>
    obtain ⟨hentries, htails⟩ := Prod.mk.inj (Option.some_inj.mp hrange)
    refine ⟨?_, htails.symm, ?_⟩
    · rw [← hentries, RangeRead.skipped]
      cases read.afterSeq with
      | none => simp
      | some after => exact Log.filter_after hl turn after
    · rw [count, List.length_pos_iff]
      intro hnil
      exact hl.own_eq_nil.mp hnil (Log.mem_order_of_survivors hturn)
  · cases hrange

/-- What an answer leaves: a turn with at least the entries of its moment, its open tails, and no
marker. -/
theorem RunTurn.Fits.adopts (h : t.Fits as turn) (hlawful : Lawful as) {read : RangeRead}
    {answer : RangeAnswer} (hread : t.inFlight = some read) (hanswer : read.answer = some answer)
    (hreply : answer.reply = some (entries, tails))
    (hid : ∀ o ∈ tails, ∀ st, t.state = some st → ∀ e ∈ st.entries, e.id ≠ o.id) :
    ∃ st, { t with inFlight := none }.adopt turn read.before entries tails =
        { state := some st, hole := false, inFlight := none } ∧
      Held as turn st ∧ t.heldLength ≤ st.entries.length ∧
      count as answer.taken turn ≤ st.entries.length ∧
      ∀ lane, st.openIn lane = (logAt as answer.taken).tail turn lane := by
  have hfits := h.answered read hread answer hanswer
  obtain ⟨hentries, htails, hpos⟩ := hfits.range hlawful hreply
  have hranged := hfits.ranged hlawful hreply
  have hskipped : read.skipped ≤ t.heldLength := by
    rw [RangeRead.skipped]
    cases hafter : read.afterSeq with
    | none => exact Nat.zero_le _
    | some after =>
      obtain ⟨st, hst, hlt⟩ := h.asked read hread after hafter
      rw [heldLength_of_state hst]
      exact hlt
  have hseats : ({ t with inFlight := none } : RunTurn).Seats as turn := by
    intro st hst
    exact ⟨(h.held st hst).1.prefixed, (h.held st hst).2⟩
  have hprefix : entries <+: ((Log.after as).own turn).drop read.skipped := by
    obtain ⟨rest, hrest⟩ := own_after_logAt as answer.taken turn
    rw [hentries, ← hrest, List.drop_append]
    exact List.prefix_append _ _
  have hseated := seated_foldl hseats hlawful hprefix hskipped
  have hlength : count as answer.taken turn ≤ read.skipped + entries.length := by
    rw [hentries, List.length_drop, count]
    omega
  generalize hfold : entries.foldl (RunTurn.seat turn) { t with inFlight := none } = t' at hseated
  have hall : count as answer.taken turn ≤ t'.heldLength := Nat.le_trans hlength hseated.length
  obtain ⟨st, hst⟩ : ∃ st, t'.state = some st := by
    cases hst : t'.state with
    | none =>
      rw [RunTurn.heldLength, hst] at hall
      exact absurd hall (by simpa using Nat.ne_of_gt hpos)
    | some st => exact ⟨st, rfl⟩
  obtain ⟨hp, hne⟩ := hseated.seats st hst
  rw [heldLength_of_state hst] at hall
  have hmore := hseated.more
  rw [heldLength_of_state hst] at hmore
  have hseatTails : (st.seatTails turn tails).entries = st.entries := by
    rw [TurnState.seatTails_eq, TurnState.entries_withTails]
  refine ⟨st.seatTails turn tails, ?_, ?_, ?_, ?_, ?_⟩
  · have hheld : (t'.adoptRunOpenEntries turn tails).heldSeq = some (st.entries.length - 1) := by
      rw [RunTurn.heldSeq, RunTurn.adoptRunOpenEntries, hst, Option.map_some, Option.bind_some,
        hseatTails, if_neg hne]
    have hwanted : (RunTurn.wanted turn entries).any (st.entries.length - 1 < ·) = false := by
      cases hmax : RunTurn.wanted turn entries with
      | none => rfl
      | some newest =>
        obtain ⟨e, he, rfl⟩ := List.mem_map.mp (List.max?_mem hmax)
        have hmem := (List.mem_filter.mp he).1
        rw [hentries] at hmem
        obtain ⟨i, hi⟩ := List.mem_iff_getElem?.mp (List.mem_of_mem_drop hmem)
        have hlt := (List.getElem?_eq_some_iff.mp hi).1
        have hseq := (hlawful.historyAt answer.taken).sound.seqs turn i e hi
        rw [Option.any_some, decide_eq_false_iff_not, hseq]
        rw [count] at hall
        omega
    rw [RunTurn.adopt, hfold]
    simp only [hheld, hwanted, Bool.false_eq_true, if_false]
    rw [RunTurn.clearRunHole, RunTurn.adoptRunOpenEntries, hst, hseated.inFlight]
    rfl
  · apply Held.seatTails hp hranged.spoken
    intro o ho hturn e he
    rw [← hfold] at hst
    rcases mem_foldl_seat hst he with ⟨held, hheld, hmem⟩ | hmem
    · exact hid o ho held hheld e hmem
    · exact hranged.unsealed o ho e hmem ((hranged.own e hmem).trans hturn.symm)
  · rw [hseatTails]
    exact hmore
  · rw [hseatTails]
    exact hall
  · intro lane
    rw [htails]
    exact TurnState.openIn_seatTails (hlawful.historyAt answer.taken).sound.places st turn lane

end RunLog
end Marotte.Transcript
