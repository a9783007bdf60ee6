import Marotte.RunLog.Answers

/-! # A turn that is not behind the stream

Each lane of the turn is as the log had it at some moment, not before the frames delivered so far,
and the turn has at least the entries of that moment. The next frame keeps it so, also where it is
refused, and so does one that comes again before any later frame of its lane.
-/
namespace Marotte.Transcript.RunLog

variable {as bs : List Action} {turn lane : String} {t : RunTurn} {st st' : TurnState} {f : Frame}
  {e : Entry} {o : OpenEntry} {i n : ℕ}

/-- A lane at some moment, from `n` on. -/
def LaneAhead (as : List Action) (n : ℕ) (turn lane : String) (st : TurnState) : Prop :=
  ∃ k, n ≤ k ∧ k ≤ as.length ∧ st.openIn lane = (logAt as k).tail turn lane ∧
    count as k turn ≤ st.entries.length

structure Ahead (as : List Action) (n : ℕ) (turn : String) (state : Option TurnState) : Prop where
  held : 0 < count as n turn → state.isSome
  lanes : ∀ st, state = some st → ∀ lane, LaneAhead as n turn lane st

namespace LaneAhead

theorem append (h : LaneAhead as n turn lane st) : LaneAhead (as ++ bs) n turn lane st := by
  obtain ⟨k, hn, hk, hopen, hcount⟩ := h
  refine ⟨k, hn, ?_, ?_, ?_⟩
  · rw [List.length_append]
    exact Nat.le_add_right_of_le hk
  · rw [logAt_append hk]
    exact hopen
  · rw [count, logAt_append hk]
    exact hcount

theorem count_le (h : LaneAhead as n turn lane st) : count as n turn ≤ st.entries.length := by
  obtain ⟨k, hn, -, -, hcount⟩ := h
  exact Nat.le_trans (RunLog.count_le hn turn) hcount

theorem of_same (h : LaneAhead as n turn lane st) (hopen : st'.openIn lane = st.openIn lane)
    (hmore : st.entries.length ≤ st'.entries.length) : LaneAhead as n turn lane st' := by
  obtain ⟨k, hn, hk, hlane, hcount⟩ := h
  exact ⟨k, hn, hk, hopen.trans hlane, Nat.le_trans hcount hmore⟩

/-- A frame that is not of the lane. -/
theorem pass (h : LaneAhead as n turn lane st) (hf : as[n]? = some (.announced f))
    (hlane : frameTurn f = turn → frameLane f ≠ some lane)
    (hcount : count as (n + 1) turn ≤ st.entries.length) : LaneAhead as (n + 1) turn lane st := by
  obtain ⟨k, hn, hk, hopen, hlength⟩ := h
  rcases Nat.eq_or_lt_of_le hn with rfl | hlt
  · refine ⟨n + 1, Nat.le_refl _, ?_, ?_, hcount⟩
    · exact (List.getElem?_eq_some_iff.mp hf).1
    · rw [hopen, logAt_succ hf]
      exact (tail_announce_of_ne (logAt as n) hlane).symm
  · exact ⟨k, hlt, hk, hopen, hlength⟩

end LaneAhead

namespace Ahead

theorem append (h : Ahead as n turn t.state) (hn : n ≤ as.length) :
    Ahead (as ++ bs) n turn t.state where
  held := by
    rw [count, logAt_append hn]
    exact h.held
  lanes st hst lane := (h.lanes st hst lane).append

theorem start (turn : String) : Ahead [] 0 turn none where
  held hpos := absurd hpos (Nat.lt_irrefl 0)
  lanes st hst := by cases hst

/-- At the end of the stream the turn is the log's. -/
theorem whole (h : Ahead as as.length turn t.state) (hfits : t.Fits as turn)
    (hlawful : Lawful as) :
    (t.state.map TurnState.entries).getD [] = (Log.after as).own turn ∧
      ∀ lane, (t.state.bind fun st => st.openIn lane) = (Log.after as).tail turn lane := by
  have hl := hlawful.history.sound
  cases hst : t.state with
  | none =>
    have hnil : (Log.after as).own turn = [] := by
      have hzero : ¬ 0 < count as as.length turn := by
        intro hpos
        have hsome := h.held hpos
        rw [hst] at hsome
        cases hsome
      rw [count, logAt_length] at hzero
      exact List.length_eq_zero_iff.mp (by omega)
    refine ⟨hnil.symm, ?_⟩
    intro lane
    cases htail : (Log.after as).tail turn lane with
    | none => rfl
    | some o =>
      obtain ⟨hturn, -⟩ := Log.place_of_tail htail
      have hopened := hl.tailed o (Log.mem_of_tail htail)
      rw [hturn] at hopened
      exact absurd hopened (hl.own_eq_nil.mp hnil)
  | some st =>
    have hmoment : ∀ lane, st.openIn lane = (Log.after as).tail turn lane ∧
        ((Log.after as).own turn).length ≤ st.entries.length := by
      intro lane
      obtain ⟨k, hn, hk, hopen, hcount⟩ := h.lanes st hst lane
      rw [Nat.le_antisymm hk hn] at hopen hcount
      rw [count] at hcount
      rw [logAt_length] at hopen hcount
      exact ⟨hopen, hcount⟩
    refine ⟨?_, fun lane => (hmoment lane).1⟩
    exact (hfits.held st hst).1.prefixed.entries.eq_of_length_le (hmoment "").2

theorem count_le (h : Ahead as n turn t.state) (hst : t.state = some st) :
    count as n turn ≤ st.entries.length := (h.lanes st hst "").count_le

/-- The next frame, where the turn stays as it is and has the frame's entry. -/
theorem keep (h : Ahead as n turn t.state) (hf : as[n]? = some (.announced f))
    (hheld : 0 < count as (n + 1) turn → t.state.isSome)
    (hcount : ∀ st, t.state = some st → count as (n + 1) turn ≤ st.entries.length)
    (hlane : ∀ st lane, t.state = some st → frameTurn f = turn → frameLane f = some lane →
      LaneAhead as (n + 1) turn lane st) : Ahead as (n + 1) turn t.state where
  held := hheld
  lanes st hst lane := by
    by_cases hown : frameTurn f = turn ∧ frameLane f = some lane
    · exact hlane st lane hst hown.1 hown.2
    · apply (h.lanes st hst lane).pass hf _ (hcount st hst)
      exact fun hturn heq => hown ⟨hturn, heq⟩

/-- A frame of another turn. -/
theorem pass (h : Ahead as n turn t.state) (hf : as[n]? = some (.announced f))
    (hne : frameTurn f ≠ turn) : Ahead as (n + 1) turn t.state := by
  have hcount : count as (n + 1) turn = count as n turn := by
    rw [count, logAt_succ hf, count]
    exact congrArg List.length (own_announce_of_ne (logAt as n) (Ne.symm hne))
  apply h.keep hf
  · rw [hcount]
    exact h.held
  · intro st hst
    rw [hcount]
    exact h.count_le hst
  · intro st lane _ hturn
    exact absurd hturn hne

/-- A frame of a lane that is further on already. -/
theorem refused (h : Ahead as n turn t.state) (hf : as[n]? = some (.announced f))
    (hst : t.state = some st) (hown : frameLane f = some lane)
    (hnow : st.openIn lane ≠ (logAt as n).tail turn lane) : Ahead as (n + 1) turn t.state := by
  have hfurther : LaneAhead as (n + 1) turn lane st := by
    obtain ⟨k, hn, hk, hopen, hcount⟩ := h.lanes st hst lane
    rcases Nat.eq_or_lt_of_le hn with rfl | hlt
    · exact absurd hopen hnow
    · exact ⟨k, hlt, hk, hopen, hcount⟩
  apply h.keep hf
  · intro _
    rw [hst]
    rfl
  · intro st' hst'
    rw [hst, Option.some_inj] at hst'
    rw [← hst']
    exact hfurther.count_le
  · intro st' lane' hst' _ hlane'
    rw [hst, Option.some_inj] at hst'
    rw [hown, Option.some_inj] at hlane'
    rw [← hst', ← hlane']
    exact hfurther

/-- A frame that is taken: its lane is as the log has it now, the other lanes are as they were. -/
theorem moves (h : Ahead as n turn t.state) (hf : as[n]? = some (.announced f))
    (hst : t.state = some st) (hmore : st.entries.length ≤ st'.entries.length)
    (hcount : count as (n + 1) turn ≤ st'.entries.length)
    (hlane : ∀ lane, frameLane f = some lane →
      st'.openIn lane = (logAt as (n + 1)).tail turn lane)
    (hother : ∀ lane, frameLane f ≠ some lane → st'.openIn lane = st.openIn lane) :
    Ahead as (n + 1) turn (some st') where
  held _ := rfl
  lanes st'' hst'' lane := by
    cases hst''
    by_cases hown : frameLane f = some lane
    · exact ⟨n + 1, Nat.le_refl _, (List.getElem?_eq_some_iff.mp hf).1, hlane lane hown, hcount⟩
    · exact ((h.lanes st hst lane).of_same (hother lane hown) hmore).pass hf (fun _ => hown) hcount

end Ahead

/-! ## The frames one by one -/

theorem openIn_setOpen_self (st : TurnState) (o : OpenEntry) :
    (st.setOpen o).openIn o.lane = some o := Keyed.find_set_key

theorem openIn_setOpen_of_ne (st : TurnState) {o : OpenEntry} (h : lane ≠ o.lane) :
    (st.setOpen o).openIn lane = st.openIn lane := Keyed.find_set_of_ne h

/-- An append leaves the lanes of a held turn. -/
theorem append_state (hst : t.state = some st) (e : Entry) :
    ∃ st', (t.appendRunEntry e).state = some st' ∧ st'.openEntries = st.openEntries ∧
      st.entries.length ≤ st'.entries.length := by
  rw [RunTurn.appendRunEntry, hst]
  dsimp only
  split
  · split
    · exact ⟨st, hst, rfl, Nat.le_refl _⟩
    · exact ⟨st, by rw [state_markRunHole, hst], rfl, Nat.le_refl _⟩
  · refine ⟨st.push e, rfl, rfl, ?_⟩
    rw [TurnState.entries_push, List.length_append]
    exact Nat.le_add_right _ _

section

variable (h : Ahead as n turn t.state) (hfits : t.Fits as turn) (hlawful : Lawful as)

include h in
theorem Ahead.state_of_mem (hlawful : Lawful as) (hturn : turn ∈ (logAt as n).order) :
    ∃ st, t.state = some st := by
  apply Option.isSome_iff_exists.mp
  apply h.held
  rw [count, List.length_pos_iff]
  intro hnil
  exact (hlawful.historyAt n).sound.own_eq_nil.mp hnil hturn

include h hfits hlawful

theorem Ahead.opens (hf : as[n]? = some (.announced (.turnOpened e))) (hturn : e.turn = turn) :
    Ahead as (n + 1) turn (t.openRunTurn e).state := by
  obtain ⟨hnew, -⟩ := hlawful.admitsAt hf
  rw [hturn] at hnew
  have hl := (hlawful.historyAt n).sound
  have hnil := hl.own_eq_nil.mpr hnew
  have hcount : count as (n + 1) turn = 1 := by
    rw [count, logAt_succ hf]
    change ((logAt as n).place e |>.own turn).length = 1
    rw [Log.own_place, if_pos hturn]
    rw [logAt, hnil]
    rfl
  rw [RunTurn.openRunTurn]
  split
  · next hsome =>
    apply h.keep hf
    · exact fun _ => hsome
    · intro st hst
      rw [hcount]
      exact List.length_pos_iff.mpr (hfits.held st hst).2
    · intro _ _ _ _ hlane
      cases hlane
  · constructor
    · exact fun _ => rfl
    · intro st hst lane
      cases hst
      refine ⟨n + 1, Nat.le_refl _, (List.getElem?_eq_some_iff.mp hf).1, ?_, Nat.le_of_eq hcount⟩
      rw [logAt_succ hf]
      symm
      cases htail : (logAt as n).tail turn lane with
      | none => exact htail
      | some o =>
        obtain ⟨hown, -⟩ := Log.place_of_tail htail
        have hmem := hl.tailed o (Log.mem_of_tail htail)
        rw [hown] at hmem
        exact absurd hmem hnew

theorem Ahead.appends (hf : as[n]? = some (.announced (.entryAppended e))) (hturn : e.turn = turn) :
    Ahead as (n + 1) turn (t.appendRunEntry e).state := by
  obtain ⟨hopened, hseq, -⟩ := hlawful.admitsAt hf
  rw [hturn] at hopened hseq
  obtain ⟨st, hst⟩ := h.state_of_mem hlawful hopened
  have hown : (logAt as (n + 1)).own turn = (logAt as n).own turn ++ [e] := by
    rw [logAt_succ hf]
    change ((logAt as n).place e).own turn = _
    rw [Log.own_place, if_pos hturn]
  have he : ((Log.after as).own turn)[count as n turn]? = some e := by
    apply Log.getElem?_of_prefix (own_after_logAt as (n + 1) turn)
    rw [hown, count, List.getElem?_concat_length]
  have hseated := seated_append (fun st hst => ⟨(hfits.held st hst).1.prefixed,
    (hfits.held st hst).2⟩) hlawful he hst (h.count_le hst)
  obtain ⟨st', hst', hopen, hmore⟩ := append_state hst e
  have hlength := hseated.length
  rw [heldLength_of_state hst'] at hlength
  rw [hst']
  apply h.moves hf hst hmore
  · rw [count, hown, List.length_append]
    exact hlength
  · intro lane hlane
    cases hlane
  · intro lane _
    rw [TurnState.openIn, hopen, TurnState.openIn]

theorem Ahead.opensEntry (hf : as[n]? = some (.announced (.entryOpened o)))
    (hturn : o.turn = turn) : Ahead as (n + 1) turn (t.openRunEntry o).state := by
  obtain ⟨hopened, -⟩ := hlawful.admitsAt hf
  rw [hturn] at hopened
  obtain ⟨st, hst⟩ := h.state_of_mem hlawful hopened
  rw [RunTurn.openRunEntry, hst]
  apply h.moves hf hst
  · exact Nat.le_refl _
  · rw [count, logAt_succ hf, TurnState.entries_setOpen]
    exact h.count_le hst
  · intro lane hlane
    cases hlane
    rw [openIn_setOpen_self, logAt_succ hf, ← hturn]
    exact (Log.tail_setTail_self (logAt as n) o).symm
  · intro lane hlane
    apply openIn_setOpen_of_ne
    rintro rfl
    exact hlane rfl

theorem Ahead.extendsEntry {id delta : String} {m : ℕ}
    (hf : as[n]? = some (.announced (.entryDelta turn id lane m delta))) :
    Ahead as (n + 1) turn (t.applyRunDelta id lane m delta).state := by
  obtain ⟨o, htail, hid, hm⟩ := hlawful.admitsAt hf
  obtain ⟨hturn, hlane⟩ := Log.place_of_tail htail
  obtain ⟨st, hst⟩ := h.state_of_mem hlawful
    (hturn ▸ (hlawful.historyAt n).sound.tailed o (Log.mem_of_tail htail))
  have hspoken : Spoken as o := spoken_of_tail htail
  rw [RunTurn.applyRunDelta, hst]
  dsimp only
  split
  · next g hg =>
    split
    · next hguard =>
      have hgo : g = o := Client.Fits.openIn_eq hlawful.history (hfits.held st hst).1.tailed hg
        hspoken hturn (hguard.1.trans hid.symm) (by omega)
      subst hgo
      apply h.moves hf hst
      · exact Nat.le_refl _
      · rw [count, logAt_succ hf, TurnState.entries_setOpen]
        simp only [Log.act, Log.announce, htail]
        exact h.count_le hst
      · intro lane' hlane'
        cases hlane'
        rw [logAt_succ hf]
        simp only [Log.act, Log.announce, htail]
        subst hturn hlane
        rw [openIn_setOpen_self]
        exact (Log.tail_setTail_self (logAt as n) _).symm
      · intro lane' hlane'
        apply openIn_setOpen_of_ne
        rintro rfl
        exact hlane' (congrArg some hlane.symm)
    · next hguard =>
      rw [state_markRunHole]
      apply h.refused hf hst rfl
      rw [hg, htail]
      rintro heq
      cases heq
      exact hguard ⟨hid, hm⟩
  · next hnone =>
    rw [state_markRunHole]
    apply h.refused hf hst rfl
    rw [hnone, htail]
    simp

theorem Ahead.seals {id : String} {seq m : ℕ} {ts : ℤ}
    (hf : as[n]? = some (.announced (.entrySealed turn id lane seq ts m))) :
    Ahead as (n + 1) turn (t.sealRunEntry turn id lane seq ts m).state := by
  obtain ⟨o, htail, hid, hm, hseq⟩ := hlawful.admitsAt hf
  obtain ⟨hturn, hlane⟩ := Log.place_of_tail htail
  obtain ⟨st, hst⟩ := h.state_of_mem hlawful
    (hturn ▸ (hlawful.historyAt n).sound.tailed o (Log.mem_of_tail htail))
  have hspoken : Spoken as o := spoken_of_tail htail
  rw [RunTurn.sealRunEntry, hst]
  dsimp only
  split
  · next g hg =>
    split
    · next hguard =>
      have hgo : g = o := Client.Fits.openIn_eq hlawful.history (hfits.held st hst).1.tailed hg
        hspoken hturn (hguard.1.trans hid.symm) (by omega)
      subst hgo
      generalize hentry : ({ id := g.id, turn, lane, payload := .say g.kind g.text, seq, ts } : Entry)
        = e
      have hsealed : g.sealed seq ts = e := by
        rw [← hentry, OpenEntry.sealed, hturn, hlane]
      have hown : (logAt as (n + 1)).own turn = (logAt as n).own turn ++ [e] := by
        rw [logAt_succ hf]
        simp only [Log.act, Log.announce, htail]
        rw [Log.own_eraseTail, Log.own_place, hsealed, ← hentry, if_pos rfl]
      have he : ((Log.after as).own turn)[count as n turn]? = some e := by
        apply Log.getElem?_of_prefix (own_after_logAt as (n + 1) turn)
        rw [hown, count, List.getElem?_concat_length]
      generalize herased : ({ st with
        openEntries := Keyed.erase OpenEntry.lane st.openEntries lane } : TurnState) = st₁
      have hentries : st₁.entries = st.entries := by rw [← herased]
      have hseats : ({ t with state := some st₁ } : RunTurn).Seats as turn := by
        intro st₂ hst₂
        cases hst₂
        have hheld := hfits.held st hst
        rw [hentries]
        refine ⟨hheld.1.prefixed.of_entries hentries ?_, hheld.2⟩
        rw [← herased]
      have hseated := @seated_append as turn { t with state := some st₁ } st₁ e _ hseats hlawful he rfl
        (by rw [hentries]; exact h.count_le hst)
      obtain ⟨st', hst', hopen, hmore⟩ :=
        @append_state { t with state := some st₁ } st₁ rfl e
      have hlength := hseated.length
      rw [heldLength_of_state hst'] at hlength
      rw [hentries] at hmore
      rw [hst']
      apply h.moves hf hst hmore
      · rw [count, hown, List.length_append]
        exact hlength
      · intro lane' hlane'
        cases hlane'
        rw [TurnState.openIn, hopen, ← herased, logAt_succ hf]
        simp only [Log.act, Log.announce, htail]
        rw [Keyed.find_erase_self, Log.tail_eraseTail_self]
      · intro lane' hlane'
        rw [TurnState.openIn, hopen, ← herased, TurnState.openIn]
        apply Keyed.find_erase_of_ne
        rintro rfl
        exact hlane' rfl
    · next hguard =>
      rw [state_markRunHole]
      apply h.refused hf hst rfl
      rw [hg, htail]
      rintro heq
      cases heq
      exact hguard ⟨hid, hm⟩
  · next hnone =>
    rw [state_markRunHole]
    apply h.refused hf hst rfl
    rw [hnone, htail]
    simp

/-- Whatever the next frame is. -/
theorem Ahead.receives (hf : as[n]? = some (.announced f)) (hturn : frameTurn f = turn) :
    Ahead as (n + 1) turn (t.receive f).state := by
  cases f with
  | turnOpened e => exact h.opens hfits hlawful hf hturn
  | entryOpened o => exact h.opensEntry hfits hlawful hf hturn
  | entryDelta turn' id lane m delta =>
    cases hturn
    exact h.extendsEntry hfits hlawful hf
  | entrySealed turn' id lane seq ts m =>
    cases hturn
    exact h.seals hfits hlawful hf
  | entryAppended e => exact h.appends hfits hlawful hf hturn

end

/-! ## Frames that come again -/

/-- Every action of a run's log is announced. -/
def Announced (as : List Action) : Prop := ∀ a ∈ as, ∃ f, a = .announced f

theorem Announced.frame (h : Announced as) {j : ℕ} (hj : j < as.length) :
    ∃ f, as[j]? = some (.announced f) := by
  obtain ⟨f, hf⟩ := h as[j] (List.getElem_mem hj)
  exact ⟨f, by rw [List.getElem?_eq_getElem hj, hf]⟩

/-- A lane that no frame names from one moment to another. -/
theorem tail_between (hall : Announced as) {k k' : ℕ} (hk : k ≤ k') (hk' : k' ≤ as.length)
    (hquiet : ∀ j, k ≤ j → j < k' → ∀ f, as[j]? = some (.announced f) → frameTurn f = turn →
      frameLane f ≠ some lane) :
    (logAt as k').tail turn lane = (logAt as k).tail turn lane := by
  induction k', hk using Nat.le_induction with
  | base => rfl
  | succ k' hle ih =>
    obtain ⟨f, hf⟩ := hall.frame hk'
    rw [logAt_succ hf]
    apply (tail_announce_of_ne (logAt as k') (hquiet k' hle (Nat.lt_succ_self k') f hf)).trans
    apply ih (Nat.le_of_succ_le hk')
    intro j hj hlt
    exact hquiet j hj (Nat.lt_succ_of_lt hlt)

theorem count_between (hall : Announced as) {k k' : ℕ} (hk : k ≤ k') (hk' : k' ≤ as.length)
    (hquiet : ∀ j, k ≤ j → j < k' → ∀ f, as[j]? = some (.announced f) → frameTurn f ≠ turn) :
    count as k' turn = count as k turn := by
  induction k', hk using Nat.le_induction with
  | base => rfl
  | succ k' hle ih =>
    obtain ⟨f, hf⟩ := hall.frame hk'
    have hne := hquiet k' hle (Nat.lt_succ_self k') f hf
    rw [count, logAt_succ hf]
    change ((logAt as k').announce f |>.own turn).length = _
    rw [own_announce_of_ne (logAt as k') (Ne.symm hne)]
    apply ih (Nat.le_of_succ_le hk')
    intro j hj hlt
    exact hquiet j hj (Nat.lt_succ_of_lt hlt)

/-- A lane has the open entry that it ever had under an id, with no fewer deltas, and none that is
sealed. -/
theorem tail_of_id (hlawful : Lawful as) {k k' : ℕ} {g : OpenEntry}
    (ho : (logAt as k).tail turn lane = some o) (hk : k ≤ k')
    (hg : (logAt as k').tail turn lane = some g) (hid : g.id = o.id) : o.n ≤ g.n := by
  have hh := hlawful.historyAt k'
  obtain ⟨hturn, hlane⟩ := Log.place_of_tail ho
  obtain ⟨hturn', hlane'⟩ := Log.place_of_tail hg
  rcases hh.standing o (spokenAt_of_tail ho hk) with ⟨t, ht, htt, -, htl, hle⟩ | ⟨e, he, hi, -⟩
  · have heq : t = g := by
      apply hh.tail_eq ht (Log.mem_of_tail hg)
      rw [OpenEntry.place, OpenEntry.place, htt, htl, hturn, hlane, hturn', hlane']
    rw [← heq]
    exact hle
  · rw [hturn, ← hturn'] at he
    exact absurd (hi.trans hid.symm) (hh.unsealed g (Log.mem_of_tail hg) e he)

section

variable (h : Ahead as n turn t.state) (hlawful : Lawful as)

include h

/-- The turn with other lanes alike. -/
theorem Ahead.of_more (hst : t.state = some st) (hopen : st'.openEntries = st.openEntries)
    (hmore : st.entries.length ≤ st'.entries.length) : Ahead as n turn (some st') where
  held _ := rfl
  lanes st'' hst'' lane := by
    cases hst''
    apply (h.lanes st hst lane).of_same _ hmore
    rw [TurnState.openIn, hopen, TurnState.openIn]

include hlawful

theorem Ahead.opensAgain (hall : Announced as) (hn : n ≤ as.length) (hi : i < n)
    (hf : as[i]? = some (.announced (.entryOpened o))) (hturn : o.turn = turn)
    (horder : ∀ j, i + 1 ≤ j → j < n → ∀ f, as[j]? = some (.announced f) → frameTurn f = turn →
      frameLane f ≠ some o.lane) : Ahead as n turn (t.openRunEntry o).state := by
  obtain ⟨hopened, -⟩ := hlawful.admitsAt hf
  rw [hturn] at hopened
  obtain ⟨st, hst⟩ := h.state_of_mem hlawful ((order_logAt (Nat.le_of_lt hi)).subset hopened)
  rw [RunTurn.openRunEntry, hst]
  constructor
  · exact fun _ => rfl
  · intro st' hst' lane
    cases hst'
    by_cases hlane : lane = o.lane
    · subst hlane
      refine ⟨n, Nat.le_refl n, hn, ?_, ?_⟩
      · rw [openIn_setOpen_self, tail_between hall hi hn horder, logAt_succ hf, ← hturn]
        exact (Log.tail_setTail_self (logAt as i) o).symm
      · rw [TurnState.entries_setOpen]
        exact h.count_le hst
    · exact (h.lanes st hst lane).of_same (openIn_setOpen_of_ne st hlane) (Nat.le_refl _)

theorem Ahead.extendsAgain {id delta : String} {m : ℕ} (hi : i < n)
    (hf : as[i]? = some (.announced (.entryDelta turn id lane m delta))) :
    Ahead as n turn (t.applyRunDelta id lane m delta).state := by
  obtain ⟨o, htail, hid, hm⟩ := hlawful.admitsAt hf
  rw [RunTurn.applyRunDelta]
  split
  · rw [state_markRunHole]
    exact h
  · next st hst =>
    split
    · next g hg =>
      split
      · next hguard =>
        obtain ⟨k, hn, -, hopen, -⟩ := h.lanes st hst lane
        rw [hg] at hopen
        have hnow : (logAt as (i + 1)).tail turn lane =
            some { o with text := o.text ++ delta, n := m } := by
          obtain ⟨hturn, hlane⟩ := Log.place_of_tail htail
          rw [logAt_succ hf]
          simp only [Log.act, Log.announce, htail]
          subst hturn hlane
          exact Log.tail_setTail_self (logAt as i) _
        have hle := tail_of_id hlawful hnow (Nat.le_trans hi hn) hopen.symm
          (hguard.1.trans hid.symm)
        exact absurd hle (by have := hguard.2; dsimp only; omega)
      · rw [state_markRunHole]
        exact h
    · rw [state_markRunHole]
      exact h

theorem Ahead.sealsAgain {id : String} {seq m : ℕ} {ts : ℤ} (hi : i < n)
    (hf : as[i]? = some (.announced (.entrySealed turn id lane seq ts m))) :
    Ahead as n turn (t.sealRunEntry turn id lane seq ts m).state := by
  obtain ⟨o, htail, hid, hm, hseq⟩ := hlawful.admitsAt hf
  obtain ⟨hturn, hlane⟩ := Log.place_of_tail htail
  rw [RunTurn.sealRunEntry]
  split
  · rw [state_markRunHole]
    exact h
  · next st hst =>
    split
    · next g hg =>
      split
      · next hguard =>
        obtain ⟨k, hn, -, hopen, -⟩ := h.lanes st hst lane
        rw [hg] at hopen
        -- the entry is sealed in the log by then, and no lane has it open
        have hown : o.sealed seq ts ∈ (logAt as (i + 1)).own turn := by
          rw [logAt_succ hf]
          simp only [Log.act, Log.announce, htail]
          rw [Log.own_eraseTail, Log.own_place]
          change _ ∈ _ ++ if o.turn = turn then [o.sealed seq ts] else []
          rw [if_pos hturn]
          exact List.mem_append_right _ (List.mem_singleton_self _)
        have hmem := (own_logAt (Nat.le_trans hi hn) turn).subset hown
        have hopened := Log.mem_of_tail hopen.symm
        rw [← (Log.place_of_tail hopen.symm).1] at hmem
        exact absurd (hid.trans hguard.1.symm)
          ((hlawful.historyAt k).unsealed g hopened (o.sealed seq ts) hmem)
      · rw [state_markRunHole]
        exact h
    · rw [state_markRunHole]
      exact h

/-- A frame that comes again, an opened entry before any later frame of its lane. -/
theorem Ahead.again (hall : Announced as) (hn : n ≤ as.length) (hi : i < n)
    (hf : as[i]? = some (.announced f)) (hturn : frameTurn f = turn)
    (horder : ∀ o, f = .entryOpened o → ∀ j, i + 1 ≤ j → j < n → ∀ f,
      as[j]? = some (.announced f) → frameTurn f = turn → frameLane f ≠ some o.lane) :
    Ahead as n turn (t.receive f).state := by
  cases f with
  | turnOpened e =>
    have hown : e.turn = turn := hturn
    have hopened : 0 < count as n turn := by
      apply Nat.lt_of_lt_of_le _ (RunLog.count_le hi turn)
      rw [count, logAt_succ hf, List.length_pos_iff]
      apply List.ne_nil_of_mem (a := e)
      change e ∈ ((logAt as i).place e).own turn
      rw [Log.own_place, if_pos hown]
      exact List.mem_append_right _ (List.mem_singleton_self e)
    have hsome := h.held hopened
    rw [RunTurn.receive, RunTurn.openRunTurn, if_pos hsome]
    exact h
  | entryOpened o => exact h.opensAgain hlawful hall hn hi hf hturn (horder o rfl)
  | entryDelta turn' id lane m delta =>
    cases hturn
    exact h.extendsAgain hlawful hi hf
  | entrySealed turn' id lane seq ts m =>
    cases hturn
    exact h.sealsAgain hlawful hi hf
  | entryAppended e =>
    obtain ⟨hopened, -⟩ := hlawful.admitsAt hf
    have hmem : turn ∈ (logAt as i).order := by
      rw [← hturn]
      exact hopened
    obtain ⟨st, hst⟩ := h.state_of_mem hlawful ((order_logAt (Nat.le_of_lt hi)).subset hmem)
    obtain ⟨st', hst', hopen, hmore⟩ := append_state hst e
    rw [RunTurn.receive, hst']
    exact h.of_more hst hopen hmore

end

/-- A turn as an answer has it that no frame of the turn is past. -/
theorem ahead_of_answer (hall : Announced as) {a : ℕ} (ha : a ≤ as.length) (hn : n ≤ as.length)
    (hcount : count as a turn ≤ st.entries.length)
    (hopen : ∀ lane, st.openIn lane = (logAt as a).tail turn lane)
    (hquiet : ∀ j, a ≤ j → j < n → ∀ f, as[j]? = some (.announced f) → frameTurn f ≠ turn) :
    Ahead as n turn (some st) where
  held _ := rfl
  lanes st' hst' lane := by
    cases hst'
    rcases Nat.le_total n a with hle | hle
    · exact ⟨a, hle, ha, hopen lane, hcount⟩
    · refine ⟨n, Nat.le_refl n, hn, ?_, ?_⟩
      · rw [hopen lane, tail_between hall hle hn]
        intro j hj hlt f hf heq
        exact absurd heq (hquiet j hj hlt f hf)
      · rw [count_between hall hle hn hquiet]
        exact hcount

end Marotte.Transcript.RunLog
