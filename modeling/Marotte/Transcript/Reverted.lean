import Marotte.Transcript.Effects
import Marotte.Transcript.Ordinals

/-! # A revert stays applied

Once a window applied the frame of a revert record, no answer seats a turn that the record took,
and no frame drops a turn that survives, but for two reads of turns that the window did not hold.
-/
namespace Marotte.Transcript

variable {as bs : List Action} {c : Client} {turn : String} {st held : TurnState} {e : Entry}
  {es entries : List Entry} {tails : List OpenEntry} {s : Session}

theorem TurnState.head?_seatRun (h : st.entries ≠ []) (es : List Entry) :
    (st.seatRun es).entries.head? = st.entries.head? := by
  induction es generalizing st with
  | nil => rfl
  | cons e es ih =>
    rw [seatRun]
    split
    · rw [ih (by simp), entries_push, List.head?_append_of_ne_nil _ h]
    · rfl

/-- A run seated on nothing begins with the entry that the answer begins with. -/
theorem TurnState.seatRun_empty (h : (({ entries := [] } : TurnState).seatRun es).entries ≠ []) :
    ∃ e ∈ es.head?, e.seq = 0 ∧
      (({ entries := [] } : TurnState).seatRun es).entries.head? = some e := by
  cases es with
  | nil => exact absurd rfl h
  | cons e es =>
    rw [seatRun] at h ⊢
    split at h
    · next hseq =>
      rw [if_pos hseq]
      exact ⟨e, rfl, hseq, head?_seatRun (by simp) es⟩
    · exact absurd rfl h

/-- Held turns begin with their opens, and the answers in flight have their entries in place. -/
structure Client.Headed (as : List Action) (c : Client) : Prop where
  heads : ∀ turn st, c.turns turn = some st →
    st.entries ≠ [] ∧ st.entries.head? = ((Log.after as).own turn).head?
  indexed : c.Indexed
  page : ∀ load entries tails, c.load = some load → load.answer = some (some (entries, tails)) →
    Listed as entries tails
  ranges : ∀ r ∈ c.repairs, ∀ entries tails, r.answer = some (some (entries, tails)) →
    ∀ e ∈ entries, (Log.after as).Places e ∧ e.turn = r.turn

namespace Client.Headed

theorem own_ne_nil (h : c.Headed as) (hst : c.turns turn = some st) :
    (Log.after as).own turn ≠ [] := by
  obtain ⟨hne, hhead⟩ := h.heads turn st hst
  rw [ne_eq, ← List.head?_eq_none_iff, ← hhead, List.head?_eq_none_iff]
  exact hne

theorem mono (h : c.Headed as) : c.Headed (as ++ bs) where
  heads turn st hst := by
    obtain ⟨hne, hhead⟩ := h.heads turn st hst
    obtain ⟨rest, hrest⟩ := Log.own_after as bs turn
    rw [← hrest, List.head?_append_of_ne_nil _ (h.own_ne_nil hst)]
    exact ⟨hne, hhead⟩
  indexed := h.indexed
  page load entries tails hload ha := (h.page load entries tails hload ha).mono
  ranges r hr entries tails ha e he := by
    obtain ⟨hp, ht⟩ := h.ranges r hr entries tails ha e he
    exact ⟨hp.mono, ht⟩

/-- The reads of a step: none of them is answered anew. -/
theorem of_turns {c' : Client} (h : c.Headed as) (hreads : c'.ReadsOf c)
    (hheads : ∀ turn st, c'.turns turn = some st →
      st.entries ≠ [] ∧ st.entries.head? = ((Log.after as).own turn).head?)
    (hindexed : c'.Indexed) : c'.Headed as where
  heads := hheads
  indexed := hindexed
  page load entries tails hload ha := by
    rcases hreads.load load hload with hmem | hnone
    · exact h.page load entries tails hmem ha
    · rw [hnone] at ha
      cases ha
  ranges r hr entries tails ha := by
    rcases hreads.repairs r hr with hmem | hnone
    · exact h.ranges r hmem entries tails ha
    · rw [hnone] at ha
      cases ha

theorem receive (h : c.Headed as) {f : Frame}
    (hf : ∀ e, f = .turnOpened e → ((Log.after as).own e.turn).head? = some e) :
    (c.receive f).Headed as := by
  apply h.of_turns (reads_receive c f) _ (h.indexed.receive f)
  intro turn st hst
  rcases Client.turns_receive hst with ⟨st₀, hst₀, hpre⟩ | ⟨e, rfl, rfl, rfl⟩
  · obtain ⟨hne, hhead⟩ := h.heads turn st₀ hst₀
    obtain ⟨rest, hrest⟩ := hpre
    rw [← hrest, List.head?_append_of_ne_nil _ hne]
    exact ⟨by simp [hne], hhead⟩
  · exact ⟨by simp, (hf e rfl).symm⟩

theorem page_holes (h : c.Headed as) : ∀ load entries tails, c.load = some load →
    load.answer = some (some (entries, tails)) → (buildPageTurns entries tails).holes = [] := by
  intro load entries tails hload ha
  have hlisted := h.page load entries tails hload ha
  exact buildPageTurns_holes hlisted.lined hlisted.tailed

/-- A page's turn begins with its open. -/
theorem heads_page (hp : Listed as entries tails)
    (hst : (buildPageTurns entries tails).turns turn = some st) :
    st.entries = entries.filter (·.turn = turn) ∧ st.entries ≠ [] ∧
      st.entries.head? = ((Log.after as).own turn).head? := by
  rw [buildPageTurns_turns hp.lined hp.tailed] at hst
  split at hst
  · cases hst
  · next hne =>
    obtain rfl := Option.some_inj.mp hst
    rw [TurnState.entries_withTails, TurnState.entries_ofEntries]
    obtain ⟨rest, hrest⟩ := hp.own_prefix turn
    rw [← hrest, List.head?_append_of_ne_nil _ hne]
    exact ⟨rfl, hne, rfl⟩

theorem mergeTurn_head (hne : st.entries ≠ []) (held : TurnState) :
    (st.mergeTurn held).entries ≠ [] ∧
      (st.mergeTurn held).entries.head? = st.entries.head? := by
  have hhead := TurnState.head?_seatRun hne (held.entries.drop st.entries.length)
  rw [TurnState.mergeTurn_entries]
  refine ⟨?_, hhead⟩
  rw [ne_eq, ← List.head?_eq_none_iff, hhead, List.head?_eq_none_iff]
  exact hne

theorem pageArrives (h : c.Headed as) : c.pageArrives.Headed as := by
  obtain ⟨hreads, hsame | ⟨load, entries, tails, hload, ha, hturns, horder⟩⟩ :=
    pageArrives_cases c h.page_holes
  · apply h.of_turns hreads
    · rw [hsame.1]
      exact h.heads
    · intro turn st hst
      rw [hsame.1] at hst
      rw [hsame.2]
      exact h.indexed turn st hst
  · have hp := h.page load entries tails hload ha
    apply h.of_turns hreads
    · intro turn st hst
      rw [hturns] at hst
      rcases turns_applyPage hst with hst | ⟨p, hget, rfl⟩
      · exact h.heads turn st hst
      · obtain ⟨-, hne, hhead⟩ := heads_page hp hget
        cases hc : c.turns turn with
        | none => exact ⟨hne, hhead⟩
        | some held =>
          obtain ⟨hne', hhead'⟩ := mergeTurn_head hne held
          exact ⟨hne', hhead'.trans hhead⟩
    · intro turn st hst
      rw [hturns] at hst
      rw [horder]
      exact h.indexed.applyPage _ _ _ turn st hst

theorem endRepair (h : c.Headed as) (turn : String) : (c.endRepair turn).Headed as :=
  h.of_turns (.endRepair c turn) h.heads h.indexed

theorem applyTurnRange (h : c.Headed as)
    (he : ∀ e ∈ entries, (Log.after as).Places e ∧ e.turn = turn) (tails : List OpenEntry) :
    (c.applyTurnRange turn entries tails).Headed as := by
  rcases applyTurnRange_cases c turn entries tails with heq | ⟨-, hne, hturns, horder, hnew⟩
  · rw [heq]
    exact h
  · have hindexed : (c.applyTurnRange turn entries tails).Indexed := by
      intro turn' st hst
      by_cases ht : turn' = turn
      · rw [ht]
        cases hc : c.turns turn with
        | none => exact hnew hc
        | some held => exact horder turn (h.indexed turn held hc)
      · rw [hturns, Function.update_of_ne ht] at hst
        exact horder turn' (h.indexed turn' st hst)
    apply h.of_turns (.applyTurnRange c turn entries tails) _ hindexed
    intro turn' st hst
    rw [hturns] at hst
    by_cases ht : turn' = turn
    · rw [ht, Function.update_self] at hst
      obtain rfl := Option.some_inj.mp hst
      rw [ht, TurnState.seatTails_eq, TurnState.entries_withTails]
      refine ⟨hne, ?_⟩
      cases hc : c.turns turn with
      | none =>
        rw [hc] at hne
        obtain ⟨e, hmem, hseq, hhead⟩ := TurnState.seatRun_empty hne
        obtain ⟨hplace, hturn⟩ := he e (List.mem_of_mem_head? hmem)
        rw [Log.Places, hseq, hturn] at hplace
        rw [← List.head?_eq_getElem?] at hplace
        exact hhead.trans hplace.symm
      | some held =>
        obtain ⟨hheld, hhead⟩ := h.heads turn held hc
        exact (TurnState.head?_seatRun hheld entries).trans hhead
    · rw [Function.update_of_ne ht] at hst
      exact h.heads turn' st hst

theorem rangeArrives (h : c.Headed as) (turn : String) : (c.rangeArrives turn).Headed as := by
  simp only [Client.rangeArrives]
  split
  · exact h
  · next r hr =>
    split
    · exact h
    · exact h.endRepair turn
    · next entries tails ha =>
      apply (h.endRepair turn).applyTurnRange
      have hrange := h.ranges r (Keyed.mem_of_find hr) entries tails ha
      rw [Keyed.key_of_find hr] at hrange
      exact hrange

end Client.Headed

namespace Session

/-- Frames come in publication order, though some may be lost. -/
def Ordered (s : Session) : Event → Prop
  | .deliver i => s.cursor ≤ i
  | _ => True

instance (s : Session) (event : Event) : Decidable (s.Ordered event) :=
  match event with
  | .deliver i => inferInstanceAs (Decidable (s.cursor ≤ i))
  | .server _ | .load _ | .ask .. | .answerLoad _ | .answerRange _ | .pageArrives
  | .rangeArrives _ | .loadLost | .rangeLost _ | .loadCancelled | .evict => isTrue trivial

/-- No turn that survives, was opened after a record and is held at its ordinal or above, where the
record's frame is applied. -/
def keepsNewer (s : Session) (i : ℕ) : Bool :=
  match s.actions[i]? with
  | some (.announced (.entryAppended e)) =>
    match e.payload with
    | .turnRevert _ fromN => !s.client.takesRecord e || s.client.turnOrder.all fun turn =>
      turn ∉ s.log.survivors ∨ turn ∈ (s.logAt i).order ∨
        (s.client.heldOrdinal turn).all (· < fromN)
    | _ => true
  | _ => true

/-- No range from the open of a turn that an applied record took, and that no record dropped. -/
def keepsGone (s : Session) (turn : String) : Bool :=
  turn ∉ s.applied || turn ∈ s.client.reverted ||
    match (Keyed.find Repair.turn s.client.repairs turn).bind Repair.answer with
    | some (some (entries, _)) => entries.head?.all (·.seq ≠ 0)
    | _ => true

def Safe (s : Session) : Event → Bool
  | .deliver i => s.keepsNewer i
  | .rangeArrives turn => s.keepsGone turn
  | _ => true

/-- No turn is held that an applied record took, and none was dropped that survives. -/
structure RevertKept (s : Session) : Prop where
  gone : ∀ turn ∈ s.applied, s.client.turns turn = none
  taken : ∀ turn ∈ s.dropped, turn ∈ s.log.reverted

structure Guarded (s : Session) : Prop extends RevertKept s where
  recorded : Log.Recorded s.actions
  headed : s.client.Headed s.actions
  bounded : s.cursor ≤ s.actions.length
  met : ∀ turn ∈ s.applied, turn ∈ (s.logAt s.cursor).order
  reverted : ∀ turn ∈ s.applied, turn ∈ s.log.reverted
  pages : ∀ load entries tails, s.client.load = some load →
    load.answer = some (some (entries, tails)) → ∀ e ∈ entries, e.turn ∉ s.applied

theorem guarded_empty : Guarded {} where
  gone := nofun
  taken := nofun
  recorded := Log.Recorded.empty
  headed := ⟨nofun, nofun, nofun, nofun⟩
  bounded := Nat.le_refl _
  met := nofun
  reverted := nofun
  pages := nofun

theorem logAt_mono (s : Session) {i j : ℕ} (h : i ≤ j) :
    (s.logAt i).order <+: (s.logAt j).order ∧ (s.logAt i).reverted <+: (s.logAt j).reverted ∧
      ∀ turn, (s.logAt i).own turn <+: (s.logAt j).own turn := by
  obtain ⟨rest, hrest⟩ := List.take_prefix_take_left (l := s.actions) h
  simp only [logAt, ← hrest]
  exact ⟨Log.order_after _ _, Log.reverted_after _ _, fun turn => Log.own_after _ _ turn⟩

theorem logAt_log (s : Session) (i : ℕ) :
    (s.logAt i).order <+: s.log.order ∧ (s.logAt i).reverted <+: s.log.reverted ∧
      ∀ turn, (s.logAt i).own turn <+: s.log.own turn := by
  obtain ⟨rest, hrest⟩ := List.take_prefix i s.actions
  have hlog : s.log = Log.after (s.actions.take i ++ rest) := by rw [hrest]; rfl
  rw [logAt, hlog]
  exact ⟨Log.order_after _ _, Log.reverted_after _ _, fun turn => Log.own_after _ _ turn⟩

namespace Guarded

/-- A step of the window alone, that takes no record. -/
theorem onClient (h : s.Guarded) {c' : Client} (hheaded : c'.Headed s.actions)
    (hgone : ∀ turn ∈ s.applied, c'.turns turn = none)
    (hpages : ∀ load entries tails, c'.load = some load →
      load.answer = some (some (entries, tails)) → ∀ e ∈ entries, e.turn ∉ s.applied) :
    ({ s with client := c' } : Session).Guarded :=
  { h with headed := hheaded, gone := hgone, pages := hpages }

theorem pages_of_reads (h : s.Guarded) {c' : Client} (hreads : c'.ReadsOf s.client) :
    ∀ load entries tails, c'.load = some load →
      load.answer = some (some (entries, tails)) → ∀ e ∈ entries, e.turn ∉ s.applied := by
  intro load entries tails hload ha
  rcases hreads.load load hload with hmem | hnone
  · exact h.pages load entries tails hmem ha
  · rw [hnone] at ha
    cases ha

/-- A held turn's ordinal is the log's, wherever the log has the turn. -/
theorem heldOrdinal_eq (h : s.Guarded) {i : ℕ} (hst : s.client.turns turn = some st)
    (hmem : turn ∈ (s.logAt i).order) :
    s.client.heldOrdinal turn = some ((s.logAt i).ordinal turn) := by
  have hsound : (s.logAt i).Sound := h.recorded.sound_at i
  obtain ⟨e, es, hown⟩ := List.exists_cons_of_ne_nil (hsound.own_ne_nil hmem)
  obtain ⟨n, hp⟩ := hsound.opens turn e (by rw [hown]; rfl)
  obtain ⟨rest, hrest⟩ := (s.logAt_log i).2.2 turn
  have hhead : st.entries.head? = some e := by
    rw [(h.headed.heads turn st hst).2]
    change (s.log.own turn).head? = some e
    rw [← hrest, hown]
    rfl
  rw [Client.heldOrdinal, hst, Option.bind_some, Log.ordinal, Log.ordinalOf, Log.ordinalOf, hhead,
    hown]
  simp [hp]

theorem server (h : s.Guarded) (op : ServerOp) : (s.step (.server op)).Guarded := by
  have hlog : (s.step (.server op)).log = Log.after (s.actions ++ s.log.perform op) := rfl
  have hat : (s.step (.server op)).logAt s.cursor = s.logAt s.cursor := by
    simp only [logAt, step, List.take_append_of_le_length h.bounded]
  constructor
  · constructor
    · exact h.gone
    · intro turn hturn
      rw [hlog]
      exact (Log.reverted_after _ _).subset (h.taken turn hturn)
  · exact h.recorded.performs op
  · exact h.headed.mono
  · simp only [step, List.length_append]
    exact Nat.le_trans h.bounded (Nat.le_add_right _ _)
  · intro turn hturn
    change turn ∈ ((s.step (.server op)).logAt s.cursor).order
    rw [hat]
    exact h.met turn hturn
  · intro turn hturn
    rw [hlog]
    exact (Log.reverted_after _ _).subset (h.reverted turn hturn)
  · exact h.pages

/-- A record taken at a position of the log is one of its actions. -/
theorem log_split {i : ℕ} {a : Action} (hi : s.actions[i]? = some a) :
    s.logAt (i + 1) = (s.logAt i).act a := by
  rw [logAt, logAt, ← after_concat, List.take_add_one, hi]
  rfl

/-- A frame that is not a record the window takes. -/
theorem plain (h : s.Guarded) {i : ℕ} {f : Frame} (hi : s.actions[i]? = some (.announced f))
    (ho : s.cursor ≤ i) :
    ({ s with client := s.client.receive f, cursor := i + 1 } : Session).Guarded := by
  have hlt : i < s.actions.length := (List.getElem?_eq_some_iff.mp hi).1
  have hadmits := (h.recorded.fits hi).1
  have hopens : ∀ e, f = .turnOpened e → ((Log.after s.actions).own e.turn).head? = some e := by
    rintro e rfl
    have hnil : (s.logAt i).own e.turn = [] :=
      (h.recorded.sound_at i).own_eq_nil.mpr hadmits.1
    obtain ⟨rest, hrest⟩ := (s.logAt_log (i + 1)).2.2 e.turn
    rw [log_split hi, Log.act, Log.announce, Log.own_place, hnil, if_pos rfl] at hrest
    change (s.log.own e.turn).head? = some e
    rw [← hrest]
    rfl
  constructor
  · constructor
    · intro turn hturn
      by_contra hne
      obtain ⟨st, hst⟩ := Option.ne_none_iff_exists'.mp hne
      rcases Client.turns_receive hst with ⟨st₀, hst₀, -⟩ | ⟨e, rfl, rfl, -⟩
      · rw [h.gone turn hturn] at hst₀
        cases hst₀
      · exact hadmits.1 ((s.logAt_mono ho).1.subset (h.met e.turn hturn))
    · exact h.taken
  · exact h.recorded
  · exact h.headed.receive hopens
  · exact hlt
  · intro turn hturn
    exact (s.logAt_mono (Nat.le_succ_of_le ho)).1.subset (h.met turn hturn)
  · exact h.reverted
  · exact h.pages_of_reads (Client.reads_receive s.client f)

/-- A record that the window takes, where it holds none of the turns opened since. -/
theorem record (h : s.Guarded) {i : ℕ} {fromTurn : String} {fromN : ℕ}
    (hi : s.actions[i]? = some (.announced (.entryAppended e)))
    (hp : e.payload = .turnRevert fromTurn fromN) (ho : s.cursor ≤ i)
    (htakes : s.client.takesRecord e = true) (hsafe : s.keepsNewer i = true) :
    ({ s with
      client := s.client.receive (.entryAppended e)
      cursor := i + 1
      applied := s.applied ++ (s.logAt i).window fromTurn e.turn
      dropped := s.dropped ++ s.client.droppedBy e.turn fromN } : Session).Guarded := by
  have hplain := h.plain hi ho
  obtain ⟨hdrops, hpages⟩ := Client.receive_record hp htakes
  obtain ⟨hwindow, hback⟩ := (h.recorded.fits hi).2 fromTurn fromN hp
  change ∀ turn ∈ (s.logAt i).window fromTurn e.turn,
    turn ∈ (s.logAt i).order ∧ fromN ≤ (s.logAt i).ordinal turn at hwindow
  -- the record's window is reverted from the record on
  have hreverted : ∀ turn ∈ (s.logAt i).window fromTurn e.turn, turn ∈ s.log.reverted := by
    intro turn hturn
    apply (s.logAt_log (i + 1)).2.1.subset
    rw [log_split hi]
    simp only [Log.act, Log.announce, Log.place, hp]
    exact List.mem_append_right _ hturn
  have hgone : ∀ turn ∈ (s.logAt i).window fromTurn e.turn,
      (s.client.receive (.entryAppended e)).turns turn = none := by
    intro turn hturn
    by_contra hne
    obtain ⟨st, hst⟩ := Option.ne_none_iff_exists'.mp hne
    rcases Client.turns_receive hst with ⟨st₀, hst₀, -⟩ | ⟨e', he', -, -⟩
    · obtain ⟨hmem, hle⟩ := hwindow turn hturn
      have hord := h.heldOrdinal_eq hst₀ hmem
      have hcarrier : turn ≠ e.turn := by simpa using (List.mem_filter.mp hturn).2
      have hdropped : turn ∈ s.client.droppedBy e.turn fromN := by
        rw [Client.droppedBy, List.mem_filter]
        exact ⟨h.headed.indexed turn st₀ hst₀, by simpa [hcarrier, hord] using hle⟩
      exact hne (hdrops turn hdropped)
    · cases he'
  constructor
  · constructor
    · intro turn hturn
      rcases List.mem_append.mp hturn with hturn | hturn
      · exact hplain.gone turn hturn
      · exact hgone turn hturn
    · intro turn hturn
      rcases List.mem_append.mp hturn with hturn | hturn
      · exact h.taken turn hturn
      · obtain ⟨hindex, hcond⟩ := List.mem_filter.mp hturn
        rw [decide_eq_true_eq] at hcond
        obtain ⟨hcarrier, hany⟩ := hcond
        obtain ⟨n, hn, hle⟩ := (Option.any_eq_true ..).mp hany
        rw [decide_eq_true_eq] at hle
        obtain ⟨st, hst, -⟩ := Option.bind_eq_some_iff.mp hn
        have hlive : turn ∈ s.log.order := by
          by_contra hnot
          have hnil := h.recorded.sound.own_eq_nil.mpr hnot
          exact h.headed.own_ne_nil hst hnil
        by_cases hmem : turn ∈ (s.logAt i).order
        · rw [h.heldOrdinal_eq hst hmem, Option.some_inj] at hn
          rw [← hn] at hle
          rcases hback turn hmem hcarrier hle with hw | hr
          · exact hreverted turn hw
          · exact (s.logAt_log i).2.1.subset hr
        · by_contra hnot
          have hall : s.client.turnOrder.all (fun turn => turn ∉ s.log.survivors ∨
              turn ∈ (s.logAt i).order ∨ (s.client.heldOrdinal turn).all (· < fromN)) = true := by
            simpa [keepsNewer, hi, hp, htakes] using hsafe
          have hturn := List.all_eq_true.mp hall turn hindex
          have hsurvives := Log.mem_survivors.mpr ⟨hlive, hnot⟩
          simp only [hsurvives, not_true_eq_false, hmem, hn, Option.all_some, decide_eq_true_eq,
            false_or] at hturn
          omega
  · exact h.recorded
  · exact hplain.headed
  · exact hplain.bounded
  · intro turn hturn
    rcases List.mem_append.mp hturn with hturn | hturn
    · exact hplain.met turn hturn
    · exact (s.logAt_mono (Nat.le_succ i)).1.subset (hwindow turn hturn).1
  · intro turn hturn
    rcases List.mem_append.mp hturn with hturn | hturn
    · exact h.reverted turn hturn
    · exact hreverted turn hturn
  · intro load entries tails hload ha
    rw [hpages load hload] at ha
    cases ha

theorem receive (h : s.Guarded) {i : ℕ} {f : Frame} (hi : s.actions[i]? = some (.announced f))
    (ho : s.cursor ≤ i) (hsafe : s.keepsNewer i = true) : (s.receive i f).Guarded := by
  simp only [Session.receive]
  split
  · next e =>
    split
    · next htakes =>
      split
      · next fromTurn fromN hp => exact h.record hi hp ho htakes hsafe
      · exact h.plain hi ho
    · exact h.plain hi ho
  · exact h.plain hi ho

theorem pageArrives (h : s.Guarded) : (s.step .pageArrives).Guarded := by
  apply h.onClient h.headed.pageArrives
  · intro turn hturn
    by_contra hne
    obtain ⟨st, hst⟩ := Option.ne_none_iff_exists'.mp hne
    obtain ⟨-, hsame | ⟨load, entries, tails, hload, ha, hturns, -⟩⟩ :=
      Client.pageArrives_cases s.client h.headed.page_holes
    · rw [hsame.1, h.gone turn hturn] at hst
      cases hst
    · rw [hturns] at hst
      rcases Client.turns_applyPage hst with hst | ⟨p, hget, -⟩
      · rw [h.gone turn hturn] at hst
        cases hst
      · obtain ⟨heq, hnil, -⟩ :=
          Client.Headed.heads_page (h.headed.page load entries tails hload ha) hget
        obtain ⟨e, es, he⟩ := List.exists_cons_of_ne_nil hnil
        have hmem : e ∈ entries.filter (·.turn = turn) := by
          rw [← heq, he]
          exact List.mem_cons_self
        rw [List.mem_filter, decide_eq_true_eq] at hmem
        exact h.pages load entries tails hload ha e hmem.1 (hmem.2 ▸ hturn)
  · exact h.pages_of_reads (Client.pageArrives_cases s.client h.headed.page_holes).1

theorem rangeArrives (h : s.Guarded) (hsafe : s.keepsGone turn = true) :
    (s.step (.rangeArrives turn)).Guarded := by
  apply h.onClient (h.headed.rangeArrives turn)
  · intro turn' hturn'
    simp only [Client.rangeArrives]
    split
    · exact h.gone turn' hturn'
    · next r hr =>
      split
      · exact h.gone turn' hturn'
      · exact h.gone turn' hturn'
      · next entries tails ha =>
        have hgone := h.gone turn' hturn'
        rcases Client.applyTurnRange_cases (s.client.endRepair turn) turn entries tails with
          heq | ⟨hrev, hne, hturns, -, -⟩
        · rw [heq]
          exact hgone
        · rw [hturns]
          by_cases ht : turn' = turn
          · -- the answer begins past the turn's open, so nothing is seated
            rw [ht] at hgone hturn'
            change (((s.client.turns turn).getD { entries := [] }).seatRun entries).entries ≠ []
              at hne
            rw [hgone] at hne
            obtain ⟨e, he, hseq, -⟩ := TurnState.seatRun_empty hne
            change turn ∉ s.client.reverted at hrev
            simp only [keepsGone, hturn', hrev, hr, ha, Option.bind_some, not_true_eq_false,
              decide_false, Bool.false_or] at hsafe
            have hall := (Option.all_eq_true ..).mp hsafe e he
            simp [hseq] at hall
          · rw [Function.update_of_ne ht]
            exact hgone
  · exact h.pages_of_reads (Client.ReadsOf.rangeArrives s.client turn)

/-- A step that leaves the turns and answers no read. -/
theorem unread (h : s.Guarded) {c' : Client} (hturns : c'.turns = s.client.turns)
    (horder : c'.turnOrder = s.client.turnOrder) (hreads : c'.ReadsOf s.client) :
    ({ s with client := c' } : Session).Guarded := by
  apply h.onClient
  · apply h.headed.of_turns hreads
    · rw [hturns]
      exact h.headed.heads
    · intro turn st hst
      rw [hturns] at hst
      rw [horder]
      exact h.headed.indexed turn st hst
  · rw [hturns]
    exact h.gone
  · exact h.pages_of_reads hreads

theorem requestTurnRange (h : s.Guarded) (turn : String) (after : Option ℕ) :
    ({ s with client := s.client.requestTurnRange turn after } : Session).Guarded := by
  obtain ⟨hturns, horder⟩ := Client.turns_requestTurnRange s.client turn after
  exact h.unread hturns horder (.requestTurnRange s.client turn after)

/-- A page answered from the log as it stands has no turn that an applied record took. -/
theorem answerLoad (h : s.Guarded) (size : ℕ) : (s.step (.answerLoad size)).Guarded := by
  have hanswer : ∀ load entries tails,
      (s.client.load.map fun load => { load with
        answer := load.answer.or (some (s.log.page size load.before)) }) = some load →
      load.answer = some (some (entries, tails)) →
      Listed s.actions entries tails ∧ ∀ e ∈ entries, e.turn ∉ s.applied := by
    intro load entries tails hload ha
    obtain ⟨load', hload', rfl⟩ := Option.map_eq_some_iff.mp hload
    cases hans : load'.answer with
    | none =>
      simp only [hans, Option.none_or, Option.some_inj] at ha
      obtain ⟨hlisted, hentries, -⟩ := h.recorded.sound.page ha
      refine ⟨hlisted, ?_⟩
      intro e he hmem
      exact (Log.mem_survivors.mp (hentries e he).1).2 (h.reverted e.turn hmem)
    | some answer =>
      simp only [hans, Option.some_or, Option.some_inj] at ha
      have hold := hans.trans (congrArg some ha)
      exact ⟨h.headed.page load' entries tails hload' hold,
        h.pages load' entries tails hload' hold⟩
  apply h.onClient
  · exact ⟨h.headed.heads, h.headed.indexed,
      fun load entries tails hload ha => (hanswer load entries tails hload ha).1, h.headed.ranges⟩
  · exact h.gone
  · exact fun load entries tails hload ha => (hanswer load entries tails hload ha).2

theorem answerRange (h : s.Guarded) (turn : String) : (s.step (.answerRange turn)).Guarded := by
  apply h.onClient
  · refine ⟨h.headed.heads, h.headed.indexed, h.headed.page, ?_⟩
    intro r hr entries tails ha
    obtain ⟨r', hr', rfl⟩ := List.mem_map.mp hr
    by_cases ht : r'.turn = turn
    · subst ht
      rw [if_pos rfl] at ha ⊢
      cases hans : r'.answer with
      | none =>
        simp only [hans, Option.none_or, Option.some_inj] at ha
        obtain ⟨-, hentries, -⟩ := Log.turnRange_some ha
        intro e he
        exact ⟨h.recorded.sound.places_of_mem (hentries e he), Log.mem_own (hentries e he)⟩
      | some answer =>
        simp only [hans, Option.some_or, Option.some_inj] at ha
        exact h.headed.ranges r' hr' entries tails (hans.trans (congrArg some ha))
    · rw [if_neg ht] at ha ⊢
      exact h.headed.ranges r' hr' entries tails ha
  · exact h.gone
  · exact h.pages

theorem step (h : s.Guarded) {event : Event} (ho : s.Ordered event) (hsafe : s.Safe event = true) :
    (s.step event).Guarded := by
  cases event with
  | server op => exact h.server op
  | deliver i =>
    simp only [Session.step]
    split
    · next f hi => exact h.receive hi ho hsafe
    · exact h
  | load before =>
    refine @unread s h (s.client.loadMessages before) rfl rfl ⟨?_, fun _ hr => .inl hr⟩
    intro r hr
    obtain rfl := Option.some_inj.mp hr
    exact .inr rfl
  | ask turn whole =>
    simp only [Session.step, Session.onClient]
    split
    · exact h.requestTurnRange turn none
    · split
      · exact h.requestTurnRange turn _
      · exact h
  | answerLoad size => exact h.answerLoad size
  | answerRange turn => exact h.answerRange turn
  | pageArrives => exact h.pageArrives
  | rangeArrives turn => exact h.rangeArrives hsafe
  | loadLost =>
    have hsame : s.client.loadFails.turns = s.client.turns ∧
        s.client.loadFails.turnOrder = s.client.turnOrder := by
      rw [Client.loadFails]
      split
      · exact ⟨rfl, rfl⟩
      · exact ⟨rfl, rfl⟩
    exact h.unread hsame.1 hsame.2 (.loadFails s.client)
  | rangeLost turn => exact h.unread rfl rfl (.endRepair s.client turn)
  | loadCancelled => exact h.unread rfl rfl (.of_none rfl fun _ hr => hr)
  | evict =>
    apply h.onClient
    · refine ⟨?_, ?_, h.headed.page, h.headed.ranges⟩
      · intro turn st hst
        cases hst
      · intro turn st hst
        cases hst
    · exact fun _ _ => rfl
    · exact h.pages

end Guarded

/-- In every run whose frames come in order, no answer seats a turn that an applied record took and
no record drops a turn that survives, where each step keeps the two exceptions out. -/
theorem revert_kept {events : List Event}
    (h : Along (fun s event => s.Ordered event ∧ s.Safe event = true) {} events) :
    (run events).RevertKept :=
  (run_along (Q := Guarded) guarded_empty (fun _ _ hs hp => hs.step hp.1 hp.2) h).toRevertKept

/-- Two turns are held and a page and a range are out when the second turn is reverted. -/
def rewound : List Event :=
  [.server (.openTurn "a" 0), .deliver 0, .server (.openTurn "b" 1), .deliver 1, .load none,
    .answerLoad 20, .ask "b" true, .answerRange "b", .server (.revert "b" "m" 2), .deliver 2,
    .pageArrives, .rangeArrives "b", .answerLoad 20, .pageArrives]

theorem revert_kept_of_rewound : (run rewound).RevertKept := by
  apply @revert_kept rewound
  decide +kernel

/-- A turn whose open was lost is asked for and answered, and reverted before the answer arrives. -/
def unheldRange : List Event :=
  [.server (.openTurn "a" 0), .deliver 0, .server (.openTurn "b" 1),
    .server (.append "b" "" "x" (.other .plan) 2), .deliver 2, .answerRange "b",
    .server (.revert "b" "m" 3), .deliver 3, .rangeArrives "b"]

/-- A prompt after a revert takes the ordinal again, and its page arrives before the record. -/
def newerPage : List Event :=
  [.server (.openTurn "a" 0), .server (.openTurn "b" 1), .server (.revert "b" "m" 2),
    .server (.openTurn "c" 3), .load none, .answerLoad 1, .pageArrives, .deliver 2]

/-- The range seats the reverted turn, and the record drops the turn that survives. -/
theorem revert_undone : (Along Ordered {} unheldRange ∧ ¬ (run unheldRange).RevertKept) ∧
    (Along Ordered {} newerPage ∧ ¬ (run newerPage).RevertKept) := by
  refine ⟨⟨by decide +kernel, ?_⟩, by decide +kernel, ?_⟩
  · intro h
    have hheld : ((run unheldRange).client.turns "b").isSome = true := by decide +kernel
    rw [h.gone "b" (by decide +kernel)] at hheld
    cases hheld
  · intro h
    have hlive : "c" ∉ (run newerPage).log.reverted := by decide +kernel
    exact hlive (h.taken "c" (by decide +kernel))

end Session
end Marotte.Transcript
