import Marotte.EntryLog.History

/-! # Files that operations leave

Every turn of such a file opens once and counts its entries from zero. A write that was
cut short leaves a prefix of a file that would have been one of them.
-/
namespace Marotte

open History

/-- Every turn opens once, and its entries count from zero. -/
structure WellFormed (es : List Entry) : Prop where
  opensOnce : (opened es).Nodup
  contiguous : ∀ turn, (own es turn).map Entry.seq = List.range (own es turn).length

theorem wellFormed_nil : WellFormed [] := ⟨by simp [opened], by simp [own]⟩

theorem WellFormed.of_initial {es fs : List Entry} (h : WellFormed fs) (hp : es <+: fs) :
    WellFormed es := by
  obtain ⟨gs, rfl⟩ := hp
  constructor
  · have := h.opensOnce
    rw [opened_append] at this
    exact (List.nodup_append.mp this).1
  · intro turn
    have := h.contiguous turn
    rw [own_append, List.map_append, List.length_append, List.range_add] at this
    exact List.append_inj_left this (by simp)

theorem WellFormed.concat {es : List Entry} {e : Entry} (h : WellFormed es)
    (hopen : e.kind = .turnOpen → e.turn ∉ opened es) (hseq : e.seq = (own es e.turn).length) :
    WellFormed (es ++ [e]) := by
  constructor
  · rw [opened_append, List.nodup_append]
    refine ⟨h.opensOnce, ?_, ?_⟩
    · by_cases hk : e.kind = .turnOpen <;> simp [opened, hk]
    · intro t ht t' ht' heq
      by_cases hk : e.kind = .turnOpen
      · simp only [opened, List.filterMap_cons, hk, if_true, List.filterMap_nil,
          List.mem_singleton] at ht'
        exact hopen hk (ht' ▸ heq ▸ ht)
      · simp [opened, hk] at ht'
  · intro turn
    by_cases ht : e.turn = turn
    · subst ht
      have hone : own [e] e.turn = [e] := by simp [own]
      rw [own_append, hone, List.map_append, h.contiguous, List.length_append,
        List.length_singleton, List.range_succ]
      simp [hseq]
    · have hnil : own [e] turn = [] := by simp [own, ht]
      rw [own_append, hnil, List.append_nil]
      exact h.contiguous turn

/-- A turn's next seq counts its entries. -/
def Index.CountsNext (es : List Entry) (b : Index) : Prop :=
  WellFormed es → ∀ turn st, b.turns turn = some st → st.nextSeq = (own es turn).length

theorem TurnState.fold_nextSeq (st : TurnState) (e : Entry) : (st.fold e).nextSeq = st.nextSeq := by
  unfold TurnState.fold
  split <;> rfl

theorem Index.countsNext_concat {es : List Entry} {b b' : Index} {e : Entry} {len : ℕ}
    (h : b.CountsNext es) (hobs : b.observeLine e len = some b') :
    b'.CountsNext (es ++ [e]) := by
  intro hwf turn st hst
  obtain ⟨i, hi, rfl⟩ := Index.observeLine_iff_observe.mp hobs
  change i.turns turn = some st at hst
  have hes := hwf.of_initial (List.prefix_append es [e])
  by_cases hturn : turn = e.turn
  · subst hturn
    have hone : own [e] e.turn = [e] := by simp [own]
    have hseq : e.seq = (own es e.turn).length := by
      have := hwf.contiguous e.turn
      rw [own_append, hone, List.map_append, hes.contiguous, List.length_append,
        List.length_singleton, List.range_succ] at this
      simpa using List.append_cancel_left this
    rw [own_append, hone, List.length_append, List.length_singleton]
    by_cases ho : e.kind = .turnOpen
    · obtain ⟨p, hp⟩ := Entry.kind_eq_turnOpen.mp ho
      rw [observe_turns hi] at hst
      simp only [hp, if_true, Option.some.injEq] at hst
      rw [← hst, ← hseq]
      rfl
    · rw [observe_turns_of_ne_turnOpen ho hi, if_pos rfl, Option.map_eq_some_iff] at hst
      obtain ⟨st₀, hst₀, rfl⟩ := hst
      rw [TurnState.fold_nextSeq, TurnState.extend]
      simp [h hes e.turn st₀ hst₀, hseq]
  · rw [observe_turns hi, if_neg hturn] at hst
    have hnil : own [e] turn = [] := by simp [own, Ne.symm hturn]
    rw [own_append, hnil, List.append_nil]
    exact h hes turn st hst

theorem LineCodec.Intact.countsNext {c : LineCodec} {file : List UInt8} {b : Index}
    (h : c.Intact file b) : b.CountsNext (c.entriesOf file) :=
  h.induction (P := fun es b => b.CountsNext es) (fun _ _ _ hst => by cases hst)
    (fun _ _ _ _ _ hn hobs => Index.countsNext_concat hn hobs)

/-- A file that some intact file of well-formed entries begins with. -/
def SoundFile (c : LineCodec) (file : List UInt8) : Prop :=
  ∃ whole b, c.Intact whole b ∧ WellFormed (c.entriesOf whole) ∧ file <+: whole

variable {c : LineCodec}

theorem soundFile_nil : SoundFile c [] :=
  ⟨[], .empty, LineCodec.intact_nil, by simpa [LineCodec.entriesOf, Lines.split] using wellFormed_nil,
    List.prefix_refl _⟩

theorem SoundFile.of_initial {file file' : List UInt8} (h : SoundFile c file) (hp : file' <+: file) :
    SoundFile c file' := by
  obtain ⟨whole, b, hi, hwf, hw⟩ := h
  exact ⟨whole, b, hi, hwf, hp.trans hw⟩

theorem LineCodec.decode_of_accepts {b b' : Index} {lines : List (List UInt8)}
    (h : Replay.Accepts c.observeLine b lines b') :
    lines.map c.unmarshal = (lines.filterMap c.unmarshal).map some := by
  induction lines generalizing b with
  | nil => rfl
  | cons line lines ih =>
    obtain ⟨i, hi, hrest⟩ := Replay.accepts_cons.mp h
    obtain ⟨-, e, he, -⟩ := LineCodec.observeLine_eq_some.mp hi
    simp [he, ih hrest]

/-- A scan of such a file reads its complete lines and drops the torn tail alone. -/
theorem SoundFile.scan {file : List UInt8} (h : SoundFile c file) :
    file.take (c.scanFile file).size = Lines.join newline (Lines.split newline file).1 ∧
      c.entriesOf (file.take (c.scanFile file).size) = c.entriesOf file ∧
      (Lines.split newline file).1.map c.unmarshal = (c.entriesOf file).map some ∧
      WellFormed (c.entriesOf file) := by
  obtain ⟨whole, b, ⟨lines, hl, rfl, ha⟩, hwf, hp⟩ := h
  have hcut := List.prefix_iff_eq_take.mp hp
  have hpre : (Lines.split newline file).1 <+: lines := by
    rw [hcut]
    exact Lines.split_take newline hl _
  obtain ⟨t, ht⟩ := ha.of_initial hpre
  have hscan : c.scanFile file = t := ht.replay_eq
  have hjoin := Lines.join_split newline file
  have hsize : t.size = 0 + (Lines.join newline (Lines.split newline file).1).length :=
    LineCodec.accepts_size ht
  have hfile : file.take (c.scanFile file).size =
      Lines.join newline (Lines.split newline file).1 := by
    rw [hscan, hsize, Nat.zero_add]
    calc file.take (Lines.join newline (Lines.split newline file).1).length
      _ = (Lines.join newline (Lines.split newline file).1 ++ (Lines.split newline file).2).take
            (Lines.join newline (Lines.split newline file).1).length := by rw [hjoin]
      _ = Lines.join newline (Lines.split newline file).1 := List.take_left
  have hnl : ∀ line ∈ (Lines.split newline file).1, newline ∉ line :=
    fun line hline => Lines.notMem_of_mem_split newline hline
  refine ⟨hfile, ?_, LineCodec.decode_of_accepts ht, ?_⟩
  · rw [hfile, LineCodec.entriesOf, Lines.split_join newline hnl, LineCodec.entriesOf]
  · rw [LineCodec.entriesOf, Lines.split_join newline hl] at hwf
    obtain ⟨rest, hrest⟩ := hpre
    refine hwf.of_initial ⟨rest.filterMap c.unmarshal, ?_⟩
    rw [LineCodec.entriesOf, ← List.filterMap_append, hrest]

namespace EntryLog

/-- A log whose file operations leave. -/
structure Sound (c : LineCodec) (l : EntryLog) : Prop where
  coherent : ∃ b r, CoherentUnder c l b r
  wellFormed : WellFormed (l.recorded c)
  file : SoundFile c l.file

theorem CoherentUnder.recorded_eq {l : EntryLog} {b : Index} {r : String → Bool}
    (h : CoherentUnder c l b r) : l.recorded c = c.entriesOf (l.file.take b.size) := by
  rw [EntryLog.recorded, h.index_eq, Index.live_size]

theorem CoherentUnder.intact_of_running {l : EntryLog} {b : Index} {r : String → Bool}
    (h : CoherentUnder c l b r) (hf : l.failed = false) : c.Intact l.file b := by
  have hi := h.intact
  rwa [h.whole hf, List.take_length] at hi

theorem CoherentUnder.recorded_of_running {l : EntryLog} {b : Index} {r : String → Bool}
    (h : CoherentUnder c l b r) (hf : l.failed = false) : l.recorded c = c.entriesOf l.file := by
  rw [h.recorded_eq, h.whole hf, List.take_length]

/-- An append that goes through adds its line to the file and its entry to the record. -/
theorem CoherentUnder.append_eq_ok {l l' : EntryLog} {b : Index} {r : String → Bool} {t : Tick}
    {e stamped : Entry} (h : CoherentUnder c l b r) (heq : l.append c t e = (l', .ok stamped)) :
    stamped = l.stamp t e ∧ l.failed = false ∧
      l' = { l with file := l.file ++ (c.marshal stamped ++ [newline]), index := l'.index } ∧
      l'.recorded c = l.recorded c ++ [stamped] ∧
      ∃ b', b.observeLine stamped ((c.marshal stamped).length + 1) = some b' ∧
        CoherentUnder c l' b' (b.flagsAfter r stamped) := by
  rcases append_cases l t e with ⟨idx, hadm, hobs, heq'⟩ | ⟨l₁, err, heq', -⟩
  · rw [heq] at heq'
    obtain ⟨rfl, hs⟩ := Prod.mk.inj heq'
    obtain ⟨b', hb', hl'⟩ := h.append_ok hadm hobs
    have hrun := hadm.running
    refine ⟨Except.ok.inj hs, hrun, by rw [Except.ok.inj hs], ?_, b', ?_, ?_⟩
    · rw [hl'.recorded_of_running hrun, h.recorded_of_running hrun, Except.ok.inj hs]
      exact LineCodec.entriesOf_append (h.intact_of_running hrun) _
    · rw [Except.ok.inj hs]
      exact hb'
    · rw [Except.ok.inj hs]
      exact hl'
  · rw [heq] at heq'
    cases heq'

/-- The stamped entry continues its turn's count, or is the first of a new turn. -/
theorem CoherentUnder.wellFormed_stamp {l : EntryLog} {b : Index} {r : String → Bool} {t : Tick}
    {e : Entry} (h : CoherentUnder c l b r) (hwf : WellFormed (l.recorded c))
    (hf : l.failed = false) (he : l.OpensNew e)
    (hheld : l.index.turns e.turn ≠ none ∨ e.kind = .turnOpen) :
    WellFormed (l.recorded c ++ [l.stamp t e]) := by
  obtain ⟨hfollows, -⟩ := h.recorded
  refine hwf.concat ?_ ?_
  · intro hk
    have hnew := (he (by simpa using hk) hf).1
    rwa [h.index_eq, Index.live_order, hfollows.order] at hnew
  · rw [stamp_turn]
    cases hst : b.turns e.turn with
    | none =>
      have hturns : l.index.turns e.turn = none := by rw [h.index_eq, Index.live_turns, hst]; rfl
      have hnot : e.turn ∉ b.order := by
        rw [h.intact.folded.mem_order, hst]
        simp
      rw [hfollows.own_eq_nil hnot]
      simp [stamp, hturns, (he (hheld.resolve_left (by simp [hturns])) hf).2.2]
    | some st =>
      have hturns : l.index.turns e.turn = some (st.setReverted (r e.turn)) := by
        rw [h.index_eq, Index.live_turns, hst]
        rfl
      have hcount := h.intact.countsNext
      rw [← h.recorded_eq] at hcount
      rw [← hcount hwf e.turn st hst]
      simp [stamp, hturns, TurnState.setReverted]

theorem observes_of_held {b : Index} {e : Entry} {len : ℕ}
    (h : b.turns e.turn ≠ none ∨ e.kind = .turnOpen) : ∃ b', b.observeLine e len = some b' := by
  cases hobs : b.observeLine e len with
  | some b' => exact ⟨b', rfl⟩
  | none =>
    obtain ⟨hn, hk⟩ := Index.observeLine_eq_none.mp hobs
    exact absurd h (by simp [hn, hk])

theorem Sound.append {l : EntryLog} (h : Sound c l) (t : Tick) {e : Entry} (he : l.OpensNew e) :
    Sound c (l.append c t e).1 := by
  obtain ⟨b, r, hb⟩ := h.coherent
  rcases append_cases l t e with ⟨idx, hadm, hobs, heq⟩ | ⟨l', err, heq, href⟩
  · obtain ⟨-, -, -, hrec, b', -, hb'⟩ := hb.append_eq_ok heq
    have hheld : l.index.turns e.turn ≠ none ∨ e.kind = .turnOpen := by
      by_contra hno
      have hn : l.index.observeLine (l.stamp t e) ((c.marshal (l.stamp t e)).length + 1) = none :=
        Index.observeLine_eq_none.mpr
          ⟨by simpa using (not_or.mp hno).1, by simpa using (not_or.mp hno).2⟩
      rw [hobs] at hn
      cases hn
    have hwf := hb.wellFormed_stamp (t := t) h.wellFormed hadm.running he hheld
    rw [heq]
    refine ⟨⟨b', _, hb'⟩, by rw [hrec]; exact hwf, ?_⟩
    have hi := hb'.intact_of_running hadm.running
    refine ⟨_, b', hi, ?_, List.prefix_refl _⟩
    rw [← hb'.recorded_of_running hadm.running, hrec]
    exact hwf
  · rw [heq]
    have hb' := hb.refused href
    rcases href with rfl | ⟨hf, hfit, hheld, written, rfl⟩
    · exact h
    · have hrec : (l.recorded c) = recorded c
          { l with
            file := l.file ++ (c.marshal (l.stamp t e) ++ [newline]).take written
            failed := true } := by
        rw [hb'.recorded_eq, hb.recorded_eq]
        simp [List.take_append_of_le_length (Nat.le_of_eq (hb.whole hf))]
      refine ⟨⟨b, r, hb'⟩, hrec ▸ h.wellFormed, ?_⟩
      have hbheld : b.turns (l.stamp t e).turn ≠ none ∨ (l.stamp t e).kind = .turnOpen := by
        simpa [hb.index_eq] using hheld
      obtain ⟨b', hobs⟩ : ∃ b', b.observeLine (l.stamp t e)
          ((c.marshal (l.stamp t e)).length + 1) = some b' := observes_of_held hbheld
      have hi := hb.intact_of_running hf
      have hwf := hb.wellFormed_stamp (t := t) h.wellFormed hf he hheld
      rw [hb.recorded_of_running hf, ← LineCodec.entriesOf_append hi] at hwf
      refine ⟨_, b', hi.append hfit hobs, hwf, ?_⟩
      exact (List.prefix_append_right_inj _).mpr (List.take_prefix _ _)

theorem Sound.grows {l l' : EntryLog} (h : Sound c l) (hg : Grows c l l') : Sound c l' := by
  induction hg with
  | refl => exact h
  | append _ t e he ih => exact ih.append t he
  | @hide l₁ hg turn ih =>
    obtain ⟨b, r, hb⟩ := h.coherent
    obtain ⟨b', r', hb', -⟩ := (hg.hide turn).coherentUnder hb
    have hsize : (l₁.hideCarrier turn).index.size = l₁.index.size := rfl
    refine ⟨⟨b', r', hb'⟩, ?_, ih.file⟩
    exact ih.wellFormed
  | cache hg header ih =>
    obtain ⟨b, r, hb⟩ := h.coherent
    obtain ⟨b', r', hb', -⟩ := (hg.cache header).coherentUnder hb
    exact ⟨⟨b', r', hb'⟩, ih.wellFormed, ih.file⟩

end EntryLog

end Marotte
