import Marotte.Transcript.Pages
import Marotte.Transcript.Spoken

/-! # What a window holds of a turn

Every read and every frame leaves a held turn a prefix of the log's, with open entries that its
lanes had. An open entry that outlives its sealed one comes in only as a frame or an answer has it.
-/
namespace Marotte.Transcript

variable {as bs : List Action} {turn : String} {st st' page held : TurnState} {e : Entry}
  {o : OpenEntry} {es : List Entry} {tails : List OpenEntry} {l l' : Log}

/-- The entries are a prefix of the log's, closed where that prefix holds the turn_close. -/
structure Prefixed (l : Log) (turn : String) (st : TurnState) : Prop where
  entries : st.entries <+: l.own turn
  closed : ∀ i, st.closeAt = some i → ∃ e, st.entries[i]? = some e ∧ e.kind = .turnClose
  unclosed : st.closeAt = none → ∀ e ∈ st.entries, e.kind ≠ .turnClose

/-- One open entry for each lane, as the lane had it, and none that the turn holds sealed. -/
structure Tailed (as : List Action) (turn : String) (st : TurnState) : Prop where
  lanes : (st.openEntries.map OpenEntry.lane).Nodup
  spoken : ∀ o ∈ st.openEntries, o.turn = turn ∧ Spoken as o
  unsealed : ∀ o ∈ st.openEntries, ∀ e ∈ st.entries, e.id ≠ o.id

namespace Prefixed

theorem empty (l : Log) (turn : String) : Prefixed l turn { entries := [] } where
  entries := List.nil_prefix
  closed := nofun
  unclosed := nofun

theorem mono (h : Prefixed (Log.after as) turn st) : Prefixed (Log.after (as ++ bs)) turn st :=
  ⟨h.entries.trans (Log.own_after as bs turn), h.closed, h.unclosed⟩

theorem of_entries (h : Prefixed l turn st) (he : st'.entries = st.entries)
    (hc : st'.closeAt = st.closeAt) : Prefixed l turn st' := by
  constructor
  · rw [he]
    exact h.entries
  · rw [he, hc]
    exact h.closed
  · rw [he, hc]
    exact h.unclosed

/-- The next entry of the log. -/
theorem push (h : Prefixed l turn st) (he : l.Places e) (ht : e.turn = turn)
    (hseq : e.seq = st.entries.length) : Prefixed l turn (st.push e) := by
  have hnext : (l.own turn)[st.entries.length]? = some e := by
    rw [← ht, ← hseq]
    exact he
  constructor
  · obtain ⟨rest, hrest⟩ := h.entries
    rw [← hrest, List.getElem?_append_right (Nat.le_refl _), Nat.sub_self] at hnext
    cases rest with
    | nil => cases hnext
    | cons e' rest =>
      obtain rfl := Option.some_inj.mp hnext
      rw [← hrest, TurnState.entries_push]
      exact ⟨rest, by simp⟩
  · intro i hi
    simp only [TurnState.push] at hi ⊢
    split at hi
    · next hk =>
      obtain rfl := Option.some_inj.mp hi
      exact ⟨e, by rw [hseq, List.getElem?_concat_length], hk⟩
    · obtain ⟨e', he', hk⟩ := h.closed i hi
      exact ⟨e', Log.getElem?_of_prefix (List.prefix_append _ _) he', hk⟩
  · intro hnone e' he'
    simp only [TurnState.push] at hnone he'
    split at hnone
    · cases hnone
    · next hk =>
      rcases List.mem_append.mp he' with he' | he'
      · exact h.unclosed hnone e' he'
      · rw [List.mem_singleton.mp he']
        exact hk

theorem seatRun (h : Prefixed l turn st) (hes : ∀ e ∈ es, l.Places e ∧ e.turn = turn) :
    Prefixed l turn (st.seatRun es) := by
  induction es generalizing st with
  | nil => exact h
  | cons e es ih =>
    obtain ⟨he, ht⟩ := hes e List.mem_cons_self
    rw [TurnState.seatRun]
    split
    · next hseq => exact ih (h.push he ht hseq) fun e' he' => hes e' (List.mem_cons_of_mem _ he')
    · exact h

/-- What a walk over the turn's first entries makes. -/
theorem ofEntries (h : l.Sound) (hes : es <+: l.own turn) :
    Prefixed l turn (TurnState.ofEntries es) := by
  induction es using List.reverseRecOn with
  | nil => exact empty l turn
  | append_singleton es e ih =>
    have hget : (l.own turn)[es.length]? = some e :=
      Log.getElem?_of_prefix hes List.getElem?_concat_length
    have hmem := List.mem_of_getElem? hget
    rw [TurnState.ofEntries_concat]
    apply (ih ((List.prefix_append es [e]).trans hes)).push
    · exact h.places_of_mem hmem
    · exact Log.mem_own hmem
    · rw [TurnState.entries_ofEntries]
      exact h.seqs turn _ e hget

/-- A held entry has its position for its seq. -/
theorem seq_eq (h : Prefixed l turn st) (hl : l.Sound) {i : ℕ} (he : st.entries[i]? = some e) :
    e.seq = i := hl.seqs turn i e (Log.getElem?_of_prefix h.entries he)

theorem places (h : Prefixed l turn st) (hl : l.Sound) (he : e ∈ st.entries) :
    l.Places e ∧ e.turn = turn :=
  have hmem := h.entries.subset he
  ⟨hl.places_of_mem hmem, Log.mem_own hmem⟩

end Prefixed

namespace TurnState

theorem mem_seatRun (h : e ∈ (st.seatRun es).entries) : e ∈ st.entries ∨ e ∈ es := by
  induction es generalizing st with
  | nil => exact .inl h
  | cons e' es ih =>
    rw [seatRun] at h
    split at h
    · rcases ih h with h | h
      · rcases List.mem_append.mp h with h | h
        · exact .inl h
        · exact .inr (List.mem_singleton.mp h ▸ List.mem_cons_self)
      · exact .inr (List.mem_cons_of_mem _ h)
    · exact .inl h

@[simp] theorem openEntries_seatRun (st : TurnState) (es : List Entry) :
    (st.seatRun es).openEntries = st.openEntries := by
  induction es generalizing st with
  | nil => rfl
  | cons e es ih =>
    rw [seatRun]
    split
    · exact ih _
    · rfl

end TurnState

namespace Tailed

theorem mono (h : Tailed as turn st) : Tailed (as ++ bs) turn st :=
  ⟨h.lanes, fun o ho => ⟨(h.spoken o ho).1, (h.spoken o ho).2.mono⟩, h.unsealed⟩

theorem of_untailed (h : st.openEntries = []) : Tailed as turn st := by
  constructor
  · rw [h]
    exact List.nodup_nil
  · rw [h]
    nofun
  · rw [h]
    nofun

/-- Entries that none of the open tails has become. -/
theorem of_entries (h : Tailed as turn st) (ho : st'.openEntries = st.openEntries)
    (he : ∀ e ∈ st'.entries, e ∈ st.entries ∨ ∀ o ∈ st.openEntries, e.id ≠ o.id) :
    Tailed as turn st' := by
  constructor
  · rw [ho]
    exact h.lanes
  · rw [ho]
    exact h.spoken
  · intro o hmem e hemem
    rw [ho] at hmem
    rcases he e hemem with he | he
    · exact h.unsealed o hmem e he
    · exact he o hmem

theorem setOpen (h : Tailed as turn st) (ht : o.turn = turn) (ho : Spoken as o)
    (hid : ∀ e ∈ st.entries, e.id ≠ o.id) : Tailed as turn (st.setOpen o) := by
  constructor
  · exact Keyed.nodup_set h.lanes
  · intro o' ho'
    rcases Keyed.mem_set ho' with rfl | ⟨hm, _⟩
    · exact ⟨ht, ho⟩
    · exact h.spoken o' hm
  · intro o' ho'
    rcases Keyed.mem_set ho' with rfl | ⟨hm, _⟩
    · exact hid
    · exact h.unsealed o' hm

theorem withTails (h : Tailed as turn st) (ht : ∀ o ∈ tails, o.turn = turn ∧ Spoken as o)
    (hid : ∀ o ∈ tails, ∀ e ∈ st.entries, e.id ≠ o.id) : Tailed as turn (st.withTails tails) := by
  induction tails using List.reverseRecOn with
  | nil => exact h
  | append_singleton tails o ih =>
    have hself : o ∈ tails ++ [o] := List.mem_append_right _ (List.mem_singleton_self o)
    rw [TurnState.withTails_concat]
    apply setOpen
    · exact ih (fun o' ho' => ht o' (List.mem_append_left _ ho'))
        fun o' ho' => hid o' (List.mem_append_left _ ho')
    · exact (ht o hself).1
    · exact (ht o hself).2
    · rw [TurnState.entries_withTails]
      exact hid o hself

theorem keepOpen (h : Tailed as turn st) (ht : o.turn = turn) (ho : Spoken as o) :
    Tailed as turn (st.keepOpen o) := by
  rw [TurnState.keepOpen]
  split
  · exact h
  · next hnew =>
    have hid : ∀ e ∈ st.entries, e.id ≠ o.id := by
      intro e he heq
      exact hnew (heq ▸ List.mem_map_of_mem he)
    split
    · exact h.setOpen ht ho hid
    · split
      · exact h.setOpen ht ho hid
      · exact h

/-- A delta on an open entry that the turn has. -/
theorem extend (h : Tailed as turn st) {o₂ : OpenEntry} (ho : o ∈ st.openEntries)
    (ht : o₂.turn = o.turn) (hi : o₂.id = o.id) (hs : Spoken as o₂) :
    Tailed as turn (st.setOpen o₂) := by
  apply h.setOpen (ht.trans (h.spoken o ho).1) hs
  rw [hi]
  exact h.unsealed o ho

end Tailed

namespace TurnState

theorem keepOpen_entries (st : TurnState) (o : OpenEntry) :
    (st.keepOpen o).entries = st.entries ∧ (st.keepOpen o).closeAt = st.closeAt := by
  rw [keepOpen]
  split
  · exact ⟨rfl, rfl⟩
  · split
    · exact ⟨rfl, rfl⟩
    · split
      · exact ⟨rfl, rfl⟩
      · exact ⟨rfl, rfl⟩

theorem foldl_keepOpen_entries (st : TurnState) (tails : List OpenEntry) :
    (tails.foldl keepOpen st).entries = st.entries ∧
      (tails.foldl keepOpen st).closeAt = st.closeAt := by
  induction tails generalizing st with
  | nil => exact ⟨rfl, rfl⟩
  | cons o tails ih =>
    obtain ⟨he, hc⟩ := ih (st.keepOpen o)
    obtain ⟨he', hc'⟩ := keepOpen_entries st o
    exact ⟨he.trans he', hc.trans hc'⟩

theorem mergeTurn_entries (page held : TurnState) :
    (mergeTurn page held).entries = (page.seatRun (held.entries.drop page.entries.length)).entries :=
  (foldl_keepOpen_entries _ _).1

end TurnState

/-- A held turn that is true of the log. -/
structure Held (as : List Action) (turn : String) (st : TurnState) : Prop where
  prefixed : Prefixed (Log.after as) turn st
  tailed : Tailed as turn st

namespace Held

theorem mono (h : Held as turn st) : Held (as ++ bs) turn st := ⟨h.prefixed.mono, h.tailed.mono⟩

/-- A page's turn over the held one, whose entries none of the page's open tails has become. -/
theorem mergeTurn (hl : (Log.after as).Sound) (hp : Held as turn page) (hh : Held as turn held)
    (hid : ∀ o ∈ page.openEntries, ∀ e ∈ held.entries, e.id ≠ o.id) :
    Held as turn (TurnState.mergeTurn page held) := by
  have hrun : Prefixed (Log.after as) turn
      (page.seatRun (held.entries.drop page.entries.length)) := by
    apply hp.prefixed.seatRun
    intro e he
    exact hh.prefixed.places hl (List.mem_of_mem_drop he)
  have htails : Tailed as turn (page.seatRun (held.entries.drop page.entries.length)) := by
    apply hp.tailed.of_entries (TurnState.openEntries_seatRun _ _)
    intro e he
    rcases TurnState.mem_seatRun he with he | he
    · exact .inl he
    · exact .inr fun o ho => hid o ho e (List.mem_of_mem_drop he)
  have hkept : ∀ (tails : List OpenEntry) st, Tailed as turn st →
      (∀ o ∈ tails, o.turn = turn ∧ Spoken as o) →
      Tailed as turn (tails.foldl TurnState.keepOpen st) := by
    intro tails
    induction tails with
    | nil => exact fun st h _ => h
    | cons o tails ih =>
      intro st h hs
      obtain ⟨ht, ho⟩ := hs o List.mem_cons_self
      exact ih _ (h.keepOpen ht ho) fun o' ho' => hs o' (List.mem_cons_of_mem _ ho')
  constructor
  · obtain ⟨he, hc⟩ := TurnState.foldl_keepOpen_entries
      (page.seatRun (held.entries.drop page.entries.length)) held.openEntries
    exact hrun.of_entries he hc
  · exact hkept held.openEntries _ htails hh.tailed.spoken

/-- The tails of an answer in place of the held ones. -/
theorem seatTails (hp : Prefixed (Log.after as) turn st) (hs : ∀ o ∈ tails, Spoken as o)
    (hid : ∀ o ∈ tails, o.turn = turn → ∀ e ∈ st.entries, e.id ≠ o.id) :
    Held as turn (st.seatTails turn tails) := by
  have hmem : ∀ o ∈ tails.filter (·.turn = turn), o ∈ tails ∧ o.turn = turn := by
    intro o ho
    simpa using ho
  rw [TurnState.seatTails_eq]
  constructor
  · apply hp.of_entries
    · rw [TurnState.entries_withTails]
    · rw [TurnState.closeAt_withTails]
  · apply (Tailed.of_untailed rfl).withTails
    · exact fun o ho => ⟨(hmem o ho).2, hs o (hmem o ho).1⟩
    · exact fun o ho => hid o (hmem o ho).1 (hmem o ho).2

end Held
end Marotte.Transcript
