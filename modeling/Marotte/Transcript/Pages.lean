import Mathlib.Data.List.Induction
import Marotte.Transcript.Admitted

/-! # What a page is walked into

Over entries that list every turn from its open on, the walk finds no gap: it has the turns that
are listed, each with its entries and its open tails.
-/
namespace Marotte.Transcript

variable {es : List Entry} {e : Entry} {turn : String} {tails : List OpenEntry}

/-- Each turn's entries come in the order of their seqs, its turn_open first. -/
structure Lined (es : List Entry) : Prop where
  seqs : ∀ (turn : String) (i : ℕ) e, (es.filter (·.turn = turn))[i]? = some e → e.seq = i
  heads : ∀ (turn : String) (i : ℕ) e, (es.filter (·.turn = turn))[i]? = some e →
    (e.kind = .turnOpen ↔ i = 0)

theorem Log.Sound.lined {l : Log} (h : l.Sound) : Lined l.entries := ⟨h.seqs, h.heads⟩

namespace Lined

/-- The entries of some of the turns. -/
theorem filter (h : Lined es) (p : String → Bool) : Lined (es.filter fun e => p e.turn) := by
  have hown : ∀ (turn : String) (i : ℕ) e,
      ((es.filter fun e => p e.turn).filter (·.turn = turn))[i]? = some e →
      (es.filter (·.turn = turn))[i]? = some e := by
    intro turn i e he
    have hmem := List.mem_of_getElem? he
    have hp : p turn = true := by
      simp only [List.mem_filter, decide_eq_true_eq] at hmem
      rw [← hmem.2]
      exact hmem.1.2
    rw [List.filter_filter] at he
    rw [← he]
    congr 1
    apply List.filter_congr
    intro e' _
    by_cases ht : e'.turn = turn
    · simp [ht, hp]
    · simp [ht]
  exact ⟨fun turn i e he => h.seqs turn i e (hown turn i e he),
    fun turn i e he => h.heads turn i e (hown turn i e he)⟩

theorem of_concat (h : Lined (es ++ [e])) : Lined es := by
  have hown : ∀ (turn : String) (i : ℕ) e', (es.filter (·.turn = turn))[i]? = some e' →
      ((es ++ [e]).filter (·.turn = turn))[i]? = some e' := by
    intro turn i e' he'
    have hlt := (List.getElem?_eq_some_iff.mp he').1
    rw [List.filter_append, List.getElem?_append_left hlt, he']
  exact ⟨fun turn i e' he' => h.seqs turn i e' (hown turn i e' he'),
    fun turn i e' he' => h.heads turn i e' (hown turn i e' he')⟩

theorem last (h : Lined (es ++ [e])) : e.seq = (es.filter (·.turn = e.turn)).length ∧
    (e.kind = .turnOpen ↔ es.filter (·.turn = e.turn) = []) := by
  have hget : ((es ++ [e]).filter (·.turn = e.turn))[(es.filter (·.turn = e.turn)).length]? =
      some e := by
    simp [List.filter_append]
  refine ⟨h.seqs _ _ e hget, ?_⟩
  rw [h.heads _ _ e hget, List.length_eq_zero_iff]

end Lined

namespace TurnState

/-- The turn that a list of entries makes. -/
def ofEntries (es : List Entry) : TurnState := es.foldl push { entries := [] }

@[simp] theorem entries_push (st : TurnState) (e : Entry) : (st.push e).entries = st.entries ++ [e] :=
  rfl

@[simp] theorem openEntries_push (st : TurnState) (e : Entry) :
    (st.push e).openEntries = st.openEntries := rfl

@[simp] theorem entries_setOpen (st : TurnState) (o : OpenEntry) :
    (st.setOpen o).entries = st.entries := rfl

@[simp] theorem closeAt_setOpen (st : TurnState) (o : OpenEntry) :
    (st.setOpen o).closeAt = st.closeAt := rfl

theorem ofEntries_concat (es : List Entry) (e : Entry) :
    ofEntries (es ++ [e]) = (ofEntries es).push e := by
  rw [ofEntries, ofEntries, List.foldl_append]
  rfl

@[simp] theorem entries_ofEntries (es : List Entry) : (ofEntries es).entries = es := by
  induction es using List.reverseRecOn with
  | nil => rfl
  | append_singleton es e ih => rw [ofEntries_concat, entries_push, ih]

@[simp] theorem openEntries_ofEntries (es : List Entry) : (ofEntries es).openEntries = [] := by
  induction es using List.reverseRecOn with
  | nil => rfl
  | append_singleton es e ih => rw [ofEntries_concat, openEntries_push, ih]

/-- A turn with open tails seated on it. -/
def withTails (st : TurnState) (tails : List OpenEntry) : TurnState := tails.foldl setOpen st

theorem withTails_concat (st : TurnState) (tails : List OpenEntry) (o : OpenEntry) :
    st.withTails (tails ++ [o]) = (st.withTails tails).setOpen o := by
  rw [withTails, withTails, List.foldl_append]
  rfl

@[simp] theorem entries_withTails (st : TurnState) (tails : List OpenEntry) :
    (st.withTails tails).entries = st.entries := by
  induction tails using List.reverseRecOn with
  | nil => rfl
  | append_singleton tails o ih => rw [withTails_concat, entries_setOpen, ih]

@[simp] theorem closeAt_withTails (st : TurnState) (tails : List OpenEntry) :
    (st.withTails tails).closeAt = st.closeAt := by
  induction tails using List.reverseRecOn with
  | nil => rfl
  | append_singleton tails o ih => rw [withTails_concat, closeAt_setOpen, ih]

theorem seatTails_eq (st : TurnState) (turn : String) (tails : List OpenEntry) :
    st.seatTails turn tails =
      { st with openEntries := [] }.withTails (tails.filter (·.turn = turn)) := rfl

theorem mem_withTails {st : TurnState} {o : OpenEntry} (h : o ∈ (st.withTails tails).openEntries) :
    o ∈ st.openEntries ∨ o ∈ tails := by
  induction tails using List.reverseRecOn with
  | nil => exact .inl h
  | append_singleton tails o' ih =>
    rw [withTails_concat] at h
    rcases Keyed.mem_set h with rfl | ⟨hm, _⟩
    · exact .inr (List.mem_append_right _ (List.mem_singleton_self _))
    · exact (ih hm).imp_right (List.mem_append_left _)

theorem nodup_withTails {st : TurnState} (h : (st.openEntries.map OpenEntry.lane).Nodup)
    (tails : List OpenEntry) : ((st.withTails tails).openEntries.map OpenEntry.lane).Nodup := by
  induction tails using List.reverseRecOn with
  | nil => exact h
  | append_singleton tails o ih =>
    rw [withTails_concat]
    exact Keyed.nodup_set ih

end TurnState

namespace PageTurns

open Marotte.Transcript.TurnState

/-- What the walk has after some entries. -/
structure Walked (p : PageTurns) (es : List Entry) : Prop where
  turns : ∀ turn, p.turns turn = if es.filter (·.turn = turn) = [] then none
    else some (ofEntries (es.filter (·.turn = turn)))
  order : p.order = (es.filter (·.kind = .turnOpen)).map Entry.turn
  holes : p.holes = []

theorem walked_nil : Walked {} [] where
  turns _ := rfl
  order := rfl
  holes := rfl

theorem Walked.turns_ne {p : PageTurns} (h : p.Walked es) (hne : es.filter (·.turn = turn) ≠ []) :
    p.turns turn = some (ofEntries (es.filter (·.turn = turn))) := by
  rw [h.turns, if_neg hne]

/-- The walk takes the next entry: it opens its turn, or is next in it. -/
theorem Walked.walk {p : PageTurns} (h : p.Walked es) (hl : Lined (es ++ [e])) :
    (p.walk e).Walked (es ++ [e]) := by
  obtain ⟨hseq, hopen⟩ := hl.last
  have hfilter : ∀ turn, (es ++ [e]).filter (·.turn = turn) =
      es.filter (·.turn = turn) ++ if e.turn = turn then [e] else [] := by
    intro turn
    rw [List.filter_append, List.filter_cons, List.filter_nil]
    simp only [decide_eq_true_eq]
  have hnext : ∀ turn, Function.update p.turns e.turn
      (some (ofEntries (es.filter (·.turn = e.turn) ++ [e]))) turn =
      if (es ++ [e]).filter (·.turn = turn) = [] then none
      else some (ofEntries ((es ++ [e]).filter (·.turn = turn))) := by
    intro turn
    rw [hfilter]
    by_cases ht : turn = e.turn
    · rw [ht, Function.update_self, if_pos rfl, if_neg (List.concat_ne_nil _ _)]
    · rw [Function.update_of_ne ht, if_neg (Ne.symm ht), List.append_nil]
      exact h.turns turn
  by_cases hk : e.kind = .turnOpen
  · have hnil := hopen.mp hk
    have hturns := h.turns e.turn
    rw [if_pos hnil] at hturns
    rw [PageTurns.walk, if_pos hk, hturns]
    rw [hnil] at hnext
    have hone : ofEntries [e] = { entries := [e] } := by
      simp [ofEntries, push, hk]
    constructor
    · intro turn
      rw [← hnext]
      simp [setTurn, hone]
    · simp [setTurn, h.order, List.filter_append, hk]
    · exact h.holes
  · have hne : es.filter (·.turn = e.turn) ≠ [] := fun hnil => hk (hopen.mpr hnil)
    rw [PageTurns.walk, if_neg hk, h.turns_ne hne]
    simp only [entries_ofEntries, hseq, ne_eq, not_true_eq_false, if_false]
    constructor
    · intro turn
      rw [← hnext, ofEntries_concat]
      rfl
    · simp [setTurn, h.order, List.filter_append, hk]
    · exact h.holes

theorem walked (h : Lined es) : (es.foldl PageTurns.walk {}).Walked es := by
  induction es using List.reverseRecOn with
  | nil => exact walked_nil
  | append_singleton es e ih =>
    rw [List.foldl_append]
    exact (ih h.of_concat).walk h

/-- What the walk has after the tails, each of a turn that it has. -/
theorem seated {p : PageTurns} (h : p.Walked es)
    (htails : ∀ o ∈ tails, es.filter (·.turn = o.turn) ≠ []) :
    (∀ turn, (tails.foldl seatOpenEntry p).turns turn = if es.filter (·.turn = turn) = [] then none
      else some ((ofEntries (es.filter (·.turn = turn))).withTails (tails.filter (·.turn = turn)))) ∧
    (tails.foldl seatOpenEntry p).order = p.order ∧ (tails.foldl seatOpenEntry p).holes = [] := by
  induction tails using List.reverseRecOn with
  | nil => exact ⟨h.turns, rfl, h.holes⟩
  | append_singleton tails o ih =>
    obtain ⟨hturns, horder, hholes⟩ := ih fun o' ho' => htails o' (List.mem_append_left _ ho')
    have hne := htails o (List.mem_append_right _ (List.mem_singleton_self o))
    have hself := hturns o.turn
    rw [if_neg hne] at hself
    rw [List.foldl_append, List.foldl_cons, List.foldl_nil, seatOpenEntry, hself]
    refine ⟨?_, horder, hholes⟩
    intro turn
    by_cases ht : turn = o.turn
    · simp only [setTurn, ht, Function.update_self, if_neg hne]
      rw [List.filter_append, List.filter_cons_of_pos (by simp), List.filter_nil, withTails_concat]
    · simp only [setTurn, Function.update_of_ne ht, hturns]
      rw [List.filter_append, List.filter_cons_of_neg (by simpa using Ne.symm ht), List.filter_nil,
        List.append_nil]

end PageTurns

section

variable (h : Lined es) (htails : ∀ o ∈ tails, es.filter (·.turn = o.turn) ≠ [])

include h htails

/-- A page's turn: its entries and its open tails as they are listed. -/
theorem buildPageTurns_turns (turn : String) : (buildPageTurns es tails).turns turn =
    if es.filter (·.turn = turn) = [] then none
    else some ((TurnState.ofEntries (es.filter (·.turn = turn))).withTails
      (tails.filter (·.turn = turn))) :=
  (PageTurns.seated (PageTurns.walked h) htails).1 turn

theorem buildPageTurns_holes : (buildPageTurns es tails).holes = [] :=
  (PageTurns.seated (PageTurns.walked h) htails).2.2

end

/-- What a page's answer has: entries at their places in the log, with every turn from its open on
and every tail's turn among them. -/
structure Listed (as : List Action) (es : List Entry) (tails : List OpenEntry) : Prop where
  places : ∀ e ∈ es, (Log.after as).Places e
  lined : Lined es
  tailed : ∀ o ∈ tails, es.filter (·.turn = o.turn) ≠ []

theorem Listed.mono {as bs : List Action} (h : Listed as es tails) : Listed (as ++ bs) es tails :=
  ⟨fun e he => (h.places e he).mono, h.lined, h.tailed⟩

/-- A page has of each turn the log's first entries. -/
theorem Listed.own_prefix {as : List Action} (h : Listed as es tails) (turn : String) :
    es.filter (·.turn = turn) <+: (Log.after as).own turn := by
  have hget : ∀ i < (es.filter (·.turn = turn)).length,
      (es.filter (·.turn = turn))[i]? = ((Log.after as).own turn)[i]? := by
    intro i hi
    have he := List.getElem?_eq_getElem hi
    generalize (es.filter (·.turn = turn))[i] = e at he
    have hmem := List.mem_of_getElem? he
    rw [List.mem_filter, decide_eq_true_eq] at hmem
    have hplace := h.places e hmem.1
    rw [Log.Places, hmem.2, h.lined.seqs turn i e he] at hplace
    rw [he, hplace]
  rw [List.prefix_iff_eq_take]
  apply List.ext_getElem?
  intro i
  by_cases hi : i < (es.filter (·.turn = turn)).length
  · rw [hget i hi, List.getElem?_take_of_lt hi]
  · rw [List.getElem?_eq_none (by omega), List.getElem?_take_eq_none (by omega)]

namespace Log.Sound

variable {as : List Action} (h : (Log.after as).Sound)

include h

/-- A page of the log as it stands lists turns that survive, with tails that are open. -/
theorem page {size : ℕ} {before : Option String}
    (ha : (Log.after as).page size before = some (es, tails)) : Listed as es tails ∧
      (∀ e ∈ es, e.turn ∈ (Log.after as).survivors ∧ e ∈ (Log.after as).own e.turn) ∧
      ∀ o ∈ tails, o ∈ (Log.after as).tails := by
  simp only [Log.page] at ha
  split at ha
  · cases ha
  · next upper _ =>
    generalize hset : ((Log.after as).survivors.take upper).drop (upper - size) = set at ha
    obtain ⟨rfl, rfl⟩ := Prod.mk.inj (Option.some_inj.mp ha)
    have hentries : ∀ e ∈ (Log.after as).entries.filter (·.turn ∈ set),
        e.turn ∈ (Log.after as).survivors ∧ e ∈ (Log.after as).own e.turn := by
      intro e he
      obtain ⟨hmem, hturn⟩ := List.mem_filter.mp he
      rw [decide_eq_true_eq, ← hset] at hturn
      exact ⟨List.mem_of_mem_take (List.mem_of_mem_drop hturn),
        List.mem_filter.mpr ⟨hmem, decide_eq_true rfl⟩⟩
    have htails : ∀ o, o ∈ (if before.isNone = true then
        (Log.after as).tails.filter (·.turn ∈ set) else []) →
        o ∈ (Log.after as).tails ∧ o.turn ∈ set := by
      intro o ho
      split at ho
      · simpa using ho
      · cases ho
    refine ⟨⟨?_, ?_, ?_⟩, hentries, fun o ho => (htails o ho).1⟩
    · exact fun e he => h.places_of_mem (hentries e he).2
    · exact h.lined.filter fun turn => turn ∈ set
    · intro o ho
      obtain ⟨hmem, hturn⟩ := htails o ho
      obtain ⟨e, he, ht⟩ := List.mem_map.mp (h.tailed o hmem)
      apply List.ne_nil_of_mem (a := e)
      simpa [ht, hturn] using List.mem_of_mem_filter he

end Log.Sound

/-- A turn's range of the log as it stands. -/
theorem Log.turnRange_some {l : Log} {after : Option ℕ}
    (ha : l.turnRange turn after = some (es, tails)) : turn ∈ l.survivors ∧ (∀ e ∈ es, e ∈ l.own turn) ∧
      ∀ o ∈ tails, o ∈ l.tails := by
  simp only [Log.turnRange] at ha
  split at ha
  · next hturn =>
    obtain ⟨rfl, rfl⟩ := Prod.mk.inj (Option.some_inj.mp ha)
    exact ⟨hturn, fun e he => List.mem_of_mem_filter he, fun o ho => List.mem_of_mem_filter ho⟩
  · cases ha

end Marotte.Transcript
