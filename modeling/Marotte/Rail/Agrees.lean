import Marotte.EntryLog.Paging
import Marotte.Rail.Projection

/-! # The rail and the transcript

The server decides entry by entry whether a turn is drawn, the browser by a scan of the turn it
holds. The two count a turn's plans differently: the server those of every lane, the browser those
of the turn's own.
-/
namespace Marotte.Rail

open History

/-! ## What a row says of the turn's entries -/

/-- The server's fold over the entries behind a turn_open; `plans` counts the plans before. -/
def drawnFrom : ℕ → List Entry → Bool
  | _, [] => false
  | plans, e :: es => drawnBy e plans || drawnFrom (if e.kind = .plan then plans + 1 else plans) es

def planCount (es : List Entry) : ℕ := es.countP (fun e => e.kind = .plan)

theorem drawnFrom_concat (plans : ℕ) (es : List Entry) (e : Entry) :
    drawnFrom plans (es ++ [e]) = (drawnFrom plans es || drawnBy e (plans + planCount es)) := by
  induction es generalizing plans with
  | nil => simp [drawnFrom, planCount]
  | cons f es ih =>
    rw [List.cons_append, drawnFrom, drawnFrom, ih, Bool.or_assoc, planCount, planCount,
      List.countP_cons]
    by_cases hplan : f.kind = .plan
    · simp [hplan, Nat.add_assoc, Nat.add_comm]
    · simp [hplan]

/-- The outcome a body tells: its last turn_close's, or the turn still runs. -/
def outcomeOf (body : List Entry) : TurnOutcome :=
  ((closeOfBody body).map EntryTurnClose.outcome).getD .running

theorem outcomeOf_concat (body : List Entry) (e : Entry) :
    outcomeOf (body ++ [e]) =
      match e.payload with
      | .turnClose p => p.outcome
      | _ => outcomeOf body := by
  rw [outcomeOf, closeOfBody, List.reverse_append, List.reverse_singleton, List.singleton_append,
    List.findSome?_cons]
  cases hp : e.payload <;> rfl

/-- What the rail reads of a row, told by the turn's own entries. -/
structure Tells (own : List Entry) (st : Marotte.TurnState) : Prop where
  opening : ∃ o p body, own = o :: body ∧ o.payload = .turnOpen p ∧ st.n = p.n ∧
    st.source = p.source ∧ st.plans = planCount body ∧
    st.drawn = (drawnSource p.source || drawnFrom 0 body) ∧
    (if st.closed then st.outcome else .running) = outcomeOf body

theorem tells_open {e : Entry} {p : EntryTurnOpen} (he : e.payload = .turnOpen p)
    (start stop : ℕ) : Tells [e] (newTurnState e p start stop) :=
  ⟨e, p, [], rfl, he, rfl, rfl, rfl, by simp [newTurnState, drawnFrom], rfl⟩

theorem Tells.concat {own : List Entry} {st : Marotte.TurnState} {e : Entry} (h : Tells own st)
    (start stop : ℕ) : Tells (own ++ [e]) ((st.extend e start stop).fold e) := by
  obtain ⟨o, p, body, rfl, hp, hn, hsource, hplans, hdrawn, houtcome⟩ := h.opening
  refine ⟨o, p, body ++ [e], rfl, hp, ?_, ?_, ?_, ?_, ?_⟩
  · cases hpay : e.payload <;>
      simp [Marotte.TurnState.fold, hpay, Marotte.TurnState.extend, foldTurnClose, foldSteer, hn]
  · cases hpay : e.payload <;>
      simp [Marotte.TurnState.fold, hpay, Marotte.TurnState.extend, foldTurnClose, foldSteer,
        hsource]
  · cases hpay : e.payload <;>
      simp [Marotte.TurnState.fold, hpay, Marotte.TurnState.extend, foldTurnClose, foldSteer,
        hplans, planCount, Entry.kind_of_payload hpay, Payload.kind]
  · rw [drawnFrom_concat, Nat.zero_add, ← hplans, ← Bool.or_assoc, ← hdrawn]
    cases hpay : e.payload <;>
      simp [Marotte.TurnState.fold, hpay, Marotte.TurnState.extend, foldTurnClose, foldSteer]
  · rw [outcomeOf_concat]
    cases hpay : e.payload <;>
      simp [Marotte.TurnState.fold, hpay, Marotte.TurnState.extend, foldTurnClose, foldSteer,
        ← houtcome]

/-- Every row tells its turn's own entries, once no turn opens twice. -/
def RowsTell (es : List Entry) (b : Index) : Prop :=
  (opened es).Nodup → ∀ turn st, b.turns turn = some st → Tells (own es turn) st

theorem rowsTell_concat {es : List Entry} {b b' : Index} {e : Entry} {len : ℕ}
    (hb : b.Follows es) (h : RowsTell es b) (hobs : b.observeLine e len = some b') :
    RowsTell (es ++ [e]) b' := by
  intro hnodup turn st hst
  obtain ⟨i, hi, rfl⟩ := Index.observeLine_iff_observe.mp hobs
  change i.turns turn = some st at hst
  rw [opened_append] at hnodup
  have hes := (List.nodup_append.mp hnodup).1
  by_cases hturn : turn = e.turn
  · subst hturn
    have hone : own [e] e.turn = [e] := by simp [own]
    rw [own_append, hone]
    by_cases ho : e.kind = .turnOpen
    · obtain ⟨p, hp⟩ := Entry.kind_eq_turnOpen.mp ho
      have hfresh : e.turn ∉ b.order := by
        intro hm
        rw [hb.order] at hm
        exact (List.nodup_append.mp hnodup).2.2 _ hm e.turn (by simp [opened, ho]) rfl
      rw [Index.observe_turns hi] at hst
      simp only [hp, if_true, Option.some.injEq] at hst
      rw [hb.own_eq_nil hfresh, ← hst]
      exact tells_open hp b.size (b.size + len)
    · rw [Index.observe_turns_of_ne_turnOpen ho hi, if_pos rfl, Option.map_eq_some_iff] at hst
      obtain ⟨st₀, hst₀, rfl⟩ := hst
      exact (h hes e.turn st₀ hst₀).concat b.size (b.size + len)
  · rw [Index.observe_turns hi, if_neg hturn] at hst
    have hown : own [e] turn = [] := by simp [own, Ne.symm hturn]
    rw [own_append, hown, List.append_nil]
    exact h hes turn st hst

/-! ## What a page seats -/

/-- The source holds the turns kept, each with all its entries and nothing that streams. -/
structure Seats (es : List Entry) (keep : String → Bool) (src : TurnSource) : Prop where
  order : src.turnOrder = (opened es).filter keep
  seated : ∀ id, id ∈ opened es → keep id →
    ∃ st, src.turns id = some st ∧ st.entries = own es id ∧ st.openEntries = []
  absent : ∀ id, ¬(id ∈ opened es ∧ keep id) → src.turns id = none

theorem seats_nil (keep : String → Bool) : Seats [] keep {} :=
  ⟨rfl, fun _ hid _ => absurd hid List.not_mem_nil, fun _ _ => rfl⟩

/-- An entry of a turn that the page leaves out. -/
theorem Seats.skip {es : List Entry} {keep : String → Bool} {src : TurnSource}
    (h : Seats es keep src) {e : Entry} (hkeep : keep e.turn = false) :
    Seats (es ++ [e]) keep src := by
  have hopened : ∀ id, keep id → (id ∈ opened (es ++ [e]) ↔ id ∈ opened es) := by
    intro id hid
    have hne : e.turn ≠ id := by
      rintro rfl
      rw [hkeep] at hid
      cases hid
    rw [opened_append, List.mem_append]
    simp [opened, hne]
  constructor
  · rw [opened_append, List.filter_append, h.order]
    by_cases hk : e.kind = .turnOpen <;> simp [opened, hk, hkeep]
  · intro id hid hid'
    obtain ⟨st, hst, hentries, hopen⟩ := h.seated id ((hopened id hid').mp hid) hid'
    refine ⟨st, hst, ?_, hopen⟩
    have hne : e.turn ≠ id := by
      rintro rfl
      rw [hkeep] at hid'
      cases hid'
    have hnil : own [e] id = [] := by simp [own, hne]
    rw [own_append, hnil, List.append_nil, hentries]
  · intro id hid
    apply h.absent
    rintro ⟨hmem, hid'⟩
    exact hid ⟨(hopened id hid').mpr hmem, hid'⟩

/-- The next entry of a page: a new turn's turn_open, or the next of a turn it holds. -/
theorem Seats.walk {es : List Entry} {keep : String → Bool} {src : TurnSource}
    (h : Seats es keep src) {e : Entry} (hkeep : keep e.turn = true)
    (hnew : e.kind = .turnOpen → e.turn ∉ opened es)
    (hheld : e.kind ≠ .turnOpen → e.turn ∈ opened es)
    (hseq : e.seq = (own es e.turn).length) (hown : e.kind = .turnOpen → own es e.turn = []) :
    Seats (es ++ [e]) keep (src.walk e) := by
  have hone : own [e] e.turn = [e] := by simp [own]
  have hother : ∀ id, id ≠ e.turn → own (es ++ [e]) id = own es id := by
    intro id hne
    have hnil : own [e] id = [] := by simp [own, Ne.symm hne]
    rw [own_append, hnil, List.append_nil]
  have hopenedOther : ∀ id, id ≠ e.turn → (id ∈ opened (es ++ [e]) ↔ id ∈ opened es) := by
    intro id hne
    rw [opened_append, List.mem_append]
    simp [opened, Ne.symm hne]
  rw [TurnSource.walk]
  by_cases hk : e.kind = .turnOpen
  · have hnone := h.absent e.turn (fun hmem => hnew hk hmem.1)
    have hlast : opened [e] = [e.turn] := by simp [opened, hk]
    rw [if_pos hk, hnone, Option.isSome_none, if_neg Bool.false_ne_true]
    constructor
    · change src.turnOrder ++ [e.turn] = _
      rw [opened_append, hlast, List.filter_append, h.order, List.filter_singleton, hkeep]
      rfl
    · intro id hid hid'
      change ∃ st, Function.update src.turns e.turn _ id = some st ∧ _
      by_cases hne : id = e.turn
      · subst hne
        refine ⟨_, Function.update_self .., ?_, rfl⟩
        rw [own_append, hown hk, hone, List.nil_append]
      · rw [Function.update_of_ne hne, hother id hne]
        exact h.seated id ((hopenedOther id hne).mp hid) hid'
    · intro id hid
      change Function.update src.turns e.turn _ id = none
      have hne : id ≠ e.turn := by
        rintro rfl
        exact hid ⟨by rw [opened_append, hlast]; simp, hkeep⟩
      rw [Function.update_of_ne hne]
      apply h.absent
      rwa [← hopenedOther id hne]
  · obtain ⟨st, hst, hentries, hopen⟩ := h.seated e.turn (hheld hk) hkeep
    have hsame : opened (es ++ [e]) = opened es := by
      rw [opened_append]
      simp [opened, hk]
    have hnext : ¬e.seq ≠ st.entries.length := by rw [hentries, hseq]; simp
    rw [if_neg hk]
    simp only [hst, if_neg hnext]
    constructor
    · rw [hsame]
      exact h.order
    · intro id hid hid'
      rw [hsame] at hid
      change ∃ st', Function.update src.turns e.turn _ id = some st' ∧ _
      by_cases hne : id = e.turn
      · subst hne
        refine ⟨_, Function.update_self .., ?_, hopen⟩
        rw [own_append, hone, ← hentries]
      · rw [Function.update_of_ne hne, hother id hne]
        exact h.seated id hid hid'
    · intro id hid
      rw [hsame] at hid
      change Function.update src.turns e.turn _ id = none
      have hne : id ≠ e.turn := by
        rintro rfl
        exact hid ⟨hheld hk, hkeep⟩
      rw [Function.update_of_ne hne]
      exact h.absent id hid

/-! ## Over a whole file -/

/-- The rows and a page of a file, both told by its entries. -/
theorem tells_and_seats {c : LineCodec} {file : List UInt8} {b : Index} (h : c.Intact file b)
    (hwf : WellFormed (c.entriesOf file)) :
    (∀ turn st, b.turns turn = some st → Tells (own (c.entriesOf file) turn) st) ∧
      ∀ keep : String → Bool, Seats (c.entriesOf file) keep
        (((c.entriesOf file).filter (fun e => keep e.turn)).foldl TurnSource.walk {}) := by
  have hall : b.Folded ∧ b.Follows (c.entriesOf file) ∧ RowsTell (c.entriesOf file) b ∧
      (WellFormed (c.entriesOf file) → ∀ keep : String → Bool, Seats (c.entriesOf file) keep
        (((c.entriesOf file).filter (fun e => keep e.turn)).foldl TurnSource.walk {})) := by
    refine h.induction (P := fun es b => b.Folded ∧ b.Follows es ∧ RowsTell es b ∧
      (WellFormed es → ∀ keep : String → Bool,
        Seats es keep ((es.filter (fun e => keep e.turn)).foldl TurnSource.walk {})))
      ⟨Index.folded_empty, ⟨rfl, rfl, by simp⟩, fun _ _ _ hst => (by cases hst),
        fun _ keep => seats_nil keep⟩ ?_
    rintro es b e len b' ⟨hfolded, hfollows, hrows, hseats⟩ hobs
    have hnext := Index.follows_concat hfolded hfollows hobs
    refine ⟨hfolded.observeLine hobs, hnext, rowsTell_concat hfollows hrows hobs, ?_⟩
    intro hwf keep
    have hes := hwf.of_initial (List.prefix_append es [e])
    have hprev := hseats hes keep
    rw [List.filter_append, List.foldl_append]
    by_cases hkeep : keep e.turn
    · have hone : own [e] e.turn = [e] := by simp [own]
      have hnew : e.kind = .turnOpen → e.turn ∉ opened es := by
        intro ho hm
        have hnodup := hwf.opensOnce
        rw [opened_append] at hnodup
        exact (List.nodup_append.mp hnodup).2.2 _ hm e.turn (by simp [opened, ho]) rfl
      have hseq : e.seq = (own es e.turn).length := by
        have hcounts := hwf.contiguous e.turn
        rw [own_append, hone, List.map_append, hes.contiguous, List.length_append,
          List.length_singleton, List.range_succ] at hcounts
        simpa using List.append_cancel_left hcounts
      have hlast : [e].filter (fun e => keep e.turn) = [e] := by simp [hkeep]
      rw [hlast, List.foldl_cons, List.foldl_nil]
      apply hprev.walk hkeep hnew ?_ hseq ?_
      · intro ho
        have hmem := hnext.turn_mem e (by simp)
        rw [hnext.order, opened_append, List.mem_append] at hmem
        rcases hmem with hmem | hmem
        · exact hmem
        · simp [opened, ho] at hmem
      · intro ho
        apply hfollows.own_eq_nil
        rw [hfollows.order]
        exact hnew ho
    · have hlast : [e].filter (fun e => keep e.turn) = [] := by simp [hkeep]
      rw [hlast, List.foldl_nil]
      exact hprev.skip (by simpa using hkeep)
  exact ⟨hall.2.2.1 hwf.opensOnce, hall.2.2.2 hwf⟩

/-! ## The two verdicts -/

/-- An entry that both draw its turn for, the plans apart. -/
def renders (e : Entry) : Bool :=
  e.lane = "" && (match e.kind with
    | .turnOpen | .turnBind | .toolResult | .turnClose | .reconciled | .plan => false
    | _ => true)

/-- The turn's first plan stands in no lane of an agent, if it holds any plan that does. -/
def PlansShow (body : List Entry) : Prop :=
  (∃ e ∈ body, e.kind = .plan ∧ e.lane = "") →
    ((body.find? (fun e => e.kind = .plan)).map Entry.lane = some "" ∨ ∃ e ∈ body, renders e)

theorem drawnFrom_pos {plans : ℕ} (hplans : 0 < plans) (es : List Entry) :
    drawnFrom plans es = es.any renders := by
  induction es generalizing plans with
  | nil => rfl
  | cons e es ih =>
    rw [drawnFrom, List.any_cons]
    have htail : drawnFrom (if e.kind = .plan then plans + 1 else plans) es = es.any renders := by
      apply ih
      split <;> omega
    rw [htail]
    congr 1
    rw [drawnBy, renders]
    by_cases hlane : e.lane = ""
    · cases hk : e.kind <;> simp [hlane] <;> omega
    · simp [hlane]

theorem drawnFrom_zero (es : List Entry) :
    drawnFrom 0 es = (es.any renders ||
      (es.find? (fun e => e.kind = .plan)).any (fun e => e.lane = "")) := by
  induction es with
  | nil => rfl
  | cons e es ih =>
    rw [drawnFrom, List.any_cons]
    by_cases hplan : e.kind = .plan
    · have hnot : renders e = false := by simp [renders, hplan]
      rw [if_pos hplan, drawnFrom_pos Nat.one_pos, hnot, List.find?_cons_of_pos (by simpa using hplan)]
      by_cases hlane : e.lane = "" <;> simp [drawnBy, hplan, hlane]
    · have hsame : drawnBy e 0 = renders e := by
        rw [drawnBy, renders]
        by_cases hlane : e.lane = ""
        · cases hk : e.kind <;> simp [hlane] <;> exact hplan hk
        · simp [hlane]
      rw [if_neg hplan, ih, hsame, List.find?_cons_of_neg (by simpa using hplan), Bool.or_assoc]

theorem rendersFrom_zero {es : List Entry} (hopen : ∀ e ∈ es, e.kind ≠ .turnOpen) :
    rendersFrom 0 es = (es.any renders || es.any (fun e => e.kind = .plan && e.lane = "")) := by
  induction es with
  | nil => rfl
  | cons e es ih =>
    have htail := ih (fun f hf => hopen f (List.mem_cons_of_mem e hf))
    have hhead := hopen e (by simp)
    rw [rendersFrom, List.any_cons, List.any_cons]
    by_cases hlane : e.lane = ""
    · cases hk : e.kind <;> simp [hlane, renders, hk, htail] <;> exact absurd hk hhead
    · simp [hlane, renders, htail]

/-- Over the entries behind a turn_open, the scan and the fold agree where the plans show. -/
theorem rendersFrom_eq_iff {body : List Entry} (hopen : ∀ e ∈ body, e.kind ≠ .turnOpen) :
    rendersFrom 0 body = drawnFrom 0 body ↔ PlansShow body := by
  rw [rendersFrom_zero hopen, drawnFrom_zero, PlansShow]
  have hfirst : (body.find? (fun e => e.kind = .plan)).any (fun e => e.lane = "") = true →
      body.any (fun e => e.kind = .plan && e.lane = "") = true := by
    intro h
    rw [Option.any_eq_true] at h
    obtain ⟨e, he, hlane⟩ := h
    rw [List.any_eq_true]
    refine ⟨e, List.mem_of_find?_eq_some he, ?_⟩
    have hk := List.find?_some he
    simp_all
  have hlane : (body.find? (fun e => e.kind = .plan)).map Entry.lane = some "" ↔
      (body.find? (fun e => e.kind = .plan)).any (fun e => e.lane = "") = true := by
    cases body.find? (fun e => e.kind = .plan) <;> simp
  have hplan : (∃ e ∈ body, e.kind = .plan ∧ e.lane = "") ↔
      body.any (fun e => e.kind = .plan && e.lane = "") = true := by
    simp [List.any_eq_true]
  have hrenders : (∃ e ∈ body, renders e) ↔ body.any renders = true := by
    rw [List.any_eq_true]
  rw [hlane, hplan, hrenders]
  generalize body.any renders = a at *
  generalize body.any (fun e => e.kind = .plan && e.lane = "") = p at *
  generalize (body.find? (fun e => e.kind = .plan)).any (fun e => e.lane = "") = f at *
  revert hfirst
  cases a <;> cases p <;> cases f <;> simp

/-! ## The rail beside the transcript -/

/-- What a rail row and a card share: the turn, its ordinal and its outcome. -/
abbrev Drawn := String × ℕ × TurnOutcome

/-- The full window of the survivors projects to the turns the rail lists, and a turn projected
alone is its element of the whole pass, whatever streams. -/
structure Agrees (c : LineCodec) (l : EntryLog) : Prop where
  drawn : ∀ k : ℕ, l.index.survivingOrder.length ≤ k → ∃ page, l.window c k "" = .ok page ∧
    (projectTurns (buildPageTurns page.entries [])).map
        (fun t => ((t.id, t.n, t.outcome) : Drawn)) =
      l.railRows.map (fun row => (row.id, row.n, row.outcome))
  alone : ∀ k : ℕ, ∀ page, l.window c k "" = .ok page → ∀ tails id,
    projectTurn (buildPageTurns page.entries tails) id =
      (projectTurns (buildPageTurns page.entries tails)).find? (fun t => t.id = id)

/-- Every surviving turn with no header of its own shows its first plan, if it shows one. -/
def PlansShown (c : LineCodec) (l : EntryLog) : Prop :=
  ∀ turn ∈ l.index.survivingOrder, ∀ st, l.index.turns turn = some st →
    drawnSource st.source = false → PlansShow (own (l.recorded c) turn).tail

theorem filterMap_ite {α β : Type*} {f : α → Option β} {p : α → Bool} {v : α → β} {xs : List α}
    (h : ∀ x ∈ xs, f x = if p x then some (v x) else none) :
    xs.filterMap f = (xs.filter p).map v := by
  induction xs with
  | nil => rfl
  | cons x xs ih =>
    have hx := h x (by simp)
    have hxs := ih (fun y hy => h y (List.mem_cons_of_mem x hy))
    by_cases hp : p x
    · rw [if_pos hp] at hx
      rw [List.filterMap_cons_some hx, List.filter_cons_of_pos hp, List.map_cons, hxs]
    · rw [if_neg hp] at hx
      rw [List.filterMap_cons_none hx, List.filter_cons_of_neg hp, hxs]

theorem map_rewound (ts : List Turn) :
    (rewound ts).map (fun t => ((t.id, t.n, t.outcome) : Drawn)) =
      ts.map (fun t => (t.id, t.n, t.outcome)) := by
  induction ts with
  | nil => rfl
  | cons t ts ih => rw [rewound, List.map_cons, List.map_cons, ih]

theorem turnOrder_seatOpenEntry (src : TurnSource) (o : OpenEntry) :
    (src.seatOpenEntry o).turnOrder = src.turnOrder := by
  rw [TurnSource.seatOpenEntry]
  split <;> rfl

theorem turnOrder_buildPageTurns (entries : List Entry) (tails : List OpenEntry) :
    (buildPageTurns entries tails).turnOrder = (entries.foldl TurnSource.walk {}).turnOrder := by
  rw [buildPageTurns]
  generalize entries.foldl TurnSource.walk {} = src
  induction tails generalizing src with
  | nil => rfl
  | cons o tails ih => rw [List.foldl_cons, ih, turnOrder_seatOpenEntry]

section Log

variable {c : LineCodec} {l : EntryLog}

/-- A page seats its own turns, each with all its entries. -/
theorem seats_page (h : EntryLog.Sound c l) (turns : List String) :
    Seats (l.recorded c) (fun t => decide (t ∈ turns))
      (((l.recorded c).filter (fun e => e.turn ∈ turns)).foldl TurnSource.walk {}) := by
  obtain ⟨b, r, hb⟩ := h.coherent
  have hwf := h.wellFormed
  rw [hb.recorded_eq] at hwf ⊢
  exact (tells_and_seats hb.intact hwf).2 _

/-- A row tells its turn's entries, whether or not a revert took the turn. -/
theorem tells_recorded (h : EntryLog.Sound c l) {turn : String} {st : Marotte.TurnState}
    (hst : l.index.turns turn = some st) : Tells (own (l.recorded c) turn) st := by
  obtain ⟨b, r, hb⟩ := h.coherent
  have hwf := h.wellFormed
  rw [hb.recorded_eq] at hwf ⊢
  rw [hb.index_eq, Index.live_turns, Option.map_eq_some_iff] at hst
  obtain ⟨st₀, hst₀, rfl⟩ := hst
  exact ⟨((tells_and_seats hb.intact hwf).1 turn st₀ hst₀).opening⟩

/-- What a turn's row and its card share. -/
def drawnOf (c : LineCodec) (l : EntryLog) (turn : String) : Drawn :=
  (turn, l.index.ordinal turn, outcomeOf (own (l.recorded c) turn).tail)

theorem drawnOf_injective (c : LineCodec) (l : EntryLog) : Function.Injective (drawnOf c l) := by
  intro s t h
  exact congrArg Prod.fst h

/-- The rail lists the survivors that the fold draws. -/
theorem railRows_eq (h : EntryLog.Sound c l) :
    l.railRows.map (fun row => ((row.id, row.n, row.outcome) : Drawn)) =
      (l.index.survivingOrder.filter
        (fun turn => ((l.index.turns turn).map Marotte.TurnState.drawn).getD false)).map
          (drawnOf c l) := by
  rw [EntryLog.railRows, List.map_filterMap]
  apply filterMap_ite
  intro turn hturn
  obtain ⟨st, hst, -⟩ := h.row (List.mem_of_mem_filter hturn)
  obtain ⟨o, p, body, hown, -, -, -, -, -, houtcome⟩ := (tells_recorded h hst).opening
  simp only [hst, Option.bind_some, EntryLog.railRow, Option.map_some, Option.getD_some]
  by_cases hdrawn : st.drawn
  · rw [if_pos hdrawn, if_pos hdrawn, Option.map_some, drawnOf, hown, List.tail_cons, houtcome,
      Index.ordinal, hst]
    rfl
  · rw [if_neg hdrawn, if_neg hdrawn, Option.map_none]

/-- The window of all the survivors, as the browser draws it. -/
theorem projectTurns_eq (h : EntryLog.Sound c l) :
    (projectTurns (buildPageTurns
      ((l.recorded c).filter (fun e => e.turn ∈ l.index.survivingOrder)) [])).map
        (fun t => ((t.id, t.n, t.outcome) : Drawn)) =
      (l.index.survivingOrder.filter (fun turn =>
        ((l.index.turns turn).map (fun st => drawnSource st.source)).getD false ||
          rendersFrom 0 (own (l.recorded c) turn).tail)).map (drawnOf c l) := by
  have hseats := seats_page h l.index.survivingOrder
  rw [projectTurns, map_rewound, buildPageTurns, List.foldl_nil, hseats.order, ← h.order_eq,
    Grouping.filter_mem_sublist (h.order_eq ▸ h.wellFormed.opensOnce)
      (EntryLog.survivingOrder_sublist l), List.map_filterMap]
  apply filterMap_ite
  intro turn hturn
  have horder := List.mem_of_mem_filter hturn
  obtain ⟨st, hst, -⟩ := h.row horder
  obtain ⟨o, p, body, hown, hp, hn, hsource, -⟩ := (tells_recorded h hst).opening
  rw [h.order_eq] at horder
  obtain ⟨held, hheld, hentries, hopen⟩ := hseats.seated turn horder (by simpa using hturn)
  have hopening : turnOpenOf held = some p := by
    rw [turnOpenOf, hentries, hown, List.head?_cons, Option.map_some, hp]
  have hdrawn : turnIsDrawn held = (drawnSource p.source || rendersFrom 0 body) := by
    simp only [turnIsDrawn, hopening, hopen, hentries, hown, List.tail_cons]
    cases p.source <;> rfl
  rw [card, hheld, Option.bind_some, hst, hown]
  simp only [hopening, hdrawn, Option.map_some, Option.getD_some, hsource, List.tail_cons]
  by_cases hd : (drawnSource p.source || rendersFrom 0 body) = true
  · rw [if_pos hd, if_pos hd, Option.map_some, drawnOf, hown, Index.ordinal, hst]
    simp [turnOf, hentries, hown, hn, outcomeOf]
  · rw [if_neg hd, if_neg hd, Option.map_none]

theorem window_all (h : EntryLog.Sound c l) {k : ℕ} (hk : l.index.survivingOrder.length ≤ k) :
    l.window c k "" = .ok
      ⟨(l.recorded c).filter (fun e => e.turn ∈ l.index.survivingOrder), false⟩ := by
  have hzero : l.index.survivingOrder.length - k = 0 := by omega
  rw [h.window_eq]
  simp [hzero]

/-- Of a sound log, the two verdicts agree on every survivor exactly where the plans show. -/
theorem drawn_iff (h : EntryLog.Sound c l) :
    (∀ turn ∈ l.index.survivingOrder,
      (((l.index.turns turn).map (fun st => drawnSource st.source)).getD false ||
          rendersFrom 0 (own (l.recorded c) turn).tail) =
        ((l.index.turns turn).map Marotte.TurnState.drawn).getD false) ↔ PlansShown c l := by
  apply forall₂_congr
  intro turn hturn
  obtain ⟨st, hst, -⟩ := h.row (List.mem_of_mem_filter hturn)
  obtain ⟨o, p, body, hown, hp, -, hsource, -, hdrawn, -⟩ := (tells_recorded h hst).opening
  have hbody : ∀ e ∈ body, e.kind ≠ .turnOpen := by
    obtain ⟨b, r, hb⟩ := h.coherent
    rw [hb.index_eq, Index.live_turns, Option.map_eq_some_iff] at hst
    obtain ⟨st₀, hst₀, -⟩ := hst
    obtain ⟨o', p', body', hown', -, -, -, hbody'⟩ :=
      (hb.recorded.2 h.wellFormed.opensOnce turn st₀ hst₀).opening
    rw [hown] at hown'
    obtain ⟨-, rfl⟩ := List.cons_eq_cons.mp hown'
    exact hbody'
  rw [hst, hown]
  simp only [Option.map_some, Option.getD_some, Option.some.injEq, forall_eq', List.tail_cons,
    hdrawn, hsource]
  cases drawnSource p.source with
  | true => simp
  | false => simpa using rendersFrom_eq_iff hbody

theorem agrees_iff (h : EntryLog.Sound c l) : Agrees c l ↔ PlansShown c l := by
  have hlists : (projectTurns (buildPageTurns
      ((l.recorded c).filter (fun e => e.turn ∈ l.index.survivingOrder)) [])).map
        (fun t => ((t.id, t.n, t.outcome) : Drawn)) =
      l.railRows.map (fun row => (row.id, row.n, row.outcome)) ↔ PlansShown c l := by
    rw [projectTurns_eq h, railRows_eq h, ← drawn_iff h,
      (List.map_injective_iff.mpr (drawnOf_injective c l)).eq_iff]
    constructor
    · intro heq turn hturn
      have hmem := congrArg (turn ∈ ·) heq
      simp only [List.mem_filter, hturn, true_and, eq_iff_iff] at hmem
      exact Bool.eq_iff_iff.mpr hmem
    · intro hall
      exact List.filter_congr hall
  rw [← hlists]
  constructor
  · intro hagrees
    obtain ⟨page, hpage, hdrawn⟩ := hagrees.drawn _ (Nat.le_refl _)
    rw [window_all h (Nat.le_refl _)] at hpage
    cases hpage
    exact hdrawn
  · intro hdrawn
    refine ⟨fun k hk => ⟨_, window_all h hk, hdrawn⟩, ?_⟩
    intro k page hpage tails id
    apply projectTurn_eq
    rw [h.window_eq] at hpage
    simp only [if_true, Except.ok.injEq] at hpage
    subst hpage
    rw [turnOrder_buildPageTurns, (seats_page h _).order]
    exact h.wellFormed.opensOnce.filter _

end Log

/-- Of a log that opens and operations leave, the transcript draws the turns the rail lists exactly
where no turn without a header hides its first plan in an agent's lane. -/
theorem transcript_agrees_iff {c : LineCodec} {file : List UInt8} (hf : LogFile c file)
    {w : OpenWorld} {header : LogHeader} {cap : ℕ} {l₀ : EntryLog}
    (hopen : openEntryLog c w file header cap = (l₀, .ok ())) {ss : List LogStep}
    (hss : l₀.StepsOpenOnce c ss) : Agrees c (l₀.steps c ss) ↔ PlansShown c (l₀.steps c ss) :=
  agrees_iff (((EntryLog.sound_scanned hf.sound header cap).grows
    (EntryLog.grows_openEntryLog hopen)).steps hss)

def answered : List LogStep :=
  [.call (.openTurn {} "a" { source := .prompt }),
    .call (.append {} { id := "s1", turn := "t-a", payload := .text { text := "hi" } })]

/-- A reader's turn with an answer: it has a header, so it is drawn on both sides. -/
theorem transcript_agrees_answered :
    Agrees jsonLines ((EntryLog.new noHeader 0).steps jsonLines answered) := by
  have hopen : openEntryLog jsonLines {} [] noHeader 0 = (EntryLog.new noHeader 0, .ok ()) := rfl
  have hopens : (EntryLog.new noHeader 0).StepsOpenOnce jsonLines answered := by
    change (EntryLog.new noHeader 0).NewTurn "a" ∧ _ ≠ _ ∧ True
    exact ⟨by decide +kernel, by decide, trivial⟩
  rw [transcript_agrees_iff .absent hopen hopens]
  have horder : ((EntryLog.new noHeader 0).steps jsonLines answered).index.survivingOrder =
      ["t-a"] := by decide +kernel
  have hheader : ((((EntryLog.new noHeader 0).steps jsonLines answered).index.turns "t-a").map
      (fun st => drawnSource st.source)) = some true := by decide +kernel
  intro turn hturn st hst hsource
  rw [horder, List.mem_singleton] at hturn
  rw [hturn] at hst
  rw [hst, Option.map_some, hsource] at hheader
  cases hheader

/-- A turn the agent opened, with a plan of a delegate and then one of its own. -/
def hiddenPlan : List LogStep :=
  [.call (.openTurn {} "a" { source := .wireTurnStart }),
    .call (.append {} { id := "p1", turn := "t-a", lane := "sub", payload := .plan ⟨[]⟩ }),
    .call (.append {} { id := "p2", turn := "t-a", payload := .plan ⟨[]⟩ }),
    .call (.append {} (unterminatedClose "t-a" "" 0))]

/-- The browser draws the turn for its own plan, and the rail has counted the delegate's. -/
theorem hiddenPlan_disagrees :
    ¬Agrees jsonLines ((EntryLog.new noHeader 0).steps jsonLines hiddenPlan) := by
  intro hagrees
  have hlen : ((EntryLog.new noHeader 0).steps jsonLines hiddenPlan).index.survivingOrder.length ≤
      1 := by decide +kernel
  have hcards : (((EntryLog.new noHeader 0).steps jsonLines hiddenPlan).window jsonLines
      ((1 : ℕ) : ℤ) "").toOption.map (fun page =>
        (projectTurns (buildPageTurns page.entries [])).map
          (fun t => ((t.id, t.n, t.outcome) : Drawn))) = some [("t-a", 1, .interrupted)] := by
    decide +kernel
  have hrows : ((EntryLog.new noHeader 0).steps jsonLines hiddenPlan).railRows.map
      (fun row => ((row.id, row.n, row.outcome) : Drawn)) = [] := by decide +kernel
  obtain ⟨page, hpage, hdrawn⟩ := hagrees.drawn 1 hlen
  rw [hpage] at hcards
  rw [hrows] at hdrawn
  simp [Except.toOption, hdrawn] at hcards

end Marotte.Rail
