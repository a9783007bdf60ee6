import Marotte.Transcript.Load

/-! # One chat's log and one browser

The server acts and announces each action, the browser takes frames and asks for reads, and a read
is answered from the log as it stands at some moment between its request and its arrival.
-/
namespace Marotte.Transcript

/-- Three fields are kept for the statements: where the frames delivered so far end, the turns
taken by the revert records whose frames the window applied, and the turns such frames dropped. -/
structure Session where
  actions : List Action := []
  client : Client := {}
  cursor : ℕ := 0
  applied : List String := []
  dropped : List String := []

inductive Event where
  | server (op : ServerOp)
  | deliver (i : ℕ)
  | load (before : Option String)
  /-- A range read that no hole asked for: the whole turn, or what is past the newest seq held. -/
  | ask (turn : String) (whole : Bool)
  | answerLoad (size : ℕ)
  | answerRange (turn : String)
  | pageArrives
  | rangeArrives (turn : String)
  | loadLost
  | rangeLost (turn : String)
  | loadCancelled
  | evict

/-- The record that a delivered frame makes the window apply. -/
def Client.takesRecord (c : Client) (e : Entry) : Bool :=
  e.kind = .turnRevert && match c.turns e.turn with
    | none => true
    | some st => e.seq = st.entries.length

namespace Session

variable (s : Session)

/-- The log as the server has it. -/
def log : Log := Log.after s.actions

/-- The log as it was when an action was taken. -/
def logAt (i : ℕ) : Log := Log.after (s.actions.take i)

/-- A frame received; the turns taken by its record are noted when the window applies it. -/
def receive (i : ℕ) (frame : Frame) : Session :=
  let s' := { s with client := s.client.receive frame, cursor := i + 1 }
  match frame with
  | .entryAppended e =>
    if s.client.takesRecord e then
      match e.payload with
      | .turnRevert fromTurn fromN =>
        { s' with
          applied := s.applied ++ (s.logAt i).window fromTurn e.turn
          dropped := s.dropped ++ s.client.droppedBy e.turn fromN }
      | _ => s'
    else s'
  | _ => s'

def onClient (f : Client → Client) : Session := { s with client := f s.client }

def step : Event → Session
  | .server op => { s with actions := s.actions ++ s.log.perform op }
  | .deliver i =>
    match s.actions[i]? with
    | some (.announced frame) => s.receive i frame
    | _ => s
  | .load before => s.onClient (·.loadMessages before)
  | .ask turn whole => s.onClient fun c =>
    if whole then c.requestTurnRange turn none
    else match c.turns turn with
      | some st => c.requestTurnRange turn (some st.newestSeq)
      | none => c
  | .answerLoad size => s.onClient fun c => { c with load := c.load.map fun load =>
      { load with answer := load.answer.or (some (s.log.page size load.before)) } }
  | .answerRange turn => s.onClient fun c => { c with repairs := c.repairs.map fun r =>
      if r.turn = turn then
        { r with answer := r.answer.or (some (s.log.turnRange turn r.after)) }
      else r }
  | .pageArrives => s.onClient Client.pageArrives
  | .rangeArrives turn => s.onClient (·.rangeArrives turn)
  | .loadLost => s.onClient Client.loadFails
  | .rangeLost turn => s.onClient (·.endRepair turn)
  | .loadCancelled => s.onClient fun c => { c with load := none }
  | .evict => s.onClient Client.evict

def run (events : List Event) : Session := events.foldl step {}

/-- A condition on every step of a run, each in the state it is taken from. -/
def Along (P : Session → Event → Prop) : Session → List Event → Prop
  | _, [] => True
  | s, e :: events => P s e ∧ (s.step e).Along P events

instance Along.decidable {P : Session → Event → Prop} [∀ s e, Decidable (P s e)] (s : Session)
    (events : List Event) : Decidable (s.Along P events) :=
  match events with
  | [] => isTrue trivial
  | e :: events =>
    have := Along.decidable (P := P) (s.step e) events
    inferInstanceAs (Decidable (P s e ∧ (s.step e).Along P events))

theorem run_along {P : Session → Event → Prop} {Q : Session → Prop} (h₀ : Q {})
    (hstep : ∀ s e, Q s → P s e → Q (s.step e)) {events : List Event}
    (h : Along P {} events) : Q (run events) := by
  have hfold : ∀ (events : List Event) (s : Session), Q s → s.Along P events →
      Q (events.foldl step s) := by
    intro events
    induction events with
    | nil => exact fun s hs _ => hs
    | cons e events ih => exact fun s hs ha => ih (s.step e) (hstep s e hs ha.1) ha.2
  exact hfold events {} h₀ h

end Session

/-! ## What the server's actions keep of its log

Each operation is a few actions, and each action fits the log it is taken on: an entry takes the
next seq of its turn, a turn is opened once, a lane has one open entry.
-/

namespace Log

variable {l : Log} {a : Action} {e : Entry} {turn turn' lane : String}

/-! ## Reads of a changed log -/

@[simp] theorem own_place (l : Log) (e : Entry) (turn : String) :
    (l.place e).own turn = l.own turn ++ if e.turn = turn then [e] else [] := by
  simp only [place, own, List.filter_append, List.filter_cons, List.filter_nil, decide_eq_true_eq]

@[simp] theorem own_setTail (l : Log) (o : OpenEntry) (turn : String) :
    (l.setTail o).own turn = l.own turn := rfl

@[simp] theorem own_eraseTail (l : Log) (t lane turn : String) :
    (l.eraseTail t lane).own turn = l.own turn := rfl

@[simp] theorem tails_place (l : Log) (e : Entry) : (l.place e).tails = l.tails := rfl

@[simp] theorem order_setTail (l : Log) (o : OpenEntry) : (l.setTail o).order = l.order := rfl

@[simp] theorem order_eraseTail (l : Log) (t lane : String) :
    (l.eraseTail t lane).order = l.order := rfl

theorem order_place_of_ne (h : e.kind ≠ .turnOpen) : (l.place e).order = l.order := by
  simp [order, place, List.filter_append, h]

theorem order_place_open (h : e.kind = .turnOpen) : (l.place e).order = l.order ++ [e.turn] := by
  simp [order, place, List.filter_append, h]

theorem mem_own (h : e ∈ l.own turn) : e.turn = turn := by
  simpa using (List.mem_filter.mp h).2

theorem tail_setTail_self (l : Log) (o : OpenEntry) :
    (l.setTail o).tail o.turn o.lane = some o := Keyed.find_set_key

theorem tail_setTail_of_ne {o : OpenEntry} (h : (turn, lane) ≠ o.place) :
    (l.setTail o).tail turn lane = l.tail turn lane := Keyed.find_set_of_ne h

theorem tail_eraseTail_self (l : Log) (turn lane : String) :
    (l.eraseTail turn lane).tail turn lane = none := Keyed.find_erase_self

theorem tail_eraseTail_of_ne {t lane' : String} (h : (turn, lane) ≠ (t, lane')) :
    (l.eraseTail t lane').tail turn lane = l.tail turn lane := Keyed.find_erase_of_ne h

theorem place_of_tail {o : OpenEntry} (h : l.tail turn lane = some o) :
    o.turn = turn ∧ o.lane = lane := by
  have hkey := Keyed.key_of_find h
  exact ⟨congrArg Prod.fst hkey, congrArg Prod.snd hkey⟩

theorem mem_of_tail {o : OpenEntry} (h : l.tail turn lane = some o) : o ∈ l.tails :=
  Keyed.mem_of_find h

/-! ## Actions that fit -/

/-- An action fits the log it is taken on. -/
def Admits (l : Log) : Action → Prop
  | .announced (.turnOpened e) => e.turn ∉ l.order ∧ e.seq = 0 ∧ ∃ n, e.payload = .turnOpen n
  | .announced (.entryOpened o) =>
    o.turn ∈ l.order ∧ l.holdsClose o.turn = false ∧ l.tail o.turn o.lane = none
  | .announced (.entryDelta turn id lane n _) =>
    ∃ o, l.tail turn lane = some o ∧ o.id = id ∧ n = o.n + 1
  | .announced (.entrySealed turn id lane seq _ n) =>
    ∃ o, l.tail turn lane = some o ∧ o.id = id ∧ n = o.n ∧ seq = (l.own turn).length
  | .announced (.entryAppended e) | .silent e =>
    e.turn ∈ l.order ∧ e.seq = (l.own e.turn).length ∧ e.kind ≠ .turnOpen

/-- A condition on each action, in the log that those before it leave. -/
def Through (P : Log → Action → Prop) : Log → List Action → Prop
  | _, [] => True
  | l, a :: as => P l a ∧ (l.act a).Through P as

instance Through.decidable {P : Log → Action → Prop} [∀ l a, Decidable (P l a)] (l : Log)
    (as : List Action) : Decidable (l.Through P as) :=
  match as with
  | [] => isTrue trivial
  | a :: as =>
    have := Through.decidable (P := P) (l.act a) as
    inferInstanceAs (Decidable (P l a ∧ (l.act a).Through P as))

theorem through_append {P : Log → Action → Prop} {l : Log} {as bs : List Action} :
    l.Through P (as ++ bs) ↔ l.Through P as ∧ (as.foldl act l).Through P bs := by
  induction as generalizing l with
  | nil => exact ⟨fun h => ⟨trivial, h⟩, And.right⟩
  | cons a as ih =>
    rw [List.cons_append, Through, Through, ih, List.foldl_cons, and_assoc]

theorem Through.imp {P Q : Log → Action → Prop} (hpq : ∀ l a, P l a → Q l a) {l : Log}
    {as : List Action} (h : l.Through P as) : l.Through Q as := by
  induction as generalizing l with
  | nil => trivial
  | cons a as ih => exact ⟨hpq l a h.1, ih h.2⟩

theorem Through.and {P Q : Log → Action → Prop} {l : Log} {as : List Action}
    (hp : l.Through P as) (hq : l.Through Q as) : l.Through (fun l a => P l a ∧ Q l a) as := by
  induction as generalizing l with
  | nil => trivial
  | cons a as ih => exact ⟨⟨hp.1, hq.1⟩, ih hp.2 hq.2⟩

theorem mem_order_of_survivors (h : turn ∈ l.survivors) : turn ∈ l.order :=
  (List.mem_filter.mp h).1

theorem order_openTurn (l : Log) (turn : String) (n : ℕ) (ts : ℤ) :
    (l.place (openedEntry turn n ts)).order = l.order ++ [turn] := order_place_open rfl

/-- A turn whose open the file has not has no entries. -/
structure Sound (l : Log) : Prop where
  seqs : ∀ (turn : String) (i : ℕ) e, (l.own turn)[i]? = some e → e.seq = i
  heads : ∀ (turn : String) (i : ℕ) e, (l.own turn)[i]? = some e → (e.kind = .turnOpen ↔ i = 0)
  opens : ∀ (turn : String) e, (l.own turn)[0]? = some e → ∃ n, e.payload = .turnOpen n
  places : (l.tails.map OpenEntry.place).Nodup
  tailed : ∀ o ∈ l.tails, o.turn ∈ l.order

namespace Sound

theorem own_eq_nil (h : l.Sound) : l.own turn = [] ↔ turn ∉ l.order := by
  constructor
  · intro hnil hmem
    obtain ⟨e, he, rfl⟩ := List.mem_map.mp hmem
    have hown : e ∈ l.own e.turn :=
      List.mem_filter.mpr ⟨(List.mem_filter.mp he).1, by simp⟩
    rw [hnil] at hown
    cases hown
  · intro hnot
    cases hown : l.own turn with
    | nil => rfl
    | cons e es =>
      have hget : (l.own turn)[0]? = some e := by simp [hown]
      have hmem : e ∈ l.own turn := List.mem_of_getElem? hget
      refine absurd (List.mem_map.mpr ⟨e, List.mem_filter.mpr ⟨(List.mem_filter.mp hmem).1, ?_⟩,
        mem_own hmem⟩) hnot
      simpa using (h.heads turn 0 e hget).mpr rfl

/-- An entry with the next seq of its turn, that opens the turn exactly when it is the first. -/
theorem place (h : l.Sound) (hseq : e.seq = (l.own e.turn).length)
    (hkind : e.kind = .turnOpen ↔ l.own e.turn = [])
    (hopen : l.own e.turn = [] → ∃ n, e.payload = .turnOpen n) : (l.place e).Sound where
  seqs := by
    intro turn i e' he
    rw [own_place] at he
    split at he
    · next hturn =>
      subst hturn
      rw [List.getElem?_append] at he
      split at he
      · exact h.seqs _ i e' he
      · have hi : i - (l.own e.turn).length = 0 := by
          by_contra hne
          rw [List.getElem?_eq_none (by simp; omega)] at he
          cases he
        rw [hi] at he
        obtain rfl := Option.some_inj.mp he
        omega
    · rw [List.append_nil] at he
      exact h.seqs turn i e' he
  heads := by
    intro turn i e' he
    rw [own_place] at he
    split at he
    · next hturn =>
      subst hturn
      rw [List.getElem?_append] at he
      split at he
      · exact h.heads _ i e' he
      · have hi : i - (l.own e.turn).length = 0 := by
          by_contra hne
          rw [List.getElem?_eq_none (by simp; omega)] at he
          cases he
        rw [hi] at he
        obtain rfl := Option.some_inj.mp he
        rw [hkind, ← List.length_eq_zero_iff]
        omega
    · rw [List.append_nil] at he
      exact h.heads turn i e' he
  opens := by
    intro turn e' he
    rw [own_place] at he
    split at he
    · next hturn =>
      subst hturn
      cases hown : l.own e.turn with
      | nil =>
        rw [hown] at he
        obtain rfl := Option.some_inj.mp he
        exact hopen hown
      | cons e₀ es =>
        rw [hown] at he
        obtain rfl := Option.some_inj.mp he
        exact h.opens e.turn e₀ (by rw [hown]; rfl)
    · rw [List.append_nil] at he
      exact h.opens turn e' he
  places := h.places
  tailed := by
    intro o ho
    have hmem := h.tailed o ho
    by_cases hk : e.kind = .turnOpen
    · rw [order_place_open hk]
      exact List.mem_append_left _ hmem
    · rw [order_place_of_ne hk]
      exact hmem

theorem setTail (h : l.Sound) {o : OpenEntry} (ho : o.turn ∈ l.order) : (l.setTail o).Sound where
  seqs := h.seqs
  heads := h.heads
  opens := h.opens
  places := Keyed.nodup_set h.places
  tailed := by
    intro o' ho'
    rcases Keyed.mem_set ho' with rfl | ⟨hm, _⟩
    · exact ho
    · exact h.tailed o' hm

theorem eraseTail (h : l.Sound) (turn lane : String) : (l.eraseTail turn lane).Sound where
  seqs := h.seqs
  heads := h.heads
  opens := h.opens
  places := Keyed.nodup_erase h.places
  tailed := fun o ho => h.tailed o (Keyed.mem_erase.mp ho).1

theorem act (h : l.Sound) (ha : l.Admits a) : (l.act a).Sound := by
  have hplace : ∀ e : Entry, e.turn ∈ l.order → e.seq = (l.own e.turn).length →
      e.kind ≠ .turnOpen → (l.place e).Sound := by
    intro e hturn hseq hk
    apply h.place hseq
    · rw [h.own_eq_nil]
      exact ⟨fun hopen => absurd hopen hk, fun hnot => absurd hturn hnot⟩
    · intro hnil
      exact absurd hturn (h.own_eq_nil.mp hnil)
  cases a with
  | silent e => exact hplace e ha.1 ha.2.1 ha.2.2
  | announced f =>
    cases f with
    | turnOpened e =>
      obtain ⟨hnew, hseq, n, hp⟩ := ha
      have hnil := h.own_eq_nil.mpr hnew
      apply h.place
      · rw [hseq, hnil]
        rfl
      · simp [hnil, Entry.kind, hp, Payload.kind]
      · exact fun _ => ⟨n, hp⟩
    | entryOpened o => exact h.setTail ha.1
    | entryDelta turn id lane n delta =>
      obtain ⟨o, ho, _⟩ := ha
      simp only [Log.act, announce, ho]
      exact h.setTail (h.tailed o (mem_of_tail ho))
    | entrySealed turn id lane seq ts n =>
      obtain ⟨o, ho, _, _, hseq⟩ := ha
      obtain ⟨hturn, _⟩ := place_of_tail ho
      simp only [Log.act, announce, ho]
      apply Sound.eraseTail
      apply hplace
      · exact h.tailed o (mem_of_tail ho)
      · rw [hseq, ← hturn]
        rfl
      · cases hk : o.kind <;> simp [Entry.kind, OpenEntry.sealed, Payload.kind, hk]
    | entryAppended e => exact hplace e ha.1 ha.2.1 ha.2.2

theorem actAll (h : l.Sound) {as : List Action} (ha : l.Through Admits as) :
    (as.foldl Log.act l).Sound := by
  induction as generalizing l with
  | nil => exact h
  | cons a as ih => exact ih (h.act ha.1) ha.2

end Sound

theorem sound_empty : ({} : Log).Sound where
  seqs := nofun
  heads := nofun
  opens := nofun
  places := List.nodup_nil
  tailed := nofun

/-- Whatever an operation does fits. -/
theorem Sound.performs (h : l.Sound) (op : ServerOp) : l.Through Admits (l.perform op) := by
  cases op with
  | openTurn turn ts =>
    simp only [perform]
    split
    · trivial
    · next hnew => exact ⟨⟨hnew, rfl, _, rfl⟩, trivial⟩
  | openEntry turn lane id kind text =>
    simp only [perform]
    split
    · next hg => exact ⟨hg, trivial⟩
    · trivial
  | extend turn lane delta =>
    simp only [perform]
    split
    · next o ho => exact ⟨⟨o, ho, rfl, rfl⟩, trivial⟩
    · trivial
  | «seal» turn lane ts =>
    simp only [perform]
    split
    · next o ho => exact ⟨⟨o, ho, rfl, rfl, rfl⟩, trivial⟩
    · trivial
  | append turn lane id payload ts =>
    simp only [perform]
    split
    · next hg => exact ⟨⟨hg.1, rfl, hg.2.1⟩, trivial⟩
    · trivial
  | revert fromTurn mint ts =>
    simp only [perform]
    split
    · split
      · next carrier hc =>
        have hm := List.mem_of_getLast? hc
        exact ⟨⟨mem_order_of_survivors (List.mem_filter.mp hm).1, rfl, nofun⟩, trivial⟩
      · split
        · trivial
        · next hnew =>
          have hnil := h.own_eq_nil.mpr hnew
          refine ⟨⟨hnew, rfl, _, rfl⟩, ⟨?_, ?_, nofun⟩, ⟨?_, ?_, nofun⟩, trivial⟩
          · simp only [Log.act, announce, order_openTurn]
            exact List.mem_append_right _ (List.mem_singleton_self _)
          · simp [Log.act, announce, hnil, openedEntry]
          · simp only [Log.act, announce]
            rw [order_place_of_ne (by simp [Entry.kind, Payload.kind]), order_openTurn]
            exact List.mem_append_right _ (List.mem_singleton_self _)
          · simp [Log.act, announce, hnil, openedEntry, revertRecord]
    · trivial

end Log

theorem after_append (as bs : List Action) : Log.after (as ++ bs) = bs.foldl Log.act (Log.after as) :=
  List.foldl_append

theorem after_concat (as : List Action) (a : Action) :
    Log.after (as ++ [a]) = (Log.after as).act a := after_append as [a]

namespace Log

variable {l : Log} {e : Entry} {turn : String}

/-! ## What only grows -/

/-- An action places one entry, or leaves the entries as they are. -/
theorem act_cases (l : Log) (a : Action) :
    (∃ e, (l.act a).entries = (l.place e).entries ∧ (l.act a).reverted = (l.place e).reverted) ∨
      (l.act a).entries = l.entries ∧ (l.act a).reverted = l.reverted := by
  cases a with
  | silent e => exact .inl ⟨e, rfl, rfl⟩
  | announced f =>
    cases f with
    | turnOpened e => exact .inl ⟨e, rfl, rfl⟩
    | entryAppended e => exact .inl ⟨e, rfl, rfl⟩
    | entryOpened o => exact .inr ⟨rfl, rfl⟩
    | entryDelta turn id lane n delta =>
      simp only [act, announce]
      split
      · exact .inr ⟨rfl, rfl⟩
      · exact .inr ⟨rfl, rfl⟩
    | entrySealed turn id lane seq ts n =>
      simp only [act, announce]
      split
      · exact .inl ⟨_, rfl, rfl⟩
      · exact .inr ⟨rfl, rfl⟩

theorem own_act (l : Log) (a : Action) (turn : String) : l.own turn <+: (l.act a).own turn := by
  rcases act_cases l a with ⟨e, he, -⟩ | ⟨he, -⟩
  · rw [own, own, he, place, List.filter_append]
    exact List.prefix_append _ _
  · have heq : (l.act a).own turn = l.own turn := by rw [own, own, he]
    exact heq ▸ List.prefix_rfl

theorem order_act (l : Log) (a : Action) : l.order <+: (l.act a).order := by
  rcases act_cases l a with ⟨e, he, -⟩ | ⟨he, -⟩
  · rw [order, order, he, place, List.filter_append, List.map_append]
    exact List.prefix_append _ _
  · have heq : (l.act a).order = l.order := by rw [order, order, he]
    exact heq ▸ List.prefix_rfl

theorem reverted_act (l : Log) (a : Action) : l.reverted <+: (l.act a).reverted := by
  rcases act_cases l a with ⟨e, -, he⟩ | ⟨-, he⟩
  · rw [he, place]
    split
    · exact List.prefix_append _ _
    · exact List.prefix_rfl
  · exact he ▸ List.prefix_rfl

/-- What an action only adds to, a run of actions only adds to. -/
theorem prefix_after {α : Type} {f : Log → List α} (hf : ∀ l a, f l <+: f (Log.act l a))
    (as bs : List Action) : f (after as) <+: f (after (as ++ bs)) := by
  rw [after_append]
  generalize after as = l
  induction bs generalizing l with
  | nil => exact List.prefix_rfl
  | cons b bs ih => exact (hf l b).trans (ih (l.act b))

theorem own_after (as bs : List Action) (turn : String) :
    (after as).own turn <+: (after (as ++ bs)).own turn :=
  prefix_after (f := fun l => l.own turn) (fun l a => own_act l a turn) as bs

theorem order_after (as bs : List Action) : (after as).order <+: (after (as ++ bs)).order :=
  prefix_after order_act as bs

theorem reverted_after (as bs : List Action) :
    (after as).reverted <+: (after (as ++ bs)).reverted := prefix_after reverted_act as bs

theorem getElem?_of_prefix {α : Type} {xs ys : List α} {i : ℕ} {x : α} (h : xs <+: ys)
    (hx : xs[i]? = some x) : ys[i]? = some x := by
  obtain ⟨t, rfl⟩ := h
  have hlt := (List.getElem?_eq_some_iff.mp hx).1
  rw [List.getElem?_append_left hlt, hx]

variable {as bs : List Action}

/-- An entry stands in the log at its seq. -/
def Places (l : Log) (e : Entry) : Prop := (l.own e.turn)[e.seq]? = some e

theorem Sound.places_of_mem (h : l.Sound) (he : e ∈ l.own turn) : l.Places e := by
  obtain ⟨i, hi⟩ := List.mem_iff_getElem?.mp he
  rw [Places, mem_own he, h.seqs turn i e hi]
  exact hi

theorem Places.mono (h : (after as).Places e) : (after (as ++ bs)).Places e :=
  getElem?_of_prefix (own_after as bs _) h

end Log
end Marotte.Transcript
