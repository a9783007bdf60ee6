import Marotte.EntryLog.Index

/-! # Reverted flags as a function of the record

A scan folds every line first and writes the reverted flags at the end; an append
writes them as it goes. Both are `live` views of one fold that writes no flag at all.
-/
namespace Marotte

/-- Whether a record takes a turn: in its window, and not its carrier. -/
def RevertWindow.takes (w : RevertWindow) (order : List String) (id : String) : Bool :=
  id ∈ Window.window order w.fromTurn w.through && id != w.carrier

@[simp] theorem TurnState.setReverted_reverted (st : TurnState) (v : Bool) :
    (st.setReverted v).reverted = v := rfl

@[simp] theorem TurnState.setReverted_setReverted (st : TurnState) (v w : Bool) :
    (st.setReverted v).setReverted w = st.setReverted w := rfl

@[simp] theorem TurnState.setReverted_self (st : TurnState) : st.setReverted st.reverted = st := rfl

@[simp] theorem TurnState.setReverted_incompleteCarrier (st : TurnState) (v : Bool) :
    (st.setReverted v).incompleteCarrier = st.incompleteCarrier := rfl

namespace Index

/-- The index under stated reverted flags, with no window left to apply. -/
def live (b : Index) (r : String → Bool) : Index :=
  { b with
    turns := fun id => (b.turns id).map (·.setReverted (r id))
    unappliedReverts := [] }

/-- More turns marked. -/
def marked (b : Index) (p : String → Bool) : Index :=
  { b with turns := fun id => (b.turns id).map (fun st => st.setReverted (st.reverted || p id)) }

/-- Whether a turn lies in the window of some record that is not its own. -/
def taken (b : Index) (id : String) : Bool :=
  b.unappliedReverts.any (fun w => w.takes b.order id)

def incomplete (b : Index) (id : String) : Bool :=
  ((b.turns id).map TurnState.incompleteCarrier).getD false

/-- The flag the record gives a turn: some window takes it, or it is an incomplete carrier. -/
def hidden (b : Index) (id : String) : Bool := b.taken id || b.incomplete id

/-- A turn id that the fold has not met, as a turn or as the end of a window. -/
structure Fresh (b : Index) (id : String) : Prop where
  notMem : id ∉ b.order
  unnamed : ∀ w ∈ b.unappliedReverts, w.fromTurn ≠ id ∧ w.through ≠ id

instance (b : Index) (id : String) : Decidable (b.Fresh id) :=
  decidable_of_iff (id ∉ b.order ∧ ∀ w ∈ b.unappliedReverts, w.fromTurn ≠ id ∧ w.through ≠ id)
    ⟨fun h => ⟨h.1, h.2⟩, fun h => ⟨h.notMem, h.unnamed⟩⟩

/-- What the fold alone keeps: no flag written, and every row's turn in the order. -/
structure Folded (b : Index) : Prop where
  unmarked : ∀ id st, b.turns id = some st → st.reverted = false
  mem_order : ∀ id, id ∈ b.order ↔ (b.turns id).isSome

/-- A turn id a turn_open may bring without a window taking it or moving for it. -/
structure Opens (b : Index) (id : String) : Prop where
  untaken : b.taken id = false
  unmoved : id ∈ b.order ∨ ∀ w ∈ b.unappliedReverts, w.fromTurn ≠ id ∧ w.through ≠ id

@[simp] theorem live_order (b : Index) (r : String → Bool) : (b.live r).order = b.order := rfl
@[simp] theorem live_size (b : Index) (r : String → Bool) : (b.live r).size = b.size := rfl
@[simp] theorem live_unapplied (b : Index) (r : String → Bool) :
    (b.live r).unappliedReverts = [] := rfl

theorem live_turns (b : Index) (r : String → Bool) (id : String) :
    (b.live r).turns id = (b.turns id).map (·.setReverted (r id)) := rfl

@[simp] theorem live_turns_eq_none (b : Index) (r : String → Bool) (id : String) :
    (b.live r).turns id = none ↔ b.turns id = none := by
  simp [live_turns]

theorem marked_turns (b : Index) (p : String → Bool) (id : String) :
    (b.marked p).turns id = (b.turns id).map (fun st => st.setReverted (st.reverted || p id)) := rfl

@[simp] theorem marked_marked (b : Index) (p q : String → Bool) :
    (b.marked p).marked q = b.marked (fun id => p id || q id) := by
  ext1
  case turns =>
    funext id
    simp [marked_turns, Function.comp_def, Bool.or_assoc]
  all_goals rfl

theorem marked_false (b : Index) : b.marked (fun _ => false) = b := by
  ext1
  case turns =>
    funext id
    simp [marked_turns]
  all_goals rfl

theorem revert_eq_marked (b : Index) (turn : String) : b.revert turn = b.marked (· == turn) := by
  ext1
  case turns =>
    funext id
    by_cases h : id = turn
    · subst h
      simp [revert, marked_turns]
    · have hid : (id == turn) = false := by simpa using h
      simp [revert, marked_turns, h, hid]
  all_goals rfl

/-- A pass that reverts some turns of a list marks just those. -/
theorem foldl_revert_eq_marked (keep : String → Bool) (ids : List String) (b : Index) :
    ids.foldl (fun idx id => if keep id then idx else idx.revert id) b =
      b.marked (fun id => id ∈ ids && !keep id) := by
  induction ids generalizing b with
  | nil => simp [marked_false]
  | cons t ids ih =>
    rw [List.foldl_cons]
    by_cases hk : keep t
    · rw [if_pos hk, ih]
      congr 1
      funext id
      by_cases h : id = t <;> simp [h, hk]
    · rw [if_neg hk, ih, revert_eq_marked, marked_marked]
      congr 1
      funext id
      by_cases h : id = t <;> simp [h, hk]

theorem markReverted_eq_marked (b : Index) (w : RevertWindow) :
    b.markReverted w = b.marked (w.takes b.order) := by
  have hpass : ∀ ids : List String,
      ids.foldl (fun idx id => if id = w.carrier then idx else idx.revert id) b =
        b.marked (fun id => id ∈ ids && id != w.carrier) := by
    intro ids
    have := foldl_revert_eq_marked (· == w.carrier) ids b
    simpa [bne] using this
  unfold markReverted RevertWindow.takes Window.window
  cases b.order.idxOf? w.fromTurn with
  | none => simp [marked_false]
  | some first =>
    cases b.order.idxOf? w.through with
    | none => simp [marked_false]
    | some last =>
      by_cases h : last < first
      · simp [h, Nat.sub_eq_zero_of_le (Nat.succ_le_of_lt h), marked_false]
      · simp only [h, if_false]
        exact hpass _

@[simp] theorem marked_order (b : Index) (p : String → Bool) : (b.marked p).order = b.order := rfl

theorem foldl_markReverted (ws : List RevertWindow) (b : Index) :
    ws.foldl markReverted b = b.marked (fun id => ws.any (fun w => w.takes b.order id)) := by
  induction ws generalizing b with
  | nil => simp [marked_false]
  | cons w ws ih => simp [ih, markReverted_eq_marked]

theorem applyReverts_eq_marked (b : Index) :
    b.applyReverts = { b with unappliedReverts := [] }.marked
      (fun id => b.unappliedReverts.any (fun w => w.takes b.order id)) := by
  rw [applyReverts, foldl_markReverted]

theorem markIncompleteCarriers_eq_marked (b : Index) :
    b.markIncompleteCarriers = b.marked (fun id =>
      id ∈ b.order && ((b.turns id).map TurnState.incompleteCarrier).getD false) := by
  have hpass : ∀ (ids : List String) (i : Index),
      (∀ id, ((i.turns id).map TurnState.incompleteCarrier).getD false =
        ((b.turns id).map TurnState.incompleteCarrier).getD false) →
      ids.foldl (fun idx id =>
          if ((idx.turns id).map TurnState.incompleteCarrier).getD false then idx.revert id
          else idx) i =
        i.marked (fun id => id ∈ ids && ((b.turns id).map TurnState.incompleteCarrier).getD false) := by
    intro ids
    induction ids with
    | nil => intro i _; simp [marked_false]
    | cons t ids ih =>
      intro i hi
      rw [List.foldl_cons, hi t]
      by_cases hc : ((b.turns t).map TurnState.incompleteCarrier).getD false
      · rw [if_pos hc, ih, revert_eq_marked, marked_marked]
        · congr 1
          funext id
          by_cases h : id = t <;> simp [h, hc]
        · intro id
          rw [← hi id, revert_eq_marked, marked_turns]
          cases i.turns id <;> simp
      · rw [if_neg hc, ih i hi]
        congr 1
        funext id
        by_cases h : id = t <;> simp [h, hc]
  exact hpass b.order b (fun _ => rfl)

/-- What a scan does once its pass is over, on a fold that wrote no flag. -/
theorem resolve_eq_live {b : Index} (hb : b.Folded) :
    b.applyReverts.markIncompleteCarriers = b.live b.hidden := by
  rw [markIncompleteCarriers_eq_marked, applyReverts_eq_marked, marked_marked]
  ext1
  case turns =>
    funext id
    rw [marked_turns, live_turns]
    cases hst : b.turns id with
    | none => simp
    | some st =>
      have ho : id ∈ b.order := (hb.mem_order id).mpr (by simp [hst])
      have hu := hb.unmarked id st hst
      simp [hst, hidden, taken, incomplete, marked_turns, ho, hu]
  all_goals rfl

/-! ## One line under the two orders of marking -/

theorem folded_empty : empty.Folded where
  unmarked := by simp [empty]
  mem_order := by simp [empty]

@[simp] theorem fold_order (b : Index) (e : Entry) : (b.fold e).order = b.order := by
  unfold fold
  split <;> rfl

theorem observe_turnOpen {b : Index} {e : Entry} {p : EntryTurnOpen} (he : e.payload = .turnOpen p)
    (start stop : ℕ) : b.observe e start stop =
      some { b.setTurn e.turn (newTurnState e p start stop) with order := b.order ++ [e.turn] } := by
  simp [observe, he]

/-- A line of any other kind needs its turn's row, and changes only that row beside the sets. -/
theorem observe_of_ne_turnOpen {e : Entry} (he : e.kind ≠ .turnOpen) (b : Index) (start stop : ℕ) :
    b.observe e start stop =
      (b.turns e.turn).map
        (fun st => (b.setTurn e.turn ((st.extend e start stop).fold e)).fold e) := by
  unfold observe
  split
  · rename_i p hp
    exact absurd (Entry.kind_of_payload hp) he
  · cases b.turns e.turn <;> rfl

end Index

theorem TurnState.fold_setReverted (st : TurnState) (e : Entry) (v : Bool) :
    (st.setReverted v).fold e = (st.fold e).setReverted v := by
  unfold TurnState.fold
  split <;> rfl

@[simp] theorem TurnState.extend_setReverted (st : TurnState) (e : Entry) (start stop : ℕ)
    (v : Bool) : (st.setReverted v).extend e start stop = (st.extend e start stop).setReverted v :=
  rfl

@[simp] theorem TurnState.fold_reverted (st : TurnState) (e : Entry) :
    (st.fold e).reverted = st.reverted := by
  unfold TurnState.fold
  split <;> rfl

@[simp] theorem TurnState.fold_source (st : TurnState) (e : Entry) :
    (st.fold e).source = st.source := by
  unfold TurnState.fold
  split <;> rfl

@[simp] theorem TurnState.fold_n (st : TurnState) (e : Entry) : (st.fold e).n = st.n := by
  unfold TurnState.fold
  split <;> rfl

theorem TurnState.fold_hasRevert (st : TurnState) (e : Entry) :
    (st.fold e).hasRevert = (st.hasRevert || e.kind == .turnRevert) := by
  cases hp : e.payload <;>
    simp [TurnState.fold, Entry.kind, hp, Payload.kind, foldTurnClose, foldSteer]

namespace Index

theorem setTurn_live (b : Index) (r : String → Bool) (turn : String) (st : TurnState) (v : Bool) :
    (b.live r).setTurn turn (st.setReverted v) =
      (b.setTurn turn st).live (Function.update r turn v) := by
  ext1
  case turns =>
    funext id
    by_cases h : id = turn
    · subst h
      simp [setTurn, live_turns]
    · simp [setTurn, live_turns, h]
  all_goals rfl

theorem fold_live {e : Entry} (hr : e.kind ≠ .turnRevert) (b : Index) (r : String → Bool) :
    (b.live r).fold e = (b.fold e).live r := by
  cases hp : e.payload <;> simp only [fold, hp] <;> first | rfl | skip
  exact absurd (Entry.kind_of_payload hp) hr

/-- A line that opens no turn and records no revert folds the same under any flags. -/
theorem observe_live {e : Entry} (ho : e.kind ≠ .turnOpen) (hr : e.kind ≠ .turnRevert)
    (b : Index) (r : String → Bool) (start stop : ℕ) :
    (b.live r).observe e start stop = (b.observe e start stop).map (·.live r) := by
  rw [observe_of_ne_turnOpen ho, observe_of_ne_turnOpen ho, live_turns]
  cases b.turns e.turn with
  | none => rfl
  | some st =>
    simp only [Option.map_some, TurnState.extend_setReverted, TurnState.fold_setReverted,
      setTurn_live, fold_live hr, Function.update_eq_self]

/-- A turn opens with its flag down. -/
theorem observe_live_turnOpen {e : Entry} (ho : e.kind = .turnOpen) (b : Index)
    (r : String → Bool) (start stop : ℕ) : (b.live r).observe e start stop =
      (b.observe e start stop).map (·.live (Function.update r e.turn false)) := by
  obtain ⟨p, hp⟩ := Entry.kind_eq_turnOpen.mp ho
  rw [observe_turnOpen hp, observe_turnOpen hp]
  have h := setTurn_live b r e.turn (newTurnState e p start stop) false
  have hn : (newTurnState e p start stop).setReverted false = newTurnState e p start stop := rfl
  rw [hn] at h
  rw [h]
  rfl

theorem applyReverts_of_nil {b : Index} (h : b.unappliedReverts = []) : b.applyReverts = b := by
  rw [applyReverts, h, List.foldl_nil, ← h]

/-- A record's window is taken as soon as its line is appended. -/
theorem observe_live_turnRevert {e : Entry} {p : EntryTurnRevert} (he : e.payload = .turnRevert p)
    (b : Index) (r : String → Bool) (start stop : ℕ) :
    ((b.live r).observe e start stop).map applyReverts = (b.observe e start stop).map (·.live
      (fun id => r id || RevertWindow.takes ⟨e.turn, p.fromTurn, p.through⟩ b.order id)) := by
  have ho : e.kind ≠ .turnOpen := by simp [Entry.kind, he, Payload.kind]
  rw [observe_of_ne_turnOpen ho, observe_of_ne_turnOpen ho, live_turns]
  cases b.turns e.turn with
  | none => rfl
  | some st =>
    simp only [Option.map_some, TurnState.extend_setReverted, TurnState.fold_setReverted,
      setTurn_live, Function.update_eq_self, Option.some.injEq]
    rw [applyReverts_eq_marked]
    ext1
    case turns =>
      funext id
      cases hid : Function.update b.turns e.turn (some ((st.extend e start stop).fold e)) id <;>
        simp [marked_turns, fold, he, live, setTurn, hid]
    all_goals simp [fold, he, marked, live, setTurn]

theorem observe_order {b b' : Index} {e : Entry} {start stop : ℕ}
    (h : b.observe e start stop = some b') :
    b'.order = if e.kind = .turnOpen then b.order ++ [e.turn] else b.order := by
  by_cases ho : e.kind = .turnOpen
  · obtain ⟨p, hp⟩ := Entry.kind_eq_turnOpen.mp ho
    rw [observe_turnOpen hp] at h
    simp [← Option.some.inj h, Entry.kind, hp, Payload.kind]
  · rw [observe_of_ne_turnOpen ho, Option.map_eq_some_iff] at h
    obtain ⟨st, -, rfl⟩ := h
    simp [ho, setTurn]

theorem observe_unapplied {b b' : Index} {e : Entry} {start stop : ℕ}
    (h : b.observe e start stop = some b') :
    b'.unappliedReverts = match e.payload with
      | .turnRevert p => b.unappliedReverts ++ [⟨e.turn, p.fromTurn, p.through⟩]
      | _ => b.unappliedReverts := by
  unfold observe at h
  cases hp : e.payload <;> simp only [hp, Option.some.injEq] at h ⊢
  case turnOpen => rw [← h]; rfl
  all_goals
    cases hst : b.turns e.turn with
    | none => simp [hst] at h
    | some st =>
      simp only [hst, Option.some.injEq] at h
      rw [← h]
      simp [fold, hp, setTurn]

/-- The rows after one line: the line's own turn, and every other as it was. -/
theorem observe_turns {b b' : Index} {e : Entry} {start stop : ℕ}
    (h : b.observe e start stop = some b') (id : String) :
    b'.turns id = if id = e.turn then
      (match e.payload with
        | .turnOpen p => some (newTurnState e p start stop)
        | _ => (b.turns id).map (fun st => (st.extend e start stop).fold e))
      else b.turns id := by
  unfold observe at h
  cases hp : e.payload <;> simp only [hp, Option.some.injEq] at h ⊢
  case turnOpen p =>
    rw [← h]
    by_cases hid : id = e.turn
    · subst hid; simp [setTurn]
    · simp [setTurn, hid]
  all_goals
    cases hst : b.turns e.turn with
    | none => simp [hst] at h
    | some st =>
      simp only [hst, Option.some.injEq] at h
      rw [← h]
      by_cases hid : id = e.turn
      · subst hid; simp [fold, hp, setTurn, hst]
      · simp [fold, hp, setTurn, hid]

theorem observe_turns_of_ne_turnOpen {b b' : Index} {e : Entry} {start stop : ℕ}
    (ho : e.kind ≠ .turnOpen) (h : b.observe e start stop = some b') (id : String) :
    b'.turns id = if id = e.turn then (b.turns id).map (fun st => (st.extend e start stop).fold e)
      else b.turns id := by
  rw [observe_turns h]
  cases hp : e.payload
  case turnOpen => exact absurd (Entry.kind_of_payload hp) ho
  all_goals rfl

theorem Folded.observe {b b' : Index} {e : Entry} {start stop : ℕ} (hb : b.Folded)
    (h : b.observe e start stop = some b') : b'.Folded := by
  by_cases ho : e.kind = .turnOpen
  · obtain ⟨p, hp⟩ := Entry.kind_eq_turnOpen.mp ho
    constructor
    · intro id st hst
      rw [observe_turns h] at hst
      by_cases hid : id = e.turn
      · simp only [hid, hp, if_true, Option.some.injEq] at hst
        exact hst ▸ rfl
      · exact hb.unmarked id st (by simpa [hid] using hst)
    · intro id
      rw [observe_turns h, observe_order h, if_pos ho]
      by_cases hid : id = e.turn
      · simp [hid, hp]
      · simpa [hid] using hb.mem_order id
  · have hnone : b.turns e.turn ≠ none := by
      intro hn
      rw [observe_of_ne_turnOpen ho, hn] at h
      cases h
    constructor
    · intro id st hst
      rw [observe_turns_of_ne_turnOpen ho h] at hst
      by_cases hid : id = e.turn
      · rw [if_pos hid, Option.map_eq_some_iff] at hst
        obtain ⟨st₀, hst₀, rfl⟩ := hst
        simpa [TurnState.extend] using hb.unmarked id st₀ hst₀
      · exact hb.unmarked id st (by simpa [hid] using hst)
    · intro id
      rw [observe_turns_of_ne_turnOpen ho h, observe_order h, if_neg ho, hb.mem_order]
      by_cases hid : id = e.turn <;> simp [hid]

theorem taken_observe {b b' : Index} {e : Entry} {start stop : ℕ} (ho : e.kind ≠ .turnOpen)
    (hr : e.kind ≠ .turnRevert) (h : b.observe e start stop = some b') : b'.taken = b.taken := by
  have hord := observe_order h
  rw [if_neg ho] at hord
  have hu : b'.unappliedReverts = b.unappliedReverts := by
    rw [observe_unapplied h]
    cases hp : e.payload <;> first | rfl | exact absurd (Entry.kind_of_payload hp) hr
  funext id
  rw [taken, taken, hu, hord]

theorem hidden_observe {b b' : Index} {e : Entry} {start stop : ℕ} (ho : e.kind ≠ .turnOpen)
    (hr : e.kind ≠ .turnRevert) (h : b.observe e start stop = some b') : b'.hidden = b.hidden := by
  have hk : (e.kind == .turnRevert) = false := by simpa using hr
  funext id
  have hi : b'.incomplete id = b.incomplete id := by
    rw [incomplete, incomplete, observe_turns_of_ne_turnOpen ho h]
    by_cases hid : id = e.turn
    · cases b.turns id <;>
        simp [hid, TurnState.incompleteCarrier, TurnState.fold_hasRevert, hk, TurnState.extend]
    · simp [hid]
  rw [hidden, hidden, taken_observe ho hr h, hi]

theorem taken_subset_order {b : Index} {id : String} (h : b.taken id = true) : id ∈ b.order := by
  rw [taken, List.any_eq_true] at h
  obtain ⟨w, -, hw⟩ := h
  simp only [RevertWindow.takes, Bool.and_eq_true, decide_eq_true_eq] at hw
  exact Window.window_subset _ _ _ hw.1

theorem Fresh.opens {b : Index} {id : String} (h : b.Fresh id) : b.Opens id where
  untaken := by
    cases ht : b.taken id with
    | false => rfl
    | true => exact absurd (taken_subset_order ht) h.notMem
  unmoved := .inr h.unnamed

/-- No window moves when such a turn opens. -/
theorem taken_observe_turnOpen {b b' : Index} {e : Entry} {start stop : ℕ}
    (ho : e.kind = .turnOpen) (hf : b.Opens e.turn) (h : b.observe e start stop = some b') :
    b'.taken = b.taken := by
  obtain ⟨p, hp⟩ := Entry.kind_eq_turnOpen.mp ho
  have hord : b'.order = b.order ++ [e.turn] := by simpa [ho] using observe_order h
  have hu : b'.unappliedReverts = b.unappliedReverts := by simpa [hp] using observe_unapplied h
  funext id
  have htakes : ∀ w ∈ b.unappliedReverts, w.takes (b.order ++ [e.turn]) id = w.takes b.order id := by
    intro w hw
    have hends : (w.fromTurn ∈ b.order ∨ w.fromTurn ∉ [e.turn]) ∧
        (w.through ∈ b.order ∨ w.through ∉ [e.turn]) := by
      rcases hf.unmoved with hm | hn
      · constructor
        · by_cases h : w.fromTurn = e.turn <;> simp [h, hm]
        · by_cases h : w.through = e.turn <;> simp [h, hm]
      · exact ⟨.inr (by simpa using (hn w hw).1), .inr (by simpa using (hn w hw).2)⟩
    unfold RevertWindow.takes
    rw [Window.window_append hends.1 hends.2]
  rw [taken, taken, hu, hord, Bool.eq_iff_iff]
  simp only [List.any_eq_true]
  exact exists_congr (fun w => and_congr_right (fun hw => by rw [htakes w hw]))

/-- A turn opened so is in no window; its own source alone can hide it. -/
theorem hidden_observe_turnOpen {b b' : Index} {e : Entry} {p : EntryTurnOpen} {start stop : ℕ}
    (he : e.payload = .turnOpen p) (hf : b.Opens e.turn) (h : b.observe e start stop = some b') :
    b'.hidden = Function.update b.hidden e.turn (p.source == .revert) := by
  have ht := taken_observe_turnOpen (Entry.kind_of_payload he) hf h
  funext id
  by_cases hid : id = e.turn
  · subst hid
    rw [hidden, ht, hf.untaken, incomplete, observe_turns h]
    simp [he, newTurnState, TurnState.incompleteCarrier]
  · rw [Function.update_of_ne hid, hidden, hidden, ht, incomplete, incomplete, observe_turns h]
    simp [hid]

/-- A record hides its window and completes its carrier. -/
theorem hidden_observe_turnRevert {b b' : Index} {e : Entry} {p : EntryTurnRevert} {start stop : ℕ}
    (he : e.payload = .turnRevert p) (h : b.observe e start stop = some b') (id : String) :
    b'.hidden id =
      if id = e.turn then b.taken id
      else b.hidden id || RevertWindow.takes ⟨e.turn, p.fromTurn, p.through⟩ b.order id := by
  have hord : b'.order = b.order := by
    simpa [Entry.kind, he, Payload.kind] using observe_order h
  have hu : b'.unappliedReverts = b.unappliedReverts ++ [⟨e.turn, p.fromTurn, p.through⟩] := by
    simpa [he] using observe_unapplied h
  have ht : b'.taken id =
      (b.taken id || RevertWindow.takes ⟨e.turn, p.fromTurn, p.through⟩ b.order id) := by
    simp [taken, hu, hord]
  rw [hidden, ht, incomplete, observe_turns h]
  by_cases hid : id = e.turn
  · cases b.turns id <;>
      simp [hid, he, RevertWindow.takes, TurnState.incompleteCarrier, TurnState.fold_hasRevert,
        Entry.kind, Payload.kind]
  · rw [hidden]
    simp only [hid, if_false, incomplete]
    cases b.taken id <;> simp [Bool.or_comm]

end Index

end Marotte
