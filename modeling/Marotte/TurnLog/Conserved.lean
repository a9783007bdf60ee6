import Marotte.TurnLog.Seals

/-! # What a turn log conserves

With a sink that takes every append, each lane's entries read as what arrived in the lane: the
deltas, each carry where its seal released it, and every other entry at its arrival.
-/
namespace Marotte.TurnLog

/-- A sink that takes every append. -/
def World.Willing (w : World) : Prop := ∀ n, w.accepts n = true

/-- The lanes given sealed: their carries joined to their streams, nothing open, nothing withheld,
and nothing else changed. -/
structure Sealing (t t' : Turn) (keys : List String) : Prop where
  stream : ∀ k, t'.stream k = t.stream k ++ if k ∈ keys then charsOf (t.lanes k).prose else []
  shut : ∀ k ∈ keys, (t'.lanes k).opened = none ∧ (t'.lanes k).prose = ""
  others : ∀ k, k ∉ keys → t'.lanes k = t.lanes k
  rest : t' = { t with
    lanes := t'.lanes
    minted := t'.minted
    emitted := t'.emitted
    handed := t'.handed
    appended := t'.appended }
  words : ∃ new, t'.appended = t.appended ++ new ∧
    ∀ f ∈ new, (saidBy f.entry.payload).isSome ∧ f.laneless = false

variable {w : World} {t t' : Turn} {key : String}

theorem Sealing.refl (t : Turn) : Sealing t t [] where
  stream := by simp
  shut := by simp
  others := by simp
  rest := rfl
  words := ⟨[], by simp⟩

theorem Sealing.trans {t₁ t₂ : Turn} {keys keys' : List String} (h : Sealing t t₁ keys)
    (h' : Sealing t₁ t₂ keys') : Sealing t t₂ (keys ++ keys') where
  stream k := by
    rw [h'.stream, h.stream]
    by_cases hk : k ∈ keys
    · simp [hk, (h.shut k hk).2]
    · simp [hk, h.others k hk]
  shut k hk := by
    by_cases hlast : k ∈ keys'
    · exact h'.shut k hlast
    · rw [h'.others k hlast]
      exact h.shut k ((List.mem_append.mp hk).resolve_right hlast)
  others k hk := by
    obtain ⟨hfirst, hlast⟩ : k ∉ keys ∧ k ∉ keys' := by simpa using hk
    rw [h'.others k hlast, h.others k hfirst]
  rest := by
    rw [h'.rest, h.rest]
  words := by
    obtain ⟨new, heq, hnew⟩ := h.words
    obtain ⟨new', heq', hnew'⟩ := h'.words
    refine ⟨new ++ new', by rw [heq', heq, List.append_assoc], fun f hf => ?_⟩
    rcases List.mem_append.mp hf with hf | hf
    · exact hnew f hf
    · exact hnew' f hf

theorem sealLane_sealing (hw : w.Willing) (t : Turn) (key : String) :
    ∃ t' sealed, t.sealLane w key = ⟨t', sealed, none⟩ ∧ Sealing t t' [key] := by
  have hout := sealLane_outcome w t key
  generalize t.sealLane w key = out at hout
  cases hout with
  | idle hopen hprose =>
    refine ⟨_, _, rfl, ?_, ?_, ?_, rfl, ⟨[], by simp [Turn.setLane], by simp⟩⟩
    · intro k
      by_cases hk : k = key
      · subst hk
        simp [Turn.stream, Turn.written, Turn.setLane, Lane.held, hprose]
      · simp [Turn.stream, Turn.written, Turn.setLane, hk]
    · intro k hk
      rw [List.mem_singleton.mp hk, Turn.setLane_self]
      exact ⟨hopen, rfl⟩
    · intro k hk
      exact Turn.setLane_of_ne _ (by simpa using hk) _
  | sealed t₁ o delta n h haccepts =>
    have happended : t₁.appended = t.appended := by rw [h.rest]
    refine ⟨_, _, rfl, ?_, ?_, ?_, ?_, ?_⟩
    · intro k
      have hwritten : t₁.written k = t.written k := by rw [Turn.written, Turn.written, happended]
      rw [Turn.stream, Turn.stream, Turn.written_taking, hwritten, Turn.taking_lanes]
      by_cases hk : k = key
      · subst hk
        simp [Filed.inLane, Turn.entry, Lane.held_of_none h.opened, h.text]
      · simp [Filed.inLane, Turn.entry, hk, Ne.symm hk, h.others k hk]
    · intro k hk
      rw [List.mem_singleton.mp hk]
      exact ⟨h.opened, h.prose⟩
    · intro k hk
      exact h.others k (by simpa using hk)
    · rw [h.rest]
      rfl
    · exact ⟨_, congrArg (· ++ [_]) happended, by simp [Turn.entry]⟩
  | refused t₁ o h haccepts =>
    rw [hw] at haccepts
    cases haccepts

theorem sealLanes_sealing (hw : w.Willing) (t : Turn) (keys : List String) :
    ∃ t' sealed, t.sealLanes w keys = ⟨t', sealed, none⟩ ∧ Sealing t t' keys := by
  induction keys generalizing t with
  | nil => exact ⟨t, [], rfl, Sealing.refl t⟩
  | cons key keys ih =>
    obtain ⟨t₁, sealed, heq, h₁⟩ := sealLane_sealing hw t key
    obtain ⟨t₂, sealed', heq', h₂⟩ := ih t₁
    refine ⟨t₂, sealed ++ sealed', ?_, h₁.trans h₂⟩
    rw [Turn.sealLanes, heq]
    simp only [heq']

/-- A lane the turn has not seen holds nothing and withholds nothing. -/
def Turn.Ordered (t : Turn) : Prop :=
  ∀ k, k ∉ t.order → (t.lanes k).opened = none ∧ (t.lanes k).prose = ""

theorem Sealing.ordered {keys : List String} (h : Sealing t t' keys) (ho : t.Ordered) :
    t'.Ordered := by
  intro k hk
  have hsame : t'.order = t.order := by rw [h.rest]
  by_cases hkey : k ∈ keys
  · exact h.shut k hkey
  · rw [h.others k hkey]
    exact ho k (hsame ▸ hk)

theorem sealAll_sealing (hw : w.Willing) (h : t.Ordered) :
    ∃ t' sealed, t.sealAll w = ⟨t', sealed, none⟩ ∧ Sealing t t' t.order ∧
      (∀ k, (t'.lanes k).opened = none) ∧
      ∀ k, t'.stream k = t.stream k ++ charsOf (t.lanes k).prose := by
  obtain ⟨t', sealed, heq, hs⟩ := sealLanes_sealing hw t t.order
  refine ⟨t', sealed, heq, hs, fun k => ?_, fun k => ?_⟩
  · by_cases hk : k ∈ t.order
    · exact (hs.shut k hk).1
    · rw [hs.others k hk]
      exact (h k hk).1
  · rw [hs.stream]
    by_cases hk : k ∈ t.order
    · rw [if_pos hk]
    · rw [if_neg hk, (h k hk).2, charsOf_empty]

/-! ## What arrives in a lane -/

/-- A lane's carry where the lane given is sealed. -/
def settled (t : Turn) (key k : String) : List Piece :=
  if k = key then charsOf (t.lanes key).prose else []

/-- A delta, behind its lane's carry where it opens an entry of its own. -/
def streamed (t : Turn) (key say delta : String) (kind : StreamKind) (k : String) : List Piece :=
  if k = key then
    (if (t.lanes key).takes say kind then [] else charsOf (t.lanes key).prose) ++ charsOf delta
  else []

/-- An entry of one lane, behind that lane's carry. -/
def filed (t : Turn) (key : String) (p : Payload) (k : String) : List Piece :=
  if k = key then charsOf (t.lanes key).prose ++ [.own p] else []

/-- An entry of no lane, behind every lane's carry. -/
def filedAll (t : Turn) (p : Payload) (k : String) : List Piece :=
  charsOf (t.lanes k).prose ++ [.own p]

/-- What an operation brings a lane's stream. -/
def arrivals (w : World) (t : Turn) (op : Op) (k : String) : List Piece :=
  if t.closed then []
  else match op with
    | .textDelta key say delta => streamed t key say delta .text k
    | .thinkingDelta key say delta => streamed t key say delta .thinking k
    | .setSteerCarry _ _ _ => []
    | .sealLane key => settled t key k
    | .toolCall key call => filed t key (.toolCall call) k
    | .invocation issuerLane delegateID call =>
      filed t issuerLane (.toolCall { call with agentSubtaskID := delegateID }) k
    | .toolResult updateLane callID res =>
      filed t (((t.callOf callID).map OpenCall.lane).getD updateLane) (.toolResult res) k
    | .steerAck key steerID text => filed t key (.steerAck { steerID := steerID, text := text }) k
    | .steerInLane key _ steer => filed t key (.steer steer) k
    | .steer _ steer => filedAll t (.steer steer) k
    | .compaction summary _ => filedAll t (.compaction { summary := summary }) k
    | .turnBind bind => filedAll t (.turnBind bind) k
    | .compactionFailed reason => filedAll t (.compactionFailed { reason := reason }) k
    | .safetyBlocked properties => filedAll t (.safetyBlocked { properties := properties }) k
    | .modelSwitched p => filedAll t (.modelSwitched p) k
    | .modeSwitched p => filedAll t (.modeSwitched p) k
    | .plan plan => if t.plan = some plan then [] else filedAll t (.plan plan) k
    | .close footer =>
      charsOf (t.lanes k).prose ++
        (t.calls.filter (·.lane = k)).map (fun _ => .own (.toolResult { status := .aborted })) ++
        [.own (.turnClose (footer (t.sealAll w).turn.emitted))]

/-! ## What each operation leaves -/

/-- A laned entry that goes through: its lane sealed, the entry behind it. -/
theorem laned_willing (hw : w.Willing) (hopen : t.closed = false) (key id : String) (p : Payload)
    (after : Turn → Turn) : ∃ t₁ sealed, Sealing t t₁ [key] ∧ t.laned w key id p after =
      ⟨after { t₁.taking ⟨t₁.entry key id p, false⟩ with emitted := true }, sealed, none⟩ := by
  obtain ⟨t₁, sealed, heq, hs⟩ := sealLane_sealing hw t key
  rcases Turn.append_cases w t₁ false key id p with ⟨-, happ⟩ | ⟨hno, -⟩
  · refine ⟨t₁, sealed ++ [{ entry := t₁.entry key id p }], hs, ?_⟩
    unfold Turn.laned
    simp only [hopen, Bool.false_eq_true, if_false, heq, happ]
  · rw [hw] at hno
    cases hno

/-- A lane-less entry that goes through: every lane sealed, the entry behind them. -/
theorem laneless_willing (hw : w.Willing) (ho : t.Ordered) (hopen : t.closed = false) (id : String)
    (p : Payload) : ∃ t₁ sealed, Sealing t t₁ t.order ∧ (∀ k, (t₁.lanes k).opened = none) ∧
      (∀ k, t₁.stream k = t.stream k ++ charsOf (t.lanes k).prose) ∧
      t.laneless w id p = ⟨t₁.taking ⟨t₁.entry "" id p, true⟩, sealed, none⟩ := by
  obtain ⟨t₁, sealed, heq, hs, hshut, hstream⟩ := sealAll_sealing hw ho
  rcases Turn.append_cases w t₁ true "" id p with ⟨-, happ⟩ | ⟨hno, -⟩
  · refine ⟨t₁, sealed ++ [{ entry := t₁.entry "" id p }], hs, hshut, hstream, ?_⟩
    unfold Turn.laneless
    simp only [hopen, Bool.false_eq_true, if_false, heq, happ]
  · rw [hw] at hno
    cases hno

/-- A delta that goes through: it extends what is open, or opens an entry behind the seal. -/
theorem delta_willing (hw : w.Willing) (hopen : t.closed = false) (key say delta : String)
    (kind : StreamKind) :
    ((t.lanes key).takes say kind = true ∧ t.delta w key say delta kind =
      { turn := (t.laneOf key).setLane key ((t.lanes key).extend delta) }) ∨
    ((t.lanes key).takes say kind = false ∧ ∃ t₁ sealed, Sealing (t.laneOf key) t₁ [key] ∧
      t.delta w key say delta kind =
        { turn := (t₁.openEntry key kind say delta).1, sealed := sealed }) := by
  obtain ⟨t₁, sealed, heq, hs⟩ := sealLane_sealing hw (t.laneOf key) key
  unfold Turn.delta
  simp only [hopen, Bool.false_eq_true, if_false, Turn.laneOf_lanes, heq]
  cases htakes : (t.lanes key).takes say kind with
  | true => exact .inl ⟨rfl, rfl⟩
  | false => exact .inr ⟨rfl, t₁, sealed, hs, rfl⟩

/-- The aborted result of a call. -/
def abortedFor (t : Turn) (call : OpenCall) : Filed :=
  ⟨t.entry call.lane (toolResultID call.id) (.toolResult { status := .aborted }), false⟩

/-- Aborting every call of a turn files their results in order and settles them all. -/
theorem abortCalls_willing (hw : w.Willing) (t : Turn) (calls : List OpenCall) :
    ∃ sealed, t.abortCalls w calls =
      ⟨{ t with
          handed := t.handed + calls.length
          appended := t.appended ++ calls.map (abortedFor t)
          calls := t.calls.filter (fun c => c.id ∉ calls.map OpenCall.id) }, sealed, none⟩ := by
  induction calls generalizing t with
  | nil => exact ⟨[], by simp [Turn.abortCalls]⟩
  | cons call calls ih =>
    rcases Turn.append_cases w t false call.lane (toolResultID call.id)
      (.toolResult { status := .aborted }) with ⟨-, happ⟩ | ⟨hno, -⟩
    · obtain ⟨sealed, heq⟩ := ih ((t.taking (abortedFor t call)).settleCall call.id)
      refine ⟨{ entry := (abortedFor t call).entry } :: sealed, ?_⟩
      have hcalls : ((t.taking (abortedFor t call)).settleCall call.id).calls.filter
          (fun c => c.id ∉ calls.map OpenCall.id) =
            t.calls.filter (fun c => c.id ∉ (call :: calls).map OpenCall.id) := by
        simp only [Turn.settleCall, Turn.taking, List.filter_filter]
        apply List.filter_congr
        intro c _
        by_cases hc : c.id = call.id <;> simp [hc]
      have habort : ∀ c, abortedFor ((t.taking (abortedFor t call)).settleCall call.id) c =
          abortedFor t c := fun c => rfl
      rw [hcalls] at heq
      simp only [Turn.abortCalls, happ]
      rw [abortedFor] at heq
      rw [heq]
      simp [Turn.settleCall, Turn.taking, abortedFor, Turn.entry, Nat.add_assoc,
        Nat.add_comm 1, List.append_assoc]
    · rw [hw] at hno
      cases hno

/-! ## One operation -/

/-- What an operation leaves of the lanes' streams, and of the lanes not yet seen. -/
structure Arrived (t : Turn) (f : String → List Piece) (t' : Turn) : Prop where
  stream : ∀ k, t'.stream k = t.stream k ++ f k
  ordered : t'.Ordered

theorem Arrived.idle (h : t'.appended = t.appended) (hheld : ∀ k, (t'.lanes k).held = (t.lanes k).held)
    (ho : t'.Ordered) : Arrived t (fun _ => []) t' where
  stream k := by rw [Turn.stream_congr h (hheld k), List.append_nil]
  ordered := ho

theorem Turn.mem_laneOf (t : Turn) (key : String) : key ∈ (t.laneOf key).order := by
  unfold Turn.laneOf
  split
  · assumption
  · simp

theorem Turn.laneOf_subset (t : Turn) (key : String) : t.order ⊆ (t.laneOf key).order := by
  unfold Turn.laneOf
  split
  · exact List.Subset.refl _
  · exact List.subset_append_left _ _

theorem Turn.Ordered.laneOf (h : t.Ordered) (key : String) : (t.laneOf key).Ordered := by
  intro k hk
  rw [Turn.laneOf_lanes]
  exact h k fun hmem => hk (Turn.laneOf_subset t key hmem)

/-- Writing a lane the turn has seen. -/
theorem Turn.Ordered.setLane (h : t.Ordered) (hkey : key ∈ t.order) (l : Lane) :
    (t.setLane key l).Ordered := by
  intro k hk
  have hne : k ≠ key := by
    rintro rfl
    exact hk hkey
  rw [Turn.setLane_of_ne _ hne]
  exact h k hk

theorem Turn.laneOf_stream (t : Turn) (key k : String) : (t.laneOf key).stream k = t.stream k :=
  Turn.stream_congr (Turn.laneOf_appended t key) (by rw [Turn.laneOf_lanes])

theorem arrived_setSteerCarry (ho : t.Ordered) (key say carry : String) :
    Arrived t (fun _ => []) (t.setSteerCarry key say carry).turn := by
  unfold Turn.setSteerCarry
  apply Arrived.idle
  · exact Turn.laneOf_appended t key
  · intro k
    by_cases hk : k = key
    · subst hk
      simp [Lane.held]
    · simp [Turn.setLane_of_ne _ hk]
  · exact (ho.laneOf key).setLane (Turn.mem_laneOf t key) _

theorem arrived_delta (hw : w.Willing) (ho : t.Ordered) (hopen : t.closed = false)
    (key say delta : String) (kind : StreamKind) :
    Arrived t (streamed t key say delta kind) (t.delta w key say delta kind).turn := by
  rcases delta_willing hw hopen key say delta kind with ⟨htakes, heq⟩ | ⟨htakes, t₁, sealed, hs, heq⟩
  · rw [heq]
    refine ⟨fun k => ?_, (ho.laneOf key).setLane (Turn.mem_laneOf t key) _⟩
    by_cases hk : k = key
    · subst hk
      have happended : ((t.laneOf k).setLane k ((t.lanes k).extend delta)).written k = t.written k := by
        rw [Turn.written, Turn.written]
        change ((t.laneOf k).appended.filter _).flatMap _ = _
        rw [Turn.laneOf_appended]
      rw [Turn.stream, happended, Turn.setLane_self, Lane.held_extend htakes, streamed, if_pos rfl,
        if_pos htakes, Turn.stream]
      simp
    · rw [streamed, if_neg hk, List.append_nil]
      change ((t.laneOf key).setLane key ((t.lanes key).extend delta)).stream k = t.stream k
      have hsame : ((t.laneOf key).setLane key ((t.lanes key).extend delta)).appended =
          t.appended := Turn.laneOf_appended t key
      apply Turn.stream_congr hsame
      rw [Turn.setLane_of_ne _ hk, Turn.laneOf_lanes]
  · rw [heq]
    obtain ⟨l, o, minted, hentry, hl, -, htext⟩ := openEntry_spec t₁ key kind say delta
    rw [hentry]
    have hkey : key ∈ t₁.order := by
      have hsame : t₁.order = (t.laneOf key).order := by rw [hs.rest]
      rw [hsame]
      exact Turn.mem_laneOf t key
    refine ⟨fun k => ?_, Turn.Ordered.setLane (hs.ordered (ho.laneOf key)) hkey _⟩
    have hsealed := hs.stream k
    rw [Turn.laneOf_stream, Turn.laneOf_lanes] at hsealed
    have hwritten : t₁.written k = t₁.stream k ∨ k ≠ key := by
      by_cases hk : k = key
      · apply Or.inl
        rw [Turn.stream, Lane.held_of_none (hs.shut k (by simp [hk])).1]
        simp
      · exact .inr hk
    by_cases hk : k = key
    · subst hk
      have hnow : t₁.written k = t₁.stream k := hwritten.resolve_right fun hne => hne rfl
      change t₁.written k ++ charsOf (Function.update t₁.lanes k l k).held = _
      rw [hnow, hsealed, Function.update_self, Lane.held, hl, streamed, if_pos rfl, htakes]
      simp [htext]
    · change t₁.written k ++ charsOf (Function.update t₁.lanes key l k).held = _
      rw [Function.update_of_ne hk, ← Turn.stream, hsealed, streamed, if_neg hk]
      simp [hk]

theorem arrived_sealLane (hw : w.Willing) (ho : t.Ordered) (key : String) :
    Arrived t (settled t key) (t.sealLane w key).turn := by
  obtain ⟨t₁, sealed, heq, hs⟩ := sealLane_sealing hw t key
  rw [heq]
  refine ⟨fun k => ?_, hs.ordered ho⟩
  rw [hs.stream, settled]
  by_cases hk : k = key <;> simp [hk]

theorem arrived_laned (hw : w.Willing) (ho : t.Ordered) (hopen : t.closed = false)
    (key id : String) {p : Payload} (hp : saidBy p = none) {after : Turn → Turn}
    (hafter : ∀ t, (after t).appended = t.appended ∧ (after t).lanes = t.lanes ∧
      (after t).order = t.order) :
    Arrived t (filed t key p) (t.laned w key id p after).turn := by
  obtain ⟨t₁, sealed, hs, heq⟩ := laned_willing hw hopen key id p after
  rw [heq]
  obtain ⟨happended, hlanes, horder⟩ :=
    hafter { t₁.taking ⟨t₁.entry key id p, false⟩ with emitted := true }
  constructor
  · intro k
    rw [Turn.stream_congr happended (by rw [hlanes])]
    change (t₁.taking ⟨t₁.entry key id p, false⟩).stream k = _
    rw [Turn.stream_taking, hs.stream, filed]
    · by_cases hk : k = key
      · simp [hk, Filed.inLane, Turn.entry, piecesOf, hp]
      · simp [hk, Ne.symm hk, Filed.inLane, Turn.entry]
    · intro hin
      have hk : key = k := of_decide_eq_true (p := key = k) hin
      exact (hs.shut k (by simp [hk])).1
  · intro k hk
    rw [horder] at hk
    rw [hlanes]
    exact hs.ordered ho k hk

theorem arrived_laneless (hw : w.Willing) (ho : t.Ordered) (hopen : t.closed = false) (id : String)
    {p : Payload} (hp : saidBy p = none) :
    Arrived t (filedAll t p) (t.laneless w id p).turn := by
  obtain ⟨t₁, sealed, hs, hshut, hstream, heq⟩ := laneless_willing hw ho hopen id p
  rw [heq]
  refine ⟨fun k => ?_, hs.ordered ho⟩
  rw [Turn.stream_taking fun _ => hshut k, hstream, filedAll]
  simp [Filed.inLane, Turn.entry, piecesOf, hp]

theorem arrived_minted (hw : w.Willing) (ho : t.Ordered) (hopen : t.closed = false) {p : Payload}
    (hp : saidBy p = none) : Arrived t (filedAll t p) (t.lanelessMinted w p).turn := by
  obtain ⟨hstream, hordered⟩ :=
    arrived_laneless (t := t.mintID.1) hw ho hopen t.mintID.2 hp
  exact ⟨hstream, hordered⟩

theorem arrived_plan (hw : w.Willing) (ho : t.Ordered) (hopen : t.closed = false) (plan : EntryPlan) :
    Arrived t (fun k => if t.plan = some plan then [] else filedAll t (.plan plan) k)
      (t.planState w plan).turn := by
  unfold Turn.planState
  split
  · rename_i hsame
    exact ⟨fun k => by simp, ho⟩
  · rename_i hnew
    have harr := arrived_minted hw ho hopen (p := .plan plan) rfl
    generalize t.lanelessMinted w (.plan plan) = out at harr
    rcases out with ⟨t₁, sealed, none | err⟩
    · exact ⟨harr.stream, harr.ordered⟩
    · exact ⟨harr.stream, harr.ordered⟩

/-- What a close leaves: every lane sealed, the aborted results, and the turn_close. -/
theorem close_willing (hw : w.Willing) (ho : t.Ordered) (hopen : t.closed = false)
    (footer : Bool → EntryTurnClose) : ∃ t₁ last, Sealing t t₁ t.order ∧
      (∀ k, (t₁.lanes k).opened = none) ∧
      (∀ k, t₁.stream k = t.stream k ++ charsOf (t.lanes k).prose) ∧
      last.entry.payload = .turnClose (footer (t.sealAll w).turn.emitted) ∧ last.laneless = true ∧
      (t.close w footer).turn.appended = t₁.appended ++ t.calls.map (abortedFor t₁) ++ [last] ∧
      (t.close w footer).turn.lanes = t₁.lanes ∧ (t.close w footer).turn.order = t.order ∧
      (t.close w footer).turn.closed = true ∧ (t.close w footer).turn.calls = [] ∧
      (t.close w footer).err = none := by
  obtain ⟨t₁, sealed, heq, hs, hshut, hstream⟩ := sealAll_sealing hw ho
  have hcalls : t₁.calls = t.calls := by rw [hs.rest]
  have horder : t₁.order = t.order := by rw [hs.rest]
  obtain ⟨aborted, habort⟩ := abortCalls_willing hw t₁ t₁.calls
  have hnone : t₁.calls.filter (fun c => c.id ∉ t₁.calls.map OpenCall.id) = [] := by
    rw [List.filter_eq_nil_iff]
    intro c hc
    simpa using ⟨c, hc, rfl⟩
  rw [hnone, hcalls] at habort
  rcases Turn.append_cases w (({ t₁ with
      handed := t₁.handed + t.calls.length
      appended := t₁.appended ++ t.calls.map (abortedFor t₁)
      calls := [] } : Turn).mintID.1) true "" (mintedID t₁.id (t₁.minted + 1))
      (.turnClose (footer t₁.emitted)) with ⟨-, happ⟩ | ⟨hno, -⟩
  · have hclose : (t.close w footer).err = none ∧ (t.close w footer).turn = { ({ t₁ with
        handed := t₁.handed + t.calls.length
        appended := t₁.appended ++ t.calls.map (abortedFor t₁)
        calls := [] } : Turn).mintID.1.taking
          ⟨t₁.entry "" (mintedID t₁.id (t₁.minted + 1)) (.turnClose (footer t₁.emitted)), true⟩
            with closed := true } := by
      unfold Turn.close
      simp only [hopen, Bool.false_eq_true, if_false, heq, hcalls, habort]
      erw [happ]
      exact ⟨rfl, rfl⟩
    rw [hclose.2, heq]
    exact ⟨t₁, ⟨t₁.entry "" (mintedID t₁.id (t₁.minted + 1)) (.turnClose (footer t₁.emitted)), true⟩,
      hs, hshut, hstream, rfl, rfl, rfl, rfl, horder, rfl, rfl, hclose.1⟩
  · rw [hw] at hno
    cases hno

theorem arrived_close (hw : w.Willing) (ho : t.Ordered) (hopen : t.closed = false)
    (footer : Bool → EntryTurnClose) : Arrived t (fun k => charsOf (t.lanes k).prose ++
        (t.calls.filter (·.lane = k)).map (fun _ => .own (.toolResult { status := .aborted })) ++
        [.own (.turnClose (footer (t.sealAll w).turn.emitted))]) (t.close w footer).turn := by
  obtain ⟨t₁, last, hs, hshut, hstream, hlast, hall, happended, hlanes, horder, -⟩ :=
    close_willing hw ho hopen footer
  generalize (t.close w footer).turn = t₂ at happended hlanes horder
  constructor
  · intro k
    have hheld : (t₂.lanes k).held = "" := Lane.held_of_none (by rw [hlanes]; exact hshut k)
    have hbefore : t₁.stream k = t₁.written k := by
      rw [Turn.stream, Lane.held_of_none (hshut k)]
      simp
    have hresults : ((t.calls.map (abortedFor t₁)).filter (·.inLane k)).flatMap
        (fun f => piecesOf f.entry.payload) =
          (t.calls.filter (·.lane = k)).map (fun _ => .own (.toolResult { status := .aborted })) := by
      rw [List.filter_map, List.flatMap_map]
      have hlane : t.calls.filter ((·.inLane k) ∘ abortedFor t₁) = t.calls.filter (·.lane = k) := by
        exact List.filter_congr fun c _ => rfl
      rw [hlane]
      exact List.flatMap_pure_eq_map _ _
    have hclose : last.inLane k = true := by simp [Filed.inLane, hall]
    rw [← List.append_assoc, ← List.append_assoc, ← hstream k, hbefore]
    change t₂.written k ++ charsOf (t₂.lanes k).held = _
    rw [hheld, Turn.written, happended, List.filter_append, List.filter_append, List.flatMap_append,
      List.flatMap_append, hresults]
    simp [hclose, piecesOf, hlast, saidBy, Turn.written]
  · intro k hk
    rw [horder] at hk
    rw [hlanes]
    exact hs.ordered ho k (by rwa [show t₁.order = t.order by rw [hs.rest]])

end Marotte.TurnLog
