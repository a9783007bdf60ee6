import Mathlib.Data.List.Nodup
import Mathlib.Data.List.Perm.Subperm
import Mathlib.Logic.Relation
import Marotte.Projection.Model

/-! # What may happen to the newest turn

Every frame is a sequence of a few steps on the newest turn: a delta, a sealed lane, a call, a
result, a placed entry, a closer. The invariants of a turn are stated and kept step by step.
-/
namespace Marotte.Projection

/-- A row of a turn without its payload: what no rewritten payload changes. -/
structure Row where
  kind : EntryKind
  id : String
  lane : String
  turn : String
  deriving DecidableEq

def row (e : Entry) : Row where
  kind := e.kind
  id := e.id
  lane := e.lane
  turn := e.turn

def isSay (k : EntryKind) : Bool := k = .text || k = .thinking

def isBracket (k : EntryKind) : Bool := k = .turnOpen || k = .turnClose

/-- The ids that a turn's frames named for entries other than says. -/
def namesOf : List Landing → List String
  | [] => []
  | .call id :: landed => id :: toolResultID id :: namesOf landed
  | .steer id :: landed | .compaction id :: landed => id :: namesOf landed
  | .say .. :: landed => namesOf landed

/-- The says that a turn's deltas were for. -/
def saysOf : List Landing → List String
  | [] => []
  | .say id _ _ _ :: landed => id :: saysOf landed
  | _ :: landed => saysOf landed

/-- A say's deltas, in order. -/
def deltasOf (say : String) : List Landing → List Char
  | [] => []
  | .say id _ _ delta :: landed =>
    if id = say then delta ++ deltasOf say landed else deltasOf say landed
  | _ :: landed => deltasOf say landed

/-- All of a say's deltas came in one lane. -/
def OneLane (say : String) (landed : List Landing) : Prop :=
  ∀ lane lane' kind kind' delta delta', .say say lane kind delta ∈ landed →
    .say say lane' kind' delta' ∈ landed → lane = lane'

/-- All of a say's deltas were thinking ones. -/
def Thought (say : String) (landed : List Landing) : Prop :=
  ∀ lane kind delta, .say say lane kind delta ∈ landed → kind = .thinking

theorem namesOf_append (l l' : List Landing) : namesOf (l ++ l') = namesOf l ++ namesOf l' := by
  induction l with
  | nil => rfl
  | cons a l ih => cases a <;> simp [namesOf, ih]

theorem saysOf_append (l l' : List Landing) : saysOf (l ++ l') = saysOf l ++ saysOf l' := by
  induction l with
  | nil => rfl
  | cons a l ih => cases a <;> simp [saysOf, ih]

theorem deltasOf_append (say : String) (l l' : List Landing) :
    deltasOf say (l ++ l') = deltasOf say l ++ deltasOf say l' := by
  induction l with
  | nil => rfl
  | cons a l ih =>
    cases a with
    | say id lane kind delta =>
      simp only [List.cons_append, deltasOf, ih]
      split
      · rw [List.append_assoc]
      · rfl
    | _ => simpa [deltasOf] using ih

theorem mem_saysOf {say : String} {landed : List Landing} :
    say ∈ saysOf landed ↔ ∃ lane kind delta, .say say lane kind delta ∈ landed := by
  induction landed with
  | nil => simp [saysOf]
  | cons a landed ih =>
    cases a with
    | say id lane kind delta =>
      simp only [saysOf, List.mem_cons, ih, Landing.say.injEq]
      constructor
      · rintro (rfl | ⟨lane', kind', delta', h⟩)
        · exact ⟨lane, kind, delta, .inl ⟨rfl, rfl, rfl, rfl⟩⟩
        · exact ⟨lane', kind', delta', .inr h⟩
      · rintro ⟨lane', kind', delta', ⟨rfl, _⟩ | h⟩
        · exact .inl rfl
        · exact .inr ⟨lane', kind', delta', h⟩
    | _ => simpa [saysOf] using ih

theorem OneLane.of_append {say : String} {l l' : List Landing} (h : OneLane say (l ++ l')) :
    OneLane say l :=
  fun lane lane' kind kind' delta delta' hm hm' =>
    h lane lane' kind kind' delta delta' (List.mem_append_left _ hm) (List.mem_append_left _ hm')

theorem Thought.of_append {say : String} {l l' : List Landing} (h : Thought say (l ++ l')) :
    Thought say l :=
  fun lane kind delta hm => h lane kind delta (List.mem_append_left _ hm)

namespace NewestTurn

variable {env : Env} {named : String → Prop} {p q : NewestTurn}

def rows (p : NewestTurn) : List Row := p.cur.map row

/-- The ids that frames name are none that the generator mints, and it mints none twice. -/
structure Fresh (env : Env) (named : String → Prop) : Prop where
  mints : Function.Injective env.newID
  named : ∀ id, named id → ∀ k, env.newID k ≠ id

/-- Where a say's id comes from: an earlier delta, a frame, or a fresh mint. -/
def Origin (env : Env) (named : String → Prop) (p : NewestTurn) (say : String) : Prop :=
  say ∈ saysOf p.landed ∨ named say ∨
    (∃ k < p.minted, env.newID k = say) ∧ say ∉ p.rows.map Row.id

/-- What may happen to the newest turn. -/
inductive Step (env : Env) (named : String → Prop) : NewestTurn → NewestTurn → Prop
  | aside (p : NewestTurn) (lane : String) (facts : ProjectedFacts) (compactAt : Option ℕ)
      (h : ∀ c, compactAt = some c → 0 < c) : Step env named p { p with lane, facts, compactAt }
  | mint (p : NewestTurn) : Step env named p { p with minted := p.minted + 1 }
  | delta (p : NewestTurn) (kind : SayKind) (lane say : String) (ts : ℤ) (delta : List Char)
      (hheld : ∀ h, p.heldSay lane = some h → h.id = say ∧ h.kind = kind)
      (horigin : Fresh env named → Origin env named p say) :
      Step env named p (p.addDelta kind lane say ts delta)
  | sealed (p : NewestTurn) (lane : String) : Step env named p (p.sealLane lane)
  | call (p : NewestTurn) (id lane : String) (ts : ℤ) (c : EntryToolCall) (hid : named id)
      (hresult : named (toolResultID id)) :
      Step env named p
        (((p.land (.call id)).trackCall id lane).appendEntry id lane ts (.toolCall c))
  | result (p : NewestTurn) (id lane : String) (ts : ℤ) (r : EntryToolResult)
      (h : p.calls id = some lane) :
      Step env named p ((p.settleCall id).appendEntry (toolResultID id) lane ts (.toolResult r))
  | steer (p : NewestTurn) (id : String) (ts : ℤ) (s : EntrySteer) (hid : named id) :
      Step env named p ((p.land (.steer id)).appendEntry id "" ts (.steer s))
  | compaction (p : NewestTurn) (id : String) (pos : ℕ) (ts : ℤ) (c : EntryCompaction)
      (hid : named id) (hpos : 0 < pos) (hlen : pos ≤ p.cur.length) :
      Step env named p ((p.land (.compaction id)).insertEntry pos id "" ts (.compaction c))
  | close (p : NewestTurn) (c : EntryTurnClose) (h : p.closed = false) :
      Step env named p ({ p with closed := true, minted := p.minted + 1 }.appendEntry
        (env.newID p.minted) "" 0 (.turnClose c))

/-! ## The rows -/

theorem row_withText (e : Entry) (text : List Char) :
    row { e with payload := Payload.withText text e.payload } = row e := by
  cases hp : e.payload <;> simp [row, Entry.kind, hp, Payload.withText, Payload.kind]

theorem map_modify {α β : Type*} {f : α → α} {g : α → β} (h : ∀ a, g (f a) = g a) (l : List α)
    (i : ℕ) : (l.modify i f).map g = l.map g := by
  induction l generalizing i with
  | nil => simp
  | cons a l ih =>
    cases i with
    | zero => simp [h]
    | succ i => simp [ih]

@[simp] theorem rows_land (l : Landing) : (p.land l).rows = p.rows := rfl

@[simp] theorem rows_setCarry (lane say : String) (held : List Char) :
    (p.setCarry lane say held).rows = p.rows := rfl

@[simp] theorem rows_settleCall (id : String) : (p.settleCall id).rows = p.rows := rfl

@[simp] theorem rows_trackCall (id lane : String) : (p.trackCall id lane).rows = p.rows := by
  unfold trackCall
  split <;> rfl

theorem rows_rewritePayload (pos : ℕ) (text : List Char) :
    (p.rewritePayload pos text).rows = p.rows :=
  map_modify (fun e => row_withText e text) _ _

theorem rows_insertEntry (pos : ℕ) (id lane : String) (ts : ℤ) (payload : Payload) :
    (p.insertEntry pos id lane ts payload).rows =
      p.rows.insertIdx pos { kind := payload.kind, id, lane, turn := p.curID } := by
  simp only [rows, insertEntry, List.map_insertIdx]
  rfl

theorem rows_appendEntry (id lane : String) (ts : ℤ) (payload : Payload) :
    (p.appendEntry id lane ts payload).rows =
      p.rows ++ [{ kind := payload.kind, id, lane, turn := p.curID }] := by
  rw [appendEntry, rows_insertEntry]
  have hlen : p.cur.length = p.rows.length := by simp [rows]
  rw [hlen, List.insertIdx_length_self]

/-- The fields that the entries of a say do not touch. -/
def Kept (p q : NewestTurn) : Prop :=
  q.curID = p.curID ∧ q.carry = p.carry ∧ q.calls = p.calls ∧ q.callOrder = p.callOrder ∧
    q.closed = p.closed ∧ q.minted = p.minted ∧ q.landed = p.landed ∧ q.compactAt = p.compactAt

theorem extendSay_kept (kind : SayKind) (id lane : String) (ts : ℤ) (delta : List Char) :
    Kept p (p.extendSay kind id lane ts delta) := by
  unfold extendSay
  dsimp only
  split <;> exact ⟨rfl, rfl, rfl, rfl, rfl, rfl, rfl, rfl⟩

/-- A delta's entry is in the rows already, or is appended to them. -/
theorem extendSay_rows (kind : SayKind) (id lane : String) (ts : ℤ) (delta : List Char) :
    (∃ pos, p.sayAt id = some pos) ∧ (p.extendSay kind id lane ts delta).rows = p.rows ∨
      p.sayAt id = none ∧ (p.extendSay kind id lane ts delta).rows =
        p.rows ++ [{ kind := (payloadForSay kind delta).kind, id, lane, turn := p.curID }] := by
  unfold extendSay
  dsimp only
  split
  · next pos hpos =>
    left
    exact ⟨⟨pos, hpos⟩, rows_rewritePayload _ _⟩
  · next hnone =>
    right
    exact ⟨hnone, rows_appendEntry (p := { p with laneOpen := _ }) _ _ _ _⟩

theorem payloadForSay_kind (kind : SayKind) (text : List Char) :
    isSay (payloadForSay kind text).kind = true := by
  cases kind <;> rfl

/-- A sealed lane loses its tail, and the tail is dropped or goes into its say. -/
theorem sealLane_cases (lane : String) :
    p.sealLane lane = (p.setCarry lane "" []).closeLane lane ∧
      (∀ c, Keyed.find Carry.lane p.carry lane = some c → steerAckPrefix <+: c.held) ∨
    ∃ c, Keyed.find Carry.lane p.carry lane = some c ∧ ¬ steerAckPrefix <+: c.held ∧
      p.sealLane lane =
        ((p.setCarry lane "" []).extendSay .text c.say lane 0 c.held).closeLane lane := by
  unfold sealLane
  cases hf : Keyed.find Carry.lane p.carry lane with
  | none =>
    left
    exact ⟨rfl, by simp⟩
  | some c =>
    by_cases hp : steerAckPrefix <+: c.held
    · left
      have hpre := List.isPrefixOf_iff_prefix.mpr hp
      simp only [hpre, if_true]
      refine ⟨trivial, ?_⟩
      rintro c' ⟨⟩
      exact hp
    · right
      have hpre : steerAckPrefix.isPrefixOf c.held = false := by
        rw [Bool.eq_false_iff]
        exact fun h => hp (List.isPrefixOf_iff_prefix.mp h)
      exact ⟨c, rfl, hp, by simp [hpre]⟩

/-! ## Brackets -/

/-- One turn_open, first; one turn_close when the turn is closed; one turn id. -/
structure Bracketed (p : NewestTurn) : Prop where
  opens : ∃ o rest, p.rows = o :: rest ∧ o.kind = .turnOpen ∧ o.id = p.curID ∧
    ∀ r ∈ rest, r.kind ≠ .turnOpen
  turn : ∀ r ∈ p.rows, r.turn = p.curID
  closes : (p.rows.filter (·.kind = .turnClose)).length = if p.closed then 1 else 0
  compact : ∀ c, p.compactAt = some c → 0 < c

namespace Bracketed

theorem same (h : p.Bracketed) (hr : q.rows = p.rows) (hi : q.curID = p.curID)
    (hc : q.closed = p.closed) (hs : ∀ c, q.compactAt = some c → 0 < c) : q.Bracketed where
  opens := by
    rw [hr, hi]
    exact h.opens
  turn := by
    rw [hr, hi]
    exact h.turn
  closes := by
    rw [hr, hc]
    exact h.closes
  compact := hs

/-- An entry past the turn_open, that is no bracket or is the one turn_close. -/
theorem insert (h : p.Bracketed) {r : Row} {pos : ℕ} (hr : q.rows = p.rows.insertIdx pos r)
    (hpos : 0 < pos) (hlen : pos ≤ p.rows.length) (hi : q.curID = p.curID)
    (ht : r.turn = p.curID) (hk : r.kind ≠ .turnOpen)
    (hc : r.kind ≠ .turnClose ∧ q.closed = p.closed ∨
      r.kind = .turnClose ∧ p.closed = false ∧ q.closed = true)
    (hs : q.compactAt = p.compactAt) : q.Bracketed where
  opens := by
    obtain ⟨o, rest, hrows, ho, hid, hrest⟩ := h.opens
    obtain ⟨n, rfl⟩ : ∃ n, pos = n + 1 := ⟨pos - 1, by omega⟩
    refine ⟨o, rest.insertIdx n r, ?_, ho, hi ▸ hid, fun r' hr' => ?_⟩
    · rw [hr, hrows, List.insertIdx_succ_cons]
    · rcases List.eq_or_mem_of_mem_insertIdx hr' with rfl | hm
      · exact hk
      · exact hrest r' hm
  turn := by
    intro r' hr'
    rw [hr] at hr'
    rw [hi]
    rcases List.eq_or_mem_of_mem_insertIdx hr' with rfl | hm
    · exact ht
    · exact h.turn r' hm
  closes := by
    have hperm := (List.perm_insertIdx r p.rows hlen).filter (·.kind = .turnClose)
    rw [hr, hperm.length_eq]
    rcases hc with ⟨hne, hq⟩ | ⟨he, hp, hq⟩
    · rw [List.filter_cons_of_neg (by simpa using hne), hq]
      exact h.closes
    · rw [List.filter_cons_of_pos (by simpa using he), List.length_cons, h.closes, hp, hq]
      rfl
  compact := hs ▸ h.compact

theorem pos (h : p.Bracketed) : 0 < p.rows.length := by
  obtain ⟨o, rest, hrows, _⟩ := h.opens
  simp [hrows]

/-- An appended entry that is no bracket. -/
theorem append (h : p.Bracketed) {id lane : String} {ts : ℤ} {payload : Payload}
    (hk : isBracket payload.kind = false) : (p.appendEntry id lane ts payload).Bracketed := by
  have hne : payload.kind ≠ .turnOpen ∧ payload.kind ≠ .turnClose := by simpa [isBracket] using hk
  apply h.insert (rows_insertEntry p.cur.length id lane ts payload)
  · simpa [rows] using h.pos
  · simp [rows]
  · rfl
  · rfl
  · exact hne.1
  · exact .inl ⟨hne.2, rfl⟩
  · rfl

theorem extendSay (h : p.Bracketed) (kind : SayKind) (id lane : String) (ts : ℤ)
    (delta : List Char) : (p.extendSay kind id lane ts delta).Bracketed := by
  obtain ⟨hi, _, _, _, hc, _, _, hs⟩ := p.extendSay_kept kind id lane ts delta
  rcases p.extendSay_rows kind id lane ts delta with ⟨_, hr⟩ | ⟨_, hr⟩
  · exact h.same hr hi hc (hs ▸ h.compact)
  · have hk := payloadForSay_kind kind delta
    apply h.insert (hr.trans List.insertIdx_length_self.symm) h.pos le_rfl
      hi rfl
    · cases kind <;> simp [payloadForSay, Payload.kind]
    · left
      exact ⟨by cases kind <;> simp [payloadForSay, Payload.kind], hc⟩
    · exact hs

theorem sealLane (h : p.Bracketed) (lane : String) : (p.sealLane lane).Bracketed := by
  have hset : (p.setCarry lane "" []).Bracketed := h.same rfl rfl rfl h.compact
  rcases p.sealLane_cases lane with ⟨he, _⟩ | ⟨c, _, _, he⟩
  · rw [he]
    exact hset.same rfl rfl rfl hset.compact
  · rw [he]
    have hext := hset.extendSay .text c.say lane 0 c.held
    exact hext.same rfl rfl rfl hext.compact

theorem addDelta (h : p.Bracketed) (kind : SayKind) (lane say : String) (ts : ℤ)
    (delta : List Char) : (p.addDelta kind lane say ts delta).Bracketed := by
  have hland : ∀ l, (p.land l).Bracketed := fun l => h.same rfl rfl rfl h.compact
  unfold NewestTurn.addDelta
  cases kind with
  | thinking => exact (hland _).extendSay _ _ _ _ _
  | text =>
    dsimp only
    split
    · exact h.same rfl rfl rfl h.compact
    · apply Bracketed.extendSay
      exact h.same rfl rfl rfl h.compact

theorem step (h : p.Bracketed) (hstep : Step env named p q) : q.Bracketed := by
  cases hstep with
  | aside lane facts compactAt hs => exact h.same rfl rfl rfl hs
  | mint => exact h.same rfl rfl rfl h.compact
  | delta kind lane say ts delta _ _ => exact h.addDelta kind lane say ts delta
  | sealed lane => exact h.sealLane lane
  | call id lane ts c _ _ =>
    apply Bracketed.append _ rfl
    unfold trackCall
    split <;> exact h.same rfl rfl rfl h.compact
  | result id lane ts r _ =>
    apply Bracketed.append _ rfl
    exact h.same rfl rfl rfl h.compact
  | steer id ts s _ =>
    apply Bracketed.append _ rfl
    exact h.same rfl rfl rfl h.compact
  | compaction id pos ts c _ hpos hlen =>
    apply h.insert (rows_insertEntry (p := p.land (.compaction id)) pos id "" ts _) hpos
    · simpa [rows] using hlen
    · rfl
    · rfl
    · simp [Payload.kind]
    · exact .inl ⟨by simp [Payload.kind], rfl⟩
    · rfl
  | close c hc =>
    apply h.insert (rows_insertEntry (p := { p with closed := true, minted := p.minted + 1 })
      p.cur.length _ "" 0 _)
    · simpa [rows] using h.pos
    · simp [rows]
    · rfl
    · rfl
    · simp [Payload.kind]
    · exact .inr ⟨rfl, hc, rfl⟩
    · rfl

end Bracketed

end NewestTurn
end Marotte.Projection
