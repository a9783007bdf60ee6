import Marotte.Projection.Says

/-! # Calls and ids

A call that its turn created once has one result in its lane, or is still to be settled. An id
occurs in a turn as often as the turn's frames named it, but for the two brackets.
-/
namespace Marotte.Projection

theorem filter_insertIdx_neg {α : Type*} {P : α → Bool} {a : α} (ha : P a = false) (l : List α)
    (i : ℕ) : (l.insertIdx i a).filter P = l.filter P := by
  induction l generalizing i with
  | nil => cases i <;> simp [ha]
  | cons b l ih =>
    cases i with
    | zero => simp [ha]
    | succ i => simp only [List.insertIdx_succ_cons, List.filter_cons, ih]

namespace NewestTurn

variable {env : Env} {named : String → Prop} {p q : NewestTurn}

/-! ## Calls -/

def callsOf (p : NewestTurn) (id : String) : List Row :=
  p.rows.filter fun r => r.kind = .toolCall ∧ r.id = id

def resultsOf (p : NewestTurn) (id : String) : List Row :=
  p.rows.filter fun r => r.kind = .toolResult ∧ r.id = toolResultID id

/-- A call the turn created once is unsettled with no result, or settled with one in its lane. -/
structure Tracked (p : NewestTurn) : Prop where
  order : p.callOrder.Nodup
  keys : ∀ id, id ∈ p.callOrder ↔ (p.calls id).isSome
  unknown : ∀ id, p.callsOf id = [] → p.calls id = none ∧ p.resultsOf id = []
  once : ∀ id r, p.callsOf id = [r] → p.calls id = some r.lane ∧ p.resultsOf id = [] ∨
    p.calls id = none ∧ ∃ q, p.resultsOf id = [q] ∧ q.lane = r.lane

namespace Tracked

theorem same (h : p.Tracked) (hr : ∀ id, q.callsOf id = p.callsOf id ∧
    q.resultsOf id = p.resultsOf id) (hc : q.calls = p.calls) (ho : q.callOrder = p.callOrder) :
    q.Tracked where
  order := ho ▸ h.order
  keys := by
    rw [ho, hc]
    exact h.keys
  unknown := by
    intro id hid
    rw [(hr id).1] at hid
    rw [(hr id).2, hc]
    exact h.unknown id hid
  once := by
    intro id r hid
    rw [(hr id).1] at hid
    rw [(hr id).2, hc]
    exact h.once id r hid

/-- Rows that are neither calls nor results leave the calls. -/
theorem insert (h : p.Tracked) {pos : ℕ} {r : Row} (hr : q.rows = p.rows.insertIdx pos r)
    (hk : r.kind ≠ .toolCall) (hk' : r.kind ≠ .toolResult) (hc : q.calls = p.calls)
    (ho : q.callOrder = p.callOrder) : q.Tracked := by
  apply h.same _ hc ho
  intro id
  constructor
  · rw [callsOf, hr, filter_insertIdx_neg (by simp [hk])]
    rfl
  · rw [resultsOf, hr, filter_insertIdx_neg (by simp [hk'])]
    rfl

theorem rows_eq (h : p.Tracked) (hr : q.rows = p.rows) (hc : q.calls = p.calls)
    (ho : q.callOrder = p.callOrder) : q.Tracked := by
  apply h.same _ hc ho
  intro id
  simp only [callsOf, resultsOf, hr, and_self]

theorem extendSay (h : p.Tracked) (kind : SayKind) (id lane : String) (ts : ℤ)
    (delta : List Char) : (p.extendSay kind id lane ts delta).Tracked := by
  obtain ⟨_, _, hc, ho, _⟩ := p.extendSay_kept kind id lane ts delta
  rcases p.extendSay_rows kind id lane ts delta with ⟨_, hr⟩ | ⟨_, hr⟩
  · exact h.rows_eq hr hc ho
  · apply h.insert (hr.trans List.insertIdx_length_self.symm) _ _ hc ho
    · cases kind <;> simp [payloadForSay, Payload.kind]
    · cases kind <;> simp [payloadForSay, Payload.kind]

theorem sealLane (h : p.Tracked) (lane : String) : (p.sealLane lane).Tracked := by
  have hset : (p.setCarry lane "" []).Tracked := h.rows_eq rfl rfl rfl
  rcases p.sealLane_cases lane with ⟨he, _⟩ | ⟨c, _, _, he⟩
  · rw [he]
    exact hset.rows_eq rfl rfl rfl
  · rw [he]
    exact (hset.extendSay .text c.say lane 0 c.held).rows_eq rfl rfl rfl

theorem addDelta (h : p.Tracked) (ha : p.Agreed) {kind : SayKind} {lane say : String} {ts : ℤ}
    {delta : List Char} (hheld : ∀ h, p.heldSay lane = some h → h.id = say ∧ h.kind = kind) :
    (p.addDelta kind lane say ts delta).Tracked := by
  obtain ⟨_, emit, held, _, _, _, _, heq⟩ := addDelta_eq ha hheld
  have hset : ((p.land (.say say lane kind delta)).setCarry lane say held).Tracked :=
    h.rows_eq rfl rfl rfl
  rw [heq]
  split
  · exact hset
  · exact hset.extendSay _ _ _ _ _

/-- A result takes its call off the unsettled ones. -/
theorem result (h : p.Tracked) {id lane : String} {ts : ℤ} {r : EntryToolResult}
    (hid : p.calls id = some lane) :
    ((p.settleCall id).appendEntry (toolResultID id) lane ts (.toolResult r)).Tracked := by
  have hrows := (p.settleCall id).rows_appendEntry (toolResultID id) lane ts (.toolResult r)
  rw [rows_settleCall] at hrows
  have hcalls : ∀ id', ((p.settleCall id).appendEntry (toolResultID id) lane ts
      (.toolResult r)).callsOf id' = p.callsOf id' := by
    intro id'
    rw [callsOf, hrows, List.filter_append]
    simp [callsOf, Payload.kind]
  have hresults : ∀ id', id' ≠ id → ((p.settleCall id).appendEntry (toolResultID id) lane ts
      (.toolResult r)).resultsOf id' = p.resultsOf id' := by
    intro id' hne
    have hne' : toolResultID id ≠ toolResultID id' :=
      fun he => hne (toolResultID_injective he).symm
    rw [resultsOf, hrows, List.filter_append]
    simp [resultsOf, Payload.kind, hne']
  have hresult : ((p.settleCall id).appendEntry (toolResultID id) lane ts
      (.toolResult r)).resultsOf id = p.resultsOf id ++
        [{ kind := .toolResult, id := toolResultID id, lane, turn := p.curID }] := by
    rw [resultsOf, hrows, List.filter_append]
    simp only [resultsOf, Payload.kind, decide_true, List.filter_cons_of_pos,
      List.filter_nil, List.append_cancel_left_eq, List.cons.injEq, and_true]
    rfl
  constructor
  · exact h.order.filter _
  · intro id'
    change id' ∈ p.callOrder.filter _ ↔ (Function.update p.calls id none id').isSome
    by_cases hne : id' = id
    · simp [hne]
    · simp [hne, h.keys]
  · intro id' hnone
    rw [hcalls] at hnone
    obtain ⟨hcall, hres⟩ := h.unknown id' hnone
    have hne : id' ≠ id := by
      rintro rfl
      rw [hid] at hcall
      cases hcall
    rw [hresults id' hne]
    exact ⟨(Function.update_of_ne hne _ _).trans hcall, hres⟩
  · intro id' row hone
    rw [hcalls] at hone
    have hold := h.once id' row hone
    by_cases hne : id' = id
    · subst hne
      right
      rcases hold with ⟨hcall, hres⟩ | ⟨hcall, _⟩
      · rw [hid] at hcall
        exact ⟨Function.update_self ..,
          { kind := .toolResult, id := toolResultID id', lane, turn := p.curID },
          by rw [hresult, hres, List.nil_append], Option.some_inj.mp hcall⟩
      · rw [hid] at hcall
        cases hcall
    · rw [hresults id' hne]
      rcases hold with ⟨hcall, hres⟩ | ⟨hcall, hres⟩
      · exact .inl ⟨(Function.update_of_ne hne _ _).trans hcall, hres⟩
      · exact .inr ⟨(Function.update_of_ne hne _ _).trans hcall, hres⟩

/-- A call is tracked unless it is already. -/
theorem call (h : p.Tracked) (id lane : String) (ts : ℤ) (c : EntryToolCall) :
    (((p.land (.call id)).trackCall id lane).appendEntry id lane ts (.toolCall c)).Tracked := by
  have hrows := ((p.land (.call id)).trackCall id lane).rows_appendEntry id lane ts (.toolCall c)
  rw [rows_trackCall, rows_land] at hrows
  have hresults : ∀ id', (((p.land (.call id)).trackCall id lane).appendEntry id lane ts
      (.toolCall c)).resultsOf id' = p.resultsOf id' := by
    intro id'
    rw [resultsOf, hrows, List.filter_append]
    simp [resultsOf, Payload.kind]
  have hother : ∀ id', id' ≠ id → (((p.land (.call id)).trackCall id lane).appendEntry id lane ts
      (.toolCall c)).callsOf id' = p.callsOf id' := by
    intro id' hne
    rw [callsOf, hrows, List.filter_append]
    simp [callsOf, Payload.kind, Ne.symm hne]
  have hself : ∃ r, r.lane = lane ∧ (((p.land (.call id)).trackCall id lane).appendEntry id lane ts
      (.toolCall c)).callsOf id = p.callsOf id ++ [r] := by
    refine ⟨{ kind := .toolCall, id, lane, turn := ((p.land (.call id)).trackCall id lane).curID },
      rfl, ?_⟩
    rw [callsOf, hrows, List.filter_append]
    simp only [callsOf, Payload.kind, true_and, decide_true, List.filter_cons_of_pos,
      List.filter_nil]
  obtain ⟨r, hlane, hself⟩ := hself
  by_cases hk : (p.calls id).isSome = true
  · have htrack : (p.land (.call id)).trackCall id lane = p.land (.call id) := if_pos hk
    rw [htrack] at hresults hother hself ⊢
    constructor
    · exact h.order
    · exact h.keys
    · intro id' hnone
      have hne : id' ≠ id := by
        rintro rfl
        rw [hself] at hnone
        simp at hnone
      rw [hother id' hne] at hnone
      rw [hresults]
      exact h.unknown id' hnone
    · intro id' row hone
      have hne : id' ≠ id := by
        rintro rfl
        rw [hself] at hone
        have hnil : p.callsOf id' = [] := by
          have hlen := congrArg List.length hone
          simpa using hlen
        rw [(h.unknown id' hnil).1] at hk
        cases hk
      rw [hother id' hne] at hone
      rw [hresults]
      exact h.once id' row hone
  · have hnone : p.calls id = none := by simpa using hk
    have htrack : (p.land (.call id)).trackCall id lane = { p.land (.call id) with
        calls := Function.update p.calls id (some lane)
        callOrder := p.callOrder ++ [id] } := if_neg hk
    rw [htrack] at hresults hother hself ⊢
    have hnew : id ∉ p.callOrder := by
      rw [h.keys, hnone]
      exact Bool.false_ne_true
    constructor
    · exact h.order.append (List.nodup_singleton id) (by simpa using hnew)
    · intro id'
      change id' ∈ p.callOrder ++ [id] ↔ (Function.update p.calls id (some lane) id').isSome
      by_cases hne : id' = id
      · simp [hne]
      · simp [hne, h.keys]
    · intro id' hnil
      have hne : id' ≠ id := by
        rintro rfl
        rw [hself] at hnil
        simp at hnil
      rw [hother id' hne] at hnil
      obtain ⟨hcall, hres⟩ := h.unknown id' hnil
      rw [hresults]
      exact ⟨(Function.update_of_ne hne _ _).trans hcall, hres⟩
    · intro id' row hone
      by_cases hne : id' = id
      · subst hne
        left
        rw [hself] at hone
        have hnil : p.callsOf id' = [] := by
          have hlen := congrArg List.length hone
          simpa using hlen
        rw [hnil, List.nil_append, List.cons.injEq] at hone
        rw [hresults, ← hone.1, hlane]
        exact ⟨Function.update_self .., (h.unknown id' hnil).2⟩
      · rw [hother id' hne] at hone
        rw [hresults]
        have hcall : Function.update p.calls id (some lane) id' = p.calls id' :=
          Function.update_of_ne hne _ _
        have hold := h.once id' row hone
        rw [← hcall] at hold
        exact hold

theorem step (h : p.Tracked) (ha : p.Agreed) (hstep : Step env named p q) : q.Tracked := by
  cases hstep with
  | aside | mint => exact h.rows_eq rfl rfl rfl
  | delta kind lane say ts delta hheld _ => exact h.addDelta ha hheld
  | sealed lane => exact h.sealLane lane
  | call id lane ts c _ _ => exact h.call id lane ts c
  | result id lane ts r hid => exact h.result hid
  | steer id ts s _ =>
    exact h.insert ((p.land (.steer id)).rows_insertEntry p.cur.length id "" ts (.steer s))
      (by simp [Payload.kind]) (by simp [Payload.kind]) rfl rfl
  | compaction id pos ts c _ _ _ =>
    exact h.insert ((p.land (.compaction id)).rows_insertEntry pos id "" ts (.compaction c))
      (by simp [Payload.kind]) (by simp [Payload.kind]) rfl rfl
  | close c _ =>
    exact h.insert (rows_insertEntry (p := { p with closed := true, minted := p.minted + 1 })
      p.cur.length _ "" 0 _) (by simp [Payload.kind]) (by simp [Payload.kind]) rfl rfl

end Tracked

/-! ## Ids -/

def isPlaced (k : EntryKind) : Bool := !isSay k && !isBracket k

/-- How often an id occurs among the entries of some kinds. -/
def tally (p : NewestTurn) (k : EntryKind → Bool) (id : String) : ℕ :=
  p.rows.countP fun r => k r.kind && r.id = id

theorem tally_insert {pos : ℕ} {r : Row} (hr : q.rows = p.rows.insertIdx pos r)
    (hlen : pos ≤ p.rows.length) (k : EntryKind → Bool) (id : String) :
    q.tally k id = p.tally k id + if k r.kind && r.id = id then 1 else 0 := by
  rw [tally, hr, (List.perm_insertIdx r p.rows hlen).countP_eq, List.countP_cons]
  rfl

theorem tally_rows (hr : q.rows = p.rows) (k : EntryKind → Bool) (id : String) :
    q.tally k id = p.tally k id := by
  rw [tally, hr, tally]

/-- Every entry is a bracket, a say, or placed under an id a frame named. -/
theorem count_ids (p : NewestTurn) (id : String) : (p.rows.map Row.id).count id =
    p.tally isPlaced id + p.tally isSay id + p.tally isBracket id := by
  unfold tally
  generalize p.rows = rows
  induction rows with
  | nil => rfl
  | cons r rows ih =>
    simp only [List.map_cons, List.count_cons, List.countP_cons, ih, beq_iff_eq]
    by_cases hid : r.id = id
    · cases r.kind <;> simp [hid, isPlaced, isSay, isBracket] <;> omega
    · simp [hid]

theorem tally_pos {k : EntryKind → Bool} {id : String} (h : 0 < p.tally k id) :
    ∃ r ∈ p.rows, k r.kind = true ∧ r.id = id := by
  obtain ⟨r, hr, hk⟩ := List.countP_pos_iff.mp h
  exact ⟨r, hr, by simpa using hk⟩

theorem mem_ids {id : String} (k : EntryKind → Bool) (h : 0 < p.tally k id) :
    id ∈ p.rows.map Row.id := by
  obtain ⟨r, hr, _, rfl⟩ := tally_pos h
  exact List.mem_map_of_mem hr

/-- What the ids of a turn come from. -/
structure Identified (env : Env) (named : String → Prop) (p : NewestTurn) : Prop where
  placed : ∀ id, p.tally isPlaced id + (p.callOrder.map toolResultID).count id ≤
    (namesOf p.landed).count id
  said : ∀ id, 0 < p.tally isSay id → id ∈ saysOf p.landed
  bracket : ∀ id, 0 < p.tally isBracket id →
    (∃ k < p.minted, id = env.newID k) ∧ id ∉ saysOf p.landed
  brackets : ∀ id, p.tally isBracket id ≤ 1
  names : ∀ id ∈ namesOf p.landed, named id
  origin : ∀ id ∈ saysOf p.landed, named id ∨ ∃ k < p.minted, id = env.newID k

namespace Identified

theorem same (h : p.Identified env named) (hr : q.rows = p.rows) (ho : q.callOrder = p.callOrder)
    (hl : q.landed = p.landed) (hm : p.minted ≤ q.minted) : q.Identified env named where
  placed := by
    intro id
    rw [tally_rows hr, ho, hl]
    exact h.placed id
  said := by
    intro id
    rw [tally_rows hr, hl]
    exact h.said id
  bracket := by
    intro id
    rw [tally_rows hr, hl]
    intro hpos
    obtain ⟨⟨k, hk, he⟩, hn⟩ := h.bracket id hpos
    exact ⟨⟨k, Nat.lt_of_lt_of_le hk hm, he⟩, hn⟩
  brackets := by
    intro id
    rw [tally_rows hr]
    exact h.brackets id
  names := hl ▸ h.names
  origin := by
    intro id hid
    rw [hl] at hid
    rcases h.origin id hid with hn | ⟨k, hk, he⟩
    · exact .inl hn
    · exact .inr ⟨k, Nat.lt_of_lt_of_le hk hm, he⟩

/-- A delta's say is no bracket's id. -/
theorem land_say (h : p.Identified env named) (hf : Fresh env named) {say : String}
    (ho : Origin env named p say) (lane : String) (kind : SayKind) (delta : List Char) :
    (p.land (.say say lane kind delta)).Identified env named where
  placed := by
    intro id
    change p.tally isPlaced id + (p.callOrder.map toolResultID).count id ≤
      (namesOf (p.landed ++ [.say say lane kind delta])).count id
    rw [namesOf_append]
    simpa [namesOf] using h.placed id
  said := by
    intro id hpos
    rw [land, saysOf_append]
    exact List.mem_append_left _ (h.said id hpos)
  bracket := by
    intro id hpos
    obtain ⟨⟨k, hk, he⟩, hn⟩ := h.bracket id hpos
    refine ⟨⟨k, hk, he⟩, ?_⟩
    simp only [land, saysOf_append, saysOf, List.mem_append, List.mem_singleton, not_or]
    refine ⟨hn, ?_⟩
    rintro rfl
    rcases ho with hs | hnamed | ⟨_, hnew⟩
    · exact hn hs
    · exact hf.named id hnamed k he.symm
    · exact hnew (mem_ids isBracket hpos)
  brackets := h.brackets
  names := by
    intro id hid
    rw [land, namesOf_append] at hid
    exact h.names id (by simpa [namesOf] using hid)
  origin := by
    intro id hid
    simp only [land, saysOf_append, saysOf, List.mem_append, List.mem_singleton] at hid
    rcases hid with hid | rfl
    · exact h.origin id hid
    · rcases ho with hs | hnamed | ⟨⟨k, hk, he⟩, _⟩
      · exact h.origin id hs
      · exact .inl hnamed
      · exact .inr ⟨k, hk, he.symm⟩

theorem extendSay (h : p.Identified env named) {id : String} (hid : id ∈ saysOf p.landed)
    (kind : SayKind) (lane : String) (ts : ℤ) (delta : List Char) :
    (p.extendSay kind id lane ts delta).Identified env named := by
  obtain ⟨_, _, _, ho, _, hm, hl, _⟩ := p.extendSay_kept kind id lane ts delta
  rcases p.extendSay_rows kind id lane ts delta with ⟨_, hr⟩ | ⟨_, hr⟩
  · exact h.same hr ho hl hm.ge
  · have hk := payloadForSay_kind kind delta
    have hb : isBracket (payloadForSay kind delta).kind = false := by cases kind <;> rfl
    have htally := tally_insert (hr.trans List.insertIdx_length_self.symm) le_rfl
    constructor
    · intro id'
      rw [htally, ho, hl]
      simpa [isPlaced, hk] using h.placed id'
    · intro id' hpos
      rw [hl]
      rw [htally] at hpos
      by_cases he : id = id'
      · exact he ▸ hid
      · exact h.said id' (by simpa [he] using hpos)
    · intro id' hpos
      rw [htally] at hpos
      rw [hm, hl]
      exact h.bracket id' (by simpa [hb] using hpos)
    · intro id'
      rw [htally]
      simpa [hb] using h.brackets id'
    · exact hl ▸ h.names
    · rw [hl, hm]
      exact h.origin

/-- An entry placed under an id that a landing names, or that a call's landing named. -/
theorem place (h : p.Identified env named) (ls : List Landing) {r : Row} {pos : ℕ}
    (hr : q.rows = p.rows.insertIdx pos r) (hlen : pos ≤ p.rows.length)
    (hk : isPlaced r.kind = true) (hl : q.landed = p.landed ++ ls) (hsay : saysOf ls = [])
    (hcount : ∀ id, (if r.id = id then 1 else 0) + (q.callOrder.map toolResultID).count id ≤
      (p.callOrder.map toolResultID).count id + (namesOf ls).count id)
    (hnamed : ∀ id ∈ namesOf ls, named id) (hm : q.minted = p.minted) :
    q.Identified env named := by
  have htally := tally_insert hr hlen
  have hs : isSay r.kind = false ∧ isBracket r.kind = false := by
    simpa [isPlaced] using hk
  have hland : saysOf q.landed = saysOf p.landed := by
    rw [hl, saysOf_append, hsay, List.append_nil]
  constructor
  · intro id
    rw [htally, hl, namesOf_append, List.count_append]
    have h₁ := h.placed id
    have h₂ := hcount id
    simp only [hk, Bool.true_and, decide_eq_true_eq]
    omega
  · intro id hpos
    rw [htally] at hpos
    rw [hland]
    exact h.said id (by simpa [hs.1] using hpos)
  · intro id hpos
    rw [htally] at hpos
    rw [hland, hm]
    exact h.bracket id (by simpa [hs.2] using hpos)
  · intro id
    rw [htally]
    simpa [hs.2] using h.brackets id
  · intro id hid
    rw [hl, namesOf_append] at hid
    rcases List.mem_append.mp hid with hid | hid
    · exact h.names id hid
    · exact hnamed id hid
  · rw [hland, hm]
    exact h.origin

theorem sealLane (h : p.Identified env named) (ha : p.Agreed) (lane : String) :
    (p.sealLane lane).Identified env named := by
  have hset : (p.setCarry lane "" []).Identified env named := h.same rfl rfl rfl le_rfl
  rcases p.sealLane_cases lane with ⟨he, _⟩ | ⟨c, hc, _, he⟩
  · rw [he]
    exact hset.same rfl rfl rfl le_rfl
  · rw [he]
    obtain ⟨delta, hd⟩ := ha.carried c (Keyed.mem_of_find hc)
    have hsay : c.say ∈ saysOf p.landed := mem_saysOf.mpr ⟨c.lane, .text, delta, hd⟩
    exact (hset.extendSay hsay .text lane 0 c.held).same rfl rfl rfl le_rfl

theorem addDelta (h : p.Identified env named) (hf : Fresh env named) (ha : p.Agreed)
    {kind : SayKind} {lane say : String} {ts : ℤ} {delta : List Char}
    (hheld : ∀ h, p.heldSay lane = some h → h.id = say ∧ h.kind = kind)
    (ho : Origin env named p say) : (p.addDelta kind lane say ts delta).Identified env named := by
  obtain ⟨_, emit, held, _, _, _, _, heq⟩ := addDelta_eq ha hheld
  have hset : ((p.land (.say say lane kind delta)).setCarry lane say held).Identified env named :=
    (h.land_say hf ho lane kind delta).same rfl rfl rfl le_rfl
  rw [heq]
  split
  · exact hset
  · apply hset.extendSay
    rw [mem_saysOf]
    exact ⟨lane, kind, delta, List.mem_append_right _ (List.mem_singleton_self _)⟩

/-- A result is placed under the id that its call's frame named. -/
theorem result (h : p.Identified env named) (ht : p.Tracked) {id lane : String} {ts : ℤ}
    {r : EntryToolResult} (hid : p.calls id = some lane) :
    ((p.settleCall id).appendEntry (toolResultID id) lane ts (.toolResult r)).Identified
      env named := by
  have hmem : id ∈ p.callOrder := by
    rw [ht.keys, hid]
    rfl
  have hfilter : p.callOrder.filter (· ≠ id) = p.callOrder.erase id := by
    rw [ht.order.erase_eq_filter]
    apply List.filter_congr
    intro x _
    rw [bne, decide_not]
    rfl
  apply h.place [] ((p.settleCall id).rows_insertEntry p.cur.length (toolResultID id) lane ts
    (.toolResult r))
  · simp [rows]
  · rfl
  · exact (List.append_nil _).symm
  · rfl
  · intro id'
    change _ + ((p.callOrder.filter (· ≠ id)).map toolResultID).count id' ≤ _
    rw [hfilter, ((List.perm_cons_erase hmem).map toolResultID).count_eq id', List.map_cons,
      List.count_cons]
    simp only [beq_iff_eq]
    omega
  · intros; contradiction
  · rfl

/-- The turn_close's id is the next mint, and no frame's. -/
theorem close (h : p.Identified env named) (hf : Fresh env named) (c : EntryTurnClose) :
    ({ p with closed := true, minted := p.minted + 1 }.appendEntry (env.newID p.minted) "" 0
      (.turnClose c)).Identified env named := by
  have htally := tally_insert (rows_insertEntry (p := { p with
    closed := true, minted := p.minted + 1 }) p.cur.length (env.newID p.minted) "" 0
      (.turnClose c)) (by simp [rows])
  have hplaced : ∀ id, tally (appendEntry { p with closed := true, minted := p.minted + 1 }
      (env.newID p.minted) "" 0 (.turnClose c)) isPlaced id = p.tally isPlaced id := by
    intro id
    exact (htally isPlaced id).trans (by simp [isPlaced, isBracket, Payload.kind]; rfl)
  have hsaid : ∀ id, tally (appendEntry { p with closed := true, minted := p.minted + 1 }
      (env.newID p.minted) "" 0 (.turnClose c)) isSay id = p.tally isSay id := by
    intro id
    exact (htally isSay id).trans (by simp [isSay, Payload.kind]; rfl)
  have hbracket : ∀ id, tally (appendEntry { p with closed := true, minted := p.minted + 1 }
      (env.newID p.minted) "" 0 (.turnClose c)) isBracket id = p.tally isBracket id +
        if env.newID p.minted = id then 1 else 0 := by
    intro id
    exact (htally isBracket id).trans (by simp [isBracket, Payload.kind]; rfl)
  have hnew : ∀ k < p.minted, env.newID p.minted ≠ env.newID k :=
    fun k hk he => absurd (hf.mints he) (Nat.ne_of_gt hk)
  have hlt : ∀ {k}, k < p.minted → k < p.minted + 1 := fun hk => Nat.lt_succ_of_lt hk
  constructor
  · intro id
    rw [hplaced]
    exact h.placed id
  · intro id hpos
    rw [hsaid] at hpos
    exact h.said id hpos
  · intro id hpos
    rw [hbracket] at hpos
    by_cases he : env.newID p.minted = id
    · refine ⟨⟨p.minted, Nat.lt_succ_self _, he.symm⟩, fun hs => ?_⟩
      rcases h.origin id hs with hn | ⟨k, hk, hid⟩
      · exact hf.named id hn _ he
      · exact hnew k hk (he.trans hid)
    · obtain ⟨⟨k, hk, hid⟩, hs⟩ := h.bracket id (by simpa [he] using hpos)
      exact ⟨⟨k, hlt hk, hid⟩, hs⟩
  · intro id
    rw [hbracket]
    by_cases he : env.newID p.minted = id
    · have hzero : p.tally isBracket id = 0 := by
        by_contra hne
        obtain ⟨⟨k, hk, hid⟩, _⟩ := h.bracket id (Nat.pos_of_ne_zero hne)
        exact hnew k hk (he.trans hid)
      simp [he, hzero]
    · simpa [he] using h.brackets id
  · exact h.names
  · intro id hid
    rcases h.origin id hid with hn | ⟨k, hk, he⟩
    · exact .inl hn
    · exact .inr ⟨k, hlt hk, he⟩

theorem trackCall_spec (p : NewestTurn) (id lane : String) :
    (p.trackCall id lane).cur = p.cur ∧ (p.trackCall id lane).landed = p.landed ∧
      (p.trackCall id lane).minted = p.minted ∧
      ((p.trackCall id lane).callOrder = p.callOrder ∨
        (p.trackCall id lane).callOrder = p.callOrder ++ [id]) := by
  unfold trackCall
  split
  · exact ⟨rfl, rfl, rfl, .inl rfl⟩
  · exact ⟨rfl, rfl, rfl, .inr rfl⟩

/-- A call's frame names the call's id, and that of the result it waits for. -/
theorem call (h : p.Identified env named) {id lane : String} {ts : ℤ} {c : EntryToolCall}
    (hid : named id) (hresult : named (toolResultID id)) :
    (((p.land (.call id)).trackCall id lane).appendEntry id lane ts (.toolCall c)).Identified
      env named := by
  obtain ⟨hcur, hl, hm, ho⟩ := trackCall_spec (p.land (.call id)) id lane
  have hr := ((p.land (.call id)).trackCall id lane).rows_insertEntry p.cur.length id lane ts
    (.toolCall c)
  rw [rows_trackCall, rows_land] at hr
  have happend : ((p.land (.call id)).trackCall id lane).appendEntry id lane ts (.toolCall c) =
      ((p.land (.call id)).trackCall id lane).insertEntry p.cur.length id lane ts
        (.toolCall c) := by
    rw [appendEntry, hcur]
    rfl
  rw [happend]
  apply h.place [.call id] hr
  · simp [rows]
  · rfl
  · exact hl
  · rfl
  · intro id'
    change (if id = id' then 1 else 0) +
      (((p.land (.call id)).trackCall id lane).callOrder.map toolResultID).count id' ≤ _
    rcases ho with ho | ho
    · rw [ho]
      simp only [land, namesOf, List.count_cons, List.count_nil, beq_iff_eq]
      omega
    · rw [ho]
      simp only [land, namesOf, List.map_append, List.map_cons, List.map_nil, List.count_append,
        List.count_cons, List.count_nil, beq_iff_eq]
      omega
  · simp [namesOf, hid, hresult]
  · exact hm

theorem step (h : p.Identified env named) (hf : Fresh env named) (ha : p.Agreed) (ht : p.Tracked)
    (hstep : Step env named p q) : q.Identified env named := by
  cases hstep with
  | aside => exact h.same rfl rfl rfl le_rfl
  | mint => exact h.same rfl rfl rfl (Nat.le_succ _)
  | delta kind lane say ts delta hheld ho => exact h.addDelta hf ha hheld (ho hf)
  | sealed lane => exact h.sealLane ha lane
  | call id lane ts c hid hresult => exact h.call hid hresult
  | result id lane ts r hid => exact h.result ht hid
  | steer id ts s hid =>
    apply h.place [.steer id] ((p.land (.steer id)).rows_insertEntry p.cur.length id "" ts (.steer s))
    · simp [rows]
    · rfl
    · rfl
    · rfl
    · intro id'
      simp [namesOf, List.count_cons, insertEntry, land]
      omega
    · simp [namesOf, hid]
    · rfl
  | compaction id pos ts c hid _ hlen =>
    apply h.place [.compaction id]
      ((p.land (.compaction id)).rows_insertEntry pos id "" ts (.compaction c))
    · simpa [rows] using hlen
    · rfl
    · rfl
    · rfl
    · intro id'
      simp [namesOf, List.count_cons, insertEntry, land]
      omega
    · simp [namesOf, hid]
    · rfl
  | close c _ => exact h.close hf c

end Identified
end NewestTurn
end Marotte.Projection
