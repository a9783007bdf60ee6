import Marotte.TurnLog.Conserved
import Marotte.Library.Along

/-! # What a close leaves settled

A result is filed in the lane of the earliest call of its id that no result had settled, and a
close settles every call that is left. Behind the turn_close nothing is appended.
-/
namespace Marotte.TurnLog

/-- Neither opens a call nor settles one. -/
def neutral : Payload → Bool
  | .toolCall _ | .toolResult _ => false
  | _ => true

/-- The lane a result of the id given belongs in, one entry on. -/
def callStep (callID : String) (lane : Option String) (f : Filed) : Option String :=
  match f.entry.payload with
  | .toolCall call => if call.id = callID then lane.or (some f.entry.lane) else lane
  | .toolResult _ => if f.entry.id = toolResultID callID then none else lane
  | _ => lane

/-- The lane of the earliest call of an id that no result has settled. -/
def callLane (fs : List Filed) (callID : String) : Option String :=
  fs.foldl (callStep callID) none

theorem callLane_concat (fs : List Filed) (f : Filed) (callID : String) :
    callLane (fs ++ [f]) callID = callStep callID (callLane fs callID) f := by
  simp [callLane]

theorem callStep_neutral {f : Filed} (h : neutral f.entry.payload = true) (callID : String)
    (lane : Option String) : callStep callID lane f = lane := by
  cases hp : f.entry.payload <;> simp [neutral, hp] at h <;> simp [callStep, hp]

theorem neutral_of_said {p : Payload} (h : (saidBy p).isSome) : neutral p = true := by
  cases p <;> simp [saidBy] at h <;> rfl

/-- The unsettled calls agree with the entries, and every result stands in its call's lane. -/
structure Tracked (calls : List OpenCall) (fs : List Filed) : Prop where
  lanes : ∀ callID, ((calls.find? (fun c => c.id = callID)).map OpenCall.lane) = callLane fs callID
  nodup : (calls.map OpenCall.id).Nodup
  results : ∀ pre f post, fs = pre ++ f :: post → ∀ res, f.entry.payload = .toolResult res →
    ∀ callID, f.entry.id = toolResultID callID → ∀ lane, callLane pre callID = some lane →
      f.entry.lane = lane

variable {w : World} {t t' : Turn} {key : String} {calls : List OpenCall} {fs : List Filed}
  {f : Filed}

/-- A list that ends in one more entry splits before that entry, or at it. -/
theorem split_concat {α : Type*} {l pre post : List α} {a b : α}
    (h : l ++ [a] = pre ++ b :: post) : (∃ post', l = pre ++ b :: post') ∨ l = pre ∧ a = b := by
  rcases List.eq_nil_or_concat post with rfl | ⟨post', c, rfl⟩
  · obtain ⟨hl, hab⟩ := List.append_inj' h rfl
    exact .inr ⟨hl, (List.cons.inj hab).1⟩
  · rw [List.concat_eq_append, ← List.cons_append, ← List.append_assoc] at h
    exact .inl ⟨post', (List.append_inj' h rfl).1⟩

theorem Tracked.results_concat (h : Tracked calls fs)
    (hf : ∀ res, f.entry.payload = .toolResult res → ∀ callID, f.entry.id = toolResultID callID →
      ∀ lane, callLane fs callID = some lane → f.entry.lane = lane) :
    ∀ pre g post, fs ++ [f] = pre ++ g :: post → ∀ res, g.entry.payload = .toolResult res →
      ∀ callID, g.entry.id = toolResultID callID → ∀ lane, callLane pre callID = some lane →
        g.entry.lane = lane := by
  intro pre g post heq
  rcases split_concat heq with ⟨post', hpre⟩ | ⟨rfl, rfl⟩
  · exact h.results pre g post' hpre
  · exact hf

theorem Tracked.neutral (h : Tracked calls fs) (hf : neutral f.entry.payload = true) :
    Tracked calls (fs ++ [f]) where
  lanes callID := by rw [callLane_concat, callStep_neutral hf, h.lanes]
  nodup := h.nodup
  results := h.results_concat fun res hp => by simp [TurnLog.neutral, hp] at hf

theorem Tracked.neutrals (h : Tracked calls fs) {gs : List Filed}
    (hgs : ∀ g ∈ gs, TurnLog.neutral g.entry.payload = true) : Tracked calls (fs ++ gs) := by
  induction gs generalizing fs with
  | nil => simpa using h
  | cons g gs ih =>
    have hnext := ih (h.neutral (hgs g (by simp))) fun g' hg' => hgs g' (List.mem_cons_of_mem _ hg')
    simpa using hnext

/-- A tool_call is tracked unless one of its id is. -/
theorem Tracked.call (h : Tracked calls fs) (call : EntryToolCall)
    (hf : f.entry.payload = .toolCall call) :
    Tracked (if (calls.find? (fun c => c.id = call.id)).isSome then calls
      else calls ++ [⟨call.id, f.entry.lane⟩]) (fs ++ [f]) where
  lanes callID := by
    rw [callLane_concat, callStep, hf]
    simp only
    by_cases hheld : (calls.find? (fun c => c.id = call.id)).isSome = true
    · rw [if_pos hheld, h.lanes]
      by_cases hid : call.id = callID
      · subst hid
        rw [if_pos rfl]
        have hsome : (callLane fs call.id).isSome = true := by
          rw [← h.lanes]
          simpa using hheld
        obtain ⟨lane, hlane⟩ := Option.isSome_iff_exists.mp hsome
        rw [hlane]
        rfl
      · rw [if_neg hid]
    · rw [if_neg hheld, List.find?_append]
      by_cases hid : call.id = callID
      · subst hid
        have hnone : calls.find? (fun c => c.id = call.id) = none := by simpa using hheld
        have hlane : callLane fs call.id = none := by rw [← h.lanes, hnone]; rfl
        simp [hnone, hlane]
      · rw [if_neg hid, ← h.lanes]
        simp [hid]
  nodup := by
    split
    · exact h.nodup
    · rename_i hheld
      rw [List.map_append, List.nodup_append]
      refine ⟨h.nodup, by simp, fun id hid other hother => ?_⟩
      rintro rfl
      obtain ⟨c, hc, rfl⟩ := List.mem_map.mp hid
      have hnone : calls.find? (fun c => c.id = call.id) = none := by simpa using hheld
      have hne := List.find?_eq_none.mp hnone c hc
      simp at hother
      simp [hother] at hne
  results := h.results_concat fun res hp => by simp [hf] at hp

/-- A result settles its call, and stands in the call's lane. -/
theorem Tracked.result (h : Tracked calls fs) (res : EntryToolResult) (callID : String)
    (hf : f.entry.payload = .toolResult res) (hid : f.entry.id = toolResultID callID)
    (hlane : ∀ lane, callLane fs callID = some lane → f.entry.lane = lane) :
    Tracked (calls.filter (fun c => c.id ≠ callID)) (fs ++ [f]) where
  lanes x := by
    rw [callLane_concat, callStep, hf]
    simp only [hid]
    by_cases hx : callID = x
    · subst hx
      rw [if_pos rfl, List.find?_filter]
      simp
    · rw [if_neg fun heq => hx (toolResultID_injective heq), ← h.lanes, List.find?_filter]
      congr 2
      funext c
      by_cases hc : c.id = x
      · simp [hc, Ne.symm hx]
      · simp [hc]
  nodup := h.nodup.sublist (List.filter_sublist.map _)
  results := h.results_concat fun _ _ x hx lane hl => by
    rw [hid] at hx
    exact hlane lane (toolResultID_injective hx ▸ hl)

/-- Every call is answered once no call is left, in the lane the entries give it. -/
theorem Tracked.answered (h : Tracked [] fs) {pre post : List Filed} {call : EntryToolCall}
    (hfs : fs = pre ++ f :: post) (hf : f.entry.payload = .toolCall call) :
    ∃ r ∈ post, (∃ res, r.entry.payload = .toolResult res) ∧
      r.entry.id = toolResultID call.id ∧
        callLane (pre ++ [f]) call.id = some r.entry.lane := by
  have hrest : ∀ post pre lane, fs = pre ++ post → callLane pre call.id = some lane →
      ∃ r ∈ post, (∃ res, r.entry.payload = .toolResult res) ∧
        r.entry.id = toolResultID call.id ∧ lane = r.entry.lane := by
    intro post
    induction post with
    | nil =>
      intro pre lane heq hlane
      have hnone := h.lanes call.id
      rw [heq, List.append_nil, hlane] at hnone
      cases hnone
    | cons g post ih =>
      intro pre lane heq hlane
      by_cases hsettles : (∃ res, g.entry.payload = .toolResult res) ∧
          g.entry.id = toolResultID call.id
      · obtain ⟨⟨res, hres⟩, hid⟩ := hsettles
        exact ⟨g, by simp, ⟨res, hres⟩, hid, (h.results pre g post heq res hres _ hid lane hlane).symm⟩
      · have hstill : callLane (pre ++ [g]) call.id = some lane := by
          rw [callLane_concat, hlane, callStep]
          split
          · simp
          · rename_i res hres
            rw [if_neg fun hid => hsettles ⟨⟨res, hres⟩, hid⟩]
          · rfl
        obtain ⟨r, hr, hprops⟩ := ih (pre ++ [g]) lane (by simp [heq]) hstill
        exact ⟨r, List.mem_cons_of_mem _ hr, hprops⟩
  obtain ⟨lane, hlane⟩ : ∃ lane, callLane (pre ++ [f]) call.id = some lane := by
    rw [callLane_concat, callStep, hf]
    cases callLane pre call.id <;> simp
  obtain ⟨r, hr, hres, hid, heq⟩ := hrest post (pre ++ [f]) lane (by simp [hfs]) hlane
  exact ⟨r, hr, hres, hid, by rw [hlane, heq]⟩

/-! ## What an operation files -/

/-- What an operation appends: the words its seals freeze, and entries of its own. A lane-less
entry finds every lane sealed. -/
structure Files (t t' : Turn) (own : List Filed) : Prop where
  appended : ∃ words, t'.appended = t.appended ++ words ++ own ∧
    ∀ f ∈ words, (saidBy f.entry.payload).isSome ∧ f.laneless = false
  shut : (∃ f ∈ own, f.laneless = true) → ∀ k, (t'.lanes k).opened = none

/-- An operation that does not close: what it files, and how the calls follow. -/
structure Filing (t t' : Turn) : Prop where
  files : ∃ own, Files t t' own ∧ (∀ f ∈ own, f.entry.kind ≠ .turnClose) ∧
    ∀ fs, Tracked t.calls fs → Tracked t'.calls (fs ++ own)
  running : t'.closed = t.closed

/-- What an operation files is read off the appended entries, the lanes and the calls alone. -/
theorem Filing.congr {u u' : Turn} (h : Filing t t')
    (hbefore : u.appended = t.appended ∧ u.calls = t.calls ∧ u.closed = t.closed)
    (hafter : u'.appended = t'.appended ∧ u'.lanes = t'.lanes ∧ u'.calls = t'.calls ∧
      u'.closed = t'.closed) : Filing u u' where
  files := by
    obtain ⟨own, ⟨happended, hshut⟩, hkinds, htracked⟩ := h.files
    obtain ⟨ha, hc, -⟩ := hbefore
    obtain ⟨ha', hl', hc', -⟩ := hafter
    exact ⟨own, ⟨by rw [ha, ha']; exact happended, by rw [hl']; exact hshut⟩, hkinds,
      by rw [hc, hc']; exact htracked⟩
  running := by rw [hafter.2.2.2, hbefore.2.2, h.running]

theorem Filing.of_words (hcalls : t'.calls = t.calls) (hclosed : t'.closed = t.closed)
    (h : ∃ words, t'.appended = t.appended ++ words ∧
      ∀ f ∈ words, (saidBy f.entry.payload).isSome ∧ f.laneless = false) : Filing t t' where
  files := by
    obtain ⟨words, heq, hwords⟩ := h
    refine ⟨[], ⟨⟨words, by rw [heq, List.append_nil], hwords⟩, by simp⟩, by simp, fun fs htracked => ?_⟩
    rw [hcalls, List.append_nil]
    exact htracked
  running := hclosed

/-- An entry behind the seals of its lanes. -/
theorem Filing.of_entry {keys : List String} {t₁ : Turn} (hs : Sealing t t₁ keys) {f : Filed}
    (happended : t'.appended = t₁.appended ++ [f]) (hlanes : t'.lanes = t₁.lanes)
    (hshut : f.laneless = true → ∀ k, (t₁.lanes k).opened = none)
    (hkind : f.entry.kind ≠ .turnClose)
    (htracked : ∀ fs, Tracked t.calls fs → Tracked t'.calls (fs ++ [f]))
    (hclosed : t'.closed = t.closed) : Filing t t' where
  files := by
    obtain ⟨words, heq, hwords⟩ := hs.words
    refine ⟨[f], ⟨⟨words, by rw [happended, heq], hwords⟩, ?_⟩, by simpa using hkind, htracked⟩
    rintro ⟨g, hg, hall⟩ k
    rw [hlanes]
    rw [List.mem_singleton.mp hg] at hall
    exact hshut hall k
  running := hclosed

theorem filing_delta (hw : w.Willing) (hopen : t.closed = false) (key say delta : String)
    (kind : StreamKind) : Filing t (t.delta w key say delta kind).turn := by
  have hcalls : (t.laneOf key).calls = t.calls := by
    unfold Turn.laneOf
    split <;> rfl
  have hclosed : (t.laneOf key).closed = t.closed := by
    unfold Turn.laneOf
    split <;> rfl
  rcases delta_willing hw hopen key say delta kind with ⟨-, heq⟩ | ⟨-, t₁, sealed, hs, heq⟩
  · rw [heq]
    exact Filing.of_words hcalls hclosed
      ⟨[], (Turn.laneOf_appended t key).trans (List.append_nil _).symm, by simp⟩
  · obtain ⟨l, o, minted, hentry, -⟩ := openEntry_spec t₁ key kind say delta
    obtain ⟨words, hwords⟩ := hs.words
    rw [Turn.laneOf_appended] at hwords
    rw [heq, hentry]
    have hrest := hs.rest
    refine Filing.of_words ?_ ?_ ⟨words, hwords⟩
    · change t₁.calls = t.calls
      rw [hrest]
      exact hcalls
    · change t₁.closed = t.closed
      rw [hrest]
      exact hclosed

theorem filing_laned (hw : w.Willing) (hopen : t.closed = false) (key id : String) {p : Payload}
    {after : Turn → Turn} (hp : p.kind ≠ .turnClose)
    (hafter : ∀ t, (after t).appended = t.appended ∧ (after t).lanes = t.lanes ∧
      (after t).closed = t.closed)
    (htracked : ∀ (t₁ : Turn) fs, t₁.calls = t.calls → Tracked t.calls fs →
      Tracked (after t₁).calls (fs ++ [⟨t₁.entry key id p, false⟩])) :
    Filing t (t.laned w key id p after).turn := by
  obtain ⟨t₁, sealed, hs, heq⟩ := laned_willing hw hopen key id p after
  rw [heq]
  obtain ⟨happended, hlanes, hclosed⟩ :=
    hafter { t₁.taking ⟨t₁.entry key id p, false⟩ with emitted := true }
  have hcalls : t₁.calls = t.calls := by rw [hs.rest]
  refine Filing.of_entry hs happended hlanes (by simp) hp (fun fs h => ?_) ?_
  · exact htracked { t₁.taking ⟨t₁.entry key id p, false⟩ with emitted := true } fs hcalls h
  · rw [hclosed]
    change t₁.closed = t.closed
    rw [hs.rest]

theorem filing_laned_neutral (hw : w.Willing) (hopen : t.closed = false) (key id : String)
    {p : Payload} (hp : p.kind ≠ .turnClose) (hn : neutral p = true) :
    Filing t (t.laned w key id p (fun t => t)).turn :=
  filing_laned hw hopen key id hp (fun _ => ⟨rfl, rfl, rfl⟩) fun t₁ fs hcalls h => by
    rw [hcalls]
    exact h.neutral hn

theorem filing_toolCall (hw : w.Willing) (hopen : t.closed = false) (key : String)
    (call : EntryToolCall) : Filing t (t.toolCall w key call).turn := by
  have hafter : ∀ t : Turn, (t.trackCall call.id key).appended = t.appended ∧
      (t.trackCall call.id key).lanes = t.lanes ∧ (t.trackCall call.id key).closed = t.closed := by
    intro t
    unfold Turn.trackCall
    split <;> exact ⟨rfl, rfl, rfl⟩
  refine filing_laned hw hopen key call.id (p := .toolCall call) (by simp [Payload.kind]) hafter
    fun t₁ fs hcalls h => ?_
  have hcall := h.call call (f := ⟨t₁.entry key call.id (.toolCall call), false⟩) rfl
  rw [← hcalls] at hcall
  unfold Turn.trackCall Turn.callOf
  split
  · rename_i hheld
    rwa [if_pos hheld] at hcall
  · rename_i hheld
    rwa [if_neg hheld] at hcall

theorem filing_toolResult (hw : w.Willing) (hopen : t.closed = false) (updateLane callID : String)
    (res : EntryToolResult) : Filing t (t.toolResult w updateLane callID res).turn := by
  refine filing_laned hw hopen _ (toolResultID callID) (p := .toolResult res)
    (by simp [Payload.kind]) (fun t => ⟨rfl, rfl, rfl⟩) fun t₁ fs hcalls h => ?_
  have hresult := h.result res callID
    (f := ⟨t₁.entry (((t.callOf callID).map OpenCall.lane).getD updateLane) (toolResultID callID)
      (.toolResult res), false⟩) rfl rfl fun lane hlane => ?_
  · rw [← hcalls] at hresult
    exact hresult
  · rw [← h.lanes] at hlane
    change ((t.callOf callID).map OpenCall.lane).getD updateLane = lane
    rw [Turn.callOf, hlane]
    rfl

theorem filing_laneless (hw : w.Willing) (ho : t.Ordered) (hopen : t.closed = false) (id : String)
    {p : Payload} (hp : p.kind ≠ .turnClose) (hn : neutral p = true) :
    Filing t (t.laneless w id p).turn := by
  obtain ⟨t₁, sealed, hs, hshut, -, heq⟩ := laneless_willing hw ho hopen id p
  have hcalls : t₁.calls = t.calls := by rw [hs.rest]
  have hclosed : t₁.closed = t.closed := by rw [hs.rest]
  rw [heq]
  refine Filing.of_entry hs rfl rfl (fun _ => hshut) hp (fun fs h => ?_) hclosed
  change Tracked t₁.calls _
  rw [hcalls]
  exact h.neutral hn

theorem filing_minted (hw : w.Willing) (ho : t.Ordered) (hopen : t.closed = false) {p : Payload}
    (hp : p.kind ≠ .turnClose) (hn : neutral p = true) : Filing t (t.lanelessMinted w p).turn := by
  have hfiling := filing_laneless (t := t.mintID.1) hw ho hopen t.mintID.2 hp hn
  exact hfiling.congr ⟨rfl, rfl, rfl⟩ ⟨rfl, rfl, rfl, rfl⟩

theorem filing_plan (hw : w.Willing) (ho : t.Ordered) (hopen : t.closed = false) (plan : EntryPlan) :
    Filing t (t.planState w plan).turn := by
  unfold Turn.planState
  split
  · exact Filing.of_words rfl rfl ⟨[], (List.append_nil _).symm, by simp⟩
  · have hfiling := filing_minted hw ho hopen (p := .plan plan) (by simp [Payload.kind]) rfl
    generalize t.lanelessMinted w (.plan plan) = out at hfiling
    rcases out with ⟨t₁, sealed, none | err⟩
    · exact hfiling.congr ⟨rfl, rfl, rfl⟩ ⟨rfl, rfl, rfl, rfl⟩
    · exact hfiling

theorem filing_perform (hw : w.Willing) (ho : t.Ordered) (hopen : t.closed = false) {op : Op}
    (hop : ∀ footer, op ≠ .close footer) : Filing t (t.perform w op).turn := by
  cases op with
  | textDelta key say delta => exact filing_delta hw hopen key say delta .text
  | thinkingDelta key say delta => exact filing_delta hw hopen key say delta .thinking
  | setSteerCarry key say carry =>
    refine Filing.of_words ?_ ?_ ⟨[], ?_, by simp⟩ <;>
      simp only [Turn.perform, Turn.setSteerCarry, Turn.setLane, Turn.laneOf] <;> split <;> simp
  | sealLane key =>
    obtain ⟨t₁, sealed, heq, hs⟩ := sealLane_sealing hw t key
    have hturn : (t.sealLaneOnly w key).turn = t₁ := by
      simp only [Turn.sealLaneOnly, hopen, Bool.false_eq_true, if_false, heq]
    change Filing t (t.sealLaneOnly w key).turn
    rw [hturn]
    exact Filing.of_words (by rw [hs.rest]) (by rw [hs.rest]) hs.words
  | toolCall key call => exact filing_toolCall hw hopen key call
  | invocation issuerLane delegateID call => exact filing_toolCall hw hopen issuerLane _
  | toolResult updateLane callID res => exact filing_toolResult hw hopen updateLane callID res
  | steerAck key steerID text =>
    exact filing_laned_neutral hw hopen key (steerAckID steerID) (by simp [Payload.kind]) rfl
  | steerInLane key steerID steer =>
    exact filing_laned_neutral hw hopen key steerID (by simp [Payload.kind]) rfl
  | steer steerID steer => exact filing_laneless hw ho hopen steerID (by simp [Payload.kind]) rfl
  | compaction summary emptyOrdinal =>
    exact filing_laneless hw ho hopen _ (by simp [Payload.kind]) rfl
  | turnBind bind => exact filing_minted hw ho hopen (by simp [Payload.kind]) rfl
  | compactionFailed reason => exact filing_minted hw ho hopen (by simp [Payload.kind]) rfl
  | safetyBlocked properties => exact filing_minted hw ho hopen (by simp [Payload.kind]) rfl
  | modelSwitched p => exact filing_minted hw ho hopen (by simp [Payload.kind]) rfl
  | modeSwitched p => exact filing_minted hw ho hopen (by simp [Payload.kind]) rfl
  | plan plan => exact filing_plan hw ho hopen plan
  | close footer => exact absurd rfl (hop footer)

/-! ## Runs -/

def advance (w : World) (t : Turn) (op : Op) : Turn := (t.perform w op).turn

/-- What a run brings a lane's stream. -/
def arrived (w : World) (t : Turn) : List Op → String → List Piece
  | [], _ => []
  | op :: ops, k => arrivals w t op k ++ arrived w (advance w t op) ops k

theorem arrived_append (t : Turn) (ops ops' : List Op) (k : String) :
    arrived w t (ops ++ ops') k =
      arrived w t ops k ++ arrived w (runFrom (advance w) t ops) ops' k := by
  induction ops generalizing t with
  | nil => rfl
  | cons op ops ih =>
    rw [List.cons_append, arrived, arrived, ih, List.append_assoc]
    rfl

theorem arrived_perform (hw : w.Willing) (ho : t.Ordered) (hopen : t.closed = false) (op : Op) :
    Arrived t (arrivals w t op) (t.perform w op).turn := by
  have harrivals : arrivals w t op = fun k => arrivals w t op k := rfl
  rw [harrivals]
  simp only [arrivals, hopen, Bool.false_eq_true, if_false]
  have htracks : ∀ callID key, ∀ t : Turn, (t.trackCall callID key).appended = t.appended ∧
      (t.trackCall callID key).lanes = t.lanes ∧ (t.trackCall callID key).order = t.order := by
    intro callID key t
    unfold Turn.trackCall
    split <;> exact ⟨rfl, rfl, rfl⟩
  cases op with
  | textDelta key say delta => exact arrived_delta hw ho hopen key say delta .text
  | thinkingDelta key say delta => exact arrived_delta hw ho hopen key say delta .thinking
  | setSteerCarry key say carry => exact arrived_setSteerCarry ho key say carry
  | sealLane key =>
    have hseal := arrived_sealLane hw ho key
    change Arrived t (settled t key) (t.sealLaneOnly w key).turn
    rwa [Turn.sealLaneOnly, if_neg (by simp [hopen])]
  | toolCall key call => exact arrived_laned hw ho hopen key call.id rfl (htracks call.id key)
  | invocation issuerLane delegateID call =>
    exact arrived_laned hw ho hopen issuerLane _ rfl (htracks call.id issuerLane)
  | toolResult updateLane callID res =>
    exact arrived_laned hw ho hopen _ (toolResultID callID) rfl (fun t => ⟨rfl, rfl, rfl⟩)
  | steerAck key steerID text =>
    exact arrived_laned hw ho hopen key (steerAckID steerID) rfl (fun t => ⟨rfl, rfl, rfl⟩)
  | steerInLane key steerID steer =>
    exact arrived_laned hw ho hopen key steerID rfl (fun t => ⟨rfl, rfl, rfl⟩)
  | steer steerID steer => exact arrived_laneless hw ho hopen steerID rfl
  | compaction summary emptyOrdinal => exact arrived_laneless hw ho hopen _ rfl
  | turnBind bind => exact arrived_minted hw ho hopen rfl
  | compactionFailed reason => exact arrived_minted hw ho hopen rfl
  | safetyBlocked properties => exact arrived_minted hw ho hopen rfl
  | modelSwitched p => exact arrived_minted hw ho hopen rfl
  | modeSwitched p => exact arrived_minted hw ho hopen rfl
  | plan plan => exact arrived_plan hw ho hopen plan
  | close footer => exact arrived_close hw ho hopen footer

/-- A closed turn stays closed and takes nothing more. -/
theorem perform_closed (h : t.closed = true) (op : Op) :
    (t.perform w op).turn.closed = true ∧ (t.perform w op).turn.appended = t.appended := by
  have hlaned : ∀ key id p after, t.laned w key id p after = { turn := t, err := some .closed } :=
    fun _ _ _ _ => if_pos h
  have hlaneless : ∀ (t : Turn) id p, t.closed = true →
      t.laneless w id p = { turn := t, err := some .closed } := fun _ _ _ h => if_pos h
  have hminted : ∀ p, t.lanelessMinted w p = { turn := t.mintID.1, err := some .closed } :=
    fun p => hlaneless t.mintID.1 _ p h
  cases op with
  | textDelta key say delta => simp [Turn.perform, Turn.textDelta, Turn.delta, h]
  | thinkingDelta key say delta => simp [Turn.perform, Turn.thinkingDelta, Turn.delta, h]
  | setSteerCarry key say carry =>
    simp only [Turn.perform, Turn.setSteerCarry, Turn.setLane, Turn.laneOf]
    split <;> exact ⟨h, rfl⟩
  | sealLane key => simp [Turn.perform, Turn.sealLaneOnly, h]
  | toolCall key call => simp [Turn.perform, Turn.toolCall, hlaned, h]
  | invocation issuerLane delegateID call =>
    simp [Turn.perform, Turn.invocation, Turn.toolCall, hlaned, h]
  | toolResult updateLane callID res => simp [Turn.perform, Turn.toolResult, hlaned, h]
  | steerAck key steerID text => simp [Turn.perform, Turn.steerAck, hlaned, h]
  | steerInLane key steerID steer => simp [Turn.perform, Turn.steerInLane, hlaned, h]
  | steer steerID steer => simp [Turn.perform, Turn.steer, hlaneless t _ _ h, h]
  | compaction summary emptyOrdinal =>
    simp [Turn.perform, Turn.compaction, hlaneless t _ _ h, h]
  | turnBind bind => simp [Turn.perform, Turn.turnBind, hminted, Turn.mintID, h]
  | compactionFailed reason => simp [Turn.perform, Turn.compactionFailed, hminted, Turn.mintID, h]
  | safetyBlocked properties => simp [Turn.perform, Turn.safetyBlocked, hminted, Turn.mintID, h]
  | modelSwitched p => simp [Turn.perform, Turn.modelSwitched, hminted, Turn.mintID, h]
  | modeSwitched p => simp [Turn.perform, Turn.modeSwitched, hminted, Turn.mintID, h]
  | plan plan =>
    simp only [Turn.perform, Turn.planState, hminted]
    split <;> simp [Turn.mintID, h]
  | close footer => simp [Turn.perform, Turn.close, h]

theorem runFrom_closed (h : t.closed = true) (ops : List Op) :
    (runFrom (advance w) t ops).closed = true ∧
      (runFrom (advance w) t ops).appended = t.appended := by
  refine runFrom_invariant (Q := fun s : Turn => s.closed = true ∧ s.appended = t.appended) ⟨h, rfl⟩ ?_ ops
  rintro s op ⟨hs, happended⟩
  obtain ⟨hc, ha⟩ := perform_closed (w := w) hs op
  exact ⟨hc, ha.trans happended⟩

/-- What holds of an open turn behind any run of it. -/
structure Running (t : Turn) : Prop where
  ordered : t.Ordered
  tracked : Tracked t.calls t.appended
  unclosed : ∀ f ∈ t.appended, f.entry.kind ≠ .turnClose

theorem running_opened (id : String) : Running (opened id) where
  ordered := fun _ _ => ⟨rfl, rfl⟩
  tracked := ⟨fun _ => rfl, List.nodup_nil, fun pre f post h => by simp [opened] at h⟩
  unclosed := by simp [opened]

theorem kind_of_said {p : Payload} (h : (saidBy p).isSome) : p.kind ≠ .turnClose := by
  cases p <;> simp [saidBy] at h <;> simp [Payload.kind]

theorem Running.perform (hw : w.Willing) (h : Running t) (hopen : t.closed = false) {op : Op}
    (hop : ∀ footer, op ≠ .close footer) : Running (advance w t op) := by
  obtain ⟨own, ⟨⟨words, happended, hwords⟩, -⟩, hkinds, htracked⟩ :=
    (filing_perform hw h.ordered hopen hop).files
  refine ⟨(arrived_perform hw h.ordered hopen op).ordered, ?_, ?_⟩
  · change Tracked _ (t.perform w op).turn.appended
    rw [happended]
    exact htracked _ (h.tracked.neutrals fun f hf => neutral_of_said (hwords f hf).1)
  · intro f hf
    change f ∈ (t.perform w op).turn.appended at hf
    rw [happended, List.mem_append, List.mem_append] at hf
    rcases hf with (hf | hf) | hf
    · exact h.unclosed f hf
    · exact kind_of_said (hwords f hf).1
    · exact hkinds f hf

theorem open_of_run {ops : List Op} (h : (runFrom (advance w) t ops).closed = false) :
    t.closed = false := by
  by_contra hclosed
  rw [(runFrom_closed (by simpa using hclosed) ops).1] at h
  cases h

/-- A run that leaves its turn open does not begin with a close. -/
theorem Running.not_close (hw : w.Willing) (h : Running t) {op : Op} {ops : List Op}
    (hopen : (runFrom (advance w) t (op :: ops)).closed = false) (footer : Bool → EntryTurnClose) :
    op ≠ .close footer := by
  rintro rfl
  obtain ⟨t₁, last, -, -, -, -, -, -, -, -, hclosed, -⟩ :=
    close_willing hw h.ordered (open_of_run hopen) footer
  have hstays := (runFrom_closed (w := w) (t := advance w t (.close footer)) hclosed ops).1
  change (runFrom (advance w) (advance w t (.close footer)) ops).closed = false at hopen
  rw [hstays] at hopen
  cases hopen

/-- A turn still open behind a run was open, and running, all along. -/
theorem running_run (hw : w.Willing) (h : Running t) {ops : List Op}
    (hopen : (runFrom (advance w) t ops).closed = false) :
    t.closed = false ∧ Running (runFrom (advance w) t ops) ∧
      ∀ k, (runFrom (advance w) t ops).stream k = t.stream k ++ arrived w t ops k := by
  induction ops generalizing t with
  | nil => exact ⟨hopen, h, fun k => (List.append_nil _).symm⟩
  | cons op ops ih =>
    have hnow := open_of_run hopen
    have hop := h.not_close hw hopen
    obtain ⟨-, hrunning, hstream⟩ := ih (h.perform hw hnow hop) hopen
    refine ⟨hnow, hrunning, fun k => ?_⟩
    rw [arrived, ← List.append_assoc, ← (arrived_perform hw h.ordered hnow op).stream k]
    exact hstream k

/-- What a turn whose sink takes every append conserves, over a run its close ends. -/
structure Conserves (w : World) (id : String) (ops : List Op) (footer : Bool → EntryTurnClose)
    (out : Outcome) : Prop where
  closes : out.err = none ∧ out.turn.closed = true
  order : ∀ k, out.turn.written k = arrived w (opened id) (ops ++ [.close footer]) k
  laneless : ∀ pre op post, ops ++ [.close footer] = pre ++ op :: post →
    (∃ f ∈ (runFrom (advance w) (opened id) (pre ++ [op])).appended.drop
      (runFrom (advance w) (opened id) pre).appended.length, f.laneless = true) →
    ∀ k, ((runFrom (advance w) (opened id) (pre ++ [op])).lanes k).opened = none
  answered : ∀ pre f post call, out.turn.appended = pre ++ f :: post →
    f.entry.payload = .toolCall call →
    ∃ r ∈ post, (∃ res, r.entry.payload = .toolResult res) ∧ r.entry.id = toolResultID call.id ∧
      callLane (pre ++ [f]) call.id = some r.entry.lane
  last : ∃ before close, out.turn.appended = before ++ [close] ∧ close.entry.kind = .turnClose ∧
    ∀ f ∈ before, f.entry.kind ≠ .turnClose
  silent : ∀ more, (runFrom (advance w) out.turn more).appended = out.turn.appended

/-- An operation that files a lane-less entry leaves no lane open. -/
theorem Files.laneless_shut {own : List Filed} (h : Files t t' own)
    (hnew : ∃ f ∈ t'.appended.drop t.appended.length, f.laneless = true) (k : String) :
    (t'.lanes k).opened = none := by
  obtain ⟨words, happended, hwords⟩ := h.appended
  obtain ⟨f, hf, hall⟩ := hnew
  rw [happended, List.append_assoc, List.drop_left, List.mem_append] at hf
  rcases hf with hf | hf
  · rw [(hwords f hf).2] at hall
    cases hall
  · exact h.shut ⟨f, hf, hall⟩ k

/-- What a close files: the aborted results and the turn_close. -/
theorem files_close (hw : w.Willing) (h : Running t) (hopen : t.closed = false)
    (footer : Bool → EntryTurnClose) : ∃ before close,
      Files t (t.close w footer).turn (before ++ [close]) ∧ close.entry.kind = .turnClose ∧
      (∀ f ∈ before, f.entry.kind ≠ .turnClose) ∧ (t.close w footer).err = none ∧
      (t.close w footer).turn.closed = true ∧ (∀ k, ((t.close w footer).turn.lanes k).opened = none) ∧
      Tracked [] (t.close w footer).turn.appended := by
  obtain ⟨t₁, last, hs, hshut, -, hlast, -, happended, hlanes, -, hclosed, -, herr⟩ :=
    close_willing hw h.ordered hopen footer
  obtain ⟨words, heq, hwords⟩ := hs.words
  have hnone : ∀ k, ((t.close w footer).turn.lanes k).opened = none := by
    rw [hlanes]
    exact hshut
  refine ⟨t.calls.map (abortedFor t₁), last, ⟨⟨words, ?_, hwords⟩, fun _ => hnone⟩,
    Entry.kind_of_payload hlast, fun f hf => ?_, herr, hclosed, hnone, ?_⟩
  · rw [happended, heq]
    simp
  · obtain ⟨c, -, rfl⟩ := List.mem_map.mp hf
    simp [abortedFor, Turn.entry, Entry.kind, Payload.kind]
  · rw [happended]
    refine Tracked.neutral ?_ (by rw [hlast]; rfl)
    have hstart : Tracked t.calls t₁.appended := by
      rw [heq]
      exact h.tracked.neutrals fun f hf => neutral_of_said (hwords f hf).1
    -- Each aborted result settles the first call left.
    generalize t.calls = calls at hstart
    generalize t₁.appended = fs at hstart
    induction calls generalizing fs with
    | nil => simpa using hstart
    | cons c calls ih =>
      have hfirst := hstart.lanes c.id
      rw [List.find?_cons_of_pos (by simp)] at hfirst
      have hresult := hstart.result { status := .aborted } c.id
        (f := abortedFor t₁ c) rfl rfl fun lane hlane => by
          rw [← hfirst] at hlane
          exact Option.some.inj hlane
      have hrest : (c :: calls).filter (fun d => d.id ≠ c.id) = calls := by
        have hnodup := hstart.nodup
        rw [List.map_cons, List.nodup_cons] at hnodup
        rw [List.filter_cons_of_neg (by simp), List.filter_eq_self]
        intro d hd
        have hne : d.id ≠ c.id := fun heq => hnodup.1 (heq ▸ List.mem_map_of_mem hd)
        simpa using hne
      rw [hrest] at hresult
      have hnext := ih _ hresult
      simpa using hnext

end Marotte.TurnLog
