import Marotte.Projection.Calls

/-! # What a turn's own operations are made of

Each operation of the newest turn is a run of its steps, so a sound turn stays sound; a settled
one withholds nothing and waits for no result.
-/
namespace Marotte.Projection.NewestTurn

variable {env : Env} {named : String → Prop} {p q : NewestTurn}

/-- What every turn with an entry keeps. -/
structure Sound (env : Env) (named : String → Prop) (p : NewestTurn) : Prop where
  bracketed : p.Bracketed
  indexed : p.Indexed
  agreed : p.Agreed
  heard : p.Heard
  unfiltered : p.Unfiltered
  tracked : p.Tracked
  identified : Fresh env named → p.Identified env named

namespace Sound

theorem step (h : p.Sound env named) (hstep : Step env named p q) : q.Sound env named where
  bracketed := h.bracketed.step hstep
  indexed := h.indexed.step hstep
  agreed := h.agreed.step hstep
  heard := h.heard.step h.agreed h.indexed hstep
  unfiltered := h.unfiltered.step h.agreed h.indexed hstep
  tracked := h.tracked.step h.agreed hstep
  identified := fun hf => (h.identified hf).step hf h.agreed h.tracked hstep

theorem steps (h : p.Sound env named) (hsteps : Relation.ReflTransGen (Step env named) p q) :
    q.Sound env named := by
  induction hsteps with
  | refl => exact h
  | tail _ hstep ih => exact ih.step hstep

theorem cur_ne_nil (h : p.Sound env named) : p.cur ≠ [] := by
  obtain ⟨o, rest, hrows, _⟩ := h.bracketed.opens
  intro hnil
  simp [rows, hnil] at hrows

end Sound

/-! ## Sealed lanes -/

theorem steps_sealLanes (p : NewestTurn) :
    Relation.ReflTransGen (Step env named) p p.sealLanes := by
  have hfold : ∀ (lanes : List String) (q : NewestTurn),
      Relation.ReflTransGen (Step env named) q (lanes.foldl NewestTurn.sealLane q) := by
    intro lanes
    induction lanes with
    | nil => exact fun q => .refl
    | cons lane lanes ih => exact fun q => .head (.sealed q lane) (ih _)
  exact (hfold _ p).trans (hfold _ _)

theorem carry_sealLane (p : NewestTurn) (lane : String) :
    (p.sealLane lane).carry = Keyed.erase Carry.lane p.carry lane := by
  have hset : (p.setCarry lane "" []).carry = Keyed.erase Carry.lane p.carry lane := by
    simp [setCarry]
  rcases p.sealLane_cases lane with ⟨he, _⟩ | ⟨c, _, _, he⟩
  · rw [he]
    exact hset
  · obtain ⟨_, hkept, _⟩ := (p.setCarry lane "" []).extendSay_kept .text c.say lane 0 c.held
    rw [he]
    exact hkept.trans hset

theorem calls_sealLane (p : NewestTurn) (lane : String) :
    (p.sealLane lane).calls = p.calls ∧ (p.sealLane lane).callOrder = p.callOrder ∧
      (p.sealLane lane).minted = p.minted ∧ (p.sealLane lane).landed = p.landed := by
  rcases p.sealLane_cases lane with ⟨he, _⟩ | ⟨c, _, _, he⟩
  · rw [he]
    exact ⟨rfl, rfl, rfl, rfl⟩
  · obtain ⟨_, _, hcalls, horder, _, hminted, hland, _⟩ :=
      (p.setCarry lane "" []).extendSay_kept .text c.say lane 0 c.held
    rw [he]
    exact ⟨hcalls, horder, hminted, hland⟩

theorem laneOpen_sealLane (p : NewestTurn) (lane : String) :
    Keyed.find LaneSay.lane (p.sealLane lane).laneOpen lane = none := by
  rcases p.sealLane_cases lane with ⟨he, _⟩ | ⟨c, _, _, he⟩ <;>
    rw [he] <;> exact Keyed.find_erase_self

theorem heldSay_sealLane (p : NewestTurn) (lane : String) :
    (p.sealLane lane).heldSay lane = none := by
  rw [heldSay, laneOpen_sealLane, carry_sealLane, Keyed.find_erase_self]
  rfl

theorem mem_sortedLanes {lane : String} {lanes : List String} :
    lane ∈ sortedLanes lanes ↔ lane ∈ lanes :=
  List.mem_insertionSort _

/-- No lane withholds anything once all are sealed. -/
theorem carry_sealLanes (p : NewestTurn) : p.sealLanes.carry = [] := by
  have hfold : ∀ (lanes : List String) (q : NewestTurn), ∀ c ∈ (lanes.foldl sealLane q).carry,
      c ∈ q.carry ∧ c.lane ∉ lanes := by
    intro lanes
    induction lanes with
    | nil => exact fun q c hc => ⟨hc, List.not_mem_nil⟩
    | cons lane lanes ih =>
      intro q c hc
      obtain ⟨hm, hn⟩ := ih (q.sealLane lane) c hc
      rw [carry_sealLane] at hm
      obtain ⟨hm, hne⟩ := Keyed.mem_erase.mp hm
      refine ⟨hm, ?_⟩
      rintro (_ | ⟨_, hl⟩)
      · exact hne rfl
      · exact hn hl
  rw [List.eq_nil_iff_forall_not_mem]
  intro c hc
  obtain ⟨hm, hn⟩ := hfold _ _ c hc
  exact hn (mem_sortedLanes.mpr (List.mem_map_of_mem hm))

/-! ## Settled calls -/

/-- Other unsettled calls. -/
def withCalls (p : NewestTurn) (calls : String → Option String) (callOrder : List String) :
    NewestTurn :=
  { p with calls, callOrder }

/-- What an abort appends depends on the calls only through the lane of its own. -/
theorem foldl_abortCall (ids : List String) (p : NewestTurn) (calls : String → Option String)
    (order : List String) (h : ∀ id ∈ ids, calls id = p.calls id) :
    ids.foldl abortCall (p.withCalls calls order) =
      (ids.foldl abortCall p).withCalls calls order := by
  induction ids generalizing p with
  | nil => rfl
  | cons id ids ih =>
    have hlane : (p.withCalls calls order).abortCall id =
        (p.abortCall id).withCalls calls order := by
      simp only [abortCall, withCalls, h id List.mem_cons_self]
      rfl
    rw [List.foldl_cons, hlane]
    exact ih (p.abortCall id) fun id' hid => h id' (List.mem_cons_of_mem _ hid)

/-- Aborting the unsettled calls one by one settles each with a result. -/
theorem steps_abort (ids : List String) (p : NewestTurn) (hl : p.callOrder = ids)
    (horder : ids.Nodup) (hkeys : ∀ id, id ∈ ids ↔ (p.calls id).isSome) :
    Relation.ReflTransGen (Step env named) p
      ((ids.foldl abortCall p).withCalls (fun _ => none) []) := by
  induction ids generalizing p with
  | nil =>
    have hnone : p.calls = fun _ => none := by
      funext id
      simpa using hkeys id
    have heq : p.withCalls (fun _ => none) [] = p := by
      rw [← hnone, ← hl]
      rfl
    rw [List.foldl_nil, heq]
  | cons id ids ih =>
    obtain ⟨lane, hlane⟩ := Option.isSome_iff_exists.mp ((hkeys id).mp List.mem_cons_self)
    obtain ⟨hnew, hnodup⟩ := List.nodup_cons.mp horder
    have hfilter : p.callOrder.filter (· ≠ id) = ids := by
      rw [hl, List.filter_cons_of_neg (by simp), List.filter_eq_self]
      intro x hx
      simpa using ne_of_mem_of_not_mem hx hnew
    have hq : (p.settleCall id).appendEntry (toolResultID id) lane 0
        (.toolResult { status := .aborted }) =
          (p.abortCall id).withCalls (Function.update p.calls id none) ids := by
      simp only [abortCall, hlane, Option.getD_some, settleCall, hfilter]
      rfl
    have hrest := ih ((p.abortCall id).withCalls (Function.update p.calls id none) ids) rfl hnodup
      (by
        intro x
        change x ∈ ids ↔ (Function.update p.calls id none x).isSome
        by_cases hx : x = id
        · simp [hx, hnew]
        · have hmem := hkeys x
          simp only [List.mem_cons, hx, false_or] at hmem
          simpa [hx] using hmem)
    rw [foldl_abortCall ids (p.abortCall id)] at hrest
    · apply Relation.ReflTransGen.head (.result p id lane 0 { status := .aborted } hlane)
      rw [hq]
      exact hrest
    · intro x hx
      exact Function.update_of_ne (ne_of_mem_of_not_mem hx hnew) _ _

namespace Sound

theorem steps_settle (h : p.Sound env named) :
    Relation.ReflTransGen (Step env named) p p.settle := by
  have hsealed := h.steps p.steps_sealLanes
  exact p.steps_sealLanes.trans
    (steps_abort _ p.sealLanes rfl hsealed.tracked.order hsealed.tracked.keys)

/-- A close is a settled turn, and its one turn_close. -/
theorem steps_closeTurn (h : p.Sound env named) :
    Relation.ReflTransGen (Step env named) p (p.closeTurn env) := by
  unfold closeTurn
  rw [if_neg h.cur_ne_nil]
  dsimp only
  split
  · exact h.steps_settle
  · split
    · exact h.steps_settle
    · next c _ hclosed =>
      exact h.steps_settle.tail (.close p.settle _ (by simpa using hclosed))

end Sound

/-- Nothing withheld, and no result waited for. -/
def Settled (p : NewestTurn) : Prop := p.carry = [] ∧ ∀ id, p.calls id = none

theorem settled_settle (p : NewestTurn) : p.settle.Settled := by
  have hfold : ∀ (ids : List String) (q : NewestTurn),
      (ids.foldl abortCall q).carry = q.carry := by
    intro ids
    induction ids with
    | nil => exact fun _ => rfl
    | cons id ids ih => exact fun q => ih (q.abortCall id)
  exact ⟨(hfold _ _).trans p.carry_sealLanes, fun _ => rfl⟩

theorem settled_closeTurn (hcur : p.cur ≠ []) : (p.closeTurn env).Settled := by
  unfold closeTurn
  rw [if_neg hcur]
  dsimp only
  split
  · exact p.settled_settle
  · split <;> exact p.settled_settle

/-! ## A started turn -/

theorem sound_startTurn (source : TurnOpenSourceName) (prompt : Option EntryPrompt) (ts : ℤ) :
    (p.startTurn env source prompt ts).Sound env named := by
  have hrows : (p.startTurn env source prompt ts).rows =
      [{ kind := .turnOpen, id := env.newID p.minted, lane := "", turn := env.newID p.minted }] :=
    rfl
  constructor
  · constructor
    · exact ⟨_, [], hrows, rfl, rfl, by intros; contradiction⟩
    · intro r hr
      rw [hrows, List.mem_singleton] at hr
      rw [hr]
      rfl
    · rw [hrows]
      rfl
    · intros; contradiction
  · constructor
    · intros; contradiction
    · intro i e he hsay
      cases i with
      | zero =>
        obtain rfl := Option.some_inj.mp he
        cases hsay
      | succ i => cases he
    · exact fun _ _ => rfl
  · constructor
    · exact List.nodup_nil
    · intros; contradiction
    · intros; contradiction
    · intros; contradiction
    · intros; contradiction
  · intro say _
    exact ⟨[], .nil, .inr ⟨by intros; contradiction, rfl⟩⟩
  · exact fun _ _ => rfl
  · constructor
    · exact List.nodup_nil
    · intro id
      exact ⟨by intros; contradiction, by intros; contradiction⟩
    · exact fun id _ => ⟨rfl, by rw [resultsOf, hrows]; rfl⟩
    · intro id r hr
      rw [callsOf, hrows] at hr
      cases hr
  · intro _
    constructor
    · intro id
      rw [tally, hrows]
      exact Nat.le_refl _
    · intro id hpos
      rw [tally, hrows] at hpos
      cases hpos
    · intro id hpos
      obtain ⟨r, hr, _, rfl⟩ := tally_pos hpos
      rw [hrows, List.mem_singleton] at hr
      rw [hr]
      exact ⟨⟨p.minted, Nat.lt_succ_self _, rfl⟩, List.not_mem_nil⟩
    · intro id
      rw [tally, hrows]
      exact List.countP_le_length
    · intros; contradiction
    · intros; contradiction

/-! ## Deltas -/

theorem Origin.sealLane (ha : p.Agreed) {say : String} (h : Origin env named p say)
    (lane : String) : Origin env named (p.sealLane lane) say := by
  obtain ⟨_, _, hminted, hland⟩ := p.calls_sealLane lane
  by_cases hsay : say ∈ saysOf p.landed
  · left
    rwa [hland]
  · rcases h with hs | hn | ⟨hk, hnew⟩
    · exact absurd hs hsay
    · exact .inr (.inl hn)
    · refine .inr (.inr ⟨hminted ▸ hk, ?_⟩)
      rcases p.sealLane_cases lane with ⟨he, _⟩ | ⟨c, hc, _, he⟩
      · rw [he]
        exact hnew
      · rw [he]
        change say ∉ ((p.setCarry lane "" []).extendSay .text c.say lane 0 c.held).rows.map Row.id
        rcases (p.setCarry lane "" []).extendSay_rows .text c.say lane 0 c.held with
          ⟨_, hr⟩ | ⟨_, hr⟩
        · rw [hr]
          exact hnew
        · rw [hr, List.map_append, List.mem_append, not_or]
          refine ⟨hnew, ?_⟩
          rw [List.map_singleton, List.mem_singleton]
          rintro rfl
          obtain ⟨delta, hd⟩ := ha.carried c (Keyed.mem_of_find hc)
          exact hsay (mem_saysOf.mpr ⟨c.lane, .text, delta, hd⟩)

/-- An id just minted is in no row. -/
theorem origin_minted (h : p.Sound env named) (hf : Fresh env named) :
    Origin env named { p with minted := p.minted + 1 } (env.newID p.minted) := by
  have hi := h.identified hf
  refine .inr (.inr ⟨⟨p.minted, Nat.lt_succ_self _, rfl⟩, fun hmem => ?_⟩)
  change env.newID p.minted ∈ p.rows.map Row.id at hmem
  have hold : ∀ k < p.minted, env.newID p.minted ≠ env.newID k :=
    fun k hk he => absurd (hf.mints he) (Nat.ne_of_gt hk)
  have hcount := List.count_pos_iff.mpr hmem
  rw [count_ids] at hcount
  have hplaced := hi.placed (env.newID p.minted)
  rcases Nat.eq_zero_or_pos (p.tally isBracket (env.newID p.minted)) with hb | hb
  · rcases Nat.eq_zero_or_pos (p.tally isSay (env.newID p.minted)) with hs | hs
    · have hname : env.newID p.minted ∈ namesOf p.landed := by
        apply List.count_pos_iff.mp
        omega
      exact hf.named _ (hi.names _ hname) _ rfl
    · rcases hi.origin _ (hi.said _ hs) with hn | ⟨k, hk, he⟩
      · exact hf.named _ hn _ rfl
      · exact hold k hk he
  · obtain ⟨⟨k, hk, he⟩, _⟩ := hi.bracket _ hb
    exact hold k hk he

/-- The say a lane is accumulating has a delta already. -/
theorem said_heldSay (h : p.Agreed) {lane : String} {held : LaneSay}
    (hh : p.heldSay lane = some held) : held.id ∈ saysOf p.landed := by
  unfold heldSay at hh
  split at hh
  · next o ho =>
    obtain rfl := Option.some_inj.mp hh
    exact h.said o (Keyed.mem_of_find ho)
  · obtain ⟨c, hc, rfl⟩ := Option.map_eq_some_iff.mp hh
    obtain ⟨delta, hd⟩ := h.carried c (Keyed.mem_of_find hc)
    exact mem_saysOf.mpr ⟨c.lane, .text, delta, hd⟩

namespace Sound

/-- Behind the barrier a delta lands in a lane that accumulates nothing but its own say. -/
theorem steps_barrier (h : p.Sound env named) (kind : SayKind) (lane say : String) (ts : ℤ)
    (delta : List Char) (ho : Fresh env named → Origin env named p say) :
    Relation.ReflTransGen (Step env named) p
      ((p.barrier kind lane say).addDelta kind lane say ts delta) := by
  unfold barrier
  split
  · next held hheld =>
    split
    · refine .head (.sealed p lane) (.single (.delta _ kind lane say ts delta ?_ ?_))
      · rw [heldSay_sealLane]
        nofun
      · exact fun hf => (ho hf).sealLane h.agreed lane
    · next hsame =>
      refine .single (.delta p kind lane say ts delta ?_ ho)
      intro held' hheld'
      obtain rfl := Option.some_inj.mp (hheld.symm.trans hheld')
      simpa [not_or] using hsame
  · next hnone =>
    refine .single (.delta p kind lane say ts delta ?_ ho)
    rw [hnone]
    nofun

theorem steps_hear (h : p.Sound env named) (kind : SayKind) (lane sayID : String) (ts : ℤ)
    (delta : List Char) (hn : sayID ≠ "" → named sayID) :
    Relation.ReflTransGen (Step env named) p
      (((p.sayIDFor env kind lane sayID).2.barrier kind lane
        (p.sayIDFor env kind lane sayID).1).addDelta kind lane
          (p.sayIDFor env kind lane sayID).1 ts delta) := by
  have hmint : Relation.ReflTransGen (Step env named) p
      ((({ p with minted := p.minted + 1 } : NewestTurn).barrier kind lane
        (env.newID p.minted)).addDelta kind lane (env.newID p.minted) ts delta) :=
    .head (.mint p) ((h.step (.mint p)).steps_barrier kind lane (env.newID p.minted) ts delta
      fun hf => origin_minted h hf)
  unfold sayIDFor
  split
  · next hne => exact h.steps_barrier kind lane sayID ts delta fun _ => .inr (.inl (hn hne))
  · split
    · next held hheld =>
      split
      · exact h.steps_barrier kind lane held.id ts delta
          fun _ => .inl (said_heldSay h.agreed hheld)
      · exact hmint
    · exact hmint

end Sound
end Marotte.Projection.NewestTurn
