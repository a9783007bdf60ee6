import Marotte.TurnLog.Seals
import Marotte.Library.Along

/-! # What a refused append loses

A seal clears its lane before it hands the entry on, so a refusal takes the words with it. An
observer that sees only the operations and their answers counts what each lane should still hold.
-/
namespace Marotte.TurnLog

def Piece.isChar : Piece → Bool
  | char _ => true
  | own _ => false

@[simp] theorem filter_charsOf (text : String) :
    (charsOf text).filter Piece.isChar = charsOf text := by
  rw [charsOf, List.filter_eq_self]
  intro p hp
  obtain ⟨c, -, rfl⟩ := List.mem_map.mp hp
  rfl

@[simp] theorem length_charsOf (text : String) : (charsOf text).length = text.toList.length := by
  simp [charsOf]

/-- The part of a carry a seal releases. -/
def proseOf (carry : String) : String := if carry = "" ∨ isMarker carry = true then "" else carry

theorem Lane.prose_eq (l : Lane) : l.prose = proseOf l.carry := by
  rw [Lane.prose, Lane.released, proseOf]
  split <;> rfl

/-- Whether an entry says anything. -/
def Filed.loud (f : Filed) : Bool :=
  match saidBy f.entry.payload with
  | some text => text ≠ ""
  | none => false

namespace Turn

/-- A lane's words: those appended, and those it holds open. -/
def said (t : Turn) (key : String) : List Piece := (t.stream key).filter Piece.isChar

/-- No append that the sink refused said anything. -/
def Quiet (t : Turn) : Prop := ∀ f ∈ t.refused, f.loud = false

instance (t : Turn) : Decidable t.Quiet := inferInstanceAs (Decidable (∀ f ∈ t.refused, _))

/-- How much a lane has said or withholds. -/
def weight (t : Turn) (key : String) : ℕ :=
  (t.said key).length + (t.lanes key).prose.toList.length

end Turn

/-- Whether the entries sealed hold a lane's words. -/
def sealedIn (sealed : List Sealed) (key : String) : Bool :=
  sealed.any (fun s => s.entry.lane = key && (saidBy s.entry.payload).isSome)

@[simp] theorem sealedIn_nil (key : String) : sealedIn [] key = false := rfl

@[simp] theorem sealedIn_append (sealed sealed' : List Sealed) (key : String) :
    sealedIn (sealed ++ sealed') key = (sealedIn sealed key || sealedIn sealed' key) :=
  List.any_append

theorem sealedIn_single (s : Sealed) (key : String) :
    sealedIn [s] key = (s.entry.lane = key && (saidBy s.entry.payload).isSome) := by
  simp [sealedIn]

/-- The words of every lane kept: a lane that was sealed has its carry among them. -/
structure Tells (t t' : Turn) (sealed : List Sealed) : Prop where
  said : ∀ k, t'.said k =
    t.said k ++ if sealedIn sealed k then charsOf (t.lanes k).prose else []
  prose : ∀ k, (t'.lanes k).prose = if sealedIn sealed k then "" else (t.lanes k).prose
  quiet : t'.Quiet ↔ t.Quiet

/-- Some words lost to a refusal. -/
def Loses (t t' : Turn) : Prop := ¬ t'.Quiet ∧ ∃ k, t'.weight k < t.weight k

/-- What an operation leaves of the words, whatever the sink takes. -/
def Told (t : Turn) (out : Outcome) : Prop :=
  Tells t out.turn out.sealed ∨ out.err ≠ none ∧ Loses t out.turn

variable {w : World} {t t₁ t' : Turn} {key : String} {sealed sealed' : List Sealed}

theorem Tells.refl (t : Turn) : Tells t t [] where
  said := by simp [sealedIn]
  prose := by simp [sealedIn]
  quiet := Iff.rfl

theorem Tells.trans (h : Tells t t₁ sealed) (h' : Tells t₁ t' sealed') :
    Tells t t' (sealed ++ sealed') where
  said k := by
    rw [h'.said, h.said, h.prose, sealedIn_append]
    cases sealedIn sealed k <;> cases sealedIn sealed' k <;> simp
  prose k := by
    rw [h'.prose, h.prose, sealedIn_append]
    cases sealedIn sealed k <;> cases sealedIn sealed' k <;> simp
  quiet := h'.quiet.trans h.quiet

theorem Tells.weight_eq (h : Tells t t' sealed) (k : String) : t'.weight k = t.weight k := by
  rw [Turn.weight, Turn.weight, h.said, h.prose]
  cases sealedIn sealed k <;> simp

theorem Tells.loses (h : Tells t t₁ sealed) (hl : Loses t₁ t') : Loses t t' := by
  obtain ⟨hloud, k, hk⟩ := hl
  exact ⟨hloud, k, by rwa [h.weight_eq] at hk⟩

theorem Tells.told {out : Outcome} (h : Tells t t₁ sealed) (hout : Told t₁ out) :
    Told t { out with sealed := sealed ++ out.sealed } := by
  rcases hout with hkept | ⟨herr, hlost⟩
  · exact .inl (h.trans hkept)
  · exact .inr ⟨herr, h.loses hlost⟩

/-- What leaves the entries, the open texts, the carries and the refusals alone tells nothing. -/
theorem Tells.of_same (happended : t'.appended = t.appended)
    (hheld : ∀ k, (t'.lanes k).held = (t.lanes k).held)
    (hprose : ∀ k, (t'.lanes k).prose = (t.lanes k).prose) (hquiet : t'.Quiet ↔ t.Quiet) :
    Tells t t' [] where
  said k := by simp [Turn.said, Turn.stream, Turn.written, happended, hheld, sealedIn]
  prose k := by simp [hprose, sealedIn]
  quiet := hquiet

theorem quiet_refusing (t : Turn) (f : Filed) :
    (t.refusing f).Quiet ↔ t.Quiet ∧ f.loud = false := by
  constructor
  · intro h
    exact ⟨fun g hg => h g (List.mem_append_left _ hg), h f (by simp [Turn.refusing])⟩
  · rintro ⟨h, hf⟩ g hg
    rcases List.mem_append.mp hg with hg | hg
    · exact h g hg
    · rw [List.mem_singleton.mp hg, hf]

/-- An entry of another kind changes no words, taken or refused. -/
theorem append_told {p : Payload} (hp : saidBy p = none) (w : World) (t : Turn) (laneless : Bool)
    (key id : String) : (∃ e, t.append w laneless key id p = (t.taking ⟨e, laneless⟩, some e) ∧
        Tells t (t.taking ⟨e, laneless⟩) [{ entry := e }]) ∨
      ∃ f, t.append w laneless key id p = (t.refusing f, none) ∧ Tells t (t.refusing f) [] := by
  have hsilent : (⟨t.entry key id p, laneless⟩ : Filed).loud = false := by
    simp [Filed.loud, Turn.entry, hp]
  have hnone : ∀ k, sealedIn [{ entry := t.entry key id p }] k = false := by
    simp [sealedIn, Turn.entry, hp]
  rcases Turn.append_cases w t laneless key id p with ⟨-, heq⟩ | ⟨-, heq⟩
  · refine .inl ⟨_, heq, fun k => ?_, fun k => ?_, Iff.rfl⟩
    · rw [hnone]
      simp only [Turn.said, Turn.stream, Turn.written, Turn.taking, List.filter_append,
        List.flatMap_append]
      by_cases hk : (⟨t.entry key id p, laneless⟩ : Filed).inLane k = true
      · simp [hk, piecesOf, Turn.entry, hp, Piece.isChar]
      · simp [hk]
    · rw [hnone]
      rfl
  · refine .inr ⟨_, heq, Tells.of_same rfl (fun _ => rfl) (fun _ => rfl) ?_⟩
    rw [quiet_refusing, hsilent]
    simp

/-- A seal keeps its lane's words where the sink takes the entry, or where there were none. -/
theorem sealLane_told (w : World) (t : Turn) (key : String) : Told t (t.sealLane w key) := by
  have hout := sealLane_outcome w t key
  generalize t.sealLane w key = out at hout
  cases hout with
  | idle hopen hprose =>
    refine .inl (Tells.of_same rfl (fun k => ?_) (fun k => ?_) Iff.rfl)
    · by_cases hk : k = key
      · subst hk
        simp [Lane.held]
      · simp only [Turn.setLane_of_ne _ hk]
    · by_cases hk : k = key
      · subst hk
        simp [hprose]
      · simp only [Turn.setLane_of_ne _ hk]
  | sealed t₁ o delta n h haccepts =>
    have happended : t₁.appended = t.appended := by rw [h.rest]
    have hrefused : t₁.refused = t.refused := by rw [h.rest]
    have hwritten : ∀ k, t₁.written k = t.written k := by
      intro k
      rw [Turn.written, Turn.written, happended]
    refine .inl ⟨fun k => ?_, fun k => ?_, ?_⟩
    · rw [Turn.said, Turn.said, Turn.stream, Turn.stream, Turn.written_taking, hwritten,
        Turn.taking_lanes]
      by_cases hk : k = key
      · subst hk
        rw [Lane.held_of_none h.opened, sealedIn_single]
        simp [Filed.inLane, Turn.entry, h.text]
      · simp [Filed.inLane, Turn.entry, Ne.symm hk, h.others k hk, sealedIn]
    · by_cases hk : k = key
      · subst hk
        simp [Turn.taking, h.prose, sealedIn, Turn.entry]
      · simp [Turn.taking, h.others k hk, sealedIn, Turn.entry, Ne.symm hk]
    · simp only [Turn.Quiet, Turn.taking, hrefused]
  | refused t₁ o h haccepts =>
    have happended : t₁.appended = t.appended := by rw [h.rest]
    have hrefused : t₁.refused = t.refused := by rw [h.rest]
    have hquiet : t₁.Quiet ↔ t.Quiet := by simp only [Turn.Quiet, hrefused]
    by_cases htext : o.text = ""
    · have hboth : (t.lanes key).held = "" ∧ (t.lanes key).prose = "" := by
        have hjoin := h.text.symm.trans htext
        simpa using hjoin
      refine .inl (Tells.of_same happended (fun k => ?_) (fun k => ?_) ?_)
      · by_cases hk : k = key
        · subst hk
          exact (Lane.held_of_none h.opened).trans hboth.1.symm
        · exact congrArg Lane.held (h.others k hk)
      · by_cases hk : k = key
        · subst hk
          exact h.prose.trans hboth.2.symm
        · exact congrArg Lane.prose (h.others k hk)
      · rw [quiet_refusing, hquiet]
        simp [Filed.loud, Turn.entry, htext]
    · refine .inr ⟨by simp, ?_, key, ?_⟩
      · rw [quiet_refusing]
        simp [Filed.loud, Turn.entry, htext]
      · have hlength : 0 < o.text.toList.length := by
          rw [List.length_pos_iff, ne_eq, String.toList_eq_nil_iff]
          exact htext
        rw [h.text, String.toList_append, List.length_append] at hlength
        simp only [Turn.weight, Turn.said, Turn.stream, Turn.written, Turn.refusing, happended,
          h.prose, Lane.held_of_none h.opened, List.filter_append, List.length_append,
          filter_charsOf, length_charsOf]
        simp only [String.toList_empty, List.length_nil]
        omega

/-- What holds of a seal that went through. -/
theorem Told.kept (h : Told t ⟨t', sealed, none⟩) : Tells t t' sealed := by
  rcases h with hkept | ⟨herr, -⟩
  · exact hkept
  · exact absurd rfl herr

theorem sealLanes_told (w : World) (t : Turn) (keys : List String) :
    Told t (t.sealLanes w keys) := by
  induction keys generalizing t with
  | nil => exact .inl (Tells.refl t)
  | cons key keys ih =>
    have hfirst := sealLane_told w t key
    rw [Turn.sealLanes]
    rcases hout : t.sealLane w key with ⟨t₁, sealed, err⟩
    rw [hout] at hfirst
    cases err with
    | some err => exact hfirst
    | none => exact hfirst.kept.told (ih t₁)

/-- A change of the turn outside its lanes, entries and refusals. -/
theorem Tells.of_eq (t t' : Turn) (hlanes : t'.lanes = t.lanes) (happended : t'.appended = t.appended)
    (hrefused : t'.refused = t.refused) : Tells t t' [] := by
  refine Tells.of_same happended (fun k => by rw [hlanes]) (fun k => by rw [hlanes]) ?_
  rw [Turn.Quiet, Turn.Quiet, hrefused]

theorem Told.closed (t : Turn) : Told t { turn := t, err := some .closed } :=
  .inl (Tells.refl t)

/-- An entry of one lane keeps the words its seal kept. -/
theorem laned_told {p : Payload} (hp : saidBy p = none) {after : Turn → Turn}
    (hafter : ∀ t, Tells t (after t) []) (w : World) (t : Turn) (key id : String) :
    Told t (t.laned w key id p after) := by
  unfold Turn.laned
  split
  · exact Told.closed t
  have hseal := sealLane_told w t key
  rcases hout : t.sealLane w key with ⟨t₁, sealed, err⟩
  rw [hout] at hseal
  cases err with
  | some err => exact hseal
  | none =>
    rcases append_told hp w t₁ false key id with ⟨e, heq, ha⟩ | ⟨f, heq, ha⟩
    · simp only [heq]
      have hemitted := ha.trans (Tells.of_eq (t₁.taking ⟨e, false⟩)
        { t₁.taking ⟨e, false⟩ with emitted := true } rfl rfl rfl)
      have hall := hseal.kept.trans (hemitted.trans (hafter _))
      simp only [List.append_nil] at hall
      exact .inl hall
    · simp only [heq]
      have hall := hseal.kept.trans ha
      rw [List.append_nil] at hall
      exact .inl hall

/-- An entry of no lane keeps the words the seals kept. -/
theorem laneless_told {p : Payload} (hp : saidBy p = none) (w : World) (t : Turn) (id : String) :
    Told t (t.laneless w id p) := by
  unfold Turn.laneless
  split
  · exact Told.closed t
  have hseal : Told t (t.sealAll w) := sealLanes_told w t t.order
  rcases hout : t.sealAll w with ⟨t₁, sealed, err⟩
  rw [hout] at hseal
  cases err with
  | some err => exact hseal
  | none =>
    rcases append_told hp w t₁ true "" id with ⟨e, heq, ha⟩ | ⟨f, heq, ha⟩
    · simp only [heq]
      exact .inl (hseal.kept.trans ha)
    · simp only [heq]
      have hall := hseal.kept.trans ha
      rw [List.append_nil] at hall
      exact .inl hall

theorem lanelessMinted_told {p : Payload} (hp : saidBy p = none) (w : World) (t : Turn) :
    Told t (t.lanelessMinted w p) := by
  have hminted : Tells t t.mintID.1 [] := Tells.of_eq _ _ rfl rfl rfl
  exact hminted.told (laneless_told hp w t.mintID.1 t.mintID.2)

theorem planState_told (w : World) (t : Turn) (plan : EntryPlan) : Told t (t.planState w plan) := by
  unfold Turn.planState
  split
  · exact .inl (Tells.refl t)
  have hminted := lanelessMinted_told (p := .plan plan) rfl w t
  rcases hout : t.lanelessMinted w (.plan plan) with ⟨t₁, sealed, err⟩
  rw [hout] at hminted
  cases err with
  | some err => exact hminted
  | none =>
    have hall := hminted.kept.trans (Tells.of_eq t₁ { t₁ with plan := some plan } rfl rfl rfl)
    rw [List.append_nil] at hall
    exact .inl hall

theorem abortCalls_told (w : World) (t : Turn) (calls : List OpenCall) :
    Told t (t.abortCalls w calls) := by
  induction calls generalizing t with
  | nil => exact .inl (Tells.refl t)
  | cons call calls ih =>
    rw [Turn.abortCalls]
    rcases append_told (p := .toolResult { status := .aborted }) rfl w t false call.lane
      (toolResultID call.id) with ⟨e, heq, ha⟩ | ⟨f, heq, ha⟩
    · simp only [heq]
      have hsettled := ha.trans (Tells.of_eq (t.taking ⟨e, false⟩)
        ((t.taking ⟨e, false⟩).settleCall call.id) rfl rfl rfl)
      exact hsettled.told (ih _)
    · simp only [heq]
      exact .inl ha

theorem close_told (w : World) (t : Turn) (footer : Bool → EntryTurnClose) :
    Told t (t.close w footer) := by
  unfold Turn.close
  split
  · exact Told.closed t
  have hseal : Told t (t.sealAll w) := sealLanes_told w t t.order
  rcases hout : t.sealAll w with ⟨t₁, sealed, err⟩
  rw [hout] at hseal
  cases err with
  | some err => exact hseal
  | none =>
    have habort := hseal.kept.told (abortCalls_told w t₁ t₁.calls)
    simp only
    rcases hcalls : t₁.abortCalls w t₁.calls with ⟨t₂, aborted, err⟩
    rw [hcalls] at habort
    cases err with
    | some err => exact habort
    | none =>
      have hminted := habort.kept.trans (Tells.of_eq t₂ t₂.mintID.1 rfl rfl rfl)
      rw [List.append_nil] at hminted
      rcases append_told (p := .turnClose (footer t₂.emitted)) rfl w t₂.mintID.1 true ""
        t₂.mintID.2 with ⟨e, heq, ha⟩ | ⟨f, heq, ha⟩
      · simp only [heq]
        have hall := (hminted.trans ha).trans (Tells.of_eq
          (t₂.mintID.1.taking ⟨e, true⟩) { t₂.mintID.1.taking ⟨e, true⟩ with closed := true }
            rfl rfl rfl)
        rw [List.append_nil] at hall
        exact .inl hall
      · simp only [heq]
        have hall := hminted.trans ha
        rw [List.append_nil] at hall
        exact .inl hall

/-! ## What an observer counts -/

/-- The words an operation gives a lane. -/
def Op.words (key : String) : Op → String
  | .textDelta k _ delta => if k = key then delta else ""
  | .thinkingDelta k _ delta => if k = key then delta else ""
  | _ => ""

/-- The carry an operation gives a lane. -/
def Op.withheld (key : String) : Op → Option String
  | .setSteerCarry k _ carry => if k = key then some carry else none
  | _ => none

/-- What an observer of the operations and their answers counts of a lane: the words that came,
and the carry withheld since. -/
structure Heard where
  text : String := ""
  carry : String := ""
  deriving DecidableEq, Repr

/-- A seal joins the carry to the words. -/
def Heard.settled (h : Heard) : Heard := { text := h.text ++ proseOf h.carry }

def Heard.after (h : Heard) (key : String) (op : Op) (out : Outcome) : Heard :=
  let h := if sealedIn out.sealed key then h.settled else h
  if out.err = none then
    { text := h.text ++ op.words key, carry := (op.withheld key).getD h.carry }
  else h

/-- What an operation leaves of the words where the sink refused none of them. -/
structure Hears (t : Turn) (op : Op) (out : Outcome) : Prop where
  said : ∀ k, out.turn.said k =
    t.said k ++ (if sealedIn out.sealed k then charsOf (t.lanes k).prose else []) ++
      if out.err = none then charsOf (op.words k) else []
  prose : ∀ k, (out.turn.lanes k).prose =
    let rest := if sealedIn out.sealed k then "" else (t.lanes k).prose
    if out.err = none then ((op.withheld k).map proseOf).getD rest else rest
  quiet : out.turn.Quiet ↔ t.Quiet

def Heeds (t : Turn) (op : Op) (out : Outcome) : Prop :=
  Hears t op out ∨ out.err ≠ none ∧ Loses t out.turn

theorem Told.heeds {op : Op} {out : Outcome} (h : Told t out)
    (hop : out.err = none → ∀ k, op.words k = "" ∧ op.withheld k = none) : Heeds t op out := by
  rcases h with h | h
  · refine .inl ⟨fun k => ?_, fun k => ?_, h.quiet⟩
    · rw [h.said]
      by_cases herr : out.err = none
      · rw [if_pos herr, (hop herr k).1, charsOf_empty, List.append_nil]
      · rw [if_neg herr, List.append_nil]
    · rw [h.prose]
      simp only
      by_cases herr : out.err = none
      · rw [if_pos herr, (hop herr k).2]
        rfl
      · rw [if_neg herr]
  · exact .inr h

/-- A delta joins its lane's words, or its seal was refused before it. -/
theorem delta_heeds (w : World) (t : Turn) (key say delta : String) (kind : StreamKind) {op : Op}
    (hwords : ∀ k, op.words k = if key = k then delta else "")
    (hwithheld : ∀ k, op.withheld k = none) : Heeds t op (t.delta w key say delta kind) := by
  unfold Turn.delta
  split
  · exact (Told.closed t).heeds (by simp)
  have hsame : Tells t (t.laneOf key) [] :=
    Tells.of_eq _ _ (Turn.laneOf_lanes t key) (Turn.laneOf_appended t key) (Turn.laneOf_refused t key)
  simp only
  split
  · rename_i htakes
    refine .inl ⟨fun k => ?_, fun k => ?_, ?_⟩
    · simp only [hwords, sealedIn_nil, Bool.false_eq_true, if_false, if_true, List.append_nil]
      have hwritten : ((t.laneOf key).setLane key
          (((t.laneOf key).lanes key).extend delta)).written k = t.written k := by
        rw [Turn.written, Turn.written]
        change ((t.laneOf key).appended.filter _).flatMap _ = _
        rw [Turn.laneOf_appended]
      rw [Turn.said, Turn.said, Turn.stream, Turn.stream, hwritten]
      by_cases hk : key = k
      · subst hk
        rw [Turn.setLane_self, Lane.held_extend htakes, Turn.laneOf_lanes]
        simp
      · rw [Turn.setLane_of_ne _ (Ne.symm hk), Turn.laneOf_lanes, if_neg hk]
        simp
    · simp only [hwithheld, sealedIn_nil, Bool.false_eq_true, if_false, if_true]
      by_cases hk : key = k
      · subst hk
        rw [Turn.setLane_self, Turn.laneOf_lanes]
        exact Lane.prose_of_carry rfl
      · rw [Turn.setLane_of_ne _ (Ne.symm hk), Turn.laneOf_lanes]
        rfl
    · exact hsame.quiet
  · have hseal := hsame.told (sealLane_told w (t.laneOf key) key)
    simp only [List.nil_append] at hseal
    rcases hout : (t.laneOf key).sealLane w key with ⟨t₁, sealed, err⟩
    rw [hout] at hseal
    cases err with
    | some err => exact hseal.heeds (by simp)
    | none =>
      have hkept := hseal.kept
      obtain ⟨l, o, minted, hentry, hl, hcarry, htext⟩ := openEntry_spec t₁ key kind say delta
      have hshut : (t₁.lanes key).opened = none := sealLane_shut hout
      simp only [hentry]
      refine .inl ⟨fun k => ?_, fun k => ?_, hkept.quiet⟩
      · simp only [hwords, if_true]
        rw [← hkept.said, Turn.said, Turn.said, Turn.stream, Turn.stream]
        change ((t₁.written k) ++ charsOf (Function.update t₁.lanes key l k).held).filter _ = _
        by_cases hk : key = k
        · subst hk
          rw [Function.update_self, Lane.held_of_none hshut, Lane.held, hl]
          simp [htext]
        · rw [Function.update_of_ne (Ne.symm hk), if_neg hk]
          simp
      · simp only [hwithheld, if_true]
        change (Function.update t₁.lanes key l k).prose = _
        rw [Option.map_none, Option.getD_none, ← hkept.prose]
        by_cases hk : key = k
        · subst hk
          rw [Function.update_self]
          exact Lane.prose_of_carry hcarry
        · rw [Function.update_of_ne (Ne.symm hk)]

theorem setSteerCarry_heeds (t : Turn) (key say carry : String) :
    Heeds t (.setSteerCarry key say carry) (t.setSteerCarry key say carry) := by
  have hsame : Tells t (t.laneOf key) [] :=
    Tells.of_eq _ _ (Turn.laneOf_lanes t key) (Turn.laneOf_appended t key) (Turn.laneOf_refused t key)
  refine .inl ⟨fun k => ?_, fun k => ?_, hsame.quiet⟩
  · have hsaid := hsame.said k
    simp only [sealedIn_nil, Bool.false_eq_true, if_false, List.append_nil] at hsaid
    simp only [Turn.setSteerCarry, Op.words, sealedIn_nil, Bool.false_eq_true, if_false, if_true,
      charsOf_empty, List.append_nil]
    rw [← hsaid, Turn.said, Turn.said, Turn.stream, Turn.stream]
    change (((t.laneOf key).written k) ++ _).filter _ = _
    by_cases hk : k = key
    · subst hk
      rw [Turn.setLane_self]
      rfl
    · rw [Turn.setLane_of_ne _ hk]
  · simp only [Turn.setSteerCarry, Op.withheld, sealedIn_nil, Bool.false_eq_true, if_false, if_true]
    by_cases hk : key = k
    · subst hk
      rw [Turn.setLane_self, Lane.prose_eq, if_pos rfl]
      rfl
    · rw [Turn.setLane_of_ne _ (Ne.symm hk), Turn.laneOf_lanes, if_neg hk]
      rfl

theorem perform_heeds (w : World) (t : Turn) (op : Op) : Heeds t op (t.perform w op) := by
  have htrack : ∀ callID key t, Tells t (t.trackCall callID key) [] := by
    intro callID key t
    unfold Turn.trackCall
    split
    · exact Tells.refl t
    · exact Tells.of_eq _ _ rfl rfl rfl
  cases op with
  | textDelta key say delta => exact delta_heeds w t key say delta .text (fun _ => rfl) fun _ => rfl
  | thinkingDelta key say delta =>
    exact delta_heeds w t key say delta .thinking (fun _ => rfl) fun _ => rfl
  | setSteerCarry key say carry => exact setSteerCarry_heeds t key say carry
  | sealLane key =>
    have htold : Told t (t.perform w (.sealLane key)) := by
      simp only [Turn.perform, Turn.sealLaneOnly]
      split
      · exact Told.closed t
      · exact sealLane_told w t key
    exact htold.heeds fun _ _ => ⟨rfl, rfl⟩
  | toolCall key call =>
    exact (laned_told rfl (htrack call.id key) w t key call.id).heeds fun _ _ => ⟨rfl, rfl⟩
  | invocation issuerLane delegateID call =>
    exact (laned_told rfl (htrack call.id issuerLane) w t issuerLane call.id).heeds
      fun _ _ => ⟨rfl, rfl⟩
  | toolResult updateLane callID res =>
    have hsettle : ∀ t : Turn, Tells t (t.settleCall callID) [] := fun _ =>
      Tells.of_eq _ _ rfl rfl rfl
    exact (laned_told (p := .toolResult res) rfl hsettle w t _ _).heeds fun _ _ => ⟨rfl, rfl⟩
  | steerAck key steerID text =>
    exact (laned_told rfl Tells.refl w t _ _).heeds fun _ _ => ⟨rfl, rfl⟩
  | steerInLane key steerID steer =>
    exact (laned_told rfl Tells.refl w t _ _).heeds fun _ _ => ⟨rfl, rfl⟩
  | steer steerID steer => exact (laneless_told rfl w t _).heeds fun _ _ => ⟨rfl, rfl⟩
  | compaction summary emptyOrdinal => exact (laneless_told rfl w t _).heeds fun _ _ => ⟨rfl, rfl⟩
  | turnBind bind => exact (lanelessMinted_told rfl w t).heeds fun _ _ => ⟨rfl, rfl⟩
  | compactionFailed reason => exact (lanelessMinted_told rfl w t).heeds fun _ _ => ⟨rfl, rfl⟩
  | safetyBlocked properties => exact (lanelessMinted_told rfl w t).heeds fun _ _ => ⟨rfl, rfl⟩
  | modelSwitched p => exact (lanelessMinted_told rfl w t).heeds fun _ _ => ⟨rfl, rfl⟩
  | modeSwitched p => exact (lanelessMinted_told rfl w t).heeds fun _ _ => ⟨rfl, rfl⟩
  | plan plan => exact (planState_told w t plan).heeds fun _ _ => ⟨rfl, rfl⟩
  | close footer => exact (close_told w t footer).heeds fun _ _ => ⟨rfl, rfl⟩

/-! ## Runs -/

/-- A turn with what an observer counted of each lane. -/
structure Watched where
  turn : Turn
  heard : String → Heard := fun _ => {}

def Watched.perform (w : World) (s : Watched) (op : Op) : Watched :=
  let out := s.turn.perform w op
  { turn := out.turn, heard := fun k => (s.heard k).after k op out }

/-- The turn still has every word: appended or held open, and withheld. -/
def Watched.Holds (s : Watched) : Prop :=
  ∀ k, s.turn.said k = charsOf (s.heard k).text ∧
    (s.turn.lanes k).prose = proseOf (s.heard k).carry

variable {s : Watched}

theorem Watched.Holds.hears {op : Op} (h : s.Holds) (hop : Hears s.turn op (s.turn.perform w op)) :
    (s.perform w op).Holds := by
  intro k
  obtain ⟨hsaid, hprose⟩ := h k
  have hnow := hop.said k
  have hcarry := hop.prose k
  simp only [Watched.perform, Heard.after]
  rw [hnow, hcarry, hsaid, hprose]
  cases sealedIn (s.turn.perform w op).sealed k <;> by_cases herr : (s.turn.perform w op).err = none
  all_goals simp only [herr, if_true, if_false, Bool.false_eq_true]
  all_goals cases op.withheld k <;> simp [Heard.settled, proseOf]

/-- What is lost stays lost to the observer. -/
theorem Watched.not_holds {op : Op} (h : s.Holds) (herr : (s.turn.perform w op).err ≠ none)
    (hlost : Loses s.turn (s.turn.perform w op).turn) : ¬ (s.perform w op).Holds := by
  intro hnow
  obtain ⟨-, k, hk⟩ := hlost
  obtain ⟨hsaid, hprose⟩ := h k
  obtain ⟨hsaid', hprose'⟩ := hnow k
  simp only [Watched.perform, Heard.after, herr, if_false] at hsaid' hprose'
  rw [Turn.weight, Turn.weight, hsaid, hprose, hsaid', hprose'] at hk
  revert hk
  cases sealedIn (s.turn.perform w op).sealed k <;> simp [Heard.settled, proseOf]

theorem Watched.quiet_before {op : Op} (h : (s.perform w op).turn.Quiet) : s.turn.Quiet := by
  rcases perform_heeds w s.turn op with hop | ⟨-, hlost⟩
  · exact hop.quiet.mp h
  · exact absurd h hlost.1

/-- An operation keeps every word exactly if none was refused. -/
theorem Watched.holds_iff (w : World) (op : Op) (h : s.Holds) (hquiet : s.turn.Quiet) :
    (s.perform w op).Holds ↔ (s.perform w op).turn.Quiet := by
  rcases perform_heeds w s.turn op with hop | ⟨herr, hlost⟩
  · exact ⟨fun _ => hop.quiet.mpr hquiet, fun _ => h.hears hop⟩
  · exact ⟨fun hnow => absurd hnow (Watched.not_holds h herr hlost), fun h => absurd h hlost.1⟩

/-- The turn an observer starts with. -/
def watched (id : String) : Watched := { turn := opened id }

theorem watched_holds (id : String) : (watched id).Holds := by
  intro k
  simp [watched, opened, Turn.said, Turn.stream, Turn.written, Lane.held, Lane.prose_eq, proseOf]

/-- Over every run of a turn, whatever the sink takes: no word is lost in any state of the run
exactly if the sink refused no append that said anything. -/
theorem words_held_iff (w : World) (id : String) (ops : List Op) :
    (∀ pre, pre <+: ops → (runFrom (Watched.perform w) (watched id) pre).Holds) ↔
      (runFrom (Watched.perform w) (watched id) ops).turn.Quiet := by
  induction ops using List.reverseRecOn with
  | nil =>
    constructor
    · intro _ f hf
      cases hf
    · intro _ pre hpre
      rw [List.prefix_nil.mp hpre]
      exact watched_holds id
  | append_singleton ops op ih =>
    rw [runFrom_concat]
    constructor
    · intro hall
      have hbefore := ih.mp fun pre hpre => hall pre (hpre.trans (List.prefix_append ops [op]))
      have hholds := hall ops (List.prefix_append ops [op])
      have hnow := hall (ops ++ [op]) List.prefix_rfl
      rw [runFrom_concat] at hnow
      exact (Watched.holds_iff w op hholds hbefore).mp hnow
    · intro hquiet pre hpre
      have hbefore := Watched.quiet_before hquiet
      have hall := ih.mpr hbefore
      rcases List.prefix_concat_iff.mp hpre with rfl | hpre
      · rw [runFrom_concat]
        exact (Watched.holds_iff w op (hall ops List.prefix_rfl) hbefore).mpr hquiet
      · exact hall pre hpre

/-- A sink that refuses one append, which a tool call's seal handed it: the lane's words are in
no entry and no longer held, and the seals that follow go through without them. -/
theorem refused_seal_lost :
    let w : World := { accepts := fun n => n ≠ 0, digest := fun _ => "" }
    let s := runFrom (Watched.perform w) (watched "t-a")
      [.textDelta "main" "s1" "Hello", .toolCall "main" { id := "c1" }]
    (s.heard "main").text = "Hello" ∧ s.turn.said "main" = [] ∧
      (s.turn.lanes "main").opened = none ∧ (s.turn.lanes "main").carry = "" ∧
      (s.turn.perform w (.sealLane "main")).err = none ∧
      (s.turn.perform w (.sealLane "main")).turn.appended = [] := by
  decide +kernel

end Marotte.TurnLog
