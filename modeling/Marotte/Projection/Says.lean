import Marotte.Projection.Account

/-! # Says

The say index of the newest turn points at its own entries, whatever is inserted before them,
and a say's text is what its deltas leave once the markers are struck out.
-/
namespace Marotte.Projection

/-- The text of a say's entry. -/
def sayText? (e : Entry) : Option String :=
  match e.payload with
  | .text t => some t.text
  | .thinking t => some t.text
  | _ => none

theorem sayText?_isSome {e : Entry} : (sayText? e).isSome = isSay e.kind := by
  cases hp : e.payload <;> simp [sayText?, isSay, Entry.kind, hp, Payload.kind]

theorem sayText?_withText {e : Entry} {s : String} (h : sayText? e = some s) (text : List Char) :
    sayText? { e with payload := Payload.withText text e.payload } = some (String.ofList text) := by
  cases hp : e.payload <;> simp_all [sayText?, Payload.withText]

namespace NewestTurn

variable {env : Env} {named : String → Prop} {p q : NewestTurn}

/-! ## The index -/

structure Indexed (p : NewestTurn) : Prop where
  points : ∀ say i, p.sayAt say = some i →
    ∃ e, p.cur[i]? = some e ∧ e.id = say ∧ sayText? e = some (String.ofList (p.sayText say))
  listed : ∀ i e, p.cur[i]? = some e → isSay e.kind = true → p.sayAt e.id = some i
  silent : ∀ say, p.sayAt say = none → p.sayText say = []

namespace Indexed

theorem same (h : p.Indexed) (hc : q.cur = p.cur) (ha : q.sayAt = p.sayAt)
    (ht : q.sayText = p.sayText) : q.Indexed where
  points := by
    rw [hc, ha, ht]
    exact h.points
  listed := by
    rw [hc, ha]
    exact h.listed
  silent := by
    rw [ha, ht]
    exact h.silent

/-- An inserted entry that is no say moves the index with what it moved. -/
theorem insert (h : p.Indexed) {pos : ℕ} (hlen : pos ≤ p.cur.length) {id lane : String} {ts : ℤ}
    {payload : Payload} (hk : isSay payload.kind = false) :
    (p.insertEntry pos id lane ts payload).Indexed where
  points := by
    intro say i hi
    obtain ⟨j, hj, rfl⟩ := Option.map_eq_some_iff.mp hi
    obtain ⟨e, he, hid, ht⟩ := h.points say j hj
    refine ⟨e, ?_, hid, ht⟩
    simp only [insertEntry, List.getElem?_insertIdx]
    by_cases hpos : pos ≤ j
    · rw [if_pos hpos, if_neg (by omega), if_neg (by omega), Nat.add_sub_cancel]
      exact he
    · rw [if_neg hpos, if_pos (by omega)]
      exact he
  listed := by
    intro i e he hsay
    simp only [insertEntry, List.getElem?_insertIdx] at he ⊢
    split at he
    · next hlt =>
      rw [h.listed i e he hsay, Option.map_some, if_neg (by omega)]
    · next hge =>
      split at he
      · next heq =>
        rw [if_pos (by omega)] at he
        obtain rfl := Option.some_inj.mp he
        rw [Entry.kind, hk] at hsay
        cases hsay
      · next hne =>
        rw [h.listed (i - 1) e he hsay, Option.map_some, if_pos (by omega)]
        congr 1
        omega
  silent := by
    intro say hs
    simp only [insertEntry, Option.map_eq_none_iff] at hs
    exact h.silent say hs

/-- The index is one to one: two says of one position are one say. -/
theorem inj (h : p.Indexed) {say say' : String} {i : ℕ} (hs : p.sayAt say = some i)
    (hs' : p.sayAt say' = some i) : say = say' := by
  obtain ⟨e, he, rfl, _⟩ := h.points say i hs
  obtain ⟨e', he', rfl, _⟩ := h.points say' i hs'
  rw [Option.some_inj.mp (he.symm.trans he')]

/-- A say the turn holds: its entry's text grows in place. -/
theorem rewrite (h : p.Indexed) {id : String} {pos : ℕ} (hpos : p.sayAt id = some pos)
    (text : List Char) (hc : q.cur = p.cur.modify pos fun e =>
      { e with payload := Payload.withText text e.payload })
    (ha : q.sayAt = p.sayAt) (ht : q.sayText = Function.update p.sayText id text) :
    q.Indexed := by
  have hget : ∀ i, q.cur[i]? = (p.cur[i]?).map fun e =>
      if pos = i then { e with payload := Payload.withText text e.payload } else e := by
    intro i
    rw [hc, List.getElem?_modify]
    rfl
  constructor
  · intro say i hi
    rw [ha] at hi
    obtain ⟨e, he, hid, htext⟩ := h.points say i hi
    rw [hget, he, ht]
    refine ⟨_, rfl, ?_, ?_⟩
    · dsimp only
      split <;> exact hid
    · dsimp only
      by_cases hsay : say = id
      · subst hsay
        obtain rfl : pos = i := Option.some_inj.mp (hpos.symm.trans hi)
        rw [if_pos rfl, Function.update_self]
        exact sayText?_withText htext _
      · have hne : pos ≠ i := by
          rintro rfl
          exact hsay (h.inj hi hpos)
        rw [if_neg hne, Function.update_of_ne hsay]
        exact htext
  · intro i e he hsay
    rw [hget] at he
    obtain ⟨e', he', rfl⟩ := Option.map_eq_some_iff.mp he
    have hrow : row (if pos = i then { e' with payload := Payload.withText text e'.payload }
        else e') = row e' := by
      split
      · exact row_withText _ _
      · rfl
    obtain ⟨hkind, hid, _⟩ := Row.mk.inj hrow
    rw [ha, hid]
    rw [hkind] at hsay
    exact h.listed i e' he' hsay
  · intro say hs
    rw [ha] at hs
    have hne : say ≠ id := by
      rintro rfl
      rw [hs] at hpos
      cases hpos
    rw [ht, Function.update_of_ne hne]
    exact h.silent say hs

theorem lt (h : p.Indexed) {say : String} {i : ℕ} (hi : p.sayAt say = some i) :
    i < p.cur.length := by
  obtain ⟨e, he, _⟩ := h.points say i hi
  exact (List.getElem?_eq_some_iff.mp he).1

/-- A say new to the turn: its entry is the last. -/
theorem append (h : p.Indexed) {e : Entry} {text : List Char} (hnone : p.sayAt e.id = none)
    (he : sayText? e = some (String.ofList text)) (hc : q.cur = p.cur ++ [e])
    (ha : q.sayAt = Function.update p.sayAt e.id (some p.cur.length))
    (ht : q.sayText = Function.update p.sayText e.id text) : q.Indexed := by
  constructor
  · intro say i hi
    rw [ha] at hi
    rw [hc, ht]
    by_cases hsay : say = e.id
    · subst hsay
      obtain rfl : p.cur.length = i := by simpa using hi
      exact ⟨e, List.getElem?_concat_length, rfl, by rw [Function.update_self, he]⟩
    · rw [Function.update_of_ne hsay] at hi
      obtain ⟨e', he', hid, htext⟩ := h.points say i hi
      refine ⟨e', ?_, hid, ?_⟩
      · rw [List.getElem?_append_left (h.lt hi), he']
      · rw [Function.update_of_ne hsay, htext]
  · intro i e' he' hsay
    rw [hc] at he'
    rw [ha]
    by_cases hlt : i < p.cur.length
    · rw [List.getElem?_append_left hlt] at he'
      have hat := h.listed i e' he' hsay
      have hne : e'.id ≠ e.id := by
        intro heq
        rw [heq, hnone] at hat
        cases hat
      rw [Function.update_of_ne hne, hat]
    · have hi : i = p.cur.length := by
        have hbound := (List.getElem?_eq_some_iff.mp he').1
        simp only [List.length_append, List.length_singleton] at hbound
        omega
      subst hi
      rw [List.getElem?_concat_length] at he'
      obtain rfl := Option.some_inj.mp he'
      rw [Function.update_self]
  · intro say hs
    rw [ha] at hs
    have hne : say ≠ e.id := by
      rintro rfl
      simp at hs
    rw [Function.update_of_ne hne] at hs
    rw [ht, Function.update_of_ne hne]
    exact h.silent say hs

theorem extendSay (h : p.Indexed) (kind : SayKind) (id lane : String) (ts : ℤ)
    (delta : List Char) : (p.extendSay kind id lane ts delta).Indexed := by
  unfold NewestTurn.extendSay
  dsimp only
  split
  · next pos hpos => exact h.rewrite hpos _ rfl rfl rfl
  · next hnone =>
    have hat : (fun say => (p.sayAt say).map fun i => if p.cur.length ≤ i then i + 1 else i) =
        p.sayAt := by
      funext say
      cases hs : p.sayAt say with
      | none => rfl
      | some i =>
        have hlt := h.lt hs
        rw [Option.map_some, if_neg (by omega)]
    apply h.append (e := { id, turn := p.curID, lane, ts, payload := payloadForSay kind delta })
      hnone
    · cases kind <;> rfl
    · exact List.insertIdx_length_self
    · simp only [insertEntry, hat]
    · rfl

theorem sealLane (h : p.Indexed) (lane : String) : (p.sealLane lane).Indexed := by
  have hset : (p.setCarry lane "" []).Indexed := h.same rfl rfl rfl
  rcases p.sealLane_cases lane with ⟨he, _⟩ | ⟨c, _, _, he⟩
  · rw [he]
    exact hset.same rfl rfl rfl
  · rw [he]
    exact (hset.extendSay .text c.say lane 0 c.held).same rfl rfl rfl

theorem addDelta (h : p.Indexed) (kind : SayKind) (lane say : String) (ts : ℤ)
    (delta : List Char) : (p.addDelta kind lane say ts delta).Indexed := by
  unfold NewestTurn.addDelta
  cases kind with
  | thinking =>
    apply Indexed.extendSay
    exact h.same rfl rfl rfl
  | text =>
    dsimp only
    split
    · exact h.same rfl rfl rfl
    · apply Indexed.extendSay
      exact h.same rfl rfl rfl

theorem step (h : p.Indexed) (hstep : Step env named p q) : q.Indexed := by
  cases hstep with
  | aside | mint => exact h.same rfl rfl rfl
  | delta kind lane say ts delta _ _ => exact h.addDelta kind lane say ts delta
  | sealed lane => exact h.sealLane lane
  | call id lane ts c _ _ =>
    apply Indexed.insert _ (Nat.le_refl _) rfl
    unfold trackCall
    split <;> exact h.same rfl rfl rfl
  | result id lane ts r _ =>
    apply Indexed.insert _ (Nat.le_refl _) rfl
    exact h.same rfl rfl rfl
  | steer id ts s _ =>
    apply Indexed.insert _ (Nat.le_refl _) rfl
    exact h.same rfl rfl rfl
  | compaction id pos ts c _ _ hlen =>
    have hland : (p.land (.compaction id)).Indexed := h.same rfl rfl rfl
    exact hland.insert hlen rfl
  | close c _ =>
    apply Indexed.insert _ (Nat.le_refl _) rfl
    exact h.same rfl rfl rfl

end Indexed

/-! ## The lanes -/

/-- A lane's tail belongs to its open say; a say with a tail has a delta in the lane, and a tail
that carries the whole marker prefix is not closed. -/
structure Agreed (p : NewestTurn) : Prop where
  lanes : (p.carry.map Carry.lane).Nodup
  carried : ∀ c ∈ p.carry, ∃ delta, .say c.say c.lane .text delta ∈ p.landed
  said : ∀ o ∈ p.laneOpen, o.id ∈ saysOf p.landed
  unclosed : ∀ c ∈ p.carry, steerAckPrefix <+: c.held → ']' ∉ c.held
  opened : ∀ lane h c, Keyed.find LaneSay.lane p.laneOpen lane = some h →
    Keyed.find Carry.lane p.carry lane = some c → h.id = c.say ∧ h.kind = .text

namespace Agreed

theorem same (h : p.Agreed) (hc : q.carry = p.carry) (hl : q.landed = p.landed)
    (ho : q.laneOpen = p.laneOpen) : q.Agreed where
  lanes := hc ▸ h.lanes
  carried := by
    rw [hc, hl]
    exact h.carried
  said := by
    rw [ho, hl]
    exact h.said
  unclosed := hc ▸ h.unclosed
  opened := by
    rw [hc, ho]
    exact h.opened

theorem land (h : p.Agreed) (l : Landing) : (p.land l).Agreed where
  lanes := h.lanes
  carried := by
    intro c hc
    obtain ⟨delta, hm⟩ := h.carried c hc
    exact ⟨delta, List.mem_append_left _ hm⟩
  said := by
    intro o ho
    rw [NewestTurn.land, saysOf_append]
    exact List.mem_append_left _ (h.said o ho)
  unclosed := h.unclosed
  opened := h.opened

theorem laneOpen_extendSay (kind : SayKind) (id lane : String) (ts : ℤ) (delta : List Char) :
    (p.extendSay kind id lane ts delta).laneOpen =
      Keyed.set LaneSay.lane p.laneOpen { lane, id, kind } := by
  unfold NewestTurn.extendSay
  dsimp only
  split <;> rfl

/-- A tail taken away, and its lane closed. -/
theorem erase (h : p.Agreed) (lane : String)
    (hc : q.carry = Keyed.erase Carry.lane p.carry lane) (hl : q.landed = p.landed)
    (hsaid : ∀ o ∈ q.laneOpen, o.id ∈ saysOf p.landed)
    (hlane : Keyed.find LaneSay.lane q.laneOpen lane = none)
    (hother : ∀ lane', lane' ≠ lane → Keyed.find LaneSay.lane q.laneOpen lane' =
      Keyed.find LaneSay.lane p.laneOpen lane') : q.Agreed where
  lanes := hc ▸ Keyed.nodup_erase h.lanes
  carried := by
    intro c hm
    rw [hc] at hm
    rw [hl]
    exact h.carried c (Keyed.mem_erase.mp hm).1
  said := hl ▸ hsaid
  unclosed := by
    intro c hm
    rw [hc] at hm
    exact h.unclosed c (Keyed.mem_erase.mp hm).1
  opened := by
    intro lane' held c hf hcarry
    by_cases hne : lane' = lane
    · subst hne
      rw [hlane] at hf
      cases hf
    · rw [hother lane' hne] at hf
      rw [hc, Keyed.find_erase_of_ne hne] at hcarry
      exact h.opened lane' held c hf hcarry

theorem sealLane (h : p.Agreed) (lane : String) : (p.sealLane lane).Agreed := by
  rcases p.sealLane_cases lane with ⟨he, _⟩ | ⟨c, hc, _, he⟩
  · rw [he]
    apply h.erase lane (q := (p.setCarry lane "" []).closeLane lane)
    · rfl
    · rfl
    · intro o ho
      exact h.said o (Keyed.mem_erase.mp ho).1
    · exact Keyed.find_erase_self
    · exact fun _ hne => Keyed.find_erase_of_ne hne
  · rw [he]
    obtain ⟨_, hcarry, _, _, _, _, hland, _⟩ :=
      (p.setCarry lane "" []).extendSay_kept .text c.say lane 0 c.held
    apply h.erase lane
    · exact hcarry.trans (by simp [NewestTurn.setCarry])
    · exact hland
    · intro o ho
      rw [closeLane, laneOpen_extendSay] at ho
      rcases Keyed.mem_set (Keyed.mem_erase.mp ho).1 with rfl | ⟨ho, _⟩
      · obtain ⟨delta, hm⟩ := h.carried c (Keyed.mem_of_find hc)
        exact mem_saysOf.mpr ⟨c.lane, .text, delta, hm⟩
      · exact h.said o ho
    · exact Keyed.find_erase_self
    intro lane' hne
    have hkey : lane' ≠ LaneSay.lane { lane, id := c.say, kind := .text } := hne
    rw [closeLane, Keyed.find_erase_of_ne hne, laneOpen_extendSay, Keyed.find_set_of_ne hkey]
    rfl

/-- A delta's lane has no tail of another say, and none at all under a thinking delta. -/
theorem tail (h : p.Agreed) {lane say : String} {kind : SayKind}
    (hheld : ∀ h, p.heldSay lane = some h → h.id = say ∧ h.kind = kind) {c : Carry}
    (hc : Keyed.find Carry.lane p.carry lane = some c) : c.say = say ∧ kind = .text := by
  cases ho : Keyed.find LaneSay.lane p.laneOpen lane with
  | none =>
    obtain ⟨hid, hk⟩ := hheld { lane, id := c.say, kind := .text }
      (by simp [heldSay, ho, hc])
    exact ⟨hid, hk.symm⟩
  | some held =>
    obtain ⟨hid, hk⟩ := hheld held (by simp [heldSay, ho])
    obtain ⟨hid', hk'⟩ := h.opened lane held c ho hc
    exact ⟨hid'.symm.trans hid, hk.symm.trans hk'⟩

end Agreed

/-- A lane's tail, or nothing. -/
def heldOf (p : NewestTurn) (lane : String) : List Char :=
  ((Keyed.find Carry.lane p.carry lane).map Carry.held).getD []

/-- What a delta leaves withheld in its lane, and what it adds to its say. -/
theorem addDelta_eq (h : p.Agreed) {kind : SayKind} {lane say : String} {ts : ℤ}
    {delta : List Char} (hheld : ∀ h, p.heldSay lane = some h → h.id = say ∧ h.kind = kind) :
    ∃ u emit held, p.heldOf lane ++ delta = u ++ held ∧ Struck u emit ∧
      (steerAckPrefix <+: held → ']' ∉ held) ∧ (kind = .thinking → held = []) ∧
      p.addDelta kind lane say ts delta =
        (if emit = [] ∧ kind = .text then (p.land (.say say lane kind delta)).setCarry lane say held
        else ((p.land (.say say lane kind delta)).setCarry lane say held).extendSay kind say lane ts
          emit) := by
  cases kind with
  | thinking =>
    have hnone : Keyed.find Carry.lane p.carry lane = none := by
      cases hc : Keyed.find Carry.lane p.carry lane with
      | none => rfl
      | some c => cases (h.tail hheld hc).2
    refine ⟨delta, delta, [], by simp [heldOf, hnone], .refl _, by simp, fun _ => rfl, ?_⟩
    have herase := Keyed.erase_of_find_none hnone
    have hset : (p.land (.say say lane .thinking delta)).setCarry lane say [] =
        p.land (.say say lane .thinking delta) := by
      simp only [setCarry, if_true, land, herase]
    rw [hset]
    simp [addDelta]
  | text =>
    obtain ⟨u, hu, hs⟩ := stripSteerAcks_struck (p.heldOf lane) delta
    refine ⟨u, _, _, hu, hs, stripSteerAcks_open, by simp, ?_⟩
    simp only [addDelta, and_true]
    rfl

namespace Agreed

theorem setCarry (h : p.Agreed) {lane say : String} {held : List Char}
    (hland : held ≠ [] → ∃ delta, .say say lane .text delta ∈ p.landed)
    (hclosed : steerAckPrefix <+: held → ']' ∉ held)
    (hopen : ∀ h, Keyed.find LaneSay.lane p.laneOpen lane = some h → h.id = say ∧ h.kind = .text ∨
      held = []) : (p.setCarry lane say held).Agreed := by
  by_cases hnil : held = []
  · subst hnil
    have hset : (p.setCarry lane say []).carry = Keyed.erase Carry.lane p.carry lane := by
      simp [NewestTurn.setCarry]
    refine ⟨hset ▸ Keyed.nodup_erase h.lanes, fun c hm => ?_, h.said, fun c hm => ?_, ?_⟩
    · exact h.carried c (Keyed.mem_erase.mp (hset ▸ hm)).1
    · exact h.unclosed c (Keyed.mem_erase.mp (hset ▸ hm)).1
    · intro lane' o c ho hc
      rw [hset] at hc
      by_cases hne : lane' = lane
      · subst hne
        rw [Keyed.find_erase_self] at hc
        cases hc
      · rw [Keyed.find_erase_of_ne hne] at hc
        exact h.opened lane' o c ho hc
  · have hset : (p.setCarry lane say held).carry =
        Keyed.set Carry.lane p.carry { lane, held, say } := by
      simp [NewestTurn.setCarry, hnil]
    refine ⟨hset ▸ Keyed.nodup_set h.lanes, fun c hm => ?_, h.said, fun c hm => ?_, ?_⟩
    · rcases Keyed.mem_set (hset ▸ hm) with rfl | ⟨hm, _⟩
      · exact hland hnil
      · exact h.carried c hm
    · rcases Keyed.mem_set (hset ▸ hm) with rfl | ⟨hm, _⟩
      · exact hclosed
      · exact h.unclosed c hm
    · intro lane' o c ho hc
      rw [hset] at hc
      by_cases hne : lane' = lane
      · subst hne
        have hself : Keyed.find Carry.lane (Keyed.set Carry.lane p.carry
            { lane := lane', held, say }) lane' = some { lane := lane', held, say } :=
          Keyed.find_set_key
        obtain rfl := Option.some_inj.mp (hself.symm.trans hc)
        exact (hopen o ho).resolve_right hnil
      · have hkey : lane' ≠ Carry.lane { lane, held, say } := hne
        rw [Keyed.find_set_of_ne hkey] at hc
        exact h.opened lane' o c ho hc

theorem extendSay (h : p.Agreed) {kind : SayKind} {id lane : String} {ts : ℤ} {delta : List Char}
    (hid : id ∈ saysOf p.landed)
    (hc : ∀ c, Keyed.find Carry.lane p.carry lane = some c → c.say = id ∧ kind = .text) :
    (p.extendSay kind id lane ts delta).Agreed := by
  obtain ⟨_, hcarry, _, _, _, _, hland, _⟩ := p.extendSay_kept kind id lane ts delta
  constructor
  · exact hcarry ▸ h.lanes
  · rw [hcarry, hland]
    exact h.carried
  · intro o ho
    rw [laneOpen_extendSay] at ho
    rw [hland]
    rcases Keyed.mem_set ho with rfl | ⟨ho, _⟩
    · exact hid
    · exact h.said o ho
  · exact hcarry ▸ h.unclosed
  · intro lane' o c ho hf
    rw [laneOpen_extendSay] at ho
    rw [hcarry] at hf
    by_cases hne : lane' = lane
    · subst hne
      have hself : Keyed.find LaneSay.lane (Keyed.set LaneSay.lane p.laneOpen
          { lane := lane', id, kind }) lane' = some { lane := lane', id, kind } :=
        Keyed.find_set_key
      obtain rfl := Option.some_inj.mp (hself.symm.trans ho)
      obtain ⟨hsay, hk⟩ := hc c hf
      exact ⟨hsay.symm, hk⟩
    · have hkey : lane' ≠ LaneSay.lane { lane, id, kind } := hne
      rw [Keyed.find_set_of_ne hkey] at ho
      exact h.opened lane' o c ho hf

/-- A lane's tail after it is set, or what it was. -/
theorem find_setCarry {lane say : String} {held : List Char} {c : Carry}
    (hf : Keyed.find Carry.lane (p.setCarry lane say held).carry lane = some c) :
    c.say = say ∧ c.held = held ∧ held ≠ [] := by
  by_cases hnil : held = []
  · simp [NewestTurn.setCarry, hnil] at hf
  · have hself : Keyed.find Carry.lane (Keyed.set Carry.lane p.carry { lane, held, say }) lane =
        some { lane, held, say } := Keyed.find_set_key
    simp only [NewestTurn.setCarry, if_neg hnil] at hf
    obtain rfl := Option.some_inj.mp (hself.symm.trans hf)
    exact ⟨rfl, rfl, hnil⟩

theorem addDelta (h : p.Agreed) {kind : SayKind} {lane say : String} {ts : ℤ} {delta : List Char}
    (hheld : ∀ h, p.heldSay lane = some h → h.id = say ∧ h.kind = kind) :
    (p.addDelta kind lane say ts delta).Agreed := by
  obtain ⟨u, emit, held, _, _, hclosed, hthink, heq⟩ := addDelta_eq h hheld
  have hset : ((p.land (.say say lane kind delta)).setCarry lane say held).Agreed := by
    have hlanded : held ≠ [] → ∃ d, .say say lane .text d ∈
        (p.land (.say say lane kind delta)).landed := by
      intro hne
      cases kind with
      | text => exact ⟨delta, List.mem_append_right _ (List.mem_singleton_self _)⟩
      | thinking => exact absurd (hthink rfl) hne
    apply (h.land _).setCarry hlanded hclosed
    intro o ho
    obtain ⟨hid, hk⟩ := hheld o (by
      change Keyed.find LaneSay.lane p.laneOpen lane = some o at ho
      simp [heldSay, ho])
    cases kind with
    | text => exact .inl ⟨hid, hk⟩
    | thinking => exact .inr (hthink rfl)
  rw [heq]
  split
  · exact hset
  · have hsaid : say ∈ saysOf (p.land (.say say lane kind delta)).landed :=
      mem_saysOf.mpr ⟨lane, kind, delta, List.mem_append_right _ (List.mem_singleton_self _)⟩
    apply hset.extendSay hsaid
    intro c hc
    obtain ⟨hsay, _, hne⟩ := find_setCarry hc
    refine ⟨hsay, ?_⟩
    cases kind with
    | text => rfl
    | thinking => exact absurd (hthink rfl) hne

theorem step (h : p.Agreed) (hstep : Step env named p q) : q.Agreed := by
  cases hstep with
  | aside | mint | close => exact h.same rfl rfl rfl
  | delta kind lane say ts delta hheld _ => exact h.addDelta hheld
  | sealed lane => exact h.sealLane lane
  | call id lane ts c _ _ =>
    have htrack : ((p.land (.call id)).trackCall id lane).Agreed := by
      unfold trackCall
      split <;> exact (h.land _).same rfl rfl rfl
    exact htrack.same rfl rfl rfl
  | result id lane ts r _ => exact h.same rfl rfl rfl
  | steer id ts s _ => exact (h.land _).same rfl rfl rfl
  | compaction id pos ts c _ _ _ => exact (h.land _).same rfl rfl rfl

end Agreed

/-! ## The texts -/

/-- A say of one lane has the text that its deltas leave once the markers are struck out, but for
the tail its lane still withholds. -/
def Heard (p : NewestTurn) : Prop :=
  ∀ say, OneLane say p.landed → ∃ w, Struck w (p.sayText say) ∧
    ((∃ c ∈ p.carry, c.say = say ∧ deltasOf say p.landed = w ++ c.held) ∨
      (∀ c ∈ p.carry, c.say ≠ say) ∧ deltasOf say p.landed = w)

/-- A frame that is no delta adds nothing to a say. -/
theorem deltasOf_land {l : Landing} (hl : saysOf [l] = []) (say : String) :
    deltasOf say (p.land l).landed = deltasOf say p.landed := by
  cases l with
  | say => cases hl
  | _ => simp [NewestTurn.land, deltasOf_append, deltasOf]

namespace Heard

theorem same (h : p.Heard) (hc : q.carry = p.carry) (hl : q.landed = p.landed)
    (ht : q.sayText = p.sayText) : q.Heard := by
  intro say hone
  rw [hl] at hone
  rw [hc, hl, ht]
  exact h say hone

theorem land (h : p.Heard) {l : Landing} (hl : saysOf [l] = []) : (p.land l).Heard := by
  intro say hone
  rw [deltasOf_land hl]
  exact h say hone.of_append

end Heard

theorem sayText_extendSay (h : p.Indexed) (kind : SayKind) (id lane : String) (ts : ℤ)
    (delta : List Char) : (p.extendSay kind id lane ts delta).sayText =
      Function.update p.sayText id (p.sayText id ++ delta) := by
  unfold extendSay
  dsimp only
  split
  · rfl
  · next hnone =>
    rw [h.silent id hnone]
    rfl

/-- One lane has one tail. -/
theorem Agreed.unique (h : p.Agreed) {c c' : Carry} (hc : c ∈ p.carry) (hc' : c' ∈ p.carry)
    (hl : c.lane = c'.lane) : c = c' :=
  List.inj_on_of_nodup_map h.lanes hc hc' hl

namespace Heard

/-- A lane's tail taken from its say, and struck out of it or added to it. -/
theorem release (h : p.Heard) (ha : p.Agreed) {lane : String} {c : Carry}
    (hc : Keyed.find Carry.lane p.carry lane = some c)
    (hq : q.carry = Keyed.erase Carry.lane p.carry lane) (hl : q.landed = p.landed)
    {more : List Char} (hs : Struck c.held more)
    (ht : q.sayText = Function.update p.sayText c.say (p.sayText c.say ++ more)) : q.Heard := by
  have hm := Keyed.mem_of_find hc
  obtain rfl := Keyed.key_of_find hc
  intro say hone
  rw [hl] at hone
  rw [hl, hq, ht]
  obtain ⟨w, hw, halt⟩ := h say hone
  by_cases hsay : say = c.say
  · subst hsay
    rcases halt with ⟨c', hm', hsay', hdeltas⟩ | ⟨hno, _⟩
    · obtain ⟨d, hd⟩ := ha.carried c hm
      obtain ⟨d', hd'⟩ := ha.carried c' hm'
      rw [hsay'] at hd'
      obtain rfl := ha.unique hm' hm (hone _ _ _ _ _ _ hd' hd)
      refine ⟨w ++ c'.held, ?_, .inr ⟨fun c'' hm'' hsay'' => ?_, hdeltas⟩⟩
      · rw [Function.update_self]
        exact hw.append hs
      · obtain ⟨hm'', hne⟩ := Keyed.mem_erase.mp hm''
        obtain ⟨d'', hd''⟩ := ha.carried c'' hm''
        rw [hsay''] at hd''
        exact hne (hone _ _ _ _ _ _ hd'' hd)
    · exact absurd rfl (hno c hm)
  · rw [Function.update_of_ne hsay]
    refine ⟨w, hw, ?_⟩
    rcases halt with ⟨c', hm', hsay', hdeltas⟩ | ⟨hno, hdeltas⟩
    · left
      refine ⟨c', Keyed.mem_erase.mpr ⟨hm', fun hlane => ?_⟩, hsay', hdeltas⟩
      rw [ha.unique hm' hm hlane] at hsay'
      exact hsay hsay'.symm
    · exact .inr ⟨fun c' hm' => hno c' (Keyed.mem_erase.mp hm').1, hdeltas⟩

theorem sealLane (h : p.Heard) (ha : p.Agreed) (hi : p.Indexed) (lane : String) :
    (p.sealLane lane).Heard := by
  have hcarry : (p.setCarry lane "" []).carry = Keyed.erase Carry.lane p.carry lane := by
    simp [NewestTurn.setCarry]
  rcases p.sealLane_cases lane with ⟨he, hcut⟩ | ⟨c, hc, _, he⟩
  · rw [he]
    cases hf : Keyed.find Carry.lane p.carry lane with
    | none => exact h.same (hcarry.trans (Keyed.erase_of_find_none hf)) rfl rfl
    | some c =>
      have hstruck : Struck c.held [] :=
        .of_cut (hcut c hf) (ha.unclosed c (Keyed.mem_of_find hf) (hcut c hf))
      apply h.release ha hf hcarry rfl hstruck
      rw [List.append_nil, Function.update_eq_self]
      rfl
  · rw [he]
    have hset : (p.setCarry lane "" []).Indexed := hi.same rfl rfl rfl
    obtain ⟨_, hkept, _, _, _, _, hland, _⟩ :=
      (p.setCarry lane "" []).extendSay_kept .text c.say lane 0 c.held
    apply h.release ha hc (hkept.trans hcarry) hland (.refl c.held)
    exact sayText_extendSay hset _ _ _ _ _

/-- A delta heard in a say's lane: what its tail held and the delta are struck and added, or
held again. -/
theorem hear (h : p.Heard) (ha : p.Agreed) {lane say : String} {kind : SayKind} {delta u emit held : List Char}
    (htail : ∀ c, Keyed.find Carry.lane p.carry lane = some c → c.say = say)
    (hu : p.heldOf lane ++ delta = u ++ held) (hs : Struck u emit)
    (hq : q.carry = ((p.land (.say say lane kind delta)).setCarry lane say held).carry)
    (hl : q.landed = p.landed ++ [.say say lane kind delta])
    (ht : q.sayText = Function.update p.sayText say (p.sayText say ++ emit)) : q.Heard := by
  intro say' hone
  rw [hl] at hone
  obtain ⟨w, hw, halt⟩ := h say' hone.of_append
  have hlast : Landing.say say lane kind delta ∈ p.landed ++ [.say say lane kind delta] :=
    List.mem_append_right _ (List.mem_singleton_self _)
  by_cases hsay : say' = say
  · subst hsay
    have hlane : ∀ c ∈ p.carry, c.say = say' → c.lane = lane := by
      intro c hc hcs
      obtain ⟨d, hd⟩ := ha.carried c hc
      rw [hcs] at hd
      exact hone _ _ _ _ _ _ (List.mem_append_left _ hd) hlast
    have hprev : deltasOf say' p.landed = w ++ p.heldOf lane := by
      rcases halt with ⟨c, hc, hcs, hd⟩ | ⟨hno, hd⟩
      · have hf : Keyed.find Carry.lane p.carry lane = some c :=
          hlane c hc hcs ▸ Keyed.find_of_mem ha.lanes hc
        rw [hd, heldOf, hf]
        rfl
      · have hf : Keyed.find Carry.lane p.carry lane = none := by
          cases hf : Keyed.find Carry.lane p.carry lane with
          | none => rfl
          | some c => exact absurd (htail c hf) (hno c (Keyed.mem_of_find hf))
        rw [hd, heldOf, hf]
        simp
    have hnow : deltasOf say' q.landed = (w ++ u) ++ held := by
      rw [hl, deltasOf_append, hprev, List.append_assoc, List.append_assoc, ← hu]
      simp [deltasOf]
    refine ⟨w ++ u, ?_, ?_⟩
    · rw [ht, Function.update_self]
      exact hw.append hs
    · rw [hnow, hq]
      by_cases hnil : held = []
      · right
        subst hnil
        refine ⟨fun c hc hcs => ?_, List.append_nil _⟩
        have hm : c ∈ Keyed.erase Carry.lane (p.land (.say say' lane kind delta)).carry lane := by
          simpa [NewestTurn.setCarry] using hc
        obtain ⟨hm, hne⟩ := Keyed.mem_erase.mp hm
        exact hne (hlane c hm hcs)
      · left
        refine ⟨{ lane, held, say := say' }, ?_, rfl, rfl⟩
        simp only [NewestTurn.setCarry, if_neg hnil]
        exact Keyed.self_mem_set
  · have hd : deltasOf say' q.landed = deltasOf say' p.landed := by
      rw [hl, deltasOf_append]
      simp [deltasOf, Ne.symm hsay]
    have hkept : ∀ c, c.say = say' → (c ∈ q.carry ↔ c ∈ p.carry) := by
      intro c hcs
      rw [hq]
      have hne : c ∈ p.carry → c.lane ≠ lane := by
        rintro hm rfl
        exact hsay (hcs.symm.trans (htail c (Keyed.find_of_mem ha.lanes hm)))
      by_cases hnil : held = []
      · simp only [NewestTurn.setCarry, if_pos hnil, Keyed.mem_erase]
        exact ⟨And.left, fun hm => ⟨hm, hne hm⟩⟩
      · simp only [NewestTurn.setCarry, if_neg hnil]
        constructor
        · intro hm
          rcases Keyed.mem_set hm with rfl | ⟨hm, _⟩
          · exact absurd hcs.symm hsay
          · exact hm
        · intro hm
          exact Keyed.mem_set_of_ne hm (hne hm)
    refine ⟨w, ?_, ?_⟩
    · rw [ht, Function.update_of_ne hsay]
      exact hw
    · rw [hd]
      rcases halt with ⟨c, hc, hcs, hdeltas⟩ | ⟨hno, hdeltas⟩
      · exact .inl ⟨c, (hkept c hcs).mpr hc, hcs, hdeltas⟩
      · exact .inr ⟨fun c hc hcs => hno c ((hkept c hcs).mp hc) hcs, hdeltas⟩

theorem addDelta (h : p.Heard) (ha : p.Agreed) (hi : p.Indexed) {kind : SayKind}
    {lane say : String} {ts : ℤ} {delta : List Char}
    (hheld : ∀ h, p.heldSay lane = some h → h.id = say ∧ h.kind = kind) :
    (p.addDelta kind lane say ts delta).Heard := by
  obtain ⟨u, emit, held, hu, hs, _, _, heq⟩ := addDelta_eq ha hheld
  have htail := fun c hc => (ha.tail hheld (c := c) hc).1
  rw [heq]
  split
  · next hemit =>
    apply h.hear ha htail hu hs rfl rfl
    rw [hemit.1, List.append_nil, Function.update_eq_self]
    rfl
  · have hset : ((p.land (.say say lane kind delta)).setCarry lane say held).Indexed :=
      hi.same rfl rfl rfl
    obtain ⟨_, hkept, _, _, _, _, hland, _⟩ :=
      ((p.land (.say say lane kind delta)).setCarry lane say held).extendSay_kept kind say lane ts emit
    apply h.hear ha htail hu hs hkept hland
    exact sayText_extendSay hset _ _ _ _ _

theorem step (h : p.Heard) (ha : p.Agreed) (hi : p.Indexed) (hstep : Step env named p q) :
    q.Heard := by
  cases hstep with
  | aside | mint | close => exact h.same rfl rfl rfl
  | delta kind lane say ts delta hheld _ => exact h.addDelta ha hi hheld
  | sealed lane => exact h.sealLane ha hi lane
  | call id lane ts c _ _ =>
    have htrack : ((p.land (.call id)).trackCall id lane).Heard := by
      unfold trackCall
      split <;> exact (h.land rfl).same rfl rfl rfl
    exact htrack.same rfl rfl rfl
  | result id lane ts r _ => exact h.same rfl rfl rfl
  | steer id ts s _ => exact (h.land (l := .steer id) rfl).same rfl rfl rfl
  | compaction id pos ts c _ _ _ => exact (h.land (l := .compaction id) rfl).same rfl rfl rfl

end Heard

/-- A say of thinking deltas alone has all of them as its text. -/
def Unfiltered (p : NewestTurn) : Prop :=
  ∀ say, Thought say p.landed → p.sayText say = deltasOf say p.landed

namespace Unfiltered

theorem same (h : p.Unfiltered) (hl : q.landed = p.landed) (ht : q.sayText = p.sayText) :
    q.Unfiltered := by
  intro say hthought
  rw [hl] at hthought
  rw [hl, ht]
  exact h say hthought

theorem land (h : p.Unfiltered) {l : Landing} (hl : saysOf [l] = []) : (p.land l).Unfiltered := by
  intro say hthought
  rw [deltasOf_land hl]
  exact h say hthought.of_append

/-- A released tail is a text say's. -/
theorem sealLane (h : p.Unfiltered) (ha : p.Agreed) (hi : p.Indexed) (lane : String) :
    (p.sealLane lane).Unfiltered := by
  rcases p.sealLane_cases lane with ⟨he, _⟩ | ⟨c, hc, _, he⟩
  · rw [he]
    exact h.same rfl rfl
  · have hset : (p.setCarry lane "" []).Indexed := hi.same rfl rfl rfl
    obtain ⟨_, _, _, _, _, _, hland, _⟩ :=
      (p.setCarry lane "" []).extendSay_kept .text c.say lane 0 c.held
    rw [he]
    intro say hthought
    change Thought say ((p.setCarry lane "" []).extendSay .text c.say lane 0 c.held).landed
      at hthought
    change ((p.setCarry lane "" []).extendSay .text c.say lane 0 c.held).sayText say =
      deltasOf say ((p.setCarry lane "" []).extendSay .text c.say lane 0 c.held).landed
    rw [hland] at hthought ⊢
    have hne : say ≠ c.say := by
      rintro rfl
      obtain ⟨delta, hd⟩ := ha.carried c (Keyed.mem_of_find hc)
      cases hthought c.lane .text delta hd
    rw [sayText_extendSay hset, Function.update_of_ne hne]
    exact h say hthought

theorem addDelta (h : p.Unfiltered) (hi : p.Indexed) (kind : SayKind) (lane say : String) (ts : ℤ)
    (delta : List Char) : (p.addDelta kind lane say ts delta).Unfiltered := by
  have hland : (p.land (.say say lane kind delta)).Indexed := hi.same rfl rfl rfl
  have hdeltas : ∀ say', say' ≠ say →
      deltasOf say' (p.landed ++ [.say say lane kind delta]) = deltasOf say' p.landed := by
    intro say' hne
    simp [deltasOf_append, deltasOf, Ne.symm hne]
  have hlast : ∀ say', Thought say' (p.landed ++ [.say say lane kind delta]) → say' = say →
      kind = .thinking := by
    rintro say' hthought rfl
    exact hthought lane kind delta (List.mem_append_right _ (List.mem_singleton_self _))
  -- under its own say only a thinking delta counts, and that one is added whole
  have hextend : ∀ q : NewestTurn, q.Indexed → q.sayText = p.sayText →
      q.landed = p.landed ++ [.say say lane kind delta] → ∀ emit,
      (kind = .thinking → emit = delta) → (q.extendSay kind say lane ts emit).Unfiltered := by
    intro q hq ht hl emit hemit say' hthought
    obtain ⟨_, _, _, _, _, _, hkept, _⟩ := q.extendSay_kept kind say lane ts emit
    rw [hkept, hl] at hthought
    rw [hkept, hl, sayText_extendSay hq, ht]
    by_cases hsay : say' = say
    · rw [hemit (hlast say' hthought hsay), hsay, Function.update_self,
        h say (hsay ▸ hthought.of_append), deltasOf_append]
      simp [deltasOf]
    · rw [Function.update_of_ne hsay, hdeltas say' hsay]
      exact h say' hthought.of_append
  unfold NewestTurn.addDelta
  cases kind with
  | thinking => exact hextend _ hland rfl rfl delta fun _ => rfl
  | text =>
    dsimp only
    split
    · intro say' hthought
      change Thought say' (p.landed ++ [.say say lane .text delta]) at hthought
      have hne : say' ≠ say := by
        intro he
        cases hlast say' hthought he
      change p.sayText say' = deltasOf say' (p.landed ++ [.say say lane .text delta])
      rw [hdeltas say' hne]
      exact h say' hthought.of_append
    · apply hextend
      · exact hland.same rfl rfl rfl
      · rfl
      · rfl
      · simp

theorem step (h : p.Unfiltered) (ha : p.Agreed) (hi : p.Indexed) (hstep : Step env named p q) :
    q.Unfiltered := by
  cases hstep with
  | aside | mint | close => exact h.same rfl rfl
  | delta kind lane say ts delta _ _ => exact h.addDelta hi kind lane say ts delta
  | sealed lane => exact h.sealLane ha hi lane
  | call id lane ts c _ _ =>
    have htrack : ((p.land (.call id)).trackCall id lane).Unfiltered := by
      unfold trackCall
      split <;> exact (h.land rfl).same rfl rfl
    exact htrack.same rfl rfl
  | result id lane ts r _ => exact h.same rfl rfl
  | steer id ts s _ => exact (h.land (l := .steer id) rfl).same rfl rfl
  | compaction id pos ts c _ _ _ => exact (h.land (l := .compaction id) rfl).same rfl rfl

end Unfiltered
end NewestTurn
end Marotte.Projection
