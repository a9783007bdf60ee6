import Marotte.TurnLog.Turn

/-! # What a seal does to the stream of a lane

A lane's stream is what its entries say, character by character, with every other entry in its
place and the text still open at the end. A seal adds the released carry to it, or loses both.
-/
namespace Marotte.TurnLog

/-- One item of a lane's stream: a character said, or an entry of another kind. -/
inductive Piece where
  | char (c : Char)
  | own (p : Payload)
  deriving DecidableEq

def charsOf (text : String) : List Piece := text.toList.map .char

@[simp] theorem charsOf_empty : charsOf "" = [] := rfl

@[simp] theorem charsOf_append (s t : String) : charsOf (s ++ t) = charsOf s ++ charsOf t := by
  simp [charsOf]

/-- The words of a text or thinking entry. -/
def saidBy : Payload → Option String
  | .text p => some p.text
  | .thinking p => some p.text
  | _ => none

def piecesOf (p : Payload) : List Piece :=
  match saidBy p with
  | some text => charsOf text
  | none => [.own p]

@[simp] theorem saidBy_payload (k : StreamKind) (text : String) :
    saidBy (k.payload text) = some text := by cases k <;> rfl

@[simp] theorem piecesOf_payload (k : StreamKind) (text : String) :
    piecesOf (k.payload text) = charsOf text := by cases k <;> rfl

/-- Whether an entry stands in a lane's stream: its own lane's, or every one's. -/
def Filed.inLane (f : Filed) (key : String) : Bool := f.laneless || f.entry.lane = key

def Lane.held (l : Lane) : String := (l.opened.map OpenEntry.text).getD ""

/-- The part of a carry a seal would release. -/
def Lane.prose (l : Lane) : String := l.released.1

namespace Turn

/-- What a lane's entries say, in the order they were appended. -/
def written (t : Turn) (key : String) : List Piece :=
  (t.appended.filter (·.inLane key)).flatMap (fun f => piecesOf f.entry.payload)

/-- A lane's stream: what was appended to it, and what it holds open. -/
def stream (t : Turn) (key : String) : List Piece :=
  t.written key ++ charsOf (t.lanes key).held

end Turn

@[simp] theorem Lane.prose_cleared (l : Lane) :
    ({ l with carry := "", carrySay := "" } : Lane).prose = "" := rfl

theorem Lane.prose_of_carry {l l' : Lane} (h : l'.carry = l.carry) : l'.prose = l.prose := by
  rw [Lane.prose, Lane.prose, Lane.released, Lane.released, h]
  split <;> rfl

theorem Lane.held_of_none {l : Lane} (h : l.opened = none) : l.held = "" := by
  rw [Lane.held, h]
  rfl

/-- An extended entry holds the delta behind what it held. -/
theorem Lane.held_extend {l : Lane} {say : String} {kind : StreamKind} (h : l.takes say kind = true)
    (delta : String) : (l.extend delta).held = l.held ++ delta := by
  cases hopen : l.opened with
  | none => simp [Lane.takes, hopen] at h
  | some o => simp [Lane.extend, Lane.held, hopen]

variable {w : World} {t t' : Turn} {key : String}

namespace Turn

@[simp] theorem setLane_self (t : Turn) (key : String) (l : Lane) :
    (t.setLane key l).lanes key = l := Function.update_self ..

theorem setLane_of_ne (t : Turn) {key k : String} (h : k ≠ key) (l : Lane) :
    (t.setLane key l).lanes k = t.lanes k := Function.update_of_ne h ..

@[simp] theorem laneOf_lanes (t : Turn) (key : String) : (t.laneOf key).lanes = t.lanes := by
  unfold laneOf
  split <;> rfl

@[simp] theorem laneOf_appended (t : Turn) (key : String) :
    (t.laneOf key).appended = t.appended := by
  unfold laneOf
  split <;> rfl

@[simp] theorem laneOf_refused (t : Turn) (key : String) :
    (t.laneOf key).refused = t.refused := by
  unfold laneOf
  split <;> rfl

/-- The turn after the sink took one more entry. -/
def taking (t : Turn) (f : Filed) : Turn :=
  { t with handed := t.handed + 1, appended := t.appended ++ [f] }

/-- The turn after the sink refused one more entry. -/
def refusing (t : Turn) (f : Filed) : Turn :=
  { t with handed := t.handed + 1, refused := t.refused ++ [f] }

/-- An entry of the turn as it is handed on. -/
def entry (t : Turn) (key id : String) (p : Payload) : Entry :=
  { id := id, turn := t.id, lane := key, payload := p }

/-- An append is taken, or refused; the lanes stay as they are. -/
theorem append_cases (w : World) (t : Turn) (laneless : Bool) (key id : String) (p : Payload) :
    (w.accepts t.handed = true ∧ t.append w laneless key id p =
      (t.taking ⟨t.entry key id p, laneless⟩, some (t.entry key id p))) ∨
    (w.accepts t.handed = false ∧ t.append w laneless key id p =
      (t.refusing ⟨t.entry key id p, laneless⟩, none)) := by
  unfold append
  cases h : w.accepts t.handed
  · exact .inr ⟨rfl, by simp [refusing, entry]⟩
  · exact .inl ⟨rfl, by simp [taking, entry]⟩

@[simp] theorem taking_lanes (t : Turn) (f : Filed) : (t.taking f).lanes = t.lanes := rfl

theorem written_taking (t : Turn) (f : Filed) (k : String) : (t.taking f).written k =
    t.written k ++ if f.inLane k then piecesOf f.entry.payload else [] := by
  unfold written taking
  rw [List.filter_append, List.flatMap_append]
  by_cases h : f.inLane k = true
  · simp [h]
  · simp [h]

/-- An entry behind everything its lanes hold joins their streams. -/
theorem stream_taking {t : Turn} {f : Filed} {k : String}
    (h : f.inLane k = true → (t.lanes k).opened = none) : (t.taking f).stream k =
      t.stream k ++ if f.inLane k then piecesOf f.entry.payload else [] := by
  rw [stream, stream, written_taking, taking_lanes]
  by_cases hk : f.inLane k = true
  · simp [hk, Lane.held_of_none (h hk)]
  · simp [hk]

theorem stream_congr {t t' : Turn} (happended : t'.appended = t.appended) {k : String}
    (hlane : (t'.lanes k).held = (t.lanes k).held) : t'.stream k = t.stream k := by
  rw [stream, stream, written, written, happended, hlane]

end Turn

/-- A turn whose lane was cleared for its seal, and the entry that is handed on. -/
structure Frozen (t : Turn) (key : String) (t₁ : Turn) (o : OpenEntry) : Prop where
  text : o.text = (t.lanes key).held ++ (t.lanes key).prose
  opened : (t₁.lanes key).opened = none
  prose : (t₁.lanes key).prose = ""
  others : ∀ k, k ≠ key → t₁.lanes k = t.lanes k
  rest : t₁ = { t with lanes := t₁.lanes, minted := t₁.minted, emitted := t₁.emitted }

/-- What becomes of a frozen entry: sealed where the sink takes it, lost where it does not. -/
inductive SealOutcome (w : World) (t : Turn) (key : String) : Outcome → Prop
  | idle (hopen : (t.lanes key).opened = none) (hprose : (t.lanes key).prose = "") :
      SealOutcome w t key
        { turn := t.setLane key { t.lanes key with carry := "", carrySay := "" } }
  | sealed (t₁ : Turn) (o : OpenEntry) (delta : String) (n : ℕ) (h : Frozen t key t₁ o)
      (haccepts : w.accepts t.handed = true) :
      SealOutcome w t key
        { turn := t₁.taking ⟨t₁.entry key o.id (o.kind.payload o.text), false⟩
          sealed :=
            [{ entry := t₁.entry key o.id (o.kind.payload o.text), delta := delta, n := n }] }
  | refused (t₁ : Turn) (o : OpenEntry) (h : Frozen t key t₁ o)
      (haccepts : w.accepts t.handed = false) :
      SealOutcome w t key
        { turn := t₁.refusing ⟨t₁.entry key o.id (o.kind.payload o.text), false⟩
          err := some .refused }

/-- Handing on an entry from a turn whose lane holds it open. -/
theorem sealOutcome_sealOpen {t₁ : Turn} {o : OpenEntry} (delta : String) (n : ℕ)
    (h : Frozen t key (t₁.setLane key { t₁.lanes key with opened := none }) o) :
    SealOutcome w t key (t₁.sealOpen w key o delta n) := by
  unfold Turn.sealOpen
  have hhanded : (t₁.setLane key { t₁.lanes key with opened := none }).handed = t.handed := by
    rw [h.rest]
  rcases Turn.append_cases w (t₁.setLane key { t₁.lanes key with opened := none }) false key o.id
    (o.kind.payload o.text) with ⟨ha, heq⟩ | ⟨ha, heq⟩
  · simp only [heq]
    exact .sealed _ o delta n h (hhanded ▸ ha)
  · simp only [heq]
    exact .refused _ o h (hhanded ▸ ha)

theorem openEntry_spec (t : Turn) (key : String) (kind : StreamKind) (say delta : String) :
    ∃ l o minted, t.openEntry key kind say delta =
        ({ t with minted := minted, emitted := true }.setLane key l, o) ∧
      l.opened = some o ∧ l.carry = (t.lanes key).carry ∧ o.text = delta := by
  unfold Turn.openEntry
  simp only
  split
  · exact ⟨_, _, _, rfl, rfl, rfl, rfl⟩
  split
  · exact ⟨_, _, _, rfl, rfl, rfl, rfl⟩
  · exact ⟨_, _, _, rfl, rfl, rfl, rfl⟩

/-- What a seal can do. -/
theorem sealLane_outcome (w : World) (t : Turn) (key : String) :
    SealOutcome w t key (t.sealLane w key) := by
  unfold Turn.sealLane
  simp only
  split
  · rename_i o hopen
    apply sealOutcome_sealOpen
    refine ⟨?_, by simp, by simp; rfl, fun k hk => ?_, rfl⟩
    · simp [Lane.held, hopen, Lane.prose]
    · rw [Turn.setLane_of_ne _ hk, Turn.setLane_of_ne _ hk]
  · rename_i hopen
    split
    · rename_i hempty
      exact .idle hopen hempty
    · obtain ⟨l, o, minted, heq, -, hcarry, htext⟩ := openEntry_spec
        (t.setLane key { t.lanes key with carry := "", carrySay := "" }) key .text
        (t.lanes key).released.2 (t.lanes key).released.1
      simp only at heq
      rw [heq]
      simp only
      apply sealOutcome_sealOpen
      refine ⟨?_, by simp, ?_, fun k hk => ?_, rfl⟩
      · simp [Lane.held, hopen, Lane.prose, htext]
      · rw [Turn.setLane_self, Turn.setLane_self]
        have hclear : l.carry = "" := by simpa using hcarry
        simp [Lane.prose, Lane.released, hclear]
      · rw [Turn.setLane_of_ne _ hk, Turn.setLane_of_ne _ hk]
        exact Turn.setLane_of_ne _ hk _

theorem sealLane_shut {t₁ : Turn} {sealed : List Sealed}
    (h : t.sealLane w key = ⟨t₁, sealed, none⟩) : (t₁.lanes key).opened = none := by
  have hout := sealLane_outcome w t key
  rw [h] at hout
  cases hout with
  | idle hopen hprose => rw [Turn.setLane_self, hopen]
  | sealed t₁ o delta n hfrozen haccepts => exact hfrozen.opened

end Marotte.TurnLog
