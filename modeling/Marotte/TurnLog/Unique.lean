import Marotte.TurnLog.Ids

/-! # Unique ids over the runs of a turn

The lane remembers its last say alone, so a say that comes back is named again; a say that ends in
a segment suffix does not extend its own entry.
-/
namespace Marotte.TurnLog

variable {w : World} {t : Turn} {turn : String} {given : List Naming}

/-- The lane, say, text and kind of a delta. -/
def Op.asDelta : Op → Option (String × String × String × StreamKind)
  | .textDelta key say delta => some (key, say, delta, .text)
  | .thinkingDelta key say delta => some (key, say, delta, .thinking)
  | _ => none

/-- A delta under the say of its lane's open entry extends the entry. -/
def Extends (w : World) (t : Turn) (op : Op) : Prop :=
  ∀ key say delta kind, op.asDelta = some (key, say, delta, kind) → t.closed = false →
    ∀ o, (t.lanes key).opened = some o → o.say = say →
      ((t.perform w op).turn.lanes key).opened =
        some { o with text := o.text ++ delta, n := o.n + 1 }

/-- A delta under the say of its lane's open entry is of the entry's kind, and its say does not
read as a segment of another where it names the entry. -/
def SameStream (t : Turn) (op : Op) : Prop :=
  ∀ key say delta kind, op.asDelta = some (key, say, delta, kind) → t.closed = false →
    ∀ o, (t.lanes key).opened = some o → o.say = say →
      kind = o.kind ∧ (o.id = say → sayIDOf say = say)

theorem takes_iff (h : Counted turn t given) {key say : String} {kind : StreamKind} {o : OpenEntry}
    (ho : (t.lanes key).opened = some o) (hsay : o.say = say) :
    (t.lanes key).takes say kind = true ↔ kind = o.kind ∧ (o.id = say → sayIDOf say = say) := by
  have hhead := (h.heads key o ho).2
  rw [Lane.takes, ho]
  simp only [Bool.and_eq_true, Bool.or_eq_true, decide_eq_true_eq]
  constructor
  · rintro ⟨hkind, hof⟩
    refine ⟨hkind.symm, fun hid => ?_⟩
    rcases hof with rfl | hof
    · rfl
    · rwa [hid] at hof
  · rintro ⟨rfl, hof⟩
    refine ⟨rfl, ?_⟩
    rcases hhead with hempty | hid | ⟨j, hid⟩
    · exact .inl (hsay.symm.trans hempty)
    · refine .inr ?_
      rw [hid, hsay]
      exact hof (hid.trans hsay)
    · refine .inr ?_
      rw [hid, sayIDOf_saySegmentID, hsay]

/-- A delta that is not taken leaves no longer entry open. -/
theorem delta_not_extended (w : World) {key say : String} (delta : String) {kind : StreamKind}
    {o : OpenEntry} (hopen : t.closed = false) (htakes : (t.lanes key).takes say kind = false) (hn : 1 ≤ o.n) :
    ((t.delta w key say delta kind).turn.lanes key).opened ≠
      some { o with text := o.text ++ delta, n := o.n + 1 } := by
  unfold Turn.delta
  rw [if_neg (by simp [hopen])]
  simp only [Turn.laneOf_lanes]
  rw [if_neg (by simp [htakes])]
  have hout := sealLane_outcome w (t.laneOf key) key
  rcases heq : (t.laneOf key).sealLane w key with ⟨t₁, sealed, err⟩
  rw [heq] at hout
  cases err with
  | some err =>
    cases hout with
    | refused t₁ o h haccepts =>
      intro hsome
      cases h.opened.symm.trans hsome
  | none =>
    simp only
    obtain ⟨-, -, -, hhead⟩ := openEntry_rest t₁ key kind say delta
    rw [hhead]
    intro hsome
    have hone : (t₁.openEntry key kind say delta).2.n = 1 := by
      unfold Turn.openEntry
      simp only
      split
      · rfl
      split
      · rfl
      · rfl
    rw [Option.some.inj hsome] at hone
    simp only at hone
    omega

theorem extends_iff (h : Counted turn t given) (op : Op) : Extends w t op ↔ SameStream t op := by
  constructor
  · intro hext key say delta kind hop hopen o ho hsay
    have hafter := hext key say delta kind hop hopen o ho hsay
    by_contra hno
    have htakes : (t.lanes key).takes say kind = false := by
      rw [Bool.eq_false_iff]
      exact fun htakes => hno ((takes_iff h ho hsay).mp htakes)
    have hdelta := delta_not_extended w delta hopen htakes (h.heads key o ho).1
    cases op with
    | textDelta k s d =>
      cases hop
      exact hdelta hafter
    | thinkingDelta k s d =>
      cases hop
      exact hdelta hafter
    | _ => cases hop
  · intro hsame key say delta kind hop hopen o ho hsay
    have htakes := (takes_iff h ho hsay).mpr (hsame key say delta kind hop hopen o ho hsay)
    have hdelta : ((t.delta w key say delta kind).turn.lanes key).opened =
        some { o with text := o.text ++ delta, n := o.n + 1 } := by
      unfold Turn.delta
      rw [if_neg (by simp [hopen])]
      simp only [Turn.laneOf_lanes]
      rw [if_pos htakes, Turn.setLane_self, Lane.extend, ho]
      rfl
    cases op with
    | textDelta k s d =>
      cases hop
      exact hdelta
    | thinkingDelta k s d =>
      cases hop
      exact hdelta
    | _ => cases hop

/-! ## Runs -/

/-- A turn with how its entries came by their ids, in the order the ids were given. -/
structure Census where
  turn : Turn
  given : List Naming := []

def Census.perform (w : World) (s : Census) (op : Op) : Census where
  turn := (s.turn.perform w op).turn
  given := s.given ++ s.turn.namings w op

def census (id : String) : Census := { turn := opened id }

theorem counted_opened (id : String) : Counted id (opened id) [] where
  turn := rfl
  order := List.nodup_nil
  unseen _ _ := ⟨rfl, rfl⟩
  ids _ := rfl
  mints n hn := by cases hn
  minted _ := Nat.zero_le _
  heads k o ho := by cases ho
  apart _ := {
    said := fun k hk => absurd rfl hk
    owner := fun k k' hk _ => absurd rfl hk
    segments := fun _ _ hmem => absurd hmem List.not_mem_nil
    once := fun _ _ => Nat.zero_le _ }

theorem counted_run (w : World) (id : String) (ops : List Op) :
    Counted id (runFrom (Census.perform w) (census id) ops).turn
      (runFrom (Census.perform w) (census id) ops).given :=
  runFrom_invariant (Q := fun s : Census => Counted id s.turn s.given) (counted_opened id)
    (fun s op hs => hs.perform w op) ops

theorem Counted.nodup_ids (h : Counted turn t given) : t.ids.Nodup ↔ Distinct turn given := by
  rw [← nodup_ids_iff (fun hnames => (h.apart hnames).once) h.minted,
    List.nodup_iff_count_le_one, List.nodup_iff_count_le_one]
  constructor
  · intro hle x
    have hx := hle x
    rwa [h.ids, h.turn] at hx
  · intro hle x
    rw [h.ids, h.turn]
    exact hle x

theorem Distinct.of_prefix {given' : List Naming} (h : Distinct turn given')
    (hpre : given <+: given') : Distinct turn given where
  nodup := h.nodup.sublist (hpre.sublist.filterMap _)
  apart x hx hx' := h.apart x ((hpre.sublist.filterMap _).subset hx)
    ((hpre.sublist.filterMap _).subset hx')

theorem given_prefix (w : World) (s : Census) (ops : List Op) :
    s.given <+: (runFrom (Census.perform w) s ops).given :=
  runFrom_invariant (Q := fun s' : Census => s.given <+: s'.given) List.prefix_rfl
    (fun _ _ hs => hs.trans (List.prefix_append _ _)) ops

/-- Over every run of a turn, whatever the sink takes: in every state the ids of the entries
appended or opened are distinct, and every delta under the say of its lane's open entry extends the
entry, exactly if the ids the agent names are distinct and none is one the turn made, and those
deltas are of their entry's kind under a say that reads as no segment. -/
theorem ids_distinct_iff (w : World) (id : String) (ops : List Op) :
    ((∀ pre, pre <+: ops → (runFrom (Census.perform w) (census id) pre).turn.ids.Nodup) ∧
      Along (Census.perform w) (fun s op => Extends w s.turn op) (census id) ops) ↔
    (Distinct id (runFrom (Census.perform w) (census id) ops).given ∧
      Along (Census.perform w) (fun s op => SameStream s.turn op) (census id) ops) := by
  have hstream : Along (Census.perform w) (fun s op => Extends w s.turn op) (census id) ops ↔
      Along (Census.perform w) (fun s op => SameStream s.turn op) (census id) ops :=
    along_iff (Q := fun s : Census => Counted id s.turn s.given) (counted_opened id)
      (fun s op hs => extends_iff hs op) (fun s op hs _ => hs.perform w op) ops
  rw [hstream]
  refine and_congr_left fun _ => ⟨fun hall => ?_, fun hdistinct pre hpre => ?_⟩
  · exact (counted_run w id ops).nodup_ids.mp (hall ops List.prefix_rfl)
  · obtain ⟨rest, rfl⟩ := hpre
    rw [(counted_run w id pre).nodup_ids]
    refine hdistinct.of_prefix ?_
    rw [runFrom_append]
    exact given_prefix w _ rest

/-- A say that comes back after another in its lane names a second entry by itself; so does a say
in a second lane, and a say that reads as a segment splits its own entry. -/
theorem say_comes_back :
    let w : World := { accepts := fun _ => true, digest := fun _ => "" }
    let run := fun ops => (runFrom (Census.perform w) (census "t-a") ops).turn
    (run [.textDelta "main" "A" "1", .textDelta "main" "B" "2", .textDelta "main" "A" "3"]).ids =
        ["A", "B", "A"] ∧
      (run [.textDelta "main" "A" "1", .textDelta "side" "A" "2"]).ids = ["A", "A"] ∧
      (run [.textDelta "main" "x#2" "1", .textDelta "main" "x#2" "2"]).ids = ["x#2", "x#2#2"] ∧
      ¬ ∀ pre, pre <+: [Op.textDelta "main" "A" "1", .textDelta "main" "B" "2",
          .textDelta "main" "A" "3"] → (run pre).ids.Nodup := by
  intro w run
  have hback : (run [.textDelta "main" "A" "1", .textDelta "main" "B" "2",
      .textDelta "main" "A" "3"]).ids = ["A", "B", "A"] := by decide +kernel
  refine ⟨hback, by decide +kernel, by decide +kernel, fun hall => ?_⟩
  have hnodup := hall _ List.prefix_rfl
  rw [hback] at hnodup
  revert hnodup
  decide

end Marotte.TurnLog
