import Mathlib.Data.List.TakeWhile
import Marotte.Transcript.Admitted

/-! # Ordinals and the windows of records

A turn that survives is below every turn opened after it, so a record's ordinal tells the turns it
takes: those opened from the one it names on, its carrier left out.
-/
namespace Marotte.Transcript

namespace Log

variable {l l' : Log} {a : Action} {e : Entry} {turn x y fromTurn carrier : String}
  {as : List Action}

theorem ordinal_of_prefix (h : l.own turn <+: l'.own turn) (hne : l.own turn ≠ []) :
    l'.ordinal turn = l.ordinal turn := by
  rw [ordinal, ordinal, ordinalOf, ordinalOf]
  obtain ⟨rest, hrest⟩ := h
  rw [← hrest, List.head?_append_of_ne_nil _ hne]

theorem Sound.own_ne_nil (h : l.Sound) (hx : x ∈ l.order) : l.own x ≠ [] :=
  fun hnil => h.own_eq_nil.mp hnil hx

theorem Sound.ordinal_act (h : l.Sound) (hx : x ∈ l.order) (a : Action) :
    (l.act a).ordinal x = l.ordinal x := ordinal_of_prefix (own_act l a x) (h.own_ne_nil hx)

theorem mem_survivors : x ∈ l.survivors ↔ x ∈ l.order ∧ x ∉ l.reverted := by
  simp [survivors]

/-- A turn that survives has a lower ordinal than those opened after it. -/
def Climbs (l : Log) : Prop := l.order.Pairwise fun x y => x ∉ l.reverted → l.ordinal x < l.ordinal y

namespace Climbs

theorem empty : ({} : Log).Climbs := List.Pairwise.nil

theorem le_turnCount (h : l.Climbs) (hx : x ∈ l.survivors) : l.ordinal x ≤ l.turnCount := by
  have hclimb : l.survivors.Pairwise fun x y => l.ordinal x < l.ordinal y := by
    apply (List.Pairwise.filter _ h).imp_of_mem
    intro x y hx _ hxy
    exact hxy (mem_survivors.mp hx).2
  obtain ⟨front, last, hl⟩ := (List.eq_nil_or_concat l.survivors).resolve_left (List.ne_nil_of_mem hx)
  rw [List.concat_eq_append] at hl
  rw [turnCount, hl, List.getLast?_concat]
  rw [hl, List.pairwise_append] at hclimb
  rw [hl] at hx
  rcases List.mem_append.mp hx with hx | hx
  · exact Nat.le_of_lt (hclimb.2.2 x hx last (List.mem_singleton_self last))
  · rw [List.mem_singleton.mp hx]
    exact Nat.le_refl _

theorem of_same (h : l.Climbs) (horder : l'.order = l.order) (hrev : l.reverted <+: l'.reverted)
    (hord : ∀ x ∈ l.order, l'.ordinal x = l.ordinal x) : l'.Climbs := by
  rw [Climbs, horder]
  apply h.imp_of_mem
  intro x y hx hy hxy hnot
  rw [hord x hx, hord y hy]
  exact hxy fun hmem => hnot (hrev.subset hmem)

/-- A turn opened at an ordinal above every one that survives. -/
theorem concat (h : l.Climbs) (horder : l'.order = l.order ++ [turn])
    (hrev : l.reverted <+: l'.reverted) (hord : ∀ x ∈ l.order, l'.ordinal x = l.ordinal x)
    (hlt : ∀ x ∈ l.order, x ∉ l'.reverted → l.ordinal x < l'.ordinal turn) : l'.Climbs := by
  rw [Climbs, horder, List.pairwise_append]
  refine ⟨?_, List.pairwise_singleton _ _, ?_⟩
  · apply h.imp_of_mem
    intro x y hx hy hxy hnot
    rw [hord x hx, hord y hy]
    exact hxy fun hmem => hnot (hrev.subset hmem)
  · intro x hx y hy hnot
    rw [List.mem_singleton.mp hy, hord x hx]
    exact hlt x hx hnot

/-- From a turn that survives, the turns opened from it on are those from its ordinal on. -/
theorem mem_dropWhile (h : l.Climbs) (hfrom : fromTurn ∈ l.survivors) (hx : x ∈ l.order) :
    (x ∈ l.order.dropWhile (· ≠ fromTurn) → l.ordinal fromTurn ≤ l.ordinal x) ∧
      (x ∉ l.reverted → l.ordinal fromTurn ≤ l.ordinal x →
        x ∈ l.order.dropWhile (· ≠ fromTurn)) := by
  obtain ⟨hmem, hlive⟩ := mem_survivors.mp hfrom
  have hsplit := List.takeWhile_append_dropWhile (p := (· ≠ fromTurn)) (l := l.order)
  have hne : l.order.dropWhile (· ≠ fromTurn) ≠ [] := by
    rw [ne_eq, List.dropWhile_eq_nil_iff]
    exact fun hall => by simpa using hall fromTurn hmem
  obtain ⟨y, rest, hdrop⟩ := List.exists_cons_of_ne_nil hne
  have hy : y = fromTurn := by
    have hhead := List.head_dropWhile_not (· ≠ fromTurn) hne
    simp only [hdrop, List.head_cons] at hhead
    simpa using hhead
  rw [hy] at hdrop
  rw [hdrop] at hsplit ⊢
  unfold Climbs at h
  rw [← hsplit, List.pairwise_append, List.pairwise_cons] at h
  constructor
  · intro hx
    rcases List.mem_cons.mp hx with rfl | hx
    · exact Nat.le_refl _
    · exact Nat.le_of_lt (h.2.1.1 x hx hlive)
  · intro hnot hle
    rw [← hsplit] at hx
    rcases List.mem_append.mp hx with hx | hx
    · have hlt := h.2.2 x hx fromTurn List.mem_cons_self hnot
      omega
    · exact hx

end Climbs

/-- A record's ordinal tells its window. -/
def Exact (l : Log) : Action → Prop
  | .announced (.entryAppended e) => ∀ fromTurn fromN, e.payload = .turnRevert fromTurn fromN →
    (∀ turn ∈ l.window fromTurn e.turn, turn ∈ l.order ∧ fromN ≤ l.ordinal turn) ∧
      ∀ turn ∈ l.order, turn ≠ e.turn → fromN ≤ l.ordinal turn →
        turn ∈ l.window fromTurn e.turn ∨ turn ∈ l.reverted
  | _ => True

theorem exact_of_ne (h : e.kind ≠ .turnRevert) : l.Exact (.announced (.entryAppended e)) := by
  intro fromTurn fromN hp
  exact absurd (by rw [Entry.kind, hp]; rfl) h

namespace Climbs

/-- An action that opens no turn. -/
theorem act (h : l.Climbs) (hl : l.Sound) (he : l.Exact a) (horder : (l.act a).order = l.order) :
    l.Through Exact [a] ∧ ([a].foldl Log.act l).Climbs :=
  ⟨⟨he, trivial⟩, h.of_same horder (reverted_act l a) fun _ hx => hl.ordinal_act hx a⟩

theorem ordinal_openedEntry (hl : l.Sound) (hnew : turn ∉ l.order) (n : ℕ) (ts : ℤ) :
    (l.place (openedEntry turn n ts)).ordinal turn = n := by
  rw [ordinal, own_place, hl.own_eq_nil.mpr hnew]
  simp [openedEntry, ordinalOf]

theorem openTurn (h : l.Climbs) (hl : l.Sound) (hnew : turn ∉ l.order) (ts : ℤ) :
    (l.place (openedEntry turn (l.turnCount + 1) ts)).Climbs := by
  apply @concat _ _ turn h
  · exact order_place_open rfl
  · exact reverted_act l (.announced (.turnOpened _))
  · exact fun x hx => hl.ordinal_act hx (.announced (.turnOpened _))
  · intro x hx hnot
    have hle := h.le_turnCount (mem_survivors.mpr ⟨hx, hnot⟩)
    rw [ordinal_openedEntry hl hnew]
    omega

/-- A record in a turn that it leaves. -/
theorem record (h : l.Climbs) (hfrom : fromTurn ∈ l.survivors) (seq : ℕ) (ts : ℤ) :
    l.Exact (.announced (.entryAppended (l.revertRecord fromTurn carrier seq ts))) := by
  intro from' fromN hp
  obtain ⟨rfl, rfl⟩ := Payload.turnRevert.inj hp
  constructor
  · intro turn hturn
    obtain ⟨hmem, -⟩ := List.mem_filter.mp hturn
    have horder := (List.dropWhile_sublist _).subset hmem
    exact ⟨horder, (h.mem_dropWhile hfrom horder).1 hmem⟩
  · intro turn horder hne hle
    by_cases hrev : turn ∈ l.reverted
    · exact .inr hrev
    · refine .inl (List.mem_filter.mpr ⟨(h.mem_dropWhile hfrom horder).2 hrev hle, ?_⟩)
      exact decide_eq_true hne

/-- A record that takes every turn, in one that is minted and closed for it. -/
theorem recordMinted (h : l.Climbs) (hl : l.Sound) (hfrom : fromTurn ∈ l.survivors)
    (hall : ∀ x ∈ l.survivors, x ∈ l.order.dropWhile (· ≠ fromTurn)) {mint : String}
    (hnew : mint ∉ l.order) (close : Entry) (hclose : close.turn = mint)
    (hkind : close.kind = .turnClose) (ts : ℤ) :
    ((l.place (openedEntry mint 1 ts)).place close).Exact
        (.announced (.entryAppended (l.revertRecord fromTurn mint 2 ts))) ∧
      (((l.place (openedEntry mint 1 ts)).place close).place
        (l.revertRecord fromTurn mint 2 ts)).Climbs := by
  generalize hl₂ : (l.place (openedEntry mint 1 ts)).place close = l₂
  have hmem := fun x hx => h.mem_dropWhile (x := x) hfrom hx
  have horder : l₂.order = l.order ++ [mint] := by
    rw [← hl₂, order_place_of_ne (by rw [hkind]; decide), order_openTurn]
  have hrev : l₂.reverted = l.reverted := by
    have hp : ∀ t n, close.payload ≠ .turnRevert t n := by
      intro t n hp
      rw [Entry.kind, hp] at hkind
      cases hkind
    rw [← hl₂, place]
    split
    · next t n hp' => exact absurd hp' (hp t n)
    · rfl
  have hord : ∀ x ∈ l.order, l₂.ordinal x = l.ordinal x := by
    intro x hx
    apply ordinal_of_prefix _ (hl.own_ne_nil hx)
    rw [← hl₂, own_place, own_place, List.append_assoc]
    exact List.prefix_append _ _
  have hwindow : ∀ x, x ∈ l₂.window fromTurn mint ↔ x ∈ l.order.dropWhile (· ≠ fromTurn) := by
    intro x
    have hne : l.order.dropWhile (· ≠ fromTurn) ≠ [] :=
      List.ne_nil_of_mem (hall fromTurn hfrom)
    have hsub : x ∈ l.order.dropWhile (· ≠ fromTurn) → x ≠ mint := by
      rintro hx rfl
      exact hnew ((List.dropWhile_sublist _).subset hx)
    rw [window, horder, List.dropWhile_append, if_neg (by simpa using hne), List.filter_append,
      List.mem_append, List.mem_filter]
    constructor
    · rintro (hx | hx)
      · exact hx.1
      · simp at hx
    · exact fun hx => .inl ⟨hx, by simpa using hsub hx⟩
  have hturn : (l.revertRecord fromTurn mint 2 ts).turn = mint := rfl
  constructor
  · intro from' fromN hp
    obtain ⟨rfl, rfl⟩ := Payload.turnRevert.inj hp
    constructor
    · intro turn hx
      have hdrop := (hwindow turn).mp hx
      have hin := (List.dropWhile_sublist _).subset hdrop
      rw [horder, hord turn hin]
      exact ⟨List.mem_append_left _ hin, (hmem turn hin).1 hdrop⟩
    · intro turn hx hne hle
      rw [horder] at hx
      have hin : turn ∈ l.order := by simpa [hturn ▸ hne] using hx
      rw [hrev]
      by_cases hr : turn ∈ l.reverted
      · exact .inr hr
      · rw [hord turn hin] at hle
        exact .inl ((hwindow turn).mpr ((hmem turn hin).2 hr hle))
  · have hplace : (l₂.place (l.revertRecord fromTurn mint 2 ts)).reverted =
        l.reverted ++ l₂.window fromTurn mint := by
      simp only [place, revertRecord, hrev]
    apply @concat _ _ mint h
    · rw [order_place_of_ne (by simp [revertRecord, Entry.kind, Payload.kind]), horder]
    · rw [hplace]
      exact List.prefix_append _ _
    · intro x hx
      rw [← hord x hx]
      apply ordinal_of_prefix
      · rw [own_place]
        exact List.prefix_append _ _
      · rw [← hl₂, own_place, own_place]
        simp [hl.own_ne_nil hx]
    · intro x hx hnot
      rw [hplace, List.mem_append, not_or] at hnot
      have hlive := hall x (mem_survivors.mpr ⟨hx, hnot.1⟩)
      exact absurd ((hwindow x).mpr hlive) hnot.2

/-- Whatever an operation does: its record is exact, and the ordinals climb on. -/
theorem performs (h : l.Climbs) (hl : l.Sound) (op : ServerOp) :
    l.Through Exact (l.perform op) ∧ ((l.perform op).foldl Log.act l).Climbs := by
  cases op with
  | openTurn turn ts =>
    simp only [perform]
    split
    · exact ⟨trivial, h⟩
    · next hnew => exact ⟨⟨trivial, trivial⟩, h.openTurn hl hnew ts⟩
  | openEntry turn lane id kind text =>
    simp only [perform]
    split
    · apply h.act hl
      · trivial
      · rfl
    · exact ⟨trivial, h⟩
  | extend turn lane delta =>
    simp only [perform]
    split
    · next o ho =>
      apply h.act hl
      · trivial
      · simp only [Log.act, announce, ho, order_setTail]
    · exact ⟨trivial, h⟩
  | «seal» turn lane ts =>
    simp only [perform]
    split
    · next o ho =>
      apply h.act hl
      · trivial
      · simp only [Log.act, announce, ho, order_eraseTail]
        apply order_place_of_ne
        cases hk : o.kind <;> simp [Entry.kind, OpenEntry.sealed, Payload.kind, hk]
    · exact ⟨trivial, h⟩
  | append turn lane id payload ts =>
    simp only [perform]
    split
    · next hg =>
      apply h.act hl
      · exact exact_of_ne hg.2.2.1
      · exact order_place_of_ne hg.2.1
    · exact ⟨trivial, h⟩
  | revert fromTurn mint ts =>
    simp only [perform]
    split
    · next hfrom =>
      split
      · next carrier hc =>
        apply h.act hl
        · exact h.record hfrom.1 _ ts
        · exact order_place_of_ne (by simp [revertRecord, Entry.kind, Payload.kind])
      · next hnone =>
        split
        · exact ⟨trivial, h⟩
        · next hnew =>
          have hall : ∀ x ∈ l.survivors, x ∈ l.order.dropWhile (· ≠ fromTurn) := by
            intro x hx
            have hnil := List.filter_eq_nil_iff.mp (List.getLast?_eq_none_iff.mp hnone) x hx
            simpa using hnil
          obtain ⟨he, hc⟩ := h.recordMinted hl hfrom.1 hall hnew
            { id := mint ++ ":close", turn := mint, payload := .other .turnClose, seq := 1, ts }
            rfl rfl ts
          exact ⟨⟨trivial, trivial, he, trivial⟩, hc⟩
    · exact ⟨trivial, h⟩

end Climbs

/-- What the operations so far have in common. -/
structure Recorded (as : List Action) : Prop where
  sound : (after as).Sound
  climbs : (after as).Climbs
  through : ({} : Log).Through (fun l a => l.Admits a ∧ l.Exact a) as

namespace Recorded

theorem empty : Recorded [] := ⟨sound_empty, Climbs.empty, trivial⟩

theorem performs (h : Recorded as) (op : ServerOp) :
    Recorded (as ++ (after as).perform op) where
  sound := by
    rw [after_append]
    exact h.sound.actAll (h.sound.performs op)
  climbs := by
    rw [after_append]
    exact (h.climbs.performs h.sound op).2
  through := by
    rw [through_append]
    exact ⟨h.through, (h.sound.performs op).and (h.climbs.performs h.sound op).1⟩

/-- Each action fits the log that it was taken on. -/
theorem fits (h : Recorded as) {i : ℕ} (ha : as[i]? = some a) :
    (after (as.take i)).Admits a ∧ (after (as.take i)).Exact a := by
  obtain ⟨hlt, hget⟩ := List.getElem?_eq_some_iff.mp ha
  have hsplit : as = as.take i ++ a :: as.drop (i + 1) := by
    rw [← hget, ← List.drop_eq_getElem_cons, List.take_append_drop]
  have hthrough := h.through
  rw [hsplit, through_append] at hthrough
  exact hthrough.2.1

/-- Every log on the way is sound. -/
theorem sound_at (h : Recorded as) (i : ℕ) : (after (as.take i)).Sound := by
  have hthrough := h.through
  rw [← List.take_append_drop i as, through_append] at hthrough
  exact sound_empty.actAll (hthrough.1.imp fun _ _ hp => hp.1)

end Recorded
end Log
end Marotte.Transcript
