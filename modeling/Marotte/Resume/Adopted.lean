import Marotte.Resume.Drain

/-! # What a replay projection holds when it is adopted

While an open projection is given no replay frame but its own attachment's, and none from after
its load's response, it holds the frames that its attachment has folded. The drain lets it settle
once these are all the frames from before the response.
-/
namespace Marotte.Resume

namespace Replays

variable {α : Type} {s : Replays α} {gen : ℕ} {a a' : Attachment α}

/-- What the adoptions of a chat are: each projection is adopted once, neither superseded nor
discarded, after its own load's response and with the replay frames that its attachment delivered
before it; and an open projection has the frames of no other attachment. -/
structure Whole (s : Replays α) : Prop where
  once : (s.adopted.map LoadProjection.serial).Nodup
  standing : ∀ p ∈ s.adopted, p.serial ∉ s.dropped
  whole : ∀ p ∈ s.adopted, ∃ gen a n, p.own = some gen ∧ s.attachment gen = some a ∧
    a.loadSeq = some n ∧ p.frames = (a.replayed n).map (gen, ·)
  unmixed : ∀ p, s.projection = some p → ∀ f ∈ p.frames, p.own = some f.1

/-- A replay frame that a loop folds finds no projection open, or the one its own load opened with
no response before the frame. -/
def Kept (s : Replays α) : ReplayEvent α → Prop
  | .consumed gen => ∀ a update p, s.attachment gen = some a →
      a.delivered[a.folded]? = some (some update) → s.projection = some p →
        p.own = some gen ∧ ∀ n, a.loadSeq = some n → a.folded < n
  | _ => True

/-! ## Attachments -/

theorem attachment_self (h : s.attachment gen = some a) :
    (s.setAttachment gen a').attachment gen = some a' := by
  simp only [attachment, setAttachment] at h ⊢
  split at h
  · cases h
  · next hne =>
    have hlt := (List.getElem?_eq_some_iff.mp h).1
    rw [if_neg hne, List.getElem?_set_self hlt]

theorem attachment_of_ne {gen' : ℕ} (hgen : gen ≠ 0) (hne : gen' ≠ gen) :
    (s.setAttachment gen a').attachment gen' = s.attachment gen' := by
  simp only [attachment, setAttachment]
  split
  · rfl
  · rw [List.getElem?_set_ne (by omega)]

theorem attachment_ne_zero (h : s.attachment gen = some a) : gen ≠ 0 := by
  rintro rfl
  cases h

theorem attachment_le (h : s.attachment gen = some a) : gen ≤ s.attachments.length := by
  simp only [attachment] at h
  split at h
  · cases h
  · have hlt := (List.getElem?_eq_some_iff.mp h).1
    omega

theorem attachment_push (h : s.attachment gen = some a) {s' : Replays α} {new : Attachment α}
    (hs : s'.attachments = s.attachments ++ [new]) : s'.attachment gen = some a := by
  simp only [attachment] at h ⊢
  split at h
  · cases h
  · next hne =>
    rw [if_neg hne, hs, List.getElem?_append_left (List.getElem?_eq_some_iff.mp h).1]
    exact h

theorem attachment_push_cases {s' : Replays α} {new : Attachment α}
    (hs : s'.attachments = s.attachments ++ [new]) (h : s'.attachment gen = some a) :
    s.attachment gen = some a ∨ gen = s.attachments.length + 1 ∧ a = new := by
  simp only [attachment] at h ⊢
  split at h
  · cases h
  · next hne =>
    rw [hs, List.getElem?_append] at h
    split at h
    · rw [if_neg hne]
      exact .inl h
    · have hlt := (List.getElem?_eq_some_iff.mp h).1
      rw [List.length_singleton] at hlt
      obtain rfl : gen = s.attachments.length + 1 := by omega
      rw [Nat.add_sub_cancel, Nat.sub_self, List.getElem?_cons_zero] at h
      exact .inr ⟨rfl, (Option.some_inj.mp h).symm⟩

theorem attachment_new {s' : Replays α} {new : Attachment α}
    (hs : s'.attachments = s.attachments ++ [new]) :
    s'.attachment (s.attachments.length + 1) = some new := by
  simp [attachment, hs]

/-- After an attachment is replaced, an attachment is the new one or another. -/
theorem attachment_cases (h : s.attachment gen = some a) {gen' : ℕ} {b : Attachment α}
    (hb : (s.setAttachment gen a').attachment gen' = some b) :
    gen' = gen ∧ b = a' ∨ gen' ≠ gen ∧ s.attachment gen' = some b := by
  by_cases hgen : gen' = gen
  · subst hgen
    rw [attachment_self h] at hb
    exact .inl ⟨rfl, (Option.some_inj.mp hb).symm⟩
  · rw [attachment_of_ne (attachment_ne_zero h) hgen] at hb
    exact .inr ⟨hgen, hb⟩

/-- A replacement keeps what it does not concern. -/
theorem attachment_update (h : s.attachment gen = some a) {gen' : ℕ} {b : Attachment α}
    (hb : s.attachment gen' = some b) :
    (s.setAttachment gen a').attachment gen' = some (if gen' = gen then a' else b) := by
  split
  · next hgen =>
    rw [hgen]
    exact attachment_self h
  · next hgen => rw [attachment_of_ne (attachment_ne_zero h) hgen, hb]

theorem length_setAttachment : (s.setAttachment gen a').attachments.length =
    s.attachments.length := List.length_set

end Replays

theorem Attachment.replayed_prefix {α : Type} {a a' : Attachment α} {n : ℕ}
    (h : a.delivered <+: a'.delivered) (hn : n ≤ a.delivered.length) :
    a'.replayed n = a.replayed n := by
  obtain ⟨rest, hrest⟩ := h
  rw [replayed, replayed, ← hrest, List.take_append_of_le_length hn]

theorem Attachment.replayed_succ {α : Type} (a : Attachment α) (n : ℕ) :
    a.replayed (n + 1) = a.replayed n ++ a.delivered[n]?.toList.filterMap id := by
  rw [replayed, replayed, List.take_add_one, List.filterMap_append]

/-! ## The invariant -/

namespace Replays

variable {α : Type} {s : Replays α} {gen : ℕ} {a a' : Attachment α}

/-- An open projection and its drain. -/
structure Projected (s : Replays α) (p : LoadProjection α) : Prop where
  unattached : p.own = none → p.frames = []
  attached : ∀ gen, p.own = some gen → ∃ a, s.attachment gen = some a ∧
    p.frames = (a.replayed a.folded).map (gen, ·) ∧
      ∀ n, a.loadSeq = some n → a.replayed a.folded = a.replayed (min a.folded n)
  bound : p.drain.gen ≤ s.attachments.length
  loaded : p.drain.loaded = true → p.own = some p.drain.gen ∧
    ∃ a, s.attachment p.drain.gen = some a ∧ a.loadSeq = some p.drain.loadSeq
  observed : ∀ a, s.attachment p.drain.gen = some a → p.own = some p.drain.gen →
    p.drain.observed ≤ a.settled

theorem Projected.congr {s' : Replays α} {p : LoadProjection α} (h : s.Projected p)
    (hs : s'.attachments = s.attachments) : s'.Projected p := by
  have hsame : ∀ gen, s'.attachment gen = s.attachment gen := fun gen => by
    rw [attachment, attachment, hs]
  constructor
  · exact h.unattached
  · simpa only [hsame] using h.attached
  · exact hs ▸ h.bound
  · simpa only [hsame] using h.loaded
  · simpa only [hsame] using h.observed

/-- What an adopted projection holds. -/
def Delivered (s : Replays α) (p : LoadProjection α) : Prop :=
  ∃ gen a n, p.own = some gen ∧ s.attachment gen = some a ∧ a.loadSeq = some n ∧
    p.frames = (a.replayed n).map (gen, ·)

structure Sound (s : Replays α) : Prop where
  serials : (s.projection.toList.map LoadProjection.serial ++
    (s.adopted.map LoadProjection.serial ++ s.dropped)).Nodup
  below : ∀ n ∈ s.projection.toList.map LoadProjection.serial ++
    (s.adopted.map LoadProjection.serial ++ s.dropped), n ≤ s.opened
  bounds : ∀ gen a, s.attachment gen = some a → a.settled ≤ a.folded ∧
    a.folded ≤ a.delivered.length ∧ ∀ n, a.loadSeq = some n → n ≤ a.delivered.length
  quiet : s.load ≠ .idle → ∃ p, s.projection = some p ∧ p.drain.loaded = false
  opened : s.load = .opened → ∀ p, s.projection = some p → p.own = none
  attached : ∀ gen, s.load = .attached gen → (∀ p, s.projection = some p → p.own = some gen) ∧
    ∃ a, s.attachment gen = some a ∧ a.loadSeq = none
  returned : ∀ gen n, s.load = .returned gen n →
    (∀ p, s.projection = some p → p.own = some gen) ∧
      ∃ a, s.attachment gen = some a ∧ a.loadSeq = some n
  projected : ∀ p, s.projection = some p → s.Projected p
  delivered : ∀ p ∈ s.adopted, s.Delivered p

theorem sound_empty : (({} : Replays α)).Sound where
  serials := List.nodup_nil
  below := by simp
  bounds := by simp [attachment]
  quiet h := absurd rfl h
  opened h := by cases h
  attached _ h := by cases h
  returned _ _ h := by cases h
  projected p h := by cases h
  delivered p h := by cases h

/-- An attachment that only grows: it has folded what it had, and its load's response stays. -/
structure Grown (a a' : Attachment α) : Prop where
  delivered : a.delivered <+: a'.delivered
  folded : a'.folded = a.folded
  settled : a.settled ≤ a'.settled ∧ a'.settled ≤ a'.folded
  loadSeq : a'.loadSeq = a.loadSeq ∨ a.loadSeq = none ∧ a'.loadSeq = some a'.delivered.length

theorem Delivered.update {p : LoadProjection α} (h : s.Delivered p)
    (hbounds : ∀ gen a, s.attachment gen = some a → a.settled ≤ a.folded ∧
      a.folded ≤ a.delivered.length ∧ ∀ n, a.loadSeq = some n → n ≤ a.delivered.length)
    (ha : s.attachment gen = some a) (hd : a.delivered <+: a'.delivered)
    (hl : ∀ n, a.loadSeq = some n → a'.loadSeq = some n) :
    (s.setAttachment gen a').Delivered p := by
  obtain ⟨g, b, n, hown, hb, hn, hframes⟩ := h
  refine ⟨g, _, n, hown, attachment_update ha hb, ?_⟩
  split
  · next hgen =>
    obtain rfl : b = a := Option.some_inj.mp (hb.symm.trans (hgen ▸ ha))
    refine ⟨hl n hn, ?_⟩
    rw [Attachment.replayed_prefix hd ((hbounds g b hb).2.2 n hn)]
    exact hframes
  · exact ⟨hn, hframes⟩

theorem Projected.update {p : LoadProjection α} (h : s.Projected p)
    (hbounds : ∀ gen a, s.attachment gen = some a → a.settled ≤ a.folded ∧
      a.folded ≤ a.delivered.length ∧ ∀ n, a.loadSeq = some n → n ≤ a.delivered.length)
    (ha : s.attachment gen = some a) (hgrown : Grown a a') :
    (s.setAttachment gen a').Projected p where
  unattached := h.unattached
  attached g hown := by
    obtain ⟨b, hb, hframes, hwithin⟩ := h.attached g hown
    refine ⟨_, attachment_update ha hb, ?_⟩
    split
    · next hgen =>
      obtain rfl : b = a := Option.some_inj.mp (hb.symm.trans (hgen ▸ ha))
      have hfolded := (hbounds g b hb).2.1
      have hsame : ∀ n ≤ b.folded, a'.replayed n = b.replayed n := fun n hn =>
        Attachment.replayed_prefix hgrown.delivered (Nat.le_trans hn hfolded)
      rw [hgrown.folded, hsame _ (Nat.le_refl _)]
      refine ⟨hframes, ?_⟩
      intro n hn
      rw [hsame _ (Nat.min_le_left _ _)]
      rcases hgrown.loadSeq with hl | ⟨-, hl⟩
      · exact hwithin n (hl ▸ hn)
      · rw [hl, Option.some_inj] at hn
        have hlength := hgrown.delivered.length_le
        rw [Nat.min_eq_left (by omega)]
    · exact ⟨hframes, hwithin⟩
  bound := by
    rw [length_setAttachment]
    exact h.bound
  loaded hloaded := by
    obtain ⟨hown, b, hb, hn⟩ := h.loaded hloaded
    refine ⟨hown, _, attachment_update ha hb, ?_⟩
    split
    · next hgen =>
      obtain rfl : b = a := Option.some_inj.mp (hb.symm.trans (hgen ▸ ha))
      rcases hgrown.loadSeq with hl | ⟨hnone, -⟩
      · exact hl.trans hn
      · rw [hn] at hnone
        cases hnone
    · exact hn
  observed b hb hown := by
    rcases attachment_cases ha hb with ⟨hgen, rfl⟩ | ⟨-, hb⟩
    · exact Nat.le_trans (h.observed a (hgen ▸ ha) hown) hgrown.settled.1
    · exact h.observed b hb hown

namespace Sound

theorem holds (h : s.Sound) : s.Whole where
  once := (List.nodup_append.mp (List.nodup_append.mp h.serials).2.1).1
  standing p hp hdropped :=
    (List.nodup_append.mp (List.nodup_append.mp h.serials).2.1).2.2 _ (List.mem_map_of_mem hp) _
      hdropped rfl
  whole := h.delivered
  unmixed p hp f hf := by
    have hproj := h.projected p hp
    cases hown : p.own with
    | none =>
      rw [hproj.unattached hown] at hf
      cases hf
    | some gen =>
      obtain ⟨a, -, hframes, -⟩ := hproj.attached gen hown
      rw [hframes] at hf
      obtain ⟨u, -, rfl⟩ := List.mem_map.mp hf
      rfl

/-- An attachment grows, and its load's response is where it was. -/
theorem update (h : s.Sound) (ha : s.attachment gen = some a) (hgrown : Grown a a')
    (hl : a'.loadSeq = a.loadSeq) : (s.setAttachment gen a').Sound where
  serials := h.serials
  below := h.below
  bounds g b hb := by
    rcases attachment_cases ha hb with ⟨-, rfl⟩ | ⟨-, hb⟩
    · have hlength := hgrown.delivered.length_le
      obtain ⟨-, hfolded, hloaded⟩ := h.bounds gen a ha
      refine ⟨hgrown.settled.2, by rw [hgrown.folded]; omega, ?_⟩
      intro n hn
      exact Nat.le_trans (hloaded n (hl ▸ hn)) hlength
    · exact h.bounds g b hb
  quiet := h.quiet
  opened := h.opened
  attached g hload := by
    obtain ⟨hown, b, hb, hn⟩ := h.attached g hload
    refine ⟨hown, _, attachment_update ha hb, ?_⟩
    split
    · next hgen =>
      obtain rfl : b = a := Option.some_inj.mp (hb.symm.trans (hgen ▸ ha))
      exact hl.trans hn
    · exact hn
  returned g n hload := by
    obtain ⟨hown, b, hb, hn⟩ := h.returned g n hload
    refine ⟨hown, _, attachment_update ha hb, ?_⟩
    split
    · next hgen =>
      obtain rfl : b = a := Option.some_inj.mp (hb.symm.trans (hgen ▸ ha))
      exact hl.trans hn
    · exact hn
  projected p hp := (h.projected p hp).update h.bounds ha hgrown
  delivered p hp := (h.delivered p hp).update h.bounds ha hgrown.delivered fun n hn => hl.trans hn

/-- The response arrives after every frame that its read loop has delivered. -/
theorem loadReturns (h : s.Sound) (hload : s.load = .attached gen)
    (ha : s.attachment gen = some a) :
    ({ s.setAttachment gen { a with loadSeq := some a.delivered.length } with
      load := .returned gen a.delivered.length } : Replays α).Sound := by
  obtain ⟨hown, b, hb, hnone⟩ := h.attached gen hload
  obtain rfl : b = a := Option.some_inj.mp (hb.symm.trans ha)
  have hbounds := h.bounds gen b ha
  have hgrown : Grown b { b with loadSeq := some b.delivered.length } :=
    ⟨List.prefix_rfl, rfl, ⟨Nat.le_refl _, hbounds.1⟩, .inr ⟨hnone, rfl⟩⟩
  refine ⟨h.serials, h.below, ?_, ?_, ?_, ?_, ?_, ?_, ?_⟩
  · intro g b' hb'
    rcases attachment_cases ha hb' with ⟨-, rfl⟩ | ⟨-, hb'⟩
    · refine ⟨hbounds.1, hbounds.2.1, ?_⟩
      rintro n ⟨⟩
      exact Nat.le_refl _
    · exact h.bounds g b' hb'
  · exact fun _ => h.quiet (by simp [hload])
  · intro hopened
    cases hopened
  · intro g hattached
    cases hattached
  · rintro g n ⟨⟩
    exact ⟨hown, _, attachment_self ha, rfl⟩
  · exact fun p hp => ((h.projected p hp).update h.bounds ha hgrown).congr rfl
  · intro p hp
    apply (h.delivered p hp).update h.bounds ha hgrown.delivered
    intro n hn
    rw [hnone] at hn
    cases hn

/-- An open projection that is dropped stays among the projections that there were. -/
theorem dropped_perm (s : Replays α) :
    (s.adopted.map LoadProjection.serial ++
      (s.projection.toList.map LoadProjection.serial ++ s.dropped)).Perm
    (s.projection.toList.map LoadProjection.serial ++
      (s.adopted.map LoadProjection.serial ++ s.dropped)) := by
  rw [← List.append_assoc, ← List.append_assoc]
  exact List.perm_append_comm.append_right _

theorem openReplayProjection (h : s.Sound) : s.openReplayProjection.Sound where
  serials := by
    refine List.nodup_cons.mpr ⟨?_, (dropped_perm s).nodup_iff.mpr h.serials⟩
    intro hmem
    exact absurd (h.below _ ((dropped_perm s).mem_iff.mp hmem)) (Nat.not_succ_le_self _)
  below n hn := by
    rcases List.mem_cons.mp hn with rfl | hn
    · exact Nat.le_refl _
    · exact Nat.le_succ_of_le (h.below n ((dropped_perm s).mem_iff.mp hn))
  bounds := h.bounds
  quiet _ := ⟨_, rfl, rfl⟩
  opened _ p hp := by
    cases hp
    rfl
  attached g hload := by cases hload
  returned g n hload := by cases hload
  projected p hp := by
    cases hp
    exact ⟨fun _ => rfl, by simp, Nat.zero_le _, by simp, by simp⟩
  delivered := h.delivered

theorem discardReplayProjection (h : s.Sound) : s.discardReplayProjection.Sound where
  serials := (dropped_perm s).nodup_iff.mpr h.serials
  below n hn := h.below n ((dropped_perm s).mem_iff.mp hn)
  bounds := h.bounds
  quiet hload := absurd rfl hload
  opened hload := by cases hload
  attached g hload := by cases hload
  returned g n hload := by cases hload
  projected p hp := by cases hp
  delivered := h.delivered

/-- A new attachment concerns no projection that has one of its own. -/
theorem projected_push {s' : Replays α} {p : LoadProjection α} (h : s.Projected p)
    (hs : s'.attachments = s.attachments ++ [({} : Attachment α)]) : s'.Projected p where
  unattached := h.unattached
  attached g hown := by
    obtain ⟨b, hb, hrest⟩ := h.attached g hown
    exact ⟨b, attachment_push hb hs, hrest⟩
  bound := by
    rw [hs, List.length_append]
    exact Nat.le_add_right_of_le h.bound
  loaded hloaded := by
    obtain ⟨hown, b, hb, hn⟩ := h.loaded hloaded
    exact ⟨hown, b, attachment_push hb hs, hn⟩
  observed b hb hown := by
    rcases attachment_push_cases hs hb with hb | ⟨hgen, -⟩
    · exact h.observed b hb hown
    · exact absurd h.bound (by omega)

theorem delivered_push {s' : Replays α} {p : LoadProjection α} (h : s.Delivered p)
    (hs : s'.attachments = s.attachments ++ [({} : Attachment α)]) : s'.Delivered p := by
  obtain ⟨g, b, n, hown, hb, hrest⟩ := h
  exact ⟨g, b, n, hown, attachment_push hb hs, hrest⟩

theorem bounds_push (h : s.Sound) {s' : Replays α}
    (hs : s'.attachments = s.attachments ++ [({} : Attachment α)]) {gen : ℕ} {a : Attachment α}
    (ha : s'.attachment gen = some a) : a.settled ≤ a.folded ∧ a.folded ≤ a.delivered.length ∧
      ∀ n, a.loadSeq = some n → n ≤ a.delivered.length := by
  rcases attachment_push_cases hs ha with ha | ⟨-, rfl⟩
  · exact h.bounds gen a ha
  · simp

/-- A new attachment, which is the open projection's own when a load waits for it. -/
theorem attachForward (h : s.Sound) : s.attachForward.Sound := by
  rw [Replays.attachForward]
  cases hload : s.load with
  | attached gen => exact h
  | returned gen n => exact h
  | failed => exact h
  | idle =>
    refine ⟨h.serials, h.below, fun g b hb => h.bounds_push rfl hb, ?_, ?_, ?_, ?_,
      fun p hp => projected_push (h.projected p hp) rfl,
      fun p hp => delivered_push (h.delivered p hp) rfl⟩
    · exact fun hne => absurd rfl hne
    · intro hopened
      cases hopened
    · intro g hattached
      cases hattached
    · intro g n hreturned
      cases hreturned
  | opened =>
    obtain ⟨p, hp, hloaded⟩ := h.quiet (by simp [hload])
    have hproj := h.projected p hp
    have hown := h.opened hload p hp
    simp only [hp]
    constructor
    · have hserials := h.serials
      rw [hp] at hserials
      exact hserials
    · have hbelow := h.below
      rw [hp] at hbelow
      exact hbelow
    · exact fun g b hb => h.bounds_push rfl hb
    · exact fun _ => ⟨_, rfl, hloaded⟩
    · intro hopened
      cases hopened
    · rintro g ⟨⟩
      refine ⟨?_, {}, attachment_new rfl, rfl⟩
      rintro _ ⟨⟩
      rfl
    · intro g n hreturned
      cases hreturned
    · rintro _ ⟨⟩
      have hpush := @projected_push _ s { s with attachments := s.attachments ++ [{}] } p hproj rfl
      constructor
      · intro hnone
        cases hnone
      · rintro g ⟨⟩
        refine ⟨{}, attachment_new rfl, ?_, ?_⟩
        · simp [Attachment.replayed, hproj.unattached hown]
        · simp
      · exact hpush.bound
      · exact fun hd => absurd (hloaded.symm.trans hd) Bool.false_ne_true
      · intro b hb hgen
        have hbound := hproj.bound
        simp only [Option.some_inj] at hgen
        omega
    · exact fun q hq => delivered_push (h.delivered q hq) rfl

/-! ## A frame, and a settle -/

/-- One observation of the drain, in a state where every frame that an exited attachment delivered
is folded. -/
theorem claimSettled (h : s.Sound) {exited : Bool} {note : ReplayDrain → ReplayDrain}
    (hnote : ∀ p, s.projection = some p → s.Projected { p with drain := note p.drain } ∧
      ((note p.drain).loaded = true → s.load = .idle))
    (hexited : exited = true → ∀ a, s.attachment gen = some a → a.folded = a.delivered.length) :
    (s.claimSettled gen exited note).Sound := by
  rw [Replays.claimSettled]
  cases hp : s.projection with
  | none => exact h
  | some p =>
    obtain ⟨hproj, hidle⟩ := hnote p hp
    have hserials := h.serials
    have hbelow := h.below
    rw [hp] at hserials hbelow
    simp only
    split
    · next hcomplete =>
      obtain ⟨hgen, hloaded, hreached⟩ := ReplayDrain.complete_iff.mp hcomplete
      have hload := hidle hloaded
      have hperm : ((s.adopted ++ [{ p with drain := note p.drain }]).map LoadProjection.serial ++
          s.dropped).Perm (p.serial :: (s.adopted.map LoadProjection.serial ++ s.dropped)) := by
        rw [List.map_append, List.append_assoc]
        exact List.perm_middle
      refine ⟨hperm.nodup_iff.mpr hserials, fun n hn => hbelow n (hperm.mem_iff.mp hn), h.bounds,
        fun hne => absurd hload hne, ?_, ?_, ?_, ?_, ?_⟩
      · intro hopened
        cases hload.symm.trans hopened
      · intro g hattached
        cases hload.symm.trans hattached
      · intro g n hreturned
        cases hload.symm.trans hreturned
      · intro q hq
        cases hq
      · intro q hq
        rcases List.mem_append.mp hq with hq | hq
        · exact h.delivered q hq
        · rw [List.mem_singleton] at hq
          subst hq
          obtain ⟨hown, a, ha, hn⟩ := hproj.loaded hloaded
          obtain ⟨a', ha', hframes, hwithin⟩ := hproj.attached _ hown
          obtain rfl : a = a' := Option.some_inj.mp (ha.symm.trans ha')
          obtain ⟨hsettled, hfolded, hlength⟩ := h.bounds _ a ha
          have hobserved := hproj.observed a ha hown
          refine ⟨_, a, _, hown, ha, hn, ?_⟩
          have hle : (note p.drain).loadSeq ≤ a.folded := by
            rcases hreached with hex | hobs
            · rw [hexited hex a (hgen ▸ ha)]
              exact hlength _ hn
            · exact Nat.le_trans hobs (Nat.le_trans hobserved hsettled)
          rw [hframes, hwithin _ hn, Nat.min_eq_right hle]
    · refine ⟨hserials, hbelow, h.bounds, ?_, ?_, ?_, ?_, ?_, h.delivered⟩
      · intro hne
        refine ⟨_, rfl, ?_⟩
        by_contra hloaded
        exact hne (hidle (by simpa using hloaded))
      · rintro hopened _ ⟨⟩
        exact h.opened hopened p hp
      · intro g hattached
        refine ⟨?_, (h.attached g hattached).2⟩
        rintro _ ⟨⟩
        exact (h.attached g hattached).1 p hp
      · intro g n hreturned
        refine ⟨?_, (h.returned g n hreturned).2⟩
        rintro _ ⟨⟩
        exact (h.returned g n hreturned).1 p hp
      · rintro _ ⟨⟩
        exact hproj.congr rfl

/-- A drain is loaded only once its load is over. -/
theorem idle_of_loaded (h : s.Sound) {p : LoadProjection α} (hp : s.projection = some p)
    (hloaded : p.drain.loaded = true) : s.load = .idle := by
  by_contra hne
  obtain ⟨q, hq, hfalse⟩ := h.quiet hne
  obtain rfl : p = q := Option.some_inj.mp (hp.symm.trans hq)
  rw [hloaded] at hfalse
  cases hfalse

/-- A settle attempt after a frame, or at the exit, of an attachment. -/
theorem settleReplayProjection (h : s.Sound) (ha : s.attachment gen = some a) {seq : ℕ}
    (hseq : seq ≤ a.settled) {exited : Bool}
    (hexited : exited = true → a.folded = a.delivered.length) :
    (s.settleReplayProjection { gen, seq } exited).Sound := by
  apply h.claimSettled
  · intro p hp
    have hproj := h.projected p hp
    have hkeeps := fun hl => @ReplayDrain.loaded_noteConsumed p.drain { gen, seq } hl
    refine ⟨⟨hproj.unattached, hproj.attached, ?_, ?_, ?_⟩, ?_⟩
    · rw [ReplayDrain.gen_noteConsumed]
      exact Nat.max_le.mpr ⟨hproj.bound, attachment_le ha⟩
    · intro hloaded
      obtain ⟨hold, hgen, hpos⟩ := hkeeps hloaded
      simp only [hgen, hpos]
      exact hproj.loaded hold
    · intro b hb hown
      apply ReplayDrain.observed_noteConsumed _ _ rfl
      · intro hgen
        rw [← hgen] at hb hown
        exact hproj.observed b hb hown
      · intro hgen
        obtain rfl : a = b := Option.some_inj.mp (ha.symm.trans ((show gen = _ from hgen) ▸ hb))
        exact hseq
    · intro hloaded
      exact h.idle_of_loaded hp (hkeeps hloaded).1
  · intro hex b hb
    obtain rfl : a = b := Option.some_inj.mp (ha.symm.trans hb)
    exact hexited hex

theorem markReplayLoadedAt (h : s.Sound) {n : ℕ} (hload : s.load = .returned gen n) :
    (({ s with load := .idle } : Replays α).markReplayLoadedAt { gen, seq := n }).Sound := by
  obtain ⟨hown, a, ha, hn⟩ := h.returned gen n hload
  have hidle : ({ s with load := .idle } : Replays α).Sound := by
    refine ⟨h.serials, h.below, h.bounds, fun hne => absurd rfl hne, ?_, ?_, ?_,
      fun p hp => (h.projected p hp).congr rfl, h.delivered⟩
    · intro hopened
      cases hopened
    · intro g hattached
      cases hattached
    · intro g m hreturned
      cases hreturned
  apply hidle.claimSettled
  · intro p hp
    have hproj := hidle.projected p hp
    have hfresh : p.drain.loaded ≠ true := fun hloaded => by
      have hnot := h.idle_of_loaded hp hloaded
      rw [hload] at hnot
      cases hnot
    refine ⟨⟨hproj.unattached, hproj.attached, ?_, ?_, ?_⟩, fun _ => rfl⟩
    · rw [ReplayDrain.gen_markLoadedAt]
      exact Nat.max_le.mpr ⟨hproj.bound, attachment_le ha⟩
    · intro hloaded
      rcases p.drain.markLoadedAt_cases { gen, seq := n } with heq | ⟨hgen, hseq, -⟩
      · rw [heq] at hloaded
        exact absurd hloaded hfresh
      · simp only [hgen, hseq]
        exact ⟨hown p hp, a, ha, hn⟩
    · intro b hb hgen'
      rcases p.drain.markLoadedAt_cases { gen, seq := n } with heq | ⟨hgen, -, hobs | ⟨hsame, hobs⟩⟩
      · rw [heq] at hb hgen' ⊢
        exact hproj.observed b hb hgen'
      · simp only [hobs]
        exact Nat.zero_le _
      · simp only [hobs]
        rw [hsame] at hb hgen'
        exact hproj.observed b hb hgen'
  · intro hex
    cases hex

/-- A frame is folded; a replay frame goes into the projection that is open. -/
theorem consume (h : s.Sound) (ha : s.attachment gen = some a)
    (hnext : a.folded < a.delivered.length) (hsettled : a.settled = a.folded)
    (hkept : s.Kept (.consumed gen)) : (s.consume gen a).Sound := by
  generalize hframe : a.delivered[a.folded]?.toList.filterMap id = frame
  have hsucc : a.replayed (a.folded + 1) = a.replayed a.folded ++ frame := by
    rw [a.replayed_succ, hframe]
  -- the projection takes exactly the replay update of the frame
  have hconsume : s.consume gen a = { s.setAttachment gen { a with folded := a.folded + 1 } with
      projection := s.projection.map fun p =>
        { p with frames := p.frames ++ frame.map (gen, ·) } } := by
    rw [Replays.consume, ← hframe]
    rcases hd : a.delivered[a.folded]? with _ | _ | update <;>
      simp [setAttachment, ingestReplayFrame]
  have hmine : ∀ p, s.projection = some p → frame ≠ [] →
      p.own = some gen ∧ ∀ n, a.loadSeq = some n → a.folded < n := by
    intro p hp hne
    rcases hd : a.delivered[a.folded]? with _ | _ | update
    · simp [← hframe, hd] at hne
    · simp [← hframe, hd] at hne
    · exact hkept a update p ha hd hp
  have hserials : (s.projection.map fun p =>
      { p with frames := p.frames ++ frame.map (gen, ·) }).toList.map LoadProjection.serial =
        s.projection.toList.map LoadProjection.serial := by
    cases s.projection <;> rfl
  have hgone : ∀ q, (s.projection.map fun p =>
      { p with frames := p.frames ++ frame.map (gen, ·) }) = some q → ∃ p, s.projection = some p ∧
        q = { p with frames := p.frames ++ frame.map (gen, ·) } := by
    intro q hq
    obtain ⟨p, hp, rfl⟩ := Option.map_eq_some_iff.mp hq
    exact ⟨p, hp, rfl⟩
  have hload : ∀ {g : ℕ} {b : Attachment α}, s.attachment g = some b →
      ∃ b', (s.setAttachment gen { a with folded := a.folded + 1 }).attachment g = some b' ∧
        b'.loadSeq = b.loadSeq := by
    intro g b hb
    refine ⟨_, attachment_update ha hb, ?_⟩
    split
    · next hgen =>
      obtain rfl : b = a := Option.some_inj.mp (hb.symm.trans (hgen ▸ ha))
      rfl
    · rfl
  rw [hconsume]
  constructor
  · exact hserials ▸ h.serials
  · exact hserials ▸ h.below
  · intro g b hb
    rcases attachment_cases ha hb with ⟨-, rfl⟩ | ⟨-, hb⟩
    · exact ⟨Nat.le_succ_of_le (Nat.le_of_eq hsettled), hnext, (h.bounds gen a ha).2.2⟩
    · exact h.bounds g b hb
  · intro hne
    obtain ⟨p, hp, hloaded⟩ := h.quiet hne
    exact ⟨_, Option.map_eq_some_iff.mpr ⟨p, hp, rfl⟩, hloaded⟩
  · intro hopened q hq
    obtain ⟨p, hp, rfl⟩ := hgone q hq
    exact h.opened hopened p hp
  · intro g hattached
    obtain ⟨hown, b, hb, hnone⟩ := h.attached g hattached
    obtain ⟨b', hb', hl⟩ := hload hb
    refine ⟨?_, b', hb', hl.trans hnone⟩
    intro q hq
    obtain ⟨p, hp, rfl⟩ := hgone q hq
    exact hown p hp
  · intro g n hreturned
    obtain ⟨hown, b, hb, hn⟩ := h.returned g n hreturned
    obtain ⟨b', hb', hl⟩ := hload hb
    refine ⟨?_, b', hb', hl.trans hn⟩
    intro q hq
    obtain ⟨p, hp, rfl⟩ := hgone q hq
    exact hown p hp
  · intro q hq
    obtain ⟨p, hp, rfl⟩ := hgone q hq
    have hproj := h.projected p hp
    constructor
    · intro hown
      by_cases hne : frame = []
      · simp [hne, hproj.unattached hown]
      · cases hown.symm.trans (hmine p hp hne).1
    · intro g hown
      obtain ⟨b, hb, hframes, hwithin⟩ := hproj.attached g hown
      refine ⟨_, attachment_update ha hb, ?_⟩
      split
      · next hgen =>
        obtain rfl : b = a := Option.some_inj.mp (hb.symm.trans (hgen ▸ ha))
        subst hgen
        refine ⟨?_, ?_⟩
        · change _ = (b.replayed (b.folded + 1)).map (g, ·)
          rw [hsucc, List.map_append, ← hframes]
        · intro n hn
          change b.replayed (b.folded + 1) = b.replayed (min (b.folded + 1) n)
          by_cases hlt : b.folded < n
          · rw [Nat.min_eq_left hlt]
          · by_cases hne : frame = []
            · rw [hsucc, hne, List.append_nil, hwithin n hn]
              congr 1
              omega
            · exact absurd ((hmine p hp hne).2 n hn) hlt
      · next hgen =>
        refine ⟨?_, hwithin⟩
        by_cases hne : frame = []
        · simpa [hne] using hframes
        · exact absurd (Option.some_inj.mp (hown.symm.trans (hmine p hp hne).1)) hgen
    · change p.drain.gen ≤ (s.setAttachment gen _).attachments.length
      rw [length_setAttachment]
      exact hproj.bound
    · intro hloaded
      obtain ⟨hown, b, hb, hn⟩ := hproj.loaded hloaded
      obtain ⟨b', hb', hl⟩ := hload hb
      exact ⟨hown, b', hb', hl.trans hn⟩
    · intro b hb hown
      rcases attachment_cases ha hb with ⟨hgen, rfl⟩ | ⟨-, hb⟩
      · exact hproj.observed a (hgen ▸ ha) hown
      · exact hproj.observed b hb hown
  · exact fun p hp => (h.delivered p hp).update h.bounds ha List.prefix_rfl fun n hn => hn

theorem stepAttachment (h : s.Sound) (ha : s.attachment gen = some a) {e : ReplayEvent α}
    (hkept : ∀ g, e = .consumed g → s.Kept (.consumed gen)) : (s.stepAttachment gen a e).Sound := by
  obtain ⟨hsettled, hfolded, -⟩ := h.bounds gen a ha
  cases e with
  | delivered _ frame =>
    simp only [Replays.stepAttachment]
    split
    · exact h
    · exact h.update ha ⟨List.prefix_append _ _, rfl, ⟨Nat.le_refl _, hsettled⟩, .inl rfl⟩ rfl
  | consumed g =>
    simp only [Replays.stepAttachment]
    split
    · next hnext => exact h.consume ha hnext.1 hnext.2 (hkept g rfl)
    · exact h
  | settles _ =>
    simp only [Replays.stepAttachment]
    split
    · have hnoted : Grown a { a with settled := a.folded } :=
        ⟨List.prefix_rfl, rfl, ⟨hsettled, Nat.le_refl _⟩, .inl rfl⟩
      apply (h.update ha hnoted rfl).settleReplayProjection (attachment_self ha) (Nat.le_refl _)
      intro hex
      cases hex
    · exact h
  | closes _ => exact h.update ha ⟨List.prefix_rfl, rfl, ⟨Nat.le_refl _, hsettled⟩, .inl rfl⟩ rfl
  | exits _ =>
    simp only [Replays.stepAttachment]
    split
    · next hdone =>
      have hgone : Grown a { a with exited := true } :=
        ⟨List.prefix_rfl, rfl, ⟨Nat.le_refl _, hsettled⟩, .inl rfl⟩
      apply (h.update ha hgone rfl).settleReplayProjection (attachment_self ha) (Nat.zero_le _)
      intro _
      change a.folded = a.delivered.length
      omega
    · exact h
  | _ => exact h

theorem step (h : s.Sound) {e : ReplayEvent α} (hkept : s.Kept e) : (s.step e).Sound := by
  cases e with
  | openReplayProjection =>
    simp only [Replays.step]
    split
    · exact h.openReplayProjection
    · exact h
  | attachForward => exact h.attachForward
  | loadReturns =>
    simp only [Replays.step]
    split
    · next gen hload =>
      split
      · next a ha => exact h.loadReturns hload ha
      · exact h
    · exact h
  | loadFails =>
    simp only [Replays.step]
    split
    · next gen hload =>
      refine ⟨h.serials, h.below, h.bounds, fun _ => h.quiet (by simp [hload]), ?_, ?_, ?_,
        fun p hp => (h.projected p hp).congr rfl, h.delivered⟩
      · intro hopened
        cases hopened
      · intro g hattached
        cases hattached
      · intro g n hreturned
        cases hreturned
    · exact h
  | markReplayLoadedAt =>
    simp only [Replays.step]
    split
    · next gen n hload => exact h.markReplayLoadedAt hload
    · exact h
  | discardReplayProjection =>
    simp only [Replays.step]
    split
    · exact h.discardReplayProjection
    · exact h
  | consumed gen =>
    simp only [Replays.step]
    split
    · next a ha => exact h.stepAttachment ha fun _ _ => hkept
    · exact h
  | delivered gen | settles gen | closes gen | exits gen =>
    simp only [Replays.step]
    split
    · next a ha => exact h.stepAttachment ha fun _ he => by cases he
    · exact h

end Sound

/-- In a run whose every folded replay frame is the open projection's own and from before its
load's response, or finds none open, each projection is adopted at most once, after its load's
response and with the replay frames of its attachment from before it, and none that was superseded
or discarded is. -/
theorem replays_adopted_whole (events : List (ReplayEvent α)) (hkept : Along step Kept {} events) :
    (runFrom step {} events).Whole :=
  (hkept.invariant sound_empty fun _ _ hs he => hs.step he).holds

/-- The second load opens its projection while the first attachment still holds a replay frame. -/
def straggler : List (ReplayEvent String) :=
  [.openReplayProjection, .attachForward, .delivered 1 (some "first"), .loadReturns,
    .markReplayLoadedAt, .openReplayProjection, .consumed 1, .attachForward,
    .delivered 2 (some "second"), .loadReturns, .consumed 2, .settles 2, .markReplayLoadedAt]

/-- A run of the condition: a replay of two frames, around one that is no replay. -/
theorem replays_adopted_whole_of_load :
    (runFrom step {} [.openReplayProjection, .attachForward, .delivered 1 (some "a"),
      .delivered 1 none, .consumed 1, .delivered 1 (some "b"), .loadReturns, .settles 1, .consumed 1,
      .settles 1, .markReplayLoadedAt, .consumed 1, .settles 1] : Replays String).Whole :=
  replays_adopted_whole _ (by
    refine ⟨trivial, trivial, trivial, trivial, ?_, trivial, trivial, trivial, ?_, trivial,
      trivial, ?_, trivial, trivial⟩
    · rintro a update p ⟨⟩ ⟨⟩ ⟨⟩
      exact ⟨rfl, by rintro n ⟨⟩⟩
    · rintro a update p ⟨⟩ ⟨⟩
    · rintro a update p ⟨⟩ ⟨⟩ ⟨⟩
      exact ⟨rfl, by rintro n ⟨⟩; decide⟩)

/-- The first attachment's frame is adopted with the second load's. -/
theorem straggler_adopts_both :
    (runFrom step {} straggler).adopted.map LoadProjection.frames =
        [[(1, "first"), (2, "second")]] ∧ ¬ (runFrom step {} straggler).Whole := by
  have hframes : (runFrom step {} straggler).adopted.map LoadProjection.frames =
      [[(1, "first"), (2, "second")]] := by decide +kernel
  refine ⟨hframes, ?_⟩
  intro hwhole
  obtain ⟨p, hp, heq⟩ := List.mem_map.mp (hframes ▸ List.mem_singleton_self _ :
    [(1, "first"), (2, "second")] ∈ (runFrom step {} straggler).adopted.map LoadProjection.frames)
  obtain ⟨gen, a, n, -, -, -, hsame⟩ := hwhole.whole p hp
  rw [heq] at hsame
  have hgen : ∀ f ∈ [(1, "first"), (2, "second")], f.1 = gen := by
    rw [hsame]
    intro f hf
    obtain ⟨_, -, rfl⟩ := List.mem_map.mp hf
    rfl
  have hone := hgen (1, "first") (by simp)
  have htwo := hgen (2, "second") (by simp)
  exact absurd (hone.trans htwo.symm) (by decide)

end Replays
end Marotte.Resume
