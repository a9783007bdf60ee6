import Mathlib.Data.List.Induction
import Marotte.Transcript.Admitted

/-! # What the frames say

A frame tells of an entry of the log, or of an open entry as some lane had it. Where no say is
opened under an id that its turn has already, the id and the count of an open entry give its text.
-/
namespace Marotte.Transcript

variable {as bs : List Action} {a : Action} {e : Entry} {o t : OpenEntry} {f : Frame}

def Payload.isSay : Payload → Bool
  | .say .. => true
  | _ => false

/-- The open entry that some lane had at some time. -/
def Spoken (as : List Action) (o : OpenEntry) : Prop := ∃ bs, bs <+: as ∧ o ∈ (Log.after bs).tails

theorem Spoken.mono (h : Spoken as o) : Spoken (as ++ bs) o := by
  obtain ⟨pre, hpre, ho⟩ := h
  exact ⟨pre, hpre.trans (List.prefix_append as bs), ho⟩

theorem spoken_of_mem (h : o ∈ (Log.after as).tails) : Spoken as o := ⟨as, List.prefix_rfl, h⟩

theorem spoken_concat (h : Spoken (as ++ [a]) o) :
    Spoken as o ∨ o ∈ (Log.after (as ++ [a])).tails := by
  obtain ⟨pre, hpre, ho⟩ := h
  rcases List.prefix_concat_iff.mp hpre with rfl | hpre
  · exact .inr ho
  · exact .inl ⟨pre, hpre, ho⟩

namespace Log

variable {l : Log}

/-- An id that is new to the says of its turn, and for an open entry new to its turn. -/
def Names (l : Log) : Action → Prop
  | .announced (.entryOpened o) =>
    (∀ e ∈ l.own o.turn, e.id ≠ o.id) ∧ ∀ t ∈ l.tails, t.turn = o.turn → t.id ≠ o.id
  | .announced (.entryAppended e) | .silent e =>
    (∀ e' ∈ l.own e.turn, e'.payload.isSay = true → e'.id ≠ e.id) ∧
      ∀ t ∈ l.tails, t.turn = e.turn → t.id ≠ e.id
  | _ => True

instance (l : Log) (a : Action) : Decidable (l.Names a) :=
  match a with
  | .announced (.entryOpened o) => inferInstanceAs (Decidable
      ((∀ e ∈ l.own o.turn, e.id ≠ o.id) ∧ ∀ t ∈ l.tails, t.turn = o.turn → t.id ≠ o.id))
  | .announced (.entryAppended e) | .silent e => inferInstanceAs (Decidable
      ((∀ e' ∈ l.own e.turn, e'.payload.isSay = true → e'.id ≠ e.id) ∧
        ∀ t ∈ l.tails, t.turn = e.turn → t.id ≠ e.id))
  | .announced (.turnOpened _) | .announced (.entryDelta ..) | .announced (.entrySealed ..) =>
    isTrue trivial

end Log

/-- A say that some lane had open is open still, with at least its deltas, or is sealed. -/
def Standing (l : Log) (o : OpenEntry) : Prop :=
  (∃ t ∈ l.tails, t.turn = o.turn ∧ t.id = o.id ∧ t.lane = o.lane ∧ o.n ≤ t.n) ∨
    ∃ e ∈ l.own o.turn, e.id = o.id ∧ e.payload.isSay = true

/-- What a frame tells of. -/
def Told (as : List Action) : Frame → Prop
  | .turnOpened e => ((Log.after as).own e.turn)[0]? = some e
  | .entryOpened o => Spoken as o
  | .entryDelta turn id lane n delta => ∃ o, Spoken as o ∧ o.turn = turn ∧ o.id = id ∧
      o.lane = lane ∧ n = o.n + 1 ∧ Spoken as { o with text := o.text ++ delta, n }
  | .entrySealed turn id lane seq ts n => ∃ o, Spoken as o ∧ o.turn = turn ∧ o.id = id ∧
      o.lane = lane ∧ n = o.n ∧ ((Log.after as).own turn)[seq]? = some (o.sealed seq ts)
  | .entryAppended e => ((Log.after as).own e.turn)[e.seq]? = some e

theorem Told.mono (h : Told as f) : Told (as ++ bs) f := by
  have hown : ∀ {turn : String} {i : ℕ} {e : Entry}, ((Log.after as).own turn)[i]? = some e →
      ((Log.after (as ++ bs)).own turn)[i]? = some e :=
    fun he => Log.getElem?_of_prefix (Log.own_after as bs _) he
  cases f with
  | turnOpened e => exact hown h
  | entryOpened o => exact h.mono
  | entryDelta turn id lane n delta =>
    obtain ⟨o, ho, ht, hi, hl, hn, hnext⟩ := h
    exact ⟨o, ho.mono, ht, hi, hl, hn, hnext.mono⟩
  | entrySealed turn id lane seq ts n =>
    obtain ⟨o, ho, ht, hi, hl, hn, he⟩ := h
    exact ⟨o, ho.mono, ht, hi, hl, hn, hown he⟩
  | entryAppended e => exact hown h

/-- What the actions so far have in common, where no say takes an id that its turn has. -/
structure History (as : List Action) : Prop where
  sound : (Log.after as).Sound
  standing : ∀ o, Spoken as o → Standing (Log.after as) o
  same : ∀ o o', Spoken as o → Spoken as o' → o.turn = o'.turn → o.id = o'.id →
    o.lane = o'.lane ∧ o.kind = o'.kind ∧ (o.n = o'.n → o.text = o'.text)
  unsealed : ∀ t ∈ (Log.after as).tails, ∀ e ∈ (Log.after as).own t.turn, e.id ≠ t.id
  appended : ∀ e, .announced (.entryAppended e) ∈ as → ∀ o, Spoken as o → o.turn = e.turn →
    o.id ≠ e.id
  told : ∀ f, .announced f ∈ as → Told as f

namespace History

theorem empty : History [] where
  sound := Log.sound_empty
  standing := by
    rintro o ⟨pre, hpre, ho⟩
    rw [List.prefix_nil.mp hpre] at ho
    cases ho
  same := by
    rintro o o' ⟨pre, hpre, ho⟩
    rw [List.prefix_nil.mp hpre] at ho
    cases ho
  unsealed := nofun
  appended := nofun
  told := nofun

/-- Two open entries of one lane are one. -/
theorem tail_eq (h : History as) {t t' : OpenEntry} (ht : t ∈ (Log.after as).tails)
    (ht' : t' ∈ (Log.after as).tails) (hp : t.place = t'.place) : t = t' :=
  List.inj_on_of_nodup_map h.sound.places ht ht' hp

/-- An entry placed at the end, over lanes that stay as they are. -/
theorem placed (h : History as) (hact : (Log.after as).act a = (Log.after as).place e)
    (hsound : (Log.after (as ++ [a])).Sound)
    (hid : ∀ t ∈ (Log.after as).tails, t.turn = e.turn → t.id ≠ e.id)
    (hnew : ∀ e', a = .announced (.entryAppended e') → e' = e ∧
      ∀ e'' ∈ (Log.after as).own e.turn, e''.payload.isSay = true → e''.id ≠ e.id)
    (htold : ∀ f, a = .announced f → Told (as ++ [a]) f) : History (as ++ [a]) := by
  have htails : (Log.after (as ++ [a])).tails = (Log.after as).tails := by
    rw [after_concat, hact]
    rfl
  have hown : ∀ turn, (Log.after (as ++ [a])).own turn =
      (Log.after as).own turn ++ if e.turn = turn then [e] else [] := by
    intro turn
    rw [after_concat, hact, Log.own_place]
  have hspoken : ∀ o, Spoken (as ++ [a]) o → Spoken as o := by
    intro o ho
    rcases spoken_concat ho with ho | ho
    · exact ho
    · rw [htails] at ho
      exact spoken_of_mem ho
  constructor
  · exact hsound
  · intro o ho
    rcases h.standing o (hspoken o ho) with ⟨t, ht, hs⟩ | ⟨e', he', hs⟩
    · exact .inl ⟨t, htails ▸ ht, hs⟩
    · refine .inr ⟨e', ?_, hs⟩
      rw [hown]
      exact List.mem_append_left _ he'
  · exact fun o o' ho ho' => h.same o o' (hspoken o ho) (hspoken o' ho')
  · intro t ht e' he'
    rw [htails] at ht
    rw [hown] at he'
    rcases List.mem_append.mp he' with he' | he'
    · exact h.unsealed t ht e' he'
    · split at he'
      · next hturn =>
        rw [List.mem_singleton.mp he']
        exact (hid t ht hturn.symm).symm
      · cases he'
  · intro e' he' o ho hturn
    have ho' := hspoken o ho
    rcases List.mem_append.mp he' with he' | he'
    · exact h.appended e' he' o ho' hturn
    · obtain ⟨rfl, hsay⟩ := hnew e' (List.mem_singleton.mp he').symm
      rcases h.standing o ho' with ⟨t, ht, htt, hti, _⟩ | ⟨e'', he'', hi, hs⟩
      · exact hti ▸ hid t ht (htt.trans hturn)
      · rw [hturn] at he''
        exact hi ▸ hsay e'' he'' hs
  · intro f hf
    rcases List.mem_append.mp hf with hf | hf
    · exact (h.told f hf).mono
    · exact htold f (List.mem_singleton.mp hf).symm

theorem getElem?_own_place (l : Log) (e : Entry) (h : e.seq = (l.own e.turn).length) :
    ((l.place e).own e.turn)[e.seq]? = some e := by
  rw [Log.own_place, if_pos rfl, h, List.getElem?_concat_length]

/-- An open entry under an id that is new to its turn. -/
theorem opened (h : History as) (ha : (Log.after as).Admits (.announced (.entryOpened o)))
    (hn : (Log.after as).Names (.announced (.entryOpened o))) :
    History (as ++ [.announced (.entryOpened o)]) := by
  have hact : Log.after (as ++ [.announced (.entryOpened o)]) = (Log.after as).setTail o :=
    after_concat as _
  have hnone : ∀ t ∈ (Log.after as).tails, t.place ≠ o.place := by
    intro t ht hp
    apply Keyed.find_eq_none.mp ha.2.2
    change o.place ∈ _
    rw [← hp]
    exact List.mem_map_of_mem ht
  have hkept : ∀ t ∈ (Log.after as).tails, t ∈ ((Log.after as).setTail o).tails :=
    fun t ht => Keyed.mem_set_of_ne ht (hnone t ht)
  have hself : o ∈ ((Log.after as).setTail o).tails := Keyed.self_mem_set
  have hspoken : ∀ o', Spoken (as ++ [.announced (.entryOpened o)]) o' → Spoken as o' ∨ o' = o := by
    intro o' ho'
    rcases spoken_concat ho' with ho' | ho'
    · exact .inl ho'
    · rw [hact] at ho'
      rcases Keyed.mem_set ho' with rfl | ⟨hm, _⟩
      · exact .inr rfl
      · exact .inl (spoken_of_mem hm)
  have hfresh : ∀ o', Spoken as o' → o'.turn = o.turn → o'.id ≠ o.id := by
    intro o' ho' hturn hid
    rcases h.standing o' ho' with ⟨t, ht, htt, hti, _⟩ | ⟨e, he, hi, _⟩
    · exact hn.2 t ht (htt.trans hturn) (hti.trans hid)
    · rw [hturn] at he
      exact hn.1 e he (hi.trans hid)
  constructor
  · rw [after_concat]
    exact h.sound.act ha
  · intro o' ho'
    rw [hact]
    rcases hspoken o' ho' with ho' | rfl
    · rcases h.standing o' ho' with ⟨t, ht, hs⟩ | hs
      · exact .inl ⟨t, hkept t ht, hs⟩
      · exact .inr hs
    · exact .inl ⟨o', hself, rfl, rfl, rfl, Nat.le_refl _⟩
  · intro o₁ o₂ hs₁ hs₂ hturn hid
    rcases hspoken o₁ hs₁ with h₁ | h₁
    · rcases hspoken o₂ hs₂ with h₂ | h₂
      · exact h.same o₁ o₂ h₁ h₂ hturn hid
      · rw [h₂] at hturn hid
        exact absurd hid (hfresh o₁ h₁ hturn)
    · rcases hspoken o₂ hs₂ with h₂ | h₂
      · rw [h₁] at hturn hid
        exact absurd hid.symm (hfresh o₂ h₂ hturn.symm)
      · rw [h₁, h₂]
        exact ⟨rfl, rfl, fun _ => rfl⟩
  · intro t ht e he
    rw [hact] at ht he
    rcases Keyed.mem_set ht with rfl | ⟨hm, _⟩
    · exact hn.1 e he
    · exact h.unsealed t hm e he
  · intro e hmem o' hs' hturn
    have he : .announced (.entryAppended e) ∈ as := by simpa using hmem
    rcases hspoken o' hs' with ho' | ho'
    · exact h.appended e he o' ho' hturn
    · have htold : ((Log.after as).own e.turn)[e.seq]? = some e := h.told _ he
      have hown := List.mem_of_getElem? htold
      rw [ho'] at hturn ⊢
      rw [← hturn] at hown
      exact (hn.1 e hown).symm
  · intro f hf
    rcases List.mem_append.mp hf with hf | hf
    · exact (h.told f hf).mono
    · obtain rfl := Action.announced.inj (List.mem_singleton.mp hf)
      apply spoken_of_mem
      rw [hact]
      exact hself

/-- A delta on a lane's open entry. -/
theorem extended (h : History as) {delta : String} (ho : o ∈ (Log.after as).tails) :
    History (as ++ [.announced (.entryDelta o.turn o.id o.lane (o.n + 1) delta)]) := by
  have htail : (Log.after as).tail o.turn o.lane = some o := Keyed.find_of_mem h.sound.places ho
  generalize hnext : ({ o with text := o.text ++ delta, n := o.n + 1 } : OpenEntry) = o₂
  have hact : Log.after (as ++ [.announced (.entryDelta o.turn o.id o.lane (o.n + 1) delta)]) =
      (Log.after as).setTail o₂ := by
    rw [after_concat, ← hnext]
    simp only [Log.act, Log.announce, htail]
  have hplace : o₂.place = o.place ∧ o₂.turn = o.turn ∧ o₂.id = o.id ∧ o₂.lane = o.lane ∧
      o₂.kind = o.kind ∧ o₂.n = o.n + 1 := by
    rw [← hnext]
    exact ⟨rfl, rfl, rfl, rfl, rfl, rfl⟩
  obtain ⟨hp, hturn₂, hid₂, hlane₂, hkind₂, hn₂⟩ := hplace
  have hself : o₂ ∈ ((Log.after as).setTail o₂).tails := Keyed.self_mem_set
  have hspoken : ∀ o', Spoken (as ++ [.announced (.entryDelta o.turn o.id o.lane (o.n + 1) delta)])
      o' → Spoken as o' ∨ o' = o₂ := by
    intro o' ho'
    rcases spoken_concat ho' with ho' | ho'
    · exact .inl ho'
    · rw [hact] at ho'
      rcases Keyed.mem_set ho' with rfl | ⟨hm, _⟩
      · exact .inr rfl
      · exact .inl (spoken_of_mem hm)
  have hso := spoken_of_mem ho
  -- an entry of the same say has at most the deltas that the lane has
  have hle : ∀ o', Spoken as o' → o'.turn = o.turn → o'.id = o.id → o'.n ≤ o.n := by
    intro o' ho' hturn hid
    have hlane := (h.same o' o ho' hso hturn hid).1
    rcases h.standing o' ho' with ⟨t, ht, htt, _, htl, hle⟩ | ⟨e, he, hi, _⟩
    · have hteq : t = o := by
        apply h.tail_eq ht ho
        rw [OpenEntry.place, OpenEntry.place, htt, htl, hturn, hlane]
      exact hteq ▸ hle
    · rw [hturn] at he
      exact absurd (hi.trans hid) (h.unsealed o ho e he)
  have hsame : ∀ o', Spoken as o' → o'.turn = o₂.turn → o'.id = o₂.id →
      o'.lane = o₂.lane ∧ o'.kind = o₂.kind ∧ o'.n ≠ o₂.n := by
    intro o' ho' hturn hid
    rw [hturn₂] at hturn
    rw [hid₂] at hid
    obtain ⟨hlane, hkind, _⟩ := h.same o' o ho' hso hturn hid
    have hbound := hle o' ho' hturn hid
    exact ⟨hlane.trans hlane₂.symm, hkind.trans hkind₂.symm, by omega⟩
  constructor
  · rw [hact]
    apply h.sound.setTail
    rw [hturn₂]
    exact h.sound.tailed o ho
  · intro o' ho'
    rw [hact]
    rcases hspoken o' ho' with ho' | rfl
    · rcases h.standing o' ho' with ⟨t, ht, htt, hti, htl, hle'⟩ | hs
      · left
        by_cases hpt : t.place = o.place
        · obtain rfl := h.tail_eq ht ho hpt
          exact ⟨o₂, hself, hturn₂.trans htt, hid₂.trans hti, hlane₂.trans htl, by omega⟩
        · exact ⟨t, Keyed.mem_set_of_ne ht (hp ▸ hpt), htt, hti, htl, hle'⟩
      · exact .inr hs
    · exact .inl ⟨o', hself, rfl, rfl, rfl, Nat.le_refl _⟩
  · intro o' o'' ho' ho'' hturn hid
    rcases hspoken o' ho' with ho' | rfl
    · rcases hspoken o'' ho'' with ho'' | rfl
      · exact h.same o' o'' ho' ho'' hturn hid
      · obtain ⟨hl, hk, hne⟩ := hsame o' ho' hturn hid
        exact ⟨hl, hk, fun hn => absurd hn hne⟩
    · rcases hspoken o'' ho'' with ho'' | rfl
      · obtain ⟨hl, hk, hne⟩ := hsame o'' ho'' hturn.symm hid.symm
        exact ⟨hl.symm, hk.symm, fun hn => absurd hn.symm hne⟩
      · exact ⟨rfl, rfl, fun _ => rfl⟩
  · intro t ht e he
    rw [hact] at ht he
    rcases Keyed.mem_set ht with rfl | ⟨hm, _⟩
    · rw [hid₂]
      apply h.unsealed o ho e
      rw [← hturn₂]
      exact he
    · exact h.unsealed t hm e he
  · intro e he o' ho' hturn
    have he : .announced (.entryAppended e) ∈ as := by simpa using he
    rcases hspoken o' ho' with ho' | rfl
    · exact h.appended e he o' ho' hturn
    · rw [hid₂]
      exact h.appended e he o hso (hturn₂.symm.trans hturn)
  · intro f hf
    rcases List.mem_append.mp hf with hf | hf
    · exact (h.told f hf).mono
    · obtain rfl := Action.announced.inj (List.mem_singleton.mp hf)
      refine ⟨o, hso.mono, rfl, rfl, rfl, rfl, ?_⟩
      apply spoken_of_mem
      rw [hact, hnext]
      exact hself

/-- A lane's open entry sealed. -/
theorem closed (h : History as) {ts : ℤ} (ho : o ∈ (Log.after as).tails) :
    History (as ++ [.announced (.entrySealed o.turn o.id o.lane
      ((Log.after as).own o.turn).length ts o.n)]) := by
  have htail : (Log.after as).tail o.turn o.lane = some o := Keyed.find_of_mem h.sound.places ho
  generalize ha : Action.announced (.entrySealed o.turn o.id o.lane
    ((Log.after as).own o.turn).length ts o.n) = a
  generalize he : o.sealed ((Log.after as).own o.turn).length ts = e
  have hact : Log.after (as ++ [a]) = ((Log.after as).place e).eraseTail o.turn o.lane := by
    rw [after_concat, ← ha, ← he]
    simp only [Log.act, Log.announce, htail]
  have hid : e.id = o.id := he ▸ rfl
  have hsay : e.payload.isSay = true := he ▸ rfl
  have hturn : e.turn = o.turn := he ▸ rfl
  have hseq : e.seq = ((Log.after as).own o.turn).length := he ▸ rfl
  have hown : ∀ turn, (Log.after (as ++ [a])).own turn =
      (Log.after as).own turn ++ if o.turn = turn then [e] else [] := by
    intro turn
    rw [hact, Log.own_eraseTail, Log.own_place, hturn]
  have hself : e ∈ (Log.after (as ++ [a])).own o.turn := by
    rw [hown, if_pos rfl]
    exact List.mem_append_right _ (List.mem_singleton_self e)
  have htails : ∀ t, t ∈ (Log.after (as ++ [a])).tails ↔
      t ∈ (Log.after as).tails ∧ t.place ≠ o.place := by
    intro t
    rw [hact]
    exact Keyed.mem_erase
  have hspoken : ∀ o', Spoken (as ++ [a]) o' → Spoken as o' := by
    intro o' ho'
    rcases spoken_concat ho' with ho' | ho'
    · exact ho'
    · exact spoken_of_mem ((htails o').mp ho').1
  have hadmits : (Log.after as).Admits a := ha ▸ ⟨o, htail, rfl, rfl, rfl⟩
  have hnot : ∀ f, a = .announced f → f = .entrySealed o.turn o.id o.lane
      ((Log.after as).own o.turn).length ts o.n := by
    rintro f rfl
    exact (Action.announced.inj ha).symm
  constructor
  · rw [after_concat]
    exact h.sound.act hadmits
  · intro o' ho'
    rcases h.standing o' (hspoken o' ho') with ⟨t, ht, htt, hti, htl, hle⟩ | ⟨e', he', hs⟩
    · by_cases hp : t.place = o.place
      · obtain rfl := h.tail_eq ht ho hp
        exact .inr ⟨e, htt ▸ hself, hid.trans hti, hsay⟩
      · exact .inl ⟨t, (htails t).mpr ⟨ht, hp⟩, htt, hti, htl, hle⟩
    · refine .inr ⟨e', ?_, hs⟩
      rw [hown]
      exact List.mem_append_left _ he'
  · exact fun o' o'' ho' ho'' => h.same o' o'' (hspoken o' ho') (hspoken o'' ho'')
  · intro t ht e' he'
    obtain ⟨ht, hp⟩ := (htails t).mp ht
    rw [hown] at he'
    rcases List.mem_append.mp he' with he' | he'
    · exact h.unsealed t ht e' he'
    · split at he'
      · next heq =>
        rw [List.mem_singleton.mp he', hid]
        intro hids
        -- two lanes of a turn have different says open
        have hlane := (h.same o t (spoken_of_mem ho) (spoken_of_mem ht) heq hids).1
        apply hp
        rw [OpenEntry.place, OpenEntry.place, heq, hlane]
      · cases he'
  · intro e' hmem o' ho'
    rcases List.mem_append.mp hmem with hmem | hmem
    · exact h.appended e' hmem o' (hspoken o' ho')
    · have hframe := hnot _ (List.mem_singleton.mp hmem).symm
      cases hframe
  · intro f hf
    rcases List.mem_append.mp hf with hf | hf
    · exact (h.told f hf).mono
    · rw [hnot f (List.mem_singleton.mp hf).symm]
      refine ⟨o, (spoken_of_mem ho).mono, rfl, rfl, rfl, rfl, ?_⟩
      rw [hown, if_pos rfl, List.getElem?_concat_length, he]

/-- Whatever an operation does, where it names no say by an id that its turn has. -/
theorem concat (h : History as) (ha : (Log.after as).Admits a) (hn : (Log.after as).Names a) :
    History (as ++ [a]) := by
  have hsound : (Log.after (as ++ [a])).Sound := by
    rw [after_concat]
    exact h.sound.act ha
  cases a with
  | silent e => exact h.placed rfl hsound (fun t ht hturn => hn.2 t ht hturn) nofun nofun
  | announced f =>
    cases f with
    | turnOpened e =>
      have hnil := h.sound.own_eq_nil.mpr ha.1
      apply h.placed rfl hsound
      · intro t ht hturn
        exact absurd (hturn ▸ h.sound.tailed t ht) ha.1
      · nofun
      · intro f hf
        obtain rfl := Action.announced.inj hf
        change ((Log.after (as ++ [_])).own e.turn)[0]? = some e
        rw [after_concat]
        simp [Log.act, Log.announce, hnil]
    | entryAppended e =>
      apply h.placed rfl hsound hn.2
      · intro e' he'
        obtain rfl := Frame.entryAppended.inj (Action.announced.inj he')
        exact ⟨rfl, hn.1⟩
      · intro f hf
        obtain rfl := Action.announced.inj hf
        change ((Log.after (as ++ [_])).own e.turn)[e.seq]? = some e
        rw [after_concat]
        exact getElem?_own_place _ e ha.2.1
    | entryOpened o => exact h.opened ha hn
    | entryDelta turn id lane n delta =>
      obtain ⟨o, ho, rfl, rfl⟩ := ha
      obtain ⟨rfl, rfl⟩ := Log.place_of_tail ho
      exact h.extended (Log.mem_of_tail ho)
    | entrySealed turn id lane seq ts n =>
      obtain ⟨o, ho, rfl, rfl, rfl⟩ := ha
      obtain ⟨rfl, rfl⟩ := Log.place_of_tail ho
      exact h.closed (Log.mem_of_tail ho)

theorem concatAll (h : History as) (ha : (Log.after as).Through Log.Admits bs)
    (hn : (Log.after as).Through Log.Names bs) : History (as ++ bs) := by
  induction bs generalizing as with
  | nil => exact (List.append_nil as).symm ▸ h
  | cons b bs ih =>
    rw [List.append_cons]
    apply ih (h.concat ha.1 hn.1)
    · rw [after_concat]
      exact ha.2
    · rw [after_concat]
      exact hn.2

end History
end Marotte.Transcript
