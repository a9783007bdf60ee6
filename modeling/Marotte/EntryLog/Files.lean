import Marotte.EntryLog.Rewrite

/-! # The files of a log root

A log file is what opens and operations leave, cut anywhere. Every one of them is a prefix
of a file of complete lines whose turns open once and count from zero.
-/
namespace Marotte

open History

/-- One operation on an open log, its removal and a rewrite included. -/
inductive LogStep where
  | call (op : LogOp)
  | remove
  | rewrite (w : RewriteWorld) (entries : List Entry)

namespace EntryLog

def step (c : LineCodec) (l : EntryLog) : LogStep → EntryLog
  | .call op => l.perform c op
  | .remove => l.remove
  | .rewrite w entries => (l.rewrite c w entries).1

def steps (c : LineCodec) (l : EntryLog) (ss : List LogStep) : EntryLog := ss.foldl (step c) l

/-- A turn_open comes from the log alone, under an id it does not hold; a rewrite is handed
at most one a turn, and cuts the tail its rescan drops. -/
def OpensOnce (l : EntryLog) : LogStep → Prop
  | .call op => l.OpensOnlyNew op
  | .remove => True
  | .rewrite w entries => w.truncates = true ∧ (opened entries).Nodup

def StepsOpenOnce (c : LineCodec) (l : EntryLog) : List LogStep → Prop
  | [] => True
  | s :: ss => l.OpensOnce s ∧ (l.step c s).StepsOpenOnce c ss

end EntryLog

/-- The files a log root can hold: opens and operations write them, and a crash cuts them. -/
inductive LogFile (c : LineCodec) : List UInt8 → Prop
  | absent : LogFile c []
  | cut {file : List UInt8} (h : LogFile c file) (k : ℕ) : LogFile c (file.take k)
  | refused {file : List UInt8} (h : LogFile c file) (w : OpenWorld) (header : LogHeader)
      (cap : ℕ) : LogFile c (openEntryLog c w file header cap).1.file
  | served {file : List UInt8} (h : LogFile c file) (w : OpenWorld) (header : LogHeader)
      (cap : ℕ) (hopen : (openEntryLog c w file header cap).2 = .ok ()) (ss : List LogStep)
      (hss : (openEntryLog c w file header cap).1.StepsOpenOnce c ss) :
      LogFile c ((openEntryLog c w file header cap).1.steps c ss).file

namespace EntryLog

variable {c : LineCodec}

theorem Sound.step {l : EntryLog} {s : LogStep} (h : Sound c l) (hs : l.OpensOnce s) :
    Sound c (l.step c s) := by
  cases s with
  | call op => exact h.grows (grows_perform hs)
  | remove =>
    obtain ⟨⟨b, r, hb⟩, hwf, hfile⟩ := h
    exact ⟨⟨b, r, hb.intact, hb.index_eq, hb.whole⟩, hwf, hfile⟩
  | rewrite w entries => exact h.rewrite hs.1 hs.2

theorem Sound.steps {l : EntryLog} {ss : List LogStep} (h : Sound c l)
    (hss : l.StepsOpenOnce c ss) : Sound c (l.steps c ss) := by
  induction ss generalizing l with
  | nil => exact h
  | cons s ss ih => exact ih (h.step hss.1) hss.2

/-! ## The appends of an open -/

theorem grows_appendAll {l : EntryLog} {es : List Entry} (hes : ∀ e ∈ es, e.kind ≠ .turnOpen)
    (ticks : ℕ → Tick) : Grows c l (l.appendAll c ticks es).1 := by
  induction es generalizing l ticks with
  | nil => exact Grows.refl l
  | cons e es ih =>
    have hone : Grows c l (l.append c (ticks 0) e).1 :=
      Grows.append_one (opensNew_of_ne (hes e (by simp))) _
    unfold appendAll
    rcases heq : l.append c (ticks 0) e with ⟨l', err | stamped⟩
    · rw [heq] at hone
      exact hone
    · rw [heq] at hone
      exact hone.trans (ih (fun e he => hes e (List.mem_cons_of_mem _ he)) _)

theorem grows_synthesizeClose (l : EntryLog) (ticks : ℕ → Tick) (turn model : String) :
    Grows c l (l.synthesizeClose c ticks turn model).1 := by
  unfold synthesizeClose
  simp only
  generalize ((l.index.turns turn).map TurnState.unsettled).getD [] = calls
  have hres : Grows c l (l.appendAll c ticks (calls.map (abortedResult turn))).1 := by
    apply grows_appendAll
    intro e he
    obtain ⟨call, -, rfl⟩ := List.mem_map.mp he
    simp
  rcases heq : l.appendAll c ticks (calls.map (abortedResult turn)) with ⟨l₁, err | ⟨⟩⟩
  · rw [heq] at hres
    exact hres
  · rw [heq] at hres
    simp only
    generalize ((l₁.index.turns turn).map (fun st => st.lastTs - st.openTs)).getD 0 = elapsed
    have hclose := hres.append (ticks calls.length) (unterminatedClose turn model elapsed)
      (opensNew_of_ne (by simp))
    rcases hceq : l₁.append c (ticks calls.length) (unterminatedClose turn model elapsed) with
      ⟨l₂, err | stamped⟩ <;> rwa [hceq] at hclose

theorem grows_closeUnterminated (l : EntryLog) (ticks : ℕ → ℕ → Tick) (model : String)
    (turns : List String) : Grows c l (l.closeUnterminated c ticks model turns).1 := by
  induction turns generalizing l ticks with
  | nil => exact Grows.refl l
  | cons turn turns ih =>
    have hone := grows_synthesizeClose (c := c) l (ticks 0) turn model
    unfold closeUnterminated
    rcases heq : l.synthesizeClose c (ticks 0) turn model with ⟨l', err | ⟨⟩⟩
    · rw [heq] at hone
      exact hone
    · rw [heq] at hone
      exact hone.trans (ih l' _)

theorem grows_writeCounters (l : EntryLog) (caches : Bool) :
    Grows c l (l.writeCounters caches).1 := by
  unfold writeCounters
  split
  · exact Grows.refl l
  · exact (Grows.refl l).cache _

theorem sound_scanned {file : List UInt8} (h : SoundFile c file) (header : LogHeader) (cap : ℕ) :
    Sound c (scanned c file header cap) := by
  have hs := coherentUnder_scanned c file header cap
  obtain ⟨-, hentries, -, hwf⟩ := h.scan
  rw [← rescan_size] at hentries
  rw [← hentries] at hwf
  have hrec : (scanned c file header cap).recorded c =
      c.entriesOf (file.take (c.rescan file).size) := hs.recorded_of_running rfl
  exact ⟨⟨_, _, hs⟩, hrec ▸ hwf, _, _, hs.intact_of_running rfl, hwf, List.prefix_refl _⟩

/-- An open either leaves the file whole, a tail it could not cut still on it, or goes on from
the scan. -/
theorem openEntryLog_cases (w : OpenWorld) (file : List UInt8) (header : LogHeader) (cap : ℕ) :
    (openEntryLog c w file header cap).1.file = file ∨
      Grows c (scanned c file header cap) (openEntryLog c w file header cap).1 := by
  unfold openEntryLog
  simp only
  split
  · exact .inl rfl
  · have hclose := grows_closeUnterminated (c := c) (scanned c file header cap) w.ticks
      (scanned c file header cap).header.closerModel (scanned c file header cap).index.openTurns
    split
    · rename_i l err heq
      rw [heq] at hclose
      exact .inr hclose
    · rename_i l heq
      rw [heq] at hclose
      split
      · exact .inr hclose
      · exact .inr (hclose.trans (grows_writeCounters l w.caches))

/-- An open that serves a log goes on from the scan. -/
theorem grows_openEntryLog {w : OpenWorld} {file : List UInt8} {header : LogHeader} {cap : ℕ}
    {l : EntryLog} (h : openEntryLog c w file header cap = (l, .ok ())) :
    Grows c (scanned c file header cap) l := by
  have hclose := grows_closeUnterminated (c := c) (scanned c file header cap) w.ticks
    header.closerModel (scanned c file header cap).index.openTurns
  obtain ⟨l₁, heq, ⟨-, rfl⟩ | hcache⟩ := openEntryLog_eq_ok h
  · rwa [heq] at hclose
  · rw [heq] at hclose
    have hwrite := hclose.trans (grows_writeCounters l₁ w.caches)
    rwa [hcache] at hwrite

end EntryLog

/-- Every file of a log root is a prefix of one that operations could have left whole. -/
theorem LogFile.sound {c : LineCodec} {file : List UInt8} (h : LogFile c file) : SoundFile c file := by
  induction h with
  | absent => exact soundFile_nil
  | cut _ k ih => exact ih.of_initial (List.take_prefix k _)
  | @refused file _ w header cap ih =>
    rcases EntryLog.openEntryLog_cases (c := c) w file header cap with heq | hg
    · rwa [heq]
    · exact ((EntryLog.sound_scanned ih header cap).grows hg).file
  | @served file _ w header cap hopen ss hss ih =>
    rcases heq : openEntryLog c w file header cap with ⟨l, res⟩
    rw [heq] at hopen hss
    cases hopen
    exact (((EntryLog.sound_scanned ih header cap).grows (EntryLog.grows_openEntryLog heq)).steps hss).file

end Marotte
