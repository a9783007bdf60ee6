import Marotte.EntryLog.Resolve
import Marotte.Library.Lines
import Marotte.Library.Replay

/-! # Scanning a log file

One sequential pass decodes the complete lines until the first it cannot use, and the
file is cut there. What the pass reads is the index of an intact file.
-/
namespace Marotte

/-- The bound on one entry's line, its newline included. -/
def maxEntryLineBytes : ℕ := 16 * 2 ^ 20

def newline : UInt8 := 10

namespace LineCodec

variable (c : LineCodec)

/-- One complete line, given without its newline, decoded and folded in. -/
def observeLine (idx : Index) (line : List UInt8) : Option Index :=
  if line.length + 1 > maxEntryLineBytes then none
  else match c.unmarshal line with
    | none => none
    | some e => idx.observeLine e (line.length + 1)

/-- The sequential pass: its index, whose size is the offset the pass reached. -/
def scanFile (file : List UInt8) : Index :=
  Replay.replay c.observeLine Index.empty (Lines.split newline file).1

/-- The index of a file: the pass, then every window, then the incomplete carriers. -/
def rescan (file : List UInt8) : Index :=
  (c.scanFile file).applyReverts.markIncompleteCarriers

/-- A file of complete lines, every one of them usable, with the fold they lead to. -/
def Intact (file : List UInt8) (b : Index) : Prop :=
  ∃ lines, (∀ line ∈ lines, newline ∉ line) ∧ file = Lines.join newline lines ∧
    Replay.Accepts c.observeLine Index.empty lines b

variable {c}

theorem observeLine_eq_some {b b' : Index} {line : List UInt8} :
    c.observeLine b line = some b' ↔ line.length + 1 ≤ maxEntryLineBytes ∧
      ∃ e, c.unmarshal line = some e ∧ b.observeLine e (line.length + 1) = some b' := by
  unfold observeLine
  split
  · simp; omega
  · cases c.unmarshal line with
    | none => simp
    | some e => simp; omega

theorem observeLine_marshal {b : Index} {e : Entry}
    (h : (c.marshal e).length + 1 ≤ maxEntryLineBytes) :
    c.observeLine b (c.marshal e) = b.observeLine e ((c.marshal e).length + 1) := by
  simp [observeLine, c.unmarshal_marshal e, Nat.not_lt.mpr h]

end LineCodec

theorem Index.observeLine_size {b b' : Index} {e : Entry} {len : ℕ}
    (h : b.observeLine e len = some b') : b'.size = b.size + len := by
  obtain ⟨i, -, rfl⟩ := Option.map_eq_some_iff.mp h
  rfl

theorem Index.Folded.setSize {b : Index} (h : b.Folded) (size : ℕ) :
    ({ b with size := size } : Index).Folded := ⟨h.unmarked, h.mem_order⟩

theorem Index.Folded.observeLine {b b' : Index} {e : Entry} {len : ℕ} (hb : b.Folded)
    (h : b.observeLine e len = some b') : b'.Folded := by
  obtain ⟨i, hi, rfl⟩ := Option.map_eq_some_iff.mp h
  exact (hb.observe hi).setSize _

namespace LineCodec

variable {c : LineCodec}

theorem accepts_size {b b' : Index} {lines : List (List UInt8)}
    (h : Replay.Accepts c.observeLine b lines b') :
    b'.size = b.size + (Lines.join newline lines).length := by
  induction lines generalizing b with
  | nil => simp [Replay.accepts_nil.mp h]
  | cons line lines ih =>
    obtain ⟨i, hi, hrest⟩ := Replay.accepts_cons.mp h
    obtain ⟨-, e, -, he⟩ := observeLine_eq_some.mp hi
    rw [ih hrest, Index.observeLine_size he]
    simp
    omega

theorem Intact.size_eq {file : List UInt8} {b : Index} (h : c.Intact file b) :
    b.size = file.length := by
  obtain ⟨lines, -, rfl, ha⟩ := h
  simpa [Index.empty] using accepts_size ha

theorem Intact.folded {file : List UInt8} {b : Index} (h : c.Intact file b) : b.Folded := by
  obtain ⟨lines, -, -, ha⟩ := h
  refine ha.induction ?_ Index.folded_empty
  intro i line i' hi hstep
  obtain ⟨-, e, -, he⟩ := observeLine_eq_some.mp hstep
  exact hi.observeLine he

theorem intact_nil : c.Intact [] Index.empty := ⟨[], by simp, rfl, Replay.accepts_nil.mpr rfl⟩

/-- A scan of an intact file with a torn tail reads the intact part. -/
theorem Intact.scanFile_append {file tail : List UInt8} {b : Index} (h : c.Intact file b)
    (ht : newline ∉ tail) : c.scanFile (file ++ tail) = b := by
  obtain ⟨lines, hl, rfl, ha⟩ := h
  rw [scanFile, Lines.split_join_append newline hl ht]
  exact ha.replay_eq

theorem Intact.scanFile_eq {file : List UInt8} {b : Index} (h : c.Intact file b) :
    c.scanFile file = b := by
  simpa using h.scanFile_append (List.not_mem_nil : newline ∉ ([] : List UInt8))

theorem Intact.rescan_eq {file : List UInt8} {b : Index} (h : c.Intact file b) :
    c.rescan file = b.live b.hidden := by
  rw [rescan, h.scanFile_eq, Index.resolve_eq_live h.folded]

/-- One more line that fits and folds keeps the file intact. -/
theorem Intact.append {file : List UInt8} {b b' : Index} {e : Entry} (h : c.Intact file b)
    (hfit : (c.marshal e).length + 1 ≤ maxEntryLineBytes)
    (hobs : b.observeLine e ((c.marshal e).length + 1) = some b') :
    c.Intact (file ++ (c.marshal e ++ [newline])) b' := by
  obtain ⟨lines, hl, rfl, ha⟩ := h
  refine ⟨lines ++ [c.marshal e], ?_, by simp, ?_⟩
  · intro line hline
    rcases List.mem_append.mp hline with hm | hm
    · exact hl line hm
    · rw [List.mem_singleton.mp hm]
      exact c.newline_notMem e
  · exact Replay.accepts_concat.mpr ⟨b, ha, by rwa [observeLine_marshal hfit]⟩

/-- Whatever the file, the part a scan reads is intact. -/
theorem intact_scanFile (file : List UInt8) :
    c.Intact (file.take (c.scanFile file).size) (c.scanFile file) := by
  obtain ⟨pre, post, hlines, ha, -⟩ :=
    Replay.exists_accepts_replay c.observeLine Index.empty (Lines.split newline file).1
  refine ⟨pre, ?_, ?_, ha⟩
  · intro line hline
    have hmem : line ∈ (Lines.split newline file).1 := by simp [hlines, hline]
    exact Lines.notMem_of_mem_split newline hmem
  · have hfile := Lines.join_split newline file
    have hsize : (c.scanFile file).size = 0 + (Lines.join newline pre).length := accepts_size ha
    rw [hlines, Lines.join_append, List.append_assoc] at hfile
    rw [hsize, Nat.zero_add]
    conv_lhs => rw [← hfile]
    simp

end LineCodec

end Marotte
