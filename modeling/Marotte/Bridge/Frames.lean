import Marotte.Library.Lines
import Marotte.Library.Runes
import Mathlib.Data.List.TakeWhile

/-! # Slices of a buffered stream

A buffered reader over a stream that is handed over in reads and ends in an error, and its
`ReadSlice`: what the buffer holds up to a newline, all of it when the window is full, or the rest
with the error.
-/
namespace Marotte.Bridge

open Runes

def newline : UInt8 := 10

/-- What one read hands over: at least one byte. -/
structure Chunk where
  bytes : Bytes
  nonempty : bytes ≠ []

/-- How a stream is read: the window of the buffer, and whether the error at the end of the stream
comes with its last bytes or after them. -/
structure Delivery where
  size : ℕ
  pos : 0 < size
  early : Bool

/-- The bytes in the buffer, the reads to come and whether their error has been read. -/
structure Reader where
  buffered : Bytes
  reads : List Chunk
  failed : Bool
  failed_reads : failed = true → reads = []

namespace Reader

variable {d : Delivery} {r : Reader}

/-- Everything that has not been answered yet. -/
def stream (r : Reader) : Bytes :=
  r.buffered ++ r.reads.flatMap Chunk.bytes

/-- One read into the room the buffer has left. What does not fit is read later. -/
def fill (d : Delivery) (r : Reader) : Reader :=
  match r.reads with
  | [] => { buffered := r.buffered, reads := [], failed := true, failed_reads := fun _ => rfl }
  | c :: cs =>
    if h : c.bytes.length ≤ d.size - r.buffered.length then
      { buffered := r.buffered ++ c.bytes
        reads := cs
        failed := cs.isEmpty && d.early
        failed_reads := by simp +contextual }
    else
      { buffered := r.buffered ++ c.bytes.take (d.size - r.buffered.length)
        reads := ⟨c.bytes.drop (d.size - r.buffered.length), by simpa using h⟩ :: cs
        failed := false
        failed_reads := by simp }

/-- How many bytes are still to be read. -/
def pending (r : Reader) : ℕ :=
  (r.reads.flatMap Chunk.bytes).length

theorem stream_fill (d : Delivery) (r : Reader) : (r.fill d).stream = r.stream := by
  cases hreads : r.reads with
  | nil => simp [fill, stream, hreads]
  | cons c cs =>
    simp only [fill, hreads]
    split
    · simp [stream, hreads]
    · simp only [stream, hreads, List.flatMap_cons, List.append_assoc]
      rw [← List.append_assoc (List.take _ _), List.take_append_drop]

/-- A read either takes a byte or finds the end of the stream. -/
theorem fill_progress (hroom : r.buffered.length < d.size) :
    (r.fill d).pending < r.pending ∨ (r.fill d).pending = r.pending ∧ (r.fill d).failed = true := by
  cases hreads : r.reads with
  | nil => exact .inr (by simp [fill, pending, hreads])
  | cons c cs =>
    left
    have hpos : 0 < c.bytes.length := List.length_pos_iff.2 c.nonempty
    simp only [fill, hreads]
    split
    · simp only [pending, hreads, List.flatMap_cons, List.length_append]
      omega
    · simp only [pending, hreads, List.flatMap_cons, List.length_append, List.length_drop]
      omega

end Reader

/-- What `ReadSlice` answers: a line without its newline, a full buffer, or what is left with the
error. -/
inductive Slice where
  | line (bytes : Bytes)
  | full (bytes : Bytes)
  | failed (bytes : Bytes)

namespace Reader

variable {d : Delivery} {r r' : Reader} {slice : Slice}

def readSlice (d : Delivery) (r : Reader) : Slice × Reader :=
  if newline ∈ r.buffered then
    (.line (r.buffered.takeWhile (· ≠ newline)),
      { r with buffered := (r.buffered.dropWhile (· ≠ newline)).tail })
  else if r.failed then
    (.failed r.buffered, { r with buffered := [], failed := false, failed_reads := by simp })
  else if d.size ≤ r.buffered.length then
    (.full r.buffered, { r with buffered := [] })
  else
    readSlice d (r.fill d)
termination_by (r.pending, (!r.failed).toNat)
decreasing_by
  rename_i hfailed hfull
  rcases fill_progress (d := d) (r := r) (by omega) with hless | ⟨hsame, hend⟩
  · exact Prod.Lex.left _ _ hless
  · rw [hsame, hend]
    apply Prod.Lex.right
    simp [hfailed]

/-- What an answer says about the stream. -/
inductive Reads (r : Reader) : Slice → Reader → Prop
  | line {bytes : Bytes} {r' : Reader} (hline : newline ∉ bytes)
      (hstream : r.stream = bytes ++ newline :: r'.stream) : Reads r (.line bytes) r'
  | full {bytes : Bytes} {r' : Reader} (hline : newline ∉ bytes) (hsome : bytes ≠ [])
      (hstream : r.stream = bytes ++ r'.stream) : Reads r (.full bytes) r'
  | failed {bytes : Bytes} {r' : Reader} (hline : newline ∉ bytes) (hstream : r.stream = bytes)
      (hend : r'.stream = []) : Reads r (.failed bytes) r'

theorem Reads.of_stream {r₁ : Reader} (h : Reads r₁ slice r') (hstream : r₁.stream = r.stream) :
    Reads r slice r' := by
  cases h with
  | line hline h => exact .line hline (hstream.symm.trans h)
  | full hline hsome h => exact .full hline hsome (hstream.symm.trans h)
  | failed hline h hend => exact .failed hline (hstream.symm.trans h) hend

theorem takeWhile_newline {bytes : Bytes} (h : newline ∈ bytes) :
    bytes = bytes.takeWhile (· ≠ newline)
      ++ newline :: (bytes.dropWhile (· ≠ newline)).tail := by
  induction bytes with
  | nil => simp at h
  | cons b bytes ih =>
    by_cases hb : b = newline
    · simp [hb]
    · have hrest : newline ∈ bytes := by
        simpa [Ne.symm hb] using h
      simpa [hb] using ih hrest

/-- The answers are what is documented, however the stream is delivered. -/
theorem reads_readSlice (d : Delivery) (r : Reader) :
    Reads r (r.readSlice d).1 (r.readSlice d).2 := by
  induction r using readSlice.induct (d := d) with
  | case1 r hnewline =>
    rw [readSlice, if_pos hnewline]
    apply Reads.line
    · intro h
      simpa using List.mem_takeWhile_imp h
    · rw [stream, stream, ← List.cons_append, ← List.append_assoc, ← takeWhile_newline hnewline]
  | case2 r hnone hfailed =>
    rw [readSlice, if_neg hnone, if_pos hfailed]
    apply Reads.failed hnone
    · simp [stream, r.failed_reads hfailed]
    · simp [stream, r.failed_reads hfailed]
  | case3 r hnone hfailed hfull =>
    rw [readSlice, if_neg hnone, if_neg hfailed, if_pos hfull]
    apply Reads.full hnone
    · intro hempty
      have hpos := d.pos
      rw [hempty, List.length_nil] at hfull
      omega
    · simp [stream]
  | case4 r hnone hfailed hfull ih =>
    rw [readSlice, if_neg hnone, if_neg hfailed, if_neg hfull]
    exact ih.of_stream (stream_fill d r)

end Reader

/-! ## Frames

`readFrame` gathers the slices of a line, up to a cap beyond which the line is drained and its
length reported, and its answers are those of splitting the stream at newlines.
-/

def scannerLineCap : ℕ := 16 * 2 ^ 20

/-- How many bytes of one line are drained at most. -/
def oversizeDrainCap : ℕ := 16 * scannerLineCap

inductive FrameError where
  | drainExhausted
  | read
  deriving DecidableEq

/-- What one call answers. No frame is the empty one. -/
structure Answer where
  frame : Bytes
  dropped : ℕ
  err : Option FrameError
  deriving DecidableEq

/-- The line in progress: the bytes in hand or the count of those given up. -/
structure Progress where
  buf : Bytes
  dropped : ℕ
  draining : Bool

namespace Progress

def start : Progress where
  buf := []
  dropped := 0
  draining := false

def absorb (p : Progress) (chunk : Bytes) : Progress :=
  if p.draining then
    { p with dropped := p.dropped + chunk.length }
  else if p.buf.length + chunk.length > scannerLineCap then
    { buf := [], dropped := p.buf.length + chunk.length, draining := true }
  else
    { p with buf := p.buf ++ chunk }

def complete (p : Progress) : Answer :=
  if p.draining then { frame := [], dropped := p.dropped, err := none }
  else { frame := p.buf, dropped := 0, err := none }

def truncated (p : Progress) : Answer :=
  if !p.draining && !p.buf.isEmpty then { frame := p.buf, dropped := 0, err := none }
  else { frame := [], dropped := p.dropped, err := some .read }

def exhausted (p : Progress) : Answer where
  frame := []
  dropped := p.dropped
  err := some .drainExhausted

end Progress

variable {d : Delivery} {r r' : Reader} {p : Progress} {before chunk : Bytes}

theorem length_of_full (h : r.readSlice d = (.full chunk, r')) :
    r'.stream.length < r.stream.length := by
  have hreads := r.reads_readSlice d
  rw [h] at hreads
  cases hreads with
  | full _ hsome hstream =>
    have hpos := List.length_pos_iff.2 hsome
    rw [hstream, List.length_append]
    exact Nat.lt_add_of_pos_left hpos

/-- The loop of `readFrame`. -/
def gather (d : Delivery) (r : Reader) (p : Progress) : Answer × Reader :=
  match _h : r.readSlice d with
  | (.line chunk, r') =>
    let q := p.absorb chunk
    if q.dropped > oversizeDrainCap then (q.exhausted, r') else (q.complete, r')
  | (.full chunk, r') =>
    let q := p.absorb chunk
    if q.dropped > oversizeDrainCap then (q.exhausted, r') else gather d r' q
  | (.failed chunk, r') =>
    let q := p.absorb chunk
    if q.dropped > oversizeDrainCap then (q.exhausted, r') else (q.truncated, r')
termination_by r.stream.length
decreasing_by exact length_of_full _h

def readFrame (d : Delivery) (r : Reader) : Answer × Reader :=
  gather d r .start

/-- The answers of the first calls, up to an error: with it the reading ends. -/
def answers (d : Delivery) : ℕ → Reader → List Answer
  | 0, _ => []
  | n + 1, r =>
    (readFrame d r).1 ::
      match (readFrame d r).1.err with
      | none => answers d n (readFrame d r).2
      | some _ => []

/-! ## Splitting the stream -/

/-- The count of an unfinished drain says how far it came, not what is in the stream. -/
def Answer.known (a : Answer) : Answer :=
  if a.err = some .drainExhausted then { a with dropped := 0 } else a

def gaveUp : Answer where
  frame := []
  dropped := 0
  err := some .drainExhausted

/-- A terminated line within the budget. -/
def lineAnswer (line : Bytes) : Answer :=
  if line.length ≤ scannerLineCap then { frame := line, dropped := 0, err := none }
  else { frame := [], dropped := line.length, err := none }

/-- An unterminated rest. -/
def restAnswers (rest : Bytes) : List Answer :=
  if rest.length > oversizeDrainCap then [gaveUp]
  else if rest.length > scannerLineCap then
    [{ frame := [], dropped := rest.length, err := some .read }]
  else if rest = [] then [{ frame := [], dropped := 0, err := some .read }]
  else [{ frame := rest, dropped := 0, err := none }, { frame := [], dropped := 0, err := some .read }]

def lineAnswers : List Bytes → Bytes → List Answer
  | [], rest => restAnswers rest
  | line :: lines, rest =>
    if line.length > oversizeDrainCap then [gaveUp]
    else lineAnswer line :: lineAnswers lines rest

/-- What is to be answered over a stream. -/
def frames (stream : Bytes) : List Answer :=
  lineAnswers (Lines.split newline stream).1 (Lines.split newline stream).2

/-! ## A line in progress -/

/-- The bytes of a line so far are in hand, or there are more of them than the cap and they are
counted. -/
structure Taken (p : Progress) (before : Bytes) : Prop where
  held : p.draining = false → p.buf = before ∧ before.length ≤ scannerLineCap ∧ p.dropped = 0
  counted : p.draining = true → p.dropped = before.length ∧ scannerLineCap < before.length

theorem taken_start : Taken .start [] where
  held _ := ⟨rfl, Nat.zero_le _, rfl⟩
  counted h := by simp [Progress.start] at h

theorem taken_absorb (h : Taken p before) (chunk : Bytes) :
    Taken (p.absorb chunk) (before ++ chunk) := by
  cases hdraining : p.draining with
  | true =>
    obtain ⟨hdropped, hcap⟩ := h.counted hdraining
    rw [Progress.absorb, if_pos hdraining]
    constructor
    · intro hno
      simp [hdraining] at hno
    · intro _
      simp only [List.length_append]
      omega
  | false =>
    obtain ⟨hbuf, hcap, hdropped⟩ := h.held hdraining
    rw [Progress.absorb, if_neg (by simp [hdraining]), hbuf]
    split
    · next hcross =>
      constructor
      · intro hno
        simp at hno
      · intro _
        exact ⟨(List.length_append ..).symm, by rw [List.length_append]; omega⟩
    · next hfits =>
      constructor
      · intro _
        refine ⟨rfl, ?_, hdropped⟩
        rw [List.length_append]
        omega
      · intro hyes
        simp [hdraining] at hyes

theorem dropped_le (h : Taken p before) (hle : before.length ≤ oversizeDrainCap) :
    p.dropped ≤ oversizeDrainCap := by
  cases hdraining : p.draining with
  | true => exact (h.counted hdraining).1 ▸ hle
  | false => exact (h.held hdraining).2.2 ▸ Nat.zero_le _

theorem before_le (h : Taken p before) (hle : p.dropped ≤ oversizeDrainCap) :
    before.length ≤ oversizeDrainCap := by
  cases hdraining : p.draining with
  | true => exact (h.counted hdraining).1 ▸ hle
  | false =>
    have hcap := (h.held hdraining).2.1
    rw [oversizeDrainCap]
    omega

theorem complete_eq (h : Taken p before) : p.complete = lineAnswer before := by
  cases hdraining : p.draining with
  | true =>
    obtain ⟨hdropped, hcap⟩ := h.counted hdraining
    rw [Progress.complete, if_pos hdraining, lineAnswer, if_neg (by omega), hdropped]
  | false =>
    obtain ⟨hbuf, hcap, _⟩ := h.held hdraining
    rw [Progress.complete, if_neg (by simp [hdraining]), lineAnswer, if_pos hcap, hbuf]

/-! ## One call -/

/-- What a call answers over a stream, and what it leaves of it. -/
inductive Says : Bytes → Answer → Bytes → Prop
  | line {line rest : Bytes} (hline : newline ∉ line) (hle : line.length ≤ oversizeDrainCap) :
      Says (line ++ newline :: rest) (lineAnswer line) rest
  | exhausted {front rest left : Bytes} {n : ℕ} (hline : newline ∉ front)
      (hlt : oversizeDrainCap < front.length) :
      Says (front ++ rest) { frame := [], dropped := n, err := some .drainExhausted } left
  | rest {rest : Bytes} (hline : newline ∉ rest) (hsome : rest ≠ [])
      (hcap : rest.length ≤ scannerLineCap) :
      Says rest { frame := rest, dropped := 0, err := none } []
  | ended {rest left : Bytes} (hline : newline ∉ rest)
      (hcap : rest = [] ∨ scannerLineCap < rest.length) (hle : rest.length ≤ oversizeDrainCap) :
      Says rest { frame := [], dropped := rest.length, err := some .read } left

theorem says_truncated (h : Taken p before) (hline : newline ∉ before)
    (hle : before.length ≤ oversizeDrainCap) : Says before p.truncated [] := by
  cases hdraining : p.draining with
  | true =>
    obtain ⟨hdropped, hcap⟩ := h.counted hdraining
    rw [Progress.truncated, if_neg (by simp [hdraining]), hdropped]
    exact .ended hline (.inr hcap) hle
  | false =>
    obtain ⟨hbuf, hcap, hdropped⟩ := h.held hdraining
    rw [Progress.truncated, hdraining, hbuf, hdropped]
    by_cases hempty : before = []
    · subst hempty
      exact .ended hline (.inl rfl) hle
    · rw [if_pos (by simp [hempty])]
      exact .rest hline hempty hcap

/-- A line past the budget. -/
theorem says_exhausted (h : Taken p before) (hline : newline ∉ before)
    (hlt : oversizeDrainCap < p.dropped) (rest left : Bytes) :
    Says (before ++ rest) p.exhausted left := by
  have hbefore : oversizeDrainCap < before.length := by
    by_contra hle
    have hdropped := dropped_le h (by omega)
    omega
  exact .exhausted hline hbefore

theorem gather_line (h : r.readSlice d = (.line chunk, r')) :
    gather d r p = if (p.absorb chunk).dropped > oversizeDrainCap then
      ((p.absorb chunk).exhausted, r') else ((p.absorb chunk).complete, r') := by
  rw [gather]
  split <;> simp_all

theorem gather_full (h : r.readSlice d = (.full chunk, r')) :
    gather d r p = if (p.absorb chunk).dropped > oversizeDrainCap then
      ((p.absorb chunk).exhausted, r') else gather d r' (p.absorb chunk) := by
  rw [gather]
  split <;> simp_all

theorem gather_failed (h : r.readSlice d = (.failed chunk, r')) :
    gather d r p = if (p.absorb chunk).dropped > oversizeDrainCap then
      ((p.absorb chunk).exhausted, r') else ((p.absorb chunk).truncated, r') := by
  rw [gather]
  split <;> simp_all

/-- A call answers over the line in progress and what is left of the stream. -/
theorem says_gather (d : Delivery) (n : ℕ) (r : Reader) (p : Progress) (before : Bytes)
    (hn : r.stream.length = n) (h : Taken p before) (hline : newline ∉ before) :
    Says (before ++ r.stream) (gather d r p).1 (gather d r p).2.stream := by
  induction n using Nat.strong_induction_on generalizing r p before with
  | h n ih =>
    have hreads := r.reads_readSlice d
    cases hslice : r.readSlice d with
    | mk slice r' =>
      rw [hslice] at hreads
      cases hreads with
      | @line bytes _ hbytes hstream =>
        have htaken := taken_absorb h bytes
        have hwhole : newline ∉ before ++ bytes := by
          simp [hline, hbytes]
        rw [gather_line hslice, hstream, ← List.append_assoc]
        split
        · next hlt => exact says_exhausted htaken hwhole hlt _ _
        · next hle =>
          rw [complete_eq htaken]
          exact .line hwhole (before_le htaken (by omega))
      | @full bytes _ hbytes hsome hstream =>
        have htaken := taken_absorb h bytes
        have hwhole : newline ∉ before ++ bytes := by
          simp [hline, hbytes]
        have hless := length_of_full hslice
        rw [gather_full hslice, hstream, ← List.append_assoc]
        split
        · next hlt => exact says_exhausted htaken hwhole hlt _ _
        · exact ih _ (by omega) r' _ _ rfl htaken hwhole
      | @failed bytes _ hbytes hstream hend =>
        have htaken := taken_absorb h bytes
        have hwhole : newline ∉ before ++ bytes := by
          simp [hline, hbytes]
        rw [gather_failed hslice, hstream]
        split
        · next hlt =>
          have hsays := says_exhausted htaken hwhole hlt [] r'.stream
          rwa [List.append_nil] at hsays
        · next hle =>
          rw [hend]
          exact says_truncated htaken hwhole (before_le htaken (by omega))

theorem says_readFrame (d : Delivery) (r : Reader) :
    Says r.stream (readFrame d r).1 (readFrame d r).2.stream :=
  says_gather d _ r .start [] rfl taken_start List.not_mem_nil

/-! ## All calls -/

theorem frames_rest {rest : Bytes} (h : newline ∉ rest) : frames rest = restAnswers rest := by
  rw [frames, Lines.split_of_notMem newline h, lineAnswers]

theorem frames_line {line rest : Bytes} (h : newline ∉ line) :
    frames (line ++ newline :: rest) =
      if line.length > oversizeDrainCap then [gaveUp] else lineAnswer line :: frames rest := by
  rw [frames, Lines.split_append_sep newline h, lineAnswers, frames]

theorem lineAnswer_err (line : Bytes) : (lineAnswer line).err = none := by
  rw [lineAnswer]
  split <;> rfl

theorem known_of_none {a : Answer} (h : a.err = none) : a.known = a := by
  rw [Answer.known, if_neg (by simp [h])]

/-- The line a newline-free front belongs to is as long. -/
theorem frames_exhausted {front rest : Bytes} (hfront : newline ∉ front)
    (hlt : oversizeDrainCap < front.length) : frames (front ++ rest) = [gaveUp] := by
  by_cases hrest : newline ∈ rest
  · rw [Reader.takeWhile_newline hrest, ← List.append_assoc, frames_line, if_pos]
    · rw [List.length_append]
      omega
    · rw [List.mem_append, not_or]
      refine ⟨hfront, ?_⟩
      intro h
      simpa using List.mem_takeWhile_imp h
  · rw [frames_rest (by simp [hfront, hrest]), restAnswers, if_pos]
    rw [List.length_append]
    omega

/-- A call answers what is to be answered first, and leaves what is to be answered then. -/
theorem frames_of_says {stream left : Bytes} {a : Answer} (h : Says stream a left) :
    frames stream = a.known :: match a.err with
      | none => frames left
      | some _ => [] := by
  cases h with
  | @line line rest hline hle =>
    have herr := lineAnswer_err line
    rw [frames_line hline, if_neg (by omega), known_of_none herr, herr]
  | exhausted hline hlt => exact frames_exhausted hline hlt
  | rest hline hsome hcap =>
    have hdrain : stream.length ≤ oversizeDrainCap := by
      rw [oversizeDrainCap]
      omega
    have hend : frames [] = [{ frame := [], dropped := 0, err := some .read }] := by
      rw [frames_rest List.not_mem_nil]
      rfl
    rw [frames_rest hline, restAnswers, if_neg (by omega), if_neg (by omega), if_neg hsome, ← hend]
    rfl
  | ended hline hcap hle =>
    rw [frames_rest hline, restAnswers, if_neg (by omega)]
    rcases hcap with rfl | hcap
    · rfl
    · rw [if_pos hcap]
      rfl

/-- The answers of the calls are those of splitting the stream at newlines: no window and no
delivery changes which frames are seen, and only what is over the cap is lost. -/
theorem answers_known (d : Delivery) (n : ℕ) (r : Reader) :
    (answers d n r).map Answer.known = (frames r.stream).take n := by
  induction n generalizing r with
  | zero => rfl
  | succ n ih =>
    rw [answers, frames_of_says (says_readFrame d r), List.map_cons, List.take_succ_cons]
    congr 1
    cases (readFrame d r).1.err with
    | none => exact ih _
    | some e => simp

end Marotte.Bridge
