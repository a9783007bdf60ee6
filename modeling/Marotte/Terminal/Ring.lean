import Marotte.Library.Recent
import Marotte.Library.Runes
import Mathlib.Data.List.Induction
import Mathlib.Data.Nat.Basic
import Mathlib.Order.Basic

/-! # The output ring

The circular buffer that keeps the last bytes a command wrote, and what it holds after any writes.
-/
namespace Marotte.Terminal

open Recent Runes

/-- The ring of a positive capacity, which is the length of its buffer. -/
structure ByteRing where
  buf : Bytes
  pos : ℕ
  full : Bool
  truncated : Bool
  pos_lt : pos < buf.length

namespace ByteRing

def newByteRing (capacity : ℕ) (h : 0 < capacity) : ByteRing where
  buf := List.replicate capacity 0
  pos := 0
  full := false
  truncated := false
  pos_lt := by simpa using h

/-- `copy` of a string of bytes into the buffer from a place on. -/
def copyAt (buf : Bytes) (pos : ℕ) (p : Bytes) : Bytes :=
  buf.take pos ++ p ++ buf.drop (pos + p.length)

theorem length_copyAt {buf p : Bytes} {pos : ℕ} (h : pos + p.length ≤ buf.length) :
    (copyAt buf pos p).length = buf.length := by
  simp only [copyAt, List.length_append, List.length_take, List.length_drop]
  omega

/-- One round of the loop of a write. -/
def fill (r : ByteRing) (p : Bytes) : ByteRing :=
  let copied := p.take (r.buf.length - r.pos)
  have hle : r.pos + copied.length ≤ r.buf.length := by
    have := r.pos_lt
    have : copied.length ≤ r.buf.length - r.pos := List.length_take_le ..
    omega
  if h : r.pos + copied.length < r.buf.length then
    { r with
      buf := copyAt r.buf r.pos copied
      pos := r.pos + copied.length
      pos_lt := by rwa [length_copyAt hle] }
  else
    { buf := copyAt r.buf r.pos copied
      pos := 0
      full := true
      truncated := r.truncated || copied.length < p.length
      pos_lt := by
        have := r.pos_lt
        rw [length_copyAt hle]
        omega }

/-- The loop of a write. -/
def pour (r : ByteRing) (p : Bytes) : ByteRing :=
  if p = [] then r else (r.fill p).pour (p.drop (r.buf.length - r.pos))
termination_by p.length
decreasing_by
  have := r.pos_lt
  have := List.length_pos_iff.2 ‹_›
  rw [List.length_drop]
  omega

def write (r : ByteRing) (p : Bytes) : ByteRing :=
  if p = [] then r
  else if h : r.buf.length ≤ p.length then
    { buf := p.drop (p.length - r.buf.length)
      pos := 0
      full := true
      truncated := r.truncated || (r.buf.length < p.length || r.full || 0 < r.pos)
      pos_lt := by
        have := r.pos_lt
        rw [List.length_drop]
        omega }
  else { r with truncated := r.truncated || r.full }.pour p

/-- The contents, oldest first. -/
def bytes (r : ByteRing) : Bytes :=
  if r.full then r.buf.drop r.pos ++ r.buf.take r.pos else r.buf.take r.pos

def string (r : ByteRing) : Bytes :=
  dropInvalid r.bytes

/-! ## What a ring holds -/

/-- A ring holds the last bytes of a stream and is full when they fill it. -/
structure Holds (r : ByteRing) (stream : Bytes) : Prop where
  full : r.full = true ↔ r.buf.length ≤ stream.length
  bytes : r.bytes = stream.rtake r.buf.length

variable {r : ByteRing} {stream p : Bytes}

theorem bytes_of_full (h : r.full = true) : r.bytes = r.buf.drop r.pos ++ r.buf.take r.pos :=
  if_pos h

theorem bytes_of_not_full (h : r.full = false) : r.bytes = r.buf.take r.pos := by
  rw [bytes, h, if_neg Bool.false_ne_true]

theorem Holds.length_lt (h : r.Holds stream) (hfull : r.full = false) :
    stream.length < r.buf.length := by
  have := h.full
  rw [hfull] at this
  simpa using this

theorem Holds.take_pos (h : r.Holds stream) (hfull : r.full = false) :
    r.buf.take r.pos = stream := by
  rw [← bytes_of_not_full hfull, h.bytes, rtake_of_length_le (h.length_lt hfull).le]

theorem Holds.pos (h : r.Holds stream) (hfull : r.full = false) : r.pos = stream.length := by
  have := congrArg List.length (h.take_pos hfull)
  rw [List.length_take, Nat.min_eq_left r.pos_lt.le] at this
  exact this

/-- What a write at the position leaves of the contents. -/
theorem Holds.drop (h : r.Holds stream) (hfull : r.full = true)
    (hp : r.pos + p.length ≤ r.buf.length) :
    (stream ++ p).rtake r.buf.length
      = r.buf.drop (r.pos + p.length) ++ (r.buf.take r.pos ++ p) := by
  have hle : p.length ≤ (r.buf.drop r.pos).length := by
    rw [List.length_drop]
    omega
  rw [rtake_append (h.full.1 hfull) (by omega), ← h.bytes, bytes_of_full hfull,
    List.drop_append_of_le_length hle, List.drop_drop, List.append_assoc]

theorem take_copyAt {buf : Bytes} {pos : ℕ} (h : pos ≤ buf.length) (p : Bytes) :
    (copyAt buf pos p).take (pos + p.length) = buf.take pos ++ p := by
  rw [copyAt, List.take_left']
  rw [List.length_append, List.length_take, Nat.min_eq_left h]

theorem drop_copyAt {buf : Bytes} {pos : ℕ} (h : pos ≤ buf.length) (p : Bytes) :
    (copyAt buf pos p).drop (pos + p.length) = buf.drop (pos + p.length) := by
  rw [copyAt, List.drop_left']
  rw [List.length_append, List.length_take, Nat.min_eq_left h]

theorem length_take_space (r : ByteRing) (p : Bytes) :
    (p.take (r.buf.length - r.pos)).length = min (r.buf.length - r.pos) p.length :=
  List.length_take

theorem length_fill (r : ByteRing) (p : Bytes) : (r.fill p).buf.length = r.buf.length := by
  have hlen := length_take_space r p
  have hpos := r.pos_lt
  rw [fill]
  split <;> exact length_copyAt (by omega)

/-- A round of the loop adds what it copies. -/
theorem Holds.fill (h : r.Holds stream) (p : Bytes) :
    (r.fill p).Holds (stream ++ p.take (r.buf.length - r.pos)) := by
  have hlen := length_take_space r p
  have hpos := r.pos_lt
  have hbuf := length_fill r p
  generalize hq : p.take (r.buf.length - r.pos) = q at hlen
  have hle : r.pos + q.length ≤ r.buf.length := by omega
  by_cases hlt : r.pos + q.length < r.buf.length
  · have hfill : (r.fill p).pos = r.pos + q.length ∧ (r.fill p).full = r.full
        ∧ (r.fill p).buf = copyAt r.buf r.pos q := by
      simp only [ByteRing.fill, hq, dif_pos hlt, and_self]
    obtain ⟨hpos', hfull', hbuf'⟩ := hfill
    cases hfull : r.full with
    | false =>
      have htake := h.take_pos hfull
      have hstream := h.pos hfull
      rw [hfull] at hfull'
      have hlength : (stream ++ q).length < r.buf.length := by
        rw [List.length_append]
        omega
      constructor
      · rw [hfull', hbuf]
        simpa using hlength
      · rw [bytes_of_not_full hfull', hpos', hbuf', take_copyAt hpos.le, htake, ← hbuf', hbuf,
          rtake_of_length_le hlength.le]
    | true =>
      rw [hfull] at hfull'
      have hcap := h.full.1 hfull
      constructor
      · rw [hfull', hbuf, List.length_append]
        simp only [true_iff]
        omega
      · rw [bytes_of_full hfull', hpos', hbuf', take_copyAt hpos.le, drop_copyAt hpos.le, ← hbuf',
          hbuf, h.drop hfull hle]
  · have heq : r.pos + q.length = r.buf.length := by omega
    have hfill : (r.fill p).pos = 0 ∧ (r.fill p).full = true
        ∧ (r.fill p).buf = copyAt r.buf r.pos q := by
      simp only [ByteRing.fill, hq, dif_neg hlt, and_self]
    obtain ⟨hpos', hfull', hbuf'⟩ := hfill
    have hcopy : copyAt r.buf r.pos q = r.buf.take r.pos ++ q := by
      rw [copyAt, heq, List.drop_length, List.append_nil]
    have hbytes : (r.fill p).bytes = r.buf.take r.pos ++ q := by
      rw [bytes_of_full hfull', hpos', hbuf', hcopy, List.drop_zero, List.take_zero,
        List.append_nil]
    cases hfull : r.full with
    | false =>
      have hstream := h.pos hfull
      have hlength : (stream ++ q).length = r.buf.length := by
        rw [List.length_append]
        omega
      constructor
      · rw [hfull', hbuf, hlength]
        simp
      · rw [hbytes, h.take_pos hfull, hbuf, rtake_of_length_le hlength.le]
    | true =>
      have hcap := h.full.1 hfull
      constructor
      · rw [hfull', hbuf, List.length_append]
        simp only [true_iff]
        omega
      · rw [hbytes, hbuf, h.drop hfull hle, heq, List.drop_length, List.nil_append]

theorem truncated_fill (r : ByteRing) (p : Bytes) :
    (r.fill p).truncated = true ↔ r.truncated = true ∨ r.buf.length < r.pos + p.length := by
  have hlen := length_take_space r p
  have hpos := r.pos_lt
  rw [ByteRing.fill]
  split
  · next hlt =>
    refine ⟨.inl, fun h => h.resolve_right ?_⟩
    omega
  · next hge =>
    simp only [Bool.or_eq_true, decide_eq_true_eq]
    refine or_congr_right ?_
    omega

theorem pour_nil (r : ByteRing) : r.pour [] = r := by
  rw [pour, if_pos rfl]

theorem pour_of_ne_nil (h : p ≠ []) :
    r.pour p = (r.fill p).pour (p.drop (r.buf.length - r.pos)) := by
  rw [pour, if_neg h]

/-- The loop adds all of a write, and evicts when the ring is filled with something left. -/
theorem Holds.pour (h : r.Holds stream) (p : Bytes) :
    (r.pour p).Holds (stream ++ p) ∧ (r.pour p).buf.length = r.buf.length
      ∧ ((r.pour p).truncated = true ↔ r.truncated = true ∨ r.buf.length < r.pos + p.length) := by
  have hpos := r.pos_lt
  induction hlen : p.length using Nat.strong_induction_on generalizing r stream p with
  | _ n ih =>
    by_cases hnil : p = []
    · subst hnil
      rw [pour_nil, List.append_nil]
      refine ⟨h, rfl, .inl, fun hor => hor.resolve_right ?_⟩
      rw [List.length_nil] at hlen
      omega
    · have hp := List.length_pos_iff.2 hnil
      have hdrop : (p.drop (r.buf.length - r.pos)).length = p.length - (r.buf.length - r.pos) :=
        List.length_drop
      obtain ⟨hholds, hlength, htruncated⟩ := ih _ (by omega) (h.fill p)
        (p.drop (r.buf.length - r.pos)) (r.fill p).pos_lt rfl
      rw [pour_of_ne_nil hnil]
      rw [List.append_assoc, List.take_append_drop] at hholds
      refine ⟨hholds, hlength.trans (length_fill r p), ?_⟩
      rw [htruncated, truncated_fill, length_fill, hdrop, ← hlen, or_assoc]
      have hfill := (r.fill p).pos_lt
      rw [length_fill] at hfill
      refine or_congr_right ?_
      omega

theorem Holds.write (h : r.Holds stream)
    (htruncated : r.truncated = true ↔ r.buf.length < stream.length) (p : Bytes) :
    (r.write p).Holds (stream ++ p) ∧ (r.write p).buf.length = r.buf.length
      ∧ ((r.write p).truncated = true ↔ r.buf.length < (stream ++ p).length) := by
  have hpos := r.pos_lt
  have hsum : (stream ++ p).length = stream.length + p.length := List.length_append
  rw [ByteRing.write]
  split
  · next hnil =>
    rw [hnil, List.append_nil]
    exact ⟨h, rfl, htruncated⟩
  · next hnil =>
    have hp := List.length_pos_iff.2 hnil
    split
    · next hle =>
      have hlength : (p.drop (p.length - r.buf.length)).length = r.buf.length := by
        rw [List.length_drop]
        omega
      refine ⟨⟨?_, ?_⟩, hlength, ?_⟩
      · simp only [hlength, true_iff]
        omega
      · rw [bytes_of_full rfl, List.drop_zero, List.take_zero, List.append_nil, hlength,
          rtake_append_of_le hle, List.rtake]
      · simp only [Bool.or_eq_true, decide_eq_true_eq, htruncated, h.full]
        cases hfull : r.full with
        | false =>
          have := h.pos hfull
          omega
        | true =>
          have := h.full.1 hfull
          omega
    · next hlt =>
      have hheld : ({ r with truncated := r.truncated || r.full } : ByteRing).Holds stream :=
        ⟨h.full, h.bytes⟩
      obtain ⟨hholds, hlength, hiff⟩ := hheld.pour p
      refine ⟨hholds, hlength, hiff.trans ?_⟩
      simp only [Bool.or_eq_true, htruncated, h.full]
      cases hfull : r.full with
      | false =>
        have := h.pos hfull
        have := h.length_lt hfull
        omega
      | true =>
        have := h.full.1 hfull
        omega

/-- Every ring that writes lead to. -/
theorem holds_writes (capacity : ℕ) (h : 0 < capacity) (writes : List Bytes) :
    (writes.foldl write (newByteRing capacity h)).Holds writes.flatten
      ∧ (writes.foldl write (newByteRing capacity h)).buf.length = capacity
      ∧ ((writes.foldl write (newByteRing capacity h)).truncated = true
        ↔ capacity < writes.flatten.length) := by
  induction writes using List.reverseRecOn with
  | nil =>
    have hlength : (newByteRing capacity h).buf.length = capacity := List.length_replicate
    refine ⟨⟨?_, ?_⟩, hlength, ?_⟩
    · rw [List.foldl_nil, hlength]
      simpa [newByteRing] using h.ne'
    · rw [List.flatten_nil, rtake_of_length_le (Nat.zero_le _)]
      rfl
    · simp [newByteRing]
  | append_singleton writes p ih =>
    obtain ⟨hholds, hlength, htruncated⟩ := ih
    obtain ⟨hholds', hlength', htruncated'⟩ := hholds.write (by rw [hlength, htruncated]) p
    rw [hlength] at hlength' htruncated'
    rw [List.foldl_concat, List.flatten_concat]
    exact ⟨hholds', hlength', htruncated'⟩

end ByteRing

open ByteRing

/-- After any writes a ring of a positive capacity holds the last bytes of what was written, and
tells exactly whether some were evicted. Its text is valid UTF-8 in which every complete character
of those bytes stands, between what is kept of the bytes before it and behind it. -/
theorem ring_suffix (capacity : ℕ) (h : 0 < capacity) (writes : List Bytes) :
    let r := writes.foldl write (newByteRing capacity h)
    let stream := writes.flatten
    r.bytes = stream.rtake capacity
    ∧ r.bytes.length = min capacity stream.length
    ∧ (r.truncated = true ↔ capacity < stream.length)
    ∧ (∃ text : List Char, r.string = text.flatMap String.utf8EncodeChar)
    ∧ ∀ before c after, r.bytes = before ++ (String.utf8EncodeChar c ++ after) →
        r.string = dropInvalid before ++ (String.utf8EncodeChar c ++ dropInvalid after) := by
  intro r stream
  obtain ⟨hholds, hlength, htruncated⟩ := holds_writes capacity h writes
  have hbytes : r.bytes = stream.rtake capacity :=
    hholds.bytes.trans (by rw [hlength])
  refine ⟨hbytes, ?_, htruncated, ⟨chars r.bytes, dropInvalid_eq _⟩, ?_⟩
  · rw [hbytes, List.rtake, List.length_drop]
    omega
  · intro before c after hsplit
    rw [string, hsplit, dropInvalid_append_encode]

/-- Two writes wrap a ring of four bytes inside a character. -/
theorem ring_suffix_wrapped :
    let r := [[0x61, 0xE2, 0x82], [0xAC, 0x62]].foldl write (newByteRing 4 (by decide))
    let stream : Bytes := [[0x61, 0xE2, 0x82], [0xAC, 0x62]].flatten
    r.bytes = stream.rtake 4
    ∧ r.bytes.length = min 4 stream.length
    ∧ (r.truncated = true ↔ 4 < stream.length)
    ∧ (∃ text : List Char, r.string = text.flatMap String.utf8EncodeChar)
    ∧ ∀ before c after, r.bytes = before ++ (String.utf8EncodeChar c ++ after) →
        r.string = dropInvalid before ++ (String.utf8EncodeChar c ++ dropInvalid after) :=
  ring_suffix 4 (by decide) [[0x61, 0xE2, 0x82], [0xAC, 0x62]]

end Marotte.Terminal
