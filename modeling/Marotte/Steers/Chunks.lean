import Marotte.Steers.Marker
import Marotte.Library.Along
import Mathlib.Data.List.Infix

/-! # The marker filter over the deltas of a text

The carry is threaded from call to call. What the calls lift is what one reading of the whole text
finds, unless a delta ends inside a marker behind a closing bracket of it: there the filter takes
the candidate for prose.
-/
namespace Marotte.Steers

/-- The deltas fed so far: what was emitted, what is withheld, the acknowledgements, and where in
the text the markers lifted stand. -/
structure Fed where
  emitted : Bytes := []
  carry : Bytes := []
  acks : List SteerAck := []
  fed : ℕ := 0
  lifted : List (ℕ × SteerMarker) := []

def Fed.feed (f : Fed) (delta : Bytes) : Fed :=
  let out := stripSteerAcks f.carry delta
  { emitted := f.emitted ++ out.emit
    carry := out.carry
    acks := f.acks ++ out.acks
    fed := f.fed + delta.length
    lifted := f.lifted ++
      (steerAckRe.findAll 0 0 (f.carry ++ delta)).map (Matcher.moved (f.fed - f.carry.length)) }

def feedAll (chunks : List Bytes) : Fed := runFrom Fed.feed {} chunks

/-- No candidate is left open for more than `bound` bytes. -/
def OpenWithin (bound : ℕ) (chunks : List Bytes) : Prop :=
  ∀ pre ∈ chunks.inits, ∀ p < pre.flatten.length,
    couldBecomeSteerAck (pre.flatten.drop p) = true → pre.flatten.length - p ≤ bound

instance (bound : ℕ) (chunks : List Bytes) : Decidable (OpenWithin bound chunks) :=
  inferInstanceAs (Decidable (∀ pre ∈ chunks.inits, ∀ p < pre.flatten.length, _))

/-- No delta ends inside a marker of the text behind a closing bracket of the marker. -/
def CutsClean (chunks : List Bytes) : Prop :=
  ∀ pre ∈ chunks.inits, ∀ x ∈ steerAckRe.findAll 0 0 chunks.flatten,
    x.1 < pre.flatten.length → pre.flatten.length < x.1 + x.2.width →
      closeBracket ∉ pre.flatten.drop x.1

instance (chunks : List Bytes) : Decidable (CutsClean chunks) :=
  inferInstanceAs (Decidable (∀ pre ∈ chunks.inits,
    ∀ x ∈ steerAckRe.findAll 0 0 chunks.flatten, _))

/-- The calls agree with one call on the whole text: the same text in the end, the same
acknowledgements, and the markers lifted are those of the whole text. -/
structure Agrees (chunks : List Bytes) : Prop where
  text : (feedAll chunks).emitted ++ (feedAll chunks).carry =
    (stripSteerAcks [] chunks.flatten).emit ++ (stripSteerAcks [] chunks.flatten).carry
  acks : (feedAll chunks).acks = (stripSteerAcks [] chunks.flatten).acks
  lifted : (feedAll chunks).lifted = steerAckRe.findAll 0 0 chunks.flatten
  hidden : (feedAll chunks).emitted ++ (feedAll chunks).carry =
    steerAckRe.outside 0 chunks.flatten (steerAckRe.findAll 0 0 chunks.flatten)

/-! ## What the calls keep -/

/-- The text fed is a front that was settled and what is withheld. -/
structure Fed.Sound (f : Fed) (front text : Bytes) : Prop where
  split : text = front ++ f.carry
  fed : f.fed = text.length
  emitted : f.emitted = steerAckRe.outside 0 front f.lifted
  ends : ∀ x ∈ f.lifted, x.1 + x.2.width ≤ front.length
  acks : f.acks = f.lifted.map (·.2.ack)
  shut : closeBracket ∉ f.carry

variable {f : Fed} {front text : Bytes}

theorem Fed.Sound.settled (h : f.Sound front text) : f.fed - f.carry.length = front.length := by
  rw [h.fed, h.split, List.length_append, Nat.add_sub_cancel]

/-- What was emitted and what is withheld is the text without the markers lifted. -/
theorem Fed.Sound.outside (h : f.Sound front text) :
    f.emitted ++ f.carry = steerAckRe.outside 0 text f.lifted := by
  have hsplit := steerAckRe.outside_append (t := f.carry) f.lifted [] (Nat.zero_le _) h.ends
  rw [List.map_nil, List.append_nil] at hsplit
  rw [h.split, hsplit, h.emitted]
  rfl

theorem Fed.Sound.feed (h : f.Sound front text) {delta : Bytes} {hold : ℕ}
    (hout : Stripping (f.carry ++ delta) (stripSteerAcks f.carry delta) hold) :
    (f.feed delta).Sound (front ++ (f.carry ++ delta).take hold) (text ++ delta) where
  split := by
    change _ = _ ++ (stripSteerAcks f.carry delta).carry
    rw [hout.carry, List.append_assoc, List.take_append_drop, h.split, List.append_assoc]
  fed := by
    rw [List.length_append, ← h.fed]
    rfl
  emitted := by
    simp only [Fed.feed]
    rw [h.settled, h.emitted, hout.emit]
    exact (steerAckRe.outside_append _ _ (Nat.zero_le _) h.ends).symm
  ends x hx := by
    have hlength : (front ++ (f.carry ++ delta).take hold).length = front.length + hold := by
      rw [List.length_append, List.length_take, Nat.min_eq_left hout.le]
    rw [hlength]
    rcases List.mem_append.mp hx with hx | hx
    · have hend := h.ends x hx
      omega
    · obtain ⟨y, hy, rfl⟩ := List.mem_map.mp hx
      have hend := hout.ends y hy
      rw [h.settled]
      simp only [Matcher.moved]
      omega
  acks := by
    simp only [Fed.feed]
    rw [List.map_append, ← h.acks, hout.acks, List.map_map]
    rfl
  shut := hout.shut

/-- Over a run from a sound state the settled front only grows, and what is lifted later stands
behind it. -/
theorem Fed.Sound.run (h : f.Sound front text) (chunks : List Bytes) :
    ∃ front', (runFrom Fed.feed f chunks).Sound front' (text ++ chunks.flatten) ∧
      front.length ≤ front'.length ∧ ∃ later,
        (runFrom Fed.feed f chunks).lifted = f.lifted ++ later ∧
          ∀ x ∈ later, front.length ≤ x.1 := by
  induction chunks using List.reverseRecOn with
  | nil =>
    refine ⟨front, ?_, Nat.le_refl _, [], (List.append_nil _).symm, by simp⟩
    rw [List.flatten_nil, List.append_nil]
    exact h
  | append_singleton chunks delta ih =>
    obtain ⟨front', hsound, hgrows, later, hlater, hbehind⟩ := ih
    rw [runFrom_concat]
    generalize runFrom Fed.feed f chunks = g at hsound hlater
    obtain ⟨hold, hout⟩ := stripSteerAcks_spec g.carry delta
    refine ⟨front' ++ (g.carry ++ delta).take hold, ?_, ?_, later ++
      (steerAckRe.findAll 0 0 (g.carry ++ delta)).map (Matcher.moved (g.fed - g.carry.length)),
      ?_, fun x hx => ?_⟩
    · have hnext := hsound.feed hout
      simpa [List.append_assoc] using hnext
    · rw [List.length_append]
      omega
    · rw [← List.append_assoc, ← hlater]
      rfl
    · rcases List.mem_append.mp hx with hx | hx
      · exact hbehind x hx
      · obtain ⟨y, -, rfl⟩ := List.mem_map.mp hx
        rw [hsound.settled]
        simp only [Matcher.moved]
        omega

theorem sound_start : ({} : Fed).Sound [] [] where
  split := rfl
  fed := rfl
  emitted := rfl
  ends := by simp
  acks := rfl
  shut := List.not_mem_nil

theorem sound_feedAll (chunks : List Bytes) :
    ∃ front, (feedAll chunks).Sound front chunks.flatten := by
  obtain ⟨front, hsound, -⟩ := sound_start.run chunks
  exact ⟨front, hsound⟩

/-! ## Markers of the whole text -/

/-- A marker closes with a bracket, seen from anywhere inside it. -/
theorem closeBracket_mem_drop {s : Bytes} {k : SteerMarker} {i j : ℕ} (h : AtMarker k (s.drop i))
    (hj : j < i + k.width) : closeBracket ∈ s.drop j := by
  obtain ⟨mark, rest, hs, hwidth⟩ : ∃ mark rest, s.drop i = mark ++ closeBracket :: rest ∧
      mark.length + 1 = k.width := by
    have hlength := steerAckRe.width_le (readSteerAck_iff.mpr h)
    obtain ⟨mark, rest, heq, hmark, -⟩ := h.stretch
    generalize s.drop i = t at h heq
    obtain ⟨run, c, more, rest', hrun, hid, hmore, rfl⟩ := h
    refine ⟨steerAckPrefix ++ (run ++ (bytesOf ": " ++ c :: more)), rest', by simp, ?_⟩
    have hprefix : steerAckPrefix.length =
        (bytesOf "[STEERING ").length + (bytesOf "steer-").length := by decide +kernel
    simp only [SteerMarker.width, List.length_append, List.length_cons, hprefix]
    omega
  have hget : s[i + mark.length]? = some closeBracket := by
    rw [← List.getElem?_drop, hs]
    simp
  rw [List.mem_iff_getElem?]
  refine ⟨i + mark.length - j, ?_⟩
  rw [List.getElem?_drop, Nat.add_sub_cancel' (by omega), hget]

theorem findAll_eq_nil {s : Bytes} (h : closeBracket ∉ s) : steerAckRe.findAll 0 0 s = [] := by
  rw [List.eq_nil_iff_forall_not_mem]
  intro x hx
  obtain ⟨i, -, -, -, hread⟩ := steerAckRe.mem_findAll hx
  have hmark := readSteerAck_iff.mp hread
  have hclose := closeBracket_mem_drop (j := i) hmark (by
    have hpos := steerAckRe.width_pos hread
    exact Nat.lt_add_of_pos_right hpos)
  exact h (List.mem_of_mem_drop hclose)

/-- The markers of the whole text are those lifted, and those still to be read. -/
def Fed.Reads (f : Fed) (front : Bytes) (text rest : Bytes) : Prop :=
  steerAckRe.findAll 0 0 (text ++ rest) =
    f.lifted ++ (steerAckRe.findAll 0 0 (f.carry ++ rest)).map (Matcher.moved front.length)

/-- A call reads on where the markers found behind its delta are not cut behind a bracket. -/
theorem Fed.Sound.reads (h : f.Sound front text) {delta rest : Bytes} {hold : ℕ}
    (hout : Stripping (f.carry ++ delta) (stripSteerAcks f.carry delta) hold)
    (hreads : f.Reads front text (delta ++ rest))
    (hclean : ∀ x ∈ steerAckRe.findAll 0 0 (text ++ delta ++ rest),
      x.1 < (text ++ delta).length → (text ++ delta).length < x.1 + x.2.width →
        closeBracket ∉ (text ++ delta).drop x.1)
    (hopen : ∀ p < (text ++ delta).length, couldBecomeSteerAck ((text ++ delta).drop p) = true →
      (text ++ delta).length - p ≤ maxSteerCarry) :
    (f.feed delta).Reads (front ++ (f.carry ++ delta).take hold) (text ++ delta) rest := by
  have htext : text ++ delta = front ++ (f.carry ++ delta) := by
    rw [h.split, List.append_assoc]
  have hread : steerAckRe.findAll 0 0 (text ++ delta ++ rest) = f.lifted ++
      (steerAckRe.findAll 0 0 (f.carry ++ delta ++ rest)).map (Matcher.moved front.length) := by
    rw [List.append_assoc, List.append_assoc]
    exact hreads
  have hsettled := h.settled
  simp only [Fed.Reads, Fed.feed]
  rw [hsettled]
  generalize f.carry ++ delta = joined at hout htext hread ⊢
  have hcut : steerAckRe.findAll 0 0 (joined ++ rest) = steerAckRe.findAll 0 0 joined ++
      steerAckRe.findAll (0 + hold) 0 ((joined ++ rest).drop hold) := by
    apply steerAckRe.findAll_append hout.le (Nat.zero_le _)
    · intro x hx
      rw [Nat.zero_add]
      exact hout.ends x hx
    intro x hx hlt
    rw [Nat.zero_add] at hlt ⊢
    by_contra hlong
    obtain ⟨i, hpos, -, -, hmark⟩ := steerAckRe.mem_findAll hx
    rw [Nat.zero_add] at hpos
    have hle := hout.le
    have hmark := readSteerAck_iff.mp hmark
    rw [← hpos, List.drop_append_of_le_length (by omega)] at hmark
    -- The marker lies across the end of the delta, so no bracket of it was fed.
    have hnone : closeBracket ∉ joined.drop x.1 := by
      have hmem : (front.length + x.1, x.2) ∈ steerAckRe.findAll 0 0 (text ++ delta ++ rest) := by
        rw [hread]
        exact List.mem_append_right _ (List.mem_map.mpr ⟨x, hx, rfl⟩)
      have hcross := hclean _ hmem
      rw [htext, List.length_append, List.drop_length_add_append] at hcross
      exact hcross (by simp only; omega) (by
        have hwidth : steerAckRe.width x.2 = x.2.width := rfl
        simp only
        omega)
    have hcould := couldBecome_of_atMarker hmark hnone
    have hbehind : ∀ y ∈ steerAckRe.findAll 0 0 joined, y.1 + y.2.width ≤ x.1 := by
      intro y hy
      by_contra hinside
      obtain ⟨j, hposy, -, -, hready⟩ := steerAckRe.mem_findAll hy
      rw [Nat.zero_add] at hposy
      rw [← hposy] at hready
      exact hnone (closeBracket_mem_drop (readSteerAck_iff.mp hready) (by omega))
    obtain ⟨j, hcouldj, hover⟩ := hout.first x.1 hlt hbehind hcould
    rw [List.length_drop] at hover
    have hbound := hopen (front.length + j)
    rw [htext, List.length_append, List.drop_length_add_append] at hbound
    have hwithin := hbound (by omega) hcouldj
    omega
  rw [hread, hcut, List.map_append, ← List.append_assoc]
  congr 1
  rw [Nat.zero_add, List.drop_append_of_le_length hout.le, hout.carry]
  have hmoved := steerAckRe.findAll_moved hold 0 0 (joined.drop hold ++ rest)
  rw [Nat.add_zero] at hmoved
  rw [hmoved, List.map_map, List.length_append, List.length_take, Nat.min_eq_left hout.le]
  apply List.map_congr_left
  intro x hx
  simp [Matcher.moved, Nat.add_assoc]

/-- Where no delta cuts a marker behind a bracket, the markers lifted are those of the whole. -/
theorem reads_feedAll {chunks : List Bytes} (hopen : OpenWithin maxSteerCarry chunks)
    (hclean : CutsClean chunks) {pre rest : List Bytes} (hpre : pre ++ rest = chunks) :
    ∃ front, (feedAll pre).Sound front pre.flatten ∧
      (feedAll pre).Reads front pre.flatten rest.flatten := by
  induction pre using List.reverseRecOn generalizing rest with
  | nil =>
    refine ⟨[], sound_start, ?_⟩
    have hmoved := steerAckRe.findAll_moved 0 0 0 rest.flatten
    exact hmoved
  | append_singleton pre delta ih =>
    have hbefore : pre ++ delta :: rest = chunks := by
      rw [← hpre]
      simp
    obtain ⟨front, hsound, hreads⟩ := ih hbefore
    obtain ⟨hold, hout⟩ := stripSteerAcks_spec (feedAll pre).carry delta
    have hflat : (pre ++ [delta]).flatten = pre.flatten ++ delta := by simp
    have hmem : pre ++ [delta] ∈ chunks.inits := (List.mem_inits _ _).mpr ⟨rest, hpre⟩
    have hwhole : chunks.flatten = pre.flatten ++ delta ++ rest.flatten := by
      rw [← hpre, List.flatten_append, hflat]
    have hcut := hclean _ hmem
    have hheld := hopen _ hmem
    rw [hflat, hwhole] at hcut
    rw [hflat] at hheld ⊢
    rw [feedAll, runFrom_concat]
    exact ⟨_, hsound.feed hout, hsound.reads hout hreads hcut hheld⟩

/-- A marker cut behind a bracket of it is never lifted. -/
theorem cutsClean_of_lifted {chunks : List Bytes}
    (h : (feedAll chunks).lifted = steerAckRe.findAll 0 0 chunks.flatten) : CutsClean chunks := by
  intro pre hpre x hx hbefore hcross hclose
  obtain ⟨rest, hrest⟩ := (List.mem_inits _ _).mp hpre
  obtain ⟨front, hsound⟩ := sound_feedAll pre
  obtain ⟨front', -, -, later, hlater, hbehind⟩ := hsound.run rest
  have hrun : runFrom Fed.feed (feedAll pre) rest = feedAll chunks := by
    rw [feedAll, ← runFrom_append, hrest, feedAll]
  have hlength := congrArg List.length hsound.split
  rw [List.length_append] at hlength
  rw [← h, ← hrun, hlater] at hx
  rcases List.mem_append.mp hx with hx | hx
  · have hend := hsound.ends x hx
    omega
  · -- Behind the settled front lies the carry, which holds no bracket.
    have hstart := hbehind x hx
    rw [hsound.split, List.drop_append, List.drop_eq_nil_of_le hstart, List.nil_append] at hclose
    exact hsound.shut (List.mem_of_mem_drop hclose)

/-- For every text and every way of splitting it into deltas that leave no candidate open for more
than the bound: the calls agree with one call on the whole text exactly if no delta ends inside a
marker behind a closing bracket of it. -/
theorem feed_agrees_iff (chunks : List Bytes) (hopen : OpenWithin maxSteerCarry chunks) :
    Agrees chunks ↔ CutsClean chunks := by
  refine ⟨fun h => cutsClean_of_lifted h.lifted, fun hclean => ?_⟩
  obtain ⟨front, hsound, hreads⟩ := reads_feedAll hopen hclean (List.append_nil chunks)
  obtain ⟨hold, hout⟩ := stripSteerAcks_spec [] chunks.flatten
  rw [List.nil_append] at hout
  have hlifted : (feedAll chunks).lifted = steerAckRe.findAll 0 0 chunks.flatten := by
    rw [Fed.Reads, List.flatten_nil, List.append_nil, List.append_nil,
      findAll_eq_nil hsound.shut, List.map_nil, List.append_nil] at hreads
    exact hreads.symm
  have hwhole : (stripSteerAcks [] chunks.flatten).emit ++
      (stripSteerAcks [] chunks.flatten).carry =
        steerAckRe.outside 0 chunks.flatten (steerAckRe.findAll 0 0 chunks.flatten) := by
    have hsplit := steerAckRe.outside_append (s := chunks.flatten.take hold)
      (t := chunks.flatten.drop hold) (steerAckRe.findAll 0 0 chunks.flatten) [] (Nat.zero_le _)
      fun x hx => by
        rw [List.length_take, Nat.min_eq_left hout.le]
        exact hout.ends x hx
    rw [List.take_append_drop, List.map_nil, List.append_nil] at hsplit
    rw [hsplit, hout.emit, hout.carry]
    rfl
  have hhidden := hsound.outside
  rw [hlifted] at hhidden
  exact ⟨hhidden.trans hwhole.symm, by rw [hsound.acks, hlifted, hout.acks], hlifted, hhidden⟩

/-- A marker cut at two places, in its prefix and in its body. -/
theorem feed_agrees_split_marker :
    Agrees [bytesOf "ok [STEE", bytesOf "RING steer-1: do", bytesOf "ne] end"] ∧
      (feedAll [bytesOf "ok [STEE", bytesOf "RING steer-1: do", bytesOf "ne] end"]).emitted =
        bytesOf "ok  end" :=
  ⟨(feed_agrees_iff _ (by decide +kernel)).mpr (by decide +kernel), by decide +kernel⟩

/-- An id that holds a closing bracket, cut behind it: the text is emitted and nothing lifted,
where one call lifts the whole of it. -/
theorem cut_bracket_leaks :
    let chunks := [bytesOf "[STEERING steer-a]", bytesOf "b: x]"]
    OpenWithin maxSteerCarry chunks ∧ (feedAll chunks).emitted = chunks.flatten ∧
      (feedAll chunks).carry = [] ∧ (feedAll chunks).acks = [] ∧
      stripSteerAcks [] chunks.flatten =
        { emit := [], carry := [], acks := [⟨bytesOf "steer-a]b", bytesOf "x"⟩] } ∧
      ¬ Agrees chunks := by
  intro chunks
  have hacks : (feedAll chunks).acks ≠ (stripSteerAcks [] chunks.flatten).acks := by decide +kernel
  exact ⟨by decide +kernel, by decide +kernel, by decide +kernel, by decide +kernel,
    by decide +kernel, fun h => hacks h.acks⟩

/-! ## Every byte -/

/-- The carry that a call answers is the end of what it saw, within the bound. -/
theorem stripSteerAcks_carry (carry incoming : Bytes) :
    (stripSteerAcks carry incoming).carry <:+ carry ++ incoming ∧
      (stripSteerAcks carry incoming).carry.length ≤ maxSteerCarry := by
  constructor
  · obtain ⟨hold, hout⟩ := stripSteerAcks_spec carry incoming
    rw [hout.carry]
    exact List.drop_suffix hold _
  · simp only [stripSteerAcks]
    split
    · exact Nat.zero_le _
    · split
      · exact Nat.zero_le _
      · rename_i hwithin
        exact Nat.le_of_not_lt hwithin

/-- The markers lifted stand apart in the text, each a complete one where it stands. -/
structure Fed.Marked (f : Fed) (text : Bytes) : Prop where
  apart : f.lifted.Pairwise fun x y => x.1 + x.2.width ≤ y.1
  read : ∀ x ∈ f.lifted, steerAckRe.read (text.drop x.1) = some x.2

theorem Fed.Marked.feed (hm : f.Marked text) (h : f.Sound front text) (delta : Bytes) :
    (f.feed delta).Marked (text ++ delta) where
  apart := by
    simp only [Fed.feed]
    rw [List.pairwise_append, h.settled]
    refine ⟨hm.apart, ?_, fun x hx y hy => ?_⟩
    · apply List.Pairwise.map (Matcher.moved front.length) _ (steerAckRe.findAll_pairwise 0 0 _)
      intro x y hxy
      have hwidth : x.1 + x.2.width ≤ y.1 := hxy
      simp only [Matcher.moved]
      omega
    · obtain ⟨z, -, rfl⟩ := List.mem_map.mp hy
      have hend := h.ends x hx
      simp only [Matcher.moved]
      omega
  read x hx := by
    have hfront : front.length ≤ text.length := by
      rw [h.split, List.length_append]
      exact Nat.le_add_right _ _
    simp only [Fed.feed] at hx
    rcases List.mem_append.mp hx with hx | hx
    · have hend := h.ends x hx
      rw [List.drop_append_of_le_length (by omega)]
      exact steerAckRe.read_append (hm.read x hx) delta
    · obtain ⟨y, hy, rfl⟩ := List.mem_map.mp hx
      obtain ⟨i, hpos, -, -, hread⟩ := steerAckRe.mem_findAll hy
      rw [Nat.zero_add] at hpos
      simp only [Matcher.moved]
      rw [h.settled, h.split, List.append_assoc, List.drop_length_add_append, hpos]
      exact hread

theorem marked_feedAll (chunks : List Bytes) : (feedAll chunks).Marked chunks.flatten := by
  induction chunks using List.reverseRecOn with
  | nil => exact ⟨.nil, by simp [feedAll, runFrom]⟩
  | append_singleton chunks delta ih =>
    obtain ⟨front, hsound⟩ := sound_feedAll chunks
    have hflat : (chunks ++ [delta]).flatten = chunks.flatten ++ delta := by simp
    rw [hflat, feedAll, runFrom_concat]
    exact ih.feed hsound delta

/-- What the calls over the deltas of a text emit and withhold is the text without the markers
lifted; these stand apart, each is a whole marker, and each is reported once, in order; and what a
call withholds is the end of what it saw. -/
structure Accounted (chunks : List Bytes) : Prop where
  text : (feedAll chunks).emitted ++ (feedAll chunks).carry =
    steerAckRe.outside 0 chunks.flatten (feedAll chunks).lifted
  apart : (feedAll chunks).lifted.Pairwise fun x y => x.1 + x.2.width ≤ y.1
  within : ∀ x ∈ (feedAll chunks).lifted, x.1 + x.2.width ≤ chunks.flatten.length
  marks : ∀ x ∈ (feedAll chunks).lifted,
    readSteerAck ((chunks.flatten.drop x.1).take x.2.width) = some x.2
  acks : (feedAll chunks).acks = (feedAll chunks).lifted.map fun x => x.2.ack
  carries : ∀ pre delta, pre ++ [delta] <+: chunks →
    (feedAll (pre ++ [delta])).carry <:+ (feedAll pre).carry ++ delta ∧
      (feedAll (pre ++ [delta])).carry.length ≤ maxSteerCarry

/-- For every sequence of deltas, whatever is left open and for however long. -/
theorem feed_accounted (chunks : List Bytes) : Accounted chunks := by
  obtain ⟨front, hsound⟩ := sound_feedAll chunks
  have hmarked := marked_feedAll chunks
  constructor
  · exact hsound.outside
  · exact hmarked.apart
  · intro x hx
    have hend := hsound.ends x hx
    have hsplit := congrArg List.length hsound.split
    rw [List.length_append] at hsplit
    omega
  · intro x hx
    have hsettled := steerAckRe.settled (hmarked.read x hx) []
    rwa [List.append_nil] at hsettled
  · exact hsound.acks
  · intro pre delta _
    have hcarry := stripSteerAcks_carry (feedAll pre).carry delta
    rw [feedAll, runFrom_concat]
    exact hcarry

end Marotte.Steers
