import Marotte.TurnLog.Turn
import Marotte.Library.Matching
import Mathlib.Data.List.TakeWhile

/-! # The steering acknowledgement marker

Text arrives as bytes in deltas, split anywhere. Complete markers are taken out of what is withheld
and what arrives, and the bytes that could still become one are withheld again.
-/
namespace Marotte.Steers

abbrev Bytes := List UInt8

def bytesOf (s : String) : Bytes := s.toUTF8.data.toList

/-- The bytes a carry may hold. -/
def maxSteerCarry : ℕ := 8192

def steerAckPrefix : Bytes := bytesOf TurnLog.steerAckPrefix

def openBracket : UInt8 := 0x5B

def closeBracket : UInt8 := 0x5D

/-- A complete marker: the two groups of its pattern. -/
structure SteerMarker where
  id : Bytes
  body : Bytes
  deriving DecidableEq, Repr

def SteerMarker.width (k : SteerMarker) : ℕ :=
  (bytesOf "[STEERING ").length + k.id.length + (bytesOf ": ").length + k.body.length + 1

/-- A byte of an id: no white space, no colon. -/
def idByte (c : UInt8) : Bool :=
  c ≠ 0x09 && c ≠ 0x0A && c ≠ 0x0C && c ≠ 0x0D && c ≠ 0x20 && c ≠ 0x3A

def cutPrefix (p s : Bytes) : Option Bytes :=
  if p.isPrefixOf s then some (s.drop p.length) else none

/-- The marker at the front of a text: a run of id bytes, a colon and a blank, and a body of one
byte or more up to the first closing bracket behind its first byte. -/
def readSteerAck (s : Bytes) : Option SteerMarker :=
  match cutPrefix steerAckPrefix s with
  | none => none
  | some rest =>
    let run := rest.takeWhile idByte
    match cutPrefix (bytesOf ": ") (rest.drop run.length) with
    | none => none
    | some [] => none
    | some (c :: tail) =>
      let more := tail.takeWhile (· ≠ closeBracket)
      if run = [] ∨ more.length = tail.length then none
      else some { id := bytesOf "steer-" ++ run, body := c :: more }

/-- The encodings of the white space characters. -/
def whiteSpace : List Bytes :=
  (['\t', '\n', '\x0b', '\x0c', '\r', ' ', '\u0085', '\u00a0', '\u1680', '\u2000', '\u2001',
    '\u2002', '\u2003', '\u2004', '\u2005', '\u2006', '\u2007', '\u2008', '\u2009', '\u200a',
    '\u2028', '\u2029', '\u202f', '\u205f', '\u3000'] : List Char).map
      (fun c => bytesOf (String.singleton c))

/-- Drops runes of the kinds given off the front, at most `n` of them. -/
def dropRunes (runes : List Bytes) : ℕ → Bytes → Bytes
  | 0, s => s
  | n + 1, s =>
    match runes.find? (fun rune => rune.isPrefixOf s) with
    | some rune => dropRunes runes n (s.drop rune.length)
    | none => s

def trimSpace (s : Bytes) : Bytes :=
  let front := dropRunes whiteSpace s.length s
  (dropRunes (whiteSpace.map List.reverse) front.length front.reverse).reverse

/-- One acknowledgement lifted out of the text. -/
structure SteerAck where
  steerID : Bytes
  text : Bytes
  deriving DecidableEq, Repr

def SteerMarker.ack (k : SteerMarker) : SteerAck := { steerID := k.id, text := trimSpace k.body }

/-- Whether a text that starts at a `[` might still turn into a complete marker. -/
def couldBecomeSteerAck (s : Bytes) : Bool :=
  if s.length < steerAckPrefix.length then steerAckPrefix.take s.length = s
  else if steerAckPrefix.isPrefixOf s = false then false
  else !s.contains closeBracket

/-- The text from the first `[` on that could still become a marker. -/
def openCandidate : Bytes → Option Bytes
  | [] => none
  | c :: s =>
    if c = openBracket ∧ couldBecomeSteerAck (c :: s) = true then some (c :: s)
    else openCandidate s

/-! ## The marker's pattern -/

/-- A text with a complete marker at its front. -/
inductive AtMarker (k : SteerMarker) : Bytes → Prop
  | intro (run : Bytes) (c : UInt8) (more rest : Bytes) (hrun : run ≠ [])
      (hid : ∀ x ∈ run, idByte x = true) (hmore : closeBracket ∉ more)
      (hk : k = { id := bytesOf "steer-" ++ run, body := c :: more }) :
      AtMarker k (steerAckPrefix ++ (run ++ (bytesOf ": " ++ c :: (more ++ closeBracket :: rest))))

theorem cutPrefix_eq_some {p s rest : Bytes} : cutPrefix p s = some rest ↔ s = p ++ rest := by
  unfold cutPrefix
  constructor
  · intro h
    split at h
    · rename_i hpre
      obtain ⟨tail, rfl⟩ := List.isPrefixOf_iff_prefix.mp hpre
      rw [Option.some.injEq, List.drop_left] at h
      rw [h]
    · cases h
  · rintro rfl
    rw [if_pos (List.isPrefixOf_iff_prefix.mpr (List.prefix_append p rest)), List.drop_left]

theorem readSteerAck_iff {s : Bytes} {k : SteerMarker} : readSteerAck s = some k ↔ AtMarker k s := by
  constructor
  · intro h
    unfold readSteerAck at h
    split at h
    · cases h
    rename_i rest hrest
    simp only at h
    split at h
    · cases h
    · cases h
    rename_i c tail hsep
    split at h
    · cases h
    rename_i hfull
    obtain ⟨hrun, hopen⟩ : rest.takeWhile idByte ≠ [] ∧
        (tail.takeWhile (· ≠ closeBracket)).length ≠ tail.length := by simpa using hfull
    rw [cutPrefix_eq_some] at hrest hsep
    have hwhole : rest = rest.takeWhile idByte ++ rest.drop (rest.takeWhile idByte).length := by
      obtain ⟨tail, htail⟩ := List.takeWhile_prefix (l := rest) idByte
      have hdrop := congrArg (List.drop (rest.takeWhile idByte).length) htail
      rw [List.drop_left] at hdrop
      rw [← hdrop, htail]
    have hclose : ∃ rest', tail = tail.takeWhile (· ≠ closeBracket) ++ closeBracket :: rest' := by
      have hsplit := List.takeWhile_append_dropWhile (p := (· ≠ closeBracket)) (l := tail)
      cases hdrop : tail.dropWhile (· ≠ closeBracket) with
      | nil =>
        rw [hdrop, List.append_nil] at hsplit
        exact absurd (congrArg List.length hsplit) hopen
      | cons d rest' =>
        have hd : d = closeBracket := by
          have hhead := List.head?_dropWhile_not (· ≠ closeBracket) tail
          rw [hdrop] at hhead
          simpa using hhead
        rw [hdrop, hd] at hsplit
        exact ⟨rest', hsplit.symm⟩
    obtain ⟨rest', htail⟩ := hclose
    rw [hrest, hwhole, hsep]
    rw [htail]
    simp only [Option.some.injEq] at h
    refine .intro _ c _ rest' hrun (fun x hx => List.mem_takeWhile_imp hx) (fun hx => ?_) h.symm
    have hne := List.mem_takeWhile_imp hx
    simp at hne
  · rintro ⟨run, c, more, rest, hrun, hid, hmore, rfl⟩
    have htake : (run ++ (bytesOf ": " ++ c :: (more ++ closeBracket :: rest))).takeWhile idByte =
        run := by
      rw [List.takeWhile_append_of_pos hid]
      exact List.append_nil run
    have hbody : (more ++ closeBracket :: rest).takeWhile (· ≠ closeBracket) = more := by
      rw [List.takeWhile_append_of_pos]
      · simp
      · intro x hx
        have hne : x ≠ closeBracket := fun heq => hmore (heq ▸ hx)
        simpa using hne
    unfold readSteerAck
    rw [cutPrefix_eq_some.mpr rfl]
    simp only
    rw [htake, List.drop_left, cutPrefix_eq_some.mpr rfl]
    simp only
    rw [hbody, if_neg]
    simp [hrun]

theorem AtMarker.stretch {s : Bytes} {k : SteerMarker} (h : AtMarker k s) :
    ∃ mark rest, s = mark ++ rest ∧ mark.length = k.width ∧ ∀ t, AtMarker k (mark ++ t) := by
  obtain ⟨run, c, more, rest, hrun, hid, hmore, rfl⟩ := h
  refine ⟨steerAckPrefix ++ (run ++ (bytesOf ": " ++ c :: (more ++ [closeBracket]))), rest,
    by simp, ?_, fun t => ?_⟩
  · have hprefix : steerAckPrefix.length =
        (bytesOf "[STEERING ").length + (bytesOf "steer-").length := by decide +kernel
    simp only [SteerMarker.width, List.length_append, List.length_cons, List.length_nil, hprefix]
    omega
  · have hmark := AtMarker.intro run c more t hrun hid hmore rfl
    simpa using hmark

/-- `\[STEERING (steer-[^\s:]+): (.+?)\]`, whose body may hold any byte. -/
def steerAckRe : Matcher UInt8 SteerMarker where
  read := readSteerAck
  width := SteerMarker.width
  width_pos _ := Nat.succ_pos _
  width_le h := by
    obtain ⟨mark, rest, rfl, hlength, -⟩ := (readSteerAck_iff.mp h).stretch
    rw [List.length_append, hlength]
    omega
  settled h t := by
    obtain ⟨mark, rest, rfl, hlength, hmark⟩ := (readSteerAck_iff.mp h).stretch
    rw [← hlength, List.take_left]
    exact readSteerAck_iff.mpr (hmark t)

/-! ## Open candidates -/

theorem closeBracket_notMem_of_couldBecome {s : Bytes} (h : couldBecomeSteerAck s = true) :
    closeBracket ∉ s := by
  unfold couldBecomeSteerAck at h
  split at h
  · have hshort : steerAckPrefix.take s.length = s := by simpa using h
    rw [← hshort]
    intro hmem
    have hnone : closeBracket ∉ steerAckPrefix := by decide +kernel
    exact hnone (List.mem_of_mem_take hmem)
  split at h
  · cases h
  · simpa using h

theorem openBracket_of_couldBecome {c : UInt8} {s : Bytes}
    (h : couldBecomeSteerAck (c :: s) = true) : c = openBracket := by
  have hprefix : ∃ tail, steerAckPrefix = openBracket :: tail := ⟨steerAckPrefix.tail, by
    decide +kernel⟩
  obtain ⟨tail, htail⟩ := hprefix
  unfold couldBecomeSteerAck at h
  rw [htail] at h
  split at h
  · have hshort : (openBracket :: tail).take (s.length + 1) = c :: s := by simpa using h
    rw [List.take_succ_cons] at hshort
    exact (List.cons.inj hshort).1.symm
  split at h
  · cases h
  · rename_i hpre
    rw [Bool.not_eq_false, List.isPrefixOf_iff_prefix] at hpre
    obtain ⟨rest, hrest⟩ := hpre
    exact (List.cons.inj hrest).1.symm

/-- The front of a marker that ends before a closing bracket is a candidate. -/
theorem couldBecome_of_atMarker {s t : Bytes} {k : SteerMarker} (h : AtMarker k (s ++ t))
    (hclose : closeBracket ∉ s) : couldBecomeSteerAck s = true := by
  obtain ⟨rest, hrest⟩ : ∃ rest, s ++ t = steerAckPrefix ++ rest := by
    generalize s ++ t = whole at h
    obtain ⟨run, c, more, rest, -⟩ := h
    exact ⟨_, rfl⟩
  unfold couldBecomeSteerAck
  split
  · rename_i hshort
    have htake := congrArg (List.take s.length) hrest
    rw [List.take_left, List.take_append_of_le_length (Nat.le_of_lt hshort)] at htake
    simpa using htake.symm
  · rename_i hlong
    have htake := congrArg (List.take steerAckPrefix.length) hrest
    rw [List.take_left, List.take_append_of_le_length (Nat.le_of_not_lt hlong)] at htake
    have hpre : steerAckPrefix.isPrefixOf s = true := by
      rw [List.isPrefixOf_iff_prefix, ← htake]
      exact List.take_prefix _ _
    rw [if_neg (by simp [hpre])]
    simpa using hclose

theorem openCandidate_none {s : Bytes} (h : openCandidate s = none) :
    ∀ j < s.length, couldBecomeSteerAck (s.drop j) = false := by
  induction s with
  | nil => simp
  | cons c s ih =>
    rw [openCandidate] at h
    split at h
    · cases h
    rename_i hno
    intro j hj
    cases j with
    | zero =>
      rw [Bool.eq_false_iff]
      exact fun hc => hno ⟨openBracket_of_couldBecome hc, hc⟩
    | succ j => exact ih h j (by simpa using hj)

theorem openCandidate_some {s tail : Bytes} (h : openCandidate s = some tail) :
    ∃ i < s.length, tail = s.drop i ∧ couldBecomeSteerAck tail = true ∧
      ∀ j < i, couldBecomeSteerAck (s.drop j) = false := by
  induction s with
  | nil => cases h
  | cons c s ih =>
    rw [openCandidate] at h
    split at h
    · rename_i hopen
      cases h
      exact ⟨0, by simp, rfl, hopen.2, fun j hj => absurd hj (Nat.not_lt_zero j)⟩
    · rename_i hno
      obtain ⟨i, hi, rfl, hcould, hfirst⟩ := ih h
      refine ⟨i + 1, by simpa using hi, rfl, hcould, fun j hj => ?_⟩
      cases j with
      | zero =>
        rw [Bool.eq_false_iff]
        exact fun hc => hno ⟨openBracket_of_couldBecome hc, hc⟩
      | succ j => exact hfirst j (by omega)

/-! ## Stripping -/

/-- The text written so far, the acknowledgements lifted, and the end of the last marker. -/
structure Lifting where
  built : Bytes := []
  acks : List SteerAck := []
  last : ℕ := 0

def lift (joined : Bytes) (l : Lifting) (x : ℕ × SteerMarker) : Lifting where
  built := l.built ++ (joined.drop l.last).take (x.1 - l.last)
  acks := l.acks ++ [x.2.ack]
  last := x.1 + x.2.width

structure Stripped where
  emit : Bytes
  carry : Bytes
  acks : List SteerAck
  deriving DecidableEq, Repr

/-- Takes the complete markers out of what was withheld and what arrives. -/
def stripSteerAcks (carry incoming : Bytes) : Stripped :=
  let joined := carry ++ incoming
  let l := (steerAckRe.findAll 0 0 joined).foldl (lift joined) {}
  let buf := l.built ++ joined.drop l.last
  match openCandidate (buf.drop l.built.length) with
  | none => { emit := buf, carry := [], acks := l.acks }
  | some tail =>
    if maxSteerCarry < tail.length then { emit := buf, carry := [], acks := l.acks }
    else { emit := buf.take (buf.length - tail.length), carry := tail, acks := l.acks }

theorem foldl_lift (joined : Bytes) (found : List (ℕ × SteerMarker)) (l : Lifting) :
    (found.foldl (lift joined) l).built ++ joined.drop (found.foldl (lift joined) l).last =
        l.built ++ steerAckRe.outside l.last joined found ∧
      (found.foldl (lift joined) l).acks = l.acks ++ found.map (·.2.ack) := by
  induction found generalizing l with
  | nil => exact ⟨rfl, (List.append_nil _).symm⟩
  | cons x found ih =>
    obtain ⟨hbuilt, hacks⟩ := ih (lift joined l x)
    rw [List.foldl_cons, hbuilt, hacks]
    constructor
    · exact List.append_assoc ..
    · simp [lift]

/-- The scan for an open candidate starts behind every marker. -/
theorem foldl_lift_last (joined : Bytes) {found : List (ℕ × SteerMarker)} (l : Lifting)
    (hapart : found.Pairwise (fun x y => x.1 + x.2.width ≤ y.1)) :
    (∀ x ∈ found, x.1 + x.2.width ≤ (found.foldl (lift joined) l).last) ∧
      ((found.foldl (lift joined) l).last = l.last ∧ found = [] ∨
        ∃ x ∈ found, (found.foldl (lift joined) l).last = x.1 + x.2.width) := by
  induction found generalizing l with
  | nil => exact ⟨by simp, .inl ⟨rfl, rfl⟩⟩
  | cons x found ih =>
    rw [List.pairwise_cons] at hapart
    obtain ⟨hends, hlast⟩ := ih (lift joined l x) hapart.2
    rw [List.foldl_cons]
    refine ⟨fun y hy => ?_, .inr ?_⟩
    · rcases List.mem_cons.mp hy with rfl | hy
      · rcases hlast with ⟨heq, -⟩ | ⟨z, hz, heq⟩
        · rw [heq]
          exact Nat.le_refl _
        · have hafter := hapart.1 z hz
          omega
      · exact hends y hy
    · rcases hlast with ⟨heq, -⟩ | ⟨z, hz, heq⟩
      · exact ⟨x, List.mem_cons_self, heq⟩
      · exact ⟨z, List.mem_cons_of_mem _ hz, heq⟩

/-- What one call makes of the text it sees: emitted up to `hold` without its markers, withheld
from there on. -/
structure Stripping (joined : Bytes) (out : Stripped) (hold : ℕ) : Prop where
  le : hold ≤ joined.length
  emit : out.emit = steerAckRe.outside 0 (joined.take hold) (steerAckRe.findAll 0 0 joined)
  carry : out.carry = joined.drop hold
  acks : out.acks = (steerAckRe.findAll 0 0 joined).map (·.2.ack)
  ends : ∀ x ∈ steerAckRe.findAll 0 0 joined, x.1 + x.2.width ≤ hold
  shut : closeBracket ∉ out.carry
  first : ∀ i < hold, (∀ x ∈ steerAckRe.findAll 0 0 joined, x.1 + x.2.width ≤ i) →
    couldBecomeSteerAck (joined.drop i) = true →
      ∃ j, couldBecomeSteerAck (joined.drop j) = true ∧ maxSteerCarry < (joined.drop j).length

theorem stripSteerAcks_spec (carry incoming : Bytes) :
    ∃ hold, Stripping (carry ++ incoming) (stripSteerAcks carry incoming) hold := by
  simp only [stripSteerAcks]
  generalize carry ++ incoming = joined
  obtain ⟨hbuilt, hacks⟩ := foldl_lift joined (steerAckRe.findAll 0 0 joined) {}
  obtain ⟨hends, hlast⟩ := foldl_lift_last joined {} (steerAckRe.findAll_pairwise 0 0 joined)
  generalize (steerAckRe.findAll 0 0 joined).foldl (lift joined) {} = l at hbuilt hacks hends hlast
  have hdrop : (l.built ++ joined.drop l.last).drop l.built.length = joined.drop l.last :=
    List.drop_left
  have hwithin : ∀ x ∈ steerAckRe.findAll 0 0 joined, x.1 + x.2.width ≤ joined.length := by
    intro x hx
    have hle := steerAckRe.findAll_le hx
    rwa [Nat.zero_add] at hle
  -- Behind every marker means behind the last one.
  have hbehind : ∀ i, (∀ x ∈ steerAckRe.findAll 0 0 joined, x.1 + x.2.width ≤ i) → l.last ≤ i := by
    intro i hi
    rcases hlast with ⟨heq, -⟩ | ⟨x, hx, heq⟩
    · rw [heq]
      exact Nat.zero_le i
    · rw [heq]
      exact hi x hx
  rw [hdrop]
  simp only [List.nil_append] at hbuilt hacks
  rw [hbuilt]
  have hwhole : ∀ {j : ℕ}, (∀ i, l.last ≤ i → i < joined.length →
      couldBecomeSteerAck (joined.drop i) = true →
        couldBecomeSteerAck (joined.drop j) = true ∧ maxSteerCarry < (joined.drop j).length) →
      Stripping joined ⟨steerAckRe.outside 0 joined (steerAckRe.findAll 0 0 joined), [], l.acks⟩
        joined.length := by
    intro j hover
    constructor
    · exact Nat.le_refl _
    · rw [List.take_length]
    · rw [List.drop_length]
    · exact hacks
    · exact hwithin
    · exact List.not_mem_nil
    · intro i hi hafter hcould
      exact ⟨j, hover i (hbehind i hafter) hi hcould⟩
  have hat : ∀ i, l.last ≤ i → joined.drop i = (joined.drop l.last).drop (i - l.last) := by
    intro i hi
    rw [List.drop_drop, Nat.add_sub_cancel' hi]
  split
  · rename_i hnone
    refine ⟨joined.length, hwhole (j := 0) fun i hle hlt hcould => ?_⟩
    have hno := openCandidate_none hnone (i - l.last) (by rw [List.length_drop]; omega)
    rw [← hat i hle, hcould] at hno
    cases hno
  · rename_i tail hsome
    obtain ⟨i, hi, rfl, hcould, hfirst⟩ := openCandidate_some hsome
    rw [List.length_drop] at hi
    rw [List.drop_drop] at hcould ⊢
    split
    · rename_i hover
      exact ⟨joined.length, hwhole (j := l.last + i) fun _ _ _ _ => ⟨hcould, hover⟩⟩
    · refine ⟨l.last + i, by omega, ?_, rfl, hacks, fun x hx => ?_,
        closeBracket_notMem_of_couldBecome hcould, fun n hn hafter hopen => ?_⟩
      · have hsplit := steerAckRe.outside_append (s := joined.take (l.last + i))
          (t := joined.drop (l.last + i)) (steerAckRe.findAll 0 0 joined) []
          (Nat.zero_le _) (fun x hx => by
            have hend : x.1 + steerAckRe.width x.2 ≤ l.last := hends x hx
            rw [List.length_take]
            omega)
        rw [List.take_append_drop, List.map_nil, List.append_nil] at hsplit
        have hrest : steerAckRe.outside 0 (joined.drop (l.last + i)) [] =
            joined.drop (l.last + i) := rfl
        rw [hsplit, hrest, List.length_append, Nat.add_sub_cancel, List.take_left]
      · have hend := hends x hx
        omega
      · have hle := hbehind n hafter
        have hno := hfirst (n - l.last) (by omega)
        rw [← hat n hle, hopen] at hno
        cases hno

end Marotte.Steers
