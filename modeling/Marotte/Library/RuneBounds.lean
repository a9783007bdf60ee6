import Marotte.Library.Runes

/-! # Where a string of bytes may be cut

The bytes a character begins with and goes on with, the strings that begin one and are too short for
it, and the places where a string is read on each side by itself.
-/
namespace Marotte.Runes

variable {s t x y rest : Bytes} {c d : Char} {b u : UInt8}

/-! ## Bytes -/

/-- The top two bits of a byte within a character are 10. -/
def runeStart (b : UInt8) : Bool :=
  b.toNat / 64 ≠ 2

/-- The size of the character a byte begins, and one for a byte that begins none. -/
def runeSize (b : UInt8) : ℕ :=
  if b < 0xC2 then 1 else if b < 0xE0 then 2 else if b < 0xF0 then 3 else if b < 0xF5 then 4 else 1

/-- The least and the greatest byte that may follow a first one. -/
def acceptRange (b : UInt8) : UInt8 × UInt8 :=
  if b = 0xE0 then (0xA0, 0xBF)
  else if b = 0xED then (0x80, 0x9F)
  else if b = 0xF0 then (0x90, 0xBF)
  else if b = 0xF4 then (0x80, 0x8F)
  else (0x80, 0xBF)

/-- A second byte that no character with the first one has. -/
def badSecond (b b1 : UInt8) : Bool :=
  b1 < (acceptRange b).1 || (acceptRange b).2 < b1

/-- `FullRune`: a string that begins with a character or with an invalid byte. -/
def fullRune : Bytes → Bool
  | [] => false
  | [b] => runeSize b ≤ 1
  | [b, b1] => runeSize b ≤ 2 || badSecond b b1
  | b :: b1 :: b2 :: s => runeSize b ≤ s.length + 3 || badSecond b b1 || (b2 < 0x80 || 0xBF < b2)

theorem fullRune_append (h : fullRune x = true) (y : Bytes) : fullRune (x ++ y) = true := by
  rcases x with - | ⟨b, - | ⟨b1, - | ⟨b2, x⟩⟩⟩
  · contradiction
  · rw [fullRune, decide_eq_true_eq] at h
    rcases y with - | ⟨b1, - | ⟨b2, y⟩⟩
    · simpa [fullRune] using h
    · simp only [List.singleton_append, fullRune, Bool.or_eq_true, decide_eq_true_eq]
      omega
    · simp only [List.singleton_append, fullRune, Bool.or_eq_true, decide_eq_true_eq]
      omega
  · rw [fullRune, Bool.or_eq_true, decide_eq_true_eq] at h
    rcases y with - | ⟨b2, y⟩
    · simpa [fullRune] using h
    · simp only [List.cons_append, List.nil_append, fullRune, Bool.or_eq_true, decide_eq_true_eq]
      rcases h with hsize | hbad
      · exact .inl (.inl (by omega))
      · exact .inl (.inr hbad)
  · simp only [List.cons_append, fullRune, Bool.or_eq_true, decide_eq_true_eq,
      List.length_append] at h ⊢
    exact h.imp_left fun h => h.imp_left fun h => by omega

/-- The bytes of a character as numbers. -/
theorem encode_cases (c : Char) :
    (∃ b, String.utf8EncodeChar c = [b] ∧ b.toNat < 128)
    ∨ (∃ b0 b1, String.utf8EncodeChar c = [b0, b1] ∧ 194 ≤ b0.toNat ∧ b0.toNat < 224
      ∧ 128 ≤ b1.toNat ∧ b1.toNat < 192)
    ∨ (∃ b0 b1 b2, String.utf8EncodeChar c = [b0, b1, b2] ∧ 224 ≤ b0.toNat ∧ b0.toNat < 240
      ∧ 128 ≤ b1.toNat ∧ b1.toNat < 192 ∧ 128 ≤ b2.toNat ∧ b2.toNat < 192
      ∧ (b0.toNat = 224 → 160 ≤ b1.toNat) ∧ (b0.toNat = 237 → b1.toNat < 160))
    ∨ (∃ b0 b1 b2 b3, String.utf8EncodeChar c = [b0, b1, b2, b3] ∧ 240 ≤ b0.toNat
      ∧ b0.toNat < 245 ∧ 128 ≤ b1.toNat ∧ b1.toNat < 192 ∧ 128 ≤ b2.toNat ∧ b2.toNat < 192
      ∧ 128 ≤ b3.toNat ∧ b3.toNat < 192
      ∧ (b0.toNat = 240 → 144 ≤ b1.toNat) ∧ (b0.toNat = 244 → b1.toNat < 144)) := by
  have hvalid := c.valid
  rw [UInt32.isValidChar, Nat.isValidChar] at hvalid
  rw [String.utf8EncodeChar]
  split
  · refine .inl ⟨_, rfl, ?_⟩
    rw [UInt8.toNat_ofNat']
    omega
  · split
    · refine .inr (.inl ⟨_, _, rfl, ?_⟩)
      simp only [UInt8.toNat_ofNat']
      omega
    · split
      · refine .inr (.inr (.inl ⟨_, _, _, rfl, ?_⟩))
        simp only [UInt8.toNat_ofNat']
        omega
      · refine .inr (.inr (.inr ⟨_, _, _, _, rfl, ?_⟩))
        simp only [UInt8.toNat_ofNat']
        omega

theorem runeStart_iff : runeStart b = false ↔ 128 ≤ b.toNat ∧ b.toNat < 192 := by
  simp only [runeStart, ne_eq, decide_eq_false_iff_not, not_not]
  omega

/-- A character begins with a byte that may begin one and goes on with bytes that may not. -/
theorem encode_bytes (c : Char) :
    ∃ u us, String.utf8EncodeChar c = u :: us ∧ runeStart u = true
      ∧ ∀ b ∈ us, runeStart b = false := by
  have hstart : ∀ b : UInt8, b.toNat < 128 ∨ 192 ≤ b.toNat → runeStart b = true := fun b hb => by
    rw [← Bool.not_eq_false, runeStart_iff]
    omega
  rcases encode_cases c with ⟨b, h, hb⟩ | ⟨b0, b1, h, hb⟩ | ⟨b0, b1, b2, h, hb⟩
    | ⟨b0, b1, b2, b3, h, hb⟩
  · exact ⟨b, [], h, hstart b (by omega), fun b hmem => absurd hmem List.not_mem_nil⟩
  · refine ⟨b0, [b1], h, hstart b0 (by omega), ?_⟩
    simp only [List.mem_singleton, forall_eq, runeStart_iff]
    omega
  · refine ⟨b0, [b1, b2], h, hstart b0 (by omega), ?_⟩
    simp only [List.mem_cons, List.not_mem_nil, or_false, forall_eq_or_imp, forall_eq,
      runeStart_iff]
    omega
  · refine ⟨b0, [b1, b2, b3], h, hstart b0 (by omega), ?_⟩
    simp only [List.mem_cons, List.not_mem_nil, or_false, forall_eq_or_imp, forall_eq,
      runeStart_iff]
    omega

theorem badSecond_eq_false {b1 : UInt8} (hlo : 128 ≤ b1.toNat) (hhi : b1.toNat < 192)
    (h224 : b.toNat = 224 → 160 ≤ b1.toNat) (h237 : b.toNat = 237 → b1.toNat < 160)
    (h240 : b.toNat = 240 → 144 ≤ b1.toNat) (h244 : b.toNat = 244 → b1.toNat < 144) :
    badSecond b b1 = false := by
  simp only [badSecond, acceptRange, ← UInt8.toNat_inj, UInt8.reduceToNat]
  repeat' split
  all_goals
    simp only [Bool.or_eq_false_iff, decide_eq_false_iff_not, UInt8.lt_iff_toNat_lt,
      UInt8.reduceToNat]
    omega

theorem runeSize_of_ge (h : 194 ≤ b.toNat) :
    runeSize b = if b.toNat < 224 then 2 else if b.toNat < 240 then 3
      else if b.toNat < 245 then 4 else 1 := by
  simp only [runeSize, UInt8.lt_iff_toNat_lt, UInt8.reduceToNat]
  rw [if_neg (by omega)]

/-- What begins a character and is too short for it is not full. -/
theorem not_fullRune (h : String.utf8EncodeChar c = x ++ y) (hy : y ≠ []) :
    fullRune x = false := by
  obtain ⟨v, y, rfl⟩ := List.exists_cons_of_ne_nil hy
  rcases encode_cases c with ⟨b, hc, -⟩ | ⟨b0, b1, hc, hb⟩ | ⟨b0, b1, b2, hc, hb⟩
    | ⟨b0, b1, b2, b3, hc, hb⟩
  all_goals rw [hc] at h
  · rcases x with - | ⟨a0, x⟩
    · rfl
    · simp at h
  · rcases x with - | ⟨a0, - | ⟨a1, x⟩⟩
    · rfl
    · obtain rfl := (List.cons.inj h).1
      rw [fullRune, runeSize_of_ge hb.1, if_pos (by omega)]
      rfl
    · simp at h
  · rcases x with - | ⟨a0, - | ⟨a1, - | ⟨a2, x⟩⟩⟩
    · rfl
    · obtain rfl := (List.cons.inj h).1
      rw [fullRune, runeSize_of_ge (by omega), if_neg (by omega), if_pos (by omega)]
      rfl
    · simp only [List.cons_append, List.cons.injEq] at h
      obtain ⟨rfl, rfl, -⟩ := h
      rw [fullRune, runeSize_of_ge (by omega), if_neg (by omega), if_pos (by omega),
        badSecond_eq_false (by omega) (by omega) (by omega) (by omega) (by omega) (by omega)]
      rfl
    · simp at h
  · rcases x with - | ⟨a0, - | ⟨a1, - | ⟨a2, - | ⟨a3, x⟩⟩⟩⟩
    · rfl
    · obtain rfl := (List.cons.inj h).1
      rw [fullRune, runeSize_of_ge (by omega), if_neg (by omega), if_neg (by omega),
        if_pos (by omega)]
      rfl
    · simp only [List.cons_append, List.cons.injEq] at h
      obtain ⟨rfl, rfl, -⟩ := h
      rw [fullRune, runeSize_of_ge (by omega), if_neg (by omega), if_neg (by omega),
        if_pos (by omega),
        badSecond_eq_false (by omega) (by omega) (by omega) (by omega) (by omega) (by omega)]
      rfl
    · simp only [List.cons_append, List.cons.injEq] at h
      obtain ⟨rfl, rfl, rfl, -⟩ := h
      have hthird : (b2 < 0x80 || 0xBF < b2) = false := by
        simp only [Bool.or_eq_false_iff, decide_eq_false_iff_not, UInt8.lt_iff_toNat_lt,
          UInt8.reduceToNat]
        omega
      rw [fullRune, runeSize_of_ge (by omega), if_neg (by omega), if_neg (by omega),
        if_pos (by omega), hthird,
        badSecond_eq_false (by omega) (by omega) (by omega) (by omega) (by omega) (by omega)]
      rfl
    · simp at h

/-! ## Cuts -/

/-- A byte that begins no character begins none before a byte that may begin one. -/
theorem decodeRune_append_start (h : decodeRune (b :: s) = none) (hu : runeStart u = true)
    (rest : Bytes) : decodeRune (b :: s ++ u :: rest) = none := by
  cases hd : decodeRune (b :: s ++ u :: rest) with
  | none => rfl
  | some d =>
    obtain ⟨rest', hrest⟩ := exists_of_decodeRune hd
    obtain ⟨v, vs, hd, -, hvs⟩ := encode_bytes d
    rcases List.append_eq_append_iff.1 hrest with ⟨more, hmore, heq⟩ | ⟨more, hmore, -⟩
    · cases more with
      | nil =>
        rw [List.append_nil] at hmore
        rw [← hmore, ← List.append_nil (String.utf8EncodeChar d), decodeRune_encode] at h
        contradiction
      | cons w more =>
        -- the character would reach over the byte
        obtain rfl := (List.cons.inj heq).1
        rw [hd] at hmore
        have hmem : u ∈ vs := by
          rw [(List.cons.inj hmore).2]
          simp
        rw [hvs u hmem] at hu
        contradiction
    · rw [hmore, decodeRune_encode] at h
      contradiction

/-- A string may be cut before a byte that may begin a character. -/
theorem pieces_append_start (s : Bytes) (hu : runeStart u = true) (rest : Bytes) :
    pieces (s ++ u :: rest) = pieces s ++ pieces (u :: rest) := by
  induction hlen : s.length using Nat.strong_induction_on generalizing s with
  | _ n ih =>
    rcases pieces_cases s with rfl | ⟨p, s', rfl, hpieces⟩
    · rw [List.nil_append, pieces_nil, List.nil_append]
    · have hpos := p.length_units
      rw [List.length_append] at hlen
      have hrest := ih s'.length (by omega) s' rfl
      rw [hpieces, List.cons_append, ← hrest, List.append_assoc]
      cases p with
      | rune d => exact pieces_encode d _
      | stray b =>
        exact pieces_stray (decodeRune_append_start (decodeRune_of_stray hpieces) hu rest)

/-- Bytes within a character begin none. -/
theorem pieces_conts (hx : ∀ b ∈ x, runeStart b = false) (y : Bytes) :
    pieces (x ++ y) = x.map Piece.stray ++ pieces y := by
  induction x with
  | nil => rfl
  | cons b x ih =>
    have hnone : decodeRune (b :: (x ++ y)) = none := by
      cases hd : decodeRune (b :: (x ++ y)) with
      | none => rfl
      | some d =>
        obtain ⟨rest', hrest⟩ := exists_of_decodeRune hd
        obtain ⟨v, vs, hd, hv, -⟩ := encode_bytes d
        rw [hd] at hrest
        obtain rfl := (List.cons.inj hrest).1
        rw [hx b List.mem_cons_self] at hv
        contradiction
    rw [List.cons_append, pieces_stray hnone, ih fun b hb => hx b (List.mem_cons_of_mem _ hb)]
    rfl

/-- A string that is read as it is whatever follows. -/
def Closed (x : Bytes) : Prop :=
  ∀ y, pieces (x ++ y) = pieces x ++ pieces y

theorem closed_conts (hx : ∀ b ∈ x, runeStart b = false) : Closed x := fun y => by
  rw [pieces_conts hx, ← List.append_nil x, pieces_conts hx, List.append_nil, pieces_nil,
    List.append_nil]

/-- A string that begins as it is read whatever follows, and goes on with bytes that begin no
character. -/
theorem closed_of_decided (ht : ∀ b ∈ t, runeStart b = false)
    (hdecided : ∀ y, decodeRune (u :: t ++ y) = decodeRune (u :: t)) : Closed (u :: t) := by
  intro y
  cases hd : decodeRune (u :: t) with
  | none =>
    have hy := (hdecided y).trans hd
    rw [List.cons_append] at hy ⊢
    rw [pieces_stray hy, pieces_stray hd, closed_conts ht y, List.cons_append]
  | some c =>
    obtain ⟨more, hmore⟩ := exists_of_decodeRune hd
    obtain ⟨v, vs, hc, -, -⟩ := encode_bytes c
    have hconts : ∀ b ∈ more, runeStart b = false := fun b hb => ht b <| by
      rw [hc, List.cons_append] at hmore
      rw [(List.cons.inj hmore).2]
      exact List.mem_append_right _ hb
    rw [hmore, List.append_assoc, pieces_encode, pieces_encode, closed_conts hconts y,
      List.cons_append]

theorem length_encode_le (c : Char) : (String.utf8EncodeChar c).length ≤ 4 := by
  rw [String.length_utf8EncodeChar]
  exact Char.utf8Size_le_four c

/-- What is full or as long as a character can be is decided. -/
theorem decided_of_full (ht : t ≠ []) (hfull : fullRune t = true ∨ 4 ≤ t.length) (y : Bytes) :
    decodeRune (t ++ y) = decodeRune t := by
  cases hd : decodeRune (t ++ y) with
  | none =>
    cases hd' : decodeRune t with
    | none => rfl
    | some c =>
      obtain ⟨more, rfl⟩ := exists_of_decodeRune hd'
      rw [List.append_assoc, decodeRune_encode] at hd
      contradiction
  | some c =>
    obtain ⟨rest, hrest⟩ := exists_of_decodeRune hd
    rcases List.append_eq_append_iff.1 hrest with ⟨more, hmore, -⟩ | ⟨more, rfl, -⟩
    · by_cases hnil : more = []
      · rw [hnil, List.append_nil] at hmore
        rw [← hmore, ← List.append_nil (String.utf8EncodeChar c), decodeRune_encode]
      · have hlt := length_encode_le c
        have hpos := List.length_pos_iff.2 hnil
        rw [hmore, List.length_append] at hlt
        rcases hfull with hfull | hfull
        · rw [not_fullRune hmore hnil] at hfull
          contradiction
        · omega
    · rw [decodeRune_encode]

/-! ## The tail that is held -/

/-- The string from the last byte on that may begin a character. -/
def lastStart : Bytes → Option Bytes
  | [] => none
  | b :: s => (lastStart s).or (if runeStart b then some (b :: s) else none)

/-- The tail that begins a character and is too short for it. -/
def heldTail (s : Bytes) : Bytes :=
  match lastStart s with
  | none => []
  | some t => if t.length ≤ 3 ∧ fullRune t = false then t else []

theorem heldTail_of_some (h : lastStart s = some t) :
    heldTail s = if t.length ≤ 3 ∧ fullRune t = false then t else [] := by
  rw [heldTail, h]

theorem lastStart_none : lastStart s = none ↔ ∀ b ∈ s, runeStart b = false := by
  induction s with
  | nil => simp [lastStart]
  | cons b s ih =>
    rw [lastStart, List.forall_mem_cons]
    cases hs : lastStart s with
    | none =>
      rw [Option.none_or, and_iff_left (ih.1 hs)]
      cases hb : runeStart b <;> simp
    | some t =>
      refine iff_of_false (Option.some_ne_none t) fun h => ?_
      rw [ih.2 h.2] at hs
      contradiction

/-- The last byte that may begin a character and what goes on from it. -/
theorem lastStart_some (h : lastStart s = some t) :
    ∃ x u us, s = x ++ t ∧ t = u :: us ∧ runeStart u = true ∧ ∀ b ∈ us, runeStart b = false := by
  induction s with
  | nil => contradiction
  | cons b s ih =>
    rw [lastStart] at h
    cases hs : lastStart s with
    | none =>
      rw [hs, Option.none_or] at h
      split at h
      · next hb =>
        obtain rfl := Option.some.inj h
        exact ⟨[], b, s, rfl, rfl, hb, lastStart_none.1 hs⟩
      · contradiction
    | some t' =>
      rw [hs] at h
      obtain rfl : t' = t := Option.some.inj h
      obtain ⟨x, u, us, hx, rest⟩ := ih hs
      exact ⟨b :: x, u, us, by rw [hx, List.cons_append], rest⟩

theorem lastStart_append (x y : Bytes) :
    lastStart (x ++ y) = (lastStart y).or ((lastStart x).map (· ++ y)) := by
  induction x with
  | nil => cases h : lastStart y <;> simp [lastStart, h]
  | cons b x ih =>
    rw [List.cons_append, lastStart, ih, lastStart]
    cases hy : lastStart y with
    | some t => rfl
    | none =>
      cases hx : lastStart x with
      | some t => rfl
      | none => cases hb : runeStart b <;> simp

theorem heldTail_suffix (s : Bytes) : ∃ x, s = x ++ heldTail s := by
  rw [heldTail]
  split
  · exact ⟨s, (List.append_nil s).symm⟩
  · next t ht =>
    split
    · obtain ⟨x, -, -, hx, -⟩ := lastStart_some ht
      exact ⟨x, hx⟩
    · exact ⟨s, (List.append_nil s).symm⟩

/-- The string without the tail that is held. -/
def settled (s : Bytes) : Bytes :=
  s.take (s.length - (heldTail s).length)

theorem settled_append_heldTail (s : Bytes) : settled s ++ heldTail s = s := by
  obtain ⟨x, hx⟩ := heldTail_suffix s
  have hlength := congrArg List.length hx
  rw [List.length_append] at hlength
  have hsettled : settled s = x := by
    rw [settled, hlength, Nat.add_sub_cancel]
    generalize heldTail s = t at hx
    rw [hx, List.take_left]
  rw [hsettled]
  exact hx.symm

/-- What begins with a byte that begins a character is held with nothing before it. -/
theorem heldTail_cons (h : heldTail s ≠ []) :
    ∃ u us, heldTail s = u :: us ∧ runeStart u = true ∧ lastStart s = some (heldTail s)
      ∧ fullRune (heldTail s) = false := by
  rw [heldTail] at h ⊢
  split at h
  · contradiction
  · next t ht =>
    split at h
    · next hfull =>
      rw [if_pos hfull]
      obtain ⟨x, u, us, -, hu, hstart, -⟩ := lastStart_some ht
      exact ⟨u, us, hu, hstart, ht, hfull.2⟩
    · contradiction

/-- A string with no tail to hold is read as it is whatever follows. -/
theorem closed_of_heldTail (h : heldTail s = []) : Closed s := by
  rw [heldTail] at h
  split at h
  · next hnone => exact closed_conts (lastStart_none.1 hnone)
  · next t ht =>
    obtain ⟨x, u, us, rfl, rfl, hstart, hconts⟩ := lastStart_some ht
    have hfull : fullRune (u :: us) = true ∨ 4 ≤ (u :: us).length := by
      split at h
      · contradiction
      · next hnot =>
        by_cases hlength : (u :: us).length ≤ 3
        · exact .inl (Bool.not_eq_false _ ▸ fun hfalse => hnot ⟨hlength, hfalse⟩)
        · exact .inr (by omega)
    have hclosed := closed_of_decided hconts
      (decided_of_full (List.cons_ne_nil u us) hfull)
    intro y
    rw [List.append_assoc, List.cons_append, pieces_append_start x hstart,
      pieces_append_start x hstart, ← List.cons_append, hclosed y, List.append_assoc]

/-- A string may be cut before the tail that is held. -/
theorem pieces_settled (s y : Bytes) :
    pieces (s ++ y) = pieces (settled s) ++ pieces (heldTail s ++ y) := by
  by_cases h : heldTail s = []
  · have hsettled := settled_append_heldTail s
    rw [h, List.append_nil] at hsettled
    rw [h, hsettled, closed_of_heldTail h, List.nil_append]
  · obtain ⟨u, us, hu, hstart, -⟩ := heldTail_cons h
    conv_lhs => rw [← settled_append_heldTail s]
    rw [hu, List.append_assoc, List.cons_append, pieces_append_start _ hstart]

theorem heldTail_of_lastStart (h : lastStart x = lastStart y) : heldTail x = heldTail y := by
  rw [heldTail, h, heldTail]

/-- What stands before a byte that may begin a character holds nothing more. -/
theorem heldTail_append_start (s : Bytes) (hu : runeStart u = true) (rest : Bytes) :
    heldTail (s ++ u :: rest) = heldTail (u :: rest) := by
  refine heldTail_of_lastStart ?_
  cases h : lastStart (u :: rest) with
  | none =>
    rw [lastStart_none.1 h u List.mem_cons_self] at hu
    contradiction
  | some t => rw [lastStart_append, h, Option.some_or]

/-- What holds nothing holds nothing before more. -/
theorem heldTail_append (h : heldTail x = []) (y : Bytes) : heldTail (x ++ y) = heldTail y := by
  cases hy : lastStart y with
  | some t =>
    refine heldTail_of_lastStart ?_
    rw [lastStart_append, hy, Option.some_or]
  | none =>
    have hnil : heldTail y = [] := by rw [heldTail, hy]
    rw [hnil, heldTail, lastStart_append, hy, Option.none_or]
    cases hx : lastStart x with
    | none => rfl
    | some t =>
      rw [heldTail_of_some hx] at h
      simp only [Option.map_some]
      rw [if_neg]
      rintro ⟨hlength, hfull⟩
      rw [List.length_append] at hlength
      by_cases ht : fullRune t = true
      · rw [fullRune_append ht] at hfull
        contradiction
      · simp only [Bool.not_eq_true] at ht
        rw [if_pos ⟨by omega, ht⟩] at h
        obtain ⟨-, u, us, -, rfl, -⟩ := lastStart_some hx
        contradiction

/-- A string is read in two parts when it is cut before the tail of the first that is held. -/
theorem heldTail_settled (s y : Bytes) : heldTail (s ++ y) = heldTail (heldTail s ++ y) := by
  by_cases h : heldTail s = []
  · rw [h, List.nil_append, heldTail_append h]
  · obtain ⟨u, us, hu, hstart, -⟩ := heldTail_cons h
    conv_lhs => rw [← settled_append_heldTail s]
    rw [hu, List.append_assoc, List.cons_append, heldTail_append_start _ hstart]

/-- What is read of two parts is read of the first and then of its tail with the second. -/
theorem pieces_settled_append (s y : Bytes) :
    pieces (settled (s ++ y)) = pieces (settled s) ++ pieces (settled (heldTail s ++ y)) := by
  have hself := fun s => pieces_settled s []
  simp only [List.append_nil] at hself
  apply (List.append_left_inj (pieces (heldTail (s ++ y)))).1
  rw [← hself, pieces_settled, hself (heldTail s ++ y), ← heldTail_settled, List.append_assoc]

/-! ## Characters across a cut -/

theorem fullRune_encode (c : Char) (rest : Bytes) :
    fullRune (String.utf8EncodeChar c ++ rest) = true := by
  refine fullRune_append ?_ rest
  rcases encode_cases c with ⟨b, hc, hb⟩ | ⟨b0, b1, hc, hb⟩ | ⟨b0, b1, b2, hc, hb⟩
    | ⟨b0, b1, b2, b3, hc, hb⟩
  all_goals rw [hc, fullRune]
  · have hsize : runeSize b = 1 := by
      rw [runeSize, if_pos (UInt8.lt_iff_toNat_lt.2 (by simp only [UInt8.reduceToNat]; omega))]
    rw [hsize]
    rfl
  · rw [runeSize_of_ge hb.1, if_pos hb.2.1]
    rfl
  · rw [runeSize_of_ge (by omega), if_neg (by omega), if_pos (by omega)]
    rfl
  · rw [runeSize_of_ge (by omega), if_neg (by omega), if_neg (by omega), if_pos (by omega)]
    rfl

/-- The bytes that are held are read one by one when nothing follows. -/
theorem pieces_heldTail (s : Bytes) : pieces (heldTail s) = (heldTail s).map Piece.stray := by
  by_cases h : heldTail s = []
  · rw [h, pieces_nil, List.map_nil]
  · obtain ⟨u, us, hu, -, hlast, hfull⟩ := heldTail_cons h
    obtain ⟨-, v, vs, -, hv, -, hconts⟩ := lastStart_some hlast
    rw [hv] at hfull ⊢
    cases hd : decodeRune (v :: vs) with
    | some c =>
      obtain ⟨rest, hrest⟩ := exists_of_decodeRune hd
      rw [hrest, fullRune_encode] at hfull
      contradiction
    | none =>
      rw [pieces_stray hd, List.map_cons, ← List.append_nil vs, pieces_conts hconts, pieces_nil,
        List.append_nil, List.append_nil]

/-- No character reaches over the cut between two strings. -/
def Apart (x y : Bytes) : Prop :=
  heldTail x = [] ∨ decodeRune (heldTail x ++ y) = none

theorem pieces_append_of_apart (h : Apart x y) : pieces (x ++ y) = pieces x ++ pieces y := by
  have hself := pieces_settled x []
  rw [List.append_nil, List.append_nil] at hself
  rw [pieces_settled, hself, List.append_assoc, pieces_heldTail]
  congr 1
  by_cases hnil : heldTail x = []
  · rw [hnil, List.nil_append, List.map_nil, List.nil_append]
  · obtain ⟨u, us, hu, -, hlast, -⟩ := heldTail_cons hnil
    obtain ⟨-, v, vs, -, hv, -, hconts⟩ := lastStart_some hlast
    have hnone := h.resolve_left hnil
    rw [hv, List.cons_append] at hnone
    rw [hv, List.cons_append, pieces_stray hnone, pieces_conts hconts, List.map_cons,
      List.cons_append]

/-- A character that reaches over the cut is read as several bytes by the two sides. -/
theorem length_pieces_of_not_apart (h : ¬ Apart x y) :
    (pieces (x ++ y)).length < (pieces x).length + (pieces y).length := by
  have hself := pieces_settled x []
  rw [List.append_nil, List.append_nil] at hself
  obtain ⟨hnil, hsome⟩ := not_or.1 h
  obtain ⟨c, hc⟩ := Option.ne_none_iff_exists'.1 hsome
  obtain ⟨rest, hrest⟩ := exists_of_decodeRune hc
  obtain ⟨-, -, -, -, -, hfull⟩ := heldTail_cons hnil
  rw [pieces_settled, hself, pieces_heldTail]
  rcases List.append_eq_append_iff.1 hrest with ⟨more, hmore, rfl⟩ | ⟨more, hmore, -⟩
  · obtain ⟨u, us, hu, -, hconts⟩ := encode_bytes c
    have hmore_ne : more ≠ [] := fun hmore_nil => by
      rw [hmore_nil, List.append_nil] at hmore
      rw [← hmore, ← List.append_nil (String.utf8EncodeChar c), fullRune_encode] at hfull
      contradiction
    have hmore_conts : ∀ b ∈ more, runeStart b = false := fun b hb => by
      obtain ⟨v, vs, hv⟩ := List.exists_cons_of_ne_nil hnil
      rw [hmore, hv, List.cons_append] at hu
      refine hconts b ?_
      rw [← (List.cons.inj hu).2]
      exact List.mem_append_right _ hb
    rw [hrest, pieces_encode, pieces_conts hmore_conts]
    have := List.length_pos_iff.2 hnil
    have := List.length_pos_iff.2 hmore_ne
    rw [List.length_append, List.length_append, List.length_append, List.length_cons,
      List.length_map, List.length_map]
    omega
  · rw [hmore, fullRune_encode] at hfull
    contradiction

theorem length_pieces_append_le (x y : Bytes) :
    (pieces (x ++ y)).length ≤ (pieces x).length + (pieces y).length := by
  by_cases h : Apart x y
  · have hlen := congrArg List.length (pieces_append_of_apart h)
    rw [List.length_append] at hlen
    exact Nat.le_of_eq hlen
  · exact Nat.le_of_lt (length_pieces_of_not_apart h)

end Marotte.Runes
