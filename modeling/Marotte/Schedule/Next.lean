import Marotte.Schedule.Spec
import Mathlib.Tactic.IntervalCases

/-! # The slots of a rule

A slot is a time that the rule lists on a day it matches, later than those listed before it. Where
every local time belongs to its own date and the date never goes back, the scan skips no slot.
-/
namespace Marotte.Schedule

/-- Between two instants, every local time resolves to an instant of its own date, the date never
goes back, and the times of a date come before those of a later one. -/
structure WellDated (loc : Location) (lo hi : ℤ) : Prop where
  dated : ∀ n clock, 0 ≤ clock → clock < day →
    (dayOf loc lo ≤ n ∧ n ≤ dayOf loc hi ∨ lo ≤ date loc n clock ∧ date loc n clock ≤ hi) →
    dayOf loc (date loc n clock) = n
  forward : ∀ t t', lo ≤ t → t ≤ t' → t' ≤ hi → dayOf loc t ≤ dayOf loc t'
  ordered : ∀ n n' clock clock', dayOf loc lo ≤ n → n < n' → n' ≤ dayOf loc hi →
    0 ≤ clock → clock < day → 0 ≤ clock' → clock' < day → date loc n clock < date loc n' clock'
  later : ∀ n clock, dayOf loc lo < n → n ≤ dayOf loc hi → 0 ≤ clock → clock < day →
    lo < date loc n clock

variable {loc : Location} {s : Spec} {t t' after lo hi : ℤ}

namespace Spec

/-! ## What a valid rule says -/

theorem minute_valid (h : s.validate = .ok ()) : 0 ≤ s.minute ∧ s.minute ≤ 59 := by
  rw [validate] at h
  split at h
  · cases h
  · omega

theorem freq_valid (h : s.validate = .ok ()) :
    match s.freq with
    | .minutely => 5 ≤ s.interval ∧ s.interval ≤ 59
    | .hourly => 1 ≤ s.interval ∧ s.interval ≤ 24
    | .daily => s.validateHour = .ok ()
    | .weekly => s.validateWeekly = .ok ()
    | .monthly => s.validateMonthly = .ok ()
    | .other _ => False := by
  rw [validate] at h
  split at h
  · cases h
  · revert h
    cases s.freq with
    | minutely =>
      dsimp only
      split
      · exact nofun
      · rw [minMinuteInterval, maxMinuteInterval] at *
        omega
    | hourly =>
      dsimp only
      split
      · exact nofun
      · omega
    | daily | weekly | monthly => exact id
    | other name => exact nofun

theorem hour_valid (h : s.validateHour = .ok ()) : 0 ≤ s.hour ∧ s.hour ≤ 23 := by
  rw [validateHour] at h
  split at h
  · cases h
  · omega

theorem weekly_valid (h : s.validateWeekly = .ok ()) :
    (∃ d ∈ s.weekdays, 0 ≤ d ∧ d ≤ 6) ∧ s.validateHour = .ok () := by
  rw [validateWeekly] at h
  split at h
  · cases h
  · next hsome =>
    split at h
    · cases h
    · next hnone =>
      refine ⟨?_, h⟩
      obtain ⟨d, hd⟩ := List.exists_mem_of_ne_nil _ (List.isEmpty_iff.not.mp hsome)
      have hrange := List.find?_eq_none.mp hnone d hd
      rw [decide_eq_true_iff] at hrange
      exact ⟨d, hd, by omega⟩

theorem monthly_valid (h : s.validateMonthly = .ok ()) :
    (s.monthDay = lastDay ∨ 1 ≤ s.monthDay ∧ s.monthDay ≤ 31) ∧ s.validateHour = .ok () := by
  rw [validateMonthly] at h
  split at h
  · cases h
  · exact ⟨by omega, h⟩

/-! ## The times of a day -/

theorem mem_steps {step bound x y : ℤ} (hstep : 0 < step) :
    ∀ {fuel : ℕ}, y ∈ steps step bound fuel x → x ≤ y ∧ y < bound ∧ step ∣ y - x
  | 0, h => by cases h
  | fuel + 1, h => by
    rw [steps] at h
    split at h
    · next hx =>
      rcases List.mem_cons.mp h with rfl | hmem
      · exact ⟨le_refl y, hx, by rw [Int.sub_self]; exact Int.dvd_zero step⟩
      · obtain ⟨hle, hlt, hdvd⟩ := mem_steps hstep hmem
        refine ⟨by omega, hlt, ?_⟩
        have hsplit : y - x = (y - (x + step)) + step := by omega
        rw [hsplit]
        exact Int.dvd_add hdvd (Int.dvd_refl step)
    · cases h

/-- The fuel of a loop is enough for every value that it counts. -/
theorem steps_complete {step bound : ℤ} (hstep : 0 < step) :
    ∀ {fuel k : ℕ} {x : ℤ}, bound ≤ x + fuel → x + k * step < bound →
      x + k * step ∈ steps step bound fuel x
  | 0, k, x, hfuel, hk => by
    have hpos : 0 ≤ (k : ℤ) * step := Int.mul_nonneg (Int.natCast_nonneg k) hstep.le
    omega
  | fuel + 1, 0, x, _, hk => by
    rw [Int.natCast_zero, Int.zero_mul, Int.add_zero] at hk ⊢
    rw [steps, if_pos hk]
    exact List.mem_cons_self
  | fuel + 1, k + 1, x, hfuel, hk => by
    have hpos : 0 ≤ (k : ℤ) * step := Int.mul_nonneg (Int.natCast_nonneg k) hstep.le
    have hsplit : x + ((k + 1 : ℕ) : ℤ) * step = (x + step) + k * step := by
      rw [Int.natCast_add, Int.natCast_one, Int.add_mul, Int.one_mul]
      omega
    rw [hsplit] at hk ⊢
    rw [steps, if_pos (by omega)]
    apply List.mem_cons_of_mem
    apply steps_complete hstep
    · push_cast at hfuel
      omega
    · exact hk

/-- A time of a day is one of its minutes: a step of a minutely rule from its phase, or the minute of
an hour. -/
theorem mem_timesOn (h : s.validate = .ok ()) (ht : t ∈ s.timesOn loc t') :
    ∃ md, 0 ≤ md ∧ md < 1440 ∧ t = date loc (dayOf loc t') (60 * md) ∧
      (s.freq = .minutely → s.interval ∣ md - s.minute % s.interval) ∧
      (s.freq ≠ .minutely → 60 ∣ md - s.minute) := by
  have hminute := minute_valid h
  have hfreq := freq_valid h
  have hclock : ∀ hr, 0 ≤ hr → hr ≤ 23 → s.freq ≠ .minutely →
      t = date loc (dayOf loc t') (3600 * hr + 60 * s.minute) →
      ∃ md, 0 ≤ md ∧ md < 1440 ∧ t = date loc (dayOf loc t') (60 * md) ∧
        (s.freq = .minutely → s.interval ∣ md - s.minute % s.interval) ∧
        (s.freq ≠ .minutely → 60 ∣ md - s.minute) := by
    intro hr hpos hlt hne heq
    refine ⟨60 * hr + s.minute, by omega, by omega, ?_, fun hf => absurd hf hne,
      fun _ => ⟨hr, by omega⟩⟩
    rw [heq]
    exact congrArg _ (by omega)
  rw [timesOn] at ht
  cases hf : s.freq with
  | minutely =>
    rw [hf] at ht hfreq
    dsimp only at hfreq
    obtain ⟨md, hmd, rfl⟩ := List.mem_map.mp ht
    obtain ⟨hle, hlt, hdvd⟩ := mem_steps (by omega) hmd
    have hphase := Int.emod_nonneg s.minute (b := s.interval) (by omega)
    rw [minutesPerDay] at hlt
    exact ⟨md, by omega, by omega, congrArg _ (by omega), fun _ => hdvd, fun hne => absurd rfl hne⟩
  | hourly =>
    rw [hf] at ht hfreq hclock
    dsimp only at hfreq
    obtain ⟨hr, hmem, rfl⟩ := List.mem_map.mp ht
    obtain ⟨hle, hlt, -⟩ := mem_steps (by omega) hmem
    exact hclock hr hle (by omega) nofun rfl
  | daily =>
    rw [hf] at ht hfreq hclock
    obtain ⟨hpos, hlt⟩ := hour_valid hfreq
    exact hclock s.hour hpos hlt nofun (List.mem_singleton.mp ht)
  | weekly =>
    rw [hf] at ht hfreq hclock
    obtain ⟨hpos, hlt⟩ := hour_valid (weekly_valid hfreq).2
    exact hclock s.hour hpos hlt nofun (List.mem_singleton.mp ht)
  | monthly =>
    rw [hf] at ht hfreq hclock
    obtain ⟨hpos, hlt⟩ := hour_valid (monthly_valid hfreq).2
    exact hclock s.hour hpos hlt nofun (List.mem_singleton.mp ht)
  | other name =>
    rw [hf] at hfreq
    exact hfreq.elim

theorem timesOn_ne_nil (h : s.validate = .ok ()) : s.timesOn loc t ≠ [] := by
  have hminute := minute_valid h
  have hfreq := freq_valid h
  rw [timesOn]
  cases hf : s.freq with
  | minutely =>
    rw [hf] at hfreq
    dsimp only at hfreq
    have hphase := Int.emod_lt_of_pos s.minute (b := s.interval) (by omega)
    rw [steps, if_pos (by rw [minutesPerDay]; omega)]
    exact List.cons_ne_nil _ _
  | hourly => exact List.cons_ne_nil _ _
  | daily | weekly | monthly => exact List.cons_ne_nil _ _
  | other name =>
    rw [hf] at hfreq
    exact hfreq.elim

theorem timesOn_congr (h : dayOf loc t = dayOf loc t') : s.timesOn loc t = s.timesOn loc t' := by
  rw [timesOn, timesOn, h]

theorem matchesDay_congr (h : dayOf loc t = dayOf loc t') :
    s.matchesDay loc t = s.matchesDay loc t' := by
  rw [matchesDay, matchesDay, monthDayIn, monthDayIn, daysInMonth, daysInMonth, h]

end Spec

/-! ## The scan -/

theorem clockOf_bounds (t : ℤ) : 0 ≤ clockOf loc t ∧ clockOf loc t < day := by
  rw [clockOf, day]
  omega

theorem WellDated.le_of_le (hloc : WellDated loc after hi) (h : after ≤ t) (hhi : t ≤ hi) :
    dayOf loc after ≤ dayOf loc t ∧ dayOf loc t ≤ dayOf loc hi :=
  ⟨hloc.forward after t (le_refl after) h hhi, hloc.forward t hi h hhi (le_refl hi)⟩

/-- The i-th day of a scan, whatever clock its midnight was resolved to. -/
theorem WellDated.dayOf_scan (hloc : WellDated loc after hi) {i : ℕ}
    (hi : dayOf loc after + i ≤ dayOf loc hi) :
    dayOf loc (addDate loc (startOfDay loc after) i) = dayOf loc after + i := by
  have hstart : dayOf loc (startOfDay loc after) = dayOf loc after :=
    hloc.dated _ 0 (le_refl 0) (by rw [day]; omega) (.inl ⟨le_refl _, by omega⟩)
  have hwhole : startOfDay loc after % second = 0 := Int.mul_emod_right ..
  obtain ⟨hpos, hlt⟩ := @clockOf_bounds loc (startOfDay loc after)
  rw [addDate, hwhole, Int.add_zero, hstart]
  exact hloc.dated _ _ hpos hlt (.inl ⟨by omega, by omega⟩)

/-- The time of a scanned day is on that day. -/
theorem WellDated.dayOf_time (hloc : WellDated loc lo hi) (hs : s.validate = .ok ())
    (ht : t ∈ s.timesOn loc t')
    (hin : dayOf loc lo ≤ dayOf loc t' ∧ dayOf loc t' ≤ dayOf loc hi ∨ lo ≤ t ∧ t ≤ hi) :
    dayOf loc t = dayOf loc t' := by
  obtain ⟨md, hpos, hlt, rfl, -⟩ := Spec.mem_timesOn hs ht
  exact hloc.dated _ (60 * md) (by omega) (by rw [day]; omega) hin

/-- A time of an earlier date is an earlier instant. -/
theorem WellDated.time_lt (hloc : WellDated loc lo hi) (hs : s.validate = .ok ()) {d d' : ℤ}
    (ht : t ∈ s.timesOn loc d) (ht' : t' ∈ s.timesOn loc d') (hlo : dayOf loc lo ≤ dayOf loc d)
    (hlt : dayOf loc d < dayOf loc d') (hhi : dayOf loc d' ≤ dayOf loc hi) : t < t' := by
  obtain ⟨md, hpos, hmd, rfl, -⟩ := Spec.mem_timesOn hs ht
  obtain ⟨md', hpos', hmd', rfl, -⟩ := Spec.mem_timesOn hs ht'
  exact hloc.ordered _ _ _ _ hlo hlt hhi (by omega) (by rw [day]; omega) (by omega)
    (by rw [day]; omega)

/-- What the scan makes of its i-th day. -/
def scanDay (loc : Location) (s : Spec) (after : ℤ) (i : ℕ) : Option ℤ :=
  let d := addDate loc (startOfDay loc after) i
  if s.matchesDay loc d then (s.timesOn loc d).find? (after < ·) else none

theorem nextRun_eq_ok : nextRun loc s after = .ok t ↔
    s.validate = .ok () ∧ (List.range maxScanDays).findSome? (scanDay loc s after) = some t := by
  rw [nextRun]
  cases s.validate with
  | error e =>
    constructor
    · intro h
      cases h
    · rintro ⟨h, -⟩
      cases h
  | ok u =>
    have hscan : (fun i : ℕ => let d := addDate loc (startOfDay loc after) i
        if s.matchesDay loc d then (s.timesOn loc d).find? (after < ·) else none) =
      scanDay loc s after := rfl
    simp only [hscan, bind, Except.bind]
    cases (List.range maxScanDays).findSome? (scanDay loc s after) with
    | none =>
      constructor
      · intro h
        cases h
      · rintro ⟨-, h⟩
        cases h
    | some t' =>
      constructor
      · intro h
        cases h
        exact ⟨trivial, rfl⟩
      · rintro ⟨-, h⟩
        cases h
        rfl

theorem scanDay_eq_some {i : ℕ} (h : scanDay loc s after i = some t) :
    s.matchesDay loc (addDate loc (startOfDay loc after) i) = true ∧ after < t ∧
      ∃ before rest, s.timesOn loc (addDate loc (startOfDay loc after) i) = before ++ t :: rest ∧
        ∀ b ∈ before, b ≤ after := by
  simp only [scanDay] at h
  split at h
  · next hmatch =>
    obtain ⟨hlt, before, rest, hlist, hbefore⟩ := List.find?_eq_some_iff_append.mp h
    rw [decide_eq_true_iff] at hlt
    refine ⟨hmatch, hlt, before, rest, hlist, ?_⟩
    intro b hb
    have hb' := hbefore b hb
    rw [Bool.not_eq_true', decide_eq_false_iff_not] at hb'
    omega
  · cases h

theorem nextRun_after (h : nextRun loc s after = .ok t) : after < t := by
  obtain ⟨i, -, hi⟩ := List.exists_of_findSome?_eq_some (nextRun_eq_ok.mp h).2
  exact (scanDay_eq_some hi).2.1

/-- A time that the rule lists on a day it matches, later than those listed before it. -/
def Slot (loc : Location) (s : Spec) (t : ℤ) : Prop :=
  ∃ d, s.matchesDay loc d = true ∧
    ∃ before rest, s.timesOn loc d = before ++ t :: rest ∧ ∀ b ∈ before, b < t

theorem slot_of_nextRun (h : nextRun loc s after = .ok t) : Slot loc s t := by
  obtain ⟨i, -, hi⟩ := List.exists_of_findSome?_eq_some (nextRun_eq_ok.mp h).2
  obtain ⟨hmatch, hlt, before, rest, hlist, hbefore⟩ := scanDay_eq_some hi
  exact ⟨_, hmatch, before, rest, hlist, fun b hb => lt_of_le_of_lt (hbefore b hb) hlt⟩

/-! ## A valid rule always has a next time -/

theorem Spec.matchesDay_weekly {d : ℤ} (hfreq : s.freq = .weekly) (hd : d ∈ s.weekdays)
    (ht : Calendar.weekday (dayOf loc t) = d) : s.matchesDay loc t = true := by
  rw [matchesDay, hfreq]
  dsimp only
  rw [ht]
  exact decide_eq_true hd

/-- Every month has a day that a monthly rule matches. -/
theorem WellDated.matchesDay_monthly (hloc : WellDated loc lo hi) (hfreq : s.freq = .monthly)
    (hday : s.monthDay = lastDay ∨ 1 ≤ s.monthDay ∧ s.monthDay ≤ 31) {month : ℤ}
    (hlo : dayOf loc lo < Calendar.firstDay (month + 1))
    (hhi : Calendar.firstDay (month + 1) ≤ dayOf loc hi) :
    ∃ k, 1 ≤ k ∧ k ≤ 31 ∧ ∀ t, dayOf loc t = Calendar.firstDay month + k - 1 →
      s.matchesDay loc t = true := by
  have hlength := Calendar.firstDay_succ month
  let last := Calendar.firstDay (month + 1) - Calendar.firstDay month
  have hlast : Calendar.dayOfMonth (Calendar.firstDay (month + 1) - 1) = last := by
    have hend := (@Calendar.dayOfMonth_add month last (by omega) (by omega)).1
    rwa [show Calendar.firstDay month + last - 1 = Calendar.firstDay (month + 1) - 1 by omega]
      at hend
  refine ⟨if s.monthDay = lastDay ∨ last < s.monthDay then last else s.monthDay, ?_, ?_, ?_⟩
  · split <;> omega
  · split <;> omega
  · intro t ht
    have hdate := @Calendar.dayOfMonth_add month
      (if s.monthDay = lastDay ∨ last < s.monthDay then last else s.monthDay)
      (by split <;> omega) (by split <;> omega)
    rw [← ht] at hdate
    rw [Spec.matchesDay, hfreq]
    dsimp only
    rw [Spec.monthDayIn, Spec.daysInMonth, hdate.1, hdate.2,
      hloc.dated _ 0 (le_refl 0) (by rw [day]; omega) (.inl ⟨by omega, by omega⟩), hlast]
    exact decide_eq_true rfl

/-- Some day of the next hundred matches a valid rule. -/
theorem WellDated.exists_match (hloc : WellDated loc after hi) (hs : s.validate = .ok ())
    (hwindow : dayOf loc after + 100 ≤ dayOf loc hi) :
    ∃ i : ℕ, 1 ≤ i ∧ i ≤ 100 ∧
      s.matchesDay loc (addDate loc (startOfDay loc after) i) = true := by
  have hfreq := Spec.freq_valid hs
  cases hf : s.freq with
  | minutely | hourly | daily =>
    refine ⟨1, le_refl 1, by omega, ?_⟩
    rw [Spec.matchesDay, hf]
  | weekly =>
    rw [hf] at hfreq
    obtain ⟨d, hd, hrange⟩ := (Spec.weekly_valid hfreq).1
    have hpos := Int.emod_nonneg (d - (dayOf loc after + 5)) (b := 7) (by omega)
    have hlt := Int.emod_lt_of_pos (d - (dayOf loc after + 5)) (b := 7) (by omega)
    refine ⟨((d - (dayOf loc after + 5)) % 7).toNat + 1, by omega, by omega, ?_⟩
    apply Spec.matchesDay_weekly hf hd
    rw [hloc.dayOf_scan (by omega), Calendar.weekday]
    omega
  | monthly =>
    rw [hf] at hfreq
    have hbounds := Calendar.monthOf_bounds (dayOf loc after)
    have hlength := Calendar.firstDay_succ (Calendar.monthOf (dayOf loc after))
    have hlength' := Calendar.firstDay_succ (Calendar.monthOf (dayOf loc after) + 1)
    obtain ⟨k, hk, hlast, hmatch⟩ := @WellDated.matchesDay_monthly _ _ _ _ hloc hf
      (Spec.monthly_valid hfreq).1 (Calendar.monthOf (dayOf loc after) + 1) (by omega) (by omega)
    refine ⟨(Calendar.firstDay (Calendar.monthOf (dayOf loc after) + 1) + k - 1 -
      dayOf loc after).toNat, by omega, by omega, ?_⟩
    apply hmatch
    rw [hloc.dayOf_scan (by omega)]
    omega
  | other name =>
    rw [hf] at hfreq
    exact hfreq.elim

theorem WellDated.scanDay_isSome (hloc : WellDated loc after hi) (hs : s.validate = .ok ())
    {i : ℕ} (hpos : 1 ≤ i) (hhi : dayOf loc after + i ≤ dayOf loc hi)
    (hmatch : s.matchesDay loc (addDate loc (startOfDay loc after) i) = true) :
    (scanDay loc s after i).isSome := by
  obtain ⟨t, ht⟩ := List.exists_mem_of_ne_nil _
    (@Spec.timesOn_ne_nil loc _ (addDate loc (startOfDay loc after) i) hs)
  have hlater : after < t := by
    obtain ⟨md, hmd, hlt, rfl, -⟩ := Spec.mem_timesOn hs ht
    rw [hloc.dayOf_scan hhi]
    exact hloc.later _ _ (by omega) hhi (by omega) (by rw [day]; omega)
  simp only [scanDay, if_pos hmatch]
  rw [List.find?_isSome]
  exact ⟨t, ht, decide_eq_true hlater⟩

/-! ## The next time is the earliest -/

/-- The first day of a scan with a time: the days before it have none. -/
theorem findSome?_range {α : Type*} {f : ℕ → Option α} {n : ℕ} {a : α}
    (h : (List.range n).findSome? f = some a) :
    ∃ i < n, f i = some a ∧ ∀ j < i, f j = none := by
  induction n with
  | zero => cases h
  | succ n ih =>
    rw [List.range_succ, List.findSome?_append] at h
    cases hfirst : (List.range n).findSome? f with
    | some b =>
      rw [hfirst] at h
      obtain ⟨i, hi, hfound, hnone⟩ := ih (hfirst.trans h)
      exact ⟨i, by omega, hfound, hnone⟩
    | none =>
      rw [hfirst, Option.none_or, List.findSome?_cons] at h
      refine ⟨n, by omega, ?_, ?_⟩
      · cases hn : f n with
        | some b =>
          rw [hn] at h
          exact h
        | none =>
          rw [hn] at h
          cases h
      · intro j hj
        exact List.findSome?_eq_none_iff.mp hfirst j (List.mem_range.mpr hj)

/-- Two elements of a list, each the first of its kind. -/
theorem le_of_splits {before rest before' rest' : List ℤ}
    (hsplit : before ++ t :: rest = before' ++ t' :: rest') (hbefore : ∀ b ∈ before, b ≤ after)
    (hbefore' : ∀ b ∈ before', b < t') (hlater : after < t') : t ≤ t' := by
  rcases List.append_eq_append_iff.mp hsplit with ⟨mid, hmid, hrest⟩ | ⟨mid, hmid, hrest⟩
  · cases mid with
    | nil =>
      cases hrest
      exact le_refl t
    | cons x mid =>
      cases hrest
      apply le_of_lt
      apply hbefore'
      rw [hmid]
      exact List.mem_append_right before List.mem_cons_self
  · cases mid with
    | nil =>
      cases hrest
      exact le_refl t
    | cons x mid =>
      cases hrest
      have hnot := hbefore t' (by rw [hmid]; exact List.mem_append_right before' List.mem_cons_self)
      omega

/-- The day of a slot to come is scanned, or a day before it has a time already. -/
theorem WellDated.nextRun_isOk (hloc : WellDated loc after hi) (hs : s.validate = .ok ())
    (hslot : Slot loc s t') (hlater : after < t') (hhi : t' ≤ hi) :
    ∃ t, nextRun loc s after = .ok t := by
  have hfound : ∃ i < maxScanDays, (scanDay loc s after i).isSome := by
    obtain ⟨d, hmatch, before, rest, hlist, -⟩ := hslot
    have hmem : t' ∈ s.timesOn loc d := by
      rw [hlist]
      exact List.mem_append_right before List.mem_cons_self
    have hday : dayOf loc t' = dayOf loc d := hloc.dayOf_time hs hmem (.inr ⟨hlater.le, hhi⟩)
    obtain ⟨hlo, hwindow⟩ := hloc.le_of_le hlater.le hhi
    rw [maxScanDays]
    by_cases hnear : dayOf loc t' < dayOf loc after + 400
    · refine ⟨(dayOf loc t' - dayOf loc after).toNat, by omega, ?_⟩
      have hscan : dayOf loc (addDate loc (startOfDay loc after)
          (dayOf loc t' - dayOf loc after).toNat) = dayOf loc d := by
        rw [hloc.dayOf_scan (by omega)]
        omega
      simp only [scanDay, Spec.matchesDay_congr hscan, if_pos hmatch, Spec.timesOn_congr hscan]
      rw [List.find?_isSome]
      exact ⟨t', hmem, decide_eq_true hlater⟩
    · obtain ⟨i, hpos, hle, hmatch'⟩ := hloc.exists_match hs (by omega)
      exact ⟨i, by omega, hloc.scanDay_isSome hs hpos (by omega) hmatch'⟩
  obtain ⟨i, hi, hsome⟩ := hfound
  have hscan : ((List.range maxScanDays).findSome? (scanDay loc s after)).isSome := by
    rw [List.findSome?_isSome_iff]
    exact ⟨i, List.mem_range.mpr hi, hsome⟩
  obtain ⟨t, ht⟩ := Option.isSome_iff_exists.mp hscan
  exact ⟨t, nextRun_eq_ok.mpr ⟨hs, ht⟩⟩

/-- No slot is passed over: the next time is not later than any slot that is to come. -/
theorem WellDated.nextRun_le (hloc : WellDated loc after hi) (hs : s.validate = .ok ())
    (hslot : Slot loc s t') (hlater : after < t') (hhi : t' ≤ hi) :
    ∃ t, nextRun loc s after = .ok t ∧ t ≤ t' := by
  obtain ⟨t, ht⟩ := hloc.nextRun_isOk hs hslot hlater hhi
  refine ⟨t, ht, ?_⟩
  obtain ⟨i, -, hi, hnone⟩ := findSome?_range (nextRun_eq_ok.mp ht).2
  obtain ⟨-, hlt, before, rest, hlist, hbefore⟩ := scanDay_eq_some hi
  obtain ⟨d, hmatch, before', rest', hlist', hbefore'⟩ := hslot
  have hmem : t ∈ s.timesOn loc (addDate loc (startOfDay loc after) i) := by
    rw [hlist]
    exact List.mem_append_right before List.mem_cons_self
  have hmem' : t' ∈ s.timesOn loc d := by
    rw [hlist']
    exact List.mem_append_right before' List.mem_cons_self
  have hday' : dayOf loc t' = dayOf loc d := hloc.dayOf_time hs hmem' (.inr ⟨hlater.le, hhi⟩)
  obtain ⟨hlo, hwindow⟩ := hloc.le_of_le hlater.le hhi
  rcases Int.lt_trichotomy (dayOf loc after + i) (dayOf loc t') with hless | hsame | hmore
  · have hscan := hloc.dayOf_scan (i := i) (by omega)
    exact (hloc.time_lt hs hmem hmem' (by omega) (by omega) (by omega)).le
  · have hscan : dayOf loc (addDate loc (startOfDay loc after) i) = dayOf loc d := by
      rw [hloc.dayOf_scan (by omega)]
      omega
    rw [Spec.timesOn_congr hscan, hlist'] at hlist
    exact le_of_splits hlist.symm hbefore hbefore' hlater
  · -- The slot's own day was scanned before, and it has a time after the instant.
    have hempty := hnone (dayOf loc t' - dayOf loc after).toNat (by omega)
    have hscan : dayOf loc (addDate loc (startOfDay loc after)
        (dayOf loc t' - dayOf loc after).toNat) = dayOf loc d := by
      rw [hloc.dayOf_scan (by omega)]
      omega
    simp only [scanDay, Spec.matchesDay_congr hscan, if_pos hmatch,
      Spec.timesOn_congr hscan] at hempty
    have hnot := List.find?_eq_none.mp hempty t' hmem'
    rw [decide_eq_true_iff] at hnot
    exact absurd hlater hnot

/-! ## Locations of a fixed offset -/

theorem date_fixed (offset n clock : ℤ) :
    date (fun _ => offset) n clock = second * (day * n + clock - offset) := rfl

theorem dayOf_fixed (offset t : ℤ) :
    dayOf (fun _ => offset) t = (t / second + offset) / day := rfl

theorem fixed_wellDated (offset lo hi : ℤ) : WellDated (fun _ => offset) lo hi where
  dated n clock hpos hlt _ := by
    rw [date_fixed, dayOf_fixed, second, Int.mul_ediv_cancel_left _ (by omega)]
    rw [day] at *
    omega
  forward t t' _ h _ := by
    rw [dayOf_fixed, dayOf_fixed, second, day]
    omega
  ordered n n' clock clock' _ hlt _ hpos hclock hpos' hclock' := by
    rw [date_fixed, date_fixed, second]
    rw [day] at *
    omega
  later n clock hlo _ hpos hlt := by
    rw [date_fixed]
    rw [dayOf_fixed] at hlo
    rw [second, day] at *
    omega

/-- Between two instants, no two slots of the rule are closer together than a gap. -/
def Spaced (loc : Location) (s : Spec) (gap lo hi : ℤ) : Prop :=
  ∀ t t', Slot loc s t → Slot loc s t' → lo < t → t < t' → t' ≤ hi → t + gap ≤ t'

/-- A slot is a minute of a local day. -/
theorem slot_minute (hs : s.validate = .ok ()) (hslot : Slot loc s t) :
    ∃ n md, 0 ≤ md ∧ md < 1440 ∧ t = date loc n (60 * md) ∧
      (s.freq = .minutely → s.interval ∣ md - s.minute % s.interval) ∧
      (s.freq ≠ .minutely → 60 ∣ md - s.minute) := by
  obtain ⟨d, -, before, rest, hlist, -⟩ := hslot
  have ht : t ∈ s.timesOn loc d := by
    rw [hlist]
    exact List.mem_append_right before List.mem_cons_self
  exact ⟨dayOf loc d, Spec.mem_timesOn hs ht⟩

/-- No step of a minutely rule leaves less than five minutes before midnight: none divides a day
less one to four minutes. -/
theorem minutely_gap {step n n' md md' phase : ℤ} (hstep : 5 ≤ step ∧ step ≤ 59)
    (hmd : 0 ≤ md ∧ md < 1440) (hmd' : 0 ≤ md' ∧ md' < 1440) (hdvd : step ∣ md - phase)
    (hdvd' : step ∣ md' - phase) (hlt : 1440 * n + md < 1440 * n' + md') :
    1440 * n + md + 5 ≤ 1440 * n' + md' := by
  have hdiff : step ∣ md' - md := by
    have hsub := Int.dvd_sub hdvd' hdvd
    rwa [show md' - phase - (md - phase) = md' - md by omega] at hsub
  rcases Int.lt_trichotomy n n' with hless | rfl | hmore
  · by_cases hnext : n' = n + 1
    · obtain ⟨hlow, hhigh⟩ := hstep
      interval_cases step <;> omega
    · omega
  · have hle := Int.le_of_dvd (by omega) hdiff
    omega
  · omega

/-- Where the offset is fixed, two slots are at least five minutes apart. -/
theorem fixed_spaced (offset lo hi : ℤ) (hs : s.validate = .ok ()) :
    Spaced (fun _ => offset) s (300 * second) lo hi := by
  intro t t' hslot hslot' _ hlt _
  obtain ⟨n, md, hpos, hmd, rfl, hstep, hhour⟩ := slot_minute hs hslot
  obtain ⟨n', md', hpos', hmd', rfl, hstep', hhour'⟩ := slot_minute hs hslot'
  rw [date_fixed, date_fixed, second, day] at hlt ⊢
  have hgap : 1440 * n + md + 5 ≤ 1440 * n' + md' := by
    by_cases hf : s.freq = .minutely
    · have hfreq := Spec.freq_valid hs
      rw [hf] at hfreq
      exact minutely_gap hfreq ⟨hpos, hmd⟩ ⟨hpos', hmd'⟩ (hstep hf) (hstep' hf) (by omega)
    · have hmod := hhour hf
      have hmod' := hhour' hf
      omega
  omega

end Marotte.Schedule

/-! ## The next run is the earliest slot

Where no clock change moves a local time to another date, the scan starts on the date of the instant
and comes by every later one, so that it always finds a time, and no slot is earlier.
-/
namespace Marotte.Schedule



/-- From an instant on, every local time resolves to an instant of its own date, and the date never
goes back. -/
structure KeepsDates (loc : Location) (lo : ℤ) : Prop where
  dated : ∀ n clock, 0 ≤ clock → clock < day → (dayOf loc lo ≤ n ∨ lo ≤ date loc n clock) →
    dayOf loc (date loc n clock) = n
  forward : ∀ t t', dayOf loc lo ≤ dayOf loc t → t ≤ t' → dayOf loc t ≤ dayOf loc t'

variable {loc : Location} {s : Spec} {lo t t' after : ℤ}

theorem KeepsDates.wellDated (h : KeepsDates loc lo) (hi : ℤ) : WellDated loc lo hi where
  dated n clock hpos hlt hin := by
    apply h.dated n clock hpos hlt
    rcases hin with ⟨hle, -⟩ | ⟨hle, -⟩
    · exact .inl hle
    · exact .inr hle
  forward t t' hlo hle _ := by
    apply h.forward t t' _ hle
    exact h.forward lo t le_rfl hlo
  ordered n n' clock clock' hlo hlt _ hpos hclock hpos' hclock' := by
    by_contra hle
    have hday := h.dated n clock hpos hclock (.inl hlo)
    have hday' := h.dated n' clock' hpos' hclock' (.inl (hlo.trans hlt.le))
    have hback := h.forward (date loc n' clock') (date loc n clock) (by omega) (by omega)
    omega
  later n clock hlo _ hpos hclock := by
    by_contra hle
    have hday := h.dated n clock hpos hclock (.inl hlo.le)
    have hback := h.forward (date loc n clock) lo (by omega) (by omega)
    omega

theorem KeepsDates.later (h : KeepsDates loc lo) (hle : lo ≤ t) : KeepsDates loc t where
  dated n clock hpos hlt hin := by
    apply h.dated n clock hpos hlt
    have hday := h.forward lo t le_rfl hle
    omega
  forward u u' hday hu := by
    apply h.forward u u' _ hu
    exact (h.forward lo t le_rfl hle).trans hday

/-- A valid rule always has a next run. -/
theorem KeepsDates.nextRun_isOk (h : KeepsDates loc after) (hs : s.validate = .ok ()) :
    ∃ t, nextRun loc s after = .ok t := by
  have hwell := h.wellDated (date loc (dayOf loc after + 100) 0)
  have hwindow : dayOf loc (date loc (dayOf loc after + 100) 0) = dayOf loc after + 100 :=
    h.dated _ 0 le_rfl (by rw [day]; omega) (.inl (by omega))
  obtain ⟨i, hpos, hle, hmatch⟩ := hwell.exists_match hs hwindow.ge
  have hsome := hwell.scanDay_isSome hs hpos (by omega) hmatch
  have hscan : ((List.range maxScanDays).findSome? (scanDay loc s after)).isSome := by
    rw [List.findSome?_isSome_iff]
    exact ⟨i, List.mem_range.mpr (by rw [maxScanDays]; omega), hsome⟩
  obtain ⟨t, ht⟩ := Option.isSome_iff_exists.mp hscan
  exact ⟨t, nextRun_eq_ok.mpr ⟨hs, ht⟩⟩

/-- The earliest slot after an instant. -/
structure EarliestSlot (loc : Location) (s : Spec) (after t : ℤ) : Prop where
  slot : Slot loc s t
  later : after < t
  least : ∀ t', Slot loc s t' → after < t' → t ≤ t'

theorem KeepsDates.earliest (h : KeepsDates loc after) (hs : s.validate = .ok ())
    (ht : nextRun loc s after = .ok t) : EarliestSlot loc s after t where
  slot := slot_of_nextRun ht
  later := nextRun_after ht
  least t' hslot hlater := by
    obtain ⟨u, hu, hle⟩ := (h.wellDated t').nextRun_le hs hslot hlater le_rfl
    rw [ht] at hu
    cases hu
    exact hle

/-- The run after `k` others. -/
def runAfter (loc : Location) (s : Spec) : ℕ → ℤ → Except String ℤ
  | 0, t => .ok t
  | k + 1, t => nextRun loc s t >>= runAfter loc s k

/-- The runs one after another come by every slot. -/
theorem KeepsDates.visits (h : KeepsDates loc after) (hs : s.validate = .ok ())
    (hslot : Slot loc s t') (hlater : after < t') : ∃ k, runAfter loc s k after = .ok t' := by
  induction hn : (t' - after).toNat using Nat.strong_induction_on generalizing after with
  | _ n ih =>
    obtain ⟨t, ht⟩ := h.nextRun_isOk hs
    have hearliest := h.earliest hs ht
    have hle := hearliest.least t' hslot hlater
    have hlt := hearliest.later
    rcases hle.eq_or_lt with rfl | hless
    · refine ⟨1, ?_⟩
      simp only [runAfter, ht]
      rfl
    · obtain ⟨k, hk⟩ := ih (t' - t).toNat (by omega) (h.later hlt.le) hless rfl
      refine ⟨k + 1, ?_⟩
      simp only [runAfter, ht]
      exact hk

/-- The offset goes up by an hour at an instant. -/
def springForward (offset change : ℤ) : Location :=
  fun t => if t < change then offset else offset + 3600

/-- 8 March 2026, 02:00 in New York. -/
def newYork : Location := springForward (-18000) (86400 * 20520 + 7 * 3600)

theorem wall_date (loc : Location) (n clock : ℤ) :
    wall loc (date loc n clock) =
      (day * n + clock - loc (day * n + clock - loc (day * n + clock))) +
        loc (day * n + clock - loc (day * n + clock - loc (day * n + clock))) := by
  have hsecond : date loc n clock / second =
      day * n + clock - loc (day * n + clock - loc (day * n + clock)) :=
    Int.mul_ediv_cancel_left _ (by decide)
  rw [wall, hsecond]

theorem newYork_keepsDates (lo : ℤ) : KeepsDates newYork lo where
  dated n clock hpos hlt _ := by
    rw [dayOf, wall_date]
    simp only [newYork, springForward, day] at *
    split_ifs <;> omega
  forward t t' _ hle := by
    simp only [newYork, springForward, dayOf, wall, second, day] at *
    split_ifs <;> omega

/-- Every seven minutes, from midnight. -/
def everySeven : Spec where
  freq := .minutely
  interval := 7

/-- Every day at nine. -/
def dailyAtNine : Spec where
  freq := .daily
  hour := 9

/-- 6 September 2026, midnight in Santiago: the hour that is left out is the first of the date. -/
def santiagoMidnight : Location := springForward (-14400) (86400 * 20702 + 4 * 3600)

end Marotte.Schedule
