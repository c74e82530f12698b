import MyMisu.Klog

/-!
# The uptime on the screen

`klog_print` shows a tick as seconds and hundredths, `cmd_sysmon` and `cmd_widgets` as minutes and
seconds.  The hundredths are printed without the zero that belongs in front of a single digit, and there
are two characters for the minutes: from a hundred minutes on the first of them is no digit, or one of
another number.
-/

namespace MyMisu

open Decimal

/-- What is stored in `ub`, the NUL included; `'0'+mn/10` is cut to a `char`. -/
def uptimeChars (tk : ℕ) : List UInt8 :=
  let sec := tk / 100
  let mn := sec / 60
  let sec := sec % 60
  (if mn ≥ 10 then [digit (mn / 10)] else []) ++ [digit (mn % 10), 109, space] ++
    (if sec ≥ 10 then [digit (sec / 10)] else []) ++ [digit (sec % 10), 115, 0]

/-- `ub` of `cmd_sysmon`, which holds anything before. -/
def sysmonUptime (ub : CharArray 16) (tk : ℕ) : Except Stuck (CharArray 16) := ub.storeAll 0 (uptimeChars tk)

/-- `ub` of `cmd_widgets` -/
def widgetsUptime (ub : CharArray 20) (tk : ℕ) : Except Stuck (CharArray 20) := ub.storeAll 0 (uptimeChars tk)

/-! ## What it should show -/

/-- `<minutes>m <seconds>s` -/
def UptimeText (text : List UInt8) (mn sec : ℕ) : Prop :=
  ∃ ms ss, text = ms ++ 109 :: space :: (ss ++ [115]) ∧ DenotesNat ms mn ∧ DenotesNat ss sec

/-- The three of them show the tick: the stamp as a number of seconds, the arrays, within their bounds,
whole minutes and the whole seconds left. -/
structure UptimeShown (tick : ℕ) : Prop where
  stamp : DenotesFraction (klogStamp tick) (tick / 100)
  sysmon : ∀ ub, ∃ b text, sysmonUptime ub tick = .ok b ∧ b.HasText text ∧
    UptimeText text (tick / 100 / 60) (tick / 100 % 60)
  widgets : ∀ ub, ∃ b text, widgetsUptime ub tick = .ok b ∧ b.HasText text ∧
    UptimeText text (tick / 100 / 60) (tick / 100 % 60)

/-! ## The stamp -/

theorem klogStamp_eq {tick : ℕ} (htick : tick < 2 ^ 31) :
    klogStamp tick = numeral (tick / 100) ++ 46 :: numeral (tick % 100) := by
  have hpoint : ascii "." = [46] := by decide
  rw [klogStamp, intOfU32_of_lt (by omega), intOfU32_of_lt (by omega), printInt_natCast, printInt_natCast,
    hpoint, List.append_assoc, List.singleton_append]

/-- Hundredths below ten would need a zero in front, but for none at all. -/
theorem stamp_iff {tick : ℕ} (htick : tick < 2 ^ 31) :
    DenotesFraction (klogStamp tick) (tick / 100) ↔ tick % 100 = 0 ∨ 10 ≤ tick % 100 := by
  have hsplit : (tick : ℚ) / 100 = (tick / 100 : ℕ) + (tick % 100 : ℕ) / 100 := by
    have hdiv : (tick : ℚ) = 100 * (tick / 100 : ℕ) + (tick % 100 : ℕ) := by
      exact_mod_cast (Nat.div_add_mod tick 100).symm
    rw [hdiv]
    ring
  have hlt := Nat.mod_lt tick (show 0 < 100 by decide)
  rw [klogStamp_eq htick, denotesFraction_numerals, hsplit, add_right_inj]
  by_cases hten : 10 ≤ tick % 100
  · rw [numeral_of_lt_hundred hten hlt]
    norm_num [hten]
  · -- one digit counts tenths
    rw [numeral_of_lt_ten (by omega), List.length_singleton, pow_one, div_eq_div_iff (by norm_num) (by norm_num)]
    have hcast : ((tick % 100 : ℕ) : ℚ) * 10 = (tick % 100 : ℕ) * 100 ↔ tick % 100 * 10 = tick % 100 * 100 := by
      exact_mod_cast Iff.rfl
    rw [hcast]
    omega

/-! ## The arrays -/

theorem length_uptimeChars (tk : ℕ) : (uptimeChars tk).length ≤ 8 := by
  unfold uptimeChars
  simp only
  split_ifs <;> simp

/-- The stores stay in an array of eight, and a NUL is the last of them. -/
theorem uptimeChars_stored {size : ℕ} (hsize : 8 ≤ size) (ub : CharArray size) (tk : ℕ) :
    ∃ b, ub.storeAll 0 (uptimeChars tk) = .ok b ∧ b.HasText (cString (uptimeChars tk)) := by
  have hlen := length_uptimeChars tk
  obtain ⟨b, hrun, hbytes⟩ := ub.storeAll_ok (show 0 + (uptimeChars tk).length ≤ size by omega)
  have hnul : 0 ∈ uptimeChars tk := by simp [uptimeChars]
  rw [List.take_zero, List.nil_append] at hbytes
  refine ⟨b, hrun, ?_, ?_⟩
  · rw [hbytes]
    exact List.mem_append_left _ hnul
  · show cString b.bytes = _
    rw [hbytes, cString_append_of_mem hnul]

/-- Two digits at most are enough for the numbers below a hundred. -/
theorem twoDigits_eq {n : ℕ} (h : n < 100) :
    (if n ≥ 10 then [digit (n / 10)] else []) ++ [digit (n % 10)] = numeral n := by
  by_cases hten : 10 ≤ n
  · rw [if_pos hten, numeral_of_lt_hundred hten h]
    rfl
  · rw [if_neg hten, numeral_of_lt_ten (by omega), Nat.mod_eq_of_lt (by omega)]
    rfl

theorem uptimeChars_eq {tk : ℕ} (h : tk / 100 / 60 < 100) :
    uptimeChars tk =
      numeral (tk / 100 / 60) ++ 109 :: space :: (numeral (tk / 100 % 60) ++ [115]) ++ [0] := by
  rw [← twoDigits_eq h, ← twoDigits_eq (show tk / 100 % 60 < 100 by omega)]
  simp [uptimeChars]

/-- Digits and letters, and no NUL. -/
theorem uptime_noNul {ms ss : List UInt8} (hms : ∀ c ∈ ms, IsDigit c) (hss : ∀ c ∈ ss, IsDigit c) :
    ∀ b ∈ ms ++ 109 :: space :: (ss ++ [115]), b ≠ 0 := by
  have hdigit : ∀ c, IsDigit c → c ≠ 0 := by
    rintro c hc rfl
    exact absurd hc (by decide)
  intro b hb
  simp only [List.mem_cons, List.mem_append, List.not_mem_nil, or_false] at hb
  rcases hb with hb | rfl | rfl | hb | rfl
  · exact hdigit b (hms b hb)
  · decide
  · decide
  · exact hdigit b (hss b hb)
  · decide

/-- From a hundred minutes on, the characters of the minutes are two. -/
theorem uptimeChars_of_many {tk : ℕ} (h : 100 ≤ tk / 100 / 60) :
    uptimeChars tk = digit (tk / 100 / 60 / 10) ::
      ([digit (tk / 100 / 60 % 10)] ++ 109 :: space :: (numeral (tk / 100 % 60) ++ [115]) ++ [0]) := by
  have hten : tk / 100 / 60 ≥ 10 := by omega
  rw [← twoDigits_eq (show tk / 100 % 60 < 100 by omega), uptimeChars, if_pos hten]
  simp

/-- Two characters denote no number from a hundred on. -/
theorem not_uptimeText {c d : UInt8} {rest : List UInt8} {mn sec : ℕ} (hmany : 100 ≤ mn) :
    ¬ UptimeText (c :: d :: 109 :: rest) mn sec := by
  rintro ⟨ms, ss, htext, hms, hss⟩
  have hm : ¬ IsDigit 109 := by decide
  have hbehind : 109 ∉ space :: (ss ++ [115]) := by
    simp [hss.notMem hm, show (109 : UInt8) ≠ space by decide]
  -- the letter behind the minutes is the first one that is no digit
  have hsplit : ms ++ 109 :: space :: (ss ++ [115]) = [c, d] ++ 109 :: rest := htext.symm
  obtain ⟨rfl, -, -⟩ := (List.append_cons_inj_of_notMem (hms.notMem hm) hbehind).mp hsplit
  have hc := digitVal_le (hms.digits c (by simp))
  have hd := digitVal_le (hms.digits d (by simp))
  have hvalue : (0 * 10 + digitVal c) * 10 + digitVal d = mn := hms.value
  omega

theorem uptimeText_iff (tk : ℕ) :
    UptimeText (cString (uptimeChars tk)) (tk / 100 / 60) (tk / 100 % 60) ↔ tk / 100 / 60 < 100 := by
  constructor
  · intro h
    by_contra hfew
    have hdigit : ∀ c ∈ [digit (tk / 100 / 60 % 10)], IsDigit c :=
      List.forall_mem_singleton.mpr (isDigit_digit (Nat.mod_lt _ (by decide)))
    rw [uptimeChars_of_many (by omega), cString_cons,
      cString_append_nul (uptime_noNul hdigit (isDigit_numeral _))] at h
    split_ifs at h
    · -- the first character may even end the string
      obtain ⟨ms, ss, htext, -⟩ := h
      simp at htext
    · exact not_uptimeText (by omega) h
  · intro h
    refine ⟨_, _, ?_, denotesNat_numeral _, denotesNat_numeral _⟩
    rw [uptimeChars_eq h]
    exact cString_append_nul (uptime_noNul (isDigit_numeral _) (isDigit_numeral _)) []

/-- The array, as either command fills it. -/
theorem uptime_stored_iff {size : ℕ} (hsize : 8 ≤ size) (tk : ℕ) :
    (∀ ub : CharArray size, ∃ b text, ub.storeAll 0 (uptimeChars tk) = .ok b ∧ b.HasText text ∧
      UptimeText text (tk / 100 / 60) (tk / 100 % 60)) ↔ tk / 100 / 60 < 100 := by
  rw [← uptimeText_iff]
  constructor
  · intro h
    let ub : CharArray size := ⟨List.replicate size 0, List.length_replicate⟩
    obtain ⟨b, text, hrun, ⟨-, htext⟩, hshown⟩ := h ub
    obtain ⟨b', hrun', -, htext'⟩ := uptimeChars_stored hsize ub tk
    obtain rfl := Except.ok.inj (hrun.symm.trans hrun')
    rwa [← htext', htext]
  · intro hshown ub
    obtain ⟨b, hrun, htext⟩ := uptimeChars_stored hsize ub tk
    exact ⟨b, _, hrun, htext, hshown⟩

/-- **The uptime.**  The tick is shown when its hundredths are none or at least ten, and its minutes
below a hundred. -/
theorem uptimeShown_iff (tick : ℕ) (htick : tick < 2 ^ 31) :
    UptimeShown tick ↔ (tick % 100 = 0 ∨ 10 ≤ tick % 100) ∧ tick / 100 / 60 < 100 := by
  constructor
  · intro h
    exact ⟨(stamp_iff htick).mp h.stamp, (uptime_stored_iff (by decide) tick).mp h.sysmon⟩
  · rintro ⟨hstamp, hfew⟩
    exact {
      stamp := (stamp_iff htick).mpr hstamp
      sysmon := (uptime_stored_iff (by decide) tick).mpr hfew
      widgets := (uptime_stored_iff (by decide) tick).mpr hfew }

theorem uptimeShown_54321 : UptimeShown 54321 :=
  (uptimeShown_iff 54321 (by decide)).mpr (by decide)

/-- 1.05 seconds are shown as 1.5. -/
theorem not_uptimeShown : ¬ ∀ tick < 2 ^ 31, UptimeShown tick := by
  intro h
  have hstamp := (stamp_iff (show 105 < 2 ^ 31 by decide)).mp (h 105 (by decide)).stamp
  exact absurd hstamp (by decide)

end MyMisu
