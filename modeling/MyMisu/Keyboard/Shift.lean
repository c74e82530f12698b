import MyMisu.Keyboard.State

/-!
# The shift keys

`shift_pressed` is one flag for two keys.  It is set by a press of either and cleared by a release of
either, so that it is wrong exactly after one of them has been released with the other still held.
-/

namespace MyMisu

/-! ## What has happened since -/

section Since

variable {α : Type*}

/-- At some point of the history an event was an `event`, given what was before it, and since then
nothing has been a `reset`. -/
def Since (event : List α → α → Prop) (reset : α → Prop) (history : List α) : Prop :=
  ∃ before a after, history = before ++ a :: after ∧ event before a ∧ ∀ x ∈ after, ¬ reset x

variable {event : List α → α → Prop} {reset : α → Prop}

@[simp] theorem since_nil : ¬ Since event reset [] := by
  rintro ⟨before, a, after, h, -⟩
  exact List.append_ne_nil_of_right_ne_nil _ (List.cons_ne_nil _ _) h.symm

theorem since_append_singleton (history : List α) (a : α) :
    Since event reset (history ++ [a]) ↔
      event history a ∨ (¬ reset a ∧ Since event reset history) := by
  constructor
  · rintro ⟨before, b, after, h, hevent, hreset⟩
    rcases List.eq_nil_or_concat after with rfl | ⟨after, c, rfl⟩
    · obtain ⟨rfl, hb⟩ := List.append_inj' h rfl
      cases hb
      exact .inl hevent
    · rw [List.concat_eq_append, ← List.cons_append, ← List.append_assoc] at h
      obtain ⟨rfl, hc⟩ := List.append_inj' h rfl
      cases hc
      rw [List.concat_eq_append, List.forall_mem_append, List.forall_mem_singleton] at hreset
      exact .inr ⟨hreset.2, before, b, after, rfl, hevent, hreset.1⟩
  · rintro (hevent | ⟨ha, before, b, after, rfl, hevent, hreset⟩)
    · exact ⟨history, a, [], rfl, hevent, List.forall_mem_nil _⟩
    · refine ⟨before, b, after ++ [a], by rw [List.append_assoc, List.cons_append], hevent, ?_⟩
      rw [List.forall_mem_append, List.forall_mem_singleton]
      exact ⟨hreset, ha⟩

end Since

/-! ## The bytes of the two keys -/

def leftShift : UInt8 := 0x2A
def rightShift : UInt8 := 0x36

/-- The byte of a release. -/
def breakCode (make : UInt8) : UInt8 := make ||| 0x80

/-- The bytes that are neither a prefix 0xE0 nor consumed by one. -/
def unprefixed : (prefixed : Bool) → List UInt8 → List UInt8
  | _, [] => []
  | prefixed, b :: bytes =>
    if b = 0xE0 then unprefixed true bytes
    else if prefixed then unprefixed false bytes
    else b :: unprefixed false bytes

/-- The key has been pressed and not been released since. -/
def Held (make : UInt8) : List UInt8 → Prop := Since (fun _ b => b = make) (· = breakCode make)

def IsShiftCode (b : UInt8) : Prop :=
  b = leftShift ∨ b = rightShift ∨ b = breakCode leftShift ∨ b = breakCode rightShift

/-- The last byte of a shift key is that of a release with the other key held. -/
def ReleasedOverHeld : List UInt8 → Prop :=
  Since (fun before b => (b = breakCode leftShift ∧ Held rightShift before) ∨
    (b = breakCode rightShift ∧ Held leftShift before)) IsShiftCode

/-- The driver after the bytes. -/
def keyboardAfter (bytes : List UInt8) : Keyboard := bytes.foldl keyboardCallback .start

structure ShiftFollows (bytes : List UInt8) : Prop where
  held : (keyboardAfter bytes).shiftPressed = true ↔
    Held leftShift (unprefixed false bytes) ∨ Held rightShift (unprefixed false bytes)
  /-- Prefixes and the byte behind them leave the flags alone, and no further byte is consumed. -/
  prefixed : ∀ n b, b ≠ 0xE0 → ∀ kb,
    kb = keyboardAfter (bytes ++ List.replicate (n + 1) 0xE0 ++ [b]) →
      kb.shiftPressed = (keyboardAfter bytes).shiftPressed ∧
        kb.capsLock = (keyboardAfter bytes).capsLock ∧ kb.extended = false

/-! ## One byte -/

theorem kbPush_flags (kb : Keyboard) (c : UInt8) :
    (kbPush kb c).shiftPressed = kb.shiftPressed ∧ (kbPush kb c).capsLock = kb.capsLock ∧
      (kbPush kb c).extended = kb.extended := by
  simp only [kbPush]
  split_ifs <;> exact ⟨rfl, rfl, rfl⟩

/-- A byte consumed by a prefix. -/
theorem keyboardCallback_consumed {kb : Keyboard} (hext : kb.extended = true) {b : UInt8}
    (hb : b ≠ 0xE0) :
    (keyboardCallback kb b).shiftPressed = kb.shiftPressed ∧
      (keyboardCallback kb b).capsLock = kb.capsLock ∧ (keyboardCallback kb b).extended = false := by
  unfold keyboardCallback
  rw [if_neg hb, if_pos hext]
  simp only
  split_ifs <;> simp [kbPush_flags]

theorem releases_iff (b : UInt8) :
    b &&& 0x80 ≠ 0 ∧ (b &&& 0x7F = 0x2A ∨ b &&& 0x7F = 0x36) ↔
      b = breakCode leftShift ∨ b = breakCode rightShift := by
  have hall : ∀ v : BitVec 8, UInt8.ofBitVec v &&& 0x80 ≠ 0 ∧
      (UInt8.ofBitVec v &&& 0x7F = 0x2A ∨ UInt8.ofBitVec v &&& 0x7F = 0x36) ↔
        UInt8.ofBitVec v = breakCode leftShift ∨ UInt8.ofBitVec v = breakCode rightShift := by
    decide +kernel
  exact hall b.toBitVec

/-- What a byte does to the flag. -/
def shiftStep (pressed : Bool) (b : UInt8) : Bool :=
  if b = breakCode leftShift ∨ b = breakCode rightShift then false
  else if b = leftShift ∨ b = rightShift then true
  else pressed

/-- A byte that no prefix consumes. -/
theorem keyboardCallback_plain {kb : Keyboard} (hext : kb.extended = false) {b : UInt8}
    (hb : b ≠ 0xE0) :
    (keyboardCallback kb b).shiftPressed = shiftStep kb.shiftPressed b ∧
      (keyboardCallback kb b).extended = false := by
  have hreleases := releases_iff b
  unfold keyboardCallback shiftStep
  rw [if_neg hb, if_neg (ne_true_of_eq_false hext)]
  by_cases hbit : b &&& 0x80 ≠ 0
  · rw [if_pos hbit]
    simp only
    rw [and_iff_right hbit] at hreleases
    by_cases hshift : b &&& 0x7F = 0x2A ∨ b &&& 0x7F = 0x36
    · rw [if_pos hshift, if_pos (hreleases.mp hshift)]
      exact ⟨rfl, hext⟩
    · -- the release of another key
      have hmake : ¬ (b = leftShift ∨ b = rightShift) := by
        rintro (rfl | rfl) <;> exact hbit (by decide)
      rw [if_neg hshift, if_neg (mt hreleases.mpr hshift), if_neg hmake]
      exact ⟨rfl, hext⟩
  · rw [if_neg hbit, if_neg fun h => hbit (hreleases.mpr h).1]
    by_cases hmake : b = 0x2A ∨ b = 0x36
    · rw [if_pos hmake, if_pos (show b = leftShift ∨ b = rightShift from hmake)]
      exact ⟨rfl, hext⟩
    · rw [if_neg hmake, if_neg (show ¬ (b = leftShift ∨ b = rightShift) from hmake)]
      -- the other keys push a character at most
      simp only
      split_ifs <;> simp [kbPush_flags, hext]

/-! ## Every byte -/

theorem shiftPressed_foldl (kb : Keyboard) (bytes : List UInt8) :
    (bytes.foldl keyboardCallback kb).shiftPressed =
      (unprefixed kb.extended bytes).foldl shiftStep kb.shiftPressed := by
  induction bytes generalizing kb with
  | nil => rfl
  | cons b bytes ih =>
    rw [List.foldl_cons, ih, unprefixed]
    by_cases hprefix : b = 0xE0
    · have hcall : keyboardCallback kb b = { kb with extended := true } := if_pos hprefix
      rw [if_pos hprefix, hcall]
    · rw [if_neg hprefix]
      by_cases hext : kb.extended = true
      · have hcall := keyboardCallback_consumed hext hprefix
        rw [if_pos hext, hcall.1, hcall.2.2]
      · have hcall := keyboardCallback_plain (Bool.eq_false_iff.mpr hext) hprefix
        rw [if_neg hext, hcall.1, hcall.2, List.foldl_cons]

theorem keyboardCallback_prefixes (kb : Keyboard) (n : ℕ) :
    (List.replicate (n + 1) 0xE0).foldl keyboardCallback kb = { kb with extended := true } := by
  induction n generalizing kb with
  | zero => rfl
  | succ n ih =>
    rw [List.replicate_succ, List.foldl_cons, ih]
    rfl

theorem held_append (make : UInt8) (history : List UInt8) (b : UInt8) :
    Held make (history ++ [b]) ↔ b = make ∨ (b ≠ breakCode make ∧ Held make history) :=
  since_append_singleton history b

theorem releasedOverHeld_append (history : List UInt8) (b : UInt8) :
    ReleasedOverHeld (history ++ [b]) ↔
      ((b = breakCode leftShift ∧ Held rightShift history) ∨
        (b = breakCode rightShift ∧ Held leftShift history)) ∨
      (¬ IsShiftCode b ∧ ReleasedOverHeld history) :=
  since_append_singleton history b

/-- The flag is right unless a key has been released over the other one. -/
theorem shiftStep_held_iff (history : List UInt8) :
    (history.foldl shiftStep false = true ↔ Held leftShift history ∨ Held rightShift history) ↔
      ¬ ReleasedOverHeld history := by
  induction history using List.reverseRecOn with
  | nil => simp [Held, ReleasedOverHeld]
  | append_singleton history b ih =>
    rw [List.foldl_append, List.foldl_cons, List.foldl_nil, held_append, held_append,
      releasedOverHeld_append]
    by_cases hleft : b = leftShift
    · subst hleft
      simp +decide [shiftStep, IsShiftCode]
    by_cases hright : b = rightShift
    · subst hright
      simp +decide [shiftStep, IsShiftCode]
    by_cases hleft' : b = breakCode leftShift
    · subst hleft'
      simp +decide [shiftStep, IsShiftCode]
    by_cases hright' : b = breakCode rightShift
    · subst hright'
      simp +decide [shiftStep, IsShiftCode]
    · have hother : ¬ IsShiftCode b := by simp [IsShiftCode, hleft, hright, hleft', hright']
      simpa [shiftStep, hleft, hright, hleft', hright', hother] using ih

theorem shift_follows_iff (bytes : List UInt8) :
    ShiftFollows bytes ↔ ¬ ReleasedOverHeld (unprefixed false bytes) := by
  rw [← shiftStep_held_iff]
  have hflag : (keyboardAfter bytes).shiftPressed = (unprefixed false bytes).foldl shiftStep false :=
    shiftPressed_foldl .start bytes
  rw [← hflag]
  constructor
  · exact ShiftFollows.held
  · intro hheld
    refine ⟨hheld, fun n b hb kb hkb => ?_⟩
    have hafter : kb = keyboardCallback { keyboardAfter bytes with extended := true } b := by
      rw [hkb, keyboardAfter, List.foldl_append, List.foldl_append, keyboardCallback_prefixes]
      rfl
    rw [hafter]
    exact @keyboardCallback_consumed { keyboardAfter bytes with extended := true } rfl b hb

/-- One key released with the other still held. -/
theorem shift_lost : ¬ ∀ bytes, ShiftFollows bytes := by
  intro hall
  have hheld := (hall [leftShift, rightShift, breakCode leftShift]).held.mpr
    (.inr ⟨[leftShift], rightShift, [breakCode leftShift], rfl, rfl, by decide +kernel⟩)
  exact absurd hheld (by decide)

end MyMisu
