import MyMisu.Keyboard.State
import MyMisu.Lib.TransitionSystem

/-!
# The keyboard queue

`keyboard_getchar` taken apart into its loop test, its read of the buffer and its advance of
`kb_read`, with a push of the interrupt handler possible before each of them.  What was accepted is
what was returned followed by what still waits in the ring.
-/

namespace MyMisu

/-- Where the consumer is: at the loop test, behind it, or with a character read. -/
inductive GetcharPos
  | test | load
  | advance (c : UInt8)

/-- The driver with the characters accepted by `kb_push` and returned by `keyboard_getchar` so
far. -/
structure KbHist where
  kb : Keyboard
  pos : GetcharPos
  accepted : List UInt8
  returned : List UInt8

inductive KbEvent
  | push (c : UInt8)
  | consumer

namespace KbHist

def start : KbHist := ⟨.start, .test, [], []⟩

/-- A push is accepted when it moves `kb_write`. -/
def push (h : KbHist) (c : UInt8) : KbHist :=
  let kb := kbPush h.kb c
  { h with
    kb := kb
    accepted := if kb.kbWrite = h.kb.kbWrite then h.accepted else h.accepted ++ [c] }

/-- The next statement of `keyboard_getchar`; the loop stays at its test while the buffer is
empty, and a call that returns is followed by the next one. -/
def consumer (h : KbHist) : KbHist :=
  match h.pos with
  | .test => if h.kb.kbRead = h.kb.kbWrite then h else { h with pos := .load }
  | .load => { h with pos := .advance (h.kb.kbBuffer h.kb.kbRead) }
  | .advance c =>
    { h with
      kb := { h.kb with kbRead := (h.kb.kbRead + 1) % kbBufferSize }
      pos := .test
      returned := h.returned ++ [c] }

def exec (h : KbHist) : KbEvent → KbHist
  | .push c => h.push c
  | .consumer => h.consumer

end KbHist

def kbSystem : TransitionSystem KbHist KbEvent := .ofFun (fun h => h = .start) KbHist.exec

/-- The characters returned are those accepted, in their order and each once; a push is refused
with 255 of them waiting and only then; and the consumer left alone returns all of them. -/
structure LosslessFifo (h : KbHist) : Prop where
  order : h.returned <+: h.accepted
  inHand : ∀ c, h.pos = .advance c → h.returned ++ [c] <+: h.accepted
  haschar : keyboardHaschar h.kb = true ↔ h.returned.length < h.accepted.length
  refused : ∀ c, (h.push c).accepted = h.accepted ↔
    h.accepted.length = h.returned.length + 255
  accepted : ∀ c, h.accepted.length ≠ h.returned.length + 255 →
    (h.push c).accepted = h.accepted ++ [c]
  drained : ∃ n, (KbHist.consumer^[n] h).returned = h.accepted

namespace KbHist

/-- What waits in the ring. -/
def waiting (h : KbHist) : List UInt8 := h.kb.ring.items kbBufferSize

structure Inv (h : KbHist) : Prop where
  inRange : h.kb.ring.InRange kbBufferSize
  accepted : h.accepted = h.returned ++ h.waiting
  behindTest : h.pos ≠ .test → h.kb.kbRead ≠ h.kb.kbWrite
  inHand : ∀ c, h.pos = .advance c → c = h.kb.kbBuffer h.kb.kbRead

namespace Inv

variable {h : KbHist}

theorem start : Inv .start :=
  ⟨⟨by decide, by decide⟩, rfl, fun hpos => absurd rfl hpos, fun _ hpos => nomatch hpos⟩

/-- A push moves `kb_write` when the ring has room for it. -/
theorem push_moves (hi : Inv h) (c : UInt8) :
    (kbPush h.kb c).kbWrite ≠ h.kb.kbWrite ↔ (h.kb.kbWrite + 1) % kbBufferSize ≠ h.kb.kbRead := by
  have hw : h.kb.kbWrite < 256 := hi.inRange.write
  have hmoved : (h.kb.kbWrite + 1) % kbBufferSize ≠ h.kb.kbWrite := by
    simp only [kbBufferSize]
    omega
  simp only [kbPush]
  split
  · exact ⟨fun _ => ‹_›, fun _ => hmoved⟩
  · exact ⟨fun hne => absurd rfl hne, fun hne => absurd hne ‹_›⟩

theorem full_iff (hi : Inv h) :
    (h.kb.kbWrite + 1) % kbBufferSize = h.kb.kbRead ↔ h.waiting.length = 255 := by
  rw [waiting, RingBuffer.length_items]
  exact hi.inRange.full_iff

theorem push_accepted (hi : Inv h) (c : UInt8) :
    (h.push c).accepted =
      if h.waiting.length = 255 then h.accepted else h.accepted ++ [c] := by
  by_cases hfull : h.waiting.length = 255
  · have hsame : (kbPush h.kb c).kbWrite = h.kb.kbWrite := by
      by_contra hne
      exact (hi.push_moves c).mp hne (hi.full_iff.mpr hfull)
    rw [if_pos hfull, KbHist.push]
    exact if_pos hsame
  · have hmoved := (hi.push_moves c).mpr fun heq => hfull (hi.full_iff.mp heq)
    rw [if_neg hfull, KbHist.push]
    exact if_neg hmoved

theorem push (hi : Inv h) (c : UInt8) : Inv (h.push c) := by
  have haccepted := hi.push_accepted c
  have hring : (h.push c).kb.ring = _ := kbPush_ring h.kb c
  by_cases hfull : h.waiting.length = 255
  · have hstays : ¬ (h.kb.kbWrite + 1) % kbBufferSize ≠ h.kb.kbRead := not_not.mpr (hi.full_iff.mpr hfull)
    have hkb : (h.push c).kb = h.kb := if_neg hstays
    rw [if_pos hfull] at haccepted
    constructor
    · rw [hkb]
      exact hi.inRange
    · rw [haccepted, waiting, hkb]
      exact hi.accepted
    · rw [hkb]
      exact hi.behindTest
    · rw [hkb]
      exact hi.inHand
  · have hmoves : (h.kb.kbWrite + 1) % kbBufferSize ≠ h.kb.kbRead :=
      fun heq => hfull (hi.full_iff.mp heq)
    have hkb : (h.push c).kb = { h.kb with
        kbBuffer := Function.update h.kb.kbBuffer h.kb.kbWrite c
        kbWrite := (h.kb.kbWrite + 1) % kbBufferSize } := if_pos hmoves
    rw [if_neg hfull] at haccepted
    rw [if_pos hmoves] at hring
    constructor
    · rw [hring]
      exact hi.inRange.put c
    · rw [haccepted, waiting, hring, hi.inRange.items_put hmoves c, hi.accepted, List.append_assoc]
      rfl
    · intro _
      rw [hkb]
      exact fun heq => hmoves heq.symm
    -- the cell of the character in hand is not the one written
    · intro c' hpos
      have hne : h.kb.kbRead ≠ h.kb.kbWrite :=
        hi.behindTest fun htest => nomatch htest.symm.trans hpos
      rw [hkb]
      show c' = Function.update h.kb.kbBuffer h.kb.kbWrite c h.kb.kbRead
      rw [Function.update_of_ne hne]
      exact hi.inHand c' hpos

/-- The consumer between two calls with something waiting. -/
theorem waiting_cons (hi : Inv h) (hne : h.kb.kbRead ≠ h.kb.kbWrite) :
    h.waiting = h.kb.kbBuffer h.kb.kbRead :: (h.kb.ring.skip kbBufferSize).items kbBufferSize :=
  hi.inRange.items_skip hne

theorem consumer (hi : Inv h) : Inv h.consumer := by
  unfold KbHist.consumer
  cases hpos : h.pos with
  | test =>
    simp only
    split
    · exact hi
    · exact ⟨hi.inRange, hi.accepted, fun _ => ‹_›, fun _ hc => nomatch hc⟩
  | load =>
    refine ⟨hi.inRange, hi.accepted, fun _ => hi.behindTest (by rw [hpos]; exact nofun), ?_⟩
    intro c hc
    cases hc
    rfl
  | advance c =>
    have hne : h.kb.kbRead ≠ h.kb.kbWrite := hi.behindTest (by rw [hpos]; exact nofun)
    refine ⟨hi.inRange.skip, ?_, fun htest => absurd rfl htest, fun _ hc => nomatch hc⟩
    show h.accepted = (h.returned ++ [c]) ++ (h.kb.ring.skip kbBufferSize).items kbBufferSize
    rw [hi.accepted, hi.waiting_cons hne, hi.inHand c hpos, List.append_assoc]
    rfl

theorem exec (hi : Inv h) (e : KbEvent) : Inv (h.exec e) := by
  cases e with
  | push c => exact hi.push c
  | consumer => exact hi.consumer

theorem reachable (hr : kbSystem.Reachable h) : Inv h := by
  refine hr.invariant (fun h hs => ?_) (fun h e h' _ hi _ hstep => ?_)
  · have hs : h = .start := hs
    rw [hs]
    exact start
  · rw [hstep]
    exact hi.exec e

/-! ## What the consumer does alone -/

theorem consumer_accepted (h : KbHist) : h.consumer.accepted = h.accepted := by
  unfold KbHist.consumer
  split
  · split <;> rfl
  · rfl
  · rfl

/-- The statements left until everything that waits has been returned. -/
def stepsLeft (h : KbHist) : ℕ :=
  3 * h.waiting.length +
    match h.pos with
    | .test => 2
    | .load => 1
    | .advance _ => 0

theorem stepsLeft_consumer (hi : Inv h) (hne : h.kb.kbRead ≠ h.kb.kbWrite) :
    stepsLeft h.consumer + 1 = stepsLeft h := by
  cases hpos : h.pos with
  | test =>
    have hnext : h.consumer = { h with pos := .load } := by
      simp only [KbHist.consumer, hpos, if_neg hne]
    rw [hnext, stepsLeft, stepsLeft, hpos]
    rfl
  | load =>
    have hnext : h.consumer = { h with pos := .advance (h.kb.kbBuffer h.kb.kbRead) } := by
      simp only [KbHist.consumer, hpos]
    rw [hnext, stepsLeft, stepsLeft, hpos]
    rfl
  | advance c =>
    have hwaiting : h.consumer.waiting = (h.kb.ring.skip kbBufferSize).items kbBufferSize := by
      simp only [KbHist.consumer, hpos]
      rfl
    have hnext : h.consumer.pos = .test := by simp only [KbHist.consumer, hpos]
    rw [stepsLeft, stepsLeft, hnext, hpos, hwaiting, hi.waiting_cons hne, List.length_cons]
    simp only
    omega

theorem waiting_eq_nil (hi : Inv h) : h.waiting = [] ↔ h.kb.kbRead = h.kb.kbWrite := by
  rw [← List.length_eq_zero_iff, waiting, RingBuffer.length_items]
  exact hi.inRange.count_eq_zero

theorem drained (hi : Inv h) : ∃ n, (KbHist.consumer^[n] h).returned = h.accepted := by
  -- on the statements left
  induction hsteps : stepsLeft h using Nat.strong_induction_on generalizing h with
  | _ k ih =>
    by_cases hempty : h.kb.kbRead = h.kb.kbWrite
    · refine ⟨0, ?_⟩
      have haccepted := hi.accepted
      rw [hi.waiting_eq_nil.mpr hempty, List.append_nil] at haccepted
      exact haccepted.symm
    · have hless := hi.stepsLeft_consumer hempty
      have ⟨n, hn⟩ := ih _ (by omega) hi.consumer rfl
      refine ⟨n + 1, ?_⟩
      rw [Function.iterate_succ_apply, hn, consumer_accepted]

end Inv

end KbHist

/-- In every interleaving of pushes with the statements of one consumer the queue is a lossless
first-in first-out queue of 255 characters. -/
theorem keyboard_queue_lossless (h : KbHist) (hr : kbSystem.Reachable h) : LosslessFifo h := by
  have hi := KbHist.Inv.reachable hr
  have hlength : h.accepted.length = h.returned.length + h.waiting.length := by
    rw [hi.accepted, List.length_append]
  have hfull : h.accepted.length = h.returned.length + 255 ↔ h.waiting.length = 255 := by omega
  constructor
  · exact ⟨h.waiting, hi.accepted.symm⟩
  · intro c hpos
    have hne := hi.behindTest (by rw [hpos]; exact nofun)
    refine ⟨(h.kb.ring.skip kbBufferSize).items kbBufferSize, ?_⟩
    rw [hi.accepted, hi.waiting_cons hne, hi.inHand c hpos, List.append_assoc]
    rfl
  · have hempty := hi.waiting_eq_nil
    rw [← List.length_eq_zero_iff] at hempty
    unfold keyboardHaschar
    rw [decide_eq_true_iff, ne_eq, ← hempty]
    omega
  · intro c
    rw [hi.push_accepted c, hfull]
    split
    · exact ⟨fun _ => ‹_›, fun _ => rfl⟩
    · exact ⟨fun heq => absurd heq (by simp), fun heq => absurd heq ‹_›⟩
  · intro c hroom
    rw [hi.push_accepted c, if_neg fun heq => hroom (hfull.mpr heq)]
  · exact hi.drained

/-- Two characters pushed, one of them between the read of the first and the advance. -/
theorem keyboard_queue_lossless_two :
    LosslessFifo ((((((KbHist.start.exec (.push 104)).exec .consumer).exec .consumer).exec
      (.push 105)).exec .consumer).exec .consumer) :=
  keyboard_queue_lossless _
    (.next (.next (.next (.next (.next (.next (.init rfl) rfl) rfl) rfl) rfl) rfl) rfl)

end MyMisu
