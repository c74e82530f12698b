import MyMisu.Keyboard.Queue
import MyMisu.Keyboard.Shift
import MyMisu.Lib.Replies
import MyMisu.Lib.Transducer

/-!
# From scan codes to characters

The handler as a decoder in front of the queue: three modes and at most one character for each scan
code.  However key interrupts and the statements of `keyboard_getchar` interleave, the characters
returned are the decoded ones in their order, and what is typed on the keys of a text is returned as
that text, with caps lock on or off, as long as the queue does not fill up.
-/

namespace MyMisu

/-! ## The decoder -/

/-- What the handler remembers from one scan code to the next. -/
structure KeyModes where
  shift : Bool
  caps : Bool
  extended : Bool
  deriving DecidableEq

/-- The character of an extended scan code. -/
def extendedKey (code : UInt8) : Option UInt8 :=
  if code = 0x48 then some keyUp
  else if code = 0x50 then some keyDown
  else if code = 0x4B then some keyLeft
  else if code = 0x4D then some keyRight
  else none

/-- The character of a plain make code: a letter is shifted by shift or caps lock, any other key by
shift. -/
def plainKey (m : KeyModes) (code : UInt8) : Option UInt8 :=
  let normal := scancodeNormal.getD code.toNat 0
  let letter := 97 ≤ normal ∧ normal ≤ 122
  let c :=
    if xor m.shift (m.caps && decide letter) then scancodeShift.getD code.toNat 0 else normal
  if c = 0 then none else some c

def decodeKey (m : KeyModes) (code : UInt8) : KeyModes × Option UInt8 :=
  if code = 0xE0 then ({ m with extended := true }, none)
  else if m.extended then ({ m with extended := false }, extendedKey code)
  else if code = breakCode leftShift ∨ code = breakCode rightShift then
    ({ m with shift := false }, none)
  else if 0x80 ≤ code then (m, none)
  else if code = leftShift ∨ code = rightShift then ({ m with shift := true }, none)
  else if code = 0x3A then ({ m with caps := !m.caps }, none)
  else if code = 0x01 then (m, some keyEsc)
  else (m, plainKey m code)

/-- The text that a stream of scan codes stands for. -/
abbrev decodeKeys (m : KeyModes) (codes : List UInt8) : List UInt8 :=
  Transducer.output decodeKey m codes

abbrev modesAfter (m : KeyModes) (codes : List UInt8) : KeyModes :=
  Transducer.after decodeKey m codes

def Keyboard.modes (kb : Keyboard) : KeyModes where
  shift := kb.shiftPressed
  caps := kb.capsLock
  extended := kb.extended

def Keyboard.withModes (kb : Keyboard) (m : KeyModes) : Keyboard :=
  { kb with shiftPressed := m.shift, capsLock := m.caps, extended := m.extended }

/-- `kb_push` of the character a scan code emits. -/
def kbPushSome (kb : Keyboard) : Option UInt8 → Keyboard
  | none => kb
  | some c => kbPush kb c

/-- A code with its top bit set is a release. -/
theorem release_iff (code : UInt8) : code &&& 0x80 ≠ 0 ↔ 0x80 ≤ code := by
  have hall : ∀ v : BitVec 8, UInt8.ofBitVec v &&& 0x80 ≠ 0 ↔ 0x80 ≤ UInt8.ofBitVec v := by
    decide +kernel
  exact hall code.toBitVec

theorem extendedKey_release {code : UInt8} (h : 0x80 ≤ code) : extendedKey code = none := by
  have hall : ∀ v : BitVec 8, 0x80 ≤ UInt8.ofBitVec v → extendedKey (UInt8.ofBitVec v) = none := by
    decide +kernel
  exact hall code.toBitVec h

theorem scancodeChar_eq (kb : Keyboard) (code : UInt8) :
    plainKey kb.modes code =
      if scancodeChar kb code = 0 then none else some (scancodeChar kb code) := by
  unfold plainKey scancodeChar Keyboard.modes
  cases kb.capsLock <;> cases kb.shiftPressed <;> simp

/-- The handler changes the modes as the decoder does and pushes what it emits. -/
theorem keyboardCallback_eq (kb : Keyboard) (code : UInt8) :
    keyboardCallback kb code =
      kbPushSome (kb.withModes (decodeKey kb.modes code).1) (decodeKey kb.modes code).2 := by
  unfold keyboardCallback decodeKey
  by_cases hprefix : code = 0xE0
  · rw [if_pos hprefix, if_pos hprefix]
    rfl
  rw [if_neg hprefix, if_neg hprefix]
  have hreleases := releases_iff code
  by_cases hext : kb.extended = true
  · rw [if_pos hext, if_pos (show kb.modes.extended = true from hext)]
    simp only [release_iff]
    by_cases hup : 0x80 ≤ code
    -- the release of an arrow key emits nothing
    · rw [if_pos hup, extendedKey_release hup]
      rfl
    · rw [if_neg hup]
      unfold extendedKey
      split_ifs <;> rfl
  rw [if_neg hext, if_neg (show ¬ kb.modes.extended = true from hext)]
  simp only [release_iff] at hreleases ⊢
  by_cases hshift : code = breakCode leftShift ∨ code = breakCode rightShift
  · have ⟨hup, hkey⟩ := hreleases.mpr hshift
    rw [if_pos hup, if_pos hkey, if_pos hshift]
    rfl
  rw [if_neg hshift]
  by_cases hup : 0x80 ≤ code
  · rw [if_pos hup, if_pos hup, if_neg fun hkey => hshift (hreleases.mp ⟨hup, hkey⟩)]
    rfl
  rw [if_neg hup, if_neg hup]
  by_cases hmake : code = 0x2A ∨ code = 0x36
  · rw [if_pos hmake, if_pos (show code = leftShift ∨ code = rightShift from hmake)]
    rfl
  rw [if_neg hmake, if_neg (show ¬ (code = leftShift ∨ code = rightShift) from hmake)]
  by_cases hcaps : code = 0x3A
  · rw [if_pos hcaps, if_pos hcaps]
    rfl
  rw [if_neg hcaps, if_neg hcaps]
  by_cases hesc : code = 0x01
  · rw [if_pos hesc, if_pos hesc]
    rfl
  rw [if_neg hesc, if_neg hesc, scancodeChar_eq]
  split <;> rfl

/-! ## Key interrupts and the queue -/

/-- The queue with the scan codes read so far.  What `kb_push` accepted is what it left in the cell
it wrote. -/
structure Typing where
  queue : KbHist
  codes : List UInt8

inductive TypingEvent
  | irq (code : UInt8)
  | consumer

namespace Typing

def start : Typing := ⟨.start, []⟩

def irq (h : Typing) (code : UInt8) : Typing :=
  let kb := keyboardCallback h.queue.kb code
  { queue :=
      { h.queue with
        kb := kb
        accepted :=
          if kb.kbWrite = h.queue.kb.kbWrite then h.queue.accepted
          else h.queue.accepted ++ [kb.kbBuffer h.queue.kb.kbWrite] }
    codes := h.codes ++ [code] }

def exec (h : Typing) : TypingEvent → Typing
  | .irq code => h.irq code
  | .consumer => { h with queue := h.queue.consumer }

end Typing

def typingSystem : TransitionSystem Typing TypingEvent := .ofFun (fun h => h = .start) Typing.exec

/-- The modes before the first scan code. -/
def startModes : KeyModes := ⟨false, false, false⟩

/-- A key interrupt comes with fewer than 255 characters waiting. -/
def RoomForKey (h : Typing) : TypingEvent → Prop
  | .irq _ => h.queue.waiting.length < 255
  | .consumer => True

instance (h : Typing) (e : TypingEvent) : Decidable (RoomForKey h e) := by
  unfold RoomForKey
  cases e <;> infer_instance

/-- A push on the queue, with the modes as they are behind a scan code. -/
def KbHist.pushSome (h : KbHist) (m : KeyModes) : Option UInt8 → KbHist
  | none => { h with kb := h.kb.withModes m }
  | some c => ({ h with kb := h.kb.withModes m } : KbHist).push c

/-- A push that moves `kb_write` has stored its character there. -/
theorem kbPush_stored (kb : Keyboard) {c : UInt8} (h : (kbPush kb c).kbWrite ≠ kb.kbWrite) :
    (kbPush kb c).kbBuffer kb.kbWrite = c := by
  unfold kbPush at h ⊢
  simp only at h ⊢
  split at h
  · rw [if_pos ‹_›]
    exact Function.update_self ..
  · exact absurd rfl h

theorem Typing.irq_eq (h : Typing) (code : UInt8) :
    h.irq code =
      { queue := h.queue.pushSome (decodeKey h.queue.kb.modes code).1
          (decodeKey h.queue.kb.modes code).2
        codes := h.codes ++ [code] } := by
  unfold Typing.irq
  rw [keyboardCallback_eq]
  cases (decodeKey h.queue.kb.modes code).2 with
  | none =>
    unfold kbPushSome KbHist.pushSome
    simp only
    rw [if_pos (by rfl)]
  | some c =>
    unfold kbPushSome KbHist.pushSome KbHist.push
    simp only
    by_cases hmoves : (kbPush (h.queue.kb.withModes (decodeKey h.queue.kb.modes code).1) c).kbWrite =
        h.queue.kb.kbWrite
    · rw [if_pos hmoves, if_pos (by exact hmoves)]
    · rw [if_neg hmoves, if_neg (by exact hmoves)]
      have hstored := kbPush_stored (h.queue.kb.withModes (decodeKey h.queue.kb.modes code).1)
        hmoves
      rw [show (kbPush _ c).kbBuffer h.queue.kb.kbWrite = c from hstored]

/-! ## Runs -/

theorem KbHist.Inv.withModes {h : KbHist} (hi : h.Inv) (m : KeyModes) :
    ({ h with kb := h.kb.withModes m } : KbHist).Inv :=
  ⟨hi.inRange, hi.accepted, hi.behindTest, hi.inHand⟩

theorem KbHist.Inv.pushSome {h : KbHist} (hi : h.Inv) (m : KeyModes) (c : Option UInt8) :
    (h.pushSome m c).Inv := by
  cases c with
  | none => exact hi.withModes m
  | some c => exact (hi.withModes m).push c

theorem KbHist.pushSome_modes (h : KbHist) (m : KeyModes) (c : Option UInt8) :
    (h.pushSome m c).kb.modes = m := by
  cases c with
  | none => rfl
  | some c =>
    have ⟨hshift, hcaps, hext⟩ := kbPush_flags (h.kb.withModes m) c
    show (⟨_, _, _⟩ : KeyModes) = m
    rw [show ((h.pushSome m (some c)).kb.shiftPressed) = _ from hshift,
      show ((h.pushSome m (some c)).kb.capsLock) = _ from hcaps,
      show ((h.pushSome m (some c)).kb.extended) = _ from hext]
    rfl

/-- The modes are the decoder's, and the queue has accepted what it emitted, apart from what came
while it was full. -/
structure TypingInv (h : Typing) : Prop where
  queue : h.queue.Inv
  modes : h.queue.kb.modes = modesAfter startModes h.codes
  accepted : List.Sublist h.queue.accepted (decodeKeys startModes h.codes)

theorem decodeKeys_append_singleton (codes : List UInt8) (code : UInt8) :
    decodeKeys startModes (codes ++ [code]) =
      decodeKeys startModes codes ++ (decodeKey (modesAfter startModes codes) code).2.toList := by
  rw [decodeKeys, Transducer.output_append, Transducer.output_singleton]

theorem KbHist.Inv.pushSome_accepted {h : KbHist} (hi : h.Inv) (m : KeyModes) (c : Option UInt8) :
    (h.pushSome m c).accepted =
      if h.waiting.length = 255 then h.accepted else h.accepted ++ c.toList := by
  cases c with
  | none =>
    show h.accepted = _
    rw [Option.toList_none, List.append_nil, ite_self]
  | some c => exact (hi.withModes m).push_accepted c

namespace TypingInv

variable {h : Typing}

theorem start : TypingInv .start := ⟨.start, rfl, List.Sublist.refl _⟩

theorem irq (hi : TypingInv h) (code : UInt8) : TypingInv (h.irq code) := by
  rw [Typing.irq_eq, hi.modes]
  refine ⟨hi.queue.pushSome _ _, ?_, ?_⟩
  · show (KbHist.pushSome _ _ _).kb.modes = modesAfter startModes (h.codes ++ [code])
    rw [KbHist.pushSome_modes]
    exact (Transducer.after_append decodeKey startModes h.codes [code]).symm
  · show (KbHist.pushSome _ _ _).accepted.Sublist _
    rw [hi.queue.pushSome_accepted, decodeKeys_append_singleton]
    split
    · exact hi.accepted.trans (List.sublist_append_left _ _)
    · exact hi.accepted.append (List.Sublist.refl _)

theorem consumer_modes (h : KbHist) : h.consumer.kb.modes = h.kb.modes := by
  unfold KbHist.consumer
  split
  · split <;> rfl
  · rfl
  · rfl

theorem exec (hi : TypingInv h) (e : TypingEvent) : TypingInv (h.exec e) := by
  cases e with
  | irq code => exact hi.irq code
  | consumer =>
    refine ⟨hi.queue.consumer, (consumer_modes h.queue).trans hi.modes, ?_⟩
    show h.queue.consumer.accepted.Sublist _
    rw [KbHist.Inv.consumer_accepted]
    exact hi.accepted

theorem reach {g : Typing → TypingEvent → Prop} (hr : typingSystem.Reach g h) : TypingInv h := by
  apply hr.invariant
  · intro h hs
    have hs : h = .start := hs
    rw [hs]
    exact start
  · intro h e h' _ hi _ hstep
    rw [hstep]
    exact hi.exec e

/-- With room for every key nothing that was decoded is lost. -/
theorem accepted_eq (hr : typingSystem.Reach RoomForKey h) :
    h.queue.accepted = decodeKeys startModes h.codes := by
  apply hr.invariant (I := fun h => h.queue.accepted = decodeKeys startModes h.codes)
  · intro h hs
    have hs : h = .start := hs
    rw [hs]
    rfl
  · intro h e h' hr' ih hroom hstep
    have hi := reach hr'
    rw [hstep]
    cases e with
    | irq code =>
      have hroom : h.queue.waiting.length < 255 := hroom
      show (h.irq code).queue.accepted = decodeKeys startModes (h.irq code).codes
      rw [Typing.irq_eq, hi.modes]
      show (KbHist.pushSome _ _ _).accepted = decodeKeys startModes (h.codes ++ [code])
      rw [hi.queue.pushSome_accepted, if_neg hroom.ne, ih, decodeKeys_append_singleton]
    | consumer =>
      show h.queue.consumer.accepted = decodeKeys startModes h.codes
      rw [KbHist.Inv.consumer_accepted, ih]

end TypingInv

/-! ## The keys of a text -/

/-- The characters on the keys. -/
def OnKey (c : UInt8) : Prop := 32 ≤ c ∧ c ≤ 126 ∨ c = 8 ∨ c = 9 ∨ c = 10 ∨ c = keyEsc

instance (c : UInt8) : Decidable (OnKey c) := inferInstanceAs (Decidable (_ ∨ _))

/-- A key is pressed and released. -/
def press (code : UInt8) : List UInt8 := [code, breakCode code]

/-- The same with shift held down. -/
def shiftPress (code : UInt8) : List UInt8 := leftShift :: press code ++ [breakCode leftShift]

def capsKey : UInt8 := 0x3A

/-- The scan codes of a character: the first key that has it, with shift as caps lock requires. -/
def keyStroke (caps : Bool) (c : UInt8) : List UInt8 :=
  let letter := caps && (97 ≤ c && c ≤ 122 || 65 ≤ c && c ≤ 90)
  if c ∈ scancodeNormal then
    let code := UInt8.ofNat (scancodeNormal.idxOf c)
    if letter then shiftPress code else press code
  else
    let code := UInt8.ofNat (scancodeShift.idxOf c)
    if letter then press code else shiftPress code

/-- The scan codes of a text, typed with caps lock on or off. -/
def keyStrokes (caps : Bool) (text : List UInt8) : List UInt8 :=
  (if caps then press capsKey else []) ++ text.flatMap (keyStroke caps)

theorem decode_keyStroke (caps : Bool) {c : UInt8} (hc : OnKey c) :
    modesAfter ⟨false, caps, false⟩ (keyStroke caps c) = ⟨false, caps, false⟩ ∧
      decodeKeys ⟨false, caps, false⟩ (keyStroke caps c) = [c] := by
  have hall : ∀ v : BitVec 8, OnKey (UInt8.ofBitVec v) → ∀ caps,
      modesAfter ⟨false, caps, false⟩ (keyStroke caps (UInt8.ofBitVec v)) = ⟨false, caps, false⟩ ∧
        decodeKeys ⟨false, caps, false⟩ (keyStroke caps (UInt8.ofBitVec v)) = [UInt8.ofBitVec v] := by
    decide +kernel
  exact hall c.toBitVec hc caps

theorem decode_keyStrokes (caps : Bool) {text : List UInt8} (htext : ∀ c ∈ text, OnKey c) :
    decodeKeys startModes (keyStrokes caps text) = text := by
  have hcaps : modesAfter startModes (if caps then press capsKey else []) = ⟨false, caps, false⟩ ∧
      decodeKeys startModes (if caps then press capsKey else []) = [] := by
    cases caps <;> decide
  rw [keyStrokes, decodeKeys, Transducer.output_append,
    show Transducer.output decodeKey startModes _ = [] from hcaps.2,
    show Transducer.after decodeKey startModes _ = _ from hcaps.1, List.nil_append]
  exact Transducer.output_code decodeKey _ fun c hc => decode_keyStroke caps (htext c hc)

/-- With room for every key, and the keys of a text pressed so far, nothing but characters of the text has
been accepted, from its first one on. -/
theorem TypingInv.accepted_prefix {h : Typing} (hr : typingSystem.Reach RoomForKey h) {caps : Bool}
    {text : List UInt8} (htext : ∀ c ∈ text, OnKey c) (hcodes : h.codes <+: keyStrokes caps text) :
    h.queue.accepted <+: text := by
  have hdecoded := Transducer.output_prefix decodeKey startModes hcodes
  rw [show Transducer.output decodeKey startModes (keyStrokes caps text) = text from
    decode_keyStrokes caps htext] at hdecoded
  rw [accepted_eq hr]
  exact hdecoded

theorem TypingInv.accepted_all {h : Typing} (hr : typingSystem.Reach RoomForKey h) {caps : Bool}
    {text : List UInt8} (htext : ∀ c ∈ text, OnKey c) (hcodes : h.codes = keyStrokes caps text) :
    h.queue.accepted = text := by
  rw [accepted_eq hr, hcodes, decode_keyStrokes caps htext]

/-- What has been returned is accepted. -/
theorem TypingInv.returned_prefix {h : Typing} (hi : TypingInv h) :
    h.queue.returned <+: h.queue.accepted :=
  ⟨h.queue.waiting, hi.queue.accepted.symm⟩

/-- While a text is typed on its keys, with caps lock on or off, `keyboard_getchar` has returned the text
as far as it has come, however the key interrupts fall between its statements, as long as the queue has
room for each; when all keys are in it goes on to return the whole text. -/
theorem typed_text_returned (caps : Bool) (text : List UInt8) (htext : ∀ c ∈ text, OnKey c)
    (h : Typing) (hr : typingSystem.Reach RoomForKey h) (hcodes : h.codes <+: keyStrokes caps text) :
    h.queue.returned <+: text ∧
      (h.codes = keyStrokes caps text → ∃ n, (KbHist.consumer^[n] h.queue).returned = text) := by
  have hi := TypingInv.reach hr
  constructor
  · exact hi.returned_prefix.trans (TypingInv.accepted_prefix hr htext hcodes)
  · intro hall
    rw [← TypingInv.accepted_all hr htext hall]
    exact hi.queue.drained

theorem typing_reach {events : List TypingEvent}
    (hroom : Replies.Allowed RoomForKey (fun s a => ((), Typing.exec s a)) .start events) :
    typingSystem.Reach RoomForKey (events.foldl Typing.exec .start) := by
  have hstart : typingSystem.Reach RoomForKey .start := .init rfl
  exact Replies.reach_foldl hstart hroom

/-- `Hi!` under caps lock, with the consumer at work between the keys. -/
def hiEvents : List TypingEvent :=
  ((keyStrokes true (ascii "Hi!")).take 5).map .irq ++ List.replicate 3 .consumer ++
    ((keyStrokes true (ascii "Hi!")).drop 5).map .irq ++ [.consumer]

/-- Between the keys and behind the last one. -/
theorem typed_text_returned_hi :
    ((hiEvents.take 8).foldl Typing.exec .start).queue.returned <+: ascii "Hi!" ∧
      ∃ n, (KbHist.consumer^[n] (hiEvents.foldl Typing.exec .start).queue).returned = ascii "Hi!" :=
  ⟨(typed_text_returned true (ascii "Hi!") (by decide +kernel) _ (typing_reach (by decide +kernel))
      (by decide +kernel)).1,
    (typed_text_returned true (ascii "Hi!") (by decide +kernel) _ (typing_reach (by decide +kernel))
      (by decide +kernel)).2 (by decide +kernel)⟩

end MyMisu
