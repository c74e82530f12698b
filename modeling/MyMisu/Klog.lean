import MyMisu.CharArray
import MyMisu.Keyboard.State
import MyMisu.Lib.RecentRing
import MyMisu.Numbers
import MyMisu.Vga.Console

/-!
# The kernel log

`klog.c`: a ring of 64 entries, each with the tick, the level and the first 95 characters of a
message.  While fewer than 2^31 calls have been made, what is printed are the last 64 of them, oldest
first.
-/

namespace MyMisu

open Decimal

def klogMaxEntries : ℕ := 64
def klogLineLen : ℕ := 96

inductive KlogLevel
  | info | warn | err | ok
  deriving DecidableEq

structure KlogEntry where
  tick : ℕ
  level : KlogLevel
  msg : CharArray klogLineLen

/-- The static variables; `total` is an `int`. -/
structure Klog where
  buf : Fin klogMaxEntries → KlogEntry
  head : ℕ
  total : ℤ

/-- An entry after `memset`. -/
def KlogEntry.zero : KlogEntry := ⟨0, .info, ⟨List.replicate klogLineLen 0, List.length_replicate⟩⟩

def klogInit : Klog := ⟨fun _ => .zero, 0, 0⟩

/-- `&klog_buf[i]` -/
def klogSlot (i : ℕ) : Except Stuck (Fin klogMaxEntries) :=
  if h : i < klogMaxEntries then .ok ⟨i, h⟩ else .error .overrun

/-- The loop that copies the message, with the index it ends at. -/
def klogCopy (buf : CharArray klogLineLen) (i : ℕ) :
    List UInt8 → Except Stuck (CharArray klogLineLen × ℕ)
  | [] => .ok (buf, i)
  | c :: msg =>
    if i < klogLineLen - 1 then do klogCopy (← buf.store i c) (i + 1) msg else .ok (buf, i)

def klog (k : Klog) (tick : ℕ) (level : KlogLevel) (msg : CStr) : Except Stuck Klog := do
  let e ← klogSlot k.head
  let (buf, i) ← klogCopy (k.buf e).msg 0 msg.bytes
  let buf ← buf.store i 0
  .ok {
    buf := Function.update k.buf e ⟨tick, level, buf⟩
    head := (k.head + 1) % klogMaxEntries
    total := wrapInt32 (k.total + 1) }

def klogCount (k : Klog) : ℤ := if k.total < klogMaxEntries then k.total else klogMaxEntries

/-- The entries that `klog_print` visits. -/
def klogVisited (k : Klog) : Except Stuck (List KlogEntry) :=
  let start := if k.total < klogMaxEntries then 0 else k.head
  (List.range (klogCount k).toNat).mapM fun i => do
    .ok (k.buf (← klogSlot ((start + i) % klogMaxEntries)))

/-- The colour and the text of the level. -/
def klogLevel : KlogLevel → List Console
  | .ok => [.ink vgaLightGreen, .print (ascii "OK   ")]
  | .info => [.ink vgaLightCyan, .print (ascii "INFO ")]
  | .warn => [.ink vgaYellow, .print (ascii "WARN ")]
  | .err => [.ink vgaLightRed, .print (ascii "ERR  ")]

/-- `kprintf("%d.%d", s, cs)` -/
def klogStamp (tick : ℕ) : List UInt8 :=
  printInt (intOfU32 (tick / 100)) ++ ascii "." ++ printInt (intOfU32 (tick % 100))

def klogLine (tick : ℕ) (level : KlogLevel) (msg : List UInt8) : List Console :=
  [.ink vgaDarkGrey, .print (ascii "  ["), .print (klogStamp tick), .print (ascii "]  ")] ++
    klogLevel level ++ [.ink vgaLightGrey, .print (msg ++ [10])]

def klogPrint (k : Klog) : Except Stuck (List Console) := do
  .ok ((← klogVisited k).flatMap fun e => klogLine e.tick e.level e.msg.str.bytes)

/-! ## What it should keep -/

/-- A call of `klog`, with the tick at the time of it. -/
structure KlogCall where
  tick : ℕ
  level : KlogLevel
  msg : CStr

/-- The calls one after the other. -/
def klogCalls (k : Klog) (calls : List KlogCall) : Except Stuck Klog :=
  calls.foldlM (fun k c => klog k c.tick c.level c.msg) k

/-- The entry is that of the call, with its message cut. -/
structure Records (e : KlogEntry) (c : KlogCall) : Prop where
  tick : e.tick = c.tick
  level : e.level = c.level
  msg : e.msg.str.bytes = c.msg.bytes.take 95

/-- The line of a call: the seconds and hundredths of its tick, the level, the message cut. -/
def KlogCall.text (c : KlogCall) : List UInt8 :=
  let level := match c.level with
    | .ok => "OK   "
    | .info => "INFO "
    | .warn => "WARN "
    | .err => "ERR  "
  ascii "  [" ++ numeral (c.tick / 100) ++ ascii "." ++ numeral (c.tick % 100) ++ ascii "]  " ++ ascii level ++
    c.msg.bytes.take 95 ++ [10]

/-! ## One call -/

/-- The loop stores as much of the message as there is room for. -/
theorem klogCopy_ok (buf : CharArray klogLineLen) {i : ℕ} (hi : i ≤ 95) (msg : List UInt8) :
    ∃ b, klogCopy buf i msg = .ok (b, i + (msg.take (95 - i)).length) ∧
      b.bytes.take (i + (msg.take (95 - i)).length) = buf.bytes.take i ++ msg.take (95 - i) := by
  induction msg generalizing buf i with
  | nil =>
    rw [List.take_nil]
    exact ⟨buf, rfl, (List.append_nil _).symm⟩
  | cons c msg ih =>
    by_cases hroom : i < 95
    · have hsize : i < klogLineLen := hroom.trans (by decide)
      obtain ⟨b, hrun, hb⟩ := ih (buf.set i c) (show i + 1 ≤ 95 by omega)
      have htake : (c :: msg).take (95 - i) = c :: msg.take (95 - (i + 1)) := by
        rw [show 95 - i = 95 - (i + 1) + 1 by omega, List.take_succ_cons]
      have hlen : i + (c :: msg.take (95 - (i + 1))).length =
          i + 1 + (msg.take (95 - (i + 1))).length := by
        rw [List.length_cons]
        omega
      rw [htake, hlen]
      refine ⟨b, ?_, ?_⟩
      · rw [klogCopy, if_pos (show i < klogLineLen - 1 from hroom), buf.store_ok hsize]
        exact hrun
      · rw [hb, buf.take_set hsize, List.append_assoc, List.singleton_append]
    · rw [show 95 - i = 0 by omega, List.take_zero]
      refine ⟨buf, ?_, (List.append_nil _).symm⟩
      exact if_neg hroom

theorem klog_ok (k : Klog) (e : Fin klogMaxEntries) (he : k.head = e) (c : KlogCall) :
    ∃ entry, Records entry c ∧ klog k c.tick c.level c.msg = .ok {
      buf := Function.update k.buf e entry
      head := (k.head + 1) % klogMaxEntries
      total := wrapInt32 (k.total + 1) } := by
  obtain ⟨b, hrun, hb⟩ := klogCopy_ok (k.buf e).msg (Nat.zero_le 95) c.msg.bytes
  rw [Nat.zero_add, Nat.sub_zero] at hrun hb
  have hend : (c.msg.bytes.take 95).length < klogLineLen :=
    (List.length_take_le 95 _).trans_lt (by decide)
  refine ⟨⟨c.tick, c.level, b.set (c.msg.bytes.take 95).length 0⟩, ⟨rfl, rfl, ?_⟩, ?_⟩
  · exact b.str_set hend hb fun x hx => c.msg.noNul x (List.mem_of_mem_take hx)
  · have hslot : klogSlot k.head = .ok e := by
      rw [he]
      exact dif_pos e.isLt
    unfold klog
    rw [hslot]
    show (klogCopy (k.buf e).msg 0 c.msg.bytes >>= _) = _
    rw [hrun]
    show (b.store (c.msg.bytes.take 95).length 0 >>= _) = _
    rw [b.store_ok hend]
    rfl

/-! ## Every call -/

/-- The entries by index, as a ring. -/
def Klog.ring (k : Klog) : RecentRing KlogEntry where
  cells i := k.buf ⟨i % klogMaxEntries, Nat.mod_lt i (by decide)⟩
  head := k.head

/-- The log after the calls. -/
structure Klog.After (k : Klog) (calls : List KlogCall) (es : List KlogEntry) : Prop where
  total : k.total = calls.length
  records : List.Forall₂ Records es calls
  holds : k.ring.Holds klogMaxEntries es

theorem klogInit_after : klogInit.After [] [] where
  total := rfl
  records := .nil
  holds := .nil rfl

theorem Klog.After.length {k : Klog} {calls : List KlogCall} {es : List KlogEntry}
    (h : k.After calls es) : es.length = calls.length := h.records.length_eq

theorem Klog.After.head_lt {k : Klog} {calls : List KlogCall} {es : List KlogEntry}
    (h : k.After calls es) : k.head < klogMaxEntries := by
  have hhead : k.head = es.length % klogMaxEntries := h.holds.head
  rw [hhead]
  exact Nat.mod_lt _ (by decide)

theorem klog_after {k : Klog} {calls : List KlogCall} {es : List KlogEntry} (h : k.After calls es)
    (hfew : calls.length + 1 < 2 ^ 31) (c : KlogCall) :
    ∃ k' es', klog k c.tick c.level c.msg = .ok k' ∧ k'.After (calls ++ [c]) es' := by
  obtain ⟨entry, hentry, hrun⟩ := klog_ok k ⟨k.head, h.head_lt⟩ rfl c
  refine ⟨_, es ++ [entry], hrun, ?_, ?_, ?_⟩
  · show wrapInt32 (k.total + 1) = _
    rw [h.total, wrapInt32_of_fits ⟨by omega, by omega⟩, List.length_append, List.length_singleton]
    rfl
  · exact List.rel_append h.records (.cons hentry .nil)
  · refine (h.holds.push entry).congr rfl fun i hi => ?_
    show Function.update k.buf ⟨k.head, h.head_lt⟩ entry ⟨i % klogMaxEntries, _⟩ =
      Function.update k.ring.cells k.head entry i
    by_cases hlast : i = k.head
    · have hindex : (⟨i % klogMaxEntries, Nat.mod_lt i (by decide)⟩ : Fin klogMaxEntries) =
          ⟨k.head, h.head_lt⟩ := Fin.ext ((Nat.mod_eq_of_lt hi).trans hlast)
      rw [hindex, hlast, Function.update_self, Function.update_self]
    · have hindex : (⟨i % klogMaxEntries, Nat.mod_lt i (by decide)⟩ : Fin klogMaxEntries) ≠
          ⟨k.head, h.head_lt⟩ := fun heq => hlast ((Nat.mod_eq_of_lt hi).symm.trans (Fin.mk.inj heq))
      rw [Function.update_of_ne hindex, Function.update_of_ne hlast]
      rfl

theorem klogCalls_after (calls : List KlogCall) (hfew : calls.length < 2 ^ 31) :
    ∃ k es, klogCalls klogInit calls = .ok k ∧ k.After calls es := by
  induction calls using List.reverseRecOn with
  | nil => exact ⟨klogInit, [], rfl, klogInit_after⟩
  | append_singleton calls c ih =>
    rw [List.length_append, List.length_singleton] at hfew
    obtain ⟨k, es, hrun, hafter⟩ := ih (by omega)
    obtain ⟨k', es', hcall, hafter'⟩ := klog_after hafter hfew c
    refine ⟨k', es', ?_, hafter'⟩
    unfold klogCalls at hrun ⊢
    rw [List.foldlM_append, hrun]
    show (klog k c.tick c.level c.msg >>= _) = _
    rw [hcall]
    rfl

/-! ## Printing -/

theorem klogVisited_ok {k : Klog} {calls : List KlogCall} {es : List KlogEntry}
    (h : k.After calls es) : klogVisited k = .ok (es.drop (es.length - klogMaxEntries)) := by
  have hlen := h.length
  have hcount : (klogCount k).toNat = min klogMaxEntries es.length := by
    unfold klogCount
    rw [h.total]
    split_ifs <;> omega
  have hstart : (if k.total < klogMaxEntries then 0 else k.head) =
      k.ring.start klogMaxEntries es.length := by
    unfold RecentRing.start
    rw [h.total, hlen]
    norm_cast
  unfold klogVisited
  rw [hcount, hstart, ← h.holds.read]
  refine mapM_ok fun i _ => ?_
  have hlt := Nat.mod_lt (k.ring.start klogMaxEntries es.length + i) (show 0 < klogMaxEntries by decide)
  have hslot : klogSlot ((k.ring.start klogMaxEntries es.length + i) % klogMaxEntries) =
      .ok ⟨_, hlt⟩ := dif_pos hlt
  rw [hslot]
  show Except.ok (k.buf ⟨_, hlt⟩) = .ok (k.buf ⟨_ % klogMaxEntries, _⟩)
  congr 3
  exact (Nat.mod_eq_of_lt hlt).symm

/-- The line of an entry is that of the call. -/
theorem klogLine_records {e : KlogEntry} {c : KlogCall} (h : Records e c) :
    klogLine e.tick e.level e.msg.str.bytes = klogLine c.tick c.level (c.msg.bytes.take 95) := by
  rw [h.tick, h.level, h.msg]

theorem flatMap_klogLine {es : List KlogEntry} {calls : List KlogCall}
    (h : List.Forall₂ Records es calls) :
    es.flatMap (fun e => klogLine e.tick e.level e.msg.str.bytes) =
      calls.flatMap fun c => klogLine c.tick c.level (c.msg.bytes.take 95) := by
  induction h with
  | nil => rfl
  | cons hrecord _ ih => rw [List.flatMap_cons, List.flatMap_cons, klogLine_records hrecord, ih]

theorem klogLine_text (c : KlogCall) (htick : c.tick < 2 ^ 32) :
    (klogLine c.tick c.level (c.msg.bytes.take 95)).flatMap Console.text = c.text := by
  have hlevel : (klogLevel c.level).flatMap Console.text = ascii (match c.level with
      | .ok => "OK   "
      | .info => "INFO "
      | .warn => "WARN "
      | .err => "ERR  ") := by
    cases c.level <;> rfl
  rw [klogLine, List.flatMap_append, List.flatMap_append, hlevel, klogStamp, intOfU32_of_lt (by omega),
    intOfU32_of_lt (by omega), printInt_natCast, printInt_natCast]
  simp [Console.ink, Console.text, KlogCall.text]

theorem klogLines_text {calls : List KlogCall} (hticks : ∀ c ∈ calls, c.tick < 2 ^ 32) :
    (calls.flatMap fun c => klogLine c.tick c.level (c.msg.bytes.take 95)).flatMap Console.text =
      calls.flatMap KlogCall.text := by
  rw [List.flatMap_assoc]
  apply List.flatMap_congr
  intro c hc
  exact klogLine_text c (hticks c hc)

theorem klog_keeps_newest (calls : List KlogCall) (hfew : calls.length < 2 ^ 31) :
    ∃ k es shown, klogCalls klogInit calls = .ok k ∧ klogVisited k = .ok es ∧
      List.Forall₂ Records es (calls.drop (calls.length - klogMaxEntries)) ∧ klogPrint k = .ok shown ∧
      shown = ((calls.drop (calls.length - klogMaxEntries)).flatMap fun c =>
        klogLine c.tick c.level (c.msg.bytes.take 95)) ∧
      ((∀ c ∈ calls, c.tick < 2 ^ 32) → shown.flatMap Console.text =
        (calls.drop (calls.length - klogMaxEntries)).flatMap KlogCall.text) := by
  obtain ⟨k, es, hrun, hafter⟩ := klogCalls_after calls hfew
  have hvisited := klogVisited_ok hafter
  rw [hafter.length] at hvisited
  have hrecords := List.forall₂_drop (calls.length - klogMaxEntries) hafter.records
  refine ⟨k, _, _, hrun, hvisited, hrecords, ?_, rfl, fun hticks => ?_⟩
  · unfold klogPrint
    rw [hvisited, ← flatMap_klogLine hrecords]
    rfl
  · exact klogLines_text fun c hc => hticks c (List.mem_of_mem_drop hc)

/-- Seventy calls, the last forty with a message of a hundred characters. -/
def manyCalls : List KlogCall :=
  List.replicate 30 ⟨250, .warn, .ofString "disk"⟩ ++
    List.replicate 40 ⟨1205, .err, .ofBuffer (List.replicate 100 65)⟩

theorem klog_keeps_newest_many : ∃ k es shown,
    klogCalls klogInit manyCalls = .ok k ∧ klogVisited k = .ok es ∧
      List.Forall₂ Records es (manyCalls.drop 6) ∧ klogPrint k = .ok shown ∧
      shown.flatMap Console.text = (manyCalls.drop 6).flatMap KlogCall.text := by
  obtain ⟨k, es, shown, hcalls, hvisited, hrecords, hprint, -, htext⟩ :=
    klog_keeps_newest manyCalls (by decide)
  exact ⟨k, es, shown, hcalls, hvisited, hrecords, hprint, htext (by decide)⟩

end MyMisu
