import MyMisu.Shell.Field
import MyMisu.Shell.Write

/-!
# The reader

`cmd_reader` shows a file page by page, straight in the video memory.  A page ends with its
eighteenth row, and a line of 71 characters or more takes several rows; the way back counts lines
only.  The keys are those that will be pressed.
-/

namespace MyMisu

/-- A call on the terminal, or `buf[y*80+x] = entry`. -/
inductive Shown
  | call (c : Console)
  | cell (x y : ℕ) (entry : UInt16)

def vgaPut (x y : ℕ) (c color : UInt8) : List Shown :=
  if x < vgaWidth ∧ y < vgaHeight then [.cell x y (vgaEntry c color)] else []

def vgaPuts (x y : ℕ) (s : List UInt8) (color : UInt8) : List Shown :=
  s.zipIdx.flatMap fun (c, i) => vgaPut (x + i) y c color

def drawBox (x y w h : ℕ) (title : CStr) : List Shown :=
  let bc := vgaEntryColor vgaLightCyan vgaBlack
  let tx := x + (w - title.bytes.length) / 2
  ((List.range' x w).flatMap fun i =>
    let edge : UInt8 := if i = x ∨ i = x + w - 1 then 43 else 45
    [.cell i y (vgaEntry edge bc), .cell i (y + h - 1) (vgaEntry edge bc)]) ++
  ((List.range' (y + 1) (h - 2)).flatMap fun r =>
    [.cell x r (vgaEntry 124 bc), .cell (x + w - 1) r (vgaEntry 124 bc)]) ++
  title.bytes.zipIdx.map fun (c, i) => .cell (tx + i) y (vgaEntry c (vgaEntryColor vgaWhite vgaBlack))

/-- Where the next character goes, and the rows that are full. -/
structure Pen where
  row : ℕ
  col : ℕ
  lc : ℕ

def Pen.start : Pen := ⟨2, 4, 0⟩

def Pen.advance (p : Pen) (c : UInt8) : Pen :=
  if c = 10 then ⟨p.row + 1, 4, p.lc + 1⟩
  else if p.col + 1 > 74 then ⟨p.row + 1, 4, p.lc + 1⟩
  else { p with col := p.col + 1 }

/-- The loop that shows a page: how many bytes it takes, and what it shows. -/
def layout (p : Pen) : List UInt8 → ℕ × List Shown
  | [] => (0, [])
  | c :: rest =>
    if p.lc < 18 then
      let (i, shown) := layout (p.advance c) rest
      (i + 1,
        (if c = 10 then [] else vgaPut p.col p.row c (vgaEntryColor vgaLightGrey vgaBlack)) ++ shown)
    else (0, [])

/-- `nxt` -/
def nextPage (ct : List UInt8) (off : ℕ) : ℕ := off + (layout .start (ct.drop off)).1

def drawPage (fn : CStr) (ct : List UInt8) (off : ℕ) : List Shown :=
  .call .clear :: drawBox 2 0 76 24 fn ++ (layout .start (ct.drop off)).2 ++
    vgaPuts 4 24 (ascii "LEFT=prev RIGHT=next ESC=exit") (vgaEntryColor vgaDarkGrey vgaBlack)

/-- The loop that goes over eighteen lines on the way back. -/
def skipLines (lc2 : ℕ) : List UInt8 → ℕ
  | [] => 0
  | c :: rest => if lc2 < 18 then skipLines (if c = 10 then lc2 + 1 else lc2) rest + 1 else 0

/-- The offset of a page, counted from the start of the file. -/
def recount (ct : List UInt8) (rounds : ℕ) : ℕ := (fun off => off + skipLines 0 (ct.drop off))^[rounds] 0

structure Reader where
  off : ℕ
  page : ℕ
  deriving DecidableEq

/-- A key on a page; `none` leaves the loop. -/
def Reader.key (ct : List UInt8) (r : Reader) (c : UInt8) : Option Reader :=
  if (c = keyRight ∨ c = 10) ∧ nextPage ct r.off < ct.length then some ⟨nextPage ct r.off, r.page + 1⟩
  else if c = keyLeft ∧ r.page > 1 then
    -- the offsets of the pages are not kept
    let page := r.page - 1
    some ⟨recount ct (page - 1), page⟩
  else if c = keyEsc then none
  else some r

/-- Where the keys lead: the command has returned, or it shows a page and waits. -/
inductive Reading
  | closed (rest : List UInt8)
  | page (r : Reader)
  deriving DecidableEq

/-- `while(off<len)` -/
def readerLoop (fn : CStr) (ct : List UInt8) (r : Reader) (out : List Shown) :
    List UInt8 → Reading × List Shown
  | [] =>
    if r.off < ct.length then (.page r, out ++ drawPage fn ct r.off)
    else (.closed [], out ++ [.call .clear])
  | c :: keys =>
    if r.off < ct.length then
      match r.key ct c with
      | none => (.closed keys, out ++ drawPage fn ct r.off ++ [.call .clear])
      | some r => readerLoop fn ct r (out ++ drawPage fn ct r.off) keys
    else (.closed (c :: keys), out ++ [.call .clear])

def cmdReader (s : FsState) (fn : CharArray 32) (keys : List UInt8) :
    Except Stuck (Reading × List Shown) := do
  let (fn, keys, out) ← readField id [] ⟨fn, 0⟩ [.clear, .print (ascii "\n  File to read: ")] keys
  let (len, ct) := fsReadFile s fn.str 4096
  if len ≤ 0 then .ok (.closed keys, out.map .call ++ [.call (.print (ascii "\n  Not found!\n"))])
  else .ok (readerLoop fn.str (ct.take len.toNat) ⟨0, 1⟩ (out.map .call) keys)

/-! ## Stores in the video memory -/

def Shown.OnScreen : Shown → Prop
  | .call _ => True
  | .cell x y _ => x < vgaWidth ∧ y < vgaHeight

theorem vgaPut_onScreen (x y : ℕ) (c color : UInt8) : ∀ d ∈ vgaPut x y c color, d.OnScreen := by
  intro d hd
  unfold vgaPut at hd
  split_ifs at hd with hin
  · rw [List.mem_singleton.mp hd]
    exact hin
  · cases hd

theorem layout_onScreen (text : List UInt8) (p : Pen) : ∀ d ∈ (layout p text).2, d.OnScreen := by
  induction text generalizing p with
  | nil => exact List.forall_mem_nil _
  | cons c text ih =>
    rw [layout]
    split_ifs with hroom hline
    · exact ih _
    · exact List.forall_mem_append.mpr ⟨vgaPut_onScreen _ _ _ _, ih _⟩
    · exact List.forall_mem_nil _

/-- `draw_box` does not test where it stores; the box and its title are on the screen. -/
theorem drawBox_onScreen {x y w h : ℕ} (hw : 0 < w) (hh : 0 < h) (hx : x + w ≤ vgaWidth)
    (hy : y + h ≤ vgaHeight) {title : CStr} (htitle : title.bytes.length ≤ w) :
    ∀ d ∈ drawBox x y w h title, d.OnScreen := by
  intro d hd
  unfold drawBox at hd
  rcases List.mem_append.mp hd with hd | hd
  · rcases List.mem_append.mp hd with hd | hd
    · obtain ⟨i, hi, hd⟩ := List.mem_flatMap.mp hd
      rw [List.mem_range'_1] at hi
      rw [List.mem_pair] at hd
      rcases hd with rfl | rfl
      · exact ⟨by omega, by omega⟩
      · exact ⟨by omega, by omega⟩
    · obtain ⟨r, hr, hd⟩ := List.mem_flatMap.mp hd
      rw [List.mem_range'_1] at hr
      rw [List.mem_pair] at hd
      rcases hd with rfl | rfl
      · exact ⟨by omega, by omega⟩
      · exact ⟨by omega, by omega⟩
  · obtain ⟨⟨c, i⟩, hi, rfl⟩ := List.mem_map.mp hd
    have hlt := List.snd_lt_of_mem_zipIdx hi
    exact ⟨by omega, by omega⟩

theorem drawPage_onScreen {fn : CStr} (hfn : fn.bytes.length ≤ 31) (ct : List UInt8) (off : ℕ) :
    ∀ d ∈ drawPage fn ct off, d.OnScreen := by
  intro d hd
  unfold drawPage at hd
  rcases List.mem_append.mp hd with hd | hd
  · rcases List.mem_append.mp hd with hd | hd
    · rcases List.mem_cons.mp hd with rfl | hd
      · trivial
      · exact drawBox_onScreen (by decide) (by decide) (by decide) (by decide) (by omega) d hd
    · exact layout_onScreen _ _ d hd
  · obtain ⟨c, -, hd⟩ := List.mem_flatMap.mp hd
    exact vgaPut_onScreen _ _ _ _ d hd

/-! ## Runs of the reader -/

/-- The page that is shown after some keys. -/
def Reader.run (ct : List UInt8) (r : Reader) : List UInt8 → Option Reader
  | [] => if r.off < ct.length then some r else none
  | c :: keys => if r.off < ct.length then (r.key ct c).bind fun r => r.run ct keys else none

theorem readerLoop_page (fn : CStr) (ct : List UInt8) (r : Reader) (out : List Shown)
    (keys : List UInt8) (r' : Reader) :
    (readerLoop fn ct r out keys).1 = .page r' ↔ r.run ct keys = some r' := by
  induction keys generalizing r out with
  | nil =>
    unfold readerLoop Reader.run
    split_ifs <;> simp
  | cons c keys ih =>
    unfold readerLoop Reader.run
    by_cases hmore : r.off < ct.length
    · rw [if_pos hmore, if_pos hmore]
      rcases r.key ct c with _ | next
      · simp
      · exact ih next _
    · rw [if_neg hmore, if_neg hmore]
      simp

theorem Reader.run_append (ct : List UInt8) (r : Reader) (keys more : List UInt8) :
    r.run ct (keys ++ more) = (r.run ct keys).bind fun r => r.run ct more := by
  induction keys generalizing r with
  | nil =>
    rw [List.nil_append, run]
    by_cases hmore : r.off < ct.length
    · rw [if_pos hmore, Option.bind_some]
    · rw [if_neg hmore, Option.bind_none]
      cases more <;> exact if_neg hmore
  | cons c keys ih =>
    rw [List.cons_append, run, run]
    by_cases hmore : r.off < ct.length
    · rw [if_pos hmore, if_pos hmore]
      rcases r.key ct c with _ | next
      · rfl
      · exact ih next
    · rw [if_neg hmore, if_neg hmore]
      rfl

theorem Reader.off_lt_of_run {ct : List UInt8} {r r' : Reader} {keys : List UInt8}
    (h : r.run ct keys = some r') : r'.off < ct.length := by
  induction keys generalizing r with
  | nil =>
    rw [run] at h
    split_ifs at h with hmore
    rwa [← Option.some.inj h]
  | cons c keys ih =>
    rw [run] at h
    split_ifs at h
    obtain ⟨next, -, hrun⟩ := Option.bind_eq_some_iff.mp h
    exact ih hrun

/-- `cmd_reader` shows a page after the name of a file and `keys`. -/
def ReaderAt (s : FsState) (fn : CharArray 32) (name keys : List UInt8) (r : Reader) : Prop :=
  ∃ shown, cmdReader s fn (name ++ 10 :: keys) = .ok (.page r, shown)

/-- The right key and then the left key lead back where they can be pressed, and the left key leaves a
page on the screen. -/
structure Reversible (s : FsState) (fn : CharArray 32) (name ct : List UInt8) : Prop where
  returns : ∀ keys r, ReaderAt s fn name keys r → nextPage ct r.off < ct.length →
    ∃ r', ReaderAt s fn name (keys ++ [keyRight, keyLeft]) r' ∧ r'.off = r.off
  stays : ∀ keys r, ReaderAt s fn name keys r → ∃ r', ReaderAt s fn name (keys ++ [keyLeft]) r'

section Run

variable {ct : List UInt8}

theorem le_nextPage (ct : List UInt8) (off : ℕ) : off ≤ nextPage ct off := Nat.le_add_right _ _

/-- The way back finds the pages that have a successor. -/
def PagesAgree (ct : List UInt8) : Prop :=
  ∀ n, (nextPage ct)^[n + 1] 0 < ct.length → recount ct n = (nextPage ct)^[n] 0

/-- The page is one of those that the way forward shows, and has its number. -/
def OnTheWay (ct : List UInt8) (r : Reader) : Prop := ∃ n, r = ⟨(nextPage ct)^[n] 0, n + 1⟩

theorem Reader.key_right {r : Reader} (hnext : nextPage ct r.off < ct.length) :
    r.key ct keyRight = some ⟨nextPage ct r.off, r.page + 1⟩ := if_pos ⟨.inl rfl, hnext⟩

theorem Reader.key_left {r : Reader} (hpage : r.page > 1) :
    r.key ct keyLeft = some ⟨recount ct (r.page - 2), r.page - 1⟩ := by
  have hright : ¬ (keyLeft = keyRight ∨ keyLeft = 10) := by decide
  rw [key, if_neg (mt And.left hright), if_pos ⟨rfl, hpage⟩]
  rfl

/-- No key leads away from these pages, or behind the end of the file. -/
theorem OnTheWay.key (hagree : PagesAgree ct) {r r' : Reader} (h : OnTheWay ct r)
    (hshown : r.off < ct.length) {c : UInt8} (hkey : r.key ct c = some r') :
    OnTheWay ct r' ∧ r'.off < ct.length := by
  obtain ⟨n, rfl⟩ := h
  unfold Reader.key at hkey
  split_ifs at hkey with hright hleft hesc
  · rw [← Option.some.inj hkey]
    exact ⟨⟨n + 1, by rw [Function.iterate_succ_apply']⟩, hright.2⟩
  · -- there is a page in front of this one, and this one is its successor
    obtain ⟨m, rfl⟩ : ∃ m, n = m + 1 := ⟨n - 1, by have := hleft.2; simp at this; omega⟩
    rw [← Option.some.inj hkey]
    have hback : recount ct m = (nextPage ct)^[m] 0 := hagree m hshown
    have hle := le_nextPage ct ((nextPage ct)^[m] 0)
    rw [← Function.iterate_succ_apply' (nextPage ct)] at hle
    exact ⟨⟨m, by simp [hback]⟩, by simpa [hback] using hle.trans_lt hshown⟩
  · rw [← Option.some.inj hkey]
    exact ⟨⟨n, rfl⟩, hshown⟩

theorem OnTheWay.run (hagree : PagesAgree ct) {r r' : Reader} (h : OnTheWay ct r)
    {keys : List UInt8} (hrun : r.run ct keys = some r') : OnTheWay ct r' := by
  induction keys generalizing r with
  | nil =>
    rw [Reader.run] at hrun
    split_ifs at hrun
    rwa [← Option.some.inj hrun]
  | cons c keys ih =>
    rw [Reader.run] at hrun
    split_ifs at hrun with hshown
    obtain ⟨next, hkey, hrest⟩ := Option.bind_eq_some_iff.mp hrun
    exact ih (h.key hagree hshown hkey).1 hrest

theorem run_right {n : ℕ} (hshown : (nextPage ct)^[n] 0 < ct.length) :
    Reader.run ct ⟨0, 1⟩ (List.replicate n keyRight) = some ⟨(nextPage ct)^[n] 0, n + 1⟩ := by
  induction n with
  | zero => exact if_pos hshown
  | succ n ih =>
    have hnext : nextPage ct ((nextPage ct)^[n] 0) < ct.length := by
      rwa [← Function.iterate_succ_apply' (nextPage ct)]
    rw [List.replicate_succ', Reader.run_append, ih ((le_nextPage ct _).trans_lt hnext),
      Option.bind_some, Reader.run, if_pos ((le_nextPage ct _).trans_lt hnext), Reader.key_right hnext,
      Option.bind_some, Reader.run, if_pos hnext, Function.iterate_succ_apply']

theorem Reader.run_right_left {off : ℕ} (hnext : nextPage ct off < ct.length) (n : ℕ) :
    Reader.run ct ⟨off, n + 1⟩ [keyRight, keyLeft] =
      if recount ct n < ct.length then some ⟨recount ct n, n + 1⟩ else none := by
  have hright := @key_right ct ⟨off, n + 1⟩ hnext
  have hleft := @key_left ct ⟨nextPage ct off, n + 1 + 1⟩ (Nat.lt_add_of_pos_left (Nat.succ_pos n))
  rw [run, if_pos ((le_nextPage ct off).trans_lt hnext), hright, Option.bind_some, run, if_pos hnext,
    hleft, Option.bind_some, run]
  rfl

/-- Turning the pages one after the other and back once shows where the two ways differ. -/
theorem pagesAgree_of_returns (hreturns : ∀ keys r, Reader.run ct ⟨0, 1⟩ keys = some r →
      nextPage ct r.off < ct.length →
      ∃ r', Reader.run ct ⟨0, 1⟩ (keys ++ [keyRight, keyLeft]) = some r' ∧ r'.off = r.off) :
    PagesAgree ct := by
  intro n hnext
  rw [Function.iterate_succ_apply'] at hnext
  have hshown := run_right ((le_nextPage ct _).trans_lt hnext)
  obtain ⟨r', hrun, hoff⟩ := hreturns _ _ hshown hnext
  rw [Reader.run_append, hshown, Option.bind_some, Reader.run_right_left hnext] at hrun
  split_ifs at hrun
  rw [← Option.some.inj hrun] at hoff
  exact hoff

namespace PagesAgree

variable {keys : List UInt8} {r : Reader}

theorem returns (hagree : PagesAgree ct) (hr : Reader.run ct ⟨0, 1⟩ keys = some r)
    (hnext : nextPage ct r.off < ct.length) :
    Reader.run ct ⟨0, 1⟩ (keys ++ [keyRight, keyLeft]) = some r := by
  obtain ⟨n, rfl⟩ := OnTheWay.run hagree ⟨0, rfl⟩ hr
  have hback : recount ct n = (nextPage ct)^[n] 0 := hagree n (by rwa [Function.iterate_succ_apply'])
  rw [Reader.run_append, hr, Option.bind_some, Reader.run_right_left hnext, hback,
    if_pos ((le_nextPage ct _).trans_lt hnext)]

theorem stays (hagree : PagesAgree ct) (hr : Reader.run ct ⟨0, 1⟩ keys = some r) :
    ∃ r', Reader.run ct ⟨0, 1⟩ (keys ++ [keyLeft]) = some r' := by
  have hway := OnTheWay.run hagree ⟨0, rfl⟩ hr
  have hshown := Reader.off_lt_of_run hr
  -- only ESC leaves the loop at once
  obtain ⟨next, hkey⟩ : ∃ next, r.key ct keyLeft = some next := by
    unfold Reader.key
    split_ifs with _ _ hesc
    · exact ⟨_, rfl⟩
    · exact ⟨_, rfl⟩
    · exact absurd hesc (by decide)
    · exact ⟨_, rfl⟩
  refine ⟨next, ?_⟩
  rw [Reader.run_append, hr, Option.bind_some, Reader.run, if_pos hshown, hkey, Option.bind_some,
    Reader.run, if_pos (hway.key hagree hshown hkey).2]

end PagesAgree

end Run

variable {s : FsState} {idx : NodeIdx}

theorem cmdReader_file (h : fsSystem.Reachable s) (fn : CharArray 32) {typing : List UInt8}
    (hline : 10 ∉ typing) {name : CStr} (hname : typed 31 typing = name.bytes)
    (hfile : FileHere s name idx) (hne : (s.nodes idx).content ≠ []) (keys : List UInt8) :
    ∃ out, cmdReader s fn (typing ++ 10 :: keys) =
      .ok (readerLoop name (s.nodes idx).content ⟨0, 1⟩ out keys) := by
  have hsize := (NodeBounds.reachable h).size idx
  have hlength := (s.nodes idx).content_length
  have hpos := List.length_pos_iff.mpr hne
  obtain ⟨a, out, hread, ha⟩ := @readField_ok id [] ⟨fn, 0⟩ [] typing (.empty _ rfl (by decide)) hline
    keys [.clear, .print (ascii "\n  File to read: ")]
  obtain rfl : a.str = name := CStr.ext_bytes (ha.trans hname)
  have hfs := fsReadFile_file (hfile.found (FsTree.reachable h)) hfile.file hsize
    (show 1 ≤ 4096 by decide)
  have hmin : min (s.nodes idx).size (4096 - 1) = (s.nodes idx).size := by
    simp only [fsMaxData] at hsize
    omega
  rw [hmin, ← hlength, List.take_length] at hfs
  refine ⟨out.map .call, ?_⟩
  have hpositive : ¬ ((s.nodes idx).content.length : ℤ) ≤ 0 := by omega
  simp only [cmdReader, hread, bind, Except.bind, hfs, if_neg hpositive, Int.toNat_natCast, List.take_left]

theorem readerAt_iff (h : fsSystem.Reachable s) (fn : CharArray 32) {typing : List UInt8}
    (hline : 10 ∉ typing) {name : CStr} (hname : typed 31 typing = name.bytes)
    (hfile : FileHere s name idx) (hne : (s.nodes idx).content ≠ []) (keys : List UInt8) (r : Reader) :
    ReaderAt s fn typing keys r ↔ Reader.run (s.nodes idx).content ⟨0, 1⟩ keys = some r := by
  obtain ⟨out, hrun⟩ := cmdReader_file h fn hline hname hfile hne keys
  unfold ReaderAt
  rw [hrun, ← readerLoop_page name _ _ out]
  constructor
  · rintro ⟨shown, heq⟩
    rw [Except.ok.inj heq]
  · intro hpage
    exact ⟨_, congrArg Except.ok (Prod.ext hpage rfl)⟩

end MyMisu
