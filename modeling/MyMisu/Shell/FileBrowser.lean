import MyMisu.Fs.Append
import MyMisu.Fs.Listing

/-!
# The listing in the file browser

`cmd_filebrowser` has `fs_list` write a listing and reads the names and types back from it, with
widths of its own.  The loops are modelled together with the indices they use in `listing[2048]`,
`types[32]` and `names[32][40]`; the memory behind the listing is arbitrary.
-/

namespace MyMisu

variable {s : FsState}

/-- An element of one of the arrays of `cmd_filebrowser` is read or written. -/
inductive BrowserAccess
  | listing (i : ℕ)
  | types (n : ℕ)
  | names (n ni : ℕ)
  deriving DecidableEq

def BrowserAccess.InRange : BrowserAccess → Prop
  | .listing i => i < 2048
  | .types n => n < 32
  | .names n ni => n < 32 ∧ ni < 40

/-- The loop that copies a name, from `ni` and `i` on and with `room` bytes to go until `ni` is 39:
the bytes copied and the accesses. -/
def copyName (listing : ℕ → UInt8) (n : ℕ) : ℕ → ℕ → ℕ → List UInt8 × List BrowserAccess
  | 0, _, i => ([], [.listing i])
  | room + 1, ni, i =>
    if listing i = 0 ∨ listing i = 10 then ([], [.listing i])
    else
      let rest := copyName listing n room (ni + 1) (i + 1)
      (listing i :: rest.1, .listing i :: .names n ni :: rest.2)

/-- The outer loop from `n` and `i` on, with `room` entries to go until `n` is 32: the types and
names found and the accesses. -/
def parseListing (listing : ℕ → UInt8) : ℕ → ℕ → ℕ → List (UInt8 × List UInt8) × List BrowserAccess
  | 0, _, i => ([], [.listing i])
  | room + 1, n, i =>
    if listing i = 0 then ([], [.listing i])
    else
      let type : UInt8 := if listing i = 68 then 68 else 70
      let name := copyName listing n 39 0 (i + 6)
      let i' := i + 6 + name.1.length
      let rest := parseListing listing room (n + 1) (if listing i' = 10 then i' + 1 else i')
      ((type, name.1) :: rest.1,
        .listing i :: .types n :: (name.2 ++ .names n name.1.length :: .listing i' :: rest.2))

/-! ## Decoding -/

/-- A name of characters that can be typed. -/
def Printable (name : CStr) : Prop := ∀ c ∈ name.bytes, 32 ≤ c ∧ c ≤ 126

instance (name : CStr) : Decidable (Printable name) := inferInstanceAs (Decidable (∀ _ ∈ _, _))

/-- `'D'` or `'F'`. -/
def typeChar : NodeType → UInt8
  | .dir => 68
  | _ => 70

/-- The bytes from `listing[i]` on. -/
def HoldsAt (listing : ℕ → UInt8) (i : ℕ) (bytes : List UInt8) : Prop :=
  bytesAt listing i bytes.length = bytes

theorem holdsAt_append {listing : ℕ → UInt8} {i : ℕ} {xs ys : List UInt8} :
    HoldsAt listing i (xs ++ ys) ↔ HoldsAt listing i xs ∧ HoldsAt listing (i + xs.length) ys := by
  unfold HoldsAt
  rw [List.length_append, bytesAt_append]
  constructor
  · intro h
    exact List.append_inj h (bytesAt_length ..)
  · intro h
    rw [h.1, h.2]

theorem holdsAt_cons {listing : ℕ → UInt8} {i : ℕ} {b : UInt8} {ys : List UInt8} :
    HoldsAt listing i (b :: ys) ↔ listing i = b ∧ HoldsAt listing (i + 1) ys := by
  have hone : HoldsAt listing i [b] ↔ listing i = b := by
    unfold HoldsAt bytesAt
    simp
  rw [← List.singleton_append, holdsAt_append, hone]
  rfl

/-- A name in front of a newline is copied whole. -/
theorem copyName_eq {listing : ℕ → UInt8} {n : ℕ} (hn : n < 32) {name : List UInt8} {i : ℕ}
    (hname : ∀ c ∈ name, c ≠ 0 ∧ c ≠ 10) (hold : HoldsAt listing i (name ++ [10]))
    {room ni : ℕ} (hroom : ni + room = 39) (hfit : name.length ≤ room)
    (hend : i + name.length < 2048) :
    (copyName listing n room ni i).1 = name ∧
      ∀ a ∈ (copyName listing n room ni i).2, a.InRange := by
  induction name generalizing room ni i with
  | nil =>
    -- the loop ends at the newline, or has filled the name and does not look for it
    have hstop : copyName listing n room ni i = ([], [.listing i]) := by
      cases room with
      | zero => rfl
      | succ room => rw [copyName, if_pos (.inr (holdsAt_cons.mp hold).1)]
    rw [hstop]
    exact ⟨rfl, List.forall_mem_singleton.mpr hend⟩
  | cons c name ih =>
    have ⟨hc, hrest⟩ := holdsAt_cons.mp hold
    have ⟨hc0, hc10⟩ := hname c List.mem_cons_self
    rw [List.length_cons] at hfit hend
    cases room with
    | zero => omega
    | succ room =>
      have ⟨hcopied, haccess⟩ := ih (fun d hd => hname d (List.mem_cons_of_mem _ hd)) hrest
        (show ni + 1 + room = 39 by omega) (by omega) (by omega)
      rw [copyName, if_neg (by rw [hc]; exact not_or.mpr ⟨hc0, hc10⟩)]
      refine ⟨by simp only [hcopied, hc], ?_⟩
      simp only [List.forall_mem_cons]
      refine ⟨?_, ?_, haccess⟩
      · show i < 2048
        omega
      · show n < 32 ∧ ni < 40
        omega

/-- What the browser shows for a node. -/
def browserEntry (s : FsState) (i : NodeIdx) : UInt8 × List UInt8 :=
  (typeChar (s.nodes i).type, (s.nameOf i).bytes)

theorem typeWord_cons {type : NodeType} (h : type = .file ∨ type = .dir) :
    ∃ rest, typeWord type = typeChar type :: rest ∧ rest.length = 3 := by
  rcases h with h | h
  · rw [h]
    exact ⟨(CStr.ofString "ILE").bytes, rfl, rfl⟩
  · rw [h]
    exact ⟨(CStr.ofString "IR ").bytes, rfl, rfl⟩

/-- Where the parts of a line in the listing are. -/
theorem holdsAt_listEntry {listing : ℕ → UInt8} {i : ℕ} {j : NodeIdx} {ys : List UInt8}
    (htyped : (s.nodes j).type = .file ∨ (s.nodes j).type = .dir)
    (hold : HoldsAt listing i (listEntry s j ++ ys)) :
    listing i = typeChar (s.nodes j).type ∧
      HoldsAt listing (i + 6) ((s.nameOf j).bytes ++ [10]) ∧ HoldsAt listing (i + entrySize s j) ys := by
  have ⟨rest, htype, hrest⟩ := typeWord_cons htyped
  have hlength := listEntry_length htyped
  have ⟨hentry, hys⟩ := holdsAt_append.mp hold
  rw [hlength] at hys
  have hline : (CStr.ofString "\n").bytes = [10] := rfl
  unfold listEntry at hentry
  rw [htype, hline, List.append_assoc] at hentry
  have ⟨hhead, htail⟩ := holdsAt_append.mp hentry
  refine ⟨(holdsAt_cons.mp hhead).1, ?_, hys⟩
  rwa [List.length_append, List.length_cons, hrest] at htail

theorem Printable.ne_stop {name : CStr} (hprint : Printable name) :
    ∀ c ∈ name.bytes, c ≠ 0 ∧ c ≠ 10 := by
  intro c hc
  have hlow := (hprint c hc).1
  constructor
  · rintro rfl
    exact absurd hlow (by decide)
  · rintro rfl
    exact absurd hlow (by decide)

theorem typeChar_read {type : NodeType} (h : type = .file ∨ type = .dir) :
    typeChar type ≠ 0 ∧ (if typeChar type = 68 then (68 : UInt8) else 70) = typeChar type := by
  rcases h with h | h
  · rw [h]
    decide
  · rw [h]
    decide

/-- A line of the listing is read as the entry it was written for, and the loop goes on behind it. -/
theorem parseListing_entry (h : FsTree s) {listing : ℕ → UInt8} {j : NodeIdx} (hu : s.used j)
    (hprint : Printable (s.nameOf j)) {ys : List UInt8} {n i : ℕ} (hn : n < 32) (room : ℕ)
    (hold : HoldsAt listing i (listEntry s j ++ ys)) (hend : i + entrySize s j < 2048) :
    ∃ used, (∀ a ∈ used, BrowserAccess.InRange a) ∧
      parseListing listing (room + 1) n i =
        (browserEntry s j :: (parseListing listing room (n + 1) (i + entrySize s j)).1,
          used ++ (parseListing listing room (n + 1) (i + entrySize s j)).2) := by
  have ⟨_, hshort⟩ := h.named j hu
  have htyped := h.typed j hu
  have hsize : entrySize s j = (s.nameOf j).bytes.length + 7 := rfl
  simp only [fsMaxName] at hshort
  have ⟨htype, hname, _⟩ := holdsAt_listEntry htyped hold
  have ⟨hcopied, hcopy⟩ := copyName_eq hn hprint.ne_stop hname (show 0 + 39 = 39 from rfl)
    (by omega) (by omega)
  have hnewline : listing (i + 6 + (s.nameOf j).bytes.length) = 10 :=
    (holdsAt_cons.mp (holdsAt_append.mp hname).2).1
  have hnext : i + 6 + (s.nameOf j).bytes.length + 1 = i + entrySize s j := by omega
  have ⟨hne, hread⟩ := typeChar_read htyped
  refine ⟨.listing i :: .types n :: ((copyName listing n 39 0 (i + 6)).2 ++
    [.names n (s.nameOf j).bytes.length, .listing (i + 6 + (s.nameOf j).bytes.length)]), ?_, ?_⟩
  · simp only [List.forall_mem_cons, List.forall_mem_append]
    refine ⟨?_, hn, hcopy, ⟨hn, ?_⟩, ?_, fun a ha => absurd ha List.not_mem_nil⟩
    -- the start of the line, the end of the name and the newline
    · show i < 2048
      omega
    · show (s.nameOf j).bytes.length < 40
      omega
    · show i + 6 + (s.nameOf j).bytes.length < 2048
      omega
  · rw [parseListing, if_neg (by rwa [htype])]
    simp only [hcopied, hnewline, if_true, hnext, htype, hread, List.cons_append, List.append_assoc,
      List.nil_append]
    rfl

/-- The lines of a listing are read back one after the other. -/
theorem parseListing_eq (h : FsTree s) {listing : ℕ → UInt8} {l : List NodeIdx}
    (hl : ∀ j ∈ l, s.used j ∧ Printable (s.nameOf j)) {room n i : ℕ} (hroom : n + room = 32)
    (hold : HoldsAt listing i (l.flatMap (listEntry s) ++ [0]))
    (hend : i + (l.map (entrySize s)).sum < 2048) :
    (parseListing listing room n i).1 = (l.take room).map (browserEntry s) ∧
      ∀ a ∈ (parseListing listing room n i).2, a.InRange := by
  induction l generalizing room n i with
  | nil =>
    have hstop : parseListing listing room n i = ([], [.listing i]) := by
      cases room with
      | zero => rfl
      | succ room => rw [parseListing, if_pos (holdsAt_cons.mp hold).1]
    rw [hstop, List.take_nil]
    exact ⟨rfl, List.forall_mem_singleton.mpr hend⟩
  | cons j l ih =>
    have ⟨hu, hprint⟩ := hl j List.mem_cons_self
    rw [List.map_cons, List.sum_cons] at hend
    rw [List.flatMap_cons, List.append_assoc] at hold
    cases room with
    | zero =>
      -- 32 entries are taken
      refine ⟨rfl, List.forall_mem_singleton.mpr ?_⟩
      show i < 2048
      omega
    | succ room =>
      have ⟨_, _, hrest⟩ := holdsAt_listEntry (h.typed j hu) hold
      obtain ⟨used, hused, hrun⟩ := parseListing_entry h hu hprint (show n < 32 by omega) room hold
        (by omega)
      have ⟨hparsed, haccess⟩ := ih (fun k hk => hl k (List.mem_cons_of_mem _ hk))
        (show n + 1 + room = 32 by omega) hrest (by omega)
      rw [hrun, List.take_succ_cons, List.map_cons]
      exact ⟨congrArg _ hparsed, List.forall_mem_append.mpr ⟨hused, haccess⟩⟩

theorem entrySize_le (h : FsTree s) {i : NodeIdx} (hu : s.used i) : entrySize s i ≤ 38 := by
  have ⟨_, hlen⟩ := h.named i hu
  unfold entrySize
  simp only [fsMaxName] at hlen
  omega

/-- The first 32 children always fit. -/
theorem take_firstFit (h : FsTree s) :
    ((children s s.currentDir).firstFit (entrySize s) 2047).take 32 =
      (children s s.currentDir).take 32 := by
  have hsum : ((((children s s.currentDir).take 32).map (entrySize s)).sum) ≤ 32 * 38 := by
    have hbound : ∀ x ∈ ((children s s.currentDir).take 32).map (entrySize s), x ≤ 38 := by
      intro x hx
      have ⟨i, hi, hxi⟩ := List.mem_map.mp hx
      rw [← hxi]
      exact entrySize_le h (mem_children.mp (List.mem_of_mem_take hi)).1
    have hle := List.sum_le_card_nsmul _ 38 hbound
    rw [List.length_map, smul_eq_mul] at hle
    have hlen := List.length_take_le 32 (children s s.currentDir)
    omega
  have hsplit := List.firstFit_append (show (((children s s.currentDir).take 32).map
    (entrySize s)).sum ≤ 2047 by omega) ((children s s.currentDir).drop 32)
  rw [List.take_append_drop] at hsplit
  rw [hsplit]
  -- what follows the first 32 children cannot push one of them out
  by_cases hlen : (children s s.currentDir).length ≤ 32
  · rw [List.drop_eq_nil_of_le hlen, List.firstFit, List.append_nil, List.take_take, min_self]
  · have hexact : ((children s s.currentDir).take 32).length = 32 :=
      List.length_take_of_le (by omega)
    exact List.take_left' hexact

/-- The file browser reads the types and names of the first 32 children back from the listing, and
every index it uses is in range. -/
theorem browser_decodes_listing (s : FsState) (hr : fsSystem.Reach (CreatesOnly Printable) s)
    (listing : ℕ → UInt8) (hold : HoldsAt listing 0 (fsList s (.ofString "/") 2048).2) :
    (parseListing listing 32 0 0).1 =
        ((children s s.currentDir).take 32).map (browserEntry s) ∧
      ∀ a ∈ (parseListing listing 32 0 0).2, a.InRange := by
  have hreach : fsSystem.Reachable s := hr.mono fun _ _ _ => trivial
  have h := FsTree.reachable hreach
  have hnames : NamesOnly Printable s := .reach (by decide +kernel) hr
  rw [fsList_eq h] at hold
  rw [← take_firstFit h]
  refine parseListing_eq h (fun j hj => ?_) rfl hold ?_
  · have ⟨hu, hp⟩ := mem_children.mp ((List.firstFit_sublist _ _).subset hj)
    refine ⟨hu, hnames j hu fun h0 => ?_⟩
    rw [h0, FsState.parentOf, h.rootParent] at hp
    cases hp
  · have := @List.sum_firstFit_le _ (entrySize s) 2047 (children s s.currentDir)
    omega

theorem browser_decodes_listing_start :
    let listing := fun k => (fsList (fsInit 0) (.ofString "/") 2048).2.getD k 0
    (parseListing listing 32 0 0).1 =
        ((children (fsInit 0) (fsInit 0).currentDir).take 32).map (browserEntry (fsInit 0)) ∧
      ∀ a ∈ (parseListing listing 32 0 0).2, a.InRange :=
  browser_decodes_listing (fsInit 0) (.init ⟨0, rfl⟩) _ (by unfold HoldsAt; decide +kernel)

end MyMisu
