import MyMisu.Fs.SlotReuse
import MyMisu.Lib.Words

/-!
# Names and paths

What the names in the tables can be, whether a created directory can be entered, and whether the
path `fs_getcwd` returns tells directories apart.  `fs_cd` gives `..` and `/` a meaning of its own,
which `fs_mkdir` does not know, and the path is the name of one node.
-/

namespace MyMisu

variable {s : FsState}

/-! ## The names a run gives -/

/-- The name a call may give to a new node. -/
def FsOp.creates : FsOp → Option CStr
  | .mkdir _ name | .createFile _ name => name
  | .open _ name flags => if hasFlag flags oCreat then name else none
  | _ => none

/-- The guard of runs that give only names with the property `P`. -/
def CreatesOnly (P : CStr → Prop) (_ : FsState) (op : FsOp) : Prop :=
  ∀ name, op.creates = some name → P name

/-- The nodes of the tables other than the root have names with the property `P`. -/
def NamesOnly (P : CStr → Prop) (s : FsState) : Prop := ∀ i, s.used i → i ≠ 0 → P (s.nameOf i)

/-- What `fs_init` calls its files and directories. -/
def initialNames : List CStr :=
  ["home", "bin", "etc", "tmp", "readme.txt", "hostname", "version"].map .ofString

namespace NamesOnly

variable {P : CStr → Prop}

theorem congr {s' : FsState} (h : NamesOnly P s)
    (hnodes : ∀ i, s'.used i → s.used i ∧ (s'.nodes i).name = (s.nodes i).name) :
    NamesOnly P s' := by
  intro i hu hne
  have ⟨hu', hname⟩ := hnodes i hu
  rw [FsState.nameOf, hname]
  exact h i hu' hne

theorem of_nodes {s' : FsState} (h : NamesOnly P s) (hnodes : s'.nodes = s.nodes) :
    NamesOnly P s' :=
  h.congr fun i hu => by rw [FsState.used, hnodes] at hu; rw [hnodes]; exact ⟨hu, rfl⟩

theorem setNode {i : NodeIdx} {node : FsNode} (h : NamesOnly P s) (hu : node.inUse = (s.nodes i).inUse)
    (hname : node.name = (s.nodes i).name) : NamesOnly P (s.setNode i node) := by
  refine h.congr fun j hj => ?_
  by_cases hji : j = i
  · rw [hji, FsState.used, FsState.setNode_self] at hj
    rw [hji, FsState.setNode_self]
    exact ⟨hu.symm.trans hj, hname⟩
  · rw [FsState.used, FsState.setNode_ne _ _ hji] at hj
    rw [FsState.setNode_ne _ _ hji]
    exact ⟨hj, rfl⟩

theorem create {type : NodeType} {clear : (ℕ → UInt8) → ℕ → UInt8} {tick : ℕ} {name : CStr}
    {idx : NodeIdx} (h : NamesOnly P s) (hlen : name.bytes.length < fsMaxName) (hname : P name) :
    NamesOnly P (s.create type clear tick name idx) := by
  intro i hu hne
  by_cases hi : i = idx
  · rw [hi, nameOf_create_self _ _ _ _ _ _ hlen]
    exact hname
  · rw [FsState.used, create_ne _ _ _ _ _ _ hi] at hu
    rw [nameOf_create_ne _ _ _ _ _ _ hi]
    exact h i hu hne

theorem createEntry {type : NodeType} {clear : (ℕ → UInt8) → ℕ → UInt8} {tick : ℕ}
    {name : Option CStr} (h : NamesOnly P s) (hname : ∀ n, name = some n → P n) :
    NamesOnly P (createEntry type clear s tick name).2 := by
  rcases createEntry_cases type clear s tick name with ⟨e, hrun, -⟩ | ⟨n, idx, hn, -, hlen, -, -, hrun⟩
  · rw [hrun]
    exact h
  · rw [hrun]
    exact h.create hlen (hname n hn)

theorem remove {name : CStr} {r : ℤ × FsState} (h : NamesOnly P s) (hr : RemoveCases s name r) :
    NamesOnly P r.2 := by
  rcases hr with ⟨e, hr⟩ | ⟨-, hr⟩
  · rw [hr]
    exact h
  · have ⟨idx, _, _, _, hs⟩ := hr.spec
    rw [hs]
    exact h.congr fun i hu => ⟨((used_free s idx i).mp hu).2, by rw [free_nodes]⟩

theorem openNode (h : NamesOnly P s) (idx : NodeIdx) (flags : ℕ) :
    NamesOnly P (openNode s idx flags).2 := by
  have htrunc : NamesOnly P (openTrunc s idx flags) := by
    unfold openTrunc
    split
    · exact h.setNode rfl rfl
    · exact h
  rcases openNode_cases s idx flags with ⟨-, hrun⟩ | ⟨-, -, hrun⟩ | ⟨fd, -, -, hrun⟩
  · rw [hrun]
    exact h
  · rw [hrun]
    exact htrunc
  · rw [hrun]
    exact htrunc.of_nodes (FsState.setFd_nodes ..)

theorem «open» {tick : ℕ} {name : Option CStr} {flags : ℕ} (h : NamesOnly P s)
    (hname : hasFlag flags oCreat = true → ∀ n, name = some n → P n) :
    NamesOnly P (fsOpen s tick name flags).2 := by
  rcases fsOpen_cases s tick name flags with ⟨e, hrun, -⟩ | ⟨n, idx, -, -, -, hrun⟩ |
    ⟨n, idx, s', hn, -, hlen, -, -, hcreat, hs', -, hrun⟩
  · rw [hrun]
    exact h
  · rw [hrun]
    exact h.openNode idx flags
  · rw [hrun, hs']
    exact (h.create hlen (hname hcreat n hn)).openNode idx flags

theorem writeFile {name : CStr} {buf : List UInt8} (h : NamesOnly P s) :
    NamesOnly P (fsWriteFile s name buf).2 := by
  rcases fsWriteFile_cases s name buf with ⟨e, hrun⟩ | ⟨idx, -, -, hrun⟩
  · rw [hrun]
    exact h
  · rw [hrun]
    exact h.setNode rfl rfl

theorem writeFd {fd : ℤ} {buf : Option (List UInt8)} (h : NamesOnly P s) :
    NamesOnly P (fsWriteFd s fd buf).2 := by
  rcases fsWriteFd_cases s fd buf with ⟨e, hrun⟩ | ⟨i, b, f, node, -, -, hnode, hf, -, hcase⟩
  · rw [hrun]
    exact h
  · rcases hcase with ⟨-, hrun⟩ | ⟨-, hrun⟩
    · rw [hrun]
      exact h.of_nodes rfl
    · rw [hrun, hnode, hf, FsFd.writeStart_node]
      exact (h.of_nodes rfl).setNode rfl rfl

theorem exec {op : FsOp} (h : NamesOnly P s) (hop : CreatesOnly P s op) : NamesOnly P (fsExec s op) := by
  cases op with
  | mkdir tick name => exact @NamesOnly.createEntry s P .dir id tick name h hop
  | createFile tick name =>
    exact @NamesOnly.createEntry s P .file (fun data => Function.update data 0 0) tick name h hop
  | writeFile name buf => exact h.writeFile
  | readFile name maxLen => exact h
  | delete name => exact h.remove (fsDelete_cases s name)
  | cd name => exact h.of_nodes (fsCd_nodes s name)
  | «open» tick name flags =>
    exact h.open fun hcreat n hn => hop n (by rw [FsOp.creates, if_pos hcreat, hn])
  | close fd => exact h.of_nodes (fsClose_nodes s fd)
  | readFd fd buf n => exact h.of_nodes (fsReadFd_nodes s fd buf n)
  | writeFd fd buf => exact h.writeFd
  | lseek fd offset whence => exact h.of_nodes (fsLseek_nodes s fd offset whence)
  | stat name out => exact h
  | unlink name => exact h.remove (fsUnlink_cases s name)
  | rmdir name => exact h.remove (fsRmdir_cases s name)

theorem empty : NamesOnly P fsEmpty := by
  intro i hu hne
  exfalso
  rw [FsState.used, fsEmpty] at hu
  simp only [if_neg hne] at hu
  exact Bool.false_ne_true hu

theorem init (hinit : ∀ name ∈ initialNames, P name) (tick : ℕ) : NamesOnly P (fsInit tick) := by
  have hall : ∀ name ∈ ["home", "bin", "etc", "tmp", "readme.txt", "hostname", "version"],
      P (.ofString name) := fun name hmem => hinit _ (List.mem_map_of_mem hmem)
  have hcreated : ∀ {s : FsState} {type : NodeType} {clear : (ℕ → UInt8) → ℕ → UInt8} (name : String),
      name ∈ ["home", "bin", "etc", "tmp", "readme.txt", "hostname", "version"] → NamesOnly P s →
      NamesOnly P (MyMisu.createEntry type clear s tick (some (.ofString name))).2 :=
    fun name hmem hs => hs.createEntry fun n hn => Option.some.inj hn ▸ hall name hmem
  have hwritten : ∀ {s : FsState} (name : CStr) (buf : List UInt8), NamesOnly P s →
      NamesOnly P (fsWriteFile s name buf).2 :=
    fun name buf hs => @NamesOnly.exec _ P (.writeFile name buf) hs fun n hn => nomatch hn
  unfold fsInit
  refine hwritten _ _ (hcreated "version" (by decide) (hwritten _ _ (hcreated "hostname" (by decide)
    (hwritten _ _ (hcreated "readme.txt" (by decide) ?_)))))
  exact hcreated "tmp" (by decide) (hcreated "etc" (by decide) (hcreated "bin" (by decide)
    (hcreated "home" (by decide) empty)))

/-- In a run that gives only names with a property of the first ones, all names have it. -/
theorem reach (hinit : ∀ name ∈ initialNames, P name) (h : fsSystem.Reach (CreatesOnly P) s) :
    NamesOnly P s := by
  refine h.invariant ?_ ?_
  · intro s hs
    have ⟨tick, htick⟩ : ∃ tick, s = fsInit tick := hs
    rw [htick]
    exact init hinit tick
  · intro s op s' _ hs hop hstep
    rw [hstep]
    exact hs.exec hop

end NamesOnly

/-! ## Entering a created directory -/

/-- `fs_mkdir(name)` made a directory that `fs_cd(name)` enters and `fs_cd("..")` leaves. -/
def EnteredAndLeft (s : FsState) (tick : ℕ) (name : CStr) : Prop :=
  let made := (fsMkdir s tick (some name)).2
  ∃ i, ¬ s.used i ∧ made.used i ∧ (made.nodes i).type = .dir ∧
    fsCd made name = (0, { made with currentDir := i }) ∧
    fsCd { made with currentDir := i } (.ofString "..") = (0, { made with currentDir := s.currentDir })

/-- `fs_cd` gives `..` and `/` a meaning of its own. -/
def CdSpecial (name : CStr) : Prop := name = .ofString ".." ∨ name = .ofString "/"

theorem fsCd_up {p : NodeIdx} (hp : s.parentOf s.currentDir = some p) :
    fsCd s (.ofString "..") = (0, { s with currentDir := p }) := by
  unfold fsCd
  rw [if_pos ((strcmp_bytes_iff _ _).mpr rfl), show (s.nodes s.currentDir).parent = some p from hp]

/-- A name without a meaning of its own is looked up. -/
theorem fsCd_lookup {name : CStr} (hname : ¬ CdSpecial name) :
    fsCd s name =
      match findNode s name with
      | none => (Errno.enoent.ret, s)
      | some i => if (s.nodes i).type ≠ .dir then (Errno.enotdir.ret, s)
        else (0, { s with currentDir := i }) := by
  unfold fsCd
  exact (if_neg fun h => hname (.inl ((strcmp_bytes_iff _ _).mp h))).trans
    (if_neg fun h => hname (.inr ((strcmp_bytes_iff _ _).mp h)))

/-- A name with a meaning of its own leads to a node that was there before. -/
theorem fsCd_special {t : FsState} {name : CStr} (hname : CdSpecial name) :
    (fsCd t name).2.currentDir = 0 ∨ (fsCd t name).2.currentDir = t.currentDir ∨
      t.parentOf t.currentDir = some (fsCd t name).2.currentDir := by
  rcases hname with hname | hname
  · unfold fsCd
    rw [if_pos ((strcmp_bytes_iff _ _).mpr hname)]
    cases hp : (t.nodes t.currentDir).parent with
    | none => exact .inr (.inl rfl)
    | some p => exact .inr (.inr hp)
  · have hne : name ≠ .ofString ".." := by
      rw [hname]
      decide
    unfold fsCd
    rw [if_neg fun h => hne ((strcmp_bytes_iff _ _).mp h), if_pos ((strcmp_bytes_iff _ _).mpr hname)]
    exact .inl rfl

/-- A `fs_mkdir` that succeeds puts the directory in a free slot. -/
theorem fsMkdir_zero {tick : ℕ} {name : CStr} (hok : (fsMkdir s tick (some name)).1 = 0) :
    ∃ idx, ¬ s.used idx ∧ name.bytes.length < fsMaxName ∧ findNode s name = none ∧
      (fsMkdir s tick (some name)).2 = s.create .dir id tick name idx := by
  rcases createEntry_cases .dir id s tick (some name) with ⟨e, hrun, -⟩ |
    ⟨n, idx, hn, -, hlen, hnew, hfree, hrun⟩
  · rw [fsMkdir, hrun] at hok
    have := e.ret_neg
    omega
  · have hunused : ¬ s.used idx := by
      rw [FsState.used, (findFreeNode_some hfree).2]
      decide
    rw [← Option.some.inj hn] at hlen hnew hrun
    exact ⟨idx, hunused, hlen, hnew, congrArg Prod.snd hrun⟩

/-- The root, the directory itself and its parent are older than a new node. -/
theorem fsCd_special_used (h : FsTree s) {idx : NodeIdx} (hunused : ¬ s.used idx) (type : NodeType)
    (clear : (ℕ → UInt8) → ℕ → UInt8) (tick : ℕ) {name : CStr} (hname : CdSpecial name) :
    s.used (fsCd (s.create type clear tick name idx) name).2.currentDir := by
  have hcwd : s.currentDir ≠ idx := fun he => hunused (he ▸ h.cwdUsed)
  rcases @fsCd_special (s.create type clear tick name idx) name hname with hzero | hself | hparent
  · rw [hzero]
    exact h.tree.root_alive
  · rw [hself, create_currentDir]
    exact h.cwdUsed
  · rw [FsState.parentOf, create_currentDir, create_ne _ _ _ _ _ _ hcwd] at hparent
    exact h.tree.parent_alive h.cwdUsed hparent

/-- A created directory can be entered and left exactly when its name is neither `..` nor `/`. -/
theorem mkdir_cd_iff (s : FsState) (h : fsSystem.Reachable s) (tick : ℕ) (name : CStr)
    (hok : (fsMkdir s tick (some name)).1 = 0) :
    EnteredAndLeft s tick name ↔ name ≠ .ofString ".." ∧ name ≠ .ofString "/" := by
  have htree := FsTree.reachable h
  obtain ⟨idx, hunused, hlen, hnew, hrun⟩ := fsMkdir_zero hok
  unfold EnteredAndLeft
  rw [hrun]
  simp only
  constructor
  · rintro ⟨i, hold, -, -, hcd, -⟩
    rw [← not_or]
    intro hspecial
    have hused := fsCd_special_used htree hunused .dir id tick hspecial
    rw [hcd] at hused
    exact hold hused
  · rintro ⟨hup, hroot⟩
    have hspecial : ¬ CdSpecial name := fun h => h.elim hup hroot
    have hself := create_self s .dir id tick name idx
    refine ⟨idx, hunused, (used_create ..).mpr (.inl rfl), by rw [hself]; rfl, ?_, ?_⟩
    · rw [fsCd_lookup hspecial, findNode_create hlen hnew]
      simp only
      rw [if_neg (by rw [hself]; exact not_not.mpr rfl)]
    · rw [fsCd_up (show FsState.parentOf _ idx = some s.currentDir by rw [FsState.parentOf, hself]; rfl)]

theorem mkdir_cd_docs : EnteredAndLeft (fsInit 0) 0 (.ofString "docs") :=
  (mkdir_cd_iff (fsInit 0) (.init ⟨0, rfl⟩) 0 (.ofString "docs") (by decide +kernel)).mpr
    ⟨by decide, by decide⟩

/-- `fs_mkdir("..")` succeeds, and `fs_cd("..")` stays in the root. -/
theorem mkdir_up_not_entered :
    ¬ ∀ s, fsSystem.Reachable s → ∀ tick name, (fsMkdir s tick (some name)).1 = 0 →
      EnteredAndLeft s tick name := by
  intro hall
  obtain ⟨i, hnew, -, -, hcd, -⟩ :=
    hall (fsInit 0) (.init ⟨0, rfl⟩) 0 (.ofString "..") (by decide +kernel)
  have hstay : (fsCd (fsMkdir (fsInit 0) 0 (some (.ofString ".."))).2 (.ofString "..")).2.currentDir = 0 := by
    decide +kernel
  rw [hcd] at hstay
  rw [show i = 0 from hstay] at hnew
  exact hnew (by unfold FsState.used; decide +kernel)

/-! ## The path of the working directory -/

def slash : UInt8 := 0x2F

/-- Free of `/` and not `..`. -/
def PlainName (name : CStr) : Prop := slash ∉ name.bytes ∧ name ≠ .ofString ".."

instance (name : CStr) : Decidable (PlainName name) := inferInstanceAs (Decidable (_ ∧ _))

/-- What `fs_getcwd` stores in a buffer of `n` bytes while `d` is the current directory. -/
def cwdPath (s : FsState) (d : NodeIdx) (n : ℕ) : CStr :=
  .ofBuffer (fsGetcwd { s with currentDir := d } true n).2

/-- `fs_cd` on a component of a path. -/
def cdStep (s : FsState) (component : List UInt8) : Option FsState :=
  let r := fsCd s (.ofBuffer component)
  if r.1 = 0 then some r.2 else none

/-- The directory that `fs_cd` on the components of a path leads to, from the root on. -/
def cdPath (s : FsState) (path : CStr) : Option NodeIdx :=
  ((path.bytes.words slash).foldlM cdStep { s with currentDir := 0 }).map FsState.currentDir

/-- The paths of `d` and `e` are different and lead back to them. -/
def PathsIdentify (s : FsState) (n : ℕ) (d e : NodeIdx) : Prop :=
  cwdPath s d n ≠ cwdPath s e n ∧ cdPath s (cwdPath s d n) = some d ∧ cdPath s (cwdPath s e n) = some e

/-- The root or a child of it. -/
def NearRoot (s : FsState) (d : NodeIdx) : Prop := d = 0 ∨ s.parentOf d = some 0

theorem cwdPath_eq (h : FsTree s) {d : NodeIdx} (hu : s.used d) {n : ℕ} (hn : fsMaxName ≤ n) :
    cwdPath s d n = s.nameOf d := by
  have hlen : (cString (s.nodes d).name.bytes).length < fsMaxName := (h.named d hu).2
  unfold cwdPath fsGetcwd
  rw [if_neg (by simp only [Bool.true_eq_false, false_or]; omega)]
  simp only [strlen_eq]
  rw [if_neg (by omega)]
  exact CStr.ext_bytes (cString_take (Nat.le_succ _))

theorem nameOf_root (h : fsSystem.Reachable s) : s.nameOf 0 = .ofString "/" := by
  refine @fsSystem_invariant (fun s => s.nameOf 0 = .ofString "/") (by decide) ?_ ?_ s h
  · intro s s' hc hs
    cases hc with
    | create tick _ _ _ _ hfree =>
      rw [FsState.nameOf, create_ne _ _ _ _ _ _ (findFreeNode_some hfree).1.symm]
      exact hs
    | @store idx data size =>
      by_cases hi : idx = 0
      · rw [FsState.nameOf, hi, FsState.setNode_self]
        exact hs
      · rw [FsState.nameOf, FsState.setNode_ne _ _ (Ne.symm hi)]
        exact hs
    | chdir _ => exact hs
    | descriptor _ _ => exact hs
  · intro s name s' hr hs
    obtain ⟨idx, -, -, -, hs'⟩ := hr.spec
    rw [hs', nameOf_free]
    exact hs

theorem PlainName.not_special {name : CStr} (h : PlainName name) : ¬ CdSpecial name := by
  rintro (hup | hroot)
  · exact h.2 hup
  · refine h.1 ?_
    rw [hroot]
    decide

/-- A plain name is its own and only component, and is looked up in the root. -/
theorem cdPath_plain {name : CStr} (hname : PlainName name) (hne : name.bytes ≠ []) :
    cdPath s name = (findNodeIn s 0 name).filter fun i => (s.nodes i).type = .dir := by
  have hsame : CStr.ofBuffer name.bytes = name := CStr.ext_bytes name.cString_bytes
  unfold cdPath
  rw [List.words_singleton hname.1 hne, List.foldlM_cons]
  unfold cdStep
  rw [hsame, fsCd_lookup hname.not_special]
  show Option.map _ (_ >>= _) = _
  have hfind : findNode { s with currentDir := 0 } name = findNodeIn s 0 name := rfl
  rw [hfind]
  cases findNodeIn s 0 name with
  | none => rfl
  | some i =>
    by_cases ht : (s.nodes i).type = .dir
    · simp [ht, Option.filter_some]
    · simp [ht, Option.filter_some, Errno.ret, Errno.code]

/-- The path of a directory leads back to it exactly when it is the root or a child of it. -/
theorem cdPath_nameOf (h : FsTree s) (hnames : NamesOnly PlainName s)
    (hroot : s.nameOf 0 = .ofString "/") {d : NodeIdx} (hu : s.used d)
    (hd : (s.nodes d).type = .dir) : cdPath s (s.nameOf d) = some d ↔ NearRoot s d := by
  by_cases h0 : d = 0
  · rw [h0, hroot]
    exact iff_of_true rfl (.inl rfl)
  rw [cdPath_plain (hnames d hu h0) (h.named d hu).1, Option.filter_eq_some_iff]
  constructor
  · rintro ⟨hf, -⟩
    exact .inr (findNodeIn_some hf).2.2
  · rintro (he | hp)
    · exact absurd he h0
    · refine ⟨findNodeIn_eq_some hu rfl hp ?_, by simpa using hd⟩
      intro j hj hpj hnj
      exact h.siblings j d hj hu (hpj.trans hp.symm) hnj

theorem nameOf_near_root (h : FsTree s) (hnames : NamesOnly PlainName s)
    (hroot : s.nameOf 0 = .ofString "/") {d e : NodeIdx} (hud : s.used d) (hue : s.used e)
    (hne : d ≠ e) (hd : NearRoot s d) (he : NearRoot s e) : s.nameOf d ≠ s.nameOf e := by
  -- the name of the root contains a `/`, those of its children do not
  have hslash : ∀ i, s.used i → i ≠ 0 → s.nameOf i ≠ .ofString "/" := by
    intro i hu h0 hi
    refine (hnames i hu h0).1 ?_
    rw [hi]
    decide
  intro hsame
  by_cases hd0 : d = 0
  · rw [hd0, hroot] at hsame
    exact hslash e hue (fun he0 => hne (hd0.trans he0.symm)) hsame.symm
  by_cases he0 : e = 0
  · rw [he0, hroot] at hsame
    exact hslash d hud hd0 hsame
  have hpd := hd.resolve_left hd0
  have hpe := he.resolve_left he0
  exact hne (h.siblings d e hud hue (hpd.trans hpe.symm) hsame)

/-- The working-directory paths of two directories identify them exactly when both are the root or
children of the root. -/
theorem cwd_paths_identify_iff (s : FsState) (hr : fsSystem.Reach (CreatesOnly PlainName) s)
    (d e : NodeIdx) (hd : s.used d ∧ (s.nodes d).type = .dir) (he : s.used e ∧ (s.nodes e).type = .dir)
    (hne : d ≠ e) (n : ℕ) (hn : fsMaxName ≤ n) :
    PathsIdentify s n d e ↔ NearRoot s d ∧ NearRoot s e := by
  have hreach : fsSystem.Reachable s := hr.mono fun _ _ _ => trivial
  have h := FsTree.reachable hreach
  have hnames : NamesOnly PlainName s := .reach (by decide) hr
  have hroot := nameOf_root hreach
  unfold PathsIdentify
  rw [cwdPath_eq h hd.1 hn, cwdPath_eq h he.1 hn, cdPath_nameOf h hnames hroot hd.1 hd.2,
    cdPath_nameOf h hnames hroot he.1 he.2]
  exact ⟨fun hid => hid.2, fun hnear =>
    ⟨nameOf_near_root h hnames hroot hd.1 he.1 hne hnear.1 hnear.2, hnear⟩⟩

theorem cwd_paths_identify_start : PathsIdentify (fsInit 0) 32 0 1 :=
  (cwd_paths_identify_iff (fsInit 0) (.init ⟨0, rfl⟩) 0 1
    ⟨by unfold FsState.used; decide +kernel, by decide +kernel⟩
    ⟨by unfold FsState.used; decide +kernel, by decide +kernel⟩ (by decide) 32 (by decide)).mpr
    ⟨.inl rfl, .inr (by unfold FsState.parentOf; decide +kernel)⟩

/-- A directory `home` inside `/home`. -/
def nestedHome : FsState :=
  fsExec (fsExec (fsInit 0) (.cd (.ofString "home"))) (.mkdir 0 (some (.ofString "home")))

theorem cwd_paths_collide :
    ¬ ∀ s, fsSystem.Reach (CreatesOnly PlainName) s → ∀ d e, s.used d ∧ (s.nodes d).type = .dir →
      s.used e ∧ (s.nodes e).type = .dir → d ≠ e → ∀ n, fsMaxName ≤ n → PathsIdentify s n d e := by
  intro hall
  have hreach : fsSystem.Reach (CreatesOnly PlainName) nestedHome := by
    refine .step (.step (.init ⟨0, rfl⟩) ?_ rfl) ?_ rfl
    · intro name hn
      cases hn
    · intro name hn
      rw [← Option.some.inj hn]
      decide
  have hid := (hall nestedHome hreach 1 8 ⟨by unfold FsState.used; decide +kernel, by decide +kernel⟩
    ⟨by unfold FsState.used; decide +kernel, by decide +kernel⟩ (by decide) 32 le_rfl).1
  exact hid (by decide +kernel)

end MyMisu
