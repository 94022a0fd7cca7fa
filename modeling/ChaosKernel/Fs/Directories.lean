import ChaosKernel.Base.Names
import ChaosKernel.Fs.SimpleFS

/-! The tree of directories.

The directories name inodes, and the two kinds of creation and the removal are the
creation and the removal of `Names`. `create_file` gives a name again without asking
for what it named, and `unlink` removes a directory without asking for what it names;
nothing else can lose an inode (`tree_kept_iff`). -/
namespace ChaosKernel.Fs
open Base Option

theorem children_insert (children : Std.ExtTreeMap String Nat) (k a : String) (ino : Nat) :
    (children.insert k ino)[a]? = if k = a then some ino else children[a]? := by
  rw [Std.ExtTreeMap.getElem?_insert]
  simp only [Std.LawfulEqCmp.compare_eq_iff_eq]

theorem children_erase (children : Std.ExtTreeMap String Nat) (k a : String) :
    (children.erase k)[a]? = if k = a then none else children[a]? := by
  rw [Std.ExtTreeMap.getElem?_erase]
  simp only [Std.LawfulEqCmp.compare_eq_iff_eq]

namespace SimpleFS
variable {fs : SimpleFS}

/-- What the inode names, if it is a directory. -/
def entry (fs : SimpleFS) (i : Nat) (name : String) : Option Nat :=
  fs.inodes[i]?.bind fun inode => if inode.inodeType = .directory then inode.children[name]? else none

def names (fs : SimpleFS) : Names Nat String where
  present i := (fs.inodes[i]?).isSome
  entry := fs.entry
  present_of_entry := by
    intro i k j hentry
    obtain ⟨inode, hinode, _⟩ := bind_eq_some_iff.mp hentry
    rw [hinode]
    rfl

/-- The inodes form a tree under the root directory. -/
structure IsTree (fs : SimpleFS) : Prop where
  root : ∃ inode, fs.inodes[0]? = some inode ∧ inode.inodeType = .directory
  tree : fs.names.Tree 0

/-- What holds whatever is lost. -/
structure Numbered (fs : SimpleFS) : Prop where
  root : ∃ inode, fs.inodes[0]? = some inode ∧ inode.inodeType = .directory
  known : ∀ i inode, fs.inodes[i]? = some inode → i < fs.nextIno
  rising : ∀ i k j, fs.entry i k = some j → i < j

theorem entry_dir {i : Nat} {dir : Inode} (hdir : fs.inodes[i]? = some dir) (htype : dir.inodeType = .directory)
    (name : String) : fs.entry i name = dir.children[name]? := by
  simp only [entry, hdir, bind_some, htype, if_true]

/-! ### Creation -/

/-- The table with a new inode under a name of `dir`. -/
def added (fs : SimpleFS) (dirIno : Nat) (dir : Inode) (name : String) (inode : Inode) : SimpleFS :=
  ({fs with nextIno := fs.nextIno + 1}.setInode dirIno
    {dir with children := dir.children.insert name fs.nextIno}).setInode fs.nextIno inode

theorem Numbered.fresh (h : fs.Numbered) : fs.inodes[fs.nextIno]? = none := by
  cases hinode : fs.inodes[fs.nextIno]? with
  | none => rfl
  | some inode => exact absurd (h.known _ _ hinode) (Nat.lt_irrefl _)

section Added
variable {dirIno : Nat} {dir inode : Inode} {name : String}

theorem added_inodes (i : Nat) : (fs.added dirIno dir name inode).inodes[i]? =
    if fs.nextIno = i then some inode
    else if dirIno = i then some {dir with children := dir.children.insert name fs.nextIno}
    else fs.inodes[i]? := by
  simp only [added, setInode, get_insert]

theorem Numbered.added_entry (h : fs.Numbered) (hdir : fs.inodes[dirIno]? = some dir)
    (htype : dir.inodeType = .directory) (hempty : inode.children = ∅) (i : Nat) (k : String) :
    (fs.added dirIno dir name inode).entry i k =
      if i = dirIno ∧ k = name then some fs.nextIno else fs.entry i k := by
  have hlt := h.known dirIno dir hdir
  simp only [entry, added_inodes]
  by_cases hi : fs.nextIno = i
  · have hne : ¬(i = dirIno ∧ k = name) := fun hplace => by omega
    have hnone : (∅ : Std.ExtTreeMap String Nat)[k]? = none := Std.ExtTreeMap.getElem?_empty
    rw [if_pos hi, if_neg hne, ← hi, h.fresh, bind_some, hempty, hnone, ite_self]
    rfl
  · rw [if_neg hi]
    by_cases hid : dirIno = i
    · subst hid
      simp only [if_true, hdir, bind_some, htype, children_insert, true_and, eq_comm]
    · rw [if_neg hid, if_neg fun hplace => hid hplace.1.symm]

theorem Numbered.added_names (h : fs.Numbered) (hdir : fs.inodes[dirIno]? = some dir)
    (htype : dir.inodeType = .directory) (hempty : inode.children = ∅) (hpresent : fs.names.present dirIno) :
    (fs.added dirIno dir name inode).names = fs.names.create dirIno name fs.nextIno hpresent := by
  refine Names.ext (funext fun i => propext ?_) (funext fun i => funext fun k => h.added_entry hdir htype hempty i k)
  show ((fs.added dirIno dir name inode).inodes[i]?).isSome = true ↔ (fs.inodes[i]?).isSome = true ∨ i = fs.nextIno
  rw [added_inodes]
  by_cases hi : fs.nextIno = i
  · rw [if_pos hi]
    exact iff_of_true rfl (.inr hi.symm)
  · rw [if_neg hi, or_iff_left (Ne.symm hi)]
    by_cases hid : dirIno = i
    · rw [if_pos hid, ← hid, hdir]
      exact Iff.rfl
    · rw [if_neg hid]

theorem Numbered.added (h : fs.Numbered) (hdir : fs.inodes[dirIno]? = some dir)
    (htype : dir.inodeType = .directory) (hempty : inode.children = ∅) :
    (fs.added dirIno dir name inode).Numbered := by
  have hlt := h.known dirIno dir hdir
  refine ⟨?_, fun i found hfound => ?_, fun i k j hentry => ?_⟩
  · obtain ⟨root, hroot, hrootType⟩ := h.root
    have hne : fs.nextIno ≠ 0 := Nat.ne_zero_of_lt hlt
    rw [added_inodes, if_neg hne]
    split
    · exact ⟨_, rfl, htype⟩
    · exact ⟨root, hroot, hrootType⟩
  · show i < fs.nextIno + 1
    rw [added_inodes] at hfound
    split at hfound
    · omega
    · split at hfound
      · omega
      · have := h.known i found hfound
        omega
  · rw [h.added_entry hdir htype hempty] at hentry
    split at hentry
    · cases hentry
      omega
    · exact h.rising i k j hentry

end Added

/-! ### Removal -/

/-- The table without a name of `dir` and what it named. -/
def removed (fs : SimpleFS) (dirIno : Nat) (dir : Inode) (name : String) (targetIno : Nat) : SimpleFS :=
  {fs with inodes := (fs.inodes.insert dirIno {dir with children := dir.children.erase name}).erase targetIno}

section Removed
variable {dirIno targetIno : Nat} {dir : Inode} {name : String}

theorem removed_inodes (i : Nat) : (fs.removed dirIno dir name targetIno).inodes[i]? =
    if targetIno = i then none
    else if dirIno = i then some {dir with children := dir.children.erase name}
    else fs.inodes[i]? := by
  simp only [removed, get_erase, get_insert]

theorem removed_entry (hdir : fs.inodes[dirIno]? = some dir) (htype : dir.inodeType = .directory)
    (i : Nat) (k : String) : (fs.removed dirIno dir name targetIno).entry i k =
      if i = targetIno ∨ (i = dirIno ∧ k = name) then none else fs.entry i k := by
  simp only [entry, removed_inodes]
  by_cases hi : targetIno = i
  · rw [if_pos hi, if_pos (.inl hi.symm)]
    rfl
  · rw [if_neg hi]
    by_cases hid : dirIno = i
    · subst hid
      simp only [if_true, hdir, bind_some, htype, children_erase, true_and, Ne.symm hi, false_or, eq_comm]
    · rw [if_neg hid, if_neg fun hplace => hplace.elim (Ne.symm hi) fun hplace => hid hplace.1.symm]

theorem removed_names (hdir : fs.inodes[dirIno]? = some dir) (htype : dir.inodeType = .directory) :
    (fs.removed dirIno dir name targetIno).names = fs.names.unlink dirIno name targetIno := by
  refine Names.ext (funext fun i => propext ?_) (funext fun i => funext fun k => removed_entry hdir htype i k)
  show ((fs.removed dirIno dir name targetIno).inodes[i]?).isSome = true ↔
    (fs.inodes[i]?).isSome = true ∧ i ≠ targetIno
  rw [removed_inodes]
  by_cases hi : targetIno = i
  · rw [if_pos hi]
    exact iff_of_false Bool.false_ne_true fun h => h.2 hi.symm
  · rw [if_neg hi, and_iff_left (Ne.symm hi)]
    by_cases hid : dirIno = i
    · rw [if_pos hid, ← hid, hdir]
      exact Iff.rfl
    · rw [if_neg hid]

theorem Numbered.removed (h : fs.Numbered) (hdir : fs.inodes[dirIno]? = some dir)
    (htype : dir.inodeType = .directory) (htarget : dir.children[name]? = some targetIno) :
    (fs.removed dirIno dir name targetIno).Numbered := by
  rw [← entry_dir hdir htype] at htarget
  have hlt := h.rising dirIno name targetIno htarget
  refine ⟨?_, fun i found hfound => ?_, fun i k j hentry => ?_⟩
  · obtain ⟨root, hroot, hrootType⟩ := h.root
    rw [removed_inodes, if_neg (Nat.ne_zero_of_lt hlt)]
    split
    · exact ⟨_, rfl, htype⟩
    · exact ⟨root, hroot, hrootType⟩
  · rw [removed_inodes] at hfound
    split at hfound
    · cases hfound
    · split at hfound
      · next heq =>
        rw [← heq]
        exact h.known dirIno dir hdir
      · exact h.known i found hfound
  · rw [removed_entry hdir htype] at hentry
    split at hentry
    · cases hentry
    · exact h.rising i k j hentry

end Removed
end SimpleFS

/-! ### Runs -/

inductive DirOp where
  | createFile (dirIno : Nat) (name : String)
  | createDir (dirIno : Nat) (name : String)
  | unlink (dirIno : Nat) (name : String)

namespace SimpleFS
variable {fs fs' : SimpleFS}

/-- A call, with the number it may return left out. -/
def call (fs : SimpleFS) : DirOp → Except (Stop Errno) Unit × SimpleFS
  | .createFile dirIno name => ((fs.createFile dirIno name).1.map fun _ => (), (fs.createFile dirIno name).2)
  | .createDir dirIno name => ((fs.createDir dirIno name).1.map fun _ => (), (fs.createDir dirIno name).2)
  | .unlink dirIno name => fs.unlink dirIno name

/-- A file gets a name that is free, and what is unlinked names nothing. -/
def KeepsTree (fs : SimpleFS) : DirOp → Prop
  | .createFile dirIno name => fs.entry dirIno name = none
  | .createDir _ _ => True
  | .unlink dirIno name => ∀ targetIno, fs.entry dirIno name = some targetIno → ∀ k, fs.entry targetIno k = none

theorem entry_missing {i : Nat} (hnone : fs.inodes[i]? = none) (name : String) : fs.entry i name = none := by
  rw [entry, hnone]
  rfl

theorem entry_file {i : Nat} {inode : Inode} (hinode : fs.inodes[i]? = some inode)
    (htype : inode.inodeType ≠ .directory) (name : String) : fs.entry i name = none := by
  rw [entry, hinode, bind_some, if_neg htype]

/-- What a call does: it fails and leaves the inodes, or it adds an inode under a name of a directory,
or it takes a name away with what it named. -/
inductive Outcome (fs : SimpleFS) (op : DirOp) : Except (Stop Errno) Unit × SimpleFS → Prop
  | failed (e : Stop Errno) (next : Nat) (hnext : fs.nextIno ≤ next) (hkeeps : fs.KeepsTree op) :
    Outcome fs op (.error e, {fs with nextIno := next})
  | added {dirIno : Nat} {dir : Inode} {name : String} (inode : Inode) (hdir : fs.inodes[dirIno]? = some dir)
    (htype : dir.inodeType = .directory) (hempty : inode.children = ∅)
    (hkeeps : fs.KeepsTree op ↔ fs.entry dirIno name = none) :
    Outcome fs op (.ok (), fs.added dirIno dir name inode)
  | removed {dirIno targetIno : Nat} {dir : Inode} {name : String} (hdir : fs.inodes[dirIno]? = some dir)
    (htype : dir.inodeType = .directory) (htarget : dir.children[name]? = some targetIno)
    (hkeeps : fs.KeepsTree op ↔ ∀ k, fs.entry targetIno k = none) :
    Outcome fs op (.ok (), fs.removed dirIno dir name targetIno)

theorem call_outcome (fs : SimpleFS) (op : DirOp) : fs.Outcome op (fs.call op) := by
  cases op with
  | createFile dirIno name =>
    simp only [call, createFile]
    cases hdir : fs.inodes[dirIno]? with
    | none => exact .failed _ _ (Nat.le_succ _) (entry_missing hdir name)
    | some dir =>
      dsimp only
      by_cases htype : dir.inodeType = .directory
      · rw [if_neg (not_not_intro htype)]
        exact .added (Inode.newFile fs.nextIno) hdir htype rfl Iff.rfl
      · rw [if_pos htype]
        exact .failed _ _ (Nat.le_succ _) (entry_file hdir htype name)
  | createDir dirIno name =>
    simp only [call, createDir]
    cases hdir : fs.inodes[dirIno]? with
    | none => exact .failed _ _ (Nat.le_succ _) trivial
    | some dir =>
      dsimp only
      by_cases htype : dir.inodeType = .directory
      · rw [if_neg (not_not_intro htype)]
        split
        · exact .failed _ _ (Nat.le_succ _) trivial
        · next hfree =>
          refine .added (Inode.newDir fs.nextIno) hdir htype rfl (iff_of_true trivial ?_)
          rw [entry_dir hdir htype]
          exact Std.ExtTreeMap.getElem?_eq_none hfree
      · rw [if_pos htype]
        exact .failed _ _ (Nat.le_succ _) trivial
  | unlink dirIno name =>
    simp only [call, unlink]
    cases hdir : fs.inodes[dirIno]? with
    | none =>
      refine .failed _ _ (Nat.le_refl _) fun targetIno htarget => ?_
      rw [entry_missing hdir] at htarget
      cases htarget
    | some dir =>
      dsimp only
      by_cases htype : dir.inodeType = .directory
      · rw [if_neg (not_not_intro htype)]
        cases htarget : dir.children[name]? with
        | none =>
          refine .failed _ _ (Nat.le_refl _) fun targetIno hentry => ?_
          rw [entry_dir hdir htype, htarget] at hentry
          cases hentry
        | some targetIno =>
          refine .removed hdir htype htarget ?_
          rw [← entry_dir hdir htype] at htarget
          constructor
          · exact fun hkeeps => hkeeps targetIno htarget
          · intro hempty found hfound
            rw [htarget] at hfound
            cases hfound
            exact hempty
      · rw [if_pos htype]
        refine .failed _ _ (Nat.le_refl _) fun targetIno htarget => ?_
        rw [entry_file hdir htype] at htarget
        cases htarget

theorem call_numbered (h : fs.Numbered) (op : DirOp) : (fs.call op).2.Numbered := by
  generalize hresult : fs.call op = result
  have houtcome := fs.call_outcome op
  rw [hresult] at houtcome
  cases houtcome with
  | failed e next hnext _ =>
    exact ⟨h.root, fun i inode hinode => Nat.lt_of_lt_of_le (h.known i inode hinode) hnext, h.rising⟩
  | added inode hdir htype hempty _ => exact h.added hdir htype hempty
  | removed hdir htype htarget _ => exact h.removed hdir htype htarget

theorem Numbered.isTree_iff (h : fs.Numbered) : fs.IsTree ↔ fs.names.Tree 0 :=
  ⟨fun htree => htree.tree, fun htree => ⟨h.root, htree⟩⟩

theorem call_isTree_iff (h : fs.Numbered) (htree : fs.names.Tree 0) (op : DirOp) :
    (fs.call op).2.names.Tree 0 ↔ fs.KeepsTree op := by
  generalize hresult : fs.call op = result
  have houtcome := fs.call_outcome op
  rw [hresult] at houtcome
  cases houtcome with
  | failed e next _ hkeeps => exact iff_of_true htree hkeeps
  | @added dirIno dir name inode hdir htype hempty hkeeps =>
    have hpresent : fs.names.present dirIno := by
      show (fs.inodes[dirIno]?).isSome
      rw [hdir]
      rfl
    have hfresh : ¬fs.names.present fs.nextIno := by
      show ¬(fs.inodes[fs.nextIno]?).isSome
      rw [h.fresh]
      exact Bool.false_ne_true
    rw [h.added_names hdir htype hempty hpresent, hkeeps]
    constructor
    · intro hafter
      cases hentry : fs.entry dirIno name with
      | none => rfl
      | some old =>
        have hold := h.rising dirIno name old hentry
        exact absurd hafter (htree.not_create hpresent hentry (Nat.ne_zero_of_lt hold) hfresh)
    · exact fun hfree => htree.create hpresent hfree hfresh
  | @removed dirIno targetIno dir name hdir htype htarget hkeeps =>
    rw [← entry_dir hdir htype] at htarget
    have hlt := h.rising dirIno name targetIno htarget
    rw [removed_names hdir htype, hkeeps]
    constructor
    · intro hafter k
      cases hentry : fs.entry targetIno k with
      | none => rfl
      | some c =>
        have hc := h.rising targetIno k c hentry
        exact absurd hafter (htree.not_unlink hentry (Nat.ne_zero_of_lt hc) (Nat.ne_of_gt hc))
    · exact fun hempty => htree.unlink htarget (Nat.ne_zero_of_lt hlt) hempty

theorem new_inodes (i : Nat) : new.inodes[i]? = if 0 = i then some (Inode.newDir 0) else none := by
  have hempty : (∅ : BTreeMap Inode)[i]? = none := Std.ExtTreeMap.getElem?_empty
  rw [← hempty]
  exact get_insert ..

theorem new_entry (i : Nat) (k : String) : new.entry i k = none := by
  have hempty : (∅ : Std.ExtTreeMap String Nat)[k]? = none := Std.ExtTreeMap.getElem?_empty
  rw [entry, new_inodes]
  split
  · exact hempty
  · rfl

theorem new_numbered : new.Numbered := by
  refine ⟨⟨Inode.newDir 0, new_inodes 0, rfl⟩, fun i inode hinode => ?_, fun i k j hentry => ?_⟩
  · rw [new_inodes] at hinode
    split at hinode
    · next hi =>
      rw [← hi]
      exact Nat.one_pos
    · cases hinode
  · rw [new_entry] at hentry
    cases hentry

theorem new_tree : new.names.Tree 0 := by
  have honly (j : Nat) (hj : new.names.present j) : j = 0 := by
    have hj : (new.inodes[j]?).isSome := hj
    rw [new_inodes] at hj
    split at hj
    · next heq => exact heq.symm
    · cases hj
  refine ⟨?_, fun i k j hentry => ?_, fun j hj hroot => absurd (honly j hj) hroot, fun j hj => ?_⟩
  · show (new.inodes[0]?).isSome
    rw [new_inodes]
    rfl
  · have hentry : new.entry i k = some j := hentry
    rw [new_entry] at hentry
    cases hentry
  · rw [honly j hj]

end SimpleFS

def directories : System SimpleFS DirOp := ⟨fun fs op => some (fs.call op).2⟩

/-- **The inodes stay a tree** in all states of a run exactly when every file it creates gets a free
name and everything it unlinks names nothing; and a call that fails leaves all inodes as they are. -/
theorem tree_kept_iff (ops : List DirOp) :
    (directories.Always SimpleFS.IsTree SimpleFS.new ops ↔
        directories.Guarded SimpleFS.KeepsTree SimpleFS.new ops) ∧
      ∀ (fs : SimpleFS) (op : DirOp) (e : Stop Errno), (fs.call op).1 = .error e →
        (fs.call op).2.inodes = fs.inodes := by
  have hnumbered : ∀ fs op fs', fs.Numbered → directories.step fs op = some fs' → fs'.Numbered :=
    fun fs op fs' h hstep => by
      cases hstep
      exact SimpleFS.call_numbered h op
  refine ⟨?_, fun fs op e herror => ?_⟩
  · refine System.always_iff_guarded hnumbered (fun fs op fs' h htree hstep => ?_) SimpleFS.new_numbered
      ⟨SimpleFS.new_numbered.root, SimpleFS.new_tree⟩
    rw [(hnumbered fs op fs' h hstep).isTree_iff]
    cases hstep
    exact SimpleFS.call_isTree_iff h htree.tree op
  · have houtcome := fs.call_outcome op
    generalize fs.call op = result at herror houtcome
    cases houtcome with
    | failed e' next _ _ => rfl
    | added inode hdir htype hempty hkeeps => cases herror
    | removed hdir htype htarget hkeeps => cases herror

/-- A second file of the same name: nothing names the first one. -/
theorem createFile_orphans : ¬directories.Always SimpleFS.IsTree SimpleFS.new
    [.createFile 0 "a", .createFile 0 "a"] := by
  intro hall
  have hrun : ((directories.run SimpleFS.new [.createFile 0 "a", .createFile 0 "a"]).any fun fs =>
      (fs.inodes[1]?).isSome ∧ ∀ i ∈ fs.inodes.toList, 1 ∉ i.2.children.toList.map Prod.snd) = true := by
    decide +kernel
  obtain ⟨fs, hrun, hpresent, hnameless⟩ := System.exists_of_run_any hrun
  obtain ⟨⟨i, k⟩, hentry, _⟩ := (hall _ fs List.prefix_rfl hrun).tree.unique 1 hpresent Nat.one_ne_zero
  obtain ⟨inode, hinode, hentry⟩ := bind_eq_some_iff.mp hentry
  refine hnameless (i, inode) (Std.ExtTreeMap.mem_toList_iff_getElem?_eq_some.mpr hinode) ?_
  split at hentry
  · exact List.mem_map.mpr ⟨(k, 1), Std.ExtTreeMap.mem_toList_iff_getElem?_eq_some.mpr hentry, rfl⟩
  · cases hentry

end ChaosKernel.Fs
