import ChaosKernel.Fs.Directories
import ChaosKernel.Fs.Lookup

/-! Paths and creations.

The directories never name an inode twice, and never one that is gone, whatever is
created over and unlinked (`Naming`). So the names before the last one of a path lead
to their directory by that path only, and a creation there changes what the path and
its extensions find and nothing else. `lookup` reports a last name that is missing as
inode `usize::MAX`; `resolve` passes that number on (`resolve_present_iff`). -/
namespace ChaosKernel.Fs
open Base List Option

namespace SimpleFS
variable {fs fs' : SimpleFS}

def resolve (fs : SimpleFS) (path : String) : Except (Stop Errno) Nat := (fs.lookup path).map PathLookup.ino

def IsDir (fs : SimpleFS) (i : Nat) : Prop := ∃ dir, fs.inodes[i]? = some dir ∧ dir.inodeType = .directory

/-! ### What no call undoes -/

structure Naming (fs : SimpleFS) : Prop where
  numbered : fs.Numbered
  forest : fs.names.Forest

variable {i d j : Nat} {inode dir : Inode} {name last path : String} {found : PathLookup} {before rest : List String}

theorem present_of_get (hinode : fs.inodes[i]? = some inode) : fs.names.present i := by
  show (fs.inodes[i]?).isSome
  rw [hinode]
  rfl

theorem Naming.unnamed (h : fs.Naming) (i : Nat) (k : String) : fs.names.entry i k ≠ some 0 :=
  fun hentry => Nat.not_lt_zero i (h.numbered.rising i k 0 hentry)

theorem Naming.rooted (h : fs.Naming) : fs.names.present 0 := by
  obtain ⟨root, hroot, _⟩ := h.numbered.root
  exact present_of_get hroot

theorem new_naming : new.Naming := by
  have hnone (i : Nat) (k : String) (j : Nat) (hentry : new.names.entry i k = some j) : False := by
    have hentry : new.entry i k = some j := hentry
    rw [new_entry] at hentry
    cases hentry
  exact ⟨new_numbered, fun i k j hentry => (hnone i k j hentry).elim,
    fun i k i' k' j hentry _ => (hnone i k j hentry).elim⟩

theorem call_naming (h : fs.Naming) (op : DirOp) : (fs.call op).2.Naming := by
  refine ⟨call_numbered h.numbered op, ?_⟩
  generalize hresult : fs.call op = result
  have houtcome := fs.call_outcome op
  rw [hresult] at houtcome
  cases houtcome with
  | failed e next hnext _ => exact h.forest
  | added inode hdir htype hempty _ =>
    have hfresh : ¬fs.names.present fs.nextIno := by
      show ¬(fs.inodes[fs.nextIno]?).isSome
      rw [h.numbered.fresh]
      exact Bool.false_ne_true
    rw [h.numbered.added_names hdir htype hempty (present_of_get hdir)]
    exact h.forest.create (present_of_get hdir) hfresh
  | removed hdir htype htarget _ =>
    rw [← entry_dir hdir htype] at htarget
    rw [removed_names hdir htype]
    exact h.forest.unlink htarget

theorem naming_run {ops : List DirOp} (hrun : directories.run new ops = some fs) : fs.Naming := by
  refine System.invariant_run (fun before op after h hstep => ?_) new_naming hrun
  cases hstep
  exact call_naming h op

/-! ### The walk of `lookup` -/

theorem lookupLoop_cons (hinode : fs.inodes[i]? = some inode) (htype : inode.inodeType = .directory)
    (name : String) (rest : List String) :
    fs.lookupLoop i (name :: rest) =
      if rest = [] then .ok ⟨(fs.entry i name).getD usizeMax, i, name⟩
      else (fs.entry i name).elim (.error (.err .enoent)) fun j => fs.lookupLoop j rest := by
  rw [entry_dir hinode htype, lookupLoop, hinode]
  dsimp only
  rw [if_neg (not_not_intro htype)]
  split
  · rfl
  · cases inode.children[name]? <;> rfl

theorem lookupLoop_file (hinode : fs.inodes[i]? = some inode) (htype : inode.inodeType ≠ .directory)
    (name : String) (rest : List String) : fs.lookupLoop i (name :: rest) = .error (.err .enotdir) := by
  rw [lookupLoop, hinode]
  exact if_pos htype

theorem isDir_of_entry (hentry : fs.entry i name = some j) : fs.IsDir i := by
  obtain ⟨inode, hinode, hchild⟩ := bind_eq_some_iff.mp hentry
  refine ⟨inode, hinode, ?_⟩
  by_contra htype
  rw [if_neg htype] at hchild
  cases hchild

theorem isDir_of_lookupLoop (hfound : fs.lookupLoop i (name :: rest) = .ok found) : fs.IsDir i := by
  cases hinode : fs.inodes[i]? with
  | none =>
    rw [lookupLoop, hinode] at hfound
    cases hfound
  | some inode =>
    refine ⟨inode, hinode, ?_⟩
    by_contra htype
    rw [lookupLoop_file hinode htype] at hfound
    cases hfound

theorem lookupLoop_eq_ok_iff :
    fs.lookupLoop i (before ++ [last]) = .ok found ↔ ∃ d, fs.names.walk i before = some d ∧ fs.IsDir d ∧
      found = ⟨(fs.entry d last).getD usizeMax, d, last⟩ := by
  induction before generalizing i with
  | nil =>
    show fs.lookupLoop i [last] = .ok found ↔ _
    constructor
    · intro hfound
      obtain ⟨inode, hinode, htype⟩ := isDir_of_lookupLoop hfound
      rw [lookupLoop_cons hinode htype, if_pos rfl] at hfound
      cases hfound
      exact ⟨i, rfl, ⟨inode, hinode, htype⟩, rfl⟩
    · intro hfound
      obtain ⟨d, hd, ⟨inode, hinode, htype⟩, rfl⟩ := hfound
      cases hd
      rw [lookupLoop_cons hinode htype, if_pos rfl]
  | cons name rest ih =>
    have hne : rest ++ [last] ≠ [] := append_ne_nil_of_right_ne_nil _ (cons_ne_nil _ _)
    show fs.lookupLoop i (name :: (rest ++ [last])) = .ok found ↔ _
    constructor
    · intro hfound
      obtain ⟨inode, hinode, htype⟩ := isDir_of_lookupLoop hfound
      rw [lookupLoop_cons hinode htype, if_neg hne] at hfound
      cases hentry : fs.entry i name with
      | none =>
        rw [hentry] at hfound
        cases hfound
      | some j =>
        rw [hentry] at hfound
        obtain ⟨d, hd, hdir, hfound⟩ := ih.mp hfound
        exact ⟨d, bind_eq_some_iff.mpr ⟨j, hentry, hd⟩, hdir, hfound⟩
    · intro hfound
      obtain ⟨d, hd, hdir, rfl⟩ := hfound
      obtain ⟨j, hentry, hd⟩ := bind_eq_some_iff.mp hd
      have hentry : fs.entry i name = some j := hentry
      obtain ⟨inode, hinode, htype⟩ := isDir_of_entry hentry
      rw [lookupLoop_cons hinode htype, if_neg hne, hentry]
      exact ih.mpr ⟨d, hd, hdir, rfl⟩

theorem lookup_eq_loop (hnames : components path = before ++ [last]) :
    fs.lookup path = fs.lookupLoop 0 (before ++ [last]) := by
  have hsome : components path ≠ [] := by
    rw [hnames]
    exact append_ne_nil_of_right_ne_nil _ (cons_ne_nil _ _)
  have hpath : path ≠ "" := fun hempty => by
    rw [hempty] at hsome
    exact hsome rfl
  rw [lookup, if_neg hpath, if_neg hsome, hnames]

/-! ### A creation -/

theorem createFile_added (hcreate : fs.createFile d name = (.ok i, fs')) :
    i = fs.nextIno ∧ ∃ dir inode, fs.inodes[d]? = some dir ∧ dir.inodeType = .directory ∧
      inode.children = ∅ ∧ fs' = fs.added d dir name inode := by
  rw [createFile] at hcreate
  cases hdir : fs.inodes[d]? with
  | none =>
    simp only [hdir] at hcreate
    cases hcreate
  | some dir =>
    simp only [hdir] at hcreate
    split at hcreate
    · cases hcreate
    · next htype =>
      cases hcreate
      exact ⟨rfl, dir, Inode.newFile fs.nextIno, rfl, not_not.mp htype, rfl, rfl⟩

theorem createDir_added (hcreate : fs.createDir d name = (.ok i, fs')) :
    i = fs.nextIno ∧ ∃ dir inode, fs.inodes[d]? = some dir ∧ dir.inodeType = .directory ∧
      inode.children = ∅ ∧ fs' = fs.added d dir name inode := by
  rw [createDir] at hcreate
  cases hdir : fs.inodes[d]? with
  | none =>
    simp only [hdir] at hcreate
    cases hcreate
  | some dir =>
    simp only [hdir] at hcreate
    split at hcreate
    · cases hcreate
    · next htype =>
      split at hcreate
      · cases hcreate
      · cases hcreate
        exact ⟨rfl, dir, Inode.newDir fs.nextIno, rfl, not_not.mp htype, rfl, rfl⟩

section Creation
variable {d : Nat} {dir inode node : Inode} {last : String}

theorem Numbered.added_type (h : fs.Numbered) (hdir : fs.inodes[d]? = some dir)
    (hnode : fs.inodes[i]? = some node) (last : String) (inode : Inode) :
    ∃ node', (fs.added d dir last inode).inodes[i]? = some node' ∧ node'.inodeType = node.inodeType := by
  rw [added_inodes, if_neg (Nat.ne_of_gt (h.known i node hnode))]
  split
  · next heq =>
    rw [← heq, hdir] at hnode
    cases hnode
    exact ⟨_, rfl, rfl⟩
  · exact ⟨node, hnode, rfl⟩

variable {before names walked : List String}

theorem Naming.lookupLoop_added (h : fs.Naming) (hdir : fs.inodes[d]? = some dir)
    (htype : dir.inodeType = .directory) (hempty : inode.children = ∅)
    (hbefore : fs.names.walk 0 before = some d) (hwalked : fs.names.walk 0 walked = some i)
    (hpast : ¬before ++ [last] <+: walked ++ names) :
    (fs.added d dir last inode).lookupLoop i names = fs.lookupLoop i names := by
  induction names generalizing walked i with
  | nil => rfl
  | cons name rest ih =>
    obtain ⟨node, hnode⟩ := isSome_iff_exists.mp (h.forest.walk_present h.rooted hwalked)
    obtain ⟨node', hnode', hsame⟩ := h.numbered.added_type hdir hnode last inode
    by_cases hkind : node.inodeType = .directory
    · have hentry : (fs.added d dir last inode).entry i name = fs.entry i name :=
        (h.numbered.added_entry hdir htype hempty i name).trans
          (h.forest.entry_create h.unnamed (present_of_get hdir) hbefore hwalked hpast)
      rw [lookupLoop_cons hnode hkind, lookupLoop_cons hnode' (hsame.trans hkind), hentry]
      refine ite_congr rfl (fun _ => rfl) fun _ => ?_
      cases hj : fs.entry i name with
      | none => rfl
      | some j =>
        refine ih ?_ (append_cons walked name rest ▸ hpast)
        rw [Names.walk_concat, hwalked]
        exact hj
    · rw [lookupLoop_file hnode hkind, lookupLoop_file hnode' (hsame ▸ hkind)]

theorem Naming.lookupLoop_new (h : fs.Naming) (hdir : fs.inodes[d]? = some dir)
    (htype : dir.inodeType = .directory) (hempty : inode.children = ∅)
    (hbefore : fs.names.walk 0 before = some d) :
    (fs.added d dir last inode).lookupLoop 0 (before ++ [last]) = .ok ⟨fs.nextIno, d, last⟩ := by
  have hshort : ¬before ++ [last] <+: [] ++ before := fun hprefix => by
    have hle := hprefix.length_le
    simp only [length_append, length_singleton, length_nil] at hle
    omega
  have hwalk : (fs.added d dir last inode).names.walk 0 before = some d := by
    rw [h.numbered.added_names hdir htype hempty (present_of_get hdir),
      h.forest.walk_create h.unnamed (present_of_get hdir) hbefore rfl hshort, hbefore]
  obtain ⟨node', hnode', hsame⟩ := h.numbered.added_type hdir hdir last inode
  refine lookupLoop_eq_ok_iff.mpr ⟨d, hwalk, ⟨node', hnode', hsame.trans htype⟩, ?_⟩
  rw [h.numbered.added_entry hdir htype hempty, if_pos ⟨rfl, rfl⟩, getD_some]

end Creation

/-! ### The last name -/

/-- The names before the last lead to a directory that does not have the last. -/
def LacksLast (fs : SimpleFS) (path : String) : Prop := ∃ before last d, components path = before ++ [last] ∧
  fs.names.walk 0 before = some d ∧ fs.IsDir d ∧ fs.entry d last = none

/-- What `resolve` returns is an inode. -/
def ResolvesPresent (fs : SimpleFS) (path : String) : Prop :=
  ∀ i, fs.resolve path = .ok i → (fs.inodes[i]?).isSome

/-- The path finds the new inode, and what is not on it finds what it found. -/
structure FindsNew (fs : SimpleFS) (path : String) (i : Nat) (fs' : SimpleFS) : Prop where
  found : ∃ found, fs'.lookup path = .ok found ∧ found.ino = i
  others : ∀ other, ¬components path <+: components other → fs'.lookup other = fs.lookup other

/-- Creating what `lookup` misses, where it misses it. -/
structure CreationAgrees (fs : SimpleFS) (path : String) : Prop where
  file : ∀ d name i fs', fs.lookup path = .ok ⟨usizeMax, d, name⟩ → fs.createFile d name = (.ok i, fs') →
    fs.FindsNew path i fs'
  dir : ∀ d name i fs', fs.lookup path = .ok ⟨usizeMax, d, name⟩ → fs.createDir d name = (.ok i, fs') →
    fs.FindsNew path i fs'

theorem lookup_eq_ok (hfound : fs.lookup path = .ok found) :
    found = ⟨0, 0, ""⟩ ∨ ∃ before last d, components path = before ++ [last] ∧
      fs.names.walk 0 before = some d ∧ fs.IsDir d ∧ found = ⟨(fs.entry d last).getD usizeMax, d, last⟩ := by
  by_cases hsome : components path = []
  · rw [lookup, if_pos hsome] at hfound
    split at hfound
    · cases hfound
    · cases hfound
      exact .inl rfl
  · obtain ⟨before, last, hnames⟩ := (eq_nil_or_concat' (components path)).resolve_left hsome
    rw [lookup_eq_loop hnames] at hfound
    obtain ⟨d, hd⟩ := lookupLoop_eq_ok_iff.mp hfound
    exact .inr ⟨before, last, d, hnames, hd⟩

theorem LacksLast.resolve (hlacks : fs.LacksLast path) : fs.resolve path = .ok usizeMax := by
  obtain ⟨before, last, d, hnames, hbefore, hdir, hentry⟩ := hlacks
  have hloop : fs.lookupLoop 0 (before ++ [last]) = .ok ⟨usizeMax, d, last⟩ := by
    refine lookupLoop_eq_ok_iff.mpr ⟨d, hbefore, hdir, ?_⟩
    rw [hentry, getD_none]
  rw [SimpleFS.resolve, lookup_eq_loop hnames, hloop]
  rfl

theorem Naming.findsNew (h : fs.Naming) (hmissing : fs.lookup path = .ok ⟨usizeMax, d, name⟩)
    (hdir : fs.inodes[d]? = some dir) (htype : dir.inodeType = .directory) (hempty : inode.children = ∅) :
    fs.FindsNew path fs.nextIno (fs.added d dir name inode) := by
  rcases lookup_eq_ok hmissing with hroot | ⟨before, last, d', hnames, hbefore, _, hfound⟩
  · cases hroot
  · injection hfound with _ hd hname
    subst hd hname
    refine ⟨⟨⟨fs.nextIno, d, name⟩, ?_, rfl⟩, fun other hother => ?_⟩
    · rw [lookup_eq_loop hnames]
      exact h.lookupLoop_new hdir htype hempty hbefore
    · rw [hnames] at hother
      have hstart : fs.names.walk 0 [] = some 0 := rfl
      have hloop : (fs.added d dir name inode).lookupLoop 0 (components other) = fs.lookupLoop 0 (components other) :=
        h.lookupLoop_added hdir htype hempty hbefore hstart hother
      rw [lookup, lookup, hloop]

end SimpleFS

/-- **Lookup and creation agree**: creating the name that `lookup` misses, in the directory that lacks it, makes
the path find the new inode and changes no path that is not it or below it. `resolve` returns an inode
exactly when the last name of the path is not missing in its directory. -/
theorem resolve_present_iff {ops : List DirOp} {fs : SimpleFS} (hrun : directories.run SimpleFS.new ops = some fs)
    (hword : fs.nextIno < wordSize) (path : String) :
    (fs.ResolvesPresent path ↔ ¬fs.LacksLast path) ∧ fs.CreationAgrees path := by
  have h := SimpleFS.naming_run hrun
  refine ⟨⟨fun hpresent hlacks => ?_, fun hlast i hresolve => ?_⟩, fun d name i fs' hmissing hcreate => ?_,
    fun d name i fs' hmissing hcreate => ?_⟩
  · obtain ⟨inode, hinode⟩ := isSome_iff_exists.mp (hpresent usizeMax hlacks.resolve)
    have hlt := h.numbered.known usizeMax inode hinode
    unfold usizeMax at hlt
    omega
  · cases hfound : fs.lookup path with
    | error e =>
      rw [SimpleFS.resolve, hfound] at hresolve
      cases hresolve
    | ok found =>
      rw [SimpleFS.resolve, hfound] at hresolve
      cases hresolve
      rcases SimpleFS.lookup_eq_ok hfound with rfl | ⟨before, last, d, hnames, hbefore, hdir, rfl⟩
      · exact h.rooted
      · cases hentry : fs.entry d last with
        | none => exact absurd ⟨before, last, d, hnames, hbefore, hdir, hentry⟩ hlast
        | some j => exact h.forest.named d last j hentry
  · obtain ⟨rfl, dir, inode, hdir, htype, hempty, rfl⟩ := SimpleFS.createFile_added hcreate
    exact h.findsNew hmissing hdir htype hempty
  · obtain ⟨rfl, dir, inode, hdir, htype, hempty, rfl⟩ := SimpleFS.createDir_added hcreate
    exact h.findsNew hmissing hdir htype hempty

/-- A new directory under the root, and a path below it. -/
theorem resolve_present_below : ∃ fs, directories.run SimpleFS.new [.createDir 0 "a"] = some fs ∧
    fs.nextIno < wordSize ∧ (fs.ResolvesPresent "/a/b" ↔ ¬fs.LacksLast "/a/b") ∧ fs.CreationAgrees "/a/b" := by
  have hrun : ((directories.run SimpleFS.new [.createDir 0 "a"]).any fun fs => decide (fs.nextIno < wordSize)) =
      true := by decide +kernel
  obtain ⟨fs, hrun, hword⟩ := System.exists_of_run_any hrun
  exact ⟨fs, hrun, hword, resolve_present_iff hrun hword "/a/b"⟩

/-- In a new file system `/a` is inode `usize::MAX`. -/
theorem resolve_absent : SimpleFS.new.resolve "/a" = .ok usizeMax ∧ ¬SimpleFS.new.ResolvesPresent "/a" := by
  have hresolve : SimpleFS.new.resolve "/a" = .ok usizeMax := by decide +kernel
  refine ⟨hresolve, fun hpresent => ?_⟩
  have hsome := hpresent usizeMax hresolve
  rw [SimpleFS.new_inodes, if_neg (by decide)] at hsome
  cases hsome

end ChaosKernel.Fs
