import ChaosKernel.Proc.FileHandle

/-! A handle and its copies over a run.

The handles of a run all stem from one by `dup`, so that they share its open file. Beside
the open file of the source the run has the one of `OpenFile`, and it notes what both
answer. The two stay the same, answer for answer, exactly as long as every call is careful
(`handle_bytes_iff`). -/
namespace ChaosKernel.Proc
open Base Memory List Option

structure HandleRun where
  files : Files
  handles : List FHandle
  spec : OpenFile
  /-- What the calls answered, and what they should have answered. -/
  answers : List (FileAnswer × FileAnswer)

inductive HandleOp where
  | dup (i : Nat) (cloexec : Bool)
  | call (i : Nat) (op : FileOp)

instance (s : OpenFile) : (op : FileOp) → Decidable (s.Small op)
  | .seek pos => inferInstanceAs (Decidable (s.target pos < wordSize))
  | .read _ | .readAt _ _ | .write _ | .writeAt _ _ | .setLen _ | .fallocate _ _ => isTrue trivial

namespace HandleRun

/-- A call that panics, or that asks for a position that is no word, is not part of a run. -/
def step (opt : FdOpt) (r : HandleRun) : HandleOp → Option HandleRun
  | .dup i cloexec => r.handles[i]?.map fun fh => {r with handles := r.handles ++ [{fh with cloexec := cloexec}]}
  | .call i op => r.handles[i]?.bind fun fh =>
    if r.spec.Small op then
      (r.files.perform fh op).map fun (ans, files) =>
        {r with
          files := files
          spec := (r.spec.perform opt op).2
          answers := r.answers ++ [(ans, (r.spec.perform opt op).1)]}
    else none

def system (opt : FdOpt) : System HandleRun HandleOp := ⟨step opt⟩

/-- The open file `d` of the handle `fh`, and nothing answered yet. -/
def init (files : Files) (fh : FHandle) (d : FdState) : HandleRun := ⟨files, [fh], .of d, []⟩

/-- All handles are at one place, and an open file with the options `opt` is there. -/
structure Shares (place : Nat) (opt : FdOpt) (r : HandleRun) : Prop where
  same : ∀ fh ∈ r.handles, fh.desc = place
  file : ∃ d, r.files.descs[place]? = some d ∧ d.opt = opt ∧ d.Sized

/-- The answers so far are right, and so are the contents and the offset. -/
structure Matches (place : Nat) (r : HandleRun) : Prop where
  answers : ∀ p ∈ r.answers, p.1 = p.2
  state : ∃ d, r.files.descs[place]? = some d ∧ OpenFile.of d = r.spec

/-- The call is careful in the state of the open file. -/
def Careful (place : Nat) (r : HandleRun) : HandleOp → Prop
  | .dup _ _ => True
  | .call _ op => ∀ d, r.files.descs[place]? = some d → d.Careful op

variable {place : Nat} {opt : FdOpt} {r r' : HandleRun}

theorem call_some {i : Nat} {op : FileOp} (hr : r.Shares place opt) (h : r.step opt (.call i op) = some r') :
    ∃ d ans d', r.files.descs[place]? = some d ∧ d.opt = opt ∧ d.Sized ∧ r.spec.Small op ∧
      d.perform op = some (ans, d') ∧ r'.files.descs[place]? = some d' ∧ r'.handles = r.handles ∧
      r'.spec = (r.spec.perform opt op).2 ∧ r'.answers = r.answers ++ [(ans, (r.spec.perform opt op).1)] := by
  obtain ⟨fh, hfh, h⟩ := bind_eq_some_iff.mp h
  split at h
  · next hsmall =>
    obtain ⟨⟨ans, files⟩, hperform, h⟩ := map_eq_some_iff.mp h
    cases h
    obtain ⟨d, hd, hopt, hsized⟩ := hr.file
    have hplace := hr.same fh (mem_of_getElem? hfh)
    rw [Files.perform, hplace, hd, bind_some] at hperform
    obtain ⟨⟨ans', d'⟩, hcall, heq⟩ := map_eq_some_iff.mp hperform
    cases heq
    have hlt := (List.getElem?_eq_some_iff.mp hd).1
    exact ⟨d, ans, d', hd, hopt, hsized, hsmall, hcall, getElem?_set_self hlt, rfl, rfl, rfl⟩
  · cases h

theorem step_shares (r : HandleRun) (a : HandleOp) (r' : HandleRun) (hr : r.Shares place opt)
    (h : (system opt).step r a = some r') : r'.Shares place opt := by
  cases a with
  | dup i cloexec =>
    obtain ⟨fh, hfh, h⟩ := map_eq_some_iff.mp h
    cases h
    refine ⟨fun other hother => ?_, hr.file⟩
    rcases mem_append.mp hother with hother | hother
    · exact hr.same other hother
    · rw [mem_singleton.mp hother]
      exact hr.same fh (mem_of_getElem? hfh)
  | call i op =>
    obtain ⟨d, ans, d', hd, hopt, hsized, hsmall, hcall, hd', hhandles, _⟩ := call_some hr h
    have hkept := perform_kept hsized hsmall hcall
    exact ⟨hhandles ▸ hr.same, d', hd', hkept.opt.trans hopt, hkept.sized⟩

/-- A step between two states that match is careful, and the other way round. -/
theorem step_matches (r : HandleRun) (a : HandleOp) (r' : HandleRun) (hr : r.Shares place opt)
    (hm : r.Matches place) (h : (system opt).step r a = some r') : r'.Matches place ↔ r.Careful place a := by
  cases a with
  | dup i cloexec =>
    obtain ⟨fh, hfh, h⟩ := map_eq_some_iff.mp h
    cases h
    exact iff_of_true ⟨hm.answers, hm.state⟩ trivial
  | call i op =>
    obtain ⟨d, ans, d', hd, hopt, hsized, hsmall, hcall, hd', _, hspec, hanswers⟩ := call_some hr h
    obtain ⟨d₀, hd₀, hstate⟩ := hm.state
    rw [hd] at hd₀
    cases hd₀
    rw [← hstate] at hsmall hspec hanswers
    subst hopt
    have hcareful : r.Careful place (.call i op) ↔ d.Careful op := by
      rw [Careful, hd]
      exact ⟨fun h => h d rfl, fun h other heq => some.inj heq ▸ h⟩
    rw [hcareful, ← perform_spec hsized hsmall hcall, Prod.ext_iff]
    constructor
    · intro hm'
      obtain ⟨d₁, hd₁, hstate₁⟩ := hm'.state
      rw [hd'] at hd₁
      cases hd₁
      refine ⟨hm'.answers (ans, _) ?_, hstate₁.trans hspec⟩
      rw [hanswers]
      exact mem_append_right _ mem_cons_self
    · intro hright
      refine ⟨fun p hp => ?_, d', hd', hright.2.trans hspec.symm⟩
      rw [hanswers] at hp
      rcases mem_append.mp hp with hp | hp
      · exact hm.answers p hp
      · rw [mem_singleton.mp hp]
        exact hright.1

/-- **A handle is an array of bytes with an offset exactly as long as every append finds the offset at the end of the
file and no seek goes to a negative position.** -/
theorem handle_bytes_iff {files : Files} {fh : FHandle} {d : FdState} (hd : files.descs[fh.desc]? = some d)
    (hsized : d.Sized) (ops : List HandleOp) :
    (system d.opt).Always (Matches fh.desc) (init files fh d) ops ↔
      (system d.opt).Guarded (Careful fh.desc) (init files fh d) ops := by
  refine System.always_iff_guarded step_shares step_matches ⟨fun other hother => ?_, d, hd, rfl, hsized⟩
    ⟨fun p hp => absurd hp not_mem_nil, d, hd, rfl⟩
  rw [mem_singleton.mp hother]

/-- A file of three bytes that is open for all kinds of access. -/
def threeBytes (ap : Bool) : FdState := ⟨0, ⟨true, true, ap, false⟩, 0, [1, 2, 3]⟩

def threeBytesFile (ap : Bool) : Files := {Files.new with descs := [threeBytes ap]}

def onlyHandle : FHandle := ⟨"a", 0, 0, false, false⟩

/-- A write behind the end, and a read through a copy of the handle. -/
theorem handle_bytes_hole : (system (threeBytes true).opt).Always (Matches 0)
    (init (threeBytesFile true) onlyHandle (threeBytes true))
    [.call 0 (.writeAt 5 [9]), .dup 0 true, .call 1 (.read [0, 0, 0, 0, 0, 0])] := by
  refine (handle_bytes_iff rfl ⟨by decide, by unfold isizeMax; decide⟩ _).mpr fun done a t u hpre _ _ => ?_
  have ha := hpre.subset (mem_append_right done mem_cons_self)
  rcases mem_cons.mp ha with rfl | ha
  · exact fun _ _ => trivial
  rcases mem_cons.mp ha with rfl | ha
  · trivial
  · rw [mem_singleton.mp ha]
    exact fun _ _ => trivial

/-- An append to three bytes leaves the offset at 1, and a seek to -1 returns the largest word. -/
theorem handle_offset_lost :
    ¬(system (threeBytes true).opt).Always (Matches 0) (init (threeBytesFile true) onlyHandle (threeBytes true))
      [.call 0 (.write [9])] ∧
    ¬(system (threeBytes false).opt).Always (Matches 0) (init (threeBytesFile false) onlyHandle (threeBytes false))
      [.call 0 (.seek (.cur (-1)))] := by
  constructor
  · intro h
    have hrun : ((system (threeBytes true).opt).run (init (threeBytesFile true) onlyHandle (threeBytes true))
        [.call 0 (.write [9])]).any
        (fun r => decide (r.files.descs[0]?.map FdState.off = some 1 ∧ r.spec.off = 4)) = true := by decide +kernel
    obtain ⟨r, hr, hoff, hspec⟩ := System.exists_of_run_any hrun
    obtain ⟨d, hd, hstate⟩ := (h _ r (prefix_refl _) hr).state
    rw [hd, map_some, some_inj] at hoff
    rw [← hstate] at hspec
    exact absurd (hoff.symm.trans hspec) (by decide)
  · intro h
    have hrun : ((system (threeBytes false).opt).run (init (threeBytesFile false) onlyHandle (threeBytes false))
        [.call 0 (.seek (.cur (-1)))]).any
        (fun r => decide (r.answers = [((.ok usizeMax, []), (.error .einval, []))])) = true := by decide +kernel
    obtain ⟨r, hr, hanswers⟩ := System.exists_of_run_any hrun
    have hsame := (h _ r (prefix_refl _) hr).answers _ (hanswers ▸ mem_cons_self)
    cases hsame

end HandleRun
end ChaosKernel.Proc
