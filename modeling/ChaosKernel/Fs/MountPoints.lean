import ChaosKernel.Fs.Mount

/-! Mount points and whole path components.

A prefix that does not end in a slash names a directory, and the paths below it are
the prefix itself and what goes on with a slash. The table compares bytes, so it
also takes a path that goes on with more of the name. `wholeComponents_iff`: a
table keeps to whole components on all paths exactly when none of the prefixes it
could cut a name with is bound. -/
namespace ChaosKernel.Fs
open Base

def EndsInSlash (pfx : String) : Prop := pfx.toList.getLast? = some '/'

instance (pfx : String) : Decidable (EndsInSlash pfx) := inferInstanceAs (Decidable (_ = _))

namespace MountTable

/-- The paths `resolve path` is called with, the first one and what each level leaves to the next. -/
inductive Level (t : MountTable) (path : String) : String → Prop
  | here : Level t path path
  | rest {sub rest : String} {m : MountEntry} (above : Level t path sub) (hm : t.selected sub = some m)
      (hrest : sliceFrom? sub (byteLen m.pfx) = some rest) : Level t path rest

/-- At every level, `resolve` and `find_mount` select a prefix without a slash at its end only for the path
it is and for paths that go on with a slash. -/
def WholeComponents (t : MountTable) (path : String) : Prop :=
  ∀ sub m, t.Level path sub → t.selected sub = some m ∨ t.findMount sub = some m → ¬EndsInSlash m.pfx →
    sub = m.pfx ∨ Starts (m.pfx ++ "/") sub

variable {t : MountTable} (pfx : String) {m : MountEntry}

theorem wholeComponents_of_slashes (h : ∀ m ∈ t.entries, m.pfx = "" ∨ EndsInSlash m.pfx) (path : String) :
    t.WholeComponents path := by
  intro sub m _ hm hslash
  rw [selected_eq, or_self] at hm
  obtain ⟨hmem, hne, _⟩ := findMount_some hm
  exact absurd ((h m hmem).resolve_left hne) hslash

theorem endsInSlash_x : ¬EndsInSlash (pfx ++ "x") := by
  unfold EndsInSlash
  rw [String.toList_append]
  show (pfx.toList ++ ['x']).getLast? ≠ some '/'
  rw [List.getLast?_concat]
  decide

theorem not_below_x : ¬(pfx ++ "x" = pfx ∨ Starts (pfx ++ "/") (pfx ++ "x")) := by
  intro h
  rcases h with h | ⟨rest, h⟩
  · have := congrArg String.length h
    rw [String.length_append] at this
    exact absurd this (Nat.ne_of_gt (Nat.lt_succ_self _))
  · have hlist := congrArg String.toList h
    rw [String.toList_append, String.append_assoc, String.toList_append, String.toList_append] at hlist
    have hhead : 'x' = '/' := (List.cons.inj (List.append_cancel_left hlist)).1
    exact absurd hhead (by decide)

theorem findMount_cut (hm : m ∈ t.entries) (hne : m.pfx ≠ "")
    (hmax : ∀ m' ∈ t.entries, ¬EndsInSlash m'.pfx → byteLen m'.pfx ≤ byteLen m.pfx) :
    ∃ m', t.findMount (m.pfx ++ "x") = some m' ∧ m'.pfx = m.pfx := by
  have hstarts : Starts m.pfx (m.pfx ++ "x") := ⟨"x", rfl⟩
  cases hfind : t.findMount (m.pfx ++ "x") with
  | none => exact absurd hstarts (findMount_none.mp hfind m hm hne)
  | some m' =>
    obtain ⟨hm', _, hstarts', hlongest⟩ := findMount_some hfind
    have hpre : Starts m.pfx m'.pfx := hstarts.of_byteLen_le hstarts' (hlongest m hm hstarts)
    refine ⟨m', rfl, (hpre.eq_of_byteLen_le (not_lt.mp fun hlt => ?_)).symm⟩
    -- A longer prefix of the path is the whole path, which has no slash at its end either.
    have hx : byteLen (m.pfx ++ "x") = byteLen m.pfx + 1 := byteLen_append m.pfx "x"
    have hwhole : m'.pfx = m.pfx ++ "x" := hstarts'.eq_of_byteLen_le (by omega)
    have := hmax m' hm' (hwhole ▸ endsInSlash_x m.pfx)
    omega

theorem exists_longest_cut (hm : m ∈ t.entries) (hslash : ¬EndsInSlash m.pfx) :
    ∃ m₀ ∈ t.entries, ¬EndsInSlash m₀.pfx ∧
      ∀ m' ∈ t.entries, ¬EndsInSlash m'.pfx → byteLen m'.pfx ≤ byteLen m₀.pfx := by
  have hmem : ∀ m, m ∈ (t.entries.filter fun m => ¬EndsInSlash m.pfx).toFinset ↔
      m ∈ t.entries ∧ ¬EndsInSlash m.pfx := by
    intro m
    rw [List.mem_toFinset, List.mem_filter, decide_eq_true_eq]
  obtain ⟨m₀, hm₀, hmax⟩ :=
    Finset.exists_max_image _ (fun m => byteLen m.pfx) ⟨m, (hmem m).mpr ⟨hm, hslash⟩⟩
  exact ⟨m₀, ((hmem m₀).mp hm₀).1, ((hmem m₀).mp hm₀).2,
    fun m' hm' hslash' => hmax m' ((hmem m').mpr ⟨hm', hslash'⟩)⟩

theorem slashes_of_wholeComponents (h : ∀ path, t.WholeComponents path) :
    ∀ m ∈ t.entries, m.pfx = "" ∨ EndsInSlash m.pfx := by
  intro m hm
  by_contra hcut
  obtain ⟨hne, hslash⟩ := not_or.mp hcut
  obtain ⟨m₀, hm₀, hslash₀, hmax⟩ := exists_longest_cut hm hslash
  have hne₀ : m₀.pfx ≠ "" := by
    intro hempty
    have hpos := byteLen_pos hne
    have hle := hmax m hm hslash
    rw [hempty] at hle
    exact absurd hle (not_le.mpr hpos)
  obtain ⟨m', hfind, hpfx⟩ := findMount_cut hm₀ hne₀ hmax
  have hwhole := h _ _ m' .here (.inr hfind) (hpfx ▸ hslash₀)
  rw [hpfx] at hwhole
  exact not_below_x m₀.pfx hwhole

/-- **A table keeps to whole path components exactly when all its prefixes end in a slash.** -/
theorem wholeComponents_iff (ops : List MountOp) :
    (∀ path, (built ops).WholeComponents path) ↔
      ∀ pfx tgt, Bound ops pfx tgt → pfx = "" ∨ EndsInSlash pfx := by
  constructor
  · intro h pfx tgt hb
    exact slashes_of_wholeComponents h ⟨pfx, tgt⟩ (mem_built.mpr hb)
  · intro h
    exact wholeComponents_of_slashes fun m hm => h m.pfx m.target (mem_built.mp hm)

theorem sibling_redirected : ¬(built [.bind "/mnt" "dev0"]).WholeComponents "/mntx" ∧
    (built [.bind "/mnt" "dev0"]).resolve "/mntx" = .ok "dev0:x" := by
  have hfind : (built [.bind "/mnt" "dev0"]).findMount "/mntx" = some ⟨"/mnt", "dev0"⟩ := by decide +kernel
  refine ⟨fun h => ?_, by decide +kernel⟩
  exact not_below_x "/mnt" (h "/mntx" ⟨"/mnt", "dev0"⟩ .here (.inr hfind) (by decide +kernel))

end MountTable
end ChaosKernel.Fs
