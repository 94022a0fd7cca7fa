import ChaosKernel.Fs.Mount

/-! What a path resolves to.

`path_induction` is the recursion of `resolve` as a rule: a path either matches no
entry or is the prefix of the entry found and a shorter path. `resolve_longest` is
the result: every path resolves, device by device, along the longest bound
prefixes, and the order in which they were bound does not matter. -/
namespace ChaosKernel.Fs
open Base

/-! ### A path without an entry -/

/-- `path` with the first slash of every run of slashes. -/
def squeezed (path : String) : String :=
  String.ofList (path.toList.destutter fun a b => ¬(a = '/' ∧ b = '/'))

theorem destutter'_eq_squeezeLoop (a : Char) (l : List Char) :
    l.destutter' (fun a b => ¬(a = '/' ∧ b = '/')) a = a :: squeezeLoop (a = '/') l := by
  induction l generalizing a with
  | nil => rfl
  | cons ch rest ih =>
    rw [List.destutter', squeezeLoop]
    by_cases h : a = '/' ∧ ch = '/'
    · rw [if_neg (not_not.mpr h), if_pos h.2, ih, h.1]
      rfl
    · rw [if_pos h, ih]
      by_cases hch : ch = '/'
      · have ha : a ≠ '/' := fun ha => h ⟨ha, hch⟩
        simp only [hch, ha, decide_true, decide_false, if_true, Bool.false_eq_true, if_false]
      · simp only [hch, decide_false, if_false]

theorem canonical_eq (path : String) : canonical path = squeezed path := by
  unfold canonical squeezed
  cases h : path.toList with
  | nil =>
    have : path = "" := String.toList_eq_nil_iff.mp h
    rw [this]
    rfl
  | cons ch rest =>
    have hloop : squeezeLoop false (ch :: rest) = ch :: squeezeLoop (ch = '/') rest := by
      rw [squeezeLoop]
      by_cases hch : ch = '/' <;> simp [hch]
    rw [hloop, List.destutter_cons', destutter'_eq_squeezeLoop, if_neg]
    intro hempty
    have := congrArg String.toList hempty
    rw [String.toList_ofList] at this
    cases this

/-! ### The recursion -/

namespace MountTable
variable {t u : MountTable} {path rest pfx tgt : String}
variable {fuel f g : Nat}

theorem resolveLoop_none (h : t.findMount path = none) :
    t.resolveLoop (fuel + 1) path = .ok (squeezed path) := by
  rw [resolveLoop]
  split
  · next idx hidx =>
    obtain ⟨m, _, hm⟩ := scanIdx_some hidx
    rw [← findMount, h] at hm
    cases hm
  · rw [canonical_eq]

theorem resolveLoop_some {m : MountEntry} (h : t.findMount (m.pfx ++ rest) = some m) :
    t.resolveLoop (fuel + 1) (m.pfx ++ rest) =
      (t.resolveLoop fuel rest).map fun sub => m.target ++ ":" ++ sub := by
  rw [← selected_eq, selected, Option.bind_eq_some_iff] at h
  obtain ⟨idx, hidx, hm⟩ := h
  rw [resolveLoop, hidx]
  simp only [hm, sliceFrom_append]
  cases t.resolveLoop fuel rest <;> rfl

/-- Every call of `resolve` gets a shorter path, so that more fuel than bytes is enough. -/
theorem resolveLoop_fuel (hf : byteLen path < f) (hg : byteLen path < g) :
    t.resolveLoop f path = t.resolveLoop g path := by
  induction f generalizing g path with
  | zero => omega
  | succ f ih =>
    obtain ⟨g, rfl⟩ : ∃ g', g = g' + 1 := Nat.exists_eq_succ_of_ne_zero (by omega)
    cases h : t.findMount path with
    | none => rw [resolveLoop_none h, resolveLoop_none h]
    | some m =>
      obtain ⟨_, hne, ⟨rest, hrest⟩, _⟩ := findMount_some h
      have hpos := byteLen_pos hne
      rw [hrest] at h hf hg ⊢
      rw [byteLen_append] at hf hg
      rw [resolveLoop_some h, resolveLoop_some h, ih (by omega : byteLen rest < f) (by omega : byteLen rest < g)]

theorem resolve_none (h : t.findMount path = none) : t.resolve path = .ok (squeezed path) :=
  resolveLoop_none h

theorem resolve_some {m : MountEntry} (h : t.findMount (m.pfx ++ rest) = some m) :
    t.resolve (m.pfx ++ rest) = (t.resolve rest).map fun sub => m.target ++ ":" ++ sub := by
  obtain ⟨_, hne, _⟩ := findMount_some h
  have hpos := byteLen_pos hne
  unfold resolve
  rw [resolveLoop_some h, resolveLoop_fuel (g := byteLen rest + 1) _ (Nat.lt_succ_self _)]
  rw [byteLen_append]
  omega

theorem path_induction (t : MountTable) {P : String → Prop} (hnone : ∀ path, t.findMount path = none → P path)
    (hsome : ∀ m rest, t.findMount (m.pfx ++ rest) = some m → P rest → P (m.pfx ++ rest)) (path : String) :
    P path := by
  induction hn : byteLen path using Nat.strongRecOn generalizing path with
  | ind n ih =>
    cases h : t.findMount path with
    | none => exact hnone path h
    | some m =>
      obtain ⟨_, hne, ⟨rest, hrest⟩, _⟩ := findMount_some h
      have hpos := byteLen_pos hne
      rw [hrest] at h hn ⊢
      rw [byteLen_append] at hn
      exact hsome m rest h (ih (byteLen rest) (by omega) rest rfl)

theorem resolve_ok (t : MountTable) (path : String) : ∃ s, t.resolve path = .ok s := by
  induction path using t.path_induction with
  | hnone path h => exact ⟨_, resolve_none h⟩
  | hsome m rest h ih =>
    obtain ⟨sub, hsub⟩ := ih
    rw [resolve_some h, hsub]
    exact ⟨_, rfl⟩

/-! ### The order of the calls -/

/-- The calls that bind the pairs `pairs` in this order. -/
def binds (pairs : List (String × String)) : List MountOp := pairs.map fun p => .bind p.1 p.2

theorem bound_binds {pairs : List (String × String)} :
    Bound (binds pairs) pfx tgt ↔ (pfx, tgt) ∈ pairs := by
  unfold binds
  constructor
  · intro h
    obtain ⟨before, after, h, _⟩ := h
    have hmem : MountOp.bind pfx tgt ∈ pairs.map fun p => .bind p.1 p.2 := by
      rw [h]
      exact List.mem_append_right _ List.mem_cons_self
    obtain ⟨p, hp, heq⟩ := List.mem_map.mp hmem
    cases heq
    exact hp
  · intro h
    obtain ⟨before, after, h⟩ := List.append_of_mem h
    refine ⟨before.map fun p => .bind p.1 p.2, after.map fun p => .bind p.1 p.2, ?_, ?_⟩
    · rw [h, List.map_append, List.map_cons]
    · intro hun
      obtain ⟨p, _, heq⟩ := List.mem_map.mp hun
      cases heq

theorem findMount_congr (hmem : ∀ m, m ∈ t.entries ↔ m ∈ u.entries)
    (hinj : ∀ m ∈ t.entries, ∀ m' ∈ t.entries, m.pfx = m'.pfx → m = m') (path : String) :
    t.findMount path = u.findMount path := by
  cases hu : u.findMount path with
  | none =>
    rw [findMount_none] at hu ⊢
    exact fun m hm => hu m ((hmem m).mp hm)
  | some m =>
    obtain ⟨hm, hne, hstarts, hlongest⟩ := findMount_some hu
    cases ht : t.findMount path with
    | none => exact absurd hstarts (findMount_none.mp ht m ((hmem m).mpr hm) hne)
    | some m' =>
      obtain ⟨hm', _, hstarts', hlongest'⟩ := findMount_some ht
      have hle := hlongest m' ((hmem m').mp hm') hstarts'
      have hpfx := (hstarts'.of_byteLen_le hstarts hle).eq_of_byteLen_le (hlongest' m ((hmem m).mpr hm) hstarts)
      rw [hinj m' hm' m ((hmem m).mpr hm) hpfx]

theorem resolve_congr (h : ∀ path, t.findMount path = u.findMount path) (path : String) :
    t.resolve path = u.resolve path := by
  induction path using t.path_induction with
  | hnone path ht => rw [resolve_none ht, resolve_none (h path ▸ ht)]
  | hsome m rest ht ih => rw [resolve_some ht, resolve_some (h _ ▸ ht), ih]

/-- **Resolution goes by the longest bound prefix, whatever the order of the calls.** -/
theorem resolve_longest :
    (∀ (ops : List MountOp) (path : String),
      (∃ s, (built ops).resolve path = .ok s) ∧
      (∀ m, (built ops).findMount path = some m →
        Bound ops m.pfx m.target ∧ m.pfx ≠ "" ∧
        (∀ pfx tgt, Bound ops pfx tgt → Starts pfx path → byteLen pfx ≤ byteLen m.pfx) ∧
        ∃ rest, path = m.pfx ++ rest ∧
          (built ops).resolve path = ((built ops).resolve rest).map fun sub => m.target ++ ":" ++ sub) ∧
      ((built ops).findMount path = none →
        (∀ pfx tgt, Bound ops pfx tgt → pfx ≠ "" → ¬Starts pfx path) ∧
        (built ops).resolve path = .ok (squeezed path))) ∧
    ∀ pairs pairs' : List (String × String), (pairs.map Prod.fst).Nodup → pairs.Perm pairs' →
      ∀ path, (built (binds pairs)).resolve path = (built (binds pairs')).resolve path := by
  refine ⟨fun ops path => ⟨resolve_ok _ path, fun m h => ?_, fun h => ⟨?_, resolve_none h⟩⟩, ?_⟩
  · obtain ⟨hm, hne, ⟨rest, hrest⟩, hlongest⟩ := findMount_some h
    refine ⟨mem_built.mp hm, hne, fun pfx tgt hb => hlongest ⟨pfx, tgt⟩ (mem_built.mpr hb), rest, hrest, ?_⟩
    rw [hrest] at h ⊢
    exact resolve_some h
  · exact fun pfx tgt hb => findMount_none.mp h ⟨pfx, tgt⟩ (mem_built.mpr hb)
  · intro pairs pairs' hnodup hperm
    refine resolve_congr (findMount_congr (fun m => ?_) fun m hm m' hm' hpfx => ?_)
    · rw [mem_built, mem_built, bound_binds, bound_binds]
      exact hperm.mem_iff
    · rw [mem_built, bound_binds] at hm hm'
      have := List.inj_on_of_nodup_map hnodup hm hm' hpfx
      cases m
      cases m'
      cases this
      rfl

example : (built [.bind "/mnt" "dev0", .bind "/mnt/usb" "dev1"]).resolve "/mnt/usb//file" = .ok "dev1:/file" := by
  decide +kernel

end MountTable
end ChaosKernel.Fs
