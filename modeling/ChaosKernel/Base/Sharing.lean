import Mathlib

/-! Tables of counted references with local counts.

Several holders share resources through tables: `T x p` is what holder `x` has in
place `p`, an entry that names a resource and carries a count. Each entry has a
count of its own and nothing keeps the counts of one resource equal, so a count
is not the number of the resource's users. What survives is `Counted.single`: an
entry with a count of at most one is the only reference to its resource. The
three ways tables change keep it: a fresh resource for one place, a new holder
that copies another one's table with all counts raised on both sides, and
entries that go away. -/
namespace ChaosKernel.Base

section Sharing
variable {σ π φ β : Type*} (resource : β → φ) (count : β → Nat)

/-- The entry at `(x, p)` is the only reference to its resource. -/
def Exclusive (T : σ → π → Option β) (x : σ) (p : π) (e : β) : Prop :=
  T x p = some e ∧ ∀ y q e', T y q = some e' → resource e' = resource e → y = x ∧ q = p

structure Counted (used : φ → Prop) (T : σ → π → Option β) : Prop where
  used : ∀ x p e, T x p = some e → used (resource e)
  pos : ∀ x p e, T x p = some e → 1 ≤ count e
  single : ∀ x p e, T x p = some e → count e ≤ 1 → Exclusive resource T x p e
  once : ∀ x p q e e', T x p = some e → T x q = some e' → resource e' = resource e → q = p

variable {resource count} {used used' : φ → Prop} {T T' : σ → π → Option β}

theorem Counted.empty (hT : ∀ x p, T x p = none) : Counted resource count used T where
  used x p e h := by rw [hT] at h; cases h
  pos x p e h := by rw [hT] at h; cases h
  single x p e h := by rw [hT] at h; cases h
  once x p q e e' h := by rw [hT] at h; cases h

/-- Entries may go away, and more resources may be in use. -/
theorem Counted.drop (h : Counted resource count used T)
    (hT : ∀ x p e, T' x p = some e → T x p = some e) (hused : ∀ f, used f → used' f) :
    Counted resource count used' T' where
  used x p e he := hused _ (h.used x p e (hT x p e he))
  pos x p e he := h.pos x p e (hT x p e he)
  single x p e he hle :=
    ⟨he, fun y q e' he' => (h.single x p e (hT x p e he) hle).2 y q e' (hT y q e' he')⟩
  once x p q e e' he he' := h.once x p q e e' (hT x p e he) (hT x q e' he')

section Fresh
variable [DecidableEq σ] [DecidableEq π] {x : σ} {p : π} {e : β}

/-- A resource nobody uses, put in one place. -/
theorem Counted.fresh (h : Counted resource count used T) (hfresh : ¬used (resource e))
    (hcount : count e = 1)
    (hT : ∀ y q, T' y q = if y = x ∧ q = p then some e else T y q)
    (hused : ∀ f, used f ∨ f = resource e → used' f) :
    Counted resource count used' T' ∧ Exclusive resource T' x p e := by
  have hcases : ∀ y q e', T' y q = some e' → (y = x ∧ q = p ∧ e' = e) ∨ T y q = some e' := by
    intro y q e' he'
    rw [hT] at he'
    split at he'
    · rename_i hat
      exact .inl ⟨hat.1, hat.2, (Option.some.inj he').symm⟩
    · exact .inr he'
  have hother : ∀ y q e', T y q = some e' → resource e' ≠ resource e :=
    fun y q e' he' heq => hfresh (heq ▸ h.used y q e' he')
  have hexcl : Exclusive resource T' x p e := by
    refine ⟨by rw [hT, if_pos ⟨rfl, rfl⟩], fun y q e' he' heq => ?_⟩
    rcases hcases y q e' he' with ⟨hy, hq, _⟩ | hold
    · exact ⟨hy, hq⟩
    · exact absurd heq (hother y q e' hold)
  refine ⟨⟨?_, ?_, ?_, ?_⟩, hexcl⟩
  · intro y q e' he'
    rcases hcases y q e' he' with ⟨_, _, rfl⟩ | hold
    · exact hused _ (.inr rfl)
    · exact hused _ (.inl (h.used y q e' hold))
  · intro y q e' he'
    rcases hcases y q e' he' with ⟨_, _, rfl⟩ | hold
    · exact hcount.ge
    · exact h.pos y q e' hold
  · intro y q e' he' hle
    rcases hcases y q e' he' with ⟨rfl, rfl, rfl⟩ | hold
    · exact hexcl
    · refine ⟨he', fun z r e'' he'' heq => ?_⟩
      rcases hcases z r e'' he'' with ⟨_, _, rfl⟩ | hold'
      · exact absurd heq.symm (hother y q e' hold)
      · exact (h.single y q e' hold hle).2 z r e'' hold' heq
  · intro y q r e' e'' he' he'' heq
    rcases hcases y q e' he' with ⟨rfl, rfl, rfl⟩ | hold
    · exact (hexcl.2 y r e'' he'' heq).2
    · rcases hcases y r e'' he'' with ⟨rfl, rfl, rfl⟩ | hold'
      · exact (hexcl.2 y q e' he' heq.symm).2.symm
      · exact h.once y q r e' e'' hold hold' heq

end Fresh

/-- A new holder `y` with a copy of `x`'s table, all counts raised in both. -/
theorem Counted.fork [DecidableEq σ] (h : Counted resource count used T) {x y : σ} (up : β → β)
    (hresource : ∀ e, resource (up e) = resource e) (hcount : ∀ e, count (up e) = count e + 1)
    (hT : ∀ z p, T' z p = if z = x ∨ z = y then (T x p).map up else T z p) :
    Counted resource count used T' := by
  have hcases : ∀ z p e, T' z p = some e →
      ∃ e₀, T (if z = x ∨ z = y then x else z) p = some e₀ ∧ resource e = resource e₀ ∧
        (count e = count e₀ + 1 ∨ (z ≠ x ∧ z ≠ y ∧ e = e₀)) := by
    intro z p e he
    rw [hT] at he
    by_cases hz : z = x ∨ z = y
    · rw [if_pos hz] at he ⊢
      obtain ⟨e₀, he₀, rfl⟩ := Option.map_eq_some_iff.mp he
      exact ⟨e₀, he₀, hresource e₀, .inl (hcount e₀)⟩
    · rw [if_neg hz] at he ⊢
      exact ⟨e, he, rfl, .inr ⟨fun hzx => hz (.inl hzx), fun hzy => hz (.inr hzy), rfl⟩⟩
  refine ⟨?_, ?_, ?_, ?_⟩
  · intro z p e he
    obtain ⟨e₀, he₀, hres, _⟩ := hcases z p e he
    rw [hres]
    exact h.used _ p e₀ he₀
  · intro z p e he
    obtain ⟨e₀, he₀, _, hc | ⟨_, _, rfl⟩⟩ := hcases z p e he
    · omega
    · exact h.pos _ p e he₀
  · intro z p e he hle
    obtain ⟨e₀, he₀, _, hc | ⟨hzx, hzy, rfl⟩⟩ := hcases z p e he
    · have := h.pos _ p e₀ he₀
      omega
    · refine ⟨he, fun v q e' he' heq => ?_⟩
      have hz : ¬(z = x ∨ z = y) := fun hor => hor.elim hzx hzy
      rw [if_neg hz] at he₀
      obtain ⟨e₁, he₁, hres₁, _⟩ := hcases v q e' he'
      obtain ⟨hv, hqp⟩ := (h.single z p e he₀ hle).2 _ q e₁ he₁ (hres₁.symm.trans heq)
      split at hv
      · exact absurd hv.symm hzx
      · exact ⟨hv, hqp⟩
  · intro z p q e e' he he' heq
    obtain ⟨e₀, he₀, hres, _⟩ := hcases z p e he
    obtain ⟨e₁, he₁, hres₁, _⟩ := hcases z q e' he'
    exact h.once _ p q e₀ e₁ he₀ he₁ (hres₁.symm.trans (heq.trans hres))

/-! ### Exact counts

Counts are exact when each one is the number of holders of its resource, and the
resources in use are the ones somebody holds. A fresh resource in an empty place
keeps them exact; each of the other moves does so only when it touches no entry
that somebody else's count would have to follow. -/

/-- The holders that have a reference to `f`. -/
def users (resource : β → φ) (T : σ → π → Option β) (f : φ) : Set σ :=
  {x | ∃ p e, T x p = some e ∧ resource e = f}

variable (resource count) in
structure Exact (used : φ → Prop) (T : σ → π → Option β) : Prop where
  counts : ∀ x p e, T x p = some e → count e = (users resource T (resource e)).ncard
  used : ∀ f, used f ↔ (users resource T f).Nonempty

/-- A holder that loses its reference to a resource in use leaves the counts inexact. -/
theorem Exact.not_of_loses (h : Exact resource count used T) {x : σ} {f : φ}
    (hfin : (users resource T f).Finite) (hx : x ∈ users resource T f) (hused : used' f)
    (hloses : x ∉ users resource T' f) (hother : ∀ z p, z ≠ x → T' z p = T z p) :
    ¬Exact resource count used' T' := by
  intro h'
  have husers : users resource T' f = users resource T f \ {x} := by
    ext z
    by_cases hz : z = x
    · subst hz
      simp [hloses]
    · simp only [users, Set.mem_ofPred_eq, Set.mem_sdiff, Set.mem_singleton_iff, hz, not_false_eq_true,
        and_true, hother z _ hz]
  obtain ⟨z, hz⟩ := (h'.used f).mp hused
  have hzx : z ≠ x := fun heq => hloses (heq ▸ hz)
  obtain ⟨p, e, he, rfl⟩ := hz
  have hnew := h'.counts z p e he
  have hold := h.counts z p e (by rw [← hother z p hzx]; exact he)
  have hcard := Set.ncard_sdiff_singleton_add_one hx hfin
  rw [husers] at hnew
  omega

/-- Who holds what once an entry has come to an empty place. -/
theorem mem_users_put [DecidableEq σ] [DecidableEq π] {x : σ} {p : π} {e : β} (hempty : T x p = none)
    (hT : ∀ y q, T' y q = if y = x ∧ q = p then some e else T y q) (f : φ) (z : σ) :
    z ∈ users resource T' f ↔ z ∈ users resource T f ∨ z = x ∧ resource e = f := by
  constructor
  · intro hz
    obtain ⟨q, e', he', hres⟩ := hz
    rw [hT] at he'
    split at he'
    · next hat =>
      cases he'
      exact .inr ⟨hat.1, hres⟩
    · exact .inl ⟨q, e', he', hres⟩
  · intro hz
    rcases hz with ⟨q, e', he', hres⟩ | ⟨rfl, hres⟩
    · refine ⟨q, e', ?_, hres⟩
      rw [hT, if_neg, he']
      intro hat
      rw [hat.1, hat.2, hempty] at he'
      cases he'
    · exact ⟨p, e, by rw [hT, if_pos ⟨rfl, rfl⟩], hres⟩

theorem Exact.fresh [DecidableEq σ] [DecidableEq π] (h : Exact resource count used T) {x : σ} {p : π}
    {e : β} (hfresh : ¬used (resource e)) (hcount : count e = 1) (hempty : T x p = none)
    (hT : ∀ y q, T' y q = if y = x ∧ q = p then some e else T y q)
    (hused : ∀ f, used' f ↔ used f ∨ f = resource e) : Exact resource count used' T' := by
  have hnobody : users resource T (resource e) = ∅ :=
    Set.not_nonempty_iff_eq_empty.mp fun hsome => hfresh ((h.used _).mpr hsome)
  have hnew : users resource T' (resource e) = {x} := by
    ext z
    rw [mem_users_put hempty hT, hnobody]
    simp
  have hsame : ∀ f, f ≠ resource e → users resource T' f = users resource T f := by
    intro f hf
    ext z
    rw [mem_users_put hempty hT]
    exact or_iff_left fun hz => hf hz.2.symm
  refine ⟨fun z q e' he' => ?_, fun f => ?_⟩
  · rw [hT] at he'
    split at he'
    · cases he'
      rw [hnew, Set.ncard_singleton, hcount]
    · have hne : resource e' ≠ resource e := fun heq => hfresh ((h.used _).mpr ⟨z, q, e', he', heq⟩)
      rw [hsame _ hne]
      exact h.counts z q e' he'
  · rw [hused f]
    by_cases hf : f = resource e
    · rw [hf, hnew]
      exact iff_of_true (.inr rfl) (Set.singleton_nonempty x)
    · rw [hsame f hf, ← h.used f]
      exact or_iff_left hf

section Fork
variable [DecidableEq σ] {x y : σ} {up : β → β}

/-- After a fork the new holder has what its parent had. -/
theorem mem_users_fork (hresource : ∀ e, resource (up e) = resource e)
    (hT : ∀ z p, T' z p = if z = x ∨ z = y then (T x p).map up else T z p) (f : φ) (z : σ) :
    z ∈ users resource T' f ↔ (if z = y then x else z) ∈ users resource T f := by
  by_cases hz : z = x ∨ z = y
  · have hsrc : (if z = y then x else z) = x := by
      rcases hz with rfl | rfl <;> simp
    rw [hsrc]
    constructor
    · intro hmem
      obtain ⟨p, e, he, hres⟩ := hmem
      rw [hT, if_pos hz] at he
      obtain ⟨e₀, he₀, rfl⟩ := Option.map_eq_some_iff.mp he
      exact ⟨p, e₀, he₀, (hresource e₀).symm.trans hres⟩
    · intro hmem
      obtain ⟨p, e, he, hres⟩ := hmem
      exact ⟨p, up e, by rw [hT, if_pos hz, he, Option.map_some], (hresource e).trans hres⟩
  · have hzy : z ≠ y := fun heq => hz (.inr heq)
    simp only [users, Set.mem_ofPred_eq, hT, if_neg hz, if_neg hzy]

theorem users_fork_of_mem (hresource : ∀ e, resource (up e) = resource e)
    (hT : ∀ z p, T' z p = if z = x ∨ z = y then (T x p).map up else T z p) {f : φ}
    (hx : x ∈ users resource T f) : users resource T' f = insert y (users resource T f) := by
  ext z
  rw [mem_users_fork hresource hT, Set.mem_insert_iff]
  by_cases hz : z = y
  · simp [hz, hx]
  · simp [hz]

theorem users_fork_of_notMem (hresource : ∀ e, resource (up e) = resource e)
    (hT : ∀ z p, T' z p = if z = x ∨ z = y then (T x p).map up else T z p) {f : φ}
    (hy : y ∉ users resource T f) (hx : x ∉ users resource T f) :
    users resource T' f = users resource T f := by
  ext z
  rw [mem_users_fork hresource hT]
  by_cases hz : z = y
  · simp [hz, hx, hy]
  · simp [hz]

/-- A fork keeps the counts exact just when the parent shares nothing yet. -/
theorem Exact.fork_iff (hcounted : Counted resource count used T)
    (h : Exact resource count used T) (hfin : ∀ f, (users resource T f).Finite) (up : β → β)
    (hresource : ∀ e, resource (up e) = resource e) (hcount : ∀ e, count (up e) = count e + 1)
    (hy : ∀ p, T y p = none) (hxy : x ≠ y)
    (hT : ∀ z p, T' z p = if z = x ∨ z = y then (T x p).map up else T z p) :
    Exact resource count used T' ↔ ∀ p e, T x p = some e → count e ≤ 1 := by
  have hynot : ∀ f, y ∉ users resource T f := by
    intro f hmem
    obtain ⟨p, e, he, _⟩ := hmem
    rw [hy] at he
    cases he
  have hgrow : ∀ f, x ∈ users resource T f →
      (users resource T' f).ncard = (users resource T f).ncard + 1 := by
    intro f hx
    rw [users_fork_of_mem hresource hT hx, Set.ncard_insert_of_notMem (hynot f) (hfin f)]
  constructor
  · -- Another holder of a shared resource still has the old count.
    intro h' p e he
    by_contra hshared
    have hx : x ∈ users resource T (resource e) := ⟨p, e, he, rfl⟩
    have htwo : 1 < (users resource T (resource e)).ncard := by
      rw [← h.counts x p e he]
      omega
    obtain ⟨z, ⟨q, e', he', hres⟩, hzx⟩ := Set.exists_ne_of_one_lt_ncard htwo x
    have hzy : z ≠ y := by
      intro heq
      rw [heq, hy] at he'
      cases he'
    have hnew := h'.counts z q e' (by
      rw [hT, if_neg (fun hor => hor.elim hzx hzy)]
      exact he')
    have hold := h.counts z q e' he'
    rw [hres] at hnew hold
    have := hgrow _ hx
    omega
  · intro hown
    refine ⟨fun z p e he => ?_, fun f => ?_⟩
    · rw [hT] at he
      by_cases hz : z = x ∨ z = y
      · rw [if_pos hz] at he
        obtain ⟨e₀, he₀, rfl⟩ := Option.map_eq_some_iff.mp he
        rw [hresource, hgrow _ ⟨p, e₀, he₀, rfl⟩, hcount, ← h.counts x p e₀ he₀]
      · rw [if_neg hz] at he
        rw [users_fork_of_notMem hresource hT (hynot _)]
        · exact h.counts z p e he
        · intro hmem
          obtain ⟨q, e₀, he₀, hres⟩ := hmem
          have := (hcounted.single x q e₀ he₀ (hown q e₀ he₀)).2 z p e he hres.symm
          exact hz (.inl this.1)
    · rw [h.used f]
      by_cases hx : x ∈ users resource T f
      · refine iff_of_true ⟨x, hx⟩ ⟨x, (mem_users_fork hresource hT f x).mpr ?_⟩
        rw [if_neg hxy]
        exact hx
      · rw [users_fork_of_notMem hresource hT (hynot f) hx]

end Fork
end Sharing
/-! ### Counting the places with a key -/

section Places
variable {π κ : Type*} {key : π → Option κ} {p : π}

/-- The places that have the key `k`. -/
def placesOf (key : π → Option κ) (k : κ) : Set π := {q | key q = some k}

theorem placesOf_finite (hfin : {q | key q ≠ none}.Finite) (k : κ) : (placesOf key k).Finite :=
  hfin.subset fun q (hq : key q = some k) => by
    rw [Set.mem_ofPred_eq, hq]
    exact Option.some_ne_none k

variable [DecidableEq π] [DecidableEq κ]

/-- A place that had no key gets one. -/
theorem ncard_placesOf_insert (hfin : {q | key q ≠ none}.Finite) (hp : key p = none) (x : Option κ) (k : κ) :
    (placesOf (Function.update key p x) k).ncard = (placesOf key k).ncard + if x = some k then 1 else 0 := by
  have hnot : p ∉ placesOf key k := fun h => Option.some_ne_none k (h.symm.trans hp)
  split
  · next heq =>
    rw [← Set.ncard_insert_of_notMem hnot (placesOf_finite hfin k)]
    congr 1
    ext q
    by_cases hq : q = p <;> simp [placesOf, hq, heq]
  · next hne =>
    rw [Nat.add_zero]
    congr 1
    ext q
    by_cases hq : q = p <;> simp [placesOf, hq, hne, hp]

/-- A key that goes away is counted once less. -/
theorem ncard_placesOf_erase (hfin : {q | key q ≠ none}.Finite) (k : κ) : (placesOf key k).ncard =
    (placesOf (Function.update key p none) k).ncard + if key p = some k then 1 else 0 := by
  have hfin' : {q | Function.update key p none q ≠ none}.Finite := hfin.subset fun q hq hnone => hq (by
    by_cases hqp : q = p <;> simp [hqp, hnone])
  rw [← ncard_placesOf_insert hfin' (Function.update_self ..), Function.update_idem, Function.update_eq_self]

end Places
end ChaosKernel.Base
