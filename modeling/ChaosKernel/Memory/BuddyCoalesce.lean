import ChaosKernel.Memory.BuddyRuns

/-! Full coalescing.

When the base of the memory is a multiple of the largest block, all blocks are
aligned and no two free buddies stay unmerged (`Buddies.Tidied`). With nothing live
the free blocks are then the merged tiling of the memory, which is unique, so they
are the ones the allocator began with. -/
namespace ChaosKernel.Memory
open Base List

namespace Buddies

/-- The free blocks are aligned and merged as far as they can be, and the live ones are aligned. -/
structure Tidied (top : Nat) (s : Buddies) : Prop where
  free : Tidy (top + 12) (blocks s.alloc.freeLists)
  live : ∀ p ∈ s.live, (blockAt p.1 p.2).Aligned

variable {addr order top o base total : Nat} {b b' : BuddyAllocator}

theorem aligned_lower (hle : order ≤ o) (h : (blockAt addr o).Aligned) : (blockAt addr order).Aligned :=
  (Nat.pow_dvd_pow 2 (Nat.add_le_add_right hle 12)).trans h

theorem allocates_tidy (h : b.Allocates order addr o b') (htidy : Tidy top (blocks b.freeLists)) :
    Tidy top (blocks b'.freeLists) := by
  -- A block on the new lists is a half that was split off, or an old block of another order.
  have hmem : ∀ x c, blockAt x c ∈ blocks b'.freeLists →
      (order ≤ c ∧ c < o ∧ x = addr + 2 ^ (c + 12)) ∨
        (¬(order ≤ c ∧ c < o) ∧ blockAt x c ∈ blocks b.freeLists) := by
    intro x c hx
    rw [mem_blocks, getD_eq_getElem?_getD, h.lists c] at hx
    by_cases hin : order ≤ c ∧ c < o
    · rw [if_pos hin, Option.getD_some, mem_singleton] at hx
      exact .inl ⟨hin.1, hin.2, hx⟩
    · rw [if_neg hin] at hx
      refine .inr ⟨hin, mem_blocks.mpr ?_⟩
      rw [getD_eq_getElem?_getD]
      by_cases hc : c = o
      · subst hc
        rw [if_pos rfl] at hx
        cases hl : b.freeLists[c]? with
        | none =>
          rw [hl] at hx
          exact hx
        | some l =>
          rw [hl] at hx
          exact mem_of_mem_dropLast hx
      · rwa [if_neg hc] at hx
  have hblock := htidy.aligned _ h.block
  refine ⟨fun d hd => ?_, fun d hd hlt hbuddy => ?_⟩
  · obtain ⟨c, _, heq⟩ := mem_blocks_order hd
    rw [heq] at hd ⊢
    rcases hmem _ c hd with ⟨_, hlt, hx⟩ | ⟨_, hold⟩
    · rw [hx]
      have haddr : 2 ^ (c + 12) ∣ addr := aligned_lower hlt.le hblock
      show 2 ^ (c + 12) ∣ addr + 2 ^ (c + 12)
      exact haddr.add (dvd_refl _)
    · exact htidy.aligned _ hold
  · obtain ⟨c, _, heq⟩ := mem_blocks_order hd
    rw [heq] at hd hbuddy hlt
    rcases hmem _ c hd with ⟨hle, hlt', hx⟩ | ⟨hnot, hold⟩
    · rcases hmem _ c hbuddy with ⟨_, _, hx'⟩ | ⟨hnot, _⟩
      · exact Dyad.buddy_ne (blockAt d.lo c) (Dyad.ext (hx'.trans hx.symm) rfl)
      · exact hnot ⟨hle, hlt'⟩
    · rcases hmem _ c hbuddy with ⟨hle, hlt', _⟩ | ⟨_, hold'⟩
      · exact hnot ⟨hle, hlt'⟩
      · exact htidy.apart _ hold hlt hold'

theorem frees_tidy (h : b.Frees addr order b') (hmax : b.maxOrder = top)
    (htidy : Tidy (top + 12) (blocks b.freeLists)) (haligned : (blockAt addr order).Aligned) :
    Tidy (top + 12) (blocks b'.freeLists) := by
  obtain ⟨addr', order', rest, hperm, hsub, hbuddy, haligned'⟩ := h.merged
  have hcons : Tidy (top + 12) (blockAt addr' order' :: rest) := by
    refine (htidy.subset hsub).cons (haligned' haligned) fun hlt => hbuddy ?_
    rw [hmax]
    exact Nat.lt_of_add_lt_add_right hlt
  exact hcons.subset fun c hc => hperm.mem_iff.mp hc

theorem Tidied.step {s t : Buddies} (hfits : base + total * pageSz < wordSize) (h : Tiled base total top s)
    (htidied : Tidied top s) {call : BuddyCall} (hstep : s.step call = some t) : Tidied top t := by
  rcases h.step_cases hfits hstep with rfl | ⟨order, addr, o, b, halloc, rfl⟩ |
    ⟨addr, order, b, hlive, hfrees, rfl⟩
  · exact htidied
  · refine ⟨allocates_tidy halloc htidied.free, forall_mem_cons.mpr ⟨?_, htidied.live⟩⟩
    exact aligned_lower halloc.le (htidied.free.aligned _ halloc.block)
  · refine ⟨frees_tidy hfrees h.maxOrder htidied.free (htidied.live (addr, order) hlive),
      fun p hp => ?_⟩
    exact htidied.live p (mem_of_mem_erase hp)

end Buddies

/-! ### A new allocator is merged -/

variable {addr remaining addr' remaining' base top o fuel totalPages maxOrder : Nat} {lists lists' : List (List Nat)}

theorem fillLoop_tidy (h : fillLoop o fuel lists addr remaining = some (lists', addr', remaining'))
    (ho : o < lists.length) (htidy : Tidy (top + 12) (blocks lists)) (haligned : 2 ^ (o + 12) ∣ addr)
    (hone : o < top → remaining < 2 ^ o ∨ (lists.getD o [] = [] ∧ remaining < 2 ^ (o + 1))) :
    Tidy (top + 12) (blocks lists') ∧ 2 ^ (o + 12) ∣ addr' ∧
      ∀ c, c ≠ o → lists'.getD c [] = lists.getD c [] := by
  induction fuel generalizing lists addr remaining with
  | zero =>
    cases h
    exact ⟨htidy, haligned, fun _ _ => rfl⟩
  | succ fuel ih =>
    rw [fillLoop] at h
    by_cases hle : 2 ^ o ≤ remaining
    · rw [if_pos hle, Option.bind_eq_some_iff] at h
      obtain ⟨next, hnext, hrest⟩ := h
      obtain ⟨rfl, _⟩ := add?_eq_some hnext
      have hpush : Tidy (top + 12) (blocks (pushBlock lists o addr)) := by
        have hcons : Tidy (top + 12) (blockAt addr o :: blocks lists) := by
          refine htidy.cons haligned fun hlt hbuddy => ?_
          rcases hone (Nat.lt_of_add_lt_add_right hlt) with hsmall | ⟨hnil, _⟩
          · omega
          · have hmem : addr ^^^ 2 ^ (o + 12) ∈ lists.getD o [] := mem_blocks.mp hbuddy
            rw [hnil] at hmem
            exact absurd hmem not_mem_nil
        exact hcons.subset fun c hc => (blocks_push ho addr).mem_iff.mp hc
      have hnext' : 2 ^ (o + 12) ∣ addr + 2 ^ o * pageSz := by
        rw [block_size]
        exact haligned.add (dvd_refl _)
      obtain ⟨htidy', haligned', hother⟩ := ih hrest (by rw [length_push]; exact ho) hpush hnext'
        fun hlt => .inl (by have := hone hlt; rw [Nat.pow_succ] at this; omega)
      refine ⟨htidy', haligned', fun c hc => ?_⟩
      rw [hother c hc, getD_eq_getElem?_getD, pushBlock, getElem?_modify,
        getD_eq_getElem?_getD]
      simp [Ne.symm hc]
    · rw [if_neg hle] at h
      cases h
      exact ⟨htidy, haligned, fun _ _ => rfl⟩

theorem fillDown_tidy (h : fillDown o lists addr remaining = some (lists', addr', remaining'))
    (ho : o < lists.length) (hrem : remaining < 2 ^ o) (hfilled : Filled base lists addr)
    (htidy : Tidy (top + 12) (blocks lists)) (haligned : 2 ^ (o + 12) ∣ addr)
    (hempty : ∀ c < o, lists.getD c [] = []) : Tidy (top + 12) (blocks lists') := by
  induction o generalizing lists addr remaining with
  | zero =>
    cases h
    exact htidy
  | succ o ih =>
    rw [fillDown, Option.bind_eq_some_iff] at h
    obtain ⟨⟨lists₁, addr₁, remaining₁⟩, hloop, hrest⟩ := h
    have hlow : 2 ^ (o + 12) ∣ addr := (Nat.pow_dvd_pow 2 (by omega)).trans haligned
    obtain ⟨hfilled₁, hlen₁, hrem₁, _⟩ := fillLoop_ok hloop le_rfl (by omega) hfilled
    obtain ⟨htidy₁, haligned₁, hother⟩ := fillLoop_tidy hloop (by omega) htidy hlow
      fun _ => .inr ⟨hempty o (Nat.lt_succ_self o), hrem⟩
    refine ih hrest (show o < lists₁.length by omega) ?_ hfilled₁ htidy₁ haligned₁ fun c hc => ?_
    · rw [hrem₁]
      exact Nat.mod_lt _ (Nat.two_pow_pos o)
    · exact (hother c (by omega)).trans (hempty c (by omega))

theorem new_tidy {b : BuddyAllocator} (hbase : base < wordSize) (haligned : 2 ^ (maxOrder + 12) ∣ base)
    (h : BuddyAllocator.new base totalPages maxOrder = some b) :
    Tidy (maxOrder + 12) (blocks b.freeLists) := by
  rw [BuddyAllocator.new, Option.ite_none_left_eq_some] at h
  obtain ⟨⟨lists₁, addr₁, remaining₁⟩, hloop, hrest⟩ := Option.bind_eq_some_iff.mp h.2
  obtain ⟨⟨lists, addr, remaining⟩, hdown, rfl⟩ := Option.map_eq_some_iff.mp hrest
  have hlen : min (log2Floor totalPages) maxOrder < (List.replicate (maxOrder + 1) ([] : List Nat)).length := by
    rw [length_replicate]
    omega
  have hnil : ∀ c, (List.replicate (maxOrder + 1) ([] : List Nat)).getD c [] = [] := by
    intro c
    rw [getD_eq_getElem?_getD, getElem?_replicate]
    split <;> rfl
  have hstart : Tidy (maxOrder + 12) (blocks (List.replicate (maxOrder + 1) [])) := by
    rw [blocks_replicate]
    exact ⟨fun _ hb => absurd hb not_mem_nil, fun _ hb => absurd hb not_mem_nil⟩
  have hlow : 2 ^ (min (log2Floor totalPages) maxOrder + 12) ∣ base :=
    (Nat.pow_dvd_pow 2 (by omega)).trans haligned
  obtain ⟨hfilled₁, hlen₁, hrem₁, _⟩ := fillLoop_ok hloop le_rfl hlen (Filled.start hbase _)
  obtain ⟨htidy₁, haligned₁, hother⟩ := fillLoop_tidy hloop hlen hstart hlow fun hlt => by
    -- The highest order in use is below `maxOrder` only when it is that of the whole memory.
    have hfloor : min (log2Floor totalPages) maxOrder = log2Floor totalPages := by omega
    refine .inr ⟨hnil _, ?_⟩
    rw [hfloor, log2Floor]
    split
    · omega
    · exact Nat.lt_log2_self
  refine fillDown_tidy hdown (show _ < lists₁.length by omega) ?_ hfilled₁ htidy₁ haligned₁ fun c hc => ?_
  · rw [hrem₁]
    exact Nat.mod_lt _ (Nat.two_pow_pos _)
  · exact (hother c (by omega)).trans (hnil c)

namespace Buddies
variable {base totalPages maxOrder : Nat} {b : BuddyAllocator} {s : Buddies}

theorem tidied_run (hfresh : b.Fresh base totalPages maxOrder) (htidy : Tidy (maxOrder + 12) (blocks b.freeLists))
    {calls : List BuddyCall} (hrun : buddies.run ⟨b, []⟩ calls = some s) : Tidied maxOrder s := by
  have hinv := System.invariant_run (M := buddies)
    (I := fun s => Tiled base totalPages maxOrder s ∧ Tidied maxOrder s)
    (fun _ _ _ hs hstep => ⟨hs.1.step hfresh.fits hstep, hs.2.step hfresh.fits hs.1 hstep⟩)
    ⟨Tiled.new hfresh, htidy, fun _ hp => absurd hp not_mem_nil⟩ hrun
  exact hinv.2

/-- With nothing live the free blocks are the merged tiling of the memory. -/
theorem Tidied.merged (h : Tiled base totalPages maxOrder s) (htidied : Tidied maxOrder s)
    (hlive : s.live = []) : Merged (maxOrder + 12) base (totalPages * pageSz) (blocks s.alloc.freeLists) := by
  have htiles := h.tiles
  rw [all, liveBlocks, hlive, map_nil, append_nil] at htiles
  refine ⟨htiles, fun d hd => ?_, htidied.free⟩
  obtain ⟨o, ho, heq⟩ := mem_blocks_order hd
  rw [h.length] at ho
  rw [heq]
  exact Nat.add_le_add_right (Nat.le_of_lt_succ ho) 12

/-- **Full coalescing.** When the base is a multiple of the largest block, every run that leaves no
block live leaves on each free list the addresses that were there at the start. -/
theorem coalesces (hbase : base < wordSize) (haligned : pageSz * 2 ^ maxOrder ∣ base)
    (hnew : BuddyAllocator.new base totalPages maxOrder = some b) {calls : List BuddyCall}
    (hrun : buddies.run ⟨b, []⟩ calls = some s) (hlive : s.live = []) (o addr : Nat) :
    addr ∈ s.alloc.freeLists.getD o [] ↔ addr ∈ b.freeLists.getD o [] := by
  rw [Nat.mul_comm, block_size] at haligned
  have hfresh := BuddyAllocator.new_fresh hbase hnew
  have htidy := new_tidy hbase haligned hnew
  have hstart : Merged (maxOrder + 12) base (totalPages * pageSz) (blocks b.freeLists) :=
    Tidied.merged (Tiled.new hfresh) (tidied_run hfresh htidy (System.run_nil _ _)) rfl
  have hend := Tidied.merged (tiled_run hfresh hrun) (tidied_run hfresh htidy hrun) hlive
  rw [← mem_blocks, ← mem_blocks]
  exact hend.unique hstart _

/-- Five pages: a block of four that is split and merged again, and one page of its own. -/
theorem coalesces_five : ∃ b s, BuddyAllocator.new memOff 5 2 = some b ∧
    buddies.run ⟨b, []⟩ [.allocOrder 0, .allocOrder 0, .allocOrder 1, .freeOrder memOff 0,
      .freeOrder (memOff + 16384) 0, .freeOrder (memOff + 8192) 1] = some s ∧
    ∀ o addr, addr ∈ s.alloc.freeLists.getD o [] ↔ addr ∈ b.freeLists.getD o [] := by
  have hbase : memOff < wordSize := by decide +kernel
  have haligned : pageSz * 2 ^ 2 ∣ memOff := by decide +kernel
  have hrun : ((BuddyAllocator.new memOff 5 2).any fun b =>
      (buddies.run ⟨b, []⟩ [.allocOrder 0, .allocOrder 0, .allocOrder 1, .freeOrder memOff 0,
        .freeOrder (memOff + 16384) 0, .freeOrder (memOff + 8192) 1]).any fun s => s.live = []) = true := by
    decide +kernel
  simp only [Option.any_eq_true, decide_eq_true_eq] at hrun
  obtain ⟨b, hnew, s, hrun, hlive⟩ := hrun
  exact ⟨b, s, hnew, hrun, coalesces hbase haligned hnew hrun hlive⟩

end Buddies
end ChaosKernel.Memory
