import ChaosKernel.Base.Dyadic
import ChaosKernel.Consts

/-! The buddy allocator.

`freeLists[o]` holds the addresses of the free blocks of `2^o` pages. An
allocation pops from the first non-empty list at or above its order and pushes the
upper halves it splits off; a free looks for the buddy, whose address differs in
the bit of the block size, and merges upwards. Addresses that are no words, and
shifts by more than the width of a word, panic, which is `none`.

Each function is described by what it does to the blocks on the lists
(`blocks`). -/
namespace ChaosKernel.Memory
open Base List Option

structure BuddyAllocator where
  freeLists : List (List Nat)
  maxOrder : Nat
  baseAddr : Nat
  totalPages : Nat
  allocated : Nat

/-- The position of the highest bit that is set. -/
def log2Floor (v : Nat) : Nat := if v = 0 then 0 else Nat.log2 v

/-- `1 << order`. -/
def shl? (order : Nat) : Option Nat := if order < 64 then some (2 ^ order) else none

/-- `free_lists[o].push(addr)`. -/
def pushBlock (lists : List (List Nat)) (o addr : Nat) : List (List Nat) :=
  lists.modify o fun l => l ++ [addr]

/-- `free_lists[o].pop()`. -/
def popBlock (lists : List (List Nat)) (o : Nat) : Option (Nat × List (List Nat)) :=
  (lists.getD o []).getLast?.map fun addr => (addr, lists.modify o List.dropLast)

/-- Blocks of order `o` from `addr` on, while the pages that remain allow one more. -/
def fillLoop (o : Nat) : Nat → List (List Nat) → Nat → Nat → Option (List (List Nat) × Nat × Nat)
  | 0, lists, addr, remaining => some (lists, addr, remaining)
  | fuel + 1, lists, addr, remaining =>
    if 2 ^ o ≤ remaining then
      (add? addr (2 ^ o * pageSz)).bind fun next =>
        fillLoop o fuel (pushBlock lists o addr) next (remaining - 2 ^ o)
    else some (lists, addr, remaining)

/-- The orders below `o`, from the highest down. -/
def fillDown : Nat → List (List Nat) → Nat → Nat → Option (List (List Nat) × Nat × Nat)
  | 0, lists, addr, remaining => some (lists, addr, remaining)
  | o + 1, lists, addr, remaining =>
    (fillLoop o remaining lists addr remaining).bind fun filled =>
      fillDown o filled.1 filled.2.1 filled.2.2

/-- The upper halves of the block at `addr`, split `d` times down to `order`. -/
def splitDown (order addr : Nat) : Nat → List (List Nat) → Option (List (List Nat))
  | 0, lists => some lists
  | d + 1, lists =>
    (add? addr (2 ^ (order + d) * pageSz)).bind fun buddy =>
      splitDown order addr d (pushBlock lists (order + d) buddy)

/-- The freed block after merging it with its buddies, with the orders that are left. -/
def mergeLoop : Nat → List (List Nat) → Nat → Nat → Option (List (List Nat) × Nat × Nat)
  | 0, lists, addr, order => some (lists, addr, order)
  | fuel + 1, lists, addr, order =>
    (add? 0 (2 ^ order * pageSz)).bind fun blockSize =>
      if addr ^^^ blockSize ∈ lists.getD order [] then
        mergeLoop fuel (lists.modify order fun l => l.erase (addr ^^^ blockSize))
          (min addr (addr ^^^ blockSize)) (order + 1)
      else some (lists, addr, order)

def countFrom : Nat → List (List Nat) → Nat → Option Nat
  | _, [], count => some count
  | order, list :: rest, count =>
    (shl? order).bind fun pages =>
      (add? count (list.length * pages)).bind fun count => countFrom (order + 1) rest count

namespace BuddyAllocator

/-- `Vec::with_capacity(max_order + 1)` panics where the lists, of 24 bytes each, are too many for a `Vec`. -/
def new (base totalPages maxOrder : Nat) : Option BuddyAllocator :=
  if 2 ^ 63 ≤ 24 * (maxOrder + 1) then none
  else
    let usableOrder := min (log2Floor totalPages) maxOrder
    (fillLoop usableOrder totalPages (List.replicate (maxOrder + 1) []) base totalPages).bind fun filled =>
      (fillDown usableOrder filled.1 filled.2.1 filled.2.2).map fun filled =>
        ⟨filled.1, maxOrder, base, totalPages, 0⟩

/-- The first order of the list with a free block serves the allocation. -/
def allocLoop (b : BuddyAllocator) (order : Nat) : List Nat → Option (Option Nat × BuddyAllocator)
  | [] => some (none, b)
  | o :: rest =>
    match popBlock b.freeLists o with
    | none => allocLoop b order rest
    | some (addr, lists) =>
      (splitDown order addr (o - order) lists).bind fun lists =>
        (shl? order).map fun pages =>
          (some addr, ⟨lists, b.maxOrder, b.baseAddr, b.totalPages, wrappingAdd b.allocated pages⟩)

def allocOrder (b : BuddyAllocator) (order : Nat) : Option (Option Nat × BuddyAllocator) :=
  if b.maxOrder < order then some (none, b)
  else b.allocLoop order (List.range' order (b.maxOrder + 1 - order))

def freeOrder (b : BuddyAllocator) (addr order : Nat) : Option BuddyAllocator :=
  if b.maxOrder < order then some b
  else
    (mergeLoop (b.maxOrder - order) b.freeLists addr order).bind fun merged =>
      (shl? order).map fun pages =>
        ⟨pushBlock merged.1 merged.2.2 merged.2.1, b.maxOrder, b.baseAddr, b.totalPages,
          wrappingSub b.allocated pages⟩

def freePagesCount (b : BuddyAllocator) : Option Nat := countFrom 0 b.freeLists 0

end BuddyAllocator

/-! ### The blocks on the lists -/

/-- The block of `2^order` pages at `addr`, in bytes. -/
def blockAt (addr order : Nat) : Dyad := ⟨addr, order + 12⟩

theorem block_size (order : Nat) : 2 ^ order * pageSz = 2 ^ (order + 12) := by
  rw [Nat.pow_add]
  rfl

/-- The blocks on lists whose first one has order `o`. -/
def blocksFrom (o : Nat) : List (List Nat) → List Dyad
  | [] => []
  | l :: rest => l.map (blockAt · o) ++ blocksFrom (o + 1) rest

def blocks (lists : List (List Nat)) : List Dyad := blocksFrom 0 lists

variable {o addr i order E d fuel : Nat} {lists : List (List Nat)} {b : Dyad} {l : List Nat}
  {f : List Nat → List Nat} {T : List Dyad}

theorem mem_blocksFrom :
    b ∈ blocksFrom o lists ↔ ∃ i l, lists[i]? = some l ∧ b.lo ∈ l ∧ b.order = o + i + 12 := by
  induction lists generalizing o with
  | nil => simp [blocksFrom]
  | cons l rest ih =>
    rw [blocksFrom, mem_append, ih, List.mem_map]
    constructor
    · intro h
      rcases h with ⟨addr, haddr, rfl⟩ | ⟨i, l', hl', hmem, horder⟩
      · exact ⟨0, l, rfl, haddr, rfl⟩
      · exact ⟨i + 1, l', hl', hmem, by omega⟩
    · intro h
      obtain ⟨i, l', hl', hmem, horder⟩ := h
      cases i with
      | zero =>
        cases hl'
        exact .inl ⟨b.lo, hmem, Dyad.ext rfl horder.symm⟩
      | succ i => exact .inr ⟨i, l', hl', hmem, by omega⟩

theorem mem_blocks : blockAt addr o ∈ blocks lists ↔ addr ∈ lists.getD o [] := by
  rw [blocks, mem_blocksFrom, getD_eq_getElem?_getD]
  constructor
  · intro h
    obtain ⟨i, l, hl, hmem, horder⟩ := h
    have : i = o := by
      simp only [blockAt] at horder
      omega
    rw [← this, hl]
    exact hmem
  · intro h
    cases hl : lists[o]? with
    | none =>
      rw [hl] at h
      exact absurd h not_mem_nil
    | some l =>
      rw [hl] at h
      exact ⟨o, l, hl, h, by simp [blockAt]⟩

theorem mem_blocks_order (h : b ∈ blocks lists) : ∃ o < lists.length, b = blockAt b.lo o := by
  obtain ⟨i, l, hl, _, horder⟩ := mem_blocksFrom.mp h
  exact ⟨i, (List.getElem?_eq_some_iff.mp hl).1, Dyad.ext rfl (by rw [horder, blockAt, Nat.zero_add])⟩

theorem blocks_modify (hl : lists[i]? = some l) :
    ∃ pre post, blocks lists = pre ++ l.map (blockAt · i) ++ post ∧
      ∀ f, blocks (lists.modify i f) = pre ++ (f l).map (blockAt · i) ++ post := by
  suffices hfrom : ∀ o, ∃ pre post, blocksFrom o lists = pre ++ l.map (blockAt · (o + i)) ++ post ∧
      ∀ f, blocksFrom o (lists.modify i f) = pre ++ (f l).map (blockAt · (o + i)) ++ post by
    simpa only [blocks, Nat.zero_add] using hfrom 0
  induction lists generalizing i with
  | nil => cases hl
  | cons l' rest ih =>
    intro o
    cases i with
    | zero =>
      cases hl
      exact ⟨[], blocksFrom (o + 1) rest, rfl, fun f => rfl⟩
    | succ i =>
      obtain ⟨pre, post, hsame, hmod⟩ := ih hl (o + 1)
      refine ⟨l'.map (blockAt · o) ++ pre, post, ?_, fun f => ?_⟩
      · rw [blocksFrom, hsame, show o + 1 + i = o + (i + 1) by omega]
        simp only [append_assoc]
      · rw [modify_succ_cons, blocksFrom, hmod, show o + 1 + i = o + (i + 1) by omega]
        simp only [append_assoc]

theorem blocks_modify_more (hl : lists[i]? = some l) (hf : (f l).Perm (addr :: l)) :
    (blocks (lists.modify i f)).Perm (blockAt addr i :: blocks lists) := by
  obtain ⟨pre, post, hsame, hmod⟩ := blocks_modify hl
  rw [hmod f, hsame, append_assoc, append_assoc]
  exact (((hf.map _).append_right post).append_left pre).trans perm_middle

theorem blocks_modify_less (hl : lists[i]? = some l) (hf : l.Perm (addr :: f l)) :
    (blocks lists).Perm (blockAt addr i :: blocks (lists.modify i f)) := by
  obtain ⟨pre, post, hsame, hmod⟩ := blocks_modify hl
  rw [hmod f, hsame, append_assoc, append_assoc]
  exact (((hf.map _).append_right post).append_left pre).trans perm_middle

theorem blocks_push (ho : o < lists.length) (addr : Nat) :
    (blocks (pushBlock lists o addr)).Perm (blockAt addr o :: blocks lists) :=
  blocks_modify_more (getElem?_eq_getElem ho) (perm_append_singleton addr _)

@[simp] theorem length_push (lists : List (List Nat)) (o addr : Nat) :
    (pushBlock lists o addr).length = lists.length := length_modify _ _ _

/-! ### Splitting and merging -/

theorem splitDown_spec (hend : addr + 2 ^ (order + d + 12) ≤ E) (hE : E < wordSize)
    (hlen : order + d < lists.length + 1) :
    ∃ lists', splitDown order addr d lists = some lists' ∧ lists'.length = lists.length ∧
      SameCells (blockAt addr (order + d) :: blocks lists) (blockAt addr order :: blocks lists') ∧
      ∀ c, lists'[c]? = if order ≤ c ∧ c < order + d
        then lists[c]?.map fun l => l ++ [addr + 2 ^ (c + 12)] else lists[c]? := by
  induction d generalizing lists with
  | zero =>
    refine ⟨lists, rfl, rfl, .of_perm (.refl _), fun c => ?_⟩
    rw [if_neg (by omega)]
  | succ d ih =>
    have hpos : 0 < 2 ^ (order + d + 12) := Nat.two_pow_pos _
    have hhalf : 2 ^ (order + (d + 1) + 12) = 2 ^ (order + d + 12) + 2 ^ (order + d + 12) := by
      rw [show order + (d + 1) + 12 = order + d + 12 + 1 by omega, Nat.pow_succ, Nat.mul_two]
    have hadd : add? addr (2 ^ (order + d) * pageSz) = some (addr + 2 ^ (order + d + 12)) := by
      rw [block_size, add?_of_lt (by omega)]
    have hpush : order + d < (pushBlock lists (order + d) (addr + 2 ^ (order + d + 12))).length + 1 := by
      rw [length_push]
      omega
    obtain ⟨lists', hsplit, hlen', hsame, hget⟩ := ih (by omega) hpush
    refine ⟨lists', ?_, by rw [hlen', length_push], ?_, fun c => ?_⟩
    · rw [splitDown, hadd]
      exact hsplit
    · refine SameCells.trans ?_ hsame
      refine (SameCells.split addr (order + d + 12) (blocks lists)).trans ?_
      exact (SameCells.of_perm (blocks_push (by omega) _).symm).cons _
    · rw [hget, pushBlock, getElem?_modify]
      by_cases hc : order + d = c
      · subst hc
        simp
      · by_cases hin : order ≤ c ∧ c < order + d
        · rw [if_pos hin, if_pos (by omega)]
          simp [hc]
        · rw [if_neg hin, if_neg (by omega)]
          simp [hc]

/-- Blocks that end at or before `E`. -/
def EndBy (E : Nat) (T : List Dyad) : Prop := ∀ b ∈ T, b.lo + 2 ^ b.order ≤ E

theorem EndBy.fits (h : EndBy E T) (hmem : blockAt addr order ∈ T) : addr + 2 ^ (order + 12) ≤ E := by
  have hb := h _ hmem
  simp only [blockAt] at hb
  exact hb

theorem EndBy.parent (h : EndBy E (b :: T)) (hbuddy : b.buddy ∈ T) :
    b.parent.lo + 2 ^ b.parent.order ≤ E := by
  have hb := h b mem_cons_self
  have hbud := h b.buddy (mem_cons_of_mem _ hbuddy)
  simp only [Dyad.buddy] at hbud
  have hdouble : 2 ^ b.parent.order = 2 ^ b.order + 2 ^ b.order := by
    rw [Dyad.parent, Nat.pow_succ, Nat.mul_two]
  have hlo : b.parent.lo = min b.lo (b.lo ^^^ 2 ^ b.order) := rfl
  rcases xor_two_pow b.lo b.order with ⟨_, hxor⟩ | ⟨_, hle, hxor⟩ <;> omega

theorem mergeLoop_spec (hend : EndBy E (blockAt addr order :: blocks lists)) (hE : E < wordSize)
    (hlen : order + fuel < lists.length) :
    ∃ lists' addr' order', mergeLoop fuel lists addr order = some (lists', addr', order') ∧
      lists'.length = lists.length ∧ order' ≤ order + fuel ∧
      SameCells (blockAt addr order :: blocks lists) (blockAt addr' order' :: blocks lists') ∧
      (∀ b ∈ blocks lists', b ∈ blocks lists) ∧
      (order' < order + fuel → (blockAt addr' order').buddy ∉ blocks lists') ∧
      ((blockAt addr order).Aligned → (blockAt addr' order').Aligned) := by
  induction fuel generalizing lists addr order with
  | zero =>
    exact ⟨lists, addr, order, rfl, rfl, le_rfl, .of_perm (.refl _), fun _ hb => hb,
      fun hlt => absurd hlt (Nat.lt_irrefl _), id⟩
  | succ fuel ih =>
    have hsize : 2 ^ (order + 12) ≤ E :=
      (Nat.le_add_left _ _).trans (hend.fits mem_cons_self)
    have hadd : add? 0 (2 ^ order * pageSz) = some (2 ^ (order + 12)) := by
      rw [block_size, add?_of_lt (by omega), Nat.zero_add]
    have hbuddy : (blockAt addr order).buddy = blockAt (addr ^^^ 2 ^ (order + 12)) order := rfl
    have hparent : (blockAt addr order).parent =
        blockAt (min addr (addr ^^^ 2 ^ (order + 12))) (order + 1) :=
      Dyad.ext rfl (show order + 12 + 1 = order + 1 + 12 by omega)
    rw [mergeLoop, hadd]
    simp only [bind_some]
    by_cases hmem : addr ^^^ 2 ^ (order + 12) ∈ lists.getD order []
    · rw [if_pos hmem]
      have hin : (blockAt addr order).buddy ∈ blocks lists := by
        rw [hbuddy]
        exact mem_blocks.mpr hmem
      have hget : lists[order]? = some (lists.getD order []) := by
        have hlt : order < lists.length := by omega
        rw [getD_eq_getElem?_getD, getElem?_eq_getElem hlt, getD_some]
      have hperm := blocks_modify_less (f := fun l => l.erase (addr ^^^ 2 ^ (order + 12))) hget
        (perm_cons_erase hmem)
      rw [← hbuddy] at hperm
      have hsub : ∀ b ∈ blocks (lists.modify order fun l => l.erase (addr ^^^ 2 ^ (order + 12))),
          b ∈ blocks lists :=
        fun b hb => hperm.mem_iff.mpr (mem_cons_of_mem _ hb)
      have hend' : EndBy E (blockAt (min addr (addr ^^^ 2 ^ (order + 12))) (order + 1) ::
          blocks (lists.modify order fun l => l.erase (addr ^^^ 2 ^ (order + 12)))) := by
        refine forall_mem_cons.mpr ⟨?_, fun b hb => hend b (mem_cons_of_mem _ (hsub b hb))⟩
        rw [← hparent]
        exact hend.parent hin
      obtain ⟨lists', addr', order', hloop, hlen', hle, hsame, hsub', hapart, haligned⟩ :=
        ih hend' (by rw [length_modify]; omega)
      refine ⟨lists', addr', order', hloop, by rw [hlen', length_modify], by omega, ?_,
        fun b hb => hsub b (hsub' b hb), fun hlt => hapart (by omega), fun h => ?_⟩
      · refine SameCells.trans ?_ hsame
        rw [← hparent]
        exact ((SameCells.of_perm hperm).cons _).trans (SameCells.merge _ _)
      · apply haligned
        rw [← hparent]
        exact h.parent
    · rw [if_neg hmem]
      refine ⟨lists, addr, order, rfl, rfl, by omega, .of_perm (.refl _), fun _ hb => hb,
        fun _ hin => hmem ?_, id⟩
      rw [hbuddy] at hin
      exact mem_blocks.mp hin

/-! ### Allocation and release -/

namespace BuddyAllocator

/-- What an allocator does not change. -/
structure SameShape (b b' : BuddyAllocator) : Prop where
  maxOrder : b'.maxOrder = b.maxOrder
  baseAddr : b'.baseAddr = b.baseAddr
  totalPages : b'.totalPages = b.totalPages
  length : b'.freeLists.length = b.freeLists.length

end BuddyAllocator

theorem popBlock_cases (lists : List (List Nat)) (o : Nat) :
    (popBlock lists o = none ∧ lists.getD o [] = []) ∨
      ∃ addr, popBlock lists o = some (addr, lists.modify o List.dropLast) ∧
        (blocks lists).Perm (blockAt addr o :: blocks (lists.modify o List.dropLast)) := by
  unfold popBlock
  cases hl : lists[o]? with
  | none =>
    rw [getD_eq_getElem?_getD, hl]
    exact .inl ⟨rfl, rfl⟩
  | some l =>
    rw [getD_eq_getElem?_getD, hl, getD_some]
    rcases eq_nil_or_concat' l with rfl | ⟨init, addr, rfl⟩
    · exact .inl ⟨rfl, rfl⟩
    · refine .inr ⟨addr, by rw [getLast?_concat]; rfl, blocks_modify_less hl ?_⟩
      rw [dropLast_concat]
      exact perm_append_singleton addr init

theorem shl?_of_size (hle : 2 ^ (order + 12) ≤ E) (hE : E < wordSize) : shl? order = some (2 ^ order) := by
  have hlt : 2 ^ (order + 12) < 2 ^ 64 := hle.trans_lt hE
  rw [Nat.pow_lt_pow_iff_right (by decide)] at hlt
  rw [shl?, if_pos (by omega)]

/-- The allocation took the block at `addr` out of the free ones. The lists between its order and the
order `o` of the block it split were empty and have got one half each. -/
structure BuddyAllocator.Allocates (b : BuddyAllocator) (order addr o : Nat) (b' : BuddyAllocator) :
    Prop where
  shape : b.SameShape b'
  allocated : b'.allocated = wrappingAdd b.allocated (2 ^ order)
  le : order ≤ o
  leMax : o ≤ b.maxOrder
  block : blockAt addr o ∈ blocks b.freeLists
  same : SameCells (blocks b.freeLists) (blockAt addr order :: blocks b'.freeLists)
  lists : ∀ c : Nat, b'.freeLists[c]? = if order ≤ c ∧ c < o then some [addr + 2 ^ (c + 12)]
    else if c = o then b.freeLists[o]?.map List.dropLast else b.freeLists[c]?

/-- The block at `addr` joined the free ones. It was merged into one block, whose buddy is not free. -/
structure BuddyAllocator.Frees (b : BuddyAllocator) (addr order : Nat) (b' : BuddyAllocator) : Prop where
  shape : b.SameShape b'
  allocated : b'.allocated = wrappingSub b.allocated (2 ^ order)
  same : SameCells (blockAt addr order :: blocks b.freeLists) (blocks b'.freeLists)
  merged : ∃ addr' order' rest, (blocks b'.freeLists).Perm (blockAt addr' order' :: rest) ∧
    (∀ c ∈ rest, c ∈ blocks b.freeLists) ∧
    (order' < b.maxOrder → (blockAt addr' order').buddy ∉ rest) ∧
    ((blockAt addr order).Aligned → (blockAt addr' order').Aligned)

section Calls
variable {b : BuddyAllocator} {E : Nat} (hE : E < wordSize) (hlen : b.freeLists.length = b.maxOrder + 1)
include hE hlen

variable {order n start : Nat}

/-- The loop from order `start` on, the lists from `order` up to there being empty. -/
theorem allocLoop_spec (hend : EndBy E (blocks b.freeLists)) (hstart : start + n = b.maxOrder + 1)
    (hle : order ≤ start) (hempty : ∀ c, order ≤ c → c < start → b.freeLists.getD c [] = []) :
    b.allocLoop order (List.range' start n) = some (none, b) ∨
      ∃ addr o b', b.allocLoop order (List.range' start n) = some (some addr, b') ∧
        b.Allocates order addr o b' := by
  induction n generalizing start with
  | zero => exact .inl rfl
  | succ n ih =>
    rw [range'_succ, BuddyAllocator.allocLoop]
    rcases popBlock_cases b.freeLists start with ⟨hpop, hnil⟩ | ⟨addr, hpop, hperm⟩
    · rw [hpop]
      refine ih (by omega) (by omega) fun c hc hlt => ?_
      by_cases hcs : c = start
      · rw [hcs]
        exact hnil
      · exact hempty c hc (by omega)
    · rw [hpop]
      have hblock : blockAt addr start ∈ blocks b.freeLists := hperm.mem_iff.mpr mem_cons_self
      have hfits := hend.fits hblock
      have hsum : order + (start - order) = start := by omega
      have hfits' : addr + 2 ^ (order + (start - order) + 12) ≤ E := by
        rw [hsum]
        exact hfits
      have hrange : order + (start - order) < (b.freeLists.modify start List.dropLast).length + 1 := by
        rw [length_modify]
        omega
      obtain ⟨lists, hsplit, hlen', hsame, hget⟩ := splitDown_spec hfits' hE hrange
      have hpages : shl? order = some (2 ^ order) := by
        refine shl?_of_size (le_trans ?_ ((Nat.le_add_left _ _).trans hfits)) hE
        exact Nat.pow_le_pow_right (by decide) (by omega)
      simp only [hsplit, hpages, bind_some, map_some]
      rw [hsum] at hsame hget
      refine .inr ⟨addr, start, _, rfl, ⟨rfl, rfl, rfl, by rw [hlen', length_modify]⟩, rfl, hle,
        by omega, hblock, (SameCells.of_perm hperm).trans hsame, fun c => ?_⟩
      rw [hget c, getElem?_modify]
      by_cases hin : order ≤ c ∧ c < start
      · have hc : b.freeLists[c]? = some [] := by
          have hnil := hempty c hin.1 hin.2
          rw [getD_eq_getElem?_getD, getElem?_eq_getElem (by omega), getD_some] at hnil
          rw [getElem?_eq_getElem (by omega), hnil]
        rw [if_pos hin, if_pos hin, hc]
        simp [show start ≠ c by omega]
      · rw [if_neg hin, if_neg hin]
        by_cases hc : c = start
        · simp [hc]
        · simp [hc, Ne.symm hc]

theorem allocOrder_spec (hend : EndBy E (blocks b.freeLists)) (order : Nat) :
    b.allocOrder order = some (none, b) ∨
      ∃ addr o b', b.allocOrder order = some (some addr, b') ∧ b.Allocates order addr o b' := by
  rw [BuddyAllocator.allocOrder]
  by_cases hmax : b.maxOrder < order
  · rw [if_pos hmax]
    exact .inl rfl
  · rw [if_neg hmax]
    exact allocLoop_spec hE hlen hend (by omega) le_rfl fun c hle hlt => absurd hlt (by omega)

theorem freeOrder_spec (hend : EndBy E (blockAt addr order :: blocks b.freeLists))
    (horder : order ≤ b.maxOrder) : ∃ b', b.freeOrder addr order = some b' ∧ b.Frees addr order b' := by
  have hsum : order + (b.maxOrder - order) = b.maxOrder := by omega
  have hrange : order + (b.maxOrder - order) < b.freeLists.length := by omega
  obtain ⟨lists, addr', order', hloop, hlen', hle, hsame, hsub, hapart, haligned⟩ :=
    mergeLoop_spec hend hE hrange
  have hpages : shl? order = some (2 ^ order) :=
    shl?_of_size ((Nat.le_add_left _ _).trans (hend.fits mem_cons_self)) hE
  have hperm := blocks_push (show order' < lists.length by omega) addr'
  rw [hsum] at hapart
  refine ⟨⟨pushBlock lists order' addr', b.maxOrder, b.baseAddr, b.totalPages,
    wrappingSub b.allocated (2 ^ order)⟩, ?_, ⟨rfl, rfl, rfl, ?_⟩, rfl, ?_,
    addr', order', blocks lists, hperm, hsub, hapart, haligned⟩
  · rw [BuddyAllocator.freeOrder, if_neg (by omega), hloop]
    simp only [bind_some, hpages, map_some]
  · rw [length_push, hlen']
  · exact hsame.trans (SameCells.of_perm hperm.symm)

end Calls
end ChaosKernel.Memory
