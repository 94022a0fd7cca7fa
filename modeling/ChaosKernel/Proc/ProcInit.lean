import ChaosKernel.Base.Words

/-! The initial stack of a program.

`push_at` walks a pointer down from the top, over the strings and the tables of
pointers to them; `total_size` adds the same lengths up. The walk leaves room for the
first argument twice, which the sum counts once, and it goes over the strings with
subtractions that wrap. So the two agree only where the second copy of the first
argument fits into what the alignment drops (`pushAt_agrees_iff`). -/
namespace ChaosKernel.Proc
open Base Option List

structure ProcInit where
  args : List String
  envs : List String
  auxv : Std.ExtTreeMap UInt8 Nat

namespace ProcInit

/-- A string is no longer than the largest `isize`. -/
def Fits (init : ProcInit) : Prop := ∀ s ∈ init.args ++ init.envs, s.utf8ByteSize < 2 ^ 63

/-- Bytes in the first argument. -/
def a0l (init : ProcInit) : Nat := (init.args.head?.map String.utf8ByteSize).getD 0

/-- Below a string and the byte that ends it. -/
def below (sp : Nat) (s : String) : Nat := wrappingSub sp (s.utf8ByteSize + 1)

/-- `push_at`. -/
def pushAt (init : ProcInit) (top : Nat) : Option Nat := do
  let sp ← sub? top (init.a0l + 1)
  let sp := init.envs.foldl below sp
  let sp := init.args.foldl below sp
  let sp ← sub? sp ((init.auxv.size * 2 + 2) * 8)
  let sp ← sub? sp ((init.envs.length + 1) * 8)
  let sp ← sub? sp ((init.args.length + 1) * 8)
  let sp ← sub? sp 8
  let align := sp &&& 0xF
  pure (if align ≠ 0 then sp - align else sp)

/-- `total_size`. -/
def totalSize (init : ProcInit) : Option Nat := do
  let sz ← init.args.foldlM (fun sz a => add? sz (a.utf8ByteSize + 1)) 0
  let sz ← init.envs.foldlM (fun sz e => add? sz (e.utf8ByteSize + 1)) sz
  let words ← mul? (init.auxv.size * 2 + 2 + init.args.length + 1 + init.envs.length + 1 + 1) 8
  add? sz words

/-! ### The two layouts as sums -/

/-- Bytes in the strings, each with the byte that ends it. -/
def stringBytes (l : List String) : Nat := (l.map fun s => s.utf8ByteSize + 1).sum

/-- Bytes in the tables of pointers and in the auxiliary vector. -/
def tableBytes (init : ProcInit) : Nat :=
  (init.auxv.size * 2 + 2 + init.args.length + 1 + init.envs.length + 1 + 1) * 8

/-- What `total_size` adds up, as a number. -/
def size (init : ProcInit) : Nat := stringBytes init.args + stringBytes init.envs + init.tableBytes

/-- What `push_at` goes over before it aligns. -/
def pushed (init : ProcInit) : Nat := init.a0l + 1 + init.size

theorem stringBytes_cons (s : String) (l : List String) :
    stringBytes (s :: l) = s.utf8ByteSize + 1 + stringBytes l := by
  rw [stringBytes, map_cons, sum_cons]
  rfl

variable {l : List String} {sz n sp top lo len : Nat} {init : ProcInit}

theorem foldlM_add? (h : l.foldlM (fun sz s => add? sz (s.utf8ByteSize + 1)) sz = some n) :
    n = sz + stringBytes l := by
  induction l generalizing sz with
  | nil =>
    cases h
    rfl
  | cons s l ih =>
    rw [foldlM_cons] at h
    obtain ⟨sz', hsz, hrest⟩ := bind_eq_some_iff.mp h
    rw [ih hrest, (add?_eq_some hsz).1, stringBytes_cons]
    omega

theorem totalSize_eq (h : init.totalSize = some n) : n = init.size := by
  obtain ⟨args, hargs, h⟩ := bind_eq_some_iff.mp h
  obtain ⟨envs, henvs, h⟩ := bind_eq_some_iff.mp h
  obtain ⟨words, hwords, h⟩ := bind_eq_some_iff.mp h
  have hw : words = init.tableBytes := by
    rw [mul?, ite_none_right_eq_some] at hwords
    exact (some.inj hwords.2).symm
  rw [(add?_eq_some h).1, foldlM_add? henvs, foldlM_add? hargs, hw, size, Nat.zero_add]

/-- The walk over the strings goes down by their bytes, around the word if it has to. -/
theorem foldl_below (hl : ∀ s ∈ l, s.utf8ByteSize < 2 ^ 63) (hsp : sp < wordSize) :
    l.foldl below sp < wordSize ∧ (l.foldl below sp + stringBytes l) % wordSize = sp := by
  induction l generalizing sp with
  | nil => exact ⟨hsp, Nat.mod_eq_of_lt hsp⟩
  | cons s l ih =>
    have hs := hl s (mem_cons_self ..)
    have hbelow : below sp s < wordSize := Nat.mod_lt _ (by decide)
    obtain ⟨hlt, hmod⟩ := ih (fun s' hs' => hl s' (mem_cons_of_mem s hs')) hbelow
    refine ⟨hlt, ?_⟩
    rw [foldl_cons, stringBytes_cons]
    generalize l.foldl below (below sp s) = v at hmod ⊢
    calc (v + (s.utf8ByteSize + 1 + stringBytes l)) % wordSize
        = ((v + stringBytes l) % wordSize + (s.utf8ByteSize + 1)) % wordSize := by
          rw [Nat.mod_add_mod]
          congr 1
          omega
      _ = (sp + (wordSize - (s.utf8ByteSize + 1)) + (s.utf8ByteSize + 1)) % wordSize := by
          rw [hmod, below, wrappingSub, Nat.mod_add_mod]
      _ = (sp + wordSize) % wordSize := by
          congr 1
          unfold wordSize
          omega
      _ = sp := by rw [Nat.add_mod_right, Nat.mod_eq_of_lt hsp]

theorem align_eq (sp : Nat) : (if sp &&& 0xF ≠ 0 then sp - (sp &&& 0xF) else sp) = sp / 16 * 16 := by
  rw [show sp &&& 0xF = sp % 16 from Nat.and_two_pow_sub_one_eq_mod sp 4]
  split <;> omega

theorem sub?_chain (f : Nat → Nat) (v a b c d r : Nat) :
    (do let x ← sub? v a
        let x ← sub? x b
        let x ← sub? x c
        let x ← sub? x d
        pure (f x)) = some r ↔ a + b + c + d ≤ v ∧ f (v - (a + b + c + d)) = r := by
  simp only [sub?, bind_eq_bind, bind_eq_some_iff, ite_none_right_eq_some, Option.pure_def,
    some.injEq]
  constructor
  · intro ⟨v₁, ⟨h₁, hv₁⟩, v₂, ⟨h₂, hv₂⟩, v₃, ⟨h₃, hv₃⟩, v₄, ⟨h₄, hv₄⟩, hr⟩
    have hv : v - (a + b + c + d) = v₄ := by omega
    exact ⟨by omega, hv ▸ hr⟩
  · intro ⟨hroom, hr⟩
    have hv : v - a - b - c - d = v - (a + b + c + d) := by omega
    exact ⟨_, ⟨by omega, rfl⟩, _, ⟨by omega, rfl⟩, _, ⟨by omega, rfl⟩, _, ⟨by omega, rfl⟩, hv ▸ hr⟩

/-- Where the pointer ends up. Between the strings and the tables it is `v`. -/
theorem pushAt_eq_some (hfits : init.Fits) (htop : top < wordSize) (hfirst : init.a0l + 1 ≤ top) :
    ∃ v, v < wordSize ∧ (v + stringBytes init.args + stringBytes init.envs) % wordSize = top - (init.a0l + 1) ∧
      ∀ sp, init.pushAt top = some sp ↔ init.tableBytes ≤ v ∧ sp = (v - init.tableBytes) / 16 * 16 := by
  have hsp : top - (init.a0l + 1) < wordSize := by omega
  obtain ⟨henvs, henvsMod⟩ := foldl_below (fun s hs => hfits s (mem_append_right _ hs)) hsp
  obtain ⟨hargs, hargsMod⟩ := foldl_below (fun s hs => hfits s (mem_append_left _ hs)) henvs
  refine ⟨_, hargs, ?_, fun sp => ?_⟩
  · rw [Nat.add_mod, hargsMod, Nat.add_mod_mod, henvsMod]
  · rw [pushAt, sub?, if_pos hfirst]
    simp only [align_eq]
    refine (sub?_chain _ _ _ _ _ _ sp).trans ?_
    rw [show (init.auxv.size * 2 + 2) * 8 + (init.envs.length + 1) * 8 + (init.args.length + 1) * 8 + 8 =
      init.tableBytes by unfold tableBytes; omega, eq_comm]

theorem a0l_le (init : ProcInit) : init.a0l + 1 ≤ init.size := by
  unfold size tableBytes a0l
  cases init.args with
  | nil => simp only [head?_nil, map_none, getD_none]; omega
  | cons s l =>
    rw [stringBytes_cons]
    simp only [head?_cons, map_some, getD_some]
    omega

/-- The two layouts agree where the second copy of the first argument is lost in the alignment. -/
theorem pushAt_agrees_iff (hfits : init.Fits) (hroom : init.size + 16 ≤ top) (htop : top < wordSize) :
    (∃ sp, init.pushAt top = some sp ∧ IsGreatest {m | 16 ∣ m ∧ m ≤ top - init.size} sp) ↔
      init.a0l + 1 ≤ (top - init.size) % 16 := by
  have hfirst := init.a0l_le
  obtain ⟨v, hv, hmod, hpush⟩ := pushAt_eq_some hfits htop (by omega)
  have hgreatest : ∀ sp, IsGreatest {m | 16 ∣ m ∧ m ≤ top - init.size} sp ↔ sp = (top - init.size) / 16 * 16 := by
    have hlast : IsGreatest {m | 16 ∣ m ∧ m ≤ top - init.size} ((top - init.size) / 16 * 16) :=
      ⟨⟨Nat.dvd_mul_left .., Nat.div_mul_le_self ..⟩, fun m ⟨hdvd, hle⟩ => by omega⟩
    exact fun sp => ⟨fun h => h.unique hlast, fun h => h ▸ hlast⟩
  simp only [hpush, hgreatest, and_assoc, exists_and_left]
  unfold size at *
  -- Either the strings fit below the top, or the pointer went around the word once.
  have hwrap : v + stringBytes init.args + stringBytes init.envs = top - (init.a0l + 1) ∨
      v + stringBytes init.args + stringBytes init.envs = top - (init.a0l + 1) + wordSize := by
    unfold wordSize at htop hv hmod ⊢
    omega
  constructor
  · intro ⟨htables, sp, hsp, heq⟩
    rcases hwrap with hfits | hwrapped
    · omega
    · unfold wordSize at htop hwrapped
      omega
  · intro hle
    rcases hwrap with hfits | hwrapped
    · exact ⟨by omega, _, rfl, by omega⟩
    · unfold wordSize at hv hwrapped
      omega

/-- The pointer is in the stack when all that was pushed has its place there. -/
theorem pushAt_mem_iff (hfits : init.Fits) (htop : lo + len < wordSize) (hlo : 16 ∣ lo) (hlen : 16 ∣ len)
    (h : init.pushAt (lo + len) = some sp) :
    lo ≤ sp ∧ sp < lo + len ↔ 1 ≤ init.pushed % wordSize ∧ init.pushed % wordSize ≤ len := by
  have hfirst : init.a0l + 1 ≤ lo + len := by
    by_contra hlt
    rw [pushAt, sub?, if_neg hlt] at h
    cases h
  obtain ⟨v, hv, hmod, hpush⟩ := pushAt_eq_some hfits htop hfirst
  obtain ⟨htables, hsp⟩ := (hpush sp).mp h
  have hsum : (v - init.tableBytes + init.pushed) % wordSize = lo + len := by
    have hsplit : v - init.tableBytes + init.pushed =
        v + stringBytes init.args + stringBytes init.envs + (init.a0l + 1) := by
      unfold pushed size
      omega
    rw [hsplit, Nat.add_mod, hmod, Nat.mod_eq_of_lt (hfirst.trans_lt htop), Nat.sub_add_cancel hfirst,
      Nat.mod_eq_of_lt htop]
  have hq : init.pushed % wordSize < wordSize := Nat.mod_lt _ (by decide)
  rw [← Nat.add_mod_mod] at hsum
  generalize init.pushed % wordSize = q at hsum hq ⊢
  have hd : v - init.tableBytes < wordSize := by omega
  generalize v - init.tableBytes = d at hsum hsp hd
  unfold wordSize at htop hsum hq hd
  omega

end ProcInit
end ChaosKernel.Proc
