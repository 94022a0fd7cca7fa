import ChaosKernel.Base.Sharing
import ChaosKernel.Proc.UserMemory

/-! User memory as bytes at addresses.

`image` is the byte a table of pages and a pool show at an address: the byte of
the frame behind the page, and zero where no frame is. The copy loops read and
write images: `copyFromLoop_image` and `copyToLoop_image` say so for ranges that
may cross any number of pages. A write goes to the image of one task only because
the frames it goes to are that task's alone. -/
namespace ChaosKernel.Proc
open Base Memory List

/-- The byte at `addr` of a page table. -/
def image (cow : Nat → Option PgFrame) (pool : FramePool) (addr : Nat) : UInt8 :=
  match cow (pageAddr addr) with
  | some frame => (pool.readFrame frame.frameId).bytes.getD (addr % pageSz) 0
  | none => 0

/-! ### Places in a page -/

theorem pageAddr_add_mod (addr : Nat) : pageAddr addr + addr % pageSz = addr := by
  have := Nat.mod_le addr pageSz
  unfold pageAddr
  omega

/-- The addresses of one round of a copy: all of them lie in the page of the first. -/
theorem same_page {addr n a : Nat} (hn : n ≤ pageSz - addr % pageSz) (hlo : addr ≤ a)
    (hhi : a < addr + n) : pageAddr a = pageAddr addr ∧ a % pageSz = addr % pageSz + (a - addr) := by
  simp only [pageAddr, pageSz] at *
  omega

/-! ### Reading -/

section Reading
variable {cow : BTreeMap PgFrame} {pool : FramePool} {start : Nat}
variable {addr offset fuel : Nat} {buf buf' : Bytes}

theorem image_none (h : cow[pageAddr addr]? = none) : image (fun q => cow[q]?) pool addr = 0 := by
  simp only [image, h]

theorem image_some {frame : PgFrame} (h : cow[pageAddr addr]? = some frame) :
    (pool.readFrame frame.frameId).bytes[addr % pageSz]? =
      some (image (fun q => cow[q]?) pool addr) := by
  have hlt : addr % pageSz < (pool.readFrame frame.frameId).bytes.length := by
    rw [(pool.readFrame frame.frameId).size]
    exact Nat.mod_lt _ (by decide)
  simp only [image, h, getD_eq_getElem?_getD, getElem?_eq_getElem hlt, Option.getD_some]

variable (cow pool) in
/-- One round of a copy out of user memory: the part of the range that lies in one page. -/
theorem copyFromLoop_round (fuel : Nat) (hmore : offset < buf.length)
    (hrange : start + buf.length ≤ wordSize)
    (hzero : ∀ i, offset ≤ i → i < buf.length → cow[pageAddr (start + i)]? = none → buf[i]? = some 0) :
    ∃ n filled, 0 < n ∧ offset + n ≤ buf.length ∧
      Kernel.copyFromLoop cow pool start (fuel + 1) offset buf =
        Kernel.copyFromLoop cow pool start fuel (offset + n) filled ∧
      filled.length = buf.length ∧ ∀ i, i < buf.length → filled[i]? =
        if offset ≤ i ∧ i < offset + n then some (image (fun q => cow[q]?) pool (start + i)) else buf[i]? := by
  have hadd : add? start offset = some (start + offset) := if_pos (by omega)
  have hmod : (start + offset) % pageSz < pageSz := Nat.mod_lt _ (by decide)
  generalize hn : min (buf.length - offset) (pageSz - (start + offset) % pageSz) = n
  have hround : ∀ i, offset ≤ i ∧ i < offset + n → pageAddr (start + i) = pageAddr (start + offset) ∧
      (start + i) % pageSz = (start + offset) % pageSz + (i - offset) := by
    intro i hi
    have hplace := same_page (show n ≤ pageSz - (start + offset) % pageSz by omega)
      (show start + offset ≤ start + i by omega) (by omega)
    rwa [show start + i - (start + offset) = i - offset by omega] at hplace
  rw [Kernel.copyFromLoop]
  simp only [if_pos hmore, hadd, hn]
  cases hpage : cow[pageAddr (start + offset)]? with
  | none =>
    refine ⟨n, buf, by omega, by omega, rfl, rfl, fun i hi => ?_⟩
    by_cases hin : offset ≤ i ∧ i < offset + n
    · have hnone : cow[pageAddr (start + i)]? = none := by rw [(hround i hin).1]; exact hpage
      rw [if_pos hin, hzero i hin.1 hi hnone, image_none hnone]
    · rw [if_neg hin]
  | some frame =>
    have hpart : (((pool.readFrame frame.frameId).bytes.drop
        ((start + offset) % pageSz)).take n).length = offset + n - offset := by
      rw [length_take, length_drop, (pool.readFrame frame.frameId).size]
      omega
    obtain ⟨filled, hover, hlen, hget⟩ := overwrite?_spec (Nat.le_add_right offset n)
      (show offset + n ≤ buf.length by omega) hpart
    simp only [hover]
    refine ⟨n, filled, by omega, by omega, rfl, hlen, fun i _ => ?_⟩
    rw [hget]
    by_cases hin : offset ≤ i ∧ i < offset + n
    · rw [if_pos hin, if_pos hin, getElem?_take_of_lt (by omega), getElem?_drop,
        ← (hround i hin).2, image_some (by rw [(hround i hin).1]; exact hpage)]
    · rw [if_neg hin, if_neg hin]

variable (cow pool start) in
/-- A copy out of user memory fills a buffer with the bytes of the image, if the buffer is zero
wherever no frame is. -/
theorem copyFromLoop_image (fuel offset : Nat) (buf : Bytes) (hoffset : offset ≤ buf.length)
    (hfuel : buf.length < offset + fuel) (hrange : start + buf.length ≤ wordSize)
    (hzero : ∀ i, offset ≤ i → i < buf.length → cow[pageAddr (start + i)]? = none → buf[i]? = some 0) :
    ∃ buf', Kernel.copyFromLoop cow pool start fuel offset buf = .ok buf' ∧
      buf'.length = buf.length ∧ ∀ i, i < buf.length → buf'[i]? =
        if offset ≤ i then some (image (fun q => cow[q]?) pool (start + i)) else buf[i]? := by
  induction fuel generalizing offset buf with
  | zero => omega
  | succ fuel ih =>
    by_cases hmore : offset < buf.length
    · obtain ⟨n, filled, hpos, hend, hloop, hlen, hfilled⟩ := copyFromLoop_round cow pool fuel hmore hrange hzero
      obtain ⟨buf', hrest, hlen', hbytes⟩ := ih (offset + n) filled (by omega) (by omega) (by omega)
        fun i hlo hi hnone => by
          rw [hfilled i (by omega), if_neg (by omega)]
          exact hzero i (by omega) (by omega) hnone
      refine ⟨buf', hloop.trans hrest, hlen'.trans hlen, fun i hi => ?_⟩
      rw [hbytes i (by omega), hfilled i hi]
      by_cases hlo : offset ≤ i
      · by_cases hhi : offset + n ≤ i
        · rw [if_pos hhi, if_pos hlo]
        · rw [if_neg hhi, if_pos (by omega), if_pos hlo]
      · rw [if_neg (by omega), if_neg (by omega), if_neg hlo]
    · refine ⟨buf, ?_, rfl, fun i hi => ?_⟩
      · rw [Kernel.copyFromLoop, if_neg hmore]
      · rw [if_neg (by omega)]

/-- A range that reaches past the last address is never read to its end. -/
theorem copyFromLoop_range (hoffset : start + offset ≤ wordSize)
    (h : Kernel.copyFromLoop cow pool start fuel offset buf = .ok buf') :
    start + buf.length ≤ wordSize := by
  induction fuel generalizing offset buf with
  | zero => cases h
  | succ fuel ih =>
    unfold Kernel.copyFromLoop at h
    split at h
    · rename_i hmore
      split at h
      · cases h
      · rename_i addr hadd
        obtain ⟨rfl, hlt⟩ := add?_eq_some hadd
        have hnext : start + (offset + min (buf.length - offset)
            (pageSz - (start + offset) % pageSz)) ≤ wordSize := by
          simp only [wordSize, pageSz] at *
          omega
        dsimp only at h
        split at h
        · exact ih hnext h
        · split at h
          · cases h
          · rename_i frame _ _ buf'' hover
            simp only [overwrite?, Option.ite_none_right_eq_some, Option.some.injEq] at hover
            obtain ⟨⟨_, hhi, hlen⟩, rfl⟩ := hover
            have := ih hnext h
            simp only [length_append, length_take, length_drop,
              (pool.readFrame frame.frameId).size] at this hlen
            omega
    · omega

end Reading

/-! ### Writing -/

section Writing
variable {table : Nat → Nat → Option PgFrame} {t : Nat}
variable {pool pool' : FramePool} {fuel offset : Nat}

/-- A write into a frame that is one task's alone changes that task's image, and no other. -/
theorem image_writeFrame {addr : Nat} {frame : PgFrame} {part : Bytes}
    (hexcl : Exclusive PgFrame.frameId table t (pageAddr addr) frame)
    (hpart : part.length ≤ pageSz - addr % pageSz)
    (hwrite : pool.writeFrame frame.frameId (addr % pageSz) part = some pool') (y a : Nat) :
    image (table y) pool' a =
      if y = t ∧ addr ≤ a ∧ a < addr + part.length then part.getD (a - addr) 0
      else image (table y) pool a := by
  cases hentry : table y (pageAddr a) with
  | none =>
    have hout : ¬(y = t ∧ addr ≤ a ∧ a < addr + part.length) := by
      rintro ⟨rfl, hlo, hhi⟩
      rw [(same_page hpart hlo hhi).1, hexcl.1] at hentry
      cases hentry
    simp only [if_neg hout, image, hentry]
  | some other =>
    have hframe : other.frameId = frame.frameId ↔ y = t ∧ pageAddr a = pageAddr addr := by
      refine ⟨hexcl.2 y _ other hentry, ?_⟩
      rintro ⟨rfl, hpage⟩
      rw [hpage, hexcl.1] at hentry
      rw [Option.some.inj hentry]
    have hmod : a % pageSz < pageSz := Nat.mod_lt _ (by decide)
    have hiff : (other.frameId = frame.frameId ∧ addr % pageSz ≤ a % pageSz ∧
        a % pageSz < addr % pageSz + min part.length (pageSz - addr % pageSz)) ↔
          (y = t ∧ addr ≤ a ∧ a < addr + part.length) := by
      rw [hframe, min_eq_left hpart]
      constructor
      · rintro ⟨⟨rfl, hpage⟩, hlo, hhi⟩
        have h1 := pageAddr_add_mod a
        have h2 := pageAddr_add_mod addr
        exact ⟨rfl, by omega, by omega⟩
      · rintro ⟨rfl, hlo, hhi⟩
        obtain ⟨hpage, hplace⟩ := same_page hpart hlo hhi
        exact ⟨⟨rfl, hpage⟩, by omega, by omega⟩
    simp only [image, hentry, getD_eq_getElem?_getD, FramePool.readFrame_writeFrame hwrite, hiff]
    by_cases hin : y = t ∧ addr ≤ a ∧ a < addr + part.length
    · rw [if_pos hin, if_pos hin, (same_page hpart hin.2.1 hin.2.2).2, Nat.add_sub_cancel_left]
    · rw [if_neg hin, if_neg hin]

variable {cow : BTreeMap PgFrame} {start : Nat} {data : Bytes}

/-- A copy into user memory changes the bytes of the range in the image of the task, given that
all frames behind the range are that task's alone. -/
theorem copyToLoop_image (hcow : ∀ q, table t q = cow[q]?)
    (hexcl : ∀ a, start + offset ≤ a → a < start + data.length →
      ∃ frame, Exclusive PgFrame.frameId table t (pageAddr a) frame)
    (h : Kernel.copyToLoop cow start data fuel offset pool = (.ok (), pool')) (y a : Nat) :
    image (table y) pool' a =
      if y = t ∧ start + offset ≤ a ∧ a < start + data.length then data.getD (a - start) 0
      else image (table y) pool a := by
  induction fuel generalizing offset pool with
  | zero => cases h
  | succ fuel ih =>
    unfold Kernel.copyToLoop at h
    split at h
    · rename_i hmore
      split at h
      · cases h
      · rename_i addr hadd
        obtain ⟨rfl, hlt⟩ := add?_eq_some hadd
        have hmod : (start + offset) % pageSz < pageSz := Nat.mod_lt _ (by decide)
        generalize hn : min (data.length - offset) (pageSz - (start + offset) % pageSz) = n at h
        obtain ⟨frame, hframe⟩ := hexcl (start + offset) (le_refl _) (by omega)
        have hpage : cow[pageAddr (start + offset)]? = some frame := by
          rw [← hcow]
          exact hframe.1
        simp only [hn, hpage] at h
        split at h
        · cases h
        · rename_i pool₁ hwrite
          have hlen : ((data.drop offset).take n).length = n := by
            rw [length_take, length_drop]
            omega
          have hone := image_writeFrame hframe (by omega) hwrite y a
          rw [hlen] at hone
          rw [ih (fun a hlo hhi => hexcl a (by omega) hhi) h, hone]
          by_cases hin : y = t ∧ start + (offset + n) ≤ a ∧ a < start + data.length
          · rw [if_pos hin, if_pos (by omega)]
          · rw [if_neg hin]
            by_cases hround : y = t ∧ start + offset ≤ a ∧ a < start + offset + n
            · rw [if_pos hround, if_pos (by omega)]
              simp only [getD_eq_getElem?_getD]
              rw [getElem?_take_of_lt (by omega), getElem?_drop]
              congr 2
              omega
            · rw [if_neg hround, if_neg (by omega)]
    · cases h
      rw [if_neg (by omega)]

theorem copyToLoop_frames {res : Except (Stop Errno) Unit}
    (h : Kernel.copyToLoop cow start data fuel offset pool = (res, pool')) :
    pool'.slots = pool.slots ∧
      ∀ f, (∀ a, start + offset ≤ a → a < start + data.length →
          ∀ e : PgFrame, cow[pageAddr a]? = some e → e.frameId ≠ f) →
        pool'.readFrame f = pool.readFrame f := by
  induction fuel generalizing offset pool with
  | zero =>
    cases h
    exact ⟨rfl, fun _ _ => rfl⟩
  | succ fuel ih =>
    unfold Kernel.copyToLoop at h
    split at h
    · next hmore =>
      split at h
      · cases h
        exact ⟨rfl, fun _ _ => rfl⟩
      · next addr hadd =>
        obtain ⟨rfl, hlt⟩ := add?_eq_some hadd
        dsimp only at h
        split at h
        · obtain ⟨hslots, hread⟩ := ih h
          exact ⟨hslots, fun f hf => hread f fun a hlo => hf a (by omega)⟩
        · next frame hpage =>
          split at h
          · cases h
            exact ⟨rfl, fun _ _ => rfl⟩
          · next pool₁ hwrite =>
            obtain ⟨hslots, hread⟩ := ih h
            obtain ⟨hle, rfl⟩ := FramePool.writeFrame_eq_some hwrite
            refine ⟨hslots, fun f hf => (hread f fun a hlo => hf a (by omega)).trans ?_⟩
            have hne : frame.frameId ≠ f := hf (start + offset) (le_refl _) (by omega) frame hpage
            simp only [FramePool.readFrame, get_insert, if_neg hne]
    · cases h
      exact ⟨rfl, fun _ _ => rfl⟩

theorem copyToLoop_ok (hrange : start + data.length ≤ wordSize) (hoffset : offset ≤ data.length)
    (hfuel : data.length < offset + fuel) (pool : FramePool) :
    (Kernel.copyToLoop cow start data fuel offset pool).1 = .ok () := by
  induction fuel generalizing offset pool with
  | zero => omega
  | succ fuel ih =>
    unfold Kernel.copyToLoop
    by_cases hmore : offset < data.length
    · have hmod : (start + offset) % pageSz < pageSz := Nat.mod_lt _ (by decide)
      simp only [if_pos hmore, add?_of_lt (show start + offset < wordSize by omega)]
      generalize hn : min (data.length - offset) (pageSz - (start + offset) % pageSz) = n
      cases hpage : cow[pageAddr (start + offset)]? with
      | none => exact ih (by omega) (by omega) pool
      | some frame =>
        simp only [FramePool.writeFrame, dif_pos (le_of_lt hmod)]
        exact ih (by omega) (by omega) _
    · rw [if_neg hmore]

/-- A range that reaches past the last address is never written to its end. -/
theorem copyToLoop_range (hoffset : start + offset ≤ wordSize)
    (h : Kernel.copyToLoop cow start data fuel offset pool = (.ok (), pool')) :
    start + data.length ≤ wordSize := by
  induction fuel generalizing offset pool with
  | zero => cases h
  | succ fuel ih =>
    unfold Kernel.copyToLoop at h
    split at h
    · rename_i hmore
      split at h
      · cases h
      · rename_i addr hadd
        obtain ⟨rfl, hlt⟩ := add?_eq_some hadd
        have hnext : start + (offset + min (data.length - offset)
            (pageSz - (start + offset) % pageSz)) ≤ wordSize := by
          simp only [wordSize, pageSz] at *
          omega
        dsimp only at h
        split at h
        · exact ih hnext h
        · split at h
          · cases h
          · exact ih hnext h
    · omega

end Writing
end ChaosKernel.Proc
