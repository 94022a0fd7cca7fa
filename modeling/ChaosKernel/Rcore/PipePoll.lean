import ChaosKernel.Base.Run
import ChaosKernel.Base.Rust

/-! Polling the read end of a pipe.

A poll of the future of `async_poll` takes the lock of the pipe twice: to test whether
there is something to read, and, if there is not, to subscribe its waker. The event
bus runs what is subscribed only when its bits change. So a writer that comes between
the two sections is missed, and so is one that finds `READABLE` set already
(`sleeps_through_data`). Where no writer comes between them and nobody writes nothing
into an empty pipe, a poll that is pending is woken (`reader_woken`). -/
namespace ChaosKernel.Rcore
open Base

/-- The bits of `Event` that a pipe sets. -/
structure Event where
  readable : Bool
  closed : Bool
  deriving DecidableEq, Repr

/-- How far the reader's last poll came. -/
inductive Polled where
  | ready
  /-- It found nothing to read and has not subscribed yet. -/
  | tested
  | pending
  deriving DecidableEq, Repr

/-- A pipe, with its reader. Every callback of the bus wakes the reader and goes. -/
structure PipeData where
  buf : Bytes
  event : Event
  callbacks : Nat
  endCnt : Int
  polled : Polled
  /-- The waker of the last poll that was pending was woken since. -/
  woken : Bool
  deriving DecidableEq, Repr

namespace PipeData

/-- `create_pair`. -/
def createPair : PipeData := ⟨[], ⟨false, false⟩, 0, 2, .ready, false⟩

/-- `EventBus::change`, by the new bits. -/
def change (data : PipeData) (new : Event) : PipeData :=
  if new ≠ data.event then
    {data with event := new, callbacks := 0, woken := data.woken || data.callbacks ≠ 0}
  else
    data

/-- `can_read` of the read end. -/
def canRead (data : PipeData) : Bool := data.buf.length > 0 || data.endCnt < 2

/-- `read_at` of the read end, with a buffer of `len` bytes. -/
def readAt (data : PipeData) (len : Nat) : PipeData :=
  if len = 0 ∨ (data.buf.length = 0 ∧ data.endCnt = 2) then
    data
  else
    let data := {data with buf := data.buf.drop len}
    if data.buf.length = 0 then data.change {data.event with readable := false} else data

/-- `write_at` of the write end. -/
def writeAt (data : PipeData) (bytes : Bytes) : PipeData :=
  {data with buf := data.buf ++ bytes}.change {data.event with readable := true}

/-- `drop` of the write end. -/
def dropWrite (data : PipeData) : PipeData :=
  {data with endCnt := data.endCnt - 1}.change {data.event with closed := true}

end PipeData

/-- A section under the lock. -/
inductive PipeSection where
  /-- The reader polls, and tests. -/
  | test
  /-- The poll goes on, and subscribes. -/
  | subscribe
  | read (len : Nat)
  | write (bytes : Bytes)
  | dropWrite

def pipeStep (data : PipeData) : PipeSection → Option PipeData
  | .test => if data.polled = .tested then none
    else some {data with polled := if data.canRead then .ready else .tested}
  | .subscribe => if data.polled = .tested then
      some {data with callbacks := data.callbacks + 1, polled := .pending, woken := false}
    else none
  | .read len => if data.polled = .tested then none else some (data.readAt len)
  | .write bytes => if data.endCnt = 2 then some (data.writeAt bytes) else none
  | .dropWrite => if data.endCnt = 2 then some data.dropWrite else none

def pipePolls : System PipeData PipeSection := ⟨pipeStep⟩

/-- The reader sleeps although there are bytes, or the write end is gone. -/
def PipeData.Stuck (data : PipeData) : Prop :=
  data.polled = .pending ∧ data.woken = false ∧ (data.buf ≠ [] ∨ data.endCnt < 2)

instance (data : PipeData) : Decidable data.Stuck := inferInstanceAs (Decidable (_ ∧ _))

/-- No writer comes between the sections of a poll, and none leaves the pipe empty. -/
def PipeData.Fits (data : PipeData) : PipeSection → Prop
  | .write bytes => data.polled ≠ .tested ∧ data.buf ++ bytes ≠ []
  | .dropWrite => data.polled ≠ .tested
  | _ => True

instance (data : PipeData) : (step : PipeSection) → Decidable (data.Fits step)
  | .write _ => inferInstanceAs (Decidable (_ ∧ _))
  | .dropWrite => inferInstanceAs (Decidable (_ ≠ _))
  | .test | .subscribe | .read _ => isTrue trivial

/-- What holds as long as the sections fit. -/
structure PipeData.Watched (data : PipeData) : Prop where
  readable : data.event.readable = true ↔ data.buf ≠ []
  closed : data.event.closed = true ↔ data.endCnt < 2
  ends : data.endCnt ≤ 2
  tested : data.polled = .tested → data.buf = [] ∧ data.endCnt = 2
  asleep : data.polled = .pending → data.woken = false →
    data.callbacks ≠ 0 ∧ data.buf = [] ∧ data.endCnt = 2

namespace PipeData
variable {data : PipeData}

theorem Watched.not_stuck (h : data.Watched) : ¬data.Stuck := by
  intro ⟨hpending, hwoken, hready⟩
  obtain ⟨_, hbuf, hends⟩ := h.asleep hpending hwoken
  rcases hready with hne | hlt
  · exact hne hbuf
  · omega

theorem change_watched {new : Event} (hreadable : new.readable = true ↔ data.buf ≠ [])
    (hclosed : new.closed = true ↔ data.endCnt < 2) (hends : data.endCnt ≤ 2) (hphase : data.polled ≠ .tested)
    (hasleep : data.polled = .pending → data.woken = false → data.callbacks ≠ 0 ∧
      (new = data.event → data.buf = [] ∧ data.endCnt = 2)) : (data.change new).Watched := by
  unfold change
  split
  · refine ⟨hreadable, hclosed, hends, fun h => absurd h hphase, fun hpending hwoken => ?_⟩
    obtain ⟨hold, hnone⟩ := Bool.or_eq_false_iff.mp hwoken
    exact absurd (of_decide_eq_false hnone) (not_not.mpr (hasleep hpending hold).1)
  · next heq =>
    have heq := not_not.mp heq
    refine ⟨heq ▸ hreadable, heq ▸ hclosed, hends, fun h => absurd h hphase, fun hpending hwoken => ?_⟩
    exact ⟨(hasleep hpending hwoken).1, (hasleep hpending hwoken).2 heq⟩

theorem readAt_watched (h : data.Watched) (hphase : data.polled ≠ .tested) (len : Nat) :
    (data.readAt len).Watched := by
  unfold readAt
  split
  · exact h
  · next hread =>
    -- a reader that is asleep has nothing to read
    have hawake : data.polled = .pending → data.woken = false → False := fun hpending hwoken => by
      obtain ⟨_, hbuf, hends⟩ := h.asleep hpending hwoken
      exact hread (.inr ⟨by rw [hbuf]; rfl, hends⟩)
    dsimp only
    split
    · next hempty =>
      have hbuf : data.buf.drop len = [] := List.length_eq_zero_iff.mp hempty
      exact change_watched (by simp [hbuf]) h.closed h.ends hphase fun hp hw => (hawake hp hw).elim
    · next hne =>
      have hleft : data.buf.drop len ≠ [] := fun hnil => hne (List.length_eq_zero_iff.mpr hnil)
      have hold : data.buf ≠ [] := fun hnil => hleft (by rw [hnil, List.drop_nil])
      exact ⟨iff_of_true (h.readable.mpr hold) hleft, h.closed, h.ends, fun ht => absurd ht hphase,
        fun hp hw => (hawake hp hw).elim⟩

theorem writeAt_watched (h : data.Watched) {bytes : Bytes} (hphase : data.polled ≠ .tested)
    (hbytes : data.buf ++ bytes ≠ []) : (data.writeAt bytes).Watched := by
  refine change_watched (iff_of_true rfl hbytes) h.closed h.ends hphase fun hpending hwoken => ?_
  obtain ⟨hcallbacks, hbuf, _⟩ := h.asleep hpending hwoken
  refine ⟨hcallbacks, fun heq => ?_⟩
  exact absurd hbuf (h.readable.mp (congrArg Event.readable heq).symm)

theorem dropWrite_watched (h : data.Watched) (hopen : data.endCnt = 2) (hphase : data.polled ≠ .tested) :
    data.dropWrite.Watched := by
  have hlt : data.endCnt - 1 < 2 := by omega
  refine change_watched h.readable (iff_of_true rfl hlt) hlt.le hphase fun hpending hwoken => ?_
  refine ⟨(h.asleep hpending hwoken).1, fun heq => ?_⟩
  have := h.closed.mp (congrArg Event.closed heq).symm
  omega

theorem Watched.step (h : data.Watched) {section' : PipeSection} {next : PipeData} (hfits : data.Fits section')
    (hstep : pipeStep data section' = some next) : next.Watched := by
  cases section' with
  | test =>
    obtain ⟨hphase, hnext⟩ := Option.ite_none_left_eq_some.mp hstep
    cases hnext
    by_cases hread : data.canRead = true
    · rw [if_pos hread]
      exact ⟨h.readable, h.closed, h.ends, fun ht => (by cases ht), fun hp => (by cases hp)⟩
    · rw [if_neg hread]
      simp only [canRead, Bool.or_eq_true, decide_eq_true_eq, not_or, Nat.not_lt, Int.not_lt] at hread
      have hbuf : data.buf = [] := List.length_eq_zero_iff.mp (Nat.le_zero.mp hread.1)
      have hends : data.endCnt = 2 := le_antisymm h.ends hread.2
      exact ⟨h.readable, h.closed, h.ends, fun _ => ⟨hbuf, hends⟩, fun hp => (by cases hp)⟩
  | subscribe =>
    obtain ⟨hphase, hnext⟩ := Option.ite_none_right_eq_some.mp hstep
    cases hnext
    exact ⟨h.readable, h.closed, h.ends, fun ht => (by cases ht), fun _ _ => ⟨Nat.succ_ne_zero _, h.tested hphase⟩⟩
  | read len =>
    obtain ⟨hphase, hnext⟩ := Option.ite_none_left_eq_some.mp hstep
    cases hnext
    exact readAt_watched h hphase len
  | write bytes =>
    obtain ⟨_, hnext⟩ := Option.ite_none_right_eq_some.mp hstep
    cases hnext
    exact writeAt_watched h hfits.1 hfits.2
  | dropWrite =>
    obtain ⟨hopen, hnext⟩ := Option.ite_none_right_eq_some.mp hstep
    cases hnext
    exact dropWrite_watched h hopen hfits

theorem createPair_watched : createPair.Watched := by
  constructor <;> simp [createPair]

end PipeData

/-- **A pending poll is woken.** In every interleaving in which no writer comes between the two sections of a
poll and nothing is not written into an empty pipe, no state has the reader asleep with bytes to read or with
the write end gone. -/
theorem reader_woken {sections : List PipeSection}
    (hfits : pipePolls.Guarded PipeData.Fits .createPair sections) :
    pipePolls.Always (fun data => ¬data.Stuck) .createPair sections := by
  have hwatched : pipePolls.Always PipeData.Watched .createPair sections :=
    System.always_of_guarded (fun data _ next h hfits hstep => h.step hfits hstep) PipeData.createPair_watched hfits
  exact fun done data hpre hrun => (hwatched done data hpre hrun).not_stuck

theorem reader_woken_one : ∃ data, pipePolls.run .createPair [.test, .subscribe, .write [7]] = some data ∧
    data.polled = .pending ∧ ¬data.Stuck := by
  have hfits : pipePolls.Guarded PipeData.Fits .createPair [.test, .subscribe, .write [7]] := by decide
  have hpending : ((pipePolls.run .createPair [.test, .subscribe, .write [7]]).any fun data =>
    data.polled = .pending) = true := by decide
  obtain ⟨data, hrun, hpending⟩ := System.exists_of_run_any hpending
  exact ⟨data, hrun, hpending, reader_woken hfits _ data (List.prefix_refl _) hrun⟩

/-- A byte that is written between the sections of the first poll; and one that is written after the reader
subscribed, when an empty write had set `READABLE`. -/
theorem sleeps_through_data :
    ((pipePolls.run .createPair [.test, .write [7], .subscribe]).any fun data => data.Stuck) = true ∧
    ((pipePolls.run .createPair [.write [], .test, .subscribe, .write [7]]).any fun data => data.Stuck) = true := by
  decide

end ChaosKernel.Rcore
