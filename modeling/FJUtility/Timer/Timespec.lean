import Mathlib.Algebra.Group.Int.Defs
import FJUtility.Timer.Loop

/- The deadline of a timed wait. _get_future_timespec counts it from CLOCK_MONOTONIC_RAW; a
   condition variable with default attributes measures it on CLOCK_REALTIME. -/
namespace TimerTimespec
open TimerLoop

@[ext]
structure Timespec where
  sec : Int
  nsec : Int
  deriving DecidableEq, Repr

/-- A result in int64_t and in uint64_t; long is 64 bits wide. -/
def toInt64 (n : Int) : Int := (n + 2 ^ 63) % 2 ^ 64 - 2 ^ 63

def toUInt64 (n : Int) : Int := n % 2 ^ 64

/-- _get_time in milliseconds, from the same clock as the deadline. -/
def getTime (now : Timespec) : Int :=
  toInt64 (toUInt64 (toUInt64 (toUInt64 now.sec * 1000) + toUInt64 now.nsec / 1000000))

/-- now is the reading of CLOCK_MONOTONIC_RAW. The nanoseconds are computed in unsigned long long
    and stored in a long. -/
def getFutureTimespec (now : Timespec) (timeoutMsec : Int) : Timespec :=
  let sec := toInt64 (now.sec + timeoutMsec.tdiv 1000)
  let nsec := toInt64 (toUInt64 (toUInt64 now.nsec +
    toUInt64 (toUInt64 (timeoutMsec.tmod 1000) * 1000000)))
  if toUInt64 nsec ≥ 1000000000 then
    ⟨toInt64 (sec + 1), toInt64 (toUInt64 (toUInt64 nsec - 1000000000))⟩
  else ⟨sec, nsec⟩

/-- What clock_gettime stores: seconds in a time_t, and nanoseconds below one second. -/
structure Reading extends Timespec where
  lower : -2 ^ 63 ≤ sec
  upper : sec < 2 ^ 63
  nonnegative : 0 ≤ nsec
  normalised : nsec < 1000000000

def instant (t : Timespec) : Int := t.sec * 1000000000 + t.nsec

/-- The wait that timerThread computes, and the one that waitResult does. -/
def timerWait (now : Int) (timers : List TimerInfo) : Int :=
  let wait := nextExec (now + maxTickMsec) timers - now
  if wait < minTickMsec then minTickMsec else wait

def resultWait (elapsed : Int) : Int := if elapsed > 33 then 33 else elapsed

/-- An unsignalled pthread_cond_timedwait comes back when the clock has reached the deadline. -/
def ComesBack (deadline : Timespec) (at_ : Reading) : Prop :=
  instant deadline ≤ instant at_.toTimespec

instance (deadline : Timespec) (at_ : Reading) : Decidable (ComesBack deadline at_) :=
  inferInstanceAs (Decidable (_ ≤ _))

/-- A wait of w msec that begins when the two clocks show realtime and raw. -/
structure OnTime (realtime raw : Reading) (w : Int) : Prop where
  nonnegative : 0 ≤ (getFutureTimespec raw.toTimespec w).nsec
  normalised : (getFutureTimespec raw.toTimespec w).nsec < 1000000000
  exact_ : instant (getFutureTimespec raw.toTimespec w) =
    instant realtime.toTimespec + w * 1000000
  notEarly : ∀ at_, ComesBack (getFutureTimespec raw.toTimespec w) at_ →
    instant realtime.toTimespec + w * 1000000 ≤ instant at_.toTimespec

theorem nextExec_le (limit : Int) (timers : List TimerInfo) : nextExec limit timers ≤ limit := by
  unfold nextExec
  induction timers generalizing limit with
  | nil => exact Int.le_refl _
  | cons t rest ih =>
    rw [List.foldl_cons]
    apply Int.le_trans (ih _)
    split
    · rename_i sooner
      simp only [Bool.and_eq_true, decide_eq_true_eq] at sooner
      omega
    · exact Int.le_refl _

theorem timerWait_pass (now start : Int) (s : State) :
    (pass now start s).pos = .waiting (start + timerWait now s.timers) := rfl

theorem timerWait_bounds (now : Int) (timers : List TimerInfo) :
    minTickMsec ≤ timerWait now timers ∧ timerWait now timers ≤ maxTickMsec := by
  have limit := nextExec_le (now + maxTickMsec) timers
  unfold timerWait
  dsimp only
  split
  · exact ⟨Int.le_refl _, by decide⟩
  · constructor
    · omega
    · omega

theorem resultWait_bounds {elapsed : Int} (passed : 0 ≤ elapsed) :
    0 ≤ resultWait elapsed ∧ resultWait elapsed ≤ 33 := by
  unfold resultWait
  split
  · omega
  · omega

theorem toUInt64_small {n : Int} (lower : 0 ≤ n) (upper : n < 2 ^ 64) : toUInt64 n = n :=
  Int.emod_eq_of_lt lower upper

theorem toInt64_small {n : Int} (lower : -2 ^ 63 ≤ n) (upper : n < 2 ^ 63) : toInt64 n = n := by
  unfold toInt64
  rw [Int.emod_eq_of_lt (by omega) (by omega)]
  omega

theorem toInt64_succ (n : Int) : toInt64 (toInt64 n + 1) = toInt64 (n + 1) := by
  unfold toInt64
  omega

theorem toInt64_eq {n : Int} (lower : -2 ^ 63 ≤ n) : toInt64 n = n ↔ n < 2 ^ 63 := by
  unfold toInt64
  omega

/-- The seconds and the nanoseconds of the deadline; only the seconds can leave their type. -/
theorem getFutureTimespec_eq (raw : Reading) {w : Int} (positive : 0 ≤ w) :
    getFutureTimespec raw.toTimespec w =
      ⟨toInt64 ((instant raw.toTimespec + w * 1000000) / 1000000000),
        (instant raw.toTimespec + w * 1000000) % 1000000000⟩ := by
  obtain ⟨⟨sec, nsec⟩, lower, upper, nonnegative, normalised⟩ := raw
  dsimp only at lower upper nonnegative normalised
  have least := Int.emod_nonneg w (b := 1000) (by decide)
  have below := Int.emod_lt_of_pos w (b := 1000) (by decide)
  have whole := Int.mul_ediv_add_emod w 1000
  simp only [getFutureTimespec, instant]
  rw [Int.tdiv_eq_ediv_of_nonneg positive, Int.tmod_eq_emod_of_nonneg positive]
  generalize w / 1000 = q at whole ⊢
  generalize w % 1000 = m at least below whole ⊢
  rw [toUInt64_small (n := m) (by omega) (by omega),
    toUInt64_small (n := nsec) (by omega) (by omega),
    toUInt64_small (n := m * 1000000) (by omega) (by omega),
    toUInt64_small (n := nsec + m * 1000000) (by omega) (by omega),
    toInt64_small (n := nsec + m * 1000000) (by omega) (by omega),
    toUInt64_small (n := nsec + m * 1000000) (by omega) (by omega)]
  have total : sec * 1000000000 + nsec + w * 1000000 =
      (nsec + m * 1000000) + (sec + q) * 1000000000 := by omega
  rw [total, Int.add_mul_ediv_right _ _ (by decide), Int.add_mul_emod_self_right]
  split
  · rename_i carries
    rw [toInt64_succ, toUInt64_small (n := nsec + m * 1000000 - 1000000000) (by omega) (by omega),
      toInt64_small (n := nsec + m * 1000000 - 1000000000) (by omega) (by omega)]
    congr 1
    · congr 1
      omega
    · omega
  · rename_i fits
    congr 1
    · congr 1
      omega
    · omega

theorem instant_injective {a b : Reading} (same : instant a.toTimespec = instant b.toTimespec) :
    a.toTimespec = b.toTimespec := by
  have first := a.nonnegative
  have second := b.nonnegative
  have below := a.normalised
  have below' := b.normalised
  unfold instant at same
  apply Timespec.ext
  · omega
  · omega

/-- Seconds that have wrapped lie further back than any reading. -/
theorem unwrapped {realtime raw : Reading} {d : Int}
    (same : instant realtime.toTimespec = instant raw.toTimespec + (toInt64 d - d) * 1000000000) :
    d < 2 ^ 63 := by
  have back := realtime.lower
  have small := realtime.nonnegative
  have upper := raw.upper
  have normalised := raw.normalised
  unfold instant toInt64 at same
  omega

def deadlineSec (raw : Reading) (w : Int) : Int :=
  (instant raw.toTimespec + w * 1000000) / 1000000000

theorem deadlineSec_lower (raw : Reading) {w : Int} (positive : 0 ≤ w) :
    -2 ^ 63 ≤ deadlineSec raw w := by
  have least := raw.lower
  have small := raw.nonnegative
  simp only [deadlineSec, instant]
  omega

theorem instant_future (raw : Reading) {w : Int} (positive : 0 ≤ w) :
    instant (getFutureTimespec raw.toTimespec w) = instant raw.toTimespec + w * 1000000 +
      (toInt64 (deadlineSec raw w) - deadlineSec raw w) * 1000000000 := by
  rw [getFutureTimespec_eq raw positive]
  unfold deadlineSec
  generalize instant raw.toTimespec + w * 1000000 = t
  simp only [instant]
  omega

/-- The deadline of a wait is on time exactly if the two clocks show the same time at its
    beginning, and the deadline's seconds fit a time_t. -/
theorem deadline_on_time (realtime raw : Reading) {w : Int} (positive : 0 ≤ w) :
    OnTime realtime raw w ↔
      realtime.toTimespec = raw.toTimespec ∧ deadlineSec raw w < 2 ^ 63 := by
  have future := instant_future raw positive
  have lower := deadlineSec_lower raw positive
  constructor
  · rintro ⟨_, _, same, _⟩
    have shifted : instant realtime.toTimespec = instant raw.toTimespec +
        (toInt64 (deadlineSec raw w) - deadlineSec raw w) * 1000000000 := by omega
    have fits := unwrapped shifted
    rw [(toInt64_eq lower).mpr fits, Int.sub_self, Int.zero_mul, Int.add_zero] at shifted
    exact ⟨instant_injective shifted, fits⟩
  · rintro ⟨same, fits⟩
    have exact_ : instant (getFutureTimespec raw.toTimespec w) =
        instant realtime.toTimespec + w * 1000000 := by
      rw [future, (toInt64_eq lower).mpr fits, same]
      omega
    refine ⟨?_, ?_, exact_, fun at_ back => ?_⟩
    · rw [getFutureTimespec_eq raw positive]
      exact Int.emod_nonneg _ (by decide)
    · rw [getFutureTimespec_eq raw positive]
      exact Int.emod_lt_of_pos _ (by decide)
    · rw [← exact_]
      exact back

def wallClock : Reading := ⟨⟨1700000000, 250000000⟩, by decide, by decide, by decide, by decide⟩

def sinceBoot : Reading := ⟨⟨1000, 999000000⟩, by decide, by decide, by decide, by decide⟩

/-- The clock has passed the deadline of an idle timer thread before its wait begins. -/
theorem idle_wait_ends_at_once :
    ¬ OnTime wallClock sinceBoot (timerWait (getTime sinceBoot.toTimespec) []) := by
  intro onTime
  have early := onTime.notEarly wallClock (by decide)
  exact absurd early (by decide)

theorem computed_waits_on_time :
    (OnTime sinceBoot sinceBoot (timerWait (getTime sinceBoot.toTimespec) []) ↔
      sinceBoot.toTimespec = sinceBoot.toTimespec ∧
        deadlineSec sinceBoot (timerWait (getTime sinceBoot.toTimespec) []) < 2 ^ 63) ∧
    (OnTime wallClock sinceBoot (resultWait 20) ↔
      wallClock.toTimespec = sinceBoot.toTimespec ∧
        deadlineSec sinceBoot (resultWait 20) < 2 ^ 63) :=
  ⟨deadline_on_time _ _ (Int.le_trans (by decide) (timerWait_bounds _ _).1),
    deadline_on_time _ _ (resultWait_bounds (by decide)).1⟩

end TimerTimespec
