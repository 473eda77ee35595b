import Mathlib.Data.List.GetD
import Mathlib.Data.Nat.Find
import FJUtility.SharedMem.Shutdown

/- The loop in which a destructor waits for the worker it has stopped. A pass looks at
   worker_done_ under the proAtom's mutex_ and joins the worker, or sleeps; the limit is
   compared before i is counted up, and the warning depends on where i stands at the end. -/
namespace SharedJoinLoop
open LabelledMachine SharedRegion SharedProcesses SharedSteps SharedShutdown

inductive Effect where
  | polled (done : Bool)
  | joined
  | slept
  | warned
  deriving DecidableEq, Repr

theorem counted_up {i limit : UInt32} (below : i < limit) : (i + 1).toNat = i.toNat + 1 := by
  have within := UInt32.lt_iff_toNat_lt.mp below
  have width := limit.toNat_lt
  rw [UInt32.toNat_add]
  apply Nat.mod_eq_of_lt
  rw [UInt32.toNat_one]
  omega

/-- The loop from a pass with counter i on, and the counter behind it; seen k is what the pass
    after k more passes finds in worker_done_. -/
def joinLoop (timeoutMs : UInt32) (seen : Nat → Bool) (i : UInt32) : List Effect × UInt32 :=
  if seen 0 then ([.polled true, .joined], i)
  else if i < timeoutMs then
    let (later, stop) := joinLoop timeoutMs (fun k => seen (k + 1)) (i + 1)
    (.polled false :: .slept :: later, stop)
  -- i++ counts this pass too, so that i does not stop at timeoutMs here
  else ([.polled false, .slept], i + 1)
termination_by timeoutMs.toNat - i.toNat
decreasing_by
  rename_i below
  have within := UInt32.lt_iff_toNat_lt.mp below
  rw [counted_up below]
  omega

def joinWorker (timeoutMs : UInt32) (seen : Nat → Bool) : List Effect :=
  let (effects, i) := joinLoop timeoutMs seen 0
  effects ++ if i = timeoutMs then [.warned] else []

def Effect.isPoll : Effect → Bool
  | .polled _ => true
  | _ => false

def polls (effects : List Effect) : Nat := effects.countP Effect.isPoll

/-- What the destructor reports is what it did. -/
structure Truthful (timeoutMs : UInt32) (seen : Nat → Bool) (effects : List Effect) : Prop where
  bounded : polls effects ≤ timeoutMs.toNat + 1
  once : effects.count .joined = if ∃ k < polls effects, seen k = true then 1 else 0
  warns : .warned ∈ effects ↔ .joined ∉ effects

def idle : Nat → List Effect
  | 0 => []
  | count + 1 => .polled false :: .slept :: idle count

@[simp] theorem polls_idle (count : Nat) : polls (idle count) = count := by
  induction count with
  | zero => rfl
  | succ count ih => simpa [idle, polls, Effect.isPoll, List.countP_cons] using ih

theorem polls_append (first second : List Effect) :
    polls (first ++ second) = polls first + polls second :=
  List.countP_append

theorem idle_effect {count : Nat} {effect : Effect} (member : effect ∈ idle count) :
    effect = .polled false ∨ effect = .slept := by
  induction count with
  | zero => simp [idle] at member
  | succ count ih =>
    simp only [idle, List.mem_cons] at member
    rcases member with first | second | later
    · exact Or.inl first
    · exact Or.inr second
    · exact ih later

section Passes
variable {timeoutMs i : UInt32} {seen : Nat → Bool}

theorem joinLoop_hit (done : seen 0 = true) :
    joinLoop timeoutMs seen i = ([.polled true, .joined], i) := by
  rw [joinLoop, if_pos done]

theorem joinLoop_pass (running : seen 0 = false) (within : i < timeoutMs) :
    joinLoop timeoutMs seen i =
      (.polled false :: .slept :: (joinLoop timeoutMs (fun k => seen (k + 1)) (i + 1)).1,
        (joinLoop timeoutMs (fun k => seen (k + 1)) (i + 1)).2) := by
  rw [joinLoop, if_neg (by simp [running]), if_pos within]

theorem joinLoop_last (running : seen 0 = false) (limit : ¬ i < timeoutMs) :
    joinLoop timeoutMs seen i = ([.polled false, .slept], i + 1) := by
  rw [joinLoop, if_neg (by simp [running]), if_neg limit]

theorem joinLoop_joins {k : Nat} (within : i.toNat + k ≤ timeoutMs.toNat) (done : seen k = true)
    (before : ∀ j < k, seen j = false) :
    joinLoop timeoutMs seen i = (idle k ++ [.polled true, .joined], i + UInt32.ofNat k) := by
  induction k generalizing i seen with
  | zero =>
    rw [joinLoop_hit done]
    simp [idle]
  | succ k ih =>
    have early : i < timeoutMs := by
      rw [UInt32.lt_iff_toNat_lt]
      omega
    have counted := counted_up early
    rw [joinLoop_pass (before 0 (by omega)) early,
      ih (i := i + 1) (by omega) done (fun j below => before (j + 1) (by omega))]
    simp only [idle, List.cons_append, Prod.mk.injEq, true_and]
    rw [UInt32.ofNat_add, UInt32.add_assoc, UInt32.add_comm 1]
    rfl

theorem joinLoop_misses {rest : Nat} (limit : i.toNat + rest = timeoutMs.toNat)
    (never : ∀ j ≤ rest, seen j = false) :
    joinLoop timeoutMs seen i = (idle (rest + 1), timeoutMs + 1) := by
  induction rest generalizing i seen with
  | zero =>
    have last : i = timeoutMs := UInt32.toNat_inj.mp limit
    rw [joinLoop_last (never 0 (Nat.le_refl 0)) (by rw [last]; exact UInt32.lt_irrefl _), last]
    rfl
  | succ rest ih =>
    have early : i < timeoutMs := by
      rw [UInt32.lt_iff_toNat_lt]
      omega
    have counted := counted_up early
    rw [joinLoop_pass (never 0 (by omega)) early,
      ih (i := i + 1) (by omega) (fun j below => never (j + 1) (by omega))]
    rfl

end Passes

inductive Ran (timeoutMs : UInt32) (seen : Nat → Bool) : List Effect → Prop where
  | hit {k : Nat} (within : k ≤ timeoutMs.toNat) (done : seen k = true)
      (before : ∀ j < k, seen j = false) :
      Ran timeoutMs seen
        (idle k ++ [.polled true, .joined] ++ if k = timeoutMs.toNat then [.warned] else [])
  | missed (never : ∀ k ≤ timeoutMs.toNat, seen k = false) :
      Ran timeoutMs seen (idle (timeoutMs.toNat + 1))

theorem first_done {seen : Nat → Bool} {limit : Nat} (some_ : ∃ k ≤ limit, seen k = true) :
    ∃ k ≤ limit, seen k = true ∧ ∀ j < k, seen j = false := by
  obtain ⟨k, within, done⟩ := some_
  have found : ∃ k, seen k = true := ⟨k, done⟩
  refine ⟨Nat.find found, ?_, Nat.find_spec found, ?_⟩
  · exact Nat.le_trans (Nat.find_min' found done) within
  · intro j below
    exact Bool.eq_false_iff.mpr (Nat.find_min found below)

theorem joinWorker_hit {timeoutMs : UInt32} {seen : Nat → Bool} {k : Nat}
    (within : k ≤ timeoutMs.toNat) (done : seen k = true) (before : ∀ j < k, seen j = false) :
    joinWorker timeoutMs seen =
      idle k ++ [.polled true, .joined] ++ if k = timeoutMs.toNat then [.warned] else [] := by
  have started : (0 : UInt32).toNat + k ≤ timeoutMs.toNat := by simpa using within
  have stop : (0 : UInt32) + UInt32.ofNat k = timeoutMs ↔ k = timeoutMs.toNat := by
    rw [UInt32.zero_add, ← UInt32.toNat_inj,
      UInt32.toNat_ofNat_of_lt' (Nat.lt_of_le_of_lt within timeoutMs.toNat_lt)]
  unfold joinWorker
  rw [joinLoop_joins started done before]
  simp only [stop]

theorem joinWorker_missed {timeoutMs : UInt32} {seen : Nat → Bool}
    (never : ∀ k ≤ timeoutMs.toNat, seen k = false) :
    joinWorker timeoutMs seen = idle (timeoutMs.toNat + 1) := by
  have past : timeoutMs + 1 ≠ timeoutMs := by simp
  unfold joinWorker
  rw [joinLoop_misses (Nat.zero_add timeoutMs.toNat) never]
  simp only [if_neg past, List.append_nil]

theorem joinWorker_ran (timeoutMs : UInt32) (seen : Nat → Bool) :
    Ran timeoutMs seen (joinWorker timeoutMs seen) := by
  by_cases some_ : ∃ k ≤ timeoutMs.toNat, seen k = true
  · obtain ⟨k, within, done, before⟩ := first_done some_
    rw [joinWorker_hit within done before]
    exact .hit within done before
  · have never : ∀ k ≤ timeoutMs.toNat, seen k = false := by
      intro k within
      exact Bool.eq_false_iff.mpr fun done => some_ ⟨k, within, done⟩
    rw [joinWorker_missed never]
    exact .missed never

theorem not_mem_idle {effect : Effect} (count : Nat) (polled : effect ≠ .polled false)
    (slept : effect ≠ .slept) : effect ∉ idle count := by
  intro member
  rcases idle_effect member with rfl | rfl
  · exact polled rfl
  · exact slept rfl

theorem polls_hit (k : Nat) (last : Prop) [Decidable last] :
    polls (idle k ++ [.polled true, .joined] ++ if last then [.warned] else []) = k + 1 := by
  rw [List.append_assoc, polls_append, polls_idle]
  split
  · rfl
  · rfl

section Reports
variable {timeoutMs : UInt32} {seen : Nat → Bool} {effects : List Effect}

theorem ran_polls (ran : Ran timeoutMs seen effects) :
    polls effects ≤ timeoutMs.toNat + 1 ∧
      ((∃ k < polls effects, seen k = true) ↔ .joined ∈ effects) := by
  cases ran with
  | @hit k within done before =>
    rw [polls_hit]
    constructor
    · omega
    · exact iff_of_true ⟨k, Nat.lt_succ_self k, done⟩ (by simp)
  | missed never =>
    rw [polls_idle]
    constructor
    · exact Nat.le_refl _
    · apply iff_of_false
      · rintro ⟨k, within, done⟩
        exact Bool.eq_false_iff.mp (never k (Nat.le_of_lt_succ within)) done
      · exact not_mem_idle _ (by decide) (by decide)

theorem ran_joins_once (ran : Ran timeoutMs seen effects) : effects.count .joined ≤ 1 := by
  cases ran with
  | @hit k within done before =>
    have idles : (idle k).count .joined = 0 :=
      List.count_eq_zero.mpr (not_mem_idle k (by decide) (by decide))
    rw [List.append_assoc, List.count_append, idles]
    split
    · decide
    · decide
  | missed never =>
    rw [List.count_eq_zero.mpr (not_mem_idle _ (by decide) (by decide))]
    exact Nat.zero_le 1

/-- However the worker behaves, the polls are bounded and it is joined once if one of them
    saw it done. -/
theorem ran_once (ran : Ran timeoutMs seen effects) :
    effects.count .joined = if ∃ k < polls effects, seen k = true then 1 else 0 := by
  have most := ran_joins_once ran
  split
  · rename_i some_
    have present := List.count_pos_iff.mpr ((ran_polls ran).2.mp some_)
    omega
  · rename_i none_
    exact List.count_eq_zero.mpr fun present => none_ ((ran_polls ran).2.mpr present)

/-- The warning is right when the worker was seen done before the pass at the limit. -/
theorem ran_warns (ran : Ran timeoutMs seen effects) :
    (.warned ∈ effects ↔ .joined ∉ effects) ↔ ∃ k < timeoutMs.toNat, seen k = true := by
  cases ran with
  | @hit k within done before =>
    have present : Effect.joined ∈ idle k ++ [.polled true, .joined] ++
        if k = timeoutMs.toNat then [.warned] else [] := by simp
    have idles : .warned ∉ idle k := not_mem_idle k (by decide) (by decide)
    rw [iff_false_right (not_not_intro present)]
    by_cases last : k = timeoutMs.toNat
    · rw [if_pos last]
      apply iff_of_false
      · simp
      · rintro ⟨j, early, finished⟩
        exact Bool.eq_false_iff.mp (before j (last ▸ early)) finished
    · rw [if_neg last]
      apply iff_of_true
      · simpa using idles
      · exact ⟨k, Nat.lt_of_le_of_ne within last, done⟩
  | missed never =>
    have quiet : .warned ∉ idle (timeoutMs.toNat + 1) := not_mem_idle _ (by decide) (by decide)
    have left : .joined ∉ idle (timeoutMs.toNat + 1) := not_mem_idle _ (by decide) (by decide)
    apply iff_of_false
    · exact fun reported => quiet (reported.mpr left)
    · rintro ⟨k, early, done⟩
      exact Bool.eq_false_iff.mp (never k (Nat.le_of_lt early)) done

end Reports

theorem join_loop_reports (timeoutMs : UInt32) (seen : Nat → Bool) :
    Truthful timeoutMs seen (joinWorker timeoutMs seen) ↔
      ∃ k < timeoutMs.toNat, seen k = true := by
  have ran := joinWorker_ran timeoutMs seen
  constructor
  · intro truthful
    exact (ran_warns ran).mp truthful.warns
  · intro early
    exact ⟨(ran_polls ran).1, ran_once ran, (ran_warns ran).mpr early⟩

/-- With the limit of the source, a worker that never ends is left behind without a word. -/
theorem live_worker_unreported :
    ¬ ∀ (timeoutMs : UInt32) (seen : Nat → Bool), 1 ≤ timeoutMs →
      Truthful timeoutMs seen (joinWorker timeoutMs seen) := by
  intro truthful
  have reported := (truthful 100 (fun _ => false) (by decide)).warns
  rw [joinWorker_missed fun _ _ => rfl] at reported
  have quiet : .warned ∉ idle 101 := not_mem_idle _ (by decide) (by decide)
  have left : .joined ∉ idle 101 := not_mem_idle _ (by decide) (by decide)
  exact quiet (reported.mpr left)

/-- seen are the values found by the loop under way, ended those of the loops that have ended;
    both are observers. -/
structure Watched where
  base : State
  seen : List Bool
  ended : List (List Bool)

def finds (s : State) : Bool :=
  match s.user with
  | some (.joining _ _ slot _) => (proAtomAt s slot).workerDone
  | _ => false

def observe (s : Watched) (t : State) : Action → Watched
  | .destroyPoll =>
    let seen := s.seen ++ [finds s.base]
    if t.user = none then ⟨t, [], s.ended ++ [seen]⟩ else ⟨t, seen, s.ended⟩
  | _ => ⟨t, s.seen, s.ended⟩

def watched (capacity : Nat) : Machine Watched Action where
  init s := (machine capacity).init s.base ∧ s.seen = [] ∧ s.ended = []
  step s a := ((machine capacity).step s.base a).map fun t => observe s t a

def joinedOf : Event → Option Bool
  | .entryDestroyed _ _ _ joined => some joined
  | _ => none

def loopOf (values : List Bool) : List Effect :=
  joinWorker (UInt32.ofNat timeoutMs) fun k => values.getD k false

def passes : Option RegionUser → Nat
  | some (.joining _ _ _ polls) => polls
  | _ => 0

/-- The invariant: the destructor that keeps mutex_ has missed in every pass so far, and each
    earlier one did what the loop does on the values it found. -/
structure Followed (s : Watched) : Prop where
  made : ∀ values ∈ s.ended, polls (loopOf values) = values.length
  joined : s.base.log.filterMap joinedOf = s.ended.map fun values => decide (.joined ∈ loopOf values)
  missed : s.seen = List.replicate (passes s.base.user) false
  early : passes s.base.user ≤ timeoutMs

theorem loopOf_hit {k : Nat} (early : k ≤ timeoutMs) :
    polls (loopOf (List.replicate k false ++ [true])) = k + 1 ∧
      .joined ∈ loopOf (List.replicate k false ++ [true]) := by
  unfold loopOf
  rw [joinWorker_hit early]
  · rw [polls_hit]
    simp
  · simp
  · intro j below
    simp [List.getElem?_append, below]

theorem loopOf_missed :
    polls (loopOf (List.replicate timeoutMs false ++ [false])) = timeoutMs + 1 ∧
      .joined ∉ loopOf (List.replicate timeoutMs false ++ [false]) := by
  unfold loopOf
  rw [joinWorker_missed]
  · rw [polls_idle]
    exact ⟨rfl, not_mem_idle _ (by decide) (by decide)⟩
  · intro j within
    have below : j < timeoutMs + 1 := Nat.lt_succ_of_le within
    rw [← List.replicate_succ', List.getD_replicate _ below]

theorem step_passes {capacity : Nat} {s t : State} {a : Action} (stepped : Stepped capacity s a t)
    (other : a ≠ .destroyPoll) :
    passes t.user = passes s.user ∧ t.log.filterMap joinedOf = s.log.filterMap joinedOf := by
  constructor
  · cases stepped with
    | construct object unused free constructed => rw [constructed.user]
    | @notify self n clock free fits =>
      rw [free]
      unfold notifyLocked
      dsimp only
      split
      · rfl
      · rfl
    | broadcast user rounded =>
      rw [user]
      cases rounded with
      | woke | passed =>
        unfold afterRound
        dsimp only
        split
        · rfl
        · rfl
    | destroyBegin live free begun =>
      cases begun with
      | leave | counted => rfl
      | last =>
        rw [free]
        rfl
    | destroySignal user =>
      rw [user]
      rfl
    | destroyPoll => exact absurd rfl other
    | destroyPurge leaving free left => cases left <;> rfl
    | worker thread moved => rw [beside_user (.moved thread moved)]
    | rejectScalar | rejectList | addScalar | addList | collect | destroyReturn => rfl
  · obtain ⟨out, same, logged⟩ := step_logged stepped
    rw [same, List.filterMap_append]
    cases logged with
    | quiet | invoked => simp [joinedOf]
    | purged => simp [joinedOf, List.filterMap_map, Function.comp_def]
    | destroyed => exact absurd rfl other

theorem observe_other (s : Watched) (t : State) {a : Action} (other : a ≠ .destroyPoll) :
    observe s t a = ⟨t, s.seen, s.ended⟩ := by
  cases a with
  | destroyPoll => exact absurd rfl other
  | _ => rfl

theorem entry_followed {s : Watched} {values : List Bool} {joined : Bool} (before : Followed s)
    (made : polls (loopOf values) = values.length) (ran : .joined ∈ loopOf values ↔ joined = true)
    (pid addr slot : Nat) :
    Followed ⟨destroyEntry pid addr slot joined s.base, [], s.ended ++ [values]⟩ := by
  constructor
  case made =>
    intro found member
    rcases List.mem_append.mp member with earlier | last
    · exact before.made found earlier
    · rw [List.mem_singleton.mp last]
      exact made
  case joined =>
    have last : decide (.joined ∈ loopOf values) = joined := by simp [ran]
    simp only [destroyEntry, List.filterMap_append, before.joined, List.map_append, List.map_cons,
      List.map_nil, last]
    rfl
  case missed => rfl
  case early => exact Nat.zero_le _

theorem poll_followed {s : Watched} {t : State} {pid addr slot polls : Nat} (before : Followed s)
    (user : s.base.user = some (.joining pid addr slot polls))
    (polled : Polled pid addr slot polls s.base t) : Followed (observe s t .destroyPoll) := by
  have found : finds s.base = (proAtomAt s.base slot).workerDone := by simp only [finds, user]
  have missed := before.missed
  have early := before.early
  simp only [user, passes] at missed early
  unfold observe
  rw [found, missed]
  cases polled with
  | joined finished ended =>
    rw [finished]
    obtain ⟨made, ran⟩ := loopOf_hit early
    apply entry_followed before _ _ pid addr slot
    · simpa using made
    · exact iff_of_true ran rfl
  | waited unfinished earlier =>
    rw [unfinished]
    exact ⟨before.made, before.joined, List.replicate_succ'.symm, earlier⟩
  | timedOut unfinished late =>
    rw [unfinished, Nat.le_antisymm early (Nat.le_of_not_lt late)]
    obtain ⟨made, ran⟩ := loopOf_missed
    apply entry_followed before _ _ pid addr slot
    · simpa using made
    · exact iff_of_false ran (by decide)

/-- In every run the destructors that ended a proAtom did what the loop does on the values they
    found in worker_done_. -/
theorem followed_reached {capacity : Nat} {s : Watched} (reached : (watched capacity).Reachable s) :
    Followed s := by
  apply invariant_of_steps Followed _ _ reached
  · rintro s ⟨⟨protbl, payload, first⟩, unseen, unended⟩
    have fresh : s = ⟨initial protbl payload, [], []⟩ := by
      rw [← first, ← unseen, ← unended]
    subst fresh
    exact ⟨fun values member => absurd member (by simp), rfl, rfl, Nat.zero_le _⟩
  · intro s a u before _ stepped
    obtain ⟨t, moved, rfl⟩ := Option.map_eq_some_iff.mp stepped
    have stepped := step_stepped moved
    by_cases poll : a = .destroyPoll
    · subst poll
      cases stepped with
      | destroyPoll user polled => exact poll_followed before user polled
    · obtain ⟨counted, logged⟩ := step_passes stepped poll
      rw [observe_other s t poll]
      constructor
      · exact before.made
      · exact logged.trans before.joined
      · exact before.missed.trans (congrArg (List.replicate · false) counted.symm)
      · exact counted ▸ before.early

end SharedJoinLoop
