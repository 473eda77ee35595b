import FJUtility.SharedMem.Delivery
import FJUtility.SharedMem.Shutdown
import FJUtility.SharedMem.Owners
import FJUtility.SharedMem.RefCounts

/- The thread that keeps the region's mutex_ over several actions: a broadcast of _notify, or a
   destructor that waits for the worker of its process. It waits for nobody but that worker, where
   no process dies, no entry is moved with its mutex_ locked and nobody waits on a cond_ that is
   to be destroyed. -/
namespace SharedHolding
open LabelledMachine AgentList FixMap FixVector SharedRegion SharedTables SharedProcesses
open SharedSteps SharedRegistry SharedRefCounts SharedGuarantees SharedDelivery SharedShutdown
open SharedOwners SharedBlocking

def keeps : Action → Bool
  | .broadcast => true
  | .destroySignal => true
  | .destroyPoll => true
  | _ => false

def remaining (s : State) : Nat :=
  match s.user with
  | none => 0
  | some (.broadcasting pids) => pids.length
  | some (.stopping _ _ _) => timeoutMs + 2
  | some (.joining _ _ _ polls) => timeoutMs + 1 - polls

/-- The broadcast of a destructor finds a worker at the entry between its test of running_ and its
    wait. -/
def missesWait (s : State) : Action → Bool
  | .destroySignal =>
    match s.user with
    | some (.stopping _ _ slot) => s.workers.any fun w =>
        decide (w.slot = some slot) && decide (w.pos = .toWait)
    | _ => false
  | _ => false

def Heard (s : Mortal) (l : MortalAction) : Prop :=
  Careful s l ∧ missesWait s.base.base l.act = false

instance (s : Mortal) (l : MortalAction) : Decidable (Heard s l) :=
  inferInstanceAs (Decidable (_ ∧ _))

/-- An entry whose worker_done_ is set has a worker that has ended. -/
def Truthful (s : State) : Prop :=
  ∀ pid p, lookup s.region.protbl pid = some p → p.workerDone = true → isDone s p.worker = true

theorem finish_done {capacity i : Nat} {s t : State} {w : WorkerThread}
    (thread : s.workers[i]? = some w)
    (stepped : Stepped capacity s (.worker i .finish) t) : isDone t i = true := by
  cases stepped with
  | worker thread' moved =>
    cases moved with
    | finish here =>
      have bound := (List.getElem?_eq_some_iff.mp thread).1
      simp [isDone, moveWorker, writeSlot, bound]

theorem step_truthful {capacity : Nat} {s t : State} {a : Action} (sorted : Sorted s.region.protbl)
    (housed : AllHoused s) (stepped : Stepped capacity s a t) (truthful : Truthful s) :
    Truthful t := by
  intro pid p is told
  cases step_change sorted stepped is with
  | kept was running worker same | stopped was user halted worker same =>
    rw [worker]
    exact step_isDone stepped (truthful pid _ was (same ▸ told))
  | started construct needs first running untold => simp [untold] at told
  | @ended i w own thread here found same =>
    subst own
    obtain ⟨place, _, mine, new | cached⟩ := (housed i w thread (by simp [here])).entry
    · simp [here] at new
    · rw [same, cached, Option.getD_some]
      simp only [mine]
      exact finish_done thread stepped

theorem truthful_reached {capacity : Nat} {s : Mortal}
    (reached : (mortal capacity).ReachableBy Careful s) : Truthful s.base.base := by
  refine invariant_along (fun s : Mortal => Sorted s.base.base.region.protbl ∧
    AllHoused s.base.base) (fun s => Truthful s.base.base) ?_ ?_ ?_ reached
  · exact fun s reached => ⟨(below_reached reached).sorted, (sane_reached reached).housed⟩
  · rintro s ⟨⟨⟨protbl, payload, first⟩, _⟩, _⟩ pid p is
    simp [first, initial, initSharedRegion, lookup, findIndex, findIndexFrom] at is
  · rintro s l t ⟨sorted, housed⟩ truthful _ moved
    exact step_truthful sorted housed (step_stepped (mortal_stepped moved).2.1) truthful

def NoneWaits (s : State) : Prop :=
  ∀ pid addr slot polls, s.user = some (.joining pid addr slot polls) →
    ∀ w ∈ s.workers, w.slot = some slot → w.pos ≠ .waiting ∧ w.pos ≠ .toWait

theorem signal_noneWaits {pid addr slot : Nat} {s : State} {w : WorkerThread}
    (user : s.user = some (.stopping pid addr slot)) (heard : missesWait s .destroySignal = false)
    (member : w ∈ wakeSlot slot s.workers) (cached : w.slot = some slot) :
    w.pos ≠ .waiting ∧ w.pos ≠ .toWait := by
  simp only [missesWait, user, List.any_eq_false, Bool.and_eq_true, decide_eq_true_eq,
    not_and] at heard
  obtain ⟨x, was, rfl⟩ := List.mem_map.mp member
  split
  · simp
  · rename_i awake
    rw [if_neg awake] at cached
    exact ⟨fun waits => awake ⟨cached, waits⟩, heard x was cached⟩

/-- With running_ cleared no worker at the entry comes to wait. -/
theorem moved_noneWaits {slot i : Nat} {s t : State} {w x : WorkerThread} {act : WorkerAct}
    (kept : s.user ≠ none) (halted : (proAtomAt s slot).running = false)
    (thread : s.workers[i]? = some x) (moved : WorkerMoved i x s act t)
    (before : ∀ w ∈ s.workers, w.slot = some slot → w.pos ≠ .waiting ∧ w.pos ≠ .toWait)
    (member : w ∈ t.workers) (cached : w.slot = some slot) :
    w.pos ≠ .waiting ∧ w.pos ≠ .toWait := by
  obtain ⟨x', set, _⟩ := moved_set moved
  rw [set] at member
  rcases List.mem_or_eq_of_mem_set member with old | rfl
  · exact before w old cached
  · have is : t.workers[i]? = some w := by
      rw [set, List.getElem?_set_self (List.getElem?_eq_some_iff.mp thread).1]
    have stopped : x.slot = some slot → (proAtomAt s (x.slot.getD 0)).running = false := by
      intro same
      rw [same, Option.getD_some, halted]
    cases moved with
    | find here free => exact absurd free kept
    | test here runs =>
      rw [set_at thread is] at cached
      rw [stopped cached] at runs
      exact Bool.noConfusion runs
    | wait here =>
      rw [set_at thread is] at cached
      exact absurd here (before x (List.mem_of_getElem? thread) cached).2
    | crash here | stop here | spurious here | retest here | stopWoken here | drain here
    | idle here | skip here | checked here | unchecked here | invoke here | comeBackWithData here
    | comeBack here | mark here | finish here =>
      rw [set_at thread is]
      exact ⟨by simp, by simp⟩

theorem step_noneWaits {capacity : Nat} {s t : State} {a : Action} (halted : Halted s)
    (heard : missesWait s a = false) (stepped : Stepped capacity s a t) (before : NoneWaits s) :
    NoneWaits t := by
  intro pid addr slot polls user w member cached
  cases step_joins stepped user with
  | signalled user' => exact signal_noneWaits user' heard member cached
  | polled user' => exact before _ _ _ _ user' w member cached
  | worked user' thread moved =>
    refine moved_noneWaits (by simp [user']) ?_ thread moved (before _ _ _ _ user') member cached
    simpa only [Halted, user'] using halted
  | still user' workers => exact before _ _ _ _ user' w (workers ▸ member) cached

theorem heard_careful {capacity : Nat} {s : Mortal}
    (reached : (mortal capacity).ReachableBy Heard s) :
    (mortal capacity).ReachableBy Careful s :=
  reachableBy_mono (fun _ _ heard => heard.1) reached

theorem noneWaits_reached {capacity : Nat} {s : Mortal}
    (reached : (mortal capacity).ReachableBy Heard s) : NoneWaits s.base.base := by
  have both : Halted s.base.base ∧ NoneWaits s.base.base := by
    apply invariant_of_steps (fun s : Mortal => Halted s.base.base ∧ NoneWaits s.base.base) _ _
      reached
    · rintro s ⟨⟨⟨protbl, payload, first⟩, _⟩, _⟩
      refine ⟨halted_free (by rw [first]; rfl), fun pid addr slot polls user => ?_⟩
      simp [first, initial] at user
    · rintro s l t ⟨halted, before⟩ heard moved
      have stepped := step_stepped (mortal_stepped moved).2.1
      exact ⟨step_halted halted stepped, step_noneWaits halted heard.2 stepped before⟩
  exact both.2

theorem noneWaits_alone {s : State} (noneWaits : NoneWaits s) (a : Action) :
    destroysWaited s a = false := by
  apply Bool.eq_false_iff.mpr
  intro waited
  unfold destroysWaited at waited
  split at waited
  · split at waited
    · rename_i pid addr slot polls user
      simp only [Bool.and_eq_true, List.any_eq_true, decide_eq_true_eq] at waited
      obtain ⟨_, w, member, cached, waits⟩ := waited
      exact (noneWaits _ _ _ _ user w member cached).1 waits
    · exact Bool.noConfusion waited
  · exact Bool.noConfusion waited

/-- The invariant of the thread that keeps mutex_: a broadcast has a round left, and a destructor
    has a poll left. -/
def Keeping (s : State) : Prop :=
  match s.user with
  | some (.broadcasting pids) => pids ≠ []
  | some (.joining _ _ _ polls) => polls ≤ timeoutMs
  | _ => True

theorem keeping_free {s : State} (free : s.user = none) : Keeping s := by
  simp [Keeping, free]

theorem keeping_same {s t : State} (user : t.user = s.user) (keeping : Keeping s) :
    Keeping t := by
  unfold Keeping at keeping ⊢
  rwa [user]

theorem other_keeps {capacity : Nat} {s t : State} {a : Action} (kept : s.user ≠ none)
    (other : keeps a = false) (stepped : Stepped capacity s a t) : Beside s t := by
  rcases step_beside kept stepped with rfl | rfl | rfl | beside
  · exact Bool.noConfusion other
  · exact Bool.noConfusion other
  · exact Bool.noConfusion other
  · exact beside

/-- An action of the thread itself brings it nearer to the end of its section. -/
theorem own_nearer {capacity : Nat} {s t : State} {a : Action} (keeping : Keeping s)
    (own : keeps a = true) (stepped : Stepped capacity s a t) :
    Keeping t ∧ remaining t + 1 ≤ remaining s := by
  cases stepped with
  | @broadcast pid rest t user rounded =>
    have next := rounded_user rounded
    by_cases last : rest = []
    · have free : t.user = none := by rw [next, afterRound, if_pos last]
      exact ⟨keeping_free free, by simp [remaining, free, user]⟩
    · have more : t.user = some (.broadcasting rest) := by rw [next, afterRound, if_neg last]
      exact ⟨by simpa [Keeping, more] using last, by simp [remaining, more, user]⟩
  | @destroySignal pid addr slot user =>
    exact ⟨Nat.zero_le _, by simp [remaining, user, destroySignal]⟩
  | @destroyPoll pid addr slot polls t user polled =>
    simp only [Keeping, user] at keeping
    cases polled with
    | joined | timedOut =>
      refine ⟨keeping_free rfl, ?_⟩
      simp only [remaining, user, destroyEntry]
      omega
    | waited unfinished early =>
      refine ⟨early, ?_⟩
      simp only [remaining, user]
      omega
  | _ => exact Bool.noConfusion own

theorem section_keeping {capacity : Nat} {s t : State} {a : Action} (free : s.user = none)
    (stepped : Stepped capacity s a t) : Keeping t := by
  cases stepped with
  | construct object unused _ constructed => exact keeping_free (constructed.user.trans free)
  | @notify self n clock =>
    by_cases sends : (notify n clock s.region s.sent).2.msgcount > 0
    · have user : (notifyLocked n clock s).user =
          some (.broadcasting (notify n clock s.region s.sent).2.pids) := by
        simp only [notifyLocked, sends, reduceIte]
      simp only [Keeping, user]
      exact notify_addressees n clock s.region s.sent sends
    · exact keeping_free (by simp only [notifyLocked, sends, reduceIte])
  | destroyBegin live _ begun =>
    cases begun with
    | leave | counted => exact keeping_free free
    | last => trivial
  | broadcast user | destroySignal user | destroyPoll user => simp [free] at user
  | destroyPurge leaving _ left => cases left <;> exact keeping_free free
  | worker thread moved =>
    apply keeping_free
    cases moved <;> exact free
  | rejectScalar | rejectList | addScalar | addList | collect | destroyReturn =>
    exact keeping_free free

theorem step_keeping {capacity : Nat} {s t : State} {a : Action} (keeping : Keeping s)
    (stepped : Stepped capacity s a t) : Keeping t := by
  by_cases free : s.user = none
  · exact section_keeping free stepped
  · by_cases own : keeps a = true
    · exact (own_nearer keeping own stepped).1
    · have beside := other_keeps free (by simpa using own) stepped
      exact keeping_same (beside_user beside) keeping

theorem keeping_reached {capacity : Nat} {guard : State → Action → Prop} {s : State}
    (reached : (machine capacity).ReachableBy guard s) : Keeping s := by
  apply invariant_of_steps Keeping _ _ reached
  · rintro s ⟨protbl, payload, rfl⟩
    exact keeping_free rfl
  · intro s a t keeping _ stepped
    exact step_keeping keeping (step_stepped stepped)

def Waiting (s : State) : Prop :=
  ∀ pid addr, s.instances pid addr = .joining → ∃ slot, Stops s pid addr slot

theorem waiting_set {s t : State} {pid addr : Nat} {status : InstStatus}
    (set : t.instances = setStatus s pid addr status) (other : status ≠ .joining) {pid' addr' : Nat}
    (joining : t.instances pid' addr' = .joining) :
    ¬ (pid' = pid ∧ addr' = addr) ∧ s.instances pid' addr' = .joining := by
  have apart : ¬ (pid' = pid ∧ addr' = addr) := by
    rintro ⟨rfl, rfl⟩
    rw [set, setStatus_self] at joining
    exact other joining
  rw [set, setStatus_other apart] at joining
  exact ⟨apart, joining⟩

theorem free_waiting {s t : State} (free : s.user = none) (waiting : Waiting s)
    (kept : ∀ pid addr, t.instances pid addr = .joining → s.instances pid addr = .joining) :
    Waiting t := by
  intro pid addr joining
  obtain ⟨slot, stops⟩ := waiting pid addr (kept pid addr joining)
  exact absurd stops (free_stops free)

theorem same_waiting {s t : State} (user : t.user = s.user) (waiting : Waiting s)
    (kept : ∀ pid addr, t.instances pid addr = .joining → s.instances pid addr = .joining) :
    Waiting t := by
  intro pid addr joining
  obtain ⟨slot, stops⟩ := waiting pid addr (kept pid addr joining)
  exact ⟨slot, by rwa [Stops, user]⟩

theorem step_waiting {capacity : Nat} {s t : State} {a : Action} (waiting : Waiting s)
    (stepped : Stepped capacity s a t) : Waiting t := by
  cases stepped with
  | construct object unused free constructed =>
    obtain ⟨needworker, set⟩ := constructed.instances
    exact free_waiting free waiting fun pid addr joining => (waiting_set set (by simp) joining).2
  | notify free | addScalar object free | addList object free | collect free =>
    exact free_waiting free waiting fun pid addr joining => joining
  | broadcast user rounded =>
    intro pid addr joining
    have before : s.instances pid addr = .joining := by cases rounded <;> exact joining
    obtain ⟨slot, stops⟩ := waiting pid addr before
    simp [Stops, user] at stops
  | @destroyBegin owner place needworker t live free begun =>
    cases begun with
    | leave | counted =>
      exact free_waiting free waiting fun pid addr joining =>
        (waiting_set rfl (by simp) joining).2
    | @last slot refcount needs found down none_left =>
      intro pid addr joining
      by_cases own : pid = owner ∧ addr = place
      · exact ⟨slot, (stops_stopping rfl).mpr ⟨own.1.symm, own.2.symm, rfl⟩⟩
      · dsimp only at joining
        rw [setStatus_other own] at joining
        obtain ⟨slot', stops⟩ := waiting pid addr joining
        exact absurd stops (free_stops free)
  | destroySignal user =>
    intro pid addr joining
    obtain ⟨slot, stops⟩ := waiting pid addr joining
    exact ⟨slot, (stops_joining rfl).mpr ((stops_stopping user).mp stops)⟩
  | destroyPoll user polled =>
    cases polled with
    | joined | timedOut =>
      intro pid addr joining
      obtain ⟨apart, before⟩ := waiting_set rfl (by simp) joining
      obtain ⟨slot, stops⟩ := waiting pid addr before
      obtain ⟨rfl, rfl, _⟩ := (stops_joining user).mp stops
      exact absurd ⟨rfl, rfl⟩ apart
    | waited unfinished early =>
      intro pid addr joining
      obtain ⟨slot, stops⟩ := waiting pid addr joining
      exact ⟨slot, (stops_joining rfl).mpr ((stops_joining user).mp stops)⟩
  | destroyPurge leaving free left =>
    cases left with
    | purged | plain =>
      exact free_waiting free waiting fun pid addr joining =>
        (waiting_set rfl (by simp) joining).2
  | destroyReturn leaving =>
    exact same_waiting (s := s) rfl waiting fun pid addr joining =>
      (waiting_set rfl (by simp) joining).2
  | worker thread moved =>
    obtain ⟨instances, user⟩ := moved_instances moved
    exact same_waiting user waiting fun pid addr joining => instances ▸ joining
  | rejectScalar | rejectList => exact waiting

theorem waiting_reached {capacity : Nat} {guard : State → Action → Prop} {s : State}
    (reached : (machine capacity).ReachableBy guard s) : Waiting s := by
  apply invariant_of_steps Waiting _ _ reached
  · rintro s ⟨protbl, payload, rfl⟩ pid addr joining
    simp [initial] at joining
  · intro s a t waiting _ stepped
    exact step_waiting waiting (step_stepped stepped)

/-- What is guaranteed to whoever waits for mutex_, and to a destructor that has begun: it waits
    for nothing but mutex_. -/
structure GivenBack (capacity : Nat) (s : Mortal) : Prop where
  moves : s.base.base.user ≠ none → ∃ l : MortalAction, keeps l.act = true ∧
    ((mortal capacity).step s l).isSome = true
  soon : ∀ (labels : List MortalAction) (t : Mortal),
    (mortal capacity).runBy (fun u _ => u.base.base.user.isSome) s labels = some t →
      labels.countP (fun l => keeps l.act) + remaining t.base.base ≤ remaining s.base.base
  joins : ∀ pid addr, s.base.base.instances pid addr = .joining →
    ∃ slot, Stops s.base.base pid addr slot
  purges : ∀ pid addr needworker, s.base.base.instances pid addr = .purging needworker →
    s.base.base.user = none → ∃ queueResult listenResult t, (mortal capacity).step s
      { act := .destroyPurge pid addr queueResult listenResult } = some t ∧
        t.base.base.instances pid addr = .unmapping
  returns : ∀ pid addr, s.base.base.instances pid addr = .unmapping → ∃ t,
    (mortal capacity).step s { act := .destroyReturn pid addr } = some t ∧
      t.base.base.instances pid addr = .destroyed

theorem keeping_next {capacity : Nat} {s : State} (truthful : Truthful s) (placed : Placed s)
    (keeping : Keeping s) (kept : s.user ≠ none) :
    ∃ a u, keeps a = true ∧ (machine capacity).step s a = some u := by
  simp only [← Option.isSome_iff_exists, exists_and_left]
  cases user : s.user with
  | none => exact absurd user kept
  | some holder =>
    simp only [Keeping, user] at keeping
    cases holder with
    | broadcasting pids =>
      cases pids with
      | nil => exact absurd rfl keeping
      | cons pid rest => exact ⟨.broadcast, rfl, by simp [machine, step, user]⟩
    | stopping pid addr slot => exact ⟨.destroySignal, rfl, by simp [machine, step, user]⟩
    | joining pid addr slot polls =>
      refine ⟨.destroyPoll, rfl, ?_⟩
      simp only [machine, step, user, destroyPoll]
      split
      · rename_i finished
        have found := placed pid addr slot (Or.inr ⟨polls, user⟩)
        have ended := truthful pid _ (lookup_found found) finished
        simp [ended]
      · split
        · rfl
        · rfl

theorem purging_purges (capacity : Nat) {s : State} {pid addr : Nat} {needworker : Bool}
    (leaving : s.instances pid addr = .purging needworker) (free : s.user = none) :
    ∃ queueResult listenResult t, (machine capacity).step s
      (.destroyPurge pid addr queueResult listenResult) = some t ∧
        t.instances pid addr = .unmapping := by
  obtain ⟨queueResult, queueSorted⟩ := (cleansUp s.region).sorts
    (s.region.queue.items.map fun m => if m.obj = addr then mailAtomInit else m)
  obtain ⟨listenResult, listenSorted⟩ := (cleansUp s.region).sorts
    (s.region.listen.items.map fun m => if m.obj = addr then mailAtomInit else m)
  obtain ⟨region, purged, _⟩ := (cleansUp s.region).purges addr queueResult listenResult
    queueSorted listenSorted
  refine ⟨queueResult, listenResult, ?_⟩
  simp only [machine, step, leaving, locked, free, reduceIte, destroyPurge]
  split
  · rw [purged]
    exact ⟨_, rfl, setStatus_self _ _ _ _⟩
  · exact ⟨_, rfl, setStatus_self _ _ _ _⟩

theorem keeping_soon {capacity : Nat} {s t : Mortal} (labels : List MortalAction)
    (keeping : Keeping s.base.base)
    (executed : (mortal capacity).runBy (fun u _ => u.base.base.user.isSome) s labels = some t) :
    labels.countP (fun l => keeps l.act) + remaining t.base.base ≤ remaining s.base.base := by
  have kept := runBy_bounded (fun u : Mortal => Keeping u.base.base)
    (fun u => remaining u.base.base) (fun l => keeps l.act)
    (by
      intro u l v keeping accepted moved
      have held : u.base.base.user ≠ none := Option.isSome_iff_ne_none.mp accepted
      have stepped := step_stepped (mortal_stepped moved).2.1
      by_cases own : keeps l.act = true
      · rw [if_pos own]
        exact own_nearer keeping own stepped
      · have beside := other_keeps held (by simpa using own) stepped
        refine ⟨step_keeping keeping stepped, ?_⟩
        rw [if_neg own]
        exact Nat.le_of_eq (by simp only [remaining, beside_user beside, Nat.add_zero]))
    labels keeping executed
  exact kept.2

/-- In a careful run in which the broadcasts of destructors are heard, whoever keeps mutex_ gives
    it back after at most remaining s actions of its own, whatever the others do. -/
theorem mutex_given_back {capacity : Nat} {s : Mortal}
    (reached : (mortal capacity).ReachableBy Heard s) : GivenBack capacity s := by
  have careful := heard_careful reached
  have run := addressed_reached careful
  have goes : ∀ a, halted s a = false :=
    fun a => sane_goes (sane_reached careful) (noneWaits_alone (noneWaits_reached reached) a)
  constructor
  case moves =>
    intro kept
    obtain ⟨a, u, own, moved⟩ := keeping_next (truthful_reached careful) (placed_reached run)
      (keeping_reached run) kept
    obtain ⟨t, stepped, _⟩ := goes_steps (goes a) moved
    exact ⟨{ act := a }, own, by rw [stepped]; rfl⟩
  case soon => exact fun labels t => keeping_soon labels (keeping_reached run)
  case joins => exact waiting_reached run
  case purges =>
    intro pid addr needworker leaving free
    obtain ⟨queueResult, listenResult, u, moved, gone⟩ := purging_purges capacity leaving free
    obtain ⟨t, stepped, rfl⟩ := goes_steps (goes _) moved
    exact ⟨queueResult, listenResult, t, stepped, gone⟩
  case returns =>
    intro pid addr leaving
    have moved : (machine capacity).step s.base.base (.destroyReturn pid addr) =
        some { s.base.base with instances := setStatus s.base.base pid addr .destroyed } := by
      simp only [machine, step, leaving]
    obtain ⟨t, stepped, same⟩ := goes_steps (goes _) moved
    exact ⟨t, stepped, by rw [same]; exact setStatus_self _ _ _ _⟩

def toldToEnd : List MortalAction :=
  [.construct 5 100 [7] [entrySeven], .worker 0 .find, .worker 0 .test, .worker 0 .wait,
    .destroyBegin 5 100, .destroySignal].map fun act => { act }

def endsMeanwhile : List MortalAction :=
  [.destroyPoll, .worker 0 .retest, .worker 0 .finish, .destroyPoll].map fun act => { act }

theorem told_to_end_given_back :
    ∃ s t, (mortal 22).runBy (fun s l => decide (Heard s l)) { base := ⟨zeroed, []⟩ }
        toldToEnd = some s ∧
      (mortal 22).runBy (fun u _ => u.base.base.user.isSome) s endsMeanwhile = some t ∧
        remaining s.base.base = 101 ∧ t.base.base.user = none ∧ GivenBack 22 s := by
  obtain ⟨s, executed, shown, reached⟩ := guarded_shows (m := mortal 22)
    (s := { base := ⟨zeroed, []⟩ }) Heard toldToEnd ⟨⟨zeroed_initial 22, rfl⟩, rfl⟩
    (fun s => decide (remaining s.base.base = 101) &&
      ((mortal 22).runBy (fun u _ => u.base.base.user.isSome) s endsMeanwhile).any fun t =>
        t.base.base.user.isNone)
    (by decide +kernel)
  simp only [Bool.and_eq_true, decide_eq_true_eq] at shown
  obtain ⟨t, ended, free⟩ := (Option.any_eq_true ..).mp shown.2
  exact ⟨s, t, executed, ended, shown.1, Option.isNone_iff_eq_none.mp free,
    mutex_given_back reached⟩

end SharedHolding
