import FJUtility.SharedMem.Blocking
import FJUtility.SharedMem.Wakeup

/- The workers left to themselves, with the broadcasts that are under way. The effort of a state
   bounds the actions that are left, and where none is left the mail has arrived. Callbacks return
   without calling the library, and no FJSyncGuard keeps mutex_. -/
namespace SharedDelivery
open LabelledMachine Courier AgentList FixMap SharedRegion SharedSending SharedTables
open SharedProcesses SharedSteps SharedMail SharedGuarantees SharedRegistry SharedTraffic
open SharedWakeup SharedBlocking

/-- What a worker can still do before it waits; each mail takes it four actions. -/
def workerEffort (w : WorkerThread) : Nat :=
  match w.pos with
  | .waiting => 0
  | .done => 0
  | .crashed => 0
  | .exiting => 1
  | .toWait => 1
  | .looping => 2
  | .starting => 3
  | .dispatching locals => 3 + 4 * locals.length
  | .toDrain => 4
  | .toMark _ rest => 4 + 4 * rest.length
  | .woken => 5
  | .inCallback _ _ rest => 5 + 4 * rest.length
  | .calling _ _ rest => 6 + 4 * rest.length

def effort (s : State) : Nat :=
  4 * s.region.queue.items.length + (s.workers.map workerEffort).sum +
    (pendingPids s).length * (5 * s.workers.length + 1)

/-- The actions that no further call has to cause. -/
def serves : Action → Bool
  | .worker _ .spurious => false
  | .worker _ _ => true
  | .broadcast => true
  | _ => false

def Undisturbed (s : State) : Prop :=
  s.user = none ∨ ∃ pid rest, s.user = some (.broadcasting (pid :: rest))

theorem wakeSlot_length (slot : Nat) (workers : List WorkerThread) :
    (wakeSlot slot workers).length = workers.length := by
  simp [wakeSlot]

theorem wakeSlot_effort (slot : Nat) (workers : List WorkerThread) :
    ((wakeSlot slot workers).map workerEffort).sum ≤
      (workers.map workerEffort).sum + 5 * workers.length := by
  induction workers with
  | nil => exact Nat.le_refl _
  | cons w rest ih =>
    have one : workerEffort (if w.slot = some slot ∧ w.pos = .waiting then { w with pos := .woken }
        else w) ≤ workerEffort w + 5 := by
      split
      · simp [workerEffort]
      · omega
    simp only [wakeSlot, List.map_cons, List.sum_cons, List.length_cons] at ih ⊢
    omega

theorem drained_length {pid : Nat} {locals : List MailAtom} {r r' : Region}
    (drained : Drained pid r locals r') :
    r'.queue.items.length + locals.length ≤ r.queue.items.length := by
  rw [drained.left.length_eq, drained.taken]
  have thirds := filter_thirds (fun _ => true) (fun m => decide (m.msg ≠ 0)) (isMine pid)
    r.queue.items
  simp only [List.countP_true] at thirds
  omega

theorem moved_effort {s t : State} {i : Nat} {w w' : WorkerThread} (found : s.workers[i]? = some w)
    (workers : t.workers = s.workers.set i w') (user : t.user = s.user)
    (less : 4 * t.region.queue.items.length + workerEffort w' + 1 ≤
      4 * s.region.queue.items.length + workerEffort w) : effort t + 1 ≤ effort s := by
  have replaced := sum_map_set_at workerEffort found w'
  simp only [effort, pendingPids, workers, user, List.length_set]
  omega

theorem worker_effort {s t : State} {i : Nat} {w : WorkerThread} {act : WorkerAct}
    (found : s.workers[i]? = some w) (own : act ≠ .spurious) (moved : WorkerMoved i w s act t) :
    effort t + 1 ≤ effort s ∧ t.user = s.user := by
  cases moved with
  | spurious => exact absurd rfl own
  | @drain result locals region here free drained =>
    refine ⟨moved_effort found rfl rfl ?_, rfl⟩
    have fewer := drained_length (drain_drained drained)
    simp only [moveWorker, workerEffort, here]
    omega
  | @mark mail rest now here free =>
    refine ⟨moved_effort found rfl rfl ?_, rfl⟩
    simp only [moveWorker, workerEffort, here, (markMail_traffic _ _ _).2]
    omega
  | find here | crash here | test here | stop here | wait here | retest here | stopWoken here
  | idle here | skip here | checked here | unchecked here | invoke here | comeBackWithData here
  | comeBack here | finish here =>
    refine ⟨moved_effort found rfl rfl ?_, rfl⟩
    simp only [moveWorker, writeSlot, workerEffort, here, List.length_cons, List.length_nil]
    omega

/-- Every action that serves leaves less effort, and no destructor comes in. -/
theorem serves_effort {capacity : Nat} {s t : State} {a : Action} (undisturbed : Undisturbed s)
    (own : serves a = true) (stepped : (machine capacity).step s a = some t) :
    effort t + 1 ≤ effort s ∧ Undisturbed t := by
  cases step_stepped stepped with
  | @broadcast pid rest _ user rounded =>
    have next : t.user = afterRound rest ∧ t.region = s.region ∧
        t.workers.length = s.workers.length ∧
        (t.workers.map workerEffort).sum ≤ (s.workers.map workerEffort).sum + 5 * s.workers.length := by
      cases rounded with
      | woke => exact ⟨rfl, rfl, wakeSlot_length _ _, wakeSlot_effort _ _⟩
      | passed => exact ⟨rfl, rfl, rfl, Nat.le_add_right _ _⟩
    obtain ⟨user', region, length, woken⟩ := next
    have pending : pendingPids t = rest := by
      by_cases last : rest = [] <;> simp [pendingPids, user', afterRound, last]
    constructor
    · have before : pendingPids s = pid :: rest := by simp [pendingPids, user]
      simp only [effort, pending, before, region, length, List.length_cons, Nat.succ_mul]
      omega
    · unfold Undisturbed
      rw [user']
      cases rest with
      | nil => exact Or.inl rfl
      | cons pid' rest' => exact Or.inr ⟨pid', rest', rfl⟩
  | @worker i w act _ thread moved =>
    have able : act ≠ .spurious := by
      rintro rfl
      exact Bool.noConfusion own
    obtain ⟨less, user⟩ := worker_effort thread able moved
    exact ⟨less, by rwa [Undisturbed, user]⟩
  | _ => exact Bool.noConfusion own

def awaitsWorker (s : State) : Bool :=
  match s.user with
  | some (.stopping _ _ _) => true
  | some (.joining _ _ _ _) => true
  | _ => false

theorem notify_addressees (n : Notice) (clock : Nat → Int) (r : Region) (sent : List SentRecord) :
    0 < (notify n clock r sent).2.msgcount → (notify n clock r sent).2.pids ≠ [] := by
  apply notify_preserves n clock r sent (fun st => 0 < st.msgcount → st.pids ≠ [])
  · intro none_sent
    exact absurd none_sent (Nat.lt_irrefl 0)
  · intro st target allocNow sentNow _ _ _ _ before
    cases (sendTo_passed n allocNow sentNow target st).1 with
    | lost queue sent pids msgcount spare =>
      rw [pids, msgcount]
      exact before
    | appended m slot mail queue sent pids msgcount loaded =>
      intro _ empty
      rw [pids] at empty
      have present : target.pid ∈ insertPid target.pid st.pids := mem_insertPid.mpr (Or.inl rfl)
      rw [empty] at present
      exact absurd present List.not_mem_nil

theorem step_addressees {capacity : Nat} {s t : State} {a : Action}
    (before : s.user ≠ some (.broadcasting [])) (stepped : Stepped capacity s a t) :
    t.user ≠ some (.broadcasting []) := by
  cases stepped with
  | construct object unused free constructed => exact constructed.user ▸ before
  | @notify self n clock free fits =>
    simp only [notifyLocked]
    split
    · rename_i sends
      intro empty
      simp only [Option.some.injEq, RegionUser.broadcasting.injEq] at empty
      exact notify_addressees n clock s.region s.sent sends empty
    · simp
  | @broadcast pid rest _ user rounded =>
    have next := rounded_user rounded
    rw [next, afterRound]
    split
    · simp
    · rename_i more
      simpa using more
  | destroyBegin live free begun =>
    cases begun with
    | leave | counted => exact before
    | last => simp
  | destroyPoll user polled => cases polled <;> simp [destroyEntry]
  | destroyPurge leaving free left => cases left <;> exact before
  | worker thread moved =>
    have same : t.user = s.user := by cases moved <;> rfl
    exact same ▸ before
  | destroySignal user => simp [destroySignal]
  | rejectScalar | rejectList | addScalar | addList | collect | destroyReturn => exact before

theorem undisturbed_reached {capacity : Nat} {s : State} (reached : (machine capacity).Reachable s)
    (open_ : awaitsWorker s = false) : Undisturbed s := by
  have addressed : s.user ≠ some (.broadcasting []) := by
    apply invariant_of_steps (fun s => s.user ≠ some (.broadcasting [])) _ _ reached
    · rintro s ⟨protbl, payload, rfl⟩
      simp [initial]
    · intro s a t before _ stepped
      exact step_addressees before (step_stepped stepped)
  unfold Undisturbed
  cases user : s.user with
  | none => exact Or.inl rfl
  | some holder =>
    right
    cases holder with
    | broadcasting pids =>
      cases pids with
      | nil => exact absurd user addressed
      | cons pid rest => exact ⟨pid, rest, rfl⟩
    | stopping | joining => simp [awaitsWorker, user] at open_

structure Rests (s : State) : Prop where
  free : s.user = none
  idle : ∀ w ∈ s.workers, w.pos = .waiting ∨ w.pos = .done ∨ w.pos = .crashed

theorem rests_stuck {capacity : Nat} {s : State} (rests : Rests s) {a : Action}
    (own : serves a = true) : (machine capacity).step s a = none := by
  change step capacity s a = none
  cases a with
  | broadcast => simp [step, rests.free]
  | worker i act =>
    apply Option.bind_eq_none_iff.mpr
    intro w found
    rcases rests.idle w (List.mem_of_getElem? found) with here | here | here <;>
      cases act <;> simp [workerStep, here, serves] at own ⊢
  | _ => exact Bool.noConfusion own

theorem rests_stopped {capacity : Nat} {s : Mortal} (rests : Rests s.base.base) {l : MortalAction}
    (own : serves l.act = true) : (mortal capacity).step s l = none := by
  by_contra moves
  obtain ⟨t, moved⟩ := Option.ne_none_iff_exists'.mp moves
  have stepped := (mortal_stepped moved).2.1
  simp [rests_stuck rests own] at stepped

theorem stuck_rests {capacity : Nat} {s : State} (undisturbed : Undisturbed s)
    (stuck : ∀ a, serves a = true → (machine capacity).step s a = none) : Rests s := by
  have free : s.user = none := by
    rcases undisturbed with free | ⟨pid, rest, user⟩
    · exact free
    · have moves := stuck .broadcast rfl
      change step capacity s .broadcast = none at moves
      simp [step, user] at moves
  refine ⟨free, fun w member => ?_⟩
  obtain ⟨i, found⟩ := List.mem_iff_getElem?.mp member
  have goes : ∀ act, act ≠ .spurious → workerStep i w (w.slot.getD 0) s act w.pos = none := by
    intro act able
    have own : serves (.worker i act) = true := by
      cases act with
      | spurious => exact absurd rfl able
      | _ => rfl
    have still : step capacity s (.worker i act) = none := stuck _ own
    simpa [step, found] using still
  cases here : w.pos with
  | waiting => exact Or.inl rfl
  | done => exact Or.inr (Or.inl rfl)
  | crashed => exact Or.inr (Or.inr rfl)
  | starting =>
    have still := goes .find (by simp)
    simp only [here, workerStep, free, reduceIte] at still
    split at still <;> simp at still
  | looping => exact absurd (goes .test (by simp)) (by simp [here, workerStep])
  | toWait => exact absurd (goes .wait (by simp)) (by simp [here, workerStep])
  | woken => exact absurd (goes .retest (by simp)) (by simp [here, workerStep])
  | toDrain =>
    obtain ⟨result, sorted⟩ := (cleansUp s.region).sorts
      (s.region.queue.items.map fun m => if isMine w.pid m then mailAtomInit else m)
    obtain ⟨locals, region, drained, _⟩ := (cleansUp s.region).drains w.pid result sorted
    exact absurd (goes (.drain result) (by simp)) (by simp [here, workerStep, free, drained])
  | dispatching locals =>
    have still := goes .next (by simp)
    cases locals with
    | nil => simp [here, workerStep] at still
    | cons mail rest =>
      simp only [here, workerStep, nextMail, free, reduceIte] at still
      split at still
      · simp at still
      · split at still
        · split at still <;> simp at still
        · simp at still
  | calling mail size rest => exact absurd (goes .invoke (by simp)) (by simp [here, workerStep])
  | inCallback mail size rest =>
    have still := goes .comeBack (by simp)
    cases size <;> simp [here, workerStep] at still
  | toMark mail rest =>
    exact absurd (goes (.mark 0) (by simp)) (by simp [here, workerStep, free])
  | exiting => exact absurd (goes .finish (by simp)) (by simp [here, workerStep])

def Running (s : State) : Prop :=
  ∀ P p, lookup s.region.protbl P = some p →
    p.running = true ∨ SharedRefCounts.closing s = some P

/-- The process that closes keeps mutex_ until its entry is removed. -/
theorem closing_kept {capacity P : Nat} {s t : State} {a : Action} {p : ProAtom}
    (sorted : Sorted s.region.protbl) (stepped : Stepped capacity s a t)
    (closes : SharedRefCounts.closing s = some P) (is : lookup t.region.protbl P = some p) :
    SharedRefCounts.closing t = some P := by
  have kept : s.user ≠ none := by
    intro free
    simp [SharedRefCounts.closing, free] at closes
  rcases SharedShutdown.step_beside kept stepped with rfl | rfl | rfl | beside
  · cases stepped with
    | broadcast user => simp [SharedRefCounts.closing, user] at closes
  · cases stepped with
    | destroySignal user =>
      simpa only [SharedRefCounts.closing, user, destroySignal] using closes
  · cases stepped with
    | destroyPoll user polled =>
      simp only [SharedRefCounts.closing, user, Option.some.injEq] at closes
      subst closes
      cases polled with
      | joined | timedOut => simp [destroyEntry, lookup_unset_self sorted] at is
      | waited => rfl
  · simpa only [SharedRefCounts.closing, SharedShutdown.beside_user beside] using closes

theorem step_running {capacity : Nat} {s t : State} {a : Action} (sorted : Sorted s.region.protbl)
    (stepped : Stepped capacity s a t) (before : Running s) : Running t := by
  intro P p' is
  have kept : ∀ p, lookup s.region.protbl P = some p → p'.running = p.running →
      p'.running = true ∨ SharedRefCounts.closing t = some P := by
    intro p was same
    rw [same]
    exact (before P p was).imp id fun closes => closing_kept sorted stepped closes is
  cases step_change sorted stepped is with
  | kept was running => exact kept _ was running
  | started construct needs first running => exact Or.inl running
  | stopped was user => exact Or.inr (by simp only [SharedRefCounts.closing, user])
  | ended own thread here found same => exact kept _ (lookup_found found) (by rw [same])

theorem running_reached {capacity : Nat} {guard : State → Action → Prop} {s : State}
    (reached : (machine capacity).ReachableBy guard s) : Running s := by
  apply invariant_along (fun s => Sorted s.region.protbl) Running (fun _ => sorted_reached) _ _
    reached
  · rintro s ⟨protbl, payload, rfl⟩ P p is
    simp [initial, initSharedRegion, lookup, findIndex, findIndexFrom] at is
  · exact fun s a t sorted before _ stepped => step_running sorted (step_stepped stepped) before

def Manned (s : State) : Prop :=
  ∀ P p, lookup s.region.protbl P = some p → p.running = true →
    ∃ w, s.workers[p.worker]? = some w ∧ w.pid = P ∧ w.pos ≠ .exiting ∧ w.pos ≠ .done

theorem housed_reads {i : Nat} {s : State} {w : WorkerThread} (housed : Housed s i w)
    (past : w.pos ≠ .starting) :
    lookup s.region.protbl w.pid = some (proAtomAt s (w.slot.getD 0)) := by
  obtain ⟨slot, found, _, new | cached⟩ := housed.entry
  · exact absurd new.2 past
  · rw [cached, lookup_found found, Option.getD_some]

/-- A worker leaves its loop only where running_ is cleared. -/
theorem moved_manned {i : Nat} {s t : State} {w w' : WorkerThread} {act : WorkerAct} {p : ProAtom}
    (housed : Housed s i w) (was : lookup s.region.protbl w.pid = some p) (ran : p.running = true)
    (stays : w.pos ≠ .exiting) (thread : s.workers[i]? = some w) (moves : WorkerMoved i w s act t)
    (is : t.workers[i]? = some w') : w'.pos ≠ .exiting ∧ w'.pos ≠ .done := by
  have runs : w.pos ≠ .starting → (proAtomAt s (w.slot.getD 0)).running = true := by
    intro past
    rw [housed_reads housed past, Option.some.injEq] at was
    rw [was, ran]
  cases moves with
  | stop here halted | stopWoken here halted =>
    rw [runs (by simp [here])] at halted
    exact Bool.noConfusion halted
  | finish here => exact absurd here stays
  | find here | crash here | test here | wait here | spurious here | retest here | drain here
  | idle here | skip here | checked here | unchecked here | invoke here | comeBackWithData here
  | comeBack here | mark here =>
    rw [set_at thread is]
    exact ⟨by simp, by simp⟩

theorem step_manned {capacity : Nat} {s t : State} {a : Action} (sorted : Sorted s.region.protbl)
    (housed : AllHoused s) (stepped : Stepped capacity s a t) (before : Manned s) : Manned t := by
  intro P p' is runs
  cases step_entry sorted stepped is runs with
  | started construct needs starts new => exact ⟨_, new, rfl, by simp, by simp⟩
  | @kept p was ran same =>
    obtain ⟨w, thread, pid, stays, busy⟩ := before P p was ran
    obtain ⟨w', after, kept⟩ := step_keeps_thread stepped thread
    refine ⟨w', same ▸ after, kept.trans pid, ?_⟩
    cases step_thread stepped after with
    | same was' =>
      rw [thread, Option.some.injEq] at was'
      exact was' ▸ ⟨stays, busy⟩
    | woken was' waits woke => exact woke ▸ ⟨by simp, by simp⟩
    | started construct last =>
      have := (List.getElem?_eq_some_iff.mp thread).1
      omega
    | @moved x act was' own moves =>
      rw [thread, Option.some.injEq] at was'
      subst was'
      exact moved_manned (housed _ w thread busy) (pid ▸ was) ran stays thread moves after

theorem manned_reached {capacity : Nat} {s : Mortal}
    (reached : (mortal capacity).ReachableBy Careful s) : Manned s.base.base := by
  refine invariant_along (fun s : Mortal => Sorted s.base.base.region.protbl ∧
    AllHoused s.base.base) (fun s => Manned s.base.base) ?_ ?_ ?_ reached
  · exact fun s reached => ⟨(below_reached reached).sorted, (sane_reached reached).housed⟩
  · rintro s ⟨⟨⟨protbl, payload, first⟩, _⟩, _⟩ P p is
    simp [first, initial, initSharedRegion, lookup, findIndex, findIndexFrom] at is
  · rintro s l t ⟨sorted, housed⟩ before _ moved
    exact step_manned sorted housed (step_stepped (mortal_stepped moved).2.1) before

/-- What mail for P needs to arrive: its broadcasts are in time, no worker for it starts while
    queue_ holds mail for it, and the run is careful. -/
def Prompt (P : Nat) (s : Mortal) (l : MortalAction) : Prop :=
  Careful s l ∧ WakesInTime P s.base.base l.act

instance (P : Nat) (s : Mortal) (l : MortalAction) : Decidable (Prompt P s l) :=
  inferInstanceAs (Decidable (_ ∧ _))

theorem prompt_careful {capacity P : Nat} {s : Mortal}
    (reached : (mortal capacity).ReachableBy (Prompt P) s) :
    (mortal capacity).ReachableBy Careful s :=
  reachableBy_mono (fun _ _ prompt => prompt.1) reached

theorem prompt_timely {capacity P : Nat} {s : Mortal}
    (reached : (mortal capacity).ReachableBy (Prompt P) s) :
    (machine capacity).ReachableBy (WakesInTime P) s.base.base := by
  refine reachableBy_project (fun s : Mortal => s.base.base) ?_ ?_ reached
  · exact fun s first => first.1.1
  · exact fun s l t prompt moved => Or.inr ⟨l.act, prompt.2, (mortal_stepped moved).2.1⟩

/-- The mail of a process at rest: while it has a registered instance, none of its mail is left in
    queue_, and each mail sent to it has been handed to a callback once, or purged with an
    instance of its object. -/
structure Arrived (P : Nat) (s : State) : Prop where
  rests : Rests s
  none_held : ∀ w ∈ s.workers, unfinishedMails w = []
  none_queued : (SharedRefCounts.registrants s P).Nonempty →
    ∀ m ∈ s.region.queue.items, m.pid ≠ P
  delivered : (SharedRefCounts.registrants s P).Nonempty →
    ∀ record ∈ s.sent, record.mail.msg ≠ 0 → record.mail.pid = P →
      (invokedMails s).count record.mail + (purgedMails s).count record.mail = 1

theorem registered_waits {capacity P : Nat} {s : Mortal}
    (reached : (mortal capacity).ReachableBy Careful s) (rests : Rests s.base.base)
    (live : (SharedRefCounts.registrants s.base.base P).Nonempty) :
    ∃ p w, lookup s.base.base.region.protbl P = some p ∧ p.running = true ∧
      s.base.base.workers[p.worker]? = some w ∧ w.pos = .waiting := by
  obtain ⟨p, entry⟩ := Option.isSome_iff_exists.mp
    (((below_reached reached).counted.present P).mpr (Or.inl live))
  have open_ := SharedRefCounts.sending_open (Or.inl rests.free)
  have runs : p.running = true := (running_reached (addressed_reached reached) P p entry).resolve_right (by simp [open_])
  obtain ⟨w, thread, _, _, busy⟩ := manned_reached reached P p entry runs
  have alive := ((sane_reached reached).housed _ w thread busy).alive
  refine ⟨p, w, entry, runs, thread, ?_⟩
  exact (rests.idle w (List.mem_of_getElem? thread)).resolve_right
    fun ended => ended.elim busy alive

theorem rests_arrived {capacity P : Nat} {s : Mortal}
    (reached : (mortal capacity).ReachableBy (Prompt P) s) (rests : Rests s.base.base) :
    Arrived P s.base.base := by
  have timely := prompt_timely reached
  have known := reachable_of_reachableBy timely
  have held : ∀ w ∈ s.base.base.workers, unfinishedMails w = [] := by
    intro w member
    rcases rests.idle w member with here | here | here <;> simp [unfinishedMails, here]
  have queued : (SharedRefCounts.registrants s.base.base P).Nonempty →
      ∀ m ∈ s.base.base.region.queue.items, m.pid ≠ P := by
    intro live
    obtain ⟨p, w, entry, runs, thread, waits⟩ :=
      registered_waits (prompt_careful reached) rests live
    apply attended_reached timely p w entry runs thread
    · simp [waits, onItsWay]
    · simp [pendingPids, rests.free]
  refine ⟨rests, held, queued, ?_⟩
  intro live record present counted pid
  have total := conserved_reached known record.mail (by simpa [office] using counted)
  have once : ((view s.base.base).sent.map Prod.fst).count record.mail = 1 := by
    apply List.count_eq_one_of_mem (sound_reached known).registered.fresh (List.mem_map.mpr _)
    exact ⟨_, List.mem_map.mpr ⟨record, present, rfl⟩, rfl⟩
  have not_queued : s.base.base.region.queue.items.count record.mail = 0 := by
    apply List.count_eq_zero.mpr
    intro member
    exact queued live _ member pid
  have not_held : (s.base.base.workers.flatMap localMails).count record.mail = 0 := by
    apply List.count_eq_zero.mpr
    intro member
    obtain ⟨x, thread, mine⟩ := List.mem_flatMap.mp member
    have unfinished := local_unfinished x mine
    rw [held x thread] at unfinished
    exact List.not_mem_nil unfinished
  rw [once, undelivered_view] at total
  change s.base.base.region.queue.items.count _ + _ + (invokedMails s.base.base).count _ +
    (purgedMails s.base.base).count _ = 1 at total
  omega

/-- Where no action that serves is left to the threads that live, none is left at all. -/
theorem sane_stuck {capacity : Nat} {s : Mortal} (sane : Sane s)
    (stuck : ∀ l : MortalAction, serves l.act = true → (mortal capacity).step s l = none) :
    ∀ a, serves a = true → (machine capacity).step s.base.base a = none := by
  intro a own
  have alone : destroysWaited s.base.base a = false := by
    cases a with
    | destroyPoll => exact Bool.noConfusion own
    | _ => rfl
  by_contra moves
  obtain ⟨u, moved⟩ := Option.ne_none_iff_exists'.mp moves
  obtain ⟨t, stepped, _⟩ := goes_steps (sane_goes sane alone) moved
  simp [stuck { act := a } own] at stepped

def notifiedOnce : List MortalAction :=
  [.construct 5 100 [7] [entrySeven], .construct 6 200 [] [entrySeven], .worker 0 .find,
    .worker 0 .test, .worker 0 .wait, .notify 200 ⟨6, 200, 7, some [1, 2], 2⟩ fun _ => 10].map
      fun act => { act }

def servedOnce : List MortalAction :=
  [.broadcast, .worker 0 .retest, .worker 0 (.drain [mailAtomInit]), .worker 0 .next,
    .worker 0 .invoke, .worker 0 .comeBack, .worker 0 (.mark 11), .worker 0 .next,
    .worker 0 .test, .worker 0 .wait].map fun act => { act }

def restsChecked (s : State) : Bool :=
  decide (s.user = none) && s.workers.all fun w => decide (w.pos = .waiting)

end SharedDelivery
