import FJUtility.SharedMem.Processes
import FJUtility.SharedMem.Sending
import FJUtility.SharedMem.Tables

/- What a step of the processes can be, one constructor for each section or action with the
   conditions under which it happens. -/
namespace SharedSteps
open LabelledMachine FixMap FixVector SharedRegion SharedSending SharedTables SharedProcesses

def Unchecked (mail : MailAtom) : Prop := ∀ idx, mail.payloadIdx = some idx → ¬ idx < payloadSlots

inductive WorkerMoved (i : Nat) (w : WorkerThread) (s : State) : WorkerAct → State → Prop where
  | find {found : Nat} (here : w.pos = .starting) (free : s.user = none)
      (registered : findIndex s.region.protbl w.pid = some found) :
      WorkerMoved i w s .find
        { s with workers := s.workers.set i { w with slot := some found, pos := .looping } }
  | crash (here : w.pos = .starting) (free : s.user = none)
      (unregistered : findIndex s.region.protbl w.pid = none) :
      WorkerMoved i w s .find (moveWorker i w .crashed s)
  | test (here : w.pos = .looping) (runs : (proAtomAt s (w.slot.getD 0)).running = true) :
      WorkerMoved i w s .test (moveWorker i w .toWait s)
  | stop (here : w.pos = .looping) (halted : (proAtomAt s (w.slot.getD 0)).running = false) :
      WorkerMoved i w s .test (moveWorker i w .exiting s)
  | wait (here : w.pos = .toWait) : WorkerMoved i w s .wait (moveWorker i w .waiting s)
  | spurious (here : w.pos = .waiting) : WorkerMoved i w s .spurious (moveWorker i w .woken s)
  | retest (here : w.pos = .woken) (runs : (proAtomAt s (w.slot.getD 0)).running = true) :
      WorkerMoved i w s .retest (moveWorker i w .toDrain s)
  | stopWoken (here : w.pos = .woken) (halted : (proAtomAt s (w.slot.getD 0)).running = false) :
      WorkerMoved i w s .retest (moveWorker i w .exiting s)
  | drain {result locals : List MailAtom} {region : Region} (here : w.pos = .toDrain)
      (free : s.user = none) (drained : drain w.pid result s.region = some (locals, region)) :
      WorkerMoved i w s (.drain result) (moveWorker i w (.dispatching locals) { s with region })
  | idle (here : w.pos = .dispatching []) : WorkerMoved i w s .next (moveWorker i w .looping s)
  | skip {mail : MailAtom} {rest : List MailAtom} (here : w.pos = .dispatching (mail :: rest))
      (empty : mail.obj = 0) : WorkerMoved i w s .next (moveWorker i w (.dispatching rest) s)
  | checked {mail : MailAtom} {rest : List MailAtom} {idx : Nat}
      (here : w.pos = .dispatching (mail :: rest)) (object : mail.obj ≠ 0)
      (owns : mail.payloadIdx = some idx) (within : idx < payloadSlots) (free : s.user = none) :
      WorkerMoved i w s .next (moveWorker i w (.calling mail
        (if payloadMatches w.pid mail (s.region.payload idx) then some (s.region.payload idx).size
          else none) rest) s)
  | unchecked {mail : MailAtom} {rest : List MailAtom} (here : w.pos = .dispatching (mail :: rest))
      (object : mail.obj ≠ 0) (plain : Unchecked mail) :
      WorkerMoved i w s .next (moveWorker i w (.calling mail none rest) s)
  | invoke {mail : MailAtom} {size : Option Nat} {rest : List MailAtom}
      (here : w.pos = .calling mail size rest) :
      WorkerMoved i w s .invoke (moveWorker i w (.inCallback mail size rest)
        { s with log := s.log ++ [.invoked i w.pid mail (callbackData s.region mail size)
            (s.instances w.pid mail.obj)] })
  | comeBackWithData {mail : MailAtom} {size : Nat} {rest : List MailAtom}
      (here : w.pos = .inCallback mail (some size) rest) :
      WorkerMoved i w s .comeBack (moveWorker i w (.toMark mail rest) s)
  | comeBack {mail : MailAtom} {rest : List MailAtom} (here : w.pos = .inCallback mail none rest) :
      WorkerMoved i w s .comeBack (moveWorker i w (.dispatching rest) s)
  | mark {mail : MailAtom} {rest : List MailAtom} {now : Int} (here : w.pos = .toMark mail rest)
      (free : s.user = none) :
      WorkerMoved i w s (.mark now)
        (moveWorker i w (.dispatching rest) { s with region := markMail mail now s.region })
  | finish (here : w.pos = .exiting) :
      WorkerMoved i w s .finish (moveWorker i w .done (writeSlot s (w.slot.getD 0)
        { proAtomAt s (w.slot.getD 0) with workerDone := true }))

theorem nextMail_moved {i : Nat} {w : WorkerThread} {mail : MailAtom} {rest : List MailAtom}
    {s t : State} (here : w.pos = .dispatching (mail :: rest))
    (moved : nextMail i w mail rest s = some t) : WorkerMoved i w s .next t := by
  unfold nextMail at moved
  split at moved
  · rename_i empty
    simp only [Option.some.injEq] at moved
    exact moved ▸ .skip here empty
  · rename_i object
    split at moved
    · rename_i idx owns
      split at moved
      · rename_i within
        split at moved
        · rename_i free
          simp only [Option.some.injEq] at moved
          exact moved ▸ .checked here object owns within free
        · simp at moved
      · rename_i beyond
        simp only [Option.some.injEq] at moved
        refine moved ▸ .unchecked here object fun j has => ?_
        simp only [owns, Option.some.injEq] at has
        exact has ▸ beyond
    · rename_i plain
      simp only [Option.some.injEq] at moved
      exact moved ▸ .unchecked here object fun j has => by simp [plain] at has

theorem workerStep_moved {i : Nat} {w : WorkerThread} {s t : State} {act : WorkerAct}
    (moved : workerStep i w (w.slot.getD 0) s act w.pos = some t) : WorkerMoved i w s act t := by
  generalize here : w.pos = pos at moved
  unfold workerStep at moved
  split at moved
  · split at moved
    · rename_i free
      split at moved
      · rename_i found registered
        simp only [Option.some.injEq] at moved
        exact moved ▸ .find here free registered
      · rename_i unregistered
        simp only [Option.some.injEq] at moved
        exact moved ▸ .crash here free unregistered
    · simp at moved
  · simp only [Option.some.injEq] at moved
    split at moved
    · rename_i runs
      exact moved ▸ .test here runs
    · rename_i halted
      exact moved ▸ .stop here (by simpa using halted)
  · simp only [Option.some.injEq] at moved
    exact moved ▸ .wait here
  · simp only [Option.some.injEq] at moved
    exact moved ▸ .spurious here
  · simp only [Option.some.injEq] at moved
    split at moved
    · rename_i runs
      exact moved ▸ .retest here runs
    · rename_i halted
      exact moved ▸ .stopWoken here (by simpa using halted)
  · split at moved
    · rename_i free
      obtain ⟨⟨locals, region⟩, drained, rfl⟩ := Option.map_eq_some_iff.mp moved
      exact .drain here free drained
    · simp at moved
  · simp only [Option.some.injEq] at moved
    exact moved ▸ .idle here
  · exact nextMail_moved here moved
  · simp only [Option.some.injEq] at moved
    exact moved ▸ .invoke here
  · simp only [Option.some.injEq] at moved
    exact moved ▸ .comeBackWithData here
  · simp only [Option.some.injEq] at moved
    exact moved ▸ .comeBack here
  · split at moved
    · rename_i free
      simp only [Option.some.injEq] at moved
      exact moved ▸ .mark here free
    · simp at moved
  · simp only [Option.some.injEq] at moved
    exact moved ▸ .finish here
  · simp at moved

def countedUp (p : ProAtom) : ProAtom := { p with refcount := (p.refcount + 1) % 2 ^ 64 }

def startedWith (worker : Nat) (p : ProAtom) : ProAtom :=
  { countedUp p with running := true, workerDone := false, worker }

inductive Retained (capacity pid : Nat) (s : State) :
    FJFixMap ProAtom → List WorkerThread → Prop where
  | counted {slot : Nat} (found : findIndex s.region.protbl pid = some slot)
      (later : (countedUp (proAtomAt s slot)).refcount ≠ 1) :
      Retained capacity pid s (write s.region.protbl slot (countedUp (proAtomAt s slot))) s.workers
  | revived {slot : Nat} (found : findIndex s.region.protbl pid = some slot)
      (first : (countedUp (proAtomAt s slot)).refcount = 1) :
      Retained capacity pid s
        (write s.region.protbl slot (startedWith s.workers.length (proAtomAt s slot)))
        (s.workers ++ [⟨pid, none, .starting⟩])
  | entered {slot : Nat} {protbl : FJFixMap ProAtom}
      (absent : findIndex s.region.protbl pid = none)
      (inserted : insert capacity s.region.protbl pid = some (protbl, slot)) :
      Retained capacity pid s
        (write (write protbl slot proAtomInit) slot (startedWith s.workers.length proAtomInit))
        (s.workers ++ [⟨pid, none, .starting⟩])

/-- regi > 0 in the constructor. -/
def needsWorker (pid addr : Nat) (list : List Nat) (result : List MailAtom) (s : State) : Bool :=
  (addListen pid addr list result s.region).any fun added => decide (0 < added.2)

structure Constructed (capacity pid addr : Nat) (list : List Nat) (result : List MailAtom)
    (s t : State) : Prop where
  listed : ∀ m ∈ t.region.listen.items, m ∈ s.region.listen.items ∨ m.obj = addr ∧ m.pid = pid
  queue : t.region.queue = s.region.queue
  payload : t.region.payload = s.region.payload
  user : t.user = s.user
  instances : ∃ needworker, t.instances = setStatus s pid addr (.live needworker)
  sent : t.sent = s.sent
  log : t.log = s.log
  registered : t.region.protbl = s.region.protbl ∧ t.workers = s.workers ∨
    needsWorker pid addr list result s = true ∧ Retained capacity pid s t.region.protbl t.workers

theorem register_retained {capacity pid slot : Nat} {s u : State}
    (registered : register capacity pid s = some (u, slot)) :
    ∃ protbl workers, Retained capacity pid s protbl workers ∧ retain pid slot u =
      { s with region := { s.region with protbl }, workers } := by
  unfold register at registered
  split at registered
  · rename_i here found
    simp only [Option.some.injEq, Prod.mk.injEq] at registered
    obtain ⟨rfl, rfl⟩ := registered
    by_cases first : (countedUp (proAtomAt s here)).refcount = 1
    · exact ⟨_, _, .revived found first, by unfold retain; exact if_pos first⟩
    · exact ⟨_, _, .counted found first, by unfold retain; exact if_neg first⟩
  · rename_i absent
    obtain ⟨⟨protbl, place⟩, inserted, same⟩ := Option.map_eq_some_iff.mp registered
    simp only [Prod.mk.injEq] at same
    obtain ⟨rfl, rfl⟩ := same
    refine ⟨_, _, .entered absent inserted, ?_⟩
    have fresh : proAtomAt (writeSlot { s with region := { s.region with protbl } } place proAtomInit)
        place = proAtomInit := by
      simp [proAtomAt, writeSlot, write]
    unfold retain
    rw [fresh]
    rfl

theorem retained_region {capacity pid : Nat} {s : State} {region : Region}
    {protbl : FJFixMap ProAtom} {workers : List WorkerThread}
    (same : region.protbl = s.region.protbl)
    (retained : Retained capacity pid { s with region } protbl workers) :
    Retained capacity pid s protbl workers := by
  cases retained with
  | counted found later =>
    simp only [proAtomAt, same] at *
    exact .counted found later
  | revived found first =>
    simp only [proAtomAt, same] at *
    exact .revived found first
  | entered absent inserted =>
    simp only [same] at *
    exact .entered absent inserted

inductive Built (capacity pid addr : Nat) (list : List Nat) (result : List MailAtom) (s : State) :
    State → Prop where
  | plain {region : Region} {initialized : Nat}
      (added : addListen pid addr list result s.region = some (region, 0))
      (counted : initialized = (region.initialized + 1) % 2 ^ 32) :
      Built capacity pid addr list result s
        { s with
          region := { region with initialized }
          instances := setStatus s pid addr (.live false) }
  | needing {region : Region} {regi initialized : Nat} {protbl : FJFixMap ProAtom}
      {workers : List WorkerThread}
      (added : addListen pid addr list result s.region = some (region, regi)) (needs : 0 < regi)
      (retained : Retained capacity pid s protbl workers)
      (counted : initialized = (region.initialized + 1) % 2 ^ 32) :
      Built capacity pid addr list result s
        { s with
          region := { region with protbl, initialized }
          workers
          instances := setStatus s pid addr (.live true) }

theorem construct_built {capacity pid addr : Nat} {list : List Nat} {result : List MailAtom}
    {s t : State} (constructed : construct capacity pid addr list result s = some t) :
    Built capacity pid addr list result s t := by
  unfold construct at constructed
  obtain ⟨⟨region, regi⟩, added, rest⟩ := Option.bind_eq_some_iff.mp constructed
  have protbl : region.protbl = s.region.protbl := by rw [(addListen_listed added).1]
  dsimp only at rest
  split at rest
  · rename_i needs
    obtain ⟨⟨u, slot⟩, registered, rfl⟩ := Option.map_eq_some_iff.mp rest
    obtain ⟨protbl', workers, retained, same⟩ := register_retained registered
    simp only [same]
    exact .needing added needs (retained_region protbl retained) rfl
  · rename_i plain
    obtain rfl := Nat.eq_zero_of_not_pos plain
    simp only [Option.some.injEq] at rest
    exact rest ▸ .plain added rfl

theorem construct_constructed {capacity pid addr : Nat} {list : List Nat} {result : List MailAtom}
    {s t : State} (constructed : construct capacity pid addr list result s = some t) :
    Constructed capacity pid addr list result s t := by
  have fields : ∀ {region : Region} {regi : Nat},
      addListen pid addr list result s.region = some (region, regi) →
      (∀ m ∈ region.listen.items, m ∈ s.region.listen.items ∨ m.obj = addr ∧ m.pid = pid) ∧
        region.queue = s.region.queue ∧ region.payload = s.region.payload ∧
          region.protbl = s.region.protbl := by
    intro region regi added
    obtain ⟨tables, listed⟩ := addListen_listed added
    rw [tables]
    exact ⟨listed, rfl, rfl, rfl⟩
  cases construct_built constructed with
  | plain added counted =>
    obtain ⟨listed, queue, payload, protbl⟩ := fields added
    exact ⟨listed, queue, payload, rfl, ⟨false, rfl⟩, rfl, rfl, Or.inl ⟨protbl, rfl⟩⟩
  | needing added needs retained counted =>
    obtain ⟨listed, queue, payload, protbl⟩ := fields added
    have needed : needsWorker pid addr list result s = true := by
      simpa [needsWorker, added] using needs
    exact ⟨listed, queue, payload, rfl, ⟨true, rfl⟩, rfl, rfl, Or.inr ⟨needed, retained⟩⟩

theorem constructed_workers {capacity pid addr : Nat} {list : List Nat} {result : List MailAtom}
    {s t : State} (constructed : Constructed capacity pid addr list result s t) :
    t.workers = s.workers ∨ t.workers = s.workers ++ [⟨pid, none, .starting⟩] := by
  rcases constructed.registered with ⟨_, same⟩ | ⟨_, retained⟩
  · exact Or.inl same
  · generalize t.workers = workers at retained ⊢
    generalize t.region.protbl = protbl at retained
    cases retained with
    | counted => exact Or.inl rfl
    | revived | entered => exact Or.inr rfl

def afterRound (rest : List Nat) : Option RegionUser :=
  if rest = [] then none else some (.broadcasting rest)

inductive Rounded (pid : Nat) (rest : List Nat) (s : State) : State → Prop where
  | woke {slot : Nat} (found : findIndex s.region.protbl pid = some slot)
      (runs : (proAtomAt s slot).running = true) (works : (proAtomAt s slot).workerDone = false) :
      Rounded pid rest s { s with user := afterRound rest, workers := wakeSlot slot s.workers }
  | passed (idle : ∀ slot, findIndex s.region.protbl pid = some slot →
        (proAtomAt s slot).running = true → (proAtomAt s slot).workerDone = true) :
      Rounded pid rest s { s with user := afterRound rest }

theorem rounded_user {pid : Nat} {rest : List Nat} {s t : State} (rounded : Rounded pid rest s t) :
    t.user = afterRound rest := by
  cases rounded <;> rfl

theorem broadcastTo_rounded (pid : Nat) (rest : List Nat) (s : State) :
    Rounded pid rest s (broadcastTo pid rest s) := by
  unfold broadcastTo
  dsimp only
  split
  · rename_i slot found
    split
    · rename_i awake
      simp only [Bool.and_eq_true, Bool.not_eq_true'] at awake
      exact .woke found awake.1 awake.2
    · rename_i asleep
      refine .passed fun slot' found' runs => ?_
      rw [found, Option.some.injEq] at found'
      subst found'
      simpa [runs] using asleep
  · rename_i absent
    exact .passed fun slot found _ => by simp [absent] at found

inductive Begun (pid addr : Nat) (needworker : Bool) (s : State) : State → Prop where
  | leave (unregistered : needworker = true → findIndex s.region.protbl pid = none) :
      Begun pid addr needworker s { s with instances := setStatus s pid addr (.purging needworker) }
  | counted {slot refcount : Nat} (needs : needworker = true)
      (found : findIndex s.region.protbl pid = some slot)
      (down : refcount = ((proAtomAt s slot).refcount + 2 ^ 64 - 1) % 2 ^ 64) (others : refcount ≠ 0) :
      Begun pid addr needworker s
        { s with
          region := { s.region with
            protbl := write s.region.protbl slot { proAtomAt s slot with refcount } }
          instances := setStatus s pid addr (.purging needworker) }
  | last {slot refcount : Nat} (needs : needworker = true)
      (found : findIndex s.region.protbl pid = some slot)
      (down : refcount = ((proAtomAt s slot).refcount + 2 ^ 64 - 1) % 2 ^ 64) (none_left : refcount = 0) :
      Begun pid addr needworker s
        { s with
          region := { s.region with
            protbl := write s.region.protbl slot { proAtomAt s slot with refcount, running := false } }
          user := some (.stopping pid addr slot)
          instances := setStatus s pid addr .joining }

theorem destroyBegin_begun (pid addr : Nat) (needworker : Bool) (s : State) :
    Begun pid addr needworker s (destroyBegin pid addr needworker s) := by
  unfold destroyBegin
  dsimp only
  split
  · rename_i needs
    split
    · rename_i slot found
      split
      · rename_i none_left
        exact .last needs found rfl none_left
      · rename_i others
        exact .counted needs found rfl others
    · rename_i absent
      exact .leave fun _ => absent
  · rename_i plain
    exact .leave fun needs => absurd needs plain

inductive Polled (pid addr slot polls : Nat) (s : State) : State → Prop where
  | joined (finished : (proAtomAt s slot).workerDone = true)
      (ended : isDone s (proAtomAt s slot).worker = true) :
      Polled pid addr slot polls s (destroyEntry pid addr slot true s)
  | waited (unfinished : (proAtomAt s slot).workerDone = false) (early : polls < timeoutMs) :
      Polled pid addr slot polls s { s with user := some (.joining pid addr slot (polls + 1)) }
  | timedOut (unfinished : (proAtomAt s slot).workerDone = false) (late : ¬ polls < timeoutMs) :
      Polled pid addr slot polls s (destroyEntry pid addr slot false s)

theorem destroyPoll_polled {pid addr slot polls : Nat} {s t : State}
    (polled : destroyPoll pid addr slot polls s = some t) : Polled pid addr slot polls s t := by
  unfold destroyPoll at polled
  dsimp only at polled
  split at polled
  · rename_i finished
    split at polled
    · rename_i ended
      simp only [Option.some.injEq] at polled
      exact polled ▸ .joined finished ended
    · simp at polled
  · rename_i unfinished
    split at polled
    · rename_i early
      simp only [Option.some.injEq] at polled
      exact polled ▸ .waited (by simpa using unfinished) early
    · rename_i late
      simp only [Option.some.injEq] at polled
      exact polled ▸ .timedOut (by simpa using unfinished) late

inductive Left (pid addr : Nat) (s : State) : Bool → State → Prop where
  | purged {region : Region} {initialized : Nat} (tables : Purged addr s.region region)
      (counted : initialized = (region.initialized + 2 ^ 32 - 1) % 2 ^ 32) :
      Left pid addr s true
        { s with
          region := { region with initialized }
          instances := setStatus s pid addr .unmapping
          log := s.log ++ (s.region.queue.items.filter (isObj addr)).map (.purged pid addr) }
  | plain {initialized : Nat}
      (counted : initialized = (s.region.initialized + 2 ^ 32 - 1) % 2 ^ 32) :
      Left pid addr s false
        { s with
          region := { s.region with initialized }
          instances := setStatus s pid addr .unmapping }

inductive Purges (pid addr : Nat) (queueResult listenResult : List MailAtom) (s : State) :
    Bool → State → Prop where
  | purged {region : Region} {initialized : Nat}
      (tables : purge addr queueResult listenResult s.region = some region)
      (counted : initialized = (region.initialized + 2 ^ 32 - 1) % 2 ^ 32) :
      Purges pid addr queueResult listenResult s true
        { s with
          region := { region with initialized }
          instances := setStatus s pid addr .unmapping
          log := s.log ++ (s.region.queue.items.filter (isObj addr)).map (.purged pid addr) }
  | plain {initialized : Nat}
      (counted : initialized = (s.region.initialized + 2 ^ 32 - 1) % 2 ^ 32) :
      Purges pid addr queueResult listenResult s false
        { s with
          region := { s.region with initialized }
          instances := setStatus s pid addr .unmapping }

theorem destroyPurge_purges {pid addr : Nat} {needworker : Bool}
    {queueResult listenResult : List MailAtom} {s t : State}
    (purged : destroyPurge pid addr needworker queueResult listenResult s = some t) :
    Purges pid addr queueResult listenResult s needworker t := by
  unfold destroyPurge at purged
  dsimp only at purged
  split at purged
  · rename_i worker
    obtain ⟨region, tables, rfl⟩ := Option.map_eq_some_iff.mp purged
    exact worker ▸ .purged tables rfl
  · rename_i worker
    simp only [Option.some.injEq, List.append_nil] at purged
    have no : needworker = false := by simpa using worker
    exact purged ▸ no ▸ .plain rfl

theorem destroyPurge_left {pid addr : Nat} {needworker : Bool}
    {queueResult listenResult : List MailAtom} {s t : State}
    (purged : destroyPurge pid addr needworker queueResult listenResult s = some t) :
    Left pid addr s needworker t := by
  cases destroyPurge_purges purged with
  | purged tables counted => exact .purged (purge_purged tables) counted
  | plain counted => exact .plain counted

inductive Stepped (capacity : Nat) (s : State) : Action → State → Prop where
  | construct {pid addr : Nat} {list : List Nat} {result : List MailAtom} {t : State}
      (object : addr ≠ 0) (unused : s.instances pid addr = .absent ∨ s.instances pid addr = .destroyed)
      (free : s.user = none) (constructed : Constructed capacity pid addr list result s t) :
      Stepped capacity s (.construct pid addr list result) t
  | rejectScalar {pid self obj msg : Nat} {result : List MailAtom} :
      Stepped capacity s (.addListenScalar pid self obj msg result) s
  | rejectList {pid self obj : Nat} {list : List Nat} {result : List MailAtom} :
      Stepped capacity s (.addListenList pid self obj list result) s
  | addScalar {pid self obj msg n : Nat} {result : List MailAtom} {region : Region}
      (object : obj ≠ 0) (free : s.user = none)
      (added : addListen pid obj [msg] result s.region = some (region, n)) :
      Stepped capacity s (.addListenScalar pid self obj msg result) { s with region }
  | addList {pid self obj n : Nat} {list : List Nat} {result : List MailAtom} {region : Region}
      (object : obj ≠ 0) (free : s.user = none)
      (added : addListen pid obj list result s.region = some (region, n)) :
      Stepped capacity s (.addListenList pid self obj list result) { s with region }
  | notify {self : Nat} {n : Notice} {clock : Nat → Int} (free : s.user = none)
      (fits : n.size ≤ (n.buf.getD []).length ∨ n.buf = none) :
      Stepped capacity s (.notify self n clock) (notifyLocked n clock s)
  | broadcast {pid : Nat} {rest : List Nat} {t : State}
      (user : s.user = some (.broadcasting (pid :: rest))) (rounded : Rounded pid rest s t) :
      Stepped capacity s .broadcast t
  | collect {now gcAfterMs : Int} (free : s.user = none) :
      Stepped capacity s (.profileAndGC now gcAfterMs)
        { s with region := profileAndGC now gcAfterMs s.region }
  | destroyBegin {pid addr : Nat} {needworker : Bool} {t : State}
      (live : s.instances pid addr = .live needworker) (free : s.user = none)
      (begun : Begun pid addr needworker s t) : Stepped capacity s (.destroyBegin pid addr) t
  | destroySignal {pid addr slot : Nat} (user : s.user = some (.stopping pid addr slot)) :
      Stepped capacity s .destroySignal (destroySignal pid addr slot s)
  | destroyPoll {pid addr slot polls : Nat} {t : State}
      (user : s.user = some (.joining pid addr slot polls))
      (polled : Polled pid addr slot polls s t) : Stepped capacity s .destroyPoll t
  | destroyPurge {pid addr : Nat} {needworker : Bool} {queueResult listenResult : List MailAtom}
      {t : State} (leaving : s.instances pid addr = .purging needworker) (free : s.user = none)
      (left : Left pid addr s needworker t) :
      Stepped capacity s (.destroyPurge pid addr queueResult listenResult) t
  | destroyReturn {pid addr : Nat} (leaving : s.instances pid addr = .unmapping) :
      Stepped capacity s (.destroyReturn pid addr)
        { s with instances := setStatus s pid addr .destroyed }
  | worker {i : Nat} {w : WorkerThread} {act : WorkerAct} {t : State}
      (thread : s.workers[i]? = some w) (moved : WorkerMoved i w s act t) :
      Stepped capacity s (.worker i act) t

theorem of_locked {s t : State} {body : Option State} (entered : locked s body = some t) :
    s.user = none ∧ body = some t := by
  unfold locked at entered
  split at entered
  · rename_i free
    exact ⟨free, entered⟩
  · simp at entered

theorem addListenLocked_cases {pid obj : Nat} {needworker : Bool} {list : List Nat}
    {result : List MailAtom} {s t : State}
    (entered : addListenLocked pid obj needworker list result s = some t) :
    t = s ∨ needworker = true ∧ ∃ region n,
      addListen pid obj list result s.region = some (region, n) ∧ t = { s with region } := by
  unfold addListenLocked at entered
  split at entered
  · rename_i needs
    obtain ⟨⟨region, n⟩, added, rfl⟩ := Option.map_eq_some_iff.mp entered
    exact Or.inr ⟨needs, region, n, added, rfl⟩
  · exact Or.inl (Option.some.inj entered).symm

theorem step_stepped {capacity : Nat} {s t : State} {a : Action}
    (stepped : (machine capacity).step s a = some t) : Stepped capacity s a t := by
  change step capacity s a = some t at stepped
  cases a with
  | construct pid addr list result =>
    simp only [step] at stepped
    split at stepped
    · rename_i entry
      obtain ⟨free, constructed⟩ := of_locked stepped
      exact .construct entry.1 entry.2 free (construct_constructed constructed)
    · simp at stepped
  | addListenScalar pid self obj msg result =>
    simp only [step] at stepped
    split at stepped
    · split at stepped
      · simp only [Option.some.injEq] at stepped
        exact stepped ▸ .rejectScalar
      · rename_i valid
        obtain ⟨free, entered⟩ := of_locked stepped
        rcases addListenLocked_cases entered with rfl | ⟨_, region, n, added, rfl⟩
        · exact .rejectScalar
        · exact .addScalar (fun zero => valid (Or.inl zero)) free added
    · simp at stepped
  | addListenList pid self obj list result =>
    simp only [step] at stepped
    split at stepped
    · split at stepped
      · simp only [Option.some.injEq] at stepped
        exact stepped ▸ .rejectList
      · rename_i valid
        obtain ⟨free, entered⟩ := of_locked stepped
        rcases addListenLocked_cases entered with rfl | ⟨_, region, n, added, rfl⟩
        · exact .rejectList
        · exact .addList valid free added
    · simp at stepped
  | notify self n clock =>
    simp only [step] at stepped
    split at stepped
    · split at stepped
      · rename_i fits
        obtain ⟨free, entered⟩ := of_locked stepped
        simp only [Option.some.injEq] at entered
        exact entered ▸ .notify free fits
      · simp at stepped
    · simp at stepped
  | broadcast =>
    simp only [step] at stepped
    split at stepped
    · rename_i pid rest user
      simp only [Option.some.injEq] at stepped
      exact .broadcast user (stepped ▸ broadcastTo_rounded pid rest s)
    · simp at stepped
  | profileAndGC now gcAfterMs =>
    obtain ⟨free, entered⟩ := of_locked stepped
    simp only [Option.some.injEq] at entered
    exact entered ▸ .collect free
  | destroyBegin pid addr =>
    simp only [step] at stepped
    split at stepped
    · rename_i needworker live
      obtain ⟨free, entered⟩ := of_locked stepped
      simp only [Option.some.injEq] at entered
      exact .destroyBegin live free (entered ▸ destroyBegin_begun pid addr needworker s)
    · simp at stepped
  | destroySignal =>
    simp only [step] at stepped
    split at stepped
    · rename_i pid addr slot user
      simp only [Option.some.injEq] at stepped
      exact stepped ▸ .destroySignal user
    · simp at stepped
  | destroyPoll =>
    simp only [step] at stepped
    split at stepped
    · rename_i pid addr slot polls user
      exact .destroyPoll user (destroyPoll_polled stepped)
    · simp at stepped
  | destroyPurge pid addr queueResult listenResult =>
    simp only [step] at stepped
    split at stepped
    · rename_i needworker leaving
      obtain ⟨free, purged⟩ := of_locked stepped
      exact .destroyPurge leaving free (destroyPurge_left purged)
    · simp at stepped
  | destroyReturn pid addr =>
    simp only [step] at stepped
    split at stepped
    · rename_i leaving
      simp only [Option.some.injEq] at stepped
      exact stepped ▸ .destroyReturn leaving
    · simp at stepped
  | worker i act =>
    obtain ⟨w, thread, moved⟩ := Option.bind_eq_some_iff.mp stepped
    exact .worker thread (workerStep_moved moved)

inductive TableStep (capacity : Nat) (s : State) : Action → FJFixMap ProAtom → Prop where
  | same {a : Action} : TableStep capacity s a s.region.protbl
  | written {a : Action} (slot : Nat) (p : ProAtom) :
      TableStep capacity s a (write s.region.protbl slot p)
  | entered {pid addr slot : Nat} {list : List Nat} {result : List MailAtom}
      {protbl : FJFixMap ProAtom} (p p' : ProAtom)
      (needs : needsWorker pid addr list result s = true)
      (absent : findIndex s.region.protbl pid = none)
      (inserted : insert capacity s.region.protbl pid = some (protbl, slot)) :
      TableStep capacity s (.construct pid addr list result)
        (write (write protbl slot p) slot p')
  | removed {pid addr slot polls : Nat} (user : s.user = some (.joining pid addr slot polls))
      (gone : (proAtomAt s slot).workerDone = true ∨ ¬ polls < timeoutMs) :
      TableStep capacity s .destroyPoll (unset s.region.protbl pid).1

theorem constructed_table {capacity pid addr : Nat} {list : List Nat} {result : List MailAtom}
    {s t : State} (constructed : Constructed capacity pid addr list result s t) :
    TableStep capacity s (.construct pid addr list result) t.region.protbl := by
  rcases constructed.registered with ⟨same, _⟩ | ⟨needs, retained⟩
  · exact same ▸ .same
  · generalize t.region.protbl = protbl at retained ⊢
    generalize t.workers = workers at retained
    cases retained with
    | counted found later => exact .written _ _
    | revived found first => exact .written _ _
    | entered absent inserted => exact .entered _ _ needs absent inserted

theorem markMail_same (mail : MailAtom) (now : Int) (r : Region) :
    markMail mail now r = { r with payload := (markMail mail now r).payload } := by
  unfold markMail markProcessed
  split
  · dsimp only
    split <;> rfl
  · rfl

theorem markMail_table (mail : MailAtom) (now : Int) (r : Region) :
    (markMail mail now r).protbl = r.protbl := by
  rw [markMail_same]

theorem moved_table {capacity : Nat} {s t : State} {i : Nat} {w : WorkerThread} {act : WorkerAct}
    (moved : WorkerMoved i w s act t) : TableStep capacity s (.worker i act) t.region.protbl := by
  cases moved with
  | @drain result locals region here free drained =>
    have same : region.protbl = s.region.protbl := by
      rw [(drain_drained drained).tables]
    simp only [moveWorker, same]
    exact .same
  | @mark mail rest now here free =>
    simp only [moveWorker, markMail_table]
    exact .same
  | finish here => exact .written _ _
  | _ => exact .same

theorem step_table {capacity : Nat} {s t : State} {a : Action} (stepped : Stepped capacity s a t) :
    TableStep capacity s a t.region.protbl := by
  cases stepped with
  | construct object unused free constructed => exact constructed_table constructed
  | addScalar object free added | addList object free added =>
    rw [(addListen_listed added).1]
    exact .same
  | @notify self n clock free fits =>
    have same := (notify_same n clock s.region s.sent).protbl
    simp only [notifyLocked, same]
    exact .same
  | broadcast user rounded => cases rounded <;> exact .same
  | destroyBegin live free begun =>
    cases begun with
    | leave => exact .same
    | counted | last => exact .written _ _
  | destroyPoll user polled =>
    cases polled with
    | joined finished ended => exact .removed user (Or.inl finished)
    | waited unfinished early => exact .same
    | timedOut unfinished late => exact .removed user (Or.inr late)
  | destroyPurge leaving free left =>
    cases left with
    | purged tables counted =>
      simp only
      rw [tables.tables]
      exact .same
    | plain counted => exact .same
  | worker thread moved => exact moved_table moved
  | rejectScalar | rejectList | collect | destroySignal | destroyReturn => exact .same

inductive ThreadStep (s t : State) (a : Action) (j : Nat) (w' : WorkerThread) : Prop where
  | same (was : s.workers[j]? = some w')
  | woken {w : WorkerThread} (was : s.workers[j]? = some w) (waits : w.pos = .waiting)
      (is : w' = { w with pos := .woken })
  | moved {w : WorkerThread} {act : WorkerAct} (was : s.workers[j]? = some w)
      (own : a = .worker j act) (moves : WorkerMoved j w s act t) (is : t.workers[j]? = some w')
  | started {pid addr : Nat} {list : List Nat} {result : List MailAtom}
      (construct : a = .construct pid addr list result) (last : j = s.workers.length)
      (is : w' = ⟨pid, none, .starting⟩)

theorem wakeSlot_thread {s t : State} {a : Action} {j slot : Nat} {w' : WorkerThread}
    (is : (wakeSlot slot s.workers)[j]? = some w') : ThreadStep s t a j w' := by
  simp only [wakeSlot, List.getElem?_map, Option.map_eq_some_iff] at is
  obtain ⟨w, was, rfl⟩ := is
  split
  · rename_i waits
    exact .woken was waits.2 rfl
  · exact .same was

theorem moved_set {s t : State} {i : Nat} {w : WorkerThread} {act : WorkerAct}
    (moved : WorkerMoved i w s act t) :
    ∃ w', t.workers = s.workers.set i w' ∧ w'.pid = w.pid ∧ w.pos ≠ .done ∧
      (w'.slot = w.slot ∨ ∃ found, w'.slot = some found ∧
        findIndex s.region.protbl w.pid = some found) := by
  cases moved with
  | find here free registered => exact ⟨_, rfl, rfl, by simp [here], Or.inr ⟨_, rfl, registered⟩⟩
  | crash here | test here | stop here | wait here | spurious here | retest here
  | stopWoken here | drain here | idle here
  | skip here | checked here | unchecked here | invoke here | comeBackWithData here
  | comeBack here | mark here | finish here =>
    exact ⟨_, rfl, rfl, by simp [here], Or.inl rfl⟩

theorem moved_busy {s t : State} {i : Nat} {w : WorkerThread} {act : WorkerAct}
    (moved : WorkerMoved i w s act t) : w.pos ≠ .done := by
  obtain ⟨_, _, _, busy, _⟩ := moved_set moved
  exact busy

theorem moved_thread {s t : State} {i j : Nat} {w w' : WorkerThread} {act : WorkerAct}
    (thread : s.workers[i]? = some w) (moved : WorkerMoved i w s act t)
    (is : t.workers[j]? = some w') : ThreadStep s t (.worker i act) j w' := by
  by_cases here : i = j
  · subst here
    exact .moved thread rfl moved is
  · obtain ⟨w'', set, _⟩ := moved_set moved
    rw [set, List.getElem?_set_ne here] at is
    exact .same is

theorem step_thread {capacity : Nat} {s t : State} {a : Action} (stepped : Stepped capacity s a t)
    {j : Nat} {w' : WorkerThread} (is : t.workers[j]? = some w') : ThreadStep s t a j w' := by
  cases stepped with
  | construct object unused free constructed =>
    rcases constructed_workers constructed with same | grown
    · exact .same (same ▸ is)
    · rw [grown, List.getElem?_append] at is
      split at is
      · exact .same is
      · rename_i late
        have last := List.mem_singleton.mp (List.mem_of_getElem? is)
        have := (List.getElem?_eq_some_iff.mp is).1
        simp only [List.length_singleton] at this
        exact .started rfl (by omega) last
  | broadcast user rounded =>
    cases rounded with
    | woke => exact wakeSlot_thread is
    | passed => exact .same is
  | destroyBegin live free begun => cases begun <;> exact .same is
  | destroySignal user => exact wakeSlot_thread is
  | destroyPoll user polled => cases polled <;> exact .same is
  | destroyPurge leaving free left => cases left <;> exact .same is
  | worker thread moved => exact moved_thread thread moved is
  | rejectScalar | rejectList | addScalar | addList | notify | collect | destroyReturn =>
    exact .same is

theorem wakeSlot_keeps_thread {slot j : Nat} {workers : List WorkerThread} {w : WorkerThread}
    (was : workers[j]? = some w) : ∃ w', (wakeSlot slot workers)[j]? = some w' ∧ w'.pid = w.pid := by
  simp only [wakeSlot, List.getElem?_map, was, Option.map_some, Option.some.injEq, exists_eq_left']
  split <;> rfl

theorem step_keeps_thread {capacity : Nat} {s t : State} {a : Action}
    (stepped : Stepped capacity s a t) {j : Nat} {w : WorkerThread} (was : s.workers[j]? = some w) :
    ∃ w', t.workers[j]? = some w' ∧ w'.pid = w.pid := by
  cases stepped with
  | construct object unused free constructed =>
    rcases constructed_workers constructed with same | grown
    · exact ⟨w, same ▸ was, rfl⟩
    · refine ⟨w, ?_, rfl⟩
      rw [grown, List.getElem?_append_left (List.getElem?_eq_some_iff.mp was).1, was]
  | broadcast user rounded =>
    cases rounded with
    | woke => exact wakeSlot_keeps_thread was
    | passed => exact ⟨w, was, rfl⟩
  | destroyBegin live free begun => cases begun <;> exact ⟨w, was, rfl⟩
  | destroySignal user => exact wakeSlot_keeps_thread was
  | destroyPoll user polled => cases polled <;> exact ⟨w, was, rfl⟩
  | destroyPurge leaving free left => cases left <;> exact ⟨w, was, rfl⟩
  | @worker i x act t thread moved =>
    obtain ⟨w', set, pid, _⟩ := moved_set moved
    by_cases here : i = j
    · subst here
      have bound := (List.getElem?_eq_some_iff.mp was).1
      rw [thread, Option.some.injEq] at was
      exact ⟨w', by rw [set, List.getElem?_set_self bound], was ▸ pid⟩
    · exact ⟨w, by rw [set, List.getElem?_set_ne here, was], rfl⟩
  | rejectScalar | rejectList | addScalar | addList | notify | collect | destroyReturn =>
    exact ⟨w, was, rfl⟩

inductive Logged (s : State) : Action → List Event → Prop where
  | quiet {a : Action} : Logged s a []
  | invoked {i : Nat} {w : WorkerThread} {mail : MailAtom} {size : Option Nat}
      {rest : List MailAtom} (thread : s.workers[i]? = some w)
      (here : w.pos = .calling mail size rest) :
      Logged s (.worker i .invoke)
        [.invoked i w.pid mail (callbackData s.region mail size) (s.instances w.pid mail.obj)]
  | purged {pid addr : Nat} {queueResult listenResult : List MailAtom} :
      Logged s (.destroyPurge pid addr queueResult listenResult)
        ((s.region.queue.items.filter (isObj addr)).map (.purged pid addr))
  | destroyed {pid addr slot polls : Nat} {joined : Bool}
      (user : s.user = some (.joining pid addr slot polls))
      (ends : joined = true ∧ isDone s (proAtomAt s slot).worker = true ∨
        (proAtomAt s slot).workerDone = false ∧ ¬ polls < timeoutMs) :
      Logged s .destroyPoll [.entryDestroyed pid slot (proAtomAt s slot).worker joined]

theorem step_logged {capacity : Nat} {s t : State} {a : Action} (stepped : Stepped capacity s a t) :
    ∃ out, t.log = s.log ++ out ∧ Logged s a out := by
  have quiet : t.log = s.log → ∃ out, t.log = s.log ++ out ∧ Logged s a out := by
    intro same
    exact ⟨[], same.trans (List.append_nil _).symm, .quiet⟩
  cases stepped with
  | construct object unused free constructed => exact quiet constructed.log
  | broadcast user rounded => cases rounded <;> exact quiet rfl
  | destroyBegin live free begun => cases begun <;> exact quiet rfl
  | destroyPoll user polled =>
    cases polled with
    | joined finished ended => exact ⟨_, rfl, .destroyed user (Or.inl ⟨rfl, ended⟩)⟩
    | waited => exact quiet rfl
    | timedOut unfinished late => exact ⟨_, rfl, .destroyed user (Or.inr ⟨unfinished, late⟩)⟩
  | destroyPurge leaving free left =>
    cases left with
    | purged => exact ⟨_, rfl, .purged⟩
    | plain => exact quiet rfl
  | worker thread moved =>
    cases moved with
    | invoke here => exact ⟨_, rfl, .invoked thread here⟩
    | _ => exact quiet rfl
  | rejectScalar | rejectList | addScalar | addList | notify | collect | destroySignal
  | destroyReturn => exact quiet rfl

end SharedSteps
