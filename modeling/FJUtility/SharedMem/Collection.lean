import FJUtility.SharedMem.Allocator
import FJUtility.SharedMem.MailGuarantees

/- profileAndGC seen from outside. A processed slot that has expired is as good as a free one
   to the allocator, and no thread looks at it again, so a run is the same, the contents of
   such slots apart, without its collections. -/
namespace SharedCollection
open LabelledMachine Courier FixMap FixVector SharedRegion SharedSending SharedTables
open SharedAllocator SharedProcesses SharedSteps SharedMail SharedGuarantees

/-- A slot of the run with collections, and the same slot of the run without: a collection at
    bound or earlier may have freed it. -/
def Freed (bound : Int) (pa pa' : PayloadAtom) : Prop :=
  pa = payloadAtomInit pa' ∧ pa'.inUse = true ∧ reusable bound pa' = true

def SlotsAgree (bound : Int) (payload payload' : Nat → PayloadAtom) : Prop :=
  ∀ i, payload i = payload' i ∨ Freed bound (payload i) (payload' i)

def withSlots (payload : Nat → PayloadAtom) (r : Region) : Region := { r with payload }

def stateWith (payload : Nat → PayloadAtom) (s : State) : State :=
  { s with region := withSlots payload s.region }

def Agree (bound : Int) (s s' : State) : Prop :=
  s = stateWith s.region.payload s' ∧ SlotsAgree bound s.region.payload s'.region.payload

def collectedAt (bound : Int) : Action → Int
  | .profileAndGC now _ => now
  | _ => bound

/-- The clock does not go back behind a collection, and gc_after_ms is not below the age at
    which the allocator itself takes a processed slot again. -/
def Timely (bound : Int) : Action → Prop
  | .profileAndGC now gcAfterMs => bound ≤ now ∧ reuseAfterMs ≤ gcAfterMs
  | .notify _ _ clock => ∀ k, bound ≤ clock k
  | _ => True

def TimelyRun : Int → List Action → Prop
  | _, [] => True
  | bound, a :: rest => Timely bound a ∧ TimelyRun (collectedAt bound a) rest

def plainAction : Action → Bool
  | .profileAndGC _ _ => false
  | _ => true

theorem slotsAgree_refl (bound : Int) (payload : Nat → PayloadAtom) :
    SlotsAgree bound payload payload := fun _ => Or.inl rfl

theorem agree_refl (bound : Int) (s : State) : Agree bound s s := ⟨rfl, slotsAgree_refl _ _⟩

theorem reusable_later {bound now : Int} (later : bound ≤ now) {pa : PayloadAtom}
    (old : reusable bound pa = true) : reusable now pa = true := by
  simp only [reusable, Bool.and_eq_true, decide_eq_true_eq] at old ⊢
  exact ⟨old.1, by omega⟩

theorem freed_spare {bound : Int} {pa pa' : PayloadAtom} (freed : Freed bound pa pa') :
    pending pa' = false := by
  obtain ⟨_, _, old⟩ := freed
  simp only [reusable, Bool.and_eq_true] at old
  simp [pending, old.1]

theorem agree_pending {bound : Int} {payload payload' : Nat → PayloadAtom}
    (agree : SlotsAgree bound payload payload') {i : Nat} (waits : pending (payload' i) = true) :
    payload i = payload' i := by
  rcases agree i with same | freed
  · exact same
  · rw [freed_spare freed] at waits
    exact Bool.noConfusion waits

theorem agree_update {bound : Int} {payload payload' : Nat → PayloadAtom}
    (agree : SlotsAgree bound payload payload') (idx : Nat) (pa : PayloadAtom) :
    SlotsAgree bound (Function.update payload idx pa) (Function.update payload' idx pa) := by
  intro i
  by_cases here : i = idx
  · left
    rw [here, Function.update_self, Function.update_self]
  · rw [Function.update_of_ne here, Function.update_of_ne here]
    exact agree i

theorem agree_qualifies {bound now : Int} (later : bound ≤ now) {payload payload' : Nat → PayloadAtom}
    (agree : SlotsAgree bound payload payload') (i : Nat) :
    qualifies now (payload i) = qualifies now (payload' i) := by
  rcases agree i with same | ⟨is, used, old⟩
  · rw [same]
  · have expired := reusable_later later old
    simp [qualifies, is, payloadAtomInit, expired]

theorem handOut_agree {bound : Int} {payload : Nat → PayloadAtom} {r : Region}
    (agree : SlotsAgree bound payload r.payload) (idx : Nat) :
    handOut idx (withSlots payload r) =
      withSlots (Function.update payload idx ((handOut idx r).payload idx)) (handOut idx r) := by
  rcases agree idx with same | ⟨is, used, old⟩
  · simp [handOut, withSlots, setPayload, same]
  · simp [handOut, withSlots, setPayload, is, used, payloadAtomInit]

theorem allocPayloadSlot_agree {bound now : Int} (later : bound ≤ now)
    {payload : Nat → PayloadAtom} {r : Region} (agree : SlotsAgree bound payload r.payload) :
    allocPayloadSlot now (withSlots payload r) = (allocPayloadSlot now r).map fun (idx, region) =>
      (idx, withSlots (Function.update payload idx (region.payload idx)) region) := by
  rw [allocPayloadSlot_search, allocPayloadSlot_search, Option.map_map]
  have same : ((ring (withSlots payload r)).find? fun i =>
      qualifies now ((withSlots payload r).payload i)) =
        (ring r).find? fun i => qualifies now (r.payload i) := by
    congr 1
    funext i
    exact agree_qualifies later agree i
  rw [same]
  congr 1
  funext idx
  simp only [Function.comp_apply, handOut_agree agree]

theorem init_agree {bound : Int} {payload payload' : Nat → PayloadAtom}
    (agree : SlotsAgree bound payload payload') (idx : Nat) :
    payloadAtomInit (payload idx) = payloadAtomInit (payload' idx) := by
  rcases agree idx with same | ⟨is, _⟩
  · rw [same]
  · rw [is]
    rfl

def sendingWith (payload : Nat → PayloadAtom) (st : Sending) : Sending :=
  { st with region := withSlots payload st.region }

def SendingsAgree (bound : Int) (st st' : Sending) : Prop :=
  st = sendingWith st.region.payload st' ∧ SlotsAgree bound st.region.payload st'.region.payload

theorem pushMail_agree {bound : Int} {payload : Nat → PayloadAtom} {s : Sending} (n : Notice)
    (target m : MailAtom) (slot : Option PayloadAtom)
    (agree : SlotsAgree bound payload s.region.payload) :
    SendingsAgree bound (pushMail n target m slot (sendingWith payload s))
      (pushMail n target m slot s) := by
  unfold pushMail
  dsimp only [sendingWith, withSlots]
  split
  · exact ⟨rfl, agree⟩
  · split
    · rename_i idx owns
      constructor
      · rfl
      · simp only [setPayload, init_agree agree idx]
        exact agree_update agree idx _
    · exact ⟨rfl, agree⟩

theorem sendTo_agree {bound allocNow sentNow : Int} (later : bound ≤ allocNow)
    {payload : Nat → PayloadAtom} {st : Sending} (n : Notice) (target : MailAtom)
    (agree : SlotsAgree bound payload st.region.payload) :
    SendingsAgree bound (sendTo n allocNow sentNow target (sendingWith payload st))
      (sendTo n allocNow sentNow target st) := by
  have alloc := allocPayloadSlot_agree later agree
  unfold sendTo
  dsimp only [sendingWith]
  split
  · rw [alloc]
    cases found : allocPayloadSlot allocNow st.region with
    | none => exact ⟨rfl, agree⟩
    | some given =>
      obtain ⟨idx, region⟩ := given
      obtain ⟨rfl, _⟩ := allocPayloadSlot_some found
      have filled : ∀ pa, SlotsAgree bound (Function.update (Function.update payload idx
          ((handOut idx st.region).payload idx)) idx pa)
          (Function.update (handOut idx st.region).payload idx pa) := by
        intro pa i
        by_cases here : i = idx
        · left
          rw [here, Function.update_self, Function.update_self]
        · rw [Function.update_of_ne here, Function.update_of_ne here, Function.update_of_ne here,
            handOut_other _ here]
          exact agree i
      simp only [Option.map_some, withSlots, Function.update_self]
      exact pushMail_agree n target _ _ (s := { st with
        region := setPayload (handOut idx st.region) idx
          (fillPayload n target sentNow ((handOut idx st.region).payload idx)) }) (filled _)
  · exact pushMail_agree n target _ none agree

theorem scan_agree {bound : Int} {clock : Nat → Int} (later : ∀ k, bound ≤ clock k) (n : Notice)
    (items : List MailAtom) (i : Nat) {st st' : Sending} (agree : SendingsAgree bound st st') :
    SendingsAgree bound (scan n clock i items st) (scan n clock i items st') := by
  induction items generalizing i st st' with
  | nil => exact agree
  | cons target rest ih =>
    simp only [scan]
    split
    · exact agree
    · split
      · exact ih (i + 1) agree
      · apply ih (i + 1)
        rw [agree.1]
        exact sendTo_agree (later _) n target agree.2

theorem notify_agree {bound : Int} {clock : Nat → Int} (later : ∀ k, bound ≤ clock k) (n : Notice)
    {payload : Nat → PayloadAtom} {r : Region} (sent : List SentRecord)
    (agree : SlotsAgree bound payload r.payload) :
    SendingsAgree bound (notify n clock (withSlots payload r) sent).2 (notify n clock r sent).2 := by
  have start : SendingsAgree bound ⟨withSlots payload r, 0, [], sent⟩ ⟨r, 0, [], sent⟩ := ⟨rfl, agree⟩
  have scanned := scan_agree later n (r.listen.items.drop (lowerBound r.listen.items n.msg)) 0 start
  have listen : (withSlots payload r).listen = r.listen := rfl
  unfold notify
  simp only [listen]
  split
  · exact start
  · split
    · exact start
    · split
      · exact start
      · split
        · exact scanned
        · exact start

theorem notifyLocked_agree {bound : Int} {clock : Nat → Int} (later : ∀ k, bound ≤ clock k)
    (n : Notice) {payload : Nat → PayloadAtom} {s : State}
    (agree : SlotsAgree bound payload s.region.payload) :
    Agree bound (notifyLocked n clock (stateWith payload s)) (notifyLocked n clock s) := by
  obtain ⟨same, slots⟩ := notify_agree later n s.sent agree
  unfold notifyLocked
  dsimp only [stateWith]
  rw [same]
  exact ⟨rfl, slots⟩

theorem addListen_with (payload : Nat → PayloadAtom) (pid obj : Nat) (list : List Nat)
    (result : List MailAtom) (r : Region) : addListen pid obj list result (withSlots payload r) =
      (addListen pid obj list result r).map fun (region, n) => (withSlots payload region, n) := by
  simp [addListen, withSlots, Option.map_map, Function.comp_def]

theorem register_with (payload : Nat → PayloadAtom) (capacity pid : Nat) (s : State) :
    register capacity pid (stateWith payload s) =
      (register capacity pid s).map fun (t, slot) => (stateWith payload t, slot) := by
  unfold register
  dsimp only [stateWith, withSlots]
  split
  · rfl
  · rw [Option.map_map]
    rfl

theorem retain_with (payload : Nat → PayloadAtom) (pid slot : Nat) (s : State) :
    retain pid slot (stateWith payload s) = stateWith payload (retain pid slot s) := by
  unfold retain
  dsimp only [stateWith, withSlots, proAtomAt, writeSlot]
  split <;> rfl

theorem construct_with (payload : Nat → PayloadAtom) (capacity pid addr : Nat) (list : List Nat)
    (result : List MailAtom) (s : State) :
    construct capacity pid addr list result (stateWith payload s) =
      (construct capacity pid addr list result s).map (stateWith payload) := by
  unfold construct
  have added : addListen pid addr list result (stateWith payload s).region = _ :=
    addListen_with payload pid addr list result s.region
  rw [added]
  cases addListen pid addr list result s.region with
  | none => rfl
  | some given =>
    obtain ⟨region, regi⟩ := given
    simp only [Option.map_some, Option.bind_some]
    split
    · have registered := register_with payload capacity pid { s with region }
      change register capacity pid { stateWith payload s with region := withSlots payload region } = _
        at registered
      rw [registered, Option.map_map, Option.map_map]
      congr 1
      funext given
      simp only [Function.comp_apply, retain_with]
      rfl
    · rfl

theorem addListenLocked_with (payload : Nat → PayloadAtom) (pid obj : Nat) (needworker : Bool)
    (list : List Nat) (result : List MailAtom) (s : State) :
    addListenLocked pid obj needworker list result (stateWith payload s) =
      (addListenLocked pid obj needworker list result s).map (stateWith payload) := by
  unfold addListenLocked
  split
  · have added : addListen pid obj list result (stateWith payload s).region = _ :=
      addListen_with payload pid obj list result s.region
    rw [added, Option.map_map, Option.map_map]
    rfl
  · rfl

theorem broadcastTo_with (payload : Nat → PayloadAtom) (pid : Nat) (rest : List Nat) (s : State) :
    broadcastTo pid rest (stateWith payload s) = stateWith payload (broadcastTo pid rest s) := by
  unfold broadcastTo
  dsimp only [stateWith, withSlots, proAtomAt]
  split
  · split <;> rfl
  · rfl

theorem destroyBegin_with (payload : Nat → PayloadAtom) (pid addr : Nat) (needworker : Bool)
    (s : State) : destroyBegin pid addr needworker (stateWith payload s) =
      stateWith payload (destroyBegin pid addr needworker s) := by
  unfold destroyBegin
  dsimp only [stateWith, withSlots, proAtomAt, writeSlot]
  split
  · split
    · split <;> rfl
    · rfl
  · rfl

theorem destroyPoll_with (payload : Nat → PayloadAtom) (pid addr slot polls : Nat) (s : State) :
    destroyPoll pid addr slot polls (stateWith payload s) =
      (destroyPoll pid addr slot polls s).map (stateWith payload) := by
  unfold destroyPoll
  simp only [apply_ite (Option.map (stateWith payload)), Option.map_some, Option.map_none]
  rfl

theorem destroyPurge_with (payload : Nat → PayloadAtom) (pid addr : Nat) (needworker : Bool)
    (queueResult listenResult : List MailAtom) (s : State) :
    destroyPurge pid addr needworker queueResult listenResult (stateWith payload s) =
      (destroyPurge pid addr needworker queueResult listenResult s).map (stateWith payload) := by
  unfold destroyPurge
  split
  · have purged : purge addr queueResult listenResult (withSlots payload s.region) =
        (purge addr queueResult listenResult s.region).map (withSlots payload) := by
      simp [purge, withSlots, Option.map_bind, Option.map_map, Function.comp_def]
    change Option.map _ (purge addr queueResult listenResult (withSlots payload s.region)) = _
    rw [purged, Option.map_map, Option.map_map]
    rfl
  · rfl

theorem held_same {s : State} (sound : Sound office (view s)) {payload : Nat → PayloadAtom}
    (same : ∀ i, pending (s.region.payload i) = true → payload i = s.region.payload i) {j idx : Nat}
    {w : WorkerThread} (thread : s.workers[j]? = some w) {m : MailAtom}
    (held : m ∈ unfinishedMails w) (owns : m.payloadIdx = some idx) :
    payload idx = s.region.payload idx := by
  have flies : m ∈ inFlight s := List.mem_append_right _
    (List.mem_flatMap.mpr ⟨w, List.mem_of_getElem? thread, held⟩)
  exact same idx (live_pending sound.registered sound.intact ((live_view s).symm ▸ flies) owns)

theorem nextMail_with {payload : Nat → PayloadAtom} (i : Nat) (w : WorkerThread) {mail : MailAtom}
    (rest : List MailAtom) {s : State}
    (same : ∀ idx, mail.payloadIdx = some idx → payload idx = s.region.payload idx) :
    nextMail i w mail rest (stateWith payload s) =
      (nextMail i w mail rest s).map (stateWith payload) := by
  unfold nextMail
  split
  · rfl
  · split
    · rename_i idx owns
      have slot : (stateWith payload s).region.payload idx = s.region.payload idx := same idx owns
      simp only [slot, apply_ite (Option.map (stateWith payload)), Option.map_some, Option.map_none]
      rfl
    · rfl

theorem callbackData_with {payload : Nat → PayloadAtom} {mail : MailAtom} {r : Region}
    (size : Option Nat)
    (same : ∀ idx, mail.payloadIdx = some idx → payload idx = r.payload idx) :
    callbackData (withSlots payload r) mail size = callbackData r mail size := by
  unfold callbackData
  cases owns : mail.payloadIdx with
  | none => rfl
  | some idx => simp only [Option.bind_some, withSlots, same idx owns]

theorem workerStep_with {s : State} (sound : Sound office (view s)) {payload : Nat → PayloadAtom}
    (same : ∀ i, pending (s.region.payload i) = true → payload i = s.region.payload i) {i : Nat}
    {w : WorkerThread} (thread : s.workers[i]? = some w) {act : WorkerAct}
    (unmarked : ∀ now, act ≠ .mark now) :
    workerStep i w (w.slot.getD 0) (stateWith payload s) act w.pos =
      (workerStep i w (w.slot.getD 0) s act w.pos).map (stateWith payload) := by
  have slots : ∀ m ∈ unfinishedMails w, ∀ idx, m.payloadIdx = some idx →
      payload idx = s.region.payload idx := fun m held idx => held_same sound same thread held
  simp only [unfinishedMails] at slots
  generalize w.pos = pos at slots ⊢
  unfold workerStep
  split
  · simp only [apply_ite (Option.map (stateWith payload)), Option.map_none]
    change (if s.user = none then _ else _) = _
    congr 1
    dsimp only [stateWith, withSlots]
    split <;> rfl
  · rfl
  · rfl
  · rfl
  · rfl
  · simp only [apply_ite (Option.map (stateWith payload)), Option.map_map, Option.map_none]
    change (if s.user = none then _ else _) = _
    congr 1
    have drained : ∀ result, drain w.pid result (withSlots payload s.region) =
        (drain w.pid result s.region).map fun taken =>
          (taken.1, withSlots payload taken.2) := by
      intro result
      simp [drain, withSlots, Option.map_map, Function.comp_def]
    change Option.map _ (drain w.pid _ (withSlots payload s.region)) = _
    rw [drained, Option.map_map]
    rfl
  · rfl
  · exact nextMail_with i w _ (slots _ (List.mem_cons_self ..))
  · rename_i mail size rest
    have data := callbackData_with size (slots mail (List.mem_cons_self ..))
    change some (moveWorker i w _ { stateWith payload s with
      log := s.log ++ [.invoked i w.pid mail (callbackData (withSlots payload s.region) mail size)
        (s.instances w.pid mail.obj)] }) = _
    rw [data]
    rfl
  · rfl
  · rfl
  · exact absurd rfl (unmarked _)
  · rfl
  · rfl

def writesSlots : Action → Bool
  | .notify _ _ _ | .profileAndGC _ _ | .worker _ (.mark _) => true
  | _ => false

theorem locked_with (payload : Nat → PayloadAtom) {s : State} {body body' : Option State}
    (same : body' = body.map (stateWith payload)) :
    locked (stateWith payload s) body' = (locked s body).map (stateWith payload) := by
  rw [same]
  unfold locked
  rw [apply_ite (Option.map (stateWith payload))]
  rfl

theorem step_with {capacity : Nat} {s : State} (sound : Sound office (view s))
    {payload : Nat → PayloadAtom}
    (same : ∀ i, pending (s.region.payload i) = true → payload i = s.region.payload i) {a : Action}
    (quiet : writesSlots a = false) :
    step capacity (stateWith payload s) a = (step capacity s a).map (stateWith payload) := by
  have instances : (stateWith payload s).instances = s.instances := rfl
  have user : (stateWith payload s).user = s.user := rfl
  cases a with
  | construct pid addr list result =>
    simp only [step, apply_ite (Option.map (stateWith payload)), Option.map_none]
    rw [← locked_with payload (construct_with payload capacity pid addr list result s)]
    rfl
  | addListenScalar pid self obj msg result =>
    simp only [step, instances]
    split
    · rename_i needworker live
      simp only [apply_ite (Option.map (stateWith payload)), Option.map_some]
      rw [locked_with payload (addListenLocked_with payload pid obj needworker [msg] result s)]
    · rfl
  | addListenList pid self obj list result =>
    simp only [step, instances]
    split
    · rename_i needworker live
      simp only [apply_ite (Option.map (stateWith payload)), Option.map_some]
      rw [locked_with payload (addListenLocked_with payload pid obj needworker list result s)]
    · rfl
  | notify | profileAndGC => exact Bool.noConfusion quiet
  | broadcast =>
    simp only [step, user]
    split
    · simp only [broadcastTo_with, Option.map_some]
    · rfl
  | destroyBegin pid addr =>
    simp only [step, instances]
    split
    · rename_i needworker live
      apply locked_with payload
      rw [destroyBegin_with]
      rfl
    · rfl
  | destroySignal =>
    simp only [step, user]
    split <;> rfl
  | destroyPoll =>
    simp only [step, user]
    split
    · exact destroyPoll_with payload _ _ _ _ s
    · rfl
  | destroyPurge pid addr queueResult listenResult =>
    simp only [step, instances]
    split
    · exact locked_with payload (destroyPurge_with payload pid addr _ queueResult listenResult s)
    · rfl
  | destroyReturn pid addr =>
    simp only [step, instances]
    split <;> rfl
  | worker i act =>
    change s.workers[i]?.bind _ = (s.workers[i]?.bind _).map _
    cases thread : s.workers[i]? with
    | none => rfl
    | some w =>
      apply workerStep_with sound same thread
      rintro now rfl
      exact Bool.noConfusion quiet

theorem markMail_agree {bound : Int} (now : Int) {payload : Nat → PayloadAtom} {r : Region}
    {mail : MailAtom} (agree : SlotsAgree bound payload r.payload)
    (same : ∀ idx, mail.payloadIdx = some idx → payload idx = r.payload idx) :
    ∃ payload', markMail mail now (withSlots payload r) =
      withSlots payload' (markMail mail now r) ∧
        SlotsAgree bound payload' (markMail mail now r).payload := by
  unfold markMail
  split
  · rename_i idx owns
    have slot : (withSlots payload r).payload idx = r.payload idx := same idx owns
    simp only [markProcessed, slot]
    split
    · exact ⟨_, rfl, agree_update agree idx _⟩
    · exact ⟨payload, rfl, agree⟩
  · exact ⟨payload, rfl, agree⟩

/-- A step other than a collection is a step of both runs. -/
theorem step_agree {capacity : Nat} {bound : Int} {s t u : State} {a : Action}
    (sound : Sound office (view u)) (agree : Agree bound s u) (timely : Timely bound a)
    (plain : plainAction a = true) (stepped : step capacity s a = some t) :
    ∃ v, step capacity u a = some v ∧ Agree bound t v := by
  obtain ⟨apart, slots⟩ := agree
  generalize s.region.payload = payload at apart slots
  subst apart
  have same : ∀ i, pending (u.region.payload i) = true → payload i = u.region.payload i :=
    fun i => agree_pending slots
  cases writes : writesSlots a with
  | false =>
    rw [step_with sound same writes] at stepped
    obtain ⟨v, moved, rfl⟩ := Option.map_eq_some_iff.mp stepped
    have kept : step capacity (stateWith u.region.payload u) a = _ :=
      step_with sound (fun _ _ => rfl) writes
    change step capacity u a = _ at kept
    rw [moved, Option.map_some, Option.some.injEq] at kept
    refine ⟨v, moved, rfl, ?_⟩
    rw [kept]
    exact slots
  | true =>
    cases a with
    | notify self n clock =>
      have instances : (stateWith payload u).instances = u.instances := rfl
      simp only [step, instances] at stepped ⊢
      split at stepped
      · split at stepped
        · rename_i fits
          obtain ⟨free, entered⟩ := of_locked stepped
          rw [Option.some.injEq] at entered
          have unlocked : u.user = none := free
          refine ⟨notifyLocked n clock u, ?_, entered ▸ notifyLocked_agree timely n slots⟩
          simp only [if_pos fits, locked, unlocked, reduceIte]
        · exact absurd stepped (by simp)
      · exact absurd stepped (by simp)
    | worker i act =>
      obtain ⟨w, thread, moved⟩ := Option.bind_eq_some_iff.mp stepped
      have held : u.workers[i]? = some w := thread
      cases act with
      | mark now =>
        cases workerStep_moved moved with
        | @mark mail rest _ here free =>
          have unlocked : u.user = none := free
          have own : ∀ idx, mail.payloadIdx = some idx → payload idx = u.region.payload idx := by
            intro idx
            exact held_same sound same held (by simp [unfinishedMails, here])
          obtain ⟨payload', marked, slots'⟩ := markMail_agree now slots own
          refine ⟨moveWorker i w (.dispatching rest)
            { u with region := markMail mail now u.region }, ?_, ?_⟩
          · simp only [step, held, Option.bind_some, workerStep, here, unlocked, reduceIte]
          · simp only [Agree, moveWorker, stateWith, marked]
            exact ⟨rfl, slots'⟩
      | _ => exact Bool.noConfusion writes
    | profileAndGC => exact Bool.noConfusion plain
    | _ => exact Bool.noConfusion writes

theorem gcSlot_freed {now gcAfterMs : Int} (aged : reuseAfterMs ≤ gcAfterMs) (pa : PayloadAtom) :
    gcSlot now gcAfterMs pa = pa ∨ Freed now (gcSlot now gcAfterMs pa) pa := by
  unfold gcSlot
  split
  · exact Or.inl rfl
  · rename_i used
    split
    · rename_i expired
      simp only [Bool.and_eq_true, decide_eq_true_eq] at expired
      simp only [Bool.not_eq_true', Bool.not_eq_false] at used
      refine Or.inr ⟨rfl, used, ?_⟩
      simp only [reusable, expired.1, Bool.true_and, decide_eq_true_eq]
      omega
    · exact Or.inl rfl

/-- A collection is no step of the run without it. -/
theorem collect_agree {capacity : Nat} {bound now gcAfterMs : Int} {s t u : State}
    (agree : Agree bound s u) (later : bound ≤ now) (aged : reuseAfterMs ≤ gcAfterMs)
    (stepped : step capacity s (.profileAndGC now gcAfterMs) = some t) : Agree now t u := by
  obtain ⟨_, entered⟩ := of_locked stepped
  rw [Option.some.injEq] at entered
  subst entered
  obtain ⟨apart, slots⟩ := agree
  refine ⟨?_, fun i => ?_⟩
  · conv_lhs => rw [apart]
    rfl
  · have before : s.region.payload i = u.region.payload i ∨
        Freed now (s.region.payload i) (u.region.payload i) := by
      rcases slots i with same | ⟨is, used, old⟩
      · exact Or.inl same
      · exact Or.inr ⟨is, used, reusable_later later old⟩
    simp only [profileAndGC]
    split
    · rcases before with same | ⟨is, used, old⟩
      · rw [same]
        exact gcSlot_freed aged _
      · have kept : gcSlot now gcAfterMs (s.region.payload i) = s.region.payload i := by
          simp [gcSlot, is, payloadAtomInit]
        rw [kept]
        exact Or.inr ⟨is, used, old⟩
    · exact before

theorem run_agree {capacity : Nat} (labels : List Action) {bound : Int} {s t u : State}
    (reached : (machine capacity).Reachable u) (agree : Agree bound s u)
    (timely : TimelyRun bound labels) (executed : (machine capacity).run s labels = some t) :
    ∃ v, (machine capacity).run u (labels.filter plainAction) = some v ∧
      Agree (labels.foldl collectedAt bound) t v := by
  induction labels generalizing bound s u with
  | nil =>
    rw [Machine.run, Machine.runBy, Option.some.injEq] at executed
    exact ⟨u, rfl, executed ▸ agree⟩
  | cons a rest ih =>
    obtain ⟨here, later⟩ := timely
    obtain ⟨s', stepped, tail⟩ := Option.bind_eq_some_iff.mp executed
    cases plain : plainAction a with
    | true =>
      obtain ⟨u', moved, agree'⟩ := step_agree (sound_reached reached) agree here plain stepped
      have same : collectedAt bound a = bound := by
        cases a with
        | profileAndGC => exact Bool.noConfusion plain
        | _ => rfl
      rw [same] at later
      obtain ⟨v, ended, last⟩ := ih (.next reached trivial moved) agree' later tail
      refine ⟨v, ?_, by rwa [List.foldl_cons, same]⟩
      rw [List.filter_cons_of_pos plain]
      change (step capacity u a).bind _ = _
      rw [moved]
      exact ended
    | false =>
      cases a with
      | profileAndGC now gcAfterMs =>
        have collected : step capacity s (.profileAndGC now gcAfterMs) = some s' := stepped
        rw [List.filter_cons_of_neg (by simp [plain])]
        exact ih reached (collect_agree agree here.1 here.2 collected) later tail
      | _ => exact Bool.noConfusion plain

/-- Without its collections a run is the same, the slots apart that they freed: callbacks get
    the same data, and _notify picks the same slots and returns the same. -/
theorem collections_unseen {capacity : Nat} {labels : List Action} {bound : Int} {s t : State}
    (first : (machine capacity).init s) (timely : TimelyRun bound labels)
    (executed : (machine capacity).run s labels = some t) :
    ∃ v, (machine capacity).run s (labels.filter plainAction) = some v ∧
      Agree (labels.foldl collectedAt bound) t v :=
  run_agree labels (.start first) (agree_refl bound s) timely executed

def collecting : List Action :=
  [.construct 5 100 [7] [entrySeven], .construct 6 200 [] [entrySeven], .worker 0 .find,
    .worker 0 .test, .worker 0 .wait, .notify 200 ⟨6, 200, 7, some [1, 2, 3], 2⟩ (fun _ => 10),
    .broadcast, .notify 200 ⟨6, 200, 7, some [4], 1⟩ (fun _ => 11), .broadcast, .worker 0 .retest,
    .worker 0 (.drain [mailAtomInit, mailAtomInit]), .worker 0 .next, .worker 0 .invoke,
    .worker 0 .comeBack, .worker 0 (.mark 12), .worker 0 .next, .worker 0 .invoke,
    .worker 0 .comeBack, .worker 0 (.mark 13), .profileAndGC 6000 5000,
    .notify 200 ⟨6, 200, 7, some [5], 1⟩ (fun _ => 6001), .broadcast, .profileAndGC 6001 5000]

theorem collecting_unseen :
    ∃ s, (machine 22).run zeroed collecting = some s ∧
      ∃ t, (machine 22).run zeroed (collecting.filter plainAction) = some t ∧
        Agree (collecting.foldl collectedAt 0) s t := by
  obtain ⟨s, executed, _⟩ := run_ends collecting (zeroed_initial 22) (by decide +kernel)
  exact ⟨s, executed, collections_unseen (zeroed_initial 22)
    (by simp [collecting, TimelyRun, Timely, collectedAt, reuseAfterMs]) executed⟩

end SharedCollection
