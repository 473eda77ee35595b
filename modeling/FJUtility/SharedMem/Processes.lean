import Mathlib.Algebra.Group.Nat.Defs
import FJUtility.Library.LabelledMachine
import FJUtility.SharedMem.Region

/- Processes around one initialised region. A step is one section under the region's mutex_
   or one action of a worker outside it. Sections that keep mutex_ while they wait for a
   proAtom's mutex_ (the broadcast of _notify, the join loop of the destructor) take several
   steps, during which user names the thread that owns mutex_. The sections under a
   proAtom's mutex_ never wait inside, so each is one step. -/
namespace SharedProcesses
open LabelledMachine FixMap FixVector SharedRegion

def timeoutMs : Nat := 100

/-- Control points of workerThread. crashed is the lock of a null p->mutex_. -/
inductive WorkerPos where
  | starting
  | looping
  | toWait
  | waiting
  | woken
  | toDrain
  | dispatching (locals : List MailAtom)
  | calling (mail : MailAtom) (size : Option Nat) (rest : List MailAtom)
  | inCallback (mail : MailAtom) (size : Option Nat) (rest : List MailAtom)
  | toMark (mail : MailAtom) (rest : List MailAtom)
  | exiting
  | done
  | crashed
  deriving DecidableEq, Repr

/-- slot is the address p that the worker has obtained from protbl.find(pid_). -/
structure WorkerThread where
  pid : Nat
  slot : Option Nat := none
  pos : WorkerPos := .starting
  deriving DecidableEq, Repr

/-- Life of an instance: joining is the first section of the destructor while it waits for
    the worker, purging and unmapping are its points before and after the second one. -/
inductive InstStatus where
  | absent
  | live (needworker : Bool)
  | joining
  | purging (needworker : Bool)
  | unmapping
  | destroyed
  deriving DecidableEq, Repr

/-- stopping stands between the assignment of running_ and the broadcast. -/
inductive RegionUser where
  | broadcasting (pids : List Nat)
  | stopping (pid addr slot : Nat)
  | joining (pid addr slot polls : Nat)
  deriving DecidableEq, Repr

/-- Observations: a callback with what the instance behind obj_ is at that moment, the mails
    blanked by a destructor, and the end of a proAtom. -/
inductive Event where
  | invoked (worker pid : Nat) (mail : MailAtom) (data : Option (Nat × List UInt8))
      (target : InstStatus)
  | purged (pid addr : Nat) (mail : MailAtom)
  | entryDestroyed (pid slot worker : Nat) (joined : Bool)
  deriving DecidableEq, Repr

structure State where
  region : Region
  user : Option RegionUser
  workers : List WorkerThread
  instances : Nat → Nat → InstStatus
  sent : List SentRecord
  log : List Event

def proAtomAt (s : State) (slot : Nat) : ProAtom := (s.region.protbl.entries slot).value

def setStatus (s : State) (pid addr : Nat) (status : InstStatus) : Nat → Nat → InstStatus :=
  Function.update s.instances pid (Function.update (s.instances pid) addr status)

/-- pthread_cond_broadcast on the cond_ at an address. -/
def wakeSlot (slot : Nat) (workers : List WorkerThread) : List WorkerThread :=
  workers.map fun w =>
    if w.slot = some slot ∧ w.pos = .waiting then { w with pos := .woken } else w

def writeSlot (s : State) (slot : Nat) (p : ProAtom) : State :=
  { s with region := { s.region with protbl := write s.region.protbl slot p } }

def retain (pid slot : Nat) (s : State) : State :=
  let p := proAtomAt s slot
  let refcount := (p.refcount + 1) % 2 ^ 64
  if refcount = 1 then
    { writeSlot s slot
        { p with refcount, running := true, workerDone := false, worker := s.workers.length } with
      workers := s.workers ++ [{ pid }] }
  else writeSlot s slot { p with refcount }

def register (capacity pid : Nat) (s : State) : Option (State × Nat) :=
  match findIndex s.region.protbl pid with
  | some slot => some (s, slot)
  | none =>
    (insert capacity s.region.protbl pid).map fun (protbl, slot) =>
      (writeSlot { s with region := { s.region with protbl } } slot proAtomInit, slot)

def construct (capacity pid addr : Nat) (list : List Nat) (result : List MailAtom)
    (s : State) : Option State :=
  (addListen pid addr list result s.region).bind fun (region, regi) =>
    let entered := fun (t : State) (needworker : Bool) =>
      { t with
        region := { t.region with initialized := (t.region.initialized + 1) % 2 ^ 32 }
        instances := setStatus t pid addr (.live needworker) }
    if regi > 0 then
      (register capacity pid { s with region }).map fun (t, slot) =>
        entered (retain pid slot t) true
    else some (entered { s with region } false)

/-- Both overloads of addListen after their argument checks. -/
def addListenLocked (pid obj : Nat) (needworker : Bool) (list : List Nat)
    (result : List MailAtom) (s : State) : Option State :=
  if needworker then
    (addListen pid obj list result s.region).map fun (region, _) => { s with region }
  else some s

def notifyLocked (n : Notice) (clock : Nat → Int) (s : State) : State :=
  let sending := (notify n clock s.region s.sent).2
  { s with
    region := sending.region
    sent := sending.sent
    user := if sending.msgcount > 0 then some (.broadcasting sending.pids) else none }

/-- One round of the broadcast loop of _notify; after the last one mutex_ is released. -/
def broadcastTo (pid : Nat) (rest : List Nat) (s : State) : State :=
  let user := if rest = [] then none else some (RegionUser.broadcasting rest)
  match findIndex s.region.protbl pid with
  | some slot =>
    let p := proAtomAt s slot
    if p.running && !p.workerDone then { s with user, workers := wakeSlot slot s.workers }
    else { s with user }
  | none => { s with user }

/-- First section of the destructor up to p->running_ = false. -/
def destroyBegin (pid addr : Nat) (needworker : Bool) (s : State) : State :=
  let leave := { s with instances := setStatus s pid addr (.purging needworker) }
  if needworker then
    match findIndex s.region.protbl pid with
    | some slot =>
      let p := proAtomAt s slot
      let refcount := (p.refcount + 2 ^ 64 - 1) % 2 ^ 64
      if refcount = 0 then
        { writeSlot s slot { p with refcount, running := false } with
          user := some (.stopping pid addr slot)
          instances := setStatus s pid addr .joining }
      else writeSlot leave slot { p with refcount }
    | none => leave
  else leave

def destroySignal (pid addr slot : Nat) (s : State) : State :=
  { s with workers := wakeSlot slot s.workers, user := some (.joining pid addr slot 0) }

def destroyEntry (pid addr slot : Nat) (joined : Bool) (s : State) : State :=
  { s with
    region := { s.region with protbl := (unset s.region.protbl pid).1 }
    user := none
    instances := setStatus s pid addr (.purging true)
    log := s.log ++ [.entryDestroyed pid slot (proAtomAt s slot).worker joined] }

def isDone (s : State) (worker : Nat) : Bool :=
  s.workers[worker]?.any fun w => decide (w.pos = .done)

/-- One pass of the join loop, with i = polls; pthread_join blocks until the thread ends. -/
def destroyPoll (pid addr slot polls : Nat) (s : State) : Option State :=
  let p := proAtomAt s slot
  if p.workerDone then
    if isDone s p.worker then some (destroyEntry pid addr slot true s) else none
  else if polls < timeoutMs then some { s with user := some (.joining pid addr slot (polls + 1)) }
  else some (destroyEntry pid addr slot false s)

def destroyPurge (pid addr : Nat) (needworker : Bool) (queueResult listenResult : List MailAtom)
    (s : State) : Option State :=
  let leave := fun (region : Region) (purged : List Event) =>
    { s with
      region := { region with initialized := (region.initialized + 2 ^ 32 - 1) % 2 ^ 32 }
      instances := setStatus s pid addr .unmapping
      log := s.log ++ purged }
  if needworker then
    (purge addr queueResult listenResult s.region).map fun region =>
      leave region ((s.region.queue.items.filter fun m => m.obj = addr).map (.purged pid addr))
  else some (leave s.region [])

def moveWorker (i : Nat) (w : WorkerThread) (pos : WorkerPos) (s : State) : State :=
  { s with workers := s.workers.set i { w with pos } }

/-- What the callback sees of the payload slot the worker has checked. -/
def callbackData (r : Region) (mail : MailAtom) (size : Option Nat) : Option (Nat × List UInt8) :=
  mail.payloadIdx.bind fun idx => size.map fun size => (size, (r.payload idx).data.take size)

def markMail (mail : MailAtom) (now : Int) (r : Region) : Region :=
  match mail.payloadIdx with
  | some idx => markProcessed idx now r
  | none => r

inductive WorkerAct where
  | find
  | test
  | wait
  | spurious
  | retest
  | drain (result : List MailAtom)
  | next
  | invoke
  | comeBack
  | mark (now : Int)
  | finish
  deriving DecidableEq, Repr

/-- The head of the dispatch loop: skip a mail without object, check its payload slot under
    mutex_, or go on to the callback. -/
def nextMail (i : Nat) (w : WorkerThread) (mail : MailAtom) (rest : List MailAtom)
    (s : State) : Option State :=
  if mail.obj = 0 then some (moveWorker i w (.dispatching rest) s)
  else match mail.payloadIdx with
  | some idx =>
    if idx < payloadSlots then
      if s.user = none then
        let pa := s.region.payload idx
        some (moveWorker i w (.calling mail
          (if payloadMatches w.pid mail pa then some pa.size else none) rest) s)
      else none
    else some (moveWorker i w (.calling mail none rest) s)
  | none => some (moveWorker i w (.calling mail none rest) s)

/-- One action of workerThread. p->running_ is read through the cached address. -/
def workerStep (i : Nat) (w : WorkerThread) (slot : Nat) (s : State) :
    WorkerAct → WorkerPos → Option State
  | .find, .starting =>
    if s.user = none then
      match findIndex s.region.protbl w.pid with
      | some found =>
        some { s with workers := s.workers.set i { w with slot := some found, pos := .looping } }
      | none => some (moveWorker i w .crashed s)
    else none
  | .test, .looping =>
    some (moveWorker i w (if (proAtomAt s slot).running then .toWait else .exiting) s)
  | .wait, .toWait => some (moveWorker i w .waiting s)
  | .spurious, .waiting => some (moveWorker i w .woken s)
  | .retest, .woken =>
    some (moveWorker i w (if (proAtomAt s slot).running then .toDrain else .exiting) s)
  | .drain result, .toDrain =>
    if s.user = none then
      (drain w.pid result s.region).map fun (locals, region) =>
        moveWorker i w (.dispatching locals) { s with region }
    else none
  | .next, .dispatching [] => some (moveWorker i w .looping s)
  | .next, .dispatching (mail :: rest) => nextMail i w mail rest s
  | .invoke, .calling mail size rest =>
    some (moveWorker i w (.inCallback mail size rest)
      { s with log := s.log ++ [.invoked i w.pid mail (callbackData s.region mail size)
          (s.instances w.pid mail.obj)] })
  | .comeBack, .inCallback mail (some _) rest => some (moveWorker i w (.toMark mail rest) s)
  | .comeBack, .inCallback _ none rest => some (moveWorker i w (.dispatching rest) s)
  | .mark now, .toMark mail rest =>
    if s.user = none then
      some (moveWorker i w (.dispatching rest)
        { s with region := markMail mail now s.region })
    else none
  | .finish, .exiting =>
    some (moveWorker i w .done (writeSlot s slot { proAtomAt s slot with workerDone := true }))
  | _, _ => none

inductive Action where
  | construct (pid addr : Nat) (list : List Nat) (result : List MailAtom)
  | addListenScalar (pid self obj msg : Nat) (result : List MailAtom)
  | addListenList (pid self obj : Nat) (list : List Nat) (result : List MailAtom)
  | notify (self : Nat) (n : Notice) (clock : Nat → Int)
  | broadcast
  | profileAndGC (now gcAfterMs : Int)
  | destroyBegin (pid addr : Nat)
  | destroySignal
  | destroyPoll
  | destroyPurge (pid addr : Nat) (queueResult listenResult : List MailAtom)
  | destroyReturn (pid addr : Nat)
  | worker (i : Nat) (act : WorkerAct)

/-- Sections under mutex_ are entered only while no thread keeps it. -/
def locked (s : State) (section_ : Option State) : Option State :=
  if s.user = none then section_ else none

def step (capacity : Nat) (s : State) : Action → Option State
  | .construct pid addr list result =>
    if addr ≠ 0 ∧ (s.instances pid addr = .absent ∨ s.instances pid addr = .destroyed) then
      locked s (construct capacity pid addr list result s)
    else none
  | .addListenScalar pid self obj msg result =>
    match s.instances pid self with
    | .live needworker =>
      if obj = 0 ∨ msg = 0 then some s
      else locked s (addListenLocked pid obj needworker [msg] result s)
    | _ => none
  | .addListenList pid self obj list result =>
    match s.instances pid self with
    | .live needworker =>
      if obj = 0 then some s else locked s (addListenLocked pid obj needworker list result s)
    | _ => none
  | .notify self n clock =>
    match s.instances n.pid self with
    | .live _ =>
      if n.size ≤ (n.buf.getD []).length ∨ n.buf = none then
        locked s (some (notifyLocked n clock s))
      else none
    | _ => none
  | .broadcast =>
    match s.user with
    | some (.broadcasting (pid :: rest)) => some (broadcastTo pid rest s)
    | _ => none
  | .profileAndGC now gcAfterMs =>
    locked s (some { s with region := profileAndGC now gcAfterMs s.region })
  | .destroyBegin pid addr =>
    match s.instances pid addr with
    | .live needworker => locked s (some (destroyBegin pid addr needworker s))
    | _ => none
  | .destroySignal =>
    match s.user with
    | some (.stopping pid addr slot) => some (destroySignal pid addr slot s)
    | _ => none
  | .destroyPoll =>
    match s.user with
    | some (.joining pid addr slot polls) => destroyPoll pid addr slot polls s
    | _ => none
  | .destroyPurge pid addr queueResult listenResult =>
    match s.instances pid addr with
    | .purging needworker =>
      locked s (destroyPurge pid addr needworker queueResult listenResult s)
    | _ => none
  | .destroyReturn pid addr =>
    match s.instances pid addr with
    | .unmapping => some { s with instances := setStatus s pid addr .destroyed }
    | _ => none
  | .worker i act => s.workers[i]?.bind fun w => workerStep i w (w.slot.getD 0) s act w.pos

def initial (protbl : Nat → Entry ProAtom) (payload : Nat → PayloadAtom) : State where
  region := initSharedRegion protbl payload
  user := none
  workers := []
  instances := fun _ _ => .absent
  sent := []
  log := []

/-- The region right after initSharedRegion, over any earlier bytes; capacity is what
    FJFixMap makes of the bytes of protbl_. -/
def machine (capacity : Nat) : Machine State Action where
  init s := ∃ protbl payload, s = initial protbl payload
  step := step capacity

def localMails (w : WorkerThread) : List MailAtom :=
  match w.pos with
  | .dispatching locals => locals
  | .calling mail _ rest => mail :: rest
  | .inCallback _ _ rest => rest
  | .toMark _ rest => rest
  | _ => []

def unfinishedMails (w : WorkerThread) : List MailAtom :=
  match w.pos with
  | .dispatching locals => locals
  | .calling mail _ rest => mail :: rest
  | .inCallback mail _ rest => mail :: rest
  | .toMark mail rest => mail :: rest
  | _ => []

def zeroed : State :=
  initial (fun _ => ⟨0, ⟨0, 0, false, false⟩⟩) fun _ => ⟨false, false, 0, 0, 0, 0, 0, 0, []⟩

theorem zeroed_initial (capacity : Nat) : (machine capacity).init zeroed := ⟨_, _, rfl⟩

end SharedProcesses
