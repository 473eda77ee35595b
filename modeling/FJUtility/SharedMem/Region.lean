import FJUtility.Containers.FixMap
import FJUtility.Containers.FixVector

/- The management region of FJSharedMem and the functions that run inside one section of
   its mutex_. Clock readings and the permutation left by std::sort are parameters. The
   fields tag and the sent records belong to the observer: no function tests them. -/
namespace SharedRegion
open FixMap FixVector

def listenMax : Nat := 128
def queueMax : Nat := 384
def payloadMax : Nat := 512
def payloadSlots : Nat := 384
def reuseAfterMs : Int := 5000

/-- msg = 0 marks an empty mail; payloadIdx = none is the source's -1. -/
structure MailAtom where
  msg : Nat
  obj : Nat
  pid : Nat
  payloadIdx : Option Nat
  tag : Nat := 0
  deriving DecidableEq, Repr

/-- mutex_ and cond_ carry no data here: the threads blocked on cond_ are those whose
    control point says so. worker names a thread. -/
structure ProAtom where
  refcount : Nat
  worker : Nat
  running : Bool
  workerDone : Bool
  deriving DecidableEq, Repr

structure PayloadAtom where
  inUse : Bool
  processed : Bool
  size : Nat
  msg : Nat
  fromPid : Nat
  toPid : Nat
  sentMs : Int
  processedMs : Int
  data : List UInt8
  deriving DecidableEq, Repr

structure Region where
  initialized : Nat
  protbl : FJFixMap ProAtom
  listen : FJFixVector MailAtom listenMax
  queue : FJFixVector MailAtom queueMax
  payloadAllocHint : Nat
  payload : Nat → PayloadAtom

def mailAtomInit : MailAtom := ⟨0, 0, 0, none, 0⟩

def proAtomInit : ProAtom := ⟨0, 0, true, false⟩

def payloadAtomInit (pa : PayloadAtom) : PayloadAtom :=
  { pa with
    inUse := false, processed := false, size := 0, msg := 0, fromPid := 0, toPid := 0
    sentMs := 0, processedMs := 0 }

/-- The tables after initSharedRegion; protbl_ and the data bytes keep what they had. -/
def initSharedRegion (protbl : Nat → Entry ProAtom) (payload : Nat → PayloadAtom) : Region where
  initialized := 0
  protbl := ⟨protbl, 0⟩
  listen := FixVector.empty
  queue := FixVector.empty
  payloadAllocHint := 0
  payload i := if i < payloadSlots then payloadAtomInit (payload i) else payload i

def setPayload (r : Region) (idx : Nat) (pa : PayloadAtom) : Region :=
  { r with payload := Function.update r.payload idx pa }

def reusable (now : Int) (pa : PayloadAtom) : Bool :=
  pa.processed && decide (now - pa.sentMs ≥ reuseAfterMs)

def allocPayloadSlotFrom (now : Int) (start : Nat) (r : Region) : Nat → Nat → Option (Nat × Region)
  | 0, _ => none
  | fuel + 1, n =>
    let idx := (start + n) % payloadSlots
    let pa := r.payload idx
    if !pa.inUse then some (idx, { r with payloadAllocHint := idx + 1 })
    else if reusable now pa then
      some (idx, { setPayload r idx (payloadAtomInit pa) with payloadAllocHint := idx + 1 })
    else allocPayloadSlotFrom now start r fuel (n + 1)

def allocPayloadSlot (now : Int) (r : Region) : Option (Nat × Region) :=
  allocPayloadSlotFrom now (r.payloadAllocHint % payloadSlots) r payloadSlots 0

/-- A call of _notify: the caller's pid_, the sender from, and the arguments. -/
structure Notice where
  pid : Nat
  sender : Nat
  msg : Nat
  buf : Option (List UInt8) := none
  size : Nat := 0

def Notice.bytes (n : Notice) : List UInt8 := (n.buf.getD []).take n.size

/-- What the observer keeps of an appended mail: the call, the listen_ table it was sent
    from, and the payload slot as the call left it. -/
structure SentRecord where
  mail : MailAtom
  notice : Notice
  table : List MailAtom
  slot : Option PayloadAtom

structure Sending where
  region : Region
  msgcount : Nat
  pids : List Nat
  sent : List SentRecord

/-- pids[pid] = 1 on a map that is walked in ascending order. -/
def insertPid (pid : Nat) : List Nat → List Nat
  | [] => [pid]
  | p :: rest => if pid < p then pid :: p :: rest else if pid = p then p :: rest
    else p :: insertPid pid rest

def fillPayload (n : Notice) (target : MailAtom) (now : Int) (pa : PayloadAtom) : PayloadAtom where
  inUse := true
  processed := false
  size := n.size
  msg := n.msg
  fromPid := n.pid
  toPid := target.pid
  sentMs := now
  processedMs := 0
  data := n.bytes ++ pa.data.drop n.size

/-- push_back of the mail; a full queue gives the payload slot back. -/
def pushMail (n : Notice) (target m : MailAtom) (slot : Option PayloadAtom) (st : Sending) : Sending :=
  let pushed := pushBack st.region.queue m
  if pushed.2 then
    { region := { st.region with queue := pushed.1 }
      msgcount := st.msgcount + 1
      pids := insertPid target.pid st.pids
      sent := st.sent ++ [⟨m, n, st.region.listen.items, slot⟩] }
  else
    match m.payloadIdx with
    | some idx => { st with
        region := setPayload st.region idx (payloadAtomInit (st.region.payload idx)) }
    | none => st

/-- The body of the scan for a listener that is addressed. -/
def sendTo (n : Notice) (allocNow sentNow : Int) (target : MailAtom) (st : Sending) : Sending :=
  let m := { target with payloadIdx := none, tag := st.sent.length }
  if n.size > 0 then
    match allocPayloadSlot allocNow st.region with
    | none => st
    | some (idx, region) =>
      let pa := fillPayload n target sentNow (region.payload idx)
      pushMail n target { m with payloadIdx := some idx } (some pa)
        { st with region := setPayload region idx pa }
  else pushMail n target m none st

/-- The scan from the first entry for msg; pass i reads the clock at 2i and 2i + 1. -/
def scan (n : Notice) (clock : Nat → Int) : Nat → List MailAtom → Sending → Sending
  | _, [], st => st
  | i, target :: rest, st =>
    if target.msg ≠ n.msg then st
    else if target.obj = n.sender then scan n clock (i + 1) rest st
    else scan n clock (i + 1) rest (sendTo n (clock (2 * i)) (clock (2 * i + 1)) target st)

def lowerBoundFrom (items : List MailAtom) (msg : Nat) : Nat → Nat → Nat → Nat
  | 0, left, _ => left
  | fuel + 1, left, right =>
    if left < right then
      let mid := left + (right - left) / 2
      if (items.getD mid mailAtomInit).msg < msg then lowerBoundFrom items msg fuel (mid + 1) right
      else lowerBoundFrom items msg fuel left mid
    else left

def lowerBound (items : List MailAtom) (msg : Nat) : Nat :=
  lowerBoundFrom items msg items.length 0 items.length

/-- _notify up to the broadcast, which goes to the pids of the result. -/
def notify (n : Notice) (clock : Nat → Int) (r : Region) (sent : List SentRecord) :
    Bool × Sending :=
  let unchanged : Sending := ⟨r, 0, [], sent⟩
  if n.sender = 0 then (false, unchanged)
  else if n.size > 0 ∧ n.buf = none then (false, unchanged)
  else if n.size > payloadMax then (false, unchanged)
  else
    let left := lowerBound r.listen.items n.msg
    if left < r.listen.items.length ∧ (r.listen.items.getD left mailAtomInit).msg = n.msg then
      (true, scan n clock 0 (r.listen.items.drop left) unchanged)
    else (false, unchanged)

def gcSlot (now gcAfterMs : Int) (pa : PayloadAtom) : PayloadAtom :=
  if !pa.inUse then pa
  else if pa.processed && decide (now - pa.sentMs ≥ gcAfterMs) then payloadAtomInit pa
  else pa

/-- The loop of profileAndGC; the counters it prints are left out. -/
def profileAndGC (now gcAfterMs : Int) (r : Region) : Region :=
  { r with payload := fun i =>
      if i < payloadSlots then gcSlot now gcAfterMs (r.payload i) else r.payload i }

/-- _addListen before its sort, with the number of entries added so far. -/
def addListenFrom (pid obj : Nat) : List Nat → FJFixVector MailAtom listenMax → Nat →
    FJFixVector MailAtom listenMax × Nat
  | [], listen, regi => (listen, regi)
  | msg :: rest, listen, regi =>
    if listen.items.any fun target => target.obj == obj && target.msg == msg && target.pid == pid then
      addListenFrom pid obj rest listen regi
    else
      let pushed := pushBack listen { msg, obj, pid, payloadIdx := none }
      addListenFrom pid obj rest pushed.1 (if pushed.2 then regi + 1 else regi)

def addListen (pid obj : Nat) (list : List Nat) (result : List MailAtom) (r : Region) :
    Option (Region × Nat) :=
  let added := addListenFrom pid obj list r.listen 0
  (sort MailAtom.msg result added.1).map fun listen => ({ r with listen }, added.2)

def isMine (pid : Nat) (m : MailAtom) : Bool :=
  decide (m.msg ≠ 0) && decide (m.obj ≠ 0) && decide (m.pid = pid)

def drainMails (pid : Nat) : List MailAtom → List MailAtom
  | [] => []
  | target :: rest => if isMine pid target then target :: drainMails pid rest else drainMails pid rest

def drain (pid : Nat) (result : List MailAtom) (r : Region) : Option (List MailAtom × Region) :=
  let marked := rewrite r.queue fun target => if isMine pid target then mailAtomInit else target
  (cleanUp MailAtom.msg result marked).map fun queue =>
    (drainMails pid r.queue.items, { r with queue })

/-- The destructor's purge of one table: blank by address, sort, splice off the front. -/
def purgeTable {capacity : Nat} (addr : Nat) (result : List MailAtom)
    (v : FJFixVector MailAtom capacity) : Option (FJFixVector MailAtom capacity) :=
  cleanUp MailAtom.msg result (rewrite v fun m => if m.obj = addr then mailAtomInit else m)

def purge (addr : Nat) (queueResult listenResult : List MailAtom) (r : Region) : Option Region :=
  (purgeTable addr queueResult r.queue).bind fun queue =>
    (purgeTable addr listenResult r.listen).map fun listen => { r with queue, listen }

def payloadMatches (pid : Nat) (m : MailAtom) (pa : PayloadAtom) : Bool :=
  pa.inUse && decide (pa.msg = m.msg) && decide (pa.toPid = pid)

def markProcessed (idx : Nat) (now : Int) (r : Region) : Region :=
  let pa := r.payload idx
  if pa.inUse then setPayload r idx { pa with processed := true, processedMs := now } else r

end SharedRegion
