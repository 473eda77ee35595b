import FJUtility.Library.AgentList
import FJUtility.Library.Courier
import FJUtility.SharedMem.Sending
import FJUtility.SharedMem.Steps

/- The processes seen as couriers of the mails in queue_: every step is a move of that view,
   or, for _notify, one move for each mail it appends. -/
namespace SharedMail
open LabelledMachine Courier AgentList FixVector SharedRegion SharedSending SharedTables
open SharedProcesses SharedSteps

def readSize (pid : Nat) (m : MailAtom) (pa : PayloadAtom) : Option Nat :=
  if m.payloadIdx.any (fun idx => idx < payloadSlots) && payloadMatches pid m pa then some pa.size
  else none

def office : Office Nat Nat MailAtom PayloadAtom Nat (Nat × List UInt8) where
  slots := payloadSlots
  slotOf := MailAtom.payloadIdx
  counted m := decide (m.msg ≠ 0)
  mine := isMine
  hits := isObj
  pending := pending
  read := readSize
  content pa size := (size, pa.data.take size)

def hand : WorkerPos → Hand MailAtom Nat
  | .dispatching locals => .carrying locals
  | .calling mail size rest => .ready mail size rest
  | .inCallback mail size rest => .busy mail size rest
  | .toMark mail rest => .marking mail rest
  | _ => .carrying []

def servedBy : Event → Option (Nat × MailAtom × Option (Nat × List UInt8))
  | .invoked _ pid mail data _ => some (pid, mail, data)
  | _ => none

def purgedBy : Event → Option (Nat × MailAtom)
  | .purged _ addr mail => some (addr, mail)
  | _ => none

def view (s : State) : office.State where
  queue := s.region.queue.items
  hands := s.workers.map fun w => (w.pid, hand w.pos)
  pool := s.region.payload
  sent := s.sent.map fun record => (record.mail, record.slot)
  served := s.log.filterMap servedBy
  purged := s.log.filterMap purgedBy

def labelOf (s : State) : Action → Label Nat Nat
  | .worker i (.drain _) => (s.workers[i]?).elim .plain fun w => .drain w.pid
  | .destroyPurge pid addr _ _ =>
    if s.instances pid addr = .purging true then .purge addr else .plain
  | _ => .plain

inductive Carries (n : Notice) (m : MailAtom) : Option PayloadAtom → Prop where
  | plain (empty : n.size = 0) (bare : m.payloadIdx = none) : Carries n m none
  | loaded {idx : Nat} {pa : PayloadAtom} (nonempty : 0 < n.size) (owns : m.payloadIdx = some idx)
      (within : idx < payloadSlots) (waits : pending pa = true) (used : pa.inUse = true)
      (size : pa.size = n.size) (bytes : pa.data.take pa.size = n.bytes) (msg : pa.msg = m.msg)
      (toPid : pa.toPid = m.pid) : Carries n m (some pa)

structure RecordOk (record : SentRecord) : Prop where
  listed : ∃ entry ∈ record.table, entry.msg = record.mail.msg ∧ entry.obj = record.mail.obj ∧
    entry.pid = record.mail.pid
  noticed : record.mail.msg = record.notice.msg
  foreign : record.mail.obj ≠ record.notice.sender
  carries : Carries record.notice record.mail record.slot

def RecordsOk (sent : List SentRecord) : Prop :=
  ∀ k record, sent[k]? = some record → record.mail.tag = k ∧ RecordOk record

theorem recordsOk_append {sent : List SentRecord} (before : RecordsOk sent) {record : SentRecord}
    (tag : record.mail.tag = sent.length) (ok : RecordOk record) : RecordsOk (sent ++ [record]) := by
  intro k other found
  rw [List.getElem?_append] at found
  split at found
  · exact before k other found
  · rename_i late
    have last := List.mem_of_getElem? found
    rw [List.mem_singleton] at last
    subst last
    have := (List.getElem?_eq_some_iff.mp found).1
    simp only [List.length_singleton] at this
    exact ⟨by omega, ok⟩

theorem recordsOk_fresh {sent : List SentRecord} (before : RecordsOk sent) {m : MailAtom}
    (tag : m.tag = sent.length) :
    m ∉ (sent.map fun record => (record.mail, record.slot)).map Prod.fst := by
  intro member
  simp only [List.map_map, List.mem_map, Function.comp_apply] at member
  obtain ⟨record, present, rfl⟩ := member
  obtain ⟨k, found⟩ := List.mem_iff_getElem?.mp present
  have := (before k record found).1
  have := (List.getElem?_eq_some_iff.mp found).1
  omega

structure Addressed (n : Notice) (table : List MailAtom) (target : MailAtom) : Prop where
  listed : target ∈ table
  msg : target.msg = n.msg
  foreign : target.obj ≠ n.sender
  fits : n.size ≤ (n.buf.getD []).length

theorem bytes_length {n : Notice} (fits : n.size ≤ (n.buf.getD []).length) :
    n.bytes.length = n.size := by
  simp only [Notice.bytes, List.length_take]
  omega

theorem loaded_carries {n : Notice} {target m : MailAtom} {table : List MailAtom}
    {payload payload' : Nat → PayloadAtom} {slot : Option PayloadAtom}
    (addressed : Addressed n table target) (msg : m.msg = target.msg) (pid : m.pid = target.pid)
    (loaded : Loaded n target payload m.payloadIdx slot payload') : Carries n m slot := by
  generalize owns : m.payloadIdx = idx? at loaded
  cases loaded with
  | plain empty => exact .plain empty owns
  | filled now pa size within was =>
    refine .loaded size owns within rfl rfl rfl ?_ (addressed.msg.symm.trans msg.symm) pid.symm
    simp [fillPayload, ← bytes_length addressed.fits]

theorem passed_records {n : Notice} {target : MailAtom} {st st' : Sending}
    (addressed : Addressed n st.region.listen.items target) (passed : Passed n target st st')
    (before : RecordsOk st.sent) : RecordsOk st'.sent := by
  cases passed with
  | lost queue sent pids msgcount spare => exact sent ▸ before
  | appended m slot mail queue sent pids msgcount loaded =>
    obtain ⟨msg, obj, pid, tag⟩ : m.msg = target.msg ∧ m.obj = target.obj ∧ m.pid = target.pid ∧
        m.tag = st.sent.length := by
      rw [mail]
      exact ⟨rfl, rfl, rfl, rfl⟩
    rw [sent]
    exact recordsOk_append before tag ⟨⟨target, addressed.listed, msg.symm, obj.symm, pid.symm⟩,
      msg.trans addressed.msg, fun same => addressed.foreign (obj.symm.trans same),
      loaded_carries addressed msg pid loaded⟩

theorem carries_readable {n : Notice} {m : MailAtom} {pa : PayloadAtom}
    (carries : Carries n m (some pa)) (pid : Nat) (mine : isMine pid m = true) :
    readSize pid m pa = some n.size := by
  cases carries with
  | @loaded idx _ nonempty owns within waits used size bytes msg toPid =>
    simp only [isMine, Bool.and_eq_true, decide_eq_true_eq] at mine
    simp [readSize, payloadMatches, owns, within, used, msg, toPid, mine.2, size]

def viewWith (s : State) (st : Sending) : office.State :=
  view { s with region := st.region, sent := st.sent }

theorem passed_move {n : Notice} {target : MailAtom} {st st' : Sending} (s : State)
    (addressed : Addressed n st.region.listen.items target) (passed : Passed n target st st')
    (before : RecordsOk st.sent) : Move office (viewWith s st) .plain (viewWith s st') := by
  cases passed with
  | lost queue sent pids msgcount spare =>
    have same : viewWith s st' = { viewWith s st with pool := st'.region.payload } := by
      simp only [viewWith, view, queue, sent]
    exact same ▸ .reclaim _ spare
  | appended m slot mail queue sent pids msgcount loaded =>
    obtain ⟨msg, pid, tag⟩ : m.msg = target.msg ∧ m.pid = target.pid ∧
        m.tag = st.sent.length := by
      rw [mail]
      exact ⟨rfl, rfl, rfl⟩
    have fresh := recordsOk_fresh before tag
    have carries := loaded_carries addressed msg pid loaded
    have same : viewWith s st' =
        { viewWith s st with
          queue := st.region.queue.items ++ [m]
          pool := st'.region.payload
          sent := (viewWith s st).sent ++ [(m, slot)] } := by
      simp only [viewWith, view, queue, sent, List.map_append, List.map_cons, List.map_nil]
    rw [same]
    generalize owns : m.payloadIdx = idx? at loaded
    generalize st'.region.payload = payload' at loaded ⊢
    cases loaded with
    | plain empty => exact .post m owns fresh
    | @filled idx now pa size within was =>
      refine .postWith m idx _ owns within fresh was rfl fun who mine => ?_
      show (readSize who m (fillPayload n target now pa)).isSome
      rw [carries_readable carries who mine]
      rfl

theorem notify_moves (s : State) (n : Notice) (clock : Nat → Int) (before : RecordsOk s.sent)
    (fits : n.size ≤ (n.buf.getD []).length ∨ n.buf = none) :
    let sending := (notify n clock s.region s.sent).2
    RecordsOk sending.sent ∧ SameTables s.region sending.region ∧
      Relation.ReflTransGen (fun v w => Move office v .plain w) (view s) (viewWith s sending) := by
  refine notify_preserves n clock s.region s.sent (fun st => RecordsOk st.sent ∧
    SameTables s.region st.region ∧
      Relation.ReflTransGen (fun v w => Move office v .plain w) (view s) (viewWith s st))
    ⟨before, sameTables_refl _, .refl⟩ ?_
  rintro st target allocNow sentNow listed msg foreign buffered ⟨records, same, chain⟩
  have addressed : Addressed n st.region.listen.items target := by
    refine ⟨same.listen ▸ listed, msg, foreign, ?_⟩
    rcases fits with fits | empty
    · exact fits
    · exact Nat.le_of_not_lt fun size => buffered (by omega) empty
  obtain ⟨passed, tables⟩ := sendTo_passed n allocNow sentNow target st
  exact ⟨passed_records addressed passed records,
    ⟨tables.listen.trans same.listen, tables.protbl.trans same.protbl,
      tables.initialized.trans same.initialized⟩,
    chain.tail (passed_move s addressed passed records)⟩

theorem hands_set {s : State} {i : Nat} {w : WorkerThread} (thread : s.workers[i]? = some w) :
    ∃ pre post, (view s).hands = pre ++ (w.pid, hand w.pos) :: post ∧
      ∀ w', ((s.workers.set i w').map fun x => (x.pid, hand x.pos)) =
        pre ++ (w'.pid, hand w'.pos) :: post := by
  obtain ⟨pre, post, split, replaced⟩ := split_at thread
  refine ⟨pre.map fun x => (x.pid, hand x.pos), post.map fun x => (x.pid, hand x.pos), ?_, ?_⟩
  · simp only [view, split, List.map_append, List.map_cons]
  · intro w'
    rw [replaced, List.map_append, List.map_cons]

theorem wakeSlot_hands (slot : Nat) (workers : List WorkerThread) :
    ((wakeSlot slot workers).map fun w => (w.pid, hand w.pos)) =
      workers.map fun w => (w.pid, hand w.pos) := by
  simp only [wakeSlot, List.map_map]
  apply List.map_congr_left
  intro w _
  simp only [Function.comp_apply]
  split
  · rename_i waits
    simp [hand, waits.2]
  · rfl

theorem quiet_move {s t : State} {i : Nat} {w w' : WorkerThread} (thread : s.workers[i]? = some w)
    (workers : t.workers = s.workers.set i w') (pid : w'.pid = w.pid)
    (same : hand w'.pos = hand w.pos) (queue : t.region.queue = s.region.queue)
    (payload : t.region.payload = s.region.payload) (sent : t.sent = s.sent) (log : t.log = s.log) :
    view t = view s := by
  obtain ⟨pre, post, place, replaced⟩ := hands_set thread
  simp only [view] at place ⊢
  rw [workers, replaced, place, pid, same, queue, payload, sent, log]

theorem work_move {s t : State} {i : Nat} {w w' : WorkerThread} (thread : s.workers[i]? = some w)
    (workers : t.workers = s.workers.set i w') (pid : w'.pid = w.pid)
    (queue : t.region.queue = s.region.queue) (sent : t.sent = s.sent)
    (out : List (Nat × MailAtom × Option (Nat × List UInt8)))
    (served : t.log.filterMap servedBy = s.log.filterMap servedBy ++ out)
    (purged : t.log.filterMap purgedBy = s.log.filterMap purgedBy)
    (works : Work office w.pid s.region.payload (hand w.pos) (hand w'.pos) t.region.payload out) :
    Move office (view s) .plain (view t) := by
  obtain ⟨pre, post, place, replaced⟩ := hands_set thread
  have after : view t =
      { view s with
        hands := pre ++ (w.pid, hand w'.pos) :: post
        pool := t.region.payload
        served := (view s).served ++ out } := by
    simp only [view]
    rw [workers, replaced, queue, sent, served, purged, pid]
  exact after ▸ .work place works

theorem markMail_slots (mail : MailAtom) (now : Int) (r : Region) :
    (markMail mail now r).queue = r.queue ∧
      (∀ i, mail.payloadIdx ≠ some i → (markMail mail now r).payload i = r.payload i) ∧
      ∀ i, mail.payloadIdx = some i → pending ((markMail mail now r).payload i) = false := by
  unfold markMail markProcessed
  split
  · rename_i idx owns
    dsimp only
    split
    · refine ⟨rfl, fun i other => ?_, fun i same => ?_⟩
      · refine Function.update_of_ne (fun here => other ?_) _ _
        rw [owns, here]
      · rw [owns, Option.some.injEq] at same
        subst same
        simp [setPayload, pending]
    · rename_i unused
      refine ⟨rfl, fun _ _ => rfl, fun i same => ?_⟩
      rw [owns, Option.some.injEq] at same
      subst same
      simp [pending, unused]
  · rename_i bare
    exact ⟨rfl, fun _ _ => rfl, fun i same => by simp [bare] at same⟩

theorem worker_moves {s t : State} {i : Nat} {w : WorkerThread} {act : WorkerAct}
    (thread : s.workers[i]? = some w) (moved : WorkerMoved i w s act t) :
    Move office (view s) (labelOf s (.worker i act)) (view t) := by
  have quiet : ∀ {u : State}, view u = view s → Move office (view s) .plain (view u) :=
    fun same => same ▸ .stay
  cases moved with
  | find here free registered =>
    exact quiet (quiet_move thread rfl rfl (by simp [hand, here]) rfl rfl rfl rfl)
  | crash here | test here | stop here | wait here | spurious here | retest here
  | stopWoken here | idle here | finish here =>
    exact quiet (quiet_move thread rfl rfl (by simp [hand, here]) rfl rfl rfl rfl)
  | @drain result locals region here free drained =>
    obtain ⟨taken, left, tables⟩ := drain_drained drained
    obtain ⟨pre, post, place, replaced⟩ := hands_set thread
    have label : labelOf s (.worker i (.drain result)) = .drain w.pid := by
      simp only [labelOf, thread, Option.elim_some]
    have after : view (moveWorker i w (.dispatching locals) { s with region }) =
        { view s with
          queue := region.queue.items
          hands := pre ++ (w.pid, .carrying ((view s).queue.filter (isMine w.pid))) :: post } := by
      simp only [view, moveWorker]
      rw [replaced, taken, tables]
      rfl
    rw [label, after]
    rw [here] at place
    exact .drain _ place left
  | @skip mail rest here empty =>
    refine work_move thread rfl rfl rfl rfl [] (List.append_nil _).symm rfl ?_
    rw [here]
    refine .skip mail rest ?_
    simp [office, isMine, empty]
  | @checked mail rest idx here object owns within free =>
    refine work_move thread rfl rfl rfl rfl [] (List.append_nil _).symm rfl ?_
    rw [here]
    have reading : office.reading s.region.payload w.pid mail =
        if payloadMatches w.pid mail (s.region.payload idx) then
          some (s.region.payload idx).size else none := by
      simp [Office.reading, office, owns, readSize, within]
    have works : Work office w.pid s.region.payload _ _ _ _ := Work.check mail rest
    rwa [reading] at works
  | @unchecked mail rest here object plain =>
    refine work_move thread rfl rfl rfl rfl [] (List.append_nil _).symm rfl ?_
    rw [here]
    have reading : office.reading s.region.payload w.pid mail = none := by
      simp only [Office.reading, office, readSize]
      cases owns : mail.payloadIdx with
      | none => rfl
      | some idx => simp [plain idx owns]
    have works : Work office w.pid s.region.payload _ _ _ _ := Work.check mail rest
    rwa [reading] at works
  | @invoke mail size rest here =>
    refine work_move thread rfl rfl rfl rfl [(w.pid, mail, callbackData s.region mail size)]
      (by simp [moveWorker, servedBy]) (by simp [moveWorker, purgedBy]) ?_
    rw [here]
    exact .invoke mail size rest
  | @comeBackWithData mail size rest here =>
    refine work_move thread rfl rfl rfl rfl [] (List.append_nil _).symm rfl ?_
    rw [here]
    exact .comeBack mail size rest
  | @comeBack mail rest here =>
    refine work_move thread rfl rfl rfl rfl [] (List.append_nil _).symm rfl ?_
    rw [here]
    exact .comeBackPlain mail rest
  | @mark mail rest now here free =>
    obtain ⟨queue, others, released⟩ := markMail_slots mail now s.region
    refine work_move thread rfl rfl queue rfl [] (List.append_nil _).symm rfl ?_
    rw [here]
    exact .mark mail rest _ others released

theorem collect_spare (now gcAfterMs : Int) (r : Region) :
    SpareChange r.payload (profileAndGC now gcAfterMs r).payload := by
  intro i
  unfold profileAndGC gcSlot
  dsimp only
  split
  · split
    · exact Or.inl rfl
    · split
      · rename_i processed
        simp only [Bool.and_eq_true] at processed
        exact Or.inr ⟨by simp [pending, processed.1], pending_init _⟩
      · exact Or.inl rfl
  · exact Or.inl rfl

theorem construct_move {capacity pid addr : Nat} {list : List Nat} {result : List MailAtom}
    {s t : State} (constructed : Constructed capacity pid addr list result s t) :
    Move office (view s) .plain (view t) := by
  have grows := constructed_workers constructed
  obtain ⟨_, queue, payload, _, _, sent, log, _⟩ := constructed
  rcases grows with workers | workers
  · have same : view t = view s := by
      simp only [view, workers, queue, payload, sent, log]
    exact same ▸ .stay
  · have grown : view t = { view s with hands := (view s).hands ++ [(pid, .carrying [])] } := by
      simp only [view, workers, queue, payload, sent, log, List.map_append, List.map_cons,
        List.map_nil, hand]
    exact grown ▸ .hire pid

theorem left_move {pid addr : Nat} {needworker : Bool} {queueResult listenResult : List MailAtom}
    {s t : State} (leaving : s.instances pid addr = .purging needworker)
    (left : Left pid addr s needworker t) :
    Move office (view s) (labelOf s (.destroyPurge pid addr queueResult listenResult)) (view t) := by
  cases left with
  | @purged region initialized tables counted =>
    obtain ⟨queue, listen, same⟩ := tables
    have label : labelOf s (.destroyPurge pid addr queueResult listenResult) = .purge addr := by
      simp [labelOf, leaving]
    have served : ∀ mails : List MailAtom,
        (mails.map (Event.purged pid addr)).filterMap servedBy = [] := by
      intro mails
      simp [List.filterMap_map, servedBy, Function.comp_def]
    have removed : ∀ mails : List MailAtom, (mails.map (Event.purged pid addr)).filterMap purgedBy =
        mails.map fun m => (addr, m) := by
      intro mails
      simp [List.filterMap_map, purgedBy, Function.comp_def]
    have payload : region.payload = s.region.payload := by rw [same]
    rw [label]
    have moved : Move office (view s) _ _ := .purge addr region.queue.items queue
    simp only [view, List.filterMap_append, served, removed, List.append_nil, payload] at moved ⊢
    exact moved
  | plain counted =>
    have label : labelOf s (.destroyPurge pid addr queueResult listenResult) = .plain := by
      simp [labelOf, leaving]
    rw [label]
    simp only [view]
    exact .stay

theorem begun_view {pid addr : Nat} {needworker : Bool} {s t : State}
    (begun : Begun pid addr needworker s t) : view t = view s := by
  cases begun <;> simp only [view]

theorem rounded_view {pid : Nat} {rest : List Nat} {s t : State} (rounded : Rounded pid rest s t) :
    view t = view s := by
  cases rounded with
  | woke => simp only [view, wakeSlot_hands]
  | passed => rfl

theorem polled_view {pid addr slot polls : Nat} {s t : State}
    (polled : Polled pid addr slot polls s t) : view t = view s := by
  cases polled with
  | waited => rfl
  | joined | timedOut => simp [view, destroyEntry, servedBy, purgedBy]

/-- Every step of the processes is a move of the couriers, or several that only post. -/
theorem step_moves {capacity : Nat} {s t : State} {a : Action} (records : RecordsOk s.sent)
    (stepped : (machine capacity).step s a = some t) :
    Moves office (view s) (labelOf s a) (view t) := by
  have quiet : ∀ {u : State}, view u = view s → Moves office (view s) .plain (view u) :=
    fun same => Or.inl (same ▸ .stay)
  cases step_stepped stepped with
  | construct object unused free constructed =>
    exact Or.inl (construct_move constructed)
  | rejectScalar | rejectList => exact Or.inl .stay
  | addScalar object free added | addList object free added =>
    have tables := (addListen_listed added).1
    apply quiet
    rw [tables]
    rfl
  | @notify self n clock free fits =>
    exact Or.inr ⟨rfl, (notify_moves s n clock records fits).2.2⟩
  | broadcast user rounded => exact quiet (rounded_view rounded)
  | @collect now gcAfterMs free => exact Or.inl (.reclaim _ (collect_spare now gcAfterMs s.region))
  | destroyBegin live free begun => exact quiet (begun_view begun)
  | destroySignal user => exact quiet (by simp only [view, destroySignal, wakeSlot_hands])
  | destroyPoll user polled => exact quiet (polled_view polled)
  | destroyPurge leaving free left => exact Or.inl (left_move leaving left)
  | destroyReturn leaving => exact Or.inl .stay
  | worker thread moved => exact Or.inl (worker_moves thread moved)

theorem worker_sent {s t : State} {i : Nat} {w : WorkerThread} {act : WorkerAct}
    (moved : WorkerMoved i w s act t) : t.sent = s.sent := by
  cases moved <;> rfl

theorem step_records {capacity : Nat} {s t : State} {a : Action} (records : RecordsOk s.sent)
    (stepped : (machine capacity).step s a = some t) : RecordsOk t.sent := by
  cases step_stepped stepped with
  | construct object unused free constructed => exact constructed.sent ▸ records
  | @notify self n clock free fits => exact (notify_moves s n clock records fits).1
  | broadcast user rounded => cases rounded <;> exact records
  | destroyBegin live free begun => cases begun <;> exact records
  | destroyPoll user polled => cases polled <;> exact records
  | destroyPurge leaving free left => cases left <;> exact records
  | worker thread moved => exact worker_sent moved ▸ records
  | rejectScalar | rejectList | addScalar | addList | collect | destroySignal | destroyReturn =>
    exact records

theorem view_initial {capacity : Nat} {s : State} (first : (machine capacity).init s) :
    s.sent = [] ∧ (view s).queue = [] ∧ (view s).hands = [] ∧ (view s).sent = [] ∧
      (view s).served = [] ∧ (view s).purged = [] ∧
      ∀ i, i < payloadSlots → pending ((view s).pool i) = false := by
  obtain ⟨protbl, payload, rfl⟩ := first
  refine ⟨rfl, rfl, rfl, rfl, rfl, rfl, fun i within => ?_⟩
  simp [view, initial, initSharedRegion, within, pending_init]

theorem records_reached {capacity : Nat} {guard : State → Action → Prop} {s : State}
    (reached : (machine capacity).ReachableBy guard s) : RecordsOk s.sent := by
  refine invariant_of_steps (fun s => RecordsOk s.sent) ?_ ?_ reached
  · intro s first k record found
    simp [(view_initial first).1] at found
  · exact fun s a t before _ stepped => step_records before stepped

/-- The invariant rule of the view: what every move preserves holds of every state. -/
theorem view_invariant {capacity : Nat} {guard : State → Action → Prop}
    (holds : office.State → Prop) (keeps : office.State → Label Nat Nat → Prop)
    (free : ∀ v, keeps v .plain)
    (initial : ∀ s, (machine capacity).init s → holds (view s))
    (guarded : ∀ s a, guard s a → keeps (view s) (labelOf s a))
    (preserved : ∀ v label w, holds v → keeps v label → Move office v label w → holds w)
    {s : State} (reached : (machine capacity).ReachableBy guard s) : holds (view s) := by
  refine invariant_along (fun s => RecordsOk s.sent) (fun s => holds (view s))
    (fun s => records_reached) initial ?_ reached
  intro s a t records before meets stepped
  exact moves_invariant office holds keeps free preserved (step_moves records stepped) before
    (guarded s a meets)

theorem sound_initial {capacity : Nat} {s : State} (first : (machine capacity).init s) :
    Sound office (view s) := by
  obtain ⟨_, queue, hands, sent, served, purged, _⟩ := view_initial first
  refine ⟨⟨?_, ?_, ?_, ?_⟩, ⟨?_, ?_⟩, ⟨?_, ?_⟩, ⟨?_, ?_⟩⟩ <;>
    simp [View.live, queue, hands, sent, served, purged]

theorem sound_reached {capacity : Nat} {guard : State → Action → Prop} {s : State}
    (reached : (machine capacity).ReachableBy guard s) : Sound office (view s) :=
  view_invariant (Sound office) (fun _ _ => True) (fun _ => trivial) (fun _ => sound_initial)
    (fun _ _ _ => trivial) (fun _ _ _ before _ move => move_sound move before) reached

theorem conserved_reached {capacity : Nat} {guard : State → Action → Prop} {s : State}
    (reached : (machine capacity).ReachableBy guard s) : Conserved office (view s) := by
  refine (view_invariant (fun v => Sound office v ∧ Conserved office v) (fun _ _ => True)
    (fun _ => trivial) ?_ (fun _ _ _ => trivial) ?_ reached).2
  · intro s first
    obtain ⟨_, queue, hands, sent, served, purged, _⟩ := view_initial first
    refine ⟨sound_initial first, fun m _ => ?_⟩
    simp [View.undelivered, queue, hands, sent, served, purged]
  · exact fun v label w before _ move =>
      ⟨move_sound move before.1, move_conserved move before.1.handled before.2⟩

end SharedMail
