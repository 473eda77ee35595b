import FJUtility.SharedMem.MailView

/- What becomes of mails and payloads over every run of the processes: no mail is lost,
   doubled or misdelivered, every callback gets the bytes of its _notify, and how far every
   payload slot keeps a mail that will release it. -/
namespace SharedGuarantees
open LabelledMachine Courier FixVector SharedRegion SharedSending SharedTables SharedProcesses
open SharedSteps SharedMail

def invokedMails (s : State) : List MailAtom := (s.log.filterMap servedBy).map fun e => e.2.1

def purgedMails (s : State) : List MailAtom := (s.log.filterMap purgedBy).map Prod.snd

def inFlight (s : State) : List MailAtom :=
  s.region.queue.items ++ s.workers.flatMap unfinishedMails

theorem localMails_hand (w : WorkerThread) : (hand w.pos).undelivered = localMails w := by
  unfold localMails
  cases w.pos <;> rfl

theorem unfinishedMails_hand (w : WorkerThread) : (hand w.pos).held = unfinishedMails w := by
  unfold unfinishedMails
  cases w.pos <;> rfl

theorem local_unfinished (w : WorkerThread) : localMails w ⊆ unfinishedMails w := by
  unfold localMails unfinishedMails
  cases w.pos with
  | inCallback mail size rest | toMark mail rest => exact List.subset_cons_self _ _
  | _ => exact List.Subset.refl _

theorem undelivered_view (s : State) : (view s).undelivered = s.workers.flatMap localMails := by
  simp only [View.undelivered, view, List.flatMap_map, localMails_hand]

theorem live_view (s : State) : (view s).live = inFlight s := by
  simp only [View.live, view, inFlight, List.flatMap_map, unfinishedMails_hand]

structure CleansUp (r : Region) : Prop where
  sorts : ∀ items : List MailAtom, ∃ result, SortOf MailAtom.msg result items
  drains : ∀ pid result, SortOf MailAtom.msg result
    (r.queue.items.map fun m => if isMine pid m then mailAtomInit else m) →
      ∃ locals r', drain pid result r = some (locals, r') ∧ Drained pid r locals r'
  purges : ∀ addr queueResult listenResult,
    SortOf MailAtom.msg queueResult
      (r.queue.items.map fun m => if m.obj = addr then mailAtomInit else m) →
    SortOf MailAtom.msg listenResult
      (r.listen.items.map fun m => if m.obj = addr then mailAtomInit else m) →
        ∃ r', purge addr queueResult listenResult r = some r' ∧ Purged addr r r'

theorem cleansUp (r : Region) : CleansUp r where
  sorts := sortOf_exists MailAtom.msg
  drains _ _ := drain_total r
  purges _ _ _ := purge_total r

/-- The places of an appended mail: queue_, the local list of one worker, a callback that was
    made, or the purge of a destructor. -/
structure MailsAccounted (s : State) : Prop where
  onePlace : ∀ record ∈ s.sent, record.mail.msg ≠ 0 →
    s.region.queue.items.count record.mail + (s.workers.flatMap localMails).count record.mail +
      (invokedMails s).count record.mail + (purgedMails s).count record.mail = 1
  locals : ∀ w ∈ s.workers, ∀ m ∈ localMails w, m.pid = w.pid
  invoked : ∀ i pid m data target, .invoked i pid m data target ∈ s.log → m.pid = pid ∧
    ∃ record ∈ s.sent, record.mail = m ∧
      ∃ entry ∈ record.table, entry.msg = m.msg ∧ entry.obj = m.obj ∧ entry.pid = pid
  purged : ∀ pid addr m, .purged pid addr m ∈ s.log → m.obj = addr
  cleanUps : CleansUp s.region

theorem isMine_pid {pid : Nat} {m : MailAtom} (mine : isMine pid m = true) : m.pid = pid := by
  simp only [isMine, Bool.and_eq_true, decide_eq_true_eq] at mine
  exact mine.2

theorem local_pid {s : State} (sound : Sound office (view s)) {w : WorkerThread}
    (thread : w ∈ s.workers) {m : MailAtom} (member : m ∈ unfinishedMails w) : m.pid = w.pid := by
  apply isMine_pid (sound.handled.mine w.pid (hand w.pos) _ m _)
  · exact List.mem_map.mpr ⟨w, thread, rfl⟩
  · rwa [unfinishedMails_hand]

theorem sent_record {s : State} {m : MailAtom} {slot : Option PayloadAtom}
    (sent : (m, slot) ∈ (view s).sent) : ∃ record ∈ s.sent, record.mail = m ∧ record.slot = slot := by
  obtain ⟨record, present, same⟩ := List.mem_map.mp sent
  simp only [Prod.mk.injEq] at same
  exact ⟨record, present, same⟩

theorem records_ok {s : State} (records : RecordsOk s.sent) {record : SentRecord}
    (present : record ∈ s.sent) : RecordOk record := by
  obtain ⟨k, found⟩ := List.mem_iff_getElem?.mp present
  exact (records k record found).2

theorem invoked_served {s : State} (sound : Sound office (view s)) {i pid : Nat} {m : MailAtom}
    {data : Option (Nat × List UInt8)} {target : InstStatus}
    (logged : .invoked i pid m data target ∈ s.log) :
    m.pid = pid ∧ isMine pid m = true ∧ ∃ record ∈ s.sent, record.mail = m ∧
      data = record.slot.bind fun pa => (readSize pid m pa).map fun size =>
        (size, pa.data.take size) := by
  obtain ⟨mine, slot, sent, same⟩ := sound.recorded.served pid m data
    (List.mem_filterMap.mpr ⟨_, logged, rfl⟩)
  obtain ⟨record, present, mail, rfl⟩ := sent_record sent
  exact ⟨isMine_pid mine, mine, record, present, mail, same⟩

/-- No mail is lost or doubled, and each callback goes to a listener of the time of its
    _notify. -/
theorem mails_accounted {capacity : Nat} {s : State} (reached : (machine capacity).Reachable s) :
    MailsAccounted s := by
  have sound := sound_reached reached
  have records := records_reached reached
  refine ⟨?_, ?_, ?_, ?_, cleansUp s.region⟩
  · intro record present counted
    have total := conserved_reached reached record.mail (by simpa [office] using counted)
    have once : ((view s).sent.map Prod.fst).count record.mail = 1 := by
      apply List.count_eq_one_of_mem sound.registered.fresh (List.mem_map.mpr _)
      exact ⟨_, List.mem_map.mpr ⟨record, present, rfl⟩, rfl⟩
    rw [undelivered_view] at total
    exact total.trans once
  · exact fun w thread m member => local_pid sound thread (local_unfinished w member)
  · intro i pid m data target logged
    obtain ⟨same, _, record, present, rfl, _⟩ := invoked_served sound logged
    obtain ⟨entry, listed, msg, obj, entryPid⟩ := (records_ok records present).listed
    exact ⟨same, record, present, rfl, entry, listed, msg, obj, entryPid.trans same⟩
  · intro pid addr m logged
    exact of_decide_eq_true (sound.recorded.purged addr m (List.mem_filterMap.mpr ⟨_, logged, rfl⟩))

def entrySeven : MailAtom := ⟨7, 100, 5, none, 0⟩
def entryEight : MailAtom := ⟨8, 101, 5, none, 0⟩

/-- Process 5 listens with two instances, 6 sends; one mail is delivered with its payload
    and one is purged by the destructor of its instance. -/
def deliveries : List Action :=
  [.construct 5 100 [7] [entrySeven], .construct 5 101 [8] [entrySeven, entryEight],
    .construct 6 200 [] [entrySeven, entryEight], .worker 0 .find, .worker 0 .test, .worker 0 .wait,
    .notify 200 ⟨6, 200, 7, some [1, 2, 3], 2⟩ (fun _ => 10), .broadcast, .worker 0 .retest,
    .worker 0 (.drain [mailAtomInit]), .worker 0 .next, .worker 0 .invoke,
    .notify 200 ⟨6, 200, 8, none, 0⟩ (fun _ => 11), .broadcast, .worker 0 .comeBack,
    .worker 0 (.mark 12), .destroyBegin 5 101,
    .destroyPurge 5 101 [mailAtomInit] [mailAtomInit, entrySeven], .destroyReturn 5 101]

theorem deliveries_accounted :
    ∃ s, (machine 22).run zeroed deliveries = some s ∧ MailsAccounted s := by
  obtain ⟨s, executed, reached⟩ := run_ends deliveries (zeroed_initial 22) (by decide +kernel)
  exact ⟨s, executed, mails_accounted reached⟩

def expectedData (n : Notice) : Option (Nat × List UInt8) :=
  if n.size = 0 then none else some (n.size, n.bytes)

structure Untouched (n : Notice) (m : MailAtom) (idx : Nat) (pa : PayloadAtom) : Prop where
  within : idx < payloadSlots
  inUse : pa.inUse = true
  processed : pa.processed = false
  size : pa.size = n.size
  msg : pa.msg = n.msg
  toPid : pa.toPid = m.pid
  bytes : pa.data.take n.size = n.bytes

structure PayloadsIntact (s : State) : Prop where
  apart : ∀ idx, (inFlight s).countP (fun m => decide (m.payloadIdx = some idx)) ≤ 1
  untouched : ∀ m ∈ inFlight s, ∃ record ∈ s.sent, record.mail = m ∧
    record.slot = m.payloadIdx.map s.region.payload ∧
    ∀ idx, m.payloadIdx = some idx → Untouched record.notice m idx (s.region.payload idx)
  delivered : ∀ i pid m data target, .invoked i pid m data target ∈ s.log →
    ∃ record ∈ s.sent, record.mail = m ∧ data = expectedData record.notice

theorem carries_untouched {n : Notice} {m : MailAtom} {pa : PayloadAtom} {idx : Nat}
    (carries : Carries n m (some pa)) (owns : m.payloadIdx = some idx) (noticed : m.msg = n.msg) :
    Untouched n m idx pa := by
  cases carries with
  | loaded nonempty owns' within waits used size bytes msg toPid =>
    rw [owns, Option.some.injEq] at owns'
    simp only [pending, used, Bool.true_and, Bool.not_eq_true'] at waits
    exact ⟨owns' ▸ within, used, waits, size, msg.trans noticed, toPid, size ▸ bytes⟩

theorem carries_expected {n : Notice} {m : MailAtom} {slot : Option PayloadAtom} {pid : Nat}
    (carries : Carries n m slot) (mine : isMine pid m = true) :
    (slot.bind fun pa => (readSize pid m pa).map fun size => (size, pa.data.take size)) =
      expectedData n := by
  cases carries with
  | plain empty bare => simp [expectedData, empty]
  | @loaded idx pa nonempty owns within waits used size bytes msg toPid =>
    have read := carries_readable (.loaded nonempty owns within waits used size bytes msg toPid)
      pid mine
    have nonzero : n.size ≠ 0 := by omega
    simp [read, expectedData, nonzero, ← bytes, size]

/-- Slots are not shared, stay as they were sent until the callback is over, and callbacks get
    exactly what was passed to _notify. -/
theorem payloads_intact {capacity : Nat} {s : State} (reached : (machine capacity).Reachable s) :
    PayloadsIntact s := by
  have sound := sound_reached reached
  have records := records_reached reached
  refine ⟨?_, ?_, ?_⟩
  · intro idx
    have apart := sound.intact.apart idx
    rwa [live_view] at apart
  · intro m flies
    obtain ⟨record, present, rfl, slot⟩ := sent_record (sound.intact.issued m (live_view s ▸ flies))
    refine ⟨record, present, rfl, slot, fun idx owns => ?_⟩
    have ok := records_ok records present
    have carries := ok.carries
    have held : record.slot = some (s.region.payload idx) := by
      rw [slot]
      simp [office, owns, view]
    rw [held] at carries
    exact carries_untouched carries owns ok.noticed
  · intro i pid m data target logged
    obtain ⟨_, mine, record, present, rfl, rfl⟩ := invoked_served sound logged
    exact ⟨record, present, rfl, carries_expected (records_ok records present).carries mine⟩

theorem deliveries_intact :
    ∃ s, (machine 22).run zeroed deliveries = some s ∧ PayloadsIntact s := by
  obtain ⟨s, executed, reached⟩ := run_ends deliveries (zeroed_initial 22) (by decide +kernel)
  exact ⟨s, executed, payloads_intact reached⟩

/-- Every payload slot that waits for a callback is referred to by exactly one mail. -/
def PayloadsOwned (s : State) : Prop :=
  ∀ idx, idx < payloadSlots → (s.region.payload idx).inUse = true →
    (s.region.payload idx).processed = false →
      (inFlight s).countP (fun m => decide (m.payloadIdx = some idx)) = 1

def purgedPayload : List Action :=
  [.construct 5 100 [7] [entrySeven], .construct 5 101 [8] [entrySeven, entryEight],
    .construct 6 200 [] [entrySeven, entryEight],
    .notify 200 ⟨6, 200, 8, some [1, 2, 3], 3⟩ (fun _ => 10), .broadcast, .destroyBegin 5 101,
    .destroyPurge 5 101 [mailAtomInit] [mailAtomInit, entrySeven]]

theorem purged_payload_leaks :
    ¬ ∀ s, (machine 22).Reachable s → s.user = none → PayloadsOwned s := by
  intro owned
  obtain ⟨s, reached, leak⟩ := run_shows purgedPayload (zeroed_initial 22)
    (fun s => decide (s.user = none) && pending (s.region.payload 0) &&
      ((inFlight s).countP (fun m => decide (m.payloadIdx = some 0)) == 0)) (by decide +kernel)
  simp only [Bool.and_eq_true, decide_eq_true_eq, beq_iff_eq, pending, Bool.not_eq_true'] at leak
  obtain ⟨⟨free, used, waiting⟩, lost⟩ := leak
  have one := owned s reached free 0 (by decide) used waiting
  omega

/-- The mails of queue_ that a section removes without copying them to locals: those with
    msg_ = 0, and in a destructor those for its instance. -/
def sweptAway (s : State) : Action → MailAtom → Bool
  | .worker _ (.drain _), m => decide (m.msg = 0)
  | .destroyPurge pid addr _ _, m =>
    decide (s.instances pid addr = .purging true) && (decide (m.msg = 0) || decide (m.obj = addr))
  | _, _ => false

def KeepsPayloads (s : State) (a : Action) : Prop :=
  ∀ m ∈ s.region.queue.items, sweptAway s a m = true → m.payloadIdx = none

instance (s : State) (a : Action) : Decidable (KeepsPayloads s a) :=
  inferInstanceAs (Decidable (∀ _ ∈ _, _ → _))

theorem payloadsOwned_kept (s : State) : PayloadsOwned s ↔ Kept office (view s) := by
  simp only [PayloadsOwned, Kept, live_view]
  constructor
  · intro owned idx within waits
    simp only [office, pending, view, Bool.and_eq_true, Bool.not_eq_true'] at waits
    exact owned idx within waits.1 waits.2
  · intro kept idx within used waiting
    exact kept idx within (by simp [office, pending, view, used, waiting])

theorem sweptAway_dropped {capacity : Nat} {s t : State} {a : Action}
    (stepped : (machine capacity).step s a = some t) (m : MailAtom) :
    dropped office (labelOf s a) m = sweptAway s a m := by
  cases step_stepped stepped with
  | @destroyPurge pid addr needworker _ _ _ leaving =>
    cases needworker <;> simp [labelOf, sweptAway, leaving, dropped, office, isObj]
  | @worker i w act _ thread moved =>
    cases moved with
    | drain here unlocked drained =>
      simp only [labelOf, thread, Option.elim_some, dropped, office, sweptAway]
      by_cases blank : m.msg = 0 <;> simp [blank, isMine]
    | _ => rfl
  | _ => rfl

theorem keepsPayloads_slots {capacity : Nat} {s t : State} {a : Action}
    (stepped : (machine capacity).step s a = some t) :
    KeepsPayloads s a ↔ KeepsSlots office (view s) (labelOf s a) := by
  simp only [KeepsPayloads, KeepsSlots, sweptAway_dropped stepped]
  rfl

/-- Ownership survives a step exactly when its clean-ups keep the payloads. -/
theorem step_owned_iff {capacity : Nat} {s t : State} {a : Action}
    (reached : (machine capacity).Reachable s) (owned : PayloadsOwned s)
    (stepped : (machine capacity).step s a = some t) : PayloadsOwned t ↔ KeepsPayloads s a := by
  have sound := sound_reached reached
  rw [payloadsOwned_kept] at owned ⊢
  rw [keepsPayloads_slots stepped]
  rcases step_moves (records_reached reached) stepped with move | ⟨plain, chain⟩
  · exact move_kept_iff move sound owned
  · rw [plain]
    refine iff_of_true ?_ fun _ _ lost => by simp [dropped] at lost
    refine (moves_invariant office (fun v => Sound office v ∧ Kept office v)
      (fun _ label => label = .plain) (fun _ => rfl) ?_ (Or.inr ⟨plain, chain⟩) ⟨sound, owned⟩
      plain).2
    rintro v label w ⟨sound', kept⟩ rfl move
    exact ⟨move_sound move sound', plain_kept move sound' kept⟩

theorem owned_initial {capacity : Nat} {s : State} (first : (machine capacity).init s) :
    PayloadsOwned s := by
  obtain ⟨_, _, _, _, _, _, idle⟩ := view_initial first
  intro idx within used waiting
  have := idle idx within
  simp [view, pending, used, waiting] at this

/-- As long as no payload mail is swept away or purged, no slot leaks. -/
theorem payload_slots_owned {capacity : Nat} {s : State}
    (reached : (machine capacity).ReachableBy KeepsPayloads s) : PayloadsOwned s := by
  refine invariant_along (machine capacity).Reachable PayloadsOwned
    (fun _ => reachable_of_reachableBy) (fun _ => owned_initial) ?_ reached
  exact fun s a t known owned keeps stepped => (step_owned_iff known owned stepped).mpr keeps

theorem deliveries_owned :
    ∃ s, (machine 22).runBy (fun s a => decide (KeepsPayloads s a)) zeroed deliveries = some s ∧
      PayloadsOwned s := by
  obtain ⟨s, executed, reached⟩ := guarded_ends KeepsPayloads deliveries (zeroed_initial 22)
    (by decide +kernel)
  exact ⟨s, executed, payload_slots_owned reached⟩

end SharedGuarantees
