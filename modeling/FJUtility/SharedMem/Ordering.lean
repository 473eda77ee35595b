import Mathlib.Data.List.Nodup
import FJUtility.SharedMem.MailGuarantees
import FJUtility.SharedMem.Traffic

/- The order in which a receiver gets its mails. The receiver's own worker copies them out of
   queue_ in the order of the table; every other clean-up of queue_ sorts it by message. -/
namespace SharedOrdering
open LabelledMachine AgentList FixVector SharedRegion SharedSending SharedTables SharedProcesses
open SharedSteps SharedGuarantees

def delivered (pid obj : Nat) : Event → Option Nat
  | .invoked _ process mail _ _ => if process = pid ∧ mail.obj = obj then some mail.tag else none
  | _ => none

def DeliveredInOrder (pid obj : Nat) (s : State) : Prop :=
  (s.log.filterMap (delivered pid obj)).Pairwise (· < ·)

def sortedBetween : List Action :=
  [.construct 5 100 [7, 9] [entrySeven, ⟨9, 100, 5, none, 0⟩],
    .construct 6 200 [8] [entrySeven, ⟨8, 200, 6, none, 0⟩, ⟨9, 100, 5, none, 0⟩],
    .worker 0 .find, .worker 0 .test, .worker 0 .wait, .worker 1 .find, .worker 1 .test,
    .worker 1 .wait, .notify 200 ⟨6, 200, 9, none, 0⟩ (fun _ => 10), .broadcast,
    .notify 200 ⟨6, 200, 7, none, 0⟩ (fun _ => 11), .broadcast, .worker 1 .spurious,
    .worker 1 .retest, .worker 1 (.drain [{ entrySeven with tag := 1 }, ⟨9, 100, 5, none, 0⟩]),
    .worker 0 .retest, .worker 0 (.drain [mailAtomInit, mailAtomInit]), .worker 0 .next,
    .worker 0 .invoke, .worker 0 .comeBack, .worker 0 .next, .worker 0 .invoke]

theorem sorted_between_reorders :
    ¬ ∀ pid obj s, (machine 22).Reachable s → DeliveredInOrder pid obj s := by
  intro always
  obtain ⟨s, reached, shown⟩ := run_shows sortedBetween (zeroed_initial 22)
    (fun s : State => decide (s.log.filterMap (delivered 5 100) = [1, 0])) (by decide +kernel)
  have order := always 5 100 s reached
  rw [DeliveredInOrder, of_decide_eq_true shown] at order
  exact absurd order (by decide)

def isFor (pid obj : Nat) (m : MailAtom) : Bool := isMine pid m && decide (m.obj = obj)

def queuedFor (pid obj : Nat) (s : State) : List MailAtom :=
  s.region.queue.items.filter (isFor pid obj)

def carriedFor (pid obj : Nat) (w : WorkerThread) : List Nat :=
  if w.pid = pid then ((localMails w).filter fun m => decide (m.obj = obj)).map MailAtom.tag else []

/-- The receiver's mails in queue_ have ascending messages, so that sorting keeps their order. -/
def ascends (pid obj : Nat) (s : State) : Bool :=
  decide ((queuedFor pid obj s).Pairwise fun a b => a.msg < b.msg)

/-- A clean-up that the receiver's worker does not make finds the receiver's mails in queue_ out
    of the order of their messages, or a second worker of the process takes mails of the receiver
    while the first still has some. -/
def reorders (pid obj : Nat) (s : State) : Action → Bool
  | .worker i (.drain _) => s.workers[i]?.any fun w =>
      if w.pid = pid then
        decide (queuedFor pid obj s ≠ []) &&
          s.workers.any fun v => decide (carriedFor pid obj v ≠ [])
      else !ascends pid obj s
  | .destroyPurge p addr _ _ =>
    decide (s.instances p addr = .purging true) && decide (addr ≠ obj) && !ascends pid obj s
  | _ => false

def KeepsOrder (pid obj : Nat) (s : State) (a : Action) : Prop := reorders pid obj s a = false

instance (pid obj : Nat) (s : State) (a : Action) : Decidable (KeepsOrder pid obj s a) :=
  inferInstanceAs (Decidable (_ = _))

/-- All of the receiver's mails, from the first handed over to the last appended. -/
def lane (pid obj : Nat) (s : State) : List Nat :=
  s.log.filterMap (delivered pid obj) ++ s.workers.flatMap (carriedFor pid obj) ++
    (queuedFor pid obj s).map MailAtom.tag

theorem sorted_same {l l' : List MailAtom} (perm : l'.Perm l)
    (ascending : l.Pairwise fun a b => a.msg < b.msg)
    (sorted : l'.Pairwise fun a b => a.msg ≤ b.msg) : l' = l := by
  have single := List.inj_on_of_nodup_map (List.pairwise_map.mpr (ascending.imp Nat.ne_of_lt))
  apply List.Perm.eq_of_pairwise _ sorted (ascending.imp Nat.le_of_lt) perm
  intro a b first second le ge
  exact single (perm.mem_iff.mp first) second (Nat.le_antisymm le ge)

variable {pid obj : Nat}

theorem isFor_mine {m : MailAtom} (mine : isFor pid obj m = true) :
    m.msg ≠ 0 ∧ m.pid = pid ∧ m.obj = obj := by
  simp only [isFor, isMine, Bool.and_eq_true, decide_eq_true_eq] at mine
  exact ⟨mine.1.1.1, mine.1.2, mine.2⟩

theorem spared_for {items items' : List MailAtom} {hit : MailAtom → Bool}
    (left : items'.Perm (items.filter fun m => decide (m.msg ≠ 0) && !hit m))
    (sorted : items'.Pairwise fun a b => a.msg ≤ b.msg)
    (spares : ∀ m, isFor pid obj m = true → hit m = false)
    (ascending : (items.filter (isFor pid obj)).Pairwise fun a b => a.msg < b.msg) :
    items'.filter (isFor pid obj) = items.filter (isFor pid obj) := by
  apply sorted_same _ ascending (sorted.sublist List.filter_sublist)
  have kept := left.filter (isFor pid obj)
  rw [List.filter_filter] at kept
  refine kept.trans (List.Perm.of_eq (List.filter_congr fun m _ => ?_))
  by_cases mine : isFor pid obj m = true
  · simp [mine, spares m mine, (isFor_mine mine).1]
  · simp [mine]

theorem hit_for {items items' : List MailAtom} {hit : MailAtom → Bool}
    (left : items'.Perm (items.filter fun m => decide (m.msg ≠ 0) && !hit m))
    (hits : ∀ m, isFor pid obj m = true → hit m = true) :
    items'.filter (isFor pid obj) = [] := by
  apply List.filter_eq_nil_iff.mpr
  intro m member mine
  have spared := (List.mem_filter.mp (left.mem_iff.mp member)).2
  simp [hits m mine] at spared

theorem drain_sorted {p : Nat} {result locals : List MailAtom} {r r' : Region}
    (drained : drain p result r = some (locals, r')) :
    r'.queue.items.Pairwise fun a b => a.msg ≤ b.msg := by
  unfold drain at drained
  obtain ⟨queue, cleaned, same⟩ := Option.map_eq_some_iff.mp drained
  simp only [Prod.mk.injEq] at same
  obtain ⟨_, rfl⟩ := same
  exact (cleanUp_items cleaned).2

theorem purge_sorted {addr : Nat} {queueResult listenResult : List MailAtom} {r r' : Region}
    (purged : purge addr queueResult listenResult r = some r') :
    r'.queue.items.Pairwise fun a b => a.msg ≤ b.msg := by
  exact (cleanUp_items (purge_tables purged).1).2

theorem taken_for (items : List MailAtom) :
    ((items.filter (isMine pid)).filter fun m => decide (m.obj = obj)) =
      items.filter (isFor pid obj) := by
  rw [List.filter_filter]
  exact List.filter_congr fun m _ => by simp [isFor, Bool.and_comm]

structure Advances (pid obj : Nat) (s t : State) (news : List Nat) : Prop where
  fewer : (lane pid obj t).Sublist (lane pid obj s ++ news)
  ordered : news.Pairwise (· < ·)
  later : ∀ n ∈ news, s.sent.length ≤ n ∧ n < t.sent.length
  counted : s.sent.length ≤ t.sent.length

theorem advances_of_fewer {s t : State} (sent : t.sent = s.sent)
    (fewer : (lane pid obj t).Sublist (lane pid obj s)) : Advances pid obj s t [] where
  fewer := by simpa using fewer
  ordered := .nil
  later := by simp
  counted := Nat.le_of_eq (by rw [sent])

theorem advances_quiet {s t : State} (log : t.log = s.log) (sent : t.sent = s.sent)
    (workers : (t.workers.flatMap (carriedFor pid obj)).Sublist
      (s.workers.flatMap (carriedFor pid obj)))
    (queue : (queuedFor pid obj t).Sublist (queuedFor pid obj s)) : Advances pid obj s t [] := by
  apply advances_of_fewer sent
  unfold lane
  rw [log]
  exact ((List.Sublist.refl _).append workers).append (queue.map MailAtom.tag)

theorem advances_outside {s t : State} (log : t.log = s.log) (sent : t.sent = s.sent)
    (workers : t.workers = s.workers) (queue : t.region.queue = s.region.queue) :
    Advances pid obj s t [] := by
  apply advances_quiet log sent (workers ▸ List.Sublist.refl _)
  unfold queuedFor
  rw [queue]

theorem carriedFor_woken (slot : Nat) (workers : List WorkerThread) :
    (wakeSlot slot workers).flatMap (carriedFor pid obj) =
      workers.flatMap (carriedFor pid obj) := by
  simp only [wakeSlot, List.flatMap_map]
  apply List.flatMap_congr
  intro w _
  split
  · rename_i waits
    simp [carriedFor, localMails, waits.2]
  · rfl

theorem carriedFor_started (p : Nat) : carriedFor pid obj ⟨p, none, .starting⟩ = [] := by
  simp [carriedFor, localMails]

theorem carriedFor_fewer {w w' : WorkerThread} (same : w'.pid = w.pid)
    (fewer : (localMails w').Sublist (localMails w)) :
    (carriedFor pid obj w').Sublist (carriedFor pid obj w) := by
  unfold carriedFor
  rw [same]
  split
  · exact (fewer.filter _).map _
  · exact List.Sublist.refl _

theorem invoked_lane (pid obj : Nat) {i : Nat} {w : WorkerThread} {mail : MailAtom}
    {size : Option Nat} {rest : List MailAtom} (here : w.pos = .calling mail size rest)
    (data : Option (Nat × List UInt8)) (target : InstStatus) :
    ((delivered pid obj (.invoked i w.pid mail data target)).toList ++
        carriedFor pid obj { w with pos := .inCallback mail size rest }) =
      carriedFor pid obj w := by
  by_cases own : w.pid = pid
  · by_cases receives : mail.obj = obj
    · simp [delivered, carriedFor, localMails, here, own, receives]
    · simp [delivered, carriedFor, localMails, here, own, receives]
  · simp [delivered, carriedFor, own]

def Alone (pid obj : Nat) (s : State) : Prop :=
  ∀ (i j : Nat) v w, s.workers[i]? = some v → s.workers[j]? = some w →
    carriedFor pid obj v ≠ [] → carriedFor pid obj w ≠ [] → i = j

def Takes (pid obj : Nat) (s : State) (a : Action) (j : Nat) : Prop :=
  (∃ result, a = .worker j (.drain result)) ∧ queuedFor pid obj s ≠ [] ∧
    ∃ w, s.workers[j]? = some w ∧ w.pid = pid

theorem carried_before {s t : State} {a : Action} {j : Nat} {w' : WorkerThread}
    (thread : ThreadStep s t a j w') (carries : carriedFor pid obj w' ≠ []) :
    (∃ w, s.workers[j]? = some w ∧ carriedFor pid obj w ≠ []) ∨ Takes pid obj s a j := by
  have kept : ∀ w, s.workers[j]? = some w → w'.pid = w.pid →
      (localMails w').Sublist (localMails w) →
      ∃ w, s.workers[j]? = some w ∧ carriedFor pid obj w ≠ [] := by
    intro w was same fewer
    refine ⟨w, was, fun empty => carries ?_⟩
    have none_left : (carriedFor pid obj w').Sublist (carriedFor pid obj w) :=
      carriedFor_fewer same fewer
    rw [empty] at none_left
    exact List.sublist_nil.mp none_left
  cases thread with
  | same was => exact Or.inl ⟨w', was, carries⟩
  | woken was waits is => exact absurd (by simp [is, carriedFor, localMails]) carries
  | started construct last is => exact absurd (is ▸ carriedFor_started _) carries
  | @moved w act was own moves is =>
    cases moves with
    | drain here free drained =>
      have same := set_at was is
      subst same
      unfold carriedFor at carries
      split at carries
      · rename_i process
        dsimp only at process
        refine Or.inr ⟨⟨_, own⟩, fun empty => carries ?_, w, was, process⟩
        simp only [localMails, (drain_drained drained).taken, process, taken_for]
        exact congrArg (List.map MailAtom.tag) empty
      · exact absurd rfl carries
    | find here | crash here | test here | stop here | wait here | spurious here | retest here
    | stopWoken here | idle here | finish here =>
      have same := set_at was is
      exact absurd (by simp [same, carriedFor, localMails]) carries
    | skip here | checked here | unchecked here | invoke here | comeBackWithData here
    | comeBack here | mark here =>
      have same := set_at was is
      apply Or.inl (kept w was (by rw [same]) _)
      simp [same, localMails, here]

theorem none_carries {s : State} {a : Action} {j : Nat} (keeps : KeepsOrder pid obj s a)
    (takes : Takes pid obj s a j) {v : WorkerThread} (member : v ∈ s.workers) :
    carriedFor pid obj v = [] := by
  obtain ⟨⟨result, rfl⟩, queued, w, was, process⟩ := takes
  simp only [KeepsOrder, reorders, was, Option.any_some, if_pos process, Bool.and_eq_false_iff,
    decide_eq_false_iff_not, List.any_eq_false, decide_eq_true_eq] at keeps
  exact Classical.not_not.mp ((keeps.resolve_left (not_not_intro queued)) v member)

theorem step_alone {capacity : Nat} {s t : State} {a : Action} (alone : Alone pid obj s)
    (keeps : KeepsOrder pid obj s a) (stepped : Stepped capacity s a t) : Alone pid obj t := by
  intro i j v w first second carries carries'
  rcases carried_before (step_thread stepped first) carries with ⟨v', was, before⟩ | takes
  · rcases carried_before (step_thread stepped second) carries' with ⟨w', was', before'⟩ | takes
    · exact alone i j v' w' was was' before before'
    · exact absurd (none_carries keeps takes (List.mem_of_getElem? was)) before
  · rcases carried_before (step_thread stepped second) carries' with ⟨w', was', before'⟩ | takes'
    · exact absurd (none_carries keeps takes (List.mem_of_getElem? was')) before'
    · obtain ⟨result, rfl⟩ := takes.1
      obtain ⟨result', same⟩ := takes'.1
      simp only [Action.worker.injEq] at same
      exact same.1

/-- The mails of one call of _notify come after all earlier ones, in the order of its scan. -/
theorem notify_lane (pid obj : Nat) (n : Notice) (clock : Nat → Int) (r : Region)
    (sent : List SentRecord) :
    let sending := (notify n clock r sent).2
    sent.length ≤ sending.sent.length ∧ ∃ news : List Nat,
      (sending.region.queue.items.filter (isFor pid obj)).map MailAtom.tag =
        (r.queue.items.filter (isFor pid obj)).map MailAtom.tag ++ news ∧
      news.Pairwise (· < ·) ∧ ∀ n ∈ news, sent.length ≤ n ∧ n < sending.sent.length := by
  refine notify_preserves n clock r sent (fun st => sent.length ≤ st.sent.length ∧
    ∃ news : List Nat, (st.region.queue.items.filter (isFor pid obj)).map MailAtom.tag =
        (r.queue.items.filter (isFor pid obj)).map MailAtom.tag ++ news ∧
      news.Pairwise (· < ·) ∧ ∀ n ∈ news, sent.length ≤ n ∧ n < st.sent.length)
    ⟨Nat.le_refl _, [], by simp, .nil, by simp⟩ ?_
  rintro st target allocNow sentNow _ _ _ _ ⟨counted, news, queued, ordered, later⟩
  cases (sendTo_passed n allocNow sentNow target st).1 with
  | lost queue sent' pids msgcount spare =>
    rw [queue, sent']
    exact ⟨counted, news, queued, ordered, later⟩
  | appended m slot mail queue sent' pids msgcount loaded =>
    have tag : m.tag = st.sent.length := by rw [mail]
    rw [queue, sent', List.filter_append, List.map_append, queued, List.length_append,
      List.length_singleton]
    refine ⟨by omega, ?_⟩
    by_cases mine : isFor pid obj m = true
    · refine ⟨news ++ [m.tag], by simp [mine], ?_, fun k member => ?_⟩
      · refine List.pairwise_append.mpr ⟨ordered, List.pairwise_singleton .., fun k old new last => ?_⟩
        rw [List.mem_singleton.mp last, tag]
        exact (later k old).2
      · rcases List.mem_append.mp member with old | last
        · have := later k old
          omega
        · rw [List.mem_singleton.mp last, tag]
          omega
    · refine ⟨news, by simp [mine], ordered, fun k member => ?_⟩
      have := later k member
      omega

theorem notified_advances (n : Notice) (clock : Nat → Int) (s : State) :
    ∃ news, Advances pid obj s (notifyLocked n clock s) news := by
  obtain ⟨counted, news, queued, ordered, later⟩ :=
    notify_lane pid obj n clock s.region s.sent
  refine ⟨news, ?_, ordered, later, counted⟩
  unfold lane queuedFor
  simp only [notifyLocked, queued, List.append_assoc]
  exact List.Sublist.refl _

theorem own_drain_lane {s : State} {i : Nat} {w : WorkerThread} {result locals : List MailAtom}
    {region : Region} (thread : s.workers[i]? = some w) (here : w.pos = .toDrain)
    (process : w.pid = pid) (drained : drain w.pid result s.region = some (locals, region))
    (keeps : KeepsOrder pid obj s (.worker i (.drain result))) :
    lane pid obj (moveWorker i w (.dispatching locals) { s with region }) = lane pid obj s := by
  obtain ⟨taken, left, _⟩ := drain_drained drained
  have none_left : region.queue.items.filter (isFor pid obj) = [] := by
    apply hit_for left
    intro m mine
    rw [process]
    exact (Bool.and_eq_true_iff.mp mine).1
  have carries : carriedFor pid obj { w with pos := .dispatching locals } =
      (queuedFor pid obj s).map MailAtom.tag := by
    simp only [carriedFor, process, localMails, taken, taken_for, reduceIte, queuedFor]
  have nothing : carriedFor pid obj w = [] := by
    simp [carriedFor, localMails, here]
  unfold lane
  simp only [moveWorker, queuedFor, none_left, List.map_nil, List.append_nil, List.append_assoc]
  apply congrArg _
  by_cases queued : queuedFor pid obj s = []
  · have same : carriedFor pid obj { w with pos := .dispatching locals } = carriedFor pid obj w := by
      rw [carries, queued, nothing, List.map_nil]
    unfold queuedFor at queued
    rw [flatMap_set_same _ thread same, queued, List.map_nil, List.append_nil]
  · have empty := fun v => none_carries (v := v) keeps ⟨⟨result, rfl⟩, queued, w, thread, process⟩
    obtain ⟨before, after⟩ := flatMap_alone (carriedFor pid obj) thread fun j v there holds =>
      absurd (empty v (List.mem_of_getElem? there)) holds
    rw [after, before, nothing, carries, List.nil_append, queuedFor]

theorem other_drain_queue {s : State} {i : Nat} {w : WorkerThread} {result locals : List MailAtom}
    {region : Region} (thread : s.workers[i]? = some w) (process : w.pid ≠ pid)
    (drained : drain w.pid result s.region = some (locals, region))
    (keeps : KeepsOrder pid obj s (.worker i (.drain result))) :
    region.queue.items.filter (isFor pid obj) = queuedFor pid obj s := by
  simp only [KeepsOrder, reorders, thread, Option.any_some, if_neg process, Bool.not_eq_false',
    ascends, decide_eq_true_eq] at keeps
  refine spared_for (drain_drained drained).left (drain_sorted drained) (fun m mine => ?_) keeps
  have := (isFor_mine mine).2.1
  simp only [isMine, Bool.and_eq_false_iff, decide_eq_false_iff_not]
  exact Or.inr (by omega)

theorem purge_queue {s : State} {p addr : Nat} {queueResult listenResult : List MailAtom}
    {region : Region} (leaving : s.instances p addr = .purging true)
    (purged : purge addr queueResult listenResult s.region = some region)
    (keeps : KeepsOrder pid obj s (.destroyPurge p addr queueResult listenResult)) :
    (region.queue.items.filter (isFor pid obj)).Sublist (queuedFor pid obj s) := by
  by_cases receiver : addr = obj
  · rw [hit_for (purge_purged purged).queue fun m mine => by
      simp [isObj, (isFor_mine mine).2.2, receiver]]
    exact List.nil_sublist _
  · simp only [KeepsOrder, reorders, leaving, decide_true, Bool.true_and, receiver, ne_eq,
      not_false_eq_true, Bool.not_eq_false', ascends, decide_eq_true_eq] at keeps
    have same := spared_for (purge_purged purged).queue (purge_sorted purged) (fun m mine => by
      simp [isObj, (isFor_mine mine).2.2, Ne.symm receiver]) keeps
    exact same ▸ List.Sublist.refl _

theorem purged_queue {s t : State} {p addr : Nat} {needworker : Bool}
    {queueResult listenResult : List MailAtom} (leaving : s.instances p addr = .purging needworker)
    (purged : destroyPurge p addr needworker queueResult listenResult s = some t)
    (keeps : KeepsOrder pid obj s (.destroyPurge p addr queueResult listenResult)) :
    (queuedFor pid obj t).Sublist (queuedFor pid obj s) := by
  cases destroyPurge_purges purged with
  | purged tables counted =>
    have fewer := purge_queue leaving tables keeps
    exact fewer
  | plain counted => exact List.Sublist.refl _

theorem purged_delivered (p addr : Nat) (mails : List MailAtom) :
    (mails.map (Event.purged p addr)).filterMap (delivered pid obj) = [] := by
  simp [List.filterMap_map, Function.comp_def, delivered]

theorem left_advances {s t : State} {p addr : Nat} {needworker : Bool}
    (left : Left p addr s needworker t)
    (queue : (queuedFor pid obj t).Sublist (queuedFor pid obj s)) : Advances pid obj s t [] := by
  cases left with
  | purged =>
    refine advances_of_fewer rfl ?_
    unfold lane
    simp only [List.filterMap_append, purged_delivered, List.append_nil]
    exact (List.Sublist.refl _).append (queue.map MailAtom.tag)
  | plain => exact advances_outside rfl rfl rfl rfl

theorem invoked_advances {s : State} {i : Nat} {w : WorkerThread} {mail : MailAtom}
    {size : Option Nat} {rest : List MailAtom} (alone : Alone pid obj s)
    (thread : s.workers[i]? = some w) (here : w.pos = .calling mail size rest)
    (data : Option (Nat × List UInt8)) (target : InstStatus) :
    Advances pid obj s (moveWorker i w (.inCallback mail size rest)
      { s with log := s.log ++ [.invoked i w.pid mail data target] }) [] := by
  have handed := invoked_lane pid obj (i := i) here data target
  have one : [Event.invoked i w.pid mail data target].filterMap (delivered pid obj) =
      (delivered pid obj (.invoked i w.pid mail data target)).toList := by
    cases shown : delivered pid obj (.invoked i w.pid mail data target) <;> simp [shown]
  refine advances_of_fewer rfl (List.Sublist.append ?_ (List.Sublist.refl _))
  simp only [moveWorker, List.filterMap_append, one, List.append_assoc]
  apply List.Sublist.append (List.Sublist.refl _)
  by_cases carries : carriedFor pid obj w = []
  · rw [carries] at handed
    obtain ⟨silent, nothing⟩ := List.append_eq_nil_iff.mp handed
    rw [silent, List.nil_append, flatMap_set_same _ thread (nothing.trans carries.symm)]
  · obtain ⟨before, after⟩ := flatMap_alone (carriedFor pid obj) thread fun j v there holds =>
      alone j i v w there thread holds carries
    rw [before, after, handed]

theorem moved_advances {s t : State} {i : Nat} {w : WorkerThread} {act : WorkerAct}
    (alone : Alone pid obj s) (keeps : KeepsOrder pid obj s (.worker i act))
    (thread : s.workers[i]? = some w) (moved : WorkerMoved i w s act t) :
    Advances pid obj s t [] := by
  have kept : ∀ (u : State) w', u.log = s.log → u.sent = s.sent →
      u.region.queue = s.region.queue → u.workers = s.workers.set i w' → w'.pid = w.pid →
      (localMails w').Sublist (localMails w) → Advances pid obj s u [] := by
    intro u w' log sent queue workers same fewer
    apply advances_quiet log sent _ _
    · rw [workers]
      exact flatMap_set_sublist _ thread (carriedFor_fewer same fewer)
    · unfold queuedFor
      rw [queue]
  cases moved with
  | drain here free drained =>
    by_cases process : w.pid = pid
    · refine advances_of_fewer rfl ?_
      rw [own_drain_lane thread here process drained keeps]
    · have queue := other_drain_queue thread process drained keeps
      refine advances_quiet rfl rfl ?_ (queue ▸ List.Sublist.refl _)
      apply flatMap_set_sublist _ thread
      simp only [carriedFor, if_neg process]
      exact List.Sublist.refl _
  | invoke here => exact invoked_advances alone thread here _ _
  | @mark mail rest now here free =>
    have queue : (markMail mail now s.region).queue = s.region.queue :=
      (SharedTraffic.markMail_traffic mail now s.region).2
    exact kept _ _ rfl rfl queue rfl rfl (by simp [localMails, here])
  | find here | crash here | test here | stop here | wait here | spurious here | retest here
  | stopWoken here | idle here | skip here | checked here | unchecked here | comeBackWithData here
  | comeBack here | finish here =>
    exact kept _ _ rfl rfl rfl rfl rfl (by simp [localMails, here])

/-- The step lemma: only _notify appends to the lane, and nothing changes its order. -/
theorem step_advances {capacity : Nat} {s t : State} {a : Action} (alone : Alone pid obj s)
    (keeps : KeepsOrder pid obj s a) (move : (machine capacity).step s a = some t) :
    ∃ news, Advances pid obj s t news := by
  cases step_stepped move with
  | construct object unused free constructed =>
    refine ⟨[], advances_quiet constructed.log constructed.sent ?_ ?_⟩
    · rcases constructed_workers constructed with same | grown
      · rw [same]
      · rw [grown, List.flatMap_append, List.flatMap_singleton, carriedFor_started, List.append_nil]
    · unfold queuedFor
      rw [constructed.queue]
  | addScalar object free added | addList object free added =>
    have tables := (addListen_listed added).1
    exact ⟨[], advances_outside rfl rfl rfl (by rw [tables])⟩
  | @notify self n clock free fits => exact notified_advances n clock s
  | broadcast user rounded =>
    cases rounded with
    | woke => exact ⟨[], advances_quiet rfl rfl (by rw [carriedFor_woken]) (List.Sublist.refl _)⟩
    | passed => exact ⟨[], advances_outside rfl rfl rfl rfl⟩
  | destroyBegin live free begun => cases begun <;> exact ⟨[], advances_outside rfl rfl rfl rfl⟩
  | destroySignal user =>
    refine ⟨[], advances_quiet rfl rfl ?_ (List.Sublist.refl _)⟩
    simp only [destroySignal, carriedFor_woken]
    exact List.Sublist.refl _
  | destroyPoll user polled =>
    cases polled with
    | joined | timedOut =>
      refine ⟨[], advances_of_fewer rfl ?_⟩
      simp [lane, destroyEntry, delivered, queuedFor]
    | waited => exact ⟨[], advances_outside rfl rfl rfl rfl⟩
  | @destroyPurge p addr needworker queueResult listenResult t leaving free left =>
    refine ⟨[], left_advances left (purged_queue leaving ?_ keeps)⟩
    change step capacity s (.destroyPurge p addr queueResult listenResult) = some t at move
    simp only [step, leaving] at move
    exact (of_locked move).2
  | worker thread moved => exact ⟨[], moved_advances alone keeps thread moved⟩
  | rejectScalar | rejectList | collect | destroyReturn =>
    exact ⟨[], advances_outside rfl rfl rfl rfl⟩

structure Ordered (pid obj : Nat) (s : State) : Prop where
  alone : Alone pid obj s
  ascending : (lane pid obj s).Pairwise (· < ·)
  appended : ∀ n ∈ lane pid obj s, n < s.sent.length

theorem initial_ordered (protbl : Nat → FixMap.Entry ProAtom) (payload : Nat → PayloadAtom) :
    Ordered pid obj (initial protbl payload) where
  alone i j v w first := by simp [initial] at first
  ascending := .nil
  appended n member := absurd member List.not_mem_nil

theorem step_ordered {capacity : Nat} {s t : State} {a : Action} (ordered : Ordered pid obj s)
    (keeps : KeepsOrder pid obj s a) (move : (machine capacity).step s a = some t) :
    Ordered pid obj t := by
  obtain ⟨alone, ascending, appended⟩ := ordered
  obtain ⟨news, fewer, orderly, later, counted⟩ := step_advances alone keeps move
  refine ⟨step_alone alone keeps (step_stepped move), List.Pairwise.sublist fewer ?_, ?_⟩
  · refine List.pairwise_append.mpr ⟨ascending, orderly, fun n old m new => ?_⟩
    exact Nat.lt_of_lt_of_le (appended n old) (later m new).1
  · intro n member
    rcases List.mem_append.mp (fewer.subset member) with old | new
    · exact Nat.lt_of_lt_of_le (appended n old) counted
    · exact (later n new).2

/-- In every run in which no clean-up reorders the receiver's mails, they are handed over in the
    order in which _notify appended them. -/
theorem kept_order_delivers {capacity : Nat} (pid obj : Nat) {s : State}
    (reached : (machine capacity).ReachableBy (KeepsOrder pid obj) s) :
    DeliveredInOrder pid obj s := by
  have ordered : Ordered pid obj s := by
    apply invariant_of_steps (Ordered pid obj) _ _ reached
    · rintro s ⟨protbl, payload, rfl⟩
      exact initial_ordered protbl payload
    · exact fun s a t holds keeps move => step_ordered holds keeps move
  have front := (List.pairwise_append.mp (List.pairwise_append.mp ordered.ascending).1).1
  exact front

def cleanedBetween : List Action :=
  [.construct 5 100 [7, 9] [entrySeven, ⟨9, 100, 5, none, 0⟩],
    .construct 6 200 [8] [entrySeven, ⟨8, 200, 6, none, 0⟩, ⟨9, 100, 5, none, 0⟩],
    .worker 0 .find, .worker 0 .test, .worker 0 .wait, .worker 1 .find, .worker 1 .test,
    .worker 1 .wait, .notify 200 ⟨6, 200, 7, none, 0⟩ (fun _ => 10), .broadcast,
    .notify 200 ⟨6, 200, 9, none, 0⟩ (fun _ => 11), .broadcast, .worker 1 .spurious,
    .worker 1 .retest, .worker 1 (.drain [entrySeven, ⟨9, 100, 5, none, 1⟩]),
    .worker 0 .retest, .worker 0 (.drain [mailAtomInit, mailAtomInit]), .worker 0 .next,
    .worker 0 .invoke, .worker 0 .comeBack, .worker 0 .next, .worker 0 .invoke]

theorem cleaned_between_delivers : ∃ s, (machine 22).runBy
    (fun s a => decide (KeepsOrder 5 100 s a)) zeroed cleanedBetween = some s ∧
      s.log.filterMap (delivered 5 100) = [0, 1] ∧ DeliveredInOrder 5 100 s := by
  obtain ⟨s, executed, both, reached⟩ := guarded_shows (KeepsOrder 5 100) cleanedBetween
    (zeroed_initial 22) (fun s : State => decide (s.log.filterMap (delivered 5 100) = [0, 1]))
    (by decide +kernel)
  exact ⟨s, executed, of_decide_eq_true both, kept_order_delivers 5 100 reached⟩

end SharedOrdering
