import FJUtility.Library.AgentList
import FJUtility.SharedMem.Steps

/- Where the entries of listen_, the mails of queue_ and those of the local lists can come
   from in a step. -/
namespace SharedTraffic
open AgentList FixVector SharedRegion SharedSending SharedTables SharedProcesses SharedSteps

def pendingPids (s : State) : List Nat :=
  match s.user with
  | some (.broadcasting pids) => pids
  | _ => []

theorem mem_insertPid {x pid : Nat} {pids : List Nat} :
    x ∈ insertPid pid pids ↔ x = pid ∨ x ∈ pids := by
  induction pids with
  | nil => simp [insertPid]
  | cons p rest ih =>
    simp only [insertPid]
    split
    · simp
    · split
      · rename_i same
        simp [same]
      · simp only [List.mem_cons, ih]
        tauto

def ListedFor (r : Region) (m : MailAtom) : Prop :=
  ∃ entry ∈ r.listen.items, entry.obj = m.obj ∧ entry.pid = m.pid

/-- A mail that _notify appends is for a listener whose process it is going to wake. -/
theorem notify_queue (n : Notice) (clock : Nat → Int) (r : Region) (sent : List SentRecord) :
    let sending := (notify n clock r sent).2
    ∀ m ∈ sending.region.queue.items, m ∈ r.queue.items ∨
      m.pid ∈ sending.pids ∧ 0 < sending.msgcount ∧ ListedFor r m := by
  refine notify_preserves n clock r sent (fun st => ∀ m ∈ st.region.queue.items,
    m ∈ r.queue.items ∨ m.pid ∈ st.pids ∧ 0 < st.msgcount ∧ ListedFor r m)
    (fun _ => Or.inl) ?_
  intro st target allocNow sentNow listed _ _ _ before m member
  have kept := before m
  cases (sendTo_passed n allocNow sentNow target st).1 with
  | lost queue sent pids msgcount spare =>
    rw [queue] at member
    rw [pids, msgcount]
    exact kept member
  | appended new slot mail queue sent pids msgcount loaded =>
    rw [queue, List.mem_append, List.mem_singleton] at member
    rw [pids, msgcount, mem_insertPid]
    rcases member with old | rfl
    · rcases kept old with older | ⟨waiting, _, addressee⟩
      · exact Or.inl older
      · exact Or.inr ⟨Or.inr waiting, by omega, addressee⟩
    · have pid : m.pid = target.pid := by rw [mail]
      have obj : m.obj = target.obj := by rw [mail]
      exact Or.inr ⟨Or.inl pid, by omega, target, listed, obj.symm, pid.symm⟩

inductive Lists (pid obj : Nat) : Action → Prop where
  | construct {list : List Nat} {result : List MailAtom} : Lists pid obj (.construct pid obj list result)
  | addScalar {self msg : Nat} {result : List MailAtom} :
      Lists pid obj (.addListenScalar pid self obj msg result)
  | addList {self : Nat} {list : List Nat} {result : List MailAtom} :
      Lists pid obj (.addListenList pid self obj list result)

inductive Traffic (s t : State) : Action → Prop where
  | fewer {a : Action} (listen : t.region.listen.items ⊆ s.region.listen.items)
      (queue : t.region.queue.items ⊆ s.region.queue.items) : Traffic s t a
  | listed {a : Action} {pid obj : Nat} (object : obj ≠ 0) (lists : Lists pid obj a)
      (listen : ∀ m ∈ t.region.listen.items,
        m ∈ s.region.listen.items ∨ m.obj = obj ∧ m.pid = pid)
      (queue : t.region.queue = s.region.queue) : Traffic s t a
  | notified {a : Action} (listen : t.region.listen = s.region.listen)
      (queue : ∀ m ∈ t.region.queue.items,
        m ∈ s.region.queue.items ∨ m.pid ∈ pendingPids t ∧ ListedFor s.region m) : Traffic s t a

theorem traffic_same {s t : State} {a : Action} (listen : t.region.listen = s.region.listen)
    (queue : t.region.queue = s.region.queue) : Traffic s t a :=
  .fewer (listen ▸ List.Subset.refl _) (queue ▸ List.Subset.refl _)

theorem added_traffic {s : State} {a : Action} {pid obj n : Nat} {list : List Nat}
    {result : List MailAtom} {region : Region} (object : obj ≠ 0) (lists : Lists pid obj a)
    (added : addListen pid obj list result s.region = some (region, n)) :
    Traffic s { s with region } a := by
  obtain ⟨tables, listed⟩ := addListen_listed added
  have queue : region.queue = s.region.queue := by rw [tables]
  exact .listed object lists listed queue

theorem markMail_traffic (mail : MailAtom) (now : Int) (r : Region) :
    (markMail mail now r).listen = r.listen ∧ (markMail mail now r).queue = r.queue := by
  rw [markMail_same]
  exact ⟨rfl, rfl⟩

theorem moved_traffic {s t : State} {i : Nat} {w : WorkerThread} {act : WorkerAct} {a : Action}
    (moved : WorkerMoved i w s act t) : Traffic s t a := by
  cases moved with
  | drain here free drained =>
    obtain ⟨_, left, tables⟩ := drain_drained drained
    refine .fewer ?_ fun m member => List.mem_of_mem_filter (left.mem_iff.mp member)
    exact congrArg (fun r : Region => r.listen.items) tables ▸ List.Subset.refl _
  | @mark mail rest now here free =>
    obtain ⟨listen, queue⟩ := markMail_traffic mail now s.region
    exact traffic_same listen queue
  | _ => exact traffic_same rfl rfl

theorem step_traffic {capacity : Nat} {s t : State} {a : Action} (stepped : Stepped capacity s a t) :
    Traffic s t a := by
  cases stepped with
  | construct object unused free constructed =>
    exact .listed object .construct constructed.listed constructed.queue
  | addScalar object free added => exact added_traffic object .addScalar added
  | addList object free added => exact added_traffic object .addList added
  | @notify self n clock free fits =>
    refine .notified (notify_same n clock s.region s.sent).listen fun m member => ?_
    refine (notify_queue n clock s.region s.sent m member).imp id fun ⟨waiting, sends, listed⟩ => ?_
    refine ⟨?_, listed⟩
    simp only [pendingPids, notifyLocked, gt_iff_lt, sends, reduceIte]
    exact waiting
  | broadcast user rounded => cases rounded <;> exact traffic_same rfl rfl
  | destroyBegin live free begun => cases begun <;> exact traffic_same rfl rfl
  | destroyPoll user polled => cases polled <;> exact traffic_same rfl rfl
  | destroyPurge leaving free left =>
    cases left with
    | purged tables counted =>
      exact .fewer (fun m member => List.mem_of_mem_filter (tables.listen.mem_iff.mp member))
        fun m member => List.mem_of_mem_filter (tables.queue.mem_iff.mp member)
    | plain counted => exact traffic_same rfl rfl
  | worker thread moved => exact moved_traffic moved
  | rejectScalar | rejectList | collect | destroySignal | destroyReturn =>
    exact traffic_same rfl rfl

theorem step_queue {capacity : Nat} {s t : State} {a : Action} (stepped : Stepped capacity s a t)
    {m : MailAtom} (member : m ∈ t.region.queue.items) :
    m ∈ s.region.queue.items ∨ m.pid ∈ pendingPids t ∧ ListedFor s.region m := by
  cases step_traffic stepped with
  | fewer listen queue => exact Or.inl (queue member)
  | listed object lists listen queue => exact Or.inl (queue ▸ member)
  | notified listen queue => exact queue m member

theorem step_listen {capacity : Nat} {s t : State} {a : Action} (stepped : Stepped capacity s a t)
    {m : MailAtom} (member : m ∈ t.region.listen.items) :
    m ∈ s.region.listen.items ∨ m.obj ≠ 0 ∧ Lists m.pid m.obj a := by
  cases step_traffic stepped with
  | fewer listen queue => exact Or.inl (listen member)
  | listed object lists listen queue =>
    rcases listen m member with old | ⟨rfl, rfl⟩
    · exact Or.inl old
    · exact Or.inr ⟨object, lists⟩
  | notified listen queue => exact Or.inl (listen ▸ member)

theorem thread_local {s t : State} {a : Action} {j : Nat} {w' : WorkerThread}
    (thread : ThreadStep s t a j w') {m : MailAtom} (member : m ∈ localMails w') :
    (∃ w ∈ s.workers, w.pid = w'.pid ∧ m ∈ localMails w) ∨
      m ∈ s.region.queue.items ∧ m.pid = w'.pid := by
  cases thread with
  | same was => exact Or.inl ⟨w', List.mem_of_getElem? was, rfl, member⟩
  | woken was waits is =>
    rw [is] at member
    simp [localMails] at member
  | started construct last is =>
    rw [is] at member
    simp [localMails] at member
  | @moved w act was own moves is =>
    have before := List.mem_of_getElem? was
    cases moves with
    | find here | crash here | test here | stop here | wait here | spurious here | retest here
    | stopWoken here | idle here | finish here =>
      rw [set_at was is] at member
      simp [localMails] at member
    | drain here free drained =>
      have same := set_at was is
      subst same
      simp only [localMails, (drain_drained drained).taken, List.mem_filter, isMine,
        Bool.and_eq_true, decide_eq_true_eq] at member
      exact Or.inr ⟨member.1, member.2.2⟩
    | skip here empty =>
      have same := set_at was is
      subst same
      refine Or.inl ⟨w, before, rfl, ?_⟩
      simp only [localMails, here]
      exact List.mem_cons_of_mem _ member
    | checked here | unchecked here | invoke here | comeBackWithData here | comeBack here
    | mark here =>
      have same := set_at was is
      subst same
      refine Or.inl ⟨w, before, rfl, ?_⟩
      simp only [localMails, here] at member ⊢
      first
        | exact member
        | exact List.mem_cons_of_mem _ member

end SharedTraffic
