import Mathlib.Data.Set.Card
import Mathlib.Order.Interval.Set.Nat
import FJUtility.SharedMem.Registry

/- The entries of protbl_ against the instances of their processes. The constructor enters and
   counts, the first section of the destructor counts down, and its end under the same lock
   removes the entry; each looks the entry up again in a table that others shift. -/
namespace SharedRefCounts
open LabelledMachine FixMap SharedRegion SharedSending SharedTables SharedProcesses SharedSteps
  SharedRegistry

/-- The instances of a process that registered a message and are not being destroyed. -/
def registrants (s : State) (pid : Nat) : Set Nat :=
  {addr | s.instances pid addr = .live true}

/-- A process has an entry exactly while it has such an instance, and the entry counts them. -/
def CountsMatch (s : State) : Prop :=
  ∀ pid, (Present s.region.protbl pid ↔ (registrants s pid).Nonempty) ∧
    ∀ p, lookup s.region.protbl pid = some p → p.refcount = (registrants s pid).ncard

def threadsOf (pid : Nat) (s : State) : Nat := s.workers.countP fun w => decide (w.pid = pid)

def closing (s : State) : Option Nat :=
  match s.user with
  | some (.stopping pid ..) | some (.joining pid ..) => some pid
  | _ => none

def operator (s : State) : Action → Option Nat
  | .construct pid .. | .destroyBegin pid _ | .destroyPurge pid .. | .destroyReturn pid _ => some pid
  | .destroySignal | .destroyPoll => closing s
  | _ => none

/-- What a step does to a process: a worker is created exactly for the first such instance, and
    the operations of other processes leave its entry as it is. -/
structure StepCounts (s t : State) (a : Action) (pid : Nat) : Prop where
  threads : threadsOf pid t = threadsOf pid s +
    if (registrants s pid).ncard = 0 ∧ (registrants t pid).ncard = 1 then 1 else 0
  apart : ∀ other, operator s a = some other → other ≠ pid →
    lookup t.region.protbl pid = lookup s.region.protbl pid

/-- this is an address of 64 bits. -/
def Addressed (_ : State) : Action → Prop
  | .construct _ addr .. => addr < 2 ^ 64
  | _ => True

instance (s : State) (a : Action) : Decidable (Addressed s a) := by
  cases a <;> simp only [Addressed] <;> infer_instance

def countOf (m : FJFixMap ProAtom) (pid : Nat) : Nat := (lookup m pid).elim 0 ProAtom.refcount

structure Counted (s : State) : Prop where
  within : ∀ pid, registrants s pid ⊆ Set.Ioo 0 (2 ^ 64)
  counted : ∀ pid, countOf s.region.protbl pid = (registrants s pid).ncard
  present : ∀ pid, (lookup s.region.protbl pid).isSome = true ↔
    (registrants s pid).Nonempty ∨ closing s = some pid
  closed : ∀ pid, closing s = some pid → registrants s pid = ∅

theorem within_finite {live : Set Nat} {bound : Nat} (within : live ⊆ Set.Ioo 0 bound) :
    live.Finite :=
  (Set.finite_Ioo 0 bound).subset within

theorem within_ncard {live : Set Nat} {bound : Nat} (positive : 0 < bound)
    (within : live ⊆ Set.Ioo 0 bound) : live.ncard < bound := by
  have fewer := Set.ncard_le_ncard within (Set.finite_Ioo 0 bound)
  have whole : (Set.Ioo 0 bound).ncard = bound - 0 - 1 := by
    rw [← Finset.coe_Ioo, Set.ncard_coe_finset, Nat.card_Ioo]
  omega

theorem registrants_other {s t : State} {pid addr other : Nat} {status : InstStatus}
    (instances : t.instances = setStatus s pid addr status) (apart : other ≠ pid) :
    registrants t other = registrants s other := by
  ext a
  simp [registrants, instances, setStatus, Function.update_of_ne apart]

theorem registrants_entered {s t : State} {pid addr : Nat}
    (instances : t.instances = setStatus s pid addr (.live true)) :
    registrants t pid = insert addr (registrants s pid) := by
  ext a
  by_cases here : a = addr
  · simp [registrants, instances, setStatus, here]
  · simp [registrants, instances, setStatus, here]

theorem registrants_left {s t : State} {pid addr : Nat} {status : InstStatus}
    (instances : t.instances = setStatus s pid addr status) (gone : status ≠ .live true) :
    registrants t pid = registrants s pid \ {addr} := by
  ext a
  by_cases here : a = addr
  · simp [registrants, instances, setStatus, here, gone]
  · simp [registrants, instances, setStatus, here]

theorem registrants_same {s t : State} {pid addr : Nat} {status : InstStatus}
    (instances : t.instances = setStatus s pid addr status) (gone : status ≠ .live true)
    (uncounted : s.instances pid addr ≠ .live true) (other : Nat) :
    registrants t other = registrants s other := by
  by_cases own : other = pid
  · rw [own, registrants_left instances gone]
    exact Set.sdiff_singleton_eq_self uncounted
  · exact registrants_other instances own

theorem lookup_write_other {m : FJFixMap ProAtom} (sorted : Sorted m) {pid slot other : Nat}
    (here : slot < m.count ∧ (m.entries slot).key = pid) (apart : other ≠ pid) (p : ProAtom) :
    lookup (write m slot p) other = lookup m other := by
  rw [lookup_write, if_neg]
  intro found
  exact apart (((findIndex_eq_some sorted).mp found).2.symm.trans here.2)

theorem lookup_write_self {m : FJFixMap ProAtom} (sorted : Sorted m) {pid slot : Nat}
    (here : slot < m.count ∧ (m.entries slot).key = pid) (p : ProAtom) :
    lookup (write m slot p) pid = some p := by
  rw [lookup_write, if_pos ((findIndex_eq_some sorted).mpr here)]

structure Registered (pid : Nat) (s : State) (protbl : FJFixMap ProAtom)
    (workers : List WorkerThread) (p : ProAtom) : Prop where
  others : ∀ other, other ≠ pid → lookup protbl other = lookup s.region.protbl other
  entry : lookup protbl pid = some p
  refcount : p.refcount = (countOf s.region.protbl pid + 1) % 2 ^ 64
  workers : workers = if p.refcount = 1 then s.workers ++ [⟨pid, none, .starting⟩] else s.workers

theorem retained_registered {capacity pid : Nat} {s : State} {protbl : FJFixMap ProAtom}
    {workers : List WorkerThread} (sorted : Sorted s.region.protbl)
    (retained : Retained capacity pid s protbl workers) :
    ∃ p, Registered pid s protbl workers p := by
  cases retained with
  | @counted slot found later =>
    have here := (findIndex_eq_some sorted).mp found
    refine ⟨_, fun other apart => lookup_write_other sorted here apart _,
      lookup_write_self sorted here _, ?_, (if_neg later).symm⟩
    simp [countOf, lookup_found found, countedUp]
  | @revived slot found first =>
    have here := (findIndex_eq_some sorted).mp found
    refine ⟨_, fun other apart => lookup_write_other sorted here apart _,
      lookup_write_self sorted here _, ?_, (if_pos first).symm⟩
    simp [countOf, lookup_found found, startedWith, countedUp]
  | @entered slot table absent inserted =>
    have sorted' := insert_sorted sorted inserted
    have here := insert_at sorted inserted
    have here' : slot < (write table slot proAtomInit).count ∧
        ((write table slot proAtomInit).entries slot).key = pid := by
      rw [write_keys]
      exact here
    have sorted'' := write_sorted sorted' slot proAtomInit
    refine ⟨_, fun other apart => ?_, lookup_write_self sorted'' here' _, ?_, (if_pos rfl).symm⟩
    · rw [lookup_write_other sorted'' here' apart, lookup_write_other sorted' here apart,
        lookup_insert sorted inserted apart]
    · simp [countOf, lookup, absent, startedWith, countedUp, proAtomInit]

/-- needworker_ is set by the constructors that count themselves in, and by no others. -/
theorem construct_registers {capacity pid addr : Nat} {list : List Nat} {result : List MailAtom}
    {s t : State} (constructed : construct capacity pid addr list result s = some t) :
    t.instances = setStatus s pid addr (.live false) ∧ t.region.protbl = s.region.protbl ∧
        t.workers = s.workers ∨
      t.instances = setStatus s pid addr (.live true) ∧
        Retained capacity pid s t.region.protbl t.workers := by
  cases construct_built constructed with
  | plain added counted =>
    left
    exact ⟨rfl, by rw [(addListen_listed added).1], rfl⟩
  | needing added needs retained counted =>
    right
    exact ⟨rfl, retained⟩

theorem construct_enters {capacity pid addr : Nat} {list : List Nat} {result : List MailAtom}
    {s t : State} (move : (machine capacity).step s (.construct pid addr list result) = some t) :
    s.instances pid addr ≠ .live true ∧ construct capacity pid addr list result s = some t := by
  change step capacity s (.construct pid addr list result) = some t at move
  simp only [step] at move
  split at move
  · rename_i entry
    refine ⟨?_, (of_locked move).2⟩
    rcases entry.2 with never | past
    · simp [never]
    · simp [past]
  · simp at move

structure Undisturbed (s t : State) : Prop where
  instances : ∀ pid, registrants t pid = registrants s pid
  counts : ∀ pid, countOf t.region.protbl pid = countOf s.region.protbl pid
  present : ∀ pid, (lookup t.region.protbl pid).isSome = (lookup s.region.protbl pid).isSome
  closing : closing t = closing s

theorem undisturbed_counted {s t : State} (counted : Counted s) (same : Undisturbed s t) :
    Counted t := by
  constructor
  · intro pid
    rw [same.instances]
    exact counted.within pid
  · intro pid
    rw [same.counts, same.instances]
    exact counted.counted pid
  · intro pid
    rw [same.present, same.instances, same.closing]
    exact counted.present pid
  · intro pid
    rw [same.closing, same.instances]
    exact counted.closed pid

theorem undisturbed_table {s t : State} (instances : t.instances = s.instances)
    (protbl : t.region.protbl = s.region.protbl) (shut : closing t = closing s) :
    Undisturbed s t := by
  constructor
  · intro pid
    simp only [registrants, instances]
  · intro pid
    rw [protbl]
  · intro pid
    rw [protbl]
  · exact shut

theorem undisturbed_status {s t : State} {pid addr : Nat} {status : InstStatus}
    (instances : t.instances = setStatus s pid addr status) (gone : status ≠ .live true)
    (uncounted : s.instances pid addr ≠ .live true)
    (protbl : t.region.protbl = s.region.protbl) (shut : closing t = closing s) :
    Undisturbed s t := by
  constructor
  · exact registrants_same instances gone uncounted
  · intro pid
    rw [protbl]
  · intro pid
    rw [protbl]
  · exact shut

/-- The worker's write of worker_done_, into whatever entry is at its address now. -/
theorem undisturbed_write {s t : State} {slot : Nat} {p : ProAtom}
    (instances : t.instances = s.instances) (user : t.user = s.user)
    (protbl : t.region.protbl = write s.region.protbl slot p)
    (refcount : p.refcount = (proAtomAt s slot).refcount) : Undisturbed s t := by
  have written : ∀ pid, lookup t.region.protbl pid =
      if findIndex s.region.protbl pid = some slot then some p else lookup s.region.protbl pid := by
    intro pid
    rw [protbl, lookup_write]
  constructor
  · intro pid
    simp only [registrants, instances]
  · intro pid
    rw [countOf, written]
    split
    · rename_i found
      rw [countOf, lookup_found found]
      exact refcount
    · rfl
  · intro pid
    rw [written]
    split
    · rename_i found
      rw [lookup_found found]
      rfl
    · rfl
  · simp only [closing, user]

theorem sending_open {s : State} (sends : s.user = none ∨ ∃ pids, s.user = some (.broadcasting pids)) :
    closing s = none := by
  rcases sends with free | ⟨pids, user⟩
  · simp [closing, free]
  · simp [closing, user]

theorem construct_counted {capacity pid addr : Nat} {list : List Nat} {result : List MailAtom}
    {s t : State} (counted : Counted s) (sorted : Sorted s.region.protbl) (free : s.user = none)
    (object : addr ≠ 0) (addressed : addr < 2 ^ 64) (unused : s.instances pid addr ≠ .live true)
    (constructed : construct capacity pid addr list result s = some t) : Counted t := by
  have user : t.user = s.user := (construct_constructed constructed).user
  have open_ : closing s = none := by simp [closing, free]
  have open_' : closing t = none := by simp [closing, user, free]
  rcases construct_registers constructed with ⟨instances, protbl, _⟩ | ⟨instances, retained⟩
  · apply undisturbed_counted counted
    exact undisturbed_status instances (by simp) unused protbl (open_'.trans open_.symm)
  · obtain ⟨p, registered⟩ := retained_registered sorted retained
    have entered := registrants_entered instances
    have within : ∀ other, registrants t other ⊆ Set.Ioo 0 (2 ^ 64) := by
      intro other
      by_cases own : other = pid
      · rw [own, entered]
        exact Set.insert_subset ⟨Nat.pos_of_ne_zero object, addressed⟩ (counted.within pid)
      · rw [registrants_other instances own]
        exact counted.within other
    have one : (registrants t pid).ncard = (registrants s pid).ncard + 1 := by
      rw [entered]
      exact Set.ncard_insert_of_notMem unused (within_finite (counted.within pid))
    constructor
    · exact within
    · intro other
      by_cases own : other = pid
      · have bounded := within_ncard (by decide) (within pid)
        subst own
        rw [countOf, registered.entry, Option.elim_some, registered.refcount, counted.counted, one]
        exact Nat.mod_eq_of_lt (one ▸ bounded)
      · rw [countOf, registered.others other own, registrants_other instances own]
        exact counted.counted other
    · intro other
      by_cases own : other = pid
      · subst own
        simp only [registered.entry, entered, Option.isSome_some, true_iff]
        exact Or.inl (Set.insert_nonempty _ _)
      · rw [registered.others other own, registrants_other instances own, open_', ← open_]
        exact counted.present other
    · intro other shut
      rw [open_'] at shut
      exact absurd shut (by simp)

theorem live_entry {s : State} (counted : Counted s) {pid addr : Nat}
    (live : s.instances pid addr = .live true) :
    0 < (registrants s pid).ncard ∧ (registrants s pid).ncard < 2 ^ 64 ∧
      (lookup s.region.protbl pid).isSome = true := by
  have member : addr ∈ registrants s pid := live
  have finite := within_finite (counted.within pid)
  exact ⟨(Set.ncard_pos finite).mpr ⟨addr, member⟩, within_ncard (by decide) (counted.within pid),
    (counted.present pid).mpr (Or.inl ⟨addr, member⟩)⟩

theorem lowered_counted {s t : State} (counted : Counted s) (sorted : Sorted s.region.protbl)
    {pid addr slot : Nat} {p : ProAtom} {status : InstStatus} (free : s.user = none)
    (live : s.instances pid addr = .live true) (gone : status ≠ .live true)
    (instances : t.instances = setStatus s pid addr status)
    (found : findIndex s.region.protbl pid = some slot)
    (protbl : t.region.protbl = write s.region.protbl slot p)
    (refcount : p.refcount = ((proAtomAt s slot).refcount + 2 ^ 64 - 1) % 2 ^ 64)
    (shut : closing t = if p.refcount = 0 then some pid else none) : Counted t := by
  have here := (findIndex_eq_some sorted).mp found
  have left := registrants_left instances gone
  have finite := within_finite (counted.within pid)
  obtain ⟨positive, bounded, _⟩ := live_entry counted live
  have one : (registrants t pid).ncard = (registrants s pid).ncard - 1 := by
    rw [left]
    exact Set.ncard_sdiff_singleton_of_mem live
  have fewer : p.refcount = (registrants t pid).ncard := by
    have before := counted.counted pid
    rw [countOf, lookup_found found, Option.elim_some] at before
    rw [refcount, before, one]
    omega
  have finite' : (registrants t pid).Finite := by
    rw [left]
    exact finite.subset Set.sdiff_subset
  have empty : p.refcount = 0 ↔ registrants t pid = ∅ := by
    rw [fewer]
    exact Set.ncard_eq_zero finite'
  have others : ∀ other, other ≠ pid → closing t ≠ some other := by
    intro other apart closes
    rw [shut] at closes
    split at closes
    · exact apart (Option.some.inj closes).symm
    · simp at closes
  constructor
  · intro other
    by_cases own : other = pid
    · rw [own, left]
      exact Set.sdiff_subset.trans (counted.within pid)
    · rw [registrants_other instances own]
      exact counted.within other
  · intro other
    by_cases own : other = pid
    · subst own
      rw [countOf, protbl, lookup_write_self sorted here]
      exact fewer
    · rw [countOf, protbl, lookup_write_other sorted here own, registrants_other instances own]
      exact counted.counted other
  · intro other
    by_cases own : other = pid
    · subst own
      rw [protbl, lookup_write_self sorted here, shut]
      by_cases last : p.refcount = 0
      · simp [last]
      · have some_left := Set.nonempty_iff_ne_empty.mpr fun none_left => last (empty.mpr none_left)
        simp [some_left]
    · rw [protbl, lookup_write_other sorted here own, registrants_other instances own]
      have before := counted.present other
      simp only [closing, free] at before
      simpa [others other own] using before
  · intro other closes
    by_cases own : other = pid
    · subst own
      rw [shut] at closes
      split at closes
      · rename_i last
        exact empty.mp last
      · simp at closes
    · exact absurd closes (others other own)

theorem begun_counted {s t : State} (counted : Counted s) (sorted : Sorted s.region.protbl)
    {pid addr : Nat} {needworker : Bool} (free : s.user = none)
    (live : s.instances pid addr = .live needworker) (begun : Begun pid addr needworker s t) :
    Counted t := by
  cases begun with
  | leave unregistered =>
    apply undisturbed_counted counted
    refine undisturbed_status rfl (by simp) ?_ rfl rfl
    intro needed
    rw [live, InstStatus.live.injEq] at needed
    subst needed
    have entry := (live_entry counted live).2.2
    simp [lookup, unregistered rfl] at entry
  | counted needs found down others =>
    exact lowered_counted counted sorted free (needs ▸ live) (by simp) rfl found rfl down
      (by simp [closing, free, others])
  | last needs found down none_left =>
    exact lowered_counted counted sorted free (needs ▸ live) (by simp) rfl found rfl down
      (by simp [closing, none_left])

theorem destroyEntry_counted {s : State} (counted : Counted s) (sorted : Sorted s.region.protbl)
    {pid addr slot : Nat} {joined : Bool} (shut : closing s = some pid) :
    Counted (destroyEntry pid addr slot joined s) := by
  have empty := counted.closed pid shut
  have unlisted : s.instances pid addr ≠ .live true := by
    intro live
    have member : addr ∈ registrants s pid := live
    rw [empty] at member
    exact member
  have same : ∀ other, registrants (destroyEntry pid addr slot joined s) other =
      registrants s other := registrants_same rfl (by simp) unlisted
  have open_ : closing (destroyEntry pid addr slot joined s) = none := rfl
  constructor
  · intro other
    rw [same]
    exact counted.within other
  · intro other
    rw [same]
    by_cases own : other = pid
    · rw [own, empty, Set.ncard_empty, countOf]
      simp [destroyEntry, lookup_unset_self sorted]
    · rw [← counted.counted, countOf, countOf]
      simp only [destroyEntry, lookup_unset sorted own]
  · intro other
    rw [same, open_]
    by_cases own : other = pid
    · rw [own, empty]
      simp [destroyEntry, lookup_unset_self sorted]
    · have before := counted.present other
      rw [shut, Option.some.injEq] at before
      simp only [destroyEntry, lookup_unset sorted own]
      simpa [Ne.symm own] using before
  · intro other closes
    rw [open_] at closes
    exact absurd closes (by simp)

theorem polled_counted {s t : State} (counted : Counted s) (sorted : Sorted s.region.protbl)
    {pid addr slot polls : Nat} (user : s.user = some (.joining pid addr slot polls))
    (polled : Polled pid addr slot polls s t) : Counted t := by
  have shut : closing s = some pid := by simp [closing, user]
  cases polled with
  | joined => exact destroyEntry_counted counted sorted shut
  | timedOut => exact destroyEntry_counted counted sorted shut
  | waited =>
    exact undisturbed_counted counted (undisturbed_table rfl rfl (by simp [closing, user]))

theorem moved_undisturbed {i : Nat} {w : WorkerThread} {act : WorkerAct} {s t : State}
    (moved : WorkerMoved i w s act t) : Undisturbed s t := by
  cases moved with
  | @drain result locals region here free drained =>
    have protbl : region.protbl = s.region.protbl := by rw [(drain_drained drained).tables]
    exact undisturbed_table rfl protbl rfl
  | mark here free => exact undisturbed_table rfl (by simp only [moveWorker, markMail_table]) rfl
  | finish here => exact undisturbed_write rfl rfl rfl rfl
  | _ => exact undisturbed_table rfl rfl rfl

theorem left_undisturbed {s t : State} {pid addr : Nat} {needworker : Bool}
    (leaving : s.instances pid addr = .purging needworker) (left : Left pid addr s needworker t) :
    Undisturbed s t := by
  have uncounted : s.instances pid addr ≠ .live true := by simp [leaving]
  cases left with
  | @purged region initialized tables counted =>
    have protbl : region.protbl = s.region.protbl := by rw [tables.tables]
    exact undisturbed_status rfl (by simp) uncounted protbl rfl
  | plain counted => exact undisturbed_status rfl (by simp) uncounted rfl rfl

theorem step_counted {capacity : Nat} {s t : State} {a : Action} (counted : Counted s)
    (sorted : Sorted s.region.protbl) (addressed : Addressed s a)
    (move : (machine capacity).step s a = some t) : Counted t := by
  cases step_stepped move with
  | @construct pid addr list result t object unused free constructed =>
    obtain ⟨absent, entered⟩ := construct_enters move
    exact construct_counted counted sorted free object addressed absent entered
  | rejectScalar | rejectList => exact counted
  | addScalar object free added | addList object free added =>
    have protbl := (addListen_listed added).1
    exact undisturbed_counted counted (undisturbed_table rfl (by rw [protbl]) rfl)
  | @notify self n clock free fits =>
    have protbl := (notify_same n clock s.region s.sent).protbl
    have open_ : closing (notifyLocked n clock s) = none := by
      apply sending_open
      simp only [notifyLocked]
      split
      · exact Or.inr ⟨_, rfl⟩
      · exact Or.inl rfl
    exact undisturbed_counted counted
      (undisturbed_table rfl protbl (open_.trans (sending_open (Or.inl free)).symm))
  | @broadcast pid rest t user rounded =>
    have open_ : ∀ t : State, t.user = afterRound rest → closing t = closing s := by
      intro t after
      rw [sending_open (Or.inr ⟨_, user⟩)]
      apply sending_open
      rw [after, afterRound]
      split
      · exact Or.inl rfl
      · exact Or.inr ⟨_, rfl⟩
    apply undisturbed_counted counted
    cases rounded with
    | woke => exact undisturbed_table rfl rfl (open_ _ rfl)
    | passed => exact undisturbed_table rfl rfl (open_ _ rfl)
  | collect free => exact undisturbed_counted counted (undisturbed_table rfl rfl rfl)
  | destroyBegin live free begun => exact begun_counted counted sorted free live begun
  | destroySignal user =>
    exact undisturbed_counted counted
      (undisturbed_table rfl rfl (by simp [closing, destroySignal, user]))
  | destroyPoll user polled => exact polled_counted counted sorted user polled
  | destroyPurge leaving free left => exact undisturbed_counted counted (left_undisturbed leaving left)
  | destroyReturn leaving =>
    apply undisturbed_counted counted
    exact undisturbed_status rfl (by simp) (by simp [leaving]) rfl rfl
  | worker thread moved => exact undisturbed_counted counted (moved_undisturbed moved)

theorem initial_counted (protbl : Nat → Entry ProAtom) (payload : Nat → PayloadAtom) :
    Counted (initial protbl payload) := by
  have none_live : ∀ pid, registrants (initial protbl payload) pid = ∅ := by
    intro pid
    simp [registrants, initial]
  have no_entry : ∀ pid, lookup (initial protbl payload).region.protbl pid = none := fun pid => rfl
  constructor
  · intro pid
    rw [none_live]
    exact Set.empty_subset _
  · intro pid
    rw [none_live, Set.ncard_empty, countOf, no_entry]
    rfl
  · intro pid
    rw [none_live, no_entry]
    simp [closing, initial]
  · intro pid _
    exact none_live pid

theorem counted_reached {capacity : Nat} {s : State}
    (reached : (machine capacity).ReachableBy Addressed s) : Counted s := by
  apply invariant_along (fun s => Sorted s.region.protbl) Counted (fun _ => sorted_reached) _ _
    reached
  · rintro s ⟨protbl, payload, rfl⟩
    exact initial_counted protbl payload
  · intro s a t sorted counted addressed move
    exact step_counted counted sorted addressed move

theorem threadsOf_same {s t : State} (pids : t.workers.map WorkerThread.pid =
    s.workers.map WorkerThread.pid) (pid : Nat) : threadsOf pid t = threadsOf pid s := by
  have counted : ∀ u : State, threadsOf pid u =
      (u.workers.map WorkerThread.pid).countP fun p => decide (p = pid) := by
    intro u
    rw [threadsOf, List.countP_map]
    rfl
  rw [counted, counted, pids]

theorem wakeSlot_pids (slot : Nat) (workers : List WorkerThread) :
    (wakeSlot slot workers).map WorkerThread.pid = workers.map WorkerThread.pid := by
  rw [wakeSlot, List.map_map]
  apply List.map_congr_left
  intro w _
  simp only [Function.comp_apply]
  split <;> rfl

theorem moved_pids {i : Nat} {w : WorkerThread} {act : WorkerAct} {s t : State}
    (thread : s.workers[i]? = some w) (moved : WorkerMoved i w s act t) :
    t.workers.map WorkerThread.pid = s.workers.map WorkerThread.pid := by
  obtain ⟨w', set, same, _⟩ := moved_set moved
  rw [set, List.map_set, same]
  apply List.ext_getElem?
  intro j
  rw [List.getElem?_set, List.getElem?_map]
  split
  · rename_i here
    subst here
    obtain ⟨bound, own⟩ := List.getElem?_eq_some_iff.mp thread
    simp [bound, own]
  · rfl

theorem step_settled {capacity : Nat} {s t : State} {a : Action} (stepped : Stepped capacity s a t)
    (other : ∀ pid addr list result, a ≠ .construct pid addr list result) :
    t.workers.map WorkerThread.pid = s.workers.map WorkerThread.pid ∧
      ∀ pid, registrants t pid ⊆ registrants s pid := by
  have fewer : ∀ (t : State) (pid addr : Nat) (status : InstStatus), status ≠ .live true →
      t.instances = setStatus s pid addr status → ∀ other, registrants t other ⊆
        registrants s other := by
    intro t pid addr status gone instances other
    by_cases own : other = pid
    · rw [own, registrants_left instances gone]
      exact Set.sdiff_subset
    · rw [registrants_other instances own]
  have same : ∀ t : State, t.instances = s.instances →
      ∀ pid, registrants t pid ⊆ registrants s pid := by
    intro t instances pid
    simp [registrants, instances]
  cases stepped with
  | construct => exact absurd rfl (other _ _ _ _)
  | rejectScalar | rejectList | addScalar | addList | notify | collect =>
    exact ⟨rfl, same _ rfl⟩
  | broadcast user rounded =>
    cases rounded with
    | woke => exact ⟨wakeSlot_pids _ _, same _ rfl⟩
    | passed => exact ⟨rfl, same _ rfl⟩
  | destroyBegin live free begun =>
    cases begun with
    | leave | counted | last => exact ⟨rfl, fewer _ _ _ _ (by simp) rfl⟩
  | destroySignal => exact ⟨wakeSlot_pids _ _, same _ rfl⟩
  | destroyPoll user polled =>
    cases polled with
    | joined | timedOut => exact ⟨rfl, fewer _ _ _ _ (by simp) rfl⟩
    | waited => exact ⟨rfl, same _ rfl⟩
  | destroyPurge leaving free left =>
    cases left with
    | purged | plain => exact ⟨rfl, fewer _ _ _ _ (by simp) rfl⟩
  | destroyReturn => exact ⟨rfl, fewer _ _ _ _ (by simp) rfl⟩
  | worker thread moved =>
    refine ⟨moved_pids thread moved, ?_⟩
    intro pid
    rw [(moved_undisturbed moved).instances]

theorem constructed_threads {capacity pid addr : Nat} {list : List Nat} {result : List MailAtom}
    {s t : State} (before : Counted s) (after : Counted t) (sorted : Sorted s.region.protbl)
    (unused : s.instances pid addr ≠ .live true)
    (constructed : construct capacity pid addr list result s = some t) (other : Nat) :
    threadsOf other t = threadsOf other s +
      if (registrants s other).ncard = 0 ∧ (registrants t other).ncard = 1 then 1 else 0 := by
  have settled : ∀ pid, threadsOf pid t = threadsOf pid s → registrants t pid = registrants s pid →
      threadsOf pid t = threadsOf pid s +
        if (registrants s pid).ncard = 0 ∧ (registrants t pid).ncard = 1 then 1 else 0 := by
    intro pid threads same
    rw [threads, same, if_neg (by omega), Nat.add_zero]
  rcases construct_registers constructed with ⟨instances, _, workers⟩ | ⟨instances, retained⟩
  · apply settled other (by simp only [threadsOf, workers])
    exact registrants_same instances (by simp) unused other
  · obtain ⟨p, registered⟩ := retained_registered sorted retained
    have added : ∀ other, threadsOf other t = threadsOf other s +
        if p.refcount = 1 then if pid = other then 1 else 0 else 0 := by
      intro other
      rw [threadsOf, registered.workers]
      split
      · simp [threadsOf, List.countP_append, List.countP_cons]
      · simp [threadsOf]
    by_cases own : other = pid
    · subst own
      have now : p.refcount = (registrants t other).ncard := by
        rw [← after.counted other, countOf, registered.entry, Option.elim_some]
      have one : (registrants t other).ncard = (registrants s other).ncard + 1 := by
        rw [registrants_entered instances]
        exact Set.ncard_insert_of_notMem unused (within_finite (before.within other))
      rw [added, now, if_pos rfl]
      congr 2
      simp [one]
    · apply settled other
      · rw [added, if_neg (Ne.symm own), ite_self, Nat.add_zero]
      · exact registrants_other instances own

theorem step_threads {capacity : Nat} {s t : State} {a : Action} (before : Counted s)
    (after : Counted t) (sorted : Sorted s.region.protbl)
    (move : (machine capacity).step s a = some t) (pid : Nat) :
    threadsOf pid t = threadsOf pid s +
      if (registrants s pid).ncard = 0 ∧ (registrants t pid).ncard = 1 then 1 else 0 := by
  have stepped := step_stepped move
  by_cases built : ∃ pid addr list result, a = .construct pid addr list result
  · obtain ⟨owner, addr, list, result, rfl⟩ := built
    cases stepped with
    | construct object unused free constructed =>
      obtain ⟨absent, entered⟩ := construct_enters move
      exact constructed_threads before after sorted absent entered pid
  · have other : ∀ pid addr list result, a ≠ .construct pid addr list result :=
      fun pid addr list result same => built ⟨pid, addr, list, result, same⟩
    obtain ⟨pids, fewer⟩ := step_settled stepped other
    have no_more := Set.ncard_le_ncard (fewer pid) (within_finite (before.within pid))
    rw [threadsOf_same pids, if_neg (by omega), Nat.add_zero]

theorem step_apart {capacity : Nat} {s t : State} {a : Action} (sorted : Sorted s.region.protbl)
    (move : (machine capacity).step s a = some t) {owner pid : Nat}
    (operates : operator s a = some owner) (apart : owner ≠ pid) :
    lookup t.region.protbl pid = lookup s.region.protbl pid := by
  cases step_stepped move with
  | @construct builder addr list result t object unused free constructed =>
    obtain rfl := Option.some.inj operates
    rcases construct_registers (construct_enters move).2 with ⟨_, protbl, _⟩ | ⟨_, retained⟩
    · rw [protbl]
    · obtain ⟨p, registered⟩ := retained_registered sorted retained
      exact registered.others pid (Ne.symm apart)
  | destroyBegin live free begun =>
    obtain rfl := Option.some.inj operates
    cases begun with
    | leave => rfl
    | counted needs found | last needs found =>
      exact lookup_write_other sorted ((findIndex_eq_some sorted).mp found) (Ne.symm apart) _
  | destroySignal user => rfl
  | @destroyPoll leaver addr slot polls t user polled =>
    simp only [operator, closing, user, Option.some.injEq] at operates
    subst operates
    cases polled with
    | waited => rfl
    | joined | timedOut => exact lookup_unset sorted (Ne.symm apart)
  | destroyPurge leaving free left =>
    cases left with
    | @purged region initialized tables counted =>
      have protbl : region.protbl = s.region.protbl := by rw [tables.tables]
      simp only [protbl]
    | plain => rfl
  | destroyReturn => rfl
  | rejectScalar | rejectList | addScalar | addList | notify | broadcast | collect | worker =>
    simp [operator] at operates

/-- In a table with room for every process, the entries count the instances that registered a
    message, whatever constructors and destructors of whichever processes take turns. -/
theorem process_counts {capacity : Nat} {s : State}
    (reached : (machine capacity).ReachableBy Addressed s) :
    (s.user = none → CountsMatch s) ∧
      ∀ a t, Addressed s a → (machine capacity).step s a = some t → ∀ pid, StepCounts s t a pid := by
  have counted := counted_reached reached
  have sorted := sorted_reached reached
  constructor
  · intro free pid
    have present := counted.present pid
    constructor
    · rw [← lookup_isSome sorted, present]
      simp [closing, free]
    · intro p entry
      rw [← counted.counted pid, countOf, entry, Option.elim_some]
  · intro a t addressed move pid
    have after := step_counted counted sorted addressed move
    exact ⟨step_threads counted after sorted move pid,
      fun owner operates apart => step_apart sorted move operates apart⟩

def entryNineOf (pid : Nat) : MailAtom := ⟨9, 300, pid, none, 0⟩
def entrySevenAt (obj : Nat) : MailAtom := ⟨7, obj, 5, none, 0⟩

def twoProcesses : List Action :=
  [.construct 5 100 [7] [entrySevenOf 5], .construct 6 300 [9] [entrySevenOf 5, entryNineOf 6],
    .construct 5 101 [7] [entrySevenOf 5, entrySevenAt 101, entryNineOf 6],
    .destroyBegin 5 100, .worker 1 .find, .destroyBegin 6 300, .destroySignal,
    .worker 1 .test, .worker 1 .finish, .destroyPoll]

theorem two_processes_count : ∃ s, (machine 22).runBy (fun s a => decide (Addressed s a)) zeroed
    twoProcesses = some s ∧ s.user = none ∧ (s.user = none → CountsMatch s) ∧
      ∀ a t, Addressed s a → (machine 22).step s a = some t → ∀ pid, StepCounts s t a pid := by
  obtain ⟨s, executed, free, reached⟩ := guarded_shows (m := machine 22) (s := zeroed) Addressed
    twoProcesses (zeroed_initial 22) (fun s : State => decide (s.user = none)) (by decide +kernel)
  exact ⟨s, executed, of_decide_eq_true free, process_counts reached⟩

end SharedRefCounts
