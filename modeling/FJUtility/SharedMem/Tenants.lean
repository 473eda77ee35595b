import FJUtility.SharedMem.Lifetime
import FJUtility.SharedMem.ListenTable
import FJUtility.SharedMem.Owners

/- Whom the tables name. The obj_ of an entry is an address in one process; as long as addListen
   is called for the instance itself, that address is one of an instance whose destructor has not
   yet cleared the tables. -/
namespace SharedTenants
open LabelledMachine FixVector SharedRegion SharedSending SharedTables SharedProcesses SharedSteps
open SharedLifetime SharedOwners

/-- An instance that has a worker and whose destructor has not been through its second section. -/
def tenant : InstStatus → Bool
  | .live needworker => needworker
  | .joining => true
  | .purging needworker => needworker
  | _ => false

def listensForOther : Action → Bool
  | .addListenScalar _ self obj _ _ => decide (obj ≠ self)
  | .addListenList _ self obj _ _ => decide (obj ≠ self)
  | _ => false

def OwnListens (_ : State) (a : Action) : Prop := listensForOther a = false

instance (s : State) (a : Action) : Decidable (OwnListens s a) :=
  inferInstanceAs (Decidable (_ = _))

structure NamesTenants (s : State) : Prop where
  listen : ∀ m ∈ s.region.listen.items, tenant (s.instances m.pid m.obj) = true
  queue : ∀ m ∈ s.region.queue.items, tenant (s.instances m.pid m.obj) = true

theorem tenant_apart {s : State} {pid addr pid' addr' : Nat} {status : InstStatus}
    (own : tenant (s.instances pid' addr') = true) (is : s.instances pid addr = status)
    (other : tenant status = false) : ¬ (pid' = pid ∧ addr' = addr) := by
  rintro ⟨rfl, rfl⟩
  rw [is, other] at own
  exact Bool.noConfusion own

theorem tenant_set {s : State} {pid addr pid' addr' : Nat} {status : InstStatus}
    (own : tenant (s.instances pid' addr') = true)
    (kept : pid' = pid ∧ addr' = addr → tenant status = true) :
    tenant (setStatus s pid addr status pid' addr') = true := by
  by_cases same : pid' = pid ∧ addr' = addr
  · obtain ⟨rfl, rfl⟩ := same
    rw [setStatus_self]
    exact kept ⟨rfl, rfl⟩
  · rw [setStatus_other same]
    exact own

theorem tenant_kept {capacity : Nat} {s t : State} {a : Action} (stepped : Stepped capacity s a t)
    {pid addr : Nat} (own : tenant (s.instances pid addr) = true)
    (stays : ∀ queueResult listenResult, a ≠ .destroyPurge pid addr queueResult listenResult) :
    tenant (t.instances pid addr) = true := by
  cases stepped with
  | construct object unused free constructed =>
    obtain ⟨needworker, set⟩ := constructed.instances
    rw [set]
    apply tenant_set own
    intro same
    rcases unused with fresh | fresh
    · exact absurd same (tenant_apart own fresh rfl)
    · exact absurd same (tenant_apart own fresh rfl)
  | broadcast user rounded => cases rounded <;> exact own
  | @destroyBegin pid' addr' needworker _ live free begun =>
    have needs : pid = pid' ∧ addr = addr' → needworker = true := by
      rintro ⟨rfl, rfl⟩
      rwa [live] at own
    cases begun with
    | leave | counted => exact tenant_set own needs
    | last => exact tenant_set own fun _ => rfl
  | destroyPoll user polled =>
    cases polled with
    | joined | timedOut => exact tenant_set own fun _ => rfl
    | waited => exact own
  | @destroyPurge pid' addr' _ queueResult listenResult _ leaving free left =>
    have other : ¬ (pid = pid' ∧ addr = addr') := by
      rintro ⟨rfl, rfl⟩
      exact stays queueResult listenResult rfl
    cases left <;> exact tenant_set own fun same => absurd same other
  | destroyReturn leaving =>
    exact tenant_set own fun same => absurd same (tenant_apart own leaving rfl)
  | worker thread moved => exact (moved_instances moved).1 ▸ own
  | rejectScalar | rejectList | addScalar | addList | notify | collect | destroySignal => exact own

theorem construct_names {capacity pid addr : Nat} {list : List Nat} {result : List MailAtom}
    {s t : State} (constructed : construct capacity pid addr list result s = some t) {m : MailAtom}
    (member : m ∈ t.region.listen.items) :
    m ∈ s.region.listen.items ∨ tenant (t.instances m.pid m.obj) = true := by
  cases construct_built constructed with
  | plain added counted =>
    obtain ⟨new, grown, length⟩ := SharedListen.addListen_grows added
    obtain rfl := List.length_eq_zero_iff.mp length
    left
    rw [List.append_nil] at grown
    exact grown.mem_iff.mp member
  | needing added needs retained counted =>
    rcases (addListen_listed added).2 m member with old | ⟨rfl, rfl⟩
    · exact Or.inl old
    · right
      dsimp only
      rw [setStatus_self]
      rfl

theorem listed_names {capacity : Nat} {s t : State} {a : Action} (own : OwnListens s a)
    (moved : (machine capacity).step s a = some t)
    (stays : ∀ pid addr queueResult listenResult, a ≠ .destroyPurge pid addr queueResult listenResult)
    {m : MailAtom} (member : m ∈ t.region.listen.items) :
    m ∈ s.region.listen.items ∨ tenant (t.instances m.pid m.obj) = true := by
  have stepped := step_stepped moved
  cases SharedListen.step_listen moved with
  | same kept => exact Or.inl (kept ▸ member)
  | purged left => exact Or.inl (List.mem_of_mem_filter ((purgeTable_items left).mem_iff.mp member))
  | @added pid obj n list result r registers entered listed =>
    have live : s.instances pid obj = .live true → m.obj = obj ∧ m.pid = pid →
        tenant (t.instances m.pid m.obj) = true := by
      rintro live ⟨rfl, rfl⟩
      exact tenant_kept stepped (by rw [live]; rfl) (stays _ _)
    have new := (addListen_listed entered).2 m (listed ▸ member)
    cases a with
    | construct pid' addr' list' result' =>
      have built : step capacity s (.construct pid' addr' list' result') = some t := moved
      simp only [step] at built
      split at built
      · exact construct_names (of_locked built).2 member
      · exact absurd built (by simp)
    | addListenScalar pid' self obj' msg result' =>
      simp only [SharedListen.registration] at registers
      split at registers
      · rename_i enters
        simp only [Option.some.injEq, Prod.mk.injEq] at registers
        obtain ⟨rfl, rfl, _⟩ := registers
        have same : obj' = self := not_not.mp (of_decide_eq_false own)
        exact new.imp id (live (same ▸ enters.1))
      · exact absurd registers (by simp)
    | addListenList pid' self obj' list' result' =>
      simp only [SharedListen.registration] at registers
      split at registers
      · rename_i enters
        simp only [Option.some.injEq, Prod.mk.injEq] at registers
        obtain ⟨rfl, rfl, _⟩ := registers
        have same : obj' = self := not_not.mp (of_decide_eq_false own)
        exact new.imp id (live (same ▸ enters.1))
      · exact absurd registers (by simp)
    | _ => exact absurd registers (by simp [SharedListen.registration])

/-- The second section of a destructor clears both tables of its instance. -/
theorem left_names {pid addr : Nat} {needworker : Bool} {s t : State} (names : NamesTenants s)
    (leaving : s.instances pid addr = .purging needworker) (left : Left pid addr s needworker t) :
    NamesTenants t := by
  cases left with
  | purged tables counted =>
    have spared : ∀ {items : List MailAtom} {m : MailAtom},
        m ∈ items.filter (fun m => decide (m.msg ≠ 0) && !isObj addr m) →
          m ∈ items ∧ ¬ (m.pid = pid ∧ m.obj = addr) := by
      intro items m member
      obtain ⟨old, passed⟩ := List.mem_filter.mp member
      simp only [isObj, Bool.and_eq_true, Bool.not_eq_true', decide_eq_false_iff_not] at passed
      exact ⟨old, fun same => passed.2 same.2⟩
    constructor
    · intro m member
      obtain ⟨old, other⟩ := spared (tables.listen.mem_iff.mp member)
      exact tenant_set (names.listen m old) fun same => absurd same other
    · intro m member
      obtain ⟨old, other⟩ := spared (tables.queue.mem_iff.mp member)
      exact tenant_set (names.queue m old) fun same => absurd same other
  | plain counted =>
    constructor
    · intro m member
      have own := names.listen m member
      exact tenant_set own fun same => absurd same (tenant_apart own leaving rfl)
    · intro m member
      have own := names.queue m member
      exact tenant_set own fun same => absurd same (tenant_apart own leaving rfl)

theorem step_names {capacity : Nat} {s t : State} {a : Action} (names : NamesTenants s)
    (own : OwnListens s a) (moved : (machine capacity).step s a = some t) : NamesTenants t := by
  have stepped := step_stepped moved
  by_cases purges : ∃ pid addr queueResult listenResult,
      a = .destroyPurge pid addr queueResult listenResult
  · obtain ⟨pid, addr, queueResult, listenResult, rfl⟩ := purges
    cases stepped with
    | destroyPurge leaving free left => exact left_names names leaving left
  · have stays : ∀ pid addr queueResult listenResult,
        a ≠ .destroyPurge pid addr queueResult listenResult := by
      intro pid addr queueResult listenResult same
      exact purges ⟨pid, addr, queueResult, listenResult, same⟩
    constructor
    · intro m member
      rcases listed_names own moved stays member with old | new
      · exact tenant_kept stepped (names.listen m old) (stays _ _)
      · exact new
    · intro m member
      rcases SharedTraffic.step_queue stepped member with old | ⟨_, entry, listed, obj, pid⟩
      · exact tenant_kept stepped (names.queue m old) (stays _ _)
      · have own := names.listen entry listed
        rw [obj, pid] at own
        exact tenant_kept stepped own (stays _ _)

structure TablesClean (s : State) : Prop where
  names : NamesTenants s
  late : ∀ pid addr, tenant (s.instances pid addr) = false →
    (named s pid addr = true ↔ ∃ w ∈ s.workers, w.pid = pid ∧ ∃ m ∈ localMails w, m.obj = addr)

end SharedTenants
