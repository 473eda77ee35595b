import FJUtility.SharedMem.MailGuarantees
import FJUtility.SharedMem.Traffic

/- Callbacks on instances whose destructor has returned. The destructor clears queue_ and
   listen_; what the worker has copied to its local list it does not see. -/
namespace SharedLifetime
open LabelledMachine AgentList SharedRegion SharedProcesses SharedSteps SharedTraffic
open SharedGuarantees

def NoLateCallback (s : State) : Prop :=
  ∀ i pid m data target, .invoked i pid m data target ∈ s.log → target ≠ .destroyed

/-- The worker of process 5 has copied the mail for its second instance when that one is
    destroyed. -/
def destroyedInDispatch : List Action :=
  [.construct 5 100 [7] [entrySeven], .construct 5 101 [8] [entrySeven, entryEight],
    .construct 6 200 [] [entrySeven, entryEight], .worker 0 .find, .worker 0 .test, .worker 0 .wait,
    .notify 200 ⟨6, 200, 8, none, 0⟩ (fun _ => 10), .broadcast, .worker 0 .retest,
    .worker 0 (.drain [mailAtomInit]), .worker 0 .next, .destroyBegin 5 101,
    .destroyPurge 5 101 [] [mailAtomInit, entrySeven], .destroyReturn 5 101, .worker 0 .invoke]

theorem dispatch_outlives_instance : ¬ ∀ s, (machine 22).Reachable s → NoLateCallback s := by
  intro never
  obtain ⟨s, reached, shown⟩ := run_shows destroyedInDispatch (zeroed_initial 22)
    (fun s : State => s.log.contains
      (.invoked 0 5 { entryEight with tag := 0 } none .destroyed)) (by decide +kernel)
  exact never s reached _ _ _ _ _ (List.contains_iff_mem.mp shown) rfl

/-- listen_, queue_ or the undelivered part of a local list names the instance. -/
def named (s : State) (pid addr : Nat) : Bool :=
  s.region.listen.items.any (fun m => decide (m.obj = addr) && decide (m.pid = pid)) ||
    s.region.queue.items.any (fun m => decide (m.obj = addr) && decide (m.pid = pid)) ||
    s.workers.any fun w => decide (w.pid = pid) && (localMails w).any fun m => decide (m.obj = addr)

/-- A destructor returns while its instance is still named, or an instance whose destructor has
    returned is registered. -/
def abandons (s : State) : Action → Bool
  | .destroyReturn pid addr => named s pid addr
  | .addListenScalar pid _ obj _ _ => decide (s.instances pid obj = .destroyed)
  | .addListenList pid _ obj _ _ => decide (s.instances pid obj = .destroyed)
  | _ => false

def ReturnsClean (s : State) (a : Action) : Prop := abandons s a = false

instance (s : State) (a : Action) : Decidable (ReturnsClean s a) :=
  inferInstanceAs (Decidable (_ = _))

theorem named_iff {s : State} {pid addr : Nat} : named s pid addr = true ↔
    (∃ m ∈ s.region.listen.items, m.obj = addr ∧ m.pid = pid) ∨
      (∃ m ∈ s.region.queue.items, m.obj = addr ∧ m.pid = pid) ∨
      ∃ w ∈ s.workers, w.pid = pid ∧ ∃ m ∈ localMails w, m.obj = addr := by
  simp only [named, Bool.or_eq_true, List.any_eq_true, Bool.and_eq_true, decide_eq_true_eq, or_assoc]

/-- Only a registration can make a step name an instance that was not named. -/
theorem named_before {capacity : Nat} {s t : State} {a : Action} (stepped : Stepped capacity s a t)
    {pid addr : Nat} (after : named t pid addr = true) :
    named s pid addr = true ∨ Lists pid addr a := by
  rw [named_iff] at after ⊢
  rcases after with ⟨m, member, rfl, rfl⟩ | ⟨m, member, rfl, rfl⟩ | ⟨w', present, rfl, m, member, rfl⟩
  · rcases step_listen stepped member with old | ⟨_, lists⟩
    · exact Or.inl (Or.inl ⟨m, old, rfl, rfl⟩)
    · exact Or.inr lists
  · rcases step_queue stepped member with old | ⟨_, entry, listed, obj, pid⟩
    · exact Or.inl (Or.inr (Or.inl ⟨m, old, rfl, rfl⟩))
    · exact Or.inl (Or.inl ⟨entry, listed, obj, pid⟩)
  · obtain ⟨j, is⟩ := List.mem_iff_getElem?.mp present
    rcases thread_local (step_thread stepped is) member with ⟨w, was, pid, held⟩ | ⟨queued, pid⟩
    · exact Or.inl (Or.inr (Or.inr ⟨w, was, pid, m, held, rfl⟩))
    · exact Or.inl (Or.inr (Or.inl ⟨m, queued, rfl, pid⟩))

theorem setStatus_destroyed {s : State} {pid addr pid' addr' : Nat} {status : InstStatus}
    (after : setStatus s pid addr status pid' addr' = .destroyed) :
    (pid' = pid ∧ addr' = addr ∧ status = .destroyed) ∨
      s.instances pid' addr' = .destroyed ∧ ¬ (pid' = pid ∧ addr' = addr) := by
  unfold setStatus at after
  by_cases samePid : pid' = pid
  · subst samePid
    rw [Function.update_self] at after
    by_cases sameAddr : addr' = addr
    · subst sameAddr
      rw [Function.update_self] at after
      exact Or.inl ⟨rfl, rfl, after⟩
    · rw [Function.update_of_ne sameAddr] at after
      exact Or.inr ⟨after, fun both => sameAddr both.2⟩
  · rw [Function.update_of_ne samePid] at after
    exact Or.inr ⟨after, fun both => samePid both.1⟩

theorem destroyed_before {capacity : Nat} {s t : State} {a : Action}
    (stepped : Stepped capacity s a t) {pid addr : Nat} (after : t.instances pid addr = .destroyed) :
    a = .destroyReturn pid addr ∨ s.instances pid addr = .destroyed ∧
      ∀ list result, a ≠ .construct pid addr list result := by
  have other : ∀ {pid' addr' : Nat} {status : InstStatus},
      t.instances = setStatus s pid' addr' status → status ≠ .destroyed →
        s.instances pid addr = .destroyed ∧ ¬ (pid = pid' ∧ addr = addr') := by
    intro pid' addr' status set apart
    rcases setStatus_destroyed (set ▸ after) with ⟨_, _, same⟩ | kept
    · exact absurd same apart
    · exact kept
  cases stepped with
  | construct object unused free constructed =>
    obtain ⟨needworker, set⟩ := constructed.instances
    obtain ⟨was, apart⟩ := other set (by simp)
    refine Or.inr ⟨was, fun list result same => apart ?_⟩
    simp only [Action.construct.injEq] at same
    exact ⟨same.1.symm, same.2.1.symm⟩
  | broadcast user rounded =>
    refine Or.inr ⟨?_, by simp⟩
    cases rounded <;> exact after
  | destroyBegin live free begun =>
    refine Or.inr ⟨?_, by simp⟩
    cases begun <;> exact (other rfl (by simp)).1
  | destroyPoll user polled =>
    refine Or.inr ⟨?_, by simp⟩
    cases polled with
    | joined | timedOut => exact (other rfl (by simp)).1
    | waited => exact after
  | destroyPurge leaving free left =>
    refine Or.inr ⟨?_, by simp⟩
    cases left <;> exact (other rfl (by simp)).1
  | @destroyReturn pid' addr' leaving =>
    rcases setStatus_destroyed after with ⟨rfl, rfl, _⟩ | kept
    · exact Or.inl rfl
    · exact Or.inr ⟨kept.1, by simp⟩
  | worker thread moved =>
    refine Or.inr ⟨?_, by simp⟩
    cases moved <;> exact after
  | rejectScalar | rejectList | addScalar | addList | notify | collect | destroySignal =>
    exact Or.inr ⟨after, by simp⟩

def Forgotten (s : State) : Prop :=
  ∀ pid addr, s.instances pid addr = .destroyed → named s pid addr = false

theorem step_forgotten {capacity : Nat} {s t : State} {a : Action} (before : Forgotten s)
    (clean : ReturnsClean s a) (stepped : Stepped capacity s a t) : Forgotten t := by
  intro pid addr after
  apply Bool.eq_false_iff.mpr
  intro names
  rcases destroyed_before stepped after with rfl | ⟨was, unlike⟩
  · rcases named_before stepped names with old | lists
    · simp only [ReturnsClean, abandons] at clean
      simp [clean] at old
    · cases lists
  · rcases named_before stepped names with old | lists
    · simp [before pid addr was] at old
    · cases lists with
      | construct => exact unlike _ _ rfl
      | addScalar | addList => simp [ReturnsClean, abandons, was] at clean

theorem step_callback {capacity : Nat} {s t : State} {a : Action} (stepped : Stepped capacity s a t)
    {i pid : Nat} {m : MailAtom} {data : Option (Nat × List UInt8)} {target : InstStatus}
    (logged : .invoked i pid m data target ∈ t.log) :
    .invoked i pid m data target ∈ s.log ∨
      target = s.instances pid m.obj ∧ named s pid m.obj = true := by
  obtain ⟨out, log, added⟩ := step_logged stepped
  rw [log, List.mem_append] at logged
  apply logged.imp id
  intro new
  cases added with
  | quiet | purged | destroyed => simp at new
  | @invoked i' w mail size rest thread here =>
    simp only [List.mem_singleton, Event.invoked.injEq] at new
    obtain ⟨_, rfl, rfl, _, rfl⟩ := new
    have held : m ∈ localMails w := by simp [localMails, here]
    exact ⟨rfl, named_iff.mpr (Or.inr (Or.inr ⟨w, List.mem_of_getElem? thread, rfl, m, held, rfl⟩))⟩

theorem forgotten_reached {capacity : Nat} {s : State}
    (reached : (machine capacity).ReachableBy ReturnsClean s) : Forgotten s ∧ NoLateCallback s := by
  refine invariant_of_steps (fun s => Forgotten s ∧ NoLateCallback s) ?_ ?_ reached
  · rintro s ⟨protbl, payload, rfl⟩
    exact ⟨fun pid addr destroyed => by simp [initial] at destroyed,
      fun i pid m data target logged => by simp [initial] at logged⟩
  · rintro s a t ⟨forgotten, quiet⟩ clean stepped
    have stepped' := step_stepped stepped
    refine ⟨step_forgotten forgotten clean stepped', ?_⟩
    intro i pid m data target logged
    rcases step_callback stepped' logged with old | ⟨rfl, names⟩
    · exact quiet i pid m data target old
    · intro destroyed
      simp [forgotten pid m.obj destroyed] at names

/-- When destructors return only after the last mail for their instance, no callback comes
    late. -/
theorem no_late_callback {capacity : Nat} {s : State}
    (reached : (machine capacity).ReachableBy ReturnsClean s) : NoLateCallback s :=
  (forgotten_reached reached).2

theorem deliveries_not_late :
    ∃ s, (machine 22).runBy (fun s a => decide (ReturnsClean s a)) zeroed deliveries = some s ∧
      NoLateCallback s := by
  obtain ⟨s, executed, reached⟩ := guarded_ends ReturnsClean deliveries (zeroed_initial 22)
    (by decide +kernel)
  exact ⟨s, executed, no_late_callback reached⟩

end SharedLifetime
