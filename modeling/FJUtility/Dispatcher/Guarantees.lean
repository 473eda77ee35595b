import FJUtility.Dispatcher.InstanceView

/- What the dispatcher promises its posters, over every run of the pool: sequential
   instances are serialised, no task is lost or repeated, and how far sequential tasks
   stay apart when parallel ones are posted to the same instance. -/
namespace DispatchGuarantees
open LabelledMachine DispatchPool DispatchSteps DispatchView TokenQueue AgentList
variable {Obj : Type} [DecidableEq Obj]

theorem postSection_logs {inst : Obj} {parallel : Bool} {task : Task} {woken : List Nat}
    {now : Nat} {s t : State Obj} (posted : postSection parallel inst task woken now s = some t) :
    t.history = s.history ++ [{ stage := .posted, obj := inst, task }] ∧
      t.handleCounter = s.handleCounter := by
  have adjusted : ∀ u : State Obj, (adjustWorkers now u).history = u.history ∧
      (adjustWorkers now u).handleCounter = u.handleCounter := by
    intro u
    unfold adjustWorkers
    split
    · exact ⟨rfl, rfl⟩
    · exact ⟨rfl, rfl⟩
  obtain ⟨u, entered, rfl⟩ := postSection_posted posted
  rw [(adjusted u).1, (adjusted u).2]
  cases entered with
  | readied | queued => exact ⟨rfl, rfl⟩

inductive WorkerLogged (s t : State Obj) (a : Action Obj) (pos : WorkerPos Obj) : Prop where
  | quiet (same : t.history = s.history)
  | moved (e : Event Obj) (stage : e.stage = .dequeued ∨ e.stage = .started)
      (appended : t.history = s.history ++ [e])
  | ended (i : Nat) (inst : Obj) (task : Task) (ret : Option Int) (by_end : a = .finishTask i ret)
      (executing : pos = .executing inst task)
      (appended : t.history = s.history ++ [{ stage := .ended, obj := inst, task, ret }])

theorem workerStep_logs {s t : State Obj} {i : Nat} {w : Worker Obj} {a : Action Obj}
    (moved : workerStep i w s a w.pos = some t) :
    WorkerLogged s t a w.pos ∧ t.handleCounter = s.handleCounter := by
  cases workerStep_moved moved with
  | exited | slept | passed | spurious | readied | drained => exact ⟨.quiet rfl, rfl⟩
  | took => exact ⟨.moved _ (Or.inl rfl) rfl, rfl⟩
  | started => exact ⟨.moved _ (Or.inr rfl) rfl, rfl⟩
  | ended here => exact ⟨.ended _ _ _ _ rfl here rfl, rfl⟩

theorem step_history {s t : State Obj} {a : Action Obj} (stepped : machine.step s a = some t) :
    t.history = s.history ∨ ∃ e, t.history = s.history ++ [e] := by
  change step s a = some t at stepped
  cases a with
  | postQueue | postEvent | enqueueTask => exact Or.inr ⟨_, (postSection_logs stepped).1⟩
  | getHandle | stop =>
    simp only [step, Option.some.injEq] at stepped
    exact Or.inl (stepped ▸ rfl)
  | enter | spurious | start | finishTask | finish =>
    obtain ⟨w, _, moved⟩ := Option.bind_eq_some_iff.mp stepped
    cases (workerStep_logs moved).1 with
    | quiet same => exact Or.inl same
    | moved e _ appended => exact Or.inr ⟨e, appended⟩
    | ended _ _ _ _ _ _ appended => exact Or.inr ⟨_, appended⟩

theorem accounted_reached (obj : Obj) {s : State Obj} (reached : machine.Reachable s) :
    Accounted (view obj s) := by
  refine invariant_of_steps (fun s => Accounted (view obj s)) ?_ ?_ reached
  · rintro s ⟨now, n, rfl⟩
    exact view_create obj now n ▸ accounted_empty
  · intro s a t before _ stepped
    exact move_accounted (step_move obj stepped) before

theorem backed_reached (obj : Obj) {s : State Obj} (reached : machine.Reachable s) :
    Backed (view obj s) := by
  refine invariant_of_steps (fun s => Backed (view obj s)) ?_ ?_ reached
  · rintro s ⟨now, n, rfl⟩
    exact view_create obj now n ▸ backed_empty
  · intro s a t before _ stepped
    exact move_backed (step_move obj stepped) before

def SequentialOnly (obj : Obj) (_ : State Obj) : Action Obj → Prop
  | .postQueue inst _ _ isseq _ _ => inst = obj → isseq = true
  | _ => True

theorem sequential_unforced {obj : Obj} {s : State Obj} {a : Action Obj}
    (sequential : SequentialOnly obj s a) : ∀ task, labelOf obj a ≠ .post task true := by
  intro task same
  cases a with
  | postQueue inst handle srcfunc isseq woken now =>
    simp only [labelOf] at same
    split at same
    · rename_i here
      have := sequential here
      simp_all
    · simp at same
  | postEvent | enqueueTask =>
    simp only [labelOf] at same
    split at same <;> simp at same
  | getHandle | enter | spurious | start | finishTask | finish | stop => simp [labelOf] at same

theorem serial_reached {obj : Obj} {s : State Obj}
    (reached : machine.ReachableBy (SequentialOnly obj) s) : Serial (view obj s) := by
  refine invariant_of_steps (fun s => Serial (view obj s)) ?_ ?_ reached
  · rintro s ⟨now, n, rfl⟩
    exact view_create obj now n ▸ serial_empty
  · intro s a t before sequential stepped
    exact move_serial (step_move obj stepped) (sequential_unforced sequential) before

/-- Whenever a task of obj starts, every task of obj started earlier has ended. -/
def StartsAfterEnds (obj : Obj) (history : List (Event Obj)) : Prop :=
  ∀ front e back, history = front ++ e :: back → e.stage = .started → e.obj = obj →
    reachedBy obj .ended front = reachedBy obj .started front

structure Serialised (obj : Obj) (s : State Obj) : Prop where
  alone : ∀ (i j : Nat) v w, s.workers[i]? = some v → s.workers[j]? = some w →
    heldBy obj v ≠ none → heldBy obj w ≠ none → i = j
  inOrder : reachedBy obj .started s.history <+: reachedBy obj .posted s.history
  afterEnd : StartsAfterEnds obj s.history

theorem start_after_ends {obj : Obj} {s t : State Obj} {e : Event Obj}
    (before : Serial (view obj s)) (after : Serial (view obj t))
    (appended : t.history = s.history ++ [e]) (starts : e.stage = .started) (of : e.obj = obj) :
    reachedBy obj .ended s.history = reachedBy obj .started s.history := by
  have started : reachedBy obj .started t.history = reachedBy obj .started s.history ++ [e.task] := by
    simp [appended, reachedBy_append, starts, of]
  have ended : reachedBy obj .ended t.history = reachedBy obj .ended s.history := by
    simp [appended, reachedBy_append, starts]
  have served : reachedBy obj .started t.history =
      reachedBy obj .ended t.history ++ (view obj t).holding .executing := after.served
  have earlier : reachedBy obj .started s.history =
      reachedBy obj .ended s.history ++ (view obj s).holding .executing := before.served
  have lengths := congrArg List.length (started.symm.trans (served.trans (by rw [ended])))
  have lengthsEarlier := congrArg List.length earlier
  have executing := phase_le_tokens (view obj t) .executing
  have tokens := serial_tokens_le after
  simp only [List.length_append, List.length_singleton] at lengths lengthsEarlier
  have none_executing : ((view obj s).holding .executing).length = 0 := by omega
  rw [earlier, List.length_eq_zero_iff.mp none_executing, List.append_nil]

theorem startsAfterEnds_append {obj : Obj} {history : List (Event Obj)} {e : Event Obj}
    (before : StartsAfterEnds obj history)
    (last : e.stage = .started → e.obj = obj →
      reachedBy obj .ended history = reachedBy obj .started history) :
    StartsAfterEnds obj (history ++ [e]) := by
  intro front f back split starts of
  rcases List.eq_nil_or_concat back with rfl | ⟨rest, g, rfl⟩
  · obtain ⟨rfl, same⟩ := List.append_inj' split rfl
    simp only [List.cons.injEq, and_true] at same
    subst same
    exact last starts of
  · have earlier : history = front ++ f :: rest := by
      have shifted : history ++ [e] = (front ++ f :: rest) ++ [g] := by simpa using split
      exact (List.append_inj' shifted rfl).1
    exact before front f rest earlier starts of

theorem startsAfterEnds_reached {obj : Obj} {s : State Obj}
    (reached : machine.ReachableBy (SequentialOnly obj) s) : StartsAfterEnds obj s.history := by
  induction reached with
  | start first =>
    obtain ⟨now, n, rfl⟩ := first
    have empty : (create now n : State Obj).history = [] := by
      induction n with
      | zero => rfl
      | succ n ih => exact ih
    intro front e back split
    simp [empty] at split
  | @next s t a before sequential stepped ih =>
    rcases step_history stepped with same | ⟨e, appended⟩
    · exact same ▸ ih
    · have after := Machine.ReachableBy.next before sequential stepped
      rw [appended]
      exact startsAfterEnds_append ih
        (start_after_ends (serial_reached before) (serial_reached after) appended)

/-- An instance that receives sequential tasks only is served by one worker at a time, in
    the order of its posts, each task starting after the one before it has ended. -/
theorem sequential_instance_serialised (obj : Obj) {s : State Obj}
    (reached : machine.ReachableBy (SequentialOnly obj) s) : Serialised obj s := by
  have serial := serial_reached reached
  have short : (s.workers.filterMap (heldBy obj)).length ≤ 1 := by
    have tokens := serial_tokens_le serial
    simp only [View.tokens, view] at tokens
    omega
  refine ⟨?_, ?_, startsAfterEnds_reached reached⟩
  · intro i j v w first second seenFirst seenSecond
    exact filterMap_alone (heldBy obj) short first second seenFirst seenSecond
  · have accounted := accounted_reached obj (reachable_of_reachableBy reached)
    refine ⟨(view obj s).holding .taken ++ (view obj s).queue, ?_⟩
    have taken : reachedBy obj .dequeued s.history =
        reachedBy obj .started s.history ++ (view obj s).holding .taken := serial.taken
    rw [← List.append_assoc, ← taken]
    exact accounted.queued.symm

def twoSequentialPosts : List (Action Nat) :=
  [.postQueue 7 1 "main" true [0] 0, .postQueue 7 2 "main" true [] 0, .enter 0, .enter 1,
    .start 0 1, .finishTask 0 (some (-55)), .finish 0 [1] 2, .enter 0, .start 0 3]

theorem two_sequential_posts_serialised :
    ∃ s, machine.run (create 0 2) twoSequentialPosts = some s ∧ Serialised 7 s :=
  have executed : (machine.runBy (fun _ a => match a with
      | .postQueue _ _ _ isseq _ _ => isseq
      | _ => true) (create 0 2) twoSequentialPosts).isSome := by decide
  ⟨_, (Option.some_get (by decide)).symm, sequential_instance_serialised 7
    (runBy_reachableBy (by
      intro s a accepted
      cases a <;> simp_all [SequentialOnly]) twoSequentialPosts (.start ⟨0, 2, rfl⟩)
      (Option.some_get executed).symm)⟩

/-- The worker is between popping a task of obj and its section after that task. -/
def Serves (obj : Obj) (w : Worker Obj) : Prop := heldBy obj w ≠ none

structure NothingLost (s : State Obj) : Prop where
  accounted : ∀ obj, reachedBy obj .posted s.history =
    reachedBy obj .dequeued s.history ++ (s.instanceMap obj).taskQueue
  reachable : ∀ obj, (s.instanceMap obj).taskQueue ≠ [] →
    obj ∈ s.readyInstances ∨ ∃ w ∈ s.workers, Serves obj w
  ranOnce : s.readyInstances = [] → (∀ w ∈ s.workers, ∀ obj, ¬ Serves obj w) →
    ∀ obj, (reachedBy obj .started s.history).Perm (reachedBy obj .posted s.history) ∧
      (reachedBy obj .ended s.history).Perm (reachedBy obj .posted s.history)

theorem token_visible {obj : Obj} {s : State Obj} (token : 0 < (view obj s).tokens) :
    obj ∈ s.readyInstances ∨ ∃ w ∈ s.workers, Serves obj w := by
  simp only [View.tokens, view] at token
  by_cases entry : 0 < s.readyInstances.count obj
  · exact Or.inl (List.count_pos_iff.mp entry)
  · obtain ⟨h, member⟩ := List.exists_mem_of_length_pos (show
      0 < (s.workers.filterMap (heldBy obj)).length by omega)
    obtain ⟨w, present, seen⟩ := List.mem_filterMap.mp member
    exact Or.inr ⟨w, present, by simp [Serves, seen]⟩

/-- Without entries and serving workers every posted task has started and ended. -/
theorem idle_ran_once {obj : Obj} {s : State Obj} (accounted : Accounted (view obj s))
    (backed : Backed (view obj s)) (entries : s.readyInstances = [])
    (serving : ∀ w ∈ s.workers, ¬ Serves obj w) :
    (reachedBy obj .started s.history).Perm (reachedBy obj .posted s.history) ∧
      (reachedBy obj .ended s.history).Perm (reachedBy obj .posted s.history) := by
  have unheld : (view obj s).held = [] := by
    apply List.filterMap_eq_nil_iff.mpr
    intro w member
    simpa [Serves] using serving w member
  have drained : (view obj s).queue = [] := by
    apply Classical.byContradiction
    intro queued
    have token := backed.queued queued
    simp only [View.tokens, unheld, List.length_nil] at token
    simp [view, entries] at token
  have holding : ∀ p, (view obj s).holding p = [] := by
    intro p
    simp [View.holding, unheld]
  have queued := accounted.queued
  have taken := accounted.taken
  have served := accounted.served
  rw [drained, List.append_nil] at queued
  rw [holding, List.append_nil, ← queued] at taken
  rw [holding, List.append_nil] at served
  exact ⟨taken.symm, served.symm.trans taken.symm⟩

def mixedPosts : List (Action Nat) :=
  [.postQueue 7 1 "main" true [0] 0, .postQueue 7 2 "main" false [1] 0,
    .postQueue 7 3 "main" true [] 0, .enter 0, .start 0 1, .enter 1, .start 1 1,
    .finishTask 1 none, .finish 1 [] 2, .enter 1, .start 1 3]

def executesSequential (obj : Obj) (w : Worker Obj) : Option Task :=
  match w.pos with
  | .executing inst task => if inst = obj ∧ task.kind.isseq then some task else none
  | _ => none

def SequentialApart (obj : Obj) (s : State Obj) : Prop :=
  ∀ (i j : Nat) v w, s.workers[i]? = some v → s.workers[j]? = some w →
    executesSequential obj v ≠ none → executesSequential obj w ≠ none → i = j

/-- Two workers execute the first and the third task of mixedPosts at the same time. -/
theorem mixed_posts_overlap :
    ¬ ∀ (obj : Nat) (s : State Nat), machine.Reachable s → SequentialApart obj s := by
  intro apart
  have executed : (machine.run (create 0 2) mixedPosts).isSome := by decide
  have reached := run_reachable (m := machine) mixedPosts ⟨0, 2, rfl⟩ (Option.some_get executed).symm
  have same := apart 7 _ reached 0 1 _ _ rfl rfl (by decide) (by decide)
  exact absurd same (by decide)

/-- The condition on posts to obj: the post leaves at most one entry or serving worker for
    obj, or at most one sequential task of obj that has not ended. -/
def KeepsSequential (obj : Obj) (s : State Obj) (a : Action Obj) : Prop :=
  KeepsNarrow (fun task => task.kind.isseq) (view obj s) (labelOf obj a)

instance (obj : Obj) (s : State Obj) (a : Action Obj) : Decidable (KeepsSequential obj s a) :=
  inferInstanceAs (Decidable (KeepsNarrow _ _ _))

theorem executing_count (obj : Obj) (s : State Obj) :
    (s.workers.filterMap (executesSequential obj)).length =
      ((view obj s).holding .executing).countP fun task => task.kind.isseq := by
  simp only [View.holding, view, List.filterMap_filterMap, List.countP_eq_length_filter,
    List.filter_filterMap]
  congr 2
  funext w
  unfold executesSequential heldBy
  cases w.pos with
  | executing inst task => by_cases here : inst = obj <;> simp [here, phaseIs, Option.filter]
  | taken inst task | ended inst task => by_cases here : inst = obj <;> simp [here, phaseIs]
  | awake | blocked | exited => rfl

theorem narrow_reached {obj : Obj} {s : State Obj}
    (reached : machine.ReachableBy (KeepsSequential obj) s) :
    Narrow (fun task => task.kind.isseq) (view obj s) := by
  refine invariant_of_steps (fun s => Narrow (fun task => task.kind.isseq) (view obj s)) ?_ ?_ reached
  · rintro s ⟨now, n, rfl⟩
    exact view_create obj now n ▸ narrow_empty _
  · intro s a t before keeps stepped
    exact (move_narrow_iff _ (step_move obj stepped) before).mpr keeps

theorem sequential_tasks_apart (obj : Obj) {s : State Obj}
    (reached : machine.ReachableBy (KeepsSequential obj) s) : SequentialApart obj s := by
  intro i j v w first second seenFirst seenSecond
  have short := narrow_excludes _ (narrow_reached reached)
  rw [← executing_count] at short
  exact filterMap_alone (executesSequential obj) short first second seenFirst seenSecond

def parallelFirst : List (Action Nat) :=
  [.postQueue 7 1 "main" false [0] 0, .postQueue 7 2 "main" true [] 0, .postEvent 7 3 "main" [] 0,
    .enter 0, .enter 1, .start 0 1, .finishTask 0 (some 0), .finish 0 [1] 2, .enter 0, .start 0 3]

theorem parallel_first_apart :
    ∃ s, machine.run (create 0 2) parallelFirst = some s ∧ SequentialApart 7 s :=
  have executed : (machine.runBy (fun s a => decide (KeepsSequential 7 s a)) (create 0 2)
      parallelFirst).isSome := by decide
  ⟨_, (Option.some_get (by decide)).symm, sequential_tasks_apart 7
    (runBy_reachableBy (fun s a accepted => of_decide_eq_true accepted) parallelFirst
      (.start ⟨0, 2, rfl⟩) (Option.some_get executed).symm)⟩

end DispatchGuarantees
