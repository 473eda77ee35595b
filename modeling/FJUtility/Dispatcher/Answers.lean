import FJUtility.Dispatcher.ResultGuarantees
import FJUtility.Dispatcher.Draining

/- From a post to the answer of waitResult. The workers alone bring every task posted to its end,
   and where they come to rest the table of results decides what each caller is told. -/
namespace DispatchAnswers
open LabelledMachine DispatchPool DispatchView DispatchGuarantees DispatchResults
open DispatchResultGuarantees DispatchSteps DispatchDraining
variable {Obj : Type}

def attends : DispatchResults.Action Obj → Bool
  | .enter _ => true
  | .start _ _ => true
  | .finishTask _ _ => true
  | .finish _ _ _ => true
  | _ => false

def polls : DispatchResults.Action Obj → Bool
  | .waitResult _ _ _ => true
  | .inspect _ _ => true
  | _ => false

structure Frame (s t : DispatchResults.State Obj) : Prop where
  calls : t.calls = s.calls
  registered : t.registered = s.registered
  draws : t.draws = s.draws

theorem frame_refl (s : DispatchResults.State Obj) : Frame s s := ⟨rfl, rfl, rfl⟩

theorem frame_trans {s t u : DispatchResults.State Obj} (one : Frame s t) (two : Frame t u) :
    Frame s u :=
  ⟨two.calls.trans one.calls, two.registered.trans one.registered, two.draws.trans one.draws⟩

theorem events_grow {stage : Stage} {history history' : List (Event Obj)}
    (grown : history' = history ∨ ∃ e, history' = history ++ [e]) :
    eventsOf stage history ⊆ eventsOf stage history' := by
  intro e member
  rcases grown with same | ⟨last, appended⟩
  · exact same ▸ member
  · rw [appended, eventsOf_append]
    exact List.mem_append_left _ member

section Steps
variable [DecidableEq Obj]

theorem mem_reachedBy {obj : Obj} {stage : Stage} {history : List (Event Obj)} {task : Task} :
    task ∈ reachedBy obj stage history ↔
      ∃ e ∈ eventsOf stage history, e.obj = obj ∧ e.task = task := by
  simp only [reachedBy, eventsOf, List.mem_filterMap, List.mem_filter, decide_eq_true_eq]
  constructor
  · rintro ⟨e, member, same⟩
    split at same
    · rename_i here
      exact ⟨e, ⟨member, here.1⟩, here.2, Option.some.inj same⟩
    · exact absurd same (by simp)
  · rintro ⟨e, ⟨member, here⟩, own, same⟩
    exact ⟨e, member, by rw [if_pos ⟨here, own⟩, same]⟩

inductive Stepped (s : DispatchResults.State Obj) :
    DispatchResults.Action Obj → DispatchResults.State Obj → Prop where
  | drew : Stepped s .draw (drawHandle s).1
  | called {obj : Obj} {kind : PostKind} {srcfunc : String} :
      Stepped s (.call obj kind srcfunc)
        { (drawHandle s).1 with
          calls := s.calls ++ [{ obj, kind, srcfunc, handle := (drawHandle s).2 }] }
  | registered {p : Nat} {c : Call Obj} (found : s.calls[p]? = some c)
      (reports : c.kind.reports = true) (drawn : c.stage = .drawn) :
      Stepped s (.register p)
        { newResultItem c.handle s with calls := s.calls.set p { c with stage := .registered } }
  | posted {p now : Nat} {woken : List Nat} {c : Call Obj} {pool : DispatchPool.State Obj}
      (found : s.calls[p]? = some c) (may : mayPost c = true)
      (posts : DispatchPool.step s.pool (postAction c woken now) = some pool) :
      Stepped s (.post p woken now)
        { s with pool, calls := s.calls.set p { c with stage := .posted } }
  | entered {i : Nat} {pool : DispatchPool.State Obj}
      (moved : DispatchPool.step s.pool (.enter i) = some pool) : Stepped s (.enter i) { s with pool }
  | woke {i : Nat} {pool : DispatchPool.State Obj}
      (moved : DispatchPool.step s.pool (.spurious i) = some pool) :
      Stepped s (.spurious i) { s with pool }
  | started {i now : Nat} {pool : DispatchPool.State Obj}
      (moved : DispatchPool.step s.pool (.start i now) = some pool) :
      Stepped s (.start i now) { s with pool }
  | ended {i : Nat} {ret : Option Int} {w : Worker Obj} {inst : Obj} {task : Task}
      {pool : DispatchPool.State Obj} (found : s.pool.workers[i]? = some w)
      (here : w.pos = .executing inst task)
      (moved : DispatchPool.step s.pool (.finishTask i ret) = some pool) :
      Stepped s (.finishTask i ret) { s with pool, results := reportResult task ret s.results }
  | finished {i now : Nat} {woken : List Nat} {pool : DispatchPool.State Obj}
      (moved : DispatchPool.step s.pool (.finish i woken now) = some pool) :
      Stepped s (.finish i woken now) { s with pool }
  | stopped {pool : DispatchPool.State Obj} (moved : DispatchPool.step s.pool .stop = some pool) :
      Stepped s .stop { s with pool }
  | asked {handle timeoutMsec start : Nat} :
      Stepped s (.waitResult handle timeoutMsec start)
        { s with waiters := s.waiters ++ [{ handle, timeoutMsec, start }] }
  | inspected {k now : Nat} {w : Waiter} (found : s.waiters[k]? = some w)
      (waiting : w.outcome = none) :
      Stepped s (.inspect k now) { s with waiters := s.waiters.set k (inspect now s.results w) }

theorem step_stepped {s t : DispatchResults.State Obj} {a : DispatchResults.Action Obj}
    (stepped : DispatchResults.machine.step s a = some t) : Stepped s a t := by
  change DispatchResults.step s a = some t at stepped
  cases a with
  | draw => exact Option.some.inj stepped ▸ .drew
  | call obj kind srcfunc => exact Option.some.inj stepped ▸ .called
  | register p =>
    obtain ⟨c, found, moved⟩ := Option.bind_eq_some_iff.mp stepped
    split at moved
    · rename_i may
      exact Option.some.inj moved ▸ .registered found may.1 may.2
    · simp at moved
  | post p woken now =>
    obtain ⟨c, found, moved⟩ := Option.bind_eq_some_iff.mp stepped
    split at moved
    · rename_i may
      obtain ⟨u, move, rfl⟩ := Option.map_eq_some_iff.mp moved
      obtain ⟨pool, posts, rfl⟩ := poolStep_fields move
      exact .posted found may posts
    · simp at moved
  | enter i =>
    obtain ⟨pool, moved, rfl⟩ := poolStep_fields stepped
    exact .entered moved
  | spurious i =>
    obtain ⟨pool, moved, rfl⟩ := poolStep_fields stepped
    exact .woke moved
  | start i now =>
    obtain ⟨pool, moved, rfl⟩ := poolStep_fields stepped
    exact .started moved
  | finishTask i ret =>
    obtain ⟨w, found, moved⟩ := Option.bind_eq_some_iff.mp stepped
    split at moved
    · rename_i inst task here
      obtain ⟨u, move, rfl⟩ := Option.map_eq_some_iff.mp moved
      obtain ⟨pool, ends, rfl⟩ := poolStep_fields move
      exact .ended found here ends
    · simp at moved
  | finish i woken now =>
    obtain ⟨pool, moved, rfl⟩ := poolStep_fields stepped
    exact .finished moved
  | stop =>
    obtain ⟨pool, moved, rfl⟩ := poolStep_fields stepped
    exact .stopped moved
  | waitResult handle timeoutMsec start => exact Option.some.inj stepped ▸ .asked
  | inspect k now =>
    obtain ⟨w, found, moved⟩ := Option.bind_eq_some_iff.mp stepped
    split at moved
    · rename_i waiting
      exact Option.some.inj moved ▸ .inspected found waiting
    · simp at moved

theorem attends_pool {s t : DispatchResults.State Obj} {a : DispatchResults.Action Obj}
    (own : attends a = true) (stepped : DispatchResults.machine.step s a = some t) :
    Frame s t ∧ ∃ b, serves b = true ∧ DispatchPool.machine.step s.pool b = some t.pool := by
  cases step_stepped stepped with
  | @entered i _ moved => exact ⟨⟨rfl, rfl, rfl⟩, .enter i, rfl, moved⟩
  | @started i now _ moved => exact ⟨⟨rfl, rfl, rfl⟩, .start i now, rfl, moved⟩
  | @ended i ret _ _ _ _ found here moved => exact ⟨⟨rfl, rfl, rfl⟩, .finishTask i ret, rfl, moved⟩
  | @finished i now woken _ moved => exact ⟨⟨rfl, rfl, rfl⟩, .finish i woken now, rfl, moved⟩
  | _ => simp [attends] at own

theorem polls_pool {s t : DispatchResults.State Obj} {a : DispatchResults.Action Obj}
    (own : polls a = true) (stepped : DispatchResults.machine.step s a = some t) :
    Frame s t ∧ t.pool = s.pool := by
  cases step_stepped stepped with
  | asked => exact ⟨⟨rfl, rfl, rfl⟩, rfl⟩
  | inspected found waiting => exact ⟨⟨rfl, rfl, rfl⟩, rfl⟩
  | _ => simp [polls] at own

theorem stuck_pool {s : DispatchResults.State Obj}
    (stuck : ∀ a, attends a = true → DispatchResults.machine.step s a = none) :
    ∀ b, serves b = true → DispatchPool.machine.step s.pool b = none := by
  intro b own
  cases b with
  | postQueue | postEvent | enqueueTask | getHandle | spurious | stop => simp [serves] at own
  | enter i => exact Option.map_eq_none_iff.mp (stuck (.enter i) rfl)
  | start i now => exact Option.map_eq_none_iff.mp (stuck (.start i now) rfl)
  | finish i woken now => exact Option.map_eq_none_iff.mp (stuck (.finish i woken now) rfl)
  | finishTask i ret =>
    apply Option.eq_none_iff_forall_ne_some.mpr
    intro pool moved
    obtain ⟨w, found, run⟩ := Option.bind_eq_some_iff.mp moved
    have entered : DispatchPool.step s.pool (.finishTask i ret) = some pool := moved
    have blocked : DispatchResults.step s (.finishTask i ret) = none := stuck (.finishTask i ret) rfl
    cases workerStep_moved run with
    | ended here => simp [DispatchResults.step, found, here, poolStep, entered] at blocked

structure Recorded (s : DispatchResults.State Obj) : Prop where
  posted : ∀ c ∈ s.calls, c.stage = .posted →
    ∃ e ∈ eventsOf .posted s.pool.history, e.task.handle = c.handle ∧ e.task.kind = c.kind
  reporting : ∀ h ∈ s.registered, ∃ c ∈ s.calls, c.handle = h ∧ c.kind.reports = true

theorem pool_grows {s t : DispatchResults.State Obj} {a : DispatchResults.Action Obj}
    (stepped : DispatchResults.machine.step s a = some t) :
    t.pool.history = s.pool.history ∨ ∃ e, t.pool.history = s.pool.history ++ [e] := by
  have moved := step_poolMoved stepped
  generalize t.pool = pool at moved ⊢
  cases moved with
  | drew => exact Or.inl rfl
  | moved plain other move => exact step_history move
  | still => exact Or.inl rfl

inductive CallsMoved (s : DispatchResults.State Obj) :
    DispatchResults.Action Obj → DispatchResults.State Obj → Prop where
  | called {obj : Obj} {kind : PostKind} {srcfunc : String} {handle : Nat}
      {t : DispatchResults.State Obj} (calls : t.calls = s.calls ++ [⟨obj, kind, srcfunc, handle, .drawn⟩])
      (registered : t.registered = s.registered) : CallsMoved s (.call obj kind srcfunc) t
  | entered {p : Nat} {c : Call Obj} {t : DispatchResults.State Obj} (found : s.calls[p]? = some c)
      (reports : c.kind.reports = true)
      (calls : t.calls = s.calls.set p { c with stage := .registered })
      (registered : t.registered = s.registered ++ [c.handle]) : CallsMoved s (.register p) t
  | posted {p now : Nat} {woken : List Nat} {c : Call Obj} {e : Event Obj}
      {t : DispatchResults.State Obj} (found : s.calls[p]? = some c)
      (logged : t.pool.history = s.pool.history ++ [e]) (stage : e.stage = .posted)
      (handle : e.task.handle = c.handle) (kind : e.task.kind = c.kind)
      (calls : t.calls = s.calls.set p { c with stage := .posted })
      (registered : t.registered = s.registered) : CallsMoved s (.post p woken now) t
  | kept {a : DispatchResults.Action Obj} {t : DispatchResults.State Obj}
      (calls : t.calls = s.calls) (registered : t.registered = s.registered) : CallsMoved s a t

theorem step_calls {s t : DispatchResults.State Obj} {a : DispatchResults.Action Obj}
    (stepped : DispatchResults.machine.step s a = some t) :
    CallsMoved s a t ∧ s.draws ≤ t.draws := by
  cases step_stepped stepped with
  | drew => exact ⟨.kept rfl rfl, Nat.le_succ _⟩
  | called => exact ⟨.called rfl rfl, Nat.le_succ _⟩
  | registered found reports drawn => exact ⟨.entered found reports rfl rfl, Nat.le_refl _⟩
  | posted found may posts =>
    obtain ⟨e, appended, stage, handle, kind, _⟩ := post_logs posts
    exact ⟨.posted found appended stage handle kind rfl rfl, Nat.le_refl _⟩
  | entered | woke | started | ended | finished | stopped | asked | inspected =>
    exact ⟨.kept rfl rfl, Nat.le_refl _⟩

theorem step_recorded {s t : DispatchResults.State Obj} {a : DispatchResults.Action Obj}
    (consistent : Consistent s) (recorded : Recorded s)
    (stepped : DispatchResults.machine.step s a = some t) : Recorded t := by
  have grown : eventsOf .posted s.pool.history ⊆ eventsOf .posted t.pool.history :=
    events_grow (pool_grows stepped)
  have old : ∀ c ∈ s.calls, c.stage = .posted →
      ∃ e ∈ eventsOf .posted t.pool.history, e.task.handle = c.handle ∧ e.task.kind = c.kind := by
    intro c member posted
    obtain ⟨e, logged, same⟩ := recorded.posted c member posted
    exact ⟨e, grown logged, same⟩
  cases (step_calls stepped).1 with
  | @called obj kind srcfunc handle _ calls registered =>
    constructor
    · intro c member posted
      rw [calls] at member
      rcases List.mem_append.mp member with before | new
      · exact old c before posted
      · rw [List.mem_singleton.mp new] at posted
        exact absurd posted (by simp)
    · intro h entered
      obtain ⟨c, member, own⟩ := recorded.reporting h (registered ▸ entered)
      exact ⟨c, calls ▸ List.mem_append_left _ member, own⟩
  | @entered p c _ found reports calls registered =>
    obtain ⟨_, staged⟩ := stage_calls consistent found .registered
    rw [← calls] at staged
    constructor
    · intro d member posted
      rcases (staged d).mp member with rfl | ⟨before, _⟩
      · exact absurd posted (by simp)
      · exact old d before posted
    · intro h entered
      have own : { c with stage := .registered } ∈ t.calls := (staged _).mpr (Or.inl rfl)
      rw [registered] at entered
      rcases List.mem_append.mp entered with before | new
      · obtain ⟨d, member, handle, reporting⟩ := recorded.reporting h before
        by_cases same : d.handle = c.handle
        · exact ⟨_, own, same.symm.trans handle, reports⟩
        · exact ⟨d, (staged d).mpr (Or.inr ⟨member, same⟩), handle, reporting⟩
      · exact ⟨_, own, (List.mem_singleton.mp new).symm, reports⟩
  | @posted p now woken c e _ found logged stage handle kind calls registered =>
    obtain ⟨_, staged⟩ := stage_calls consistent found .posted
    rw [← calls] at staged
    constructor
    · intro d member posted
      rcases (staged d).mp member with rfl | ⟨before, _⟩
      · refine ⟨e, ?_, handle, kind⟩
        rw [logged, eventsOf_append, if_pos stage]
        exact List.mem_append_right _ (List.mem_singleton.mpr rfl)
      · exact old d before posted
    · intro h entered
      obtain ⟨d, member, same, reporting⟩ := recorded.reporting h (registered ▸ entered)
      by_cases here : d.handle = c.handle
      · have one := call_single consistent member (List.mem_of_getElem? found) here
        exact ⟨_, (staged _).mpr (Or.inl rfl), one ▸ same, one ▸ reporting⟩
      · exact ⟨d, (staged d).mpr (Or.inr ⟨member, here⟩), same, reporting⟩
  | kept calls registered =>
    constructor
    · rw [calls]
      exact old
    · rw [calls, registered]
      exact recorded.reporting

theorem recorded_reached {s : DispatchResults.State Obj}
    (reached : DispatchResults.machine.Reachable s) (small : s.draws < int64Max) : Recorded s := by
  apply invariant_along DispatchResults.machine.Reachable
    (fun s => s.draws < int64Max → Recorded s) (fun _ before => before) _ _ reached small
  · rintro s ⟨now, n, rfl⟩ _
    constructor <;> simp [DispatchResults.create]
  · intro s a t before recorded _ stepped within
    have less : s.draws < int64Max := Nat.lt_of_le_of_lt (step_calls stepped).2 within
    exact step_recorded (consistent_reached before less) (recorded less) stepped

theorem ended_once {s : DispatchPool.State Obj} (reached : DispatchPool.machine.Reachable s)
    (once : ((eventsOf .posted s.history).map fun e => e.task.handle).Nodup) :
    ((eventsOf .ended s.history).map fun e => e.task.handle).Nodup := by
  obtain ⟨l, same, part⟩ := ended_subperm_posted reached
  have same := same.map fun m => m.2.handle
  have part := part.map fun m => m.2.handle
  rw [marks, List.map_map] at same part
  exact same.nodup_iff.mp (part.nodup once)

/-- What waitResult answers when it looks for the task of an event. -/
def answer (order : List Nat) (e : Event Obj) (now timeoutMsec start : Nat) : Option Outcome :=
  match (if e.task.handle ∈ order then e.ret else none) with
  | some value => some (.result value)
  | none => if (now : Int) - start ≥ timeoutMsec then some .timeout else none

/-- The workers rest, every task posted has ended, once, and its value is there for any call of
    waitResult as long as its handle is among those registered last. -/
structure AllAnswered (s : DispatchResults.State Obj) : Prop where
  drained : Drained s.pool
  ended : ∀ c ∈ s.calls, c.stage = .posted →
    ((eventsOf .ended s.pool.history).map fun e => e.task.handle).count c.handle = 1
  window : s.resultOrder = lastOf maxResults s.registered
  answers : ∀ e ∈ eventsOf .ended s.pool.history, ∀ now timeoutMsec start,
    (inspect now s.results { handle := e.task.handle, timeoutMsec, start }).outcome =
      answer s.resultOrder e now timeoutMsec start

theorem listed_reports {s : DispatchResults.State Obj}
    (reached : DispatchResults.machine.Reachable s) (small : s.draws < int64Max) {e : Event Obj}
    (logged : e ∈ eventsOf .ended s.pool.history) (listed : e.task.handle ∈ s.resultOrder) :
    e.task.kind.reports = true := by
  have consistent := consistent_reached reached small
  have mark := (ended_subperm_posted (pool_reached reached)).subset (List.mem_map_of_mem logged)
  obtain ⟨f, posted, pair⟩ := List.mem_map.mp mark
  simp only [Prod.mk.injEq] at pair
  obtain ⟨c, called, handle, kind, _⟩ := consistent.poster f posted
  have entered : e.task.handle ∈ s.registered := by
    rw [consistent.window] at listed
    exact (lastOf_sublist _ _).subset listed
  obtain ⟨d, member, own, reports⟩ := (recorded_reached reached small).reporting _ entered
  have same : c = d := by
    apply call_single consistent called member
    rw [handle, own, pair.2]
  rw [← pair.2, ← kind, same]
  exact reports

theorem inspect_answer {s : DispatchResults.State Obj}
    (reached : DispatchResults.machine.Reachable s) (small : s.draws < int64Max) {e : Event Obj}
    (logged : e ∈ eventsOf .ended s.pool.history) (now timeoutMsec start : Nat) :
    (inspect now s.results { handle := e.task.handle, timeoutMsec, start }).outcome =
      answer s.resultOrder e now timeoutMsec start := by
  have consistent := consistent_reached reached small
  by_cases listed : e.task.handle ∈ s.resultOrder
  · rw [answer, if_pos listed]
    cases returned : e.ret with
    | some value =>
      have reports := listed_reports reached small logged listed
      have entry := consistent.complete _ value ⟨e, logged, rfl, reports, returned⟩ listed
      simp [inspect, entry]
    | none =>
      obtain ⟨item, entry⟩ := Option.ne_none_iff_exists'.mp ((consistent.keys _).mpr listed)
      obtain ⟨value, ready⟩ := item
      have waits : ready = false := by
        by_contra filled
        rw [Bool.not_eq_false] at filled
        rw [filled] at entry
        obtain ⟨f, ended, same, _, other⟩ := consistent.truthful _ value entry
        have one := ended_once (pool_reached reached) consistent.once
        rw [List.inj_on_of_nodup_map one ended logged same, returned] at other
        exact absurd other (by simp)
      simp only [inspect, entry, waits]
      split <;> simp_all
  · rw [answer, if_neg listed]
    have absent : s.results e.task.handle = none := by
      by_contra present
      exact listed ((consistent.keys _).mp present)
    simp only [inspect, absent]
    split <;> simp_all

/-- A posted call has had its task, and one task only, brought to its end. -/
theorem posted_ended {s : DispatchResults.State Obj}
    (reached : DispatchResults.machine.Reachable s) (small : s.draws < int64Max)
    (drained : Drained s.pool) {c : Call Obj} (member : c ∈ s.calls) (posted : c.stage = .posted) :
    ((eventsOf .ended s.pool.history).map fun e => e.task.handle).count c.handle = 1 := by
  have once := ended_once (pool_reached reached) (consistent_reached reached small).once
  apply List.count_eq_one_of_mem once
  obtain ⟨e, logged, handle, _⟩ := (recorded_reached reached small).posted c member posted
  have accepted : e.task ∈ reachedBy e.obj .posted s.pool.history :=
    mem_reachedBy.mpr ⟨e, logged, rfl, rfl⟩
  obtain ⟨f, logged', _, same⟩ := mem_reachedBy.mp ((drained.ended e.obj).mem_iff.mp accepted)
  exact List.mem_map.mpr ⟨f, logged', by rw [same, handle]⟩

/-- However the workers are scheduled, and whoever looks for results meanwhile, the posts of all
    calls are worked off, and from then on waitResult answers what their methods have returned.
    stop_ is not set, handles have not come round, and no wake-up is spurious. -/
theorem answers_settle {s t : DispatchResults.State Obj}
    (reached : DispatchResults.machine.Reachable s) (small : s.draws < int64Max)
    (runs : s.pool.stop = false) (manned : s.pool.workers ≠ [])
    (actions : List (DispatchResults.Action Obj))
    (executed : DispatchResults.machine.runBy (fun _ a => attends a || polls a) s actions =
      some t) :
    actions.countP attends + effort t.pool ≤ effort s.pool ∧
      ((∀ a, attends a = true → DispatchResults.machine.step t a = none) →
        Frame s t ∧ AllAnswered t) := by
  have kept := runBy_bounded
    (fun u : DispatchResults.State Obj => DispatchResults.machine.Reachable u ∧ Frame s u ∧
      u.pool.stop = false ∧ u.pool.workers.length = s.pool.workers.length)
    (fun u => effort u.pool) attends
    (by
      rintro u a v ⟨reached, frame, runs, workers⟩ accepted stepped
      have next := reached.next trivial stepped
      cases own : attends a with
      | true =>
        obtain ⟨same, b, serving, moved⟩ := attends_pool own stepped
        obtain ⟨stop, length, _⟩ := serves_keeps serving moved
        have less := serves_effort (pool_reached reached) runs serving moved
        exact ⟨⟨next, frame_trans frame same, stop ▸ runs, length.trans workers⟩, less⟩
      | false =>
        rw [own, Bool.false_or] at accepted
        obtain ⟨same, pool⟩ := polls_pool accepted stepped
        rw [pool]
        exact ⟨⟨next, frame_trans frame same, runs, workers⟩, Nat.le_refl _⟩)
    actions ⟨reached, frame_refl s, runs, rfl⟩ executed
  obtain ⟨⟨reached', frame, runs', workers⟩, bound⟩ := kept
  refine ⟨bound, ?_⟩
  intro stuck
  have small' : t.draws < int64Max := frame.draws ▸ small
  have known := pool_reached reached'
  have manned' : t.pool.workers ≠ [] := by
    intro empty
    rw [empty] at workers
    exact manned (List.length_eq_zero_iff.mp workers.symm)
  have asleep : ∀ w ∈ t.pool.workers, w.pos = .blocked := by
    intro w member
    exact (stuck_rests (stuck_pool stuck) w member).resolve_right
      (staffed_reached known runs' w member)
  have drained := asleep_drained known runs' manned' asleep
  refine ⟨frame, ?_⟩
  constructor
  case drained => exact drained
  case ended => exact fun c => posted_ended reached' small' drained
  case window => exact (consistent_reached reached' small').window
  case answers => exact fun e => inspect_answer reached' small'

/-- Two posts, one of whose methods throws, and a caller that looks for the result of the other
    before and after it is there. -/
def twoPosted : List (DispatchResults.Action Nat) :=
  [.call 7 (.queue true) "main", .register 0, .call 8 .event "main", .register 1, .enter 0,
    .enter 1, .post 1 [0] 1, .post 0 [1] 1, .waitResult 2 10 0]

def bothServed : List (DispatchResults.Action Nat) :=
  [.enter 0, .enter 1, .start 0 2, .inspect 0 3, .start 1 3, .finishTask 0 (some 5),
    .finishTask 1 none, .finish 0 [] 4, .finish 1 [] 4, .enter 0, .enter 1, .inspect 0 5]

def answeredAsleep (s : DispatchResults.State Nat) : Bool :=
  !s.pool.stop && !s.pool.workers.isEmpty && decide (s.draws = 2) &&
    (DispatchResults.machine.runBy (fun _ a => attends a || polls a) s bothServed).any fun t =>
      t.pool.workers.all Worker.isBlocked &&
        decide (t.waiters.map Waiter.outcome = [some (.result 5)])

theorem asleep_unattended {s : DispatchResults.State Obj}
    (asleep : ∀ w ∈ s.pool.workers, w.pos = .blocked) (a : DispatchResults.Action Obj)
    (own : attends a = true) : DispatchResults.machine.step s a = none := by
  apply Option.eq_none_iff_forall_ne_some.mpr
  intro t stepped
  obtain ⟨_, b, serving, moved⟩ := attends_pool own stepped
  rw [asleep_stuck asleep b serving] at moved
  exact absurd moved (by simp)

theorem two_posted_answered :
    ∃ s t, DispatchResults.machine.run (DispatchResults.create 0 2) twoPosted = some s ∧
      DispatchResults.machine.runBy (fun _ a => attends a || polls a) s bothServed = some t ∧
      bothServed.countP attends + effort t.pool ≤ effort s.pool ∧ AllAnswered t ∧
      t.waiters.map Waiter.outcome = [some (.result 5)] := by
  have shown : (DispatchResults.machine.run (DispatchResults.create 0 2) twoPosted).any
      answeredAsleep = true := by decide +kernel
  obtain ⟨s, posted, holds⟩ := (Option.any_eq_true ..).mp shown
  simp only [answeredAsleep, Bool.and_eq_true, Bool.not_eq_true', List.isEmpty_eq_false_iff,
    decide_eq_true_eq] at holds
  obtain ⟨⟨⟨runs, manned⟩, draws⟩, serving⟩ := holds
  obtain ⟨t, served, rests⟩ := (Option.any_eq_true ..).mp serving
  simp only [Bool.and_eq_true, decide_eq_true_eq] at rests
  have reached := run_reachable twoPosted (m := DispatchResults.machine) ⟨0, 2, rfl⟩ posted
  have asleep : ∀ w ∈ t.pool.workers, w.pos = .blocked := by
    intro w member
    have sleeps := List.all_eq_true.mp rests.1 w member
    unfold Worker.isBlocked at sleeps
    split at sleeps
    · assumption
    · exact absurd sleeps (by simp)
  obtain ⟨bound, settled⟩ := answers_settle reached (by rw [draws]; decide) runs manned bothServed
    served
  exact ⟨s, t, posted, served, bound, (settled (asleep_unattended asleep)).2, rests.2⟩

end Steps

end DispatchAnswers
