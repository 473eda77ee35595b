import Mathlib.Data.List.Nodup
import Mathlib.Data.List.Perm.Subperm
import FJUtility.Dispatcher.Results
import FJUtility.Dispatcher.Guarantees

/- The table of results over every run in which handles do not come round again: what it
   holds are the values of finished tasks, for the handles registered last. -/
namespace DispatchResultGuarantees
open LabelledMachine DispatchPool DispatchView DispatchGuarantees DispatchResults TokenQueue
variable {Obj : Type}

def eventsOf (stage : Stage) (history : List (Event Obj)) : List (Event Obj) :=
  history.filter fun e => e.stage = stage

def Finished (history : List (Event Obj)) (handle : Nat) (value : Int) : Prop :=
  ∃ e ∈ eventsOf .ended history,
    e.task.handle = handle ∧ e.task.kind.reports = true ∧ e.ret = some value

def lastOf (n : Nat) (l : List Nat) : List Nat := l.drop (l.length - n)

theorem eventsOf_append (stage : Stage) (history : List (Event Obj)) (e : Event Obj) :
    eventsOf stage (history ++ [e]) =
      eventsOf stage history ++ if e.stage = stage then [e] else [] := by
  by_cases reached : e.stage = stage
  · simp [eventsOf, reached]
  · simp [eventsOf, reached]

theorem eventsOf_silent {stage : Stage} {history : List (Event Obj)} {e : Event Obj}
    (other : e.stage ≠ stage) : eventsOf stage (history ++ [e]) = eventsOf stage history := by
  rw [eventsOf_append, if_neg other, List.append_nil]

theorem finished_append {history : List (Event Obj)} {e : Event Obj} {handle : Nat} {value : Int} :
    Finished (history ++ [e]) handle value ↔ Finished history handle value ∨
      e.stage = .ended ∧ e.task.handle = handle ∧ e.task.kind.reports = true ∧
        e.ret = some value := by
  unfold Finished
  rw [eventsOf_append]
  constructor
  · rintro ⟨f, member, holds⟩
    rcases List.mem_append.mp member with old | new
    · exact Or.inl ⟨f, old, holds⟩
    · split at new
      · rename_i ended
        rw [List.mem_singleton.mp new] at holds
        exact Or.inr ⟨ended, holds⟩
      · simp at new
  · rintro (⟨f, member, holds⟩ | ⟨ended, holds⟩)
    · exact ⟨f, List.mem_append_left _ member, holds⟩
    · exact ⟨e, by simp [ended], holds⟩

theorem lastOf_append {n : Nat} (positive : 0 < n) (l : List Nat) (x : Nat) :
    lastOf n (l ++ [x]) =
      if (lastOf n l ++ [x]).length > n then (lastOf n l ++ [x]).tail else lastOf n l ++ [x] := by
  unfold lastOf
  rw [List.length_append, List.length_append, List.length_drop, List.length_singleton]
  split
  · rename_i full
    have kept : l.length - n < (l ++ [x]).length := by
      rw [List.length_append, List.length_singleton]
      omega
    rw [← List.drop_append_of_le_length (by omega), List.tail_drop]
    congr 1
    omega
  · rename_i room
    rw [show l.length + 1 - n = 0 by omega, show l.length - n = 0 by omega]
    rfl

theorem nodup_snoc {l : List Nat} {x : Nat} : (l ++ [x]).Nodup ↔ x ∉ l ∧ l.Nodup := by
  rw [List.nodup_append_comm, List.singleton_append, List.nodup_cons]

theorem lastOf_sublist (n : Nat) (l : List Nat) : (lastOf n l).Sublist l := List.drop_sublist _ l

theorem mem_lastOf {n : Nat} {front later : List Nat} {x : Nat} (recent : later.length < n) :
    x ∈ lastOf n (front ++ x :: later) := by
  unfold lastOf
  rw [List.drop_append_of_le_length (by simp; omega)]
  exact List.mem_append_right _ List.mem_cons_self

section Uniqueness
variable [DecidableEq Obj]

def marks (stage : Stage) (history : List (Event Obj)) : List (Obj × Task) :=
  (eventsOf stage history).map fun e => (e.obj, e.task)

theorem count_marks [BEq (Obj × Task)] [LawfulBEq (Obj × Task)] (stage : Stage)
    (history : List (Event Obj)) (obj : Obj) (task : Task) :
    (marks stage history).count (obj, task) = (reachedBy obj stage history).count task := by
  induction history with
  | nil => rfl
  | cons e rest ih =>
    unfold marks eventsOf reachedBy at *
    by_cases reached : e.stage = stage
    · by_cases here : e.obj = obj
      · simp [reached, here, List.count_cons, ih]
      · simp [reached, here, ih]
    · simp [reached, ih]

theorem ended_subperm_posted {s : DispatchPool.State Obj}
    (reached : DispatchPool.machine.Reachable s) :
    (marks .ended s.history).Subperm (marks .posted s.history) := by
  rw [List.subperm_iff_count]
  rintro ⟨obj, task⟩
  rw [@count_marks Obj _ instBEqOfDecidableEq inferInstance,
    @count_marks Obj _ instBEqOfDecidableEq inferInstance]
  have accounted := accounted_reached obj reached
  have queued := congrArg (List.count task) accounted.queued
  have taken := accounted.taken.count_eq task
  have served := accounted.served.count_eq task
  simp only [List.count_append, view] at queued taken served
  omega

theorem finished_single {s : DispatchPool.State Obj} (reached : DispatchPool.machine.Reachable s)
    (once : ((eventsOf .posted s.history).map fun e => e.task.handle).Nodup) {handle : Nat}
    {v v' : Int} (first : Finished s.history handle v) (second : Finished s.history handle v') :
    v = v' := by
  have ended_once : ((eventsOf .ended s.history).map fun e => e.task.handle).Nodup := by
    obtain ⟨l, same, part⟩ := ended_subperm_posted reached
    have same := same.map fun m => m.2.handle
    have part := part.map fun m => m.2.handle
    rw [marks, List.map_map] at same part
    exact same.nodup_iff.mp (part.nodup once)
  obtain ⟨e, member, rfl, _, returned⟩ := first
  obtain ⟨e', member', same, _, returned'⟩ := second
  rw [List.inj_on_of_nodup_map ended_once member' member same, returned,
    Option.some.injEq] at returned'
  exact returned'

theorem finished_posted {s : DispatchPool.State Obj} (reached : DispatchPool.machine.Reachable s)
    {handle : Nat} {v : Int} (finished : Finished s.history handle v) :
    ∃ e ∈ eventsOf .posted s.history, e.task.handle = handle ∧ e.task.kind.reports = true := by
  obtain ⟨e, member, same, reports, _⟩ := finished
  have mark := (ended_subperm_posted reached).subset (List.mem_map_of_mem member)
  obtain ⟨f, posted, pair⟩ := List.mem_map.mp mark
  simp only [Prod.mk.injEq] at pair
  exact ⟨f, posted, by rw [pair.2, same], by rw [pair.2, reports]⟩

end Uniqueness

/-- The table, the order and the calls agree as long as handles have not come round. -/
structure Consistent (s : DispatchResults.State Obj) : Prop where
  counter : s.pool.handleCounter = s.draws
  drawn : ∀ c ∈ s.calls, c.handle ≤ s.draws
  distinct : (s.calls.map Call.handle).Nodup
  poster : ∀ e ∈ eventsOf .posted s.pool.history, ∃ c ∈ s.calls, c.handle = e.task.handle ∧
    c.kind = e.task.kind ∧ c.stage = .posted
  once : ((eventsOf .posted s.pool.history).map fun e => e.task.handle).Nodup
  window : s.resultOrder = lastOf maxResults s.registered
  registered_once : s.registered.Nodup
  registrant : ∀ h ∈ s.registered, ∃ c ∈ s.calls, c.handle = h ∧ c.stage ≠ .drawn
  registers : ∀ c ∈ s.calls, c.kind.reports = true → c.stage ≠ .drawn → c.handle ∈ s.registered
  keys : ∀ h, s.results h ≠ none ↔ h ∈ s.resultOrder
  truthful : ∀ h v, s.results h = some ⟨v, true⟩ → Finished s.pool.history h v
  complete : ∀ h v, Finished s.pool.history h v → h ∈ s.resultOrder → s.results h = some ⟨v, true⟩
  answered : ∀ w ∈ s.waiters, ∀ v, w.outcome = some (.result v) → Finished s.pool.history w.handle v
  pending : ∀ w ∈ s.waiters, w.inspections = 0 → w.outcome = none

theorem create_consistent (now n : Nat) :
    Consistent (DispatchResults.create now n : DispatchResults.State Obj) := by
  have fresh : (DispatchPool.create now n : DispatchPool.State Obj).handleCounter = 0 ∧
      (DispatchPool.create now n : DispatchPool.State Obj).history = [] := by
    induction n with
    | zero => exact ⟨rfl, rfl⟩
    | succ n ih => exact ih
  constructor <;> simp [DispatchResults.create, fresh, eventsOf, Finished, lastOf]

section Steps
variable {s t : DispatchResults.State Obj}

theorem draw_handle (consistent : Consistent s) (small : s.draws + 1 < int64Max) :
    (drawHandle s).2 = s.draws + 1 ∧ (drawHandle s).1.pool.handleCounter = s.draws + 1 := by
  unfold drawHandle getHandle
  dsimp only
  rw [consistent.counter, if_neg (by omega)]
  exact ⟨rfl, rfl⟩

theorem draw_consistent (consistent : Consistent s) (small : s.draws + 1 < int64Max) :
    Consistent (drawHandle s).1 :=
  { consistent with
    counter := (draw_handle consistent small).2
    drawn := fun c member => Nat.le_succ_of_le (consistent.drawn c member) }

theorem call_consistent (consistent : Consistent s) (small : s.draws + 1 < int64Max) (obj : Obj)
    (kind : PostKind) (srcfunc : String) :
    Consistent { (drawHandle s).1 with
      calls := s.calls ++ [{ obj, kind, srcfunc, handle := (drawHandle s).2 }] } := by
  have drawn := draw_consistent consistent small
  rw [(draw_handle consistent small).1]
  have later : ∀ {P : Call Obj → Prop}, (∃ c ∈ s.calls, P c) →
      ∃ c ∈ s.calls ++ [{ obj, kind, srcfunc, handle := s.draws + 1 }], P c := by
    rintro P ⟨c, member, holds⟩
    exact ⟨c, List.mem_append_left _ member, holds⟩
  refine { drawn with drawn := ?_, distinct := ?_, poster := ?_, registrant := ?_, registers := ?_ }
  · intro c member
    rcases List.mem_append.mp member with old | new
    · exact drawn.drawn c old
    · rw [List.mem_singleton.mp new]
      exact Nat.le_refl _
  · rw [List.map_append, List.map_singleton, nodup_snoc]
    refine ⟨?_, consistent.distinct⟩
    intro member
    obtain ⟨c, old, same⟩ := List.mem_map.mp member
    have bound := consistent.drawn c old
    rw [same] at bound
    exact absurd bound (Nat.not_succ_le_self _)
  · intro e member
    exact later (drawn.poster e member)
  · intro h member
    exact later (drawn.registrant h member)
  · intro c member reports registered
    rcases List.mem_append.mp member with old | new
    · exact drawn.registers c old reports registered
    · rw [List.mem_singleton.mp new] at registered
      exact absurd rfl registered

theorem call_single (consistent : Consistent s) {c d : Call Obj} (first : c ∈ s.calls)
    (second : d ∈ s.calls) (same : c.handle = d.handle) : c = d :=
  List.inj_on_of_nodup_map consistent.distinct first second same

theorem stage_calls (consistent : Consistent s) {p : Nat} {c : Call Obj}
    (found : s.calls[p]? = some c) (stage : CallStage) :
    ((s.calls.set p { c with stage }).map Call.handle).Nodup ∧
      ∀ d, d ∈ s.calls.set p { c with stage } ↔
        d = { c with stage } ∨ d ∈ s.calls ∧ d.handle ≠ c.handle := by
  obtain ⟨pre, post, split, replaced⟩ := AgentList.split_at found
  have distinct := consistent.distinct
  rw [split, List.map_append, List.map_cons] at distinct
  constructor
  · rw [replaced, List.map_append, List.map_cons]
    exact distinct
  · intro d
    have apart : ∀ x ∈ pre ++ post, x.handle ≠ c.handle := by
      intro x member same
      have alone := (List.nodup_middle.mp distinct)
      rw [List.nodup_cons, ← List.map_append] at alone
      exact alone.1 (same ▸ List.mem_map_of_mem member)
    rw [replaced, split]
    simp only [List.mem_append, List.mem_cons] at apart ⊢
    constructor
    · rintro (before | rfl | after)
      · exact Or.inr ⟨Or.inl before, apart d (Or.inl before)⟩
      · exact Or.inl rfl
      · exact Or.inr ⟨Or.inr (Or.inr after), apart d (Or.inr after)⟩
    · rintro (rfl | ⟨before | rfl | after, other⟩)
      · exact Or.inr (Or.inl rfl)
      · exact Or.inl before
      · exact absurd rfl other
      · exact Or.inr (Or.inr after)

theorem enterTable_fields (consistent : Consistent s) {handle : Nat}
    (fresh : handle ∉ s.registered) {results : Nat → Option ResultItem} {order : List Nat}
    (entered : enterTable handle s.results s.resultOrder = (results, order)) :
    order = lastOf maxResults (s.registered ++ [handle]) ∧ ∀ h, results h =
      if h ∈ order then (if h = handle then some {} else s.results h) else none := by
  have distinct : (s.resultOrder ++ [handle]).Nodup := by
    rw [nodup_snoc, consistent.window]
    exact ⟨fun member => fresh ((lastOf_sublist _ _).subset member),
      consistent.registered_once.sublist (lastOf_sublist _ _)⟩
  have grown := lastOf_append (n := maxResults) (by decide) s.registered handle
  rw [← consistent.window] at grown
  have absent : ∀ h, h ∉ s.resultOrder → s.results h = none := by
    intro h outside
    exact Classical.byContradiction fun present => outside ((consistent.keys h).mp present)
  unfold enterTable at entered
  dsimp only at entered
  split at entered
  · rename_i old rest combined
    rw [combined] at distinct grown
    have member : ∀ h, h ∈ old :: rest ↔ h ∈ s.resultOrder ∨ h = handle := by
      intro h
      rw [← combined, List.mem_append, List.mem_singleton]
    split at entered
    · rename_i full
      obtain ⟨rfl, rfl⟩ := Prod.mk.inj entered
      rw [if_pos full] at grown
      refine ⟨grown.symm, ?_⟩
      intro h
      by_cases gone : h = old
      · rw [gone, Function.update_self, if_neg (List.nodup_cons.mp distinct).1]
      · rw [Function.update_of_ne gone]
        have kept := member h
        rw [List.mem_cons, or_iff_right gone] at kept
        by_cases new : h = handle
        · rw [if_pos (kept.mpr (Or.inr new)), if_pos new, new, Function.update_self]
        · rw [Function.update_of_ne new, if_neg new]
          split
          · rfl
          · rename_i outside
            exact absent h fun inside => outside (kept.mpr (Or.inl inside))
    · rename_i room
      obtain ⟨rfl, rfl⟩ := Prod.mk.inj entered
      rw [if_neg room] at grown
      refine ⟨grown.symm, ?_⟩
      intro h
      by_cases new : h = handle
      · rw [if_pos ((member h).mpr (Or.inr new)), if_pos new, new, Function.update_self]
      · rw [Function.update_of_ne new, if_neg new]
        split
        · rfl
        · rename_i outside
          exact absent h fun inside => outside ((member h).mpr (Or.inl inside))
  · rename_i combined
    exact absurd combined (by simp)

theorem drawn_unregistered (consistent : Consistent s) {c : Call Obj} (member : c ∈ s.calls)
    (drawn : c.stage = .drawn) : c.handle ∉ s.registered := by
  intro registered
  obtain ⟨d, other, same, later⟩ := consistent.registrant c.handle registered
  rw [call_single consistent other member same] at later
  exact later drawn

theorem register_consistent [DecidableEq Obj] (consistent : Consistent s)
    (reached : DispatchPool.machine.Reachable s.pool) {p : Nat} {c : Call Obj}
    (found : s.calls[p]? = some c) (drawn : c.stage = .drawn) :
    Consistent { newResultItem c.handle s with
      calls := s.calls.set p { c with stage := .registered } } := by
  have member := List.mem_of_getElem? found
  have fresh := drawn_unregistered consistent member drawn
  obtain ⟨nodup, calls⟩ := stage_calls consistent found .registered
  obtain ⟨⟨results, order⟩, entered⟩ : ∃ table, enterTable c.handle s.results s.resultOrder = table :=
    ⟨_, rfl⟩
  obtain ⟨window, table⟩ := enterTable_fields consistent fresh entered
  have earlier : ∀ h, h ∈ order → h ≠ c.handle → h ∈ s.resultOrder := by
    intro h inside other
    rw [window, lastOf_append (by decide), ← consistent.window] at inside
    have either : h ∈ s.resultOrder ++ [c.handle] := by
      split at inside
      · exact List.mem_of_mem_tail inside
      · exact inside
    exact (List.mem_append.mp either).resolve_right fun new => other (List.mem_singleton.mp new)
  have unposted : ∀ v, ¬ Finished s.pool.history c.handle v := by
    intro v finished
    obtain ⟨e, posted, same, _⟩ := finished_posted reached finished
    obtain ⟨d, other, handle, _, stage⟩ := consistent.poster e posted
    rw [call_single consistent other member (handle.trans same), drawn] at stage
    exact absurd stage (by decide)
  rw [newResultItem, entered]
  constructor
  case counter => exact consistent.counter
  case drawn =>
    intro d present
    rcases (calls d).mp present with rfl | ⟨old, _⟩
    · exact consistent.drawn c member
    · exact consistent.drawn d old
  case distinct => exact nodup
  case poster =>
    intro e posted
    obtain ⟨d, old, same, kind, stage⟩ := consistent.poster e posted
    refine ⟨d, (calls d).mpr (Or.inr ⟨old, fun eq => ?_⟩), same, kind, stage⟩
    rw [call_single consistent old member eq, drawn] at stage
    exact absurd stage (by decide)
  case once => exact consistent.once
  case window => exact window
  case registered_once => exact nodup_snoc.mpr ⟨fresh, consistent.registered_once⟩
  case registrant =>
    intro h registered
    rcases List.mem_append.mp registered with old | new
    · obtain ⟨d, present, same, later⟩ := consistent.registrant h old
      refine ⟨d, (calls d).mpr (Or.inr ⟨present, fun eq => fresh ?_⟩), same, later⟩
      rw [← eq, same]
      exact old
    · rw [List.mem_singleton.mp new]
      exact ⟨_, (calls _).mpr (Or.inl rfl), rfl, by simp⟩
  case registers =>
    intro d present reports later
    rcases (calls d).mp present with rfl | ⟨old, _⟩
    · exact List.mem_append_right _ (List.mem_singleton_self _)
    · exact List.mem_append_left _ (consistent.registers d old reports later)
  case keys =>
    intro h
    dsimp only
    rw [table h]
    split
    · rename_i inside
      apply iff_of_true _ inside
      split
      · simp
      · rename_i other
        exact (consistent.keys h).mpr (earlier h inside other)
    · rename_i outside
      exact iff_of_false (fun present => present rfl) outside
  case truthful =>
    intro h v holds
    dsimp only at holds
    rw [table h] at holds
    split at holds
    · split at holds
      · simp at holds
      · exact consistent.truthful h v holds
    · simp at holds
  case complete =>
    intro h v finished inside
    dsimp only at inside ⊢
    rw [table h, if_pos inside]
    have other : h ≠ c.handle := fun eq => unposted v (eq ▸ finished)
    rw [if_neg other]
    exact consistent.complete h v finished (earlier h inside other)
  case answered => exact consistent.answered
  case pending => exact consistent.pending

theorem post_logs [DecidableEq Obj] {c : Call Obj} {woken : List Nat} {now : Nat}
    {pool pool' : DispatchPool.State Obj}
    (posted : DispatchPool.step pool (postAction c woken now) = some pool') :
    ∃ e : Event Obj, pool'.history = pool.history ++ [e] ∧ e.stage = .posted ∧
      e.task.handle = c.handle ∧ e.task.kind = c.kind ∧ pool'.handleCounter = pool.handleCounter := by
  unfold postAction at posted
  split at posted
  · rename_i isseq kind
    obtain ⟨appended, counter⟩ := postSection_logs posted
    exact ⟨_, appended, rfl, rfl, kind.symm, counter⟩
  · rename_i kind
    obtain ⟨appended, counter⟩ := postSection_logs posted
    exact ⟨_, appended, rfl, rfl, kind.symm, counter⟩
  · rename_i kind
    obtain ⟨appended, counter⟩ := postSection_logs posted
    exact ⟨_, appended, rfl, rfl, kind.symm, counter⟩

theorem mayPost_stage {c : Call Obj} (may : mayPost c = true) :
    c.stage ≠ .posted ∧ (c.kind.reports = true → c.stage ≠ .drawn) := by
  unfold mayPost at may
  split at may
  · rename_i reports
    simp only [beq_iff_eq] at may
    rw [may]
    exact ⟨by decide, fun _ => by decide⟩
  · rename_i silent
    simp only [beq_iff_eq] at may
    rw [may]
    exact ⟨by decide, fun reports => absurd reports silent⟩

theorem post_consistent (consistent : Consistent s) {p : Nat} {c : Call Obj}
    (found : s.calls[p]? = some c) (may : mayPost c = true) {pool : DispatchPool.State Obj}
    {e : Event Obj}
    (appended : pool.history = s.pool.history ++ [e]) (stage : e.stage = .posted)
    (handle : e.task.handle = c.handle) (kind : e.task.kind = c.kind)
    (counter : pool.handleCounter = s.pool.handleCounter) :
    Consistent { s with pool, calls := s.calls.set p { c with stage := .posted } } := by
  have member := List.mem_of_getElem? found
  obtain ⟨unposted, registered⟩ := mayPost_stage may
  obtain ⟨nodup, calls⟩ := stage_calls consistent found .posted
  have apart : ∀ f ∈ eventsOf .posted s.pool.history, f.task.handle ≠ c.handle := by
    intro f posted same
    obtain ⟨d, present, handle', _, stage'⟩ := consistent.poster f posted
    rw [call_single consistent present member (handle'.trans same)] at stage'
    exact unposted stage'
  have posted : eventsOf .posted pool.history = eventsOf .posted s.pool.history ++ [e] := by
    rw [appended, eventsOf_append, if_pos stage]
  have ended : ∀ h v, Finished pool.history h v ↔ Finished s.pool.history h v := by
    intro h v
    rw [appended, finished_append, stage]
    simp
  constructor
  case counter => exact counter.trans consistent.counter
  case drawn =>
    intro d present
    rcases (calls d).mp present with rfl | ⟨old, _⟩
    · exact consistent.drawn c member
    · exact consistent.drawn d old
  case distinct => exact nodup
  case poster =>
    intro f logged
    rw [posted] at logged
    rcases List.mem_append.mp logged with old | new
    · obtain ⟨d, present, same, kind', stage'⟩ := consistent.poster f old
      exact ⟨d, (calls d).mpr (Or.inr ⟨present, same ▸ apart f old⟩), same, kind', stage'⟩
    · rw [List.mem_singleton.mp new]
      exact ⟨_, (calls _).mpr (Or.inl rfl), handle.symm, kind.symm, rfl⟩
  case once =>
    rw [posted, List.map_append, List.map_singleton, nodup_snoc]
    refine ⟨?_, consistent.once⟩
    intro inside
    obtain ⟨f, old, same⟩ := List.mem_map.mp inside
    exact apart f old (same.trans handle)
  case window => exact consistent.window
  case registered_once => exact consistent.registered_once
  case registrant =>
    intro h inside
    obtain ⟨d, present, same, later⟩ := consistent.registrant h inside
    by_cases here : d.handle = c.handle
    · exact ⟨_, (calls _).mpr (Or.inl rfl), here.symm.trans same, by simp⟩
    · exact ⟨d, (calls d).mpr (Or.inr ⟨present, here⟩), same, later⟩
  case registers =>
    intro d present reports later
    rcases (calls d).mp present with rfl | ⟨old, _⟩
    · exact consistent.registers c member reports (registered reports)
    · exact consistent.registers d old reports later
  case keys => exact consistent.keys
  case truthful =>
    intro h v holds
    exact (ended h v).mpr (consistent.truthful h v holds)
  case complete =>
    intro h v finished
    exact consistent.complete h v ((ended h v).mp finished)
  case answered =>
    intro w waits v outcome
    exact (ended w.handle v).mpr (consistent.answered w waits v outcome)
  case pending => exact consistent.pending

theorem quiet_consistent (consistent : Consistent s) {pool : DispatchPool.State Obj}
    (counter : pool.handleCounter = s.pool.handleCounter)
    (posted : eventsOf .posted pool.history = eventsOf .posted s.pool.history)
    (ended : eventsOf .ended pool.history = eventsOf .ended s.pool.history) :
    Consistent { s with pool } := by
  have finished : Finished pool.history = Finished s.pool.history := by
    funext h v
    unfold Finished
    rw [ended]
  refine { consistent with
    counter := counter.trans consistent.counter
    poster := ?_
    once := ?_
    truthful := ?_
    complete := ?_
    answered := ?_ }
  · rw [posted]
    exact consistent.poster
  · rw [posted]
    exact consistent.once
  · rw [finished]
    exact consistent.truthful
  · rw [finished]
    exact consistent.complete
  · rw [finished]
    exact consistent.answered

theorem reportResult_entry (consistent : Consistent s) (task : Task) (ret : Option Int) (h : Nat) :
    reportResult task ret s.results h =
      if task.handle = h ∧ task.kind.reports = true ∧ h ∈ s.resultOrder then
        (match ret with | some v => some ⟨v, true⟩ | none => s.results h) else s.results h := by
  unfold reportResult
  cases ret with
  | none => simp
  | some v =>
    dsimp only
    split
    · rename_i reports
      have keys := consistent.keys task.handle
      unfold postResultItem
      cases entry : s.results task.handle with
      | none =>
        rw [entry] at keys
        rw [if_neg]
        rintro ⟨rfl, _, inside⟩
        exact keys.mpr inside rfl
      | some item =>
        rw [entry] at keys
        dsimp only
        by_cases here : h = task.handle
        · rw [here, Function.update_self, if_pos ⟨rfl, reports, keys.mp (by simp)⟩]
        · rw [Function.update_of_ne here, if_neg fun own => here own.1.symm]
    · rename_i silent
      rw [if_neg fun own => silent own.2.1]

/-- The value of an ended task reaches the entry of its handle if the entry is still there. -/
theorem end_consistent [DecidableEq Obj] (consistent : Consistent s) {pool : DispatchPool.State Obj}
    (reached : DispatchPool.machine.Reachable pool)
    (counter : pool.handleCounter = s.pool.handleCounter) {inst : Obj} {task : Task}
    {ret : Option Int} (appended : pool.history =
      s.pool.history ++ [{ stage := .ended, obj := inst, task, ret }]) :
    Consistent { s with pool, results := reportResult task ret s.results } := by
  have posted : eventsOf .posted pool.history = eventsOf .posted s.pool.history := by
    rw [appended]
    exact eventsOf_silent (by simp)
  have once : ((eventsOf .posted pool.history).map fun e => e.task.handle).Nodup := by
    rw [posted]
    exact consistent.once
  have finished : ∀ h v, Finished pool.history h v ↔ Finished s.pool.history h v ∨
      task.handle = h ∧ task.kind.reports = true ∧ ret = some v := by
    intro h v
    rw [appended, finished_append]
    simp
  have table := reportResult_entry consistent task ret
  refine { consistent with
    counter := counter.trans consistent.counter
    poster := ?_
    once := once
    keys := ?_
    truthful := ?_
    complete := ?_
    answered := ?_ }
  · rw [posted]
    exact consistent.poster
  · intro h
    dsimp only
    rw [table h]
    split
    · rename_i own
      cases ret with
      | none => exact consistent.keys h
      | some v => exact iff_of_true (by simp) own.2.2
    · exact consistent.keys h
  · intro h v holds
    dsimp only at holds ⊢
    rw [table h] at holds
    rw [finished h v]
    split at holds
    · rename_i own
      cases ret with
      | none => exact Or.inl (consistent.truthful h v holds)
      | some u =>
        simp only [Option.some.injEq, ResultItem.mk.injEq, and_true] at holds
        exact Or.inr ⟨own.1, own.2.1, by rw [holds]⟩
    · exact Or.inl (consistent.truthful h v holds)
  · intro h v holds inside
    dsimp only at holds inside ⊢
    rw [table h]
    split
    · rename_i own
      cases ret with
      | none =>
        rcases (finished h v).mp holds with old | new
        · exact consistent.complete h v old inside
        · exact absurd new.2.2 (by simp)
      | some u =>
        have here := (finished h u).mpr (Or.inr ⟨own.1, own.2.1, rfl⟩)
        have same := finished_single reached once holds here
        rw [same]
    · rename_i other
      rcases (finished h v).mp holds with old | new
      · exact consistent.complete h v old inside
      · exact absurd ⟨new.1, new.2.1, inside⟩ other
  · intro w waits v outcome
    exact (finished w.handle v).mpr (Or.inl (consistent.answered w waits v outcome))

theorem wait_consistent (consistent : Consistent s) (handle timeoutMsec start : Nat) :
    Consistent { s with waiters := s.waiters ++ [{ handle, timeoutMsec, start }] } := by
  refine { consistent with answered := ?_, pending := ?_ }
  · intro w member v outcome
    rcases List.mem_append.mp member with old | new
    · exact consistent.answered w old v outcome
    · rw [List.mem_singleton.mp new] at outcome
      simp at outcome
  · intro w member
    rcases List.mem_append.mp member with old | new
    · exact consistent.pending w old
    · rw [List.mem_singleton.mp new]
      exact fun _ => rfl

theorem inspect_fields (now : Nat) (results : Nat → Option ResultItem) (w : Waiter) :
    (inspect now results w).handle = w.handle ∧
      (inspect now results w).inspections = w.inspections + 1 ∧
      ∀ v, w.outcome = none → (inspect now results w).outcome = some (.result v) →
        results w.handle = some ⟨v, true⟩ := by
  unfold inspect
  dsimp only
  split
  · rename_i value ready
    refine ⟨rfl, rfl, ?_⟩
    intro v _ outcome
    simp only [Option.some.injEq, Outcome.result.injEq] at outcome
    rw [ready, outcome]
  · split
    · exact ⟨rfl, rfl, fun v _ outcome => by simp at outcome⟩
    · exact ⟨rfl, rfl, fun v waiting outcome => by simp [waiting] at outcome⟩

theorem inspect_consistent (consistent : Consistent s) (k now : Nat) {w : Waiter}
    (waiting : w.outcome = none) :
    Consistent { s with waiters := s.waiters.set k (inspect now s.results w) } := by
  obtain ⟨handle, inspections, outcome⟩ := inspect_fields now s.results w
  refine { consistent with answered := ?_, pending := ?_ }
  · intro x member v answer
    rcases List.mem_or_eq_of_mem_set member with old | rfl
    · exact consistent.answered x old v answer
    · rw [handle]
      exact consistent.truthful w.handle v (outcome v waiting answer)
  · intro x member unseen
    rcases List.mem_or_eq_of_mem_set member with old | rfl
    · exact consistent.pending x old unseen
    · rw [inspections] at unseen
      exact absurd unseen (Nat.succ_ne_zero _)

theorem poolStep_fields [DecidableEq Obj] {a : DispatchPool.Action Obj}
    (stepped : poolStep s a = some t) :
    ∃ pool, DispatchPool.step s.pool a = some pool ∧ t = { s with pool } := by
  obtain ⟨pool, moved, same⟩ := Option.map_eq_some_iff.mp stepped
  exact ⟨pool, moved, same.symm⟩

theorem worker_consistent [DecidableEq Obj] (consistent : Consistent s) {a : DispatchPool.Action Obj}
    (worker : (∃ i, DispatchPool.step s.pool a = workerAt s.pool i a) ∨ a = .stop)
    (other : ∀ i ret, a ≠ .finishTask i ret) (stepped : poolStep s a = some t) : Consistent t := by
  obtain ⟨pool, moved, rfl⟩ := poolStep_fields stepped
  rcases worker with ⟨i, same⟩ | rfl
  · rw [same] at moved
    obtain ⟨w, _, moved⟩ := Option.bind_eq_some_iff.mp moved
    obtain ⟨logged, counter⟩ := workerStep_logs moved
    cases logged with
    | quiet same => exact quiet_consistent consistent counter (by rw [same]) (by rw [same])
    | moved e stage appended =>
      apply quiet_consistent consistent counter
      · rw [appended]
        exact eventsOf_silent (by rcases stage with h | h <;> simp [h])
      · rw [appended]
        exact eventsOf_silent (by rcases stage with h | h <;> simp [h])
    | ended j inst task ret by_end => exact absurd by_end (other j ret)
  · simp only [DispatchPool.step, Option.some.injEq] at moved
    subst moved
    exact quiet_consistent consistent rfl rfl rfl

def draws : DispatchResults.Action Obj → Bool
  | .draw | .call .. => true
  | _ => false

inductive PoolMoved [DecidableEq Obj] (s : DispatchResults.State Obj) :
    DispatchResults.Action Obj → DispatchPool.State Obj → Prop where
  | drew {a : DispatchResults.Action Obj} (drawing : draws a = true) :
      PoolMoved s a (getHandle s.pool).1
  | moved {a : DispatchResults.Action Obj} {b : DispatchPool.Action Obj}
      {pool : DispatchPool.State Obj} (plain : draws a = false) (other : b ≠ .getHandle)
      (move : DispatchPool.step s.pool b = some pool) : PoolMoved s a pool
  | still {a : DispatchResults.Action Obj} (plain : draws a = false) : PoolMoved s a s.pool

theorem postAction_posts [DecidableEq Obj] (c : Call Obj) (woken : List Nat) (now : Nat) :
    postAction c woken now ≠ .getHandle := by
  unfold postAction
  split <;> simp

theorem step_poolMoved [DecidableEq Obj] {a : DispatchResults.Action Obj}
    (stepped : DispatchResults.machine.step s a = some t) : PoolMoved s a t.pool := by
  change DispatchResults.step s a = some t at stepped
  have moves : ∀ {b u}, draws a = false → b ≠ .getHandle → poolStep s b = some u →
      PoolMoved s a u.pool := by
    intro b u plain other moved
    obtain ⟨pool, move, rfl⟩ := poolStep_fields moved
    exact .moved plain other move
  cases a with
  | draw | call =>
    simp only [DispatchResults.step, Option.some.injEq] at stepped
    exact stepped ▸ .drew rfl
  | register p =>
    obtain ⟨c, _, moved⟩ := Option.bind_eq_some_iff.mp stepped
    split at moved
    · simp only [Option.some.injEq] at moved
      exact moved ▸ .still rfl
    · simp at moved
  | post p woken now =>
    obtain ⟨c, _, moved⟩ := Option.bind_eq_some_iff.mp stepped
    split at moved
    · obtain ⟨u, move, rfl⟩ := Option.map_eq_some_iff.mp moved
      have later := moves rfl (postAction_posts c woken now) move
      exact later
    · simp at moved
  | finishTask i ret =>
    obtain ⟨w, _, moved⟩ := Option.bind_eq_some_iff.mp stepped
    split at moved
    · obtain ⟨u, move, rfl⟩ := Option.map_eq_some_iff.mp moved
      have later := moves rfl (by simp) move
      exact later
    · simp at moved
  | enter | spurious | start | finish | stop => exact moves rfl (by simp) stepped
  | waitResult =>
    simp only [DispatchResults.step, Option.some.injEq] at stepped
    exact stepped ▸ .still rfl
  | inspect k now =>
    obtain ⟨w, _, moved⟩ := Option.bind_eq_some_iff.mp stepped
    split at moved
    · simp only [Option.some.injEq] at moved
      exact moved ▸ .still rfl
    · simp at moved

theorem step_pool [DecidableEq Obj] {a : DispatchResults.Action Obj}
    (stepped : DispatchResults.machine.step s a = some t)
    (reached : DispatchPool.machine.Reachable s.pool) : DispatchPool.machine.Reachable t.pool := by
  have moved := step_poolMoved stepped
  generalize t.pool = pool at moved ⊢
  cases moved with
  | drew => exact .next (a := .getHandle) reached trivial rfl
  | moved plain other move => exact .next reached trivial move
  | still => exact reached

theorem pool_reached [DecidableEq Obj] (reached : DispatchResults.machine.Reachable s) :
    DispatchPool.machine.Reachable s.pool := by
  refine invariant_of_steps (fun s => DispatchPool.machine.Reachable s.pool) ?_ ?_ reached
  · rintro s ⟨now, n, rfl⟩
    exact .start ⟨now, n, rfl⟩
  · intro s a t before _ stepped
    exact step_pool stepped before

theorem step_consistent [DecidableEq Obj] {a : DispatchResults.Action Obj}
    (reached : DispatchPool.machine.Reachable s.pool)
    (consistent : s.draws < int64Max → Consistent s)
    (stepped : DispatchResults.machine.step s a = some t) (small : t.draws < int64Max) :
    Consistent t := by
  have later := step_pool stepped reached
  change DispatchResults.step s a = some t at stepped
  cases a with
  | draw =>
    simp only [DispatchResults.step, Option.some.injEq] at stepped
    subst stepped
    exact draw_consistent (consistent (Nat.lt_of_succ_lt small)) small
  | call obj kind srcfunc =>
    simp only [DispatchResults.step, Option.some.injEq] at stepped
    subst stepped
    exact call_consistent (consistent (Nat.lt_of_succ_lt small)) small obj kind srcfunc
  | register p =>
    obtain ⟨c, found, moved⟩ := Option.bind_eq_some_iff.mp stepped
    split at moved
    · rename_i may
      simp only [Option.some.injEq] at moved
      subst moved
      exact register_consistent (consistent small) reached found may.2
    · simp at moved
  | post p woken now =>
    obtain ⟨c, found, moved⟩ := Option.bind_eq_some_iff.mp stepped
    split at moved
    · rename_i may
      obtain ⟨u, move, rfl⟩ := Option.map_eq_some_iff.mp moved
      obtain ⟨pool, posted, rfl⟩ := poolStep_fields move
      obtain ⟨e, appended, stage, handle, kind, counter⟩ := post_logs posted
      exact post_consistent (consistent small) found may appended stage handle kind counter
    · simp at moved
  | finishTask i ret =>
    obtain ⟨w, found, moved⟩ := Option.bind_eq_some_iff.mp stepped
    split at moved
    · rename_i inst task executing
      obtain ⟨u, move, rfl⟩ := Option.map_eq_some_iff.mp moved
      obtain ⟨pool, ended, rfl⟩ := poolStep_fields move
      simp only [DispatchPool.step, workerAt, found, Option.bind_some, executing, workerStep,
        Option.some.injEq] at ended
      subst ended
      exact end_consistent (consistent small) later rfl rfl
    · simp at moved
  | enter i =>
    obtain ⟨pool, _, rfl⟩ := poolStep_fields stepped
    exact worker_consistent (consistent small) (Or.inl ⟨i, rfl⟩) (by simp) stepped
  | spurious i =>
    obtain ⟨pool, _, rfl⟩ := poolStep_fields stepped
    exact worker_consistent (consistent small) (Or.inl ⟨i, rfl⟩) (by simp) stepped
  | start i now =>
    obtain ⟨pool, _, rfl⟩ := poolStep_fields stepped
    exact worker_consistent (consistent small) (Or.inl ⟨i, rfl⟩) (by simp) stepped
  | finish i woken now =>
    obtain ⟨pool, _, rfl⟩ := poolStep_fields stepped
    exact worker_consistent (consistent small) (Or.inl ⟨i, rfl⟩) (by simp) stepped
  | stop =>
    obtain ⟨pool, _, rfl⟩ := poolStep_fields stepped
    exact worker_consistent (consistent small) (Or.inr rfl) (by simp) stepped
  | waitResult handle timeoutMsec start =>
    simp only [DispatchResults.step, Option.some.injEq] at stepped
    subst stepped
    exact wait_consistent (consistent small) handle timeoutMsec start
  | inspect k now =>
    obtain ⟨w, found, moved⟩ := Option.bind_eq_some_iff.mp stepped
    split at moved
    · rename_i waiting
      simp only [Option.some.injEq] at moved
      subst moved
      exact inspect_consistent (consistent small) k now waiting
    · simp at moved

theorem consistent_reached [DecidableEq Obj] (reached : DispatchResults.machine.Reachable s)
    (small : s.draws < int64Max) : Consistent s := by
  refine invariant_along (fun s => DispatchPool.machine.Reachable s.pool)
    (fun s => s.draws < int64Max → Consistent s) (fun _ before => pool_reached before) ?_ ?_
    reached small
  · rintro s ⟨now, n, rfl⟩ _
    exact create_consistent now n
  · intro s a t pool consistent _ stepped
    exact step_consistent pool consistent stepped

end Steps

structure ResultsReach [DecidableEq Obj] (s : DispatchResults.State Obj) : Prop where
  truthful : ∀ w ∈ s.waiters, ∀ v, w.outcome = some (.result v) →
    Finished s.pool.history w.handle v
  single : ∀ h v v', Finished s.pool.history h v → Finished s.pool.history h v' → v = v'
  prompt : ∀ k w now v front later, s.waiters[k]? = some w → w.inspections = 0 →
    Finished s.pool.history w.handle v → s.registered = front ++ w.handle :: later →
      later.length ≤ 99 → ∃ t, DispatchResults.machine.step s (.inspect k now) = some t ∧
        t.waiters[k]? = some { w with inspections := 1, outcome := some (.result v) }
  keys : ∀ h, s.results h ≠ none ↔ h ∈ s.resultOrder
  distinct : s.resultOrder.Nodup
  bounded : s.resultOrder.length ≤ maxResults

/-- Whatever order the calls register and the tasks end in. -/
theorem results_reach_waiters [DecidableEq Obj] {s : DispatchResults.State Obj}
    (reached : DispatchResults.machine.Reachable s) (small : s.draws < int64Max) :
    ResultsReach s := by
  have consistent := consistent_reached reached small
  constructor
  · exact consistent.answered
  · intro h v v' first second
    exact finished_single (pool_reached reached) consistent.once first second
  · intro k w now v front later found unseen finished registered recent
    have waiting := consistent.pending w (List.mem_of_getElem? found) unseen
    have inside : w.handle ∈ s.resultOrder := by
      rw [consistent.window, registered]
      exact mem_lastOf (Nat.lt_succ_of_le recent)
    have entry := consistent.complete w.handle v finished inside
    have seen : inspect now s.results w =
        { w with inspections := 1, outcome := some (.result v) } := by
      rw [inspect, entry, unseen]
    refine ⟨{ s with waiters := s.waiters.set k (inspect now s.results w) }, ?_, ?_⟩
    · change DispatchResults.step s (.inspect k now) = _
      rw [DispatchResults.step, found, Option.bind_some, if_pos waiting]
    · rw [← seen]
      exact List.getElem?_set_self (List.getElem?_eq_some_iff.mp found).1
  · exact consistent.keys
  · rw [consistent.window]
    exact consistent.registered_once.sublist (lastOf_sublist _ _)
  · rw [consistent.window, lastOf, List.length_drop]
    omega

def crossedRegistrations : List (DispatchResults.Action Nat) :=
  [.call 7 (.queue true) "main", .call 8 .event "main", .register 1, .waitResult 2 10 0,
    .inspect 0 0, .register 0, .post 1 [0] 1, .enter 0, .start 0 2, .finishTask 0 (some 5),
    .inspect 0 3, .finish 0 [] 4]

theorem crossed_registrations_reach : ∃ s,
    DispatchResults.machine.run (DispatchResults.create 0 2) crossedRegistrations = some s ∧
      ResultsReach s := by
  obtain ⟨s, executed, reached⟩ := run_ends (m := DispatchResults.machine)
    (s := DispatchResults.create 0 2) crossedRegistrations ⟨0, 2, rfl⟩ (by decide)
  have drawn : (DispatchResults.machine.run (DispatchResults.create 0 2) crossedRegistrations).map
      (fun s => s.draws) = some 2 := by decide
  rw [executed, Option.map_some, Option.some.injEq] at drawn
  exact ⟨s, executed, results_reach_waiters reached (by rw [drawn]; decide)⟩

end DispatchResultGuarantees
