import FJUtility.SharedMem.MailGuarantees

/- FJSyncGuard on the region's mutex_. The methods of FJSharedMem wait for mutex_; the guard tries
   it once, and keeps to itself in lock_ that it did not get it. -/
namespace SharedGuards
open LabelledMachine SharedRegion SharedProcesses SharedGuarantees

inductive Thread where
  | application (number : Nat)
  | worker (index : Nat)
  deriving DecidableEq, Repr

inductive Holder where
  | method (thread : Thread)
  | guard (thread : Thread)
  deriving DecidableEq, Repr

def Holder.thread : Holder → Thread
  | .method thread | .guard thread => thread

structure FJSyncGuard where
  thread : Thread
  pid : Nat
  obj : Nat
  lock : Bool
  deriving DecidableEq, Repr

structure Guarded where
  base : State
  holder : Option Holder
  guards : List FJSyncGuard

/-- _lock, with pthread_mutex_trylock. -/
def lock (s : Guarded) : Bool := decide (s.base.region.initialized > 0) && s.holder.isNone

def constructGuard (thread : Thread) (pid obj : Nat) (s : Guarded) : Guarded :=
  { s with
    holder := if lock s then some (.guard thread) else s.holder
    guards := s.guards ++ [⟨thread, pid, obj, lock s⟩] }

/-- _unlock, of a guard that has locked. -/
def destroyGuard (i : Nat) (g : FJSyncGuard) (s : Guarded) : Guarded :=
  { s with
    holder := if g.lock && decide (s.base.region.initialized > 0) then none else s.holder
    guards := s.guards.eraseIdx i }

def checksSlot (s : State) (i : Nat) : Bool :=
  s.workers[i]?.any fun w =>
    match w.pos with
    | .dispatching (mail :: _) =>
      decide (mail.obj ≠ 0) && mail.payloadIdx.any fun idx => decide (idx < payloadSlots)
    | _ => false

def underMutex (s : State) : Action → Bool
  | .addListenScalar _ _ obj msg _ => decide (obj ≠ 0) && decide (msg ≠ 0)
  | .addListenList _ _ obj _ _ => decide (obj ≠ 0)
  | .destroyReturn .. => false
  | .worker _ .find | .worker _ (.drain _) | .worker _ (.mark _) => true
  | .worker i .next => checksSlot s i
  | .worker .. => false
  | _ => true

def performs (thread : Thread) : Action → Bool
  | .worker i _ => decide (thread = .worker i)
  | _ => true

inductive GuardAction where
  | lockMutex (thread : Thread)
  | act (thread : Thread) (a : Action)
  | constructGuard (thread : Thread) (pid obj : Nat)
  | destroyGuard (i : Nat)

def act (capacity : Nat) (thread : Thread) (a : Action) (s : Guarded) : Option Guarded :=
  if performs thread a then
    if underMutex s.base a then
      if s.holder = some (.method thread) then
        (step capacity s.base a).map fun t =>
          { s with base := t, holder := if t.user = none then none else s.holder }
      else none
    else if s.holder = some (.method thread) then none
    else (step capacity s.base a).map fun t => { s with base := t }
  else none

def isLive (s : State) (pid obj : Nat) : Bool :=
  match s.instances pid obj with
  | .live _ => true
  | _ => false

def guardStep (capacity : Nat) (s : Guarded) : GuardAction → Option Guarded
  | .lockMutex thread =>
    if s.holder = none then some { s with holder := some (.method thread) } else none
  | .act thread a => act capacity thread a s
  | .constructGuard thread pid obj =>
    if isLive s.base pid obj ∧ s.holder ≠ some (.method thread) then
      some (constructGuard thread pid obj s)
    else none
  | .destroyGuard i => s.guards[i]?.bind fun g =>
    if s.holder ≠ some (.method g.thread) then some (destroyGuard i g s) else none

def guarded (capacity : Nat) : Machine Guarded GuardAction where
  init s := (machine capacity).init s.base ∧ s.holder = none ∧ s.guards = []
  step := guardStep capacity

/-- Every guard's thread owns mutex_; so the scopes of different threads lie apart, and no section of
    another thread lies in one. -/
structure Exclusive (s : Guarded) : Prop where
  owns : ∀ g ∈ s.guards, s.holder.map Holder.thread = some g.thread
  scopes : ∀ g ∈ s.guards, ∀ g' ∈ s.guards, g'.thread = g.thread
  sections : ∀ g ∈ s.guards, ∀ thread, s.holder = some (.method thread) → thread = g.thread

def threadOne : Thread := .application 1
def threadTwo : Thread := .application 2

def twoGuards : List GuardAction :=
  [.lockMutex threadOne, .act threadOne (.construct 5 100 [7] [entrySeven]),
    .constructGuard threadOne 5 100, .constructGuard threadTwo 5 100]

theorem two_guards_overlap : ¬ ∀ s, (guarded 22).Reachable s → Exclusive s := by
  intro always
  obtain ⟨s, reached, shown⟩ := run_shows (m := guarded 22) twoGuards (s := ⟨zeroed, none, []⟩)
    ⟨zeroed_initial 22, rfl, rfl⟩
    (fun s : Guarded =>
      decide (s.guards = [⟨threadOne, 5, 100, true⟩, ⟨threadTwo, 5, 100, false⟩]))
    (by decide +kernel)
  have guards := of_decide_eq_true shown
  have same := (always s reached).scopes ⟨threadOne, 5, 100, true⟩ (by simp [guards])
    ⟨threadTwo, 5, 100, false⟩ (by simp [guards])
  exact absurd same (by decide)

/-- A guard is constructed while another thread owns mutex_, or no instance is counted; or the one
    that has locked goes before another one of its thread. -/
def neglects (s : Guarded) : GuardAction → Bool
  | .constructGuard thread _ _ =>
    !lock s && !s.guards.any fun g => g.lock && decide (g.thread = thread)
  | .destroyGuard i => s.guards[i]?.any fun g =>
    g.lock && (s.guards.eraseIdx i).any fun g' => decide (g'.thread = g.thread)
  | _ => false

def LocksFree (s : Guarded) (a : GuardAction) : Prop := neglects s a = false

instance (s : Guarded) (a : GuardAction) : Decidable (LocksFree s a) :=
  inferInstanceAs (Decidable (_ = _))

/-- mutex_ is held by the guards, all of one thread, as long as there are any. -/
def Owned (s : Guarded) : Prop := ∀ g ∈ s.guards, s.holder = some (.guard g.thread)

theorem owned_none {s : Guarded} (owned : Owned s)
    (other : ∀ thread, s.holder ≠ some (.guard thread)) : s.guards = [] := by
  apply List.eq_nil_iff_forall_not_mem.mpr
  intro g member
  exact other g.thread (owned g member)

theorem constructGuard_owned {s : Guarded} {thread : Thread} {pid obj : Nat} (owned : Owned s)
    (locks : LocksFree s (.constructGuard thread pid obj)) :
    Owned (constructGuard thread pid obj s) := by
  intro g member
  rcases List.mem_append.mp member with old | new
  · have held := owned g old
    have busy : lock s = false := by simp [lock, held]
    simp only [constructGuard, busy, Bool.false_eq_true, if_false]
    exact held
  · rw [List.mem_singleton.mp new]
    cases locked : lock s with
    | true => simp [constructGuard, locked]
    | false =>
      simp only [LocksFree, neglects, locked, Bool.not_false, Bool.true_and, Bool.not_eq_false',
        List.any_eq_true, Bool.and_eq_true, decide_eq_true_eq] at locks
      obtain ⟨outer, there, _, same⟩ := locks
      simp only [constructGuard, locked, Bool.false_eq_true, if_false]
      exact same ▸ owned outer there

theorem destroyGuard_owned {s : Guarded} {i : Nat} {g : FJSyncGuard} (owned : Owned s)
    (is : s.guards[i]? = some g) (locks : LocksFree s (.destroyGuard i)) :
    Owned (destroyGuard i g s) := by
  intro other member
  have older : other ∈ s.guards := List.mem_of_mem_eraseIdx member
  have held := owned other older
  cases locked : g.lock with
  | false =>
    simp only [destroyGuard, locked, Bool.false_and, Bool.false_eq_true, if_false]
    exact held
  | true =>
    have own := owned g (List.mem_of_getElem? is)
    rw [held, Option.some.injEq, Holder.guard.injEq] at own
    simp only [LocksFree, neglects, is, Option.any_some, locked, Bool.true_and, List.any_eq_false,
      decide_eq_true_eq] at locks
    exact absurd own (locks other member)

theorem act_owned {capacity : Nat} {s t : Guarded} {thread : Thread} {a : Action} (owned : Owned s)
    (acted : act capacity thread a s = some t) : Owned t := by
  unfold act at acted
  split at acted
  · split at acted
    · split at acted
      · rename_i holds
        obtain ⟨u, _, rfl⟩ := Option.map_eq_some_iff.mp acted
        intro g member
        have none_there := owned_none owned (by simp [holds])
        simp [none_there] at member
      · simp at acted
    · split at acted
      · simp at acted
      · obtain ⟨u, _, rfl⟩ := Option.map_eq_some_iff.mp acted
        exact owned
  · simp at acted

theorem step_owned {capacity : Nat} {s t : Guarded} {a : GuardAction} (owned : Owned s)
    (locks : LocksFree s a) (move : (guarded capacity).step s a = some t) : Owned t := by
  change guardStep capacity s a = some t at move
  cases a with
  | lockMutex thread =>
    simp only [guardStep] at move
    split at move
    · rename_i free
      obtain rfl := Option.some.inj move
      intro g member
      have none_there := owned_none owned (by simp [free])
      simp [none_there] at member
    · simp at move
  | act thread a => exact act_owned owned move
  | constructGuard thread pid obj =>
    simp only [guardStep] at move
    split at move
    · exact Option.some.inj move ▸ constructGuard_owned owned locks
    · simp at move
  | destroyGuard i =>
    obtain ⟨g, is, rest⟩ := Option.bind_eq_some_iff.mp move
    split at rest
    · exact Option.some.inj rest ▸ destroyGuard_owned owned is locks
    · simp at rest

/-- The sections between lock and unlock are those of the processes, in the order they are held. -/
theorem base_reached {capacity : Nat} {guard : Guarded → GuardAction → Prop} {s : Guarded}
    (reached : (guarded capacity).ReachableBy guard s) : (machine capacity).Reachable s.base := by
  apply reachableBy_project Guarded.base _ _ reached
  · exact fun t first => first.1
  · intro s a t _ move
    change guardStep capacity s a = some t at move
    cases a with
    | lockMutex thread =>
      simp only [guardStep] at move
      split at move
      · exact Or.inl (Option.some.inj move ▸ rfl)
      · simp at move
    | act thread a =>
      simp only [guardStep, act] at move
      split at move
      · split at move
        · split at move
          · obtain ⟨u, stepped, rfl⟩ := Option.map_eq_some_iff.mp move
            exact Or.inr ⟨a, trivial, stepped⟩
          · simp at move
        · split at move
          · simp at move
          · obtain ⟨u, stepped, rfl⟩ := Option.map_eq_some_iff.mp move
            exact Or.inr ⟨a, trivial, stepped⟩
      · simp at move
    | constructGuard thread pid obj =>
      simp only [guardStep] at move
      split at move
      · exact Or.inl (Option.some.inj move ▸ rfl)
      · simp at move
    | destroyGuard i =>
      obtain ⟨g, _, rest⟩ := Option.bind_eq_some_iff.mp move
      split at rest
      · exact Or.inl (Option.some.inj rest ▸ rfl)
      · simp at rest

theorem owned_exclusive {s : Guarded} (owned : Owned s) : Exclusive s := by
  constructor
  · intro g member
    rw [owned g member]
    rfl
  · intro g member g' member'
    have held := owned g member
    rw [owned g' member', Option.some.injEq, Holder.guard.injEq] at held
    exact held
  · intro g member thread busy
    have held := owned g member
    rw [busy] at held
    simp at held

/-- When every guard is constructed on a free mutex_, or inside another guard of its thread that it
    does not outlive, the guards exclude each other and the sections of other threads. -/
theorem guards_exclude {capacity : Nat} {s : Guarded}
    (reached : (guarded capacity).ReachableBy LocksFree s) : Exclusive s := by
  apply owned_exclusive
  apply invariant_of_steps Owned _ _ reached
  · rintro s ⟨_, _, none_there⟩ g member
    simp [none_there] at member
  · intro s a t owned locks move
    exact step_owned owned locks move

def guardsInTurn : List GuardAction :=
  [.lockMutex threadOne, .act threadOne (.construct 5 100 [7] [entrySeven]),
    .constructGuard threadOne 5 100, .constructGuard threadOne 5 100, .destroyGuard 1,
    .destroyGuard 0, .lockMutex threadTwo,
    .act threadTwo (.notify 100 ⟨5, 101, 7, none, 0⟩ fun _ => 0), .act threadTwo .broadcast,
    .constructGuard threadTwo 5 100]

theorem guards_in_turn_exclude : ∃ s, (guarded 22).runBy (fun s a => decide (LocksFree s a))
    ⟨zeroed, none, []⟩ guardsInTurn = some s ∧ s.guards = [⟨threadTwo, 5, 100, true⟩] ∧
      Exclusive s := by
  obtain ⟨s, executed, guards, reached⟩ := guarded_shows (m := guarded 22)
    (s := ⟨zeroed, none, []⟩) LocksFree guardsInTurn ⟨zeroed_initial 22, rfl, rfl⟩
    (fun s : Guarded => decide (s.guards = [⟨threadTwo, 5, 100, true⟩])) (by decide +kernel)
  exact ⟨s, executed, of_decide_eq_true guards, guards_exclude reached⟩

end SharedGuards
