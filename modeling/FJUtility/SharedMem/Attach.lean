import Mathlib.Algebra.Group.Nat.Defs
import Mathlib.Logic.Function.Basic
import FJUtility.Library.LabelledMachine

/- How instances come to their shared-memory objects and leave them: the system calls of the
   constructor and the destructor on the names of POSIX shared memory, initSharedRegion, the
   wait for initialized_, and the two sections that count the instances. A section under mutex_
   is one step; the tables it works on are those of SharedRegion and are left out. -/
namespace SharedAttach
open LabelledMachine

def regionName : String := "/fjsharedmem"
def defaultExtraSize : Nat := 64
def timeoutMs : Nat := 100
def pageSize : Nat := 4096

/-- The next action of an instance. The constructor is from opening to registering, the
    destructor from leaving to unlinking; live is between them. -/
inductive InstancePos where
  | opening
  | creating
  | truncating
  | mapping
  | openingUser
  | creatingUser
  | truncatingUser
  | mappingUser
  | entering
  | clearing
  | resetting
  | waiting (polls : Nat)
  | registering
  | live
  | leaving
  | unmapping (isUnlink : Bool)
  | unlinkingUser
  | unlinking
  | destroyed
  | crashed (counted : Bool)
  deriving DecidableEq, Repr

/-- SharedRegion is initialized_ and the rest behind it. tables says how far into the rest the
    section under mutex_ at a point of an instance goes. -/
structure Layout where
  rest : Nat
  tables : InstancePos → Nat

def Layout.bytes (layout : Layout) : Nat := 4 + layout.rest

/-- name is the one the object was created under. begun, inits and locks count, for the observer,
    the runs of initSharedRegion that started and ended on the object and the locks of mutex_. -/
structure ShmObject where
  name : String
  size : Nat
  initialized : Nat
  begun : Nat
  inits : Nat
  locks : Nat
  deriving DecidableEq, Repr

def newObject (name : String) : ShmObject := ⟨name, 0, 0, 0, 0, 0⟩

/-- initialized_ is the first field of the region: a shorter object loses it. -/
def ftruncate (length : Nat) (o : ShmObject) : ShmObject :=
  { o with size := length, initialized := if length < 4 then 0 else o.initialized }

theorem ftruncate_region (layout : Layout) (o : ShmObject) :
    (ftruncate layout.bytes o).initialized = o.initialized :=
  if_neg (by unfold Layout.bytes; omega)

structure Instance where
  pid : Nat
  shmName : String
  extraSize : Nat
  region : Nat := 0
  user : Nat := 0
  isCreate : Bool := false
  pos : InstancePos := .opening
  deriving DecidableEq, Repr

/-- entered holds the static variable of initSharedRegion, one for each process. -/
structure State where
  names : String → Option Nat
  objects : Nat → ShmObject
  made : Nat
  entered : Nat → Bool
  instances : List Instance

def counts : InstancePos → Bool
  | .live | .leaving => true
  | .crashed counted => counted
  | _ => false

def newlyNamed (name : String) (s : State) : State :=
  { s with
    names := Function.update s.names name (some s.made)
    objects := Function.update s.objects s.made (newObject name)
    made := s.made + 1 }

/-- shm_open with O_CREAT and without O_EXCL. -/
def shmCreate (name : String) (s : State) : State × Nat :=
  match s.names name with
  | some o => (s, o)
  | none => (newlyNamed name s, s.made)

def shmUnlink (name : String) (s : State) : State :=
  { s with names := Function.update s.names name none }

def writeObject (o : Nat) (x : ShmObject) (s : State) : State :=
  { s with objects := Function.update s.objects o x }

def place (i : Nat) (w : Instance) (s : State) : State :=
  { s with instances := s.instances.set i w }

def Instance.crash (pid : Nat) (w : Instance) : Instance :=
  if w.pid = pid then { w with pos := .crashed (counts w.pos) } else w

/-- An object is mapped in whole pages. -/
def mappedBytes (o : ShmObject) : Nat := (o.size + pageSize - 1) / pageSize * pageSize

/-- An access to the first bytes of shared_region_, beyond the last page of the object, ends the
    process. -/
def access (bytes : Nat) (w : Instance) (s t : State) : State :=
  if bytes ≤ mappedBytes (s.objects w.region) then t
  else { s with instances := s.instances.map (Instance.crash w.pid) }

def advance (layout : Layout) (i : Nat) (w : Instance) (s : State) : InstancePos → Option State
  | .opening =>
    match s.names regionName with
    | some o => some (place i { w with region := o, pos := .mapping } s)
    | none => some (place i { w with pos := .creating } s)
  | .creating =>
    let opened := shmCreate regionName s
    some (place i { w with region := opened.2, isCreate := true, pos := .truncating } opened.1)
  | .truncating =>
    let region := ftruncate layout.bytes (s.objects w.region)
    some (place i { w with pos := .mapping } (writeObject w.region region s))
  | .mapping => some (place i { w with pos := .openingUser } s)
  | .openingUser =>
    match s.names w.shmName with
    | some o => some (place i { w with user := o, pos := .mappingUser } s)
    | none => some (place i { w with pos := .creatingUser } s)
  | .creatingUser =>
    let opened := shmCreate w.shmName s
    some (place i { w with user := opened.2, pos := .truncatingUser } opened.1)
  | .truncatingUser =>
    let user := ftruncate w.extraSize (s.objects w.user)
    some (place i { w with pos := .mappingUser } (writeObject w.user user s))
  | .mappingUser => some (place i { w with pos := if w.isCreate then .entering else .waiting 0 } s)
  | .entering =>
    if s.entered w.pid then some (place i { w with pos := .registering } s)
    else
      let region := s.objects w.region
      let region := { region with begun := region.begun + 1 }
      some (place i { w with pos := .clearing }
        { writeObject w.region region s with entered := Function.update s.entered w.pid true })
  | .clearing => some (access layout.bytes w s (place i { w with pos := .resetting } s))
  | .resetting =>
    let region := s.objects w.region
    let region := { region with initialized := 0, inits := region.inits + 1 }
    some (access 4 w s
      (place i { w with pos := .registering } (writeObject w.region region s)))
  | .waiting polls =>
    if polls < timeoutMs then
      let pos := if (s.objects w.region).initialized = 0 then .waiting (polls + 1) else .registering
      some (access 4 w s (place i { w with pos } s))
    else some (place i { w with pos := .registering } s)
  | .registering =>
    let region := s.objects w.region
    let initialized := (region.initialized + 1) % 2 ^ 32
    let region := { region with initialized, locks := region.locks + 1 }
    some (access (4 + layout.tables .registering) w s
      (place i { w with pos := .live } (writeObject w.region region s)))
  | .live =>
    let region := s.objects w.region
    let region := { region with locks := region.locks + 1 }
    some (access (4 + layout.tables .live) w s
      (place i { w with pos := .leaving } (writeObject w.region region s)))
  | .leaving =>
    let region := s.objects w.region
    let initialized := (region.initialized + 2 ^ 32 - 1) % 2 ^ 32
    let region := { region with initialized, locks := region.locks + 1 }
    some (access (4 + layout.tables .leaving) w s
      (place i { w with pos := .unmapping (decide (initialized = 0)) }
        (writeObject w.region region s)))
  | .unmapping isUnlink =>
    some (place i { w with pos := if isUnlink then .unlinkingUser else .destroyed } s)
  | .unlinkingUser => some (place i { w with pos := .unlinking } (shmUnlink w.shmName s))
  | .unlinking => some (place i { w with pos := .destroyed } (shmUnlink regionName s))
  | .destroyed => none
  | .crashed _ => none

inductive Action where
  | construct (pid : Nat) (shmName : String) (extraSize : Nat)
  | advance (i : Nat)
  deriving DecidableEq, Repr

def step (layout : Layout) (s : State) : Action → Option State
  | .construct pid shmName extraSize =>
    if s.instances.any fun w => decide (w.pid = pid) && w.pos matches .crashed _ then none
    else
      let extraSize := if extraSize = 0 then defaultExtraSize else extraSize
      some { s with instances := s.instances ++ [{ pid, shmName, extraSize }] }
  | .advance i => s.instances[i]?.bind fun w => advance layout i w s w.pos

def initial : State where
  names := fun _ => none
  objects := fun _ => newObject ""
  made := 0
  entered := fun _ => false
  instances := []

def machine (layout : Layout) : Machine State Action where
  init s := s = initial
  step := step layout

def smallLayout : Layout := ⟨100, fun _ => 100⟩

def lockedWith (initialized : Nat) (o : ShmObject) : ShmObject :=
  { o with initialized, locks := o.locks + 1 }

inductive Advanced (layout : Layout) (i : Nat) (w : Instance) (s : State) : State → Prop where
  | found {o : Nat} (here : w.pos = .opening) (bound : s.names regionName = some o) :
      Advanced layout i w s (place i { w with region := o, pos := .mapping } s)
  | missing (here : w.pos = .opening) (unbound : s.names regionName = none) :
      Advanced layout i w s (place i { w with pos := .creating } s)
  | shared {o : Nat} (here : w.pos = .creating) (bound : s.names regionName = some o) :
      Advanced layout i w s (place i { w with region := o, isCreate := true, pos := .truncating } s)
  | created (here : w.pos = .creating) (unbound : s.names regionName = none) :
      Advanced layout i w s (place i { w with region := s.made, isCreate := true, pos := .truncating }
        (newlyNamed regionName s))
  | truncated (here : w.pos = .truncating) :
      Advanced layout i w s (place i { w with pos := .mapping }
        (writeObject w.region (ftruncate layout.bytes (s.objects w.region)) s))
  | mapped (here : w.pos = .mapping) :
      Advanced layout i w s (place i { w with pos := .openingUser } s)
  | foundUser {o : Nat} (here : w.pos = .openingUser) (bound : s.names w.shmName = some o) :
      Advanced layout i w s (place i { w with user := o, pos := .mappingUser } s)
  | missingUser (here : w.pos = .openingUser) (unbound : s.names w.shmName = none) :
      Advanced layout i w s (place i { w with pos := .creatingUser } s)
  | sharedUser {o : Nat} (here : w.pos = .creatingUser) (bound : s.names w.shmName = some o) :
      Advanced layout i w s (place i { w with user := o, pos := .truncatingUser } s)
  | createdUser (here : w.pos = .creatingUser) (unbound : s.names w.shmName = none) :
      Advanced layout i w s (place i { w with user := s.made, pos := .truncatingUser }
        (newlyNamed w.shmName s))
  | truncatedUser (here : w.pos = .truncatingUser) :
      Advanced layout i w s (place i { w with pos := .mappingUser }
        (writeObject w.user (ftruncate w.extraSize (s.objects w.user)) s))
  | mappedUser (here : w.pos = .mappingUser) :
      Advanced layout i w s
        (place i { w with pos := if w.isCreate then .entering else .waiting 0 } s)
  | skipped (here : w.pos = .entering) (again : s.entered w.pid = true) :
      Advanced layout i w s (place i { w with pos := .registering } s)
  | entered (here : w.pos = .entering) (first : s.entered w.pid = false) :
      Advanced layout i w s (place i { w with pos := .clearing }
        { writeObject w.region
            { s.objects w.region with begun := (s.objects w.region).begun + 1 } s with
          entered := Function.update s.entered w.pid true })
  | cleared (here : w.pos = .clearing) :
      Advanced layout i w s (place i { w with pos := .resetting } s)
  | reset (here : w.pos = .resetting) :
      Advanced layout i w s (place i { w with pos := .registering } (writeObject w.region
        { s.objects w.region with initialized := 0, inits := (s.objects w.region).inits + 1 } s))
  | polled {polls : Nat} (here : w.pos = .waiting polls) (early : polls < timeoutMs)
      (zero : (s.objects w.region).initialized = 0) :
      Advanced layout i w s (place i { w with pos := .waiting (polls + 1) } s)
  | ready {polls : Nat} (here : w.pos = .waiting polls)
      (counted : (s.objects w.region).initialized ≠ 0) :
      Advanced layout i w s (place i { w with pos := .registering } s)
  | timedOut {polls : Nat} (here : w.pos = .waiting polls) (late : ¬ polls < timeoutMs) :
      Advanced layout i w s (place i { w with pos := .registering } s)
  | registered (here : w.pos = .registering) :
      Advanced layout i w s (place i { w with pos := .live } (writeObject w.region
        (lockedWith (((s.objects w.region).initialized + 1) % 2 ^ 32) (s.objects w.region)) s))
  | began (here : w.pos = .live) :
      Advanced layout i w s (place i { w with pos := .leaving } (writeObject w.region
        (lockedWith (s.objects w.region).initialized (s.objects w.region)) s))
  | released {initialized : Nat} (here : w.pos = .leaving)
      (down : initialized = ((s.objects w.region).initialized + 2 ^ 32 - 1) % 2 ^ 32) :
      Advanced layout i w s (place i { w with pos := .unmapping (decide (initialized = 0)) }
        (writeObject w.region (lockedWith initialized (s.objects w.region)) s))
  | unmapped {isUnlink : Bool} (here : w.pos = .unmapping isUnlink) :
      Advanced layout i w s
        (place i { w with pos := if isUnlink then .unlinkingUser else .destroyed } s)
  | unlinkedUser (here : w.pos = .unlinkingUser) :
      Advanced layout i w s (place i { w with pos := .unlinking } (shmUnlink w.shmName s))
  | unlinked (here : w.pos = .unlinking) :
      Advanced layout i w s (place i { w with pos := .destroyed } (shmUnlink regionName s))
  | crashed :
      Advanced layout i w s { s with instances := s.instances.map (Instance.crash w.pid) }

theorem access_advanced {layout : Layout} {i bytes : Nat} {w : Instance} {s t u : State}
    (reaches : Advanced layout i w s t) (accessed : some (access bytes w s t) = some u) :
    Advanced layout i w s u := by
  simp only [Option.some.injEq] at accessed
  unfold access at accessed
  split at accessed
  · exact accessed ▸ reaches
  · exact accessed ▸ .crashed

theorem advance_advanced {layout : Layout} {i : Nat} {w : Instance} {s t : State}
    (moved : advance layout i w s w.pos = some t) : Advanced layout i w s t := by
  generalize here : w.pos = pos at moved
  cases pos with
  | opening =>
    simp only [advance] at moved
    split at moved
    · rename_i o bound
      exact Option.some.inj moved ▸ .found here bound
    · rename_i unbound
      exact Option.some.inj moved ▸ .missing here unbound
  | creating =>
    simp only [advance, shmCreate] at moved
    split at moved
    · rename_i o bound
      exact Option.some.inj moved ▸ .shared here bound
    · rename_i unbound
      exact Option.some.inj moved ▸ .created here unbound
  | truncating => exact Option.some.inj moved ▸ .truncated here
  | mapping => exact Option.some.inj moved ▸ .mapped here
  | openingUser =>
    simp only [advance] at moved
    split at moved
    · rename_i o bound
      exact Option.some.inj moved ▸ .foundUser here bound
    · rename_i unbound
      exact Option.some.inj moved ▸ .missingUser here unbound
  | creatingUser =>
    simp only [advance, shmCreate] at moved
    split at moved
    · rename_i o bound
      exact Option.some.inj moved ▸ .sharedUser here bound
    · rename_i unbound
      exact Option.some.inj moved ▸ .createdUser here unbound
  | truncatingUser => exact Option.some.inj moved ▸ .truncatedUser here
  | mappingUser => exact Option.some.inj moved ▸ .mappedUser here
  | entering =>
    simp only [advance] at moved
    split at moved
    · rename_i again
      exact Option.some.inj moved ▸ .skipped here again
    · rename_i first
      exact Option.some.inj moved ▸ .entered here (by simpa using first)
  | clearing => exact access_advanced (.cleared here) moved
  | resetting => exact access_advanced (.reset here) moved
  | waiting polls =>
    simp only [advance] at moved
    split at moved
    · rename_i early
      split at moved
      · rename_i zero
        exact access_advanced (.polled here early zero) moved
      · rename_i counted
        exact access_advanced (.ready here counted) moved
    · rename_i late
      exact Option.some.inj moved ▸ .timedOut here late
  | registering => exact access_advanced (.registered here) moved
  | live => exact access_advanced (.began here) moved
  | leaving => exact access_advanced (.released here rfl) moved
  | unmapping isUnlink => exact Option.some.inj moved ▸ .unmapped here
  | unlinkingUser => exact Option.some.inj moved ▸ .unlinkedUser here
  | unlinking => exact Option.some.inj moved ▸ .unlinked here
  | destroyed | crashed => simp [advance] at moved

inductive Stepped (layout : Layout) (s : State) : Action → State → Prop where
  | construct {pid extraSize bytes : Nat} {shmName : String} :
      Stepped layout s (.construct pid shmName extraSize)
        { s with instances := s.instances ++ [⟨pid, shmName, bytes, 0, 0, false, .opening⟩] }
  | advance {i : Nat} {w : Instance} {t : State} (thread : s.instances[i]? = some w)
      (moved : Advanced layout i w s t) : Stepped layout s (.advance i) t

theorem step_stepped {layout : Layout} {s t : State} {a : Action}
    (stepped : (machine layout).step s a = some t) : Stepped layout s a t := by
  change step layout s a = some t at stepped
  cases a with
  | construct pid shmName extraSize =>
    simp only [step] at stepped
    split at stepped
    · simp at stepped
    · exact Option.some.inj stepped ▸ .construct
  | advance i =>
    obtain ⟨w, thread, moved⟩ := Option.bind_eq_some_iff.mp stepped
    exact .advance thread (advance_advanced moved)

theorem mem_place {i : Nat} {w v : Instance} {s : State} (member : v ∈ (place i w s).instances) :
    v = w ∨ v ∈ s.instances := (List.mem_or_eq_of_mem_set member).symm

theorem forall_place {p : Instance → Prop} {i : Nat} {w : Instance} {s : State}
    (others : ∀ v ∈ s.instances, p v) (here : p w) : ∀ v ∈ (place i w s).instances, p v := by
  intro v member
  rcases mem_place member with rfl | old
  · exact here
  · exact others v old

theorem forall_write {p : Nat → ShmObject → Prop} {s : State} {o : Nat} {x : ShmObject}
    (here : p o x) (others : ∀ o', o' ≠ o → p o' (s.objects o')) :
    ∀ o', p o' ((writeObject o x s).objects o') :=
  (Function.forall_update_iff _ p).mpr ⟨here, others⟩

theorem forall_new {p : Nat → ShmObject → Prop} {s : State} {name : String}
    (here : p s.made (newObject name)) (others : ∀ o, o ≠ s.made → p o (s.objects o)) :
    ∀ o, p o ((newlyNamed name s).objects o) :=
  (Function.forall_update_iff _ p).mpr ⟨here, others⟩

theorem crash_cases (pid : Nat) (w : Instance) :
    w.crash pid = w ∨ w.crash pid = { w with pos := .crashed (counts w.pos) } := by
  unfold Instance.crash
  split
  · exact Or.inr rfl
  · exact Or.inl rfl

theorem forall_crash {p : Instance → Prop} {pid : Nat} {l : List Instance}
    (stay : ∀ v ∈ l, p v) (gone : ∀ v ∈ l, p { v with pos := .crashed (counts v.pos) }) :
    ∀ v ∈ l.map (Instance.crash pid), p v := by
  intro v member
  obtain ⟨u, old, rfl⟩ := List.mem_map.mp member
  rcases crash_cases pid u with same | crashed
  · rw [same]
    exact stay u old
  · rw [crashed]
    exact gone u old

end SharedAttach
