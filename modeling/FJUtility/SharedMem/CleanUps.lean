import Mathlib.Data.List.Dedup
import FJUtility.SharedMem.ListenTable
import FJUtility.SharedMem.MailGuarantees

/- What the clean-ups of queue_ and listen_ take besides what they are for: the destructor blanks by
   obj_ alone, and both clean-ups drop every mail whose msg_ is 0. -/
namespace SharedCleanUps
open LabelledMachine FixVector SharedRegion SharedSending SharedTables SharedProcesses SharedSteps
open SharedGuarantees SharedListen SharedTraffic

def isOwn (pid addr : Nat) (m : MailAtom) : Bool := decide (m.obj = addr) && decide (m.pid = pid)

/-- The second section of a destructor takes the entries of its own instance and no others. -/
structure PurgesOwn (pid addr : Nat) (r r' : Region) : Prop where
  listen : r'.listen.items.Perm (r.listen.items.filter fun m => !isOwn pid addr m)
  queue : r'.queue.items.Perm (r.queue.items.filter fun m => !isOwn pid addr m)

def sameAddressElsewhere : List Action :=
  [.construct 5 100 [7] [entrySeven], .construct 5 101 [8] [entrySeven, entryEight],
    .construct 6 100 [9] [entrySeven, entryEight, ⟨9, 100, 6, none, 0⟩], .destroyBegin 5 100]

theorem same_address_elsewhere_purged :
    ¬ ∀ (s t : State) (pid addr : Nat) (queueResult listenResult : List MailAtom),
      (machine 22).Reachable s →
      (machine 22).step s (.destroyPurge pid addr queueResult listenResult) = some t →
      PurgesOwn pid addr s.region t.region := by
  intro always
  have purges : ((machine 22).run zeroed sameAddressElsewhere).any (fun s : State =>
      decide (s.region.listen.items = [entrySeven, entryEight, ⟨9, 100, 6, none, 0⟩]) &&
      ((machine 22).step s (.destroyPurge 5 100 [] [mailAtomInit, mailAtomInit, entryEight])).any
        fun t : State => decide (t.region.listen.items = [entryEight])) = true := by decide +kernel
  obtain ⟨s, reached, shown⟩ := run_shows (m := machine 22) sameAddressElsewhere
    (zeroed_initial 22) _ purges
  simp only [Bool.and_eq_true, decide_eq_true_eq, Option.any_eq_true] at shown
  obtain ⟨before, t, move, after⟩ := shown
  have own := (always s t 5 100 _ _ reached move).listen.length_eq
  rw [before, after] at own
  exact absurd own (by decide)

/-- Every entry at the address is the instance's own, and no other one is blank; without a worker the
    destructor takes nothing, and there has to be nothing to take. -/
def StandsAlone (pid addr : Nat) (s : State) : Prop :=
  ∀ m ∈ s.region.listen.items ++ s.region.queue.items,
    if s.instances pid addr = .purging true then
      (m.obj = addr → m.pid = pid) ∧ (m.obj ≠ addr → m.msg ≠ 0)
    else isOwn pid addr m = false

theorem perm_filter_iff {α : Type} {p q : α → Bool} {items items' : List α}
    (left : items'.Perm (items.filter p)) :
    items'.Perm (items.filter q) ↔ ∀ x ∈ items, p x = q x := by
  constructor
  · intro right x member
    have both : x ∈ items.filter p ↔ x ∈ items.filter q := (left.symm.trans right).mem_iff
    simp only [List.mem_filter, member, true_and] at both
    exact Bool.eq_iff_iff.mpr both
  · intro same
    rw [← List.filter_congr same]
    exact left

theorem spared_iff (pid addr : Nat) (m : MailAtom) :
    (decide (m.msg ≠ 0) && !isObj addr m) = (!isOwn pid addr m) ↔
      (m.obj = addr → m.pid = pid) ∧ (m.obj ≠ addr → m.msg ≠ 0) := by
  by_cases here : m.obj = addr
  · by_cases own : m.pid = pid
    · simp [isObj, isOwn, here, own]
    · simp [isObj, isOwn, here, own]
  · by_cases blank : m.msg = 0
    · simp [isObj, isOwn, here, blank]
    · simp [isObj, isOwn, here, blank]

theorem purgesOwn_iff {pid addr : Nat} {r r' : Region} : PurgesOwn pid addr r r' ↔
    r'.listen.items.Perm (r.listen.items.filter fun m => !isOwn pid addr m) ∧
      r'.queue.items.Perm (r.queue.items.filter fun m => !isOwn pid addr m) :=
  ⟨fun own => ⟨own.listen, own.queue⟩, fun both => ⟨both.1, both.2⟩⟩

/-- The destructor takes exactly what is its own when, and only when, it stands alone. -/
theorem purge_own_iff {capacity pid addr : Nat} {queueResult listenResult : List MailAtom}
    {s t : State}
    (move : (machine capacity).step s (.destroyPurge pid addr queueResult listenResult) = some t) :
    PurgesOwn pid addr s.region t.region ↔ StandsAlone pid addr s := by
  cases step_stepped move with
  | destroyPurge leaving free left =>
    rw [purgesOwn_iff, StandsAlone, List.forall_mem_append, leaving]
    cases left with
    | purged tables counted =>
      simp only [if_true]
      rw [perm_filter_iff tables.listen, perm_filter_iff tables.queue]
      simp only [spared_iff]
    | plain counted =>
      have kept : ∀ items : List MailAtom, items.Perm (items.filter fun _ => true) := by
        intro items
        rw [List.filter_true]
      simp only [InstStatus.purging.injEq, Bool.false_eq_true, if_false]
      rw [perm_filter_iff (kept _), perm_filter_iff (kept _)]
      simp

def otherAddressElsewhere : List Action :=
  [.construct 5 100 [7] [entrySeven], .construct 5 101 [8] [entrySeven, entryEight],
    .construct 6 200 [9] [entrySeven, entryEight, ⟨9, 200, 6, none, 0⟩], .destroyBegin 5 100]

theorem other_address_elsewhere_kept : ∃ s t, (machine 22).run zeroed otherAddressElsewhere = some s ∧
    (machine 22).step s (.destroyPurge 5 100 []
      [mailAtomInit, entryEight, ⟨9, 200, 6, none, 0⟩]) = some t ∧
    (PurgesOwn 5 100 s.region t.region ↔ StandsAlone 5 100 s) ∧ StandsAlone 5 100 s := by
  have purges : ((machine 22).run zeroed otherAddressElsewhere).any (fun s : State =>
      decide (s.region.listen.items = [entrySeven, entryEight, ⟨9, 200, 6, none, 0⟩]) &&
      decide (s.region.queue.items = []) && decide (s.instances 5 100 = .purging true) &&
      ((machine 22).step s (.destroyPurge 5 100 []
        [mailAtomInit, entryEight, ⟨9, 200, 6, none, 0⟩])).isSome) = true := by decide +kernel
  obtain ⟨s, executed, shown⟩ := (Option.any_eq_true ..).mp purges
  simp only [Bool.and_eq_true, decide_eq_true_eq] at shown
  obtain ⟨⟨⟨listen, queue⟩, leaving⟩, moves⟩ := shown
  obtain ⟨t, move⟩ := Option.isSome_iff_exists.mp moves
  refine ⟨s, t, executed, move, purge_own_iff move, ?_⟩
  simp [StandsAlone, listen, queue, leaving, entrySeven, entryEight]

structure NoBlank (r : Region) : Prop where
  listen : ∀ m ∈ r.listen.items, m.msg ≠ 0
  queue : ∀ m ∈ r.queue.items, m.msg ≠ 0

/-- The clean-ups drop what they are for, and nothing as a blank. -/
structure DropsNone (r : Region) : Prop where
  drains : ∀ pid result locals r', drain pid result r = some (locals, r') →
    r'.queue.items.Perm (r.queue.items.filter fun m => !isMine pid m)
  purges : ∀ addr queueResult listenResult r', purge addr queueResult listenResult r = some r' →
    r'.queue.items.Perm (r.queue.items.filter fun m => !isObj addr m) ∧
      r'.listen.items.Perm (r.listen.items.filter fun m => !isObj addr m)

def zeroInList : List Action := [.construct 5 100 [0] [⟨0, 100, 5, none, 0⟩]]

theorem zero_in_list_stored :
    ¬ ∀ s, (machine 22).Reachable s → NoBlank s.region ∧ DropsNone s.region := by
  intro always
  obtain ⟨s, reached, shown⟩ := run_shows (m := machine 22) zeroInList (zeroed_initial 22)
    (fun s : State => decide (⟨0, 100, 5, none, 0⟩ ∈ s.region.listen.items)) (by decide +kernel)
  exact (always s reached).1.listen _ (of_decide_eq_true shown) rfl

def isListed (pid obj msg : Nat) (items : List MailAtom) : Bool :=
  items.any fun target => target.obj == obj && target.msg == msg && target.pid == pid

/-- The messages before the first 0 of a list that take a place in listen_. -/
def placed (pid obj : Nat) (list : List Nat) (items : List MailAtom) : List Nat :=
  (list.takeWhile fun msg => decide (msg ≠ 0)).dedup.filter fun msg => !isListed pid obj msg items

def storesBlank (s : State) (a : Action) : Bool :=
  match registration s a with
  | some (pid, obj, list) =>
    let items := s.region.listen.items
    decide (0 ∈ list) && decide (items.length + (placed pid obj list items).length < listenMax)
  | none => false

def NoZeroListed (s : State) (a : Action) : Prop := storesBlank s a = false

instance (s : State) (a : Action) : Decidable (NoZeroListed s a) :=
  inferInstanceAs (Decidable (_ = _))

theorem noBlank_drops {r : Region} (noBlank : NoBlank r) : DropsNone r := by
  have spared : ∀ {items : List MailAtom} (hit : MailAtom → Bool), (∀ m ∈ items, m.msg ≠ 0) →
      (items.filter fun m => decide (m.msg ≠ 0) && !hit m) = items.filter fun m => !hit m := by
    intro items hit full
    apply List.filter_congr
    intro m member
    simp [full m member]
  constructor
  · intro pid result locals r' drained
    have left := (drain_drained drained).left
    rwa [spared _ noBlank.queue] at left
  · intro addr queueResult listenResult r' purged
    obtain ⟨queue, listen, _⟩ := purge_purged purged
    rw [spared _ noBlank.queue] at queue
    rw [spared _ noBlank.listen] at listen
    exact ⟨queue, listen⟩

theorem mem_placed {pid obj x : Nat} {list : List Nat} {items : List MailAtom} :
    x ∈ placed pid obj list items ↔
      x ∈ list.takeWhile (fun msg => decide (msg ≠ 0)) ∧ isListed pid obj x items = false := by
  simp [placed, List.mem_filter, List.mem_dedup]

theorem placed_nodup (pid obj : Nat) (list : List Nat) (items : List MailAtom) :
    (placed pid obj list items).Nodup :=
  (List.nodup_dedup _).filter _

theorem placed_split {pid obj msg x : Nat} {rest : List Nat} {items : List MailAtom}
    (member : x ∈ placed pid obj (msg :: rest) items) :
    isListed pid obj x items = false ∧ (x = msg ∨ x ∈ placed pid obj rest items) := by
  obtain ⟨before, fresh⟩ := mem_placed.mp member
  rw [List.takeWhile_cons] at before
  split at before
  · rcases List.mem_cons.mp before with same | later
    · exact ⟨fresh, Or.inl same⟩
    · exact ⟨fresh, Or.inr (mem_placed.mpr ⟨later, fresh⟩)⟩
  · simp at before

theorem placed_listed {pid obj msg : Nat} {items : List MailAtom}
    (listed : isListed pid obj msg items = true) (rest : List Nat) :
    (placed pid obj (msg :: rest) items).length ≤ (placed pid obj rest items).length := by
  apply (placed_nodup pid obj (msg :: rest) items).length_le_of_subset
  intro x member
  obtain ⟨fresh, rfl | later⟩ := placed_split member
  · exact absurd (listed.symm.trans fresh) (by simp)
  · exact later

theorem placed_fresh (pid obj msg : Nat) (rest : List Nat) (items : List MailAtom) :
    (placed pid obj (msg :: rest) items).length ≤
      (msg :: placed pid obj rest (items ++ [{ msg, obj, pid, payloadIdx := none }])).length := by
  apply (placed_nodup pid obj (msg :: rest) items).length_le_of_subset
  intro x member
  obtain ⟨fresh, same | later⟩ := placed_split member
  · exact same ▸ List.mem_cons_self ..
  · by_cases same : x = msg
    · exact same ▸ List.mem_cons_self ..
    · refine List.mem_cons_of_mem _ (mem_placed.mpr ⟨(mem_placed.mp later).1, ?_⟩)
      rw [isListed, List.any_append, List.any_cons, List.any_nil]
      rw [isListed] at fresh
      simp [fresh, Ne.symm same]

theorem addListenFrom_full {pid obj : Nat} {list : List Nat}
    {listen : FJFixVector MailAtom listenMax} {regi : Nat}
    (full : listenMax ≤ listen.items.length) :
    (addListenFrom pid obj list listen regi).1.items = listen.items := by
  induction list generalizing listen regi with
  | nil => rfl
  | cons msg rest ih =>
    simp only [addListenFrom]
    split
    · exact ih full
    · have stays : ∀ new : MailAtom, pushBack listen new = (listen, false) :=
        fun new => dif_neg (Nat.not_lt.mpr full)
      rw [stays]
      exact ih full

/-- A 0 in the list is not stored when the messages before it fill the table. -/
theorem addListenFrom_noBlank {pid obj : Nat} {list : List Nat}
    {listen : FJFixVector MailAtom listenMax} {regi : Nat}
    (fills : 0 ∈ list → listenMax ≤ listen.items.length + (placed pid obj list listen.items).length)
    (noBlank : ∀ m ∈ listen.items, m.msg ≠ 0) :
    ∀ m ∈ (addListenFrom pid obj list listen regi).1.items, m.msg ≠ 0 := by
  induction list generalizing listen regi with
  | nil => exact noBlank
  | cons msg rest ih =>
    by_cases zero : msg = 0
    · subst zero
      have none_before : placed pid obj (0 :: rest) listen.items = [] := by
        simp [placed]
      have full := fills (List.mem_cons_self ..)
      rw [none_before, List.length_nil, Nat.add_zero] at full
      rw [addListenFrom_full full]
      exact noBlank
    · simp only [addListenFrom]
      split
      · rename_i listed
        apply ih _ noBlank
        intro later
        have filled := fills (List.mem_cons_of_mem _ later)
        have fewer := placed_listed listed rest
        omega
      · rename_i fresh
        by_cases room : listen.items.length < listenMax
        · have pushed : (pushBack listen { msg, obj, pid, payloadIdx := none }).1.items =
              listen.items ++ [{ msg, obj, pid, payloadIdx := none }] := by
            rw [pushBack_items, pushBack, dif_pos room]
            rfl
          apply ih
          · intro later
            have filled := fills (List.mem_cons_of_mem _ later)
            have fewer := placed_fresh pid obj msg rest listen.items
            rw [List.length_cons] at fewer
            rw [pushed, List.length_append, List.length_singleton]
            omega
          · intro m member
            rw [pushed] at member
            rcases List.mem_append.mp member with old | new
            · exact noBlank m old
            · exact List.mem_singleton.mp new ▸ zero
        · have stays : pushBack listen { msg, obj, pid, payloadIdx := none } = (listen, false) :=
            dif_neg room
          rw [stays]
          apply ih _ noBlank
          intro _
          omega

theorem addListen_noBlank {pid obj n : Nat} {list : List Nat} {result : List MailAtom}
    {r r' : Region} (added : addListen pid obj list result r = some (r', n))
    (fills : 0 ∈ list → listenMax ≤ r.listen.items.length + (placed pid obj list r.listen.items).length)
    (noBlank : ∀ m ∈ r.listen.items, m.msg ≠ 0) : ∀ m ∈ r'.listen.items, m.msg ≠ 0 := by
  intro m member
  have pushed := (addListen_sorted added).sorted.1.mem_iff.mp member
  exact addListenFrom_noBlank fills noBlank m pushed

theorem listen_noBlank {s : State} {a : Action} {listen : FJFixVector MailAtom listenMax}
    (noBlank : ∀ m ∈ s.region.listen.items, m.msg ≠ 0) (allows : NoZeroListed s a)
    (changed : ListenStep s a listen) : ∀ m ∈ listen.items, m.msg ≠ 0 := by
  cases changed with
  | same kept => exact kept ▸ noBlank
  | added registers entered listed =>
    rw [listed]
    apply addListen_noBlank entered _ noBlank
    intro zero
    simpa [NoZeroListed, storesBlank, registers, zero] using allows
  | purged left =>
    intro m member
    exact noBlank m (List.mem_of_mem_filter ((purgeTable_items left).mem_iff.mp member))

theorem notify_msg (n : Notice) (clock : Nat → Int) (r : Region) (sent : List SentRecord) :
    ∀ m ∈ (notify n clock r sent).2.region.queue.items, m ∈ r.queue.items ∨
      ∃ entry ∈ r.listen.items, entry.msg = m.msg := by
  apply notify_preserves n clock r sent (fun st => ∀ m ∈ st.region.queue.items,
    m ∈ r.queue.items ∨ ∃ entry ∈ r.listen.items, entry.msg = m.msg)
  · exact fun _ => Or.inl
  · intro st target allocNow sentNow listed _ _ _ before m member
    cases (sendTo_passed n allocNow sentNow target st).1 with
    | lost queue sent pids msgcount spare =>
      rw [queue] at member
      exact before m member
    | appended new slot mail queue sent pids msgcount loaded =>
      rw [queue, List.mem_append, List.mem_singleton] at member
      rcases member with old | rfl
      · exact before m old
      · right
        refine ⟨target, listed, ?_⟩
        rw [mail]

theorem step_queue_msg {capacity : Nat} {s t : State} {a : Action}
    (stepped : Stepped capacity s a t) {m : MailAtom} (member : m ∈ t.region.queue.items) :
    m ∈ s.region.queue.items ∨ ∃ entry ∈ s.region.listen.items, entry.msg = m.msg := by
  cases stepped with
  | @notify self n clock free fits => exact notify_msg n clock s.region s.sent m member
  | construct object unused free constructed => exact Or.inl (constructed.queue ▸ member)
  | addScalar object free added | addList object free added =>
    rw [(addListen_listed added).1] at member
    exact Or.inl member
  | broadcast user rounded => cases rounded <;> exact Or.inl member
  | destroyBegin live free begun => cases begun <;> exact Or.inl member
  | destroyPoll user polled => cases polled <;> exact Or.inl member
  | destroyPurge leaving free left =>
    cases left with
    | purged tables counted =>
      exact Or.inl (List.mem_of_mem_filter (tables.queue.mem_iff.mp member))
    | plain counted => exact Or.inl member
  | worker thread moved =>
    cases moved with
    | drain here free drained =>
      exact Or.inl (List.mem_of_mem_filter ((drain_drained drained).left.mem_iff.mp member))
    | mark here free =>
      simp only [moveWorker, (markMail_traffic _ _ _).2] at member
      exact Or.inl member
    | _ => exact Or.inl member
  | rejectScalar | rejectList | collect | destroySignal | destroyReturn => exact Or.inl member

theorem step_noBlank {capacity : Nat} {s t : State} {a : Action} (noBlank : NoBlank s.region)
    (allows : NoZeroListed s a) (move : (machine capacity).step s a = some t) :
    NoBlank t.region := by
  constructor
  · exact listen_noBlank noBlank.listen allows (step_listen move)
  · intro m member
    rcases step_queue_msg (step_stepped move) member with old | ⟨entry, listed, same⟩
    · exact noBlank.queue m old
    · exact same ▸ noBlank.listen entry listed

/-- When no list registers for the message 0 while there is room for it, no blank is ever stored,
    and none of the clean-ups drops anything else than it is for. -/
theorem blank_never_stored {capacity : Nat} {s : State}
    (reached : (machine capacity).ReachableBy NoZeroListed s) :
    NoBlank s.region ∧ DropsNone s.region := by
  have noBlank : NoBlank s.region := by
    apply invariant_of_steps (fun s => NoBlank s.region) _ _ reached
    · rintro s ⟨protbl, payload, rfl⟩
      constructor
      · intro m member
        simp [initial, initSharedRegion, empty] at member
      · intro m member
        simp [initial, initSharedRegion, empty] at member
    · intro s a t noBlank allows move
      exact step_noBlank noBlank allows move
  exact ⟨noBlank, noBlank_drops noBlank⟩

def zeroRejected : List Action :=
  [.construct 5 100 [7] [entrySeven], .addListenScalar 5 100 100 0 [],
    .construct 5 101 [8, 7] [entrySeven, ⟨7, 101, 5, none, 0⟩, entryEight],
    .notify 101 ⟨5, 101, 7, none, 0⟩ (fun _ => 0)]

theorem zero_rejected_no_blank : ∃ s, (machine 22).runBy
    (fun s a => decide (NoZeroListed s a)) zeroed zeroRejected = some s ∧
      s.region.queue.items = [⟨7, 100, 5, none, 0⟩] ∧ NoBlank s.region ∧ DropsNone s.region := by
  obtain ⟨s, executed, queued, reached⟩ := guarded_shows (m := machine 22) (s := zeroed)
    NoZeroListed zeroRejected (zeroed_initial 22)
    (fun s : State => decide (s.region.queue.items = [⟨7, 100, 5, none, 0⟩])) (by decide +kernel)
  exact ⟨s, executed, of_decide_eq_true queued, blank_never_stored reached⟩

end SharedCleanUps
