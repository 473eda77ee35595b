import FJUtility.SharedMem.Traffic

/- listen_ over every run. _addListen searches it for duplicates while it is unsorted and sorts it
   at its end; the destructor blanks, sorts and splices it; nothing else changes it. -/
namespace SharedListen
open LabelledMachine FixVector SharedRegion SharedSending SharedTables SharedProcesses SharedSteps
  SharedTraffic

def keyOf (m : MailAtom) : Nat × Nat × Nat := (m.obj, m.msg, m.pid)

structure ListenOk (items : List MailAtom) : Prop where
  bounded : items.length ≤ listenMax
  sorted : items.Pairwise fun a b => a.msg ≤ b.msg
  distinct : (items.map keyOf).Nodup

/-- A call of _addListen returns, and what it returns is by how much the table has grown. -/
structure AddsListed (r : Region) : Prop where
  returns : ∀ pid obj list, ∃ result, (addListen pid obj list result r).isSome = true
  grows : ∀ pid obj list result r' n, addListen pid obj list result r = some (r', n) →
    ∃ added, r'.listen.items.Perm (r.listen.items ++ added) ∧ added.length = n

/-- Before its sort, _addListen appends what is not there yet, as far as there is room. -/
theorem addListenFrom_appends (pid obj : Nat) (list : List Nat)
    (listen : FJFixVector MailAtom listenMax) (regi : Nat) :
    ∃ added, (addListenFrom pid obj list listen regi).1.items = listen.items ++ added ∧
      (addListenFrom pid obj list listen regi).2 = regi + added.length := by
  induction list generalizing listen regi with
  | nil => exact ⟨[], by simp [addListenFrom]⟩
  | cons msg rest ih =>
    simp only [addListenFrom]
    split
    · exact ih listen regi
    · have items := pushBack_items listen { msg, obj, pid, payloadIdx := none }
      obtain ⟨added, appended, counted⟩ := ih (pushBack listen { msg, obj, pid, payloadIdx := none }).1
        (if (pushBack listen { msg, obj, pid, payloadIdx := none }).2 then regi + 1 else regi)
      cases pushed : (pushBack listen { msg, obj, pid, payloadIdx := none }).2 with
      | false =>
        simp only [pushed, Bool.false_eq_true, if_false] at items appended counted ⊢
        exact ⟨added, by rw [appended, items], counted⟩
      | true =>
        simp only [pushed, if_true] at items appended counted ⊢
        refine ⟨{ msg, obj, pid, payloadIdx := none } :: added, ?_, ?_⟩
        · rw [appended, items, List.append_assoc, List.singleton_append]
        · rw [counted, List.length_cons]
          omega

theorem addListenFrom_distinct {pid obj : Nat} {list : List Nat}
    {listen : FJFixVector MailAtom listenMax} {regi : Nat}
    (distinct : (listen.items.map keyOf).Nodup) :
    ((addListenFrom pid obj list listen regi).1.items.map keyOf).Nodup := by
  induction list generalizing listen regi with
  | nil => exact distinct
  | cons msg rest ih =>
    simp only [addListenFrom]
    split
    · exact ih distinct
    · rename_i fresh
      apply ih
      have items := pushBack_items listen { msg, obj, pid, payloadIdx := none }
      rw [items]
      split
      · rw [List.map_append, List.nodup_append]
        refine ⟨distinct, by simp, ?_⟩
        intro key old key' new same
        obtain ⟨m, member, rfl⟩ := List.mem_map.mp old
        have is_new : keyOf m = (obj, msg, pid) := same.trans (List.mem_singleton.mp new)
        simp only [keyOf, Prod.mk.injEq] at is_new
        apply fresh
        rw [List.any_eq_true]
        exact ⟨m, member, by simp [is_new]⟩
      · exact distinct

theorem addListen_grows {pid obj n : Nat} {list : List Nat} {result : List MailAtom} {r r' : Region}
    (added : addListen pid obj list result r = some (r', n)) :
    ∃ new, r'.listen.items.Perm (r.listen.items ++ new) ∧ new.length = n := by
  have left := addListen_sorted added
  obtain ⟨new, appended, counted⟩ := addListenFrom_appends pid obj list r.listen 0
  rw [Nat.zero_add] at counted
  exact ⟨new, appended ▸ left.sorted.1, (left.counted.trans counted).symm⟩

theorem addListen_total (pid obj : Nat) (list : List Nat) (r : Region) :
    ∃ result, (addListen pid obj list result r).isSome = true := by
  obtain ⟨result, listen, sorted⟩ :=
    sort_total MailAtom.msg (addListenFrom pid obj list r.listen 0).1
  exact ⟨result, by simp [addListen, sorted]⟩

theorem addsListed (r : Region) : AddsListed r where
  returns pid obj list := addListen_total pid obj list r
  grows _ _ _ _ _ _ added := addListen_grows added

theorem addListen_ok {pid obj n : Nat} {list : List Nat} {result : List MailAtom} {r r' : Region}
    (ok : ListenOk r.listen.items) (added : addListen pid obj list result r = some (r', n)) :
    ListenOk r'.listen.items := by
  have permuted := (addListen_sorted added).sorted
  constructor
  · exact r'.listen.bounded
  · exact permuted.2
  · have distinct : ((addListenFrom pid obj list r.listen 0).1.items.map keyOf).Nodup :=
      addListenFrom_distinct ok.distinct
    exact (permuted.1.map keyOf).nodup_iff.mpr distinct

theorem purgeTable_ok {addr : Nat} {result : List MailAtom} {v w : FJFixVector MailAtom listenMax}
    (ok : ListenOk v.items) (purged : purgeTable addr result v = some w) : ListenOk w.items := by
  constructor
  · exact w.bounded
  · exact (cleanUp_items purged).2
  · have left := (purgeTable_items purged).map keyOf
    exact left.nodup_iff.mpr (ok.distinct.sublist (List.filter_sublist.map keyOf))

def registration (s : State) : Action → Option (Nat × Nat × List Nat)
  | .construct pid addr list _ => some (pid, addr, list)
  | .addListenScalar pid self obj msg _ =>
    if s.instances pid self = .live true ∧ obj ≠ 0 ∧ msg ≠ 0 then some (pid, obj, [msg]) else none
  | .addListenList pid self obj list _ =>
    if s.instances pid self = .live true ∧ obj ≠ 0 then some (pid, obj, list) else none
  | _ => none

inductive ListenStep (s : State) (a : Action) (listen : FJFixVector MailAtom listenMax) : Prop where
  | same (kept : listen = s.region.listen)
  | added {pid obj n : Nat} {list : List Nat} {result : List MailAtom} {r : Region}
      (registers : registration s a = some (pid, obj, list))
      (entered : addListen pid obj list result s.region = some (r, n)) (listed : listen = r.listen)
  | purged {addr : Nat} {result : List MailAtom}
      (left : purgeTable addr result s.region.listen = some listen)

theorem construct_listen {capacity pid addr : Nat} {list : List Nat} {result : List MailAtom}
    {s t : State} (constructed : construct capacity pid addr list result s = some t) :
    ∃ r n, addListen pid addr list result s.region = some (r, n) ∧ t.region.listen = r.listen := by
  cases construct_built constructed with
  | plain added | needing added => exact ⟨_, _, added, rfl⟩

theorem moved_listen {i : Nat} {w : WorkerThread} {act : WorkerAct} {s t : State}
    (moved : WorkerMoved i w s act t) : t.region.listen = s.region.listen := by
  cases moved with
  | @drain result locals region here free drained =>
    have listen : region.listen = s.region.listen := by rw [(drain_drained drained).tables]
    exact listen
  | mark here free => exact (markMail_traffic _ _ _).1
  | _ => rfl

theorem destroyPurge_listen {pid addr : Nat} {needworker : Bool}
    {queueResult listenResult : List MailAtom} {s t : State} {a : Action}
    (purged : destroyPurge pid addr needworker queueResult listenResult s = some t) :
    ListenStep s a t.region.listen := by
  cases destroyPurge_purges purged with
  | purged tables counted => exact .purged (purge_tables tables).2.1
  | plain counted => exact .same rfl

theorem addListenLocked_listen {pid obj : Nat} {needworker : Bool} {list : List Nat}
    {result : List MailAtom} {s t : State} {a : Action}
    (registers : needworker = true → registration s a = some (pid, obj, list))
    (entered : addListenLocked pid obj needworker list result s = some t) :
    ListenStep s a t.region.listen := by
  rcases addListenLocked_cases entered with rfl | ⟨needs, region, n, added, rfl⟩
  · exact .same rfl
  · exact .added (registers needs) added rfl

theorem step_listen {capacity : Nat} {s t : State} {a : Action}
    (move : (machine capacity).step s a = some t) : ListenStep s a t.region.listen := by
  have stepped := step_stepped move
  change step capacity s a = some t at move
  cases a with
  | construct pid addr list result =>
    simp only [step] at move
    split at move
    · obtain ⟨r, n, added, listed⟩ := construct_listen (of_locked move).2
      exact .added rfl added listed
    · simp at move
  | addListenScalar pid self obj msg result =>
    simp only [step] at move
    split at move
    · rename_i needworker live
      split at move
      · exact .same (Option.some.inj move ▸ rfl)
      · rename_i valid
        apply addListenLocked_listen _ (of_locked move).2
        rintro rfl
        exact if_pos ⟨live, not_or.mp valid⟩
    · simp at move
  | addListenList pid self obj list result =>
    simp only [step] at move
    split at move
    · rename_i needworker live
      split at move
      · exact .same (Option.some.inj move ▸ rfl)
      · rename_i valid
        apply addListenLocked_listen _ (of_locked move).2
        rintro rfl
        exact if_pos ⟨live, valid⟩
    · simp at move
  | destroyPurge pid addr queueResult listenResult =>
    simp only [step] at move
    split at move
    · exact destroyPurge_listen (of_locked move).2
    · simp at move
  | notify self n clock =>
    cases stepped with
    | notify => exact .same (notify_same n clock s.region s.sent).listen
  | broadcast =>
    cases stepped with
    | broadcast user rounded => cases rounded <;> exact .same rfl
  | profileAndGC now gcAfterMs =>
    cases stepped with
    | collect => exact .same rfl
  | destroyBegin pid addr =>
    cases stepped with
    | destroyBegin live free begun => cases begun <;> exact .same rfl
  | destroySignal =>
    cases stepped with
    | destroySignal => exact .same rfl
  | destroyPoll =>
    cases stepped with
    | destroyPoll user polled => cases polled <;> exact .same rfl
  | destroyReturn pid addr =>
    cases stepped with
    | destroyReturn => exact .same rfl
  | worker i act =>
    cases stepped with
    | worker thread moved => exact .same (moved_listen moved)

theorem step_ok {s : State} {a : Action} {listen : FJFixVector MailAtom listenMax}
    (ok : ListenOk s.region.listen.items) (changed : ListenStep s a listen) :
    ListenOk listen.items := by
  cases changed with
  | same kept => exact kept ▸ ok
  | added registers entered listed => exact listed ▸ addListen_ok ok entered
  | purged left => exact purgeTable_ok ok left

theorem initial_ok (protbl : Nat → FixMap.Entry ProAtom) (payload : Nat → PayloadAtom) :
    ListenOk (initial protbl payload).region.listen.items :=
  ⟨Nat.zero_le _, .nil, .nil⟩

/-- listen_ is sorted and free of duplicates between any two sections, and _addListen counts by how
    much it grows. -/
theorem listen_table {capacity : Nat} {s : State} (reached : (machine capacity).Reachable s) :
    ListenOk s.region.listen.items ∧ AddsListed s.region := by
  constructor
  · apply invariant_of_steps (fun s => ListenOk s.region.listen.items) _ _ reached
    · rintro s ⟨protbl, payload, rfl⟩
      exact initial_ok protbl payload
    · intro s a t ok _ move
      exact step_ok ok (step_listen move)
  · exact addsListed s.region

def listsWithRepeats : List Action :=
  [.construct 5 100 [9, 7, 9] [⟨7, 100, 5, none, 0⟩, ⟨9, 100, 5, none, 0⟩],
    .construct 5 101 [8, 8] [⟨7, 100, 5, none, 0⟩, ⟨8, 101, 5, none, 0⟩, ⟨9, 100, 5, none, 0⟩],
    .addListenList 5 100 100 [7, 6] [⟨6, 100, 5, none, 0⟩, ⟨7, 100, 5, none, 0⟩,
      ⟨8, 101, 5, none, 0⟩, ⟨9, 100, 5, none, 0⟩],
    .destroyBegin 5 101,
    .destroyPurge 5 101 [] [mailAtomInit, ⟨6, 100, 5, none, 0⟩, ⟨7, 100, 5, none, 0⟩,
      ⟨9, 100, 5, none, 0⟩]]

theorem lists_with_repeats_ok : ∃ s, (machine 22).run zeroed listsWithRepeats = some s ∧
    ListenOk s.region.listen.items ∧ AddsListed s.region := by
  obtain ⟨s, executed, reached⟩ := run_ends (m := machine 22) (s := zeroed) listsWithRepeats
    (zeroed_initial 22) (by decide +kernel)
  exact ⟨s, executed, listen_table reached⟩

end SharedListen
