import FJUtility.SharedMem.Region

/- What the drain of the worker, the purge of the destructor and _addListen leave in queue_
   and listen_. -/
namespace SharedTables
open FixVector SharedRegion

/-- Blanking and then dropping the blanks keeps the other mails with msg_ ≠ 0. -/
theorem filter_blanked (hit : MailAtom → Bool) (items : List MailAtom) :
    (items.map fun m => if hit m then mailAtomInit else m).filter (fun m => decide (m.msg ≠ 0)) =
      items.filter fun m => decide (m.msg ≠ 0) && !hit m := by
  induction items with
  | nil => rfl
  | cons m rest ih =>
    simp only [List.map_cons, List.filter_cons, ih]
    cases hit m <;> simp [mailAtomInit]

theorem drainMails_eq (pid : Nat) (items : List MailAtom) :
    drainMails pid items = items.filter (isMine pid) := by
  induction items with
  | nil => rfl
  | cons m rest ih => simp only [drainMails, List.filter_cons, ih]

structure Drained (pid : Nat) (r : Region) (locals : List MailAtom) (r' : Region) : Prop where
  taken : locals = r.queue.items.filter (isMine pid)
  left : r'.queue.items.Perm (r.queue.items.filter fun m => decide (m.msg ≠ 0) && !isMine pid m)
  tables : r' = { r with queue := r'.queue }

theorem drain_drained {pid : Nat} {result locals : List MailAtom} {r r' : Region}
    (drained : drain pid result r = some (locals, r')) : Drained pid r locals r' := by
  unfold drain at drained
  obtain ⟨queue, cleaned, same⟩ := Option.map_eq_some_iff.mp drained
  simp only [Prod.mk.injEq] at same
  obtain ⟨rfl, rfl⟩ := same
  refine ⟨drainMails_eq pid _, ?_, rfl⟩
  have items := (cleanUp_items cleaned).1
  rwa [rewrite, filter_blanked] at items

theorem drain_total {pid : Nat} {result : List MailAtom} (r : Region)
    (sorted : SortOf MailAtom.msg result
      (r.queue.items.map fun m => if isMine pid m then mailAtomInit else m)) :
    ∃ locals r', drain pid result r = some (locals, r') ∧ Drained pid r locals r' := by
  obtain ⟨queue, cleaned, _⟩ := cleanUp_total MailAtom.msg
    (rewrite r.queue fun m => if isMine pid m then mailAtomInit else m) sorted
  have drained : drain pid result r = some (drainMails pid r.queue.items, { r with queue }) := by
    simp only [drain, cleaned, Option.map_some]
  exact ⟨_, _, drained, drain_drained drained⟩

def isObj (addr : Nat) (m : MailAtom) : Bool := decide (m.obj = addr)

theorem purgeTable_items {capacity addr : Nat} {result : List MailAtom}
    {v w : FJFixVector MailAtom capacity} (purged : purgeTable addr result v = some w) :
    w.items.Perm (v.items.filter fun m => decide (m.msg ≠ 0) && !isObj addr m) := by
  have items := (cleanUp_items purged).1
  have same := filter_blanked (isObj addr) v.items
  simp only [isObj, decide_eq_true_eq] at same
  rwa [rewrite, same] at items

theorem purgeTable_total {capacity addr : Nat} {result : List MailAtom}
    (v : FJFixVector MailAtom capacity) (sorted : SortOf MailAtom.msg result
      (v.items.map fun m => if m.obj = addr then mailAtomInit else m)) :
    ∃ w, purgeTable addr result v = some w :=
  have ⟨w, cleaned, _⟩ := cleanUp_total MailAtom.msg
    (rewrite v fun m => if m.obj = addr then mailAtomInit else m) sorted
  ⟨w, cleaned⟩

structure Purged (addr : Nat) (r r' : Region) : Prop where
  queue : r'.queue.items.Perm
    (r.queue.items.filter fun m => decide (m.msg ≠ 0) && !isObj addr m)
  listen : r'.listen.items.Perm
    (r.listen.items.filter fun m => decide (m.msg ≠ 0) && !isObj addr m)
  tables : r' = { r with queue := r'.queue, listen := r'.listen }

theorem purge_tables {addr : Nat} {queueResult listenResult : List MailAtom} {r r' : Region}
    (purged : purge addr queueResult listenResult r = some r') :
    purgeTable addr queueResult r.queue = some r'.queue ∧
      purgeTable addr listenResult r.listen = some r'.listen ∧
        r' = { r with queue := r'.queue, listen := r'.listen } := by
  unfold purge at purged
  obtain ⟨queue, cleaned, rest⟩ := Option.bind_eq_some_iff.mp purged
  obtain ⟨listen, cleaned', rfl⟩ := Option.map_eq_some_iff.mp rest
  exact ⟨cleaned, cleaned', rfl⟩

theorem purge_purged {addr : Nat} {queueResult listenResult : List MailAtom} {r r' : Region}
    (purged : purge addr queueResult listenResult r = some r') : Purged addr r r' := by
  obtain ⟨queue, listen, tables⟩ := purge_tables purged
  exact ⟨purgeTable_items queue, purgeTable_items listen, tables⟩

theorem purge_total {addr : Nat} {queueResult listenResult : List MailAtom} (r : Region)
    (sortedQueue : SortOf MailAtom.msg queueResult
      (r.queue.items.map fun m => if m.obj = addr then mailAtomInit else m))
    (sortedListen : SortOf MailAtom.msg listenResult
      (r.listen.items.map fun m => if m.obj = addr then mailAtomInit else m)) :
    ∃ r', purge addr queueResult listenResult r = some r' ∧ Purged addr r r' := by
  obtain ⟨queue, cleaned⟩ := purgeTable_total r.queue sortedQueue
  obtain ⟨listen, cleaned'⟩ := purgeTable_total r.listen sortedListen
  have purged : purge addr queueResult listenResult r = some { r with queue, listen } := by
    simp only [purge, cleaned, cleaned', Option.bind_some, Option.map_some]
  exact ⟨_, purged, purge_purged purged⟩

theorem addListenFrom_items {pid obj : Nat} {list : List Nat}
    {listen : FJFixVector MailAtom listenMax} {regi : Nat} {m : MailAtom}
    (member : m ∈ (addListenFrom pid obj list listen regi).1.items) :
    m ∈ listen.items ∨ m.obj = obj ∧ m.pid = pid := by
  induction list generalizing listen regi with
  | nil => exact Or.inl member
  | cons msg rest ih =>
    simp only [addListenFrom] at member
    split at member
    · exact ih member
    · have items := pushBack_items listen { msg, obj, pid, payloadIdx := none }
      rcases ih member with old | new
      · rw [items] at old
        split at old
        · rcases List.mem_append.mp old with older | added
          · exact Or.inl older
          · rw [List.mem_singleton.mp added]
            exact Or.inr ⟨rfl, rfl⟩
        · exact Or.inl old
      · exact Or.inr new

structure ListSorted (pid obj : Nat) (list : List Nat) (r r' : Region) (n : Nat) : Prop where
  tables : r' = { r with listen := r'.listen }
  counted : n = (addListenFrom pid obj list r.listen 0).2
  sorted : SortOf MailAtom.msg r'.listen.items (addListenFrom pid obj list r.listen 0).1.items

theorem addListen_sorted {pid obj n : Nat} {list : List Nat} {result : List MailAtom} {r r' : Region}
    (added : addListen pid obj list result r = some (r', n)) :
    ListSorted pid obj list r r' n := by
  unfold addListen at added
  obtain ⟨listen, sorted, same⟩ := Option.map_eq_some_iff.mp added
  simp only [Prod.mk.injEq] at same
  obtain ⟨rfl, rfl⟩ := same
  exact ⟨rfl, rfl, sort_items sorted⟩

theorem addListen_listed {pid obj n : Nat} {list : List Nat} {result : List MailAtom} {r r' : Region}
    (added : addListen pid obj list result r = some (r', n)) :
    r' = { r with listen := r'.listen } ∧
      ∀ m ∈ r'.listen.items, m ∈ r.listen.items ∨ m.obj = obj ∧ m.pid = pid := by
  have left := addListen_sorted added
  constructor
  · exact left.tables
  · intro m member
    exact addListenFrom_items (left.sorted.1.mem_iff.mp member)

end SharedTables
