import FJUtility.SharedMem.Broadcast

/- Whom _notify addresses when the queue and the slots suffice: the listeners that a filter of
   the whole table gives. The sender is told by its address alone, whatever the process. -/
namespace SharedAddressing
open FixVector SharedRegion SharedSending SharedAllocator SharedBroadcast

def targets (n : Notice) (items : List MailAtom) : List MailAtom :=
  items.filter fun m => isFor n m && foreign n m

def bare (m : MailAtom) : MailAtom := { m with payloadIdx := none, tag := 0 }

def Spare (clock : Nat → Int) (payload : Nat → PayloadAtom) (count : Nat) : Prop :=
  ∃ spare : List Nat, spare.Nodup ∧ count ≤ spare.length ∧
    ∀ slot ∈ spare, slot < payloadSlots ∧ ∀ i, qualifies (clock i) (payload slot) = true

structure Room (n : Notice) (clock : Nat → Int) (r : Region) : Prop where
  queue : r.queue.items.length + (targets n r.listen.items).length ≤ queueMax
  slots : 0 < n.size → Spare clock r.payload (targets n r.listen.items).length

theorem spare_found {clock : Nat → Int} {payload : Nat → PayloadAtom} {count : Nat}
    (spare : Spare clock payload (count + 1)) (i : Nat) :
    ¬ ∀ slot < payloadSlots, qualifies (clock i) (payload slot) = false := by
  obtain ⟨slots, _, enough, good⟩ := spare
  obtain ⟨slot, member⟩ := List.exists_mem_of_length_pos (by omega : 0 < slots.length)
  intro none_
  have refused := none_ slot (good slot member).1
  rw [(good slot member).2 i] at refused
  exact Bool.noConfusion refused

theorem spare_used {clock : Nat → Int} {payload : Nat → PayloadAtom} {count : Nat}
    (spare : Spare clock payload (count + 1)) (idx : Nat) (pa : PayloadAtom) :
    Spare clock (Function.update payload idx pa) count := by
  obtain ⟨slots, apart, enough, good⟩ := spare
  refine ⟨slots.erase idx, apart.erase idx, ?_, fun slot member => ?_⟩
  · have := List.length_erase (a := idx) (l := slots)
    split at this <;> omega
  · obtain ⟨other, there⟩ := (apart.mem_erase_iff).mp member
    rw [Function.update_of_ne other]
    exact good slot there

theorem addressed_cons {target : MailAtom} {payloadIdx : Option Nat} {tag : Nat}
    {before grown after : List MailAtom} {others : List MailAtom}
    (first : grown = before ++ [{ target with payloadIdx, tag }])
    (later : ∃ mails, after = grown ++ mails ∧ mails.map bare = others.map bare) :
    ∃ mails, after = before ++ mails ∧ mails.map bare = bare target :: others.map bare := by
  obtain ⟨mails, queue, same⟩ := later
  refine ⟨{ target with payloadIdx, tag } :: mails, ?_, ?_⟩
  · rw [queue, first, List.append_assoc]
    rfl
  · rw [List.map_cons, same]
    rfl

theorem scan_addresses {n : Notice} {clock : Nat → Int} {i : Nat} {items : List MailAtom}
    {st : Sending} (own : ∀ m ∈ items, m.msg = n.msg)
    (queue : st.region.queue.items.length + (items.filter (foreign n)).length ≤ queueMax)
    (slots : 0 < n.size → Spare clock st.region.payload (items.filter (foreign n)).length) :
    ∃ mails, (scan n clock i items st).region.queue.items = st.region.queue.items ++ mails ∧
      mails.map bare = (items.filter (foreign n)).map bare := by
  induction items generalizing i st with
  | nil => exact ⟨[], by simp [scan], rfl⟩
  | cons target rest ih =>
    have later : ∀ m ∈ rest, m.msg = n.msg := fun m member => own m (List.mem_cons_of_mem _ member)
    have addressed : ¬ target.msg ≠ n.msg := not_not.mpr (own target (List.mem_cons_self ..))
    simp only [scan, if_neg addressed]
    by_cases self : target.obj = n.sender
    · have skipped : ¬ foreign n target = true := by simp [foreign, self]
      rw [List.filter_cons_of_neg skipped] at queue slots ⊢
      rw [if_pos self]
      exact ih later queue slots
    · have chosen : foreign n target = true := by simp [foreign, self]
      rw [List.filter_cons_of_pos chosen, List.length_cons] at queue slots
      rw [if_neg self, List.filter_cons_of_pos chosen, List.map_cons]
      have carried := sendTo_carried n (clock (2 * i)) (clock (2 * i + 1)) target st
      generalize sendTo n (clock (2 * i)) (clock (2 * i + 1)) target st = st' at carried
      -- The mail of the head takes one place, and the room left is enough for the rest.
      have fits : ∀ m : MailAtom, st'.region.queue.items = st.region.queue.items ++ [m] →
          st'.region.queue.items.length + (rest.filter (foreign n)).length ≤ queueMax := by
        intro m grown
        rw [grown, List.length_append, List.length_singleton]
        omega
      cases carried with
      | lost same cause =>
        rcases cause with full | ⟨size, none_⟩
        · omega
        · exact absurd none_ (spare_found (slots size) (2 * i))
      | plain tag empty room grown payload =>
        exact addressed_cons grown (ih later (fits _ grown) fun size => by omega)
      | filled tag idx sentNow pa size room within good grown payload =>
        apply addressed_cons grown
        apply ih later (fits _ grown)
        intro _
        rw [payload]
        exact spare_used (slots size) idx _
      | givenBack idx pa size full good queue' payload => omega

/-- Everything that a call appends, on a sorted table. -/
theorem notify_appends {n : Notice} {clock : Nat → Int} {r : Region} (sent : List SentRecord)
    (sorted : r.listen.items.Pairwise fun a b => a.msg ≤ b.msg) (accepted : Accepted n)
    (room : Room n clock r) : ∃ mails,
      (notify n clock r sent).2.region.queue.items = r.queue.items ++ mails ∧
      mails.map bare = (targets n r.listen.items).map bare := by
  have linear : (run n r.listen.items).filter (foreign n) = targets n r.listen.items := by
    rw [run_of_sorted sorted, List.filter_filter]
    apply List.filter_congr
    exact fun m _ => Bool.and_comm ..
  rw [notify_accepted accepted]
  by_cases unheard : run n r.listen.items = []
  · rw [if_pos unheard, ← linear, unheard]
    exact ⟨[], by simp, rfl⟩
  · rw [if_neg unheard, ← linear]
    apply scan_addresses (run_own _ _)
    · rw [linear]
      exact room.queue
    · rw [linear]
      exact room.slots

/-- On a sorted table the search and the scan address exactly the listeners of the message, and
    the call fails, on the region as it was, exactly when nobody listens. -/
theorem notify_addresses_listeners (n : Notice) (clock : Nat → Int) (r : Region)
    (sent : List SentRecord) (sorted : r.listen.items.Pairwise fun a b => a.msg ≤ b.msg)
    (accepted : Accepted n) (room : Room n clock r) :
    (∃ mails, (notify n clock r sent).2.region.queue.items = r.queue.items ++ mails ∧
      mails.map bare = (targets n r.listen.items).map bare) ∧
    ((notify n clock r sent).1 = false ↔ ∀ m ∈ r.listen.items, m.msg ≠ n.msg) ∧
    ((notify n clock r sent).1 = false → (notify n clock r sent).2.region = r) := by
  refine ⟨notify_appends sent sorted accepted room, ?_⟩
  have heard : run n r.listen.items = [] ↔ ∀ m ∈ r.listen.items, m.msg ≠ n.msg := by
    rw [run_of_sorted sorted, List.filter_eq_nil_iff]
    simp [isFor]
  rw [notify_accepted accepted, ← heard]
  split
  · rename_i unheard
    exact ⟨iff_of_true rfl unheard, fun _ => rfl⟩
  · rename_i some_
    exact ⟨iff_of_false (by simp) some_, fun failed => Bool.noConfusion failed⟩

def twoProcesses : Region :=
  hall [⟨3, 200, 6, none, 0⟩, ⟨7, 300, 6, none, 0⟩, ⟨7, 100, 5, none, 0⟩, ⟨7, 200, 6, none, 0⟩,
    ⟨9, 300, 6, none, 0⟩] (by decide)

def twoBytes : Notice := { pid := 5, sender := 100, msg := 7, buf := some [1, 2], size := 2 }

theorem twoProcesses_room : Room twoBytes (fun _ => 0) twoProcesses where
  queue := by decide
  slots _ := by
    refine ⟨[0, 1], by decide, by decide, fun slot member => ?_⟩
    have within : slot < payloadSlots := by
      simp only [List.mem_cons, List.not_mem_nil, or_false] at member
      simp only [payloadSlots]
      omega
    refine ⟨within, fun i => ?_⟩
    simp [qualifies, twoProcesses, hall, initSharedRegion, payloadAtomInit]

theorem twoProcesses_addressed :
    (∃ mails, (notify twoBytes (fun _ => 0) twoProcesses []).2.region.queue.items =
        twoProcesses.queue.items ++ mails ∧
      mails.map bare = (targets twoBytes twoProcesses.listen.items).map bare) ∧
    ((notify twoBytes (fun _ => 0) twoProcesses []).1 = false ↔
      ∀ m ∈ twoProcesses.listen.items, m.msg ≠ twoBytes.msg) ∧
    ((notify twoBytes (fun _ => 0) twoProcesses []).1 = false →
      (notify twoBytes (fun _ => 0) twoProcesses []).2.region = twoProcesses) :=
  notify_addresses_listeners twoBytes (fun _ => 0) twoProcesses [] (by decide) (by decide)
    twoProcesses_room

def mailsFor (obj pid : Nat) (mails : List MailAtom) : Nat :=
  mails.countP fun m => decide (m.obj = obj) && decide (m.pid = pid)

def entriesOf (n : Notice) (obj pid : Nat) (items : List MailAtom) : Nat :=
  mailsFor obj pid (items.filter (isFor n))

/-- Every instance but the sending one gets a mail for each of its registrations. -/
def SkipsSenderOnly (n : Notice) (r after : Region) : Prop :=
  ∃ mails, after.queue.items = r.queue.items ++ mails ∧
    ∀ obj pid, ¬ (obj = n.sender ∧ pid = n.pid) →
      mailsFor obj pid mails = entriesOf n obj pid r.listen.items

theorem mailsFor_bare (obj pid : Nat) (mails : List MailAtom) :
    mailsFor obj pid (mails.map bare) = mailsFor obj pid mails := by
  unfold mailsFor
  rw [List.countP_map]
  rfl

theorem targets_count (n : Notice) (obj pid : Nat) (items : List MailAtom) :
    mailsFor obj pid (targets n items) =
      if obj = n.sender then 0 else entriesOf n obj pid items := by
  unfold targets entriesOf mailsFor
  rw [List.countP_filter, List.countP_filter]
  split
  · rename_i self
    apply List.countP_eq_zero.mpr
    intro m _
    simp only [foreign, Bool.and_eq_true, decide_eq_true_eq]
    rintro ⟨⟨address, _⟩, _, other⟩
    exact other (address.trans self)
  · rename_i other
    apply List.countP_congr
    intro m _
    simp only [foreign, Bool.and_eq_true, decide_eq_true_eq]
    constructor
    · exact fun ⟨own, addressed, _⟩ => ⟨own, addressed⟩
    · exact fun ⟨own, addressed⟩ => ⟨own, addressed, fun same => other (own.1.symm.trans same)⟩

theorem entriesOf_zero {n : Notice} {obj pid : Nat} {items : List MailAtom} :
    entriesOf n obj pid items = 0 ↔
      ∀ m ∈ items, m.msg = n.msg → m.obj = obj → m.pid ≠ pid := by
  simp [entriesOf, mailsFor, List.countP_eq_zero, isFor]

/-- Only the sender itself is skipped exactly when no other process has a listener for the
    message at the sender's address. -/
theorem notify_skips_sender_only (n : Notice) (clock : Nat → Int) (r : Region)
    (sent : List SentRecord) (sorted : r.listen.items.Pairwise fun a b => a.msg ≤ b.msg)
    (accepted : Accepted n) (room : Room n clock r) :
    SkipsSenderOnly n r (notify n clock r sent).2.region ↔
      ∀ m ∈ r.listen.items, m.msg = n.msg → m.obj = n.sender → m.pid = n.pid := by
  obtain ⟨mails, queue, same⟩ := notify_appends sent sorted accepted room
  have counted : ∀ obj pid, mailsFor obj pid mails =
      if obj = n.sender then 0 else entriesOf n obj pid r.listen.items := by
    intro obj pid
    rw [← mailsFor_bare, same, mailsFor_bare, targets_count]
  constructor
  · rintro ⟨mails', queue', each⟩ m member own address
    obtain rfl : mails = mails' := List.append_cancel_left (queue.symm.trans queue')
    apply Classical.byContradiction
    intro foreign_
    have withheld := each n.sender m.pid fun self => foreign_ self.2
    rw [counted, if_pos rfl] at withheld
    exact entriesOf_zero.mp withheld.symm m member own address rfl
  · intro alone
    refine ⟨mails, queue, fun obj pid other => ?_⟩
    rw [counted]
    split
    · rename_i self
      refine (entriesOf_zero.mpr fun m member own address same => other ⟨self, ?_⟩).symm
      rw [← same]
      exact alone m member own (address.trans self)
    · rfl

theorem twoProcesses_skip_sender_only :
    SkipsSenderOnly twoBytes twoProcesses
        (notify twoBytes (fun _ => 0) twoProcesses []).2.region ↔
      ∀ m ∈ twoProcesses.listen.items, m.msg = twoBytes.msg → m.obj = twoBytes.sender →
        m.pid = twoBytes.pid :=
  notify_skips_sender_only twoBytes (fun _ => 0) twoProcesses [] (by decide) (by decide)
    twoProcesses_room

def sameAddress : Region := hall [⟨7, 100, 6, none, 0⟩] (by decide)

theorem same_address_skipped : ¬ SkipsSenderOnly { pid := 5, sender := 100, msg := 7 } sameAddress
    (notify { pid := 5, sender := 100, msg := 7 } (fun _ => 0) sameAddress []).2.region := by
  rintro ⟨mails, queue, each⟩
  have empty : mails = [] := queue.symm
  have withheld := each 100 6 (by decide)
  rw [empty] at withheld
  exact absurd withheld (by decide)

end SharedAddressing
