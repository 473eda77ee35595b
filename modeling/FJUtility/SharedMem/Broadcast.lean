import FJUtility.SharedMem.Allocator

/- The search and the scan of _notify in full: which entries the search leads to, and what
   becomes of each listener that the scan addresses. -/
namespace SharedBroadcast
open FixVector SharedRegion SharedSending SharedAllocator

def hall (items : List MailAtom) (bounded : items.length ≤ listenMax) : Region :=
  { initSharedRegion (fun _ => ⟨0, proAtomInit⟩)
      (fun _ => ⟨false, false, 0, 0, 0, 0, 0, 0, []⟩) with listen := ⟨items, bounded⟩ }

def Accepted (n : Notice) : Prop :=
  n.sender ≠ 0 ∧ (0 < n.size → n.buf ≠ none) ∧ n.size ≤ payloadMax

instance (n : Notice) : Decidable (Accepted n) := inferInstanceAs (Decidable (_ ∧ _ ∧ _))

def isFor (n : Notice) (m : MailAtom) : Bool := decide (m.msg = n.msg)

def foreign (n : Notice) (m : MailAtom) : Bool := decide (m.obj ≠ n.sender)

def run (n : Notice) (items : List MailAtom) : List MailAtom :=
  (items.drop (lowerBound items n.msg)).takeWhile (isFor n)

def msgAt (items : List MailAtom) (i : Nat) : Nat := (items.getD i mailAtomInit).msg

structure Between (items : List MailAtom) (msg left right : Nat) : Prop where
  below : ∀ i < left, msgAt items i < msg
  above : ∀ i, right ≤ i → i < items.length → msg ≤ msgAt items i

theorem msgAt_eq {items : List MailAtom} {i : Nat} (within : i < items.length) :
    msgAt items i = items[i].msg := by
  simp [msgAt, List.getD, within]

theorem msgAt_mono {items : List MailAtom} (sorted : items.Pairwise fun a b => a.msg ≤ b.msg)
    {i j : Nat} (order : i ≤ j) (within : j < items.length) : msgAt items i ≤ msgAt items j := by
  rcases Nat.eq_or_lt_of_le order with rfl | before
  · exact Nat.le_refl _
  · have first : i < items.length := Nat.lt_trans before within
    rw [msgAt_eq within, msgAt_eq first]
    exact List.pairwise_iff_getElem.mp sorted i j first within before

theorem lowerBoundFrom_between {items : List MailAtom} {msg : Nat}
    (sorted : items.Pairwise fun a b => a.msg ≤ b.msg) (fuel left right : Nat)
    (budget : right - left ≤ fuel) (order : left ≤ right) (within : right ≤ items.length)
    (between : Between items msg left right) :
    lowerBoundFrom items msg fuel left right ≤ items.length ∧
      Between items msg (lowerBoundFrom items msg fuel left right)
        (lowerBoundFrom items msg fuel left right) := by
  induction fuel generalizing left right with
  | zero =>
    obtain rfl : left = right := by omega
    exact ⟨within, between⟩
  | succ fuel ih =>
    simp only [lowerBoundFrom]
    split
    · generalize middle : left + (right - left) / 2 = mid
      split
      · rename_i small
        refine ih (mid + 1) right (by omega) (by omega) within ⟨fun i before => ?_, between.above⟩
        exact Nat.lt_of_le_of_lt (msgAt_mono sorted (by omega) (by omega)) small
      · rename_i large
        refine ih left mid (by omega) (by omega) (by omega) ⟨between.below, fun i behind there => ?_⟩
        exact Nat.le_trans (Nat.not_lt.mp large) (msgAt_mono sorted behind there)
    · obtain rfl : left = right := by omega
      exact ⟨within, between⟩

theorem lowerBound_between {items : List MailAtom} (msg : Nat)
    (sorted : items.Pairwise fun a b => a.msg ≤ b.msg) :
    lowerBound items msg ≤ items.length ∧
      Between items msg (lowerBound items msg) (lowerBound items msg) := by
  apply lowerBoundFrom_between sorted _ _ _ (Nat.le_refl _) (Nat.zero_le _) (Nat.le_refl _)
  exact ⟨fun i before => by omega, fun i behind within => by omega⟩

theorem takeWhile_of_sorted {n : Notice} {items : List MailAtom}
    (sorted : items.Pairwise fun a b => a.msg ≤ b.msg) (least : ∀ m ∈ items, n.msg ≤ m.msg) :
    items.takeWhile (isFor n) = items.filter (isFor n) := by
  induction items with
  | nil => rfl
  | cons head rest ih =>
    obtain ⟨first, tail⟩ := List.pairwise_cons.mp sorted
    by_cases own : head.msg = n.msg
    · have later := ih tail fun m member => least m (List.mem_cons_of_mem _ member)
      simp [isFor, own] at later ⊢
      exact later
    · have above : n.msg < head.msg := by
        have := least head (List.mem_cons_self ..)
        omega
      have none_ : rest.filter (isFor n) = [] := by
        apply List.filter_eq_nil_iff.mpr
        intro m member
        have := first m member
        simp only [isFor, decide_eq_true_eq]
        omega
      simp [isFor, own] at none_ ⊢
      exact none_

/-- On a sorted table the run is what a filter of the whole table gives. -/
theorem run_of_sorted {n : Notice} {items : List MailAtom}
    (sorted : items.Pairwise fun a b => a.msg ≤ b.msg) : run n items = items.filter (isFor n) := by
  obtain ⟨within, below, above⟩ := lowerBound_between n.msg sorted
  have before : (items.take (lowerBound items n.msg)).filter (isFor n) = [] := by
    apply List.filter_eq_nil_iff.mpr
    intro m member
    obtain ⟨i, bound, rfl⟩ := List.mem_take_iff_getElem.mp member
    have small := below i (by omega)
    rw [msgAt_eq (by omega)] at small
    simp only [isFor, decide_eq_true_eq]
    omega
  have behind : ∀ m ∈ items.drop (lowerBound items n.msg), n.msg ≤ m.msg := by
    intro m member
    obtain ⟨i, bound, rfl⟩ := List.mem_drop_iff_getElem.mp member
    have large := above (lowerBound items n.msg + i) (by omega) (by omega)
    rwa [msgAt_eq] at large
  have split := List.take_append_drop (lowerBound items n.msg) items
  calc run n items
      = (items.drop (lowerBound items n.msg)).filter (isFor n) :=
        takeWhile_of_sorted (sorted.sublist (List.drop_sublist ..)) behind
    _ = (items.take (lowerBound items n.msg) ++ items.drop (lowerBound items n.msg)).filter
        (isFor n) := by rw [List.filter_append, before, List.nil_append]
    _ = items.filter (isFor n) := by rw [split]

theorem run_own (n : Notice) (items : List MailAtom) : ∀ m ∈ run n items, m.msg = n.msg := by
  intro m member
  exact of_decide_eq_true (List.all_eq_true.mp List.all_takeWhile m member)

theorem run_start (n : Notice) (items : List MailAtom) :
    run n items ≠ [] ↔
      lowerBound items n.msg < items.length ∧ msgAt items (lowerBound items n.msg) = n.msg := by
  unfold run
  by_cases within : lowerBound items n.msg < items.length
  · rw [msgAt_eq within, List.drop_eq_getElem_cons within, List.takeWhile_cons]
    by_cases own : items[lowerBound items n.msg].msg = n.msg
    · simp [isFor, own, within]
    · simp [isFor, own]
  · rw [List.drop_eq_nil_of_le (by omega)]
    simp [within]

theorem scan_run (n : Notice) (clock : Nat → Int) (i : Nat) (items : List MailAtom) (st : Sending) :
    scan n clock i items st = scan n clock i (items.takeWhile (isFor n)) st := by
  induction items generalizing i st with
  | nil => rfl
  | cons target rest ih =>
    by_cases own : target.msg = n.msg
    · have leads : isFor n target = true := decide_eq_true own
      rw [List.takeWhile_cons_of_pos leads]
      simp only [scan, own, ne_eq, not_true_eq_false, if_false, ih]
    · have ends : isFor n target ≠ true := by simpa [isFor] using own
      rw [List.takeWhile_cons_of_neg ends]
      simp [scan, own]

theorem notify_rejected {n : Notice} (rejected : ¬ Accepted n) (clock : Nat → Int) (r : Region)
    (sent : List SentRecord) : notify n clock r sent = (false, ⟨r, 0, [], sent⟩) := by
  unfold notify
  dsimp only
  split
  · rfl
  · rename_i sender
    split
    · rfl
    · rename_i buffered
      split
      · rfl
      · rename_i fits
        refine absurd ⟨sender, fun size empty => buffered ⟨size, empty⟩, ?_⟩ rejected
        exact Nat.not_lt.mp fits

theorem notify_accepted {n : Notice} (accepted : Accepted n) (clock : Nat → Int) (r : Region)
    (sent : List SentRecord) :
    notify n clock r sent =
      if run n r.listen.items = [] then (false, ⟨r, 0, [], sent⟩)
      else (true, scan n clock 0 (run n r.listen.items) ⟨r, 0, [], sent⟩) := by
  obtain ⟨sender, buffered, fits⟩ := accepted
  have given : ¬ (n.size > 0 ∧ n.buf = none) := fun empty => buffered empty.1 empty.2
  have start := run_start n r.listen.items
  unfold msgAt at start
  simp only [notify, if_neg sender, if_neg given, if_neg (Nat.not_lt.mpr fits)]
  by_cases heard : run n r.listen.items = []
  · rw [if_pos heard, if_neg fun leads => start.mpr leads heard]
  · rw [if_neg heard, if_pos (start.mp heard), scan_run]
    rfl

inductive Carried (n : Notice) (now : Int) (target : MailAtom) (st st' : Sending) : Prop where
  | lost (same : st' = st)
      (cause : queueMax ≤ st.region.queue.items.length ∨
        0 < n.size ∧ ∀ i < payloadSlots, qualifies now (st.region.payload i) = false)
  | plain (tag : Nat) (empty : n.size = 0) (room : st.region.queue.items.length < queueMax)
      (queue : st'.region.queue.items =
        st.region.queue.items ++ [{ target with payloadIdx := none, tag }])
      (payload : st'.region.payload = st.region.payload)
  | filled (tag idx : Nat) (sentNow : Int) (pa : PayloadAtom) (size : 0 < n.size)
      (room : st.region.queue.items.length < queueMax) (within : idx < payloadSlots)
      (good : qualifies now (st.region.payload idx) = true)
      (queue : st'.region.queue.items =
        st.region.queue.items ++ [{ target with payloadIdx := some idx, tag }])
      (payload : st'.region.payload =
        Function.update st.region.payload idx (fillPayload n target sentNow pa))
  | givenBack (idx : Nat) (pa : PayloadAtom) (size : 0 < n.size)
      (full : queueMax ≤ st.region.queue.items.length)
      (good : qualifies now (st.region.payload idx) = true)
      (queue : st'.region.queue.items = st.region.queue.items)
      (payload : st'.region.payload =
        Function.update st.region.payload idx (payloadAtomInit pa))

theorem pushMail_room (n : Notice) (target m : MailAtom) (slot : Option PayloadAtom) (st : Sending)
    (room : st.region.queue.items.length < queueMax) :
    (pushMail n target m slot st).region.queue.items = st.region.queue.items ++ [m] ∧
      (pushMail n target m slot st).region.payload = st.region.payload := by
  simp [pushMail, pushBack, room]

theorem pushMail_full {n : Notice} {target m : MailAtom} {slot : Option PayloadAtom} (st : Sending)
    (full : queueMax ≤ st.region.queue.items.length) :
    pushMail n target m slot st =
      match m.payloadIdx with
      | some idx =>
        { st with region := setPayload st.region idx (payloadAtomInit (st.region.payload idx)) }
      | none => st := by
  have closed : ¬ st.region.queue.items.length < queueMax := Nat.not_lt.mpr full
  simp only [pushMail, pushBack, dif_neg closed]
  rfl

theorem handOut_filled (idx : Nat) (r : Region) (pa : PayloadAtom) :
    (setPayload (handOut idx r) idx pa).payload = Function.update r.payload idx pa := by
  simp [handOut, setPayload]

theorem sendTo_carried (n : Notice) (allocNow sentNow : Int) (target : MailAtom) (st : Sending) :
    Carried n allocNow target st (sendTo n allocNow sentNow target st) := by
  unfold sendTo
  dsimp only
  split
  · rename_i size
    cases found : allocPayloadSlot allocNow st.region with
    | none => exact .lost rfl (Or.inr ⟨size, allocPayloadSlot_none.mp found⟩)
    | some given =>
      obtain ⟨idx, region⟩ := given
      obtain ⟨rfl, good, within, _⟩ := allocPayloadSlot_some found
      dsimp only
      generalize taken : fillPayload n target sentNow ((handOut idx st.region).payload idx) = pa
      rcases Nat.lt_or_ge st.region.queue.items.length queueMax with room | full
      · obtain ⟨queue, payload⟩ := pushMail_room n target
          { target with payloadIdx := some idx, tag := st.sent.length } (some pa)
          { st with region := setPayload (handOut idx st.region) idx pa } room
        refine .filled _ idx sentNow ((handOut idx st.region).payload idx) size room within good
          queue ?_
        rw [payload, taken, ← handOut_filled]
      · rw [pushMail_full { st with region := setPayload (handOut idx st.region) idx pa } full]
        refine .givenBack idx pa size full good rfl ?_
        simp [handOut, setPayload]
  · rename_i small
    rcases Nat.lt_or_ge st.region.queue.items.length queueMax with room | full
    · obtain ⟨queue, payload⟩ := pushMail_room n target
        { target with payloadIdx := none, tag := st.sent.length } none st room
      exact .plain _ (by omega) room queue payload
    · rw [pushMail_full st full]
      exact .lost rfl (Or.inl full)

theorem scan_carries {n : Notice} {clock : Nat → Int} (holds : Sending → Prop)
    (pass : ∀ i target st st', target.msg = n.msg → target.obj ≠ n.sender → holds st →
      Carried n (clock (2 * i)) target st st' → holds st')
    (i : Nat) (items : List MailAtom) (st : Sending) (before : holds st) :
    holds (scan n clock i items st) := by
  induction items generalizing i st with
  | nil => exact before
  | cons target rest ih =>
    simp only [scan]
    split
    · exact before
    · rename_i own
      split
      · exact ih _ _ before
      · rename_i other
        have carried := sendTo_carried n (clock (2 * i)) (clock (2 * i + 1)) target st
        exact ih _ _ (pass i target st _ (Classical.not_not.mp own) other before carried)

theorem carried_queue {n : Notice} {now : Int} {target : MailAtom} {st st' : Sending}
    (carried : Carried n now target st st') :
    st'.region.queue.items = st.region.queue.items ∨
      st.region.queue.items.length < queueMax ∧
        ∃ payloadIdx tag, st'.region.queue.items =
          st.region.queue.items ++ [{ target with payloadIdx, tag }] := by
  cases carried with
  | lost same cause => exact Or.inl (by rw [same])
  | plain tag empty room queue payload => exact Or.inr ⟨room, none, tag, queue⟩
  | filled tag idx sentNow pa size room within good queue payload =>
    exact Or.inr ⟨room, some idx, tag, queue⟩
  | givenBack idx pa size full good queue payload => exact Or.inl queue

/-- The scan appends mails for the message, and nothing to a full queue. -/
theorem scan_appends (n : Notice) (clock : Nat → Int) (i : Nat) (items : List MailAtom)
    (st : Sending) : ∃ mails,
      (scan n clock i items st).region.queue.items = st.region.queue.items ++ mails ∧
      (∀ m ∈ mails, m.msg = n.msg) ∧ (queueMax ≤ st.region.queue.items.length → mails = []) := by
  refine scan_carries (fun st' => ∃ mails, st'.region.queue.items = st.region.queue.items ++ mails ∧
    (∀ m ∈ mails, m.msg = n.msg) ∧ (queueMax ≤ st.region.queue.items.length → mails = []))
    ?_ i items st ⟨[], by simp, by simp, fun _ => rfl⟩
  rintro i target before after own _ ⟨mails, queue, marked, closed⟩ carried
  rcases carried_queue carried with same | ⟨room, payloadIdx, tag, appended⟩
  · exact ⟨mails, same.trans queue, marked, closed⟩
  · refine ⟨mails ++ [{ target with payloadIdx, tag }], ?_, ?_, fun full => ?_⟩
    · rw [appended, queue, List.append_assoc]
    · intro m member
      rcases List.mem_append.mp member with old | new
      · exact marked m old
      · rw [List.mem_singleton.mp new]
        exact own
    · rw [queue, List.length_append] at room
      omega

end SharedBroadcast
