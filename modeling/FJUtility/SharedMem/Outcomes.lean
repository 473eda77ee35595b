import FJUtility.Library.AgentList
import FJUtility.SharedMem.Broadcast

/- The outcomes of _notify when the queue or the slots run out in the middle of a broadcast:
   what is left in the slots, and what the returned value says about the queue. -/
namespace SharedOutcomes
open AgentList FixVector SharedRegion SharedSending SharedAllocator SharedBroadcast

structure CarriesFor (n : Notice) (m : MailAtom) (pa : PayloadAtom) : Prop where
  inUse : pa.inUse = true
  processed : pa.processed = false
  size : pa.size = n.size
  msg : pa.msg = n.msg
  toPid : pa.toPid = m.pid
  data : n.bytes <+: pa.data

structure InStep (n : Notice) (clock : Nat → Int) (r after : Region) (mails : List MailAtom) :
    Prop where
  queue : after.queue.items = r.queue.items ++ mails
  apart : (mails.map MailAtom.payloadIdx).Nodup
  loaded : ∀ m ∈ mails, ∃ slot, m.payloadIdx = some slot ∧ slot < payloadSlots ∧
    CarriesFor n m (after.payload slot)
  kept : ∀ i, pending (r.payload i) = true → after.payload i = r.payload i
  others : ∀ i, (∀ m ∈ mails, m.payloadIdx ≠ some i) → after.payload i = r.payload i ∨
    (after.payload i).inUse = false ∧ ∃ reading, qualifies (clock reading) (r.payload i) = true

theorem inStep_refl (n : Notice) (clock : Nat → Int) (r : Region) : InStep n clock r r [] where
  queue := by simp
  apart := .nil
  loaded m member := by simp at member
  kept _ _ := rfl
  others _ _ := Or.inl rfl

theorem filled_carries (n : Notice) (target : MailAtom) (now : Int) (pa : PayloadAtom)
    (payloadIdx : Option Nat) (tag : Nat) :
    CarriesFor n { target with payloadIdx, tag } (fillPayload n target now pa) :=
  ⟨rfl, rfl, rfl, rfl, rfl, List.prefix_append ..⟩

theorem loaded_refused {n : Notice} {m : MailAtom} {pa : PayloadAtom} (carries : CarriesFor n m pa)
    (now : Int) : qualifies now pa = false :=
  pending_refused (by simp [pending, carries.inUse, carries.processed])

section
variable {n : Notice} {clock : Nat → Int} {r before after : Region} {mails : List MailAtom}
  {idx reading : Nat}

theorem idx_unnamed (step : InStep n clock r before mails)
    (good : qualifies (clock reading) (before.payload idx) = true) :
    ∀ m ∈ mails, m.payloadIdx ≠ some idx := by
  intro m member same
  obtain ⟨slot, names, _, carries⟩ := step.loaded m member
  obtain rfl := Option.some.inj (names.symm.trans same)
  rw [loaded_refused carries] at good
  exact Bool.noConfusion good

/-- A slot that is handed out in the middle of the call could have been handed out before it. -/
theorem idx_qualified (step : InStep n clock r before mails)
    (good : qualifies (clock reading) (before.payload idx) = true) :
    ∃ reading, qualifies (clock reading) (r.payload idx) = true := by
  rcases step.others idx (idx_unnamed step good) with same | ⟨_, early⟩
  · exact ⟨reading, same ▸ good⟩
  · exact early

theorem idx_spare (step : InStep n clock r before mails)
    (good : qualifies (clock reading) (before.payload idx) = true) {i : Nat}
    (awaits : pending (r.payload i) = true) : i ≠ idx := by
  rintro rfl
  rw [step.kept i awaits, pending_refused awaits] at good
  exact Bool.noConfusion good

theorem idx_apart {pa : PayloadAtom} (step : InStep n clock r before mails)
    (good : qualifies (clock reading) (before.payload idx) = true)
    (payload : after.payload = Function.update before.payload idx pa) :
    (∀ m ∈ mails, ∃ slot, m.payloadIdx = some slot ∧ slot < payloadSlots ∧
      CarriesFor n m (after.payload slot)) ∧
    ∀ i, pending (r.payload i) = true → after.payload i = r.payload i := by
  constructor
  · intro m member
    obtain ⟨slot, points, inside, carried⟩ := step.loaded m member
    have other : slot ≠ idx := fun same => idx_unnamed step good m member (same ▸ points)
    rw [payload]
    exact ⟨slot, points, inside, by rwa [Function.update_of_ne other]⟩
  · intro i awaits
    rw [payload, Function.update_of_ne (idx_spare step good awaits), step.kept i awaits]

theorem filled_inStep {m : MailAtom} {pa : PayloadAtom} (step : InStep n clock r before mails)
    (good : qualifies (clock reading) (before.payload idx) = true) (within : idx < payloadSlots)
    (names : m.payloadIdx = some idx) (carries : CarriesFor n m pa)
    (queue : after.queue.items = before.queue.items ++ [m])
    (payload : after.payload = Function.update before.payload idx pa) :
    InStep n clock r after (mails ++ [m]) := by
  have unnamed := idx_unnamed step good
  obtain ⟨loaded, kept⟩ := idx_apart step good payload
  constructor
  case queue => rw [queue, step.queue, List.append_assoc]
  case apart =>
    rw [List.map_append, List.map_singleton, names]
    apply List.nodup_append.mpr
    refine ⟨step.apart, List.nodup_singleton _, fun old member new here same => ?_⟩
    obtain ⟨m', there, rfl⟩ := List.mem_map.mp member
    exact unnamed m' there (same.trans (List.mem_singleton.mp here))
  case loaded =>
    intro m' member
    rcases List.mem_append.mp member with old | new
    · exact loaded m' old
    · rw [List.mem_singleton.mp new]
      exact ⟨idx, names, within, by rwa [payload, Function.update_self]⟩
  case kept => exact kept
  case others =>
    intro i free
    have other : i ≠ idx := by
      rintro rfl
      exact free m (by simp) names
    rw [payload, Function.update_of_ne other]
    exact step.others i fun m' old => free m' (List.mem_append_left _ old)

theorem givenBack_inStep {pa : PayloadAtom} (step : InStep n clock r before mails)
    (good : qualifies (clock reading) (before.payload idx) = true)
    (queue : after.queue.items = before.queue.items)
    (payload : after.payload = Function.update before.payload idx (payloadAtomInit pa)) :
    InStep n clock r after mails := by
  obtain ⟨loaded, kept⟩ := idx_apart step good payload
  constructor
  case queue => exact queue.trans step.queue
  case apart => exact step.apart
  case loaded => exact loaded
  case kept => exact kept
  case others =>
    intro i free
    by_cases here : i = idx
    · subst here
      refine Or.inr ⟨?_, idx_qualified step good⟩
      rw [payload, Function.update_self]
      rfl
    · rw [payload, Function.update_of_ne here]
      exact step.others i free

end

theorem carried_inStep {n : Notice} {clock : Nat → Int} {reading : Nat} {target : MailAtom}
    {r : Region} {st st' : Sending} (size : 0 < n.size)
    (before : ∃ mails, InStep n clock r st.region mails)
    (carried : Carried n (clock reading) target st st') :
    ∃ mails, InStep n clock r st'.region mails := by
  obtain ⟨mails, step⟩ := before
  cases carried with
  | lost same cause => exact same ▸ ⟨mails, step⟩
  | plain tag empty room queue payload => omega
  | filled tag idx sentNow pa size room within good queue payload =>
    exact ⟨_, filled_inStep step good within rfl (filled_carries ..) queue payload⟩
  | givenBack idx pa size full good queue payload =>
    exact ⟨mails, givenBack_inStep step good queue payload⟩

/-- Whatever runs out in the middle of a broadcast, each appended mail has its own filled slot,
    and every other slot is as it was or free. -/
theorem notify_inStep (n : Notice) (clock : Nat → Int) (r : Region) (sent : List SentRecord)
    (size : 0 < n.size) : ∃ mails, InStep n clock r (notify n clock r sent).2.region mails := by
  by_cases accepted : Accepted n
  · rw [notify_accepted accepted]
    split
    · exact ⟨[], inStep_refl n clock r⟩
    · apply scan_carries fun st => ∃ mails, InStep n clock r st.region mails
      · exact fun i target st st' _ _ before carried => carried_inStep size before carried
      · exact ⟨[], inStep_refl n clock r⟩
  · rw [notify_rejected accepted]
    exact ⟨[], inStep_refl n clock r⟩

def lastPlace : Region :=
  { hall [⟨7, 100, 5, none, 0⟩, ⟨7, 200, 6, none, 0⟩, ⟨7, 300, 6, none, 0⟩] (by decide) with
    queue := ⟨List.replicate 383 ⟨9, 400, 8, none, 0⟩, by rw [List.length_replicate]; decide⟩ }

theorem last_place_inStep : ∃ mails, InStep
    { pid := 5, sender := 100, msg := 7, buf := some [1, 2], size := 2 } (fun _ => 0) lastPlace
    (notify { pid := 5, sender := 100, msg := 7, buf := some [1, 2], size := 2 } (fun _ => 0)
      lastPlace []).2.region mails :=
  notify_inStep _ _ lastPlace [] (by decide)

structure Trusted (n : Notice) (r : Region) (result : Bool × Sending) : Prop where
  success : result.1 = true → ∃ mails, mails ≠ [] ∧
    result.2.region.queue.items = r.queue.items ++ mails ∧ ∀ m ∈ mails, m.msg = n.msg
  failure : result.1 = false → result.2.region = r

def Served (n : Notice) (now : Int) (payload : Nat → PayloadAtom) (target : MailAtom) : Prop :=
  target.obj ≠ n.sender ∧
    (n.size = 0 ∨ ∃ slot < payloadSlots, qualifies now (payload slot) = true)

theorem carried_served {n : Notice} {now : Int} {target : MailAtom} {st st' : Sending}
    (other : target.obj ≠ n.sender) (room : st.region.queue.items.length < queueMax)
    (carried : Carried n now target st st') :
    Served n now st.region.payload target ∧
        st'.region.queue.items.length = st.region.queue.items.length + 1 ∨
      ¬ Served n now st.region.payload target ∧ st' = st := by
  cases carried with
  | lost same cause =>
    rcases cause with full | ⟨size, none_⟩
    · omega
    · refine Or.inr ⟨fun served => ?_, same⟩
      rcases served.2 with empty | ⟨slot, within, good⟩
      · omega
      · rw [none_ slot within] at good
        exact Bool.noConfusion good
  | plain tag empty room' queue payload =>
    refine Or.inl ⟨⟨other, Or.inl empty⟩, ?_⟩
    rw [queue, List.length_append, List.length_singleton]
  | filled tag idx sentNow pa size room' within good queue payload =>
    refine Or.inl ⟨⟨other, Or.inr ⟨idx, within, good⟩⟩, ?_⟩
    rw [queue, List.length_append, List.length_singleton]
  | givenBack idx pa size full good queue payload => omega

theorem scan_grows {n : Notice} (clock : Nat → Int) (i : Nat) {items : List MailAtom}
    (st : Sending) (own : ∀ m ∈ items, m.msg = n.msg)
    (room : st.region.queue.items.length < queueMax) :
    st.region.queue.items.length < (scan n clock i items st).region.queue.items.length ↔
      ∃ k target, items[k]? = some target ∧
        Served n (clock (2 * (i + k))) st.region.payload target := by
  induction items generalizing i with
  | nil => simp [scan]
  | cons target rest ih =>
    have later := ih (i + 1) fun m member => own m (List.mem_cons_of_mem _ member)
    have addressed : ¬ target.msg ≠ n.msg := not_not.mpr (own target (List.mem_cons_self ..))
    rw [exists_at_cons]
    simp only [scan, if_neg addressed, Nat.add_zero]
    simp only [Nat.add_right_comm i 1, Nat.add_assoc i] at later
    by_cases self : target.obj = n.sender
    · rw [if_pos self, later]
      simp [Served, self]
    · rw [if_neg self]
      rcases carried_served self room
          (sendTo_carried n (clock (2 * i)) (clock (2 * i + 1)) target st) with
        ⟨served, more⟩ | ⟨unserved, same⟩
      · obtain ⟨mails, queue, _, _⟩ := scan_appends n clock (i + 1) rest
          (sendTo n (clock (2 * i)) (clock (2 * i + 1)) target st)
        have grown := congrArg List.length queue
        rw [List.length_append] at grown
        exact ⟨fun _ => Or.inl served, fun _ => by omega⟩
      · rw [same, later]
        exact ⟨Or.inr, fun found => found.resolve_left unserved⟩

/-- There is room in the queue, and some listener in the run is served if it is the first one. -/
def Reaches (n : Notice) (clock : Nat → Int) (r : Region) : Prop :=
  r.queue.items.length < queueMax ∧ ∃ i target, (run n r.listen.items)[i]? = some target ∧
    Served n (clock (2 * i)) r.payload target

theorem heard_trusted {n : Notice} {clock : Nat → Int} {r : Region} {sent : List SentRecord} :
    Trusted n r (true, scan n clock 0 (run n r.listen.items) ⟨r, 0, [], sent⟩) ↔
      Reaches n clock r := by
  obtain ⟨mails, queue, own, closed⟩ := scan_appends n clock 0 (run n r.listen.items) ⟨r, 0, [], sent⟩
  have grown := congrArg List.length queue
  rw [List.length_append] at grown
  constructor
  · rintro ⟨success, _⟩
    obtain ⟨mails', some_, queue', _⟩ := success rfl
    have same : mails = mails' := List.append_cancel_left (queue.symm.trans queue')
    have room : r.queue.items.length < queueMax := by
      apply Nat.lt_of_not_le
      intro full
      exact some_ (same ▸ closed full)
    have positive := List.length_pos_iff.mpr (same ▸ some_)
    have reached := (scan_grows clock 0 ⟨r, 0, [], sent⟩ (run_own n r.listen.items) room).mp
      (by omega)
    simp only [Nat.zero_add] at reached
    exact ⟨room, reached⟩
  · rintro ⟨room, reached⟩
    refine ⟨fun _ => ⟨mails, ?_, queue, own⟩, fun failed => Bool.noConfusion failed⟩
    have more := (scan_grows clock 0 ⟨r, 0, [], sent⟩ (run_own n r.listen.items) room).mpr
      (by simpa only [Nat.zero_add])
    intro none_
    rw [none_, List.length_nil] at grown
    omega

theorem failed_trusted {n : Notice} {r : Region} (sent : List SentRecord) :
    Trusted n r (false, ⟨r, 0, [], sent⟩) :=
  ⟨fun succeeded => Bool.noConfusion succeeded, fun _ => rfl⟩

/-- The returned value is right exactly when the call is rejected, when nobody listens, or when
    some listener can be served; on a sorted table the run is all the entries for the message. -/
theorem notify_trusted (n : Notice) (clock : Nat → Int) (r : Region) (sent : List SentRecord) :
    (Trusted n r (notify n clock r sent) ↔
      ¬ Accepted n ∨ run n r.listen.items = [] ∨ Reaches n clock r) ∧
    ((r.listen.items.Pairwise fun a b => a.msg ≤ b.msg) →
      run n r.listen.items = r.listen.items.filter (isFor n)) := by
  refine ⟨?_, run_of_sorted⟩
  by_cases accepted : Accepted n
  · rw [notify_accepted accepted]
    by_cases unheard : run n r.listen.items = []
    · rw [if_pos unheard]
      exact iff_of_true (failed_trusted sent) (Or.inr (Or.inl unheard))
    · rw [if_neg unheard, heard_trusted]
      simp [accepted, unheard]
  · rw [notify_rejected accepted]
    exact iff_of_true (failed_trusted sent) (Or.inl accepted)

def ownOnly : Region := hall [⟨7, 100, 5, none, 0⟩] (by decide)

theorem own_registration_untrusted : ¬ Trusted { pid := 5, sender := 100, msg := 7 } ownOnly
    (notify { pid := 5, sender := 100, msg := 7 } (fun _ => 0) ownOnly []) := by
  intro trusted
  obtain ⟨mails, some_, queue, _⟩ := trusted.success rfl
  have empty : mails = [] := queue.symm
  exact some_ empty

end SharedOutcomes
