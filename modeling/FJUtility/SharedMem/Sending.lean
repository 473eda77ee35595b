import FJUtility.SharedMem.Region

/- What one call of _notify does to the region: every pass of its scan either appends one
   mail, with a slot that was not awaiting a worker, or changes such slots only. -/
namespace SharedSending
open FixVector SharedRegion

def pending (pa : PayloadAtom) : Bool := pa.inUse && !pa.processed

def SpareChange (payload payload' : Nat → PayloadAtom) : Prop :=
  ∀ i, payload' i = payload i ∨ pending (payload i) = false ∧ pending (payload' i) = false

theorem pending_init (pa : PayloadAtom) : pending (payloadAtomInit pa) = false := rfl

theorem spareChange_refl (payload : Nat → PayloadAtom) : SpareChange payload payload :=
  fun _ => Or.inl rfl

theorem spareChange_update {payload : Nat → PayloadAtom} {idx : Nat} {pa : PayloadAtom}
    (was : pending (payload idx) = false) (is : pending pa = false) :
    SpareChange payload (Function.update payload idx pa) := by
  intro i
  by_cases here : i = idx
  · subst here
    exact Or.inr ⟨was, by rwa [Function.update_self]⟩
  · exact Or.inl (Function.update_of_ne here _ _)

structure Allocated (r : Region) (idx : Nat) (r' : Region) : Prop where
  within : idx < payloadSlots
  was : pending (r.payload idx) = false
  spare : SpareChange r.payload r'.payload
  others : ∀ i, i ≠ idx → r'.payload i = r.payload i
  tables : r'.listen = r.listen ∧ r'.queue = r.queue ∧ r'.protbl = r.protbl ∧
    r'.initialized = r.initialized

theorem allocPayloadSlotFrom_spec {now : Int} {start fuel n : Nat} {r r' : Region} {idx : Nat}
    (found : allocPayloadSlotFrom now start r fuel n = some (idx, r')) : Allocated r idx r' := by
  induction fuel generalizing n with
  | zero => simp [allocPayloadSlotFrom] at found
  | succ fuel ih =>
    simp only [allocPayloadSlotFrom] at found
    split at found
    · rename_i free
      simp only [Option.some.injEq, Prod.mk.injEq] at found
      obtain ⟨rfl, rfl⟩ := found
      refine ⟨Nat.mod_lt _ (by decide), ?_, spareChange_refl _, fun _ _ => rfl, by simp⟩
      simp only [Bool.not_eq_true'] at free
      simp [pending, free]
    · split at found
      · rename_i reuse
        simp only [Option.some.injEq, Prod.mk.injEq] at found
        obtain ⟨rfl, rfl⟩ := found
        have was : pending (r.payload ((start + n) % payloadSlots)) = false := by
          simp only [reusable, Bool.and_eq_true] at reuse
          simp [pending, reuse.1]
        exact ⟨Nat.mod_lt _ (by decide), was, spareChange_update was (pending_init _),
          fun i other => Function.update_of_ne other _ _, by simp [setPayload]⟩
      · exact ih found

theorem allocPayloadSlot_spec {now : Int} {r r' : Region} {idx : Nat}
    (found : allocPayloadSlot now r = some (idx, r')) : Allocated r idx r' :=
  allocPayloadSlotFrom_spec found

inductive Loaded (n : Notice) (target : MailAtom) (payload : Nat → PayloadAtom) :
    Option Nat → Option PayloadAtom → (Nat → PayloadAtom) → Prop where
  | plain (empty : n.size = 0) : Loaded n target payload none none payload
  | filled {idx : Nat} (now : Int) (pa : PayloadAtom) (size : 0 < n.size)
      (within : idx < payloadSlots) (was : pending (payload idx) = false) :
      Loaded n target payload (some idx) (some (fillPayload n target now pa))
        (Function.update payload idx (fillPayload n target now pa))

inductive Passed (n : Notice) (target : MailAtom) (st st' : Sending) : Prop where
  | lost (queue : st'.region.queue = st.region.queue) (sent : st'.sent = st.sent)
      (pids : st'.pids = st.pids) (msgcount : st'.msgcount = st.msgcount)
      (spare : SpareChange st.region.payload st'.region.payload)
  | appended (m : MailAtom) (slot : Option PayloadAtom)
      (mail : m = { target with payloadIdx := m.payloadIdx, tag := st.sent.length })
      (queue : st'.region.queue.items = st.region.queue.items ++ [m])
      (sent : st'.sent = st.sent ++ [⟨m, n, st.region.listen.items, slot⟩])
      (pids : st'.pids = insertPid target.pid st.pids) (msgcount : st'.msgcount = st.msgcount + 1)
      (loaded : Loaded n target st.region.payload m.payloadIdx slot st'.region.payload)

structure SameTables (r r' : Region) : Prop where
  listen : r'.listen = r.listen
  protbl : r'.protbl = r.protbl
  initialized : r'.initialized = r.initialized

theorem sameTables_refl (r : Region) : SameTables r r := ⟨rfl, rfl, rfl⟩

def givenBack (m : MailAtom) (payload : Nat → PayloadAtom) : Nat → PayloadAtom :=
  match m.payloadIdx with
  | some idx => Function.update payload idx (payloadAtomInit (payload idx))
  | none => payload

inductive Pushed (n : Notice) (target m : MailAtom) (slot : Option PayloadAtom)
    (st st' : Sending) : Prop where
  | room (queue : st'.region.queue.items = st.region.queue.items ++ [m])
      (sent : st'.sent = st.sent ++ [⟨m, n, st.region.listen.items, slot⟩])
      (pids : st'.pids = insertPid target.pid st.pids) (msgcount : st'.msgcount = st.msgcount + 1)
      (payload : st'.region.payload = st.region.payload)
  | full (queue : st'.region.queue = st.region.queue) (sent : st'.sent = st.sent)
      (pids : st'.pids = st.pids) (msgcount : st'.msgcount = st.msgcount)
      (payload : st'.region.payload = givenBack m st.region.payload)

theorem pushMail_pushed (n : Notice) (target m : MailAtom) (slot : Option PayloadAtom)
    (st : Sending) : Pushed n target m slot st (pushMail n target m slot st) ∧
      SameTables st.region (pushMail n target m slot st).region := by
  have items := pushBack_items st.region.queue m
  unfold pushMail
  dsimp only
  split
  · rename_i room
    rw [if_pos room] at items
    exact ⟨.room items rfl rfl rfl rfl, rfl, rfl, rfl⟩
  · split
    · rename_i idx owns
      exact ⟨.full rfl rfl rfl rfl (by simp [givenBack, owns, setPayload]), rfl, rfl, rfl⟩
    · rename_i owns
      exact ⟨.full rfl rfl rfl rfl (by simp [givenBack, owns]), sameTables_refl _⟩

theorem sendTo_passed (n : Notice) (allocNow sentNow : Int) (target : MailAtom) (st : Sending) :
    Passed n target st (sendTo n allocNow sentNow target st) ∧
      SameTables st.region (sendTo n allocNow sentNow target st).region := by
  unfold sendTo
  dsimp only
  split
  · rename_i size
    split
    · exact ⟨.lost rfl rfl rfl rfl (spareChange_refl _), sameTables_refl _⟩
    · rename_i idx region found
      obtain ⟨within, was, spare, others, listen, queue, protbl, initialized⟩ :=
        allocPayloadSlot_spec found
      have filled : ∀ pa, Function.update region.payload idx pa =
          Function.update st.region.payload idx pa := by
        intro pa
        funext i
        by_cases here : i = idx
        · rw [here, Function.update_self, Function.update_self]
        · rw [Function.update_of_ne here, Function.update_of_ne here, others i here]
      obtain ⟨pushed, same⟩ := pushMail_pushed n target
        { target with payloadIdx := some idx, tag := st.sent.length }
        (some (fillPayload n target sentNow (region.payload idx)))
        { st with region := setPayload region idx (fillPayload n target sentNow (region.payload idx)) }
      have tables : SameTables st.region _ := ⟨same.listen.trans listen, same.protbl.trans protbl,
        same.initialized.trans initialized⟩
      refine ⟨?_, tables⟩
      cases pushed with
      | room items sent pids msgcount payload =>
        have loaded := payload.trans (filled _)
        refine .appended { target with payloadIdx := some idx, tag := st.sent.length }
          (some (fillPayload n target sentNow (region.payload idx))) rfl ?_ ?_ pids msgcount ?_
        · rw [items]
          simp only [setPayload, queue]
        · rw [sent]
          simp only [setPayload, listen]
        · rw [loaded]
          exact .filled sentNow (region.payload idx) size within was
      | full queue' sent pids msgcount payload =>
        refine .lost (queue'.trans queue) sent pids msgcount ?_
        rw [payload]
        simp only [givenBack, setPayload, filled, Function.update_idem]
        exact spareChange_update was (pending_init _)
  · rename_i empty
    obtain ⟨pushed, same⟩ := pushMail_pushed n target
      { target with payloadIdx := none, tag := st.sent.length } none st
    refine ⟨?_, same⟩
    cases pushed with
    | room items sent pids msgcount payload =>
      refine .appended { target with payloadIdx := none, tag := st.sent.length } none rfl items sent
        pids msgcount ?_
      rw [payload]
      exact .plain (by omega)
    | full queue sent pids msgcount payload =>
      exact .lost queue sent pids msgcount (payload ▸ spareChange_refl _)

theorem scan_preserves (n : Notice) (clock : Nat → Int) (holds : Sending → Prop)
    (items : List MailAtom)
    (pass : ∀ st target allocNow sentNow, target ∈ items → target.msg = n.msg →
      target.obj ≠ n.sender → holds st → holds (sendTo n allocNow sentNow target st))
    (i : Nat) (st : Sending) (before : holds st) : holds (scan n clock i items st) := by
  induction items generalizing i st with
  | nil => exact before
  | cons target rest ih =>
    have later := fun st target allocNow sentNow (member : target ∈ rest) =>
      pass st target allocNow sentNow (List.mem_cons_of_mem _ member)
    simp only [scan]
    split
    · exact before
    · rename_i addressed
      split
      · exact ih later _ _ before
      · rename_i foreign
        exact ih later _ _ (pass st target _ _ (List.mem_cons_self ..) (Classical.not_not.mp addressed)
          foreign before)

/-- The rule for _notify: start from the region it is called on, one pass at a time. -/
theorem notify_preserves (n : Notice) (clock : Nat → Int) (r : Region) (sent : List SentRecord)
    (holds : Sending → Prop) (start : holds ⟨r, 0, [], sent⟩)
    (pass : ∀ st target allocNow sentNow, target ∈ r.listen.items → target.msg = n.msg →
      target.obj ≠ n.sender → (0 < n.size → n.buf ≠ none) → holds st →
      holds (sendTo n allocNow sentNow target st)) : holds (notify n clock r sent).2 := by
  unfold notify
  dsimp only
  split
  · exact start
  · split
    · exact start
    · rename_i buffered
      split
      · exact start
      · split
        · apply scan_preserves n clock holds _ _ 0 _ start
          intro st target allocNow sentNow member addressed foreign
          apply pass st target allocNow sentNow (List.mem_of_mem_drop member) addressed foreign
          exact fun size empty => buffered ⟨size, empty⟩
        · exact start

theorem notify_same (n : Notice) (clock : Nat → Int) (r : Region) (sent : List SentRecord) :
    SameTables r (notify n clock r sent).2.region := by
  refine notify_preserves n clock r sent (fun st => SameTables r st.region) (sameTables_refl r) ?_
  intro st target allocNow sentNow _ _ _ _ same
  have tables := (sendTo_passed n allocNow sentNow target st).2
  exact ⟨tables.listen.trans same.listen, tables.protbl.trans same.protbl,
    tables.initialized.trans same.initialized⟩

end SharedSending
