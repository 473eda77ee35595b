import FJUtility.SharedMem.CleanUps

/- The report of profileAndGC. Its figures are compared with where the mails are: a payload slot
   awaits a callback for a mail that is queued or with a worker, or for one that a destructor has
   purged, and the latter is never released. -/
namespace SharedAccounting
open LabelledMachine Courier SharedRegion SharedSending SharedProcesses SharedSteps SharedMail
open SharedGuarantees SharedCleanUps

structure Line where
  idx : Nat
  slot : PayloadAtom
  ageMs : Int

structure Profile where
  region : Region
  inuse : Nat
  pending : Nat
  lines : List Line

def profileSlot (verbose : Bool) (now gcAfterMs : Int) (i : Nat) (st : Profile) : Profile :=
  let pa := st.region.payload i
  { inuse := st.inuse + 1
    pending := if pa.processed then st.pending else st.pending + 1
    lines := if verbose then st.lines ++ [⟨i, pa, now - pa.sentMs⟩] else st.lines
    region := if pa.processed && decide (now - pa.sentMs ≥ gcAfterMs) then
      setPayload st.region i (payloadAtomInit pa) else st.region }

def profileFrom (verbose : Bool) (now gcAfterMs : Int) : Nat → Nat → Profile → Profile
  | 0, _, st => st
  | fuel + 1, i, st =>
    if !(st.region.payload i).inUse then profileFrom verbose now gcAfterMs fuel (i + 1) st
    else profileFrom verbose now gcAfterMs fuel (i + 1) (profileSlot verbose now gcAfterMs i st)

def profile (verbose : Bool) (now gcAfterMs : Int) (r : Region) : Profile :=
  profileFrom verbose now gcAfterMs payloadSlots 0 ⟨r, 0, 0, []⟩

def linesOf (now : Int) (payload : Nat → PayloadAtom) (slots : List Nat) : List Line :=
  (slots.filter fun i => (payload i).inUse).map fun i =>
    ⟨i, payload i, now - (payload i).sentMs⟩

theorem linesOf_append (now : Int) (payload : Nat → PayloadAtom) (slots slots' : List Nat) :
    linesOf now payload (slots ++ slots') =
      linesOf now payload slots ++ linesOf now payload slots' := by
  simp [linesOf]

def sweptSlots (now gcAfterMs : Int) (slots : List Nat) (payload : Nat → PayloadAtom) (i : Nat) :
    PayloadAtom :=
  if i ∈ slots then gcSlot now gcAfterMs (payload i) else payload i

structure Reported (verbose : Bool) (now gcAfterMs : Int) (slots : List Nat) (st st' : Profile) :
    Prop where
  tables : st'.region = { st.region with payload := st'.region.payload }
  swept : ∀ j, st'.region.payload j = sweptSlots now gcAfterMs slots st.region.payload j
  used : st'.inuse = st.inuse + slots.countP fun i => (st.region.payload i).inUse
  waiting : st'.pending = st.pending + slots.countP fun i => pending (st.region.payload i)
  printed : st'.lines =
    st.lines ++ if verbose then linesOf now st.region.payload slots else []

theorem profileSlot_reported {verbose : Bool} {now gcAfterMs : Int} {i : Nat} {st : Profile}
    (used : (st.region.payload i).inUse = true) :
    Reported verbose now gcAfterMs [i] st (profileSlot verbose now gcAfterMs i st) := by
  constructor
  · simp only [profileSlot]
    split <;> rfl
  · intro j
    by_cases here : j = i
    · subst here
      simp only [profileSlot, sweptSlots, gcSlot, used, List.mem_singleton, reduceIte]
      split <;> simp_all [setPayload]
    · have other : (profileSlot verbose now gcAfterMs i st).region.payload j =
          st.region.payload j := by
        simp only [profileSlot]
        split
        · exact Function.update_of_ne here _ _
        · rfl
      simp [other, sweptSlots, here]
  · simp [profileSlot, used]
  · cases processed : (st.region.payload i).processed <;>
      simp [profileSlot, pending, used, processed]
  · cases verbose <;> simp [profileSlot, linesOf, used]

theorem reported_append {verbose : Bool} {now gcAfterMs : Int} {slots slots' : List Nat}
    {st st' st'' : Profile} (apart : ∀ i ∈ slots', i ∉ slots)
    (first : Reported verbose now gcAfterMs slots st st')
    (next : Reported verbose now gcAfterMs slots' st' st'') :
    Reported verbose now gcAfterMs (slots ++ slots') st st'' := by
  have same : ∀ i ∈ slots', st'.region.payload i = st.region.payload i := by
    intro i member
    rw [first.swept, sweptSlots, if_neg (apart i member)]
  constructor
  · rw [next.tables, first.tables]
  · intro j
    rw [next.swept]
    by_cases behind : j ∈ slots'
    · simp [sweptSlots, behind, same j behind]
    · simp only [sweptSlots, behind, reduceIte, List.mem_append, or_false]
      exact first.swept j
  · rw [next.used, first.used, List.countP_append, Nat.add_assoc]
    congr 2
    apply List.countP_congr
    intro i member
    rw [same i member]
  · rw [next.waiting, first.waiting, List.countP_append, Nat.add_assoc]
    congr 2
    apply List.countP_congr
    intro i member
    rw [same i member]
  · rw [next.printed, first.printed]
    cases verbose with
    | false => simp
    | true =>
      have lines : linesOf now st'.region.payload slots' = linesOf now st.region.payload slots' := by
        unfold linesOf
        rw [List.filter_congr fun i member => by rw [same i member]]
        apply List.map_congr_left
        intro i member
        rw [same i (List.mem_of_mem_filter member)]
      simp [lines, linesOf_append]

theorem profileFrom_reported (verbose : Bool) (now gcAfterMs : Int) (fuel i : Nat) (st : Profile) :
    Reported verbose now gcAfterMs (List.range' i fuel) st
      (profileFrom verbose now gcAfterMs fuel i st) := by
  induction fuel generalizing i st with
  | zero =>
    exact ⟨rfl, fun j => by simp [sweptSlots, profileFrom], rfl, rfl, by simp [profileFrom, linesOf]⟩
  | succ fuel ih =>
    have apart : ∀ j ∈ List.range' (i + 1) fuel, j ∉ [i] := by
      intro j member
      rw [List.mem_range'_1] at member
      rw [List.mem_singleton]
      omega
    rw [List.range'_succ, ← List.singleton_append]
    unfold profileFrom
    split
    · rename_i free
      simp only [Bool.not_eq_true'] at free
      apply reported_append apart _ (ih (i + 1) st)
      refine ⟨rfl, fun j => ?_, by simp [free], by simp [pending, free], by simp [linesOf, free]⟩
      by_cases here : j = i
      · simp [sweptSlots, gcSlot, here, free]
      · simp [sweptSlots, here]
    · rename_i used
      simp only [Bool.not_eq_true', Bool.not_eq_false] at used
      exact reported_append apart (profileSlot_reported used) (ih (i + 1) _)

/-- The account over a whole step: _notify posts several mails, a clean-up needs counted ones. -/
theorem step_settled {capacity : Nat} {s t : State} {a : Action}
    (reached : (machine capacity).Reachable s) (noBlank : NoBlank s.region)
    (settled : Settled office (view s)) (stepped : (machine capacity).step s a = some t) :
    Settled office (view t) := by
  have records := records_reached reached
  refine (moves_invariant office (fun v => Sound office v ∧ Settled office v) (CleansCounted office)
    (fun _ plain => absurd rfl plain) ?_ (step_moves records stepped)
    ⟨sound_reached reached, settled⟩ ?_).2
  · rintro v label w ⟨sound, kept⟩ counted move
    exact ⟨move_sound move sound, move_settled move sound counted kept⟩
  · intro _ m queued
    simpa [office] using noBlank.queue m queued

theorem settled_initial {capacity : Nat} {s : State} (first : (machine capacity).init s) :
    Settled office (view s) := by
  obtain ⟨_, queue, hands, _, _, purged, idle⟩ := view_initial first
  constructor
  · intro i bound
    have spare : office.pending ((view s).pool i) = false := idle i bound
    simp [View.owing, View.live, queue, hands, purged, spare]
  · simp [purged]

theorem settled_reached {capacity : Nat} {s : State}
    (reached : (machine capacity).ReachableBy NoZeroListed s) :
    NoBlank s.region ∧ Settled office (view s) := by
  apply invariant_along (machine capacity).Reachable
    (fun s => NoBlank s.region ∧ Settled office (view s)) (fun _ => reachable_of_reachableBy)
    _ _ reached
  · intro s first
    refine ⟨?_, settled_initial first⟩
    obtain ⟨protbl, payload, rfl⟩ := first
    constructor <;> simp [initial, initSharedRegion, FixVector.empty]
  · rintro s a t known ⟨noBlank, settled⟩ allows stepped
    exact ⟨step_noBlank noBlank allows stepped, step_settled known noBlank settled stepped⟩

def hasPayload (m : MailAtom) : Bool := m.payloadIdx.isSome

/-- The report is exact: the slots in use are those printed, and those that await a callback are
    due to the mails still on their way and to the mails that destructors have purged. -/
structure Exact (verbose : Bool) (now gcAfterMs : Int) (s : State) (report : Profile) : Prop where
  collects : report.region = profileAndGC now gcAfterMs s.region
  inuse : report.inuse = report.pending + (List.range payloadSlots).countP fun i =>
    (s.region.payload i).inUse && (s.region.payload i).processed
  pending : report.pending =
    (inFlight s).countP hasPayload + (purgedMails s).countP hasPayload
  lines : report.lines =
    if verbose then linesOf now s.region.payload (List.range payloadSlots) else []

theorem countP_used (payload : Nat → PayloadAtom) (slots : List Nat) :
    slots.countP (fun i => (payload i).inUse) = slots.countP (fun i => pending (payload i)) +
      slots.countP fun i => (payload i).inUse && (payload i).processed := by
  induction slots with
  | nil => rfl
  | cons i rest ih =>
    simp only [List.countP_cons, ih, pending]
    cases (payload i).inUse <;> cases (payload i).processed <;> simp <;> omega

/-- Every slot that a purged mail had stays pending, so the report shows exactly what leaks. -/
theorem report_exact {capacity : Nat} {s : State} (verbose : Bool) (now gcAfterMs : Int)
    (reached : (machine capacity).ReachableBy NoZeroListed s) :
    Exact verbose now gcAfterMs s (profile verbose now gcAfterMs s.region) := by
  obtain ⟨tables, swept, used, waiting, printed⟩ :=
    profileFrom_reported verbose now gcAfterMs payloadSlots 0 ⟨s.region, 0, 0, []⟩
  simp only [← List.range_eq_range', Nat.zero_add, List.nil_append] at swept used waiting printed
  have settled := (settled_reached reached).2
  have sound := sound_reached reached
  constructor
  · have collected : (profile verbose now gcAfterMs s.region).region.payload =
        (profileAndGC now gcAfterMs s.region).payload := by
      funext i
      rw [profile, swept]
      simp [sweptSlots, profileAndGC]
    rw [profile, tables, ← profile, collected]
    rfl
  · rw [profile, used, waiting, countP_used]
  · have owing := pending_owing sound settled
    rw [View.owing, live_view, List.countP_append] at owing
    exact waiting.trans owing
  · exact printed

/-- The payload of the purged mail is reported as pending although no mail is on its way. -/
theorem purged_payload_reported : ∃ s, (machine 22).runBy
    (fun s a => decide (NoZeroListed s a)) zeroed purgedPayload = some s ∧
      inFlight s = [] ∧ Exact true 50 5000 s (profile true 50 5000 s.region) := by
  obtain ⟨s, executed, empty, reached⟩ := guarded_shows (m := machine 22) (s := zeroed)
    NoZeroListed purgedPayload (zeroed_initial 22) (fun s : State => decide (inFlight s = []))
    (by decide +kernel)
  exact ⟨s, executed, of_decide_eq_true empty, report_exact true 50 5000 reached⟩

end SharedAccounting
