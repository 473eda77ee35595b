import Mathlib.Data.List.Count
import Mathlib.Data.List.Nodup
import Mathlib.Data.List.Perm.Basic
import Mathlib.Logic.Relation

/- Mails that pass from a shared queue through the hands of couriers. A mail may own a slot
   of a shared pool, whose content was written when the mail was sent and is read when a
   courier serves it. Clean-ups of the queue keep counted mails only. -/
namespace Courier
variable {Id Site Mail Slot Reading Data : Type}

structure Office (Id Site Mail Slot Reading Data : Type) where
  slots : Nat
  slotOf : Mail → Option Nat
  counted : Mail → Bool
  mine : Id → Mail → Bool
  hits : Site → Mail → Bool
  pending : Slot → Bool
  read : Id → Mail → Slot → Option Reading
  content : Slot → Reading → Data

/-- What a courier is at: a mail is ready once its slot was read, busy while it is served,
    and its slot is given back at marking. -/
inductive Hand (Mail Reading : Type) where
  | carrying (rest : List Mail)
  | ready (mail : Mail) (reading : Option Reading) (rest : List Mail)
  | busy (mail : Mail) (reading : Option Reading) (rest : List Mail)
  | marking (mail : Mail) (rest : List Mail)

def Hand.undelivered : Hand Mail Reading → List Mail
  | .carrying rest => rest
  | .ready mail _ rest => mail :: rest
  | .busy _ _ rest => rest
  | .marking _ rest => rest

def Hand.held : Hand Mail Reading → List Mail
  | .carrying rest => rest
  | .ready mail _ rest => mail :: rest
  | .busy mail _ rest => mail :: rest
  | .marking mail rest => mail :: rest

theorem held_carrying (rest : List Mail) :
    (Hand.carrying rest : Hand Mail Reading).held = rest := rfl

/-- sent pairs a mail with the content of its slot at that time. -/
structure View (Id Site Mail Slot Reading Data : Type) where
  queue : List Mail
  hands : List (Id × Hand Mail Reading)
  pool : Nat → Slot
  sent : List (Mail × Option Slot)
  served : List (Id × Mail × Option Data)
  purged : List (Site × Mail)

abbrev Office.State (_ : Office Id Site Mail Slot Reading Data) : Type :=
  View Id Site Mail Slot Reading Data

def View.undelivered (v : View Id Site Mail Slot Reading Data) : List Mail :=
  v.hands.flatMap fun h => h.2.undelivered

def View.live (v : View Id Site Mail Slot Reading Data) : List Mail :=
  v.queue ++ v.hands.flatMap fun h => h.2.held

variable (o : Office Id Site Mail Slot Reading Data)

def Office.reading (pool : Nat → Slot) (who : Id) (m : Mail) : Option Reading :=
  (o.slotOf m).bind fun i => o.read who m (pool i)

def Office.delivery (pool : Nat → Slot) (m : Mail) (reading : Option Reading) : Option Data :=
  (o.slotOf m).bind fun i => reading.map (o.content (pool i))

inductive Work (who : Id) (pool : Nat → Slot) :
    Hand Mail Reading → Hand Mail Reading → (Nat → Slot) → List (Id × Mail × Option Data) → Prop
  where
  | check (m : Mail) (rest : List Mail) :
      Work who pool (.carrying (m :: rest)) (.ready m (o.reading pool who m) rest) pool []
  | skip (m : Mail) (rest : List Mail) (foreign : o.mine who m = false) :
      Work who pool (.carrying (m :: rest)) (.carrying rest) pool []
  | invoke (m : Mail) (reading : Option Reading) (rest : List Mail) :
      Work who pool (.ready m reading rest) (.busy m reading rest) pool
        [(who, m, o.delivery pool m reading)]
  | comeBack (m : Mail) (reading : Reading) (rest : List Mail) :
      Work who pool (.busy m (some reading) rest) (.marking m rest) pool []
  | comeBackPlain (m : Mail) (rest : List Mail) :
      Work who pool (.busy m none rest) (.carrying rest) pool []
  | mark (m : Mail) (rest : List Mail) (pool' : Nat → Slot)
      (others : ∀ i, o.slotOf m ≠ some i → pool' i = pool i)
      (released : ∀ i, o.slotOf m = some i → o.pending (pool' i) = false) :
      Work who pool (.marking m rest) (.carrying rest) pool' []

inductive Label (Id Site : Type) where
  | plain
  | drain (who : Id)
  | purge (site : Site)

inductive Move (v : o.State) : Label Id Site → o.State → Prop where
  | stay : Move v .plain v
  | hire (who : Id) : Move v .plain { v with hands := v.hands ++ [(who, .carrying [])] }
  | reclaim (pool' : Nat → Slot)
      (spare : ∀ i, pool' i = v.pool i ∨
        o.pending (v.pool i) = false ∧ o.pending (pool' i) = false) :
      Move v .plain { v with pool := pool' }
  | post (m : Mail) (bare : o.slotOf m = none) (fresh : m ∉ v.sent.map Prod.fst) :
      Move v .plain { v with queue := v.queue ++ [m], sent := v.sent ++ [(m, none)] }
  | postWith (m : Mail) (i : Nat) (slot : Slot) (owns : o.slotOf m = some i) (within : i < o.slots)
      (fresh : m ∉ v.sent.map Prod.fst) (spare : o.pending (v.pool i) = false)
      (filled : o.pending slot = true)
      (readable : ∀ who, o.mine who m = true → (o.read who m slot).isSome) :
      Move v .plain
        { v with
          queue := v.queue ++ [m]
          pool := Function.update v.pool i slot
          sent := v.sent ++ [(m, some slot)] }
  | work {who : Id} {h h' : Hand Mail Reading} {pre post : List (Id × Hand Mail Reading)}
      {pool' : Nat → Slot} {out : List (Id × Mail × Option Data)}
      (place : v.hands = pre ++ (who, h) :: post) (works : Work o who v.pool h h' pool' out) :
      Move v .plain
        { v with hands := pre ++ (who, h') :: post, pool := pool', served := v.served ++ out }
  | drain {who : Id} {pre post : List (Id × Hand Mail Reading)} (queue' : List Mail)
      (place : v.hands = pre ++ (who, .carrying []) :: post)
      (left : queue'.Perm (v.queue.filter fun m => o.counted m && !o.mine who m)) :
      Move v (.drain who)
        { v with
          queue := queue'
          hands := pre ++ (who, .carrying (v.queue.filter (o.mine who))) :: post }
  | purge (site : Site) (queue' : List Mail)
      (left : queue'.Perm (v.queue.filter fun m => o.counted m && !o.hits site m)) :
      Move v (.purge site)
        { v with
          queue := queue'
          purged := v.purged ++ (v.queue.filter (o.hits site)).map fun m => (site, m) }

/-- One move, or several that neither drain nor purge. -/
def Moves (v : o.State) (label : Label Id Site) (w : o.State) : Prop :=
  Move o v label w ∨ label = .plain ∧ Relation.ReflTransGen (fun a b => Move o a .plain b) v w

theorem moves_invariant (holds : o.State → Prop) (guard : o.State → Label Id Site → Prop)
    (free : ∀ v, guard v .plain)
    (preserved : ∀ v label w, holds v → guard v label → Move o v label w → holds w)
    {v w : o.State} {label : Label Id Site} (moves : Moves o v label w) (before : holds v)
    (meets : guard v label) : holds w := by
  rcases moves with move | ⟨_, chain⟩
  · exact preserved v label w before meets move
  · induction chain with
    | refl => exact before
    | tail _ move ih => exact preserved _ _ _ ih (free _) move

theorem work_holds {o : Office Id Site Mail Slot Reading Data} {who : Id} {pool pool' : Nat → Slot}
    {h h' : Hand Mail Reading} {out : List (Id × Mail × Option Data)}
    (works : Work o who pool h h' pool' out) :
    h'.held = h.held ∧ pool' = pool ∨
      ∃ m, h.held = m :: h'.held ∧ (∀ i, o.slotOf m ≠ some i → pool' i = pool i) ∧
        ((∀ i, o.slotOf m = some i → o.pending (pool' i) = false) ∨
          pool' = pool ∧ (o.mine who m = false ∨ ∃ rest, h = .busy m none rest)) := by
  cases works with
  | check m rest | invoke m reading rest | comeBack m reading rest => exact Or.inl ⟨rfl, rfl⟩
  | skip m rest foreign =>
    exact Or.inr ⟨m, rfl, fun _ _ => rfl, Or.inr ⟨rfl, Or.inl foreign⟩⟩
  | comeBackPlain m rest =>
    exact Or.inr ⟨m, rfl, fun _ _ => rfl, Or.inr ⟨rfl, Or.inr ⟨rest, rfl⟩⟩⟩
  | mark m rest pool' others released => exact Or.inr ⟨m, rfl, others, Or.inl released⟩

def refers (i : Nat) (m : Mail) : Bool := decide (o.slotOf m = some i)

structure Registered (v : o.State) : Prop where
  fresh : (v.sent.map Prod.fst).Nodup
  owned : ∀ m slot, (m, slot) ∈ v.sent → slot.isSome = (o.slotOf m).isSome
  within : ∀ m slot i, (m, slot) ∈ v.sent → o.slotOf m = some i → i < o.slots
  filled : ∀ m slot, (m, some slot) ∈ v.sent → o.pending slot = true ∧
    ∀ who, o.mine who m = true → (o.read who m slot).isSome

/-- Every live mail is one that was sent, its slot as it was then, and no slot has two. -/
structure Intact (v : o.State) : Prop where
  issued : ∀ m ∈ v.live, (m, (o.slotOf m).map v.pool) ∈ v.sent
  apart : ∀ i, v.live.countP (refers o i) ≤ 1

def ReadAs (pool : Nat → Slot) (who : Id) : Hand Mail Reading → Prop
  | .carrying _ => True
  | .ready m reading _ => reading = o.reading pool who m
  | .busy m reading _ => reading = o.reading pool who m
  | .marking m _ => o.slotOf m ≠ none

structure Handled (v : o.State) : Prop where
  mine : ∀ who h, (who, h) ∈ v.hands → ∀ m ∈ h.held, o.mine who m = true
  read : ∀ who h, (who, h) ∈ v.hands → ReadAs o v.pool who h

structure Recorded (v : o.State) : Prop where
  served : ∀ who m data, (who, m, data) ∈ v.served → o.mine who m = true ∧
    ∃ slot, (m, slot) ∈ v.sent ∧
      data = slot.bind fun slot => (o.read who m slot).map (o.content slot)
  purged : ∀ site m, (site, m) ∈ v.purged → o.hits site m = true

structure Sound (v : o.State) : Prop where
  registered : Registered o v
  intact : Intact o v
  handled : Handled o v
  recorded : Recorded o v

variable {o}

theorem registered_append {v w : o.State} (before : Registered o v) {m : Mail} {slot : Option Slot}
    (appended : w.sent = v.sent ++ [(m, slot)]) (new : m ∉ v.sent.map Prod.fst)
    (owns : slot.isSome = (o.slotOf m).isSome) (bound : ∀ i, o.slotOf m = some i → i < o.slots)
    (filled : ∀ x, slot = some x → o.pending x = true ∧
      ∀ who, o.mine who m = true → (o.read who m x).isSome) : Registered o w where
  fresh := by
    rw [appended, List.map_append]
    refine List.nodup_append.mpr ⟨before.fresh, by simp, ?_⟩
    intro x old y last same
    rw [List.map_cons, List.map_nil, List.mem_singleton] at last
    rw [same, last] at old
    exact new old
  owned x other member := by
    rw [appended, List.mem_append, List.mem_singleton, Prod.mk.injEq] at member
    rcases member with old | ⟨rfl, rfl⟩
    · exact before.owned x other old
    · exact owns
  within x other i member has := by
    rw [appended, List.mem_append, List.mem_singleton, Prod.mk.injEq] at member
    rcases member with old | ⟨rfl, rfl⟩
    · exact before.within x other i old has
    · exact bound i has
  filled x other member := by
    rw [appended, List.mem_append, List.mem_singleton, Prod.mk.injEq] at member
    rcases member with old | ⟨rfl, rfl⟩
    · exact before.filled x other old
    · exact filled other rfl

theorem move_registered {v w : o.State} {label : Label Id Site} (move : Move o v label w)
    (before : Registered o v) : Registered o w := by
  cases move with
  | stay | hire | reclaim | work | drain | purge =>
    exact ⟨before.fresh, before.owned, before.within, before.filled⟩
  | post m bare new =>
    exact registered_append before rfl new (by simp [bare]) (by simp [bare]) (by simp)
  | postWith m i slot owns bound new spare pends readable =>
    apply registered_append before rfl new (by simp [owns]) _ _
    · intro j has
      rw [owns, Option.some.injEq] at has
      exact has ▸ bound
    · intro x same
      rw [Option.some.injEq] at same
      exact same ▸ ⟨pends, readable⟩

theorem live_pending {v : o.State} (registered : Registered o v) (intact : Intact o v) {m : Mail}
    {i : Nat} (lives : m ∈ v.live) (owns : o.slotOf m = some i) : o.pending (v.pool i) = true := by
  have issued := intact.issued m lives
  rw [owns] at issued
  exact (registered.filled m _ issued).1

theorem spare_unreferred {v : o.State} (registered : Registered o v) (intact : Intact o v) {i : Nat}
    (spare : o.pending (v.pool i) = false) : v.live.countP (refers o i) = 0 := by
  apply List.countP_eq_zero.mpr
  intro m lives refer
  have := live_pending registered intact lives (of_decide_eq_true refer)
  simp [spare] at this

def dropped (o : Office Id Site Mail Slot Reading Data) : Label Id Site → Mail → Bool
  | .plain, _ => false
  | .drain who, m => !o.counted m && !o.mine who m
  | .purge site, m => !o.counted m || o.hits site m

theorem filter_thirds (p keep take : Mail → Bool) (l : List Mail) :
    (l.filter fun m => keep m && !take m).countP p + (l.filter take).countP p +
      (l.filter fun m => !keep m && !take m).countP p = l.countP p := by
  induction l with
  | nil => rfl
  | cons m rest ih =>
    simp only [List.filter_cons, List.countP_cons]
    cases keep m <;> cases take m <;> simp [List.countP_cons] <;> omega

theorem clean_live {v w : o.State} {label : Label Id Site} (move : Move o v label w)
    (cleans : label ≠ .plain) :
    w.sent = v.sent ∧ w.pool = v.pool ∧
      ∀ p, w.live.countP p + (v.queue.filter (dropped o label)).countP p = v.live.countP p := by
  cases move with
  | stay | hire | reclaim | post | postWith | work => exact absurd rfl cleans
  | @drain who pre post queue' place left =>
    refine ⟨rfl, rfl, fun p => ?_⟩
    have thirds := filter_thirds p o.counted (o.mine who) v.queue
    have same := left.countP_eq p
    have lost : dropped o (.drain who) = fun m => !o.counted m && !o.mine who m := rfl
    simp only [View.live, place, List.flatMap_append, List.flatMap_cons, held_carrying,
      List.countP_append, List.countP_nil, lost]
    omega
  | purge site queue' left =>
    refine ⟨rfl, rfl, fun p => ?_⟩
    have halves := List.countP_append ▸ (List.filter_append_perm
      (fun m => o.counted m && !o.hits site m) v.queue).countP_eq p
    have same := left.countP_eq p
    have lost : dropped o (.purge site) = fun m => !o.counted m || o.hits site m := rfl
    simp only [View.live, List.countP_append, Bool.not_and, Bool.not_not, lost] at halves ⊢
    omega

theorem work_live {v w : o.State} {who : Id} {h h' : Hand Mail Reading}
    {pre post : List (Id × Hand Mail Reading)} (lost : List Mail)
    (place : v.hands = pre ++ (who, h) :: post) (after : w.hands = pre ++ (who, h') :: post)
    (queue : w.queue = v.queue) (held : h.held = lost ++ h'.held) (p : Mail → Bool) :
    w.live.countP p + lost.countP p = v.live.countP p := by
  simp only [View.live, place, after, queue, held, List.flatMap_append, List.flatMap_cons,
    List.countP_append]
  omega

theorem mem_of_counts {l l' : List Mail} (fewer : ∀ p, l.countP p ≤ l'.countP p) {m : Mail}
    (member : m ∈ l) : m ∈ l' := by
  classical
  have counted := fewer fun x => decide (x = m)
  have : 0 < l.countP fun x => decide (x = m) := List.countP_pos_iff.mpr ⟨m, member, by simp⟩
  obtain ⟨x, member', same⟩ := List.countP_pos_iff.mp (Nat.lt_of_lt_of_le this counted)
  exact of_decide_eq_true same ▸ member'

theorem intact_of_fewer {v w : o.State} (before : Intact o v) (sent : w.sent = v.sent)
    (fewer : ∀ p, w.live.countP p ≤ v.live.countP p)
    (same : ∀ m ∈ w.live, ∀ i, o.slotOf m = some i → w.pool i = v.pool i) : Intact o w where
  issued m lives := by
    have issued := before.issued m (mem_of_counts fewer lives)
    rw [sent]
    cases owns : o.slotOf m with
    | none => simpa [owns] using issued
    | some i => simpa [owns, same m lives i owns] using issued
  apart i := Nat.le_trans (fewer _) (before.apart i)

theorem work_intact {v w : o.State} {who : Id} {h h' : Hand Mail Reading}
    {pre post : List (Id × Hand Mail Reading)} {out : List (Id × Mail × Option Data)}
    (before : Intact o v) (place : v.hands = pre ++ (who, h) :: post)
    (after : w.hands = pre ++ (who, h') :: post) (queue : w.queue = v.queue)
    (sent : w.sent = v.sent) (works : Work o who v.pool h h' w.pool out) : Intact o w := by
  rcases work_holds works with ⟨held, pool⟩ | ⟨m, held, others, _⟩
  · have counts := work_live [] place after queue (by simpa using held.symm)
    refine intact_of_fewer before sent (fun p => ?_) fun _ _ _ _ => by rw [pool]
    have := counts p
    omega
  · have counts := work_live [m] place after queue (by simpa using held)
    refine intact_of_fewer before sent (fun p => ?_) fun x lives i owns => ?_
    · have := counts p
      omega
    · apply others i
      intro owns'
      have twice := counts (refers o i)
      have apart := before.apart i
      have here : refers o i m = true := by simp [refers, owns']
      have there : 0 < w.live.countP (refers o i) :=
        List.countP_pos_iff.mpr ⟨x, lives, by simp [refers, owns]⟩
      simp only [List.countP_cons, List.countP_nil, here, reduceIte] at twice
      omega

theorem move_intact {v w : o.State} {label : Label Id Site} (move : Move o v label w)
    (registered : Registered o v) (before : Intact o v) : Intact o w := by
  cases move with
  | stay => exact before
  | hire who =>
    refine intact_of_fewer before rfl (fun p => ?_) fun _ _ _ _ => rfl
    simp [View.live, Hand.held]
  | reclaim pool' spare =>
    refine intact_of_fewer before rfl (fun p => Nat.le_refl _) fun m lives i owns => ?_
    have pends := live_pending registered before lives owns
    rcases spare i with same | ⟨idle, _⟩
    · exact same
    · simp [pends] at idle
  | post m bare new =>
    refine ⟨fun x lives => ?_, fun i => ?_⟩
    · simp only [View.live, List.mem_append, List.mem_singleton, or_assoc] at lives ⊢
      rcases lives with old | rfl | old
      · exact Or.inl (before.issued x (List.mem_append_left _ old))
      · exact Or.inr (by simp [bare])
      · exact Or.inl (before.issued x (List.mem_append_right _ old))
    · have apart := before.apart i
      simp only [View.live, List.countP_append, List.countP_cons, List.countP_nil, refers, bare]
        at apart ⊢
      simpa using apart
  | postWith m i slot owns bound new spare pends readable =>
    have unreferred := spare_unreferred registered before spare
    refine ⟨fun x lives => ?_, fun j => ?_⟩
    · have kept : x ∈ v.live → (x, (o.slotOf x).map (Function.update v.pool i slot)) ∈ v.sent := by
        intro old
        have issued := before.issued x old
        cases has : o.slotOf x with
        | none => simpa [has] using issued
        | some j =>
          have other : j ≠ i := by
            rintro rfl
            exact List.countP_eq_zero.mp unreferred x old (by simp [refers, has])
          simpa [has, Function.update_of_ne other] using issued
      simp only [View.live, List.mem_append, List.mem_singleton, or_assoc] at lives ⊢
      rcases lives with old | rfl | old
      · exact Or.inl (kept (List.mem_append_left _ old))
      · exact Or.inr (by simp [owns])
      · exact Or.inl (kept (List.mem_append_right _ old))
    · have apart := before.apart j
      simp only [View.live, List.countP_append, List.countP_cons, List.countP_nil] at apart ⊢
      by_cases same : j = i
      · subst same
        simp only [View.live, List.countP_append] at unreferred
        split <;> omega
      · have other : refers o j m = false := by simp [refers, owns, Ne.symm same]
        simp only [other]
        simpa using apart
  | work place works => exact work_intact before place rfl rfl rfl works
  | drain queue' place left =>
    obtain ⟨sent, pool, counts⟩ := clean_live (.drain queue' place left) (by simp)
    refine intact_of_fewer before sent (fun p => ?_) fun _ _ _ _ => by rw [pool]
    have := counts p
    omega
  | purge site queue' left =>
    obtain ⟨sent, pool, counts⟩ := clean_live (.purge site queue' left) (by simp)
    refine intact_of_fewer before sent (fun p => ?_) fun _ _ _ _ => by rw [pool]
    have := counts p
    omega

theorem move_sent {v w : o.State} {label : Label Id Site} (move : Move o v label w) :
    v.sent ⊆ w.sent := by
  cases move with
  | stay | hire | reclaim | work | drain | purge => exact List.Subset.refl _
  | post | postWith => exact List.subset_append_left _ _

/-- The record of a mail fixes the content of its slot while the mail is live. -/
theorem pool_agrees {v w : o.State} (registered : Registered o w) (before : Intact o v)
    (after : Intact o w) (kept : v.sent ⊆ w.sent) {m : Mail} {i : Nat} (was : m ∈ v.live)
    (lives : m ∈ w.live) (owns : o.slotOf m = some i) : w.pool i = v.pool i := by
  have first := kept (before.issued m was)
  have second := after.issued m lives
  rw [owns] at first second
  have same := List.inj_on_of_nodup_map registered.fresh second first rfl
  simpa using same

theorem held_live {v : o.State} {who : Id} {h : Hand Mail Reading} (present : (who, h) ∈ v.hands)
    {m : Mail} (held : m ∈ h.held) : m ∈ v.live :=
  List.mem_append_right _ (List.mem_flatMap.mpr ⟨(who, h), present, held⟩)

theorem readAs_same {pool pool' : Nat → Slot} {who : Id} {h : Hand Mail Reading}
    (read : ReadAs o pool who h)
    (same : ∀ m ∈ h.held, ∀ i, o.slotOf m = some i → pool' i = pool i) : ReadAs o pool' who h := by
  have reading : ∀ m ∈ h.held, o.reading pool' who m = o.reading pool who m := by
    intro m held
    unfold Office.reading
    cases owns : o.slotOf m with
    | none => rfl
    | some i => simp [same m held i owns]
  cases h with
  | carrying rest => trivial
  | ready m r rest | busy m r rest =>
    simp only [ReadAs] at read ⊢
    rw [read, reading m (List.mem_cons_self ..)]
  | marking m rest => exact read

theorem work_read {who : Id} {pool pool' : Nat → Slot} {h h' : Hand Mail Reading}
    {out : List (Id × Mail × Option Data)} (works : Work o who pool h h' pool' out)
    (read : ReadAs o pool who h) : ReadAs o pool' who h' := by
  cases works with
  | check m rest => rfl
  | skip | comeBackPlain | mark => trivial
  | invoke m reading rest => exact read
  | comeBack m reading rest =>
    intro owns
    simp [ReadAs, Office.reading, owns] at read

theorem work_held {who : Id} {pool pool' : Nat → Slot} {h h' : Hand Mail Reading}
    {out : List (Id × Mail × Option Data)} (works : Work o who pool h h' pool' out) :
    h'.held ⊆ h.held := by
  rcases work_holds works with ⟨same, _⟩ | ⟨m, held, _⟩
  · rw [same]
    exact List.Subset.refl _
  · rw [held]
    exact List.subset_cons_self _ _

theorem hand_replaced {hands pre post : List (Id × Hand Mail Reading)} {who x : Id}
    {h h' g : Hand Mail Reading} (place : hands = pre ++ (who, h) :: post)
    (present : (x, g) ∈ pre ++ (who, h') :: post) : (x, g) ∈ hands ∨ x = who ∧ g = h' := by
  simp only [List.mem_append, List.mem_cons, Prod.mk.injEq, place] at present ⊢
  rcases present with before | moved | behind
  · exact Or.inl (Or.inl before)
  · exact Or.inr moved
  · exact Or.inl (Or.inr (Or.inr behind))

theorem move_handled {v w : o.State} {label : Label Id Site} (move : Move o v label w)
    (registered : Registered o v) (intact : Intact o v) (before : Handled o v) : Handled o w := by
  have registered' := move_registered move registered
  have intact' := move_intact move registered intact
  have kept := move_sent move
  have readOld : ∀ who h, (who, h) ∈ v.hands → (who, h) ∈ w.hands → ReadAs o w.pool who h :=
    fun who h was present => readAs_same (before.read who h was) fun m held i owns =>
      pool_agrees registered' intact intact' kept (held_live was held) (held_live present held) owns
  cases move with
  | stay => exact before
  | reclaim | post | postWith | purge =>
    exact ⟨before.mine, fun who h present => readOld who h present present⟩
  | hire who =>
    refine ⟨fun x h present => ?_, fun x h present => ?_⟩
    · rcases List.mem_append.mp present with old | new
      · exact before.mine x h old
      · simp only [List.mem_singleton, Prod.mk.injEq] at new
        simp [new.2, Hand.held]
    · rcases List.mem_append.mp present with old | new
      · exact readOld x h old present
      · simp only [List.mem_singleton, Prod.mk.injEq] at new
        simp [new.2, ReadAs]
  | @work who h h' pre post pool' out place works =>
    have was : (who, h) ∈ v.hands := by simp [place]
    refine ⟨fun x g present => ?_, fun x g present => ?_⟩
    · rcases hand_replaced place present with old | ⟨rfl, rfl⟩
      · exact before.mine x g old
      · exact fun m held => before.mine x h was m (work_held works held)
    · rcases hand_replaced place present with old | ⟨rfl, rfl⟩
      · exact readOld x g old present
      · exact work_read works (before.read x h was)
  | @drain who pre post queue' place left =>
    refine ⟨fun x g present => ?_, fun x g present => ?_⟩
    · rcases hand_replaced place present with old | ⟨rfl, rfl⟩
      · exact before.mine x g old
      · exact fun m held => (List.mem_filter.mp held).2
    · rcases hand_replaced place present with old | ⟨rfl, rfl⟩
      · exact readOld x g old present
      · trivial

theorem work_recorded {v : o.State} {who : Id} {pool' : Nat → Slot} {h h' : Hand Mail Reading}
    {out : List (Id × Mail × Option Data)} (works : Work o who v.pool h h' pool' out)
    (intact : Intact o v) (handled : Handled o v) (present : (who, h) ∈ v.hands) :
    ∀ x m data, (x, m, data) ∈ out → o.mine x m = true ∧ ∃ slot, (m, slot) ∈ v.sent ∧
      data = slot.bind fun slot => (o.read x m slot).map (o.content slot) := by
  cases works with
  | check | skip | comeBack | comeBackPlain | mark => simp
  | invoke m reading rest =>
    intro x y data member
    simp only [List.mem_singleton, Prod.mk.injEq] at member
    obtain ⟨rfl, rfl, rfl⟩ := member
    have held : y ∈ (Hand.ready y reading rest).held := List.mem_cons_self ..
    have read := handled.read x _ present
    refine ⟨handled.mine x _ present y held, _, intact.issued y (held_live present held), ?_⟩
    simp only [ReadAs, Office.reading] at read
    simp only [Office.delivery, read]
    cases o.slotOf y <;> rfl

theorem move_recorded {v w : o.State} {label : Label Id Site} (move : Move o v label w)
    (intact : Intact o v) (handled : Handled o v) (before : Recorded o v) : Recorded o w := by
  have kept := move_sent move
  have servedOld : ∀ who m data, (who, m, data) ∈ v.served → o.mine who m = true ∧
      ∃ slot, (m, slot) ∈ w.sent ∧
        data = slot.bind fun slot => (o.read who m slot).map (o.content slot) := by
    intro who m data member
    obtain ⟨mine, slot, sent, same⟩ := before.served who m data member
    exact ⟨mine, slot, kept sent, same⟩
  cases move with
  | stay | hire | reclaim | post | postWith | drain => exact ⟨servedOld, before.purged⟩
  | @work who h h' pre post pool' out place works =>
    refine ⟨fun x m data member => ?_, before.purged⟩
    rcases List.mem_append.mp member with old | new
    · exact servedOld x m data old
    · exact work_recorded works intact handled (by simp [place]) x m data new
  | purge site queue' left =>
    refine ⟨servedOld, fun x m member => ?_⟩
    rcases List.mem_append.mp member with old | new
    · exact before.purged x m old
    · obtain ⟨y, hit, same⟩ := List.mem_map.mp new
      simp only [Prod.mk.injEq] at same
      exact same.1 ▸ same.2 ▸ (List.mem_filter.mp hit).2

theorem move_sound {v w : o.State} {label : Label Id Site} (move : Move o v label w)
    (before : Sound o v) : Sound o w where
  registered := move_registered move before.registered
  intact := move_intact move before.registered before.intact
  handled := move_handled move before.registered before.intact before.handled
  recorded := move_recorded move before.intact before.handled before.recorded

/-- Every counted mail that was sent is in one place for each time it was sent. -/
def Conserved [DecidableEq Mail] (o : Office Id Site Mail Slot Reading Data) (v : o.State) : Prop :=
  ∀ m, o.counted m = true →
    v.queue.count m + v.undelivered.count m + (v.served.map fun e => e.2.1).count m +
      (v.purged.map Prod.snd).count m = (v.sent.map Prod.fst).count m

theorem count_filter_of [DecidableEq Mail] (q : Mail → Bool) (l : List Mail) (m : Mail) :
    (l.filter q).count m = if q m then l.count m else 0 := by
  split
  · rename_i accepted
    exact List.count_filter accepted
  · rename_i rejected
    exact List.count_eq_zero.mpr fun member => rejected (List.mem_filter.mp member).2

theorem work_conserves [DecidableEq Mail] {who : Id} {pool pool' : Nat → Slot}
    {h h' : Hand Mail Reading} {out : List (Id × Mail × Option Data)}
    (works : Work o who pool h h' pool' out) (mine : ∀ m ∈ h.held, o.mine who m = true) (m : Mail) :
    h'.undelivered.count m + (out.map fun e => e.2.1).count m = h.undelivered.count m := by
  cases works with
  | check x rest | comeBack x reading rest | comeBackPlain x rest | mark x rest => rfl
  | skip x rest foreign =>
    have := mine x (List.mem_cons_self ..)
    simp [foreign] at this
  | invoke x reading rest =>
    simp only [Hand.undelivered, List.map_cons, List.map_nil, List.count_cons, List.count_nil]
    omega

theorem move_conserved [DecidableEq Mail] {v w : o.State} {label : Label Id Site}
    (move : Move o v label w) (handled : Handled o v) (before : Conserved o v) : Conserved o w := by
  intro m counts
  have total := before m counts
  cases move with
  | stay | reclaim => exact total
  | hire who => simpa [View.undelivered, Hand.undelivered] using total
  | post | postWith =>
    simp only [List.map_append, List.map_cons, List.map_nil, List.count_append] at total ⊢
    simp only [View.undelivered] at total ⊢
    omega
  | @work who h h' pre post pool' out place works =>
    have same := work_conserves works (handled.mine who h (by simp [place])) m
    simp only [View.undelivered, place, List.flatMap_append, List.flatMap_cons, List.count_append,
      List.map_append] at total ⊢
    omega
  | @drain who pre post queue' place left =>
    have rest := left.count_eq m
    simp only [View.undelivered, place, List.flatMap_append, List.flatMap_cons, List.count_append,
      Hand.undelivered, List.count_nil, rest, count_filter_of, counts, Bool.true_and] at total ⊢
    cases o.mine who m <;>
      simp only [Bool.not_true, Bool.not_false, reduceIte, Bool.false_eq_true] <;> omega
  | purge site queue' left =>
    have rest := left.count_eq m
    simp only [View.undelivered, List.map_append, List.map_map, List.count_append, rest,
      count_filter_of, counts, Bool.true_and, Function.comp_def, List.map_id'] at total ⊢
    cases o.hits site m <;>
      simp only [Bool.not_true, Bool.not_false, reduceIte, Bool.false_eq_true] <;> omega

def Kept (o : Office Id Site Mail Slot Reading Data) (v : o.State) : Prop :=
  ∀ i, i < o.slots → o.pending (v.pool i) = true → v.live.countP (refers o i) = 1

/-- The condition on clean-ups: what they lose owns no slot. -/
def KeepsSlots (o : Office Id Site Mail Slot Reading Data) (v : o.State)
    (label : Label Id Site) : Prop :=
  ∀ m ∈ v.queue, dropped o label m = true → o.slotOf m = none

theorem busy_plain {v : o.State} (sound : Sound o v) {who : Id} {m : Mail} {rest : List Mail}
    (present : (who, .busy m none rest) ∈ v.hands) : o.slotOf m = none := by
  have held : m ∈ (Hand.busy m none rest : Hand Mail Reading).held := List.mem_cons_self ..
  have read := sound.handled.read who _ present
  have issued := sound.intact.issued m (held_live present held)
  cases owns : o.slotOf m with
  | none => rfl
  | some i =>
    rw [owns] at issued
    have readable := (sound.registered.filled m _ issued).2 who
      (sound.handled.mine who _ present m held)
    simp only [ReadAs, Office.reading, owns, Option.bind_some] at read
    simp [← read] at readable

theorem work_kept {v w : o.State} (sound : Sound o v) (kept : Kept o v) {who : Id}
    {h h' : Hand Mail Reading} {pre post : List (Id × Hand Mail Reading)}
    {out : List (Id × Mail × Option Data)} (place : v.hands = pre ++ (who, h) :: post)
    (after : w.hands = pre ++ (who, h') :: post) (queue : w.queue = v.queue)
    (works : Work o who v.pool h h' w.pool out) : Kept o w := by
  have present : (who, h) ∈ v.hands := by simp [place]
  intro i bound pends
  rcases work_holds works with ⟨held, pool⟩ | ⟨m, held, others, released⟩
  · have counts := work_live [] place after queue (by simpa using held.symm)
    have := counts (refers o i)
    have := kept i bound (pool ▸ pends)
    simp only [List.countP_nil] at *
    omega
  · have counts := work_live [m] place after queue (by simpa using held) (refers o i)
    have unowned : o.slotOf m ≠ some i := by
      intro owns
      rcases released with released | ⟨_, foreign | ⟨rest, rfl⟩⟩
      · simp [released i owns] at pends
      · have := sound.handled.mine who h present m (by simp [held])
        simp [foreign] at this
      · have same : m = _ := (List.cons.inj held).1.symm
        have := busy_plain sound present
        rw [← same, owns] at this
        simp at this
    have := kept i bound (others i unowned ▸ pends)
    have off : refers o i m = false := by simp [refers, unowned]
    simp only [List.countP_cons, List.countP_nil, off] at counts
    simp at counts
    omega

theorem clean_kept_iff {v w : o.State} {label : Label Id Site} (move : Move o v label w)
    (sound : Sound o v) (kept : Kept o v) (cleans : label ≠ .plain) :
    Kept o w ↔ KeepsSlots o v label := by
  obtain ⟨sent, pool, counts⟩ := clean_live move cleans
  constructor
  · intro kept' m queued lost
    cases owns : o.slotOf m with
    | none => rfl
    | some i =>
      have lives : m ∈ v.live := List.mem_append_left _ queued
      have bound := sound.registered.within m _ i (sound.intact.issued m lives) owns
      have pends := live_pending sound.registered sound.intact lives owns
      have one := kept' i bound (pool ▸ pends)
      have apart := sound.intact.apart i
      have total := counts (refers o i)
      have there : 0 < (v.queue.filter (dropped o label)).countP (refers o i) :=
        List.countP_pos_iff.mpr ⟨m, List.mem_filter.mpr ⟨queued, lost⟩, by simp [refers, owns]⟩
      omega
  · intro keeps i bound pends
    have one := kept i bound (pool ▸ pends)
    have total := counts (refers o i)
    have none_lost : (v.queue.filter (dropped o label)).countP (refers o i) = 0 := by
      apply List.countP_eq_zero.mpr
      intro m member refer
      obtain ⟨queued, lost⟩ := List.mem_filter.mp member
      simp [refers, keeps m queued lost] at refer
    omega

theorem plain_kept {v w : o.State} (move : Move o v .plain w) (sound : Sound o v)
    (kept : Kept o v) : Kept o w := by
  cases move with
  | stay => exact kept
  | hire who =>
    intro i bound pends
    have one := kept i bound pends
    simpa [View.live, Hand.held] using one
  | reclaim pool' spare =>
    intro i bound pends
    rcases spare i with same | ⟨_, idle⟩
    · exact kept i bound (same ▸ pends)
    · simp [idle] at pends
  | post m bare new =>
    intro i bound pends
    have one := kept i bound pends
    have off : refers o i m = false := by simp [refers, bare]
    simp only [View.live, List.countP_append, List.countP_cons, List.countP_nil, off] at one ⊢
    simpa using one
  | postWith m i slot owns within new spare filled readable =>
    intro j bound pends
    simp only [View.live, List.countP_append, List.countP_cons, List.countP_nil]
    by_cases same : j = i
    · subst same
      have unreferred := spare_unreferred sound.registered sound.intact spare
      have here : refers o j m = true := by simp [refers, owns]
      simp only [View.live, List.countP_append] at unreferred
      simp only [here, reduceIte]
      omega
    · simp only [Function.update_of_ne same] at pends
      have one := kept j bound pends
      have off : refers o j m = false := by simp [refers, owns, Ne.symm same]
      simp only [View.live, List.countP_append] at one
      simp only [off]
      simpa using one
  | work place works => exact work_kept sound kept place rfl rfl works

/-- Slots stay owned exactly over the moves that keep them. -/
theorem move_kept_iff {v w : o.State} {label : Label Id Site} (move : Move o v label w)
    (sound : Sound o v) (kept : Kept o v) : Kept o w ↔ KeepsSlots o v label := by
  cases label with
  | plain =>
    exact ⟨fun _ _ _ lost => by simp [dropped] at lost, fun _ => plain_kept move sound kept⟩
  | drain who => exact clean_kept_iff move sound kept (by simp)
  | purge site => exact clean_kept_iff move sound kept (by simp)

/-- The mails that a pending slot can be due to: those that still need it and those that a
    purge removed. -/
def View.owing (v : View Id Site Mail Slot Reading Data) : List Mail :=
  v.live ++ v.purged.map Prod.snd

/-- The exact account of the slots: a slot is pending for one owing mail, or for none. -/
structure Settled (o : Office Id Site Mail Slot Reading Data) (v : o.State) : Prop where
  due : ∀ i, i < o.slots → v.owing.countP (refers o i) = if o.pending (v.pool i) then 1 else 0
  within : ∀ m ∈ v.purged.map Prod.snd, ∀ i, o.slotOf m = some i → i < o.slots

theorem work_settled {v w : o.State} (sound : Sound o v) (settled : Settled o v) {who : Id}
    {h h' : Hand Mail Reading} {pre post : List (Id × Hand Mail Reading)}
    {out : List (Id × Mail × Option Data)} (place : v.hands = pre ++ (who, h) :: post)
    (after : w.hands = pre ++ (who, h') :: post) (queue : w.queue = v.queue)
    (purged : w.purged = v.purged) (works : Work o who v.pool h h' w.pool out) : Settled o w := by
  have present : (who, h) ∈ v.hands := by simp [place]
  refine ⟨fun i bound => ?_, purged ▸ settled.within⟩
  have before := settled.due i bound
  simp only [View.owing, List.countP_append, purged] at before ⊢
  rcases work_holds works with ⟨held, pool⟩ | ⟨m, held, others, released⟩
  · have counts := work_live [] place after queue (by simpa using held.symm) (refers o i)
    simp only [List.countP_nil] at counts
    rw [pool]
    omega
  · have counts := work_live [m] place after queue (by simpa using held) (refers o i)
    simp only [List.countP_cons, List.countP_nil] at counts
    by_cases owns : o.slotOf m = some i
    · have lives : m ∈ v.live := held_live present (by simp [held])
      have waits := live_pending sound.registered sound.intact lives owns
      have mine : refers o i m = true := by simp [refers, owns]
      have done : o.pending (w.pool i) = false := by
        rcases released with released | ⟨_, foreign | ⟨rest, rfl⟩⟩
        · exact released i owns
        · have := sound.handled.mine who h present m (by simp [held])
          simp [foreign] at this
        · have same : m = _ := (List.cons.inj held).1.symm
          have := busy_plain sound present
          rw [← same, owns] at this
          simp at this
      simp only [waits, done, mine, reduceIte, Bool.false_eq_true] at before counts ⊢
      omega
    · have off : refers o i m = false := by simp [refers, owns]
      simp only [off, Bool.false_eq_true, reduceIte] at counts
      rw [others i owns]
      omega

theorem clean_purged {v w : o.State} {label : Label Id Site} (move : Move o v label w)
    (cleans : label ≠ .plain) (counted : ∀ m ∈ v.queue, o.counted m = true) :
    w.purged.map Prod.snd = v.purged.map Prod.snd ++ v.queue.filter (dropped o label) := by
  cases move with
  | stay | hire | reclaim | post | postWith | work => exact absurd rfl cleans
  | @drain who pre post queue' place left =>
    have none_lost : v.queue.filter (dropped o (.drain who)) = [] := by
      apply List.filter_eq_nil_iff.mpr
      intro m queued
      simp [dropped, counted m queued]
    simp only [none_lost, List.append_nil]
  | purge site queue' left =>
    have lost : v.queue.filter (dropped o (.purge site)) = v.queue.filter (o.hits site) := by
      apply List.filter_congr
      intro m queued
      simp [dropped, counted m queued]
    simp [lost, List.map_map, Function.comp_def]

theorem clean_settled {v w : o.State} {label : Label Id Site} (move : Move o v label w)
    (cleans : label ≠ .plain) (sound : Sound o v) (counted : ∀ m ∈ v.queue, o.counted m = true)
    (settled : Settled o v) : Settled o w := by
  obtain ⟨_, pool, counts⟩ := clean_live move cleans
  have purged := clean_purged move cleans counted
  constructor
  · intro i bound
    have before := settled.due i bound
    have same := counts (refers o i)
    rw [pool, ← before, View.owing, View.owing, purged, List.countP_append, List.countP_append,
      List.countP_append]
    omega
  · intro m member i owns
    rw [purged] at member
    rcases List.mem_append.mp member with old | new
    · exact settled.within m old i owns
    · have lives : m ∈ v.live := List.mem_append_left _ (List.mem_of_mem_filter new)
      exact sound.registered.within m _ i (sound.intact.issued m lives) owns

def CleansCounted (o : Office Id Site Mail Slot Reading Data) (v : o.State)
    (label : Label Id Site) : Prop :=
  label ≠ .plain → ∀ m ∈ v.queue, o.counted m = true

/-- The account is kept by every move that cleans up counted mails only. -/
theorem move_settled {v w : o.State} {label : Label Id Site} (move : Move o v label w)
    (sound : Sound o v) (counted : CleansCounted o v label) (settled : Settled o v) :
    Settled o w := by
  cases move with
  | stay => exact settled
  | hire who =>
    refine ⟨fun i bound => ?_, settled.within⟩
    have before := settled.due i bound
    simpa [View.owing, View.live, Hand.held] using before
  | reclaim pool' spare =>
    refine ⟨fun i bound => ?_, settled.within⟩
    have before := settled.due i bound
    rcases spare i with same | ⟨was, is⟩
    · simpa [View.owing, View.live, same] using before
    · simpa [View.owing, View.live, was, is] using before
  | post m bare new =>
    refine ⟨fun i bound => ?_, settled.within⟩
    have before := settled.due i bound
    have off : refers o i m = false := by simp [refers, bare]
    simp only [View.owing, View.live, List.countP_append, List.countP_singleton, off,
      Bool.false_eq_true, reduceIte] at before ⊢
    omega
  | postWith m i slot owns bound new spare filled readable =>
    refine ⟨fun j inside => ?_, settled.within⟩
    have before := settled.due j inside
    simp only [View.owing, View.live, List.countP_append, List.countP_singleton] at before ⊢
    by_cases same : j = i
    · subst same
      have mine : refers o j m = true := by simp [refers, owns]
      simp only [spare, Bool.false_eq_true, reduceIte] at before
      simp only [mine, Function.update_self, filled, reduceIte]
      omega
    · have off : refers o j m = false := by simp [refers, owns, Ne.symm same]
      simp only [off, Bool.false_eq_true, reduceIte, Function.update_of_ne same]
      omega
  | work place works => exact work_settled sound settled place rfl rfl rfl works
  | drain queue' place left =>
    exact clean_settled (.drain queue' place left) (by simp) sound (counted (by simp)) settled
  | purge site queue' left =>
    exact clean_settled (.purge site queue' left) (by simp) sound (counted (by simp)) settled

theorem pending_owing {v : o.State} (sound : Sound o v) (settled : Settled o v) :
    (List.range o.slots).countP (fun i => o.pending (v.pool i)) =
      v.owing.countP fun m => (o.slotOf m).isSome := by
  have inside : ∀ i ∈ v.owing.filterMap o.slotOf, i < o.slots := by
    intro i member
    obtain ⟨m, owing, owns⟩ := List.mem_filterMap.mp member
    rcases List.mem_append.mp owing with lives | purged
    · exact sound.registered.within m _ i (sound.intact.issued m lives) owns
    · exact settled.within m purged i owns
  have count : ∀ i, (v.owing.filterMap o.slotOf).count i = v.owing.countP (refers o i) := by
    intro i
    rw [List.count_filterMap]
    apply List.countP_congr
    intro m _
    simp [refers]
  have once : (v.owing.filterMap o.slotOf).Nodup := by
    apply List.nodup_iff_count_le_one.mpr
    intro i
    by_cases bound : i < o.slots
    · rw [count, settled.due i bound]
      split <;> omega
    · rw [List.count_eq_zero.mpr fun member => bound (inside i member)]
      omega
  have same : ((List.range o.slots).filter fun i => o.pending (v.pool i)).Perm
      (v.owing.filterMap o.slotOf) := by
    apply (List.perm_ext_iff_of_nodup (List.nodup_range.filter _) once).mpr
    intro i
    rw [List.mem_filter, List.mem_range, ← List.count_pos_iff, count]
    constructor
    · rintro ⟨bound, waits⟩
      rw [settled.due i bound, waits]
      decide
    · intro due
      have bound : i < o.slots := inside i (List.count_pos_iff.mp (count i ▸ due))
      rw [settled.due i bound] at due
      refine ⟨bound, ?_⟩
      cases waits : o.pending (v.pool i) with
      | true => rfl
      | false => simp [waits] at due
  rw [List.countP_eq_length_filter, same.length_eq, List.length_filterMap_eq_countP]

end Courier
