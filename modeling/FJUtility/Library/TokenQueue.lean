import Mathlib.Data.List.Perm.Basic

/- A queue served by interchangeable agents. An agent serves an element only after
   consuming a ready entry of the queue; entries and serving agents are its tokens.
   The flag running is what a producer sees of the tokens. -/
namespace TokenQueue
variable {T : Type}

inductive Phase where
  | taken
  | executing
  | ended
  deriving DecidableEq, Repr

/-- held lists the agents between taking an element and giving back the token. -/
structure View (T : Type) where
  queue : List T
  running : Bool
  ready : Nat
  held : List (Phase × T)
  posted : List T
  dequeued : List T
  started : List T
  ended : List T

def View.tokens (v : View T) : Nat := v.ready + v.held.length

def phaseIs (p : Phase) (h : Phase × T) : Option T := if h.1 = p then some h.2 else none

def View.holding (v : View T) (p : Phase) : List T := v.held.filterMap (phaseIs p)

def View.unfinished (v : View T) : List T :=
  v.queue ++ (v.holding .taken ++ v.holding .executing)

def View.grants (v : View T) (forced : Bool) : Bool := !v.running || forced

def View.accept (v : View T) (t : T) (forced : Bool) : View T :=
  { v with
    queue := v.queue ++ [t]
    running := v.running || v.grants forced
    ready := v.ready + (if v.grants forced then 1 else 0)
    posted := v.posted ++ [t] }

inductive Label (T : Type) where
  | post (t : T) (forced : Bool)
  | serve

inductive Move (v : View T) : Label T → View T → Prop where
  | stay : Move v .serve v
  | post (t : T) (forced : Bool) : Move v (.post t forced) (v.accept t forced)
  | surplus {n : Nat} (entry : v.ready = n + 1) (empty : v.queue = []) :
      Move v .serve { v with ready := n, running := false }
  | take {n : Nat} {t : T} {rest : List T} {pre post : List (Phase × T)}
      (entry : v.ready = n + 1) (front : v.queue = t :: rest) (place : v.held = pre ++ post) :
      Move v .serve
        { v with
          ready := n
          queue := rest
          held := pre ++ (.taken, t) :: post
          dequeued := v.dequeued ++ [t] }
  | start {t : T} {pre post : List (Phase × T)}
      (place : v.held = pre ++ (.taken, t) :: post) :
      Move v .serve
        { v with held := pre ++ (.executing, t) :: post, started := v.started ++ [t] }
  | finish {t : T} {pre post : List (Phase × T)}
      (place : v.held = pre ++ (.executing, t) :: post) :
      Move v .serve { v with held := pre ++ (.ended, t) :: post, ended := v.ended ++ [t] }
  | again {t : T} {pre post : List (Phase × T)}
      (place : v.held = pre ++ (.ended, t) :: post) (more : v.queue ≠ []) :
      Move v .serve { v with held := pre ++ post, ready := v.ready + 1 }
  | idle {t : T} {pre post : List (Phase × T)}
      (place : v.held = pre ++ (.ended, t) :: post) (empty : v.queue = []) :
      Move v .serve { v with held := pre ++ post, running := false }

theorem serve_posted {v w : View T} (move : Move v .serve w) : w.posted = v.posted := by
  cases move <;> rfl

def View.empty : View T := ⟨[], false, 0, [], [], [], [], []⟩

/-- Every element posted is queued or was dequeued, in order, and every dequeued one
    is with an agent or has been served, once each. -/
structure Accounted (v : View T) : Prop where
  queued : v.posted = v.dequeued ++ v.queue
  taken : v.dequeued.Perm (v.started ++ v.holding .taken)
  served : v.started.Perm (v.ended ++ v.holding .executing)

theorem accounted_empty : Accounted (View.empty : View T) := by
  constructor <;> simp [View.empty, View.holding]

theorem move_accounted {label : Label T} {v w : View T} (move : Move v label w)
    (before : Accounted v) : Accounted w := by
  obtain ⟨queued, taken, served⟩ := before
  cases move with
  | stay => exact ⟨queued, taken, served⟩
  | post t forced => exact ⟨by simp [View.accept, queued], taken, served⟩
  | surplus entry empty => exact ⟨queued, taken, served⟩
  | @take n t rest pre post entry front place =>
    refine ⟨by simp [queued, front], ?_, ?_⟩
    · have grown := taken.append_right [t]
      apply grown.trans
      simp only [View.holding, place, List.filterMap_append, List.filterMap_cons, phaseIs,
        reduceIte, List.append_assoc]
      exact ((List.perm_append_comm).append_left _).append_left _
    · simpa [View.holding, place, phaseIs] using served
  | @start t pre post place =>
    refine ⟨queued, ?_, ?_⟩
    · apply taken.trans
      simp only [View.holding, place, List.filterMap_append, List.filterMap_cons, phaseIs,
        reduceIte, reduceCtorEq, List.append_assoc, List.singleton_append]
      exact List.perm_middle.append_left _
    · have grown := served.append_right [t]
      apply grown.trans
      simp only [View.holding, place, List.filterMap_append, List.filterMap_cons, phaseIs,
        reduceIte, reduceCtorEq, List.append_assoc]
      exact ((List.perm_append_comm).append_left _).append_left _
  | @finish t pre post place =>
    refine ⟨queued, ?_, ?_⟩
    · simpa [View.holding, place, phaseIs] using taken
    · apply served.trans
      simp only [View.holding, place, List.filterMap_append, List.filterMap_cons, phaseIs,
        reduceIte, reduceCtorEq, List.append_assoc, List.singleton_append]
      exact List.perm_middle.append_left _
  | @again t pre post place more =>
    exact ⟨queued, by simpa [View.holding, place, phaseIs] using taken,
      by simpa [View.holding, place, phaseIs] using served⟩
  | @idle t pre post place empty =>
    exact ⟨queued, by simpa [View.holding, place, phaseIs] using taken,
      by simpa [View.holding, place, phaseIs] using served⟩

structure Backed (v : View T) : Prop where
  running : v.running = true → 0 < v.tokens
  queued : v.queue ≠ [] → 0 < v.tokens

theorem backed_empty : Backed (View.empty : View T) := by
  constructor <;> simp [View.empty]

theorem backed_of_token {v : View T} (token : 0 < v.tokens) : Backed v :=
  ⟨fun _ => token, fun _ => token⟩

theorem accept_backed {v : View T} (t : T) (forced : Bool) (before : Backed v) :
    Backed (v.accept t forced) := by
  apply backed_of_token
  by_cases granted : v.grants forced = true
  · simp only [View.tokens, View.accept, granted, reduceIte]
    omega
  · have running : v.running = true := by
      simp only [View.grants, Bool.or_eq_true, Bool.not_eq_true'] at granted
      simpa using fun h => granted (Or.inl h)
    have := before.running running
    simp only [View.tokens, View.accept] at *
    omega

theorem move_backed {label : Label T} {v w : View T} (move : Move v label w)
    (before : Backed v) : Backed w := by
  obtain ⟨running, queued⟩ := before
  cases move with
  | stay => exact ⟨running, queued⟩
  | post t forced => exact accept_backed t forced ⟨running, queued⟩
  | surplus entry empty => exact ⟨by simp, by simp [empty]⟩
  | take entry front place | start place | finish place =>
    apply backed_of_token
    simp only [View.tokens, List.length_append, List.length_cons]
    omega
  | again place more =>
    apply backed_of_token
    simp only [View.tokens]
    omega
  | idle place empty => exact ⟨by simp, by simp [empty]⟩

/-- One token at most: the flag tells whether it exists, and the agents' work follows
    the order of the queue one element at a time. -/
structure Serial (v : View T) : Prop where
  tokens : v.tokens = if v.running then 1 else 0
  taken : v.dequeued = v.started ++ v.holding .taken
  served : v.started = v.ended ++ v.holding .executing

theorem serial_empty : Serial (View.empty : View T) := by
  constructor <;> simp [View.empty, View.tokens, View.holding]

theorem serial_tokens_le {v : View T} (serial : Serial v) : v.tokens ≤ 1 := by
  rw [serial.tokens]
  split <;> omega

theorem serial_alone {v : View T} (serial : Serial v) {pre post : List (Phase × T)}
    {h : Phase × T} (place : v.held = pre ++ h :: post) :
    pre = [] ∧ post = [] ∧ v.ready = 0 ∧ v.running = true := by
  have tokens := serial.tokens
  simp only [View.tokens, place, List.length_append, List.length_cons] at tokens
  split at tokens
  · rename_i running
    exact ⟨List.length_eq_zero_iff.mp (by omega), List.length_eq_zero_iff.mp (by omega),
      by omega, running⟩
  · omega

theorem serial_entry {v : View T} (serial : Serial v) {n : Nat} (entry : v.ready = n + 1) :
    n = 0 ∧ v.held = [] ∧ v.running = true := by
  have tokens := serial.tokens
  simp only [View.tokens, entry] at tokens
  split at tokens
  · rename_i running
    exact ⟨by omega, List.length_eq_zero_iff.mp (by omega), running⟩
  · omega

theorem move_serial {label : Label T} {v w : View T} (move : Move v label w)
    (unforced : ∀ t, label ≠ .post t true) (before : Serial v) : Serial w := by
  have before' := before
  obtain ⟨tokens, taken, served⟩ := before'
  cases move with
  | stay => exact before
  | post t forced =>
    have plain : forced = false := by
      cases forced with
      | false => rfl
      | true => exact absurd rfl (unforced t)
    subst plain
    refine ⟨?_, taken, served⟩
    simp only [View.tokens, View.accept, View.grants, Bool.or_false] at tokens ⊢
    cases running : v.running
    · simp only [running, Bool.false_eq_true, reduceIte] at tokens
      simp only [Bool.not_false, Bool.or_true, reduceIte]
      omega
    · simpa [running] using tokens
  | surplus entry empty =>
    obtain ⟨rfl, alone, _⟩ := serial_entry before entry
    exact ⟨by simp [View.tokens, alone], taken, served⟩
  | @take n t rest pre post entry front place =>
    obtain ⟨rfl, alone, running⟩ := serial_entry before entry
    have sides : pre = [] ∧ post = [] := by simpa [alone] using place.symm
    obtain ⟨rfl, rfl⟩ := sides
    refine ⟨by simp [View.tokens, running], ?_, ?_⟩
    · simp [View.holding, phaseIs, alone] at taken ⊢
      exact taken
    · simp [View.holding, phaseIs, alone] at served ⊢
      exact served
  | start place | finish place | again place =>
    obtain ⟨rfl, rfl, empty, running⟩ := serial_alone before place
    refine ⟨by simp [View.tokens, running, empty], ?_, ?_⟩
    · simpa [View.holding, phaseIs, place] using taken
    · simpa [View.holding, phaseIs, place] using served
  | idle place last =>
    obtain ⟨rfl, rfl, empty, running⟩ := serial_alone before place
    refine ⟨by simp [View.tokens, empty], ?_, ?_⟩
    · simpa [View.holding, phaseIs, place] using taken
    · simpa [View.holding, phaseIs, place] using served

section Kinds
variable (seq : T → Bool)

def View.pending (v : View T) : Nat := v.unfinished.countP seq

/-- There is at most one token, or at most one such element to meet itself. -/
def Narrow (v : View T) : Prop := v.tokens ≤ 1 ∨ v.pending seq ≤ 1

/-- The condition on a post: it leaves one of the two bounds intact. -/
def KeepsNarrow (v : View T) : Label T → Prop
  | .post t forced =>
      v.tokens + (if v.grants forced then 1 else 0) ≤ 1 ∨
        v.pending seq + (if seq t then 1 else 0) ≤ 1
  | .serve => True

instance (v : View T) (label : Label T) : Decidable (KeepsNarrow seq v label) :=
  match label with
  | .post _ _ => inferInstanceAs (Decidable (_ ∨ _))
  | .serve => isTrue trivial

theorem narrow_empty : Narrow seq (View.empty : View T) := Or.inl (by simp [View.empty, View.tokens])

theorem serve_shrinks {v w : View T} (move : Move v .serve w) :
    w.tokens ≤ v.tokens ∧ w.pending seq ≤ v.pending seq := by
  cases move with
  | stay => exact ⟨Nat.le_refl _, Nat.le_refl _⟩
  | surplus entry empty =>
    simp only [View.tokens, View.pending, View.unfinished, View.holding, entry]
    omega
  | take entry front place =>
    simp [View.tokens, View.pending, View.unfinished, View.holding, phaseIs, entry, front, place,
      List.countP_cons]
    omega
  | start place =>
    simp [View.tokens, View.pending, View.unfinished, View.holding, phaseIs, place,
      List.countP_cons]
    omega
  | finish place =>
    simp [View.tokens, View.pending, View.unfinished, View.holding, phaseIs, place,
      List.countP_cons]
  | again place more =>
    simp [View.tokens, View.pending, View.unfinished, View.holding, phaseIs, place]
    omega
  | idle place empty =>
    simp [View.tokens, View.pending, View.unfinished, View.holding, phaseIs, place]

theorem accept_counts (v : View T) (t : T) (forced : Bool) :
    (v.accept t forced).tokens = v.tokens + (if v.grants forced then 1 else 0) ∧
      (v.accept t forced).pending seq = v.pending seq + (if seq t then 1 else 0) := by
  constructor
  · simp only [View.accept, View.tokens]
    omega
  · simp [View.accept, View.pending, View.unfinished, View.holding, List.countP_cons]
    omega

/-- The condition is exact for one move: it holds iff the bound survives. -/
theorem move_narrow_iff {label : Label T} {v w : View T} (move : Move v label w)
    (before : Narrow seq v) : Narrow seq w ↔ KeepsNarrow seq v label := by
  cases label with
  | serve =>
    have shrinks := serve_shrinks seq move
    apply iff_of_true _ trivial
    rcases before with tokens | pending
    · exact Or.inl (by omega)
    · exact Or.inr (by omega)
  | post t forced =>
    cases move
    obtain ⟨tokens, pending⟩ := accept_counts seq v t forced
    simp only [Narrow, KeepsNarrow, tokens, pending]

theorem phase_le_tokens (v : View T) (p : Phase) : (v.holding p).length ≤ v.tokens := by
  have bound := List.length_filterMap_le (phaseIs p) v.held
  simp only [View.holding, View.tokens]
  omega

/-- Within the bound no two such elements are being served. -/
theorem narrow_excludes {v : View T} (narrow : Narrow seq v) :
    (v.holding .executing).countP seq ≤ 1 := by
  rcases narrow with tokens | pending
  · have := phase_le_tokens v .executing
    have := List.countP_le_length (p := seq) (l := v.holding .executing)
    omega
  · simp only [View.pending, View.unfinished, List.countP_append] at pending
    omega

end Kinds

end TokenQueue
