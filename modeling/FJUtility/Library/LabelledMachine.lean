import Mathlib.Logic.Basic

/- Deterministic machines whose nondeterminism is carried by the labels: a label
   names the thread that moves and every value the environment supplies. A guard
   restricts runs to steps with a given property of the state before the step. -/
namespace LabelledMachine
variable {S A : Type}

structure Machine (S A : Type) where
  init : S → Prop
  step : S → A → Option S

/-- Execution of a label sequence, checking ok before every step. -/
def Machine.runBy (m : Machine S A) (ok : S → A → Bool) : S → List A → Option S
  | s, [] => some s
  | s, a :: rest => if ok s a then (m.step s a).bind fun t => m.runBy ok t rest else none

def Machine.run (m : Machine S A) : S → List A → Option S := m.runBy fun _ _ => true

/-- States of the runs all of whose steps meet the guard. -/
inductive Machine.ReachableBy (m : Machine S A) (guard : S → A → Prop) : S → Prop where
  | start {s : S} (first : m.init s) : m.ReachableBy guard s
  | next {s t : S} {a : A} (reached : m.ReachableBy guard s) (meets : guard s a)
      (move : m.step s a = some t) : m.ReachableBy guard t

def Machine.Reachable (m : Machine S A) : S → Prop := m.ReachableBy fun _ _ => True

theorem reachableBy_mono {m : Machine S A} {guard other : S → A → Prop}
    (weaker : ∀ s a, guard s a → other s a) {s : S} (reached : m.ReachableBy guard s) :
    m.ReachableBy other s := by
  induction reached with
  | start first => exact .start first
  | next _ meets move ih => exact .next ih (weaker _ _ meets) move

theorem reachable_of_reachableBy {m : Machine S A} {guard : S → A → Prop} {s : S}
    (reached : m.ReachableBy guard s) : m.Reachable s :=
  reachableBy_mono (fun _ _ _ => trivial) reached

/-- The invariant rule, relative to facts already known of every reached state. -/
theorem invariant_along {m : Machine S A} {guard : S → A → Prop} (known holds : S → Prop)
    (facts : ∀ s, m.ReachableBy guard s → known s)
    (initial : ∀ s, m.init s → holds s)
    (preserved : ∀ s a t, known s → holds s → guard s a → m.step s a = some t → holds t)
    {s : S} (reached : m.ReachableBy guard s) : holds s := by
  induction reached with
  | start first => exact initial _ first
  | next before meets move ih => exact preserved _ _ _ (facts _ before) ih meets move

theorem invariant_of_steps {m : Machine S A} {guard : S → A → Prop} (holds : S → Prop)
    (initial : ∀ s, m.init s → holds s)
    (preserved : ∀ s a t, holds s → guard s a → m.step s a = some t → holds t)
    {s : S} (reached : m.ReachableBy guard s) : holds s :=
  invariant_along (fun _ => True) holds (fun _ _ => trivial) initial
    (fun s a t _ => preserved s a t) reached

/-- Runs of a machine whose steps are steps of m or leave its state, read through a projection. -/
theorem reachableBy_project {T B : Type} {m : Machine S A} {n : Machine T B}
    {guard : T → B → Prop} {other : S → A → Prop} (base : T → S)
    (starts : ∀ t, n.init t → m.init (base t))
    (moves : ∀ t b u, guard t b → n.step t b = some u →
      base u = base t ∨ ∃ a, other (base t) a ∧ m.step (base t) a = some (base u))
    {t : T} (reached : n.ReachableBy guard t) : m.ReachableBy other (base t) := by
  induction reached with
  | start first => exact .start (starts _ first)
  | next _ meets move ih =>
    rcases moves _ _ _ meets move with still | ⟨a, meets', moved⟩
    · exact still ▸ ih
    · exact .next ih meets' moved

theorem runBy_reachableBy {m : Machine S A} {guard : S → A → Prop} {ok : S → A → Bool}
    (checked : ∀ s a, ok s a = true → guard s a) (labels : List A) {s t : S}
    (reached : m.ReachableBy guard s) (executed : m.runBy ok s labels = some t) :
    m.ReachableBy guard t := by
  induction labels generalizing s with
  | nil =>
    simp only [Machine.runBy, Option.some.injEq] at executed
    exact executed ▸ reached
  | cons a rest ih =>
    simp only [Machine.runBy] at executed
    split at executed
    · rename_i accepted
      obtain ⟨u, move, tail⟩ := Option.bind_eq_some_iff.mp executed
      exact ih (.next reached (checked s a accepted) move) tail
    · simp at executed

/-- A rank that no accepted step raises bounds the steps of an execution that lower it. -/
theorem runBy_bounded {m : Machine S A} {ok : S → A → Bool} (known : S → Prop) (rank : S → Nat)
    (spends : A → Bool)
    (lowered : ∀ s a t, known s → ok s a = true → m.step s a = some t →
      known t ∧ rank t + (if spends a then 1 else 0) ≤ rank s)
    (labels : List A) {s t : S} (first : known s) (executed : m.runBy ok s labels = some t) :
    known t ∧ labels.countP spends + rank t ≤ rank s := by
  induction labels generalizing s with
  | nil =>
    simp only [Machine.runBy, Option.some.injEq] at executed
    subst executed
    exact ⟨first, by simp⟩
  | cons a rest ih =>
    simp only [Machine.runBy] at executed
    split at executed
    · rename_i accepted
      obtain ⟨u, move, tail⟩ := Option.bind_eq_some_iff.mp executed
      obtain ⟨next, lower⟩ := lowered s a u first accepted move
      obtain ⟨last, bound⟩ := ih next tail
      refine ⟨last, ?_⟩
      rw [List.countP_cons]
      omega
    · simp at executed

theorem run_reachable {m : Machine S A} (labels : List A) {s t : S} (first : m.init s)
    (executed : m.run s labels = some t) : m.Reachable t :=
  runBy_reachableBy (fun _ _ _ => trivial) labels (.start first) executed

theorem guarded_ends {m : Machine S A} (guard : S → A → Prop) [∀ s a, Decidable (guard s a)]
    (labels : List A) {s : S} (first : m.init s)
    (ends : (m.runBy (fun s a => decide (guard s a)) s labels).isSome = true) :
    ∃ t, m.runBy (fun s a => decide (guard s a)) s labels = some t ∧ m.ReachableBy guard t := by
  obtain ⟨t, executed⟩ := Option.isSome_iff_exists.mp ends
  exact ⟨t, executed, runBy_reachableBy (fun _ _ accepted => of_decide_eq_true accepted) labels
    (.start first) executed⟩

theorem guarded_shows {m : Machine S A} (guard : S → A → Prop) [∀ s a, Decidable (guard s a)]
    (labels : List A) {s : S} (first : m.init s) (check : S → Bool)
    (shown : (m.runBy (fun s a => decide (guard s a)) s labels).any check = true) :
    ∃ t, m.runBy (fun s a => decide (guard s a)) s labels = some t ∧ check t = true ∧
      m.ReachableBy guard t := by
  obtain ⟨t, executed, holds⟩ := (Option.any_eq_true ..).mp shown
  exact ⟨t, executed, holds, runBy_reachableBy (fun _ _ accepted => of_decide_eq_true accepted)
    labels (.start first) executed⟩

theorem run_ends {m : Machine S A} (labels : List A) {s : S} (first : m.init s)
    (ends : (m.run s labels).isSome = true) : ∃ t, m.run s labels = some t ∧ m.Reachable t := by
  obtain ⟨t, executed⟩ := Option.isSome_iff_exists.mp ends
  exact ⟨t, executed, run_reachable labels first executed⟩

theorem run_shows {m : Machine S A} (labels : List A) {s : S} (first : m.init s)
    (check : S → Bool) (shown : (m.run s labels).any check = true) :
    ∃ t, m.Reachable t ∧ check t = true := by
  obtain ⟨t, executed, holds⟩ := Option.any_eq_true .. |>.mp shown
  exact ⟨t, run_reachable labels first executed, holds⟩

end LabelledMachine
