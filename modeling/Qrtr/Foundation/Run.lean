/-
Module: Qrtr.Foundation.Run
Layer: Foundation
Purpose: Runs of a deterministic machine that answers every input with an output. `outputs` and
  `final` are what a run says and where it ends; `Guarded` says that every input was admissible in
  the state that received it. The rules are the induction over a run done once: an invariant kept by
  admissible steps holds at the end of a guarded run, what it says of their outputs holds of all outputs,
  and two machines related by a simulation give the same outputs. `attempt` is a run of a machine that can
  fail, with the same rule for a simulation. For a relation in place of a machine
  there are the two rules that tell whether its runs come to rest.
Imports: none
Main exports: outputs, final, Guarded, Guarded.invariant, Guarded.outputs_forall, Guarded.outputs_eq,
  attempt, Guarded.attempt_eq, acc_of_measure, not_acc_of_step
Open obligations: none
-/
import Mathlib.Data.List.Basic

namespace Qrtr.Run

variable {S T I O : Type}

/-- The outputs of a run, in order. -/
def outputs (step : S → I → S × O) : S → List I → List O
  | _, [] => []
  | s, i :: is => (step s i).2 :: outputs step (step s i).1 is

/-- The state at the end of a run. -/
def final (step : S → I → S × O) : S → List I → S
  | s, [] => s
  | s, i :: is => final step (step s i).1 is

/-- Every input of the run is admissible in the state that receives it. -/
def Guarded (ok : S → I → Prop) (step : S → I → S × O) : S → List I → Prop
  | _, [] => True
  | s, i :: is => ok s i ∧ Guarded ok step (step s i).1 is

instance Guarded.decidable {ok : S → I → Prop} [∀ s i, Decidable (ok s i)] {step : S → I → S × O} :
    ∀ (s : S) (is : List I), Decidable (Guarded ok step s is)
  | _, [] => inferInstanceAs (Decidable True)
  | s, i :: is =>
      have : Decidable (Guarded ok step (step s i).1 is) := Guarded.decidable _ is
      inferInstanceAs (Decidable (ok s i ∧ Guarded ok step (step s i).1 is))

theorem final_append (step : S → I → S × O) (s : S) (is js : List I) :
    final step s (is ++ js) = final step (final step s is) js := by
  induction is generalizing s with
  | nil => rfl
  | cons i is ih => exact ih _

theorem Guarded.append {ok : S → I → Prop} {step : S → I → S × O} {s : S} {is js : List I} :
    Guarded ok step s (is ++ js) ↔ Guarded ok step s is ∧ Guarded ok step (final step s is) js := by
  induction is generalizing s with
  | nil => simp [Guarded, final]
  | cons i is ih => simp only [List.cons_append, Guarded, final, ih, and_assoc]

/-- An invariant that admissible steps keep holds at the end of a guarded run. -/
theorem Guarded.invariant {ok : S → I → Prop} {step : S → I → S × O} {inv : S → Prop}
    (hstep : ∀ s i, inv s → ok s i → inv (step s i).1) :
    ∀ {is : List I} {s : S}, inv s → Guarded ok step s is → inv (final step s is)
  | [], _, hs, _ => hs
  | i :: is, s, hs, ⟨hok, hrest⟩ =>
      show inv (final step (step s i).1 is) from
        Guarded.invariant hstep (hstep s i hs hok) hrest

/-- What holds of the outputs of admissible steps, in states that satisfy an invariant, holds of all outputs
    of a guarded run. -/
theorem Guarded.outputs_forall {ok : S → I → Prop} {step : S → I → S × O} {inv : S → Prop}
    {good : O → Prop} (hstep : ∀ s i, inv s → ok s i → inv (step s i).1 ∧ good (step s i).2) :
    ∀ {is : List I} {s : S}, inv s → Guarded ok step s is → ∀ o ∈ outputs step s is, good o
  | [], _, _, _ => fun _ ho => absurd ho List.not_mem_nil
  | i :: is, s, hs, ⟨hok, hrest⟩ => by
      obtain ⟨hinv, hgood⟩ := hstep s i hs hok
      intro o ho
      rcases List.mem_cons.mp ho with rfl | ho
      · exact hgood
      · exact Guarded.outputs_forall hstep hinv hrest o ho

/-- Inputs that are admissible in every state make a guarded run. -/
theorem Guarded.of_forall {ok : S → I → Prop} {step : S → I → S × O} :
    ∀ {is : List I} (s : S), (∀ i ∈ is, ∀ s, ok s i) → Guarded ok step s is
  | [], _, _ => trivial
  | i :: _, s, h =>
      ⟨h i List.mem_cons_self s, Guarded.of_forall _ fun i' hi' => h i' (List.mem_cons_of_mem _ hi')⟩

/-- Two machines related by a simulation answer a run that is guarded on the first alike. -/
theorem Guarded.outputs_eq {ok : S → I → Prop} {step : S → I → S × O} {step' : T → I → T × O}
    {rel : S → T → Prop}
    (hstep : ∀ s t i, rel s t → ok s i →
      (step s i).2 = (step' t i).2 ∧ rel (step s i).1 (step' t i).1) :
    ∀ {is : List I} {s : S} {t : T}, rel s t → Guarded ok step s is →
      outputs step s is = outputs step' t is
  | [], _, _, _, _ => rfl
  | i :: _, s, t, hrel, ⟨hok, hrest⟩ => by
      obtain ⟨hout, hnext⟩ := hstep s t i hrel hok
      simp only [outputs, hout, Guarded.outputs_eq hstep hnext hrest]

/-! ### Machines that can fail -/

/-- A run of a machine that can fail: the state at the end and the outputs, unless a step has failed. -/
def attempt (step : S → I → Option (S × O)) : S → List I → Option (S × List O)
  | s, [] => some (s, [])
  | s, i :: is =>
      (step s i).bind fun r => (attempt step r.1 is).map fun rest => (rest.1, r.2 :: rest.2)

/-- A machine whose steps, on admissible inputs, succeed and simulate those of another does not fail in a
    guarded run, and it gives the outputs of the other. -/
theorem Guarded.attempt_eq {ok : T → I → Prop} {step : S → I → Option (S × O)} {step' : T → I → T × O}
    {rel : S → T → Prop}
    (hstep : ∀ s t i, rel s t → ok t i →
      ∃ s', step s i = some (s', (step' t i).2) ∧ rel s' (step' t i).1) :
    ∀ {is : List I} {s : S} {t : T}, rel s t → Guarded ok step' t is →
      ∃ s', attempt step s is = some (s', outputs step' t is) ∧ rel s' (final step' t is)
  | [], s, _, hrel, _ => ⟨s, rfl, hrel⟩
  | i :: is, s, t, hrel, ⟨hok, hrest⟩ => by
      obtain ⟨s₁, hs₁, hrel₁⟩ := hstep s t i hrel hok
      obtain ⟨s', hs', hrel'⟩ := Guarded.attempt_eq hstep hrel₁ hrest
      exact ⟨s', by rw [attempt, hs₁, Option.bind_some, hs']; rfl, hrel'⟩

/-! ### Coming to rest -/

/-- A relation comes to rest where an invariant holds under which every step makes a number smaller. -/
theorem acc_of_measure {r : S → S → Prop} {inv : S → Prop} (f : S → Nat)
    (hstep : ∀ s t, inv s → r s t → inv t ∧ f t < f s) {s : S} (hs : inv s) :
    Acc (fun t s => r s t) s := by
  induction hn : f s using Nat.strongRecOn generalizing s with
  | ind n ih =>
      subst hn
      constructor
      intro t hr
      obtain ⟨ht, hlt⟩ := hstep s t hs hr
      exact ih (f t) hlt ht rfl

/-- A relation never comes to rest where an invariant holds that some step keeps. -/
theorem not_acc_of_step {r : S → S → Prop} {inv : S → Prop}
    (hstep : ∀ s, inv s → ∃ t, r s t ∧ inv t) {s : S} (hs : inv s) : ¬ Acc (fun t s => r s t) s := by
  intro hacc
  induction hacc with
  | intro s _ ih =>
      obtain ⟨t, hr, ht⟩ := hstep s hs
      exact ih t hr ht

end Qrtr.Run
