/-
Module: Qrtr.Foundation.Unwinding
Layer: Foundation
Purpose: What a view of the state of a machine may depend on. If the inputs that show nothing to a view leave
  it as it is, and those that show something change it by what they show and by what it was, then two runs
  whose inputs show the same end in states that look the same, whatever else the inputs are and wherever they
  stand.
Imports: Qrtr.Foundation.Run
Main exports: Unwinds, Unwinds.final_eq
Open obligations: none
-/
import Qrtr.Foundation.Run

namespace Qrtr.Run

variable {S I O V W : Type}

/-- Under an invariant, and on admissible inputs, a view changes with the inputs that show it something only,
    and by what they show and the view itself. -/
structure Unwinds (inv : S → Prop) (ok : I → Prop) (step : S → I → S × O) (view : S → V)
    (shown : I → Option W) : Prop where
  keeps : ∀ s i, inv s → ok i → inv (step s i).1
  skips : ∀ s i, inv s → ok i → shown i = none → view (step s i).1 = view s
  agrees : ∀ s t i j, inv s → inv t → ok i → ok j → ∀ w, shown i = some w → shown j = some w →
    view s = view t → view (step s i).1 = view (step t j).1

section

variable {inv : S → Prop} {ok : I → Prop} {step : S → I → S × O} {view : S → V} {shown : I → Option W}

/-- Inputs that show nothing might as well not be there. -/
theorem Unwinds.final_of_nil (h : Unwinds inv ok step view shown) :
    ∀ {is : List I} {s : S}, inv s → (∀ i ∈ is, ok i) → is.filterMap shown = [] →
      view (final step s is) = view s
  | [], _, _, _, _ => rfl
  | i :: is, s, hs, hok, hnil => by
      obtain ⟨hi, hrest⟩ := List.forall_mem_cons.1 hok
      have hnone : shown i = none := List.filterMap_eq_nil_iff.1 hnil i List.mem_cons_self
      rw [List.filterMap_cons_none hnone] at hnil
      exact (h.final_of_nil (h.keeps s i hs hi) hrest hnil).trans (h.skips s i hs hi hnone)

/-- Runs whose inputs show the same end in states that look the same. -/
theorem Unwinds.final_eq (h : Unwinds inv ok step view shown) :
    ∀ {is js : List I} {s t : S}, inv s → inv t → view s = view t → (∀ i ∈ is, ok i) → (∀ j ∈ js, ok j) →
      is.filterMap shown = js.filterMap shown → view (final step s is) = view (final step t js)
  | [], js, s, t, _, ht, hview, _, hjs, hsame => hview.trans (h.final_of_nil ht hjs hsame.symm).symm
  | is, [], s, t, hs, _, hview, his, _, hsame => (h.final_of_nil hs his hsame).trans hview
  | i :: is, j :: js, s, t, hs, ht, hview, his, hjs, hsame => by
      obtain ⟨hi, hisrest⟩ := List.forall_mem_cons.1 his
      obtain ⟨hj, hjsrest⟩ := List.forall_mem_cons.1 hjs
      cases hshown : shown i with
      | none =>
          rw [List.filterMap_cons_none hshown] at hsame
          show view (final step (step s i).1 is) = view (final step t (j :: js))
          exact h.final_eq (h.keeps s i hs hi) ht ((h.skips s i hs hi hshown).trans hview) hisrest hjs hsame
      | some w =>
          cases hshown' : shown j with
          | none =>
              rw [List.filterMap_cons_none hshown'] at hsame
              show view (final step s (i :: is)) = view (final step (step t j).1 js)
              exact h.final_eq hs (h.keeps t j ht hj) (hview.trans (h.skips t j ht hj hshown').symm) his
                hjsrest hsame
          | some w' =>
              rw [List.filterMap_cons_some hshown, List.filterMap_cons_some hshown'] at hsame
              obtain ⟨rfl, hrest⟩ := List.cons.inj hsame
              show view (final step (step s i).1 is) = view (final step (step t j).1 js)
              exact h.final_eq (h.keeps s i hs hi) (h.keeps t j ht hj)
                (h.agrees s t i j hs ht hi hj w hshown hshown' hview) hisrest hjsrest hrest
termination_by is js => is.length + js.length

end

end Qrtr.Run
