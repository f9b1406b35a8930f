/-
Module: Qrtr.Foundation.LinkWalk
Layer: Foundation
Purpose: Walks along a link. A `Way` is a pointer to a first node and the link that leads from each node
  to the next; `Leads` says which nodes a walk meets and where it arrives. `Way.relink` is the assignment
  that linked lists are changed with: it redirects the link of a node or, where there is no node, the
  entry. `Way.Visits.insert` and `Way.Visits.remove` are the two changes of a list: one relinking puts a
  node between two others, one relinking takes it out. A doubly linked list is a pair of ways, and each
  of its operations is one such change of either way.
Imports: Mathlib.Logic.Function.Basic
Main exports: Leads, Way, Way.Visits, Way.relink, Leads.append, Leads.target_unique, Leads.update,
  Way.Visits.insert, Way.Visits.remove
Open obligations: none
-/
import Mathlib.Data.List.Basic
import Mathlib.Logic.Function.Basic

namespace Qrtr.LinkWalk

variable {A : Type}

/-- Following `link` from `p` meets the nodes `xs` in order and then arrives at `q`. -/
def Leads (link : A → Option A) : Option A → List A → Option A → Prop
  | p, [], q => p = q
  | p, x :: xs, q => p = some x ∧ Leads link (link x) xs q

instance Leads.decide [DecidableEq A] (link : A → Option A) :
    ∀ (p : Option A) (xs : List A) (q : Option A), Decidable (Leads link p xs q)
  | p, [], q => inferInstanceAs (Decidable (p = q))
  | p, x :: xs, q =>
      have := Leads.decide link (link x) xs q
      inferInstanceAs (Decidable (p = some x ∧ Leads link (link x) xs q))

section

variable {link : A → Option A} {p q r : Option A}

/-- A walk over a concatenation is a walk over either part. -/
theorem Leads.append {xs ys : List A} :
    Leads link p (xs ++ ys) q ↔ ∃ r, Leads link p xs r ∧ Leads link r ys q := by
  induction xs generalizing p with
  | nil => simp [Leads]
  | cons x xs ih => simp only [List.cons_append, Leads, ih, and_assoc, exists_and_left]

/-- The nodes that a walk meets determine where it arrives. -/
theorem Leads.target_unique {xs : List A} (hq : Leads link p xs q) (hr : Leads link p xs r) :
    q = r := by
  induction xs generalizing p with
  | nil =>
      simp only [Leads] at hq hr
      rw [← hq, hr]
  | cons x xs ih => exact ih hq.2 hr.2

/-- A walk starts at the first node that it meets. -/
theorem Leads.entry_eq {xs : List A} (h : Leads link p xs none) : p = xs.head? := by
  cases xs with
  | nil => exact h
  | cons x xs => exact h.1

variable [DecidableEq A]

/-- A walk does not depend on the links of the nodes that it does not meet. -/
theorem Leads.update {xs : List A} {x : A} (hx : x ∉ xs) (v : Option A)
    (h : Leads link p xs q) : Leads (Function.update link x v) p xs q := by
  induction xs generalizing p with
  | nil => exact h
  | cons y ys ih =>
      obtain ⟨hne, hys⟩ : x ≠ y ∧ x ∉ ys := by simpa using hx
      refine ⟨h.1, ?_⟩
      rw [Function.update_of_ne hne.symm]
      exact ih hys h.2

end

/-- One direction of a linked list: the pointer to its first node, and the link of every node. -/
structure Way (A : Type) where
  entry : Option A
  link : A → Option A

namespace Way

variable {w : Way A} {xs pre post : List A} {x : A}

/-- The whole walk from the entry on meets the nodes `xs` and ends. -/
def Visits (w : Way A) (xs : List A) : Prop := Leads w.link w.entry xs none

instance [DecidableEq A] (w : Way A) (xs : List A) : Decidable (w.Visits xs) :=
  inferInstanceAs (Decidable (Leads _ _ _ _))

theorem Visits.entry_eq (h : w.Visits xs) : w.entry = xs.head? := Leads.entry_eq h

/-- The link of a node leads to the node that is visited next. -/
theorem Visits.link_eq (h : w.Visits (pre ++ x :: post)) : w.link x = post.head? := by
  obtain ⟨r, -, -, hpost⟩ := Leads.append.mp h
  exact Leads.entry_eq hpost

variable [DecidableEq A]

/-- The assignment of the link of `x`. -/
def setLink (w : Way A) (x : A) (v : Option A) : Way A :=
  { w with link := Function.update w.link x v }

/-- The assignment of the link that leads on from a node, or of the entry where there is no node. -/
def relink (w : Way A) : Option A → Option A → Way A
  | none, v => { w with entry := v }
  | some x, v => w.setLink x v

theorem Visits.setLink (h : w.Visits xs) (hx : x ∉ xs) (v : Option A) : (w.setLink x v).Visits xs :=
  Leads.update hx v h

/-- Relinking behind the last of the nodes that a walk has met changes where the walk arrives. -/
theorem leads_relink {q : Option A} (h : Leads w.link w.entry xs q) (hnodup : xs.Nodup)
    (v : Option A) : Leads (w.relink xs.getLast? v).link (w.relink xs.getLast? v).entry xs v := by
  rcases List.eq_nil_or_concat xs with rfl | ⟨front, last, rfl⟩
  · rfl
  · rw [List.concat_eq_append] at h hnodup ⊢
    have hlast : last ∉ front := fun hmem =>
      (List.nodup_append.mp hnodup).2.2 last hmem last (by simp) rfl
    obtain ⟨r, hfront, hr, -⟩ := Leads.append.mp h
    rw [List.getLast?_concat]
    exact Leads.append.mpr
      ⟨r, Leads.update hlast v hfront, hr, by simp [relink, Way.setLink, Leads]⟩

/-- Relinking behind nodes that a walk does not meet leaves the walk alone. -/
theorem leads_relink_of_disjoint {p q : Option A} (h : Leads w.link p xs q)
    (hdisj : ∀ y ∈ pre, y ∉ xs) (v : Option A) : Leads (w.relink pre.getLast? v).link p xs q := by
  cases hlast : pre.getLast? with
  | none => exact h
  | some y => exact Leads.update (hdisj y (List.mem_of_getLast? hlast)) v h

/-- Inserting a node: its own link leads on, and the link in front of it leads to it. -/
theorem Visits.insert (h : w.Visits (pre ++ post)) (hnodup : (pre ++ post).Nodup)
    (hx : x ∉ pre ++ post) :
    ((w.setLink x post.head?).relink pre.getLast? (some x)).Visits (pre ++ x :: post) := by
  obtain ⟨hpreNodup, -, hdisj⟩ := List.nodup_append.mp hnodup
  obtain ⟨hpre, hpost⟩ : x ∉ pre ∧ x ∉ post := by simpa using hx
  obtain ⟨r, hfront, hback⟩ := Leads.append.mp h
  obtain rfl := Leads.entry_eq hback
  have hfront' : Leads (w.setLink x post.head?).link w.entry pre post.head? :=
    Leads.update hpre _ hfront
  have hback' : Leads (w.setLink x post.head?).link (some x) (x :: post) none :=
    ⟨rfl, by simpa [Way.setLink] using Leads.update hpost post.head? hback⟩
  refine Leads.append.mpr ⟨some x, leads_relink hfront' hpreNodup _, ?_⟩
  refine leads_relink_of_disjoint hback' (fun y hy hmem => ?_) _
  rcases List.mem_cons.mp hmem with rfl | hmem
  · exact hpre hy
  · exact hdisj y hy y hmem rfl

/-- Removing a node: the link in front of it leads to where its own link led. -/
theorem Visits.remove (h : w.Visits (pre ++ x :: post)) (hnodup : (pre ++ x :: post).Nodup) :
    (w.relink pre.getLast? (w.link x)).Visits (pre ++ post) := by
  obtain ⟨hpreNodup, -, hdisj⟩ := List.nodup_append.mp hnodup
  obtain ⟨r, hfront, -, hback⟩ := Leads.append.mp h
  refine Leads.append.mpr ⟨w.link x, leads_relink hfront hpreNodup _, ?_⟩
  exact leads_relink_of_disjoint hback
    (fun y hy hmem => hdisj y hy y (List.mem_cons_of_mem _ hmem) rfl) _

end Way

end Qrtr.LinkWalk
