/-
Module: Qrtr.LinkedList.Consistency
Layer: LinkedList
Purpose: What the functions of `list.h` do to a list that is in order. Either direction of the list is a
  way, and `list_append`, `list_insert` and `list_remove` relink each way once. `list_prepend` relinks the
  forward way alone: the `prev` of the old head stays NULL, so the backward walk misses the new head, and
  removing the old head later follows that NULL. A run keeps the list in order exactly when nothing is put
  in front of a member.
Imports: Qrtr.LinkedList.Core
Main exports: Links.Stands.forEach, Links.Stands.forEachSafe, seqStep_nodup, Links.Stands.step,
  Links.Stands.not_step, Links.Stands.along_iff, listInit_standsAlong_iff
Open obligations: none
-/
import Qrtr.LinkedList.Core
import Mathlib.Data.List.Nodup

namespace Qrtr

open LinkWalk Run

variable {A : Type}

/-! ### The two directions -/

/-- The ends of a list follow from its two walks. -/
theorem Links.Stands.of_visits {l : Links A} {xs : List A} (hforward : l.forward.Visits xs)
    (hbackward : l.backward.Visits xs.reverse) : l.Stands xs where
  forward := hforward
  backward := hbackward
  head_eq := hforward.entry_eq
  tail_eq := by rw [← List.head?_reverse]; exact hbackward.entry_eq

section

variable {l : Links A} {pre post : List A} {x : A}

/-- Where the links of a member lead. -/
theorem Links.Stands.next_eq (h : l.Stands (pre ++ x :: post)) : l.next x = post.head? :=
  h.forward.link_eq

theorem Links.Stands.prev_eq (h : l.Stands (pre ++ x :: post)) : l.prev x = pre.getLast? := by
  have hbackward : l.backward.Visits (post.reverse ++ x :: pre.reverse) := by
    simpa using h.backward
  rw [← List.head?_reverse]
  exact hbackward.link_eq

/-- A member is the head if and only if its `prev` is NULL. -/
theorem Links.Stands.head_iff (h : l.Stands (pre ++ x :: post)) (hnodup : (pre ++ x :: post).Nodup) :
    l.head = some x ↔ l.prev x = none := by
  rw [h.head_eq, h.prev_eq]
  cases pre with
  | nil => simp
  | cons y ys =>
      have hne : y ≠ x := fun heq => by simp [heq] at hnodup
      simp [hne, List.getLast?_cons]

/-- A member is the tail if and only if its `next` is NULL. -/
theorem Links.Stands.tail_iff (h : l.Stands (pre ++ x :: post)) (hnodup : (pre ++ x :: post).Nodup) :
    l.tail = some x ↔ l.next x = none := by
  rw [h.tail_eq, h.next_eq]
  rcases List.eq_nil_or_concat post with rfl | ⟨ys, y, rfl⟩
  · simp
  · rw [List.concat_eq_append] at hnodup ⊢
    have hne : y ≠ x := fun heq => by
      subst heq
      simp [List.nodup_append] at hnodup
    have hlast : (pre ++ x :: (ys ++ [y])).getLast? = some y := by
      rw [show pre ++ x :: (ys ++ [y]) = (pre ++ x :: ys) ++ [y] by simp, List.getLast?_concat]
    cases ys with
    | nil => rw [hlast]; simp [hne]
    | cons z zs => rw [hlast]; simp [hne]

/-- No link of a member leads back to it. -/
theorem Links.Stands.next_ne (h : l.Stands (pre ++ x :: post)) (hnodup : (pre ++ x :: post).Nodup) :
    l.next x ≠ some x := by
  rw [h.next_eq]
  intro heq
  have hmem := List.mem_of_head? heq
  simp [List.nodup_append, hmem] at hnodup

end

variable [DecidableEq A]

/-! ### What the functions relink -/

theorem listAppend_forward (l : Links A) (item : A) :
    (listAppend l item).forward = (l.forward.setLink item none).relink l.tail (some item) := by
  cases htail : l.tail <;> simp [listAppend, Links.forward, Links.setNext, Links.setPrev, Way.setLink,
    Way.relink, htail]

theorem listAppend_backward (l : Links A) (item : A) :
    (listAppend l item).backward = (l.backward.setLink item l.tail).relink none (some item) := by
  cases htail : l.tail <;> simp [listAppend, Links.backward, Links.setNext, Links.setPrev, Way.setLink,
    Way.relink, htail]

theorem listPrepend_forward (l : Links A) (item : A) :
    (listPrepend l item).forward = (l.forward.setLink item l.head).relink none (some item) := by
  cases hhead : l.head <;> simp [listPrepend, Links.forward, Links.setNext, Links.setPrev, Way.setLink,
    Way.relink, hhead]

/-- In the backward direction `list_prepend` changes an empty list only. -/
theorem listPrepend_backward (l : Links A) (item : A) :
    (listPrepend l item).backward =
      if l.head = none then (l.backward.setLink item none).relink none (some item)
      else l.backward.setLink item none := by
  cases hhead : l.head <;> simp [listPrepend, Links.backward, Links.setNext, Links.setPrev, Way.setLink,
    Way.relink, hhead]

theorem listInsert_forward (l : Links A) {after item : A} (hne : item ≠ after) :
    (listInsert l (some after) item).forward =
      (l.forward.setLink item (l.next after)).relink (some after) (some item) := by
  cases hnext : l.next after <;> by_cases htail : l.tail = some after <;>
    simp [listInsert, Links.forward, Links.setNext, Links.setPrev, Way.setLink, Way.relink, hnext, htail,
      hne]

theorem listInsert_backward (l : Links A) {after item : A} (hne : item ≠ after)
    (htail : l.tail = some after ↔ l.next after = none) :
    (listInsert l (some after) item).backward =
      (l.backward.setLink item (some after)).relink (l.next after) (some item) := by
  cases hnext : l.next after <;>
    simp [listInsert, Links.backward, Links.setNext, Links.setPrev, Way.setLink, Way.relink, hnext, htail,
      hne]

/-- Removing a member relinks its neighbours, or the ends, over it. -/
theorem listRemove_eq (l : Links A) {item : A} (hhead : l.head = some item ↔ l.prev item = none)
    (htail : l.tail = some item ↔ l.next item = none) (hnext : l.next item ≠ some item) :
    ∃ l', listRemove l item = some l' ∧
      l'.forward = (l.forward.relink (l.prev item) (l.next item)).setLink item none ∧
      l'.backward = (l.backward.relink (l.next item) (l.prev item)).setLink item none := by
  cases hprev : l.prev item with
  | none =>
      have hh : l.head = some item := hhead.mpr hprev
      cases hn : l.next item with
      | none =>
          refine ⟨_, by simp [listRemove, hn, hh]; rfl, ?_, ?_⟩ <;>
            simp [Links.forward, Links.backward, Links.setNext, Links.setPrev, Way.setLink, Way.relink]
      | some n =>
          refine ⟨_, by simp [listRemove, hn, hh, hprev, Links.setPrev]; rfl, ?_, ?_⟩ <;>
            simp [Links.forward, Links.backward, Links.setNext, Way.setLink, Way.relink]
  | some p =>
      have hh : l.head ≠ some item := fun h => by rw [hhead.mp h] at hprev; cases hprev
      cases hn : l.next item with
      | none =>
          have ht : l.tail = some item := htail.mpr hn
          refine ⟨_, by simp [listRemove, hn, hh, ht, hprev, Links.setNext]; rfl, ?_, ?_⟩ <;>
            simp [Links.forward, Links.backward, Links.setPrev, Way.setLink, Way.relink]
      | some n =>
          have ht : l.tail ≠ some item := fun h => by rw [htail.mp h] at hn; cases hn
          have hne : item ≠ n := fun heq => hnext (by rw [hn, heq])
          refine
              ⟨_, by simp [listRemove, hn, hh, ht, hne, hprev, Links.setNext, Links.setPrev]; rfl, ?_,
                ?_⟩ <;>
            simp [Links.forward, Links.backward, Way.setLink, Way.relink]

/-! ### What the functions keep -/

section

variable {l : Links A} {xs pre post : List A} {item after : A}

theorem Links.Stands.append (h : l.Stands xs) (hnodup : xs.Nodup) (hitem : item ∉ xs) :
    (listAppend l item).Stands (xs ++ [item]) := by
  have hforward := h.forward
  have hbackward := h.backward
  refine Links.Stands.of_visits ?_ ?_
  · rw [listAppend_forward, h.tail_eq]
    rw [← List.append_nil xs] at hforward hnodup hitem
    simpa using hforward.insert hnodup hitem
  · rw [listAppend_backward, h.tail_eq, ← List.head?_reverse]
    rw [← List.nil_append xs.reverse] at hbackward
    simpa using hbackward.insert (by simpa using List.nodup_reverse.mpr hnodup) (by simpa using hitem)

/-- Putting an item in front of an empty list. -/
theorem Links.Stands.prepend_nil (h : l.Stands []) : (listPrepend l item).Stands [item] := by
  have hhead : l.head = none := h.head_eq
  have hforward : l.forward.Visits ([] ++ []) := h.forward
  have hbackward : l.backward.Visits ([] ++ []) := h.backward
  refine Links.Stands.of_visits ?_ ?_
  · rw [listPrepend_forward, hhead]
    exact hforward.insert List.nodup_nil List.not_mem_nil
  · rw [listPrepend_backward, if_pos hhead]
    exact hbackward.insert List.nodup_nil List.not_mem_nil

theorem Links.Stands.insert (h : l.Stands (pre ++ after :: post))
    (hnodup : (pre ++ after :: post).Nodup) (hitem : item ∉ pre ++ after :: post) :
    (listInsert l (some after) item).Stands (pre ++ after :: item :: post) := by
  have hne : item ≠ after := fun heq => hitem (by simp [heq])
  have hforward : l.forward.Visits ((pre ++ [after]) ++ post) := by simpa using h.forward
  have hreverse : (pre ++ after :: post).reverse = post.reverse ++ after :: pre.reverse := by simp
  have hbackward := h.backward
  rw [hreverse] at hbackward
  refine Links.Stands.of_visits ?_ ?_
  · rw [listInsert_forward l hne, h.next_eq]
    simpa using hforward.insert (by simpa using hnodup) (by simpa using hitem)
  · rw [listInsert_backward l hne (h.tail_iff hnodup), h.next_eq, ← List.getLast?_reverse]
    have hrevNodup := List.nodup_reverse.mpr hnodup
    have hrevItem := mt List.mem_reverse.mp hitem
    rw [hreverse] at hrevNodup hrevItem
    simpa using hbackward.insert hrevNodup hrevItem

theorem Links.Stands.remove (h : l.Stands (pre ++ item :: post))
    (hnodup : (pre ++ item :: post).Nodup) :
    ∃ l', listRemove l item = some l' ∧ l'.Stands (pre ++ post) := by
  obtain ⟨l', hremove, hforward, hbackward⟩ :=
    listRemove_eq l (h.head_iff hnodup) (h.tail_iff hnodup) (h.next_ne hnodup)
  have hitem : item ∉ pre ++ post := by
    simp only [List.nodup_append, List.nodup_cons] at hnodup
    simp only [List.mem_append, not_or]
    exact ⟨fun hmem => hnodup.2.2 item hmem item (by simp) rfl, hnodup.2.1.1⟩
  have hreverse : (pre ++ item :: post).reverse = post.reverse ++ item :: pre.reverse := by simp
  have hback := h.backward
  have hrevNodup := List.nodup_reverse.mpr hnodup
  rw [hreverse] at hback hrevNodup
  refine ⟨l', hremove, Links.Stands.of_visits ?_ ?_⟩
  · rw [hforward, h.prev_eq]
    exact (h.forward.remove hnodup).setLink hitem none
  · rw [hbackward, h.next_eq, ← List.getLast?_reverse, List.reverse_append]
    exact (hback.remove hrevNodup).setLink (by simpa [and_comm] using hitem) none

/-- Nothing but an empty list can be prepended to: the backward walk does not reach the new head. -/
theorem Links.Stands.not_prepend (h : l.Stands xs) (hitem : item ∉ xs) (hne : xs ≠ []) :
    ¬ (listPrepend l item).Stands (item :: xs) := by
  intro hstands
  have hhead : l.head ≠ none := by
    rw [h.head_eq]
    simpa using hne
  have hwalk := hstands.backward
  rw [listPrepend_backward, if_neg hhead, List.reverse_cons] at hwalk
  obtain ⟨r, hold, hr, -⟩ := Leads.append.mp hwalk
  have hkept := h.backward.setLink (x := item) (by simpa using hitem) none
  have hends := Leads.target_unique hold hkept
  rw [hr] at hends
  cases hends

end

/-! ### Loops -/

omit [DecidableEq A] in
/-- `list_for_each` visits the items of the sequence in order. -/
theorem Links.Stands.forEach {l : Links A} {xs : List A} (h : l.Stands xs) {rounds : Nat}
    (hrounds : xs.length ≤ rounds) : listForEach l rounds = xs := by
  suffices hwalk : ∀ {xs : List A} {p : Option A} {rounds : Nat}, Leads l.next p xs none →
      xs.length ≤ rounds → listForEachFrom l rounds p = xs from hwalk h.forward hrounds
  intro xs
  induction xs with
  | nil =>
      intro p rounds hleads _
      obtain rfl : p = none := hleads
      cases rounds <;> rfl
  | cons x xs ih =>
      intro p rounds hleads hlen
      obtain ⟨rfl, hrest⟩ := hleads
      cases rounds with
      | zero => simp at hlen
      | succ rounds => rw [listForEachFrom, listNext, ih hrest (by simpa using hlen)]

/-- `list_for_each_safe` may remove the item it visits: the others stay, in their order. -/
theorem Links.Stands.forEachSafe {l : Links A} {xs : List A} (h : l.Stands xs) (hnodup : xs.Nodup)
    (unwanted : A → Bool) {rounds : Nat} (hrounds : xs.length ≤ rounds) :
    ∃ l', listForEachSafe unwanted rounds l = some l' ∧
      l'.Stands (xs.filter fun x => !unwanted x) := by
  -- the items before the one visited have been kept
  suffices hloop : ∀ {post pre : List A} {l : Links A} {rounds : Nat}, l.Stands (pre ++ post) →
      (pre ++ post).Nodup → post.length ≤ rounds →
      ∃ l', listForEachSafeFrom unwanted rounds l post.head? = some l' ∧
        l'.Stands (pre ++ post.filter fun x => !unwanted x) by
    have hfrom := @hloop xs [] l rounds h hnodup hrounds
    rwa [← h.head_eq] at hfrom
  intro post
  induction post with
  | nil =>
      intro pre l rounds h _ _
      cases rounds <;> exact ⟨l, rfl, h⟩
  | cons x post ih =>
      intro pre l rounds h hnodup hlen
      cases rounds with
      | zero => simp at hlen
      | succ rounds =>
          have hlen' : post.length ≤ rounds := by simpa using hlen
          rw [List.head?_cons, listForEachSafeFrom, listNext, h.next_eq]
          by_cases hx : unwanted x = true
          · obtain ⟨l₁, hremove, h₁⟩ := h.remove hnodup
            have hnodup₁ : (pre ++ post).Nodup :=
              hnodup.sublist ((List.sublist_cons_self x post).append_left pre)
            simpa [hx, hremove] using ih h₁ hnodup₁ hlen'
          · have hsplit : pre ++ x :: post = (pre ++ [x]) ++ post := by simp
            rw [hsplit] at h hnodup
            simpa [hx] using ih h hnodup hlen'

/-! ### One operation -/

theorem insertAfter_eq {pre post : List A} {after : A} (item : A) (h : after ∉ pre) :
    insertAfter after item (pre ++ after :: post) = pre ++ after :: item :: post := by
  induction pre with
  | nil => simp [insertAfter]
  | cons x xs ih =>
      obtain ⟨hne, hxs⟩ : after ≠ x ∧ after ∉ xs := by simpa using h
      simp [insertAfter, hne.symm, ih hxs]

omit [DecidableEq A] in
/-- A member of a sequence without repetitions, between what is before and what is behind it. -/
theorem split_of_mem {xs : List A} {x : A} (hmem : x ∈ xs) (hnodup : xs.Nodup) :
    ∃ pre post, xs = pre ++ x :: post ∧ x ∉ pre := by
  obtain ⟨pre, post, rfl⟩ := List.append_of_mem hmem
  exact ⟨pre, post, rfl, fun hpre => (List.nodup_append.mp hnodup).2.2 x hpre x (by simp) rfl⟩

/-- Proper operations keep the items of the sequence distinct. -/
theorem seqStep_nodup {xs : List A} {op : ListOp A} (hnodup : xs.Nodup) (hproper : op.Proper xs) :
    (seqStep xs op).1.Nodup := by
  cases op with
  | append item =>
      have hperm : (xs ++ [item]).Perm (item :: (xs ++ [])) := List.perm_middle
      exact hperm.nodup_iff.mpr (List.nodup_cons.mpr (by simpa using ⟨hproper, hnodup⟩))
  | prepend item => exact List.nodup_cons.mpr ⟨hproper, hnodup⟩
  | insert after item =>
      cases after with
      | none => exact List.nodup_cons.mpr ⟨hproper, hnodup⟩
      | some after =>
          obtain ⟨hafter, hitem⟩ := hproper
          obtain ⟨pre, post, rfl, hpre⟩ := split_of_mem hafter hnodup
          have hperm : (pre ++ [after] ++ item :: post).Perm (item :: (pre ++ [after] ++ post)) :=
            List.perm_middle
          rw [seqStep, insertAfter_eq item hpre]
          have hcons : (item :: (pre ++ after :: post)).Nodup := List.nodup_cons.mpr ⟨hitem, hnodup⟩
          simpa using hperm.nodup_iff.mpr (by simpa using hcons)
  | remove item => exact hnodup.erase item
  | pop => exact hnodup.tail

/-- A proper operation that keeps the head follows no NULL link and does to the list what it does to the
    sequence. -/
theorem Links.Stands.step {l : Links A} {xs : List A} (h : l.Stands xs) (hnodup : xs.Nodup)
    {op : ListOp A} (hproper : op.Proper xs) (hkeeps : op.KeepsHead xs) :
    ∃ l', listStep l op = some (l', (seqStep xs op).2) ∧ l'.Stands (seqStep xs op).1 := by
  cases op with
  | append item => exact ⟨_, rfl, h.append hnodup hproper⟩
  | prepend item =>
      obtain rfl : xs = [] := hkeeps
      exact ⟨_, rfl, h.prepend_nil⟩
  | insert after item =>
      cases after with
      | none =>
          obtain rfl : xs = [] := hkeeps
          exact ⟨_, rfl, h.prepend_nil⟩
      | some after =>
          obtain ⟨hafter, hitem⟩ := hproper
          obtain ⟨pre, post, rfl, hpre⟩ := split_of_mem hafter hnodup
          refine ⟨_, rfl, ?_⟩
          rw [seqStep, insertAfter_eq item hpre]
          exact h.insert hnodup hitem
  | remove item =>
      obtain ⟨pre, post, rfl, hpre⟩ := split_of_mem hproper hnodup
      obtain ⟨l', hremove, hstands⟩ := h.remove hnodup
      refine ⟨l', by rw [listStep, hremove]; rfl, ?_⟩
      rw [seqStep, List.erase_append_right _ hpre, List.erase_cons_head]
      exact hstands
  | pop =>
      have hhead := h.head_eq
      cases xs with
      | nil => exact ⟨l, by simp [listStep, listPop, hhead, seqStep], h⟩
      | cons item rest =>
          have h' : l.Stands ([] ++ item :: rest) := h
          obtain ⟨l', hremove, hstands⟩ := h'.remove hnodup
          exact ⟨l', by simp [listStep, listPop, hhead, hremove, seqStep], hstands⟩

/-- An operation that puts an item in front of a member leaves links that do not stand for the
    sequence. -/
theorem Links.Stands.not_step {l : Links A} {xs : List A} (h : l.Stands xs) {op : ListOp A}
    (hproper : op.Proper xs) (hfront : ¬ op.KeepsHead xs) {l' : Links A} {r : Option A}
    (hstep : listStep l op = some (l', r)) : ¬ l'.Stands (seqStep xs op).1 := by
  cases op with
  | prepend item =>
      obtain ⟨rfl, -⟩ := Prod.mk.inj (Option.some.inj hstep)
      exact h.not_prepend hproper hfront
  | insert after item =>
      cases after with
      | none =>
          obtain ⟨rfl, -⟩ := Prod.mk.inj (Option.some.inj hstep)
          exact h.not_prepend hproper hfront
      | some after => exact absurd trivial hfront
  | append item => exact absurd trivial hfront
  | remove item => exact absurd trivial hfront
  | pop => exact absurd trivial hfront

/-! ### Runs -/

theorem Links.StandsAlong.stands {l : Links A} {xs : List A} {ops : List (ListOp A)}
    (h : l.StandsAlong xs ops) : l.Stands xs := by
  cases ops with
  | nil => exact h
  | cons op ops => exact h.1

/-- A run of proper operations keeps the list in order exactly when none of them puts an item in front of
    a member. -/
theorem Links.Stands.along_iff {ops : List (ListOp A)} {l : Links A} {xs : List A} (h : l.Stands xs)
    (hnodup : xs.Nodup) (hproper : Guarded ListOp.Proper seqStep xs ops) :
    l.StandsAlong xs ops ↔ Guarded ListOp.KeepsHead seqStep xs ops := by
  induction ops generalizing l xs with
  | nil => exact iff_of_true h trivial
  | cons op ops ih =>
      obtain ⟨hop, hrest⟩ := hproper
      have hnext := seqStep_nodup hnodup hop
      constructor
      · rintro ⟨-, l', hstep, halong⟩
        have hkeeps : op.KeepsHead xs := by
          by_contra hfront
          exact h.not_step hop hfront hstep halong.stands
        exact ⟨hkeeps, (ih halong.stands hnext hrest).mp halong⟩
      · rintro ⟨hkeeps, hguard⟩
        obtain ⟨l', hstep, hstands⟩ := h.step hnodup hop hkeeps
        exact ⟨h, l', hstep, (ih hstands hnext hrest).mpr hguard⟩

omit [DecidableEq A] in
/-- A list that has just been initialised is empty, whatever the links of the items are. -/
theorem listInit_stands (memory : Links A) : (listInit memory).Stands [] :=
  .of_visits rfl rfl

/-- A run of proper operations on a new list keeps both walks, the ends and the results right, and follows
    no NULL link, if and only if nothing is ever put in front of a member. -/
theorem listInit_standsAlong_iff (memory : Links A) (ops : List (ListOp A))
    (hproper : Guarded ListOp.Proper seqStep [] ops) :
    (listInit memory).StandsAlong [] ops ↔ Guarded ListOp.KeepsHead seqStep [] ops :=
  (listInit_stands memory).along_iff List.nodup_nil hproper

/-- Items whose links have never been assigned. -/
def untouched : Links Nat := { head := none, tail := none, next := fun _ => none, prev := fun _ => none }

/-- A run with an insertion behind a member, a removal of the head, and a pop. -/
theorem listInit_standsAlong_five :
    (listInit untouched).StandsAlong []
      [.prepend 1, .insert (some 1) 2, .append 3, .remove 1, .pop] :=
  (listInit_standsAlong_iff untouched _
    (by simp [Guarded, ListOp.Proper, seqStep, insertAfter])).mpr
    (by simp [Guarded, ListOp.KeepsHead])

/-- `list_append(1)`, `list_prepend(2)`, `list_remove(1)`: behind the second call the backward walk misses
    the new head, and the third follows the NULL `prev` of the old one. -/
theorem listPrepend_breaks_prev :
    Guarded ListOp.Proper seqStep [] [.append 1, .prepend 2, .remove 1] ∧
      ¬ (listInit untouched).StandsAlong [] [.append 1, .prepend 2, .remove 1] ∧
      (listPrepend (listAppend (listInit untouched) 1) 2).forward.Visits [2, 1] ∧
      (listPrepend (listAppend (listInit untouched) 1) 2).backward.Visits [1] ∧
      listRemove (listPrepend (listAppend (listInit untouched) 1) 2) 1 = none := by
  have hnull : listRemove (listPrepend (listAppend (listInit untouched) 1) 2) 1 = none := by rfl
  refine ⟨by simp [Guarded, ListOp.Proper, seqStep], ?_, by decide, by decide, hnull⟩
  rintro ⟨-, l₁, h₁, -, l₂, h₂, -, l₃, h₃, -⟩
  obtain ⟨rfl, -⟩ := Prod.mk.inj (Option.some.inj h₁)
  obtain ⟨rfl, -⟩ := Prod.mk.inj (Option.some.inj h₂)
  rw [listStep, hnull] at h₃
  cases h₃

end Qrtr
