/-
Module: Qrtr.Foundation.Traced
Layer: Foundation
Purpose: Computations that may fail and that leave a trace of what they did to memory. The trace of a
  failed computation is kept, so a statement about every access is a statement about accepted and
  rejected inputs alike. `Ensures` is the rule for what holds of the value of a computation that can fail
  in some ways only, `Yields` the same for one that can fail in any way; `Every` is the rule for a property
  of single events, `Guarded` the rule for both at once; `Outcome` says how a run ends whose events are of one
  kind; `Tracks` relates a computation to a coarser one that takes the same decisions and marks the same
  hazards; `Agree` relates two computations that differ in their checks only; `Mirrors` relates two that show
  the same as long as the events of the first are of one kind, `Matches` two that are the same for so long.
Imports: none
Main exports: Traced, Traced.emit, Traced.fail, Traced.after, Ensures, Yields, Agree, Every, Guarded, Outcome,
  Mirrors, Matches, Tracks, Guarded.bind, outcome_bind, Agree.bind, Mirrors.bind, Matches.bind, Tracks.bind
Open obligations: none
-/
import Mathlib.Data.List.Basic
import Mathlib.Control.Basic

namespace Qrtr

/-- A trace of events, then a value or an error. -/
structure Traced (ε ev α : Type) where
  trace : List ev
  res : Except ε α

namespace Traced

variable {ε ev site α β γ : Type}

/-- `m` with the events `t` in front of its own. -/
def after (t : List ev) (m : Traced ε ev α) : Traced ε ev α := ⟨t ++ m.trace, m.res⟩

instance : Monad (Traced ε ev) where
  pure a := ⟨[], .ok a⟩
  bind m f :=
    match m.res with
    | .ok a => after m.trace (f a)
    | .error e => ⟨m.trace, .error e⟩

/-- One event. -/
def emit (e : ev) : Traced ε ev Unit := ⟨[e], .ok ()⟩

/-- Failure, without an event. -/
def fail (e : ε) : Traced ε ev α := ⟨[], .error e⟩

@[simp] theorem pure_trace (a : α) : (pure a : Traced ε ev α).trace = [] := rfl
@[simp] theorem pure_res (a : α) : (pure a : Traced ε ev α).res = .ok a := rfl
@[simp] theorem emit_trace (e : ev) : (emit e : Traced ε ev Unit).trace = [e] := rfl
@[simp] theorem emit_res (e : ev) : (emit e : Traced ε ev Unit).res = .ok () := rfl
@[simp] theorem fail_trace (e : ε) : (fail e : Traced ε ev α).trace = [] := rfl
@[simp] theorem fail_res (e : ε) : (fail e : Traced ε ev α).res = .error e := rfl
@[simp] theorem after_trace (t : List ev) (m : Traced ε ev α) :
    (after t m).trace = t ++ m.trace := rfl
@[simp] theorem after_res (t : List ev) (m : Traced ε ev α) : (after t m).res = m.res := rfl

/-! ### How computations compose -/

theorem bind_ok {m : Traced ε ev α} {a : α} (h : m.res = .ok a) (f : α → Traced ε ev β) :
    m >>= f = after m.trace (f a) := by
  change (match m.res with
    | .ok a => after m.trace (f a)
    | .error e => (⟨m.trace, .error e⟩ : Traced ε ev β)) = _
  rw [h]

theorem bind_error {m : Traced ε ev α} {e : ε} (h : m.res = .error e) (f : α → Traced ε ev β) :
    m >>= f = ⟨m.trace, .error e⟩ := by
  change (match m.res with
    | .ok a => after m.trace (f a)
    | .error e => (⟨m.trace, .error e⟩ : Traced ε ev β)) = _
  rw [h]

@[simp] theorem after_nil (m : Traced ε ev α) : after [] m = m := rfl

@[simp] theorem after_after (t t' : List ev) (m : Traced ε ev α) :
    after t (after t' m) = after (t ++ t') m := by
  simp [after]

@[simp] theorem after_bind (t : List ev) (m : Traced ε ev α) (f : α → Traced ε ev β) :
    after t m >>= f = after t (m >>= f) := by
  cases h : m.res with
  | ok a =>
      have h' : (after t m).res = .ok a := h
      rw [bind_ok h, bind_ok h', after_after]
      rfl
  | error e =>
      have h' : (after t m).res = .error e := h
      rw [bind_error h, bind_error h']
      rfl

@[simp] theorem emit_bind (e : ev) (f : Unit → Traced ε ev β) :
    emit e >>= f = after [e] (f ()) := rfl

@[simp] theorem fail_bind (e : ε) (f : α → Traced ε ev β) : fail e >>= f = fail e := rfl

theorem map_id_eq (m : Traced ε ev α) : id <$> m = m := by
  change m >>= (fun a => pure a) = m
  cases h : m.res with
  | ok a =>
      rw [bind_ok h]
      cases m
      cases h
      simp [after]
  | error e =>
      rw [bind_error h]
      cases m
      cases h
      rfl

theorem bind_bind (m : Traced ε ev α) (f : α → Traced ε ev β) (g : β → Traced ε ev γ) :
    m >>= f >>= g = m >>= fun a => f a >>= g := by
  cases h : m.res with
  | ok a => rw [bind_ok h, bind_ok h, after_bind]
  | error e =>
      rw [bind_error h, bind_error h]
      rfl

instance : LawfulMonad (Traced ε ev) :=
  LawfulMonad.mk' (Traced ε ev) map_id_eq (fun _ _ => rfl) bind_bind

@[simp] theorem map_after (f : α → β) (t : List ev) (m : Traced ε ev α) :
    f <$> after t m = after t (f <$> m) := by
  rw [← bind_pure_comp, ← bind_pure_comp, after_bind]

/-- A result computed from the result leaves no event. -/
theorem bind_pure_trace (m : Traced ε ev α) (f : α → β) :
    (m >>= fun a => pure (f a)).trace = m.trace := by
  cases h : m.res with
  | ok a =>
      rw [bind_ok h]
      exact List.append_nil _
  | error e => rw [bind_error h]

/-- A successful sequence, taken apart. -/
theorem bind_res_ok {m : Traced ε ev α} {f : α → Traced ε ev β} {b : β}
    (h : (m >>= f).res = .ok b) : ∃ a, m.res = .ok a ∧ (f a).res = .ok b := by
  cases hm : m.res with
  | ok a =>
      rw [bind_ok hm] at h
      exact ⟨a, rfl, h⟩
  | error e =>
      rw [bind_error hm] at h
      cases h

/-! ### Runs that agree where both succeed -/

/-- If both succeed, they have the same value and left the same events. -/
def Agree (m m' : Traced ε ev α) : Prop :=
  ∀ a a', m.res = .ok a → m'.res = .ok a' → a = a' ∧ m.trace = m'.trace

theorem Agree.refl (m : Traced ε ev α) : Agree m m := by
  intro a a' h h'
  rw [h] at h'
  cases h'
  exact ⟨rfl, rfl⟩

theorem Agree.bind {m m' : Traced ε ev α} {f f' : α → Traced ε ev β} (h : Agree m m')
    (hf : ∀ a, Agree (f a) (f' a)) : Agree (m >>= f) (m' >>= f') := by
  intro b b' hb hb'
  obtain ⟨a, ha, hfa⟩ := bind_res_ok hb
  obtain ⟨a', ha', hfa'⟩ := bind_res_ok hb'
  obtain ⟨rfl, htrace⟩ := h a a' ha ha'
  obtain ⟨hvalue, hrest⟩ := hf a b b' hfa hfa'
  refine ⟨hvalue, ?_⟩
  rw [bind_ok ha, bind_ok ha', after_trace, after_trace, htrace, hrest]

/-- Two runs that may each be refused by a check of its own. -/
theorem Agree.check {m m' : Traced ε ev α} {e e' : ε} {c c' : Prop} [Decidable c] [Decidable c']
    (h : Agree m m') : Agree (if c then fail e else m) (if c' then fail e' else m') := by
  intro a a' ha ha'
  split at ha
  · cases ha
  split at ha'
  · cases ha'
  rw [if_neg ‹¬ c›, if_neg ‹¬ c'›]
  exact h a a' ha ha'

/-! ### What holds where a run succeeds -/

/-- `m` fails with an error in `E`, or succeeds with a value that satisfies `R`. -/
def Ensures (E : ε → Prop) (R : α → Prop) (m : Traced ε ev α) : Prop :=
  match m.res with
  | .ok a => R a
  | .error e => E e

section Ensuring

variable {E : ε → Prop} {R : α → Prop} {m : Traced ε ev α}

theorem Ensures.of_ok {a : α} (h : Ensures E R m) (hm : m.res = .ok a) : R a := by
  rw [Ensures, hm] at h
  exact h

/-- The error of a failed run. -/
theorem Ensures.of_not (h : Ensures E R m) (hnot : ∀ a, ¬ R a) : ∃ e, m.res = .error e ∧ E e := by
  cases hm : m.res with
  | ok a => exact absurd (h.of_ok hm) (hnot a)
  | error e =>
      rw [Ensures, hm] at h
      exact ⟨e, rfl, h⟩

theorem Ensures.imp {S : α → Prop} (h : Ensures E R m) (hRS : ∀ a, R a → S a) : Ensures E S m := by
  unfold Ensures at *
  cases hm : m.res with
  | ok a =>
      rw [hm] at h
      exact hRS a h
  | error e =>
      rw [hm] at h
      exact h

/-- What holds behind a sequence. -/
theorem Ensures.bind {S : β → Prop} {f : α → Traced ε ev β} (h : Ensures E R m)
    (hf : ∀ a, R a → Ensures E S (f a)) : Ensures E S (m >>= f) := by
  cases hm : m.res with
  | ok a =>
      rw [bind_ok hm]
      exact hf a (h.of_ok hm)
  | error e =>
      rw [Ensures, hm] at h
      rw [bind_error hm]
      exact h

end Ensuring

/-! ### What holds of a value, if there is one -/

/-- If `m` has a value, the value satisfies `P`; `m` may fail in any way. -/
def Yields (P : α → Prop) (m : Traced ε ev α) : Prop := ∀ a, m.res = .ok a → P a

theorem yields_pure {P : α → Prop} {a : α} (h : P a) : Yields P (pure a : Traced ε ev α) := by
  rintro _ ⟨⟩
  exact h

theorem yields_fail {P : α → Prop} {e : ε} : Yields P (fail e : Traced ε ev α) := by
  rintro _ ⟨⟩

@[simp] theorem yields_after {P : α → Prop} (t : List ev) (m : Traced ε ev α) :
    Yields P (after t m) ↔ Yields P m := Iff.rfl

theorem Yields.bind {P : α → Prop} {Q : β → Prop} {m : Traced ε ev α} {f : α → Traced ε ev β}
    (h : Yields P m) (hf : ∀ a, P a → Yields Q (f a)) : Yields Q (m >>= f) := by
  intro b hb
  obtain ⟨a, ha, hfa⟩ := bind_res_ok hb
  exact hf a (h a ha) b hfa

/-- What a first part that says nothing of its value leaves to the second. -/
theorem yields_bind {Q : β → Prop} {m : Traced ε ev α} {f : α → Traced ε ev β}
    (hf : ∀ a, Yields Q (f a)) : Yields Q (m >>= f) :=
  Yields.bind (P := fun _ => True) (fun _ _ => trivial) fun a _ => hf a

theorem Yields.map {P : α → Prop} {Q : β → Prop} {m : Traced ε ev α} {f : α → β} (h : Yields P m)
    (hf : ∀ a, P a → Q (f a)) : Yields Q (f <$> m) := by
  rw [← bind_pure_comp]
  exact h.bind fun a ha => yields_pure (hf a ha)

/-! ### A property of every event -/

/-- Every event that `m` leaves satisfies `P`, whether `m` succeeds or fails. -/
def Every (P : ev → Prop) (m : Traced ε ev α) : Prop := ∀ e ∈ m.trace, P e

variable {P : ev → Prop} {Q : site → Prop}

@[simp] theorem every_pure (a : α) : Every P (pure a : Traced ε ev α) := by
  simp [Every]

@[simp] theorem every_fail (e : ε) : Every P (fail e : Traced ε ev α) := by
  simp [Every]

@[simp] theorem every_emit (e : ev) : Every P (emit e : Traced ε ev Unit) ↔ P e := by
  simp [Every]

@[simp] theorem every_after (t : List ev) (m : Traced ε ev α) :
    Every P (after t m) ↔ (∀ e ∈ t, P e) ∧ Every P m := by
  simp [Every, or_imp, forall_and]

/-- The events of a sequence are those of its first part and, if it gets there, of its second. -/
theorem every_bind_iff {m : Traced ε ev α} {f : α → Traced ε ev β} :
    Every P (m >>= f) ↔ Every P m ∧ ∀ a, m.res = .ok a → Every P (f a) := by
  cases h : m.res with
  | ok a =>
      rw [bind_ok h, every_after]
      simp [Every]
  | error e =>
      rw [bind_error h]
      simp [Every]

/-- The events of a sequence whose first part succeeds. -/
theorem every_bind_ok {m : Traced ε ev α} {a : α} (h : m.res = .ok a) {f : α → Traced ε ev β} :
    Every P (m >>= f) ↔ Every P m ∧ Every P (f a) := by
  rw [bind_ok h, every_after]
  exact Iff.rfl

/-! ### What a run leaves, and what holds where it succeeds -/

/-- The events of `m` satisfy `P`, and `m` fails with an error in `E` or succeeds with a value that
    satisfies `R`. -/
structure Guarded (P : ev → Prop) (E : ε → Prop) (R : α → Prop) (m : Traced ε ev α) : Prop where
  every : Every P m
  ensures : Ensures E R m

section Guarding

variable {E : ε → Prop} {R : α → Prop} {S : β → Prop} {m : Traced ε ev α}

theorem guarded_pure {a : α} (h : R a) : Guarded P E R (pure a : Traced ε ev α) := ⟨every_pure a, h⟩

theorem guarded_fail {e : ε} (h : E e) : Guarded P E R (fail e : Traced ε ev α) := ⟨every_fail e, h⟩

theorem Guarded.after {t : List ev} (ht : ∀ x ∈ t, P x) (h : Guarded P E R m) :
    Guarded P E R (Traced.after t m) :=
  ⟨(every_after t m).mpr ⟨ht, h.every⟩, h.ensures⟩

theorem Guarded.imp {S : α → Prop} (h : Guarded P E R m) (hRS : ∀ a, R a → S a) : Guarded P E S m :=
  ⟨h.every, h.ensures.imp hRS⟩

theorem Guarded.bind {f : α → Traced ε ev β} (h : Guarded P E R m) (hf : ∀ a, R a → Guarded P E S (f a)) :
    Guarded P E S (m >>= f) where
  every := every_bind_iff.mpr ⟨h.every, fun a ha => (hf a (h.ensures.of_ok ha)).every⟩
  ensures := h.ensures.bind fun a ha => (hf a ha).ensures

/-- A check in front of a run. -/
theorem Guarded.check {e : ε} {c : Prop} [Decidable c] (he : E e) (h : ¬ c → Guarded P E R m) :
    Guarded P E R (if c then fail e else m) := by
  split
  · exact guarded_fail he
  · exact h ‹¬ c›

end Guarding

/-! ### How a run ends -/

/-- The events of `m` satisfy `P`, and `m` ends with the value of `out`, or fails when that is `none`. -/
def Outcome (P : ev → Prop) (m : Traced ε ev α) (out : Option α) : Prop :=
  Every P m ∧ m.res.toOption = out

section Ending

variable {m : Traced ε ev α} {f : α → Traced ε ev β} {out : Option β}

theorem outcome_pure {a : α} {out : Option α} :
    Outcome P (pure a : Traced ε ev α) out ↔ out = some a := by
  simp [Outcome, Except.toOption, eq_comm]

theorem outcome_fail {e : ε} {out : Option α} : Outcome P (fail e : Traced ε ev α) out ↔ out = none := by
  simp [Outcome, Except.toOption, eq_comm]

theorem outcome_emit {e : ev} {f : Unit → Traced ε ev β} :
    Outcome P (emit e >>= f) out ↔ P e ∧ Outcome P (f ()) out := by
  simp [Outcome, and_assoc]

/-- A sequence fails with its first part, or ends like its second. -/
theorem outcome_bind : Outcome P (m >>= f) out ↔
    (Outcome P m none ∧ out = none) ∨ ∃ a, Outcome P m (some a) ∧ Outcome P (f a) out := by
  unfold Outcome
  cases h : m.res with
  | ok a =>
      rw [bind_ok h, every_after, after_res]
      simp [Except.toOption, Every, and_assoc]
  | error e =>
      rw [bind_error h]
      simp [Except.toOption, Every, eq_comm]

/-- The events of a sequence: its first part fails, or the second goes on from its value. -/
theorem every_bind_outcome :
    Every P (m >>= f) ↔ Outcome P m none ∨ ∃ a, Outcome P m (some a) ∧ Every P (f a) := by
  unfold Outcome
  rw [every_bind_iff]
  cases h : m.res with
  | ok a => simp [Except.toOption]
  | error e => simp [Except.toOption]

/-- A result computed from the result. -/
theorem outcome_map {f : α → β} : Outcome P (m >>= fun a => pure (f a)) out ↔
    ∃ out', Outcome P m out' ∧ out = out'.map f := by
  rw [outcome_bind]
  constructor
  · rintro (⟨h, rfl⟩ | ⟨a, h, hout⟩)
    · exact ⟨none, h, rfl⟩
    · exact ⟨some a, h, outcome_pure.mp hout⟩
  · rintro ⟨_ | a, h, rfl⟩
    · exact .inl ⟨h, rfl⟩
    · exact .inr ⟨a, h, outcome_pure.mpr rfl⟩

end Ending

/-! ### Runs that show the same -/

variable {obs : Type}

/-- If every event of `m` satisfies `P`, then `m'` ends as `m` does, and shows the same of its events. -/
def Mirrors (P : ev → Prop) (view : ev → Option obs) (m m' : Traced ε ev α) : Prop :=
  Every P m → m'.res = m.res ∧ m'.trace.filterMap view = m.trace.filterMap view

section Mirroring

variable {view : ev → Option obs} {m m' : Traced ε ev α}

theorem Mirrors.refl (m : Traced ε ev α) : Mirrors P view m m := fun _ => ⟨rfl, rfl⟩

theorem Mirrors.emit {e e' : ev} (h : P e → view e' = view e) :
    Mirrors P view (emit e : Traced ε ev Unit) (emit e') := by
  intro hP
  refine ⟨rfl, ?_⟩
  rw [emit_trace, emit_trace, List.filterMap_cons, List.filterMap_cons, h (hP e List.mem_cons_self)]

theorem Mirrors.bind {f f' : α → Traced ε ev β} (h : Mirrors P view m m')
    (hf : ∀ a, Mirrors P view (f a) (f' a)) : Mirrors P view (m >>= f) (m' >>= f') := by
  intro hP
  obtain ⟨hm, hrest⟩ := every_bind_iff.mp hP
  obtain ⟨hres, hview⟩ := h hm
  cases hm : m.res with
  | ok a =>
      obtain ⟨hres', hview'⟩ := hf a (hrest a hm)
      rw [bind_ok hm, bind_ok (hres.trans hm)]
      refine ⟨hres', ?_⟩
      rw [after_trace, after_trace, List.filterMap_append, List.filterMap_append, hview, hview']
  | error e =>
      rw [bind_error hm, bind_error (hres.trans hm)]
      exact ⟨rfl, hview⟩

/-- The same check in front of both. -/
theorem Mirrors.check {c : Prop} [Decidable c] {n n' : Traced ε ev α} (h : Mirrors P view m m')
    (hn : Mirrors P view n n') : Mirrors P view (if c then m else n) (if c then m' else n') := by
  split
  · exact h
  · exact hn

end Mirroring

/-! ### Runs that are the same -/

/-- As long as the events of one of them satisfy `P`, `m'` is `m`, and its value satisfies `R`. -/
structure Matches (P : ev → Prop) (R : α → Prop) (m m' : Traced ε ev α) : Prop where
  eq : Every P m ∨ Every P m' → m' = m
  value : Every P m → Yields R m

section Matching

variable {R : α → Prop} {S : β → Prop} {m m' : Traced ε ev α}

theorem Matches.of_eq (h : m' = m) (hvalue : Every P m → Yields R m) : Matches P R m m' :=
  ⟨fun _ => h, hvalue⟩

theorem matches_pure {a : α} (h : R a) : Matches P R (pure a : Traced ε ev α) (pure a) :=
  .of_eq rfl fun _ => yields_pure h

theorem matches_fail (e : ε) : Matches P R (fail e : Traced ε ev α) (fail e) :=
  .of_eq rfl fun _ => yields_fail

theorem matches_emit (e : ev) : Matches P (fun _ => P e) (emit e : Traced ε ev Unit) (emit e) :=
  .of_eq rfl fun h _ _ => every_emit (ε := ε) e |>.mp h

theorem Matches.every_iff (h : Matches P R m m') : Every P m' ↔ Every P m := by
  constructor
  · intro hP
    rw [← h.eq (.inr hP)]
    exact hP
  · intro hP
    rw [h.eq (.inl hP)]
    exact hP

theorem Matches.imp {P' : ev → Prop} {R' : α → Prop} (h : Matches P R m m') (hP : ∀ e, P' e → P e)
    (hR : ∀ a, R a → R' a) : Matches P' R' m m' where
  eq hevery := h.eq (hevery.imp (fun hm e he => hP e (hm e he)) fun hm e he => hP e (hm e he))
  value hevery a ha := hR a (h.value (fun e he => hP e (hevery e he)) a ha)

theorem Matches.bind {f f' : α → Traced ε ev β} (h : Matches P R m m')
    (hf : ∀ a, R a → Matches P S (f a) (f' a)) : Matches P S (m >>= f) (m' >>= f') := by
  have hrest : ∀ hm : Every P m, ∀ a, m.res = .ok a → Matches P S (f a) (f' a) :=
    fun hm a ha => hf a (h.value hm a ha)
  constructor
  case eq =>
      intro hevery
      have hm : Every P m := by
        rcases hevery with hevery | hevery
        · exact (every_bind_iff.mp hevery).1
        · exact h.every_iff.mp (every_bind_iff.mp hevery).1
      have hsame := h.eq (.inl hm)
      subst hsame
      cases hres : m'.res with
      | error e => rw [bind_error hres, bind_error hres]
      | ok a =>
          rw [bind_ok hres, bind_ok hres, (hrest hm a hres).eq]
          exact hevery.imp (fun hall => (every_bind_iff.mp hall).2 a hres)
            fun hall => (every_bind_iff.mp hall).2 a hres
  case value =>
      intro hevery b hb
      obtain ⟨hm, hall⟩ := every_bind_iff.mp hevery
      obtain ⟨a, ha, hfa⟩ := bind_res_ok hb
      exact (hrest hm a ha).value (hall a ha) b hfa

/-- The same check in front of both. -/
theorem Matches.check {c : Prop} [Decidable c] {n n' : Traced ε ev α} (h : c → Matches P R m m')
    (hn : ¬ c → Matches P R n n') : Matches P R (if c then m else n) (if c then m' else n') := by
  split
  · exact h ‹c›
  · exact hn ‹¬ c›

end Matching

/-! ### Tracking a coarser computation -/

/-- `m` and `w` end alike, and `m` leaves only events in `P` exactly when `w` leaves only sites in
    `Q`. -/
structure Tracks (P : ev → Prop) (Q : site → Prop) (m : Traced ε ev α) (w : Traced ε site α) :
    Prop where
  res_eq : m.res = w.res
  every_iff : Every P m ↔ Every Q w

theorem Tracks.pure (a : α) : Tracks P Q (pure a : Traced ε ev α) (pure a : Traced ε site α) :=
  ⟨rfl, by simp⟩

theorem Tracks.fail (e : ε) : Tracks P Q (fail e : Traced ε ev α) (fail e : Traced ε site α) :=
  ⟨rfl, by simp⟩

theorem Tracks.emit {e : ev} {s : site} (h : P e ↔ Q s) :
    Tracks P Q (emit e : Traced ε ev Unit) (emit s : Traced ε site Unit) :=
  ⟨rfl, by simpa using h⟩

/-- A harmless event in front of `m` changes nothing. -/
theorem Tracks.after {t : List ev} {m : Traced ε ev α} {w : Traced ε site α} (ht : ∀ e ∈ t, P e)
    (h : Tracks P Q m w) : Tracks P Q (after t m) w :=
  ⟨h.res_eq, by rw [every_after, h.every_iff]; exact and_iff_right ht⟩

/-- Tracking is kept by sequencing. -/
theorem Tracks.bind {m : Traced ε ev α} {w : Traced ε site α} {f : α → Traced ε ev β}
    {g : α → Traced ε site β} (h : Tracks P Q m w)
    (hf : ∀ a, m.res = .ok a → Tracks P Q (f a) (g a)) : Tracks P Q (m >>= f) (w >>= g) := by
  cases hm : m.res with
  | ok a =>
      have hw : w.res = .ok a := h.res_eq ▸ hm
      have hfa := hf a hm
      rw [bind_ok hm, bind_ok hw]
      refine ⟨hfa.res_eq, ?_⟩
      rw [every_after, every_after, hfa.every_iff]
      exact and_congr_left fun _ => h.every_iff
  | error e =>
      have hw : w.res = .error e := h.res_eq ▸ hm
      rw [bind_error hm, bind_error hw]
      exact ⟨rfl, h.every_iff⟩

end Traced

end Qrtr
