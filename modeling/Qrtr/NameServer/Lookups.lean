/-
Module: Qrtr.NameServer.Lookups
Layer: NameServer
Purpose: NEW_LOOKUP and DEL_LOOKUP as a pair. A NEW_LOOKUP appends the lookup it asks for
  (`Event.action_newLookup_local`), and a DEL_LOOKUP with the same words should take out what it appended and
  nothing else. `ctrl_cmd_del_lookup` compares the service as it is, but takes the instance of a stored
  lookup for a filter, as the loops that notify do: a lookup for every instance is taken out by a DEL_LOOKUP
  for any of them.
Imports: Qrtr.NameServer.Effects
Main exports: Event.lookup, nsStep_delLookup, Undoes, undoes_iff
Open obligations: none
-/
import Qrtr.NameServer.Effects

namespace Qrtr

open MapOps LawfulMap

/-- The lookup that a NEW_LOOKUP or a DEL_LOOKUP is about. -/
def Event.lookup (e : Event) : Lookup := { service := e.word 4, inst := e.word 8, sq := e.sq }

/-- The lookup of its sender for every instance of the service. -/
def Event.wildcard (e : Event) : Lookup := { service := e.word 4, inst := 0, sq := e.sq }

variable {T : Type} [MapOps T Server]

/-- A DEL_LOOKUP undoes the NEW_LOOKUPs with its words: the lookups are the ones before, in their order,
    without those equal to the one it is about. Nothing else changes, and nothing is sent. -/
structure Undoes (s : Ns T) (e : Event) : Prop where
  state : (nsStep s e).1 = { s with lookups := s.lookups.filter fun lookup => lookup ≠ e.lookup }
  sent : (nsStep s e).2 = []

/-- What a DEL_LOOKUP does: it only shortens the list of lookups. -/
theorem nsStep_delLookup {s : Ns T} (running : s.sockOpen = true) {e : Event}
    (hlen : 4 ≤ e.received.length) (hcmd : e.word 0 = qrtrTypeDelLookup) :
    nsStep s e = ({ s with lookups := s.lookupsUnwatched e.sq (e.word 4) (e.word 8) }, []) := by
  have hrec : e.datagram.take 4096 = e.received := rfl
  have hword : ∀ i, ctrlWord (s.exec e).order (e.stale.write 0 e.received) i = e.word i :=
    fun i => ctrlWord_eq _ _ i
  have hne : e.received.length ≠ 0 := by omega
  rw [nsStep, if_pos running, ctrlPortFn]
  simp only [hrec, hword, hcmd, if_neg hne, if_neg (Nat.not_lt.2 hlen)]
  rfl

omit [MapOps T Server] in
/-- The test of `ctrl_cmd_del_lookup` leaves the lookups that are neither the one it is about nor the one for
    every instance. -/
theorem lookupsUnwatched_eq (s : Ns T) (e : Event) :
    s.lookupsUnwatched e.sq (e.word 4) (e.word 8) =
      s.lookups.filter fun lookup => lookup ≠ e.lookup ∧ lookup ≠ e.wildcard := by
  apply List.filter_congr
  intro lookup _
  obtain ⟨service, inst, node, port⟩ := lookup
  rw [Bool.eq_iff_iff, decide_eq_true_iff, Event.lookup, Event.wildcard]
  simp only [ne_eq, Lookup.mk.injEq, Sockaddr.ext_iff, Bool.not_eq_true', Bool.and_eq_false_iff,
    Bool.or_eq_false_iff, beq_eq_false_iff_ne]
  tauto

/-- A DEL_LOOKUP undoes the NEW_LOOKUPs with its words exactly if it is for every instance itself, or its
    sender has no lookup for every instance of the service. -/
theorem undoes_iff {s : Ns T} (running : s.sockOpen = true) {e : Event}
    (hlen : 4 ≤ e.received.length) (hcmd : e.word 0 = qrtrTypeDelLookup) :
    Undoes s e ↔ e.word 8 = 0 ∨ e.wildcard ∉ s.lookups := by
  have hstep := nsStep_delLookup running hlen hcmd
  have hundoes : Undoes s e ↔ s.lookupsUnwatched e.sq (e.word 4) (e.word 8) =
      s.lookups.filter fun lookup => lookup ≠ e.lookup := by
    constructor
    · intro h
      have hstate := h.state
      rw [hstep] at hstate
      exact congrArg Ns.lookups hstate
    · intro h
      constructor
      · rw [hstep, h]
      · rw [hstep]
  rw [hundoes, lookupsUnwatched_eq]
  constructor
  · intro h
    by_cases hinst : e.word 8 = 0
    · exact Or.inl hinst
    · have hne : e.wildcard ≠ e.lookup := fun heq => hinst (congrArg Lookup.inst heq).symm
      refine Or.inr fun hmem => ?_
      have hkept : e.wildcard ∈ s.lookups.filter fun lookup => lookup ≠ e.lookup :=
        List.mem_filter.2 ⟨hmem, decide_eq_true hne⟩
      rw [← h] at hkept
      exact (of_decide_eq_true (List.mem_filter.1 hkept).2).2 rfl
  · intro h
    apply List.filter_congr
    intro lookup hmem
    rw [decide_eq_decide]
    apply and_iff_left_of_imp
    intro hne hwild
    rcases h with hinst | habsent
    · apply hne
      rw [hwild, Event.wildcard, Event.lookup, hinst]
    · exact habsent (hwild ▸ hmem)

/-- A client that looks for two instances of a service stops looking for one, next to another client that
    looks for all of them. -/
theorem undoes_iff_specific :
    Undoes
      (Run.final nsStep (nsInit .little 1 : Ns (Map Server))
        [Event.ofWords { node := 1, port := 5 } [qrtrTypeNewLookup, 7, 3, 0, 0],
          Event.ofWords { node := 1, port := 6 } [qrtrTypeNewLookup, 7, 0, 0, 0],
          Event.ofWords { node := 1, port := 5 } [qrtrTypeNewLookup, 7, 4, 0, 0]])
      (Event.ofWords { node := 1, port := 5 } [qrtrTypeDelLookup, 7, 3, 0, 0]) :=
  (undoes_iff (by decide) (by decide) (by decide)).2 (Or.inr (by decide))

/-- A client that looks for every instance of a service and for instance 3, and then no longer for
    instance 3, has lost both lookups. -/
theorem not_undoes : ¬ ∀ s : Ns (Map Server), s.sockOpen = true → ∀ e : Event,
    4 ≤ e.received.length → e.word 0 = qrtrTypeDelLookup → Undoes s e := by
  intro h
  have hundoes := h
    (Run.final nsStep (nsInit .little 1)
      [Event.ofWords { node := 1, port := 5 } [qrtrTypeNewLookup, 7, 0, 0, 0],
        Event.ofWords { node := 1, port := 5 } [qrtrTypeNewLookup, 7, 3, 0, 0]])
    (by decide) (Event.ofWords { node := 1, port := 5 } [qrtrTypeDelLookup, 7, 3, 0, 0]) (by decide)
    (by decide)
  have hlookups := congrArg Ns.lookups hundoes.state
  revert hlookups
  decide

end Qrtr
