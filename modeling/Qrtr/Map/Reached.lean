/-
Module: Qrtr.Map.Reached
Layer: Map
Purpose: What every call leaves of the memory of a map, whatever the size of the table, the keys, the items
  and the allocations: the table has as many entries as `size` says, and `count` of them are live. From it
  follows how a put ends in every memory that calls can lead to: after at most one rehash, whose copy
  loop runs to its end, and without success only if the larger table could not be allocated.
Imports: Qrtr.Map.Pointers
Main exports: mapHash_yields, mapReput_sound, mapRemove_yields, mapStep_sound, Reachable,
  Reachable.sound, mapReput_ends, puts
Open obligations: none
-/
import Qrtr.Map.Pointers

namespace Qrtr.Memory

open Traced

variable {A : Type} {m : MapMem A}

/-! ### The calls that do not write -/

theorem entry_yields (m : MapMem A) (idx : Int) :
    (m.entry idx).Yields fun e => ∃ i < m.data.length, idx = (i : Nat) ∧ m.entryAt i = e := by
  rw [MapMem.entry]
  split
  · exact yields_fail
  · rename_i hneg
    cases hget : m.data[idx.toNat]? with
    | none => exact yields_fail
    | some e =>
        obtain ⟨hlt, -⟩ := List.getElem?_eq_some_iff.mp hget
        exact yields_pure ⟨idx.toNat, hlt, by omega, by simp [MapMem.entryAt, List.getD, hget]⟩

/-- What `map_hash` returns: a negative code and the memory as it was, or an index of the table. -/
def Hashed (m : MapMem A) (r : Int × MapMem A) : Prop :=
  r.1 < 0 ∧ r.2 = m ∨
    ∃ i < m.data.length, m.count ≠ m.size ∧ r = ((i : Int), m.counted i)

theorem mapHashLoop_yields (hroom : m.count ≠ m.size) (key : UInt32) :
    ∀ (left : Nat) (i idx : Int), (mapHashLoop m key left i idx).Yields (Hashed m)
  | 0, _, _ => yields_pure (Or.inl ⟨(by decide : (-2 : Int) < 0), rfl⟩)
  | left + 1, i, idx => by
      refine (entry_yields m idx).bind ?_
      rintro e ⟨j, hj, rfl, he⟩
      cases hentry : e with
      | null =>
          have hfree : m.view.free j := by rw [m.free_iff, he, hentry]; rfl
          exact yields_pure (Or.inr ⟨j, hj, hroom, by simp [MapMem.counted, hfree]⟩)
      | deleted =>
          have hfree : m.view.free j := by rw [m.free_iff, he, hentry]; rfl
          exact yields_pure (Or.inr ⟨j, hj, hroom, by simp [MapMem.counted, hfree]⟩)
      | item a =>
          have hlive : ¬ m.view.free j := by rw [m.free_iff, he, hentry]; simp [MapEntry.item?]
          dsimp only
          split
          · exact yields_pure (Or.inr ⟨j, hj, hroom, by simp [MapMem.counted, hlive]⟩)
          · exact yields_bind fun _ => yields_bind fun _ => mapHashLoop_yields hroom key left _ _

theorem mapHash_yields (m : MapMem A) (key : UInt32) : (mapHash m key).Yields (Hashed m) := by
  have hreturn : ∀ r, Hashed m r → Yields (Hashed m) (do emit (.hash r.1); pure r : Op (Int × MapMem A)) :=
    fun r hr => yields_bind fun _ => yields_pure hr
  rw [mapHash]
  split
  · exact hreturn _ (Or.inl ⟨(by decide : (-1 : Int) < 0), rfl⟩)
  · rename_i hroom
    exact yields_bind fun _ => (mapHashLoop_yields hroom key _ _ _).bind hreturn

/-- What `map_find` finds is a live item of the key. -/
theorem mapFindLoop_yields (m : MapMem A) (key : UInt32) :
    ∀ (left : Nat) (i idx : Int), (mapFindLoop m key left i idx).Yields
      fun r => ∀ e, r = some e → ∃ a, e < m.data.length ∧ m.entryAt e = .item a ∧ m.key a = key
  | 0, _, _ => yields_pure (by simp)
  | left + 1, i, idx => by
      refine (entry_yields m idx).bind ?_
      rintro e ⟨j, hj, rfl, he⟩
      refine yields_bind fun next => ?_
      cases hentry : e with
      | null => exact yields_pure (by simp)
      | deleted => exact yields_bind fun _ => mapFindLoop_yields m key left _ _
      | item a =>
          dsimp only
          split
          · rename_i hkey
            refine yields_pure fun e' heq => ?_
            obtain rfl : j = e' := by simpa using heq
            exact ⟨a, hj, by rw [he, hentry], hkey⟩
          · exact yields_bind fun _ => mapFindLoop_yields m key left _ _

theorem mapFind_yields (m : MapMem A) (key : UInt32) :
    (mapFind m key).Yields
      fun r => ∀ e, r = some e → ∃ a, e < m.data.length ∧ m.entryAt e = .item a ∧ m.key a = key := by
  rw [mapFind]
  split
  · exact yields_pure (by simp)
  · exact yields_bind fun _ => mapFindLoop_yields m key _ _ _

/-! ### The calls that write -/

/-- A copy loop keeps what its puts keep. -/
theorem copyLoop_yields {P : MapMem A → Prop} {put : MapMem A → UInt32 → A → Op (Put A)}
    (hput : ∀ m key value, P m → (put m key value).Yields fun r => P r.map) :
    ∀ (left : Nat) (oldt : List (MapEntry A)) (m : MapMem A), P m →
      (copyLoop put left oldt m).Yields fun r => P r.2
  | 0, _, _, hm => yields_pure hm
  | _ + 1, [], _, _ => yields_fail
  | left + 1, .null :: oldt, m, hm => copyLoop_yields hput left oldt m hm
  | left + 1, .deleted :: oldt, m, hm => copyLoop_yields hput left oldt m hm
  | left + 1, .item a :: oldt, m, hm => by
      refine (hput m _ a hm).bind fun r hr => yields_bind fun _ => ?_
      split
      · exact yields_bind fun _ => yields_pure hr
      · exact copyLoop_yields hput left oldt r.map hr

theorem mapRehash_sound {put : MapMem A → UInt32 → A → Op (Put A)}
    (hput : ∀ m key value, m.Sound → (put m key value).Yields fun r => r.map.Sound) (h : m.Sound) :
    (mapRehash put m).Yields fun r => r.2.Sound := by
  refine yields_bind fun _ => ?_
  rcases calloc m.allocs with ⟨ok, allocs⟩
  cases ok with
  | false => exact yields_bind fun _ => yields_pure ⟨h.length_eq, h.count_eq⟩
  | true =>
      exact yields_bind fun _ => copyLoop_yields hput _ _ _ (MapMem.Sound.grown m allocs)

theorem mapReput_sound [DecidableEq A] :
    ∀ (rounds : Nat) (m : MapMem A) (key : UInt32) (value : A), m.Sound →
      (mapReput rounds m key value).Yields fun r => r.map.Sound
  | 0, _, _, _, _ => yields_fail
  | rounds + 1, m, key, value, h => by
      refine (mapHash_yields m key).bind ?_
      rintro ⟨rc, m'⟩ (⟨hneg, rfl⟩ | ⟨i, hi, hroom, heq⟩)
      · dsimp only at hneg ⊢
        rw [if_pos hneg]
        refine (mapRehash_sound (mapReput_sound rounds) h).bind ?_
        rintro ⟨rc', t⟩ ht
        dsimp only
        split
        · exact yields_pure ht
        · exact mapReput_sound rounds t key value ht
      · obtain ⟨rfl, rfl⟩ := Prod.mk.inj heq
        have hnonneg : ¬ (i : Int) < 0 := by omega
        dsimp only
        rw [if_neg hnonneg]
        exact yields_bind fun _ => yields_pure (h.placed hroom (h.length_eq ▸ hi) key value)

/-- The memory after `map_remove` has found the entry `e`. -/
def MapMem.removed (m : MapMem A) (e : Nat) : MapMem A :=
  { m.setEntry e .deleted with count := m.count - 1 }

/-- What `map_remove` leaves behind: the memory as it was, or a tombstone in place of an item of the key. -/
theorem mapRemove_yields (m : MapMem A) (key : UInt32) :
    (mapRemove m key).Yields fun r => r = (1, m) ∨
      ∃ e a, e < m.data.length ∧ m.entryAt e = .item a ∧ m.key a = key ∧ r = (0, m.removed e) := by
  refine (mapFind_yields m key).bind fun r hr => ?_
  cases r with
  | none => exact yields_pure (Or.inl rfl)
  | some e =>
      obtain ⟨a, he, hentry, hkey⟩ := hr e rfl
      exact yields_pure (Or.inr ⟨e, a, he, hentry, hkey, rfl⟩)

section

variable {e : Nat} {a : A}

/-- Removing a live entry takes one off the number of live entries. -/
theorem MapMem.liveCount_removed (h : m.Sound) (he : e < m.data.length)
    (hentry : m.entryAt e = .item a) : (m.removed e).liveCount + 1 = m.liveCount := by
  have hset := Map.liveCount_setSlot (m := m.view) (by rwa [h.view_size, ← h.length_eq]) .deleted
  have hlive : ¬ m.view.free e := by rw [m.free_iff, hentry]; simp [MapEntry.item?]
  have hview : m.view.setSlot e .deleted = (m.setEntry e .deleted).view :=
    (m.view_setEntry e .deleted).symm
  rw [hview, view_liveCount, view_liveCount, if_neg hlive] at hset
  exact hset

/-- Where there is a live entry the count can be lowered by one. -/
theorem MapMem.Sound.toNat_count_removed (h : m.Sound) (he : e < m.data.length)
    (hentry : m.entryAt e = .item a) : (m.removed e).count.toNat = m.count.toNat - 1 := by
  have hlive := m.liveCount_removed h he hentry
  have hcount := h.count_eq
  have hmax := m.count.toNat_lt
  show (m.count - 1).toNat = m.count.toNat - 1
  rw [UInt32.toNat_sub]
  simp
  omega

theorem MapMem.Sound.removed (h : m.Sound) (he : e < m.data.length) (hentry : m.entryAt e = .item a) :
    (m.removed e).Sound where
  length_eq := by simp [MapMem.removed, MapMem.setEntry, h.length_eq]
  count_eq := by
    have hlive := m.liveCount_removed h he hentry
    have hcount := h.count_eq
    rw [h.toNat_count_removed he hentry]
    omega

end

/-- The loop of `map_clear` sets the entries it comes by to NULL. -/
theorem mapClearLoop_yields :
    ∀ (left : Nat) (i : Int) (data : List (MapEntry A)),
      (mapClearLoop left i data).Yields
        fun r => r.1 = List.replicate left .null ++ data.drop left
  | 0, _, _ => yields_pure rfl
  | _ + 1, _, [] => yields_fail
  | left + 1, i, e :: data => by
      refine yields_bind fun i => (mapClearLoop_yields left i data).bind fun r hr => ?_
      exact yields_pure (by simp [hr, List.replicate_succ])

theorem mapClear_sound (h : m.Sound) : (mapClear m).Yields fun r => r.1.Sound := by
  refine (mapClearLoop_yields _ _ _).bind fun r hr => yields_pure ?_
  rw [← h.length_eq, List.drop_length, List.append_nil] at hr
  constructor
  · simp [hr, h.length_eq]
  · simp only [MapMem.liveCount, hr, List.countP_replicate]
    rfl

/-! ### Runs -/

theorem MapMem.Sound.create (m : MapMem A) : (mapCreate m).Sound := ⟨rfl, rfl⟩

variable [DecidableEq A]

/-- Every call that returns leaves a sound memory. -/
theorem mapStep_sound (h : m.Sound) (rounds : Nat) (op : MapOp A) :
    (mapStep rounds m op).Yields MapMem.Sound := by
  cases op with
  | create => exact yields_pure (.create m)
  | put key value =>
      have hput : (mapPut rounds m key value).Yields fun r => r.2.Sound :=
        (mapReput_sound rounds m key value h).bind fun r hr => yields_pure hr
      exact hput.map fun r hr => hr
  | reput key value => exact (mapReput_sound rounds m key value h).map fun r hr => hr
  | remove key =>
      refine (mapRemove_yields m key).map ?_
      rintro r (rfl | ⟨e, a, he, hentry, -, rfl⟩)
      · exact h
      · exact h.removed he hentry
  | clear => exact (mapClear_sound h).map fun r hr => hr
  | contains key => exact Yields.map (P := fun _ => True) (fun _ _ => trivial) fun _ _ => h
  | get key => exact Yields.map (P := fun _ => True) (fun _ _ => trivial) fun _ _ => h
  | length => exact yields_pure h

theorem mapRun_sound (rounds : Nat) :
    ∀ (ops : List (MapOp A)) {m : MapMem A}, m.Sound → (mapRun rounds m ops).Yields MapMem.Sound
  | [], _, h => yields_pure h
  | op :: ops, _, h =>
      (mapStep_sound h rounds op).bind fun _ hm => mapRun_sound rounds ops hm

/-- The memories in which a sequence of calls can leave a new map: any keys and any items, in the map or
    not, whatever allocations fail. -/
def Reachable (m : MapMem A) : Prop :=
  ∃ rounds memory ops, (mapRun rounds (mapCreate memory) ops).res = .ok m

theorem Reachable.sound (h : Reachable m) : m.Sound := by
  obtain ⟨rounds, memory, ops, hrun⟩ := h
  exact mapRun_sound rounds ops (.create memory) m hrun

/-! ### How a put ends -/

/-- How a put of the memory `m` ends, and what the result `r` is. -/
structure PutEnds (m : MapMem A) (out : Op (Put A)) (r : Put A) : Prop where
  /-- It returns, with defined behaviour throughout. -/
  returns : out.res = .ok r
  /-- `map_rehash` is called at most once, so not by a put of its copy loop. -/
  rehash_once : out.trace.count .rehash ≤ 1
  /-- Every put of the copy loop succeeds. -/
  copies : ∀ rc, .copied rc ∈ out.trace → rc = 0
  /-- The copy loop is not left early. -/
  not_cut_off : .cutOff ∉ out.trace
  /-- `map_hash` does not run through a table without finding a slot. -/
  finds : .hash (-2) ∉ out.trace
  /-- Without success the larger table could not be allocated, and the old one is as it was. -/
  refused : r.rc ≠ 0 → .alloc false ∈ out.trace ∧ r.map.size = m.size ∧ r.map.count = m.count ∧
    r.map.data = m.data ∧ r.map.key = m.key

omit [DecidableEq A] in
/-- Quiet events tell of no rehash, no failed copy and no search in vain. -/
theorem PutEnds.of_quiet {r : Put A} (front : List MapEvent) {back : List MapEvent}
    (hfront : front.count .rehash ≤ 1 ∧ (∀ rc, .copied rc ∉ front) ∧ .cutOff ∉ front ∧
      .hash (-2) ∉ front) (hback : ∀ e ∈ back, e.Quiet) (hrc : r.rc = 0) :
    PutEnds m (after (front ++ back) (pure r)) r := by
  obtain ⟨honce, hcopied, hcut, hfinds⟩ := hfront
  have hnone : ∀ e : MapEvent, ¬ e.Quiet → e ∉ back := fun e he hmem => he (hback e hmem)
  constructor
  case returns => rfl
  case rehash_once =>
    simpa [List.count_append, List.count_eq_zero_of_not_mem (hnone .rehash id)] using honce
  case copies =>
    intro rc hmem
    rcases List.mem_append.mp (by simpa using hmem) with hmem | hmem
    · exact absurd hmem (hcopied rc)
    · exact hback _ hmem
  case not_cut_off => simpa using ⟨hcut, hnone .cutOff id⟩
  case finds => simpa using ⟨hfinds, hnone (.hash (-2)) (by simp [MapEvent.Quiet])⟩
  case refused => exact fun hne => absurd hrc hne

theorem PutOutcome.ends {key : UInt32} {value : A} {out : Op (Put A)}
    (h : PutOutcome m key value out) : ∃ r, PutEnds m out r := by
  cases h with
  | placed hroom hidx hview =>
      exact ⟨_, .of_quiet [] (by simp) (by simp [MapEvent.Quiet]) rfl⟩
  | refused hfull halloc =>
      exact
        ⟨_,
          { returns := rfl
            rehash_once := by simp
            copies := by simp
            not_cut_off := by simp
            finds := by simp
            refused := fun _ => by simp }⟩
  | grown hfull halloc hquiet hsound hsize hkey hallocs ht hroom hidx hview =>
      rw [List.append_assoc]
      refine ⟨_, .of_quiet _ (by simp) ?_ rfl⟩
      intro e he
      rcases List.mem_append.mp he with he | he
      · exact hquiet e he
      · simp [List.mem_singleton.mp he, MapEvent.Quiet]

/-- In every memory that calls can lead to, a put into a table of fewer than 2^31 - 256 slots returns after
    at most one rehash, whose copy loop runs to its end, and fails only if the allocation does. -/
theorem mapReput_ends (hreach : Reachable m) (hsize : m.size.toNat < 2 ^ 31 - 256) (rounds : Nat)
    (key : UInt32) (value : A) : ∃ r, PutEnds m (mapReput (rounds + 2) m key value) r :=
  (mapReput_outcome hreach.sound (by omega) (fun _ _ => by omega) rounds key value).ends

/-- A new map of items with the key 0, and allocations that all succeed. -/
def unused : MapMem Nat := mapCreate { count := 0, size := 0, data := [], key := fun _ => 0, allocs := [] }

/-- A new map of items that have their numbers as keys already, and allocations that all succeed. -/
def numbered : MapMem Nat := mapCreate { unused with key := UInt32.ofNat }

/-- Puts of the items 0, 1, .., n - 1, each under its number. -/
def puts (n : Nat) : List (MapOp Nat) := (List.range n).map fun a => .put (UInt32.ofNat a) a

/-- The first 256 items fill a table, and the next one makes it grow. -/
theorem mapReput_ends_full :
    ∃ m, (mapRun 2 numbered (puts 256)).res = .ok m ∧ m.count = m.size ∧ m.size = 256 ∧
      ∃ r, PutEnds m (mapReput 2 m 256 256) r := by
  have hrun : (mapRun 2 numbered (puts 256)).res.map (fun m => (m.count, m.size)) = .ok (256, 256) := by
    decide +kernel
  cases hm : (mapRun 2 numbered (puts 256)).res with
  | error e =>
      rw [hm] at hrun
      cases hrun
  | ok m =>
      rw [hm] at hrun
      obtain ⟨hcount, hsize⟩ : m.count = 256 ∧ m.size = 256 := by simpa [Except.map] using hrun
      have hsmall : m.size.toNat < 2 ^ 31 - 256 := by
        rw [hsize]
        decide
      exact ⟨m, rfl, hcount.trans hsize.symm, hsize,
        mapReput_ends ⟨2, numbered, puts 256, hm⟩ hsmall 0 256 256⟩

end Qrtr.Memory
