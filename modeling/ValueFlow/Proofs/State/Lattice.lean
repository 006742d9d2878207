import ValueFlow.Proofs.Heap.Widening
import ValueFlow.Proofs.State.Environments
/-!
The laws of joins and widenings of heaps and of states.

Among heaps with canonical contents, and among states of such heaps and of environments built by
the operations on environments, the order is a preorder, the join is its least upper bound and does
not depend on order or grouping, and widening is an upper bound whose repeated use settles. A state
with an unreachable half counts as the unreachable state.
-/

namespace ValueFlow

namespace AbstractDomain

variable {α : Type} [AbstractDomain α]

/-- The laws of the order, the join and the widening among some members of a domain; `normal` is
what a member counts as. -/
structure Laws (P : α → Prop) (normal : α → α) : Prop where
  leq_refl : ∀ {a}, P a → leq a a = true
  leq_trans : ∀ {a b c}, P a → P b → P c → leq a b = true → leq b c = true → leq a c = true
  join_comm : ∀ {a b}, P a → P b → join a b = join b a
  join_assoc : ∀ {a b c}, P a → P b → P c → join (join a b) c = join a (join b c)
  join_self : ∀ {a}, P a → join a a = normal a
  leq_join : ∀ {a b}, P a → P b → leq a (join a b) = true ∧ leq b (join a b) = true
  join_leq : ∀ {a b c}, P a → P b → P c → leq a c = true → leq b c = true →
    leq (join a b) c = true
  leq_widen : ∀ {a b}, P a → P b → ∀ n,
    leq a (widen a b n) = true ∧ leq b (widen a b n) = true

/-- Whether every sequence of widenings among some members of a domain is constant from some point
on. -/
def WideningStabilizes (P : α → Prop) : Prop :=
  ∀ x y : Nat → α, P (x 0) → (∀ k, P (y k)) → (∀ k, x (k + 1) = widen (x k) (y k) k) → Stabilizes x

end AbstractDomain

open AbstractDomain (Laws WideningStabilizes)

theorem Heap.laws : Laws Heap.Proper id where
  leq_refl _ := leq_refl _
  leq_trans _ _ _ := leq_trans
  join_comm ha hb := ha.join_comm hb
  join_assoc ha hb hc := ha.join_assoc hb hc
  join_self _ := join_self _
  leq_join _ _ := leq_join _ _
  join_leq _ _ _ := join_leq
  leq_widen _ _ := leq_widen _ _

namespace ProgramState

variable {s t u : ProgramState} {objects : Finset Nat} {fields : Finset HeapField}

/-- Whether the halves of a state are such that the laws hold. -/
structure Proper (s : ProgramState) : Prop where
  env : s.env.Built
  heap : s.heap.Proper

theorem normalize_of_isReachable (h : s.isReachable = true) : s.normalize = s := if_pos h

theorem normalize_of_not_isReachable (h : s.isReachable = false) : s.normalize = bottom := by
  rw [normalize, h]
  rfl

theorem proper_bottom : bottom.Proper := ⟨.bottom, .inr rfl, Heap.canonical_bottom⟩

theorem Proper.normalize (hs : s.Proper) : s.normalize.Proper := by
  unfold ProgramState.normalize
  split
  · exact hs
  · exact proper_bottom

theorem leq_iff : s.leq t = true ↔ (s.isReachable = true →
    t.isReachable = true ∧ s.env.leq t.env = true ∧ s.heap.leq t.heap = true) := by
  cases hs : s.isReachable <;> simp [leq, hs, and_assoc]

theorem leq_of_not_isReachable (hs : s.isReachable = false) (t : ProgramState) :
    s.leq t = true := leq_iff.2 fun h => absurd (hs.symm.trans h) Bool.false_ne_true

theorem leq_trans (hst : s.leq t = true) (htu : t.leq u = true) : s.leq u = true := by
  refine leq_iff.2 fun hs => ?_
  obtain ⟨ht, henv, hheap⟩ := leq_iff.1 hst hs
  obtain ⟨hu, henv', hheap'⟩ := leq_iff.1 htu ht
  exact ⟨hu, Environment.leq_trans henv henv', Heap.leq_trans hheap hheap'⟩

theorem leq_normalize (s : ProgramState) : s.leq s.normalize = true := by
  cases hs : s.isReachable with
  | false => exact leq_of_not_isReachable hs _
  | true =>
      rw [normalize_of_isReachable hs]
      exact leq_refl s

section Join

theorem join_of_unreachable_left (hs : s.isReachable = false) : s.join t = t.normalize := by
  rw [join, hs]
  rfl

theorem join_of_unreachable_right (ht : t.isReachable = false) : s.join t = s.normalize := by
  cases hs : s.isReachable with
  | false =>
      rw [join_of_unreachable_left hs, normalize_of_not_isReachable hs,
        normalize_of_not_isReachable ht]
  | true =>
      rw [join, hs, ht, normalize_of_isReachable hs]
      rfl

theorem join_eq (hs : s.isReachable = true) (ht : t.isReachable = true) :
    s.join t = ⟨s.env.join t.env, s.heap.join t.heap⟩ := by
  rw [join, hs, ht]
  rfl

theorem isReachable_join (hs : s.isReachable = true) (ht : t.isReachable = true) :
    (s.join t).isReachable = true := by
  obtain ⟨henv, hheap⟩ := isReachable_iff.1 hs
  obtain ⟨henv', hheap'⟩ := isReachable_iff.1 ht
  rw [join_eq hs ht]
  refine isReachable_iff.2 ⟨?_, Heap.reachable_mergeBy _ hheap hheap'⟩
  dsimp only
  rw [Environment.join_eq henv henv']

theorem normalize_normalize (s : ProgramState) : s.normalize.normalize = s.normalize := by
  cases hs : s.isReachable with
  | false => rw [normalize_of_not_isReachable hs]; rfl
  | true => rw [normalize_of_isReachable hs, normalize_of_isReachable hs]

theorem normalize_join (s t : ProgramState) : (s.join t).normalize = s.join t := by
  cases hs : s.isReachable with
  | false => rw [join_of_unreachable_left hs, normalize_normalize]
  | true =>
      cases ht : t.isReachable with
      | false => rw [join_of_unreachable_right ht, normalize_normalize]
      | true => exact normalize_of_isReachable (isReachable_join hs ht)

theorem join_normalize (s t : ProgramState) :
    s.normalize.join t = s.join t ∧ s.join t.normalize = s.join t := by
  constructor
  · cases hs : s.isReachable with
    | false => rw [normalize_of_not_isReachable hs, join_of_unreachable_left hs]; rfl
    | true => rw [normalize_of_isReachable hs]
  · cases ht : t.isReachable with
    | false =>
        rw [normalize_of_not_isReachable ht, join_of_unreachable_right ht,
          join_of_unreachable_right rfl]
    | true => rw [normalize_of_isReachable ht]

theorem Proper.join_comm (hs : s.Proper) (ht : t.Proper) : s.join t = t.join s := by
  cases hrs : s.isReachable with
  | false => rw [join_of_unreachable_left hrs, join_of_unreachable_right hrs]
  | true =>
      cases hrt : t.isReachable with
      | false => rw [join_of_unreachable_left hrt, join_of_unreachable_right hrt]
      | true =>
          rw [join_eq hrs hrt, join_eq hrt hrs, hs.heap.join_comm ht.heap,
            hs.env.tidy.join_comm ht.env.tidy (isReachable_iff.1 hrs).1 (isReachable_iff.1 hrt).1]

theorem Proper.join_assoc (hs : s.Proper) (ht : t.Proper) (hu : u.Proper) :
    (s.join t).join u = s.join (t.join u) := by
  cases hrs : s.isReachable with
  | false =>
      rw [join_of_unreachable_left hrs, join_of_unreachable_left hrs, (join_normalize t u).1,
        normalize_join]
  | true =>
      cases hrt : t.isReachable with
      | false =>
          rw [join_of_unreachable_right hrt, join_of_unreachable_left hrt, (join_normalize s u).1,
            (join_normalize s u).2]
      | true =>
          cases hru : u.isReachable with
          | false =>
              rw [join_of_unreachable_right hru, join_of_unreachable_right hru, normalize_join,
                (join_normalize s t).2]
          | true =>
              rw [join_eq (isReachable_join hrs hrt) hru, join_eq hrs (isReachable_join hrt hru),
                join_eq hrs hrt, join_eq hrt hru]
              dsimp only
              rw [hs.heap.join_assoc ht.heap hu.heap, hs.env.tidy.join_assoc ht.env.tidy hu.env.tidy
                (isReachable_iff.1 hrs).1 (isReachable_iff.1 hrt).1 (isReachable_iff.1 hru).1]

theorem Proper.join_self (hs : s.Proper) : s.join s = s.normalize := by
  cases hrs : s.isReachable with
  | false => exact join_of_unreachable_left hrs
  | true =>
      rw [join_eq hrs hrs, hs.env.tidy.join_self, Heap.join_self, normalize_of_isReachable hrs]

theorem leq_join (s t : ProgramState) : s.leq (s.join t) = true ∧ t.leq (s.join t) = true := by
  cases hrs : s.isReachable with
  | false =>
      rw [join_of_unreachable_left hrs]
      exact ⟨leq_of_not_isReachable hrs _, leq_normalize t⟩
  | true =>
      cases hrt : t.isReachable with
      | false =>
          rw [join_of_unreachable_right hrt]
          exact ⟨leq_normalize s, leq_of_not_isReachable hrt _⟩
      | true =>
          have henv := Environment.leq_join (isReachable_iff.1 hrs).1 (isReachable_iff.1 hrt).1
          have hheap := Heap.leq_join s.heap t.heap
          have hreach := isReachable_join hrs hrt
          rw [join_eq hrs hrt] at hreach ⊢
          exact ⟨leq_iff.2 fun _ => ⟨hreach, henv.1, hheap.1⟩,
            leq_iff.2 fun _ => ⟨hreach, henv.2, hheap.2⟩⟩

theorem normalize_leq (h : s.leq u = true) : s.normalize.leq u = true := by
  cases hrs : s.isReachable with
  | false =>
      rw [normalize_of_not_isReachable hrs]
      exact bottom_leq u
  | true => rwa [normalize_of_isReachable hrs]

theorem join_leq (hsu : s.leq u = true) (htu : t.leq u = true) : (s.join t).leq u = true := by
  cases hrs : s.isReachable with
  | false =>
      rw [join_of_unreachable_left hrs]
      exact normalize_leq htu
  | true =>
      cases hrt : t.isReachable with
      | false =>
          rw [join_of_unreachable_right hrt]
          exact normalize_leq hsu
      | true =>
          obtain ⟨hru, henv, hheap⟩ := leq_iff.1 hsu hrs
          obtain ⟨-, henv', hheap'⟩ := leq_iff.1 htu hrt
          rw [join_eq hrs hrt]
          exact leq_iff.2 fun _ => ⟨hru, Environment.join_leq (isReachable_iff.1 hrs).1
            (isReachable_iff.1 hrt).1 henv henv', Heap.join_leq hheap hheap'⟩

end Join

section Widening

theorem widen_of_unreachable_left (hs : s.isReachable = false) (n : Nat) :
    s.widen t n = t.normalize := by
  rw [widen, hs]
  rfl

theorem widen_of_unreachable_right (hs : s.isReachable = true) (ht : t.isReachable = false)
    (n : Nat) : s.widen t n = s := by
  rw [widen, hs, ht]
  rfl

theorem widen_eq (hs : s.isReachable = true) (ht : t.isReachable = true) (n : Nat) :
    s.widen t n = ⟨s.env.widen t.env n, s.heap.widen t.heap n⟩ := by
  rw [widen, hs, ht]
  rfl

theorem isReachable_widen (hs : s.isReachable = true) (t : ProgramState) (n : Nat) :
    (s.widen t n).isReachable = true := by
  cases ht : t.isReachable with
  | false => rw [widen_of_unreachable_right hs ht, hs]
  | true =>
      obtain ⟨henv, hheap⟩ := isReachable_iff.1 hs
      rw [widen_eq hs ht]
      exact isReachable_iff.2 ⟨Environment.reachable_widen henv _ _,
        Heap.reachable_mergeBy _ hheap (isReachable_iff.1 ht).2⟩

theorem leq_widen (s t : ProgramState) (n : Nat) :
    s.leq (s.widen t n) = true ∧ t.leq (s.widen t n) = true := by
  cases hrs : s.isReachable with
  | false =>
      rw [widen_of_unreachable_left hrs]
      exact ⟨leq_of_not_isReachable hrs _, leq_normalize t⟩
  | true =>
      cases hrt : t.isReachable with
      | false =>
          rw [widen_of_unreachable_right hrs hrt]
          exact ⟨leq_refl s, leq_of_not_isReachable hrt _⟩
      | true =>
          have henv := Environment.leq_widen (isReachable_iff.1 hrs).1 (isReachable_iff.1 hrt).1 n
          have hheap := Heap.leq_widen s.heap t.heap n
          have hreach := isReachable_widen hrs t n
          rw [widen_eq hrs hrt] at hreach ⊢
          exact ⟨leq_iff.2 fun _ => ⟨hreach, henv.1, hheap.1⟩,
            leq_iff.2 fun _ => ⟨hreach, henv.2, hheap.2⟩⟩

theorem Proper.widen (hs : s.Proper) (ht : t.Proper) (n : Nat) : (s.widen t n).Proper := by
  cases hrs : s.isReachable with
  | false =>
      rw [widen_of_unreachable_left hrs]
      exact ht.normalize
  | true =>
      cases hrt : t.isReachable with
      | false =>
          rw [widen_of_unreachable_right hrs hrt]
          exact hs
      | true =>
          rw [widen_eq hrs hrt]
          exact ⟨hs.env.widen ht.env n, hs.heap.widen ht.heap n⟩

theorem within_normalize (hs : s.heap.Within objects fields) :
    s.normalize.heap.Within objects fields := by
  unfold normalize
  split
  · exact hs
  · exact Heap.within_bottom

theorem within_widen (hs : s.heap.Within objects fields) (ht : t.heap.Within objects fields)
    (n : Nat) : (s.widen t n).heap.Within objects fields := by
  cases hrs : s.isReachable with
  | false =>
      rw [widen_of_unreachable_left hrs]
      exact within_normalize ht
  | true =>
      cases hrt : t.isReachable with
      | false =>
          rw [widen_of_unreachable_right hrs hrt]
          exact hs
      | true =>
          rw [widen_eq hrs hrt]
          exact hs.mergeBy ht

/-- From a reachable state both halves are widened, by the halves of what a state counts as. -/
theorem widen_halves (hs : s.isReachable = true) (t : ProgramState) (n : Nat) :
    (s.widen t n).env = s.env.widen t.normalize.env n ∧
      (s.widen t n).heap = s.heap.widen t.normalize.heap n := by
  obtain ⟨henv, hheap⟩ := isReachable_iff.1 hs
  cases ht : t.isReachable with
  | false =>
      rw [widen_of_unreachable_right hs ht, normalize_of_not_isReachable ht]
      exact ⟨(Environment.widen_of_unreachable_right henv rfl n).symm,
        (Heap.widen_of_unreachable_right hheap rfl).symm⟩
  | true =>
      rw [widen_eq hs ht, normalize_of_isReachable ht]
      exact ⟨rfl, rfl⟩

section Sequence

variable {x y : Nat → ProgramState} {n : Nat → Nat}
  (hstep : ∀ k, x (k + 1) = (x k).widen (y k) (n k))
include hstep

theorem proper_of_widens (h0 : (x 0).Proper) (hy : ∀ k, (y k).Proper) (k : Nat) :
    (x k).Proper := by
  induction k with
  | zero => exact h0
  | succ k ih =>
      rw [hstep]
      exact ih.widen (hy k) _

theorem within_of_widens (h0 : (x 0).heap.Within objects fields)
    (hy : ∀ k, (y k).heap.Within objects fields) (k : Nat) :
    (x k).heap.Within objects fields := by
  induction k with
  | zero => exact h0
  | succ k ih =>
      rw [hstep]
      exact within_widen ih (hy k) _

/-- Reachable states settle as their halves do. -/
theorem stabilizes_of_isReachable (hr : ∀ k, (x k).isReachable = true) (h0 : (x 0).Proper)
    (hy : ∀ k, (y k).Proper) (hwithin : (x 0).heap.Within objects fields)
    (hwithin' : ∀ k, (y k).heap.Within objects fields) : Stabilizes x := by
  have henv : Stabilizes fun k => (x k).env :=
    Environment.stabilizes_of_widens (y := fun k => (y k).normalize.env)
      (fun k => hstep k ▸ (widen_halves (hr k) (y k) (n k)).1) h0.env.tidy
      fun k => (hy k).normalize.env.tidy
  have hheap : Stabilizes fun k => (x k).heap :=
    Heap.stabilizes_of_widens (y := fun k => (y k).normalize.heap)
      (fun k => hstep k ▸ (widen_halves (hr k) (y k) (n k)).2) h0.heap
      (fun k => (hy k).normalize.heap) hwithin fun k => within_normalize (hwithin' k)
  refine henv.of_parts hheap fun j k henv hheap => ?_
  cases hj : x j
  cases hk : x k
  rw [hj, hk] at henv hheap
  cases henv
  cases hheap
  rfl

theorem stabilizes_of_widens (h0 : (x 0).Proper) (hy : ∀ k, (y k).Proper)
    (hwithin : (x 0).heap.Within objects fields)
    (hwithin' : ∀ k, (y k).heap.Within objects fields) : Stabilizes x := by
  refine stabilizes_of_reached isReachable bottom (fun k hk => ?_) (fun first hr => ?_)
    fun k hk hk' => ?_
  · rw [hstep]
    exact isReachable_widen hk _ _
  · exact stabilizes_of_isReachable (x := fun k => x (first + k)) (fun k => hstep (first + k)) hr
      (proper_of_widens hstep h0 hy _) (fun k => hy _) (within_of_widens hstep hwithin hwithin' _)
      fun k => hwithin' _
  · -- after one step an unreachable state is the one unreachable state
    rw [hstep, widen_of_unreachable_left hk] at hk' ⊢
    rw [← normalize_normalize, normalize_of_not_isReachable hk']

end Sequence

end Widening

theorem laws : Laws ProgramState.Proper normalize where
  leq_refl _ := leq_refl _
  leq_trans _ _ _ := leq_trans
  join_comm hs ht := hs.join_comm ht
  join_assoc hs ht hu := hs.join_assoc ht hu
  join_self hs := hs.join_self
  leq_join _ _ := leq_join _ _
  join_leq _ _ _ := join_leq
  leq_widen _ _ := leq_widen _ _

end ProgramState

/-- Heaps and states obey the laws of joins and widenings, and over finitely many objects and
fields widening them settles. -/
theorem laws_and_widening_stabilizes (objects : Finset Nat) (fields : Finset HeapField) :
    (Laws Heap.Proper id ∧ WideningStabilizes fun h : Heap => h.Proper ∧ h.Within objects fields) ∧
      Laws ProgramState.Proper ProgramState.normalize ∧
      WideningStabilizes fun s : ProgramState => s.Proper ∧ s.heap.Within objects fields := by
  refine ⟨⟨Heap.laws, fun x y h0 hy hstep => ?_⟩, ProgramState.laws, fun x y h0 hy hstep => ?_⟩
  · exact Heap.stabilizes_of_widens hstep h0.1 (fun k => (hy k).1) h0.2 fun k => (hy k).2
  · exact ProgramState.stabilizes_of_widens hstep h0.1 (fun k => (hy k).1) h0.2 fun k => (hy k).2

/-- The heap with one object whose one field holds a number. -/
def Heap.holding (n : Int64) : Heap :=
  (top.allocate 1).setField (.singleton 1) .length (.primitive (.constant n))

theorem Heap.proper_holding (n : Int64) : (holding n).Proper :=
  ⟨.inl (reachable_setField _ _ _ _), (canonical_top.allocate 1).setField _ _
    (Value.canonical_constant n)⟩

theorem Heap.within_holding (n : Int64) : (holding n).Within {1} {.length} := by
  have hkey {key : FieldKey} (h : key = (1, .length)) :
      key ∈ ({1} : Finset Nat) ×ˢ ({.length} : Finset HeapField) := by simp [h]
  have hget {m : SortedMap FieldKey HeapValue} {v : HeapValue}
      (hm : m = (∅ : SortedMap FieldKey HeapValue).insert (1, .length) v) (key : FieldKey)
      (w : HeapValue) (h : m.get? key = some w) : key = (1, .length) := by
    by_contra hne
    rw [hm, SortedMap.get?_insert, if_neg hne] at h
    cases h
  constructor
  · exact fun key v h => hkey (hget rfl key v h)
  · exact fun o ho => Finset.mem_singleton.2 (List.mem_singleton.1 ho)
  · exact fun o ho => Finset.mem_singleton.2 (List.mem_singleton.1 ho)
  · exact fun o ho => nomatch ho
  · exact fun key hkey' => hkey (List.mem_singleton.1 hkey')
  · exact fun key v h => hkey (hget rfl key v h)
  · exact fun o ho => nomatch ho

/-- Different numbers one after the other, each widening what was there before. -/
def Heap.rising : Nat → Heap
  | 0 => holding 0
  | k + 1 => (rising k).widen (holding (Int64.ofNat k)) k

theorem stabilizes_rising : Heap.holding 0 ≠ .holding 1 ∧
    (Heap.holding 0).join (.holding 1) = (Heap.holding 1).join (.holding 0) ∧
    Stabilizes Heap.rising := by
  have hlaws := laws_and_widening_stabilizes {1} {.length}
  have hmember (n : Int64) := And.intro (Heap.proper_holding n) (Heap.within_holding n)
  refine ⟨by decide, hlaws.1.1.join_comm (Heap.proper_holding 0) (Heap.proper_holding 1), ?_⟩
  exact hlaws.1.2 Heap.rising (fun k => .holding (Int64.ofNat k)) (hmember 0) (fun k => hmember _)
    fun k => rfl

end ValueFlow
