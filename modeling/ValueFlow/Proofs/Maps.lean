import ValueFlow.Data.SortedMap
import ValueFlow.Data.SortedSet
/-!
What maps and sets answer after entries are selected or added one after the other.
-/

namespace ValueFlow

namespace SortedMap

variable {κ ν μ : Type} [SortKey κ]

theorem get?_filterMap (m : SortedMap κ ν) (f : κ → ν → Option μ) (k : κ) :
    (m.filterMap f).get? k = (m.get? k).bind (f k) := by
  refine Option.ext fun v => ?_
  rw [get?_eq_some_iff, filterMap, List.mem_filterMap, Option.bind_eq_some_iff]
  constructor
  · rintro ⟨⟨k', a⟩, hmem, hf⟩
    obtain ⟨v', hv, he⟩ := Option.map_eq_some_iff.1 hf
    cases he
    exact ⟨a, get?_eq_some_iff.2 hmem, hv⟩
  · rintro ⟨a, ha, hv⟩
    exact ⟨(k, a), get?_eq_some_iff.1 ha, Option.map_eq_some_iff.2 ⟨v, hv, rfl⟩⟩

theorem get?_filter (m : SortedMap κ ν) (keep : κ → ν → Bool) (k : κ) :
    (m.filter keep).get? k = (m.get? k).filter (keep k) := by
  refine Option.ext fun v => ?_
  rw [get?_eq_some_iff, filter, List.mem_filter, Option.filter_eq_some_iff, get?_eq_some_iff]

theorem get?_insertWith (combine : ν → ν → ν) (m : SortedMap κ ν) (k k' : κ) (v : ν)
    [Decidable (k' = k)] : (m.insertWith combine k v).get? k' =
      if k' = k then some ((m.get? k).elim v (combine · v)) else m.get? k' := get?_alter ..

theorem nodup_keys (m : SortedMap κ ν) : m.keys.Nodup := by
  rw [keys, List.nodup_iff_pairwise_ne, List.pairwise_map]
  exact m.sorted.imp SortKey.ne_of_before

theorem mem_keys {m : SortedMap κ ν} {k : κ} : k ∈ m.keys ↔ ∃ v, m.get? k = some v := by
  simp [keys, get?_eq_some_iff]

theorem all_iff {m : SortedMap κ ν} {test : κ → ν → Bool} :
    m.all test = true ↔ ∀ k v, m.get? k = some v → test k v = true := by
  simp only [all, List.all_eq_true, Prod.forall, get?_eq_some_iff]

/-- Every entry passes a test that all entries pass. -/
theorem of_all {m : SortedMap κ ν} {test : κ → ν → Bool} (h : m.all test = true) {k : κ} {v : ν}
    (hk : m.get? k = some v) : test k v = true := all_iff.1 h k v hk

section Insertion

variable [DecidableEq κ]

/-- A value found after adding entries is one of them or was there before. -/
theorem get?_foldl_insert {l : List (κ × ν)} {m : SortedMap κ ν} {k : κ} {v : ν}
    (h : (l.foldl (fun m p => m.insert p.1 p.2) m).get? k = some v) :
    (k, v) ∈ l ∨ m.get? k = some v := by
  induction l generalizing m with
  | nil => exact .inr h
  | cons p rest ih =>
      rcases ih h with h | h
      · exact .inl (List.mem_cons_of_mem _ h)
      · rw [get?_insert] at h
        split at h
        · next hk =>
            cases h
            exact .inl (hk ▸ List.mem_cons_self)
        · exact .inr h

theorem isSome_get?_foldl_insert {l : List (κ × ν)} {m : SortedMap κ ν} {k : κ}
    (h : k ∈ l.map Prod.fst ∨ (m.get? k).isSome = true) :
    ((l.foldl (fun m p => m.insert p.1 p.2) m).get? k).isSome = true := by
  induction l generalizing m with
  | nil => exact h.resolve_left List.not_mem_nil
  | cons p rest ih =>
      refine ih ?_
      rw [get?_insert]
      split
      · exact .inr rfl
      · next hk =>
          rcases h with h | h
          · exact .inl ((List.mem_cons.1 h).resolve_left hk)
          · exact .inr h

/-- In the map of a list, an element is found by its key if no other element has that key. -/
theorem get?_ofList_map_of_mem {α : Type} {l : List α} (key : α → κ) (value : α → ν) {a : α}
    (ha : a ∈ l) (hkey : ∀ b ∈ l, key b = key a → b = a) :
    (ofList (l.map fun x => (key x, value x))).get? (key a) = some (value a) := by
  have hmem : key a ∈ (l.map fun x => (key x, value x)).map Prod.fst :=
    List.mem_map.2 ⟨_, List.mem_map_of_mem ha, rfl⟩
  have hsome := isSome_get?_foldl_insert (m := empty) (.inl hmem)
  obtain ⟨v, hv⟩ := Option.isSome_iff_exists.1 hsome
  rw [ofList, hv]
  rcases get?_foldl_insert hv with h | h
  · obtain ⟨b, hb, he⟩ := List.mem_map.1 h
    obtain ⟨hkey', rfl⟩ := Prod.mk.inj he
    rw [hkey b hb hkey']
  · cases h

/-- The map of a list in which the key determines the value. -/
theorem get?_ofList_map (keys : List κ) (f : κ → ν) (k : κ) :
    (ofList (keys.map fun x => (x, f x))).get? k = if k ∈ keys then some (f k) else none := by
  split
  · next hk => exact get?_ofList_map_of_mem id f hk fun _ _ h => h
  · next hk =>
      refine Option.eq_none_iff_forall_not_mem.2 fun v hv => hk ?_
      rcases get?_foldl_insert hv with h | h
      · obtain ⟨x, hx, he⟩ := List.mem_map.1 h
        cases he
        exact hx
      · cases h

/-- Of numbered entries with one key the last is found. -/
theorem get?_ofList_range (key : Nat → κ) (value : Nat → ν) (n : Nat) {k : κ} {v : ν} :
    (ofList ((List.range n).map fun i => (key i, value i))).get? k = some v ↔
      ∃ i < n, key i = k ∧ (∀ j < n, i < j → key j ≠ k) ∧ value i = v := by
  induction n with
  | zero =>
      constructor
      · exact fun h => nomatch h
      · rintro ⟨i, hi, -⟩
        exact absurd hi (Nat.not_lt_zero i)
  | succ n ih =>
      have hlast : ofList ((List.range (n + 1)).map fun i => (key i, value i)) =
          (ofList ((List.range n).map fun i => (key i, value i))).insert (key n) (value n) := by
        rw [List.range_succ, List.map_append, ofList, List.foldl_append]
        rfl
      rw [hlast, get?_insert]
      split
      · next hk =>
          constructor
          · intro h
            refine ⟨n, Nat.lt_succ_self n, hk.symm, fun j hj hlt => ?_, Option.some.inj h⟩
            exact absurd (Nat.lt_succ_iff.1 hj) (Nat.not_le.2 hlt)
          · rintro ⟨i, hi, -, hafter, rfl⟩
            rcases Nat.lt_succ_iff_lt_or_eq.1 hi with hlt | rfl
            · exact absurd hk.symm (hafter n (Nat.lt_succ_self n) hlt)
            · rfl
      · next hk =>
          rw [ih]
          constructor
          · rintro ⟨i, hi, hkey, hafter, hv⟩
            refine ⟨i, Nat.lt_succ_of_lt hi, hkey, fun j hj hlt => ?_, hv⟩
            rcases Nat.lt_succ_iff_lt_or_eq.1 hj with hj | rfl
            · exact hafter j hj hlt
            · exact fun h => hk h.symm
          · rintro ⟨i, hi, hkey, hafter, hv⟩
            rcases Nat.lt_succ_iff_lt_or_eq.1 hi with hlt | rfl
            · exact ⟨i, hlt, hkey, fun j hj => hafter j (Nat.lt_succ_of_lt hj), hv⟩
            · exact absurd hkey.symm hk

section Combination

variable {combine : ν → ν → ν} {r : ν → ν → Prop} (refl : ∀ v, r v v)
  (trans : ∀ {a b c}, r a b → r b c → r a c) (left : ∀ a b, r a (combine a b))
  (right : ∀ a b, r b (combine a b))
include refl left right

theorem exists_get?_insertWith {m : SortedMap κ ν} {k k' : κ} {v v' : ν}
    (h : m.get? k = some v ∨ (k, v) = (k', v')) :
    ∃ u, (m.insertWith combine k' v').get? k = some u ∧ r v u := by
  rw [get?_insertWith]
  split
  · next hk =>
      subst hk
      cases hm : m.get? k with
      | none =>
          rw [hm] at h
          rcases h with h | h
          · cases h
          · cases h
            exact ⟨v, rfl, refl v⟩
      | some w =>
          refine ⟨combine w v', rfl, ?_⟩
          rw [hm] at h
          rcases h with h | h
          · cases h
            exact left v v'
          · cases h
            exact right w v
  · next hk =>
      rcases h with h | h
      · exact ⟨v, h, refl v⟩
      · cases h
        exact absurd rfl hk

include trans

/-- Combining entries one after the other ends above each of them. -/
theorem exists_get?_foldl_insertWith {l : List (κ × ν)} {m : SortedMap κ ν} {k : κ} {v : ν}
    (h : m.get? k = some v ∨ (k, v) ∈ l) :
    ∃ u, (l.foldl (fun m p => m.insertWith combine p.1 p.2) m).get? k = some u ∧ r v u := by
  induction l generalizing m v with
  | nil => exact ⟨v, h.resolve_right List.not_mem_nil, refl v⟩
  | cons p rest ih =>
      have later : m.get? k = some v ∨ (k, v) = p → ∃ u,
          ((p :: rest).foldl (fun m p => m.insertWith combine p.1 p.2) m).get? k = some u ∧
            r v u := by
        intro hv
        obtain ⟨u, hu, hle⟩ := exists_get?_insertWith refl left right hv
        obtain ⟨w, hw, hle'⟩ := ih (.inl hu)
        exact ⟨w, hw, trans hle hle'⟩
      rcases h with h | h
      · exact later (.inl h)
      · rcases List.mem_cons.1 h with h | h
        · exact later (.inr h)
        · exact ih (.inr h)

end Combination

end Insertion

end SortedMap

namespace SortedSet

variable {α : Type} [SortKey α] {s : SortedSet α} {a b : α}

theorem contains_eq_false_iff : s.contains a = false ↔ a ∉ s := by
  rw [← contains_iff, Bool.not_eq_true]

theorem contains_insert [DecidableEq α] :
    (s.insert a).contains b = (decide (b = a) || s.contains b) := by
  rw [Bool.eq_iff_iff, contains_iff, mem_insert, Bool.or_eq_true, decide_eq_true_eq, contains_iff]

@[simp] theorem mem_erase : b ∈ s.erase a ↔ b ≠ a ∧ b ∈ s := by
  rw [erase, mem_filter, and_comm, Bool.or_eq_true]
  refine and_congr_left fun _ => ⟨?_, fun hne => ?_⟩
  · rintro (h | h)
    · exact (SortKey.ne_of_before h).symm
    · exact SortKey.ne_of_before h
  · cases hab : SortKey.before a b with
    | true => exact .inl rfl
    | false => exact .inr (Bool.of_not_eq_false fun hba =>
        hne (SortKey.before_connected _ _ hab hba).symm)

theorem contains_erase [DecidableEq α] :
    (s.erase a).contains b = (decide (b ≠ a) && s.contains b) := by
  rw [Bool.eq_iff_iff, contains_iff, mem_erase, Bool.and_eq_true, decide_eq_true_eq, contains_iff]

@[simp] theorem mem_singleton : b ∈ singleton a ↔ b = a := List.mem_singleton

theorem nodup_toList (s : SortedSet α) : s.toList.Nodup := s.sorted.imp SortKey.ne_of_before

theorem single?_eq_some_iff : s.single? = some a ↔ s.toList = [a] := by
  unfold single?
  split
  · next h => simp [h]
  · next h =>
      refine Iff.intro (fun h' => ?_) fun h' => absurd h' (h a)
      cases h'

end SortedSet

/-- A pass over a list without elements of the key leaves what is observed. -/
theorem observe_foldl_of_forall {σ τ β : Type} (observe : σ → τ) {step : σ → β → σ} {l : List β}
    (hskip : ∀ s, ∀ b ∈ l, observe (step s b) = observe s) (s : σ) :
    observe (l.foldl step s) = observe s :=
  List.foldlRecOn (motive := fun t => observe t = observe s) l step rfl
    fun t ht b hb => (hskip t b hb).trans ht

/-- A pass over a list in which only elements of one key change what is observed, and no two
elements have the same key. -/
theorem observe_foldl_of_mem {σ τ β κ : Type} (observe : σ → τ) {step : σ → β → σ} (key : β → κ)
    (effect : τ → τ) {k : κ} (hskip : ∀ s b, key b ≠ k → observe (step s b) = observe s) {b : β}
    (heffect : ∀ s, observe (step s b) = effect (observe s)) (hb : key b = k) {l : List β}
    (hmem : b ∈ l) (hnodup : (l.map key).Nodup) (s : σ) :
    observe (l.foldl step s) = effect (observe s) := by
  induction l generalizing s with
  | nil => cases hmem
  | cons a rest ih =>
      rw [List.map_cons, List.nodup_cons] at hnodup
      rcases List.mem_cons.1 hmem with rfl | hrest
      · have hothers : ∀ t, ∀ c ∈ rest, observe (step t c) = observe t := by
          intro t c hc
          refine hskip t c fun hk => hnodup.1 ?_
          rw [hb, ← hk]
          exact List.mem_map_of_mem hc
        rw [List.foldl_cons, observe_foldl_of_forall observe hothers, heffect]
      · have hne : key a ≠ k := fun hk => hnodup.1 (hk ▸ hb ▸ List.mem_map_of_mem hrest)
        rw [List.foldl_cons, ih hrest hnodup.2, hskip s a hne]

end ValueFlow
