import FormatFuzz.Keyed
import Mathlib.Data.List.Basic
import Mathlib.Data.List.Nodup

/-!
# Mappings with free keys

The distinct members of a list stand in the order in which they first appear in it. What is found
under a key of a mapping, and what setting one key after the other makes.
-/

set_option autoImplicit false

namespace FormatFuzz

/-- The members of a list, each once, in the order in which they first appear in it. -/
structure FirstOccurrences {α : Type} [BEq α] (xs ys : List α) : Prop where
  nodup : ys.Nodup
  mem (a : α) : a ∈ ys ↔ a ∈ xs
  ordered : ys.Pairwise fun a b => xs.idxOf a < xs.idxOf b

theorem ordered_distinctOnto {α : Type} [DecidableEq α] (done seen xs : List α)
    (hmem : ∀ a, a ∈ seen ↔ a ∈ done)
    (h : seen.Pairwise fun a b => (done ++ xs).idxOf a < (done ++ xs).idxOf b) :
    (distinctOnto seen xs).Pairwise fun a b => (done ++ xs).idxOf a < (done ++ xs).idxOf b := by
  induction xs generalizing done seen with
  | nil => exact h
  | cons x xs ih =>
    have hassoc : done ++ x :: xs = done ++ [x] ++ xs := by simp
    rw [distinctOnto, hassoc]
    rw [hassoc] at h
    split
    next hx =>
      refine ih (done ++ [x]) seen (fun a => ?_) h
      simp only [hmem, List.mem_append, List.mem_singleton]
      exact ⟨.inl, fun ha => ha.elim id fun ha => ha ▸ (hmem x).mp hx⟩
    next hx =>
      refine ih (done ++ [x]) (seen ++ [x]) (fun a => by simp [hmem]) ?_
      rw [List.pairwise_append]
      refine ⟨h, List.pairwise_singleton _ _, fun a ha b hb => ?_⟩
      obtain rfl := List.mem_singleton.mp hb
      have hxd : b ∉ done := fun hd => hx ((hmem b).mpr hd)
      rw [List.append_assoc, List.idxOf_append_of_mem ((hmem a).mp ha),
        List.idxOf_append_of_notMem hxd]
      have := List.idxOf_lt_length_of_mem ((hmem a).mp ha)
      omega

theorem firstOccurrences_distinct {α : Type} [DecidableEq α] (xs : List α) :
    FirstOccurrences xs (distinct xs) where
  nodup := nodup_distinct xs
  mem _ := mem_distinct
  ordered := ordered_distinctOnto [] [] xs (by simp) .nil

end FormatFuzz

namespace FormatFuzz.Keyed

variable {α β : Type}

theorem get?_isSome (m : Keyed α) (key : String) :
    (get? m key).isSome ↔ key ∈ keys m := by
  simp [get?, keys]

theorem get?_of_mem (m : Keyed α) (key : String) (a : α)
    (hn : (keys m).Nodup) (h : (key, a) ∈ m) : get? m key = some a := by
  induction m with
  | nil => simp at h
  | cons e rest ih =>
    obtain ⟨k, b⟩ := e
    simp only [keys, List.map_cons, List.nodup_cons] at hn
    rcases List.mem_cons.mp h with h | h
    · cases h
      simp [get?]
    · have hk : k ≠ key := by
        rintro rfl
        exact hn.1 (List.mem_map.mpr ⟨_, h, rfl⟩)
      have := ih hn.2 h
      simpa [get?, hk] using this

theorem mem_of_get? (m : Keyed α) (key : String) (a : α)
    (h : get? m key = some a) : (key, a) ∈ m := by
  simp only [get?, Option.map_eq_some_iff] at h
  obtain ⟨e, he, rfl⟩ := h
  have hk : e.1 = key := by simpa using List.find?_some he
  exact hk ▸ List.mem_of_find?_eq_some he

def Each (P : α → Prop) (m : Keyed α) : Prop :=
  (keys m).Nodup ∧ ∀ e ∈ m, P e.2

theorem each_nil (P : α → Prop) : Each P ([] : Keyed α) := ⟨List.nodup_nil, by simp⟩

theorem nodup_set (m : Keyed α) (key : String) (v : α) (h : (keys m).Nodup) :
    (keys (set m key v)).Nodup := by
  rw [keys_set]
  split
  · exact h
  next hk =>
    refine List.nodup_append.mpr ⟨h, List.nodup_singleton _, ?_⟩
    rintro a ha b hb rfl
    exact hk (List.mem_singleton.mp hb ▸ ha)

theorem mem_set (m : Keyed α) (key : String) (v : α) (e : String × α) (h : e ∈ set m key v) :
    e = (key, v) ∨ e ∈ m := by
  induction m with
  | nil => exact .inl (List.mem_singleton.mp h)
  | cons d rest ih =>
    obtain ⟨k, w⟩ := d
    rw [set] at h
    split at h
    next hk =>
      subst hk
      exact (List.mem_cons.mp h).imp id (List.mem_cons_of_mem _)
    · rcases List.mem_cons.mp h with rfl | h
      · exact .inr List.mem_cons_self
      · exact (ih h).imp id (List.mem_cons_of_mem _)

theorem each_set (P : α → Prop) (m : Keyed α) (key : String) (v : α) (hm : Each P m) (hv : P v) :
    Each P (set m key v) := by
  refine ⟨nodup_set m key v hm.1, fun e he => ?_⟩
  rcases mem_set m key v e he with rfl | he
  · exact hv
  · exact hm.2 e he

theorem nodup_ofPairs (ps : List (String × α)) : (keys (ofPairs ps)).Nodup := by
  unfold ofPairs
  generalize hm : ([] : Keyed α) = m
  have hn : (keys m).Nodup := hm ▸ List.nodup_nil
  clear hm
  induction ps generalizing m with
  | nil => exact hn
  | cons p ps ih => exact ih _ (nodup_set m p.1 p.2 hn)

theorem mem_ofPairs (ps : List (String × α)) (e : String × α) (h : e ∈ ofPairs ps) : e ∈ ps := by
  have step (ps : List (String × α)) (m : Keyed α)
      (h : e ∈ ps.foldl (fun m p => set m p.1 p.2) m) : e ∈ m ∨ e ∈ ps := by
    induction ps generalizing m with
    | nil => exact .inl h
    | cons p ps ih =>
      rcases ih _ h with h | h
      · rcases mem_set m p.1 p.2 e h with rfl | h
        · exact .inr List.mem_cons_self
        · exact .inl h
      · exact .inr (List.mem_cons_of_mem p h)
  exact (step ps [] h).resolve_left List.not_mem_nil

theorem keys_map (f : α → β) (es : Keyed α) :
    keys (es.map fun e => (e.1, f e.2)) = keys es := by
  simp [keys]

theorem set_of_not_mem (m : Keyed α) (key : String) (v : α) (h : key ∉ keys m) :
    set m key v = m ++ [(key, v)] := by
  induction m with
  | nil => rfl
  | cons e rest ih =>
    obtain ⟨k, w⟩ := e
    have hk : k ≠ key := fun hk => h (by simp [keys, hk])
    rw [set, if_neg hk, ih fun hm => h (List.mem_cons_of_mem _ hm), List.cons_append]

theorem foldl_set (f : α → β) (es : Keyed α) (acc : Keyed β) (hn : (keys es).Nodup)
    (hd : ∀ k ∈ keys es, k ∉ keys acc) :
    es.foldl (fun m e => set m e.1 (f e.2)) acc = acc ++ es.map fun e => (e.1, f e.2) := by
  induction es generalizing acc with
  | nil => simp
  | cons e es ih =>
    obtain ⟨hne, hn⟩ := List.nodup_cons.mp hn
    have hset := set_of_not_mem acc e.1 (f e.2) (hd e.1 (by simp [keys]))
    rw [List.foldl_cons, hset, ih _ hn, List.map_cons, List.append_assoc]
    · rfl
    · intro k hk hm
      rw [keys, List.map_append, List.mem_append] at hm
      rcases hm with hm | hm
      · exact hd k (List.mem_cons_of_mem _ hk) hm
      · obtain rfl : k = e.1 := by simpa using hm
        exact hne hk

end FormatFuzz.Keyed
