/-!
# Mappings in declaration order

An association list in which a key keeps the place of its first appearance and the value of its
last, and the distinct members of a list in the order in which they first appear.
-/

set_option autoImplicit false

namespace FormatFuzz

variable {α : Type} [DecidableEq α]

/-- Appends to `seen` the members of a list that are not there yet, one after the other. -/
def distinctOnto (seen : List α) : List α → List α
  | [] => seen
  | x :: xs => distinctOnto (if x ∈ seen then seen else seen ++ [x]) xs

def distinct (xs : List α) : List α :=
  distinctOnto [] xs

theorem mem_distinctOnto {seen xs : List α} {a : α} :
    a ∈ distinctOnto seen xs ↔ a ∈ seen ∨ a ∈ xs := by
  induction xs generalizing seen with
  | nil => simp [distinctOnto]
  | cons x xs ih =>
    rw [distinctOnto, ih]
    by_cases h : x ∈ seen
    · rw [if_pos h]
      constructor
      · rintro (h1 | h1)
        · exact Or.inl h1
        · exact Or.inr (List.mem_cons_of_mem x h1)
      · rintro (h1 | h1)
        · exact Or.inl h1
        · rcases List.mem_cons.1 h1 with rfl | h2
          · exact Or.inl h
          · exact Or.inr h2
    · rw [if_neg h]
      simp [or_assoc]

@[simp] theorem mem_distinct {xs : List α} {a : α} : a ∈ distinct xs ↔ a ∈ xs := by
  simp [distinct, mem_distinctOnto]

theorem nodup_distinctOnto {seen xs : List α} (h : seen.Nodup) :
    (distinctOnto seen xs).Nodup := by
  induction xs generalizing seen with
  | nil => exact h
  | cons x xs ih =>
    rw [distinctOnto]
    apply ih
    by_cases hx : x ∈ seen
    · simpa [hx] using h
    · rw [if_neg hx]
      refine List.nodup_append.2 ⟨h, by simp, ?_⟩
      intro a ha b hb
      rw [List.mem_singleton.1 hb]
      rintro rfl
      exact hx ha

theorem nodup_distinct (xs : List α) : (distinct xs).Nodup :=
  nodup_distinctOnto List.nodup_nil

end FormatFuzz

namespace FormatFuzz

abbrev Keyed (α : Type) := List (String × α)

namespace Keyed

variable {α : Type}

def keys (m : Keyed α) : List String :=
  m.map Prod.fst

def get? (m : Keyed α) (key : String) : Option α :=
  (m.find? fun e => e.1 == key).map Prod.snd

/-- Replaces the value of a key, or adds the key at the end. -/
def set : Keyed α → String → α → Keyed α
  | [], key, v => [(key, v)]
  | (k, w) :: rest, key, v => if k = key then (k, v) :: rest else (k, w) :: set rest key v

def ofPairs (pairs : List (String × α)) : Keyed α :=
  pairs.foldl (fun m p => set m p.1 p.2) []

theorem keys_set (m : Keyed α) (key : String) (v : α) :
    keys (set m key v) = if key ∈ keys m then keys m else keys m ++ [key] := by
  induction m with
  | nil => simp [set, keys]
  | cons e rest ih =>
    obtain ⟨k, w⟩ := e
    by_cases h : k = key
    · simp [set, keys, h]
    · have hk : key ≠ k := fun e => h e.symm
      simp only [set, h, if_false]
      change k :: keys (set rest key v) = _
      rw [ih]
      by_cases hm : key ∈ keys rest
      · simp [keys, hk, show key ∈ List.map Prod.fst rest from hm]
      · simp [keys, hk, show key ∉ List.map Prod.fst rest from hm]

theorem get?_set (m : Keyed α) (key other : String) (v : α) :
    get? (set m key v) other = if other = key then some v else get? m other := by
  induction m with
  | nil =>
    by_cases h : other = key
    · simp [set, get?, h]
    · have h' : ¬ key = other := fun e => h e.symm
      simp [set, get?, h, h']
  | cons e rest ih =>
    obtain ⟨k, w⟩ := e
    by_cases h : k = key
    · subst h
      by_cases ho : other = k
      · simp [set, get?, ho]
      · have h' : ¬ k = other := fun e => ho e.symm
        simp [set, get?, ho, h']
    · simp only [set, h, if_false]
      by_cases ho : k = other
      · subst ho
        simp [get?, h]
      · have : get? ((k, w) :: set rest key v) other = get? (set rest key v) other := by
          simp [get?, ho]
        rw [this, ih]
        simp [get?, ho]

end Keyed

end FormatFuzz
