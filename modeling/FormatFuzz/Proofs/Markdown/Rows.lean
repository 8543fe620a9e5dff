import FormatFuzz.Markdown
import FormatFuzz.Proofs.Path
import Mathlib

/-!
# Rows of a table

A line of a table is cut into cells at its bars, except at those behind a backslash. A row that is
written cell by cell is one line with these cells exactly if no cell breaks the line or has a bar of
its own: bars and breaks only add up, and a text in front of another can only escape a bar of it.
-/

set_option autoImplicit false

namespace FormatFuzz

namespace Text

def Unbroken (s : String) : Prop := '\n' ∉ s.toList

instance (s : String) : Decidable (Unbroken s) := inferInstanceAs (Decidable ('\n' ∉ _))

@[simp] theorem unbroken_append (s t : String) :
    Unbroken (s ++ t) ↔ Unbroken s ∧ Unbroken t := by
  simp [Unbroken]

theorem join_induction (P : String → Prop) (hnil : P "")
    (happend : ∀ s t, P s → P t → P (s ++ t)) (sep : String) (parts : List String) (hs : P sep)
    (h : ∀ p ∈ parts, P p) : P (join sep parts) := by
  induction parts with
  | nil => exact hnil
  | cons p rest ih =>
    obtain ⟨hp, hrest⟩ := List.forall_mem_cons.mp h
    by_cases hne : rest = []
    · rwa [hne, join]
    · rw [join_cons sep p rest hne]
      exact happend _ _ (happend _ _ hp hs) (ih hrest)

theorem unbroken_join (sep : String) (parts : List String) (hs : Unbroken sep)
    (h : ∀ p ∈ parts, Unbroken p) : Unbroken (join sep parts) :=
  join_induction Unbroken (by decide) (fun s t hs ht => (unbroken_append s t).mpr ⟨hs, ht⟩) sep
    parts hs h

theorem unbroken_of_join (sep : String) (parts : List String) (h : Unbroken (join sep parts)) :
    ∀ p ∈ parts, Unbroken p := by
  induction parts with
  | nil => simp
  | cons p rest ih =>
    by_cases hne : rest = []
    · rw [hne, join] at h
      simpa [hne] using h
    · rw [join_cons sep p rest hne, unbroken_append, unbroken_append] at h
      exact List.forall_mem_cons.mpr ⟨h.1.1, ih h.2⟩

/-- A text with neither a line break nor a bar, such as a name. -/
def Plain (s : String) : Prop := Unbroken s ∧ '|' ∉ s.toList

instance (s : String) : Decidable (Plain s) := inferInstanceAs (Decidable (_ ∧ _))

theorem Plain.append {s t : String} (hs : Plain s) (ht : Plain t) : Plain (s ++ t) :=
  ⟨(unbroken_append s t).mpr ⟨hs.1, ht.1⟩, by simpa using ⟨hs.2, ht.2⟩⟩

theorem plain_join (sep : String) (parts : List String) (hs : Plain sep)
    (h : ∀ p ∈ parts, Plain p) : Plain (join sep parts) :=
  join_induction Plain (by decide) (fun _ _ hs ht => hs.append ht) sep parts hs h

end Text

namespace Markdown

open Text (Unbroken Plain)

/-- How many bars no backslash stands before; `escaped` if one stands before the first character. -/
def bars (escaped : Bool) : List Char → Nat
  | [] => 0
  | c :: cs => (if c == '|' && !escaped then 1 else 0) + bars (c == '\\') cs

def partsOf (escaped : Bool) : List Char → List (List Char)
  | [] => [[]]
  | c :: cs =>
    if c == '|' && !escaped then [] :: partsOf false cs
    else (partsOf (c == '\\') cs).modifyHead (c :: ·)

theorem length_partsOf (escaped : Bool) (cs : List Char) :
    (partsOf escaped cs).length = bars escaped cs + 1 := by
  induction cs generalizing escaped with
  | nil => rfl
  | cons c cs ih =>
    rw [partsOf, bars]
    split
    next h =>
      obtain rfl : c = '|' := by simpa using (Bool.and_eq_true_iff.mp h).1
      rw [List.length_cons, ih, Nat.add_comm 1]
      rfl
    next => rw [List.length_modifyHead, ih, Nat.zero_add]

theorem bars_append (escaped : Bool) (xs ys : List Char) :
    bars escaped (xs ++ ' ' :: ys) = bars escaped xs + bars false ys := by
  induction xs generalizing escaped with
  | nil => simp [bars]
  | cons x xs ih => rw [List.cons_append, bars, bars, ih, Nat.add_assoc]

theorem partsOf_cell (escaped : Bool) (xs ys : List Char) (h : bars escaped xs = 0) :
    partsOf escaped (xs ++ ' ' :: '|' :: ys) = (xs ++ [' ']) :: partsOf false ys := by
  induction xs generalizing escaped with
  | nil => simp [partsOf]
  | cons x xs ih =>
    rw [bars, Nat.add_eq_zero_iff] at h
    obtain ⟨hx, hxs⟩ := h
    have hbar : ¬ ((x == '|' && !escaped) = true) := fun hc => by rw [if_pos hc] at hx; cases hx
    rw [List.cons_append, partsOf, if_neg hbar, ih _ hxs]
    rfl

theorem bars_eq_zero (escaped : Bool) (cs : List Char) (h : '|' ∉ cs) : bars escaped cs = 0 := by
  induction cs generalizing escaped with
  | nil => rfl
  | cons c cs ih =>
    rw [List.mem_cons, not_or] at h
    obtain ⟨hc, hcs⟩ := h
    rw [bars, ih _ hcs, if_neg (by simp [Ne.symm hc])]

theorem bars_behind (escaped : Bool) (cs : List Char) (h : bars false cs = 0) :
    bars escaped cs = 0 := by
  cases escaped with
  | false => exact h
  | true =>
    cases cs with
    | nil => rfl
    | cons c cs =>
      rw [bars, Nat.add_eq_zero_iff] at h
      rw [bars, h.2, Bool.not_true, Bool.and_false]
      rfl

theorem bars_append_eq_zero (escaped : Bool) (xs ys : List Char) (hx : bars escaped xs = 0)
    (hy : bars false ys = 0) : bars escaped (xs ++ ys) = 0 := by
  induction xs generalizing escaped with
  | nil => exact bars_behind escaped ys hy
  | cons x xs ih =>
    rw [bars, Nat.add_eq_zero_iff] at hx
    rw [List.cons_append, bars, ih _ hx.2, Nat.add_zero]
    exact hx.1

theorem splitOn_bar (s : String) :
    Text.splitOn s "|" = (Text.splitAux '|' [] [] 0 s.toList).map String.ofList := rfl

/-- The text is a line of a table with the given number of cells. -/
def Row (n : Nat) (text : String) : Prop :=
  ∃ (line : String) (cells : List (List Char)), text = line ++ "\n" ∧ Unbroken line ∧
    partsOf false line.toList = [] :: (cells ++ [[]]) ∧ cells.length = n

def Cell (s : String) : Prop := Unbroken s ∧ bars false s.toList = 0

instance (s : String) : Decidable (Cell s) := inferInstanceAs (Decidable (_ ∧ _))

theorem Cell.append {s t : String} (hs : Cell s) (ht : Cell t) : Cell (s ++ t) := by
  refine ⟨(Text.unbroken_append s t).mpr ⟨hs.1, ht.1⟩, ?_⟩
  rw [String.toList_append]
  exact bars_append_eq_zero _ _ _ hs.2 ht.2

theorem cell_join (sep : String) (parts : List String) (hs : Cell sep) (h : ∀ p ∈ parts, Cell p) :
    Cell (Text.join sep parts) :=
  Text.join_induction Cell (by decide) (fun _ _ hs ht => hs.append ht) sep parts hs h

theorem cell_of_plain {s : String} (h : Plain s) : Cell s :=
  ⟨h.1, bars_eq_zero _ _ h.2⟩

theorem cell_replaceAll (s : String) (h : Unbroken s) : Cell (Text.replaceAll s "|" "\\|") := by
  rw [← Text.join_splitOn s "|"] at h
  refine cell_join _ _ (by decide) fun p hp => ⟨Text.unbroken_of_join _ _ h p hp, ?_⟩
  rw [splitOn_bar] at hp
  obtain ⟨cs, hcs, rfl⟩ := List.mem_map.mp hp
  rw [String.toList_ofList]
  exact bars_eq_zero _ _ (Text.notMem_splitAux '|' [] s.toList (by simp) cs hcs)

def cellChars : List String → List Char
  | [] => []
  | c :: cs => ' ' :: (c.toList ++ ' ' :: '|' :: cellChars cs)

theorem join_cellChars (cs : List String) (h : cs ≠ []) :
    ' ' :: ((Text.join " | " cs).toList ++ [' ', '|']) = cellChars cs := by
  induction cs with
  | nil => exact absurd rfl h
  | cons c cs ih =>
    by_cases hne : cs = []
    · subst hne
      rfl
    · rw [Text.join_cons " | " c cs hne, cellChars, ← ih hne]
      simp

theorem row_eq (cs : List String) (h : cs ≠ []) :
    row cs = String.ofList ('|' :: cellChars cs) ++ "\n" := by
  refine String.toList_inj.mp ?_
  rw [row, String.toList_append, String.toList_append, String.toList_append, String.toList_ofList,
    ← join_cellChars cs h]
  simp

theorem bars_cellChars (cs : List String) :
    bars false (cellChars cs) = cs.length + (cs.map fun c => bars false c.toList).sum := by
  induction cs with
  | nil => rfl
  | cons c cs ih =>
    rw [cellChars, bars, bars_append, bars, show (('|' : Char) == '\\') = false from rfl, ih,
      List.length_cons, List.map_cons, List.sum_cons, show ((' ' : Char) == '\\') = false from rfl]
    simp only [beq_self_eq_true, Bool.not_false, Bool.and_self, if_true,
      show ((' ' : Char) == '|') = false from rfl, Bool.false_and, Bool.false_eq_true, if_false]
    omega

theorem partsOf_cellChars (cs : List String) (h : ∀ c ∈ cs, bars false c.toList = 0) :
    partsOf false (cellChars cs) = (cs.map fun c => ' ' :: (c.toList ++ [' '])) ++ [[]] := by
  induction cs with
  | nil => rfl
  | cons c cs ih =>
    obtain ⟨hc, hcs⟩ := List.forall_mem_cons.mp h
    have hcell := partsOf_cell false (' ' :: c.toList) (cellChars cs) (by simpa [bars] using hc)
    rw [cellChars, ← List.cons_append, hcell, ih hcs]
    rfl

theorem mem_cellChars (cs : List String) :
    '\n' ∈ cellChars cs ↔ ∃ c ∈ cs, '\n' ∈ c.toList := by
  induction cs with
  | nil => simp [cellChars]
  | cons c cs ih => simp [cellChars, ih]

theorem row_iff (cs : List String) (h : cs ≠ []) :
    Row cs.length (row cs) ↔ ∀ c ∈ cs, Cell c := by
  rw [row_eq cs h]
  constructor
  · rintro ⟨line, cells, hline, hbreak, hparts, hlen⟩
    obtain rfl : String.ofList ('|' :: cellChars cs) = line := by
      have hchars := congrArg String.toList hline
      rw [String.toList_append, String.toList_append, List.append_left_inj] at hchars
      exact String.toList_inj.mp hchars
    -- as many bars as parts are what the frame of the cells has, so the texts have none
    have hbars := length_partsOf false ('|' :: cellChars cs)
    rw [String.toList_ofList] at hparts
    rw [hparts, bars, show (('|' : Char) == '\\') = false from rfl, bars_cellChars] at hbars
    have hsum : (cs.map fun c => bars false c.toList).sum = 0 := by
      simp only [List.length_cons, List.length_append, List.length_nil, beq_self_eq_true,
        Bool.not_false, Bool.and_self, if_true] at hbars
      omega
    rw [List.sum_eq_zero_iff] at hsum
    intro c hc
    refine ⟨fun hb => hbreak ?_, hsum _ (List.mem_map_of_mem hc)⟩
    rw [String.toList_ofList]
    exact List.mem_cons_of_mem _ ((mem_cellChars cs).mpr ⟨c, hc, hb⟩)
  · intro hall
    refine ⟨_, cs.map fun c => ' ' :: (c.toList ++ [' ']), rfl, ?_, ?_, List.length_map _⟩
    · rw [Unbroken, String.toList_ofList, List.mem_cons, mem_cellChars]
      rintro (hb | ⟨c, hc, hb⟩)
      · cases hb
      · exact (hall c hc).1 hb
    · rw [String.toList_ofList]
      change [] :: partsOf false (cellChars cs) = _
      rw [partsOf_cellChars cs fun c hc => (hall c hc).2]

end Markdown
end FormatFuzz
