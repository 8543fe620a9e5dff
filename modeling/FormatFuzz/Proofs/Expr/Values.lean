import FormatFuzz.Expr.Parser
import FormatFuzz.Proofs.Expr.Formation

/-!
# What the tree of a value lacks

A text that is read leaves no place of its tree empty, and a number or a truth value is a tree by
itself. So a tree lacks what its value has null, and lacks it in a list.
-/

set_option autoImplicit false

namespace FormatFuzz

namespace Value

mutual

/-- Is there something in every place: is the value no null, and none in its lists? -/
def whole : Value → Bool
  | .null => false
  | .list vs => listWhole vs
  | _ => true

def listWhole : List Value → Bool
  | [] => true
  | v :: vs => v.whole && listWhole vs

end

end Value

namespace Expr

theorem Formed.complete {e : Expr} (h : Formed e) : e.complete = true := by
  induction h with
  | list _ ih => exact (listComplete_iff _).mpr ih
  | _ => simp_all [Expr.complete]

/-- What is not complete in a tree is a list, or an element that a list lacks: every operator in
the tree has its operands. -/
def LacksInLists (e : Expr) : Prop :=
  ∀ x, Within x e → x.complete = false → x = .absent ∨ ∃ xs, x = .list xs

theorem lacksInLists_of_complete {e : Expr} (h : e.complete = true) : e.LacksInLists := by
  intro x hx hlacks
  rw [complete_of_within hx h] at hlacks
  cases hlacks

theorem lacksInLists_absent : LacksInLists .absent := by
  intro x hx _
  cases hx
  exact .inl rfl

theorem lacksInLists_list {xs : List Expr} (h : ∀ x ∈ xs, x.LacksInLists) :
    LacksInLists (.list xs) := by
  intro x hx hlacks
  cases hx with
  | self => exact .inr ⟨xs, rfl⟩
  | element hy hx => exact h _ hy x hx hlacks

structure Spells (e : Expr) (v : Value) : Prop where
  complete : e.complete = v.whole
  lacks : e.LacksInLists

theorem spells_of_complete {e : Expr} {v : Value} (he : e.complete = true)
    (hv : v.whole = true) : e.Spells v :=
  ⟨he.trans hv.symm, lacksInLists_of_complete he⟩

theorem spells_parse {s : String} {e : Expr} (h : parse s = .ok e) : e.Spells (.str s) :=
  spells_of_complete (formed_parse s e h).complete rfl

theorem eq_null_of_ofValue {v : Value} (h : ofValue v = .ok none) : v = .null := by
  cases v with
  | null => rfl
  | str s =>
    rw [ofValue] at h
    split at h <;> cases h
  | list vs =>
    rw [ofValue] at h
    split at h <;> cases h
  | _ => simp [ofValue] at h

mutual

theorem spells_ofValue : ∀ (v : Value) (e : Expr), ofValue v = .ok (some e) → e.Spells v
  | .null, e, h => by simp [ofValue] at h
  | .int n, e, h => by
    obtain rfl : .int n = e := by simpa [ofValue] using h
    exact spells_of_complete rfl rfl
  | .float x, e, h => by
    obtain rfl : .float x = e := by simpa [ofValue] using h
    exact spells_of_complete rfl rfl
  | .bool b, e, h => by
    obtain rfl : .bool b = e := by simpa [ofValue] using h
    exact spells_of_complete rfl rfl
  | .str s, e, h => by
    rw [ofValue] at h
    split at h
    next x hx =>
      obtain rfl : x = e := by simpa using h
      exact spells_parse hx
    next => cases h
  | .list vs, e, h => by
    rw [ofValue] at h
    split at h
    next es hes =>
      obtain rfl : .list es = e := by simpa using h
      obtain ⟨hcomplete, hlacks⟩ := spells_ofValues vs es hes
      exact ⟨by rw [Expr.complete, Value.whole, hcomplete], lacksInLists_list hlacks⟩
    next => cases h
  | .time t, e, h => by simp [ofValue] at h
  | .map es, e, h => by simp [ofValue] at h
  | .table es, e, h => by simp [ofValue] at h

theorem spells_ofValues : ∀ (vs : List Value) (es : List Expr), ofValues vs = .ok es →
    listComplete es = Value.listWhole vs ∧ ∀ e ∈ es, e.LacksInLists
  | [], es, h => by
    obtain rfl : [] = es := by simpa [ofValues] using h
    simp [listComplete, Value.listWhole]
  | v :: vs, es, h => by
    rw [ofValues] at h
    split at h
    next => cases h
    next x hx =>
      split at h
      next => cases h
      next xs hxs =>
        obtain rfl : x.getD .absent :: xs = es := by simpa using h
        obtain ⟨hcomplete, hlacks⟩ := spells_ofValues vs xs hxs
        have hv : (x.getD .absent).Spells v := by
          cases x with
          | none => exact eq_null_of_ofValue hx ▸ ⟨rfl, lacksInLists_absent⟩
          | some e => exact spells_ofValue v e hx
        refine ⟨by rw [listComplete, Value.listWhole, hv.complete, hcomplete], ?_⟩
        exact List.forall_mem_cons.mpr ⟨hv.lacks, hlacks⟩

end

end Expr

end FormatFuzz
