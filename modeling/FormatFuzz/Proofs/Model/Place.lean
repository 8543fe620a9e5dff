import FormatFuzz.Model.Resolve
import FormatFuzz.Proofs.Expr.Subterm

/-!
# The expressions of a type

`Field.Holds` and `Instance.Holds` say which expressions a member evaluates and at which place each
of them stands, constructor by constructor and without the lists that resolution scans. The lemmas
compare the two lists of the resolver with these places: the one of a field's own dependencies has
every place, the one of reads through the parent leaves out the key of a process and the matches of
a switch.
-/

set_option autoImplicit false

namespace FormatFuzz

/-- Where an expression of a field or of an instance stands. -/
inductive Place where
  | guard
  | fixed
  | measure
  | input
  | count
  | until
  | processKey
  | choice
  | switchOn
  | caseMatch
  | size
  | value
  | valueGuard
  deriving DecidableEq, Repr

def Place.key : Place → String
  | .guard => "if"
  | .fixed => "valid"
  | .measure => "-fz-attr-len"
  | .input => "-fz-process"
  | .count => "repeat-expr"
  | .until => "repeat-until"
  | .processKey => "process"
  | .choice => "-fz-choice"
  | .switchOn => "type.switch-on"
  | .caseMatch => "type.cases"
  | .size => "size"
  | .value => "value"
  | .valueGuard => "if"

/-- The expressions that generating a field evaluates. -/
inductive Field.Holds (f : Field) : Place → Expr → Prop
  | guard {e : Expr} (h : f.guard = some e) : Holds f .guard e
  | fixed {e : Expr} (h : f.fixed = some e) : Holds f .fixed e
  | measure {e : Expr} (h : f.measure = some e) : Holds f .measure e
  | input {e : Expr} (h : f.input = some e) : Holds f .input e
  | count {r : Repeat} {e : Expr} (h : f.repeated = some r) (hr : r.form = .count e) :
      Holds f .count e
  | until {r : Repeat} {e : Expr} (h : f.repeated = some r) (hr : r.form = .until e) :
      Holds f .until e
  | processKey {e : Expr} (h : f.process = some (.xor e)) : Holds f .processKey e
  | choice {e : Expr} (h : e ∈ f.choices) : Holds f .choice e
  | switchOn {on : Expr} {cases : List (Expr × TypePath)} {default : Option TypePath}
      (h : f.type = .switch on cases default) : Holds f .switchOn on
  | caseMatch {on e : Expr} {p : TypePath} {cases : List (Expr × TypePath)}
      {default : Option TypePath} (h : f.type = .switch on cases default) (hc : (e, p) ∈ cases) :
      Holds f .caseMatch e
  | size {s : Size} {e : Expr} (h : f.size = some s) (hs : s.expr = some e) : Holds f .size e

/-- The expressions that computing an instance evaluates. -/
inductive Instance.Holds (i : Instance) : Place → Expr → Prop
  | value : Holds i .value i.value
  | guard {e : Expr} (h : i.guard = some e) : Holds i .valueGuard e

def TypeDef.Holds (t : TypeDef) (k : Place) (e : Expr) : Prop :=
  (∃ f ∈ t.fields, f.Holds k e) ∨ ∃ i ∈ t.instances, i.Holds k e

/-- Is a user type the type itself, a case of a switch or its default? -/
inductive TypeRef.Reaches : TypeRef → TypePath → Prop
  | user (p : TypePath) : Reaches (.user p) p
  | branch {on e : Expr} {p : TypePath} {cases : List (Expr × TypePath)}
      {default : Option TypePath} (h : (e, p) ∈ cases) : Reaches (.switch on cases default) p
  | default (on : Expr) (cases : List (Expr × TypePath)) (p : TypePath) :
      Reaches (.switch on cases (some p)) p

theorem TypeRef.reaches_iff (r : TypeRef) (p : TypePath) : r.Reaches p ↔ p ∈ r.users := by
  constructor
  · intro h
    cases h with
    | user => simp [users]
    | branch h => exact List.mem_append_left _ (List.mem_map_of_mem h)
    | default => simp [users]
  · intro h
    cases r with
    | bytes => simp [users] at h
    | prim => simp [users] at h
    | user q =>
      obtain rfl : p = q := by simpa [users] using h
      exact .user p
    | switch on cases default =>
      rcases List.mem_append.mp h with h | h
      · obtain ⟨⟨e, q⟩, hc, rfl⟩ := List.mem_map.mp h
        exact .branch hc
      · cases default with
        | none => simp at h
        | some q =>
          obtain rfl : p = q := by simpa using h
          exact .default on cases p

namespace Resolve

theorem holds_keyed (f : Field) (k : Place) (e : Expr) (h : f.Holds k e) :
    (k.key, e) ∈ keyedExprs f ++ (sizeExpr? f).toList.map fun e => ("size", e) := by
  cases h with
  | guard h => simp [keyedExprs, Place.key, h]
  | fixed h => simp [keyedExprs, Place.key, h]
  | measure h => simp [keyedExprs, Place.key, h]
  | input h => simp [keyedExprs, Place.key, h]
  | count h hr => simp [keyedExprs, Place.key, h, hr, RepeatForm.count?]
  | «until» h hr => simp [keyedExprs, Place.key, h, hr, RepeatForm.until?]
  | processKey h => simp [keyedExprs, Place.key, h, Process.key?]
  | choice h => simp [keyedExprs, Place.key, h]
  | switchOn h => simp [keyedExprs, Place.key, h]
  | @caseMatch on e p cases default h hc =>
    have hm : ("type.cases", e) ∈ cases.map fun c => ("type.cases", c.1) :=
      List.mem_map.mpr ⟨(e, p), hc, rfl⟩
    simp only [keyedExprs, h, Place.key, List.mem_append, List.mem_cons]
    exact Or.inl (Or.inr (Or.inr hm))
  | size h hs => simp [sizeExpr?, Place.key, h, hs]

theorem key_until (k : Place) (h : k.key = "repeat-until") : k = .until := by
  cases k <;> simp [Place.key] at h ⊢

theorem holds_scanned (f : Field) (k : Place) (e : Expr) (h : f.Holds k e)
    (hp : k ≠ .processKey) (hc : k ≠ .caseMatch) : e ∈ parentExprs f := by
  cases h with
  | guard h => simp [parentExprs, h]
  | fixed h => simp [parentExprs, h]
  | measure h => simp [parentExprs, h]
  | input h => simp [parentExprs, h]
  | count h hr => simp [parentExprs, h, hr, RepeatForm.count?]
  | «until» h hr => simp [parentExprs, h, hr, RepeatForm.until?]
  | processKey => exact absurd rfl hp
  | choice h => simp [parentExprs, h]
  | switchOn h => simp [parentExprs, h]
  | caseMatch => exact absurd rfl hc
  | size h hs => simp [parentExprs, sizeExpr?, h, hs]

theorem holds_instanceRefs (i : Instance) (k : Place) (e : Expr) (h : i.Holds k e) (r : String)
    (hr : r ∈ e.refs) : r ∈ instanceRefs i := by
  rw [instanceRefs, mem_distinct, List.mem_append]
  cases h with
  | value => exact Or.inl hr
  | guard h => exact Or.inr (by simpa [optRefs, h] using hr)

theorem mem_parentRefs (u : TypeDef) (x : String) :
    x ∈ parentRefs u ↔ ∃ e ∈ u.fields.flatMap parentExprs
      ++ u.instances.flatMap fun i => i.value :: i.guard.toList,
        Expr.Within (.attr (.name Expr.parent) x) e := by
  simp only [parentRefs, mem_distinct, List.mem_flatMap, Expr.mem_attributesOf]

theorem holds_parentRefs (u : TypeDef) (k : Place) (e : Expr) (h : u.Holds k e)
    (hp : k ≠ .processKey) (hc : k ≠ .caseMatch) (x : String)
    (hx : Expr.Within (.attr (.name Expr.parent) x) e) : x ∈ parentRefs u := by
  refine (mem_parentRefs u x).mpr ⟨e, ?_, hx⟩
  rcases h with ⟨f, hf, h⟩ | ⟨i, hi, h⟩
  · exact List.mem_append_left _ (List.mem_flatMap.mpr ⟨f, hf, holds_scanned f k e h hp hc⟩)
  · apply List.mem_append_right
    refine List.mem_flatMap.mpr ⟨i, hi, ?_⟩
    cases h with
    | value => simp
    | guard h => simp [h]

end Resolve

end FormatFuzz
