import FormatFuzz.Proofs.Schema.Sameness
import FormatFuzz.Schema.Scope
import Mathlib.Data.Option.Basic

/-!
# Names seen from schemas of one shape

What a type name stands for depends on the names of the nested types, on the id of the outermost
schema and on the imported ids alone. So two sets of schemas of one shape see the same names from
places of one shape, and what they see is of one shape.
-/

set_option autoImplicit false

namespace FormatFuzz

abbrev Schema.Alike : Schema → Schema → Prop := Schema.Rel fun _ _ => True

theorem Schema.Rel.alike {R : SchemaBody → SchemaBody → Prop} {s t : Schema} (h : Rel R s t) :
    Alike s t :=
  h.imp fun _ _ _ => trivial

theorem Schema.Rels.get? {R : SchemaBody → SchemaBody → Prop} {ts us : List (String × Schema)}
    (h : Rels R ts us) (name : String) :
    Option.Rel (Rel R) (Keyed.get? ts name) (Keyed.get? us name) := by
  induction ts generalizing us with
  | nil =>
    cases h
    exact .none
  | cons e ts ih =>
    cases h with
    | cons key s t ts us hst hs =>
      have ih := ih hs
      unfold Keyed.get? at ih ⊢
      by_cases hk : key = name
      · simpa [hk] using hst
      · simpa [hk] using ih

theorem Schema.Rel.types {R : SchemaBody → SchemaBody → Prop} {s t : Schema} (h : Rel R s t) :
    Rels R s.types t.types := by
  cases h with
  | mk _ _ _ _ _ ht => exact ht

namespace Scope

inductive Alike : Scope → Scope → Prop
  | top (p q : TypePath) (s t : Schema) (h : s.Alike t) (hid : s.id = t.id) :
      Alike [(p, s)] [(q, t)]
  | child (p q : TypePath) (s t : Schema) (sc sc' : Scope) (h : s.Alike t) (hsc : Alike sc sc') :
      Alike ((p, s) :: sc) ((q, t) :: sc')

def Found (x y : TypePath × Schema) : Prop := x.2.Alike y.2

theorem found_or (s t : Schema) (h : s.Alike t) (name : String) (f g : Schema → TypePath × Schema)
    (hf : ∀ u, (f u).2 = u) (hg : ∀ u, (g u).2 = u) (x y : Option (TypePath × Schema))
    (hxy : Option.Rel Found x y) :
    Option.Rel Found
      (match Keyed.get? s.types name with | some u => some (f u) | none => x)
      (match Keyed.get? t.types name with | some u => some (g u) | none => y) := by
  have hget := h.types.get? name
  generalize Keyed.get? s.types name = a at hget
  generalize Keyed.get? t.types name = b at hget
  cases hget with
  | none => exact hxy
  | some hu =>
    refine .some ?_
    rw [Found, hf, hg]
    exact hu

theorem Alike.start? (sc sc' : Scope) (h : Alike sc sc') (name : String) :
    Option.Rel Found (Scope.start? sc name) (Scope.start? sc' name) := by
  induction h with
  | top p q s t hst hid =>
    refine found_or s t hst name _ _ (fun _ => rfl) (fun _ => rfl) _ _ ?_
    rw [hid]
    split
    · exact .some hst
    · exact .none
  | child p q s t sc sc' hst hsc ih =>
    refine found_or s t hst name _ _ (fun _ => rfl) (fun _ => rfl) _ _ ?_
    have outer : ∀ {x y : Scope}, Alike x y → x.isEmpty = false ∧ y.isEmpty = false := by
      intro x y hxy
      cases hxy <;> exact ⟨rfl, rfl⟩
    rw [(outer hsc).1, (outer hsc).2, Bool.false_and, Bool.false_and]
    exact ih

theorem Found.descend? (names : List String) (x y : TypePath × Schema) (h : Found x y) :
    Option.Rel Found (Scope.descend? x names) (Scope.descend? y names) := by
  induction names generalizing x y with
  | nil => exact .some h
  | cons name names ih =>
    obtain ⟨p, s⟩ := x
    obtain ⟨q, t⟩ := y
    have hget := h.types.get? name
    unfold Scope.descend?
    generalize Keyed.get? s.types name = a at hget
    generalize Keyed.get? t.types name = b at hget
    cases hget with
    | none => exact .none
    | some hu => exact ih _ _ hu

end Scope

namespace SchemaSet

def Alike : SchemaSet → SchemaSet → Prop := Rel fun s t => s.Alike t ∧ s.id = t.id

theorem Alike.top? (a b : SchemaSet) (h : Alike a b) (name : String) :
    Option.Rel Scope.Found (a.top? name) (b.top? name) := by
  have himported : Option.Rel (fun f g : SchemaFile => f.schema.Alike g.schema)
      (Keyed.get? a.imported name) (Keyed.get? b.imported name) := by
    have hall := h.imported
    generalize a.imported = es at hall
    generalize b.imported = fs at hall
    induction hall with
    | nil => exact .none
    | @cons e f es fs hef _ ih =>
      obtain ⟨hkey, -, hst, -⟩ := hef
      unfold Keyed.get? at ih ⊢
      rw [List.find?_cons, List.find?_cons, hkey]
      split
      · exact .some hst
      · exact ih
  unfold SchemaSet.top?
  generalize Keyed.get? a.imported name = x at himported
  generalize Keyed.get? b.imported name = y at himported
  cases himported with
  | some hfg => exact .some hfg
  | none =>
    simp only [h.main.2]
    split
    · exact .some h.main.1
    · exact .none

theorem Alike.lookupType (a b : SchemaSet) (h : Alike a b) (sc sc' : Scope) (hsc : sc.Alike sc')
    (name : String) : Option.Rel Scope.Found (a.lookupType sc name) (b.lookupType sc' name) := by
  unfold SchemaSet.lookupType
  cases Text.splitOn name "::" with
  | nil => exact .none
  | cons first rest =>
    have hstart : Option.Rel Scope.Found ((Scope.start? sc first).or (a.top? first))
        ((Scope.start? sc' first).or (b.top? first)) := by
      have hs := Scope.Alike.start? sc sc' hsc first
      generalize Scope.start? sc first = x at hs
      generalize Scope.start? sc' first = y at hs
      cases hs with
      | some hxy => exact .some hxy
      | none => exact Alike.top? a b h first
    simp only
    generalize (Scope.start? sc first).or (a.top? first) = x at hstart
    generalize (Scope.start? sc' first).or (b.top? first) = y at hstart
    cases hstart with
    | none => exact .none
    | some hxy => exact Scope.Found.descend? rest _ _ hxy

end SchemaSet

end FormatFuzz
