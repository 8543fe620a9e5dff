import FormatFuzz.Proofs.Model.GenerationOrder

/-!
# Reads through the parent

An object reads members of the object around it while it is built, so a field comes after what the
types it can hold read through `_parent`. This is so for every place in which such a read can stand
but two: the key of a process and the match of a case are not searched for reads.
-/

set_option autoImplicit false

namespace FormatFuzz

/-- Whatever a type reads through its parent at a place is static there, or comes before the field
that holds the type. -/
def Model.ParentReadsOrdered (m : Model) (k : Place) : Prop :=
  ∀ t ∈ m.types, ∀ f ∈ t.fields, ∀ p, f.type.Reaches p → ∀ u, m.find? p = some u →
    ∀ e, u.Holds k e → ∀ x, Expr.Within (.attr (.name "_parent") x) e →
      ((∃ g ∈ t.fields, g.id = x) ∨ ∃ i ∈ t.instances, i.id = x) → x ≠ f.id →
        t.HasStatic x ∨ [x, f.id].Sublist t.order

theorem pair_sublist (before after : List String) (x y : String) (h : x ∈ before) :
    [x, y].Sublist (before ++ y :: after) := by
  have hx : [x].Sublist before := List.singleton_sublist.mpr h
  exact hx.append (List.Sublist.cons_cons y (List.nil_sublist after))

namespace Resolve

theorem resolved_parent_reads (find? : TypeDef → TypePath → Option TypeDef) (t out : TypeDef)
    (h : Resolved find? t out) (g : Field) (hg : g ∈ out.fields) (p : TypePath)
    (hp : g.type.Reaches p) (reads : List String)
    (hu : ∀ now, Stage out now → ∃ u, find? now p = some u ∧ ∀ x ∈ reads, x ∈ parentRefs u)
    (x : String) (hx : x ∈ reads) (ht : x ∈ out.refs) (hne : x ≠ g.id) :
    out.HasStatic x ∨ [x, g.id].Sublist out.order := by
  obtain ⟨-, hm, ho⟩ := order_ok out out.order h.nodup h.order
  obtain ⟨f, -, now, hstage, hs⟩ := forall₂_mem_right _ _ _ h.fields g hg
  obtain ⟨u, hfind, hreads⟩ := hu now hstage
  obtain ⟨before, after, he⟩ :=
    List.append_of_mem ((hm g.id).mpr (field_not_static find? t out h g hg))
  rcases settled_parent find? now f g hs p hp u hfind x (hreads x hx) (hstage.refs ▸ ht) hne
    with hst | hd
  · exact Or.inl (hasStatic_of_mem find? t out h x (hstage.statics ▸ hst))
  · rcases ho before g.id after he x (Or.inl ⟨g, hg, rfl, hd⟩) with hst | hb
    · exact Or.inl (hasStatic_of_mem find? t out h x hst)
    · exact Or.inr (he ▸ pair_sublist before after x g.id hb)

end Resolve

theorem Model.compile_parent_reads (o : Options) (s : SchemaSet) (m : Model)
    (h : Model.compile o s = .ok m) (k : Place) (hp : k ≠ .processKey) (hc : k ≠ .caseMatch) :
    m.ParentReadsOrdered k := by
  intro t ht f hf p hreach u hu e he x hx hmem hne
  obtain ⟨b, -, hts⟩ := Model.compile_ok o s m h
  obtain ⟨ts, hm, -, hres⟩ := Resolve.types_ok [] b.types m.types hts
  rw [List.nil_append] at hm
  obtain ⟨before, after', heq⟩ := List.append_of_mem (hm ▸ ht)
  obtain ⟨t₀, -, after, hafter, hr⟩ := hres before t after' heq
  refine Resolve.resolved_parent_reads _ t₀ t hr f hf p hreach (Resolve.parentRefs u) ?_ x
    (Resolve.holds_parentRefs u k e he hp hc x hx) ((Resolve.mem_refs_iff _ t₀ t hr x).mpr hmem)
    hne
  -- the type found while this one was resolved reads at least what the finished one reads
  intro now hstage
  have hsheds : List.Forall₂ Resolve.Sheds (before ++ now :: after) (before ++ t :: after') :=
    List.rel_append (List.forall₂_same.mpr fun v _ => Resolve.sheds_refl v)
      (.cons ⟨hstage.path.symm, hstage.reads⟩ hafter)
  obtain ⟨v, hv, hshed⟩ := Resolve.find?_sheds _ _ hsheds p u (by rw [← heq, ← hm]; exact hu)
  exact ⟨v, hv, hshed.reads⟩

/-- Does a field come before something that a type it holds reads through `_parent` in one of the
given expressions? Meant for types without instances. -/
def Model.readsLater (m : Model) (held : TypeDef → List Expr) : Bool :=
  m.types.any fun t => t.instances.isEmpty && t.fields.any fun f => f.type.users.any fun p =>
    (m.find? p).any fun u => (held u).any fun e => (e.attributesOf "_parent").any fun x =>
      x != f.id && t.fields.any (fun g => g.id == x) && !decide ([x, f.id].Sublist t.order)

theorem Model.not_ordered_of_readsLater (k : Place) (held : TypeDef → List Expr)
    (hk : ∀ u, ∀ e ∈ held u, u.Holds k e) (m : Model) (h : m.readsLater held = true) :
    ¬ m.ParentReadsOrdered k := by
  intro ho
  simp only [readsLater, List.any_eq_true, Bool.and_eq_true, Option.any_eq_true,
    List.isEmpty_iff] at h
  obtain ⟨t, ht, hi, f, hf, p, hp, u, hu, e, he, x, hx, ⟨hne, g, hg, hgx⟩, hs⟩ := h
  rcases ho t ht f hf p ((TypeRef.reaches_iff _ p).mpr hp) u hu e (hk u e he) x
    ((Expr.mem_attributesOf _ x e).mp hx) (Or.inl ⟨g, hg, by simpa using hgx⟩)
    (by simpa using hne) with ⟨i, him, -⟩ | hsub
  · simp [hi] at him
  · simp [hsub] at hs

def processKeys (u : TypeDef) : List Expr :=
  u.fields.flatMap fun f => (f.process.bind Process.key?).toList

def caseMatches (u : TypeDef) : List Expr :=
  u.fields.flatMap fun f =>
    match f.type with
    | .switch _ cases _ => cases.map Prod.fst
    | _ => []

theorem holds_processKeys (u : TypeDef) : ∀ e ∈ processKeys u, u.Holds .processKey e := by
  intro e he
  obtain ⟨f, hf, he⟩ := List.mem_flatMap.mp he
  refine Or.inl ⟨f, hf, ?_⟩
  cases hp : f.process with
  | none => simp [hp] at he
  | some q =>
    cases q with
    | zlib => simp [hp, Process.key?] at he
    | xor key =>
      obtain rfl : e = key := by simpa [hp, Process.key?] using he
      exact .processKey hp

theorem holds_caseMatches (u : TypeDef) : ∀ e ∈ caseMatches u, u.Holds .caseMatch e := by
  intro e he
  obtain ⟨f, hf, he⟩ := List.mem_flatMap.mp he
  refine Or.inl ⟨f, hf, ?_⟩
  split at he
  next hs =>
    obtain ⟨⟨key, p⟩, hc, rfl⟩ := List.mem_map.mp he
    exact .caseMatch hs hc
  next => simp at he

/-- A field `body` of type `part` stands before a field `n`, which `part` reads in the key of a
process and in the match of a case. -/
def unsearched : SchemaSet :=
  ⟨⟨"frame.ksy", .mk
    { head := { Meta.empty with id := "frame" }
      seq := [{ id := "body", type := some (.named "part") },
        { id := "n", type := some (.named "u1") }] }
    [("part", .mk
      { seq := [{ id := "data", size := .int 4, process := "xor(_parent.n)" },
          { id := "kind", type := some (.named "u1") },
          { id := "rest", type := some (.switch (.str "kind") [("_parent.n", "unit")]) }] } []),
      ("unit", .mk {} [])]⟩, []⟩

theorem unsearched_unordered :
    ∃ m, Model.compile {} unsearched = .ok m ∧
      ¬ m.ParentReadsOrdered .processKey ∧ ¬ m.ParentReadsOrdered .caseMatch := by
  obtain ⟨m, hm, h⟩ := exists_ok_of_toOption_map (Model.compile {} unsearched)
    (fun m => (m.readsLater processKeys, m.readsLater caseMatches)) (true, true)
    (by decide +kernel)
  obtain ⟨hp, hc⟩ := Prod.mk.inj h
  exact ⟨m, hm, Model.not_ordered_of_readsLater .processKey _ holds_processKeys m hp,
    Model.not_ordered_of_readsLater .caseMatch _ holds_caseMatches m hc⟩

/-- Reads through the parent at a place are ordered in every compiled model exactly when the place
is neither the key of a process nor the match of a case. -/
theorem Model.parentReadsOrdered_iff (k : Place) :
    (∀ o s m, Model.compile o s = .ok m → m.ParentReadsOrdered k) ↔
      k ≠ .processKey ∧ k ≠ .caseMatch := by
  constructor
  · intro h
    obtain ⟨m, hm, hp, hc⟩ := unsearched_unordered
    constructor
    · rintro rfl
      exact hp (h _ _ m hm)
    · rintro rfl
      exact hc (h _ _ m hm)
  · rintro ⟨hp, hc⟩ o s m hm
    exact Model.compile_parent_reads o s m hm k hp hc

/-- Not all that a type reads through its parent comes before the field that holds it. -/
theorem Model.parent_reads_unordered :
    ¬ ∀ o s m, Model.compile o s = .ok m → ∀ k, m.ParentReadsOrdered k := by
  intro h
  obtain ⟨m, hm, hp, -⟩ := unsearched_unordered
  exact hp (h _ _ m hm .processKey)

end FormatFuzz
