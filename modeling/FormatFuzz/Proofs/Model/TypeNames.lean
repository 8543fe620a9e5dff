import FormatFuzz.Proofs.Keyed
import FormatFuzz.Proofs.Model.Noting

/-!
# Type names mean the same in a schema and in its model

A schema set is a forest whose branches are keyed by type names, and `SchemaSet.at?` follows a path
in it. The types of a model carry the paths of that forest and nothing else of its shape, so a model
outlines a set when it has a type at exactly the paths of the set. Where keys do not repeat, looking
a name up from a place of the set and from the path of that place leads to the same path.
-/

set_option autoImplicit false

namespace FormatFuzz

namespace Schema

def at? : Schema → List String → Option Schema
  | s, [] => some s
  | s, name :: rest =>
    match Keyed.get? s.types name with
    | some t => t.at? rest
    | none => none

mutual

def Distinct : Schema → Prop
  | .mk _ ts => (Keyed.keys ts).Nodup ∧ DistinctIn ts

def DistinctIn : List (String × Schema) → Prop
  | [] => True
  | (_, s) :: rest => s.Distinct ∧ DistinctIn rest

end

theorem distinctIn_iff (ts : List (String × Schema)) :
    DistinctIn ts ↔ ∀ e ∈ ts, e.2.Distinct := by
  induction ts with
  | nil => simp [DistinctIn]
  | cons e rest ih => simp [DistinctIn, ih]

theorem distinct_iff (s : Schema) :
    s.Distinct ↔ (Keyed.keys s.types).Nodup ∧ ∀ e ∈ s.types, e.2.Distinct := by
  cases s with
  | mk b ts => rw [Distinct, distinctIn_iff]; rfl

end Schema

namespace SchemaSet

def at? (set : SchemaSet) : TypePath → Option Schema
  | [] => none
  | first :: rest => ((set.top? first).map Prod.snd).bind fun s => s.at? rest

/-- No two types of one place share a name: the ids of the imports differ from each other and from
the main one, and each import goes by its own id. -/
structure Distinct (set : SchemaSet) : Prop where
  imported : (Keyed.keys set.imported).Nodup
  main : set.main.schema.id ∉ Keyed.keys set.imported
  ids : ∀ e ∈ set.imported, e.2.schema.id = e.1
  types : set.main.schema.Distinct
  importedTypes : ∀ e ∈ set.imported, e.2.schema.Distinct

/-- The places of a set: its schemas, and every type with the places around it. -/
inductive Place (set : SchemaSet) : Scope → Prop
  | main : Place set (Scope.top set.main.schema)
  | imported (e : String × SchemaFile) (h : e ∈ set.imported) : Place set (Scope.top e.2.schema)
  | child (p : TypePath) (s : Schema) (outer : Scope) (e : String × Schema)
      (h : Place set ((p, s) :: outer)) (he : e ∈ s.types) :
      Place set (Scope.child ((p, s) :: outer) e.1 e.2)

end SchemaSet

namespace Schema

theorem at?_append (s : Schema) (p q : List String) :
    s.at? (p ++ q) = (s.at? p).bind fun t => t.at? q := by
  induction p generalizing s with
  | nil => rfl
  | cons name p ih =>
    rw [List.cons_append, at?, at?]
    cases Keyed.get? s.types name with
    | none => rfl
    | some t => exact ih t

theorem distinct_at? (s t : Schema) (p : List String) (hd : s.Distinct) (h : s.at? p = some t) :
    t.Distinct := by
  induction p generalizing s with
  | nil =>
    cases h
    exact hd
  | cons name p ih =>
    rw [at?] at h
    split at h
    next u hu =>
      have hm := Keyed.mem_of_get? _ _ _ hu
      exact ih u (((distinct_iff s).mp hd).2 _ hm) h
    next => cases h

end Schema

theorem Scope.descend?_eq (here : TypePath × Schema) (names : List String) :
    Scope.descend? here names = (here.2.at? names).map fun t => (here.1 ++ names, t) := by
  induction names generalizing here with
  | nil => simp [Scope.descend?, Schema.at?]
  | cons name rest ih =>
    obtain ⟨p, s⟩ := here
    rw [Scope.descend?, Schema.at?]
    cases Keyed.get? s.types name with
    | none => rfl
    | some t => simp [ih]

namespace SchemaSet

theorem at?_append (set : SchemaSet) (p q : TypePath) (hp : p ≠ []) :
    set.at? (p ++ q) = (set.at? p).bind fun s => s.at? q := by
  cases p with
  | nil => exact absurd rfl hp
  | cons first rest =>
    simp only [at?, List.cons_append]
    cases set.top? first with
    | none => rfl
    | some here => exact here.2.at?_append rest q

theorem top?_main (set : SchemaSet) (hd : set.Distinct) :
    set.top? set.main.schema.id = some ([set.main.schema.id], set.main.schema) := by
  have h : Keyed.get? set.imported set.main.schema.id = none := by
    rw [← Option.not_isSome_iff_eq_none, Keyed.get?_isSome]
    exact hd.main
  simp [top?, h]

theorem top?_imported (set : SchemaSet) (hd : set.Distinct) (e : String × SchemaFile)
    (he : e ∈ set.imported) : set.top? e.1 = some ([e.1], e.2.schema) := by
  simp [top?, Keyed.get?_of_mem set.imported e.1 e.2 hd.imported he]

theorem top?_eq_some (set : SchemaSet) (hd : set.Distinct) (name : String)
    (here : TypePath × Schema) (h : set.top? name = some here) :
    here.1 = [name] ∧ here.2.Distinct := by
  rw [top?] at h
  split at h
  next f hf =>
    cases h
    exact ⟨rfl, hd.importedTypes _ (Keyed.mem_of_get? _ _ _ hf)⟩
  next =>
    split at h
    · cases h
      exact ⟨rfl, hd.types⟩
    · cases h

theorem distinct_at? (set : SchemaSet) (hd : set.Distinct) (p : TypePath) (t : Schema)
    (h : set.at? p = some t) : t.Distinct := by
  cases p with
  | nil => cases h
  | cons first rest =>
    simp only [at?, Option.bind_eq_some_iff, Option.map_eq_some_iff] at h
    obtain ⟨s, ⟨here, hh, rfl⟩, hs⟩ := h
    exact Schema.distinct_at? _ t rest (top?_eq_some set hd first here hh).2 hs

end SchemaSet

def Model.Outlines (m : Model) (set : SchemaSet) : Prop :=
  m.types.map TypeDef.path = (Build.allShells set).map fun t => t.1.path

namespace Build

mutual

theorem mem_shells (path q : TypePath) : (s : Schema) → s.Distinct →
    (q ∈ (shells path s).map (fun t => t.1.path) ↔
      ∃ rest, q = path ++ rest ∧ (s.at? rest).isSome)
  | .mk b ts, h => by
    have hm := mem_nestedShells path q ts h.2
    simp only [shells, List.map_cons, List.mem_cons, hm]
    constructor
    · rintro (rfl | ⟨e, he, rest, rfl, hs⟩)
      · exact ⟨[], by simp, rfl⟩
      · refine ⟨e.1 :: rest, rfl, ?_⟩
        have : Keyed.get? ts e.1 = some e.2 := Keyed.get?_of_mem ts e.1 e.2 h.1 he
        simpa [Schema.at?, Schema.types, this] using hs
    · rintro ⟨rest, rfl, hs⟩
      cases rest with
      | nil => simp
      | cons name rest =>
        right
        rw [Schema.at?] at hs
        split at hs
        next t ht => exact ⟨(name, t), Keyed.mem_of_get? _ _ _ ht, rest, rfl, hs⟩
        next => cases hs

theorem mem_nestedShells (path q : TypePath) : (ts : List (String × Schema)) →
    Schema.DistinctIn ts →
    (q ∈ (nestedShells path ts).map (fun t => t.1.path) ↔
      ∃ e ∈ ts, ∃ rest, q = path ++ e.1 :: rest ∧ (e.2.at? rest).isSome)
  | [], _ => by simp [nestedShells]
  | (name, s) :: ts, h => by
    have hs := mem_shells (path ++ [name]) q s h.1
    have hr := mem_nestedShells path q ts h.2
    rw [nestedShells, List.map_append, List.mem_append, hs, hr]
    simp

end

theorem mem_allShells (set : SchemaSet) (hd : set.Distinct) (q : TypePath) :
    q ∈ (allShells set).map (fun t => t.1.path) ↔ (set.at? q).isSome := by
  have hi : q ∈ (set.imported.flatMap fun e => shells [e.1] e.2.schema).map (fun t => t.1.path) ↔
      ∃ e ∈ set.imported, ∃ rest, q = e.1 :: rest ∧ (e.2.schema.at? rest).isSome := by
    rw [List.map_flatMap, List.mem_flatMap]
    refine exists_congr fun e => and_congr_right fun he => ?_
    exact mem_shells [e.1] q e.2.schema (hd.importedTypes e he)
  rw [allShells, List.map_append, List.mem_append, mem_shells _ q _ hd.types, hi]
  constructor
  · rintro (⟨rest, rfl, hs⟩ | ⟨e, he, rest, rfl, hs⟩)
    · simpa [SchemaSet.at?, SchemaSet.top?_main set hd] using hs
    · simpa [SchemaSet.at?, SchemaSet.top?_imported set hd e he] using hs
  · intro h
    cases q with
    | nil => cases h
    | cons first rest =>
      simp only [SchemaSet.at?, SchemaSet.top?] at h
      cases hf : Keyed.get? set.imported first with
      | some f =>
        right
        exact ⟨(first, f), Keyed.mem_of_get? _ _ _ hf, rest, rfl, by simpa [hf] using h⟩
      | none =>
        left
        by_cases hid : set.main.schema.id = first
        · exact ⟨rest, by simp [hid], by simpa [hf, hid] using h⟩
        · simp [hf, hid] at h

end Build

theorem Model.has_iff (m : Model) (q : TypePath) : m.has q ↔ q ∈ m.types.map TypeDef.path := by
  simp [Model.has, Model.find?, List.find?_isSome]

theorem Model.Outlines.has_iff (m : Model) (set : SchemaSet) (hd : set.Distinct)
    (h : m.Outlines set) (q : TypePath) : m.has q = (set.at? q).isSome := by
  rw [Bool.eq_iff_iff, Model.has_iff, h, Build.mem_allShells set hd]

theorem enclosing_snoc (p : TypePath) (name : String) :
    enclosing (p ++ [name]) = (p ++ [name]) :: enclosing p := by
  rw [enclosing, List.length_append, List.length_singleton, List.range_succ_eq_map, List.map_cons,
    List.map_map]
  have h : List.map ((fun i => (p ++ [name]).take (p.length + 1 - i)) ∘ Nat.succ)
      (List.range p.length) = enclosing p := by
    refine List.map_congr_left fun i _ => ?_
    simp only [Function.comp, Nat.succ_eq_add_one, Nat.add_sub_add_right]
    rw [List.take_append_of_le_length (by omega)]
  rw [h, Nat.sub_zero, List.take_of_length_le (by simp)]

namespace SchemaSet

theorem Place.at? (set : SchemaSet) (hd : set.Distinct) (sc : Scope) (h : set.Place sc) :
    ∀ e ∈ sc, e.1 ≠ [] ∧ set.at? e.1 = some e.2 := by
  induction h with
  | main =>
    intro e he
    obtain rfl := List.mem_singleton.mp he
    simp [SchemaSet.at?, top?_main set hd, Schema.at?]
  | imported e he =>
    intro e' he'
    obtain rfl := List.mem_singleton.mp he'
    simp [SchemaSet.at?, hd.ids e he, top?_imported set hd e he, Schema.at?]
  | child p s outer e _ he ih =>
    intro e' he'
    rcases List.mem_cons.mp he' with rfl | he'
    · obtain ⟨hp, hs⟩ := ih (p, s) (by simp)
      refine ⟨by simp, ?_⟩
      have hk := ((Schema.distinct_iff s).mp (distinct_at? set hd p s hs)).1
      have := Keyed.get?_of_mem s.types e.1 e.2 hk he
      simp [Scope.path, at?_append set p [e.1] hp, hs, Schema.at?, this]
    · exact ih e' he'

theorem at?_child (set : SchemaSet) (p : TypePath) (s : Schema) (hp : p ≠ [])
    (hs : set.at? p = some s) (name : String) :
    set.at? (p ++ [name]) = Keyed.get? s.types name := by
  rw [at?_append set p [name] hp, hs, Option.bind_some, Schema.at?]
  cases Keyed.get? s.types name with
  | none => rfl
  | some t => rfl

end SchemaSet

section

variable (set : SchemaSet) (hd : set.Distinct) (m : Model) (hm : m.Outlines set)

include hd hm

theorem startAt_top (s : Schema) (name : String) (hs : set.at? [s.id] = some s) :
    (Scope.start? (Scope.top s) name).map Prod.fst = m.startAt name [s.id] := by
  have hh := Model.Outlines.has_iff m set hd hm ([s.id] ++ [name])
  rw [set.at?_child [s.id] s (by simp) hs name] at hh
  rw [Model.startAt, hh, Scope.top, Scope.start?]
  cases Keyed.get? s.types name with
  | some t => simp
  | none =>
    by_cases hid : s.id = name
    · simp [hid]
    · simp [hid, Scope.start?]

theorem startAt_child (p : TypePath) (s t : Schema) (key : String) (outer : Scope) (name : String)
    (hp : p ≠ []) (ht : set.at? (p ++ [key]) = some t) :
    (Scope.start? ((p ++ [key], t) :: (p, s) :: outer) name).map Prod.fst
      = (m.startAt name (p ++ [key])).or ((Scope.start? ((p, s) :: outer) name).map Prod.fst) := by
  have hh := Model.Outlines.has_iff m set hd hm (p ++ [key] ++ [name])
  rw [set.at?_child (p ++ [key]) t (by simp) ht name] at hh
  have hne : p ++ [key] ≠ [name] := by
    intro e
    have := congrArg List.length e
    simp at this
    exact hp this
  rw [Model.startAt, hh, if_neg hne, Scope.start?]
  cases Keyed.get? t.types name with
  | some u => simp
  | none => simp

theorem start?_path (sc : Scope) (h : set.Place sc) (name : String) :
    (Scope.start? sc name).map Prod.fst
      = (enclosing (Scope.path sc)).findSome? (m.startAt name) := by
  induction h with
  | main =>
    have hs := SchemaSet.Place.at? set hd _ SchemaSet.Place.main _ (List.mem_singleton_self _)
    rw [startAt_top set hd m hm _ name hs.2]
    simp [Scope.path, Scope.top, enclosing]
  | imported e he =>
    have hs := SchemaSet.Place.at? set hd _ (SchemaSet.Place.imported e he) _
      (List.mem_singleton_self _)
    rw [startAt_top set hd m hm _ name hs.2]
    simp [Scope.path, Scope.top, enclosing]
  | child p s outer e h he ih =>
    have hs := SchemaSet.Place.at? set hd _ h (p, s) (by simp)
    have ht := SchemaSet.Place.at? set hd _ (SchemaSet.Place.child p s outer e h he)
      (p ++ [e.1], e.2) (by simp [Scope.child, Scope.path])
    have hstep := startAt_child set hd m hm p s e.2 e.1 outer name hs.1 ht.2
    rw [ih] at hstep
    simp only [Scope.child, Scope.path, List.head?_cons, Option.map_some, Option.getD_some]
      at hstep ⊢
    rw [hstep, enclosing_snoc, List.findSome?_cons]
    cases m.startAt name (p ++ [e.1]) with
    | none => rfl
    | some q => rfl

omit hm in
theorem start?_at? (sc : Scope) (h : set.Place sc) (name : String) (here : TypePath × Schema)
    (hs : Scope.start? sc name = some here) : here.1 ≠ [] ∧ set.at? here.1 = some here.2 := by
  have hat := SchemaSet.Place.at? set hd sc h
  clear h
  induction sc with
  | nil => cases hs
  | cons e outer ih =>
    obtain ⟨p, s⟩ := e
    obtain ⟨hp, hps⟩ := hat (p, s) (by simp)
    rw [Scope.start?] at hs
    split at hs
    next t ht =>
      cases hs
      exact ⟨by simp, by rw [set.at?_child p s hp hps name, ht]⟩
    next =>
      split at hs
      · cases hs
        exact ⟨hp, hps⟩
      · exact ih hs fun e he => hat e (List.mem_cons_of_mem _ he)

theorem top?_path (name : String) :
    (set.top? name).map Prod.fst = if m.has [name] then some [name] else none := by
  rw [Model.Outlines.has_iff m set hd hm [name]]
  cases ht : set.top? name with
  | none => simp [SchemaSet.at?, ht]
  | some here =>
    have := (SchemaSet.top?_eq_some set hd name here ht).1
    simp [SchemaSet.at?, ht, this, Schema.at?]

omit hd hm in
theorem top?_at? (name : String) (here : TypePath × Schema) (h : set.top? name = some here)
    (hp : here.1 = [name]) : set.at? here.1 = some here.2 := by
  simp [hp, SchemaSet.at?, h, Schema.at?]

theorem descend?_path (here : TypePath × Schema) (hp : here.1 ≠ [])
    (hs : set.at? here.1 = some here.2) (names : List String) :
    (Scope.descend? here names).map Prod.fst = m.descend? here.1 names := by
  induction names generalizing here with
  | nil => simp [Scope.descend?, Model.descend?]
  | cons name rest ih =>
    obtain ⟨p, s⟩ := here
    have hc := set.at?_child p s hp hs name
    rw [Scope.descend?, Model.descend?, Model.Outlines.has_iff m set hd hm, hc]
    cases hg : Keyed.get? s.types name with
    | none => simp
    | some t =>
      rw [hg] at hc
      simpa using ih (p ++ [name], t) (by simp) hc

omit hd hm in
theorem descend?_at? (here there : TypePath × Schema) (hp : here.1 ≠ [])
    (hs : set.at? here.1 = some here.2) (names : List String)
    (h : Scope.descend? here names = some there) : set.at? there.1 = some there.2 := by
  rw [Scope.descend?_eq, Option.map_eq_some_iff] at h
  obtain ⟨t, ht, rfl⟩ := h
  rw [set.at?_append here.1 names hp, hs, Option.bind_some, ht]

omit hm in
theorem first_at? (sc : Scope) (h : set.Place sc) (name : String) (here : TypePath × Schema)
    (hs : (Scope.start? sc name).or (set.top? name) = some here) :
    here.1 ≠ [] ∧ set.at? here.1 = some here.2 := by
  rcases Option.or_eq_some_iff.mp hs with hs | ⟨_, ht⟩
  · exact start?_at? set hd sc h name here hs
  · have hp := (SchemaSet.top?_eq_some set hd name here ht).1
    exact ⟨by simp [hp], top?_at? set name here ht hp⟩

theorem lookupType_path (sc : Scope) (h : set.Place sc) (name : String) :
    m.lookupType (Scope.path sc) name = (set.lookupType sc name).map Prod.fst := by
  rw [Model.lookupType, SchemaSet.lookupType]
  cases Text.splitOn name "::" with
  | nil => rfl
  | cons first rest =>
    simp only
    rw [← start?_path set hd m hm sc h first, ← top?_path set hd m hm first, ← Option.map_or]
    cases hf : (Scope.start? sc first).or (set.top? first) with
    | none => rfl
    | some here =>
      obtain ⟨hp, hs⟩ := first_at? set hd sc h first here hf
      exact (descend?_path set hd m hm here hp hs rest).symm

omit hm in
theorem lookupType_at? (sc : Scope) (h : set.Place sc) (name : String)
    (there : TypePath × Schema) (ht : set.lookupType sc name = some there) :
    set.at? there.1 = some there.2 := by
  rw [SchemaSet.lookupType] at ht
  split at ht
  next => cases ht
  next first rest _ =>
    split at ht
    next here hf =>
      obtain ⟨hp, hs⟩ := first_at? set hd sc h first here hf
      exact descend?_at? set here there hp hs rest ht
    next => cases ht

theorem has_place (sc : Scope) (h : set.Place sc) : m.has (Scope.path sc) := by
  cases sc with
  | nil => cases h
  | cons e outer =>
    have := (SchemaSet.Place.at? set hd _ h e (by simp)).2
    rw [Model.Outlines.has_iff m set hd hm]
    simp [Scope.path, this]

end

def Build.outline (set : SchemaSet) : Model := ⟨(Build.allShells set).map Prod.fst⟩

theorem Build.outline_outlines (set : SchemaSet) : (Build.outline set).Outlines set := by
  simp [Build.outline, Model.Outlines]

theorem Model.build_outlines (o : Options) (set : SchemaSet) (m : Model)
    (h : Model.build o set = .ok m) : m.Outlines set := by
  obtain ⟨withEnums, withPools, types, h₁, h₂, h₃, hm⟩ := Model.build_ok o set m h
  have e₁ : withEnums.map (fun t => t.1.path) = (Build.allShells set).map fun t => t.1.path := by
    refine mapM_map_eq _ _ _ (fun t u h => ?_) _ _ h₁
    obtain ⟨es, -, h⟩ := (bind_eq_ok _ _ _).mp h
    exact congrArg (fun t => t.1.path) ((pure_eq_ok _ _).mp h).symm
  have e₂ : withPools.map (fun t => t.1.path) = withEnums.map fun t => t.1.path := by
    refine mapM_map_eq _ _ _ (fun t u h => ?_) _ _ h₂
    obtain ⟨pool, -, h⟩ := (bind_eq_ok _ _ _).mp h
    exact congrArg (fun t => t.1.path) ((pure_eq_ok _ _).mp h).symm
  have e₃ : types.map TypeDef.path = withPools.map fun t => t.1.path := by
    refine mapM_map_eq _ _ _ (fun t u h => ?_) _ _ h₃
    obtain ⟨fields, -, h⟩ := (bind_eq_ok _ _ _).mp h
    obtain ⟨instances, -, h⟩ := (bind_eq_ok _ _ _).mp h
    rw [← (pure_eq_ok _ _).mp h]
  rw [Model.Outlines, hm, List.map_map]
  exact e₃.trans (e₂.trans e₁)

/-- From every place of a set a name leads to the same path whether it is looked up among the
schemas or, from the type at the path of the place, among the types of the model; it leads nowhere
in both or in neither. It does not matter whether the members are there yet. -/
theorem Model.lookupType_iff (set : SchemaSet) (hd : set.Distinct) (m : Model)
    (hm : m = Build.outline set ∨ ∃ o, Model.build o set = .ok m) (sc : Scope)
    (hsc : set.Place sc) (name : String) :
    m.has (Scope.path sc) ∧
      (∀ q, (∃ s, set.at? q = some s ∧ set.lookupType sc name = some (q, s)) ↔
        m.lookupType (Scope.path sc) name = some q) ∧
      (set.lookupType sc name = none ↔ m.lookupType (Scope.path sc) name = none) := by
  have ho : m.Outlines set := by
    rcases hm with rfl | ⟨o, h⟩
    · exact Build.outline_outlines set
    · exact Model.build_outlines o set m h
  rw [lookupType_path set hd m ho sc hsc name]
  refine ⟨has_place set hd m ho sc hsc, fun q => ?_, by simp⟩
  constructor
  · rintro ⟨s, -, h⟩
    simp [h]
  · intro h
    obtain ⟨⟨p, s⟩, hs, rfl⟩ := Option.map_eq_some_iff.mp h
    exact ⟨s, lookupType_at? set hd sc hsc name (p, s) hs, hs⟩

def shadowed.part : Schema := .mk {} [("leaf", .mk {} [])]

def shadowed.side : Schema :=
  .mk { head := { Meta.empty with id := "side" } } [("part", shadowed.part)]

/-- A type of the main schema has the name of an import, whose types see the main one by its id. -/
def shadowed : SchemaSet :=
  ⟨⟨"main.ksy", .mk { head := { Meta.empty with id := "main" } }
      [("part", .mk {} [("deep", shadowed.part)]), ("side", .mk {} [])]⟩,
    [("side", ⟨"side.ksy", shadowed.side⟩)]⟩

theorem shadowed_distinct : shadowed.Distinct where
  imported := by decide
  main := by decide
  ids := by simp [shadowed, shadowed.side, Schema.id, Schema.body]
  types := by simp [shadowed, shadowed.part, Schema.Distinct, Schema.DistinctIn, Keyed.keys]
  importedTypes := by
    simp [shadowed, shadowed.side, shadowed.part, Schema.Distinct, Schema.DistinctIn, Keyed.keys]

theorem Model.lookupType_iff_shadowed :
    ∃ m s sc, Model.build {} shadowed = .ok m ∧ Scope.path sc = ["side", "part"] ∧
      m.lookupType (Scope.path sc) "main::part::deep" = some ["main", "part", "deep"] ∧
      shadowed.lookupType sc "main::part::deep" = some (["main", "part", "deep"], s) := by
  obtain ⟨m, hm, hl⟩ := exists_ok_of_toOption_map (Model.build {} shadowed)
    (fun m => m.lookupType ["side", "part"] "main::part::deep")
    (some ["main", "part", "deep"]) (by decide +kernel)
  have htop : shadowed.Place (Scope.top shadowed.side) :=
    SchemaSet.Place.imported ("side", ⟨"side.ksy", shadowed.side⟩) (List.mem_singleton_self _)
  have hsc : shadowed.Place (Scope.child (Scope.top shadowed.side) "part" shadowed.part) :=
    SchemaSet.Place.child _ _ [] ("part", shadowed.part) htop (List.mem_singleton_self _)
  obtain ⟨-, h, -⟩ := Model.lookupType_iff shadowed shadowed_distinct m (.inr ⟨{}, hm⟩) _ hsc
    "main::part::deep"
  obtain ⟨s, -, hs⟩ := (h _).mpr hl
  exact ⟨m, s, Scope.child (Scope.top shadowed.side) "part" shadowed.part, hm, rfl, hl, hs⟩

end FormatFuzz
