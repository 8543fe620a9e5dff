import FormatFuzz.Proofs.Model.EnumPaths

/-!
# The types that fields refer to

Whatever type a field of a compiled model refers to, by its own type or by a case or the default of
a switch, was found by a name and is a type of the model. The users that were noted for a type while
the model was built are the types with such a field. This rests on the keys of a switch: were one
given twice, the default under the first would be noted and then lost.
-/

set_option autoImplicit false

namespace FormatFuzz

namespace Model

theorem has_of_descend? (m : Model) (p q : TypePath) (names : List String)
    (h : m.descend? p names = some q) (hp : m.has p = true) : m.has q = true := by
  induction names generalizing p with
  | nil =>
    cases h
    exact hp
  | cons name names ih =>
    rw [descend?] at h
    split at h
    next hname => exact ih _ h hname
    next => cases h

theorem has_of_lookupType (m : Model) (hm : m.Nested) (here p : TypePath) (name : String)
    (hhere : m.has here = true) (h : m.lookupType here name = some p) : m.has p = true := by
  cases hsplit : Text.splitOn name "::" with
  | nil => simp [lookupType, hsplit] at h
  | cons first rest =>
    rw [lookupType_split m here name first rest hsplit] at h
    obtain ⟨q, hq, hp⟩ := Option.bind_eq_some_iff.mp h
    refine m.has_of_descend? q p rest hp ?_
    rcases Option.or_eq_some_iff.mp hq with hq | ⟨-, hq⟩
    · obtain ⟨outer, hne, hpre, hq, -⟩ := (findSome?_enclosing _ _ _).mp hq
      rw [startAt] at hq
      split at hq
      next hhas =>
        cases hq
        exact hhas
      next =>
        split at hq
        · cases hq
          exact hm.above _ here hne hpre hhere
        · cases hq
    · split at hq
      next hhas =>
        cases hq
        exact hhas
      next => cases hq

end Model

namespace Build

variable (m : Model) (here : TypePath)

theorem mem_usedBy (names : List String) (p : TypePath) :
    p ∈ usedBy m here names ↔ ∃ name ∈ names, findType m here name = .ok (.user p) := by
  rw [usedBy, List.mem_flatMap]
  refine exists_congr fun name => and_congr_right fun _ => ?_
  cases h : findType m here name with
  | error e => simp
  | ok r =>
    rcases findType_cases m here name r h with ⟨q, rfl, -⟩ | ⟨q, rfl, -⟩
    · simp [TypeRef.users]
    · simp [TypeRef.users, eq_comm]

theorem caseType_ok (key name : String) (p : TypePath)
    (h : caseType (findType m here) key name = .ok p) : findType m here name = .ok (.user p) := by
  obtain ⟨r, hr, h⟩ := (bind_eq_ok _ _ _).mp h
  cases r with
  | user q =>
    cases h
    exact hr
  | _ => cases h

theorem usedBy_case (key name : String) (p : TypePath)
    (h : caseType (findType m here) key name = .ok p) : usedBy m here [name] = [p] := by
  simp [usedBy, caseType_ok m here key name p h, TypeRef.users]

theorem switchCases_default (entries : List (String × String)) (cases : List (Expr × TypePath))
    (default : Option TypePath) (h : switchCases (findType m here) entries = .ok (cases, default))
    (hkeys : "_" ∉ Keyed.keys entries) : default = none := by
  induction entries generalizing cases default with
  | nil =>
    cases h
    rfl
  | cons e entries ih =>
    obtain ⟨hkey, hkeys⟩ := not_or.mp (mt List.mem_cons.mpr hkeys)
    obtain ⟨p, -, h⟩ := (bind_eq_ok _ _ _).mp h
    rw [if_neg (Ne.symm hkey)] at h
    split at h
    · cases h
    · obtain ⟨⟨rest, other⟩, hrest, h⟩ := (bind_eq_ok _ _ _).mp h
      obtain ⟨-, rfl⟩ := Prod.mk.inj ((pure_eq_ok _ _).mp h)
      exact ih rest other hrest hkeys

theorem mem_switchCases (entries : List (String × String)) (cases : List (Expr × TypePath))
    (default : Option TypePath) (h : switchCases (findType m here) entries = .ok (cases, default))
    (hkeys : (Keyed.keys entries).Nodup) (p : TypePath) :
    p ∈ cases.map Prod.snd ++ default.toList ↔ p ∈ usedBy m here (entries.map Prod.snd) := by
  induction entries generalizing cases default with
  | nil =>
    cases h
    rfl
  | cons e entries ih =>
    obtain ⟨hkey, hkeys⟩ := List.nodup_cons.mp hkeys
    obtain ⟨q, hq, h⟩ := (bind_eq_ok _ _ _).mp h
    rw [List.map_cons, usedBy_cons, usedBy_case m here e.1 e.2 q hq, List.singleton_append,
      List.mem_cons]
    split at h
    next hdefault =>
      obtain ⟨⟨rest, other⟩, hrest, h⟩ := (bind_eq_ok _ _ _).mp h
      obtain ⟨rfl, rfl⟩ := Prod.mk.inj ((pure_eq_ok _ _).mp h)
      obtain rfl := switchCases_default m here entries rest other hrest (hdefault ▸ hkey)
      rw [← ih rest none hrest hkeys]
      simp [or_comm]
    next =>
      split at h
      · cases h
      · obtain ⟨⟨rest, other⟩, hrest, h⟩ := (bind_eq_ok _ _ _).mp h
        obtain ⟨rfl, rfl⟩ := Prod.mk.inj ((pure_eq_ok _ _).mp h)
        rw [← ih rest other hrest hkeys, List.map_cons, List.cons_append, List.mem_cons]

theorem mem_typeRef (a : Attr) (r : TypeRef) (h : typeRef (findType m here) a = .ok r)
    (hkeys : (Keyed.keys (Decode.casesOf a.type)).Nodup) (p : TypePath) :
    p ∈ r.users ↔ p ∈ usedBy m here (lookedUp a) := by
  unfold typeRef at h
  split at h
  next on entries htype =>
    obtain ⟨x, -, h⟩ := (bind_eq_ok _ _ _).mp h
    obtain ⟨⟨cases', default'⟩, hcases, h⟩ := (bind_eq_ok _ _ _).mp h
    cases h
    rw [htype] at hkeys
    rw [lookedUp, htype]
    exact mem_switchCases m here entries cases' default' hcases hkeys p
  next htype =>
    cases h
    rw [lookedUp, htype]
    rfl
  next name hne htype =>
    rw [lookedUp, htype]
    dsimp only
    rw [if_neg fun h => hne h]
    simp [usedBy, h]
  next htype =>
    cases h
    rw [lookedUp, htype]
    rfl

theorem Makes.mem_usedIn {o : Options} {b : Model} {x : TypeDef × SchemaBody} {t : TypeDef}
    (h : Makes o b x t) (hkeys : x.2.KeysOnce) (p : TypePath) :
    p ∈ usedIn b x.1.path x.2.seq ↔ ∃ f ∈ t.fields, p ∈ f.type.users := by
  have hfields := mapM_eq_ok _ _ _ h.fields
  have huses : ∀ a ∈ x.2.seq, ∀ f, fieldAt o b t.path a = .ok f →
      (p ∈ f.type.users ↔ p ∈ usedBy b t.path (lookedUp a)) := fun a ha f hf =>
    mem_typeRef b t.path a f.type (field_ok o b t.path a f hf).type
      (hkeys a (List.mem_append_left _ ha)) p
  rw [h.path, usedIn, List.mem_flatMap]
  constructor
  · rintro ⟨a, ha, hp⟩
    obtain ⟨f, hf, haf⟩ := forall₂_mem_left _ _ _ hfields a ha
    exact ⟨f, hf, (huses a ha f haf).mpr hp⟩
  · rintro ⟨f, hf, hp⟩
    obtain ⟨a, ha, haf⟩ := forall₂_mem_right _ _ _ hfields f hf
    exact ⟨a, ha, (huses a ha f haf).mp hp⟩

end Build

namespace Model

/-- The types with a field that can hold objects of a type, in the order of all types. -/
def holders (m : Model) (p : TypePath) : List TypePath :=
  distinct ((m.types.filter fun t => t.fields.any fun f => f.type.users.contains p).map
    TypeDef.path)

variable (o : Options) (set n : SchemaSet) (m : Model)

theorem build_refers (h : build o n = .ok m) (hkeys : ∀ x ∈ Build.allShells n, x.2.KeysOnce)
    (t : TypeDef) (ht : t ∈ m.types) (f : Field) (hf : f ∈ t.fields) (p : TypePath)
    (hp : p ∈ f.type.users) : m.has p = true := by
  obtain ⟨b, hsame, hmakes, -⟩ := build_each o n m h
  obtain ⟨x, hx, hxt⟩ := forall₂_mem_right _ _ _ hmakes t ht
  have hused := (hxt.mem_usedIn (hkeys x hx) p).mpr ⟨f, hf, hp⟩
  obtain ⟨a, -, hused⟩ := List.mem_flatMap.mp hused
  obtain ⟨name, -, hfind⟩ := (Build.mem_usedBy b _ _ p).mp hused
  rcases Build.findType_cases b _ name _ hfind with ⟨q, hq, -⟩ | ⟨q, hq, hlookup⟩
  · cases hq
  · cases hq
    rw [hxt.path, hsame.lookupType] at hlookup
    have hnested := (build_outlines o n m h).nested
    have hhere := (m.has_iff t.path).mpr (List.mem_map_of_mem ht)
    exact m.has_of_lookupType hnested t.path p name hhere hlookup

theorem build_users (h : build o n = .ok m) (hkeys : ∀ x ∈ Build.allShells n, x.2.KeysOnce)
    (t : TypeDef) (ht : t ∈ m.types) : t.users = m.holders t.path := by
  obtain ⟨b, -, hmakes, husers⟩ := build_each o n m h
  rw [husers t ht]
  refine congrArg distinct (filter_map_of_forall₂ _ _ _ _
    ((List.forall₂_and_left _ _).mpr ⟨hkeys, hmakes⟩) ?_)
  rintro x u ⟨hx, hxu⟩
  refine ⟨hxu.path, ?_⟩
  rw [Bool.eq_iff_iff, List.contains_iff_mem, hxu.mem_usedIn hx]
  simp

variable (hm : compile o set = .ok m)

include hm

theorem compile_users (t : TypeDef) (ht : t ∈ m.types) (f : Field) (hf : f ∈ t.fields)
    (p : TypePath) (hp : p ∈ f.type.users) : ∃ v ∈ m.types, v.path = p := by
  obtain ⟨n, b, hn, hb, hus⟩ := compile_each o set m hm
  have hkeys := Build.all_allShells _ n (SchemaSet.normalize_keysOnce o set n hn)
  obtain ⟨t', ht', find?, htt'⟩ := forall₂_mem_right _ _ _ hus t ht
  obtain ⟨g, hg, htype⟩ := List.mem_map.mp (Resolve.types_kept find? t' t htt' ▸ List.mem_map_of_mem hf)
  have hhas := build_refers o n b hb hkeys t' ht' g hg p (htype ▸ hp)
  obtain ⟨v', hv', rfl⟩ := List.mem_map.mp ((b.has_iff p).mp hhas)
  obtain ⟨v, hv, find?, hvv'⟩ := forall₂_mem_left _ _ _ hus v' hv'
  exact ⟨v, hv, (Resolve.typeDef_keeps find? v' v hvv').1⟩

theorem compile_holders (p : TypePath) : m.users p = m.holders p := by
  obtain ⟨n, b, hn, hb, hus⟩ := compile_each o set m hm
  have hkeys := Build.all_allShells _ n (SchemaSet.normalize_keysOnce o set n hn)
  have hsame : b.holders p = m.holders p := by
    refine congrArg distinct (filter_map_of_forall₂ _ _ _ _ hus ?_)
    rintro t u ⟨find?, hu⟩
    refine ⟨(Resolve.typeDef_keeps find? t u hu).1.symm, ?_⟩
    have htypes := congrArg (List.any · fun r => r.users.contains p) (Resolve.types_kept find? t u hu)
    rwa [List.any_map, List.any_map] at htypes
  cases hfind : m.find? p with
  | none =>
    -- no field leads to a type that the model does not have
    have hnone : m.types.filter (fun t => t.fields.any fun f => f.type.users.contains p) = [] := by
      simp only [List.filter_eq_nil_iff, List.any_eq_true, List.contains_iff_mem, not_exists,
        not_and]
      intro t ht f hf hp
      obtain ⟨v, hv, hpath⟩ := compile_users o set m hm t ht f hf p hp
      simpa [hpath] using List.find?_eq_none.mp hfind v hv
    rw [users, hfind, holders, hnone]
    rfl
  | some u =>
    have hu : u ∈ m.types := List.mem_of_find?_eq_some hfind
    have hpath : u.path = p := by simpa using List.find?_some hfind
    obtain ⟨t, ht, find?, htu⟩ := forall₂_mem_right _ _ _ hus u hu
    obtain ⟨hkept, -, -, husers⟩ := Resolve.typeDef_keeps find? t u htu
    rw [users, hfind, ← hsame, ← hpath, hkept, ← build_users o n b hb hkeys t ht]
    exact husers

end Model

end FormatFuzz
