import FormatFuzz.Proofs.Model.Members
import FormatFuzz.Proofs.Model.TypeNames
import FormatFuzz.Proofs.Path

/-!
# Choices by bare names

A bare name among the choices of a field is stored as a member of the enum of the field, under a
path that is looked up again from the type of the field. A search goes outwards from there, so the
path leads to the enum unless a type on the way out redirects it: by an enum of the same name, or,
for the full path, by a nested type with the name of the outermost type of the path.
-/

set_option autoImplicit false

namespace FormatFuzz

namespace Text

theorem splitOn_join_suffix (parts : List String)
    (h : splitOn (join "::" parts) "::" <:+ parts) : splitOn (join "::" parts) "::" = parts := by
  obtain ⟨front, hfront⟩ := h
  have hne : splitOn (join "::" parts) "::" ≠ [] := by
    simp [splitOn, splitAux_ne_nil]
  by_cases hf : front = []
  · simpa [hf] using hfront
  · have hlen := congrArg (fun ps => (join "::" ps).length) hfront
    simp only [join_append "::" front _ hf hne, join_splitOn, String.length_append] at hlen
    have hsep : ("::" : String).length = 2 := rfl
    omega

end Text

theorem findSome?_enclosing {α : Type} (f : TypePath → Option α) (here : TypePath) (x : α) :
    (enclosing here).findSome? f = some x ↔
      ∃ p, p ≠ [] ∧ p <+: here ∧ f p = some x ∧
        ∀ q, p <+: q → q <+: here → q ≠ p → f q = none := by
  induction here using List.reverseRecOn with
  | nil =>
    constructor
    · intro h
      cases h
    · rintro ⟨p, hp, hpre, -⟩
      exact absurd (List.prefix_nil.mp hpre) hp
  | append_singleton here name ih =>
    rw [enclosing_snoc, List.findSome?_cons]
    cases hf : f (here ++ [name]) with
    | some y =>
      constructor
      · intro h
        cases h
        exact ⟨here ++ [name], by simp, List.prefix_refl _, hf, fun q hq hq' hne =>
          absurd (hq'.eq_of_length_le hq.length_le) hne⟩
      · rintro ⟨p, -, hpre, hp, hnone⟩
        by_cases he : here ++ [name] = p
        · rw [← hf, he, hp]
        · cases (hnone _ hpre (List.prefix_refl _) he).symm.trans hf
    | none =>
      rw [ih]
      refine exists_congr fun p => and_congr_right fun hp => ?_
      constructor
      · rintro ⟨hpre, hfp, hnone⟩
        refine ⟨hpre.trans (List.prefix_append _ _), hfp, fun q hq hq' hne => ?_⟩
        rcases List.prefix_concat_iff.mp hq' with rfl | hq'
        · exact hf
        · exact hnone q hq hq' hne
      · rintro ⟨hpre, hfp, hnone⟩
        refine ⟨?_, hfp, fun q hq hq' hne => hnone q hq (hq'.trans (List.prefix_append _ _)) hne⟩
        rcases List.prefix_concat_iff.mp hpre with rfl | hpre
        · cases hf.symm.trans hfp
        · exact hpre

theorem findSome?_enclosing_none {α : Type} (f : TypePath → Option α) (here : TypePath) :
    (enclosing here).findSome? f = none ↔ ∀ p, p ≠ [] → p <+: here → f p = none := by
  induction here using List.reverseRecOn with
  | nil =>
    refine iff_of_true rfl fun p hp hpre => absurd (List.prefix_nil.mp hpre) hp
  | append_singleton here name ih =>
    rw [enclosing_snoc, List.findSome?_cons]
    constructor
    · intro h p hp hpre
      split at h
      next => cases h
      next hnone =>
        rcases List.prefix_concat_iff.mp hpre with rfl | hpre
        · exact hnone
        · exact ih.mp h p hp hpre
    · intro h
      rw [h _ (by simp) (List.prefix_refl _)]
      exact ih.mpr fun p hp hpre => h p hp (hpre.trans (List.prefix_append _ _))

namespace Model

structure Nested (m : Model) : Prop where
  proper : m.has [] = false
  outer (p : TypePath) (name : String) (hp : p ≠ []) (h : m.has (p ++ [name]) = true) :
    m.has p = true

theorem Nested.above {m : Model} (hm : m.Nested) (p q : TypePath) (hp : p ≠ []) (hpq : p <+: q)
    (h : m.has q = true) : m.has p = true := by
  induction q using List.reverseRecOn with
  | nil => exact absurd (List.prefix_nil.mp hpq) hp
  | append_singleton q name ih =>
    rcases List.prefix_concat_iff.mp hpq with rfl | hpq
    · exact h
    · have hq : q ≠ [] := by
        rintro rfl
        exact hp (List.prefix_nil.mp hpq)
      exact ih hpq (hm.outer q name hq h)

end Model

namespace Build

/-- The paths of the types of a schema begin with its own, and the type around each is among them. -/
def Layered (path : TypePath) (paths : List TypePath) : Prop :=
  ∀ q ∈ paths, q = path ∨ ∃ p name, q = p ++ [name] ∧ (p = path ∨ p ∈ paths)

mutual

theorem layered_shells (path : TypePath) : (s : Schema) →
    Layered path ((shells path s).map fun t => t.1.path)
  | .mk b ts => by
    have hnested := layered_nestedShells path ts
    intro q hq
    rw [shells, List.map_cons] at hq ⊢
    rcases List.mem_cons.mp hq with rfl | hq
    · exact .inl rfl
    · rcases hnested q hq with rfl | ⟨p, name, rfl, hp⟩
      · exact .inl rfl
      · exact .inr ⟨p, name, rfl, hp.imp id fun hp => List.mem_cons_of_mem _ hp⟩

theorem layered_nestedShells (path : TypePath) : (ts : List (String × Schema)) →
    Layered path ((nestedShells path ts).map fun t => t.1.path)
  | [] => by simp [Layered, nestedShells]
  | (name, s) :: ts => by
    have hs := layered_shells (path ++ [name]) s
    have hts := layered_nestedShells path ts
    intro q hq
    rw [nestedShells, List.map_append] at hq ⊢
    rcases List.mem_append.mp hq with hq | hq
    · rcases hs q hq with rfl | ⟨p, key, rfl, hp⟩
      · exact .inr ⟨path, name, rfl, .inl rfl⟩
      · refine .inr ⟨p, key, rfl, .inr (List.mem_append_left _ ?_)⟩
        rcases hp with rfl | hp
        · cases s
          simp [shells]
        · exact hp
    · exact (hts q hq).imp id fun ⟨p, key, he, hp⟩ =>
        ⟨p, key, he, hp.imp id fun hp => List.mem_append_right _ hp⟩

end

theorem shells_outer (first : String) (s : Schema) (paths : List TypePath)
    (hpaths : paths = (shells [first] s).map fun t => t.1.path) :
    [] ∉ paths ∧ ∀ (p : TypePath) (name : String), p ≠ [] → p ++ [name] ∈ paths → p ∈ paths := by
  have hlayered := hpaths ▸ layered_shells [first] s
  have hself : [first] ∈ paths := by
    cases s
    simp [hpaths, shells]
  constructor
  · intro h
    rcases hlayered _ h with h | ⟨p, name, h, -⟩ <;> simp at h
  · intro p name hp h
    rcases hlayered _ h with h | ⟨q, key, h, hq⟩
    · cases p with
      | nil => exact absurd rfl hp
      | cons a p => simp at h
    · obtain ⟨rfl, -⟩ := List.append_inj' h rfl
      exact hq.elim (fun he => he ▸ hself) id

end Build

theorem Model.Outlines.nested (m : Model) (set : SchemaSet) (h : m.Outlines set) : m.Nested := by
  have htypes : m.types.map TypeDef.path = (Build.allShells set).map fun t => t.1.path := h
  -- a type stands in the tree of one schema, with all types of that tree
  have htree (q : TypePath) (hq : m.has q = true) : ∃ (first : String) (s : Schema),
      q ∈ (Build.shells [first] s).map (fun t => t.1.path) ∧
        ∀ p ∈ (Build.shells [first] s).map (fun t => t.1.path), m.has p = true := by
    simp only [Model.has_iff, htypes] at hq ⊢
    obtain ⟨x, hx, rfl⟩ := List.mem_map.mp hq
    rcases List.mem_append.mp hx with hx | hx
    · refine ⟨_, _, List.mem_map_of_mem hx, fun p hp => ?_⟩
      obtain ⟨y, hy, rfl⟩ := List.mem_map.mp hp
      exact List.mem_map_of_mem (List.mem_append_left _ hy)
    · obtain ⟨e, he, hx⟩ := List.mem_flatMap.mp hx
      refine ⟨_, _, List.mem_map_of_mem hx, fun p hp => ?_⟩
      obtain ⟨y, hy, rfl⟩ := List.mem_map.mp hp
      exact List.mem_map_of_mem (List.mem_append_right _ (List.mem_flatMap.mpr ⟨e, he, hy⟩))
  refine ⟨?_, fun p name hp hq => ?_⟩
  · rw [Bool.eq_false_iff]
    intro hnil
    obtain ⟨first, s, hq, -⟩ := htree [] hnil
    exact (Build.shells_outer first s _ rfl).1 hq
  · obtain ⟨first, s, hq, hall⟩ := htree _ hq
    exact hall p ((Build.shells_outer first s _ rfl).2 p name hp hq)

namespace Model

def start? (m : Model) (here : TypePath) (first : String) : Option TypePath :=
  ((enclosing here).findSome? (m.startAt first)).or (if m.has [first] then some [first] else none)

theorem lookupType_split (m : Model) (here : TypePath) (name first : String) (rest : List String)
    (h : Text.splitOn name "::" = first :: rest) :
    m.lookupType here name = (m.start? here first).bind fun p => m.descend? p rest := by
  rw [lookupType, h, start?]
  dsimp only
  generalize ((enclosing here).findSome? (m.startAt first)).or _ = s
  cases s <;> rfl

theorem descend?_eq (m : Model) (p q : TypePath) (names : List String)
    (h : m.descend? p names = some q) : q = p ++ names := by
  induction names generalizing p with
  | nil =>
    cases h
    simp
  | cons name names ih =>
    rw [descend?] at h
    split at h
    · simpa using ih _ h
    · cases h

theorem startAt_eq (m : Model) (first : String) (p q : TypePath)
    (h : m.startAt first p = some q) : q = p ++ [first] ∨ q = [first] := by
  unfold startAt at h
  split at h
  · cases h
    exact .inl rfl
  · split at h
    next hp =>
      cases h
      exact .inr hp
    next => cases h

theorem start?_suffix (m : Model) (here p : TypePath) (first : String)
    (h : m.start? here first = some p) : [first] <:+ p := by
  rcases Option.or_eq_some_iff.mp h with h | ⟨-, h⟩
  · obtain ⟨q, -, -, hq, -⟩ := (findSome?_enclosing _ _ _).mp h
    rcases m.startAt_eq first q p hq with rfl | rfl
    · exact List.suffix_append _ _
    · exact List.suffix_refl _
  · split at h
    · cases h
      exact List.suffix_refl _
    · cases h

theorem lookupType_suffix (m : Model) (here p : TypePath) (name : String)
    (h : m.lookupType here name = some p) : Text.splitOn name "::" <:+ p := by
  cases hsplit : Text.splitOn name "::" with
  | nil => exact List.nil_suffix
  | cons first rest =>
    rw [lookupType_split m here name first rest hsplit, Option.bind_eq_some_iff] at h
    obtain ⟨q, hq, hdesc⟩ := h
    obtain ⟨front, rfl⟩ := m.start?_suffix here q first hq
    rw [m.descend?_eq _ _ _ hdesc, List.append_assoc]
    exact List.suffix_append _ _

/-- The search for a name reaches the outermost type of that name unless a type on the way out has
a nested type with it. -/
theorem start?_top (m : Model) (here : TypePath) (first : String)
    (h : m.has [first] = true) :
    m.start? here first = some [first] ↔
      ∀ p, p ≠ [] → p <+: here → m.has (p ++ [first]) = false := by
  constructor
  · intro hs p hp hpre
    rcases Option.or_eq_some_iff.mp hs with hs | ⟨hs, -⟩
    · obtain ⟨q, hq, hqpre, hat, hnear⟩ := (findSome?_enclosing _ _ _).mp hs
      have hq1 : q = [first] ∧ m.has (q ++ [first]) = false := by
        unfold startAt at hat
        split at hat
        · have hnil : q = [] := by simpa using hat
          exact absurd hnil hq
        next hno =>
          split at hat
          next he => exact ⟨he, by simpa using hno⟩
          next => cases hat
      obtain ⟨rfl, hno⟩ := hq1
      by_cases he : p = [first]
      · rw [he]
        exact hno
      · have hbelow : [first] <+: p := by
          obtain ⟨a, p, rfl⟩ := List.exists_cons_of_ne_nil hp
          obtain ⟨b, here, rfl⟩ := List.exists_cons_of_ne_nil (l := here) (by
            rintro rfl
            exact absurd (List.prefix_nil.mp hpre) hp)
          obtain ⟨rfl, -⟩ := List.cons_prefix_cons.mp hpre
          obtain ⟨rfl, -⟩ := List.cons_prefix_cons.mp hqpre
          exact ⟨p, rfl⟩
        have hnone := hnear p hbelow hpre he
        rw [startAt] at hnone
        split at hnone
        · cases hnone
        next hno => simpa using hno
    · have hnone := (findSome?_enclosing_none _ _).mp hs p hp hpre
      rw [startAt] at hnone
      split at hnone
      · cases hnone
      next hno => simpa using hno
  · intro hopen
    rw [start?, if_pos h]
    cases hs : (enclosing here).findSome? (m.startAt first) with
    | none => rfl
    | some q =>
      obtain ⟨p, hp, hpre, hat, -⟩ := (findSome?_enclosing _ _ _).mp hs
      rw [startAt, if_neg (by simp [hopen p hp hpre])] at hat
      split at hat
      next he =>
        cases hat
        rw [he]
        rfl
      next => cases hat

section

variable {m : Model} (hm : m.Nested)

include hm

theorem Nested.descend? (p : TypePath) (names : List String) (hp : p ≠ [])
    (h : m.has (p ++ names) = true) : m.descend? p names = some (p ++ names) := by
  induction names generalizing p with
  | nil => simp [Model.descend?]
  | cons name names ih =>
    have hsplit : p ++ name :: names = p ++ [name] ++ names := by simp
    rw [hsplit] at h ⊢
    have hname := hm.above _ _ (by simp) (List.prefix_append (p ++ [name]) names) h
    rw [Model.descend?, if_pos hname, ih _ (by simp) h]

/-- The full name of a type leads to it from a type exactly if it splits into the path of the type
and no type on the way out has a nested type with the first name of the path. -/
theorem lookupType_qualified (here : TypePath) (first : String) (rest : List String)
    (h : m.has (first :: rest) = true) :
    m.lookupType here (qualified (first :: rest)) = some (first :: rest) ↔
      Text.splitOn (qualified (first :: rest)) "::" = first :: rest ∧
        ∀ p, p ≠ [] → p <+: here → m.has (p ++ [first]) = false := by
  have htop : m.has [first] = true := hm.above _ _ (by simp) ⟨rest, rfl⟩ h
  rw [← start?_top m here first htop]
  constructor
  · intro hl
    have hsplit : Text.splitOn (qualified (first :: rest)) "::" = first :: rest :=
      Text.splitOn_join_suffix _ (m.lookupType_suffix here _ _ hl)
    refine ⟨hsplit, ?_⟩
    rw [lookupType_split m here _ first rest hsplit, Option.bind_eq_some_iff] at hl
    obtain ⟨q, hq, hdesc⟩ := hl
    have he := m.descend?_eq _ _ _ hdesc
    have hq1 : q = [first] := by
      have : [first] ++ rest = q ++ rest := he
      exact (List.append_cancel_right this).symm
    rw [hq, hq1]
  · rintro ⟨hsplit, hstart⟩
    rw [lookupType_split m here _ first rest hsplit, hstart]
    exact hm.descend? [first] rest (by simp) h

end

theorem enumAt_eq (m : Model) (name : String) (p : TypePath) (e : EnumId) (d : EnumDef)
    (h : m.enumAt name p = some (e, d)) : e = ⟨p, name⟩ ∧ d.name = name ∧ m.has p = true := by
  unfold enumAt at h
  split at h
  next t ht =>
    obtain ⟨d', hd, he⟩ := Option.map_eq_some_iff.mp h
    cases he
    have hname := List.find?_some hd
    exact ⟨rfl, by simpa using hname, by simp [has, ht]⟩
  next => cases h

theorem lookupEnum_bare (m : Model) (here : TypePath) (name : String) :
    m.lookupEnum here [name] = (enclosing here).findSome? (m.enumAt name) := rfl

theorem lookupEnum_qualified (m : Model) (here owner : TypePath) (name : String)
    (h : owner ≠ []) :
    m.lookupEnum here (owner ++ [name])
      = (m.lookupType here (qualified owner)).bind (m.enumAt name) := by
  obtain ⟨first, rest, rfl⟩ := List.exists_cons_of_ne_nil h
  rw [lookupEnum, List.getLast?_concat, List.dropLast_concat, qualified]
  dsimp only
  cases m.lookupType here (Text.join "::" (first :: rest)) <;> rfl

theorem lookupEnum_at (m : Model) (here : TypePath) (path : List String) (e : EnumId) (d : EnumDef)
    (h : m.lookupEnum here path = some (e, d)) : m.enumAt e.name e.owner = some (e, d) := by
  have hat (name : String) (p : TypePath) (hp : m.enumAt name p = some (e, d)) :
      m.enumAt e.name e.owner = some (e, d) := by
    obtain ⟨rfl, -, -⟩ := m.enumAt_eq name p e d hp
    exact hp
  unfold lookupEnum at h
  split at h
  next => cases h
  next name _ _ _ =>
    obtain ⟨p, -, -, hp, -⟩ := (findSome?_enclosing _ _ _).mp h
    exact hat _ p hp
  next =>
    split at h
    next p _ => exact hat _ p h
    next => cases h

/-- An enum is shown to a type under its bare name if its owner is around the type and no type
nearer by has an enum of that name; it is shown under its full name if that splits into the path of
the owner and no type around has a nested type with the first name of the path. -/
inductive Shows (m : Model) (here : TypePath) (e : EnumId) : Prop
  | bare (howner : e.owner <+: here)
      (hnear : ∀ p, e.owner <+: p → p <+: here → p ≠ e.owner → m.enumAt e.name p = none)
  | full (first : String) (hfirst : e.owner.head? = some first)
      (hsplit : Text.splitOn (qualified e.owner) "::" = e.owner)
      (hopen : ∀ p, p ≠ [] → p <+: here → m.has (p ++ [first]) = false)

theorem shows_iff (m : Model) (hm : m.Nested) (here : TypePath) (e : EnumId) (d : EnumDef)
    (h : m.enumAt e.name e.owner = some (e, d)) :
    m.Shows here e ↔ m.lookupEnum here [e.name] = some (e, d) ∨
      m.lookupEnum here (e.owner ++ [e.name]) = some (e, d) := by
  obtain ⟨-, -, hhas⟩ := m.enumAt_eq _ _ _ _ h
  have hne : e.owner ≠ [] := by
    intro he
    rw [he] at hhas
    cases hm.proper.symm.trans hhas
  obtain ⟨first, rest, howner⟩ := List.exists_cons_of_ne_nil hne
  have hfull : m.lookupEnum here (e.owner ++ [e.name]) = some (e, d) ↔
      m.lookupType here (qualified e.owner) = some e.owner := by
    rw [m.lookupEnum_qualified here _ _ hne, Option.bind_eq_some_iff]
    constructor
    · rintro ⟨p, hp, hat⟩
      obtain ⟨he, -, -⟩ := m.enumAt_eq _ _ _ _ hat
      rw [hp, he]
    · intro hl
      exact ⟨_, hl, h⟩
  rw [hfull, howner, lookupType_qualified hm here first rest (howner ▸ hhas), lookupEnum_bare,
    findSome?_enclosing]
  constructor
  · rintro (⟨hpre, hnear⟩ | ⟨first', hfirst, hsplit, hopen⟩)
    · exact .inl ⟨e.owner, hne, hpre, h, hnear⟩
    · rw [howner] at hfirst hsplit
      cases hfirst
      exact .inr ⟨hsplit, hopen⟩
  · rintro (⟨p, -, hpre, hat, hnear⟩ | ⟨hsplit, hopen⟩)
    · obtain ⟨he, -, -⟩ := m.enumAt_eq _ _ _ _ hat
      have hp : e.owner = p := by rw [he]
      exact .bare (hp ▸ hpre) (hp ▸ hnear)
    · exact .full first (by rw [howner]; rfl) (by rw [howner]; exact hsplit) hopen

theorem lookupEnum_enumPath (m : Model) (hm : m.Nested) (here : TypePath) (e : EnumId)
    (d : EnumDef) (h : m.enumAt e.name e.owner = some (e, d)) :
    m.lookupEnum here (m.enumPath here e) = some (e, d) ↔ m.Shows here e := by
  rw [shows_iff m hm here e d h]
  have hbare (f : EnumId) (g : EnumDef) (hf : m.lookupEnum here [e.name] = some (f, g))
      (he : f = e) : g = d := by
    have hat := m.lookupEnum_at here _ f g hf
    rw [he] at hat
    cases h.symm.trans hat
    rfl
  unfold enumPath
  split
  next f g hf =>
    by_cases he : f = e
    · rw [if_pos he]
      have hg := hbare f g hf he
      subst he hg
      exact iff_of_true hf (.inl hf)
    · rw [if_neg he]
      refine ⟨.inr, fun hor => hor.elim (fun hb => ?_) id⟩
      cases hf.symm.trans hb
      exact absurd rfl he
  next hnone =>
    refine ⟨.inr, fun hor => hor.elim (fun hb => ?_) id⟩
    cases hnone.symm.trans hb

theorem enumPath_hidden (m : Model) (hm : m.Nested) (here : TypePath) (e : EnumId) (d : EnumDef)
    (h : m.enumAt e.name e.owner = some (e, d)) (hs : ¬ m.Shows here e) :
    m.enumPath here e = e.owner ++ [e.name] := by
  have hl := mt (m.lookupEnum_enumPath hm here e d h).mp hs
  unfold enumPath at hl ⊢
  split
  next f g hf =>
    by_cases he : f = e
    · rw [hf] at hl
      simp only [he, if_true] at hl hf
      have hat := m.lookupEnum_at here _ e g hf
      cases h.symm.trans hat
      exact absurd hf hl
    · rw [if_neg he]
  next => rfl

theorem lookupMember_ok (m : Model) (here : TypePath) (path : List String) (id : String)
    (e : EnumId) (x : EnumMember) : m.lookupMember here path id = .ok (e, x) ↔
      ∃ d, m.lookupEnum here path = some (e, d) ∧ d.member? id = some x := by
  unfold lookupMember
  cases m.lookupEnum here path with
  | none => simp
  | some r =>
    obtain ⟨f, g⟩ := r
    cases hx : g.member? id <;> simp_all

end Model

namespace Build

/-- A bare name among the choices of a field with an enum is refused if the enum has no such member,
and otherwise stored as a path that leads from the type of the field to this member of this enum. -/
def PicksOwn (m : Model) (here : TypePath) (e : EnumId) (d : EnumDef) (v : Value) (id : String) :
    Prop :=
  match d.member? id with
  | some x => ∃ path, choice m here (some e) v = .ok (.member path id) ∧
      m.lookupMember here path id = .ok (e, x)
  | none => ∃ fault, choice m here (some e) v = .error fault

theorem choice_bare (m : Model) (here : TypePath) (e : EnumId) (v : Value) (id : String)
    (hv : expr? v = .ok (some (.name id))) :
    choice m here (some e) v
      = (m.lookupMember here (m.enumPath here e) id).map fun _ =>
          .member (m.enumPath here e) id := by
  rw [choice, hv, ok_bind]
  cases h : m.lookupMember here (m.enumPath here e) id <;> simp only [h] <;> rfl

/-- A bare name is picked from its own enum exactly if the enum is shown to the type of the field, or
if neither the enum nor whatever else its full name leads to has such a member. -/
theorem picksOwn_iff (m : Model) (hm : m.Nested) (here : TypePath) (e : EnumId) (d : EnumDef)
    (he : m.enumAt e.name e.owner = some (e, d)) (v : Value) (id : String)
    (hv : expr? v = .ok (some (.name id))) :
    PicksOwn m here e d v id ↔ m.Shows here e ∨ d.member? id = none ∧
      ∀ f g, m.lookupEnum here (e.owner ++ [e.name]) = some (f, g) → g.member? id = none := by
  have hshows := m.lookupEnum_enumPath hm here e d he
  by_cases hs : m.Shows here e
  · refine iff_of_true ?_ (.inl hs)
    have hl := hshows.mpr hs
    unfold PicksOwn
    split
    next x hx =>
      have hmember := (m.lookupMember_ok here _ id e x).mpr ⟨d, hl, hx⟩
      exact ⟨_, by rw [choice_bare m here e v id hv, hmember]; rfl, hmember⟩
    next hx =>
      refine ⟨.noMember d.name id, ?_⟩
      simp only [choice_bare m here e v id hv, Model.lookupMember, hl, hx]
      rfl
  · rw [or_iff_right hs, ← m.enumPath_hidden hm here e d he hs]
    unfold PicksOwn
    split
    next x hx =>
      refine iff_of_false ?_ fun h => ?_
      · rintro ⟨path, hc, hmember⟩
        rw [choice_bare m here e v id hv] at hc
        obtain ⟨-, -, hpath⟩ := (map_eq_ok _ _ _).mp hc
        cases hpath
        obtain ⟨d', hl, -⟩ := (m.lookupMember_ok here _ id e x).mp hmember
        cases he.symm.trans (m.lookupEnum_at here _ e d' hl)
        exact hs (hshows.mp hl)
      · cases hx.symm.trans h.1
    next hx =>
      constructor
      · rintro ⟨fault, hc⟩
        refine ⟨hx, fun f g hl => ?_⟩
        cases hy : g.member? id with
        | none => rfl
        | some y =>
          have hmember := (m.lookupMember_ok here _ id f y).mpr ⟨g, hl, hy⟩
          rw [choice_bare m here e v id hv, hmember] at hc
          cases hc
      · rintro ⟨-, hno⟩
        rw [choice_bare m here e v id hv]
        cases hmember : m.lookupMember here (m.enumPath here e) id with
        | error fault => exact ⟨fault, rfl⟩
        | ok r =>
          obtain ⟨f, y⟩ := r
          obtain ⟨g, hl, hy⟩ := (m.lookupMember_ok here _ id f y).mp hmember
          cases (hno f g hl).symm.trans hy

def offered (a : Attr) : List Value :=
  if a.choice.isEmpty then (anyOf? a).getD [] else a.choice

theorem field_choices (o : Options) (m : Model) (here : TypePath) (a : Attr) (f : Field)
    (h : fieldAt o m here a = .ok f) :
    (∀ e, f.enum = some e → ∃ d, m.lookupEnum here (Text.splitOn a.enum "::") = some (e, d)) ∧
      (f.elemRole = .randomChoice → choices m here f.enum a = .ok f.choices) := by
  have hf := field_ok o m here a f h
  refine ⟨fun e he => ?_, fun hrole => ?_⟩
  · have henum := hf.enum
    rw [he] at henum
    unfold enumId at henum
    split at henum
    · cases henum
    · split at henum
      · cases henum
      · split at henum
        next d hd =>
          cases henum
          exact ⟨d, hd⟩
        next => cases henum
  · have hchoices := hf.completes.choices
    rwa [if_pos hrole] at hchoices

end Build

namespace Model

section

variable {b m : Model} (h : b.SameNames m)

include h

theorem SameNames.find? (p : TypePath) :
    (b.find? p).map TypeDef.enums = (m.find? p).map TypeDef.enums := by
  obtain ⟨ts⟩ := b
  obtain ⟨us⟩ := m
  change List.Forall₂ _ ts us at h
  unfold Model.find?
  induction h with
  | nil => rfl
  | cons hab _ ih =>
    simp only [List.find?_cons, hab.1]
    split
    · simp [hab.2]
    · exact ih

theorem SameNames.has : b.has = m.has := by
  funext p
  simpa [Model.has] using congrArg Option.isSome (h.find? p)

theorem SameNames.enumAt : b.enumAt = m.enumAt := by
  funext name p
  have hfind := h.find? p
  unfold Model.enumAt TypeDef.enum?
  cases hb : b.find? p <;> cases hm : m.find? p <;> simp_all

theorem SameNames.lookupType : b.lookupType = m.lookupType := by
  have hstart : b.startAt = m.startAt := by
    funext name p
    rw [startAt, startAt, h.has]
  have hdesc : b.descend? = m.descend? := by
    funext p names
    induction names generalizing p with
    | nil => rfl
    | cons name names ih => rw [descend?, descend?, h.has, ih]
  funext here name
  simp only [Model.lookupType, hstart, hdesc, h.has]

theorem SameNames.lookupEnum : b.lookupEnum = m.lookupEnum := by
  funext here path
  unfold Model.lookupEnum
  rw [h.enumAt, h.lookupType]

theorem SameNames.choice : Build.choice b = Build.choice m := by
  funext here enum v
  simp only [Build.choice, enumPath, lookupMember, h.lookupEnum]

end

theorem stored_iff (m : Model) (hm : m.Nested) (here : TypePath) (e : EnumId) (d : EnumDef)
    (he : m.enumAt e.name e.owner = some (e, d)) (v : Value) (id : String)
    (hv : Build.expr? v = .ok (some (.name id))) (x : Expr)
    (hx : Build.choice m here (some e) v = .ok x) :
    ∃ path, x = .member path id ∧
      ((∃ y, d.member? id = some y ∧ m.lookupMember here path id = .ok (e, y)) ↔
        m.Shows here e) := by
  rw [Build.choice_bare m here e v id hv] at hx
  obtain ⟨⟨f, y⟩, hmember, rfl⟩ := (map_eq_ok _ _ _).mp hx
  obtain ⟨g, hl, hy⟩ := (m.lookupMember_ok here _ id f y).mp hmember
  refine ⟨_, rfl, ?_⟩
  rw [← m.lookupEnum_enumPath hm here e d he]
  constructor
  · rintro ⟨z, -, hz⟩
    obtain ⟨d', hl', -⟩ := (m.lookupMember_ok here _ id e z).mp hz
    cases he.symm.trans (m.lookupEnum_at here _ e d' hl')
    exact hl'
  · intro hown
    cases hl.symm.trans hown
    exact ⟨y, hy, hmember⟩

end Model

/-- In every model with the types of a set, a bare name among the choices of a field with an enum is
refused exactly if the enum has no such member, and stored as a path to that very member otherwise,
if and only if the enum is shown to the type of the field (or has no such member, as little as what
its full name leads to). So every field of a model that is built has, for each bare name it was
given, a member that leads back to its own enum exactly if the enum is shown. -/
theorem Model.build_bareChoices (o : Options) (n : SchemaSet) :
    (∀ m : Model, m.Outlines n → ∀ here written e d, m.lookupEnum here written = some (e, d) →
      ∀ v id, Build.expr? v = .ok (some (.name id)) →
        (Build.PicksOwn m here e d v id ↔ m.Shows here e ∨ d.member? id = none ∧
          ∀ f g, m.lookupEnum here (e.owner ++ [e.name]) = some (f, g) → g.member? id = none)) ∧
    ∀ m, Model.build o n = .ok m → ∀ t ∈ m.types, ∀ f ∈ t.fields, f.elemRole = .randomChoice →
      ∀ e, f.enum = some e → ∃ x ∈ Build.allShells n, x.1.path = t.path ∧ ∃ a ∈ x.2.seq,
        ∃ d, m.lookupEnum t.path (Text.splitOn a.enum "::") = some (e, d) ∧
          List.Forall₂ (fun v x => ∀ id, Build.expr? v = .ok (some (.name id)) →
            ∃ path, x = .member path id ∧
              ((∃ y, d.member? id = some y ∧ m.lookupMember t.path path id = .ok (e, y)) ↔
                m.Shows t.path e))
            (Build.offered a) f.choices := by
  constructor
  · intro m hm here written e d he v id hv
    exact Build.picksOwn_iff m hm.nested here e d (m.lookupEnum_at here written e d he) v id hv
  · intro m h t ht f hf hrole e he
    have hnested := (Model.build_outlines o n m h).nested
    obtain ⟨x, hx, hpath, b, hb, hfields⟩ := Model.build_made o n m h t ht
    obtain ⟨a, ha, hfield⟩ := forall₂_mem_right _ _ _ (mapM_eq_ok _ _ _ hfields) f hf
    obtain ⟨henum, hchoices⟩ := Build.field_choices o b t.path a f hfield
    obtain ⟨d, hd⟩ := henum e he
    rw [hb.lookupEnum] at hd
    have hat := m.lookupEnum_at _ _ e d hd
    have hstored := mapM_eq_ok _ _ _ (hchoices hrole)
    rw [hb.choice, he] at hstored
    refine ⟨x, hx, hpath, a, ha, d, hd, hstored.imp fun v y hvy id hv => ?_⟩
    exact Model.stored_iff m hnested t.path e d hat v id hv y hvy

/-- A member that a field stores as a choice, with the enum of the field and the type it is in. -/
structure Picked where
  here : TypePath
  enum : EnumId
  path : List String
  id : String
  deriving DecidableEq

def Field.picked (here : TypePath) (f : Field) : List Picked :=
  match f.elemRole, f.enum with
  | .randomChoice, some e => f.choices.filterMap fun
    | .member path id => some ⟨here, e, path, id⟩
    | _ => none
  | _, _ => []

def Model.picked (m : Model) : List Picked :=
  m.types.flatMap fun t => t.fields.flatMap (Field.picked t.path)

theorem Model.exists_of_mem_picked (m : Model) (k : Picked) (h : k ∈ m.picked) :
    ∃ t ∈ m.types, t.path = k.here ∧ ∃ f ∈ t.fields, f.elemRole = .randomChoice ∧
      f.enum = some k.enum ∧ .member k.path k.id ∈ f.choices := by
  obtain ⟨t, ht, h⟩ := List.mem_flatMap.mp h
  obtain ⟨f, hf, h⟩ := List.mem_flatMap.mp h
  unfold Field.picked at h
  split at h
  next e hrole henum =>
    obtain ⟨x, hx, h⟩ := List.mem_filterMap.mp h
    split at h
    next => cases h; exact ⟨t, ht, rfl, f, hf, hrole, henum, hx⟩
    next => cases h
  next => cases h

def colors : SchemaSet where
  main := ⟨"r.ksy", .mk {
    head := { Meta.empty with id := "r" }
    enums := [("e", [⟨1, .verbose ⟨"m", "", []⟩, 0⟩])] }
    [("t", .mk {
      seq := [{
        id := "n", type := some (.named "u1"), enum := "r::e", choice := [.str "m"]
        rangeMin := some (.int 0), rangeMax := some (.int 255) }]
      enums := [("e", [⟨2, .verbose ⟨"k", "", []⟩, 0⟩])] } [])]⟩
  imported := []

theorem Model.build_bareChoices_colors : ∃ m, Model.build {} colors = .ok m ∧
    ∃ t ∈ m.types, t.path = ["r", "t"] ∧ m.Shows t.path ⟨["r"], "e"⟩ ∧
      m.lookupEnum t.path ["r", "e"] = some (⟨["r"], "e"⟩, ⟨"e", [⟨1, "m", "", []⟩]⟩) ∧
      Build.PicksOwn m t.path ⟨["r"], "e"⟩ ⟨"e", [⟨1, "m", "", []⟩]⟩ (.str "m") "m" ∧
      Build.PicksOwn m t.path ⟨["r"], "e"⟩ ⟨"e", [⟨1, "m", "", []⟩]⟩ (.str "k") "k" ∧
      ∃ f ∈ t.fields, ∃ path, f.choices = [.member path "m"] ∧
        m.lookupMember t.path path "m" = .ok (⟨["r"], "e"⟩, ⟨1, "m", "", []⟩) := by
  obtain ⟨m, hm, hview⟩ := exists_ok_of_toOption_map (Model.build {} colors)
    (fun m => (m.picked, m.lookupEnum ["r", "t"] ["r", "e"]))
    ([⟨["r", "t"], ⟨["r"], "e"⟩, ["r", "e"], "m"⟩],
      some (⟨["r"], "e"⟩, ⟨"e", [⟨1, "m", "", []⟩]⟩)) (by decide +kernel)
  obtain ⟨hpicked, hlookup⟩ := Prod.mk.inj hview
  obtain ⟨t, ht, hpath, f, hf, hrole, henum, -⟩ := m.exists_of_mem_picked
    ⟨["r", "t"], ⟨["r"], "e"⟩, ["r", "e"], "m"⟩ (by rw [hpicked]; simp)
  change t.path = ["r", "t"] at hpath
  rw [← hpath] at hlookup
  have houtlines := Model.build_outlines {} colors m hm
  have hshows := (m.shows_iff houtlines.nested t.path ⟨["r"], "e"⟩ _
    (m.lookupEnum_at _ _ _ _ hlookup)).mpr (.inr hlookup)
  obtain ⟨hpicks, hstored⟩ := Model.build_bareChoices {} colors
  obtain ⟨x, hx, -, a, ha, d, hd, hchoices⟩ := hstored m hm t ht f hf hrole _ henum
  have hoffered : Build.offered a = [.str "m"] := by
    have hshells : ∀ x ∈ Build.allShells colors, ∀ a ∈ x.2.seq, Build.offered a = [.str "m"] := by
      simp [Build.allShells, Build.shells, Build.nestedShells, colors, Build.offered]
    exact hshells x hx a ha
  rw [hoffered] at hchoices
  refine ⟨m, hm, t, ht, hpath, hshows, hlookup, ?_, ?_, f, hf, ?_⟩
  · exact (hpicks m houtlines t.path _ _ _ hlookup (.str "m") "m" (by rfl)).mpr (.inl hshows)
  · exact (hpicks m houtlines t.path _ _ _ hlookup (.str "k") "k" (by rfl)).mpr (.inl hshows)
  · cases (m.lookupEnum_at _ _ _ _ hlookup).symm.trans (m.lookupEnum_at _ _ _ _ hd)
    obtain ⟨y, ys, hy, hnil, hf⟩ := List.forall₂_cons_left_iff.mp hchoices
    rw [List.forall₂_nil_left_iff] at hnil
    obtain ⟨path, rfl, hiff⟩ := hy "m" (by rfl)
    obtain ⟨z, hz, hmember⟩ := hiff.mpr hshows
    cases hz
    exact ⟨path, hnil ▸ hf, hmember⟩

/-- The field is in the type `r`, and `r::x` leads from there into the type of that name nested in
it. -/
def redirected : String :=
  "meta: {id: r}\nseq:\n  - id: n\n    type: u1\n    enum: x::e\n    -fz-choice: [m]\ntypes:\n" ++
  "  r:\n    types:\n      x:\n        enums:\n          e: {5: m}\n" ++
  "  x:\n    enums:\n      e: {1: k}\n"

/-- A bare name that is no member of the enum of the field is accepted, as a member of another. -/
theorem Model.compile_redirected : ∃ set m,
    SchemaSet.ofText "r.ksy" redirected = .ok set ∧ Model.compile {} set = .ok m ∧
      ∃ t ∈ m.types, ∃ f ∈ t.fields, f.elemRole = .randomChoice ∧
        f.enum = some ⟨["r", "x"], "e"⟩ ∧
        m.lookupEnum t.path ["x", "e"] = some (⟨["r", "x"], "e"⟩, ⟨"e", [⟨1, "k", "", []⟩]⟩) ∧
        .member ["r", "x", "e"] "m" ∈ f.choices ∧
        m.lookupMember t.path ["r", "x", "e"] "m"
          = .ok (⟨["r", "r", "x"], "e"⟩, ⟨5, "m", "", []⟩) := by
  obtain ⟨set, hset, hview⟩ := exists_ok_of_toOption_map (SchemaSet.ofText "r.ksy" redirected)
    (fun set => (Model.compile {} set).toOption.map fun m =>
      (m.picked, [["x", "e"], ["r", "x", "e"]].map (m.lookupEnum ["r"])))
    (some ([⟨["r"], ⟨["r", "x"], "e"⟩, ["r", "x", "e"], "m"⟩],
      [some (⟨["r", "x"], "e"⟩, ⟨"e", [⟨1, "k", "", []⟩]⟩),
        some (⟨["r", "r", "x"], "e"⟩, ⟨"e", [⟨5, "m", "", []⟩]⟩)])) (by decide +kernel)
  obtain ⟨m, hm, hview⟩ := exists_ok_of_toOption_map (Model.compile {} set) _ _ hview
  obtain ⟨hpicked, hview⟩ := Prod.mk.inj hview
  obtain ⟨hown, hview⟩ := List.cons.inj hview
  obtain ⟨hother, -⟩ := List.cons.inj hview
  obtain ⟨t, ht, hpath, f, hf, hrole, henum, hchoice⟩ := m.exists_of_mem_picked
    ⟨["r"], ⟨["r", "x"], "e"⟩, ["r", "x", "e"], "m"⟩ (by rw [hpicked]; simp)
  change t.path = ["r"] at hpath
  refine ⟨set, m, hset, hm, t, ht, f, hf, hrole, henum, hpath ▸ hown, hchoice, ?_⟩
  rw [m.lookupMember_ok, hpath]
  exact ⟨_, hother, rfl⟩

end FormatFuzz
