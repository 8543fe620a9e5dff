import FormatFuzz.Proofs.Model.Building
import FormatFuzz.Proofs.Schema.Idempotence

/-!
# A normal schema is ready to be built

Every type of a normal set of schemas has a byte order, an encoding, ranges within its integer types,
full type names and written out enums. The steps keep the ids of a set, and a copy leaves no two
types of one place with one name, so a build finds each type name where the step for the defaults
has found it. No part of a build is left with something to say about the form of the set.
-/

set_option autoImplicit false

namespace FormatFuzz

structure SchemaBody.Ready (b : SchemaBody) : Prop where
  endian : b.head.endian = "le" ∨ b.head.endian = "be"
  encoding : ∃ e : Encoding, Encoding.ofName? b.head.encoding = some e ∧ e.name = b.head.encoding
  ranged : ∀ a ∈ b.attrs, ∀ name signed width endian, a.type = some (.named name) →
    Primitive.ofName? name = some (.int signed width endian) →
    ∃ lo hi, a.rangeMin = some (.int lo) ∧ a.rangeMax = some (.int hi) ∧
      (Primitive.int signed width endian).intBounds.1 ≤ lo ∧ lo ≤ hi ∧
      hi ≤ (Primitive.int signed width endian).intBounds.2
  ordered : ∀ a ∈ b.attrs, ∀ name ∈ a.typeNames, ∀ p, Primitive.ofName? name = some p →
    p.isAmbiguous = false
  spelled : ∀ e ∈ b.enums, ∀ x ∈ e.2, ∃ v, x.form = .verbose v ∧ v.id ≠ ""

namespace Attr

theorem Ordered.unambiguous (a : Attr) (h : a.Ordered) (name : String) (hn : name ∈ a.typeNames)
    (p : Primitive) (hp : Primitive.ofName? name = some p) : p.isAmbiguous = false := by
  rw [Bool.eq_false_iff]
  intro ha
  exact h name hn (Primitive.mem_multiByte name p hp ha)

theorem Filled.ranged (known : String → Prop) (a : Attr) (h : a.Filled known) (name : String)
    (s : Bool) (w : Nat) (e : Option Endian) (ht : a.type = some (.named name))
    (hp : Primitive.ofName? name = some (.int s w e)) :
    a.Ranged (Primitive.int s w e).intBounds := by
  unfold Filled at h
  rw [ht] at h
  have hne : name ≠ "" := by
    rintro rfl
    cases hp
  have h := h hne
  rw [hp] at h
  exact h

end Attr

theorem Encoding.ofName?_of_canonical (s : String) (h : canonical s = s) (hne : s ≠ "") :
    ∃ e, ofName? s = some e ∧ e.name = s := by
  unfold canonical at h
  cases he : ofName? s with
  | none =>
    rw [he] at h
    exact absurd h.symm hne
  | some e =>
    rw [he] at h
    exact ⟨e, rfl, h⟩

theorem SchemaBody.ready (known : String → Prop) (name : String) (b : SchemaBody)
    (hf : b.Filled known name) (hsp : b.Spelled) (ho : b.Ordered) : b.Ready where
  endian := by
    have h := hf.endian
    unfold Endian.ofText? at h
    split at h
    next hle => exact .inl hle
    next =>
      split at h
      next hbe => exact .inr hbe
      next => cases h
  encoding := Encoding.ofName?_of_canonical _ hf.encoding hf.encoded
  ranged := by
    intro a ha name s w e ht hp
    have hfilled : a.Filled known := by
      rcases List.mem_append.mp ha with ha | ha
      · exact hf.seq a ha
      · obtain ⟨x, hx, rfl⟩ := List.mem_map.mp ha
        exact (hf.instances x hx).1
    obtain ⟨lo, hi, hlo, hhi, h1, h2, h3, -⟩ := Attr.Filled.ranged known a hfilled name s w e ht hp
    exact ⟨lo, hi, hlo, hhi, h1, h2, h3⟩
  ordered := fun a ha => Attr.Ordered.unambiguous a (ho.attrs a ha)
  spelled := hsp

def Attr.isUnranged (a : Attr) : Bool :=
  match a.type with
  | some (.named name) =>
    match Primitive.ofName? name with
    | some (.int ..) => a.rangeMin.isNone
    | _ => false
  | _ => false

theorem SchemaBody.Ready.isUnranged (b : SchemaBody) (h : b.Ready) (a : Attr) (ha : a ∈ b.attrs) :
    a.isUnranged = false := by
  unfold Attr.isUnranged
  split
  next name htype =>
    split
    next s w e hp =>
      obtain ⟨lo, -, hlo, -⟩ := h.ranged a ha name s w e htype hp
      simp [hlo]
    next => rfl
  next => rfl

namespace Schema

theorem id_copy (s t : Schema) (hp : s.All SchemaBody.Proper) (hk : s.Kept)
    (h : s.copy = .ok t) : s.id = t.id := by
  have head : ∀ m : Meta, Decoder.Gives (Decode.rereadHead m) fun n => m.id = n.id := by
    intro m
    refine Decoder.gives_bind _ _ _ _ (Decoder.gives_true _) fun v _ => ?_
    refine Decoder.gives_bind _ _ _ _ (Decoder.gives_true _) fun w _ => ?_
    exact Decoder.gives_pure _ _ rfl
  have schema : Decoder.Gives (Decode.rereadSchema s) fun t => s.id = t.id := by
    obtain ⟨b, ts⟩ := s
    rw [Decode.rereadSchema]
    refine Decoder.gives_bind _ _ _ _ (head b.head) fun m hm => ?_
    iterate 5 refine Decoder.gives_bind _ _ _ _ (Decoder.gives_true _) fun _ _ => ?_
    exact Decoder.gives_pure _ _ hm
  rw [copy_eq s hk.carried (hp.imp _ _ SchemaBody.Proper.further)] at h
  exact Decoder.gives_alone _ _ schema t h

theorem Settled.distinct (s : Schema) (h : s.Settled) : s.Distinct := by
  induction h with
  | mk b ts _ hn _ ih => exact (distinct_iff _).mpr ⟨hn, ih⟩

end Schema

namespace SchemaSet

/-- The ids of the imports differ from each other and from the main one, and each import goes by its
own id. -/
structure Apart (set : SchemaSet) : Prop where
  imported : (Keyed.keys set.imported).Nodup
  main : set.main.schema.id ∉ Keyed.keys set.imported
  ids : ∀ e ∈ set.imported, e.2.schema.id = e.1

theorem Apart.rel (set t : SchemaSet) (h : Rel (fun s u => s.id = u.id) set t) (ha : set.Apart) :
    t.Apart := by
  have hkeys : Keyed.keys t.imported = Keyed.keys set.imported :=
    map_eq_of_forall₂ Prod.fst Prod.fst h.imported.flip fun _ _ he => he.1.symm
  refine ⟨hkeys ▸ ha.imported, ?_, fun f hf => ?_⟩
  · rw [hkeys, ← h.main]
    exact ha.main
  · obtain ⟨e, he, hkey, -, hid⟩ := forall₂_mem_right _ _ _ h.imported f hf
    rw [← hid, ← hkey]
    exact ha.ids e he

abbrev SameIds : SchemaSet → SchemaSet → Prop := Rel fun s u => s.id = u.id

theorem SameIds.trans (a b c : SchemaSet) (hab : a.SameIds b) (hbc : b.SameIds c) : a.SameIds c :=
  Rel.comp (fun _ _ _ h g => h.trans g) hab hbc

theorem sameIds_copy (set c : SchemaSet) (hp : set.Proper) (hk : set.Kept) (h : set.copy = .ok c) :
    set.SameIds c := by
  have id : ∀ s ∈ set.schemas, ∀ u, s.copy = .ok u → s.id = u.id := fun s hs u =>
    Schema.id_copy s u (hp s hs) (hk s hs)
  have hcopy := copy_ok set c h
  have hmem : ∀ e ∈ set.imported, e.2.schema ∈ set.schemas := fun e he =>
    List.mem_cons_of_mem _ (List.mem_map_of_mem he)
  refine ⟨hcopy.path, id _ (by simp [schemas]) _ hcopy.main, ?_⟩
  refine ((List.forall₂_and_left _ _).mpr ⟨hmem, hcopy.imported⟩).imp fun e f hef => ?_
  exact ⟨hef.2.1, hef.2.2.1, id _ hef.1 _ hef.2.2.2⟩

theorem sameIds_arranged (set : SchemaSet) : set.SameIds set.arranged := by
  refine set.rel_arranged.imp fun s u h => ?_
  cases h with
  | mk b c ts us hc _ =>
    subst hc
    rfl

theorem sameIds_step (f : SchemaSet → Schema → Except SchemaError Schema)
    (hf : ∀ c s u, f c s = .ok u → s.id = u.id) (set c t : SchemaSet) (hc : set.copy = .ok c)
    (hids : set.SameIds c) (h : (set.fresh >>= fun c => c.mapSchemas (f c)) = .ok t) :
    set.SameIds t := by
  obtain ⟨d, hd, h⟩ := (bind_eq_ok _ _ _).mp h
  have hcd := fresh_eq_ok set d hd
  rw [hc] at hcd
  cases hcd
  exact SameIds.trans _ _ _ hids ((mapSchemas_ok c t (f c) h).imp (hf c))

theorem sameIds_normalize (o : Options) (set t : SchemaSet) (hp : set.Proper)
    (hk : set.KeptThrough o) (h : set.normalize o = .ok t) : set.SameIds t := by
  obtain ⟨a, ha, h⟩ := (bind_eq_ok _ _ _).mp h
  obtain ⟨b, hb, h⟩ := (bind_eq_ok _ _ _).mp h
  obtain ⟨c, hc, -⟩ := (bind_eq_ok _ _ _).mp ha
  have hc := fresh_eq_ok set c hc
  have has := (fillDefaults_ok o set c a hc (set.settled_copy c hp hk.kept hc) ha).1
  have hac := a.copy_settled has (hk.filled a ha)
  have hbs := (spellEnums_ok a _ b hac (a.settled_arranged has) hb).1
  have hbc := b.copy_settled hbs (hk.spelled a b ha hb)
  have h₁ : set.SameIds a := by
    refine sameIds_step (fun c s => Normal.schema c (Scope.top s) "" o.hostEndian "UTF-8" s) ?_ set c a
      hc (set.sameIds_copy c hp hk.kept hc) ha
    exact fun c s u => Normal.schema_id c _ _ _ s u
  have h₂ : a.SameIds b := by
    refine sameIds_step (fun _ s => Normal.spell [s.id] s) ?_ a _ b hac a.sameIds_arranged hb
    intro _ s u hsu
    cases Normal.spell_rel _ s u hsu with
    | mk b c ts us hbc _ => exact congrArg Meta.id hbc.head.symm
  have h₃ : b.SameIds t := by
    refine sameIds_step (fun _ s => Normal.suffix [s.id] s) ?_ b _ t hbc b.sameIds_arranged h
    intro _ s u hsu
    cases Normal.suffix_rel _ s u hsu with
    | mk b c ts us hbc _ =>
      rw [hbc.eq]
      rfl
  exact (h₁.trans _ _ _ h₂).trans _ _ _ h₃

theorem Apart.distinct (set : SchemaSet) (ha : set.Apart) (hs : set.Settled) : set.Distinct where
  imported := ha.imported
  main := ha.main
  ids := ha.ids
  types := (hs _ (by simp [schemas])).distinct
  importedTypes := fun e he => (hs _ (List.mem_cons_of_mem _ (List.mem_map_of_mem he))).distinct

theorem Place.filled (set : SchemaSet) (hf : set.Filled) (p : TypePath) (s : Schema) (outer : Scope)
    (h : set.Place ((p, s) :: outer)) : ∃ name, s.Filled set ((p, s) :: outer) name := by
  generalize hsc : (p, s) :: outer = sc at h
  induction h generalizing p s outer with
  | main =>
    cases hsc
    exact ⟨"", hf _ (by simp [schemas])⟩
  | imported e he =>
    cases hsc
    exact ⟨"", hf _ (List.mem_cons_of_mem _ (List.mem_map_of_mem he))⟩
  | child q u around e h he ih =>
    cases hsc
    obtain ⟨name, hu⟩ := ih q u around rfl
    cases hu with
    | mk _ _ b ts _ ht => exact ⟨e.1, ht e he⟩

end SchemaSet

namespace Build

theorem nestedShells_eq (path : TypePath) (ts : List (String × Schema)) :
    nestedShells path ts = ts.flatMap fun e => shells (path ++ [e.1]) e.2 := by
  induction ts with
  | nil => rfl
  | cons e ts ih => rw [nestedShells, ih]; rfl

theorem all_shells (P : SchemaBody → Prop) (s : Schema) (h : s.All P) (path : TypePath) :
    ∀ x ∈ shells path s, P x.2 := by
  induction h generalizing path with
  | mk b ts hb _ ih =>
    rw [shells, nestedShells_eq]
    refine List.forall_mem_cons.mpr ⟨hb, fun x hx => ?_⟩
    obtain ⟨e, he, hx⟩ := List.mem_flatMap.mp hx
    exact ih e he _ x hx

mutual

theorem shells_place (set : SchemaSet) (path : TypePath) (outer : Scope) : (s : Schema) →
    set.Place ((path, s) :: outer) → ∀ x ∈ shells path s,
      ∃ t around, set.Place ((x.1.path, t) :: around) ∧ t.body = x.2
  | .mk b ts, h => by
    rw [shells]
    refine List.forall_mem_cons.mpr ⟨⟨_, outer, h, rfl⟩, ?_⟩
    exact nestedShells_place set path _ ts fun e he => .child path (.mk b ts) outer e h he

theorem nestedShells_place (set : SchemaSet) (path : TypePath) (outer : Scope) :
    (ts : List (String × Schema)) →
    (∀ e ∈ ts, set.Place ((path ++ [e.1], e.2) :: outer)) → ∀ x ∈ nestedShells path ts,
      ∃ t around, set.Place ((x.1.path, t) :: around) ∧ t.body = x.2
  | [], _ => by simp [nestedShells]
  | (name, s) :: ts, h => by
    intro x hx
    rw [nestedShells] at hx
    rcases List.mem_append.mp hx with hx | hx
    · exact shells_place set _ outer s (h (name, s) (by simp)) x hx
    · exact nestedShells_place set path outer ts (fun e he => h e (List.mem_cons_of_mem _ he)) x hx

end

theorem allShells_place (set : SchemaSet) (ha : set.Apart) : ∀ x ∈ allShells set,
    ∃ t around, set.Place ((x.1.path, t) :: around) ∧ t.body = x.2 := by
  intro x hx
  rcases List.mem_append.mp hx with hx | hx
  · exact shells_place set _ [] _ .main x hx
  · obtain ⟨e, he, hx⟩ := List.mem_flatMap.mp hx
    have hplace : set.Place [([e.1], e.2.schema)] := by
      have h := SchemaSet.Place.imported e he
      rwa [Scope.top, ha.ids e he] at h
    exact shells_place set _ [] _ hplace x hx

theorem all_allShells (P : SchemaBody → Prop) (set : SchemaSet) (h : ∀ s ∈ set.schemas, s.All P) :
    ∀ x ∈ allShells set, P x.2 := by
  intro x hx
  rcases List.mem_append.mp hx with hx | hx
  · exact all_shells P _ (h _ (by simp [SchemaSet.schemas])) _ x hx
  · obtain ⟨e, he, hx⟩ := List.mem_flatMap.mp hx
    exact all_shells P _ (h _ (List.mem_cons_of_mem _ (List.mem_map_of_mem he))) _ x hx

theorem names_of_knows (set : SchemaSet) (hd : set.Distinct) (m : Model) (hm : m.Outlines set)
    (sc : Scope) (hsc : set.Place sc) (name : String) (hk : set.Knows sc name)
    (hamb : ∀ p, Primitive.ofName? name = some p → p.isAmbiguous = false) :
    Names m (Scope.path sc) name := by
  unfold Names
  split
  next p hp => exact hamb p hp
  next hp =>
    rw [lookupType_path set hd m hm sc hsc name, Option.isSome_map]
    rcases hk with hk | hk
    · rw [hp] at hk
      cases hk
    · exact hk

theorem accepts_of_filled (set : SchemaSet) (hd : set.Distinct) (m : Model) (hm : m.Outlines set)
    (sc : Scope) (hsc : set.Place sc) (a : Attr) (hf : a.Filled (set.Knows sc)) (ho : a.Ordered) :
    Accepts m (Scope.path sc) a where
  named := by
    intro name htype hne
    have hnames : name ∈ a.typeNames := by simp [Attr.typeNames, htype]
    refine names_of_knows set hd m hm sc hsc name ?_ (Attr.Ordered.unambiguous a ho name hnames)
    unfold Attr.Filled at hf
    rw [htype] at hf
    have hf := hf hne
    split at hf
    next => exact hf
    next p hp => exact .inl (by simp [hp])
  cases := by
    intro on cases htype c hc
    have hnames : c.2 ∈ a.typeNames := by
      simp only [Attr.typeNames, htype]
      exact List.mem_map_of_mem hc
    refine names_of_knows set hd m hm sc hsc c.2 ?_ (Attr.Ordered.unambiguous a ho c.2 hnames)
    unfold Attr.Filled at hf
    rw [htype] at hf
    exact hf c hc
  ranged := by
    intro name s w e htype hp
    obtain ⟨lo, hi, hlo, hhi, -⟩ := Attr.Filled.ranged _ a hf name s w e htype hp
    exact ⟨lo, hi, hlo, hhi⟩

end Build

namespace SchemaSet

theorem ready_of_filled (set : SchemaSet) (sc : Scope) (name : String) (s : Schema)
    (hf : s.Filled set sc name) (hsp : s.All SchemaBody.Spelled) (ho : s.All SchemaBody.Ordered) :
    s.All SchemaBody.Ready := by
  induction hf with
  | mk sc name b ts hb _ ih =>
    cases hsp with
    | mk _ _ hbs hts =>
      cases ho with
      | mk _ _ hbo hto =>
        exact .mk b ts (b.ready _ name hb hbs hbo) fun e he => ih e he (hts e he) (hto e he)

theorem build_normal (o : Options) (set : SchemaSet) (ha : set.Apart) (hs : set.Settled)
    (hf : set.Filled) (hsp : set.Spelled) (ho : set.Ordered) :
    Build.PassesAt (Model.build o set) := by
  have hd := ha.distinct set hs
  refine Model.build_passes o set (Build.all_allShells _ set hsp) fun m hm x hx a hmem => ?_
  obtain ⟨t, around, hplace, hbody⟩ := Build.allShells_place set ha x hx
  obtain ⟨name, hfilled⟩ := hplace.filled set hf
  have hordered := Build.all_allShells _ set ho x hx
  refine Build.accepts_of_filled set hd m hm _ hplace a ?_ ?_
  · cases hfilled with
    | mk _ _ b ts hb _ =>
      subst hbody
      exact hb.seq a hmem
  · exact hordered.attrs a (List.mem_append_left _ hmem)

/-- Every type of a normal set, at any depth and in every import, has what a build relies on, and no
build of the set finds a byte order, a type, a range or the form of an enum entry missing. -/
theorem normalize_ready (o o' : Options) (set t : SchemaSet) (ha : set.Apart) (hp : set.Proper)
    (hk : set.KeptThrough o) (h : set.normalize o = .ok t) :
    (∀ s ∈ t.schemas, s.All SchemaBody.Ready) ∧
      ∀ e, Model.build o' t = .error e → e.isUnready = false := by
  obtain ⟨hs, hf, hsp, ho⟩ := normalize_ok o set t hp hk h
  have hapart := ha.rel set t (sameIds_normalize o set t hp hk h)
  refine ⟨fun s hmem => ready_of_filled t _ "" s (hf s hmem) (hsp s hmem) (ho s hmem), ?_⟩
  intro e he
  have hpasses := build_normal o' t hapart hs hf hsp ho
  rw [he] at hpasses
  exact hpasses

theorem normalize_ready_packet : packet.Apart ∧ packet.Proper ∧ packet.KeptThrough {} ∧
    ∃ t, packet.normalize {} = .ok t ∧ (∀ s ∈ t.schemas, s.All SchemaBody.Ready) ∧
      ∀ e, Model.build {} t = .error e → e.isUnready = false := by
  have hapart : packet.Apart := ⟨by decide, by decide, by simp [packet, Schema.id, Schema.body]⟩
  obtain ⟨hsteady, t, ht, -⟩ := packet_steady
  have hkept := packet.keptThrough_of_isSteadyThrough {} hsteady
  exact ⟨hapart, packet_proper, hkept, t, ht,
    normalize_ready {} {} packet t hapart packet_proper hkept ht⟩

/-- An id and a type name that differ by blanks alone. A copy drops a line break and some blanks of
each: behind the first one the field is of the type of the schema, behind the next ones of a built-in
type, for which nobody has set a range. -/
def disguised : SchemaSet :=
  ⟨⟨"a.ksy", .mk
    { head := { Meta.empty with id := "\n\n  u1" }
      seq := [{ id := "n", type := some (.named "\n\n    u1") }] } []⟩, []⟩

theorem disguised_proper : disguised.Proper := by
  refine List.forall_mem_singleton.mpr (.mk _ _ (SchemaBody.proper_of_attrs _ rfl rfl ?_) (by simp))
  exact List.forall_mem_singleton.mpr
    (Attr.proper_of_untyped _ (by simp [Attr.untyped, Value.Proper.null]) rfl rfl rfl rfl)

/-- A normal form can have an integer without a range, which a build then finds missing. -/
theorem normalize_unready : disguised.Apart ∧ disguised.Proper ∧
    ∃ t e, disguised.normalize {} = .ok t ∧ ¬ (∀ s ∈ t.schemas, s.All SchemaBody.Ready) ∧
      Model.build {} t = .error e ∧ e.isUnready = true := by
  have hapart : disguised.Apart := ⟨by decide, by decide, by simp [disguised]⟩
  obtain ⟨t, ht, hview⟩ := exists_ok_of_toOption_map (disguised.normalize {})
    (fun t => (t.main.schema.body.attrs.any Attr.isUnranged, match Model.build {} t with
      | .ok _ => false
      | .error e => e.isUnready)) (true, true) (by decide +kernel)
  obtain ⟨hunranged, hbuild⟩ := Prod.mk.inj hview
  refine ⟨hapart, disguised_proper, t, ?_⟩
  cases he : Model.build {} t with
  | ok m =>
    rw [he] at hbuild
    cases hbuild
  | error e =>
    rw [he] at hbuild
    refine ⟨e, ht, fun hall => ?_, rfl, hbuild⟩
    obtain ⟨a, ha, hnone⟩ := List.any_eq_true.mp hunranged
    have hready := Schema.All.body _ _ (hall t.main.schema (by simp [schemas]))
    simp [SchemaBody.Ready.isUnranged _ hready a ha] at hnone

end SchemaSet

end FormatFuzz
