import FormatFuzz.Proofs.Model.GenerationOrder
import FormatFuzz.Proofs.Model.Readiness
import FormatFuzz.Proofs.Schema.Parsed

/-!
# Where a field comes from

Every field of a compiled model was built from a key of some type in normal form; what resolution
does to it is to find its dependencies and perhaps to free its size. The bounds that such a key
declares fit into words, whatever the schema was: they were read back from a copy.
-/

set_option autoImplicit false

namespace FormatFuzz

namespace Build

structure Completes (m : Model) (here : TypePath) (a : Attr) (f : Field) : Prop where
  measure : if f.elemRole = .derivedLength then Build.measure a f.type = .ok f.measure
    else f.measure = none
  input : if f.elemRole = .checksum then
      ∃ d e, checksum a f.type f.size = .ok (d, e) ∧ f.input = some e
    else f.input = none
  choices : if f.elemRole = .randomChoice then Build.choices m here f.enum a = .ok f.choices
    else f.choices = []

structure Builds (o : Options) (m : Model) (here : TypePath) (a : Attr) (f : Field) : Prop where
  type : typeRef (findType m here) a = .ok f.type
  guard : expr? a.guard = .ok f.guard
  role : f.role = Build.role false a
  elemRole : f.elemRole = if f.role = .repeated then Build.role true a else f.role
  repeated (r : Repeat) (h : f.repeated = some r) : repetition o a = .ok r
  fixed : fixedValue a.valid = .ok f.fixed
  enum : enumId m here f.type a.enum = .ok f.enum
  range : Build.range f.type a = .ok f.range
  process (p : Process) (h : f.process = some p) : Build.process a.process = .ok (some p)
  terminator : Build.terminator f.type a.terminator = .ok f.terminator
  size (s : Size) (h : f.size = some s) : Build.size o a f.terminator.isSome = .ok (some s)
  completes : Completes m here a f

theorem elementKeys_ok (m : Model) (here : TypePath) (a : Attr) (f g : Field)
    (h : elementKeys m here a f = .ok g) :
    g = { f with
      measure := g.measure, digest := g.digest, input := g.input, choices := g.choices,
      pool := g.pool } := by
  unfold elementKeys at h
  dsimp only at h
  split at h
  case h_7 =>
    obtain rfl := Except.ok.inj h
    rfl
  all_goals
    obtain ⟨_, -, h⟩ := (bind_eq_ok _ _ _).mp h
    obtain rfl := (pure_eq_ok _ _).mp h
    rfl

def bare (f : Field) : Field :=
  { f with measure := none, digest := none, input := none, choices := [], pool := none }

theorem bare_eq (m : Model) (here : TypePath) (a : Attr) (f g : Field)
    (h : elementKeys m here a f = .ok g) : bare g = bare f := by
  rw [elementKeys_ok m here a f g h]
  rfl

theorem elementKeys_completes (m : Model) (here : TypePath) (a : Attr) (f : Field)
    (h : elementKeys m here a (bare f) = .ok f) : Completes m here a f := by
  -- a field whose role calls for nothing that is an expression
  have unread (g : Field) (hg : g = f) (hm : g.measure = none) (hi : g.input = none)
      (hc : g.choices = []) (hrole : f.elemRole ∉ [.derivedLength, .checksum, .randomChoice]) :
      Completes m here a f := by
    subst hg
    simp only [List.mem_cons, List.not_mem_nil, or_false, not_or] at hrole
    exact ⟨by rw [if_neg hrole.1]; exact hm, by rw [if_neg hrole.2.1]; exact hi,
      by rw [if_neg hrole.2.2]; exact hc⟩
  unfold elementKeys at h
  dsimp only [bare] at h
  split at h
  next hrole =>
    obtain ⟨x, hx, h⟩ := (bind_eq_ok _ _ _).mp h
    rw [pure_eq_ok] at h
    refine ⟨?_, ?_, ?_⟩ <;> rw [hrole]
    · rw [if_pos rfl, ← congrArg Field.measure h]
      exact (Fault.at_eq_ok _ _ _ _ _).mp hx
    · rw [if_neg (by decide), ← h]
    · rw [if_neg (by decide), ← h]
  next hrole =>
    obtain ⟨x, -, h⟩ := (bind_eq_ok _ _ _).mp h
    exact unread _ ((pure_eq_ok _ _).mp h) rfl rfl rfl (by rw [hrole]; decide)
  next hrole =>
    obtain ⟨x, -, h⟩ := (bind_eq_ok _ _ _).mp h
    exact unread _ ((pure_eq_ok _ _).mp h) rfl rfl rfl (by rw [hrole]; decide)
  next hrole =>
    obtain ⟨x, hx, h⟩ := (bind_eq_ok _ _ _).mp h
    rw [pure_eq_ok] at h
    refine ⟨?_, ?_, ?_⟩ <;> rw [hrole]
    · rw [if_neg (by decide), ← h]
    · rw [if_neg (by decide), ← h]
    · rw [if_pos rfl, ← congrArg Field.choices h]
      exact (Fault.at_eq_ok _ _ _ _ _).mp hx
  next hrole =>
    obtain ⟨⟨d, e⟩, hx, h⟩ := (bind_eq_ok _ _ _).mp h
    rw [pure_eq_ok] at h
    refine ⟨?_, ?_, ?_⟩ <;> rw [hrole]
    · rw [if_neg (by decide), ← h]
    · rw [if_pos rfl]
      exact ⟨d, e, (Fault.at_eq_ok _ _ _ _ _).mp hx, by rw [← congrArg Field.input h]⟩
    · rw [if_neg (by decide), ← h]
  next hrole =>
    obtain ⟨x, -, h⟩ := (bind_eq_ok _ _ _).mp h
    exact unread _ ((pure_eq_ok _ _).mp h) rfl rfl rfl (by rw [hrole]; decide)
  next h₁ h₂ h₃ h₄ h₅ h₆ =>
    exact unread _ (Except.ok.inj h) rfl rfl rfl (by simpa using ⟨h₁, h₅, h₄⟩)

theorem optional_ok {α : Type} {c : Prop} [Decidable c] {type : List String} {member key : String}
    {r : Except Fault (Option α)} {x : Option α} {y : α}
    (h : (if c then Fault.at_ type member key r else pure none) = .ok x) (hy : x = some y) :
    r = .ok (some y) := by
  split at h
  next => exact hy ▸ (Fault.at_eq_ok _ _ _ _ _).mp h
  next =>
    rw [pure_eq_ok] at h
    rw [← h] at hy
    cases hy

theorem field_ok (o : Options) (m : Model) (here : TypePath) (a : Attr) (f : Field)
    (h : fieldAt o m here a = .ok f) : Builds o m here a f := by
  obtain ⟨-, h⟩ := guard_eq_ok _ _ _ _ h
  obtain ⟨type, htype, h⟩ := (bind_eq_ok _ _ _).mp h
  unfold fieldOf at h
  dsimp only at h
  obtain ⟨guard, hguard, h⟩ := (bind_eq_ok _ _ _).mp h
  obtain ⟨repeated, hrepeated, h⟩ := join_eq_ok _ _ _ _ _ h
  obtain ⟨fixed, hfixed, h⟩ := (bind_eq_ok _ _ _).mp h
  obtain ⟨enum, henum, h⟩ := (bind_eq_ok _ _ _).mp h
  obtain ⟨range, hrange, h⟩ := (bind_eq_ok _ _ _).mp h
  obtain ⟨contents, -, h⟩ := join_eq_ok _ _ _ _ _ h
  obtain ⟨process, hprocess, h⟩ := join_eq_ok _ _ _ _ _ h
  obtain ⟨terminator, hterminator, h⟩ := (bind_eq_ok _ _ _).mp h
  obtain ⟨-, h⟩ := guard_eq_ok _ _ _ _ h
  obtain ⟨size, hsize, h⟩ := join_eq_ok _ _ _ _ _ h
  have hf := elementKeys_ok m here a _ f h
  have hcompletes : Completes m here a f := by
    refine elementKeys_completes m here a f ?_
    rw [bare_eq m here a _ f h]
    exact h
  refine ⟨?type, ?guard, ?role, ?elemRole, ?repeated, ?fixed, ?enum, ?range, ?process, ?terminator,
    ?size, hcompletes⟩
  all_goals rw [hf]
  case type => exact (Fault.at_eq_ok _ _ _ _ _).mp htype
  case guard => exact (Fault.at_eq_ok _ _ _ _ _).mp hguard
  case repeated =>
    intro r hr
    split at hrepeated
    next =>
      obtain ⟨r', hr', rfl⟩ := (map_eq_ok _ _ _).mp hrepeated
      cases hr
      exact (Fault.at_eq_ok _ _ _ _ _).mp hr'
    next =>
      rw [pure_eq_ok] at hrepeated
      rw [← hrepeated] at hr
      cases hr
  case fixed => exact (Fault.at_eq_ok _ _ _ _ _).mp hfixed
  case enum => exact (Fault.at_eq_ok _ _ _ _ _).mp henum
  case range => exact (Fault.at_eq_ok _ _ _ _ _).mp hrange
  case process => exact fun p hp => optional_ok hprocess hp
  case terminator => exact (Fault.at_eq_ok _ _ _ _ _).mp hterminator
  case size => exact fun s hs => optional_ok hsize hs

end Build

def Field.MadeFrom (o : Options) (n : SchemaSet) (f : Field) : Prop :=
  ∃ x ∈ Build.allShells n, ∃ a ∈ x.2.seq, ∃ (b : Model) (here : TypePath) (g : Field)
    (base : TypeDef), Build.fieldAt o b here a = .ok g ∧
      f = { Resolve.freeSize base g with deps := f.deps }

def Model.SameNames (b m : Model) : Prop :=
  List.Forall₂ (fun t u => t.path = u.path ∧ t.enums = u.enums) b.types m.types

structure Build.Makes (o : Options) (b : Model) (x : TypeDef × SchemaBody) (t : TypeDef) :
    Prop where
  path : x.1.path = t.path
  pool : ∃ c, Build.pool c t.path x.2.order = .ok t.pool
  fields : x.2.seq.mapM (Build.fieldAt o b t.path) = .ok t.fields
  instances : x.2.instances.mapM (fun e => Build.instance t.path e.1 e.2) = .ok t.instances

/-- Type by type, a model is built from the types of the set, with names that are looked up as in
the model itself, and with the users that the set has for each. -/
theorem Model.build_each (o : Options) (n : SchemaSet) (m : Model) (h : Model.build o n = .ok m) :
    ∃ b : Model, b.SameNames m ∧ List.Forall₂ (Build.Makes o b) (Build.allShells n) m.types ∧
      ∀ t ∈ m.types, t.users = Build.usersOf b (Build.allShells n) t.path := by
  obtain ⟨withEnums, withPools, types, h₁, h₂, h₃, hm⟩ := Model.build_ok o n m h
  have h₁ := (mapM_eq_ok _ _ _ h₁).imp fun x y hxy =>
    show x.1.path = y.1.path ∧ y.2 = x.2 by
      obtain ⟨_, -, hxy⟩ := (bind_eq_ok _ _ _).mp hxy
      obtain rfl := (pure_eq_ok _ _).mp hxy
      exact ⟨rfl, rfl⟩
  have h₂ := (mapM_eq_ok _ _ _ h₂).imp fun x y hxy =>
    show x.1.path = y.1.path ∧ y.2 = x.2 ∧
        ∃ c, Build.pool c x.1.path x.2.order = .ok y.1.pool by
      obtain ⟨_, hpool, hxy⟩ := (bind_eq_ok _ _ _).mp hxy
      obtain rfl := (pure_eq_ok _ _).mp hxy
      exact ⟨rfl, rfl, _, hpool⟩
  have h₃ : List.Forall₂ (fun x t => (x.1.path = t.path ∧ x.1.enums = t.enums ∧
      x.1.pool = t.pool) ∧ x.2.seq.mapM (Build.fieldAt o ⟨withPools.map Prod.fst⟩ t.path)
        = .ok t.fields ∧ x.2.instances.mapM (fun e => Build.instance t.path e.1 e.2)
        = .ok t.instances) withPools m.types := by
    rw [hm, List.forall₂_map_right_iff]
    refine (mapM_eq_ok _ _ _ h₃).imp fun x t hxt => ?_
    obtain ⟨fields, hfields, hxt⟩ := (bind_eq_ok _ _ _).mp hxt
    obtain ⟨instances, hinstances, hxt⟩ := (bind_eq_ok _ _ _).mp hxt
    obtain rfl := (pure_eq_ok _ _).mp hxt
    exact ⟨⟨rfl, rfl, rfl⟩, hfields, hinstances⟩
  refine ⟨_, List.forall₂_map_left_iff.mpr (h₃.imp fun _ _ hxt => ⟨hxt.1.1, hxt.1.2.1⟩), ?_, ?_⟩
  swap
  · intro t ht
    obtain ⟨u, -, rfl⟩ := List.mem_map.mp (hm ▸ ht)
    exact Build.usersOf_congr _ _ _ (forall₂_comp (fun x y z hxy hyz =>
      ⟨hxy.1.trans hyz.1, hyz.2.1.trans hxy.2⟩) h₁ h₂) u.path
  have h₂₃ : List.Forall₂ (Build.Makes o ⟨withPools.map Prod.fst⟩) withEnums m.types := by
    refine forall₂_comp (fun x y t hxy hyt => ?_) h₂ h₃
    obtain ⟨hpath, hbody, c, hpool⟩ := hxy
    obtain ⟨⟨hpath', -, hpool'⟩, hmembers⟩ := hyt
    rw [hpool', hpath, hpath'] at hpool
    rw [hbody] at hmembers
    exact ⟨hpath.trans hpath', ⟨c, hpool⟩, hmembers.1, hmembers.2⟩
  refine forall₂_comp (fun x y t hxy hyt => ?_) h₁ h₂₃
  obtain ⟨hpath, hbody⟩ := hxy
  exact ⟨hpath.trans hyt.path, hbody ▸ hyt.pool, hbody ▸ hyt.fields, hbody ▸ hyt.instances⟩

/-- Every type of a model is built from one of the set at the same path, with names that are looked
up as in the model itself. -/
theorem Model.build_made (o : Options) (n : SchemaSet) (m : Model) (h : Model.build o n = .ok m)
    (t : TypeDef) (ht : t ∈ m.types) : ∃ x ∈ Build.allShells n, x.1.path = t.path ∧
      ∃ b : Model, b.SameNames m ∧ x.2.seq.mapM (Build.fieldAt o b t.path) = .ok t.fields := by
  obtain ⟨b, hb, hall, -⟩ := Model.build_each o n m h
  obtain ⟨x, hx, hxt⟩ := forall₂_mem_right _ _ _ hall t ht
  exact ⟨x, hx, hxt.path, b, hb, hxt.fields⟩

theorem Model.build_fields (o : Options) (n : SchemaSet) (m : Model) (h : Model.build o n = .ok m)
    (t : TypeDef) (ht : t ∈ m.types) (f : Field) (hf : f ∈ t.fields) :
    ∃ x ∈ Build.allShells n, ∃ a ∈ x.2.seq, ∃ (b : Model) (here : TypePath),
      Build.fieldAt o b here a = .ok f := by
  obtain ⟨x, hx, -, b, -, hfields⟩ := Model.build_made o n m h t ht
  obtain ⟨a, ha, hfield⟩ := forall₂_mem_right _ _ _ (mapM_eq_ok _ _ _ hfields) f hf
  exact ⟨x, hx, a, ha, b, _, hfield⟩

theorem Model.compile_fields (o : Options) (set : SchemaSet) (m : Model)
    (h : Model.compile o set = .ok m) :
    ∃ n, set.normalize o = .ok n ∧ ∀ t ∈ m.types, ∀ f ∈ t.fields, f.MadeFrom o n := by
  obtain ⟨n, b, hn, hb, hus⟩ := Model.compile_each o set m h
  refine ⟨n, hn, fun t ht f hf => ?_⟩
  obtain ⟨u, hu, find?, hut⟩ := forall₂_mem_right _ _ _ hus t ht
  have hres := Resolve.typeDef_ok find? u t hut
  obtain ⟨g, hg, now, -, base, -, hf⟩ := forall₂_mem_right _ _ _ hres.fields f hf
  obtain ⟨x, hx, a, ha, model, here, hfield⟩ := Model.build_fields o n b hb u hu g hg
  exact ⟨x, hx, a, ha, model, here, g, base, hfield, hf⟩

def SchemaBody.FitsWords (b : SchemaBody) : Prop :=
  ∀ a ∈ b.attrs, ∀ v ∈ a.integers, ∀ i ∈ v, Word.isSigned i = true

theorem Schema.Formed.fitsWords (s : Schema) (h : s.Formed) : s.All SchemaBody.FitsWords := by
  induction h with
  | mk b ts hb _ _ ih => exact .mk b ts (fun a ha => (hb.attrs a ha).integers) ih

theorem Schema.formed_copy (s t : Schema) (h : s.copy = .ok t) : t.Formed := by
  unfold Schema.copy at h
  split at h
  next n _ => exact Decoder.gives_alone _ _ (Decode.formed_schemaWithin _ n) t h
  next => cases h

theorem SchemaBody.Ordering.fitsWords (b c : SchemaBody) (h : b.Ordering c) (hb : b.FitsWords) :
    c.FitsWords := by
  rw [h.eq, FitsWords, attrs_ordered]
  exact List.forall_mem_map.mpr fun a ha => hb a ha

/-- What holds of decoded types, and goes on holding when byte orders are added, holds of a normal
schema. -/
theorem SchemaSet.normalize_all (P : SchemaBody → Prop) (hf : ∀ s : Schema, s.Formed → s.All P)
    (ho : ∀ b c, b.Ordering c → P b → P c) (o : Options) (set n : SchemaSet)
    (h : set.normalize o = .ok n) : ∀ s ∈ n.schemas, s.All P := by
  obtain ⟨filled, -, h⟩ := (bind_eq_ok _ _ _).mp h
  obtain ⟨spelled, -, h⟩ := (bind_eq_ok _ _ _).mp h
  obtain ⟨c, hc, h⟩ := (bind_eq_ok _ _ _).mp h
  have hcopies := copy_ok spelled c (fresh_eq_ok spelled c hc)
  refine all_rel _ _ _ ho c n
    ((mapSchemas_ok c n _ h).imp fun s t hst => Normal.suffix_rel _ s t hst) fun s hs => ?_
  obtain ⟨u, -, hus⟩ := hcopies.mem_right s hs
  exact hf s (Schema.formed_copy u s hus)

theorem SchemaSet.normalize_fitsWords (o : Options) (set n : SchemaSet)
    (h : set.normalize o = .ok n) : ∀ s ∈ n.schemas, s.All SchemaBody.FitsWords :=
  normalize_all _ Schema.Formed.fitsWords SchemaBody.Ordering.fitsWords o set n h

def SchemaBody.KeysOnce (b : SchemaBody) : Prop :=
  ∀ a ∈ b.attrs, (Keyed.keys (Decode.casesOf a.type)).Nodup

theorem Schema.Formed.keysOnce (s : Schema) (h : s.Formed) : s.All SchemaBody.KeysOnce := by
  induction h with
  | mk b ts hb _ _ ih => exact .mk b ts (fun a ha => (hb.attrs a ha).cases) ih

theorem SchemaBody.Ordering.keysOnce (b c : SchemaBody) (h : b.Ordering c) (hb : b.KeysOnce) :
    c.KeysOnce := by
  rw [h.eq, KeysOnce, attrs_ordered]
  refine List.forall_mem_map.mpr fun a ha => ?_
  rw [Normal.keys_attrEndian]
  exact hb a ha

theorem SchemaSet.normalize_keysOnce (o : Options) (set n : SchemaSet)
    (h : set.normalize o = .ok n) : ∀ s ∈ n.schemas, s.All SchemaBody.KeysOnce :=
  normalize_all _ Schema.Formed.keysOnce SchemaBody.Ordering.keysOnce o set n h

theorem Field.MadeFrom.builds (o : Options) (set n : SchemaSet) (hn : set.normalize o = .ok n)
    (f : Field) (h : f.MadeFrom o n) :
    ∃ (a : Attr) (b : Model) (here : TypePath) (g : Field) (base : TypeDef),
      (∀ v ∈ a.integers, ∀ i ∈ v, Word.isSigned i = true) ∧ Build.Builds o b here a g ∧
        f = { Resolve.freeSize base g with deps := f.deps } := by
  obtain ⟨x, hx, a, ha, b, here, g, base, hfield, hf⟩ := h
  have hwords := Build.all_allShells _ n (SchemaSet.normalize_fitsWords o set n hn) x hx
  exact ⟨a, b, here, g, base, hwords a (List.mem_append_left _ ha), Build.field_ok _ _ _ _ _ hfield,
    hf⟩

end FormatFuzz
