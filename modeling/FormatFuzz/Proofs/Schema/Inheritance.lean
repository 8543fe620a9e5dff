import FormatFuzz.Proofs.Schema.Clashes
import FormatFuzz.Proofs.Schema.Idempotence
import FormatFuzz.Proofs.Schema.Parsed

/-!
# What a type takes from the types around it

A byte order or an encoding that a type does not declare is that of the nearest type around it that
does, and that of the options or `UTF-8` if none does. `Schema.Inherits` compares a schema with its
normal form in this way, type by type and downwards, with what holds around a type as parameters.
The steps to the normal form each do their part of it to the copy that they work on; a copy that is
read as what it says changes nothing of it.
-/

set_option autoImplicit false

namespace FormatFuzz

def nearest (own around : String) : String :=
  if own = "" then around else own

/-- The name of a number that needs a byte order with one at its end, and any other name as it is. -/
def withOrder (endian name : String) : String :=
  if name ∈ Primitive.multiByte then name ++ endian else name

def asWritten (_ name : String) : String := name

def Attr.Renamed (r : String → String) (a b : Attr) : Prop :=
  b.named = a.named.map fun n => (n.1, r n.2)

theorem Attr.Renamed.comp (r r' : String → String) (a b c : Attr) (hab : a.Renamed r b)
    (hbc : b.Renamed r' c) : a.Renamed (r' ∘ r) c := by
  unfold Renamed at *
  rw [hbc, hab, List.map_map]
  rfl

theorem Attr.renamed_asWritten (endian : String) (a b : Attr) (h : b.named = a.named) :
    a.Renamed (asWritten endian) b := by
  simpa [Renamed, asWritten] using h

theorem Attr.named_of_type (a b : Attr) (h : b.type = a.type) : b.named = a.named := by
  unfold named
  rw [h]

namespace SchemaBody

/-- The members of two types in their places, with type names that differ by a renaming. -/
structure Members (r : String → String) (b c : SchemaBody) : Prop where
  seq : List.Forall₂ (Attr.Renamed r) b.seq c.seq
  instances : List.Forall₂ (fun e f => f.1 = e.1 ∧ e.2.Renamed r f.2) b.instances c.instances

theorem Members.comp (r r' : String → String) (b c d : SchemaBody) (hbc : b.Members r c)
    (hcd : c.Members r' d) : b.Members (r' ∘ r) d where
  seq := forall₂_comp (Attr.Renamed.comp r r') hbc.seq hcd.seq
  instances := forall₂_comp (fun _ _ _ hef hfg => ⟨hfg.1.trans hef.1, hef.2.comp r r' _ _ _ hfg.2⟩)
    hbc.instances hcd.instances

/-- A type with the same byte order and encoding, and type names renamed by the byte order. -/
structure Renames (r : String → String → String) (b c : SchemaBody) : Prop where
  endian : c.head.endian = b.head.endian
  encoding : c.head.encoding = b.head.encoding
  members : b.Members (r c.head.endian) c

/-- A type has its own byte order and encoding or those around it, the encoding by its canonical
name, and its type names are renamed by the byte order. -/
structure Inherits (r : String → String → String) (endian encoding : String) (b c : SchemaBody) :
    Prop where
  endian : c.head.endian = nearest b.head.endian endian
  encoding : c.head.encoding = Encoding.canonical (nearest b.head.encoding encoding)
  members : b.Members (r c.head.endian) c

end SchemaBody

namespace Schema

mutual

/-- Every type of a schema inherits from the types around it, the outermost one from what is given. -/
inductive Inherits (r : String → String → String) : String → String → Schema → Schema → Prop
  | mk (endian encoding : String) (b c : SchemaBody) (ts us : List (String × Schema))
      (hb : b.Inherits r endian encoding c)
      (ht : InheritsAll r (nearest b.head.endian endian) (nearest b.head.encoding encoding) ts us) :
      Inherits r endian encoding (.mk b ts) (.mk c us)

inductive InheritsAll (r : String → String → String) :
    String → String → List (String × Schema) → List (String × Schema) → Prop
  | nil (endian encoding : String) : InheritsAll r endian encoding [] []
  | cons (endian encoding name : String) (s t : Schema) (ts us : List (String × Schema))
      (h : Inherits r endian encoding s t) (hs : InheritsAll r endian encoding ts us) :
      InheritsAll r endian encoding ((name, s) :: ts) ((name, t) :: us)

end

end Schema

/-- The main schema and every import inherit from the options, each on its own. -/
def SchemaSet.Inherits (r : String → String → String) (o : Options) (set t : SchemaSet) : Prop :=
  SchemaSet.Rel (Schema.Inherits r o.hostEndian "UTF-8") set t

section

variable {r r' : String → String → String}

mutual

theorem Schema.Inherits.renamed : {endian encoding : String} → {s t u : Schema} →
    s.Inherits r endian encoding t → Schema.Rel (SchemaBody.Renames r') t u →
    s.Inherits (fun e => r' e ∘ r e) endian encoding u
  | _, _, _, _, _, .mk endian encoding b c ts us hb ht, .mk _ d _ vs hc hu => by
    refine .mk endian encoding b d ts vs ⟨hc.endian.trans hb.endian, hc.encoding.trans hb.encoding, ?_⟩
      (ht.renamed hu)
    have hmembers := hb.members
    rw [← hc.endian] at hmembers
    exact hmembers.comp _ _ b c d hc.members

theorem Schema.InheritsAll.renamed : {endian encoding : String} →
    {ts us vs : List (String × Schema)} → Schema.InheritsAll r endian encoding ts us →
    Schema.Rels (SchemaBody.Renames r') us vs →
    Schema.InheritsAll (fun e => r' e ∘ r e) endian encoding ts vs
  | _, _, _, _, _, .nil endian encoding, .nil => .nil endian encoding
  | _, _, _, _, _, .cons endian encoding name s _ ts _ h hs, .cons _ _ u _ vs hu hus =>
    .cons endian encoding name s u ts vs (h.renamed hu) (hs.renamed hus)

end

mutual

theorem Schema.Inherits.behind : {endian encoding : String} → {s t u : Schema} →
    Schema.Rel (SchemaBody.Renames asWritten) s t → t.Inherits r endian encoding u →
    s.Inherits r endian encoding u
  | _, _, _, _, _, .mk b c ts us hb ht, .mk endian encoding _ d _ vs hc hu => by
    have hend := hb.endian
    have henc := hb.encoding
    refine .mk endian encoding b d ts vs ⟨by rw [hc.endian, hend], by rw [hc.encoding, henc], ?_⟩ ?_
    · exact hb.members.comp _ _ b c d hc.members
    · rw [hend, henc] at hu
      exact Schema.InheritsAll.behind ht hu

theorem Schema.InheritsAll.behind : {endian encoding : String} →
    {ts us vs : List (String × Schema)} → Schema.Rels (SchemaBody.Renames asWritten) ts us →
    Schema.InheritsAll r endian encoding us vs → Schema.InheritsAll r endian encoding ts vs
  | _, _, _, _, _, .nil, .nil endian encoding => .nil endian encoding
  | _, _, _, _, _, .cons name s _ ts _ hst hs, .cons endian encoding _ _ u _ vs h hus =>
    .cons endian encoding name s u ts vs (h.behind hst) (hus.behind hs)

end

end

namespace Normal

theorem head_inherits (path : TypePath) (name endian encoding : String) (m n : Meta)
    (h : head path name endian encoding m = .ok n) : n.endian = nearest m.endian endian ∧
      n.encoding = Encoding.canonical (nearest m.encoding encoding) := by
  unfold head at h
  simp only at h
  rw [← nearest, ← nearest] at h
  generalize nearest m.endian endian = byteOrder at h ⊢
  generalize Encoding.canonical (nearest m.encoding encoding) = canon at h ⊢
  by_cases hend : (Endian.ofText? byteOrder).isNone = true
  · rw [if_pos hend] at h
    cases h
  rw [if_neg hend] at h
  by_cases hcanon : canon = ""
  · rw [if_pos hcanon] at h
    cases h
  rw [if_neg hcanon] at h
  obtain rfl := Except.ok.inj h
  exact ⟨rfl, rfl⟩

theorem body_inherits (set : SchemaSet) (sc : Scope) (name endian encoding : String)
    (b c : SchemaBody) (h : body set sc name endian encoding b = .ok c) :
    b.Inherits asWritten endian encoding c := by
  obtain ⟨m, hm, h⟩ := (bind_eq_ok _ _ _).mp h
  obtain ⟨seq, hseq, h⟩ := (bind_eq_ok _ _ _).mp h
  obtain ⟨instances, hinst, h⟩ := (bind_eq_ok _ _ _).mp h
  obtain rfl := (pure_eq_ok _ _).mp h
  obtain ⟨hend, henc⟩ := head_inherits _ _ _ _ _ _ hm
  refine ⟨hend, henc, (mapM_eq_ok _ _ _ hseq).imp fun a a' ha => ?_,
    (mapM_eq_ok _ _ _ hinst).imp fun e f hf => ?_⟩
  · obtain ⟨-, htype, -⟩ := attr_ok _ _ _ _ _ ((Fault.at_eq_ok _ _ _ _ _).mp ha)
    exact Attr.renamed_asWritten _ _ _ (Attr.named_of_type a a' htype)
  · obtain ⟨a', ha, hf⟩ := (bind_eq_ok _ _ _).mp hf
    obtain rfl := (pure_eq_ok _ _).mp hf
    obtain ⟨-, htype, -⟩ := attr_ok _ _ _ _ _ ((Fault.at_eq_ok _ _ _ _ _).mp ha)
    exact ⟨rfl, Attr.renamed_asWritten _ _ _ (Attr.named_of_type e.2 a' htype)⟩

theorem canonical_nearest (own encoding written : String)
    (h : Encoding.canonical encoding = Encoding.canonical written) :
    Encoding.canonical (nearest own encoding) = Encoding.canonical (nearest own written) := by
  unfold nearest
  split
  · exact h
  · rfl

mutual

theorem schema_inherits (set : SchemaSet) (sc : Scope) (name endian encoding written : String)
    (henc : Encoding.canonical encoding = Encoding.canonical written) :
    (s t : Schema) → schema set sc name endian encoding s = .ok t →
    s.Inherits asWritten endian written t
  | .mk b ts, t, h => by
    obtain ⟨c, hc, h⟩ := (bind_eq_ok _ _ _).mp h
    obtain ⟨us, hus, h⟩ := (bind_eq_ok _ _ _).mp h
    obtain rfl := (pure_eq_ok _ _).mp h
    have hb := body_inherits set sc name endian encoding b c hc
    have hnearest := canonical_nearest b.head.encoding encoding written henc
    refine .mk endian written b c ts us ⟨hb.endian, hb.encoding.trans hnearest, hb.members⟩ ?_
    rw [← hb.endian]
    refine schemas_inherits set sc _ _ _ ?_ ts us hus
    rw [hb.encoding, Encoding.canonical_canonical, hnearest]

theorem schemas_inherits (set : SchemaSet) (sc : Scope) (endian encoding written : String)
    (henc : Encoding.canonical encoding = Encoding.canonical written) :
    (ts us : List (String × Schema)) → schemas set sc endian encoding ts = .ok us →
    Schema.InheritsAll asWritten endian written ts us
  | [], us, h => by
    cases h
    exact .nil endian written
  | (name, s) :: ts, us, h => by
    obtain ⟨t, ht, h⟩ := (bind_eq_ok _ _ _).mp h
    obtain ⟨us, hus, h⟩ := (bind_eq_ok _ _ _).mp h
    obtain rfl := (pure_eq_ok _ _).mp h
    exact .cons endian written name s t ts us
      (schema_inherits set _ name endian encoding written henc s t ht)
      (schemas_inherits set sc endian encoding written henc ts us hus)

end

theorem withEndian_eq (endian name : String) : withEndian endian name = withOrder endian name := by
  unfold withEndian withOrder
  by_cases hm : name ∈ Primitive.multiByte
  · obtain ⟨p, -, hp, -, hamb, -⟩ := Primitive.ofName?_append name hm .little
    rw [if_pos hm, hp]
    exact if_pos hamb
  · rw [if_neg hm]
    split
    next p hp => exact if_neg fun ha => hm (Primitive.mem_multiByte name p hp ha)
    next => rfl

theorem renamed_attrEndian (endian : String) (a : Attr) :
    a.Renamed (withOrder endian) (attrEndian endian a) := by
  unfold Attr.Renamed Attr.named attrEndian
  cases a.type with
  | none => rfl
  | some t => cases t <;> simp [withEndian_eq]

end Normal

namespace SchemaBody

theorem members_asWritten (endian : String) (b c : SchemaBody)
    (hseq : List.Forall₂ (fun a a' => a'.named = a.named) b.seq c.seq)
    (hinst : List.Forall₂ (fun e f => f.1 = e.1 ∧ f.2.named = e.2.named) b.instances c.instances) :
    b.Members (asWritten endian) c where
  seq := hseq.imp fun _ _ h => Attr.renamed_asWritten endian _ _ h
  instances := hinst.imp fun _ _ h => ⟨h.1, Attr.renamed_asWritten endian _ _ h.2⟩

theorem Spelling.renames (b c : SchemaBody) (h : b.Spelling c) : b.Renames asWritten c where
  endian := by rw [h.head]
  encoding := by rw [h.head]
  members := by
    refine members_asWritten _ b c ?_ ?_
    · rw [h.seq]
      exact List.forall₂_same.mpr fun _ _ => rfl
    · rw [h.instances]
      exact List.forall₂_same.mpr fun _ _ => ⟨rfl, rfl⟩

theorem Ordering.renames (b c : SchemaBody) (h : b.Ordering c) : b.Renames withOrder c := by
  rw [h.eq]
  refine ⟨rfl, rfl, ?_, ?_⟩
  · exact forall₂_map _ _ fun a _ => Normal.renamed_attrEndian _ a
  · exact forall₂_map _ _ fun e _ => ⟨rfl, Normal.renamed_attrEndian _ e.2⟩

theorem renames_arranged (b : SchemaBody) : b.Renames asWritten b.arranged := by
  have attr (a : Attr) : a.arranged.named = a.named := by
    unfold Attr.arranged Attr.named
    cases a.type with
    | none => rfl
    | some t => cases t <;> rfl
  refine ⟨rfl, rfl, members_asWritten _ b _ ?_ ?_⟩
  · exact forall₂_map _ _ fun a _ => attr a
  · exact forall₂_map _ _ fun e _ => ⟨rfl, attr e.2⟩

end SchemaBody

theorem Schema.rels_of_forall₂ {R : SchemaBody → SchemaBody → Prop}
    (ts us : List (String × Schema))
    (h : List.Forall₂ (fun e f => f.1 = e.1 ∧ Schema.Rel R e.2 f.2) ts us) :
    Schema.Rels R ts us := by
  induction h with
  | nil => exact .nil
  | @cons e f ts us hef _ ih =>
    obtain ⟨name, s⟩ := e
    obtain ⟨key, t⟩ := f
    obtain ⟨rfl, hst⟩ := hef
    exact .cons key s t ts us hst ih

namespace Decode

open Decoder

theorem leaves_rereadHead (m : Meta) (hp : ∀ v ∈ m.untyped, v.Proper) :
    Leaves (rereadHead m) fun n => n.endian = m.endian ∧ n.encoding = m.encoding := by
  have untyped := fun v hv => (needs_rereadUntyped v (hp v hv)).leaves
  refine leaves_mono _ _ _ (leaves_bind _ _ _ _ (untyped m.application (by simp [Meta.untyped]))
    fun _ => leaves_bind _ _ _ _ (untyped m.fileExtension (by simp [Meta.untyped]))
    fun _ => leaves_pure _) ?_
  rintro _ ⟨_, -, _, -, rfl⟩
  exact ⟨rfl, rfl⟩

theorem leaves_rereadSchema (s : Schema) (h : s.Formed) :
    Leaves (rereadSchema s) (Schema.Rel (SchemaBody.Renames asWritten) s) := by
  induction h with
  | mk b ts hb hn _ ih =>
    obtain ⟨hhead, horder⟩ := List.forall_mem_append.mp hb.proper.values
    have attr : ∀ a ∈ b.attrs, Leaves (rereadAttr a) fun a' => a'.named = a.named := fun a ha =>
      leaves_mono _ _ _ (leaves_rereadAttr a (hb.attrs a ha).proper) fun _ h =>
        h.2 (hb.attrs a ha).cases
    have seq := leaves_mapM rereadAttr (fun a a' => a'.named = a.named) b.seq fun a ha =>
      attr a (List.mem_append_left _ ha)
    have types := leaves_keyedItems ts rereadSchema _ hn ih
    have instances := leaves_keyedItems b.instances rereadAttr (fun a a' => a'.named = a.named)
      hb.instances fun e he => attr e.2 (List.mem_append_right _ (List.mem_map_of_mem he))
    have enums := needs_keyedItems b.enums (fun es => es.mapM rereadEntry) (fun _ => True)
      fun e _ => needs_mono _ _ _ (needs_mapM rereadEntry (fun _ => True) e.2 fun x _ =>
        needs_rereadEntry x) fun _ => trivial
    rw [rereadSchema, rereadTypes_eq]
    refine leaves_mono _ _ _ (leaves_bind _ _ _ _ (leaves_rereadHead b.head hhead) fun head =>
      leaves_bind _ _ _ _ seq fun seq => leaves_bind _ _ _ _ types fun types =>
      leaves_bind _ _ _ _ instances fun instances => leaves_bind _ _ _ _ enums.leaves fun enums =>
      leaves_bind _ _ _ _ (needs_values b.order horder).leaves fun order => leaves_pure _) ?_
    rintro _ ⟨head, ⟨hend, henc⟩, seq, hseq, us, hus, instances, hinst, _, -, _, -, rfl⟩
    exact .mk b _ ts us ⟨hend, henc, SchemaBody.members_asWritten _ b _ hseq hinst⟩
      (Schema.rels_of_forall₂ ts us hus)

end Decode

theorem Schema.copy_renames (s t : Schema) (hf : s.Formed) (hk : s.Kept) (h : s.copy = .ok t) :
    Schema.Rel (SchemaBody.Renames asWritten) s t := by
  rw [copy_eq s hk.carried (hf.proper.imp _ _ SchemaBody.Proper.further)] at h
  exact Decoder.leaves_alone _ _ (Decode.leaves_rereadSchema s hf) t h

namespace SchemaSet

/-- The schemas of two sets with the same byte orders and encodings, and type names renamed. -/
def Renames (r : String → String → String) (set t : SchemaSet) : Prop :=
  Rel (Schema.Rel (SchemaBody.Renames r)) set t

theorem copy_renames (set c : SchemaSet) (hf : set.Formed) (hk : set.Kept) (h : set.copy = .ok c) :
    set.Renames asWritten c := by
  have hcopy := copy_ok set c h
  have hmem : ∀ e ∈ set.imported, e.2.schema ∈ set.schemas := fun e he =>
    List.mem_cons_of_mem _ (List.mem_map_of_mem he)
  have renames : ∀ s ∈ set.schemas, ∀ u, s.copy = .ok u →
      Schema.Rel (SchemaBody.Renames asWritten) s u := fun s hs u =>
    s.copy_renames u (hf s hs) (hk s hs)
  refine ⟨hcopy.path, renames _ (by simp [schemas]) _ hcopy.main, ?_⟩
  refine ((List.forall₂_and_left _ _).mpr ⟨hmem, hcopy.imported⟩).imp fun e f hef => ?_
  exact ⟨hef.2.1, hef.2.2.1, renames _ hef.1 _ hef.2.2.2⟩

theorem renames_arranged (set : SchemaSet) : set.Renames asWritten set.arranged :=
  set.rel_arranged.imp fun _ _ h => h.imp fun b _ hc => hc ▸ b.renames_arranged

theorem fillDefaults_inherits (o : Options) (set t : SchemaSet) (h : set.fillDefaults o = .ok t) :
    ∃ c, set.copy = .ok c ∧ c.Inherits asWritten o t := by
  obtain ⟨c, hc, h⟩ := (bind_eq_ok _ _ _).mp h
  exact ⟨c, fresh_eq_ok set c hc, (mapSchemas_ok c t _ h).imp fun s u hsu =>
    Normal.schema_inherits c _ "" o.hostEndian "UTF-8" "UTF-8" rfl s u hsu⟩

theorem spellEnums_renames (set t : SchemaSet) (h : set.spellEnums = .ok t) :
    ∃ c, set.copy = .ok c ∧ c.Renames asWritten t := by
  obtain ⟨c, hc, h⟩ := (bind_eq_ok _ _ _).mp h
  exact ⟨c, fresh_eq_ok set c hc, (mapSchemas_ok c t _ h).imp fun s u hsu =>
    (Normal.spell_rel _ s u hsu).imp SchemaBody.Spelling.renames⟩

theorem resolveEndian_renames (set t : SchemaSet) (h : set.resolveEndian = .ok t) :
    ∃ c, set.copy = .ok c ∧ c.Renames withOrder t := by
  obtain ⟨c, hc, h⟩ := (bind_eq_ok _ _ _).mp h
  exact ⟨c, fresh_eq_ok set c hc, (mapSchemas_ok c t _ h).imp fun s u hsu =>
    (Normal.suffix_rel _ s u hsu).imp SchemaBody.Ordering.renames⟩

theorem Inherits.renamed (r r' : String → String → String) (o : Options) (a b c : SchemaSet)
    (hab : a.Inherits r o b) (hbc : b.Renames r' c) :
    a.Inherits (fun e => r' e ∘ r e) o c := by
  unfold Inherits Renames at *
  exact Rel.comp (fun _ _ _ h h' => h.renamed h') hab hbc

theorem Inherits.behind (r : String → String → String) (o : Options) (a b c : SchemaSet)
    (hab : a.Renames asWritten b) (hbc : b.Inherits r o c) : a.Inherits r o c := by
  unfold Inherits Renames at *
  exact Rel.comp (fun s t u (h : Schema.Rel _ s t) (h' : t.Inherits r o.hostEndian "UTF-8" u) =>
    h'.behind h) hab hbc

/-- The first step gives every type of the copy it works on the byte order and the encoding that it
inherits, the second one changes neither these nor a type name, and the third one gives every number
that needs it the byte order of its type. What the schema says is inherited by its normal form in
this way if the copies in between are read as what they say. -/
theorem normalize_inherits (o : Options) (set t : SchemaSet) (h : set.normalize o = .ok t) :
    (∃ filled spelled, set.fillDefaults o = .ok filled ∧ filled.spellEnums = .ok spelled ∧
      spelled.resolveEndian = .ok t ∧
      (∃ c, set.copy = .ok c ∧ c.Inherits asWritten o filled) ∧
      (∃ c, filled.copy = .ok c ∧ c.Renames asWritten spelled) ∧
      ∃ c, spelled.copy = .ok c ∧ c.Renames withOrder t) ∧
    (set.Formed → set.KeptThrough o → set.Inherits withOrder o t) := by
  obtain ⟨a, ha, h⟩ := (bind_eq_ok _ _ _).mp h
  obtain ⟨b, hb, ht⟩ := (bind_eq_ok _ _ _).mp h
  obtain ⟨c, hc, hca⟩ := set.fillDefaults_inherits o a ha
  obtain ⟨d, hd, hdb⟩ := a.spellEnums_renames b hb
  obtain ⟨e, he, het⟩ := b.resolveEndian_renames t ht
  refine ⟨⟨a, b, ha, hb, ht, ⟨c, hc, hca⟩, ⟨d, hd, hdb⟩, e, he, het⟩, fun hf hk => ?_⟩
  have hsc := set.copy_renames c hf hk.kept hc
  have has := (fillDefaults_ok o set c a hc (set.settled_copy c hf.proper hk.kept hc) ha).1
  have hac := a.copy_settled has (hk.filled a ha)
  have hbs := (spellEnums_ok a _ b hac (a.settled_arranged has) hb).1
  have hbc := b.copy_settled hbs (hk.spelled a b ha hb)
  obtain rfl := Except.ok.inj (hac.symm.trans hd)
  obtain rfl := Except.ok.inj (hbc.symm.trans he)
  have hsa := hca.behind _ o set c a hsc
  have hsb := (hsa.renamed _ _ o _ _ _ a.renames_arranged).renamed _ _ o _ _ _ hdb
  exact (hsb.renamed _ _ o _ _ _ b.renames_arranged).renamed _ _ o _ _ _ het

structure Inherited where
  path : TypePath
  endian : String
  encoding : String
  names : List (Option String × String)
  deriving DecidableEq

def inherited (set : SchemaSet) : List Inherited :=
  (Build.allShells set).map fun x =>
    ⟨x.1.path, x.1.endian, x.1.encoding, x.2.attrs.flatMap Attr.named⟩

/-- A byte order and an encoding that go down through a type that declares neither. -/
def tower : String :=
  "meta: {id: a, endian: be, encoding: ascii}\ntypes:\n  b:\n    seq:\n      - {type: s4}\n" ++
  "    types:\n      c:\n        meta: {endian: le}\n        seq:\n" ++
  "          - type: {switch-on: 1, cases: {1: u8, 2: b}}\n"

theorem normalize_inherits_tower : ∃ set t, ofText "a.ksy" tower = .ok set ∧ set.Formed ∧
    set.KeptThrough {} ∧ set.normalize {} = .ok t ∧ set.Inherits withOrder {} t ∧
      t.inherited = [⟨["a"], "be", "ASCII", []⟩, ⟨["a", "b"], "be", "ASCII", [(none, "s4be")]⟩,
        ⟨["a", "b", "c"], "le", "ASCII", [(some "1", "u8le"), (some "2", "b")]⟩] := by
  obtain ⟨set, hset, hview⟩ := exists_ok_of_toOption_map (ofText "a.ksy" tower)
    (fun set => (set.isSteadyThrough {}, (set.normalize {}).toOption.map inherited)) (true, some
      [⟨["a"], "be", "ASCII", []⟩, ⟨["a", "b"], "be", "ASCII", [(none, "s4be")]⟩,
        ⟨["a", "b", "c"], "le", "ASCII", [(some "1", "u8le"), (some "2", "b")]⟩])
    (by decide +kernel)
  obtain ⟨hsteady, hview⟩ := Prod.mk.inj hview
  obtain ⟨t, ht, hview⟩ := exists_ok_of_toOption_map (set.normalize {}) inherited _ hview
  have hformed := Parsed.formed set (.inl ⟨_, _, hset⟩)
  have hkept := set.keptThrough_of_isSteadyThrough {} hsteady
  exact ⟨set, t, hset, hformed, hkept, ht, (normalize_inherits {} set t ht).2 hformed hkept, hview⟩

/-- A type name that begins with a line break, under a key that is no list entry. -/
def broken : String :=
  "meta:\n  id: a\ninstances:\n  f:\n    value: 1\n    type: \"\\nx\"\ntypes:\n  x: {}\n"

def instanceNames (set : SchemaSet) : List (Option String × String) :=
  set.main.schema.body.instances.flatMap fun e => e.2.named

theorem Inherits.instanceNames (r : String → String → String) (o : Options) (set t : SchemaSet)
    (h : set.Inherits r o t) : ∃ endian, t.instanceNames
      = set.instanceNames.map fun n => (n.1, r endian n.2) := by
  have hmain := h.main
  unfold SchemaSet.instanceNames
  generalize set.main.schema = s at hmain ⊢
  generalize t.main.schema = u at hmain ⊢
  cases hmain with
  | mk _ _ b c _ _ hb _ =>
    refine ⟨c.head.endian, ?_⟩
    have hnames : c.instances.map (fun e => e.2.named)
        = b.instances.map fun e => e.2.named.map fun n => (n.1, r c.head.endian n.2) :=
      map_eq_of_forall₂ _ _ hb.members.instances.flip fun _ _ hef => hef.2
    change c.instances.flatMap _ = (b.instances.flatMap _).map _
    rw [List.map_flatMap, List.flatMap_def, hnames, List.flatMap_def]

/-- A type name that needs no byte order does not come through as it is. -/
theorem normalize_renames : ∃ set t, ofText "a.ksy" broken = .ok set ∧
    set.normalize {} = .ok t ∧ ¬ set.Inherits withOrder {} t := by
  obtain ⟨set, hset, hview⟩ := exists_ok_of_toOption_map (ofText "a.ksy" broken)
    (fun set => (set.normalize {}).toOption.map fun t => (set.instanceNames, t.instanceNames))
    (some ([(none, "\nx")], [(none, "x")])) (by decide +kernel)
  obtain ⟨t, ht, hview⟩ := exists_ok_of_toOption_map (set.normalize {}) _ _ hview
  obtain ⟨hbefore, hafter⟩ := Prod.mk.inj hview
  refine ⟨set, t, hset, ht, fun h => ?_⟩
  obtain ⟨endian, hnames⟩ := h.instanceNames
  rw [hbefore, hafter] at hnames
  have hname : withOrder endian "\nx" = "\nx" := by
    unfold withOrder
    exact if_neg (by decide)
  simp [hname] at hnames

end SchemaSet

end FormatFuzz
