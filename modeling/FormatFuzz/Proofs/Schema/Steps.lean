import FormatFuzz.Proofs.Schema.NormalForm
import FormatFuzz.Proofs.Schema.Visibility

/-!
# The three steps to a normal schema

Each step brings about its property in every type of a schema, leaves a schema that has it as it is,
and keeps the properties of the steps before it. A settled schema stays settled.
-/

set_option autoImplicit false

namespace FormatFuzz

def EnumEntry.Spelled (e : EnumEntry) : Prop := ∃ v, e.form = .verbose v ∧ v.id ≠ ""

def Attr.typeNames (a : Attr) : List String :=
  match a.type with
  | none => []
  | some (.named name) => [name]
  | some (.switch _ cases) => cases.map Prod.snd

def Attr.Ordered (a : Attr) : Prop := ∀ name ∈ a.typeNames, name ∉ Primitive.multiByte

namespace SchemaBody

/-- A type with a byte order and an encoding, whose members have what their types call for. -/
structure Filled (known : String → Prop) (name : String) (b : SchemaBody) : Prop where
  endian : (Endian.ofText? b.head.endian).isSome = true
  encoding : Encoding.canonical b.head.encoding = b.head.encoding
  encoded : b.head.encoding ≠ ""
  id : b.head.id = "" → name = ""
  seq : ∀ a ∈ b.seq, a.Filled known
  instances : ∀ e ∈ b.instances, e.2.Filled known ∧ e.2.id = e.1

def Spelled (b : SchemaBody) : Prop := ∀ e ∈ b.enums, ∀ x ∈ e.2, x.Spelled

/-- A type with a byte order that its members name where they need one. -/
structure Ordered (b : SchemaBody) : Prop where
  endian : b.head.endian ≠ ""
  attrs : ∀ a ∈ b.attrs, a.Ordered

end SchemaBody

namespace Schema

inductive Filled (set : SchemaSet) : Scope → String → Schema → Prop
  | mk (sc : Scope) (name : String) (b : SchemaBody) (ts : List (String × Schema))
      (hb : b.Filled (set.Knows sc) name)
      (ht : ∀ e ∈ ts, Filled set (Scope.child sc e.1 e.2) e.1 e.2) : Filled set sc name (.mk b ts)

end Schema

namespace SchemaSet

def Filled (set : SchemaSet) : Prop := ∀ s ∈ set.schemas, s.Filled set (Scope.top s) ""

def Spelled (set : SchemaSet) : Prop := ∀ s ∈ set.schemas, s.All SchemaBody.Spelled

def Ordered (set : SchemaSet) : Prop := ∀ s ∈ set.schemas, s.All SchemaBody.Ordered

end SchemaSet

theorem Fault.at_eq_ok {α : Type} (type : List String) (member key : String) (r : Except Fault α)
    (a : α) : Fault.at_ type member key r = .ok a ↔ r = .ok a := by
  cases r <;> simp [Fault.at_]

namespace Normal

theorem head_ok (path : TypePath) (name endian encoding : String) (m n : Meta)
    (h : head path name endian encoding m = .ok n) :
    (Endian.ofText? n.endian).isSome = true ∧ Encoding.canonical n.encoding = n.encoding ∧
      n.encoding ≠ "" ∧ n.id = (if m.id = "" then name else m.id) ∧ n.untyped = m.untyped := by
  unfold head at h
  simp only at h
  generalize (if m.endian = "" then endian else m.endian) = byteOrder at h
  generalize (if m.encoding = "" then encoding else m.encoding) = text at h
  have hfix := Encoding.canonical_canonical text
  generalize Encoding.canonical text = canon at h hfix
  by_cases hend : (Endian.ofText? byteOrder).isNone = true
  · rw [if_pos hend] at h
    cases h
  rw [if_neg hend] at h
  by_cases hcanon : canon = ""
  · rw [if_pos hcanon] at h
    cases h
  rw [if_neg hcanon] at h
  obtain rfl := Except.ok.inj h
  refine ⟨?_, hfix, hcanon, rfl, rfl⟩
  rw [Option.isSome_iff_ne_none]
  simpa using hend

theorem head_filled (path : TypePath) (name endian encoding : String) (m : Meta)
    (h1 : (Endian.ofText? m.endian).isSome = true) (h2 : Encoding.canonical m.encoding = m.encoding)
    (h3 : m.encoding ≠ "") (h4 : m.id = "" → name = "") :
    head path name endian encoding m = .ok m := by
  have hend : m.endian ≠ "" := by
    intro h
    rw [h] at h1
    cases h1
  have hid : (if m.id = "" then name else m.id) = m.id := by
    split
    next h => rw [h4 h, h]
    next => rfl
  unfold head
  simp only [if_neg hend, if_neg h3, hid, h2]
  rw [if_neg]
  intro hnone
  rw [Option.isNone_iff_eq_none.mp hnone] at h1
  cases h1

theorem settled_id (a : Attr) (h : a.Settled) (id : String) : Attr.Settled { a with id := id } :=
  ⟨h.values, h.untyped, h.integers, h.rangeMin, h.rangeMax, h.cases, h.further⟩

theorem instance_ok (set : SchemaSet) (sc : Scope) (encoding : String) (e f : String × Attr)
    (h : (do
      let a ← Fault.at_ (Scope.path sc) e.1 "" (attr set sc encoding { e.2 with id := e.1 })
      return (e.1, a)) = .ok f) :
    f.1 = e.1 ∧ f.2.Filled (set.Knows sc) ∧ f.2.id = f.1 ∧ (e.2.Settled → f.2.Settled) := by
  obtain ⟨a, ha, hf⟩ := (bind_eq_ok _ _ _).mp h
  obtain ⟨hfilled, -, hid, hsettled⟩ := attr_ok _ _ _ _ _ ((Fault.at_eq_ok _ _ _ _ _).mp ha)
  obtain rfl := (pure_eq_ok _ _).mp hf
  exact ⟨rfl, hfilled, hid, fun hs => hsettled (settled_id e.2 hs e.1)⟩

theorem body_ok (set : SchemaSet) (sc : Scope) (name endian encoding : String) (b c : SchemaBody)
    (h : body set sc name endian encoding b = .ok c) :
    c.Filled (set.Knows sc) name ∧ c.head.id = (if b.head.id = "" then name else b.head.id) ∧
      (b.Settled → c.Settled) := by
  obtain ⟨m, hm, h⟩ := (bind_eq_ok _ _ _).mp h
  obtain ⟨seq, hseq, h⟩ := (bind_eq_ok _ _ _).mp h
  obtain ⟨instances, hinst, h⟩ := (bind_eq_ok _ _ _).mp h
  obtain rfl := (pure_eq_ok _ _).mp h
  obtain ⟨hend, henc, hne, hid, huntyped⟩ := head_ok _ _ _ _ _ _ hm
  have hseq : List.Forall₂ (fun a c => c.Filled (set.Knows sc) ∧ (a.Settled → c.Settled)) b.seq seq :=
    (mapM_eq_ok _ _ _ hseq).imp fun a c h => by
      obtain ⟨hfilled, -, -, hsettled⟩ := attr_ok _ _ _ _ _ ((Fault.at_eq_ok _ _ _ _ _).mp h)
      exact ⟨hfilled, hsettled⟩
  have hinst : List.Forall₂ (fun e f => f.1 = e.1 ∧ f.2.Filled (set.Knows sc) ∧ f.2.id = f.1 ∧
      (e.2.Settled → f.2.Settled)) b.instances instances :=
    (mapM_eq_ok _ _ _ hinst).imp fun e f h => instance_ok set sc m.encoding e f h
  have hkeys : Keyed.keys instances = Keyed.keys b.instances :=
    map_eq_of_forall₂ Prod.fst Prod.fst hinst.flip fun _ _ h => h.1
  refine ⟨⟨hend, henc, hne, ?_, fun c hc => ?_, fun f hf => ?_⟩, hid, fun hs => ⟨⟨?_, ?_⟩, hs.order, ?_, ?_,
    hs.enums, hs.entries⟩⟩
  · intro h0
    have h0 : m.id = "" := h0
    rw [hid] at h0
    split at h0
    · exact h0
    next hne => exact absurd h0 hne
  · obtain ⟨a, -, h⟩ := forall₂_mem_right _ _ _ hseq c hc
    exact h.1
  · obtain ⟨e, -, h⟩ := forall₂_mem_right _ _ _ hinst f hf
    exact ⟨h.2.1, h.2.2.1⟩
  · exact huntyped ▸ hs.head.values
  · exact huntyped ▸ hs.head.untyped
  · intro c hc
    rcases List.mem_append.mp hc with hc | hc
    · obtain ⟨a, ha, h⟩ := forall₂_mem_right _ _ _ hseq c hc
      exact h.2 (hs.attrs a (List.mem_append_left _ ha))
    · obtain ⟨f, hf, rfl⟩ := List.mem_map.mp hc
      obtain ⟨e, he, h⟩ := forall₂_mem_right _ _ _ hinst f hf
      exact h.2.2.2 (hs.attrs e.2 (List.mem_append_right _ (List.mem_map_of_mem he)))
  · change (Keyed.keys instances).Nodup
    exact hkeys ▸ hs.instances

theorem body_filled (set : SchemaSet) (sc : Scope) (name endian encoding : String) (b : SchemaBody)
    (h : b.Filled (set.Knows sc) name) : body set sc name endian encoding b = .ok b := by
  have hhead := head_filled (Scope.path sc) name endian encoding b.head h.endian h.encoding h.encoded
    h.id
  have hseq : (b.seq.mapM fun a =>
      Fault.at_ (Scope.path sc) a.id "" (attr set sc b.head.encoding a)) = .ok b.seq :=
    mapM_self _ _ fun a ha => (Fault.at_eq_ok _ _ _ _ _).mpr (attr_filled set sc _ a (h.seq a ha))
  have hinst : (b.instances.mapM fun e => do
      let a ← Fault.at_ (Scope.path sc) e.1 "" (attr set sc b.head.encoding { e.2 with id := e.1 })
      return (e.1, a)) = .ok b.instances := by
    refine mapM_self _ _ fun e he => ?_
    obtain ⟨hfilled, hid⟩ := h.instances e he
    have ha : ({ e.2 with id := e.1 } : Attr) = e.2 := by rw [← hid]
    rw [ha, (Fault.at_eq_ok _ _ _ _ _).mpr (attr_filled set sc _ e.2 hfilled)]
    rfl
  rw [body, hhead, ok_bind, hseq, ok_bind, hinst]
  rfl

mutual

theorem schema_rel (set : SchemaSet) (sc : Scope) (name endian encoding : String) :
    (s t : Schema) → schema set sc name endian encoding s = .ok t →
    Schema.Rel (fun b c => b.Settled → c.Settled) s t
  | .mk b ts, t, h => by
    obtain ⟨c, hc, h⟩ := (bind_eq_ok _ _ _).mp h
    obtain ⟨us, hus, h⟩ := (bind_eq_ok _ _ _).mp h
    obtain rfl := (pure_eq_ok _ _).mp h
    exact .mk b c ts us (body_ok _ _ _ _ _ _ _ hc).2.2 (schemas_rel set sc _ _ ts us hus)

theorem schemas_rel (set : SchemaSet) (sc : Scope) (endian encoding : String) :
    (ts us : List (String × Schema)) → schemas set sc endian encoding ts = .ok us →
    Schema.Rels (fun b c => b.Settled → c.Settled) ts us
  | [], us, h => by
    cases h
    exact .nil
  | (name, s) :: ts, us, h => by
    obtain ⟨t, ht, h⟩ := (bind_eq_ok _ _ _).mp h
    obtain ⟨us, hus, h⟩ := (bind_eq_ok _ _ _).mp h
    obtain rfl := (pure_eq_ok _ _).mp h
    exact .cons name s t ts us (schema_rel set _ name endian encoding s t ht)
      (schemas_rel set sc endian encoding ts us hus)

end

theorem schema_id (set : SchemaSet) (sc : Scope) (endian encoding : String) (s t : Schema)
    (h : schema set sc "" endian encoding s = .ok t) : s.id = t.id := by
  obtain ⟨b, ts⟩ := s
  obtain ⟨c, hc, h⟩ := (bind_eq_ok _ _ _).mp h
  obtain ⟨us, -, h⟩ := (bind_eq_ok _ _ _).mp h
  obtain rfl := (pure_eq_ok _ _).mp h
  change b.head.id = c.head.id
  rw [(body_ok _ _ _ _ _ _ _ hc).2.1]
  split
  next h => exact h
  next => rfl

end Normal

theorem SchemaSet.Alike.knows (set set' : SchemaSet) (h : set.Alike set') (sc sc' : Scope)
    (hsc : sc.Alike sc') (name : String) (hk : set.Knows sc name) : set'.Knows sc' name := by
  refine hk.imp id fun hs => ?_
  have := SchemaSet.Alike.lookupType set set' h sc sc' hsc name
  generalize set.lookupType sc name = x at this hs
  generalize set'.lookupType sc' name = y at this
  cases this with
  | some => rfl
  | none => cases hs

theorem SchemaBody.Filled.mono (known known' : String → Prop) (h : ∀ n, known n → known' n)
    (name : String) (b : SchemaBody) (hb : b.Filled known name) : b.Filled known' name :=
  ⟨hb.endian, hb.encoding, hb.encoded, hb.id, fun a ha => Attr.Filled.mono h a (hb.seq a ha),
    fun e he => ⟨Attr.Filled.mono h e.2 (hb.instances e he).1, (hb.instances e he).2⟩⟩

namespace Normal

variable (set set' : SchemaSet)

mutual

theorem filled_schema (hset : set.Alike set') (sc sc' : Scope) (hsc : sc.Alike sc') (name endian encoding : String) :
    (s t : Schema) → schema set sc name endian encoding s = .ok t → t.Filled set' sc' name
  | .mk b ts, t, h => by
    obtain ⟨c, hc, h⟩ := (bind_eq_ok _ _ _).mp h
    obtain ⟨us, hus, h⟩ := (bind_eq_ok _ _ _).mp h
    obtain rfl := (pure_eq_ok _ _).mp h
    refine .mk sc' name c us ?_ (filled_schemas hset sc sc' hsc _ _ ts us hus)
    exact (body_ok _ _ _ _ _ _ _ hc).1.mono _ _ (SchemaSet.Alike.knows set set' hset sc sc' hsc)

theorem filled_schemas (hset : set.Alike set') (sc sc' : Scope) (hsc : sc.Alike sc') (endian encoding : String) :
    (ts us : List (String × Schema)) → schemas set sc endian encoding ts = .ok us →
    ∀ e ∈ us, e.2.Filled set' (Scope.child sc' e.1 e.2) e.1
  | [], us, h => by
    cases h
    simp
  | (name, s) :: ts, us, h => by
    obtain ⟨t, ht, h⟩ := (bind_eq_ok _ _ _).mp h
    obtain ⟨us, hus, h⟩ := (bind_eq_ok _ _ _).mp h
    obtain rfl := (pure_eq_ok _ _).mp h
    have hchild : (Scope.child sc name s).Alike (Scope.child sc' name t) :=
      .child _ _ s t sc sc' (schema_rel set _ name endian encoding s t ht).alike hsc
    exact List.forall_mem_cons.mpr ⟨filled_schema hset _ _ hchild name endian encoding s t ht,
      filled_schemas hset sc sc' hsc endian encoding ts us hus⟩

end

theorem filled_rel (R : SchemaBody → SchemaBody → Prop)
    (hR : ∀ sc sc', sc.Alike sc' → ∀ name b c, R b c → b.Filled (set.Knows sc) name →
      c.Filled (set'.Knows sc') name)
    (sc : Scope) (name : String) (s : Schema) (hs : s.Filled set sc name) (sc' : Scope)
    (hsc : sc.Alike sc') (t : Schema) (hst : Schema.Rel R s t) : t.Filled set' sc' name := by
  induction hs generalizing sc' t with
  | mk sc name b ts hb _ ih =>
    cases hst with
    | mk _ c _ us hbc hts =>
      refine .mk sc' name c us (hR sc sc' hsc name b c hbc hb) fun e he => ?_
      obtain ⟨s, hmem, hse⟩ := hts.mem_right e he
      exact ih (e.1, s) hmem _ (.child _ _ s e.2 sc sc' hse.alike hsc) e.2 hse

mutual

theorem schema_filled (sc : Scope) (name endian encoding : String) :
    (s : Schema) → s.Filled set sc name → schema set sc name endian encoding s = .ok s
  | .mk b ts, h => by
    obtain ⟨_, _, _, _, hb, ht⟩ := h
    rw [schema, body_filled set sc name endian encoding b hb, ok_bind,
      schemas_filled sc _ _ ts ht]
    rfl

theorem schemas_filled (sc : Scope) (endian encoding : String) :
    (ts : List (String × Schema)) → (∀ e ∈ ts, e.2.Filled set (Scope.child sc e.1 e.2) e.1) →
    schemas set sc endian encoding ts = .ok ts
  | [], _ => rfl
  | (name, s) :: ts, h => by
    rw [schemas, schema_filled _ name endian encoding s (h (name, s) (by simp)), ok_bind,
      schemas_filled sc endian encoding ts fun e he => h e (List.mem_cons_of_mem _ he)]
    rfl

end

end Normal

structure SchemaBody.Spelling (b c : SchemaBody) : Prop where
  spelled : b.Settled → c.Spelled
  settled : b.Settled → c.Settled
  head : c.head = b.head
  seq : c.seq = b.seq
  instances : c.instances = b.instances

namespace Normal

theorem enumEntry_ok (e f : EnumEntry) (h : enumEntry e = .ok f) (he : e.form ≠ .short "") :
    f.Spelled ∧ (e.Settled → f.Settled) := by
  unfold enumEntry at h
  split at h
  next v hv =>
    split at h
    · cases h
    next hid =>
      obtain rfl := Except.ok.inj h
      exact ⟨⟨v, hv, hid⟩, id⟩
  next name hname =>
    obtain rfl := Except.ok.inj h
    refine ⟨⟨_, rfl, fun h0 => he ?_⟩, fun hs => ⟨hs.value, nofun, hs.line⟩⟩
    rw [hname, ← h0]
  next => cases h

theorem enumEntry_spelled (e : EnumEntry) (h : e.Spelled) : enumEntry e = .ok e := by
  obtain ⟨v, hv, hid⟩ := h
  unfold enumEntry
  simp only [hv]
  exact if_neg hid

theorem enums_ok (path : TypePath) (es fs : Keyed (List EnumEntry)) (h : enums path es = .ok fs) :
    List.Forall₂ (fun e f => f.1 = e.1 ∧ List.Forall₂ (fun x y => enumEntry x = .ok y) e.2 f.2)
      es fs := by
  refine (mapM_eq_ok _ _ _ h).imp fun e f h => ?_
  obtain ⟨entries, hentries, hf⟩ := (bind_eq_ok _ _ _).mp h
  obtain rfl := (pure_eq_ok _ _).mp hf
  exact ⟨rfl, mapM_eq_ok _ _ _ ((Fault.at_eq_ok _ _ _ _ _).mp hentries)⟩

theorem spelling (b : SchemaBody) (fs : Keyed (List EnumEntry)) (path : TypePath)
    (h : enums path b.enums = .ok fs) : b.Spelling { b with enums := fs } := by
  have hall := enums_ok path b.enums fs h
  have entry : b.Settled → ∀ f ∈ fs, ∀ y ∈ f.2, y.Spelled ∧ y.Settled := by
    intro hs f hf y hy
    obtain ⟨e, he, -, hef⟩ := forall₂_mem_right _ _ _ hall f hf
    obtain ⟨x, hx, hxy⟩ := forall₂_mem_right _ _ _ hef y hy
    have hx := hs.entries e he x hx
    obtain ⟨hspelled, hsettled⟩ := enumEntry_ok x y hxy hx.form
    exact ⟨hspelled, hsettled hx⟩
  have hkeys : Keyed.keys fs = Keyed.keys b.enums :=
    map_eq_of_forall₂ Prod.fst Prod.fst hall.flip fun _ _ h => h.1
  refine ⟨fun hs f hf y hy => (entry hs f hf y hy).1, fun hs => ?_, rfl, rfl, rfl⟩
  exact ⟨hs.head, hs.order, hs.attrs, hs.instances, hkeys ▸ hs.enums,
    fun f hf y hy => (entry hs f hf y hy).2⟩

mutual

theorem spell_rel (path : TypePath) : (s t : Schema) → spell path s = .ok t →
    Schema.Rel SchemaBody.Spelling s t
  | .mk b ts, t, h => by
    obtain ⟨es, hes, h⟩ := (bind_eq_ok _ _ _).mp h
    obtain ⟨us, hus, h⟩ := (bind_eq_ok _ _ _).mp h
    obtain rfl := (pure_eq_ok _ _).mp h
    exact .mk b _ ts us (spelling b es path hes) (spells_rel path ts us hus)

theorem spells_rel (path : TypePath) : (ts us : List (String × Schema)) → spells path ts = .ok us →
    Schema.Rels SchemaBody.Spelling ts us
  | [], us, h => by
    cases h
    exact .nil
  | (name, s) :: ts, us, h => by
    obtain ⟨t, ht, h⟩ := (bind_eq_ok _ _ _).mp h
    obtain ⟨us, hus, h⟩ := (bind_eq_ok _ _ _).mp h
    obtain rfl := (pure_eq_ok _ _).mp h
    exact .cons name s t ts us (spell_rel _ s t ht) (spells_rel path ts us hus)

end

theorem enums_spelled (path : TypePath) (b : SchemaBody) (h : b.Spelled) :
    enums path b.enums = .ok b.enums := by
  refine mapM_self _ _ fun e he => ?_
  have hentries := mapM_self enumEntry e.2 fun x hx => enumEntry_spelled x (h e he x hx)
  rw [(Fault.at_eq_ok _ _ _ _ _).mpr hentries]
  rfl

mutual

theorem spell_spelled (path : TypePath) : (s : Schema) → s.All SchemaBody.Spelled →
    spell path s = .ok s
  | .mk b ts, h => by
    obtain ⟨_, _, hb, ht⟩ := h
    rw [spell, enums_spelled path b hb, ok_bind, spells_spelled path ts ht]
    rfl

theorem spells_spelled (path : TypePath) : (ts : List (String × Schema)) →
    (∀ e ∈ ts, e.2.All SchemaBody.Spelled) → spells path ts = .ok ts
  | [], _ => rfl
  | (name, s) :: ts, h => by
    rw [spells, spell_spelled _ s (h (name, s) (by simp)), ok_bind,
      spells_spelled path ts fun e he => h e (List.mem_cons_of_mem _ he)]
    rfl

end

end Normal

def SchemaBody.ordered (b : SchemaBody) : SchemaBody :=
  { b with
    seq := b.seq.map (Normal.attrEndian b.head.endian)
    instances := b.instances.map fun e => (e.1, Normal.attrEndian b.head.endian e.2) }

structure SchemaBody.Ordering (b c : SchemaBody) : Prop where
  endian : b.head.endian ≠ ""
  eq : c = b.ordered

namespace Normal

theorem suffix_mk (path : TypePath) (b : SchemaBody) (ts : List (String × Schema)) :
    suffix path (.mk b ts) = if b.head.endian = "" then
        .error (.located path "" "meta.endian" .noEndian)
      else suffixes path ts >>= fun us => .ok (.mk b.ordered us) := by
  rw [suffix]
  split
  · rfl
  · rfl

mutual

theorem suffix_rel (path : TypePath) : (s t : Schema) → suffix path s = .ok t →
    Schema.Rel SchemaBody.Ordering s t
  | .mk b ts, t, h => by
    rw [suffix_mk] at h
    split at h
    · cases h
    next hend =>
      obtain ⟨us, hus, h⟩ := (bind_eq_ok _ _ _).mp h
      obtain rfl := Except.ok.inj h
      exact .mk b b.ordered ts us ⟨hend, rfl⟩ (suffixes_rel path ts us hus)

theorem suffixes_rel (path : TypePath) : (ts us : List (String × Schema)) →
    suffixes path ts = .ok us → Schema.Rels SchemaBody.Ordering ts us
  | [], us, h => by
    cases h
    exact .nil
  | (name, s) :: ts, us, h => by
    obtain ⟨t, ht, h⟩ := (bind_eq_ok _ _ _).mp h
    obtain ⟨us, hus, h⟩ := (bind_eq_ok _ _ _).mp h
    obtain rfl := (pure_eq_ok _ _).mp h
    exact .cons name s t ts us (suffix_rel _ s t ht) (suffixes_rel path ts us hus)

end

theorem withEndian_ordered (endian name : String) (h : name ∉ Primitive.multiByte) :
    withEndian endian name = name := by
  unfold withEndian
  split
  next p hp => exact if_neg fun ha => h (Primitive.mem_multiByte name p hp ha)
  next => rfl

theorem not_mem_withEndian (endian name : String) (he : endian ≠ "") :
    withEndian endian name ∉ Primitive.multiByte := by
  intro hmem
  have prim : ∀ n ∈ Primitive.multiByte, ∃ p, Primitive.ofName? n = some p ∧ p.isAmbiguous = true :=
    fun n hn => by
      obtain ⟨p, -, hp, -, ha, -⟩ := Primitive.ofName?_append n hn .little
      exact ⟨p, hp, ha⟩
  by_cases hname : name ∈ Primitive.multiByte
  · obtain ⟨p, hp, ha⟩ := prim name hname
    have hadd : withEndian endian name = name ++ endian := by
      unfold withEndian
      rw [hp]
      exact if_pos ha
    rw [hadd] at hmem
    obtain ⟨q, hq, hqa⟩ := prim _ hmem
    rw [Primitive.not_ambiguous_append name endian hname he q hq] at hqa
    cases hqa
  · exact hname (withEndian_ordered endian name hname ▸ hmem)

theorem typeNames_attrEndian (endian : String) (a : Attr) :
    (attrEndian endian a).typeNames = a.typeNames.map (withEndian endian) := by
  unfold attrEndian Attr.typeNames
  cases a.type with
  | none => rfl
  | some t =>
    cases t with
    | named name => rfl
    | switch on cases => simp [Function.comp_def]

theorem keys_attrEndian (endian : String) (a : Attr) :
    Keyed.keys (Decode.casesOf (attrEndian endian a).type) =
      Keyed.keys (Decode.casesOf a.type) := by
  unfold attrEndian
  cases a.type with
  | none => rfl
  | some t =>
    cases t with
    | named name => rfl
    | switch on cases => exact Keyed.keys_map ..

theorem attrEndian_ordered (endian : String) (a : Attr) (h : a.Ordered) :
    attrEndian endian a = a := by
  have htype : (attrEndian endian a).type = a.type := by
    unfold Attr.Ordered Attr.typeNames at h
    unfold attrEndian
    cases ht : a.type with
    | none => rfl
    | some t =>
      rw [ht] at h
      cases t with
      | named name => simp [withEndian_ordered endian name (h name (by simp))]
      | switch on cases =>
        have hcases : cases.map (fun c => (c.1, withEndian endian c.2)) = cases := by
          conv_rhs => rw [← List.map_id cases]
          refine List.map_congr_left fun c hc => ?_
          rw [withEndian_ordered endian c.2 (h c.2 (List.mem_map_of_mem hc))]
          rfl
        simp only [Option.map_some, hcases]
  calc attrEndian endian a = { a with type := (attrEndian endian a).type } := rfl
    _ = a := by rw [htype]

end Normal

namespace SchemaBody

theorem attrs_ordered (b : SchemaBody) :
    b.ordered.attrs = b.attrs.map (Normal.attrEndian b.head.endian) := by
  simp [attrs, ordered, Function.comp_def]

theorem Ordering.ordered (b c : SchemaBody) (h : b.Ordering c) : c.Ordered := by
  obtain ⟨he, rfl⟩ := h
  refine ⟨he, ?_⟩
  rw [attrs_ordered]
  refine List.forall_mem_map.mpr fun a _ => ?_
  unfold Attr.Ordered
  rw [Normal.typeNames_attrEndian]
  exact List.forall_mem_map.mpr fun name _ => Normal.not_mem_withEndian _ name he

theorem ordered_eq (b : SchemaBody) (h : b.Ordered) : b.ordered = b := by
  have hattr : ∀ a ∈ b.attrs, Normal.attrEndian b.head.endian a = a := fun a ha =>
    Normal.attrEndian_ordered _ a (h.attrs a ha)
  have hseq : b.seq.map (Normal.attrEndian b.head.endian) = b.seq := by
    conv_rhs => rw [← List.map_id b.seq]
    exact List.map_congr_left fun a ha => hattr a (List.mem_append_left _ ha)
  have hinst : b.instances.map (fun e => (e.1, Normal.attrEndian b.head.endian e.2)) = b.instances := by
    conv_rhs => rw [← List.map_id b.instances]
    refine List.map_congr_left fun e he => ?_
    rw [hattr e.2 (List.mem_append_right _ (List.mem_map_of_mem he))]
    rfl
  rw [ordered, hseq, hinst]

end SchemaBody

namespace Normal

mutual

theorem suffix_ordered (path : TypePath) : (s : Schema) → s.All SchemaBody.Ordered →
    suffix path s = .ok s
  | .mk b ts, h => by
    obtain ⟨_, _, hb, ht⟩ := h
    rw [suffix_mk, if_neg hb.endian, suffixes_ordered path ts ht, ok_bind, b.ordered_eq hb]

theorem suffixes_ordered (path : TypePath) : (ts : List (String × Schema)) →
    (∀ e ∈ ts, e.2.All SchemaBody.Ordered) → suffixes path ts = .ok ts
  | [], _ => rfl
  | (name, s) :: ts, h => by
    rw [suffixes, suffix_ordered _ s (h (name, s) (by simp)), ok_bind,
      suffixes_ordered path ts fun e he => h e (List.mem_cons_of_mem _ he)]
    rfl

end

end Normal

namespace SchemaBody

theorem Spelling.filled (known : String → Prop) (name : String) (b c : SchemaBody)
    (h : b.Spelling c) (hb : b.Filled known name) : c.Filled known name :=
  ⟨h.head ▸ hb.endian, h.head ▸ hb.encoding, h.head ▸ hb.encoded, h.head ▸ hb.id, h.seq ▸ hb.seq,
    h.instances ▸ hb.instances⟩

theorem Ordering.filled (known known' : String → Prop) (name : String) (b c : SchemaBody)
    (h : b.Ordering c) (hb : b.Filled known name)
    (hk : ∀ (e : Endian) n, known n → known' (Normal.withEndian e.text n)) :
    c.Filled known' name := by
  obtain ⟨-, rfl⟩ := h
  have hend := hb.endian
  obtain ⟨e, he⟩ : ∃ e : Endian, b.head.endian = e.text := by
    unfold Endian.ofText? at hend
    split at hend
    next h => exact ⟨.little, h⟩
    next =>
      split at hend
      next h => exact ⟨.big, h⟩
      next => cases hend
  refine ⟨hb.endian, hb.encoding, hb.encoded, hb.id, ?_, ?_⟩
  · refine List.forall_mem_map.mpr fun a ha => ?_
    rw [he]
    exact Normal.filled_attrEndian known known' e (hk e) a (hb.seq a ha)
  · refine List.forall_mem_map.mpr fun x hx => ?_
    obtain ⟨hfilled, hid⟩ := hb.instances x hx
    rw [he]
    exact ⟨Normal.filled_attrEndian known known' e (hk e) x.2 hfilled, hid⟩

theorem Ordering.settled (b c : SchemaBody) (h : b.Ordering c) (hb : b.Settled) : c.Settled := by
  obtain ⟨-, rfl⟩ := h
  have attr : ∀ a : Attr, a.Settled → (Normal.attrEndian b.head.endian a).Settled := by
    intro a ha
    have hon : (Normal.attrEndian b.head.endian a).switchOn = a.switchOn := by
      unfold Normal.attrEndian Attr.switchOn
      cases a.type with
      | none => rfl
      | some t => cases t <;> rfl
    refine ⟨?_, ha.untyped, ha.integers, ha.rangeMin, ha.rangeMax, ?_, ha.further⟩
    · have hvalues : (Normal.attrEndian b.head.endian a).values = a.values := by
        rw [Attr.values, Attr.values, hon]
        rfl
      rw [hvalues]
      exact ha.values
    · rw [Normal.keys_attrEndian]
      exact ha.cases
  refine ⟨hb.head, hb.order, ?_, ?_, hb.enums, hb.entries⟩
  · rw [attrs_ordered]
    exact List.forall_mem_map.mpr fun a ha => attr a (hb.attrs a ha)
  · rw [SchemaBody.ordered, Keyed.keys_map]
    exact hb.instances

theorem filled_arranged (known : String → Prop) (name : String) (b : SchemaBody) (hs : b.Settled)
    (hb : b.Filled known name) : b.arranged.Filled known name := by
  have attr : ∀ a ∈ b.attrs, a.Filled known → a.arranged.Filled known := fun a ha =>
    Attr.filled_arranged known a ((hs.attrs a ha).values a.valid (by simp [Attr.values, Attr.untyped]))
  refine ⟨hb.endian, hb.encoding, hb.encoded, hb.id, ?_, ?_⟩
  · exact List.forall_mem_map.mpr fun a ha => attr a (List.mem_append_left _ ha) (hb.seq a ha)
  · refine List.forall_mem_map.mpr fun e he => ⟨?_, (hb.instances e he).2⟩
    exact attr e.2 (List.mem_append_right _ (List.mem_map_of_mem he)) (hb.instances e he).1

theorem ordered_arranged (b : SchemaBody) (hb : b.Ordered) : b.arranged.Ordered := by
  have attr : ∀ a : Attr, a.arranged.typeNames = a.typeNames := by
    intro a
    unfold Attr.arranged Attr.typeNames
    cases a.type with
    | none => rfl
    | some t => cases t <;> rfl
  refine ⟨hb.endian, fun c hc => ?_⟩
  have hattrs : b.arranged.attrs = b.attrs.map Attr.arranged := by
    simp [attrs, arranged, Function.comp_def]
  rw [hattrs] at hc
  obtain ⟨a, ha, rfl⟩ := List.mem_map.mp hc
  unfold Attr.Ordered
  rw [attr]
  exact hb.attrs a ha

end SchemaBody

end FormatFuzz
