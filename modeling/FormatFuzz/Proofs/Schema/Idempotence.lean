import FormatFuzz.Proofs.Schema.Steps

/-!
# A normal schema stays normal

A step whose copies keep what they write leaves its own results alone, whatever the options: each
step gives its input back with the untyped mappings in the order of their writing if the input has
the property that the step brings about. So each step, and all three after each other, change
nothing when they are repeated.
-/

set_option autoImplicit false

namespace FormatFuzz

namespace SchemaSet

theorem mapSchemas_ok (set t : SchemaSet) (f : Schema → Except SchemaError Schema)
    (h : set.mapSchemas f = .ok t) : Rel (fun s u => f s = .ok u) set t := by
  obtain ⟨main, hmain, h⟩ := (bind_eq_ok _ _ _).mp h
  obtain ⟨imported, himported, h⟩ := (bind_eq_ok _ _ _).mp h
  obtain rfl := (pure_eq_ok _ _).mp h
  refine ⟨rfl, hmain, (mapM_eq_ok _ _ _ himported).imp fun e g hg => ?_⟩
  obtain ⟨u, hu, hg⟩ := (bind_eq_ok _ _ _).mp hg
  obtain rfl := (pure_eq_ok _ _).mp hg
  exact ⟨rfl, rfl, hu⟩

theorem mapSchemas_self (set : SchemaSet) (f : Schema → Except SchemaError Schema)
    (h : ∀ s ∈ set.schemas, f s = .ok s) : set.mapSchemas f = .ok set := by
  have himported : (set.imported.mapM fun e => do
      let s ← f e.2.schema
      return (e.1, { e.2 with schema := s })) = .ok set.imported := by
    refine mapM_self _ _ fun e he => ?_
    rw [h e.2.schema (List.mem_cons_of_mem _ (List.mem_map_of_mem he))]
    rfl
  rw [mapSchemas, h set.main.schema (by simp [schemas]), ok_bind, himported]
  rfl

theorem fresh_eq_ok (set c : SchemaSet) (h : set.fresh = .ok c) : set.copy = .ok c := by
  unfold fresh at h
  split at h
  next s hs =>
    cases h
    exact hs
  next => cases h

theorem copy_ok (set c : SchemaSet) (h : set.copy = .ok c) :
    Rel (fun s u => s.copy = .ok u) set c := by
  have file : ∀ f g : SchemaFile, f.copy = .ok g → f.path = g.path ∧ f.schema.copy = .ok g.schema := by
    intro f g hfg
    unfold SchemaFile.copy at hfg
    split at hfg
    next s hs =>
      cases hfg
      exact ⟨rfl, hs⟩
    next => cases hfg
  obtain ⟨main, hmain, h⟩ := (bind_eq_ok _ _ _).mp h
  obtain ⟨imported, himported, h⟩ := (bind_eq_ok _ _ _).mp h
  obtain rfl := (pure_eq_ok _ _).mp h
  refine ⟨(file _ _ hmain).1, (file _ _ hmain).2, (mapM_eq_ok _ _ _ himported).imp fun e f hf => ?_⟩
  obtain ⟨g, hg, hf⟩ := (bind_eq_ok _ _ _).mp hf
  obtain rfl := (pure_eq_ok _ _).mp hf
  exact ⟨rfl, file _ _ hg⟩

theorem fresh_settled (set : SchemaSet) (hs : set.Settled) (hk : set.Kept) :
    set.fresh = .ok set.arranged := by
  rw [fresh, set.copy_settled hs hk]

theorem all_rel (R : SchemaBody → SchemaBody → Prop) (P Q : SchemaBody → Prop)
    (h : ∀ b c, R b c → P b → Q c) (set t : SchemaSet) (hst : Rel (Schema.Rel R) set t)
    (hs : ∀ s ∈ set.schemas, s.All P) : ∀ u ∈ t.schemas, u.All Q := by
  intro u hu
  obtain ⟨s, hmem, hsu⟩ := hst.mem_right u hu
  exact Schema.All.rel P Q h s u (hs s hmem) hsu

theorem settled_rel (R : SchemaBody → SchemaBody → Prop) (h : ∀ b c, R b c → b.Settled → c.Settled)
    (set t : SchemaSet) (hst : Rel (Schema.Rel R) set t) (hs : set.Settled) : t.Settled := by
  intro u hu
  obtain ⟨s, hmem, hsu⟩ := hst.mem_right u hu
  exact Schema.Settled.rel h s u (hs s hmem) hsu

end SchemaSet

namespace Schema

theorem Rel.with_all (R : SchemaBody → SchemaBody → Prop) (P : SchemaBody → Prop) (s t : Schema)
    (hs : s.All P) (h : Rel R s t) : Rel (fun b c => P b ∧ R b c) s t := by
  induction hs generalizing t with
  | mk b ts hb hall ih =>
    cases h with
    | mk _ c _ us hbc hts =>
      refine .mk b c ts us ⟨hb, hbc⟩ ?_
      clear hall
      induction ts generalizing us with
      | nil =>
        cases hts
        exact .nil
      | cons e ts ihs =>
        cases hts with
        | cons name s t _ us hst hts =>
          exact .cons name s t ts us (ih (name, s) (by simp) t hst)
            (ihs (fun e he => ih e (List.mem_cons_of_mem _ he)) us hts)

end Schema

namespace SchemaSet

theorem filled_rel (R : SchemaBody → SchemaBody → Prop) (hid : ∀ b c, R b c → c.head.id = b.head.id)
    (hR : ∀ (set t : SchemaSet) sc sc', set.Alike t → sc.Alike sc' → ∀ name b c, R b c →
      b.Filled (set.Knows sc) name → c.Filled (t.Knows sc') name)
    (set t : SchemaSet) (hst : Rel (Schema.Rel R) set t) (hs : set.Filled) : t.Filled := by
  have alike : ∀ s u, Schema.Rel R s u → s.Alike u ∧ s.id = u.id := by
    intro s u hsu
    refine ⟨hsu.alike, ?_⟩
    cases hsu with
    | mk b c ts us hbc _ => exact (hid b c hbc).symm
  have hsets : set.Alike t := hst.imp alike
  intro u hu
  obtain ⟨s, hmem, hsu⟩ := hst.mem_right u hu
  obtain ⟨halike, hid⟩ := alike s u hsu
  exact Normal.filled_rel set t R (fun sc sc' hsc => hR set t sc sc' hsets hsc) (Scope.top s) "" s
    (hs s hmem) (Scope.top u) (.top _ _ s u halike hid) u hsu

theorem filled_arranged (set : SchemaSet) (hs : set.Settled) (hf : set.Filled) :
    set.arranged.Filled := by
  have hrel : Rel (Schema.Rel fun b c => b.Settled ∧ c = b.arranged) set set.arranged := by
    have with_settled : ∀ s ∈ set.schemas,
        Schema.Rel (fun b c => b.Settled ∧ c = b.arranged) s s.arranged := fun s hmem =>
      Schema.Rel.with_all _ _ s _ (hs s hmem).all (Schema.rel_arranged s)
    refine ⟨rfl, with_settled _ (by simp [schemas]), forall₂_map _ _ fun e he => ?_⟩
    exact ⟨rfl, rfl, with_settled _ (List.mem_cons_of_mem _ (List.mem_map_of_mem he))⟩
  refine filled_rel _ (fun b c h => by rw [h.2]; rfl) ?_ set _ hrel hf
  rintro set t sc sc' hset hsc name b c ⟨hb, rfl⟩ hfilled
  exact (b.filled_arranged _ name hb hfilled).mono _ _ (SchemaSet.Alike.knows set t hset sc sc' hsc)

theorem spelled_arranged (set : SchemaSet) (h : set.Spelled) : set.arranged.Spelled :=
  all_rel _ _ _ (fun _ _ hc hb => hc ▸ hb) set _ set.rel_arranged h

theorem ordered_arranged (set : SchemaSet) (h : set.Ordered) : set.arranged.Ordered :=
  all_rel _ _ _ (fun b _ hc hb => hc ▸ b.ordered_arranged hb) set _ set.rel_arranged h

theorem fillDefaults_ok (o : Options) (set c t : SchemaSet) (hc : set.copy = .ok c)
    (hs : c.Settled) (h : set.fillDefaults o = .ok t) : t.Settled ∧ t.Filled := by
  obtain ⟨d, hd, h⟩ := (bind_eq_ok _ _ _).mp h
  have hcd := fresh_eq_ok set d hd
  rw [hc] at hcd
  cases hcd
  have hrel := mapSchemas_ok c t _ h
  refine ⟨settled_rel (fun b c => b.Settled → c.Settled) (fun _ _ => id) c t ?_ hs, ?_⟩
  · exact hrel.imp fun s u => Normal.schema_rel c _ _ _ _ s u
  · have alike : ∀ s u, Normal.schema c (Scope.top s) "" o.hostEndian "UTF-8" s = .ok u →
        s.Alike u ∧ s.id = u.id := fun s u h =>
      ⟨(Normal.schema_rel c _ _ _ _ s u h).alike, Normal.schema_id c _ _ _ s u h⟩
    have hsets : c.Alike t := hrel.imp alike
    intro u hu
    obtain ⟨s, -, hsu⟩ := hrel.mem_right u hu
    obtain ⟨halike, hid⟩ := alike s u hsu
    exact Normal.filled_schema c t hsets _ _ (.top _ _ s u halike hid) "" _ _ s u hsu

theorem fillDefaults_filled (o : Options) (set : SchemaSet) (hs : set.Settled) (hk : set.Kept)
    (hf : set.Filled) : set.fillDefaults o = .ok set.arranged := by
  rw [fillDefaults, set.fresh_settled hs hk, ok_bind]
  exact mapSchemas_self _ _ fun s hmem =>
    Normal.schema_filled _ _ "" _ _ s (set.filled_arranged hs hf s hmem)

theorem spellEnums_ok (set c t : SchemaSet) (hc : set.copy = .ok c) (hs : c.Settled)
    (h : set.spellEnums = .ok t) : t.Settled ∧ t.Spelled ∧ (c.Filled → t.Filled) := by
  obtain ⟨d, hd, h⟩ := (bind_eq_ok _ _ _).mp h
  have hcd := fresh_eq_ok set d hd
  rw [hc] at hcd
  cases hcd
  have hrel := mapSchemas_ok c t _ h
  have hspell : Rel (Schema.Rel SchemaBody.Spelling) c t :=
    hrel.imp fun s u => Normal.spell_rel _ s u
  refine ⟨settled_rel _ (fun b c h => h.settled) c t hspell hs,
    all_rel _ SchemaBody.Settled _ (fun b c h => h.spelled) c t hspell fun s hmem => (hs s hmem).all, ?_⟩
  refine filled_rel _ (fun b c h => by rw [h.head]) ?_ c t hspell
  intro set t sc sc' hset hsc name b c h hb
  exact (h.filled _ name b c hb).mono _ _ (SchemaSet.Alike.knows set t hset sc sc' hsc)

theorem spellEnums_spelled (set : SchemaSet) (hs : set.Settled) (hk : set.Kept)
    (h : set.Spelled) : set.spellEnums = .ok set.arranged := by
  rw [spellEnums, set.fresh_settled hs hk, ok_bind]
  exact mapSchemas_self _ _ fun s hmem => Normal.spell_spelled _ s (set.spelled_arranged h s hmem)

theorem resolveEndian_ok (set c t : SchemaSet) (hc : set.copy = .ok c) (hs : c.Settled)
    (h : set.resolveEndian = .ok t) :
    t.Settled ∧ t.Ordered ∧ (c.Filled → t.Filled) ∧ (c.Spelled → t.Spelled) := by
  obtain ⟨d, hd, h⟩ := (bind_eq_ok _ _ _).mp h
  have hcd := fresh_eq_ok set d hd
  rw [hc] at hcd
  cases hcd
  have hrel := mapSchemas_ok c t _ h
  have horder : Rel (Schema.Rel SchemaBody.Ordering) c t :=
    hrel.imp fun s u => Normal.suffix_rel _ s u
  refine ⟨settled_rel _ (fun b c h => h.settled) c t horder hs,
    all_rel _ SchemaBody.Settled _ (fun b c h _ => h.ordered) c t horder fun s hmem => (hs s hmem).all,
    filled_rel _ (fun b c h => by rw [h.eq]; rfl) ?_ c t horder,
    all_rel _ _ _ (fun b c h hb => by rw [h.eq]; exact hb) c t horder⟩
  intro set t sc sc' hset hsc name b c h hb
  refine h.filled _ _ name b c hb fun e n hn => ?_
  rcases Normal.withEndian_cases e n with ⟨p, q, -, -, hname, hq, -⟩ | hname
  · left
    rw [hname, hq]
    rfl
  · rw [hname]
    exact SchemaSet.Alike.knows set t hset sc sc' hsc n hn

theorem resolveEndian_ordered (set : SchemaSet) (hs : set.Settled) (hk : set.Kept)
    (h : set.Ordered) : set.resolveEndian = .ok set.arranged := by
  rw [resolveEndian, set.fresh_settled hs hk, ok_bind]
  exact mapSchemas_self _ _ fun s hmem => Normal.suffix_ordered _ s (set.ordered_arranged h s hmem)

/-- The copies that the three steps make of a set are read as what they say. -/
structure KeptThrough (o : Options) (set : SchemaSet) : Prop where
  kept : set.Kept
  filled : ∀ t, set.fillDefaults o = .ok t → t.Kept
  spelled : ∀ t u, set.fillDefaults o = .ok t → t.spellEnums = .ok u → u.Kept

theorem normalize_ok (o : Options) (set t : SchemaSet) (hp : set.Proper) (hk : set.KeptThrough o)
    (h : set.normalize o = .ok t) : t.Settled ∧ t.Filled ∧ t.Spelled ∧ t.Ordered := by
  obtain ⟨a, ha, h⟩ := (bind_eq_ok _ _ _).mp h
  obtain ⟨b, hb, h⟩ := (bind_eq_ok _ _ _).mp h
  obtain ⟨c, hc, -⟩ := (bind_eq_ok _ _ _).mp ha
  have hc := fresh_eq_ok set c hc
  obtain ⟨has, haf⟩ := fillDefaults_ok o set c a hc (set.settled_copy c hp hk.kept hc) ha
  obtain ⟨hbs, hbsp, hbf⟩ := spellEnums_ok a _ b (a.copy_settled has (hk.filled a ha))
    (a.settled_arranged has) hb
  obtain ⟨hts, hto, htf, htsp⟩ := resolveEndian_ok b _ t (b.copy_settled hbs (hk.spelled a b ha hb))
    (b.settled_arranged hbs) h
  exact ⟨hts, htf (b.filled_arranged hbs (hbf (a.filled_arranged has haf))),
    htsp (b.spelled_arranged hbsp), hto⟩

theorem normalize_normal (o : Options) (set : SchemaSet) (hk : set.KeptThrough o)
    (hs : set.Settled) (hf : set.Filled) (hsp : set.Spelled) (ho : set.Ordered) :
    set.normalize o = .ok set.arranged.arranged.arranged := by
  have hfill := set.fillDefaults_filled o hs hk.kept hf
  have hs' := set.settled_arranged hs
  have hspell := set.arranged.spellEnums_spelled hs' (hk.filled _ hfill) (set.spelled_arranged hsp)
  rw [normalize, hfill, ok_bind, hspell, ok_bind]
  exact resolveEndian_ordered _ (set.arranged.settled_arranged hs') (hk.spelled _ _ hfill hspell)
    (set.arranged.ordered_arranged (set.ordered_arranged ho))

def isSteadyThrough (o : Options) (set : SchemaSet) : Bool :=
  set.isSteady && match set.fillDefaults o with
    | .ok t => t.isSteady && match t.spellEnums with
      | .ok u => u.isSteady
      | .error _ => true
    | .error _ => true

theorem keptThrough_of_isSteadyThrough (o : Options) (set : SchemaSet)
    (h : set.isSteadyThrough o = true) : set.KeptThrough o := by
  simp only [isSteadyThrough, Bool.and_eq_true] at h
  obtain ⟨hset, h⟩ := h
  refine ⟨set.kept_of_isSteady hset, fun t ht => ?_, fun t u ht hu => ?_⟩
  · rw [ht] at h
    exact t.kept_of_isSteady (Bool.and_eq_true_iff.mp h).1
  · rw [ht] at h
    have h := (Bool.and_eq_true_iff.mp h).2
    rw [hu] at h
    exact u.kept_of_isSteady h

/-- Each step to a normal schema, and all of them after each other, give back what they gave, under
any options, if the text of every copy is read as what it says. -/
theorem normalize_idempotent (o o' : Options) (set : SchemaSet) (hp : set.Proper) (hk : set.Kept) :
    (∀ t, set.fillDefaults o = .ok t → t.Kept → ∃ u, t.fillDefaults o' = .ok u ∧ t.Same u) ∧
    (∀ t, set.spellEnums = .ok t → t.Kept → ∃ u, t.spellEnums = .ok u ∧ t.Same u) ∧
    (∀ t, set.resolveEndian = .ok t → t.Kept → ∃ u, t.resolveEndian = .ok u ∧ t.Same u) ∧
    (∀ t, set.KeptThrough o → set.normalize o = .ok t → t.KeptThrough o' →
      ∃ u, t.normalize o' = .ok u ∧ t.Same u) := by
  refine ⟨fun t ht hkt => ?_, fun t ht hkt => ?_, fun t ht hkt => ?_, fun t hko ht hkt => ?_⟩
  · obtain ⟨c, hc, -⟩ := (bind_eq_ok _ _ _).mp ht
    have hc := fresh_eq_ok set c hc
    obtain ⟨hs, hf⟩ := fillDefaults_ok o set c t hc (set.settled_copy c hp hk hc) ht
    exact ⟨_, t.fillDefaults_filled o' hs hkt hf, t.same_arranged⟩
  · obtain ⟨c, hc, -⟩ := (bind_eq_ok _ _ _).mp ht
    have hc := fresh_eq_ok set c hc
    obtain ⟨hs, hsp, -⟩ := spellEnums_ok set c t hc (set.settled_copy c hp hk hc) ht
    exact ⟨_, t.spellEnums_spelled hs hkt hsp, t.same_arranged⟩
  · obtain ⟨c, hc, -⟩ := (bind_eq_ok _ _ _).mp ht
    have hc := fresh_eq_ok set c hc
    obtain ⟨hs, ho, -⟩ := resolveEndian_ok set c t hc (set.settled_copy c hp hk hc) ht
    exact ⟨_, t.resolveEndian_ordered hs hkt ho, t.same_arranged⟩
  · obtain ⟨hs, hf, hsp, ho⟩ := normalize_ok o set t hp hko ht
    exact ⟨_, t.normalize_normal o' hkt hs hf hsp ho,
      (t.same_arranged.trans t.arranged.same_arranged).trans t.arranged.arranged.same_arranged⟩

/-- An integer with a bound from `valid`, a float with a bound of its own, a nested type that takes
its byte order from around it, a short enum entry and an import. -/
def packet : SchemaSet where
  main := ⟨"packet.ksy", .mk {
    head := { Meta.empty with id := "packet", endian := "be" }
    seq := [{ id := "n", type := some (.named "u2"), valid := .map [("min", .int 1)] },
      { id := "x", type := some (.named "f4"), rangeMax := some (.float ⟨0x3ff8000000000000⟩) }]
    enums := [("color", [⟨1, .short "red", 7⟩])] }
    [("part", .mk { seq := [{ id := "v", type := some (.named "s2") }] } [])]⟩
  imported := [("other", ⟨"other.ksy", .mk { head := { Meta.empty with id := "other" } } []⟩)]

theorem packet_proper : packet.Proper := by
  have hmin : (Value.map [("min", .int 1)]).Proper := .map _ (by
    simpa using Value.Proper.int 1 (by constructor <;> decide))
  have part : Schema.All SchemaBody.Proper
      (.mk { seq := [{ id := "v", type := some (.named "s2") }] } []) := by
    refine .mk _ _ (SchemaBody.proper_of_attrs _ rfl rfl ?_) (by simp)
    exact List.forall_mem_singleton.mpr
      (Attr.proper_of_untyped _ (by simp [Attr.untyped, Value.Proper.null]) rfl rfl rfl rfl)
  have other : Schema.All SchemaBody.Proper (.mk { head := { Meta.empty with id := "other" } } []) :=
    .mk _ _ (SchemaBody.proper_of_attrs _ rfl rfl (by simp [SchemaBody.attrs])) (by simp)
  refine List.forall_mem_cons.mpr ⟨.mk _ _ (SchemaBody.proper_of_attrs _ rfl rfl ?_) ?_,
    List.forall_mem_singleton.mpr other⟩
  · refine List.forall_mem_cons.mpr ⟨?_, List.forall_mem_singleton.mpr ?_⟩
    · exact Attr.proper_of_untyped _ (by simp [Attr.untyped, Value.Proper.null, hmin]) rfl rfl rfl rfl
    · exact Attr.proper_of_untyped _ (by simp [Attr.untyped, Value.Proper.null]) rfl rfl rfl rfl
  · exact List.forall_mem_singleton.mpr part

/-- The packet has a normal form, and every copy on the way to it and of it is sure to come back as
it is. -/
theorem packet_steady : packet.isSteadyThrough {} = true ∧
    ∃ t, packet.normalize {} = .ok t ∧ t.isSteadyThrough { hostEndian := "be" } = true := by
  have hsteady : packet.isSteadyThrough {} = true ∧ (match packet.normalize {} with
      | .ok t => t.isSteadyThrough { hostEndian := "be" }
      | .error _ => false) = true := by decide +kernel
  refine ⟨hsteady.1, ?_⟩
  cases ht : packet.normalize {} with
  | error e =>
    rw [ht] at hsteady
    cases hsteady.2
  | ok t =>
    rw [ht] at hsteady
    exact ⟨t, rfl, hsteady.2⟩

theorem normalize_idempotent_packet : packet.Proper ∧ packet.Kept ∧ packet.KeptThrough {} ∧
    ∃ t, packet.normalize {} = .ok t ∧ t.KeptThrough { hostEndian := "be" } ∧
      ∃ u, t.normalize { hostEndian := "be" } = .ok u ∧ t.Same u := by
  obtain ⟨hsteady, t, ht, hsteady'⟩ := packet_steady
  have hkept := packet.keptThrough_of_isSteadyThrough {} hsteady
  have hkept' := t.keptThrough_of_isSteadyThrough _ hsteady'
  exact ⟨packet_proper, hkept.kept, hkept, t, ht, hkept',
    (normalize_idempotent {} { hostEndian := "be" } packet packet_proper hkept.kept).2.2.2 t hkept ht
      hkept'⟩

end SchemaSet

end FormatFuzz
