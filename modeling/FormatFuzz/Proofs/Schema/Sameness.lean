import FormatFuzz.Proofs.Schema.Copying

/-!
# Schemas that say the same

Two schemas of one shape are compared type by type. They are the same if they differ in nothing but
the order of their untyped mappings; a schema is the same as its arrangement.
-/

set_option autoImplicit false

namespace FormatFuzz

theorem forall₂_map {α β : Type} {R : α → β → Prop} (f : α → β) (xs : List α)
    (h : ∀ x ∈ xs, R x (f x)) : List.Forall₂ R xs (xs.map f) :=
  List.forall₂_map_right_iff.mpr (List.forall₂_same.mpr h)

namespace Schema

mutual

inductive Rel (R : SchemaBody → SchemaBody → Prop) : Schema → Schema → Prop
  | mk (b c : SchemaBody) (ts us : List (String × Schema)) (hb : R b c) (ht : Rels R ts us) :
      Rel R (.mk b ts) (.mk c us)

inductive Rels (R : SchemaBody → SchemaBody → Prop) :
    List (String × Schema) → List (String × Schema) → Prop
  | nil : Rels R [] []
  | cons (name : String) (s t : Schema) (ts us : List (String × Schema)) (h : Rel R s t)
      (hs : Rels R ts us) : Rels R ((name, s) :: ts) ((name, t) :: us)

end

section

variable {R S T : SchemaBody → SchemaBody → Prop}

mutual

theorem Rel.imp (h : ∀ b c, R b c → S b c) : {s t : Schema} → Rel R s t → Rel S s t
  | _, _, .mk b c ts us hb ht => .mk b c ts us (h b c hb) (Rels.imp h ht)

theorem Rels.imp (h : ∀ b c, R b c → S b c) : {ts us : List (String × Schema)} →
    Rels R ts us → Rels S ts us
  | _, _, .nil => .nil
  | _, _, .cons name s t ts us hst hs => .cons name s t ts us (Rel.imp h hst) (Rels.imp h hs)

end

mutual

theorem Rel.comp (h : ∀ b c d, R b c → S c d → T b d) : {s t u : Schema} →
    Rel R s t → Rel S t u → Rel T s u
  | _, _, _, .mk _ _ _ _ hb ht, .mk _ _ _ _ hc hu => .mk _ _ _ _ (h _ _ _ hb hc) (Rels.comp h ht hu)

theorem Rels.comp (h : ∀ b c d, R b c → S c d → T b d) : {ts us vs : List (String × Schema)} →
    Rels R ts us → Rels S us vs → Rels T ts vs
  | _, _, _, .nil, .nil => .nil
  | _, _, _, .cons name _ _ _ _ hs hts, .cons _ _ _ _ _ ht hus =>
    .cons name _ _ _ _ (Rel.comp h hs ht) (Rels.comp h hts hus)

end

theorem Rels.keys {ts us : List (String × Schema)} (h : Rels R ts us) :
    Keyed.keys us = Keyed.keys ts := by
  induction ts generalizing us with
  | nil =>
    cases h
    rfl
  | cons e ts ih =>
    cases h with
    | cons name s t ts us _ hs =>
      change name :: Keyed.keys us = name :: Keyed.keys ts
      rw [ih hs]

theorem Rels.mem_right {ts us : List (String × Schema)} (h : Rels R ts us) (e : String × Schema)
    (he : e ∈ us) : ∃ s, (e.1, s) ∈ ts ∧ Rel R s e.2 := by
  induction ts generalizing us with
  | nil =>
    cases h
    simp at he
  | cons x ts ih =>
    cases h with
    | cons name s t ts us hst hs =>
      rcases List.mem_cons.mp he with rfl | he
      · exact ⟨s, by simp, hst⟩
      · obtain ⟨s, hmem, hs⟩ := ih hs he
        exact ⟨s, List.mem_cons_of_mem _ hmem, hs⟩

theorem Rels.mem_left {ts us : List (String × Schema)} (h : Rels R ts us) (e : String × Schema)
    (he : e ∈ ts) : ∃ t, (e.1, t) ∈ us ∧ Rel R e.2 t := by
  induction ts generalizing us with
  | nil => simp at he
  | cons x ts ih =>
    cases h with
    | cons name s t ts us hst hs =>
      rcases List.mem_cons.mp he with rfl | he
      · exact ⟨t, by simp, hst⟩
      · obtain ⟨t, hmem, ht⟩ := ih hs he
        exact ⟨t, List.mem_cons_of_mem _ hmem, ht⟩

theorem All.rel (P Q : SchemaBody → Prop) (h : ∀ b c, R b c → P b → Q c) (s t : Schema)
    (hs : s.All P) (hst : Rel R s t) : t.All Q := by
  induction hs generalizing t with
  | mk b ts hb _ ih =>
    cases hst with
    | mk _ c _ us hbc hts =>
      refine .mk c us (h b c hbc hb) fun e he => ?_
      obtain ⟨s, hmem, hs⟩ := hts.mem_right e he
      exact ih (e.1, s) hmem e.2 hs

theorem Settled.rel (h : ∀ b c, R b c → b.Settled → c.Settled) (s t : Schema)
    (hs : s.Settled) (hst : Rel R s t) : t.Settled := by
  induction hs generalizing t with
  | mk b ts hb hn _ ih =>
    cases hst with
    | mk _ c _ us hbc hts =>
      refine .mk c us (h b c hbc hb) (hts.keys ▸ hn) fun e he => ?_
      obtain ⟨s, hmem, hs⟩ := hts.mem_right e he
      exact ih (e.1, s) hmem e.2 hs

end

mutual

theorem rel_arranged : (s : Schema) → Rel (fun b c => c = b.arranged) s s.arranged
  | .mk b ts => .mk b b.arranged ts _ rfl (rels_arranged ts)

theorem rels_arranged : (ts : List (String × Schema)) →
    Rels (fun b c => c = b.arranged) ts (arrangedTypes ts)
  | [] => .nil
  | (name, s) :: ts => .cons name s s.arranged ts _ (rel_arranged s) (rels_arranged ts)

end

end Schema

namespace SchemaSet

structure Rel (R : Schema → Schema → Prop) (a b : SchemaSet) : Prop where
  path : a.main.path = b.main.path
  main : R a.main.schema b.main.schema
  imported : List.Forall₂ (fun e f => e.1 = f.1 ∧ e.2.path = f.2.path ∧ R e.2.schema f.2.schema)
    a.imported b.imported

theorem Rel.imp {R S : Schema → Schema → Prop} (h : ∀ s t, R s t → S s t) {a b : SchemaSet}
    (hab : Rel R a b) : Rel S a b where
  path := hab.path
  main := h _ _ hab.main
  imported := hab.imported.imp fun _ _ he => ⟨he.1, he.2.1, h _ _ he.2.2⟩

theorem Rel.comp {R S T : Schema → Schema → Prop} (h : ∀ s t u, R s t → S t u → T s u)
    {a b c : SchemaSet} (hab : Rel R a b) (hbc : Rel S b c) : Rel T a c where
  path := hab.path.trans hbc.path
  main := h _ _ _ hab.main hbc.main
  imported := forall₂_comp (fun _ _ _ hx hy =>
    ⟨hx.1.trans hy.1, hx.2.1.trans hy.2.1, h _ _ _ hx.2.2 hy.2.2⟩) hab.imported hbc.imported

theorem Rel.mem_right {R : Schema → Schema → Prop} {a b : SchemaSet} (h : Rel R a b) (t : Schema)
    (ht : t ∈ b.schemas) : ∃ s ∈ a.schemas, R s t := by
  rcases List.mem_cons.mp ht with rfl | ht
  · exact ⟨a.main.schema, by simp [schemas], h.main⟩
  · obtain ⟨f, hf, rfl⟩ := List.mem_map.mp ht
    obtain ⟨e, he, -, -, hst⟩ := forall₂_mem_right _ _ _ h.imported f hf
    exact ⟨e.2.schema, List.mem_cons_of_mem _ (List.mem_map_of_mem he), hst⟩

theorem Rel.mem_left {R : Schema → Schema → Prop} {a b : SchemaSet} (h : Rel R a b) (s : Schema)
    (hs : s ∈ a.schemas) : ∃ t ∈ b.schemas, R s t := by
  rcases List.mem_cons.mp hs with rfl | hs
  · exact ⟨b.main.schema, by simp [schemas], h.main⟩
  · obtain ⟨e, he, rfl⟩ := List.mem_map.mp hs
    obtain ⟨f, hf, -, -, hst⟩ := forall₂_mem_left _ _ _ h.imported e he
    exact ⟨f.2.schema, List.mem_cons_of_mem _ (List.mem_map_of_mem hf), hst⟩

theorem rel_arranged (a : SchemaSet) :
    Rel (Schema.Rel fun b c => c = b.arranged) a a.arranged :=
  ⟨rfl, Schema.rel_arranged _, forall₂_map _ _ fun _ _ => ⟨rfl, rfl, Schema.rel_arranged _⟩⟩

end SchemaSet

namespace Attr

def bare (a : Attr) : Attr :=
  { a with
    type := a.type.map fun
      | .named name => .named name
      | .switch _ cases => .switch .null cases
    size := .null, contents := .null, valid := .null, guard := .null, value := .null
    repeatExpr := .null, repeatUntil := .null, attrLen := .null, choice := [], extra := [] }

/-- Attributes that are equal but for the order of their untyped mappings. -/
structure Same (a b : Attr) : Prop where
  bare : a.bare = b.bare
  untyped : List.Forall₂ Value.Same a.untyped b.untyped
  switchOn : List.Forall₂ Value.Same a.switchOn b.switchOn
  choice : List.Forall₂ Value.Same a.choice b.choice
  extra : Value.Same (.map a.extra) (.map b.extra)

theorem Same.trans (a b c : Attr) (hab : Same a b) (hbc : Same b c) : Same a c where
  bare := hab.bare.trans hbc.bare
  untyped := forall₂_comp .trans hab.untyped hbc.untyped
  switchOn := forall₂_comp .trans hab.switchOn hbc.switchOn
  choice := forall₂_comp .trans hab.choice hbc.choice
  extra := .trans _ _ _ hab.extra hbc.extra

theorem switchOn_arranged (a : Attr) : a.arranged.switchOn = a.switchOn.map Value.arranged := by
  unfold switchOn arranged
  cases a.type with
  | none => rfl
  | some t => cases t <;> rfl

theorem untyped_arranged (a : Attr) : a.arranged.untyped = a.untyped.map Value.arranged := rfl

theorem same_arranged (a : Attr) : Same a a.arranged where
  bare := by
    unfold bare arranged
    cases a.type with
    | none => rfl
    | some t => cases t <;> rfl
  untyped := untyped_arranged a ▸ forall₂_map _ _ fun v _ => v.same_arranged
  switchOn := switchOn_arranged a ▸ forall₂_map _ _ fun v _ => v.same_arranged
  choice := forall₂_map _ _ fun v _ => v.same_arranged
  extra := Value.arranged_map a.extra ▸ Value.same_arranged (.map a.extra)

end Attr

namespace Meta

def bare (m : Meta) : Meta := { m with application := .null, fileExtension := .null }

structure Same (m n : Meta) : Prop where
  bare : m.bare = n.bare
  untyped : List.Forall₂ Value.Same m.untyped n.untyped

theorem Same.trans {m n k : Meta} (hmn : Same m n) (hnk : Same n k) : Same m k where
  bare := hmn.bare.trans hnk.bare
  untyped := forall₂_comp .trans hmn.untyped hnk.untyped

theorem same_arranged (m : Meta) : Same m m.arranged where
  bare := rfl
  untyped := forall₂_map Value.arranged _ fun v _ => v.same_arranged

end Meta

namespace SchemaBody

/-- Types that are equal but for the order of their untyped mappings. -/
structure Same (b c : SchemaBody) : Prop where
  head : b.head.Same c.head
  doc : b.doc = c.doc
  docRef : b.docRef = c.docRef
  seq : List.Forall₂ Attr.Same b.seq c.seq
  instances : List.Forall₂ (fun e f => e.1 = f.1 ∧ Attr.Same e.2 f.2) b.instances c.instances
  enums : b.enums = c.enums
  order : List.Forall₂ Value.Same b.order c.order

theorem Same.trans (b c d : SchemaBody) (hbc : Same b c) (hcd : Same c d) : Same b d where
  head := hbc.head.trans hcd.head
  doc := hbc.doc.trans hcd.doc
  docRef := hbc.docRef.trans hcd.docRef
  seq := forall₂_comp Attr.Same.trans hbc.seq hcd.seq
  instances := forall₂_comp (fun _ _ _ hx hy => ⟨hx.1.trans hy.1, .trans _ _ _ hx.2 hy.2⟩)
    hbc.instances hcd.instances
  enums := hbc.enums.trans hcd.enums
  order := forall₂_comp .trans hbc.order hcd.order

theorem same_arranged (b : SchemaBody) : Same b b.arranged where
  head := b.head.same_arranged
  doc := rfl
  docRef := rfl
  seq := forall₂_map _ _ fun a _ => a.same_arranged
  instances := forall₂_map _ _ fun e _ => ⟨rfl, e.2.same_arranged⟩
  enums := rfl
  order := forall₂_map _ _ fun v _ => v.same_arranged

end SchemaBody

namespace SchemaSet

/-- Sets of schemas that are equal but for the order of their untyped mappings. -/
def Same : SchemaSet → SchemaSet → Prop := Rel (Schema.Rel SchemaBody.Same)

theorem Same.trans {a b c : SchemaSet} (hab : Same a b) (hbc : Same b c) : Same a c := by
  have comp : ∀ s t u, Schema.Rel SchemaBody.Same s t → Schema.Rel SchemaBody.Same t u →
      Schema.Rel SchemaBody.Same s u := fun s t u => Schema.Rel.comp SchemaBody.Same.trans
  exact Rel.comp comp hab hbc

theorem same_arranged (a : SchemaSet) : Same a a.arranged := by
  refine a.rel_arranged.imp fun s t => ?_
  exact Schema.Rel.imp fun b c hc => hc ▸ b.same_arranged

end SchemaSet

theorem Value.isZero_arranged (v : Value) (h : Encode.isZero v.arranged = true) :
    Encode.isZero v = true := by
  cases v with
  | list | map | table => simp [Value.arranged, Encode.isZero] at h
  | _ => exact h

theorem Value.arranged_zero (v : Value) (hv : Encode.isZero v = true → v = .null)
    (h : Encode.isZero v.arranged = true) : v.arranged = .null := by
  rw [hv (v.isZero_arranged h)]
  rfl

theorem Attr.settled_arranged (a : Attr) (h : a.Settled) : a.arranged.Settled where
  values := by
    obtain ⟨huntyped, hon, hchoice, hextra⟩ := (a.forall_values _).mp h.values
    refine (Attr.forall_values _ _).mpr ⟨?_, ?_, ?_, ?_⟩
    · rw [untyped_arranged]
      exact List.forall_mem_map.mpr fun v hv => v.settled_arranged (huntyped v hv)
    · rw [switchOn_arranged]
      exact List.forall_mem_map.mpr fun v hv => v.settled_arranged (hon v hv)
    · exact List.forall_mem_map.mpr fun v hv => v.settled_arranged (hchoice v hv)
    · refine List.forall_mem_map.mpr fun e he => ?_
      exact e.2.settled_arranged (hextra e ((Encode.byKey_perm a.extra).mem_iff.mp he))
  untyped := by
    rw [untyped_arranged]
    exact List.forall_mem_map.mpr fun v hv => v.arranged_zero (h.untyped v hv)
  integers := h.integers
  rangeMin := h.rangeMin
  rangeMax := h.rangeMax
  cases := by
    have := h.cases
    unfold arranged
    cases ht : a.type with
    | none => exact List.nodup_nil
    | some t =>
      cases t with
      | named name => exact List.nodup_nil
      | switch on cases =>
        rw [ht] at this
        exact this
  further := by
    have hkeys : Keyed.keys a.arranged.extra = Keyed.keys (Encode.byKey a.extra) :=
      Keyed.keys_map _ _
    refine ⟨hkeys ▸ Value.nodup_byKey a.extra h.further.1, fun k hk => ?_⟩
    rw [hkeys] at hk
    exact h.further.2 k (((Encode.byKey_perm a.extra).map Prod.fst).mem_iff.mp hk)

theorem SchemaBody.settled_arranged (b : SchemaBody) (h : b.Settled) : b.arranged.Settled where
  head := by
    have huntyped : b.arranged.head.untyped = b.head.untyped.map Value.arranged := rfl
    refine ⟨?_, ?_⟩
    · rw [huntyped]
      exact List.forall_mem_map.mpr fun v hv => v.settled_arranged (h.head.values v hv)
    · rw [huntyped]
      exact List.forall_mem_map.mpr fun v hv => v.arranged_zero (h.head.untyped v hv)
  order := List.forall_mem_map.mpr fun v hv => v.settled_arranged (h.order v hv)
  attrs := by
    have hattrs : b.arranged.attrs = b.attrs.map Attr.arranged := by
      simp [SchemaBody.attrs, SchemaBody.arranged, Function.comp_def]
    rw [hattrs]
    exact List.forall_mem_map.mpr fun a ha => a.settled_arranged (h.attrs a ha)
  instances := by
    rw [SchemaBody.arranged, Keyed.keys_map]
    exact h.instances
  enums := h.enums
  entries := h.entries

theorem SchemaSet.settled_arranged (set : SchemaSet) (h : set.Settled) : set.arranged.Settled := by
  intro t ht
  obtain ⟨s, hs, hst⟩ := set.rel_arranged.mem_right t ht
  refine Schema.Settled.rel (fun b c hc hb => ?_) s t (h s hs) hst
  exact hc ▸ b.settled_arranged hb

end FormatFuzz
