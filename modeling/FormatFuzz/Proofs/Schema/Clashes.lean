import FormatFuzz.Proofs.Schema.Copying

/-!
# Clashing keys

`Needs d P` says that a decoder notes nothing only if `P` holds, and `Leaves d P` that it notes nothing
only if what it gives has the property. Two keys of one text in a mapping are noted, and no note is
ever taken back: a schema that has a copy holds no mapping that is written with two such keys.
-/

set_option autoImplicit false

namespace FormatFuzz

open Yaml (Node)

namespace Decoder

variable {α β : Type}

def Needs (d : Decoder α) (P : Prop) : Prop :=
  ∀ b a, d.run b = .ok (a, false) → b = false ∧ P

theorem needs_pure (a : α) : Needs (pure a) True := by
  intro b a' hr
  cases hr
  exact ⟨rfl, trivial⟩

theorem needs_throw (e : Decode.Error) (P : Prop) : Needs (throw e : Decoder α) P := by
  intro b a hr
  cases hr

theorem needs_mismatch (a : α) (P : Prop) : Needs (Decode.mismatch a) P := by
  intro b a' hr
  cases hr

theorem needs_mono (d : Decoder α) (P Q : Prop) (hd : Needs d P) (h : P → Q) : Needs d Q :=
  fun b a hr => (hd b a hr).imp_right h

theorem needs_bind (d : Decoder α) (f : α → Decoder β) (P Q : Prop) (hd : Needs d P)
    (hf : ∀ a, Needs (f a) Q) : Needs (d >>= f) (P ∧ Q) := by
  intro b c hr
  obtain ⟨⟨a, b'⟩, hrun, hrest⟩ :=
    (bind_eq_ok (d.run b) (fun r => (f r.1).run r.2) (c, false)).mp hr
  obtain ⟨rfl, hq⟩ := hf a b' c hrest
  obtain ⟨hb, hp⟩ := hd b a hrun
  exact ⟨hb, hp, hq⟩

theorem needs_foldlM (f : β → α → Decoder β) (P : α → Prop) (xs : List α)
    (h : ∀ x ∈ xs, ∀ b, Needs (f b x) (P x)) (b : β) : Needs (xs.foldlM f b) (∀ x ∈ xs, P x) := by
  induction xs generalizing b with
  | nil => exact needs_mono _ _ _ (needs_pure b) fun _ => by simp
  | cons x xs ih =>
    obtain ⟨hx, hxs⟩ := List.forall_mem_cons.mp h
    rw [List.foldlM_cons]
    exact needs_mono _ _ _ (needs_bind _ _ _ _ (hx b) fun c => ih hxs c) List.forall_mem_cons.mpr

theorem needs_mapM (f : α → Decoder β) (P : α → Prop) (xs : List α)
    (h : ∀ x ∈ xs, Needs (f x) (P x)) : Needs (xs.mapM f) (∀ x ∈ xs, P x) := by
  induction xs with
  | nil => exact needs_mono _ _ _ (needs_pure []) fun _ => by simp
  | cons x xs ih =>
    obtain ⟨hx, hxs⟩ := List.forall_mem_cons.mp h
    rw [List.mapM_cons]
    refine needs_mono _ _ _ (needs_bind _ _ _ _ hx fun y => needs_bind _ _ _ _ (ih hxs) fun ys =>
      needs_pure (y :: ys)) fun hall => ?_
    exact List.forall_mem_cons.mpr ⟨hall.1, hall.2.1⟩

theorem needs_alone (d : Decoder α) (P : Prop) (hd : Needs d P) (a : α)
    (h : Decode.alone d = .ok a) : P :=
  (hd false a (alone_eq_ok d a h)).2

/-- A decoder that ends without a note began without one, and gave what has a property. -/
def Leaves (d : Decoder α) (P : α → Prop) : Prop :=
  ∀ b a, d.run b = .ok (a, false) → b = false ∧ P a

theorem Needs.leaves (d : Decoder α) (P : Prop) (h : Needs d P) : Leaves d fun _ => P := h

theorem leaves_pure (a : α) : Leaves (pure a) (· = a) := by
  intro b a' hr
  cases hr
  exact ⟨rfl, rfl⟩

theorem leaves_mono (d : Decoder α) (P Q : α → Prop) (hd : Leaves d P) (h : ∀ a, P a → Q a) :
    Leaves d Q :=
  fun b a hr => (hd b a hr).imp_right (h a)

theorem leaves_bind (d : Decoder α) (f : α → Decoder β) (P : α → Prop) (Q : α → β → Prop)
    (hd : Leaves d P) (hf : ∀ a, Leaves (f a) (Q a)) :
    Leaves (d >>= f) fun c => ∃ a, P a ∧ Q a c := by
  intro b c hr
  obtain ⟨⟨a, b'⟩, hrun, hrest⟩ :=
    (bind_eq_ok (d.run b) (fun r => (f r.1).run r.2) (c, false)).mp hr
  obtain ⟨rfl, hq⟩ := hf a b' c hrest
  obtain ⟨hb, hp⟩ := hd b a hrun
  exact ⟨hb, a, hp, hq⟩

theorem leaves_mapM (f : α → Decoder β) (R : α → β → Prop) (xs : List α)
    (h : ∀ x ∈ xs, Leaves (f x) (R x)) : Leaves (xs.mapM f) (List.Forall₂ R xs) := by
  induction xs with
  | nil => exact leaves_mono _ _ _ (leaves_pure []) fun _ hys => hys ▸ .nil
  | cons x xs ih =>
    obtain ⟨hx, hxs⟩ := List.forall_mem_cons.mp h
    rw [List.mapM_cons]
    refine leaves_mono _ _ _ (leaves_bind _ _ _ _ hx fun y => leaves_bind _ _ _ _ (ih hxs) fun ys =>
      leaves_pure (y :: ys)) ?_
    rintro _ ⟨y, hy, ys, hys, rfl⟩
    exact .cons hy hys

theorem leaves_alone (d : Decoder α) (P : α → Prop) (hd : Leaves d P) (a : α)
    (h : Decode.alone d = .ok a) : P a :=
  (hd false a (alone_eq_ok d a h)).2

theorem leaves_inner (a : α) (d : Decoder α) (P : α → Prop) (hd : Leaves d P) :
    Leaves (Decode.inner a d) P := by
  unfold Decode.inner
  split
  next x hx => exact leaves_mono _ _ _ (leaves_pure x) fun _ h => h ▸ leaves_alone d P hd x hx
  next =>
    intro b a' hr
    cases hr
  next =>
    intro b a' hr
    cases hr

end Decoder

/-- The type names of an attribute; those of a switch come with the keys of their cases. -/
def Attr.named (a : Attr) : List (Option String × String) :=
  match a.type with
  | none => []
  | some (.named name) => [(none, name)]
  | some (.switch _ cases) => cases.map fun c => (some c.1, c.2)

namespace Decode

open Decoder

theorem needs_fields {α : Type} (entry : α → Node → Node → Decoder α) (start : α) (strings : Bool)
    (es : List (Node × Node)) (hm : ∀ e ∈ es, e.1.isMerge = false) (P : Node × Node → Prop)
    (step : ∀ e ∈ es, ∀ a, Needs (entry a e.1 e.2) (P e)) :
    Needs (fields entry start (Yaml.Field.ofEntries strings es))
      (Node.hasClash es = false ∧ ∀ e ∈ es, P e) := by
  by_cases hc : Node.hasClash es = true
  · have hclash : Yaml.Field.ofEntries strings es = [.clash] := by simp [Yaml.Field.ofEntries, hc]
    rw [hclash, fields, List.foldlM_cons]
    refine needs_mono _ _ _ (needs_bind _ _ False _ (needs_mismatch start _) fun a => needs_pure a) ?_
    exact fun h => h.1.elim
  · have hc := by simpa using hc
    rw [fields_eq entry start strings es hm hc]
    exact needs_mono _ _ _ (needs_foldlM _ P es step start) fun h => ⟨hc, h⟩

theorem keyName_isString (n : Node) (h : n.isString = true) : keyName n = pure (some n.text) := by
  cases n with
  | scalar l style t =>
    have hnull : (Node.scalar l style t).isNull = false := by
      cases style with
      | plain =>
        simp only [Node.isString] at h
        simp only [Node.isNull]
        cases hv : Yaml.plainValue t <;> simp_all [Value.isNull]
      | _ => rfl
    rw [keyName, if_neg (by simp [hnull])]
    rfl
  | seq => cases h
  | map => cases h

theorem isClear_isString (n : Node) (h : n.isString = true) : n.isClear = true := by
  cases n with
  | scalar => rfl
  | seq => cases h
  | map => cases h

theorem needs_entries (k : ℕ) (ns : List (Node × Node)) (hm : ∀ n ∈ ns, n.1.isMerge = false)
    (hk : ∀ n ∈ ns, Needs (valueWithin k n.1) (n.1.isClear = true))
    (hv : ∀ n ∈ ns, Needs (valueWithin k n.2) (n.2.isClear = true)) :
    Needs (valueWithin (k + 1) (.map 0 ns)) ((Node.map 0 ns).isClear = true) := by
  have clear : Node.hasClash ns = false → (∀ n ∈ ns, n.1.isClear = true ∧ n.2.isClear = true) →
      (Node.map 0 ns).isClear = true := by
    intro hc h
    rw [Node.isClear, hc, (Node.haveClear_iff ns).mpr h]
    rfl
  rw [valueWithin]
  split
  next hs =>
    have hstr : ∀ n ∈ ns, n.1.isString = true := by
      intro n hn
      have := List.all_eq_true.mp hs n hn
      simpa [hm n hn] using this
    refine needs_mono _ _ _ (needs_bind _ _ _ _ (needs_fields _ [] true ns hm
      (fun n => n.2.isClear = true) fun n hn m => ?_) fun m => needs_pure _) fun h => ?_
    · rw [named, keyName_isString n.1 (hstr n hn), pure_bind]
      exact needs_mono _ _ _ (needs_bind _ _ _ _ (hv n hn) fun v => needs_pure _) And.left
    · exact clear h.1.1 fun n hn => ⟨isClear_isString n.1 (hstr n hn), h.1.2 n hn⟩
  next =>
    refine needs_mono _ _ _ (needs_bind _ _ _ _ (needs_fields _ [] false ns hm
      (fun n => n.1.isClear = true ∧ n.2.isClear = true) fun n hn m => ?_) fun m => needs_pure _)
      fun h => clear h.1.1 h.1.2
    refine needs_bind _ _ _ _ (hk n hn) fun key => ?_
    split
    · exact needs_throw _ _
    · exact needs_mono _ _ _ (needs_bind _ _ _ _ (hv n hn) fun v => needs_pure _) And.left

theorem needs_scalar (k line : ℕ) (style : Yaml.Style) (t : String) :
    Needs (valueWithin k (.scalar line style t)) True := by
  cases k with
  | zero => exact needs_throw _ _
  | succ k => exact needs_pure _

theorem needs_value (v : Value) (h : v.Proper) (k : ℕ) :
    Needs (valueWithin k (Encode.value v)) ((Encode.value v).isClear = true) := by
  induction h generalizing k with
  | list xs _ ih =>
    cases k with
    | zero => exact needs_throw _ _
    | succ k =>
      rw [Encode.value, Encode.values_eq, valueWithin]
      refine needs_mono _ _ _ (needs_bind _ _ _ _ (needs_mapM _ (fun n => n.isClear = true) _
        fun n hn => ?_) fun ys => needs_pure _) fun hall => (Node.areClear_iff _).mpr hall.1
      obtain ⟨x, hx, rfl⟩ := List.mem_map.mp hn
      exact ih x hx k
  | map es _ ih =>
    cases k with
    | zero => exact needs_throw _ _
    | succ k =>
      rw [Encode.value_map]
      refine needs_entries k _ (Encode.isMerge_keyEntries _) (fun n hn => ?_) fun n hn => ?_
      all_goals
        obtain ⟨x, hx, rfl⟩ := List.mem_map.mp hn
        obtain ⟨e, he, rfl⟩ := List.mem_map.mp hx
      · exact needs_mono _ _ _ (needs_scalar k _ _ _) fun _ => rfl
      · exact ih e ((Encode.byKey_perm es).mem_iff.mp he) k
  | table es _ _ ihk ih =>
    cases k with
    | zero => exact needs_throw _ _
    | succ k =>
      rw [Encode.value_table]
      refine needs_entries k _ (fun n hn => ?_) (fun n hn => ?_) fun n hn => ?_
      all_goals
        obtain ⟨e, he, rfl⟩ := List.mem_map.mp hn
        have he := (Encode.byValueKey_perm es).mem_iff.mp he
      · exact Encode.isMerge_value e.1
      · exact ihk e he k
      · exact ih e he k
  | _ => exact needs_mono _ _ _ (needs_scalar k _ _ _) fun _ => rfl

theorem needs_values (xs : List Value) (h : ∀ v ∈ xs, v.Proper) :
    Needs ((Encode.values xs).mapM value) (∀ v ∈ xs, (Encode.value v).isClear = true) := by
  rw [Encode.values_eq]
  refine needs_mono _ _ _ (needs_mapM value (fun n => n.isClear = true) _ fun n hn => ?_)
    List.forall_mem_map.mp
  obtain ⟨v, hv, rfl⟩ := List.mem_map.mp hn
  exact needs_value v (h v hv) _

theorem needs_rereadUntyped (v : Value) (h : v.Proper) :
    Needs (rereadUntyped v) ((Encode.value v).isClear = true) := by
  unfold rereadUntyped
  split
  next hz =>
    refine needs_mono _ _ _ (needs_pure _) fun _ => ?_
    cases v with
    | null => rfl
    | time t => rfl
    | _ => cases hz
  next => exact needs_value v h _

theorem needs_rereadInt (v : Option Int) : Needs (rereadInt v) True := by
  cases v with
  | none => exact needs_pure _
  | some i =>
    rw [rereadInt, Encode.plain, int?]
    split
    · exact needs_pure _
    · split
      · exact needs_pure _
      · exact needs_mismatch _ _

theorem needs_rereadNumber (n : Option Number) : Needs (rereadNumber n) True := by
  cases n with
  | none => exact needs_pure _
  | some n =>
    rw [rereadNumber, number?_numberNode]
    split
    · exact needs_pure _
    · exact needs_throw _ _

theorem needs_keyedItems {α β : Type} (es : Keyed β) (f : β → Decoder α) (P : β → Prop)
    (h : ∀ e ∈ es, Needs (f e.2) (P e.2)) :
    Needs (keyedItems (es.map fun e => (e.1, f e.2))) (∀ e ∈ es, P e.2) := by
  rw [keyedItems, List.foldlM_map]
  refine needs_foldlM _ (fun e => P e.2) es (fun e he m => ?_) []
  split
  next v hv => exact needs_mono _ _ _ (needs_pure _) fun _ => needs_alone (f e.2) _ (h e he) v hv
  next => exact needs_throw _ _

theorem leaves_keyedItems {α β : Type} (es : Keyed β) (f : β → Decoder α) (R : β → α → Prop)
    (hn : (Keyed.keys es).Nodup) (h : ∀ e ∈ es, Leaves (f e.2) (R e.2)) :
    Leaves (keyedItems (es.map fun e => (e.1, f e.2)))
      (List.Forall₂ (fun e g => g.1 = e.1 ∧ R e.2 g.2) es) := by
  rw [keyedItems, List.foldlM_map]
  have hm : ∀ k ∈ Keyed.keys es, k ∉ Keyed.keys ([] : Keyed α) := by simp [Keyed.keys]
  suffices run : ∀ m : Keyed α, (∀ k ∈ Keyed.keys es, k ∉ Keyed.keys m) →
      Leaves (List.foldlM _ m es) fun out =>
        ∃ gs, out = m ++ gs ∧ List.Forall₂ (fun e g => g.1 = e.1 ∧ R e.2 g.2) es gs by
    refine leaves_mono _ _ _ (run [] hm) ?_
    rintro _ ⟨gs, rfl, hgs⟩
    exact hgs
  clear hm
  induction es with
  | nil =>
    intro m _
    exact leaves_mono _ _ _ (leaves_pure m) fun out ho => ⟨[], by simp [ho], .nil⟩
  | cons e es ih =>
    intro m hm
    obtain ⟨hne, hn⟩ := List.nodup_cons.mp hn
    obtain ⟨he, hes⟩ := List.forall_mem_cons.mp h
    rw [List.foldlM_cons]
    cases hv : alone (f e.2) with
    | error err =>
      intro b out hr
      cases hr
    | ok v =>
      have hset : Keyed.set m e.1 v = m ++ [(e.1, v)] :=
        Keyed.set_of_not_mem m e.1 v (hm e.1 (by simp [Keyed.keys]))
      rw [pure_bind, hset]
      refine leaves_mono _ _ _ (ih hn hes _ fun k hk => ?_) ?_
      · have hkm := hm k (List.mem_cons_of_mem _ hk)
        simp only [Keyed.keys, List.map_append, List.mem_append, List.map_cons, List.map_nil,
          List.mem_singleton, not_or]
        exact ⟨hkm, fun hke => hne (hke ▸ hk)⟩
      · rintro _ ⟨gs, rfl, hgs⟩
        exact ⟨(e.1, v) :: gs, by simp, .cons ⟨rfl, leaves_alone _ _ he v hv⟩ hgs⟩

theorem leaves_rereadType (a : Attr) (hp : ∀ v ∈ a.switchOn, v.Proper) :
    Leaves (rereadType a.type) fun t => (∀ v ∈ a.switchOn, (Encode.value v).isClear = true) ∧
      ((Keyed.keys (casesOf a.type)).Nodup → ∀ b : Attr, b.type = t → b.named = a.named) := by
  unfold Attr.switchOn at hp ⊢
  unfold Attr.named
  cases htype : a.type with
  | none =>
    refine leaves_mono _ _ _ (leaves_pure _) ?_
    rintro _ rfl
    exact ⟨by simp, fun _ b hb => by rw [hb]⟩
  | some t =>
    cases t with
    | named name =>
      refine leaves_mono _ _ _ (leaves_pure _) ?_
      rintro _ rfl
      exact ⟨by simp, fun _ b hb => by rw [hb]⟩
    | switch on cases =>
      rw [htype] at hp
      have hcases : Leaves (keyedItems (cases.map fun c => (c.1, pure c.2))) fun m =>
          (Keyed.keys cases).Nodup → m = cases := by
        by_cases hn : (Keyed.keys cases).Nodup
        · rw [keyedItems_pure cases pure id hn fun _ _ => rfl]
          exact leaves_mono _ _ _ (leaves_pure _) fun m hm _ => by simpa using hm
        · exact leaves_mono _ _ _ (needs_keyedItems cases pure (fun _ => True)
            fun e _ => needs_pure e.2).leaves fun m _ h => absurd h hn
      refine leaves_mono _ _ _ (leaves_bind _ _ _ _ (leaves_inner _ _ _ (leaves_bind _ _ _ _
        (needs_value on (hp on (by simp)) _).leaves fun x => leaves_bind _ _ _ _ hcases fun m =>
        leaves_pure _)) fun s => leaves_pure _) ?_
      rintro _ ⟨_, ⟨x, hx, m, hm, rfl⟩, rfl⟩
      refine ⟨List.forall_mem_singleton.mpr hx, fun hn b hb => ?_⟩
      rw [hb, hm hn]

theorem leaves_rereadAttr (a : Attr) (hp : a.Proper) :
    Leaves (rereadAttr a) fun b => (∀ v ∈ a.values, (Encode.value v).isClear = true) ∧
      ((Keyed.keys (casesOf a.type)).Nodup → b.named = a.named) := by
  obtain ⟨huntyped, hon, hchoice, hextra⟩ := (a.forall_values _).mp hp.values
  have untyped := fun v hv => (needs_rereadUntyped v (huntyped v hv)).leaves
  obtain ⟨hsize, hcontents, hvalid, hguard, hvalue, hexpr, huntil, hlen⟩ :=
    (a.forall_untyped _).mp untyped
  have extra := needs_foldlM (fun (m : Keyed Value) (e : String × Value) => do
      return Keyed.set m e.1 (← value (Encode.value e.2)))
    (fun e => (Encode.value e.2).isClear = true) (Encode.byKey a.extra) (fun e he m => by
      have he := (Encode.byKey_perm a.extra).mem_iff.mp he
      exact needs_mono _ _ _ (needs_bind _ _ _ _ (needs_value e.2 (hextra e he) _) fun v =>
        needs_pure _) And.left) []
  unfold rereadAttr
  refine leaves_mono _ _ _ (leaves_bind _ _ _ _ (leaves_rereadType a hon) fun type =>
    leaves_bind _ _ _ _ hsize fun size =>
    leaves_bind _ _ _ _ (needs_rereadInt _).leaves fun terminator =>
    leaves_bind _ _ _ _ hcontents fun contents =>
    leaves_bind _ _ _ _ hvalid fun valid =>
    leaves_bind _ _ _ _ hguard fun guard =>
    leaves_bind _ _ _ _ hvalue fun val =>
    leaves_bind _ _ _ _ hexpr fun repeatExpr =>
    leaves_bind _ _ _ _ huntil fun repeatUntil =>
    leaves_bind _ _ _ _ (needs_rereadNumber _).leaves fun rangeMin =>
    leaves_bind _ _ _ _ (needs_rereadNumber _).leaves fun rangeMax =>
    leaves_bind _ _ _ _ (needs_rereadInt _).leaves fun sizeMin =>
    leaves_bind _ _ _ _ (needs_rereadInt _).leaves fun sizeMax =>
    leaves_bind _ _ _ _ (needs_rereadInt _).leaves fun repeatMin =>
    leaves_bind _ _ _ _ (needs_rereadInt _).leaves fun repeatMax =>
    leaves_bind _ _ _ _ hlen fun attrLen =>
    leaves_bind _ _ _ _ (needs_values a.choice hchoice).leaves fun choice =>
    leaves_bind _ _ _ _ extra.leaves fun extra => leaves_pure _) ?_
  rintro b ⟨type, ⟨hon, hnamed⟩, size, hsize, _, -, contents, hcontents, valid, hvalid, guard, hguard,
    val, hvalue, expr, hexpr, til, huntil, _, -, _, -, _, -, _, -, _, -, _, -, len, hlen,
    choice, hchoice, extra, hextra, rfl⟩
  refine ⟨(a.forall_values _).mpr ⟨?_, hon, hchoice, fun e he => ?_⟩, fun hn => hnamed hn _ rfl⟩
  · exact (a.forall_untyped _).mpr ⟨hsize, hcontents, hvalid, hguard, hvalue, hexpr, huntil, hlen⟩
  · exact hextra e ((Encode.byKey_perm a.extra).mem_iff.mpr he)

theorem needs_rereadAttr (a : Attr) (hp : a.Proper) :
    Needs (rereadAttr a) (∀ v ∈ a.values, (Encode.value v).isClear = true) :=
  fun b c hr => (leaves_rereadAttr a hp b c hr).imp_right And.left

theorem needs_rereadHead (m : Meta) (hp : ∀ v ∈ m.untyped, v.Proper) :
    Needs (rereadHead m) (∀ v ∈ m.untyped, (Encode.value v).isClear = true) := by
  have untyped := fun v hv => needs_rereadUntyped v (hp v hv)
  refine needs_mono _ _ _ (needs_bind _ _ _ _ (untyped m.application (by simp [Meta.untyped]))
    fun application => needs_bind _ _ _ _ (untyped m.fileExtension (by simp [Meta.untyped]))
    fun fileExtension => needs_pure _) fun h => ?_
  exact List.forall_mem_cons.mpr ⟨h.1, List.forall_mem_singleton.mpr h.2.1⟩

theorem needs_rereadEntry (e : EnumEntry) : Needs (rereadEntry e) True := by
  unfold rereadEntry
  split
  · exact needs_pure _
  · exact needs_throw _ _

end Decode

structure SchemaBody.Clear (b : SchemaBody) : Prop where
  values : ∀ v ∈ b.values, (Encode.value v).isClear = true
  attrs : ∀ a ∈ b.attrs, ∀ v ∈ a.values, (Encode.value v).isClear = true

namespace Decode

open Decoder

theorem needs_rereadSchema (s : Schema) (hp : s.All SchemaBody.Proper) :
    Needs (rereadSchema s) (s.All SchemaBody.Clear) := by
  induction hp with
  | mk b ts hb _ ih =>
    obtain ⟨hhead, horder⟩ := List.forall_mem_append.mp hb.values
    have attr := fun a ha => needs_rereadAttr a (hb.attrs a ha)
    have seq := needs_mapM rereadAttr _ b.seq fun a ha => attr a (List.mem_append_left _ ha)
    have types := needs_keyedItems ts rereadSchema _ ih
    have instances := needs_keyedItems b.instances rereadAttr
      (fun a => ∀ v ∈ a.values, (Encode.value v).isClear = true)
      fun e he => attr e.2 (List.mem_append_right _ (List.mem_map_of_mem he))
    have enums := needs_keyedItems b.enums (fun es => es.mapM rereadEntry) (fun _ => True)
      fun e _ => needs_mono _ _ _ (needs_mapM rereadEntry (fun _ => True) e.2 fun x _ =>
        needs_rereadEntry x) fun _ => trivial
    rw [rereadSchema, rereadTypes_eq]
    refine needs_mono _ _ _ (needs_bind _ _ _ _ (needs_rereadHead b.head hhead) fun head =>
      needs_bind _ _ _ _ seq fun seq => needs_bind _ _ _ _ types fun types =>
      needs_bind _ _ _ _ instances fun instances => needs_bind _ _ _ _ enums fun enums =>
      needs_bind _ _ _ _ (needs_values b.order horder) fun order => needs_pure _) ?_
    rintro ⟨hhead, hseq, htypes, hinstances, -, horder, -⟩
    refine .mk b ts ⟨List.forall_mem_append.mpr ⟨hhead, horder⟩, ?_⟩ htypes
    exact List.forall_mem_append.mpr ⟨hseq, List.forall_mem_map.mpr hinstances⟩

end Decode

namespace Schema

theorem clear_of_copy (s t : Schema) (hp : s.All SchemaBody.Proper) (hk : s.Carried)
    (h : s.copy = .ok t) : s.All SchemaBody.Clear := by
  rw [copy_eq s hk (hp.imp _ _ SchemaBody.Proper.further)] at h
  exact Decoder.needs_alone _ _ (Decode.needs_rereadSchema s hp) t h

theorem Carried.kept (s : Schema) (h : s.Carried) (hc : s.All SchemaBody.Clear) : s.Kept := by
  induction h with
  | mk b ts hb _ hn ih =>
    obtain ⟨_, _, hclear, hts⟩ := hc
    refine .mk b ts ⟨hclear.values, fun a ha => ⟨hclear.attrs a ha, hb.cases a ha⟩, hb.instances,
      hb.entries, hb.enums⟩ (fun e he => ih e he (hts e he)) hn

end Schema

end FormatFuzz
