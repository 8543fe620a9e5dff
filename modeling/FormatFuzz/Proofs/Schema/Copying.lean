import FormatFuzz.Proofs.Schema.Records
import FormatFuzz.Schema.Normal

/-!
# Copies of schemas

The copy of a kept schema is what reading its records one after the other gives. A first copy
settles a schema; a settled schema comes back with its untyped mappings in the order of their
writing, and is otherwise the same.
-/

set_option autoImplicit false

namespace FormatFuzz

open Yaml (Node)

namespace Meta

def untyped (m : Meta) : List Value := [m.application, m.fileExtension]

def arranged (m : Meta) : Meta :=
  { m with application := m.application.arranged, fileExtension := m.fileExtension.arranged }

structure Settled (m : Meta) : Prop where
  values : ∀ v ∈ m.untyped, v.Settled
  untyped : ∀ v ∈ m.untyped, Encode.isZero v = true → v = .null

end Meta

namespace Decode

open Decoder

def rereadHead (m : Meta) : Decoder Meta := do
  let application ← rereadUntyped m.application
  let fileExtension ← rereadUntyped m.fileExtension
  return { m with application := application, fileExtension := fileExtension }

def headEntry (m : Meta) (key : String) (v : Node) : Decoder Meta :=
  match key with
  | "id" => do return { m with id := ← string v }
  | "title" => do return { m with title := ← string v }
  | "application" => do return { m with application := ← value v }
  | "file-extension" => do return { m with fileExtension := ← value v }
  | "endian" => do return { m with endian := ← string v }
  | "encoding" => do return { m with encoding := ← string v }
  | "imports" => do return { m with imports := ← strings v }
  | "ks-version" => do return { m with version := ← string v }
  | _ => pure m

theorem through_head (m : Meta) : through headEntry .empty (Encode.head m) = rereadHead m := by
  have himports : (m.imports.map Encode.string).mapM string = pure m.imports := by
    rw [mapM_pure string Encode.string id _ fun s _ => string_string s, List.map_id]
  unfold Encode.head
  simp only [List.append_assoc]
  rw [through_text _ _ (fun m x => { m with id := x }) (fun _ _ => rfl) _ rfl,
    through_text _ _ (fun m x => { m with title := x }) (fun _ _ => rfl) _ rfl,
    through_untyped _ _ (fun m x => { m with application := x }) (fun _ _ => rfl) _ rfl]
  refine bind_congr fun application => ?_
  rw [through_untyped _ _ (fun m x => { m with fileExtension := x }) (fun _ _ => rfl) _ rfl]
  refine bind_congr fun fileExtension => ?_
  rw [through_text _ _ (fun m x => { m with endian := x }) (fun _ _ => rfl) _ rfl,
    through_text _ _ (fun m x => { m with encoding := x }) (fun _ _ => rfl) _ rfl,
    through_list _ _ strings (fun m x => { m with imports := x }) (fun _ _ => rfl) _ rfl _ string
      ((strings_map m.imports).trans himports.symm), himports, pure_bind,
    ← List.append_nil (Encode.text "ks-version" m.version),
    through_text _ _ (fun m x => { m with version := x }) (fun _ _ => rfl) _ rfl]
  rfl

theorem head_encode (m : Meta) : head (.map 0 (Encode.head m)) = rereadHead m := by
  have entry := Encode.named_entry
  have hnamed : Encode.Named ["id", "title", "application", "file-extension", "endian", "encoding",
      "imports", "ks-version"] (Encode.head m) := by
    unfold Encode.head
    simp only [List.append_assoc]
    exact (entry _ _ _).cons <| (entry _ _ _).cons <| (entry _ _ _).cons <| (entry _ _ _).cons <|
      (entry _ _ _).cons <| (entry _ _ _).cons <| (entry _ _ _).cons (entry _ _ _)
  rw [← through_head]
  exact record_named _ headEntry _ (by decide) _ hnamed

theorem gives_rereadHead (m : Meta) (hp : ∀ v ∈ m.untyped, v.Proper)
    (hc : ∀ v ∈ m.untyped, (Encode.value v).isClear = true) :
    Gives (rereadHead m) Meta.Settled := by
  have untyped : ∀ v ∈ m.untyped, Gives (rereadUntyped v)
      fun w => w.Settled ∧ (Encode.isZero w = true → w = .null) := fun v hv =>
    gives_rereadUntyped v (hp v hv) (hc v hv)
  refine gives_bind _ _ _ _ (untyped m.application (by simp [Meta.untyped])) fun v hv => ?_
  refine gives_bind _ _ _ _ (untyped m.fileExtension (by simp [Meta.untyped])) fun w hw => ?_
  refine gives_pure _ _ ⟨?_, ?_⟩
  · simpa [Meta.untyped] using ⟨hv.1, hw.1⟩
  · simpa [Meta.untyped] using ⟨hv.2, hw.2⟩

theorem rereadHead_settled (m : Meta) (h : m.Settled)
    (hc : ∀ v ∈ m.untyped, (Encode.value v).isClear = true) :
    rereadHead m = pure m.arranged := by
  have untyped : ∀ v ∈ m.untyped, rereadUntyped v = pure v.arranged := fun v hv =>
    rereadUntyped_settled v (h.values v hv) (h.untyped v hv) (hc v hv)
  rw [rereadHead, untyped m.application (by simp [Meta.untyped]),
    untyped m.fileExtension (by simp [Meta.untyped])]
  rfl

end Decode

namespace EnumEntry

def node (e : EnumEntry) : Node :=
  match e.form with
  | .short name => Encode.string name
  | .verbose v => .map 0 [(Encode.string "id", Encode.string v.id),
      (Encode.string "doc", Encode.string v.doc), (Encode.string "doc-ref", Encode.docRefNode v.docRef)]
  | .malformed => Encode.plain "~"

def keyNode (e : EnumEntry) : Node := Encode.plain (toString e.value)

theorem enumForm_eq (e : EnumEntry) : Encode.enumForm e.form = e.node.copy := by
  unfold node
  cases e.form with
  | short name => rfl
  | verbose v => rfl
  | malformed => rfl

structure Settled (e : EnumEntry) : Prop where
  value : Word.isSigned e.value = true
  form : e.form ≠ .short ""
  line : e.line = 0

end EnumEntry

namespace Decode

open Decoder

def rereadForm : EnumForm → EnumForm
  | .short name => if name = "" then .malformed else .short name
  | f => f

theorem enumValue_encode (v : EnumValue) :
    enumValue (.map 0 [(Encode.string "id", Encode.string v.id),
      (Encode.string "doc", Encode.string v.doc),
      (Encode.string "doc-ref", Encode.docRefNode v.docRef)]) = pure v := by
  have hnamed : Encode.Named ["id", "doc", "doc-ref"] [(Encode.string "id", Encode.string v.id),
      (Encode.string "doc", Encode.string v.doc),
      (Encode.string "doc-ref", Encode.docRefNode v.docRef)] :=
    (Encode.named_one _ _).cons ((Encode.named_one _ _).cons (Encode.named_one _ _))
  rw [enumValue, record_named _ _ _ (by decide) _ hnamed,
    through_one _ _ string (fun e x => { e with id := x }) fun _ _ => rfl, string_string, pure_bind,
    through_one _ _ string (fun e x => { e with doc := x }) fun _ _ => rfl, string_string, pure_bind,
    through_one _ _ docRef (fun e x => { e with docRef := x }) fun _ _ => rfl, docRef_docRefNode,
    pure_bind]
  rfl

def rereadEntry (e : EnumEntry) : Decoder EnumEntry :=
  if Word.isSigned e.value then pure ⟨e.value, rereadForm e.form, 0⟩
  else fail (.enumKey 0 (toString e.value))

theorem enumKey?_keyNode (e : EnumEntry) :
    enumKey? e.keyNode.text = if Word.isSigned e.value then some e.value else none := by
  unfold enumKey? EnumEntry.keyNode Encode.plain Node.text
  rw [Number.ofText?_toString]

theorem enumEntry_node (e : EnumEntry) : enumEntry e.keyNode e.node = rereadEntry e := by
  unfold rereadEntry enumEntry
  rw [enumKey?_keyNode]
  by_cases h : Word.isSigned e.value = true
  · rw [if_pos h, if_pos h]
    unfold EnumEntry.node
    cases e.form with
    | short name =>
      have hs : (Node.scalar 0 (Yaml.stringStyle name) name).isString = true :=
        Encode.isString_string name
      by_cases hn : name = ""
      · simp [Encode.string, rereadForm, hn]
      · simp [Encode.string, hs, rereadForm, hn]
    | verbose v =>
      simp only [enumValue_encode, alone_pure]
      rfl
    | malformed => rfl
  · rw [if_neg h, if_neg h]
    rfl

theorem gives_rereadEntry (e : EnumEntry) : Gives (rereadEntry e) EnumEntry.Settled := by
  have hform : rereadForm e.form ≠ .short "" := by
    cases e.form with
    | short name =>
      rw [rereadForm]
      split
      · exact nofun
      next hn => exact fun h => hn (by injection h)
    | verbose v => exact nofun
    | malformed => exact nofun
  unfold rereadEntry
  split
  next h => exact gives_pure _ _ ⟨h, hform, rfl⟩
  next => exact gives_throw _ _

theorem rereadEntry_settled (e : EnumEntry) (h : e.Settled) : rereadEntry e = pure e := by
  have hform : rereadForm e.form = e.form := by
    have := h.form
    cases hf : e.form with
    | short name => exact if_neg fun hn => this (by rw [hf, hn])
    | verbose v => rfl
    | malformed => rfl
  rw [rereadEntry, if_pos h.value, hform, ← h.line]

theorem enumEntries_encode (es : List EnumEntry)
    (hk : ∀ e ∈ es, e.node.Kept (enumEntry e.keyNode)) :
    ∃ n, Encode.enumEntries es = .ok n ∧ enumEntries n = es.mapM rereadEntry := by
  suffices hs : ∃ ns : List (Node × Node),
      (es.mapM fun e => do
        return (Encode.plain (toString e.value), ← Encode.enumForm e.form) : Encode.Written _)
        = .ok ns ∧ (ns.mapM fun n => enumEntry n.1 n.2) = es.mapM rereadEntry by
    obtain ⟨ns, hns, heq⟩ := hs
    refine ⟨.map 0 ns, ?_, heq⟩
    rw [Encode.enumEntries, hns]
    rfl
  induction es with
  | nil => exact ⟨[], rfl, rfl⟩
  | cons e es ih =>
    obtain ⟨ns, hns, heq⟩ := ih fun x hx => hk x (List.mem_cons_of_mem e hx)
    obtain ⟨m, hm, hread⟩ := hk e (by simp)
    refine ⟨(e.keyNode, m) :: ns, ?_, ?_⟩
    · rw [List.mapM_cons, e.enumForm_eq, hm, hns]
      rfl
    · rw [List.mapM_cons, List.mapM_cons, heq, hread, enumEntry_node]

end Decode

namespace SchemaBody

def attrs (b : SchemaBody) : List Attr := b.seq ++ b.instances.map Prod.snd

def values (b : SchemaBody) : List Value := b.head.untyped ++ b.order

structure Proper (b : SchemaBody) : Prop where
  values : ∀ v ∈ b.values, v.Proper
  attrs : ∀ a ∈ b.attrs, a.Proper

theorem proper_of_attrs (b : SchemaBody) (hhead : b.head.untyped = [.null, .null])
    (horder : b.order = []) (hattrs : ∀ a ∈ b.attrs, a.Proper) : b.Proper := by
  refine ⟨?_, hattrs⟩
  simp [values, hhead, horder, Value.Proper.null]

structure Settled (b : SchemaBody) : Prop where
  head : b.head.Settled
  order : ∀ v ∈ b.order, v.Settled
  attrs : ∀ a ∈ b.attrs, a.Settled
  instances : (Keyed.keys b.instances).Nodup
  enums : (Keyed.keys b.enums).Nodup
  entries : ∀ e ∈ b.enums, ∀ x ∈ e.2, x.Settled

/-- The text of every part that is copied on its own is read as what it says, and no mapping has two
keys of one text. -/
structure Kept (b : SchemaBody) : Prop where
  clear : ∀ v ∈ b.values, (Encode.value v).isClear = true
  attrs : ∀ a ∈ b.attrs, a.Kept
  instances : ∀ e ∈ b.instances, ∀ n, Encode.attr e.2 = .ok n → n.Kept Decode.attr
  entries : ∀ e ∈ b.enums, ∀ x ∈ e.2, x.node.Kept (Decode.enumEntry x.keyNode)
  enums : ∀ e ∈ b.enums, ∀ n, Encode.enumEntries e.2 = .ok n → n.Kept Decode.enumEntries

/-- The text of every part that is copied on its own is read as what it says. -/
structure Carried (b : SchemaBody) : Prop where
  cases : ∀ a ∈ b.attrs, ∀ c ∈ Decode.casesOf a.type, (Encode.string c.2).Kept Decode.string
  instances : ∀ e ∈ b.instances, ∀ n, Encode.attr e.2 = .ok n → n.Kept Decode.attr
  entries : ∀ e ∈ b.enums, ∀ x ∈ e.2, x.node.Kept (Decode.enumEntry x.keyNode)
  enums : ∀ e ∈ b.enums, ∀ n, Encode.enumEntries e.2 = .ok n → n.Kept Decode.enumEntries

theorem Kept.carried (b : SchemaBody) (h : b.Kept) : b.Carried :=
  ⟨fun a ha => (h.attrs a ha).cases, h.instances, h.entries, h.enums⟩

def arranged (b : SchemaBody) : SchemaBody :=
  { b with
    head := b.head.arranged
    seq := b.seq.map Attr.arranged
    instances := b.instances.map fun e => (e.1, e.2.arranged)
    order := b.order.map Value.arranged }

end SchemaBody

namespace Schema

inductive All (P : SchemaBody → Prop) : Schema → Prop
  | mk (b : SchemaBody) (ts : List (String × Schema)) (hb : P b) (ht : ∀ e ∈ ts, All P e.2) :
      All P (.mk b ts)

inductive Settled : Schema → Prop
  | mk (b : SchemaBody) (ts : List (String × Schema)) (hb : b.Settled)
      (hn : (Keyed.keys ts).Nodup) (ht : ∀ e ∈ ts, Settled e.2) : Settled (.mk b ts)

/-- A schema whose text, and that of every part that is copied on its own, is read as what it says,
and no mapping of which has two keys of one text. -/
inductive Kept : Schema → Prop
  | mk (b : SchemaBody) (ts : List (String × Schema)) (hb : b.Kept) (ht : ∀ e ∈ ts, Kept e.2)
      (hn : ∀ n, Encode.schema (.mk b ts) = .ok n → n.Kept Decode.schema) : Kept (.mk b ts)

/-- A schema whose text, and that of every part that is copied on its own, is read as what it
says. -/
inductive Carried : Schema → Prop
  | mk (b : SchemaBody) (ts : List (String × Schema)) (hb : b.Carried) (ht : ∀ e ∈ ts, Carried e.2)
      (hn : ∀ n, Encode.schema (.mk b ts) = .ok n → n.Kept Decode.schema) : Carried (.mk b ts)

theorem Kept.carried (s : Schema) (h : s.Kept) : s.Carried := by
  induction h with
  | mk b ts hb _ hn ih => exact .mk b ts hb.carried ih hn

mutual

def arranged : Schema → Schema
  | .mk b ts => .mk b.arranged (arrangedTypes ts)

def arrangedTypes : List (String × Schema) → List (String × Schema)
  | [] => []
  | (name, s) :: ts => (name, s.arranged) :: arrangedTypes ts

end

theorem arrangedTypes_eq (ts : List (String × Schema)) :
    arrangedTypes ts = ts.map fun e => (e.1, e.2.arranged) := by
  induction ts with
  | nil => rfl
  | cons e ts ih => rw [arrangedTypes, ih]; rfl

end Schema

namespace Decode

open Decoder

mutual

def rereadSchema : Schema → Decoder Schema
  | .mk b ts => do
    let head ← rereadHead b.head
    let seq ← b.seq.mapM rereadAttr
    let types ← keyedItems (rereadTypes ts)
    let instances ← keyedItems (b.instances.map fun e => (e.1, rereadAttr e.2))
    let enums ← keyedItems (b.enums.map fun e => (e.1, e.2.mapM rereadEntry))
    let order ← (Encode.values b.order).mapM value
    return .mk { b with
      head := head, seq := seq, instances := instances, enums := enums, order := order } types

def rereadTypes : List (String × Schema) → Keyed (Decoder Schema)
  | [] => []
  | (name, s) :: ts => (name, rereadSchema s) :: rereadTypes ts

end

theorem rereadTypes_eq (ts : List (String × Schema)) :
    rereadTypes ts = ts.map fun e => (e.1, rereadSchema e.2) := by
  induction ts with
  | nil => rfl
  | cons e ts ih => rw [rereadTypes, ih]; rfl

theorem keyed_encode {α β : Type} (es : Keyed α) (encode : α → Encode.Written Node)
    (decode : Node → Decoder β) (reread : α → Decoder β)
    (h : ∀ e ∈ es, ∃ n, encode e.2 = .ok n ∧ decode n = reread e.2 ∧ n.Kept decode) :
    ∃ ns : Keyed Node, (es.mapM fun e => do return (e.1, ← encode e.2)) = .ok ns ∧
      ns.map (fun e => (e.1, decode e.2)) = es.map (fun e => (e.1, reread e.2)) ∧
      ∀ e ∈ ns, e.2.Kept decode := by
  induction es with
  | nil => exact ⟨[], rfl, rfl, by simp⟩
  | cons e es ih =>
    obtain ⟨ns, hns, heq, hkept⟩ := ih fun x hx => h x (List.mem_cons_of_mem e hx)
    obtain ⟨n, hn, hread, hk⟩ := h e (by simp)
    refine ⟨(e.1, n) :: ns, ?_, ?_, ?_⟩
    · rw [List.mapM_cons, hn, hns]
      rfl
    · rw [List.map_cons, List.map_cons, heq, hread]
    · intro x hx
      rcases List.mem_cons.mp hx with rfl | hx
      · exact hk
      · exact hkept x hx

theorem keyed_kept {α : Type} (key : String) (decode : Node → Decoder α) (es : Keyed Node)
    (h : ∀ e ∈ es, e.2.Kept decode) : ∃ ns, Encode.keyed key es = .ok ns := by
  obtain ⟨ns, hns, -⟩ := keyedNode_kept decode es h
  rw [Encode.keyed, hns]
  exact ⟨_, rfl⟩

theorem attrs_encode (as : List Attr)
    (hk : ∀ a ∈ as, ∀ c ∈ casesOf a.type, (Encode.string c.2).Kept string)
    (hf : ∀ a ∈ as, Further a.extra) :
    ∃ ns, as.mapM Encode.attr = .ok ns ∧ ns.mapM attr = as.mapM rereadAttr := by
  induction as with
  | nil => exact ⟨[], rfl, rfl⟩
  | cons a as ih =>
    obtain ⟨ns, hns, heq⟩ := ih (fun x hx => hk x (List.mem_cons_of_mem a hx))
      fun x hx => hf x (List.mem_cons_of_mem a hx)
    have hcases := hk a (by simp)
    obtain ⟨n, hn⟩ := attr_kept a hcases
    refine ⟨n :: ns, ?_, ?_⟩
    · rw [List.mapM_cons, hn, hns]
      rfl
    · rw [List.mapM_cons, List.mapM_cons, heq, attr_encode a hcases (hf a (by simp)) n hn]

theorem schema_named (keys : List String) (hkeys : keys.Nodup) (es : List (Node × Node))
    (h : Encode.Named keys es) :
    schema (.map 0 es) = through (schemaEntry (keyed schema)) .empty es := by
  rw [schema, Node.depth, schemaWithin, record_named _ _ keys hkeys es h]
  refine foldlM_congr _ _ es (fun e he s => ?_) _
  have hkeyed : keyed (schemaWithin (Node.depthEntries es)) e.2 = keyed schema e.2 := by
    refine keyed_congr _ _ e.2 fun m hm => schemaWithin_eq _ m ?_
    have := (Node.depth_le_of_mem es e he).2
    omega
  refine bind_congr fun name => ?_
  cases name with
  | none => rfl
  | some name => simp only [schemaEntry, hkeyed]

theorem schemaEntry_body {β : Type} (types : Node → Decoder (Keyed Schema)) (key : String)
    (hkey : key ≠ "types") (decode : Node → Decoder β) (put : SchemaBody → β → SchemaBody)
    (h : ∀ b n, bodyEntry b key n = decode n >>= fun x => pure (put b x)) (s : Schema) (n : Node) :
    schemaEntry types s key n = decode n >>= fun x => pure (.mk (put s.body x) s.types) := by
  unfold schemaEntry
  split
  · exact absurd rfl hkey
  · rw [h, bind_assoc]
    exact bind_congr fun x => pure_bind _ _

theorem through_meta (types : Node → Decoder (Keyed Schema)) (s : Schema)
    (hs : .mk { s.body with head := .empty } s.types = s) (m : Meta) (fs : List (Node × Node)) :
    through (schemaEntry types) s
        (Encode.entry "meta" (!(Encode.head m).isEmpty) (.map 0 (Encode.head m)) ++ fs)
      = rereadHead m >>= fun x =>
        through (schemaEntry types) (.mk { s.body with head := x } s.types) fs := by
  refine through_then _ (fun s x => .mk { s.body with head := x } s.types) s _ _ _ ?_
  refine through_entry _ _ head (fun s x => .mk { s.body with head := x } s.types) ?_ s _ _ _ .empty
    hs (fun _ => head_encode m) fun h => ?_
  · exact schemaEntry_body types _ (by decide) head (fun b x => { b with head := x }) fun _ _ => rfl
  · have hnil : Encode.head m = [] := by simpa using h
    rw [← through_head, hnil]
    rfl

mutual

theorem schema_encode : (s : Schema) → s.Carried →
    s.All (fun b => ∀ a ∈ b.attrs, Further a.extra) →
    ∃ n, Encode.schema s = .ok n ∧ schema n = rereadSchema s
  | .mk b ts, hk, hf => by
    obtain ⟨_, _, hb, ht, -⟩ := hk
    obtain ⟨_, _, hfb, hft⟩ := hf
    have hseq : ∀ a ∈ b.seq, a ∈ b.attrs := fun a ha => List.mem_append_left _ ha
    have hinst : ∀ e ∈ b.instances, e.2 ∈ b.attrs := fun e he =>
      List.mem_append_right _ (List.mem_map_of_mem he)
    obtain ⟨seq, hseq, hseqEq⟩ := attrs_encode b.seq (fun a ha => hb.cases a (hseq a ha))
      fun a ha => hfb a (hseq a ha)
    obtain ⟨types, htypes, htypesEq, htypesKept⟩ := schemas_encode ts ht hft
    obtain ⟨instances, hinstances, hinstancesEq, hinstancesKept⟩ :=
      keyed_encode b.instances Encode.attr attr rereadAttr fun e he => by
        have hcases := hb.cases e.2 (hinst e he)
        obtain ⟨n, hn⟩ := attr_kept e.2 hcases
        exact ⟨n, hn, attr_encode e.2 hcases (hfb e.2 (hinst e he)) n hn, hb.instances e he n hn⟩
    obtain ⟨enums, henums, henumsEq, henumsKept⟩ :=
      keyed_encode b.enums Encode.enumEntries enumEntries (fun es => es.mapM rereadEntry)
        fun e he => by
          obtain ⟨n, hn, heq⟩ := enumEntries_encode e.2 (hb.entries e he)
          exact ⟨n, hn, heq, hb.enums e he n hn⟩
    obtain ⟨typesNode, htypesNode⟩ := keyed_kept "types" schema types htypesKept
    obtain ⟨instancesNode, hinstancesNode⟩ := keyed_kept "instances" attr instances hinstancesKept
    obtain ⟨enumsNode, henumsNode⟩ := keyed_kept "enums" enumEntries enums henumsKept
    refine ⟨_, by simp only [Encode.schema, hseq, htypes, hinstances, henums, htypesNode,
      hinstancesNode, henumsNode, ok_bind]; rfl, ?_⟩
    have named : Encode.Named ["meta", "doc", "doc-ref", "seq", "types", "instances", "enums",
        "-fz-order"] (Encode.entry "meta" (!(Encode.head b.head).isEmpty) (.map 0 (Encode.head b.head))
        ++ (Encode.text "doc" b.doc ++ (Encode.docRef b.docRef ++ (Encode.list "seq" seq
        ++ (typesNode ++ (instancesNode ++ (enumsNode
        ++ Encode.list "-fz-order" (Encode.values b.order)))))))) :=
      (Encode.named_entry _ _ _).cons <| (Encode.named_entry _ _ _).cons <|
      (Encode.named_entry _ _ _).cons <| (Encode.named_entry _ _ _).cons <|
      (Encode.named_keyed _ _ _ htypesNode).cons <| (Encode.named_keyed _ _ _ hinstancesNode).cons <|
      (Encode.named_keyed _ _ _ henumsNode).cons <| Encode.named_entry _ _ _
    simp only [List.append_assoc]
    rw [schema_named _ (by decide) _ named, through_meta _ _ rfl, rereadSchema]
    refine bind_congr fun head => ?_
    rw [through_text _ _ (fun s x => .mk { s.body with doc := x } s.types)
        (schemaEntry_body _ _ (by decide) _ (fun b x => { b with doc := x }) fun _ _ => rfl) _ rfl,
      through_docRef _ (fun s x => .mk { s.body with docRef := x } s.types)
        (schemaEntry_body _ _ (by decide) _ (fun b x => { b with docRef := x }) fun _ _ => rfl) _ rfl,
      through_list _ _ attrs (fun s x => .mk { s.body with seq := x } s.types)
        (schemaEntry_body _ _ (by decide) _ (fun b x => { b with seq := x }) fun _ _ => rfl) _ rfl _
        attr rfl, hseqEq]
    refine bind_congr fun seq => ?_
    rw [through_keyed _ _ schema (fun s x => .mk s.body x) (fun _ _ => rfl) _ rfl _ htypesKept _
      htypesNode, htypesEq]
    refine bind_congr fun types => ?_
    rw [through_keyed _ _ attr (fun s x => .mk { s.body with instances := x } s.types)
      (schemaEntry_body _ _ (by decide) _ (fun b x => { b with instances := x }) fun _ _ => rfl) _ rfl
      _ hinstancesKept _ hinstancesNode, hinstancesEq]
    refine bind_congr fun instances => ?_
    rw [through_keyed _ _ enumEntries (fun s x => .mk { s.body with enums := x } s.types)
      (schemaEntry_body _ _ (by decide) _ (fun b x => { b with enums := x }) fun _ _ => rfl) _ rfl
      _ henumsKept _ henumsNode, henumsEq]
    refine bind_congr fun enums => ?_
    rw [← List.append_nil (Encode.list _ _),
      through_list _ _ valueList (fun s x => .mk { s.body with order := x } s.types)
        (schemaEntry_body _ _ (by decide) _ (fun b x => { b with order := x }) fun _ _ => rfl) _ rfl _
        value rfl]
    rfl

theorem schemas_encode : (ts : List (String × Schema)) → (∀ e ∈ ts, e.2.Carried) →
    (∀ e ∈ ts, e.2.All fun b => ∀ a ∈ b.attrs, Further a.extra) →
    ∃ ns, Encode.schemas ts = .ok ns ∧
      ns.map (fun e => (e.1, schema e.2)) = rereadTypes ts ∧ ∀ e ∈ ns, e.2.Kept schema
  | [], _, _ => ⟨[], rfl, rfl, by simp⟩
  | (name, s) :: ts, hk, hf => by
    obtain ⟨n, hn, heq⟩ := schema_encode s (hk (name, s) (by simp)) (hf (name, s) (by simp))
    obtain ⟨ns, hns, hnsEq, hkept⟩ := schemas_encode ts (fun e he => hk e (List.mem_cons_of_mem _ he))
      fun e he => hf e (List.mem_cons_of_mem _ he)
    have hnode : n.Kept schema := by
      obtain ⟨b, us, -, -, hnode⟩ := hk (name, s) (by simp)
      exact hnode n hn
    refine ⟨(name, n) :: ns, ?_, ?_, ?_⟩
    · rw [Encode.schemas, hn, hns]
      rfl
    · rw [List.map_cons, rereadTypes, hnsEq, heq]
    · intro e he
      rcases List.mem_cons.mp he with rfl | he
      · exact hnode
      · exact hkept e he

end

theorem gives_rereadSchema (s : Schema) (hp : s.All SchemaBody.Proper) (hk : s.Kept) :
    Gives (rereadSchema s) Schema.Settled := by
  induction hp with
  | mk b ts hp hps ih =>
    obtain ⟨_, _, hb, ht, -⟩ := hk
    have attr : ∀ a ∈ b.attrs, Gives (rereadAttr a) Attr.Settled := fun a ha =>
      gives_rereadAttr a (hp.attrs a ha) (hb.attrs a ha)
    rw [rereadSchema]
    refine gives_bind _ _ _ _ (gives_rereadHead b.head
      (fun v hv => hp.values v (List.mem_append_left _ hv))
      fun v hv => hb.clear v (List.mem_append_left _ hv)) fun head hhead => ?_
    refine gives_bind _ _ _ _ (gives_mapM _ _ b.seq fun a ha => attr a (List.mem_append_left _ ha))
      fun seq hseq => ?_
    refine gives_bind _ _ (Keyed.Each Schema.Settled) _ (gives_keyedItems _ _ ?_)
      fun types htypes => ?_
    · rw [rereadTypes_eq]
      intro e he
      obtain ⟨t, hmem, rfl⟩ := List.mem_map.mp he
      exact ih t hmem (ht t hmem)
    refine gives_bind _ _ (Keyed.Each Attr.Settled) _ (gives_keyedItems _ _ ?_)
      fun instances hinst => ?_
    · intro e he
      obtain ⟨x, hmem, rfl⟩ := List.mem_map.mp he
      exact attr x.2 (List.mem_append_right _ (List.mem_map_of_mem hmem))
    refine gives_bind _ _ (Keyed.Each fun es => ∀ e ∈ es, EnumEntry.Settled e) _
      (gives_keyedItems _ _ ?_) fun enums henums => ?_
    · intro e he
      obtain ⟨x, -, rfl⟩ := List.mem_map.mp he
      exact gives_mapM _ _ x.2 fun y _ => gives_rereadEntry y
    refine gives_bind _ _ _ _ (gives_values b.order
      (fun v hv => hp.values v (List.mem_append_right _ hv))
      fun v hv => hb.clear v (List.mem_append_right _ hv)) fun order horder => ?_
    refine gives_pure _ _ (.mk _ _ ⟨hhead, horder, ?_, hinst.1, henums.1, henums.2⟩ htypes.1 htypes.2)
    intro a ha
    rcases List.mem_append.mp ha with ha | ha
    · exact hseq a ha
    · obtain ⟨e, he, rfl⟩ := List.mem_map.mp ha
      exact hinst.2 e he

theorem rereadSchema_settled (s : Schema) (h : s.Settled) (hk : s.Kept) :
    rereadSchema s = pure s.arranged := by
  induction h with
  | mk b ts h hn hts ih =>
    obtain ⟨_, _, hb, ht, -⟩ := hk
    have attr : ∀ a ∈ b.attrs, rereadAttr a = pure a.arranged := fun a ha =>
      rereadAttr_settled a (h.attrs a ha) (hb.attrs a ha)
    have hhead := rereadHead_settled b.head h.head fun v hv => hb.clear v (List.mem_append_left _ hv)
    have hseq : b.seq.mapM rereadAttr = pure (b.seq.map Attr.arranged) := by
      rw [← List.map_id b.seq, mapM_pure rereadAttr id Attr.arranged b.seq
        fun a ha => attr a (List.mem_append_left _ ha), List.map_id]
    have htypes := keyedItems_pure ts rereadSchema Schema.arranged hn fun e he => ih e he (ht e he)
    have hinst := keyedItems_pure b.instances rereadAttr Attr.arranged h.instances fun e he =>
      attr e.2 (List.mem_append_right _ (List.mem_map_of_mem he))
    have henums := keyedItems_pure b.enums (fun es => es.mapM rereadEntry) id h.enums fun e he => by
      have := mapM_pure rereadEntry id id e.2 fun x hx => rereadEntry_settled x (h.entries e he x hx)
      simpa using this
    have horder := values_settled b.order h.order fun v hv => hb.clear v (List.mem_append_right _ hv)
    rw [rereadSchema, hhead, hseq, rereadTypes_eq, htypes, hinst, henums, horder, Schema.arranged,
      Schema.arrangedTypes_eq]
    simp only [id, Prod.mk.eta, List.map_id']
    rfl

end Decode

theorem SchemaBody.Proper.further (b : SchemaBody) (h : b.Proper) :
    ∀ a ∈ b.attrs, Decode.Further a.extra :=
  fun a ha => (h.attrs a ha).further

namespace Schema

theorem All.body (P : SchemaBody → Prop) (s : Schema) (h : s.All P) : P s.body := by
  cases h with
  | mk b _ hb _ => exact hb

theorem All.imp (P Q : SchemaBody → Prop) (h : ∀ b, P b → Q b) (s : Schema) (hs : s.All P) :
    s.All Q := by
  induction hs with
  | mk b ts hb _ ih => exact .mk b ts (h b hb) ih

theorem Settled.all (s : Schema) (h : s.Settled) : s.All SchemaBody.Settled := by
  induction h with
  | mk b ts hb _ _ ih => exact .mk b ts hb ih

theorem copy_eq (s : Schema) (hk : s.Carried)
    (hf : s.All fun b => ∀ a ∈ b.attrs, Decode.Further a.extra) :
    s.copy = Decode.alone (Decode.rereadSchema s) := by
  obtain ⟨n, hn, heq⟩ := Decode.schema_encode s hk hf
  obtain ⟨b, ts, -, -, hnode⟩ := hk
  obtain ⟨m, hm, hread⟩ := hnode n hn
  have hcopied : Encode.copied (.mk b ts) = .ok m := by
    rw [Encode.copied, hn, ok_bind, hm]
  unfold copy
  rw [hcopied]
  change Decode.alone (Decode.schema m) = _
  rw [hread, heq]

theorem settled_copy (s t : Schema) (hp : s.All SchemaBody.Proper) (hk : s.Kept)
    (h : s.copy = .ok t) : t.Settled := by
  rw [copy_eq s hk.carried (hp.imp _ _ SchemaBody.Proper.further)] at h
  exact Decoder.gives_alone _ _ (Decode.gives_rereadSchema s hp hk) t h

theorem copy_settled (s : Schema) (h : s.Settled) (hk : s.Kept) : s.copy = .ok s.arranged := by
  have hf : s.All fun b => ∀ a ∈ b.attrs, Decode.Further a.extra :=
    h.all.imp _ _ fun b hb a ha => (hb.attrs a ha).further
  rw [copy_eq s hk.carried hf, Decode.rereadSchema_settled s h hk, Decoder.alone_pure]

end Schema

namespace SchemaSet

def schemas (set : SchemaSet) : List Schema :=
  set.main.schema :: set.imported.map fun e => e.2.schema

/-- A set of schemas as one can be held: integers fit a word, times are those of a clock and a
calendar, and the further keys of an attribute are none of its own. -/
def Proper (set : SchemaSet) : Prop := ∀ s ∈ set.schemas, s.All SchemaBody.Proper

def Settled (set : SchemaSet) : Prop := ∀ s ∈ set.schemas, s.Settled

def Kept (set : SchemaSet) : Prop := ∀ s ∈ set.schemas, s.Kept

/-- A set of schemas whose text is read as what it says, clashing keys or not. -/
def Carried (set : SchemaSet) : Prop := ∀ s ∈ set.schemas, s.Carried

def arranged (set : SchemaSet) : SchemaSet :=
  ⟨{ set.main with schema := set.main.schema.arranged },
    set.imported.map fun e => (e.1, { e.2 with schema := e.2.schema.arranged })⟩

end SchemaSet

theorem SchemaFile.copy_eq_ok (f g : SchemaFile) (h : f.copy = .ok g) :
    f.schema.copy = .ok g.schema := by
  unfold SchemaFile.copy at h
  split at h
  next s hs =>
    cases h
    exact hs
  next => cases h

theorem SchemaFile.copy_settled (f : SchemaFile) (h : f.schema.Settled) (hk : f.schema.Kept) :
    f.copy = .ok { f with schema := f.schema.arranged } := by
  rw [SchemaFile.copy, Schema.copy_settled f.schema h hk]

namespace SchemaSet

theorem settled_copy (set c : SchemaSet) (hp : set.Proper) (hk : set.Kept)
    (h : set.copy = .ok c) : c.Settled := by
  obtain ⟨main, hmain, h⟩ := (bind_eq_ok _ _ _).mp h
  obtain ⟨imported, himported, h⟩ := (bind_eq_ok _ _ _).mp h
  rw [pure_eq_ok] at h
  subst h
  intro s hs
  rcases List.mem_cons.mp hs with rfl | hs
  · exact Schema.settled_copy _ _ (hp _ (by simp [schemas])) (hk _ (by simp [schemas]))
      (SchemaFile.copy_eq_ok _ _ hmain)
  · obtain ⟨e, he, rfl⟩ := List.mem_map.mp hs
    obtain ⟨x, hx, hxe⟩ := forall₂_mem_right _ _ _ (mapM_eq_ok _ _ _ himported) e he
    obtain ⟨f, hf, hxe⟩ := (bind_eq_ok _ _ _).mp hxe
    rw [pure_eq_ok] at hxe
    subst hxe
    have hmem : x.2.schema ∈ set.schemas := List.mem_cons_of_mem _ (List.mem_map_of_mem hx)
    exact Schema.settled_copy _ _ (hp _ hmem) (hk _ hmem) (SchemaFile.copy_eq_ok _ _ hf)

theorem copy_settled (set : SchemaSet) (h : set.Settled) (hk : set.Kept) :
    set.copy = .ok set.arranged := by
  have himported : ∀ es : Keyed SchemaFile, (∀ e ∈ es, e.2.schema ∈ set.schemas) →
      (es.mapM fun e => do return (e.1, ← e.2.copy) : Except Decode.Error _)
        = .ok (es.map fun e => (e.1, { e.2 with schema := e.2.schema.arranged })) := by
    intro es hes
    induction es with
    | nil => rfl
    | cons e es ih =>
      have he := hes e (by simp)
      rw [List.mapM_cons, SchemaFile.copy_settled e.2 (h _ he) (hk _ he),
        ih fun x hx => hes x (List.mem_cons_of_mem e hx)]
      rfl
  unfold copy
  rw [SchemaFile.copy_settled set.main (h _ (by simp [schemas])) (hk _ (by simp [schemas])),
    himported set.imported fun e he => List.mem_cons_of_mem _ (List.mem_map_of_mem he)]
  rfl

end SchemaSet

def Encode.isSteady : Encode.Written Node → Bool
  | .ok n => n.isSteady
  | .error _ => true

theorem Encode.kept_of_isSteady {β : Type} (decode : Node → β) (w : Encode.Written Node)
    (h : isSteady w = true) (n : Node) (hn : w = .ok n) : n.Kept decode := by
  subst hn
  exact n.kept_of_steady decode h

def Attr.isSteady (a : Attr) : Bool :=
  (a.values.all fun v => (Encode.value v).isClear) &&
    (Decode.casesOf a.type).all fun c => (Encode.string c.2).isSteady

theorem Attr.kept_of_isSteady (a : Attr) (h : a.isSteady = true) : a.Kept := by
  simp only [isSteady, Bool.and_eq_true, List.all_eq_true] at h
  exact ⟨h.1, fun c hc => Node.kept_of_steady _ _ (h.2 c hc)⟩

def SchemaBody.isSteady (b : SchemaBody) : Bool :=
  (b.values.all fun v => (Encode.value v).isClear) && b.attrs.all Attr.isSteady &&
    (b.instances.all fun e => Encode.isSteady (Encode.attr e.2)) &&
    b.enums.all fun e => Encode.isSteady (Encode.enumEntries e.2) && e.2.all fun x => x.node.isSteady

theorem SchemaBody.kept_of_isSteady (b : SchemaBody) (h : b.isSteady = true) : b.Kept := by
  simp only [isSteady, Bool.and_eq_true, List.all_eq_true] at h
  obtain ⟨⟨⟨hclear, hattrs⟩, hinst⟩, henums⟩ := h
  exact ⟨hclear, fun a ha => a.kept_of_isSteady (hattrs a ha),
    fun e he => Encode.kept_of_isSteady _ _ (hinst e he),
    fun e he x hx => Node.kept_of_steady _ _ ((henums e he).2 x hx),
    fun e he => Encode.kept_of_isSteady _ _ (henums e he).1⟩

namespace Schema

mutual

def isSteady : Schema → Bool
  | .mk b ts => b.isSteady && Encode.isSteady (Encode.schema (.mk b ts)) && areSteady ts

def areSteady : List (String × Schema) → Bool
  | [] => true
  | (_, s) :: ts => s.isSteady && areSteady ts

end

mutual

theorem kept_of_isSteady : (s : Schema) → s.isSteady = true → s.Kept
  | .mk b ts, h => by
    simp only [isSteady, Bool.and_eq_true] at h
    obtain ⟨⟨hb, hn⟩, ht⟩ := h
    exact .mk b ts (b.kept_of_isSteady hb) (kept_of_areSteady ts ht) (Encode.kept_of_isSteady _ _ hn)

theorem kept_of_areSteady : (ts : List (String × Schema)) → areSteady ts = true →
    ∀ e ∈ ts, e.2.Kept
  | [], _ => by simp
  | (_, s) :: ts, h => by
    simp only [areSteady, Bool.and_eq_true] at h
    exact List.forall_mem_cons.mpr ⟨kept_of_isSteady s h.1, kept_of_areSteady ts h.2⟩

end

end Schema

def SchemaSet.isSteady (set : SchemaSet) : Bool := set.schemas.all Schema.isSteady

theorem SchemaSet.kept_of_isSteady (set : SchemaSet) (h : set.isSteady = true) : set.Kept :=
  fun s hs => s.kept_of_isSteady (List.all_eq_true.mp h s hs)

end FormatFuzz
