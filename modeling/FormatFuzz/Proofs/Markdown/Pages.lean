import FormatFuzz.Proofs.Markdown.Models

/-!
# Tables stay tables

A page is running text and tables, every one of them whole lines. The tables have a row for each field,
each instance and each member of an enum, in the order of the model. The rows of fields and instances
have their five cells in every compiled model with plain names. The row of a member has its three cells
exactly if its description can stand in one, for that is written as it is.
-/

set_option autoImplicit false

namespace FormatFuzz

open Text (Unbroken Plain)

namespace Markdown

theorem concat_cons (s : String) (rest : List String) : concat (s :: rest) = s ++ concat rest := by
  by_cases hne : rest = []
  · rw [hne]
    exact String.append_empty.symm
  · rw [concat, Text.join_cons "" s rest hne, String.append_empty]
    rfl

theorem concat_append (front back : List String) :
    concat (front ++ back) = concat front ++ concat back := by
  induction front with
  | nil => exact String.empty_append.symm
  | cons s front ih => rw [List.cons_append, concat_cons, concat_cons, ih, String.append_assoc]

theorem concat_flatMap {α : Type} (f : α → List String) (xs : List α) :
    concat (xs.flatMap f) = concat (xs.map fun x => concat (f x)) := by
  induction xs with
  | nil => rfl
  | cons x xs ih => rw [List.flatMap_cons, concat_append, ih, List.map_cons, concat_cons]

def EndsLine (s : String) : Prop := ∃ t, s = t ++ "\n"

theorem endsLine_append (s : String) {t : String} (h : EndsLine t) : EndsLine (s ++ t) := by
  obtain ⟨u, rfl⟩ := h
  exact ⟨s ++ u, String.append_assoc.symm⟩

theorem endsLine_concat (parts : List String) (h : ∀ p ∈ parts, EndsLine p) (s : String)
    (hs : EndsLine s) : EndsLine (s ++ concat parts) := by
  induction parts generalizing s with
  | nil =>
    rw [show concat [] = "" from rfl, String.append_empty]
    exact hs
  | cons p rest ih =>
    obtain ⟨hp, hrest⟩ := List.forall_mem_cons.mp h
    rw [concat_cons, ← String.append_assoc]
    exact ih hrest _ (endsLine_append s hp)

inductive Entry where
  | field (f : Field)
  | inst (i : Instance)
  | value (x : EnumMember)

def Entry.render : Entry → String
  | .field f => fieldRow f
  | .inst i => instanceRow i
  | .value x => memberRow x

def Entry.width : Entry → Nat
  | .field _ => 5
  | .inst _ => 5
  | .value _ => 3

def rule (head : List String) : String :=
  "|" ++ Text.join "|" (head.map fun name => String.ofList (List.replicate (name.length + 2) '-'))
    ++ "|" ++ "\n"

def headText (head : List String) : String := row head ++ rule head

/-- Running text, or a table with the names of its columns and its rows. -/
inductive Block where
  | text (s : String)
  | table (head : List String) (entries : List Entry)

namespace Block

def render : Block → String
  | .text s => s
  | .table head entries => headText head ++ concat (entries.map Entry.render)

theorem render_text (s : String) : (Block.text s).render = s := rfl

def entries : Block → List Entry
  | .text _ => []
  | .table _ entries => entries

/-- Text of whole lines, or a table whose head has the number of cells that its rows have to have. -/
def Regular : Block → Prop
  | .text s => EndsLine s
  | .table head entries =>
    Row head.length (row head) ∧ Row head.length (rule head) ∧
      ∀ e ∈ entries, e.width = head.length

theorem Regular.endsLine {b : Block} (h : b.Regular) : EndsLine b.render := by
  cases b with
  | text s => exact h
  | table head entries =>
    obtain ⟨-, ⟨line, -, hline, -⟩, -⟩ := h
    refine endsLine_concat _ (fun p hp => ?_) _ (endsLine_append _ ⟨line, hline⟩)
    obtain ⟨e, -, rfl⟩ := List.mem_map.mp hp
    cases e <;> exact ⟨_, row_eq _ (by simp)⟩

end Block

def memberHead : List String := ["Field", "Type", "Role", "Optional", "Details"]

def enumHead : List String := ["Value", "ID", "Description"]

theorem regular_heads : (Row 5 (row memberHead) ∧ Row 5 (rule memberHead)) ∧
    Row 3 (row enumHead) ∧ Row 3 (rule enumHead) := by
  have line (n : Nat) (s : String) (cells : List (List Char)) (hs : Unbroken s)
      (hc : partsOf false s.toList = [] :: (cells ++ [[]]) ∧ cells.length = n) : Row n (s ++ "\n") :=
    ⟨s, cells, rfl, hs, hc⟩
  refine ⟨⟨(row_iff memberHead (by decide)).mpr (by decide), ?_⟩,
    (row_iff enumHead (by decide)).mpr (by decide), ?_⟩
  · exact line 5 _ ([7, 6, 6, 10, 9].map fun n => List.replicate n '-') (by decide) (by decide)
  · exact line 3 _ ([7, 4, 13].map fun n => List.replicate n '-') (by decide) (by decide)

/-- The rows that a type calls for: its fields, its instances and the members of its enums. -/
def typeEntries (t : TypeDef) : List Entry :=
  t.fields.map .field ++ t.instances.map .inst ++ t.enums.flatMap fun e => e.members.map .value

def enumBlocks (e : EnumDef) : List Block :=
  [.text ("\n#### Enum `" ++ e.name ++ "`\n\n"), .table enumHead (e.members.map .value)]

def typeBlocks (t : TypeDef) : List Block :=
  .table memberHead (t.fields.map .field ++ t.instances.map .inst)
    :: .text ("\nGeneration order: " ++ Text.join ", " t.order ++ "\n")
    :: t.enums.flatMap enumBlocks

def nestedBlocks (t : TypeDef) : List Block :=
  .text ("\n### " ++ t.name ++ "\n" ++ paragraph t.doc ++ "\n") :: typeBlocks t

def pageBlocks (source : String) (m : Model) : List Block :=
  match m.types with
  | [] => []
  | root :: others =>
    .text ("# " ++ root.name ++ "\n" ++ paragraph root.doc
        ++ paragraph (if source = "" then "" else "Generated from `" ++ source ++ "`.")
        ++ "\n## Fields\n\n")
      :: typeBlocks root
      ++ (if others.isEmpty then [] else .text "\n## Types\n" :: others.flatMap nestedBlocks)

def renderAll (bs : List Block) : String :=
  concat (bs.map Block.render)

theorem renderAll_cons (b : Block) (bs : List Block) :
    renderAll (b :: bs) = b.render ++ renderAll bs := by
  rw [renderAll, List.map_cons, concat_cons]
  rfl

theorem renderAll_append (bs cs : List Block) :
    renderAll (bs ++ cs) = renderAll bs ++ renderAll cs := by
  rw [renderAll, List.map_append, concat_append]
  rfl

theorem renderAll_flatMap {α : Type} (f : α → List Block) (xs : List α) :
    renderAll (xs.flatMap f) = concat (xs.map fun x => renderAll (f x)) := by
  rw [renderAll, List.map_flatMap, concat_flatMap]
  rfl

theorem headText_memberHead : headText memberHead =
    "| Field | Type | Role | Optional | Details |\n|-------|------|------|----------|---------|\n" := by
  decide

theorem headText_enumHead :
    "`\n\n" ++ headText enumHead =
      "`\n\n| Value | ID | Description |\n|-------|----|-------------|\n" := by
  decide

theorem renderAll_enumBlocks (e : EnumDef) : renderAll (enumBlocks e) = enumTable e := by
  have hrows : (e.members.map Entry.value).map Entry.render
      = e.members.map fun x => row [toString x.value, "`" ++ x.id ++ "`", x.doc] := by
    rw [List.map_map]
    rfl
  have htable : enumTable e = "\n#### Enum `" ++ e.name
      ++ ("`\n\n" ++ headText enumHead)
      ++ concat ((e.members.map Entry.value).map Entry.render) := by
    rw [headText_enumHead, hrows]
    rfl
  rw [htable, enumBlocks, renderAll_cons, renderAll_cons, show renderAll [] = "" from rfl]
  simp only [Block.render, String.append_assoc, String.append_empty]

theorem renderAll_typeBlocks (t : TypeDef) : renderAll (typeBlocks t) = typeSection t := by
  have htable : memberTable t = Block.render
      (.table memberHead (t.fields.map .field ++ t.instances.map .inst)) := by
    rw [Block.render, headText_memberHead, List.map_append, concat_append, List.map_map,
      List.map_map, ← String.append_assoc]
    rfl
  rw [typeSection, htable, typeBlocks, renderAll_cons, renderAll_cons, renderAll_flatMap]
  simp only [renderAll_enumBlocks, Block.render_text, String.append_assoc]

theorem renderAll_nestedBlocks (t : TypeDef) : renderAll (nestedBlocks t) = nestedSection t := by
  rw [nestedBlocks, renderAll_cons, renderAll_typeBlocks]
  rfl

theorem describe_eq (source : String) (m : Model) :
    describe source m = renderAll (pageBlocks source m) := by
  unfold describe pageBlocks
  cases m.types with
  | nil => rfl
  | cons root others =>
    dsimp only
    rw [renderAll_append, renderAll_cons, renderAll_typeBlocks, Block.render]
    -- without nested types there is no heading for them either
    cases others with
    | nil => rfl
    | cons t others =>
      simp only [List.isEmpty_cons, Bool.false_eq_true, if_false, renderAll_cons,
        renderAll_flatMap, renderAll_nestedBlocks, Block.render]

theorem entries_typeBlocks (t : TypeDef) : (typeBlocks t).flatMap Block.entries = typeEntries t := by
  have henums : (t.enums.flatMap enumBlocks).flatMap Block.entries
      = t.enums.flatMap fun e => e.members.map .value := by
    rw [List.flatMap_assoc]
    congr 1
    funext e
    simp [enumBlocks, Block.entries]
  simp [typeBlocks, typeEntries, henums, Block.entries]

theorem entries_pageBlocks (source : String) (m : Model) :
    (pageBlocks source m).flatMap Block.entries = m.types.flatMap typeEntries := by
  unfold pageBlocks
  cases m.types with
  | nil => rfl
  | cons root others =>
    have hnested : (others.flatMap nestedBlocks).flatMap Block.entries
        = others.flatMap typeEntries := by
      rw [List.flatMap_assoc]
      congr 1
      funext t
      rw [nestedBlocks, List.flatMap_cons, entries_typeBlocks]
      rfl
    have hothers : (if others.isEmpty then []
        else Block.text "\n## Types\n" :: others.flatMap nestedBlocks).flatMap Block.entries
          = others.flatMap typeEntries := by
      cases others with
      | nil => rfl
      | cons t others => exact hnested
    dsimp only
    rw [List.flatMap_append, List.flatMap_cons, hothers, entries_typeBlocks, List.flatMap_cons]
    rfl

theorem regular_typeBlocks (t : TypeDef) : ∀ b ∈ typeBlocks t, b.Regular := by
  have hmember : Block.Regular
      (.table memberHead (t.fields.map .field ++ t.instances.map .inst)) := by
    refine ⟨regular_heads.1.1, regular_heads.1.2, ?_⟩
    intro e he
    rcases List.mem_append.mp he with he | he
    all_goals
      obtain ⟨_, -, rfl⟩ := List.mem_map.mp he
      rfl
  have henum (e : EnumDef) : ∀ b ∈ enumBlocks e, b.Regular := by
    refine List.forall_mem_cons.mpr ⟨endsLine_append _ ⟨"`\n", by decide⟩, ?_⟩
    rw [List.forall_mem_singleton]
    refine ⟨regular_heads.2.1, regular_heads.2.2, fun x hx => ?_⟩
    obtain ⟨_, -, rfl⟩ := List.mem_map.mp hx
    rfl
  refine List.forall_mem_cons.mpr ⟨hmember, List.forall_mem_cons.mpr ⟨⟨_, rfl⟩, fun b hb => ?_⟩⟩
  obtain ⟨e, -, hb⟩ := List.mem_flatMap.mp hb
  exact henum e b hb

theorem regular_pageBlocks (source : String) (m : Model) :
    ∀ b ∈ pageBlocks source m, b.Regular := by
  unfold pageBlocks
  cases m.types with
  | nil => simp
  | cons root others =>
    have hnested : ∀ b ∈ others.flatMap nestedBlocks, b.Regular := by
      intro b hb
      obtain ⟨t, -, hb⟩ := List.mem_flatMap.mp hb
      rcases List.mem_cons.mp hb with rfl | hb
      · exact ⟨_, rfl⟩
      · exact regular_typeBlocks t b hb
    refine List.forall_mem_append.mpr ⟨List.forall_mem_cons.mpr
      ⟨endsLine_append _ ⟨"\n## Fields\n", by decide⟩, regular_typeBlocks root⟩, ?_⟩
    split
    · simp
    · exact List.forall_mem_cons.mpr ⟨⟨"\n## Types", by decide⟩, hnested⟩

/-- A type with an empty place in a tree that its section spells out: in a choice, or in the value or
the condition of an instance. -/
def HasGap (t : TypeDef) : Prop :=
  (∃ f ∈ t.fields, f.elemRole = .randomChoice ∧ ∃ e ∈ f.choices, e.complete = false) ∨
    ∃ i ∈ t.instances, i.value.complete = false ∨ ∃ e, i.guard = some e ∧ e.complete = false

theorem hasGap_iff (t : TypeDef) : HasGap t ↔ ∃ e ∈ spelled t, e.complete = false := by
  constructor
  · rintro (⟨f, hf, hrole, e, he, hgap⟩ | ⟨i, hi, hgap | ⟨e, he, hgap⟩⟩)
    · refine ⟨e, List.mem_append_left _ (List.mem_flatMap.mpr ⟨f, hf, ?_⟩), hgap⟩
      rwa [if_pos hrole]
    · exact ⟨_, List.mem_append_right _ (List.mem_flatMap.mpr ⟨i, hi, by simp⟩), hgap⟩
    · exact ⟨e, List.mem_append_right _ (List.mem_flatMap.mpr ⟨i, hi, by simp [he]⟩), hgap⟩
  · rintro ⟨e, he, hgap⟩
    rcases List.mem_append.mp he with he | he
    · obtain ⟨f, hf, he⟩ := List.mem_flatMap.mp he
      split at he
      next hrole => exact .inl ⟨f, hf, hrole, e, he, hgap⟩
      next => cases he
    · obtain ⟨i, hi, he⟩ := List.mem_flatMap.mp he
      rcases List.mem_cons.mp he with rfl | he
      · exact .inr ⟨i, hi, .inl hgap⟩
      · exact .inr ⟨i, hi, .inr ⟨e, by simpa using he, hgap⟩⟩

theorem page_eq_none (source : String) (m : Model) :
    page source m = none ↔ ∃ t ∈ m.types, HasGap t := by
  have hall : isDescribable m = true ↔ ∀ t ∈ m.types, ¬ HasGap t := by
    simp only [isDescribable, List.all_eq_true, hasGap_iff, not_exists, not_and, Bool.not_eq_false]
  unfold page
  by_cases h : isDescribable m = true
  · simpa [h] using hall.mp h
  · simpa [h] using mt hall.mpr h

theorem exists_page (source : String) (m : Model) (h : m.Complete) :
    ∃ text, page source m = some text := by
  rw [← Option.ne_none_iff_exists', ne_eq, page_eq_none]
  rintro ⟨t, ht, ⟨f, hf, -, e, he, hgap⟩ | ⟨i, hi, hgap | ⟨e, he, hgap⟩⟩⟩
  · rw [(h t ht).fields f hf _ e (.choice he)] at hgap
    cases hgap
  · rw [(h t ht).instances i hi _ _ .value] at hgap
    cases hgap
  · rw [(h t ht).instances i hi _ e (.guard he)] at hgap
    cases hgap

/-- A compiled model has a page unless a tree that the page spells out has an empty place. The page
of a compiled model with plain names is made of whole lines of text and of tables with a row for each
field, each instance and each member of an enum, in the order of the model. The row of a field or of
an instance has five cells, whatever the expressions and the descriptions. The row of a member has
three exactly if its description has no line break and no bar of its own. -/
theorem page_tables (o : Options) (set : SchemaSet) (m : Model)
    (hm : Model.compile o set = .ok m) (hnames : ∀ s ∈ m.names, Plain s) (source : String) :
    (page source m = none ↔ ∃ t ∈ m.types, HasGap t) ∧
    ∀ text, page source m = some text → ∃ blocks : List Block,
      text = concat (blocks.map Block.render) ∧
      blocks.flatMap Block.entries = m.types.flatMap typeEntries ∧
      (∀ b ∈ blocks, b.Regular ∧ EndsLine b.render) ∧
      ∀ t ∈ m.types, (∀ f ∈ t.fields, Row 5 (fieldRow f)) ∧
        (∀ i ∈ t.instances, Row 5 (instanceRow i)) ∧
        ∀ e ∈ t.enums, ∀ x ∈ e.members, (Row 3 (memberRow x) ↔ Cell x.doc) := by
  refine ⟨page_eq_none source m, fun text htext => ?_⟩
  have htext : describe source m = text := by
    unfold page at htext
    split at htext
    · exact Option.some.inj htext
    · cases htext
  refine ⟨pageBlocks source m, htext ▸ describe_eq source m, entries_pageBlocks source m,
    fun b hb => ?_, fun t ht => ⟨fun f hf => ?_, fun i hi => ?_, fun e he x hx => ?_⟩⟩
  · have hb := regular_pageBlocks source m b hb
    exact ⟨hb, hb.endsLine⟩
  · exact (lined_of_compile o set m hm hnames t ht f hf).row
  · exact row_instance_of_compile o set m hm hnames t ht i hi
  · exact row_memberRow_iff x (hnames _ ((m.mem_names_enum t ht e he).2 x hx))

/-- A number with a guard and a list of choices, an instance, and an enum with a bar in one of its
descriptions. -/
def remarked : SchemaSet :=
  ⟨⟨"remarked.ksy", .mk
    { head := { Meta.empty with id := "remarked" }
      seq := [
        { id := "kind", type := some (.named "u1"), enum := "e",
          choice := [.str "a", .str "e::b"] },
        { id := "n", type := some (.named "u2"), guard := .str "kind == 1 || kind == 2" }]
      instances := [("sum", { id := "", value := .str "kind | n" })]
      enums := [("e", [⟨1, .verbose ⟨"a", "one", []⟩, 0⟩,
        ⟨2, .verbose ⟨"b", "x | y", []⟩, 0⟩])] } []⟩, []⟩

theorem compile_remarked : ∃ m, Model.compile {} remarked = .ok m ∧ (∀ s ∈ m.names, Plain s) ∧
    (∃ text, page "remarked.ksy" m = some text) ∧
    ∃ t ∈ m.types, ∃ e ∈ t.enums, ∃ x ∈ e.members, ⟨2, "b", "x | y", []⟩ = x := by
  obtain ⟨m, hm, h⟩ := exists_ok_of_toOption_map (Model.compile {} remarked)
    (fun m => (m.names, m.types.map TypeDef.enums, (page "remarked.ksy" m).isSome))
    (["remarked", "kind", "", "n", "", "sum", "e", "a", "b"],
      [[⟨"e", [⟨1, "a", "one", []⟩, ⟨2, "b", "x | y", []⟩]⟩]], true) (by decide +kernel)
  obtain ⟨hnames, h⟩ := Prod.mk.inj h
  obtain ⟨henums, hpage⟩ := Prod.mk.inj h
  obtain ⟨t, ht, henums⟩ := List.map_eq_singleton_iff.mp henums
  refine ⟨m, hm, ?_, Option.isSome_iff_exists.mp hpage, t, by simp [ht], _,
    henums ▸ List.mem_singleton_self _, _, by simp, rfl⟩
  rw [hnames]
  decide

theorem page_tables_remarked : ∃ m, Model.compile {} remarked = .ok m ∧
    (∀ s ∈ m.names, Plain s) ∧
    ∃ blocks : List Block, page "remarked.ksy" m = some (concat (blocks.map Block.render)) ∧
      blocks.flatMap Block.entries = m.types.flatMap typeEntries ∧
      (∀ b ∈ blocks, b.Regular ∧ EndsLine b.render) ∧
      ∀ t ∈ m.types, (∀ f ∈ t.fields, Row 5 (fieldRow f)) ∧
        (∀ i ∈ t.instances, Row 5 (instanceRow i)) ∧
        ∀ e ∈ t.enums, ∀ x ∈ e.members, (Row 3 (memberRow x) ↔ Cell x.doc) := by
  obtain ⟨m, hm, hnames, ⟨text, hpage⟩, -⟩ := compile_remarked
  obtain ⟨blocks, htext, h⟩ := (page_tables {} remarked m hm hnames "remarked.ksy").2 text hpage
  exact ⟨m, hm, hnames, blocks, htext ▸ hpage, h⟩

/-- A bar in the description of a member is one cell too many. -/
theorem page_splits_description : ∃ m, Model.compile {} remarked = .ok m ∧
    (∀ s ∈ m.names, Plain s) ∧ (∃ text, page "remarked.ksy" m = some text) ∧
    ∃ t ∈ m.types, ∃ e ∈ t.enums, ∃ x ∈ e.members, Row 4 (memberRow x) ∧ ¬ Row 3 (memberRow x) := by
  obtain ⟨m, hm, hnames, hpage, t, ht, e, he, x, hx, rfl⟩ := compile_remarked
  refine ⟨m, hm, hnames, hpage, t, ht, e, he, _, hx, ?_, ?_⟩
  · exact ⟨"| 2 | `b` | x | y |", [" 2 ".toList, " `b` ".toList, " x ".toList, " y ".toList],
      by decide, by decide, by decide, rfl⟩
  · rw [row_memberRow_iff _ (by decide)]
    decide

end Markdown

end FormatFuzz
