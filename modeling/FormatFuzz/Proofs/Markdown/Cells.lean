import FormatFuzz.Proofs.Markdown.Texts
import FormatFuzz.Proofs.Model.Place
import FormatFuzz.Proofs.Program.Words

/-!
# Cells of fields and instances

What a table says of a field comes from four sources: names, which are plain; numbers; expressions,
which stay on their line and have their bars escaped; and the words of the table itself. So the row of
a field has five cells as soon as its names are plain and its expressions stay on their line.
-/

set_option autoImplicit false

namespace FormatFuzz

open Text (Unbroken Plain)

theorem Digest.plain_name (d : Digest) : Plain d.name := by
  cases d with
  | sha3 bits =>
    rw [Digest.name]
    exact Text.Plain.append (by decide) (Text.plain_int bits)
  | _ => decide

theorem Primitive.plain_name (p : Primitive) : Plain p.name := by
  have suffix (e : Option Endian) : Plain (suffixText e) := by
    cases e with
    | none => decide
    | some e => cases e <;> decide
  cases p with
  | int s w e =>
    rw [Primitive.name]
    exact (Text.Plain.append (by cases s <;> decide) (Text.plain_int w)).append (suffix e)
  | float w e =>
    rw [Primitive.name]
    exact (Text.Plain.append (by decide) (Text.plain_int w)).append (suffix e)
  | string t => cases t <;> decide

theorem plain_qualified (p : TypePath) (h : ∀ s ∈ p, Plain s) : Plain (qualified p) :=
  Text.plain_join _ _ (by decide) h

namespace Markdown

theorem isWordChar_lowerLetter (c : Char) (h : Text.isWordChar c = true) :
    Text.isWordChar (Text.lowerLetter c) = true :=
  Text.isWordChar_induction (fun c => Text.isWordChar (Text.lowerLetter c)) (by decide) c h

theorem isWordChar_pascalCase (s : String) :
    ∀ c ∈ (Text.pascalCase s).toList, Text.isWordChar c = true := by
  have hbody : ∀ c ∈ (Text.words s.toList).flatMap Text.capitalize, Text.isWordChar c = true := by
    intro c hc
    obtain ⟨w, hw, hc⟩ := List.mem_flatMap.mp hc
    have hchars := (Text.mem_words s.toList w hw).2
    cases w with
    | nil => cases hc
    | cons d ds =>
      obtain ⟨hd, hds⟩ := List.forall_mem_cons.mp hchars
      rcases List.mem_cons.mp hc with rfl | hc
      · exact Program.isWordChar_toUpper d hd
      · exact hds c hc
  unfold Text.pascalCase
  dsimp only
  rw [String.toList_ofList]
  split
  · exact List.forall_mem_cons.mpr ⟨by decide, hbody⟩
  · exact hbody

theorem plain_anchor (p : TypePath) : Plain (anchor p) := by
  have hchars : ∀ c ∈ (anchor p).toList, Text.isWordChar c = true := by
    unfold anchor Text.lowerText
    rw [String.toList_ofList]
    intro c hc
    obtain ⟨d, hd, rfl⟩ := List.mem_map.mp hc
    exact isWordChar_lowerLetter d (isWordChar_pascalCase _ d hd)
  exact ⟨fun h => absurd (hchars _ h) (by decide), fun h => absurd (hchars _ h) (by decide)⟩

theorem cell_elementType (t : TypeRef) (h : ∀ p ∈ t.users, ∀ s ∈ p, Plain s) :
    Cell (elementType t) := by
  cases t with
  | bytes => decide
  | prim p => exact cell_of_plain p.plain_name
  | user p =>
    have hname := plain_qualified p (h p (by simp [TypeRef.users]))
    rw [elementType]
    exact cell_of_plain
      (.append (.append (.append (.append (by decide) hname) (by decide)) (plain_anchor p))
        (by decide))
  | switch on cases default =>
    -- the names of the cases stand between bars that are escaped
    have hnames : ∀ s ∈ (cases.map Prod.snd ++ default.toList).map fun p => p.getLastD "",
        Cell s := by
      intro s hs
      obtain ⟨p, hp, rfl⟩ := List.mem_map.mp hs
      rw [List.getLastD_eq_getLast?]
      cases hlast : p.getLast? with
      | none => decide
      | some name => exact cell_of_plain (h p hp name (List.mem_of_getLast? hlast))
    rw [elementType]
    exact .append (.append (by decide) (cell_join _ _ (by decide) hnames)) (by decide)

/-- A note whose key can stand in a cell, and whose value can once its bars are escaped. -/
def Noted (d : Detail) : Prop := Cell d.1 ∧ Unbroken d.2

theorem noted_pair {key value : String} (hk : Cell key) (hv : Unbroken value) :
    Noted (key, value) := ⟨hk, hv⟩

theorem cell_detailsCell (ds : List Detail) (h : ∀ d ∈ ds, Noted d) : Cell (detailsCell ds) := by
  refine cell_join _ _ (by decide) fun s hs => ?_
  obtain ⟨d, hd, rfl⟩ := List.mem_map.mp hs
  obtain ⟨hkey, hvalue⟩ := h d hd
  exact ((hkey.append (by decide)).append (cell_replaceAll d.2 hvalue)).append (by decide)

theorem noted_exprDetail (key : String) (e : Option Expr) (hk : Cell key)
    (he : ∀ x, e = some x → Unbroken x.printed) : ∀ d ∈ exprDetail key e, Noted d := by
  intro d hd
  obtain ⟨x, hx, rfl⟩ := List.mem_map.mp hd
  exact ⟨hk, he x (by simpa using hx)⟩

theorem noted_bounds {key : String} (hk : Cell key) (lo hi : Int) {unit : String}
    (hu : Unbroken unit) : Noted (key, toString lo ++ " to " ++ toString hi ++ unit) := by
  refine noted_pair hk ?_
  simp only [Text.unbroken_append]
  exact ⟨⟨⟨(Text.plain_int lo).1, by decide⟩, (Text.plain_int hi).1⟩, hu⟩

structure Lined (f : Field) : Prop where
  id : Plain f.id
  exprs (k : Place) (e : Expr) (h : f.Holds k e) : Unbroken e.printed
  users : ∀ p ∈ f.type.users, ∀ s ∈ p, Plain s
  enum (e : EnumId) (h : f.enum = some e) : Unbroken e.name
  encoding : Unbroken f.encoding
  pool (p : TypePath) (h : f.pool = some p) : ∀ s ∈ p, Plain s

namespace Lined

variable {f : Field} (h : Lined f)

include h

theorem noted_repeat (r : Repeat) (hr : f.repeated = some r) : Noted (repeatDetail r) := by
  unfold repeatDetail
  split
  next n hform =>
    refine noted_pair (by decide) ?_
    simp only [Text.unbroken_append]
    exact ⟨h.exprs _ n (.count hr hform), by decide⟩
  next c hform =>
    refine noted_pair (by decide) ?_
    simp only [Text.unbroken_append]
    exact ⟨⟨⟨h.exprs _ c (.until hr hform), by decide⟩, (Text.plain_int _).1⟩, by decide⟩
  next => exact noted_bounds (by decide) _ _ (by decide)

theorem noted_pool : ∀ d ∈ f.pool.toList.map fun p => (("pool", qualified p) : Detail), Noted d := by
  intro d hd
  obtain ⟨p, hp, rfl⟩ := List.mem_map.mp hd
  exact noted_pair (by decide) (plain_qualified p (h.pool p (by simpa using hp))).1

theorem noted_role : ∀ d ∈ roleDetail f, Noted d := by
  unfold roleDetail
  split
  next => exact noted_exprDetail _ _ (by decide) fun e he => h.exprs _ e (.measure he)
  next => exact h.noted_pool
  next => exact h.noted_pool
  next =>
    rw [List.forall_mem_singleton]
    refine noted_pair (by decide) (Text.unbroken_join _ _ (by decide) fun s hs => ?_)
    obtain ⟨e, he, rfl⟩ := List.mem_map.mp hs
    exact h.exprs _ e (.choice he)
  next =>
    refine noted_exprDetail _ _ ?_ fun e he => h.exprs _ e (.input he)
    cases f.digest with
    | none => decide
    | some d => exact cell_of_plain (d.plain_name.append (by decide))
  next =>
    split
    next on cases default ht =>
      rw [List.forall_mem_singleton]
      exact noted_pair (by decide) (h.exprs _ on (.switchOn ht))
    next => simp
  next => simp

omit h in
theorem noted_range (f : Field) : ∀ d ∈ rangeDetail f, Noted d := by
  unfold rangeDetail
  split
  next =>
    split
    next =>
      rw [List.forall_mem_singleton]
      refine noted_pair (by decide) ?_
      simp only [Text.unbroken_append]
      exact ⟨⟨⟨⟨by decide, (Text.plain_int _).1⟩, by decide⟩, (Text.plain_int _).1⟩, by decide⟩
    next => simp
  next => simp

theorem noted_size (s : Size) (hs : f.size = some s) : Noted (sizeDetail s) := by
  unfold sizeDetail
  split
  next e he => exact noted_pair (by decide) (h.exprs _ e (.size hs he))
  next => exact noted_bounds (by decide) _ _ (by decide)

theorem noted_process (p : Process) (hp : f.process = some p) : Noted (processDetail p) := by
  cases p with
  | zlib => exact noted_pair (by decide) (by decide)
  | xor key =>
    refine noted_pair (by decide) ?_
    simp only [Text.unbroken_append]
    exact ⟨⟨by decide, h.exprs _ key (.processKey hp)⟩, by decide⟩

theorem noted_details : ∀ d ∈ details f, Noted d := by
  have optional {α : Type} (x : Option α) (detail : α → Detail)
      (hx : ∀ y, x = some y → Noted (detail y)) : ∀ d ∈ x.toList.map detail, Noted d := by
    intro d hd
    obtain ⟨y, hy, rfl⟩ := List.mem_map.mp hd
    exact hx y (by simpa using hy)
  have hencoding : ∀ d ∈ (if f.type.kind = .string then [("encoding", f.encoding)] else []),
      Noted d := by
    split
    · rw [List.forall_mem_singleton]
      exact noted_pair (by decide) h.encoding
    · simp
  unfold details
  simp only [List.forall_mem_append]
  refine ⟨⟨⟨⟨⟨⟨⟨⟨⟨⟨?guard, ?repeated⟩, h.noted_role⟩, ?enum⟩, ?fixed⟩, noted_range f⟩, ?contents⟩,
    ?size⟩, hencoding⟩, ?terminator⟩, ?process⟩
  case guard => exact noted_exprDetail _ _ (by decide) fun e he => h.exprs _ e (.guard he)
  case repeated => exact optional _ _ h.noted_repeat
  case enum => exact optional _ _ fun e he => noted_pair (by decide) (h.enum e he)
  case fixed => exact noted_exprDetail _ _ (by decide) fun e he => h.exprs _ e (.fixed he)
  case contents =>
    exact optional _ _ fun bs _ => noted_pair (by decide) (Text.unbroken_hex bs)
  case size => exact optional _ _ h.noted_size
  case terminator =>
    exact optional _ _ fun t _ => noted_pair (by decide)
      ((Text.unbroken_append _ _).mpr ⟨by decide, Text.unbroken_hex [t]⟩)
  case process => exact optional _ _ h.noted_process

end Lined

theorem cell_code (s : String) (h : Plain s) : Cell ("`" ++ s ++ "`") :=
  cell_of_plain (.append (.append (by decide) h) (by decide))

theorem cell_yesNo (b : Bool) : Cell (yesNo b) := by
  cases b <;> decide

theorem Lined.row {f : Field} (h : Lined f) : Row 5 (fieldRow f) := by
  have htype : Cell (fieldType f) := by
    unfold fieldType
    have helement := cell_elementType f.type h.users
    split
    · exact ((by decide : Cell "array(").append helement).append (by decide)
    · exact helement
  have hrole : Cell f.role.text := by cases f.role <;> decide
  refine (row_iff _ (by simp)).mpr ?_
  simp only [List.forall_mem_cons]
  exact ⟨cell_code _ h.id, htype, hrole, cell_yesNo _, cell_detailsCell _ h.noted_details, by simp⟩

theorem row_instanceRow (i : Instance) (hid : Plain i.id)
    (hexprs : ∀ k e, i.Holds k e → Unbroken e.printed) : Row 5 (instanceRow i) := by
  have hkind : Cell (if i.isStatic then "static instance" else "instance") := by
    cases i.isStatic <;> decide
  have hdetails : ∀ d ∈ ("value", i.value.printed) :: exprDetail "if" i.guard, Noted d :=
    List.forall_mem_cons.mpr ⟨noted_pair (by decide) (hexprs _ _ .value),
      noted_exprDetail _ _ (by decide) fun e he => hexprs _ e (.guard he)⟩
  refine (row_iff _ (by simp)).mpr ?_
  simp only [List.forall_mem_cons]
  exact ⟨cell_code _ hid, by decide, hkind, cell_yesNo _, cell_detailsCell _ hdetails, by simp⟩

def memberRow (x : EnumMember) : String :=
  row [toString x.value, "`" ++ x.id ++ "`", x.doc]

theorem row_memberRow_iff (x : EnumMember) (hid : Plain x.id) :
    Row 3 (memberRow x) ↔ Cell x.doc := by
  have hvalue := cell_of_plain (Text.plain_int x.value)
  refine (row_iff _ (by simp)).trans ?_
  simp only [List.forall_mem_cons, hvalue, cell_code x.id hid, true_and]
  simp

end Markdown

end FormatFuzz
