import FormatFuzz.Proofs.Schema.Copying
import FormatFuzz.Proofs.Schema.Imports

/-!
# Schemas that were read

What decoding gives, whatever the node: integers fit a word, times are those of a clock and a
calendar, no mapping has a string key twice, and the further keys of an attribute are none of its
own. Nothing is asked of the text, so this holds of every schema that is parsed or loaded.
-/

set_option autoImplicit false

namespace FormatFuzz

open Yaml (Node)

namespace Value

inductive Formed : Value → Prop
  | null : Formed .null
  | int (v : ℤ) (h : Yaml.IntRange v) : Formed (.int v)
  | float (x : Double) : Formed (.float x)
  | bool (b : Bool) : Formed (.bool b)
  | str (s : String) : Formed (.str s)
  | time (t : Timestamp) (h : t.Proper) : Formed (.time t)
  | list (xs : List Value) (h : ∀ x ∈ xs, Formed x) : Formed (.list xs)
  | map (es : List (String × Value)) (hk : (Keyed.keys es).Nodup) (h : ∀ e ∈ es, Formed e.2) :
      Formed (.map es)
  | table (es : List (Value × Value)) (hc : ∀ e ∈ es, e.1.isCollection = false)
      (hk : ∀ e ∈ es, Formed e.1) (h : ∀ e ∈ es, Formed e.2) : Formed (.table es)

theorem Formed.proper (v : Value) (h : v.Formed) : v.Proper := by
  induction h with
  | null => exact .null
  | int v h => exact .int v h
  | float x => exact .float x
  | bool b => exact .bool b
  | str s => exact .str s
  | time t h => exact .time t h
  | list xs _ ih => exact .list xs ih
  | map es _ _ ih => exact .map es ih
  | table es _ _ _ ihk ih => exact .table es ihk ih

theorem formed_plainValue (s : String) : (Yaml.plainValue s).Formed := by
  unfold Yaml.plainValue
  split_ifs
  · exact .null
  · exact .bool true
  · exact .bool false
  · exact .float _
  · exact .float _
  · exact .float _
  · cases ht : Timestamp.ofText? s with
    | some t => exact .time t (Timestamp.proper_ofText? s t ht)
    | none =>
      cases hn : Yaml.number? s with
      | some v =>
        rcases Yaml.number?_cases s v hn with ⟨i, rfl, hi⟩ | ⟨x, rfl⟩
        · exact .int i hi
        · exact .float x
      | none =>
        cases hm : Yaml.markedInteger? s with
        | some v =>
          obtain ⟨i, rfl, hi⟩ := Yaml.markedInteger?_int s v hm
          exact .int i hi
        | none => exact .str s
  · unfold Yaml.pointFloat?
    simp only
    split_ifs
    · split
      · exact .float _
      · exact .str s
    · exact .str s
  · exact .str s

theorem formed_scalarValue (style : Yaml.Style) (t : String) :
    (Node.scalarValue style t).Formed := by
  cases style with
  | plain => exact formed_plainValue t
  | tagged tag =>
    have hplain := formed_plainValue t
    unfold Node.scalarValue
    dsimp only
    split
    next i hi =>
      rw [hi] at hplain
      split_ifs
      · exact .str t
      · exact .float _
      · exact hplain
    next =>
      split
      · exact .str t
      · exact hplain
  | single => exact .str t
  | double => exact .str t
  | literal => exact .str t

end Value

namespace Decode

open Decoder

section

variable {α : Type} (P : α → Prop)

theorem gives_anyFields (entry : α → Node → Node → Decoder α) (start : α) (fs : List Yaml.Field)
    (hs : P start) (step : ∀ a k v, P a → Gives (entry a k v) P) :
    Gives (fields entry start fs) P := by
  refine gives_foldlM _ P fs (fun f _ a ha => ?_) start hs
  cases f with
  | entry k v => exact step a k v ha
  | clash => exact gives_mismatch a P ha
  | noMerge => exact gives_throw _ P

theorem gives_named (set : α → String → Node → Decoder α) (a : α) (k v : Node) (ha : P a)
    (step : ∀ key, Gives (set a key v) P) : Gives (named set a k v) P := by
  refine gives_bind _ _ _ _ (gives_true _) fun name _ => ?_
  cases name with
  | none => exact gives_pure a P ha
  | some key => exact step key

theorem gives_record (empty : α) (set : α → String → Node → Decoder α) (n : Node) (he : P empty)
    (step : ∀ a key v, P a → Gives (set a key v) P) : Gives (record empty set n) P := by
  have other : ∀ n : Node, Gives (if n.isNull then pure empty else mismatch empty) P := by
    intro n
    split
    · exact gives_pure empty P he
    · exact gives_mismatch empty P he
  cases n with
  | map l es =>
    exact gives_anyFields P _ empty _ he fun a k v ha => gives_named P set a k v ha fun key =>
      step a key v ha
  | scalar l style t => exact other (.scalar l style t)
  | seq l xs => exact other (.seq l xs)

theorem gives_put {β : Type} (d : Decoder β) (put : β → α) (Q : β → Prop) (hd : Gives d Q)
    (h : ∀ x, Q x → P (put x)) : Gives (d >>= fun x => pure (put x)) P :=
  gives_bind _ _ Q P hd fun x hx => gives_pure _ P (h x hx)

theorem gives_keyed (one : Node → Decoder α) (n : Node) (h : ∀ m, Gives (one m) P) :
    Gives (keyed one n) (Keyed.Each P) := by
  unfold keyed
  split
  · exact gives_pure _ _ (Keyed.each_nil P)
  · cases n with
    | map l es =>
      refine gives_foldlM _ _ es (fun e _ m hm => ?_) _ (Keyed.each_nil P)
      split
      next v hv => exact gives_pure _ _ (Keyed.each_set P m _ v hm (gives_alone _ P (h e.2) v hv))
      next => exact gives_throw _ _
    | scalar => exact gives_throw _ _
    | seq => exact gives_throw _ _

theorem gives_items (f : Node → Decoder α) (n : Node) (h : ∀ m, Gives (f m) P) :
    Gives (match n with
      | .seq _ xs => xs.mapM f
      | n => if n.isNull then pure [] else mismatch []) fun xs => ∀ x ∈ xs, P x := by
  have other : ∀ n : Node, Gives (if n.isNull then pure [] else mismatch [] : Decoder (List α))
      fun xs => ∀ x ∈ xs, P x := by
    intro n
    split
    · exact gives_pure _ _ (by simp)
    · exact gives_mismatch _ _ (by simp)
  cases n with
  | seq l xs => exact gives_mapM f P xs fun x _ => h x
  | scalar l style t => exact other (.scalar l style t)
  | map l es => exact other (.map l es)

end

theorem formed_valueWithin (k : ℕ) (n : Node) : Gives (valueWithin k n) Value.Formed := by
  induction k generalizing n with
  | zero => exact gives_throw _ _
  | succ k ih =>
    cases n with
    | scalar l style t => exact gives_pure _ _ (Value.formed_scalarValue style t)
    | seq l xs =>
      exact gives_put _ _ _ _ (gives_mapM _ Value.Formed xs fun x _ => ih x) fun ys hys =>
        .list ys hys
    | map l es =>
      rw [valueWithin]
      split
      · refine gives_put _ _ Value.map (Keyed.Each Value.Formed) ?_ fun m hm => .map m hm.1 hm.2
        refine gives_anyFields _ _ _ _ (Keyed.each_nil _) fun m k v hm => ?_
        refine gives_named _ _ m k v hm fun key => ?_
        exact gives_put _ _ _ _ (ih v) fun x hx => Keyed.each_set _ m key x hm hx
      · refine gives_put _ _ Value.table
          (fun es => ∀ e ∈ es, (e.1.isCollection = false ∧ e.1.Formed) ∧ e.2.Formed) ?_
          fun es hes => .table es (fun e he => (hes e he).1.1) (fun e he => (hes e he).1.2)
            fun e he => (hes e he).2
        refine gives_anyFields _ _ _ _ (by simp) fun es k v hes => ?_
        refine gives_bind _ _ _ _ (ih k) fun key hkey => ?_
        split
        · exact gives_throw _ _
        next hcol =>
          exact gives_put _ _ _ _ (ih v) fun x hx =>
            Value.forall_setKey (fun k => k.isCollection = false ∧ k.Formed) _ key x es hes
              ⟨by simpa using hcol, hkey⟩ hx

theorem formed_value (n : Node) : Gives (value n) Value.Formed := formed_valueWithin _ n

theorem formed_valueList (n : Node) : Gives (valueList n) fun vs => ∀ v ∈ vs, v.Formed :=
  gives_items Value.Formed value n formed_value

theorem signed_intOf? (v : Value) (hv : v.Formed) (i : Int) (h : intOf? v = some i) :
    Word.isSigned i = true := by
  have bounds : ∀ j : Int, -(Word.half : Int) ≤ j → j < Word.half → Word.isSigned j = true := by
    intro j hlo hhi
    simp only [Word.isSigned, Bool.and_eq_true, decide_eq_true_eq]
    exact ⟨hlo, hhi⟩
  unfold intOf? at h
  split at h
  next j =>
    cases hv with
    | int _ hj =>
      split at h
      next hlt =>
        cases h
        exact bounds i hj.1 hlt
      next => cases h
  next x =>
    simp only at h
    split_ifs at h with hnan hinf hneg hlow hlt
    · cases h
      decide
    · cases h
      decide
    · cases h
      simp only [Bool.or_eq_true, decide_eq_true_eq, not_or] at hlow
      exact bounds _ (by omega) hlt
  next => cases h

theorem signed_int? (n : Node) : Gives (int? n) fun v => ∀ i ∈ v, Word.isSigned i = true := by
  have none : ∀ i ∈ (none : Option Int), Word.isSigned i = true := by simp
  unfold int?
  split
  next l style t =>
    split
    · exact gives_pure _ _ none
    · split
      next i hi =>
        refine gives_pure _ _ fun j hj => ?_
        cases hj
        exact signed_intOf? _ (Value.formed_scalarValue style t) i hi
      next => exact gives_mismatch _ _ none
  next => exact gives_mismatch _ _ none

end Decode

structure Attr.Formed (a : Attr) : Prop where
  values : ∀ v ∈ a.values, v.Formed
  integers : ∀ v ∈ a.integers, ∀ i ∈ v, Word.isSigned i = true
  cases : (Keyed.keys (Decode.casesOf a.type)).Nodup
  further : Decode.Further a.extra

namespace Attr

theorem Formed.proper (a : Attr) (h : a.Formed) : a.Proper :=
  ⟨fun v hv => (h.values v hv).proper, h.integers, h.further⟩

theorem Formed.change (a b : Attr) (h : a.Formed)
    (hu : ∀ v ∈ b.untyped, v ∈ a.untyped ∨ v.Formed)
    (hi : ∀ v ∈ b.integers, v ∈ a.integers ∨ ∀ i ∈ v, Word.isSigned i = true)
    (ht : b.type = a.type) (hc : b.choice = a.choice) (he : b.extra = a.extra) : b.Formed := by
  obtain ⟨huntyped, hon, hchoice, hextra⟩ := (a.forall_values _).mp h.values
  refine ⟨(b.forall_values _).mpr ⟨fun v hv => ?_, ?_, hc ▸ hchoice, he ▸ hextra⟩, fun v hv => ?_,
    ht ▸ h.cases, he ▸ h.further⟩
  · exact (hu v hv).elim (huntyped v) fun h => h
  · have hsw : b.switchOn = a.switchOn := by rw [switchOn, switchOn, ht]
    exact hsw ▸ hon
  · exact (hi v hv).elim (h.integers v) fun h => h

theorem Formed.withType (a : Attr) (h : a.Formed) (t : Option TypeSpec)
    (hon : ∀ v ∈ ({ a with type := t } : Attr).switchOn, v.Formed)
    (ht : (Keyed.keys (Decode.casesOf t)).Nodup) : ({ a with type := t } : Attr).Formed := by
  obtain ⟨huntyped, -, hchoice, hextra⟩ := (a.forall_values _).mp h.values
  exact ⟨(Attr.forall_values _ _).mpr ⟨huntyped, hon, hchoice, hextra⟩, h.integers, ht, h.further⟩

theorem Formed.withChoice (a : Attr) (h : a.Formed) (vs : List Value) (hv : ∀ v ∈ vs, v.Formed) :
    ({ a with choice := vs } : Attr).Formed := by
  obtain ⟨huntyped, hon, -, hextra⟩ := (a.forall_values _).mp h.values
  exact ⟨(Attr.forall_values _ _).mpr ⟨huntyped, hon, hv, hextra⟩, h.integers, h.cases, h.further⟩

theorem Formed.withExtra (a : Attr) (h : a.Formed) (key : String) (hk : key ∉ Decode.attrKeys)
    (v : Value) (hv : v.Formed) : ({ a with extra := Keyed.set a.extra key v } : Attr).Formed := by
  obtain ⟨huntyped, hon, hchoice, hextra⟩ := (a.forall_values _).mp h.values
  have heach : Keyed.Each Value.Formed (Keyed.set a.extra key v) :=
    Keyed.each_set _ a.extra key v ⟨h.further.1, hextra⟩ hv
  refine ⟨(Attr.forall_values _ _).mpr ⟨huntyped, hon, hchoice, heach.2⟩, h.integers, h.cases,
    heach.1, fun k hmem => ?_⟩
  rw [Keyed.keys_set] at hmem
  split at hmem
  · exact h.further.2 k hmem
  · rcases List.mem_append.mp hmem with hmem | hmem
    · exact h.further.2 k hmem
    · exact List.mem_singleton.mp hmem ▸ hk

theorem formed_empty : ({} : Attr).Formed where
  values := by simp [values, untyped, switchOn, Value.Formed.null]
  integers := by simp [integers]
  cases := List.nodup_nil
  further := ⟨List.nodup_nil, by simp [Keyed.keys]⟩

end Attr

namespace Decode

open Decoder

theorem formed_switchSpec (n : Node) :
    Gives (switchSpec n) fun s => s.1.Formed ∧ (Keyed.keys s.2).Nodup := by
  refine gives_record _ _ _ n ⟨.null, List.nodup_nil⟩ fun s key v hs => ?_
  split
  · exact gives_put _ _ _ _ (formed_value v) fun x hx => ⟨hx, hs.2⟩
  · exact gives_put _ _ _ _ (gives_keyed (fun _ => True) string v fun _ => gives_true _)
      fun x hx => ⟨hs.1, hx.1⟩
  · exact gives_pure _ _ hs

theorem formed_typeSpec? (n : Node) : Gives (typeSpec? n) fun t =>
    (∀ on cases, t = some (.switch on cases) → on.Formed) ∧ (Keyed.keys (casesOf t)).Nodup := by
  unfold typeSpec?
  split
  · exact gives_pure _ _ ⟨nofun, List.nodup_nil⟩
  · split
    · exact gives_pure _ _ ⟨nofun, List.nodup_nil⟩
    · refine gives_bind _ _ _ _ (gives_inner _ _ _ ⟨.null, List.nodup_nil⟩ (formed_switchSpec _))
        fun s hs => gives_pure _ _ ⟨fun on cases h => ?_, hs.2⟩
      cases h
      exact hs.1
    · exact gives_throw _ _

theorem formed_attr (n : Node) : Gives (attr n) Attr.Formed := by
  refine gives_record _ _ _ n Attr.formed_empty fun a key v ha => ?_
  split
  case h_4 =>
    refine gives_put _ _ _ _ (formed_typeSpec? v) fun t ht => ha.withType a t (fun w hw => ?_) ht.2
    unfold Attr.switchOn at hw
    split at hw
    next on cases h => exact List.mem_singleton.mp hw ▸ ht.1 on cases h
    next => simp at hw
  case h_25 => exact gives_put _ _ _ _ (formed_valueList v) fun vs hvs => ha.withChoice a vs hvs
  case h_28 =>
    refine gives_put _ _ _ _ (formed_value v) fun x hx => ha.withExtra a key ?_ x hx
    simp_all [attrKeys]
  -- texts and truth values, then untyped values, then integers
  all_goals first
    | exact gives_put _ _ _ _ (gives_true _) fun x _ =>
        ha.change a _ (fun _ => .inl) (fun _ => .inl) rfl rfl rfl
    | exact gives_put _ _ _ _ (formed_value v) fun x hx =>
        ha.change a _ (by simp [Attr.untyped, hx]) (fun _ => .inl) rfl rfl rfl
    | exact gives_put _ _ _ _ (signed_int? v) fun x hx =>
        ha.change a _ (fun _ => .inl) (by simpa [Attr.integers] using Or.inr hx)
          rfl rfl rfl

end Decode

/-- An entry whose value fits a word. A short form without a name does not occur. -/
structure EnumEntry.Formed (e : EnumEntry) : Prop where
  value : Word.isSigned e.value = true
  form : e.form ≠ .short ""

/-- All of a schema but its types, as decoding gives it. -/
structure SchemaBody.Formed (b : SchemaBody) : Prop where
  values : ∀ v ∈ b.values, v.Formed
  attrs : ∀ a ∈ b.attrs, a.Formed
  instances : (Keyed.keys b.instances).Nodup
  enums : (Keyed.keys b.enums).Nodup
  entries : ∀ e ∈ b.enums, ∀ x ∈ e.2, x.Formed

theorem SchemaBody.Formed.proper (b : SchemaBody) (h : b.Formed) : b.Proper :=
  ⟨fun v hv => (h.values v hv).proper, fun a ha => (h.attrs a ha).proper⟩

inductive Schema.Formed : Schema → Prop
  | mk (b : SchemaBody) (ts : List (String × Schema)) (hb : b.Formed)
      (hn : (Keyed.keys ts).Nodup) (ht : ∀ e ∈ ts, Formed e.2) : Formed (.mk b ts)

theorem Schema.Formed.proper (s : Schema) (h : s.Formed) : s.All SchemaBody.Proper := by
  induction h with
  | mk b ts hb _ _ ih => exact .mk b ts hb.proper ih

namespace Decode

open Decoder

theorem formed_head (n : Node) : Gives (head n) fun m => ∀ v ∈ m.untyped, v.Formed := by
  refine gives_record _ _ _ n (by simp [Meta.untyped, Meta.empty, Value.Formed.null])
    fun m key v hm => ?_
  obtain ⟨happ, hext⟩ : m.application.Formed ∧ m.fileExtension.Formed := by
    simpa [Meta.untyped] using hm
  split
  case h_3 =>
    exact gives_put _ _ _ _ (formed_value v) fun x hx => by simpa [Meta.untyped] using ⟨hx, hext⟩
  case h_4 =>
    exact gives_put _ _ _ _ (formed_value v) fun x hx => by simpa [Meta.untyped] using ⟨happ, hx⟩
  case h_9 => exact gives_pure _ _ hm
  all_goals exact gives_put _ _ _ _ (gives_true _) fun _ _ => hm

theorem formed_enumEntry (k v : Node) : Gives (enumEntry k v) EnumEntry.Formed := by
  unfold enumEntry
  cases hkey : enumKey? k.text with
  | none => exact gives_throw _ _
  | some i =>
    have hi : Word.isSigned i = true := by
      unfold enumKey? at hkey
      split at hkey
      next j _ =>
        split at hkey
        next hj =>
          cases hkey
          exact hj
        next => cases hkey
      next => cases hkey
    simp only
    split
    next l style t =>
      split
      next h =>
        refine gives_pure _ _ ⟨hi, fun hs => ?_⟩
        simp only [Bool.and_eq_true, decide_eq_true_eq] at h
        exact h.2 (by injection hs)
      next => exact gives_pure _ _ ⟨hi, nofun⟩
    next l es =>
      split
      next => exact gives_pure _ _ ⟨hi, nofun⟩
      next => exact gives_throw _ _
    next => exact gives_pure _ _ ⟨hi, nofun⟩

theorem formed_enumEntries (n : Node) :
    Gives (enumEntries n) fun es => ∀ e ∈ es, e.Formed := by
  unfold enumEntries
  split
  · exact gives_pure _ _ (by simp)
  · cases n with
    | map l es => exact gives_mapM _ _ es fun e _ => formed_enumEntry e.1 e.2
    | scalar => exact gives_throw _ _
    | seq => exact gives_throw _ _

theorem formed_bodyEntry (b : SchemaBody) (key : String) (v : Node) (hb : b.Formed) :
    Gives (bodyEntry b key v) SchemaBody.Formed := by
  have hvalues : (∀ v ∈ b.head.untyped, v.Formed) ∧ ∀ v ∈ b.order, v.Formed :=
    List.forall_mem_append.mp hb.values
  have hattrs : (∀ a ∈ b.seq, a.Formed) ∧ ∀ a ∈ b.instances.map Prod.snd, a.Formed :=
    List.forall_mem_append.mp hb.attrs
  unfold bodyEntry
  split
  case h_1 =>
    exact gives_put _ _ _ _ (formed_head v) fun m hm =>
      ⟨List.forall_mem_append.mpr ⟨hm, hvalues.2⟩, hb.attrs, hb.instances, hb.enums, hb.entries⟩
  case h_4 =>
    exact gives_put _ _ _ _ (gives_items Attr.Formed attr v formed_attr) fun as has =>
      ⟨hb.values, List.forall_mem_append.mpr ⟨has, hattrs.2⟩, hb.instances, hb.enums, hb.entries⟩
  case h_5 =>
    refine gives_put _ _ _ _ (gives_keyed Attr.Formed attr v formed_attr) fun es hes =>
      ⟨hb.values, List.forall_mem_append.mpr ⟨hattrs.1, ?_⟩, hes.1, hb.enums, hb.entries⟩
    exact List.forall_mem_map.mpr hes.2
  case h_6 =>
    exact gives_put _ _ _ _ (gives_keyed _ enumEntries v formed_enumEntries) fun es hes =>
      ⟨hb.values, hb.attrs, hb.instances, hes.1, hes.2⟩
  case h_7 =>
    exact gives_put _ _ _ _ (formed_valueList v) fun vs hvs =>
      ⟨List.forall_mem_append.mpr ⟨hvalues.1, hvs⟩, hb.attrs, hb.instances, hb.enums, hb.entries⟩
  case h_8 => exact gives_pure _ _ hb
  all_goals exact gives_put _ _ _ _ (gives_true _) fun _ _ =>
    ⟨hb.values, hb.attrs, hb.instances, hb.enums, hb.entries⟩

theorem formed_schemaWithin (k : ℕ) (n : Node) : Gives (schemaWithin k n) Schema.Formed := by
  induction k generalizing n with
  | zero => exact gives_throw _ _
  | succ k ih =>
    have hempty : ({} : SchemaBody).Formed :=
      ⟨by simp [SchemaBody.values, Meta.untyped, Meta.empty, Value.Formed.null],
        by simp [SchemaBody.attrs], List.nodup_nil, List.nodup_nil, by simp⟩
    refine gives_record _ _ _ n (.mk _ _ hempty List.nodup_nil (by simp)) fun s key v hs => ?_
    obtain ⟨b, ts, hb, hn, ht⟩ := hs
    unfold schemaEntry
    split
    · exact gives_put _ _ _ _ (gives_keyed _ _ v ih) fun us hus => .mk b us hb hus.1 hus.2
    · exact gives_put _ _ _ _ (formed_bodyEntry b key v hb) fun c hc => .mk c ts hc hn ht

end Decode

theorem SchemaFile.formed_parse (path text : String) (f : SchemaFile)
    (h : parse path text = .ok f) : f.schema.Formed := by
  unfold parse at h
  split at h
  next => cases h
  next root _ =>
    split at h
    next => cases h
    next s hs =>
      split at h
      · cases h
      · split at h
        · cases h
        · cases h
          exact Decoder.gives_alone _ _ (Decode.formed_schemaWithin _ _) s hs

theorem SchemaFile.formed_read (fs : FileSystem) (path : String) (f : SchemaFile)
    (h : read fs path = .ok f) : f.schema.Formed := by
  unfold read at h
  split at h
  next => cases h
  next text _ => exact formed_parse path text f h

namespace SchemaSet

/-- A set of schemas that comes from a text on its own, or from a file and those it imports. -/
def Parsed (set : SchemaSet) : Prop :=
  (∃ path text, ofText path text = .ok set) ∨ ∃ fs path, load fs path = .ok set

def Formed (set : SchemaSet) : Prop := ∀ s ∈ set.schemas, s.Formed

theorem Formed.proper (set : SchemaSet) (h : set.Formed) : set.Proper :=
  fun s hs => (h s hs).proper

theorem Parsed.formed (set : SchemaSet) (h : set.Parsed) : set.Formed := by
  rcases h with ⟨path, text, h⟩ | ⟨fs, path, h⟩
  · obtain ⟨f, hf, h⟩ := (bind_eq_ok _ _ _).mp h
    rw [pure_eq_ok] at h
    subst h
    exact List.forall_mem_singleton.mpr (SchemaFile.formed_parse path text f hf)
  · obtain ⟨hmain, himported⟩ := load_files path set h
    refine List.forall_mem_cons.mpr ⟨SchemaFile.formed_read fs path _ hmain, ?_⟩
    refine List.forall_mem_map.mpr fun e he => ?_
    obtain ⟨dir, name, hread⟩ := himported e he
    exact SchemaFile.formed_read fs _ _ hread

end SchemaSet

end FormatFuzz
