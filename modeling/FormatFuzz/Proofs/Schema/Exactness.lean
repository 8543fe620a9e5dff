import FormatFuzz.Proofs.Schema.Clashes
import FormatFuzz.Proofs.Schema.Parsed
import FormatFuzz.Proofs.Schema.Sameness

/-!
# Exact copies

When the copy of a parsed set of schemas is the set itself, but for the lines of enum entries and the
order of untyped mappings. The text of a value has to be read as one of its kind, which a float such as
`2.0` fails, no mapping may be written with two keys of one text, a bound has to be read back, and the
time at which the year one began may not stand where a key that holds nothing is left out.
-/

set_option autoImplicit false

namespace FormatFuzz

open Yaml (Node)

namespace Value

theorem Same.induct {P : (v w : Value) → Same v w → Prop} (refl : ∀ v, P v v (.refl v))
    (trans : ∀ u v w (h : Same u v) (h' : Same v w), P u v h → P v w h' → P u w (.trans u v w h h'))
    (list : ∀ xs ys (h : List.Forall₂ Same xs ys), List.Forall₂ (fun v w => ∃ h, P v w h) xs ys →
      P (.list xs) (.list ys) (.list xs ys h))
    (map : ∀ es fs hk (h : List.Forall₂ Same (es.map Prod.snd) (fs.map Prod.snd)),
      List.Forall₂ (fun v w => ∃ h, P v w h) (es.map Prod.snd) (fs.map Prod.snd) →
      P (.map es) (.map fs) (.map es fs hk h))
    (mapOrder : ∀ es fs (h : List.Perm es fs), P (.map es) (.map fs) (.mapOrder es fs h))
    (table : ∀ es fs hk (h : List.Forall₂ Same (es.map Prod.snd) (fs.map Prod.snd)),
      List.Forall₂ (fun v w => ∃ h, P v w h) (es.map Prod.snd) (fs.map Prod.snd) →
      P (.table es) (.table fs) (.table es fs hk h))
    (tableOrder : ∀ es fs (h : List.Perm es fs), P (.table es) (.table fs) (.tableOrder es fs h))
    {v w : Value} (h : Same v w) : P v w h :=
  @Same.rec P (fun xs ys _ => List.Forall₂ (fun v w => ∃ h, P v w h) xs ys) refl trans list map
    mapOrder table tableOrder .nil (fun hvw _ h hs => .cons ⟨hvw, h⟩ hs) v w h

theorem same_scalar {v w : Value} (h : Same v w) :
    v = w ∨ v.isCollection = true ∧ w.isCollection = true := by
  induction h using Same.induct with
  | refl v => exact .inl rfl
  | trans u v w _ _ huv hvw =>
    rcases huv with rfl | ⟨hu, hv⟩
    · exact hvw
    · rcases hvw with rfl | ⟨-, hw⟩
      · exact .inr ⟨hu, hv⟩
      · exact .inr ⟨hu, hw⟩
  | _ => exact .inr ⟨rfl, rfl⟩

theorem kindRank_of_same {v w : Value} (h : Same v w) : Encode.kindRank v = Encode.kindRank w := by
  have collection : ∀ u : Value, u.isCollection = true → Encode.kindRank u = 5 := by
    intro u hu
    cases u with
    | list | map | table => rfl
    | _ => cases hu
  rcases same_scalar h with rfl | ⟨hv, hw⟩
  · rfl
  · rw [collection v hv, collection w hw]

theorem settled_of_same {v w : Value} (h : Same v w) : w.Settled → v.Settled := by
  have mem : ∀ {xs ys : List Value},
      List.Forall₂ (fun v w => ∃ _ : Same v w, w.Settled → v.Settled) xs ys →
      (∀ y ∈ ys, y.Settled) → ∀ x ∈ xs, x.Settled := by
    intro xs ys hxy hys x hx
    obtain ⟨y, hy, -, h⟩ := forall₂_mem_left _ _ _ hxy x hx
    exact h (hys y hy)
  induction h using Same.induct with
  | refl v => exact fun h => h
  | trans u v w _ _ huv hvw => exact fun h => huv (hvw h)
  | list xs ys _ ih =>
    rintro ⟨⟩
    next h => exact .list xs (mem ih h)
  | map es fs hk _ ih =>
    rintro ⟨⟩
    next hn h =>
      refine .map es (by rwa [Keyed.keys, hk]) ?_
      exact List.forall_mem_map.mp (mem ih (List.forall_mem_map.mpr h))
  | mapOrder es fs hperm =>
    rintro ⟨⟩
    next hn h =>
      exact .map es ((hperm.map Prod.fst).nodup_iff.mpr hn) fun e he => h e (hperm.mem_iff.mp he)
  | table es fs hk _ ih =>
    rintro ⟨⟩
    next hs hc hkeys h =>
      have keys : ∀ e ∈ es, ∃ f ∈ fs, f.1 = e.1 := fun e he => by
        have := hk ▸ List.mem_map_of_mem (f := Prod.fst) he
        simpa using this
      refine .table es ?_ (fun e he => ?_) (fun e he => ?_) ?_
      · obtain ⟨f, hf, hstr⟩ := hs
        have : f.1 ∈ es.map Prod.fst := hk ▸ List.mem_map_of_mem hf
        obtain ⟨e, he, heq⟩ := List.mem_map.mp this
        exact ⟨e, he, heq ▸ hstr⟩
      · obtain ⟨f, hf, heq⟩ := keys e he
        exact heq ▸ hc f hf
      · obtain ⟨f, hf, heq⟩ := keys e he
        exact heq ▸ hkeys f hf
      · exact List.forall_mem_map.mp (mem ih (List.forall_mem_map.mpr h))
  | tableOrder es fs hperm =>
    rintro ⟨⟩
    next hs hc hkeys h =>
      have hmem : ∀ e ∈ es, e ∈ fs := fun e he => hperm.mem_iff.mp he
      obtain ⟨f, hf, hstr⟩ := hs
      exact .table es ⟨f, hperm.mem_iff.mpr hf, hstr⟩ (fun e he => hc e (hmem e he))
        (fun e he => hkeys e (hmem e he)) fun e he => h e (hmem e he)

theorem settled_of_forall₂ {vs ws : List Value} (h : List.Forall₂ Same vs ws)
    (hw : ∀ w ∈ ws, w.Settled) : ∀ v ∈ vs, v.Settled := by
  intro v hv
  obtain ⟨w, hmem, hvw⟩ := forall₂_mem_left _ _ _ h v hv
  exact settled_of_same hvw (hw w hmem)

theorem null_of_forall₂ {vs ws : List Value} (h : List.Forall₂ Same vs ws)
    (hw : ∀ w ∈ ws, Encode.isZero w = true → w = .null) :
    ∀ v ∈ vs, Encode.isZero v = true → v = .null := by
  intro v hv hz
  obtain ⟨w, hmem, hvw⟩ := forall₂_mem_left _ _ _ h v hv
  rcases same_scalar hvw with rfl | ⟨hcol, -⟩
  · exact hw v hmem hz
  · cases v with
    | list | map | table => cases hz
    | _ => cases hcol

end Value

theorem Attr.settled_of_same (a b : Attr) (ha : a.Proper) (hab : a.Same b) (hb : b.Settled) :
    a.Settled := by
  obtain ⟨huntyped, hon, hchoice, hextra⟩ := (b.forall_values _).mp hb.values
  have hcases : Decode.casesOf a.type = Decode.casesOf b.type := by
    have bare : ∀ c : Attr, Decode.casesOf c.bare.type = Decode.casesOf c.type := by
      intro c
      rw [Attr.bare]
      cases c.type with
      | none => rfl
      | some t => cases t <;> rfl
    rw [← bare a, hab.bare, bare b]
  have hints : a.integers = b.integers := (congrArg Attr.integers hab.bare :)
  have hmin : a.rangeMin = b.rangeMin := (congrArg Attr.rangeMin hab.bare :)
  have hmax : a.rangeMax = b.rangeMax := (congrArg Attr.rangeMax hab.bare :)
  refine ⟨(a.forall_values _).mpr ⟨?_, ?_, ?_, ?_⟩, ?_, hints ▸ hb.integers, hmin ▸ hb.rangeMin,
    hmax ▸ hb.rangeMax, hcases ▸ hb.cases, ha.further⟩
  · exact Value.settled_of_forall₂ hab.untyped huntyped
  · exact Value.settled_of_forall₂ hab.switchOn hon
  · exact Value.settled_of_forall₂ hab.choice hchoice
  · cases Value.settled_of_same hab.extra (.map _ hb.further.1 hextra) with
    | map _ _ h => exact h
  · exact Value.null_of_forall₂ hab.untyped hb.untyped

theorem Meta.settled_of_same (m n : Meta) (h : m.Same n) (hn : n.Settled) : m.Settled :=
  ⟨Value.settled_of_forall₂ h.untyped hn.values, Value.null_of_forall₂ h.untyped hn.untyped⟩

theorem SchemaBody.settled_of_same (b c : SchemaBody) (hb : b.Proper) (h : b.Same c)
    (hc : c.Settled) : b.Settled where
  head := b.head.settled_of_same c.head h.head hc.head
  order := Value.settled_of_forall₂ h.order hc.order
  attrs := by
    obtain ⟨hseq, hinst⟩ := List.forall_mem_append.mp hc.attrs
    obtain ⟨hpseq, hpinst⟩ := List.forall_mem_append.mp hb.attrs
    refine List.forall_mem_append.mpr ⟨fun a ha => ?_, List.forall_mem_map.mpr fun e he => ?_⟩
    · obtain ⟨a', ha', hsame⟩ := forall₂_mem_left _ _ _ h.seq a ha
      exact a.settled_of_same a' (hpseq a ha) hsame (hseq a' ha')
    · obtain ⟨f, hf, -, hsame⟩ := forall₂_mem_left _ _ _ h.instances e he
      exact e.2.settled_of_same f.2 (List.forall_mem_map.mp hpinst e he) hsame
        (List.forall_mem_map.mp hinst f hf)
  instances := by
    have hkeys : Keyed.keys b.instances = Keyed.keys c.instances :=
      map_eq_of_forall₂ Prod.fst Prod.fst h.instances fun _ _ he => he.1
    exact hkeys ▸ hc.instances
  enums := h.enums ▸ hc.enums
  entries := h.enums ▸ hc.entries

namespace Value

mutual

/-- Is the text of a value, and of every part of it, read as one of its kind? A mapping whose keys
may be of any kind has one that is no string. -/
def keepsKind : Value → Bool
  | .float x => match Yaml.plainValue (Encode.floatText x) with
    | .float y => x = y
    | _ => false
  | .time t => t.inRange
  | .list xs => keepKinds xs
  | .map es => entriesKeepKinds es
  | .table es => es.any (fun e => !e.1.isStr) && pairsKeepKinds es
  | _ => true

def keepKinds : List Value → Bool
  | [] => true
  | x :: xs => x.keepsKind && keepKinds xs

def entriesKeepKinds : List (String × Value) → Bool
  | [] => true
  | (_, v) :: es => v.keepsKind && entriesKeepKinds es

def pairsKeepKinds : List (Value × Value) → Bool
  | [] => true
  | (k, v) :: es => k.keepsKind && v.keepsKind && pairsKeepKinds es

end

theorem keepKinds_iff (xs : List Value) : keepKinds xs = true ↔ ∀ x ∈ xs, x.keepsKind = true := by
  induction xs with
  | nil => simp [keepKinds]
  | cons x xs ih => simp [keepKinds, ih]

theorem entriesKeepKinds_iff (es : List (String × Value)) :
    entriesKeepKinds es = true ↔ ∀ e ∈ es, e.2.keepsKind = true := by
  induction es with
  | nil => simp [entriesKeepKinds]
  | cons e es ih => simp [entriesKeepKinds, ih]

theorem pairsKeepKinds_iff (es : List (Value × Value)) : pairsKeepKinds es = true ↔
    (∀ e ∈ es, e.1.keepsKind = true) ∧ ∀ e ∈ es, e.2.keepsKind = true := by
  induction es with
  | nil => simp [pairsKeepKinds]
  | cons e es ih =>
    simp only [pairsKeepKinds, Bool.and_eq_true, ih, List.forall_mem_cons]
    exact and_and_and_comm

theorem Settled.keepsKind (v : Value) (h : v.Settled) : v.keepsKind = true := by
  induction h with
  | float x h => simp [Value.keepsKind, h]
  | time t _ hr => exact hr
  | list xs _ ih => exact (keepKinds_iff xs).mpr ih
  | map es _ _ ih => exact (entriesKeepKinds_iff es).mpr ih
  | table es hs _ _ _ ihk ih =>
    rw [Value.keepsKind, Bool.and_eq_true, pairsKeepKinds_iff, List.any_eq_true]
    obtain ⟨e, he, hstr⟩ := hs
    exact ⟨⟨e, he, by simp [hstr]⟩, ihk, ih⟩
  | _ => rfl

theorem settled_of_keepsKind (v : Value) (h : v.Formed) (hv : v.keepsKind = true) : v.Settled := by
  induction h with
  | null => exact .null
  | int v h => exact .int v h
  | float x =>
    rw [keepsKind] at hv
    split at hv
    next y hy =>
      obtain rfl := of_decide_eq_true hv
      exact .float x hy
    next => cases hv
  | bool b => exact .bool b
  | str s => exact .str s
  | time t h => exact .time t h hv
  | list xs _ ih =>
    have hv := (keepKinds_iff xs).mp hv
    exact .list xs fun x hx => ih x hx (hv x hx)
  | map es hn _ ih =>
    have hv := (entriesKeepKinds_iff es).mp hv
    exact .map es hn fun e he => ih e he (hv e he)
  | table es hc _ _ ihk ih =>
    rw [keepsKind, Bool.and_eq_true, pairsKeepKinds_iff, List.any_eq_true] at hv
    obtain ⟨⟨e, he, hstr⟩, hkeys, hvalues⟩ := hv
    exact .table es ⟨e, he, by simpa using hstr⟩ hc (fun e he => ihk e he (hkeys e he))
      fun e he => ih e he (hvalues e he)

/-- Is a value read back as it is from the text it is written as? -/
def isExact (v : Value) : Bool := v.keepsKind && (Encode.value v).isClear

theorem isExact_iff (v : Value) (h : v.Formed) :
    v.isExact = true ↔ v.Settled ∧ (Encode.value v).isClear = true := by
  rw [isExact, Bool.and_eq_true]
  exact and_congr_left fun _ => ⟨v.settled_of_keepsKind h, fun hs => hs.keepsKind⟩

def isNullOrWritten (v : Value) : Bool := v.isNull || !Encode.isZero v

theorem isNullOrWritten_iff (v : Value) :
    v.isNullOrWritten = true ↔ (Encode.isZero v = true → v = .null) := by
  cases v <;> simp [isNullOrWritten, isNull, Encode.isZero]

theorem all_isExact (vs : List Value) (h : ∀ v ∈ vs, v.Formed) : vs.all isExact = true ↔
    (∀ v ∈ vs, v.Settled) ∧ ∀ v ∈ vs, (Encode.value v).isClear = true := by
  rw [List.all_eq_true]
  refine ⟨fun hall => ⟨fun v hv => ?_, fun v hv => ?_⟩, fun hall v hv => ?_⟩
  · exact ((v.isExact_iff (h v hv)).mp (hall v hv)).1
  · exact ((v.isExact_iff (h v hv)).mp (hall v hv)).2
  · exact (v.isExact_iff (h v hv)).mpr ⟨hall.1 v hv, hall.2 v hv⟩

theorem all_isNullOrWritten (vs : List Value) : vs.all isNullOrWritten = true ↔
    ∀ v ∈ vs, Encode.isZero v = true → v = .null := by
  rw [List.all_eq_true]
  exact forall₂_congr fun v _ => v.isNullOrWritten_iff

end Value

def Number.isExact (n : Number) : Bool := Number.ofText? n.text = some n

namespace Attr

def isExact (a : Attr) : Bool :=
  a.values.all Value.isExact && a.untyped.all Value.isNullOrWritten
    && a.rangeMin.all Number.isExact && a.rangeMax.all Number.isExact

theorem isExact_iff (a : Attr) (h : a.Formed) : a.isExact = true ↔
    a.Settled ∧ ∀ v ∈ a.values, (Encode.value v).isClear = true := by
  have number : ∀ n : Option Number, n.all Number.isExact = true ↔ ∀ x ∈ n, x.Settled := by
    intro n
    cases n <;> simp [Number.isExact, Number.Settled]
  simp only [isExact, Bool.and_eq_true, Value.all_isExact a.values h.values,
    Value.all_isNullOrWritten, number]
  constructor
  · rintro ⟨⟨⟨⟨hvalues, hclear⟩, huntyped⟩, hmin⟩, hmax⟩
    exact ⟨⟨hvalues, huntyped, h.integers, hmin, hmax, h.cases, h.further⟩, hclear⟩
  · rintro ⟨hs, hclear⟩
    exact ⟨⟨⟨⟨hs.values, hclear⟩, hs.untyped⟩, hs.rangeMin⟩, hs.rangeMax⟩

end Attr

def EnumEntry.unlined (e : EnumEntry) : EnumEntry := { e with line := 0 }

theorem EnumEntry.encode_unlined (es : List EnumEntry) :
    Encode.enumEntries (es.map EnumEntry.unlined) = Encode.enumEntries es := by
  rw [Encode.enumEntries, List.mapM_map]
  rfl

namespace SchemaBody

def unlined (b : SchemaBody) : SchemaBody :=
  { b with enums := b.enums.map fun e => (e.1, e.2.map EnumEntry.unlined) }

/-- Are all attributes and untyped values of a schema read back as they are? -/
def isExact (b : SchemaBody) : Bool :=
  b.values.all Value.isExact && b.head.untyped.all Value.isNullOrWritten && b.attrs.all Attr.isExact

theorem isExact_iff (b : SchemaBody) (h : b.Formed) :
    b.isExact = true ↔ b.unlined.Settled ∧ b.Clear := by
  have hattrs : b.attrs.all Attr.isExact = true ↔ (∀ a ∈ b.attrs, a.Settled) ∧
      ∀ a ∈ b.attrs, ∀ v ∈ a.values, (Encode.value v).isClear = true := by
    rw [List.all_eq_true, ← forall₂_and]
    exact forall₂_congr fun a ha => a.isExact_iff (h.attrs a ha)
  simp only [isExact, Bool.and_eq_true, Value.all_isExact b.values h.values,
    Value.all_isNullOrWritten, hattrs]
  constructor
  · rintro ⟨⟨⟨hvalues, hclear⟩, huntyped⟩, hsettled, hattrs⟩
    obtain ⟨hhead, horder⟩ := List.forall_mem_append.mp hvalues
    refine ⟨⟨⟨hhead, huntyped⟩, horder, hsettled, h.instances, ?_, ?_⟩, ⟨hclear, hattrs⟩⟩
    · rw [unlined, Keyed.keys_map]
      exact h.enums
    · refine List.forall_mem_map.mpr fun e he => List.forall_mem_map.mpr fun x hx => ?_
      have hx := h.entries e he x hx
      exact ⟨hx.value, hx.form, rfl⟩
  · rintro ⟨hs, hc⟩
    exact ⟨⟨⟨List.forall_mem_append.mpr ⟨hs.head.values, hs.order⟩, hc.values⟩, hs.head.untyped⟩,
      hs.attrs, hc.attrs⟩

theorem encode_unlined (b : SchemaBody) :
    (b.unlined.enums.mapM fun e => do return (e.1, ← Encode.enumEntries e.2) :
      Encode.Written (Keyed Node))
      = b.enums.mapM fun e => do return (e.1, ← Encode.enumEntries e.2) := by
  rw [unlined, List.mapM_map]
  refine congrArg (fun f => List.mapM f b.enums) (funext fun e => ?_)
  change (do return (e.1, ← Encode.enumEntries (e.2.map EnumEntry.unlined)) : Encode.Written _) = _
  rw [EnumEntry.encode_unlined]

theorem kept_unlined (b : SchemaBody) (h : b.Kept) : b.unlined.Kept := by
  refine ⟨h.clear, h.attrs, h.instances, List.forall_mem_map.mpr fun e he => ?_,
    List.forall_mem_map.mpr fun e he => ?_⟩
  · exact List.forall_mem_map.mpr (h.entries e he)
  · change ∀ n, Encode.enumEntries (e.2.map EnumEntry.unlined) = .ok n → _
    rw [EnumEntry.encode_unlined]
    exact h.enums e he

end SchemaBody

namespace Schema

mutual

def unlined : Schema → Schema
  | .mk b ts => .mk b.unlined (unlinedTypes ts)

def unlinedTypes : List (String × Schema) → List (String × Schema)
  | [] => []
  | (name, s) :: ts => (name, s.unlined) :: unlinedTypes ts

end

mutual

def isExact : Schema → Bool
  | .mk b ts => b.isExact && areExact ts

def areExact : List (String × Schema) → Bool
  | [] => true
  | (_, s) :: ts => s.isExact && areExact ts

end

theorem unlinedTypes_eq (ts : List (String × Schema)) :
    unlinedTypes ts = ts.map fun e => (e.1, e.2.unlined) := by
  induction ts with
  | nil => rfl
  | cons e ts ih => rw [unlinedTypes, ih]; rfl

theorem areExact_iff (ts : List (String × Schema)) :
    areExact ts = true ↔ ∀ e ∈ ts, e.2.isExact = true := by
  induction ts with
  | nil => simp [areExact]
  | cons e ts ih => simp [areExact, ih]

mutual

theorem encode_unlined : (s : Schema) → Encode.schema s.unlined = Encode.schema s
  | .mk b ts => by
    rw [unlined, Encode.schema, Encode.schema, encode_unlinedTypes ts, b.encode_unlined]
    rfl

theorem encode_unlinedTypes : (ts : List (String × Schema)) →
    Encode.schemas (unlinedTypes ts) = Encode.schemas ts
  | [] => rfl
  | (name, s) :: ts => by
    rw [unlinedTypes, Encode.schemas, Encode.schemas, encode_unlined s, encode_unlinedTypes ts]

end

theorem copy_unlined (s : Schema) : s.unlined.copy = s.copy := by
  rw [copy, copy, Encode.copied, Encode.copied, encode_unlined]

theorem kept_unlined (s : Schema) (h : s.Kept) : s.unlined.Kept := by
  induction h with
  | mk b ts hb _ hn ih =>
    have henc := encode_unlined (.mk b ts)
    rw [unlined, unlinedTypes_eq] at henc ⊢
    refine .mk _ _ (b.kept_unlined hb) (List.forall_mem_map.mpr ih) fun n h => hn n (henc ▸ h)

theorem isExact_iff (s : Schema) (h : s.Formed) :
    s.isExact = true ↔ s.unlined.Settled ∧ s.All SchemaBody.Clear := by
  induction h with
  | mk b ts hb hn _ ih =>
    rw [isExact, Bool.and_eq_true, b.isExact_iff hb, areExact_iff, unlined, unlinedTypes_eq]
    constructor
    · rintro ⟨⟨hs, hc⟩, hts⟩
      have hts := fun e he => (ih e he).mp (hts e he)
      refine ⟨.mk _ _ hs (Keyed.keys_map unlined ts ▸ hn) ?_, .mk b ts hc fun e he => (hts e he).2⟩
      exact List.forall_mem_map.mpr fun e he => (hts e he).1
    · rintro ⟨⟨_, _, hs, -, hus⟩, ⟨_, _, hc, hcs⟩⟩
      exact ⟨⟨hs, hc⟩, fun e he => (ih e he).mpr ⟨List.forall_mem_map.mp hus e he, hcs e he⟩⟩

mutual

theorem rel_unlined : (s : Schema) → Rel (fun b c => c = b.unlined) s s.unlined
  | .mk b ts => .mk b b.unlined ts _ rfl (rels_unlined ts)

theorem rels_unlined : (ts : List (String × Schema)) →
    Rels (fun b c => c = b.unlined) ts (unlinedTypes ts)
  | [] => .nil
  | (name, s) :: ts => .cons name s s.unlined ts _ (rel_unlined s) (rels_unlined ts)

end

end Schema

namespace SchemaBody

/-- Two schemas that are equal but for the lines of their enum entries and the order of their untyped
mappings. -/
def Faithful (b c : SchemaBody) : Prop := b.unlined.Same c.unlined

theorem unlined_unlined (b : SchemaBody) : b.unlined.unlined = b.unlined := by
  simp [unlined, EnumEntry.unlined, Function.comp_def]

theorem faithful_arranged (b : SchemaBody) : b.Faithful b.unlined.arranged := by
  change b.unlined.Same b.unlined.unlined.arranged
  rw [unlined_unlined]
  exact b.unlined.same_arranged

theorem settled_unlined (b : SchemaBody) (h : b.Settled) : b.unlined.Settled where
  head := h.head
  order := h.order
  attrs := h.attrs
  instances := h.instances
  enums := by
    rw [unlined, Keyed.keys_map]
    exact h.enums
  entries := List.forall_mem_map.mpr fun e he => List.forall_mem_map.mpr fun x hx =>
    have hx := h.entries e he x hx
    ⟨hx.value, hx.form, rfl⟩

end SchemaBody

theorem Schema.settled_of_faithful (s t : Schema) (hp : s.All SchemaBody.Proper)
    (h : Rel SchemaBody.Faithful s t) (ht : t.Settled) : s.unlined.Settled := by
  induction hp generalizing t with
  | mk b ts hb _ ih =>
    obtain ⟨_, c, _, us, hbc, hts⟩ := h
    obtain ⟨_, _, hc, hn, hus⟩ := ht
    rw [unlined, unlinedTypes_eq]
    refine .mk _ _ ?_ ?_ (List.forall_mem_map.mpr fun e he => ?_)
    · exact b.unlined.settled_of_same c.unlined ⟨hb.values, hb.attrs⟩ hbc (c.settled_unlined hc)
    · rw [Keyed.keys_map, ← hts.keys]
      exact hn
    · obtain ⟨u, hmem, hu⟩ := hts.mem_left e he
      exact ih e he u hu (hus (e.1, u) hmem)

theorem SchemaFile.copy_unlined (f : SchemaFile) :
    ({ f with schema := f.schema.unlined } : SchemaFile).copy = f.copy := by
  rw [SchemaFile.copy, SchemaFile.copy, Schema.copy_unlined]

namespace SchemaSet

/-- Sets of schemas that are equal but for the lines of enum entries and the order of untyped
mappings: the same files and ids, and in them the same types, attributes, values, bounds and enums. -/
def Faithful : SchemaSet → SchemaSet → Prop := Rel (Schema.Rel SchemaBody.Faithful)

def isExact (set : SchemaSet) : Bool := set.schemas.all Schema.isExact

def unlined (set : SchemaSet) : SchemaSet :=
  ⟨{ set.main with schema := set.main.schema.unlined },
    set.imported.map fun e => (e.1, { e.2 with schema := e.2.schema.unlined })⟩

theorem schemas_unlined (set : SchemaSet) :
    set.unlined.schemas = set.schemas.map Schema.unlined := by
  simp [schemas, unlined, Function.comp_def]

theorem copy_unlined (set : SchemaSet) : set.unlined.copy = set.copy := by
  rw [copy, copy, unlined, SchemaFile.copy_unlined, List.mapM_map]
  refine bind_congr fun main => ?_
  refine congrArg (fun f => List.mapM f set.imported >>= _) (funext fun e => ?_)
  change (do return (e.1, ← ({ e.2 with schema := e.2.schema.unlined } : SchemaFile).copy)
    : Except Decode.Error _) = _
  rw [SchemaFile.copy_unlined]

theorem faithful_arranged (set : SchemaSet) : set.Faithful set.unlined.arranged := by
  have hunlined : Rel (Schema.Rel fun b c => c = b.unlined) set set.unlined :=
    ⟨rfl, Schema.rel_unlined _, forall₂_map _ _ fun _ _ => ⟨rfl, rfl, Schema.rel_unlined _⟩⟩
  have comp : ∀ s t u, Schema.Rel (fun b c => c = b.unlined) s t →
      Schema.Rel (fun b c => c = b.arranged) t u → Schema.Rel SchemaBody.Faithful s u := by
    refine fun s t u => Schema.Rel.comp ?_
    rintro b _ _ rfl rfl
    exact b.faithful_arranged
  exact Rel.comp comp hunlined set.unlined.rel_arranged

theorem isExact_iff (set : SchemaSet) (hf : set.Formed) : set.isExact = true ↔
    set.unlined.Settled ∧ ∀ s ∈ set.schemas, s.All SchemaBody.Clear := by
  have hsettled : set.unlined.Settled ↔ ∀ s ∈ set.schemas, s.unlined.Settled := by
    rw [Settled, schemas_unlined, List.forall_mem_map]
  rw [isExact, List.all_eq_true, hsettled, ← forall₂_and]
  exact forall₂_congr fun s hs => s.isExact_iff (hf s hs)

theorem clear_of_copy (set c : SchemaSet) (hp : set.Proper) (hk : set.Carried)
    (h : set.copy = .ok c) : ∀ s ∈ set.schemas, s.All SchemaBody.Clear := by
  have clear : ∀ f g : SchemaFile, f.schema ∈ set.schemas → f.copy = .ok g →
      f.schema.All SchemaBody.Clear := fun f g hf hg =>
    f.schema.clear_of_copy g.schema (hp _ hf) (hk _ hf) (SchemaFile.copy_eq_ok f g hg)
  obtain ⟨main, hmain, h⟩ := (bind_eq_ok _ _ _).mp h
  obtain ⟨imported, himported, -⟩ := (bind_eq_ok _ _ _).mp h
  refine List.forall_mem_cons.mpr ⟨clear _ main (by simp [schemas]) hmain, ?_⟩
  refine List.forall_mem_map.mpr fun e he => ?_
  obtain ⟨f, -, hf⟩ := forall₂_mem_left _ _ _ (mapM_eq_ok _ _ _ himported) e he
  obtain ⟨g, hg, -⟩ := (bind_eq_ok _ _ _).mp hf
  exact clear e.2 g (List.mem_cons_of_mem _ (List.mem_map_of_mem he)) hg

theorem settled_of_faithful (set c : SchemaSet) (hp : set.Proper) (h : set.Faithful c)
    (hc : c.Settled) : set.unlined.Settled := by
  rw [Settled, schemas_unlined, List.forall_mem_map]
  intro s hs
  obtain ⟨t, ht, hst⟩ := h.mem_left s hs
  exact s.settled_of_faithful t (hp s hs) hst (hc t ht)

theorem kept_unlined (set : SchemaSet) (h : set.Kept) : set.unlined.Kept := by
  rw [Kept, schemas_unlined, List.forall_mem_map]
  exact fun s hs => s.kept_unlined (h s hs)

/-- The kinds of what stands under the untyped keys of the named values of the main schema. -/
def instanceKinds (set : SchemaSet) : List (List Nat) :=
  set.main.schema.body.instances.map fun e => e.2.untyped.map Encode.kindRank

theorem Faithful.instanceKinds (set c : SchemaSet) (h : set.Faithful c) :
    set.instanceKinds = c.instanceKinds := by
  have body : ∀ s t : Schema, Schema.Rel SchemaBody.Faithful s t → s.body.Faithful t.body := by
    rintro _ _ ⟨⟩
    assumption
  refine map_eq_of_forall₂ _ _ (body _ _ h.main).instances fun e f he => ?_
  exact map_eq_of_forall₂ _ _ he.2.untyped fun v w hvw => Value.kindRank_of_same hvw

/-- A parsed set of schemas has a faithful copy if and only if it is exact, where the text written
for a node is read as what the node says; that much, `Carried`, is the part of the language of the
text. -/
theorem copy_faithful_iff (set : SchemaSet) (hp : set.Parsed) (hk : set.Carried) :
    (∃ c, set.copy = .ok c ∧ set.Faithful c) ↔ set.isExact = true := by
  have hf := hp.formed
  have kept : (∀ s ∈ set.schemas, s.All SchemaBody.Clear) → set.Kept := fun hclear s hs =>
    (hk s hs).kept s (hclear s hs)
  rw [set.isExact_iff hf]
  constructor
  · rintro ⟨c, hc, hfaithful⟩
    have hclear := set.clear_of_copy c hf.proper hk hc
    have hsettled := set.settled_copy c hf.proper (kept hclear) hc
    exact ⟨set.settled_of_faithful c hf.proper hfaithful hsettled, hclear⟩
  · rintro ⟨hsettled, hclear⟩
    refine ⟨set.unlined.arranged, ?_, set.faithful_arranged⟩
    rw [← copy_unlined, set.unlined.copy_settled hsettled (set.kept_unlined (kept hclear))]

theorem carried_of_isSteady (set : SchemaSet) (h : set.isSteady = true) : set.Carried :=
  fun s hs => (set.kept_of_isSteady h s hs).carried

def fractions : String :=
  "meta:\n  id: a\ninstances:\n  i:\n    value: 2.5\n    -fz-range-max: 1.5\nenums:\n  e:\n    1: one\n"

theorem copy_faithful_iff_fractions : ∃ set, ofText "a.ksy" fractions = .ok set ∧ set.Carried ∧
    set.isExact = true ∧ ∃ c, set.copy = .ok c ∧ set.Faithful c := by
  obtain ⟨set, hset, hfacts⟩ := exists_ok_of_toOption_map (ofText "a.ksy" fractions)
    (fun set => (set.isSteady, set.isExact)) (true, true) (by decide +kernel)
  obtain ⟨hsteady, hexact⟩ := Prod.mk.inj hfacts
  have hk := set.carried_of_isSteady hsteady
  exact ⟨set, hset, hk, hexact, (copy_faithful_iff set (.inl ⟨_, _, hset⟩) hk).mpr hexact⟩

def wholeFloat : String := "meta:\n  id: a\ninstances:\n  i:\n    value: 2.0\n"

def noNumber : String :=
  "meta:\n  id: a\nseq:\n  - id: x\n    type: f4\n    -fz-range-max: nan\n"

/-- A float without a fraction comes back as an integer, and a bound that is no number does not come
back at all. -/
theorem copy_unfaithful :
    (∃ set c, ofText "a.ksy" wholeFloat = .ok set ∧ set.Carried ∧ set.copy = .ok c ∧
      ¬ set.Faithful c) ∧
    ∃ set e, ofText "a.ksy" noNumber = .ok set ∧ set.Carried ∧ set.copy = .error e := by
  constructor
  · obtain ⟨set, hset, hfacts⟩ := exists_ok_of_toOption_map (ofText "a.ksy" wholeFloat)
      (fun set => (set.isSteady, set.copy.toOption.map fun c =>
        set.instanceKinds == c.instanceKinds)) (true, some false) (by decide +kernel)
    obtain ⟨hsteady, hcopy⟩ := Prod.mk.inj hfacts
    obtain ⟨c, hc, hkinds⟩ := exists_ok_of_toOption_map set.copy
      (fun c => set.instanceKinds == c.instanceKinds) false hcopy
    exact ⟨set, c, hset, set.carried_of_isSteady hsteady, hc, fun h =>
      beq_eq_false_iff_ne.mp hkinds h.instanceKinds⟩
  · obtain ⟨set, hset, hfacts⟩ := exists_ok_of_toOption_map (ofText "a.ksy" noNumber)
      (fun set => (set.isSteady, set.copy.toOption.isSome)) (true, false) (by decide +kernel)
    obtain ⟨hsteady, hcopy⟩ := Prod.mk.inj hfacts
    cases hc : set.copy with
    | ok c =>
      rw [hc] at hcopy
      cases hcopy
    | error e => exact ⟨set, e, hset, set.carried_of_isSteady hsteady, hc⟩

end SchemaSet

end FormatFuzz
