import FormatFuzz.Proofs.Keyed
import FormatFuzz.Proofs.Schema.Decoding
import FormatFuzz.Proofs.Yaml.Scalar
import Mathlib.Data.List.Perm.Basic

/-!
# Copies of untyped values

Writing an untyped value as a node and decoding the node gives a settled value, and a settled value
comes back as it is but for the order of its mappings, which is that of their writing. What makes
the first copy of a value differ from it is then gone: floats spelled as integers, timestamps that
no text denotes, mappings with nothing but strings for keys.
-/

set_option autoImplicit false

namespace FormatFuzz

open Yaml (Node)

namespace Encode

theorem insertEntry_perm {α : Type} (less : α → α → Bool) (e : α) (es : List α) :
    (insertEntry less e es).Perm (e :: es) := by
  induction es with
  | nil => exact List.Perm.refl _
  | cons q qs ih =>
    rw [insertEntry]
    split
    · exact List.Perm.refl _
    · exact (List.Perm.cons q ih).trans (List.Perm.swap e q qs)

theorem sortEntries_perm {α : Type} (less : α → α → Bool) (es : List α) :
    (sortEntries less es).Perm es := by
  have run : ∀ (es acc : List α),
      (es.foldl (fun acc e => insertEntry less e acc) acc).Perm (acc ++ es) := by
    intro es
    induction es with
    | nil => intro acc; simp
    | cons e es ih =>
      intro acc
      refine (ih _).trans ?_
      refine ((insertEntry_perm less e acc).append_right es).trans ?_
      exact List.perm_middle.symm
  exact run es []

theorem insertEntry_map {α β : Type} (less : α → α → Bool) (less' : β → β → Bool) (f : α → β)
    (h : ∀ a b, less' (f a) (f b) = less a b) (e : α) (es : List α) :
    insertEntry less' (f e) (es.map f) = (insertEntry less e es).map f := by
  induction es with
  | nil => rfl
  | cons q qs ih =>
    rw [List.map_cons, insertEntry, insertEntry, h, ih]
    split <;> rfl

theorem sortEntries_map {α β : Type} (less : α → α → Bool) (less' : β → β → Bool) (f : α → β)
    (h : ∀ a b, less' (f a) (f b) = less a b) (es : List α) :
    sortEntries less' (es.map f) = (sortEntries less es).map f := by
  have run : ∀ (es acc : List α),
      (es.map f).foldl (fun acc e => insertEntry less' e acc) (acc.map f)
        = (es.foldl (fun acc e => insertEntry less e acc) acc).map f := by
    intro es
    induction es with
    | nil => intro acc; rfl
    | cons e es ih =>
      intro acc
      rw [List.map_cons, List.foldl_cons, List.foldl_cons, insertEntry_map less less' f h, ih]
  exact run es []

def byKey {α : Type} (es : Keyed α) : Keyed α :=
  sortEntries (fun a b => keyLess [] a.1.toList b.1.toList) es

def byValueKey {α : Type} (es : List (Value × α)) : List (Value × α) :=
  sortEntries (fun a b => valueKeyLess a.1 b.1) es

theorem byKey_map {α β : Type} (f : α → β) (es : Keyed α) :
    byKey (es.map fun e => (e.1, f e.2)) = (byKey es).map fun e => (e.1, f e.2) :=
  sortEntries_map _ _ (fun e : String × α => (e.1, f e.2)) (fun _ _ => rfl) es

theorem byValueKey_map {α β : Type} (f : α → β) (es : List (Value × α)) :
    byValueKey (es.map fun e => (e.1, f e.2)) = (byValueKey es).map fun e => (e.1, f e.2) :=
  sortEntries_map _ _ (fun e : Value × α => (e.1, f e.2)) (fun _ _ => rfl) es

theorem byKey_perm {α : Type} (es : Keyed α) : (byKey es).Perm es := sortEntries_perm _ es

theorem byValueKey_perm {α : Type} (es : List (Value × α)) : (byValueKey es).Perm es :=
  sortEntries_perm _ es

theorem mapEntries_eq (es : Keyed Value) : mapEntries es = es.map fun e => (e.1, value e.2) := by
  induction es with
  | nil => rfl
  | cons e es ih => rw [mapEntries, ih]; rfl

theorem tableEntries_eq (es : List (Value × Value)) :
    tableEntries es = es.map fun e => (e.1, (value e.1, value e.2)) := by
  induction es with
  | nil => rfl
  | cons e es ih => rw [tableEntries, ih]; rfl

theorem values_eq (xs : List Value) : values xs = xs.map value := by
  induction xs with
  | nil => rfl
  | cons x xs ih => rw [values, ih]; rfl

theorem value_map (es : Keyed Value) :
    value (.map es) = .map 0 (keyEntries ((byKey es).map fun e => (e.1, value e.2))) := by
  rw [value, mapEntries_eq]
  congr 1
  exact congrArg _ (byKey_map value es)

theorem value_table (es : List (Value × Value)) :
    value (.table es) = .map 0 ((byValueKey es).map fun e => (value e.1, value e.2)) := by
  rw [value, tableEntries_eq, sortEntries_map (fun a b => valueKeyLess a.1 b.1) _
    (fun e : Value × Value => (e.1, (value e.1, value e.2))) (fun _ _ => rfl), List.map_map]
  rfl

theorem isMerge_value (v : Value) : (value v).isMerge = false := by
  cases v with
  | str s => exact isMerge_string s
  | _ => rfl

end Encode

namespace Yaml.Node

mutual

def isClear : Node → Bool
  | .scalar .. => true
  | .seq _ xs => areClear xs
  | .map _ es => !hasClash es && haveClear es

def areClear : List Node → Bool
  | [] => true
  | x :: xs => isClear x && areClear xs

def haveClear : List (Node × Node) → Bool
  | [] => true
  | (k, v) :: es => isClear k && isClear v && haveClear es

end

theorem areClear_iff (xs : List Node) : areClear xs = true ↔ ∀ x ∈ xs, x.isClear = true := by
  induction xs with
  | nil => simp [areClear]
  | cons x xs ih => simp [areClear, ih]

theorem haveClear_iff (es : List (Node × Node)) :
    haveClear es = true ↔ ∀ e ∈ es, e.1.isClear = true ∧ e.2.isClear = true := by
  induction es with
  | nil => simp [haveClear]
  | cons e es ih => simp [haveClear, ih, and_assoc]

end Yaml.Node

namespace Value

/-- A value whose integers fit a word and whose timestamps are those of a clock and a calendar. -/
inductive Proper : Value → Prop
  | null : Proper .null
  | int (v : ℤ) (h : Yaml.IntRange v) : Proper (.int v)
  | float (x : Double) : Proper (.float x)
  | bool (b : Bool) : Proper (.bool b)
  | str (s : String) : Proper (.str s)
  | time (t : Timestamp) (h : t.Proper) : Proper (.time t)
  | list (xs : List Value) (h : ∀ x ∈ xs, Proper x) : Proper (.list xs)
  | map (es : List (String × Value)) (h : ∀ e ∈ es, Proper e.2) : Proper (.map es)
  | table (es : List (Value × Value)) (hk : ∀ e ∈ es, Proper e.1) (h : ∀ e ∈ es, Proper e.2) :
      Proper (.table es)

def isStr : Value → Bool
  | .str _ => true
  | _ => false

/-- A value that is read back from the node it is written as, up to the order of mappings. -/
inductive Settled : Value → Prop
  | null : Settled .null
  | int (v : ℤ) (h : Yaml.IntRange v) : Settled (.int v)
  | float (x : Double) (h : Yaml.plainValue (Encode.floatText x) = .float x) : Settled (.float x)
  | bool (b : Bool) : Settled (.bool b)
  | str (s : String) : Settled (.str s)
  | time (t : Timestamp) (h : t.Proper) (hr : t.inRange = true) : Settled (.time t)
  | list (xs : List Value) (h : ∀ x ∈ xs, Settled x) : Settled (.list xs)
  | map (es : List (String × Value)) (hk : (Keyed.keys es).Nodup) (h : ∀ e ∈ es, Settled e.2) :
      Settled (.map es)
  | table (es : List (Value × Value)) (hs : ∃ e ∈ es, e.1.isStr = false)
      (hc : ∀ e ∈ es, e.1.isCollection = false) (hk : ∀ e ∈ es, Settled e.1)
      (h : ∀ e ∈ es, Settled e.2) : Settled (.table es)

theorem isClear_list (xs : List Value) (h : (Encode.value (.list xs)).isClear = true) (x : Value)
    (hx : x ∈ xs) : (Encode.value x).isClear = true := by
  rw [Encode.value, Encode.values_eq, Node.isClear, Node.areClear_iff] at h
  exact h _ (List.mem_map_of_mem hx)

theorem isClear_map (es : Keyed Value) (h : (Encode.value (.map es)).isClear = true)
    (e : String × Value) (he : e ∈ es) : (Encode.value e.2).isClear = true := by
  rw [Encode.value_map, Node.isClear, Bool.and_eq_true, Node.haveClear_iff] at h
  refine (h.2 (Encode.string e.1, Encode.value e.2) ?_).2
  refine List.mem_map.mpr ⟨(e.1, Encode.value e.2), ?_, rfl⟩
  exact List.mem_map.mpr ⟨e, (Encode.byKey_perm es).mem_iff.mpr he, rfl⟩

theorem isClear_table (es : List (Value × Value))
    (h : (Encode.value (.table es)).isClear = true) :
    Node.hasClash ((Encode.byValueKey es).map fun e => (Encode.value e.1, Encode.value e.2)) = false ∧
    ∀ e ∈ es, (Encode.value e.1).isClear = true ∧ (Encode.value e.2).isClear = true := by
  rw [Encode.value_table, Node.isClear, Bool.and_eq_true, Node.haveClear_iff] at h
  refine ⟨by simpa using h.1, fun e he => ?_⟩
  exact h.2 _ (List.mem_map.mpr ⟨e, (Encode.byValueKey_perm es).mem_iff.mpr he, rfl⟩)

theorem settled_plainValue (x : Double) :
    Settled (Yaml.plainValue (Encode.floatText x)) := by
  rcases Yaml.plainValue_floatText x with ⟨v, hv, h⟩ | h | h
  · rw [h]
    exact .int v hv
  · rw [h]
    exact .float x h
  · rw [h]
    exact .float Double.nan Yaml.plainValue_nan

theorem settled_time (t : Timestamp) (ht : t.Proper) : Settled (Yaml.plainValue t.text) := by
  rw [Yaml.plainValue_time t ht]
  split
  next hr => exact .time t ht hr
  next => exact .str _

section

open Decoder Decode

theorem gives_scalar (k line : ℕ) (style : Yaml.Style) (t : String) (P : Value → Prop)
    (h : P (Node.scalarValue style t)) : Gives (valueWithin k (.scalar line style t)) P := by
  cases k with
  | zero => exact gives_throw _ _
  | succ k => exact gives_pure _ _ h

theorem gives_strings (k : ℕ) (es : List (Node × Node)) (hm : ∀ e ∈ es, e.1.isMerge = false)
    (hs : es.all (fun e => e.1.isString || e.1.isMerge) = true)
    (h : ∀ e ∈ es, Gives (valueWithin k e.2) Settled) :
    Gives (valueWithin (k + 1) (.map 0 es)) Settled := by
  rw [valueWithin, if_pos hs]
  refine gives_bind _ _ (Keyed.Each Settled) _ ?_ fun m hm => gives_pure _ _ (.map m hm.1 hm.2)
  refine gives_fields _ _ _ es hm _ (Keyed.each_nil _) fun e he m hmap => ?_
  refine gives_bind _ _ _ _ (gives_true _) fun name _ => ?_
  cases name with
  | none => exact gives_pure _ _ hmap
  | some key =>
    exact gives_bind _ _ Settled _ (h e he) fun v hv =>
      gives_pure _ _ (Keyed.each_set _ m key v hmap hv)

def Pairs (es : List (Value × Value)) : Prop :=
  ∀ e ∈ es, e.1.isCollection = false ∧ Settled e.1 ∧ Settled e.2

theorem forall_setKey (K V : Value → Prop) (key v : Value) (es : List (Value × Value))
    (hes : ∀ e ∈ es, K e.1 ∧ V e.2) (hk : K key) (hv : V v) :
    ∀ e ∈ setKey key v es, K e.1 ∧ V e.2 := by
  induction es with
  | nil => simpa [setKey] using ⟨hk, hv⟩
  | cons e es ih =>
    obtain ⟨he, hrest⟩ := List.forall_mem_cons.mp hes
    rw [setKey]
    split
    · exact List.forall_mem_cons.mpr ⟨⟨he.1, hv⟩, hrest⟩
    · exact List.forall_mem_cons.mpr ⟨he, ih hrest⟩

theorem pairs_setKey (key v : Value) (es : List (Value × Value)) (hes : Pairs es)
    (hc : key.isCollection = false) (hk : Settled key) (hv : Settled v) :
    Pairs (setKey key v es) := by
  have := forall_setKey (fun k => k.isCollection = false ∧ Settled k) Settled key v es
    (fun e he => and_assoc.mpr (hes e he)) ⟨hc, hk⟩ hv
  exact fun e he => and_assoc.mp (this e he)

theorem isStr_sameKey (a b : Value) (h : a.sameKey b = true) : a.isStr = b.isStr := by
  cases a <;> cases b <;> first | rfl | cases h

theorem exists_setKey (key v : Value) (es : List (Value × Value))
    (h : (∃ e ∈ es, e.1.isStr = false) ∨ key.isStr = false) :
    ∃ e ∈ setKey key v es, e.1.isStr = false := by
  induction es with
  | nil =>
    rcases h with ⟨e, he, -⟩ | h
    · simp at he
    · exact ⟨(key, v), by simp [setKey], h⟩
  | cons x es ih =>
    rw [setKey]
    split
    next hs =>
      rcases h with ⟨e, he, hstr⟩ | h
      · rcases List.mem_cons.mp he with rfl | he
        · exact ⟨(e.1, v), by simp, hstr⟩
        · exact ⟨e, List.mem_cons_of_mem _ he, hstr⟩
      · exact ⟨(x.1, v), by simp, (isStr_sameKey _ _ hs).trans h⟩
    next =>
      rcases h with ⟨e, he, hstr⟩ | h
      · rcases List.mem_cons.mp he with rfl | he
        · exact ⟨e, by simp, hstr⟩
        · obtain ⟨y, hy, hy'⟩ := ih (.inl ⟨e, he, hstr⟩)
          exact ⟨y, List.mem_cons_of_mem _ hy, hy'⟩
      · obtain ⟨y, hy, hy'⟩ := ih (.inr h)
        exact ⟨y, List.mem_cons_of_mem _ hy, hy'⟩

theorem isString_plain (t : String) (h : (Yaml.plainValue t).isStr = true) :
    (Encode.plain t).isString = true := by
  simp only [Encode.plain, Node.isString]
  cases hv : Yaml.plainValue t <;> simp_all [isStr]

theorem gives_isCollection (k : ℕ) (n : Node) (hn : n.isScalar = false) :
    Gives (valueWithin k n) fun w => w.isCollection = true := by
  cases k with
  | zero => exact gives_throw _ _
  | succ k =>
    cases n with
    | scalar => simp [Node.isScalar] at hn
    | seq line xs =>
      rw [valueWithin]
      exact gives_bind _ _ _ _ (gives_true _) fun _ _ => gives_pure _ _ rfl
    | map line es =>
      rw [valueWithin]
      split
      · exact gives_bind _ _ _ _ (gives_true _) fun _ _ => gives_pure _ _ rfl
      · exact gives_bind _ _ _ _ (gives_true _) fun _ _ => gives_pure _ _ rfl

theorem gives_isStr (k : ℕ) (v : Value) :
    Gives (valueWithin k (Encode.value v))
      fun w => w.isStr = true → (Encode.value v).isString = true := by
  have collection : (Encode.value v).isScalar = false → Gives (valueWithin k (Encode.value v))
      fun w => w.isStr = true → (Encode.value v).isString = true := fun hn =>
    gives_mono _ _ _ (gives_isCollection k _ hn) fun w hw hs => by cases w <;> cases hw <;> cases hs
  cases v with
  | null => exact gives_scalar _ _ _ _ _ (isString_plain _)
  | int v => exact gives_scalar _ _ _ _ _ (isString_plain _)
  | float x => exact gives_scalar _ _ _ _ _ (isString_plain _)
  | bool b => exact gives_scalar _ _ _ _ _ (isString_plain _)
  | str s => exact gives_scalar _ _ _ _ _ fun _ => Encode.isString_string s
  | time t => exact gives_scalar _ _ _ _ _ (isString_plain _)
  | list xs => exact collection rfl
  | map es => exact collection rfl
  | table es => exact collection rfl

theorem gives_pairs (k : ℕ) (ns : List (Node × Node)) (hclash : Node.hasClash ns = false)
    (hm : ∀ n ∈ ns, n.1.isMerge = false)
    (hs : ¬ ns.all (fun e => e.1.isString || e.1.isMerge) = true)
    (hk : ∀ n ∈ ns, Gives (valueWithin k n.1) fun w =>
      Settled w ∧ (w.isStr = true → n.1.isString = true))
    (hv : ∀ n ∈ ns, Gives (valueWithin k n.2) Settled) :
    Gives (valueWithin (k + 1) (.map 0 ns)) Settled := by
  have hex : ∃ n ∈ ns, n.1.isString = false := by
    simp only [List.all_eq_true, not_forall] at hs
    obtain ⟨n, hn, h⟩ := hs
    exact ⟨n, hn, by simpa [hm n hn] using h⟩
  rw [valueWithin, if_neg hs, fields_eq _ _ _ _ hm hclash]
  refine gives_bind _ _ (fun es => Pairs es ∧
    ((∃ n ∈ ns, n.1.isString = false) → ∃ e ∈ es, e.1.isStr = false)) _ ?_ fun es hes => ?_
  · -- carried along: the entries so far, and whether one of their keys was no string
    refine gives_foldlM_run _ (fun done es => Pairs es ∧
      ((∃ n ∈ done, n.1.isString = false) → ∃ e ∈ es, e.1.isStr = false)) ns ?_ []
      ⟨by simp [Pairs], by simp⟩
    intro n hn done es hes
    refine gives_bind _ _ _ _ (hk n hn) fun key hkey => ?_
    split
    · exact gives_throw _ _
    next hcol =>
      refine gives_bind _ _ Settled _ (hv n hn) fun v hv => gives_pure _ _ ⟨?_, ?_⟩
      · exact pairs_setKey key v es hes.1 (by simpa using hcol) hkey.1 hv
      · rintro ⟨m, hm, hms⟩
        refine exists_setKey key v es ?_
        rcases List.mem_append.mp hm with hm | hm
        · exact .inl (hes.2 ⟨m, hm, hms⟩)
        · obtain rfl := List.mem_singleton.mp hm
          right
          rw [Bool.eq_false_iff]
          exact fun h => by simp [hkey.2 h] at hms
  · exact gives_pure _ _ (.table es (hes.2 hex) (fun e he => (hes.1 e he).1)
      (fun e he => (hes.1 e he).2.1) fun e he => (hes.1 e he).2.2)

theorem gives_value (v : Value) (h : v.Proper) (hc : (Encode.value v).isClear = true) (k : ℕ) :
    Gives (valueWithin k (Encode.value v)) Settled := by
  induction h generalizing k with
  | null => exact gives_scalar _ _ _ _ _ .null
  | int v hv =>
    refine gives_scalar _ _ _ _ _ ?_
    rw [Node.scalarValue, Yaml.plainValue_toString v hv]
    exact .int v hv
  | float x => exact gives_scalar _ _ _ _ _ (settled_plainValue x)
  | bool b => cases b <;> exact gives_scalar _ _ _ _ _ (.bool _)
  | str s => exact gives_scalar _ _ _ _ _ (Encode.scalarValue_string s ▸ .str s)
  | time t ht => exact gives_scalar _ _ _ _ _ (settled_time t ht)
  | list xs _ ih =>
    cases k with
    | zero => exact gives_throw _ _
    | succ k =>
      rw [Encode.value, Encode.values_eq, valueWithin]
      refine gives_bind _ _ (fun ys => ∀ y ∈ ys, Settled y) _ ?_ fun ys hys =>
        gives_pure _ _ (.list ys hys)
      refine gives_mapM _ _ _ fun n hn => ?_
      obtain ⟨x, hx, rfl⟩ := List.mem_map.mp hn
      exact ih x hx (isClear_list xs hc x hx) k
  | map es _ ih =>
    cases k with
    | zero => exact gives_throw _ _
    | succ k =>
      have hclear := isClear_map es hc
      rw [Encode.value_map]
      refine gives_strings k _ (Encode.isMerge_keyEntries _) ?_ fun n hn => ?_
      · simp [Encode.keyEntries]
      · obtain ⟨x, hx, rfl⟩ := List.mem_map.mp hn
        obtain ⟨e, he, rfl⟩ := List.mem_map.mp hx
        have he := (Encode.byKey_perm es).mem_iff.mp he
        exact ih e he (hclear e he) k
  | table es _ _ ihk ih =>
    cases k with
    | zero => exact gives_throw _ _
    | succ k =>
      obtain ⟨hclash, hclear⟩ := isClear_table es hc
      rw [Encode.value_table]
      generalize hns : (Encode.byValueKey es).map (fun e => (Encode.value e.1, Encode.value e.2)) = ns
        at hclash
      have hmem : ∀ n ∈ ns, ∃ e ∈ es, n = (Encode.value e.1, Encode.value e.2) := by
        intro n hn
        rw [← hns] at hn
        obtain ⟨e, he, rfl⟩ := List.mem_map.mp hn
        exact ⟨e, (Encode.byValueKey_perm es).mem_iff.mp he, rfl⟩
      have hm : ∀ n ∈ ns, n.1.isMerge = false := by
        intro n hn
        obtain ⟨e, -, rfl⟩ := hmem n hn
        exact Encode.isMerge_value e.1
      have hv : ∀ n ∈ ns, Gives (valueWithin k n.2) Settled := by
        intro n hn
        obtain ⟨e, he, rfl⟩ := hmem n hn
        exact ih e he (hclear e he).2 k
      by_cases hs : ns.all (fun e => e.1.isString || e.1.isMerge) = true
      · exact gives_strings k ns hm hs hv
      · refine gives_pairs k ns hclash hm hs (fun n hn => ?_) hv
        obtain ⟨e, he, rfl⟩ := hmem n hn
        intro b w b' hr
        exact ⟨ihk e he (hclear e he).1 k b w b' hr, gives_isStr k e.1 b w b' hr⟩

end

mutual

def arranged : Value → Value
  | .list xs => .list (arrangedItems xs)
  | .map es => .map (Encode.byKey (arrangedEntries es))
  | .table es => .table (Encode.byValueKey (arrangedPairs es))
  | v => v

def arrangedItems : List Value → List Value
  | [] => []
  | x :: xs => x.arranged :: arrangedItems xs

def arrangedEntries : List (String × Value) → List (String × Value)
  | [] => []
  | (k, v) :: es => (k, v.arranged) :: arrangedEntries es

def arrangedPairs : List (Value × Value) → List (Value × Value)
  | [] => []
  | (k, v) :: es => (k, v.arranged) :: arrangedPairs es

end

theorem arrangedItems_eq (xs : List Value) : arrangedItems xs = xs.map arranged := by
  induction xs with
  | nil => rfl
  | cons x xs ih => rw [arrangedItems, ih]; rfl

theorem arrangedEntries_eq (es : List (String × Value)) :
    arrangedEntries es = es.map fun e => (e.1, e.2.arranged) := by
  induction es with
  | nil => rfl
  | cons e es ih => rw [arrangedEntries, ih]; rfl

theorem arrangedPairs_eq (es : List (Value × Value)) :
    arrangedPairs es = es.map fun e => (e.1, e.2.arranged) := by
  induction es with
  | nil => rfl
  | cons e es ih => rw [arrangedPairs, ih]; rfl

theorem arranged_list (xs : List Value) : (Value.list xs).arranged = .list (xs.map arranged) := by
  rw [arranged, arrangedItems_eq]

theorem arranged_map (es : List (String × Value)) :
    (Value.map es).arranged = .map ((Encode.byKey es).map fun e => (e.1, e.2.arranged)) := by
  rw [arranged, arrangedEntries_eq, Encode.byKey_map]

theorem arranged_table (es : List (Value × Value)) :
    (Value.table es).arranged
      = .table ((Encode.byValueKey es).map fun e => (e.1, e.2.arranged)) := by
  rw [arranged, arrangedPairs_eq, Encode.byValueKey_map]

end Value

namespace Decoder

variable {α β γ : Type}

theorem mapM_pure (f : β → Decoder γ) (g : α → β) (h : α → γ) (xs : List α)
    (hf : ∀ x ∈ xs, f (g x) = pure (h x)) : (xs.map g).mapM f = pure (xs.map h) := by
  induction xs with
  | nil => rfl
  | cons x xs ih =>
    rw [List.map_cons, List.mapM_cons, hf x (by simp), ih fun y hy => hf y (List.mem_cons_of_mem x hy)]
    simp

theorem foldlM_pure (f : β → α → Decoder β) (g : β → α → β) (xs : List α)
    (h : ∀ x ∈ xs, ∀ b, f b x = pure (g b x)) (b : β) :
    xs.foldlM f b = pure (xs.foldl g b) := by
  induction xs generalizing b with
  | nil => rfl
  | cons x xs ih =>
    rw [List.foldlM_cons, h x (by simp), pure_bind, List.foldl_cons]
    exact ih (fun y hy => h y (List.mem_cons_of_mem x hy)) _

end Decoder

namespace Value

section

open Decode

theorem rank_eq (x y : Double) (h : x.rank = y.rank) : x = y ∨ x.rank = 0 := by
  have hx : x.bits.toNat < 2 ^ 64 := x.bits.toNat_lt
  have hy : y.bits.toNat < 2 ^ 64 := y.bits.toNat_lt
  by_cases h0 : x.rank = 0
  · exact .inr h0
  · left
    have hb : x.bits.toNat = y.bits.toNat := by
      unfold Double.rank Double.negative at h h0
      simp only [decide_eq_true_eq, Word.half] at h h0
      split at h <;> split at h <;> rename_i h1 h2 <;> simp only [h1, if_true, if_false] at h0 <;>
        omega
    cases x
    cases y
    simpa [← UInt64.toNat_inj] using hb

theorem not_settled_zero (x : Double) (h : x.rank = 0)
    (hx : Yaml.plainValue (Encode.floatText x) = .float x) : False := by
  have hlt : x.bits.toNat < 2 ^ 64 := x.bits.toNat_lt
  have hb : x = ⟨0⟩ ∨ x = ⟨UInt64.ofNat Word.half⟩ := by
    have : x.bits.toNat = 0 ∨ x.bits.toNat = Word.half := by
      unfold Double.rank Double.negative at h
      simp only [decide_eq_true_eq, Word.half] at h ⊢
      split at h <;> omega
    cases x
    rcases this with h | h
    · left
      simpa [← UInt64.toNat_inj] using h
    · right
      rw [Double.mk.injEq, ← UInt64.toNat_inj]
      exact h
  have hpos : Encode.floatText ⟨0⟩ = "0" := by decide +kernel
  have hneg : Encode.floatText ⟨UInt64.ofNat Word.half⟩ = "-0" := by decide +kernel
  rcases hb with rfl | rfl
  · rw [hpos] at hx
    cases hx
  · rw [hneg] at hx
    cases hx

theorem sameKey_self (n : Node) (h : n.isScalar = true) : n.sameKey n = true := by
  cases n with
  | scalar => simp [Node.sameKey]
  | seq => cases h
  | map => cases h

theorem sameKey_value (a b : Value) (ha : Settled a) (h : a.sameKey b = true) :
    (Encode.value b).sameKey (Encode.value a) = true := by
  have same : a = b → (Encode.value a).isScalar = true →
      (Encode.value b).sameKey (Encode.value a) = true := by
    rintro rfl hs
    exact sameKey_self _ hs
  cases ha with
  | null =>
    cases b with
    | null => exact same rfl rfl
    | _ => simp [sameKey] at h
  | int v =>
    cases b with
    | int w => exact same (by simpa [sameKey] using h) rfl
    | _ => simp [sameKey] at h
  | float x hx =>
    cases b with
    | float y =>
      simp only [sameKey, Bool.and_eq_true, beq_iff_eq] at h
      rcases rank_eq x y h.2 with rfl | h0
      · exact same rfl rfl
      · exact (not_settled_zero x h0 hx).elim
    | _ => simp [sameKey] at h
  | bool v =>
    cases b with
    | bool w => exact same (by simpa [sameKey] using h) rfl
    | _ => simp [sameKey] at h
  | str s =>
    cases b with
    | str t => exact same (by simpa [sameKey] using h) rfl
    | _ => simp [sameKey] at h
  | time t =>
    cases b with
    | time u => exact same (by simpa [sameKey] using h) rfl
    | _ => simp [sameKey] at h
  | list | map | table => simp [sameKey] at h

theorem isString_value (v : Value) (h : Settled v) (hs : v.isStr = false) :
    (Encode.value v).isString = false := by
  have plain : ∀ t : String, (Yaml.plainValue t).isStr = false →
      (Encode.plain t).isString = false := by
    intro t ht
    simp only [Encode.plain, Node.isString]
    cases hv : Yaml.plainValue t <;> simp_all [isStr]
  cases h with
  | null => rfl
  | int v hv => exact plain _ (by rw [Yaml.plainValue_toString v hv]; rfl)
  | float x hx => exact plain _ (by rw [hx]; rfl)
  | bool b => cases b <;> rfl
  | str s => cases hs
  | time t ht hr => exact plain _ (by rw [Yaml.plainValue_time t ht, if_pos hr]; rfl)
  | list | map | table => rfl

theorem pairwise_of_hasClash (es : List (Node × Node)) (h : Node.hasClash es = false) :
    es.Pairwise fun a b => b.1.sameKey a.1 = false := by
  induction es with
  | nil => exact List.Pairwise.nil
  | cons e es ih =>
    obtain ⟨k, v⟩ := e
    rw [Node.hasClash, Bool.or_eq_false_iff] at h
    refine List.Pairwise.cons (fun x hx => ?_) (ih h.2)
    simpa using List.any_eq_false.mp h.1 x hx

theorem setKey_of_new (key v : Value) (es : List (Value × Value))
    (h : ∀ e ∈ es, e.1.sameKey key = false) : setKey key v es = es ++ [(key, v)] := by
  induction es with
  | nil => rfl
  | cons e es ih =>
    rw [setKey, if_neg (by simp [h e (by simp)]), ih fun x hx => h x (List.mem_cons_of_mem e hx),
      List.cons_append]

theorem foldl_setKey (f : Value → Value) (es acc : List (Value × Value))
    (h : (acc ++ es).Pairwise fun a b => a.1.sameKey b.1 = false) :
    es.foldl (fun m e => setKey e.1 (f e.2) m) acc = acc ++ es.map fun e => (e.1, f e.2) := by
  induction es generalizing acc with
  | nil => simp
  | cons e es ih =>
    obtain ⟨ha, he, hae⟩ := List.pairwise_append.mp h
    obtain ⟨hee, he⟩ := List.pairwise_cons.mp he
    rw [List.foldl_cons, setKey_of_new _ _ _ fun x hx => hae x hx e (by simp), ih, List.map_cons,
      List.append_assoc]
    · rfl
    · refine List.pairwise_append.mpr ⟨List.pairwise_append.mpr ⟨ha, by simp, ?_⟩, he, ?_⟩
      · intro x hx y hy
        obtain rfl := List.mem_singleton.mp hy
        exact hae x hx e (by simp)
      · intro x hx y hy
        rcases List.mem_append.mp hx with hx | hx
        · exact hae x hx y (List.mem_cons_of_mem e hy)
        · obtain rfl := List.mem_singleton.mp hx
          exact hee y hy

theorem valueWithin_scalar (k line : ℕ) (style : Yaml.Style) (t : String) (v : Value)
    (hk : (Node.scalar line style t).depth ≤ k) (h : Node.scalarValue style t = v) :
    valueWithin k (.scalar line style t) = pure v := by
  cases k with
  | zero => simp [Node.depth] at hk
  | succ k => rw [valueWithin, h]

theorem valueWithin_keyEntries {α : Type} (k : ℕ) (es : Keyed α) (n : α → Node) (f : α → Value)
    (h : (Keyed.keys es).Nodup) (hf : ∀ e ∈ es, valueWithin k (n e.2) = pure (f e.2)) :
    valueWithin (k + 1) (.map 0 (Encode.keyEntries (es.map fun e => (e.1, n e.2))))
      = pure (.map (es.map fun e => (e.1, f e.2))) := by
  have hs : (Encode.keyEntries (es.map fun e => (e.1, n e.2))).all
      (fun e => e.1.isString || e.1.isMerge) = true := by
    simp [Encode.keyEntries]
  rw [valueWithin, if_pos hs]
  simp only
  rw [fields_eq _ _ _ _ (Encode.isMerge_keyEntries _)
      ((Encode.hasClash_keyEntries _).mpr (Keyed.keys_map n es ▸ h)),
    Encode.keyEntries, List.foldlM_map, List.foldlM_map,
    Decoder.foldlM_pure _ (fun m e => Keyed.set m e.1 (f e.2)) es fun e he m => ?_, pure_bind,
    Keyed.foldl_set f es [] h (by simp [Keyed.keys]), List.nil_append]
  simp only
  rw [named_string, hf e he, pure_bind]

theorem nodup_byKey {α : Type} (es : Keyed α) (h : (Keyed.keys es).Nodup) :
    (Keyed.keys (Encode.byKey es)).Nodup :=
  ((Encode.byKey_perm es).map Prod.fst).nodup_iff.mpr h

theorem valueWithin_pairs (k : ℕ) (es : List (Value × Value)) (f : Value → Value)
    (hclash : Node.hasClash (es.map fun e => (Encode.value e.1, Encode.value e.2)) = false)
    (hs : ∃ e ∈ es, e.1.isStr = false) (hc : ∀ e ∈ es, e.1.isCollection = false)
    (hset : ∀ e ∈ es, Settled e.1) (hk : ∀ e ∈ es, valueWithin k (Encode.value e.1) = pure e.1)
    (hf : ∀ e ∈ es, valueWithin k (Encode.value e.2) = pure (f e.2)) :
    valueWithin (k + 1) (.map 0 (es.map fun e => (Encode.value e.1, Encode.value e.2)))
      = pure (.table (es.map fun e => (e.1, f e.2))) := by
  have hall : ¬ (es.map fun e => (Encode.value e.1, Encode.value e.2)).all
      (fun e => e.1.isString || e.1.isMerge) = true := by
    obtain ⟨e, he, hstr⟩ := hs
    intro hall
    have := List.all_eq_true.mp hall _ (List.mem_map_of_mem he)
    simp [isString_value e.1 (hset e he) hstr, Encode.isMerge_value] at this
  have hpair : es.Pairwise fun a b => a.1.sameKey b.1 = false := by
    have := (List.pairwise_map.mp (pairwise_of_hasClash _ hclash))
    refine this.imp_of_mem fun {a b} ha hb hab => ?_
    rw [Bool.eq_false_iff]
    intro h
    simp only [sameKey_value a.1 b.1 (hset a ha) h] at hab
    cases hab
  have hmerge : ∀ n ∈ es.map (fun e => (Encode.value e.1, Encode.value e.2)),
      n.1.isMerge = false := by
    intro n hn
    obtain ⟨e, -, rfl⟩ := List.mem_map.mp hn
    exact Encode.isMerge_value e.1
  rw [valueWithin, if_neg hall, fields_eq _ _ _ _ hmerge hclash, List.foldlM_map,
    Decoder.foldlM_pure _ (fun m e => setKey e.1 (f e.2) m) es fun e he m => ?_, pure_bind,
    foldl_setKey f es [] (by simpa using hpair), List.nil_append]
  rw [tableEntry, hk e he, hf e he]
  simp [hc e he]

theorem valueWithin_value (v : Value) (h : Settled v) (hc : (Encode.value v).isClear = true)
    (k : ℕ) (hk : (Encode.value v).depth ≤ k) :
    valueWithin k (Encode.value v) = pure v.arranged := by
  induction h generalizing k with
  | null => exact valueWithin_scalar _ _ _ _ _ hk rfl
  | int v hv => exact valueWithin_scalar _ _ _ _ _ hk (Yaml.plainValue_toString v hv)
  | float x hx => exact valueWithin_scalar _ _ _ _ _ hk hx
  | bool b => cases b <;> exact valueWithin_scalar _ _ _ _ _ hk rfl
  | str s => exact valueWithin_scalar _ _ _ _ _ hk (Encode.scalarValue_string s)
  | time t ht hr =>
    refine valueWithin_scalar _ _ _ _ _ hk ?_
    rw [Node.scalarValue, Yaml.plainValue_time t ht, if_pos hr]
    rfl
  | list xs _ ih =>
    cases k with
    | zero => simp [Encode.value, Node.depth] at hk
    | succ k =>
      rw [Encode.value, Encode.values_eq, Node.depth] at hk
      have hdepth : ∀ x ∈ xs, (Encode.value x).depth ≤ k := fun x hx => by
        have := Node.depth_le_items (xs.map Encode.value) _ (List.mem_map_of_mem hx)
        omega
      rw [Encode.value, Encode.values_eq, valueWithin, arranged_list,
        Decoder.mapM_pure _ Encode.value arranged xs fun x hx =>
          ih x hx (isClear_list xs hc x hx) k (hdepth x hx)]
      rfl
  | map es hn _ ih =>
    cases k with
    | zero => simp [Encode.value, Node.depth] at hk
    | succ k =>
      have hclear := isClear_map es hc
      rw [Encode.value_map, Node.depth] at hk
      have hread : ∀ e ∈ Encode.byKey es, valueWithin k (Encode.value e.2) = pure e.2.arranged := by
        intro e he
        have hmem : (Encode.string e.1, Encode.value e.2)
            ∈ Encode.keyEntries ((Encode.byKey es).map fun e => (e.1, Encode.value e.2)) :=
          List.mem_map.mpr ⟨_, List.mem_map.mpr ⟨e, he, rfl⟩, rfl⟩
        have hd := (Node.depth_le_of_mem _ _ hmem).2
        have he := (Encode.byKey_perm es).mem_iff.mp he
        exact ih e he (hclear e he) k (by simp only at hd; omega)
      rw [Encode.value_map, arranged_map]
      exact valueWithin_keyEntries k _ Encode.value arranged (nodup_byKey es hn) hread
  | table es hs hcol hkeys _ ihk ih =>
    cases k with
    | zero => simp [Encode.value, Node.depth] at hk
    | succ k =>
      obtain ⟨hclash, hclear⟩ := isClear_table es hc
      have hperm := Encode.byValueKey_perm es
      rw [Encode.value_table, Node.depth] at hk
      have hdepth : ∀ e ∈ Encode.byValueKey es,
          (Encode.value e.1).depth ≤ k ∧ (Encode.value e.2).depth ≤ k := by
        intro e he
        have hd := Node.depth_le_of_mem _ _ (List.mem_map_of_mem
          (f := fun e => (Encode.value e.1, Encode.value e.2)) he)
        simp only at hd
        omega
      have hkey : ∀ v : Value, v.isCollection = false → v.arranged = v := by
        intro v hv
        cases v <;> simp_all [arranged, isCollection]
      rw [Encode.value_table, arranged_table]
      refine valueWithin_pairs k _ arranged hclash ?_ (fun e he => hcol e (hperm.mem_iff.mp he))
        (fun e he => hkeys e (hperm.mem_iff.mp he)) (fun e he => ?_) fun e he => ?_
      · obtain ⟨e, he, h⟩ := hs
        exact ⟨e, hperm.mem_iff.mpr he, h⟩
      · have hm := hperm.mem_iff.mp he
        rw [ihk e hm (hclear e hm).1 k (hdepth e he).1, hkey e.1 (hcol e hm)]
      · have hm := hperm.mem_iff.mp he
        exact ih e hm (hclear e hm).2 k (hdepth e he).2

end

/-- Equality of values in which the order of a mapping does not count. -/
inductive Same : Value → Value → Prop
  | refl (v : Value) : Same v v
  | trans (u v w : Value) (h : Same u v) (h' : Same v w) : Same u w
  | list (xs ys : List Value) (h : List.Forall₂ Same xs ys) : Same (.list xs) (.list ys)
  | map (es fs : List (String × Value)) (hk : es.map Prod.fst = fs.map Prod.fst)
      (h : List.Forall₂ Same (es.map Prod.snd) (fs.map Prod.snd)) : Same (.map es) (.map fs)
  | mapOrder (es fs : List (String × Value)) (h : es.Perm fs) : Same (.map es) (.map fs)
  | table (es fs : List (Value × Value)) (hk : es.map Prod.fst = fs.map Prod.fst)
      (h : List.Forall₂ Same (es.map Prod.snd) (fs.map Prod.snd)) : Same (.table es) (.table fs)
  | tableOrder (es fs : List (Value × Value)) (h : es.Perm fs) : Same (.table es) (.table fs)

mutual

theorem same_arranged : (v : Value) → Same v v.arranged
  | .list xs => .list xs _ (same_arrangedItems xs)
  | .map es =>
    .trans _ _ _ (.map es _ (by simp [arrangedEntries_eq]) (same_arrangedEntries es))
      (.mapOrder _ _ (Encode.byKey_perm _).symm)
  | .table es =>
    .trans _ _ _ (.table es _ (by simp [arrangedPairs_eq]) (same_arrangedPairs es))
      (.tableOrder _ _ (Encode.byValueKey_perm _).symm)
  | .null => .refl _
  | .int _ => .refl _
  | .float _ => .refl _
  | .bool _ => .refl _
  | .str _ => .refl _
  | .time _ => .refl _

theorem same_arrangedItems : (xs : List Value) → List.Forall₂ Same xs (arrangedItems xs)
  | [] => .nil
  | x :: xs => .cons (same_arranged x) (same_arrangedItems xs)

theorem same_arrangedEntries : (es : List (String × Value)) →
    List.Forall₂ Same (es.map Prod.snd) ((arrangedEntries es).map Prod.snd)
  | [] => .nil
  | (_, v) :: es => .cons (same_arranged v) (same_arrangedEntries es)

theorem same_arrangedPairs : (es : List (Value × Value)) →
    List.Forall₂ Same (es.map Prod.snd) ((arrangedPairs es).map Prod.snd)
  | [] => .nil
  | (_, v) :: es => .cons (same_arranged v) (same_arrangedPairs es)

end

theorem settled_arranged (v : Value) (h : Settled v) : Settled v.arranged := by
  induction h with
  | null => exact .null
  | int v h => exact .int v h
  | float x h => exact .float x h
  | bool b => exact .bool b
  | str s => exact .str s
  | time t h hr => exact .time t h hr
  | list xs _ ih =>
    rw [arranged_list]
    refine .list _ fun y hy => ?_
    obtain ⟨x, hx, rfl⟩ := List.mem_map.mp hy
    exact ih x hx
  | map es hn _ ih =>
    rw [arranged_map]
    refine .map _ ?_ fun f hf => ?_
    · rw [Keyed.keys_map]
      exact nodup_byKey es hn
    · obtain ⟨e, he, rfl⟩ := List.mem_map.mp hf
      exact ih e ((Encode.byKey_perm es).mem_iff.mp he)
  | table es hs hc hk _ _ ih =>
    have hmem : ∀ e, e ∈ Encode.byValueKey es ↔ e ∈ es := fun e =>
      (Encode.byValueKey_perm es).mem_iff
    rw [arranged_table]
    refine .table _ ?_ ?_ ?_ ?_
    · obtain ⟨e, he, h⟩ := hs
      exact ⟨(e.1, e.2.arranged), List.mem_map.mpr ⟨e, (hmem e).mpr he, rfl⟩, h⟩
    all_goals
      intro f hf
      obtain ⟨e, he, rfl⟩ := List.mem_map.mp hf
      have he := (hmem e).mp he
    · exact hc e he
    · exact hk e he
    · exact ih e he

end Value

end FormatFuzz
