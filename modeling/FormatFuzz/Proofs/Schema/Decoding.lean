import FormatFuzz.Proofs.Fallible
import FormatFuzz.Schema.Encode

/-!
# What decoders give

`Gives d P` is a postcondition of a decoder: whatever it gives has the property. A mapping without
merge keys and without two keys of one text has its entries as fields, in order. Decoding a node
takes no more levels than the node has.
-/

set_option autoImplicit false

namespace FormatFuzz

open Yaml (Node)

namespace Decoder

variable {α β γ : Type}

def Gives (d : Decoder α) (P : α → Prop) : Prop :=
  ∀ b a b', d.run b = .ok (a, b') → P a

theorem gives_pure (a : α) (P : α → Prop) (h : P a) : Gives (pure a) P := by
  intro b a' b' hr
  cases hr
  exact h

theorem gives_throw (e : Decode.Error) (P : α → Prop) : Gives (throw e) P := by
  intro b a b' hr
  cases hr

theorem gives_bind (d : Decoder α) (f : α → Decoder β) (P : α → Prop) (Q : β → Prop)
    (hd : Gives d P) (hf : ∀ a, P a → Gives (f a) Q) : Gives (d >>= f) Q := by
  intro b c b' hr
  obtain ⟨⟨a, b₁⟩, h₁, h₂⟩ := (bind_eq_ok (d.run b) (fun r => (f r.1).run r.2) (c, b')).mp hr
  exact hf a (hd b a b₁ h₁) b₁ c b' h₂

theorem gives_true (d : Decoder α) : Gives d fun _ => True := fun _ _ _ _ => trivial

theorem gives_mono (d : Decoder α) (P Q : α → Prop) (h : Gives d P) (hpq : ∀ a, P a → Q a) :
    Gives d Q :=
  fun b a b' hr => hpq a (h b a b' hr)

theorem gives_mismatch (a : α) (P : α → Prop) (h : P a) : Gives (Decode.mismatch a) P := by
  intro b a' b' hr
  cases hr
  exact h

theorem gives_mapM (f : α → Decoder β) (P : β → Prop) (xs : List α)
    (h : ∀ x ∈ xs, Gives (f x) P) : Gives (xs.mapM f) fun ys => ∀ y ∈ ys, P y := by
  induction xs with
  | nil => exact gives_pure [] _ (by simp)
  | cons x xs ih =>
    rw [List.mapM_cons]
    refine gives_bind _ _ P _ (h x (by simp)) fun y hy => ?_
    refine gives_bind _ _ _ _ (ih fun z hz => h z (List.mem_cons_of_mem x hz)) fun ys hys => ?_
    refine gives_pure _ _ fun z hz => ?_
    rcases List.mem_cons.mp hz with rfl | hz
    · exact hy
    · exact hys z hz

theorem gives_foldlM_run (f : β → α → Decoder β) (P : List α → β → Prop) (xs : List α)
    (step : ∀ x ∈ xs, ∀ done b, P done b → Gives (f b x) (P (done ++ [x]))) (b : β)
    (hb : P [] b) : Gives (xs.foldlM f b) (P xs) := by
  have run : ∀ (xs : List α) (done : List α) (b : β),
      (∀ x ∈ xs, ∀ done b, P done b → Gives (f b x) (P (done ++ [x]))) → P done b →
      Gives (xs.foldlM f b) (P (done ++ xs)) := by
    intro xs
    induction xs with
    | nil =>
      intro done b _ hb
      exact gives_pure b _ (by simpa using hb)
    | cons x xs ih =>
      intro done b step hb
      rw [List.foldlM_cons]
      refine gives_bind _ _ _ _ (step x (by simp) done b hb) fun c hc => ?_
      have := ih (done ++ [x]) c (fun y hy => step y (List.mem_cons_of_mem x hy)) hc
      simpa using this
  exact run xs [] b step hb

theorem gives_foldlM (f : β → α → Decoder β) (P : β → Prop) (xs : List α)
    (step : ∀ x ∈ xs, ∀ b, P b → Gives (f b x) P) (b : β) (hb : P b) :
    Gives (xs.foldlM f b) P :=
  gives_foldlM_run f (fun _ => P) xs (fun x hx _ b hb => step x hx b hb) b hb

theorem alone_eq_ok (d : Decoder α) (a : α) (h : Decode.alone d = .ok a) :
    d.run false = .ok (a, false) := by
  unfold Decode.alone at h
  split at h
  next => cases h
  next x hx =>
    cases h
    exact hx
  next => cases h

theorem gives_alone (d : Decoder α) (P : α → Prop) (hd : Gives d P) (a : α)
    (h : Decode.alone d = .ok a) : P a :=
  hd false a false (alone_eq_ok d a h)

theorem gives_inner (a : α) (d : Decoder α) (P : α → Prop) (ha : P a) (hd : Gives d P) :
    Gives (Decode.inner a d) P := by
  unfold Decode.inner
  split
  next x hx => exact gives_pure x P (gives_alone d P hd x hx)
  next => exact gives_mismatch a P ha
  next => exact gives_throw _ P

theorem alone_pure (a : α) : Decode.alone (pure a : Decoder α) = .ok a := rfl

theorem inner_pure (a b : α) : Decode.inner a (pure b : Decoder α) = pure b := rfl

end Decoder

namespace Decode

open Decoder

variable {α : Type}

theorem mergedEntries_nil (strings : Bool) (es : List (Node × Node)) (seen : List Value)
    (h : ∀ e ∈ es, e.1.isMerge = false) :
    Yaml.Field.mergedEntries strings es seen = ([], seen) := by
  induction es with
  | nil => rfl
  | cons e es ih =>
    obtain ⟨k, v⟩ := e
    rw [Yaml.Field.mergedEntries, if_neg (by simp [h (k, v) (by simp)])]
    exact ih fun e he => h e (List.mem_cons_of_mem _ he)

theorem ofEntries_eq (strings : Bool) (es : List (Node × Node))
    (hm : ∀ e ∈ es, e.1.isMerge = false) (hc : Node.hasClash es = false) :
    Yaml.Field.ofEntries strings es = es.map fun e => .entry e.1 e.2 := by
  have hf : es.filter (fun e => !e.1.isMerge) = es := by
    rw [List.filter_eq_self]
    intro e he
    simp [hm e he]
  unfold Yaml.Field.ofEntries
  rw [if_neg (by simp [hc]), hf, mergedEntries_nil strings es _ hm]
  simp

theorem fields_eq (entry : α → Node → Node → Decoder α) (start : α) (strings : Bool)
    (es : List (Node × Node)) (hm : ∀ e ∈ es, e.1.isMerge = false)
    (hc : Node.hasClash es = false) :
    fields entry start (Yaml.Field.ofEntries strings es)
      = es.foldlM (fun a e => entry a e.1 e.2) start := by
  rw [ofEntries_eq strings es hm hc, fields, List.foldlM_map]

theorem gives_fields (entry : α → Node → Node → Decoder α) (start : α) (strings : Bool)
    (es : List (Node × Node)) (hm : ∀ e ∈ es, e.1.isMerge = false) (P : α → Prop)
    (hs : P start) (step : ∀ e ∈ es, ∀ a, P a → Gives (entry a e.1 e.2) P) :
    Gives (fields entry start (Yaml.Field.ofEntries strings es)) P := by
  by_cases hc : Node.hasClash es = true
  · have : Yaml.Field.ofEntries strings es = [.clash] := by simp [Yaml.Field.ofEntries, hc]
    rw [this, fields, List.foldlM_cons]
    refine gives_bind _ _ P _ (gives_mismatch start P hs) fun a ha => ?_
    exact gives_pure a P ha
  · rw [fields_eq entry start strings es hm (by simpa using hc)]
    exact gives_foldlM _ P es step start hs

end Decode

theorem Yaml.plainValue_of_readsAsString (s : String) (h : Yaml.readsAsString s = true) :
    Yaml.plainValue s = .str s := by
  simp only [Yaml.readsAsString, Bool.and_eq_true] at h
  have hstr := h.1.1
  split at hstr
  · rename_i t ht
    rw [ht, beq_iff_eq.mp hstr]
  · cases hstr

theorem Yaml.stringStyle_cases (s : String) :
    (Yaml.stringStyle s = .plain ∧ Yaml.plainValue s = .str s) ∨ Yaml.stringStyle s = .single ∨
      Yaml.stringStyle s = .double ∨ Yaml.stringStyle s = .literal := by
  simp only [Yaml.stringStyle]
  split_ifs <;> simp_all [Yaml.plainValue_of_readsAsString]

namespace Encode

@[simp] theorem scalarValue_string (s : String) :
    Node.scalarValue (Yaml.stringStyle s) s = .str s := by
  rcases Yaml.stringStyle_cases s with ⟨h, hv⟩ | h | h | h <;> simp [h, Node.scalarValue, *]

@[simp] theorem isMerge_string (s : String) : (string s).isMerge = false := by
  rcases Yaml.stringStyle_cases s with ⟨h, -⟩ | h | h | h <;> simp [string, h, Node.isMerge]

@[simp] theorem isNull_string (s : String) : (string s).isNull = false := by
  rcases Yaml.stringStyle_cases s with ⟨h, hv⟩ | h | h | h <;>
    simp [string, h, Node.isNull, Value.isNull, *]

@[simp] theorem isString_string (s : String) : (string s).isString = true := by
  rcases Yaml.stringStyle_cases s with ⟨h, hv⟩ | h | h | h <;> simp [string, h, Node.isString, *]

end Encode

namespace Decode

theorem string_string (s : String) : string (Encode.string s) = pure s := by
  change (if (Encode.string s).isNull then return "" else return s) = _
  rw [Encode.isNull_string]
  rfl

theorem named_string {α : Type} (set : α → String → Node → Decoder α) (a : α) (key : String) (n : Node) :
    named set a (Encode.string key) n = set a key n := by
  change ((if (Encode.string key).isNull then return none else return some key) >>= _) = _
  rw [Encode.isNull_string]
  rfl

theorem docRef_string (s : String) : docRef (Encode.string s) = pure [s] := by
  change (if (Encode.string s).isNull then return [] else return [s]) = _
  rw [Encode.isNull_string]
  rfl

theorem typeSpec?_string (s : String) : typeSpec? (Encode.string s) = pure (some (.named s)) := by
  change (if (Encode.string s).isNull then return none else return some (TypeSpec.named s)) = _
  rw [Encode.isNull_string]
  rfl

end Decode

namespace Encode

def keyEntries (es : Keyed Node) : List (Node × Node) :=
  es.map fun e => (string e.1, e.2)

theorem isMerge_keyEntries (es : Keyed Node) (e : Node × Node) (h : e ∈ keyEntries es) :
    e.1.isMerge = false := by
  obtain ⟨x, -, rfl⟩ := List.mem_map.mp h
  exact isMerge_string x.1

theorem hasClash_keyEntries (es : Keyed Node) :
    Node.hasClash (keyEntries es) = false ↔ (Keyed.keys es).Nodup := by
  induction es with
  | nil => simp [keyEntries, Node.hasClash, Keyed.keys]
  | cons e es ih =>
    have hany : (keyEntries es).any (fun x => x.1.sameKey (string e.1)) = false ↔
        e.1 ∉ Keyed.keys es := by
      simp only [keyEntries, Keyed.keys, Node.sameKey, string, Node.text, List.any_map,
        List.any_eq_false, List.mem_map, not_exists, not_and, Function.comp, Bool.true_and,
        beq_iff_eq]
    simp only [Keyed.keys, List.map_cons, List.nodup_cons, keyEntries, Node.hasClash,
      Bool.or_eq_false_iff]
    exact and_congr hany ih

end Encode

namespace Yaml

theorem Node.depth_le_of_mem (es : List (Node × Node)) (e : Node × Node) (h : e ∈ es) :
    e.1.depth ≤ Node.depthEntries es ∧ e.2.depth ≤ Node.depthEntries es := by
  induction es with
  | nil => simp at h
  | cons x es ih =>
    obtain ⟨k, v⟩ := x
    rw [Node.depthEntries]
    rcases List.mem_cons.mp h with rfl | h
    · constructor <;> simp only <;> omega
    · have := ih h
      omega

theorem Node.depth_le_items (xs : List Node) (x : Node) (h : x ∈ xs) :
    x.depth ≤ Node.depthItems xs := by
  induction xs with
  | nil => simp at h
  | cons y xs ih =>
    rw [Node.depthItems]
    rcases List.mem_cons.mp h with rfl | h
    · omega
    · have := ih h
      omega

theorem Node.depth_pos (n : Node) : 0 < n.depth := by
  cases n <;> simp [Node.depth]

namespace Field

theorem mem_unseen (strings : Bool) (es : List (Node × Node)) (seen : List Value) (f : Field)
    (h : f ∈ (unseen strings es seen).1) : ∃ e ∈ es, f = .entry e.1 e.2 := by
  induction es generalizing seen with
  | nil => simp [unseen] at h
  | cons x es ih =>
    obtain ⟨k, v⟩ := x
    have lift : (∃ e ∈ es, f = .entry e.1 e.2) → ∃ e ∈ (k, v) :: es, f = .entry e.1 e.2 :=
      fun ⟨e, he, hf⟩ => ⟨e, List.mem_cons_of_mem _ he, hf⟩
    rw [unseen] at h
    split at h
    · exact lift (ih seen h)
    · split at h
      · rcases List.mem_cons.mp h with rfl | h
        · exact ⟨(k, v), by simp, rfl⟩
        · exact lift (ih seen h)
      · split at h
        · exact lift (ih seen h)
        · rcases List.mem_cons.mp h with rfl | h
          · exact ⟨(k, v), by simp, rfl⟩
          · exact lift (ih _ h)

mutual

theorem depth_merged (strings : Bool) (k v : Node) : (n : Node) → (seen : List Value) →
    .entry k v ∈ (merged strings n seen).1 → v.depth ≤ n.depth
  | .map _ es, seen, h => by
    rw [merged] at h
    split at h
    · simp at h
    · rcases List.mem_append.mp h with h | h
      · obtain ⟨e, he, hf⟩ := mem_unseen strings es seen _ h
        cases hf
        have := (Node.depth_le_of_mem es e he).2
        rw [Node.depth]
        omega
      · have := depth_mergedEntries strings k v es _ h
        rw [Node.depth]
        omega
  | .seq _ xs, seen, h => by
    have := depth_mergedItems strings k v xs seen h
    rw [Node.depth]
    omega
  | .scalar .., seen, h => by simp [merged] at h

theorem depth_mergedItems (strings : Bool) (k v : Node) : (xs : List Node) →
    (seen : List Value) → .entry k v ∈ (mergedItems strings xs seen).1 →
    v.depth ≤ Node.depthItems xs
  | [], _, h => by simp [mergedItems] at h
  | x :: xs, seen, h => by
    rw [mergedItems] at h
    rw [Node.depthItems]
    split at h
    · rcases List.mem_append.mp h with h | h
      · have := depth_merged strings k v x _ h
        omega
      · have := depth_mergedItems strings k v xs _ h
        omega
    · simp at h

theorem depth_mergedEntries (strings : Bool) (k v : Node) : (es : List (Node × Node)) →
    (seen : List Value) → .entry k v ∈ (mergedEntries strings es seen).1 →
    v.depth ≤ Node.depthEntries es
  | [], _, h => by simp [mergedEntries] at h
  | (x, y) :: es, seen, h => by
    rw [mergedEntries] at h
    rw [Node.depthEntries]
    split at h
    · rcases List.mem_append.mp h with h | h
      · have := depth_merged strings k v y _ h
        omega
      · have := depth_mergedEntries strings k v es _ h
        omega
    · have := depth_mergedEntries strings k v es _ h
      omega

end

theorem depth_ofEntries (strings : Bool) (es : List (Node × Node)) (k v : Node)
    (h : .entry k v ∈ ofEntries strings es) : v.depth ≤ Node.depthEntries es := by
  rw [ofEntries] at h
  split at h
  · simp at h
  · rcases List.mem_append.mp h with h | h
    · obtain ⟨e, he, hf⟩ := List.mem_map.mp h
      cases hf
      exact (Node.depth_le_of_mem es e (List.mem_of_mem_filter he)).2
    · exact depth_mergedEntries strings k v es _ h

end Field

end Yaml

namespace Decode

theorem foldlM_congr {α β : Type} (f g : β → α → Decoder β) (xs : List α)
    (h : ∀ x ∈ xs, ∀ b, f b x = g b x) (b : β) : xs.foldlM f b = xs.foldlM g b := by
  induction xs generalizing b with
  | nil => rfl
  | cons x xs ih =>
    rw [List.foldlM_cons, List.foldlM_cons, h x (by simp) b]
    exact bind_congr fun c => ih (fun y hy => h y (List.mem_cons_of_mem x hy)) c

theorem keyed_congr {α : Type} (f g : Node → Decoder α) (n : Node)
    (h : ∀ m : Node, m.depth < n.depth → f m = g m) : keyed f n = keyed g n := by
  unfold keyed
  split
  · rfl
  · cases n with
    | map l es =>
      refine foldlM_congr _ _ es (fun e he m => ?_) []
      have := (Node.depth_le_of_mem es e he).2
      rw [h e.2 (by rw [Node.depth]; omega)]
    | scalar => rfl
    | seq => rfl

theorem schemaWithin_congr (j k : Nat) (n : Node) (hj : n.depth ≤ j) (hk : n.depth ≤ k) :
    schemaWithin j n = schemaWithin k n := by
  induction j generalizing k n with
  | zero =>
    have := n.depth_pos
    omega
  | succ j ih =>
    cases k with
    | zero =>
      have := n.depth_pos
      omega
    | succ k =>
      rw [schemaWithin, schemaWithin]
      cases n with
      | scalar => rfl
      | seq => rfl
      | map l es =>
        rw [Node.depth] at hj hk
        refine foldlM_congr _ _ _ (fun f hf s => ?_) Schema.empty
        cases f with
        | clash => rfl
        | noMerge => rfl
        | entry key v =>
          have hv := Yaml.Field.depth_ofEntries true es key v hf
          have hkeyed : keyed (schemaWithin j) v = keyed (schemaWithin k) v :=
            keyed_congr _ _ v fun m hm => ih k m (by omega) (by omega)
          refine bind_congr fun name => ?_
          cases name with
          | none => rfl
          | some name =>
            simp only [schemaEntry, hkeyed]

theorem schemaWithin_eq (k : Nat) (n : Node) (h : n.depth ≤ k) : schemaWithin k n = schema n :=
  schemaWithin_congr k n.depth n h (Nat.le_refl _)

end Decode

end FormatFuzz
