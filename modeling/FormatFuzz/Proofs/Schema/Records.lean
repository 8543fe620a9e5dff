import FormatFuzz.Proofs.Schema.Untyped

/-!
# Copies of records

A record is written key by key, with keys that hold nothing left out, and read back key by key. What
reading does with each kind of key is said once, for any record; headers, attributes and enum entries
are then read back as a sequence of such steps. A first copy settles a record, and a settled record
comes back with its untyped mappings in the order of their writing.
-/

set_option autoImplicit false

namespace FormatFuzz

open Yaml (Node)

def Yaml.Node.Kept {β : Type} (decode : Node → β) (n : Node) : Prop :=
  ∃ m, n.copy = .ok m ∧ decode m = decode n

theorem Yaml.Node.kept_of_steady {β : Type} (decode : Node → β) (n : Node)
    (h : n.isSteady = true) : n.Kept decode :=
  ⟨n, by rw [Node.copy, if_pos h], rfl⟩

namespace Decode

variable {α β : Type}

def through (set : α → String → Node → Decoder α) (a : α) (es : List (Node × Node)) : Decoder α :=
  es.foldlM (fun a e => named set a e.1 e.2) a

theorem through_append (set : α → String → Node → Decoder α) (a : α) (es fs : List (Node × Node)) :
    through set a (es ++ fs) = through set a es >>= fun b => through set b fs :=
  List.foldlM_append

theorem through_entry (set : α → String → Node → Decoder α) (key : String)
    (decode : Node → Decoder β) (put : α → β → α)
    (hset : ∀ a n, set a key n = decode n >>= fun x => pure (put a x))
    (a : α) (keep : Bool) (n : Node) (d : Decoder β) (none : β) (hput : put a none = a)
    (hkeep : keep = true → decode n = d) (hskip : keep = false → d = pure none) :
    through set a (Encode.entry key keep n) = d >>= fun x => pure (put a x) := by
  cases keep with
  | false =>
    rw [hskip rfl, pure_bind, hput]
    rfl
  | true =>
    rw [← hkeep rfl, ← hset]
    change (named set a (Encode.string key) n >>= pure) = set a key n
    rw [bind_pure, named_string]

theorem through_then (set : α → String → Node → Decoder α) (put : α → β → α) (a : α)
    (d : Decoder β) (es fs : List (Node × Node))
    (h : through set a es = d >>= fun x => pure (put a x)) :
    through set a (es ++ fs) = d >>= fun x => through set (put a x) fs := by
  rw [through_append, h, bind_assoc]
  exact bind_congr fun x => pure_bind _ _

theorem through_one (set : α → String → Node → Decoder α) (key : String)
    (decode : Node → Decoder β) (put : α → β → α)
    (hset : ∀ a n, set a key n = decode n >>= fun x => pure (put a x)) (a : α) (n : Node)
    (fs : List (Node × Node)) :
    through set a ((Encode.string key, n) :: fs)
      = decode n >>= fun x => through set (put a x) fs := by
  rw [through, List.foldlM_cons, named_string, hset, bind_assoc]
  exact bind_congr fun x => pure_bind _ _


theorem through_text (set : α → String → Node → Decoder α) (key : String) (put : α → String → α)
    (hset : ∀ a n, set a key n = string n >>= fun x => pure (put a x)) (a : α)
    (hput : put a "" = a) (s : String) (fs : List (Node × Node)) :
    through set a (Encode.text key s ++ fs) = through set (put a s) fs := by
  rw [through_then set put a (pure s), pure_bind]
  refine through_entry set key string put hset a _ _ _ "" hput (fun _ => string_string s) fun h => ?_
  rw [show s = "" by simpa using h]

theorem through_truth (set : α → String → Node → Decoder α) (key : String) (put : α → Bool → α)
    (hset : ∀ a n, set a key n = bool n >>= fun x => pure (put a x)) (a : α)
    (hput : put a false = a) (b : Bool) (fs : List (Node × Node)) :
    through set a (Encode.truth key b ++ fs) = through set (put a b) fs := by
  rw [through_then set put a (pure b), pure_bind]
  refine through_entry set key bool put hset a _ _ _ false hput (fun h => ?_) fun h => by rw [h]
  rw [h]
  rfl

def rereadUntyped (v : Value) : Decoder Value :=
  if Encode.isZero v then pure .null else value (Encode.value v)

theorem through_untyped (set : α → String → Node → Decoder α) (key : String)
    (put : α → Value → α) (hset : ∀ a n, set a key n = value n >>= fun x => pure (put a x)) (a : α)
    (hput : put a .null = a) (v : Value) (fs : List (Node × Node)) :
    through set a (Encode.untyped key v ++ fs)
      = rereadUntyped v >>= fun x => through set (put a x) fs := by
  refine through_then set put a _ _ _ ?_
  refine through_entry set key value put hset a _ _ _ .null hput (fun h => ?_) fun h => ?_
  · rw [rereadUntyped, if_neg (by simpa using h)]
  · rw [rereadUntyped, if_pos (by simpa using h)]

def rereadInt (v : Option Int) : Decoder (Option Int) :=
  match v with
  | some i => int? (Encode.plain (toString i))
  | none => pure none

theorem through_integer (set : α → String → Node → Decoder α) (key : String)
    (put : α → Option Int → α) (hset : ∀ a n, set a key n = int? n >>= fun x => pure (put a x))
    (a : α) (hput : put a none = a) (v : Option Int) (fs : List (Node × Node)) :
    through set a (Encode.integer key v ++ fs)
      = rereadInt v >>= fun x => through set (put a x) fs := by
  refine through_then set put a _ _ _ ?_
  cases v with
  | none =>
    rw [rereadInt, pure_bind, hput]
    rfl
  | some i => exact through_entry set key int? put hset a true _ _ none hput (fun _ => rfl) nofun

def rereadNumber (n : Option Number) : Decoder (Option Number) :=
  match n with
  | some n => number? (Encode.numberNode n)
  | none => pure none

theorem through_number (set : α → String → Node → Decoder α) (key : String)
    (put : α → Option Number → α)
    (hset : ∀ a n, set a key n = number? n >>= fun x => pure (put a x))
    (a : α) (hput : put a none = a) (v : Option Number) (fs : List (Node × Node)) :
    through set a (Encode.number key v ++ fs)
      = rereadNumber v >>= fun x => through set (put a x) fs := by
  refine through_then set put a _ _ _ ?_
  cases v with
  | none =>
    rw [rereadNumber, pure_bind, hput]
    rfl
  | some i => exact through_entry set key number? put hset a true _ _ none hput (fun _ => rfl) nofun

theorem strings_map (ss : List String) :
    strings (.seq 0 (ss.map Encode.string)) = pure ss := by
  have hf : (ss.map Encode.string).filter (fun x => !x.isNull) = ss.map Encode.string := by
    rw [List.filter_eq_self]
    intro n hn
    obtain ⟨s, -, rfl⟩ := List.mem_map.mp hn
    rw [Encode.isNull_string, Bool.not_false]
  rw [strings, hf, Decoder.mapM_pure string Encode.string id ss fun s _ => string_string s,
    List.map_id]

theorem docRef_docRefNode (refs : List String) : docRef (Encode.docRefNode refs) = pure refs := by
  unfold Encode.docRefNode
  split
  · exact docRef_string _
  · change inner [] (strings _) = _
    rw [strings_map, Decoder.inner_pure]

theorem through_docRef (set : α → String → Node → Decoder α) (put : α → List String → α)
    (hset : ∀ a n, set a "doc-ref" n = docRef n >>= fun x => pure (put a x)) (a : α)
    (hput : put a [] = a) (refs : List String) (fs : List (Node × Node)) :
    through set a (Encode.docRef refs ++ fs) = through set (put a refs) fs := by
  rw [through_then set put a (pure refs), pure_bind]
  refine through_entry set _ docRef put hset a _ _ _ [] hput (fun _ => ?_) fun h => ?_
  · exact docRef_docRefNode refs
  · rw [show refs = [] by simpa using h]

theorem through_list (set : α → String → Node → Decoder α) (key : String)
    (decode : Node → Decoder (List β)) (put : α → List β → α)
    (hset : ∀ a n, set a key n = decode n >>= fun x => pure (put a x)) (a : α)
    (hput : put a [] = a) (xs : List Node) (one : Node → Decoder β)
    (hone : decode (.seq 0 xs) = xs.mapM one) (fs : List (Node × Node)) :
    through set a (Encode.list key xs ++ fs)
      = xs.mapM one >>= fun x => through set (put a x) fs := by
  refine through_then set put a _ _ _ ?_
  refine through_entry set key decode put hset a _ _ _ [] hput (fun _ => hone) fun h => ?_
  rw [show xs = [] by simpa using h]
  rfl

def keyedItems (es : Keyed (Decoder α)) : Decoder (Keyed α) :=
  es.foldlM (fun m e =>
    match alone e.2 with
    | .ok v => pure (Keyed.set m e.1 v)
    | .error err => fail (.inKey e.1 err)) []

theorem keyedNode_kept (one : Node → Decoder α) (es : Keyed Node)
    (h : ∀ e ∈ es, e.2.Kept one) : ∃ ns : Keyed Node,
    Encode.keyedNode es = .ok (.map 0 (ns.map fun e => (Encode.plain e.1, e.2))) ∧
      ns.map (fun e => (e.1, one e.2)) = es.map fun e => (e.1, one e.2) := by
  suffices hs : ∃ ns : Keyed Node,
      (es.mapM fun e => do return (Encode.plain e.1, ← e.2.copy) : Encode.Written _)
        = .ok (ns.map fun e => (Encode.plain e.1, e.2)) ∧
      ns.map (fun e => (e.1, one e.2)) = es.map fun e => (e.1, one e.2) by
    obtain ⟨ns, hns, heq⟩ := hs
    refine ⟨ns, ?_, heq⟩
    rw [Encode.keyedNode, hns]
    rfl
  induction es with
  | nil => exact ⟨[], rfl, rfl⟩
  | cons e es ih =>
    obtain ⟨ns, hns, heq⟩ := ih fun x hx => h x (List.mem_cons_of_mem e hx)
    obtain ⟨m, hm, hone⟩ := h e (by simp)
    refine ⟨(e.1, m) :: ns, ?_, ?_⟩
    · rw [List.mapM_cons, hm, hns]
      rfl
    · rw [List.map_cons, List.map_cons, heq, hone]

theorem keyed_keyedNode (one : Node → Decoder α) (es : Keyed Node) (n : Node)
    (h : ∀ e ∈ es, e.2.Kept one) (hn : Encode.keyedNode es = .ok n) :
    keyed one n = keyedItems (es.map fun e => (e.1, one e.2)) := by
  obtain ⟨ns, hns, heq⟩ := keyedNode_kept one es h
  rw [hns] at hn
  cases hn
  rw [← heq, keyedItems, List.foldlM_map, keyed, if_neg (by simp [Node.isNull])]
  simp only [List.foldlM_map]
  rfl

theorem through_keyed (set : α → String → Node → Decoder α) (key : String)
    (one : Node → Decoder β) (put : α → Keyed β → α)
    (hset : ∀ a n, set a key n = keyed one n >>= fun x => pure (put a x)) (a : α)
    (hput : put a [] = a) (es : Keyed Node) (h : ∀ e ∈ es, e.2.Kept one)
    (ns : List (Node × Node)) (hns : Encode.keyed key es = .ok ns) (fs : List (Node × Node)) :
    through set a (ns ++ fs) = keyedItems (es.map fun e => (e.1, one e.2))
      >>= fun x => through set (put a x) fs := by
  obtain ⟨n, hn, hns⟩ := (bind_eq_ok _ _ _).mp hns
  rw [pure_eq_ok] at hns
  subst hns
  refine through_then set put a _ _ _ ?_
  refine through_entry set key (keyed one) put hset a _ _ _ [] hput (fun _ => ?_) fun he => ?_
  · exact keyed_keyedNode one es n h hn
  · rw [show es = [] by simpa using he]
    rfl

theorem gives_keyedItems (es : Keyed (Decoder α)) (P : α → Prop)
    (h : ∀ e ∈ es, Decoder.Gives e.2 P) : Decoder.Gives (keyedItems es) (Keyed.Each P) := by
  refine Decoder.gives_foldlM _ _ _ (fun e he m hm => ?_) _ (Keyed.each_nil P)
  split
  next v hv =>
    exact Decoder.gives_pure _ _ (Keyed.each_set P m e.1 v hm (Decoder.gives_alone _ P (h e he) v hv))
  next => exact Decoder.gives_throw _ _

theorem keyedItems_pure (es : Keyed β) (f : β → Decoder α) (g : β → α)
    (hn : (Keyed.keys es).Nodup) (h : ∀ e ∈ es, f e.2 = pure (g e.2)) :
    keyedItems (es.map fun e => (e.1, f e.2)) = pure (es.map fun e => (e.1, g e.2)) := by
  rw [keyedItems, List.foldlM_map, Decoder.foldlM_pure _ (fun m e => Keyed.set m e.1 (g e.2)) es
    fun e he m => ?_, Keyed.foldl_set g es [] hn (by simp [Keyed.keys]), List.nil_append]
  rw [h e he, Decoder.alone_pure]

end Decode

namespace Encode

def Named (keys : List String) (es : List (Node × Node)) : Prop :=
  ∃ names : List String, es.map Prod.fst = names.map string ∧ names.Sublist keys

theorem Named.append {ks ls : List String} {es fs : List (Node × Node)} (he : Named ks es)
    (hf : Named ls fs) : Named (ks ++ ls) (es ++ fs) := by
  obtain ⟨ms, hms, hks⟩ := he
  obtain ⟨ns, hns, hls⟩ := hf
  exact ⟨ms ++ ns, by rw [List.map_append, hms, hns, List.map_append], hks.append hls⟩

theorem Named.cons {k : String} {ks : List String} {es fs : List (Node × Node)}
    (he : Named [k] es) (hf : Named ks fs) : Named (k :: ks) (es ++ fs) :=
  he.append hf

theorem named_nil (keys : List String) : Named keys [] := ⟨[], rfl, List.nil_sublist keys⟩

theorem named_one (key : String) (n : Node) : Named [key] [(string key, n)] :=
  ⟨[key], rfl, List.Sublist.refl _⟩

theorem named_entry (key : String) (keep : Bool) (n : Node) : Named [key] (entry key keep n) := by
  cases keep with
  | false => exact named_nil _
  | true => exact named_one key n

theorem named_integer (key : String) (v : Option Int) : Named [key] (integer key v) := by
  cases v with
  | none => exact named_nil _
  | some i => exact named_one key _

theorem named_number (key : String) (v : Option Number) : Named [key] (number key v) := by
  cases v with
  | none => exact named_nil _
  | some i => exact named_one key _

theorem named_keyed (key : String) (es : Keyed Node) (ns : List (Node × Node))
    (h : keyed key es = .ok ns) : Named [key] ns := by
  obtain ⟨n, -, hns⟩ := (bind_eq_ok _ _ _).mp h
  rw [pure_eq_ok] at hns
  exact hns ▸ named_entry key _ n

theorem named_typeSpec (t : Option TypeSpec) (ns : List (Node × Node))
    (h : typeSpec t = .ok ns) : Named ["type"] ns := by
  cases t with
  | none =>
    cases h
    exact named_nil _
  | some t =>
    obtain ⟨n, -, hns⟩ := (bind_eq_ok _ _ _).mp h
    rw [pure_eq_ok] at hns
    exact hns ▸ named_one "type" n

theorem named_extra (es : Keyed Value) : Named (Keyed.keys (byKey es)) (extra es) :=
  ⟨Keyed.keys (byKey es), by simp [extra, byKey, Keyed.keys], List.Sublist.refl _⟩

end Encode

namespace Decode

variable {α : Type}

theorem hasClash_of_nodup (es : List (Node × Node)) (h : (es.map fun e => e.1.text).Nodup) :
    Node.hasClash es = false := by
  induction es with
  | nil => rfl
  | cons e es ih =>
    obtain ⟨k, v⟩ := e
    obtain ⟨hk, hes⟩ := List.nodup_cons.mp h
    rw [Node.hasClash, ih hes, Bool.or_false, List.any_eq_false]
    intro x hx hsame
    have htext : x.1.text = k.text := by
      unfold Node.sameKey at hsame
      exact beq_iff_eq.mp (Bool.and_eq_true_iff.mp hsame).2
    exact hk (List.mem_map.mpr ⟨x, hx, htext⟩)

theorem record_named (empty : α) (set : α → String → Node → Decoder α) (keys : List String)
    (hkeys : keys.Nodup) (es : List (Node × Node)) (h : Encode.Named keys es) :
    record empty set (.map 0 es) = through set empty es := by
  obtain ⟨names, hnames, hsub⟩ := h
  have hmerge : ∀ e ∈ es, e.1.isMerge = false := by
    intro e he
    have := List.mem_map_of_mem (f := Prod.fst) he
    rw [hnames] at this
    obtain ⟨name, -, hname⟩ := List.mem_map.mp this
    rw [← hname, Encode.isMerge_string]
  have htexts : (es.map fun e => e.1.text) = names := by
    calc (es.map fun e => e.1.text) = (es.map Prod.fst).map Node.text := by rw [List.map_map]; rfl
      _ = names := by rw [hnames, List.map_map]; exact List.map_id names
  rw [record, fields_eq _ _ _ _ hmerge (hasClash_of_nodup es (htexts ▸ hsub.nodup hkeys))]
  rfl

def casesOf : Option TypeSpec → Keyed String
  | some (.switch _ cases) => cases
  | _ => []

/-- What a type gives: the cases of a switch one after the other, what it goes by as it comes. -/
def rereadType : Option TypeSpec → Decoder (Option TypeSpec)
  | none => pure none
  | some (.named name) => pure (some (.named name))
  | some (.switch on cases) => do
    let s ← inner (.null, []) (do
      let on ← value (Encode.value on)
      let cases ← keyedItems (cases.map fun c => (c.1, pure c.2))
      return (on, cases))
    return some (.switch s.1 s.2)

theorem switchSpec_eq (on : Value) (cases : Keyed String) (n : Node)
    (hk : ∀ c ∈ cases, (Encode.string c.2).Kept string)
    (hn : Encode.keyedNode (cases.map fun c => (c.1, Encode.string c.2)) = .ok n) :
    switchSpec (.map 0 [(Encode.string "switch-on", Encode.value on), (Encode.string "cases", n)])
      = (do
        let on ← value (Encode.value on)
        let cases ← keyedItems (cases.map fun c => (c.1, pure c.2))
        return (on, cases)) := by
  have hcases : keyed string n = keyedItems (cases.map fun c => (c.1, pure c.2)) := by
    rw [keyed_keyedNode string _ n _ hn, List.map_map]
    · exact congrArg keyedItems
        (List.map_congr_left fun c _ => congrArg (Prod.mk c.1) (string_string c.2))
    · intro e he
      obtain ⟨c, hc, rfl⟩ := List.mem_map.mp he
      exact hk c hc
  have hnamed : Encode.Named ["switch-on", "cases"]
      [(Encode.string "switch-on", Encode.value on), (Encode.string "cases", n)] :=
    (Encode.named_one _ _).append (Encode.named_one _ _)
  rw [switchSpec, record_named _ _ _ (by decide) _ hnamed,
    through_one _ _ value (fun s x => (x, s.2)) fun _ _ => rfl]
  refine bind_congr fun on => ?_
  rw [through_one _ _ (keyed string) (fun s x => (s.1, x)) fun _ _ => rfl, hcases]
  rfl

theorem through_type (a : Attr) (t : Option TypeSpec) (ha : { a with type := none } = a)
    (hk : ∀ c ∈ casesOf t, (Encode.string c.2).Kept string)
    (set : Attr → String → Node → Decoder Attr)
    (hset : ∀ a n, set a "type" n = typeSpec? n >>= fun x => pure { a with type := x })
    (ns : List (Node × Node)) (hns : Encode.typeSpec t = .ok ns) (fs : List (Node × Node)) :
    through set a (ns ++ fs)
      = rereadType t >>= fun x => through set { a with type := x } fs := by
  cases t with
  | none =>
    cases hns
    rw [rereadType, pure_bind, ha]
    rfl
  | some t =>
    obtain ⟨n, hn, hns⟩ := (bind_eq_ok _ _ _).mp hns
    rw [pure_eq_ok] at hns
    subst hns
    rw [List.singleton_append, through_one set _ _ (fun a x => { a with type := x }) hset]
    refine congrArg (· >>= _) ?_
    cases t with
    | named name =>
      cases hn
      exact typeSpec?_string name
    | switch on cases =>
      obtain ⟨m, hm, hn⟩ := (bind_eq_ok _ _ _).mp hn
      rw [pure_eq_ok] at hn
      subst hn
      rw [rereadType, ← switchSpec_eq on cases m hk hm]
      rfl

theorem typeSpec_kept (t : Option TypeSpec)
    (hk : ∀ c ∈ casesOf t, (Encode.string c.2).Kept string) :
    ∃ ns, Encode.typeSpec t = .ok ns := by
  cases t with
  | none => exact ⟨[], rfl⟩
  | some t =>
    cases t with
    | named name => exact ⟨_, rfl⟩
    | switch on cases =>
      obtain ⟨ns, hns, -⟩ := keyedNode_kept string (cases.map fun c => (c.1, Encode.string c.2))
        fun e he => by
          obtain ⟨c, hc, rfl⟩ := List.mem_map.mp he
          exact hk c hc
      rw [Encode.typeSpec, Encode.typeSpecNode, hns]
      exact ⟨_, rfl⟩

def rereadAttr (a : Attr) : Decoder Attr := do
  let type ← rereadType a.type
  let size ← rereadUntyped a.size
  let terminator ← rereadInt a.terminator
  let contents ← rereadUntyped a.contents
  let valid ← rereadUntyped a.valid
  let guard ← rereadUntyped a.guard
  let val ← rereadUntyped a.value
  let repeatExpr ← rereadUntyped a.repeatExpr
  let repeatUntil ← rereadUntyped a.repeatUntil
  let rangeMin ← rereadNumber a.rangeMin
  let rangeMax ← rereadNumber a.rangeMax
  let sizeMin ← rereadInt a.sizeMin
  let sizeMax ← rereadInt a.sizeMax
  let repeatMin ← rereadInt a.repeatMin
  let repeatMax ← rereadInt a.repeatMax
  let attrLen ← rereadUntyped a.attrLen
  let choice ← (Encode.values a.choice).mapM value
  let extra ← (Encode.byKey a.extra).foldlM (fun m e => do
    return Keyed.set m e.1 (← value (Encode.value e.2))) []
  return { a with
    type := type, size := size, terminator := terminator, contents := contents, valid := valid
    guard := guard, value := val, repeatExpr := repeatExpr, repeatUntil := repeatUntil
    rangeMin := rangeMin, rangeMax := rangeMax, sizeMin := sizeMin, sizeMax := sizeMax
    repeatMin := repeatMin, repeatMax := repeatMax, attrLen := attrLen, choice := choice
    extra := extra }

def attrKeys : List String :=
  ["id", "doc", "doc-ref", "type", "size", "size-eos", "encoding", "terminator", "contents", "enum",
    "process", "valid", "if", "value", "repeat", "repeat-expr", "repeat-until", "-fz-range-min",
    "-fz-range-max", "-fz-size-min", "-fz-size-max", "-fz-repeat-min", "-fz-repeat-max",
    "-fz-attr-len", "-fz-choice", "-fz-order-pop", "-fz-rand-order-pop"]

def Further (es : Keyed Value) : Prop :=
  (Keyed.keys es).Nodup ∧ ∀ k ∈ Keyed.keys es, k ∉ attrKeys

theorem nodup_attrKeys (es : Keyed Value) (h : Further es) :
    (attrKeys ++ Keyed.keys (Encode.byKey es)).Nodup := by
  have hkeys : ∀ k, k ∈ Keyed.keys (Encode.byKey es) ↔ k ∈ Keyed.keys es := fun k =>
    ((Encode.byKey_perm es).map Prod.fst).mem_iff
  refine List.nodup_append.mpr ⟨by decide, Value.nodup_byKey es h.1, ?_⟩
  rintro k hk l hl rfl
  exact h.2 k ((hkeys k).mp hl) hk

theorem through_extra (a : Attr) (set : Attr → String → Node → Decoder Attr)
    (hset : ∀ key, key ∉ attrKeys → ∀ a n, set a key n
      = value n >>= fun x => pure { a with extra := Keyed.set a.extra key x })
    (es : Keyed Value) (h : Further es) :
    through set a (Encode.extra es) = (Encode.byKey es).foldlM (fun m e => do
      return Keyed.set m e.1 (← value (Encode.value e.2))) a.extra
        >>= fun x => pure { a with extra := x } := by
  have hkeys : ∀ e ∈ Encode.byKey es, e.1 ∉ attrKeys := fun e he =>
    h.2 e.1 (List.mem_map_of_mem (f := Prod.fst) ((Encode.byKey_perm es).mem_iff.mp he))
  change through set a ((Encode.byKey es).map fun e => (Encode.string e.1, Encode.value e.2)) = _
  revert hkeys
  generalize Encode.byKey es = es
  intro hkeys
  induction es generalizing a with
  | nil => rfl
  | cons e es ih =>
    rw [List.map_cons, through_one set _ value _ (hset e.1 (hkeys e (by simp))), List.foldlM_cons,
      bind_assoc, bind_assoc]
    refine bind_congr fun x => ?_
    rw [ih _ fun e he => hkeys e (List.mem_cons_of_mem _ he), pure_bind]

theorem attr_kept (a : Attr) (hk : ∀ c ∈ casesOf a.type, (Encode.string c.2).Kept string) :
    ∃ n, Encode.attr a = .ok n := by
  obtain ⟨ns, hns⟩ := typeSpec_kept a.type hk
  rw [Encode.attr, hns]
  exact ⟨_, rfl⟩

theorem attr_encode (a : Attr) (hk : ∀ c ∈ casesOf a.type, (Encode.string c.2).Kept string)
    (he : Further a.extra) (n : Node) (h : Encode.attr a = .ok n) : attr n = rereadAttr a := by
  obtain ⟨type, htype, h⟩ := (bind_eq_ok _ _ _).mp h
  rw [pure_eq_ok] at h
  subst h
  rw [attr, record_named _ _ _ (nodup_attrKeys a.extra he)]
  swap
  · have entry := Encode.named_entry
    have integer := Encode.named_integer
    have number := Encode.named_number
    simp only [List.append_assoc]
    exact (entry _ _ _).cons <| (entry _ _ _).cons <| (entry _ _ _).cons <|
      (Encode.named_typeSpec a.type type htype).cons <| (entry _ _ _).cons <| (entry _ _ _).cons <|
      (entry _ _ _).cons <| (integer _ _).cons <| (entry _ _ _).cons <| (entry _ _ _).cons <|
      (entry _ _ _).cons <| (entry _ _ _).cons <| (entry _ _ _).cons <| (entry _ _ _).cons <|
      (entry _ _ _).cons <| (entry _ _ _).cons <| (entry _ _ _).cons <| (number _ _).cons <|
      (number _ _).cons <| (integer _ _).cons <| (integer _ _).cons <| (integer _ _).cons <|
      (integer _ _).cons <| (entry _ _ _).cons <| (entry _ _ _).cons <| (entry _ _ _).cons <|
      (entry _ _ _).cons <| Encode.named_extra a.extra
  simp only [List.append_assoc]
  rw [through_text _ _ (fun a x => { a with id := x }) (fun _ _ => rfl) _ rfl,
    through_text _ _ (fun a x => { a with doc := x }) (fun _ _ => rfl) _ rfl,
    through_docRef _ (fun a x => { a with docRef := x }) (fun _ _ => rfl) _ rfl,
    through_type _ _ rfl hk _ (fun _ _ => rfl) _ htype]
  refine bind_congr fun type => ?_
  rw [through_untyped _ _ (fun a x => { a with size := x }) (fun _ _ => rfl) _ rfl]
  refine bind_congr fun size => ?_
  rw [through_truth _ _ (fun a x => { a with sizeEos := x }) (fun _ _ => rfl) _ rfl,
    through_text _ _ (fun a x => { a with encoding := x }) (fun _ _ => rfl) _ rfl,
    through_integer _ _ (fun a x => { a with terminator := x }) (fun _ _ => rfl) _ rfl]
  refine bind_congr fun terminator => ?_
  rw [through_untyped _ _ (fun a x => { a with contents := x }) (fun _ _ => rfl) _ rfl]
  refine bind_congr fun contents => ?_
  rw [through_text _ _ (fun a x => { a with enum := x }) (fun _ _ => rfl) _ rfl,
    through_text _ _ (fun a x => { a with process := x }) (fun _ _ => rfl) _ rfl,
    through_untyped _ _ (fun a x => { a with valid := x }) (fun _ _ => rfl) _ rfl]
  refine bind_congr fun valid => ?_
  rw [through_untyped _ _ (fun a x => { a with guard := x }) (fun _ _ => rfl) _ rfl]
  refine bind_congr fun guard => ?_
  rw [through_untyped _ _ (fun a x => { a with value := x }) (fun _ _ => rfl) _ rfl]
  refine bind_congr fun val => ?_
  rw [through_text _ _ (fun a x => { a with repeated := x }) (fun _ _ => rfl) _ rfl,
    through_untyped _ _ (fun a x => { a with repeatExpr := x }) (fun _ _ => rfl) _ rfl]
  refine bind_congr fun repeatExpr => ?_
  rw [through_untyped _ _ (fun a x => { a with repeatUntil := x }) (fun _ _ => rfl) _ rfl]
  refine bind_congr fun repeatUntil => ?_
  rw [through_number _ _ (fun a x => { a with rangeMin := x }) (fun _ _ => rfl) _ rfl]
  refine bind_congr fun rangeMin => ?_
  rw [through_number _ _ (fun a x => { a with rangeMax := x }) (fun _ _ => rfl) _ rfl]
  refine bind_congr fun rangeMax => ?_
  rw [through_integer _ _ (fun a x => { a with sizeMin := x }) (fun _ _ => rfl) _ rfl]
  refine bind_congr fun sizeMin => ?_
  rw [through_integer _ _ (fun a x => { a with sizeMax := x }) (fun _ _ => rfl) _ rfl]
  refine bind_congr fun sizeMax => ?_
  rw [through_integer _ _ (fun a x => { a with repeatMin := x }) (fun _ _ => rfl) _ rfl]
  refine bind_congr fun repeatMin => ?_
  rw [through_integer _ _ (fun a x => { a with repeatMax := x }) (fun _ _ => rfl) _ rfl]
  refine bind_congr fun repeatMax => ?_
  rw [through_untyped _ _ (fun a x => { a with attrLen := x }) (fun _ _ => rfl) _ rfl]
  refine bind_congr fun attrLen => ?_
  rw [through_list _ _ valueList (fun a x => { a with choice := x }) (fun _ _ => rfl) _ rfl _ value
    rfl]
  refine bind_congr fun choice => ?_
  rw [through_truth _ _ (fun a x => { a with orderPop := x }) (fun _ _ => rfl) _ rfl,
    through_truth _ _ (fun a x => { a with randOrderPop := x }) (fun _ _ => rfl) _ rfl,
    through_extra _ _ _ _ he]
  intro key hkey a n
  split <;> first | rfl | exact absurd (by decide) hkey

end Decode

namespace Attr

def untyped (a : Attr) : List Value :=
  [a.size, a.contents, a.valid, a.guard, a.value, a.repeatExpr, a.repeatUntil, a.attrLen]

def switchOn (a : Attr) : List Value :=
  match a.type with
  | some (.switch on _) => [on]
  | _ => []

def values (a : Attr) : List Value :=
  a.untyped ++ a.switchOn ++ a.choice ++ a.extra.map Prod.snd

theorem forall_values (a : Attr) (P : Value → Prop) : (∀ v ∈ a.values, P v) ↔
    (∀ v ∈ a.untyped, P v) ∧ (∀ v ∈ a.switchOn, P v) ∧ (∀ v ∈ a.choice, P v) ∧
      ∀ e ∈ a.extra, P e.2 := by
  simp only [values, List.forall_mem_append, List.forall_mem_map, and_assoc]

theorem forall_untyped (a : Attr) (P : Value → Prop) : (∀ v ∈ a.untyped, P v) ↔
    P a.size ∧ P a.contents ∧ P a.valid ∧ P a.guard ∧ P a.value ∧ P a.repeatExpr ∧
      P a.repeatUntil ∧ P a.attrLen := by
  simp [untyped]

def integers (a : Attr) : List (Option Int) :=
  [a.terminator, a.sizeMin, a.sizeMax, a.repeatMin, a.repeatMax]

/-- An attribute whose integers fit a word and whose further keys are further keys. -/
structure Proper (a : Attr) : Prop where
  values : ∀ v ∈ a.values, v.Proper
  integers : ∀ v ∈ a.integers, ∀ i ∈ v, Word.isSigned i = true
  further : Decode.Further a.extra

theorem proper_of_untyped (a : Attr) (hv : ∀ v ∈ a.untyped, v.Proper) (hon : a.switchOn = [])
    (hchoice : a.choice = []) (hextra : a.extra = [])
    (hints : a.integers = [none, none, none, none, none]) : a.Proper := by
  refine ⟨(a.forall_values _).mpr ⟨hv, by simp [hon], by simp [hchoice], by simp [hextra]⟩,
    by simp [hints], ?_⟩
  rw [hextra]
  exact ⟨List.nodup_nil, by simp [Keyed.keys]⟩

structure Settled (a : Attr) : Prop where
  values : ∀ v ∈ a.values, v.Settled
  untyped : ∀ v ∈ a.untyped, Encode.isZero v = true → v = .null
  integers : ∀ v ∈ a.integers, ∀ i ∈ v, Word.isSigned i = true
  rangeMin : ∀ n ∈ a.rangeMin, n.Settled
  rangeMax : ∀ n ∈ a.rangeMax, n.Settled
  cases : (Keyed.keys (Decode.casesOf a.type)).Nodup
  further : Decode.Further a.extra

/-- The text of every part that is copied on its own is read as what it says, and no mapping has two
keys of one text. -/
structure Kept (a : Attr) : Prop where
  clear : ∀ v ∈ a.values, (Encode.value v).isClear = true
  cases : ∀ c ∈ Decode.casesOf a.type, (Encode.string c.2).Kept Decode.string

/-- An attribute with its untyped mappings in the order in which they are written. -/
def arranged (a : Attr) : Attr :=
  { a with
    type := a.type.map fun
      | .named name => .named name
      | .switch on cases => .switch on.arranged cases
    size := a.size.arranged
    contents := a.contents.arranged
    valid := a.valid.arranged
    guard := a.guard.arranged
    value := a.value.arranged
    repeatExpr := a.repeatExpr.arranged
    repeatUntil := a.repeatUntil.arranged
    attrLen := a.attrLen.arranged
    choice := a.choice.map Value.arranged
    extra := (Encode.byKey a.extra).map fun e => (e.1, e.2.arranged) }

end Attr

namespace Decode

open Decoder

theorem rereadInt_signed (v : Option Int) (h : ∀ i ∈ v, Word.isSigned i = true) :
    rereadInt v = pure v := by
  cases v with
  | none => rfl
  | some i =>
    have hi := h i rfl
    have hv := Yaml.plainValue_toString i (Yaml.intRange_signed i hi)
    have hlt : i < Word.half := by
      simp only [Word.isSigned, Bool.and_eq_true, decide_eq_true_eq] at hi
      exact hi.2
    simp only [rereadInt, Encode.plain, int?, Node.isNull, hv, Value.isNull, Node.scalarValue,
      intOf?, if_pos hlt]
    rfl

theorem gives_rereadInt (v : Option Int) (h : ∀ i ∈ v, Word.isSigned i = true) :
    Gives (rereadInt v) fun w => ∀ i ∈ w, Word.isSigned i = true := by
  rw [rereadInt_signed v h]
  exact gives_pure _ _ h

theorem numberNode_eq (n : Number) : ∃ style, Encode.numberNode n = .scalar 0 style n.text ∧
    (Node.scalar 0 style n.text).isNull = false := by
  unfold Encode.numberNode
  split
  next h => exact ⟨.plain, rfl, by simp only [Node.isNull, h, Value.isNull]⟩
  next => exact ⟨_, rfl, by simp only [Node.isNull]⟩
  next h => exact ⟨.plain, rfl, by simp only [Node.isNull, h, Value.isNull]⟩
  next => exact ⟨_, rfl, by simp only [Node.isNull]⟩

theorem number?_numberNode (n : Number) :
    number? (Encode.numberNode n) = match Number.ofText? n.text with
      | some v => pure (some v)
      | none => fail (.badNumber 0 n.text) := by
  obtain ⟨style, hn, hnull⟩ := numberNode_eq n
  cases h : Number.ofText? n.text <;> simp [hn, number?, hnull, h]

theorem gives_rereadNumber (n : Option Number) :
    Gives (rereadNumber n) fun m => ∀ x ∈ m, x.Settled := by
  cases n with
  | none => exact gives_pure _ _ (by simp)
  | some n =>
    rw [rereadNumber, number?_numberNode]
    split
    next v hv =>
      refine gives_pure _ _ fun x hx => ?_
      cases hx
      exact Number.settled_ofText? n v hv
    next => exact gives_throw _ _

theorem rereadNumber_settled (n : Option Number) (h : ∀ x ∈ n, x.Settled) :
    rereadNumber n = pure n := by
  cases n with
  | none => rfl
  | some n =>
    have hn : Number.ofText? n.text = some n := h n rfl
    rw [rereadNumber, number?_numberNode, hn]

theorem value_settled (v : Value) (h : v.Settled) (hc : (Encode.value v).isClear = true) :
    value (Encode.value v) = pure v.arranged :=
  Value.valueWithin_value v h hc _ (Nat.le_refl _)

theorem gives_isZero (v : Value) (hp : v.Proper) (hz : Encode.isZero v = false) (k : ℕ) :
    Gives (valueWithin k (Encode.value v)) fun w => Encode.isZero w = true → w = .null := by
  have collection : (Encode.value v).isScalar = false → Gives (valueWithin k (Encode.value v))
      fun w => Encode.isZero w = true → w = .null := fun hn =>
    gives_mono _ _ _ (Value.gives_isCollection k _ hn) fun w hw h => by cases w <;> cases hw <;> cases h
  have scalar : ∀ style t, Encode.isZero (Node.scalarValue style t) = false →
      Gives (valueWithin k (.scalar 0 style t)) fun w => Encode.isZero w = true → w = .null :=
    fun style t h => Value.gives_scalar _ _ _ _ _ fun h' => by rw [h] at h'; cases h'
  cases hp with
  | null => cases hz
  | int v hv => exact scalar _ _ (by rw [Node.scalarValue, Yaml.plainValue_toString v hv]; rfl)
  | float x =>
    refine scalar _ _ ?_
    rw [Node.scalarValue]
    rcases Yaml.plainValue_floatText x with ⟨v, -, h⟩ | h | h <;> rw [h] <;> rfl
  | bool b => cases b <;> exact scalar _ _ rfl
  | str s => exact scalar _ _ (by rw [Encode.scalarValue_string]; rfl)
  | time t ht =>
    refine scalar _ _ ?_
    rw [Node.scalarValue, Yaml.plainValue_time t ht]
    split
    · exact hz
    · rfl
  | list | map | table => exact collection rfl

theorem gives_rereadUntyped (v : Value) (hp : v.Proper) (hc : (Encode.value v).isClear = true) :
    Gives (rereadUntyped v) fun w => w.Settled ∧ (Encode.isZero w = true → w = .null) := by
  unfold rereadUntyped
  split
  · exact gives_pure _ _ ⟨.null, fun _ => rfl⟩
  next hz =>
    intro b w b' h
    exact ⟨Value.gives_value v hp hc _ b w b' h, gives_isZero v hp (by simpa using hz) _ b w b' h⟩

theorem rereadUntyped_settled (v : Value) (h : v.Settled) (hz : Encode.isZero v = true → v = .null)
    (hc : (Encode.value v).isClear = true) : rereadUntyped v = pure v.arranged := by
  unfold rereadUntyped
  split
  next h0 =>
    rw [hz h0]
    rfl
  next => exact value_settled v h hc

theorem gives_values (xs : List Value) (hp : ∀ v ∈ xs, v.Proper)
    (hc : ∀ v ∈ xs, (Encode.value v).isClear = true) :
    Gives ((Encode.values xs).mapM value) fun ys => ∀ v ∈ ys, v.Settled := by
  rw [Encode.values_eq]
  refine gives_mapM _ _ _ fun n hn => ?_
  obtain ⟨v, hv, rfl⟩ := List.mem_map.mp hn
  exact Value.gives_value v (hp v hv) (hc v hv) _

theorem values_settled (xs : List Value) (h : ∀ v ∈ xs, v.Settled)
    (hc : ∀ v ∈ xs, (Encode.value v).isClear = true) :
    (Encode.values xs).mapM value = pure (xs.map Value.arranged) := by
  rw [Encode.values_eq]
  exact mapM_pure value Encode.value Value.arranged xs fun v hv => value_settled v (h v hv) (hc v hv)

theorem gives_extra (es : Keyed Value) (he : Further es) (hp : ∀ e ∈ es, e.2.Proper)
    (hc : ∀ e ∈ es, (Encode.value e.2).isClear = true) :
    Gives ((Encode.byKey es).foldlM (fun m e => do
      return Keyed.set m e.1 (← value (Encode.value e.2))) [])
      fun m => Further m ∧ ∀ e ∈ m, e.2.Settled := by
  have hkeys : Gives ((Encode.byKey es).foldlM (fun m e => do
      return Keyed.set m e.1 (← value (Encode.value e.2))) [])
      fun m => Keyed.Each Value.Settled m ∧ ∀ k ∈ Keyed.keys m, k ∉ attrKeys := by
    refine gives_foldlM _ _ _ (fun e hmem m hm => ?_) _ ⟨Keyed.each_nil _, by simp [Keyed.keys]⟩
    have hmem := (Encode.byKey_perm es).mem_iff.mp hmem
    refine gives_bind _ _ _ _ (Value.gives_value _ (hp e hmem) (hc e hmem) _) fun v hv => ?_
    refine gives_pure _ _ ⟨Keyed.each_set _ m e.1 v hm.1 hv, fun k hk => ?_⟩
    rw [Keyed.keys_set] at hk
    split at hk
    · exact hm.2 k hk
    · rcases List.mem_append.mp hk with hk | hk
      · exact hm.2 k hk
      · rw [List.mem_singleton.mp hk]
        exact he.2 e.1 (List.mem_map_of_mem hmem)
  exact gives_mono _ _ _ hkeys fun m hm => ⟨⟨hm.1.1, hm.2⟩, hm.1.2⟩

theorem extra_settled (es : Keyed Value) (he : Further es) (h : ∀ e ∈ es, e.2.Settled)
    (hc : ∀ e ∈ es, (Encode.value e.2).isClear = true) :
    (Encode.byKey es).foldlM (fun m e => do
      return Keyed.set m e.1 (← value (Encode.value e.2)) : _ → _ → Decoder (Keyed Value)) []
      = pure ((Encode.byKey es).map fun e => (e.1, e.2.arranged)) := by
  rw [foldlM_pure _ (fun m e => Keyed.set m e.1 e.2.arranged) _ fun e hmem m => ?_,
    Keyed.foldl_set Value.arranged _ _ (Value.nodup_byKey es he.1) (by simp [Keyed.keys]),
    List.nil_append]
  have hmem := (Encode.byKey_perm es).mem_iff.mp hmem
  rw [value_settled e.2 (h e hmem) (hc e hmem), pure_bind]

theorem gives_rereadType (a : Attr) (hp : ∀ v ∈ a.switchOn, v.Proper)
    (hc : ∀ v ∈ a.switchOn, (Encode.value v).isClear = true) :
    Gives (rereadType a.type) fun t =>
      (∀ on cases, t = some (.switch on cases) → on.Settled) ∧ (Keyed.keys (casesOf t)).Nodup := by
  unfold Attr.switchOn at hp hc
  cases htype : a.type with
  | none => exact gives_pure _ _ ⟨nofun, List.nodup_nil⟩
  | some t =>
    cases t with
    | named name => exact gives_pure _ _ ⟨nofun, List.nodup_nil⟩
    | switch on cases =>
      rw [htype] at hp hc
      refine gives_bind _ _ (fun s => s.1.Settled ∧ (Keyed.keys s.2).Nodup) _ ?_ fun s hs => ?_
      · refine gives_inner _ _ _ ⟨.null, List.nodup_nil⟩ ?_
        refine gives_bind _ _ _ _ (Value.gives_value on (hp on (by simp)) (hc on (by simp)) _)
          fun on hon => ?_
        refine gives_bind _ _ _ _ (gives_keyedItems _ (fun _ => True) fun _ _ => gives_true _)
          fun m hm => ?_
        exact gives_pure _ _ ⟨hon, hm.1⟩
      · refine gives_pure _ _ ⟨fun on cases h => ?_, hs.2⟩
        cases h
        exact hs.1

theorem rereadType_settled (a : Attr) (h : a.Settled) (hk : a.Kept) :
    rereadType a.type = pure a.arranged.type := by
  obtain ⟨-, hon, -⟩ := (a.forall_values _).mp fun v hv => And.intro (h.values v hv) (hk.clear v hv)
  have hcases := h.cases
  unfold Attr.switchOn at hon
  unfold Attr.arranged
  cases htype : a.type with
  | none => rfl
  | some t =>
    cases t with
    | named name => rfl
    | switch on cases =>
      rw [htype] at hon hcases
      obtain ⟨hs, hc⟩ := hon on (by simp)
      have hitems : keyedItems (cases.map fun c => (c.1, pure c.2)) = pure cases := by
        rw [keyedItems_pure cases pure id hcases fun _ _ => rfl]
        simp
      rw [rereadType, value_settled on hs hc, hitems]
      rfl

theorem gives_rereadAttr (a : Attr) (hp : a.Proper) (hk : a.Kept) :
    Gives (rereadAttr a) Attr.Settled := by
  obtain ⟨huntyped, hon, hchoice, hextra⟩ :=
    (a.forall_values _).mp fun v hv => And.intro (hp.values v hv) (hk.clear v hv)
  have untyped : ∀ v ∈ a.untyped, Gives (rereadUntyped v)
      fun w => w.Settled ∧ (Encode.isZero w = true → w = .null) := fun v hv =>
    gives_rereadUntyped v (huntyped v hv).1 (huntyped v hv).2
  have integer : ∀ v ∈ a.integers, Gives (rereadInt v) fun w => ∀ i ∈ w, Word.isSigned i = true :=
    fun v hv => gives_rereadInt v (hp.integers v hv)
  unfold rereadAttr
  refine gives_bind _ _ _ _ (gives_rereadType a (fun v hv => (hon v hv).1) fun v hv => (hon v hv).2)
    fun type htype => ?_
  refine gives_bind _ _ _ _ (untyped a.size (by simp [Attr.untyped])) fun size hsize => ?_
  refine gives_bind _ _ _ _ (integer a.terminator (by simp [Attr.integers])) fun terminator hterm => ?_
  refine gives_bind _ _ _ _ (untyped a.contents (by simp [Attr.untyped])) fun contents hcont => ?_
  refine gives_bind _ _ _ _ (untyped a.valid (by simp [Attr.untyped])) fun valid hvalid => ?_
  refine gives_bind _ _ _ _ (untyped a.guard (by simp [Attr.untyped])) fun guard hguard => ?_
  refine gives_bind _ _ _ _ (untyped a.value (by simp [Attr.untyped])) fun val hval => ?_
  refine gives_bind _ _ _ _ (untyped a.repeatExpr (by simp [Attr.untyped])) fun expr hexpr => ?_
  refine gives_bind _ _ _ _ (untyped a.repeatUntil (by simp [Attr.untyped])) fun til htil => ?_
  refine gives_bind _ _ _ _ (gives_rereadNumber a.rangeMin) fun lo hlo => ?_
  refine gives_bind _ _ _ _ (gives_rereadNumber a.rangeMax) fun hi hhi => ?_
  refine gives_bind _ _ _ _ (integer a.sizeMin (by simp [Attr.integers])) fun sizeMin hsmin => ?_
  refine gives_bind _ _ _ _ (integer a.sizeMax (by simp [Attr.integers])) fun sizeMax hsmax => ?_
  refine gives_bind _ _ _ _ (integer a.repeatMin (by simp [Attr.integers])) fun repMin hrmin => ?_
  refine gives_bind _ _ _ _ (integer a.repeatMax (by simp [Attr.integers])) fun repMax hrmax => ?_
  refine gives_bind _ _ _ _ (untyped a.attrLen (by simp [Attr.untyped])) fun len hlen => ?_
  refine gives_bind _ _ _ _ (gives_values a.choice (fun v hv => (hchoice v hv).1)
    fun v hv => (hchoice v hv).2) fun choice hchoice => ?_
  refine gives_bind _ _ _ _ (gives_extra a.extra hp.further (fun e he => (hextra e he).1)
    fun e he => (hextra e he).2) fun extra hextra => ?_
  refine gives_pure _ _ ⟨?_, ?_, ?_, hlo, hhi, htype.2, hextra.1⟩
  · refine (Attr.forall_values _ _).mpr ⟨?_, ?_, hchoice, hextra.2⟩
    · exact (Attr.forall_untyped _ _).mpr
        ⟨hsize.1, hcont.1, hvalid.1, hguard.1, hval.1, hexpr.1, htil.1, hlen.1⟩
    · intro v hv
      unfold Attr.switchOn at hv
      split at hv
      next on cases h => exact List.mem_singleton.mp hv ▸ htype.1 on cases h
      next => simp at hv
  · exact (Attr.forall_untyped _ _).mpr
      ⟨hsize.2, hcont.2, hvalid.2, hguard.2, hval.2, hexpr.2, htil.2, hlen.2⟩
  · simpa [Attr.integers] using ⟨hterm, hsmin, hsmax, hrmin, hrmax⟩

theorem rereadAttr_settled (a : Attr) (h : a.Settled) (hk : a.Kept) :
    rereadAttr a = pure a.arranged := by
  obtain ⟨huntyped, -, hch, hex⟩ :=
    (a.forall_values _).mp fun v hv => And.intro (h.values v hv) (hk.clear v hv)
  have untyped : ∀ v ∈ a.untyped, rereadUntyped v = pure v.arranged := fun v hv =>
    rereadUntyped_settled v (huntyped v hv).1 (h.untyped v hv) (huntyped v hv).2
  have integer : ∀ v ∈ a.integers, rereadInt v = pure v :=
    fun v hv => rereadInt_signed v (h.integers v hv)
  have hchoice := values_settled a.choice (fun v hv => (hch v hv).1) fun v hv => (hch v hv).2
  have hextra := extra_settled a.extra h.further (fun e he => (hex e he).1) fun e he => (hex e he).2
  simp only [Attr.integers, List.forall_mem_cons] at integer
  obtain ⟨hsize, hcontents, hvalid, hguard, hvalue, hexpr, huntil, hlen⟩ :=
    (a.forall_untyped _).mp untyped
  obtain ⟨hterm, hsmin, hsmax, hrmin, hrmax, -⟩ := integer
  rw [rereadAttr, rereadType_settled a h hk, hsize, hterm, hcontents, hvalid, hguard, hvalue, hexpr,
    huntil, rereadNumber_settled _ h.rangeMin, rereadNumber_settled _ h.rangeMax, hsmin, hsmax, hrmin,
    hrmax, hlen, hchoice, hextra]
  rfl

end Decode

end FormatFuzz
