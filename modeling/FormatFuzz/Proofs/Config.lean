import FormatFuzz.Config
import FormatFuzz.Proofs.FileTree
import FormatFuzz.Proofs.Schema.Records

/-!
# Saved configurations

What a configuration comes back as when it was written to a directory and is looked for there. The
text is YAML's own affair: here it is taken to give back the node that was written, with its strings
and its integers. What is lost then is lost by the keys, which are left out when they are empty, and
whose defaults need not be.
-/

set_option autoImplicit false

namespace FormatFuzz

def Value.agrees : Value → Value → Bool
  | .str s, .str t => s == t
  | .int v, .int w => v == w
  | _, _ => false

namespace Yaml.Node

mutual

/-- Is the second node the first, read back from its text with its strings and its integers? -/
def regains : Node → Node → Bool
  | .scalar _ style text, .scalar _ style' text' =>
    text' == text && (scalarValue style text).agrees (scalarValue style' text)
  | .map _ es, .map _ fs => regainsEntries es fs
  | _, _ => false

def regainsEntries : List (Node × Node) → List (Node × Node) → Bool
  | [], [] => true
  | (k, v) :: es, (k', v') :: fs => k.regains k' && v.regains v' && regainsEntries es fs
  | _, _ => false

end

def isGiven (n : Node) : Except Token.Malformed (Option Node) → Bool
  | .ok (some m) => n.regains m
  | _ => false

theorem isGiven_iff (n : Node) (r : Except Token.Malformed (Option Node)) :
    n.isGiven r = true ↔ ∃ m, r = .ok (some m) ∧ n.regains m = true := by
  rcases r with e | _ | m <;> simp [isGiven]

end Yaml.Node

open Yaml (Node)

theorem Value.eq_of_agrees (v w : Value) (h : v.agrees w = true) : w = v ∧ v.isNull = false := by
  cases v <;> cases w <;> simp_all [Value.agrees, Value.isNull]

theorem Yaml.Node.regains_cases (n m : Node) (h : n.regains m = true) :
    (∃ l l' style style' t, n = .scalar l style t ∧ m = .scalar l' style' t ∧ n.isNull = false ∧
        m.isNull = false ∧ scalarValue style' t = scalarValue style t) ∨
      ∃ l l' es fs, n = .map l es ∧ m = .map l' fs ∧ regainsEntries es fs = true := by
  have present (l : Nat) (style : Yaml.Style) (t : String)
      (hv : (scalarValue style t).isNull = false) : (Node.scalar l style t).isNull = false := by
    cases style with
    | plain => exact hv
    | _ => rfl
  cases n with
  | seq => cases m <;> simp [regains] at h
  | scalar l style t =>
    cases m with
    | scalar l' style' t' =>
      rw [regains, Bool.and_eq_true, beq_iff_eq] at h
      obtain ⟨rfl, hv⟩ := h
      obtain ⟨hsame, hnull⟩ := Value.eq_of_agrees _ _ hv
      exact .inl ⟨l, l', style, style', t', rfl, rfl, present l style t' hnull,
        present l' style' t' (hsame ▸ hnull), hsame⟩
    | _ => simp [regains] at h
  | map l es =>
    cases m with
    | map l' fs =>
      rw [regains] at h
      exact .inr ⟨l, l', es, fs, rfl, rfl, h⟩
    | _ => simp [regains] at h

namespace Decode

variable {α : Type}

section
variable (n m : Node) (h : n.regains m = true)
include h

theorem string_regained : string m = string n := by
  obtain ⟨l, l', style, style', t, rfl, rfl, hn, hm, -⟩ | ⟨l, l', es, fs, rfl, rfl, -⟩ :=
    n.regains_cases m h
  · simp only [string, hn, hm]
  · rfl

theorem int?_regained : int? m = int? n := by
  obtain ⟨l, l', style, style', t, rfl, rfl, hn, hm, hv⟩ | ⟨l, l', es, fs, rfl, rfl, -⟩ :=
    n.regains_cases m h
  · simp only [int?, hn, hm, hv]
  · rfl

theorem uint?_regained : uint? m = uint? n := by
  obtain ⟨l, l', style, style', t, rfl, rfl, hn, hm, hv⟩ | ⟨l, l', es, fs, rfl, rfl, -⟩ :=
    n.regains_cases m h
  · simp only [uint?, hn, hm, hv]
  · rfl

theorem unlessNull_regained (old : String) :
    Config.unlessNull old string m = Config.unlessNull old string n := by
  have hnull : m.isNull = n.isNull := by
    obtain ⟨_, _, _, _, _, rfl, rfl, hn, hm, -⟩ | ⟨_, _, _, _, rfl, rfl, -⟩ := n.regains_cases m h
    · rw [hn, hm]
    · rfl
  rw [Config.unlessNull, Config.unlessNull, string_regained n m h, hnull]

theorem text_regained : m.text = n.text := by
  obtain ⟨l, l', style, style', t, rfl, rfl, -⟩ | ⟨l, l', es, fs, rfl, rfl, -⟩ :=
    n.regains_cases m h <;> rfl

end

theorem texts_regained (es fs : List (Node × Node)) (h : Node.regainsEntries es fs = true) :
    (fs.map fun e => e.1.text) = es.map fun e => e.1.text := by
  induction es generalizing fs with
  | nil =>
    cases fs with
    | nil => rfl
    | cons => simp [Node.regainsEntries] at h
  | cons e es ih =>
    cases fs with
    | nil => simp [Node.regainsEntries] at h
    | cons f fs =>
      simp only [Node.regainsEntries, Bool.and_eq_true] at h
      rw [List.map_cons, List.map_cons, ih fs h.2, text_regained _ _ h.1.1]

theorem named_regained (set : α → String → Node → Decoder α) (k k' v v' : Node)
    (hk : k.regains k' = true) (hset : ∀ a, set a k.text v' = set a k.text v) (a : α) :
    named set a k' v' = named set a k v := by
  obtain ⟨l, l', style, style', t, rfl, rfl, hn, hm, -⟩ | ⟨l, l', es, fs, rfl, rfl, -⟩ :=
    k.regains_cases k' hk
  · simp only [named, keyName, hn, hm, Bool.false_eq_true, if_false, pure_bind]
    exact hset a
  · rfl

theorem through_regained (set : α → String → Node → Decoder α) (es fs : List (Node × Node))
    (h : Node.regainsEntries es fs = true)
    (hset : ∀ e ∈ es, ∀ m, e.2.regains m = true → ∀ a, set a e.1.text m = set a e.1.text e.2)
    (a : α) : through set a fs = through set a es := by
  induction es generalizing fs a with
  | nil =>
    cases fs with
    | nil => rfl
    | cons => simp [Node.regainsEntries] at h
  | cons e es ih =>
    obtain ⟨k, v⟩ := e
    cases fs with
    | nil => simp [Node.regainsEntries] at h
    | cons f fs =>
      obtain ⟨k', v'⟩ := f
      simp only [Node.regainsEntries, Bool.and_eq_true] at h
      change (named set a k' v' >>= fun b => through set b fs)
        = named set a k v >>= fun b => through set b es
      rw [named_regained set k k' v v' h.1.1 (hset (k, v) (by simp) v' h.1.2)]
      exact bind_congr fun b => ih fs h.2 (fun e he => hset e (List.mem_cons_of_mem _ he)) b

theorem record_regained (empty : α) (set : α → String → Node → Decoder α) (keys : List String)
    (hkeys : keys.Nodup) (hmerge : Yaml.mergeText ∉ keys) (es : List (Node × Node))
    (h : Encode.Named keys es) (m : Node) (hm : (Node.map 0 es).regains m = true)
    (hset : ∀ e ∈ es, ∀ m, e.2.regains m = true → ∀ a, set a e.1.text m = set a e.1.text e.2) :
    record empty set m = through set empty es := by
  obtain ⟨_, _, _, _, _, hes, -⟩ | ⟨l, l', es', fs, hes, rfl, hfs⟩ := Node.regains_cases _ m hm
  · cases hes
  cases hes
  obtain ⟨names, hnames, hsub⟩ := h
  have htexts : (fs.map fun e => e.1.text) = names := by
    calc (fs.map fun e => e.1.text) = (es.map Prod.fst).map Node.text := by
          rw [texts_regained es fs hfs, List.map_map]
          rfl
      _ = names := by rw [hnames, List.map_map]; exact List.map_id names
  have hplain : ∀ e ∈ fs, e.1.isMerge = false := by
    intro e he
    have hmem : e.1.text ∈ names := htexts ▸ List.mem_map_of_mem (f := fun e => e.1.text) he
    have hne : e.1.text ≠ Yaml.mergeText := fun heq => hmerge (hsub.subset (heq ▸ hmem))
    unfold Node.isMerge
    split
    next t heq =>
      rw [heq] at hne
      exact Bool.and_eq_false_iff.mpr (.inr (beq_eq_false_iff_ne.mpr hne))
    next => rfl
  rw [record, fields_eq _ _ _ _ hplain (hasClash_of_nodup fs (htexts ▸ hsub.nodup hkeys))]
  exact through_regained set es fs hfs hset empty

end Decode

def Limits.Fit (l : Limits) : Prop :=
  ∀ v ∈ [l.sizeMin, l.sizeMax, l.repeatMin, l.repeatMax, l.untilMax],
    ∀ i ∈ v, Word.isSigned i = true

instance (l : Limits) : Decidable l.Fit :=
  inferInstanceAs (Decidable (∀ v ∈ _, ∀ i ∈ v, _))

namespace Config

structure Fits (c : Config) : Prop where
  seed : c.seed < Word.size
  limits : c.limits.Fit

def isRegained (c : Config) : Bool := c.node.isGiven (Node.parse c.text)

/-- A configuration with the defaults in place of what is empty. -/
def filled (c : Config) : Config :=
  { c with
    output := if c.output = "" then ({} : Config).output else c.output
    backend := if c.backend = "" then ({} : Config).backend else c.backend }

theorem filled_eq_iff (c : Config) : c.filled = c ↔ c.output ≠ "" ∧ c.backend ≠ "" := by
  constructor
  · intro h
    have ho : c.filled.output = c.output := by rw [h]
    have hb : c.filled.backend = c.backend := by rw [h]
    refine ⟨fun he => ?_, fun he => ?_⟩
    · simp [filled, he] at ho
    · simp [filled, he] at hb
  · rintro ⟨ho, hb⟩
    simp [filled, ho, hb]

def limitEntries (l : Limits) : List (Node × Node) :=
  Encode.integer "size-min" l.sizeMin ++ Encode.integer "size-max" l.sizeMax
    ++ Encode.integer "repeat-min" l.repeatMin ++ Encode.integer "repeat-max" l.repeatMax
    ++ Encode.integer "until-max" l.untilMax

def limitKeys : List String := ["size-min", "size-max", "repeat-min", "repeat-max", "until-max"]

theorem named_limitEntries (l : Limits) : Encode.Named limitKeys (limitEntries l) :=
  ((((Encode.named_integer _ _).append (Encode.named_integer _ _)).append
    (Encode.named_integer _ _)).append (Encode.named_integer _ _)).append
    (Encode.named_integer _ _)

theorem decodeLimits_node (l : Limits) (h : l.Fit) :
    decodeLimits {} (.map 0 (limitEntries l)) = pure l := by
  have hint : ∀ v ∈ [l.sizeMin, l.sizeMax, l.repeatMin, l.repeatMax, l.untilMax],
      Decode.rereadInt v = pure v := fun v hv => Decode.rereadInt_signed v (h v hv)
  simp only [List.forall_mem_cons] at hint
  obtain ⟨hsmin, hsmax, hrmin, hrmax, hmax, -⟩ := hint
  rw [decodeLimits, Decode.record_named _ _ limitKeys (by decide) _ (named_limitEntries l),
    limitEntries, ← List.append_nil (Encode.integer "until-max" l.untilMax)]
  simp only [List.append_assoc]
  rw [Decode.through_integer _ _ (fun l x => { l with sizeMin := x }) (fun _ _ => rfl) _ rfl,
    hsmin, pure_bind,
    Decode.through_integer _ _ (fun l x => { l with sizeMax := x }) (fun _ _ => rfl) _ rfl,
    hsmax, pure_bind,
    Decode.through_integer _ _ (fun l x => { l with repeatMin := x }) (fun _ _ => rfl) _ rfl,
    hrmin, pure_bind,
    Decode.through_integer _ _ (fun l x => { l with repeatMax := x }) (fun _ _ => rfl) _ rfl,
    hrmax, pure_bind,
    Decode.through_integer _ _ (fun l x => { l with untilMax := x }) (fun _ _ => rfl) _ rfl,
    hmax, pure_bind]
  rfl

theorem decodeLimits_regained (l old : Limits) (m : Node)
    (hm : (Node.map 0 (limitEntries l)).regains m = true) :
    decodeLimits old m = decodeLimits old (.map 0 (limitEntries l)) := by
  rw [decodeLimits, decodeLimits,
    Decode.record_named _ _ limitKeys (by decide) _ (named_limitEntries l),
    Decode.record_regained _ _ limitKeys (by decide) (by decide) _ (named_limitEntries l) m hm]
  intro e he m hm a
  split <;> first | rw [Decode.int?_regained _ m hm] | rfl

theorem limitEntries_eq_nil (l : Limits) (h : limitEntries l = []) : l = {} := by
  have none (key : String) (v : Option Int) (hv : Encode.integer key v = []) : v = none := by
    cases v with
    | none => rfl
    | some i => cases hv
  simp only [limitEntries, List.append_eq_nil_iff] at h
  obtain ⟨⟨⟨⟨hsmin, hsmax⟩, hrmin⟩, hrmax⟩, hmax⟩ := h
  obtain ⟨smin, smax, rmin, rmax, max⟩ := l
  rw [Limits.mk.injEq]
  exact ⟨none _ _ hsmin, none _ _ hsmax, none _ _ hrmin, none _ _ hrmax, none _ _ hmax⟩

def entries (c : Config) : List (Node × Node) :=
  Encode.integer "version" (some c.version) ++ Encode.text "output" c.output
    ++ Encode.text "backend" c.backend ++ Encode.text "package" c.package
    ++ Encode.integer "seed" (if c.seed = 0 then none else some (Int.ofNat c.seed))
    ++ Encode.entry "limits" (!(limitEntries c.limits).isEmpty) (.map 0 (limitEntries c.limits))

def keys : List String := ["version", "output", "backend", "package", "seed", "limits"]

theorem named_entries (c : Config) : Encode.Named keys c.entries :=
  (((((Encode.named_integer _ _).append (Encode.named_entry _ _ _)).append
    (Encode.named_entry _ _ _)).append (Encode.named_entry _ _ _)).append
    (Encode.named_integer _ _)).append (Encode.named_entry _ _ _)

section
variable {α : Type} (set : α → String → Node → Decoder α) (key : String)

theorem through_default (get : α → String) (put : α → String → α)
    (hset : ∀ a n, set a key n = unlessNull (get a) Decode.string n >>= fun x => pure (put a x))
    (a : α) (hput : put a (get a) = a) (s : String) (fs : List (Node × Node)) :
    Decode.through set a (Encode.text key s ++ fs)
      = Decode.through set (put a (if s = "" then get a else s)) fs := by
  by_cases hs : s = ""
  · rw [if_pos hs, hput, hs]
    rfl
  · have htext : Encode.text key s = [(Encode.string key, Encode.string s)] := by
      rw [Encode.text, Encode.entry, if_pos (by simpa using hs)]
    have hread : unlessNull (get a) Decode.string (Encode.string s) = pure s := by
      rw [unlessNull, Encode.isNull_string, Decode.string_string]
      rfl
    rw [htext, if_neg hs, List.singleton_append, Decode.through, List.foldlM_cons,
      Decode.named_string, hset, hread]
    rfl

theorem through_natural (put : α → Option Nat → α)
    (hset : ∀ a n, set a key n = Decode.uint? n >>= fun x => pure (put a x)) (a : α)
    (hput : put a (some 0) = a) (k : Nat) (hk : k < Word.size) (fs : List (Node × Node)) :
    Decode.through set a
        (Encode.integer key (if k = 0 then none else some (Int.ofNat k)) ++ fs)
      = Decode.through set (put a (some k)) fs := by
  by_cases h0 : k = 0
  · rw [if_pos h0, h0, hput]
    rfl
  · have hv := Yaml.plainValue_toString (Int.ofNat k) ⟨by simp, by simpa using hk⟩
    have huint : Decode.uint? (Encode.plain (toString (Int.ofNat k))) = pure (some k) := by
      simp only [Encode.plain, Decode.uint?, Node.isNull, hv, Value.isNull, Node.scalarValue,
        Decode.uintOf?]
      rfl
    rw [if_neg h0, Encode.integer, List.singleton_append, Decode.through, List.foldlM_cons,
      Decode.named_string, hset, huint]
    rfl

end

theorem limits_of_mem (c : Config) (e : Node × Node) (he : e ∈ c.entries)
    (hk : e.1.text = "limits") : e.2 = .map 0 (limitEntries c.limits) := by
  have hfront := ((((Encode.named_integer "version" (some c.version)).append
    (Encode.named_entry "output" (c.output ≠ "") (Encode.string c.output))).append
    (Encode.named_entry "backend" (c.backend ≠ "") (Encode.string c.backend))).append
    (Encode.named_entry "package" (c.package ≠ "") (Encode.string c.package))).append
    (Encode.named_integer "seed" (if c.seed = 0 then none else some (Int.ofNat c.seed)))
  rcases List.mem_append.mp he with he | he
  · obtain ⟨names, hnames, hsub⟩ := hfront
    obtain ⟨name, hname, hkey⟩ := List.mem_map.mp (hnames ▸ List.mem_map_of_mem (f := Prod.fst) he)
    rw [← hkey] at hk
    exact absurd (hsub.subset hname) (by rw [show name = "limits" from hk]; decide)
  · rw [Encode.entry] at he
    split at he
    next => rw [List.mem_singleton.mp he]
    next => cases he

theorem through_limits (set : Config → String → Node → Decoder Config)
    (hset : ∀ a n, set a "limits" n
      = decodeLimits a.limits n >>= fun x => pure { a with limits := x })
    (a : Config) (ha : a.limits = {}) (l : Limits) (h : l.Fit) :
    Decode.through set a
        (Encode.entry "limits" (!(limitEntries l).isEmpty) (.map 0 (limitEntries l)))
      = pure { a with limits := l } := by
  cases hl : limitEntries l with
  | nil =>
    rw [limitEntries_eq_nil l hl, ← ha]
    rfl
  | cons e es =>
    rw [← hl]
    have hkeep : (!(limitEntries l).isEmpty) = true := by rw [hl]; rfl
    rw [Encode.entry, if_pos hkeep]
    change (set a "limits" _ >>= pure) = _
    rw [hset, ha, decodeLimits_node l h]
    rfl

theorem decode_regained (c : Config) (hv : c.version = currentVersion) (h : c.Fits) (m : Node)
    (hm : c.node.regains m = true) : decode m = pure c.filled := by
  rw [decode, Decode.record_regained _ _ keys (by decide) (by decide) _ (named_entries c) m hm]
  · have hone : Decode.rereadInt (some c.version) = pure (some c.version) :=
      Decode.rereadInt_signed _ (by rw [hv]; decide)
    rw [entries]
    simp only [List.append_assoc]
    rw [Decode.through_integer _ _ (fun c x => { c with version := x.getD c.version })
        (fun _ _ => rfl) _ rfl, hone, pure_bind,
      through_default _ _ Config.output (fun c x => { c with output := x }) (fun _ _ => rfl) _ rfl,
      through_default _ _ Config.backend (fun c x => { c with backend := x }) (fun _ _ => rfl) _ rfl,
      through_default _ _ Config.package (fun c x => { c with package := x }) (fun _ _ => rfl) _ rfl,
      through_natural _ _ (fun c x => { c with seed := x.getD c.seed }) (fun _ _ => rfl) _ rfl
        c.seed h.seed]
    have hpackage : (if c.package = "" then "" else c.package) = c.package := by
      split <;> simp_all
    rw [through_limits _ (fun _ _ => rfl) _ rfl c.limits h.limits]
    simp only [hpackage]
    rfl
  · intro e he m hm a
    have hlimits := limits_of_mem c e he
    split
    next => rw [Decode.int?_regained _ m hm]
    next => rw [Decode.unlessNull_regained _ m hm]
    next => rw [Decode.unlessNull_regained _ m hm]
    next => rw [Decode.unlessNull_regained _ m hm]
    next => rw [Decode.uint?_regained _ m hm]
    next hk =>
      rw [hlimits hk] at hm ⊢
      rw [decodeLimits_regained c.limits a.limits m hm]
    next => rfl

theorem ofText_of_parse (text : String) (m : Node) (c : Config)
    (h : Node.parse text = .ok (some m)) (hm : decode m = pure c) : ofText text = .ok c := by
  unfold ofText
  simp only [h, hm, Decoder.alone_pure]

theorem ofText_text (c : Config) (hv : c.version = currentVersion) (h : c.Fits)
    (hr : c.isRegained = true) : ofText c.text = .ok c.filled := by
  obtain ⟨m, hm, hr⟩ := (Node.isGiven_iff _ _).mp hr
  exact ofText_of_parse c.text m c.filled hm (decode_regained c hv h m hr)

theorem version_of_validate (c : Config) (h : c.validate = .ok ()) : c.version = currentVersion := by
  by_contra hn
  rw [validate, if_pos hn] at h
  cases h

theorem read_saved (t u : FileTree) (hs : t.Sound) (text : String)
    (h : t.write? fileName text = some u) : u.read fileName = .ok text := by
  have hl : Path.Ends fileName fileName := ⟨⟨by decide, by decide, by decide⟩, [], by decide +kernel⟩
  have hin : FileTree.isOutside fileName = false := by decide +kernel
  have hdir : t.entry? (FileTree.segments (Path.dir fileName)) = some .dir := by
    rw [show FileTree.segments (Path.dir fileName) = [] by decide +kernel]
    exact t.entry_nil
  have h := t.set?_of_write fileName text u h
  have hsound := FileTree.sound_set hl hs (fun _ => hdir) h
  refine (u.read_clean hsound fileName (by decide +kernel) text).mpr
    ⟨[fileName], by decide +kernel, ?_⟩
  rw [(FileTree.entry_set hl hin hs hdir h _).2, if_pos (by decide +kernel)]

/-- A configuration that is valid is found where it was saved, with the defaults of an output and a
backend that are empty. So it comes back as it was unless one of the two is empty; seed, package and
limits always do, and it stays valid. -/
theorem find_saved_iff (t u : FileTree) (hs : t.Sound) (c : Config) (hv : c.validate = .ok ())
    (h : c.Fits) (hr : c.isRegained = true) (hw : t.write? fileName c.text = some u) :
    find u = .ok (c.filled, true) ∧
      (find u = .ok (c, true) ↔ c.output ≠ "" ∧ c.backend ≠ "") := by
  have hfilled : c.filled.validate = .ok () := hv
  have hfind : find u = .ok (c.filled, true) := by
    rw [find, read_saved t u hs c.text hw]
    dsimp only
    rw [ofText_text c (version_of_validate c hv) h hr]
    dsimp only
    rw [hfilled]
  refine ⟨hfind, ?_⟩
  rw [hfind, ← filled_eq_iff]
  simp

def everyKey : Config :=
  { output := "out", backend := "markdown", package := "fuzz", seed := 42,
    limits := { sizeMin := some 0, sizeMax := some 128 } }

theorem sound_empty : FileTree.empty.Sound := FileTree.sound_of_listed _ (by simp [FileTree.empty])

theorem find_saved_iff_everyKey :
    (FileTree.empty.write? fileName everyKey.text).map find = some (.ok (everyKey, true)) := by
  obtain ⟨u, hu⟩ := Option.isSome_iff_exists.mp
    (show (FileTree.empty.write? fileName everyKey.text).isSome = true by decide +kernel)
  have h := find_saved_iff FileTree.empty u sound_empty everyKey (by decide) ⟨by decide, by decide⟩
    (by decide +kernel) hu
  rw [hu, Option.map_some, h.2.mpr (by decide)]

/-- A configuration whose output is empty is found with the default output. -/
theorem saved_output_lost :
    ¬ ∀ (t u : FileTree) (c : Config), t.Sound → c.validate = .ok () → c.Fits →
      c.isRegained = true → t.write? fileName c.text = some u → find u = .ok (c, true) := by
  intro h
  have hmap : (FileTree.empty.write? fileName (text { output := "" })).map find
      = some (.ok ({}, true)) := by decide +kernel
  obtain ⟨u, hu, hfind⟩ := Option.map_eq_some_iff.mp hmap
  have hc := h FileTree.empty u { output := "" } sound_empty (by decide) ⟨by decide, by decide⟩
    (by decide +kernel) hu
  exact absurd (hfind.symm.trans hc) (by decide)

end Config
end FormatFuzz
