import FormatFuzz.Program.Source
import FormatFuzz.Proofs.Keyed
import FormatFuzz.Proofs.Model.GenerationOrder
import FormatFuzz.Proofs.Program.Names

/-!
# Names that a program declares outside of types

A program declares a structure and a constructor for every type, constants and a list for every enum,
variables for the encodings and the static instances, and three names of its own. Names that other
packages can see begin with a capital letter and the others with a small one, so the two kinds never
meet. The check of a model keeps the structures apart, and with them the constructors; every
encoding has one variable, and the statics of one type have the names of members.

Nothing keeps a structure from having the name of a constructor or of `Generate`, an enum from having
any name that is seen from outside, or a static instance from having the name of a static instance
of another type, of an encoding or of the context. The names of a program are pairwise distinct if
and only if none of this happens.
-/

set_option autoImplicit false

namespace FormatFuzz.Program

def structNames (m : Model) : List String :=
  m.types.map fun t => typeName t.path

def constructorNames (m : Model) : List String :=
  m.types.map fun t => "New" ++ typeName t.path

def enumNamesOf (t : TypeDef) (e : EnumDef) : List String :=
  e.members.map (fun k => memberConst ⟨t.path, e.name⟩ k.id) ++ [enumName ⟨t.path, e.name⟩ ++ "Values"]

def enumNames (m : Model) : List String :=
  m.types.flatMap fun t => t.enums.flatMap (enumNamesOf t)

def encodingNames (m : Model) : List String :=
  (encodings m).map Prod.snd

def staticNamesOf (m : Model) (t : TypeDef) : List String :=
  (t.instances.filter Instance.isStatic).map fun i => (NameTable.ofTypes m.types).static t i.id

def staticNames (m : Model) : List String :=
  m.types.flatMap (staticNamesOf m)

def packageName (s : Settings) : String := if s.package = "" then "main" else s.package

def visibleNames (m : Model) : List String :=
  structNames m ++ (constructorNames m ++ (enumNames m ++ ["Generate"]))

def internalNames (s : Settings) (m : Model) : List String :=
  encodingNames m ++ (staticNames m ++ ("fuzzContext" :: if packageName s = "main" then ["main"] else []))

def topNames (s : Settings) (m : Model) : List String :=
  visibleNames m ++ internalNames s m

/-- Lines of a program that declare a name outside of types. -/
inductive Declares (ls : Lines) (name : String) : Prop
  | type (h : "type " ++ name ++ " struct" ++ " \x7b" ∈ ls)
  | func (rest : String) (h : "func " ++ name ++ "(" ++ rest ∈ ls)
  | var (rest : String) (h : "var " ++ name ++ " = " ++ rest ∈ ls)
  | const (group : Lines) (rest : String) (h : ("const (" :: group ++ [")"]) <:+: ls)
      (hn : name ++ "\t" ++ rest ∈ group)
  | vars (group : Lines) (rest : String) (h : ("var (" :: group ++ [")"]) <:+: ls)
      (hn : name ++ "\t= " ++ rest ∈ group)

/-- What has to hold of the names of a model that no check looks at. -/
structure Unclashed (m : Model) : Prop where
  constructors : ∀ t ∈ m.types, ∀ u ∈ m.types, typeName t.path ≠ "New" ++ typeName u.path
  generate : ∀ t ∈ m.types, typeName t.path ≠ "Generate"
  enums : (enumNames m).Nodup
  visible : ∀ n ∈ enumNames m, n ∉ structNames m ∧ n ∉ constructorNames m ∧ n ≠ "Generate"
  statics : m.types.Pairwise fun t u => ∀ n ∈ staticNamesOf m t, n ∉ staticNamesOf m u
  internal : ∀ n ∈ staticNames m, n ∉ encodingNames m ∧ n ≠ "fuzzContext"

theorem nameClash?_none (seen ps : List TypePath) (h : nameClash? seen ps = none) :
    (ps.map typeName).Nodup ∧ ∀ p ∈ ps, ∀ q ∈ seen, typeName q ≠ typeName p := by
  induction ps generalizing seen with
  | nil => simp
  | cons p ps ih =>
    rw [nameClash?] at h
    split at h
    next => cases h
    next hfind =>
      obtain ⟨hn, hseen⟩ := ih (seen ++ [p]) h
      have hp : ∀ q ∈ seen, typeName q ≠ typeName p := by
        simpa using List.find?_eq_none.mp hfind
      refine ⟨List.nodup_cons.mpr ⟨fun hmem => ?_, hn⟩, List.forall_mem_cons.mpr ⟨hp, fun q hq r hr => ?_⟩⟩
      · obtain ⟨q, hq, heq⟩ := List.mem_map.mp hmem
        exact hseen q hq p (by simp) heq.symm
      · exact hseen q hq r (List.mem_append_left _ hr)

theorem nodup_structNames (m : Model) (h : checkModel m = .ok ()) : (structNames m).Nodup := by
  unfold checkModel at h
  split at h
  next => cases h
  next hclash =>
    have := (nameClash?_none [] _ hclash).1
    rwa [List.map_map] at this

theorem nodup_paths (m : Model) (h : (structNames m).Nodup) : (m.types.map TypeDef.path).Nodup := by
  have hmap : structNames m = (m.types.map TypeDef.path).map typeName := by
    rw [List.map_map]
    rfl
  rw [hmap] at h
  exact h.of_map typeName

theorem nodup_constructorNames (m : Model) (h : (structNames m).Nodup) :
    (constructorNames m).Nodup := by
  have hmap : constructorNames m = (structNames m).map ("New" ++ ·) := by
    rw [structNames, List.map_map]
    rfl
  rw [hmap]
  exact List.Nodup.map (fun a b hab => String.append_right_inj "New" |>.mp hab) h

theorem perm_insertVar (e : String × String) (ds : List (String × String)) :
    (insertVar e ds).Perm (e :: ds) := by
  induction ds with
  | nil => rfl
  | cons d ds ih =>
    rw [insertVar]
    split
    · rfl
    · exact (ih.cons d).trans (.swap e d ds)

theorem perm_encodings (m : Model) : (encodings m).Perm (encodingVars m) := by
  have step (es ds : List (String × String)) :
      (es.foldl (fun es e => insertVar e es) ds).Perm (es ++ ds) := by
    induction es generalizing ds with
    | nil => rfl
    | cons e es ih =>
      exact (ih _).trans (((perm_insertVar e ds).append_left es).trans List.perm_middle)
  simpa only [encodings, List.append_nil] using step (encodingVars m) []

/-- The canonical names of encodings, and the empty one that stands for an unknown encoding. -/
def canonicalNames : List String :=
  "" :: (.utf8 :: .ascii :: Encoding.parts.map .latin : List Encoding).map Encoding.name

theorem mem_canonicalNames (s : String) : Encoding.canonical s ∈ canonicalNames := by
  rw [Encoding.canonical, canonicalNames]
  cases h : Encoding.ofName? s with
  | none => exact List.mem_cons_self
  | some e =>
    refine List.mem_cons_of_mem _ (List.mem_map_of_mem ?_)
    cases e with
    | utf8 => exact List.mem_cons_self
    | ascii => simp
    | latin part =>
      have hpart : part ∈ Encoding.parts := by
        simp only [Encoding.ofName?] at h
        split at h
        · cases h
        · split at h
          · cases h
          · obtain ⟨p, hp, hpart⟩ := Option.map_eq_some_iff.mp h
            cases hpart
            unfold Encoding.part? at hp
            split at hp
            · exact List.mem_of_find?_eq_some hp
            · exact List.mem_of_find?_eq_some hp
            · cases hp
      simp [hpart]

theorem nodup_canonicalNames : (canonicalNames.map exportedName).Nodup := by decide +kernel

theorem encodingName_inj (a b : String) (h : encodingName a = encodingName b) :
    Encoding.canonical a = Encoding.canonical b :=
  List.inj_on_of_nodup_map nodup_canonicalNames (mem_canonicalNames a) (mem_canonicalNames b)
    ((String.append_right_inj "enc").mp h)

theorem mem_encodings (m : Model) (e : String × String) (h : e ∈ encodings m) :
    ∃ encoding, e = (Encoding.canonical encoding, encodingName encoding) := by
  obtain ⟨t, -, he⟩ :=
    List.mem_flatMap.mp (Keyed.mem_ofPairs _ e ((perm_encodings m).mem_iff.mp h))
  obtain ⟨f, -, rfl⟩ := List.mem_map.mp he
  exact ⟨f.encoding, rfl⟩

theorem encodingNames_eq (m : Model) (n : String) (h : n ∈ encodingNames m) :
    ∃ encoding, n = encodingName encoding := by
  obtain ⟨e, he, rfl⟩ := List.mem_map.mp h
  obtain ⟨encoding, rfl⟩ := mem_encodings m e he
  exact ⟨encoding, rfl⟩

theorem nodup_encodingNames (m : Model) : (encodingNames m).Nodup := by
  have hkeys : ((encodings m).map Prod.fst).Nodup :=
    ((perm_encodings m).map Prod.fst).nodup_iff.mpr (Keyed.nodup_ofPairs _)
  refine List.Nodup.map_on (fun d hd e he hde => ?_) (hkeys.of_map Prod.fst)
  obtain ⟨a, rfl⟩ := mem_encodings m d hd
  obtain ⟨b, rfl⟩ := mem_encodings m e he
  rw [encodingName, encodingName, encodingName_inj a b hde]

theorem compile_memberIds (o : Options) (set : SchemaSet) (m : Model)
    (h : Model.compile o set = .ok m) (t : TypeDef) (ht : t ∈ m.types) : (memberIds t).Nodup := by
  obtain ⟨b, -, hts⟩ := Model.compile_ok o set m h
  obtain ⟨_, rfl, -, hres⟩ := Resolve.types_ok [] b.types m.types hts
  obtain ⟨before, after, he⟩ := List.append_of_mem ht
  obtain ⟨u, -, later, -, hr⟩ := hres before t after he
  have hfields : t.fields.map Field.id = u.fields.map Field.id := by
    refine map_eq_of_forall₂ Field.id Field.id hr.fields.flip ?_
    rintro g f ⟨now, -, hs⟩
    exact Resolve.settled_id _ now f g hs
  have hinstances : t.instances.map Instance.id = u.instances.map Instance.id :=
    map_eq_of_forall₂ Instance.id Instance.id hr.instances.flip fun j i hij =>
      (Resolve.instanceDeps_ok t i j hij).1
  rw [memberIds, hfields, hinstances, ← hr.refs]
  exact hr.nodup

section

variable (m : Model) (hpaths : (m.types.map TypeDef.path).Nodup)
  (hids : ∀ t ∈ m.types, (memberIds t).Nodup)

include hpaths hids

theorem staticNamesOf_eq (t : TypeDef) (ht : t ∈ m.types) (i : Instance) (hi : i ∈ t.instances) :
    ∃ e ∈ memberNames t, e.1 = i.id ∧
      (NameTable.ofTypes m.types).static t i.id = hiddenName (typeName t.path) ++ e.2 := by
  have hfst : (memberNames t).map Prod.fst = memberIds t := assignNames_fst _ _
  have hid : i.id ∈ (memberNames t).map Prod.fst := by
    rw [hfst]
    exact List.mem_append_right _ (List.mem_map_of_mem hi)
  obtain ⟨e, he, heq⟩ := List.mem_map.mp hid
  refine ⟨e, he, heq, ?_⟩
  rw [NameTable.static, ← heq, NameTable.member_eq m.types hpaths t ht (hids t ht) e he]

theorem nodup_staticNamesOf (t : TypeDef) (ht : t ∈ m.types) : (staticNamesOf m t).Nodup := by
  have hinst : (t.instances.map Instance.id).Nodup := (List.nodup_append.mp (hids t ht)).2.1
  have hstatic : (t.instances.filter Instance.isStatic).Nodup :=
    (hinst.of_map Instance.id).filter _
  refine List.Nodup.map_on (fun i hi j hj hij => ?_) hstatic
  have hi := (List.mem_filter.mp hi).1
  have hj := (List.mem_filter.mp hj).1
  obtain ⟨e, he, hei, hie⟩ := staticNamesOf_eq m hpaths hids t ht i hi
  obtain ⟨f, hf, hfj, hjf⟩ := staticNamesOf_eq m hpaths hids t ht j hj
  rw [hie, hjf] at hij
  have hsnd : e.2 = f.2 := (String.append_right_inj _).mp hij
  -- two ids of one name are one id, and two instances of one id are one instance
  have hef : e = f :=
    List.inj_on_of_nodup_map (nodup_assignNames (accessorNames t) (memberIds t)).1 he hf hsnd
  exact List.inj_on_of_nodup_map hinst hi hj (by rw [← hei, ← hfj, hef])

theorem nodup_staticNames : (staticNames m).Nodup ↔
    m.types.Pairwise fun t u => ∀ n ∈ staticNamesOf m t, n ∉ staticNamesOf m u := by
  rw [staticNames, List.nodup_flatMap]
  constructor
  · exact fun h => h.2.imp fun hd n hn hn' => hd hn hn'
  · exact fun h => ⟨fun t ht => nodup_staticNamesOf m hpaths hids t ht, h.imp fun hd n hn hn' => hd n hn hn'⟩

end

theorem isExported_visibleNames (m : Model) : ∀ n ∈ visibleNames m, IsExported n := by
  intro n hn
  simp only [visibleNames, List.mem_append, List.mem_singleton] at hn
  rcases hn with hn | hn | hn | rfl
  · obtain ⟨t, -, rfl⟩ := List.mem_map.mp hn
    exact isExported_typeName t.path
  · obtain ⟨t, -, rfl⟩ := List.mem_map.mp hn
    exact IsExported.append _ _ ⟨'N', _, rfl, rfl⟩
  · obtain ⟨t, -, hn⟩ := List.mem_flatMap.mp hn
    obtain ⟨e, -, hn⟩ := List.mem_flatMap.mp hn
    have henum : IsExported (enumName ⟨t.path, e.name⟩) := (isExported_typeName t.path).append _ _
    rcases List.mem_append.mp hn with hn | hn
    · obtain ⟨k, -, rfl⟩ := List.mem_map.mp hn
      exact henum.append _ _
    · rw [List.mem_singleton.mp hn]
      exact henum.append _ _
  · exact ⟨'G', _, rfl, rfl⟩

theorem isInternal_internalNames (s : Settings) (m : Model) :
    ∀ n ∈ internalNames s m, IsInternal n := by
  intro n hn
  simp only [internalNames, List.mem_append, List.mem_cons] at hn
  rcases hn with hn | hn | rfl | hn
  · obtain ⟨encoding, rfl⟩ := encodingNames_eq m n hn
    exact IsInternal.append _ _ ⟨'e', _, rfl, rfl⟩
  · obtain ⟨t, -, hn⟩ := List.mem_flatMap.mp hn
    obtain ⟨i, -, rfl⟩ := List.mem_map.mp hn
    exact (isInternal_hiddenName _ (isExported_typeName t.path)).append _ _
  · exact ⟨'f', _, rfl, rfl⟩
  · split at hn
    · rw [List.mem_singleton.mp hn]
      exact ⟨'m', _, rfl, rfl⟩
    · cases hn

theorem mem_mainNames (s : Settings) (n : String)
    (h : n ∈ if packageName s = "main" then ["main"] else []) : n = "main" := by
  split at h
  · exact List.mem_singleton.mp h
  · cases h

theorem encodingNames_fixed (m : Model) :
    "fuzzContext" ∉ encodingNames m ∧ "main" ∉ encodingNames m := by
  have first : ∀ n ∈ encodingNames m, n.toList.head? = some 'e' := by
    intro n hn
    obtain ⟨encoding, rfl⟩ := encodingNames_eq m n hn
    simp [encodingName]
  constructor
  · intro h
    have := first _ h
    simp at this
  · intro h
    have := first _ h
    simp at this

section

variable (m : Model) (hpaths : (m.types.map TypeDef.path).Nodup)
  (hids : ∀ t ∈ m.types, (memberIds t).Nodup)

include hpaths hids

theorem staticNames_main : "main" ∉ staticNames m := by
  intro h
  obtain ⟨t, ht, h⟩ := List.mem_flatMap.mp h
  obtain ⟨i, hi, h⟩ := List.mem_map.mp h
  obtain ⟨e, he, -, hname⟩ := staticNamesOf_eq m hpaths hids t ht i (List.mem_filter.mp hi).1
  obtain ⟨c, cs, hc, hup⟩ := isExported_assignNames _ _ e he
  have hmem : c ∈ "main".toList := by
    rw [← h, hname, String.toList_append, hc]
    simp
  have small : "main".toList.any Char.isUpper = false := by decide
  exact List.any_eq_false.mp small c hmem hup

theorem nodup_internalNames (s : Settings) : (internalNames s m).Nodup ↔
    (m.types.Pairwise fun t u => ∀ n ∈ staticNamesOf m t, n ∉ staticNamesOf m u) ∧
      ∀ n ∈ staticNames m, n ∉ encodingNames m ∧ n ≠ "fuzzContext" := by
  have hmain : ("fuzzContext" :: if packageName s = "main" then ["main"] else []).Nodup := by
    split <;> decide
  obtain ⟨hcontext, hmain'⟩ := encodingNames_fixed m
  have hstatic := staticNames_main m hpaths hids
  rw [internalNames, List.nodup_append', List.nodup_append', nodup_staticNames m hpaths hids]
  constructor
  · rintro ⟨-, ⟨hst, -, hfix⟩, henc⟩
    refine ⟨hst, fun n hn => ⟨fun he => henc he (List.mem_append_left _ hn), ?_⟩⟩
    rintro rfl
    exact hfix hn (by simp)
  · rintro ⟨hst, hint⟩
    refine ⟨nodup_encodingNames m, ⟨hst, hmain, fun n hn hn' => ?_⟩, fun n hn hn' => ?_⟩
    · rcases List.mem_cons.mp hn' with rfl | hn'
      · exact (hint _ hn).2 rfl
      · exact hstatic (mem_mainNames s n hn' ▸ hn)
    · rcases List.mem_append.mp hn' with hn' | hn'
      · exact (hint n hn').1 hn
      · rcases List.mem_cons.mp hn' with rfl | hn'
        · exact hcontext hn
        · exact hmain' (mem_mainNames s n hn' ▸ hn)

end

theorem nodup_visibleNames (m : Model) (h : (structNames m).Nodup) : (visibleNames m).Nodup ↔
    (∀ t ∈ m.types, ∀ u ∈ m.types, typeName t.path ≠ "New" ++ typeName u.path) ∧
      (∀ t ∈ m.types, typeName t.path ≠ "Generate") ∧ (enumNames m).Nodup ∧
      ∀ n ∈ enumNames m, n ∉ structNames m ∧ n ∉ constructorNames m ∧ n ≠ "Generate" := by
  have hgenerate : "Generate" ∉ constructorNames m := by
    intro hmem
    obtain ⟨t, -, ht⟩ := List.mem_map.mp hmem
    have := congrArg (fun s => s.toList.head?) ht
    simp at this
  rw [visibleNames, List.nodup_append', List.nodup_append', List.nodup_append']
  constructor
  · rintro ⟨-, ⟨-, ⟨henums, -, hgen⟩, hcons⟩, hstruct⟩
    refine ⟨fun t ht u hu heq => ?_, fun t ht heq => ?_, henums, fun n hn => ⟨fun hs => ?_, fun hc => ?_, ?_⟩⟩
    · have hs : "New" ++ typeName u.path ∈ structNames m := heq ▸ List.mem_map_of_mem ht
      exact hstruct hs (List.mem_append_left _ (List.mem_map_of_mem hu))
    · have hs : "Generate" ∈ structNames m := heq ▸ List.mem_map_of_mem ht
      exact hstruct hs (by simp)
    · exact hstruct hs (by simp [hn])
    · exact hcons hc (by simp [hn])
    · rintro rfl
      exact hgen hn (by simp)
  · rintro ⟨hcons, hgen, henums, hvisible⟩
    refine ⟨h, ⟨nodup_constructorNames m h, ⟨henums, by simp, fun n hn hn' => ?_⟩, fun n hn hn' => ?_⟩,
      fun n hn hn' => ?_⟩
    · exact (hvisible n hn).2.2 (List.mem_singleton.mp hn')
    · rcases List.mem_append.mp hn' with hn' | hn'
      · exact (hvisible n hn').2.1 hn
      · exact hgenerate (List.mem_singleton.mp hn' ▸ hn)
    · rcases List.mem_append.mp hn' with hn' | hn'
      · obtain ⟨t, ht, rfl⟩ := List.mem_map.mp hn
        obtain ⟨u, hu, heq⟩ := List.mem_map.mp hn'
        exact hcons t ht u hu heq.symm
      · rcases List.mem_append.mp hn' with hn' | hn'
        · exact (hvisible n hn').1 hn
        · obtain ⟨t, ht, rfl⟩ := List.mem_map.mp hn
          exact hgen t ht (List.mem_singleton.mp hn')

theorem nodup_topNames (o : Options) (set : SchemaSet) (m : Model) (s : Settings)
    (h : Model.compile o set = .ok m) (hc : checkModel m = .ok ()) :
    (topNames s m).Nodup ↔ Unclashed m := by
  have hstruct := nodup_structNames m hc
  have hpaths := nodup_paths m hstruct
  have hids := compile_memberIds o set m h
  have hletters : (visibleNames m).Disjoint (internalNames s m) := fun n hn hn' =>
    (isExported_visibleNames m n hn).not_internal n (isInternal_internalNames s m n hn')
  rw [topNames, List.nodup_append', nodup_visibleNames m hstruct, nodup_internalNames m hpaths hids s]
  constructor
  · rintro ⟨⟨h₁, h₂, h₃, h₄⟩, ⟨h₅, h₆⟩, -⟩
    exact ⟨h₁, h₂, h₃, h₄, h₅, h₆⟩
  · rintro ⟨h₁, h₂, h₃, h₄, h₅, h₆⟩
    exact ⟨⟨h₁, h₂, h₃, h₄⟩, ⟨h₅, h₆⟩, hletters⟩

theorem Declares.mono (ls ls' : Lines) (name : String) (h : ls <:+: ls') (hd : Declares ls name) :
    Declares ls' name := by
  cases hd with
  | type hl => exact .type (h.subset hl)
  | func rest hl => exact .func rest (h.subset hl)
  | var rest hl => exact .var rest (h.subset hl)
  | const group rest hg hn => exact .const group rest (hg.trans h) hn
  | vars group rest hg hn => exact .vars group rest (hg.trans h) hn

theorem Declares.left (ls ls' : Lines) (name : String) (h : Declares ls name) :
    Declares (ls ++ ls') name :=
  h.mono ls _ name (List.prefix_append ls ls').isInfix

theorem Declares.right (ls ls' : Lines) (name : String) (h : Declares ls' name) :
    Declares (ls ++ ls') name :=
  h.mono ls' _ name (List.suffix_append ls ls').isInfix

theorem Declares.flatMap {α : Type} (f : α → Lines) (xs : List α) (x : α) (hx : x ∈ xs)
    (name : String) (h : Declares (f x) name) : Declares (xs.flatMap f) name := by
  induction xs with
  | nil => cases hx
  | cons y ys ih =>
    rw [List.flatMap_cons]
    rcases List.mem_cons.mp hx with rfl | hx
    · exact h.left _ _ _
    · exact (ih hx).right _ _ _

def Plan.lookUp (p : Plan) : Infer := fun t i =>
  match p.known[(t.path, i.id)]? with
  | some type => .ok type
  | none => .error (.selfReference i.id)

theorem learn_eq (p : Plan) (x : TypeDef × Instance) :
    p.learn x = match exprCode p.lookUp (p.instanceFrame x.1 x.2) x.2.value with
      | .ok v => { p with known := p.known.insert (x.1.path, x.2.id) v.type }
      | .error _ => p := rfl

theorem settle_keeps (P : Plan → Prop) (is : List (TypeDef × Instance))
    (h : ∀ x ∈ is, ∀ p, P p → P (p.learn x)) (fuel : Nat) (p : Plan) (hp : P p) :
    P (Plan.settle is fuel p) := by
  have fold (xs : List (TypeDef × Instance)) (hxs : ∀ x ∈ xs, ∀ p, P p → P (p.learn x)) (p : Plan)
      (hp : P p) : P (xs.foldl Plan.learn p) := by
    induction xs generalizing p with
    | nil => exact hp
    | cons x xs ih =>
      obtain ⟨hx, hxs⟩ := List.forall_mem_cons.mp hxs
      exact ih hxs _ (hx p hp)
  induction fuel generalizing is p with
  | zero => exact hp
  | succ fuel ih =>
    have hleft : ∀ x ∈ is.filter fun x => !p.known.contains (x.1.path, x.2.id),
        ∀ p, P p → P (p.learn x) := fun x hx => h x (List.mem_filter.mp hx).1
    rw [Plan.settle]
    split
    · exact hp
    · refine ih _ hleft _ (fold _ (List.forall_mem_append.mpr ⟨hleft, fun x hx => ?_⟩) p hp)
      exact hleft x (List.mem_reverse.mp hx)

theorem names_learn (p : Plan) (x : TypeDef × Instance) : (p.learn x).names = p.names := by
  unfold Plan.learn
  dsimp only
  split <;> rfl

theorem names_ofModel (m : Model) : (Plan.ofModel m).names = NameTable.ofTypes m.types :=
  settle_keeps (·.names = NameTable.ofTypes m.types) _ (fun x _ p h => (names_learn p x).trans h) _ _
    rfl

theorem mem_documented (doc l : String) : l ∈ documented doc l := by
  unfold documented
  split <;> simp

theorem enumLines_declares (t : TypeDef) (e : EnumDef) (n : String) (h : n ∈ enumNamesOf t e) :
    Declares (enumLines t e) n := by
  rcases List.mem_append.mp h with h | h
  · obtain ⟨k, hk, rfl⟩ := List.mem_map.mp h
    have hline : memberConst ⟨t.path, e.name⟩ k.id ++ "\tint64\t= " ++ toString k.value
        = memberConst ⟨t.path, e.name⟩ k.id ++ "\t" ++ ("int64\t= " ++ toString k.value) := by
      rw [← String.toList_inj]
      simp
    refine .const (e.members.flatMap fun k => documented k.doc
      (memberConst ⟨t.path, e.name⟩ k.id ++ "\tint64\t= " ++ toString k.value)) _ ?_
      (List.mem_flatMap.mpr ⟨k, hk, by rw [← hline]; exact mem_documented _ _⟩)
    simp only [enumLines, apart, List.append_assoc, List.cons_append, List.nil_append]
    exact ⟨[_, _], _, by simp only [List.cons_append, List.nil_append, List.append_assoc]; rfl⟩
  · rw [List.mem_singleton.mp h]
    have hline : "var " ++ (enumName ⟨t.path, e.name⟩ ++ "Values") ++ " = []int64\x7b"
        = "var " ++ (enumName ⟨t.path, e.name⟩ ++ "Values") ++ " = " ++ "[]int64\x7b" := by
      rw [← String.toList_inj]
      simp
    refine .var "[]int64\x7b" ?_
    rw [← hline]
    simp [enumLines, apart]

theorem varLines_declares (decls : Lines) (n rest : String) (h : n ++ "\t= " ++ rest ∈ decls) :
    Declares (varLines decls) n := by
  have hne : decls.isEmpty = false := by
    cases decls with
    | nil => cases h
    | cons d ds => rfl
  refine .vars decls rest ?_ h
  rw [varLines, hne]
  exact ⟨[""], [], by simp [apart]⟩

theorem encodingLines_declares (m : Model) (n : String) (h : n ∈ encodingNames m) :
    Declares (encodingLines m) n := by
  obtain ⟨e, he, rfl⟩ := List.mem_map.mp h
  exact varLines_declares _ _ _ (List.mem_map.mpr ⟨e, he, rfl⟩)

theorem staticLines_declares (p : Plan) (t : TypeDef) (ls : Lines) (h : staticLines p t = .ok ls)
    (i : Instance) (hi : i ∈ t.instances.filter Instance.isStatic) :
    ∃ rest, p.names.static t i.id ++ "\t= " ++ rest ∈ ls := by
  obtain ⟨decls, hdecls, h⟩ := (bind_eq_ok _ _ _).mp h
  obtain rfl := (pure_eq_ok _ _).mp h
  obtain ⟨d, hd, hi⟩ := forall₂_mem_left _ _ _ (mapM_eq_ok _ _ _ hdecls) i hi
  obtain ⟨v, -, hi⟩ := (bind_eq_ok _ _ _).mp hi
  obtain rfl := (pure_eq_ok _ _).mp hi
  exact ⟨v.typed, List.mem_flatten.mpr ⟨_, hd, mem_documented _ _⟩⟩

theorem typeLines_declares (p : Plan) (t : TypeDef) (ls : Lines) (h : typeLines p t = .ok ls) :
    Declares ls (typeName t.path) ∧ Declares ls ("New" ++ typeName t.path) := by
  obtain ⟨instances, -, h⟩ := (bind_eq_ok _ _ _).mp h
  obtain ⟨pool, -, h⟩ := (bind_eq_ok _ _ _).mp h
  obtain ⟨fields, -, h⟩ := (bind_eq_ok _ _ _).mp h
  obtain ⟨computed, -, h⟩ := (bind_eq_ok _ _ _).mp h
  obtain rfl := (pure_eq_ok _ _).mp h
  refine ⟨.type ?_, ?_⟩
  · simp [structLines, apart, block]
  · let signature := "ctx *fuzzContext, parent " ++ parentType p.toModel t ++ ", root " ++ rootType t
      ++ ") (*" ++ typeName t.path ++ ", error)" ++ " \x7b"
    have hline : "func New" ++ typeName t.path ++ "(ctx *fuzzContext, parent "
          ++ parentType p.toModel t ++ ", root " ++ rootType t ++ ") (*" ++ typeName t.path ++ ", error)"
          ++ " \x7b"
        = "func " ++ ("New" ++ typeName t.path) ++ "(" ++ signature := by
      rw [← String.toList_inj]
      simp [signature]
    refine .func signature ?_
    rw [← hline]
    simp [constructorLines, apart, block]

theorem typeParts_ok (p : Plan) (ts : List TypeDef) (statics types : Lines)
    (h : typeParts p ts = .ok (statics, types)) (t : TypeDef) (ht : t ∈ ts) :
    ∃ st ty, staticLines p t = .ok st ∧ typeLines p t = .ok ty ∧ st ⊆ statics ∧ ty <:+: types := by
  induction ts generalizing statics types with
  | nil => cases ht
  | cons u ts ih =>
    obtain ⟨st, hst, h⟩ := (bind_eq_ok _ _ _).mp h
    obtain ⟨ty, hty, h⟩ := (bind_eq_ok _ _ _).mp h
    obtain ⟨⟨sts, tys⟩, hrest, h⟩ := (bind_eq_ok _ _ _).mp h
    obtain ⟨rfl, rfl⟩ := Prod.mk.inj ((pure_eq_ok _ _).mp h)
    rcases List.mem_cons.mp ht with rfl | ht
    · exact ⟨st, ty, hst, hty, List.subset_append_left _ _, ⟨[], tys, by simp⟩⟩
    · obtain ⟨st', ty', hst', hty', hsub, hinfix⟩ := ih sts tys hrest ht
      exact ⟨st', ty', hst', hty', fun x hx => List.mem_append_right _ (hsub hx),
        hinfix.trans ⟨ty, [], by simp⟩⟩

theorem draft_ok (s : Settings) (m : Model) (ls : Lines) (h : draft s m = .ok ls) :
    checkModel m = .ok () ∧ ∃ head id root statics types,
      typeParts (.ofModel m) m.types = .ok (statics, types) ∧
      ls = head ++ contextLines m ++ m.types.flatMap (fun t => t.enums.flatMap (enumLines t))
        ++ encodingLines m ++ varLines statics ++ types ++ generateLines id root
        ++ if packageName s = "main" then mainLines id s.seed else [] := by
  obtain ⟨u, hcheck, h⟩ := (bind_eq_ok _ _ _).mp h
  obtain ⟨⟨statics, types⟩, hparts, h⟩ := (bind_eq_ok _ _ _).mp h
  exact ⟨hcheck, _, _, _, statics, types, hparts, ((pure_eq_ok _ _).mp h).symm⟩

theorem topNames_declared (s : Settings) (m : Model) (ls : Lines) (h : draft s m = .ok ls)
    (n : String) (hn : n ∈ topNames s m) : Declares ls n := by
  obtain ⟨-, head, id, root, statics, types, hparts, rfl⟩ := draft_ok s m ls h
  have part := typeParts_ok _ _ statics types hparts
  simp only [topNames, visibleNames, internalNames, List.mem_append, List.mem_cons,
    List.not_mem_nil, or_false] at hn
  rcases hn with (hn | hn | hn | rfl) | (hn | hn | rfl | hn)
  · obtain ⟨t, ht, rfl⟩ := List.mem_map.mp hn
    obtain ⟨-, ty, -, hty, -, hinfix⟩ := part t ht
    exact .left _ _ _ (.left _ _ _ (.right _ _ _ ((typeLines_declares _ t ty hty).1.mono _ _ _ hinfix)))
  · obtain ⟨t, ht, rfl⟩ := List.mem_map.mp hn
    obtain ⟨-, ty, -, hty, -, hinfix⟩ := part t ht
    exact .left _ _ _ (.left _ _ _ (.right _ _ _ ((typeLines_declares _ t ty hty).2.mono _ _ _ hinfix)))
  · obtain ⟨t, ht, hn⟩ := List.mem_flatMap.mp hn
    obtain ⟨e, he, hn⟩ := List.mem_flatMap.mp hn
    iterate 5 apply Declares.left
    apply Declares.right
    exact .flatMap _ _ t ht _ (.flatMap _ _ e he _ (enumLines_declares t e n hn))
  · refine .left _ _ _ (.right _ _ _ (.func "r *fzrt.Rand) (fzrt.Encoder, error) \x7b" ?_))
    simp [generateLines, apart, block]
  · iterate 4 apply Declares.left
    exact .right _ _ _ (encodingLines_declares m n hn)
  · obtain ⟨t, ht, hn⟩ := List.mem_flatMap.mp hn
    obtain ⟨i, hi, rfl⟩ := List.mem_map.mp hn
    obtain ⟨st, -, hst, -, hsub, -⟩ := part t ht
    obtain ⟨rest, hrest⟩ := staticLines_declares _ t st hst i hi
    rw [names_ofModel] at hrest
    iterate 3 apply Declares.left
    exact .right _ _ _ (varLines_declares statics _ rest (hsub hrest))
  · iterate 6 apply Declares.left
    refine .right _ _ _ (.type ?_)
    simp [contextLines, apart, block]
  · obtain rfl := mem_mainNames s n hn
    refine .right _ _ _ (.func ") \x7b" ?_)
    split at hn
    next hmain =>
      rw [if_pos hmain]
      simp [mainLines, apart, block]
    next => cases hn

/-- An enum with a member that is named as the list of its values is. -/
def listed : SchemaSet where
  main := ⟨"packet.ksy", .mk
    { head := { Meta.empty with id := "packet" }
      enums := [("kind", [⟨1, .short "values", 0⟩, ⟨2, .short "other", 0⟩])] } []⟩
  imported := []

theorem listed_compiles : ∃ m ls, Model.compile {} listed = .ok m ∧ draft {} m = .ok ls ∧
    ¬ (enumNames m).Nodup := by
  obtain ⟨m, hm, hview⟩ := exists_ok_of_toOption_map (Model.compile {} listed)
    (fun m => ((draft {} m).toBool, enumNames m))
    (true, ["PacketKindValues", "PacketKindOther", "PacketKindValues"]) (by decide +kernel)
  obtain ⟨hdraft, hnames⟩ := Prod.mk.inj hview
  cases hd : draft {} m with
  | error e =>
    rw [hd] at hdraft
    cases hdraft
  | ok ls => exact ⟨m, ls, hm, hd, by rw [hnames]; decide⟩

/-- A program can declare a name twice although its model passes the check. -/
theorem topNames_clash : ∃ m ls, Model.compile {} listed = .ok m ∧ draft {} m = .ok ls ∧
    ¬ (topNames {} m).Nodup := by
  obtain ⟨m, ls, hm, hd, hclash⟩ := listed_compiles
  refine ⟨m, ls, hm, hd, fun h => hclash ?_⟩
  rw [topNames, visibleNames, List.append_assoc] at h
  exact h.of_append_right.of_append_left.of_append_right.of_append_left

/-- The names of a program for a compiled model are those it declares, and they are pairwise distinct
exactly if the names of the model do not clash where no check looks. -/
theorem nodup_topNames_iff (o : Options) (set : SchemaSet) (m : Model) (s : Settings) (ls : Lines)
    (h : Model.compile o set = .ok m) (hd : draft s m = .ok ls) :
    (∀ n ∈ topNames s m, Declares ls n) ∧ ((topNames s m).Nodup ↔ Unclashed m) :=
  ⟨topNames_declared s m ls hd, nodup_topNames o set m s h (draft_ok s m ls hd).1⟩

theorem nodup_topNames_iff_listed : ∃ m ls, Model.compile {} listed = .ok m ∧ draft {} m = .ok ls ∧
    Declares ls "fuzzContext" ∧ ¬ Unclashed m ∧ ¬ (topNames {} m).Nodup := by
  obtain ⟨m, ls, hm, hd, hclash⟩ := listed_compiles
  obtain ⟨hdeclared, hiff⟩ := nodup_topNames_iff {} listed m {} ls hm hd
  have hnot : ¬ Unclashed m := fun h => hclash h.enums
  exact ⟨m, ls, hm, hd, hdeclared _ (by simp [topNames, internalNames]), hnot, mt hiff.mp hnot⟩

end FormatFuzz.Program
