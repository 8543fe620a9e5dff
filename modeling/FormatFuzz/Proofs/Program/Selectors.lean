import FormatFuzz.Proofs.Program.Methods
import FormatFuzz.Proofs.Program.Words

/-!
# What can be selected from an object

The structure of a type has four fixed members, a member for every field and instance, flags for the
guarded ones and wires for the processed fields; its methods generate the members and give the
encoded form of the whole and of every field. All of these have different names, whatever the ids of
the fields and instances are. Flags, wires and generators have small first letters that tell them
apart. Members and accessors begin with a capital letter: a name that was left as it is has an
accessor that no member is named after, and the accessor of a name with underscores has letters
behind them, which no member has.
-/

set_option autoImplicit false

namespace FormatFuzz.Program

def IsMemberName (s : String) : Prop :=
  ∃ c cs n, s.toList = c :: cs ++ List.replicate n '_' ∧ c.isUpper = true ∧
    ∀ x ∈ cs, Text.isWordChar x = true

theorem isMemberName_exportedName (s : String) : IsMemberName (exportedName s) := by
  obtain ⟨c, cs, hcs, hc⟩ := isExported_exportedName s
  refine ⟨c, cs, 0, by simpa using hcs, hc, fun x hx => ?_⟩
  exact isWordChar_exportedName s x (hcs ▸ List.mem_cons_of_mem c hx)

theorem toList_underscored (name : String) (n : Nat) :
    (underscored name n).toList = name.toList ++ List.replicate n '_' := by
  induction n generalizing name with
  | zero => simp [underscored]
  | succ n ih => simp [underscored, ih, List.replicate_succ]

theorem IsMemberName.underscored {s : String} (h : IsMemberName s) (n : Nat) :
    IsMemberName (underscored s n) := by
  obtain ⟨c, cs, k, hs, hc, hcs⟩ := h
  refine ⟨c, cs, k + n, ?_, hc, hcs⟩
  rw [toList_underscored, hs, List.append_assoc, List.replicate_append_replicate]

theorem IsMemberName.of_accessor {s : String} (h : IsMemberName (s ++ "Bytes")) :
    '_' ∉ s.toList := by
  obtain ⟨c, cs, n, hs, hc, hcs⟩ := h
  have hn : n = 0 := by
    have hlast := congrArg List.getLast? hs
    cases n with
    | zero => rfl
    | succ n =>
      rw [List.replicate_succ', ← List.append_assoc, List.getLast?_concat, String.toList_append] at hlast
      have hletter : (s.toList ++ "Bytes".toList).getLast? = some 's' := by simp
      rw [hletter] at hlast
      cases hlast
  intro hmem
  have hin : '_' ∈ c :: cs := by
    have hall : '_' ∈ (s ++ "Bytes").toList := by simp [hmem]
    rw [hs, hn] at hall
    simpa using hall
  rcases List.mem_cons.mp hin with rfl | hin
  · exact absurd hc (by decide)
  · exact absurd (hcs '_' hin) (by decide)

theorem underscored_undivided (name : String) (n : Nat) (h : '_' ∉ (underscored name n).toList) :
    underscored name n = name := by
  cases n with
  | zero => rfl
  | succ n =>
    rw [toList_underscored] at h
    simp at h

theorem not_mem_keywords (s : String) (h : IsExported s) : s ∉ keywords := by
  have small : ∀ w ∈ keywords, (w.toList.head?.any Char.isUpper) = false := by decide
  intro hs
  obtain ⟨c, cs, hcs, hc⟩ := h
  have := small s hs
  rw [hcs] at this
  simp [hc] at this

theorem assignNames_underscored (taken ids : List String) :
    ∀ e ∈ assignNames taken ids, ∃ n, e.2 = underscored (exportedName e.1) n := by
  induction ids generalizing taken with
  | nil => simp [assignNames]
  | cons id ids ih =>
    rw [assignNames]
    exact List.forall_mem_cons.mpr ⟨untaken_eq _ _ _, ih _⟩

def fixedMembers : List String := ["ctx", "parent", "root", "bytes"]

/-- Everything there is a name for on a type: its fixed members, the method `Bytes`, for every field
and instance a member, a flag, a wire and a generator, and for every field an accessor. -/
def selectors (names : NameTable) (t : TypeDef) : List String :=
  let ids := memberIds t
  fixedMembers ++ (ids.map (names.flag t) ++ (ids.map (names.wire t)
    ++ ids.map fun id => "gen" ++ names.member t id))
    ++ ("Bytes" :: ids.map (names.member t) ++ t.fields.map fun f => names.member t f.id ++ "Bytes")

section

variable (ts : List TypeDef) (hts : (ts.map TypeDef.path).Nodup) {t : TypeDef} (ht : t ∈ ts)
  (hids : (memberIds t).Nodup)

include hts ht hids

theorem memberNames_eq : memberNames t =
    (memberIds t).map fun id => (id, (NameTable.ofTypes ts).member t id) := by
  have hfst : (memberNames t).map Prod.fst = memberIds t := assignNames_fst _ _
  rw [← hfst, List.map_map]
  refine ((List.map_congr_left fun e he => ?_).trans (List.map_id _)).symm
  rw [Function.comp_apply, NameTable.member_eq ts hts t ht hids e he, id]

theorem member_mem {id : String} (hid : id ∈ memberIds t) :
    (id, (NameTable.ofTypes ts).member t id) ∈ memberNames t := by
  rw [memberNames_eq ts hts ht hids]
  exact List.mem_map_of_mem hid

theorem isMemberName_member {id : String} (hid : id ∈ memberIds t) :
    IsMemberName ((NameTable.ofTypes ts).member t id) := by
  obtain ⟨n, hn⟩ := assignNames_underscored _ _ _ (member_mem ts hts ht hids hid)
  dsimp only at hn
  rw [hn]
  exact (isMemberName_exportedName id).underscored n

theorem isExported_member {id : String} (hid : id ∈ memberIds t) :
    IsExported ((NameTable.ofTypes ts).member t id) := by
  have hname := isExported_assignNames _ _ _ (member_mem ts hts ht hids hid)
  exact hname

theorem nodup_members : ((memberIds t).map ((NameTable.ofTypes ts).member t)).Nodup := by
  have hnames := (nodup_assignNames (accessorNames t) (memberIds t)).1
  change ((memberNames t).map Prod.snd).Nodup at hnames
  rwa [memberNames_eq ts hts ht hids, List.map_map] at hnames

theorem member_not_taken {id : String} (hid : id ∈ memberIds t) :
    (NameTable.ofTypes ts).member t id ∉ accessorNames t := by
  have hfresh : ∀ n ∈ (memberNames t).map Prod.snd, n ∉ accessorNames t :=
    (nodup_assignNames (accessorNames t) (memberIds t)).2
  exact hfresh _ (List.mem_map.mpr ⟨_, member_mem ts hts ht hids hid, rfl⟩)

theorem member_ne_bytes {id : String} (hid : id ∈ memberIds t) :
    (NameTable.ofTypes ts).member t id ≠ "Bytes" := fun h =>
  member_not_taken ts hts ht hids hid (h ▸ List.mem_cons_self)

omit hts ht hids in
theorem mem_memberIds {f : Field} (hf : f ∈ t.fields) : f.id ∈ memberIds t :=
  List.mem_append_left _ (List.mem_map_of_mem hf)

/-- No member has the name of an accessor: it would be that of an unchanged name, which was taken,
or have letters behind underscores. -/
theorem member_ne_accessor {id : String} (hid : id ∈ memberIds t) {f : Field} (hf : f ∈ t.fields) :
    (NameTable.ofTypes ts).member t id ≠ (NameTable.ofTypes ts).member t f.id ++ "Bytes" := by
  intro heq
  have hundivided := (heq ▸ isMemberName_member ts hts ht hids hid).of_accessor
  obtain ⟨n, hn⟩ := assignNames_underscored _ _ _ (member_mem ts hts ht hids (mem_memberIds hf))
  dsimp only at hn
  rw [hn] at hundivided heq
  rw [underscored_undivided _ _ hundivided] at heq
  refine member_not_taken ts hts ht hids hid (heq ▸ List.mem_cons_of_mem _ ?_)
  exact List.mem_map.mpr ⟨f, hf, rfl⟩

theorem accessor_ne_bytes {f : Field} (hf : f ∈ t.fields) :
    "Bytes" ≠ (NameTable.ofTypes ts).member t f.id ++ "Bytes" := by
  intro heq
  obtain ⟨c, cs, hcs, -⟩ := isExported_member ts hts ht hids (mem_memberIds hf)
  have := congrArg (fun s => s.toList.length) heq
  simp [hcs] at this

theorem nodup_accessors :
    (t.fields.map fun f => (NameTable.ofTypes ts).member t f.id ++ "Bytes").Nodup := by
  have hfields := (nodup_members ts hts ht hids)
  rw [memberIds, List.map_append, List.map_map] at hfields
  have := hfields.of_append_left.map (f := (· ++ "Bytes")) fun a b h => (String.append_left_inj _).mp h
  rwa [List.map_map] at this

end

def BeginIn (letters : List Char) (names : List String) : Prop :=
  ∀ n ∈ names, ∃ c ∈ letters, n.toList.head? = some c

theorem BeginIn.disjoint {cs ds : List Char} {xs ys : List String} (hx : BeginIn cs xs)
    (hy : BeginIn ds ys) (h : cs.Disjoint ds) : xs.Disjoint ys := by
  intro n hn hn'
  obtain ⟨c, hc, heq⟩ := hx n hn
  obtain ⟨d, hd, heq'⟩ := hy n hn'
  obtain rfl : c = d := Option.some.inj (heq.symm.trans heq')
  exact h hc hd

theorem BeginIn.append {cs ds : List Char} {xs ys : List String} (hx : BeginIn cs xs)
    (hy : BeginIn ds ys) : BeginIn (cs ++ ds) (xs ++ ys) := by
  intro n hn
  rcases List.mem_append.mp hn with hn | hn
  · obtain ⟨c, hc, heq⟩ := hx n hn
    exact ⟨c, List.mem_append_left _ hc, heq⟩
  · obtain ⟨c, hc, heq⟩ := hy n hn
    exact ⟨c, List.mem_append_right _ hc, heq⟩

theorem beginIn_prefixed {α : Type} (c : Char) (cs : List Char) (xs : List α) (name : α → String) :
    BeginIn [c] (xs.map fun x => String.ofList (c :: cs) ++ name x) := by
  intro n hn
  obtain ⟨x, -, rfl⟩ := List.mem_map.mp hn
  exact ⟨c, by simp, by simp⟩

theorem nodup_prefixed (start : String) (xs : List String) (name : String → String)
    (h : (xs.map name).Nodup) : (xs.map fun x => start ++ name x).Nodup := by
  have := h.map (f := (start ++ ·)) fun a b hab => (String.append_right_inj start).mp hab
  rwa [List.map_map] at this

theorem isInternal_of_beginIn {cs : List Char} {xs : List String} (h : BeginIn cs xs)
    (hcs : ∀ c ∈ cs, c.isLower = true) : ∀ n ∈ xs, IsInternal n := by
  intro n hn
  obtain ⟨c, hc, heq⟩ := h n hn
  exact ⟨c, n.toList.tail, (List.cons_head?_tail heq).symm, hcs c hc⟩

theorem nodup_selectors (ts : List TypeDef) (hts : (ts.map TypeDef.path).Nodup) {t : TypeDef}
    (ht : t ∈ ts) (hids : (memberIds t).Nodup) : (selectors (.ofTypes ts) t).Nodup := by
  have hmembers := nodup_members ts hts ht hids
  have hfixed : BeginIn ['c', 'p', 'r', 'b'] fixedMembers := by
    unfold BeginIn fixedMembers
    simp
  have hflags := beginIn_prefixed 'h' ['a', 's'] (memberIds t) ((NameTable.ofTypes ts).member t)
  have hwires := beginIn_prefixed 'w' ['i', 'r', 'e'] (memberIds t) ((NameTable.ofTypes ts).member t)
  have hmakers := beginIn_prefixed 'g' ['e', 'n'] (memberIds t) ((NameTable.ofTypes ts).member t)
  refine List.nodup_append'.mpr ⟨?internal, ?exported, ?apart⟩
  case internal =>
    refine List.nodup_append'.mpr
      ⟨by decide, ?_, hfixed.disjoint (hflags.append (hwires.append hmakers)) (by simp)⟩
    refine List.nodup_append'.mpr ⟨nodup_prefixed "has" _ _ hmembers, ?_,
      hflags.disjoint (hwires.append hmakers) (by simp)⟩
    exact List.nodup_append'.mpr ⟨nodup_prefixed "wire" _ _ hmembers,
      nodup_prefixed "gen" _ _ hmembers, hwires.disjoint hmakers (by simp)⟩
  case exported =>
    refine List.nodup_append'.mpr ⟨List.nodup_cons.mpr ⟨fun h => ?_, hmembers⟩,
      nodup_accessors ts hts ht hids, fun n hn hn' => ?_⟩
    · obtain ⟨id, hid, heq⟩ := List.mem_map.mp h
      exact member_ne_bytes ts hts ht hids hid heq
    · obtain ⟨f, hf, rfl⟩ := List.mem_map.mp hn'
      rcases List.mem_cons.mp hn with heq | hn
      · exact accessor_ne_bytes ts hts ht hids hf heq.symm
      · obtain ⟨id, hid, heq⟩ := List.mem_map.mp hn
        exact member_ne_accessor ts hts ht hids hid hf heq
  case apart =>
    have hinternal := isInternal_of_beginIn (hfixed.append (hflags.append (hwires.append hmakers)))
      (by simp)
    intro n hn hn'
    refine IsExported.not_internal n ?_ (hinternal n hn)
    rcases List.mem_append.mp hn' with hn' | hn'
    · rcases List.mem_cons.mp hn' with rfl | hn'
      · exact ⟨'B', _, rfl, rfl⟩
      · obtain ⟨id, hid, rfl⟩ := List.mem_map.mp hn'
        exact isExported_member ts hts ht hids hid
    · obtain ⟨f, hf, rfl⟩ := List.mem_map.mp hn'
      exact (isExported_member ts hts ht hids (mem_memberIds hf)).append _ _

/-- The names that the structure of a type has use of: members and generators for its fields and for
the instances that are not static, flags for the guarded of them, wires for the processed fields. -/
def declared (names : NameTable) (t : TypeDef) : List String :=
  let ids := t.fields.map Field.id ++ (ownInstances t).map Instance.id
  let guarded := (t.fields.filter fun f => f.guard.isSome).map Field.id
    ++ ((ownInstances t).filter fun i => i.guard.isSome).map Instance.id
  let processed := (t.fields.filter fun f => f.process.isSome).map Field.id
  fixedMembers ++ (guarded.map (names.flag t) ++ (processed.map (names.wire t)
    ++ ids.map fun id => "gen" ++ names.member t id))
    ++ ("Bytes" :: ids.map (names.member t) ++ t.fields.map fun f => names.member t f.id ++ "Bytes")

theorem declared_sublist (names : NameTable) (t : TypeDef) :
    (declared names t).Sublist (selectors names t) := by
  have hids : (t.fields.map Field.id ++ (ownInstances t).map Instance.id).Sublist (memberIds t) :=
    (List.Sublist.refl _).append (List.filter_sublist.map _)
  have hguarded : ((t.fields.filter fun f => f.guard.isSome).map Field.id
      ++ ((ownInstances t).filter fun i => i.guard.isSome).map Instance.id).Sublist (memberIds t) :=
    (List.filter_sublist.map _).append ((List.filter_sublist.trans List.filter_sublist).map _)
  have hprocessed : ((t.fields.filter fun f => f.process.isSome).map Field.id).Sublist
      (memberIds t) :=
    (List.filter_sublist.map _).trans (List.sublist_append_left _ _)
  have hinternal := (hguarded.map (names.flag t)).append ((hprocessed.map (names.wire t)).append
    (hids.map fun id => "gen" ++ names.member t id))
  exact ((List.Sublist.refl _).append hinternal).append
    (((hids.map (names.member t)).cons_cons "Bytes").append (List.Sublist.refl _))

/-- Lines that give the structure of a type a name: one of its members, or one of its methods. -/
inductive Selects (t : TypeDef) (ls : Lines) (name : String) : Prop
  | member (group : Lines) (rest : String)
      (h : block ("type " ++ typeName t.path ++ " struct") group <:+: ls)
      (hn : name ++ "\t" ++ rest ∈ group)
  | method (result : String) (h : methodHead t name result ++ " \x7b" ∈ ls)

section

variable {p : Plan} {t : TypeDef} {ls : Lines} {name : String}

theorem mem_block (head : String) (body : Lines) : head ++ " \x7b" ∈ block head body :=
  List.mem_cons_self

theorem Selects.of_method {result : String} {body : Lines}
    (h : block (methodHead t name result) body <:+: ls) : Selects t ls name :=
  .method result (h.subset (mem_block _ _))

def memberLines (p : Plan) (t : TypeDef) (members : List MemberDecl) : Lines :=
  ["ctx\t*fuzzContext", "parent\t" ++ parentType p.toModel t, "root\t" ++ rootType t,
    "bytes\tfunc() []byte"] ++ members.flatMap MemberDecl.lines
    ++ apart (flagDecls p.names t ++ wireDecls p.names t)

theorem typeLines_members (h : typeLines p t = .ok ls) : ∃ instances,
    List.Forall₂ (fun i d => instanceDecl p t i = .ok d) (ownInstances t) instances ∧
      block ("type " ++ typeName t.path ++ " struct")
        (memberLines p t (t.fields.map (fieldDecl p.names t) ++ instances)) <:+: ls := by
  obtain ⟨instances, pool, fields, computed, hinstances, -, -, -, rfl⟩ := typeLines_ok h
  refine ⟨instances, hinstances, ?_⟩
  have hstruct : block ("type " ++ typeName t.path ++ " struct")
      (memberLines p t (t.fields.map (fieldDecl p.names t) ++ instances)) <:+:
        structLines p t (t.fields.map (fieldDecl p.names t) ++ instances) :=
    List.infix_cons (List.infix_cons List.infix_rfl)
  iterate 4 apply List.infix_append_of_infix_left
  exact hstruct

theorem mem_memberLines {members : List MemberDecl} {d : MemberDecl} (hd : d ∈ members) :
    d.name ++ "\t" ++ d.type ∈ memberLines p t members := by
  refine List.mem_append_left _ (List.mem_append_right _ (List.mem_flatMap.mpr ⟨d, hd, ?_⟩))
  exact List.mem_cons_of_mem _ (mem_documented d.doc _)

theorem selects_decl {members : List MemberDecl} {d : MemberDecl}
    (h : block ("type " ++ typeName t.path ++ " struct") (memberLines p t members) <:+: ls)
    (hd : d ∈ members) : Selects t ls d.name :=
  .member _ d.type h (mem_memberLines hd)

theorem flag_mem_memberLines {members : List MemberDecl} {id : String}
    (hid : id ∈ (t.fields.filter fun f => f.guard.isSome).map Field.id
      ++ ((ownInstances t).filter fun i => i.guard.isSome).map Instance.id) :
    p.names.flag t id ++ "\t" ++ "bool" ∈ memberLines p t members := by
  refine List.mem_append_right _ (List.mem_cons_of_mem _ (List.mem_append_left _ ?_))
  rw [String.append_assoc]
  exact List.mem_map.mpr ⟨id, hid, rfl⟩

theorem wire_mem_memberLines {members : List MemberDecl} {f : Field} (hf : f ∈ t.fields)
    (hp : f.process.isSome) : ∃ rest, p.names.wire t f.id ++ "\t" ++ rest ∈ memberLines p t members := by
  refine ⟨if f.repeated.isSome then "[][]byte" else "[]byte", ?_⟩
  refine List.mem_append_right _ (List.mem_cons_of_mem _ (List.mem_append_right _ ?_))
  rw [String.append_assoc]
  refine List.mem_map.mpr ⟨f, List.mem_filter.mpr ⟨hf, hp⟩, ?_⟩
  split <;> rfl

theorem accessorMethod_eq (names : NameTable) (f : Field) : ∃ comment body, accessorMethod names t f =
    comment :: block (methodHead t (names.member t f.id ++ "Bytes") "[]byte") body :=
  ⟨_, _, rfl⟩

theorem selects_accessor (h : typeLines p t = .ok ls) {f : Field} (hf : f ∈ t.fields) :
    Selects t ls (p.names.member t f.id ++ "Bytes") := by
  obtain ⟨instances, pool, fields, computed, -, -, hfields, -, rfl⟩ := typeLines_ok h
  obtain ⟨part, hpart, method, -, rfl⟩ := forall₂_mem_left _ _ _ hfields f hf
  obtain ⟨comment, body, hbody⟩ := accessorMethod_eq (t := t) p.names f
  rw [hbody] at hpart
  have hin : block (methodHead t (p.names.member t f.id ++ "Bytes") "[]byte") body <:+:
      fields.flatten := by
    refine List.IsInfix.trans ?_ (List.infix_of_mem_flatten hpart)
    exact List.infix_append_of_infix_right (List.infix_cons (List.infix_cons List.infix_rfl))
  refine .of_method (hin.trans ?_)
  apply List.infix_append_of_infix_left
  exact List.infix_append_of_infix_right List.infix_rfl

theorem selects_bytes (h : typeLines p t = .ok ls) : Selects t ls "Bytes" := by
  obtain ⟨instances, pool, fields, computed, -, -, -, -, rfl⟩ := typeLines_ok h
  have hin : block (methodHead t "Bytes" "[]byte") ["return g.bytes()"] <:+: bytesMethod t :=
    List.infix_cons (List.infix_cons List.infix_rfl)
  refine .of_method (hin.trans ?_)
  iterate 2 apply List.infix_append_of_infix_left
  exact List.infix_append_of_infix_right List.infix_rfl

theorem selects_generator (h : typeLines p t = .ok ls) {id : String}
    (hid : id ∈ t.fields.map Field.id ++ (ownInstances t).map Instance.id) :
    Selects t ls ("gen" ++ p.names.member t id) := by
  rcases List.mem_append.mp hid with hid | hid
  · obtain ⟨f, hf, rfl⟩ := List.mem_map.mp hid
    obtain ⟨method, hmethod, hin⟩ := typeLines_field h hf
    obtain ⟨guard, body, -, -, rfl⟩ := fieldMethod_ok hmethod
    exact .of_method hin
  · obtain ⟨i, hi, rfl⟩ := List.mem_map.mp hid
    obtain ⟨hi, hs⟩ := List.mem_filter.mp hi
    obtain ⟨method, hmethod, hin⟩ := typeLines_instance h hi (by simpa using hs)
    obtain ⟨guard, v, -, -, rfl⟩ := instanceMethod_ok hmethod
    exact .of_method hin

theorem typeLines_selects (h : typeLines p t = .ok ls) (hn : name ∈ declared p.names t) :
    Selects t ls name := by
  obtain ⟨instances, hinstances, hin⟩ := typeLines_members h
  rcases List.mem_append.mp hn with hn | hn
  · rcases List.mem_append.mp hn with hn | hn
    · simp only [fixedMembers, List.mem_cons, List.not_mem_nil, or_false] at hn
      rcases hn with rfl | rfl | rfl | rfl
      · exact .member _ "*fuzzContext" hin (by simp [memberLines])
      · exact .member _ (parentType p.toModel t) hin (by simp [memberLines])
      · exact .member _ (rootType t) hin (by simp [memberLines])
      · exact .member _ "func() []byte" hin (by simp [memberLines])
    rcases List.mem_append.mp hn with hn | hn
    · obtain ⟨id, hid, rfl⟩ := List.mem_map.mp hn
      exact .member _ "bool" hin (flag_mem_memberLines hid)
    rcases List.mem_append.mp hn with hn | hn
    · obtain ⟨id, hid, rfl⟩ := List.mem_map.mp hn
      obtain ⟨f, hf, rfl⟩ := List.mem_map.mp hid
      obtain ⟨hf, hp⟩ := List.mem_filter.mp hf
      obtain ⟨rest, hline⟩ := wire_mem_memberLines hf hp
      exact .member _ rest hin hline
    · obtain ⟨id, hid, rfl⟩ := List.mem_map.mp hn
      exact selects_generator h hid
  · rcases List.mem_append.mp hn with hn | hn
    · rcases List.mem_cons.mp hn with rfl | hn
      · exact selects_bytes h
      obtain ⟨id, hid, rfl⟩ := List.mem_map.mp hn
      rcases List.mem_append.mp hid with hid | hid
      · obtain ⟨f, hf, rfl⟩ := List.mem_map.mp hid
        have hd := List.mem_append_left instances (List.mem_map_of_mem (f := fieldDecl p.names t) hf)
        exact selects_decl (d := fieldDecl p.names t f) hin hd
      · obtain ⟨i, hi, rfl⟩ := List.mem_map.mp hid
        obtain ⟨d, hd, hi⟩ := forall₂_mem_left _ _ _ hinstances i hi
        obtain ⟨type, -, hi⟩ := (bind_eq_ok _ _ _).mp hi
        obtain rfl := (pure_eq_ok _ _).mp hi
        have hname := selects_decl hin (List.mem_append_right _ hd)
        exact hname
    · obtain ⟨f, hf, rfl⟩ := List.mem_map.mp hn
      exact selects_accessor h hf

end

/-- What is to hold of the names of a type. Each of its ids has one, which begins with a capital
letter, and no two have the same; accessors and the method `Bytes` have names of their own, and so
has all that can be selected from an object. -/
structure ToldApart (names : NameTable) (t : TypeDef) : Prop where
  named : memberNames t = (memberIds t).map fun id => (id, names.member t id)
  shape : ∀ id ∈ memberIds t, IsMemberName (names.member t id) ∧ names.member t id ∉ keywords
  members : ((memberIds t).map (names.member t)).Nodup
  notBytes : ∀ id ∈ memberIds t, names.member t id ≠ "Bytes"
  accessors : (t.fields.map fun f => names.member t f.id ++ "Bytes").Nodup
  accessorNotBytes : ∀ f ∈ t.fields, names.member t f.id ++ "Bytes" ≠ "Bytes"
  notAccessor : ∀ id ∈ memberIds t, ∀ f ∈ t.fields,
    names.member t id ≠ names.member t f.id ++ "Bytes"
  all : (selectors names t).Nodup

/-- The names of a type whose ids are distinct are told apart, and those that its structure has use
of are what the lines of the type declare. -/
theorem selectors_apart (ts : List TypeDef) (hts : (ts.map TypeDef.path).Nodup) (t : TypeDef)
    (ht : t ∈ ts) (hids : (memberIds t).Nodup) :
    ToldApart (.ofTypes ts) t ∧
      (declared (.ofTypes ts) t).Sublist (selectors (.ofTypes ts) t) ∧
      ∀ (p : Plan) (ls : Lines), p.names = .ofTypes ts → typeLines p t = .ok ls →
        ∀ n ∈ declared (.ofTypes ts) t, Selects t ls n := by
  refine ⟨?_, declared_sublist _ t, fun p ls hp h n hn => typeLines_selects h (hp ▸ hn)⟩
  exact {
    named := memberNames_eq ts hts ht hids
    shape := fun id hid => ⟨isMemberName_member ts hts ht hids hid,
      not_mem_keywords _ (isExported_member ts hts ht hids hid)⟩
    members := nodup_members ts hts ht hids
    notBytes := fun id hid => member_ne_bytes ts hts ht hids hid
    accessors := nodup_accessors ts hts ht hids
    accessorNotBytes := fun f hf => (accessor_ne_bytes ts hts ht hids hf).symm
    notAccessor := fun id hid f hf => member_ne_accessor ts hts ht hids hid hf
    all := nodup_selectors ts hts ht hids }

/-- A type whose ids all want the name of another one, of an accessor or of the method `Bytes`. -/
def crowded : TypeDef where
  path := ["packet"]
  doc := ""
  docRef := []
  endian := "le"
  encoding := "UTF-8"
  fields := ["len", "len_bytes", "Len", "bytes", "_"].map fun id =>
    { id := id, doc := "", docRef := [], type := .bytes, role := .base, elemRole := .base }
  instances := ["x", "LenBytes"].map fun id =>
    { id := id, doc := "", docRef := [], value := .int 1, guard := none }

theorem selectors_apart_crowded : ([crowded].map TypeDef.path).Nodup ∧ (memberIds crowded).Nodup ∧
    (memberNames crowded).map Prod.snd =
      ["Len", "LenBytes_", "Len_", "Bytes_", "X", "X_", "LenBytes__"] ∧
    ToldApart (.ofTypes [crowded]) crowded := by
  have hids : (memberIds crowded).Nodup := by decide
  exact ⟨by decide, hids, by decide +kernel,
    (selectors_apart [crowded] (by decide) crowded (by simp) hids).1⟩

end FormatFuzz.Program
