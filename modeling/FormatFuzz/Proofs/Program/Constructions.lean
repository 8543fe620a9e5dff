import FormatFuzz.Proofs.Model.Users
import FormatFuzz.Proofs.Program.Roots
import FormatFuzz.Proofs.Program.Methods
import FormatFuzz.Proofs.Program.Words

/-!
# Calls of constructors

A program calls a constructor where a field has a type of the model, and once to begin with. No other
line can be taken for such a call: it begins with a name, goes on with an error and with a function
whose name begins with `New`. Each call hands on the object that makes it, whose type is what the
constructor declares its parent to be, and the root of the tree of both or none.
-/

set_option autoImplicit false

namespace FormatFuzz.Program

def constructs (cs : List Char) : Bool :=
  ", err := New".toList.isPrefixOf (cs.dropWhile isNameChar)

def isConstruction (l : String) : Bool :=
  constructs l.toList

def constructions (ls : Lines) : Lines :=
  ls.filter isConstruction

theorem constructs_cons (c : Char) (cs : List Char) : constructs (c :: cs) =
    if isNameChar c then constructs cs else c == ',' && " err := New".toList.isPrefixOf cs := by
  have hhead : ", err := New".toList = ',' :: " err := New".toList := rfl
  rw [constructs, List.dropWhile_cons]
  split
  · rfl
  · rw [hhead, List.isPrefixOf_cons_cons, Bool.beq_comm]

@[simp] theorem constructs_nil : constructs [] = false := rfl

theorem constructs_name (name : String) (cs : List Char) (h : NameText name) :
    constructs (name.toList ++ cs) = constructs cs := by
  unfold NameText at h
  generalize name.toList = ns at h
  induction ns with
  | nil => rfl
  | cons c ns ih =>
    obtain ⟨hc, hns⟩ := List.forall_mem_cons.mp h
    rw [List.cons_append, constructs_cons, if_pos hc, ih hns]

@[simp] theorem constructions_nil : constructions [] = [] := rfl

@[simp] theorem constructions_append (ls ls' : Lines) :
    constructions (ls ++ ls') = constructions ls ++ constructions ls' :=
  List.filter_append ls ls'

@[simp] theorem constructions_flatten (lss : List Lines) :
    constructions lss.flatten = lss.flatMap constructions := by
  rw [constructions, List.filter_flatten, List.flatMap]
  rfl

@[simp] theorem constructions_flatMap {α : Type} (f : α → Lines) (xs : List α) :
    constructions (xs.flatMap f) = xs.flatMap fun x => constructions (f x) :=
  List.filter_flatMap

@[simp] theorem constructions_ite (c : Prop) [Decidable c] (ls ls' : Lines) :
    constructions (if c then ls else ls') = if c then constructions ls else constructions ls' :=
  apply_ite constructions c ls ls'

theorem constructions_cons (l : String) (ls : Lines) :
    constructions (l :: ls) = if isConstruction l then l :: constructions ls else constructions ls :=
  List.filter_cons

theorem constructions_all (ls : Lines) (h : ∀ l ∈ ls, isConstruction l = false) :
    constructions ls = [] := by
  refine List.filter_eq_nil_iff.mpr fun l hl => ?_
  rw [h l hl]
  simp

theorem isConstruction_name (name l : String) (h : NameText name) :
    isConstruction (name ++ l) = isConstruction l := by
  rw [isConstruction, String.toList_append, constructs_name name _ h]
  rfl

theorem toList_loopHead (bound : String) :
    (loopHead bound).toList = "for i := int64(0); i < ".toList ++ bound.toList ++ "; i++".toList := by
  unfold loopHead
  simp

attribute [local simp] constructions_cons isConstruction constructs_cons isNameChar Text.isWordChar
  assignment block toList_loopHead methodHead leaveLines

def construction (here : TypePath) (name : String) (u : TypePath) : String :=
  name ++ ", err := " ++ call ("New" ++ typeName u) ["g.ctx", "g", rootArgument here u]

/-- The objects that the element of a field is made of, each with the variable it is put into. -/
def Field.makes (f : Field) : List (String × TypePath) :=
  match f.elemRole, f.type with
  | .switch, .switch _ cases default => (cases.map Prod.snd ++ default.toList).map fun u => ("x", u)
  | .base, .user u => [("v", u)]
  | .repeated, .user u => [("v", u)]
  | _, _ => []

def Field.constructions (here : TypePath) (f : Field) : Lines :=
  (Field.makes f).map fun x => construction here x.1 x.2

@[simp] theorem constructions_check (id : String) : constructions (check id) = [] := by
  simp [check]

theorem constructions_drawLines (id name code : String) (hn : NameText name) :
    constructions (drawLines id name code) =
      if "New".toList.isPrefixOf code.toList then [name ++ ", err := " ++ code] else [] := by
  have hline : isConstruction (name ++ ", err := " ++ code) = "New".toList.isPrefixOf code.toList := by
    rw [String.append_assoc, isConstruction_name name _ hn]
    simp
  rw [drawLines, constructions_cons, hline, constructions_check]

theorem constructions_draw (id name code : String) (hn : NameText name)
    (hcode : code.toList.head? ≠ some 'N') : constructions (drawLines id name code) = [] := by
  rw [constructions_drawLines id name code hn, if_neg]
  cases h : code.toList with
  | nil => simp
  | cons c cs =>
    rw [h] at hcode
    simp only [String.reduceToList, List.isPrefixOf_cons_cons, Bool.and_eq_true, beq_iff_eq]
    rintro ⟨rfl, -⟩
    simp at hcode

variable {fr : Frame} {f : Field} {ls : Lines}

theorem constructions_sizeLines (h : sizeLines fr f = .ok ls) : constructions ls = [] := by
  unfold sizeLines at h
  split at h
  · cases h
    rfl
  · split at h
    · cases h
      exact constructions_draw _ _ _ (by simp [NameText])
        (by simp [countCall, call])
    · obtain ⟨v, -, h⟩ := (bind_eq_ok _ _ _).mp h
      obtain ⟨-, h⟩ := guard_eq_ok _ _ _ _ h
      cases h
      simp

theorem constructions_constructLines (fr : Frame) (id : String) (u : TypePath) (name : String)
    (hn : NameText name) :
    constructions (constructLines fr id u name) = [construction fr.here.path name u] := by
  rw [constructLines, constructions_drawLines id name _ hn, if_pos (by simp [call])]
  rfl

theorem constructions_intLines (fixed : Option (Expr × Value)) (h : intLines f fixed = .ok ls) :
    constructions ls = [] := by
  have hdraw (code : String) (hcode : code.toList.head? ≠ some 'N') :
      constructions (drawLines f.id "x" code ++ ["v := " ++ call (elementType f).code ["x"]]) = [] := by
    rw [constructions_append, constructions_draw f.id "x" code
      (by simp [NameText]) hcode]
    simp
  rcases fixed with _ | ⟨e, v⟩
  · cases hen : f.enum with
    | none =>
      simp only [intLines, hen] at h
      cases h
      exact hdraw _ (by simp [rangeCall, call])
    | some en =>
      simp only [intLines, hen] at h
      cases h
      exact hdraw _ (by simp [call])
  · obtain ⟨-, h⟩ := guard_eq_ok _ _ _ _ h
    cases h
    simp

theorem constructions_floatLines (fixed : Option (Expr × Value)) (h : floatLines f fixed = .ok ls) :
    constructions ls = [] := by
  unfold floatLines at h
  split at h
  · split at h
    · cases h
    · cases h
      simp
  · cases h
    split <;>
      simp

theorem constructions_textLines (fixed : Option (Expr × Value)) (h : textLines fr f fixed = .ok ls) :
    constructions ls = [] := by
  unfold textLines at h
  split at h
  · split at h
    · cases h
    · cases h
      simp
  · obtain ⟨size, hsize, h⟩ := (bind_eq_ok _ _ _).mp h
    obtain rfl := (pure_eq_ok _ _).mp h
    have hdraw := constructions_draw f.id "text" (call "g.ctx.rand.Text"
      [encodingName f.encoding, "n", terminatorArg f.terminator])
      (by simp [NameText]) (by simp [call])
    simp [constructions_sizeLines hsize, hdraw]

theorem constructions_bytesLines (fixed : Option (Expr × Value))
    (h : bytesLines fr f fixed = .ok ls) : constructions ls = [] := by
  unfold bytesLines at h
  split at h
  · cases h
    simp
  · obtain ⟨code, -, h⟩ := (bind_eq_ok _ _ _).mp h
    obtain rfl := (pure_eq_ok _ _).mp h
    simp
  · obtain ⟨size, hsize, h⟩ := (bind_eq_ok _ _ _).mp h
    have hraw := constructions_draw f.id "raw" (call "g.ctx.rand.Text"
      ["fzrt.Binary", "n", terminatorArg f.terminator])
      (by simp [NameText]) (by simp [call])
    have hbytes := constructions_draw f.id "v" (call "g.ctx.rand.Bytes" ["n"])
      (by simp [NameText]) (by simp [call])
    split at h
    · cases h
      simp [constructions_sizeLines hsize, hraw]
    · cases h
      simp [constructions_sizeLines hsize, hbytes]

theorem constructions_baseLines (h : baseLines fr f = .ok ls) :
    constructions ls =
      match f.type with
      | .user u => [construction fr.here.path "v" u]
      | _ => [] := by
  obtain ⟨fixed, -, h⟩ := (bind_eq_ok _ _ _).mp h
  cases htype : f.type with
  | bytes =>
    rw [htype] at h
    exact constructions_bytesLines fixed h
  | prim p =>
    rw [htype] at h
    cases p with
    | int => exact constructions_intLines fixed h
    | float => exact constructions_floatLines fixed h
    | string => exact constructions_textLines fixed h
  | user u =>
    rw [htype] at h
    cases h
    exact constructions_constructLines _ f.id u "v" (by simp [NameText])
  | switch on cases default =>
    rw [htype] at h
    exact constructions_bytesLines fixed h

theorem constructions_choiceLines (h : choiceLines fr f = .ok ls) : constructions ls = [] := by
  unfold choiceLines at h
  dsimp only at h
  split at h
  · cases h
  · obtain ⟨codes, -, h⟩ := (bind_eq_ok _ _ _).mp h
    cases h
    rw [constructions_append, constructions_draw _ _ _
      (by simp [NameText]) (by simp [call])]
    simp

theorem constructions_popLines (code : String) : constructions (popLines f code) = [] := by
  rw [popLines, constructions_append, constructions_draw _ _ _
    (by simp [NameText]) (by simp)]
  simp

theorem constructions_digestLines (h : digestLines fr f = .ok ls) : constructions ls = [] := by
  unfold digestLines at h
  split at h
  · obtain ⟨code, -, h⟩ := (bind_eq_ok _ _ _).mp h
    cases h
    rw [constructions_append, constructions_draw _ _ _
      (by simp [NameText]) (by simp [call])]
    simp
  · cases h
    rfl

theorem constructions_caseLines (on : Expr) (c : Expr × TypePath)
    (h : caseLines fr f on c = .ok ls) :
    constructions ls = [construction fr.here.path "x" c.2] := by
  obtain ⟨v, -, h⟩ := (bind_eq_ok _ _ _).mp h
  obtain rfl := (pure_eq_ok _ _).mp h
  have hconstruct := constructions_constructLines fr f.id c.2 "x"
    (by simp [NameText])
  simp [hconstruct]

theorem constructions_defaultLines (default : Option TypePath)
    (h : defaultLines fr f default = .ok ls) :
    constructions ls = default.toList.map (construction fr.here.path "x") := by
  unfold defaultLines at h
  split at h
  next u =>
    cases h
    have hconstruct := constructions_constructLines fr f.id u "x"
      (by simp [NameText])
    simp [hconstruct]
  next =>
    split at h
    · obtain ⟨size, hsize, h⟩ := (bind_eq_ok _ _ _).mp h
      cases h
      have hraw := constructions_draw f.id "raw" (call "g.ctx.rand.Bytes" ["n"])
        (by simp [NameText]) (by simp [call])
      simp [constructions_sizeLines hsize, hraw]
    · cases h
      simp

theorem flatMap_constructions {α : Type} {R : α → Lines → Prop} {xs : List α} {parts : List Lines}
    (g : α → Lines) (h : List.Forall₂ R xs parts) (hR : ∀ x ls, R x ls → constructions ls = g x) :
    parts.flatMap constructions = xs.flatMap g := by
  rw [List.flatMap_def, List.flatMap_def,
    map_eq_of_forall₂ g constructions h fun x ls hx => (hR x ls hx).symm]

theorem constructions_switchLines (h : switchLines fr f = .ok ls) (on : Expr)
    (cases : List (Expr × TypePath)) (default : Option TypePath)
    (htype : f.type = .switch on cases default) :
    constructions ls =
      (cases.map Prod.snd ++ default.toList).map (construction fr.here.path "x") := by
  rw [switchLines, htype] at h
  obtain ⟨arms, harms, h⟩ := (bind_eq_ok _ _ _).mp h
  obtain ⟨rest, hrest, h⟩ := (bind_eq_ok _ _ _).mp h
  obtain rfl := (pure_eq_ok _ _).mp h
  have hcase (c : Expr × TypePath) (ls : Lines) (hc : caseLines fr f on c = .ok ls) :
      constructions ls = [construction fr.here.path "x" c.2] := constructions_caseLines on c hc
  have harms := flatMap_constructions _ (mapM_eq_ok _ _ _ harms) hcase
  rw [← List.map_eq_flatMap] at harms
  simp [harms, constructions_defaultLines default hrest, Function.comp_def]

theorem constructions_valueLines (h : valueLines fr f = .ok ls) :
    constructions ls = Field.constructions fr.here.path f := by
  have hbase (hbase : baseLines fr f = .ok ls) (hrole : f.elemRole = .base ∨ f.elemRole = .repeated) :
      constructions ls = Field.constructions fr.here.path f := by
    rw [constructions_baseLines hbase, Field.constructions, Field.makes]
    rcases hrole with hrole | hrole <;> rw [hrole] <;> cases f.type <;> rfl
  have hquiet (hrole : f.elemRole ∉ [.switch, .base, .repeated]) :
      Field.constructions fr.here.path f = [] := by
    rw [Field.constructions, Field.makes]
    split <;> simp_all
  unfold valueLines at h
  split at h
  next hrole =>
    rw [hquiet (by simp [hrole])]
    split at h
    · obtain ⟨code, -, h⟩ := (bind_eq_ok _ _ _).mp h
      cases h
      simp
    · cases h
      rfl
  next hrole =>
    cases h
    rw [hquiet (by simp [hrole]), constructions_popLines]
  next hrole =>
    cases h
    rw [hquiet (by simp [hrole]), constructions_popLines]
  next hrole => rw [hquiet (by simp [hrole]), constructions_choiceLines h]
  next hrole => rw [hquiet (by simp [hrole]), constructions_digestLines h]
  next hrole =>
    cases htype : f.type with
    | switch on cases default =>
      simp only [constructions_switchLines h on cases default htype, Field.constructions, Field.makes,
        hrole, htype, List.map_map]
      rfl
    | _ =>
      rw [switchLines, htype] at h
      cases h
      simp [Field.constructions, Field.makes, hrole, htype]
  next => exact hbase h (by cases hrole : f.elemRole <;> simp_all)

theorem constructions_processLines (h : processLines fr f = .ok ls) : constructions ls = [] := by
  unfold processLines at h
  split at h
  · cases h
    rfl
  · cases h
    exact constructions_draw _ _ _ (by simp [NameText]) (by simp)
  next key _ =>
    obtain ⟨k, -, h⟩ := (bind_eq_ok _ _ _).mp h
    have hcode (code : String) : constructions ["wire := " ++ call "fzrt.XOR" ["v", code]] = [] := by
      simp
    split at h
    · cases h
      exact hcode _
    · obtain ⟨code, -, h⟩ := (bind_eq_ok _ _ _).mp h
      cases h
      exact hcode code

theorem constructions_elementLines (h : elementLines fr f = .ok ls) :
    constructions ls = Field.constructions fr.here.path f := by
  obtain ⟨value, hvalue, h⟩ := (bind_eq_ok _ _ _).mp h
  obtain ⟨wire, hwire, h⟩ := (bind_eq_ok _ _ _).mp h
  cases h
  rw [constructions_append, constructions_valueLines hvalue, constructions_processLines hwire,
    List.append_nil]

@[simp] theorem constructions_appendLines (names : NameTable) (t : TypeDef) (f : Field) :
    constructions (appendLines names t f) = [] := by
  simp [appendLines]

theorem constructions_countLines (r : Repeat) (h : countLines fr f r = .ok ls) :
    constructions ls = [] := by
  unfold countLines at h
  split at h
  · obtain ⟨v, -, h⟩ := (bind_eq_ok _ _ _).mp h
    obtain ⟨-, h⟩ := guard_eq_ok _ _ _ _ h
    cases h
    simp
  · cases h
    exact constructions_draw _ _ _ (by simp [NameText])
      (by simp [countCall, call])

theorem constructions_fieldBody (h : fieldBody fr f = .ok ls) :
    constructions ls = Field.constructions fr.here.path f := by
  have hindexed : (indexed fr).here = fr.here := rfl
  have hinner (v : Value) : ((indexed fr).withLocal Expr.current v).here = fr.here := rfl
  unfold fieldBody at h
  split at h
  · obtain ⟨element, helement, h⟩ := (bind_eq_ok _ _ _).mp h
    cases h
    simp [constructions_elementLines helement]
  · split at h
    · obtain ⟨element, helement, h⟩ := (bind_eq_ok _ _ _).mp h
      obtain ⟨v, -, h⟩ := (bind_eq_ok _ _ _).mp h
      obtain ⟨-, h⟩ := guard_eq_ok _ _ _ _ h
      cases h
      have helement := constructions_elementLines helement
      rw [hinner] at helement
      simp [helement]
    · obtain ⟨count, hcount, h⟩ := (bind_eq_ok _ _ _).mp h
      obtain ⟨element, helement, h⟩ := (bind_eq_ok _ _ _).mp h
      cases h
      have helement := constructions_elementLines helement
      rw [hindexed] at helement
      simp [helement, constructions_countLines _ hcount]

theorem constructions_guardLines (id : String) (guard : Option Expr)
    (h : guardLines fr id guard = .ok ls) : constructions ls = [] := by
  cases guard with
  | none =>
    cases h
    rfl
  | some e =>
    obtain ⟨v, -, -, rfl⟩ := guardLines_ok h
    simp

variable {p : Plan} {t : TypeDef}

theorem constructions_method (t : TypeDef) (name result : String) (body : Lines) :
    constructions (block (methodHead t name result) body) = constructions body := by
  simp

theorem constructions_fieldMethod (h : fieldMethod p t f = .ok ls) :
    constructions ls = Field.constructions t.path f := by
  obtain ⟨guard, body, hguard, hbody, rfl⟩ := fieldMethod_ok h
  rw [constructions_method, constructions_append, constructions_guardLines _ _ hguard,
    constructions_fieldBody hbody]
  rfl

theorem constructions_instanceMethod {i : Instance} (h : instanceMethod p t i = .ok ls) :
    constructions ls = [] := by
  obtain ⟨guard, v, hguard, -, rfl⟩ := instanceMethod_ok h
  rw [constructions_method, constructions_append, constructions_guardLines _ _ hguard]
  simp

@[simp] theorem constructions_apart (ls : Lines) : constructions (apart ls) = constructions ls := rfl

theorem constructions_accessorMethod (names : NameTable) (t : TypeDef) (f : Field) :
    constructions (accessorMethod names t f) = [] := by
  simp [accessorMethod]

theorem constructions_bytesMethod (t : TypeDef) : constructions (bytesMethod t) = [] := by
  simp [bytesMethod]

theorem constructions_poolLines (h : poolLines p t = .ok ls) : constructions ls = [] := by
  unfold poolLines at h
  split at h
  · cases h
    rfl
  · obtain ⟨codes, -, h⟩ := (bind_eq_ok _ _ _).mp h
    cases h
    simp [deferred]

theorem constructions_constructorLines (p : Plan) (t : TypeDef) (pool : Lines) :
    constructions (constructorLines p t pool) = constructions pool := by
  have horder : constructions (t.order.map fun id => "g.gen" ++ p.names.member t id ++ ",") = [] :=
    constructions_all _ (List.forall_mem_map.mpr fun id _ => by simp)
  have hfields : constructions (t.fields.map fun f => accessor p.names "g" t f.id ++ ",") = [] :=
    constructions_all _ (List.forall_mem_map.mpr fun f _ => by simp [accessor])
  simp [constructorLines, ownRootLines, horder, hfields]

theorem comment_cases (doc : String) : comment doc = "" ∨ ∃ cs, (comment doc).toList = '/' :: cs := by
  unfold comment
  dsimp only
  split
  · exact .inl rfl
  right
  obtain ⟨l, ls, hsplit⟩ : ∃ l ls, Text.splitOn (Text.trim doc) "\n" = l :: ls :=
    List.exists_cons_of_ne_nil (Text.splitOn_ne_nil _)
  have hfirst : ∃ cs, Text.dropTrailing (· == ' ') ("// " ++ l).toList = '/' :: cs := by
    have hl : ("// " ++ l).toList = '/' :: ('/' :: ' ' :: l.toList) := by simp
    rw [Text.dropTrailing, hl, List.reverse_cons, List.dropWhile_append]
    split
    · exact ⟨[], rfl⟩
    · exact ⟨_, List.reverse_concat⟩
  obtain ⟨cs, hcs⟩ := hfirst
  rw [hsplit, List.map_cons, hcs]
  cases ls with
  | nil => exact ⟨cs ++ ['\n'], by simp [Text.join]⟩
  | cons l' ls =>
    rw [Text.join_cons _ _ _ (by simp)]
    simp

@[simp] theorem constructs_comment (doc : String) (cs : List Char) :
    constructs ((comment doc).toList ++ '/' :: cs) = false := by
  rcases comment_cases doc with hdoc | ⟨ds, hds⟩
  · simp [hdoc]
  · simp [hds]

@[simp] theorem constructions_documented (doc l : String) :
    constructions (documented doc l) = constructions [l] := by
  have hcomment : doc ≠ "" → isConstruction (comment doc) = false := by
    intro _
    rcases comment_cases doc with hdoc | ⟨cs, hcs⟩
    · simp [hdoc]
    · simp [hcs]
  unfold documented
  split
  next => rfl
  next hne => rw [constructions_cons, hcomment hne, if_neg Bool.false_ne_true]

theorem constructions_named (name l : String) (h : NameText name)
    (hl : isConstruction l = false) : constructions [name ++ l] = [] := by
  rw [constructions_cons, isConstruction_name name l h, hl]
  rfl

variable (hp : Named p) (ht : t ∈ p.types)

include hp ht

theorem constructions_structLines (instances : List MemberDecl)
    (hi : List.Forall₂ (fun i d => instanceDecl p t i = .ok d) (ownInstances t) instances) :
    constructions (structLines p t (t.fields.map (fieldDecl p.names t) ++ instances)) = [] := by
  have hfield (f : Field) (hf : f ∈ t.fields) : NameText (p.names.member t f.id) :=
    (hp.member t ht f.id (List.mem_append_left _ (List.mem_map_of_mem hf))).text
  have hinstance (i : Instance) (hi : i ∈ ownInstances t) : NameText (p.names.member t i.id) :=
    (hp.member t ht i.id (List.mem_append_right _
      (List.mem_map_of_mem (List.mem_of_mem_filter hi)))).text
  have hmembers : ∀ d ∈ t.fields.map (fieldDecl p.names t) ++ instances,
      constructions d.lines = [] := by
    intro d hd
    have hname : NameText d.name := by
      rcases List.mem_append.mp hd with hd | hd
      · obtain ⟨f, hf, rfl⟩ := List.mem_map.mp hd
        exact hfield f hf
      · obtain ⟨i, hi, hid⟩ := forall₂_mem_right _ _ _ hi d hd
        obtain ⟨type, -, hid⟩ := (bind_eq_ok _ _ _).mp hid
        obtain rfl := (pure_eq_ok _ _).mp hid
        exact hinstance i hi
    rw [MemberDecl.lines, constructions_apart, constructions_documented, String.append_assoc]
    exact constructions_named _ _ hname (by simp)
  have hflags : constructions (flagDecls p.names t) = [] := by
    have hid : ∀ id ∈ (t.fields.filter fun f => f.guard.isSome).map Field.id
        ++ ((ownInstances t).filter fun i => i.guard.isSome).map Instance.id,
        NameText (p.names.member t id) := by
      intro id hid
      rcases List.mem_append.mp hid with hid | hid
      · obtain ⟨f, hf, rfl⟩ := List.mem_map.mp hid
        exact hfield f (List.mem_of_mem_filter hf)
      · obtain ⟨i, hi, rfl⟩ := List.mem_map.mp hid
        exact hinstance i (List.mem_of_mem_filter hi)
    refine constructions_all _ (List.forall_mem_map.mpr fun id hmem => ?_)
    have hflag : NameText (p.names.flag t id) :=
      NameText.append (s := "has") (by simp [NameText]) (hid id hmem)
    rw [isConstruction_name _ _ hflag]
    rfl
  have hwires : constructions (wireDecls p.names t) = [] := by
    refine constructions_all _ (List.forall_mem_map.mpr fun f hf => ?_)
    have hwire : NameText (p.names.wire t f.id) :=
      NameText.append (s := "wire") (by simp [NameText]) (hfield f (List.mem_of_mem_filter hf))
    rw [isConstruction_name _ _ hwire]
    split <;> rfl
  have hall : (t.fields.map (fieldDecl p.names t) ++ instances).flatMap
      (fun d => constructions d.lines) = [] :=
    List.flatMap_eq_nil_iff.mpr hmembers
  simp only [structLines, constructions_apart]
  generalize t.fields.map (fieldDecl p.names t) ++ instances = members at hall
  simp [String.append_assoc, hall, hflags, hwires]

theorem constructions_typeLines (h : typeLines p t = .ok ls) :
    constructions ls = t.fields.flatMap (Field.constructions t.path) := by
  obtain ⟨instances, pool, fields, computed, hinstances, hpool, hfields, hcomputed, rfl⟩ :=
    typeLines_ok h
  have hfields := flatMap_constructions (Field.constructions t.path) hfields fun f ls hf => by
    obtain ⟨method, hmethod, rfl⟩ := hf
    simp [constructions_fieldMethod hmethod, constructions_accessorMethod]
  have hcomputed := flatMap_constructions (fun _ => []) hcomputed fun i ls hi => by
    obtain ⟨method, hmethod, rfl⟩ := hi
    rw [constructions_apart, constructions_instanceMethod hmethod]
  simp [constructions_structLines hp ht instances hinstances, constructions_constructorLines,
    constructions_poolLines hpool, constructions_bytesMethod, hfields, hcomputed]

omit hp ht

theorem constructions_headLines (package source : String) :
    constructions (headLines package source) = [] := by
  simp [headLines, imports]

theorem constructions_contextLines (m : Model) : constructions (contextLines m) = [] := by
  have hpools : constructions (m.types.filterMap fun t =>
      t.pool.map fun d => poolName t.path ++ "\t*fzrt.Pool[" ++ poolType d ++ "]") = [] := by
    refine constructions_all _ fun l hl => ?_
    obtain ⟨t, -, hl⟩ := List.mem_filterMap.mp hl
    obtain ⟨d, -, rfl⟩ := Option.map_eq_some_iff.mp hl
    have hname : NameText (poolName t.path) :=
      NameText.append (s := "pool") (by simp [NameText]) (isName_typeName t.path).text
    rw [String.append_assoc, String.append_assoc, isConstruction_name _ _ hname]
    simp
  simp [contextLines, hpools]

theorem constructions_enumLines (t : TypeDef) (e : EnumDef) : constructions (enumLines t e) = [] := by
  have hconst (x : EnumMember) : constructions (documented x.doc
      (memberConst ⟨t.path, e.name⟩ x.id ++ "\tint64\t= " ++ toString x.value)) = [] := by
    rw [constructions_documented, String.append_assoc]
    exact constructions_named _ _ (isName_memberConst _ _).text (by simp)
  have hvalues : constructions (e.members.map fun x => memberConst ⟨t.path, e.name⟩ x.id ++ ",") = [] :=
    constructions_all _ (List.forall_mem_map.mpr fun x _ => by
      rw [isConstruction_name _ _ (isName_memberConst _ _).text]
      rfl)
  simp only [enumLines, constructions_append, constructions_apart, constructions_flatMap, hconst]
  simp [hvalues]

theorem constructions_varLines (decls : Lines) (h : constructions decls = []) :
    constructions (varLines decls) = [] := by
  simp [varLines, h]

theorem constructions_encodingLines (m : Model) : constructions (encodingLines m) = [] := by
  refine constructions_varLines _ (constructions_all _ (List.forall_mem_map.mpr fun e he => ?_))
  obtain ⟨encoding, hencoding⟩ := encodingNames_eq m e.2 (List.mem_map_of_mem he)
  have hname : NameText e.2 := hencoding ▸
    NameText.append (s := "enc") (by simp [NameText]) (nameText_exportedName _)
  rw [String.append_assoc, isConstruction_name _ _ hname]
  simp

theorem constructions_staticLines (hp : Named p) (ht : t ∈ p.types) (h : staticLines p t = .ok ls) :
    constructions ls = [] := by
  obtain ⟨decls, hdecls, h⟩ := (bind_eq_ok _ _ _).mp h
  obtain rfl := (pure_eq_ok _ _).mp h
  rw [constructions_flatten, List.flatMap_eq_nil_iff]
  intro decl hdecl
  obtain ⟨i, hi, h⟩ := forall₂_mem_right _ _ _ (mapM_eq_ok _ _ _ hdecls) decl hdecl
  obtain ⟨v, -, h⟩ := (bind_eq_ok _ _ _).mp h
  obtain rfl := (pure_eq_ok _ _).mp h
  have hid : i.id ∈ memberIds t :=
    List.mem_append_right _ (List.mem_map_of_mem (List.mem_of_mem_filter hi))
  rw [constructions_documented, String.append_assoc]
  exact constructions_named _ _ (hp.static t ht i.id hid).text (by simp)

theorem constructions_typeParts (hp : Named p) (ts : List TypeDef) (hts : ts ⊆ p.types)
    (statics types : Lines) (h : typeParts p ts = .ok (statics, types)) :
    constructions statics = [] ∧
      constructions types = ts.flatMap fun t => t.fields.flatMap (Field.constructions t.path) := by
  induction ts generalizing statics types with
  | nil =>
    cases h
    exact ⟨rfl, rfl⟩
  | cons t ts ih =>
    obtain ⟨ht, hts⟩ := List.cons_subset.mp hts
    obtain ⟨own, hown, h⟩ := (bind_eq_ok _ _ _).mp h
    obtain ⟨code, hcode, h⟩ := (bind_eq_ok _ _ _).mp h
    obtain ⟨⟨statics', types'⟩, hrest, h⟩ := (bind_eq_ok _ _ _).mp h
    obtain ⟨rfl, rfl⟩ := Prod.mk.inj ((pure_eq_ok _ _).mp h)
    obtain ⟨hstatics, htypes⟩ := ih hts _ _ hrest
    simp [hstatics, htypes, constructions_staticLines hp ht hown, constructions_typeLines hp ht hcode]

/-- The call that begins a sample: the root has no parent and is given no root. -/
def firstConstruction (m : Model) : String :=
  "v, err := New" ++ typeName ((m.root?.map TypeDef.path).getD [])
    ++ "(&fuzzContext\x7brand: r\x7d, nil, nil)"

/-- A program calls the constructors that the fields of its types need, type by type, and that of
its root. -/
theorem constructions_draft (s : Settings) (m : Model) (hp : Named (.ofModel m))
    (h : draft s m = .ok ls) : constructions ls =
      m.types.flatMap (fun t => t.fields.flatMap (Field.constructions t.path))
        ++ [firstConstruction m] := by
  obtain ⟨-, -, h⟩ := (bind_eq_ok _ _ _).mp h
  obtain ⟨⟨statics, types⟩, hparts, h⟩ := (bind_eq_ok _ _ _).mp h
  obtain rfl := (pure_eq_ok _ _).mp h
  have hsub : m.types ⊆ (Plan.ofModel m).types := by
    rw [toModel_ofModel]
    exact List.Subset.refl _
  obtain ⟨hstatics, htypes⟩ := constructions_typeParts hp m.types hsub statics types hparts
  have hgenerate (id : String) (root : TypePath) : constructions (generateLines id root)
      = ["v, err := New" ++ typeName root ++ "(&fuzzContext\x7brand: r\x7d, nil, nil)"] := by
    simp [generateLines]
  have hmain (id : String) : constructions (mainLines id s.seed) = [] := by
    simp [mainLines, call]
  simp [constructions_headLines, constructions_contextLines, constructions_enumLines,
    constructions_encodingLines, constructions_varLines statics hstatics, htypes, hgenerate, hmain,
    firstConstruction]

/-- The line that declares the constructor of a type, and with it the types of its parameters. -/
def constructorHead (m : Model) (v : TypeDef) : String :=
  "func New" ++ typeName v.path ++ "(ctx *fuzzContext, parent " ++ parentType m v ++ ", root "
    ++ rootType v ++ ") (*" ++ typeName v.path ++ ", error)" ++ " \x7b"

def structHead (m : Model) (t : TypeDef) : Lines :=
  ["type " ++ typeName t.path ++ " struct" ++ " \x7b", "ctx\t*fuzzContext", "parent\t" ++ parentType m t,
    "root\t" ++ rootType t]

theorem constructorHead_mem (p : Plan) (t : TypeDef) (pool : Lines) :
    constructorHead p.toModel t ∈ constructorLines p t pool := by
  unfold constructorLines apart block
  exact List.mem_cons_of_mem _ (List.mem_cons_of_mem _ List.mem_cons_self)

theorem structHead_infix (p : Plan) (t : TypeDef) (members : List MemberDecl) :
    structHead p.toModel t <:+: structLines p t members := by
  refine ⟨["", comment t.doc ++ "// " ++ typeName t.path ++ " is a generated " ++ t.name ++ "."],
    ["bytes\tfunc() []byte"] ++ members.flatMap MemberDecl.lines
      ++ apart (flagDecls p.names t ++ wireDecls p.names t) ++ ["\x7d"], ?_⟩
  simp only [structLines, structHead, apart, block, List.cons_append, List.nil_append,
    List.append_assoc]

theorem typeLines_heads (h : typeLines p t = .ok ls) :
    constructorHead p.toModel t ∈ ls ∧ structHead p.toModel t <:+: ls := by
  obtain ⟨instances, pool, fields, computed, -, -, -, -, rfl⟩ := typeLines_ok h
  have hconstructor := constructorHead_mem p t pool
  have hstruct := structHead_infix p t (t.fields.map (fieldDecl p.names t) ++ instances)
  generalize structLines p t _ = struct at hstruct ⊢
  generalize constructorLines p t pool = constructor at hconstructor ⊢
  refine ⟨by simp [hconstructor], hstruct.trans ?_⟩
  simp only [List.append_assoc]
  exact List.infix_append_left

theorem parentType_cases (m : Model) (v : TypeDef) :
    (m.users v.path).length ≠ 1 ∧ parentType m v = "any" ∨
      ∃ p, m.users v.path = [p] ∧ parentType m v = "*" ++ typeName p := by
  unfold parentType parent?
  split
  next p hp =>
    split at hp
    next u hu =>
      cases hp
      exact .inr ⟨p, hu, rfl⟩
    next => cases hp
  next hp =>
    split at hp
    next => cases hp
    next hnot =>
      refine .inl ⟨fun hlen => ?_, rfl⟩
      obtain ⟨u, hu⟩ := List.length_eq_one_iff.mp hlen
      exact hnot u hu

theorem rootArgument_cases (t v : TypeDef) : rootArgument t.path v.path = "nil" ∨
    rootArgument t.path v.path = "g.root" ∧ rootType v = rootType t := by
  unfold rootArgument rootType
  split
  next hroot => exact .inr ⟨rfl, by rw [hroot]⟩
  next => exact .inl rfl

theorem users_of_makes (name : String) (u : TypePath) (h : (name, u) ∈ Field.makes f) :
    u ∈ f.type.users := by
  unfold Field.makes at h
  split at h
  next htype =>
    obtain ⟨v, hv, heq⟩ := List.mem_map.mp h
    cases heq
    rw [htype]
    exact hv
  next htype =>
    rw [htype]
    cases List.mem_singleton.mp h
    exact List.mem_singleton_self _
  next htype =>
    rw [htype]
    cases List.mem_singleton.mp h
    exact List.mem_singleton_self _
  next => cases h

theorem fieldMethod_constructions (h : fieldMethod p t f = .ok ls) : ∃ body,
    ls = block (methodHead t ("gen" ++ p.names.member t f.id) "error") body ∧
      constructions body = Field.constructions t.path f := by
  have hcalls := constructions_fieldMethod h
  obtain ⟨guard, body, -, -, rfl⟩ := fieldMethod_ok h
  rw [constructions_method] at hcalls
  exact ⟨guard ++ body, rfl, hcalls⟩

/-- The calls of constructors in a program that is made for a compiled model are well typed. They are
those that the fields of its types need, each in a method whose receiver is an object of the type,
and the one for the root. The object that makes another is a parent as the constructor of the other
declares it, the argument for the root is none or the root of the object itself, of the type that
the constructor declares; and a parent is declared by the types that have fields of a type, each
listed once. -/
theorem constructions_typed (o : Options) (set : SchemaSet) (m : Model)
    (hm : Model.compile o set = .ok m) (s : Settings) (ls : Lines) (h : draft s m = .ok ls) :
    (∀ u, (m.users u).Nodup ∧ ∀ p, p ∈ m.users u ↔
      ∃ t ∈ m.types, t.path = p ∧ ∃ f ∈ t.fields, f.type.Reaches u) ∧
    constructions ls = m.types.flatMap (fun t => t.fields.flatMap (Field.constructions t.path))
      ++ [firstConstruction m] ∧
    ∀ t ∈ m.types, structHead m t <:+: ls ∧ ∀ f ∈ t.fields,
      (∃ name body, block (methodHead t name "error") body <:+: ls ∧
        constructions body = Field.constructions t.path f) ∧
      ∀ x u, (x, u) ∈ Field.makes f → ∃ v ∈ m.types, v.path = u ∧ constructorHead m v ∈ ls ∧
        ((m.users u).length ≠ 1 ∧ parentType m v = "any" ∨
          m.users u = [t.path] ∧ parentType m v = "*" ++ typeName t.path) ∧
        (rootArgument t.path u = "nil" ∨ rootArgument t.path u = "g.root" ∧ rootType v = rootType t) := by
  have hpaths := nodup_paths m (nodup_structNames m (draft_ok s m ls h).1)
  refine ⟨fun u => ⟨?_, fun p => ?_⟩,
    constructions_draft s m (named_ofModel o set m hm hpaths) h, fun t ht => ?_⟩
  · rw [Model.compile_holders o set m hm]
    exact nodup_distinct _
  · simp only [mem_users m o set hm, Holds, TypeRef.reaches_iff]
  obtain ⟨-, code, -, hcode, -, hin⟩ := draft_type h ht
  obtain ⟨-, hstruct⟩ := typeLines_heads hcode
  rw [toModel_ofModel] at hstruct
  refine ⟨hstruct.trans hin, fun f hf => ⟨?_, fun x u hx => ?_⟩⟩
  · obtain ⟨method, hmethod, hmethodIn⟩ := typeLines_field hcode hf
    obtain ⟨body, rfl, hbody⟩ := fieldMethod_constructions hmethod
    exact ⟨_, body, hmethodIn.trans hin, hbody⟩
  · have hu := users_of_makes x u hx
    obtain ⟨v, hv, rfl⟩ := Model.compile_users o set m hm t ht f hf u hu
    obtain ⟨-, code', -, hcode', -, hin'⟩ := draft_type h hv
    obtain ⟨hhead, -⟩ := typeLines_heads hcode'
    rw [toModel_ofModel] at hhead
    refine ⟨v, hv, rfl, hin'.subset hhead, ?_, rootArgument_cases t v⟩
    have huser : t.path ∈ m.users v.path := (mem_users m o set hm _ _).mpr ⟨t, ht, rfl, f, hf, hu⟩
    rcases parentType_cases m v with hany | ⟨p, hp, htype⟩
    · exact .inl hany
    · rw [hp, List.mem_singleton] at huser
      exact .inr (huser ▸ ⟨hp, htype⟩)

/-- A type with a field of a nested type, and with a switch over that one, a type that has a field of
it too, and a type of another schema. -/
def dispatched : SchemaSet where
  main := ⟨"a.ksy", .mk
    { head := { Meta.empty with id := "a" }
      seq := [{ id := "kind", type := some (.named "u1") },
        { id := "head", type := some (.named "chunk") },
        { id := "body", type := some (.switch (.str "kind")
          [("1", "chunk"), ("2", "pair"), ("_", "b::rec")]) }] }
    [("chunk", .mk { seq := [{ id := "n", type := some (.named "u1") }] } []),
      ("pair", .mk { seq := [{ id := "left", type := some (.named "chunk") }] } [])]⟩
  imported := [("b", ⟨"b.ksy", .mk { head := { Meta.empty with id := "b" } }
    [("rec", .mk { seq := [{ id := "n", type := some (.named "u1") }] } [])]⟩)]

theorem constructions_typed_dispatched : ∃ m ls, Model.compile {} dispatched = .ok m ∧
    draft {} m = .ok ls ∧
    m.types.map (fun t => (t.path, t.fields.flatMap Field.makes)) =
      [(["a"], [("v", ["a", "chunk"]), ("x", ["a", "chunk"]), ("x", ["a", "pair"]),
        ("x", ["b", "rec"])]), (["a", "chunk"], []), (["a", "pair"], [("v", ["a", "chunk"])]),
        (["b"], []), (["b", "rec"], [])] ∧
    m.users ["a", "chunk"] = [["a"], ["a", "pair"]] ∧ m.users ["b", "rec"] = [["a"]] ∧
    constructions ls = m.types.flatMap (fun t => t.fields.flatMap (Field.constructions t.path))
      ++ [firstConstruction m] := by
  let view (m : Model) : Bool := (draft {} m).toBool
    && m.types.map (fun t => (t.path, t.fields.flatMap Field.makes)) ==
      [(["a"], [("v", ["a", "chunk"]), ("x", ["a", "chunk"]), ("x", ["a", "pair"]),
        ("x", ["b", "rec"])]), (["a", "chunk"], []), (["a", "pair"], [("v", ["a", "chunk"])]),
        (["b"], []), (["b", "rec"], [])]
    && m.users ["a", "chunk"] == [["a"], ["a", "pair"]] && m.users ["b", "rec"] == [["a"]]
  obtain ⟨m, hm, hview⟩ := exists_ok_of_toOption_map (Model.compile {} dispatched) view true
    (by decide +kernel)
  simp only [view, Bool.and_eq_true, beq_iff_eq] at hview
  obtain ⟨⟨⟨hdraft, hmakes⟩, hchunk⟩, hrec⟩ := hview
  cases hls : draft {} m with
  | error e =>
    rw [hls] at hdraft
    cases hdraft
  | ok ls => exact ⟨m, ls, hm, hls, hmakes, hchunk, hrec,
      (constructions_typed {} dispatched m hm {} ls hls).2.1⟩

end FormatFuzz.Program
