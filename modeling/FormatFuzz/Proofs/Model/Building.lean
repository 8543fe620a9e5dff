import FormatFuzz.Proofs.Model.TypeNames
import FormatFuzz.Proofs.Schema.Steps

/-!
# What a build may complain about

A fault is unready if it says that a schema is not in normal form. Every part of a build is gone
through for the faults it has: only an enum entry that is not written out, a type name that leads
nowhere or lacks its byte order, and an integer without a range give an unready one.
-/

set_option autoImplicit false

namespace FormatFuzz

def Fault.isUnready : Fault → Bool
  | .noEndian | .noTypeEndian _ | .unknownType _ | .range .unset | .enumEntry .. => true
  | _ => false

def SchemaError.isUnready : SchemaError → Bool
  | .copy _ => false
  | .located _ _ _ fault => fault.isUnready

namespace Build

variable {α : Type}

abbrev Passes (x : Except Fault α) : Prop := FailsWithin (fun f => f.isUnready = false) x

theorem expr?_passes (v : Value) : Passes (expr? v) := by
  unfold expr?
  split <;> simp [Passes, Fault.isUnready]

theorem exprOr_passes (m : Misuse) (v : Value) : Passes (exprOr m v) := by
  simp only [Passes, exprOr, failsWithin_bind]
  refine ⟨expr?_passes v, fun e _ => ?_⟩
  cases e <;> simp [Fault.isUnready]

theorem lookupMember_passes (m : Model) (here : TypePath) (path : List String) (id : String) :
    Passes (m.lookupMember here path id) := by
  unfold Model.lookupMember
  split
  · simp [Passes, Fault.isUnready]
  · split <;> simp [Passes, Fault.isUnready]

theorem addMember_passes (ms : List EnumMember) (e : EnumEntry) (h : e.Spelled) :
    Passes (addMember ms e) := by
  obtain ⟨v, hv, -⟩ := h
  unfold addMember
  rw [hv]
  simp only
  split <;> simp [Fault.isUnready]

theorem poolEntryKind_passes (m : Model) (path : TypePath) (index : Nat) (e : Option Expr) :
    Passes (poolEntryKind m path index e) := by
  unfold poolEntryKind
  split
  · simp
  · simp
  · simp only [Passes, failsWithin_bind]
    exact ⟨lookupMember_passes .., fun _ _ => by simp⟩
  · simp [Fault.isUnready]

theorem poolEntries_passes (m : Model) (path : TypePath) (i : Nat) (kind : Option Kind)
    (vs : List Value) : Passes (poolEntries m path i kind vs) := by
  induction vs generalizing i kind with
  | nil => simp [poolEntries]
  | cons v vs ih =>
    simp only [Passes, poolEntries, failsWithin_bind]
    refine ⟨expr?_passes v, fun e _ => ⟨poolEntryKind_passes .., fun k _ => ?_⟩⟩
    split
    · simp [Fault.isUnready]
    · simp only [failsWithin_bind]
      exact ⟨ih .., fun _ _ => by simp⟩

/-- A name of a built-in type that has its byte order, or of a type of the model. -/
def Names (m : Model) (here : TypePath) (name : String) : Prop :=
  match Primitive.ofName? name with
  | some p => p.isAmbiguous = false
  | none => (m.lookupType here name).isSome = true

/-- An attribute whose type names lead somewhere, with a range if it is an integer. -/
structure Accepts (m : Model) (here : TypePath) (a : Attr) : Prop where
  named : ∀ name, a.type = some (.named name) → name ≠ "" → Names m here name
  cases : ∀ on cases, a.type = some (.switch on cases) → ∀ c ∈ cases, Names m here c.2
  ranged : ∀ name s w e, a.type = some (.named name) → Primitive.ofName? name = some (.int s w e) →
    ∃ lo hi, a.rangeMin = some (.int lo) ∧ a.rangeMax = some (.int hi)

theorem findType_passes (m : Model) (here : TypePath) (name : String) (h : Names m here name) :
    Passes (findType m here name) := by
  unfold Names at h
  unfold findType
  split
  next p hp =>
    rw [hp] at h
    simp [show p.isAmbiguous = false from h]
  next hp =>
    rw [hp] at h
    obtain ⟨q, hq⟩ := Option.isSome_iff_exists.mp h
    simp [hq]

theorem caseType_passes (m : Model) (here : TypePath) (key name : String) (h : Names m here name) :
    Passes (caseType (findType m here) key name) := by
  simp only [Passes, caseType, failsWithin_bind]
  refine ⟨findType_passes m here name h, fun t _ => ?_⟩
  cases t <;> simp [Fault.isUnready]

theorem switchCases_passes (m : Model) (here : TypePath) (cs : List (String × String))
    (h : ∀ c ∈ cs, Names m here c.2) : Passes (switchCases (findType m here) cs) := by
  induction cs with
  | nil => simp [switchCases]
  | cons c cs ih =>
    have ih := ih fun x hx => h x (List.mem_cons_of_mem c hx)
    simp only [Passes, switchCases, failsWithin_bind]
    refine ⟨caseType_passes m here c.1 c.2 (h c (by simp)), fun p _ => ?_⟩
    split
    · simp only [failsWithin_bind]
      exact ⟨ih, fun _ _ => by simp⟩
    · split
      · simp [Fault.isUnready]
      · simp only [failsWithin_bind]
        exact ⟨ih, fun _ _ => by simp⟩

theorem typeRef_passes (m : Model) (here : TypePath) (a : Attr) (h : Accepts m here a) :
    Passes (typeRef (findType m here) a) := by
  unfold typeRef
  split
  next on cases htype =>
    simp only [Passes, failsWithin_bind]
    exact ⟨exprOr_passes .., fun _ _ => ⟨switchCases_passes m here _ (h.cases on cases htype),
      fun _ _ => by simp⟩⟩
  next => simp
  next name hne htype => exact findType_passes m here name (h.named name htype fun h => hne (h ▸ rfl))
  next => simp

theorem typeRef_int (m : Model) (here : TypePath) (a : Attr) (t : TypeRef)
    (h : typeRef (findType m here) a = .ok t) (hk : t.kind = .int) :
    ∃ name s w e, a.type = some (.named name) ∧ Primitive.ofName? name = some (.int s w e) := by
  unfold typeRef at h
  split at h
  next on cases htype =>
    obtain ⟨_, -, h⟩ := (bind_eq_ok _ _ _).mp h
    obtain ⟨_, -, h⟩ := (bind_eq_ok _ _ _).mp h
    cases h
    cases hk
  next =>
    cases h
    cases hk
  next name hne htype =>
    unfold findType at h
    split at h
    next p hp =>
      split at h
      · cases h
      · cases h
        cases p with
        | int s w e => exact ⟨name, s, w, e, htype, hp⟩
        | float => cases hk
        | string => cases hk
    next =>
      split at h
      · cases h
        cases hk
      · cases h
  next =>
    cases h
    cases hk

theorem range_passes (m : Model) (here : TypePath) (a : Attr) (t : TypeRef) (ha : Accepts m here a)
    (h : typeRef (findType m here) a = .ok t) : Passes (range t a) := by
  unfold range
  split
  · simp
  next hk =>
    obtain ⟨name, s, w, e, htype, hname⟩ := typeRef_int m here a t h (by simpa using hk)
    obtain ⟨lo, hi, hlo, hhi⟩ := ha.ranged name s w e htype hname
    simp [hlo, hhi]

theorem repetition_passes (o : Options) (a : Attr) : Passes (repetition o a) := by
  simp only [Passes, repetition, failsWithin_bind]
  refine ⟨?_, fun form _ => ?_⟩
  · unfold repeatForm
    split
    · simp only [failsWithin_bind]
      exact ⟨exprOr_passes .., by simp⟩
    · split
      · simp only [failsWithin_bind]
        exact ⟨exprOr_passes .., by simp⟩
      · split <;> simp [Fault.isUnready]
  · split <;> simp [Fault.isUnready]

theorem fixedValue_passes (v : Value) : Passes (fixedValue v) := by
  unfold fixedValue
  split
  · exact expr?_passes _
  · exact expr?_passes _

theorem enumId_passes (m : Model) (here : TypePath) (t : TypeRef) (name : String) :
    Passes (enumId m here t name) := by
  unfold enumId
  split
  · simp
  · split
    · simp [Fault.isUnready]
    · split <;> simp [Fault.isUnready]

theorem contentsItems_passes (i : Nat) (vs : List Value) : Passes (contentsItems i vs) := by
  induction vs generalizing i with
  | nil => simp [contentsItems]
  | cons v vs ih =>
    simp only [Passes, contentsItems, failsWithin_bind]
    refine ⟨?_, fun _ _ => ⟨ih _, by simp⟩⟩
    unfold contentsItem
    split
    · simp
    · split <;> simp [Fault.isUnready]
    · simp [Fault.isUnready]

theorem contents_passes (v : Value) : Passes (contents v) := by
  unfold contents
  split
  · simp
  · simp
  · split
    · exact (failsWithin_map _ _ _).mpr (contentsItems_passes ..)
    · simp [Fault.isUnready]
  · exact (failsWithin_map _ _ _).mpr (contentsItems_passes ..)
  · simp [Fault.isUnready]

theorem process_passes (s : String) : Passes (process s) := by
  unfold process
  split
  · simp
  · simp only
    split
    · split <;> simp [Fault.isUnready]
    · split
      · split <;> simp [Fault.isUnready]
      · simp [Fault.isUnready]

theorem terminator_passes (t : TypeRef) (b : Option Int) : Passes (terminator t b) := by
  have byte (n : Int) : Passes (terminator.byte n) := by
    unfold terminator.byte
    split
    · simp
    · split <;> simp [Fault.isUnready]
  unfold terminator
  split
  · exact byte _
  · exact byte _
  · simp

theorem size_passes (o : Options) (a : Attr) (terminated : Bool) : Passes (size o a terminated) := by
  have checkSize_passes (e : Option Expr) : Passes (checkSize terminated e) := by
    unfold checkSize
    split
    · split
      · simp [Fault.isUnready]
      · split <;> simp [Fault.isUnready]
    · simp
  unfold size
  simp only
  split
  · simp [Fault.isUnready]
  · simp only [Passes, failsWithin_bind]
    refine ⟨expr?_passes _, fun _ _ => ⟨checkSize_passes _, fun _ _ => ?_⟩⟩
    split <;> simp

theorem choices_passes (m : Model) (here : TypePath) (enum : Option EnumId) (a : Attr) :
    Passes (choices m here enum a) := by
  refine failsWithin_mapM _ _ _ fun v _ => ?_
  unfold choice
  simp only [failsWithin_bind]
  refine ⟨expr?_passes v, fun e _ => ?_⟩
  split
  · simp only [failsWithin_bind]
    exact ⟨lookupMember_passes .., by simp⟩
  · simp
  · simp

theorem checksum_passes (a : Attr) (t : TypeRef) (s : Option Size) : Passes (checksum a t s) := by
  unfold checksum
  split
  · split
    · simp [Fault.isUnready]
    · simp only [Passes, failsWithin_bind]
      refine ⟨exprOr_passes .., fun _ _ => ⟨?_, by simp⟩⟩
      unfold checkDigest
      split
      · split <;> simp [Fault.isUnready]
      · split
        · split <;> simp [Fault.isUnready]
        · simp
      · simp [Fault.isUnready]
  · simp [Fault.isUnready]

theorem fieldPool_passes (m : Model) (here : TypePath) (t : TypeRef) : Passes (fieldPool m here t) := by
  unfold fieldPool
  split
  · simp [Fault.isUnready]
  · split <;> simp [Fault.isUnready]

theorem measure_passes (a : Attr) (t : TypeRef) : Passes (measure a t) := by
  unfold measure
  split
  · simp [Fault.isUnready]
  · exact expr?_passes _

theorem checkLength_passes (f : Field) : Passes (checkLength f) := by
  unfold checkLength
  split
  · split <;> simp [Fault.isUnready]
  · split <;> simp [Fault.isUnready]
  · simp

abbrev PassesAt (x : Except SchemaError α) : Prop :=
  FailsWithin (fun e => e.isUnready = false) x

theorem at_passes (type : List String) (member key : String) (r : Except Fault α) (h : Passes r) :
    PassesAt (Fault.at_ type member key r) := by
  cases r <;> exact h

theorem at_bind_passes {β : Type} (type : List String) (member key : String) (r : Except Fault α)
    (f : α → Except SchemaError β) (h : Passes r) (hf : ∀ a, r = .ok a → PassesAt (f a)) :
    PassesAt (Fault.at_ type member key r >>= f) :=
  (failsWithin_bind _ _ _).mpr ⟨at_passes type member key r h, fun a ha =>
    hf a ((Fault.at_eq_ok _ _ _ _ _).mp ha)⟩

theorem enums_passes (path : TypePath) (es : Keyed (List EnumEntry))
    (h : ∀ e ∈ es, ∀ x ∈ e.2, x.Spelled) : PassesAt (enums path es) := by
  refine failsWithin_mapM _ _ _ fun e he => at_bind_passes _ _ _ _ _ ?_ (by simp)
  exact failsWithin_foldlM _ _ _ (fun x hx ms => addMember_passes ms x (h e he x hx)) _

theorem pool_passes (m : Model) (path : TypePath) (order : List Value) :
    PassesAt (pool m path order) := by
  refine at_bind_passes _ _ _ _ _ (poolEntries_passes ..) fun r _ => ?_
  obtain ⟨kind, es⟩ := r
  cases kind <;> simp

theorem elementKeys_passes (m : Model) (here : TypePath) (a : Attr) (f : Field) :
    PassesAt (elementKeys m here a f) := by
  unfold elementKeys
  dsimp only
  split
  · exact at_bind_passes _ _ _ _ _ (measure_passes ..) (by simp)
  · exact at_bind_passes _ _ _ _ _ (fieldPool_passes ..) (by simp)
  · exact at_bind_passes _ _ _ _ _ (fieldPool_passes ..) (by simp)
  · exact at_bind_passes _ _ _ _ _ (choices_passes ..) (by simp)
  · exact at_bind_passes _ _ _ _ _ (checksum_passes ..) (by simp)
  · exact at_bind_passes _ _ _ _ _ (checkLength_passes ..) (by simp)
  · simp

theorem field_passes (o : Options) (m : Model) (here : TypePath) (a : Attr) (ha : Accepts m here a) :
    PassesAt (fieldAt o m here a) := by
  unfold fieldAt
  refine failsWithin_ite _ _ _ _ (by simp [SchemaError.isUnready, Fault.isUnready]) ?_
  refine at_bind_passes _ _ _ _ _ (typeRef_passes m here a ha) fun type htype => ?_
  unfold fieldOf
  dsimp only
  refine at_bind_passes _ _ _ _ _ (expr?_passes _) fun guard _ => ?_
  refine failsWithin_join _ _ _ _ _ ?_ (by simp) fun repeated => ?_
  · exact (failsWithin_map _ _ _).mpr (at_passes _ _ _ _ (repetition_passes o a))
  refine at_bind_passes _ _ _ _ _ (fixedValue_passes _) fun fixed _ => ?_
  refine at_bind_passes _ _ _ _ _ (enumId_passes ..) fun enum _ => ?_
  refine at_bind_passes _ _ _ _ _ (range_passes m here a type ha htype) fun range _ => ?_
  refine failsWithin_join _ _ _ _ _ (at_passes _ _ _ _ (contents_passes _)) (by simp) fun contents => ?_
  refine failsWithin_join _ _ _ _ _ (at_passes _ _ _ _ (process_passes _)) (by simp) fun process => ?_
  refine at_bind_passes _ _ _ _ _ (terminator_passes ..) fun terminator _ => ?_
  refine failsWithin_ite _ _ _ _ (by simp [SchemaError.isUnready, Fault.isUnready]) ?_
  refine failsWithin_join _ _ _ _ _ (at_passes _ _ _ _ (size_passes ..)) (by simp) fun size => ?_
  exact elementKeys_passes m here a _

theorem instance_passes (here : TypePath) (id : String) (a : Attr) :
    PassesAt («instance» here id a) := by
  refine at_bind_passes _ _ _ _ _ (exprOr_passes ..) fun value _ => ?_
  exact at_bind_passes _ _ _ _ _ (expr?_passes _) (by simp)

end Build

/-- A type of a model in the making, by its path and the schema it is made from. -/
def Build.origin (t : TypeDef × SchemaBody) : TypePath × SchemaBody := (t.1.path, t.2)

theorem Model.build_passes (o : Options) (set : SchemaSet)
    (hspelled : ∀ t ∈ Build.allShells set, t.2.Spelled)
    (haccepts : ∀ m : Model, m.Outlines set → ∀ t ∈ Build.allShells set, ∀ a ∈ t.2.seq,
      Build.Accepts m t.1.path a) : Build.PassesAt (Model.build o set) := by
  simp only [Build.PassesAt, Model.build, failsWithin_bind]
  refine ⟨failsWithin_mapM _ _ _ fun t ht => ?_, fun withEnums h₁ => ⟨failsWithin_mapM _ _ _ fun t ht => ?_,
    fun withPools h₂ => ⟨?_, by simp⟩⟩⟩
  · simp only [failsWithin_bind]
    exact ⟨Build.enums_passes _ _ (hspelled t ht), by simp⟩
  · simp only [failsWithin_bind]
    exact ⟨Build.pool_passes .., by simp⟩
  · rw [Build.tracks_allMembers o _ withPools]
    refine (failsWithin_map _ _ _).mpr (failsWithin_mapM _ _ _ fun t ht => ?_)
    have e₁ : withEnums.map Build.origin = (Build.allShells set).map Build.origin := by
      refine mapM_map_eq _ _ _ (fun t u h => ?_) _ _ h₁
      obtain ⟨es, -, h⟩ := (bind_eq_ok _ _ _).mp h
      obtain rfl := (pure_eq_ok _ _).mp h
      rfl
    have e₂ : withPools.map Build.origin = withEnums.map Build.origin := by
      refine mapM_map_eq _ _ _ (fun t u h => ?_) _ _ h₂
      obtain ⟨pool, -, h⟩ := (bind_eq_ok _ _ _).mp h
      obtain rfl := (pure_eq_ok _ _).mp h
      rfl
    have horigin := e₂.trans e₁
    have hm : Model.Outlines ⟨withPools.map Prod.fst⟩ set := by
      have hpaths := congrArg (List.map Prod.fst) horigin
      rw [List.map_map, List.map_map] at hpaths
      rw [Model.Outlines, List.map_map]
      exact hpaths
    obtain ⟨u, hu, htu⟩ := List.mem_map.mp (horigin ▸ List.mem_map_of_mem ht)
    obtain ⟨hpath, hbody⟩ := Prod.mk.inj htu
    simp only [Build.membersAt, failsWithin_bind]
    refine ⟨failsWithin_mapM _ _ _ fun a ha => ?_, fun _ _ => ⟨failsWithin_mapM _ _ _ fun e _ => ?_, by simp⟩⟩
    · exact Build.field_passes o _ _ a (hpath ▸ haccepts _ hm u hu a (hbody ▸ ha))
    · exact Build.instance_passes ..

end FormatFuzz
