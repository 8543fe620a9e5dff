import FormatFuzz.Model.Build
import FormatFuzz.Proofs.Fallible
import FormatFuzz.Proofs.Keyed

/-!
# What a build notes

The members of a model are built while users of types are noted, but no lookup depends on what was
noted. So a build does the same as one that notes nothing, and the users of a type are the types
whose keys have a name for it, in the order in which the types are gone through.
-/

set_option autoImplicit false

namespace FormatFuzz

section

variable {σ ε α β : Type}

/-- A computation over a state does what one without it does, and one thing to the state. -/
def Tracks (x : StateT σ (Except ε) α) (y : Except ε α) (step : σ → σ) : Prop :=
  ∀ s, x s = y.map fun a => (a, step s)

theorem tracks_lift (y : Except ε α) : Tracks (liftM y : StateT σ (Except ε) α) y id := by
  intro s
  cases y <;> rfl

theorem tracks_error (e : ε) (step : σ → σ) :
    Tracks (liftM (.error e : Except ε α) : StateT σ (Except ε) α) (.error e) step := fun _ => rfl

theorem tracks_pure (a : α) : Tracks (pure a : StateT σ (Except ε) α) (pure a) id := fun _ => rfl

theorem Tracks.bind {x : StateT σ (Except ε) α} {y : Except ε α} {step : σ → σ}
    {f : α → StateT σ (Except ε) β} {g : α → Except ε β} (hx : Tracks x y step) (next : σ → σ)
    (hf : ∀ a, Tracks (f a) (g a) next) : Tracks (x >>= f) (y >>= g) (next ∘ step) := by
  intro s
  have hbind : (x >>= f) s = x s >>= fun r => f r.1 r.2 := rfl
  rw [hbind, hx s]
  cases y with
  | error e => rfl
  | ok a => exact hf a (step s)

theorem tracks_mapM (f : α → StateT σ (Except ε) β) (g : α → Except ε β) (step : σ → α → σ)
    (h : ∀ x, Tracks (f x) (g x) fun s => step s x) (xs : List α) :
    Tracks (xs.mapM f) (xs.mapM g) fun s => xs.foldl step s := by
  induction xs with
  | nil => exact tracks_pure []
  | cons x xs ih =>
    rw [List.mapM_cons, List.mapM_cons]
    exact (h x).bind _ fun y => ih.bind id fun ys => tracks_pure (y :: ys)

end

namespace Build

variable (o : Options) (m : Model) (here : TypePath)

def Users.noteAll (us : Users) (user : TypePath) (types : List TypePath) : Users :=
  types.foldl (fun us type => us.note user type) us

theorem noteAll_apply (us : Users) (user : TypePath) (types : List TypePath) (p : TypePath) :
    us.noteAll user types p = if p ∈ types ∧ user ∉ us p then us p ++ [user] else us p := by
  induction types generalizing us with
  | nil => simp [Users.noteAll]
  | cons type types ih =>
    have hnote : us.note user type p =
        if p = type ∧ user ∉ us p then us p ++ [user] else us p := by
      by_cases hp : p = type <;> by_cases hu : user ∈ us p <;>
        simp [Users.note, distinctOnto, hp, hu]
    rw [Users.noteAll, List.foldl_cons, ← Users.noteAll, ih, hnote]
    by_cases hu : user ∈ us p
    · simp [hu]
    by_cases hp : p = type
    · subst hp
      simp [hu]
    · simp [hp, hu]

/-- What is noted while some members are gone through, each from its own type, is for every type
the types of those that use it, each once. -/
theorem foldl_noteAll {α : Type} (user : α → TypePath) (used : α → List TypePath) (xs : List α)
    (us : Users) (p : TypePath) :
    xs.foldl (fun us x => us.noteAll (user x) (used x)) us p
      = distinctOnto (us p) ((xs.filter fun x => (used x).contains p).map user) := by
  induction xs generalizing us with
  | nil => rfl
  | cons x xs ih =>
    rw [List.foldl_cons, ih, noteAll_apply]
    by_cases hx : p ∈ used x
    · rw [List.filter_cons_of_pos (by simpa using hx), List.map_cons, distinctOnto]
      by_cases hu : user x ∈ us p <;> simp [hx, hu]
    · rw [List.filter_cons_of_neg (by simpa using hx), if_neg fun h => hx h.1]

def lookedUp (a : Attr) : List String :=
  match a.type with
  | some (.switch _ cases) => cases.map Prod.snd
  | some (.named name) => if name = "" then [] else [name]
  | none => []

def usedBy (names : List String) : List TypePath :=
  names.flatMap fun name => match findType m here name with
    | .ok r => r.users
    | .error _ => []

def usedIn (as : List Attr) : List TypePath :=
  as.flatMap fun a => usedBy m here (lookedUp a)

def fieldAt (a : Attr) : Except SchemaError Field := do
  if a.id = "" then throw (.located here "" "id" (.invalid .noId))
  let type ← Fault.at_ here a.id "type" (typeRef (findType m here) a)
  fieldOf o m here a type

def membersAt (x : TypeDef × SchemaBody) : Except SchemaError TypeDef := do
  let fields ← x.2.seq.mapM (fieldAt o m x.1.path)
  let instances ← x.2.instances.mapM fun e => «instance» x.1.path e.1 e.2
  return { x.1 with fields := fields, instances := instances }

theorem noteAll_append (us : Users) (user : TypePath) (ps qs : List TypePath) :
    us.noteAll user (ps ++ qs) = (us.noteAll user ps).noteAll user qs :=
  List.foldl_append ..

theorem usedBy_cons (name : String) (names : List String) :
    usedBy m here (name :: names) = usedBy m here [name] ++ usedBy m here names := by
  simp [usedBy]

theorem findType_cases (name : String) (r : TypeRef) (h : findType m here name = .ok r) :
    (∃ p, r = .prim p ∧ Primitive.ofName? name = some p) ∨
      ∃ p, r = .user p ∧ m.lookupType here name = some p := by
  unfold findType at h
  split at h
  next p hp =>
    split at h
    · cases h
    · cases h
      exact .inl ⟨p, rfl, hp⟩
  next =>
    split at h
    next p hp =>
      cases h
      exact .inr ⟨p, rfl, hp⟩
    next => cases h

theorem tracks_namedType (name : String) : Tracks (namedType m here name)
    (findType m here name) fun us => us.noteAll here (usedBy m here [name]) := by
  intro us
  cases h : findType m here name with
  | error e =>
    rw [namedType, h]
    rfl
  | ok r =>
    have hused : usedBy m here [name] = r.users := by simp [usedBy, h]
    rw [namedType, h, hused]
    rcases findType_cases m here name r h with ⟨p, rfl, -⟩ | ⟨p, rfl, -⟩ <;> rfl

theorem tracks_caseType (key name : String) : Tracks (caseType (namedType m here) key name)
    (caseType (findType m here) key name) fun us => us.noteAll here (usedBy m here [name]) := by
  refine (tracks_namedType m here name).bind id fun r => ?_
  cases r with
  | user p => exact tracks_pure p
  | _ => exact tracks_lift _

theorem tracks_switchCases (cases : List (String × String)) :
    Tracks (switchCases (namedType m here) cases) (switchCases (findType m here) cases)
      fun us => us.noteAll here (usedBy m here (cases.map Prod.snd)) := by
  induction cases with
  | nil => exact tracks_pure ([], none)
  | cons c cases ih =>
    have hsteps : (fun us : Users => us.noteAll here (usedBy m here ((c :: cases).map Prod.snd)))
        = (fun us => us.noteAll here (usedBy m here (cases.map Prod.snd))) ∘
          fun us => us.noteAll here (usedBy m here [c.2]) := by
      funext us
      rw [List.map_cons, usedBy_cons, noteAll_append]
      rfl
    rw [hsteps]
    refine (tracks_caseType m here c.1 c.2).bind _ fun p => ?_
    split
    · exact ih.bind id fun _ => tracks_pure _
    · split
      · exact tracks_error _ _
      · exact ih.bind id fun _ => tracks_pure _

theorem tracks_typeRef (a : Attr) : Tracks (typeRef (namedType m here) a)
    (typeRef (findType m here) a) fun us => us.noteAll here (usedBy m here (lookedUp a)) := by
  unfold typeRef
  split
  next on cases htype =>
    rw [lookedUp, htype]
    exact (tracks_lift (exprOr .noSwitchOn on)).bind _ fun x =>
      (tracks_switchCases m here cases).bind id fun r => tracks_pure (TypeRef.switch x r.1 r.2)
  next htype =>
    rw [lookedUp, htype]
    exact tracks_pure TypeRef.bytes
  next name hne htype =>
    rw [lookedUp, htype]
    dsimp only
    rw [if_neg fun h => hne h]
    exact tracks_namedType m here name
  next htype =>
    rw [lookedUp, htype]
    exact tracks_pure TypeRef.bytes

theorem tracks_field (a : Attr) : Tracks (field o m here a) (fieldAt o m here a)
    fun us => us.noteAll here (usedBy m here (lookedUp a)) := by
  intro us
  unfold field fieldAt
  by_cases hid : a.id = ""
  · rw [if_pos hid, if_pos hid]
    rfl
  rw [if_neg hid, if_neg hid, tracks_typeRef m here a us]
  cases typeRef (findType m here) a with
  | error e => rfl
  | ok type =>
    change (fieldOf o m here a type >>= fun f => pure (f, _)) = (fieldOf o m here a type).map _
    cases fieldOf o m here a type <;> rfl

theorem tracks_members (x : TypeDef × SchemaBody) : Tracks (members o m x) (membersAt o m x)
    fun us => us.noteAll x.1.path (usedIn m x.1.path x.2.seq) := by
  have hfold : (fun us : Users => us.noteAll x.1.path (usedIn m x.1.path x.2.seq)) =
      fun us => x.2.seq.foldl
        (fun us a => us.noteAll x.1.path (usedBy m x.1.path (lookedUp a))) us := by
    funext us
    rw [Users.noteAll, usedIn, List.foldl_flatMap]
    rfl
  rw [hfold]
  exact (tracks_mapM _ _ _ (tracks_field o m x.1.path) x.2.seq).bind id fun fields =>
    (tracks_lift _).bind id fun instances => tracks_pure _

theorem tracks_allMembers (xs : List (TypeDef × SchemaBody)) :
    Tracks (xs.mapM (members o m)) (xs.mapM (membersAt o m)) fun us =>
      xs.foldl (fun us x => us.noteAll x.1.path (usedIn m x.1.path x.2.seq)) us :=
  tracks_mapM _ _ _ (tracks_members o m) xs

def usersOf (xs : List (TypeDef × SchemaBody)) (p : TypePath) : List TypePath :=
  distinct ((xs.filter fun x => (usedIn m x.1.path x.2.seq).contains p).map fun x => x.1.path)

theorem usersOf_congr (xs ys : List (TypeDef × SchemaBody))
    (h : List.Forall₂ (fun x y => x.1.path = y.1.path ∧ y.2 = x.2) xs ys) (p : TypePath) :
    usersOf m ys p = usersOf m xs p := by
  refine congrArg distinct (filter_map_of_forall₂ _ _ _ _ h.flip ?_)
  rintro x y ⟨hpath, hbody⟩
  exact ⟨hpath.symm, by rw [hpath, hbody]⟩

end Build

/-- A build makes the enums of all types, then their pools, then their members as if it noted
nothing, and then adds the users of every type. -/
theorem Model.build_ok (o : Options) (s : SchemaSet) (b : Model) (h : Model.build o s = .ok b) :
    ∃ withEnums withPools : List (TypeDef × SchemaBody), ∃ types : List TypeDef,
      (Build.allShells s).mapM (fun x => do
        return ({ x.1 with enums := ← Build.enums x.1.path x.2.enums }, x.2)) = .ok withEnums ∧
      withEnums.mapM (fun x => do
        return ({ x.1 with pool := ← Build.pool ⟨withEnums.map Prod.fst⟩ x.1.path x.2.order },
          x.2)) = .ok withPools ∧
      withPools.mapM (Build.membersAt o ⟨withPools.map Prod.fst⟩) = .ok types ∧
      b.types = types.map fun t =>
        { t with users := Build.usersOf ⟨withPools.map Prod.fst⟩ withPools t.path } := by
  obtain ⟨withEnums, h₁, h⟩ := (bind_eq_ok _ _ _).mp h
  obtain ⟨withPools, h₂, h⟩ := (bind_eq_ok _ _ _).mp h
  obtain ⟨⟨types, users⟩, h₃, h⟩ := (bind_eq_ok _ _ _).mp h
  obtain rfl := (pure_eq_ok _ _).mp h
  rw [Build.tracks_allMembers o _ withPools, map_eq_ok] at h₃
  obtain ⟨types', h₃, heq⟩ := h₃
  obtain ⟨rfl, rfl⟩ := Prod.mk.inj heq
  refine ⟨withEnums, withPools, types', h₁, h₂, h₃, List.map_congr_left fun t _ => ?_⟩
  exact congrArg (fun us => { t with users := us }) (Build.foldl_noteAll _ _ withPools _ t.path)

end FormatFuzz
