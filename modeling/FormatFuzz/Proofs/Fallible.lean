import Mathlib.Data.List.Forall2

/-!
# Computations that may fail

What a successful sequence, traversal or fold says about its steps, and with which errors one may
fail.
-/

set_option autoImplicit false

namespace FormatFuzz

variable {ε α β : Type}

theorem bind_eq_ok (x : Except ε α) (f : α → Except ε β) (b : β) :
    (x >>= f) = .ok b ↔ ∃ a, x = .ok a ∧ f a = .ok b := by
  cases x with
  | error e => simp [bind, Except.bind]
  | ok a => simp [bind, Except.bind]

theorem bind_eq_error (x : Except ε α) (f : α → Except ε β) (e : ε) :
    (x >>= f) = .error e ↔ x = .error e ∨ ∃ a, x = .ok a ∧ f a = .error e := by
  cases x with
  | error e => simp [bind, Except.bind]
  | ok a => simp [bind, Except.bind]

theorem ok_bind (a : α) (f : α → Except ε β) : (Except.ok a >>= f) = f a := rfl

theorem pure_eq_ok (a b : α) : (pure a : Except ε α) = .ok b ↔ a = b := by
  simp [pure, Except.pure]

theorem map_eq_ok (f : α → β) (x : Except ε α) (b : β) :
    x.map f = .ok b ↔ ∃ a, x = .ok a ∧ f a = b := by
  cases x with
  | error e => simp [Except.map]
  | ok a => simp [Except.map]

theorem guard_eq_ok (c : Prop) [Decidable c] (e : ε) (x : Except ε α) (b : α)
    (h : (if c then throw e else x) = .ok b) : ¬ c ∧ x = .ok b := by
  split at h
  next => cases h
  next hc => exact ⟨hc, h⟩

theorem join_eq_ok (c : Prop) [Decidable c] (x y : Except ε α) (f : α → Except ε β) (b : β)
    (h : (if c then x >>= f else y >>= f) = .ok b) :
    ∃ a, (if c then x else y) = .ok a ∧ f a = .ok b := by
  split at h
  next hc => simpa only [if_pos hc] using (bind_eq_ok x f b).mp h
  next hc => simpa only [if_neg hc] using (bind_eq_ok y f b).mp h

theorem mapM_eq_ok (f : α → Except ε β) (xs : List α) (ys : List β)
    (h : xs.mapM f = .ok ys) : List.Forall₂ (fun x y => f x = .ok y) xs ys := by
  induction xs generalizing ys with
  | nil =>
    rw [List.mapM_nil, pure_eq_ok] at h
    exact h ▸ List.Forall₂.nil
  | cons x xs ih =>
    rw [List.mapM_cons, bind_eq_ok] at h
    obtain ⟨y, hy, h⟩ := h
    obtain ⟨zs, hz, h⟩ := (bind_eq_ok _ _ _).mp h
    rw [pure_eq_ok] at h
    exact h ▸ List.Forall₂.cons hy (ih zs hz)

theorem mapM_of_forall₂ (f : α → Except ε β) (xs : List α) (ys : List β)
    (h : List.Forall₂ (fun x y => f x = .ok y) xs ys) : xs.mapM f = .ok ys := by
  induction h with
  | nil => rfl
  | cons hxy _ ih => rw [List.mapM_cons, hxy, ok_bind, ih]; rfl

theorem mapM_map_eq {γ : Type} (f : α → Except ε β) (p : α → γ) (q : β → γ)
    (hf : ∀ a b, f a = .ok b → q b = p a) (as : List α) (bs : List β)
    (h : as.mapM f = .ok bs) : bs.map q = as.map p := by
  have hsteps := mapM_eq_ok f as bs h
  clear h
  induction hsteps with
  | nil => rfl
  | cons hab _ ih => rw [List.map_cons, List.map_cons, ih, hf _ _ hab]

theorem mapM_self (f : α → Except ε α) (xs : List α) (h : ∀ x ∈ xs, f x = .ok x) :
    xs.mapM f = .ok xs := by
  induction xs with
  | nil => rfl
  | cons x xs ih =>
    rw [List.mapM_cons, h x (by simp), ok_bind, ih fun y hy => h y (List.mem_cons_of_mem x hy)]
    rfl

theorem forM_eq_ok (f : α → Except ε Unit) (xs : List α) :
    xs.forM f = .ok () ↔ ∀ x ∈ xs, f x = .ok () := by
  induction xs with
  | nil => simp [pure, Except.pure]
  | cons x xs ih =>
    rw [List.forall_mem_cons, ← ih]
    change (f x >>= fun _ => xs.forM f) = .ok ⟨⟩ ↔ _
    rw [bind_eq_ok]
    exact ⟨fun ⟨_, hx, hxs⟩ => ⟨hx, hxs⟩, fun ⟨hx, hxs⟩ => ⟨_, hx, hxs⟩⟩

theorem forall₂_mem_right (R : α → β → Prop) (xs : List α) (ys : List β)
    (h : List.Forall₂ R xs ys) (y : β) (hy : y ∈ ys) : ∃ x ∈ xs, R x y := by
  induction h with
  | nil => simp at hy
  | @cons a b as bs hab _ ih =>
    rcases List.mem_cons.mp hy with rfl | hy
    · exact ⟨a, by simp, hab⟩
    · obtain ⟨x, hx, hxy⟩ := ih hy
      exact ⟨x, List.mem_cons_of_mem a hx, hxy⟩

theorem forall₂_mem_left (R : α → β → Prop) (xs : List α) (ys : List β)
    (h : List.Forall₂ R xs ys) (x : α) (hx : x ∈ xs) : ∃ y ∈ ys, R x y :=
  forall₂_mem_right (fun y x => R x y) ys xs h.flip x hx

theorem forall₂_comp {γ : Type} {R : α → β → Prop} {S : β → γ → Prop} {T : α → γ → Prop}
    (h : ∀ a b c, R a b → S b c → T a c) {xs : List α} {ys : List β} {zs : List γ}
    (hxy : List.Forall₂ R xs ys) (hyz : List.Forall₂ S ys zs) : List.Forall₂ T xs zs := by
  induction hxy generalizing zs with
  | nil =>
    cases hyz
    exact .nil
  | cons hab _ ih =>
    cases hyz with
    | cons hbc hyz => exact .cons (h _ _ _ hab hbc) (ih hyz)

theorem exists_mapM_ok_iff (f : α → Except ε β) (xs : List α) :
    (∃ ys, xs.mapM f = .ok ys) ↔ ∀ x ∈ xs, ∃ y, f x = .ok y := by
  constructor
  · rintro ⟨ys, hys⟩ x hx
    obtain ⟨y, -, hy⟩ := forall₂_mem_left _ _ _ (mapM_eq_ok f xs ys hys) x hx
    exact ⟨y, hy⟩
  · intro h
    induction xs with
    | nil => exact ⟨[], rfl⟩
    | cons x xs ih =>
      obtain ⟨⟨y, hy⟩, hxs⟩ := List.forall_mem_cons.mp h
      obtain ⟨ys, hys⟩ := ih hxs
      exact ⟨y :: ys, by rw [List.mapM_cons, hy, ok_bind, hys]; rfl⟩

theorem map_eq_of_forall₂ {γ : Type} (f : α → γ) (g : β → γ) {R : α → β → Prop} {xs : List α}
    {ys : List β} (h : List.Forall₂ R xs ys) (hR : ∀ x y, R x y → f x = g y) :
    xs.map f = ys.map g := by
  rw [← List.forall₂_eq_eq_eq, List.forall₂_map_left_iff, List.forall₂_map_right_iff]
  exact h.imp hR

theorem filter_map_of_forall₂ {γ : Type} (f : α → γ) (g : β → γ) (p : α → Bool) (q : β → Bool)
    {R : α → β → Prop} {xs : List α} {ys : List β} (h : List.Forall₂ R xs ys)
    (hR : ∀ x y, R x y → f x = g y ∧ p x = q y) : (xs.filter p).map f = (ys.filter q).map g := by
  induction h with
  | nil => rfl
  | cons hxy _ ih =>
    obtain ⟨hfg, hpq⟩ := hR _ _ hxy
    rw [List.filter_cons, List.filter_cons, hpq]
    split
    · rw [List.map_cons, List.map_cons, ih, hfg]
    · exact ih

theorem foldlM_run (f : β → α → Except ε β) (P : List α → β → Prop)
    (step : ∀ done b x c, P done b → f b x = .ok c → P (done ++ [x]) c)
    (xs : List α) (b c : β) (hb : P [] b) (h : xs.foldlM f b = .ok c) : P xs c := by
  have run : ∀ (xs done : List α) (b : β), P done b → xs.foldlM f b = .ok c →
      P (done ++ xs) c := by
    intro xs
    induction xs with
    | nil =>
      intro done b hb h
      rw [List.foldlM_nil, pure_eq_ok] at h
      simpa [← h] using hb
    | cons x xs ih =>
      intro done b hb h
      rw [List.foldlM_cons, bind_eq_ok] at h
      obtain ⟨d, hd, h⟩ := h
      simpa using ih (done ++ [x]) d (step done b x d hb hd) h
  exact run xs [] b hb h

theorem exists_ok_of_toOption_map (x : Except ε α) (f : α → β) (b : β)
    (h : x.toOption.map f = some b) : ∃ a, x = .ok a ∧ f a = b := by
  cases x with
  | error e => simp [Except.toOption] at h
  | ok a => exact ⟨a, rfl, by simpa [Except.toOption] using h⟩

def SameOk (x y : Except ε α) : Prop :=
  ∀ a, x = .ok a ↔ y = .ok a

theorem SameOk.refl (x : Except ε α) : SameOk x x := fun _ => Iff.rfl

theorem SameOk.symm {x y : Except ε α} (h : SameOk x y) : SameOk y x := fun a => (h a).symm

theorem SameOk.trans {x y z : Except ε α} (h : SameOk x y) (g : SameOk y z) : SameOk x z :=
  fun a => (h a).trans (g a)

theorem sameOk_bind {x y : Except ε α} {f g : α → Except ε β} (h : SameOk x y)
    (hf : ∀ a, SameOk (f a) (g a)) : SameOk (x >>= f) (y >>= g) := by
  intro b
  rw [bind_eq_ok, bind_eq_ok]
  exact exists_congr fun a => and_congr (h a) (hf a b)

def FailsWithin (P : ε → Prop) : Except ε α → Prop
  | .ok _ => True
  | .error e => P e

section

variable (P : ε → Prop)

@[simp] theorem failsWithin_ok (a : α) : FailsWithin P (.ok a) := trivial

@[simp] theorem failsWithin_pure (a : α) : FailsWithin P (pure a : Except ε α) := trivial

@[simp] theorem failsWithin_error (e : ε) : FailsWithin P (.error e : Except ε α) ↔ P e := Iff.rfl

@[simp] theorem failsWithin_throw (e : ε) : FailsWithin P (throw e : Except ε α) ↔ P e := Iff.rfl

@[simp] theorem failsWithin_bind (x : Except ε α) (f : α → Except ε β) :
    FailsWithin P (x >>= f) ↔ FailsWithin P x ∧ ∀ a, x = .ok a → FailsWithin P (f a) := by
  cases x with
  | error e => simp [bind, Except.bind]
  | ok a => simp [bind, Except.bind]

@[simp] theorem failsWithin_map (f : α → β) (x : Except ε α) :
    FailsWithin P (f <$> x) ↔ FailsWithin P x := by
  cases x <;> rfl

theorem failsWithin_ite (c : Prop) [Decidable c] (x y : Except ε α) (hx : FailsWithin P x)
    (hy : FailsWithin P y) : FailsWithin P (if c then x else y) := by
  split
  · exact hx
  · exact hy

theorem failsWithin_join (c : Prop) [Decidable c] (x y : Except ε α) (f : α → Except ε β)
    (hx : FailsWithin P x) (hy : FailsWithin P y) (hf : ∀ a, FailsWithin P (f a)) :
    FailsWithin P (if c then x >>= f else y >>= f) :=
  failsWithin_ite P c _ _ ((failsWithin_bind P x f).mpr ⟨hx, fun a _ => hf a⟩)
    ((failsWithin_bind P y f).mpr ⟨hy, fun a _ => hf a⟩)

theorem failsWithin_mapM (f : α → Except ε β) (xs : List α) (h : ∀ x ∈ xs, FailsWithin P (f x)) :
    FailsWithin P (xs.mapM f) := by
  induction xs with
  | nil => exact failsWithin_pure P []
  | cons x xs ih =>
    have hxs := ih fun y hy => h y (List.mem_cons_of_mem x hy)
    simp only [List.mapM_cons, failsWithin_bind]
    exact ⟨h x (by simp), fun _ _ => ⟨hxs, fun _ _ => failsWithin_pure P _⟩⟩

theorem failsWithin_foldlM (f : β → α → Except ε β) (xs : List α)
    (h : ∀ x ∈ xs, ∀ b, FailsWithin P (f b x)) (b : β) : FailsWithin P (xs.foldlM f b) := by
  induction xs generalizing b with
  | nil => exact failsWithin_pure P b
  | cons x xs ih =>
    rw [List.foldlM_cons, failsWithin_bind]
    exact ⟨h x (by simp) b, fun c _ => ih (fun y hy => h y (List.mem_cons_of_mem x hy)) c⟩

end

end FormatFuzz
