import FormatFuzz.Proofs.Expr.Grammar

/-!
# What the readers take

Every reader takes lexemes that derive the tree it returns, or fails at a position inside the text.
`Reads` states both about one answer, so that each reader's rule is composed from the rules of the
readers it calls. No count of steps enters: a reader that runs out of them has only failed.
-/

set_option autoImplicit false

namespace FormatFuzz.Expr

inductive Reader where
  | conditional
  | chain (r : Rank)
  | more (r : Rank) (x : Expr)
  | operand (r : Rank)
  | negation
  | prefixed
  | trail (x : Expr)
  | primary
  | items (done : List Expr)

def Reader.run (stop n : Nat) : Reader → List Token → Read
  | .conditional, ts => Expr.conditional stop n ts
  | .chain r, ts => Expr.chain stop n r ts
  | .more r x, ts => Expr.more stop n r x ts
  | .operand r, ts => Expr.operand stop n r ts
  | .negation, ts => Expr.negation stop n ts
  | .prefixed, ts => Expr.prefixed stop n ts
  | .trail x, ts => Expr.trail stop n x ts
  | .primary, ts => Expr.primary stop n ts
  | .items done, ts => Expr.items stop n done ts

def Phrase.reader : Phrase → Reader
  | .conditional => .conditional
  | .chain r => .chain r
  | .negation => .negation
  | .signed => .prefixed
  | .postfixed => .prefixed
  | .primary => .primary
  | .elements => .items []

theorem operand_run (stop n : Nat) (r : Rank) (ts : List Token) :
    (Reader.operand r).run stop (n + 1) ts = r.joins.reader.run stop n ts := by
  cases r <;> simp only [Reader.run, operand, Rank.joins, Phrase.reader]

/-- What the lexemes that a reader takes have to do with the tree it returns. A reader that goes on
after a tree extends every phrase with that tree. -/
def Reader.Derives : Reader → List Lexeme → Expr → Prop
  | .conditional, ls, y => Expr.Derives .conditional ls y
  | .chain r, ls, y => Expr.Derives (.chain r) ls y
  | .more r x, ls, y =>
    ∀ ks, Expr.Derives (.chain r) ks x → Expr.Derives (.chain r) (ks ++ ls) y
  | .operand r, ls, y => Expr.Derives r.joins ls y
  | .negation, ls, y => Expr.Derives .negation ls y
  | .prefixed, ls, y => Expr.Derives .signed ls y
  | .trail x, ls, y =>
    ∀ ks, Expr.Derives .postfixed ks x → Expr.Derives .postfixed (ks ++ ls) y
  | .primary, ls, y => Expr.Derives .primary ls y
  | .items done, ls, y => ∃ ks xs, ls = ks ++ [.symbol .rbracket] ∧
      Expr.Derives .elements ks (.list xs) ∧ y = .list (done.reverse ++ xs)

def Confined (stop : Nat) (ts : List Token) : Prop :=
  ∀ t ∈ ts, t.start ≤ stop

/-- The answer `r` takes lexemes from the front of `ts` that stand in `P` to what it returns, or
fails inside the text. -/
def Reads {α : Type} (stop : Nat) (P : List Lexeme → α → Prop) (ts : List Token) :
    Except Stop (α × List Token) → Prop
  | .ok (y, rest) => ∃ used, ts = used ++ rest ∧ P (used.map Token.lexeme) y
  | .error (p, _) => p ≤ stop

section
variable {α β : Type} (stop : Nat)

theorem reads_mono (P Q : List Lexeme → α → Prop) (ts : List Token)
    (r : Except Stop (α × List Token)) (hpq : ∀ ls y, P ls y → Q ls y)
    (h : Reads stop P ts r) : Reads stop Q ts r := by
  cases r with
  | error e => exact h
  | ok a =>
    obtain ⟨used, ht, hp⟩ := h
    exact ⟨used, ht, hpq _ _ hp⟩

theorem reads_ok (P : List Lexeme → α → Prop) (y : α) (ts : List Token) (h : P [] y) :
    Reads stop P ts (.ok (y, ts)) :=
  ⟨[], rfl, h⟩

theorem reads_error (P : List Lexeme → α → Prop) (ts : List Token) (p : Nat) (f : Fault)
    (h : p ≤ stop) : Reads stop P ts (.error (p, f)) :=
  h

theorem reads_cons (P : List Lexeme → α → Prop) (t : Token) (ts : List Token)
    (r : Except Stop (α × List Token)) (h : Reads stop (fun ls y => P (t.lexeme :: ls) y) ts r) :
    Reads stop P (t :: ts) r := by
  cases r with
  | error e => exact h
  | ok a =>
    obtain ⟨used, ht, hp⟩ := h
    exact ⟨t :: used, by rw [ht, List.cons_append], hp⟩

theorem reads_bind (P : List Lexeme → α → Prop) (Q : List Lexeme → β → Prop) (ts : List Token)
    (r : Except Stop (α × List Token)) (k : α × List Token → Except Stop (β × List Token))
    (hts : Confined stop ts) (h : Reads stop P ts r)
    (hk : ∀ ls x rest, P ls x → Confined stop rest →
      Reads stop (fun ks y => Q (ls ++ ks) y) rest (k (x, rest))) :
    Reads stop Q ts (r >>= k) := by
  cases r with
  | error e => exact h
  | ok a =>
    obtain ⟨x, rest⟩ := a
    obtain ⟨used, rfl, hp⟩ := h
    have hr := hk _ x rest hp (fun t ht => hts t (List.mem_append_right used ht))
    show Reads stop Q (used ++ rest) (k (x, rest))
    cases hy : k (x, rest) with
    | error e =>
      rw [hy] at hr
      exact hr
    | ok b =>
      rw [hy] at hr
      obtain ⟨more, rfl, hq⟩ := hr
      exact ⟨used ++ more, by rw [List.append_assoc], by simpa using hq⟩

end

theorem confined_head (stop : Nat) (t : Token) (ts : List Token) (h : Confined stop (t :: ts)) :
    t.start ≤ stop :=
  h t (by simp)

theorem confined_tail (stop : Nat) (t : Token) (ts : List Token) (h : Confined stop (t :: ts)) :
    Confined stop ts :=
  fun u hu => h u (by simp [hu])

theorem next_le (stop : Nat) (ts : List Token) (h : Confined stop ts) : next stop ts ≤ stop := by
  cases ts with
  | nil => exact Nat.le_refl stop
  | cons t ts => exact confined_head stop t ts h

theorem ofAscii_injective : Function.Injective Text.ofAscii := by
  intro u w h
  have hm := String.ofList_injective h
  rw [List.map_inj_right] at hm
  · exact hm
  · intro a b hab
    have hv (c : UInt8) : (Char.ofNat c.toNat).toNat = c.toNat := by
      have hc : c.toNat.isValidChar := Or.inl (by have := c.toNat_lt; omega)
      rw [Char.ofNat, dif_pos hc]
      rfl
    exact UInt8.toNat_inj.mp (by rw [← hv a, ← hv b, hab])

theorem mem_keywords (s : String) :
    s ∈ keywords ↔ s ∈ ["and", "or", "not"] ∨ s = "true" ∨ s = "false" := by
  simp [keywords, or_assoc]

theorem path_concat (w : List UInt8) (ws : List (List UInt8)) (v : List UInt8) :
    (Text.ofAscii w :: (ws ++ [v]).map Text.ofAscii).dropLast
        = Text.ofAscii w :: ws.map Text.ofAscii ∧
      (Text.ofAscii w :: (ws ++ [v]).map Text.ofAscii).getLast?.getD "" = Text.ofAscii v := by
  have hp : Text.ofAscii w :: (ws ++ [v]).map Text.ofAscii
      = Text.ofAscii w :: ws.map Text.ofAscii ++ [Text.ofAscii v] := by simp
  rw [hp, List.dropLast_concat, List.getLast?_concat]
  exact ⟨rfl, rfl⟩

theorem segments_reads (stop : Nat) (ts : List Token) (h : Confined stop ts) :
    Reads stop (fun ls ss => ∃ ws, ls = pathLexemes ws ∧ ss = ws.map Text.ofAscii) ts
      (segments stop ts) := by
  fun_induction segments stop ts with
  | case1 a b t rest w hw ih =>
    have hr := ih (fun u hu => h u (by simp [hu]))
    cases hs : segments stop rest with
    | error e =>
      rw [hs] at hr
      exact hr
    | ok p =>
      rw [hs] at hr
      obtain ⟨used, rfl, ws, hu, hp⟩ := hr
      refine ⟨⟨.symbol .scope, a, b⟩ :: t :: used, by simp, w :: ws, ?_, ?_⟩
      · simp [pathLexemes, hw, hu]
      · simp [hp]
  | case2 a b t rest hw => exact h t (by simp)
  | case3 a b => exact Nat.le_refl stop
  | case4 ts h₁ h₂ => exact ⟨[], rfl, [], rfl, rfl⟩

theorem word_reads (stop : Nat) (w : List UInt8) (ts : List Token) (h : Confined stop ts)
    (hw : Text.ofAscii w ∉ ["and", "or", "not"]) :
    Reads stop (fun ls y => Derives .primary (.word w :: ls) y) ts
      (word stop (Text.ofAscii w) ts) := by
  unfold word
  split
  next ht =>
    obtain rfl : w = Text.utf8 "true" :=
      ofAscii_injective (ht.trans (by decide +kernel))
    exact reads_ok stop _ _ ts .yes
  next ht =>
    split
    next hf =>
      obtain rfl : w = Text.utf8 "false" :=
        ofAscii_injective (hf.trans (by decide +kernel))
      exact reads_ok stop _ _ ts .no
    next hf =>
      have hk : Text.ofAscii w ∉ keywords := by
        rw [mem_keywords, not_or, not_or]
        exact ⟨hw, ht, hf⟩
      have hs := segments_reads stop ts h
      split
      next e he =>
        rw [he] at hs
        exact hs
      next rest he =>
        rw [he] at hs
        obtain ⟨used, hu, ws, hl, hn⟩ := hs
        obtain rfl := List.map_eq_nil_iff.mp hn.symm
        refine ⟨used, hu, ?_⟩
        rw [hl]
        exact .name hk
      next s ss rest he =>
        rw [he] at hs
        obtain ⟨used, hu, ws, hl, hn⟩ := hs
        refine ⟨used, hu, ?_⟩
        obtain rfl | ⟨us, v, rfl⟩ := List.eq_nil_or_concat ws
        · simp at hn
        · rw [List.concat_eq_append] at hl hn
          rw [hl, hn, (path_concat w us v).1, (path_concat w us v).2]
          exact .member hk us v

theorem derives_signed (l : Lexeme) (op : UnaryOp) (ls : List Lexeme) (x : Expr)
    (hl : SpellsSign l op) (h : Derives .signed ls x) :
    Derives .signed (l :: ls) (signed op x) := by
  unfold signed
  split
  next v =>
    cases hl
    exact .folded h
  next hf =>
    refine .sign hl h ?_
    rintro v ⟨rfl, rfl⟩
    exact hf v rfl rfl

def Sound (stop n : Nat) : Prop :=
  ∀ (rd : Reader) (ts : List Token), Confined stop ts → Reads stop rd.Derives ts (rd.run stop n ts)

section
variable (stop n : Nat) (ih : Sound stop n) (ts : List Token) (hts : Confined stop ts)
include ih hts

theorem conditional_reads : Reads stop (Derives .conditional) ts (conditional stop (n + 1) ts) := by
  unfold conditional
  apply reads_bind stop (Derives (.chain .disjunction)) _ ts _ _ hts
    (ih (.chain .disjunction) ts hts)
  intro cs c rest hc hr
  dsimp only
  split
  next q e rest =>
    have hq := confined_head stop _ _ hr
    have hr := confined_tail stop _ _ hr
    apply reads_cons
    apply reads_bind stop (Derives .conditional) _ rest _ _ hr (ih .conditional rest hr)
    intro as a rest ha hr
    dsimp only
    split
    next p e' rest =>
      have hr := confined_tail stop _ _ hr
      apply reads_cons
      apply reads_bind stop (Derives .conditional) _ rest _ _ hr (ih .conditional rest hr)
      intro bs b rest hb hr
      refine reads_ok stop _ _ rest ?_
      simpa using Derives.cond hc ha hb
    next => exact reads_error stop _ _ q _ hq
  next => exact reads_ok stop _ _ _ (by simpa using Derives.plain hc)

theorem chain_reads (r : Rank) :
    Reads stop (Derives (.chain r)) ts (chain stop (n + 1) r ts) := by
  unfold chain
  apply reads_bind stop (Derives r.joins) _ ts _ _ hts (ih (.operand r) ts hts)
  intro ls x rest hx hr
  refine reads_mono stop _ _ _ _ ?_ (ih (.more r x) rest hr)
  intro ks y hy
  exact hy ls (.single hx)

theorem more_reads (r : Rank) (x : Expr) :
    Reads stop (Reader.more r x).Derives ts (more stop (n + 1) r x ts) := by
  unfold more
  split
  next => exact reads_ok stop _ _ _ (fun ks hx => by simpa using hx)
  next t rest =>
    have hr := confined_tail stop _ _ hts
    split
    next => exact reads_ok stop _ _ _ (fun ks hx => by simpa using hx)
    next op hop =>
      apply reads_cons
      apply reads_bind stop (Derives r.joins) _ rest _ _ hr (ih (.operand r) rest hr)
      intro rs y rest hy hr
      refine reads_mono stop _ _ _ _ ?_ (ih (.more r (.binary op x y)) rest hr)
      intro ls z hz ks hx
      have := hz _ (.joined hx ((r.op?_eq_some _ _).mp hop) hy)
      simpa using this

theorem negation_reads : Reads stop (Derives .negation) ts (negation stop (n + 1) ts) := by
  unfold negation
  split
  next t rest =>
    split
    next hn =>
      have hr := confined_tail stop _ _ hts
      apply reads_cons
      apply reads_bind stop (Derives .negation) _ rest _ _ hr (ih .negation rest hr)
      intro ls x rest hx hr
      refine reads_ok stop _ _ rest ?_
      rw [(isWord_iff _ _).mp hn, List.append_nil]
      exact .negated hx
    next =>
      exact reads_mono stop _ _ _ _ (fun _ _ => .affirmed) (ih (.chain .comparison) _ hts)
  next =>
    exact reads_mono stop _ _ _ _ (fun _ _ => .affirmed) (ih (.chain .comparison) _ hts)

theorem prefixed_reads : Reads stop (Derives .signed) ts (prefixed stop (n + 1) ts) := by
  unfold prefixed
  split
  next t rest =>
    split
    next op hop =>
      have hr := confined_tail stop _ _ hts
      apply reads_cons
      apply reads_bind stop (Derives .signed) _ rest _ _ hr (ih .prefixed rest hr)
      intro ls x rest hx hr
      refine reads_ok stop _ _ rest ?_
      rw [List.append_nil]
      exact derives_signed _ _ _ _ ((sign?_eq_some _ _).mp hop) hx
    next =>
      apply reads_bind stop (Derives .primary) _ _ _ _ hts (ih .primary _ hts)
      intro ls x rest hx hr
      refine reads_mono stop _ _ _ _ ?_ (ih (.trail x) rest hr)
      intro ks y hy
      exact .unsigned (hy ls (.bare hx))
  next => exact reads_error stop _ _ stop _ (Nat.le_refl stop)

theorem trail_reads (x : Expr) :
    Reads stop (Reader.trail x).Derives ts (trail stop (n + 1) x ts) := by
  unfold trail
  split
  next a b t rest =>
    have ht := confined_tail stop _ _ hts
    have hr := confined_tail stop _ _ ht
    split
    next w hw =>
      refine reads_cons stop _ _ _ _ (reads_cons stop _ _ _ _ ?_)
      refine reads_mono stop _ _ _ _ ?_ (ih (.trail (.attr x (Text.ofAscii w))) rest hr)
      intro ls y hy ks hx
      rw [hw]
      simpa using hy _ (.dotted hx w)
    next => exact reads_error stop _ _ _ _ (confined_head stop _ _ ht)
  next => exact reads_error stop _ _ stop _ (Nat.le_refl stop)
  next a b rest =>
    have hr := confined_tail stop _ _ hts
    apply reads_cons
    apply reads_bind stop (Derives .conditional) _ rest _ _ hr (ih .conditional rest hr)
    intro is i rest hi hr
    dsimp only
    split
    next c d rest =>
      have hr := confined_tail stop _ _ hr
      apply reads_cons
      refine reads_mono stop _ _ _ _ ?_ (ih (.trail (.index x i)) rest hr)
      intro ls y hy ks hx
      simpa using hy _ (.indexed hx hi)
    next => exact reads_error stop _ _ _ _ (next_le stop _ hr)
  next => exact reads_ok stop _ _ _ (fun ks hx => by simpa using hx)

theorem primary_reads : Reads stop (Derives .primary) ts (primary stop (n + 1) ts) := by
  unfold primary
  split
  next => exact reads_error stop _ _ stop _ (Nat.le_refl stop)
  next t rest =>
    have ht := confined_head stop _ _ hts
    have hr := confined_tail stop _ _ hts
    apply reads_cons
    split
    next s hs =>
      rw [hs]
      split
      next v hv => exact reads_ok stop _ _ _ (.int hv)
      next => exact reads_error stop _ _ _ _ ht
    next s hs =>
      rw [hs]
      split
      next v hv => exact reads_ok stop _ _ _ (.float hv)
      next => exact reads_error stop _ _ _ _ ht
    next v hv =>
      rw [hv]
      exact reads_ok stop _ _ _ (.str v)
    next w hw =>
      rw [hw]
      split
      next => exact reads_error stop _ _ _ _ ht
      next hk => exact word_reads stop w rest hr hk
    next hl =>
      rw [hl]
      apply reads_bind stop (Derives .conditional) _ rest _ _ hr (ih .conditional rest hr)
      intro ls x rest hx hr
      dsimp only
      split
      next c d rest =>
        refine reads_cons stop _ _ _ _ (reads_ok stop _ _ _ ?_)
        exact .group hx
      next => exact reads_error stop _ _ _ _ (next_le stop _ hr)
    next hl =>
      rw [hl]
      split
      next c d rest =>
        exact reads_cons stop _ _ _ _ (reads_ok stop _ _ _ .empty)
      next =>
        refine reads_mono stop _ _ _ _ ?_ (ih (.items []) rest hr)
        rintro ls y ⟨ks, xs, rfl, hx, rfl⟩
        exact .list hx
    next => exact reads_error stop _ _ _ _ ht
    next => exact reads_error stop _ _ _ _ ht
    next => exact reads_error stop _ _ _ _ ht

theorem items_reads (done : List Expr) :
    Reads stop (Reader.items done).Derives ts (items stop (n + 1) done ts) := by
  unfold items
  apply reads_bind stop (Derives .conditional) _ ts _ _ hts (ih .conditional ts hts)
  intro ls x rest hx hr
  dsimp only
  split
  next a b rest =>
    have hr := confined_tail stop _ _ hr
    apply reads_cons
    refine reads_mono stop _ _ _ _ ?_ (ih (.items (x :: done)) rest hr)
    rintro ks y ⟨es, xs, rfl, hes, rfl⟩
    exact ⟨ls ++ .symbol .comma :: es, x :: xs, by simp, .next hx hes, by simp⟩
  next a b rest =>
    refine reads_cons stop _ _ _ _ (reads_ok stop _ _ _ ?_)
    exact ⟨ls, [x], rfl, .last hx, by simp⟩
  next => exact reads_error stop _ _ _ _ (next_le stop _ hr)

end

theorem reader_sound (stop n : Nat) : Sound stop n := by
  induction n with
  | zero =>
    intro rd ts hts
    cases rd <;> exact reads_error stop _ _ stop .ended (Nat.le_refl stop)
  | succ n ih =>
    intro rd ts hts
    cases rd with
    | conditional => exact conditional_reads stop n ih ts hts
    | chain r => exact chain_reads stop n ih ts hts r
    | more r x => exact more_reads stop n ih ts hts r x
    | operand r =>
      rw [operand_run]
      have h := ih r.joins.reader ts hts
      cases r <;> exact h
    | negation => exact negation_reads stop n ih ts hts
    | prefixed => exact prefixed_reads stop n ih ts hts
    | trail x => exact trail_reads stop n ih ts hts x
    | primary => exact primary_reads stop n ih ts hts
    | items done => exact items_reads stop n ih ts hts done

end FormatFuzz.Expr
