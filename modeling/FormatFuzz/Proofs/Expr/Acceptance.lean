import FormatFuzz.Proofs.Expr.Reading

/-!
# What the readers accept

A reader accepts a phrase in front of every rest that cannot continue it. `Accepts` hides the count
of steps: a reader needs thirty-two for each token and its `height` more, and every call it makes
is either lower or after a token.
-/

set_option autoImplicit false

namespace FormatFuzz.Expr

def Reader.height : Reader → Nat
  | .conditional => 29
  | .chain r => 34 - 3 * r.level
  | .more _ _ => 1
  | .operand r => 33 - 3 * r.level
  | .negation => 23
  | .prefixed => 2
  | .trail _ => 1
  | .primary => 1
  | .items _ => 30

theorem height_pos (rd : Reader) : 0 < rd.height := by
  cases rd with
  | chain r => cases r <;> decide
  | operand r => cases r <;> decide
  | _ => exact Nat.succ_pos _

theorem height_le (rd : Reader) : rd.height ≤ 30 := by
  cases rd with
  | chain r => cases r <;> decide
  | operand r => cases r <;> decide
  | _ => simp [Reader.height]

def Accepts (stop : Nat) (rd : Reader) (ts : List Token) (x : Expr) (rest : List Token) : Prop :=
  ∀ n, 32 * ts.length + rd.height ≤ n → rd.run stop n ts = .ok (x, rest)

def Closed (k : Nat) (ts : List Token) : Prop :=
  ∀ t ∈ ts.head?, strength t.lexeme < k

theorem closed_nil (k : Nat) : Closed k [] := by
  simp [Closed]

theorem closed_cons (k : Nat) (t : Token) (l : Lexeme) (ts : List Token) (ht : t.lexeme = l)
    (h : strength l < k) : Closed k (t :: ts) := by
  simpa [Closed, ht] using h

theorem closed_mono (j k : Nat) (ts : List Token) (hjk : j ≤ k) (h : Closed j ts) :
    Closed k ts :=
  fun t ht => Nat.lt_of_lt_of_le (h t ht) hjk

section
variable (stop : Nat)

/-- It is enough to follow a reader for one step, after which a lower reader may run on the same
tokens and any reader on fewer. -/
theorem accepts_step (rd : Reader) (ts : List Token) (x : Expr) (rest : List Token)
    (h : ∀ n, 32 * ts.length + rd.height ≤ n + 1 → rd.run stop (n + 1) ts = .ok (x, rest)) :
    Accepts stop rd ts x rest := by
  intro n hn
  have hp := height_pos rd
  obtain ⟨m, rfl⟩ : ∃ m, n = m + 1 := ⟨n - 1, by omega⟩
  exact h m hn

theorem accepts_lower (rd rd' : Reader) (ts us : List Token) (x : Expr) (rest : List Token)
    (n : Nat) (hn : 32 * ts.length + rd.height ≤ n + 1) (hu : us.length ≤ ts.length)
    (hh : rd'.height < rd.height) (h : Accepts stop rd' us x rest) :
    rd'.run stop n us = .ok (x, rest) :=
  h n (by omega)

theorem accepts_fewer (rd rd' : Reader) (ts us : List Token) (x : Expr) (rest : List Token)
    (n : Nat) (hn : 32 * ts.length + rd.height ≤ n + 1) (hu : us.length < ts.length)
    (h : Accepts stop rd' us x rest) : rd'.run stop n us = .ok (x, rest) := by
  have hp := height_pos rd
  have hl := height_le rd'
  exact h n (by omega)

theorem accepts_operand (r : Rank) (ts : List Token) (x : Expr) (rest : List Token)
    (h : Accepts stop r.joins.reader ts x rest) : Accepts stop (.operand r) ts x rest := by
  apply accepts_step
  intro n hn
  rw [operand_run]
  exact accepts_lower stop _ _ ts ts x rest n hn (Nat.le_refl _) (by cases r <;> decide) h

theorem accepts_chain (r : Rank) (us ts : List Token) (x y : Expr) (rest : List Token)
    (hx : Accepts stop (.operand r) (us ++ ts) x ts) (hy : Accepts stop (.more r x) ts y rest) :
    Accepts stop (.chain r) (us ++ ts) y rest := by
  apply accepts_step
  intro n hn
  have ho := accepts_lower stop _ _ _ _ x ts n hn (Nat.le_refl _) (by cases r <;> decide) hx
  have hm := accepts_lower stop _ _ _ _ y rest n hn (by simp)
    (by cases r <;> simp [Reader.height, Rank.level]) hy
  simp only [Reader.run] at ho hm ⊢
  rw [chain, ho]
  exact hm

theorem accepts_more_end (r : Rank) (x : Expr) (ts : List Token) (h : Closed r.level ts) :
    Accepts stop (.more r x) ts x ts := by
  apply accepts_step
  intro n hn
  cases ts with
  | nil => simp [Reader.run, more]
  | cons t ts => simp [Reader.run, more, op?_eq_none r t.lexeme (h t rfl)]

theorem accepts_more (r : Rank) (t : Token) (op : BinaryOp) (us ts : List Token) (x y z : Expr)
    (rest : List Token) (ht : r.Spells t.lexeme op)
    (hy : Accepts stop (.operand r) (us ++ ts) y ts)
    (hz : Accepts stop (.more r (.binary op x y)) ts z rest) :
    Accepts stop (.more r x) (t :: (us ++ ts)) z rest := by
  apply accepts_step
  intro n hn
  have ho := accepts_fewer stop _ _ _ _ y ts n hn (by simp) hy
  have hm := accepts_fewer stop _ _ _ _ z rest n hn
    (by simp only [List.length_cons, List.length_append]; omega) hz
  simp only [Reader.run] at ho hm ⊢
  simp only [more, (r.op?_eq_some _ _).mpr ht, ho]
  exact hm

theorem accepts_conditional (us ts : List Token) (x : Expr)
    (h : Closed (Phrase.level .conditional) ts)
    (hx : Accepts stop (.chain .disjunction) (us ++ ts) x ts) :
    Accepts stop .conditional (us ++ ts) x ts := by
  apply accepts_step
  intro n hn
  have hc := accepts_lower stop _ _ _ _ x ts n hn (Nat.le_refl _) (by decide) hx
  simp only [Reader.run] at hc ⊢
  rw [conditional, hc]
  cases ts with
  | nil => rfl
  | cons t ts =>
    obtain ⟨l, a, b⟩ := t
    have hl : l ≠ .symbol .question := by
      rintro rfl
      exact absurd (h _ rfl) (by simp [strength, Phrase.level])
    simp only [bind, Except.bind]
    split
    next he => exact absurd (congrArg Token.lexeme (List.cons.inj he).1) hl
    next => rfl

theorem accepts_choice (q e : Token) (us vs ws : List Token) (c a b : Expr) (rest : List Token)
    (hq : q.lexeme = .symbol .question) (he : e.lexeme = .symbol .colon)
    (hc : Accepts stop (.chain .disjunction) (us ++ q :: (vs ++ e :: ws)) c (q :: (vs ++ e :: ws)))
    (ha : Accepts stop .conditional (vs ++ e :: ws) a (e :: ws))
    (hb : Accepts stop .conditional ws b rest) :
    Accepts stop .conditional (us ++ q :: (vs ++ e :: ws)) (.cond c a b) rest := by
  apply accepts_step
  intro n hn
  have hc := accepts_lower stop _ _ _ _ c _ n hn (Nat.le_refl _) (by decide) hc
  have ha := accepts_fewer stop _ _ _ _ a _ n hn
    (by simp only [List.length_cons, List.length_append]; omega) ha
  have hb := accepts_fewer stop _ _ _ _ b rest n hn
    (by simp only [List.length_cons, List.length_append]; omega) hb
  obtain ⟨l, q₁, q₂⟩ := q
  obtain ⟨l', e₁, e₂⟩ := e
  obtain rfl : l = .symbol .question := hq
  obtain rfl : l' = .symbol .colon := he
  simp only [Reader.run] at hc ha hb ⊢
  simp only [conditional, hc, bind, Except.bind, ha, hb]

theorem accepts_not (t : Token) (ts : List Token) (x : Expr) (rest : List Token)
    (ht : t.lexeme = .word (Text.utf8 "not")) (hx : Accepts stop .negation ts x rest) :
    Accepts stop .negation (t :: ts) (.unary .not x) rest := by
  apply accepts_step
  intro n hn
  have hn := accepts_fewer stop _ _ _ _ x rest n hn (by simp) hx
  simp only [Reader.run] at hn ⊢
  simp only [negation, (isWord_iff _ _).mpr ht, if_true, hn, bind, Except.bind]

theorem accepts_negation (t : Token) (ts : List Token) (x : Expr) (rest : List Token)
    (ht : isWord "not" t.lexeme = false)
    (hx : Accepts stop (.chain .comparison) (t :: ts) x rest) :
    Accepts stop .negation (t :: ts) x rest := by
  apply accepts_step
  intro n hn
  have hc := accepts_lower stop _ _ _ _ x rest n hn (Nat.le_refl _) (by decide) hx
  simp only [Reader.run] at hc ⊢
  simp only [negation, ht, Bool.false_eq_true, if_false, hc]

theorem signed_unary (op : UnaryOp) (x : Expr) (h : ∀ v, ¬ (op = .neg ∧ x = .int v)) :
    signed op x = .unary op x := by
  unfold signed
  split
  next v => exact absurd ⟨rfl, rfl⟩ (h v)
  next => rfl

theorem accepts_sign (t : Token) (op : UnaryOp) (ts : List Token) (x : Expr) (rest : List Token)
    (ht : SpellsSign t.lexeme op) (hx : Accepts stop .prefixed ts x rest) :
    Accepts stop .prefixed (t :: ts) (signed op x) rest := by
  apply accepts_step
  intro n hn
  have hp := accepts_fewer stop _ _ _ _ x rest n hn (by simp) hx
  simp only [Reader.run] at hp ⊢
  simp only [prefixed, (sign?_eq_some _ _).mpr ht, hp, bind, Except.bind]

theorem accepts_prefixed (t : Token) (us ts : List Token) (x y : Expr) (rest : List Token)
    (ht : sign? t.lexeme = none) (hx : Accepts stop .primary (t :: (us ++ ts)) x ts)
    (hy : Accepts stop (.trail x) ts y rest) :
    Accepts stop .prefixed (t :: (us ++ ts)) y rest := by
  apply accepts_step
  intro n hn
  have hp := accepts_lower stop _ _ _ _ x ts n hn (Nat.le_refl _) (by decide) hx
  have hr := accepts_fewer stop _ _ _ _ y rest n hn
    (by simp only [List.length_cons, List.length_append]; omega) hy
  simp only [Reader.run] at hp hr ⊢
  simp only [prefixed, ht, hp, bind, Except.bind]
  exact hr

theorem accepts_trail_end (x : Expr) (ts : List Token) (h : Closed (Phrase.level .postfixed) ts) :
    Accepts stop (.trail x) ts x ts := by
  apply accepts_step
  intro n hn
  simp only [Reader.run]
  unfold trail
  split
  next => exact absurd (h _ rfl) (by simp [strength, Phrase.level])
  next => exact absurd (h _ rfl) (by simp [strength, Phrase.level])
  next => exact absurd (h _ rfl) (by simp [strength, Phrase.level])
  next => rfl

theorem accepts_dotted (d t : Token) (w : List UInt8) (ts : List Token) (x y : Expr)
    (rest : List Token) (hd : d.lexeme = .symbol .dot) (ht : t.lexeme = .word w)
    (hy : Accepts stop (.trail (.attr x (Text.ofAscii w))) ts y rest) :
    Accepts stop (.trail x) (d :: t :: ts) y rest := by
  apply accepts_step
  intro n hn
  have hr := accepts_fewer stop _ _ _ _ y rest n hn (by simp only [List.length_cons]; omega) hy
  obtain ⟨l, a, b⟩ := d
  obtain rfl : l = .symbol .dot := hd
  simp only [Reader.run] at hr ⊢
  simp only [trail, ht, hr]

theorem accepts_indexed (b e : Token) (us ts : List Token) (x i y : Expr) (rest : List Token)
    (hb : b.lexeme = .symbol .lbracket) (he : e.lexeme = .symbol .rbracket)
    (hi : Accepts stop .conditional (us ++ e :: ts) i (e :: ts))
    (hy : Accepts stop (.trail (.index x i)) ts y rest) :
    Accepts stop (.trail x) (b :: (us ++ e :: ts)) y rest := by
  apply accepts_step
  intro n hn
  have hc := accepts_fewer stop _ _ _ _ i _ n hn (by simp) hi
  have hr := accepts_fewer stop _ _ _ _ y rest n hn
    (by simp only [List.length_cons, List.length_append]; omega) hy
  obtain ⟨l, b₁, b₂⟩ := b
  obtain ⟨l', e₁, e₂⟩ := e
  obtain rfl : l = .symbol .lbracket := hb
  obtain rfl : l' = .symbol .rbracket := he
  simp only [Reader.run] at hc hr ⊢
  simp only [trail, hc, bind, Except.bind, hr]

theorem segments_path (ps : List Token) (ws : List (List UInt8)) (ts : List Token)
    (hp : ps.map Token.lexeme = pathLexemes ws) (h : Closed (Phrase.level .primary) ts) :
    segments stop (ps ++ ts) = .ok (ws.map Text.ofAscii, ts) := by
  induction ws generalizing ps with
  | nil =>
    obtain rfl := List.map_eq_nil_iff.mp hp
    rw [List.nil_append]
    unfold segments
    split
    next => exact absurd (h _ rfl) (by simp [strength, Phrase.level])
    next => exact absurd (h _ rfl) (by simp [strength, Phrase.level])
    next => rfl
  | cons w ws ih =>
    obtain ⟨s, us, rfl, hs, hu⟩ := List.map_eq_cons_iff.mp hp
    obtain ⟨t, vs, rfl, ht, hv⟩ := List.map_eq_cons_iff.mp hu
    obtain ⟨l, a, b⟩ := s
    obtain rfl : l = .symbol .scope := hs
    simp only [List.cons_append, segments, ht, ih vs hv, Except.map, List.map_cons]

theorem accepts_int (t : Token) (s : List UInt8) (v : Int) (ts : List Token)
    (ht : t.lexeme = .int s) (hv : Numeral.integer? (Text.ofAscii s).toList = some v) :
    Accepts stop .primary (t :: ts) (.int v) ts := by
  apply accepts_step
  intro n hn
  simp only [Reader.run, primary, ht, hv]

theorem accepts_float (t : Token) (s : List UInt8) (v : Double) (ts : List Token)
    (ht : t.lexeme = .float s)
    (hv : Numeral.double ((Text.ofAscii s).toList.filter (· != '_')) = .ok v) :
    Accepts stop .primary (t :: ts) (.float v) ts := by
  apply accepts_step
  intro n hn
  simp only [Reader.run, primary, ht, hv]

theorem accepts_str (t : Token) (v : List UInt8) (ts : List Token) (ht : t.lexeme = .str v) :
    Accepts stop .primary (t :: ts) (.str (Text.ofUtf8 v)) ts := by
  apply accepts_step
  intro n hn
  simp only [Reader.run, primary, ht]

theorem accepts_word (t : Token) (w : List UInt8) (ts : List Token) (x : Expr)
    (rest : List Token) (ht : t.lexeme = .word w)
    (hw : Text.ofAscii w ∉ ["and", "or", "not"])
    (hx : word stop (Text.ofAscii w) ts = .ok (x, rest)) :
    Accepts stop .primary (t :: ts) x rest := by
  apply accepts_step
  intro n hn
  simp only [Reader.run, primary, ht, if_neg hw, hx]

theorem accepts_name (t : Token) (w : List UInt8) (ts : List Token) (ht : t.lexeme = .word w)
    (hw : Text.ofAscii w ∉ keywords) (h : Closed (Phrase.level .primary) ts) :
    Accepts stop .primary (t :: ts) (.name (Text.ofAscii w)) ts := by
  simp only [mem_keywords, not_or] at hw
  refine accepts_word stop t w ts _ ts ht hw.1 ?_
  have hs := segments_path stop [] [] ts rfl h
  rw [List.nil_append] at hs
  rw [word, if_neg hw.2.1, if_neg hw.2.2, hs]
  rfl

theorem accepts_member (t : Token) (w : List UInt8) (ps : List Token) (ws : List (List UInt8))
    (v : List UInt8) (ts : List Token) (ht : t.lexeme = .word w)
    (hw : Text.ofAscii w ∉ keywords) (hp : ps.map Token.lexeme = pathLexemes (ws ++ [v]))
    (h : Closed (Phrase.level .primary) ts) :
    Accepts stop .primary (t :: (ps ++ ts))
      (.member (Text.ofAscii w :: ws.map Text.ofAscii) (Text.ofAscii v)) ts := by
  simp only [mem_keywords, not_or] at hw
  refine accepts_word stop t w (ps ++ ts) _ ts ht hw.1 ?_
  rw [word, if_neg hw.2.1, if_neg hw.2.2, segments_path stop ps (ws ++ [v]) ts hp h]
  obtain ⟨s, ss, hs⟩ : ∃ s ss, (ws ++ [v]).map Text.ofAscii = s :: ss :=
    List.exists_cons_of_ne_nil (by simp)
  rw [← (path_concat w ws v).1, ← (path_concat w ws v).2, hs]

theorem accepts_group (b e : Token) (us ts : List Token) (x : Expr)
    (hb : b.lexeme = .symbol .lparen) (he : e.lexeme = .symbol .rparen)
    (hx : Accepts stop .conditional (us ++ e :: ts) x (e :: ts)) :
    Accepts stop .primary (b :: (us ++ e :: ts)) x ts := by
  apply accepts_step
  intro n hn
  have hc := accepts_fewer stop _ _ _ _ x _ n hn (by simp) hx
  obtain ⟨l', e₁, e₂⟩ := e
  obtain rfl : l' = .symbol .rparen := he
  simp only [Reader.run] at hc ⊢
  simp only [primary, hb, hc, bind, Except.bind]

theorem accepts_empty (b e : Token) (ts : List Token) (hb : b.lexeme = .symbol .lbracket)
    (he : e.lexeme = .symbol .rbracket) :
    Accepts stop .primary (b :: e :: ts) (.list []) ts := by
  apply accepts_step
  intro n hn
  obtain ⟨l', e₁, e₂⟩ := e
  obtain rfl : l' = .symbol .rbracket := he
  simp only [Reader.run, primary, hb]

theorem accepts_list (b t : Token) (ts : List Token) (x : Expr) (rest : List Token)
    (hb : b.lexeme = .symbol .lbracket) (ht : t.lexeme ≠ .symbol .rbracket)
    (hx : Accepts stop (.items []) (t :: ts) x rest) :
    Accepts stop .primary (b :: t :: ts) x rest := by
  apply accepts_step
  intro n hn
  have hi := accepts_fewer stop _ _ _ _ x rest n hn (by simp) hx
  simp only [Reader.run] at hi ⊢
  simp only [primary, hb]
  split
  next he => exact absurd (congrArg Token.lexeme (List.cons.inj he).1) ht
  next => exact hi

theorem accepts_last (e : Token) (us ts : List Token) (done : List Expr) (x : Expr)
    (he : e.lexeme = .symbol .rbracket)
    (hx : Accepts stop .conditional (us ++ e :: ts) x (e :: ts)) :
    Accepts stop (.items done) (us ++ e :: ts) (.list (done.reverse ++ [x])) ts := by
  apply accepts_step
  intro n hn
  have hc := accepts_lower stop _ _ _ _ x _ n hn (Nat.le_refl _) (by simp [Reader.height]) hx
  obtain ⟨l, a, b⟩ := e
  obtain rfl : l = .symbol .rbracket := he
  simp only [Reader.run] at hc ⊢
  simp only [items, hc, bind, Except.bind, List.reverse_cons]

theorem accepts_next (c : Token) (us ts : List Token) (done : List Expr) (x y : Expr)
    (rest : List Token) (hc : c.lexeme = .symbol .comma)
    (hx : Accepts stop .conditional (us ++ c :: ts) x (c :: ts))
    (hy : Accepts stop (.items (x :: done)) ts y rest) :
    Accepts stop (.items done) (us ++ c :: ts) y rest := by
  apply accepts_step
  intro n hn
  have hx := accepts_lower stop _ _ _ _ x _ n hn (Nat.le_refl _) (by simp [Reader.height]) hx
  have hy := accepts_fewer stop _ _ _ _ y rest n hn
    (by simp only [List.length_cons, List.length_append]; omega) hy
  obtain ⟨l, a, b⟩ := c
  obtain rfl : l = .symbol .comma := hc
  simp only [Reader.run] at hx hy ⊢
  simp only [items, hx, bind, Except.bind, hy]

/-- A phrase is read in front of what cannot continue it. A phrase that grows to the right is read
in front of what continues it too, and then hands its tree to the reader that goes on. -/
def Accepted : Phrase → List Token → Expr → Prop
  | .chain r, us, x => ∀ ts y rest, Closed r.joins.level ts →
      Accepts stop (.more r x) ts y rest → Accepts stop (.chain r) (us ++ ts) y rest
  | .postfixed, us, x => ∀ ts y rest, Closed (Phrase.level .primary) ts →
      Accepts stop (.trail x) ts y rest → Accepts stop .prefixed (us ++ ts) y rest
  | .elements, us, x => ∀ done e ts xs, e.lexeme = .symbol .rbracket → x = .list xs →
      Accepts stop (.items done) (us ++ e :: ts) (.list (done.reverse ++ xs)) ts
  | p, us, x => ∀ ts, Closed p.level ts → Accepts stop p.reader (us ++ ts) x ts

theorem accepted_joins (r : Rank) (us ts : List Token) (x : Expr)
    (h : Accepted stop r.joins us x) (hc : Closed r.joins.level ts) :
    Accepts stop (.operand r) (us ++ ts) x ts := by
  refine accepts_operand stop r _ x ts ?_
  -- the chain of the next rank ends where this rank's operator, or something weaker, stands
  have ended (q : Rank) (hq : r.joins = .chain q) :
      Accepts stop r.joins.reader (us ++ ts) x ts := by
    rw [hq] at h hc ⊢
    exact h ts x ts (closed_mono _ _ ts (Nat.le_of_lt (level_lt_joins q)) hc)
      (accepts_more_end stop q x ts hc)
  cases r with
  | conjunction => exact h ts hc
  | product => exact h ts hc
  | _ => exact ended _ rfl

theorem derives_accepted (p : Phrase) (ls : List Lexeme) (x : Expr) (h : Derives p ls x)
    (us : List Token) (hu : us.map Token.lexeme = ls) : Accepted stop p us x := by
  induction h generalizing us with
  | plain _ ih =>
    intro ts hc
    refine accepts_conditional stop us ts _ hc (ih us hu ts _ ts ?_ ?_)
    · exact closed_mono _ _ ts (by decide) hc
    · exact accepts_more_end stop _ _ ts (closed_mono _ _ ts (by decide) hc)
  | cond _ _ _ ihc iha ihb =>
    intro ts hc
    obtain ⟨cs, us, rfl, hcs, hu⟩ := List.map_eq_append_iff.mp hu
    obtain ⟨q, us, rfl, hq, hu⟩ := List.map_eq_cons_iff.mp hu
    obtain ⟨as, us, rfl, has, hu⟩ := List.map_eq_append_iff.mp hu
    obtain ⟨e, bs, rfl, he, hbs⟩ := List.map_eq_cons_iff.mp hu
    simp only [List.append_assoc, List.cons_append]
    refine accepts_choice stop q e cs as (bs ++ ts) _ _ _ ts hq he ?_ ?_ (ihb bs hbs ts hc)
    · exact ihc cs hcs _ _ _ (closed_cons _ q _ _ hq (by decide))
        (accepts_more_end stop _ _ _ (closed_cons _ q _ _ hq (by decide)))
    · exact iha as has _ (closed_cons _ e _ _ he (by decide))
  | single _ ih =>
    intro ts y rest hc hm
    exact accepts_chain stop _ us ts _ y rest (accepted_joins stop _ us ts _ (ih us hu) hc) hm
  | joined _ hl _ ihx ihy =>
    intro ts z rest hc hm
    obtain ⟨vs, us, rfl, hvs, hu⟩ := List.map_eq_append_iff.mp hu
    obtain ⟨t, ws, rfl, ht, hws⟩ := List.map_eq_cons_iff.mp hu
    rw [List.append_assoc, List.cons_append]
    refine ihx vs hvs _ z rest (closed_cons _ t _ _ ht ?_) ?_
    · rw [strength_spells _ _ _ hl]
      exact level_lt_joins _
    · rw [← ht] at hl
      exact accepts_more stop _ t _ ws ts _ _ z rest hl
        (accepted_joins stop _ ws ts _ (ihy ws hws) hc) hm
  | negated _ ih =>
    intro ts hc
    obtain ⟨t, vs, rfl, ht, hvs⟩ := List.map_eq_cons_iff.mp hu
    exact accepts_not stop t _ _ ts ht (ih vs hvs ts hc)
  | affirmed h ih =>
    intro ts hc
    obtain ⟨l, _, rfl, hb⟩ := derives_starts _ _ _ h
    obtain ⟨t, vs, rfl, ht, hvs⟩ := List.map_eq_cons_iff.mp hu
    refine accepts_negation stop t (vs ++ ts) _ ts ?_ (ih _ hu ts _ ts ?_ ?_)
    · rw [ht, Bool.eq_false_iff]
      exact fun hn => by simpa [Phrase.admitsNot] using hb.word hn
    · exact closed_mono _ _ ts (by decide) hc
    · exact accepts_more_end stop _ _ ts hc
  | @folded _ v _ ih =>
    intro ts hc
    obtain ⟨t, vs, rfl, ht, hvs⟩ := List.map_eq_cons_iff.mp hu
    exact accepts_sign stop t .neg _ (.int v) ts (ht ▸ .neg) (ih vs hvs ts hc)
  | @sign l op _ x hl _ hf ih =>
    intro ts hc
    obtain ⟨t, vs, rfl, ht, hvs⟩ := List.map_eq_cons_iff.mp hu
    rw [← signed_unary op x hf]
    exact accepts_sign stop t op _ x ts (ht ▸ hl) (ih vs hvs ts hc)
  | unsigned _ ih =>
    intro ts hc
    exact ih us hu ts _ ts (closed_mono _ _ ts (by decide) hc) (accepts_trail_end stop _ ts hc)
  | bare h ih =>
    intro ts y rest hc ht
    obtain ⟨l, _, rfl, hb⟩ := derives_starts _ _ _ h
    obtain ⟨t, vs, rfl, htl, hvs⟩ := List.map_eq_cons_iff.mp hu
    refine accepts_prefixed stop t vs ts _ y rest ?_ (ih _ hu ts hc) ht
    rw [htl]
    cases hs : sign? l with
    | none => rfl
    | some op => simpa [Phrase.admitsSign] using hb.sign (by rw [hs]; rfl)
  | dotted _ w ih =>
    intro ts y rest hc ht
    obtain ⟨vs, us, rfl, hvs, hu⟩ := List.map_eq_append_iff.mp hu
    obtain ⟨d, us, rfl, hd, hu⟩ := List.map_eq_cons_iff.mp hu
    obtain ⟨t, rfl, htw⟩ := List.map_eq_singleton_iff.mp hu
    rw [List.append_assoc]
    exact ih vs hvs _ y rest (closed_cons _ d _ _ hd (by decide))
      (accepts_dotted stop d t w ts _ y rest hd htw ht)
  | indexed _ _ ihx ihi =>
    intro ts y rest hc ht
    obtain ⟨vs, us, rfl, hvs, hu⟩ := List.map_eq_append_iff.mp hu
    obtain ⟨b, us, rfl, hb, hu⟩ := List.map_eq_cons_iff.mp hu
    obtain ⟨is, us, rfl, his, hu⟩ := List.map_eq_append_iff.mp hu
    obtain ⟨e, rfl, he⟩ := List.map_eq_singleton_iff.mp hu
    simp only [List.append_assoc, List.cons_append, List.nil_append]
    have hi := ihi is his (e :: ts) (closed_cons _ e _ ts he (by decide))
    exact ihx vs hvs _ y rest (closed_cons _ b _ _ hb (by decide))
      (accepts_indexed stop b e is ts _ _ y rest hb he hi ht)
  | int hv =>
    intro ts _
    obtain ⟨t, rfl, ht⟩ := List.map_eq_singleton_iff.mp hu
    exact accepts_int stop t _ _ ts ht hv
  | float hv =>
    intro ts _
    obtain ⟨t, rfl, ht⟩ := List.map_eq_singleton_iff.mp hu
    exact accepts_float stop t _ _ ts ht hv
  | str v =>
    intro ts _
    obtain ⟨t, rfl, ht⟩ := List.map_eq_singleton_iff.mp hu
    exact accepts_str stop t v ts ht
  | yes =>
    intro ts _
    obtain ⟨t, rfl, ht⟩ := List.map_eq_singleton_iff.mp hu
    exact accepts_word stop t _ ts _ ts ht (by decide +kernel) (by rfl)
  | no =>
    intro ts _
    obtain ⟨t, rfl, ht⟩ := List.map_eq_singleton_iff.mp hu
    exact accepts_word stop t _ ts _ ts ht (by decide +kernel) (by rfl)
  | name hw =>
    intro ts hc
    obtain ⟨t, rfl, ht⟩ := List.map_eq_singleton_iff.mp hu
    exact accepts_name stop t _ ts ht hw hc
  | member hw ws v =>
    intro ts hc
    obtain ⟨t, us, rfl, ht, hu⟩ := List.map_eq_cons_iff.mp hu
    exact accepts_member stop t _ us ws v ts ht hw hu hc
  | group _ ih =>
    intro ts _
    obtain ⟨b, us, rfl, hb, hu⟩ := List.map_eq_cons_iff.mp hu
    obtain ⟨vs, us, rfl, hvs, hu⟩ := List.map_eq_append_iff.mp hu
    obtain ⟨e, rfl, he⟩ := List.map_eq_singleton_iff.mp hu
    simp only [List.append_assoc, List.cons_append, List.nil_append]
    exact accepts_group stop b e vs ts _ hb he
      (ih vs hvs _ (closed_cons _ e _ ts he (by decide)))
  | empty =>
    intro ts _
    obtain ⟨b, us, rfl, hb, hu⟩ := List.map_eq_cons_iff.mp hu
    obtain ⟨e, rfl, he⟩ := List.map_eq_singleton_iff.mp hu
    exact accepts_empty stop b e ts hb he
  | list h ih =>
    intro ts _
    obtain ⟨b, us, rfl, hb, hu⟩ := List.map_eq_cons_iff.mp hu
    obtain ⟨vs, us, rfl, hvs, hu⟩ := List.map_eq_append_iff.mp hu
    obtain ⟨e, rfl, he⟩ := List.map_eq_singleton_iff.mp hu
    simp only [List.append_assoc, List.cons_append, List.nil_append]
    have hi := ih vs hvs [] e ts _ he rfl
    obtain ⟨l, _, rfl, hl⟩ := derives_starts _ _ _ h
    obtain ⟨t, ws, rfl, ht, hws⟩ := List.map_eq_cons_iff.mp hvs
    exact accepts_list stop b t (ws ++ e :: ts) _ ts hb (ht ▸ hl.bracket) hi
  | last _ ih =>
    intro done e ts xs he hx
    obtain rfl := Expr.list.inj hx
    exact accepts_last stop e us ts done _ he
      (ih us hu _ (closed_cons _ e _ ts he (by decide)))
  | next _ _ ihx ihr =>
    intro done e ts xs he hx
    obtain rfl := Expr.list.inj hx
    obtain ⟨vs, us, rfl, hvs, hu⟩ := List.map_eq_append_iff.mp hu
    obtain ⟨c, ws, rfl, hc, hws⟩ := List.map_eq_cons_iff.mp hu
    rw [List.append_assoc, List.cons_append]
    refine accepts_next stop c vs _ done _ _ ts hc
      (ihx vs hvs _ (closed_cons _ c _ _ hc (by decide))) ?_
    simpa using ihr ws hws (_ :: done) e ts _ he rfl

end

end FormatFuzz.Expr
