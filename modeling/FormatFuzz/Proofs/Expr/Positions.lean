import FormatFuzz.Proofs.Expr.Reading

/-!
# Readers and positions

The readers decide by lexemes. Positions are only carried along, and stand in an answer only where
a text is refused. Without its positions a token list has the same answer without its position.
-/

set_option autoImplicit false

namespace FormatFuzz

def Token.erased (t : Token) : Token := ⟨t.lexeme, 0, 0⟩

namespace Expr

section
variable {α β : Type}

def unplaced : Except Stop (α × List Token) → Except Stop (α × List Token)
  | .ok (x, ts) => .ok (x, ts.map Token.erased)
  | .error (_, f) => .error (0, f)

theorem bind_unplaced (r r' : Except Stop (α × List Token))
    (k k' : α × List Token → Except Stop (β × List Token)) (hr : r' = unplaced r)
    (hk : ∀ x ts, k' (x, ts.map Token.erased) = unplaced (k (x, ts))) :
    (r' >>= k') = unplaced (r >>= k) := by
  subst hr
  cases r with
  | error e => rfl
  | ok a => exact hk a.1 a.2

end

theorem segments_erased (stop : Nat) (ts : List Token) :
    segments 0 (ts.map Token.erased) = unplaced (segments stop ts) := by
  fun_induction segments stop ts with
  | case1 a b t rest w hw ih =>
    simp only [List.map_cons, Token.erased, segments, hw]
    rw [ih]
    cases segments stop rest <;> rfl
  | case2 a b t rest hw =>
    obtain ⟨l, c, d⟩ := t
    cases l with
    | word w => exact absurd rfl (hw w)
    | _ => rfl
  | case3 a b => rfl
  | case4 ts h₁ h₂ =>
    rcases ts with _ | ⟨⟨l, a, b⟩, rest⟩
    · rfl
    cases l with
    | symbol s =>
      cases s with
      | scope =>
        cases rest with
        | nil => exact absurd rfl (h₂ a b)
        | cons t rest => exact absurd rfl (h₁ a b t rest)
      | _ => rfl
    | _ => rfl

theorem word_erased (stop : Nat) (w : String) (ts : List Token) :
    word 0 w (ts.map Token.erased) = unplaced (word stop w ts) := by
  unfold word
  rw [segments_erased stop]
  split
  next => rfl
  next =>
    split
    next => rfl
    next =>
      rcases segments stop ts with e | ⟨ss, rest⟩
      · rfl
      · cases ss <;> rfl

def Placeless (stop n : Nat) : Prop :=
  ∀ (rd : Reader) (ts : List Token),
    rd.run 0 n (ts.map Token.erased) = unplaced (rd.run stop n ts)

section
variable (stop n : Nat) (ih : Placeless stop n) (ts : List Token)
include ih

theorem conditional_erased :
    conditional 0 (n + 1) (ts.map Token.erased) = unplaced (conditional stop (n + 1) ts) := by
  unfold conditional
  apply bind_unplaced _ _ _ _ (ih (.chain .disjunction) ts)
  intro c rest
  rcases rest with _ | ⟨⟨l, q, e⟩, rest⟩
  · rfl
  cases l with
  | symbol s =>
    cases s with
    | question =>
      apply bind_unplaced _ _ _ _ (ih .conditional rest)
      intro a rest
      rcases rest with _ | ⟨⟨l, p, e⟩, rest⟩
      · rfl
      cases l with
      | symbol s =>
        cases s with
        | colon =>
          apply bind_unplaced _ _ _ _ (ih .conditional rest)
          exact fun b rest => rfl
        | _ => rfl
      | _ => rfl
    | _ => rfl
  | _ => rfl

theorem chain_erased (r : Rank) :
    chain 0 (n + 1) r (ts.map Token.erased) = unplaced (chain stop (n + 1) r ts) := by
  unfold chain
  apply bind_unplaced _ _ _ _ (ih (.operand r) ts)
  exact fun x rest => ih (.more r x) rest

theorem more_erased (r : Rank) (x : Expr) :
    more 0 (n + 1) r x (ts.map Token.erased) = unplaced (more stop (n + 1) r x ts) := by
  unfold more
  cases ts with
  | nil => rfl
  | cons t rest =>
    have hl : t.erased.lexeme = t.lexeme := rfl
    simp only [List.map_cons, hl]
    cases r.op? t.lexeme with
    | none => rfl
    | some op =>
      apply bind_unplaced _ _ _ _ (ih (.operand r) rest)
      exact fun y rest => ih (.more r (.binary op x y)) rest

theorem negation_erased :
    negation 0 (n + 1) (ts.map Token.erased) = unplaced (negation stop (n + 1) ts) := by
  unfold negation
  cases ts with
  | nil => exact ih (.chain .comparison) []
  | cons t rest =>
    have hl : t.erased.lexeme = t.lexeme := rfl
    simp only [List.map_cons, hl]
    split
    next =>
      apply bind_unplaced _ _ _ _ (ih .negation rest)
      exact fun x rest => rfl
    next => exact ih (.chain .comparison) (t :: rest)

theorem operand_erased (r : Rank) :
    operand 0 (n + 1) r (ts.map Token.erased) = unplaced (operand stop (n + 1) r ts) := by
  have hrun := ih r.joins.reader ts
  rw [← operand_run, ← operand_run] at hrun
  exact hrun

theorem prefixed_erased :
    prefixed 0 (n + 1) (ts.map Token.erased) = unplaced (prefixed stop (n + 1) ts) := by
  unfold prefixed
  cases ts with
  | nil => rfl
  | cons t rest =>
    have hl : t.erased.lexeme = t.lexeme := rfl
    simp only [List.map_cons, hl]
    cases sign? t.lexeme with
    | some op =>
      apply bind_unplaced _ _ _ _ (ih .prefixed rest)
      exact fun x rest => rfl
    | none =>
      apply bind_unplaced _ _ _ _ (ih .primary (t :: rest))
      exact fun x rest => ih (.trail x) rest

theorem trail_erased (x : Expr) :
    trail 0 (n + 1) x (ts.map Token.erased) = unplaced (trail stop (n + 1) x ts) := by
  unfold trail
  rcases ts with _ | ⟨⟨l, a, b⟩, rest⟩
  · rfl
  cases l with
  | symbol s =>
    cases s with
    | dot =>
      rcases rest with _ | ⟨⟨l, c, d⟩, rest⟩
      · rfl
      cases l with
      | word w => exact ih (.trail (.attr x (Text.ofAscii w))) rest
      | _ => rfl
    | lbracket =>
      apply bind_unplaced _ _ _ _ (ih .conditional rest)
      intro i rest
      rcases rest with _ | ⟨⟨l, c, d⟩, rest⟩
      · rfl
      cases l with
      | symbol s =>
        cases s with
        | rbracket => exact ih (.trail (.index x i)) rest
        | _ => rfl
      | _ => rfl
    | _ => rfl
  | _ => rfl

theorem primary_erased :
    primary 0 (n + 1) (ts.map Token.erased) = unplaced (primary stop (n + 1) ts) := by
  rcases ts with _ | ⟨⟨l, a, b⟩, rest⟩
  · rfl
  simp only [List.map_cons, Token.erased, primary]
  cases l with
  | int s =>
    dsimp only
    cases Numeral.integer? (Text.ofAscii s).toList <;> rfl
  | float s =>
    dsimp only
    cases Numeral.double ((Text.ofAscii s).toList.filter (· != '_')) <;> rfl
  | str v => rfl
  | word w =>
    dsimp only
    split
    next => rfl
    next => exact word_erased stop (Text.ofAscii w) rest
  | symbol s =>
    cases s with
    | lparen =>
      apply bind_unplaced _ _ _ _ (ih .conditional rest)
      intro x rest
      rcases rest with _ | ⟨⟨l, c, d⟩, rest⟩
      · rfl
      cases l with
      | symbol s => cases s <;> rfl
      | _ => rfl
    | lbracket =>
      have hitems := ih (.items []) rest
      rcases rest with _ | ⟨⟨l, c, d⟩, rest⟩
      · exact hitems
      cases l with
      | symbol s =>
        cases s with
        | rbracket => rfl
        | _ => exact hitems
      | _ => exact hitems
    | _ => rfl

theorem items_erased (done : List Expr) :
    items 0 (n + 1) done (ts.map Token.erased) = unplaced (items stop (n + 1) done ts) := by
  unfold items
  apply bind_unplaced _ _ _ _ (ih .conditional ts)
  intro x rest
  rcases rest with _ | ⟨⟨l, a, b⟩, rest⟩
  · rfl
  cases l with
  | symbol s =>
    cases s with
    | comma => exact ih (.items (x :: done)) rest
    | _ => rfl
  | _ => rfl

end

theorem reader_erased (stop n : Nat) : Placeless stop n := by
  induction n with
  | zero =>
    intro rd ts
    cases rd <;> simp only [Reader.run, conditional, chain, more, operand, negation, prefixed,
      trail, primary, items, unplaced]
  | succ n ih =>
    intro rd ts
    cases rd with
    | conditional => exact conditional_erased stop n ih ts
    | chain r => exact chain_erased stop n ih ts r
    | more r x => exact more_erased stop n ih ts r x
    | operand r => exact operand_erased stop n ih ts r
    | negation => exact negation_erased stop n ih ts
    | prefixed => exact prefixed_erased stop n ih ts
    | trail x => exact trail_erased stop n ih ts x
    | primary => exact primary_erased stop n ih ts
    | items done => exact items_erased stop n ih ts done

theorem ofTokens_erased (stop : Nat) (ts : List Token) :
    (ofTokens 0 (ts.map Token.erased)).mapError Prod.snd
      = (ofTokens stop ts).mapError Prod.snd := by
  have h := reader_erased stop (32 * (ts.length + 1)) .conditional ts
  simp only [Reader.run] at h
  unfold ofTokens
  rw [List.length_map, h]
  rcases conditional stop (32 * (ts.length + 1)) ts with e | ⟨x, rest⟩
  · rfl
  · cases rest <;> rfl

theorem ofTokens_lexemes (stop stop' : Nat) (ts us : List Token)
    (h : us.map Token.lexeme = ts.map Token.lexeme) :
    (ofTokens stop' us).mapError Prod.snd = (ofTokens stop ts).mapError Prod.snd := by
  have herased (vs : List Token) :
      vs.map Token.erased = (vs.map Token.lexeme).map fun l => ⟨l, 0, 0⟩ := by
    rw [List.map_map]
    rfl
  rw [← ofTokens_erased stop ts, ← ofTokens_erased stop' us, herased, h, herased]

end Expr
end FormatFuzz
